import MinervaOS.Lib.Prog
import MinervaOS.Net.Tcp

/-!
# DNS replies

`net_handle_dns` walks a message and notes the addresses of its answer section while it does. What
it noted of a message that turns out to be cut short stays, and `dns_last_ip` is set by the first
address only as long as it is not valid yet; `Settled` says when neither matters.
-/

namespace MinervaOS.Net

open Prog

def dnsQueryId : UInt16 := 0x4D4E

/-- What a `uint16_t` holds of `n`. -/
def u16 (n : Nat) : Nat := n % 65536

theorem u16_of_lt {n : Nat} (h : n < 65536) : u16 n = n := Nat.mod_eq_of_lt h

/-- The fields of `g_net` that `net_handle_dns` reads or writes. -/
structure Dns where
  lastDnsId : UInt16
  lastDnsFlags : UInt16
  dnsIpCount : Nat
  dnsIpSelected : Nat
  /-- `dns_result_ips`, which has four entries. -/
  dnsResultIps : Nat → List UInt8
  dnsLastIp : List UInt8
  dnsLastIpValid : Bool
  dnsReplies : UInt32

/-- More steps than there are values of `offset`. -/
def skipSteps : Nat := 65537

/-- `dns_skip_name`; a name whose labels lead back into it is skipped for ever. -/
def dnsSkipName (dns : List UInt8) : Nat → Nat → Prog Dns Nat
  | 0, _ => failure
  | steps + 1, offset => do
    if !(offset < dns.length) then return dns.length
    let label := get8 dns offset
    let offset := u16 (offset + 1)
    if label = 0 then return offset
    if label &&& 0xC0 = 0xC0 then
      if offset ≥ dns.length then return dns.length
      return u16 (offset + 1)
    dnsSkipName dns steps (u16 (offset + label.toNat))

/-- The loop over the questions, `n` left; `none` is a returned 0. -/
def skipQuestions (dns : List UInt8) : Nat → Nat → Prog Dns (Option Nat)
  | 0, offset => return some offset
  | n + 1, offset => do
    let offset ← dnsSkipName dns skipSteps offset
    if offset + 4 > dns.length then return none
    skipQuestions dns n (u16 (offset + 4))

/-- What the loop over the records does with the four bytes of an address. -/
def noteAddress (ip : List UInt8) (s : Dns) : Dns :=
  let s := if s.dnsIpCount < 4 then
    { s with
      dnsResultIps := Function.update s.dnsResultIps s.dnsIpCount ip
      dnsIpCount := s.dnsIpCount + 1 }
  else s
  if s.dnsLastIpValid then s else { s with dnsLastIp := ip, dnsLastIpValid := true }

/-- `type == 1 && klass == 1 && rdlength == 4`. -/
def isAddress (dns : List UInt8) (offset : Nat) : Bool :=
  get16be dns offset == 1 && get16be dns (offset + 2) == 1 && get16be dns (offset + 8) == 4

/-- The loop over the records, `n` left; `false` is a returned 0. -/
def readRecords (dns : List UInt8) : Nat → Nat → Prog Dns Bool
  | 0, _ => return true
  | n + 1, offset => do
    let record ← dnsSkipName dns skipSteps offset
    if record + 10 > dns.length then return false
    let rdlength := (get16be dns (record + 8)).toNat
    let offset := u16 (record + 10)
    if offset + rdlength > dns.length then return false
    if isAddress dns record then modify (noteAddress ((dns.drop offset).take 4))
    readRecords dns n (u16 (offset + rdlength))

def netHandleDns (dns : List UInt8) : Prog Dns Bool := do
  if dns.length < 12 then return false
  modify fun s => { s with lastDnsId := get16be dns 0, lastDnsFlags := get16be dns 2 }
  if get16be dns 0 != dnsQueryId then return false
  if get16be dns 2 &&& 0x8000 = 0 then return false
  modify fun s => { s with dnsIpCount := 0, dnsIpSelected := 0 }
  let some offset ← skipQuestions dns (get16be dns 4).toNat 12 | return false
  if !(← readRecords dns (get16be dns 6).toNat offset) then return false
  if (← get).dnsLastIpValid then
    modify fun s => { s with dnsReplies := s.dnsReplies + 1 }
    return true
  return false

/-! ## Messages -/

/-- Where the name at an offset ends, if it ends inside the message. -/
def nameEndFrom (dns : List UInt8) : Nat → Nat → Option Nat
  | 0, _ => none
  | steps + 1, offset =>
    match dns[offset]? with
    | none => none
    | some label =>
      if label = 0 then some (offset + 1)
      else if label &&& 0xC0 = 0xC0 then if offset + 1 < dns.length then some (offset + 2) else none
      else nameEndFrom dns steps (offset + 1 + label.toNat)

def nameEnd (dns : List UInt8) (offset : Nat) : Option Nat :=
  nameEndFrom dns (dns.length + 1) offset

/-- Where the questions at an offset end, if they are whole. -/
def questionsEnd (dns : List UInt8) : Nat → Nat → Option Nat
  | 0, offset => some offset
  | n + 1, offset =>
    match nameEnd dns offset with
    | none => none
    | some offset => if offset + 4 ≤ dns.length then questionsEnd dns n (offset + 4) else none

/-- The A/IN addresses of the records at an offset, up to the first one that is cut short, and
whether all of them are whole. -/
def addressesFrom (dns : List UInt8) : Nat → Nat → List (List UInt8) × Bool
  | 0, _ => ([], true)
  | n + 1, offset =>
    match nameEnd dns offset with
    | none => ([], false)
    | some record =>
      let stop := record + 10 + (get16be dns (record + 8)).toNat
      if record + 10 ≤ dns.length ∧ stop ≤ dns.length then
        let rest := addressesFrom dns n stop
        if isAddress dns record then (((dns.drop (record + 10)).take 4) :: rest.1, rest.2) else rest
      else ([], false)

/-- The A/IN addresses of the answer section as far as the message is whole, and whether all of it
is. -/
def addresses (dns : List UInt8) : List (List UInt8) × Bool :=
  match questionsEnd dns (get16be dns 4).toNat 12 with
  | none => ([], false)
  | some offset => addressesFrom dns (get16be dns 6).toNat offset

/-- The header is that of a reply to the query of `build_dns_query`. -/
def isReply (dns : List UInt8) : Bool :=
  12 ≤ dns.length && get16be dns 0 == dnsQueryId && get16be dns 2 &&& 0x8000 != 0

/-! ## The walk -/

section

variable {dns : List UInt8}

theorem get8_of_lt {offset : Nat} (h : offset < dns.length) :
    dns[offset]? = some (get8 dns offset) := by
  unfold get8
  rw [List.getD_eq_getElem?_getD, List.getElem?_eq_getElem h, Option.getD_some]

/-- A label that the mask tells from a pointer is shorter than 192 bytes. -/
theorem label_lt {label : UInt8} (h : label &&& 0xC0 ≠ 0xC0) : label.toNat < 192 := by
  have hall : ∀ n : Fin 256, UInt8.ofNat n &&& 0xC0 ≠ 0xC0 → n.val < 192 := by decide +kernel
  have hlabel := hall ⟨label.toNat, label.toNat_lt⟩
  rw [UInt8.ofNat_toNat] at hlabel
  exact hlabel h

/-- `dns_skip_name` returns the length of a message in which the name does not end. -/
theorem dnsSkipName_eq (hlen : dns.length ≤ 65344) : ∀ {steps steps' offset : Nat},
    dns.length - offset < steps → dns.length - offset < steps' →
    dnsSkipName dns steps offset = pure ((nameEndFrom dns steps' offset).getD dns.length) := by
  intro steps
  induction steps with
  | zero => exact fun h => absurd h (Nat.not_lt_zero _)
  | succ steps ih =>
    intro steps' offset h h'
    obtain ⟨steps', rfl⟩ : ∃ k, steps' = k + 1 := ⟨steps' - 1, by omega⟩
    unfold dnsSkipName nameEndFrom
    by_cases hlt : offset < dns.length
    · rw [if_neg (by simpa using hlt), get8_of_lt hlt, u16_of_lt (by omega)]
      dsimp only
      split_ifs with hzero hpointer hinside hinside
      · rfl
      · omega
      · rfl
      · rw [u16_of_lt (by omega)]
        rfl
      · omega
      · have := label_lt hpointer
        rw [u16_of_lt (by omega)]
        exact ih (by omega) (by omega)
    · rw [if_pos (by simpa using hlt), List.getElem?_eq_none (Nat.not_lt.1 hlt)]
      rfl

theorem dnsSkipName_steps (hlen : dns.length ≤ 65344) (offset : Nat) :
    dnsSkipName dns skipSteps offset = pure ((nameEnd dns offset).getD dns.length) :=
  dnsSkipName_eq hlen (by unfold skipSteps; omega) (by omega)

theorem skipQuestions_eq (hlen : dns.length ≤ 65344) (n offset : Nat) :
    skipQuestions dns n offset = pure (questionsEnd dns n offset) := by
  induction n generalizing offset with
  | zero => rfl
  | succ n ih =>
    unfold skipQuestions questionsEnd
    rw [dnsSkipName_steps hlen, pure_bind]
    cases hname : nameEnd dns offset with
    | none =>
      rw [Option.getD_none, if_pos (by omega)]
    | some stop =>
      rw [Option.getD_some]
      by_cases hfits : stop + 4 ≤ dns.length
      · rw [if_neg (by omega), u16_of_lt (by omega), ih]
        simp [hfits]
      · rw [if_pos (by omega)]
        simp [hfits]

/-- The loop notes the addresses of the records until one is cut short. -/
theorem readRecords_eq (hlen : dns.length ≤ 65344) (n offset : Nat) (s : Dns) :
    readRecords dns n offset s = some ((addressesFrom dns n offset).2,
      (addressesFrom dns n offset).1.foldl (fun s ip => noteAddress ip s) s) := by
  induction n generalizing offset s with
  | zero => rfl
  | succ n ih =>
    unfold readRecords addressesFrom
    rw [dnsSkipName_steps hlen, pure_bind]
    cases hname : nameEnd dns offset with
    | none =>
      rw [Option.getD_none, if_pos (by omega)]
      rfl
    | some record =>
      rw [Option.getD_some]
      by_cases hfits : record + 10 ≤ dns.length ∧
        record + 10 + (get16be dns (record + 8)).toNat ≤ dns.length
      · rw [if_neg (by omega), u16_of_lt (by omega), if_neg (by omega), u16_of_lt (by omega)]
        simp only [hfits, if_true, and_self]
        cases isAddress dns record
        · exact ih _ s
        · exact ih _ _
      · have hnone : (let stop := record + 10 + (get16be dns (record + 8)).toNat
            if record + 10 ≤ dns.length ∧ stop ≤ dns.length then
              let rest := addressesFrom dns n stop
              if isAddress dns record then (((dns.drop (record + 10)).take 4) :: rest.1, rest.2)
              else rest
            else ([], false)) = ([], false) := if_neg hfits
        dsimp only at hnone ⊢
        rw [hnone]
        by_cases hhead : record + 10 ≤ dns.length
        · rw [if_neg (by omega), u16_of_lt (by omega), if_pos (by omega)]
          rfl
        · rw [if_pos (by omega)]
          rfl

/-! ## What is noted -/

theorem noteAddress_eq (ip : List UInt8) (s : Dns) : noteAddress ip s = { s with
    dnsResultIps := if s.dnsIpCount < 4 then Function.update s.dnsResultIps s.dnsIpCount ip
      else s.dnsResultIps
    dnsIpCount := if s.dnsIpCount < 4 then s.dnsIpCount + 1 else s.dnsIpCount
    dnsLastIp := if s.dnsLastIpValid then s.dnsLastIp else ip
    dnsLastIpValid := true } := by
  unfold noteAddress
  by_cases hcount : s.dnsIpCount < 4 <;> cases hvalid : s.dnsLastIpValid <;> simp [hcount, hvalid]
  rw [← hvalid]

/-- The addresses noted in turn. -/
def Dns.noteAll (s : Dns) (ips : List (List UInt8)) : Dns :=
  ips.foldl (fun s ip => noteAddress ip s) s

theorem noteAll_count : ∀ (ips : List (List UInt8)) (s : Dns), s.dnsIpCount ≤ 4 →
    (s.noteAll ips).dnsIpCount = min 4 (s.dnsIpCount + ips.length) ∧
      (s.noteAll ips).dnsIpSelected = s.dnsIpSelected
  | [], s, h => ⟨(Nat.min_eq_right h).symm, rfl⟩
  | ip :: ips, s, h => by
    have hcount : (noteAddress ip s).dnsIpCount = min 4 (s.dnsIpCount + 1) := by
      rw [noteAddress_eq]
      dsimp only
      split_ifs <;> omega
    obtain ⟨hrest, hrest'⟩ := noteAll_count ips (noteAddress ip s) (by omega)
    refine ⟨hrest.trans ?_, hrest'.trans (by rw [noteAddress_eq])⟩
    rw [hcount, List.length_cons]
    omega

/-- The entries from `dns_ip_count` on are filled in order, as far as there are four. -/
theorem noteAll_ips : ∀ (ips : List (List UInt8)) (s : Dns) (i : Nat),
    (s.noteAll ips).dnsResultIps i = if s.dnsIpCount ≤ i ∧ i < 4 then
      ips.getD (i - s.dnsIpCount) (s.dnsResultIps i) else s.dnsResultIps i
  | [], s, i => by simp [Dns.noteAll]
  | ip :: ips, s, i => by
    refine (noteAll_ips ips (noteAddress ip s) i).trans ?_
    rw [noteAddress_eq]
    dsimp only
    by_cases hcount : s.dnsIpCount < 4
    · rw [if_pos hcount, if_pos hcount]
      rcases Nat.lt_trichotomy i s.dnsIpCount with hi | rfl | hi
      · rw [if_neg (by omega), if_neg (by omega), Function.update_of_ne (by omega)]
      · rw [if_neg (by omega), if_pos ⟨Nat.le_refl _, hcount⟩, Function.update_self, Nat.sub_self]
        rfl
      · have hsub : i - s.dnsIpCount = i - (s.dnsIpCount + 1) + 1 := by omega
        rw [Function.update_of_ne (by omega), hsub, List.getD_cons_succ]
        exact if_congr (by omega) rfl rfl
    · rw [if_neg hcount, if_neg hcount, if_neg (by omega), if_neg (by omega)]

theorem noteAll_last : ∀ (ips : List (List UInt8)) (s : Dns),
    (s.noteAll ips).dnsLastIp = (if s.dnsLastIpValid then s.dnsLastIp else ips.headD s.dnsLastIp) ∧
      (s.noteAll ips).dnsLastIpValid = (s.dnsLastIpValid || !ips.isEmpty)
  | [], s => by simp [Dns.noteAll]
  | ip :: ips, s => by
    obtain ⟨hrest, hrest'⟩ := noteAll_last ips (noteAddress ip s)
    have hlast : (noteAddress ip s).dnsLastIp = if s.dnsLastIpValid then s.dnsLastIp else ip := by
      rw [noteAddress_eq]
    have hvalid : (noteAddress ip s).dnsLastIpValid = true := by rw [noteAddress_eq]
    rw [hvalid] at hrest hrest'
    exact ⟨hrest.trans hlast, hrest'.trans (by simp)⟩

/-! ## Atomicity -/

/-- The results of the last lookup are as they were. -/
structure SameResults (s s' : Dns) : Prop where
  count : s'.dnsIpCount = s.dnsIpCount
  selected : s'.dnsIpSelected = s.dnsIpSelected
  ips : s'.dnsResultIps = s.dnsResultIps
  last : s'.dnsLastIp = s.dnsLastIp
  valid : s'.dnsLastIpValid = s.dnsLastIpValid

/-- The results are the first four addresses of a message that is whole. -/
structure FromMessage (dns : List UInt8) (s' : Dns) : Prop where
  whole : (addresses dns).2 = true
  count : s'.dnsIpCount = min 4 (addresses dns).1.length
  ips : ∀ i < s'.dnsIpCount, (addresses dns).1[i]? = some (s'.dnsResultIps i)
  last : (addresses dns).1.head? = some s'.dnsLastIp

/-- What the walk notes before it stops is there already, or the whole message is taken over. -/
def Settled (dns : List UInt8) (s : Dns) : Prop :=
  isReply dns = true →
    if (addresses dns).2 = true ∧ (s.dnsLastIpValid = true ∨ (addresses dns).1 ≠ []) then
      s.dnsLastIpValid = true → (addresses dns).1.head? = some s.dnsLastIp
    else
      s.dnsIpCount = min 4 (addresses dns).1.length ∧ s.dnsIpSelected = 0 ∧
        (∀ i < s.dnsIpCount, (addresses dns).1[i]? = some (s.dnsResultIps i)) ∧
        ((addresses dns).1 = [] ∨ s.dnsLastIpValid = true)

/-- The state in which the walk of a reply ends. -/
def Dns.walked (s : Dns) (dns : List UInt8) : Dns :=
  Dns.noteAll { s with
    lastDnsId := get16be dns 0, lastDnsFlags := get16be dns 2, dnsIpCount := 0, dnsIpSelected := 0 }
    (addresses dns).1

theorem SameResults.refl (s : Dns) : SameResults s s := ⟨rfl, rfl, rfl, rfl, rfl⟩

theorem SameResults.symm {s s' : Dns} (h : SameResults s s') : SameResults s' s :=
  ⟨h.count.symm, h.selected.symm, h.ips.symm, h.last.symm, h.valid.symm⟩

theorem SameResults.trans {s s₁ s' : Dns} (h : SameResults s s₁) (h' : SameResults s₁ s') :
    SameResults s s' :=
  ⟨h'.count.trans h.count, h'.selected.trans h.selected, h'.ips.trans h.ips, h'.last.trans h.last,
    h'.valid.trans h.valid⟩

theorem FromMessage.same {s s' : Dns} (h : SameResults s s') (hm : FromMessage dns s) :
    FromMessage dns s' where
  whole := hm.whole
  count := h.count.trans hm.count
  ips i hi := by
    rw [h.ips]
    exact hm.ips i (h.count ▸ hi)
  last := hm.last.trans (congrArg some h.last.symm)

theorem netHandleDns_of_not_reply (h : isReply dns = false) (s : Dns) :
    Total (netHandleDns dns) s fun ok s' => ok = false ∧ SameResults s s' := by
  unfold netHandleDns
  simp only [total_ite, total_bind, total_modify, total_pure]
  refine ⟨fun _ => ⟨trivial, .refl s⟩,
      fun hlen => ⟨fun _ => ⟨trivial, ⟨rfl, rfl, rfl, rfl, rfl⟩⟩, fun hid =>
    ⟨fun _ => ⟨trivial, ⟨rfl, rfl, rfl, rfl, rfl⟩⟩, fun hflag => ?_⟩⟩⟩
  simp_all [isReply]

theorem netHandleDns_of_reply (hlen : dns.length ≤ 65344) (h : isReply dns = true) (s : Dns) :
    Total (netHandleDns dns) s fun ok s' => SameResults (s.walked dns) s' ∧
      ok = ((addresses dns).2 && (s.walked dns).dnsLastIpValid) := by
  have hlong : ¬dns.length < 12 ∧ (get16be dns 0 != dnsQueryId) = false ∧
      ¬get16be dns 2 &&& 0x8000 = 0 := by simpa [isReply, and_assoc] using h
  obtain ⟨hshort, hid, hflag⟩ := hlong
  unfold netHandleDns
  rw [if_neg hshort, total_bind, total_modify, hid, if_neg Bool.false_ne_true,
    if_neg hflag, total_bind, total_modify, skipQuestions_eq hlen, pure_bind]
  unfold Dns.walked addresses
  cases questionsEnd dns (get16be dns 4).toNat 12 with
  | none => exact (total_pure ..).2 ⟨.refl _, rfl⟩
  | some offset =>
    refine (total_bind_of_eq (readRecords_eq hlen _ _ _)).2 ?_
    dsimp only
    cases (addressesFrom dns (get16be dns 6).toNat offset).2
    · exact (total_pure ..).2 ⟨.refl _, rfl⟩
    · refine (total_bind ..).2
        ((total_get ..).2 ((total_ite ..).2 ⟨fun hvalid => ?_, fun hvalid => ?_⟩))
      · exact (total_bind ..).2 ((total_modify ..).2 ((total_pure ..).2
          ⟨⟨rfl, rfl, rfl, rfl, rfl⟩, hvalid.symm⟩))
      · exact (total_pure ..).2 ⟨.refl _, (Bool.eq_false_iff.2 hvalid).symm⟩

/-- The results after the walk of a reply. -/
theorem walked_spec (dns : List UInt8) (s : Dns) :
    (s.walked dns).dnsIpCount = min 4 (addresses dns).1.length ∧ (s.walked dns).dnsIpSelected = 0 ∧
      (∀ i, (s.walked dns).dnsResultIps i = if i < 4 then
        (addresses dns).1.getD i (s.dnsResultIps i) else s.dnsResultIps i) ∧
      (s.walked dns).dnsLastIp = (if s.dnsLastIpValid then s.dnsLastIp
        else (addresses dns).1.headD s.dnsLastIp) ∧
      (s.walked dns).dnsLastIpValid = (s.dnsLastIpValid || !(addresses dns).1.isEmpty) := by
  obtain ⟨hcount, hselected⟩ := noteAll_count (addresses dns).1 { s with
    lastDnsId := get16be dns 0, lastDnsFlags := get16be dns 2, dnsIpCount := 0, dnsIpSelected := 0 }
    (Nat.zero_le _)
  obtain ⟨hlast, hvalid⟩ := noteAll_last (addresses dns).1 { s with
    lastDnsId := get16be dns 0, lastDnsFlags := get16be dns 2, dnsIpCount := 0, dnsIpSelected := 0 }
  refine ⟨hcount.trans (by simp), hselected, fun i => ?_, hlast, hvalid⟩
  exact (noteAll_ips _ _ i).trans (by simp)

/-- What the walk leaves is what was there exactly when it notes what was there. -/
theorem sameResults_walked_iff (dns : List UInt8) (s : Dns) : SameResults s (s.walked dns) ↔
    s.dnsIpCount = min 4 (addresses dns).1.length ∧ s.dnsIpSelected = 0 ∧
      (∀ i < s.dnsIpCount, (addresses dns).1[i]? = some (s.dnsResultIps i)) ∧
      ((addresses dns).1 = [] ∨ s.dnsLastIpValid = true) := by
  obtain ⟨hcount, hselected, hips, hlast, hvalid⟩ := walked_spec dns s
  constructor
  · intro h
    have hc := h.count.symm.trans hcount
    refine ⟨hc, h.selected.symm.trans hselected, fun i hi => ?_, ?_⟩
    · have hlt : i < (addresses dns).1.length := by omega
      have hsame := (congrFun h.ips i).symm.trans (hips i)
      rw [if_pos (by omega), List.getD_eq_getElem?_getD, List.getElem?_eq_getElem hlt,
        Option.getD_some] at hsame
      rw [hsame, List.getElem?_eq_getElem hlt]
    · have hsame := h.valid.symm.trans hvalid
      cases hv : s.dnsLastIpValid with
      | true => exact .inr rfl
      | false =>
        rw [hv] at hsame
        exact .inl (by simpa using hsame)
  · rintro ⟨hc, hs, hi, hv⟩
    refine ⟨hcount.trans hc.symm, hselected.trans hs.symm, funext fun i => ?_, ?_, ?_⟩
    · rw [hips]
      split_ifs with h4
      · rw [List.getD_eq_getElem?_getD]
        by_cases hlt : i < (addresses dns).1.length
        · rw [hi i (by omega), Option.getD_some]
        · rw [List.getElem?_eq_none (Nat.not_lt.1 hlt), Option.getD_none]
      · rfl
    · rw [hlast]
      rcases hv with hv | hv
      · simp [hv]
      · rw [if_pos hv]
    · rw [hvalid]
      rcases hv with hv | hv
      · simp [hv]
      · simp [hv]

theorem fromMessage_walked_iff (s : Dns) (h : (addresses dns).2 = true)
    (hsome : s.dnsLastIpValid = true ∨ (addresses dns).1 ≠ []) : FromMessage dns (s.walked dns) ↔
      (s.dnsLastIpValid = true → (addresses dns).1.head? = some s.dnsLastIp) := by
  obtain ⟨hcount, hselected, hips, hlast, hvalid⟩ := walked_spec dns s
  constructor
  · intro hm hv
    rw [hm.last, hlast, if_pos hv]
  · intro hfirst
    refine ⟨h, hcount, fun i hi => ?_, ?_⟩
    · have hlt : i < (addresses dns).1.length := by omega
      rw [hips, if_pos (by omega), List.getD_eq_getElem?_getD, List.getElem?_eq_getElem hlt,
        Option.getD_some]
    · rw [hlast]
      split_ifs with hv
      · exact hfirst hv
      · cases hl : (addresses dns).1 with
        | nil => exact absurd hl (hsome.resolve_left hv)
        | cons ip ips => rfl

/-- A returned 0 leaves the results as they were and a returned 1 takes them from a whole message
exactly if the message and the results before it are settled. -/
theorem atomic_iff (hlen : dns.length ≤ 65344) (s : Dns) :
    Total (netHandleDns dns) s (fun ok s' => (ok = false → SameResults s s') ∧
      (ok = true → FromMessage dns s')) ↔ Settled dns s := by
  unfold Settled
  cases hreply : isReply dns with
  | false =>
    refine iff_of_true ?_ (fun h => by cases h)
    refine (netHandleDns_of_not_reply hreply s).mono fun ok s' ⟨hok, hs⟩ =>
      ⟨fun _ => hs, fun h => ?_⟩
    rw [hok] at h
    cases h
  | true =>
    obtain ⟨ok, s', hrun, hs, hok⟩ := netHandleDns_of_reply hlen hreply s
    have hiff : Total (netHandleDns dns) s (fun ok s' => (ok = false → SameResults s s') ∧
        (ok = true → FromMessage dns s')) ↔
        (ok = false → SameResults s s') ∧ (ok = true → FromMessage dns s') :=
      ⟨fun h => h.of_eq hrun, fun h => ⟨ok, s', hrun, h⟩⟩
    rw [hiff, forall_prop_of_true rfl]
    rw [(walked_spec dns s).2.2.2.2] at hok
    by_cases hdone : (addresses dns).2 = true ∧ (s.dnsLastIpValid = true ∨ (addresses dns).1 ≠ [])
    · have htrue : ok = true := by
        rw [hok]
        simpa using hdone
      rw [if_pos hdone, ← fromMessage_walked_iff s hdone.1 hdone.2, htrue]
      exact ⟨fun h => (h.2 rfl).same hs.symm, fun h => ⟨nofun, fun _ => h.same hs⟩⟩
    · have hfalse : ok = false := by
        rw [hok]
        simpa using hdone
      rw [if_neg hdone, ← sameResults_walked_iff, hfalse]
      exact ⟨fun h => (h.1 rfl).trans hs.symm, fun h => ⟨fun _ => h.trans hs, nofun⟩⟩

/-- The state that `net_init` leaves. -/
def dnsInit : Dns := ⟨0, 0, 0, 0, fun _ => [0, 0, 0, 0], [0, 0, 0, 0], false, 0⟩

/-- A reply with the address 1.2.3.4. -/
def oneAddress :
  List UInt8 :=
    [0x4D, 0x4E, 0x81, 0x80, 0, 0, 0, 1, 0, 0, 0, 0, 0, 0, 1, 0, 1, 0, 0, 0, 60, 0, 4, 1, 2, 3, 4]

theorem atomic_iff_oneAddress : Total (netHandleDns oneAddress) dnsInit (fun ok s' =>
    (ok = false → SameResults dnsInit s') ∧ (ok = true → FromMessage oneAddress s')) := by
  refine (atomic_iff (by decide) _).2 fun _ => ?_
  rw [if_pos (by decide)]
  exact fun h => by cases h

/-- A reply that announces a record and has none. -/
def cutShort : List UInt8 := [0x4D, 0x4E, 0x81, 0x80, 0, 0, 0, 1, 0, 0, 0, 0]

/-- It is refused, and clears the results of the lookup before it. -/
theorem cutShort_clears : Total (netHandleDns cutShort)
    { dnsInit with dnsIpCount := 1, dnsLastIpValid := true } fun ok s' => ok = false ∧
      ¬SameResults { dnsInit with dnsIpCount := 1, dnsLastIpValid := true } s' := by
  refine (netHandleDns_of_reply (by decide) (by decide) _).mono fun ok s' ⟨hs, hok⟩ => ?_
  have hwhole : (addresses cutShort).2 = false := by decide
  rw [hwhole, Bool.false_and] at hok
  refine ⟨hok, fun h => ?_⟩
  have hcount := (walked_spec cutShort { dnsInit with dnsIpCount := 1, dnsLastIpValid := true }).1
  rw [← hs.count, h.count] at hcount
  revert hcount
  decide

end

end MinervaOS.Net
