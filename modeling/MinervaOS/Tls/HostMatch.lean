import MinervaOS.Tls.ExtensionBounds
import Mathlib.Data.List.GetD

/-!
# The host name of a certificate

The subjectAltName walk stores the first host name it comes to, cut to 31 bytes and with `?` for
what cannot be printed, and it is this text that is compared with the host. `MatchesHost` is the
rule for the name itself. The comparison is that rule (`dnsMatches_iff`), so on a name that is kept
whole the two agree; a name that is not can be accepted without matching (`not_matchesHost`).
-/

namespace MinervaOS.Tls

open Reader

variable {mem : Memory} {x : X509} {n : ℕ} {src len cursor end' : UInt32}

/-! ## Names and hosts -/

/-- The name is the host, or `*.` and a suffix where the host is one label, a dot and the suffix. -/
def MatchesHost (host name : List UInt8) : Prop :=
  name = host ∨ ∃ label suffix, label ≠ [] ∧ 46 ∉ label ∧ name = 42 :: 46 :: suffix ∧
    host = label ++ 46 :: suffix

/-- A host is split at its first dot in one way. -/
theorem label_inj {label label' suffix suffix' : List UInt8} (h : 46 ∉ label) (h' : 46 ∉ label')
    (he : label ++ 46 :: suffix = label' ++ 46 :: suffix') : label = label' ∧ suffix = suffix' := by
  induction label generalizing label' with
  | nil =>
    cases label' with
    | nil => exact ⟨rfl, (List.cons.inj he).2⟩
    | cons b label' =>
      rw [← (List.cons.inj he).1] at h'
      exact absurd List.mem_cons_self h'
  | cons a label ih =>
    cases label' with
    | nil =>
      rw [(List.cons.inj he).1] at h
      exact absurd List.mem_cons_self h
    | cons b label' =>
      obtain ⟨hab, he⟩ := List.cons.inj he
      obtain ⟨hl, hs⟩ := ih (fun hm => h (List.mem_cons_of_mem _ hm))
        (fun hm => h' (List.mem_cons_of_mem _ hm)) he
      exact ⟨by rw [hab, hl], hs⟩

/-- The comparison behind the first dot of a name that begins with `*.`. -/
theorem suffixMatches_iff (host suffix : List UInt8) :
    (if host.length ≤ (46 :: suffix).length then false
      else
        let offset := host.length - (46 :: suffix).length
        if host.getD (offset - 1) 0 == 46 then false
        else if (host.take offset).contains 46 then false
        else netTlsStrEqual (host.drop offset) (46 :: suffix)) = true ↔
      ∃ label, label ≠ [] ∧ 46 ∉ label ∧ host = label ++ 46 :: suffix := by
  constructor
  · intro h
    split at h
    · exact absurd h (by decide)
    next hlen =>
    simp only at h
    split at h
    · exact absurd h (by decide)
    split at h
    · exact absurd h (by decide)
    next hdot =>
    rw [netTlsStrEqual, beq_iff_eq] at h
    refine ⟨host.take (host.length - (46 :: suffix).length), ?_, by simpa using hdot, ?_⟩
    · refine List.ne_nil_of_length_pos ?_
      rw [List.length_take]
      omega
    · conv_lhs => rw [← List.take_append_drop (host.length - (46 :: suffix).length) host, h]
  · rintro ⟨label, hlabel, hdot, rfl⟩
    have hpos := List.length_pos_of_ne_nil hlabel
    have hlast : (label ++ 46 :: suffix).getD (label.length - 1) 0 ∈ label := by
      rw [List.getD_eq_getElem _ _ (by rw [List.length_append]; omega),
        List.getElem_append_left (by omega)]
      exact List.getElem_mem _
    have hoffset : (label ++ 46 :: suffix).length - (46 :: suffix).length = label.length := by
      rw [List.length_append, Nat.add_sub_cancel]
    rw [if_neg (by rw [List.length_append]; omega)]
    simp only [hoffset]
    rw [if_neg (by rw [beq_iff_eq]; exact fun h => hdot (h ▸ hlast)), List.take_left,
      if_neg (by simpa using hdot), List.drop_left, netTlsStrEqual, beq_self_eq_true]

theorem dnsMatches_iff (host dns : List UInt8) :
    netTlsDnsMatches host dns = true ↔ MatchesHost host dns := by
  rw [netTlsDnsMatches]
  by_cases heq : host = dns
  · rw [if_pos (by rwa [netTlsStrEqual, beq_iff_eq])]
    exact ⟨fun _ => .inl heq.symm, fun _ => rfl⟩
  rw [if_neg (by rwa [netTlsStrEqual, beq_iff_eq])]
  by_cases hstar : dns.take 2 = [42, 46]
  · obtain ⟨suffix, rfl⟩ : ∃ suffix, dns = 42 :: 46 :: suffix := by
      refine ⟨dns.drop 2, ?_⟩
      conv_lhs => rw [← List.take_append_drop 2 dns, hstar]
      rfl
    rw [if_neg (by simp)]
    refine (suffixMatches_iff host suffix).trans ⟨?_, ?_⟩
    · rintro ⟨label, hlabel, hdot, hhost⟩
      exact .inr ⟨label, suffix, hlabel, hdot, rfl, hhost⟩
    · rintro (h | ⟨label, suffix', hlabel, hdot, hdns, hhost⟩)
      · exact absurd h.symm heq
      · obtain rfl : suffix = suffix' := by simpa using hdns
        exact ⟨label, hlabel, hdot, hhost⟩
  · rw [if_pos (by simpa using hstar)]
    refine ⟨fun h => absurd h (by decide), ?_⟩
    rintro (h | ⟨label, suffix, -, -, h, -⟩)
    · exact absurd h.symm heq
    · rw [h] at hstar
      exact absurd rfl hstar

/-- What is stored of a name. -/
def shown (name : List UInt8) : List UInt8 :=
  (name.take 31).map fun value => if netTlsIsPrintableByte value then value else 63

/-- At most 31 bytes, all of which can be printed. -/
def Kept (name : List UInt8) : Prop :=
  name.length ≤ 31 ∧ ∀ b ∈ name, netTlsIsPrintableByte b = true

theorem shown_eq {name : List UInt8} (h : Kept name) : shown name = name := by
  rw [shown, List.take_of_length_le h.1]
  exact (List.map_congr_left fun b hb => if_pos (h.2 b hb)).trans (List.map_id name)

theorem kept_of_shown_eq {name : List UInt8} (h : shown name = name) : Kept name := by
  have hlen : name.length ≤ 31 := by
    have hl := congrArg List.length h
    rw [shown, List.length_map, List.length_take] at hl
    omega
  refine ⟨hlen, fun b hb => ?_⟩
  rw [shown, List.take_of_length_le hlen] at h
  by_contra hp
  have hb' := List.map_inj_left.1 (h.trans (List.map_id name).symm) b hb
  rw [if_neg hp, id] at hb'
  rw [← hb'] at hp
  exact hp (by decide)

/-- A text that begins with `*.` is that of a name that does. -/
theorem eq_of_shown_star {name text : List UInt8} (h : shown name = 42 :: 46 :: text) :
    ∃ rest, name = 42 :: 46 :: rest := by
  have hchar {b c : UInt8} (hc : c ≠ 63) (hb : (if netTlsIsPrintableByte b then b else 63) = c) :
      b = c := by
    split at hb
    · exact hb
    · exact absurd hb.symm hc
  match name with
  | [] => exact absurd h (by simp [shown])
  | [_] => exact absurd h (by simp [shown])
  | a :: b :: rest =>
    simp only [shown, List.take_succ_cons, List.map_cons, List.cons.injEq] at h
    exact ⟨rest, by rw [hchar (by decide) h.1, hchar (by decide) h.2.1]⟩

/-- A name that is not kept whole does not match a host that its text is accepted for. -/
theorem not_matchesHost {host name : List UInt8} (hname : ¬Kept name)
    (h : MatchesHost host (shown name)) : ¬MatchesHost host name := by
  have hne : shown name ≠ name := fun he => hname (kept_of_shown_eq he)
  rcases h with rfl | ⟨label, suffix, hl, hdot, htext, rfl⟩
  · rintro (h | ⟨label, suffix, hl, hdot, rfl, h⟩)
    · exact hne h.symm
    · have hshown : shown (42 :: 46 :: suffix) = [42] ++ 46 ::
          (suffix.take 29).map fun value => if netTlsIsPrintableByte value then value else 63 := by
        simp only [shown, List.take_succ_cons, List.map_cons]
        rfl
      obtain ⟨rfl, htail⟩ := label_inj hdot (by decide) (h.symm.trans hshown)
      exact hne h
  · obtain ⟨rest, rfl⟩ := eq_of_shown_star htext
    rintro (h | ⟨label', suffix', hl', hdot', h, h'⟩)
    · obtain ⟨-, rfl⟩ := label_inj (show 46 ∉ [42] by decide) hdot h
      exact hne htext
    · obtain ⟨-, rfl⟩ := label_inj hdot hdot' h'
      exact hne (htext.trans h.symm)

/-! ## The names of an extension -/

/-- The first element of a list of them, with short and long lengths: its tag, its contents and
what is behind it. -/
def derElement : List UInt8 → Option (UInt8 × List UInt8 × List UInt8)
  | tag :: first :: rest =>
    let count := if first &&& 0x80 == 0 then 0 else (first &&& 0x7F).toNat
    let size := if first &&& 0x80 == 0 then first.toNat
      else (rest.take count).foldl (fun size b => 256 * size + b.toNat) 0
    if (first &&& 0x80 != 0 && count == 0) || rest.length < count + size then none
    else some (tag, (rest.drop count).take size, rest.drop (count + size))
  | _ => none

def elements : ℕ → List UInt8 → List (UInt8 × List UInt8)
  | 0, _ => []
  | steps + 1, names =>
    match derElement names with
    | some (tag, contents, rest) => (tag, contents) :: elements steps rest
    | none => []

/-- The host names among the general names of an extension. -/
def dnsNames (names : List UInt8) : List (List UInt8) :=
  ((elements names.length names).filter fun e => e.1 == 0x82).map Prod.snd

/-- The host name that the walk stops at. It gives up at a long length. -/
def firstDnsName : ℕ → List UInt8 → Option (List UInt8)
  | 0, _ => none
  | steps + 1, tag :: nameLen :: rest =>
    if nameLen &&& 0x80 != 0 || rest.length < nameLen.toNat then none
    else if tag == 0x82 then some (rest.take nameLen.toNat)
    else firstDnsName steps (rest.drop nameLen.toNat)
  | _ + 1, _ => none

theorem elements_of_firstDnsName {steps k : ℕ} {names name : List UInt8} (hk : steps ≤ k)
    (h : firstDnsName steps names = some name) :
    ∃ others, ((elements k names).filter fun e => e.1 == 0x82).map Prod.snd = name :: others := by
  induction steps generalizing k names with
  | zero => exact absurd h (by simp [firstDnsName])
  | succ steps ih =>
    obtain ⟨k, rfl⟩ : ∃ k', k = k' + 1 := ⟨k - 1, by omega⟩
    match names with
    | [] => exact absurd h (by simp [firstDnsName])
    | [_] => exact absurd h (by simp [firstDnsName])
    | tag :: nameLen :: rest =>
      rw [firstDnsName] at h
      split at h
      · exact absurd h (by simp)
      next hshort =>
      rw [Bool.or_eq_true, not_or, bne_iff_ne, not_not, decide_eq_true_eq] at hshort
      have helement : derElement (tag :: nameLen :: rest) =
          some (tag, rest.take nameLen.toNat, rest.drop nameLen.toNat) := by
        simp [derElement, hshort.1, hshort.2]
      rw [elements, helement]
      simp only
      split at h
      next htag =>
        rw [List.filter_cons_of_pos (p := fun e : UInt8 × List UInt8 => e.1 == 0x82) htag,
          List.map_cons, Option.some.inj h]
        exact ⟨_, rfl⟩
      next htag =>
        rw [List.filter_cons_of_neg (p := fun e : UInt8 × List UInt8 => e.1 == 0x82) htag]
        exact ih (by omega) h

/-! ## The walk -/

/-- What the walk makes of the name it stops at. -/
def storeName (host : List UInt8) : Option (List UInt8) → X509 → X509
  | some name, x =>
    { x with sanDns := shown name, hostMatch := netTlsDnsMatches host (shown name) }
  | none, x => x

theorem findDnsName_ok {host : List UInt8} {steps : ℕ} (h : src.toNat + end'.toNat ≤ n)
    (hend : end'.toNat + 256 ≤ 2 ^ 32) (hcursor : cursor.toNat + 256 ≤ 2 ^ 32) :
    Ok (findDnsName host src end' steps cursor) mem x n fun _ y =>
      y = storeName host
        (firstDnsName steps (stretch mem (src + cursor) (end'.toNat - cursor.toNat))) x := by
  induction steps generalizing cursor with
  | zero => exact Ok.pure rfl
  | succ steps ih =>
    have hadd : (cursor + 2).toNat = cursor.toNat + 2 :=
      toNat_add_of_lt (by simp only [UInt32.reduceToNat]; omega)
    have hadd1 : (cursor + 1).toNat = cursor.toNat + 1 :=
      toNat_add_of_lt (by simp only [UInt32.reduceToNat]; omega)
    refine Ok.ite (fun hroom => Ok.pure ?_) fun hroom => ?_
    · simp only [Bool.not_eq_true', decide_eq_false_iff_not, UInt32.le_iff_toNat_le, hadd] at hroom
      obtain hz | hz : end'.toNat - cursor.toNat = 0 ∨ end'.toNat - cursor.toNat = 1 := by omega
      · rw [hz]
        rfl
      · rw [hz]
        rfl
    simp only [Bool.not_eq_true', decide_eq_false_iff_not, not_not, UInt32.le_iff_toNat_le,
      hadd] at hroom
    obtain ⟨size, hsize⟩ : ∃ size, end'.toNat - cursor.toNat = size + 2 :=
      ⟨end'.toNat - cursor.toNat - 2, by omega⟩
    rw [hsize, stretch, stretch, firstDnsName, length_stretch]
    have hread := toNat_add_le src cursor
    have hread1 := toNat_add_le src (cursor + 1)
    refine Ok.bind (Ok.byte (by omega)) fun tag y htag => ?_
    obtain ⟨rfl, rfl⟩ := htag
    refine Ok.bind (Ok.byte (by omega)) fun nameLen y hnameLen => ?_
    obtain ⟨hnameLen, rfl⟩ := hnameLen
    rw [← UInt32.add_assoc] at hnameLen
    rw [← hnameLen]
    have hbehind : src + cursor + 1 + 1 = src + (cursor + 2) := by
      rw [UInt32.add_assoc, UInt32.add_assoc]
      rfl
    rw [hbehind]
    have hname : nameLen.toUInt32.toNat = nameLen.toNat := rfl
    have hlt := nameLen.toNat_lt
    have hnext : (cursor + 2 + nameLen.toUInt32).toNat = cursor.toNat + 2 + nameLen.toNat := by
      rw [toNat_add_of_lt (by omega), hadd, hname]
    refine Ok.ite (fun hlong => Ok.pure ?_) fun hlong => ?_
    · rw [if_pos (by rw [hlong, Bool.true_or])]
      rfl
    refine Ok.ite (fun hover => Ok.pure ?_) fun hover => ?_
    · rw [gt_iff_lt, UInt32.lt_iff_toNat_lt, hnext] at hover
      rw [if_pos (by rw [decide_eq_true (by omega), Bool.or_true])]
      rfl
    rw [gt_iff_lt, UInt32.not_lt, UInt32.le_iff_toNat_le, hnext] at hover
    rw [Bool.eq_false_iff.2 hlong, decide_eq_false (p := size < nameLen.toNat) (by omega),
      Bool.or_false, if_neg Bool.false_ne_true]
    refine Ok.ite (fun htag => ?_) fun htag => ?_
    · rw [if_pos htag]
      have hsrc := toNat_add_le src (cursor + 2)
      refine Ok.bind (netTlsCopyNameString_ok (by omega)) fun dns y hdns => ?_
      obtain ⟨hdns, rfl⟩ := hdns
      refine Ok.write.mono fun _ y hy => ?_
      rw [hy, hdns, take_stretch mem _ nameLen.toNat size, Nat.min_eq_left (by omega)]
      rfl
    · rw [if_neg htag, drop_stretch]
      have hof : UInt32.ofNat nameLen.toNat = nameLen.toUInt32 :=
        UInt32.toNat_inj.1 (UInt32.toNat_ofNat_of_lt' (by rw [UInt32.size]; omega))
      rw [hof]
      have hih := @ih (cursor + 2 + nameLen.toUInt32) (by omega)
      rwa [hnext, ← UInt32.add_assoc, show end'.toNat - (cursor.toNat + 2 + nameLen.toNat) =
        size - nameLen.toNat by omega] at hih

/-- The general names of the extension that a call walks: they end where the walk does. -/
def sanExtension (mem : Memory) (src len : UInt32) : Option (List UInt8) :=
  ((extensionContents 0x11 0x30 src len).run mem X509.reset).value.map fun r =>
    stretch mem (src + r.1) ((r.1 + r.2).toNat - r.1.toNat)

theorem netTlsParseSanDns_ok (host : List UInt8) (h : src.toNat + len.toNat ≤ n)
    (hlen : len.toNat + 256 ≤ 2 ^ 32) :
    Ok (netTlsParseSanDns host src len) mem x n fun _ y =>
      y = storeName host
        ((sanExtension mem src len).bind fun names => firstDnsName names.length names) x := by
  refine Ok.bind (Ok.hand h) fun _ y hy => ?_
  subst hy
  refine Ok.bind (extensionContents_ok h).value fun r y hr => ?_
  obtain ⟨⟨hr, rfl⟩, hvalue⟩ := hr
  rw [extensionContents_readsOnly _ _ _ _ mem y X509.reset] at hvalue
  rw [sanExtension, ← hvalue]
  rcases r with _ | ⟨cursor, seqLen⟩
  · exact Ok.pure rfl
  · obtain ⟨hcursor, hend, hseqLen⟩ := hr _ _ rfl
    refine (findDnsName_ok (by omega) (by omega) (by omega)).mono fun _ y hy => ?_
    rw [hy]
    simp only [Option.map_some, Option.bind_some, length_stretch]
    by_cases hwrap : cursor.toNat + seqLen.toNat < 2 ^ 32
    · rw [toNat_add_of_lt hwrap, Nat.add_sub_cancel_left]
    · rw [UInt32.toNat_add, show (cursor.toNat + seqLen.toNat) % 2 ^ 32 - cursor.toNat = 0 by omega]
      cases seqLen.toNat <;> rfl

/-! ## Soundness -/

/-- A call that finds that the host matches has walked a name that does. -/
def SanSound (mem : Memory) (host : List UInt8) (src len : UInt32) : Prop :=
  ∀ x : X509, x.hostMatch = false →
    ((netTlsParseSanDns host src len).run mem x).fields.hostMatch = true →
      ∃ names, sanExtension mem src len = some names ∧ ∃ name ∈ dnsNames names,
        MatchesHost host name

/-- The name that is compared is kept whole, or what is kept of it does not match, or a name behind
it does. -/
def Decisive (host names : List UInt8) : Prop :=
  ∀ name, firstDnsName names.length names = some name →
    Kept name ∨ netTlsDnsMatches host (shown name) = false ∨
      ∃ other ∈ (dnsNames names).tail, MatchesHost host other

theorem netTlsParseSanDns_sound_iff {mem : Memory} {host : List UInt8} {src len : UInt32}
    (hlen : len.toNat + 256 ≤ 2 ^ 32) :
    SanSound mem host src len ↔
      ∀ names, sanExtension mem src len = some names → Decisive host names := by
  have hrun (x : X509) := (@netTlsParseSanDns_ok mem x _ src len host
    (Nat.le_refl _) hlen).post
  constructor
  · intro hsound names hnames name hname
    by_cases hkept : Kept name
    · exact .inl hkept
    cases hmatch : netTlsDnsMatches host (shown name) with
    | false => exact .inr (.inl rfl)
    | true =>
      refine .inr (.inr ?_)
      obtain ⟨names', hnames', other, hother, hm⟩ := hsound X509.reset rfl (by
        rw [hrun, hnames, Option.bind_some, hname]
        exact hmatch)
      obtain rfl := Option.some.inj (hnames.symm.trans hnames')
      obtain ⟨others, hothers⟩ := elements_of_firstDnsName (Nat.le_refl _) hname
      rw [dnsNames, hothers] at hother ⊢
      rcases List.mem_cons.1 hother with rfl | hother
      · exact absurd hm (not_matchesHost hkept ((dnsMatches_iff _ _).1 hmatch))
      · exact ⟨other, hother, hm⟩
  · intro hnames x hx hset
    rw [hrun] at hset
    cases hsan : sanExtension mem src len with
    | none =>
      rw [hsan, Option.bind_none, storeName, hx] at hset
      exact absurd hset (by decide)
    | some names =>
      rw [hsan, Option.bind_some] at hset
      refine ⟨names, rfl, ?_⟩
      cases hname : firstDnsName names.length names with
      | none =>
        rw [hname, storeName, hx] at hset
        exact absurd hset (by decide)
      | some name =>
        rw [hname, storeName] at hset
        obtain ⟨others, hothers⟩ := elements_of_firstDnsName (Nat.le_refl _) hname
        rcases hnames names hsan name hname with hkept | hmatch | ⟨other, hother, hm⟩
        · refine ⟨name, ?_, ?_⟩
          · rw [dnsNames, hothers]
            exact List.mem_cons_self
          · rw [← shown_eq hkept]
            exact (dnsMatches_iff _ _).1 hset
        · exact absurd (hset.symm.trans hmatch) (by decide)
        · exact ⟨other, List.mem_of_mem_tail hother, hm⟩

/-- The extension with one host name in it. -/
def sanBytes (name : List UInt8) : List UInt8 :=
  [0x06, 0x03, 0x55, 0x1D, 0x11, 0x04, UInt8.ofNat (name.length + 4), 0x30,
    UInt8.ofNat (name.length + 2), 0x82, UInt8.ofNat name.length] ++ name

/-- A host of 31 bytes, the most that is kept of a name. -/
def longHost : List UInt8 := List.replicate 27 97 ++ [46, 99, 111, 109]

theorem sanSound_longHost : SanSound (memory (sanBytes longHost)) longHost 0 42 :=
  (netTlsParseSanDns_sound_iff (by decide)).2 (by
    have h : ∀ names ∈ sanExtension (memory (sanBytes longHost)) 0 42,
        firstDnsName names.length names = some longHost := by decide
    intro names hnames name hname
    obtain rfl := Option.some.inj ((h names hnames).symm.trans hname)
    exact .inl ⟨by decide, by decide +kernel⟩)

/-- The certified name goes on behind the host. -/
theorem not_sanSound_longer :
    ¬SanSound (memory (sanBytes (longHost ++ [46, 101, 118, 105, 108]))) longHost 0 47 := by
  intro h
  obtain ⟨names, hnames, name, hname, hm⟩ := h X509.reset rfl (by decide)
  have hno : ∀ names ∈ sanExtension
      (memory (sanBytes (longHost ++ [46, 101, 118, 105, 108]))) 0 47,
      ∀ name ∈ dnsNames names, netTlsDnsMatches longHost name = false := by decide
  exact absurd ((dnsMatches_iff _ _).2 hm) (by rw [hno names hnames name hname]; decide)

end MinervaOS.Tls
