import MinervaOS.Lib.Wire
import MinervaOS.Net.Dns
import MinervaOS.Net.Target

/-!
# DNS queries

`build_dns_query` writes the labels of the host one behind the other and the length of each in front
of it once it is known. It stops at byte 58 of the message, so of a host of more than 45 bytes it
asks for the first 45.
-/

namespace MinervaOS.Net

def put16be (l : List UInt8) (offset : Nat) (value : UInt16) : List UInt8 :=
  (l.set offset (value >>> 8).toUInt8).set (offset + 1) value.toUInt8

/-- The locals of `build_dns_query`. -/
structure Labels where
  payload : List UInt8
  offset : Nat
  labelPos : Nat
  labelLen : Nat

/-- The loop over the host; `none` is a returned 0. -/
def copyLabels : List UInt8 → Labels → Option Labels
  | [], b => some b
  | c :: host, b =>
    if b.offset < 58 then
      if c = 46 then
        if b.labelLen = 0 ∨ b.labelLen > 63 then none
        else copyLabels host { b with
          payload := b.payload.set b.labelPos (UInt8.ofNat b.labelLen)
          labelPos := b.offset, offset := b.offset + 1, labelLen := 0 }
      else copyLabels host { b with
        payload := b.payload.set b.offset c
        offset := b.offset + 1, labelLen := b.labelLen + 1 }
    else some b

/-- The last label, the root and the question; what is returned are the bytes up to `offset`. -/
def finishQuery (b : Labels) : Option (List UInt8) :=
  if b.labelLen = 0 ∨ b.labelLen > 63 ∨ b.offset ≥ 60 then none
  else
    let payload := (b.payload.set b.labelPos (UInt8.ofNat b.labelLen)).set b.offset 0
    let payload := put16be (put16be payload (b.offset + 1) 1) (b.offset + 3) 1
    some (payload.take (b.offset + 5))

/-- The message, or `none` for a returned 0. -/
def buildDnsQuery (httpHost : List UInt8) : Option (List UInt8) :=
  let payload := List.replicate 64 0
  let payload := put16be (put16be (put16be payload 0 dnsQueryId) 2 0x0100) 4 1
  let host := if httpHost = [] then chars "example.com" else httpHost
  (copyLabels host ⟨payload, 13, 12, 0⟩).bind finishQuery

/-! ## What is written -/

/-- The finished labels, then the length of the one that is being copied, which is not known yet,
and what there is of it. -/
structure Writing (pre cur : List UInt8) (b : Labels) : Prop where
  size : b.payload.length = 64
  written : ∃ x, b.payload.take b.offset = pre ++ x :: cur
  labelPos : b.labelPos = pre.length
  labelLen : b.labelLen = cur.length
  offset : b.offset = pre.length + 1 + cur.length
  offset_le : b.offset ≤ 58
  header : 12 ≤ pre.length

section

variable {pre cur : List UInt8} {b : Labels}

theorem take_set_succ {l : List UInt8} {n : Nat} (h : n < l.length) (c : UInt8) :
    (l.set n c).take (n + 1) = l.take n ++ [c] := by
  rw [List.take_succ_eq_append_getElem (by rwa [List.length_set]),
    List.take_set_of_le (Nat.le_refl _)]
  simp

theorem take_put16be {l : List UInt8} {n : Nat} (h : n + 1 < l.length) (v : UInt16) :
    (put16be l n v).take (n + 2) = l.take n ++ [(v >>> 8).toUInt8, v.toUInt8] := by
  unfold put16be
  rw [take_set_succ (by rwa [List.length_set]), take_set_succ (by omega), List.append_assoc]
  rfl

theorem put16be_bytes (value : UInt16) :
    [(value >>> 8).toUInt8, value.toUInt8] = Wire.be16 value.toNat := by
  unfold Wire.be16
  refine congrArg₂ (fun a b => [a, b]) ?_ ?_
  · rw [← UInt8.toNat_inj]
    simp [Nat.shiftRight_eq_div_pow]
  · rw [← UInt8.toNat_inj]
    simp

theorem length_put16be (l : List UInt8) (n : Nat) (v : UInt16) :
    (put16be l n v).length = l.length := by
  simp [put16be]

/-- The length of the label goes in front of it. -/
theorem Writing.setLength (h : Writing pre cur b) (c : UInt8) :
    (b.payload.set b.labelPos c).take b.offset = pre ++ c :: cur := by
  obtain ⟨x, hx⟩ := h.written
  rw [List.take_set, hx, h.labelPos, List.set_append_right _ _ (Nat.le_refl _), Nat.sub_self]
  rfl

theorem Writing.push (h : Writing pre cur b) (hlt : b.offset < 58) (c : UInt8) :
    Writing pre (cur ++ [c]) { b with
      payload := b.payload.set b.offset c, offset := b.offset + 1, labelLen :=
        b.labelLen + 1 } := by
  obtain ⟨x, hx⟩ := h.written
  refine ⟨by simpa using h.size, ⟨x, ?_⟩, h.labelPos, by simp [h.labelLen], ?_, hlt, h.header⟩
  · rw [take_set_succ (by rw [h.size]; omega), hx, List.append_assoc]
    rfl
  · have := h.offset
    simp only [List.length_append, List.length_cons, List.length_nil]
    omega

theorem Writing.dot (h : Writing pre cur b) (hlt : b.offset < 58) :
    Writing (pre ++ UInt8.ofNat cur.length :: cur) [] { b with
      payload := b.payload.set b.labelPos (UInt8.ofNat b.labelLen)
      labelPos := b.offset, offset := b.offset + 1, labelLen := 0 } := by
  have hoff := h.offset
  have hlen : b.offset < (b.payload.set b.labelPos (UInt8.ofNat b.labelLen)).length := by
    rw [List.length_set, h.size]
    omega
  refine ⟨by simpa using h.size,
    ⟨(b.payload.set b.labelPos (UInt8.ofNat b.labelLen))[b.offset], ?_⟩, ?_, rfl, ?_, hlt, ?_⟩
  · dsimp only
    rw [List.take_succ_eq_append_getElem hlen, h.setLength]
    simp only [h.labelLen]
  · simp only [List.length_append, List.length_cons]
    omega
  · simp only [List.length_append, List.length_cons, List.length_nil]
    omega
  · have := h.header
    simp only [List.length_append]
    omega

theorem finishQuery_eq (h : Writing pre cur b) : finishQuery b =
    if cur = [] then none else some (pre ++ Wire.putName [cur] ++ Wire.be16 1 ++ Wire.be16 1) := by
  have hoff := h.offset
  have hle := h.offset_le
  have hheader := h.header
  unfold finishQuery
  by_cases hempty : cur = []
  · rw [if_pos hempty, if_pos (.inl (by simp [h.labelLen, hempty]))]
  · have hpos : 0 < cur.length := List.length_pos_iff.2 hempty
    rw [if_neg hempty, if_neg (by rw [h.labelLen]; omega)]
    have hlast : b.offset < (b.payload.set b.labelPos (UInt8.ofNat b.labelLen)).length := by
      rw [List.length_set, h.size]
      omega
    have hzero := take_set_succ hlast 0
    have htype :=
      take_put16be (l := (b.payload.set b.labelPos (UInt8.ofNat b.labelLen)).set b.offset 0)
      (n := b.offset + 1) (by simp only [List.length_set, h.size]; omega) 1
    have hclass :=
      take_put16be (l := put16be ((b.payload.set b.labelPos (UInt8.ofNat b.labelLen)).set
      b.offset 0) (b.offset + 1) 1) (n := b.offset + 3)
      (by simp only [length_put16be, List.length_set, h.size]; omega) 1
    have hone : [((1 : UInt16) >>> 8).toUInt8, (1 : UInt16).toUInt8] = Wire.be16 1 := by decide
    refine congrArg some (hclass.trans ?_)
    rw [htype, hzero, h.setLength, h.labelLen, hone]
    simp [Wire.putName, Wire.putLabels]

/-- From a label on, the query ends in the labels that the rest of the host has as far as it is
copied. -/
theorem copyLabels_eq (host : List UInt8) :
    ∀ {pre cur : List UInt8} {b : Labels}, Writing pre cur b →
    (copyLabels host b).bind finishQuery =
      if [] ∈ (host.take (58 - b.offset)).splitOnPPrepend (· == 46) cur.reverse then none
      else some (pre ++
        Wire.putName ((host.take (58 - b.offset)).splitOnPPrepend (· == 46) cur.reverse) ++
        Wire.be16 1 ++ Wire.be16 1) := by
  induction host with
  | nil =>
    intro pre cur b h
    rw [List.take_nil, List.splitOnPPrepend_nil, List.reverse_reverse, copyLabels]
    exact (finishQuery_eq h).trans (if_congr (by simp [eq_comm]) rfl rfl)
  | cons c host ih =>
    intro pre cur b h
    unfold copyLabels
    by_cases hlt : b.offset < 58
    · have hsub : 58 - b.offset = 58 - (b.offset + 1) + 1 := by omega
      rw [if_pos hlt, hsub, List.take_succ_cons]
      by_cases hc : c = 46
      · rw [if_pos hc, List.splitOnPPrepend_cons_pos (by simpa using hc), List.reverse_reverse]
        by_cases hempty : cur = []
        · rw [if_pos (.inl (by simp [h.labelLen, hempty])), if_pos (by simp [hempty])]
          rfl
        · have hpos : 0 < cur.length := List.length_pos_iff.2 hempty
          have hoff := h.offset
          have hheader := h.header
          rw [if_neg (by rw [h.labelLen]; omega), ih (h.dot hlt), List.reverse_nil,
            List.splitOnPPrepend_nil_right]
          refine if_congr (by simp [Ne.symm hempty]) rfl (congrArg some ?_)
          simp [Wire.putName, Wire.putLabels]
      · rw [if_neg hc, List.splitOnPPrepend_cons_neg (by simpa using hc), ih (h.push hlt c)]
        simp
    · have hzero : 58 - b.offset = 0 := by omega
      rw [if_neg hlt, hzero, List.take_zero, List.splitOnPPrepend_nil, List.reverse_reverse]
      exact (finishQuery_eq h).trans (if_congr (by simp [eq_comm]) rfl rfl)

/-- The header of a query with one question. -/
def queryHeader :
    List UInt8 := Wire.be16 0x4D4E ++ Wire.be16 0x0100 ++ Wire.be16 1 ++ Wire.be16 0 ++
  Wire.be16 0 ++ Wire.be16 0

theorem buildDnsQuery_eq {host : List UInt8} (hne : host ≠ []) : buildDnsQuery host =
    if [] ∈ (host.take 45).splitOn 46 then none
    else some (queryHeader ++ Wire.putName ((host.take 45).splitOn 46) ++ Wire.be16 1 ++
      Wire.be16 1) := by
  unfold buildDnsQuery
  rw [if_neg hne]
  have hstart : Writing queryHeader []
    ⟨put16be (put16be (put16be (List.replicate 64 0) 0 dnsQueryId) 2
      0x0100) 4 1, 13, 12, 0⟩ :=
    ⟨by decide, ⟨0, by decide⟩, by decide, rfl, by decide, by decide, by decide⟩
  exact copyLabels_eq host hstart

/-! ## What is asked for -/

/-- A standard query with one question, for the A/IN address of a name. -/
def parseQuery : Wire.Parse (List (List UInt8)) := do
  let _id ← Wire.u16
  let flags ← Wire.u16
  guard (flags < 2048)
  let counts ← Wire.take 8
  guard (counts = Wire.be16 1 ++ Wire.be16 0 ++ Wire.be16 0 ++ Wire.be16 0)
  let name ← Wire.labels 128
  let qtype ← Wire.u16
  guard (qtype = 1)
  let qclass ← Wire.u16
  guard (qclass = 1)
  return name

/-- The query, if there is one, fits the buffer and asks for the host. -/
def AsksFor (host : List UInt8) : Prop :=
  ∀ query, buildDnsQuery host = some query → query.length ≤ 64 ∧
  ∃ name, Wire.whole parseQuery query = some name ∧ [46].intercalate name = host

theorem parseQuery_reads {name : List (List UInt8)} (hlen : name.length < 128)
    (h : ∀ l ∈ name, 0 < l.length ∧ l.length ≤ 63) :
    Wire.Reads parseQuery (queryHeader ++ Wire.putName name ++ Wire.be16 1 ++
      Wire.be16 1) name := by
  have hsplit : queryHeader ++ Wire.putName name ++ Wire.be16 1 ++ Wire.be16 1 =
      Wire.be16 0x4D4E ++
        (Wire.be16 0x0100 ++ ((Wire.be16 1 ++ Wire.be16 0 ++ Wire.be16 0 ++ Wire.be16 0) ++
        (Wire.putName name ++ (Wire.be16 1 ++ (Wire.be16 1 ++ []))))) := by
    simp [queryHeader]
  rw [hsplit]
  refine (Wire.Reads.u16 (by decide)).bind ((Wire.Reads.u16 (by decide)).bind ?_)
  refine (Wire.Reads.check (by decide)).bind_nil ((Wire.Reads.take (by decide)).bind ?_)
  refine (Wire.Reads.check rfl).bind_nil ((Wire.Reads.labels hlen h).bind ?_)
  refine (Wire.Reads.u16 (by decide)).bind ((Wire.Reads.check rfl).bind_nil ?_)
  exact (Wire.Reads.u16 (by decide)).bind ((Wire.Reads.check rfl).bind_nil (.pure name))

/-- The query for the labels of at most 45 bytes. -/
theorem parseQuery_splitOn {host : List UInt8} (hlen : host.length ≤ 45)
    (hne : [] ∉ host.splitOn 46) :
    (queryHeader ++ Wire.putName (host.splitOn 46) ++ Wire.be16 1 ++ Wire.be16 1).length ≤ 64 ∧
      Wire.whole parseQuery (queryHeader ++ Wire.putName (host.splitOn 46) ++ Wire.be16 1 ++
        Wire.be16 1) =
        some (host.splitOn 46) := by
  have hsize := Wire.length_putLabels 46 (List.splitOn_ne_nil 46 host)
  rw [List.intercalate_splitOn] at hsize
  have hcount := Wire.length_le_length_putLabels (host.splitOn 46)
  constructor
  · have hheader : queryHeader.length = 12 := by decide
    simp only [List.length_append, Wire.putName, hsize, hheader, Wire.be16, List.length_cons,
      List.length_nil]
    omega
  · refine Wire.whole_of_reads (parseQuery_reads (by omega) fun l hl => ⟨?_, ?_⟩)
    · exact List.length_pos_iff.2 fun h => hne (h ▸ hl)
    · have := Wire.length_le_putLabels hl
      omega

theorem netSetHttpTarget_host_ne (host path : List UInt8) :
    (netSetHttpTarget host path).httpHost ≠ [] := by
  unfold netSetHttpTarget
  dsimp only
  split_ifs with h
  · decide
  · exact h

/-- The host that is stored is asked for exactly if it has at most 45 bytes, or no query is made of
the first 45 because one of their labels is empty. -/
theorem asksFor_iff (host path : List UInt8) : AsksFor (netSetHttpTarget host path).httpHost ↔
    (netSetHttpTarget host path).httpHost.length ≤ 45 ∨
      [] ∈ ((netSetHttpTarget host path).httpHost.take 45).splitOn 46 := by
  have hne := netSetHttpTarget_host_ne host path
  generalize (netSetHttpTarget host path).httpHost = host at hne ⊢
  unfold AsksFor
  rw [buildDnsQuery_eq hne]
  by_cases hempty : [] ∈ (host.take 45).splitOn 46
  · rw [if_pos hempty]
    exact iff_of_true nofun (.inr hempty)
  rw [if_neg hempty, or_iff_left hempty]
  have htake : (host.take 45).length ≤ 45 := by
    rw [List.length_take]
    exact Nat.min_le_left ..
  obtain ⟨hfits, hparse⟩ := parseQuery_splitOn htake hempty
  constructor
  · intro h
    obtain ⟨-, name, hname, hhost⟩ := h _ rfl
    rw [hparse] at hname
    cases hname
    rw [List.intercalate_splitOn] at hhost
    rw [← hhost]
    exact htake
  · intro hle query hquery
    cases hquery
    refine ⟨hfits, _, hparse, ?_⟩
    rw [List.intercalate_splitOn, List.take_of_length_le hle]

/-- A host of 46 bytes: the name in the query has 45. -/
theorem asksFor_long : ¬∀ host path, AsksFor (netSetHttpTarget host path).httpHost := by
  intro h
  obtain ⟨-, name, hname, hhost⟩ := h (List.replicate 46 97) [] _
    (buildDnsQuery_eq (netSetHttpTarget_host_ne (List.replicate 46 97) []))
  have hparse : Wire.whole parseQuery
    (queryHeader ++ Wire.putName (((netSetHttpTarget (List.replicate 46 97)
      []).httpHost.take 45).splitOn 46) ++ Wire.be16 1 ++ Wire.be16 1) =
        some [List.replicate 45 97] := by decide
  rw [hparse] at hname
  cases hname
  revert hhost
  decide

end

end MinervaOS.Net
