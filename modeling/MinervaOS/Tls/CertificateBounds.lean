import MinervaOS.Tls.HostMatch

/-!
# Where the certificate parsers read

The parts of a certificate are stepped over one by one. Most parts are checked against the end of
what has come before the next one is begun, but for two of them, the version and the serial number,
the position behind the part is not (`partEnd`, `serialEnd`). What follows then finds no room and
leaves the position alone, until the extension scanners get the rest of the stretch, which wraps.
-/

namespace MinervaOS.Tls

open Crypto Reader

variable {mem : Memory} {x : X509} {n : ℕ} {der available pos : UInt32}

theorem lt_of_room (room : UInt32) (hroom : room.toNat ≤ 2 ^ 8) (hpos : pos.toNat ≤ 2 ^ 26)
    (h : available > pos + room) : pos.toNat + room.toNat < available.toNat := by
  rwa [gt_iff_lt, UInt32.lt_iff_toNat_lt, toNat_add_of_lt (by omega)] at h

theorem end_le {l hl e : UInt32} (hsum : pos.toNat + hl.toNat + l.toNat < 2 ^ 32)
    (h : pos + hl + l ≤ e) : pos.toNat + hl.toNat + l.toNat ≤ e.toNat := by
  rwa [UInt32.le_iff_toNat_le, toNat_add_add hsum] at h

/-! ## The signature -/

theorem netTlsParseCertificateSignature_ok (hn : n ≤ 2 ^ 24)
    (h : der.toNat + available.toNat ≤ n) (hpos : pos.toNat ≤ 2 ^ 26) :
    Ok (netTlsParseCertificateSignature der available pos) mem x n fun _ y =>
      sizes y = sizes x ∧ (available ≤ pos + 4 → y = x) := by
  refine Ok.bind (Ok.hand h) fun _ y hy => ?_
  subst hy
  by_cases hfar : available ≤ pos + 4
  · rw [decide_eq_true hfar]
    exact Ok.pure ⟨rfl, fun _ => rfl⟩
  have hroom : pos.toNat + 4 < available.toNat :=
    lt_of_room 4 (by decide) hpos (UInt32.not_le.1 hfar)
  have hread := toNat_add_le der pos
  refine Ok.mono (Q := fun _ z => sizes z = sizes y) ?_ fun _ z hz => ⟨hz, fun h => absurd h hfar⟩
  refine Ok.bind (tagAt_ok fun _ => by omega) fun b y hb => ?_
  obtain ⟨-, rfl⟩ := hb
  refine Ok.ite (fun _ => Ok.pure rfl) fun _ => ?_
  refine Ok.bind (netTlsParseDerSequenceLen_ok (rest_le h (by omega))) fun r y hr => ?_
  obtain ⟨hr, rfl⟩ := hr
  match r with
  | none => exact Ok.pure rfl
  | some (algLen, algHeaderLen) =>
    obtain ⟨hl, -, hhl, -⟩ := derSequenceLen_some hr.symm
    dsimp -zeta only
    extract_lets oidPos next jp
    have hoidPos : oidPos.toNat = pos.toNat + algHeaderLen.toNat := toNat_add_of_lt (by omega)
    have hnext : next.toNat ≤ 2 ^ 26 := by
      have h1 := toNat_add_le pos (algHeaderLen + algLen)
      have h2 := toNat_add_le algHeaderLen algLen
      exact Nat.le_trans h1 (by omega)
    have hrest (z : X509) (hz : sizes z = sizes y) :
        Ok (jp ()) mem z n fun _ w => sizes w = sizes y := by
      by_cases hfar : available ≤ next + 2
      · simp only [jp, decide_eq_true hfar]
        exact Ok.pure hz
      have hroom : next.toNat + 2 < available.toNat :=
        lt_of_room 2 (by decide) hnext (UInt32.not_le.1 hfar)
      have hread := toNat_add_le der next
      refine Ok.bind (tagAt_ok fun _ => by omega) fun b z hb => ?_
      obtain ⟨-, rfl⟩ := hb
      refine Ok.ite (fun _ => Ok.pure hz) fun _ => ?_
      refine Ok.bind (netTlsParseDerLenAt_ok (rest_le h (by omega))) fun r z hr => ?_
      obtain ⟨hr, rfl⟩ := hr
      match r with
      | none => exact Ok.pure hz
      | some (bitLen, bitHeaderLen) =>
        obtain ⟨hl, -, hhl, -⟩ := derLen_some hr.symm
        refine Ok.ite (fun _ => Ok.pure hz) fun hend => ?_
        rw [Bool.or_eq_true, Bool.or_eq_true, not_or, not_or, decide_eq_true_eq, decide_eq_true_eq,
          decide_eq_true_eq, UInt32.not_lt, UInt32.not_lt, UInt32.not_lt,
          UInt32.le_iff_toNat_le] at hend
        obtain ⟨⟨hbit, -⟩, hend⟩ := hend
        have hend := end_le (by omega) hend
        have hsub := toNat_sub_of_le hbit
        simp only [UInt32.reduceToNat] at hbit hsub
        have h1 := toNat_add_le der (next + bitHeaderLen)
        have h2 := toNat_add_le next bitHeaderLen
        refine Ok.bind (Ok.byte (by omega)) fun unusedBits z hu => ?_
        obtain ⟨-, rfl⟩ := hu
        refine Ok.bind (Ok.write_keeps (g := sizes) rfl) fun _ w hw => ?_
        refine Ok.bind Ok.fields fun _ v hv => ?_
        obtain ⟨rfl, rfl⟩ := hv
        refine Ok.ite (fun _ => ?_) fun _ => Ok.pure (hw.trans hz)
        have h3 := toNat_add_le (der + next + bitHeaderLen) 1
        have h4 := toNat_add_le (der + next) bitHeaderLen
        refine Ok.mono (parseIntegers_ok (g := sizes) hn ?_ ?_ ?_) fun _ w hw' =>
          hw'.trans (hw.trans hz)
        · simp only [UInt32.reduceToNat] at h3
          rw [hsub]
          omega
        · exact fun _ _ _ => rfl
        · exact fun _ _ _ => rfl
    clear_value jp
    by_cases hfar : available > oidPos + 2
    · have hroom : oidPos.toNat + 2 < available.toNat :=
        lt_of_room 2 (by decide) (by omega) hfar
      have hread := toNat_add_le der oidPos
      refine Ok.bind (tagAt_ok fun _ => by omega) fun b z hb => ?_
      obtain ⟨-, rfl⟩ := hb
      refine Ok.ite (fun _ => ?_) fun _ => hrest _ rfl
      refine Ok.bind (netTlsParseDerLenAt_ok (rest_le h (by omega))) fun r z hr => ?_
      obtain ⟨hr, rfl⟩ := hr
      match r with
      | none => exact hrest _ rfl
      | some (oidLen, oidHeaderLen) =>
        obtain ⟨hl, -, hhl, -⟩ := derLen_some hr.symm
        refine Ok.ite (fun hend => ?_) fun _ => hrest _ rfl
        rw [Bool.and_eq_true, decide_eq_true_eq, decide_eq_true_eq] at hend
        have hend := end_le (by omega) hend.2
        refine Ok.bind (knownOid_ok (contents_le h hend)) fun alg z hz => ?_
        subst hz
        exact Ok.bind (Ok.write_keeps (g := sizes) rfl) fun _ w hw => hrest w hw
    · rw [decide_eq_false hfar]
      exact hrest _ rfl

/-! ## Parts that are stepped over -/

/-- The position behind a part, or behind nothing where the part is not there. -/
def partEnd (mem : Memory) (der available : UInt32) (tag : UInt8) (room pos : UInt32) :
    Option UInt32 :=
  if available > pos + room && mem (der + pos) == tag then
    (derLen mem (der + pos) (available - pos)).map fun (len, headerLen) => pos + (headerLen + len)
  else some pos

/-- The serial number stays where it is when its length cannot be read or is over 255. -/
def serialEnd (mem : Memory) (der available pos : UInt32) : UInt32 :=
  if available > pos + 2 && mem (der + pos) == 0x02 then
    match derLen mem (der + pos) (available - pos) with
    | some (len, headerLen) => if len ≤ 255 then pos + (headerLen + len) else pos
    | none => pos
  else pos

theorem partEnd_le {tag : UInt8} {room e : UInt32} (hroom : room.toNat ≤ 2 ^ 8)
    (havailable : available.toNat ≤ 2 ^ 24) (hpos : pos.toNat ≤ 2 ^ 26)
    (he : partEnd mem der available tag room pos = some e) : e.toNat ≤ 2 ^ 26 := by
  rw [partEnd] at he
  split at he
  next hpart =>
    rw [Bool.and_eq_true, decide_eq_true_eq] at hpart
    have hlt := lt_of_room room hroom hpos hpart.1
    obtain ⟨⟨l, hl⟩, hlen, rfl⟩ := Option.map_eq_some_iff.1 he
    obtain ⟨hl24, -, hhl, -⟩ := derLen_some hlen
    have h1 := toNat_add_le pos (hl + l)
    have h2 := toNat_add_le hl l
    change (pos + (hl + l)).toNat ≤ 2 ^ 26
    omega
  next => rwa [← Option.some.inj he]

theorem skipPart_ok {tag : UInt8} {room : UInt32} (h : der.toNat + available.toNat ≤ n)
    (hroom : room.toNat ≤ 2 ^ 8) (hpos : pos.toNat ≤ 2 ^ 26) :
    Ok (skipPart der available tag room pos) mem x n fun r y =>
      r = partEnd mem der available tag room pos ∧ y = x := by
  rw [partEnd]
  by_cases hfar : available > pos + room
  · have hlt := lt_of_room room hroom hpos hfar
    have hread := toNat_add_le der pos
    refine Ok.bind (tagAt_ok fun _ => by omega) fun b y hb => ?_
    obtain ⟨rfl, rfl⟩ := hb
    refine Ok.ite (fun hpart => ?_) fun hpart => Ok.pure ⟨by rw [if_neg hpart], rfl⟩
    rw [if_pos hpart]
    refine Ok.bind (netTlsParseDerLenAt_ok (rest_le h (by omega))) fun r y hr => ?_
    obtain ⟨hr, rfl⟩ := hr
    rw [← hr]
    match r with
    | none => exact Ok.pure ⟨rfl, rfl⟩
    | some (l, hl) => exact Ok.pure ⟨rfl, rfl⟩
  · rw [decide_eq_false hfar, Bool.false_and, if_neg Bool.false_ne_true, skipPart,
      decide_eq_false hfar]
    exact Ok.pure ⟨rfl, rfl⟩

theorem parseSerial_ok (h : der.toNat + available.toNat ≤ n) (hpos : pos.toNat ≤ 2 ^ 26) :
    Ok (parseSerial der available pos) mem x n fun e y =>
      e = serialEnd mem der available pos ∧ sizes y = sizes x := by
  rw [serialEnd]
  by_cases hfar : available > pos + 2
  · have hlt := lt_of_room 2 (by decide) hpos hfar
    have hread := toNat_add_le der pos
    refine Ok.bind (tagAt_ok fun _ => by omega) fun b y hb => ?_
    obtain ⟨rfl, rfl⟩ := hb
    refine Ok.ite (fun hpart => ?_) fun hpart => Ok.pure ⟨by rw [if_neg hpart], rfl⟩
    rw [if_pos hpart]
    refine Ok.bind (netTlsParseDerLenAt_ok (rest_le h (by omega))) fun r y hr => ?_
    obtain ⟨hr, rfl⟩ := hr
    rw [← hr]
    match r with
    | none => exact Ok.pure ⟨rfl, rfl⟩
    | some (l, hl) =>
      dsimp only
      refine Ok.ite (fun hshort => ?_) fun hlong => Ok.pure ⟨by rw [if_neg hlong], rfl⟩
      refine Ok.bind (Ok.write_keeps (g := sizes) rfl) fun _ z hz => ?_
      exact Ok.pure ⟨by rw [if_pos hshort], hz⟩
  · rw [decide_eq_false hfar, Bool.false_and, if_neg Bool.false_ne_true, parseSerial,
      decide_eq_false hfar]
    exact Ok.pure ⟨rfl, rfl⟩

/-! ## Parts that are checked -/

theorem parseSigAlg_ok (hn : n ≤ 2 ^ 24) (h : der.toNat + available.toNat ≤ n)
    (hpos : pos ≤ available) :
    Ok (parseSigAlg der available pos) mem x n fun r y =>
      (∀ e, r = some e → e ≤ available) ∧ sizes y = sizes x := by
  have hle := UInt32.le_iff_toNat_le.1 hpos
  by_cases hfar : available > pos + 4
  · have hlt := lt_of_room 4 (by decide) (by omega) hfar
    have hread := toNat_add_le der pos
    refine Ok.bind (tagAt_ok fun _ => by omega) fun b y hb => ?_
    obtain ⟨-, rfl⟩ := hb
    refine Ok.ite (fun _ => ?_) fun _ => Ok.pure ⟨fun e he => by rwa [← Option.some.inj he], rfl⟩
    refine Ok.bind (netTlsParseDerSequenceLen_ok (rest_le h hle)) fun r y hr => ?_
    obtain ⟨hr, rfl⟩ := hr
    match r with
    | none => exact Ok.pure ⟨fun _ h => by simp at h, rfl⟩
    | some (algLen, algHeaderLen) =>
      obtain ⟨hl, -, hhl, -⟩ := derSequenceLen_some hr.symm
      dsimp -zeta only
      extract_lets oidPos jp
      have hoidPos : oidPos.toNat = pos.toNat + algHeaderLen.toNat := toNat_add_of_lt (by omega)
      have hrest (z : X509) (hz : sizes z = sizes y) :
          Ok (jp ()) mem z n fun r w => (∀ e, r = some e → e ≤ available) ∧ sizes w = sizes y := by
        refine Ok.ite (fun _ => Ok.pure ⟨fun _ h => by simp at h, hz⟩) fun hend => ?_
        refine Ok.pure ⟨fun e he => ?_, hz⟩
        rw [← Option.some.inj he, ← UInt32.add_assoc]
        exact UInt32.not_lt.1 hend
      clear_value jp
      by_cases hfar : available > oidPos + 2
      · have hroom := lt_of_room 2 (by decide) (by omega) hfar
        have hread := toNat_add_le der oidPos
        refine Ok.bind (tagAt_ok fun _ => by omega) fun b z hb => ?_
        obtain ⟨-, rfl⟩ := hb
        refine Ok.ite (fun _ => ?_) fun _ => hrest _ rfl
        refine Ok.bind (netTlsParseDerLenAt_ok (rest_le h (by omega))) fun r y hr => ?_
        obtain ⟨hr, rfl⟩ := hr
        match r with
        | none => exact hrest _ rfl
        | some (oidLen, oidHeaderLen) =>
          obtain ⟨hl, -, hhl, -⟩ := derLen_some hr.symm
          refine Ok.ite (fun hend => ?_) fun _ => hrest _ rfl
          rw [Bool.and_eq_true, decide_eq_true_eq, decide_eq_true_eq] at hend
          have hend := end_le (by omega) hend.2
          refine Ok.bind (knownOid_ok (contents_le h hend)) fun alg z hz => ?_
          subst hz
          exact Ok.bind (Ok.write_keeps (g := sizes) rfl) fun _ w hw => hrest w hw
      · rw [decide_eq_false hfar]
        exact hrest _ rfl
  · rw [parseSigAlg, decide_eq_false hfar]
    exact Ok.pure ⟨fun e he => by rwa [← Option.some.inj he], rfl⟩

theorem parseName_ok {store : List UInt8 → X509 → X509} (hn : n ≤ 2 ^ 24)
    (h : der.toNat + available.toNat ≤ n) (hpos : pos.toNat ≤ 2 ^ 26)
    (hstore : ∀ cn x, sizes (store cn x) = sizes x) :
    Ok (parseName der available store pos) mem x n fun r y =>
      (∀ e, r = some e → (pos ≤ available → e ≤ available) ∧ e.toNat ≤ 2 ^ 26) ∧
        sizes y = sizes x := by
  have hstay (e : UInt32) (he : some pos = some e) :
      (pos ≤ available → e ≤ available) ∧ e.toNat ≤ 2 ^ 26 := by
    rw [← Option.some.inj he]
    exact ⟨id, hpos⟩
  by_cases hfar : available > pos + 2
  · have hlt := lt_of_room 2 (by decide) hpos hfar
    have hread := toNat_add_le der pos
    refine Ok.bind (tagAt_ok fun _ => by omega) fun b y hb => ?_
    obtain ⟨-, rfl⟩ := hb
    refine Ok.ite (fun _ => ?_) fun _ => Ok.pure ⟨hstay, rfl⟩
    refine Ok.bind (netTlsParseDerSequenceLen_ok (rest_le h (by omega))) fun r y hr => ?_
    obtain ⟨hr, rfl⟩ := hr
    match r with
    | none => exact Ok.pure ⟨fun _ h => by simp at h, rfl⟩
    | some (len, headerLen) =>
      obtain ⟨hl, -, hhl, -⟩ := derSequenceLen_some hr.symm
      refine Ok.ite (fun _ => Ok.pure ⟨fun _ h => by simp at h, rfl⟩) fun hend => ?_
      have hle := UInt32.not_lt.1 hend
      refine Ok.bind (netTlsParseNameCn_ok hn (contents_le h (end_le (by omega) hle)))
        fun cn y hy => ?_
      subst hy
      refine Ok.bind (Ok.write_keeps (g := sizes) (hstore cn y)) fun _ z hz => ?_
      refine Ok.pure ⟨fun e he => ?_, hz⟩
      rw [← Option.some.inj he, ← UInt32.add_assoc]
      exact ⟨fun _ => hle, Nat.le_trans (UInt32.le_iff_toNat_le.1 hle) (by omega)⟩
  · rw [parseName, decide_eq_false hfar]
    exact Ok.pure ⟨hstay, rfl⟩

theorem parseTime_ok {setDate : ℕ → X509 → X509} {vend : UInt32} (hn : n ≤ 2 ^ 24)
    (h : der.toNat + vend.toNat ≤ n) (hpos : pos ≤ vend)
    (hset : ∀ d x, sizes (setDate d x) = sizes x) :
    Ok (parseTime der setDate vend pos) mem x n fun r y =>
      (∀ tag len e, r = some (tag, len, e) → e ≤ vend) ∧ sizes y = sizes x := by
  have hle := UInt32.le_iff_toNat_le.1 hpos
  refine Ok.ite (fun _ => Ok.pure ⟨fun _ _ _ h => by simp at h, rfl⟩) fun hroom => ?_
  rw [gt_iff_lt, UInt32.not_lt, UInt32.le_iff_toNat_le,
    toNat_add_of_lt (by simp only [UInt32.reduceToNat]; omega)] at hroom
  simp only [UInt32.reduceToNat] at hroom
  have hread := toNat_add_le der pos
  refine Ok.bind (Ok.byte (by omega)) fun tag y htag => ?_
  obtain ⟨-, rfl⟩ := htag
  refine Ok.ite (fun _ => Ok.pure ⟨fun _ _ _ h => by simp at h, rfl⟩) fun _ => ?_
  refine Ok.bind (netTlsParseDerLenAt_ok (rest_le h hle)) fun r y hr => ?_
  obtain ⟨hr, rfl⟩ := hr
  match r with
  | none => exact Ok.pure ⟨fun _ _ _ h => by simp at h, rfl⟩
  | some (timeLen, timeHeaderLen) =>
    obtain ⟨hl, -, hhl, -⟩ := derLen_some hr.symm
    refine Ok.ite (fun _ => Ok.pure ⟨fun _ _ _ h => by simp at h, rfl⟩) fun hend => ?_
    rw [Bool.or_eq_true, not_or, decide_eq_true_eq, decide_eq_true_eq, gt_iff_lt, gt_iff_lt,
      UInt32.not_lt, UInt32.not_lt] at hend
    refine Ok.bind (netTlsParseAsn1Date_ok (contents_le h (end_le (by omega) hend.2)))
      fun date y hy => ?_
    subst hy
    refine Ok.bind (Ok.write_keeps (g := sizes) (hset date y)) fun _ z hz => ?_
    refine Ok.pure ⟨fun _ _ e he => ?_, hz⟩
    obtain ⟨-, -, rfl⟩ := by simpa using he
    rw [← UInt32.add_assoc]
    exact hend.2

theorem parseValidity_ok (hn : n ≤ 2 ^ 24) (h : der.toNat + available.toNat ≤ n)
    (hpos : pos ≤ available) :
    Ok (parseValidity der available pos) mem x n fun r y =>
      (∀ e, r = some e → e ≤ available) ∧ sizes y = sizes x := by
  have hle := UInt32.le_iff_toNat_le.1 hpos
  by_cases hfar : available > pos + 4
  · have hlt := lt_of_room 4 (by decide) (by omega) hfar
    have hread := toNat_add_le der pos
    refine Ok.bind (tagAt_ok fun _ => by omega) fun b y hb => ?_
    obtain ⟨-, rfl⟩ := hb
    refine Ok.ite (fun _ => ?_) fun _ => Ok.pure ⟨fun e he => by rwa [← Option.some.inj he], rfl⟩
    refine Ok.bind (netTlsParseDerSequenceLen_ok (rest_le h hle)) fun r y hr => ?_
    obtain ⟨hr, rfl⟩ := hr
    match r with
    | none => exact Ok.pure ⟨fun _ h => by simp at h, rfl⟩
    | some (validityLen, validityHeaderLen) =>
      obtain ⟨hl, -, hhl, -⟩ := derSequenceLen_some hr.symm
      have hvpos : (pos + validityHeaderLen).toNat = pos.toNat + validityHeaderLen.toNat :=
        toNat_add_of_lt (by omega)
      refine Ok.ite (fun _ => Ok.pure ⟨fun _ h => by simp at h, rfl⟩) fun hend => ?_
      have hend := UInt32.not_lt.1 hend
      have hvend := end_le (by omega) hend
      have hstretch : der.toNat + (pos + validityHeaderLen + validityLen).toNat ≤ n := by
        have hend := UInt32.le_iff_toNat_le.1 hend
        omega
      refine Ok.bind (parseTime_ok hn hstretch ?_ fun _ _ => rfl) fun r z hr => ?_
      · rw [UInt32.le_iff_toNat_le, toNat_add_add (by omega), hvpos]
        omega
      obtain ⟨hr, hz⟩ := hr
      match r with
      | none => exact Ok.pure ⟨fun _ h => by simp at h, hz⟩
      | some (tag0, len0, vpos) =>
        refine Ok.bind (parseTime_ok hn hstretch (hr _ _ _ rfl) fun _ _ => rfl) fun r w hr => ?_
        obtain ⟨-, hw⟩ := hr
        match r with
        | none => exact Ok.pure ⟨fun _ h => by simp at h, hw.trans hz⟩
        | some (tag1, len1, _) =>
          refine Ok.bind (Ok.write_keeps (g := sizes) rfl) fun _ v hv => ?_
          exact Ok.pure ⟨fun e he => by rwa [← Option.some.inj he], hv.trans (hw.trans hz)⟩
  · rw [parseValidity, decide_eq_false hfar]
    exact Ok.pure ⟨fun e he => by rwa [← Option.some.inj he], rfl⟩

/-! ## Keys -/

theorem parseCurve_ok {setCurve : UInt8 → X509 → X509} (hn : n ≤ 2 ^ 24)
    (h : der.toNat + available.toNat ≤ n) (hpos : pos.toNat ≤ 2 ^ 26)
    (hset : ∀ c x, sizes (setCurve c x) = sizes x) :
    Ok (parseCurve der setCurve available pos) mem x n fun _ y => sizes y = sizes x := by
  by_cases hfar : available > pos + 2
  · have hlt := lt_of_room 2 (by decide) hpos hfar
    have hread := toNat_add_le der pos
    refine Ok.bind (tagAt_ok fun _ => by omega) fun b y hb => ?_
    obtain ⟨-, rfl⟩ := hb
    refine Ok.ite (fun _ => ?_) fun _ => Ok.pure rfl
    refine Ok.bind (netTlsParseDerLenAt_ok (rest_le h (by omega))) fun r y hr => ?_
    obtain ⟨hr, rfl⟩ := hr
    match r with
    | none => exact Ok.pure rfl
    | some (curveLen, curveHeaderLen) =>
      obtain ⟨hl, -, hhl, -⟩ := derLen_some hr.symm
      refine Ok.ite (fun hend => ?_) fun _ => Ok.pure rfl
      rw [Bool.and_eq_true, decide_eq_true_eq, decide_eq_true_eq] at hend
      refine Ok.bind (knownOid_ok (contents_le h (end_le (by omega) hend.2))) fun curve z hz => ?_
      subst hz
      exact Ok.write_keeps (hset curve z)
  · rw [parseCurve, decide_eq_false hfar]
    exact Ok.pure rfl

/-- The point of a key is behind the first byte of a bit string. -/
theorem point_le {l hl : UInt32} (h : der.toNat + available.toNat ≤ n)
    (hend : pos.toNat + hl.toNat + l.toNat ≤ available.toNat) (hl2 : 2 ≤ l) :
    (der + pos + hl + 1).toNat + (l - 1).toNat ≤ n := by
  have hl2 := UInt32.le_iff_toNat_le.1 hl2
  have h1 := contents_le h hend
  have h2 := toNat_add_le (der + pos + hl) 1
  simp only [UInt32.reduceToNat] at hl2 h2
  rw [toNat_sub_of_le (by simp only [UInt32.reduceToNat]; omega)]
  simp only [UInt32.reduceToNat]
  omega

theorem parsePoint_ok (hn : n ≤ 2 ^ 24) (h : der.toNat + available.toNat ≤ n)
    (hpos : pos.toNat ≤ 2 ^ 26) :
    Ok (parsePoint der available pos) mem x n fun _ y => sizes y = sizes x := by
  by_cases hfar : available > pos + 2
  · have hlt := lt_of_room 2 (by decide) hpos hfar
    have hread := toNat_add_le der pos
    refine Ok.bind (tagAt_ok fun _ => by omega) fun b y hb => ?_
    obtain ⟨-, rfl⟩ := hb
    refine Ok.ite (fun _ => ?_) fun _ => Ok.pure rfl
    refine Ok.bind (netTlsParseDerLenAt_ok (rest_le h (by omega))) fun r y hr => ?_
    obtain ⟨hr, rfl⟩ := hr
    match r with
    | none => exact Ok.pure rfl
    | some (bitLen, bitHeaderLen) =>
      obtain ⟨hl, -, hhl, -⟩ := derLen_some hr.symm
      refine Ok.ite (fun hend => ?_) fun _ => Ok.pure rfl
      rw [Bool.and_eq_true, decide_eq_true_eq, decide_eq_true_eq] at hend
      have hpoint := point_le h (end_le (by omega) hend.2) hend.1
      extract_lets point pointLen jp
      change point.toNat + pointLen.toNat ≤ n at hpoint
      have hrest (z : X509) (hz : sizes z = sizes y) :
          Ok (jp ()) mem z n fun _ w => sizes w = sizes y := by
        clear_value point pointLen
        have hx := toNat_add_le point 1
        have hy := toNat_add_le point 33
        refine Ok.bind Ok.fields fun _ v hv => ?_
        obtain ⟨rfl, rfl⟩ := hv
        refine Ok.bind (tagAt_ok fun hroom => ?_) fun b v hb => ?_
        · rw [Bool.and_eq_true, beq_iff_eq] at hroom
          simp only [hroom.2, UInt32.reduceToNat] at hpoint
          omega
        obtain ⟨rfl, rfl⟩ := hb
        refine Ok.ite (fun hroom => ?_) fun _ => Ok.pure hz
        rw [Bool.and_eq_true, Bool.and_eq_true, beq_iff_eq (a := pointLen)] at hroom
        simp only [hroom.1.2, UInt32.reduceToNat] at hpoint hx hy
        refine Ok.bind (Ok.bytes (by omega)) fun pubkeyX u hu => ?_
        obtain ⟨-, rfl⟩ := hu
        refine Ok.bind (Ok.bytes (by omega)) fun pubkeyY t ht => ?_
        obtain ⟨-, rfl⟩ := ht
        exact (Ok.write_keeps (g := sizes) rfl).mono fun _ s hs => hs.trans hz
      clear_value jp
      refine Ok.ite (fun _ => ?_) fun _ => hrest _ rfl
      exact Ok.bind (Ok.write_keeps (g := sizes) rfl) fun _ w hw => hrest w hw
  · rw [parsePoint, decide_eq_false hfar]
    exact Ok.pure rfl

theorem parseSpki_ok (hn : n ≤ 2 ^ 24) (h : der.toNat + available.toNat ≤ n)
    (hpos : pos ≤ available) :
    Ok (parseSpki der available pos) mem x n fun r y =>
      (∀ e, r = some e → e ≤ available) ∧ sizes y = sizes x := by
  have hle := UInt32.le_iff_toNat_le.1 hpos
  by_cases hfar : available > pos + 4
  · have hlt := lt_of_room 4 (by decide) (by omega) hfar
    have hread := toNat_add_le der pos
    refine Ok.bind (tagAt_ok fun _ => by omega) fun b y hb => ?_
    obtain ⟨-, rfl⟩ := hb
    refine Ok.ite (fun _ => ?_) fun _ => Ok.pure ⟨fun e he => by rwa [← Option.some.inj he], rfl⟩
    refine Ok.bind (netTlsParseDerSequenceLen_ok (rest_le h hle)) fun r y hr => ?_
    obtain ⟨hr, rfl⟩ := hr
    match r with
    | none => exact Ok.pure ⟨fun _ h => by simp at h, rfl⟩
    | some (spkiLen, spkiHeaderLen) =>
      obtain ⟨hl, -, hhl, -⟩ := derSequenceLen_some hr.symm
      dsimp -zeta only
      extract_lets spkiEnd algPos jp
      have hspki : spkiEnd.toNat = pos.toNat + spkiHeaderLen.toNat + spkiLen.toNat :=
        toNat_add_add (by omega)
      have halgPos : algPos.toNat = pos.toNat + spkiHeaderLen.toNat := toNat_add_of_lt (by omega)
      refine Ok.ite (fun _ => Ok.pure ⟨fun _ h => by simp at h, rfl⟩) fun hend => ?_
      rw [Bool.or_eq_true, not_or, decide_eq_true_eq, decide_eq_true_eq, gt_iff_lt, UInt32.not_lt,
        UInt32.not_le] at hend
      have hspkiEnd := UInt32.le_iff_toNat_le.1 hend.1
      have hrest (z : X509) (hz : sizes z = sizes y) :
          Ok (jp ()) mem z n fun r w => (∀ e, r = some e → e ≤ available) ∧ sizes w = sizes y :=
        Ok.pure ⟨fun e he => by rw [← Option.some.inj he]; exact hend.1, hz⟩
      clear_value jp
      have hlt := lt_of_room 4 (by decide) (by omega) hend.2
      have hread := toNat_add_le der algPos
      refine Ok.bind (Ok.byte (by omega)) fun tag y htag => ?_
      obtain ⟨-, rfl⟩ := htag
      refine Ok.ite (fun _ => ?_) fun _ => hrest _ rfl
      have hspkiStretch : der.toNat + spkiEnd.toNat ≤ n := by omega
      refine Ok.bind (netTlsParseDerSequenceLen_ok (rest_le hspkiStretch (by omega)))
        fun r y hr => ?_
      obtain ⟨hr, rfl⟩ := hr
      match r with
      | none => exact Ok.pure ⟨fun _ h => by simp at h, rfl⟩
      | some (algLen, algHeaderLen) =>
        obtain ⟨hal, -, hahl, -⟩ := derSequenceLen_some hr.symm
        dsimp -zeta only
        extract_lets algEnd oidPos
        have halgEnd : algEnd.toNat = algPos.toNat + algHeaderLen.toNat + algLen.toNat :=
          toNat_add_add (by omega)
        have hoidPos : oidPos.toNat = algPos.toNat + algHeaderLen.toNat :=
          toNat_add_of_lt (by omega)
        by_cases hroom : algEnd ≤ spkiEnd ∧ algEnd > oidPos + 2
        · have halg := UInt32.le_iff_toNat_le.1 hroom.1
          have hlt := lt_of_room 2 (by decide) (by omega) hroom.2
          have hread := toNat_add_le der oidPos
          have halgStretch : der.toNat + algEnd.toNat ≤ n := by omega
          refine Ok.bind (tagAt_ok fun _ => by omega) fun b y hb => ?_
          obtain ⟨-, rfl⟩ := hb
          refine Ok.ite (fun _ => ?_) fun _ => hrest _ rfl
          refine Ok.bind (netTlsParseDerLenAt_ok (rest_le halgStretch (by omega)))
            fun read y hread => ?_
          obtain ⟨hread, rfl⟩ := hread
          have hlens : (read.getD (0, 0)).1.toNat < 2 ^ 24 ∧ (read.getD (0, 0)).2.toNat ≤ 5 := by
            match read with
            | none => exact ⟨by decide, by decide⟩
            | some (oidLen, oidHeaderLen) =>
              obtain ⟨hl, -, hhl, -⟩ := derLen_some hread.symm
              exact ⟨hl, hhl⟩
          generalize read.getD (0, 0) = lens at hlens
          obtain ⟨oidLen, oidHeaderLen⟩ := lens
          dsimp -zeta only at hlens ⊢
          extract_lets jp'
          have hrest' (z : X509) (hz : sizes z = sizes y) :
              Ok (jp' ()) mem z n fun r w =>
                (∀ e, r = some e → e ≤ available) ∧ sizes w = sizes y := by
            have hcurve : (oidPos + oidHeaderLen + oidLen).toNat ≤ 2 ^ 26 := by
              rw [toNat_add_add (by omega)]
              omega
            refine Ok.bind (parseCurve_ok hn halgStretch hcurve fun _ _ => rfl) fun _ w hw => ?_
            refine Ok.bind (parsePoint_ok hn hspkiStretch (by omega)) fun _ v hv => ?_
            exact hrest v (hv.trans (hw.trans hz))
          clear_value jp'
          refine Ok.ite (fun hoid => ?_) fun _ => hrest' _ rfl
          rw [Bool.and_eq_true, Bool.and_eq_true, decide_eq_true_eq, decide_eq_true_eq] at hoid
          refine Ok.bind (knownOid_ok (contents_le halgStretch (end_le (by omega) hoid.2)))
            fun alg z hz => ?_
          subst hz
          exact Ok.bind (Ok.write_keeps (g := sizes) rfl) fun _ w hw => hrest' w hw
        · rw [← Bool.decide_and, decide_eq_false hroom]
          exact hrest _ rfl
  · rw [parseSpki, decide_eq_false hfar]
    exact Ok.pure ⟨fun e he => by rwa [← Option.some.inj he], rfl⟩

/-! ## The second certificate -/

theorem sizes_computeEcdsaScalars (mul : ℕ → ℕ → ℕ) (x : X509) :
    sizes (netTlsComputeEcdsaScalars mul x) = sizes x := by
  simp only [netTlsComputeEcdsaScalars, apply_ite sizes]
  simp only [sizes, ite_self]

theorem parseChainPoint_ok {mul : ℕ → ℕ → ℕ} (hn : n ≤ 2 ^ 24)
    (h : der.toNat + available.toNat ≤ n) (hpos : pos.toNat ≤ 2 ^ 26) :
    Ok (parseChainPoint mul der available pos) mem x n fun _ y => sizes y = sizes x := by
  by_cases hfar : available ≤ pos + 2
  · rw [parseChainPoint, decide_eq_true hfar]
    exact Ok.pure rfl
  have hlt := lt_of_room 2 (by decide) hpos (UInt32.not_le.1 hfar)
  have hread := toNat_add_le der pos
  refine Ok.bind (tagAt_ok fun _ => by omega) fun b y hb => ?_
  obtain ⟨-, rfl⟩ := hb
  refine Ok.ite (fun _ => Ok.pure rfl) fun _ => ?_
  refine Ok.bind (netTlsParseDerLenAt_ok (rest_le h (by omega))) fun r y hr => ?_
  obtain ⟨hr, rfl⟩ := hr
  match r with
  | none => exact Ok.pure rfl
  | some (bitLen, bitHeaderLen) =>
    obtain ⟨hl, -, hhl, -⟩ := derLen_some hr.symm
    refine Ok.ite (fun _ => Ok.pure rfl) fun hend => ?_
    rw [Bool.or_eq_true, not_or, decide_eq_true_eq, decide_eq_true_eq, UInt32.not_lt,
      UInt32.not_lt] at hend
    have hpoint := point_le h (end_le (by omega) hend.2) hend.1
    extract_lets point pointLen jp coordLen
    change point.toNat + pointLen.toNat ≤ n at hpoint
    have hrest (z : X509) (hz : sizes z = sizes y) :
        Ok (jp ()) mem z n fun _ w => sizes w = sizes y := by
      refine Ok.mono Ok.write fun _ w hw => ?_
      rw [hw, sizes_computeEcdsaScalars]
      exact hz
    clear_value jp
    refine Ok.bind (Ok.write_keeps (g := sizes) rfl) fun _ z hz => ?_
    by_cases hlong : pointLen ≥ 65
    · have h65 := UInt32.le_iff_toNat_le.1 hlong
      simp only [UInt32.reduceToNat] at h65
      refine Ok.bind (tagAt_ok fun _ => by omega) fun b z hb => ?_
      obtain ⟨-, rfl⟩ := hb
      refine Ok.ite (fun _ => ?_) fun _ => hrest _ hz
      have hcoord : ((pointLen - 1) / 2).toNat = (pointLen.toNat - 1) / 2 := by
        rw [UInt32.toNat_div, toNat_sub_of_le (by simp only [UInt32.reduceToNat]; omega)]
        rfl
      change coordLen.toNat = _ at hcoord
      clear_value coordLen
      have h1 := toNat_add_le point 1
      have h2 := toNat_add_le (point + 1) coordLen
      simp only [UInt32.reduceToNat] at h1
      refine Ok.bind (Ok.bytes (by omega)) fun _ w hw => ?_
      obtain ⟨-, rfl⟩ := hw
      refine Ok.bind (Ok.bytes (by omega)) fun _ w hw => ?_
      obtain ⟨-, rfl⟩ := hw
      refine Ok.ite (fun h32 => ?_) fun _ => hrest _ hz
      rw [beq_iff_eq] at h32
      simp only [h32, UInt32.reduceToNat] at hcoord
      refine Ok.bind (Ok.bytes (by omega)) fun _ w hw => ?_
      obtain ⟨-, rfl⟩ := hw
      refine Ok.bind (Ok.bytes ?_) fun _ w hw => ?_
      · simp only [h32, UInt32.reduceToNat] at h2 ⊢
        omega
      obtain ⟨-, rfl⟩ := hw
      exact Ok.bind (Ok.write_keeps (g := sizes) rfl) fun _ v hv => hrest _ (hv.trans hz)
    · rw [decide_eq_false hlong]
      exact hrest _ hz

theorem parseChainSpki_ok {mul : ℕ → ℕ → ℕ} (hn : n ≤ 2 ^ 24)
    (h : der.toNat + available.toNat ≤ n) (hpos : pos.toNat ≤ 2 ^ 26) :
    Ok (parseChainSpki mul der available pos) mem x n fun _ y => sizes y = sizes x := by
  by_cases hfar : available > pos + 4
  · have hlt := lt_of_room 4 (by decide) hpos hfar
    have hread := toNat_add_le der pos
    refine Ok.bind (tagAt_ok fun _ => by omega) fun b y hb => ?_
    obtain ⟨-, rfl⟩ := hb
    refine Ok.ite (fun _ => Ok.pure rfl) fun _ => ?_
    refine Ok.bind (netTlsParseDerSequenceLen_ok (rest_le h (by omega))) fun r y hr => ?_
    obtain ⟨hr, rfl⟩ := hr
    match r with
    | none => exact Ok.pure rfl
    | some (spkiLen, spkiHeaderLen) =>
      obtain ⟨hl, -, hhl, -⟩ := derSequenceLen_some hr.symm
      dsimp -zeta only
      extract_lets spkiEnd algPos
      have hspki : spkiEnd.toNat = pos.toNat + spkiHeaderLen.toNat + spkiLen.toNat :=
        toNat_add_add (by omega)
      have halgPos : algPos.toNat = pos.toNat + spkiHeaderLen.toNat := toNat_add_of_lt (by omega)
      by_cases hend : ¬spkiEnd > available ∧ ¬spkiEnd ≤ algPos + 4
      · have hspkiEnd := UInt32.le_iff_toNat_le.1 (UInt32.not_lt.1 hend.1)
        have hlt := lt_of_room 4 (by decide) (by omega) (UInt32.not_le.1 hend.2)
        have hread := toNat_add_le der algPos
        refine Ok.bind (tagAt_ok fun _ => by omega) fun b y hb => ?_
        obtain ⟨-, rfl⟩ := hb
        refine Ok.ite (fun _ => Ok.pure rfl) fun _ => ?_
        have hspkiStretch : der.toNat + spkiEnd.toNat ≤ n := by omega
        refine Ok.bind (netTlsParseDerSequenceLen_ok (rest_le hspkiStretch (by omega)))
          fun r y hr => ?_
        obtain ⟨hr, rfl⟩ := hr
        match r with
        | none => exact Ok.pure rfl
        | some (algLen, algHeaderLen) =>
          obtain ⟨hal, -, hahl, -⟩ := derSequenceLen_some hr.symm
          dsimp -zeta only
          extract_lets algEnd oidPos
          have halgEnd : algEnd.toNat = algPos.toNat + algHeaderLen.toNat + algLen.toNat :=
            toNat_add_add (by omega)
          have hoidPos : oidPos.toNat = algPos.toNat + algHeaderLen.toNat :=
            toNat_add_of_lt (by omega)
          by_cases hroom : ¬algEnd > spkiEnd ∧ ¬algEnd ≤ oidPos + 2
          · have halg := UInt32.le_iff_toNat_le.1 (UInt32.not_lt.1 hroom.1)
            have hlt := lt_of_room 2 (by decide) (by omega) (UInt32.not_le.1 hroom.2)
            have hread := toNat_add_le der oidPos
            have halgStretch : der.toNat + algEnd.toNat ≤ n := by omega
            refine Ok.bind (tagAt_ok fun _ => by omega) fun b y hb => ?_
            obtain ⟨-, rfl⟩ := hb
            refine Ok.ite (fun _ => Ok.pure rfl) fun _ => ?_
            refine Ok.bind (netTlsParseDerLenAt_ok (rest_le halgStretch (by omega)))
              fun r y hr => ?_
            obtain ⟨hr, rfl⟩ := hr
            match r with
            | none => exact Ok.pure rfl
            | some (oidLen, oidHeaderLen) =>
              obtain ⟨hol, -, hohl, -⟩ := derLen_some hr.symm
              refine Ok.ite (fun _ => Ok.pure rfl) fun hoid => ?_
              rw [Bool.or_eq_true, not_or, decide_eq_true_eq, decide_eq_true_eq, gt_iff_lt,
                UInt32.not_lt, UInt32.not_lt] at hoid
              have hoidEnd := end_le (by omega) hoid.2
              refine Ok.bind (knownOid_ok (contents_le halgStretch hoidEnd)) fun alg z hz => ?_
              subst hz
              refine Ok.bind (Ok.write_keeps (g := sizes) rfl) fun _ w hw => ?_
              have hcurve : (oidPos + oidHeaderLen + oidLen).toNat ≤ 2 ^ 26 := by
                rw [toNat_add_add (by omega)]
                omega
              refine Ok.bind (parseCurve_ok hn halgStretch hcurve fun _ _ => rfl) fun _ v hv => ?_
              exact (parseChainPoint_ok hn hspkiStretch (by omega)).mono fun _ u hu =>
                hu.trans (hv.trans hw)
          · rw [← decide_not, ← decide_not, ← Bool.decide_and, decide_eq_false hroom]
            exact Ok.pure rfl
      · rw [← decide_not, ← decide_not, ← Bool.decide_and, decide_eq_false hend]
        exact Ok.pure rfl
  · rw [parseChainSpki, decide_eq_false hfar]
    exact Ok.pure rfl

/-- Steps over parts one after the other; what is found there can end behind the stretch, but the
positions do not wrap. -/
theorem skipPart_then {f : UInt32 → X509M Unit} {tag : UInt8} {room : UInt32} (hn : n ≤ 2 ^ 24)
    (h : der.toNat + available.toNat ≤ n) (hroom : room.toNat ≤ 2 ^ 8) (hpos : pos.toNat ≤ 2 ^ 26)
    (hf : ∀ pos, pos.toNat ≤ 2 ^ 26 → Ok (f pos) mem x n fun _ y => sizes y = sizes x) :
    Ok (do
      let some pos ← skipPart der available tag room pos | return
      f pos) mem x n fun _ y => sizes y = sizes x := by
  refine Ok.bind (skipPart_ok h hroom hpos) fun r y hr => ?_
  obtain ⟨hr, rfl⟩ := hr
  match r with
  | none => exact Ok.pure rfl
  | some e => exact hf e (partEnd_le hroom (by omega) hpos hr.symm)

theorem netTlsParseChainCertificateDer_ok {mul : ℕ → ℕ → ℕ} {rx : UInt32} (hn : rx.toNat ≤ 2 ^ 24)
    (hfirst : (6 + x.firstCertificateLen).toNat + 3 < 2 ^ 32) :
    Ok (netTlsParseChainCertificateDer mul rx) mem x rx.toNat fun _ y => sizes y = sizes x := by
  refine Ok.bind Ok.fields fun y z hy => ?_
  obtain ⟨rfl, rfl⟩ := hy
  extract_lets firstLen secondLenPos der available
  have hder : der.toNat = secondLenPos.toNat + 3 := toNat_add_of_lt hfirst
  refine Ok.ite (fun _ => Ok.pure rfl) fun _ => ?_
  refine Ok.ite (fun _ => Ok.pure rfl) fun hroom => ?_
  have hroom : der.toNat ≤ rx.toNat := UInt32.le_iff_toNat_le.1 (UInt32.not_lt.1 hroom)
  refine Ok.bind (get24be_ok (by omega)) fun secondLen y hy => ?_
  obtain ⟨-, rfl⟩ := hy
  have havailable : available.toNat = rx.toNat - secondLenPos.toNat - 3 := by
    rw [show available = rx - secondLenPos - 3 from rfl, toNat_sub_of_le, toNat_sub_of_le]
    · rfl
    · omega
    · rw [toNat_sub_of_le (by omega)]
      simp only [UInt32.reduceToNat]
      omega
  have h : der.toNat + available.toNat ≤ rx.toNat := by omega
  clear_value available der
  refine Ok.ite (fun _ => Ok.pure rfl) fun _ => ?_
  refine Ok.bind (netTlsParseDerSequenceLen_ok h) fun r y hr => ?_
  obtain ⟨hr, rfl⟩ := hr
  rcases r with _ | ⟨_, headerLen⟩
  · exact Ok.pure rfl
  · obtain ⟨-, -, hhl, hroom⟩ := derSequenceLen_some hr.symm
    refine Ok.bind (Ok.write_keeps (g := sizes) rfl) fun _ z hz => ?_
    refine Ok.mono (Q := fun _ w => sizes w = sizes z) ?_ fun _ w hw => hw.trans hz
    dsimp only
    by_cases hfar : available < headerLen + 2
    · rw [decide_eq_true hfar]
      exact Ok.pure rfl
    have hlt := UInt32.le_iff_toNat_le.1 (UInt32.not_lt.1 hfar)
    rw [toNat_add_of_lt (by simp only [UInt32.reduceToNat]; omega)] at hlt
    simp only [UInt32.reduceToNat] at hlt
    have hread := toNat_add_le der headerLen
    refine Ok.bind (tagAt_ok fun _ => by omega) fun b z hb => ?_
    obtain ⟨-, rfl⟩ := hb
    refine Ok.ite (fun _ => Ok.pure rfl) fun _ => ?_
    refine Ok.bind (netTlsParseDerSequenceLen_ok (rest_le h (by omega))) fun r z hr => ?_
    obtain ⟨hr, rfl⟩ := hr
    rcases r with _ | ⟨_, tbsHeaderLen⟩
    · exact Ok.pure rfl
    · obtain ⟨-, -, hthl, -⟩ := derSequenceLen_some hr.symm
      have hstart := toNat_add_le headerLen tbsHeaderLen
      refine skipPart_then hn h (by decide) (by omega) fun pos hpos => ?_
      refine skipPart_then hn h (by decide) hpos fun pos hpos => ?_
      refine skipPart_then hn h (by decide) hpos fun pos hpos => ?_
      refine skipPart_then hn h (by decide) hpos fun pos hpos => ?_
      refine skipPart_then hn h (by decide) hpos fun pos hpos => ?_
      refine Ok.bind (parseName_ok hn h hpos fun _ _ => rfl) fun r w hr => ?_
      obtain ⟨hr, hw⟩ := hr
      rcases r with _ | pos
      · exact Ok.pure hw
      · exact (parseChainSpki_ok hn h (hr pos rfl).2).mono fun _ v hv => hv.trans hw

end MinervaOS.Tls
