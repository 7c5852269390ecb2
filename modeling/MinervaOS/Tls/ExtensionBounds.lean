import MinervaOS.Tls.DerBounds

/-!
# Where the extension scanners read

A scanner that is given a stretch of memory stays inside it. What it looks for first is an
element behind an identifier (`extensionContents_ok`); this holds of any length, also of one that
would not fit in a certificate.
-/

namespace MinervaOS.Tls

open Reader

variable {mem : Memory} {x : X509} {n : ℕ} {src len pos : UInt32}

/-- What later parts of the parser read of the fields. -/
def sizes (x : X509) : UInt32 × UInt32 := (x.firstCertificateLen, x.tbsLen)

theorem equalAt_readsOnly (es : List UInt8) (pos : UInt32) :
    ReadsOnly (equalAt pos es : X509M Bool) := by
  induction es generalizing pos with
  | nil => exact ReadsOnly.pure true
  | cons e es ih =>
    exact ReadsOnly.bind (ReadsOnly.byte pos) fun _ => ReadsOnly.ite (ReadsOnly.pure _) (ih _)

theorem findExtension_readsOnly (id : UInt8) (src len : UInt32) (steps : ℕ) (pos : UInt32) :
    ReadsOnly (findExtension id src len steps pos) := by
  induction steps generalizing pos with
  | zero => exact ReadsOnly.pure none
  | succ steps ih =>
    refine ReadsOnly.ite (ReadsOnly.pure none) (ReadsOnly.bind (ReadsOnly.byte _) fun _ => ?_)
    refine ReadsOnly.ite (ReadsOnly.bind (equalAt_readsOnly _ _) fun _ => ?_) (ih _)
    exact ReadsOnly.ite (ReadsOnly.pure _) (ih _)

theorem skipToTag_readsOnly (tag : UInt8) (src len : UInt32) (steps : ℕ) (cursor : UInt32) :
    ReadsOnly (skipToTag tag src len steps cursor) := by
  induction steps generalizing cursor with
  | zero => exact ReadsOnly.pure cursor
  | succ steps ih =>
    refine ReadsOnly.ite (ReadsOnly.pure _) (ReadsOnly.bind (ReadsOnly.byte _) fun _ => ?_)
    exact ReadsOnly.ite (ReadsOnly.pure _) (ih _)

theorem netTlsParseDerLenAt_readsOnly (src available : UInt32) :
    ReadsOnly (netTlsParseDerLenAt src available : X509M _) := by
  refine ReadsOnly.bind (ReadsOnly.hand _ _) fun _ => ReadsOnly.ite (ReadsOnly.pure none) ?_
  refine ReadsOnly.bind (ReadsOnly.byte _) fun _ => ReadsOnly.ite (ReadsOnly.pure _) ?_
  refine ReadsOnly.ite (ReadsOnly.pure none) (ReadsOnly.bind (ReadsOnly.foldlM (fun _ _ => ?_) _ _)
    fun _ => ReadsOnly.pure _)
  exact ReadsOnly.bind (ReadsOnly.byte _) fun _ => ReadsOnly.pure _

theorem extensionContents_readsOnly (id tag : UInt8) (src len : UInt32) :
    ReadsOnly (extensionContents id tag src len) := by
  refine ReadsOnly.ite (ReadsOnly.pure none) ?_
  refine ReadsOnly.bind (findExtension_readsOnly _ _ _ _ _) fun cursor => ?_
  cases cursor with
  | none => exact ReadsOnly.pure none
  | some cursor =>
    refine ReadsOnly.bind (skipToTag_readsOnly _ _ _ _ _) fun cursor => ?_
    refine ReadsOnly.ite (ReadsOnly.pure none) ?_
    refine ReadsOnly.bind (netTlsParseDerLenAt_readsOnly _ _) fun lens => ?_
    cases lens with
    | none => exact ReadsOnly.pure none
    | some lens => exact ReadsOnly.ite (ReadsOnly.pure none) (ReadsOnly.pure _)

theorem findExtension_ok {id : UInt8} {steps : ℕ} (h : src.toNat + len.toNat ≤ n)
    (hpos : pos.toNat = 0 ∨ pos.toNat + 6 ≤ len.toNat) :
    Ok (findExtension id src len steps pos) mem x n fun r y =>
      (∀ cursor, r = some cursor → cursor.toNat + 2 ≤ len.toNat) ∧ y = x := by
  induction steps generalizing pos with
  | zero => exact Ok.pure ⟨fun _ h => by simp at h, rfl⟩
  | succ steps ih =>
    refine Ok.ite (fun _ => Ok.pure ⟨fun _ h => by simp at h, rfl⟩) fun hroom => ?_
    have hlen := len.toNat_lt
    simp only [Bool.not_eq_true', decide_eq_false_iff_not, not_not, UInt32.lt_iff_toNat_lt] at hroom
    rw [toNat_add_of_lt (by simp only [UInt32.reduceToNat]; omega)] at hroom
    simp only [UInt32.reduceToNat] at hroom
    have hnext : (pos + 1).toNat = pos.toNat + 1 :=
      toNat_add_of_lt (by simp only [UInt32.reduceToNat]; omega)
    have hread := toNat_add_le src pos
    refine Ok.bind (Ok.byte (by omega)) fun a y ha => ?_
    obtain ⟨rfl, rfl⟩ := ha
    refine Ok.ite (fun _ => ?_) fun _ => ih (by omega)
    have hid := toNat_add_le src (pos + 1)
    refine Ok.bind (equalAt_ok (by simp only [List.length_cons, List.length_nil]; omega))
      fun b y hy => ?_
    subst hy
    refine Ok.ite (fun _ => Ok.pure ⟨fun cursor hc => ?_, rfl⟩) fun _ => ih (by omega)
    have hc := Option.some.inj hc
    rw [← hc, toNat_add_of_lt (by simp only [UInt32.reduceToNat]; omega)]
    simp only [UInt32.reduceToNat]
    omega

theorem skipToTag_ok {tag : UInt8} {steps : ℕ} (h : src.toNat + len.toNat ≤ n)
    (hpos : pos.toNat + 2 ≤ len.toNat) :
    Ok (skipToTag tag src len steps pos) mem x n fun cursor y =>
      cursor.toNat + 2 ≤ len.toNat ∧ y = x := by
  induction steps generalizing pos with
  | zero => exact Ok.pure ⟨hpos, rfl⟩
  | succ steps ih =>
    refine Ok.ite (fun _ => Ok.pure ⟨hpos, rfl⟩) fun hroom => ?_
    have hlen := len.toNat_lt
    simp only [Bool.not_eq_true', decide_eq_false_iff_not, not_not, UInt32.lt_iff_toNat_lt] at hroom
    rw [toNat_add_of_lt (by simp only [UInt32.reduceToNat]; omega)] at hroom
    simp only [UInt32.reduceToNat] at hroom
    have hread := toNat_add_le src pos
    refine Ok.bind (Ok.byte (by omega)) fun a y ha => ?_
    obtain ⟨rfl, rfl⟩ := ha
    refine Ok.ite (fun _ => Ok.pure ⟨hpos, rfl⟩) fun _ => ih ?_
    have hnext := toNat_add_le pos 1
    simp only [UInt32.reduceToNat] at hnext
    omega

/-- The contents begin in the stretch, and the end that is computed is in it. -/
theorem extensionContents_ok {id tag : UInt8} (h : src.toNat + len.toNat ≤ n) :
    Ok (extensionContents id tag src len) mem x n fun r y =>
      (∀ cursor contentLen, r = some (cursor, contentLen) → cursor.toNat ≤ len.toNat ∧
        (cursor + contentLen).toNat ≤ len.toNat ∧ contentLen.toNat < 2 ^ 24) ∧ y = x := by
  refine Ok.ite (fun _ => Ok.pure ⟨fun _ _ h => by simp at h, rfl⟩) fun _ => ?_
  refine Ok.bind (findExtension_ok h (.inl rfl)) fun r y hr => ?_
  obtain ⟨hr, rfl⟩ := hr
  match r with
  | none => exact Ok.pure ⟨fun _ _ h => by simp at h, rfl⟩
  | some cursor =>
    refine Ok.bind (skipToTag_ok h (hr cursor rfl)) fun cursor y hc => ?_
    obtain ⟨hc, rfl⟩ := hc
    refine Ok.ite (fun _ => Ok.pure ⟨fun _ _ h => by simp at h, rfl⟩) fun _ => ?_
    refine Ok.bind (netTlsParseDerLenAt_ok (rest_le h (by omega))) fun r y hr => ?_
    obtain ⟨hr, rfl⟩ := hr
    match r with
    | none => exact Ok.pure ⟨fun _ _ h => by simp at h, rfl⟩
    | some (contentLen, headerLen) =>
      obtain ⟨hl, -, -, hhl⟩ := derLen_some hr.symm
      rw [toNat_sub_of_le (by omega)] at hhl
      have hlen := len.toNat_lt
      refine Ok.ite (fun _ => Ok.pure ⟨fun _ _ h => by simp at h, rfl⟩) fun hend => ?_
      refine Ok.pure ⟨fun cursor' contentLen' hsome => ?_, rfl⟩
      obtain ⟨rfl, rfl⟩ := by simpa using hsome
      rw [gt_iff_lt, UInt32.not_lt, UInt32.le_iff_toNat_le] at hend
      refine ⟨?_, hend, hl⟩
      rw [toNat_add_of_lt (by omega)]
      omega

/-- In a stretch that fits in a certificate nothing wraps. -/
theorem extensionContents_inside {id tag : UInt8} (hn : n ≤ 2 ^ 24)
    (h : src.toNat + len.toNat ≤ n) :
    Ok (extensionContents id tag src len) mem x n fun r y =>
      (∀ cursor contentLen, r = some (cursor, contentLen) →
        cursor.toNat + contentLen.toNat ≤ len.toNat) ∧ y = x := by
  refine (extensionContents_ok h).mono fun r y hr => ⟨fun cursor contentLen hsome => ?_, hr.2⟩
  obtain ⟨hcursor, hend, hl⟩ := hr.1 cursor contentLen hsome
  rwa [toNat_add_of_lt (by omega)] at hend

theorem netTlsParseBasicConstraints_ok (hn : n ≤ 2 ^ 24) (h : src.toNat + len.toNat ≤ n) :
    Ok (netTlsParseBasicConstraints src len) mem x n fun _ y => sizes y = sizes x := by
  refine Ok.bind (Ok.hand h) fun _ y hy => ?_
  subst hy
  refine Ok.bind (extensionContents_inside hn h) fun r y hr => ?_
  obtain ⟨hr, rfl⟩ := hr
  match r with
  | none => exact Ok.pure rfl
  | some (inner, innerLen) =>
    have hinner := hr _ _ rfl
    have hsrc := toNat_add_le src inner
    refine Ok.bind (netTlsParseDerSequenceLen_ok (by omega)) fun r y hr => ?_
    obtain ⟨hr, rfl⟩ := hr
    match r with
    | none => exact Ok.pure rfl
    | some (seqLen, seqHeaderLen) =>
      obtain ⟨hl, -, hhl, -⟩ := derSequenceLen_some hr.symm
      refine Ok.ite (fun _ => Ok.pure rfl) fun hend => ?_
      rw [gt_iff_lt, UInt32.not_lt, UInt32.le_iff_toNat_le, toNat_add_of_lt (by omega)] at hend
      have hbpos : (inner + seqHeaderLen).toNat = inner.toNat + seqHeaderLen.toNat :=
        toNat_add_of_lt (by omega)
      have hroom : inner + seqHeaderLen + 3 ≤ inner + seqHeaderLen + seqLen →
          (inner + seqHeaderLen).toNat + 3 ≤ len.toNat := by
        have h3 := toNat_add_of_lt (a := inner + seqHeaderLen) (b := 3)
          (by simp only [UInt32.reduceToNat]; omega)
        have hbend := toNat_add_add (a := inner) (b := seqHeaderLen) (c := seqLen) (by omega)
        simp only [UInt32.reduceToNat] at h3
        rw [UInt32.le_iff_toNat_le, h3, hbend]
        omega
      have hread (k : UInt32) : (src + (inner + seqHeaderLen + k)).toNat ≤
          src.toNat + (inner + seqHeaderLen).toNat + k.toNat := by
        have h1 := toNat_add_le src (inner + seqHeaderLen + k)
        have h2 := toNat_add_le (inner + seqHeaderLen) k
        omega
      have h0 := toNat_add_le src (inner + seqHeaderLen)
      have h1 := hread 1
      have h2 := hread 2
      simp only [UInt32.reduceToNat] at h1 h2
      refine Ok.bind (tagAt_ok fun hin => ?_) fun first y hfirst => ?_
      · have hin := hroom (of_decide_eq_true hin)
        omega
      obtain ⟨hfirst, rfl⟩ := hfirst
      have hfirst (hb : first = true) : (inner + seqHeaderLen).toNat + 3 ≤ len.toNat := by
        rw [hfirst, Bool.and_eq_true] at hb
        exact hroom (of_decide_eq_true hb.1)
      refine Ok.bind (tagAt_ok fun hb => ?_) fun second y hsecond => ?_
      · have hin := hfirst hb
        omega
      obtain ⟨hsecond, rfl⟩ := hsecond
      refine Ok.ite (fun hb => ?_) fun _ => ?_
      · rw [hsecond, Bool.and_eq_true] at hb
        have hin := hfirst hb.1
        refine Ok.bind (Ok.byte (by omega)) fun ca y hca => ?_
        obtain ⟨-, rfl⟩ := hca
        rw [pure_bind]
        exact Ok.write_keeps rfl
      · rw [pure_bind]
        exact Ok.write_keeps rfl

theorem netTlsParseKeyUsage_ok (hn : n ≤ 2 ^ 24) (h : src.toNat + len.toNat ≤ n) :
    Ok (netTlsParseKeyUsage src len) mem x n fun _ y => sizes y = sizes x := by
  refine Ok.bind (Ok.hand h) fun _ y hy => ?_
  subst hy
  refine Ok.bind (extensionContents_inside hn h) fun r y hr => ?_
  obtain ⟨hr, rfl⟩ := hr
  match r with
  | none => exact Ok.pure rfl
  | some (inner, octetLen) =>
    have hinner := hr _ _ rfl
    have hsrc := toNat_add_le src inner
    refine Ok.bind (tagAt_ok fun hroom => ?_) fun b y hb => ?_
    · have hroom := UInt32.le_iff_toNat_le.1 (of_decide_eq_true hroom)
      simp only [UInt32.reduceToNat] at hroom
      omega
    obtain ⟨-, rfl⟩ := hb
    refine Ok.ite (fun _ => Ok.pure rfl) fun _ => ?_
    refine Ok.bind (netTlsParseDerLenAt_ok (by omega)) fun r y hr => ?_
    obtain ⟨hr, rfl⟩ := hr
    match r with
    | none => exact Ok.pure rfl
    | some (bitLen, bitHeaderLen) =>
      obtain ⟨hl, -, hhl, -⟩ := derLen_some hr.symm
      refine Ok.ite (fun _ => Ok.pure rfl) fun hend => ?_
      rw [Bool.or_eq_true, not_or, decide_eq_true_eq, decide_eq_true_eq, gt_iff_lt, UInt32.not_lt,
        UInt32.not_lt, UInt32.le_iff_toNat_le, UInt32.le_iff_toNat_le,
        toNat_add_of_lt (a := bitHeaderLen) (by omega)] at hend
      simp only [UInt32.reduceToNat] at hend
      have h1 := toNat_add_le src (inner + bitHeaderLen + 1)
      have h2 := toNat_add_le (inner + bitHeaderLen) 1
      have h3 := toNat_add_le inner bitHeaderLen
      simp only [UInt32.reduceToNat] at h2
      refine Ok.bind (Ok.byte (by omega)) fun usage y hu => ?_
      obtain ⟨-, rfl⟩ := hu
      exact Ok.write_keeps rfl

theorem keyPurposes_ok {end' : UInt32} {steps : ℕ} (hn : n ≤ 2 ^ 24)
    (h : src.toNat + end'.toNat ≤ n) (hpos : pos ≤ end') :
    Ok (keyPurposes src end' steps pos) mem x n fun _ y => sizes y = sizes x := by
  induction steps generalizing pos x with
  | zero => exact Ok.pure rfl
  | succ steps ih =>
    have hle := UInt32.le_iff_toNat_le.1 hpos
    refine Ok.ite (fun _ => Ok.pure rfl) fun hroom => ?_
    simp only [Bool.not_eq_true', decide_eq_false_iff_not, not_not, UInt32.le_iff_toNat_le] at hroom
    rw [toNat_add_of_lt (by simp only [UInt32.reduceToNat]; omega)] at hroom
    simp only [UInt32.reduceToNat] at hroom
    have hread := toNat_add_le src pos
    refine Ok.bind (Ok.byte (by omega)) fun tag y htag => ?_
    obtain ⟨-, rfl⟩ := htag
    refine Ok.ite (fun _ => Ok.pure rfl) fun _ => ?_
    refine Ok.bind (netTlsParseDerLenAt_ok (rest_le h hle)) fun r y hr => ?_
    obtain ⟨hr, rfl⟩ := hr
    match r with
    | none => exact Ok.pure rfl
    | some (oidLen, oidHeaderLen) =>
      obtain ⟨hl, -, hhl, -⟩ := derLen_some hr.symm
      refine Ok.ite (fun _ => Ok.pure rfl) fun hend => ?_
      rw [Bool.or_eq_true, not_or, decide_eq_true_eq, decide_eq_true_eq, gt_iff_lt, gt_iff_lt,
        UInt32.not_lt, UInt32.not_lt, UInt32.le_iff_toNat_le, UInt32.le_iff_toNat_le,
        toNat_add_add (by omega)] at hend
      have hnext : pos + (oidHeaderLen + oidLen) ≤ end' := by
        rw [UInt32.le_iff_toNat_le, ← UInt32.add_assoc, toNat_add_add (by omega)]
        exact hend.2
      refine Ok.bind (netTlsOidEqual_ok (contents_le h hend.2)) fun server y hy => ?_
      subst hy
      -- Both bits are written to fields that do not matter here.
      have hrest (z : X509) (hz : sizes z = sizes y) :
          Ok (do
            if ← netTlsOidEqual (src + pos + oidHeaderLen) oidLen
                [0x2B, 0x06, 0x01, 0x05, 0x05, 0x07, 0x03, 0x02] then
              write fun x => { x with ekuBits := x.ekuBits ||| 2 }
            keyPurposes src end' steps (pos + (oidHeaderLen + oidLen))) mem z n
            fun _ w => sizes w = sizes y := by
        refine Ok.bind (netTlsOidEqual_ok (contents_le h hend.2)) fun client w hw => ?_
        subst hw
        refine Ok.ite (fun _ => ?_) fun _ => (ih hnext).mono fun _ w hw => hw.trans hz
        refine Ok.bind (Ok.write_keeps (g := sizes) rfl) fun _ v hv => ?_
        exact (ih hnext).mono fun _ u hu => hu.trans (hv.trans hz)
      refine Ok.ite (fun _ => ?_) fun _ => hrest y rfl
      exact Ok.bind (Ok.write_keeps (g := sizes) rfl) fun _ z hz => hrest z hz

theorem netTlsParseExtendedKeyUsage_ok (hn : n ≤ 2 ^ 24) (h : src.toNat + len.toNat ≤ n) :
    Ok (netTlsParseExtendedKeyUsage src len) mem x n fun _ y => sizes y = sizes x := by
  refine Ok.bind (Ok.hand h) fun _ y hy => ?_
  subst hy
  refine Ok.bind (extensionContents_inside hn h) fun r y hr => ?_
  obtain ⟨hr, rfl⟩ := hr
  match r with
  | none => exact Ok.pure rfl
  | some (inner, octetLen) =>
    have hinner := hr _ _ rfl
    have hsrc := toNat_add_le src inner
    refine Ok.bind (netTlsParseDerSequenceLen_ok (by omega)) fun r y hr => ?_
    obtain ⟨hr, rfl⟩ := hr
    match r with
    | none => exact Ok.pure rfl
    | some (seqLen, seqHeaderLen) =>
      obtain ⟨hl, -, hhl, -⟩ := derSequenceLen_some hr.symm
      refine Ok.ite (fun _ => Ok.pure rfl) fun hend => ?_
      rw [gt_iff_lt, UInt32.not_lt, UInt32.le_iff_toNat_le, toNat_add_of_lt (by omega)] at hend
      refine Ok.bind (Ok.write_keeps (g := sizes) rfl) fun _ z hz => ?_
      refine (keyPurposes_ok hn ?_ ?_).mono fun _ w hw => hw.trans hz
      · rw [toNat_add_add (by omega)]
        omega
      · rw [UInt32.le_iff_toNat_le, toNat_add_add (by omega), toNat_add_of_lt (by omega)]
        omega

end MinervaOS.Tls
