import MinervaOS.Tls.X509

/-!
# Where the DER parsers read

Each parser stays inside the stretch that it is given, whatever the memory says, and the positions
that it returns are inside it as well. `derLen` is the value of the length parser, which all the
others go by. The bound `n` is that of the buffer: a stretch from `src` on is inside it when
`src.toNat + len.toNat ≤ n`, with no wrap in it.
-/

namespace MinervaOS.Tls

open Reader

variable {σ : Type} {mem : Memory} {x : σ} {n : ℕ} {src available len pos l hl : UInt32}

theorem toNat_add_le (a b : UInt32) : (a + b).toNat ≤ a.toNat + b.toNat := by
  rw [UInt32.toNat_add]
  exact Nat.mod_le _ _

theorem toNat_add_of_lt {a b : UInt32} (h : a.toNat + b.toNat < 2 ^ 32) :
    (a + b).toNat = a.toNat + b.toNat := by
  rw [UInt32.toNat_add, Nat.mod_eq_of_lt h]

theorem toNat_sub_of_le {a b : UInt32} (h : b.toNat ≤ a.toNat) :
    (a - b).toNat = a.toNat - b.toNat :=
  UInt32.toNat_sub_of_le _ _ (UInt32.le_iff_toNat_le.2 h)

theorem toNat_add_add {a b c : UInt32} (h : a.toNat + b.toNat + c.toNat < 2 ^ 32) :
    (a + b + c).toNat = a.toNat + b.toNat + c.toNat := by
  rw [toNat_add_of_lt, toNat_add_of_lt (by omega)]
  rwa [toNat_add_of_lt (by omega)]

/-- What is left of a stretch behind a position in it. -/
theorem rest_le (h : src.toNat + available.toNat ≤ n) (hpos : pos.toNat ≤ available.toNat) :
    (src + pos).toNat + (available - pos).toNat ≤ n := by
  have hadd := toNat_add_le src pos
  rw [toNat_sub_of_le hpos]
  omega

/-- The contents of an element that is in a stretch. -/
theorem contents_le (h : src.toNat + available.toNat ≤ n)
    (hend : pos.toNat + hl.toNat + l.toNat ≤ available.toNat) :
    (src + pos + hl).toNat + l.toNat ≤ n := by
  have hadd := toNat_add_le src pos
  have hadd' := toNat_add_le (src + pos) hl
  omega

theorem shift_or_lt {v b : UInt32} {s j k : ℕ} (hs : s < 32) (hv : v.toNat < 2 ^ j)
    (hj : j + s ≤ k) (hb : b.toNat < 2 ^ k) :
    ((v <<< UInt32.ofNat s) ||| b).toNat < 2 ^ k := by
  rw [UInt32.toNat_or]
  refine Nat.or_lt_two_pow ?_ hb
  have hs' : s % 2 ^ 32 % 32 = s := by omega
  rw [UInt32.toNat_shiftLeft, UInt32.toNat_ofNat', Nat.shiftLeft_eq, hs']
  calc v.toNat * 2 ^ s % 2 ^ 32 ≤ v.toNat * 2 ^ s := Nat.mod_le _ _
    _ < 2 ^ j * 2 ^ s := Nat.mul_lt_mul_of_pos_right hv (Nat.two_pow_pos s)
    _ = 2 ^ (j + s) := (Nat.pow_add 2 j s).symm
    _ ≤ 2 ^ k := Nat.pow_le_pow_right (by omega) hj

theorem toUInt32_lt (b : UInt8) {k : ℕ} (hk : 8 ≤ k) : b.toUInt32.toNat < 2 ^ k :=
  Nat.lt_of_lt_of_le b.toNat_lt (Nat.pow_le_pow_right (by omega) hk)

theorem tagAt_ok {room : Bool} {tag : UInt8} (h : room = true → pos.toNat < n) :
    Ok (tagAt room pos tag : DerM σ Bool) mem x n fun b y =>
      b = (room && mem pos == tag) ∧ y = x := by
  rw [tagAt]
  refine Ok.ite (fun hroom => ?_) fun hroom => ?_
  · refine Ok.bind (Ok.byte (h hroom)) fun a y ha => ?_
    obtain ⟨rfl, rfl⟩ := ha
    exact Ok.pure ⟨by rw [hroom, Bool.true_and], rfl⟩
  · exact Ok.pure ⟨by rw [Bool.eq_false_iff.2 hroom, Bool.false_and], rfl⟩

def be24 (mem : Memory) (src : UInt32) : UInt32 :=
  ((mem src).toUInt32 <<< 16) ||| ((mem (src + 1)).toUInt32 <<< 8) ||| (mem (src + 2)).toUInt32

theorem get24be_ok (h : src.toNat + 3 ≤ n) :
    Ok (get24be src : DerM σ UInt32) mem x n fun a y => a = be24 mem src ∧ y = x := by
  have h1 := toNat_add_le src 1
  have h2 := toNat_add_le src 2
  simp only [UInt32.reduceToNat] at h1 h2
  refine Ok.bind (Ok.byte (by omega)) fun a y ha => ?_
  obtain ⟨rfl, rfl⟩ := ha
  refine Ok.bind (Ok.byte (by omega)) fun b y hb => ?_
  obtain ⟨rfl, rfl⟩ := hb
  refine Ok.bind (Ok.byte (by omega)) fun c y hc => ?_
  obtain ⟨rfl, rfl⟩ := hc
  exact Ok.pure ⟨rfl, rfl⟩

/-! ## Lengths -/

/-- The length of the contents and that of the header of the element at `src`. -/
def derLen (mem : Memory) (src available : UInt32) : Option (UInt32 × UInt32) :=
  let first := mem (src + 1)
  let count := (first &&& 0x7F).toUInt32
  if available < 2 then none
  else if first &&& 0x80 == 0 then some (first.toUInt32, 2)
  else if count == 0 || count > 3 || available < 2 + count then none
  else
    some ((List.range count.toNat).foldl (fun value i =>
      (value <<< 8) ||| (mem (src + 2 + UInt32.ofNat i)).toUInt32) (0 : UInt32), 2 + count)

theorem count_of_not {count : UInt32}
    (h : ¬(count == 0 || decide (count > 3) || decide (available < 2 + count)) = true) :
    0 < count.toNat ∧ count.toNat ≤ 3 ∧ 2 + count.toNat ≤ available.toNat := by
  simp only [Bool.or_eq_true, beq_iff_eq, decide_eq_true_eq, not_or, UInt32.not_lt,
    UInt32.le_iff_toNat_le, UInt32.reduceToNat, gt_iff_lt] at h
  obtain ⟨⟨h0, h3⟩, hroom⟩ := h
  rw [toNat_add_of_lt (by simp only [UInt32.reduceToNat]; omega)] at hroom
  refine ⟨Nat.pos_of_ne_zero fun hz => h0 (UInt32.toNat_inj.1 hz), h3, hroom⟩

theorem netTlsParseDerLenAt_ok (h : src.toNat + available.toNat ≤ n) :
    Ok (netTlsParseDerLenAt src available : DerM σ _) mem x n fun r y =>
      r = derLen mem src available ∧ y = x := by
  rw [netTlsParseDerLenAt, derLen]
  refine Ok.bind (Ok.hand h) fun _ y hy => ?_
  subst hy
  refine Ok.ite (fun hshort => Ok.pure ⟨by rw [if_pos hshort], rfl⟩) fun hshort => ?_
  rw [if_neg hshort]
  have h2 : 2 ≤ available.toNat := UInt32.le_iff_toNat_le.1 (UInt32.not_lt.1 hshort)
  have h1 := toNat_add_le src 1
  simp only [UInt32.reduceToNat] at h1
  refine Ok.bind (Ok.byte (by omega)) fun first y hfirst => ?_
  obtain ⟨rfl, rfl⟩ := hfirst
  refine Ok.ite (fun hlow => Ok.pure ⟨by rw [if_pos hlow], rfl⟩) fun hlow => ?_
  rw [if_neg hlow]
  refine Ok.ite (fun hcount => Ok.pure ⟨by rw [if_pos hcount], rfl⟩) fun hcount => ?_
  rw [if_neg hcount]
  obtain ⟨-, hle, hroom⟩ := count_of_not hcount
  refine Ok.bind (Ok.foldlM (g := fun (value : UInt32) (i : ℕ) =>
    (value <<< 8) ||| (mem (src + 2 + UInt32.ofNat i)).toUInt32) fun b i hi => ?_) fun v y hv => ?_
  · have hi := List.mem_range.1 hi
    have hpos := toNat_add_le (src + 2) (UInt32.ofNat i)
    have hsrc := toNat_add_le src 2
    rw [UInt32.toNat_ofNat_of_lt' (by rw [UInt32.size]; omega)] at hpos
    simp only [UInt32.reduceToNat] at hsrc
    refine Ok.bind (Ok.byte (by omega)) fun a y ha => ?_
    obtain ⟨rfl, rfl⟩ := ha
    exact Ok.pure ⟨rfl, rfl⟩
  · obtain ⟨rfl, rfl⟩ := hv
    exact Ok.pure ⟨rfl, rfl⟩

theorem foldl_lt (g : ℕ → UInt8) (is : List ℕ) {v : UInt32} {j : ℕ} (hv : v.toNat < 2 ^ (8 * j)) :
    (is.foldl (fun (value : UInt32) i => (value <<< 8) ||| (g i).toUInt32) v).toNat <
      2 ^ (8 * (j + is.length)) := by
  induction is generalizing v j with
  | nil => exact hv
  | cons i is ih =>
    have hstep := shift_or_lt (b := (g i).toUInt32) (k := 8 * (j + 1)) (s := 8) (by omega) hv
      (by omega) (toUInt32_lt _ (by omega))
    have h := ih hstep
    rwa [Nat.add_assoc, Nat.add_comm 1] at h

theorem derLen_some (h : derLen mem src available = some (l, hl)) :
    l.toNat < 2 ^ 24 ∧ 2 ≤ hl.toNat ∧ hl.toNat ≤ 5 ∧ hl.toNat ≤ available.toNat := by
  rw [derLen] at h
  split at h
  · exact absurd h (by simp)
  next hshort =>
  have h2 : 2 ≤ available.toNat := UInt32.le_iff_toNat_le.1 (UInt32.not_lt.1 hshort)
  split at h
  · obtain ⟨rfl, rfl⟩ := Prod.mk.inj (Option.some.inj h)
    exact ⟨toUInt32_lt _ (by omega), Nat.le_refl 2, by decide, h2⟩
  split at h
  · exact absurd h (by simp)
  next hcount =>
  obtain ⟨hpos, hle, hroom⟩ := count_of_not hcount
  obtain ⟨rfl, rfl⟩ := Prod.mk.inj (Option.some.inj h)
  have hfold := foldl_lt (fun i => mem (src + 2 + UInt32.ofNat i))
    (List.range (mem (src + 1) &&& 0x7F).toUInt32.toNat) (v := 0) (j := 0) (by decide)
  rw [List.length_range] at hfold
  have hhl : (2 + (mem (src + 1) &&& 0x7F).toUInt32).toNat =
      2 + (mem (src + 1) &&& 0x7F).toUInt32.toNat :=
    toNat_add_of_lt (by simp only [UInt32.reduceToNat]; omega)
  refine ⟨Nat.lt_of_lt_of_le hfold (Nat.pow_le_pow_right (by omega) (by omega)), ?_, ?_, ?_⟩ <;>
    omega

/-- The lengths of a SEQUENCE. -/
def derSequenceLen (mem : Memory) (der available : UInt32) : Option (UInt32 × UInt32) :=
  if available ≥ 2 && mem der == 0x30 then derLen mem der available else none

theorem netTlsParseDerSequenceLen_ok (h : src.toNat + available.toNat ≤ n) :
    Ok (netTlsParseDerSequenceLen src available : DerM σ _) mem x n fun r y =>
      r = derSequenceLen mem src available ∧ y = x := by
  rw [netTlsParseDerSequenceLen, derSequenceLen]
  refine Ok.bind (Ok.hand h) fun _ y hy => ?_
  subst hy
  refine Ok.bind (tagAt_ok fun hroom => ?_) fun b y hb => ?_
  · have h2 := UInt32.le_iff_toNat_le.1 (of_decide_eq_true hroom)
    simp only [UInt32.reduceToNat] at h2
    omega
  obtain ⟨rfl, rfl⟩ := hb
  refine Ok.ite (fun hseq => Ok.pure ⟨?_, rfl⟩) fun hseq => ?_
  · rw [if_neg (by rwa [Bool.not_eq_true', ← Bool.not_eq_true] at hseq)]
  · rw [if_pos (by rwa [Bool.not_eq_true', Bool.not_eq_false] at hseq)]
    exact netTlsParseDerLenAt_ok h

theorem derSequenceLen_some (h : derSequenceLen mem src available = some (l, hl)) :
    l.toNat < 2 ^ 24 ∧ 2 ≤ hl.toNat ∧ hl.toNat ≤ 5 ∧ hl.toNat ≤ available.toNat := by
  rw [derSequenceLen] at h
  split at h
  · exact derLen_some h
  · exact absurd h (by simp)

/-! ## Object identifiers -/

theorem equalAt_ok {es : List UInt8} (h : pos.toNat + es.length ≤ n) :
    Ok (equalAt pos es : DerM σ Bool) mem x n fun _ y => y = x := by
  induction es generalizing pos with
  | nil => exact Ok.pure rfl
  | cons e es ih =>
    rw [List.length_cons] at h
    have hpos := toNat_add_le pos 1
    simp only [UInt32.reduceToNat] at hpos
    refine Ok.bind (Ok.byte (by omega)) fun a y ha => ?_
    obtain ⟨rfl, rfl⟩ := ha
    exact Ok.ite (fun _ => Ok.pure rfl) fun _ => ih (by omega)

theorem netTlsOidEqual_ok {expected : List UInt8} (h : src.toNat + len.toNat ≤ n) :
    Ok (netTlsOidEqual src len expected : DerM σ Bool) mem x n fun _ y => y = x := by
  refine Ok.bind (Ok.hand h) fun _ y hy => ?_
  subst hy
  exact Ok.ite (fun _ => Ok.pure rfl) fun hlen => equalAt_ok (by omega)

theorem knownOid_ok {i : UInt8} {es : List (List UInt8)} (h : src.toNat + len.toNat ≤ n) :
    Ok (knownOid src len i es : DerM σ UInt8) mem x n fun _ y => y = x := by
  induction es generalizing i with
  | nil => exact Ok.pure rfl
  | cons e es ih =>
    refine Ok.bind (netTlsOidEqual_ok h) fun b y hy => ?_
    subst hy
    exact Ok.ite (fun _ => Ok.pure rfl) fun _ => ih

/-! ## Dates and names -/

theorem digits_ok {k : ℕ} (h : pos.toNat + k ≤ n) :
    Ok (digits k pos : DerM σ _) mem x n fun _ y => y = x := by
  induction k generalizing pos with
  | zero => exact Ok.pure rfl
  | succ k ih =>
    have hpos := toNat_add_le pos 1
    simp only [UInt32.reduceToNat] at hpos
    refine Ok.bind (Ok.byte (by omega)) fun a y ha => ?_
    obtain ⟨rfl, rfl⟩ := ha
    refine Ok.ite (fun _ => Ok.pure rfl) fun _ => ?_
    refine Ok.bind (ih (by omega)) fun ds y hy => ?_
    exact Ok.pure hy

theorem netTlsParseAsn1Date_ok {tag : UInt8} (h : src.toNat + len.toNat ≤ n) :
    Ok (netTlsParseAsn1Date tag src len : DerM σ ℕ) mem x n fun _ y => y = x := by
  refine Ok.bind (Ok.hand h) fun _ y hy => ?_
  subst hy
  refine Ok.ite (fun _ => Ok.pure rfl) fun _ => ?_
  refine Ok.ite (fun _ => Ok.pure rfl) fun hlen => ?_
  refine Ok.bind (digits_ok (by omega)) fun ds y hy => ?_
  subst hy
  cases ds with
  | none => exact Ok.pure rfl
  | some ds => exact Ok.ite (fun _ => Ok.pure rfl) fun _ => Ok.pure rfl

theorem netTlsCopyNameString_ok (h : src.toNat + len.toNat ≤ n) :
    Ok (netTlsCopyNameString src len : DerM σ _) mem x n fun text y =>
      text = ((stretch mem src len.toNat).take 31).map (fun value =>
        if netTlsIsPrintableByte value then value else 63) ∧ y = x := by
  refine Ok.bind (Ok.hand h) fun _ y hy => ?_
  subst hy
  have hlimit : (if len.toNat ≥ netX509NameSize then netX509NameSize - 1 else len.toNat) =
      min 31 len.toNat := by
    rw [netX509NameSize]
    split <;> omega
  refine Ok.bind (Ok.bytes (by rw [hlimit]; omega)) fun l y hl => ?_
  obtain ⟨rfl, rfl⟩ := hl
  exact Ok.pure ⟨by rw [hlimit, take_stretch], rfl⟩

theorem skipToString_ok {steps : ℕ} (h : src.toNat + len.toNat ≤ n) (hpos : pos ≤ len) :
    Ok (skipToString src len steps pos : DerM σ UInt32) mem x n fun pos y =>
      pos ≤ len ∧ y = x := by
  induction steps generalizing pos with
  | zero => exact Ok.pure ⟨hpos, rfl⟩
  | succ steps ih =>
    refine Ok.ite (fun _ => Ok.pure ⟨hpos, rfl⟩) fun hlt => ?_
    have hread := toNat_add_le src pos
    simp only [ge_iff_le, UInt32.le_iff_toNat_le] at hlt
    refine Ok.bind (Ok.byte (by omega)) fun a y ha => ?_
    obtain ⟨rfl, rfl⟩ := ha
    refine Ok.ite (fun _ => Ok.pure ⟨hpos, rfl⟩) fun _ => ih ?_
    have h1 := toNat_add_le pos 1
    simp only [UInt32.reduceToNat] at h1
    exact UInt32.le_iff_toNat_le.2 (by omega)

theorem findCommonName_ok {steps : ℕ} (hn : n ≤ 2 ^ 24) (h : src.toNat + len.toNat ≤ n)
    (hpos : pos ≤ len) :
    Ok (findCommonName src len steps pos : DerM σ _) mem x n fun _ y => y = x := by
  induction steps generalizing pos with
  | zero => exact Ok.pure rfl
  | succ steps ih =>
    have hlen : len.toNat ≤ 2 ^ 24 := by omega
    have hle := UInt32.le_iff_toNat_le.1 hpos
    refine Ok.ite (fun _ => Ok.pure rfl) fun hroom => ?_
    simp only [Bool.not_eq_true', decide_eq_false_iff_not, not_not, UInt32.lt_iff_toNat_lt] at hroom
    rw [toNat_add_of_lt (by simp only [UInt32.reduceToNat]; omega)] at hroom
    simp only [UInt32.reduceToNat] at hroom
    have hread := toNat_add_le src pos
    have hnext : pos + 1 ≤ len := by
      rw [UInt32.le_iff_toNat_le, toNat_add_of_lt (by simp only [UInt32.reduceToNat]; omega)]
      simp only [UInt32.reduceToNat]
      omega
    refine Ok.bind (Ok.byte (by omega)) fun a y ha => ?_
    obtain ⟨rfl, rfl⟩ := ha
    refine Ok.ite (fun _ => ih hnext) fun _ => ?_
    refine Ok.bind (netTlsParseDerLenAt_ok (rest_le h hle)) fun r y hr => ?_
    obtain ⟨hr, rfl⟩ := hr
    match r with
    | none => exact ih hnext
    | some (oidLen, oidHeaderLen) =>
      obtain ⟨-, -, hhl, -⟩ := derLen_some hr.symm
      refine Ok.ite (fun _ => ih hnext) fun hoid => ?_
      rw [Bool.or_eq_true, not_or] at hoid
      obtain ⟨hoid, hend⟩ := hoid
      have hoid : oidLen = 3 := by simpa using hoid
      subst hoid
      simp only [decide_eq_true_eq, ge_iff_le, UInt32.not_le, UInt32.lt_iff_toNat_lt] at hend
      rw [toNat_add_add (by simp only [UInt32.reduceToNat]; omega)] at hend
      refine Ok.bind (netTlsOidEqual_ok (contents_le h (by omega))) fun b y hy => ?_
      subst hy
      refine Ok.ite (fun _ => ih hnext) fun _ => ?_
      refine Ok.bind (skipToString_ok h ?_) fun valuePos y hv => ?_
      · rw [UInt32.le_iff_toNat_le, toNat_add_add (by simp only [UInt32.reduceToNat]; omega)]
        omega
      obtain ⟨hv, rfl⟩ := hv
      have hv := UInt32.le_iff_toNat_le.1 hv
      refine Ok.ite (fun _ => Ok.pure rfl) fun _ => ?_
      refine Ok.bind (netTlsParseDerLenAt_ok (rest_le h hv)) fun r y hr => ?_
      obtain ⟨hr, rfl⟩ := hr
      match r with
      | none => exact Ok.pure rfl
      | some (valueLen, valueHeaderLen) =>
        obtain ⟨hl, -, hhl, -⟩ := derLen_some hr.symm
        refine Ok.ite (fun _ => Ok.pure rfl) fun hend => ?_
        rw [gt_iff_lt, UInt32.not_lt, UInt32.le_iff_toNat_le, toNat_add_add (by omega)] at hend
        refine Ok.bind (netTlsCopyNameString_ok (contents_le h hend)) fun text y hy => ?_
        exact Ok.pure hy.2

theorem netTlsParseNameCn_ok (hn : n ≤ 2 ^ 24) (h : src.toNat + len.toNat ≤ n) :
    Ok (netTlsParseNameCn src len : DerM σ _) mem x n fun _ y => y = x := by
  refine Ok.bind (Ok.hand h) fun _ y hy => ?_
  subst hy
  refine Ok.bind (findCommonName_ok hn h (UInt32.zero_le)) fun cn y hy => ?_
  exact Ok.pure hy

/-! ## The integers of a signature -/

theorem stripZeros_ok {steps : ℕ} (h : src.toNat + len.toNat ≤ n) :
    Ok (stripZeros steps src len : DerM σ _) mem x n fun r y =>
      r.1.toNat + r.2.toNat ≤ n ∧ y = x := by
  induction steps generalizing src len with
  | zero => exact Ok.pure ⟨h, rfl⟩
  | succ steps ih =>
    refine Ok.bind (tagAt_ok fun hroom => ?_) fun b y hb => ?_
    · have hroom := UInt32.lt_iff_toNat_lt.1 (of_decide_eq_true hroom)
      simp only [UInt32.reduceToNat] at hroom
      omega
    obtain ⟨rfl, rfl⟩ := hb
    refine Ok.ite (fun hmore => ih ?_) fun _ => Ok.pure ⟨h, rfl⟩
    rw [Bool.and_eq_true] at hmore
    have hroom := UInt32.lt_iff_toNat_lt.1 (of_decide_eq_true hmore.1)
    have hsrc := toNat_add_le src 1
    simp only [UInt32.reduceToNat] at hroom hsrc
    rw [toNat_sub_of_le (by simp only [UInt32.reduceToNat]; omega)]
    simp only [UInt32.reduceToNat]
    omega

theorem parseInteger_ok (hn : n ≤ 2 ^ 24) (h : src.toNat + len.toNat ≤ n) (hpos : pos ≤ len) :
    Ok (parseInteger src len pos : DerM σ _) mem x n fun r y =>
      (∀ rLen value ipos, r = some (rLen, value, ipos) → ipos ≤ len) ∧ y = x := by
  have hle := UInt32.le_iff_toNat_le.1 hpos
  refine Ok.ite (fun _ => Ok.pure ⟨fun _ _ _ h => by simp at h, rfl⟩) fun hroom => ?_
  rw [gt_iff_lt, UInt32.not_lt, UInt32.le_iff_toNat_le,
    toNat_add_of_lt (by simp only [UInt32.reduceToNat]; omega)] at hroom
  simp only [UInt32.reduceToNat] at hroom
  have hread := toNat_add_le src pos
  refine Ok.bind (Ok.byte (by omega)) fun a y ha => ?_
  obtain ⟨rfl, rfl⟩ := ha
  refine Ok.ite (fun _ => Ok.pure ⟨fun _ _ _ h => by simp at h, rfl⟩) fun _ => ?_
  refine Ok.bind (netTlsParseDerLenAt_ok (rest_le h hle)) fun r y hr => ?_
  obtain ⟨hr, rfl⟩ := hr
  match r with
  | none => exact Ok.pure ⟨fun _ _ _ h => by simp at h, rfl⟩
  | some (encodedLen, headerLen) =>
    obtain ⟨hl, -, hhl, -⟩ := derLen_some hr.symm
    refine Ok.ite (fun _ => Ok.pure ⟨fun _ _ _ h => by simp at h, rfl⟩) fun hend => ?_
    rw [Bool.or_eq_true, not_or, decide_eq_true_eq, decide_eq_true_eq, gt_iff_lt, gt_iff_lt,
      UInt32.not_lt, UInt32.not_lt, UInt32.le_iff_toNat_le, UInt32.le_iff_toNat_le,
      toNat_add_add (by omega)] at hend
    refine Ok.bind (stripZeros_ok (contents_le h hend.2)) fun r y hr => ?_
    obtain ⟨hr, rfl⟩ := hr
    refine Ok.bind (Ok.bytes ?_) fun value y hv => ?_
    · split
      · exact hr
      next hlong =>
        rw [UInt32.le_iff_toNat_le] at hlong
        simp only [UInt32.reduceToNat] at hlong
        omega
    obtain ⟨-, rfl⟩ := hv
    refine Ok.pure ⟨fun _ _ _ hsome => ?_, rfl⟩
    obtain ⟨-, -, rfl⟩ := by simpa using hsome
    rw [UInt32.le_iff_toNat_le, ← UInt32.add_assoc, toNat_add_add (by omega)]
    exact hend.2

/-- `g` is what the two assignments leave alone. -/
theorem parseIntegers_ok {γ : Type} {g : σ → γ} {setR setS : UInt32 → List UInt8 → σ → σ}
    (hn : n ≤ 2 ^ 24) (h : src.toNat + len.toNat ≤ n) (hR : ∀ l v x, g (setR l v x) = g x)
    (hS : ∀ l v x, g (setS l v x) = g x) :
    Ok (parseIntegers src len setR setS) mem x n fun _ y => g y = g x := by
  refine Ok.bind (netTlsParseDerSequenceLen_ok h) fun r y hr => ?_
  obtain ⟨hr, rfl⟩ := hr
  match r with
  | none => exact Ok.pure rfl
  | some (seqLen, seqHeaderLen) =>
    obtain ⟨-, -, -, hhl⟩ := derSequenceLen_some hr.symm
    refine Ok.ite (fun _ => Ok.pure rfl) fun _ => ?_
    refine Ok.bind (parseInteger_ok hn h (UInt32.le_iff_toNat_le.2 hhl)) fun r y hr => ?_
    obtain ⟨hr, rfl⟩ := hr
    match r with
    | none => exact Ok.pure rfl
    | some (rLen, value, ipos) =>
      refine Ok.bind Ok.write fun _ z hz => ?_
      subst hz
      refine Ok.bind (parseInteger_ok hn h (hr _ _ _ rfl)) fun r z hr => ?_
      obtain ⟨-, rfl⟩ := hr
      match r with
      | none => exact Ok.pure (hR _ _ _)
      | some (sLen, s, _) =>
        exact Ok.write.mono fun _ z hz => by rw [hz, hS, hR]

end MinervaOS.Tls
