import MinervaOS.Crypto.P256Points

/-!
# The multiplications of a point agree

The affine and the projective multiplication by a 32-byte scalar, and the one by a 32-bit scalar,
run the same bits through the same chords and tangents.
-/

namespace MinervaOS.Crypto

/-- The top bits of a scalar that are not set leave the point at infinity. -/
theorem mulBits_append {K : Type*} [Field K] [DecidableEq K] {p : Option (K × K)}
    {zeros : List Bool} (h : ∀ b ∈ zeros, b = false) (bits : List Bool) :
    Jacobian.mulBits p (zeros ++ bits) = Jacobian.mulBits p bits := by
  induction zeros with
  | nil => rfl
  | cons b zeros ih =>
    obtain ⟨rfl, hz⟩ := List.forall_mem_cons.1 h
    exact ih hz

namespace Limbwise

/-- The scalar as 32 bytes, the first the most significant. -/
def zeroExtend (scalar : UInt32) : List UInt8 :=
  List.replicate 28 (0 : UInt8) ++ [(scalar >>> 24).toUInt8, (scalar >>> 16).toUInt8,
    (scalar >>> 8).toUInt8, scalar.toUInt8]

theorem byte_testBit (scalar : UInt32) {s k : ℕ} (hs : s < 32) (hk : k < 8) :
    (scalar >>> UInt32.ofNat s).toUInt8.toNat.testBit k = scalar.toNat.testBit (s + k) := by
  have hm : (UInt32.ofNat s).toNat % 32 = s := by
    rw [UInt32.toNat_ofNat']
    omega
  have h256 : (scalar >>> UInt32.ofNat s).toUInt8.toNat = (scalar.toNat >>> s) % 2 ^ 8 := by
    rw [UInt32.toNat_toUInt8, UInt32.toNat_shiftRight, hm]
  rw [h256, Nat.testBit_mod_two_pow, Nat.testBit_shiftRight, decide_eq_true hk, Bool.true_and]

theorem zeroExtend_zero (scalar : UInt32) {i : ℕ} (hi : i < 28) :
    (zeroExtend scalar).getD i 0 = 0 := by
  rw [zeroExtend, List.getD_append _ _ _ _ (by rwa [List.length_replicate]), List.getD_replicate]
  exact hi

theorem byteBits (scalar : UInt32) {s : ℕ} (hs : s < 32) :
    [7, 6, 5, 4, 3, 2, 1, 0].map (scalar >>> UInt32.ofNat s).toUInt8.toNat.testBit
      = [7, 6, 5, 4, 3, 2, 1, 0].map fun k => scalar.toNat.testBit (s + k) := by
  refine List.map_congr_left fun k hk => byte_testBit scalar hs ?_
  have hall : ∀ k ∈ [7, 6, 5, 4, 3, 2, 1, 0], k < 8 := by decide
  exact hall k hk

theorem scalarBits_zeroExtend (scalar : UInt32) :
    ∃ zeros, scalarBits (zeroExtend scalar) = zeros ++ wordBits scalar ∧
      ∀ b ∈ zeros, b = false := by
  have hr : List.range 32 = List.range 28 ++ [28, 29, 30, 31] := by decide
  refine ⟨(List.range 28).flatMap fun i => [7, 6, 5, 4, 3, 2, 1, 0].map fun bit =>
    ((zeroExtend scalar).getD i 0).toNat.testBit bit, ?_, fun b hb => ?_⟩
  · have h3 : (zeroExtend scalar).getD 28 0 = (scalar >>> UInt32.ofNat 24).toUInt8 := rfl
    have h2 : (zeroExtend scalar).getD 29 0 = (scalar >>> UInt32.ofNat 16).toUInt8 := rfl
    have h1 : (zeroExtend scalar).getD 30 0 = (scalar >>> UInt32.ofNat 8).toUInt8 := rfl
    have h0 : (zeroExtend scalar).getD 31 0 = (scalar >>> UInt32.ofNat 0).toUInt8 := by
      rw [show scalar >>> UInt32.ofNat 0 = scalar from UInt32.shiftRight_zero]
      rfl
    rw [scalarBits, hr, List.flatMap_append]
    congr 1
    simp only [List.flatMap_cons, List.flatMap_nil, h3, h2, h1, h0]
    rw [byteBits scalar (s := 24) (by decide), byteBits scalar (s := 16) (by decide),
      byteBits scalar (s := 8) (by decide), byteBits scalar (s := 0) (by decide)]
    rfl
  · obtain ⟨i, hi, hb⟩ := List.mem_flatMap.1 hb
    obtain ⟨bit, _, rfl⟩ := List.mem_map.1 hb
    rw [zeroExtend_zero scalar (List.mem_range.1 hi)]
    exact Nat.zero_testBit bit

/-- Same flag, and the same coordinates where there are any. -/
def Same (p q : P256Point) : Prop :=
  p.infinity = q.infinity ∧ (p.infinity = false → p.x = q.x ∧ p.y = q.y)

/-- Coordinates below the field prime. -/
def P256Point.Canonical (p : P256Point) : Prop :=
  p.x.value < Crypto.p256P ∧ p.y.value < Crypto.p256P

theorem same_of_affine {p q : P256Point} (hp : p.numbers.Canonical) (hq : q.numbers.Canonical)
    (h : p.numbers.affine = q.numbers.affine) : Same p q := by
  obtain ⟨hinf, hxy⟩ := hp.ext hq h
  exact ⟨hinf, fun hf => ⟨P256Fe.value_inj (hxy hf).1, P256Fe.value_inj (hxy hf).2⟩⟩

theorem pointMul_same {p : P256Point} (hp : p.Canonical) :
    (∀ scalar, Same (p256PointMulBe32Projective p scalar) (p256PointMulBe32 p scalar)) ∧
      ∀ scalar, Same (p256PointMulU32 p scalar) (p256PointMulBe32 p (zeroExtend scalar)) ∧
        Same (p256PointMulU32 p scalar) (p256PointMulBe32Projective p (zeroExtend scalar)) := by
  have hn : p.numbers.Canonical := ⟨hp.1, hp.2⟩
  have haffine (scalar : List UInt8) := pointMulBits_spec hn (scalarBits scalar)
  have hprojective (scalar : List UInt8) := pointMulBe32Projective_spec hn scalar
  have hword (scalar : UInt32) : (p256PointMulU32 p scalar).numbers.Canonical ∧
      (p256PointMulU32 p scalar).numbers.affine
        = Jacobian.mulBits p.numbers.affine (scalarBits (zeroExtend scalar)) := by
    obtain ⟨zeros, hbits, hz⟩ := scalarBits_zeroExtend scalar
    rw [numbers_pointMulU32, hbits, mulBits_append hz]
    exact pointMulBits_spec hn (wordBits scalar)
  refine ⟨fun scalar => ?_, fun scalar => ⟨?_, ?_⟩⟩
  · apply same_of_affine
    · rw [numbers_pointMulBe32Projective]
      exact (hprojective scalar).1
    · rw [numbers_pointMulBe32]
      exact (haffine scalar).1
    · rw [numbers_pointMulBe32Projective, numbers_pointMulBe32, (hprojective scalar).2]
      exact (haffine scalar).2.symm
  · apply same_of_affine (hword scalar).1
    · rw [numbers_pointMulBe32]
      exact (haffine _).1
    · rw [numbers_pointMulBe32, (hword scalar).2]
      exact (haffine _).2.symm
  · apply same_of_affine (hword scalar).1
    · rw [numbers_pointMulBe32Projective]
      exact (hprojective _).1
    · rw [numbers_pointMulBe32Projective, (hword scalar).2, (hprojective _).2]

theorem pointMul_same_basePoint :
    Same (p256PointMulBe32Projective p256BasePoint (zeroExtend 3))
        (p256PointMulBe32 p256BasePoint (zeroExtend 3)) ∧
      Same (p256PointMulU32 p256BasePoint 3) (p256PointMulBe32 p256BasePoint (zeroExtend 3)) := by
  have hcanonical : p256BasePoint.Canonical := by
    constructor <;> decide
  exact ⟨(pointMul_same hcanonical).1 (zeroExtend 3), ((pointMul_same hcanonical).2 3).1⟩

end Limbwise

end MinervaOS.Crypto
