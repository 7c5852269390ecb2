import MinervaOS.Crypto.P256Points
import MinervaOS.Lib.GroupLaw

/-!
# The group of P-256

The points that the code accepts are the finite points of an elliptic curve, and its multiplication
and its addition are the multiple and the sum in the group of that curve.
-/

namespace MinervaOS.Crypto

open Jacobian

def p256Curve : WeierstrassCurve.Affine (ZMod p256P) := curve (p256B : ZMod p256P)

/-- The discriminant is not divisible by the field prime. -/
theorem discriminant_ne_zero : p256Curve.Δ ≠ 0 := by
  have h2 : (2 : ZMod p256P) ≠ 0 := two_ne_zero
  have hd : ((27 * p256B ^ 2 - 108 : ℕ) : ZMod p256P) ≠ 0 := by
    rw [ne_eq, ZMod.natCast_eq_zero_iff]
    decide
  have hcast : ((27 * p256B ^ 2 - 108 : ℕ) : ZMod p256P) = 27 * (p256B : ZMod p256P) ^ 2 - 108 := by
    rw [Nat.cast_sub (by decide)]
    push_cast
    ring
  have hdelta : p256Curve.Δ = -2 ^ 4 * (27 * (p256B : ZMod p256P) ^ 2 - 108) := by
    simp only [WeierstrassCurve.Δ, WeierstrassCurve.b₂, WeierstrassCurve.b₄, WeierstrassCurve.b₆,
      WeierstrassCurve.b₈, p256Curve, curve]
    ring
  rw [hdelta, ← hcast]
  exact mul_ne_zero (neg_ne_zero.2 (pow_ne_zero 4 h2)) hd

instance : p256Curve.IsElliptic := ⟨isUnit_iff_ne_zero.2 discriminant_ne_zero⟩

theorem basePoint_equation : p256Curve.Equation (p256Gx : ZMod p256P) (p256Gy : ZMod p256P) := by
  have hg : p256Gy ^ 2 + 3 * p256Gx ≡ p256Gx ^ 3 + p256B [MOD p256P] := by decide
  have hcast := (ZMod.natCast_eq_natCast_iff _ _ _).2 hg
  push_cast at hcast
  rw [p256Curve, equation_iff]
  linear_combination hcast

/-- The base point in the group. -/
def generator : p256Curve.Point := .mk basePoint_equation

theorem basePoint_canonical : p256BasePoint.Canonical :=
  ⟨show p256Gx < p256P by decide, show p256Gy < p256P by decide⟩

theorem basePoint_affine : p256BasePoint.affine = coords generator := rfl

/-! ## Bytes of a scalar -/

theorem byte_ofBits :
    ∀ byte < 256, ofBits ([7, 6, 5, 4, 3, 2, 1, 0].map (Nat.testBit byte)) = byte := by
  decide +kernel

theorem foldl_bits (bits : List Bool) (n : ℕ) :
    bits.foldl (fun n bit => 2 * n + bit.toNat) n = 2 ^ bits.length * n + ofBits bits := by
  induction bits generalizing n with
  | nil => simp [ofBits]
  | cons bit bits ih =>
    have hof : ofBits (bit :: bits) = 2 ^ bits.length * bit.toNat + ofBits bits := by
      rw [ofBits, List.foldl_cons, ih, Nat.mul_zero, Nat.zero_add]
    rw [List.foldl_cons, ih, hof, List.length_cons, pow_succ]
    ring

/-- The bits of a scalar are those of its big-endian number. -/
theorem ofBits_scalarBits (scalar : List UInt8) :
    ofBits (scalarBits scalar) = p256FeFromBe32 scalar := by
  have hbyte (n : ℕ) (byte : UInt8) :
      ([7, 6, 5, 4, 3, 2, 1, 0].map fun bit => byte.toNat.testBit bit).foldl
        (fun n bit => 2 * n + bit.toNat) n = 256 * n + byte.toNat := by
    rw [foldl_bits, byte_ofBits _ byte.toNat_lt, List.length_map]
    rfl
  simp only [ofBits, scalarBits, List.foldl_flatMap, hbyte, p256FeFromBe32]

theorem feFromBe32_toBe32 {a : ℕ} (ha : a < 2 ^ 256) : p256FeFromBe32 (p256FeToBe32 a) = a := by
  have hrun (k : ℕ) (hk : k ≤ 32) :
      (List.range k).foldl (fun value i => 256 * value + ((p256FeToBe32 a).getD i 0).toNat) 0
        = a / 256 ^ (32 - k) := by
    induction k with
    | zero => exact (Nat.div_eq_of_lt (by simpa using ha)).symm
    | succ k ih =>
      have hbyte : ((p256FeToBe32 a).getD k 0).toNat = a / 256 ^ (31 - k) % 256 := by
        simp [p256FeToBe32, List.getD, show k < 32 by omega]
      have hpow : 256 ^ (32 - k) = 256 ^ (31 - k) * 256 := by
        rw [← pow_succ]
        congr 1
        omega
      rw [List.range_succ, List.foldl_append, List.foldl_cons, List.foldl_nil, ih (by omega), hbyte,
        hpow, ← Nat.div_div_eq_div_mul, show 32 - (k + 1) = 31 - k by omega]
      omega
  have hall := hrun 32 le_rfl
  rwa [Nat.sub_self, pow_zero, Nat.div_one] at hall

/-! ## The code's points in the group -/

/-- A point of the code with canonical coordinates stands for a point of the group. -/
structure P256Point.Is (p : P256Point) (P : p256Curve.Point) : Prop where
  canonical : p.Canonical
  affine : p.affine = coords P

theorem basePoint_is : p256BasePoint.Is generator := ⟨basePoint_canonical, basePoint_affine⟩

theorem pointAdd_is {p q : P256Point} {P Q : p256Curve.Point} (hp : p.Is P) (hq : q.Is Q) :
    (p256PointAdd p256FeMul p q).Is (P + Q) := by
  obtain ⟨hc, ha⟩ := pointAdd_spec hp.canonical hq.canonical
  exact ⟨hc, by rw [ha, hp.affine, hq.affine]; exact (coords_add P Q).symm⟩

theorem pointMulBe32Projective_is {p : P256Point} {P : p256Curve.Point} (hp : p.Is P)
    (scalar : List UInt8) :
    (p256PointMulBe32Projective p256FeMul p scalar).Is (p256FeFromBe32 scalar • P) := by
  obtain ⟨hc, ha⟩ := pointMulBe32Projective_spec hp.canonical scalar
  refine ⟨hc, ?_⟩
  rw [ha, hp.affine, ← ofBits_scalarBits]
  exact mulBits_coords P (scalarBits scalar)

/-- The point that the code takes from its bytes is the one of the curve with those coordinates. -/
theorem pointOnCurve_iff (u v : ZMod p256P) :
    p256PointOnCurve p256FeMul (.ofField u v false) ↔ p256Curve.Equation u v := by
  have hb : (p256B : ZMod p256P).val = p256B :=
    ZMod.val_natCast_of_lt (show p256B < p256P by decide)
  have hadd (w : ZMod p256P) : p256FeAdd w.val p256B = (w + p256B).val := by
    rw [← feAdd_val, hb]
  rw [p256PointOnCurve, P256Point.ofField, p256Curve, equation_iff]
  simp only [Bool.false_eq_true, if_false, feMul_val, feSub_val, hadd, val_beq,
    decide_eq_true_eq]
  constructor
  · intro h
    linear_combination h
  · intro h
    linear_combination h

end MinervaOS.Crypto
