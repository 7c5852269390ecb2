import MinervaOS.Lib.Jacobian
import Mathlib.AlgebraicGeometry.EllipticCurve.Affine.Point

/-!
# Chords and tangents are the group law

On the points of the curve `y² = x³ - 3x + b` the operations on coordinates are those of the group
of the curve, so double and add over the bits of a scalar is its multiple of the point.
-/

namespace MinervaOS.Jacobian

variable {K : Type*} [Field K] {b : K}

theorem equation_iff {x y : K} : (curve b).Equation x y ↔ y ^ 2 = x ^ 3 - 3 * x + b := by
  rw [WeierstrassCurve.Affine.equation_iff]
  simp only [curve, zero_mul, add_zero, neg_mul, ← sub_eq_add_neg]

def coords : (curve b).Point → Option (K × K)
  | .zero => none
  | .some x y _ => some (x, y)

theorem coords_eq_none {P : (curve b).Point} : coords P = none ↔ P = 0 := by
  cases P with
  | zero => exact ⟨fun _ => rfl, fun _ => rfl⟩
  | some x y h => simp [coords, WeierstrassCurve.Affine.Point.some_ne_zero]

@[simp] theorem negY_curve (x y : K) : (curve b).negY x y = -y := by
  simp [WeierstrassCurve.Affine.negY, curve]

variable [DecidableEq K] [NeZero (2 : K)]

theorem tangent_eq {x y : K} (hy : y ≠ 0) :
    tangent (x, y) = ((curve b).addX x x ((curve b).slope x x y y),
      (curve b).addY x x y ((curve b).slope x x y y)) := by
  have hne : y ≠ (curve b).negY x y := by
    rw [negY_curve, ne_eq, eq_neg_iff_add_eq_zero, ← two_mul]
    exact mul_ne_zero two_ne_zero hy
  have hslope : (curve b).slope x x y y = (3 * x ^ 2 - 3) / (2 * y) := by
    rw [WeierstrassCurve.Affine.slope_of_Y_ne rfl hne, negY_curve]
    simp only [curve]
    congr 1 <;> ring
  rw [WeierstrassCurve.Affine.addY, negY_curve, WeierstrassCurve.Affine.negAddY,
    WeierstrassCurve.Affine.addX, hslope, tangent, Prod.mk.injEq]
  simp only [curve]
  constructor <;> ring

theorem coords_add_self (P : (curve b).Point) : coords (P + P) = double (coords P) := by
  cases P with
  | zero => rfl
  | some x y h =>
    by_cases hy : y = 0
    · rw [WeierstrassCurve.Affine.Point.add_self_of_Y_eq (by rw [negY_curve, hy, neg_zero])]
      simp only [coords, double, hy, if_true]
    · have hne : y ≠ (curve b).negY x y := by
        rw [negY_curve, ne_eq, eq_neg_iff_add_eq_zero, ← two_mul]
        exact mul_ne_zero two_ne_zero hy
      rw [WeierstrassCurve.Affine.Point.add_self_of_Y_ne hne]
      simp only [coords, double, if_neg hy, tangent_eq (b := b) hy]

omit [NeZero (2 : K)] in
theorem chord_eq {x y x' y' : K} (hx : x ≠ x') :
    chord (x, y) (x', y') = ((curve b).addX x x' ((curve b).slope x x' y y'),
      (curve b).addY x x' y ((curve b).slope x x' y y')) := by
  have hslope : (curve b).slope x x' y y' = (y' - y) / (x' - x) := by
    rw [WeierstrassCurve.Affine.slope_of_X_ne hx, ← neg_sub y' y, ← neg_sub x' x, neg_div_neg_eq]
  rw [WeierstrassCurve.Affine.addY, negY_curve, WeierstrassCurve.Affine.negAddY,
    WeierstrassCurve.Affine.addX, hslope, chord, Prod.mk.injEq]
  simp only [curve]
  constructor <;> ring

theorem coords_add (P Q : (curve b).Point) : coords (P + Q) = add (coords P) (coords Q) := by
  cases P with
  | zero => exact congrArg coords (zero_add Q)
  | some x y h =>
    cases Q with
    | zero => rfl
    | some x' y' h' =>
      by_cases hx : x = x'
      · subst hx
        by_cases hy : y = y'
        · subst hy
          rw [coords_add_self]
          simp [coords, add]
        · -- two points of one `x` are opposite
          have hneg : y = (curve b).negY x y' :=
            (WeierstrassCurve.Affine.Y_eq_of_X_eq h.1 h'.1 rfl).resolve_left hy
          rw [WeierstrassCurve.Affine.Point.add_of_Y_eq rfl hneg]
          simp only [coords, add, if_true, if_neg hy]
      · rw [WeierstrassCurve.Affine.Point.add_of_X_ne hx]
        simp only [coords, add, if_neg hx, chord_eq (b := b) hx]

/-- The number whose bits these are, from the top. -/
def ofBits (bits : List Bool) : ℕ := bits.foldl (fun n bit => 2 * n + bit.toNat) 0

theorem mulBits_coords (P : (curve b).Point) (bits : List Bool) :
    mulBits (coords P) bits = coords (ofBits bits • P) := by
  have hrun (n : ℕ) :
      bits.foldl (fun acc bit => if bit then add (double acc) (coords P) else double acc)
        (coords (n • P))
        = coords (bits.foldl (fun n bit => 2 * n + bit.toNat) n • P) := by
    induction bits generalizing n with
    | nil => rfl
    | cons bit bits ih =>
      have hdouble : double (coords (n • P)) = coords ((2 * n) • P) := by
        rw [← coords_add_self, ← two_nsmul, mul_comm, mul_nsmul]
      rw [List.foldl_cons, List.foldl_cons, ← ih, hdouble]
      cases bit
      · rfl
      · rw [if_pos rfl, ← coords_add, Bool.toNat_true, succ_nsmul]
  have hzero := hrun 0
  rw [zero_nsmul] at hzero
  exact hzero

end MinervaOS.Jacobian
