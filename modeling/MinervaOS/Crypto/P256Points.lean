import MinervaOS.Crypto.P256Field
import MinervaOS.Crypto.PointLimbs
import MinervaOS.Lib.Jacobian

/-!
# The points of P-256 over their field

A point of the code with canonical coordinates stands for a pair of residues, or for the point at
infinity, and its operations are the chords and tangents on those. The triples of the projective
multiplication stand for coordinates with `z ≠ 0`, so both multiplications come to the same point.
-/

namespace MinervaOS.Crypto

open Jacobian

instance : NeZero (2 : ZMod p256P) := by
  refine ⟨fun h => ?_⟩
  have h2 : (2 : ZMod p256P).val = 2 := ZMod.val_natCast_of_lt two_lt_p256P
  rw [h, ZMod.val_zero] at h2
  exact absurd h2 (by decide)

theorem val_three : (3 : ZMod p256P).val = 3 :=
  ZMod.val_natCast_of_lt (show 3 < p256P by decide)

namespace P256Point

structure Canonical (p : P256Point) : Prop where
  x_lt : p.x < p256P
  y_lt : p.y < p256P

/-- The coordinates of a finite point as residues. -/
def affine (p : P256Point) : Option (ZMod p256P × ZMod p256P) :=
  if p.infinity then none else some (p.x, p.y)

def ofField (x y : ZMod p256P) (infinity : Bool) : P256Point := ⟨x.val, y.val, infinity⟩

theorem canonical_ofField (x y : ZMod p256P) (infinity : Bool) :
    (ofField x y infinity).Canonical := ⟨ZMod.val_lt x, ZMod.val_lt y⟩

theorem Canonical.eq_ofField {p : P256Point} (h : p.Canonical) :
    p = ofField p.x p.y p.infinity := by
  rw [ofField, ZMod.val_natCast_of_lt h.x_lt, ZMod.val_natCast_of_lt h.y_lt]

@[simp] theorem affine_ofField (x y : ZMod p256P) (infinity : Bool) :
    (ofField x y infinity).affine = if infinity then none else some (x, y) := by
  simp [affine, ofField]

theorem canonical_infinity : p256PointInfinity.Canonical :=
  ⟨p256P_prime.pos, p256P_prime.pos⟩

@[simp] theorem affine_infinity : p256PointInfinity.affine = none := by
  simp [affine, p256PointInfinity]

/-- Points that stand for the same have the same flag, and the same coordinates where finite. -/
theorem Canonical.ext {p q : P256Point} (hp : p.Canonical) (hq : q.Canonical)
    (h : p.affine = q.affine) :
    p.infinity = q.infinity ∧ (p.infinity = false → p.x = q.x ∧ p.y = q.y) := by
  rw [affine, affine] at h
  split at h
  · rename_i hpi
    split at h
    · rename_i hqi
      exact ⟨hpi.trans hqi.symm, fun hf => absurd (hpi.symm.trans hf) (by decide)⟩
    · cases h
  · rename_i hpi
    split at h
    · cases h
    · rename_i hqi
      have hx := congrArg ZMod.val (Prod.mk.inj (Option.some.inj h)).1
      have hy := congrArg ZMod.val (Prod.mk.inj (Option.some.inj h)).2
      rw [ZMod.val_natCast_of_lt hp.x_lt, ZMod.val_natCast_of_lt hq.x_lt] at hx
      rw [ZMod.val_natCast_of_lt hp.y_lt, ZMod.val_natCast_of_lt hq.y_lt] at hy
      exact ⟨(Bool.eq_false_of_not_eq_true hpi).trans (Bool.eq_false_of_not_eq_true hqi).symm,
        fun _ => ⟨hx, hy⟩⟩

end P256Point

open P256Point

/-! ## Chords and tangents -/

theorem pointDouble_ofField (u v : ZMod p256P) :
    p256PointDouble p256FeMul (ofField u v false)
      = if v = 0 then ofField u v true
        else ofField (tangent (u, v)).1 (tangent (u, v)).2 false := by
  have hslope : (u * u + u * u + u * u - 3) * (v + v)⁻¹ = (3 * u ^ 2 - 3) / (2 * v) := by
    rw [div_eq_mul_inv, two_mul v]
    ring
  have hthree (w : ZMod p256P) : p256FeSub w.val 3 = (w - 3).val := by rw [← feSub_val, val_three]
  simp only [p256PointDouble, ofField, Bool.false_or, val_beq_zero, decide_eq_true_eq, feMul_val,
    feAdd_val, hthree, feInv_val, feSub_val, hslope]
  simp only [tangent, pow_two, two_mul]

theorem pointDouble_spec {p : P256Point} (h : p.Canonical) :
    (p256PointDouble p256FeMul p).Canonical ∧
      (p256PointDouble p256FeMul p).affine = double p.affine := by
  obtain ⟨u, v, infinity, rfl⟩ : ∃ u v i, p = ofField u v i := ⟨_, _, _, h.eq_ofField⟩
  cases infinity with
  | true => exact ⟨h, by simp [p256PointDouble, ofField, affine, double]⟩
  | false =>
    rw [pointDouble_ofField]
    by_cases hv : v = 0
    · rw [if_pos hv]
      exact ⟨canonical_ofField .., by simp [double, hv]⟩
    · rw [if_neg hv]
      exact ⟨canonical_ofField .., by simp [double, hv]⟩

theorem pointAdd_ofField (u v u' v' : ZMod p256P) :
    p256PointAdd p256FeMul (ofField u v false) (ofField u' v' false)
      = if u = u' then
          if v = v' then p256PointDouble p256FeMul (ofField u v false) else ofField u v true
        else ofField (chord (u, v) (u', v')).1 (chord (u, v) (u', v')).2 false := by
  simp only [p256PointAdd, ofField, Bool.false_eq_true, if_false, val_beq, decide_eq_true_eq,
    feMul_val, feInv_val, feSub_val, chord, ← pow_two, div_eq_mul_inv]

theorem pointAdd_spec {p q : P256Point} (hp : p.Canonical) (hq : q.Canonical) :
    (p256PointAdd p256FeMul p q).Canonical ∧
      (p256PointAdd p256FeMul p q).affine = add p.affine q.affine := by
  obtain ⟨u, v, infinity, rfl⟩ : ∃ u v i, p = ofField u v i := ⟨_, _, _, hp.eq_ofField⟩
  obtain ⟨u', v', infinity', rfl⟩ : ∃ u v i, q = ofField u v i := ⟨_, _, _, hq.eq_ofField⟩
  cases infinity with
  | true => exact ⟨hq, by simp [p256PointAdd, ofField, affine, add]⟩
  | false =>
    cases infinity' with
    | true => exact ⟨hp, by simp [p256PointAdd, ofField, affine, add]⟩
    | false =>
      obtain ⟨hd, hdouble⟩ := pointDouble_spec (canonical_ofField u v false)
      rw [pointAdd_ofField]
      simp only [affine_ofField, Bool.false_eq_true, if_false] at hdouble
      simp only [affine_ofField, Bool.false_eq_true, if_false, add]
      split
      · split
        · exact ⟨hd, hdouble⟩
        · exact ⟨canonical_ofField .., by simp⟩
      · exact ⟨canonical_ofField .., by simp⟩

theorem rounds_spec {p : P256Point} (h : p.Canonical) (bits : List Bool) {acc : P256Point}
    (hacc : acc.Canonical) :
    (bits.foldl (fun acc bit =>
        let acc := p256PointDouble p256FeMul acc
        if bit then p256PointAdd p256FeMul acc p else acc) acc).Canonical ∧
      (bits.foldl (fun acc bit =>
        let acc := p256PointDouble p256FeMul acc
        if bit then p256PointAdd p256FeMul acc p else acc) acc).affine
        = bits.foldl (fun acc bit => if bit then add (double acc) p.affine else double acc)
          acc.affine := by
  induction bits generalizing acc with
  | nil => exact ⟨hacc, rfl⟩
  | cons bit bits ih =>
    obtain ⟨hd, hdouble⟩ := pointDouble_spec hacc
    obtain ⟨ha, hadd⟩ := pointAdd_spec hd h
    rw [List.foldl_cons, List.foldl_cons, ← hdouble]
    cases bit
    · simp only [Bool.false_eq_true, if_false]
      exact ih hd
    · simp only [if_true, ← hadd]
      exact ih ha

theorem pointMulBits_spec {p : P256Point} (h : p.Canonical) (bits : List Bool) :
    (p256PointMulBits p256FeMul p bits).Canonical ∧
      (p256PointMulBits p256FeMul p bits).affine = mulBits p.affine bits := by
  have hall := rounds_spec h bits canonical_infinity
  rw [affine_infinity] at hall
  exact hall

/-! ## Triples -/

/-- The triple stands for the point at infinity or for coordinates with `z ≠ 0`. -/
def P256Jacobian.Stands (j : P256Jacobian) : Option (Coords (ZMod p256P)) → Prop
  | none => j.infinity = true
  | some c => j = ⟨c.x.val, c.y.val, c.z.val, false⟩

theorem jacobianFromPoint_stands {p : P256Point} (h : p.Canonical) :
    (p256JacobianFromPoint p).Stands (p.affine.map Coords.ofAffine) := by
  obtain ⟨u, v, infinity, rfl⟩ : ∃ u v i, p = ofField u v i := ⟨_, _, _, h.eq_ofField⟩
  cases infinity with
  | true => rfl
  | false =>
    simp [p256JacobianFromPoint, ofField, affine, P256Jacobian.Stands, Coords.ofAffine,
      ZMod.val_one]

theorem jacobianDouble_stands {j : P256Jacobian} {c : Option (Coords (ZMod p256P))}
    (h : j.Stands c) : (p256JacobianDouble p256FeMul j).Stands (Coords.doubled c) := by
  cases c with
  | none =>
    rw [p256JacobianDouble, if_pos (by rw [show j.infinity = true from h]; rfl)]
    rfl
  | some c =>
    cases h
    simp only [p256JacobianDouble, Bool.false_or, val_beq_zero, decide_eq_true_eq, Coords.doubled]
    split
    · rfl
    · simp only [P256Jacobian.Stands, Coords.double, feMul_val, feAdd_val, feSub_val, feThrice_val,
        feFour_val, feEight_val]

theorem jacobianAddMixed_stands {j : P256Jacobian} {c : Option (Coords (ZMod p256P))}
    (h : j.Stands c) {p : P256Point} (hp : p.Canonical) :
    (p256JacobianAddMixed p256FeMul j p).Stands (Coords.addedMixed c p.affine) := by
  obtain ⟨u, v, infinity, rfl⟩ : ∃ u v i, p = ofField u v i := ⟨_, _, _, hp.eq_ofField⟩
  cases c with
  | none =>
    rw [p256JacobianAddMixed, if_pos (show j.infinity = true from h)]
    exact jacobianFromPoint_stands hp
  | some c =>
    have hdouble := jacobianDouble_stands h
    cases h
    cases infinity with
    | true => simp [p256JacobianAddMixed, ofField, affine, Coords.addedMixed, P256Jacobian.Stands]
    | false =>
      have hwidth : u * (c.z * c.z) - c.x = c.width (u, v) := rfl
      have hheight : c.z * (c.z * c.z) * v - c.y = c.height (u, v) := rfl
      simp only [p256JacobianAddMixed, ofField, Bool.false_eq_true, if_false, feMul_val, feSub_val,
        hwidth, hheight, val_beq_zero, decide_eq_true_eq, affine, ZMod.natCast_zmod_val,
        Coords.addedMixed]
      by_cases hw : c.width (u, v) = 0
      · rw [if_pos hw, dif_pos hw]
        split
        · exact hdouble
        · rfl
      · rw [if_neg hw, dif_neg hw]
        simp only [P256Jacobian.Stands, Coords.addMixed, feMul_val, feAdd_val, feSub_val,
          feTwice_val, feFour_val]

theorem jacobianToPoint_spec {j : P256Jacobian} {c : Option (Coords (ZMod p256P))}
    (h : j.Stands c) :
    (p256JacobianToPoint p256FeMul j).Canonical ∧
      (p256JacobianToPoint p256FeMul j).affine = c.map Coords.affine := by
  cases c with
  | none =>
    rw [p256JacobianToPoint, if_pos (by rw [show j.infinity = true from h]; rfl)]
    exact ⟨canonical_infinity, affine_infinity⟩
  | some c =>
    cases h
    have hx : c.x * (c.z⁻¹ * c.z⁻¹) = c.x / c.z ^ 2 := by rw [div_eq_mul_inv]; ring
    have hy : c.y * (c.z⁻¹ * c.z⁻¹ * c.z⁻¹) = c.y / c.z ^ 3 := by rw [div_eq_mul_inv]; ring
    have hpoint : p256JacobianToPoint p256FeMul ⟨c.x.val, c.y.val, c.z.val, false⟩
        = ofField (c.x / c.z ^ 2) (c.y / c.z ^ 3) false := by
      simp only [p256JacobianToPoint, Bool.false_or, val_beq_zero, decide_eq_true_eq, c.z_ne,
        if_false, feInv_val, feMul_val, hx, hy, ofField]
    rw [hpoint]
    exact ⟨canonical_ofField .., by simp [Coords.affine]⟩

theorem rounds_stand {p : P256Point} (h : p.Canonical) (bits : List Bool) {j : P256Jacobian}
    {c : Option (Coords (ZMod p256P))} (hj : j.Stands c) :
    (bits.foldl (fun acc bit =>
        let acc := p256JacobianDouble p256FeMul acc
        if bit then p256JacobianAddMixed p256FeMul acc p else acc) j).Stands
      (bits.foldl (fun acc bit => if bit then Coords.addedMixed (Coords.doubled acc) p.affine
        else Coords.doubled acc) c) := by
  induction bits generalizing j c with
  | nil => exact hj
  | cons bit bits ih =>
    have hd := jacobianDouble_stands hj
    rw [List.foldl_cons, List.foldl_cons]
    cases bit
    · simp only [Bool.false_eq_true, if_false]
      exact ih hd
    · simp only [if_true]
      exact ih (jacobianAddMixed_stands hd h)

theorem pointMulBe32Projective_spec {p : P256Point} (h : p.Canonical) (scalar : List UInt8) :
    (p256PointMulBe32Projective p256FeMul p scalar).Canonical ∧
      (p256PointMulBe32Projective p256FeMul p scalar).affine
        = mulBits p.affine (scalarBits scalar) := by
  have hstart : p256JacobianInfinity.Stands none := rfl
  rw [← Coords.mulBits_affine]
  exact jacobianToPoint_spec (rounds_stand h (scalarBits scalar) hstart)

end MinervaOS.Crypto
