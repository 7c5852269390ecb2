import MinervaOS.Crypto.P256Curve

/-!
# Verifying an ECDSA signature

`netTlsVerifyEcdsaP256` works on limbs; `EcdsaValid` is the textbook condition, in the group of the
curve and in the field of the scalars. They agree on all inputs (`verifyEcdsa_iff`): on signatures
with a zero scalar, with the two multiples equal or opposite, and with an `x` from the order on.
-/

namespace MinervaOS.Tls

open Crypto

/-- The result, and the word that is left in `v32`. -/
def netTlsVerifyEcdsaP256 (pubX pubY sigR sigS hash : List UInt8) : Bool × UInt32 :=
  if !Limbwise.p256ScalarValidBe32 sigR then (false, 0)
  else if !Limbwise.p256ScalarValidBe32 sigS then (false, 0)
  else if !(Limbwise.p256PointFromBe32 pubX pubY).2 then (false, 0)
  else
    let q := (Limbwise.p256PointFromBe32 pubX pubY).1
    let r := Limbwise.p256ScalarFromBe32 sigR
    let s := Limbwise.p256ScalarFromBe32 sigS
    let z := Limbwise.p256ScalarFromBe32 hash
    let w := Limbwise.p256ScalarInv s
    let u1 := Limbwise.p256ScalarMul z w
    let u2 := Limbwise.p256ScalarMul r w
    let u1Be := Limbwise.p256FeToBe32 u1
    let u2Be := Limbwise.p256FeToBe32 u2
    let g := Limbwise.p256BasePoint
    let u1g := Limbwise.p256PointMulBe32Projective g u1Be
    let u2q := Limbwise.p256PointMulBe32Projective q u2Be
    let sum := Limbwise.p256PointAdd u1g u2q
    if sum.infinity then (false, 0)
    else
      let v := Limbwise.p256ScalarFromFe sum.x
      (Limbwise.p256FeEqual v r, Limbwise.p256FePrefix32 v)

/-- The public key is a point of the curve, the signature is in range, and the point
`u₁ G + u₂ Q` is finite with the `x` that `r` is the remainder of. -/
structure EcdsaValid (pubX pubY r s hash : ℕ) : Prop where
  r_range : 0 < r ∧ r < p256N
  s_range : 0 < s ∧ s < p256N
  x_lt : pubX < p256P
  y_lt : pubY < p256P
  sum : ∃ onCurve : p256Curve.Equation (pubX : ZMod p256P) (pubY : ZMod p256P),
    let w : ZMod p256N := (s : ZMod p256N)⁻¹
    let u₁ := (hash : ZMod p256N) * w
    let u₂ := (r : ZMod p256N) * w
    ∃ x y h, u₁.val • generator + u₂.val • WeierstrassCurve.Affine.Point.mk onCurve
      = WeierstrassCurve.Affine.Point.some x y h ∧ x.val % p256N = r

/-! ## The key -/

theorem pointFromBe32_cases (x y : List UInt8) :
    (Limbwise.p256PointFromBe32 x y).2 = false ∧
        ¬(p256FeFromBe32 x < p256P ∧ p256FeFromBe32 y < p256P ∧
          p256Curve.Equation (p256FeFromBe32 x : ZMod p256P) (p256FeFromBe32 y : ZMod p256P)) ∨
      (Limbwise.p256PointFromBe32 x y).2 = true ∧
        (Limbwise.p256PointFromBe32 x y).1.numbers = ⟨p256FeFromBe32 x, p256FeFromBe32 y, false⟩ ∧
        p256FeFromBe32 x < p256P ∧ p256FeFromBe32 y < p256P ∧
        p256Curve.Equation (p256FeFromBe32 x : ZMod p256P) (p256FeFromBe32 y : ZMod p256P) := by
  simp only [Limbwise.p256PointFromBe32, Limbwise.feValidBe32_iff]
  by_cases hx : p256FeFromBe32 x < p256P
  · by_cases hy : p256FeFromBe32 y < p256P
    · have hcurve := pointOnCurve_iff (p256FeFromBe32 x) (p256FeFromBe32 y)
      rw [P256Point.ofField, ZMod.val_natCast_of_lt hx, ZMod.val_natCast_of_lt hy] at hcurve
      rw [← hcurve]
      cases hon : p256PointOnCurve p256FeMul ⟨p256FeFromBe32 x, p256FeFromBe32 y, false⟩ <;>
        simp [hx, hy, hon, Limbwise.pointOnCurve_numbers, Limbwise.P256Point.numbers]
    · simp [hy]
  · simp [hx]

/-! ## The sum -/

theorem pointMul_is {p : Limbwise.P256Point} {P : p256Curve.Point} (hp : p.numbers.Is P)
    {scalar : P256Fe} {u : ZMod p256N} (hu : scalar.value = u.val) :
    (Limbwise.p256PointMulBe32Projective p (Limbwise.p256FeToBe32 scalar)).numbers.Is
      (u.val • P) := by
  have hval : p256FeFromBe32 (Limbwise.p256FeToBe32 scalar) = u.val := by
    rw [Limbwise.value_feToBe32, feFromBe32_toBe32 scalar.value_lt, hu]
  rw [Limbwise.numbers_pointMulBe32Projective, ← hval]
  exact pointMulBe32Projective_is hp _

theorem infinity_iff {p : P256Point} {P : p256Curve.Point} (hp : p.Is P) :
    p.infinity = true ↔ P = 0 := by
  have hnone : Jacobian.coords P = none ↔ P = 0 := Jacobian.coords_eq_none
  rw [← hnone, ← hp.affine, P256Point.affine]
  split <;> simp_all

theorem x_of_some {p : P256Point} {x y : ZMod p256P} {h : p256Curve.Nonsingular x y}
    (hp : p.Is (.some x y h)) : p.x = x.val := by
  have ha := hp.affine
  rw [P256Point.affine] at ha
  split at ha
  · cases ha
  · rw [← (Prod.mk.inj (Option.some.inj ha)).1, ZMod.val_natCast_of_lt hp.canonical.x_lt]

/-- The point that the code comes to is finite and has the `x` of the signature. -/
theorem sum_iff {q : Limbwise.P256Point} {Q : p256Curve.Point} (hq : q.numbers.Is Q)
    {u1 u2 r : P256Fe} {v1 v2 : ZMod p256N} (h1 : u1.value = v1.val) (h2 : u2.value = v2.val) :
    (let u1g :=
       Limbwise.p256PointMulBe32Projective Limbwise.p256BasePoint (Limbwise.p256FeToBe32 u1)
     let u2q := Limbwise.p256PointMulBe32Projective q (Limbwise.p256FeToBe32 u2)
     let sum := Limbwise.p256PointAdd u1g u2q
     sum.infinity = false ∧ Limbwise.p256FeEqual (Limbwise.p256ScalarFromFe sum.x) r = true) ↔
    ∃ x y h, v1.val • generator + v2.val • Q = WeierstrassCurve.Affine.Point.some x y h ∧
      x.val % p256N = r.value := by
  have hbase : Limbwise.p256BasePoint.numbers.Is generator := by
    rw [Limbwise.numbers_basePoint]
    exact basePoint_is
  have hsum := pointAdd_is (pointMul_is hbase h1) (pointMul_is hq h2)
  rw [← Limbwise.numbers_pointAdd] at hsum
  dsimp only
  generalize Limbwise.p256PointAdd _ _ = sum at hsum ⊢
  rw [Limbwise.feEqual_iff, beq_iff_eq, Limbwise.value_scalarFromFe]
  have hinf := infinity_iff hsum
  generalize v1.val • generator + v2.val • Q = S at hsum hinf ⊢
  cases S with
  | zero =>
    have htrue : sum.infinity = true := hinf.2 rfl
    constructor
    · rintro ⟨hf, -⟩
      rw [htrue] at hf
      cases hf
    · rintro ⟨x, y, h, he, -⟩
      cases he
  | some x y h =>
    have hfalse : sum.infinity = false := by
      rw [← Bool.not_eq_true]
      exact fun ht => WeierstrassCurve.Affine.Point.some_ne_zero h (hinf.1 ht)
    have hx : sum.x.value = x.val := x_of_some hsum
    constructor
    · rintro ⟨-, hr⟩
      exact ⟨x, y, h, rfl, by rw [← hr, hx]; rfl⟩
    · rintro ⟨x', y', h', he, hr⟩
      cases he
      exact ⟨hfalse, by rw [← hr, hx]; rfl⟩

theorem scalarValid_iff (src : List UInt8) :
    Limbwise.p256ScalarValidBe32 src = true ↔
      0 < p256FeFromBe32 src ∧ p256FeFromBe32 src < p256N := by
  rw [Limbwise.scalarValidBe32_iff, p256ScalarValidBe32, Bool.and_eq_true, bne_iff_ne,
    decide_eq_true_eq, Nat.pos_iff_ne_zero]

/-- A scalar in range is its own remainder. -/
theorem value_scalar (src : List UInt8) :
    (Limbwise.p256ScalarFromBe32 src).value = (p256FeFromBe32 src : ZMod p256N).val := by
  rw [Limbwise.value_scalarFromBe32, p256ScalarFromBe32, scalarFromFe_val]

theorem verifyEcdsa_iff (pubX pubY sigR sigS hash : List UInt8) :
    (netTlsVerifyEcdsaP256 pubX pubY sigR sigS hash).1 = true ↔
      EcdsaValid (p256FeFromBe32 pubX) (p256FeFromBe32 pubY) (p256FeFromBe32 sigR)
        (p256FeFromBe32 sigS) (p256FeFromBe32 hash) := by
  have hr := scalarValid_iff sigR
  have hs := scalarValid_iff sigS
  rw [netTlsVerifyEcdsaP256]
  by_cases hvr : Limbwise.p256ScalarValidBe32 sigR = true
  swap
  · rw [if_pos (by simpa using hvr)]
    exact ⟨fun h => absurd h (by decide), fun h => absurd (hr.2 h.r_range) hvr⟩
  by_cases hvs : Limbwise.p256ScalarValidBe32 sigS = true
  swap
  · rw [if_neg (by simpa using hvr), if_pos (by simpa using hvs)]
    exact ⟨fun h => absurd h (by decide), fun h => absurd (hs.2 h.s_range) hvs⟩
  rw [if_neg (by simpa using hvr), if_neg (by simpa using hvs)]
  rcases pointFromBe32_cases pubX pubY with ⟨hq, hno⟩ | ⟨hq, hpoint, hx, hy, hon⟩
  · rw [if_pos (by rw [hq]; rfl)]
    exact ⟨fun h => absurd h (by decide),
      fun h => absurd ⟨h.x_lt, h.y_lt, h.sum.choose⟩ hno⟩
  · rw [if_neg (by rw [hq]; decide)]
    have hkey : (Limbwise.p256PointFromBe32 pubX pubY).1.numbers.Is (.mk hon) := by
      rw [hpoint]
      exact ⟨⟨hx, hy⟩, rfl⟩
    have hw : (Limbwise.p256ScalarInv (Limbwise.p256ScalarFromBe32 sigS)).value
        = (p256FeFromBe32 sigS : ZMod p256N)⁻¹.val := by
      rw [Limbwise.value_scalarInv, value_scalar, scalarInv_val]
    have hmul (src : List UInt8) : (Limbwise.p256ScalarMul (Limbwise.p256ScalarFromBe32 src)
        (Limbwise.p256ScalarInv (Limbwise.p256ScalarFromBe32 sigS))).value
        = ((p256FeFromBe32 src : ZMod p256N) * (p256FeFromBe32 sigS : ZMod p256N)⁻¹).val := by
      rw [Limbwise.value_scalarMul, hw, value_scalar, scalarMul_val]
    have hrval : (Limbwise.p256ScalarFromBe32 sigR).value = p256FeFromBe32 sigR := by
      rw [value_scalar, ZMod.val_natCast_of_lt (hr.1 hvr).2]
    have hsum := sum_iff (r := Limbwise.p256ScalarFromBe32 sigR) hkey (hmul hash) (hmul sigR)
    have hresult (infinity equal : Bool) (v : UInt32) :
        (if infinity then (false, (0 : UInt32)) else (equal, v)).1 = true ↔
          infinity = false ∧ equal = true := by
      cases infinity <;> simp
    rw [hrval] at hsum
    dsimp only at hsum
    simp only [hresult, hsum]
    refine ⟨fun h => ?_, fun h => ?_⟩
    · exact ⟨hr.1 hvr, hs.1 hvs, hx, hy, hon, h⟩
    · exact h.sum.choose_spec

end MinervaOS.Tls
