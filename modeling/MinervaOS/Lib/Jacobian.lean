import Mathlib.Algebra.Field.Basic
import Mathlib.AlgebraicGeometry.EllipticCurve.Affine.Basic
import Mathlib.Tactic.FieldSimp
import Mathlib.Tactic.Ring
import Mathlib.Tactic.LinearCombination

/-!
# Chords and tangents in Jacobian coordinates

The operations on the points of a curve `y² = x³ - 3x + b` over a field, as operations on any pairs
of coordinates: nothing here asks that a point is on a curve. `(x, y, z)` with `z ≠ 0` stands for
`(x / z², y / z³)`; doubling and adding a pair of coordinates are computed on the triples without a
division, and `affine_double` and `affine_addMixed` say that the triples stand for the right points.
So a multiplication by a scalar comes out the same on triples and on pairs (`mulBits_affine`).
-/

namespace MinervaOS.Jacobian

variable {K : Type*} [Field K]

/-- The curve `y² = x³ - 3x + b`. -/
def curve (b : K) : WeierstrassCurve.Affine K where
  a₁ := 0
  a₂ := 0
  a₃ := 0
  a₄ := -3
  a₆ := b

/-- The tangent at `(x, y)` meets the curve again at the reflected point. -/
def tangent (p : K × K) : K × K :=
  let slope := (3 * p.1 ^ 2 - 3) / (2 * p.2)
  let x := slope ^ 2 - 2 * p.1
  (x, slope * (p.1 - x) - p.2)

/-- The line through two points meets the curve again at the reflected point. -/
def chord (p q : K × K) : K × K :=
  let slope := (q.2 - p.2) / (q.1 - p.1)
  let x := slope ^ 2 - p.1 - q.1
  (x, slope * (p.1 - x) - p.2)

/-- Coordinates `(x, y, z)` for the point `(x / z², y / z³)`. -/
@[ext] structure Coords (K : Type*) [Field K] where
  x : K
  y : K
  z : K
  z_ne : z ≠ 0

namespace Coords

def affine (c : Coords K) : K × K := (c.x / c.z ^ 2, c.y / c.z ^ 3)

def ofAffine (p : K × K) : Coords K := ⟨p.1, p.2, 1, one_ne_zero⟩

@[simp] theorem affine_ofAffine (p : K × K) : (ofAffine p).affine = p := by
  simp [affine, ofAffine]

theorem affine_snd_eq_zero (c : Coords K) : c.affine.2 = 0 ↔ c.y = 0 := by
  simp [affine, c.z_ne]

section

variable [NeZero (2 : K)]

def double (c : Coords K) (hy : c.y ≠ 0) : Coords K :=
  let delta := c.z * c.z
  let gamma := c.y * c.y
  let beta := c.x * gamma
  let alpha := 3 * ((c.x - delta) * (c.x + delta))
  let x := alpha * alpha - 8 * beta
  { x
    y := alpha * (4 * beta - x) - 8 * (gamma * gamma)
    z := (c.y + c.z) * (c.y + c.z) - gamma - delta
    z_ne := by
      have hz : (c.y + c.z) * (c.y + c.z) - gamma - delta = 2 * c.y * c.z := by ring
      rw [hz]
      exact mul_ne_zero (mul_ne_zero two_ne_zero hy) c.z_ne }

theorem affine_double (c : Coords K) (hy : c.y ≠ 0) : (c.double hy).affine = tangent c.affine := by
  obtain ⟨x, y, z, hz⟩ := c
  have h2 : (2 : K) ≠ 0 := two_ne_zero
  have hz3 : (y + z) * (y + z) - y * y - z * z = 2 * y * z := by ring
  simp only [double, affine, tangent, hz3, Prod.mk.injEq]
  simp only at hy
  constructor
  · field_simp
    ring
  · field_simp
    ring

end

/-- Both triples stand for one `x` exactly where this is zero. -/
def width (c : Coords K) (p : K × K) : K := p.1 * (c.z * c.z) - c.x

def height (c : Coords K) (p : K × K) : K := c.z * (c.z * c.z) * p.2 - c.y

theorem width_eq_zero (c : Coords K) (p : K × K) : c.width p = 0 ↔ c.affine.1 = p.1 := by
  have hz : c.z ^ 2 ≠ 0 := pow_ne_zero 2 c.z_ne
  rw [width, affine, div_eq_iff hz, sub_eq_zero, pow_two]
  exact eq_comm

theorem height_eq_zero (c : Coords K) (p : K × K) : c.height p = 0 ↔ c.affine.2 = p.2 := by
  have hz : c.z ^ 3 ≠ 0 := pow_ne_zero 3 c.z_ne
  have hcube : c.z * (c.z * c.z) * p.2 = p.2 * c.z ^ 3 := by ring
  rw [height, affine, div_eq_iff hz, sub_eq_zero, hcube]
  exact eq_comm

variable [NeZero (2 : K)]

def addMixed (c : Coords K) (p : K × K) (hw : c.width p ≠ 0) : Coords K :=
  let h := c.width p
  let r := 2 * c.height p
  let hh := h * h
  let i := 4 * hh
  let j := h * i
  let v := c.x * i
  let x := r * r - j - 2 * v
  { x
    y := r * (v - x) - 2 * (c.y * j)
    z := (c.z + h) * (c.z + h) - c.z * c.z - hh
    z_ne := by
      have hz : (c.z + h) * (c.z + h) - c.z * c.z - hh = 2 * c.z * h := by ring
      rw [hz]
      exact mul_ne_zero (mul_ne_zero two_ne_zero c.z_ne) hw }

theorem affine_addMixed (c : Coords K) (p : K × K) (hw : c.width p ≠ 0) :
    (c.addMixed p hw).affine = chord c.affine p := by
  have hd : p.1 - c.affine.1 ≠ 0 := by
    intro h0
    exact hw ((c.width_eq_zero p).2 (sub_eq_zero.1 h0).symm)
  obtain ⟨x, y, z, hz⟩ := c
  obtain ⟨x', y'⟩ := p
  -- in terms of the coordinates that the triple stands for
  obtain ⟨u, rfl⟩ : ∃ u, x = u * z ^ 2 := ⟨x / z ^ 2, by field_simp⟩
  obtain ⟨v, rfl⟩ : ∃ v, y = v * z ^ 3 := ⟨y / z ^ 3, by field_simp⟩
  have h2 : (2 : K) ≠ 0 := two_ne_zero
  have hu : u * z ^ 2 / z ^ 2 = u := mul_div_cancel_right₀ _ (pow_ne_zero 2 hz)
  have hv : v * z ^ 3 / z ^ 3 = v := mul_div_cancel_right₀ _ (pow_ne_zero 3 hz)
  have hwidth : x' * (z * z) - u * z ^ 2 = z ^ 2 * (x' - u) := by ring
  have hheight : z * (z * z) * y' - v * z ^ 3 = z ^ 3 * (y' - v) := by ring
  have hz3 (h : K) : (z + h) * (z + h) - z * z - h * h = 2 * z * h := by ring
  simp only [affine, hu] at hd
  simp only [addMixed, affine, chord, width, height, hwidth, hheight, hz3, hu, hv, Prod.mk.injEq]
  generalize hdx : x' - u = d at *
  have hx' : x' = u + d := by rw [← hdx]; ring
  rw [hx']
  constructor
  · field_simp
    ring
  · field_simp
    ring

end Coords

/-! ## The operations with the point at infinity -/

section Points

variable [DecidableEq K]

def double : Option (K × K) → Option (K × K)
  | none => none
  | some p => if p.2 = 0 then none else some (tangent p)

def add : Option (K × K) → Option (K × K) → Option (K × K)
  | none, q => q
  | p, none => p
  | some p, some q =>
    if p.1 = q.1 then if p.2 = q.2 then double (some p) else none else some (chord p q)

/-- Double and add over the bits of a scalar, from the top. -/
def mulBits (p : Option (K × K)) (bits : List Bool) : Option (K × K) :=
  bits.foldl (fun acc bit => if bit then add (double acc) p else double acc) none

variable [NeZero (2 : K)]

namespace Coords

def doubled : Option (Coords K) → Option (Coords K)
  | none => none
  | some c => if hy : c.y = 0 then none else some (c.double hy)

def addedMixed : Option (Coords K) → Option (K × K) → Option (Coords K)
  | none, q => q.map ofAffine
  | c, none => c
  | some c, some q =>
    if hw : c.width q = 0 then if c.height q = 0 then doubled (some c) else none
    else some (c.addMixed q hw)

def mulBits (p : Option (K × K)) (bits : List Bool) : Option (Coords K) :=
  bits.foldl (fun acc bit => if bit then addedMixed (doubled acc) p else doubled acc) none

theorem doubled_affine (c : Option (Coords K)) :
    (doubled c).map affine = Jacobian.double (c.map affine) := by
  cases c with
  | none => rfl
  | some c =>
    simp only [doubled, Jacobian.double, Option.map_some, affine_snd_eq_zero]
    split
    · rfl
    · rw [Option.map_some, affine_double]

theorem addedMixed_affine (c : Option (Coords K)) (q : Option (K × K)) :
    (addedMixed c q).map affine = add (c.map affine) q := by
  cases c with
  | none =>
    cases q with
    | none => rfl
    | some q => simp [addedMixed, add]
  | some c =>
    cases q with
    | none => rfl
    | some q =>
      have hdouble := doubled_affine (some c)
      rw [Option.map_some] at hdouble
      simp only [addedMixed, add, Option.map_some, ← width_eq_zero, ← height_eq_zero]
      split
      · split
        · exact hdouble
        · rfl
      · rw [Option.map_some, affine_addMixed]

theorem mulBits_affine (p : Option (K × K)) (bits : List Bool) :
    (mulBits p bits).map affine = Jacobian.mulBits p bits := by
  have hstep (c : Option (Coords K)) (bit : Bool) :
      (if bit then addedMixed (doubled c) p else doubled c).map affine
        = if bit then add (Jacobian.double (c.map affine)) p
          else Jacobian.double (c.map affine) := by
    cases bit
    · exact doubled_affine c
    · exact (addedMixed_affine _ p).trans (by rw [doubled_affine]; rfl)
  have hrun (c : Option (Coords K)) :
      (bits.foldl (fun acc bit => if bit then addedMixed (doubled acc) p else doubled acc)
        c).map affine
        = bits.foldl (fun acc bit => if bit then add (Jacobian.double acc) p
          else Jacobian.double acc) (c.map affine) := by
    induction bits generalizing c with
    | nil => rfl
    | cons bit bits ih => rw [List.foldl_cons, List.foldl_cons, ih, hstep]
  exact hrun none

end Coords

end Points

end MinervaOS.Jacobian
