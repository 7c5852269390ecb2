import Mathlib.Algebra.CharP.Two
import Mathlib.Algebra.Polynomial.Div
import Mathlib.Algebra.Polynomial.FieldDivision
import Mathlib.Tactic.LinearCombination
import Mathlib.Data.Fin.VecNotation

/-!
# The Rijndael cipher over a field

The cipher with a key of four words and ten rounds, over the field in which its bytes are: an
element `ξ` of it stands for the byte 2, and `affine` is the map that the table of the bytes puts
after the inverse. A state has four rows and four columns; a word is a column.
-/

namespace MinervaOS.Rijndael

open Polynomial

abbrev Column (K : Type*) := Fin 4 → K

/-- The bytes by row and column. -/
abbrev Table (K : Type*) := Fin 4 → Fin 4 → K

section Rounds

variable {K : Type*} [Field K] (ξ : K) (affine : K → K)

def subByte (b : K) : K := affine b⁻¹

def subBytes (s : Table K) : Table K := fun r c => subByte affine (s r c)

/-- Row `r` moves by `r` columns. -/
def shiftRows (s : Table K) : Table K := fun r c => s r (c + r)

/-- A column as a polynomial below degree four. -/
noncomputable def columnPoly (a : Column K) : K[X] := ∑ i : Fin 4, C (a i) * X ^ (i : ℕ)

/-- The polynomial `3 X ^ 3 + X ^ 2 + X + 2`. -/
noncomputable def mixPoly : K[X] := C (ξ + 1) * X ^ 3 + X ^ 2 + X + C ξ

/-- The product with it modulo `X ^ 4 + 1`. -/
noncomputable def mixColumn (a : Column K) : Column K := fun r =>
  ((mixPoly ξ * columnPoly a) %ₘ (X ^ 4 + 1)).coeff r

noncomputable def mixColumns (s : Table K) : Table K := fun r c => mixColumn ξ (fun i => s i c) r

def rotWord (w : Column K) : Column K := fun r => w (r + 1)

def subWord (w : Column K) : Column K := fun r => subByte affine (w r)

/-- The constant of the `i`th key, from 1. -/
def rcon (i : ℕ) : Column K := fun r => if r = 0 then ξ ^ (i - 1) else 0

/-- Word `i` of the key schedule. -/
def keyWord (key : Table K) (i : ℕ) : Column K :=
  if h : i < 4 then fun r => key r ⟨i, h⟩
  else
    let temp := keyWord key (i - 1)
    let temp := if i % 4 = 0 then subWord affine (rotWord temp) + rcon ξ (i / 4) else temp
    keyWord key (i - 4) + temp

def roundKey (key : Table K) (round : ℕ) : Table K := fun r c =>
  keyWord ξ affine key (4 * round + c) r

noncomputable def middle (key : Table K) (round : ℕ) (s : Table K) : Table K :=
  mixColumns ξ (shiftRows (subBytes affine s)) + roundKey ξ affine key round

noncomputable def cipher (key input : Table K) : Table K :=
  let s := input + roundKey ξ affine key 0
  let s := (List.range 9).foldl (fun s round => middle ξ affine key (round + 1) s) s
  shiftRows (subBytes affine s) + roundKey ξ affine key 10

/-! ## The words of the key -/

theorem keyWord_of_lt (key : Table K) {i : ℕ} (h : i < 4) (r : Fin 4) :
    keyWord ξ affine key i r = key r ⟨i, h⟩ := by
  rw [keyWord, dif_pos h]

theorem keyWord_add_four (key : Table K) (i : ℕ) :
    keyWord ξ affine key (i + 4) = keyWord ξ affine key i +
      if i % 4 = 0 then subWord affine (rotWord (keyWord ξ affine key (i + 3))) + rcon ξ (i / 4 + 1)
      else keyWord ξ affine key (i + 3) := by
  rw [keyWord, dif_neg (by omega)]
  dsimp only
  rw [Nat.add_sub_cancel, show i + 4 - 1 = i + 3 by omega, Nat.add_mod_right,
    show (i + 4) / 4 = i / 4 + 1 by omega]

/-! ## Columns -/

section Columns

variable [CharP K 2]

/-- Where two is zero, the product is the one with the matrix of 1, 2 and 3. -/
theorem mixColumn_eq (a : Column K) : mixColumn ξ a =
    ![ξ * a 0 + (ξ + 1) * a 1 + a 2 + a 3, a 0 + ξ * a 1 + (ξ + 1) * a 2 + a 3,
      a 0 + a 1 + ξ * a 2 + (ξ + 1) * a 3, (ξ + 1) * a 0 + a 1 + a 2 + ξ * a 3] := by
  set r0 := ξ * a 0 + (ξ + 1) * a 1 + a 2 + a 3 with hr0
  set r1 := a 0 + ξ * a 1 + (ξ + 1) * a 2 + a 3 with hr1
  set r2 := a 0 + a 1 + ξ * a 2 + (ξ + 1) * a 3 with hr2
  set r3 := (ξ + 1) * a 0 + a 1 + a 2 + ξ * a 3 with hr3
  have htwo : (2 : K[X]) = 0 := CharTwo.two_eq_zero
  have hmonic : (X ^ 4 + 1 : K[X]).Monic := monic_X_pow_add_C 1 (by decide)
  have hdegree : (C r3 * X ^ 3 + C r2 * X ^ 2 + C r1 * X + C r0).degree <
      (X ^ 4 + 1 : K[X]).degree := by
    have hfour : (X ^ 4 + 1 : K[X]).degree = 4 := degree_X_pow_add_C (by decide) 1
    rw [hfour]
    exact degree_cubic_lt
  have hproduct : C r3 * X ^ 3 + C r2 * X ^ 2 + C r1 * X + C r0 + (X ^ 4 + 1) *
      (C ((ξ + 1) * a 3) * X ^ 2 + C ((ξ + 1) * a 2 + a 3) * X + C ((ξ + 1) * a 1 + a 2 + a 3)) =
      mixPoly ξ * columnPoly a := by
    rw [mixPoly, columnPoly, Fin.sum_univ_four, hr0, hr1, hr2, hr3]
    simp only [map_add, map_mul, map_one, Fin.val_zero, Fin.val_one, Fin.val_two, pow_zero, mul_one,
      pow_one, show ((3 : Fin 4) : ℕ) = 3 by rfl]
    linear_combination ((C ξ + 1) * C (a 3) * X ^ 2 + ((C ξ + 1) * C (a 2) + C (a 3)) * X +
      ((C ξ + 1) * C (a 1) + C (a 2) + C (a 3))) * htwo
  have hmod := (div_modByMonic_unique _ _ hmonic ⟨hproduct, hdegree⟩).2
  funext r
  rw [mixColumn, hmod]
  fin_cases r
  · simp
  · simp
  · simp
  · simp

end Columns

end Rounds

end MinervaOS.Rijndael
