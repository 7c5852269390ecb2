import Mathlib.Data.ZMod.Basic
import Mathlib.Algebra.Field.ZMod
import Mathlib.Data.Nat.Init
import Mathlib.RingTheory.AdjoinRoot

/-!
# Words as polynomials with two coefficients

Bit `i` of a word is the coefficient of `X ^ i`. The words of `n` bits are the residues of `X ^ n +
low` for the word `low` of the modulus' other coefficients: exclusive or adds them, a shift with the
overflowing bit folded back multiplies by `X`, and `mul` multiplies. Where each word but zero has an
inverse, the modulus is irreducible.
-/

namespace MinervaOS.BinaryField

open Polynomial

variable {n : ℕ}

/-- A bit as a coefficient. -/
def coefficient (bit : Bool) : ZMod 2 := if bit then 1 else 0

theorem coefficient_xor (a b : Bool) : coefficient (a ^^ b) = coefficient a + coefficient b := by
  cases a <;> cases b <;> decide

theorem coefficient_injective : Function.Injective coefficient := by
  intro a b h
  cases a <;> cases b
  · rfl
  · exact absurd h (by decide)
  · exact absurd h (by decide)
  · rfl

/-! ## The polynomial of a word -/

noncomputable def wordPoly (a : BitVec n) : (ZMod 2)[X] :=
  ∑ i ∈ Finset.range n, monomial i (coefficient (a.getLsbD i))

theorem coeff_wordPoly (a : BitVec n) (i : ℕ) :
    (wordPoly a).coeff i = coefficient (a.getLsbD i) := by
  simp only [wordPoly, finsetSum_coeff, coeff_monomial, Finset.sum_ite_eq', Finset.mem_range]
  by_cases hi : i < n
  · rw [if_pos hi]
  · rw [if_neg hi, BitVec.getLsbD_of_ge a i (by omega)]
    rfl

theorem wordPoly_xor (a b : BitVec n) : wordPoly (a ^^^ b) = wordPoly a + wordPoly b := by
  ext i
  simp only [coeff_wordPoly, coeff_add, BitVec.getLsbD_xor, coefficient_xor]

theorem wordPoly_zero : wordPoly 0#n = 0 := by
  ext i
  simp [coeff_wordPoly, coefficient]

theorem degree_wordPoly_lt (a : BitVec n) : (wordPoly a).degree < n := by
  rw [degree_lt_iff_coeff_zero]
  intro i hi
  rw [coeff_wordPoly, BitVec.getLsbD_of_ge a i hi]
  rfl

theorem wordPoly_injective : Function.Injective (wordPoly (n := n)) := by
  intro a b h
  apply BitVec.eq_of_getLsbD_eq
  intro i _
  apply coefficient_injective
  rw [← coeff_wordPoly, h, coeff_wordPoly]

/-- The polynomials below degree `n` are those of the words. -/
theorem exists_wordPoly {p : (ZMod 2)[X]} (h : p.degree < n) : ∃ a : BitVec n, wordPoly a = p := by
  have hbit (c : ZMod 2) : coefficient (decide (c = 1)) = c := by
    revert c
    decide
  refine ⟨BitVec.ofNat n (Nat.ofBits fun i : Fin n => decide (p.coeff i = 1)), ?_⟩
  ext i
  rw [coeff_wordPoly]
  by_cases hi : i < n
  · rw [BitVec.getLsbD_ofNat, Nat.testBit_ofBits_lt _ _ hi, decide_eq_true hi, Bool.true_and, hbit]
  · rw [BitVec.getLsbD_of_ge _ _ (by omega), (degree_lt_iff_coeff_zero _ _).1 h i (by omega)]
    rfl

/-! ## The residues -/

noncomputable def modulus (low : BitVec n) : (ZMod 2)[X] := X ^ n + wordPoly low

theorem modulus_monic (low : BitVec n) : (modulus low).Monic :=
  monic_X_pow_add (degree_wordPoly_lt low)

theorem degree_modulus (low : BitVec n) : (modulus low).degree = n := by
  rw [modulus, degree_add_eq_left_of_degree_lt, degree_X_pow]
  rw [degree_X_pow]
  exact degree_wordPoly_lt low

abbrev Residue (low : BitVec n) := AdjoinRoot (modulus low)

variable (low : BitVec n)

noncomputable def value (a : BitVec n) : Residue low := AdjoinRoot.mk (modulus low) (wordPoly a)

noncomputable abbrev root : Residue low := AdjoinRoot.root (modulus low)

theorem value_xor (a b : BitVec n) : value low (a ^^^ b) = value low a + value low b := by
  rw [value, wordPoly_xor, map_add]
  rfl

theorem value_zero : value low 0#n = 0 := by
  rw [value, wordPoly_zero, map_zero]

theorem wordPoly_mod (a : BitVec n) : wordPoly a %ₘ modulus low = wordPoly a := by
  rw [modByMonic_eq_self_iff (modulus_monic low), degree_modulus]
  exact degree_wordPoly_lt a

theorem value_injective : Function.Injective (value low) := by
  intro a b h
  have hmod := congrArg (AdjoinRoot.modByMonicHom (modulus_monic low)) h
  rw [value, value, AdjoinRoot.modByMonicHom_mk, AdjoinRoot.modByMonicHom_mk, wordPoly_mod,
    wordPoly_mod] at hmod
  exact wordPoly_injective hmod

theorem value_surjective : Function.Surjective (value low) := by
  intro x
  obtain ⟨p, rfl⟩ := AdjoinRoot.mk_surjective x
  have hlt : (p %ₘ modulus low).degree < n := by
    rw [← degree_modulus low]
    exact degree_modByMonic_lt _ (modulus_monic low)
  obtain ⟨a, ha⟩ := exists_wordPoly hlt
  refine ⟨a, ?_⟩
  rw [value, ha, ← AdjoinRoot.modByMonicHom_mk (modulus_monic low)]
  exact AdjoinRoot.mk_leftInverse (modulus_monic low) _

theorem value_bijective : Function.Bijective (value low) :=
  ⟨value_injective low, value_surjective low⟩

/-- A word's value, bit by bit. -/
theorem value_eq_sum (a : BitVec n) : value low a =
    ∑ i ∈ Finset.range n, algebraMap (ZMod 2) _ (coefficient (a.getLsbD i)) * root low ^ i := by
  rw [value, wordPoly, map_sum]
  apply Finset.sum_congr rfl
  intro i _
  rw [← C_mul_X_pow_eq_monomial, map_mul, map_pow, AdjoinRoot.mk_C, AdjoinRoot.mk_X]
  rfl

/-- The coefficient of `X ^ i` in the smallest polynomial of a residue. -/
noncomputable def coordinate (x : Residue low) (i : ℕ) : ZMod 2 :=
  (AdjoinRoot.modByMonicHom (modulus_monic low) x).coeff i

theorem coordinate_value (a : BitVec n) (i : ℕ) :
    coordinate low (value low a) i = coefficient (a.getLsbD i) := by
  rw [coordinate, value, AdjoinRoot.modByMonicHom_mk, wordPoly_mod, coeff_wordPoly]

/-! ## Products -/

/-- The product with `X`. -/
def double (a : BitVec n) : BitVec n := a <<< 1 ^^^ if a.getLsbD (n - 1) then low else 0#n

theorem wordPoly_shift (hn : 0 < n) (a : BitVec n) :
    X * wordPoly a = wordPoly (a <<< 1) + C (coefficient (a.getLsbD (n - 1))) * X ^ n := by
  ext i
  rw [coeff_add, coeff_C_mul, coeff_X_pow, coeff_wordPoly, BitVec.getLsbD_shiftLeft]
  rcases i with _ | i
  · simp [coefficient, hn.ne]
  · rw [coeff_X_mul, coeff_wordPoly]
    by_cases hlt : i + 1 < n
    · simp [hlt, hlt.ne]
    · by_cases htop : i + 1 = n
      · subst htop
        simp [coefficient]
      · rw [BitVec.getLsbD_of_ge a i (by omega)]
        simp [coefficient, hlt, htop]

theorem mk_X_pow : AdjoinRoot.mk (modulus low) (X ^ n) = value low low := by
  have hroot : AdjoinRoot.mk (modulus low) (X ^ n + wordPoly low) = 0 := AdjoinRoot.mk_self
  have hdouble : value low low + value low low = 0 := by
    rw [← value_xor, BitVec.xor_self]
    exact value_zero low
  rw [map_add] at hroot
  exact (eq_neg_of_add_eq_zero_left hroot).trans (eq_neg_of_add_eq_zero_left hdouble).symm

theorem value_double (hn : 0 < n) (a : BitVec n) :
    value low (double low a) = root low * value low a := by
  have hshift := congrArg (AdjoinRoot.mk (modulus low)) (wordPoly_shift hn a)
  rw [map_mul, AdjoinRoot.mk_X, map_add, map_mul, AdjoinRoot.mk_C, mk_X_pow] at hshift
  rw [double, value_xor]
  refine Eq.trans ?_ hshift.symm
  cases a.getLsbD (n - 1)
  · simp [coefficient, value_zero]
    rfl
  · simp [coefficient]
    rfl

/-- The product with the `k` top bits of `b`, from the top. -/
def mulTop (a b : BitVec n) : ℕ → BitVec n
  | 0 => 0#n
  | k + 1 => double low (mulTop a b k) ^^^ if b.getLsbD (n - 1 - k) then a else 0#n

def mul (a b : BitVec n) : BitVec n := mulTop low a b n

theorem value_mulTop (hn : 0 < n) (a b : BitVec n) {k : ℕ} (hk : k ≤ n) :
    value low (mulTop low a b k) = value low a *
      ∑ i ∈ Finset.range k,
        algebraMap (ZMod 2) _ (coefficient (b.getLsbD (n - k + i))) * root low ^ i := by
  induction k with
  | zero => simp [mulTop, value_zero]
  | succ k ih =>
    have hbit : value low (if b.getLsbD (n - 1 - k) then a else 0#n) = value low a *
        algebraMap (ZMod 2) _ (coefficient (b.getLsbD (n - 1 - k))) := by
      cases b.getLsbD (n - 1 - k)
      · simp [coefficient, value_zero]
      · simp [coefficient]
    have hterm (i : ℕ) : algebraMap (ZMod 2) (Residue low)
        (coefficient (b.getLsbD (n - (k + 1) + (i + 1)))) * root low ^ (i + 1) =
        root low *
          (algebraMap (ZMod 2) _ (coefficient (b.getLsbD (n - k + i))) * root low ^ i) := by
      rw [show n - (k + 1) + (i + 1) = n - k + i by omega]
      ring
    rw [mulTop, value_xor, value_double low hn, ih (by omega), hbit, Finset.sum_range_succ',
      Finset.sum_congr rfl fun i _ => hterm i, ← Finset.mul_sum, pow_zero, mul_one, Nat.add_zero,
      show n - (k + 1) = n - 1 - k by omega]
    ring

theorem value_mul (hn : 0 < n) (a b : BitVec n) :
    value low (mul low a b) = value low a * value low b := by
  rw [mul, value_mulTop low hn a b le_rfl, value_eq_sum low b, Nat.sub_self]
  simp only [Nat.zero_add]

/-! ## Fields -/

theorem value_one (hn : 0 < n) : value low 1#n = 1 := by
  have hpoly : wordPoly 1#n = 1 := by
    ext i
    rw [coeff_wordPoly, coeff_one]
    rcases i with _ | i
    · simp [coefficient, hn]
    · simp [coefficient]
  rw [value, hpoly, map_one]

/-- With an inverse for each word the residues are a field, and their modulus is irreducible. -/
theorem irreducible_of_inverses (hn : 0 < n)
    (hinverse : ∀ a : BitVec n, a ≠ 0#n → ∃ b, mul low a b = 1#n) : Irreducible (modulus low) := by
  have hfield : IsField (Residue low) := by
    refine ⟨⟨value low 0#n, value low 1#n, ?_⟩, mul_comm, ?_⟩
    · intro h
      have hzero : 0#n = 1#n := value_injective low h
      have hbit := congrArg (BitVec.getLsbD · 0) hzero
      simp [hn] at hbit
    · intro x hx
      obtain ⟨a, rfl⟩ := value_surjective low x
      obtain ⟨b, hb⟩ := hinverse a fun h => hx (by rw [h, value_zero])
      exact ⟨value low b, by rw [← value_mul low hn, hb, value_one low hn]⟩
  have hmaximal : (Ideal.span {modulus low}).IsMaximal :=
    (Ideal.Quotient.maximal_ideal_iff_isField_quotient _).2 hfield
  exact ((Ideal.span_singleton_prime (modulus_monic low).ne_zero).1 hmaximal.isPrime).irreducible

end MinervaOS.BinaryField
