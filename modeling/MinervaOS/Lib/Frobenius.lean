import Mathlib.FieldTheory.Finite.Extension
import MinervaOS.Lib.BinaryField

/-!
# Fields of `2 ^ n` words, by squaring

Squaring `X` over and over tells whether a modulus is irreducible: `n` times must bring it back to
`X`, and half as often must leave it apart from `X` by a word with an inverse. The degree `n` is a
power of two here, so that any smaller degree that divides it divides its half.
-/

namespace MinervaOS.BinaryField

open Polynomial

variable {n : ℕ} (low : BitVec n)

/-- `X` squared `k` times. -/
def squares (k : ℕ) : BitVec n := (fun a => mul low a a)^[k] 2#n

theorem value_two (hn : 1 < n) : value low 2#n = root low := by
  have hpoly : wordPoly 2#n = X := by
    ext i
    rw [coeff_wordPoly, coeff_X, BitVec.getLsbD_ofNat]
    rcases i with _ | _ | i
    · simp [coefficient]
    · simp [coefficient, hn, show Nat.testBit 2 1 = true from rfl]
    · have : Nat.testBit 2 (i + 1 + 1) = false :=
        Nat.testBit_lt_two_pow (by rw [pow_succ, pow_succ]; have := Nat.one_le_two_pow (n := i); omega)
      simp [coefficient, this]
  rw [value, hpoly, AdjoinRoot.mk_X]

theorem value_squares (hn : 1 < n) (k : ℕ) : value low (squares low k) = root low ^ 2 ^ k := by
  induction k with
  | zero => rw [pow_zero, pow_one]; exact value_two low hn
  | succ k ih =>
    rw [squares, Function.iterate_succ_apply', value_mul low (by omega), ← squares, ih, pow_succ,
      pow_mul, sq]

theorem mk_squares (hn : 1 < n) (k : ℕ) : AdjoinRoot.mk (modulus low) (X ^ 2 ^ k - X) =
    value low (squares low k ^^^ 2#n) := by
  rw [value_xor, value_squares low hn, value_two low hn, map_sub, map_pow, AdjoinRoot.mk_X]
  have hdouble : root low + root low = 0 := by
    rw [← value_two low hn, ← value_xor, BitVec.xor_self, value_zero]
  rw [sub_eq_iff_eq_add, add_assoc, hdouble, add_zero]

theorem irreducible_of_squares {e : ℕ} (hn : n = 2 ^ (e + 1)) (hback : squares low n = 2#n)
    (inverse : BitVec n) (hhalf : mul low (squares low (2 ^ e) ^^^ 2#n) inverse = 1#n) :
    Irreducible (modulus low) := by
  have hpos : 0 < 2 ^ e := Nat.two_pow_pos e
  have hn' : 1 < n := by rw [hn, pow_succ]; omega
  have hcard : Nat.card (ZMod 2) = 2 := Nat.card_zmod 2
  have hnatDegree : (modulus low).natDegree = n := natDegree_eq_of_degree_eq_some (degree_modulus low)
  have hnonunit : ¬IsUnit (modulus low) := fun h => by
    have := natDegree_eq_zero_of_isUnit h
    omega
  have hdvd : modulus low ∣ X ^ 2 ^ n - X := by
    rw [← AdjoinRoot.mk_eq_zero, mk_squares low hn', hback, BitVec.xor_self, value_zero]
  have hcoprime : IsCoprime (modulus low) (X ^ 2 ^ 2 ^ e - X) := by
    have hvalue := congrArg (value low) hhalf
    rw [value_mul low (by omega), ← mk_squares low hn', value_one low (by omega), value, ← map_mul,
      ← sub_eq_zero, ← map_one (AdjoinRoot.mk (modulus low)), ← map_sub,
      AdjoinRoot.mk_eq_zero] at hvalue
    obtain ⟨c, hc⟩ := hvalue
    exact ⟨-c, wordPoly inverse, by linear_combination hc⟩
  obtain ⟨g, hg, hgdvd⟩ := WfDvdMonoid.exists_irreducible_factor hnonunit
    (modulus_monic low).ne_zero
  have hdegree : g.natDegree ∣ 2 ^ (e + 1) := by
    rw [← hn]
    exact hg.natDegree_dvd_of_dvd_X_pow_card_pow_sub_X (by rw [hcard]; exact hgdvd.trans hdvd)
  obtain ⟨k, hk, hgk⟩ := (Nat.dvd_prime_pow Nat.prime_two).1 hdegree
  -- a smaller degree divides the half, and the factor would divide both coprime polynomials
  have htop : k = e + 1 := by
    by_contra hne
    have hsmall : g.natDegree ∣ 2 ^ e := by
      rw [hgk]
      exact pow_dvd_pow 2 (by omega)
    have hhalf' : g ∣ X ^ 2 ^ 2 ^ e - X := by
      have := hg.natDegree_dvd_iff_dvd_X_pow_card_pow_sub_X.1 hsmall
      rwa [hcard] at this
    exact hg.not_isUnit (hcoprime.isUnit_of_dvd' hgdvd hhalf')
  obtain ⟨c, hc⟩ := hgdvd
  have hne : g * c ≠ 0 := hc ▸ (modulus_monic low).ne_zero
  have hc0 : c.natDegree = 0 := by
    have hsum := natDegree_mul (left_ne_zero_of_mul hne) (right_ne_zero_of_mul hne)
    rw [← hc, hnatDegree, hgk, htop, ← hn] at hsum
    omega
  have hunit : IsUnit c := isUnit_iff_degree_eq_zero.2
    (by rw [degree_eq_natDegree (right_ne_zero_of_mul hne), hc0]; rfl)
  rw [hc]
  exact (irreducible_mul_isUnit hunit).2 hg

end MinervaOS.BinaryField
