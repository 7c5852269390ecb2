import MinervaOS.Crypto.P256
import MinervaOS.Lib.Pratt
import Mathlib.Algebra.Field.ZMod
import Mathlib.Data.Nat.Bitwise
import Mathlib.FieldTheory.Finite.Basic

/-!
# The fields of P-256

The field prime and the order of the curve are prime, so residues modulo either form a field. The
functions on numbers, given the canonical representatives of two residues, return the canonical
representative of the sum, the difference, the product and the inverse.
-/

namespace MinervaOS.Crypto

/-- The field prime, the order, and the primes below them that their tests come down to. -/
def p256Certificate : List Pratt.Entry :=
  [⟨115792089210356248762697446949407573529996955224135760342422259061068512044369, 7, [(2, 4),
     (3, 1), (71, 1), (131, 1), (373, 1), (3407, 1), (17449, 1), (38189, 1), (187019741, 1),
     (622491383, 1), (1002328039319, 1), (2624747550333869278416773953, 1)]⟩,
   ⟨2624747550333869278416773953, 7, [(2, 6), (3, 2), (1297, 1), (16879, 1),
     (208150935158385979, 1)]⟩,
   ⟨208150935158385979, 2, [(2, 1), (3, 1), (11, 1), (43, 1), (127, 1), (3023, 1),
     (191039911, 1)]⟩,
   ⟨191039911, 3, [(2, 1), (3, 1), (5, 1), (41, 1), (155317, 1)]⟩,
   ⟨155317, 5, [(2, 2), (3, 1), (7, 1), (43, 2)]⟩, ⟨41, 6, [(2, 3), (5, 1)]⟩,
   ⟨3023, 5, [(2, 1), (1511, 1)]⟩, ⟨1511, 11, [(2, 1), (5, 1), (151, 1)]⟩,
   ⟨151, 6, [(2, 1), (3, 1), (5, 2)]⟩, ⟨127, 3, [(2, 1), (3, 2), (7, 1)]⟩,
   ⟨16879, 3, [(2, 1), (3, 1), (29, 1), (97, 1)]⟩, ⟨97, 5, [(2, 5), (3, 1)]⟩,
   ⟨1297, 10, [(2, 4), (3, 4)]⟩, ⟨1002328039319, 19, [(2, 1), (126241, 1), (3969899, 1)]⟩,
   ⟨3969899, 2, [(2, 1), (19, 1), (104471, 1)]⟩,
   ⟨104471, 11, [(2, 1), (5, 1), (31, 1), (337, 1)]⟩, ⟨337, 10, [(2, 4), (3, 1), (7, 1)]⟩,
   ⟨126241, 7, [(2, 5), (3, 1), (5, 1), (263, 1)]⟩, ⟨263, 5, [(2, 1), (131, 1)]⟩,
   ⟨622491383, 5, [(2, 1), (311245691, 1)]⟩,
   ⟨311245691, 2, [(2, 1), (5, 1), (7, 1), (17, 1), (29, 2), (311, 1)]⟩,
   ⟨311, 17, [(2, 1), (5, 1), (31, 1)]⟩, ⟨29, 2, [(2, 2), (7, 1)]⟩,
   ⟨187019741, 2, [(2, 2), (5, 1), (9350987, 1)]⟩,
   ⟨9350987, 2, [(2, 1), (17, 1), (229, 1), (1201, 1)]⟩, ⟨1201, 11, [(2, 4), (3, 1), (5, 2)]⟩,
   ⟨229, 6, [(2, 2), (3, 1), (19, 1)]⟩, ⟨19, 2, [(2, 1), (3, 2)]⟩,
   ⟨38189, 2, [(2, 2), (9547, 1)]⟩, ⟨9547, 2, [(2, 1), (3, 1), (37, 1), (43, 1)]⟩,
   ⟨37, 2, [(2, 2), (3, 2)]⟩, ⟨3407, 5, [(2, 1), (13, 1), (131, 1)]⟩,
   ⟨373, 2, [(2, 2), (3, 1), (31, 1)]⟩, ⟨31, 3, [(2, 1), (3, 1), (5, 1)]⟩,
   ⟨131, 2, [(2, 1), (5, 1), (13, 1)]⟩, ⟨71, 7, [(2, 1), (5, 1), (7, 1)]⟩,
   ⟨115792089210356248762697446949407573530086143415290314195533631308867097853951, 6, [(2, 1),
     (3, 1), (5, 2), (17, 1), (257, 1), (641, 1), (1531, 1), (65537, 1), (490463, 1),
     (6700417, 1), (835945042244614951780389953367877943453916927241, 1)]⟩,
   ⟨835945042244614951780389953367877943453916927241, 11, [(2, 3), (3, 3), (5, 1),
     (774023187263532362759620327192479577272145303, 1)]⟩,
   ⟨774023187263532362759620327192479577272145303, 3, [(2, 1), (3, 2), (2411, 1),
     (34282281433, 1), (11290956913871, 1), (46076956964474543, 1)]⟩,
   ⟨46076956964474543, 5, [(2, 1), (23, 1), (18169, 1), (78283, 1), (704251, 1)]⟩,
   ⟨704251, 2, [(2, 1), (3, 2), (5, 3), (313, 1)]⟩, ⟨313, 10, [(2, 3), (3, 1), (13, 1)]⟩,
   ⟨78283, 3, [(2, 1), (3, 2), (4349, 1)]⟩, ⟨4349, 2, [(2, 2), (1087, 1)]⟩,
   ⟨1087, 3, [(2, 1), (3, 1), (181, 1)]⟩, ⟨181, 2, [(2, 2), (3, 2), (5, 1)]⟩,
   ⟨18169, 11, [(2, 3), (3, 1), (757, 1)]⟩, ⟨757, 2, [(2, 2), (3, 3), (7, 1)]⟩,
   ⟨11290956913871, 13, [(2, 1), (5, 1), (17, 1), (66417393611, 1)]⟩,
   ⟨66417393611, 6, [(2, 1), (5, 1), (53, 1), (173, 1), (197, 1), (3677, 1)]⟩,
   ⟨3677, 2, [(2, 2), (919, 1)]⟩, ⟨919, 7, [(2, 1), (3, 3), (17, 1)]⟩,
   ⟨197, 2, [(2, 2), (7, 2)]⟩, ⟨173, 2, [(2, 2), (43, 1)]⟩, ⟨43, 3, [(2, 1), (3, 1), (7, 1)]⟩,
   ⟨34282281433, 17, [(2, 3), (3, 1), (7, 1), (204061199, 1)]⟩,
   ⟨204061199, 11, [(2, 1), (11, 1), (23, 1), (107, 1), (3769, 1)]⟩,
   ⟨3769, 7, [(2, 3), (3, 1), (157, 1)]⟩, ⟨157, 5, [(2, 2), (3, 1), (13, 1)]⟩,
   ⟨107, 2, [(2, 1), (53, 1)]⟩, ⟨23, 5, [(2, 1), (11, 1)]⟩,
   ⟨2411, 6, [(2, 1), (5, 1), (241, 1)]⟩, ⟨241, 7, [(2, 4), (3, 1), (5, 1)]⟩,
   ⟨6700417, 5, [(2, 7), (3, 1), (17449, 1)]⟩, ⟨17449, 14, [(2, 3), (3, 1), (727, 1)]⟩,
   ⟨727, 5, [(2, 1), (3, 1), (11, 2)]⟩, ⟨490463, 14, [(2, 1), (7, 1), (53, 1), (661, 1)]⟩,
   ⟨661, 2, [(2, 2), (3, 1), (5, 1), (11, 1)]⟩, ⟨11, 2, [(2, 1), (5, 1)]⟩,
   ⟨53, 2, [(2, 2), (13, 1)]⟩, ⟨13, 2, [(2, 2), (3, 1)]⟩, ⟨7, 3, [(2, 1), (3, 1)]⟩,
   ⟨65537, 3, [(2, 16)]⟩, ⟨1531, 2, [(2, 1), (3, 2), (5, 1), (17, 1)]⟩,
   ⟨641, 3, [(2, 7), (5, 1)]⟩, ⟨257, 3, [(2, 8)]⟩, ⟨17, 3, [(2, 4)]⟩, ⟨5, 2, [(2, 2)]⟩,
   ⟨3, 2, [(2, 1)]⟩, ⟨2, 1, []⟩]

theorem p256Certificate_certified : Pratt.certified p256Certificate := by decide +kernel

theorem prime_of_mem {n : ℕ} (h : n ∈ p256Certificate.map Pratt.Entry.number) : n.Prime := by
  obtain ⟨e, he, rfl⟩ := List.mem_map.1 h
  exact Pratt.prime p256Certificate_certified e he

theorem p256P_prime : p256P.Prime := prime_of_mem (by decide)

theorem p256N_prime : p256N.Prime := prime_of_mem (by decide)

instance : Fact p256P.Prime := ⟨p256P_prime⟩

instance : Fact p256N.Prime := ⟨p256N_prime⟩

instance : Nontrivial (ZMod p256P) := inferInstance

theorem p256P_lt : p256P < 2 ^ 256 := by decide

theorem p256N_lt : p256N < 2 ^ 256 := by decide

theorem two_lt_p256P : 2 < p256P := by decide

theorem two_lt_p256N : 2 < p256N := by decide

/-! ## Reduction -/

theorem mod_two_pow_succ (x bit : ℕ) :
    x % 2 ^ (bit + 1) = x % 2 ^ bit + 2 ^ bit * (x.testBit bit).toNat := by
  rw [pow_succ, Nat.mod_mul, Nat.toNat_testBit]

theorem reduceBits_eq {product mod : ℕ} (bit : ℕ) {rem : ℕ} (h : rem < mod) :
    reduceBits product mod bit rem = (rem * 2 ^ bit + product % 2 ^ bit) % mod := by
  induction bit generalizing rem with
  | zero => simp [reduceBits, Nat.mod_one, Nat.mod_eq_of_lt h]
  | succ bit ih =>
    have hb := Bool.toNat_le (product.testBit bit)
    have hmod : 0 < mod := by omega
    set next := 2 * rem + (product.testBit bit).toNat with hnext
    have hsub : (if next ≥ mod then next - mod else next) = next % mod := by
      split
      · rename_i hge
        rw [Nat.mod_eq_sub_mod hge, Nat.mod_eq_of_lt (by omega)]
      · rename_i hlt
        exact (Nat.mod_eq_of_lt (by omega)).symm
    rw [reduceBits, ← hnext, hsub, ih (Nat.mod_lt _ hmod), mod_two_pow_succ, Nat.add_mod,
      Nat.mod_mul_mod, ← Nat.add_mod, hnext]
    congr 1
    ring

theorem reduceProductMod_eq {a b mod : ℕ} (hmod : 0 < mod) (ha : a < 2 ^ 256) (hb : b < 2 ^ 256) :
    p256ReduceProductMod (a * b % 2 ^ 512) mod = a * b % mod := by
  have hab : a * b < 2 ^ 256 * 2 ^ 256 := Nat.mul_lt_mul'' ha hb
  rw [← pow_add] at hab
  rw [p256ReduceProductMod, reduceBits_eq _ hmod, Nat.zero_mul, Nat.zero_add, Nat.mod_mod,
    Nat.mod_eq_of_lt hab]

theorem expBits_val {m : ℕ} [NeZero m] {mul : ℕ → ℕ → ℕ}
    (hmul : ∀ u v : ZMod m, mul u.val v.val = (u * v).val) (exp bit : ℕ) (u r : ZMod m) :
    expBits mul exp u.val bit r.val = (r ^ 2 ^ bit * u ^ (exp % 2 ^ bit)).val := by
  induction bit generalizing r with
  | zero => simp [expBits, Nat.mod_one]
  | succ bit ih =>
    rw [expBits, mod_two_pow_succ]
    cases exp.testBit bit
    · rw [if_neg (by decide), hmul, ih]
      congr 1
      rw [Bool.toNat_false]
      ring
    · rw [if_pos rfl, hmul, hmul, ih]
      congr 1
      rw [Bool.toNat_true]
      ring

theorem pow_card_sub_two {m : ℕ} [Fact m.Prime] (hm : 2 < m) (u : ZMod m) : u ^ (m - 2) = u⁻¹ := by
  by_cases hu : u = 0
  · rw [hu, zero_pow (by omega), inv_zero]
  · refine eq_inv_of_mul_eq_one_left ?_
    rw [← pow_succ, show m - 2 + 1 = m - 1 by omega]
    exact ZMod.pow_card_sub_one_eq_one hu

/-! ## The field -/

section Field

variable (u v : ZMod p256P)

theorem val_lt_two_pow : u.val < 2 ^ 256 := (ZMod.val_lt u).trans p256P_lt

@[simp] theorem feAdd_val : p256FeAdd u.val v.val = (u + v).val := by
  have hu := ZMod.val_lt u
  have hv := ZMod.val_lt v
  have hp := p256P_lt
  have hcarry : (p256RawAdd u.val v.val).1 + 2 ^ 256 * (p256RawAdd u.val v.val).2
      = u.val + v.val := Nat.mod_add_div _ _
  simp only [p256FeAdd, p256ReduceOnce, Bool.or_eq_true, bne_iff_ne, ne_eq, decide_eq_true_eq]
  by_cases hlt : u.val + v.val < p256P
  · rw [ZMod.val_add_of_lt hlt, if_neg (by omega)]
    omega
  · rw [ZMod.val_add_of_le (by omega), if_pos (by omega), p256RawSub]
    omega

@[simp] theorem feSub_val : p256FeSub u.val v.val = (u - v).val := by
  have hu := ZMod.val_lt u
  have hv := ZMod.val_lt v
  have hp := p256P_lt
  simp only [p256FeSub, p256RawSub, p256RawAdd, decide_eq_true_eq]
  split
  · rename_i hlt
    have hne : v - u ≠ 0 := fun h => by
      rw [sub_eq_zero.1 h] at hlt
      omega
    rw [← neg_sub, ZMod.neg_val, if_neg hne, ZMod.val_sub hlt.le]
    omega
  · rename_i hge
    rw [ZMod.val_sub (by omega)]
    omega

@[simp] theorem feMul_val : p256FeMul u.val v.val = (u * v).val := by
  rw [p256FeMul, reduceProductMod_eq p256P_prime.pos (val_lt_two_pow u) (val_lt_two_pow v),
    ZMod.val_mul]

@[simp] theorem feInv_val : p256FeInv p256FeMul u.val = u⁻¹.val := by
  have hp := p256P_lt
  have hone := expBits_val feMul_val (p256P - 2) 256 u 1
  rw [ZMod.val_one] at hone
  rw [p256FeInv, hone, one_pow, one_mul, Nat.mod_eq_of_lt (by omega), pow_card_sub_two two_lt_p256P]

@[simp] theorem feTwice_val : p256FeTwice u.val = (2 * u).val := by
  rw [p256FeTwice, feAdd_val, two_mul]

@[simp] theorem feThrice_val : p256FeThrice u.val = (3 * u).val := by
  rw [p256FeThrice, feAdd_val, feAdd_val]
  congr 1
  ring

@[simp] theorem feFour_val : p256FeFour u.val = (4 * u).val := by
  rw [p256FeFour, feTwice_val, feTwice_val]
  congr 1
  ring

@[simp] theorem feEight_val : p256FeEight u.val = (8 * u).val := by
  rw [p256FeEight, feFour_val, feTwice_val]
  congr 1
  ring

@[simp] theorem val_beq_zero : (u.val == 0) = decide (u = 0) := by
  rw [Bool.eq_iff_iff, beq_iff_eq, decide_eq_true_eq, ZMod.val_eq_zero]

@[simp] theorem val_beq : (u.val == v.val) = decide (u = v) := by
  rw [Bool.eq_iff_iff, beq_iff_eq, decide_eq_true_eq]
  exact (ZMod.val_injective _).eq_iff

end Field

/-! ## The scalars -/

section Scalars

variable (u v : ZMod p256N)

@[simp] theorem scalarMul_val : p256ScalarMul u.val v.val = (u * v).val := by
  have hu := (ZMod.val_lt u).trans p256N_lt
  have hv := (ZMod.val_lt v).trans p256N_lt
  rw [p256ScalarMul, reduceProductMod_eq p256N_prime.pos hu hv, ZMod.val_mul]

@[simp] theorem scalarInv_val : p256ScalarInv p256ScalarMul u.val = u⁻¹.val := by
  have hn := p256N_lt
  have hone := expBits_val scalarMul_val (p256N - 2) 256 u 1
  rw [ZMod.val_one] at hone
  rw [p256ScalarInv, hone, one_pow, one_mul, Nat.mod_eq_of_lt (by omega),
    pow_card_sub_two two_lt_p256N]

theorem scalarFromFe_val (a : ℕ) : p256ScalarFromFe a = (a : ZMod p256N).val :=
  (ZMod.val_natCast _ a).symm

end Scalars

end MinervaOS.Crypto
