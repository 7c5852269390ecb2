import MinervaOS.Crypto.FieldLimbs
import MinervaOS.Crypto.P256Field

/-!
# The residues that the limb functions return

A product or a power of any eight limbs comes out as the canonical residue, whether or not the limbs
stand for one; sums and differences do where they are given residues. The residue of a number is its
remainder (`Residue`), so the modulus is never among the results.
-/

namespace MinervaOS.Crypto

/-- The canonical representative of an integer modulo `m`. -/
def Residue (m : ℕ) (z : ℤ) (r : P256Fe) : Prop := (r.value : ℤ) = z % m

theorem residue_iff {m n : ℕ} {r : P256Fe} : Residue m n r ↔ r.value = n % m := by
  unfold Residue
  rw [← Int.natCast_mod, Int.natCast_inj]

theorem Residue.lt {m : ℕ} (hm : 0 < m) {z : ℤ} {r : P256Fe} (h : Residue m z r) : r.value < m := by
  have hlt := Int.emod_lt_of_pos z (Int.natCast_pos.2 hm)
  unfold Residue at h
  omega

namespace Limbwise

open Limbs

/-! ## The sum of two scalars -/

/-- The sum has a ninth limb, as a remainder has. -/
def p256ScalarReduceOnce (sum : List UInt32) : List UInt32 :=
  if remCmpMod sum p256N ≥ 0 then remSubMod sum p256N else sum

def p256ScalarAdd (a b : P256Fe) : P256Fe :=
  let (sum, carry) := addFrom a.v b.v 0
  lowLimbs (p256ScalarReduceOnce (sum ++ [carry.toUInt32]))

theorem value_sum (a b : P256Fe) :
    ((addFrom a.v b.v 0).1 ++ [(addFrom a.v b.v 0).2.toUInt32]).length = 9 ∧
      value ((addFrom a.v b.v 0).1 ++ [(addFrom a.v b.v 0).2.toUInt32]) = a.value + b.value := by
  have hlen := addFrom_limbs a b
  have h := rawAdd_spec a b
  refine ⟨by rw [List.length_append, hlen, List.length_singleton], ?_⟩
  rw [value_append, hlen, value_cons, value_nil, Nat.mul_zero, Nat.add_zero]
  exact h

theorem value_scalarReduceOnce {sum : List UInt32} (hl : sum.length = 9)
    (hlt : value sum < 2 * Crypto.p256N) :
    (p256ScalarReduceOnce sum).length = 9 ∧
      value (p256ScalarReduceOnce sum) = value sum % Crypto.p256N := by
  have hcmp := remCmpMod_spec hl p256N
  rw [value_p256N] at hcmp
  unfold p256ScalarReduceOnce
  split
  · rename_i hge
    have hle : Crypto.p256N ≤ value sum := hcmp.1 hge
    have hge' : value sum ≥ p256N.value := by rwa [value_p256N]
    have hsub := remSubMod_spec hl hge'
    rw [value_p256N] at hsub
    refine ⟨hsub.1, ?_⟩
    rw [hsub.2, Nat.mod_eq_sub_mod hle, Nat.mod_eq_of_lt (by omega)]
  · rename_i hnot
    refine ⟨hl, (Nat.mod_eq_of_lt ?_).symm⟩
    exact Nat.lt_of_not_le fun hle => hnot (hcmp.2 hle)

theorem value_scalarAdd {a b : P256Fe} (ha : a.value < Crypto.p256N) (hb : b.value < Crypto.p256N) :
    (p256ScalarAdd a b).value = (a.value + b.value) % Crypto.p256N := by
  obtain ⟨hlen, hsum⟩ := value_sum a b
  obtain ⟨hlen', hval⟩ := value_scalarReduceOnce hlen (by omega)
  have hlt : (a.value + b.value) % Crypto.p256N < Crypto.p256N := Nat.mod_lt _ p256N_prime.pos
  rw [hsum] at hval
  unfold p256ScalarAdd
  rw [value_lowLimbs hlen', hval]
  rw [hval]
  exact hlt.trans p256N_lt

/-! ## Products, sums and differences -/

theorem feMul_residue (a b : P256Fe) :
    Residue Crypto.p256P (a.value * b.value) (p256FeMul a b) := by
  have h := reduceProductMod_eq p256P_prime.pos a.value_lt b.value_lt
  rw [← Int.natCast_mul, residue_iff, value_feMul]
  exact h

theorem scalarMul_residue (a b : P256Fe) :
    Residue Crypto.p256N (a.value * b.value) (p256ScalarMul a b) := by
  have h := reduceProductMod_eq p256N_prime.pos a.value_lt b.value_lt
  rw [← Int.natCast_mul, residue_iff, value_scalarMul]
  exact h

variable {a b : P256Fe}

theorem feAdd_residue (ha : a.value < Crypto.p256P) (hb : b.value < Crypto.p256P) :
    Residue Crypto.p256P (a.value + b.value) (p256FeAdd a b) := by
  have hadd := feAdd_val (a.value : ZMod Crypto.p256P) b.value
  rw [ZMod.val_natCast_of_lt ha, ZMod.val_natCast_of_lt hb, ZMod.val_add, ZMod.val_natCast_of_lt ha,
    ZMod.val_natCast_of_lt hb] at hadd
  rw [← Int.natCast_add, residue_iff, value_feAdd]
  exact hadd

theorem feSub_residue (ha : a.value < Crypto.p256P) (hb : b.value < Crypto.p256P) :
    Residue Crypto.p256P (a.value - b.value) (p256FeSub a b) := by
  have hsub := feSub_val (a.value : ZMod Crypto.p256P) b.value
  rw [ZMod.val_natCast_of_lt ha, ZMod.val_natCast_of_lt hb] at hsub
  have hcast : ((a.value : ZMod Crypto.p256P) - b.value) =
      ((a.value - b.value : ℤ) : ZMod Crypto.p256P) := by
    push_cast
    rfl
  unfold Residue
  rw [value_feSub, hsub, hcast, ZMod.val_intCast]

theorem scalarAdd_residue (ha : a.value < Crypto.p256N) (hb : b.value < Crypto.p256N) :
    Residue Crypto.p256N (a.value + b.value) (p256ScalarAdd a b) := by
  rw [← Int.natCast_add, residue_iff]
  exact value_scalarAdd ha hb

end Limbwise

/-! ## Powers -/

section Powers

variable {m : ℕ} {mul : ℕ → ℕ → ℕ} (hm : m < 2 ^ 256)
  (hmul : ∀ a b, a < 2 ^ 256 → b < 2 ^ 256 → mul a b = a * b % m)

include hm hmul

theorem expBits_lt (exp : ℕ) {base : ℕ} (hbase : base < 2 ^ 256) (bit : ℕ) {result : ℕ}
    (hr : result < m) : expBits mul exp base bit result < m := by
  induction bit generalizing result with
  | zero => exact hr
  | succ bit ih =>
    have hlt : ∀ {a b}, a < m → b < 2 ^ 256 → mul a b < m := by
      intro a b ha hb
      rw [hmul a b (ha.trans hm) hb]
      exact Nat.mod_lt _ (by omega)
    have hsq := hlt hr (hr.trans hm)
    unfold expBits
    dsimp only
    split
    · exact ih (hlt hsq hbase)
    · exact ih hsq

/-- The base need not be a residue. -/
theorem expBits_cast (exp : ℕ) {base : ℕ} (hbase : base < 2 ^ 256) (bit : ℕ) {result : ℕ}
    (hr : result < m) : ((expBits mul exp base bit result : ℕ) : ZMod m)
      = (result : ZMod m) ^ 2 ^ bit * (base : ZMod m) ^ (exp % 2 ^ bit) := by
  induction bit generalizing result with
  | zero => simp [expBits, Nat.mod_one]
  | succ bit ih =>
    have hcast : ∀ {a b}, a < m → b < 2 ^ 256 → mul a b < m ∧ ((mul a b : ℕ) : ZMod m) = a * b := by
      intro a b ha hb
      rw [hmul a b (ha.trans hm) hb]
      refine ⟨Nat.mod_lt _ (by omega), ?_⟩
      rw [ZMod.natCast_mod, Nat.cast_mul]
    have hsq := hcast hr (hr.trans hm)
    have hnext := hcast hsq.1 hbase
    have hbits := mod_two_pow_succ exp bit
    unfold expBits
    cases hbit : exp.testBit bit with
    | false =>
      rw [hbit, Bool.toNat_false, Nat.mul_zero, Nat.add_zero] at hbits
      simp only [Bool.false_eq_true, if_false]
      rw [ih hsq.1, hsq.2, hbits]
      ring
    | true =>
      rw [hbit, Bool.toNat_true, Nat.mul_one] at hbits
      simp only [if_true]
      rw [ih hnext.1, hnext.2, hsq.2, hbits]
      ring

/-- Square and multiply over 256 bits is the power. -/
theorem expBits_pow (hone : 1 < m) {exp : ℕ} (hexp : exp < 2 ^ 256) {base : ℕ}
    (hbase : base < 2 ^ 256) : expBits mul exp base 256 1 = base ^ exp % m := by
  have hlt := expBits_lt hm hmul exp hbase 256 hone
  have hcast := expBits_cast hm hmul exp hbase 256 hone
  rw [Nat.cast_one, one_pow, one_mul, Nat.mod_eq_of_lt hexp] at hcast
  rw [← Nat.mod_eq_of_lt hlt, ← ZMod.natCast_eq_natCast_iff', hcast, Nat.cast_pow]

end Powers

/-- Fermat's little theorem for the power that the loop computes. -/
theorem pow_sub_two_inv {m a : ℕ} [Fact m.Prime] (hm : 2 < m) :
    (¬m ∣ a → a ^ (m - 2) % m * a % m = 1) ∧ (m ∣ a → a ^ (m - 2) % m = 0) := by
  have hone : 1 % m = 1 := Nat.mod_eq_of_lt (by omega)
  refine ⟨fun ha => ?_, fun ha => ?_⟩
  · have hne : (a : ZMod m) ≠ 0 := by rwa [ne_eq, ZMod.natCast_eq_zero_iff]
    have hinv : ((a ^ (m - 2) % m * a : ℕ) : ZMod m) = ((1 : ℕ) : ZMod m) := by
      push_cast [ZMod.natCast_mod]
      rw [pow_card_sub_two hm, inv_mul_cancel₀ hne]
    rw [(ZMod.natCast_eq_natCast_iff' _ _ _).1 hinv, hone]
  · exact Nat.mod_eq_zero_of_dvd (dvd_pow ha (by omega))

namespace Limbwise

/-- The inverses of the code: the powers by Fermat's exponent, so inverses where there is one. -/
theorem inverses (a : P256Fe) :
    ((p256FeInv a).value = a.value ^ (Crypto.p256P - 2) % Crypto.p256P ∧
        (¬Crypto.p256P ∣ a.value → (p256FeInv a).value * a.value % Crypto.p256P = 1) ∧
        (Crypto.p256P ∣ a.value → (p256FeInv a).value = 0)) ∧
      (p256ScalarInv a).value = a.value ^ (Crypto.p256N - 2) % Crypto.p256N ∧
        (¬Crypto.p256N ∣ a.value → (p256ScalarInv a).value * a.value % Crypto.p256N = 1) ∧
        (Crypto.p256N ∣ a.value → (p256ScalarInv a).value = 0) := by
  have hp := p256P_lt
  have hn := p256N_lt
  have hfe : (p256FeInv a).value = a.value ^ (Crypto.p256P - 2) % Crypto.p256P := by
    rw [value_feInv]
    exact expBits_pow hp (fun a b ha hb => reduceProductMod_eq p256P_prime.pos ha hb)
      p256P_prime.one_lt (by omega) a.value_lt
  have hscalar : (p256ScalarInv a).value = a.value ^ (Crypto.p256N - 2) % Crypto.p256N := by
    rw [value_scalarInv]
    exact expBits_pow hn (fun a b ha hb => reduceProductMod_eq p256N_prime.pos ha hb)
      p256N_prime.one_lt (by omega) a.value_lt
  rw [hfe, hscalar]
  exact ⟨⟨rfl, pow_sub_two_inv two_lt_p256P⟩, rfl, pow_sub_two_inv two_lt_p256N⟩

theorem inverses_two : let two : P256Fe := ⟨[2, 0, 0, 0, 0, 0, 0, 0], rfl⟩
    (p256FeInv two).value * two.value % Crypto.p256P = 1 ∧
      (p256ScalarInv two).value * two.value % Crypto.p256N = 1 := by
  have h := inverses ⟨[2, 0, 0, 0, 0, 0, 0, 0], rfl⟩
  exact ⟨h.1.2.1 (by decide), h.2.2.1 (by decide)⟩

end Limbwise

end MinervaOS.Crypto
