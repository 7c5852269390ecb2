import MinervaOS.Crypto.GcmLoops
import MinervaOS.Lib.BinaryField

/-!
# GHASH

A block of 16 bytes is a residue modulo `X ^ 128 + X ^ 7 + X ^ 2 + X + 1`, its bits the coefficients
from the top bit of the first byte on. The product of the driver is the product of the residues, and
its hash of a list of blocks the value of a polynomial with the blocks for coefficients.
-/

namespace MinervaOS.Crypto

namespace Ghash

open BinaryField (value coefficient double)
open Polynomial
open GcmLoops (length_gcmShiftRight length_ghashBlock length_xorBytes length_gcmMulBits)

/-- The coefficients of the modulus below `X ^ 128`. -/
abbrev low : BitVec 128 := 0x87#128

abbrev Gf128 := BinaryField.Residue low

noncomputable abbrev ξ : Gf128 := BinaryField.root low

/-- Bit `i` of a block, each byte's top bit first. -/
def bitAt (block : List UInt8) (i : ℕ) : Bool := (block.getD (i / 8) 0).toNat.testBit (7 - i % 8)

def word (block : List UInt8) : BitVec 128 :=
  BitVec.ofNat 128 (Nat.ofBits fun i : Fin 128 => bitAt block i)

/-- A block as a residue. -/
noncomputable def element (block : List UInt8) : Gf128 := value low (word block)

theorem getLsbD_word (block : List UInt8) {i : ℕ} (hi : i < 128) :
    (word block).getLsbD i = bitAt block i := by
  rw [word, BitVec.getLsbD_ofNat, Nat.testBit_ofBits_lt _ _ hi, decide_eq_true hi, Bool.true_and]

theorem word_eq {block : List UInt8} {a : BitVec 128} (h : ∀ i < 128, bitAt block i = a.getLsbD i) :
    word block = a :=
  BitVec.eq_of_getLsbD_eq fun i hi => (getLsbD_word block hi).trans (h i hi)

/-! ## Blocks -/

/-- A block is known by its bits. -/
theorem eq_of_word_eq {a b : List UInt8} (ha : a.length = 16) (hb : b.length = 16)
    (h : word a = word b) : a = b := by
  refine List.ext_getElem (ha.trans hb.symm) fun i hia hib =>
    UInt8.toNat_inj.1 (Nat.eq_of_testBit_eq fun j => ?_)
  by_cases hj : j < 8
  · have hbit : bitAt a (8 * i + (7 - j)) = bitAt b (8 * i + (7 - j)) := by
      rw [← getLsbD_word a (by omega), ← getLsbD_word b (by omega), h]
    unfold bitAt at hbit
    rw [show (8 * i + (7 - j)) / 8 = i by omega, show 7 - (8 * i + (7 - j)) % 8 = j by omega,
      List.getD_eq_getElem _ _ hia, List.getD_eq_getElem _ _ hib] at hbit
    exact hbit
  · have hlt (c : UInt8) : c.toNat.testBit j = false := Nat.testBit_lt_two_pow (by
      have hpow : 2 ^ 8 ≤ 2 ^ j := Nat.pow_le_pow_right (by omega) (by omega)
      have hc := c.toNat_lt
      omega)
    rw [hlt, hlt]

theorem element_inj {a b : List UInt8} (ha : a.length = 16) (hb : b.length = 16)
    (h : element a = element b) : a = b :=
  eq_of_word_eq ha hb (BinaryField.value_injective low h)

theorem bitAt_zeros (i : ℕ) : bitAt (List.replicate 16 0) i = false := by
  unfold bitAt
  rw [List.getD_eq_getElem?_getD, List.getElem?_replicate]
  split <;> exact Nat.zero_testBit _

theorem element_zeros : element (List.replicate 16 0) = 0 := by
  rw [element, word_eq (a := 0#128) fun i _ => by rw [bitAt_zeros, BitVec.getLsbD_zero]]
  exact BinaryField.value_zero low

theorem bitAt_xorBytes {a b : List UInt8} (ha : a.length = 16) (hb : b.length = 16) {i : ℕ}
    (hi : i < 128) :
    bitAt (xorBytes a b) i = (bitAt a i ^^ bitAt b i) := by
  have hbyte : i / 8 < 16 := by omega
  unfold bitAt xorBytes
  rw [List.getD_eq_getElem _ _ (by rw [List.length_zipWith, ha, hb]; exact hbyte),
    List.getElem_zipWith, List.getD_eq_getElem _ _ (ha.symm ▸ hbyte),
      List.getD_eq_getElem _ _ (hb.symm ▸ hbyte), UInt8.toNat_xor,
    Nat.testBit_xor]

theorem element_xorBytes {a b : List UInt8} (ha : a.length = 16) (hb : b.length = 16) :
    element (xorBytes a b) = element a + element b := by
  rw [element, word_eq (a := word a ^^^ word b) fun i hi => by
    rw [bitAt_xorBytes ha hb hi, BitVec.getLsbD_xor, getLsbD_word a hi, getLsbD_word b hi]]
  exact BinaryField.value_xor low _ _

/-! ## The shift -/

/-- A byte behind the lowest bit of the one before. -/
theorem testBit_shifted (previous byte : UInt8) {j : ℕ} (hj : j < 8) :
    ((byte >>> 1) ||| (if previous &&& 1 != 0 then 0x80 else 0)).toNat.testBit j =
      if j = 7 then previous.toNat.testBit 0 else byte.toNat.testBit (j + 1) := by
  have hcarry : (previous &&& 1 != 0) = previous.toNat.testBit 0 := by
    rw [Nat.testBit_zero, Bool.eq_iff_iff, bne_iff_ne, ne_eq, ← UInt8.toNat_inj, UInt8.toNat_and,
      decide_eq_true_eq]
    show ¬previous.toNat &&& 1 = 0 ↔ _
    rw [Nat.and_one_is_mod]
    omega
  rw [UInt8.toNat_or, Nat.testBit_or, UInt8.toNat_shiftRight, hcarry]
  show ((byte.toNat >>> 1).testBit j || _) = _
  rw [Nat.testBit_shiftRight, Nat.add_comm 1 j]
  by_cases h7 : j = 7
  · subst h7
    rw [if_pos rfl, Nat.testBit_lt_two_pow byte.toNat_lt, Bool.false_or]
    cases previous.toNat.testBit 0 <;> rfl
  · rw [if_neg h7]
    have hlow : (if previous.toNat.testBit 0 then 0x80 else 0 : UInt8).toNat.testBit j = false := by
      split
      · show (2 ^ 7).testBit j = false
        exact Nat.testBit_two_pow_of_ne (Ne.symm h7)
      · exact Nat.zero_testBit j
    rw [hlow, Bool.or_false]

theorem bitAt_gcmShiftRight {v : List UInt8} (hv : v.length = 16) {i : ℕ} (hi : i < 128) :
    bitAt (gcmShiftRight v) i = (decide (1 ≤ i) && bitAt v (i - 1)) := by
  have hbyte : i / 8 < v.length := by omega
  unfold bitAt
  rw [List.getD_eq_getElem _ _ (by rw [length_gcmShiftRight]; exact hbyte)]
  unfold gcmShiftRight
  rw [List.getElem_zipWith, testBit_shifted _ _ (by omega)]
  by_cases h7 : 7 - i % 8 = 7
  · rw [if_pos h7]
    by_cases h0 : i / 8 = 0
    · have hzero : i = 0 := by omega
      subst hzero
      simp
    · have hbefore : (i - 1) / 8 = i / 8 - 1 := by omega
      have hlast : 7 - (i - 1) % 8 = 0 := by omega
      rw [List.getElem_cons, dif_neg h0, decide_eq_true (by omega), Bool.true_and, hlast,
        List.getD_eq_getElem _ _ (show (i - 1) / 8 < v.length by omega)]
      simp only [hbefore]
  · have hsame : (i - 1) / 8 = i / 8 := by omega
    have hnext : 7 - (i - 1) % 8 = 7 - i % 8 + 1 := by omega
    rw [if_neg h7, decide_eq_true (by omega), Bool.true_and, hnext, hsame,
      List.getD_eq_getElem _ _ hbyte]

/-- A step of the product: `v` shifted, with the modulus for the bit that is shifted out. -/
def shifted (v : List UInt8) : List UInt8 :=
  if v.getD 15 0 &&& 1 != 0 then (gcmShiftRight v).modifyHead (· ^^^ 0xE1) else gcmShiftRight v

theorem bitAt_modifyHead {v : List UInt8} (hv : v.length = 16) {i : ℕ} (hi : i < 128) :
    bitAt (v.modifyHead (· ^^^ 0xE1)) i = (bitAt v i ^^ low.getLsbD i) := by
  obtain ⟨c, v, rfl⟩ := List.exists_cons_of_length_eq_add_one hv
  rw [List.modifyHead_cons]
  unfold bitAt
  by_cases h0 : i / 8 = 0
  · have hlow : ∀ j < 8, (0xE1 : UInt8).toNat.testBit (7 - j) = low.getLsbD j := by decide
    rw [h0, List.getD_cons_zero, List.getD_cons_zero, UInt8.toNat_xor, Nat.testBit_xor,
      ← hlow i (by omega), Nat.mod_eq_of_lt (by omega)]
  · obtain ⟨k, hk⟩ := Nat.exists_eq_succ_of_ne_zero h0
    have hhigh : low.getLsbD i = false := by
      rw [BitVec.getLsbD_ofNat, Nat.testBit_lt_two_pow (show 0x87 < 2 ^ i from
        Nat.lt_of_lt_of_le (by decide : 0x87 < 2 ^ 8) (Nat.pow_le_pow_right (by omega) (by omega))),
          Bool.and_false]
    rw [hk, List.getD_cons_succ, List.getD_cons_succ, hhigh, Bool.xor_false]

theorem word_shifted {v : List UInt8} (hv : v.length = 16) :
    word (shifted v) = double low (word v) := by
  have hout : (v.getD 15 0 &&& 1 != 0) = (word v).getLsbD 127 := by
    rw [getLsbD_word v (by omega)]
    show _ = (v.getD 15 0).toNat.testBit 0
    rw [Nat.testBit_zero, Bool.eq_iff_iff, bne_iff_ne, ne_eq, ← UInt8.toNat_inj, UInt8.toNat_and,
      decide_eq_true_eq]
    show ¬(v.getD 15 0).toNat &&& 1 = 0 ↔ _
    rw [Nat.and_one_is_mod]
    omega
  refine word_eq fun i hi => ?_
  have hshift : bitAt (gcmShiftRight v) i = (word v <<< 1).getLsbD i := by
    rw [bitAt_gcmShiftRight hv hi, BitVec.getLsbD_shiftLeft, decide_eq_true hi, Bool.true_and]
    by_cases h1 : 1 ≤ i
    · rw [decide_eq_true h1, decide_eq_false (by omega), getLsbD_word v (by omega)]
      rfl
    · rw [decide_eq_false h1, decide_eq_true (by omega)]
      rfl
  unfold shifted double
  rw [hout, BitVec.getLsbD_xor, ← hshift]
  show bitAt (if (word v).getLsbD 127 then _ else _) i =
    (_ ^^ (if (word v).getLsbD 127 then low else 0#128).getLsbD i)
  cases (word v).getLsbD 127 with
  | true => exact bitAt_modifyHead (by rw [length_gcmShiftRight, hv]) hi
  | false =>
    rw [if_neg Bool.false_ne_true, if_neg Bool.false_ne_true, BitVec.getLsbD_zero, Bool.xor_false]

theorem length_shifted {v : List UInt8} (hv : v.length = 16) : (shifted v).length = 16 := by
  unfold shifted
  split
  · rw [List.length_modifyHead, length_gcmShiftRight, hv]
  · rw [length_gcmShiftRight, hv]

theorem element_shifted {v : List UInt8} (hv : v.length = 16) :
    element (shifted v) = ξ * element v := by
  rw [element, word_shifted hv, BinaryField.value_double low (by decide)]
  rfl

/-! ## The product -/

/-- A bit of a block as a coefficient. -/
noncomputable def bitCoefficient (x : List UInt8) (i : ℕ) : Gf128 :=
  algebraMap (ZMod 2) Gf128 (coefficient (bitAt x i))

theorem element_eq_sum (x : List UInt8) :
    element x = ∑ i ∈ Finset.range 128, bitCoefficient x i * ξ ^ i := by
  rw [element, BinaryField.value_eq_sum]
  refine Finset.sum_congr rfl fun i hi => ?_
  rw [getLsbD_word x (Finset.mem_range.1 hi)]
  rfl

/-- Behind the steps from bit `k` on, the bits have selected the multiples of `v` by the powers of
`ξ`. -/
theorem element_gcmMulBits (x : List UInt8) (m : ℕ) :
    ∀ (k : ℕ) {z v : List UInt8}, z.length = 16 → v.length = 16 →
    element (gcmMulBits x (List.range' k m) z v) =
      element z + (∑ i ∈ Finset.range m, bitCoefficient x (k + i) * ξ ^ i) * element v := by
  induction m with
  | zero =>
    intro k z v _ _
    rw [Finset.range_zero, Finset.sum_empty, zero_mul, add_zero]
    rfl
  | succ m ih =>
    intro k z v hz hv
    have hadd : element (if bitAt x k then xorBytes z v else z) =
        element z + bitCoefficient x k * element v := by
      unfold bitCoefficient
      cases bitAt x k with
      | true => rw [if_pos rfl, element_xorBytes hz hv, coefficient, if_pos rfl, map_one, one_mul]
      | false =>
        rw [if_neg Bool.false_ne_true, coefficient, if_neg Bool.false_ne_true, map_zero, zero_mul,
          add_zero]
    have hlength : (if bitAt x k then xorBytes z v else z).length = 16 := by
      split
      · rw [length_xorBytes, hz, hv, Nat.min_self]
      · exact hz
    have hterm (i : ℕ) : bitCoefficient x (k + (i + 1)) * ξ ^ (i + 1) =
        ξ * (bitCoefficient x (k + 1 + i) * ξ ^ i) := by
      rw [show k + (i + 1) = k + 1 + i by omega]
      ring
    rw [List.range'_succ]
    show element
      (gcmMulBits x (List.range' (k + 1) m) (if bitAt x k then xorBytes z v else z) (shifted v)) = _
    rw [ih (k + 1) hlength (length_shifted hv), hadd, element_shifted hv, Finset.sum_range_succ',
      Finset.sum_congr rfl fun i _ => hterm i, ← Finset.mul_sum, pow_zero, mul_one, Nat.add_zero]
    generalize ∑ i ∈ Finset.range m, bitCoefficient x (k + 1 + i) * ξ ^ i = s
    ring

theorem element_gcmMul (x : List UInt8) {h : List UInt8} (hh : h.length = 16) :
    element (gcmMul x h) = element x * element h := by
  unfold gcmMul
  rw [List.range_eq_range', element_gcmMulBits x 128 0 List.length_replicate hh,
    element_zeros, zero_add, element_eq_sum x]
  simp only [Nat.zero_add]

/-! ## The hash -/

/-- The polynomial of a list of coefficients, the last one that of `X`. -/
noncomputable def hashPoly : List Gf128 → Gf128[X]
  | [] => 0
  | c :: cs => C c * X ^ (cs.length + 1) + hashPoly cs

theorem element_ghashBlock {h y block : List UInt8} (hh : h.length = 16) (hy : y.length = 16)
    (hblock : block.length = 16) :
    element (ghashBlock y h block) = (element y + element block) * element h := by
  rw [ghashBlock, element_gcmMul _ hh, element_xorBytes hy hblock]

theorem element_foldl {h : List UInt8} (hh : h.length = 16) (blocks : List (List UInt8)) :
    ∀ {y : List UInt8}, y.length = 16 → (∀ block ∈ blocks, block.length = 16) →
      element (blocks.foldl (fun y block => ghashBlock y h block) y) =
        element y * element h ^ blocks.length +
          (hashPoly (blocks.map element)).eval (element h) := by
  induction blocks with
  | nil =>
    intro y _ _
    rw [List.foldl_nil, List.length_nil, pow_zero, mul_one, List.map_nil, hashPoly,
      eval_zero, add_zero]
  | cons block blocks ih =>
    intro y hy hblocks
    have hblock := hblocks block List.mem_cons_self
    rw [List.foldl_cons,
      ih (length_ghashBlock hh y block) fun b hb => hblocks b (List.mem_cons_of_mem _ hb),
        element_ghashBlock hh hy hblock, List.length_cons, List.map_cons, hashPoly, eval_add,
        eval_mul, eval_C, eval_pow,
      eval_X, List.length_map]
    ring

/-- `gcm_mul` multiplies residues, and `ghash_block` over a list of blocks evaluates their
polynomial at `h`. -/
theorem ghash_polynomial {h : List UInt8} (hh : h.length = 16) :
    (∀ x : List UInt8, x.length = 16 →
      (gcmMul x h).length = 16 ∧ element (gcmMul x h) = element x * element h) ∧
      ∀ blocks : List (List UInt8), (∀ block ∈ blocks, block.length = 16) →
        element (blocks.foldl (fun y block => ghashBlock y h block) (List.replicate 16 0)) =
          (hashPoly (blocks.map element)).eval (element h) := by
  refine ⟨fun x _ => ⟨length_gcmMulBits x _ List.length_replicate hh, element_gcmMul x hh⟩,
    fun blocks hblocks => ?_⟩
  rw [element_foldl hh blocks List.length_replicate hblocks, element_zeros, zero_mul, zero_add]

/-- Two blocks, a one and an `X`. -/
theorem ghash_polynomial_two :
    element ([0x80 :: List.replicate 15 0, 0x40 :: List.replicate 15 0].foldl
      (fun y block => ghashBlock y (List.replicate 16 0x66) block) (List.replicate 16 0)) =
    (hashPoly ([0x80 :: List.replicate 15 0, 0x40 :: List.replicate 15 0].map element)).eval
      (element (List.replicate 16 0x66)) :=
  (ghash_polynomial (h := List.replicate 16 0x66) rfl).2
    [0x80 :: List.replicate 15 0, 0x40 :: List.replicate 15 0]
    (by simp)

end Ghash

end MinervaOS.Crypto
