import MinervaOS.Crypto.AesInPlace
import MinervaOS.Lib.BinaryField
import MinervaOS.Lib.Rijndael
import Mathlib.Algebra.CharP.Algebra

/-!
# AES-128 over the field of 256 elements

A byte is a residue modulo `X ^ 8 + X ^ 4 + X ^ 3 + X + 1`, which the table of the bytes shows to be
irreducible, for it has an inverse of each. Over this field the table is the inverse with an affine
map of the bits behind it, and the cipher of the driver is the Rijndael cipher (`aes_standard`).
-/

namespace MinervaOS.Crypto

namespace AesStandard

open BinaryField (value coordinate coefficient double mul)
open Rijndael (Table)

/-- The coefficients of the modulus below `X ^ 8`. -/
abbrev low : BitVec 8 := 0x1B#8

abbrev Gf256 := BinaryField.Residue low

noncomputable abbrev ξ : Gf256 := BinaryField.root low

/-- A byte as an element of the field. -/
noncomputable def element (b : UInt8) : Gf256 := value low b.toBitVec

theorem element_bijective : Function.Bijective element := by
  constructor
  · intro a b h
    exact UInt8.toBitVec_inj.1 (BinaryField.value_injective low h)
  · intro x
    obtain ⟨a, ha⟩ := BinaryField.value_surjective low x
    exact ⟨UInt8.ofBitVec a, ha⟩

theorem element_xor (a b : UInt8) : element (a ^^^ b) = element a + element b :=
  BinaryField.value_xor low _ _

theorem element_zero : element 0 = 0 := BinaryField.value_zero low

theorem element_one : element 1 = 1 := BinaryField.value_one low (by decide)

theorem forall_byte {p : UInt8 → Prop} (h : ∀ n < 256, p (UInt8.ofNat n)) (b : UInt8) : p b := by
  have hb := h b.toNat b.toNat_lt
  rwa [UInt8.ofNat_toNat] at hb

theorem xtime_double : ∀ n < 256,
    (aesXtime (UInt8.ofNat n)).toBitVec = double low (UInt8.ofNat n).toBitVec := by
  decide +kernel

theorem element_xtime (a : UInt8) : element (aesXtime a) = ξ * element a := by
  have hdouble :=
    @forall_byte (fun a => (aesXtime a).toBitVec = double low a.toBitVec) xtime_double a
  rw [element, hdouble, BinaryField.value_double low (by decide)]
  rfl

/-! ## The table of the bytes -/

/-- Each bit with the four bits above it, cyclically, and a constant. -/
noncomputable def affine (x : Gf256) : Gf256 :=
  ∑ i : Fin 8, algebraMap (ZMod 2) Gf256
    (coordinate low x i + coordinate low x (i + 4 : Fin 8) + coordinate low x (i + 5 : Fin 8) +
      coordinate low x (i + 6 : Fin 8) + coordinate low x (i + 7 : Fin 8) +
      coordinate low (element 0x63) i) * ξ ^ (i : ℕ)

def affineWord (b : BitVec 8) : BitVec 8 :=
  b ^^^ b.rotateLeft 1 ^^^ b.rotateLeft 2 ^^^ b.rotateLeft 3 ^^^ b.rotateLeft 4 ^^^ 0x63#8

theorem bits_affineWord : ∀ n < 256, ∀ i : Fin 8,
    coefficient ((affineWord (BitVec.ofNat 8 n)).getLsbD i) =
      coefficient ((BitVec.ofNat 8 n).getLsbD i) +
      coefficient ((BitVec.ofNat 8 n).getLsbD (i + 4 : Fin 8)) +
      coefficient ((BitVec.ofNat 8 n).getLsbD (i + 5 : Fin 8)) +
      coefficient ((BitVec.ofNat 8 n).getLsbD (i + 6 : Fin 8)) +
      coefficient ((BitVec.ofNat 8 n).getLsbD (i + 7 : Fin 8)) +
      coefficient ((0x63#8).getLsbD i) := by
  decide +kernel

theorem affine_value (b : BitVec 8) : affine (value low b) = value low (affineWord b) := by
  have hbits := bits_affineWord b.toNat b.isLt
  rw [BitVec.ofNat_toNat, BitVec.setWidth_eq] at hbits
  rw [BinaryField.value_eq_sum low (affineWord b), Finset.sum_range, affine]
  apply Finset.sum_congr rfl
  intro i _
  rw [hbits i]
  simp only [BinaryField.coordinate_value, element]
  rfl

/-- The inverse of the affine map. -/
def unaffineWord (b : BitVec 8) : BitVec 8 :=
  b.rotateLeft 1 ^^^ b.rotateLeft 3 ^^^ b.rotateLeft 6 ^^^ 0x05#8

/-- Before the affine map the table has the inverses. -/
theorem table_inverses : ∀ n < 256,
    let entry := (subByte (UInt8.ofNat n)).toBitVec
    affineWord (unaffineWord entry) = entry ∧
      if n = 0 then unaffineWord entry = 0#8
      else mul low (BitVec.ofNat 8 n) (unaffineWord entry) = 1#8 := by
  decide +kernel

theorem unaffine_entry (b : UInt8) :
    affineWord (unaffineWord (subByte b).toBitVec) = (subByte b).toBitVec := by
  have hentry := (table_inverses b.toNat b.toNat_lt).1
  rwa [UInt8.ofNat_toNat] at hentry

theorem unaffine_entry_zero : unaffineWord (subByte 0).toBitVec = 0#8 :=
  (table_inverses 0 (by decide)).2

theorem mul_unaffine_entry {b : UInt8} (h : b ≠ 0) :
    mul low b.toBitVec (unaffineWord (subByte b).toBitVec) = 1#8 := by
  have hpos : b.toNat ≠ 0 := fun h0 => h (UInt8.toNat_inj.1 h0)
  have hentry := (table_inverses b.toNat b.toNat_lt).2
  rw [UInt8.ofNat_toNat, if_neg hpos] at hentry
  have hbits : BitVec.ofNat 8 b.toNat = b.toBitVec := BitVec.ofNat_toNat _ _ ▸ BitVec.setWidth_eq _
  rwa [hbits] at hentry

theorem modulus_irreducible : Irreducible (BinaryField.modulus low) := by
  apply BinaryField.irreducible_of_inverses low (by decide)
  intro a ha
  have hbyte : UInt8.ofBitVec a ≠ 0 := fun h => ha (congrArg UInt8.toBitVec h)
  exact ⟨_, mul_unaffine_entry hbyte⟩

instance : Fact (Irreducible (BinaryField.modulus low)) := ⟨modulus_irreducible⟩

/-- The table has the inverses with the affine map behind. -/
theorem element_subByte (b : UInt8) :
    element (subByte b) = Rijndael.subByte affine (element b) := by
  have hinverse : (element b)⁻¹ = value low (unaffineWord (subByte b).toBitVec) := by
    by_cases h : b = 0
    · rw [h, element_zero, inv_zero, unaffine_entry_zero]
      exact (BinaryField.value_zero low).symm
    · have hmul := congrArg (value low) (mul_unaffine_entry h)
      rw [BinaryField.value_mul low (by decide), BinaryField.value_one low (by decide)] at hmul
      exact (eq_inv_of_mul_eq_one_right hmul).symm
  rw [Rijndael.subByte, hinverse, affine_value, unaffine_entry]
  rfl

instance : CharP Gf256 2 :=
  charP_of_injective_algebraMap (algebraMap (ZMod 2) Gf256).injective 2

/-! ## The state -/

/-- The bytes of a block by row and column. -/
noncomputable def table (s : List UInt8) : Table Gf256 := fun r c => element (s.getD (r + 4 * c) 0)

theorem xorBytes_getD {a b : List UInt8} {i : ℕ} (ha : i < a.length) (hb : i < b.length) :
    (xorBytes a b).getD i 0 = a.getD i 0 ^^^ b.getD i 0 := by
  have hlength : i < (xorBytes a b).length := by
    rw [GcmLoops.length_xorBytes]
    omega
  rw [List.getD_eq_getElem _ _ hlength, List.getD_eq_getElem _ _ ha, List.getD_eq_getElem _ _ hb]
  exact List.getElem_zipWith

/-- A column mixed over itself is the product with the polynomial. -/
theorem element_mixColumn (a : Fin 4 → UInt8) (r : Fin 4) :
    element ((mixColumn (a 0) (a 1) (a 2) (a 3)).getD r 0) =
      Rijndael.mixColumn ξ (fun i => element (a i)) r := by
  have htwo : (2 : Gf256) = 0 := CharTwo.two_eq_zero
  rw [Rijndael.mixColumn_eq]
  fin_cases r
  · simp [mixColumn, element_xor, element_xtime]
    linear_combination element (a 0) * htwo
  · simp [mixColumn, element_xor, element_xtime]
    linear_combination element (a 1) * htwo
  · simp [mixColumn, element_xor, element_xtime]
    linear_combination element (a 2) * htwo
  · simp [mixColumn, element_xor, element_xtime]
    linear_combination element (a 3) * htwo

/-- Byte `r` of column `c` is byte `r` of the mixed column. -/
theorem mixColumns_getD (s : List UInt8) (r c : Fin 4) :
    let column := fun i : Fin 4 => s.getD (i + 4 * c) 0
    (aesMixColumns s).getD (r + 4 * c) 0 =
      (mixColumn (column 0) (column 1) (column 2) (column 3)).getD r 0 := by
  fin_cases c <;> fin_cases r <;> rfl

theorem table_mixColumns (s : List UInt8) :
    table (aesMixColumns s) = Rijndael.mixColumns ξ (table s) := by
  funext r c
  rw [table, mixColumns_getD]
  exact element_mixColumn (fun i => s.getD (i + 4 * c) 0) r

section Stages

variable {s : List UInt8} (h : s.length = 16)
include h

theorem table_addRoundKey {roundKey : List UInt8} (hkey : 16 ≤ roundKey.length) :
    table (aesAddRoundKey s roundKey) = table s + table roundKey := by
  funext r c
  have hr := r.isLt
  have hc := c.isLt
  rw [table, aesAddRoundKey, xorBytes_getD (by omega) (by omega), element_xor]
  rfl

theorem table_subBytes : table (aesSubBytes s) = Rijndael.subBytes affine (table s) := by
  funext r c
  have hr := r.isLt
  have hc := c.isLt
  have hget : (aesSubBytes s).getD (r + 4 * c) 0 = subByte (s.getD (r + 4 * c) 0) := by
    rw [aesSubBytes, List.getD_eq_getElem _ _ (by rw [List.length_map]; omega), List.getElem_map,
      List.getD_eq_getElem _ _ (by omega)]
  rw [table, hget, element_subByte]
  rfl

omit h in
theorem table_shiftRows (s : List UInt8) :
    table (aesShiftRows s) = Rijndael.shiftRows (table s) := by
  funext r c
  have hr := r.isLt
  have hc := c.isLt
  have hget : (aesShiftRows s).getD (r + 4 * c) 0 = s.getD (r + 4 * (c + r : Fin 4)) 0 := by
    rw [aesShiftRows, List.getD_eq_getElem _ _ (by rw [List.length_map, List.length_range]; omega),
      List.getElem_map, List.getElem_range, Fin.val_add]
    congr 1
    omega
  rw [table, hget]
  rfl

end Stages

/-! ## The round keys -/

open AesInPlace (expanded expanded_succ length_expanded)

theorem element_rcon {k : ℕ} (hk : k < 10) : element (AesInPlace.rcon.getD k 0) = ξ ^ k := by
  induction k with
  | zero => exact element_one.trans (pow_zero _).symm
  | succ k ih =>
    have hdouble : ∀ k < 9,
        AesInPlace.rcon.getD (k + 1) 0 = aesXtime (AesInPlace.rcon.getD k 0) := by
      decide
    rw [hdouble k (by omega), element_xtime, ih (by omega), pow_succ, mul_comm]

/-- The bytes of the word that a pass adds. -/
theorem expandWord_getD {roundKeys : List UInt8} {j : ℕ} (hlength : roundKeys.length = 16 + 4 * j)
    (r : Fin 4) :
    let last := fun i => roundKeys.getD (4 * (j + 3) + i) 0
    (expandWord roundKeys).getD (4 * (j + 4) + r) 0 = roundKeys.getD (4 * j + r) 0 ^^^
      if j % 4 = 0 then subByte (last (r + 1 : Fin 4)) ^^^
        (if r = 0 then AesInPlace.rcon.getD (j / 4) 0 else 0) else last r := by
  intro last
  have hr := r.isLt
  have hlast (i : ℕ) : roundKeys.getD (16 + 4 * j - 4 + i) 0 = last i := by
    rw [show 16 + 4 * j - 4 + i = 4 * (j + 3) + i by omega]
  rw [expandWord]
  dsimp only
  rw [List.getD_append_right _ _ _ _ (by omega), hlength,
    show 4 * (j + 4) + (r : ℕ) - (16 + 4 * j) = r by omega,
    List.getD_eq_getElem _ _ (by rw [List.length_map, List.length_range]; omega), List.getElem_map,
    List.getElem_range, show 16 + 4 * j - 16 + (r : ℕ) = 4 * j + r by omega]
  simp only [hlast]
  congr 1
  by_cases hblock : j % 4 = 0
  · rw [if_pos hblock, if_pos (by omega), show (16 + 4 * j) / 16 - 1 = j / 4 by omega]
    fin_cases r
    · rfl
    · exact (UInt8.xor_zero).symm
    · exact (UInt8.xor_zero).symm
    · exact (UInt8.xor_zero).symm
  · rw [if_neg hblock, if_neg (by omega)]
    fin_cases r
    · rfl
    · rfl
    · rfl
    · rfl

/-- The words of the round keys. -/
theorem element_expanded {key : List UInt8} (hkey : key.length = 16) (j : ℕ) (hj : j ≤ 40) :
    ∀ i < 4 + j, ∀ r : Fin 4, element ((expanded key j).getD (4 * i + r) 0) =
      Rijndael.keyWord ξ affine (table key) i r := by
  induction j with
  | zero =>
    intro i hi r
    rw [Rijndael.keyWord_of_lt ξ affine _ hi, table, Nat.add_comm]
    rfl
  | succ j ih =>
    intro i hi r
    have hlength := length_expanded hkey j
    have hold := ih (by omega)
    have hr := r.isLt
    rw [expanded_succ]
    by_cases hlt : i < 4 + j
    · have hfront : (expandWord (expanded key j)).getD (4 * i + r) 0 =
          (expanded key j).getD (4 * i + r) 0 := by
        rw [expandWord]
        dsimp only
        rw [List.getD_append _ _ _ _ (by omega)]
      rw [hfront, hold i hlt r]
    · have hi' : i = j + 4 := by omega
      have hnext := expandWord_getD hlength r
      rw [hi', hnext, Rijndael.keyWord_add_four, element_xor, hold j (by omega) r, Pi.add_apply]
      congr 1
      by_cases hblock : j % 4 = 0
      · rw [if_pos hblock, if_pos hblock, element_xor, element_subByte,
          hold (j + 3) (by omega) (r + 1)]
        by_cases hfirst : r = 0
        · rw [if_pos hfirst, element_rcon (by omega), Pi.add_apply, Rijndael.rcon, if_pos hfirst]
          rfl
        · rw [if_neg hfirst, element_zero, Pi.add_apply, Rijndael.rcon, if_neg hfirst]
          rfl
      · rw [if_neg hblock, if_neg hblock]
        exact hold (j + 3) (by omega) r

/-! ## The cipher -/

open AesInPlace (rounds rounds_succ length_rounds)

theorem aesKeyExpand_eq (key : List UInt8) : aesKeyExpand key = expanded key 40 := by
  rw [aesKeyExpand, expanded]

section Cipher

variable {key : List UInt8} (hkey : key.length = 16)
include hkey

theorem table_roundKey {k : ℕ} (hk : k ≤ 10) :
    table ((aesKeyExpand key).drop (16 * k)) = Rijndael.roundKey ξ affine (table key) k := by
  funext r c
  have hc := c.isLt
  rw [table, Rijndael.roundKey, ← element_expanded hkey 40 le_rfl _ (by omega) r, aesKeyExpand_eq,
    List.getD_eq_getElem?_getD, List.getElem?_drop, ← List.getD_eq_getElem?_getD,
    show 16 * k + ((r : ℕ) + 4 * (c : ℕ)) = 4 * (4 * k + c) + r by omega]

theorem table_rounds {state : List UInt8} (hstate : state.length = 16) {n : ℕ} (hn : n ≤ 9) :
    table (rounds (aesKeyExpand key) state n) =
      (List.range n).foldl (fun s round => Rijndael.middle ξ affine (table key) (round + 1) s)
        (table state) := by
  have hkeys := GcmLoops.length_aesKeyExpand hkey
  induction n with
  | zero => rw [rounds, List.range_zero, List.foldl_nil, List.foldl_nil]
  | succ n ih =>
    have hlength := length_rounds hkeys hstate (by omega : n ≤ 9)
    rw [rounds_succ, table_addRoundKey (AesInPlace.length_mixColumns _)
      (by rw [List.length_drop, hkeys]; omega), table_mixColumns, table_shiftRows,
      table_subBytes hlength, ih (by omega), table_roundKey hkey (by omega), List.range_succ,
      List.foldl_append, List.foldl_cons, List.foldl_nil, Rijndael.middle]

theorem table_encryptBlock {input : List UInt8} (hinput : input.length = 16) :
    table (aes128EncryptBlock key input) = Rijndael.cipher ξ affine (table key) (table input) := by
  have hkeys := GcmLoops.length_aesKeyExpand hkey
  have hstart := AesInPlace.length_addRoundKey hinput (by omega : 16 ≤ (aesKeyExpand key).length)
  have hrounds := length_rounds hkeys hstart le_rfl
  have hfirst := table_roundKey hkey (Nat.zero_le 10)
  rw [Nat.mul_zero, List.drop_zero] at hfirst
  have hblock : aes128EncryptBlock key input = aesAddRoundKey (aesShiftRows (aesSubBytes
      (rounds (aesKeyExpand key) (aesAddRoundKey input (aesKeyExpand key)) 9)))
      ((aesKeyExpand key).drop (16 * 10)) := by
    unfold aes128EncryptBlock rounds
    rfl
  rw [hblock, table_addRoundKey (AesInPlace.length_shiftRows _) (by rw [List.length_drop, hkeys]),
    table_shiftRows, table_subBytes hrounds, table_rounds hkey hstart le_rfl,
    table_addRoundKey hinput (by omega), hfirst, table_roundKey hkey le_rfl, Rijndael.cipher]

end Cipher

/-- The bytes are the elements of the field; the table, the round keys, the rows, the columns and
the whole block are what the cipher makes of them. -/
theorem aes_standard {key input : List UInt8} (hkey : key.length = 16) (hinput : input.length = 16)
    {fuel : ℕ} (hfuel : 40 < fuel) :
    Function.Bijective element ∧
    (∀ b : UInt8, element (aesSbox.getD b.toNat 0) = Rijndael.subByte affine (element b)) ∧
    (∀ s : List UInt8, s.length = 16 →
      table (AesInPlace.aesShiftRows s) = Rijndael.shiftRows (table s) ∧
      table (AesInPlace.aesMixColumns s) = Rijndael.mixColumns ξ (table s)) ∧
    (∃ roundKeys, AesInPlace.aesKeyExpand fuel key (List.replicate 176 0) = some roundKeys ∧
      roundKeys.length = 176 ∧ ∀ i < 44, ∀ r : Fin 4,
        element (roundKeys.getD (4 * i + r) 0) = Rijndael.keyWord ξ affine (table key) i r) ∧
    ∃ output, AesInPlace.aes128EncryptBlock fuel key input = some output ∧ output.length = 16 ∧
      table output = Rijndael.cipher ξ affine (table key) (table input) := by
  refine ⟨element_bijective, element_subByte, ?_, ?_, ?_⟩
  · intro s hs
    rw [AesInPlace.shiftRows_eq hs, AesInPlace.mixColumns_eq hs]
    exact ⟨table_shiftRows s, table_mixColumns s⟩
  · refine ⟨_, AesInPlace.keyExpand_eq hkey hfuel, GcmLoops.length_aesKeyExpand hkey, ?_⟩
    intro i hi r
    rw [aesKeyExpand_eq]
    exact element_expanded hkey 40 le_rfl i (by omega) r
  · exact ⟨_, AesInPlace.encryptBlock_eq hkey hinput hfuel, GcmLoops.length_encryptBlock hkey input,
      table_encryptBlock hkey hinput⟩

theorem aes_standard_zeros : ∃ output,
    AesInPlace.aes128EncryptBlock 41 (List.replicate 16 0) (List.replicate 16 0) = some output ∧
    output.length = 16 ∧ table output =
      Rijndael.cipher ξ affine (table (List.replicate 16 0)) (table (List.replicate 16 0)) :=
  (aes_standard List.length_replicate List.length_replicate (by decide)).2.2.2.2

end AesStandard

end MinervaOS.Crypto
