import MinervaOS.Crypto.P256
import MinervaOS.Lib.Limbs
import Mathlib.Data.List.Basic
import Mathlib.Tactic.IntervalCases
import Mathlib.Tactic.NormNum

/-!
# Field elements and scalars of P-256, limb by limb

The functions of the source on its eight limbs. Each computes, on the number the limbs stand for,
what the function of the same name computes on numbers.
-/

namespace MinervaOS.Crypto

structure P256Fe where
  v : List UInt32
  length : v.length = 8
  deriving DecidableEq

namespace P256Fe

def value (a : P256Fe) : ℕ := Limbs.value a.v

theorem value_lt (a : P256Fe) : a.value < 2 ^ 256 := by
  have h := Limbs.value_lt a.v
  rwa [a.length] at h

theorem value_inj {a b : P256Fe} (h : a.value = b.value) : a = b := by
  have hv : a.v = b.v := Limbs.value_inj (a.length.trans b.length.symm) h
  cases a
  cases b
  congr

end P256Fe

namespace Limbwise

open Limbs

def p256P : P256Fe := ⟨[0xFFFFFFFF, 0xFFFFFFFF, 0xFFFFFFFF, 0x00000000,
  0x00000000, 0x00000000, 0x00000001, 0xFFFFFFFF], rfl⟩

def p256N : P256Fe := ⟨[0xFC632551, 0xF3B9CAC2, 0xA7179E84, 0xBCE6FAAD,
  0xFFFFFFFF, 0xFFFFFFFF, 0x00000000, 0xFFFFFFFF], rfl⟩

def p256NMinus2Be : List UInt8 := [
  0xFF, 0xFF, 0xFF, 0xFF, 0x00, 0x00, 0x00, 0x00, 0xFF, 0xFF, 0xFF, 0xFF, 0xFF, 0xFF, 0xFF, 0xFF,
  0xBC, 0xE6, 0xFA, 0xAD, 0xA7, 0x17, 0x9E, 0x84, 0xF3, 0xB9, 0xCA, 0xC2, 0xFC, 0x63, 0x25, 0x4F]

def p256BBe : List UInt8 := [
  0x5A, 0xC6, 0x35, 0xD8, 0xAA, 0x3A, 0x93, 0xE7, 0xB3, 0xEB, 0xBD, 0x55, 0x76, 0x98, 0x86, 0xBC,
  0x65, 0x1D, 0x06, 0xB0, 0xCC, 0x53, 0xB0, 0xF6, 0x3B, 0xCE, 0x3C, 0x3E, 0x27, 0xD2, 0x60, 0x4B]

def p256GxBe : List UInt8 := [
  0x6B, 0x17, 0xD1, 0xF2, 0xE1, 0x2C, 0x42, 0x47, 0xF8, 0xBC, 0xE6, 0xE5, 0x63, 0xA4, 0x40, 0xF2,
  0x77, 0x03, 0x7D, 0x81, 0x2D, 0xEB, 0x33, 0xA0, 0xF4, 0xA1, 0x39, 0x45, 0xD8, 0x98, 0xC2, 0x96]

def p256GyBe : List UInt8 := [
  0x4F, 0xE3, 0x42, 0xE2, 0xFE, 0x1A, 0x7F, 0x9B, 0x8E, 0xE7, 0xEB, 0x4A, 0x7C, 0x0F, 0x9E, 0x16,
  0x2B, 0xCE, 0x33, 0x57, 0x6B, 0x31, 0x5E, 0xCE, 0xCB, 0xB6, 0x40, 0x68, 0x37, 0xBF, 0x51, 0xF5]

/-- The four bytes at `at_`, the first the most significant. -/
def be32 (src : List UInt8) (at_ : ℕ) : UInt32 :=
  (src.getD at_ 0).toUInt32 <<< 24 ||| (src.getD (at_ + 1) 0).toUInt32 <<< 16
    ||| (src.getD (at_ + 2) 0).toUInt32 <<< 8 ||| (src.getD (at_ + 3) 0).toUInt32

def p256FeZero : P256Fe := ⟨List.replicate 8 0, rfl⟩

def p256FeOne : P256Fe := ⟨[1, 0, 0, 0, 0, 0, 0, 0], rfl⟩

def p256FeFromBe32 (src : List UInt8) : P256Fe :=
  ⟨(List.range 8).map fun i => be32 src ((7 - i) * 4), rfl⟩

def p256FeToBe32 (src : P256Fe) : List UInt8 :=
  (List.range 8).flatMap fun i =>
    let value := src.v.getD (7 - i) 0
    [(value >>> 24).toUInt8, (value >>> 16).toUInt8, (value >>> 8).toUInt8, value.toUInt8]

def p256Cmp (a b : P256Fe) : Int := cmpDown a.v b.v 8

theorem subFrom_limbs (a b : P256Fe) : (subFrom a.v b.v 0).1.length = 8 :=
  (subFrom_spec (a.length.trans b.length.symm) (by decide)).1.trans a.length

theorem addFrom_limbs (a b : P256Fe) : (addFrom a.v b.v 0).1.length = 8 :=
  (addFrom_length (a.length.trans b.length.symm) 0).trans a.length

def p256RawSub (a b : P256Fe) : P256Fe × UInt32 :=
  (⟨(subFrom a.v b.v 0).1, subFrom_limbs a b⟩, (subFrom a.v b.v 0).2)

def p256RawAdd (a b : P256Fe) : P256Fe × UInt32 :=
  (⟨(addFrom a.v b.v 0).1, addFrom_limbs a b⟩, (addFrom a.v b.v 0).2.toUInt32)

def p256ReduceOnce (out : P256Fe) (carry : UInt32) : P256Fe :=
  if carry != 0 || p256Cmp out p256P ≥ 0 then (p256RawSub out p256P).1 else out

def p256FeAdd (a b : P256Fe) : P256Fe :=
  let (out, carry) := p256RawAdd a b
  p256ReduceOnce out carry

def p256FeSub (a b : P256Fe) : P256Fe :=
  let (out, borrow) := p256RawSub a b
  if borrow != 0 then (p256RawAdd out p256P).1 else out

/-- The remainder has a ninth limb for the bit shifted out of the eighth. -/
def remCmpMod (rem : List UInt32) (mod : P256Fe) : Int :=
  if rem.getD 8 0 != 0 then 1 else cmpDown rem mod.v 8

def remSubMod (rem : List UInt32) (mod : P256Fe) : List UInt32 :=
  let (out, borrow) := subFrom (rem.take 8) mod.v 0
  out ++ [rem.getD 8 0 - borrow]

def reduceFrom (product : List UInt32) (mod : P256Fe) : ℕ → List UInt32 → List UInt32
  | 0, rem => rem
  | bit + 1, rem =>
    let rem := shiftIn rem (getBit product bit)
    reduceFrom product mod bit (if remCmpMod rem mod ≥ 0 then remSubMod rem mod else rem)

def lowLimbs (rem : List UInt32) : P256Fe := ⟨(List.range 8).map fun i => rem.getD i 0, rfl⟩

def p256ReduceProductMod (product : List UInt32) (mod : P256Fe) : P256Fe :=
  lowLimbs (reduceFrom product mod 512 (List.replicate 9 0))

def p256FeMul (a b : P256Fe) : P256Fe :=
  p256ReduceProductMod (mulRows a.v b.v (List.replicate 16 0)) p256P

def p256ScalarMul (a b : P256Fe) : P256Fe :=
  p256ReduceProductMod (mulRows a.v b.v (List.replicate 16 0)) p256N

def p256PMinus2Be : List UInt8 := [
  0xFF, 0xFF, 0xFF, 0xFF, 0x00, 0x00, 0x00, 0x01, 0x00, 0x00, 0x00, 0x00, 0x00, 0x00, 0x00, 0x00,
  0x00, 0x00, 0x00, 0x00, 0xFF, 0xFF, 0xFF, 0xFF, 0xFF, 0xFF, 0xFF, 0xFF, 0xFF, 0xFF, 0xFF, 0xFD]

/-- Bit `bit` of an exponent held as big-endian bytes. -/
def tableBit (table : List UInt8) (bit : ℕ) : Bool :=
  (table.getD (31 - bit / 8) 0 >>> UInt8.ofNat (bit % 8)) &&& 1 != 0

def p256ExpPMinus2Bit (bit : ℕ) : Bool := tableBit p256PMinus2Be bit

def p256NMinus2Bit (bit : ℕ) : Bool := tableBit p256NMinus2Be bit

/-- Square and multiply over the bits of an exponent from `bit` down. -/
def powFrom (mul : P256Fe → P256Fe → P256Fe) (expBit : ℕ → Bool) (base : P256Fe) :
    ℕ → P256Fe → P256Fe
  | 0, result => result
  | bit + 1, result =>
    let result := mul result result
    powFrom mul expBit base bit (if expBit bit then mul result base else result)

def p256FeInv (a : P256Fe) : P256Fe := powFrom p256FeMul p256ExpPMinus2Bit a 256 p256FeOne

def p256ScalarInv (a : P256Fe) : P256Fe := powFrom p256ScalarMul p256NMinus2Bit a 256 p256FeOne

def p256FeEqual (a b : P256Fe) : Bool := p256Cmp a b == 0

def p256FeIsZero (a : P256Fe) : Bool := a.v.foldl (· ||| ·) 0 == 0

def p256FePrefix32 (a : P256Fe) : UInt32 := a.v.getD 7 0

def p256FeValidBe32 (src : List UInt8) : Bool := p256Cmp (p256FeFromBe32 src) p256P < 0

def p256ScalarValidBe32 (src : List UInt8) : Bool :=
  !p256FeIsZero (p256FeFromBe32 src) && p256Cmp (p256FeFromBe32 src) p256N < 0

def p256FeSubSmall (a : P256Fe) (value : UInt32) : P256Fe :=
  p256FeSub a ⟨[value, 0, 0, 0, 0, 0, 0, 0], rfl⟩

/-! ## What the loops do to the number -/

@[simp] theorem value_p256P : p256P.value = Crypto.p256P := by decide
@[simp] theorem value_p256N : p256N.value = Crypto.p256N := by decide
@[simp] theorem value_p256FeZero : p256FeZero.value = 0 := by decide
@[simp] theorem value_p256FeOne : p256FeOne.value = 1 := by decide

theorem cmp_spec (a b : P256Fe) :
    p256Cmp a b = if b.value < a.value then 1 else if a.value < b.value then -1 else 0 := by
  have h := cmpDown_spec (a := a.v) (b := b.v) (n := 8) a.length.ge b.length.ge
  rwa [List.take_of_length_le a.length.le, List.take_of_length_le b.length.le] at h

@[simp] theorem cmp_nonneg {a b : P256Fe} : 0 ≤ p256Cmp a b ↔ b.value ≤ a.value := by
  rw [cmp_spec]
  split
  · simp; omega
  · split <;> simp <;> omega

@[simp] theorem cmp_neg {a b : P256Fe} : p256Cmp a b < 0 ↔ a.value < b.value := by
  rw [← not_le, cmp_nonneg, not_le]

theorem rawSub_spec (a b : P256Fe) :
    (p256RawSub a b).2.toNat ≤ 1 ∧
      (p256RawSub a b).1.value + b.value = a.value + 2 ^ 256 * (p256RawSub a b).2.toNat := by
  have h := subFrom_spec (a.length.trans b.length.symm) (show (0 : UInt32).toNat ≤ 1 by decide)
  rw [a.length, UInt32.toNat_zero, Nat.add_zero] at h
  exact ⟨h.2.1, h.2.2⟩

theorem rawAdd_spec (a b : P256Fe) :
    (p256RawAdd a b).1.value + 2 ^ 256 * (p256RawAdd a b).2.toNat = a.value + b.value := by
  have h := addFrom_spec (a.length.trans b.length.symm)
    (show (0 : UInt64).toNat < 2 ^ 32 by decide)
  rw [a.length, UInt64.toNat_zero, Nat.add_zero] at h
  have ha := a.value_lt
  have hb := b.value_lt
  have hcarry : (addFrom a.v b.v 0).2.toNat < 2 ^ 32 := by
    unfold P256Fe.value at ha hb
    omega
  have hcast : (p256RawAdd a b).2.toNat = (addFrom a.v b.v 0).2.toNat := by
    rw [p256RawAdd, UInt64.toNat_toUInt32, Nat.mod_eq_of_lt hcarry]
  rw [hcast]
  exact h

theorem value_rawSub (a b : P256Fe) :
    (p256RawSub a b).1.value = (Crypto.p256RawSub a.value b.value).1 := by
  obtain ⟨hborrow, h⟩ := rawSub_spec a b
  have ha := a.value_lt
  have hb := b.value_lt
  have hout := (p256RawSub a b).1.value_lt
  simp only [Crypto.p256RawSub]
  omega

theorem borrow_rawSub (a b : P256Fe) :
    ((p256RawSub a b).2 != 0) = (Crypto.p256RawSub a.value b.value).2 := by
  obtain ⟨hborrow, h⟩ := rawSub_spec a b
  have ha := a.value_lt
  have hb := b.value_lt
  have hout := (p256RawSub a b).1.value_lt
  rw [Bool.eq_iff_iff, bne_iff_ne, ne_eq, ← UInt32.toNat_inj, UInt32.toNat_zero]
  simp only [Crypto.p256RawSub, decide_eq_true_eq]
  omega

theorem value_rawAdd (a b : P256Fe) :
    (p256RawAdd a b).1.value = (Crypto.p256RawAdd a.value b.value).1 := by
  have h := rawAdd_spec a b
  have hout := (p256RawAdd a b).1.value_lt
  simp only [Crypto.p256RawAdd]
  omega

theorem carry_rawAdd (a b : P256Fe) :
    (p256RawAdd a b).2.toNat = (Crypto.p256RawAdd a.value b.value).2 := by
  have h := rawAdd_spec a b
  have hout := (p256RawAdd a b).1.value_lt
  simp only [Crypto.p256RawAdd]
  omega

theorem value_reduceOnce (out : P256Fe) (carry : UInt32) :
    (p256ReduceOnce out carry).value = Crypto.p256ReduceOnce out.value carry.toNat := by
  have hcarry : (carry != 0) = (carry.toNat != 0) := by
    rw [Bool.eq_iff_iff, bne_iff_ne, bne_iff_ne, ne_eq, ne_eq, ← UInt32.toNat_inj,
      UInt32.toNat_zero]
  have hcmp : (p256Cmp out p256P ≥ 0) = (out.value ≥ Crypto.p256P) := by simp
  simp only [p256ReduceOnce, Crypto.p256ReduceOnce, hcarry, hcmp]
  split
  · rw [value_rawSub, value_p256P]
  · rfl

@[simp] theorem value_feAdd (a b : P256Fe) :
    (p256FeAdd a b).value = Crypto.p256FeAdd a.value b.value := by
  simp only [p256FeAdd, Crypto.p256FeAdd, value_reduceOnce, value_rawAdd, carry_rawAdd]

@[simp] theorem value_feSub (a b : P256Fe) :
    (p256FeSub a b).value = Crypto.p256FeSub a.value b.value := by
  simp only [p256FeSub, Crypto.p256FeSub, borrow_rawSub]
  split
  · rw [value_rawAdd, value_rawSub, value_p256P]
  · rw [value_rawSub]

/-! ## The reduction of a product -/

theorem rem_split {rem : List UInt32} (hl : rem.length = 9) :
    value rem = value (rem.take 8) + 2 ^ 256 * (rem.getD 8 0).toNat ∧
      value (rem.take 8) < 2 ^ 256 := by
  have hv := value_take_succ (a := rem) (i := 8) (by omega)
  have ht := Limbs.value_lt (rem.take 8)
  rw [List.length_take, hl] at ht
  rw [List.take_of_length_le hl.le] at hv
  exact ⟨hv, ht⟩

theorem remCmpMod_spec {rem : List UInt32} (hl : rem.length = 9) (mod : P256Fe) :
    remCmpMod rem mod ≥ 0 ↔ value rem ≥ mod.value := by
  have hm := mod.value_lt
  obtain ⟨hv, ht⟩ := rem_split hl
  rw [remCmpMod]
  split
  · rename_i h
    have htop : (rem.getD 8 0).toNat ≠ 0 := by
      rwa [bne_iff_ne, ne_eq, ← UInt32.toNat_inj, UInt32.toNat_zero] at h
    exact ⟨fun _ => by omega, fun _ => by decide⟩
  · rename_i h
    have htop : (rem.getD 8 0).toNat = 0 := by
      rwa [bne_iff_ne, ne_eq, not_not, ← UInt32.toNat_inj, UInt32.toNat_zero] at h
    have hcmp := cmpDown_spec (a := rem) (b := mod.v) (n := 8) (by omega) mod.length.ge
    rw [List.take_of_length_le mod.length.le] at hcmp
    rw [hcmp, hv, htop]
    change _ ↔ value (rem.take 8) + 2 ^ 256 * 0 ≥ value mod.v
    split
    · exact ⟨fun _ => by omega, fun _ => by decide⟩
    · split
      · exact ⟨fun hge => absurd hge (by decide), fun hge => by omega⟩
      · exact ⟨fun _ => by omega, fun _ => by decide⟩

theorem remSubMod_spec {rem : List UInt32} (hl : rem.length = 9) {mod : P256Fe}
    (hge : value rem ≥ mod.value) :
    (remSubMod rem mod).length = 9 ∧ value (remSubMod rem mod) = value rem - mod.value := by
  obtain ⟨hv, ht⟩ := rem_split hl
  have hl8 : (rem.take 8).length = 8 := by simp [hl]
  have hsub := subFrom_spec (hl8.trans mod.length.symm) (show (0 : UInt32).toNat ≤ 1 by decide)
  rw [hl8, UInt32.toNat_zero, Nat.add_zero] at hsub
  obtain ⟨hlen, hborrow, hout⟩ := hsub
  have hlt := Limbs.value_lt (subFrom (rem.take 8) mod.v 0).1
  rw [hlen] at hlt
  have hm : value mod.v = mod.value := rfl
  rw [hm] at hout
  have htop := (rem.getD 8 0).toNat_lt
  have hlast : (rem.getD 8 0 - (subFrom (rem.take 8) mod.v 0).2).toNat
      = (rem.getD 8 0).toNat - (subFrom (rem.take 8) mod.v 0).2.toNat := by
    apply UInt32.toNat_sub_of_le
    rw [UInt32.le_iff_toNat_le]
    omega
  refine ⟨by simp [remSubMod, hlen], ?_⟩
  rw [remSubMod, value_append, hlen, value_cons, value_nil, hlast]
  omega

/-- The remainder stays below the modulus, so the ninth limb never overflows. -/
theorem reduceFrom_spec (product : List UInt32) {mod : P256Fe} (bit : ℕ) {rem : List UInt32}
    (hl : rem.length = 9) (hrem : value rem < mod.value) :
    (reduceFrom product mod bit rem).length = 9 ∧
      value (reduceFrom product mod bit rem) < mod.value ∧
      value (reduceFrom product mod bit rem)
        = reduceBits (value product) mod.value bit (value rem) := by
  induction bit generalizing rem with
  | zero => exact ⟨hl, hrem, rfl⟩
  | succ bit ih =>
    have hm := mod.value_lt
    have hbit : (getBit product bit).toNat ≤ 1 := by
      rw [getBit_spec]
      exact Bool.toNat_le _
    set next := shiftIn rem (getBit product bit) with hnext
    have hl' : next.length = 9 := (shiftIn_length _ _).trans hl
    have hval : value next = 2 * value rem + ((value product).testBit bit).toNat := by
      rw [hnext, shiftIn_spec hbit, hl, Nat.mod_eq_of_lt (by omega), getBit_spec]
    have hb : ((value product).testBit bit).toNat ≤ 1 := Bool.toNat_le _
    rw [reduceFrom, reduceBits, ← hnext, ← hval]
    simp only [remCmpMod_spec hl']
    split
    · rename_i hge
      obtain ⟨hlen, hsub⟩ := remSubMod_spec hl' hge
      rw [← hsub]
      exact ih hlen (by omega)
    · rename_i hlt
      exact ih hl' (by omega)

theorem value_lowLimbs {rem : List UInt32} (hl : rem.length = 9) (h : value rem < 2 ^ 256) :
    (lowLimbs rem).value = value rem := by
  have htake : (lowLimbs rem).v = rem.take 8 := by
    apply List.ext_getElem (by simp [lowLimbs, hl])
    intro i hi _
    have hi' : i < rem.length := by
      rw [(lowLimbs rem).length] at hi
      omega
    simp [lowLimbs, hi']
  obtain ⟨hsplit, _⟩ := rem_split hl
  rw [P256Fe.value, htake]
  omega

theorem value_reduceProductMod (product : List UInt32) {mod : P256Fe} (hmod : 0 < mod.value) :
    (p256ReduceProductMod product mod).value
      = Crypto.p256ReduceProductMod (value product) mod.value := by
  have hzero : value (List.replicate 9 0) < mod.value := by rwa [value_zeros]
  obtain ⟨hlen, hlt, hval⟩ := reduceFrom_spec product 512 (List.length_replicate ..) hzero
  rw [p256ReduceProductMod, value_lowLimbs hlen (hlt.trans mod.value_lt), hval, value_zeros]
  rfl

theorem value_product (a b : P256Fe) :
    value (mulRows a.v b.v (List.replicate 16 0)) = a.value * b.value % 2 ^ 512 := by
  rw [mulRows_spec, value_zeros, Nat.zero_add, List.length_replicate, P256Fe.value, P256Fe.value]

@[simp] theorem value_feMul (a b : P256Fe) :
    (p256FeMul a b).value = Crypto.p256FeMul a.value b.value := by
  rw [p256FeMul, value_reduceProductMod _ (by decide), value_product, value_p256P]
  rfl

@[simp] theorem value_scalarMul (a b : P256Fe) :
    (p256ScalarMul a b).value = Crypto.p256ScalarMul a.value b.value := by
  rw [p256ScalarMul, value_reduceProductMod _ (by decide), value_product, value_p256N]
  rfl

/-! ## Inverses -/

theorem value_powFrom {mul : P256Fe → P256Fe → P256Fe} {mulValue : ℕ → ℕ → ℕ}
    (hmul : ∀ a b, (mul a b).value = mulValue a.value b.value) {expBit : ℕ → Bool} {exp : ℕ}
    {bit : ℕ} (hexp : ∀ i < bit, expBit i = exp.testBit i) (base result : P256Fe) :
    (powFrom mul expBit base bit result).value
      = expBits mulValue exp base.value bit result.value := by
  induction bit generalizing result with
  | zero => rfl
  | succ bit ih =>
    rw [powFrom, expBits, ih fun i hi => hexp i (by omega), hexp bit (by omega)]
    congr 1
    split <;> simp only [hmul]

theorem expPMinus2Bit : ∀ bit < 256, p256ExpPMinus2Bit bit = (Crypto.p256P - 2).testBit bit := by
  decide +kernel

theorem nMinus2Bit : ∀ bit < 256, p256NMinus2Bit bit = (Crypto.p256N - 2).testBit bit := by
  decide +kernel

@[simp] theorem value_feInv (a : P256Fe) :
    (p256FeInv a).value = Crypto.p256FeInv Crypto.p256FeMul a.value := by
  rw [p256FeInv, value_powFrom value_feMul expPMinus2Bit, value_p256FeOne]
  rfl

@[simp] theorem value_scalarInv (a : P256Fe) :
    (p256ScalarInv a).value = Crypto.p256ScalarInv Crypto.p256ScalarMul a.value := by
  rw [p256ScalarInv, value_powFrom value_scalarMul nMinus2Bit, value_p256FeOne]
  rfl

/-! ## Tests -/

@[simp] theorem feEqual_iff {a b : P256Fe} : p256FeEqual a b = (a.value == b.value) := by
  rw [p256FeEqual, cmp_spec, Bool.eq_iff_iff, beq_iff_eq, beq_iff_eq]
  split
  · exact ⟨fun h => absurd h (by decide), fun h => by omega⟩
  · split
    · exact ⟨fun h => absurd h (by decide), fun h => by omega⟩
    · exact ⟨fun _ => by omega, fun _ => rfl⟩

@[simp] theorem feIsZero_iff {a : P256Fe} : p256FeIsZero a = (a.value == 0) := by
  rw [p256FeIsZero, Bool.eq_iff_iff, beq_iff_eq, beq_iff_eq, foldl_or_eq_zero_iff]
  simp [P256Fe.value]

/-! ## Scalars -/

theorem sub_order {src : P256Fe} (h : p256Cmp src p256N ≥ 0) :
    (p256RawSub src p256N).1.value = src.value - Crypto.p256N := by
  have hge : Crypto.p256N ≤ src.value := by simpa using h
  have hsub := (rawSub_spec src p256N).2
  have hborrow := (rawSub_spec src p256N).1
  have hout := (p256RawSub src p256N).1.value_lt
  have hsrc := src.value_lt
  rw [value_p256N] at hsub
  omega

/-- The order is subtracted as long as it goes. -/
def p256ScalarFromFe (src : P256Fe) : P256Fe :=
  if p256Cmp src p256N ≥ 0 then p256ScalarFromFe (p256RawSub src p256N).1 else src
termination_by src.value
decreasing_by
  rename_i h
  have hge : Crypto.p256N ≤ src.value := by simpa using h
  have hpos : 0 < Crypto.p256N := by decide
  rw [sub_order h]
  omega

def p256ScalarFromBe32 (src : List UInt8) : P256Fe := p256ScalarFromFe (p256FeFromBe32 src)

@[simp] theorem value_scalarFromFe (src : P256Fe) :
    (p256ScalarFromFe src).value = Crypto.p256ScalarFromFe src.value := by
  induction src using p256ScalarFromFe.induct with
  | case1 src h ih =>
    have hge : Crypto.p256N ≤ src.value := by simpa using h
    rw [p256ScalarFromFe, if_pos h, ih, sub_order h, Crypto.p256ScalarFromFe,
      Crypto.p256ScalarFromFe, ← Nat.mod_eq_sub_mod hge]
  | case2 src h =>
    have hlt : src.value < Crypto.p256N := by simpa using h
    rw [p256ScalarFromFe, if_neg h, Crypto.p256ScalarFromFe, Nat.mod_eq_of_lt hlt]

/-! ## Bytes -/

/-- A disjunction of shifted bytes is a sum. -/
theorem shifted_or {x y n : ℕ} (h : y < 2 ^ n) : x * 2 ^ n ||| y = x * 2 ^ n + y := by
  rw [← Nat.shiftLeft_eq, Nat.shiftLeft_add_eq_or_of_lt h]

theorem be32_spec (src : List UInt8) (i : ℕ) :
    (be32 src i).toNat = (src.getD i 0).toNat * 2 ^ 24 + (src.getD (i + 1) 0).toNat * 2 ^ 16
      + (src.getD (i + 2) 0).toNat * 2 ^ 8 + (src.getD (i + 3) 0).toNat := by
  have hshift (x : UInt8) (n : UInt32) (hn : n.toNat ≤ 24) :
      (x.toUInt32 <<< n).toNat = x.toNat * 2 ^ n.toNat := by
    have hx := x.toNat_lt
    have hpow : 2 ^ n.toNat ≤ 2 ^ 24 := Nat.pow_le_pow_right (by norm_num) hn
    rw [UInt32.toNat_shiftLeft, Nat.mod_eq_of_lt (show n.toNat < 32 by omega), Nat.shiftLeft_eq,
      UInt8.toNat_toUInt32]
    exact Nat.mod_eq_of_lt (by nlinarith)
  have ha := (src.getD i 0).toNat_lt
  have hb := (src.getD (i + 1) 0).toNat_lt
  have hc := (src.getD (i + 2) 0).toNat_lt
  have hd := (src.getD (i + 3) 0).toNat_lt
  rw [be32, UInt32.toNat_or, UInt32.toNat_or, UInt32.toNat_or, hshift _ 24 (by decide),
    hshift _ 16 (by decide), hshift _ 8 (by decide), UInt8.toNat_toUInt32]
  change _ * 2 ^ 24 ||| _ * 2 ^ 16 ||| _ * 2 ^ 8 ||| _ = _
  generalize (src.getD i 0).toNat = a at *
  generalize (src.getD (i + 1) 0).toNat = b at *
  generalize (src.getD (i + 2) 0).toNat = c at *
  generalize (src.getD (i + 3) 0).toNat = d at *
  have hab : a * 2 ^ 24 + b * 2 ^ 16 = (a * 2 ^ 8 + b) * 2 ^ 16 := by ring
  have habc : (a * 2 ^ 8 + b) * 2 ^ 16 + c * 2 ^ 8 = (a * 2 ^ 16 + b * 2 ^ 8 + c) * 2 ^ 8 := by ring
  rw [shifted_or (n := 24) (by omega), hab, shifted_or (n := 16) (by omega), habc,
    shifted_or (n := 8) (by omega)]

@[simp] theorem value_feFromBe32 (src : List UInt8) :
    (p256FeFromBe32 src).value = Crypto.p256FeFromBe32 src := by
  have hv : (p256FeFromBe32 src).v = [be32 src 28, be32 src 24, be32 src 20, be32 src 16,
    be32 src 12, be32 src 8, be32 src 4, be32 src 0] := rfl
  have hr : List.range 32 = [0, 1, 2, 3, 4, 5, 6, 7, 8, 9, 10, 11, 12, 13, 14, 15,
    16, 17, 18, 19, 20, 21, 22, 23, 24, 25, 26, 27, 28, 29, 30, 31] := by decide
  rw [P256Fe.value, hv, Crypto.p256FeFromBe32, hr]
  simp only [value_cons, value_nil, be32_spec, List.foldl_cons, List.foldl_nil]
  ring

/-- Byte `k` from the top of limb `i` of a number. -/
theorem byte_of_limb {a : P256Fe} {i k : ℕ} (hk : k < 4) :
    (a.v.getD i 0 >>> UInt32.ofNat (8 * k)).toUInt8
      = UInt8.ofNat (a.value / 256 ^ (4 * i + k)) := by
  have hlimb := limb_eq a.v i
  have hn : (UInt32.ofNat (8 * k)).toNat % 32 = 8 * k := by
    rw [UInt32.toNat_ofNat']
    omega
  have hpow : 256 ^ (4 * i + k) = 2 ^ (32 * i) * 2 ^ (8 * k) := by
    rw [← pow_add, show (256 : ℕ) = 2 ^ 8 by rfl, ← pow_mul]
    congr 1
    omega
  rw [← UInt8.toNat_inj, UInt32.toNat_toUInt8, UInt32.toNat_shiftRight, hn, hlimb,
    Nat.shiftRight_eq_div_pow, UInt8.toNat_ofNat', hpow, ← Nat.div_div_eq_div_mul]
  change value a.v / 2 ^ (32 * i) % 2 ^ 32 / 2 ^ (8 * k) % 2 ^ 8
    = value a.v / 2 ^ (32 * i) / 2 ^ (8 * k) % 2 ^ 8
  generalize value a.v / 2 ^ (32 * i) = limb
  interval_cases k <;> omega

theorem value_feToBe32 (a : P256Fe) : p256FeToBe32 a = Crypto.p256FeToBe32 a.value := by
  have hr : List.range 32
      = (List.range 8).flatMap fun i => [4 * i, 4 * i + 1, 4 * i + 2, 4 * i + 3] := by
    decide
  rw [Crypto.p256FeToBe32, hr, List.map_flatMap, p256FeToBe32]
  refine List.flatMap_congr fun i hi => ?_
  have hi : i < 8 := List.mem_range.1 hi
  have h0 := byte_of_limb (a := a) (i := 7 - i) (k := 0) (by decide)
  have h1 := byte_of_limb (a := a) (i := 7 - i) (k := 1) (by decide)
  have h2 := byte_of_limb (a := a) (i := 7 - i) (k := 2) (by decide)
  have h3 := byte_of_limb (a := a) (i := 7 - i) (k := 3) (by decide)
  have e0 : 31 - (4 * i + 3) = 4 * (7 - i) + 0 := by omega
  have e1 : 31 - (4 * i + 2) = 4 * (7 - i) + 1 := by omega
  have e2 : 31 - (4 * i + 1) = 4 * (7 - i) + 2 := by omega
  have e3 : 31 - 4 * i = 4 * (7 - i) + 3 := by omega
  rw [List.map_cons, List.map_cons, List.map_cons, List.map_cons, List.map_nil, e0, e1, e2, e3,
    ← h0, ← h1, ← h2, ← h3]
  rfl

@[simp] theorem feValidBe32_iff {src : List UInt8} :
    p256FeValidBe32 src = decide (Crypto.p256FeFromBe32 src < Crypto.p256P) := by
  simp [p256FeValidBe32]

@[simp] theorem scalarValidBe32_iff {src : List UInt8} :
    p256ScalarValidBe32 src = Crypto.p256ScalarValidBe32 src := by
  simp [p256ScalarValidBe32, Crypto.p256ScalarValidBe32, bne]

@[simp] theorem value_scalarFromBe32 (src : List UInt8) :
    (p256ScalarFromBe32 src).value = Crypto.p256ScalarFromBe32 src := by
  simp [p256ScalarFromBe32, Crypto.p256ScalarFromBe32]

@[simp] theorem value_feSubSmall (a : P256Fe) (small : UInt32) :
    (p256FeSubSmall a small).value = Crypto.p256FeSub a.value small.toNat := by
  rw [p256FeSubSmall, value_feSub]
  simp [P256Fe.value]

end Limbwise

end MinervaOS.Crypto
