import Mathlib.Data.Nat.Digits.Defs
import Mathlib.Tactic.Ring
import Mathlib.Tactic.Linarith

/-!
# Arithmetic on 32-bit limbs

A number is a list of limbs, the least significant first, and `value` is the number. The loops run
over the limbs with a carry or a borrow between them, and each has one lemma that says what it does
to the value, for lists of any length: the final carry counts for the limb after the last.
-/

namespace MinervaOS.Limbs

variable {a b c : List UInt32}

/-- The number that a list of limbs stands for. -/
def value (a : List UInt32) : ℕ := Nat.ofDigits (2 ^ 32) (a.map UInt32.toNat)

@[simp] theorem value_nil : value [] = 0 := rfl

@[simp] theorem value_cons (x : UInt32) (a : List UInt32) :
    value (x :: a) = x.toNat + 2 ^ 32 * value a := by
  simp [value, Nat.ofDigits_cons]

theorem value_append : value (a ++ b) = value a + 2 ^ (32 * a.length) * value b := by
  simp [value, Nat.ofDigits_append, pow_mul]

theorem value_lt (a : List UInt32) : value a < 2 ^ (32 * a.length) := by
  have h := Nat.ofDigits_lt_base_pow_length (b := 2 ^ 32) (l := a.map UInt32.toNat) (by norm_num)
    (by simpa using fun x _ => x.toNat_lt)
  simpa [value, pow_mul] using h

@[simp] theorem value_zeros (n : ℕ) : value (List.replicate n 0) = 0 := by
  induction n with
  | zero => rfl
  | succ n ih => simp [List.replicate_succ, ih]

theorem pow_length_succ (n : ℕ) : 2 ^ (32 * (n + 1)) = 2 ^ 32 * 2 ^ (32 * n) := by
  rw [Nat.mul_succ, pow_add, mul_comm]

theorem value_inj (hl : a.length = b.length) (h : value a = value b) : a = b := by
  induction a generalizing b with
  | nil =>
    cases b with
    | nil => rfl
    | cons y b => simp at hl
  | cons x a ih =>
    cases b with
    | nil => simp at hl
    | cons y b =>
      have hx := x.toNat_lt
      have hy := y.toNat_lt
      simp only [value_cons] at h
      have hxy : x.toNat = y.toNat := by omega
      have hab : value a = value b := by omega
      rw [UInt32.toNat_inj.1 hxy, ih (by simpa using hl) hab]

/-- Adding limb by limb from a carry. -/
def addFrom : List UInt32 → List UInt32 → UInt64 → List UInt32 × UInt64
  | x :: a, y :: b, carry =>
    let sum := x.toUInt64 + y.toUInt64 + carry
    let rest := addFrom a b (sum >>> 32)
    (sum.toUInt32 :: rest.1, rest.2)
  | _, _, carry => ([], carry)

/-- Subtracting limb by limb from a borrow. -/
def subFrom : List UInt32 → List UInt32 → UInt32 → List UInt32 × UInt32
  | x :: a, y :: b, borrow =>
    let av := x.toUInt64
    let bv := y.toUInt64 + borrow.toUInt64
    let rest := subFrom a b (if av < bv then 1 else 0)
    ((av - bv).toUInt32 :: rest.1, rest.2)
  | _, _, borrow => ([], borrow)

/-- Comparing from limb `n - 1` down: 1, -1 or 0. -/
def cmpDown (a b : List UInt32) : ℕ → Int
  | 0 => 0
  | i + 1 =>
    if a.getD i 0 > b.getD i 0 then 1
    else if a.getD i 0 < b.getD i 0 then -1
    else cmpDown a b i

/-- The last carry of a row runs on until it is used up. -/
def carryOn : List UInt32 → UInt64 → List UInt32
  | [], _ => []
  | p :: rest, carry =>
    if carry = 0 then p :: rest
    else
      let cur := p.toUInt64 + carry
      cur.toUInt32 :: carryOn rest (cur >>> 32)

/-- One limb times a number, added to a partial product. -/
def mulRow (x : UInt32) : List UInt32 → List UInt32 → UInt64 → List UInt32
  | y :: b, p :: product, carry =>
    let cur := x.toUInt64 * y.toUInt64 + p.toUInt64 + carry
    cur.toUInt32 :: mulRow x b product (cur >>> 32)
  | [], product, carry => carryOn product carry
  | _, [], _ => []

/-- Every limb's row, each one limb further up the product. -/
def mulRows : List UInt32 → List UInt32 → List UInt32 → List UInt32
  | [], _, product => product
  | x :: a, b, product =>
    match mulRow x b product 0 with
    | [] => []
    | p :: rest => p :: mulRows a b rest

/-- Doubling, with a bit shifted in below. -/
def shiftIn : List UInt32 → UInt32 → List UInt32
  | [], _ => []
  | x :: a, carry => (x <<< 1 ||| carry) :: shiftIn a (x >>> 31)

/-- The bit of weight `2 ^ bit`. -/
def getBit (a : List UInt32) (bit : ℕ) : UInt32 :=
  (a.getD (bit / 32) 0 >>> UInt32.ofNat (bit % 32)) &&& 1

/-! ## Sums and differences -/

/-- A double limb is its low half and, one limb up, its high half. -/
theorem toNat_low (s : UInt64) : s.toUInt32.toNat + 2 ^ 32 * (s >>> 32).toNat = s.toNat := by
  have hs : (s >>> 32).toNat = s.toNat / 2 ^ 32 := by
    rw [UInt64.toNat_shiftRight, Nat.shiftRight_eq_div_pow]
    rfl
  rw [hs, UInt64.toNat_toUInt32]
  omega

theorem toNat_high (s : UInt64) : (s >>> 32).toNat < 2 ^ 32 := by
  have hs := s.toNat_lt
  have := toNat_low s
  omega

theorem addFrom_length (hl : a.length = b.length) (carry : UInt64) :
    (addFrom a b carry).1.length = a.length := by
  induction a generalizing b carry with
  | nil => simp [addFrom]
  | cons x a ih =>
    cases b with
    | nil => simp at hl
    | cons y b => simp [addFrom, ih (by simpa using hl)]

theorem addFrom_spec (hl : a.length = b.length) {carry : UInt64} (hc : carry.toNat < 2 ^ 32) :
    value (addFrom a b carry).1 + 2 ^ (32 * a.length) * (addFrom a b carry).2.toNat
      = value a + value b + carry.toNat := by
  induction a generalizing b carry with
  | nil =>
    cases b with
    | nil => simp [addFrom]
    | cons y b => simp at hl
  | cons x a ih =>
    cases b with
    | nil => simp at hl
    | cons y b =>
      have hx := x.toNat_lt
      have hy := y.toNat_lt
      set sum := x.toUInt64 + y.toUInt64 + carry with hsum
      have hs : sum.toNat = x.toNat + y.toNat + carry.toNat := by
        simp only [hsum, UInt64.toNat_add, UInt32.toNat_toUInt64]
        omega
      have hlow := toNat_low sum
      have hrest := ih (b := b) (by simpa using hl) (toNat_high sum)
      simp only [addFrom, ← hsum, value_cons, List.length_cons, pow_length_succ, mul_assoc]
      omega

/-- The borrow left is one exactly where the first number is the smaller. -/
theorem subFrom_spec (hl : a.length = b.length) {borrow : UInt32} (hb : borrow.toNat ≤ 1) :
    (subFrom a b borrow).1.length = a.length ∧ (subFrom a b borrow).2.toNat ≤ 1 ∧
      value (subFrom a b borrow).1 + value b + borrow.toNat
        = value a + 2 ^ (32 * a.length) * (subFrom a b borrow).2.toNat := by
  induction a generalizing b borrow with
  | nil =>
    cases b with
    | nil => simpa [subFrom] using hb
    | cons y b => simp at hl
  | cons x a ih =>
    cases b with
    | nil => simp at hl
    | cons y b =>
      have hx := x.toNat_lt
      have hy := y.toNat_lt
      set av := x.toUInt64 with hav
      set bv := y.toUInt64 + borrow.toUInt64 with hbv
      set next : UInt32 := if av < bv then 1 else 0 with hnext
      have ha : av.toNat = x.toNat := by simp [hav]
      have hbn : bv.toNat = y.toNat + borrow.toNat := by
        simp only [hbv, UInt64.toNat_add, UInt32.toNat_toUInt64]
        omega
      have hone : next.toNat ≤ 1 := by
        rw [hnext]
        split <;> decide
      have hlimb : (av - bv).toUInt32.toNat + (y.toNat + borrow.toNat)
          = x.toNat + 2 ^ 32 * next.toNat := by
        have hsub : (av - bv).toUInt32.toNat
            = (2 ^ 64 - bv.toNat + av.toNat) % 2 ^ 64 % 2 ^ 32 := by
          rw [UInt64.toNat_toUInt32, UInt64.toNat_sub]
        rw [hsub, hnext, ha, hbn]
        split <;> rename_i hlt <;> rw [UInt64.lt_iff_toNat_lt, ha, hbn] at hlt
        · simp only [UInt32.reduceToNat]
          omega
        · simp only [UInt32.reduceToNat]
          omega
      obtain ⟨hlen, hout, hrest⟩ := ih (b := b) (by simpa using hl) hone
      refine ⟨?_, ?_, ?_⟩
      · simpa [subFrom, ← hav, ← hbv, ← hnext] using hlen
      · simpa [subFrom, ← hav, ← hbv, ← hnext] using hout
      · simp only [subFrom, ← hav, ← hbv, ← hnext, value_cons, List.length_cons,
          pow_length_succ, mul_assoc]
        omega

theorem value_take_succ {i : ℕ} (h : i < a.length) :
    value (a.take (i + 1)) = value (a.take i) + 2 ^ (32 * i) * (a.getD i 0).toNat := by
  rw [List.take_add_one, value_append, List.getElem?_eq_getElem h]
  simp [List.getD, h, Nat.min_eq_left h.le]

theorem cmpDown_spec {n : ℕ} (hna : n ≤ a.length) (hnb : n ≤ b.length) :
    cmpDown a b n = if value (b.take n) < value (a.take n) then 1
      else if value (a.take n) < value (b.take n) then -1 else 0 := by
  induction n with
  | zero => simp [cmpDown]
  | succ i ih =>
    have ha := value_take_succ (a := a) (i := i) (by omega)
    have hb := value_take_succ (a := b) (i := i) (by omega)
    have hla := value_lt (a.take i)
    have hlb := value_lt (b.take i)
    rw [List.length_take, Nat.min_eq_left (by omega)] at hla hlb
    rw [cmpDown, ha, hb, ih (by omega) (by omega)]
    simp only [gt_iff_lt, UInt32.lt_iff_toNat_lt]
    generalize (a.getD i 0).toNat = x
    generalize (b.getD i 0).toNat = y
    rcases lt_trichotomy x y with h | rfl | h
    · have := Nat.mul_le_mul_left (2 ^ (32 * i)) (show x + 1 ≤ y from h)
      rw [if_neg (by omega), if_pos h, if_neg (by nlinarith), if_pos (by nlinarith)]
    · simp only [lt_irrefl, if_false, Nat.add_lt_add_iff_right]
    · have := Nat.mul_le_mul_left (2 ^ (32 * i)) (show y + 1 ≤ x from h)
      rw [if_pos h, if_pos (by nlinarith)]

/-- The disjunction of the limbs is zero for the number zero only. -/
theorem foldl_or_eq_zero_iff {x : UInt32} : a.foldl (· ||| ·) x = 0 ↔ x = 0 ∧ value a = 0 := by
  induction a generalizing x with
  | nil => simp
  | cons y a ih =>
    have hor : x ||| y = 0 ↔ x = 0 ∧ y = 0 := by
      simp only [← UInt32.toNat_inj, UInt32.toNat_or, UInt32.toNat_zero, Nat.or_eq_zero_iff]
    rw [List.foldl_cons, ih, hor, and_assoc, value_cons, ← UInt32.toNat_inj (a := y),
      UInt32.toNat_zero]
    refine and_congr_right fun _ => ?_
    omega

theorem limb_eq (a : List UInt32) (i : ℕ) :
    (a.getD i 0).toNat = value a / 2 ^ (32 * i) % 2 ^ 32 := by
  induction a generalizing i with
  | nil => simp
  | cons x a ih =>
    have hx := x.toNat_lt
    cases i with
    | zero =>
      rw [List.getD_cons_zero, value_cons]
      omega
    | succ i =>
      rw [List.getD_cons_succ, ih, value_cons, pow_length_succ, ← Nat.div_div_eq_div_mul,
        Nat.add_mul_div_left _ _ (by norm_num), Nat.div_eq_of_lt hx, Nat.zero_add]

/-! ## Products -/

/-- A limb below a remainder is the remainder of the longer number. -/
theorem low_add_mod {B M low V : ℕ} (hlow : low < B) :
    low + B * (V % M) = (low + B * V) % (B * M) := by
  rw [Nat.mod_mul, Nat.add_mul_mod_self_left, Nat.mod_eq_of_lt hlow,
    Nat.add_mul_div_left _ _ (by omega), Nat.div_eq_of_lt hlow, Nat.zero_add]

theorem carryOn_length (product : List UInt32) (carry : UInt64) :
    (carryOn product carry).length = product.length := by
  induction product generalizing carry with
  | nil => rfl
  | cons p product ih =>
    rw [carryOn]
    split
    · rfl
    · simp [ih]

theorem carryOn_spec {product : List UInt32} {carry : UInt64} (hc : carry.toNat < 2 ^ 32) :
    value (carryOn product carry)
      = (value product + carry.toNat) % 2 ^ (32 * product.length) := by
  induction product generalizing carry with
  | nil => simp [carryOn, Nat.mod_one]
  | cons p product ih =>
    rw [carryOn]
    split
    · rename_i h0
      rw [h0, UInt64.toNat_zero, Nat.add_zero, Nat.mod_eq_of_lt (value_lt _)]
    · have hp := p.toNat_lt
      set cur := p.toUInt64 + carry with hcur
      have hs : cur.toNat = p.toNat + carry.toNat := by
        simp only [hcur, UInt64.toNat_add, UInt32.toNat_toUInt64]
        omega
      have hlow := toNat_low cur
      simp only [value_cons, List.length_cons, pow_length_succ]
      rw [ih (toNat_high cur), low_add_mod cur.toUInt32.toNat_lt]
      congr 1
      omega

theorem mulRow_length {x : UInt32} {product : List UInt32} (carry : UInt64) :
    (mulRow x b product carry).length = product.length := by
  induction b generalizing product carry with
  | nil => simp [mulRow, carryOn_length]
  | cons y b ih =>
    cases product with
    | nil => simp [mulRow]
    | cons p product => simp [mulRow, ih]

theorem mulRow_spec {x : UInt32} {product : List UInt32} {carry : UInt64}
    (hc : carry.toNat < 2 ^ 32) :
    value (mulRow x b product carry)
      = (value product + x.toNat * value b + carry.toNat) % 2 ^ (32 * product.length) := by
  induction b generalizing product carry with
  | nil => simp [mulRow, carryOn_spec hc]
  | cons y b ih =>
    cases product with
    | nil => simp [mulRow, Nat.mod_one]
    | cons p product =>
      have hx := x.toNat_lt
      have hy := y.toNat_lt
      have hp := p.toNat_lt
      -- the largest double limb is exactly reached
      have hxy : x.toNat * y.toNat ≤ (2 ^ 32 - 1) * (2 ^ 32 - 1) :=
        Nat.mul_le_mul (by omega) (by omega)
      set cur := x.toUInt64 * y.toUInt64 + p.toUInt64 + carry with hcur
      have hs : cur.toNat = x.toNat * y.toNat + p.toNat + carry.toNat := by
        simp only [hcur, UInt64.toNat_add, UInt64.toNat_mul, UInt32.toNat_toUInt64]
        omega
      have hlow := toNat_low cur
      simp only [mulRow, ← hcur, value_cons, List.length_cons, pow_length_succ]
      rw [ih (toNat_high cur), low_add_mod cur.toUInt32.toNat_lt]
      congr 1
      calc cur.toUInt32.toNat
            + 2 ^ 32 * (value product + x.toNat * value b + (cur >>> 32).toNat)
          = cur.toNat + 2 ^ 32 * (value product + x.toNat * value b) := by rw [← hlow]; ring
        _ = _ := by rw [hs]; ring

theorem mulRows_spec {product : List UInt32} :
    value (mulRows a b product)
      = (value product + value a * value b) % 2 ^ (32 * product.length) := by
  induction a generalizing product with
  | nil => simp [mulRows, Nat.mod_eq_of_lt (value_lt product)]
  | cons x a ih =>
    have hlen : (mulRow x b product 0).length = product.length := mulRow_length 0
    have hrow : value (mulRow x b product 0)
        = (value product + x.toNat * value b) % 2 ^ (32 * product.length) :=
      mulRow_spec (by decide)
    rw [mulRows]
    cases hr : mulRow x b product 0 with
    | nil =>
      rw [hr] at hlen
      simp [List.eq_nil_of_length_eq_zero hlen.symm, Nat.mod_one]
    | cons p rest =>
      rw [hr] at hrow hlen
      rw [← hlen] at hrow ⊢
      simp only [value_cons, List.length_cons, pow_length_succ] at hrow ⊢
      rw [ih, low_add_mod p.toNat_lt, Nat.mul_add, ← Nat.add_assoc, hrow, Nat.mod_add_mod]
      congr 1
      ring

/-! ## Bits -/

theorem toNat_shift_or {x carry : UInt32} (hc : carry.toNat ≤ 1) :
    (x <<< 1 ||| carry).toNat + 2 ^ 32 * (x >>> 31).toNat = 2 * x.toNat + carry.toNat := by
  have hx := x.toNat_lt
  have hhigh : (x >>> 31).toNat = x.toNat / 2 ^ 31 := by
    rw [UInt32.toNat_shiftRight, Nat.shiftRight_eq_div_pow]
    rfl
  have hlow : (x <<< 1 ||| carry).toNat = 2 * (x.toNat % 2 ^ 31) + carry.toNat := by
    have hshift : (x <<< 1).toNat = (x.toNat % 2 ^ 31) <<< 1 := by
      rw [UInt32.toNat_shiftLeft, Nat.shiftLeft_eq, Nat.shiftLeft_eq]
      change x.toNat * 2 % 2 ^ 32 = _
      omega
    rw [UInt32.toNat_or, hshift, ← Nat.shiftLeft_add_eq_or_of_lt (by omega), Nat.shiftLeft_eq]
    ring
  rw [hhigh, hlow]
  omega

theorem toNat_top_bit (x : UInt32) : (x >>> 31).toNat ≤ 1 := by
  have hx := x.toNat_lt
  have hhigh : (x >>> 31).toNat = x.toNat / 2 ^ 31 := by
    rw [UInt32.toNat_shiftRight, Nat.shiftRight_eq_div_pow]
    rfl
  omega

theorem shiftIn_length (a : List UInt32) (carry : UInt32) :
    (shiftIn a carry).length = a.length := by
  induction a generalizing carry with
  | nil => rfl
  | cons x a ih => simp [shiftIn, ih]

theorem shiftIn_spec {carry : UInt32} (hc : carry.toNat ≤ 1) :
    value (shiftIn a carry) = (2 * value a + carry.toNat) % 2 ^ (32 * a.length) := by
  induction a generalizing carry with
  | nil => simp [shiftIn, Nat.mod_one]
  | cons x a ih =>
    have hlimb := toNat_shift_or (x := x) hc
    simp only [shiftIn, value_cons, List.length_cons, pow_length_succ]
    rw [ih (toNat_top_bit x), low_add_mod (UInt32.toNat_lt _)]
    congr 1
    omega

theorem testBit_value (a : List UInt32) (bit : ℕ) :
    (value a).testBit bit = (a.getD (bit / 32) 0).toNat.testBit (bit % 32) := by
  induction a generalizing bit with
  | nil => simp
  | cons x a ih =>
    rw [value_cons, Nat.add_comm, Nat.testBit_two_pow_mul_add _ x.toNat_lt]
    split
    · rename_i h
      rw [Nat.div_eq_of_lt h, Nat.mod_eq_of_lt h]
      rfl
    · rename_i h
      have hd : bit / 32 = (bit - 32) / 32 + 1 := by omega
      have hm : bit % 32 = (bit - 32) % 32 := by omega
      rw [hd, hm, List.getD_cons_succ, ih]

theorem getBit_spec (a : List UInt32) (bit : ℕ) :
    (getBit a bit).toNat = ((value a).testBit bit).toNat := by
  have hm : (UInt32.ofNat (bit % 32)).toNat % 32 = bit % 32 := by
    rw [UInt32.toNat_ofNat']
    omega
  rw [testBit_value, getBit, UInt32.toNat_and, UInt32.toNat_shiftRight, hm,
    Nat.testBit_eq_decide_div_mod_eq, Nat.shiftRight_eq_div_pow, UInt32.toNat_one,
    Nat.and_one_is_mod]
  generalize (a.getD (bit / 32) 0).toNat / 2 ^ (bit % 32) = shifted
  rcases Nat.mod_two_eq_zero_or_one shifted with h | h <;> simp [h]

end MinervaOS.Limbs
