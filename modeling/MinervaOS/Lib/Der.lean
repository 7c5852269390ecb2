import Mathlib.Data.Nat.Digits.Lemmas
import Mathlib.Data.List.GetD

/-!
# Encoding in DER

Elements are a tag, a length and the contents. A length below 128 is one byte, another one has the
number of its bytes in front. A number is an integer of its bytes, with a zero before them where the
first has its top bit; zero has the one byte.
-/

namespace MinervaOS.Der

/-- The bytes of a number, the first of them not zero. -/
def bytesOf (n : ℕ) : List UInt8 := (Nat.digits 256 n).reverse.map UInt8.ofNat

def encodeLength (n : ℕ) : List UInt8 :=
  if n < 128 then [UInt8.ofNat n] else UInt8.ofNat (128 + (bytesOf n).length) :: bytesOf n

def element (tag : UInt8) (contents : List UInt8) : List UInt8 :=
  tag :: (encodeLength contents.length ++ contents)

/-- The bytes of a number that is not negative, without a zero in front that could go. -/
def integerBytes (n : ℕ) : List UInt8 := if n = 0 then [0] else bytesOf n

def integerContents (n : ℕ) : List UInt8 :=
  if (integerBytes n).getD 0 0 < 128 then integerBytes n else 0 :: integerBytes n

def integer (n : ℕ) : List UInt8 := element 0x02 (integerContents n)

def sequence (items : List (List UInt8)) : List UInt8 := element 0x30 items.flatten

/-! ## The bytes of a number -/

theorem bytesOf_zero : bytesOf 0 = [] := by
  simp [bytesOf]

theorem bytesOf_append {n : ℕ} (h : n ≠ 0) :
    bytesOf n = bytesOf (n / 256) ++ [UInt8.ofNat (n % 256)] := by
  rw [bytesOf, Nat.digits_def' (by decide) (Nat.pos_of_ne_zero h), List.reverse_cons,
    List.map_append, List.map_singleton, bytesOf]

theorem length_bytesOf_le {n k : ℕ} (h : n < 256 ^ k) : (bytesOf n).length ≤ k := by
  rw [bytesOf, List.length_map, List.length_reverse]
  exact (Nat.digits_length_le_iff (by decide) n).2 h

theorem getD_bytesOf_ne_zero {n : ℕ} (h : n ≠ 0) : (bytesOf n).getD 0 0 ≠ 0 := by
  induction n using Nat.strong_induction_on with
  | _ n ih =>
    rw [bytesOf_append h]
    by_cases hsmall : n / 256 = 0
    · rw [hsmall, bytesOf_zero]
      intro hzero
      have hbyte : (UInt8.ofNat (n % 256)).toNat = 0 := congrArg UInt8.toNat hzero
      rw [UInt8.toNat_ofNat'] at hbyte
      omega
    · have hfirst := ih (n / 256) (by omega) hsmall
      have hpos : 0 < (bytesOf (n / 256)).length := by
        rw [bytesOf_append hsmall, List.length_append, List.length_singleton]
        omega
      rwa [List.getD_append _ _ _ _ hpos]

/-- The bytes with zeros in front are the ones by their places. -/
theorem aligned {n k : ℕ} (h : n < 256 ^ k) :
    List.replicate (k - (bytesOf n).length) 0 ++ bytesOf n =
      (List.range k).map fun i => UInt8.ofNat (n / 256 ^ (k - 1 - i)) := by
  induction k generalizing n with
  | zero =>
    have hzero : n = 0 := by simpa using h
    rw [hzero, bytesOf_zero]
    rfl
  | succ k ih =>
    have hrest : n / 256 < 256 ^ k := by
      rw [Nat.div_lt_iff_lt_mul (by decide), ← pow_succ]
      exact h
    have hplaces : (List.range k).map (fun i => UInt8.ofNat (n / 256 ^ (k + 1 - 1 - i))) =
        (List.range k).map fun i => UInt8.ofNat (n / 256 / 256 ^ (k - 1 - i)) := by
      apply List.map_congr_left
      intro i hi
      have hlt := List.mem_range.1 hi
      rw [Nat.div_div_eq_div_mul, ← pow_succ', show k - 1 - i + 1 = k + 1 - 1 - i by omega]
    have hlast : UInt8.ofNat (n % 256) = UInt8.ofNat n := by
      rw [← UInt8.toNat_inj, UInt8.toNat_ofNat', UInt8.toNat_ofNat']
      exact Nat.mod_mod _ _
    rw [List.range_succ, List.map_append, List.map_singleton, hplaces, ← ih hrest,
      show k + 1 - 1 - k = 0 by omega, pow_zero, Nat.div_one]
    by_cases hzero : n = 0
    · rw [hzero, Nat.zero_div, bytesOf_zero, List.append_nil, List.append_nil, List.length_nil]
      exact List.replicate_succ'
    · have hlength := length_bytesOf_le hrest
      rw [bytesOf_append hzero, List.length_append, List.length_singleton, hlast,
        ← List.append_assoc,
          show k + 1 - ((bytesOf (n / 256)).length + 1) = k - (bytesOf (n / 256)).length by omega]

theorem integerBytes_ne_nil (n : ℕ) : 0 < (integerBytes n).length := by
  unfold integerBytes
  by_cases h : n = 0
  · rw [if_pos h]
    decide
  · rw [if_neg h, bytesOf_append h, List.length_append, List.length_singleton]
    omega

/-- A zero in front is the number. -/
theorem integerBytes_first (n : ℕ) :
    (integerBytes n).length = 1 ∨ (integerBytes n).getD 0 0 ≠ 0 := by
  unfold integerBytes
  by_cases h : n = 0
  · rw [if_pos h]
    exact Or.inl rfl
  · rw [if_neg h]
    exact Or.inr (getD_bytesOf_ne_zero h)

theorem length_integerBytes_le {n k : ℕ} (hk : 0 < k) (h : n < 256 ^ k) :
    (integerBytes n).length ≤ k := by
  unfold integerBytes
  by_cases hzero : n = 0
  · rw [if_pos hzero]
    exact hk
  · rw [if_neg hzero]
    exact length_bytesOf_le h

theorem integerBytes_aligned {n k : ℕ} (hk : 0 < k) (h : n < 256 ^ k) :
    List.replicate (k - (integerBytes n).length) 0 ++ integerBytes n =
      (List.range k).map fun i => UInt8.ofNat (n / 256 ^ (k - 1 - i)) := by
  rw [← aligned h]
  unfold integerBytes
  by_cases hzero : n = 0
  · obtain ⟨k, rfl⟩ := Nat.exists_eq_add_one_of_ne_zero hk.ne'
    rw [if_pos hzero, hzero, bytesOf_zero, List.append_nil]
    exact List.replicate_succ'.symm
  · rw [if_neg hzero]

/-- There is at most one zero in front of the bytes. -/
theorem integerContents_eq (n : ℕ) :
    ∃ zeros ≤ 1, integerContents n = List.replicate zeros 0 ++ integerBytes n := by
  unfold integerContents
  by_cases h : (integerBytes n).getD 0 0 < 128
  · exact ⟨0, by decide, by rw [if_pos h]; rfl⟩
  · exact ⟨1, le_rfl, by rw [if_neg h]; rfl⟩

/-- Short contents have one byte of length. -/
theorem element_eq {tag : UInt8} {contents : List UInt8} (h : contents.length < 128) :
    element tag contents = tag :: UInt8.ofNat contents.length :: contents := by
  rw [element, encodeLength, if_pos h]
  rfl

theorem length_integerContents {n k : ℕ} (hk : 0 < k) (h : n < 256 ^ k) :
    0 < (integerContents n).length ∧ (integerContents n).length ≤ k + 1 := by
  obtain ⟨zeros, hzeros, hcontents⟩ := integerContents_eq n
  have hpos := integerBytes_ne_nil n
  have hle := length_integerBytes_le hk h
  rw [hcontents, List.length_append, List.length_replicate]
  omega

theorem length_integer {n k : ℕ} (hk : 0 < k) (hshort : k + 1 < 128) (h : n < 256 ^ k) :
    3 ≤ (integer n).length ∧ (integer n).length ≤ k + 3 := by
  have hcontents := length_integerContents hk h
  rw [integer, element_eq (by omega), List.length_cons, List.length_cons]
  omega

theorem sequence_pair {a b : List UInt8} (h : a.length + b.length < 128) :
    sequence [a, b] = 0x30 :: UInt8.ofNat (a ++ b).length :: (a ++ b) := by
  have hflat : [a, b].flatten = a ++ b := by simp
  have hlength : (a ++ b).length < 128 := by
    rw [List.length_append]
    exact h
  rw [sequence, hflat, element_eq hlength]

end MinervaOS.Der
