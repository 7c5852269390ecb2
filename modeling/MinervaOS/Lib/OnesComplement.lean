import MinervaOS.Lib.Wire

/-!
# One's-complement sums

The 16-bit words of a message added up with the carries put back in, whenever that is done: `fold`
depends on the sum only modulo 65535, and on whether it is zero. A message verifies when its words,
the checksum among them, fold to 65535.
-/

namespace MinervaOS.OnesComplement

/-- `while (sum >> 16) sum = (sum & 0xFFFF) + (sum >> 16)`. -/
def fold (sum : Nat) : Nat :=
  if sum / 65536 = 0 then sum else fold (sum % 65536 + sum / 65536)
termination_by sum
decreasing_by omega

theorem fold_eq (n : Nat) : fold n = if n = 0 then 0 else (n - 1) % 65535 + 1 := by
  induction n using fold.induct with
  | case1 n h =>
    unfold fold
    rw [if_pos h]
    split
    · assumption
    · omega
  | case2 n h ih =>
    unfold fold
    rw [if_neg h, ih, if_neg (by omega), if_neg (by omega)]
    omega

theorem fold_lt (n : Nat) : fold n < 65536 := by
  rw [fold_eq]
  split
  · decide
  · omega

/-- Carries may be put back in early. -/
theorem fold_fold_add (a b : Nat) : fold (fold a + b) = fold (a + b) := by
  rw [fold_eq (fold a + b), fold_eq (a + b), fold_eq a]
  split <;> split <;> split <;> omega

/-- The sum of the big-endian words, an odd last byte padded with a zero. -/
def sum : List UInt8 → Nat
  | [] => 0
  | [a] => a.toNat * 256
  | a :: b :: l => a.toNat * 256 + b.toNat + sum l

theorem sum_append :
    ∀ {l : List UInt8}, l.length % 2 = 0 → ∀ l' : List UInt8, sum (l ++ l') = sum l + sum l'
  | [], _, l' => by simp [sum]
  | [a], h, _ => by simp at h
  | a :: b :: l, h, l' => by
    have heven : l.length % 2 = 0 := by
      simp only [List.length_cons] at h
      omega
    have ih := sum_append heven l'
    simp only [List.cons_append, sum, ih]
    omega

theorem sum_be16 {n : Nat} (h : n < 65536) : sum (Wire.be16 n) = n := by
  simp only [Wire.be16, sum, UInt8.toNat_ofNat']
  omega

/-- A word put in where there was a zero. -/
theorem sum_word {pre : List UInt8} {n k : Nat} (hpre : pre.length = 2 * k) (h : n < 65536)
    (post : List UInt8) :
    sum (pre ++ (Wire.be16 n ++ post)) = sum (pre ++ (Wire.be16 0 ++ post)) + n := by
  have heven : pre.length % 2 = 0 := by omega
  have hword : ∀ n, (Wire.be16 n).length % 2 = 0 := fun _ => Nat.mod_self 2
  rw [sum_append heven, sum_append heven, sum_append (hword n), sum_append (hword 0), sum_be16 h,
    sum_be16 (by decide)]
  omega

/-- A sum that is all ones once the carries are in. -/
def Verifies (n : Nat) : Prop := fold n = 65535

instance (n : Nat) : Decidable (Verifies n) := inferInstanceAs (Decidable (_ = _))

/-- A sum with the complement of itself. -/
theorem verifies_complement (n : Nat) : Verifies (n + (65535 - fold n)) := by
  have h := fold_eq n
  unfold Verifies
  rw [fold_eq, if_neg (by split at h <;> omega)]
  split at h <;> omega

/-- The complement is zero, and the other zero stands for it. -/
theorem verifies_ones {n : Nat} (h : fold n = 65535) : Verifies (n + 65535) := by
  have hn := fold_eq n
  unfold Verifies
  rw [fold_eq, if_neg (by omega)]
  split at hn <;> omega

end MinervaOS.OnesComplement
