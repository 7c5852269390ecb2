import Mathlib.Algebra.Field.ZMod
import Mathlib.GroupTheory.OrderOfElement

/-!
# Multiples by residues

A multiple of an element that `n` brings to zero depends on the scalar modulo `n` only. So scalars
that were worked out modulo `n` multiply it as the numbers they stand for do, and with `n` prime
only zero brings it to zero, if anything but zero was to be multiplied.
-/

namespace MinervaOS

variable {G : Type*} [AddCommGroup G] {n : ℕ} {g : G}

/-- `a` times `g`, with `a` below `n`. -/
def times (a : ZMod n) (g : G) : G := a.val • g

theorem times_one [Fact (1 < n)] (g : G) : times (1 : ZMod n) g = g := by
  rw [times, ZMod.val_one, one_nsmul]

theorem times_natCast (hg : n • g = 0) (k : ℕ) : times (k : ZMod n) g = k • g := by
  unfold times
  rw [ZMod.val_natCast]
  nth_rewrite 2 [← Nat.div_add_mod k n]
  rw [add_nsmul, mul_comm, mul_nsmul', hg, nsmul_zero, zero_add]

theorem times_add [NeZero n] (hg : n • g = 0) (a b : ZMod n) :
    times (a + b) g = times a g + times b g := by
  have hab : ((a.val + b.val : ℕ) : ZMod n) = a + b := by
    rw [Nat.cast_add, ZMod.natCast_zmod_val, ZMod.natCast_zmod_val]
  rw [← hab, times_natCast hg, add_nsmul]
  rfl

theorem times_times [NeZero n] (hg : n • g = 0) (a b : ZMod n) :
    times a (times b g) = times (a * b) g := by
  have hab : ((a.val * b.val : ℕ) : ZMod n) = a * b := by
    rw [Nat.cast_mul, ZMod.natCast_zmod_val, ZMod.natCast_zmod_val]
  rw [← hab, times_natCast hg]
  exact (mul_nsmul' g a.val b.val).symm

theorem times_comm (a b : ZMod n) (g : G) : times a (times b g) = times b (times a g) :=
  nsmul_left_comm g b.val a.val

theorem times_neg [NeZero n] (hg : n • g = 0) (a : ZMod n) : times (-a) g = -times a g := by
  have h := times_add hg (-a) a
  rw [neg_add_cancel] at h
  have h0 : times (0 : ZMod n) g = 0 := by rw [times, ZMod.val_zero, zero_nsmul]
  exact eq_neg_of_add_eq_zero_left (h.symm.trans h0)

/-- The order is all of a prime that it divides. -/
theorem times_eq_zero_iff [Fact n.Prime] (hg : n • g = 0) (hne : g ≠ 0) (a : ZMod n) :
    times a g = 0 ↔ a = 0 := by
  have horder : addOrderOf g = n := addOrderOf_eq_prime hg hne
  rw [times, ← addOrderOf_dvd_iff_nsmul_eq_zero, horder]
  constructor
  · intro h
    exact (ZMod.val_eq_zero a).1 (Nat.eq_zero_of_dvd_of_lt h (ZMod.val_lt a))
  · rintro rfl
    rw [ZMod.val_zero]
    exact dvd_zero n

end MinervaOS
