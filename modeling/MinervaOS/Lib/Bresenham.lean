import Mathlib.Algebra.Order.Ring.Int
import Mathlib.Tactic.Linarith
import Mathlib.Tactic.Ring

/-!
# Walking a line by its error

The walk from `(0, 0)` towards `(dx, dy)` that moves along each axis as an error tells, which is
corrected by every move. Along the longer axis every step moves, so the walk takes as many steps as
this axis is long (`walk_last`), and it stays between its ends (`walk_le`).
-/

namespace MinervaOS.Bresenham

variable (dx dy : ℕ)

/-- The error behind so many moves along each axis. -/
def err (p : ℕ × ℕ) : ℤ := (p.2 + 1) * dx - (p.1 + 1) * dy

def next (p : ℕ × ℕ) : ℕ × ℕ :=
  (if -(dy : ℤ) < 2 * err dx dy p then p.1 + 1 else p.1,
    if 2 * err dx dy p < dx then p.2 + 1 else p.2)

def walk : ℕ → ℕ × ℕ
  | 0 => (0, 0)
  | k + 1 => next dx dy (walk k)

/-! ## The other axis -/

theorem err_swap (p : ℕ × ℕ) : err dy dx p.swap = -err dx dy p := by
  unfold err
  rw [Prod.fst_swap, Prod.snd_swap]
  ring

theorem next_swap (p : ℕ × ℕ) : next dy dx p.swap = (next dx dy p).swap := by
  unfold next
  rw [err_swap, Prod.fst_swap, Prod.snd_swap]
  refine Prod.ext ?_ ?_
  · show (if -(dx : ℤ) < 2 * -err dx dy p then _ else _) = if 2 * err dx dy p < dx then _ else _
    congr 1
    rw [eq_iff_iff]
    omega
  · show (if 2 * -err dx dy p < (dy : ℤ) then _ else _) =
      if -(dy : ℤ) < 2 * err dx dy p then _ else _
    congr 1
    rw [eq_iff_iff]
    omega

theorem walk_swap (k : ℕ) : walk dy dx k = (walk dx dy k).swap := by
  induction k with
  | zero => rfl
  | succ k ih =>
    unfold walk
    rw [ih, next_swap]

/-! ## Along the longer axis -/

variable {dx dy : ℕ}

theorem err_next (p : ℕ × ℕ) : err dx dy (next dx dy p) = err dx dy p -
    (if -(dy : ℤ) < 2 * err dx dy p then (dy : ℤ) else 0) +
      (if 2 * err dx dy p < dx then (dx : ℤ) else 0) := by
  have hexpand : err dx dy (next dx dy p) = ((next dx dy p).2 + 1) *
    dx - ((next dx dy p).1 + 1) * dy := rfl
  have hp : err dx dy p = (p.2 + 1) * dx - (p.1 + 1) * dy := rfl
  rw [hexpand]
  unfold next
  dsimp only
  split <;> split <;> push_cast <;> rw [hp] <;> ring

/-- The error stays in a band in which the next step moves along the longer axis. -/
structure Banded (dx dy : ℕ) (k : ℕ) : Prop where
  fst : (walk dx dy k).1 = k
  low : -(dy : ℤ) < 2 * err dx dy (walk dx dy k)
  high : 2 * err dx dy (walk dx dy k) < 3 * dx - 2 * dy

theorem walk_banded (h : dy ≤ dx) (hpos : 0 < dx) (k : ℕ) : Banded dx dy k := by
  induction k with
  | zero =>
    have herr : err dx dy (walk dx dy 0) = dx - dy := by
      show ((0 : ℕ) + 1 : ℤ) * dx - ((0 : ℕ) + 1) * dy = dx - dy
      push_cast
      ring
    exact ⟨rfl, by rw [herr]; omega, by rw [herr]; omega⟩
  | succ k ih =>
    have hlow := ih.low
    have hhigh := ih.high
    have hwalk : walk dx dy (k + 1) = next dx dy (walk dx dy k) := rfl
    have herr : err dx dy (next dx dy (walk dx dy k)) = _ := err_next (walk dx dy k)
    rw [if_pos hlow, ← hwalk] at herr
    refine ⟨?_, ?_, ?_⟩
    · rw [hwalk]
      exact (if_pos hlow).trans (congrArg (· + 1) ih.fst)
    · rw [herr]
      split <;> omega
    · rw [herr]
      split <;> omega

theorem snd_le_of_major (h : dy ≤ dx) (hpos : 0 < dx) {k : ℕ} (hk : k ≤ dx) :
    (walk dx dy k).2 ≤ dy := by
  have hband := walk_banded h hpos k
  have hhigh := hband.high
  unfold err at hhigh
  rw [hband.fst] at hhigh
  by_contra hlt
  have hj : (dy : ℤ) + 1 ≤ (walk dx dy k).2 := by omega
  have hkd : (k : ℤ) * dy ≤ dx * dy := mul_le_mul_of_nonneg_right (by omega) (by omega)
  have hjd : ((dy : ℤ) + 1) * dx ≤ (walk dx dy k).2 * dx := mul_le_mul_of_nonneg_right hj (by omega)
  nlinarith only [hhigh, hkd, hjd, hpos]

theorem snd_last_of_major (h : dy ≤ dx) (hpos : 0 < dx) : (walk dx dy dx).2 = dy := by
  refine Nat.le_antisymm (snd_le_of_major h hpos le_rfl) ?_
  have hband := walk_banded h hpos dx
  have hlow := hband.low
  unfold err at hlow
  rw [hband.fst] at hlow
  by_contra hlt
  have hj : ((walk dx dy dx).2 : ℤ) + 1 ≤ dy := by omega
  have hjd : (((walk dx dy dx).2 : ℤ) + 1) * dx ≤ dy * dx :=
    mul_le_mul_of_nonneg_right hj (by omega)
  nlinarith only [hlow, hjd]

/-! ## Along both axes -/

theorem walk_zero_zero (k : ℕ) (h : k ≤ max dx dy) (h0 : dx = 0 ∧ dy = 0) :
    walk dx dy k = (0, 0) := by
  obtain ⟨rfl, rfl⟩ := h0
  rw [Nat.max_self, Nat.le_zero] at h
  subst h
  rfl

/-- The walk stays between its ends. -/
theorem walk_le {k : ℕ} (hk : k ≤ max dx dy) : (walk dx dy k).1 ≤ dx ∧ (walk dx dy k).2 ≤ dy := by
  rcases Nat.eq_zero_or_pos (max dx dy) with hzero | hpos
  · rw [walk_zero_zero k hk (by omega)]
    exact ⟨Nat.zero_le _, Nat.zero_le _⟩
  rcases Nat.le_total dy dx with h | h
  · rw [Nat.max_eq_left h] at hk hpos
    exact ⟨(walk_banded h hpos k).fst.trans_le hk, snd_le_of_major h hpos hk⟩
  · rw [Nat.max_eq_right h] at hk hpos
    rw [walk_swap dy dx]
    exact ⟨snd_le_of_major h hpos hk, (walk_banded h hpos k).fst.trans_le hk⟩

theorem walk_last : walk dx dy (max dx dy) = (dx, dy) := by
  rcases Nat.eq_zero_or_pos (max dx dy) with hzero | hpos
  · have h0 : dx = 0 ∧ dy = 0 := by omega
    rw [walk_zero_zero _ le_rfl h0, h0.1, h0.2]
  rcases Nat.le_total dy dx with h | h
  · rw [Nat.max_eq_left h] at hpos ⊢
    exact Prod.ext (walk_banded h hpos dx).fst (snd_last_of_major h hpos)
  · rw [Nat.max_eq_right h] at hpos ⊢
    rw [walk_swap dy dx]
    exact Prod.ext (snd_last_of_major h hpos) (walk_banded h hpos dy).fst

/-- Along an axis every step is the next point. -/
theorem walk_axis {k : ℕ} (hk : k ≤ dx) : walk dx 0 k = (k, 0) := by
  rcases Nat.eq_zero_or_pos dx with rfl | hpos
  · obtain rfl := Nat.le_zero.1 hk
    rfl
  · have hle := (@walk_le dx 0 k (hk.trans (Nat.le_max_left dx 0))).2
    exact Prod.ext (walk_banded (Nat.zero_le dx) hpos k).fst (Nat.le_zero.1 hle)

theorem walk_ne {k : ℕ} (hk : k < max dx dy) : walk dx dy k ≠ (dx, dy) := by
  intro heq
  rcases Nat.le_total dy dx with h | h
  · rw [Nat.max_eq_left h] at hk
    have hfst := (walk_banded h (by omega) k).fst
    rw [heq] at hfst
    exact absurd hfst.symm (Nat.ne_of_lt hk)
  · rw [Nat.max_eq_right h] at hk
    have hfst := (walk_banded h (by omega) k).fst
    rw [walk_swap dx dy, heq] at hfst
    exact absurd hfst.symm (Nat.ne_of_lt hk)

theorem err_bounds (hpos : 0 < max dx dy) (k : ℕ) :
    -(3 * (max dx dy : ℤ)) < 2 * err dx dy (walk dx dy k) ∧
      2 * err dx dy (walk dx dy k) < 3 * (max dx dy : ℤ) := by
  rcases Nat.le_total dy dx with h | h
  · have hband := walk_banded h (by omega) k
    have hlow := hband.low
    have hhigh := hband.high
    omega
  · have hband := walk_banded h (by omega) k
    have hlow := hband.low
    have hhigh := hband.high
    rw [walk_swap dx dy, err_swap] at hlow hhigh
    omega

end MinervaOS.Bresenham
