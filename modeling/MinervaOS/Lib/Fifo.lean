import Mathlib.Data.List.Basic
import Mathlib.Data.Nat.ModEq
import Mathlib.Logic.Function.Basic

/-!
# A queue in a ring

The slots from `tail` up to `head`, taken around, are the entries of a queue. One slot stays free, so
that a full ring and an empty one differ.
-/

namespace MinervaOS.Fifo

variable {α : Type*}

structure Ring (n : ℕ) (slots : ℕ → α) (head tail : ℕ) (queue : List α) : Prop where
  tail_lt : tail < n
  head_eq : head = (tail + queue.length) % n
  length_lt : queue.length < n
  slot : ∀ i (h : i < queue.length), slots ((tail + i) % n) = queue[i]

theorem ring_nil {n tail : ℕ} (slots : ℕ → α) (h : tail < n) : Ring n slots tail tail [] where
  tail_lt := h
  head_eq := (Nat.mod_eq_of_lt h).symm
  length_lt := Nat.zero_lt_of_lt h
  slot _ hi := absurd hi (Nat.not_lt_zero _)

namespace Ring

variable {n : ℕ} {slots : ℕ → α} {head tail : ℕ} {queue : List α}

/-- Places less than `n` apart are different slots. -/
theorem slot_inj {i j : ℕ} (hi : i < n) (hj : j < n) (h : (tail + i) % n = (tail + j) % n) :
    i = j := by
  have hmod : i ≡ j [MOD n] := Nat.ModEq.add_left_cancel' tail h
  rwa [Nat.ModEq, Nat.mod_eq_of_lt hi, Nat.mod_eq_of_lt hj] at hmod

section

variable (h : Ring n slots head tail queue)

include h

theorem tail_eq : tail = (tail + 0) % n := (Nat.mod_eq_of_lt h.tail_lt).symm

theorem head_eq_tail_iff : head = tail ↔ queue = [] := by
  rw [← List.length_eq_zero_iff]
  refine ⟨fun heq => ?_, fun hzero => ?_⟩
  · rw [h.head_eq] at heq
    exact slot_inj h.length_lt (Nat.zero_lt_of_lt h.length_lt) (heq.trans h.tail_eq)
  · rw [h.head_eq, hzero]
    exact h.tail_eq.symm

theorem succ_head_eq : (head + 1) % n = (tail + (queue.length + 1)) % n := by
  rw [h.head_eq, Nat.mod_add_mod, Nat.add_assoc]

/-- The ring is full where one more entry would make it look empty. -/
theorem full_iff : (head + 1) % n = tail ↔ queue.length + 1 = n := by
  have hlt := h.length_lt
  rw [h.succ_head_eq]
  refine ⟨fun heq => ?_, fun hfull => ?_⟩
  · by_contra hne
    exact absurd (slot_inj (by omega) (Nat.zero_lt_of_lt hlt) (heq.trans h.tail_eq)) (by omega)
  · rw [hfull, Nat.add_mod_right, Nat.mod_eq_of_lt h.tail_lt]

theorem push (hroom : (head + 1) % n ≠ tail) (a : α) :
    Ring n (Function.update slots head a) ((head + 1) % n) tail (queue ++ [a]) where
  tail_lt := h.tail_lt
  head_eq := by rw [h.succ_head_eq, List.length_append, List.length_singleton]
  length_lt := by
    have hlt := h.length_lt
    have hfull := (not_congr h.full_iff).1 hroom
    rw [List.length_append, List.length_singleton]
    omega
  slot i hi := by
    rw [List.length_append, List.length_singleton] at hi
    by_cases hlast : i = queue.length
    · subst hlast
      rw [← h.head_eq, Function.update_self, List.getElem_concat_length rfl]
    · have hne : (tail + i) % n ≠ head := fun heq => by
        rw [h.head_eq] at heq
        exact hlast (slot_inj (Nat.lt_of_le_of_lt (Nat.le_of_lt_succ hi) h.length_lt) h.length_lt
          heq)
      rw [Function.update_of_ne hne, List.getElem_append_left (by omega)]
      exact h.slot i (by omega)

end

theorem first {a : α} (h : Ring n slots head tail (a :: queue)) : slots tail = a := by
  have hslot := h.slot 0 (Nat.zero_lt_succ _)
  rwa [← h.tail_eq] at hslot

theorem pop {a : α} (h : Ring n slots head tail (a :: queue)) :
    Ring n slots head ((tail + 1) % n) queue where
  tail_lt := Nat.mod_lt _ (Nat.zero_lt_of_lt h.tail_lt)
  head_eq := by
    rw [h.head_eq, Nat.mod_add_mod, List.length_cons]
    congr 1
    omega
  length_lt := Nat.lt_of_succ_lt h.length_lt
  slot i hi := by
    have hslot := h.slot (i + 1) (Nat.succ_lt_succ hi)
    rw [Nat.mod_add_mod, Nat.add_assoc, Nat.add_comm 1 i]
    exact hslot

end Ring

end MinervaOS.Fifo
