import Mathlib.Data.List.GetD

/-!
# Slices that are written

A part of a buffer is replaced by as many elements. The buffer keeps its length and everything
outside of the part (`getD_setSlice`), and writes within its first part leave what is behind that
alone (`foldl_edit_append`).
-/

namespace MinervaOS

variable {α : Type}

/-- `buf[lo:hi] = items`. -/
def setSlice (buf : List α) (lo hi : Nat) (items : List α) : List α :=
  buf.take lo ++ items ++ buf.drop (max lo hi)

section Slices

variable {buf items : List α} {lo hi : Nat}

theorem length_setSlice (h : lo + items.length = hi) (hhi : hi ≤ buf.length) :
    (setSlice buf lo hi items).length = buf.length := by
  unfold setSlice
  rw [List.length_append, List.length_append, List.length_take, List.length_drop]
  omega

theorem getD_setSlice (h : lo + items.length = hi) (hhi : hi ≤ buf.length) (i : Nat) (d : α) :
    (setSlice buf lo hi items).getD i d =
      if lo ≤ i ∧ i < hi then items.getD (i - lo) d else buf.getD i d := by
  have hlen : (buf.take lo).length = lo := by
    rw [List.length_take]
    omega
  have hmax : max lo hi = lo + items.length := by omega
  unfold setSlice
  rw [List.append_assoc, hmax]
  by_cases hlo : i < lo
  · rw [if_neg (by omega), List.getD_append _ _ _ _ (by omega), List.getD_eq_getElem?_getD,
      List.getElem?_take_of_lt hlo, ← List.getD_eq_getElem?_getD]
  · rw [List.getD_append_right _ _ _ _ (by omega), hlen]
    by_cases hin : i < hi
    · rw [if_pos (by omega), List.getD_append _ _ _ _ (by omega)]
    · have hrest : lo + items.length + (i - lo - items.length) = i := by omega
      rw [if_neg (by omega), List.getD_append_right _ _ _ _ (by omega),
        List.getD_eq_getElem?_getD, List.getElem?_drop, hrest, ← List.getD_eq_getElem?_getD]

theorem setSlice_append (h : lo + items.length = hi) (hhi : hi ≤ buf.length) (rest : List α) :
    setSlice (buf ++ rest) lo hi items = setSlice buf lo hi items ++ rest := by
  unfold setSlice
  rw [List.take_append_of_le_length (by omega), List.drop_append_of_le_length (by omega),
    List.append_assoc, List.append_assoc, List.append_assoc]

end Slices

/-- One write: where it begins, and what it writes. -/
def edit (buf : List α) (e : Nat × List α) : List α := setSlice buf e.1 (e.1 + e.2.length) e.2

section Edits

variable {edits : List (Nat × List α)}

theorem length_foldl_edit : ∀ {buf : List α}, (∀ e ∈ edits, e.1 + e.2.length ≤ buf.length) →
    (edits.foldl edit buf).length = buf.length := by
  induction edits with
  | nil => exact fun _ => rfl
  | cons e edits ih =>
    intro buf h
    have hlen : (edit buf e).length = buf.length := length_setSlice rfl (h e List.mem_cons_self)
    rw [List.foldl_cons, ih fun e' he' => hlen ▸ h e' (List.mem_cons_of_mem e he'), hlen]

theorem foldl_edit_append (rest : List α) : ∀ {buf : List α},
    (∀ e ∈ edits, e.1 + e.2.length ≤ buf.length) →
    edits.foldl edit (buf ++ rest) = edits.foldl edit buf ++ rest := by
  induction edits with
  | nil => exact fun _ => rfl
  | cons e edits ih =>
    intro buf h
    have hlen : (edit buf e).length = buf.length := length_setSlice rfl (h e List.mem_cons_self)
    have hfirst : edit (buf ++ rest) e = edit buf e ++ rest :=
      setSlice_append rfl (h e List.mem_cons_self) rest
    rw [List.foldl_cons, hfirst, ih fun e' he' => hlen ▸ h e' (List.mem_cons_of_mem e he')]
    rfl

end Edits

end MinervaOS
