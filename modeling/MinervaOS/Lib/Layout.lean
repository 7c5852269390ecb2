import Mathlib.Algebra.GroupWithZero.Nat
import Mathlib.Algebra.BigOperators.Group.List.Basic

/-!
# Buffers laid out in fields

A buffer of a fixed size that is filled in field by field, in any order. `Laid ws buffer fs` says
that the buffer is the fields `fs` one behind the other, of the widths `ws`: an edit at the start of
a field, of its width, replaces that field, whatever was written before.
-/

namespace MinervaOS

variable {α : Type} {ws : List Nat} {buffer : List α} {fs : List (List α)} {n k : Nat}
    {src : List α}

structure Laid (ws : List Nat) (buffer : List α) (fs : List (List α)) : Prop where
  eq : buffer = fs.flatten
  widths : fs.map List.length = ws

namespace Laid

theorem length (h : Laid ws buffer fs) : buffer.length = ws.sum := by
  rw [h.eq, List.length_flatten, h.widths]

/-- A buffer that is all `a`. -/
theorem replicate (a : α) : ∀ ws : List Nat,
    Laid ws (List.replicate ws.sum a) (ws.map fun w => List.replicate w a)
  | [] => ⟨rfl, rfl⟩
  | w :: ws => by
    have ih := replicate a ws
    constructor
    · rw [List.sum_cons, List.replicate_add, ih.eq]
      rfl
    · rw [List.map_cons, List.map_cons, ih.widths, List.length_replicate]

/-- The buffer around field `k`. -/
theorem split (h : Laid ws buffer fs) {w : Nat} (hn : (ws.take k).sum = n) (hw : ws[k]? = some w) :
    ∃ pre f post, fs = pre ++ f :: post ∧ pre.length = k ∧ pre.flatten.length = n ∧
      f.length = w := by
  rw [← h.widths, List.getElem?_map, Option.map_eq_some_iff] at hw
  obtain ⟨f, hf, hlen⟩ := hw
  obtain ⟨hk, rfl⟩ := List.getElem?_eq_some_iff.1 hf
  refine ⟨fs.take k, fs[k], fs.drop (k + 1), ?_, ?_, ?_, hlen⟩
  · rw [List.getElem_cons_drop, List.take_append_drop]
  · rw [List.length_take]
    omega
  · rw [List.length_flatten, List.map_take, h.widths, hn]

/-- An edit that puts `src` where field `k` was. -/
theorem edit (h : Laid ws buffer fs) (k : Nat) {put : List α → List α}
    (hput : ∀ pre f post, pre.length = n → f.length = src.length →
      put (pre ++ f ++ post) = pre ++ src ++ post)
    (hn : (ws.take k).sum = n) (hw : ws[k]? = some src.length) :
    Laid ws (put buffer) (fs.set k src) := by
  obtain ⟨pre, f, post, rfl, hk, hpre, hf⟩ := h.split hn hw
  have hset : (pre ++ f :: post).set k src = pre ++ src :: post := by
    rw [List.set_append_right _ _ (by omega), ← hk, Nat.sub_self]
    rfl
  have hwidths := h.widths
  rw [hset]
  constructor
  · rw [h.eq, List.flatten_append, List.flatten_append, List.flatten_cons, List.flatten_cons,
      ← List.append_assoc, hput _ _ _ hpre hf, List.append_assoc]
  · rw [← hwidths, List.map_append, List.map_append, List.map_cons, List.map_cons, hf]

/-- A write into the last field that does not fill it. -/
theorem writeLast {last : List α} {w : Nat} (h : Laid (ws ++ [w]) buffer (fs ++ [last]))
    (src : List α)
    (hn : ws.sum = n) :
    Laid (ws ++ [src.length, w - src.length]) (buffer.take n ++ src ++ buffer.drop (n + src.length))
      (fs ++ [src, last.drop src.length]) := by
  have hwidths := h.widths
  rw [List.map_append, List.map_cons, List.map_nil] at hwidths
  obtain ⟨hfs, hlast⟩ := List.append_inj' hwidths rfl
  have hpre : fs.flatten.length = n := by rw [List.length_flatten, hfs, hn]
  constructor
  · rw [h.eq, List.flatten_append, List.take_left' hpre, ← List.drop_drop, List.drop_left' hpre]
    simp
  · have hlen : last.length = w := by simpa using hlast
    simp [hfs, hlen]

end Laid

end MinervaOS
