import Mathlib.Data.List.Basic
import Mathlib.Data.List.TakeWhile

/-!
# Lines

A text is cut at a separator into the lines it ends and what is left behind the last one. A text
that is appended to continues the unfinished line, and leaves the others (`splitLines_append`).
-/

namespace MinervaOS

/-- The first separator is in one place. -/
theorem first_sep_unique {α : Type} {sep : α} : ∀ {a b rest rest' : List α}, sep ∉ a → sep ∉ b →
    a ++ sep :: rest = b ++ sep :: rest' → a = b ∧ rest = rest'
  | [], [], _, _, _, _, h => ⟨rfl, (List.cons.inj h).2⟩
  | [], c :: b, _, _, _, hb, h => by
    rw [List.mem_cons, not_or] at hb
    exact absurd (List.cons.inj h).1 hb.1
  | c :: a, [], _, _, ha, _, h => by
    rw [List.mem_cons, not_or] at ha
    exact absurd (List.cons.inj h).1.symm ha.1
  | c :: a, c' :: b, _, _, ha, hb, h => by
    rw [List.mem_cons, not_or] at ha hb
    obtain ⟨rfl, h'⟩ := List.cons.inj h
    obtain ⟨rfl, hrest⟩ := first_sep_unique ha.2 hb.2 h'
    exact ⟨rfl, hrest⟩

variable {α : Type} [DecidableEq α] (nl : α)

/-- The lines that are ended, and the rest. -/
def splitLines : List α → List (List α) × List α
  | [] => ([], [])
  | c :: cs =>
    if c = nl then ([] :: (splitLines cs).1, (splitLines cs).2)
    else
      match splitLines cs with
      | ([], rest) => ([], c :: rest)
      | (l :: ls, rest) => ((c :: l) :: ls, rest)

/-- Behind the last separator. -/
def unfinished (xs : List α) : List α := (splitLines nl xs).2

/-- The lines of a text, the last one ended or not. -/
def linesOf (xs : List α) : List (List α) :=
  (splitLines nl xs).1 ++ if unfinished nl xs = [] then [] else [unfinished nl xs]

variable {nl}

theorem splitLines_of_not_mem : ∀ {xs : List α}, nl ∉ xs → splitLines nl xs = ([], xs)
  | [], _ => rfl
  | c :: cs, h => by
    rw [List.mem_cons, not_or] at h
    rw [splitLines, if_neg fun hc => h.1 hc.symm, splitLines_of_not_mem h.2]

theorem not_mem_unfinished : ∀ xs : List α, nl ∉ unfinished nl xs
  | [] => by simp [unfinished, splitLines]
  | c :: cs => by
    have ih := not_mem_unfinished cs
    unfold unfinished at ih ⊢
    rw [splitLines]
    split
    · exact ih
    · rename_i hc
      split
      · rename_i hs
        rw [hs] at ih
        rw [List.mem_cons, not_or]
        exact ⟨fun h => hc h.symm, ih⟩
      · rename_i hs
        rw [hs] at ih
        exact ih

/-- What is appended continues the unfinished line. -/
theorem splitLines_append (ys : List α) : ∀ xs : List α, splitLines nl (xs ++ ys) =
    ((splitLines nl xs).1 ++ (splitLines nl (unfinished nl xs ++ ys)).1,
      (splitLines nl (unfinished nl xs ++ ys)).2)
  | [] => rfl
  | c :: cs => by
    have ih := splitLines_append ys cs
    unfold unfinished at ih ⊢
    rw [List.cons_append, splitLines, ih, splitLines]
    split
    · rfl
    · rename_i hc
      cases hs : splitLines nl cs with
      | mk ls rest =>
      cases ls with
      | nil =>
        simp only [List.nil_append, List.cons_append]
        rw [splitLines, if_neg hc]
      | cons l ls => rfl

theorem linesOf_append (xs ys : List α) :
    linesOf nl (xs ++ ys) = (splitLines nl xs).1 ++ linesOf nl (unfinished nl xs ++ ys) := by
  have h : unfinished nl (xs ++ ys) = unfinished nl (unfinished nl xs ++ ys) := by
    rw [unfinished, splitLines_append]
    rfl
  rw [linesOf, h, splitLines_append, linesOf, List.append_assoc]

/-- One line, with its separator or without. -/
theorem linesOf_line {xs : List α} (h : nl ∉ xs) (hne : xs ≠ []) : linesOf nl xs = [xs] := by
  rw [linesOf, unfinished, splitLines_of_not_mem h, if_neg hne, List.nil_append]

theorem splitLines_line : ∀ {xs : List α}, nl ∉ xs → ∀ ys, splitLines nl (xs ++ nl :: ys) =
    (xs :: (splitLines nl ys).1, (splitLines nl ys).2)
  | [], _, ys => by rw [List.nil_append, splitLines, if_pos rfl]
  | c :: cs, h, ys => by
    rw [List.mem_cons, not_or] at h
    rw [List.cons_append, splitLines, if_neg fun hc => h.1 hc.symm, splitLines_line h.2]

theorem linesOf_cons {xs : List α} (h : nl ∉ xs) (ys : List α) :
    linesOf nl (xs ++ nl :: ys) = xs :: linesOf nl ys := by
  rw [linesOf, linesOf, unfinished, unfinished, splitLines_line h]
  rfl

@[simp] theorem linesOf_nil : linesOf nl [] = [] := rfl

/-- The first line, and those behind it. -/
theorem linesOf_walk {xs : List α} (hne : xs ≠ []) :
    linesOf nl xs = xs.takeWhile (· != nl) :: linesOf nl (xs.dropWhile (· != nl)).tail := by
  have hline : ∀ {a : List α}, nl ∉ a → ∀ c ∈ a, (c != nl) = true := fun ha c hc =>
    bne_iff_ne.2 fun h => ha (h ▸ hc)
  by_cases hmem : nl ∈ xs
  · obtain ⟨a, rest, rfl, ha⟩ := List.eq_append_cons_of_mem hmem
    rw [linesOf_cons ha, List.takeWhile_append_of_pos (hline ha),
      List.dropWhile_append_of_pos (hline ha)]
    simp
  · rw [linesOf_line hmem hne, List.takeWhile_eq_self_iff.2 (hline hmem),
      List.dropWhile_eq_nil_iff.2 (hline hmem)]
    simp

omit [DecidableEq α] in
theorem length_tail_dropWhile_lt {xs : List α} (hne : xs ≠ []) (p : α → Bool) :
    (xs.dropWhile p).tail.length < xs.length := by
  have hpos : 0 < xs.length := List.length_pos_iff.2 hne
  have hle := (List.dropWhile_sublist p (l := xs)).length_le
  rw [List.length_tail]
  omega

/-- A line has no separator. -/
theorem not_mem_of_mem_linesOf {l : List α} : ∀ {xs : List α}, l ∈ linesOf nl xs → nl ∉ l := by
  intro xs
  induction hn : xs.length using Nat.strongRecOn generalizing xs with
  | _ n ih =>
    intro hl
    by_cases hne : xs = []
    · rw [hne] at hl
      cases hl
    · rw [linesOf_walk hne] at hl
      rcases List.mem_cons.1 hl with rfl | hl
      · intro hmem
        simpa using List.mem_takeWhile_imp hmem
      · exact ih _ (hn ▸ length_tail_dropWhile_lt hne _) rfl hl

/-- Lines that are all ended are the lines of their text. -/
theorem linesOf_flatMap {ls : List (List α)} (h : ∀ l ∈ ls, nl ∉ l) :
    linesOf nl (ls.flatMap (· ++ [nl])) = ls := by
  induction ls with
  | nil => rfl
  | cons l ls ih =>
    rw [List.flatMap_cons, List.append_assoc, List.singleton_append,
      linesOf_cons (h l List.mem_cons_self)]
    rw [ih fun l' hl' => h l' (List.mem_cons_of_mem l hl')]

end MinervaOS
