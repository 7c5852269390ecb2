import Mathlib.Data.List.Nodup
import Mathlib.Logic.Function.Iterate

/-!
# Walks along a successor function

`Walk next stop a l` says that following `next` from `a` until a value that stops meets exactly the
values of `l`, in order. A walk that stops is determined by where it starts and meets nothing twice,
so cells linked by `next` form a list without any further assumption (`Walk.det`, `Walk.nodup`), and
it only depends on `next` at the values it meets (`Walk.congr`).
-/

namespace MinervaOS

variable {α : Type*} {next next' : α → α} {stop : α → Prop} {a b c : α} {l l' : List α}

inductive Walk (next : α → α) (stop : α → Prop) : α → List α → Prop
  | nil {a : α} : stop a → Walk next stop a []
  | cons {a : α} {l : List α} : ¬stop a → Walk next stop (next a) l → Walk next stop a (a :: l)

/-- `c` is met on the way from `a`, whether or not the way ever stops. -/
def Visits (next : α → α) (stop : α → Prop) (a c : α) : Prop :=
  ∃ n, next^[n] a = c ∧ ∀ k ≤ n, ¬stop (next^[k] a)

namespace Walk

theorem det (h : Walk next stop a l) (h' : Walk next stop a l') : l = l' := by
  induction h generalizing l' with
  | nil hs =>
    cases h' with
    | nil => rfl
    | cons hn => exact absurd hs hn
  | cons hn _ ih =>
    cases h' with
    | nil hs => exact absurd hs hn
    | cons _ h' => rw [ih h']

theorem congr (h : Walk next stop a l) (hl : ∀ c ∈ l, next' c = next c) :
    Walk next' stop a l := by
  induction h with
  | nil hs => exact .nil hs
  | @cons a l hn _ ih =>
    refine .cons hn ?_
    rw [hl a List.mem_cons_self]
    exact ih fun c hc => hl c (List.mem_cons_of_mem _ hc)

theorem not_stop (h : Walk next stop a l) (hc : c ∈ l) : ¬stop c := by
  induction h with
  | nil => simp at hc
  | cons hn _ ih =>
    rcases List.mem_cons.1 hc with rfl | hc
    · exact hn
    · exact ih hc

theorem eq_nil_of_stop (h : Walk next stop a l) (hs : stop a) : l = [] :=
  h.det (.nil hs)

theorem start_mem (h : Walk next stop a l) (hs : ¬stop a) : a ∈ l := by
  cases h with
  | nil h => exact absurd h hs
  | cons _ _ => exact List.mem_cons_self

/-- The walk from a value met is the rest of the walk. -/
theorem suffix_of_mem (h : Walk next stop a l) (hc : c ∈ l) :
    ∃ l₁ l₂, l = l₁ ++ c :: l₂ ∧ Walk next stop c (c :: l₂) := by
  induction h with
  | nil => simp at hc
  | @cons a l hn ht ih =>
    rcases List.mem_cons.1 hc with rfl | hc
    · exact ⟨[], l, rfl, .cons hn ht⟩
    · obtain ⟨l₁, l₂, rfl, hw⟩ := ih hc
      exact ⟨a :: l₁, l₂, rfl, hw⟩

theorem nodup (h : Walk next stop a l) : l.Nodup := by
  induction h with
  | nil => exact List.nodup_nil
  | @cons a l hn ht ih =>
    refine List.nodup_cons.2 ⟨fun ha => ?_, ih⟩
    -- a second visit to `a` would start the same walk again, one value shorter
    obtain ⟨l₁, l₂, rfl, hw⟩ := ht.suffix_of_mem ha
    have := congrArg List.length ((Walk.cons hn ht).det hw)
    simp only [List.length_cons, List.length_append] at this
    omega

theorem next_mem_or_stop (h : Walk next stop a l) (hc : c ∈ l) :
    next c ∈ l ∨ stop (next c) := by
  obtain ⟨l₁, l₂, rfl, hw⟩ := h.suffix_of_mem hc
  cases hw with
  | cons _ ht =>
    by_cases hs : stop (next c)
    · exact .inr hs
    · exact .inl (by simp [ht.start_mem hs])

theorem mem_of_visits (h : Walk next stop a l) (hv : Visits next stop a c) : c ∈ l := by
  obtain ⟨n, hn, hk⟩ := hv
  induction n generalizing c with
  | zero =>
    obtain rfl : a = c := hn
    exact h.start_mem (hk 0 (Nat.le_refl 0))
  | succ n ih =>
    rw [Function.iterate_succ_apply'] at hn
    have hm := ih rfl fun k hk' => hk k (by omega)
    rcases h.next_mem_or_stop hm with hc | hs
    · exact hn ▸ hc
    · refine absurd hs ?_
      have := hk (n + 1) (Nat.le_refl _)
      rwa [Function.iterate_succ_apply'] at this

/-- A walk whose last value now leads to a new one, which stops. -/
theorem snoc (h : Walk next stop a (l ++ [b])) (hne : c ∉ l ++ [b]) (hc : ¬stop c)
    (hold : ∀ x ∈ l, next' x = next x) (hb : next' b = c) (hstop : stop (next' c)) :
    Walk next' stop a (l ++ [b, c]) := by
  induction l generalizing a with
  | nil =>
    cases h with
    | cons hn _ => exact .cons hn (by rw [hb]; exact .cons hc (.nil hstop))
  | cons x l ih =>
    cases h with
    | cons hn ht =>
      refine .cons hn ?_
      rw [hold _ List.mem_cons_self]
      exact ih ht (fun hm => hne (List.mem_cons_of_mem _ hm))
        fun y hy => hold y (List.mem_cons_of_mem _ hy)

/-- The value after the last one stops. -/
theorem stop_next_last (h : Walk next stop a (l ++ [b])) : stop (next b) := by
  induction l generalizing a with
  | nil =>
    cases h with
    | cons _ ht => cases ht with | nil hs => exact hs
  | cons x l ih =>
    cases h with
    | cons _ ht => exact ih ht

/-- The only value met that leads to a stop is the last. -/
theorem last_of_stop_next (h : Walk next stop a l) (hc : c ∈ l) (hs : stop (next c)) :
    ∃ l₁, l = l₁ ++ [c] := by
  obtain ⟨l₁, l₂, rfl, hw⟩ := h.suffix_of_mem hc
  cases hw with
  | cons _ ht => exact ⟨l₁, by rw [ht.eq_nil_of_stop hs]⟩

end Walk

end MinervaOS
