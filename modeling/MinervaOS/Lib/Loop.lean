import Mathlib.Logic.Basic
import Mathlib.Logic.Relation

/-!
# Loops

A computation that may fail is an `Option`; `Yields m Q` says that it does not, and that its result
satisfies `Q`. A loop is a pass that either goes on from a new state or ends with a result, run at
most so many times: it yields a result where every pass does, keeps an invariant and brings some
measure down (`loop_yields`).
-/

namespace MinervaOS

variable {σ α β : Type}

/-- There is a result, and it satisfies `Q`. -/
def Yields (m : Option α) (Q : α → Prop) : Prop := ∃ a, m = some a ∧ Q a

namespace Yields

variable {m : Option α} {Q Q' : α → Prop} {a : α}

theorem mono (h : Yields m Q) (hQ : ∀ a, Q a → Q' a) : Yields m Q' := by
  obtain ⟨a, hm, ha⟩ := h
  exact ⟨a, hm, hQ a ha⟩

theorem pure (h : Q a) : Yields (pure a) Q := ⟨a, rfl, h⟩

theorem bind {f : α → Option β} {R : β → Prop} (h : Yields m Q) (hf : ∀ a, Q a → Yields (f a) R) :
    Yields (m >>= f) R := by
  obtain ⟨a, rfl, ha⟩ := h
  exact hf a ha

theorem ite {c : Prop} [Decidable c] {m' : Option α} (h : c → Yields m Q) (h' : ¬c → Yields m' Q) :
    Yields (if c then m else m') Q := by
  by_cases hc : c
  · rw [if_pos hc]
    exact h hc
  · rw [if_neg hc]
    exact h' hc

theorem and (h : Yields m Q) (h' : Yields m Q') : Yields m fun a => Q a ∧ Q' a := by
  obtain ⟨a, rfl, ha⟩ := h
  obtain ⟨b, hb, hb'⟩ := h'
  obtain rfl := Option.some.inj hb
  exact ⟨a, rfl, ha, hb'⟩

theorem of_eq (h : Yields m Q) (hm : m = some a) : Q a := by
  obtain ⟨b, hb, hQ⟩ := h
  obtain rfl := Option.some.inj (hm.symm.trans hb)
  exact hQ

end Yields

/-- The result, if there is one, satisfies `Q`. -/
def Gives (m : Option α) (Q : α → Prop) : Prop := ∀ a, m = some a → Q a

namespace Gives

variable {m : Option α} {Q Q' : α → Prop} {a : α}

theorem any : Gives m fun _ => True := fun _ _ => trivial

theorem mono (h : Gives m Q) (hQ : ∀ a, Q a → Q' a) : Gives m Q' := fun a ha => hQ a (h a ha)

theorem pure (h : Q a) : Gives (pure a) Q := fun _ hb => Option.some.inj hb ▸ h

theorem bind {f : α → Option β} {R : β → Prop} (h : Gives m Q) (hf : ∀ a, Q a → Gives (f a) R) :
    Gives (m >>= f) R := by
  intro b hb
  obtain ⟨a, ha, hfa⟩ := Option.bind_eq_some_iff.1 hb
  exact hf a (h a ha) b hfa

theorem ite {c : Prop} [Decidable c] {m' : Option α} (h : c → Gives m Q) (h' : ¬c → Gives m' Q) :
    Gives (if c then m else m') Q := by
  by_cases hc : c
  · rw [if_pos hc]
    exact h hc
  · rw [if_neg hc]
    exact h' hc

end Gives

/-- An element that is there. -/
theorem yields_getElem {l : List α} {i : Nat} (h : i < l.length) : Yields l[i]? fun a => a = l[i] :=
  ⟨l[i], List.getElem?_eq_getElem h, rfl⟩

/-- What a pass of a loop ends in: the state of the next pass, or a result. -/
abbrev Pass (σ α : Type) := σ ⊕ α

/-- The loop from a state on, in at most so many passes. -/
def loop (pass : σ → Option (Pass σ α)) : Nat → σ → Option α
  | 0, _ => none
  | n + 1, s => do
    match ← pass s with
    | .inl s' => loop pass n s'
    | .inr a => some a

/-- What a pass has to end in: a state of the invariant with less to go, or a result that is wanted.
-/
def Advances (I : σ → Prop) (m : σ → Nat) (Q : α → Prop) (s : σ) : Pass σ α → Prop
  | .inl s' => I s' ∧ m s' < m s
  | .inr a => Q a

theorem loop_yields {pass : σ → Option (Pass σ α)} {I : σ → Prop} {m : σ → Nat} {Q : α → Prop}
    (h : ∀ s, I s → Yields (pass s) (Advances I m Q s)) :
    ∀ {n : Nat} {s : σ}, I s → m s < n → Yields (loop pass n s) Q
  | 0, _, _, hn => absurd hn (Nat.not_lt_zero _)
  | n + 1, s, hs, hn => by
    refine Yields.bind (h s hs) fun r hr => ?_
    cases r with
    | inl s' => exact loop_yields h hr.1 (Nat.lt_of_lt_of_le hr.2 (Nat.le_of_lt_succ hn))
    | inr a => exact ⟨a, rfl, hr⟩

/-- A state that the loop comes to. -/
def Reaches (pass : σ → Option (Pass σ α)) : σ → σ → Prop :=
  Relation.ReflTransGen fun s s' => pass s = some (.inl s')

/-- The invariant holds in every state that the loop comes to. -/
theorem Reaches.keeps {pass : σ → Option (Pass σ α)} {I : σ → Prop} {m : σ → Nat} {Q : α → Prop}
    (h : ∀ s, I s → Yields (pass s) (Advances I m Q s)) {s s' : σ} (hs : I s)
    (hr : Reaches pass s s') : I s' := by
  induction hr with
  | refl => exact hs
  | tail _ hpass ih => exact ((h _ ih).of_eq hpass).1

/-- Where the loop ends. -/
theorem loop_reaches {pass : σ → Option (Pass σ α)} {I : σ → Prop} {m : σ → Nat} {Q : α → Prop}
    (h : ∀ s, I s → Yields (pass s) (Advances I m Q s)) :
    ∀ {n : Nat} {s : σ}, I s → m s < n →
      ∃ t a, Reaches pass s t ∧ pass t = some (.inr a) ∧ loop pass n s = some a
  | 0, _, _, hn => absurd hn (Nat.not_lt_zero _)
  | n + 1, s, hs, hn => by
    obtain ⟨r, hpass, hr⟩ := h s hs
    cases r with
    | inl s' =>
      obtain ⟨t, a, ht, hend, hloop⟩ :=
        loop_reaches h hr.1 (Nat.lt_of_lt_of_le hr.2 (Nat.le_of_lt_succ hn))
      refine ⟨t, a, Relation.ReflTransGen.head hpass ht, hend, ?_⟩
      unfold loop
      rw [hpass]
      exact hloop
    | inr a =>
      refine ⟨s, a, Relation.ReflTransGen.refl, hpass, ?_⟩
      unfold loop
      rw [hpass]
      rfl

/-- Every state that the loop comes to is before the one where it ends. -/
theorem Reaches.to_end {pass : σ → Option (Pass σ α)} {s₀ s t : σ} {a : α} (hs : Reaches pass s₀ s)
    (ht : Reaches pass s₀ t) (hend : pass t = some (.inr a)) : Reaches pass s t := by
  have hunique : Relator.RightUnique fun s s' : σ => pass s = some (.inl s') := fun s s₁ s₂ h₁ h₂ =>
    Sum.inl.inj (Option.some.inj (h₁.symm.trans h₂))
  rcases Relation.ReflTransGen.total_of_right_unique hunique hs ht with h | h
  · exact h
  · rcases Relation.ReflTransGen.cases_head h with rfl | ⟨s', hpass, -⟩
    · exact Relation.ReflTransGen.refl
    · rw [hend] at hpass
      cases hpass

theorem Reaches.end_unique {pass : σ → Option (Pass σ α)} {s₀ s t : σ} {a b : α}
    (hs : Reaches pass s₀ s)
    (hends : pass s = some (.inr a)) (ht : Reaches pass s₀ t) (hendt : pass t = some (.inr b)) :
    s = t := by
  rcases Relation.ReflTransGen.cases_head (hs.to_end ht hendt) with h | ⟨s', hpass, -⟩
  · exact h
  · rw [hends] at hpass
    cases hpass

/-- A loop of which every pass is known takes exactly its passes. -/
theorem loop_of_path {pass : σ → Option (Pass σ α)} {f : Nat → σ} {n : Nat} {a : α}
    (hend : pass (f n) = some (.inr a)) : ∀ (k steps : Nat), k ≤ n →
      (∀ i, k ≤ i → i < n → pass (f i) = some (.inl (f (i + 1)))) →
      loop pass steps (f k) = if n - k < steps then some a else none
  | _, 0, _, _ => (if_neg (Nat.not_lt_zero _)).symm
  | k, steps + 1, hk, hpass => by
    unfold loop
    rcases Nat.lt_or_eq_of_le hk with hlt | rfl
    · rw [hpass k (Nat.le_refl k) hlt]
      show loop pass steps (f (k + 1)) = _
      rw [loop_of_path hend (k + 1) steps hlt fun i hi => hpass i (Nat.le_of_succ_le hi)]
      have hiff : n - (k + 1) < steps ↔ n - k < steps + 1 := by omega
      by_cases h : n - k < steps + 1
      · rw [if_pos h, if_pos (hiff.2 h)]
      · rw [if_neg h, if_neg fun h' => h (hiff.1 h')]
    · rw [hend, Nat.sub_self, if_pos (Nat.succ_pos steps)]
      rfl

/-- The loop with what comes out of its passes. -/
def loopOut (pass : σ → Option (Pass σ α)) (out : σ → Pass σ α → List β) :
    Nat → σ → Option (α × List β)
  | 0, _ => none
  | n + 1, s => do
    match ← pass s with
    | .inl s' => (loopOut pass out n s').map fun r => (r.1, out s (.inl s') ++ r.2)
    | .inr a => some (a, out s (.inr a))

theorem loopOut_fst (pass : σ → Option (Pass σ α)) (out : σ → Pass σ α → List β) :
    ∀ (n : Nat) (s : σ), (loopOut pass out n s).map (·.1) = loop pass n s
  | 0, _ => rfl
  | n + 1, s => by
    unfold loopOut loop
    rcases pass s with _ | r
    · rfl
    rcases r with s' | a
    · show ((loopOut pass out n s').map fun r => (r.1, out s (.inl s') ++ r.2)).map (·.1) =
        loop pass n s'
      rw [Option.map_map, ← loopOut_fst pass out n s']
      rfl
    · rfl

/-- What every pass keeps of the state and of all that has come out. -/
theorem loopOut_keeps {pass : σ → Option (Pass σ α)} {out : σ → Pass σ α → List β}
    {I : List β → σ → Prop}
    {Q : List β → α → Prop} (h : ∀ acc s, I acc s →
      Gives (pass s) fun r => Sum.elim (I (acc ++ out s r)) (Q (acc ++ out s r)) r) :
    ∀ {n : Nat} {acc : List β} {s : σ}, I acc s →
      Gives (loopOut pass out n s) fun r => Q (acc ++ r.2) r.1
  | 0, _, _, _ => fun _ hr => (by cases hr)
  | n + 1, acc, s, hs => by
    refine Gives.bind (h acc s hs) fun r hr => ?_
    rcases r with s' | a
    · intro t ht
      obtain ⟨t', ht', rfl⟩ := Option.map_eq_some_iff.1 ht
      have hrest : Q (acc ++ out s (.inl s') ++ t'.2) t'.1 := loopOut_keeps h hr t' ht'
      rwa [List.append_assoc] at hrest
    · exact Gives.pure hr

end MinervaOS
