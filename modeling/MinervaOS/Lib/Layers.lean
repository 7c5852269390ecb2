import Mathlib.Data.List.Induction
import Mathlib.Logic.Basic

/-!
# Layers

Shapes are drawn one over the other, each for an owner. What is seen at a point is of the last shape
on it: of the last group of shapes if that has one there (`seen_append`), and where every group has
one owner, of the last group that is on the point (`seen_flatMap`). On a canvas, shapes that agree at
a point leave their paint there (`foldl_put`).
-/

namespace MinervaOS.Layers

variable {O S P A : Type} (covers : S → P → Bool)

/-- Some shape is on the point. -/
def covered (layers : List (O × S)) (p : P) : Bool := layers.any fun l => covers l.2 p

/-- The owner of the last shape on the point. -/
def seen (layers : List (O × S)) (p : P) : Option O :=
  (layers.reverse.find? fun l => covers l.2 p).map (·.1)

variable {covers} {layers layers' : List (O × S)} {p : P} {o : O}

theorem seen_append :
    seen covers (layers ++ layers') p = (seen covers layers' p).or (seen covers layers p) := by
  unfold seen
  rw [List.reverse_append, List.find?_append, Option.map_or]

theorem seen_eq_none (h : ∀ l ∈ layers, covers l.2 p = false) : seen covers layers p = none := by
  unfold seen
  rw [Option.map_eq_none_iff, List.find?_eq_none]
  intro l hl
  rw [h l (List.mem_reverse.1 hl)]
  exact Bool.false_ne_true

theorem seen_owner (h : ∀ l ∈ layers, l.1 = o) :
    seen covers layers p = if covered covers layers p then some o else none := by
  by_cases hcovered : covered covers layers p = true
  · rw [if_pos hcovered]
    obtain ⟨l, hl, hp⟩ := List.any_eq_true.1 hcovered
    have hsome : (layers.reverse.find? fun l => covers l.2 p).isSome := by
      rw [List.find?_isSome]
      exact ⟨l, List.mem_reverse.2 hl, hp⟩
    obtain ⟨l', hl'⟩ := Option.isSome_iff_exists.1 hsome
    unfold seen
    rw [hl', Option.map_some, h l' (List.mem_reverse.1 (List.mem_of_find?_eq_some hl'))]
  · rw [if_neg hcovered]
    refine seen_eq_none fun l hl => ?_
    by_contra hp
    exact hcovered (List.any_eq_true.2 ⟨l, hl, by simpa using hp⟩)

/-- Groups of shapes, each of one owner. -/
theorem seen_flatMap {f : A → List (O × S)} (owner : A → O) (groups : List A)
    (h : ∀ a ∈ groups, ∀ l ∈ f a, l.1 = owner a) :
    seen covers (groups.flatMap f) p =
      (groups.reverse.find? fun a => covered covers (f a) p).map owner := by
  induction groups using List.reverseRecOn with
  | nil => rfl
  | append_singleton groups a ih =>
    have hlast : seen covers (f a) p = if covered covers (f a) p then some (owner a) else none :=
      seen_owner (h a (List.mem_append_right _ List.mem_cons_self))
    have hrest := ih fun b hb => h b (List.mem_append_left _ hb)
    rw [List.flatMap_append, List.flatMap_singleton, seen_append, hrest, hlast, List.reverse_concat,
      List.find?_cons]
    cases covered covers (f a) p
    · rfl
    · rfl

/-! ## A canvas -/

section Canvas

variable {V : Type} [DecidableEq P] {place : S → Option P} {paint : S → V}

/-- A shape puts its paint at one place, or nowhere. -/
def put (place : S → Option P) (paint : S → V) (canvas : P → V) (s : S) : P → V :=
  match place s with
  | none => canvas
  | some p => Function.update canvas p (paint s)

/-- What is behind shapes that agree at a point. -/
theorem foldl_put {shapes : List S} {p : P} {v : V}
    (h : ∀ s ∈ shapes, place s = some p → paint s = v) (canvas : P → V) :
    shapes.foldl (put place paint) canvas p =
      if shapes.any fun s => place s == some p then v else canvas p := by
  induction shapes generalizing canvas with
  | nil => rfl
  | cons s shapes ih =>
    have hrest := ih (fun t ht => h t (List.mem_cons_of_mem _ ht)) (put place paint canvas s)
    rw [List.foldl_cons, hrest, List.any_cons]
    by_cases hlater : (shapes.any fun s => place s == some p) = true
    · rw [if_pos hlater, hlater, Bool.or_true, if_pos rfl]
    rw [if_neg hlater, Bool.eq_false_iff.2 hlater, Bool.or_false, put]
    cases hplace : place s with
    | none => rfl
    | some q =>
      by_cases hq : q = p
      · subst hq
        rw [if_pos (by simp)]
        simpa using h s List.mem_cons_self hplace
      · rw [if_neg (by simpa using hq)]
        exact Function.update_of_ne (Ne.symm hq) _ _

end Canvas

/-! ## The first in an order -/

/-- In a list that is in order, what is found is the first that there is. -/
theorem find?_first {R : A → A → Prop} {q : A → Bool} {as : List A} {k : A}
    (hR : ∀ a b, R a b → ¬R b a)
    (h : as.Pairwise R) :
    as.find? q = some k ↔ k ∈ as ∧ q k = true ∧ ∀ a ∈ as, q a = true → a = k ∨ R k a := by
  constructor
  · intro hfind
    obtain ⟨hk, before, after, rfl, hbefore⟩ := List.find?_eq_some_iff_append.1 hfind
    refine ⟨List.mem_append_right _ List.mem_cons_self, hk, fun a ha hq => ?_⟩
    rcases List.mem_append.1 ha with hmem | hmem
    · have hno := hbefore a hmem
      rw [hq] at hno
      cases hno
    · rcases List.mem_cons.1 hmem with rfl | hmem
      · exact .inl rfl
      · exact .inr (List.rel_of_pairwise_cons (List.pairwise_append.1 h).2.1 hmem)
  · intro hfirst
    obtain ⟨hmem, hk, hfirst⟩ := hfirst
    have hsome : (as.find? q).isSome := by
      rw [List.find?_isSome]
      exact ⟨k, hmem, hk⟩
    obtain ⟨b, hb⟩ := Option.isSome_iff_exists.1 hsome
    obtain ⟨hq, before, after, rfl, hbefore⟩ := List.find?_eq_some_iff_append.1 hb
    rw [hb]
    rcases hfirst b (List.mem_append_right _ List.mem_cons_self) hq with rfl | hkb
    · rfl
    rcases List.mem_append.1 hmem with hmem | hmem
    · have hno := hbefore k hmem
      rw [hk] at hno
      cases hno
    rcases List.mem_cons.1 hmem with rfl | hmem
    · rfl
    · exact absurd (List.rel_of_pairwise_cons (List.pairwise_append.1 h).2.1 hmem) (hR k b hkb)

/-- A list without repetition is in the order of its indices. -/
theorem pairwise_idxOf [DecidableEq A] {as : List A} (h : as.Nodup) :
    as.Pairwise fun a b => as.idxOf a < as.idxOf b := by
  rw [List.pairwise_iff_getElem]
  intro i j hi hj hij
  rw [h.idxOf_getElem, h.idxOf_getElem]
  exact hij

end MinervaOS.Layers
