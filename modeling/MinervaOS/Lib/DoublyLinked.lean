import Mathlib.Data.List.Nodup
import Mathlib.Logic.Function.Basic

/-!
# Doubly linked lists

A heap of nodes is seen through its links: what is before a node and what is behind it. `Linked`
says that the nodes from a head on, in both directions, are a list without repetition; the writes
that put a node in front, take the first away and cut one out of the middle do to that list what
they should.
-/

namespace MinervaOS

variable {A : Type}

/-- The previous and the next of every node there is. -/
abbrev Links (A : Type) := A → Option (Option A × Option A)

/-- From `h` on the nodes of `l` follow each other up to `t`; what is before the first is `p`. -/
def Segment (k : Links A) : Option A → Option A → List A → Option A → Prop
  | _, h, [], t => h = t
  | p, h, a :: l, t => h = some a ∧ ∃ n, k a = some (p, n) ∧ Segment k (some a) n l t

/-- The whole list from a head on. -/
structure Linked (k : Links A) (h : Option A) (l : List A) : Prop where
  segment : Segment k none h l none
  nodup : l.Nodup

variable {k k' : Links A} {p h t : Option A} {l l₁ l₂ pre post : List A} {a : A}

theorem Segment.congr : ∀ {l : List A} {p h : Option A}, (∀ a ∈ l, k' a = k a) → Segment k p h l t →
    Segment k' p h l t
  | [], _, _, _, hs => hs
  | a :: _, _, _, hk, ⟨rfl, n, ha, hs⟩ =>
    ⟨rfl, n, (hk a List.mem_cons_self).trans ha,
      hs.congr fun b hb => hk b (List.mem_cons_of_mem _ hb)⟩

theorem segment_append : ∀ {l₁ : List A} {p h : Option A}, Segment k p h (l₁ ++ l₂) t ↔
    ∃ n, Segment k p h l₁ n ∧ Segment k (l₁.getLast?.or p) n l₂ t
  | [], p, h => by
    constructor
    · intro hs
      exact ⟨h, rfl, hs⟩
    · rintro ⟨n, rfl, hs⟩
      exact hs
  | a :: l₁, p, h => by
    have hlast : (a :: l₁).getLast?.or p = l₁.getLast?.or (some a) := by
      rw [List.getLast?_cons]
      cases l₁.getLast? <;> rfl
    rw [hlast]
    constructor
    · rintro ⟨rfl, n, ha, hs⟩
      obtain ⟨n', hs₁, hs₂⟩ := segment_append.1 hs
      exact ⟨n', ⟨rfl, n, ha, hs₁⟩, hs₂⟩
    · rintro ⟨n', ⟨rfl, n, ha, hs₁⟩, hs₂⟩
      exact ⟨rfl, n, ha, segment_append.2 ⟨n', hs₁, hs₂⟩⟩

theorem Segment.head (hs : Segment k p h l none) : h = l.head? := by
  cases l with
  | nil => exact hs
  | cons a l => exact hs.1

/-- The links of a node of the list. -/
theorem Linked.at (hl : Linked k h (pre ++ a :: post)) : k a = some (pre.getLast?, post.head?) := by
  obtain ⟨n, -, rfl, n', ha, hs⟩ := segment_append.1 hl.segment
  rw [ha, Option.or_none, hs.head]

theorem Linked.live (hl : Linked k h l) (ha : a ∈ l) : (k a).isSome := by
  obtain ⟨pre, post, rfl⟩ := List.append_of_mem ha
  rw [hl.at]
  rfl

theorem Linked.head (hl : Linked k h l) : h = l.head? := hl.segment.head

theorem linked_nil : Linked k none [] := ⟨rfl, List.nodup_nil⟩

/-! ## Writes -/

variable [DecidableEq A]

/-- `a->prev = p`, where `a` may be null. -/
def setPrev (k : Links A) (a p : Option A) : Links A := fun b =>
  if some b = a then (k b).map fun x => (p, x.2) else k b

/-- `a->next = n`, where `a` may be null. -/
def setNext (k : Links A) (a n : Option A) : Links A := fun b =>
  if some b = a then (k b).map fun x => (x.1, n) else k b

theorem setPrev_of_ne {p : Option A} (h : some a ≠ t) : setPrev k t p a = k a := if_neg h

theorem setNext_of_ne {n : Option A} (h : some a ≠ t) : setNext k t n a = k a := if_neg h

theorem setPrev_setNext {b n : Option A} :
    setPrev (setNext k b n) t p = setNext (setPrev k t p) b n := by
  funext c
  unfold setPrev setNext
  by_cases hb : some c = b <;> by_cases ht : some c = t
  · simp only [if_pos hb, if_pos ht, Option.map_map]
    rfl
  · simp only [if_pos hb, if_neg ht]
  · simp only [if_neg hb, if_pos ht]
  · simp only [if_neg hb, if_neg ht]

/-- A new previous of the first node. -/
theorem Segment.with_prev (hs : Segment k p h l t) (hnd : l.Nodup) {p' : Option A} :
    Segment (setPrev k l.head? p') p' h l t := by
  cases l with
  | nil => exact hs
  | cons a l =>
    obtain ⟨rfl, n, ha, hs⟩ := hs
    rw [List.nodup_cons] at hnd
    refine ⟨rfl, n, ?_, hs.congr fun b hb => setPrev_of_ne ?_⟩
    · rw [setPrev, List.head?_cons, if_pos rfl, ha]
      rfl
    · intro heq
      exact hnd.1 (Option.some.inj heq ▸ hb)

/-- A new next of the last node. -/
theorem Segment.with_next : ∀ {l : List A} {p h : Option A}, Segment k p h l t → l.Nodup → l ≠ [] →
    ∀ {t' : Option A}, Segment (setNext k l.getLast? t') p h l t'
  | [], _, _, _, _, hne, _ => absurd rfl hne
  | [a], _, _, ⟨rfl, n, ha, _⟩, _, _, t' => by
    refine ⟨rfl, t', ?_, rfl⟩
    rw [setNext, List.getLast?_singleton, if_pos rfl, ha]
    rfl
  | a :: b :: l, _, _, ⟨rfl, n, ha, hs⟩, hnd, _, t' => by
    rw [List.nodup_cons] at hnd
    rw [List.getLast?_cons_cons]
    refine ⟨rfl, n, ?_, hs.with_next hnd.2 (List.cons_ne_nil _ _)⟩
    rw [setNext_of_ne, ha]
    intro heq
    exact hnd.1 (List.mem_of_getLast? heq.symm)

/-- A node put in front of the list. -/
theorem Linked.push (hl : Linked k h l) (ha : a ∉ l) (hk : (k a).isSome) :
    Linked (setPrev (setNext (setPrev k h (some a)) (some a) h) (some a) none) (some a)
      (a :: l) := by
  obtain ⟨x, hx⟩ := Option.isSome_iff_exists.1 hk
  have hne : some a ≠ h := by
    rw [hl.head]
    exact fun heq => ha (List.mem_of_head? heq.symm)
  refine ⟨⟨rfl, h, ?_, ?_⟩, List.nodup_cons.2 ⟨ha, hl.nodup⟩⟩
  · rw [setPrev, if_pos rfl, setNext, if_pos rfl, setPrev_of_ne hne, hx]
    rfl
  · have hs : Segment (setPrev k l.head? (some a)) (some a) h l none :=
      hl.segment.with_prev hl.nodup
    rw [← hl.head] at hs
    refine hs.congr fun b hb => ?_
    have hba : some b ≠ some a := fun heq => ha (Option.some.inj heq ▸ hb)
    rw [setPrev_of_ne hba, setNext_of_ne hba]

/-- A node alone. -/
theorem linked_single (hk : (k a).isSome) :
    Linked (setNext (setPrev k (some a) none) (some a) none) (some a) [a] := by
  obtain ⟨x, hx⟩ := Option.isSome_iff_exists.1 hk
  refine ⟨⟨rfl, none, ?_, rfl⟩, List.nodup_singleton a⟩
  rw [setNext, if_pos rfl, setPrev, if_pos rfl, hx]
  rfl

/-- The first node taken away. -/
theorem Linked.pop (hl : Linked k h (a :: l)) : Linked (setPrev k l.head? none) l.head? l := by
  obtain ⟨rfl, n, -, hs⟩ := hl.segment
  have hnd := (List.nodup_cons.1 hl.nodup).2
  obtain rfl := hs.head
  exact ⟨hs.with_prev hnd, hnd⟩

/-- A node cut out of the middle. -/
theorem Linked.unlink (hl : Linked k h (pre ++ a :: post)) (hpre : pre ≠ []) :
    Linked (setNext (setPrev k post.head? pre.getLast?) pre.getLast? post.head?) h
      (pre ++ post) := by
  obtain ⟨hnd, hnd', hdis⟩ := List.nodup_append'.1 hl.nodup
  rw [List.nodup_cons] at hnd'
  obtain ⟨n, hs₁, rfl, n', ha, hs₂⟩ := segment_append.1 hl.segment
  obtain rfl := hs₂.head
  rw [Option.or_none] at ha
  have hdis' : ∀ b ∈ pre, b ∉ post := fun b hb hb' => hdis hb (List.mem_cons_of_mem a hb')
  refine ⟨segment_append.2 ⟨post.head?, ?_, ?_⟩, List.nodup_append'.2 ⟨hnd, hnd'.2, hdis'⟩⟩
  · refine Segment.with_next (hs₁.congr fun b hb => setPrev_of_ne ?_) hnd hpre
    exact fun heq => hdis' b hb (List.mem_of_head? heq.symm)
  · rw [Option.or_none]
    refine (hs₂.with_prev hnd'.2).congr fun b hb => setNext_of_ne ?_
    exact fun heq => hdis' b (List.mem_of_getLast? heq.symm) hb

end MinervaOS
