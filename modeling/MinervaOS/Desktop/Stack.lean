import MinervaOS.Desktop.Events
import Mathlib.Data.List.Induction
import Mathlib.Data.List.Perm.Basic

/-!
# The stack of windows

From the head on the windows are a doubly linked list, and what has the focus or is dragged is one
of them. The window manager keeps that, whatever the applications hold.
-/

namespace MinervaOS.Desktop

open Prog

/-- The links of the windows there are. -/
def Ui.links (s : Ui) : Links Nat := fun a => (s.heap a).map fun w => (w.prev, w.next)

/-- The window was created and not destroyed. -/
def Ui.Live (s : Ui) (a : Nat) : Prop := (s.heap a).isSome

/-- A null pointer or one to a window there is. -/
def Ui.Valid (s : Ui) (p : Ptr) : Prop := ∀ a, p = some a → s.Live a

/-- The windows from the head on are `l`. -/
structure Stacked (s : Ui) (l : List Nat) : Prop where
  linked : Linked s.links s.windowListHead l
  focused : ∀ a, s.focusedWindow = some a → a ∈ l
  dragged : ∀ a, s.dragWin = some a → a ∈ l

/-- The variables of the applications are as they were. -/
structure Kept (s s' : Ui) : Prop where
  win : s'.win = s.win
  gTw : s'.gTw = s.gTw

variable {s s' : Ui} {l pre post : List Nat} {a : Nat} {p q : Ptr}
    {f : Window → Window} {w : Window}

theorem Kept.trans {s₁ : Ui} (h : Kept s s₁) (h' : Kept s₁ s') : Kept s s' :=
  ⟨h'.win.trans h.win, h'.gTw.trans h.gTw⟩

theorem Ui.links_isSome : (s.links a).isSome ↔ s.Live a := by
  unfold Ui.links Ui.Live
  rw [Option.isSome_map]

theorem Stacked.live (h : Stacked s l) (ha : a ∈ l) : s.Live a :=
  Ui.links_isSome.1 (h.linked.live ha)

/-- The links of a window of the list. -/
theorem Stacked.at (h : Stacked s (pre ++ a :: post)) :
    ∃ w, s.heap a = some w ∧ w.prev = pre.getLast? ∧ w.next = post.head? := by
  have hat := h.linked.at
  unfold Ui.links at hat
  obtain ⟨w, hw, heq⟩ := Option.map_eq_some_iff.1 hat
  obtain ⟨hprev, hnext⟩ := Prod.mk.inj heq
  exact ⟨w, hw, hprev, hnext⟩

/-! ## Reads and writes -/

theorem Ui.links_write {g : Option Nat × Option Nat → Option Nat × Option Nat}
    (hf : ∀ w, ((f w).prev, (f w).next) = g (w.prev, w.next)) :
    (s.write p f).links = fun b => if some b = p then (s.links b).map g else s.links b := by
  funext b
  unfold Ui.links Ui.write
  by_cases hb : some b = p
  · simp only [if_pos hb]
    cases s.heap b with
    | none => rfl
    | some w => exact congrArg some (hf w)
  · simp only [if_neg hb]

/-- A write that leaves the links alone. -/
theorem Ui.links_write_looks (hf : ∀ w, (f w).prev = w.prev ∧ (f w).next = w.next) :
    (s.write p f).links = s.links := by
  rw [Ui.links_write (g := id) fun w => by rw [(hf w).1, (hf w).2]; rfl]
  funext b
  simp

theorem Ui.links_write_prev :
    (s.write p fun w => { w with prev := q }).links = setPrev s.links p q :=
  Ui.links_write fun _ => rfl

theorem Ui.links_write_next :
    (s.write p fun w => { w with next := q }).links = setNext s.links p q :=
  Ui.links_write fun _ => rfl

theorem Ui.live_write : (s.write p f).Live a ↔ s.Live a := by
  unfold Ui.Live Ui.write
  by_cases ha : some a = p
  · simp only [if_pos ha, Option.isSome_map]
  · simp only [if_neg ha]

@[simp] theorem Ui.windowListHead_write : (s.write p f).windowListHead = s.windowListHead := rfl

theorem Ui.heap_write_of_ne (ha : some a ≠ p) : (s.write p f).heap a = s.heap a := if_neg ha

theorem Ui.write_none : s.write none f = s := by
  unfold Ui.write
  simp

theorem Stacked.looks (h : Stacked s l) (hf : ∀ w, (f w).prev = w.prev ∧ (f w).next = w.next) :
    Stacked (s.write p f) l := by
  refine ⟨?_, h.focused, h.dragged⟩
  rw [Ui.links_write_looks hf]
  exact h.linked

theorem total_deref {Q : Window → Ui → Prop} (hw : s.heap a = some w) (hQ : Q w s) :
    Total (deref (some a)) s Q := by
  unfold deref
  rw [total_bind, total_get, Option.bind_some, hw]
  exact (total_pure ..).2 hQ

theorem total_store {Q : Unit → Ui → Prop} (ha : s.Live a) (hQ : Q () (s.write (some a) f)) :
    Total (store (some a) f) s Q := by
  obtain ⟨w, hw⟩ := Option.isSome_iff_exists.1 ha
  exact (total_bind ..).2 (total_deref hw ((total_modify ..).2 hQ))

/-- A write through a pointer that may be null. -/
theorem total_when_store {Q : Unit → Ui → Prop} (hp : s.Valid p) (hQ : Q () (s.write p f)) :
    Total (when p.isSome (store p f)) s Q := by
  cases p with
  | none =>
    rw [Ui.write_none] at hQ
    exact total_when.2 ⟨nofun, fun _ => hQ⟩
  | some a => exact total_when.2 ⟨fun _ => total_store (hp a rfl) hQ, fun h => absurd rfl h⟩

theorem windowGet_spec {α : Type} {zero : α} {field : Window → α} (hp : s.Valid p) :
    Total (windowGet zero field p) s fun _ s' => s' = s := by
  cases p with
  | none => exact (total_pure ..).2 rfl
  | some a =>
    obtain ⟨w, hw⟩ := Option.isSome_iff_exists.1 (hp a rfl)
    exact (total_bind ..).2 (total_deref hw ((total_pure ..).2 rfl))

theorem windowDraw_spec (hp : s.Valid p) : Total (windowDraw p) s fun _ s' => s' = s := by
  cases p with
  | none => exact (total_pure ..).2 rfl
  | some a =>
    obtain ⟨w, hw⟩ := Option.isSome_iff_exists.1 (hp a rfl)
    exact (total_bind ..).2 (total_deref hw ((total_pure ..).2 rfl))

theorem windowGetNext_spec (h : Stacked s (pre ++ a :: post)) :
    Total (windowGetNext (some a)) s fun r s' => r = post.head? ∧ s' = s := by
  obtain ⟨w, hw, -, hnext⟩ := h.at
  exact (total_bind ..).2 (total_deref hw ((total_pure ..).2 ⟨hnext, rfl⟩))

/-! ## Creating and destroying -/

theorem kmalloc_spec : Total kmalloc s fun p s' => (∃ grants, s' = { s with grants := grants }) ∧
    ∀ a, p = some a → s.heap a = none := by
  unfold kmalloc
  rw [total_bind, total_get]
  rcases hg : s.grants with _ | ⟨p, grants⟩
  · exact (total_pure ..).2 ⟨⟨s.grants, rfl⟩, nofun⟩
  · rw [total_bind, total_set, total_pure]
    refine ⟨⟨grants, rfl⟩, fun a ha => ?_⟩
    obtain ⟨-, hfree⟩ := Option.filter_eq_some_iff.1 ha
    exact Option.isNone_iff_eq_none.1 hfree

theorem windowCreate_spec (h : Stacked s l) {x y width height : UInt32} :
    Total (windowCreate x y width height) s fun p s' => Kept s s' ∧ Stacked s' l ∧
      ∀ a, p = some a → a ∉ l ∧ s'.Live a := by
  unfold windowCreate
  refine (total_bind ..).2 (kmalloc_spec.mono ?_)
  rintro p s' ⟨⟨grants, rfl⟩, hfree⟩
  cases p with
  | none => exact (total_pure ..).2 ⟨⟨rfl, rfl⟩, ⟨h.linked, h.focused, h.dragged⟩, nofun⟩
  | some a =>
    have ha : a ∉ l := by
      intro ha
      have hlive := h.live ha
      unfold Ui.Live at hlive
      rw [hfree a rfl] at hlive
      cases hlive
    rw [total_bind, total_modify, total_pure]
    refine ⟨⟨rfl, rfl⟩, ⟨⟨?_, h.linked.nodup⟩, h.focused, h.dragged⟩, ?_⟩
    · refine h.linked.segment.congr fun b hb => ?_
      have hba : b ≠ a := fun heq => ha (heq ▸ hb)
      unfold Ui.links
      simp only [Function.update_of_ne hba]
    · intro b hb
      obtain rfl := Option.some.inj hb
      refine ⟨ha, ?_⟩
      unfold Ui.Live
      simp only [Function.update_self, Option.isSome_some]

theorem windowManagerAdd_spec (h : Stacked s l) (ha : a ∉ l) (hlive : s.Live a) :
    Total (windowManagerAdd (some a)) s fun _ s' => Kept s s' ∧ Stacked s' (a :: l) := by
  have hmem : ∀ {p : Ptr}, (∀ b, p = some b → b ∈ l) → ∀ b, p = some b → b ∈ a :: l :=
    fun hp b hb => List.mem_cons_of_mem a (hp b hb)
  unfold windowManagerAdd
  simp only [Option.isNone_some, Bool.false_eq_true, if_false, total_bind, total_get]
  refine (total_ite ..).2 ⟨fun hnone => ?_, fun hsome => ?_⟩
  · rw [Option.isNone_iff_eq_none] at hnone
    obtain rfl : l = [] := List.head?_eq_none_iff.1 (h.linked.head ▸ hnone)
    refine (total_bind ..).2 ((total_modify ..).2 ((total_bind ..).2 (total_store hlive ?_)))
    refine total_store (Ui.live_write.2 hlive) ⟨⟨rfl, rfl⟩, ?_, hmem h.focused, hmem h.dragged⟩
    rw [Ui.links_write_next, Ui.links_write_prev]
    exact linked_single (Ui.links_isSome.2 hlive)
  · rw [Option.isNone_iff_eq_none] at hsome
    obtain ⟨b, hb⟩ := Option.ne_none_iff_exists'.1 hsome
    have hhead : s.Live b := h.live (List.mem_of_head? (h.linked.head ▸ hb))
    have hpush := h.linked.push ha (Ui.links_isSome.2 hlive)
    rw [hb] at hpush ⊢
    refine (total_bind ..).2 (total_store hlive ((total_bind ..).2 ?_))
    refine total_store (Ui.live_write.2 hhead) ((total_bind ..).2 ?_)
    refine total_store (Ui.live_write.2 (Ui.live_write.2 hlive)) ((total_modify ..).2 ?_)
    refine ⟨⟨rfl, rfl⟩, ?_, hmem h.focused, hmem h.dragged⟩
    show Linked (((s.write (some a) _).write (some b) _).write (some a) _).links (some a) (a :: l)
    rw [Ui.links_write_prev, Ui.links_write_prev, Ui.links_write_next, setPrev_setNext]
    exact hpush

/-- The block of a window that is not in the list goes back to the heap. -/
theorem kfree_spec (h : Stacked s l) (ha : a ∉ l) :
    Total (kfree (some a)) s fun _ s' => Kept s s' ∧ Stacked s' l := by
  refine (total_modify ..).2 ⟨⟨rfl, rfl⟩, ⟨?_, h.linked.nodup⟩, h.focused, h.dragged⟩
  refine h.linked.segment.congr fun b hb => ?_
  have hba : some b ≠ some a := fun heq => ha (Option.some.inj heq ▸ hb)
  unfold Ui.links
  simp only [if_neg hba]

/-- The first window is taken out of the list, that is not dragged. -/
theorem windowManagerRemove_spec (h : Stacked s (a :: l)) (hdrag : s.dragWin ≠ some a) :
    Total (windowManagerRemove (some a)) s fun _ s' => Kept s s' ∧ Stacked s' l := by
  have hhead : s.windowListHead = some a := h.linked.head
  have hcons : Stacked s ([] ++ a :: l) := h
  obtain ⟨w, hw, -, hnext⟩ := hcons.at
  have hvalid : s.Valid l.head? :=
    fun b hb => h.live (List.mem_cons_of_mem a (List.mem_of_head? hb))
  have hpop : Linked (s.write l.head? fun n => { n with prev := none }).links l.head? l := by
    rw [Ui.links_write_prev]
    exact h.linked.pop
  have hrest : ∀ {p : Ptr}, (∀ b, p = some b → b ∈ a :: l) → p ≠ some a → ∀ b, p = some b → b ∈ l :=
    fun hp hne b hb => (List.mem_cons.1 (hp b hb)).resolve_left fun heq => hne (heq ▸ hb)
  unfold windowManagerRemove unlink
  simp only [Option.isNone_some, Bool.false_eq_true, if_false, total_bind, total_get, hhead,
    Bool.or_self, if_true]
  refine total_deref hw ((total_modify ..).2 ?_)
  rw [hnext]
  refine total_when_store hvalid
    (total_when.2 ⟨fun hfocus => (total_modify ..).2 ?_, fun hfocus => ?_⟩)
  · exact ⟨⟨rfl, rfl⟩, hpop, fun b hb => List.mem_of_head? hb, hrest h.dragged hdrag⟩
  · exact ⟨⟨rfl, rfl⟩, hpop, hrest h.focused hfocus, hrest h.dragged hdrag⟩

theorem windowDestroy_spec (h : Stacked s (a :: l)) (hdrag : s.dragWin ≠ some a) :
    Total (windowDestroy (some a)) s fun _ s' => Kept s s' ∧ Stacked s' l := by
  refine (total_bind ..).2 ((windowManagerRemove_spec h hdrag).mono ?_)
  rintro _ s₁ ⟨hkept, h₁⟩
  refine (kfree_spec h₁ (List.nodup_cons.1 h.linked.nodup).1).mono ?_
  rintro _ s₂ ⟨hkept', h₂⟩
  exact ⟨hkept.trans hkept', h₂⟩

/-! ## Focus -/

/-- The window is cut out, and put in front. -/
theorem windowRaise_spec (h : Stacked s l) (ha : a ∈ l) :
    Total (windowRaise (some a)) s fun _ s' => Kept s s' ∧ s'.focusedWindow = s.focusedWindow ∧
      Stacked s' (a :: l.erase a) := by
  obtain ⟨pre, post, rfl⟩ := List.append_of_mem ha
  have hnd := List.nodup_middle.1 h.linked.nodup
  have hpre : a ∉ pre := fun hm => (List.nodup_cons.1 hnd).1 (List.mem_append_left post hm)
  rw [List.erase_append_right _ hpre, List.erase_cons_head]
  have hsome : s.windowListHead.isSome := by
    rw [h.linked.head]
    cases pre <;> rfl
  obtain ⟨b, hb⟩ := Option.isSome_iff_exists.1 hsome
  have hhead : s.Live b := h.live (List.mem_of_head? (h.linked.head ▸ hb))
  unfold windowRaise
  simp only [Option.isNone_some, hb, Bool.or_self, Bool.false_eq_true, if_false,
    total_bind, total_get]
  refine (total_ite ..).2 ⟨fun hab => (total_pure ..).2 ?_, fun hab => ?_⟩
  · have hnil : pre = [] := by
      cases pre with
      | nil => rfl
      | cons c pre =>
        have hcb : some c = some b := h.linked.head.symm.trans hb
        obtain rfl : c = a := Option.some.inj (hcb.trans hab.symm)
        exact absurd List.mem_cons_self hpre
    subst hnil
    exact ⟨⟨rfl, rfl⟩, rfl, h⟩
  · have hne : pre ≠ [] := by
      rintro rfl
      exact hab (h.linked.head.symm.trans hb)
    obtain ⟨w, hw, hprev, hnext⟩ := h.at
    have hpost : some a ≠ post.head? := fun heq =>
      (List.nodup_cons.1 hnd).1 (List.mem_append_right pre (List.mem_of_head? heq.symm))
    have hcut := h.linked.unlink hne
    rw [← Ui.links_write_prev, ← Ui.links_write_next, hb] at hcut
    simp only [total_bind, total_get]
    refine total_deref hw ?_
    rw [hnext, hprev]
    refine total_when_store ?_ (total_deref ((Ui.heap_write_of_ne hpost).trans hw) ?_)
    · intro c hc
      exact h.live (List.mem_append_right pre (List.mem_cons_of_mem a (List.mem_of_head? hc)))
    rw [hprev, hnext]
    refine total_when_store ?_ ?_
    · intro c hc
      exact Ui.live_write.2 (h.live (List.mem_append_left _ (List.mem_of_getLast? hc)))
    have hpush := hcut.push (a := a) (List.nodup_cons.1 hnd).1 (Ui.links_isSome.2
      (Ui.live_write.2 (Ui.live_write.2 (h.live ha))))
    rw [← Ui.links_write_prev, ← Ui.links_write_next, ← Ui.links_write_prev] at hpush
    simp only [Ui.windowListHead_write, hb]
    refine total_store (Ui.live_write.2 (Ui.live_write.2 hhead)) ?_
    refine total_store (Ui.live_write.2 (Ui.live_write.2 (Ui.live_write.2 (h.live ha)))) ?_
    refine total_store
      (Ui.live_write.2 (Ui.live_write.2 (Ui.live_write.2 (Ui.live_write.2 (h.live ha))))) ?_
    have hp : (a :: (pre ++ post)).Perm (pre ++ a :: post) := List.perm_middle.symm
    exact (total_modify ..).2 ⟨⟨rfl, rfl⟩, rfl, hpush, fun c hc => hp.mem_iff.2 (h.focused c hc),
      fun c hc => hp.mem_iff.2 (h.dragged c hc)⟩

theorem windowSetFocus_spec (h : Stacked s l) (ha : a ∈ l) :
    Total (windowSetFocus (some a)) s fun _ s' => Kept s s' ∧ Stacked s' (a :: l.erase a) := by
  unfold windowSetFocus
  simp only [total_bind, total_get]
  refine total_when_store (fun b hb => h.live (h.focused b hb))
    (total_when.2 ⟨fun _ => ?_, by simp⟩)
  have h₁ := h.looks (p := s.focusedWindow) (f := fun w => { w with focused := false })
    fun w => ⟨rfl, rfl⟩
  refine (total_bind ..).2 ((total_modify ..).2 ((total_bind ..).2 (total_store (h₁.live ha) ?_)))
  have h₂ : Stacked { s.write s.focusedWindow _ with focusedWindow := some a } l :=
    ⟨h₁.linked, fun b hb => Option.some.inj hb ▸ ha, h₁.dragged⟩
  have h₃ := h₂.looks (p := some a) (f := fun w => { w with focused := true }) fun w => ⟨rfl, rfl⟩
  refine (windowRaise_spec h₃ ha).mono ?_
  rintro _ s' ⟨⟨hwin, hgTw⟩, -, h'⟩
  exact ⟨⟨hwin, hgTw⟩, h'⟩

theorem windowToggleMinimize_spec (h : Stacked s l) (ha : s.Live a) :
    Total (windowToggleMinimize (some a)) s fun _ s' => Kept s s' ∧ Stacked s' l ∧ s'.Live a := by
  refine total_when.2 ⟨fun _ => total_store ha ?_, nofun⟩
  exact ⟨⟨rfl, rfl⟩, h.looks fun w => ⟨rfl, rfl⟩, Ui.live_write.2 ha⟩

theorem windowSetPos_spec (h : Stacked s l) (ha : s.Live a) {x y : UInt32} :
    Total (windowSetPos (some a) x y) s fun _ s' => Kept s s' ∧ Stacked s' l := by
  refine (total_bind ..).2 (total_store ha (total_store (Ui.live_write.2 ha) ?_))
  have hx := h.looks (p := some a) (f := fun w => { w with x := x }) fun w => ⟨rfl, rfl⟩
  exact ⟨⟨rfl, rfl⟩, hx.looks fun w => ⟨rfl, rfl⟩⟩

/-! ## Drawing -/

theorem walkToTail_spec :
    ∀ {l : List Nat} (pre : List Nat) {n : Nat}, Stacked s (pre ++ l) → l.length < n →
    Total (walkToTail n pre.getLast? l.head?) s fun r s' => r = (pre ++ l).getLast? ∧ s' = s
  | [], pre, n + 1, h, _ => by
    rw [List.append_nil]
    exact (total_pure ..).2 ⟨rfl, rfl⟩
  | a :: l, pre, n + 1, h, hn => by
    obtain ⟨w, hw, -, hnext⟩ := h.at
    refine (total_bind ..).2 (total_deref hw ?_)
    rw [hnext]
    have hstep := walkToTail_spec (l := l) (pre ++ [a]) (n := n)
      (by rw [List.append_assoc]; exact h) (Nat.lt_of_succ_lt_succ hn)
    rw [List.getLast?_concat, List.append_assoc] at hstep
    exact hstep

theorem windowRender_spec (ha : s.Live a) : Total (windowRender (some a)) s fun _ s' => s' = s := by
  obtain ⟨w, hw⟩ := Option.isSome_iff_exists.1 ha
  refine (total_bind ..).2 (total_deref hw (total_when.2 ⟨fun _ => ?_, fun _ => rfl⟩))
  exact windowDraw_spec fun b hb => Option.some.inj hb ▸ ha

theorem renderBack_spec (pre : List Nat) : ∀ (post : List Nat) {n : Nat}, Stacked s (pre ++ post) →
    pre.length < n → Total (renderBack n pre.getLast?) s fun _ s' => s' = s := by
  induction pre using List.reverseRecOn with
  | nil =>
    intro post n h hn
    cases n with
    | zero => cases hn
    | succ n => exact (total_pure ..).2 rfl
  | append_singleton pre a ih =>
    intro post n h hn
    cases n with
    | zero => cases hn
    | succ n =>
      rw [List.append_assoc] at h
      rw [List.length_append] at hn
      rw [List.getLast?_concat]
      obtain ⟨w, hw, hprev, -⟩ := h.at
      refine (total_bind ..).2 ((windowRender_spec (h.live (List.mem_append_right pre
        List.mem_cons_self))).mono ?_)
      rintro _ _ rfl
      refine (total_bind ..).2 (total_deref hw ?_)
      rw [hprev]
      exact ih _ h (Nat.lt_of_succ_lt_succ hn)

theorem windowManagerRenderAll_spec (h : Stacked s l) (hl : l.length < walkSteps) :
    Total windowManagerRenderAll s fun _ s' => s' = s := by
  unfold windowManagerRenderAll
  simp only [total_bind, total_get]
  rw [h.linked.head]
  refine (walkToTail_spec [] h hl).mono ?_
  rintro _ _ ⟨rfl, rfl⟩
  refine renderBack_spec l [] ?_ hl
  rw [List.append_nil]
  exact h

end MinervaOS.Desktop
