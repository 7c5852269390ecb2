import MinervaOS.Desktop.Stack
import Mathlib.Algebra.Group.Nat.Defs
import Mathlib.Data.Finset.Card

/-!
# The order of the windows

What the calls of the window manager do to the order of the windows, whatever they are called for: a
window is put in front, moved to the front or taken out, and the others stay in their order. After
any calls the links lead through the windows in this order, back through them in the other, and that
is how they are drawn.
-/

namespace MinervaOS.Desktop

open Prog

/-- A call of the window manager. -/
inductive ManagerCall where
  | create (x y width height : UInt32)
  | add (a : Nat)
  | setFocus (a : Nat)
  | raise (a : Nat)
  | remove (a : Nat)
  | destroy (a : Nat)

namespace ManagerCall

def run : ManagerCall → Prog Ui Unit
  | create x y width height => do let _ ← windowCreate x y width height
  | add a => windowManagerAdd (some a)
  | setFocus a => windowSetFocus (some a)
  | raise a => windowRaise (some a)
  | remove a => windowManagerRemove (some a)
  | destroy a => windowDestroy (some a)

/-- The order after a call. -/
def order (l : List Nat) : ManagerCall → List Nat
  | create .. => l
  | add a => a :: l
  | setFocus a | raise a => a :: l.erase a
  | remove a | destroy a => l.erase a

/-- A window is added that there is and that is not listed; the other calls are for listed ones. A
pointer has 32 bits. -/
def Allowed (s : Ui) (l : List Nat) : ManagerCall → Prop
  | create .. => True
  | add a => (s.heap a).isSome ∧ a ∉ l ∧ a < 2 ^ 32
  | setFocus a | raise a | remove a | destroy a => a ∈ l

instance (s : Ui) (l : List Nat) : ∀ c : ManagerCall, Decidable (c.Allowed s l)
  | create .. => .isTrue trivial
  | add a => inferInstanceAs (Decidable ((s.heap a).isSome ∧ a ∉ l ∧ a < 2 ^ 32))
  | setFocus a | raise a | remove a | destroy a => inferInstanceAs (Decidable (a ∈ l))

end ManagerCall

/-- Every call is allowed in the state and the order that those before it lead to. -/
def AllowedRun : List ManagerCall → Ui → List Nat → Prop
  | [], _, _ => True
  | c :: cs, s, l => c.Allowed s l ∧ ∀ s' ∈ (c.run s).map Prod.snd, AllowedRun cs s' (c.order l)

instance decidableAllowedRun :
    ∀ (cs : List ManagerCall) (s : Ui) (l : List Nat), Decidable (AllowedRun cs s l)
  | [], _, _ => .isTrue trivial
  | c :: cs, s, l =>
    have : ∀ s', Decidable (AllowedRun cs s' (c.order l)) := fun s' => decidableAllowedRun cs s' _
    inferInstanceAs
      (Decidable (c.Allowed s l ∧ ∀ s' ∈ (c.run s).map Prod.snd, AllowedRun cs s' (c.order l)))

/-- The windows from one on, by a link, if it leads to the end in so many steps. -/
def Ui.follow (s : Ui) (link : Window → Ptr) : Nat → Ptr → Option (List Nat)
  | _, none => some []
  | 0, some _ => none
  | n + 1, some a => do
    let w ← s.heap a
    let l ← s.follow link n (link w)
    return a :: l

/-- `renderBack`, with what drawing each window gives. -/
def renderBackWith {β : Type} (render : Ptr → Prog Ui β) : Nat → Ptr → Prog Ui (List β)
  | 0, _ => failure
  | steps + 1, win => do
    if win.isNone then return []
    let b ← render win
    let w ← deref win
    let bs ← renderBackWith render steps w.prev
    return b :: bs

/-- `window_manager_render_all`, with what drawing each window gives. -/
def windowManagerRenderAllWith {β : Type} (render : Ptr → Prog Ui β) : Prog Ui (List β) := do
  let tail ← walkToTail walkSteps none (← get).windowListHead
  renderBackWith render walkSteps tail

/-- A window that is drawn, noted. -/
def visit (win : Ptr) : Prog Ui Ptr := do
  windowRender win
  return win

variable {s s' : Ui} {l pre post : List Nat} {a : Nat} {p : Ptr}

theorem visit_bind {β : Type} (f : Ptr → Prog Ui β) :
    (visit p >>= f) = windowRender p >>= fun _ => f p := by
  simp [visit]

theorem renderBack_eq (n : Nat) (p : Ptr) :
    renderBack n p = (fun _ => ()) <$> renderBackWith visit n p := by
  induction n generalizing p with
  | zero => rfl
  | succ n ih =>
    unfold renderBack renderBackWith
    simp only [ih, visit_bind]
    split <;> simp

/-- Noting the windows changes nothing about how they are drawn. -/
theorem windowManagerRenderAll_eq :
    windowManagerRenderAll = (fun _ => ()) <$> windowManagerRenderAllWith visit := by
  unfold windowManagerRenderAll windowManagerRenderAllWith
  simp only [renderBack_eq]
  simp

/-! ## What the calls keep -/

section Keeps

variable {Inv : Ui → Prop} {f : Window → Window} {x y width height : UInt32}

/-- A condition that the links have no part in. -/
structure Unlinked (Inv : Ui → Prop) : Prop where
  prev : ∀ s p q, Inv s → Inv (s.write p fun w => { w with prev := q })
  next : ∀ s p q, Inv s → Inv (s.write p fun w => { w with next := q })
  head : ∀ s q, Inv s → Inv { s with windowListHead := q }

theorem deref_keeps : Keeps Inv (deref p) := by
  refine .bind .get fun s => ?_
  cases p.bind s.heap with
  | none => exact .failure
  | some w => exact .pure w

theorem store_keeps (hf : ∀ s, Inv s → Inv (s.write p f)) : Keeps Inv (store p f) :=
  .bind deref_keeps fun _ => .modify hf

theorem Unlinked.setPrev (h : Unlinked Inv) (q : Ptr) :
    Keeps Inv (store p fun w => { w with prev := q }) :=
  store_keeps fun s hs => h.prev s p q hs

theorem Unlinked.setNext (h : Unlinked Inv) (q : Ptr) :
    Keeps Inv (store p fun w => { w with next := q }) :=
  store_keeps fun s hs => h.next s p q hs

theorem Unlinked.add (h : Unlinked Inv) : Keeps Inv (windowManagerAdd p) := by
  refine .ite (fun _ => .pure ()) fun _ => .bind .get fun s => .ite (fun _ => ?_) fun _ => ?_
  · exact .bind (.modify fun t ht => h.head t p ht) fun _ => .bind (h.setPrev none) fun _ =>
      h.setNext none
  · exact .bind (h.setNext _) fun _ => .bind (h.setPrev p) fun _ => .bind (h.setPrev none) fun _ =>
      .modify fun t ht => h.head t p ht

theorem Unlinked.unlink (h : Unlinked Inv) : Keeps Inv (unlink p) := by
  refine .bind .get fun s => .ite (fun _ => ?_) fun _ => ?_
  · exact .bind deref_keeps fun w => .bind (.modify fun t ht => h.head t w.next ht) fun _ =>
      .when fun _ => h.setPrev none
  · exact .bind deref_keeps fun w => .bind (.when fun _ => h.setNext w.next) fun _ =>
      .bind deref_keeps fun w' => .when fun _ => h.setPrev w'.prev

theorem Unlinked.raise (h : Unlinked Inv) : Keeps Inv (windowRaise p) := by
  refine .bind .get fun s => .ite (fun _ => .pure ()) fun _ => .bind .get fun t =>
    .ite (fun _ => .pure ()) fun _ => ?_
  refine .bind deref_keeps fun w => .bind (.when fun _ => h.setPrev w.prev) fun _ => ?_
  refine .bind deref_keeps fun w' => .bind (.when fun _ => h.setNext w'.next) fun _ =>
    .bind .get fun t => ?_
  exact .bind (h.setPrev p) fun _ => .bind (h.setNext _) fun _ => .bind (h.setPrev none) fun _ =>
    .modify fun t ht => h.head t p ht

/-- No window is dragged; the window manager has no part in that. -/
def Undragged (s : Ui) : Prop := s.dragWin = none

theorem undragged_unlinked : Unlinked Undragged :=
  ⟨fun _ _ _ hs => hs, fun _ _ _ hs => hs, fun _ _ hs => hs⟩

theorem windowCreate_undragged : Keeps Undragged (windowCreate x y width height) := by
  have hmalloc : Keeps Undragged kmalloc := by
    intro s p s' hs h
    obtain ⟨grants, rfl⟩ := (kmalloc_spec.of_eq h).1
    exact hs
  refine .bind hmalloc fun p => ?_
  cases p with
  | none => exact .pure none
  | some a => exact .bind (.modify fun _ hs => hs) fun _ => .pure (some a)

theorem windowManagerRemove_undragged : Keeps Undragged (windowManagerRemove p) :=
  .bind .get fun _ => .ite (fun _ => .pure ()) fun _ => .bind undragged_unlinked.unlink fun _ =>
    .bind .get fun _ => .when fun _ => .modify fun _ hs => hs

theorem windowDestroy_undragged : Keeps Undragged (windowDestroy p) :=
  .ite (fun _ => .pure ()) fun _ => .bind windowManagerRemove_undragged fun _ =>
    .modify fun _ hs => hs

theorem windowSetFocus_undragged : Keeps Undragged (windowSetFocus p) :=
  .bind .get fun _ => .bind (.when fun _ => store_keeps fun _ hs => hs) fun _ => .when fun _ =>
    .bind (.modify fun _ hs => hs) fun _ => .bind (store_keeps fun _ hs => hs) fun _ =>
      undragged_unlinked.raise

theorem ManagerCall.undragged (c : ManagerCall) : Keeps Undragged c.run := by
  cases c with
  | create x y width height => exact .bind windowCreate_undragged fun _ => .pure ()
  | add a => exact undragged_unlinked.add
  | setFocus a => exact windowSetFocus_undragged
  | raise a => exact undragged_unlinked.raise
  | remove a => exact windowManagerRemove_undragged
  | destroy a => exact windowDestroy_undragged

end Keeps

/-! ## One call -/

/-- A listed window is taken out. -/
theorem windowManagerRemove_listed (h : Stacked s l) (ha : a ∈ l) (hdrag : s.dragWin ≠ some a) :
    Total (windowManagerRemove (some a)) s fun _ s' => Stacked s' (l.erase a) := by
  obtain ⟨pre, post, rfl⟩ := List.append_of_mem ha
  have hnd := List.nodup_middle.1 h.linked.nodup
  have hpre : a ∉ pre := fun hm => (List.nodup_cons.1 hnd).1 (List.mem_append_left post hm)
  rw [List.erase_append_right _ hpre, List.erase_cons_head]
  cases pre with
  | nil => exact (windowManagerRemove_spec h hdrag).mono fun _ _ h' => h'.2
  | cons b pre =>
    have hhead : s.windowListHead = some b := h.linked.head
    have hba : some a ≠ some b := fun heq => hpre (Option.some.inj heq ▸ List.mem_cons_self)
    obtain ⟨w, hw, hprev, hnext⟩ := h.at
    have hlast : some a ≠ (b :: pre).getLast? := fun heq => hpre (List.mem_of_getLast? heq.symm)
    have hcut := h.linked.unlink (List.cons_ne_nil b pre)
    have hrest : ∀ {q : Ptr}, (∀ c, q = some c → c ∈ b :: pre ++ a :: post) → q ≠ some a →
        ∀ c, q = some c → c ∈ b :: pre ++ post := by
      intro q hq hne c hc
      have hca : c ≠ a := fun heq => hne (heq ▸ hc)
      exact (List.mem_cons.1 (List.perm_middle.mem_iff.1 (hq c hc))).resolve_left hca
    rw [← setPrev_setNext, ← Ui.links_write_next, ← Ui.links_write_prev] at hcut
    unfold windowManagerRemove unlink
    simp only [Option.isNone_some, Bool.false_eq_true, if_false, total_bind, total_get,
      hhead, Bool.or_self, if_neg hba]
    refine total_deref hw ?_
    rw [hprev, hnext]
    refine total_when_store ?_ (total_deref ((Ui.heap_write_of_ne hlast).trans hw) ?_)
    · intro c hc
      exact h.live (List.mem_append_left _ (List.mem_of_getLast? hc))
    rw [hprev, hnext]
    refine total_when_store ?_
      (total_when.2 ⟨fun hfocus => (total_modify ..).2 ?_, fun hfocus => ?_⟩)
    · intro c hc
      exact Ui.live_write.2
        (h.live (List.mem_append_right _ (List.mem_cons_of_mem a (List.mem_of_head? hc))))
    · refine ⟨hcut, fun c hc => ?_, hrest h.dragged hdrag⟩
      obtain rfl := Option.some.inj (hhead.symm.trans hc)
      exact List.mem_cons_self
    · exact ⟨hcut, hrest h.focused hfocus, hrest h.dragged hdrag⟩

theorem windowDestroy_listed (h : Stacked s l) (ha : a ∈ l) (hdrag : s.dragWin ≠ some a) :
    Total (windowDestroy (some a)) s fun _ s' => Stacked s' (l.erase a) := by
  refine (total_bind ..).2 ((windowManagerRemove_listed h ha hdrag).mono fun _ s₁ h₁ => ?_)
  exact (kfree_spec h₁ h.linked.nodup.not_mem_erase).mono fun _ _ h' => h'.2

/-- A call leaves the windows in the order that it should. -/
theorem ManagerCall.stacked (c : ManagerCall) (h : Stacked s l) (hdrag : Undragged s)
    (hc : c.Allowed s l) :
    Total c.run s fun _ s' => Stacked s' (c.order l) ∧ Undragged s' := by
  have hnone : ∀ a, s.dragWin ≠ some a := fun a => by rw [hdrag]; exact fun heq => by cases heq
  refine Total.and_meets ?_ (c.undragged.meets hdrag)
  cases c with
  | create x y width height =>
    exact (total_bind ..).2 ((windowCreate_spec h).mono fun _ s₁ h₁ => (total_pure ..).2 h₁.2.1)
  | add a => exact (windowManagerAdd_spec h hc.2.1 hc.1).mono fun _ _ h' => h'.2
  | setFocus a => exact (windowSetFocus_spec h hc).mono fun _ _ h' => h'.2
  | raise a => exact (windowRaise_spec h hc).mono fun _ _ h' => h'.2.2
  | remove a => exact windowManagerRemove_listed h hc (hnone a)
  | destroy a => exact windowDestroy_listed h hc (hnone a)

/-! ## What the order is good for -/

theorem follow_next : ∀ {l : List Nat} (pre : List Nat), Stacked s (pre ++ l) →
    s.follow Window.next l.length l.head? = some l
  | [], _, _ => by simp [Ui.follow]
  | a :: l, pre, h => by
    obtain ⟨w, hw, -, hnext⟩ := h.at
    have hrest := follow_next (pre ++ [a]) (l := l) (by rwa [List.append_assoc])
    rw [List.length_cons, List.head?_cons, Ui.follow, hw]
    simp [hnext, hrest]

theorem follow_prev (pre : List Nat) : ∀ {post : List Nat}, Stacked s (pre ++ post) →
    s.follow Window.prev pre.length pre.getLast? = some pre.reverse := by
  induction pre using List.reverseRecOn with
  | nil => simp [Ui.follow]
  | append_singleton pre a ih =>
    intro post h
    rw [List.append_assoc] at h
    obtain ⟨w, hw, hprev, -⟩ := h.at
    have hrest := ih h
    rw [List.length_append, List.length_singleton, List.getLast?_concat, Ui.follow, hw]
    simp [hprev, hrest]

section Render

variable {β : Type} {render : Ptr → Prog Ui β} {f : Nat → β}

/-- Windows that are drawn without a change are drawn from the back to the front. -/
theorem renderBackWith_spec (pre : List Nat) :
    ∀ (post : List Nat) {n : Nat}, Stacked s (pre ++ post) →
    pre.length < n → (∀ a ∈ pre, Total (render (some a)) s fun b s' => b = f a ∧ s' = s) →
      Total (renderBackWith render n pre.getLast?) s fun r s' =>
        r = pre.reverse.map f ∧ s' = s := by
  induction pre using List.reverseRecOn with
  | nil =>
    intro post n h hn _
    cases n with
    | zero => cases hn
    | succ n => exact (total_pure ..).2 ⟨rfl, rfl⟩
  | append_singleton pre a ih =>
    intro post n h hn hrender
    cases n with
    | zero => cases hn
    | succ n =>
      rw [List.append_assoc] at h
      rw [List.length_append] at hn
      rw [List.getLast?_concat]
      obtain ⟨w, hw, hprev, -⟩ := h.at
      have hlast := hrender a (List.mem_append_right pre List.mem_cons_self)
      refine (total_bind ..).2 (hlast.mono fun b s₁ hs₁ => ?_)
      rw [hs₁.1, hs₁.2]
      refine (total_bind ..).2 (total_deref hw ((total_bind ..).2 ?_))
      rw [hprev]
      refine (ih _ h (Nat.lt_of_succ_lt_succ hn) fun b hb =>
        hrender b (List.mem_append_left _ hb)).mono
        fun r s₂ hr => (total_pure ..).2 ⟨?_, hr.2⟩
      rw [hr.1]
      simp

theorem windowManagerRenderAllWith_spec (h : Stacked s l) (hl : l.length < walkSteps)
    (hrender : ∀ a ∈ l, Total (render (some a)) s fun b s' => b = f a ∧ s' = s) :
    Total (windowManagerRenderAllWith render) s fun r s' => r = l.reverse.map f ∧ s' = s := by
  unfold windowManagerRenderAllWith
  simp only [total_bind, total_get]
  rw [h.linked.head]
  refine (walkToTail_spec [] h hl).mono fun r s₁ hr => ?_
  rw [hr.1, hr.2]
  refine renderBackWith_spec l [] ?_ hl hrender
  rwa [List.append_nil]

end Render

theorem windowManagerRenderAllWith_visit (h : Stacked s l) (hl : l.length < walkSteps) :
    Total (windowManagerRenderAllWith visit) s fun r s' => r = l.reverse.map some ∧ s' = s :=
  windowManagerRenderAllWith_spec h hl fun a ha =>
    (total_bind ..).2 ((windowRender_spec (h.live ha)).mono
    fun _ s₁ hs₁ => (total_pure ..).2 ⟨rfl, hs₁⟩)

/-- The windows are listed in this order: it can be followed from the head on, back from its end,
and it is drawn from the back to the front. -/
structure Ordered (s : Ui) (l : List Nat) : Prop where
  nodup : l.Nodup
  forward : s.follow Window.next l.length s.windowListHead = some l
  backward : s.follow Window.prev l.length l.getLast? = some l.reverse
  drawn : Total (windowManagerRenderAllWith visit) s fun r s' => r = l.reverse.map some ∧ s' = s

/-- Addresses of 32 bits are not more than a walk takes steps. -/
theorem length_lt_walkSteps (hnd : l.Nodup) (hl : ∀ a ∈ l, a < 2 ^ 32) : l.length < walkSteps := by
  have hsub : l.toFinset ⊆ Finset.range (2 ^ 32) := fun a ha =>
    Finset.mem_range.2 (hl a (List.mem_toFinset.1 ha))
  have hcard := Finset.card_le_card hsub
  rw [List.toFinset_card_of_nodup hnd, Finset.card_range] at hcard
  unfold walkSteps
  omega

theorem Stacked.ordered (h : Stacked s l) (hl : ∀ a ∈ l, a < 2 ^ 32) : Ordered s l where
  nodup := h.linked.nodup
  forward := by
    rw [h.linked.head]
    exact follow_next [] h
  backward := by
    have hback : Stacked s (l ++ []) := by rwa [List.append_nil]
    exact follow_prev l hback
  drawn := windowManagerRenderAllWith_visit h (length_lt_walkSteps h.linked.nodup hl)

theorem ManagerCall.order_small (c : ManagerCall) (hc : c.Allowed s l) (hl : ∀ a ∈ l, a < 2 ^ 32) :
    ∀ a ∈ c.order l, a < 2 ^ 32 := by
  intro a ha
  cases c with
  | create x y width height => exact hl a ha
  | add b =>
    rcases List.mem_cons.1 ha with rfl | ha
    · exact hc.2.2
    · exact hl a ha
  | setFocus b | raise b =>
    rcases List.mem_cons.1 ha with rfl | ha
    · exact hl a hc
    · exact hl a (List.mem_of_mem_erase ha)
  | remove b | destroy b => exact hl a (List.mem_of_mem_erase ha)

theorem calls_stacked (calls : List ManagerCall) (h : Stacked s l) (hdrag : Undragged s)
    (hl : ∀ a ∈ l, a < 2 ^ 32) (hcalls : AllowedRun calls s l) :
    Total (runAll ManagerCall.run calls) s fun _ s' =>
      Ordered s' (calls.foldl ManagerCall.order l) := by
  induction calls generalizing s l with
  | nil => exact (total_pure ..).2 (h.ordered hl)
  | cons c cs ih =>
    obtain ⟨hc, hrest⟩ := hcalls
    obtain ⟨u, s₁, hm, h₁, hdrag₁⟩ := c.stacked h hdrag hc
    have hmem : s₁ ∈ (c.run s).map Prod.snd := by
      rw [hm]
      rfl
    refine (total_bind ..).2 ⟨u, s₁, hm, (total_bind ..).2 ?_⟩
    refine (ih h₁ hdrag₁ (c.order_small hc hl) (hrest s₁ hmem)).mono fun us s₂ h₂ => ?_
    exact (total_pure ..).2 h₂

/-- Whatever is created, added, focused, raised, removed and destroyed, the windows are in the order
that the calls make. -/
theorem calls_order (grants : List Ptr) (calls : List ManagerCall)
    (h : AllowedRun calls (Ui.start grants) []) :
    Total (do windowManagerInit; runAll ManagerCall.run calls) (Ui.start grants) fun _ s =>
      Ordered s (calls.foldl ManagerCall.order []) := by
  refine (total_bind ..).2 ((total_modify ..).2 ?_)
  refine calls_stacked calls ⟨linked_nil, fun a ha => ?_, fun a ha => ?_⟩ rfl
    (fun a ha => by cases ha) h
  · cases ha
  · cases ha

/-- Two windows, the one behind raised and the other destroyed. -/
theorem calls_order_two : Total (do
      windowManagerInit
      runAll ManagerCall.run [.create 0 0 9 9, .create 1 1 9 9, .add 1, .add 2,
        .raise 1, .destroy 2])
    (Ui.start [some 1, some 2]) fun _ s => Ordered s [1] := by
  refine calls_order [some 1, some 2] _ ?_
  decide

end MinervaOS.Desktop
