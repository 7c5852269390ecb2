import MinervaOS.Desktop.Frames

/-!
# The highlighted border

`focused_window` and the flag of the windows are two copies of one fact. `window_set_focus` moves
both; `window_manager_remove` moves the pointer on to the head of the list and leaves the flag of
that window as it is. So the two agree as long as no window is closed that is not the last one.
-/

namespace MinervaOS.Desktop

open Prog

/-- The windows that have the flag are the one that `focused_window` points to. -/
structure Lit (s : Ui) : Prop where
  flag : ∀ a w, s.heap a = some w → (w.focused = true ↔ s.focusedWindow = some a)
  live : ∀ a, s.focusedWindow = some a → s.Live a

/-- A window is dragged while the first button is down. -/
def Held (s : Ui) : Prop := s.dragWin.isSome → s.prevBtns &&& 1 ≠ 0

/-- The first button is down. -/
def Pressing (s : Ui) : Prop := s.prevBtns &&& 1 ≠ 0

/-- The highlighted border marks the window that the manager considers focused, and that is a listed
one. -/
structure Highlighted (s : Ui) : Prop where
  flag : ∀ a w, s.heap a = some w → (w.focused = true ↔ s.focusedWindow = some a)
  listed : ∃ l, Linked s.links s.windowListHead l ∧ ∀ a, s.focusedWindow = some a → a ∈ l

/-! ## What a click selects -/

/-- The window is shown, and the point is in its rectangle. -/
def Window.hit (w : Window) (mx my : Int32) : Bool :=
  !w.minimized && inRect mx my w.x.toInt32 w.y.toInt32 w.width.toInt32 w.height.toInt32

/-- The first window from one on that is hit. -/
def selectFrom (heap : Nat → Option Window) (mx my : Int32) : Nat → Ptr → Ptr
  | 0, _ => none
  | n + 1, p => do
    let a ← p
    let w ← heap a
    if w.hit mx my then some a else selectFrom heap mx my n w.next

/-- The window that `window_click` selects. -/
def Ui.select (s : Ui) (mx my : Int32) : Ptr := selectFrom s.heap mx my walkSteps s.windowListHead

/-- The point is on the button that closes the window. -/
def Window.onClose (w : Window) (mx my : Int32) : Bool :=
  inRect mx my (w.x.toInt32 + w.width.toInt32 - btnW) w.y.toInt32 btnW titlebarHeight

/-- If the turn closes a window, no other is listed. -/
def ClosesLast (i : Input) (s : Ui) : Prop :=
  i.btns &&& ~~~s.prevBtns &&& 1 ≠ 0 → i.my < taskbarY →
    ∀ a ∈ s.select i.mx i.my, ∀ w ∈ s.heap a, w.onClose i.mx i.my = true →
      w.prev = none ∧ w.next = none

instance (i : Input) (s : Ui) : Decidable (ClosesLast i s) :=
  inferInstanceAs (Decidable (i.btns &&& ~~~s.prevBtns &&& 1 ≠ 0 → i.my < taskbarY →
    ∀ a ∈ s.select i.mx i.my, ∀ w ∈ s.heap a, w.onClose i.mx i.my = true →
      w.prev = none ∧ w.next = none))

/-- What a turn with the mouse finds. -/
def Input.mouse (btns : UInt8) (mx my : Int32) : Input where
  btns := btns
  mx := mx
  my := my
  key := none
  link := false
  command := none
  home := false

variable {s s' : Ui} {l pre post : List Nat} {a : Nat} {p : Ptr} {w : Window} {mx my : Int32}

/-! ## Windows that are opened -/

theorem Lit.looks {f : Window → Window} (hf : ∀ w, (f w).focused = w.focused) (h : Lit s) :
    Lit (s.write p f) := by
  refine ⟨fun a w hw => ?_, fun a ha => Ui.live_write.2 (h.live a ha)⟩
  by_cases ha : some a = p
  · have hmap : (s.heap a).map f = some w := (if_pos ha).symm.trans hw
    obtain ⟨w₀, hw₀, rfl⟩ := Option.map_eq_some_iff.1 hmap
    rw [hf]
    exact h.flag a w₀ hw₀
  · exact h.flag a w ((Ui.heap_write_of_ne ha).symm.trans hw)

theorem Lit.create {x y width height : UInt32} (ha : s.heap a = none) (h : Lit s) :
    Lit { s with heap := Function.update s.heap a (some (newWindow x y width height)) } := by
  have hne : ∀ b, s.focusedWindow = some b → b ≠ a := by
    rintro b hb rfl
    have hlive := h.live b hb
    rw [Ui.Live, ha] at hlive
    cases hlive
  refine ⟨fun b w hw => ?_, fun b hb => ?_⟩
  · by_cases hba : b = a
    · subst hba
      simp only [Function.update_self, Option.some.injEq] at hw
      subst hw
      exact iff_of_false (by simp [newWindow]) fun hb => hne b hb rfl
    · simp only [Function.update_of_ne hba] at hw
      exact h.flag b w hw
  · show ((Function.update s.heap a _) b).isSome
    rw [Function.update_of_ne (hne b hb)]
    exact h.live b hb

/-- The flag goes from the window that had the focus to the one that gets it. -/
theorem Lit.focus (hlive : s.Live a) (h : Lit s) : Lit (s.focusOn a) := by
  refine ⟨fun b w hw => ?_, fun b hb => ?_⟩
  · by_cases hba : b = a
    · subst hba
      have hset : (_ : Option Window).map _ = some w := (if_pos rfl).symm.trans hw
      obtain ⟨w₀, -, rfl⟩ := Option.map_eq_some_iff.1 hset
      exact iff_of_true rfl rfl
    · have hne : some b ≠ some a := fun heq => hba (Option.some.inj heq)
      have hw₁ : (s.write s.focusedWindow fun w => { w with focused := false }).heap b = some w :=
        (Ui.heap_write_of_ne hne).symm.trans hw
      refine iff_of_false (fun hlit => ?_) fun heq => hne heq.symm
      by_cases hb : some b = s.focusedWindow
      · have hclear : (s.heap b).map _ = some w := (if_pos hb).symm.trans hw₁
        obtain ⟨w₀, -, rfl⟩ := Option.map_eq_some_iff.1 hclear
        cases hlit
      · rw [Ui.heap_write_of_ne hb] at hw₁
        exact hb ((h.flag b w hw₁).1 hlit).symm
  · obtain rfl := Option.some.inj hb
    exact Ui.live_write.2 (Ui.live_write.2 hlive)

/-- The window manager has no part in the mouse. -/
theorem stable_mouse {P : UInt8 → Ptr → Prop} : Stable fun s => P s.prevBtns s.dragWin where
  looks _ _ _ _ h := h
  head _ _ h := h
  grants _ _ h := h
  create _ _ _ _ _ _ _ h := h
  win _ _ h := h
  gTw _ _ h := h
  focus _ _ _ h := h

theorem Stable.and {Inv Inv' : Ui → Prop} (st : Stable Inv) (st' : Stable Inv') :
    Stable fun s => Inv s ∧ Inv' s where
  looks s p f hf h := ⟨st.looks s p f hf h.1, st'.looks s p f hf h.2⟩
  head s q h := ⟨st.head s q h.1, st'.head s q h.2⟩
  grants s g h := ⟨st.grants s g h.1, st'.grants s g h.2⟩
  create s a x y width height ha h :=
    ⟨st.create s a x y width height ha h.1, st'.create s a x y width height ha h.2⟩
  win s win h := ⟨st.win s win h.1, st'.win s win h.2⟩
  gTw s b h := ⟨st.gTw s b h.1, st'.gTw s b h.2⟩
  focus s a hlive h := ⟨st.focus s a hlive h.1, st'.focus s a hlive h.2⟩

theorem lit_stable : Stable Lit where
  looks _ _ _ hf h := h.looks hf
  head _ _ h := ⟨h.flag, h.live⟩
  grants _ _ h := ⟨h.flag, h.live⟩
  create _ _ _ _ _ _ ha h := h.create ha
  win _ _ h := ⟨h.flag, h.live⟩
  gTw _ _ h := ⟨h.flag, h.live⟩
  focus _ _ hlive h := h.focus hlive

/-- A click is handled with the button down. -/
theorem clicking_stable : Stable fun s => Lit s ∧ Pressing s :=
  lit_stable.and (stable_mouse (P := fun btns _ => btns &&& 1 ≠ 0))

/-! ## Clicks -/

theorem windowGet_field {α : Type} {zero : α} {field : Window → α} (hw : s.heap a = some w) :
    Total (windowGet zero field (some a)) s fun r s' => r = field w ∧ s' = s :=
  (total_bind ..).2 (total_deref hw ((total_pure ..).2 ⟨rfl, rfl⟩))

/-- With the last window the pointer goes, and no other has the flag. -/
theorem windowDestroy_last (hs : Stacked s [a]) (h : Lit s) :
    Total (windowDestroy (some a)) s fun _ s' => Lit s' ∧ s'.prevBtns = s.prevBtns := by
  have hhead : s.windowListHead = some a := hs.linked.head
  have hsplit : Stacked s ([] ++ a :: []) := hs
  obtain ⟨w, hw, -, hnext⟩ := hsplit.at
  have hothers : ∀ b w, s.heap b = some w → w.focused = true → b = a := by
    intro b w hb hlit
    exact List.mem_singleton.1 (hs.focused b ((h.flag b w hb).1 hlit))
  have hdark : ∀ t : Ui, t.heap = (fun b => if some b = some a then none else s.heap b) →
      t.focusedWindow = none → Lit t := by
    intro t hheap hfocus
    refine ⟨fun b w hb => ?_, fun b hb => ?_⟩
    · rw [hfocus]
      refine iff_of_false (fun hlit => ?_) fun heq => by cases heq
      rw [hheap] at hb
      by_cases hba : some b = some a
      · simp [hba] at hb
      · simp only [if_neg hba] at hb
        exact hba (congrArg some (hothers b w hb hlit))
    · rw [hfocus] at hb
      cases hb
  unfold windowDestroy windowManagerRemove unlink kfree
  simp only [Option.isNone_some, Bool.false_eq_true, if_false, total_bind, total_get,
    hhead, Bool.or_self, if_true]
  refine total_deref hw ((total_modify ..).2 ?_)
  rw [hnext]
  refine total_when.2 ⟨fun hsome => absurd hsome (by simp), fun _ =>
    total_when.2 ⟨fun _ => ?_, fun hfocus => ?_⟩⟩
  · exact (total_modify ..).2 ((total_modify ..).2 ⟨hdark _ rfl rfl, rfl⟩)
  · have hnone : s.focusedWindow = none := by
      refine Option.eq_none_iff_forall_ne_some.2 fun b hb => hfocus ?_
      rw [← List.mem_singleton.1 (hs.focused b hb)]
      exact hb
    exact (total_modify ..).2 ⟨hdark _ rfl hnone, rfl⟩

theorem windowClicked_lit (hd : Desk s l) (ha : a ∈ l) {link : Bool} {wx wy ww : Int32}
    (h : Lit s ∧ Pressing s)
    (hlast : inRect mx my (wx + ww - btnW) wy btnW titlebarHeight = true → l = [a]) :
    Meets (windowClicked link mx my (some a) wx wy ww) s fun _ s' => Lit s' ∧ Pressing s' := by
  refine Meets.bind ?_
  refine (((clicking_stable.windowSetFocus a).meets h).and (windowSetFocus_desk hd ha).meets).mono
    fun _ s₁ hs₁ => ?_
  obtain ⟨hlit, -, hd₁⟩ := hs₁
  refine Meets.ite (fun hclose => ?_) fun _ => Meets.ite (fun _ => ?_) fun _ =>
    Meets.ite (fun _ => ?_) fun _ => ?_
  · rw [hlast hclose, List.erase_cons_head] at hd₁
    have hrest : ∀ t, Desk t [a] → Lit t ∧ Pressing t →
        Meets (do windowClosed (some a); windowDestroy (some a) : Prog Ui Unit) t
          fun _ s' => Lit s' ∧ Pressing s' := by
      intro t ht hlit
      refine Meets.bind ((windowClosed_spec ht.terminal).meets.mono fun _ t₁ ht₁ => ?_)
      have hs₁ : Stacked t₁ [a] := by
        rw [ht₁]
        exact ⟨ht.stacked.linked, ht.stacked.focused, ht.stacked.dragged⟩
      have hlit₁ : Lit t₁ ∧ Pressing t₁ := by
        rw [ht₁]
        exact ⟨⟨hlit.1.flag, hlit.1.live⟩, hlit.2⟩
      refine (windowDestroy_last hs₁ hlit₁.1).meets.mono fun _ t₂ ht₂ => ⟨ht₂.1, ?_⟩
      rw [Pressing, ht₂.2]
      exact hlit₁.2
    refine Meets.bind (Meets.get (Q := fun t r => Meets _ r fun _ t' => Lit t' ∧ Pressing t') ?_)
    refine Meets.bind (Meets.when (fun _ => Meets.modify ?_) fun _ => hrest s₁ hd₁ hlit)
    refine hrest _ ⟨⟨hd₁.stacked.linked, hd₁.stacked.focused, fun b hb => ?_⟩, hd₁.holds,
      hd₁.terminal⟩ ?_
    · cases hb
    · exact ⟨⟨hlit.1.flag, hlit.1.live⟩, hlit.2⟩
  · exact clicking_stable.toggle.meets hlit
  · exact Meets.modify ⟨⟨hlit.1.flag, hlit.1.live⟩, hlit.2⟩
  · exact clicking_stable.contentClicked.meets hlit

theorem windowClickFrom_lit {link : Bool} :
    ∀ {l : List Nat} (pre : List Nat) {n : Nat}, Desk s (pre ++ l) →
    Lit s ∧ Pressing s →
    (∀ a ∈ selectFrom s.heap mx my n l.head?, ∀ w ∈ s.heap a, w.onClose mx my = true →
      w.prev = none ∧ w.next = none) →
    Meets (windowClickFrom link mx my n l.head?) s fun _ s' => Lit s' ∧ Pressing s'
  | _, _, 0, _, _, _ => Meets.failure
  | [], pre, n + 1, _, h, _ => Meets.pure h
  | a :: l, pre, n + 1, hd, h, hclose => by
    have ha : a ∈ pre ++ a :: l := List.mem_append_right pre List.mem_cons_self
    obtain ⟨w, hw, hprev, hnext⟩ := hd.stacked.at
    have hselect : selectFrom s.heap mx my (n + 1) (some a) =
        if w.hit mx my then some a else selectFrom s.heap mx my n w.next := by
      simp [selectFrom, hw]
    have hrest : w.hit mx my = false →
        Meets (do windowClickFrom link mx my n (← windowGetNext (some a))) s
          fun _ s' => Lit s' ∧ Pressing s' := by
      intro hhit
      refine Meets.bind ((windowGet_field hw).meets.mono fun next s₁ hs₁ => ?_)
      rw [hs₁.1, hs₁.2, hnext]
      refine windowClickFrom_lit (pre ++ [a]) ?_ h ?_
      · rw [List.append_assoc]
        exact hd
      · rw [List.head?_cons, hselect, hhit, hnext] at hclose
        exact hclose
    refine Meets.ite (fun hnone => by cases hnone) fun _ => Meets.bind ?_
    refine (windowGet_field hw).meets.mono fun minimized s₁ hs₁ => ?_
    rw [hs₁.1, hs₁.2]
    refine Meets.ite (fun hmin => hrest (by simp [Window.hit, hmin])) fun hmin => Meets.bind ?_
    refine (windowGet_field hw).meets.mono fun wx s₂ hs₂ => Meets.bind ?_
    rw [hs₂.1, hs₂.2]
    refine (windowGet_field hw).meets.mono fun wy s₃ hs₃ => Meets.bind ?_
    rw [hs₃.1, hs₃.2]
    refine (windowGet_field hw).meets.mono fun ww s₄ hs₄ => Meets.bind ?_
    rw [hs₄.1, hs₄.2]
    refine (windowGet_field hw).meets.mono fun wh s₅ hs₅ => ?_
    rw [hs₅.1, hs₅.2]
    refine Meets.ite (fun hout => hrest ?_) fun hin => Meets.bind ?_
    · simp only [Bool.not_eq_true'] at hout
      simp [Window.hit, hout]
    · have hhit : w.hit mx my = true := by simpa [Window.hit, hmin] using hin
      rw [List.head?_cons, hselect, hhit] at hclose
      refine (windowClicked_lit hd ha h fun honclose => ?_).mono fun _ s₆ hs₆ => Meets.pure hs₆
      obtain ⟨hp, hn⟩ := hclose a rfl w hw honclose
      rw [hprev] at hp
      rw [hnext] at hn
      rw [List.getLast?_eq_none_iff.1 hp, List.head?_eq_none_iff.1 hn]
      rfl

theorem windowClick_lit {link : Bool} (hs : Sound s) (h : Lit s ∧ Pressing s)
    (hclose : ∀ a ∈ s.select mx my, ∀ w ∈ s.heap a, w.onClose mx my = true →
      w.prev = none ∧ w.next = none) :
    Meets (windowClick link mx my) s fun _ s' => Lit s' ∧ Pressing s' := by
  obtain ⟨l, hd⟩ := hs
  refine Meets.bind
      (Meets.bind (Meets.get (Q := fun t r => Meets _ r fun p r' => Meets _ r' fun _ t' =>
    Lit t' ∧ Pressing t') (Meets.pure ?_)))
  unfold Ui.select at hclose
  rw [hd.stacked.linked.head] at hclose ⊢
  exact windowClickFrom_lit [] hd h hclose

theorem press_lit {link : Bool} (hs : Sound s) (h : Lit s ∧ Pressing s) (hclose : my < taskbarY →
      ∀ a ∈ s.select mx my, ∀ w ∈ s.heap a, w.onClose mx my = true →
        w.prev = none ∧ w.next = none) :
    Meets (press link mx my) s fun _ s' => Lit s' ∧ Pressing s' := by
  refine Meets.ite (fun _ => ?_) fun hy => Meets.bind ?_
  · exact Keeps.meets (.bind (clicking_stable.taskbarClick mx) fun _ => .pure true) h
  · refine ((windowClick_lit hs h (hclose (Int32.not_le.1 hy))).and
      (windowClick_spec hs).meets).mono
      fun hit s₁ hs₁ => ?_
    refine Meets.ite (fun _ => Meets.pure hs₁.1) fun _ => ?_
    exact clicking_stable.iconClick (List.Subset.refl icons) hs₁.1 hs₁.2

/-! ## Turns of the main loop -/

/-- The first button, as a bit. -/
theorem first_button (b : UInt8) : b &&& 1 ≠ 0 ↔ b.toBitVec.getLsbD 0 = true := by
  rw [Ne, ← UInt8.toBitVec_inj, UInt8.toBitVec_and]
  change ¬ (b.toBitVec &&& 1#8) = 0#8 ↔ _
  rw [BitVec.and_one_eq_setWidth_ofBool_getLsbD]
  cases b.toBitVec.getLsbD 0 <;> decide

/-- The button was up, and is down. -/
theorem pressed_iff {b b' : UInt8} : b' &&& ~~~b &&& 1 ≠ 0 ↔ b' &&& 1 ≠ 0 ∧ ¬ b &&& 1 ≠ 0 := by
  simp only [first_button, UInt8.toBitVec_and, UInt8.toBitVec_not, BitVec.getLsbD_and,
    BitVec.getLsbD_not]
  simp

theorem released_iff {b b' : UInt8} : ~~~b' &&& b &&& 1 ≠ 0 ↔ b &&& 1 ≠ 0 ∧ ¬ b' &&& 1 ≠ 0 := by
  rw [UInt8.and_comm (~~~b') b, pressed_iff]

theorem Stable.drag {Inv : Ui → Prop} (st : Stable Inv) {btns : UInt8} :
    Keeps Inv (drag btns mx my) := by
  refine .bind .get fun _ => .ite (fun _ => ?_) fun _ => .pure false
  exact .bind windowGet_keeps fun _ => .bind windowGet_keeps fun _ =>
    .bind st.setPos fun _ => .pure true

/-- With the button up nothing is dragged, so the click finds the windows where they were before the
turn. -/
theorem desktopProcess_lit (hs : Sound s) (h : Lit s ∧ Held s) (i : Input)
    (hclose : ClosesLast i s) :
    Meets (desktopProcess i) s fun _ s' => Lit s' ∧ Held s' := by
  have hlit₁ : Lit { s with prevBtns := i.btns } := ⟨h.1.flag, h.1.live⟩
  refine Meets.bind (Meets.get (Q := fun t r => Meets _ r fun _ t' => Lit t' ∧ Held t') ?_)
  refine Meets.bind (Meets.modify (Meets.bind ?_))
  by_cases hpressed : i.btns &&& ~~~s.prevBtns &&& 1 ≠ 0
  · obtain ⟨hdown, hup⟩ := pressed_iff.1 hpressed
    have hidle : s.dragWin.isSome = false := by simpa using fun hdrag => hup (h.2 hdrag)
    have hdrag : Meets (drag i.btns i.mx i.my) { s with prevBtns := i.btns } fun _ s' =>
        s' = { s with prevBtns := i.btns } := by
      refine Meets.bind (Meets.get ?_)
      exact Meets.ite (fun hd => absurd hd.2 (by simp [hidle])) fun _ => Meets.pure rfl
    refine hdrag.mono fun dragged s₁ hs₁ => Meets.bind ?_
    rw [hs₁]
    refine Meets.when (fun hreleased => absurd (released_iff.1 hreleased).1 hup) fun _ => ?_
    refine Meets.ite (fun _ => Meets.bind ?_) fun hno => absurd hpressed hno
    have hsound : Sound { s with prevBtns := i.btns } := by
      obtain ⟨l, hd⟩ := hs
      exact ⟨l, ⟨hd.stacked.linked, hd.stacked.focused, hd.stacked.dragged⟩, hd.holds, hd.terminal⟩
    refine (press_lit hsound ⟨hlit₁, hdown⟩ (hclose hpressed)).mono fun _ s₂ hs₂ => Meets.pure ?_
    exact ⟨hs₂.1, fun _ => hs₂.2⟩
  · have hdrag : Meets (drag i.btns i.mx i.my) { s with prevBtns := i.btns } fun _ s' =>
        Lit s' ∧ s'.prevBtns = i.btns ∧ s'.dragWin = s.dragWin :=
      (lit_stable.and (stable_mouse (P := fun btns p => btns = i.btns ∧ p = s.dragWin))).drag.meets
        ⟨hlit₁, rfl, rfl⟩
    refine hdrag.mono fun dragged s₁ hs₁ => Meets.bind ?_
    obtain ⟨hlit, hbtns, hdragged⟩ := hs₁
    have hrest : ∀ t, Lit t ∧ Held t → Meets (if i.btns &&& ~~~s.prevBtns &&& 1 ≠ 0 then do
        let clicked ← press i.link i.mx i.my
        return dragged || clicked
      else return dragged : Prog Ui Bool) t fun _ s' => Lit s' ∧ Held s' := fun t ht =>
      Meets.ite (fun hp => absurd hp hpressed) fun _ => Meets.pure ht
    refine Meets.when (fun _ => Meets.modify ?_) fun hreleased => ?_
    · refine hrest _ ⟨⟨hlit.flag, hlit.live⟩, fun hdrag => ?_⟩
      simp at hdrag
    · refine hrest _ ⟨hlit, fun hdrag => ?_⟩
      rw [hdragged] at hdrag
      rw [hbtns]
      exact Classical.not_not.1 fun hup => hreleased (released_iff.2 ⟨h.2 hdrag, hup⟩)

theorem held_stable : Stable fun s => Lit s ∧ Held s :=
  lit_stable.and (stable_mouse (P := fun btns p => p.isSome → btns &&& 1 ≠ 0))

/-- A turn that closes no window that others are listed beside. -/
theorem desktopMainLoop_lit (i : Input) (hs : Sound s ∧ Lit s ∧ Held s) (hclose : ClosesLast i s) :
    Total (desktopMainLoop i) s fun _ s' => Sound s' ∧ Lit s' ∧ Held s' := by
  refine (desktopMainLoop_spec i hs.1).and_meets ?_
  refine Meets.bind ((desktopProcess_lit hs.1 hs.2 i hclose).mono fun dirty s₁ hs₁ => ?_)
  have hdraw : Keeps (fun t => Lit t ∧ Held t) (when dirty desktopRedraw) :=
    .when fun _ => desktopRedraw_keeps
  refine Meets.bind ((hdraw.meets hs₁).mono fun _ s₂ hs₂ => ?_)
  cases i.key with
  | none => exact Meets.pure hs₂
  | some c => exact (held_stable.handleKey i c).meets hs₂

theorem kernelMain_lit (grants : List Ptr) :
    Total kernelMain (Ui.start grants) fun _ s => Sound s ∧ Lit s ∧ Held s := by
  refine (kernelMain_spec grants).and_meets ?_
  have hdesk : Desk { Ui.start grants with
      dragWin := none, prevBtns := 0, windowListHead := none, focusedWindow := none } [] := by
    refine ⟨⟨linked_nil, fun a ha => ?_, fun a ha => ?_⟩,
      ⟨fun a => ⟨fun ha => ?_, fun ha => ?_⟩, ?_⟩, rfl⟩
    · cases ha
    · cases ha
    · cases ha
    · obtain ⟨h, ha⟩ := ha
      cases ha
    · intro h h' a ha
      cases ha
  have hlit : Lit { Ui.start grants with
      dragWin := none, prevBtns := 0, windowListHead := none, focusedWindow := none } := by
    refine ⟨fun a w hw => ?_, fun a ha => ?_⟩
    · cases hw
    · cases ha
  refine Meets.bind (Meets.modify (Meets.bind (Meets.modify (Meets.bind ?_))))
  refine ((held_stable.createAbout.meets ⟨hlit, fun hdrag => ?_⟩).and
    (createAbout_spec hdesk).meets).mono
    fun _ s₁ hs₁ => ?_
  · simp at hdrag
  refine Meets.bind
    (Meets.get (Q := fun t r => Meets _ r fun _ t' => Lit t' ∧ Held t') (Meets.bind ?_))
  obtain ⟨hlit₁, l, hd⟩ := hs₁
  refine Meets.mono (Q := fun _ t => Lit t ∧ Held t) (Meets.when (fun hg => ?_) fun _ => hlit₁)
      fun _ s₂ hs₂ =>
    desktopRedraw_keeps.meets hs₂
  rw [hd.terminal] at hg
  obtain ⟨a, ha⟩ := Option.isSome_iff_exists.1 hg
  refine Meets.bind (Meets.get (Q := fun t r => Meets _ r fun _ t' => Lit t' ∧ Held t') ?_)
  rw [ha]
  exact (held_stable.windowSetFocus a).meets hlit₁

theorem highlighted_of_lit (hs : Sound s) (h : Lit s) : Highlighted s := by
  obtain ⟨l, hd⟩ := hs
  exact ⟨h.flag, l, hd.stacked.linked, hd.stacked.focused⟩

/-- Whatever the allocator grants, as long as no window is closed that others are listed beside, the
highlighted border marks the window that is focused, after the boot and after every turn. -/
theorem turns_highlighted (grants : List Ptr) (inputs : List Input)
    (h : ∀ s ∈ (kernelMain (Ui.start grants)).map Prod.snd,
      Along desktopMainLoop ClosesLast inputs s) :
    ∀ pre, pre <+: inputs →
      Total (do kernelMain; runAll desktopMainLoop pre) (Ui.start grants) fun _ s =>
        Highlighted s := by
  intro pre hpre
  refine (total_bind ..).2 ((kernelMain_lit grants).with_eq.mono fun u s hs => ?_)
  have hmem : s ∈ (kernelMain (Ui.start grants)).map Prod.snd := by
    rw [hs.1]
    rfl
  have hstep : ∀ i t, Sound t ∧ Lit t ∧ Held t → ClosesLast i t →
      Total (desktopMainLoop i) t fun _ t' => Sound t' ∧ Lit t' ∧ Held t' :=
    fun i t ht hi => desktopMainLoop_lit i ht hi
  have halong := (h s hmem).restrict desktopMainLoop hpre
  refine (total_runAll desktopMainLoop hstep pre s hs.2 halong).mono fun _ s' hs' => ?_
  exact highlighted_of_lit hs'.1 hs'.2.1

/-- About is opened from the taskbar, and closed. -/
theorem turns_highlighted_about :
    Total (do
        kernelMain
        runAll desktopMainLoop [.mouse 1 5 190, .mouse 0 5 190, .mouse 1 130 15])
      (Ui.start [some 1]) fun _ s => Highlighted s :=
  turns_highlighted [some 1] _ (by decide) _ List.prefix_rfl

/-- The editor is closed while About is listed: `focused_window` is About then, without the flag. -/
theorem editor_closed_unlit : ¬ Total (do
      kernelMain
      runAll desktopMainLoop [.mouse 1 5 73, .mouse 0 5 73, .mouse 1 300 25])
    (Ui.start [some 1, some 2]) fun _ s => Highlighted s := by
  intro h
  obtain ⟨bs, s, hrun, hlit⟩ := h
  have hend :
    ∀ t ∈ ((do kernelMain; runAll desktopMainLoop [.mouse 1 5 73, .mouse 0 5 73, .mouse 1 300 25] :
      Prog Ui (List Unit)) (Ui.start [some 1, some 2])).map Prod.snd,
      t.focusedWindow = some 1 ∧ (t.heap 1).map Window.focused = some false := by decide
  obtain ⟨hfocus, hflag⟩ := hend s (by rw [hrun]; rfl)
  obtain ⟨w, hw, hdark⟩ := Option.map_eq_some_iff.1 hflag
  have hlight := (hlit.flag 1 w hw).2 hfocus
  rw [hdark] at hlight
  cases hlight

end MinervaOS.Desktop
