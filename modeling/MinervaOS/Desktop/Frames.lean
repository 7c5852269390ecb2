import MinervaOS.Desktop.Order
import MinervaOS.Desktop.Pointers

/-!
# What opening windows keeps

A condition that survives each of the few things the window manager does to the windows, the focus
taken as one of them, is kept by everything that opens, shows and draws them.
-/

namespace MinervaOS.Desktop

open Prog

/-- The state once a window has the focus, before it is raised. -/
def Ui.focusOn (s : Ui) (a : Nat) : Ui :=
  { s.write s.focusedWindow fun w =>
    { w with focused := false } with focusedWindow := some a }.write (some a)
    fun w => { w with focused := true }

/-- A condition that survives what is done to the windows. -/
structure Stable (Inv : Ui → Prop) : Prop where
  looks : ∀ s p f, (∀ w, (f w).focused = w.focused) → Inv s → Inv (s.write p f)
  head : ∀ s q, Inv s → Inv { s with windowListHead := q }
  grants : ∀ s g, Inv s → Inv { s with grants := g }
  create : ∀ s a x y width height, s.heap a = none → Inv s →
    Inv { s with heap := Function.update s.heap a (some (newWindow x y width height)) }
  win : ∀ s win, Inv s → Inv { s with win := win }
  gTw : ∀ s b, Inv s → Inv { s with gTw := b }
  focus : ∀ s a, s.Live a → Inv s → Inv (s.focusOn a)

variable {s s' : Ui} {l : List Nat} {a : Nat} {p : Ptr} {h : Holder} {Inv : Ui → Prop}
  {x y width height : UInt32} {f : Window → Window}

/-! ## Reading -/

theorem windowGet_keeps {α : Type} {zero : α} {field : Window → α} :
    Keeps Inv (windowGet zero field p) :=
  .ite (fun _ => .pure zero) fun _ => .bind deref_keeps fun w => .pure (field w)

theorem windowDraw_keeps : Keeps Inv (windowDraw p) :=
  .ite (fun _ => .pure ()) fun _ => .bind deref_keeps fun _ => .pure ()

theorem windowManagerGetHead_keeps : Keeps Inv windowManagerGetHead :=
  .bind .get fun s => .pure s.windowListHead

theorem walkToTail_keeps (n : Nat) (tail win : Ptr) : Keeps Inv (walkToTail n tail win) := by
  induction n generalizing tail win with
  | zero => exact .failure
  | succ n ih => exact .ite (fun _ => .pure tail) fun _ => .bind deref_keeps fun w => ih win w.next

theorem renderBack_keeps (n : Nat) (win : Ptr) : Keeps Inv (renderBack n win) := by
  induction n generalizing win with
  | zero => exact .failure
  | succ n ih =>
    refine .ite (fun _ => .pure ()) fun _ => .bind ?_ fun _ => .bind deref_keeps fun w => ih w.prev
    exact .ite (fun _ => .pure ()) fun _ => .bind deref_keeps fun w => .when fun _ =>
      windowDraw_keeps

theorem appRender_keeps (h : Holder) : Keeps Inv (appRender h) :=
  .bind .get fun _ => .ite (fun _ => .pure ()) fun _ => .bind windowGet_keeps fun _ =>
    .ite (fun _ => .pure ()) fun _ => windowDraw_keeps

theorem drawTaskbar_keeps (n : Nat) (bx : Int32) (win : Ptr) :
    Keeps Inv (drawTaskbar n bx win) := by
  induction n generalizing bx win with
  | zero => exact .failure
  | succ n ih =>
    refine .ite (fun _ => ?_) fun _ => .pure ()
    exact .bind windowDraw_keeps fun _ => .bind windowGet_keeps fun next => ih _ next

theorem desktopRedraw_keeps : Keeps Inv desktopRedraw := by
  have hrender : Keeps Inv renderAll := by
    refine .bind .get fun _ => .bind (.when fun _ => appRender_keeps .terminal) fun _ => ?_
    refine .bind (appRender_keeps .editor) fun _ => .bind (appRender_keeps .viewer) fun _ => ?_
    refine .bind (appRender_keeps .player) fun _ => .bind (appRender_keeps .browser) fun _ => ?_
    exact appRender_keeps .about
  refine .bind (.bind .get fun _ => .bind (walkToTail_keeps _ _ _) fun tail =>
    renderBack_keeps _ tail) fun _ => ?_
  exact .bind hrender fun _ => .bind windowManagerGetHead_keeps fun head =>
    drawTaskbar_keeps _ _ head

/-! ## Windows -/

theorem deref_meets (p : Ptr) (s : Ui) :
    Meets (deref p) s fun w s' => p.bind s.heap = some w ∧ s' = s := by
  refine Meets.bind (Meets.get ?_)
  rcases hw : p.bind s.heap with _ | w
  · exact Meets.failure
  · exact Meets.pure ⟨rfl, rfl⟩

theorem store_meets (p : Ptr) (f : Window → Window) (s : Ui) :
    Meets (store p f) s fun _ s' => (p.bind s.heap).isSome ∧ s' = s.write p f := by
  refine Meets.bind ((deref_meets p s).mono fun w s₁ hw => Meets.modify ?_)
  rw [hw.1, hw.2]
  exact ⟨rfl, rfl⟩

section Stable

variable (st : Stable Inv)

include st

theorem Stable.unlinked : Unlinked Inv :=
  ⟨fun s p _ hs => st.looks s p _ (fun _ => rfl) hs,
    fun s p _ hs => st.looks s p _ (fun _ => rfl) hs, st.head⟩

theorem Stable.store (hf : ∀ w, (f w).focused = w.focused) : Keeps Inv (store p f) :=
  store_keeps fun s hs => st.looks s p f hf hs

theorem Stable.setWin (h : Holder) (p : Ptr) : Keeps Inv (setWin h p) :=
  .modify fun s hs => st.win s _ hs

theorem Stable.windowCreate : Keeps Inv (windowCreate x y width height) := by
  intro s p s' hs
  have hmeets : Meets (Desktop.windowCreate x y width height) s fun _ t => Inv t := by
    refine Meets.bind (kmalloc_spec.meets.mono fun p s₁ hp => ?_)
    obtain ⟨⟨grants, rfl⟩, hfree⟩ := hp
    have hs₁ := st.grants s grants hs
    cases p with
    | none => exact Meets.pure hs₁
    | some a =>
      refine Meets.bind (Meets.modify (Meets.pure ?_))
      exact st.create _ a x y width height (hfree a rfl) hs₁
  exact hmeets p s'

/-- The focus given to a window. -/
theorem Stable.windowSetFocus (a : Nat) : Keeps Inv (windowSetFocus (some a)) := by
  intro s u s' hs
  have hclear : Meets (when s.focusedWindow.isSome
      (Desktop.store s.focusedWindow fun w => { w with focused := false })) s fun _ s' =>
        s' = s.write s.focusedWindow fun w => { w with focused := false } := by
    refine Meets.when (fun _ => (store_meets _ _ s).mono fun _ _ hs => hs.2) fun hnone => ?_
    rw [Option.not_isSome_iff_eq_none.1 hnone, Ui.write_none]
  have hmeets : Meets (Desktop.windowSetFocus (some a)) s fun _ t => Inv t := by
    refine Meets.bind (Meets.get (Q := fun t r => Meets _ r fun _ t' => Inv t') ?_)
    refine Meets.bind (hclear.mono fun _ s₁ hs₁ => ?_)
    refine Meets.when (fun _ => Meets.bind (Meets.modify (Meets.bind ?_))) fun hno => by simp at hno
    refine (store_meets _ _ _).mono fun _ s₂ hs₂ => (Unlinked.raise st.unlinked).meets ?_
    rw [hs₁] at hs₂
    rw [hs₂.2]
    exact st.focus s a (Ui.live_write.1 hs₂.1) hs
  exact hmeets u s'

theorem Stable.toggle : Keeps Inv (windowToggleMinimize p) := .when fun _ => st.store fun _ => rfl

theorem Stable.setPos : Keeps Inv (windowSetPos p x y) :=
  .ite (fun _ => .pure ()) fun _ => .bind (st.store fun _ => rfl) fun _ => st.store fun _ => rfl

theorem Stable.setBg : Keeps Inv (windowSetBgColor p) :=
  .ite (fun _ => .pure ()) fun _ => st.store fun _ => rfl

theorem Stable.setTitle : Keeps Inv (windowSetTitleColor p) :=
  .ite (fun _ => .pure ()) fun _ => st.store fun _ => rfl

/-! ## Applications -/

/-- The application has a window. -/
def Has (h : Holder) (s : Ui) : Prop := (s.win h).isSome

omit st in
theorem has_unlinked (h : Holder) : Unlinked (Has h) :=
  ⟨fun _ _ _ hs => hs, fun _ _ _ hs => hs, fun _ _ hs => hs⟩

theorem Stable.present (hs : Inv s) (hh : Has h s) : Meets (present h) s fun _ s' => Inv s' := by
  have htoggle : ∀ p, Keeps (fun t => Inv t ∧ Has h t) (windowToggleMinimize p) := fun p =>
    st.toggle.and (.when fun _ => store_keeps fun _ ht => ht)
  refine Meets.bind (Meets.get (Q := fun t r => Meets _ r fun _ t' => Inv t') ?_)
  have hminimized : Keeps (fun t => Inv t ∧ Has h t) (windowIsMinimized (s.win h)) :=
    windowGet_keeps
  refine Meets.bind ((hminimized.meets ⟨hs, hh⟩).mono fun minimized s₁ hs₁ => ?_)
  have hshown : Meets (when minimized do windowToggleMinimize ((← get).win h)) s₁ fun _ t =>
      Inv t ∧ Has h t :=
    Keeps.meets (.when fun _ => .bind .get fun t => htoggle (t.win h)) hs₁
  refine Meets.bind (hshown.mono fun _ s₂ hs₂ => ?_)
  refine Meets.bind (Meets.get (Q := fun t r => Meets _ r fun _ t' => Inv t') ?_)
  obtain ⟨a, ha⟩ := Option.isSome_iff_exists.1 hs₂.2
  rw [ha]
  exact (st.windowSetFocus a).meets hs₂.1

theorem Stable.createWindow (hs : Inv s) :
    Meets (Desktop.create h width height x y) s fun created s' =>
    Inv s' ∧ (created = true → Has h s') := by
  refine Meets.bind
    (Meets.get (Q := fun t r => Meets _ r fun b t' => Inv t' ∧ (b = true → Has h t')) ?_)
  refine Meets.ite (fun hhas => Meets.pure ⟨hs, fun _ => hhas⟩) fun _ => ?_
  refine Meets.bind ((st.windowCreate.meets hs).mono fun p s₁ hs₁ => ?_)
  refine Meets.bind (Meets.modify ?_)
  refine Meets.ite (fun _ => Meets.pure ⟨st.win _ _ hs₁, fun h => by cases h⟩) fun hsome => ?_
  have hhas : Has h { s₁ with win := Function.update s₁.win h p } := by
    show (Function.update s₁.win h p h).isSome
    rw [Function.update_self]
    exact Option.isSome_iff_ne_none.2 fun hnone => hsome (Option.isNone_iff_eq_none.2 hnone)
  have hbg : Keeps (fun t => Inv t ∧ Has h t) (windowSetBgColor p) :=
    st.setBg.and (.ite (fun _ => .pure ()) fun _ => store_keeps fun _ ht => ht)
  have htitle : Keeps (fun t => Inv t ∧ Has h t) (windowSetTitleColor p) :=
    st.setTitle.and (.ite (fun _ => .pure ()) fun _ => store_keeps fun _ ht => ht)
  have hboth : Keeps (fun t => Inv t ∧ Has h t)
      (do windowSetBgColor p; windowSetTitleColor p; return true) :=
    .bind hbg fun _ => .bind htitle fun _ => .pure true
  exact (hboth.meets ⟨st.win _ _ hs₁, hhas⟩).mono fun _ _ ht => ⟨ht.1, fun _ => ht.2⟩

theorem Stable.openFile : Keeps Inv (openFile h width height x y) := by
  intro s r s' hs
  suffices hmeets : Meets (Desktop.openFile h width height x y) s fun _ t => Inv t from hmeets r s'
  refine Meets.bind (Meets.get (Q := fun t r => Meets _ r fun _ t' => Inv t') ?_)
  refine Meets.bind ((st.createWindow hs).mono fun created s₁ hs₁ => ?_)
  refine Meets.ite (fun _ => Meets.pure hs₁.1) fun hcreated => ?_
  have hhas : Has h s₁ := hs₁.2 (by simpa using hcreated)
  have hadd : Keeps (fun t => Inv t ∧ Has h t)
      (when (!(s.win h).isSome) do windowManagerAdd ((← get).win h)) :=
    .when fun _ => .bind .get fun t => st.unlinked.add.and (has_unlinked h).add
  refine Meets.bind ((hadd.meets ⟨hs₁.1, hhas⟩).mono fun _ s₂ hs₂ => ?_)
  exact Meets.bind ((st.present hs₂.1 hs₂.2).mono fun _ _ hs₃ => Meets.pure hs₃)

theorem Stable.browserCreate (hs : Inv s) : Meets (browserCreate x y) s fun created s' =>
    Inv s' ∧ (created = true → Has .browser s') := by
  refine Meets.bind
    (Meets.get (Q := fun t r => Meets _ r fun b t' => Inv t' ∧ (b = true → Has .browser t')) ?_)
  refine Meets.ite (fun hhas => Meets.pure ⟨hs, fun _ => hhas⟩) fun _ => ?_
  refine Meets.bind ((st.windowCreate.meets hs).mono fun p s₁ hs₁ => ?_)
  refine Meets.bind (Meets.modify ?_)
  refine Meets.ite (fun _ => Meets.pure ⟨st.win _ _ hs₁, fun h => by cases h⟩) fun hsome => ?_
  have hhas : Has .browser { s₁ with win := Function.update s₁.win .browser p } := by
    show (Function.update s₁.win .browser p .browser).isSome
    rw [Function.update_self]
    exact Option.isSome_iff_ne_none.2 fun hnone => hsome (Option.isNone_iff_eq_none.2 hnone)
  have hbg : Keeps (fun t => Inv t ∧ Has .browser t) (windowSetBgColor p) :=
    st.setBg.and (.ite (fun _ => .pure ()) fun _ => store_keeps fun _ ht => ht)
  have htitle : Keeps (fun t => Inv t ∧ Has .browser t) (windowSetTitleColor p) :=
    st.setTitle.and (.ite (fun _ => .pure ()) fun _ => store_keeps fun _ ht => ht)
  have hrest : Keeps (fun t => Inv t ∧ Has .browser t)
      (do windowSetBgColor p; windowSetTitleColor p; windowManagerAdd p; return true) :=
    .bind hbg fun _ => .bind htitle fun _ =>
        .bind (st.unlinked.add.and (has_unlinked .browser).add) fun _ =>
      .pure true
  exact (hrest.meets ⟨st.win _ _ hs₁, hhas⟩).mono fun _ _ ht => ⟨ht.1, fun _ => ht.2⟩

theorem Stable.browserOpenUrl : Keeps Inv (browserOpenUrl x y) := by
  intro s r s' hs
  suffices hmeets : Meets (Desktop.browserOpenUrl x y) s fun _ t => Inv t from hmeets r s'
  refine Meets.bind ((st.browserCreate hs).mono fun created s₁ hs₁ => ?_)
  refine Meets.ite (fun _ => Meets.pure hs₁.1) fun hcreated => ?_
  have hhas : Has .browser s₁ := hs₁.2 (by simpa using hcreated)
  exact Meets.bind ((st.present hs₁.1 hhas).mono fun _ _ hs₂ => Meets.pure hs₂)

theorem Stable.browserFollow : Keeps Inv browserFollow :=
  .bind .get fun _ => .bind windowGet_keeps fun _ => .bind .get fun _ =>
      .bind windowGet_keeps fun _ =>
    .bind st.browserOpenUrl fun _ => .pure ()

theorem Stable.createTerminal : Keeps Inv createTerminal := by
  have hcreate : Keeps Inv (termWindowCreate 50 15) := by
    refine .bind st.windowCreate fun p => .bind (st.setWin .terminal p) fun _ => ?_
    refine .ite (fun _ => .pure false) fun _ => ?_
    exact .bind st.setBg fun _ => .bind st.setTitle fun _ => .pure true
  refine .bind .get fun _ => .ite (fun _ => .pure ()) fun _ => .bind hcreate fun created => ?_
  refine .bind (.modify fun s hs => st.gTw s created hs) fun _ => .when fun _ =>
    .bind .get fun _ => ?_
  exact st.unlinked.add

theorem Stable.createAbout {minimized : Bool} : Keeps Inv (createAbout minimized) := by
  refine .bind .get fun _ => .ite (fun _ => .pure ()) fun _ => .bind st.windowCreate fun p => ?_
  refine .bind (st.setWin .about p) fun _ => .ite (fun _ => .pure ()) fun _ =>
    .bind st.setBg fun _ => ?_
  exact .bind st.unlinked.add fun _ => .when fun _ => st.toggle

theorem Stable.openAbout : Keeps Inv openAbout := by
  refine .bind .get fun _ => .bind (.when fun _ => st.createAbout) fun _ => ?_
  intro s u s' hs
  suffices hmeets :
    Meets (do when ((← get).win .about).isSome (Desktop.present .about) : Prog Ui Unit) s
      fun _ t => Inv t from hmeets u s'
  refine Meets.bind (Meets.get (Q := fun t r => Meets _ r fun _ t' => Inv t') ?_)
  exact Meets.when (fun hhas => st.present hs hhas) fun _ => hs

/-- The terminal is there when `g_tw` says so. -/
theorem Stable.openTerminal (hs : Inv s) (hsound : Sound s) :
    Meets openTerminal s fun _ s' => Inv s' := by
  refine Meets.bind (Meets.get (Q := fun t r => Meets _ r fun _ t' => Inv t') ?_)
  obtain ⟨l, hd⟩ := hsound
  have hcreate : Meets (when (!s.gTw) Desktop.createTerminal) s fun _ t => Inv t ∧ Sound t :=
    Meets.when (fun _ => (st.createTerminal.meets hs).and (createTerminal_spec hd).meets)
      fun _ => ⟨hs, l, hd⟩
  refine Meets.bind (hcreate.mono fun _ s₁ hs₁ => ?_)
  refine Meets.bind (Meets.get (Q := fun t r => Meets _ r fun _ t' => Inv t') ?_)
  obtain ⟨hinv, l₁, hd₁⟩ := hs₁
  refine Meets.when (fun hg => ?_) fun _ => hinv
  rw [hd₁.terminal] at hg
  exact st.present hinv hg

/-! ## Clicks and keys -/

theorem Stable.taskbarClickFrom (n : Nat) (mx bx : Int32) (p : Ptr) :
    Keeps Inv (taskbarClickFrom n mx bx p) := by
  induction n generalizing bx p with
  | zero => exact .failure
  | succ n ih =>
    unfold Desktop.taskbarClickFrom
    cases p with
    | none => exact .pure ()
    | some a =>
      refine .ite (fun _ => .pure ()) fun _ => .ite (fun _ => ?_) fun _ => ?_
      · exact .bind windowGet_keeps fun _ => .bind (.when fun _ => st.toggle) fun _ =>
          st.windowSetFocus a
      · exact .bind windowGet_keeps fun next => ih _ next

theorem Stable.taskbarClick (mx : Int32) : Keeps Inv (taskbarClick mx) :=
  .bind windowManagerGetHead_keeps fun head => st.taskbarClickFrom _ mx _ head

theorem Stable.contentClicked {link : Bool} {mx my : Int32} :
    Keeps Inv (contentClicked link p mx my) := by
  have hclick : Keeps Inv (browserHandleClick link mx my) := by
    refine .bind .get fun _ => .ite (fun _ => .pure false) fun _ =>
        .ite (fun _ => .pure true) fun _ =>
      .ite (fun _ => .pure true) fun _ => .ite (fun _ => ?_) fun _ => .pure false
    exact .bind st.browserFollow fun _ => .pure true
  refine .bind .get fun _ => .ite (fun _ => ?_) fun _ => .pure ()
  exact .bind hclick fun _ => .when fun _ => desktopRedraw_keeps

theorem Stable.twExec (command : Command) : Keeps Inv (twExec command) := by
  cases command with
  | edit | view | play => exact .bind st.openFile fun _ => .pure ()
  | browser | appBrowser => exact .bind st.browserOpenUrl fun _ => .pure ()

theorem Stable.handleKey (i : Input) (c : UInt8) : Keeps Inv (handleKey i c) := by
  have htakes : ∀ active p, Keeps Inv (takesKeys active p) := fun active p =>
    .bind windowManagerGetHead_keeps fun _ =>
      .ite (fun _ => .bind windowGet_keeps fun minimized => .pure _)
      fun _ => .pure false
  have hterminal : Keeps Inv (termWindowHandleKey i.command c) := by
    unfold termWindowHandleKey
    cases i.command with
    | none => exact .pure ()
    | some command => exact .when fun _ => st.twExec command
  have heditor : Keeps Inv textEditorHandleKey :=
    .bind .get fun _ => .ite (fun _ => .pure ()) fun _ => .bind windowGet_keeps fun _ => .pure ()
  have hbrowser : Keeps Inv (browserHandleKey i.home) :=
    .bind .get fun _ => .ite (fun _ => .pure ()) fun _ => .when fun _ => st.browserFollow
  refine .bind .get fun s => .bind (htakes _ _) fun _ => .ite (fun _ => ?_) fun _ => ?_
  · exact .bind hterminal fun _ => desktopRedraw_keeps
  refine .bind (htakes _ _) fun _ => .ite (fun _ => ?_) fun _ => ?_
  · exact .bind heditor fun _ => desktopRedraw_keeps
  refine .bind (htakes _ _) fun _ => .ite (fun _ => ?_) fun _ => .pure ()
  exact .bind hbrowser fun _ => desktopRedraw_keeps

/-- The icons open applications. -/
theorem Stable.iconClick {mx my : Int32} {is : List (Int32 × Int32 × Prog Ui Unit)}
    (his : is ⊆ icons)
    (hs : Inv s) (hsound : Sound s) : Meets (iconClick mx my is) s fun _ s' => Inv s' := by
  induction is with
  | nil => exact Meets.pure hs
  | cons i is ih =>
    have hi : Meets i.2.2 s fun _ s' => Inv s' := by
      have hmem := his List.mem_cons_self
      unfold icons at hmem
      simp only [List.mem_cons, List.not_mem_nil, or_false] at hmem
      rcases hmem with rfl | rfl | rfl | rfl | rfl | rfl
      · exact st.openTerminal hs hsound
      · exact st.openAbout.meets hs
      · exact Keeps.meets (.bind st.openFile fun _ => .pure ()) hs
      · exact Keeps.meets (.bind st.openFile fun _ => .pure ()) hs
      · exact Keeps.meets (.bind st.openFile fun _ => .pure ()) hs
      · exact Keeps.meets (.bind st.browserOpenUrl fun _ => .pure ()) hs
    refine Meets.ite (fun _ => Meets.bind (hi.mono fun _ _ hs' => Meets.pure hs')) fun _ => ?_
    exact ih fun j hj => his (List.mem_cons_of_mem i hj)

end Stable

end MinervaOS.Desktop
