import MinervaOS.Desktop.Frames
import MinervaOS.Graphics.Lines

/-!
# Where the windows are

A window is created in a place where it fits above the taskbar, with a column left at the right for
its border, and that is where a drag leaves it. Nothing else changes the place or the size of a
window, so in every state that the main loop comes to all windows fit.
-/

namespace MinervaOS.Desktop

open Prog

/-- The window is not smaller than that of About, and it is above the taskbar with a column left
beside it. -/
structure Window.Fits (w : Window) : Prop where
  size : 130 ≤ w.width.toNat ∧ 76 ≤ w.height.toNat
  x : w.x.toNat + w.width.toNat ≤ 319
  y : w.y.toNat + w.height.toNat ≤ 184

def Ui.Placed (s : Ui) : Prop := ∀ a w, s.heap a = some w → w.Fits

variable {s : Ui} {a : Nat} {p : Ptr} {h : Holder} {f : Window → Window} {x y width height : UInt32}

/-! ## Writes -/

/-- The windows that are written fit again. -/
theorem Ui.Placed.write (hs : s.Placed) (hf : ∀ a w, p = some a → s.heap a = some w → (f w).Fits) :
    (s.write p f).Placed := by
  intro b w hw
  unfold Ui.write at hw
  dsimp only at hw
  by_cases hb : some b = p
  · rw [if_pos hb] at hw
    obtain ⟨v, hv, rfl⟩ := Option.map_eq_some_iff.1 hw
    exact hf b v hb.symm hv
  · rw [if_neg hb] at hw
    exact hs b w hw

/-- Writes that are not to the place. -/
theorem store_placed (hf : ∀ w, w.Fits → (f w).Fits) : Keeps Ui.Placed (store p f) :=
  store_keeps fun _ hs => hs.write fun a w _ hw => hf w (hs a w hw)

theorem placed_unlinked : Unlinked Ui.Placed where
  prev _ _ _ hs := hs.write fun a w _ hw => ⟨(hs a w hw).size, (hs a w hw).x, (hs a w hw).y⟩
  next _ _ _ hs := hs.write fun a w _ hw => ⟨(hs a w hw).size, (hs a w hw).x, (hs a w hw).y⟩
  head _ _ hs := hs

theorem windowCreate_placed (hfits : (newWindow x y width height).Fits) :
    Keeps Ui.Placed (windowCreate x y width height) := by
  have hmalloc : Keeps Ui.Placed kmalloc := by
    intro s p s' hs hrun
    obtain ⟨grants, rfl⟩ := (kmalloc_spec.of_eq hrun).1
    exact hs
  refine .bind hmalloc fun p => ?_
  cases p with
  | none => exact .pure none
  | some a =>
    refine .bind (.modify fun s hs b w hw => ?_) fun _ => .pure (some a)
    dsimp only at hw
    by_cases hb : b = a
    · subst hb
      rw [Function.update_self] at hw
      exact Option.some.inj hw ▸ hfits
    · rw [Function.update_of_ne hb] at hw
      exact hs b w hw

theorem windowSetBgColor_placed : Keeps Ui.Placed (windowSetBgColor p) :=
  .ite (fun _ => .pure ()) fun _ => store_placed fun _ hw => ⟨hw.size, hw.x, hw.y⟩

theorem windowSetTitleColor_placed : Keeps Ui.Placed (windowSetTitleColor p) :=
  .ite (fun _ => .pure ()) fun _ => store_placed fun _ hw => ⟨hw.size, hw.x, hw.y⟩

theorem windowToggleMinimize_placed : Keeps Ui.Placed (windowToggleMinimize p) :=
  .when fun _ => store_placed fun _ hw => ⟨hw.size, hw.x, hw.y⟩

theorem windowSetFocus_placed : Keeps Ui.Placed (windowSetFocus p) :=
  .bind .get fun _ => .bind (.when fun _ => store_placed fun _ hw => ⟨hw.size, hw.x, hw.y⟩) fun _ =>
      .when fun _ =>
    .bind (.modify fun _ hs => hs) fun _ =>
        .bind (store_placed fun _ hw => ⟨hw.size, hw.x, hw.y⟩) fun _ =>
      placed_unlinked.raise

theorem windowDestroy_placed : Keeps Ui.Placed (windowDestroy p) := by
  have hremove : Keeps Ui.Placed (windowManagerRemove p) :=
    .bind .get fun _ => .ite (fun _ => .pure ()) fun _ => .bind placed_unlinked.unlink fun _ =>
      .bind .get fun _ => .when fun _ => .modify fun _ hs => hs
  refine .ite (fun _ => .pure ()) fun _ => .bind hremove fun _ => .modify fun s hs a w hw => ?_
  dsimp only at hw
  by_cases ha : some a = p
  · rw [if_pos ha] at hw
    cases hw
  · rw [if_neg ha] at hw
    exact hs a w hw

/-! ## Applications -/

theorem setWin_placed : Keeps Ui.Placed (setWin h p) := .modify fun _ hs => hs

theorem present_placed : Keeps Ui.Placed (present h) :=
  .bind .get fun _ => .bind windowGet_keeps fun _ =>
    .bind (.when fun _ => .bind .get fun _ => windowToggleMinimize_placed) fun _ =>
      .bind .get fun _ => windowSetFocus_placed

theorem create_placed (hfits : (newWindow x y width height).Fits) :
    Keeps Ui.Placed (create h width height x y) :=
  .bind .get fun _ => .ite (fun _ => .pure true) fun _ => .bind (windowCreate_placed hfits) fun _ =>
    .bind setWin_placed fun _ => .ite (fun _ => .pure false) fun _ =>
        .bind windowSetBgColor_placed fun _ =>
      .bind windowSetTitleColor_placed fun _ => .pure true

theorem openFile_placed (hfits : (newWindow x y width height).Fits) :
    Keeps Ui.Placed (openFile h width height x y) := by
  refine .bind .get fun _ => .bind (create_placed hfits) fun created =>
    .ite (fun _ => .pure false) fun _ => ?_
  exact .bind (.when fun _ => .bind .get fun _ => placed_unlinked.add) fun _ =>
      .bind present_placed fun _ =>
    .pure true

/-- There is a browser, or it fits where it is created. -/
theorem browserCreate_placed (hs : s.Placed)
    (hfits : s.win .browser = none → (newWindow x y 236 142).Fits) :
    Meets (browserCreate x y) s fun _ s' => s'.Placed := by
  refine Meets.bind (Meets.get (Q := fun t r => Meets _ r fun _ t' => Ui.Placed t') ?_)
  refine Meets.ite (fun _ => Meets.pure hs) fun hnone => ?_
  have hfits := hfits (by simpa using hnone)
  have hrest : Keeps Ui.Placed (do
      let p ← windowCreate x y 236 142
      setWin .browser p
      if p.isNone then return false
      windowSetBgColor p
      windowSetTitleColor p
      windowManagerAdd p
      return true) :=
    .bind (windowCreate_placed hfits) fun _ => .bind setWin_placed fun _ =>
        .ite (fun _ => .pure false) fun _ =>
      .bind windowSetBgColor_placed fun _ => .bind windowSetTitleColor_placed fun _ =>
        .bind placed_unlinked.add fun _ => .pure true
  exact hrest.meets hs

theorem browserOpenUrl_placed (hs : s.Placed)
    (hfits : s.win .browser = none → (newWindow x y 236 142).Fits) :
    Meets (browserOpenUrl x y) s fun _ s' => s'.Placed := by
  refine Meets.bind ((browserCreate_placed hs hfits).mono fun created s₁ hs₁ => ?_)
  exact Meets.ite (fun _ => Meets.pure hs₁) fun _ =>
      Meets.bind ((present_placed.meets hs₁).mono fun _ s₂ hs₂ =>
    Meets.pure hs₂)

/-- Where the browser is created it fits. -/
theorem browserOpen_placed (hfits : (newWindow x y 236 142).Fits) :
    Keeps Ui.Placed (do let _ ← browserOpenUrl x y : Prog Ui Unit) :=
  .bind (fun _ a s' hs hrun => browserOpenUrl_placed hs (fun _ => hfits) a s' hrun)
    fun _ => .pure ()

/-- A read of a window changes nothing. -/
theorem windowGet_meets {α : Type} {zero : α} {field : Window → α} (s : Ui) :
    Meets (windowGet zero field p) s fun r s' =>
      (∀ w, p.bind s.heap = some w → r = field w) ∧ s' = s := by
  refine Meets.ite (fun hnone => Meets.pure ⟨fun w hw => ?_, rfl⟩) fun _ =>
    Meets.bind ((deref_meets p s).mono
    fun w _ hs => Meets.pure ⟨fun v hv => ?_, hs.2⟩)
  · rw [Option.isNone_iff_eq_none.1 hnone] at hw
    cases hw
  · rw [Option.some.inj (hs.1.symm.trans hv)]

theorem browserFollow_placed (hs : s.Placed) (hsome : s.win .browser ≠ none) :
    Meets browserFollow s fun _ s' => s'.Placed := by
  refine Meets.bind (Meets.get (Q := fun t r => Meets _ r fun _ t' => Ui.Placed t') ?_)
  refine Meets.bind ((windowGet_meets s).mono fun x s₁ hs₁ => ?_)
  rw [hs₁.2]
  refine Meets.bind (Meets.get (Q := fun t r => Meets _ r fun _ t' => Ui.Placed t') ?_)
  refine Meets.bind ((windowGet_meets s).mono fun y s₂ hs₂ => ?_)
  rw [hs₂.2]
  exact Meets.bind ((browserOpenUrl_placed hs fun hnone => absurd hnone hsome).mono fun _ s₃ hs₃ =>
    Meets.pure hs₃)

theorem createTerminal_placed : Keeps Ui.Placed createTerminal := by
  have hcreate : Keeps Ui.Placed (termWindowCreate 50 15) :=
    .bind (windowCreate_placed ⟨by decide, by decide, by decide⟩) fun _ =>
        .bind setWin_placed fun _ =>
      .ite (fun _ => .pure false) fun _ => .bind windowSetBgColor_placed fun _ =>
        .bind windowSetTitleColor_placed fun _ => .pure true
  exact .bind .get fun _ => .ite (fun _ => .pure ()) fun _ => .bind hcreate fun _ =>
    .bind (.modify fun _ hs => hs)
    fun _ => .when fun _ => .bind .get fun _ => placed_unlinked.add

theorem createAbout_placed {minimized : Bool} : Keeps Ui.Placed (createAbout minimized) :=
  .bind .get fun _ => .ite (fun _ => .pure ()) fun _ =>
    .bind (windowCreate_placed ⟨by decide, by decide, by decide⟩) fun _ =>
        .bind setWin_placed fun _ =>
      .ite (fun _ => .pure ()) fun _ => .bind windowSetBgColor_placed fun _ =>
          .bind placed_unlinked.add fun _ =>
        .when fun _ => windowToggleMinimize_placed

theorem icons_placed : ∀ i ∈ icons, Keeps Ui.Placed i.2.2 := by
  intro i hi
  unfold icons at hi
  simp only [List.mem_cons, List.not_mem_nil, or_false] at hi
  rcases hi with rfl | rfl | rfl | rfl | rfl | rfl
  · exact .bind .get fun _ => .bind (.when fun _ => createTerminal_placed) fun _ =>
        .bind .get fun _ =>
      .when fun _ => present_placed
  · exact .bind .get fun _ => .bind (.when fun _ => createAbout_placed) fun _ => .bind .get fun _ =>
      .when fun _ => present_placed
  · exact .bind (openFile_placed ⟨by decide, by decide, by decide⟩) fun _ => .pure ()
  · exact .bind (openFile_placed ⟨by decide, by decide, by decide⟩) fun _ => .pure ()
  · exact .bind (openFile_placed ⟨by decide, by decide, by decide⟩) fun _ => .pure ()
  · exact browserOpen_placed ⟨by decide, by decide, by decide⟩

theorem twExec_placed (command : Command) : Keeps Ui.Placed (twExec command) := by
  cases command with
  | edit | view | play =>
    exact .bind (openFile_placed ⟨by decide, by decide, by decide⟩) fun _ => .pure ()
  | browser | appBrowser => exact browserOpen_placed ⟨by decide, by decide, by decide⟩

theorem windowClosed_placed : Keeps Ui.Placed (windowClosed p) := by
  have hclosed : ∀ h, Keeps Ui.Placed (appClosed h p) := fun h =>
    .bind .get fun _ => .when fun _ => .bind .get fun _ => .when fun _ => setWin_placed
  refine .bind .get fun _ => .bind .get fun _ => .bind (.when fun _ => .bind setWin_placed fun _ =>
    .modify fun _ hs => hs) fun _ => ?_
  exact .bind (hclosed .editor) fun _ => .bind (hclosed .viewer) fun _ =>
      .bind (hclosed .player) fun _ =>
    .bind (hclosed .browser) fun _ => .bind .get fun _ => .when fun _ => setWin_placed

/-! ## Clicks and keys -/

theorem browserHandleClick_placed {link : Bool} {mx my : Int32} :
    Keeps Ui.Placed (browserHandleClick link mx my) := by
  intro s r s' hs
  suffices hmeets : Meets (browserHandleClick link mx my) s fun _ t => Ui.Placed t from hmeets r s'
  refine Meets.bind (Meets.get (Q := fun t r => Meets _ r fun _ t' => Ui.Placed t') ?_)
  refine Meets.ite (fun _ => Meets.pure hs) fun hsome =>
    Meets.ite (fun _ => Meets.pure hs) fun _ => ?_
  refine Meets.ite (fun _ => Meets.pure hs) fun _ =>
    Meets.ite (fun _ => Meets.bind ?_) fun _ => Meets.pure hs
  exact (browserFollow_placed hs (by simpa using hsome)).mono fun _ _ hs' => Meets.pure hs'

theorem contentClicked_placed {link : Bool} {mx my : Int32} :
    Keeps Ui.Placed (contentClicked link p mx my) :=
  .bind .get fun _ =>
    .ite (fun _ => .bind browserHandleClick_placed fun _ => .when fun _ => desktopRedraw_keeps)
    fun _ => .pure ()

theorem windowClickFrom_placed {link : Bool} {mx my : Int32} (n : Nat) (p : Ptr) :
    Keeps Ui.Placed (windowClickFrom link mx my n p) := by
  induction n generalizing p with
  | zero => exact .failure
  | succ n ih =>
    have hclicked : ∀ wx wy ww, Keeps Ui.Placed (windowClicked link mx my p wx wy ww) :=
        fun wx wy ww =>
      .bind windowSetFocus_placed fun _ => .ite (fun _ => .bind .get fun _ =>
        .bind (.when fun _ => .modify fun _ hs => hs) fun _ => .bind windowClosed_placed fun _ =>
          windowDestroy_placed)
          fun _ => .ite (fun _ => windowToggleMinimize_placed) fun _ =>
            .ite (fun _ => .modify fun _ hs => hs)
            fun _ => contentClicked_placed
    have hnext : Keeps Ui.Placed (do windowClickFrom link mx my n (← windowGetNext p)) :=
      .bind windowGet_keeps fun next => ih next
    refine .ite (fun _ => .pure false) fun _ => .bind windowGet_keeps fun _ =>
      .ite (fun _ => hnext) fun _ => ?_
    refine .bind windowGet_keeps fun _ => .bind windowGet_keeps fun _ =>
        .bind windowGet_keeps fun _ =>
      .bind windowGet_keeps fun _ => .ite (fun _ => hnext) fun _ => ?_
    exact .bind (hclicked _ _ _) fun _ => .pure true

theorem taskbarClickFrom_placed {mx bx : Int32} (n : Nat) (p : Ptr) :
    Keeps Ui.Placed (taskbarClickFrom n mx bx p) := by
  induction n generalizing bx p with
  | zero => exact .failure
  | succ n ih =>
    refine .ite (fun _ => .pure ()) fun _ => .ite (fun _ => ?_) fun _ => ?_
    · exact .bind windowGet_keeps fun _ =>
          .bind (.when fun _ => windowToggleMinimize_placed) fun _ =>
        windowSetFocus_placed
    · exact .bind windowGet_keeps fun next => ih next

theorem iconClick_placed {mx my : Int32} : ∀ {is : List (Int32 × Int32 × Prog Ui Unit)},
    (∀ i ∈ is, Keeps Ui.Placed i.2.2) → Keeps Ui.Placed (iconClick mx my is)
  | [], _ => .pure false
  | i :: _, his => .ite (fun _ => .bind (his i List.mem_cons_self) fun _ => .pure true) fun _ =>
      iconClick_placed fun j hj => his j (List.mem_cons_of_mem i hj)

theorem press_placed {link : Bool} {mx my : Int32} : Keeps Ui.Placed (press link mx my) := by
  refine .ite (fun _ => ?_) fun _ => ?_
  · exact .bind (.bind windowManagerGetHead_keeps fun head => taskbarClickFrom_placed _ head)
      fun _ => .pure true
  · refine .bind (.bind windowManagerGetHead_keeps fun head =>
      windowClickFrom_placed _ head) fun _ => ?_
    exact .ite (fun _ => .pure true) fun _ => iconClick_placed icons_placed

/-- A coordinate that is held between 0 and a bound. -/
theorem clamp_bounds {n m : Int32} (hm : 0 ≤ m.toInt) :
    0 ≤ (if (if n < 0 then 0 else n) > m then m else
      (if n < 0 then 0 else n)).toInt ∧
    (if (if n < 0 then 0 else n) > m then m else (if n < 0 then 0 else n)).toInt ≤ m.toInt := by
  have hzero : (0 : Int32).toInt = 0 := rfl
  by_cases hn : n < 0
  · rw [if_pos hn]
    have hle : ¬(0 : Int32) > m := by
      rw [gt_iff_lt, Int32.lt_iff_toInt_lt]
      omega
    rw [if_neg hle]
    omega
  · rw [if_neg hn]
    rw [Int32.lt_iff_toInt_lt] at hn
    by_cases hgt : n > m
    · rw [if_pos hgt]
      omega
    · rw [if_neg hgt]
      rw [gt_iff_lt, Int32.lt_iff_toInt_lt] at hgt
      omega

/-- A size from a bound on the screen. -/
theorem bound_sub {b : Int32} {n : UInt32} (hb : b.toInt ≤ 319) (hn : (n.toNat : Int) ≤ b.toInt) :
    (b - n.toInt32).toInt = b.toInt - n.toNat := by
  rw [Int32.toInt_sub, Graphics.toInt_toInt32 (by omega), Int.bmod_eq_of_le (by omega) (by omega)]

theorem windowSetPos_placed (hs : s.Placed) (hfits : ∀ a w, p = some a → s.heap a = some w →
      x.toNat + w.width.toNat ≤ 319 ∧ y.toNat + w.height.toNat ≤ 184) :
    Meets (windowSetPos p x y) s fun _ s' => s'.Placed := by
  refine Meets.ite (fun _ => Meets.pure hs) fun _ =>
    Meets.bind ((store_meets p _ s).mono fun _ s₁ hs₁ => ?_)
  refine (store_meets p _ s₁).mono fun _ s₂ hs₂ => ?_
  have hplaced₁ : s₁.Placed := by
    rw [hs₁.2]
    exact hs.write fun a w ha hw => ⟨(hs a w hw).size, (hfits a w ha hw).1, (hs a w hw).y⟩
  rw [hs₂.2]
  refine hplaced₁.write fun a w ha hw => ⟨(hplaced₁ a w hw).size, (hplaced₁ a w hw).x, ?_⟩
  rw [hs₁.2] at hw
  unfold Ui.write at hw
  dsimp only at hw
  rw [if_pos ha.symm] at hw
  obtain ⟨v, hv, rfl⟩ := Option.map_eq_some_iff.1 hw
  exact (hfits a v ha hv).2

/-- A drag leaves a window where it fits. -/
theorem drag_placed {btns : UInt8} {mx my : Int32} : Keeps Ui.Placed (drag btns mx my) := by
  intro s r s' hs
  suffices hmeets : Meets (drag btns mx my) s fun _ t => Ui.Placed t from hmeets r s'
  refine Meets.bind (Meets.get (Q := fun t r => Meets _ r fun _ t' => Ui.Placed t') ?_)
  refine Meets.ite (fun _ => ?_) fun _ => Meets.pure hs
  refine Meets.bind ((windowGet_meets s).mono fun width s₁ hs₁ => ?_)
  rw [hs₁.2]
  refine Meets.bind ((windowGet_meets s).mono fun height s₂ hs₂ => ?_)
  rw [hs₂.2]
  refine Meets.bind (Meets.mono (windowSetPos_placed hs fun a w ha hw => ?_) fun _ _ ht =>
    Meets.pure ht)
  have hwindow : s.dragWin.bind s.heap = some w := by
    rw [ha]
    exact hw
  have hsize := (hs a w hw).size
  have hx := (hs a w hw).x
  have hy := (hs a w hw).y
  have h319 : (319 : Int32).toInt = 319 := rfl
  have h184 : taskbarY.toInt = 184 := rfl
  have hmaxx : ((319 : Int32) - w.width.toInt32).toInt = 319 - w.width.toNat :=
    bound_sub (by omega) (by omega)
  have hmaxy : (taskbarY - w.height.toInt32).toInt = 184 - w.height.toNat :=
    bound_sub (by omega) (by omega)
  have hnat : ∀ n : Int32, 0 ≤ n.toInt → (n.toUInt32.toNat : Int) = n.toInt := fun n hn => by
    rw [Int32.toNat_toUInt32_of_le (Int32.le_iff_toInt_le.2 hn), ← Int32.toNat_toInt]
    omega
  rw [hs₁.1 w hwindow, hs₂.1 w hwindow]
  have hcolumn := @clamp_bounds (mx - s.dragOffX) (319 - w.width.toInt32) (by omega)
  have hrow := @clamp_bounds (my - s.dragOffY) (taskbarY - w.height.toInt32) (by omega)
  have hxnat := hnat _ hcolumn.1
  have hynat := hnat _ hrow.1
  omega

/-! ## Turns of the main loop -/

theorem desktopProcess_placed (i : Input) : Keeps Ui.Placed (desktopProcess i) :=
  .bind .get fun _ => .bind (.modify fun _ hs => hs) fun _ => .bind drag_placed fun _ =>
    .bind (.when fun _ => .modify fun _ hs => hs) fun _ =>
      .ite (fun _ => .bind press_placed fun _ => .pure _)
      fun _ => .pure _

theorem handleKey_placed (i : Input) (c : UInt8) : Keeps Ui.Placed (handleKey i c) := by
  have htakes : ∀ active p, Keeps Ui.Placed (takesKeys active p) := fun active p =>
    .bind windowManagerGetHead_keeps fun _ =>
      .ite (fun _ => .bind windowGet_keeps fun minimized => .pure _)
      fun _ => .pure false
  have hterminal : Keeps Ui.Placed (termWindowHandleKey i.command c) := by
    unfold termWindowHandleKey
    cases i.command with
    | none => exact .pure ()
    | some command => exact .when fun _ => twExec_placed command
  have heditor : Keeps Ui.Placed textEditorHandleKey :=
    .bind .get fun _ => .ite (fun _ => .pure ()) fun _ => .bind windowGet_keeps fun _ => .pure ()
  have hbrowser : Keeps Ui.Placed (browserHandleKey i.home) := by
    intro s r s' hs
    suffices hmeets : Meets (browserHandleKey i.home) s fun _ t => Ui.Placed t from hmeets r s'
    refine Meets.bind (Meets.get (Q := fun t r => Meets _ r fun _ t' => Ui.Placed t') ?_)
    refine Meets.ite (fun _ => Meets.pure hs) fun hsome => Meets.when (fun _ => ?_) fun _ => hs
    exact browserFollow_placed hs (by simpa using hsome)
  refine .bind .get fun s => .bind (htakes _ _) fun _ => .ite (fun _ => ?_) fun _ => ?_
  · exact .bind hterminal fun _ => desktopRedraw_keeps
  refine .bind (htakes _ _) fun _ => .ite (fun _ => ?_) fun _ => ?_
  · exact .bind heditor fun _ => desktopRedraw_keeps
  refine .bind (htakes _ _) fun _ => .ite (fun _ => ?_) fun _ => .pure ()
  exact .bind hbrowser fun _ => desktopRedraw_keeps

theorem desktopMainLoop_placed (i : Input) : Keeps Ui.Placed (desktopMainLoop i) := by
  refine .bind (desktopProcess_placed i) fun _ =>
    .bind (.when fun _ => desktopRedraw_keeps) fun _ => ?_
  cases i.key with
  | none => exact .pure ()
  | some c => exact handleKey_placed i c

theorem kernelMain_placed : Keeps Ui.Placed kernelMain := by
  have hdesktop : Keeps Ui.Placed desktopInit := .modify fun _ hs => hs
  have hmanager : Keeps Ui.Placed windowManagerInit := .modify fun _ hs => hs
  refine .bind hdesktop fun _ => .bind hmanager fun _ => .bind createAbout_placed fun _ =>
    .bind .get fun _ => ?_
  exact .bind (.when fun _ => .bind .get fun _ => windowSetFocus_placed) fun _ =>
    desktopRedraw_keeps

theorem desktopMainLoop_fits (i : Input) (hs : Sound s ∧ s.Placed) :
    Total (desktopMainLoop i) s fun _ s' => Sound s' ∧ s'.Placed :=
  (desktopMainLoop_spec i hs.1).and_meets ((desktopMainLoop_placed i).meets hs.2)

theorem kernelMain_fits (grants : List Ptr) :
    Total kernelMain (Ui.start grants) fun _ s => Sound s ∧ s.Placed := by
  have hstart : (Ui.start grants).Placed := fun a w hw => by cases hw
  exact (kernelMain_spec grants).and_meets (kernelMain_placed.meets hstart)

/-- After the boot and any turns the windows are those of the applications, and all of them fit. -/
theorem turns_placed (grants : List Ptr) (inputs : List Input) :
    Total (do kernelMain; runAll desktopMainLoop inputs) (Ui.start grants) fun _ s =>
      Sound s ∧ s.Placed := by
  refine (total_bind ..).2 ((kernelMain_fits grants).mono fun _ s hs => ?_)
  exact total_runAll desktopMainLoop (P := fun _ _ => True)
    (fun i s hs _ => desktopMainLoop_fits i hs) inputs s hs
    (along_of_forall desktopMainLoop (fun _ _ => trivial) inputs s)

end MinervaOS.Desktop
