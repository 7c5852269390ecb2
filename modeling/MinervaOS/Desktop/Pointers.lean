import MinervaOS.Desktop.Stack

/-!
# No pointer to a destroyed window

Between two turns of the main loop the windows in the list are those that the applications hold,
each held by one. An application that is closed forgets its window before the window is destroyed,
and a window is given the focus, which puts it in front, before it is closed: so what is destroyed
is the head of the list, and nothing else points to it.
-/

namespace MinervaOS.Desktop

open Prog

/-- The windows `l` are those of the applications, each of one. -/
structure Holds (win : Holder → Ptr) (l : List Nat) : Prop where
  mem : ∀ a, a ∈ l ↔ ∃ h, win h = some a
  inj : ∀ h h' a, win h = some a → win h' = some a → h = h'

/-- The desktop with the windows `l`. -/
structure Desk (s : Ui) (l : List Nat) : Prop where
  stacked : Stacked s l
  holds : Holds s.win l
  terminal : s.gTw = (s.win .terminal).isSome

/-- A window `a` was created for `h` and is not in the list yet. -/
structure Opening (s s' : Ui) (h : Holder) (a : Nat) (l : List Nat) : Prop where
  win : s'.win = Function.update s.win h (some a)
  gTw : s'.gTw = s.gTw
  stacked : Stacked s' l
  fresh : a ∉ l
  live : s'.Live a

def Sound (s : Ui) : Prop := ∃ l, Desk s l

variable {s s' : Ui} {l l' : List Nat} {a : Nat} {h : Holder} {win : Holder → Ptr}
  {x y width height : UInt32} {p : Ptr}

/-! ## What the applications hold -/

def holders : List Holder := [.terminal, .about, .editor, .viewer, .player, .browser]

theorem mem_holders (h : Holder) : h ∈ holders := by
  cases h <;> decide

theorem Holds.length_le (hw : Holds win l) (hnd : l.Nodup) : l.length ≤ 6 := by
  have hsub : l ⊆ holders.filterMap win := fun a ha => by
    obtain ⟨h, hh⟩ := (hw.mem a).1 ha
    exact List.mem_filterMap.2 ⟨h, mem_holders h, hh⟩
  exact Nat.le_trans (List.subperm_of_subset hnd hsub).length_le (List.length_filterMap_le ..)

theorem Holds.perm (hw : Holds win l) (hp : l'.Perm l) : Holds win l' :=
  ⟨fun a => hp.mem_iff.trans (hw.mem a), hw.inj⟩

/-- A new window for an application that has none. -/
theorem Holds.add (hw : Holds win l) (hh : win h = none) (ha : a ∉ l) :
    Holds (Function.update win h (some a)) (a :: l) := by
  have hat : ∀ h' b, Function.update win h (some a) h' = some b ↔
      (h' = h ∧ b = a) ∨ win h' = some b := by
    intro h' b
    by_cases heq : h' = h
    · subst heq
      rw [Function.update_self, Option.some.injEq, hh]
      simp [eq_comm]
    · rw [Function.update_of_ne heq]
      simp [heq]
  constructor
  · intro b
    rw [List.mem_cons, hw.mem b]
    constructor
    · rintro (rfl | ⟨h', hb⟩)
      · exact ⟨h, (hat h b).2 (.inl ⟨rfl, rfl⟩)⟩
      · exact ⟨h', (hat h' b).2 (.inr hb)⟩
    · rintro ⟨h', hb⟩
      rcases (hat h' b).1 hb with ⟨-, rfl⟩ | hb
      · exact .inl rfl
      · exact .inr ⟨h', hb⟩
  · intro h₁ h₂ b hb₁ hb₂
    rcases (hat h₁ b).1 hb₁ with ⟨heq₁, hba⟩ | hold₁ <;> rcases (hat h₂ b).1 hb₂ with
      ⟨heq₂, hba'⟩ | hold₂
    · rw [heq₁, heq₂]
    · rw [hba] at hold₂
      exact absurd ((hw.mem a).2 ⟨h₂, hold₂⟩) ha
    · rw [hba'] at hold₁
      exact absurd ((hw.mem a).2 ⟨h₁, hold₁⟩) ha
    · exact hw.inj h₁ h₂ b hold₁ hold₂

/-- The applications forget a window that is closed. -/
def forget (win : Holder → Ptr) (a : Nat) (h : Holder) : Ptr :=
  if win h = some a then none else win h

theorem Holds.forget (hw : Holds win (a :: l)) (ha : a ∉ l) : Holds (forget win a) l := by
  have hat : ∀ h b, Desktop.forget win a h = some b ↔ win h = some b ∧ b ≠ a := by
    intro h b
    unfold Desktop.forget
    split
    · rename_i heq
      rw [heq]
      simp [eq_comm]
    · rename_i hne
      exact ⟨fun hb => ⟨hb, fun hba => hne (hba ▸ hb)⟩, And.left⟩
  constructor
  · intro b
    simp only [hat, exists_and_right, ← hw.mem b, List.mem_cons]
    constructor
    · intro hb
      exact ⟨.inr hb, fun hba => ha (hba ▸ hb)⟩
    · rintro ⟨hb, hne⟩
      exact hb.resolve_left hne
  · intro h₁ h₂ b h₁b h₂b
    exact hw.inj h₁ h₂ b ((hat h₁ b).1 h₁b).1 ((hat h₂ b).1 h₂b).1

theorem Desk.mem (hd : Desk s l) (hh : s.win h = some a) : a ∈ l := (hd.holds.mem a).2 ⟨h, hh⟩

theorem Desk.valid (hd : Desk s l) (h : Holder) : s.Valid (s.win h) :=
  fun _ ha => hd.stacked.live (hd.mem ha)

theorem Desk.of_kept (hd : Desk s l) (hk : Kept s s') (hs : Stacked s' l') (hp : l'.Perm l) :
    Desk s' l' := by
  refine ⟨hs, ?_, ?_⟩
  · rw [hk.win]
    exact hd.holds.perm hp
  · rw [hk.gTw, hk.win]
    exact hd.terminal

/-! ## Opening -/

theorem windowSetBgColor_spec (hs : Stacked s l) (ha : s.Live a) :
    Total (windowSetBgColor (some a)) s fun _ s' => Kept s s' ∧ Stacked s' l ∧ s'.Live a :=
  total_store ha ⟨⟨rfl, rfl⟩, hs.looks fun _ => ⟨rfl, rfl⟩, Ui.live_write.2 ha⟩

theorem windowSetTitleColor_spec (hs : Stacked s l) (ha : s.Live a) :
    Total (windowSetTitleColor (some a)) s fun _ s' => Kept s s' ∧ Stacked s' l ∧ s'.Live a :=
  total_store ha ⟨⟨rfl, rfl⟩, hs.looks fun _ => ⟨rfl, rfl⟩, Ui.live_write.2 ha⟩

theorem Opening.of_kept {s₁ : Ui} (ho : Opening s s₁ h a l) (hk : Kept s₁ s')
    (hs : Stacked s' l ∧ s'.Live a) : Opening s s' h a l :=
  ⟨hk.win.trans ho.win, hk.gTw.trans ho.gTw, hs.1, ho.fresh, hs.2⟩

/-- The new window is added to the list. -/
theorem Opening.add (hd : Desk s l) (hh : s.win h = none) (ho : Opening s s' h a l) :
    Total (windowManagerAdd (some a)) s' fun _ s'' => Kept s' s'' ∧ Stacked s'' (a :: l) ∧
      Holds s''.win (a :: l) := by
  refine (windowManagerAdd_spec ho.stacked ho.fresh ho.live).mono ?_
  rintro _ s'' ⟨hk, hs⟩
  refine ⟨hk, hs, ?_⟩
  rw [hk.win, ho.win]
  exact hd.holds.add hh ho.fresh

/-- A window created for an application that has none. -/
theorem windowCreate_setWin (hd : Desk s l) (hh : s.win h = none) :
    Total (windowCreate x y width height) s fun p s₁ => Total (setWin h p) s₁ fun _ s₂ =>
      (p = none ∧ Desk s₂ l ∧ s₂.win = s.win) ∨ ∃ a, p = some a ∧ Opening s s₂ h a l := by
  refine (windowCreate_spec hd.stacked).mono ?_
  rintro p s₁ ⟨hk, hs, hp⟩
  have hs₂ : Stacked { s₁ with win := Function.update s₁.win h p } l :=
    ⟨hs.linked, hs.focused, hs.dragged⟩
  refine (total_modify ..).2 ?_
  cases p with
  | none =>
    have hwin : Function.update s₁.win h none = s.win := by
      rw [hk.win, ← hh, Function.update_eq_self]
    refine .inl ⟨rfl, hd.of_kept ⟨hwin, hk.gTw⟩ hs₂ (.refl l), hwin⟩
  | some a =>
    obtain ⟨hfresh, hlive⟩ := hp a rfl
    exact .inr ⟨a, rfl, congrArg (Function.update · h (some a)) hk.win, hk.gTw, hs₂, hfresh, hlive⟩

theorem present_spec (hd : Desk s l) (hh : s.win h = some a) :
    Total (present h) s fun _ s' => Sound s' := by
  have ha := hd.mem hh
  unfold present
  simp only [total_bind, total_get]
  refine (windowGet_spec (hd.valid h)).mono ?_
  rintro minimized _ rfl
  refine total_when.2 ⟨fun _ => ?_, fun _ => ?_⟩
  · simp only [total_bind, total_get]
    rw [hh]
    refine (windowToggleMinimize_spec hd.stacked (hd.stacked.live ha)).mono ?_
    rintro _ s₁ ⟨hk, hs, -⟩
    rw [hk.win, hh]
    refine (windowSetFocus_spec hs ha).mono ?_
    rintro _ s₂ ⟨hk', hs'⟩
    exact ⟨_, hd.of_kept (hk.trans hk') hs' (List.perm_cons_erase ha).symm⟩
  · rw [hh]
    refine (windowSetFocus_spec hd.stacked ha).mono ?_
    rintro _ s₂ ⟨hk, hs⟩
    exact ⟨_, hd.of_kept hk hs (List.perm_cons_erase ha).symm⟩

theorem create_spec (hd : Desk s l) : Total (create h width height x y) s fun created s' =>
    (created = true ∧ (s.win h).isSome ∧ s' = s) ∨ (created = false ∧ Desk s' l) ∨
      (created = true ∧ s.win h = none ∧ ∃ a, Opening s s' h a l) := by
  unfold create
  simp only [total_bind, total_get]
  refine (total_ite ..).2 ⟨fun hsome => (total_pure ..).2 (.inl ⟨rfl, hsome, rfl⟩), fun hnone => ?_⟩
  rw [Option.not_isSome_iff_eq_none] at hnone
  simp only [total_bind]
  refine (windowCreate_setWin hd hnone).mono ?_
  rintro p s₁ hset
  refine hset.mono ?_
  rintro _ s₂ (⟨rfl, hd₂, -⟩ | ⟨a, rfl, ho⟩)
  · exact (total_pure ..).2 (.inr (.inl ⟨rfl, hd₂⟩))
  · refine (total_bind ..).2 ((windowSetBgColor_spec ho.stacked ho.live).mono ?_)
    rintro _ s₃ ⟨hk₃, h₃⟩
    refine (total_bind ..).2 ((windowSetTitleColor_spec h₃.1 h₃.2).mono ?_)
    rintro _ s₄ ⟨hk₄, h₄⟩
    exact (total_pure ..).2 (.inr (.inr ⟨rfl, hnone, a, (ho.of_kept hk₃ h₃).of_kept hk₄ h₄⟩))

/-- The desktop after an application other than the terminal got its window. -/
theorem Opening.add_desk (hd : Desk s l) (hh : s.win h = none) (ho : Opening s s' h a l)
    (hne : h ≠ .terminal) :
    Total (windowManagerAdd (some a)) s' fun _ s'' => s''.win h = some a ∧ Desk s'' (a :: l) := by
  refine (ho.add hd hh).mono ?_
  rintro _ s'' ⟨hk, hs, hholds⟩
  refine ⟨?_, hs, hholds, ?_⟩
  · rw [hk.win, ho.win, Function.update_self]
  · rw [hk.win, hk.gTw, ho.win, ho.gTw, Function.update_of_ne hne.symm]
    exact hd.terminal

theorem openFile_spec (hd : Desk s l) (hne : h ≠ .terminal) :
    Total (openFile h width height x y) s fun _ s' => Sound s' := by
  unfold openFile
  simp only [total_bind, total_get]
  refine (create_spec hd).mono ?_
  rintro created s₁ (⟨rfl, hsome, rfl⟩ | ⟨rfl, hd₁⟩ | ⟨rfl, hnone, a, ho⟩)
  · refine (total_bind ..).2 (total_when.2 ⟨fun h => absurd hsome (by simpa using h), fun _ => ?_⟩)
    obtain ⟨a, ha⟩ := Option.isSome_iff_exists.1 hsome
    refine (total_bind ..).2 ((present_spec hd ha).mono fun _ s₂ hs₂ => ?_)
    exact (total_pure ..).2 hs₂
  · exact (total_pure ..).2 ⟨l, hd₁⟩
  · refine (total_bind ..).2 (total_when.2 ⟨fun _ => ?_, fun h => absurd (by rw [hnone]; rfl) h⟩)
    have hwin : s₁.win h = some a := by rw [ho.win, Function.update_self]
    rw [total_bind, total_get, hwin]
    refine (ho.add_desk hd hnone hne).mono ?_
    rintro _ s₂ ⟨hh₂, hd₂⟩
    refine (total_bind ..).2 ((present_spec hd₂ hh₂).mono fun _ s₃ hs₃ => ?_)
    exact (total_pure ..).2 hs₃

theorem browserCreate_spec (hd : Desk s l) : Total (browserCreate x y) s fun created s' =>
    ∃ l', Desk s' l' ∧ (created = true → ∃ a, s'.win .browser = some a) := by
  unfold browserCreate
  simp only [total_bind, total_get]
  refine (total_ite ..).2 ⟨fun hsome => ?_, fun hnone => ?_⟩
  · exact (total_pure ..).2 ⟨l, hd, fun _ => Option.isSome_iff_exists.1 hsome⟩
  rw [Option.not_isSome_iff_eq_none] at hnone
  simp only [total_bind]
  refine (windowCreate_setWin hd hnone).mono ?_
  rintro p s₁ hset
  refine hset.mono ?_
  rintro _ s₂ (⟨rfl, hd₂, -⟩ | ⟨a, rfl, ho⟩)
  · exact (total_pure ..).2 ⟨l, hd₂, by simp⟩
  · refine (total_bind ..).2 ((windowSetBgColor_spec ho.stacked ho.live).mono ?_)
    rintro _ s₃ ⟨hk₃, h₃⟩
    refine (total_bind ..).2 ((windowSetTitleColor_spec h₃.1 h₃.2).mono ?_)
    rintro _ s₄ ⟨hk₄, h₄⟩
    have ho₄ := (ho.of_kept hk₃ h₃).of_kept hk₄ h₄
    refine (total_bind ..).2 ((ho₄.add_desk hd hnone (by simp)).mono ?_)
    rintro _ s₅ ⟨hwin, hd₅⟩
    exact (total_pure ..).2 ⟨a :: l, hd₅, fun _ => ⟨a, hwin⟩⟩

theorem browserOpenUrl_spec (hs : Sound s) :
    Total (browserOpenUrl x y) s fun _ s' => Sound s' := by
  obtain ⟨l, hd⟩ := hs
  refine (total_bind ..).2 ((browserCreate_spec hd).mono ?_)
  rintro created s₁ ⟨l₁, hd₁, hwin⟩
  cases created with
  | false => exact (total_pure ..).2 ⟨l₁, hd₁⟩
  | true =>
    obtain ⟨a, ha⟩ := hwin rfl
    refine (total_bind ..).2 ((present_spec hd₁ ha).mono fun _ s₂ hs₂ => ?_)
    exact (total_pure ..).2 hs₂

theorem browserFollow_spec (hs : Sound s) : Total browserFollow s fun _ s' => Sound s' := by
  obtain ⟨l, hd⟩ := hs
  unfold browserFollow
  simp only [total_bind, total_get]
  refine (windowGet_spec (hd.valid .browser)).mono ?_
  rintro x _ rfl
  refine (windowGet_spec (hd.valid .browser)).mono ?_
  rintro y _ rfl
  refine (browserOpenUrl_spec ⟨l, hd⟩).mono fun _ s' hs' => ?_
  exact (total_pure ..).2 hs'

theorem termWindowCreate_spec (hd : Desk s l) (hnone : s.win .terminal = none) :
    Total (termWindowCreate x y) s fun created s' =>
      (created = false ∧ Desk s' l ∧ s'.win .terminal = none) ∨
        (created = true ∧ ∃ a, Opening s s' .terminal a l) := by
  unfold termWindowCreate
  simp only [total_bind]
  refine (windowCreate_setWin hd hnone).mono ?_
  rintro p s₁ hset
  refine hset.mono ?_
  rintro _ s₂ (⟨rfl, hd₂, hwin⟩ | ⟨a, rfl, ho⟩)
  · exact (total_pure ..).2 (.inl ⟨rfl, hd₂, hwin ▸ hnone⟩)
  · refine (total_bind ..).2 ((windowSetBgColor_spec ho.stacked ho.live).mono ?_)
    rintro _ s₃ ⟨hk₃, h₃⟩
    refine (total_bind ..).2 ((windowSetTitleColor_spec h₃.1 h₃.2).mono ?_)
    rintro _ s₄ ⟨hk₄, h₄⟩
    exact (total_pure ..).2 (.inr ⟨rfl, a, (ho.of_kept hk₃ h₃).of_kept hk₄ h₄⟩)

theorem createTerminal_spec (hd : Desk s l) : Total createTerminal s fun _ s' => Sound s' := by
  unfold createTerminal
  simp only [total_bind, total_get]
  refine (total_ite ..).2 ⟨fun _ => (total_pure ..).2 ⟨l, hd⟩, fun hno => ?_⟩
  have hnone : s.win .terminal = none := by
    rw [hd.terminal, Bool.not_eq_true, Option.isSome_eq_false_iff, Option.isNone_iff_eq_none] at hno
    exact hno
  refine (total_bind ..).2 ((termWindowCreate_spec hd hnone).mono ?_)
  rintro created s₁ (⟨rfl, hd₁, hnone₁⟩ | ⟨rfl, a, ho⟩)
  · refine (total_bind ..).2 ((total_modify ..).2 (total_when.2 ⟨by simp, fun _ => ?_⟩))
    refine ⟨l, ⟨hd₁.stacked.linked, hd₁.stacked.focused, hd₁.stacked.dragged⟩, hd₁.holds, ?_⟩
    exact (Option.isSome_eq_false_iff.2 (Option.isNone_iff_eq_none.2 hnone₁)).symm
  · have hwin : s₁.win .terminal = some a := by rw [ho.win, Function.update_self]
    refine (total_bind ..).2
      ((total_modify ..).2 (total_when.2 ⟨fun _ => ?_, fun h => absurd rfl h⟩))
    simp only [total_bind, total_get, hwin]
    have hs : Stacked { s₁ with gTw := true } l :=
      ⟨ho.stacked.linked, ho.stacked.focused, ho.stacked.dragged⟩
    refine (windowManagerAdd_spec hs ho.fresh ho.live).mono ?_
    rintro _ s₂ ⟨hk, hs₂⟩
    have hwin₂ : s₂.win = Function.update s.win .terminal (some a) := hk.win.trans ho.win
    refine ⟨a :: l, hs₂, ?_, ?_⟩
    · rw [hwin₂]
      exact hd.holds.add hnone ho.fresh
    · rw [hk.gTw, hwin₂, Function.update_self]
      rfl

theorem createAbout_spec (hd : Desk s l) {minimized : Bool} :
    Total (createAbout minimized) s fun _ s' => Sound s' := by
  unfold createAbout
  simp only [total_bind, total_get]
  refine (total_ite ..).2 ⟨fun _ => (total_pure ..).2 ⟨l, hd⟩, fun hnone => ?_⟩
  rw [Option.not_isSome_iff_eq_none] at hnone
  simp only [total_bind]
  refine (windowCreate_setWin hd hnone).mono ?_
  rintro p s₁ hset
  refine hset.mono ?_
  rintro _ s₂ (⟨rfl, hd₂, -⟩ | ⟨a, rfl, ho⟩)
  · exact (total_pure ..).2 ⟨l, hd₂⟩
  · refine (total_bind ..).2 ((windowSetBgColor_spec ho.stacked ho.live).mono ?_)
    rintro _ s₃ ⟨hk₃, h₃⟩
    refine (total_bind ..).2 (((ho.of_kept hk₃ h₃).add_desk hd hnone (by simp)).mono ?_)
    rintro _ s₄ ⟨-, hd₄⟩
    refine total_when.2 ⟨fun _ => ?_, fun _ => ⟨_, hd₄⟩⟩
    refine (windowToggleMinimize_spec hd₄.stacked (hd₄.stacked.live List.mem_cons_self)).mono ?_
    rintro _ s₅ ⟨hk₅, hs₅, -⟩
    exact ⟨_, hd₄.of_kept hk₅ hs₅ (.refl _)⟩

theorem openTerminal_spec (hs : Sound s) : Total openTerminal s fun _ s' => Sound s' := by
  have hpresent : ∀ {t : Ui}, Sound t →
      Total (when t.gTw (present .terminal)) t fun _ s' => Sound s' := by
    rintro t ⟨l, hd⟩
    refine total_when.2 ⟨fun h => ?_, fun _ => ⟨l, hd⟩⟩
    rw [hd.terminal] at h
    obtain ⟨a, ha⟩ := Option.isSome_iff_exists.1 h
    exact present_spec hd ha
  obtain ⟨l, hd⟩ := hs
  unfold openTerminal
  simp only [total_bind, total_get]
  refine total_when.2 ⟨fun _ => ?_, fun _ => hpresent ⟨l, hd⟩⟩
  exact (createTerminal_spec hd).mono fun _ s₁ hs₁ => hpresent hs₁

theorem openAbout_spec (hs : Sound s) : Total openAbout s fun _ s' => Sound s' := by
  have hpresent : ∀ {t : Ui}, Sound t →
      Total (when (t.win .about).isSome (present .about)) t fun _ s' => Sound s' := by
    rintro t ⟨l, hd⟩
    refine total_when.2 ⟨fun h => ?_, fun _ => ⟨l, hd⟩⟩
    obtain ⟨a, ha⟩ := Option.isSome_iff_exists.1 h
    exact present_spec hd ha
  obtain ⟨l, hd⟩ := hs
  unfold openAbout
  simp only [total_bind, total_get]
  refine total_when.2 ⟨fun _ => ?_, fun _ => hpresent ⟨l, hd⟩⟩
  exact (createAbout_spec hd).mono fun _ s₁ hs₁ => hpresent hs₁

/-! ## Drawing -/

theorem appRender_spec (hd : Desk s l) (h : Holder) : Total (appRender h) s fun _ s' => s' = s := by
  unfold appRender
  simp only [total_bind, total_get]
  refine (total_ite ..).2 ⟨fun _ => (total_pure ..).2 rfl, fun _ => (total_bind ..).2 ?_⟩
  refine (windowGet_spec (hd.valid h)).mono ?_
  rintro minimized _ rfl
  refine (total_ite ..).2 ⟨fun _ => (total_pure ..).2 rfl, fun _ => ?_⟩
  exact windowDraw_spec (hd.valid h)

theorem renderAll_spec (hd : Desk s l) : Total renderAll s fun _ s' => s' = s := by
  unfold renderAll
  simp only [total_bind, total_get]
  have hterminal : Total (when s.gTw (appRender .terminal)) s fun _ s' => s' = s :=
    total_when.2 ⟨fun _ => appRender_spec hd .terminal, fun _ => rfl⟩
  refine hterminal.mono ?_
  rintro _ _ rfl
  refine (appRender_spec hd .editor).mono ?_
  rintro _ _ rfl
  refine (appRender_spec hd .viewer).mono ?_
  rintro _ _ rfl
  refine (appRender_spec hd .player).mono ?_
  rintro _ _ rfl
  refine (appRender_spec hd .browser).mono ?_
  rintro _ _ rfl
  exact appRender_spec hd .about

theorem drawTaskbar_spec :
    ∀ {l : List Nat} (pre : List Nat) {n : Nat} {bx : Int32}, Stacked s (pre ++ l) →
    l.length < n → Total (drawTaskbar n bx l.head?) s fun _ s' => s' = s
  | [], _, n + 1, _, _, _ => by
    exact (total_ite ..).2 ⟨fun h => absurd h.1 (by simp), fun _ => (total_pure ..).2 rfl⟩
  | a :: l, pre, n + 1, bx, h, hn => by
    have ha : s.Live a := h.live (List.mem_append_right pre List.mem_cons_self)
    refine (total_ite ..).2 ⟨fun _ => (total_bind ..).2 ?_, fun _ => (total_pure ..).2 rfl⟩
    refine (windowDraw_spec fun b hb => Option.some.inj hb ▸ ha).mono fun _ s₁ hs₁ => ?_
    rw [hs₁]
    refine (total_bind ..).2 ((windowGetNext_spec h).mono ?_)
    rintro next s₂ ⟨hnext, hs₂⟩
    rw [hnext, hs₂]
    refine drawTaskbar_spec (pre ++ [a]) ?_ (Nat.lt_of_succ_lt_succ hn)
    rw [List.append_assoc]
    exact h

theorem Desk.short (hd : Desk s l) : l.length < walkSteps :=
  Nat.lt_of_le_of_lt (hd.holds.length_le hd.stacked.linked.nodup) (by decide)

theorem desktopRedraw_spec (hs : Sound s) : Total desktopRedraw s fun _ s' => s' = s := by
  obtain ⟨l, hd⟩ := hs
  unfold desktopRedraw windowManagerGetHead
  refine (total_bind ..).2 ((windowManagerRenderAll_spec hd.stacked hd.short).mono ?_)
  rintro _ _ rfl
  refine (total_bind ..).2 ((renderAll_spec hd).mono ?_)
  rintro _ _ rfl
  simp only [total_bind, total_get, total_pure]
  rw [hd.stacked.linked.head]
  exact drawTaskbar_spec [] hd.stacked hd.short

/-! ## Keys and clicks -/

theorem windowIsMinimized_spec (hd : Desk s l) (ha : a ∈ l) :
    Total (windowIsMinimized (some a)) s fun _ s' => s' = s :=
  windowGet_spec fun _ hb => Option.some.inj hb ▸ hd.stacked.live ha

/-- A window of the list is given the focus. -/
theorem windowSetFocus_desk (hd : Desk s l) (ha : a ∈ l) :
    Total (windowSetFocus (some a)) s fun _ s' => s'.win = s.win ∧ Desk s' (a :: l.erase a) := by
  refine (windowSetFocus_spec hd.stacked ha).mono ?_
  rintro _ s' ⟨hk, hs⟩
  exact ⟨hk.win, hd.of_kept hk hs (List.perm_cons_erase ha).symm⟩

theorem windowToggleMinimize_desk (hd : Desk s l) (ha : a ∈ l) :
    Total (windowToggleMinimize (some a)) s fun _ s' => s'.win = s.win ∧ Desk s' l := by
  refine (windowToggleMinimize_spec hd.stacked (hd.stacked.live ha)).mono ?_
  rintro _ s' ⟨hk, hs, -⟩
  exact ⟨hk.win, hd.of_kept hk hs (.refl l)⟩

theorem taskbarClickFrom_spec {mx : Int32} :
    ∀ {l : List Nat} (pre : List Nat) {n : Nat} {bx : Int32},
    Desk s (pre ++ l) → l.length < n →
      Total (taskbarClickFrom n mx bx l.head?) s fun _ s' => Sound s'
  | [], pre, n + 1, _, hd, _ => (total_pure ..).2 ⟨pre ++ [], hd⟩
  | a :: l, pre, n + 1, bx, hd, hn => by
    have ha : a ∈ pre ++ a :: l := List.mem_append_right pre List.mem_cons_self
    refine (total_ite ..).2 ⟨nofun, fun _ => (total_ite ..).2 ⟨fun _ => (total_bind ..).2 ?_,
      fun _ => (total_bind ..).2 ?_⟩⟩
    · refine (windowIsMinimized_spec hd ha).mono fun minimized s₁ hs₁ => ?_
      rw [hs₁]
      refine (total_bind ..).2 (total_when.2 ⟨fun _ => ?_, fun _ => ?_⟩)
      · refine (windowToggleMinimize_desk hd ha).mono ?_
        rintro _ s₂ ⟨-, hd₂⟩
        exact (windowSetFocus_desk hd₂ ha).mono fun _ s₃ h₃ => ⟨_, h₃.2⟩
      · exact (windowSetFocus_desk hd ha).mono fun _ s₃ h₃ => ⟨_, h₃.2⟩
    · refine (windowGetNext_spec hd.stacked).mono ?_
      rintro next s₁ ⟨hnext, hs₁⟩
      rw [hnext, hs₁]
      refine taskbarClickFrom_spec (pre ++ [a]) ?_ (Nat.lt_of_succ_lt_succ hn)
      rw [List.append_assoc]
      exact hd

theorem taskbarClick_spec (hs : Sound s) {mx : Int32} :
    Total (taskbarClick mx) s fun _ s' => Sound s' := by
  obtain ⟨l, hd⟩ := hs
  unfold taskbarClick windowManagerGetHead
  simp only [total_bind, total_get, total_pure]
  rw [hd.stacked.linked.head]
  exact taskbarClickFrom_spec [] hd hd.short

theorem browserHandleClick_spec (hs : Sound s) {link : Bool} {x y : Int32} :
    Total (browserHandleClick link x y) s fun _ s' => Sound s' := by
  unfold browserHandleClick
  simp only [total_bind, total_get]
  refine (total_ite ..).2 ⟨fun _ => (total_pure ..).2 hs, fun _ => ?_⟩
  refine (total_ite ..).2 ⟨fun _ => (total_pure ..).2 hs, fun _ => ?_⟩
  refine (total_ite ..).2 ⟨fun _ => (total_pure ..).2 hs, fun _ => ?_⟩
  refine (total_ite ..).2 ⟨fun _ => ?_, fun _ => (total_pure ..).2 hs⟩
  refine (total_bind ..).2 ((browserFollow_spec hs).mono fun _ s' hs' => ?_)
  exact (total_pure ..).2 hs'

theorem contentClicked_spec (hs : Sound s) {link : Bool} {x y : Int32} :
    Total (contentClicked link p x y) s fun _ s' => Sound s' := by
  unfold contentClicked
  simp only [total_bind, total_get]
  refine (total_ite ..).2 ⟨fun _ => ?_, fun _ => (total_pure ..).2 hs⟩
  refine (total_bind ..).2 ((browserHandleClick_spec hs).mono fun handled s₁ hs₁ => ?_)
  refine total_when.2 ⟨fun _ => ?_, fun _ => hs₁⟩
  refine (desktopRedraw_spec hs₁).mono fun _ s₂ hs₂ => ?_
  rw [hs₂]
  exact hs₁

/-! ## Closing -/

/-- One application forgets the window. -/
def forgetAt (h : Holder) (a : Nat) (win : Holder → Ptr) : Holder → Ptr :=
  if win h = some a then Function.update win h none else win

/-- What is left when all of them forgot it, one after the other. -/
theorem forgetAt_all :
    forgetAt .about a (forgetAt .browser a (forgetAt .player a (forgetAt .viewer a
    (forgetAt .editor a (forgetAt .terminal a win))))) = forget win a := by
  have hat : ∀ (w : Holder → Ptr) (h h' : Holder), forgetAt h a w h' =
      if h' = h ∧ w h' = some a then none else w h' := by
    intro w h h'
    unfold forgetAt
    split <;> rename_i hw <;> by_cases heq : h' = h
    · simp [heq, hw]
    · simp [heq]
    · simp [heq, hw]
    · simp [heq]
  funext h
  unfold forget
  cases h <;> simp [hat]

theorem appClosed_spec (h : Holder) (a : Nat) :
    Total (appClosed h (some a)) s fun _ s' => s' = { s with win := forgetAt h a s.win } := by
  unfold appClosed appWindowClosed setWin forgetAt
  simp only [total_bind, total_get]
  refine total_when.2 ⟨fun h => ?_, fun hne => ?_⟩
  · rcases h with ⟨-, heq⟩
    simp only [total_bind, total_get]
    refine total_when.2 ⟨fun _ => (total_modify ..).2 ?_, fun hne => absurd heq.symm hne⟩
    rw [if_pos heq.symm]
  · rw [if_neg fun heq => hne ⟨by rw [heq]; rfl, heq.symm⟩]

theorem windowClosed_spec (hterm : s.gTw = (s.win .terminal).isSome) :
    Total (windowClosed (some a)) s fun _ s' => s' =
      { s with win := forget s.win a, gTw := (forget s.win a .terminal).isSome } := by
  unfold windowClosed setWin
  simp only [total_bind, total_get]
  have hfirst : Total (when (s.gTw = true ∧ some a = s.win .terminal) do
      modify fun t => { t with win := Function.update t.win .terminal none }
      modify fun t => { t with gTw := false }) s fun _ s' => s' = { s with
        win := forgetAt .terminal a s.win, gTw := (forget s.win a .terminal).isSome } := by
    unfold forgetAt forget
    refine total_when.2 ⟨fun h => ?_, fun hne => ?_⟩
    · rcases h with ⟨-, heq⟩
      refine (total_bind ..).2 ((total_modify ..).2 ((total_modify ..).2 ?_))
      rw [if_pos heq.symm, if_pos heq.symm]
      rfl
    · have hwin : s.win .terminal ≠ some a := fun heq => hne ⟨by rw [hterm, heq]; rfl, heq.symm⟩
      rw [if_neg hwin, if_neg hwin, ← hterm]
  have hlast : ∀ t : Ui, Total (when (t.win .about = some a) do
      modify fun t => { t with win := Function.update t.win .about none }) t fun _ t' =>
        t' = { t with win := forgetAt .about a t.win } := by
    intro t
    unfold forgetAt
    refine total_when.2 ⟨fun heq => (total_modify ..).2 ?_, fun hne => ?_⟩
    · rw [if_pos heq]
    · rw [if_neg hne]
  refine hfirst.mono fun _ s₁ hs₁ => ?_
  refine (appClosed_spec .editor a).mono fun _ s₂ hs₂ => ?_
  refine (appClosed_spec .viewer a).mono fun _ s₃ hs₃ => ?_
  refine (appClosed_spec .player a).mono fun _ s₄ hs₄ => ?_
  refine (appClosed_spec .browser a).mono fun _ s₅ hs₅ => ?_
  refine (hlast s₅).mono fun _ s₆ hs₆ => ?_
  rw [hs₆, hs₅, hs₄, hs₃, hs₂, hs₁, ← forgetAt_all]

/-- A click on the button that closes a window: what is destroyed is in front by then. -/
theorem windowClosed_destroy (hd : Desk s (a :: l)) :
    Total (do
      when (s.dragWin = some a) do modify fun s => { s with dragWin := none }
      windowClosed (some a)
      windowDestroy (some a) : Prog Ui Unit) s fun _ s' => Sound s' := by
  have ha : a ∉ l := (List.nodup_cons.1 hd.stacked.linked.nodup).1
  have hclose : ∀ {t : Ui}, Desk t (a :: l) → t.dragWin ≠ some a →
      Total (do windowClosed (some a); windowDestroy (some a) : Prog Ui Unit) t fun _ s' =>
        Sound s' := by
    intro t ht hdrag
    refine (total_bind ..).2 ((windowClosed_spec ht.terminal).mono fun _ t₁ ht₁ => ?_)
    have hs₁ : Stacked t₁ (a :: l) := by
      rw [ht₁]
      exact ⟨ht.stacked.linked, ht.stacked.focused, ht.stacked.dragged⟩
    refine (windowDestroy_spec hs₁ (by rw [ht₁]; exact hdrag)).mono ?_
    rintro _ t₂ ⟨hk, hs₂⟩
    refine ⟨l, hs₂, ?_, ?_⟩
    · rw [hk.win, ht₁]
      exact ht.holds.forget ha
    · rw [hk.gTw, hk.win, ht₁]
  refine (total_bind ..).2
    (total_when.2 ⟨fun _ => (total_modify ..).2 ?_, fun hne => hclose hd hne⟩)
  refine hclose ⟨⟨hd.stacked.linked, hd.stacked.focused, nofun⟩, hd.holds, hd.terminal⟩ nofun

theorem windowClicked_spec (hd : Desk s l) (ha : a ∈ l) {link : Bool} {mx my wx wy ww : Int32} :
    Total (windowClicked link mx my (some a) wx wy ww) s fun _ s' => Sound s' := by
  refine (total_bind ..).2 ((windowSetFocus_desk hd ha).mono ?_)
  rintro _ s₁ ⟨-, hd₁⟩
  refine (total_ite ..).2 ⟨fun _ => ?_, fun _ => (total_ite ..).2 ⟨fun _ => ?_, fun _ =>
    (total_ite ..).2 ⟨fun _ => ?_, fun _ => ?_⟩⟩⟩
  · rw [total_bind, total_get]
    exact windowClosed_destroy hd₁
  · exact (windowToggleMinimize_desk hd₁ List.mem_cons_self).mono fun _ s₂ h₂ => ⟨_, h₂.2⟩
  · refine (total_modify ..).2 ⟨_, ⟨hd₁.stacked.linked, hd₁.stacked.focused, fun b hb => ?_⟩,
      hd₁.holds, hd₁.terminal⟩
    exact Option.some.inj hb ▸ List.mem_cons_self
  · exact contentClicked_spec ⟨_, hd₁⟩

theorem windowClickFrom_spec {link : Bool} {mx my : Int32} :
    ∀ {l : List Nat} (pre : List Nat) {n : Nat},
    Desk s (pre ++ l) → l.length < n →
    Total (windowClickFrom link mx my n l.head?) s fun _ s' => Sound s'
  | [], pre, n + 1, hd, _ => (total_pure ..).2 ⟨pre ++ [], hd⟩
  | a :: l, pre, n + 1, hd, hn => by
    have ha : a ∈ pre ++ a :: l := List.mem_append_right pre List.mem_cons_self
    have hvalid : s.Valid (some a) := fun b hb => Option.some.inj hb ▸ hd.stacked.live ha
    have hnext : Total (do windowClickFrom link mx my n (← windowGetNext (some a))) s
        fun _ s' => Sound s' := by
      refine (total_bind ..).2 ((windowGetNext_spec hd.stacked).mono ?_)
      rintro next s₁ ⟨hnext, hs₁⟩
      rw [hnext, hs₁]
      refine windowClickFrom_spec (pre ++ [a]) ?_ (Nat.lt_of_succ_lt_succ hn)
      rw [List.append_assoc]
      exact hd
    refine (total_ite ..).2 ⟨nofun, fun _ => (total_bind ..).2 ?_⟩
    refine (windowIsMinimized_spec hd ha).mono fun minimized s₁ hs₁ => ?_
    rw [hs₁]
    refine (total_ite ..).2 ⟨fun _ => hnext, fun _ => (total_bind ..).2 ?_⟩
    refine (windowGet_spec hvalid).mono fun wx s₂ hs₂ => ?_
    rw [hs₂]
    refine (total_bind ..).2 ((windowGet_spec hvalid).mono fun wy s₃ hs₃ => ?_)
    rw [hs₃]
    refine (total_bind ..).2 ((windowGet_spec hvalid).mono fun ww s₄ hs₄ => ?_)
    rw [hs₄]
    refine (total_bind ..).2 ((windowGet_spec hvalid).mono fun wh s₅ hs₅ => ?_)
    rw [hs₅]
    refine (total_ite ..).2 ⟨fun _ => hnext, fun _ => (total_bind ..).2 ?_⟩
    exact (windowClicked_spec hd ha).mono fun _ s₆ hs₆ => (total_pure ..).2 hs₆

theorem windowClick_spec (hs : Sound s) {link : Bool} {mx my : Int32} :
    Total (windowClick link mx my) s fun _ s' => Sound s' := by
  obtain ⟨l, hd⟩ := hs
  unfold windowClick windowManagerGetHead
  simp only [total_bind, total_get, total_pure]
  rw [hd.stacked.linked.head]
  exact windowClickFrom_spec [] hd hd.short

/-! ## Turns of the main loop -/

theorem openFile_sound (hs : Sound s) (hne : h ≠ .terminal) :
    Total (do let _ ← openFile h width height x y : Prog Ui Unit) s fun _ s' => Sound s' := by
  obtain ⟨l, hd⟩ := hs
  exact (total_bind ..).2 ((openFile_spec hd hne).mono fun _ _ hs' => (total_pure ..).2 hs')

theorem browserOpenUrl_sound (hs : Sound s) :
    Total (do let _ ← browserOpenUrl x y : Prog Ui Unit) s fun _ s' => Sound s' :=
  (total_bind ..).2 ((browserOpenUrl_spec hs).mono fun _ _ hs' => (total_pure ..).2 hs')

theorem iconClick_spec {mx my : Int32} : ∀ {is : List (Int32 × Int32 × Prog Ui Unit)},
    (∀ i ∈ is, ∀ t, Sound t → Total i.2.2 t fun _ t' => Sound t') → Sound s →
    Total (iconClick mx my is) s fun _ s' => Sound s'
  | [], _, hs => (total_pure ..).2 hs
  | i :: is, hi, hs => by
    refine (total_ite ..).2 ⟨fun _ => (total_bind ..).2 ?_, fun _ => ?_⟩
    · exact (hi i List.mem_cons_self s hs).mono fun _ _ hs' => (total_pure ..).2 hs'
    · exact iconClick_spec (fun j hj => hi j (List.mem_cons_of_mem i hj)) hs

theorem icons_sound : ∀ i ∈ icons, ∀ t, Sound t → Total i.2.2 t fun _ t' => Sound t' := by
  intro i hi t ht
  unfold icons at hi
  simp only [List.mem_cons, List.not_mem_nil, or_false] at hi
  rcases hi with rfl | rfl | rfl | rfl | rfl | rfl
  · exact openTerminal_spec ht
  · exact openAbout_spec ht
  · exact openFile_sound ht nofun
  · exact openFile_sound ht nofun
  · exact openFile_sound ht nofun
  · exact browserOpenUrl_sound ht

theorem press_spec (hs : Sound s) {link : Bool} {mx my : Int32} :
    Total (press link mx my) s fun _ s' => Sound s' := by
  refine (total_ite ..).2 ⟨fun _ => (total_bind ..).2 ?_, fun _ => (total_bind ..).2 ?_⟩
  · exact (taskbarClick_spec hs).mono fun _ s' hs' => (total_pure ..).2 hs'
  · refine (windowClick_spec hs).mono fun hit s₁ hs₁ => ?_
    exact (total_ite ..).2 ⟨fun _ => (total_pure ..).2 hs₁, fun _ => iconClick_spec icons_sound hs₁⟩

/-- A window that is dragged is one of the list. -/
theorem drag_spec (hs : Sound s) {btns : UInt8} {mx my : Int32} :
    Total (drag btns mx my) s fun _ s' => Sound s' := by
  obtain ⟨l, hd⟩ := hs
  unfold drag
  simp only [total_bind, total_get]
  refine (total_ite ..).2 ⟨fun h => ?_, fun _ => (total_pure ..).2 ⟨l, hd⟩⟩
  rcases h with ⟨-, hsome⟩
  obtain ⟨a, ha⟩ := Option.isSome_iff_exists.1 hsome
  have hlive : s.Live a := hd.stacked.live (hd.stacked.dragged a ha)
  have hvalid : s.Valid s.dragWin := fun b hb => hd.stacked.live (hd.stacked.dragged b hb)
  refine (total_bind ..).2 ((windowGet_spec hvalid).mono fun w s₁ hs₁ => ?_)
  rw [hs₁]
  refine (total_bind ..).2 ((windowGet_spec hvalid).mono fun h s₂ hs₂ => ?_)
  rw [hs₂, ha]
  refine (total_bind ..).2 ((windowSetPos_spec hd.stacked hlive).mono ?_)
  rintro _ s₃ ⟨hk, hs₃⟩
  exact (total_pure ..).2 ⟨l, hd.of_kept hk hs₃ (.refl l)⟩

theorem desktopProcess_spec (hs : Sound s) (i : Input) :
    Total (desktopProcess i) s fun _ s' => Sound s' := by
  unfold desktopProcess
  simp only [total_bind, total_get, total_modify]
  have hs₁ : Sound { s with prevBtns := i.btns } := by
    obtain ⟨l, hd⟩ := hs
    exact ⟨l, ⟨hd.stacked.linked, hd.stacked.focused, hd.stacked.dragged⟩, hd.holds, hd.terminal⟩
  refine (drag_spec hs₁).mono fun dragged s₂ hs₂ => ?_
  have hs₃ : Sound { s₂ with dragWin := none } := by
    obtain ⟨l, hd⟩ := hs₂
    exact ⟨l, ⟨hd.stacked.linked, hd.stacked.focused, by simp⟩, hd.holds, hd.terminal⟩
  refine total_when.2 ⟨fun _ => (total_modify ..).2 ?_, fun _ => ?_⟩
  all_goals
    refine (total_ite ..).2 ⟨fun _ => (total_bind ..).2 ?_, fun _ => (total_pure ..).2 ‹_›⟩
    exact (press_spec ‹_›).mono fun _ s' hs' => (total_pure ..).2 hs'

theorem twExec_spec (hs : Sound s) : ∀ command : Command,
    Total (twExec command) s fun _ s' => Sound s'
  | .edit | .view | .play => openFile_sound hs nofun
  | .browser | .appBrowser => browserOpenUrl_sound hs

theorem desktopRedraw_sound (hs : Sound s) : Total desktopRedraw s fun _ s' => Sound s' :=
  (desktopRedraw_spec hs).mono fun _ _ hs' => hs' ▸ hs

theorem takesKeys_spec (hv : s.Valid p) {active : Bool} :
    Total (takesKeys active p) s fun _ s' => s' = s := by
  unfold takesKeys windowManagerGetHead
  simp only [total_bind, total_get, total_pure]
  refine (total_ite ..).2 ⟨fun _ => (total_bind ..).2 ?_, fun _ => (total_pure ..).2 rfl⟩
  exact (windowGet_spec hv).mono fun _ s' hs' => (total_pure ..).2 hs'

theorem handleKey_spec (hs : Sound s) (i : Input) (c : UInt8) :
    Total (handleKey i c) s fun _ s' => Sound s' := by
  obtain ⟨l, hd⟩ := hs
  unfold handleKey
  simp only [total_bind, total_get]
  refine (takesKeys_spec (hd.valid .terminal)).mono fun yes s₁ hs₁ => ?_
  rw [hs₁]
  refine (total_ite ..).2 ⟨fun _ => (total_bind ..).2 ?_, fun _ => (total_bind ..).2 ?_⟩
  · unfold termWindowHandleKey
    cases i.command with
    | none => exact (total_pure ..).2 (desktopRedraw_sound ⟨l, hd⟩)
    | some command =>
      refine total_when.2 ⟨fun _ => ?_, fun _ => desktopRedraw_sound ⟨l, hd⟩⟩
      exact (twExec_spec ⟨l, hd⟩ command).mono fun _ s₂ hs₂ => desktopRedraw_sound hs₂
  refine (takesKeys_spec (hd.valid .editor)).mono fun yes s₂ hs₂ => ?_
  rw [hs₂]
  refine (total_ite ..).2 ⟨fun _ => (total_bind ..).2 ?_, fun _ => (total_bind ..).2 ?_⟩
  · unfold textEditorHandleKey
    simp only [total_bind, total_get]
    refine (total_ite ..).2 ⟨fun _ => ?_, fun _ => (total_bind ..).2 ?_⟩
    · exact (total_pure ..).2 (desktopRedraw_sound ⟨l, hd⟩)
    · refine (windowGet_spec (hd.valid .editor)).mono fun _ s₃ hs₃ => ?_
      rw [hs₃]
      exact (total_pure ..).2 (desktopRedraw_sound ⟨l, hd⟩)
  refine (takesKeys_spec (hd.valid .browser)).mono fun yes s₃ hs₃ => ?_
  rw [hs₃]
  refine (total_ite ..).2 ⟨fun _ => (total_bind ..).2 ?_, fun _ => (total_pure ..).2 ⟨l, hd⟩⟩
  unfold browserHandleKey
  simp only [total_bind, total_get]
  refine (total_ite ..).2 ⟨fun _ => ?_, fun _ => ?_⟩
  · exact (total_pure ..).2 (desktopRedraw_sound ⟨l, hd⟩)
  · refine total_when.2 ⟨fun _ => ?_, fun _ => desktopRedraw_sound ⟨l, hd⟩⟩
    exact (browserFollow_spec ⟨l, hd⟩).mono fun _ s₄ hs₄ => desktopRedraw_sound hs₄

/-- A turn of the main loop. -/
theorem desktopMainLoop_spec (i : Input) (hs : Sound s) :
    Total (desktopMainLoop i) s fun _ s' => Sound s' := by
  unfold desktopMainLoop
  refine (total_bind ..).2 ((desktopProcess_spec hs i).mono fun dirty s₁ hs₁ => ?_)
  have hdraw : Total (when dirty desktopRedraw) s₁ fun _ s' => Sound s' :=
    total_when.2 ⟨fun _ => desktopRedraw_sound hs₁, fun _ => hs₁⟩
  refine (total_bind ..).2 (hdraw.mono fun _ s₂ hs₂ => ?_)
  cases i.key with
  | none => exact (total_pure ..).2 hs₂
  | some c => exact handleKey_spec hs₂ i c

theorem kernelMain_spec (grants : List Ptr) :
    Total kernelMain (Ui.start grants) fun _ s' => Sound s' := by
  have hstart : Desk { Ui.start grants with
      dragWin := none, prevBtns := 0, windowListHead := none, focusedWindow := none } [] :=
    ⟨⟨linked_nil, nofun, nofun⟩, ⟨fun a => ⟨nofun, fun ⟨_, h⟩ => nomatch h⟩, nofun⟩, rfl⟩
  unfold kernelMain desktopInit windowManagerInit
  simp only [total_bind, total_get, total_modify]
  refine (createAbout_spec hstart).mono fun _ s₁ hs₁ => ?_
  refine total_when.2 ⟨fun hg => ?_, fun _ => desktopRedraw_sound hs₁⟩
  obtain ⟨l, hd⟩ := hs₁
  rw [hd.terminal] at hg
  obtain ⟨a, ha⟩ := Option.isSome_iff_exists.1 hg
  simp only [total_bind, total_get]
  rw [ha]
  exact (windowSetFocus_desk hd (hd.mem ha)).mono fun _ s₂ h₂ => desktopRedraw_sound ⟨_, h₂.2⟩

/-- The variables that point to windows. -/
def Ui.pointers (s : Ui) : List Ptr :=
  [s.windowListHead, s.focusedWindow, s.dragWin, s.win .about, s.win .terminal, s.win .editor,
    s.win .viewer, s.win .player, s.win .browser]

theorem Sound.pointers (hs : Sound s) : ∀ p ∈ s.pointers, s.Valid p := by
  obtain ⟨l, hd⟩ := hs
  intro p hp
  unfold Ui.pointers at hp
  simp only [List.mem_cons, List.not_mem_nil, or_false] at hp
  rcases hp with rfl | rfl | rfl | rfl | rfl | rfl | rfl | rfl | rfl
  · exact fun a ha => hd.stacked.live (List.mem_of_head? (hd.stacked.linked.head ▸ ha))
  · exact fun a ha => hd.stacked.live (hd.stacked.focused a ha)
  · exact fun a ha => hd.stacked.live (hd.stacked.dragged a ha)
  all_goals exact hd.valid _

/-- Whatever the allocator grants and whatever the user does, the boot and the turns after it
return, so no window was used that was destroyed, and then every variable that points to a window is
null or points to one there is. -/
theorem turns_valid (grants : List Ptr) (inputs : List Input) :
    Total (do kernelMain; runAll desktopMainLoop inputs) (Ui.start grants) fun _ s =>
      ∀ p ∈ s.pointers, s.Valid p := by
  refine (total_bind ..).2 ((kernelMain_spec grants).mono fun _ s hs => ?_)
  refine (total_runAll desktopMainLoop (P := fun _ _ => True) (fun i s hs _ =>
    desktopMainLoop_spec i hs) inputs s hs (along_of_forall desktopMainLoop (fun _ _ => trivial)
      inputs s)).mono fun _ s' hs' => ?_
  exact hs'.pointers

end MinervaOS.Desktop
