import MinervaOS.Desktop.Highlight
import MinervaOS.Desktop.Painting

/-!
# What is seen of the windows

A click is for the first window from the head on that is shown and has the point in its rectangle.
What is seen there is what was drawn last. The two are the same window where every other application
that shows something there is drawn before the application of this window, which shows something
there too, and where no window in front of it has its border there (`painted_iff`).
-/

namespace MinervaOS.Desktop

open Prog Graphics

section Windows

variable {s : Ui} {l : List Nat} {a : Nat} {h : Holder} {w : Window} {draws : Holder → List Shape}
  {p : UInt32 × UInt32}

/-! ## Clicks -/

/-- The rectangle of a window that the desktop has placed is what a click has to be in. -/
theorem hit_iff (hw : w.Fits) (hx : p.1.toNat < 320) (hy : p.2.toNat < 184) :
    w.hit p.1.toInt32 p.2.toInt32 = true ↔ w.minimized = false ∧ w.Inside p := by
  have hwx := hw.x
  have hwy := hw.y
  have hright := hw.right
  have hbottom : (w.y + w.height).toNat = w.y.toNat + w.height.toNat := by
    rw [UInt32.toNat_add]
    omega
  unfold Window.hit inRect Window.Inside
  simp only [Bool.and_eq_true, Bool.not_eq_true', ge_iff_le, decide_eq_true_eq,
    ← UInt32.toInt32_add, Int32.le_iff_toInt_le, Int32.lt_iff_toInt_lt]
  rw [toInt_toInt32 (n := p.1) (by omega), toInt_toInt32 (n := p.2) (by omega),
    toInt_toInt32 (n := w.x) (by omega), toInt_toInt32 (n := w.y) (by omega),
      toInt_toInt32 (n := w.x + w.width) (by omega),
    toInt_toInt32 (n := w.y + w.height) (by omega), hright, hbottom]
  refine and_congr_right fun _ => ?_
  omega

theorem selectFrom_eq {mx my : Int32} :
    ∀ {l : List Nat} (pre : List Nat) {n : Nat}, Stacked s (pre ++ l) →
    l.length < n → selectFrom s.heap mx my n l.head? = l.find? fun a =>
      (s.heap a).any fun w => w.hit mx my
  | [], _, n + 1, _, _ => rfl
  | a :: l, pre, n + 1, hs, hn => by
    obtain ⟨w, hw, -, hnext⟩ := hs.at
    have hstep : selectFrom s.heap mx my (n + 1) (some a) =
        if w.hit mx my then some a else selectFrom s.heap mx my n w.next := by
      simp [selectFrom, hw]
    have hrest : selectFrom s.heap mx my n l.head? = l.find? fun a => (s.heap a).any fun w =>
        w.hit mx my :=
      selectFrom_eq (pre ++ [a]) (by rw [List.append_assoc]; exact hs) (Nat.lt_of_succ_lt_succ hn)
    rw [List.head?_cons, hstep, hnext, hrest, List.find?_cons, hw, Option.any_some]
    cases w.hit mx my
    · rfl
    · rfl

theorem Desk.select (hd : Desk s l) (mx my : Int32) :
    s.select mx my = l.find? fun a => (s.heap a).any fun w => w.hit mx my := by
  unfold Ui.select
  rw [hd.stacked.linked.head]
  exact selectFrom_eq [] hd.stacked hd.short

theorem windowGet_run {α : Type} {zero : α} {field : Window → α} (hw : s.heap a = some w) :
    windowGet zero field (some a) s = some (field w, s) := by
  obtain ⟨r, s', hrun, rfl, rfl⟩ := @windowGet_field s a w α zero field hw
  exact hrun

/-- The walk does to the window that it selects what a click on it does. -/
theorem windowClickFrom_select {link : Bool} {mx my : Int32} {Q : Bool → Ui → Prop} :
    ∀ {l : List Nat} (pre : List Nat) {n : Nat}, Stacked s (pre ++ l) → l.length < n →
      (Total (windowClickFrom link mx my n l.head?) s Q ↔
        (selectFrom s.heap mx my n l.head? = none ∧ Q false s) ∨
          ∃ a w, selectFrom s.heap mx my n l.head? = some a ∧ s.heap a = some w ∧
            Total (windowClicked link mx my (some a) w.x.toInt32 w.y.toInt32 w.width.toInt32) s
              fun _ => Q true)
  | [], _, n + 1, _, _ => by
    refine (total_pure ..).trans ⟨fun hQ => .inl ⟨rfl, hQ⟩, fun hor => ?_⟩
    rcases hor with hnone | ⟨a, w, hsome, -⟩
    · exact hnone.2
    · cases hsome
  | a :: l, pre, n + 1, hs, hn => by
    obtain ⟨w, hw, -, hnext⟩ := hs.at
    have hselect : selectFrom s.heap mx my (n + 1) (some a) =
        if w.hit mx my then some a else selectFrom s.heap mx my n w.next := by
      simp [selectFrom, hw]
    have hrest : Total (windowClickFrom link mx my n l.head?) s Q ↔ _ :=
      windowClickFrom_select (pre ++ [a])
      (by rw [List.append_assoc]; exact hs) (Nat.lt_of_succ_lt_succ hn)
    have hminimized : windowIsMinimized (some a) s = some (w.minimized, s) := windowGet_run hw
    have hx : windowGetX (some a) s = some (w.x, s) := windowGet_run hw
    have hy : windowGetY (some a) s = some (w.y, s) := windowGet_run hw
    have hwidth : windowGetWidth (some a) s = some (w.width, s) := windowGet_run hw
    have hheight : windowGetHeight (some a) s = some (w.height, s) := windowGet_run hw
    have hgo : Total (do windowClickFrom link mx my n (← windowGetNext (some a))) s Q ↔
        Total (windowClickFrom link mx my n l.head?) s Q := by
      have hstep : windowGetNext (some a) s = some (w.next, s) := windowGet_run hw
      rw [total_bind_of_eq hstep, hnext]
    rw [List.head?_cons, hselect, hnext]
    show Total (do if ← windowIsMinimized (some a) then _ else _) s Q ↔ _
    rw [total_bind_of_eq hminimized]
    cases hmin : w.minimized with
    | true =>
      have hno : w.hit mx my = false := by simp [Window.hit, hmin]
      rw [hno]
      exact hgo.trans hrest
    | false =>
      simp only [Bool.false_eq_true, if_false]
      rw [total_bind_of_eq hx, total_bind_of_eq hy, total_bind_of_eq hwidth,
        total_bind_of_eq hheight]
      cases hin : inRect mx my w.x.toInt32 w.y.toInt32 w.width.toInt32 w.height.toInt32 with
      | false =>
        have hno : w.hit mx my = false := by simp [Window.hit, hin]
        rw [hno]
        exact hgo.trans hrest
      | true =>
        have hhit : w.hit mx my = true := by simp [Window.hit, hin, hmin]
        rw [hhit]
        simp only [Bool.not_true, Bool.false_eq_true, if_false, if_true, total_bind, total_pure]
        refine ⟨fun ht => .inr ⟨a, w, rfl, hw, ht⟩, fun hor => ?_⟩
        rcases hor with hnone | ⟨b, v, hsome, hv, ht⟩
        · cases hnone.1
        · obtain rfl := Option.some.inj hsome
          obtain rfl := Option.some.inj (hw.symm.trans hv)
          exact ht

/-- `window_click` does to the window that `Ui.select` finds what a click on it does. -/
theorem windowClick_select (hd : Desk s l) {link : Bool} {mx my : Int32} {Q : Bool → Ui → Prop} :
    Total (windowClick link mx my) s Q ↔ (s.select mx my = none ∧ Q false s) ∨
      ∃ a w, s.select mx my = some a ∧ s.heap a = some w ∧
        Total (windowClicked link mx my (some a) w.x.toInt32 w.y.toInt32 w.width.toInt32) s
          fun _ => Q true := by
  unfold windowClick windowManagerGetHead Ui.select
  simp only [total_bind, total_get, total_pure]
  rw [hd.stacked.linked.head]
  exact windowClickFrom_select [] hd.stacked hd.short

/-! ## What is seen -/

/-- An application shows something at a point. -/
def Ui.shows (s : Ui) (draws : Holder → List Shape) (h : Holder) (p : UInt32 × UInt32) : Bool :=
  (s.content draws h).any (Shape.covers · p)

/-- The place of an application in the order of `render_all`. -/
def Holder.turn : Holder → Nat
  | terminal => 0
  | editor => 1
  | viewer => 2
  | player => 3
  | browser => 4
  | about => 5

/-- Where the window `a` is on top, no application of a window below it is drawn over it, and no
window in front of it has its border beside its rectangle. -/
structure Ui.Clean (s : Ui) (draws : Holder → List Shape) (l : List Nat) (a : Nat)
    (p : UInt32 × UInt32) : Prop where
  contents : ∀ h, s.shows draws h p = true → s.win h ≠ some a →
    ∃ k, s.win k = some a ∧ s.shows draws k p = true ∧ h.turn < k.turn
  borders : ∀ b ∈ l, l.idxOf b < l.idxOf a → ∀ w, s.shown (some b) = some w → w.Beside p →
    ∃ k, s.win k = some a ∧ s.shows draws k p = true

theorem seen_contents : Layers.seen Shape.covers (renderOrder.flatMap (s.drawn draws)) p =
    (renderOrder.reverse.find? fun h => s.shows draws h p).map s.win := by
  have hshows : ∀ h, Layers.covered Shape.covers (s.drawn draws h) p = s.shows draws h p :=
      fun h => by
    unfold Layers.covered Ui.drawn Ui.shows
    rw [List.any_map]
    rfl
  rw [Layers.seen_flatMap s.win renderOrder fun h _ q hq => ?_]
  · simp only [hshows]
  · obtain ⟨shape, -, rfl⟩ := List.mem_map.1 hq
    rfl

theorem seen_frames : Layers.seen Shape.covers (l.reverse.flatMap s.framed) p =
    (l.find? fun a => Layers.covered Shape.covers (s.framed a) p).map some := by
  rw [Layers.seen_flatMap some l.reverse fun a _ q hq => ?_, List.reverse_reverse]
  obtain ⟨shape, -, rfl⟩ := List.mem_map.1 hq
  rfl

theorem framed_covered (hp : s.Placed) (a : Nat) :
    Layers.covered Shape.covers (s.framed a) p = true ↔
      ∃ w, s.shown (some a) = some w ∧ (w.Inside p ∨ w.Beside p) := by
  obtain ⟨frame, hframe, hcovers⟩ := hp.frame a
  rw [← hcovers p]
  unfold Layers.covered Ui.framed
  rw [hframe, Option.getD_some, List.any_map]
  rfl

/-- The last application that shows something. -/
theorem lastShown_iff {k : Holder} :
    (renderOrder.reverse.find? fun h => s.shows draws h p) = some k ↔
    s.shows draws k p = true ∧ ∀ h, s.shows draws h p = true → h = k ∨ h.turn < k.turn := by
  have hmem : ∀ h, h ∈ renderOrder.reverse := fun h => by
    cases h <;> decide
  rw [Layers.find?_first (R := fun h k => k.turn < h.turn)
    (fun h k hk => Nat.lt_asymm hk) (by decide)]
  exact ⟨fun hfirst => ⟨hfirst.2.1, fun h => hfirst.2.2 h (hmem h)⟩,
    fun hlast => ⟨hmem k, hlast.1, fun h _ => hlast.2 h⟩⟩

/-- The window on top at a point. -/
theorem Desk.top (hd : Desk s l) (hp : s.Placed) (hx : p.1.toNat < 320) (hy : p.2.toNat < 184)
    (ha : s.select p.1.toInt32 p.2.toInt32 = some a) :
    (a ∈ l ∧ ∃ w, s.shown (some a) = some w ∧ w.Inside p) ∧
      ∀ b ∈ l, ∀ w, s.shown (some b) = some w → w.Inside p → b = a ∨ l.idxOf a < l.idxOf b := by
  have hhit : ∀ b ∈ l, (s.heap b).any (fun w => w.hit p.1.toInt32 p.2.toInt32) = true ↔
      ∃ w, s.shown (some b) = some w ∧ w.Inside p := fun b hb => by
    obtain ⟨w, hw⟩ := Option.isSome_iff_exists.1 (hd.stacked.live hb)
    rw [hw, Option.any_some, hit_iff (hp b w hw) hx hy]
    refine ⟨fun hin => ⟨w, shown_eq_some.2 ⟨hw, hin.1⟩, hin.2⟩, fun hex => ?_⟩
    obtain ⟨w', hw', hin⟩ := hex
    obtain ⟨hheap, hmin⟩ := shown_eq_some.1 hw'
    obtain rfl := Option.some.inj (hw.symm.trans hheap)
    exact ⟨hmin, hin⟩
  rw [hd.select, Layers.find?_first (fun _ _ h => Nat.lt_asymm h)
    (Layers.pairwise_idxOf hd.stacked.linked.nodup)] at ha
  exact ⟨⟨ha.1, (hhit a ha.1).1 ha.2.1⟩,
    fun b hb w hw hin => ha.2.2 b hb ((hhit b hb).2 ⟨w, hw, hin⟩)⟩

/-- Above the taskbar the last application is seen, and where there is none the frame in front. -/
theorem seen_drawn {drawn : List (Ptr × Shape)} {wallpaper taskbar : List Shape}
    (hbar : ∀ shape ∈ taskbar, shape.OnBar) (hdrawn : drawn = wallpaper.map (none, ·) ++
      l.reverse.flatMap s.framed ++ renderOrder.flatMap (s.drawn draws) ++ taskbar.map (none, ·))
    (hy : p.2.toNat < 184) : Layers.seen Shape.covers drawn p =
      ((renderOrder.reverse.find? fun h => s.shows draws h p).map s.win).or
        (((l.find? fun a => Layers.covered Shape.covers (s.framed a) p).map some).or
          (Layers.seen Shape.covers (wallpaper.map (none, ·)) p)) := by
  have hnobar : Layers.seen Shape.covers (taskbar.map fun shape => ((none : Ptr), shape))
      p = none := by
    refine Layers.seen_eq_none fun q hq => ?_
    obtain ⟨shape, hshape, rfl⟩ := List.mem_map.1 hq
    rw [← Bool.not_eq_true]
    exact fun hcovers => absurd (hbar shape hshape p hcovers) (Nat.not_le.2 hy)
  rw [hdrawn, Layers.seen_append, Layers.seen_append, Layers.seen_append, hnobar, Option.none_or,
    seen_contents, seen_frames]

/-- When the window on top is what is seen at a point. -/
theorem seen_top_iff (hd : Desk s l) (hp : s.Placed) {drawn : List (Ptr × Shape)}
    {wallpaper taskbar : List Shape}
    (hbar : ∀ shape ∈ taskbar, shape.OnBar) (hdrawn : drawn = wallpaper.map (none, ·) ++
      l.reverse.flatMap s.framed ++ renderOrder.flatMap (s.drawn draws) ++ taskbar.map (none, ·))
    (hx : p.1.toNat < 320) (hy : p.2.toNat < 184) (ha : s.select p.1.toInt32 p.2.toInt32 = some a) :
    Layers.seen Shape.covers drawn p = some (some a) ↔ s.Clean draws l a p := by
  obtain ⟨⟨hmem, w, hw, hin⟩, hfront⟩ := hd.top hp hx hy ha
  rw [seen_drawn hbar hdrawn hy]
  rcases hlast : renderOrder.reverse.find? fun h => s.shows draws h p with _ | k
  · have hno : ∀ h, s.shows draws h p ≠ true := fun h hshows => by
      have hmem : h ∈ renderOrder.reverse := by cases h <;> decide
      exact List.find?_eq_none.1 hlast h hmem hshows
    have hclean : s.Clean draws l a p ↔ ∀ b ∈ l, l.idxOf b < l.idxOf a →
      ∀ w, s.shown (some b) = some w →
        ¬w.Beside p := by
      refine ⟨fun h b hb hlt w hw hbeside => ?_,
          fun h => ⟨fun k hk => absurd hk (hno k), fun b hb hlt w hw hbeside =>
        absurd hbeside (h b hb hlt w hw)⟩⟩
      obtain ⟨k, -, hk⟩ := h.borders b hb hlt w hw hbeside
      exact hno k hk
    have hfind : (l.find? fun b => Layers.covered Shape.covers (s.framed b) p) = some a ↔
        ∀ b ∈ l, l.idxOf b < l.idxOf a → ∀ w, s.shown (some b) = some w → ¬w.Beside p := by
      rw [Layers.find?_first (fun _ _ h => Nat.lt_asymm h)
        (Layers.pairwise_idxOf hd.stacked.linked.nodup)]
      constructor
      · intro hfirst b hb hlt w hw hbeside
        rcases hfirst.2.2 b hb ((framed_covered hp b).2 ⟨w, hw, .inr hbeside⟩) with rfl | hlt'
        · exact Nat.lt_irrefl _ hlt
        · exact Nat.lt_asymm hlt hlt'
      · intro hclear
        refine ⟨hmem, (framed_covered hp a).2 ⟨w, hw, .inl hin⟩, fun b hb hcovered => ?_⟩
        obtain ⟨w', hw', hin' | hbeside⟩ := (framed_covered hp b).1 hcovered
        · exact hfront b hb w' hw' hin'
        · rcases Nat.lt_trichotomy (l.idxOf b) (l.idxOf a) with hlt | heq | hlt
          · exact absurd hbeside (hclear b hb hlt w' hw')
          · exact .inl ((List.idxOf_inj hb).1 heq)
          · exact .inr hlt
    have hsome : (l.find? fun b => Layers.covered Shape.covers (s.framed b) p).isSome := by
      rw [List.find?_isSome]
      exact ⟨a, hmem, (framed_covered hp a).2 ⟨w, hw, .inl hin⟩⟩
    obtain ⟨b, hb⟩ := Option.isSome_iff_exists.1 hsome
    rw [hclean, ← hfind, hb, Option.map_none, Option.none_or, Option.map_some, Option.some_or,
      Option.some.injEq]
  · obtain ⟨hk, hlater⟩ := lastShown_iff.1 hlast
    rw [Option.map_some, Option.some_or, Option.some.injEq]
    constructor
    · intro hwin
      refine ⟨fun h hshows hne => ⟨k, hwin, hk, ?_⟩, fun _ _ _ _ _ _ => ⟨k, hwin, hk⟩⟩
      rcases hlater h hshows with rfl | hlt
      · exact absurd hwin hne
      · exact hlt
    · intro hclean
      by_contra hne
      obtain ⟨k', -, hk', hlt⟩ := hclean.contents k hk hne
      rcases hlater k' hk' with rfl | hlt'
      · exact Nat.lt_irrefl _ hlt
      · exact Nat.lt_asymm hlt hlt'

/-- When the window that a click selects is what is seen, at every point above the taskbar, whatever
the applications show. -/
theorem painted_iff (hd : Desk s l) (hp : s.Placed) (draws : Holder → List Shape) :
    Total (desktopRedrawWith draws) s fun drawn s' =>
      ((∀ p : UInt32 × UInt32, p.1.toNat < 320 → p.2.toNat < 184 → ∀ a,
          s.select p.1.toInt32 p.2.toInt32 = some a →
            Layers.seen Shape.covers drawn p = some (some a)) ↔
        ∀ p : UInt32 × UInt32, p.1.toNat < 320 → p.2.toNat < 184 → ∀ a,
          s.select p.1.toInt32 p.2.toInt32 = some a → s.Clean draws l a p) ∧ s' = s := by
  refine (desktopRedrawWith_spec hd hp draws).mono fun drawn s' hs' => ⟨?_, hs'.2⟩
  obtain ⟨wallpaper, taskbar, hbar, hdrawn⟩ := hs'.1
  exact forall_congr' fun p => forall_congr' fun hx => forall_congr' fun hy =>
      forall_congr' fun a =>
    forall_congr' fun ha => seen_top_iff hd hp hbar hdrawn hx hy ha

end Windows

/-- About is shown, alone. -/
def Ui.aboutShown : Ui := { Ui.start [] with
  heap := Function.update (fun _ => none) 1 (some (newWindow 10 10 130 76))
  windowListHead := some 1
  win := Function.update (fun _ => none) .about (some 1) }

theorem desk_aboutShown : Desk Ui.aboutShown [1] where
  stacked := ⟨⟨⟨rfl, none, rfl, rfl⟩, List.nodup_singleton 1⟩, fun a ha =>
    (by cases ha), fun a ha => (by cases ha)⟩
  holds := by
    have hnone : Holds (fun _ => none) [] :=
        ⟨fun a => ⟨fun ha => absurd ha List.not_mem_nil, fun ha => by
      obtain ⟨h, hh⟩ := ha
      cases hh⟩, fun h h' a ha => by cases ha⟩
    exact hnone.add rfl List.not_mem_nil
  terminal := rfl

theorem placed_aboutShown : Ui.aboutShown.Placed := by
  intro a w hw
  by_cases ha : a = 1
  · subst ha
    obtain rfl := Option.some.inj hw
    exact ⟨by decide, by decide, by decide⟩
  · have hat : Function.update (fun _ => none) 1 (some (newWindow 10 10 130 76)) a = some w := hw
    rw [Function.update_of_ne ha] at hat
    cases hat

theorem painted_iff_about : Total (desktopRedrawWith fun _ => []) Ui.aboutShown fun drawn s' =>
    ((∀ p : UInt32 × UInt32, p.1.toNat < 320 → p.2.toNat < 184 → ∀ a,
        Ui.aboutShown.select p.1.toInt32 p.2.toInt32 = some a →
          Layers.seen Shape.covers drawn p = some (some a)) ↔
      ∀ p : UInt32 × UInt32, p.1.toNat < 320 → p.2.toNat < 184 → ∀ a,
        Ui.aboutShown.select p.1.toInt32 p.2.toInt32 = some a →
          Ui.aboutShown.Clean (fun _ => []) [1] a p) ∧
      s' = Ui.aboutShown :=
  painted_iff desk_aboutShown placed_aboutShown _

/-- The terminal is opened, then the editor over it; a click raises the terminal, and the editor is
still seen. -/
theorem editor_over_terminal : ¬Total (do
      kernelMain
      let _ ← runAll desktopMainLoop
        [.mouse 1 5 9, .mouse 0 5 9, .mouse 1 5 73, .mouse 0 5 73, .mouse 1 60 60]
      desktopRedrawWith fun _ => [])
    (Ui.start [some 1, some 2, some 3]) fun drawn s => ∀ p : UInt32 × UInt32, p.1.toNat < 320 →
      p.2.toNat < 184 →
      ∀ a, s.select p.1.toInt32 p.2.toInt32 = some a →
        Layers.seen Shape.covers drawn p = some (some a) := by
  intro h
  obtain ⟨bs, s, hrun, ⟨l, hd⟩, hplaced⟩ := turns_placed [some 1, some 2, some 3]
    [.mouse 1 5 9, .mouse 0 5 9, .mouse 1 5 73, .mouse 0 5 73, .mouse 1 60 60]
  have hend : ∀ t ∈ ((do
        kernelMain
        runAll desktopMainLoop [.mouse 1 5 9, .mouse 0 5 9, .mouse 1 5 73, .mouse 0 5 73,
          .mouse 1 60 60] :
      Prog Ui (List Unit)) (Ui.start [some 1, some 2, some 3])).map Prod.snd,
      t.select 100 60 = some 2 ∧ t.win .editor = some 3 ∧
        (renderOrder.reverse.find? fun h => t.shows (fun _ => []) h (100, 60)) =
          some .editor := by decide +kernel
  obtain ⟨hselect, hwin, hlast⟩ := hend s (by rw [hrun]; rfl)
  rw [← bind_assoc, total_bind_of_eq hrun] at h
  obtain ⟨drawn, s', -, hclaim, ⟨wallpaper, taskbar, hbar, hdrawn⟩, rfl⟩ :=
    h.and (desktopRedrawWith_spec hd hplaced fun _ => [])
  have hseen := hclaim (100, 60) (by decide) (by decide) 2 hselect
  rw [seen_drawn hbar hdrawn (by decide), hlast, Option.map_some, Option.some_or, hwin] at hseen
  cases hseen

end MinervaOS.Desktop
