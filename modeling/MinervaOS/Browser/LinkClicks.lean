import MinervaOS.Browser.Rendering
import MinervaOS.Lib.Spans

/-!
# Clicks on the page

`browser_handle_click` opens the first link whose box contains the point. The box of a link is the
least one around all its cells, so where a link goes on in another line it contains what is beside
it in both: other text, and the text of other links. A click opens the link of the glyph that it is
on exactly where no such box comes first (`clicks_iff`).
-/

namespace MinervaOS.Browser.Page

open Net (chars)

/-- What a click does. -/
inductive Click where
  /-- `browser_reload` -/
  | reload
  /-- The address is edited. -/
  | edit
  /-- `browser_open_url(…, browser->link_url[i])` -/
  | openLink (i : Nat) (url : List UInt8)
  /-- The click is not handled. -/
  | nothing
  deriving DecidableEq

/-- Whether a link can be clicked at a point. -/
def linkAt (b : Browser) (x y : Int) (i : Nat) : Bool :=
  let l := b.links i
  !(l.w == 0 || l.url.headD 0 == 0) &&
    !(x < l.x || y < l.y || x ≥ (l.x + l.w : Nat) || y ≥ (l.y + l.h : Nat))

def browserHandleClick (browser : Option Browser) (x y : Int) : Click :=
  match browser with
  | none => .nothing
  | some b =>
    if x ≥ 176 && x < 218 && y ≥ 8 && y < 26 then .reload
    else if x ≥ 12 && x < 170 && y ≥ 8 && y < 26 then .edit
    else match (List.range b.linkCount).find? (linkAt b x y) with
      | some i => .openLink i (b.links i).url
      | none => .nothing

/-! ## The glyphs of the page -/

/-- A glyph in its cell, with the link that is current when it is drawn. -/
structure Glyph where
  x : Nat
  y : Nat
  link : Option Nat
  deriving DecidableEq

/-- The link that the text is in. -/
def PageState.link (s : PageState) : Option Nat :=
  if s.inLink ∧ s.currentLink < s.browser.linkCount then some s.currentLink else none

def Draw.toGlyph (link : Option Nat) : Draw → Option Glyph
  | .char x y _ _ => some ⟨x, y, link⟩
  | _ => none

/-- The glyphs that a pass has drawn. -/
def newGlyphs (s : PageState) (r : Pass PageState PageState) : List Glyph :=
  ((Sum.elim id id r : PageState).calls.drop s.calls.length).filterMap (Draw.toGlyph s.link)

/-- `render_page_text`, with the glyphs that it draws. -/
def pageGlyphs (info : NetInfo) (b : Browser) : Option (PageState × List Glyph) := do
  let s ← PageState.start info b
  loopOut (PageState.pass info) newGlyphs loopSteps s

/-! ## The boxes -/

/-- Where the glyphs of a link begin, along each axis. -/
def linkXs (gs : List Glyph) (i : Nat) : Set Nat := {x | ∃ g ∈ gs, g.link = some i ∧ g.x = x}

def linkYs (gs : List Glyph) (i : Nat) : Set Nat := {y | ∃ g ∈ gs, g.link = some i ∧ g.y = y}

/-- The box of every link is the least one around its cells. -/
structure Boxes (gs : List Glyph) (b : Browser) : Prop where
  link : ∀ g ∈ gs, ∀ k, g.link = some k → k < b.linkCount
  width : ∀ i < b.linkCount, ((b.links i).w ≠ 0 ↔ ∃ g ∈ gs, g.link = some i)
  spans : ∀ i < b.linkCount, (b.links i).w ≠ 0 →
    Spans 8 (linkXs gs i) (b.links i).x (b.links i).w ∧
      Spans 9 (linkYs gs i) (b.links i).y (b.links i).h

section Boxes

variable {gs : List Glyph} {b b' : Browser} {x y k : Nat}

/-- Where the glyphs of the link begin along an axis, with one more. -/
theorem begins_self (f : Glyph → Nat) {g : Glyph} (hlink : g.link = some k) :
    {a | ∃ g' ∈ gs ++ [g], g'.link = some k ∧ f g' = a} =
      insert (f g) {a | ∃ g' ∈ gs, g'.link = some k ∧ f g' = a} := by
  refine Set.ext fun a => ⟨fun ha => ?_, fun ha => ?_⟩
  · obtain ⟨g', hg', hlink', rfl⟩ := ha
    rcases List.mem_append.1 hg' with hg' | hg'
    · exact .inr ⟨g', hg', hlink', rfl⟩
    · obtain rfl := List.mem_singleton.1 hg'
      exact .inl rfl
  · rcases ha with rfl | ⟨g', hg', hlink', rfl⟩
    · exact ⟨_, List.mem_append_right _ List.mem_cons_self, hlink, rfl⟩
    · exact ⟨g', List.mem_append_left _ hg', hlink', rfl⟩

theorem linkXs_self : linkXs (gs ++ [⟨x, y, some k⟩]) k = insert x (linkXs gs k) :=
  begins_self Glyph.x rfl

theorem linkYs_self : linkYs (gs ++ [⟨x, y, some k⟩]) k = insert y (linkYs gs k) :=
  begins_self Glyph.y rfl

/-- The glyphs of the other links. -/
theorem mem_append_other {g g' : Glyph} {i : Nat} (hne : g'.link ≠ some i)
    (hlink : g.link = some i) :
    g ∈ gs ++ [g'] ↔ g ∈ gs := by
  rw [List.mem_append, List.mem_singleton]
  refine ⟨fun h => h.resolve_right fun heq => ?_, .inl⟩
  subst heq
  exact hne hlink

theorem begins_other (f : Glyph → Nat) {g : Glyph} {i : Nat} (hne : g.link ≠ some i) :
    {a | ∃ g' ∈ gs ++ [g], g'.link = some i ∧ f g' = a} =
      {a | ∃ g' ∈ gs, g'.link = some i ∧ f g' = a} := by
  refine Set.ext fun a => exists_congr fun g' => ?_
  rw [and_congr_left fun h => mem_append_other hne h.1]

theorem linkXs_other {g : Glyph} {i : Nat} (hne : g.link ≠ some i) :
    linkXs (gs ++ [g]) i = linkXs gs i :=
  begins_other Glyph.x hne

theorem linkYs_other {g : Glyph} {i : Nat} (hne : g.link ≠ some i) :
    linkYs (gs ++ [g]) i = linkYs gs i :=
  begins_other Glyph.y hne

/-- A glyph outside of the links. -/
theorem Boxes.plain (h : Boxes gs b) (x y : Nat) : Boxes (gs ++ [⟨x, y, none⟩]) b := by
  have hne : ∀ i, (⟨x, y, none⟩ : Glyph).link ≠ some i := fun i hi => (by cases hi)
  refine ⟨fun g hg k hk => ?_, fun i hi => ?_, fun i hi hw => ?_⟩
  · exact h.link g ((mem_append_other (hne k) hk).1 hg) k hk
  · rw [h.width i hi]
    exact ⟨fun ⟨g, hg, hlink⟩ => ⟨g, List.mem_append_left _ hg, hlink⟩,
      fun ⟨g, hg, hlink⟩ => ⟨g, (mem_append_other (hne i) hlink).1 hg, hlink⟩⟩
  · rw [linkXs_other (hne i), linkYs_other (hne i)]
    exact h.spans i hi hw

/-- The box that `browser_track_link` gives a link. -/
theorem Boxes.store (h : Boxes gs b) (hk : k < b.linkCount) {l : Link} (hw : l.w ≠ 0)
    (hx : Spans 8 (insert x (linkXs gs k)) l.x l.w)
    (hy : Spans 9 (insert y (linkYs gs k)) l.y l.h) :
    Boxes (gs ++ [⟨x, y, some k⟩]) { b with links := Function.update b.links k l } := by
  refine ⟨fun g hg j hj => ?_, fun i hi => ?_, fun i hi hwi => ?_⟩
  · rcases List.mem_append.1 hg with hg | hg
    · exact h.link g hg j hj
    · obtain rfl := List.mem_singleton.1 hg
      obtain rfl := Option.some.inj hj
      exact hk
  · by_cases hik : i = k
    · subst hik
      dsimp only
      rw [Function.update_self]
      exact ⟨fun _ => ⟨_, List.mem_append_right _ List.mem_cons_self, rfl⟩, fun _ => hw⟩
    · have hne : (⟨x, y, some k⟩ : Glyph).link ≠ some i := fun heq => hik (Option.some.inj heq).symm
      dsimp only
      rw [Function.update_of_ne hik, h.width i hi]
      exact ⟨fun ⟨g, hg, hlink⟩ => ⟨g, List.mem_append_left _ hg, hlink⟩,
        fun ⟨g, hg, hlink⟩ => ⟨g, (mem_append_other hne hlink).1 hg, hlink⟩⟩
  · by_cases hik : i = k
    · subst hik
      dsimp only
      rw [Function.update_self, linkXs_self, linkYs_self]
      exact ⟨hx, hy⟩
    · have hne : (⟨x, y, some k⟩ : Glyph).link ≠ some i := fun heq => hik (Option.some.inj heq).symm
      dsimp only at hwi ⊢
      rw [Function.update_of_ne hik] at hwi ⊢
      rw [linkXs_other hne, linkYs_other hne]
      exact h.spans i hi hwi

theorem storeLink_eq {i : Nat} {l : Link} :
    Gives (storeLink b i l) fun b' => b' = { b with links := Function.update b.links i l } :=
  Gives.ite (fun _ => Gives.pure rfl) fun _ _ h => (by cases h)

/-- The box grows to the least one around the new cell too. -/
theorem browserTrackLink_boxes (h : Boxes gs b) (hk : k < b.linkCount) (x y : Nat) :
    Gives (browserTrackLink b k x y) fun b' =>
      Boxes (gs ++ [⟨x, y, some k⟩]) b' ∧ b'.linkCount = b.linkCount := by
  unfold browserTrackLink
  rw [if_neg (Nat.not_le.2 hk)]
  dsimp only
  refine Gives.ite (fun hw => storeLink_eq.mono fun b' hb' => ?_) fun hw =>
    storeLink_eq.mono fun b' hb' => ?_
  · have hnone : ¬∃ g ∈ gs, g.link = some k := fun hsome => (h.width k hk).2 hsome hw
    have hxs : linkXs gs k = ∅ := Set.eq_empty_of_forall_notMem fun a ⟨g, hg, hlink, _⟩ =>
      hnone ⟨g, hg, hlink⟩
    have hys : linkYs gs k = ∅ := Set.eq_empty_of_forall_notMem fun a ⟨g, hg, hlink, _⟩ =>
      hnone ⟨g, hg, hlink⟩
    subst hb'
    refine ⟨h.store hk (Nat.succ_ne_zero 7) ?_ ?_, rfl⟩
    · rw [hxs, insert_empty_eq]
      exact Spans.single 8 x
    · rw [hys, insert_empty_eq]
      exact Spans.single 9 y
  · obtain ⟨hx, hy⟩ := h.spans k hk hw
    subst hb'
    refine ⟨h.store hk ?_ (hx.insert x) (hy.insert y), rfl⟩
    dsimp only
    omega

end Boxes

/-! ## What a pass draws -/

/-- From one state to another the glyphs are drawn, all in the link of the first. -/
structure Draws (s s' : PageState) (new : List Glyph) : Prop where
  calls : ∃ more, s'.calls = s.calls ++ more ∧ more.filterMap (Draw.toGlyph s.link) = new
  link : s'.link = s.link
  boxes : ∀ gs, Boxes gs s.browser → Boxes (gs ++ new) s'.browser
  y : s.y ≤ s'.y ∧ ∀ g ∈ new, s.y ≤ g.y

namespace Draws

variable {s s' s'' : PageState} {new new' : List Glyph}

theorem none (hcalls : s'.calls = s.calls) (hlink : s'.link = s.link)
    (hboxes : ∀ gs, Boxes gs s.browser → Boxes gs s'.browser) (hy : s.y ≤ s'.y) :
    Draws s s' [] where
  calls := ⟨[], by rw [hcalls, List.append_nil], rfl⟩
  link := hlink
  boxes gs hgs := by rw [List.append_nil]; exact hboxes gs hgs
  y := ⟨hy, fun g hg => absurd hg List.not_mem_nil⟩

theorem trans (h : Draws s s' new) (h' : Draws s' s'' new') : Draws s s'' (new ++ new') where
  calls := by
    obtain ⟨more, hcalls, hnew⟩ := h.calls
    obtain ⟨more', hcalls', hnew'⟩ := h'.calls
    refine ⟨more ++ more', by rw [hcalls', hcalls, List.append_assoc], ?_⟩
    rw [h.link] at hnew'
    rw [List.filterMap_append, hnew, hnew']
  link := h'.link.trans h.link
  boxes gs hgs := by
    rw [← List.append_assoc]
    exact h'.boxes _ (h.boxes gs hgs)
  y := by
    refine ⟨h.y.1.trans h'.y.1, fun g hg => ?_⟩
    rcases List.mem_append.1 hg with hg | hg
    · exact h.y.2 g hg
    · exact h.y.1.trans (h'.y.2 g hg)

end Draws

/-- No glyph is drawn, and the boxes are what they were. -/
structure Quiet (s s' : PageState) : Prop where
  calls : s'.calls = s.calls
  boxes : ∀ gs, Boxes gs s.browser → Boxes gs s'.browser
  y : s.y ≤ s'.y

theorem Quiet.trans {s s' s'' : PageState} (h : Quiet s s') (h' : Quiet s' s'') : Quiet s s'' where
  calls := h'.calls.trans h.calls
  boxes gs hgs := h'.boxes gs (h.boxes gs hgs)
  y := h.y.trans h'.y

/-- What a pass does to the boxes. -/
structure PassDraws (s : PageState) (r : Pass PageState PageState) : Prop where
  boxes : ∀ gs, Boxes gs s.browser →
    Boxes (gs ++ newGlyphs s r) (Sum.elim id id r : PageState).browser
  y : s.y ≤ (Sum.elim id id r : PageState).y ∧ ∀ g ∈ newGlyphs s r, s.y ≤ g.y

theorem Draws.pass {s : PageState} {r : Pass PageState PageState} {new : List Glyph}
    (h : Draws s (Sum.elim id id r) new) : PassDraws s r := by
  obtain ⟨more, hcalls, hnew⟩ := h.calls
  have hglyphs : newGlyphs s r = new := by
    unfold newGlyphs
    rw [hcalls, List.drop_left, hnew]
  exact ⟨by rw [hglyphs]; exact h.boxes, by rw [hglyphs]; exact h.y⟩

theorem Quiet.pass {s : PageState} {r : Pass PageState PageState} (h : Quiet s (Sum.elim id id r)) :
    PassDraws s r := by
  have hglyphs : newGlyphs s r = [] := by
    unfold newGlyphs
    rw [h.calls, List.drop_length]
    rfl
  refine ⟨fun gs hgs => ?_, h.y, fun g hg => ?_⟩
  · rw [hglyphs, List.append_nil]
    exact h.boxes gs hgs
  · rw [hglyphs] at hg
    exact absurd hg List.not_mem_nil

section Passes

variable {s : PageState}

theorem browserTrackLink_count (b : Browser) (k x y : Nat) :
    Gives (browserTrackLink b k x y) fun b' => b'.linkCount = b.linkCount := by
  unfold browserTrackLink
  refine Gives.ite (fun _ => Gives.pure rfl) fun _ => ?_
  dsimp only
  refine Gives.ite (fun _ => storeLink_eq.mono fun b' hb' => ?_) fun _ =>
    storeLink_eq.mono fun b' hb' => ?_
  · rw [hb']
  · rw [hb']

theorem track_boxes (s : PageState) : Gives s.track fun b => b.linkCount = s.browser.linkCount ∧
    ∀ gs, Boxes gs s.browser → Boxes (gs ++ [⟨s.x, s.y, s.link⟩]) b := by
  unfold PageState.track PageState.link
  by_cases hin : s.inLink = true
  · rw [if_pos hin]
    intro b hb
    refine ⟨browserTrackLink_count _ _ _ _ b hb, fun gs hgs => ?_⟩
    by_cases hk : s.currentLink < s.browser.linkCount
    · rw [if_pos ⟨hin, hk⟩]
      exact (browserTrackLink_boxes hgs hk s.x s.y b hb).1
    · rw [if_neg fun h => hk h.2]
      unfold browserTrackLink at hb
      rw [if_pos (Nat.not_lt.1 hk)] at hb
      obtain rfl := Option.some.inj hb
      exact hgs.plain s.x s.y
  · rw [if_neg hin, if_neg fun h => hin h.1]
    exact Gives.pure ⟨rfl, fun gs hgs => hgs.plain s.x s.y⟩

theorem cell_draws (s : PageState) (c : UInt8) (color : UInt32) :
    Gives (s.cell c color) fun s' => Draws s s' [⟨s.x, s.y, s.link⟩] ∧ s'.y = s.y := by
  unfold PageState.cell
  refine Gives.bind (track_boxes s) fun b hb =>
    Gives.pure ⟨⟨⟨_, rfl, ?_⟩, ?_, hb.2, le_rfl, fun g hg => ?_⟩, rfl⟩
  · by_cases hin : s.inLink = true
    · rw [if_pos hin]
      rfl
    · rw [if_neg hin]
      rfl
  · unfold PageState.link
    dsimp only
    rw [hb.1]
  · obtain rfl := List.mem_singleton.1 hg
    exact le_rfl

theorem blank_draws (s : PageState) (color : UInt32) :
    Gives (s.blank color) fun s' => ∃ new, Draws s s' new := by
  unfold PageState.blank
  refine Gives.ite (fun _ => ?_) fun _ => Gives.pure ⟨[], .none rfl rfl (fun _ h => h) le_rfl⟩
  refine Gives.bind (cell_draws s 32 color) fun s' hs' => Gives.pure ?_
  have hspace : Draws s' { s' with pendingSpace := false } [] :=
    .none rfl rfl (fun _ h => h) le_rfl
  exact ⟨_, hs'.1.trans hspace⟩

theorem entity_draws (s : PageState) (info : NetInfo) : Gives (s.entity info) (PassDraws s) := by
  unfold PageState.entity
  refine Gives.bind (blank_draws s _) fun s₁ hs₁ => Gives.bind Gives.any fun r _ => ?_
  obtain ⟨new, hnew⟩ := hs₁
  obtain ⟨c, index⟩ := r
  refine Gives.bind (cell_draws s₁ c _) fun s₂ hs₂ => Gives.pure ?_
  exact Draws.pass (hnew.trans (hs₂.1.trans (.none rfl rfl (fun _ h => h) le_rfl)))

theorem wrap_draws (s : PageState) : Draws s s.wrap [] := by
  unfold PageState.wrap
  split
  · exact .none rfl rfl (fun _ h => h) (Nat.le_add_right _ _)
  · exact .none rfl rfl (fun _ h => h) le_rfl

theorem letter_draws (s : PageState) (c : UInt8) : Gives (s.letter c) (PassDraws s) := by
  unfold PageState.letter
  refine Gives.bind (blank_draws s _) fun s₁ hs₁ => ?_
  obtain ⟨new, hnew⟩ := hs₁
  have hwrap := hnew.trans (wrap_draws s₁)
  refine Gives.ite (fun _ => Gives.pure (Draws.pass hwrap)) fun _ => ?_
  refine Gives.bind (cell_draws _ _ _) fun s₂ hs₂ => Gives.pure ?_
  exact Draws.pass (hwrap.trans (hs₂.1.trans (.none rfl rfl (fun _ h => h) le_rfl)))

/-- A new link has no cells. -/
theorem Boxes.new {gs : List Glyph} {b : Browser} (h : Boxes gs b) (url : List UInt8) :
    Boxes gs { b with
      links := Function.update b.links b.linkCount ⟨url, 0, 0, 0, 0⟩, linkCount :=
        b.linkCount + 1 } := by
  refine ⟨fun g hg k hk => Nat.lt_succ_of_lt (h.link g hg k hk), fun i hi => ?_, fun i hi hw => ?_⟩
  · by_cases hlast : i = b.linkCount
    · subst hlast
      dsimp only
      rw [Function.update_self]
      refine ⟨fun hne => absurd rfl hne, fun hsome => ?_⟩
      obtain ⟨g, hg, hlink⟩ := hsome
      exact absurd (h.link g hg _ hlink) (Nat.lt_irrefl _)
    · dsimp only
      rw [Function.update_of_ne hlast]
      exact h.width i (Nat.lt_of_le_of_ne (Nat.le_of_lt_succ hi) hlast)
  · by_cases hlast : i = b.linkCount
    · subst hlast
      dsimp only at hw
      rw [Function.update_self] at hw
      exact absurd rfl hw
    · dsimp only at hw ⊢
      rw [Function.update_of_ne hlast] at hw ⊢
      exact h.spans i (Nat.lt_of_le_of_ne (Nat.le_of_lt_succ hi) hlast) hw

theorem openLink_quiet (s : PageState) (info : NetInfo) (tag : Tag) :
    Gives (s.openLink info tag) (Quiet s) := by
  have hsame : Quiet s s := ⟨rfl, fun _ h => h, le_rfl⟩
  unfold PageState.openLink
  refine Gives.ite (fun _ => ?_) fun _ => Gives.pure hsame
  refine Gives.bind Gives.any fun href _ => Gives.ite (fun _ => Gives.pure hsame) fun _ => ?_
  refine Gives.ite (fun _ => ?_) fun _ => Gives.pure ⟨rfl, fun _ h => h, le_rfl⟩
  refine Gives.bind Gives.any fun url _ => Gives.bind storeLink_eq fun b hb => Gives.pure ?_
  subst hb
  exact ⟨rfl, fun gs hgs => hgs.new url, le_rfl⟩

theorem openStyle_quiet (s : PageState) (info : NetInfo) (tag : Tag) :
    Gives (s.openStyle info tag) (Quiet s) := by
  have hsame : Quiet s s := ⟨rfl, fun _ h => h, le_rfl⟩
  unfold PageState.openStyle
  refine Gives.ite (fun _ => ?_) fun _ => Gives.pure hsame
  refine Gives.bind Gives.any fun color _ => Gives.ite (fun _ => ?_) fun _ => ?_
  · exact Gives.bind Gives.any fun stack _ => Gives.pure ⟨rfl, fun _ h => h, le_rfl⟩
  · exact Gives.pure ⟨rfl, fun _ h => h, le_rfl⟩

theorem closeStyle_quiet (s : PageState) (tag : Tag) : Gives (s.closeStyle tag) (Quiet s) := by
  unfold PageState.closeStyle
  refine Gives.ite (fun _ => ?_) fun _ => Gives.pure ⟨rfl, fun _ h => h, le_rfl⟩
  exact Gives.bind Gives.any fun color _ => Gives.pure ⟨rfl, fun _ h => h, le_rfl⟩

theorem newline_quiet (s : PageState) (extra : Bool) : Quiet s (s.newline extra) := by
  unfold PageState.newline
  split
  · exact ⟨rfl, fun _ h => h, Nat.le_add_right _ _⟩
  · exact ⟨rfl, fun _ h => h, le_rfl⟩

theorem layout_quiet (s : PageState) (tag : Tag) : Quiet s (s.layout tag) := by
  unfold PageState.layout
  split
  · split
    · have hleave : Quiet s { s with inHeading := false } := ⟨rfl, fun _ h => h, le_rfl⟩
      exact hleave.trans (newline_quiet _ true)
    · have henter : Quiet (s.newline false) { s.newline false with inHeading := true } :=
        ⟨rfl, fun _ h => h, le_rfl⟩
      exact (newline_quiet s false).trans henter
  split
  · exact ⟨rfl, fun _ h => h, le_rfl⟩
  split
  · exact newline_quiet s _
  · exact ⟨rfl, fun _ h => h, le_rfl⟩

theorem tag_quiet (s : PageState) (info : NetInfo) : Gives (s.tag info) (PassDraws s) := by
  unfold PageState.tag
  refine Gives.bind Gives.any fun closing _ => Gives.bind Gives.any fun r _ => ?_
  cases r with
  | some index => exact Gives.pure (Quiet.pass ⟨rfl, fun _ h => h, le_rfl⟩)
  | none =>
    refine Gives.bind Gives.any fun tag _ => Gives.bind (openLink_quiet s info tag) fun s₁ h₁ => ?_
    refine Gives.bind (openStyle_quiet s₁ info tag) fun s₂ h₂ => ?_
    have hindex : ∀ index, Quiet s₂ { s₂ with index := index } :=
      fun index => ⟨rfl, fun _ h => h, le_rfl⟩
    refine Gives.bind (closeStyle_quiet _ tag) fun s₃ h₃ => Gives.pure (Quiet.pass ?_)
    exact h₁.trans (h₂.trans ((hindex _).trans ((layout_quiet _ tag).trans h₃)))

theorem pass_draws (info : NetInfo) (s : PageState) : Gives (s.pass info) (PassDraws s) := by
  have hsame : ∀ s' : PageState, s'.calls = s.calls → s'.browser = s.browser → s'.y = s.y →
    s'.link = s.link →
      ∀ r, PassDraws s' r → PassDraws s r := by
    intro s' hcalls hbrowser hy hlink r h
    have hglyphs : newGlyphs s r = newGlyphs s' r := by
      unfold newGlyphs
      rw [hcalls, hlink]
    exact ⟨by rw [← hbrowser, hglyphs]; exact h.boxes, by rw [hglyphs, ← hy]; exact h.y⟩
  unfold PageState.pass
  refine Gives.ite (fun _ => ?_) fun _ => Gives.pure (Quiet.pass ⟨rfl, fun _ h => h, le_rfl⟩)
  refine Gives.bind Gives.any fun c _ => ?_
  refine Gives.mono ?_ (hsame { s with index := u16 (s.index + 1) } rfl rfl rfl rfl)
  refine Gives.ite (fun _ => tag_quiet _ info) fun _ =>
    Gives.ite (fun _ => entity_draws _ info) fun _ => ?_
  exact Gives.ite (fun _ => Gives.pure (Quiet.pass ⟨rfl, fun _ h => h, le_rfl⟩)) fun _ =>
    letter_draws _ c

end Passes

/-- What holds of the page in every pass. -/
structure Laid (gs : List Glyph) (s : PageState) : Prop where
  boxes : Boxes gs s.browser
  y : 34 ≤ s.y
  below : ∀ g ∈ gs, 34 ≤ g.y

theorem PassDraws.laid {s : PageState} {r : Pass PageState PageState} {gs : List Glyph}
    (h : PassDraws s r)
    (hs : Laid gs s) : Laid (gs ++ newGlyphs s r) (Sum.elim id id r : PageState) where
  boxes := h.boxes gs hs.boxes
  y := hs.y.trans h.y.1
  below g hg := by
    rcases List.mem_append.1 hg with hg | hg
    · exact hs.below g hg
    · exact hs.y.trans (h.y.2 g hg)

theorem start_laid (info : NetInfo) (b : Browser) : Gives (PageState.start info b) (Laid []) := by
  unfold PageState.start
  refine Gives.bind Gives.any fun index _ => Gives.bind Gives.any fun text _ => Gives.pure ?_
  refine ⟨⟨fun g hg => absurd hg List.not_mem_nil, fun i hi => absurd hi (Nat.not_lt_zero i),
    fun i hi => absurd hi (Nat.not_lt_zero i)⟩, le_rfl, fun g hg => absurd hg List.not_mem_nil⟩

theorem pageGlyphs_laid (info : NetInfo) (b : Browser) :
    Gives (pageGlyphs info b) fun r => Laid r.2 r.1 := by
  refine Gives.bind (start_laid info b) fun s hs => ?_
  refine loopOut_keeps (I := Laid) (Q := Laid) (fun gs s hs => ?_) hs
  refine (pass_draws info s).mono fun r hr => ?_
  rcases r with s' | s'
  · exact hr.laid hs
  · exact hr.laid hs

/-- The glyphs are those of `render_page_text`. -/
theorem pageGlyphs_fst (info : NetInfo) (b : Browser) :
    (pageGlyphs info b).map (·.1) = renderPageText info b := by
  unfold pageGlyphs renderPageText
  rcases PageState.start info b with _ | s
  · rfl
  · exact loopOut_fst (PageState.pass info) newGlyphs loopSteps s

/-! ## The clicks -/

/-- A point of the cell. -/
def Glyph.Covers (g : Glyph) (x y : Int) : Prop := (g.x ≤ x ∧ x < g.x + 8) ∧ g.y ≤ y ∧ y < g.y + 8

/-- What a click on a glyph has to do. -/
def Glyph.click (b : Browser) (g : Glyph) : Click :=
  match g.link with
  | some k => .openLink k (b.links k).url
  | none => .nothing

/-- A click anywhere on a glyph opens the link that it is in. -/
def Glyph.Right (b : Browser) (g : Glyph) : Prop :=
  ∀ x y, g.Covers x y → browserHandleClick (some b) x y = g.click b

/-- The cells of a link are on neither side of the glyph alone. -/
structure Meets (gs : List Glyph) (i : Nat) (g : Glyph) : Prop where
  x : (∃ x ∈ linkXs gs i, x < g.x + 8) ∧ ∃ x ∈ linkXs gs i, g.x < x + 8
  y : (∃ y ∈ linkYs gs i, y < g.y + 8) ∧ ∃ y ∈ linkYs gs i, g.y < y + 9

/-- Of the links with an address, none comes before that of the glyph and has its cells around it.
-/
structure Glyph.Clear (b : Browser) (gs : List Glyph) (g : Glyph) : Prop where
  own : ∀ k, g.link = some k → (b.links k).url.headD 0 ≠ 0
  others : ∀ i < b.linkCount, (b.links i).url.headD 0 ≠ 0 →
    (∀ k, g.link = some k → i < k) → ¬Meets gs i g

section Clicks

variable {gs : List Glyph} {b : Browser} {g : Glyph} {i k : Nat}

theorem linkAt_iff {x y : Nat} :
    linkAt b x y i = true ↔ (b.links i).url.headD 0 ≠ 0 ∧ (b.links i).w ≠ 0 ∧
    ((b.links i).x ≤ x ∧ x < (b.links i).x + (b.links i).w) ∧
      (b.links i).y ≤ y ∧ y < (b.links i).y + (b.links i).h := by
  unfold linkAt
  by_cases hurl : (b.links i).url.headD 0 = 0
  · simp only [hurl, beq_self_eq_true, Bool.or_true, Bool.not_true, Bool.false_and,
      Bool.false_eq_true, ne_eq, not_true_eq_false, false_and]
  · simp only [hurl, Bool.and_eq_true, Bool.not_eq_true', Bool.or_eq_false_iff, beq_eq_false_iff_ne,
      decide_eq_false_iff_not, ne_eq, not_false_eq_true, and_true, true_and]
    omega

/-- Where the box of a link is on the cell of a glyph. -/
theorem linkAt_meets (h : Boxes gs b) (hi : i < b.linkCount) (g : Glyph) :
    (∃ x y, g.Covers x y ∧ linkAt b x y i = true) ↔ (b.links i).url.headD 0 ≠ 0 ∧ Meets gs i g := by
  constructor
  · intro hat
    obtain ⟨x, y, hcovers, hat⟩ := hat
    obtain ⟨⟨hx, hx'⟩, hy, hy'⟩ := hcovers
    obtain ⟨x, rfl⟩ := Int.eq_ofNat_of_zero_le (by omega : 0 ≤ x)
    obtain ⟨y, rfl⟩ := Int.eq_ofNat_of_zero_le (by omega : 0 ≤ y)
    obtain ⟨hurl, hw, hxs, hys⟩ := linkAt_iff.1 hat
    obtain ⟨hspanx, hspany⟩ := h.spans i hi hw
    refine ⟨hurl, ?_, ?_⟩
    · exact (hspanx.meets_iff (by omega) (by omega)).1 ⟨x, hxs, by omega, by omega⟩
    · exact (hspany.meets_iff (by omega) (by omega)).1 ⟨y, hys, by omega, by omega⟩
  · intro hmeets
    obtain ⟨hurl, hx, hy⟩ := hmeets
    have hw : (b.links i).w ≠ 0 := by
      obtain ⟨⟨x, ⟨g', hg, hlink, -⟩, -⟩, -⟩ := hx
      exact (h.width i hi).2 ⟨g', hg, hlink⟩
    obtain ⟨hspanx, hspany⟩ := h.spans i hi hw
    obtain ⟨x, hxs, hx⟩ := (hspanx.meets_iff (by omega) (by omega)).2 hx
    obtain ⟨y, hys, hy⟩ := (hspany.meets_iff (by omega) (by omega)).2 hy
    exact ⟨x, y, ⟨by omega, by omega⟩, linkAt_iff.2 ⟨hurl, hw, hxs, hys⟩⟩

/-- The box of the link of a glyph is on all of its cell. -/
theorem linkAt_own (h : Boxes gs b) (hg : g ∈ gs) (hk : g.link = some k) {x y : Int}
    (hcovers : g.Covers x y) :
    linkAt b x y k = true ↔ (b.links k).url.headD 0 ≠ 0 := by
  obtain ⟨⟨hx, hx'⟩, hy, hy'⟩ := hcovers
  obtain ⟨x, rfl⟩ := Int.eq_ofNat_of_zero_le (by omega : 0 ≤ x)
  obtain ⟨y, rfl⟩ := Int.eq_ofNat_of_zero_le (by omega : 0 ≤ y)
  have hi := h.link g hg k hk
  have hw := (h.width k hi).2 ⟨g, hg, hk⟩
  obtain ⟨hspanx, hspany⟩ := h.spans k hi hw
  have hinx := hspanx.inside g.x ⟨g, hg, hk, rfl⟩
  have hiny := hspany.inside g.y ⟨g, hg, hk, rfl⟩
  rw [linkAt_iff]
  exact ⟨And.left, fun hurl => ⟨hurl, hw, by omega, by omega⟩⟩

/-- Below the address the first link is opened whose box contains the point. -/
theorem browserHandleClick_eq (b : Browser) {x y : Int} (hy : 34 ≤ y) :
    browserHandleClick (some b) x y = match (List.range b.linkCount).find? (linkAt b x y) with
      | some i => .openLink i (b.links i).url
      | none => .nothing := by
  have hbar : (decide (y < 26)) = false := decide_eq_false (by omega)
  unfold browserHandleClick
  simp [hbar]

theorem handleClick_open (b : Browser) {x y : Int} (hy : 34 ≤ y) (k : Nat) :
    browserHandleClick (some b) x y = .openLink k (b.links k).url ↔
      linkAt b x y k = true ∧ k < b.linkCount ∧ ∀ i < k, ¬linkAt b x y i = true := by
  rw [browserHandleClick_eq b hy]
  have hfind : (List.range b.linkCount).find? (linkAt b x y) = some k ↔
      linkAt b x y k = true ∧ k < b.linkCount ∧ ∀ i < k, ¬linkAt b x y i = true := by
    simp
  rw [← hfind]
  rcases (List.range b.linkCount).find? (linkAt b x y) with _ | i
  · simp
  · simp only [Click.openLink.injEq, Option.some.injEq]
    exact ⟨And.left, fun hik => ⟨hik, by rw [hik]⟩⟩

theorem handleClick_nothing (b : Browser) {x y : Int} (hy : 34 ≤ y) :
    browserHandleClick (some b) x y = .nothing ↔ ∀ i < b.linkCount, ¬linkAt b x y i = true := by
  rw [browserHandleClick_eq b hy]
  have hfind : (List.range b.linkCount).find? (linkAt b x y) = none ↔
      ∀ i < b.linkCount, ¬linkAt b x y i = true := by
    simp
  rw [← hfind]
  rcases (List.range b.linkCount).find? (linkAt b x y) with _ | i
  · simp
  · simp

theorem right_iff (h : Boxes gs b) (hg : g ∈ gs) (hbelow : 34 ≤ g.y) :
    g.Right b ↔ g.Clear b gs := by
  have hy : ∀ {x y : Int}, g.Covers x y → 34 ≤ y := fun hcovers => by
    have := hcovers.2.1
    omega
  rcases hlink : g.link with _ | k
  · have hclick : g.click b = .nothing := by rw [Glyph.click, hlink]
    constructor
    · intro hright
      refine ⟨fun k hk => absurd (hlink.symm.trans hk) (Option.some_ne_none k).symm,
        fun i hi hurl _ hmeets => ?_⟩
      obtain ⟨x, y, hcovers, hat⟩ := (linkAt_meets h hi g).2 ⟨hurl, hmeets⟩
      exact (handleClick_nothing b (hy hcovers)).1 ((hright x y hcovers).trans hclick) i hi hat
    · intro hclear x y hcovers
      rw [hclick]
      refine (handleClick_nothing b (hy hcovers)).2 fun i hi hat => ?_
      obtain ⟨hurl, hmeets⟩ := (linkAt_meets h hi g).1 ⟨x, y, hcovers, hat⟩
      exact hclear.others i hi hurl (fun k hk =>
        absurd (hlink.symm.trans hk) (Option.some_ne_none k).symm) hmeets
  · have hclick : g.click b = .openLink k (b.links k).url := by rw [Glyph.click, hlink]
    have hk := h.link g hg k hlink
    constructor
    · intro hright
      refine ⟨fun j hj => ?_, fun i hi hurl hbefore hmeets => ?_⟩
      · obtain rfl := Option.some.inj (hlink.symm.trans hj)
        have hcorner : g.Covers g.x g.y := ⟨by omega, by omega⟩
        have hopen := (handleClick_open b (hy hcorner) k).1 ((hright _ _ hcorner).trans hclick)
        exact (linkAt_own h hg hlink hcorner).1 hopen.1
      · obtain ⟨x, y, hcovers, hat⟩ := (linkAt_meets h hi g).2 ⟨hurl, hmeets⟩
        have hopen := (handleClick_open b (hy hcovers) k).1 ((hright x y hcovers).trans hclick)
        exact hopen.2.2 i (hbefore k hlink) hat
    · intro hclear x y hcovers
      rw [hclick]
      refine (handleClick_open b (hy hcovers) k).2
        ⟨(linkAt_own h hg hlink hcovers).2 (hclear.own k hlink), hk, fun i hi hat => ?_⟩
      obtain ⟨hurl, hmeets⟩ := (linkAt_meets h (hi.trans hk) g).1 ⟨x, y, hcovers, hat⟩
      exact hclear.others i (hi.trans hk) hurl
        (fun j hj => Option.some.inj (hlink.symm.trans hj) ▸ hi) hmeets

/-- When the clicks on a page do what they have to. -/
theorem clicks_iff {info : NetInfo} (hinfo : info.len ≤ 8192)
    (hbody : info.httpBodyOffset ≤ info.len) (b : Browser) :
    ∃ e gs, renderPageText info b = some e ∧ pageGlyphs info b = some (e, gs) ∧
      ((∀ g ∈ gs, g.Right e.browser) ↔ ∀ g ∈ gs, g.Clear e.browser gs) := by
  obtain ⟨e, he, -⟩ := renderPageText_yields hinfo hbody b
  obtain ⟨⟨e', gs⟩, hgs, heq⟩ := Option.map_eq_some_iff.1 ((pageGlyphs_fst info b).trans he)
  obtain rfl : e' = e := heq
  have hlaid := pageGlyphs_laid info b (e', gs) hgs
  exact ⟨e', gs, he, hgs, forall₂_congr fun g hg => right_iff hlaid.boxes hg (hlaid.below g hg)⟩

/-- A page with one link in one line. -/
theorem clicks_iff_line : ∃ e gs,
    renderPageText ⟨chars "\r\na <a href=/b>c</a>", 2⟩
      ⟨chars "a/", fun _ => ⟨[], 0, 0, 0, 0⟩, 0⟩ = some e ∧
    pageGlyphs ⟨chars "\r\na <a href=/b>c</a>", 2⟩ ⟨chars "a/", fun _ => ⟨[], 0, 0, 0, 0⟩, 0⟩ =
      some (e, gs) ∧
      ((∀ g ∈ gs, g.Right e.browser) ↔ ∀ g ∈ gs, g.Clear e.browser gs) :=
  clicks_iff (by decide) (by decide) _

/-- A link goes on in the next line, and the text before it is in its box. -/
theorem click_beside_link : ∃ e gs,
    pageGlyphs ⟨chars "\r\na<a href=/b>c<br>c</a>", 2⟩ ⟨chars "a/", fun _ => ⟨[], 0, 0, 0, 0⟩, 0⟩ =
      some (e, gs) ∧
      ∃ g ∈ gs, g.link = none ∧ g.Covers 10 34 ∧
        browserHandleClick (some e.browser) 10 34 = .openLink 0 (chars "a/b") := by
  have hpage :
      ((pageGlyphs ⟨chars "\r\na<a href=/b>c<br>c</a>", 2⟩
          ⟨chars "a/", fun _ => ⟨[], 0, 0, 0, 0⟩, 0⟩).map fun r =>
        (r.2, browserHandleClick (some r.1.browser) 10 34)) =
        some ([⟨10, 34, none⟩, ⟨18, 34, some 0⟩, ⟨10, 44, some 0⟩],
          .openLink 0 (chars "a/b")) := by decide
  obtain ⟨⟨e, gs⟩, hgs, heq⟩ := Option.map_eq_some_iff.1 hpage
  obtain ⟨rfl, hclick⟩ := Prod.mk.inj heq
  exact ⟨e, _, hgs, ⟨10, 34, none⟩, List.mem_cons_self, rfl, ⟨by decide, by decide⟩, hclick⟩

end Clicks

end MinervaOS.Browser.Page
