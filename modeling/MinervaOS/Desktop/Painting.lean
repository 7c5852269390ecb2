import MinervaOS.Desktop.Places
import MinervaOS.Graphics.Lines
import MinervaOS.Lib.Layers
import MinervaOS.Net.Target

/-!
# What is painted

`desktop_redraw` with all that it draws above the taskbar and on it, and for which window. The
frames are drawn from the back to the front; what the applications show comes behind all of them, in
the order of `render_all`, and the border of a window has a column and a row beside its rectangle.
So the window on top is what is seen at a point only where no application that is drawn later shows
something there, and no window in front has its border there.
-/

namespace MinervaOS.Desktop

open Prog
open Net (chars)
open Graphics (graphicsDrawRect graphicsDrawLine PutPixel)

/-- A call of a drawing function. -/
inductive Shape where
  /-- `graphics_put_pixel` -/
  | pixel (x y : UInt32)
  /-- `graphics_draw_char` -/
  | char (x y : UInt32)
  /-- `graphics_fill_rect` -/
  | fill (x y width height : UInt32)
  deriving DecidableEq

namespace Shape

/-- The call puts a pixel at a point of the screen. -/
def covers : Shape → UInt32 × UInt32 → Bool
  | pixel x y, p => p.1 == x && p.2 == y
  | char x y, p => p.1 - x < 8 && p.2 - y < 8
  | fill x y width height, p => x ≤ p.1 && p.1 < x + width && (y ≤ p.2 && p.2 < y + height)

/-- `window_draw_char` and `window_fill_rect` draw at the place of the window. -/
def inWindow (w : Window) : Shape → Shape
  | pixel x y => pixel (w.x + 1 + x) (w.y + 16 + 1 + y)
  | char x y => char (w.x + 1 + x) (w.y + 16 + 1 + y)
  | fill x y width height => fill (w.x + 1 + x) (w.y + 16 + 1 + y) width height

end Shape

/-! ## Drawing functions -/

/-- More passes than a line is long. -/
def lineSteps : Nat := 4294967296

def pixels (points : List PutPixel) : List Shape := points.map fun p => .pixel p.x p.y

def drawRect (x y width height : UInt32) : Option (List Shape) := do
  let points ← graphicsDrawRect lineSteps x y width height 0
  return pixels points

/-- `graphics_draw_string` and `window_draw_string`. -/
def drawString (x y : UInt32) (string : List UInt8) : List Shape :=
  (List.range string.length).map fun i => .char (x + UInt32.ofNat (8 * i)) y

/-! ## The desktop -/

/-- The labels of the icons that `kernel_main` adds. -/
def iconLabels : List (List UInt8) :=
  [chars "Term", chars "Info", chars "Edit", chars "View", chars "Aud", chars "Web"]

def drawIcon (x y : Int32) (label : List UInt8) : Option (List Shape) := do
  let border ← drawRect x.toUInt32 y.toUInt32 16 16
  let lx := x + iconW / 2 - Int32.ofNat (label.length * 8 / 2)
  let lx := if lx < 0 then 0 else lx
  return .fill x.toUInt32 y.toUInt32 16 16 :: border ++
    drawString lx.toUInt32 (y + iconH + 1).toUInt32 label

/-- The wallpaper and the icons. -/
def drawWallpaper : Option (List Shape) := do
  let drawn ← (icons.zip iconLabels).mapM fun i => drawIcon i.1.1 i.1.2.1 i.2
  return .fill 0 0 320 184 :: drawn.flatten

/-! ## Windows -/

/-- The title that an application gives its window. -/
def Holder.title : Holder → List UInt8
  | terminal => chars "Terminal"
  | about => chars "About"
  | editor => chars "Editor"
  | viewer => chars "Image"
  | player => chars "Audio"
  | browser => chars "Browser"

/-- The title of a window. -/
def Ui.title (s : Ui) (win : Ptr) : List UInt8 :=
  ((holders.find? fun h => s.win h = win).map Holder.title).getD []

/-- What `window_render` draws of a window that is shown. -/
def drawFrame (title : List UInt8) (w : Window) : Option (List Shape) := do
  let border ← drawRect w.x w.y w.width w.height
  return [.fill w.x w.y w.width w.height, .fill (w.x + 1) (w.y + 1) (w.width - 2 * 1) (16 - 1)] ++
    drawString (w.x + 1 + 4) (w.y + 1 + 4) title ++
    [.fill (w.x + w.width - 16) w.y 16 16, .char (w.x + w.width - 12) (w.y + 4),
      .fill (w.x + w.width - 32) w.y 16 16, .char (w.x + w.width - 28) (w.y + 4)] ++ border

/-- The window a pointer points to, if it is shown. -/
def Ui.shown (s : Ui) (win : Ptr) : Option Window := (win.bind s.heap).filter fun w => !w.minimized

def Ui.frame (s : Ui) (win : Ptr) : Option (List Shape) :=
  match s.shown win with
  | none => some []
  | some w => drawFrame (s.title win) w

/-- `window_render`, with what is drawn. -/
def windowRenderWith (win : Ptr) : Prog Ui (List (Ptr × Shape)) := do
  windowRender win
  let frame ← (← get).frame win
  return frame.map (win, ·)

/-! ## Applications -/

/-- What `render_all` writes in the About window. -/
def aboutText : List (UInt32 × UInt32 × List UInt8) :=
  [(4, 4, chars "MinervaOS v0.3"), (4, 16, chars "Phase 3: Desktop"),
    (4, 28, chars "x86 32-bit OS"), (4, 40, chars "320x200 VGA"), (4, 52, chars "IRQ kbd + mouse")]

/-- What an application draws in its window, in the coordinates of the window. All but About clear
the window, and go on with what depends on what they show. -/
def content (draws : Holder → List Shape) (w : Window) : Holder → List Shape
  | .about => aboutText.flatMap fun t => drawString t.1 t.2.1 t.2.2
  | h => .fill 0 0 (w.width - 2 * 1) (w.height - 16 - 1) :: draws h

def Ui.content (s : Ui) (draws : Holder → List Shape) (h : Holder) : List Shape :=
  match s.shown (s.win h) with
  | none => []
  | some w => (Desktop.content draws w h).map (Shape.inWindow w)

/-- `text_editor_render` and its like, with what is drawn. -/
def appRenderWith (draws : Holder → List Shape) (h : Holder) : Prog Ui (List (Ptr × Shape)) := do
  appRender h
  let s ← get
  return (s.content draws h).map (s.win h, ·)

def termWindowRenderWith (draws : Holder → List Shape) : Prog Ui (List (Ptr × Shape)) := do
  if (← get).gTw then appRenderWith draws .terminal else return []

def renderAllWith (draws : Holder → List Shape) : Prog Ui (List (Ptr × Shape)) := do
  let terminal ← termWindowRenderWith draws
  let editor ← appRenderWith draws .editor
  let viewer ← appRenderWith draws .viewer
  let player ← appRenderWith draws .player
  let browser ← appRenderWith draws .browser
  let about ← appRenderWith draws .about
  return terminal ++ editor ++ viewer ++ player ++ browser ++ about

/-! ## The taskbar -/

def drawButton (bx : Int32) (title : List UInt8) : Option (List Shape) := do
  let border ← drawRect bx.toUInt32 (184 + 2) 58 (16 - 4)
  return .fill bx.toUInt32 (184 + 2) 58 (16 - 4) :: border ++
    drawString (bx + 3).toUInt32 (184 + 4) (title.take 6)

def drawTaskbarWith : Nat → Int32 → Ptr → Prog Ui (List Shape)
  | 0, _, _ => failure
  | steps + 1, bx, w => do
    if w.isSome ∧ bx + taskBtnW < 320 then
      windowDraw w
      let button ← drawButton bx ((← get).title w)
      let next ← windowGetNext w
      let rest ← drawTaskbarWith steps (bx + (taskBtnW + taskBtnGap)) next
      return button ++ rest
    else return []

/-- `desktop_redraw`, with what is drawn and for which window, up to the pointer of the mouse. -/
def desktopRedrawWith (draws : Holder → List Shape) : Prog Ui (List (Ptr × Shape)) := do
  let wallpaper ← drawWallpaper
  let frames ← windowManagerRenderAllWith windowRenderWith
  let contents ← renderAllWith draws
  let line ← graphicsDrawLine lineSteps 0 184 319 184 0
  let buttons ← drawTaskbarWith walkSteps taskBtnGap (← windowManagerGetHead)
  let taskbar := .fill 0 184 320 16 :: pixels line ++ buttons
  return wallpaper.map (none, ·) ++ frames.flatten ++ contents ++ taskbar.map (none, ·)

/-! ## Where the windows are -/

/-- A point is in the rectangle of the window. -/
def Window.Inside (w : Window) (p : UInt32 × UInt32) : Prop :=
  (w.x.toNat ≤ p.1.toNat ∧ p.1.toNat < w.x.toNat + w.width.toNat) ∧
    w.y.toNat ≤ p.2.toNat ∧ p.2.toNat < w.y.toNat + w.height.toNat

/-- A point is on the border of the window, in the column right of its rectangle or the row below
it. -/
def Window.Beside (w : Window) (p : UInt32 × UInt32) : Prop :=
  ((w.x.toNat ≤ p.1.toNat ∧ p.1.toNat ≤ w.x.toNat + w.width.toNat) ∧
    w.y.toNat ≤ p.2.toNat ∧ p.2.toNat ≤ w.y.toNat + w.height.toNat) ∧
      (p.1.toNat = w.x.toNat + w.width.toNat ∨ p.2.toNat = w.y.toNat + w.height.toNat)

section Shapes

variable {x y width height : UInt32} {p : UInt32 × UInt32} {w : Window} {title : List UInt8}

theorem fill_covers (hx : x.toNat + width.toNat < 4294967296)
    (hy : y.toNat + height.toNat < 4294967296) :
    (Shape.fill x y width height).covers p = true ↔
      (x.toNat ≤ p.1.toNat ∧ p.1.toNat < x.toNat + width.toNat) ∧
        y.toNat ≤ p.2.toNat ∧ p.2.toNat < y.toNat + height.toNat := by
  have hright : (x + width).toNat = x.toNat + width.toNat := by
    rw [UInt32.toNat_add]
    omega
  have hbottom : (y + height).toNat = y.toNat + height.toNat := by
    rw [UInt32.toNat_add]
    omega
  unfold Shape.covers
  simp only [Bool.and_eq_true, decide_eq_true_eq, UInt32.le_iff_toNat_le, UInt32.lt_iff_toNat_lt,
    hright, hbottom]

theorem char_covers (hx : x.toNat + 8 ≤ 4294967296) (hy : y.toNat + 8 ≤ 4294967296) :
    (Shape.char x y).covers p = true ↔
      (x.toNat ≤ p.1.toNat ∧ p.1.toNat < x.toNat + 8) ∧ y.toNat ≤ p.2.toNat ∧
        p.2.toNat < y.toNat + 8 := by
  have hp := p.1.toNat_lt
  have hq := p.2.toNat_lt
  have hsub : ∀ a b : UInt32, a.toNat + 8 ≤ 4294967296 → b.toNat < 4294967296 →
      ((b - a).toNat < 8 ↔ a.toNat ≤ b.toNat ∧ b.toNat < a.toNat + 8) := fun a b ha hb => by
    rw [UInt32.toNat_sub]
    omega
  unfold Shape.covers
  simp only [Bool.and_eq_true, decide_eq_true_eq, UInt32.lt_iff_toNat_lt]
  rw [← hsub x p.1 hx hp, ← hsub y p.2 hy hq]
  rfl

theorem drawString_covers {string : List UInt8} (hx : x.toNat + 8 * string.length ≤ 4294967296)
    (hy : y.toNat + 8 ≤ 4294967296) (hp : (drawString x y string).any (Shape.covers · p) = true) :
    (x.toNat ≤ p.1.toNat ∧ p.1.toNat < x.toNat + 8 * string.length) ∧
      y.toNat ≤ p.2.toNat ∧ p.2.toNat < y.toNat + 8 := by
  obtain ⟨shape, hshape, hp⟩ := List.any_eq_true.1 hp
  obtain ⟨i, hi, rfl⟩ := List.mem_map.1 hshape
  have hi := List.mem_range.1 hi
  have hxi : (x + UInt32.ofNat (8 * i)).toNat = x.toNat + 8 * i := by
    rw [UInt32.toNat_add, UInt32.toNat_ofNat']
    omega
  have hchar := (char_covers (by omega) hy).1 hp
  omega

theorem pixels_covers {points : List PutPixel} :
    (pixels points).any (Shape.covers · p) = true ↔ Graphics.Puts points p.1 p.2 := by
  unfold pixels Graphics.Puts
  rw [List.any_map, List.any_eq_true]
  refine exists_congr fun q => and_congr_right fun _ => ?_
  unfold Function.comp Shape.covers
  rw [Bool.and_eq_true, beq_iff_eq, beq_iff_eq]
  exact and_congr eq_comm eq_comm

/-- The border of a rectangle that is not far from the screen. -/
theorem drawRect_spec (hx : x.toNat + width.toNat < 1000) (hy : y.toNat + height.toNat < 1000) :
    ∃ border, drawRect x y width height = some border ∧ ∀ p : UInt32 × UInt32,
      border.any (Shape.covers · p) = true ↔
        Graphics.OnBorder x.toNat y.toNat width.toNat height.toNat p.1.toNat p.2.toNat := by
  have hsteps : max width.toNat height.toNat < lineSteps := by
    unfold lineSteps
    omega
  obtain ⟨points, hpoints, hborder⟩ :=
    @Graphics.graphicsDrawRect_border x y width height 0 (by omega) (by omega) lineSteps hsteps
  refine ⟨pixels points, ?_, fun p => pixels_covers.trans (hborder p.1 p.2)⟩
  unfold drawRect
  rw [hpoints]
  rfl

theorem Window.Fits.right (hw : w.Fits) : (w.x + w.width).toNat = w.x.toNat + w.width.toNat := by
  have hx := hw.x
  rw [UInt32.toNat_add]
  omega

/-- Places in the window, counted from the left, from above and from the right. -/
theorem Window.Fits.offsets (hw : w.Fits) {n : UInt32} (hn : n.toNat ≤ 32) :
    (w.x + n).toNat = w.x.toNat + n.toNat ∧ (w.y + n).toNat = w.y.toNat + n.toNat ∧
      (w.x + w.width - n).toNat = w.x.toNat + w.width.toNat - n.toNat := by
  have hx := hw.x
  have hy := hw.y
  have hwidth := hw.size.1
  refine ⟨?_, ?_, ?_⟩
  · rw [UInt32.toNat_add]
    omega
  · rw [UInt32.toNat_add]
    omega
  · rw [UInt32.toNat_sub_of_le _ _ (UInt32.le_iff_toNat_le.2 (by rw [hw.right]; omega)), hw.right]

/-- A rectangle in that of the window. -/
theorem fill_inside (hx : w.x.toNat ≤ x.toNat ∧ x.toNat + width.toNat ≤ w.x.toNat + w.width.toNat)
    (hy : w.y.toNat ≤ y.toNat ∧ y.toNat + height.toNat ≤ w.y.toNat + w.height.toNat) (hw : w.Fits)
    (hp : (Shape.fill x y width height).covers p = true) : w.Inside p := by
  have hwx := hw.x
  have hwy := hw.y
  have hcovers := (fill_covers (by omega) (by omega)).1 hp
  unfold Window.Inside
  omega

theorem char_inside (hx : w.x.toNat ≤ x.toNat ∧ x.toNat + 8 ≤ w.x.toNat + w.width.toNat)
    (hy : w.y.toNat ≤ y.toNat ∧ y.toNat + 8 ≤ w.y.toNat + w.height.toNat) (hw : w.Fits)
    (hp : (Shape.char x y).covers p = true) : w.Inside p := by
  have hwx := hw.x
  have hwy := hw.y
  have hcovers := (char_covers (by omega) (by omega)).1 hp
  unfold Window.Inside
  omega

/-- What is drawn of the title and the buttons. -/
theorem bar_inside (hw : w.Fits) (htitle : title.length ≤ 8)
    (hp : (drawString (w.x + 1 + 4) (w.y + 1 + 4) title ++
    [Shape.fill (w.x + w.width - 16) w.y 16 16, Shape.char (w.x + w.width - 12) (w.y + 4),
      Shape.fill (w.x + w.width - 32) w.y 16 16, Shape.char (w.x + w.width - 28) (w.y + 4)]).any
        (Shape.covers · p) = true) : w.Inside p := by
  obtain ⟨hwidth, hheight⟩ := hw.size
  have hx := hw.x
  have hy := hw.y
  have hy4 : (w.y + 4).toNat = w.y.toNat + 4 := (hw.offsets (n := 4) (by decide)).2.1
  simp only [List.any_append, List.any_cons, List.any_nil, Bool.or_eq_true, Bool.or_false] at hp
  rcases hp with htext | hclose | hcross | hmin | hdash
  · have hx5 : (w.x + 1 + 4).toNat = w.x.toNat + 5 := by
      rw [UInt32.add_assoc]
      exact (hw.offsets (n := 5) (by decide)).1
    have hy5 : (w.y + 1 + 4).toNat = w.y.toNat + 5 := by
      rw [UInt32.add_assoc]
      exact (hw.offsets (n := 5) (by decide)).2.1
    have hcovers := drawString_covers (by omega) (by omega) htext
    unfold Window.Inside
    omega
  · have hx16 : (w.x + w.width - 16).toNat = w.x.toNat + w.width.toNat - 16 :=
      (hw.offsets (n := 16) (by decide)).2.2
    have h16 : (16 : UInt32).toNat = 16 := rfl
    exact fill_inside (by omega) (by omega) hw hclose
  · have hx12 : (w.x + w.width - 12).toNat = w.x.toNat + w.width.toNat - 12 :=
      (hw.offsets (n := 12) (by decide)).2.2
    exact char_inside (by omega) (by omega) hw hcross
  · have hx32 : (w.x + w.width - 32).toNat = w.x.toNat + w.width.toNat - 32 :=
      (hw.offsets (n := 32) (by decide)).2.2
    have h16 : (16 : UInt32).toNat = 16 := rfl
    exact fill_inside (by omega) (by omega) hw hmin
  · have hx28 : (w.x + w.width - 28).toNat = w.x.toNat + w.width.toNat - 28 :=
      (hw.offsets (n := 28) (by decide)).2.2
    exact char_inside (by omega) (by omega) hw hdash

/-- The frame is the rectangle, and the border that is beside it. -/
theorem drawFrame_spec (hw : w.Fits) (htitle : title.length ≤ 8) :
    ∃ frame, drawFrame title w = some frame ∧
    ∀ p : UInt32 × UInt32, frame.any (Shape.covers · p) = true ↔ w.Inside p ∨ w.Beside p := by
  obtain ⟨hwidth, hheight⟩ := hw.size
  have hx := hw.x
  have hy := hw.y
  obtain ⟨border, hborder, hcovers⟩ := @drawRect_spec w.x w.y w.width w.height (by omega) (by omega)
  refine ⟨_, by unfold drawFrame; rw [hborder]; rfl, fun p => ?_⟩
  have hwhole := @fill_covers w.x w.y w.width w.height p (by omega) (by omega)
  have hbar : (Shape.fill (w.x + 1) (w.y + 1) (w.width - 2 * 1) (16 - 1)).covers p = true →
      w.Inside p := by
    have hx1 : (w.x + 1).toNat = w.x.toNat + 1 := (hw.offsets (n := 1) (by decide)).1
    have hy1 : (w.y + 1).toNat = w.y.toNat + 1 := (hw.offsets (n := 1) (by decide)).2.1
    have h15 : (16 - 1 : UInt32).toNat = 15 := rfl
    have hinner : (w.width - 2 * 1).toNat = w.width.toNat - 2 :=
      UInt32.toNat_sub_of_le _ _ (UInt32.le_iff_toNat_le.2 (by show 2 ≤ w.width.toNat; omega))
    exact fill_inside ⟨by omega, by omega⟩ ⟨by omega, by omega⟩ hw
  rw [List.append_assoc _ (drawString ..), List.any_append, List.any_append, Bool.or_eq_true,
    Bool.or_eq_true, hcovers p, List.any_cons, List.any_cons, List.any_nil, Bool.or_false,
      Bool.or_eq_true, hwhole]
  constructor
  · intro hdrawn
    rcases hdrawn with ((hin | hin) | hin) | hin
    · exact .inl hin
    · exact .inl (hbar hin)
    · exact .inl (bar_inside hw htitle hin)
    · unfold Graphics.OnBorder at hin
      unfold Window.Inside Window.Beside
      omega
  · intro hin
    rcases hin with hin | hin
    · exact .inl (.inl (.inl hin))
    · refine .inr ⟨hin.1, ?_⟩
      rcases hin.2 with hcolumn | hrow
      · exact .inr (.inl hcolumn)
      · exact .inr (.inr (.inr hrow))

end Shapes

/-! ## The frames -/

section Windows

variable {s : Ui} {l : List Nat} {a : Nat} {w : Window}

theorem shown_eq_some : s.shown (some a) = some w ↔ s.heap a = some w ∧ w.minimized = false := by
  unfold Ui.shown
  rw [Option.filter_eq_some_iff, Option.bind_some, Bool.not_eq_true']

theorem title_length (s : Ui) (p : Ptr) : (s.title p).length ≤ 8 := by
  unfold Ui.title
  rcases holders.find? fun h => s.win h = p with _ | h
  · exact Nat.zero_le 8
  · cases h <;> decide

/-- The frame of a listed window. -/
theorem Ui.Placed.frame (hp : s.Placed) (a : Nat) : ∃ frame, s.frame (some a) = some frame ∧
    ∀ p : UInt32 × UInt32, frame.any (Shape.covers · p) = true ↔
      ∃ w, s.shown (some a) = some w ∧ (w.Inside p ∨ w.Beside p) := by
  rcases hshown : s.shown (some a) with _ | w
  · refine ⟨[], by unfold Ui.frame; rw [hshown], fun p => ⟨fun hany => ?_, fun hex => ?_⟩⟩
    · cases hany
    · obtain ⟨w, hw, -⟩ := hex
      cases hw
  · obtain ⟨frame, hframe, hcovers⟩ :=
      drawFrame_spec (hp a w (shown_eq_some.1 hshown).1) (title_length s _)
    refine ⟨frame, ?_, fun p => (hcovers p).trans ⟨fun hin => ⟨w, rfl, hin⟩, fun hex => ?_⟩⟩
    · unfold Ui.frame
      rw [hshown]
      exact hframe
    · obtain ⟨w', hw', hin⟩ := hex
      obtain rfl := Option.some.inj hw'
      exact hin

/-- What is drawn of a window by `window_render`. -/
def Ui.framed (s : Ui) (a : Nat) : List (Ptr × Shape) :=
  ((s.frame (some a)).getD []).map (some a, ·)

theorem windowRenderWith_spec (hd : Desk s l) (hp : s.Placed) (ha : a ∈ l) :
    Total (windowRenderWith (some a)) s fun r s' => r = s.framed a ∧ s' = s := by
  obtain ⟨frame, hframe, -⟩ := hp.frame a
  refine (total_bind ..).2 ((windowRender_spec (hd.stacked.live ha)).mono fun _ s₁ hs₁ => ?_)
  rw [hs₁]
  refine (total_bind ..).2 ((total_get ..).2 ((total_bind ..).2 ⟨frame, s, ?_, ?_⟩))
  · rw [hframe]
    rfl
  · refine (total_pure ..).2 ⟨?_, rfl⟩
    unfold Ui.framed
    rw [hframe, Option.getD_some]

/-! ## The contents -/

/-- The order in which `render_all` draws the applications. -/
def renderOrder : List Holder := [.terminal, .editor, .viewer, .player, .browser, .about]

/-- What an application draws, for its window. -/
def Ui.drawn (s : Ui) (draws : Holder → List Shape) (h : Holder) : List (Ptr × Shape) :=
  (s.content draws h).map (s.win h, ·)

theorem appRenderWith_spec (hd : Desk s l) (draws : Holder → List Shape) (h : Holder) :
    Total (appRenderWith draws h) s fun r s' => r = s.drawn draws h ∧ s' = s := by
  refine (total_bind ..).2 ((appRender_spec hd h).mono fun _ s₁ hs₁ => ?_)
  rw [hs₁]
  exact (total_bind ..).2 ((total_get ..).2 ((total_pure ..).2 ⟨rfl, rfl⟩))

theorem termWindowRenderWith_spec (hd : Desk s l) (draws : Holder → List Shape) :
    Total (termWindowRenderWith draws) s fun r s' => r = s.drawn draws .terminal ∧ s' = s := by
  refine (total_bind ..).2
    ((total_get ..).2 ((total_ite ..).2
      ⟨fun _ => appRenderWith_spec hd draws .terminal, fun hno => (total_pure ..).2 ⟨?_, rfl⟩⟩))
  rw [hd.terminal, Bool.not_eq_true, Option.isSome_eq_false_iff, Option.isNone_iff_eq_none] at hno
  unfold Ui.drawn Ui.content Ui.shown
  rw [hno]
  rfl

theorem renderAllWith_spec (hd : Desk s l) (draws : Holder → List Shape) :
    Total (renderAllWith draws) s fun r s' => r = renderOrder.flatMap (s.drawn draws) ∧ s' = s := by
  refine (total_bind ..).2 ((termWindowRenderWith_spec hd draws).mono fun r s₁ hr => ?_)
  obtain ⟨rfl, rfl⟩ := hr
  refine (total_bind ..).2 ((appRenderWith_spec hd draws .editor).mono fun r s₁ hr => ?_)
  obtain ⟨rfl, rfl⟩ := hr
  refine (total_bind ..).2 ((appRenderWith_spec hd draws .viewer).mono fun r s₁ hr => ?_)
  obtain ⟨rfl, rfl⟩ := hr
  refine (total_bind ..).2 ((appRenderWith_spec hd draws .player).mono fun r s₁ hr => ?_)
  obtain ⟨rfl, rfl⟩ := hr
  refine (total_bind ..).2 ((appRenderWith_spec hd draws .browser).mono fun r s₁ hr => ?_)
  obtain ⟨rfl, rfl⟩ := hr
  refine (total_bind ..).2 ((appRenderWith_spec hd draws .about).mono fun r s₁ hr => ?_)
  obtain ⟨rfl, rfl⟩ := hr
  refine (total_pure ..).2 ⟨?_, rfl⟩
  unfold renderOrder
  simp

/-! ## The taskbar -/

/-- The shape is not above the taskbar. -/
def Shape.OnBar (shape : Shape) : Prop :=
  ∀ p : UInt32 × UInt32, shape.covers p = true → 184 ≤ p.2.toNat

theorem fill_onBar {x y width height : UInt32} (hy : 184 ≤ y.toNat) :
    (Shape.fill x y width height).OnBar := by
  intro p hp
  unfold Shape.covers at hp
  simp only [Bool.and_eq_true, decide_eq_true_eq, UInt32.le_iff_toNat_le] at hp
  exact hy.trans hp.2.1

theorem drawString_onBar {x : UInt32} {string : List UInt8} :
    ∀ shape ∈ drawString x (184 + 4) string, shape.OnBar := by
  intro shape hshape p hp
  obtain ⟨i, -, rfl⟩ := List.mem_map.1 hshape
  unfold Shape.covers at hp
  rw [Bool.and_eq_true, decide_eq_true_eq, decide_eq_true_eq] at hp
  have hrow := hp.2
  rw [UInt32.lt_iff_toNat_lt, UInt32.toNat_sub] at hrow
  have hlt := p.2.toNat_lt
  have h188 : (184 + 4 : UInt32).toNat = 188 := rfl
  have h8 : (8 : UInt32).toNat = 8 := rfl
  omega

theorem drawButton_spec {bx : Int32} (hbx : 0 ≤ bx.toInt ∧ bx.toInt < 400) (title : List UInt8) :
    ∃ button, drawButton bx title = some button ∧ ∀ shape ∈ button, shape.OnBar := by
  have hnat : bx.toUInt32.toNat < 400 := by
    rw [Int32.toNat_toUInt32_of_le (Int32.le_iff_toInt_le.2 hbx.1), ← Int32.toNat_toInt]
    omega
  have h58 : (58 : UInt32).toNat = 58 := rfl
  have h12 : (16 - 4 : UInt32).toNat = 12 := rfl
  have h186 : (184 + 2 : UInt32).toNat = 186 := rfl
  obtain ⟨border, hborder, hcovers⟩ :=
    @drawRect_spec bx.toUInt32 (184 + 2) 58 (16 - 4) (by omega) (by omega)
  refine ⟨_, by unfold drawButton; rw [hborder]; rfl, fun shape hshape => ?_⟩
  rw [List.cons_append, List.mem_cons, List.mem_append] at hshape
  rcases hshape with rfl | hshape | hshape
  · exact fill_onBar (by decide)
  · intro p hp
    have hon := (hcovers p).1 (List.any_eq_true.2 ⟨shape, hshape, hp⟩)
    unfold Graphics.OnBorder at hon
    omega
  · exact drawString_onBar shape hshape

theorem drawTaskbarWith_spec :
    ∀ {l : List Nat} (pre : List Nat) {n : Nat} {bx : Int32}, Stacked s (pre ++ l) →
    l.length < n → 0 ≤ bx.toInt ∧ bx.toInt < 400 →
      Total (drawTaskbarWith n bx l.head?) s fun r s' => (∀ shape ∈ r, shape.OnBar) ∧ s' = s
  | [], _, n + 1, _, _, _, _ => by
    exact (total_ite ..).2 ⟨fun hsome => absurd hsome.1 (by simp),
      fun _ => (total_pure ..).2 ⟨fun _ hshape => absurd hshape List.not_mem_nil, rfl⟩⟩
  | a :: l, pre, n + 1, bx, hs, hn, hbx => by
    have ha : s.Live a := hs.live (List.mem_append_right pre List.mem_cons_self)
    refine (total_ite ..).2 ⟨fun hfits => (total_bind ..).2 ?_,
      fun _ => (total_pure ..).2 ⟨fun _ hshape => absurd hshape List.not_mem_nil, rfl⟩⟩
    refine (windowDraw_spec fun b hb => Option.some.inj hb ▸ ha).mono fun _ s₁ hs₁ => ?_
    rw [hs₁]
    obtain ⟨button, hbutton, honbar⟩ := drawButton_spec hbx (s.title (some a))
    refine (total_bind ..).2
      ((total_get ..).2 ((total_bind ..).2 ⟨button, s, ?_, (total_bind ..).2 ?_⟩))
    · rw [List.head?_cons, hbutton]
      rfl
    refine (windowGetNext_spec hs).mono fun next s₂ hs₂ => ?_
    rw [hs₂.1, hs₂.2]
    have hnext : 0 ≤ (bx + (taskBtnW + taskBtnGap)).toInt ∧
        (bx + (taskBtnW + taskBtnGap)).toInt < 400 := by
      have hlt := Int32.lt_iff_toInt_lt.1 hfits.2
      have h58 : taskBtnW.toInt = 58 := rfl
      have h60 : (taskBtnW + taskBtnGap).toInt = 60 := rfl
      have h320 : (320 : Int32).toInt = 320 := rfl
      rw [Int32.toInt_add, h58, h320, Int.bmod_eq_of_le (by omega) (by omega)] at hlt
      rw [Int32.toInt_add, h60, Int.bmod_eq_of_le (by omega) (by omega)]
      omega
    have hrest := drawTaskbarWith_spec (l := l) (pre ++ [a]) (n := n)
      (by rw [List.append_assoc]; exact hs) (Nat.lt_of_succ_lt_succ hn) hnext
    refine (total_bind ..).2 (hrest.mono fun r s₃ hr =>
      (total_pure ..).2 ⟨fun shape hshape => ?_, hr.2⟩)
    rcases List.mem_append.1 hshape with hmem | hmem
    · exact honbar shape hmem
    · exact hr.1 shape hmem

/-! ## All of it -/

theorem drawIcon_yields {x y : Int32} (hx : x.toUInt32.toNat < 900) (hy : y.toUInt32.toNat < 900)
    (label : List UInt8) : ∃ icon, drawIcon x y label = some icon := by
  have h16 : (16 : UInt32).toNat = 16 := rfl
  obtain ⟨border, hborder, -⟩ := @drawRect_spec x.toUInt32 y.toUInt32 16 16 (by omega) (by omega)
  exact ⟨_, by unfold drawIcon; rw [hborder]; rfl⟩

theorem drawWallpaper_yields : ∃ wallpaper, drawWallpaper = some wallpaper := by
  have hall : ∀ is : List ((Int32 × Int32 × Prog Ui Unit) × List UInt8),
      (∀ i ∈ is, i.1.1.toUInt32.toNat < 900 ∧ i.1.2.1.toUInt32.toNat < 900) →
        ∃ drawn, is.mapM (fun i => drawIcon i.1.1 i.1.2.1 i.2) = some drawn := by
    intro is his
    induction is with
    | nil => exact ⟨[], rfl⟩
    | cons i is ih =>
      obtain ⟨drawn, hdrawn⟩ := ih fun j hj => his j (List.mem_cons_of_mem i hj)
      obtain ⟨hx, hy⟩ := his i List.mem_cons_self
      obtain ⟨icon, hicon⟩ := drawIcon_yields hx hy i.2
      refine ⟨icon :: drawn, ?_⟩
      rw [List.mapM_cons, hicon, hdrawn]
      rfl
  obtain ⟨drawn, hdrawn⟩ := hall (icons.zip iconLabels) fun i hi => by
    have hmem := (List.of_mem_zip hi).1
    unfold icons at hmem
    simp only [List.mem_cons, List.not_mem_nil, or_false] at hmem
    rcases hmem with hi | hi | hi | hi | hi | hi
    · rw [hi]; decide
    · rw [hi]; decide
    · rw [hi]; decide
    · rw [hi]; decide
    · rw [hi]; decide
    · rw [hi]; decide
  exact ⟨_, by unfold drawWallpaper; rw [hdrawn]; rfl⟩

/-- Behind the wallpaper come the frames from the back to the front, the applications in their
order, and what is not above the taskbar. -/
theorem desktopRedrawWith_spec (hd : Desk s l) (hp : s.Placed) (draws : Holder → List Shape) :
    Total (desktopRedrawWith draws) s fun r s' => (∃ wallpaper taskbar : List Shape,
      (∀ shape ∈ taskbar, shape.OnBar) ∧
        r = wallpaper.map (none, ·) ++ l.reverse.flatMap s.framed ++
        renderOrder.flatMap (s.drawn draws) ++ taskbar.map (none, ·)) ∧ s' = s := by
  obtain ⟨wallpaper, hwallpaper⟩ := drawWallpaper_yields
  obtain ⟨line, hline, honline⟩ :=
    @Graphics.graphicsDrawLine_axis 0 184 319 184 0 (.inr rfl) (by decide) (by decide)
    lineSteps (by decide)
  refine (total_bind ..).2 ⟨wallpaper, s, by rw [hwallpaper]; rfl, (total_bind ..).2 ?_⟩
  refine (windowManagerRenderAllWith_spec hd.stacked hd.short fun a ha =>
    windowRenderWith_spec hd hp ha).mono
    fun frames s₁ hframes => ?_
  rw [hframes.1, hframes.2]
  refine (total_bind ..).2 ((renderAllWith_spec hd draws).mono fun contents s₂ hcontents => ?_)
  rw [hcontents.1, hcontents.2]
  refine (total_bind ..).2 ⟨line, s, by rw [hline]; rfl, ?_⟩
  unfold windowManagerGetHead
  simp only [total_bind, total_get, total_pure]
  rw [hd.stacked.linked.head]
  refine (drawTaskbarWith_spec [] hd.stacked hd.short ⟨by decide, by decide⟩).mono
    fun buttons s₃ hbuttons => ?_
  refine ⟨⟨wallpaper, .fill 0 184 320 16 :: pixels line ++ buttons, fun shape hshape => ?_, ?_⟩,
    hbuttons.2⟩
  · rw [List.cons_append, List.mem_cons, List.mem_append] at hshape
    rcases hshape with rfl | hshape | hshape
    · exact fill_onBar (by decide)
    · intro p hp
      have hon := (honline p.1 p.2).1 (pixels_covers.1 (List.any_eq_true.2 ⟨shape, hshape, hp⟩))
      exact hon.y.1
    · exact hbuttons.1 shape hshape
  · simp only [List.flatMap_def]

end Windows

end MinervaOS.Desktop
