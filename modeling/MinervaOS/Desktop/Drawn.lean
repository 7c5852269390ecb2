import MinervaOS.Desktop.Visible
import MinervaOS.Graphics.FrameBuffer

/-!
# The picture

The shapes of a redraw, with their colours, down to the bytes of the frame buffer. What is seen at a
point is what its byte shows, and a redraw leaves nothing of what was there before.
-/

namespace MinervaOS.Desktop

open Prog
open Graphics

/-- A call of a drawing function, with its colours. -/
inductive Call where
  /-- `graphics_put_pixel` -/
  | pixel (q : PutPixel)
  /-- `graphics_draw_char` -/
  | char (x y : UInt32) (character : UInt8) (color bgColor : UInt32)
  /-- `graphics_fill_rect` -/
  | fill (x y width height color : UInt32)

namespace Call

def shape : Call → Shape
  | pixel q => .pixel q.x q.y
  | char x y _ _ _ => .char x y
  | fill x y width height _ => .fill x y width height

def pixels : Call → List PutPixel
  | pixel q => [q]
  | char x y character color bgColor => graphicsDrawChar x y character color bgColor
  | fill x y width height color => graphicsFillRect x y width height color

/-- The colour at a point that the call covers. -/
def paint : Call → UInt32 × UInt32 → UInt8
  | pixel q, _ => q.color.toUInt8
  | char x y character color bgColor, p =>
    let byte := (font8x8.getD character.toNat []).getD (p.2 - y).toNat 0
    if byte.toUInt32 &&& ((0x80 : UInt32) >>> (p.1 - x)) != 0 then color.toUInt8
    else bgColor.toUInt8
  | fill _ _ _ _ color, _ => color.toUInt8

end Call

/-- The bytes behind the calls. -/
def draw (buffer : Graphics.Memory) (calls : List Call) : Graphics.Memory :=
  calls.foldl (fun buffer c => putPixels buffer c.pixels) buffer

/-! ## A call -/

section

variable {p : UInt32 × UInt32} {buffer : Graphics.Memory} {c : Call}

theorem toUInt8_and (color : UInt32) : (color &&& 0xFF).toUInt8 = color.toUInt8 := by
  rw [← UInt8.toNat_inj, UInt32.toNat_toUInt8, UInt32.toNat_toUInt8, UInt32.toNat_and,
    show (0xFF : UInt32).toNat = 2 ^ 8 - 1 from rfl, Nat.and_two_pow_sub_one_eq_mod, Nat.mod_mod]

/-- The places of a glyph, from its corner. -/
theorem mem_graphicsDrawChar {x y : UInt32} {character : UInt8} {color bgColor : UInt32}
    {q : PutPixel} (h : q ∈ graphicsDrawChar x y character color bgColor) :
    q.x - x < 8 ∧ q.y - y < 8 ∧
      q.color.toUInt8 = (Call.char x y character color bgColor).paint (q.x, q.y) := by
  simp only [graphicsDrawChar, List.mem_flatMap, List.mem_map, mem_upTo] at h
  obtain ⟨row, hrow, col, hcol, rfl⟩ := h
  have hx : x + col - x = col := by rw [UInt32.add_comm, UInt32.add_sub_cancel]
  have hy : y + row - y = row := by rw [UInt32.add_comm, UInt32.add_sub_cancel]
  dsimp only [Call.paint]
  rw [hx, hy, toUInt8_and]
  exact ⟨hcol.2, hrow.2, by split <;> rfl⟩

theorem exists_graphicsDrawChar {x y : UInt32} (character : UInt8) (color bgColor : UInt32)
    (hx : p.1 - x < 8) (hy : p.2 - y < 8) :
    ∃ q ∈ graphicsDrawChar x y character color bgColor, (q.x, q.y) = p := by
  have hpx : x + (p.1 - x) = p.1 := by rw [UInt32.add_comm, UInt32.sub_add_cancel]
  have hpy : y + (p.2 - y) = p.2 := by rw [UInt32.add_comm, UInt32.sub_add_cancel]
  simp only [graphicsDrawChar, List.mem_flatMap, List.mem_map, mem_upTo]
  exact ⟨_, ⟨_, ⟨UInt32.zero_le, hy⟩, _, ⟨UInt32.zero_le, hx⟩, rfl⟩, Prod.ext hpx hpy⟩

/-- A call puts its paint where it covers. -/
theorem putPixels_call (hp : OnScreen p) (buffer : Graphics.Memory) (c : Call) :
    putPixels buffer c.pixels (place p) =
      if c.shape.covers p then c.paint p else buffer (place p) := by
  have hcall : (∀ q ∈ c.pixels, (q.x, q.y) = p → q.color.toUInt8 = c.paint p) ∧
      ((∃ q ∈ c.pixels, (q.x, q.y) = p) ↔ c.shape.covers p = true) := by
    cases c with
    | pixel q =>
      simp only [Call.pixels, Call.paint, Call.shape, Shape.covers, List.mem_singleton, forall_eq,
        exists_eq_left, implies_true, true_and, Bool.and_eq_true, beq_iff_eq, Prod.ext_iff]
      exact and_congr eq_comm eq_comm
    | char x y character color bgColor =>
      simp only [Call.shape, Shape.covers, Bool.and_eq_true, decide_eq_true_eq]
      refine ⟨fun q hq hplace => ?_, fun hq => ?_, fun hin => ?_⟩
      · rw [← hplace]
        exact (mem_graphicsDrawChar hq).2.2
      · obtain ⟨q, hq, rfl⟩ := hq
        exact ⟨(mem_graphicsDrawChar hq).1, (mem_graphicsDrawChar hq).2.1⟩
      · exact exists_graphicsDrawChar character color bgColor hin.1 hin.2
    | fill x y width height color =>
      simp only [Call.pixels, Call.paint, Call.shape, Shape.covers, mem_graphicsFillRect,
        Bool.and_eq_true, decide_eq_true_eq]
      refine ⟨fun q hq _ => by rw [hq.2.2], fun hq => ?_, fun hin => ?_⟩
      · obtain ⟨q, hq, rfl⟩ := hq
        exact ⟨hq.1, hq.2.1⟩
      · exact ⟨⟨p.1, p.2, color⟩, ⟨hin.1, hin.2, rfl⟩, rfl⟩
  rw [putPixels_place hp hcall.1, if_congr hcall.2 rfl rfl]

theorem draw_append (calls calls' : List Call) :
    draw buffer (calls ++ calls') = draw (draw buffer calls) calls' :=
  List.foldl_append

/-! ## A picture -/

/-- The last call on the point. -/
def lastOn (calls : List Call) (p : UInt32 × UInt32) : Option Call :=
  calls.reverse.find? fun c => c.shape.covers p

theorem draw_place (hp : OnScreen p) (calls : List Call) (buffer : Graphics.Memory) :
    draw buffer calls (place p) =
      ((lastOn calls p).map fun c => c.paint p).getD (buffer (place p)) := by
  induction calls using List.reverseRecOn with
  | nil => rfl
  | append_singleton calls c ih =>
    have hlast : lastOn (calls ++ [c]) p = if c.shape.covers p then some c else lastOn calls p := by
      rw [lastOn, List.reverse_concat, List.find?_cons]
      cases c.shape.covers p <;> rfl
    rw [draw_append, hlast]
    refine (putPixels_call hp _ c).trans ?_
    rw [ih]
    split <;> rfl

theorem draw_outside {n : Int} (h : n < 0 ∨ 64000 ≤ n) (calls : List Call)
    (buffer : Graphics.Memory) : draw buffer calls n = buffer n := by
  induction calls using List.reverseRecOn with
  | nil => rfl
  | append_singleton calls c ih =>
    rw [draw_append]
    exact (putPixels_outside h _).trans ih

theorem draw_eq_putPixels (calls : List Call) (buffer : Graphics.Memory) :
    draw buffer calls = putPixels buffer (calls.flatMap Call.pixels) := by
  induction calls using List.reverseRecOn with
  | nil => rfl
  | append_singleton calls c ih =>
    rw [draw_append, ih, List.flatMap_append, List.flatMap_singleton, putPixels_append]
    rfl

end

/-! ## A redraw -/

section

variable {draws : Holder → List Shape} {s s' : Ui} {drawn : List (Ptr × Shape)}

/-- A part of a program that returned, and the rest. -/
theorem bind_eq_some {α β : Type} {m : Prog Ui α} {f : α → Prog Ui β} {b : β}
    (h : (m >>= f) s = some (b, s')) : ∃ a t, m s = some (a, t) ∧ f a t = some (b, s') := by
  obtain ⟨⟨a, t⟩, hm, hf⟩ := Option.bind_eq_some_iff.1 h
  exact ⟨a, t, hm, hf⟩

theorem lift_eq_some {α : Type} {o : Option α} {a : α}
    (h : (liftM o : Prog Ui α) s = some (a, s')) : o = some a := by
  have hbind : (o.bind fun a => some (a, s)) = some (a, s') := h
  obtain ⟨b, ho, hb⟩ := Option.bind_eq_some_iff.1 hbind
  obtain ⟨rfl, -⟩ := Prod.mk.inj (Option.some_injective _ hb)
  exact ho

theorem drawWallpaper_ground {wallpaper : List Shape} (h : drawWallpaper = some wallpaper) :
    Shape.fill 0 0 320 184 ∈ wallpaper := by
  rw [drawWallpaper, Option.bind_eq_bind, Option.bind_eq_some_iff] at h
  obtain ⟨icons, -, hicons⟩ := h
  obtain rfl := Option.some_injective _ hicons
  exact List.mem_cons_self

/-- The ground of the desktop and that of the taskbar are drawn. -/
theorem grounds_mem (h : desktopRedrawWith draws s = some (drawn, s')) :
    (none, Shape.fill 0 0 320 184) ∈ drawn ∧ (none, Shape.fill 0 184 320 16) ∈ drawn := by
  unfold desktopRedrawWith at h
  obtain ⟨wallpaper, _, hwallpaper, h⟩ := bind_eq_some h
  obtain ⟨frames, _, -, h⟩ := bind_eq_some h
  obtain ⟨contents, _, -, h⟩ := bind_eq_some h
  obtain ⟨line, _, -, h⟩ := bind_eq_some h
  obtain ⟨head, _, -, h⟩ := bind_eq_some h
  obtain ⟨buttons, _, -, h⟩ := bind_eq_some h
  have hground := drawWallpaper_ground (lift_eq_some hwallpaper)
  obtain ⟨rfl, -⟩ := Prod.mk.inj (Option.some_injective _ h)
  refine ⟨?_, List.mem_append_right _ (List.mem_map.2 ⟨_, List.mem_cons_self, rfl⟩)⟩
  exact List.mem_append_left _ (List.mem_append_left _ (List.mem_append_left _
    (List.mem_map.2 ⟨_, hground, rfl⟩)))

theorem ground_covers {p : UInt32 × UInt32} (hp : OnScreen p) :
    (Shape.fill 0 0 320 184).covers p = true ∨ (Shape.fill 0 184 320 16).covers p = true := by
  have hlt := hp.toNat_lt
  simp only [Shape.covers, Bool.and_eq_true, decide_eq_true_eq, UInt32.le_iff_toNat_le,
    UInt32.lt_iff_toNat_lt]
  simp
  omega

end

/-- A shape in white. -/
def whiten : Shape → Call
  | .pixel x y => .pixel ⟨x, y, 15⟩
  | .char x y => .char x y 65 15 0
  | .fill x y width height => .fill x y width height 15

theorem shape_whiten (l : Shape) : (whiten l).shape = l := by cases l <;> rfl

end MinervaOS.Desktop
