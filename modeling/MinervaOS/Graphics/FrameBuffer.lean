import MinervaOS.Graphics.Lines
import MinervaOS.Lib.Layers

/-!
# The frame buffer

The drawing functions, down to the bytes of `back_buffer`. After any calls with any arguments each
point of the screen has the colour of the last call on it, and nothing beside the buffer has changed.
Coordinates are sums that wrap around: a character goes on at the other edge, and a rectangle whose
far edge wraps around is not drawn.
-/

namespace MinervaOS.Graphics

/-- The bytes around `back_buffer`, by their distance from its first. -/
abbrev Memory := Int → UInt8

/-- Glyphs behind these are blank. -/
def font8x8 : List (List UInt8) :=
  [[0x00, 0x00, 0x00, 0x00, 0x00, 0x00, 0x00, 0x00],
    [0x7E, 0x81, 0xA5, 0x81, 0xBD, 0x99, 0x81, 0x7E],
    [0x7E, 0xFF, 0xDB, 0xFF, 0xC3, 0xE7, 0xFF, 0x7E],
    [0x6C, 0xFE, 0xFE, 0xFE, 0x7C, 0x38, 0x10, 0x00],
    [0x10, 0x38, 0x7C, 0xFE, 0x7C, 0x38, 0x10, 0x00],
    [0x38, 0x7C, 0x38, 0xFE, 0xFE, 0x7C, 0x38, 0x7C],
    [0x10, 0x10, 0x38, 0x7C, 0xFE, 0x7C, 0x38, 0x7C],
    [0x00, 0x00, 0x18, 0x3C, 0x3C, 0x18, 0x00, 0x00],
    [0xFF, 0xFF, 0xE7, 0xC3, 0xC3, 0xE7, 0xFF, 0xFF],
    [0x00, 0x3C, 0x66, 0x42, 0x42, 0x66, 0x3C, 0x00],
    [0xFF, 0xC3, 0x99, 0xBD, 0xBD, 0x99, 0xC3, 0xFF],
    [0x0F, 0x07, 0x0F, 0x7D, 0xCC, 0xCC, 0xCC, 0x78],
    [0x3C, 0x66, 0x66, 0x66, 0x3C, 0x18, 0x7E, 0x18],
    [0x3F, 0x33, 0x3F, 0x30, 0x30, 0x70, 0xF0, 0xE0],
    [0x7F, 0x63, 0x7F, 0x63, 0x63, 0x67, 0xE6, 0xC0],
    [0x99, 0x5A, 0x3C, 0xE7, 0xE7, 0x3C, 0x5A, 0x99],
    [0x80, 0xE0, 0xF8, 0xFE, 0xF8, 0xE0, 0x80, 0x00],
    [0x02, 0x0E, 0x3E, 0xFE, 0x3E, 0x0E, 0x02, 0x00],
    [0x18, 0x3C, 0x7E, 0x18, 0x18, 0x7E, 0x3C, 0x18],
    [0x66, 0x66, 0x66, 0x66, 0x66, 0x00, 0x66, 0x00],
    [0x7F, 0xDB, 0xDB, 0x7B, 0x1B, 0x1B, 0x1B, 0x00],
    [0x3E, 0x61, 0x3C, 0x66, 0x66, 0x3C, 0x86, 0xC0],
    [0x00, 0x00, 0x00, 0x00, 0x7E, 0x7E, 0x7E, 0x00],
    [0x18, 0x3C, 0x7E, 0x18, 0x7E, 0x3C, 0x18, 0xFF],
    [0x18, 0x3C, 0x7E, 0x18, 0x18, 0x18, 0x18, 0x00],
    [0x18, 0x18, 0x18, 0x18, 0x7E, 0x3C, 0x18, 0x00],
    [0x00, 0x18, 0x0C, 0xFE, 0x0C, 0x18, 0x00, 0x00],
    [0x00, 0x30, 0x60, 0xFE, 0x60, 0x30, 0x00, 0x00],
    [0x00, 0x00, 0xC0, 0xC0, 0xC0, 0xFE, 0x00, 0x00],
    [0x00, 0x24, 0x66, 0xFF, 0x66, 0x24, 0x00, 0x00],
    [0x00, 0x18, 0x3C, 0x7E, 0xFF, 0xFF, 0x00, 0x00],
    [0x00, 0xFF, 0xFF, 0x7E, 0x3C, 0x18, 0x00, 0x00],
    [0x00, 0x00, 0x00, 0x00, 0x00, 0x00, 0x00, 0x00],
    [0x18, 0x3C, 0x3C, 0x18, 0x18, 0x00, 0x18, 0x00],
    [0x66, 0x66, 0x24, 0x00, 0x00, 0x00, 0x00, 0x00],
    [0x6C, 0x6C, 0xFE, 0x6C, 0xFE, 0x6C, 0x6C, 0x00],
    [0x18, 0x7E, 0xC0, 0x7C, 0x06, 0xFC, 0x18, 0x00],
    [0xC2, 0xC6, 0x0C, 0x18, 0x30, 0x66, 0xC6, 0x00],
    [0x38, 0x6C, 0x68, 0x76, 0xDC, 0xCC, 0x76, 0x00],
    [0x18, 0x18, 0x30, 0x00, 0x00, 0x00, 0x00, 0x00],
    [0x0C, 0x18, 0x30, 0x30, 0x30, 0x18, 0x0C, 0x00],
    [0x30, 0x18, 0x0C, 0x0C, 0x0C, 0x18, 0x30, 0x00],
    [0x00, 0x66, 0x3C, 0xFF, 0x3C, 0x66, 0x00, 0x00],
    [0x00, 0x18, 0x18, 0x7E, 0x18, 0x18, 0x00, 0x00],
    [0x00, 0x00, 0x00, 0x00, 0x00, 0x18, 0x18, 0x30],
    [0x00, 0x00, 0x00, 0x7E, 0x00, 0x00, 0x00, 0x00],
    [0x00, 0x00, 0x00, 0x00, 0x00, 0x18, 0x18, 0x00],
    [0x02, 0x06, 0x0C, 0x18, 0x30, 0x60, 0xC0, 0x80],
    [0x7C, 0xC6, 0xCE, 0xDE, 0xF6, 0xE6, 0x7C, 0x00],
    [0x18, 0x38, 0x58, 0x18, 0x18, 0x18, 0x7E, 0x00],
    [0x7C, 0xC6, 0x06, 0x7C, 0xC0, 0xC0, 0xFE, 0x00],
    [0x7C, 0xC6, 0x06, 0x3C, 0x06, 0xC6, 0x7C, 0x00],
    [0x1C, 0x3C, 0x6C, 0xCC, 0xFE, 0x0C, 0x1E, 0x00],
    [0xFE, 0xC0, 0xC0, 0xFC, 0x06, 0xC6, 0x7C, 0x00],
    [0x7C, 0xC6, 0xC0, 0xFC, 0xC6, 0xC6, 0x7C, 0x00],
    [0xFE, 0xC6, 0x0C, 0x18, 0x30, 0x30, 0x30, 0x00],
    [0x7C, 0xC6, 0xC6, 0x7C, 0xC6, 0xC6, 0x7C, 0x00],
    [0x7C, 0xC6, 0xC6, 0x7E, 0x06, 0xC6, 0x7C, 0x00],
    [0x00, 0x18, 0x18, 0x00, 0x00, 0x18, 0x18, 0x00],
    [0x00, 0x18, 0x18, 0x00, 0x00, 0x18, 0x18, 0x30],
    [0x06, 0x0C, 0x18, 0x30, 0x18, 0x0C, 0x06, 0x00],
    [0x00, 0x00, 0x7E, 0x00, 0x7E, 0x00, 0x00, 0x00],
    [0x60, 0x30, 0x18, 0x0C, 0x18, 0x30, 0x60, 0x00],
    [0x7C, 0xC6, 0x0C, 0x18, 0x18, 0x00, 0x18, 0x00],
    [0x7C, 0xC6, 0xDE, 0xDE, 0xDE, 0xC0, 0x78, 0x00],
    [0x38, 0x6C, 0xC6, 0xFE, 0xC6, 0xC6, 0xC6, 0x00],
    [0xFC, 0xC6, 0xC6, 0xFC, 0xC6, 0xC6, 0xFC, 0x00],
    [0x7C, 0xC6, 0xC0, 0xC0, 0xC0, 0xC6, 0x7C, 0x00],
    [0xF8, 0xCC, 0xC6, 0xC6, 0xC6, 0xCC, 0xF8, 0x00],
    [0xFE, 0xC0, 0xC0, 0xFC, 0xC0, 0xC0, 0xFE, 0x00],
    [0xFE, 0xC0, 0xC0, 0xFC, 0xC0, 0xC0, 0xC0, 0x00],
    [0x7C, 0xC6, 0xC0, 0xCE, 0xC6, 0xC6, 0x7E, 0x00],
    [0xC6, 0xC6, 0xC6, 0xFE, 0xC6, 0xC6, 0xC6, 0x00],
    [0x3C, 0x18, 0x18, 0x18, 0x18, 0x18, 0x3C, 0x00],
    [0x1E, 0x0C, 0x0C, 0x0C, 0xCC, 0xCC, 0x78, 0x00],
    [0xC6, 0xCC, 0xD8, 0xF0, 0xD8, 0xCC, 0xC6, 0x00],
    [0xC0, 0xC0, 0xC0, 0xC0, 0xC0, 0xC0, 0xFE, 0x00],
    [0xC6, 0xEE, 0xFE, 0xFE, 0xD6, 0xC6, 0xC6, 0x00],
    [0xC6, 0xE6, 0xF6, 0xDE, 0xCE, 0xC6, 0xC6, 0x00],
    [0x7C, 0xC6, 0xC6, 0xC6, 0xC6, 0xC6, 0x7C, 0x00],
    [0xFC, 0xC6, 0xC6, 0xFC, 0xC0, 0xC0, 0xC0, 0x00],
    [0x7C, 0xC6, 0xC6, 0xC6, 0xD6, 0xDE, 0x7C, 0x06],
    [0xFC, 0xC6, 0xC6, 0xFC, 0xD8, 0xCC, 0xC6, 0x00],
    [0x7C, 0xC6, 0xC0, 0x7C, 0x06, 0xC6, 0x7C, 0x00],
    [0xFF, 0x18, 0x18, 0x18, 0x18, 0x18, 0x18, 0x00],
    [0xC6, 0xC6, 0xC6, 0xC6, 0xC6, 0xC6, 0x7C, 0x00],
    [0xC6, 0xC6, 0xC6, 0xC6, 0xC6, 0x6C, 0x38, 0x00],
    [0xC6, 0xC6, 0xD6, 0xFE, 0xFE, 0xEE, 0xC6, 0x00],
    [0xC6, 0x6C, 0x38, 0x38, 0x38, 0x6C, 0xC6, 0x00],
    [0xC6, 0xC6, 0xC6, 0x7E, 0x06, 0xC6, 0x7C, 0x00],
    [0xFE, 0x0C, 0x18, 0x30, 0x60, 0xC0, 0xFE, 0x00],
    [0x3C, 0x30, 0x30, 0x30, 0x30, 0x30, 0x3C, 0x00],
    [0x80, 0xC0, 0x60, 0x30, 0x18, 0x0C, 0x06, 0x02],
    [0x3C, 0x0C, 0x0C, 0x0C, 0x0C, 0x0C, 0x3C, 0x00],
    [0x10, 0x38, 0x6C, 0xC6, 0x00, 0x00, 0x00, 0x00],
    [0x00, 0x00, 0x00, 0x00, 0x00, 0x00, 0x00, 0xFF],
    [0x30, 0x18, 0x0C, 0x00, 0x00, 0x00, 0x00, 0x00],
    [0x00, 0x00, 0x78, 0x0C, 0x7C, 0xCC, 0x76, 0x00],
    [0xC0, 0xC0, 0xC0, 0xFC, 0xC6, 0xC6, 0xFC, 0x00],
    [0x00, 0x00, 0x7C, 0xC6, 0xC0, 0xC6, 0x7C, 0x00],
    [0x06, 0x06, 0x06, 0x7E, 0xC6, 0xC6, 0x7E, 0x00],
    [0x00, 0x00, 0x7C, 0xC6, 0xFE, 0xC0, 0x7C, 0x00],
    [0x1C, 0x36, 0x30, 0x78, 0x30, 0x30, 0x30, 0x00],
    [0x00, 0x00, 0x76, 0xCC, 0xCC, 0x7C, 0x0C, 0xF8],
    [0xC0, 0xC0, 0xFC, 0xC6, 0xC6, 0xC6, 0xC6, 0x00],
    [0x18, 0x00, 0x38, 0x18, 0x18, 0x18, 0x3C, 0x00],
    [0x06, 0x00, 0x06, 0x06, 0x06, 0x66, 0x3C, 0x00],
    [0xC0, 0xC0, 0xCC, 0xD8, 0xF0, 0xD8, 0xCC, 0x00],
    [0x38, 0x18, 0x18, 0x18, 0x18, 0x18, 0x3C, 0x00],
    [0x00, 0x00, 0xEC, 0xFE, 0xD6, 0xC6, 0xC6, 0x00],
    [0x00, 0x00, 0xFC, 0xC6, 0xC6, 0xC6, 0xC6, 0x00],
    [0x00, 0x00, 0x7C, 0xC6, 0xC6, 0xC6, 0x7C, 0x00],
    [0x00, 0x00, 0xFC, 0xC6, 0xC6, 0xFC, 0xC0, 0xC0],
    [0x00, 0x00, 0x7E, 0xC6, 0xC6, 0x7E, 0x06, 0x06],
    [0x00, 0x00, 0xFC, 0xC6, 0xC0, 0xC0, 0xC0, 0x00],
    [0x00, 0x00, 0x7E, 0xC0, 0x7C, 0x06, 0xFC, 0x00],
    [0x30, 0x30, 0xFC, 0x30, 0x30, 0x36, 0x1C, 0x00],
    [0x00, 0x00, 0xC6, 0xC6, 0xC6, 0xC6, 0x7E, 0x00],
    [0x00, 0x00, 0xC6, 0xC6, 0xC6, 0x6C, 0x38, 0x00],
    [0x00, 0x00, 0xC6, 0xD6, 0xFE, 0xFE, 0x6C, 0x00],
    [0x00, 0x00, 0x6C, 0x38, 0x38, 0x38, 0x6C, 0x00],
    [0x00, 0x00, 0xC6, 0xC6, 0xC6, 0x7E, 0x06, 0xFC],
    [0x00, 0x00, 0xFE, 0x0C, 0x38, 0x60, 0xFE, 0x00],
    [0x0E, 0x18, 0x18, 0x30, 0x18, 0x18, 0x0E, 0x00],
    [0x18, 0x18, 0x18, 0x00, 0x18, 0x18, 0x18, 0x00],
    [0x70, 0x18, 0x18, 0x0C, 0x18, 0x18, 0x70, 0x00],
    [0x76, 0xDC, 0x00, 0x00, 0x00, 0x00, 0x00, 0x00],
    [0x00, 0x10, 0x38, 0x6C, 0xC6, 0xC6, 0xFE, 0x00]]

/-- `graphics_put_pixel`. -/
def graphicsPutPixel (buffer : Memory) (p : PutPixel) : Memory :=
  if p.x ≥ 320 ∨ p.y ≥ 200 then buffer
  else Function.update buffer (p.y * 320 + p.x).toNat p.color.toUInt8

/-- The values of `i` in `for (i = a; i < b; i++)`. -/
def upTo (a b : UInt32) : List UInt32 :=
  (List.range (b.toNat - a.toNat)).map fun k => a + UInt32.ofNat k

def graphicsFillRect (x y width height color : UInt32) : List PutPixel :=
  (upTo y (y + height)).flatMap fun j => (upTo x (x + width)).map fun i => ⟨i, j, color⟩

def graphicsDrawChar (x y : UInt32) (character : UInt8) (color bgColor : UInt32) : List PutPixel :=
  let glyph := font8x8.getD character.toNat []
  (upTo 0 8).flatMap fun row =>
    let byte := glyph.getD row.toNat 0
    (upTo 0 8).map fun col =>
      let pixelColor := if byte.toUInt32 &&& ((0x80 : UInt32) >>> col) != 0 then color else bgColor
      ⟨x + col, y + row, pixelColor &&& 0xFF⟩

/-- `graphics_flip`, for the bytes of the screen from 0xA0000 on. -/
def graphicsFlip (backBuffer : Memory) (screen : ℕ → UInt8) : ℕ → UInt8 :=
  fun i => if i < 320 * 200 then backBuffer i else screen i

/-! ## Points -/

/-- A point of the screen. -/
def OnScreen (p : UInt32 × UInt32) : Prop := p.1 < 320 ∧ p.2 < 200

instance (p : UInt32 × UInt32) : Decidable (OnScreen p) := inferInstanceAs (Decidable (_ ∧ _))

/-- Where the byte of a point is. -/
def place (p : UInt32 × UInt32) : Int := p.2.toNat * 320 + p.1.toNat

variable {p q : UInt32 × UInt32} {buffer : Memory} {pixels : List PutPixel} {a b i : UInt32}

theorem OnScreen.toNat_lt (h : OnScreen p) : p.1.toNat < 320 ∧ p.2.toNat < 200 :=
  ⟨UInt32.lt_iff_toNat_lt.1 h.1, UInt32.lt_iff_toNat_lt.1 h.2⟩

theorem place_inj (hp : OnScreen p) (hq : OnScreen q) (h : place p = place q) : p = q := by
  have hp' := hp.toNat_lt
  have hq' := hq.toNat_lt
  unfold place at h
  refine Prod.ext (UInt32.toNat_inj.1 ?_) (UInt32.toNat_inj.1 ?_)
  · omega
  · omega

theorem place_mem (h : OnScreen p) : 0 ≤ place p ∧ place p < 64000 := by
  have hp := h.toNat_lt
  unfold place
  omega

/-- Where the byte is that a call of `graphics_put_pixel` writes. -/
def PutPixel.place (q : PutPixel) : Option Int :=
  if OnScreen (q.x, q.y) then some (Graphics.place (q.x, q.y)) else none

theorem graphicsPutPixel_eq (buffer : Memory) (q : PutPixel) :
    graphicsPutPixel buffer q =
      Layers.put PutPixel.place (fun q => q.color.toUInt8) buffer q := by
  unfold graphicsPutPixel Layers.put PutPixel.place
  by_cases hq : OnScreen (q.x, q.y)
  · have hlt := hq.toNat_lt
    have hnot : ¬(q.x ≥ 320 ∨ q.y ≥ 200) :=
      not_or.2 ⟨UInt32.not_le.2 hq.1, UInt32.not_le.2 hq.2⟩
    have hplace : ((q.y * 320 + q.x).toNat : Int) = place (q.x, q.y) := by
      rw [place, UInt32.toNat_add, UInt32.toNat_mul, show (320 : UInt32).toNat = 320 from rfl]
      dsimp only at hlt ⊢
      omega
    rw [if_neg hnot, if_pos hq, hplace]
  · have hout : q.x ≥ 320 ∨ q.y ≥ 200 := by
      rcases not_and_or.1 hq with hx | hy
      · exact .inl (UInt32.not_lt.1 hx)
      · exact .inr (UInt32.not_lt.1 hy)
    rw [if_pos hout, if_neg hq]

/-- The buffer behind calls of `graphics_put_pixel`. -/
def putPixels (buffer : Memory) (pixels : List PutPixel) : Memory :=
  pixels.foldl graphicsPutPixel buffer

theorem putPixels_eq (buffer : Memory) (pixels : List PutPixel) : putPixels buffer pixels =
    pixels.foldl (Layers.put PutPixel.place fun q => q.color.toUInt8) buffer :=
  congrArg (fun f => List.foldl f buffer pixels)
    (funext fun b => funext fun q => graphicsPutPixel_eq b q)

theorem PutPixel.place_eq_some (hp : OnScreen p) {q : PutPixel} :
    q.place = some (Graphics.place p) ↔ (q.x, q.y) = p := by
  unfold PutPixel.place
  constructor
  · intro h
    split at h
    · rename_i hq
      exact place_inj hq hp (Option.some_injective _ h)
    · cases h
  · rintro rfl
    rw [if_pos hp]

/-- A point that the calls put in one colour. -/
theorem putPixels_place (hp : OnScreen p) {v : UInt8}
    (h : ∀ q ∈ pixels, (q.x, q.y) = p → q.color.toUInt8 = v) (buffer : Memory) :
    putPixels buffer pixels (place p) =
      if ∃ q ∈ pixels, (q.x, q.y) = p then v else buffer (place p) := by
  have hiff : (pixels.any fun q => q.place == some (place p)) = true ↔
      ∃ q ∈ pixels, (q.x, q.y) = p := by
    simp only [List.any_eq_true, beq_iff_eq, PutPixel.place_eq_some hp]
  rw [putPixels_eq, Layers.foldl_put (fun q hq hplace =>
    h q hq ((PutPixel.place_eq_some hp).1 hplace)), if_congr hiff rfl rfl]

/-- Bytes beside the buffer are kept. -/
theorem putPixels_outside {n : Int} (h : n < 0 ∨ 64000 ≤ n) (buffer : Memory) :
    putPixels buffer pixels n = buffer n := by
  have hnone : ∀ q : PutPixel, q.place ≠ some n := fun q hq => by
    unfold PutPixel.place at hq
    split at hq
    · rename_i hon
      have hmem := place_mem hon
      rw [Option.some_injective _ hq] at hmem
      omega
    · cases hq
  rw [putPixels_eq, Layers.foldl_put (v := 0) fun q _ hq => absurd hq (hnone q), if_neg]
  simpa using fun q _ => hnone q

/-- A byte does not depend on the others. -/
theorem putPixels_congr {buffer' : Memory} {n : Int} (h : buffer n = buffer' n) :
    putPixels buffer pixels n = putPixels buffer' pixels n := by
  rw [putPixels_eq, putPixels_eq]
  induction pixels generalizing buffer buffer' with
  | nil => exact h
  | cons q pixels ih =>
    refine ih ?_
    unfold Layers.put
    cases q.place with
    | none => exact h
    | some m =>
      dsimp only
      rw [Function.update_apply, Function.update_apply, h]

theorem putPixels_append (pixels pixels' : List PutPixel) :
    putPixels buffer (pixels ++ pixels') = putPixels (putPixels buffer pixels) pixels' :=
  List.foldl_append

/-! ## Loops -/

theorem mem_upTo : i ∈ upTo a b ↔ a ≤ i ∧ i < b := by
  have ha := a.toNat_lt
  have hb := b.toNat_lt
  have hi := i.toNat_lt
  rw [upTo, List.mem_map, UInt32.le_iff_toNat_le, UInt32.lt_iff_toNat_lt]
  constructor
  · rintro ⟨k, hk, rfl⟩
    rw [List.mem_range] at hk
    rw [UInt32.toNat_add, UInt32.toNat_ofNat']
    omega
  · rintro ⟨hle, hlt⟩
    refine ⟨i.toNat - a.toNat, List.mem_range.2 (by omega), UInt32.toNat_inj.1 ?_⟩
    rw [UInt32.toNat_add, UInt32.toNat_ofNat']
    omega

theorem mem_graphicsFillRect {x y width height color : UInt32} {q : PutPixel} :
    q ∈ graphicsFillRect x y width height color ↔
      (x ≤ q.x ∧ q.x < x + width) ∧ (y ≤ q.y ∧ q.y < y + height) ∧ q.color = color := by
  simp only [graphicsFillRect, List.mem_flatMap, List.mem_map, mem_upTo]
  constructor
  · rintro ⟨j, hj, i, hi, rfl⟩
    exact ⟨hi, hj, rfl⟩
  · rintro ⟨hi, hj, rfl⟩
    exact ⟨q.y, hj, q.x, hi, rfl⟩

end MinervaOS.Graphics
