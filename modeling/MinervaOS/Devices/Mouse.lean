import MinervaOS.Desktop.Drawn

/-!
# The mouse

The handler puts the bytes of the mouse together to packets of three, moves the pointer, and moves
what lies under it between `cursor_bg` and the frame buffer. It may run between any two pixels of a
redraw. A packet that is complete before the redraw has ended brings back what was under the pointer
before, so what is shown there may be old; everywhere else the screen shows the picture of the last
redraw and the pointer over it.
-/

namespace MinervaOS.Devices

open Desktop (Call lastOn)
open Graphics (OnScreen PutPixel place putPixels graphicsFlip graphicsPutPixel)

/-- The variables of the driver, with the buffer and the screen. Coordinates are integers: they stay
near the screen (`Pointer.Within.near`). -/
structure Mouse where
  mouseX : Int
  mouseY : Int
  mouseButtons : UInt8
  mouseCycle : UInt8
  mouseByte : ℕ → UInt8
  mousePrevButtons : UInt8
  mouseClicked : UInt8
  cursorPx : Int
  cursorPy : Int
  cursorBg : ℕ → UInt8
  backBuffer : Graphics.Memory
  screen : ℕ → UInt8

/-- The driver before the first byte. -/
def Mouse.boot (backBuffer : Graphics.Memory) (screen : ℕ → UInt8) : Mouse where
  mouseX := 160
  mouseY := 100
  mouseButtons := 0
  mouseCycle := 0
  mouseByte _ := 0
  mousePrevButtons := 0
  mouseClicked := 0
  cursorPx := 160
  cursorPy := 100
  cursorBg _ := 0
  backBuffer := backBuffer
  screen := screen

/-- The values of `dx` and `dy` in the loops over the cursor. -/
def cursorCells : List (ℕ × ℕ) :=
  (List.range 3).flatMap fun dy => (List.range 3).map fun dx => (dx, dy)

section

variable (x y : Int)

def cursorSave (buf : Graphics.Memory) (cursorBg : ℕ → UInt8) : ℕ → UInt8 :=
  cursorCells.foldl (fun cursorBg d =>
    let px := x + d.1
    let py := y + d.2
    Function.update cursorBg (d.2 * 3 + d.1) (if px < 320 ∧ py < 200 then buf (py * 320 + px) else 0))
    cursorBg

def cursorRestore (cursorBg : ℕ → UInt8) (buf : Graphics.Memory) : Graphics.Memory :=
  cursorCells.foldl (fun buf d =>
    let px := x + d.1
    let py := y + d.2
    if px < 320 ∧ py < 200 then Function.update buf (py * 320 + px) (cursorBg (d.2 * 3 + d.1))
    else buf) buf

def cursorDraw (buf : Graphics.Memory) : Graphics.Memory :=
  cursorCells.foldl (fun buf d =>
    if x + d.1 < 320 ∧ y + d.2 < 200 then
      graphicsPutPixel buf ⟨UInt32.ofInt (x + d.1), UInt32.ofInt (y + d.2), 15⟩
    else buf) buf

end

/-- The steps of `mouse_draw_cursor`, and of a redraw before it. -/
inductive DrawStep where
  | put (q : PutPixel)
  | save
  | draw
  | flip

def DrawStep.run (s : Mouse) : DrawStep → Mouse
  | put q => { s with backBuffer := graphicsPutPixel s.backBuffer q }
  | save => { s with cursorBg := cursorSave s.cursorPx s.cursorPy s.backBuffer s.cursorBg }
  | draw => { s with backBuffer := cursorDraw s.cursorPx s.cursorPy s.backBuffer }
  | flip => { s with screen := graphicsFlip s.backBuffer s.screen }

def mouseDrawCursor : List DrawStep := [.save, .draw, .flip]

/-- The position behind a packet: clamped to the screen. -/
def clampTo (last n : Int) : Int :=
  let n := if n < 0 then 0 else n
  if n > last then last else n

/-- The case of the third byte, until the cursor is shown. -/
def mouseMove (data : UInt8) (s : Mouse) : Mouse :=
  let mouseByte := Function.update s.mouseByte 2 data
  let dx := (mouseByte 1).toInt8.toInt
  let dy := (mouseByte 2).toInt8.toInt
  let mouseX := clampTo 319 (s.mouseX + dx)
  let mouseY := clampTo 199 (s.mouseY - dy)
  let mouseButtons := mouseByte 0 &&& 0x07
  { s with
    mouseX := mouseX
    mouseY := mouseY
    mouseButtons := mouseButtons
    mouseCycle := 0
    mouseByte := mouseByte
    mousePrevButtons := s.mouseButtons
    mouseClicked := s.mouseClicked ||| mouseButtons &&& ~~~s.mouseButtons
    cursorPx := mouseX
    cursorPy := mouseY
    backBuffer := cursorRestore s.cursorPx s.cursorPy s.cursorBg s.backBuffer }

def mousePacket (data : UInt8) (s : Mouse) : Mouse :=
  mouseDrawCursor.foldl DrawStep.run (mouseMove data s)

/-- The handler, for what the two ports hold. -/
def mouseIrqHandler (status data : UInt8) (s : Mouse) : Mouse :=
  if status &&& 0x01 == 0 then s
  else if status &&& 0x20 == 0 then s
  else if s.mouseCycle = 0 then
    let s := { s with mouseByte := Function.update s.mouseByte 0 data }
    if data &&& 0x08 == 0 then s else { s with mouseCycle := s.mouseCycle + 1 }
  else if s.mouseCycle = 1 then
    { s with
      mouseByte := Function.update s.mouseByte 1 data
      mouseCycle := s.mouseCycle + 1 }
  else if s.mouseCycle = 2 then mousePacket data s
  else s

/-- The handler runs before any step of the desktop. -/
inductive MouseEvent where
  | irq (status data : UInt8)
  | step (t : DrawStep)

def MouseEvent.run (s : Mouse) : MouseEvent → Mouse
  | irq status data => mouseIrqHandler status data s
  | step t => t.run s

/-! ## Packets -/

structure Packet where
  flags : UInt8
  dx : UInt8
  dy : UInt8
  deriving DecidableEq

/-- Packets begin with a byte whose bit 3 is set. -/
def packets : List UInt8 → List Packet
  | [] => []
  | flags :: rest =>
    if flags &&& 0x08 == 0 then packets rest
    else
      match rest with
      | dx :: dy :: rest => ⟨flags, dx, dy⟩ :: packets rest
      | _ => []

/-- What is left behind the packets. -/
def pending : List UInt8 → List UInt8
  | [] => []
  | flags :: rest =>
    if flags &&& 0x08 == 0 then pending rest
    else
      match rest with
      | _ :: _ :: rest => pending rest
      | _ => flags :: rest

/-- The bytes that come from the mouse. -/
def MouseEvent.byte : MouseEvent → Option UInt8
  | irq status data => if status &&& 0x01 == 0 || status &&& 0x20 == 0 then none else some data
  | step _ => none

def MouseEvent.drawn : MouseEvent → Option DrawStep
  | irq _ _ => none
  | step t => some t

/-- What packets are about. -/
structure Pointer where
  x : Int
  y : Int
  buttons : UInt8
  clicked : UInt8

def Pointer.start : Pointer := ⟨160, 100, 0, 0⟩

def Pointer.apply (v : Pointer) (p : Packet) : Pointer where
  x := max 0 (min 319 (v.x + p.dx.toInt8.toInt))
  y := max 0 (min 199 (v.y - p.dy.toInt8.toInt))
  buttons := p.flags &&& 0x07
  clicked := v.clicked ||| (p.flags &&& 0x07) &&& ~~~v.buttons

/-- The pointer is on the point. -/
def Pointer.On (v : Pointer) (p : UInt32 × UInt32) : Prop :=
  (v.x ≤ p.1.toNat ∧ p.1.toNat < v.x + 3) ∧ v.y ≤ p.2.toNat ∧ p.2.toNat < v.y + 3

instance (v : Pointer) (p : UInt32 × UInt32) : Decidable (v.On p) :=
  inferInstanceAs (Decidable (_ ∧ _))

/-! ## The cursor over a picture -/

section Cursor

variable {x y n : Int} {d : ℕ × ℕ} {buf : Graphics.Memory} {cursorBg : ℕ → UInt8} {v : UInt8}

/-- The byte of a cell, if the cell is on the screen. -/
def cellPlace (x y : Int) (d : ℕ × ℕ) : Option Int :=
  if x + d.1 < 320 ∧ y + d.2 < 200 then some ((y + d.2) * 320 + (x + d.1)) else none

/-- The byte is under the cursor. -/
def under (x y n : Int) : Bool := cursorCells.any fun d => cellPlace x y d == some n

/-- What is kept of the byte, if it is under the cursor. -/
def Kept (x y n : Int) (v : UInt8) (cursorBg : ℕ → UInt8) : Prop :=
  ∀ d ∈ cursorCells, cellPlace x y d = some n → cursorBg (d.2 * 3 + d.1) = v

theorem mem_cursorCells : d ∈ cursorCells ↔ d.1 < 3 ∧ d.2 < 3 := by
  obtain ⟨dx, dy⟩ := d
  simp only [cursorCells, List.mem_flatMap, List.mem_map, List.mem_range, Prod.mk.injEq]
  constructor
  · rintro ⟨dy, hy, dx, hx, rfl, rfl⟩
    exact ⟨hx, hy⟩
  · rintro ⟨hx, hy⟩
    exact ⟨dy, hy, dx, hx, rfl, rfl⟩

theorem cursorSave_eq (x y : Int) (buf : Graphics.Memory) (cursorBg : ℕ → UInt8) :
    cursorSave x y buf cursorBg =
      cursorCells.foldl (Layers.put (fun d => some (d.2 * 3 + d.1)) fun d =>
        if x + d.1 < 320 ∧ y + d.2 < 200 then buf ((y + d.2) * 320 + (x + d.1)) else 0) cursorBg :=
  rfl

theorem cursorRestore_eq (x y : Int) (cursorBg : ℕ → UInt8) (buf : Graphics.Memory) :
    cursorRestore x y cursorBg buf =
      cursorCells.foldl (Layers.put (cellPlace x y) fun d => cursorBg (d.2 * 3 + d.1)) buf := by
  refine congrArg (fun f => List.foldl f buf cursorCells) (funext fun buf => funext fun d => ?_)
  dsimp only
  rw [Layers.put, cellPlace]
  split <;> rfl

/-- The coordinates of a cell on the screen, as arguments of `graphics_put_pixel`. -/
theorem cell_place (hx : 0 ≤ x) (hy : 0 ≤ y) (hd : x + d.1 < 320 ∧ y + d.2 < 200) :
    OnScreen (UInt32.ofInt (x + d.1), UInt32.ofInt (y + d.2)) ∧
      place (UInt32.ofInt (x + d.1), UInt32.ofInt (y + d.2)) = (y + d.2) * 320 + (x + d.1) := by
  have hpx := Graphics.toNat_ofInt (x + d.1)
  have hpy := Graphics.toNat_ofInt (y + d.2)
  have h320 : (320 : UInt32).toNat = 320 := rfl
  have h200 : (200 : UInt32).toNat = 200 := rfl
  unfold OnScreen place
  rw [UInt32.lt_iff_toNat_lt, UInt32.lt_iff_toNat_lt]
  dsimp only
  omega

theorem cursorDraw_eq (hx : 0 ≤ x) (hy : 0 ≤ y) (buf : Graphics.Memory) :
    cursorDraw x y buf = cursorCells.foldl (Layers.put (cellPlace x y) fun _ => 15) buf := by
  refine congrArg (fun f => List.foldl f buf cursorCells) (funext fun buf => funext fun d => ?_)
  rw [Layers.put, cellPlace]
  split
  · rename_i hd
    obtain ⟨hon, hplace⟩ := cell_place hx hy hd
    rw [Graphics.graphicsPutPixel_eq, Layers.put, Graphics.PutPixel.place, if_pos hon, hplace]
    rfl
  · rfl

theorem cursorRestore_at (h : Kept x y n v cursorBg) (buf : Graphics.Memory) :
    cursorRestore x y cursorBg buf n = if under x y n then v else buf n := by
  rw [cursorRestore_eq, Layers.foldl_put h, under]

theorem cursorDraw_at (hx : 0 ≤ x) (hy : 0 ≤ y) (buf : Graphics.Memory) (n : Int) :
    cursorDraw x y buf n = if under x y n then 15 else buf n := by
  rw [cursorDraw_eq hx hy, Layers.foldl_put fun _ _ _ => rfl, under]

theorem cursorSave_kept (x y n : Int) (buf : Graphics.Memory) (cursorBg : ℕ → UInt8) :
    Kept x y n (buf n) (cursorSave x y buf cursorBg) := by
  intro d hd hn
  have hsame : ∀ d' ∈ cursorCells, some (d'.2 * 3 + d'.1) = some (d.2 * 3 + d.1) →
      (if x + d'.1 < 320 ∧ y + d'.2 < 200 then buf ((y + d'.2) * 320 + (x + d'.1)) else 0) =
        buf n := by
    intro d' hd' hidx
    have hidx := Option.some_injective _ hidx
    rw [mem_cursorCells] at hd hd'
    have hx : d'.1 = d.1 := by omega
    have hy : d'.2 = d.2 := by omega
    unfold cellPlace at hn
    rw [hx, hy]
    split at hn
    · rename_i hon
      rw [if_pos hon, Option.some_injective _ hn]
    · cases hn
  rw [cursorSave_eq, Layers.foldl_put hsame, if_pos]
  exact List.any_eq_true.2 ⟨d, hd, beq_self_eq_true _⟩

theorem kept_of_not_under (h : under x y n = false) (v : UInt8) (cursorBg : ℕ → UInt8) :
    Kept x y n v cursorBg := fun d hd hn => by
  rw [under, List.any_eq_false] at h
  exact absurd (beq_iff_eq.2 hn) (h d hd)

/-- Bytes beside the buffer are not under the cursor. -/
theorem under_outside (hx : 0 ≤ x) (hy : 0 ≤ y) (hn : n < 0 ∨ 64000 ≤ n) :
    under x y n = false := by
  rw [under, List.any_eq_false]
  intro d _ hcell
  have hcell := beq_iff_eq.1 hcell
  unfold cellPlace at hcell
  split at hcell
  · have hplace := Option.some_injective _ hcell
    omega
  · cases hcell

/-- On the screen, the cursor is a square. -/
theorem under_place {v : Pointer} (hx : 0 ≤ v.x) (hy : 0 ≤ v.y) {p : UInt32 × UInt32}
    (hp : OnScreen p) : under v.x v.y (place p) = true ↔ v.On p := by
  have hlt := hp.toNat_lt
  simp only [under, List.any_eq_true, beq_iff_eq, mem_cursorCells, cellPlace, place, Pointer.On]
  constructor
  · rintro ⟨d, hd, hcell⟩
    split at hcell
    · have hplace := Option.some_injective _ hcell
      omega
    · cases hcell
  · rintro ⟨hpx, hpy⟩
    refine ⟨(p.1.toNat - v.x.toNat, p.2.toNat - v.y.toNat), ⟨?_, ?_⟩, ?_⟩
    · omega
    · omega
    · rw [if_pos (by dsimp only; omega)]
      congr 1
      dsimp only
      omega

end Cursor

/-! ## Packets, byte by byte -/

theorem packets_skip {flags : UInt8} (h : (flags &&& 0x08 == 0) = true) (rest : List UInt8) :
    packets (flags :: rest) = packets rest ∧ pending (flags :: rest) = pending rest := by
  rcases rest with _ | ⟨dx, _ | ⟨dy, rest⟩⟩ <;>
    exact ⟨by rw [packets.eq_def]; exact if_pos h, by rw [pending.eq_def]; exact if_pos h⟩

theorem packets_append (bytes : List UInt8) (data : UInt8) :
    packets (bytes ++ [data]) = packets bytes ++
        (match pending bytes with
          | [flags, dx] => [⟨flags, dx, data⟩]
          | _ => []) ∧
      pending (bytes ++ [data]) =
        match pending bytes with
        | [] => if data &&& 0x08 == 0 then [] else [data]
        | [flags] => [flags, data]
        | _ => [] := by
  fun_induction packets bytes with
  | case1 => simp [packets, pending]
  | case2 flags rest hskip ih =>
    rw [List.cons_append, (packets_skip hskip _).1, (packets_skip hskip _).2,
      (packets_skip hskip _).2]
    exact ih
  | case3 flags hbegin dx dy rest ih =>
    simpa [packets, pending, hbegin] using ih
  | case4 flags rest hbegin hshort =>
    rcases rest with _ | ⟨dx, _ | ⟨dy, rest⟩⟩
    · simp [packets, pending, hbegin]
    · simp [packets, pending, hbegin]
    · exact absurd rfl (hshort dx dy rest)

/-! ## The state behind any events -/

/-- The pointer behind the bytes. -/
def pointerAfter (bytes : List UInt8) : Pointer := (packets bytes).foldl Pointer.apply .start

/-- The pointer stays on the screen. -/
def Pointer.Within (v : Pointer) : Prop := (0 ≤ v.x ∧ v.x ≤ 319) ∧ 0 ≤ v.y ∧ v.y ≤ 199

theorem Pointer.apply_within (v : Pointer) (p : Packet) : (v.apply p).Within := by
  simp only [Pointer.Within, Pointer.apply]
  omega

/-- Before it is clamped, it is near the screen. -/
theorem Pointer.Within.near {v : Pointer} (h : v.Within) (p : Packet) :
    (-128 ≤ v.x + p.dx.toInt8.toInt ∧ v.x + p.dx.toInt8.toInt ≤ 446) ∧
      -127 ≤ v.y - p.dy.toInt8.toInt ∧ v.y - p.dy.toInt8.toInt ≤ 327 := by
  have hdx := p.dx.toInt8.le_toInt
  have hdx' := p.dx.toInt8.toInt_le
  have hdy := p.dy.toInt8.le_toInt
  have hdy' := p.dy.toInt8.toInt_le
  rw [show Int8.maxValue.toInt = 127 from rfl] at hdx' hdy'
  unfold Pointer.Within at h
  omega

theorem pointerAfter_within (bytes : List UInt8) : (pointerAfter bytes).Within := by
  unfold pointerAfter
  induction packets bytes using List.reverseRecOn with
  | nil => exact ⟨⟨by decide, by decide⟩, by decide, by decide⟩
  | append_singleton ps p _ =>
    rw [List.foldl_append]
    exact Pointer.apply_within _ p

variable {bytes : List UInt8} {s : Mouse}

/-- The driver has read the bytes. -/
structure Follows (bytes : List UInt8) (s : Mouse) : Prop where
  mouseX : s.mouseX = (pointerAfter bytes).x
  mouseY : s.mouseY = (pointerAfter bytes).y
  mouseButtons : s.mouseButtons = (pointerAfter bytes).buttons
  mouseClicked : s.mouseClicked = (pointerAfter bytes).clicked
  cursorPx : s.cursorPx = (pointerAfter bytes).x
  cursorPy : s.cursorPy = (pointerAfter bytes).y
  mouseCycle : s.mouseCycle = UInt8.ofNat (pending bytes).length
  mouseByte : ∀ i (h : i < (pending bytes).length), s.mouseByte i = (pending bytes)[i]

theorem follows_boot (backBuffer : Graphics.Memory) (screen : ℕ → UInt8) :
    Follows [] (.boot backBuffer screen) :=
  ⟨rfl, rfl, rfl, rfl, rfl, rfl, rfl, fun i hi => absurd hi (Nat.not_lt_zero i)⟩

theorem Follows.nonneg (h : Follows bytes s) : 0 ≤ s.cursorPx ∧ 0 ≤ s.cursorPy := by
  rw [h.cursorPx, h.cursorPy]
  exact ⟨(pointerAfter_within bytes).1.1, (pointerAfter_within bytes).2.1⟩

theorem Follows.under_iff (h : Follows bytes s) {p : UInt32 × UInt32} (hp : OnScreen p) :
    under s.cursorPx s.cursorPy (place p) = true ↔ (pointerAfter bytes).On p := by
  obtain ⟨hx, hy⟩ := h.nonneg
  rw [h.cursorPx] at hx ⊢
  rw [h.cursorPy] at hy ⊢
  exact under_place hx hy hp

theorem length_pending_lt (bytes : List UInt8) : (pending bytes).length < 3 := by
  induction bytes using List.reverseRecOn with
  | nil => decide
  | append_singleton bytes data ih =>
    rw [(packets_append bytes data).2]
    split
    · split <;> simp
    · simp
    · simp

theorem clampTo_eq {last : Int} (h : 0 ≤ last) (n : Int) : clampTo last n = max 0 (min last n) := by
  unfold clampTo
  dsimp only
  split_ifs <;> omega

/-- A byte that completes a packet. -/
theorem Follows.packet (h : Follows bytes s) {flags dx : UInt8}
    (hpending : pending bytes = [flags, dx]) (data : UInt8) :
    Follows (bytes ++ [data]) (mousePacket data s) := by
  have hbyte := h.mouseByte
  rw [hpending] at hbyte
  have hflags : s.mouseByte 0 = flags := hbyte 0 (by simp)
  have hdx : s.mouseByte 1 = dx := hbyte 1 (by simp)
  have hpointer : pointerAfter (bytes ++ [data]) =
      (pointerAfter bytes).apply ⟨flags, dx, data⟩ := by
    rw [pointerAfter, (packets_append bytes data).1, hpending, List.foldl_append]
    rfl
  have hnone : pending (bytes ++ [data]) = [] := by rw [(packets_append bytes data).2, hpending]
  have hx : clampTo 319 (s.mouseX + (s.mouseByte 1).toInt8.toInt) =
      (pointerAfter (bytes ++ [data])).x := by
    rw [clampTo_eq (by decide), hdx, h.mouseX, hpointer]
    rfl
  have hy : clampTo 199 (s.mouseY - data.toInt8.toInt) = (pointerAfter (bytes ++ [data])).y := by
    rw [clampTo_eq (by decide), h.mouseY, hpointer]
    rfl
  constructor
  · exact hx
  · exact hy
  · rw [hpointer, ← hflags]
    rfl
  · rw [hpointer, ← hflags, Pointer.apply, ← h.mouseClicked, ← h.mouseButtons]
    rfl
  · exact hx
  · exact hy
  · rw [hnone]
    rfl
  · intro i hi
    rw [hnone] at hi
    exact absurd hi (Nat.not_lt_zero i)

/-- A byte that does not complete a packet. -/
theorem Follows.wait (h : Follows bytes s) {data : UInt8} {mouseByte : ℕ → UInt8}
    {mouseCycle : UInt8} (hpackets : packets (bytes ++ [data]) = packets bytes)
    (hcycle : mouseCycle = UInt8.ofNat (pending (bytes ++ [data])).length)
    (hbyte : ∀ i (h : i < (pending (bytes ++ [data])).length),
      mouseByte i = (pending (bytes ++ [data]))[i]) :
    Follows (bytes ++ [data]) { s with mouseByte := mouseByte, mouseCycle := mouseCycle } := by
  have hpointer : pointerAfter bytes = pointerAfter (bytes ++ [data]) := by
    rw [pointerAfter, pointerAfter, hpackets]
  exact
    { mouseX := h.mouseX.trans (congrArg Pointer.x hpointer)
      mouseY := h.mouseY.trans (congrArg Pointer.y hpointer)
      mouseButtons := h.mouseButtons.trans (congrArg Pointer.buttons hpointer)
      mouseClicked := h.mouseClicked.trans (congrArg Pointer.clicked hpointer)
      cursorPx := h.cursorPx.trans (congrArg Pointer.x hpointer)
      cursorPy := h.cursorPy.trans (congrArg Pointer.y hpointer)
      mouseCycle := hcycle
      mouseByte := hbyte }

/-- What the handler can do: nothing, take a byte, or complete a packet. -/
theorem mouseIrqHandler_cases (h : Follows bytes s) (status data : UInt8) :
    ((MouseEvent.irq status data).byte = none ∧ mouseIrqHandler status data s = s) ∨
    ((MouseEvent.irq status data).byte = some data ∧ packets (bytes ++ [data]) = packets bytes ∧
      ∃ mouseByte mouseCycle, mouseIrqHandler status data s =
          { s with mouseByte := mouseByte, mouseCycle := mouseCycle } ∧
        Follows (bytes ++ [data]) { s with mouseByte := mouseByte, mouseCycle := mouseCycle }) ∨
    ((MouseEvent.irq status data).byte = some data ∧
      packets (bytes ++ [data]) ≠ packets bytes ∧
      mouseIrqHandler status data s = mousePacket data s ∧
        Follows (bytes ++ [data]) (mousePacket data s)) := by
  by_cases hbit : (status &&& 0x01 == 0) = true
  · exact .inl ⟨by rw [MouseEvent.byte, hbit]; rfl, if_pos hbit⟩
  by_cases hbit' : (status &&& 0x20 == 0) = true
  · exact .inl ⟨by rw [MouseEvent.byte, hbit', Bool.or_true]; rfl,
      (if_neg hbit).trans (if_pos hbit')⟩
  have hbyte : (MouseEvent.irq status data).byte = some data := by
    rw [MouseEvent.byte, Bool.eq_false_iff.2 hbit, Bool.eq_false_iff.2 hbit']
    rfl
  obtain ⟨hpackets, hnext⟩ := packets_append bytes data
  have hcycle := h.mouseCycle
  have hold := h.mouseByte
  have hlt := length_pending_lt bytes
  rw [mouseIrqHandler, if_neg hbit, if_neg hbit']
  right
  -- how much of a packet has arrived
  rcases hpending : pending bytes with _ | ⟨flags, _ | ⟨dx, _ | ⟨dy, rest⟩⟩⟩
  · rw [hpending] at hcycle hpackets hnext
    have hzero : s.mouseCycle = 0 := hcycle
    rw [if_pos hzero]
    dsimp only at hnext
    left
    refine ⟨hbyte, hpackets.trans (List.append_nil _), Function.update s.mouseByte 0 data,
      if data &&& 0x08 == 0 then s.mouseCycle else s.mouseCycle + 1, by split <;> rfl,
      h.wait (hpackets.trans (List.append_nil _)) ?_ ?_⟩
    · rw [hnext, hzero]
      split <;> rfl
    · rw [hnext]
      split
      · exact fun i hi => absurd hi (Nat.not_lt_zero i)
      · intro i hi
        obtain rfl : i = 0 := by simpa using hi
        rfl
  · rw [hpending] at hcycle hpackets hnext
    simp only [hpending] at hold
    have hone : s.mouseCycle = 1 := hcycle
    rw [if_neg (by rw [hone]; decide), if_pos hone]
    left
    refine ⟨hbyte, hpackets.trans (List.append_nil _), _, _, rfl,
      h.wait (hpackets.trans (List.append_nil _)) ?_ ?_⟩
    · rw [hnext, hone]
      rfl
    · rw [hnext]
      intro i hi
      obtain rfl | rfl : i = 0 ∨ i = 1 := by
        rw [List.length_cons, List.length_singleton] at hi
        omega
      · exact hold 0 (by simp)
      · rfl
  · rw [hpending] at hcycle hpackets
    have htwo : s.mouseCycle = 2 := hcycle
    rw [if_neg (by rw [htwo]; decide), if_neg (by rw [htwo]; decide), if_pos htwo]
    right
    refine ⟨hbyte, fun hsame => ?_, rfl, h.packet hpending data⟩
    rw [hpackets] at hsame
    exact absurd (List.append_right_eq_self.1 hsame) (List.cons_ne_nil _ _)
  · rw [hpending, List.length_cons, List.length_cons, List.length_cons] at hlt
    omega

abbrev runEvents (s : Mouse) (events : List MouseEvent) : Mouse := events.foldl MouseEvent.run s

abbrev bytesOf (events : List MouseEvent) : List UInt8 := events.filterMap MouseEvent.byte

theorem Follows.step (h : Follows bytes s) (t : DrawStep) : Follows bytes (t.run s) := by
  cases t <;> exact ⟨h.1, h.2, h.3, h.4, h.5, h.6, h.7, h.8⟩

theorem bytesOf_cons (e : MouseEvent) (events : List MouseEvent) :
    bytesOf (e :: events) = bytesOf [e] ++ bytesOf events := by
  rw [bytesOf, bytesOf, bytesOf, ← List.filterMap_append, List.singleton_append]

theorem bytesOf_one {e : MouseEvent} {data : UInt8} (h : e.byte = some data) :
    bytesOf [e] = [data] := by
  rw [bytesOf, List.filterMap_cons, h]
  rfl

theorem bytesOf_none {e : MouseEvent} (h : e.byte = none) : bytesOf [e] = [] := by
  rw [bytesOf, List.filterMap_cons, h]
  rfl

theorem Follows.event (h : Follows bytes s) (e : MouseEvent) :
    Follows (bytes ++ bytesOf [e]) (e.run s) := by
  cases e with
  | step t =>
    rw [bytesOf_none rfl, List.append_nil]
    exact h.step t
  | irq status data =>
    rcases mouseIrqHandler_cases h status data with
      ⟨hbyte, hsame⟩ | ⟨hbyte, -, _, _, hrun, hnext⟩ | ⟨hbyte, -, hrun, hnext⟩
    · rw [bytesOf_none hbyte, List.append_nil, MouseEvent.run, hsame]
      exact h
    · rw [bytesOf_one hbyte, MouseEvent.run, hrun]
      exact hnext
    · rw [bytesOf_one hbyte, MouseEvent.run, hrun]
      exact hnext

theorem Follows.run (h : Follows bytes s) (events : List MouseEvent) :
    Follows (bytes ++ bytesOf events) (runEvents s events) := by
  induction events generalizing bytes s with
  | nil => rwa [bytesOf, List.filterMap_nil, List.append_nil]
  | cons e events ih =>
    rw [bytesOf_cons, ← List.append_assoc]
    exact ih (h.event e)

/-! ## A byte of the picture -/

section Picture

variable {n : Int} {v : UInt8}

theorem mouseDrawCursor_run (s : Mouse) : mouseDrawCursor.foldl DrawStep.run s =
    { s with
      cursorBg := cursorSave s.cursorPx s.cursorPy s.backBuffer s.cursorBg
      backBuffer := cursorDraw s.cursorPx s.cursorPy s.backBuffer
      screen := graphicsFlip (cursorDraw s.cursorPx s.cursorPy s.backBuffer) s.screen } := by
  simp only [mouseDrawCursor, List.foldl_cons, List.foldl_nil, DrawStep.run]

theorem mousePacket_backBuffer (data : UInt8) (s : Mouse) : (mousePacket data s).backBuffer =
    cursorDraw (mousePacket data s).cursorPx (mousePacket data s).cursorPy
      (cursorRestore s.cursorPx s.cursorPy s.cursorBg s.backBuffer) := by
  simp only [mousePacket, mouseDrawCursor_run, mouseMove]

theorem mousePacket_cursorBg (data : UInt8) (s : Mouse) : (mousePacket data s).cursorBg =
    cursorSave (mousePacket data s).cursorPx (mousePacket data s).cursorPy
      (cursorRestore s.cursorPx s.cursorPy s.cursorBg s.backBuffer) s.cursorBg := by
  simp only [mousePacket, mouseDrawCursor_run, mouseMove]

theorem mousePacket_screen (data : UInt8) (s : Mouse) :
    (mousePacket data s).screen = graphicsFlip (mousePacket data s).backBuffer s.screen := by
  simp only [mousePacket, mouseDrawCursor_run, mouseMove]

/-- A packet, at a byte that is under the pointer neither before nor behind it. -/
theorem mousePacket_apart {data : UInt8} (hnext : Follows bytes (mousePacket data s))
    (hold : under s.cursorPx s.cursorPy n = false)
    (hnew : under (mousePacket data s).cursorPx (mousePacket data s).cursorPy n = false) :
    (mousePacket data s).backBuffer n = s.backBuffer n := by
  obtain ⟨hx, hy⟩ := hnext.nonneg
  rw [mousePacket_backBuffer, cursorDraw_at hx hy, if_neg (Bool.eq_false_iff.1 hnew),
    cursorRestore_at (kept_of_not_under hold (s.backBuffer n) _), ite_self]

/-- The cursor is drawn over the byte, and what it was is kept. -/
structure Covered (n : Int) (v : UInt8) (s : Mouse) : Prop where
  buffer : s.backBuffer n = if under s.cursorPx s.cursorPy n then 15 else v
  kept : Kept s.cursorPx s.cursorPy n v s.cursorBg

theorem Covered.packet (h : Covered n v s) {data : UInt8}
    (hnext : Follows bytes (mousePacket data s)) : Covered n v (mousePacket data s) := by
  obtain ⟨hx, hy⟩ := hnext.nonneg
  have hrestored : cursorRestore s.cursorPx s.cursorPy s.cursorBg s.backBuffer n = v := by
    rw [cursorRestore_at h.kept, h.buffer]
    split <;> rfl
  refine ⟨?_, ?_⟩
  · rw [mousePacket_backBuffer, cursorDraw_at hx hy, hrestored]
  · rw [mousePacket_cursorBg, ← hrestored]
    exact cursorSave_kept _ _ _ _ _

/-- The byte on the screen, too. -/
structure Shown (n : Int) (v : UInt8) (s : Mouse) : Prop extends Covered n v s where
  screen : s.screen n.toNat = s.backBuffer n

theorem graphicsFlip_at {buf : Graphics.Memory} {screen : ℕ → UInt8} (h : 0 ≤ n ∧ n < 64000) :
    graphicsFlip buf screen n.toNat = buf n := by
  rw [graphicsFlip, if_pos (by omega), Int.toNat_of_nonneg h.1]

theorem Shown.packet (hn : 0 ≤ n ∧ n < 64000) (h : Shown n v s) {data : UInt8}
    (hnext : Follows bytes (mousePacket data s)) : Shown n v (mousePacket data s) where
  toCovered := h.toCovered.packet hnext
  screen := by rw [mousePacket_screen, graphicsFlip_at hn]

/-- A byte stays shown, whatever the mouse does. -/
theorem Shown.irqs (hn : 0 ≤ n ∧ n < 64000) {events : List MouseEvent}
    (hirqs : ∀ e ∈ events, e.drawn = none) (h : Follows bytes s) (hs : Shown n v s) :
    Shown n v (runEvents s events) := by
  induction events generalizing bytes s with
  | nil => exact hs
  | cons e events ih =>
    refine ih (fun e he => hirqs e (List.mem_cons_of_mem _ he)) (h.event e) ?_
    cases e with
    | step t => cases hirqs _ List.mem_cons_self
    | irq status data =>
      rcases mouseIrqHandler_cases h status data with
        ⟨-, hsame⟩ | ⟨-, -, _, _, hrun, -⟩ | ⟨-, -, hrun, hnext⟩
      · rw [MouseEvent.run, hsame]
        exact hs
      · rw [MouseEvent.run, hrun]
        exact ⟨⟨hs.buffer, hs.kept⟩, hs.screen⟩
      · rw [MouseEvent.run, hrun]
        exact hs.packet hn hnext

end Picture

/-! ## A redraw that is interrupted -/

/-- Each packet that is complete in the events leaves the point out: the pointer is not on it, before
the packet and behind it. -/
def Apart (p : UInt32 × UInt32) (bytes : List UInt8) (events : List MouseEvent) : Prop :=
  ∀ pre e, pre ++ [e] <+: events →
    packets (bytes ++ bytesOf (pre ++ [e])) ≠ packets (bytes ++ bytesOf pre) →
      ¬(pointerAfter (bytes ++ bytesOf pre)).On p ∧
        ¬(pointerAfter (bytes ++ bytesOf (pre ++ [e]))).On p

section Redraw

variable {p : UInt32 × UInt32} {events events' : List MouseEvent} {v : UInt8}

theorem Apart.left (h : Apart p bytes (events ++ events')) : Apart p bytes events :=
  fun pre e hpre => h pre e (hpre.trans (List.prefix_append _ _))

theorem Apart.right (h : Apart p bytes (events ++ events')) :
    Apart p (bytes ++ bytesOf events) events' := by
  intro pre e hpre hpackets
  have hwhole : events ++ pre ++ [e] <+: events ++ events' := by
    rw [List.append_assoc]
    exact (List.prefix_append_right_inj events).2 hpre
  have hbytes : ∀ pre : List MouseEvent,
      bytes ++ bytesOf events ++ bytesOf pre = bytes ++ bytesOf (events ++ pre) := fun pre => by
    rw [bytesOf, bytesOf, bytesOf, List.filterMap_append, List.append_assoc]
  rw [hbytes, hbytes, ← List.append_assoc] at hpackets ⊢
  exact h _ _ hwhole hpackets

/-- What an interrupt leaves of a byte whose point is left out. -/
theorem irq_apart (hp : OnScreen p) {status data : UInt8} (h : Follows bytes s)
    (hapart : Apart p bytes [.irq status data]) {Q : Mouse → Prop}
    (hwait : ∀ mouseByte mouseCycle,
      Q { s with mouseByte := mouseByte, mouseCycle := mouseCycle })
    (hpacket : under (mousePacket data s).cursorPx (mousePacket data s).cursorPy (place p) = false →
      (mousePacket data s).backBuffer (place p) = s.backBuffer (place p) →
      under s.cursorPx s.cursorPy (place p) = false → Q (mousePacket data s)) :
    Q (mouseIrqHandler status data s) := by
  rcases mouseIrqHandler_cases h status data with
    ⟨-, hsame⟩ | ⟨-, -, _, _, hrun, -⟩ | ⟨hbyte, hpackets, hrun, hnext⟩
  · rw [hsame]
    exact hwait s.mouseByte s.mouseCycle
  · rw [hrun]
    exact hwait _ _
  · have hoff := hapart [] (.irq status data) (List.prefix_rfl)
    rw [List.nil_append, bytesOf_one hbyte, bytesOf, List.filterMap_nil, List.append_nil] at hoff
    obtain ⟨hold, hnew⟩ := hoff hpackets
    rw [← h.under_iff hp, Bool.not_eq_true] at hold
    rw [← hnext.under_iff hp, Bool.not_eq_true] at hnew
    rw [hrun]
    exact hpacket hnew (mousePacket_apart hnext hold hnew) hold

/-- Interrupts that leave the point out keep what is known of its byte. -/
def Steady (p : UInt32 × UInt32) (Q : Mouse → Prop) : Prop :=
  ∀ events bytes s, (∀ e ∈ events, e.drawn = none) → Follows bytes s → Apart p bytes events →
    Q s → Q (runEvents s events)

theorem steady (hp : OnScreen p) {Q : Mouse → Prop}
    (hwait : ∀ s mouseByte mouseCycle, Q s →
      Q { s with mouseByte := mouseByte, mouseCycle := mouseCycle })
    (hpacket : ∀ s data, Q s →
      under (mousePacket data s).cursorPx (mousePacket data s).cursorPy (place p) = false →
      (mousePacket data s).backBuffer (place p) = s.backBuffer (place p) →
      under s.cursorPx s.cursorPy (place p) = false → Q (mousePacket data s)) : Steady p Q := by
  intro events bytes s hirqs h hapart hs
  induction events generalizing bytes s with
  | nil => exact hs
  | cons e events ih =>
    have hfirst : Apart p bytes ([e] ++ events) := hapart
    refine ih _ _ (fun e he => hirqs e (List.mem_cons_of_mem _ he)) (h.event e) hfirst.right ?_
    cases e with
    | step t => cases hirqs _ List.mem_cons_self
    | irq status data =>
      exact irq_apart hp h hfirst.left (fun _ _ => hwait _ _ _ hs) (hpacket _ _ hs)

/-- The pixels of a redraw that is interrupted. -/
theorem puts_apart (hp : OnScreen p) {pixels : List PutPixel}
    (hputs : events.filterMap MouseEvent.drawn = pixels.map .put) (h : Follows bytes s)
    (hapart : Apart p bytes events) :
    (runEvents s events).backBuffer (place p) = putPixels s.backBuffer pixels (place p) := by
  induction events generalizing bytes s pixels with
  | nil =>
    obtain rfl := List.map_eq_nil_iff.1 hputs.symm
    rfl
  | cons e events ih =>
    have hfirst : Apart p bytes ([e] ++ events) := hapart
    cases e with
    | irq status data =>
      refine (ih hputs (h.event _) hfirst.right).trans (Graphics.putPixels_congr ?_)
      exact irq_apart (Q := fun s' => s'.backBuffer (place p) = s.backBuffer (place p)) hp h
        hfirst.left (fun _ _ => rfl) fun _ hsame _ => hsame
    | step t =>
      cases pixels with
      | nil => cases hputs
      | cons q pixels =>
        obtain ⟨rfl, hrest⟩ := List.cons.inj hputs
        exact ih hrest (h.event _) hfirst.right

/-- The interrupts up to a step of the desktop, and the step. -/
theorem Steady.step {Q R : Mouse → Prop} (hsteady : Steady p Q) {t : DrawStep}
    {rest : List DrawStep} (hdrawn : events.filterMap MouseEvent.drawn = t :: rest)
    (hstep : ∀ bytes s, Follows bytes s → Q s → R (t.run s)) (h : Follows bytes s)
    (hapart : Apart p bytes events) (hs : Q s) :
    ∃ done later, events = done ++ later ∧ later.filterMap MouseEvent.drawn = rest ∧
      R (runEvents s done) := by
  obtain ⟨irqs, e, later, rfl, hirqs, he, hlater⟩ := List.filterMap_eq_cons_iff.1 hdrawn
  cases e with
  | irq status data => cases he
  | step t' =>
    obtain rfl := Option.some_injective _ he
    refine ⟨irqs ++ [.step t'], later, ?_, hlater, ?_⟩
    · rw [List.append_assoc, List.singleton_append]
    rw [runEvents, List.foldl_append]
    exact hstep _ _ (h.run irqs) (hsteady _ _ _ hirqs h hapart.left hs)

/-- The cursor is drawn, with interrupts before, between and behind its steps. -/
theorem drawCursor_apart (hp : OnScreen p)
    (hcursor : events.filterMap MouseEvent.drawn = mouseDrawCursor) (h : Follows bytes s)
    (hapart : Apart p bytes events) (hs : s.backBuffer (place p) = v) :
    Shown (place p) v (runEvents s events) := by
  have hplain : Steady p fun s => s.backBuffer (place p) = v :=
    steady hp (fun _ _ _ hs => hs) fun _ _ hs _ hsame _ => hsame.trans hs
  have hkept : Steady p fun s =>
      s.backBuffer (place p) = v ∧ Kept s.cursorPx s.cursorPy (place p) v s.cursorBg :=
    steady hp (fun _ _ _ hs => hs)
      fun _ _ hs hoff hsame _ => ⟨hsame.trans hs.1, kept_of_not_under hoff _ _⟩
  have hcovered : Steady p (Covered (place p) v) :=
    steady hp (fun _ _ _ hs => ⟨hs.1, hs.2⟩) fun s data hs hoff hsame hold => by
      refine ⟨?_, kept_of_not_under hoff _ _⟩
      rw [hsame, hs.buffer, hold, hoff]
  obtain ⟨saved, later, rfl, hlater, hs⟩ := hplain.step hcursor (R := fun s =>
      s.backBuffer (place p) = v ∧ Kept s.cursorPx s.cursorPy (place p) v s.cursorBg)
    (fun _ s _ hs => ⟨hs, hs ▸ cursorSave_kept _ _ _ _ _⟩) h hapart hs
  obtain ⟨drawn, later, rfl, hlater, hs⟩ := hkept.step hlater (R := Covered (place p) v)
    (fun _ s h hs => ⟨by rw [← hs.1]; exact cursorDraw_at h.nonneg.1 h.nonneg.2 _ _, hs.2⟩)
    (h.run saved) hapart.right hs
  obtain ⟨flipped, later, rfl, hlater, hs⟩ := hcovered.step hlater (R := Shown (place p) v)
    (fun _ s _ hs => ⟨⟨hs.1, hs.2⟩, graphicsFlip_at (Graphics.place_mem hp)⟩)
    ((h.run saved).run drawn) hapart.right.right hs
  have hirqs : ∀ e ∈ later, e.drawn = none := List.filterMap_eq_nil_iff.1 hlater
  have hend := hs.irqs (Graphics.place_mem hp) hirqs (((h.run saved).run drawn).run flipped)
  simpa only [runEvents, List.foldl_append] using hend

end Redraw

/-! ## Where the pointer is, and what is shown -/

/-- Bytes beside the buffer. -/
theorem run_outside (h : Follows bytes s) {n : Int} (hn : n < 0 ∨ 64000 ≤ n)
    (events : List MouseEvent) : (runEvents s events).backBuffer n = s.backBuffer n := by
  induction events generalizing bytes s with
  | nil => rfl
  | cons e events ih =>
    have hunder : ∀ {bytes s}, Follows bytes s → under s.cursorPx s.cursorPy n = false :=
      fun h => under_outside h.nonneg.1 h.nonneg.2 hn
    refine (ih (h.event e)).trans ?_
    cases e with
    | step t =>
      cases t with
      | put q => exact @Graphics.putPixels_outside [q] n hn _
      | draw =>
        refine (cursorDraw_at h.nonneg.1 h.nonneg.2 _ n).trans ?_
        rw [if_neg (Bool.eq_false_iff.1 (hunder h))]
      | save => rfl
      | flip => rfl
    | irq status data =>
      rcases mouseIrqHandler_cases h status data with
        ⟨-, hsame⟩ | ⟨-, -, _, _, hrun, -⟩ | ⟨-, -, hrun, hnext⟩
      · rw [MouseEvent.run, hsame]
      · rw [MouseEvent.run, hrun]
      · rw [MouseEvent.run, hrun, mousePacket_apart hnext (hunder h) (hunder hnext)]

/-- Whatever the bytes and the steps of the desktop between them are, the position and the buttons
are those of the packets, the position is on the screen, and nothing beside the buffer is written. -/
theorem mouse_follows (events : List MouseEvent) (backBuffer : Graphics.Memory)
    (screen : ℕ → UInt8) :
    let s := runEvents (.boot backBuffer screen) events
    let v := (packets (bytesOf events)).foldl Pointer.apply .start
    (s.mouseX = v.x ∧ s.mouseY = v.y ∧ s.mouseButtons = v.buttons ∧ s.mouseClicked = v.clicked) ∧
      ((0 ≤ v.x ∧ v.x ≤ 319) ∧ 0 ≤ v.y ∧ v.y ≤ 199) ∧
        ∀ n : Int, n < 0 ∨ 64000 ≤ n → s.backBuffer n = backBuffer n := by
  have h := (follows_boot backBuffer screen).run events
  rw [List.nil_append] at h
  exact ⟨⟨h.mouseX, h.mouseY, h.mouseButtons, h.mouseClicked⟩, pointerAfter_within _,
    fun n hn => run_outside (follows_boot backBuffer screen) hn events⟩

/-- The desktop redraws the screen, with the mouse before any step. Behind that, whatever the mouse
does, a point shows the last call on it, or the pointer, unless a packet has come during the redraw
that found or left the pointer on the point. -/
theorem mouse_shown {before during after : List MouseEvent} {calls : List Call}
    {p : UInt32 × UInt32} {c : Call} (hp : OnScreen p)
    (hredraw : during.filterMap MouseEvent.drawn =
      (calls.flatMap Call.pixels).map .put ++ mouseDrawCursor)
    (hc : lastOn calls p = some c) (hapart : Apart p (bytesOf before) during)
    (hafter : ∀ e ∈ after, e.drawn = none) (backBuffer : Graphics.Memory) (screen : ℕ → UInt8) :
    (runEvents (.boot backBuffer screen) (before ++ during ++ after)).screen (place p).toNat =
      if (pointerAfter (bytesOf (before ++ during ++ after))).On p then 15 else c.paint p := by
  have h := (follows_boot backBuffer screen).run before
  have hend := (follows_boot backBuffer screen).run (before ++ during ++ after)
  rw [List.nil_append] at h hend
  obtain ⟨puts, cursor, rfl, hputs, hcursor⟩ := List.filterMap_eq_append_iff.1 hredraw
  have hput := puts_apart hp hputs h hapart.left
  rw [← Desktop.draw_eq_putPixels, Desktop.draw_place hp, hc] at hput
  have hshown := drawCursor_apart hp hcursor (h.run puts) hapart.right hput
  have hlast := hshown.irqs (Graphics.place_mem hp) hafter ((h.run puts).run cursor)
  have hrun : runEvents (.boot backBuffer screen) (before ++ (puts ++ cursor) ++ after) =
      runEvents (runEvents (runEvents (runEvents (.boot backBuffer screen) before) puts) cursor)
        after := by
    simp only [runEvents, List.foldl_append]
  rw [← hrun] at hlast
  rw [hlast.screen, hlast.buffer, if_congr (hend.under_iff hp) rfl rfl]
  rfl

/-- A redraw of one pixel, with the first two bytes of a packet during it and the last behind it. -/
def pixelDrawn : List MouseEvent :=
  [.step (.put ⟨5, 5, 3⟩), .irq 0x21 0x08, .step .save, .irq 0x21 5, .step .draw, .step .flip]

theorem mouse_shown_pixel : (runEvents (.boot (fun _ => 0) fun _ => 0)
    ([] ++ pixelDrawn ++ [.irq 0x21 1])).screen (place (5, 5)).toNat =
      if (pointerAfter (bytesOf ([] ++ pixelDrawn ++ [.irq 0x21 1]))).On (5, 5) then 15 else 3 := by
  have hnone : ∀ events ∈ pixelDrawn.inits, packets (bytesOf events) = [] := by decide
  have hredraw : pixelDrawn.filterMap MouseEvent.drawn =
      ([Call.pixel ⟨5, 5, 3⟩].flatMap Call.pixels).map .put ++ mouseDrawCursor := rfl
  refine mouse_shown (c := .pixel ⟨5, 5, 3⟩) (by decide) hredraw rfl ?_ ?_ _ _
  · intro pre e hpre hpackets
    have hprefix : pre <+: pixelDrawn := (List.prefix_append pre [e]).trans hpre
    exact absurd ((hnone _ ((List.mem_inits _ _).2 hpre)).trans
      (hnone _ ((List.mem_inits _ _).2 hprefix)).symm) hpackets
  · simp [MouseEvent.drawn]

end MinervaOS.Devices
