import MinervaOS.Lib.DoublyLinked
import MinervaOS.Lib.Prog

/-!
# Windows

The windows live on the heap, and a pointer to one is its address. Whatever reads or writes a window
goes through `deref` and `store`, which do not return on an address that holds no window: a run that
returns has used no window after it was destroyed, nor before it was created.

What a window looks like (its title, its colours and what is drawn) is left out; drawing one reads
it.
-/

namespace MinervaOS.Desktop

open Prog

/-- A `window_t *`; `none` is a null pointer. -/
abbrev Ptr := Option Nat

/-- `window_t`. -/
structure Window where
  x : UInt32
  y : UInt32
  width : UInt32
  height : UInt32
  focused : Bool
  minimized : Bool
  themedBg : Bool
  themedTitle : Bool
  prev : Ptr
  next : Ptr

/-- The static variables that point to the window of an application. -/
inductive Holder where
  /-- `g_tw.win` of the terminal -/
  | terminal
  /-- `g_about` -/
  | about
  /-- `g_editor.win` -/
  | editor
  /-- `g_viewer.win` -/
  | viewer
  /-- `g_player.win` -/
  | player
  /-- `g_browser.win` -/
  | browser
  deriving DecidableEq

/-- The state of the user interface. -/
structure Ui where
  /-- The windows that were created and not destroyed, by address. -/
  heap : Nat → Option Window
  /-- What `kmalloc` will return. -/
  grants : List Ptr
  windowListHead : Ptr
  focusedWindow : Ptr
  dragWin : Ptr
  dragOffX : Int32
  dragOffY : Int32
  prevBtns : UInt8
  win : Holder → Ptr
  /-- Whether `g_tw` of the kernel points to the terminal. -/
  gTw : Bool

/-! ## Memory -/

/-- An address that is in use is not granted; that is what the heap is proved to do. -/
def kmalloc : Prog Ui Ptr := do
  let s ← get
  match s.grants with
  | [] => return none
  | p :: grants =>
    set { s with grants := grants }
    return p.filter fun a => (s.heap a).isNone

/-- `kfree` of the block of a window. -/
def kfree (win : Ptr) : Prog Ui Unit :=
  modify fun s => { s with heap := fun a => if some a = win then none else s.heap a }

/-- A read of the window. -/
def deref (win : Ptr) : Prog Ui Window := do
  match win.bind (← get).heap with
  | none => failure
  | some w => return w

/-- The state after a write to the window. -/
def Ui.write (s : Ui) (win : Ptr) (f : Window → Window) : Ui :=
  { s with heap := fun a => if some a = win then (s.heap a).map f else s.heap a }

/-- A write to the window. -/
def store (win : Ptr) (f : Window → Window) : Prog Ui Unit := do
  let _ ← deref win
  modify fun s => s.write win f

/-! ## `window.c` -/

def windowManagerInit : Prog Ui Unit :=
  modify fun s => { s with windowListHead := none, focusedWindow := none }

/-- What `window_create` writes into the block. -/
def newWindow (x y width height : UInt32) : Window where
  x := x
  y := y
  width := width
  height := height
  focused := false
  minimized := false
  themedBg := true
  themedTitle := true
  prev := none
  next := none

def windowCreate (x y width height : UInt32) : Prog Ui Ptr := do
  match ← kmalloc with
  | none => return none
  | some a =>
    modify fun s => { s with heap := Function.update s.heap a (some (newWindow x y width height)) }
    return some a

/-- What `window_manager_remove` does to the list. -/
def unlink (win : Ptr) : Prog Ui Unit := do
  if win = (← get).windowListHead then
    let w ← deref win
    modify fun s => { s with windowListHead := w.next }
    when w.next.isSome do store w.next fun n => { n with prev := none }
  else
    let w ← deref win
    when w.prev.isSome do store w.prev fun p => { p with next := w.next }
    let w ← deref win
    when w.next.isSome do store w.next fun n => { n with prev := w.prev }

def windowManagerRemove (win : Ptr) : Prog Ui Unit := do
  if win.isNone || (← get).windowListHead.isNone then return
  unlink win
  when ((← get).focusedWindow = win) do
    modify fun s => { s with focusedWindow := s.windowListHead }

def windowDestroy (win : Ptr) : Prog Ui Unit := do
  if win.isNone then return
  windowManagerRemove win
  kfree win

def windowSetBgColor (win : Ptr) : Prog Ui Unit := do
  if win.isNone then return
  store win fun w => { w with themedBg := false }

def windowSetTitleColor (win : Ptr) : Prog Ui Unit := do
  if win.isNone then return
  store win fun w => { w with themedTitle := false }

/-- `window_draw_char`, `window_draw_string`, `window_fill_rect` and `window_clear`. -/
def windowDraw (win : Ptr) : Prog Ui Unit := do
  if win.isNone then return
  let _ ← deref win
  return

def windowRaise (win : Ptr) : Prog Ui Unit := do
  if win.isNone || (← get).windowListHead.isNone then return
  if win = (← get).windowListHead then return
  let w ← deref win
  when w.next.isSome do store w.next fun n => { n with prev := w.prev }
  let w ← deref win
  when w.prev.isSome do store w.prev fun p => { p with next := w.next }
  let head := (← get).windowListHead
  store head fun h => { h with prev := win }
  store win fun w => { w with next := head }
  store win fun w => { w with prev := none }
  modify fun s => { s with windowListHead := win }

def windowSetFocus (win : Ptr) : Prog Ui Unit := do
  let focused := (← get).focusedWindow
  when focused.isSome do store focused fun w => { w with focused := false }
  when win.isSome do
    modify fun s => { s with focusedWindow := win }
    store win fun w => { w with focused := true }
    windowRaise win

def windowManagerAdd (win : Ptr) : Prog Ui Unit := do
  if win.isNone then return
  let head := (← get).windowListHead
  if head.isNone then
    modify fun s => { s with windowListHead := win }
    store win fun w => { w with prev := none }
    store win fun w => { w with next := none }
  else
    store win fun w => { w with next := head }
    store head fun h => { h with prev := win }
    store win fun w => { w with prev := none }
    modify fun s => { s with windowListHead := win }

def windowRender (win : Ptr) : Prog Ui Unit := do
  if win.isNone then return
  let w ← deref win
  when (!w.minimized) do windowDraw win

def windowSetPos (win : Ptr) (x y : UInt32) : Prog Ui Unit := do
  if win.isNone then return
  store win fun w => { w with x := x }
  store win fun w => { w with y := y }

def windowToggleMinimize (win : Ptr) : Prog Ui Unit := do
  when win.isSome do store win fun w => { w with minimized := !w.minimized }

/-- `window_is_minimized`, `window_get_x` and the other accessors: 0 of a null pointer. -/
def windowGet {α : Type} (zero : α) (field : Window → α) (win : Ptr) : Prog Ui α := do
  if win.isNone then return zero
  return field (← deref win)

def windowIsMinimized : Ptr → Prog Ui Bool := windowGet false Window.minimized
def windowGetX : Ptr → Prog Ui UInt32 := windowGet 0 Window.x
def windowGetY : Ptr → Prog Ui UInt32 := windowGet 0 Window.y
def windowGetWidth : Ptr → Prog Ui UInt32 := windowGet 0 Window.width
def windowGetHeight : Ptr → Prog Ui UInt32 := windowGet 0 Window.height
def windowGetNext : Ptr → Prog Ui Ptr := windowGet none Window.next

def windowManagerGetHead : Prog Ui Ptr := return (← get).windowListHead

/-- More steps than there are addresses: a walk of the windows that takes them all goes on for ever.
-/
def walkSteps : Nat := 4294967297

/-- The walk to the tail of the list. -/
def walkToTail : Nat → Ptr → Ptr → Prog Ui Ptr
  | 0, _, _ => failure
  | steps + 1, tail, win => do
    if win.isNone then return tail
    let w ← deref win
    walkToTail steps win w.next

/-- The walk back to the head, each window drawn over those behind it. -/
def renderBack : Nat → Ptr → Prog Ui Unit
  | 0, _ => failure
  | steps + 1, win => do
    if win.isNone then return
    windowRender win
    let w ← deref win
    renderBack steps w.prev

def windowManagerRenderAll : Prog Ui Unit := do
  let tail ← walkToTail walkSteps none (← get).windowListHead
  renderBack walkSteps tail

end MinervaOS.Desktop
