import MinervaOS.Desktop.Applications

/-!
# The desktop

`desktop.c`, with the callbacks and the icons that `kernel_main` registers, and one turn of the main
loop. What the user does in a turn, and what an application makes of it apart from its windows
(whether a click in the page hits a link, what the line entered in the terminal opens), is the input
of the turn.
-/

namespace MinervaOS.Desktop

open Prog

def taskbarY : Int32 := 184
def btnW : Int32 := 16
def taskBtnW : Int32 := 58
def taskBtnGap : Int32 := 2
def iconW : Int32 := 16
def iconH : Int32 := 16
def titlebarHeight : Int32 := 16
def windowBorder : Int32 := 1

/-- The commands of the terminal that open an application. -/
inductive Command where
  /-- `edit`, and `app run` of an entry that is launched by the editor -/
  | edit
  /-- `view`, and `app run` by the viewer -/
  | view
  /-- `play`, and `app run` by the player -/
  | play
  /-- `browser`, with an address or without -/
  | browser
  /-- `app run` by the browser -/
  | appBrowser

/-- What a turn of the main loop finds. -/
structure Input where
  /-- `mouse_get_buttons` -/
  btns : UInt8
  /-- `mouse_get_x` -/
  mx : Int32
  /-- `mouse_get_y` -/
  my : Int32
  /-- The key, if there is one. -/
  key : Option UInt8
  /-- Whether the page of the browser has a link where the click is. -/
  link : Bool
  /-- What the line in the terminal opens. -/
  command : Option Command
  /-- Whether the browser takes the key for its home page. -/
  home : Bool

/-! ## Drawing -/

/-- The buttons of the taskbar, as far as they fit. -/
def drawTaskbar : Nat → Int32 → Ptr → Prog Ui Unit
  | 0, _, _ => failure
  | steps + 1, bx, w => do
    if w.isSome ∧ bx + taskBtnW < 320 then
      windowDraw w
      let next ← windowGetNext w
      drawTaskbar steps (bx + (taskBtnW + taskBtnGap)) next

def desktopRedraw : Prog Ui Unit := do
  windowManagerRenderAll
  renderAll
  drawTaskbar walkSteps taskBtnGap (← windowManagerGetHead)

/-! ## Clicks -/

def inRect (mx my rx ry rw rh : Int32) : Bool :=
  mx ≥ rx && mx < rx + rw && my ≥ ry && my < ry + rh

/-- The walk of `taskbar_click` from a window on, whose button is at `bx`. -/
def taskbarClickFrom : Nat → Int32 → Int32 → Ptr → Prog Ui Unit
  | 0, _, _, _ => failure
  | steps + 1, mx, bx, w => do
    if w.isNone then return
    if mx ≥ bx ∧ mx < bx + taskBtnW then
      when (← windowIsMinimized w) do windowToggleMinimize w
      windowSetFocus w
    else
      let next ← windowGetNext w
      taskbarClickFrom steps mx (bx + (taskBtnW + taskBtnGap)) next

def taskbarClick (mx : Int32) : Prog Ui Unit := do
  taskbarClickFrom walkSteps mx taskBtnGap (← windowManagerGetHead)

def contentClicked (link : Bool) (win : Ptr) (x y : Int32) : Prog Ui Unit := do
  let browser := (← get).win .browser
  if browser.isSome ∧ win = browser then
    let handled ← browserHandleClick link x y
    when handled desktopRedraw

/-- What a click on a window does, whose place was read before. -/
def windowClicked (link : Bool) (mx my : Int32) (w : Ptr) (wx wy ww : Int32) : Prog Ui Unit := do
  windowSetFocus w
  if inRect mx my (wx + ww - btnW) wy btnW titlebarHeight then
    when ((← get).dragWin = w) do modify fun s => { s with dragWin := none }
    windowClosed w
    windowDestroy w
  else if inRect mx my (wx + ww - btnW * 2) wy btnW titlebarHeight then
    windowToggleMinimize w
  else if my < wy + titlebarHeight then
    modify fun s => { s with dragWin := w, dragOffX := mx - wx, dragOffY := my - wy }
  else
    contentClicked link w (mx - wx - windowBorder) (my - wy - titlebarHeight - windowBorder)

/-- The walk of `window_click` from a window on; whether one was hit. -/
def windowClickFrom (link : Bool) (mx my : Int32) : Nat → Ptr → Prog Ui Bool
  | 0, _ => failure
  | steps + 1, w => do
    if w.isNone then return false
    if ← windowIsMinimized w then
      let next ← windowGetNext w
      windowClickFrom link mx my steps next
    else
      let wx := (← windowGetX w).toInt32
      let wy := (← windowGetY w).toInt32
      let ww := (← windowGetWidth w).toInt32
      let wh := (← windowGetHeight w).toInt32
      if !inRect mx my wx wy ww wh then
        let next ← windowGetNext w
        windowClickFrom link mx my steps next
      else
        windowClicked link mx my w wx wy ww
        return true

def windowClick (link : Bool) (mx my : Int32) : Prog Ui Bool := do
  windowClickFrom link mx my walkSteps (← windowManagerGetHead)

/-! ## Public functions -/

/-- The icons that `kernel_main` adds, by their place. -/
def icons : List (Int32 × Int32 × Prog Ui Unit) :=
  [(4, 8, openTerminal), (4, 40, openAbout), (4, 72, openEditor), (4, 104, openImageViewer),
    (4, 136, openAudioPlayer), (40, 8, openBrowser)]

/-- The first icon under the pointer; whether there is one. -/
def iconClick (mx my : Int32) : List (Int32 × Int32 × Prog Ui Unit) → Prog Ui Bool
  | [] => return false
  | (x, y, onClick) :: icons => do
    if inRect mx my x y iconW (iconH + 8) then
      onClick
      return true
    else
      iconClick mx my icons

def desktopInit : Prog Ui Unit :=
  modify fun s => { s with dragWin := none, prevBtns := 0 }

/-- A drag in progress. -/
def drag (btns : UInt8) (mx my : Int32) : Prog Ui Bool := do
  let s ← get
  if btns &&& 1 ≠ 0 ∧ s.dragWin.isSome then
    let nx := mx - s.dragOffX
    let ny := my - s.dragOffY
    let maxX := 319 - (← windowGetWidth s.dragWin).toInt32
    let maxY := taskbarY - (← windowGetHeight s.dragWin).toInt32
    let nx := if nx < 0 then 0 else nx
    let ny := if ny < 0 then 0 else ny
    let nx := if nx > maxX then maxX else nx
    let ny := if ny > maxY then maxY else ny
    windowSetPos s.dragWin nx.toUInt32 ny.toUInt32
    return true
  return false

/-- A press of the first button. -/
def press (link : Bool) (mx my : Int32) : Prog Ui Bool := do
  if my ≥ taskbarY then
    taskbarClick mx
    return true
  else
    let hit ← windowClick link mx my
    if hit then return true
    iconClick mx my icons

def desktopProcess (i : Input) : Prog Ui Bool := do
  let prevBtns := (← get).prevBtns
  let pressed := i.btns &&& ~~~prevBtns
  let released := ~~~i.btns &&& prevBtns
  modify fun s => { s with prevBtns := i.btns }
  let dragged ← drag i.btns i.mx i.my
  when (released &&& 1 ≠ 0) do modify fun s => { s with dragWin := none }
  if pressed &&& 1 ≠ 0 then
    let clicked ← press i.link i.mx i.my
    return dragged || clicked
  return dragged

/-! ## The main loop -/

/-- `tw_exec`, as far as it opens applications. -/
def twExec : Command → Prog Ui Unit
  | .edit => do let _ ← textEditorOpenFile 82 20
  | .view => do let _ ← imageViewerOpenFile 96 28
  | .play => do let _ ← audioPlayerOpenFile 92 42
  | .browser => do let _ ← browserOpenUrl 72 22
  | .appBrowser => do let _ ← browserOpenUrl 76 26

def termWindowHandleKey (command : Option Command) (c : UInt8) : Prog Ui Unit :=
  match command with
  | none => return
  | some command => when (c = 10) (twExec command)

/-- Whether the keys go to an application that is active: its window is in front, and shown. -/
def takesKeys (active : Bool) (p : Ptr) : Prog Ui Bool := do
  if active ∧ (← windowManagerGetHead) = p then
    return !(← windowIsMinimized p)
  return false

def handleKey (i : Input) (c : UInt8) : Prog Ui Unit := do
  let s ← get
  if ← takesKeys s.gTw (s.win .terminal) then
    termWindowHandleKey i.command c
    desktopRedraw
  else if ← takesKeys (s.win .editor).isSome (s.win .editor) then
    textEditorHandleKey
    desktopRedraw
  else if ← takesKeys (s.win .browser).isSome (s.win .browser) then
    browserHandleKey i.home
    desktopRedraw

/-- One turn of `desktop_main_loop`. -/
def desktopMainLoop (i : Input) : Prog Ui Unit := do
  let dirty ← desktopProcess i
  when dirty desktopRedraw
  match i.key with
  | none => return
  | some c => handleKey i c

/-- `kernel_main` from `desktop_init` on. -/
def kernelMain : Prog Ui Unit := do
  desktopInit
  windowManagerInit
  createAbout true
  when (← get).gTw do windowSetFocus ((← get).win .terminal)
  desktopRedraw

/-- Static storage, and what the allocator is going to grant. -/
def Ui.start (grants : List Ptr) : Ui where
  heap := fun _ => none
  grants := grants
  windowListHead := none
  focusedWindow := none
  dragWin := none
  dragOffX := 0
  dragOffY := 0
  prevBtns := 0
  win := fun _ => none
  gTw := false

end MinervaOS.Desktop
