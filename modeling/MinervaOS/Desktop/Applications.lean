import MinervaOS.Desktop.Windows

/-!
# The applications

The applications as far as they use windows, and the functions of `kernel.c` that open, draw and
close them. What an application shows in its window is left out.
-/

namespace MinervaOS.Desktop

open Prog

/-- The assignment of a static variable that points to a window. -/
def setWin (h : Holder) (p : Ptr) : Prog Ui Unit :=
  modify fun s => { s with win := Function.update s.win h p }

/-! ## Applications -/

def termWindowCreate (x y : UInt32) : Prog Ui Bool := do
  let p ← windowCreate x y 200 100
  setWin .terminal p
  if p.isNone then return false
  windowSetBgColor p
  windowSetTitleColor p
  return true

/-- `text_editor_create`, `image_viewer_create` and `audio_player_create`, which differ in the size
of the window; a window that is there already is kept. -/
def create (h : Holder) (width height x y : UInt32) : Prog Ui Bool := do
  if ((← get).win h).isSome then return true
  let p ← windowCreate x y width height
  setWin h p
  if p.isNone then return false
  windowSetBgColor p
  windowSetTitleColor p
  return true

def textEditorCreate : UInt32 → UInt32 → Prog Ui Bool := create .editor 230 136
def imageViewerCreate : UInt32 → UInt32 → Prog Ui Bool := create .viewer 210 128
def audioPlayerCreate : UInt32 → UInt32 → Prog Ui Bool := create .player 214 118

/-- A minimized window is shown again, and gets the focus. -/
def present (h : Holder) : Prog Ui Unit := do
  when (← windowIsMinimized ((← get).win h)) do windowToggleMinimize ((← get).win h)
  windowSetFocus ((← get).win h)

/-- `text_editor_open_file`, `image_viewer_open_file` and `audio_player_open_file`. -/
def openFile (h : Holder) (width height x y : UInt32) : Prog Ui Bool := do
  let hadWindow := ((← get).win h).isSome
  if !(← create h width height x y) then return false
  when (!hadWindow) do windowManagerAdd ((← get).win h)
  present h
  return true

def textEditorOpenFile : UInt32 → UInt32 → Prog Ui Bool := openFile .editor 230 136
def imageViewerOpenFile : UInt32 → UInt32 → Prog Ui Bool := openFile .viewer 210 128
def audioPlayerOpenFile : UInt32 → UInt32 → Prog Ui Bool := openFile .player 214 118

/-- The window of the browser, created and added unless there is one. -/
def browserCreate (x y : UInt32) : Prog Ui Bool := do
  if ((← get).win .browser).isSome then return true
  let p ← windowCreate x y 236 142
  setWin .browser p
  if p.isNone then return false
  windowSetBgColor p
  windowSetTitleColor p
  windowManagerAdd p
  return true

def browserOpenUrl (x y : UInt32) : Prog Ui Bool := do
  if !(← browserCreate x y) then return false
  present .browser
  return true

def browserOpen : UInt32 → UInt32 → Prog Ui Bool := browserOpenUrl

/-- `browser_open_url` where the window is. -/
def browserFollow : Prog Ui Unit := do
  let x ← windowGetX ((← get).win .browser)
  let y ← windowGetY ((← get).win .browser)
  let _ ← browserOpenUrl x y

/-- Whether the click was on something: the status button, the address, or a link. -/
def browserHandleClick (link : Bool) (x y : Int32) : Prog Ui Bool := do
  if ((← get).win .browser).isNone then return false
  if 176 ≤ x ∧ x < 218 ∧ 8 ≤ y ∧ y < 26 then return true
  if 12 ≤ x ∧ x < 170 ∧ 8 ≤ y ∧ y < 26 then return true
  if link then
    browserFollow
    return true
  return false

/-- The only key that opens something is the one for the home page. -/
def browserHandleKey (home : Bool) : Prog Ui Unit := do
  if ((← get).win .browser).isNone then return
  when home do browserFollow

def textEditorHandleKey : Prog Ui Unit := do
  let p := (← get).win .editor
  if p.isNone then return
  let _ ← windowIsMinimized p
  return

/-- `text_editor_window_closed` and its like. -/
def appWindowClosed (h : Holder) (win : Ptr) : Prog Ui Unit := do
  when ((← get).win h = win) do setWin h none

/-- `text_editor_render` and its like. -/
def appRender (h : Holder) : Prog Ui Unit := do
  let p := (← get).win h
  if p.isNone then return
  if ← windowIsMinimized p then return
  windowDraw p

/-! ## `kernel.c` -/

def createTerminal : Prog Ui Unit := do
  if (← get).gTw then return
  let created ← termWindowCreate 50 15
  modify fun s => { s with gTw := created }
  when created do windowManagerAdd ((← get).win .terminal)

def createAbout (minimized : Bool) : Prog Ui Unit := do
  if ((← get).win .about).isSome then return
  let p ← windowCreate 10 10 130 76
  setWin .about p
  if p.isNone then return
  windowSetBgColor p
  windowManagerAdd p
  when minimized do windowToggleMinimize p

def renderAll : Prog Ui Unit := do
  when (← get).gTw do appRender .terminal
  appRender .editor
  appRender .viewer
  appRender .player
  appRender .browser
  appRender .about

def openTerminal : Prog Ui Unit := do
  when (!(← get).gTw) createTerminal
  when (← get).gTw do present .terminal

def openAbout : Prog Ui Unit := do
  when ((← get).win .about).isNone do createAbout false
  when ((← get).win .about).isSome do present .about

def openEditor : Prog Ui Unit := do let _ ← textEditorOpenFile 82 20
def openImageViewer : Prog Ui Unit := do let _ ← imageViewerOpenFile 96 28
def openAudioPlayer : Prog Ui Unit := do let _ ← audioPlayerOpenFile 92 42
def openBrowser : Prog Ui Unit := do let _ ← browserOpen 72 22

/-- What an application is told of the closing of a window. -/
def appClosed (h : Holder) (win : Ptr) : Prog Ui Unit := do
  let p := (← get).win h
  when (p.isSome ∧ win = p) do appWindowClosed h win

def windowClosed (win : Ptr) : Prog Ui Unit := do
  when ((← get).gTw ∧ win = (← get).win .terminal) do
    setWin .terminal none
    modify fun s => { s with gTw := false }
  appClosed .editor win
  appClosed .viewer win
  appClosed .player win
  appClosed .browser win
  when ((← get).win .about = win) do setWin .about none

end MinervaOS.Desktop
