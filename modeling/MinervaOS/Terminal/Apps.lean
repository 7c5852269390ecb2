import MinervaOS.Fat32.WriteModes
import MinervaOS.Lib.Lines

/-!
# The app registry

`APPS.TXT` is a line for each app: name, launcher, target and summary with bars between them. The
terminal reads it into a buffer of 512 bytes whenever it looks an app up, and adds an app by an
append to the file.
-/

namespace MinervaOS.Terminal

open Fat32 Prog

/-- The characters the registry gives a meaning to. -/
def newline : UInt8 := 0x0A
def carriageReturn : UInt8 := 0x0D
def space : UInt8 := 0x20
def hash : UInt8 := 0x23
def bar : UInt8 := 0x7C

/-- `"APPS.TXT"`. -/
def appsTxt : List UInt8 := [0x41, 0x50, 0x50, 0x53, 0x2E, 0x54, 0x58, 0x54]

/-- `file_buffer`. -/
abbrev FileBuffer := Nat → UInt8

def twLower (c : UInt8) : UInt8 := if 0x41 ≤ c && c ≤ 0x5A then c + 0x20 else c

/-- Both texts up to their terminators, which may be left out. -/
def twStreqCi : List UInt8 → List UInt8 → Bool
  | a :: left, b :: right =>
    if a != 0 && b != 0 then if twLower a != twLower b then false else twStreqCi left right
    else a == 0 && b == 0
  | left, right => left.headD 0 == 0 && right.headD 0 == 0

/-- The loop that copies into a field of `outSize` bytes until `stop`, and drops what does not fit:
the field without its terminator, and where the cursor is. -/
def copyUntil (stop : UInt8 → Bool) (outSize : Nat) :
    List UInt8 → List UInt8 → List UInt8 × List UInt8
  | [], out => (out, [])
  | c :: p, out =>
    if stop c then (out, c :: p)
    else copyUntil stop outSize p (if out.length + 1 < outSize then out ++ [c] else out)

/-- The field and the cursor behind it; `none` is a returned 0. Delimiter 0 is the end of the line.
-/
def twCopyPkgField (cursor : List UInt8) (delimiter : UInt8) (outSize : Nat) :
    Option (List UInt8 × List UInt8) :=
  let (out, p) := copyUntil (fun c => delimiter != 0 && c == delimiter) outSize cursor []
  if delimiter != 0 then
    match p with
    | [] => none
    | _ :: p => if out.length > 0 then some (out, p) else none
  else if out.length > 0 then some (out, p) else none

/-- `app_entry_t`, the fields without the zeros behind them. -/
structure AppEntry where
  name : List UInt8
  launcher : List UInt8
  target : List UInt8
  summary : List UInt8
  deriving DecidableEq

/-- `sizeof` of the fields. -/
def nameSize : Nat := 9
def launcherSize : Nat := 12
def targetSize : Nat := 64
def summarySize : Nat := 40

def twParseAppLine (line : List UInt8) : Option AppEntry := do
  if line.isEmpty || line.head? == some hash then none
  let line := if line.getLast? == some carriageReturn then line.dropLast else line
  let (name, cursor) ← twCopyPkgField line bar nameSize
  let (launcher, cursor) ← twCopyPkgField cursor bar launcherSize
  let (target, cursor) ← twCopyPkgField cursor bar targetSize
  let (summary, _) ← twCopyPkgField cursor 0 summarySize
  return ⟨name, launcher, target, summary⟩

variable (m : Mount)

/-- `*out_size`, or `none` for a returned 0, and what `file_buffer` holds. -/
def twReadAppManifest (fileBuffer : FileBuffer) : Prog Fs (Option Nat × FileBuffer) := do
  if !m.mounted then return (none, fileBuffer)
  let (ok, size, buffer) ← fsReadFile m (some appsTxt) (some fileBuffer) 511
  let fileBuffer := buffer.getD fileBuffer
  if !ok then return (none, fileBuffer)
  return (some size, fun i => if i = size then 0 else fileBuffer i)

/-- The loop of `tw_find_app`, which takes a line in each of its `steps`. -/
def findAppLine (name : List UInt8) : Nat → List UInt8 → Option AppEntry
  | 0, _ => none
  | steps + 1, cursor =>
    if cursor.isEmpty then none
    else
      let next := findAppLine name steps (cursor.dropWhile (· != newline)).tail
      match twParseAppLine (cursor.takeWhile (· != newline)) with
      | none => next
      | some entry => if twStreqCi entry.name name then some entry else next

/-- `*out_entry`, or `none` for a returned 0. -/
def twFindApp (name : NameArg) (fileBuffer : FileBuffer) :
    Prog Fs (Option AppEntry × FileBuffer) := do
  let some name := name | return (none, fileBuffer)
  if name.headD 0 == 0 then return (none, fileBuffer)
  match ← twReadAppManifest m fileBuffer with
  | (none, fileBuffer) => return (none, fileBuffer)
  | (some size, fileBuffer) =>
    return (findAppLine name size ((List.range size).map fileBuffer), fileBuffer)

/-- The word, cut to its field, and the cursor at the next. -/
def twAppReadWord (cursor : List UInt8) (outSize : Nat) : List UInt8 × List UInt8 :=
  let (out, cursor) := copyUntil (fun c => c == 0 || c == space) outSize
    (cursor.dropWhile (· == space)) []
  (out, cursor.dropWhile (· == space))

def twAppFieldOk (text : List UInt8) : Bool :=
  !text.isEmpty && text.all fun c => !(c == bar || c == carriageReturn || c == newline)

/-- The text behind what the buffer of `cap` bytes holds, as far as it fits. -/
def twPkgAppend (cap : Nat) : List UInt8 → List UInt8 → List UInt8
  | buffer, [] => buffer
  | buffer, c :: text =>
    if buffer.length + 1 < cap then twPkgAppend cap (buffer ++ [c]) text else buffer

/-- What `tw_app_add` prints. -/
inductive AddReply where
  /-- `No filesystem` -/
  | noFilesystem
  /-- `usage app add ID L T S` -/
  | usage
  /-- `app exists` -/
  | taken
  /-- `app add failed` -/
  | failed
  /-- `app added`, and the name -/
  | added (name : List UInt8)
  deriving DecidableEq

/-- The line that `tw_app_add` writes. -/
def appLine (name launcher target summary : List UInt8) : List UInt8 :=
  [name, [bar], launcher, [bar], target, [bar], summary, [newline]].foldl (twPkgAppend 160) []

def twAppAdd (args : List UInt8) (fileBuffer : FileBuffer) : Prog Fs (AddReply × FileBuffer) := do
  let (name, args) := twAppReadWord args nameSize
  let (launcher, args) := twAppReadWord args launcherSize
  let (target, summary) := twAppReadWord args targetSize
  if !m.mounted then return (.noFilesystem, fileBuffer)
  if !twAppFieldOk name || !twAppFieldOk launcher || !twAppFieldOk target ||
      !twAppFieldOk summary then return (.usage, fileBuffer)
  match ← twFindApp m (some name) fileBuffer with
  | (some _, fileBuffer) => return (.taken, fileBuffer)
  | (none, fileBuffer) =>
    let line := appLine name launcher target summary
    if !(← fsWrite m (some appsTxt) (some fun i => line.getD i 0) (.ofNat line.length)
        fsWriteAppend) then return (.failed, fileBuffer)
    return (.added name, fileBuffer)

end MinervaOS.Terminal
