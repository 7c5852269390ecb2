import MinervaOS.Fat32.WriteModes

/-!
# The text editor

The editor types at the end of its text. Under the array of rows there is a document, rows that are
finished and the one that is being typed (`Document`), and every state that the editor gets to by
loading and typing shows one (`Shows`). A save writes the text of the document, and loading that
shows the same document again.
-/

namespace MinervaOS.Apps

open Fat32 Prog

/-- `EDITOR_COLS`; the last column of a row stays zero. -/
def editorCols : Nat := 26
/-- `EDITOR_ROWS`. -/
def editorRows : Nat := 12
/-- `sizeof(editor_file_buffer)`. -/
def editorFileSize : Nat := 512

def newline : UInt8 := 0x0A
def carriageReturn : UInt8 := 0x0D
def backspace : UInt8 := 0x08
def escape : UInt8 := 0x1B

/-- What the editor shows of itself. -/
inductive EditorStatus where
  /-- `NO FS` -/
  | noFs
  /-- `NEW` -/
  | new
  /-- `TRUNC` -/
  | trunc
  /-- `LOADED` -/
  | loaded
  /-- `EDIT` -/
  | edit
  /-- `SAVED` -/
  | saved
  /-- `SAVE ERR` -/
  | saveErr
  deriving DecidableEq

/-- `text_editor_t` without its window. -/
structure TextEditor where
  /-- The character in a row and a column. -/
  lines : Nat → Nat → UInt8
  filename : List UInt8
  cursorCol : Nat
  cursorRow : Nat
  status : EditorStatus
  dirty : Bool
  truncated : Bool

/-! ## Loading -/

def editorClearBuffer (editor : TextEditor) : TextEditor :=
  { editor with lines := fun _ _ => 0, cursorCol := 0, cursorRow := 0, truncated := false }

/-- `lines[row][col] = c`. -/
def putChar (lines : Nat → Nat → UInt8) (row col : Nat) (c : UInt8) : Nat → Nat → UInt8 :=
  fun r k => if r = row ∧ k = col then c else lines r k

/-- A `char` is signed: from 128 on it is negative, and below 32. -/
def isText (c : UInt8) : Bool := !(c < 32 || c ≥ 127)

/-- The loop of `editor_load_bytes` over the bytes that are left. -/
def loadFrom (editor : TextEditor) : List UInt8 → TextEditor
  | [] => editor
  | c :: rest =>
    if c == carriageReturn then loadFrom editor rest
    else if c == newline then
      if editor.cursorRow + 1 ≥ editorRows then { editor with truncated := true }
      else loadFrom { editor with cursorRow := editor.cursorRow + 1, cursorCol := 0 } rest
    else if !isText c then loadFrom editor rest
    else if editor.cursorCol ≥ editorCols - 1 then loadFrom { editor with truncated := true } rest
    else
      loadFrom { editor with
        lines := putChar editor.lines editor.cursorRow editor.cursorCol c
        cursorCol := editor.cursorCol + 1 } rest

def editorLoadBytes (editor : TextEditor) (buffer : List UInt8) : TextEditor :=
  loadFrom (editorClearBuffer editor) buffer

/-- What `editor_file_buffer` holds is written before it is read, by a load as by a save. -/
def editorLoadFile (m : Mount) (editor : TextEditor) (fileBuffer : Nat → UInt8) :
    Prog Fs TextEditor := do
  if !m.mounted then
    return { editorClearBuffer editor with status := .noFs, dirty := false }
  match ← fsOpen m (some editor.filename) with
  | none => return { editorClearBuffer editor with status := .new, dirty := false }
  | some file =>
    let size := fsFileSize file
    let (read, file, buffer) ← fsRead m file (some fileBuffer) editorFileSize
    let _ := fsClose file
    let editor := editorLoadBytes editor (bufferBytes buffer read)
    let status := if read < size || editor.truncated then .trunc else .loaded
    return { editor with dirty := false, status := status }

/-! ## Saving -/

/-- One past the last column that is not zero. -/
def lineEnd (line : Nat → UInt8) : Nat :=
  (List.range (editorCols - 1)).foldl (fun e col => if line col != 0 then col + 1 else e) 0

/-- The last row that has something in it. -/
def lastRow (lines : Nat → Nat → UInt8) : Nat :=
  (List.range editorRows).foldl (fun last row =>
    (List.range (editorCols - 1)).foldl (fun last col => if lines row col != 0 then row else last)
      last) 0

/-- `editor_file_buffer[out++] = c`; the loops end when the buffer is full. -/
def putOut (out : List UInt8) (c : UInt8) : List UInt8 :=
  if out.length < editorFileSize then out ++ [c] else out

/-- One row, with a newline behind it unless it is the last. -/
def saveRow (lines : Nat → Nat → UInt8) (last : Nat) (out : List UInt8) (row : Nat) : List UInt8 :=
  let out :=
    (List.range (lineEnd (lines row))).foldl (fun out col => putOut out (lines row col)) out
  if row < last then putOut out newline else out

def editorBuildSaveBuffer (editor : TextEditor) : List UInt8 :=
  let last := lastRow editor.lines
  let last := if editor.cursorRow > last then editor.cursorRow else last
  (List.range (last + 1)).foldl (saveRow editor.lines last) []

def editorSaveFile (m : Mount) (editor : TextEditor) : Prog Fs TextEditor := do
  if !m.mounted then return { editor with status := .noFs }
  let bytes := editorBuildSaveBuffer editor
  if ← fsWrite m (some editor.filename) (some fun i => bytes.getD i 0) (.ofNat bytes.length)
      (fsWriteCreate ||| fsWriteTruncate) then
    return { editor with dirty := false, status := .saved }
  return { editor with status := .saveErr }

/-! ## Typing -/

def editorInsertChar (editor : TextEditor) (c : UInt8) : TextEditor :=
  if editor.cursorRow ≥ editorRows then editor
  else if editor.cursorCol ≥ editorCols - 1 then editor
  else
    { editor with
      lines := putChar editor.lines editor.cursorRow editor.cursorCol c
      cursorCol := editor.cursorCol + 1
      dirty := true
      status := .edit }

def editorNewline (editor : TextEditor) : TextEditor :=
  if editor.cursorRow + 1 ≥ editorRows then editor
  else
    { editor with
      cursorRow := editor.cursorRow + 1, cursorCol := 0, dirty := true, status := .edit }

/-- The loop that goes to the end of a row, from column `col` on, `left` columns left. -/
def toLineEnd (line : Nat → UInt8) : Nat → Nat → Nat
  | 0, col => col
  | left + 1, col => if line col != 0 then toLineEnd line left (col + 1) else col

def editorBackspace (editor : TextEditor) : TextEditor :=
  if editor.cursorCol > 0 then
    { editor with
      cursorCol := editor.cursorCol - 1
      lines := putChar editor.lines editor.cursorRow (editor.cursorCol - 1) 0
      dirty := true
      status := .edit }
  else if editor.cursorRow > 0 then
    { editor with
      cursorRow := editor.cursorRow - 1
      cursorCol := toLineEnd (editor.lines (editor.cursorRow - 1)) (editorCols - 1) 0
      dirty := true
      status := .edit }
  else editor

/-- A key, where the window is there and shown; otherwise nothing is done. -/
def textEditorHandleKey (m : Mount) (editor : TextEditor) (c : UInt8) : Prog Fs TextEditor := do
  if c == escape then editorSaveFile m editor
  else if c == backspace then return editorBackspace editor
  else if c == newline then return editorNewline editor
  else if isText c then return editorInsertChar editor c
  else return editor

/-! ## Documents -/

/-- Finished rows, and the row that is typed in. -/
structure Document where
  above : List (List UInt8)
  row : List UInt8
  fits : above.length < editorRows
  width : ∀ l ∈ above ++ [row], l.length < editorCols
  text : ∀ l ∈ above ++ [row], ∀ c ∈ l, isText c

namespace Document

def rows (d : Document) : List (List UInt8) := d.above ++ [d.row]

/-- The rows with newlines between them. -/
def bytes (d : Document) : List UInt8 := d.above.flatMap (· ++ [newline]) ++ d.row

def empty : Document := ⟨[], [], by decide, by decide, by simp⟩

/-- One more character in the row, where there is room. -/
def type (d : Document) (c : UInt8) (hc : isText c) : Document :=
  if h : d.row.length + 1 < editorCols then
    { above := d.above
      row := d.row ++ [c]
      fits := d.fits
      width := by
        intro l hl
        rcases List.mem_append.1 hl with hl | hl
        · exact d.width l (List.mem_append_left _ hl)
        · rw [List.mem_singleton.1 hl, List.length_append, List.length_singleton]
          exact h
      text := by
        intro l hl b hb
        rcases List.mem_append.1 hl with hl | hl
        · exact d.text l (List.mem_append_left _ hl) b hb
        · rw [List.mem_singleton.1 hl] at hb
          rcases List.mem_append.1 hb with hb | hb
          · exact d.text d.row (List.mem_append_right _ (List.mem_singleton_self _)) b hb
          · rwa [List.mem_singleton.1 hb] }
  else d

/-- The row is finished, where there is room for another. -/
def feed (d : Document) : Document :=
  if h : d.above.length + 1 < editorRows then
    { above := d.above ++ [d.row]
      row := []
      fits := by simpa using h
      width := by
        intro l hl
        rcases List.mem_append.1 hl with hl | hl
        · exact d.width l hl
        · rw [List.mem_singleton.1 hl]
          decide
      text := by
        intro l hl b hb
        rcases List.mem_append.1 hl with hl | hl
        · exact d.text l hl b hb
        · rw [List.mem_singleton.1 hl] at hb
          cases hb }
  else d

end Document

/-- The array of some rows. -/
def grid (rows : List (List UInt8)) : Nat → Nat → UInt8 := fun r k => (rows.getD r []).getD k 0

/-- The editor shows the document, with the cursor at its end. -/
structure Shows (editor : TextEditor) (d : Document) : Prop where
  lines : editor.lines = grid d.rows
  cursorRow : editor.cursorRow = d.above.length
  cursorCol : editor.cursorCol = d.row.length

variable {editor : TextEditor} {d : Document} {rows : List (List UInt8)} {above : List (List UInt8)}
  {row l : List UInt8} {c : UInt8}

theorem ne_zero_of_isText (h : isText c) : c ≠ 0 := by
  rintro rfl
  exact absurd h (by decide)

theorem ne_newline_of_isText (h : isText c) : c ≠ newline := by
  rintro rfl
  exact absurd h (by decide)

theorem ne_carriageReturn_of_isText (h : isText c) : c ≠ carriageReturn := by
  rintro rfl
  exact absurd h (by decide)

theorem Document.row_mem (d : Document) : d.row ∈ d.rows :=
  List.mem_append_right _ (List.mem_singleton_self _)

theorem Document.row_lt (d : Document) : d.row.length < editorCols := d.width _ d.row_mem

/-! ## The array -/

theorem grid_above (r : Nat) (h : r < above.length) :
    grid (above ++ [row]) r = fun k => above[r].getD k 0 := by
  funext k
  simp [grid, List.getElem?_append_left h, List.getElem?_eq_getElem h]

theorem grid_row : grid (above ++ [row]) above.length = fun k => row.getD k 0 := by
  funext k
  simp [grid]

theorem grid_below (r : Nat) (h : above.length < r) : grid (above ++ [row]) r = fun _ => 0 := by
  funext k
  have hr : (above ++ [row]).length ≤ r := by simp; omega
  simp [grid, List.getElem?_eq_none hr]

/-- A character written in the last row. -/
theorem putChar_grid {row' : List UInt8} {col : Nat}
    (h : ∀ k, (row'.getD k 0) = if k = col then c else row.getD k 0) :
    putChar (grid (above ++ [row])) above.length col c = grid (above ++ [row']) := by
  funext r k
  unfold putChar
  rcases Nat.lt_trichotomy r above.length with hr | rfl | hr
  · rw [if_neg (by omega), grid_above r hr, grid_above r hr]
  · rw [grid_row, grid_row]
    simpa using (h k).symm
  · rw [if_neg (by omega), grid_below r hr, grid_below r hr]

theorem putChar_append :
    putChar (grid (above ++ [row])) above.length row.length c = grid (above ++ [row ++ [c]]) := by
  refine putChar_grid fun k => ?_
  rcases Nat.lt_trichotomy k row.length with hk | rfl | hk
  · rw [if_neg (by omega), List.getD_append _ _ _ _ hk]
  · simp
  · rw [if_neg (by omega), List.getD_eq_default _ _ (by simp; omega),
      List.getD_eq_default _ _ (by omega)]

theorem putChar_remove :
    putChar (grid (above ++ [row ++ [c]])) above.length row.length 0 = grid (above ++ [row]) := by
  refine putChar_grid fun k => ?_
  rcases Nat.lt_trichotomy k row.length with hk | rfl | hk
  · rw [if_neg (by omega), List.getD_append _ _ _ _ hk]
  · simp
  · rw [if_neg (by omega), List.getD_eq_default _ _ (by omega),
      List.getD_eq_default _ _ (by simp; omega)]

/-- An empty row behind the last is not seen. -/
theorem grid_feed : grid (rows ++ [[]]) = grid rows := by
  funext r k
  unfold grid
  congr 1
  rcases Nat.lt_trichotomy r rows.length with hr | rfl | hr
  · exact List.getD_append _ _ _ _ hr
  · simp
  · rw [List.getD_eq_default _ _ (by simp; omega), List.getD_eq_default _ _ (by omega)]

/-! ## Typing -/

theorem shows_clear (editor : TextEditor) : Shows (editorClearBuffer editor) .empty := by
  refine ⟨?_, rfl, rfl⟩
  funext r k
  cases r <;> simp [editorClearBuffer, grid, Document.rows, Document.empty]

/-- The status and the marks of an editor do not matter to what it shows. -/
theorem Shows.congr {editor' : TextEditor} (h : Shows editor d)
    (hlines : editor'.lines = editor.lines)
    (hrow : editor'.cursorRow = editor.cursorRow) (hcol : editor'.cursorCol = editor.cursorCol) :
    Shows editor' d :=
  ⟨hlines.trans h.lines, hrow.trans h.cursorRow, hcol.trans h.cursorCol⟩

theorem Shows.type (h : Shows editor d) (hc : isText c) (hroom : d.row.length + 1 < editorCols) :
    Shows { editor with
      lines := putChar editor.lines editor.cursorRow editor.cursorCol c
      cursorCol := editor.cursorCol + 1 } (d.type c hc) := by
  unfold Document.type
  rw [dif_pos hroom]
  refine ⟨?_, h.cursorRow, ?_⟩
  · show putChar editor.lines editor.cursorRow editor.cursorCol c = _
    rw [h.lines, h.cursorRow, h.cursorCol]
    exact putChar_append
  · simp [h.cursorCol]

theorem Shows.feed (h : Shows editor d) (hroom : d.above.length + 1 < editorRows) :
    Shows { editor with cursorRow := editor.cursorRow + 1, cursorCol := 0 } d.feed := by
  unfold Document.feed
  rw [dif_pos hroom]
  refine ⟨?_, ?_, rfl⟩
  · exact h.lines.trans grid_feed.symm
  · simp [h.cursorRow]

theorem Shows.insertChar (h : Shows editor d) (hc : isText c) :
    ∃ d', Shows (editorInsertChar editor c) d' := by
  unfold editorInsertChar
  split_ifs with hrow hcol
  · exact ⟨d, h⟩
  · exact ⟨d, h⟩
  · have hroom : d.row.length + 1 < editorCols := by
      rw [h.cursorCol] at hcol
      unfold editorCols at hcol ⊢
      omega
    exact ⟨_, (h.type hc hroom).congr rfl rfl rfl⟩

theorem Shows.newline (h : Shows editor d) : ∃ d', Shows (editorNewline editor) d' := by
  unfold editorNewline
  split_ifs with hrow
  · exact ⟨d, h⟩
  · rw [h.cursorRow, ge_iff_le, not_le] at hrow
    exact ⟨_, (h.feed hrow).congr rfl rfl rfl⟩

theorem toLineEnd_eq (row : List UInt8) (hrow : ∀ c ∈ row, c ≠ 0) (left col : Nat)
    (hleft : row.length ≤ col + left) (hcol : col ≤ row.length) :
    toLineEnd (fun k => row.getD k 0) left col = row.length := by
  induction left generalizing col with
  | zero => exact Nat.le_antisymm hcol hleft
  | succ left ih =>
    unfold toLineEnd
    rcases Nat.lt_or_ge col row.length with hlt | hge
    · have hne : row.getD col 0 ≠ 0 := by
        rw [List.getD_eq_getElem _ _ hlt]
        exact hrow _ (List.getElem_mem hlt)
      rw [if_pos (bne_iff_ne.2 hne)]
      exact ih (col + 1) (by omega) hlt
    · rw [List.getD_eq_default _ _ hge]
      simpa using Nat.le_antisymm hcol hge

/-- The last character is taken back, or the row above is gone back to. -/
theorem Shows.backspace (h : Shows editor d) : ∃ d', Shows (editorBackspace editor) d' := by
  obtain ⟨above, row, hfits, hwidth, htext⟩ := d
  unfold editorBackspace
  split_ifs with hcol hrow
  · rcases List.eq_nil_or_concat' row with rfl | ⟨row, c, rfl⟩
    · simp [h.cursorCol] at hcol
    · refine ⟨⟨above, row, hfits, fun l hl => ?_, fun l hl b hb => ?_⟩, ?_, h.cursorRow, ?_⟩
      · rcases List.mem_append.1 hl with hl | hl
        · exact hwidth l (List.mem_append_left _ hl)
        · have := hwidth (row ++ [c]) (by simp)
          rw [List.mem_singleton.1 hl]
          rw [List.length_append] at this
          omega
      · rcases List.mem_append.1 hl with hl | hl
        · exact htext l (List.mem_append_left _ hl) b hb
        · rw [List.mem_singleton.1 hl] at hb
          exact htext (row ++ [c]) (by simp) b (List.mem_append_left _ hb)
      · have hlen : editor.cursorCol - 1 = row.length := by simp [h.cursorCol]
        show putChar editor.lines editor.cursorRow (editor.cursorCol - 1) 0 = _
        rw [hlen, h.lines, h.cursorRow]
        exact putChar_remove
      · simp [h.cursorCol]
  · have hnil : row = [] := by
      have hlen : editor.cursorCol = row.length := h.cursorCol
      exact List.length_eq_zero_iff.1 (by omega)
    subst hnil
    rcases List.eq_nil_or_concat' above with rfl | ⟨above, row, rfl⟩
    · simp [h.cursorRow] at hrow
    · refine ⟨⟨above, row, ?_, fun l hl => hwidth l (List.mem_append_left _ hl),
        fun l hl => htext l (List.mem_append_left _ hl)⟩, ?_, ?_, ?_⟩
      · rw [List.length_append] at hfits
        omega
      · exact h.lines.trans grid_feed
      · simp [h.cursorRow]
      · have hlast : editor.cursorRow - 1 = above.length := by simp [h.cursorRow]
        have hmem : row ∈ above ++ [row] ++ [[]] := by simp
        have hlines : editor.lines above.length = fun k => row.getD k 0 := by
          rw [h.lines]
          exact (congrFun grid_feed _).trans grid_row
        show toLineEnd (editor.lines (editor.cursorRow - 1)) (editorCols - 1) 0 = row.length
        rw [hlast, hlines]
        refine toLineEnd_eq row (fun c hc => ne_zero_of_isText (htext row hmem c hc)) _ _ ?_
          (Nat.zero_le _)
        have := hwidth row hmem
        omega
  · exact ⟨⟨above, row, hfits, hwidth, htext⟩, h⟩

/-! ## What a load leaves -/

/-- A byte that a load does not pass over. -/
def isKept (c : UInt8) : Bool := c == Apps.newline || isText c

theorem truncated_loadFrom (bytes : List UInt8) (htrunc : editor.truncated = true) :
    (loadFrom editor bytes).truncated = true := by
  induction bytes generalizing editor with
  | nil => exact htrunc
  | cons c rest ih =>
    unfold loadFrom
    split_ifs
    · exact ih htrunc
    · rfl
    · exact ih htrunc
    · exact ih htrunc
    · exact ih rfl
    · exact ih htrunc

theorem Document.bytes_type (d : Document) (hc : isText c) (hroom : d.row.length + 1 < editorCols) :
    (d.type c hc).bytes = d.bytes ++ [c] := by
  unfold Document.type
  rw [dif_pos hroom]
  simp [Document.bytes]

theorem Document.bytes_feed (d : Document) (hroom : d.above.length + 1 < editorRows) :
    d.feed.bytes = d.bytes ++ [Apps.newline] := by
  unfold Document.feed
  rw [dif_pos hroom]
  simp [Document.bytes]

/-- A load of more bytes shows a document again. Its text has grown by the bytes that are kept, all
of them where nothing was cut off. -/
theorem Shows.load (bytes : List UInt8) (h : Shows editor d) :
    ∃ d', Shows (loadFrom editor bytes) d' ∧
      ((loadFrom editor bytes).truncated = false → d'.bytes = d.bytes ++ bytes.filter isKept) := by
  induction bytes generalizing editor d with
  | nil => exact ⟨d, h, by simp⟩
  | cons c rest ih =>
    unfold loadFrom
    split_ifs with hcr hnl hrow htext hcol
    · have hdrop : isKept c = false := by
        rw [beq_iff_eq.1 hcr]
        decide
      rw [List.filter_cons_of_neg (by simp [hdrop])]
      exact ih h
    · exact ⟨d, h.congr rfl rfl rfl, fun hfalse => absurd hfalse (by simp)⟩
    · rw [h.cursorRow, ge_iff_le, not_le] at hrow
      obtain ⟨d', hd', hbytes⟩ := ih (h.feed hrow)
      refine ⟨d', hd', fun hkept => ?_⟩
      rw [hbytes hkept, d.bytes_feed hrow, beq_iff_eq.1 hnl, List.append_assoc]
      rfl
    · have hdrop : isKept c = false := by simpa [isKept, hnl] using htext
      rw [List.filter_cons_of_neg (by simp [hdrop])]
      exact ih h
    · have hmarked : Shows { editor with truncated := true } d := h.congr rfl rfl rfl
      obtain ⟨d', hd', -⟩ := ih hmarked
      refine ⟨d', hd', fun hfalse => ?_⟩
      rw [truncated_loadFrom rest rfl] at hfalse
      cases hfalse
    · have hc : isText c = true := by simpa using htext
      have hroom : d.row.length + 1 < editorCols := by
        rw [h.cursorCol] at hcol
        unfold editorCols at hcol ⊢
        omega
      obtain ⟨d', hd', hbytes⟩ := ih (h.type hc hroom)
      refine ⟨d', hd', fun hkept => ?_⟩
      rw [hbytes hkept, d.bytes_type hc hroom, List.filter_cons_of_pos (by simp [isKept, hc]),
        List.append_assoc]
      rfl

/-! ## What a save writes -/

theorem Document.ne_zero (d : Document) (hl : l ∈ d.rows) (hc : c ∈ l) : c ≠ 0 :=
  ne_zero_of_isText (d.text l hl c hc)

/-- The end of a row that has something in every column before its length and nothing after it. -/
theorem lineEnd_eq (hl : ∀ c ∈ l, c ≠ 0) (hlen : l.length < editorCols) :
    lineEnd (fun k => l.getD k 0) = l.length := by
  have hstep : ∀ n, (List.range n).foldl (fun e col => if l.getD col 0 != 0 then col + 1 else e) 0 =
      min n l.length := by
    intro n
    induction n with
    | zero => simp
    | succ n ih =>
      rw [List.range_succ, List.foldl_append, ih, List.foldl_cons, List.foldl_nil]
      rcases Nat.lt_or_ge n l.length with hn | hn
      · have hne : l.getD n 0 ≠ 0 := by
          rw [List.getD_eq_getElem _ _ hn]
          exact hl _ (List.getElem_mem hn)
        rw [if_pos (bne_iff_ne.2 hne)]
        omega
      · rw [List.getD_eq_default _ _ hn, if_neg (by simp)]
        omega
  unfold lineEnd
  rw [hstep]
  omega

/-- Nothing stands below the last row. -/
theorem lastRow_le : lastRow (grid (above ++ [row])) ≤ above.length := by
  have hcols : ∀ r (cols : List Nat) (last : Nat), last ≤ above.length →
      cols.foldl (fun last col => if grid (above ++ [row]) r col != 0 then r else last) last ≤
        above.length := by
    intro r cols
    induction cols with
    | nil => exact fun last hlast => hlast
    | cons col cols ih =>
      intro last hlast
      rw [List.foldl_cons]
      refine ih _ ?_
      split_ifs with hset
      · rcases Nat.lt_or_ge above.length r with hr | hr
        · simp [grid_below r hr] at hset
        · exact hr
      · exact hlast
  have hrows : ∀ (rs : List Nat) (last : Nat), last ≤ above.length →
      rs.foldl (fun last r => (List.range (editorCols - 1)).foldl
        (fun last col => if grid (above ++ [row]) r col != 0 then r else last) last) last ≤
          above.length := by
    intro rs
    induction rs with
    | nil => exact fun last hlast => hlast
    | cons r rs ih =>
      intro last hlast
      rw [List.foldl_cons]
      exact ih _ (hcols r _ last hlast)
  exact hrows _ 0 (Nat.zero_le _)

/-- Characters that fit are all put out. -/
theorem putOut_row (out l : List UInt8) (hfits : out.length + l.length ≤ editorFileSize) :
    (List.range l.length).foldl (fun out col => putOut out (l.getD col 0)) out = out ++ l := by
  have hstep : ∀ n ≤ l.length,
      (List.range n).foldl (fun out col => putOut out (l.getD col 0)) out = out ++ l.take n := by
    intro n hn
    induction n with
    | zero => simp
    | succ n ih =>
      rw [List.range_succ, List.foldl_append, ih (by omega), List.foldl_cons, List.foldl_nil]
      have hlen : (out ++ l.take n).length < editorFileSize := by
        rw [List.length_append, List.length_take]
        omega
      rw [putOut, if_pos hlen, List.append_assoc, List.getD_eq_getElem _ _ hn,
        List.take_append_getElem]
  rw [hstep _ le_rfl, List.take_length]

/-- Rows that are finished take no more than their columns and a newline each. -/
theorem length_finished (above : List (List UInt8)) (hwidth : ∀ l ∈ above, l.length < editorCols) :
    (above.flatMap (· ++ [Apps.newline])).length ≤ editorCols * above.length := by
  induction above with
  | nil => simp
  | cons l above ih =>
    have hl := hwidth l List.mem_cons_self
    have hrest := ih fun l' hl' => hwidth l' (List.mem_cons_of_mem _ hl')
    rw [List.flatMap_cons, List.length_append, List.length_append, List.length_singleton,
      List.length_cons, Nat.mul_succ]
    omega

theorem Document.length_bytes (d : Document) : d.bytes.length ≤ editorFileSize := by
  have habove := length_finished d.above fun l hl => d.width l (List.mem_append_left _ hl)
  have hrow := d.row_lt
  have hfits := d.fits
  rw [Document.bytes, List.length_append]
  unfold editorCols at *
  unfold editorRows at hfits
  unfold editorFileSize
  omega

/-- The rows before row `n` are put out when it is reached. -/
theorem saveRow_above (d : Document) (n : Nat) (hn : n ≤ d.above.length) :
    (List.range n).foldl (saveRow (grid d.rows) d.above.length) [] =
      (d.above.take n).flatMap (· ++ [Apps.newline]) := by
  induction n with
  | zero => simp
  | succ n ih =>
    have hmem : d.above[n] ∈ d.rows := List.mem_append_left _ (List.getElem_mem hn)
    have hlines : grid d.rows n = fun k => d.above[n].getD k 0 := grid_above n hn
    have htake : d.above.take (n + 1) = d.above.take n ++ [d.above[n]] :=
      (List.take_append_getElem hn).symm
    have hlen : ((d.above.take (n + 1)).flatMap (· ++ [Apps.newline])).length ≤ editorFileSize := by
      have hpart : d.bytes = (d.above.take (n + 1)).flatMap (· ++ [Apps.newline]) ++
          ((d.above.drop (n + 1)).flatMap (· ++ [Apps.newline]) ++ d.row) := by
        rw [← List.append_assoc, ← List.flatMap_append, List.take_append_drop]
        rfl
      have hall := d.length_bytes
      rw [hpart, List.length_append] at hall
      omega
    rw [htake, List.flatMap_append, List.flatMap_singleton, List.length_append, List.length_append,
      List.length_singleton] at hlen
    rw [List.range_succ, List.foldl_append, ih (by omega), List.foldl_cons, List.foldl_nil, htake,
      List.flatMap_append, List.flatMap_singleton]
    unfold saveRow
    rw [hlines, lineEnd_eq (fun c hc => d.ne_zero hmem hc) (d.width _ hmem),
      putOut_row _ _ (by omega)]
    dsimp only
    rw [if_pos (Nat.lt_of_succ_le hn), putOut, if_pos (by rw [List.length_append]; omega),
      List.append_assoc]

/-- A save writes the text of the document. -/
theorem Shows.save (h : Shows editor d) : editorBuildSaveBuffer editor = d.bytes := by
  have hlast : lastRow editor.lines ≤ editor.cursorRow := by
    rw [h.lines, h.cursorRow]
    exact lastRow_le
  have hmax : (if editor.cursorRow > lastRow editor.lines then editor.cursorRow
      else lastRow editor.lines) = d.above.length := by
    rw [← h.cursorRow]
    split_ifs with hgt
    · rfl
    · omega
  have hlen := d.length_bytes
  rw [Document.bytes, List.length_append] at hlen
  unfold editorBuildSaveBuffer
  simp only [hmax]
  rw [h.lines, List.range_succ, List.foldl_append, saveRow_above d _ le_rfl, List.take_length,
    List.foldl_cons, List.foldl_nil]
  unfold saveRow
  rw [Document.rows, grid_row, lineEnd_eq (fun c hc => d.ne_zero d.row_mem hc) d.row_lt,
    putOut_row _ _ hlen, if_neg (by omega)]
  rfl

/-! ## Opening again -/

/-- The editor with these rows and the cursor at their end. -/
def showing (editor : TextEditor) (above : List (List UInt8)) (row : List UInt8) : TextEditor :=
  { editor with lines := grid (above ++ [row]), cursorRow := above.length, cursorCol := row.length }

theorem loadFrom_row (rest : List UInt8) (hl : ∀ c ∈ l, isText c)
    (hlen : row.length + l.length < editorCols) :
    loadFrom (showing editor above row) (l ++ rest) =
      loadFrom (showing editor above (row ++ l)) rest := by
  induction l generalizing row with
  | nil => simp
  | cons c l ih =>
    have hc : isText c = true := hl c List.mem_cons_self
    have hcol : ¬ (showing editor above row).cursorCol ≥ editorCols - 1 := by
      rw [List.length_cons] at hlen
      show ¬ row.length ≥ editorCols - 1
      omega
    have htype : ({ showing editor above row with
        lines := putChar (grid (above ++ [row])) above.length row.length c
        cursorCol := row.length + 1 } : TextEditor) = showing editor above (row ++ [c]) := by
      rw [putChar_append]
      simp [showing]
    rw [List.cons_append, loadFrom, if_neg (by simpa using ne_carriageReturn_of_isText hc),
      if_neg (by simpa using ne_newline_of_isText hc), if_neg (by simp [hc]), if_neg hcol]
    refine (congrArg (fun e => loadFrom e (l ++ rest)) htype).trans ?_
    rw [ih (fun b hb => hl b (List.mem_cons_of_mem _ hb)) (by simp at hlen ⊢; omega)]
    simp

theorem loadFrom_newline (rest : List UInt8) (hrows : above.length + 1 < editorRows) :
    loadFrom (showing editor above row) (newline :: rest) =
      loadFrom (showing editor (above ++ [row]) []) rest := by
  have hfeed : ({ showing editor above row with
      cursorRow := above.length + 1, cursorCol := 0 } : TextEditor) =
        showing editor (above ++ [row]) [] := by
    simp only [showing, grid_feed, List.length_append, List.length_singleton, List.length_nil]
  rw [loadFrom, if_neg (by decide), if_pos (by decide), if_neg (by simpa [showing] using hrows)]
  exact congrArg (fun e => loadFrom e rest) hfeed

/-- Rows that fit are shown again as they were. -/
theorem loadFrom_rows (more : List (List UInt8)) (htext : ∀ l ∈ more ++ [row], ∀ c ∈ l, isText c)
    (hwidth : ∀ l ∈ more ++ [row], l.length < editorCols)
    (hrows : above.length + more.length < editorRows) :
    loadFrom (showing editor above []) (more.flatMap (· ++ [newline]) ++ row) =
      showing editor (above ++ more) row := by
  induction more generalizing above with
  | nil =>
    have hload : loadFrom (showing editor above []) (row ++ []) =
        loadFrom (showing editor above ([] ++ row)) [] :=
      loadFrom_row [] (htext row (by simp)) (by simpa using hwidth row (by simp))
    simpa [loadFrom] using hload
  | cons l more ih =>
    rw [List.length_cons] at hrows
    have hnext : loadFrom (showing editor (above ++ [l]) [])
      (more.flatMap (· ++ [newline]) ++ row) =
        showing editor (above ++ [l] ++ more) row :=
      ih (fun l' hl' => htext l' (List.mem_cons_of_mem _ hl'))
        (fun l' hl' => hwidth l' (List.mem_cons_of_mem _ hl')) (by simp; omega)
    rw [List.flatMap_cons, List.append_assoc, List.append_assoc,
      loadFrom_row _ (htext l List.mem_cons_self) (by simpa using hwidth l List.mem_cons_self),
      List.singleton_append, loadFrom_newline _ (by omega), List.nil_append, hnext,
        List.append_assoc]
    rfl

theorem loadBytes_bytes (stale : TextEditor) (d : Document) :
    editorLoadBytes stale d.bytes = showing { stale with truncated := false } d.above d.row := by
  have hclear : editorClearBuffer stale = showing { stale with truncated := false } [] [] := by
    unfold editorClearBuffer showing
    congr 1
    funext r k
    cases r <;> simp [grid]
  unfold editorLoadBytes
  rw [hclear, Document.bytes,
    loadFrom_rows d.above d.text d.width (by simpa using d.fits), List.nil_append]

end MinervaOS.Apps
