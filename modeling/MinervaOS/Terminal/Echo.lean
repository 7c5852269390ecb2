import Mathlib.Tactic.Linarith
import Mathlib.Data.Fintype.Basic

/-!
# What the terminal shows of its input

The keys of a command line go into the buffer that Enter runs and onto the screen, which has 10 rows
of 24 cells. A backspace takes the last character off both, except in the first column of a row,
where it takes the character off the input only: `term_window_putc` does not go back to the row
above. From there on the screen shows more than the input (`visible_iff`).
-/

namespace MinervaOS.Terminal

/-- `term_window_t`, without the window. The cursor is behind the last cell of its row before it
wraps. -/
structure TermWindow where
  buf : Fin 10 → Fin 24 → UInt8
  curCol : Fin 25
  curRow : Fin 10
  input : Fin 64 → UInt8
  inputLen : Fin 64

namespace TermWindow

def twScroll (t : TermWindow) : TermWindow :=
  { t with
    buf := fun r k => if h : r.val + 1 < 10 then t.buf ⟨r.val + 1, h⟩ k else 0
    curRow := 9
    curCol := 0 }

/-- `t->cur_col = 0; t->cur_row++; if (t->cur_row >= TWIN_ROWS) tw_scroll(t);`. -/
def nextRow (t : TermWindow) : TermWindow :=
  if h : t.curRow.val + 1 < 10 then { t with curCol := 0, curRow := ⟨t.curRow.val + 1, h⟩ }
  else t.twScroll

/-- `t->buf[t->cur_row][col] = c`. -/
def store (t : TermWindow) (col : Fin 24) (c : UInt8) : Fin 10 → Fin 24 → UInt8 :=
  fun r k => if r = t.curRow ∧ k = col then c else t.buf r k

/-- `t->buf[t->cur_row][t->cur_col++] = c`. -/
def put (t : TermWindow) (col : Fin 24) (c : UInt8) : TermWindow :=
  { t with buf := t.store col c, curCol := col.succ }

def termWindowPutc (t : TermWindow) (c : UInt8) : TermWindow :=
  if c = 10 then t.nextRow
  else if c = 8 then
    if h : 0 < t.curCol.val then
      { t with
        buf := t.store ⟨t.curCol.val - 1, by omega⟩ 0
        curCol := ⟨t.curCol.val - 1, by omega⟩ }
    else t
  else if h : t.curCol.val < 24 then t.put ⟨t.curCol.val, h⟩ c
  else t.nextRow.put 0 c

def termWindowPrint (t : TermWindow) (s : List UInt8) : TermWindow := s.foldl termWindowPutc t

/-- `t->input[i] = c`. -/
def setInput (t : TermWindow) (i : Fin 64) (c : UInt8) : Fin 64 → UInt8 :=
  fun k => if k = i then c else t.input k

section Keys

variable (twExec : TermWindow → TermWindow)

def termWindowHandleKey (t : TermWindow) (c : UInt8) : TermWindow :=
  if c = 10 then
    let t := { t with input := t.setInput t.inputLen 0 }
    let t := twExec (t.termWindowPutc 10)
    { t with inputLen := 0 }.termWindowPrint [36, 32]
  else if c = 8 then
    if 0 < t.inputLen.val then
      { t with inputLen := ⟨t.inputLen.val - 1, by omega⟩ }.termWindowPutc 8
    else t
  else if h : t.inputLen.val < 63 then
    { t with
      input := t.setInput t.inputLen c,
      inputLen := ⟨t.inputLen.val + 1, by omega⟩ }.termWindowPutc c
  else t

end Keys

/-! ## The screen as one row of cells -/

/-- The cell at a place of the rows read in order. -/
def cell (t : TermWindow) (p : ℕ) : UInt8 :=
  t.buf ⟨p / 24 % 10, Nat.mod_lt _ (by decide)⟩ ⟨p % 24, Nat.mod_lt _ (by decide)⟩

/-- The place behind the cells before the cursor. -/
def cursor (t : TermWindow) : ℕ := t.curRow.val * 24 + t.curCol.val

/-- The key makes the rows move up. -/
def Scrolls (t : TermWindow) (c : UInt8) : Prop :=
  c ≠ 8 ∧ t.inputLen.val < 63 ∧ t.curCol.val = 24 ∧ t.curRow.val = 9

/-- A backspace that takes a character off the input in the first column of a row. -/
def Stuck (t : TermWindow) (c : UInt8) : Prop := c = 8 ∧ 0 < t.inputLen.val ∧ t.curCol.val = 0

instance (t : TermWindow) (c : UInt8) : Decidable (t.Scrolls c) :=
  inferInstanceAs (Decidable (_ ∧ _))

instance (t : TermWindow) (c : UInt8) : Decidable (t.Stuck c) := inferInstanceAs (Decidable (_ ∧ _))

theorem cursor_le (t : TermWindow) : t.cursor ≤ 240 := by
  unfold cursor
  omega

/-- What a step leaves of the screen: the cells before both cursors, moved up by so many cells. -/
structure Keeps (t t' : TermWindow) (l : ℕ) : Prop where
  cell : ∀ p, p + l < t.cursor → p < t'.cursor → t'.cell p = t.cell (p + l)

theorem store_cell (t : TermWindow) (col : Fin 24) (c : UInt8) {p : ℕ} (hp : p < 240) :
    t.store col c ⟨p / 24 % 10, Nat.mod_lt _ (by decide)⟩ ⟨p % 24, Nat.mod_lt _ (by decide)⟩ =
      if p = t.curRow.val * 24 + col.val then c else t.cell p := by
  unfold store cell
  have hiff : ((⟨p / 24 % 10, Nat.mod_lt _ (by decide)⟩ : Fin 10) = t.curRow ∧
      (⟨p % 24, Nat.mod_lt _ (by decide)⟩ : Fin 24) = col) ↔ p = t.curRow.val * 24 + col.val := by
    rw [Fin.ext_iff, Fin.ext_iff]
    dsimp only
    omega
  by_cases h : p = t.curRow.val * 24 + col.val
  · rw [if_pos (hiff.2 h), if_pos h]
  · rw [if_neg fun h' => h (hiff.1 h'), if_neg h]

/-- A character that is printed. -/
structure Prints (t t' : TermWindow) (c : UInt8) (l : ℕ) : Prop extends Keeps t t' l where
  cursor : t'.cursor + l = t.cursor + 1
  last : t'.cell (t.cursor - l) = c
  row : t.curRow.val = 9 → t'.curRow.val = 9

theorem put_prints (t : TermWindow) {col : Fin 24} (hcol : t.curCol.val = col.val) (c : UInt8) :
    Prints t (t.put col c) c 0 := by
  have hcursor : t.cursor = t.curRow.val * 24 + col.val := by
    unfold cursor
    rw [hcol]
  have hlt : t.cursor < 240 := by omega
  refine ⟨⟨fun p hp _ => ?_⟩, ?_, ?_, id⟩
  · exact (t.store_cell col c (by omega)).trans (if_neg (by omega))
  · show t.curRow.val * 24 + (col.val + 1) + 0 = t.cursor + 1
    omega
  · exact (t.store_cell col c (by omega)).trans (if_pos hcursor)

theorem nextRow_cursor (t : TermWindow) (h : t.curCol.val = 24) :
    t.nextRow.cursor + (if t.curRow.val = 9 then 24 else 0) = t.cursor ∧
      t.nextRow.curCol.val = 0 := by
  unfold nextRow cursor
  by_cases hrow : t.curRow.val + 1 < 10
  · rw [dif_pos hrow, if_neg (by omega)]
    refine ⟨?_, rfl⟩
    show (t.curRow.val + 1) * 24 + 0 + 0 = t.curRow.val * 24 + t.curCol.val
    omega
  · rw [dif_neg hrow, if_pos (by omega)]
    refine ⟨?_, rfl⟩
    show 9 * 24 + 0 + 24 = t.curRow.val * 24 + t.curCol.val
    omega

theorem nextRow_cell (t : TermWindow) (h : t.curCol.val = 24) {p : ℕ} (hp : p < t.nextRow.cursor) :
    t.nextRow.cell p = t.cell (p + if t.curRow.val = 9 then 24 else 0) := by
  have hcursor := t.nextRow_cursor h
  have hle := t.cursor_le
  revert hcursor hp
  unfold nextRow
  by_cases hrow : t.curRow.val + 1 < 10
  · rw [dif_pos hrow, if_neg (by omega)]
    intro _ _
    rfl
  · rw [dif_neg hrow, if_pos (by omega)]
    intro hp _
    have hp' : p < 216 := hp
    have hlt : p / 24 % 10 + 1 < 10 := by omega
    have hrow : (⟨p / 24 % 10 + 1, hlt⟩ : Fin 10) =
        ⟨(p + 24) / 24 % 10, Nat.mod_lt _ (by decide)⟩ :=
      Fin.ext (by dsimp only; omega)
    have hcol : (⟨p % 24, Nat.mod_lt _ (by decide)⟩ : Fin 24) =
        ⟨(p + 24) % 24, Nat.mod_lt _ (by decide)⟩ :=
      Fin.ext (by dsimp only; omega)
    unfold cell
    rw [← hrow, ← hcol]
    exact dif_pos hlt

theorem nextRow_row (t : TermWindow) (h : t.curRow.val = 9) : t.nextRow.curRow.val = 9 := by
  unfold nextRow
  rw [dif_neg (by omega)]
  rfl

theorem putc_prints (t : TermWindow) {c : UInt8} (h10 : c ≠ 10) (h8 : c ≠ 8) :
    Prints t (t.termWindowPutc c) c (if t.curCol.val = 24 ∧ t.curRow.val = 9 then 24 else 0) := by
  unfold termWindowPutc
  rw [if_neg h10, if_neg h8]
  by_cases hcol : t.curCol.val < 24
  · rw [dif_pos hcol, if_neg (by omega)]
    exact t.put_prints rfl c
  · have hwrap : t.curCol.val = 24 := by omega
    obtain ⟨hcursor, hzero⟩ := t.nextRow_cursor hwrap
    have hput : Prints t.nextRow (t.nextRow.put 0 c) c 0 := t.nextRow.put_prints hzero c
    have hlift : (if t.curCol.val = 24 ∧ t.curRow.val = 9 then 24 else 0) =
        if t.curRow.val = 9 then 24 else 0 := by
      by_cases hrow : t.curRow.val = 9
      · rw [if_pos hrow, if_pos ⟨hwrap, hrow⟩]
      · rw [if_neg hrow, if_neg fun h => hrow h.2]
    have hput' := hput.cursor
    rw [dif_neg hcol, hlift]
    refine ⟨⟨fun p hp hp' => ?_⟩, by omega, ?_, fun hrow => hput.row (t.nextRow_row hrow)⟩
    · have hp : p < t.nextRow.cursor := by omega
      rw [hput.cell p hp hp']
      exact t.nextRow_cell hwrap hp
    · have hlast := hput.last
      rwa [Nat.sub_zero, ← Nat.add_sub_cancel (n := t.nextRow.cursor), hcursor] at hlast

theorem putc_erases (t : TermWindow) (h : 0 < t.curCol.val) :
    Keeps t (t.termWindowPutc 8) 0 ∧ (t.termWindowPutc 8).cursor + 1 = t.cursor ∧
      (t.termWindowPutc 8).curRow = t.curRow := by
  unfold termWindowPutc
  rw [if_neg (by decide), if_pos rfl, dif_pos h]
  have hcursor : t.cursor = t.curRow.val * 24 + t.curCol.val := rfl
  refine ⟨⟨fun p hp hp' => ?_⟩, ?_, rfl⟩
  · have hp'' : p < t.curRow.val * 24 + (t.curCol.val - 1) := hp'
    have hle := t.cursor_le
    exact (t.store_cell ⟨t.curCol.val - 1, by omega⟩ 0 (by omega)).trans
      (if_neg (by dsimp only; omega))
  · show t.curRow.val * 24 + (t.curCol.val - 1) + 1 = t.cursor
    omega

theorem nextRow_input (t : TermWindow) :
    t.nextRow.input = t.input ∧ t.nextRow.inputLen = t.inputLen := by
  unfold nextRow
  split
  · exact ⟨rfl, rfl⟩
  · exact ⟨rfl, rfl⟩

/-- The screen is not the input. -/
theorem putc_input (t : TermWindow) (c : UInt8) :
    (t.termWindowPutc c).input = t.input ∧ (t.termWindowPutc c).inputLen = t.inputLen := by
  unfold termWindowPutc
  split
  · exact t.nextRow_input
  split
  · split
    · exact ⟨rfl, rfl⟩
    · exact ⟨rfl, rfl⟩
  split
  · exact ⟨rfl, rfl⟩
  · exact t.nextRow_input

theorem putc_stuck (t : TermWindow) (h : t.curCol.val = 0) : t.termWindowPutc 8 = t := by
  unfold termWindowPutc
  rw [if_neg (by decide), if_pos rfl, dif_neg (by omega)]

end TermWindow

/-! ## A command line -/

/-- The window and the end of its prompt, as a place of the rows read in order: a scroll moves it
up, beyond the first row in the end. -/
structure Prompted where
  window : TermWindow
  mark : ℤ

namespace Prompted

/-- A prompt that ends at the cursor. -/
def start (t : TermWindow) : Prompted := ⟨t, t.cursor⟩

/-- The characters on the screen between the prompt and the cursor. -/
def shown (s : Prompted) : List UInt8 :=
  ((List.range s.window.cursor).drop s.mark.toNat).map s.window.cell

/-- The input. -/
def typed (s : Prompted) : List UInt8 :=
  ((List.finRange 64).take s.window.inputLen.val).map s.window.input

/-- The characters of the input that have not been moved beyond the first row. -/
def onScreen (s : Prompted) : List UInt8 := s.typed.drop (-s.mark).toNat

section Keys

variable (twExec : TermWindow → TermWindow)

def key (s : Prompted) (c : UInt8) : Prompted :=
  ⟨s.window.termWindowHandleKey twExec c, if s.window.Scrolls c then s.mark - 24 else s.mark⟩

def keys (s : Prompted) (cs : List UInt8) : Prompted := cs.foldl (key twExec) s

/-- No backspace of the run takes a character off the input in the first column of a row. -/
def NeverStuck : Prompted → List UInt8 → Prop
  | _, [] => True
  | s, c :: cs => ¬s.window.Stuck c ∧ NeverStuck (s.key twExec c) cs

end Keys

/-- The cursor is behind the input and so many cells more; if there are none, the input is on the
screen. -/
structure Echoes (s : Prompted) (extra : ℕ) : Prop where
  cursor : (s.window.cursor : ℤ) = s.mark + s.window.inputLen.val + extra
  row : s.mark < 0 → s.window.curRow.val = 9
  cell : extra = 0 → ∀ i : Fin 64, i.val < s.window.inputLen.val → 0 ≤ s.mark + i.val →
    s.window.cell (s.mark + i.val).toNat = s.window.input i

/-- Either of the keys that edit the line. -/
def Edits (c : UInt8) : Prop := c = 8 ∨ 32 ≤ c ∧ c < 127

theorem start_echoes {t : TermWindow} (h : t.inputLen.val = 0) : (start t).Echoes 0 := by
  refine ⟨?_, fun hneg => ?_, fun _ i hi => ?_⟩
  · show (t.cursor : ℤ) = t.cursor + t.inputLen.val + (0 : ℕ)
    rw [h]
    omega
  · have hneg' : (t.cursor : ℤ) < 0 := hneg
    omega
  · have hi' : i.val < t.inputLen.val := hi
    omega

variable {s : Prompted} {extra : ℕ} (twExec : TermWindow → TermWindow)

theorem Echoes.back (h : s.Echoes extra) :
    (s.key twExec 8).Echoes (if s.window.Stuck 8 then extra + 1 else extra) := by
  have hnot : ¬s.window.Scrolls 8 := fun h => h.1 rfl
  have hcursor := h.cursor
  unfold key TermWindow.termWindowHandleKey
  rw [if_neg hnot, if_neg (by decide), if_pos rfl]
  by_cases hpos : 0 < s.window.inputLen.val
  · rw [if_pos hpos]
    -- the window with the shorter input, whose screen is the same
    obtain ⟨w, hw⟩ : ∃ w, w = { s.window with inputLen := ⟨s.window.inputLen.val - 1, by omega⟩ } :=
      ⟨_, rfl⟩
    have hlen : w.inputLen.val = s.window.inputLen.val - 1 := by rw [hw]
    have hinput : w.input = s.window.input := by rw [hw]
    have hsame : w.cursor = s.window.cursor := by rw [hw]; rfl
    have hcell : w.cell = s.window.cell := by rw [hw]; rfl
    have hcol : w.curCol = s.window.curCol := by rw [hw]
    have hrow : w.curRow = s.window.curRow := by rw [hw]
    rw [← hw]
    obtain ⟨hputInput, hputLen⟩ := w.putc_input 8
    by_cases hzero : s.window.curCol.val = 0
    · rw [if_pos ⟨rfl, hpos, hzero⟩, w.putc_stuck (by rwa [hcol])]
      exact ⟨by dsimp only; omega, fun hneg => by rw [hrow]; exact h.row hneg,
        fun h0 => absurd h0 (by omega)⟩
    · rw [if_neg fun h => hzero h.2.2]
      obtain ⟨hkeeps, hback, hputRow⟩ := w.putc_erases (by rw [hcol]; omega)
      refine ⟨by dsimp only; rw [hputLen]; omega, fun hneg => ?_, fun h0 i hi hmark => ?_⟩
      · dsimp only
        rw [hputRow, hrow]
        exact h.row hneg
      · dsimp only at hi hmark ⊢
        rw [hputLen] at hi
        rw [hputInput, hinput, hkeeps.cell _ (by omega) (by omega), hcell, Nat.add_zero]
        exact h.cell h0 i (by omega) hmark
  · rw [if_neg hpos, if_neg fun h => hpos h.2.1]
    exact h

theorem Echoes.print (h : s.Echoes extra) {c : UInt8} (h10 : c ≠ 10) (h8 : c ≠ 8) :
    (s.key twExec c).Echoes extra := by
  have hcursor := h.cursor
  unfold key TermWindow.termWindowHandleKey
  rw [if_neg h10, if_neg h8]
  by_cases hroom : s.window.inputLen.val < 63
  · rw [dif_pos hroom]
    -- the window with the longer input, whose screen is the same
    obtain ⟨w, hw⟩ : ∃ w, w = { s.window with
      input := s.window.setInput s.window.inputLen c, inputLen :=
        ⟨s.window.inputLen.val + 1, by omega⟩ } := ⟨_, rfl⟩
    have hlen : w.inputLen.val = s.window.inputLen.val + 1 := by rw [hw]
    have hinput : w.input = s.window.setInput s.window.inputLen c := by rw [hw]
    have hsame : w.cursor = s.window.cursor := by rw [hw]; rfl
    have hcell : w.cell = s.window.cell := by rw [hw]; rfl
    have hcol : w.curCol = s.window.curCol := by rw [hw]
    have hrow : w.curRow = s.window.curRow := by rw [hw]
    rw [← hw]
    obtain ⟨hputInput, hputLen⟩ := w.putc_input c
    have hputs := w.putc_prints h10 h8
    have hscroll : s.window.Scrolls c ↔ w.curCol.val = 24 ∧ w.curRow.val = 9 := by
      rw [hcol, hrow]
      exact ⟨fun h => h.2.2, fun h => ⟨h8, hroom, h⟩⟩
    obtain ⟨l, hl⟩ : ∃ l, l = if w.curCol.val = 24 ∧ w.curRow.val = 9 then 24 else 0 := ⟨_, rfl⟩
    have hmark : (if s.window.Scrolls c then s.mark - 24 else s.mark) = s.mark - l := by
      rw [hl]
      by_cases hs : w.curCol.val = 24 ∧ w.curRow.val = 9
      · rw [if_pos hs, if_pos (hscroll.2 hs)]
        rfl
      · rw [if_neg hs, if_neg fun h => hs (hscroll.1 h)]
        exact (sub_zero _).symm
    rw [← hl] at hputs
    rw [hmark]
    have hputCursor := hputs.cursor
    refine ⟨by dsimp only; rw [hputLen]; omega, fun hneg => hputs.row ?_, fun h0 i hi hfirst => ?_⟩
    · by_cases hs : w.curCol.val = 24 ∧ w.curRow.val = 9
      · exact hs.2
      · have hneg' : s.mark - l < 0 := hneg
        rw [if_neg hs] at hl
        rw [hrow]
        exact h.row (by omega)
    · dsimp only at hi hfirst ⊢
      rw [hputLen] at hi
      rw [hputInput, hinput]
      unfold TermWindow.setInput
      by_cases hlast : i = s.window.inputLen
      · subst hlast
        have hplace : (s.mark - l + s.window.inputLen.val).toNat = w.cursor - l := by omega
        rw [if_pos rfl, hplace]
        exact hputs.last
      · have hne : i.val ≠ s.window.inputLen.val := fun h => hlast (Fin.ext h)
        have hplace : (s.mark - l + i.val).toNat + l = (s.mark + i.val).toNat := by omega
        rw [if_neg hlast, hputs.cell _ (by omega) (by omega), hcell, hplace]
        exact h.cell h0 i (by omega) (by omega)
  · rw [dif_neg hroom, if_neg fun h => hroom h.2.1]
    exact h

/-- A key adds to the extra cells where a backspace is stuck, and there only. -/
theorem Echoes.key (h : s.Echoes extra) {c : UInt8} (hc : Edits c) :
    (s.key twExec c).Echoes (if s.window.Stuck c then extra + 1 else extra) := by
  rcases hc with rfl | hc
  · exact h.back twExec
  · have h10 : c ≠ 10 := fun heq => absurd hc.1 (by rw [heq]; decide)
    have h8 : c ≠ 8 := fun heq => absurd hc.1 (by rw [heq]; decide)
    rw [if_neg fun hs => h8 hs.1]
    exact h.print twExec h10 h8

/-- The extra cells are never taken back. -/
theorem Echoes.keys {cs : List UInt8} :
    ∀ {s : Prompted} {extra : ℕ}, s.Echoes extra → (∀ c ∈ cs, Edits c) →
    ∃ extra', (s.keys twExec cs).Echoes extra' ∧ extra ≤ extra' ∧
      (extra' = extra ↔ s.NeverStuck twExec cs) := by
  induction cs with
  | nil => exact fun h _ => ⟨_, h, le_rfl, ⟨fun _ => trivial, fun _ => rfl⟩⟩
  | cons c cs ih =>
    intro s extra h hcs
    obtain ⟨extra', hend, hle, hiff⟩ := ih (h.key twExec (hcs c List.mem_cons_self)) fun d hd =>
      hcs d (List.mem_cons_of_mem c hd)
    refine ⟨extra', hend, ?_, ?_⟩
    · split at hle
      · omega
      · exact hle
    · by_cases hs : s.window.Stuck c
      · rw [if_pos hs] at hle
        exact ⟨fun heq => absurd hle (by omega), fun hnever => absurd hs hnever.1⟩
      · rw [if_neg hs] at hiff
        exact ⟨fun heq => ⟨hs, hiff.1 heq⟩, fun hnever => hiff.2 hnever.2⟩

theorem shown_getElem {j : ℕ} (hj : j < s.shown.length) :
    s.shown[j] = s.window.cell (s.mark.toNat + j) := by
  simp [shown]

theorem onScreen_getElem {j : ℕ} (h : (-s.mark).toNat + j < 64) (hj : j < s.onScreen.length) :
    s.onScreen[j] = s.window.input ⟨(-s.mark).toNat + j, h⟩ := by
  simp [onScreen, typed]

theorem Echoes.shown_iff (h : s.Echoes extra) : s.shown = s.onScreen ↔ extra = 0 := by
  have hcursor := h.cursor
  have hshown : s.shown.length = s.window.cursor - s.mark.toNat := by
    unfold shown
    rw [List.length_map, List.length_drop, List.length_range]
  have honScreen : s.onScreen.length = s.window.inputLen.val - (-s.mark).toNat := by
    unfold onScreen typed
    rw [List.length_drop, List.length_map, List.length_take, List.length_finRange,
      Nat.min_eq_left (by omega)]
  have hrow : s.mark < 0 → 0 < s.window.cursor := fun hneg => by
    have h9 := h.row hneg
    unfold TermWindow.cursor
    omega
  refine ⟨fun heq => ?_, fun h0 => List.ext_getElem (by omega) fun j hj hj' => ?_⟩
  · have hlength := congrArg List.length heq
    rw [hshown, honScreen] at hlength
    by_cases hneg : s.mark < 0
    · have hpos := hrow hneg
      omega
    · omega
  · have hplace : (-s.mark).toNat + j < 64 := by omega
    have hcell :=
      h.cell h0 ⟨(-s.mark).toNat + j, hplace⟩ (by dsimp only; omega) (by dsimp only; omega)
    have hfirst : s.mark.toNat + j = (s.mark + ((-s.mark).toNat + j : ℕ)).toNat := by omega
    rw [shown_getElem, onScreen_getElem (by omega), hfirst]
    exact hcell

end Prompted

open Prompted

/-- The screen shows the input, as far as it is still on the screen, exactly in the runs in which no
backspace takes a character off the input in the first column of a row. -/
theorem shown_iff_neverStuck (twExec : TermWindow → TermWindow) {t : TermWindow}
    (hempty : t.inputLen.val = 0)
    {cs : List UInt8} (hcs : ∀ c ∈ cs, Edits c) :
    ((start t).keys twExec cs).shown = ((start t).keys twExec cs).onScreen ↔
      (start t).NeverStuck twExec cs := by
  obtain ⟨extra, h, -, hiff⟩ := (start_echoes hempty).keys twExec hcs
  rw [h.shown_iff]
  exact hiff

/-- A prompt at the end of a row, with no input. -/
def rowEnd : TermWindow := ⟨fun _ _ => 0, 23, 0, fun _ => 0, 0⟩

theorem shown_iff_neverStuck_rowEnd : (rowEnd.inputLen.val = 0 ∧ ∀ c ∈ [97, 98, 8], Edits c) ∧
    (((start rowEnd).keys id [97, 98, 8]).shown = ((start rowEnd).keys id [97, 98, 8]).onScreen ↔
      (start rowEnd).NeverStuck id [97, 98, 8]) :=
  have hcs : ∀ c ∈ [97, 98, 8], Edits c := by simp [Edits]
  ⟨⟨rfl, hcs⟩, shown_iff_neverStuck id rfl hcs⟩

/-- Behind a wrap, the second of two backspaces leaves the first character on the screen. -/
theorem wrapped_stays : (rowEnd.inputLen.val = 0 ∧ ∀ c ∈ [97, 98, 8, 8], Edits c) ∧
    ((start rowEnd).keys id [97, 98, 8, 8]).shown = [97] ∧
      ((start rowEnd).keys id [97, 98, 8, 8]).onScreen = [] :=
  ⟨⟨rfl, by simp [Edits]⟩, rfl, rfl⟩

end MinervaOS.Terminal
