import MinervaOS.Browser.Fallback

/-!
# The page in the terminal

What `tw_print_http_page` prints of a body: the same text as the browser shows, in 8 rows of 24
cells. Both go on behind the next `;` after every `&`, so a `&` that begins no reference takes the
text up to there with it, and in the terminal the character of a reference is not printed where a
blank has filled the row.
-/

namespace MinervaOS.Terminal

open Browser Browser.Page
open Net (chars)

/-- `TWIN_COLS`. -/
def twinCols : Nat := 24

section Data

variable (data : List UInt8)

def twMatchWord (index len : Nat) (word : List UInt8) : Option Bool := matchWord data len index word

def twMatchWords (index len : Nat) : List (List UInt8) → Option Bool
  | [] => some false
  | word :: words => do
    if ← twMatchWord data index len word then return true else twMatchWords index len words

def twSkipTag (index len : Nat) : Option Nat := skipTag data index len

/-- `</` and the name. -/
def twClosesAt (index len : Nat) (name : List UInt8) : Option Bool := do
  if (← data[index]?) != 60 then return false
  if index + 2 < len then
    if (← data[index + 1]?) != 47 then return false
    twMatchWord data (u16 (index + 2)) len name
  else return false

def twSkipElement (index len : Nat) (name : List UInt8) : Option Nat := do
  let index ← twSkipTag data index len
  loop (fun index => do
    if index + 3 < len then
      if ← twClosesAt data index len name then return .inr (← twSkipTag data index len)
      else return .inl (u16 (index + 1))
    else return .inr index) loopSteps index

/-- Behind the element, where it is one whose text is not shown. -/
def twRawElement (index len : Nat) : List (List UInt8) → Option (Option Nat)
  | [] => some none
  | name :: names => do
    if ← twMatchWord data index len name then
      let index ← twSkipElement data index len name
      return some index
    else twRawElement index len names

end Data

def twEntities : List (List UInt8 × UInt8) :=
  [(chars "amp;", 38), (chars "lt;", 60), (chars "gt;", 62), (chars "quot;", 34),
    (chars "nbsp;", 32)]

def twFindBodyStart (info : NetInfo) : Option Nat :=
  loop (fun i => do
    if i + 5 < info.len then
      if (← info.httpResponse[i]?) != 60 then return .inl (u16 (i + 1))
      if !(← twMatchWord info.httpResponse (u16 (i + 1)) info.len (chars "body")) then
        return .inl (u16 (i + 1))
      let i ← scanTo info.httpResponse (· == 62) info.len i
      if i < info.len then return .inr (u16 (i + 1)) else return .inl (u16 (i + 1))
    else return .inr info.httpBodyOffset) loopSteps info.httpBodyOffset

/-- The variables of `tw_print_http_page`, and what is put on the terminal. -/
structure TwPage where
  index : Nat
  rows : Nat
  cols : Nat
  pendingSpace : Bool
  puts : List UInt8

namespace TwPage

/-- `term_window_putc(t, c); cols++`. -/
def put (t : TwPage) (c : UInt8) : TwPage := { t with puts := t.puts ++ [c], cols := t.cols + 1 }

/-- `term_window_putc(t, '\n'); rows++; cols = 0`. -/
def newline (t : TwPage) : TwPage :=
  { t with puts := t.puts ++ [10], rows := t.rows + 1, cols := 0 }

/-- The blank that is pending, where there is a cell for it between two characters. -/
def blank (t : TwPage) : TwPage :=
  if t.pendingSpace ∧ t.cols > 0 ∧ t.cols < twinCols then { t.put 32 with pendingSpace := false }
  else { t with pendingSpace := false }

/-- The next row, where this one is full. -/
def wrap (t : TwPage) : TwPage :=
  if t.cols ≥ twinCols then { t.newline with pendingSpace := false } else t

/-- A character, where there is a cell for it. -/
def putRoom (t : TwPage) (c : UInt8) : TwPage := if t.cols < twinCols then t.put c else t

variable (info : NetInfo)

def twSkipHtmlEntity (t : TwPage) : Option TwPage := do
  let out := (← matchAny info.httpResponse t.index info.len twEntities).getD 32
  let index ← scanTo info.httpResponse (· == 59) info.len t.index
  return { t.putRoom out with index := if index < info.len then u16 (index + 1) else index }

/-- The names that a row begins with. -/
def blockWords : List (List UInt8) := [chars "br", chars "p", chars "h1", chars "h2", chars "div"]

/-- A `<`, with the index behind it. -/
def tag (t : TwPage) : Option (Pass TwPage TwPage) := do
  let closing ← slashAt info.httpResponse t.index info.len
  let index := if closing then u16 (t.index + 1) else t.index
  match ← twRawElement info.httpResponse index info.len
    (if closing then [] else [chars "style", chars "script"]) with
  | some index => return .inl { t with index := index }
  | none =>
    let block ← twMatchWords info.httpResponse index info.len blockWords
    let index ← twSkipTag info.httpResponse index info.len
    return .inl (if block ∧ t.cols > 0 then { t.newline with index := index, pendingSpace := false }
      else { t with index := index })

/-- A character that is not blank. -/
def letter (t : TwPage) (c : UInt8) : Pass TwPage TwPage :=
  let c := if c < 32 || c > 126 then 32 else c
  let t := t.blank
  if t.cols ≥ twinCols then
    -- only where the blank has filled the row
    if t.newline.rows ≥ 8 then .inr t.newline else .inl (t.newline.put c).wrap
  else .inl (t.put c).wrap

/-- A pass of the loop of `tw_print_http_page`. -/
def pass (t : TwPage) : Option (Pass TwPage TwPage) := do
  if t.index < info.len ∧ t.rows < 8 then
    let c ← info.httpResponse[t.index]?
    let t := { t with index := u16 (t.index + 1) }
    if c == 60 then t.tag info
    else if c == 38 then return .inl (← t.blank.twSkipHtmlEntity info).wrap
    else if isSpace c then return .inl { t with pendingSpace := true }.wrap
    else return t.letter c
  else return .inr t

def start (index : Nat) : TwPage where
  index := index
  rows := 0
  cols := 0
  pendingSpace := false
  puts := []

end TwPage

/-- `tw_print_num`. -/
def twPrintNum (n : Nat) : List UInt8 := chars (toString n)

/-- The line above the page. -/
def pageLine (info : NetInfo) (httpStatus : Nat) : List UInt8 :=
  chars "Page " ++ twPrintNum httpStatus ++ [32] ++ twPrintNum info.len ++ chars "b\n"

/-- What is put on the terminal, with `http_status`. -/
def twPrintHttpPage (info : NetInfo) (httpStatus : Nat) : Option (List UInt8) := do
  let index ← twFindBodyStart info
  let t ← loop (TwPage.pass info) loopSteps (TwPage.start index)
  return pageLine info httpStatus ++ (t.puts ++ if t.cols > 0 ∧ t.rows < 8 then [10] else [])

/-! ## Cells -/

/-- The cells that are filled on the terminal, blank or not. -/
def cells (puts : List UInt8) : Nat := (puts.filter (· != 10)).length

theorem namedChar_visible {name : List UInt8} {c : UInt8} (h : namedChar name = some c) :
    isVisible c = true := by
  unfold namedChar at h
  rw [List.lookup_cons, List.lookup_cons, List.lookup_cons, List.lookup_cons, List.lookup_nil] at h
  split at h
  · obtain rfl := Option.some.inj h
    rfl
  split at h
  · obtain rfl := Option.some.inj h
    rfl
  split at h
  · obtain rfl := Option.some.inj h
    rfl
  split at h
  · obtain rfl := Option.some.inj h
    rfl
  · cases h

/-- A character that has a cell of its own. -/
def Printable (c : UInt8) : Prop := c = 32 ∨ isVisible c = true

theorem Printable.of_letter (c : UInt8) : Printable (if c < 32 || c > 126 then 32 else c) := by
  by_cases h : (c < 32 || c > 126) = true
  · rw [if_pos h]
    exact Or.inl rfl
  · rw [if_neg h]
    rw [unprintable_iff] at h
    by_cases hc : c = 32
    · exact Or.inl hc
    · refine Or.inr ((isVisible_iff c).2 ?_)
      have hne : c.toNat ≠ 32 := fun heq => hc (UInt8.toNat_inj.1 heq)
      omega

theorem Printable.of_reference (text : List UInt8) :
    Printable ((if startsRef text then namedChar (refName text) else none).getD 32) := by
  split
  · cases hname : namedChar (refName text) with
    | none => exact Or.inl rfl
    | some c => exact Or.inr (namedChar_visible hname)
  · exact Or.inl rfl

theorem Printable.nonSpace {c : UInt8} (h : Printable c) : nonSpace [c] = seen [c] := by
  rcases h with rfl | h
  · rfl
  · have hspace : (!isSpace c) = true := by
      rw [isVisible_iff] at h
      rw [Bool.not_eq_true', ← Bool.not_eq_true, isSpace_iff]
      omega
    show List.filter (fun c => !isSpace c) [c] = List.filter isVisible [c]
    rw [List.filter_cons, List.filter_cons, if_pos hspace, if_pos h]
    rfl

theorem Printable.ne_newline {c : UInt8} (h : Printable c) : c ≠ 10 := by
  rcases h with rfl | h
  · decide
  · rintro rfl
    cases h

namespace TwPage

/-- The text is in 8 rows of 24 cells, of which the last is followed by no other. -/
structure Placed (t : TwPage) : Prop where
  cells : cells t.puts = 24 * t.rows + t.cols
  cols_le : t.cols ≤ 24
  rows_le : t.rows ≤ 8
  last : t.rows = 8 → t.cols = 0

/-- The text that is still to be printed. -/
def rest (info : NetInfo) (t : TwPage) : List UInt8 := info.textAt t.index

/-- The characters that were printed. -/
def shown (t : TwPage) : List UInt8 := nonSpace t.puts

variable {t : TwPage}

theorem Placed.update {i : Nat} {b : Bool} (h : t.Placed) :
    Placed { t with index := i, pendingSpace := b } :=
  ⟨h.cells, h.cols_le, h.rows_le, h.last⟩

theorem put_placed (h : t.Placed) (hrow : t.rows < 8) (hcol : t.cols < 24) {c : UInt8}
    (hc : Printable c) :
    (t.put c).Placed := by
  refine ⟨?_, hcol, h.rows_le, fun h8 => absurd h8 (Nat.ne_of_lt hrow)⟩
  have hcells := h.cells
  unfold put Terminal.cells at hcells ⊢
  rw [List.filter_append, List.length_append, hcells, List.filter_cons,
    if_pos (bne_iff_ne.2 hc.ne_newline)]
  rfl

theorem put_shown {c : UInt8} (hc : Printable c) : (t.put c).shown = t.shown ++ seen [c] := by
  unfold shown put
  rw [nonSpace_append, hc.nonSpace]

theorem newline_placed (h : t.Placed) (hcol : t.cols = 24) : t.newline.Placed := by
  have hcells := h.cells
  have hrow : t.rows ≠ 8 := fun h8 => by
    have h0 := h.last h8
    omega
  have hle := h.rows_le
  refine ⟨?_, Nat.zero_le _, by unfold newline; dsimp only; omega, fun _ => rfl⟩
  unfold newline Terminal.cells at *
  rw [List.filter_append, List.length_append, hcells]
  dsimp only
  rw [hcol]
  show 24 * t.rows + 24 + 0 = 24 * (t.rows + 1) + 0
  omega

theorem newline_shown : t.newline.shown = t.shown := by
  unfold shown newline
  rw [nonSpace_append]
  exact List.append_nil _

/-- Only a blank may fill a row before its character is printed. -/
structure Blanked (t t' : TwPage) : Prop where
  placed : t'.Placed
  index : t'.index = t.index
  rows : t'.rows = t.rows
  shown : t'.shown = t.shown
  filled : t'.cols = 24 ↔ t.pendingSpace = true ∧ t.cols = 23

theorem blank_blanked (h : t.Placed) (hrow : t.rows < 8) (hcol : t.cols < 24) :
    Blanked t t.blank := by
  unfold blank twinCols
  by_cases hpend : t.pendingSpace ∧ t.cols > 0 ∧ t.cols < 24
  · rw [if_pos hpend]
    refine ⟨(put_placed h hrow hcol (Or.inl rfl)).update, rfl, rfl,
      (put_shown (Or.inl rfl)).trans (List.append_nil _), ?_⟩
    show t.cols + 1 = 24 ↔ _
    constructor
    · intro h24
      exact ⟨hpend.1, by omega⟩
    · intro h23
      omega
  · rw [if_neg hpend]
    refine ⟨h.update, rfl, rfl, rfl, ?_⟩
    show t.cols = 24 ↔ _
    constructor
    · intro h24
      omega
    · intro h23
      exact absurd ⟨h23.1, by omega, by omega⟩ hpend

/-- Where there is room in the row. -/
structure Wrapped (t t' : TwPage) : Prop where
  placed : t'.Placed
  col : t'.cols < 24
  index : t'.index = t.index
  rows : t'.rows = if t.cols = 24 then t.rows + 1 else t.rows
  shown : t'.shown = t.shown

theorem wrap_wrapped (h : t.Placed) : Wrapped t t.wrap := by
  have hle := h.cols_le
  unfold wrap twinCols
  by_cases hfull : t.cols ≥ 24
  · have h24 : t.cols = 24 := Nat.le_antisymm hle hfull
    rw [if_pos hfull]
    exact ⟨(newline_placed h h24).update, Nat.zero_lt_succ _, rfl, (if_pos h24).symm, newline_shown⟩
  · rw [if_neg hfull]
    exact ⟨h, Nat.not_le.1 hfull, rfl, (if_neg fun h24 => hfull (Nat.le_of_eq h24.symm)).symm, rfl⟩

/-! ## The loop -/

variable {info : NetInfo}

theorem twEntities_find (text : List UInt8) :
    ((twEntities.find? (browserStartsWith text ·.1)).map (·.2)).getD 32 =
      (if startsRef text then namedChar (refName text) else none).getD 32 := by
  rw [← entities_find text, show twEntities = entities ++ [(chars "nbsp;", 32)] from rfl,
    List.find?_append]
  cases entities.find? (browserStartsWith text ·.1) with
  | some w => rfl
  | none =>
    rw [Option.none_or, List.find?_cons]
    cases browserStartsWith text (chars "nbsp;") <;> rfl

theorem twSkipHtmlEntity_next (hinfo : info.len ≤ 8192) (hi : t.index ≤ info.len) :
    Yields (t.twSkipHtmlEntity info) fun t' => ∃ j,
      t' = { t.putRoom
        ((if startsRef (t.rest info) then namedChar (refName (t.rest info)) else none).getD 32) with
        index := j } ∧
      info.textAt j = behindSemicolon (t.rest info) ∧ t.index ≤ j ∧ j ≤ info.len := by
  have hany : Yields (matchAny info.httpResponse t.index info.len twEntities) fun c =>
      c.getD 32 =
        (if startsRef (t.rest info) then namedChar (refName (t.rest info)) else none).getD 32 :=
    ⟨_, matchAny_eq hinfo t.index twEntities, twEntities_find _⟩
  refine Yields.bind hany fun c hc => Yields.bind (scanSemicolon_yields hinfo hi) fun j hj =>
    Yields.pure ⟨_, ?_, hj⟩
  rw [hc]
  rfl

/-- The text without tags, in its cells. -/
structure Text (info : NetInfo) (t : TwPage) : Prop where
  index_le : t.index ≤ info.len
  placed : t.Placed
  col : t.cols < 24
  tags : 60 ∉ t.rest info

/-- A reference, behind a blank that fills the row. -/
structure Cut (info : NetInfo) (t : TwPage) : Prop where
  pending : t.pendingSpace = true
  col : t.cols = 23
  amp : (t.rest info).head? = some 38
  seen : seen [(nextChar namedChar (t.rest info)).1] ≠ []

/-- What a pass comes to: the next character is printed, or cut, or there is no row left for it. -/
inductive Prints (info : NetInfo) (t : TwPage) : Pass TwPage TwPage → Prop
  | shown {t' : TwPage} (htext : Text info t') (hlt : t.index < t'.index)
      (hrest : t'.rest info = (nextChar namedChar (t.rest info)).2) (hcut : ¬Cut info t)
      (hshown : t'.shown = t.shown ++ seen [(nextChar namedChar (t.rest info)).1]) :
      Prints info t (.inl t')
  | cut {t' : TwPage} (htext : Text info t') (hlt : t.index < t'.index)
      (hrest : t'.rest info = (nextChar namedChar (t.rest info)).2) (hcut : Cut info t)
      (hshown : t'.shown = t.shown) (hrow : t'.rows = t.rows + 1) : Prints info t (.inl t')
  | full {t' : TwPage} (hplaced : t'.Placed) (hrow : t'.rows = 8) (hshown : t'.shown = t.shown) :
      Prints info t (.inr t')

theorem Text.next (hs : Text info t) {t' : TwPage} (hplaced : t'.Placed) (hcol : t'.cols < 24)
    (hlt : t.index < t'.index) (hle : t'.index ≤ info.len) : Text info t' := by
  refine ⟨hle, hplaced, hcol, fun hmem => hs.tags ?_⟩
  have hsplit : (t.rest info).drop (t'.index - t.index) = t'.rest info := by
    unfold rest NetInfo.textAt
    rw [List.drop_drop, Nat.add_sub_of_le (Nat.le_of_lt hlt)]
  exact List.mem_of_mem_drop (hsplit ▸ hmem)

/-- A reference is printed, or cut where its row is filled by a blank. -/
theorem reference_prints (hs : Text info t) (hrow : t.rows < 8) {c : UInt8} {j : Nat}
    (hlt : t.index < j)
    (hle : j ≤ info.len) (hamp : (t.rest info).head? = some 38) (hc : Printable c)
    (hnext : (c, info.textAt j) = nextChar namedChar (t.rest info)) {i : Nat} :
    Prints info t (.inl ({ ({ t with index := i }.blank.putRoom c) with index := j }.wrap)) := by
  have hblank : Blanked { t with index := i } { t with index := i }.blank :=
    blank_blanked hs.placed.update hrow hs.col
  revert hblank
  generalize { t with index := i }.blank = t₁
  intro hblank
  have hrow₁ : t₁.rows < 8 := hblank.rows ▸ hrow
  have hle₁ := hblank.placed.cols_le
  by_cases hfilled : t₁.cols = 24
  · have hroom : t₁.putRoom c = t₁ := if_neg (by
      unfold twinCols
      omega)
    rw [hroom]
    have hwrap := wrap_wrapped (t := { t₁ with index := j }) hblank.placed.update
    have htext := hs.next hwrap.placed hwrap.col (hwrap.index ▸ hlt) (hwrap.index ▸ hle)
    have hshown := hwrap.shown.trans hblank.shown
    have hrest : ({ t₁ with index := j }.wrap).rest info =
        (nextChar namedChar (t.rest info)).2 := by
      rw [← hnext]
      exact congrArg info.textAt hwrap.index
    by_cases hseen : seen [c] = []
    · refine Prints.shown htext (hwrap.index ▸ hlt) hrest (fun hcut => hcut.seen ?_) ?_
      · rw [← hnext]
        exact hseen
      · rw [← hnext, hseen, List.append_nil]
        exact hshown
    · obtain ⟨hpend, hcol⟩ := hblank.filled.1 hfilled
      refine Prints.cut htext (hwrap.index ▸ hlt) hrest ⟨hpend, hcol, hamp, ?_⟩ hshown ?_
      · rw [← hnext]
        exact hseen
      · rw [hwrap.rows, if_pos hfilled]
        exact congrArg (· + 1) hblank.rows
  · have hcol₁ : t₁.cols < 24 := Nat.lt_of_le_of_ne hle₁ hfilled
    have hroom : t₁.putRoom c = t₁.put c := if_pos hcol₁
    rw [hroom]
    have hwrap := wrap_wrapped (t := { t₁.put c with index := j })
      (put_placed hblank.placed hrow₁ hcol₁ hc).update
    refine Prints.shown (hs.next hwrap.placed hwrap.col (hwrap.index ▸ hlt) (hwrap.index ▸ hle))
      (hwrap.index ▸ hlt) ?_
      (fun hcut => hfilled (hblank.filled.2 ⟨hcut.pending, hcut.col⟩)) ?_
    · rw [← hnext]
      exact congrArg info.textAt hwrap.index
    · rw [← hnext]
      exact hwrap.shown.trans ((put_shown hc).trans (congrArg (· ++ seen [c]) hblank.shown))

/-- A character is printed, in the next row if its row is filled by a blank. -/
theorem letter_prints (hs : Text info t) (hrow : t.rows < 8) {c : UInt8} {j : Nat}
    (hlt : t.index < j)
    (hle : j ≤ info.len) (hamp : (t.rest info).head? ≠ some 38)
    (hnext : (c, info.textAt j) = nextChar namedChar (t.rest info)) :
    Prints info t ({ t with index := j }.letter c) := by
  have hblank : Blanked { t with index := j } { t with index := j }.blank :=
    blank_blanked hs.placed.update hrow hs.col
  unfold letter twinCols
  dsimp only
  revert hblank
  generalize { t with index := j }.blank = t₁
  intro hblank
  have hprintable := Printable.of_letter c
  have hprinted : ∀ t₂ : TwPage, t₂.Placed → t₂.rows < 8 → t₂.cols < 24 → t₂.index = j →
    t₂.shown = t.shown →
      Prints info t (.inl (t₂.put (if c < 32 || c > 126 then 32 else c)).wrap) := by
    intro t₂ hplaced hrow₂ hcol₂ hindex hshown
    have hwrap := wrap_wrapped (put_placed hplaced hrow₂ hcol₂ hprintable)
    have hj : (t₂.put (if c < 32 || c > 126 then 32 else c)).wrap.index = j :=
      hwrap.index.trans hindex
    refine Prints.shown (hs.next hwrap.placed hwrap.col (hj ▸ hlt) (hj ▸ hle)) (hj ▸ hlt) ?_
      (fun hcut => hamp hcut.amp) ?_
    · rw [← hnext]
      exact congrArg info.textAt hj
    · rw [← hnext, ← hshown, ← nonSpace_printed, hprintable.nonSpace]
      exact hwrap.shown.trans (put_shown hprintable)
  by_cases hfilled : t₁.cols ≥ 24
  · have h24 : t₁.cols = 24 := Nat.le_antisymm hblank.placed.cols_le hfilled
    have hnewline := newline_placed hblank.placed h24
    rw [if_pos hfilled]
    by_cases hlast : t₁.newline.rows ≥ 8
    · rw [if_pos hlast]
      exact Prints.full hnewline (Nat.le_antisymm hnewline.rows_le hlast)
        (newline_shown.trans hblank.shown)
    · rw [if_neg hlast]
      exact hprinted _ hnewline (Nat.not_le.1 hlast) (Nat.zero_lt_succ _) hblank.index
        (newline_shown.trans hblank.shown)
  · rw [if_neg hfilled]
    exact hprinted _ hblank.placed (hblank.rows ▸ hrow) (Nat.not_le.1 hfilled)
      hblank.index hblank.shown

theorem pass_prints (hinfo : info.len ≤ 8192) (hs : Text info t) (hlt : t.index < info.len)
    (hrow : t.rows < 8) :
    Yields (pass info t) (Prints info t) := by
  have htext : t.rest info = info.httpResponse[t.index] :: info.textAt (t.index + 1) :=
    List.drop_eq_getElem_cons hlt
  refine Yields.ite (fun _ => ?_) fun h => absurd ⟨hlt, hrow⟩ h
  refine Yields.bind (yields_getElem hlt) fun c hc => ?_
  rw [← hc] at htext
  rw [u16_of_lt (by omega)]
  have htag : c ≠ 60 := fun heq => hs.tags (by
    rw [htext, heq]
    exact List.mem_cons_self)
  refine Yields.ite (fun heq => absurd (eq_of_beq heq) htag) fun _ =>
    Yields.ite (fun heq => ?_) fun hne => ?_
  · obtain rfl := eq_of_beq heq
    have hamp : (t.rest info).head? = some 38 := by rw [htext, List.head?_cons]
    have hindex : { t with index := t.index + 1 }.blank.index = t.index + 1 :=
      (blank_blanked (t := { t with index := t.index + 1 }) hs.placed.update hrow hs.col).index
    have hrest : { t with index := t.index + 1 }.blank.rest info = info.textAt (t.index + 1) :=
      congrArg info.textAt hindex
    refine Yields.bind (twSkipHtmlEntity_next hinfo (hindex.trans_le hlt)) fun t' ht' =>
      Yields.pure ?_
    obtain ⟨j, rfl, hj, hle, hmax⟩ := ht'
    rw [hindex] at hle
    rw [hrest] at hj ⊢
    refine reference_prints hs hrow hle hmax hamp (Printable.of_reference _) ?_
    rw [htext, hj]
    exact (nextChar_amp _).symm
  · have hne' : c ≠ 38 := by simpa using hne
    have hamp : (t.rest info).head? ≠ some 38 := by
      rw [htext, List.head?_cons]
      exact fun h => hne' (Option.some.inj h)
    have hnext : (c, info.textAt (t.index + 1)) = nextChar namedChar (t.rest info) := by
      rw [htext]
      exact (nextChar_char hne' _).symm
    refine Yields.ite (fun hspace => Yields.pure ?_) fun _ => Yields.pure ?_
    · have hwrap :=
        wrap_wrapped (t := { t with index := t.index + 1, pendingSpace := true }) hs.placed.update
      refine Prints.shown (hs.next hwrap.placed hwrap.col ?_ ?_) ?_ ?_
        (fun hcut => hamp hcut.amp) ?_
      · rw [hwrap.index]
        exact Nat.lt_succ_self _
      · rw [hwrap.index]
        exact hlt
      · rw [hwrap.index]
        exact Nat.lt_succ_self _
      · rw [← hnext]
        exact congrArg info.textAt hwrap.index
      · rw [← hnext, seen_space hspace, List.append_nil]
        exact hwrap.shown
    · exact letter_prints hs hrow (Nat.lt_succ_self _) hlt hamp hnext

theorem pass_stops (h : ¬(t.index < info.len ∧ t.rows < 8)) :
    pass info t = some (.inr t) := if_neg h

theorem pass_text (hinfo : info.len ≤ 8192) (hs : Text info t) : Yields (pass info t)
    (Advances (Text info) (fun t => info.len - t.index) (fun _ => True) t) := by
  by_cases h : t.index < info.len ∧ t.rows < 8
  · refine (pass_prints hinfo hs h.1 h.2).mono fun r hr => ?_
    cases hr with
    | shown htext hlt _ _ _ => exact ⟨htext, Nat.sub_lt_sub_left h.1 hlt⟩
    | cut htext hlt _ _ _ _ => exact ⟨htext, Nat.sub_lt_sub_left h.1 hlt⟩
    | full _ _ _ => exact trivial
  · exact ⟨_, pass_stops h, trivial⟩

theorem pass_follows (hinfo : info.len ≤ 8192) (hs : Text info t) {t' : TwPage}
    (h : pass info t = some (.inl t')) :
    Follows namedChar (rest info) shown (fun t => t.rows = 8) (Cut info) t t' ∧
      (Cut info t → t'.rows = t.rows + 1) := by
  by_cases hgo : t.index < info.len ∧ t.rows < 8
  · have hprints := (pass_prints hinfo hs hgo.1 hgo.2).of_eq h
    cases hprints with
    | shown _ _ hrest hcut hshown =>
      exact ⟨⟨hrest, Nat.ne_of_lt hgo.2, fun _ => Or.inl hshown, fun hc => absurd hc hcut⟩,
        fun hc => absurd hc hcut⟩
    | cut _ _ hrest hcut hshown hrow =>
      exact ⟨⟨hrest, Nat.ne_of_lt hgo.2, fun hc => absurd hcut hc, fun _ => ⟨hshown, hcut.seen⟩⟩,
        fun _ => hrow⟩
  · rw [pass_stops hgo] at h
    cases h

/-- The loop ends behind the text, or behind the last row. -/
theorem pass_end (hinfo : info.len ≤ 8192) (hs : Text info t) {a : TwPage}
    (h : pass info t = some (.inr a)) :
    a.Placed ∧ a.shown = t.shown ∧ (t.rest info = [] ∧ t.rows < 8 ∨ a.rows = 8) := by
  by_cases hgo : t.index < info.len ∧ t.rows < 8
  · have hprints := (pass_prints hinfo hs hgo.1 hgo.2).of_eq h
    cases hprints with
    | full hplaced hrow hshown => exact ⟨hplaced, hshown, Or.inr hrow⟩
  · rw [pass_stops hgo] at h
    obtain rfl := Sum.inr.inj (Option.some.inj h)
    refine ⟨hs.placed, rfl, ?_⟩
    rcases Nat.lt_or_ge t.rows 8 with hrow | hrow
    · exact Or.inl ⟨List.drop_eq_nil_of_le (Nat.not_lt.1 fun hlt => hgo ⟨hlt, hrow⟩), hrow⟩
    · exact Or.inr (Nat.le_antisymm hs.placed.rows_le hrow)

end TwPage

section Page

variable {info : NetInfo} (hinfo : info.len ≤ 8192) (hbody : info.httpBodyOffset ≤ info.len)
  (htags : 60 ∉ info.textAt info.httpBodyOffset)

include hinfo htags

/-- Without a tag, the text begins where the body does. -/
theorem twFindBodyStart_yields :
    Yields (twFindBodyStart info) fun index => index = info.httpBodyOffset := by
  refine loop_yields (I := fun i => info.httpBodyOffset ≤ i) (m := fun i => info.len - i)
    (fun i hi => ?_)
    (Nat.le_refl _) (by
      unfold loopSteps
      omega)
  refine Yields.ite (fun hlt => ?_) fun _ => Yields.pure rfl
  have hlen : i < info.httpResponse.length := by
    unfold NetInfo.len at hlt
    omega
  refine Yields.bind (yields_getElem hlen) fun c hc => ?_
  refine Yields.ite (fun _ => Yields.pure ?_) fun heq => absurd ?_ htags
  · rw [u16_of_lt (by omega)]
    exact ⟨Nat.le_succ_of_le hi, Nat.sub_lt_sub_left (by omega) (Nat.lt_succ_self i)⟩
  · have hmem : info.httpResponse[i] ∈ info.textAt info.httpBodyOffset := by
      have hget : (info.textAt info.httpBodyOffset)[i - info.httpBodyOffset]? =
          some info.httpResponse[i] := by
        unfold NetInfo.textAt
        rw [List.getElem?_drop, Nat.add_sub_of_le hi, List.getElem?_eq_getElem hlen]
      exact List.mem_of_getElem? hget
    have h60 : c = 60 := by simpa using heq
    exact h60 ▸ hc ▸ hmem

include hbody

theorem start_text : (TwPage.start info.httpBodyOffset).Text info :=
  ⟨hbody, ⟨rfl, Nat.zero_le _, Nat.zero_le _, fun _ => rfl⟩, Nat.zero_lt_succ _, htags⟩

/-- Where the loop of `tw_print_http_page` ends, and what has been printed then. -/
theorem twPrintHttpPage_end (httpStatus : Nat) :
    ∃ t a page, Reaches (TwPage.pass info) (TwPage.start info.httpBodyOffset) t ∧ t.Text info ∧
      TwPage.pass info t = some (.inr a) ∧
        twPrintHttpPage info httpStatus = some (pageLine info httpStatus ++ page) ∧
      nonSpace page = a.shown ∧ cells page = cells a.puts := by
  have hstart := start_text hinfo hbody htags
  obtain ⟨t, a, ht, hend, hloop⟩ :=
      loop_reaches (n := loopSteps) (fun t ht => TwPage.pass_text hinfo ht) hstart (by
    unfold loopSteps
    omega)
  have htext := ht.keeps (fun t ht => TwPage.pass_text hinfo ht) hstart
  obtain ⟨index, hindex, rfl⟩ := twFindBodyStart_yields hinfo htags
  refine ⟨t, a, a.puts ++ if a.cols > 0 ∧ a.rows < 8 then [10] else [], ht, htext, hend, ?_, ?_, ?_⟩
  · unfold twPrintHttpPage
    rw [hindex]
    show (loop (TwPage.pass info) loopSteps (TwPage.start info.httpBodyOffset) >>= _) = _
    rw [hloop]
    rfl
  · rw [nonSpace_append]
    split <;> exact List.append_nil _
  · unfold cells
    rw [List.filter_append]
    split <;> rw [List.length_append] <;> rfl

end Page

/-! ## What is shown -/

/-- All of a text is shown, or as much of it as there are cells for. -/
structure ShownAsFar (text shown : List UInt8) (cells room : Nat) : Prop where
  isPrefix : shown <+: text
  all : cells < room → shown = text

/-- The cells of the page in the window, and on the terminal. -/
def windowCells : Nat := 8 * 26
def terminalCells : Nat := 8 * 24

/-- The browser and the terminal show the same reading of the body. -/
def SameText (info : NetInfo) (b : Browser) (httpStatus : Nat) : Prop :=
  ∃ text, ReadsAs namedChar (info.textAt info.httpBodyOffset) text ∧
    (Yields (renderTextFallback info b) fun r =>
      ShownAsFar text (nonSpace (glyphs r.2.1)) (glyphs r.2.1).length windowCells) ∧
    Yields (twPrintHttpPage info httpStatus) fun puts => ∃ page,
      puts = pageLine info httpStatus ++ page ∧
      ShownAsFar text (nonSpace page) (cells page) terminalCells

/-- There is more room than text, in the window and on the terminal. -/
def Roomy (info : NetInfo) (b : Browser) (httpStatus : Nat) : Prop :=
  (Yields (renderTextFallback info b) fun r => (glyphs r.2.1).length < windowCells) ∧
    Yields (twPrintHttpPage info httpStatus) fun puts => ∃ page,
      puts = pageLine info httpStatus ++ page ∧
      cells page < terminalCells

/-- Wherever there is room, a `&` that begins no reference stands before nothing visible up to the
next `;`, and no reference to a character stands behind a blank that fills a row of the terminal. -/
structure Plain (info : NetInfo) : Prop where
  window : ∀ s, Reaches (TextState.pass info) (TextState.start info) s → s.y < 112 →
    lost namedChar (s.rest info) = []
  terminal : ∀ t, Reaches (TwPage.pass info) (TwPage.start info.httpBodyOffset) t → t.rows < 8 →
    lost namedChar (t.rest info) = [] ∧ (t.Cut info → t.rows = 7)

section Same

variable {info : NetInfo} (hinfo : info.len ≤ 8192) (hbody : info.httpBodyOffset ≤ info.len)
  (htags : 60 ∉ info.textAt info.httpBodyOffset)

include hinfo hbody htags

theorem window_follows {s s' : TextState}
    (hs : Reaches (TextState.pass info) (TextState.start info) s)
    (h : TextState.pass info s = some (.inl s')) :
    Follows namedChar (TextState.rest info) TextState.shown (fun s => 112 ≤ s.y)
      (fun _ => False) s s' :=
  TextState.pass_follows hinfo
    (hs.keeps (fun s hs => TextState.pass_text hinfo hs) (TextState.start_text hbody htags)) h

theorem terminal_follows {t t' : TwPage}
    (ht : Reaches (TwPage.pass info) (TwPage.start info.httpBodyOffset) t)
    (h : TwPage.pass info t = some (.inl t')) :
    Follows namedChar (TwPage.rest info) TwPage.shown (fun t => t.rows = 8) (TwPage.Cut info) t t' ∧
      (t.Cut info → t'.rows = t.rows + 1) :=
  TwPage.pass_follows hinfo
    (ht.keeps (fun t ht => TwPage.pass_text hinfo ht) (start_text hinfo hbody htags)) h

/-- What the window shows, with what is still to be read where its loop ends. -/
theorem window_end (b : Browser) : ∃ t, Reaches (TextState.pass info) (TextState.start info) t ∧
    TextState.pass info t = some (.inr t) ∧
    (Yields (renderTextFallback info b) fun r => nonSpace (glyphs r.2.1) = t.shown ∧
      ((glyphs r.2.1).length < windowCells → t.y < 112 ∧ t.rest info = [])) := by
  obtain ⟨t, ht, hend, hrender, htext, hstop⟩ := renderText_end hinfo hbody htags
  refine ⟨t, ht, hend, (renderTextFallback_glyphs hinfo hbody b hrender).mono fun r hr => ?_⟩
  obtain ⟨-, hglyphs⟩ := hr
  rw [hglyphs]
  refine ⟨rfl, fun hroom => ?_⟩
  obtain ⟨row, col, hplaced⟩ := htext.placed
  have hcells := hplaced.cells
  have hy := hplaced.y
  have hrow := hplaced.row_le
  have hlt : t.y < 112 := by
    by_contra hge
    have h8 : row = 8 := by omega
    unfold windowCells at hroom
    omega
  exact ⟨hlt, hstop.resolve_right (Nat.not_le.2 hlt)⟩

/-- What the terminal shows, with what is still to be read where its loop ends. -/
theorem terminal_end (httpStatus : Nat) :
    ∃ t a, Reaches (TwPage.pass info) (TwPage.start info.httpBodyOffset) t ∧
    TwPage.pass info t = some (.inr a) ∧
    (Yields (twPrintHttpPage info httpStatus) fun puts => ∃ page,
      puts = pageLine info httpStatus ++ page ∧
      nonSpace page = t.shown ∧ (cells page < terminalCells →
        t.rows < 8 ∧ t.rest info = [] ∧ a.rows ≠ 8)) := by
  obtain ⟨t, a, page, ht, htext, hend, hprint, hshown, hcells⟩ :=
    twPrintHttpPage_end hinfo hbody htags httpStatus
  obtain ⟨hplaced, hsame, hstop⟩ := TwPage.pass_end hinfo htext hend
  refine ⟨t, a, ht, hend, _, hprint, page, rfl, hshown.trans hsame, fun hroom => ?_⟩
  have hrow : a.rows ≠ 8 := fun h8 => by
    have hfilled := hplaced.cells
    unfold terminalCells at hroom
    omega
  obtain ⟨hrest, hlt⟩ := hstop.resolve_right hrow
  exact ⟨hlt, hrest, hrow⟩

theorem sameText_of_plain (b : Browser) (httpStatus : Nat) (h : Plain info) :
    SameText info b httpStatus := by
  refine ⟨_, reads_reading _, ?_, ?_⟩
  · obtain ⟨t, ht, hend, hdrawn⟩ := window_end hinfo hbody htags b
    obtain ⟨more, hmore, hrest⟩ :=
      shown_of_fine (fun s s' hs hpass => window_follows hinfo hbody htags hs hpass)
      (fun s s' hs hpass =>
        ⟨h.window s hs (Nat.not_le.1 (window_follows hinfo hbody htags hs hpass).room), False.elim⟩)
        ht
    refine hdrawn.mono fun r hr => ⟨?_, fun hroom => ?_⟩
    · rw [hr.1]
      exact ⟨more, hmore⟩
    · obtain ⟨hy, hnil⟩ := hr.2 hroom
      rw [hrest (Nat.not_le.2 hy), hnil] at hmore
      exact hr.1.trans ((List.append_nil _).symm.trans hmore)
  · obtain ⟨t, a, ht, hend, hprinted⟩ := terminal_end hinfo hbody htags httpStatus
    obtain ⟨more, hmore, hrest⟩ :=
      shown_of_fine (fun t t' ht hpass => (terminal_follows hinfo hbody htags ht hpass).1)
      (fun t t' ht hpass => by
        obtain ⟨hfollows, hcut⟩ := terminal_follows hinfo hbody htags ht hpass
        have hplaced :=
          (ht.keeps (fun t ht => TwPage.pass_text hinfo ht) (start_text hinfo hbody htags)).placed
        obtain ⟨hlost, hlast⟩ := h.terminal t ht (Nat.lt_of_le_of_ne hplaced.rows_le hfollows.room)
        refine ⟨hlost, fun hc => ?_⟩
        rw [hcut hc, hlast hc]) ht
    refine hprinted.mono fun puts hputs => ?_
    obtain ⟨page, hpage, hshown, hroomy⟩ := hputs
    refine ⟨page, hpage, ?_, fun hroom => ?_⟩
    · rw [hshown]
      exact ⟨more, hmore⟩
    · obtain ⟨hrow, hnil, -⟩ := hroomy hroom
      rw [hrest (Nat.ne_of_lt hrow), hnil] at hmore
      exact hshown.trans ((List.append_nil _).symm.trans hmore)

theorem plain_of_sameText (b : Browser) (httpStatus : Nat) (hroomy : Roomy info b httpStatus)
    (h : SameText info b httpStatus) : Plain info := by
  obtain ⟨text, hreads, hwindow, hterminal⟩ := h
  have hleast := length_reading_le hreads
  obtain ⟨hroomw, hroomt⟩ := hroomy
  constructor
  · intro s hs hy
    obtain ⟨t, ht, hend, r, hrender, hshown, -⟩ := window_end hinfo hbody htags b
    have hall : t.shown = text := by
      rw [← hshown]
      exact (hwindow.of_eq hrender).all (hroomw.of_eq hrender)
    have hweight : (TextState.start info).shown.length +
        (reading namedChar false ((TextState.start info).rest info)).length ≤ t.shown.length := by
      rw [hall]
      exact (Nat.zero_add _).trans_le hleast
    by_cases hlt : s.index < info.len
    · have hstate :=
        hs.keeps (fun s hs => TextState.pass_text hinfo hs) (TextState.start_text hbody htags)
      obtain ⟨c, j, -, -, -, hpass⟩ := TextState.pass_next hinfo hstate hlt hy
      exact (fine_of_shown (fun s s' hs hpass => window_follows hinfo hbody htags hs hpass) ht hend
        hweight hs hpass).1
    · have hnil : s.rest info = [] := List.drop_eq_nil_of_le (Nat.not_lt.1 hlt)
      rw [hnil]
      rfl
  · intro t ht hrow
    obtain ⟨u, a, hu, hend, puts, hprint, page, hpage, hshown, hfar⟩ :=
      terminal_end hinfo hbody htags httpStatus
    obtain ⟨page', hpage', hasFar⟩ := hterminal.of_eq hprint
    obtain ⟨page'', hpage'', hroom⟩ := hroomt.of_eq hprint
    obtain rfl := List.append_cancel_left (hpage.symm.trans hpage')
    obtain rfl := List.append_cancel_left (hpage.symm.trans hpage'')
    obtain ⟨-, -, hnotLast⟩ := hfar hroom
    have hall : u.shown = text := hshown.symm.trans (hasFar.all hroom)
    have hweight : (TwPage.start info.httpBodyOffset).shown.length +
        (reading namedChar false ((TwPage.start info.httpBodyOffset).rest info)).length ≤
          u.shown.length := by
      rw [hall]
      exact (Nat.zero_add _).trans_le hleast
    by_cases hlt : t.index < info.len
    · have hstate := ht.keeps (fun t ht => TwPage.pass_text hinfo ht) (start_text hinfo hbody htags)
      obtain ⟨r, hpass, hprints⟩ := TwPage.pass_prints hinfo hstate hlt hrow
      cases r with
      | inl t' =>
        obtain ⟨hlost, hcut⟩ :=
          fine_of_shown (fun t t' ht hpass => (terminal_follows hinfo hbody htags ht hpass).1)
          hu hend hweight ht hpass
        exact ⟨hlost, fun hc => absurd hc hcut⟩
      | inr a' =>
        obtain rfl := ht.end_unique hpass hu hend
        rw [hend] at hpass
        obtain rfl := Sum.inr.inj (Option.some.inj hpass)
        cases hprints with
        | full _ hlast _ => exact absurd hlast hnotLast
    · have hnil : t.rest info = [] := List.drop_eq_nil_of_le (Nat.not_lt.1 hlt)
      refine ⟨?_, fun hc => ?_⟩
      · rw [hnil]
        rfl
      · have hamp := hc.amp
        rw [hnil] at hamp
        cases hamp

/-- A text is plain where every `&` in it begins a reference that stands for a blank. -/
theorem plain_of_tails (h : ∀ text ∈ (info.textAt info.httpBodyOffset).tails,
    lost namedChar text = [] ∧
    (text.head? = some 38 → seen [(nextChar namedChar text).1] = [])) : Plain info where
  window s hs _ := by
    have hsuffix := rest_suffix (fun s s' hs hpass => window_follows hinfo hbody htags hs hpass) hs
    exact (h _ ((List.mem_tails _ _).2 hsuffix)).1
  terminal t ht _ := by
    have hsuffix :=
      rest_suffix (fun t t' ht hpass => (terminal_follows hinfo hbody htags ht hpass).1) ht
    obtain ⟨hlost, hblank⟩ := h _ ((List.mem_tails _ _).2 hsuffix)
    exact ⟨hlost, fun hc => absurd (hblank hc.amp) hc.seen⟩

end Same

/-- A browser without links. -/
def noLinks : Browser := ⟨[], fun _ => ⟨[], 0, 0, 0, 0⟩, 0⟩

end MinervaOS.Terminal
