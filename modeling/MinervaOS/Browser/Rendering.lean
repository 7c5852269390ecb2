import MinervaOS.Browser.Extracts
import Mathlib.Logic.Function.Basic
import Mathlib.Logic.Relation

/-!
# The page

The two loops that draw a page: `render_page_text`, which goes by the tags, and
`render_text_fallback`, which is called where that has drawn nothing. Whatever the response is, both
end, read nothing beyond it, and stay within the links and the colours that there is room for.
-/

namespace MinervaOS.Browser.Page

open Net

/-- `BROWSER_MAX_LINKS`. -/
def browserMaxLinks : Nat := 8
/-- The size of `color_stack`. -/
def colorStackSize : Nat := 8

/-- What is drawn in the window. -/
inductive Draw where
  /-- `window_draw_char` -/
  | char (x y : Nat) (c : UInt8) (color : UInt32)
  /-- `window_fill_rect` -/
  | fill (x y width height : Nat) (color : UInt32)
  /-- `window_draw_string` -/
  | string (x y : Nat) (text : List UInt8) (color : UInt32)
  /-- `browser_draw_string_limit_bg` -/
  | stringLimitBg (x y : Nat) (text : List UInt8) (maxChars : Nat) (fg bg : UInt32)

/-- The character that `window_draw_char` draws. -/
def Draw.glyph : Draw → Option UInt8
  | .char _ _ c _ => some c
  | _ => none

/-- The characters of the text that is drawn. -/
def glyphs (calls : List Draw) : List UInt8 := calls.filterMap Draw.glyph

/-- The fields `link_url`, `link_x`, `link_y`, `link_w` and `link_h` of a link. -/
structure Link where
  url : List UInt8
  x : Nat
  y : Nat
  w : Nat
  h : Nat

/-- `browser_t`, as far as the page has a part in it. -/
structure Browser where
  url : List UInt8
  links : Nat → Link
  linkCount : Nat

/-- The variables of `render_page_text`. -/
structure PageState where
  index : Nat
  inlineColor : UInt32
  colorStack : List UInt32
  x : Nat
  y : Nat
  pendingSpace : Bool
  inHeading : Bool
  inLink : Bool
  currentLink : Nat
  visible : Nat
  browser : Browser
  calls : List Draw

/-! ## Links and colours -/

/-- A write to the fields of a link. -/
def storeLink (b : Browser) (i : Nat) (link : Link) : Option Browser :=
  if i < browserMaxLinks then some { b with links := Function.update b.links i link } else none

def browserTrackLink (b : Browser) (linkIndex x y : Nat) : Option Browser :=
  if linkIndex ≥ b.linkCount then some b
  else
    let l := b.links linkIndex
    if l.w = 0 then storeLink b linkIndex { l with x := x, y := y, w := 8, h := 9 }
    else
      let minX := min l.x x
      let minY := min l.y y
      storeLink b linkIndex { l with
        x := minX, y := minY, w := max (l.x + l.w) (x + 8) - minX, h :=
          max (l.y + l.h) (y + 9) - minY }

/-- `color_stack[stack_depth++] = color`. -/
def pushColor (stack : List UInt32) (color : UInt32) : Option (List UInt32) :=
  if stack.length < colorStackSize then some (stack ++ [color]) else none

namespace PageState

/-! ## Characters -/

/-- In a link, the cell at the place of the text is tracked. -/
def track (s : PageState) : Option Browser :=
  if s.inLink then browserTrackLink s.browser s.currentLink s.x s.y else some s.browser

/-- A character in its cell, underlined in a link. -/
def cell (s : PageState) (c : UInt8) (color : UInt32) : Option PageState := do
  let underline := if s.inLink then [.fill s.x (s.y + 8) 8 1 color] else []
  let browser ← s.track
  return { s with
    browser := browser
    calls := s.calls ++ .char s.x s.y c color :: underline
    x := s.x + 8 }

/-- The blank that is pending, where it is between two characters of a line. -/
def blank (s : PageState) (color : UInt32) : Option PageState := do
  if s.pendingSpace ∧ s.x > 10 ∧ s.x < 216 then
    let s ← s.cell 32 color
    return { s with pendingSpace := false }
  else return { s with pendingSpace := false }

def color (s : PageState) : UInt32 :=
  if s.inLink then Apps.graphicsRgb 20 88 190
  else if s.inHeading then Apps.graphicsRgb 24 76 128
  else s.inlineColor

/-- A `&`, with the index behind it. -/
def entity (s : PageState) (info : NetInfo) : Option (Pass PageState PageState) := do
  let color := s.color
  let s ← s.blank color
  let (c, index) ← readEntity info.httpResponse s.index info.len
  let s ← s.cell c color
  return .inl { s with index := index, visible := u16 (s.visible + 1) }

/-- The next line, where this one is full. -/
def wrap (s : PageState) : PageState := if s.x > 216 then { s with x := 10, y := s.y + 10 } else s

/-- A character that is not blank. -/
def letter (s : PageState) (c : UInt8) : Option (Pass PageState PageState) := do
  let color := s.color
  let c := if c < 32 || c > 126 then 32 else c
  let s ← s.blank color
  let s := s.wrap
  -- only where the line was wrapped
  if s.y ≥ 112 then return .inr s
  let s ← s.cell c color
  return .inl { s with visible := if c != 32 then u16 (s.visible + 1) else s.visible }

/-! ## Tags -/

/-- `browser_newline` with the left margin of the page. -/
def newline (s : PageState) (extra : Bool) : PageState :=
  if s.x ≠ 10 ∨ extra then
    { s with x := 10, y := s.y + (if extra then 12 else 10), pendingSpace := false }
  else { s with pendingSpace := false }

end PageState

/-- What is known of a tag. -/
structure Tag where
  closing : Bool
  isBr : Bool
  isP : Bool
  isDiv : Bool
  isHeading : Bool
  isLink : Bool
  isVoid : Bool
  tagStart : Nat
  tagEnd : Nat

/-- Behind the element, where it is one whose text is not shown. -/
def rawElement (data : List UInt8) (index len : Nat) : List (List UInt8) → Option (Option Nat)
  | [] => some none
  | name :: names => do
    if ← matchTagName data index len name then
      let index ← skipElement data index len name
      return some index
    else rawElement data index len names

def readTag (data : List UInt8) (index len : Nat) (closing : Bool) : Option Tag := do
  let isBr ← matchTagName data index len (chars "br")
  let isP ← matchTagName data index len (chars "p")
  let isDiv ← matchTagName data index len (chars "div")
  let isHeading ← matchTagNames data index len [chars "h1", chars "h2"]
  let isLink ← matchTagName data index len (chars "a")
  let isVoid ← matchTagNames data index len
    [chars "br", chars "hr", chars "img", chars "meta", chars "link", chars "input"]
  let tagEnd ← findTagEnd data index len
  return { closing, isBr, isP, isDiv, isHeading, isLink, isVoid, tagStart := index, tagEnd }

/-- Whether there is a `/` at an index. -/
def slashAt (data : List UInt8) (index len : Nat) : Option Bool := do
  if index < len then return (← data[index]?) == 47
  return false

namespace PageState

variable (info : NetInfo)

/-- The link that a tag opens. -/
def openLink (s : PageState) (tag : Tag) : Option PageState := do
  if !tag.closing && tag.isLink then
    let href ← tagHrefValue info.httpResponse tag.tagStart tag.tagEnd 64
    if href = [] then return s
    if s.browser.linkCount < browserMaxLinks then
      let url ← browserResolveHref s.browser.url (cString href) 64
      let browser ← storeLink s.browser s.browser.linkCount ⟨url, 0, 0, 0, 0⟩
      return { s with
        currentLink := s.browser.linkCount, browser :=
          { browser with linkCount := s.browser.linkCount + 1 } }
    else return { s with currentLink := 255 }
  else return s

/-- The colour of the element that a tag opens. -/
def openStyle (s : PageState) (tag : Tag) : Option PageState := do
  if !tag.closing && !tag.isVoid then
    let color ← tagStyleProperty info.httpResponse tag.tagStart tag.tagEnd (chars "color")
    if s.colorStack.length < 8 then
      let colorStack ← pushColor s.colorStack s.inlineColor
      return { s with colorStack := colorStack, inlineColor := color.getD s.inlineColor }
    else return { s with inlineColor := color.getD s.inlineColor }
  else return s

/-- What a tag does to the place of the text. -/
def layout (s : PageState) (tag : Tag) : PageState :=
  if tag.isHeading then
    if tag.closing then { s with inHeading := false }.newline true else
      { s.newline false with inHeading := true }
  else if tag.isLink then
    { s with inLink := !tag.closing, currentLink := if tag.closing then 255 else s.currentLink }
  else if tag.isBr || tag.isP || tag.isDiv then s.newline tag.closing
  else s

/-- `inline_color = color_stack[--stack_depth]`. -/
def closeStyle (s : PageState) (tag : Tag) : Option PageState := do
  if tag.closing ∧ s.colorStack ≠ [] then
    let color ← s.colorStack.getLast?
    return { s with colorStack := s.colorStack.dropLast, inlineColor := color }
  else return s

/-- A `<`, with the index behind it. -/
def tag (s : PageState) : Option (Pass PageState PageState) := do
  let closing ← slashAt info.httpResponse s.index info.len
  let index := if closing then u16 (s.index + 1) else s.index
  match ← rawElement info.httpResponse index info.len
    (if closing then [] else [chars "style", chars "script"]) with
  | some index => return .inl { s with index := index }
  | none =>
    let tag ← readTag info.httpResponse index info.len closing
    let s ← s.openLink info tag
    let s ← s.openStyle info tag
    let index := if tag.tagEnd < info.len then u16 (tag.tagEnd + 1) else tag.tagEnd
    let s ← ({ s with index := index }.layout tag).closeStyle tag
    return .inl s

/-- A pass of the loop of `render_page_text`. -/
def pass (s : PageState) : Option (Pass PageState PageState) := do
  if s.index < info.len ∧ s.y < 112 then
    let c ← info.httpResponse[s.index]?
    let s := { s with index := u16 (s.index + 1) }
    if c == 60 then s.tag info
    else if c == 38 then s.entity info
    else if isSpace c then return .inl { s with pendingSpace := true }
    else s.letter c
  else return .inr s

/-- Where the loop starts. -/
def start (b : Browser) : Option PageState := do
  let index ← bodyStart info
  let text ← browserPageTextColor info (Apps.graphicsRgb 32 36 40)
  return {
    index := index
    inlineColor := text
    colorStack := []
    x := 10
    y := 34
    pendingSpace := false
    inHeading := false
    inLink := false
    currentLink := 255
    visible := 0
    browser := { b with linkCount := 0 }
    calls := [] }

end PageState

/-- The state in the end, with the number that is returned in `visible`. -/
def renderPageText (info : NetInfo) (b : Browser) : Option PageState := do
  let s ← PageState.start info b
  loop (PageState.pass info) loopSteps s

/-! ## The fallback -/

/-- The variables of `render_text_fallback`. -/
structure TextState where
  index : Nat
  x : Nat
  y : Nat
  pendingSpace : Bool
  visible : Nat
  calls : List Draw

namespace TextState

/-- `browser_draw_text_char`, and whether it returns 1. -/
def drawChar (s : TextState) (c : UInt8) : TextState × Bool :=
  let c := if c < 32 || c > 126 then 32 else c
  let s := if s.x > 216 then { s with x := 10, y := s.y + 10 } else s
  if s.y ≥ 112 then (s, false)
  else
    ({ s with calls := s.calls ++ [.char s.x s.y c (Apps.graphicsRgb 32 36 40)], x := s.x + 8 },
      c != 32)

variable (info : NetInfo)

/-- The names of the tags that begin a line. -/
def blockTags : List (List UInt8) :=
  [chars "title", chars "h1", chars "h2", chars "p", chars "div", chars "br"]

/-- A `<`, with the index behind it. -/
def tag (s : TextState) : Option (Pass TextState TextState) := do
  let closing ← slashAt info.httpResponse s.index info.len
  let tagStart := if closing then u16 (s.index + 1) else s.index
  match ← rawElement info.httpResponse tagStart info.len [chars "script", chars "style"] with
  | some index => return .inl { s with index := index, pendingSpace := true }
  | none =>
    let block ← matchTagNames info.httpResponse tagStart info.len blockTags
    let index ← skipTag info.httpResponse (u16 (s.index - 1)) info.len
    let s := { s with index := index, pendingSpace := !block }
    return .inl (if block ∧ s.x ≠ 10 then { s with x := 10, y := s.y + 10 } else s)

/-- A character that is shown. -/
def letter (s : TextState) (c : UInt8) : TextState :=
  let s := if s.pendingSpace ∧ s.x > 10 then (s.drawChar 32).1 else s
  let (s, shown) := { s with pendingSpace := false }.drawChar c
  { s with visible := u16 (s.visible + if shown then 1 else 0) }

/-- A pass of the loop of `render_text_fallback`. -/
def pass (s : TextState) : Option (Pass TextState TextState) := do
  if s.index < info.len ∧ s.y < 112 then
    if (← info.httpResponse[s.index]?) == 60 then
      let s := { s with index := u16 (s.index + 1) }
      s.tag info
    else
      let (c, index) ← readChar info s.index
      let s := { s with index := index }
      if isSpace c then return .inl { s with pendingSpace := true }
      return .inl (s.letter c)
  else return .inr s

def start : TextState where
  index := info.httpBodyOffset
  x := 10
  y := 34
  pendingSpace := false
  visible := 0
  calls := []

end TextState

/-- The text that is drawn, and the number of its characters in `visible`. -/
def renderText (info : NetInfo) : Option TextState :=
  loop (TextState.pass info) loopSteps (TextState.start info)

/-- What is drawn, and `summary_y`. -/
structure Summary where
  calls : List Draw
  y : Nat

/-- A label with a text. -/
def summaryRow (info : NetInfo) (label : List UInt8) (x maxChars : Nat) (text : List UInt8)
    (s : Summary) :
    Option Summary := do
  let muted := Apps.graphicsRgb 86 92 98
  let bg ← browserPageBackground info (Apps.graphicsRgb 255 255 255)
  return ⟨s.calls ++ [.string 10 s.y label muted,
    .stringLimitBg x s.y (cString text) maxChars muted bg], s.y + 14⟩

/-- The row of a text that was found. -/
def summaryRowIf (info : NetInfo) (label : List UInt8) (x maxChars : Nat) (text : List UInt8)
    (s : Summary) :
    Option Summary :=
  if text = [] then some s else summaryRow info label x maxChars text s

def pageRow (info : NetInfo) (s : Summary) : Option Summary := do
  let pageType ← browserHtmlAttr info (chars "itemtype") 32
  if pageType = [] then return s
  summaryRow info (chars "Page:") 58 20 (← browserShortType pageType) s

/-- The row of a content type, in its short form or, where there is none, whole. -/
def contentRow (info : NetInfo) (label : List UInt8) (value : List UInt8) (s : Summary) :
    Option Summary := do
  if value = [] then return s
  let summary ← browserContentSummary (cString value) 32
  summaryRow info label 50 20 (if summary = [] then value else summary) s

/-- What is shown of a response without text. `drew_summary` is 1 by its first row, the host; so
`No readable text` is never drawn. -/
def renderSummary (info : NetInfo) (b : Browser) (calls : List Draw) : Option (List Draw) := do
  let (host, _) ← browserCurrentHostPath b.url 48 8
  let s ← summaryRow info (chars "Host:") 58 20 host ⟨calls, 38⟩
  let s ← summaryRowIf info (chars "Title:") 66 18 (← browserTitleText info 48) s
  let s ← summaryRowIf info (chars "Desc:") 58 20 (← browserMetaDescription info 64) s
  let s ← pageRow info s
  let s ← summaryRowIf info (chars "Lang:") 58 10 (← browserHtmlAttr info (chars "lang") 16) s
  let content ← browserMetaHttpEquiv info 32
  let s ← contentRow info (chars "Doc:") content s
  let value ← browserHeaderValue info (chars "content-type") 32
  let s ← contentRow info (chars "Type:") (if content = [] then value else []) s
  let s ← summaryRowIf info (chars "Enc:") 42 12
    (← browserHeaderValue info (chars "content-encoding") 32) s
  let s ← summaryRowIf info (chars "Loc:") 42 20 (← browserHeaderValue info (chars "location") 32) s
  return s.calls

/-- The browser, with what is drawn and the number that is returned. -/
def renderTextFallback (info : NetInfo) (b : Browser) : Option (Browser × List Draw × Nat) := do
  let b := { b with linkCount := 0 }
  let s ← renderText info
  if s.visible = 0 then return (b, ← renderSummary info b s.calls, 0)
  return (b, s.calls, s.visible)

/-! ## Links and colours -/

/-- The links and the colours that there is room for. -/
structure PageState.Bounded (s : PageState) : Prop where
  links : s.browser.linkCount ≤ browserMaxLinks
  colors : s.colorStack.length ≤ colorStackSize

section Yields

theorem storeLink_yields {b : Browser} {i : Nat} (hi : i < browserMaxLinks) (link : Link) :
    Yields (storeLink b i link) fun b' => b'.linkCount = b.linkCount := ⟨_, if_pos hi, rfl⟩

theorem browserTrackLink_yields {b : Browser} (hb : b.linkCount ≤ browserMaxLinks) (i x y : Nat) :
    Yields (browserTrackLink b i x y) fun b' => b'.linkCount = b.linkCount := by
  refine Yields.ite (fun _ => Yields.pure rfl) fun hlt => ?_
  have hi : i < browserMaxLinks := Nat.lt_of_lt_of_le (Nat.not_le.1 hlt) hb
  exact Yields.ite (fun _ => storeLink_yields hi _) fun _ => storeLink_yields hi _

section Tags

variable {info : NetInfo} (hinfo : info.len ≤ 8192)

include hinfo

theorem readTag_yields {i : Nat} (hi : i ≤ info.len) (closing : Bool) :
    Yields (readTag info.httpResponse i info.len closing) fun tag =>
      i ≤ tag.tagEnd ∧ tag.tagEnd ≤ info.len := by
  have hname := matchTagName_yields (Nat.le_refl info.len) hinfo i
  have hnames := matchTagNames_yields (Nat.le_refl info.len) hinfo i
  refine Yields.bind (hname _) fun _ _ => Yields.bind (hname _) fun _ _ =>
    Yields.bind (hname _) fun _ _ => ?_
  refine Yields.bind (hnames _) fun _ _ => Yields.bind (hname _) fun _ _ =>
    Yields.bind (hnames _) fun _ _ => ?_
  refine Yields.bind (findTagEnd_yields (Nat.le_refl _) hinfo i) fun tagEnd htag =>
    Yields.pure ⟨htag.le, ?_⟩
  exact Nat.le_trans htag.le_stop (Nat.max_le.2 ⟨hi, Nat.le_refl _⟩)

theorem rawElement_yields {i : Nat} (hi : i ≤ info.len) (names : List (List UInt8)) :
    Yields (rawElement info.httpResponse i info.len names) fun r => ∀ j ∈ r, i ≤ j ∧
      j ≤ info.len := by
  induction names with
  | nil => exact Yields.pure fun j hj => by cases hj
  | cons name names ih =>
    refine Yields.bind (matchTagName_yields (Nat.le_refl _) hinfo i name) fun b _ => ?_
    refine Yields.ite (fun _ => ?_) fun _ => ih
    refine Yields.bind (skipElement_yields (Nat.le_refl _) hinfo name i) fun j hj =>
      Yields.pure fun k hk => ?_
    obtain rfl := Option.some.inj hk
    exact ⟨hj.1, Nat.le_trans hj.2 (Nat.max_le.2 ⟨hi, Nat.le_refl _⟩)⟩

omit hinfo in
theorem slashAt_yields (i : Nat) :
    Yields (slashAt info.httpResponse i info.len) fun b => b = true → i < info.len := by
  refine Yields.ite (fun hi => ?_) fun _ => Yields.pure fun h => by cases h
  exact Yields.bind (yields_getElem hi) fun c _ => Yields.pure fun _ => hi

/-- Behind a `/`, or where the tag begins. -/
theorem behindSlash_le {closing : Bool} {i : Nat} (hi : i ≤ info.len)
    (hclosing : closing = true → i < info.len) :
    i ≤ (if closing then u16 (i + 1) else i) ∧ (if closing then u16 (i + 1) else i) ≤ info.len := by
  split
  next hc =>
    rw [u16_of_lt (by omega)]
    exact ⟨Nat.le_succ _, hclosing hc⟩
  next => exact ⟨Nat.le_refl _, hi⟩

end Tags

namespace PageState

variable {s : PageState}

theorem cell_yields (h : s.Bounded) (c : UInt8) (color : UInt32) :
    Yields (s.cell c color) fun s' => s'.Bounded ∧ s'.index = s.index := by
  have htrack : Yields s.track fun b => b.linkCount = s.browser.linkCount :=
    Yields.ite (fun _ => browserTrackLink_yields h.links _ _ _) fun _ => Yields.pure rfl
  refine Yields.bind htrack fun b hb => Yields.pure ⟨⟨?_, h.colors⟩, rfl⟩
  show b.linkCount ≤ browserMaxLinks
  rw [hb]
  exact h.links

theorem blank_yields (h : s.Bounded) (color : UInt32) :
    Yields (s.blank color) fun s' => s'.Bounded ∧ s'.index = s.index := by
  refine Yields.ite (fun _ => ?_) fun _ => Yields.pure ⟨⟨h.links, h.colors⟩, rfl⟩
  exact Yields.bind (cell_yields h 32 color) fun s' hs' =>
    Yields.pure ⟨⟨hs'.1.links, hs'.1.colors⟩, hs'.2⟩

theorem wrap_bounded (h : s.Bounded) : s.wrap.Bounded ∧ s.wrap.index = s.index := by
  unfold wrap
  split
  · exact ⟨⟨h.links, h.colors⟩, rfl⟩
  · exact ⟨h, rfl⟩

theorem newline_bounded (h : s.Bounded) (extra : Bool) :
    (s.newline extra).Bounded ∧ (s.newline extra).index = s.index := by
  unfold newline
  split
  · exact ⟨⟨h.links, h.colors⟩, rfl⟩
  · exact ⟨⟨h.links, h.colors⟩, rfl⟩

theorem layout_bounded (h : s.Bounded) (tag : Tag) :
    (s.layout tag).Bounded ∧ (s.layout tag).index = s.index := by
  have hnewline : ∀ s' : PageState, s'.Bounded → s'.index = s.index → ∀ extra,
      (s'.newline extra).Bounded ∧ (s'.newline extra).index = s.index :=
    fun s' h' hindex extra =>
      ⟨(newline_bounded h' extra).1, (newline_bounded h' extra).2.trans hindex⟩
  unfold layout
  by_cases hheading : tag.isHeading
  · rw [if_pos hheading]
    by_cases hclosing : tag.closing
    · rw [if_pos hclosing]
      exact hnewline { s with inHeading := false } ⟨h.links, h.colors⟩ rfl true
    · rw [if_neg hclosing]
      obtain ⟨h', hindex⟩ := hnewline s h rfl false
      exact ⟨⟨h'.links, h'.colors⟩, hindex⟩
  · rw [if_neg hheading]
    by_cases hlink : tag.isLink
    · rw [if_pos hlink]
      exact ⟨⟨h.links, h.colors⟩, rfl⟩
    · rw [if_neg hlink]
      by_cases hline : tag.isBr || tag.isP || tag.isDiv
      · rw [if_pos hline]
        exact hnewline s h rfl _
      · rw [if_neg hline]
        exact ⟨h, rfl⟩

theorem closeStyle_yields (h : s.Bounded) (tag : Tag) :
    Yields (s.closeStyle tag) fun s' => s'.Bounded ∧ s'.index = s.index := by
  refine Yields.ite (fun hclose => ?_) fun _ => Yields.pure ⟨h, rfl⟩
  obtain ⟨color, hcolor⟩ := Option.isSome_iff_exists.1 (List.getLast?_isSome.2 hclose.2)
  refine Yields.bind (Q := fun _ => True) ⟨color, hcolor, trivial⟩ fun color _ =>
    Yields.pure ⟨⟨h.links, ?_⟩, rfl⟩
  show s.colorStack.dropLast.length ≤ colorStackSize
  rw [List.length_dropLast]
  exact Nat.le_trans (Nat.sub_le _ 1) h.colors

variable {info : NetInfo} (hinfo : info.len ≤ 8192)

include hinfo

/-- Behind an index, within the response. -/
def Behind (info : NetInfo) (i : Nat) (r : Pass PageState PageState) : Prop :=
  (r.elim id id).Bounded ∧ i ≤ (r.elim id id).index ∧ (r.elim id id).index ≤ info.len

theorem entity_yields (h : s.Bounded) (hi : s.index ≤ info.len) :
    Yields (s.entity info) (Behind info s.index) := by
  refine Yields.bind (blank_yields h _) fun s₁ h₁ => ?_
  refine Yields.bind (readEntity_yields (Nat.le_refl _) hinfo s₁.index) fun r hr => ?_
  obtain ⟨c, index⟩ := r
  refine Yields.bind (cell_yields h₁.1 c _) fun s₂ h₂ => Yields.pure ⟨⟨h₂.1.links, h₂.1.colors⟩, ?_⟩
  have hmax : max s₁.index info.httpResponse.length = info.len := Nat.max_eq_right (h₁.2 ▸ hi)
  rw [hmax, h₁.2] at hr
  exact hr

omit hinfo in
theorem letter_yields (h : s.Bounded) (hi : s.index ≤ info.len) (c : UInt8) :
    Yields (s.letter c) (Behind info s.index) := by
  refine Yields.bind (blank_yields h _) fun s₁ h₁ => ?_
  obtain ⟨h₂, hi₂⟩ := wrap_bounded h₁.1
  rw [h₁.2] at hi₂
  refine Yields.ite (fun _ => Yields.pure ⟨h₂, Nat.le_of_eq hi₂.symm, hi₂ ▸ hi⟩) fun _ => ?_
  refine Yields.bind (cell_yields h₂ _ _) fun s₃ h₃ => Yields.pure ⟨⟨h₃.1.links, h₃.1.colors⟩, ?_⟩
  have hi₃ : s₃.index = s.index := h₃.2.trans hi₂
  exact ⟨Nat.le_of_eq hi₃.symm, hi₃ ▸ hi⟩

theorem openLink_yields (h : s.Bounded) {tag : Tag} (htag : tag.tagEnd ≤ info.len) :
    Yields (s.openLink info tag) fun s' => s'.Bounded ∧ s'.index = s.index := by
  refine Yields.ite (fun _ => ?_) fun _ => Yields.pure ⟨h, rfl⟩
  refine Yields.bind (tagAttrValue_yields htag hinfo _ _ 64) fun href _ => ?_
  refine Yields.ite (fun _ => Yields.pure ⟨h, rfl⟩) fun _ =>
    Yields.ite (fun hroom => ?_) fun _ => ?_
  · refine Yields.bind (browserResolveHref_yields _ _ (by decide)) fun url _ => ?_
    exact Yields.bind (storeLink_yields hroom _) fun b _ => Yields.pure ⟨⟨hroom, h.colors⟩, rfl⟩
  · exact Yields.pure ⟨⟨h.links, h.colors⟩, rfl⟩

theorem openStyle_yields (h : s.Bounded) {tag : Tag} (htag : tag.tagEnd ≤ info.len) :
    Yields (s.openStyle info tag) fun s' => s'.Bounded ∧ s'.index = s.index := by
  refine Yields.ite (fun _ => ?_) fun _ => Yields.pure ⟨h, rfl⟩
  refine Yields.bind (tagStyleProperty_yields htag hinfo _ _) fun color _ =>
    Yields.ite (fun hroom => ?_) fun _ => ?_
  · have hpush : Yields (pushColor s.colorStack s.inlineColor) fun stack =>
        stack = s.colorStack ++ [s.inlineColor] :=
      ⟨_, if_pos hroom, rfl⟩
    refine Yields.bind hpush fun stack hstack => Yields.pure ⟨⟨h.links, ?_⟩, rfl⟩
    show stack.length ≤ colorStackSize
    rw [hstack, List.length_append]
    exact hroom
  · exact Yields.pure ⟨⟨h.links, h.colors⟩, rfl⟩

theorem tag_yields (h : s.Bounded) (hi : s.index ≤ info.len) :
    Yields (s.tag info) (Behind info s.index) := by
  refine Yields.bind (slashAt_yields s.index) fun closing hclosing => ?_
  have hindex := behindSlash_le hinfo hi hclosing
  revert hindex
  dsimp only
  generalize (if closing then u16 (s.index + 1) else s.index) = index
  intro hindex
  refine Yields.bind (rawElement_yields hinfo hindex.2 _) fun r hr => ?_
  cases r with
  | some j =>
      exact Yields.pure ⟨⟨h.links, h.colors⟩, Nat.le_trans hindex.1 (hr j rfl).1, (hr j rfl).2⟩
  | none =>
    refine Yields.bind (readTag_yields hinfo hindex.2 closing) fun tag htag => ?_
    refine Yields.bind (openLink_yields hinfo h htag.2) fun s₁ h₁ => ?_
    refine Yields.bind (openStyle_yields hinfo h₁.1 htag.2) fun s₂ h₂ => ?_
    have hend : tag.tagEnd ≤ (if tag.tagEnd < info.len then u16 (tag.tagEnd + 1) else tag.tagEnd) ∧
        (if tag.tagEnd < info.len then u16 (tag.tagEnd + 1) else tag.tagEnd) ≤ info.len := by
      split
      · rw [u16_of_lt (by omega)]
        omega
      · exact ⟨Nat.le_refl _, htag.2⟩
    have h₃ : Bounded { s₂ with
        index := if tag.tagEnd < info.len then u16 (tag.tagEnd + 1) else tag.tagEnd } :=
      ⟨h₂.1.links, h₂.1.colors⟩
    obtain ⟨h₄, hi₄⟩ := layout_bounded h₃ tag
    refine Yields.bind (closeStyle_yields h₄ tag) fun s₅ h₅ => Yields.pure ⟨h₅.1, ?_⟩
    have hi₅ := h₅.2.trans hi₄
    show s.index ≤ s₅.index ∧ s₅.index ≤ info.len
    rw [hi₅]
    exact ⟨Nat.le_trans hindex.1 (Nat.le_trans htag.1 hend.1), hend.2⟩

/-- What a pass keeps, and that it goes on. -/
theorem pass_yields (h : s.Bounded ∧ s.index ≤ info.len) : Yields (pass info s)
    (Advances (fun s => s.Bounded ∧ s.index ≤ info.len) (fun s => info.len - s.index)
      (fun s => s.Bounded) s) := by
  obtain ⟨hb, hi⟩ := h
  refine Yields.ite (fun hlt => ?_) fun _ => Yields.pure hb
  refine Yields.bind (yields_getElem hlt.1) fun c _ => ?_
  rw [u16_of_lt (by omega)]
  have hb₁ : Bounded { s with index := s.index + 1 } := ⟨hb.links, hb.colors⟩
  have hdone : ∀ r, Behind info (s.index + 1) r → Advances (fun s => s.Bounded ∧ s.index ≤ info.len)
      (fun s => info.len - s.index) (fun s => s.Bounded) s r := by
    intro r hr
    cases r with
    | inl s' =>
      obtain ⟨hb', hlt', hle'⟩ := hr
      refine ⟨⟨hb', hle'⟩, ?_⟩
      show info.len - s'.index < info.len - s.index
      simp only [Sum.elim_inl, id_eq] at hlt'
      omega
    | inr s' => exact hr.1
  refine Yields.mono ?_ hdone
  refine Yields.ite (fun _ => tag_yields hinfo hb₁ hlt.1) fun _ => ?_
  refine Yields.ite (fun _ => entity_yields hinfo hb₁ hlt.1) fun _ => ?_
  exact Yields.ite (fun _ => Yields.pure ⟨⟨hb.links, hb.colors⟩, Nat.le_refl _, hlt.1⟩) fun _ =>
    letter_yields hb₁ hlt.1 c

theorem start_yields (hbody : info.httpBodyOffset ≤ info.len) (b : Browser) :
    Yields (start info b) fun s => s.Bounded ∧ s.index ≤ info.len := by
  refine Yields.bind (bodyStart_yields hinfo) fun index hindex => ?_
  refine Yields.bind (browserPageTextColor_yields hinfo _) fun text _ =>
    Yields.pure ⟨⟨Nat.zero_le _, Nat.zero_le _⟩, ?_⟩
  exact Nat.le_trans hindex (Nat.max_le.2 ⟨hbody, Nat.le_refl _⟩)

end PageState

theorem renderPageText_yields (hinfo : info.len ≤ 8192) (hbody : info.httpBodyOffset ≤ info.len)
    (b : Browser) :
    Yields (renderPageText info b) fun s => s.Bounded := by
  refine Yields.bind (PageState.start_yields hinfo hbody b) fun s hs => ?_
  refine loop_yields (fun s hs => PageState.pass_yields hinfo hs) hs ?_
  unfold loopSteps
  omega

namespace TextState

variable {s : TextState}

theorem drawChar_index (c : UInt8) : (s.drawChar c).1.index = s.index := by
  unfold drawChar
  dsimp only
  split <;> split <;> rfl

theorem letter_index (c : UInt8) : (s.letter c).index = s.index := by
  unfold letter
  dsimp only
  rw [drawChar_index]
  split
  · exact drawChar_index 32
  · rfl

variable {info : NetInfo} (hinfo : info.len ≤ 8192)

include hinfo

/-- The `<` itself is before the end of its tag, so the text goes on behind it. -/
theorem tag_yields {i : Nat} (hi : i < info.len) (hlt : info.httpResponse[i]? = some 60)
    (hs : s.index = i + 1) :
    Yields (s.tag info)
      (Advances (fun s => s.index ≤ info.len) (fun s => info.len - s.index) (fun _ => True)
      { s with index := i }) := by
  have hdone : ∀ s' : TextState, i < s'.index → s'.index ≤ info.len →
    Advances (fun s => s.index ≤ info.len)
      (fun s => info.len - s.index) (fun _ => True) { s with index := i }
      (.inl s' : Pass TextState TextState) :=
    fun s' hlt hle => ⟨hle, by
      show info.len - s'.index < info.len - i
      omega⟩
  refine Yields.bind (slashAt_yields s.index) fun closing hclosing => ?_
  have hindex := behindSlash_le hinfo (hs ▸ hi) hclosing
  revert hindex
  dsimp only
  generalize (if closing then u16 (s.index + 1) else s.index) = tagStart
  intro hindex
  refine Yields.bind (rawElement_yields hinfo hindex.2 _) fun r hr => ?_
  cases r with
  | some j => exact Yields.pure (hdone _ (by have := (hr j rfl).1; show i < j; omega) (hr j rfl).2)
  | none =>
    refine Yields.bind (matchTagNames_yields (Nat.le_refl info.len) hinfo tagStart _)
      fun block _ => ?_
    rw [hs, Nat.add_sub_cancel, u16_of_lt (by omega)]
    refine Yields.bind (skipTag_yields (Nat.le_refl info.len) hinfo i) fun j hj => Yields.pure ?_
    have hbehind : i < j := hj.2.2 hi (by rw [hlt]; decide)
    have hle : j ≤ info.len := Nat.le_trans hj.2.1 (Nat.max_le.2 ⟨Nat.le_of_lt hi, Nat.le_refl _⟩)
    split
    · exact hdone _ hbehind hle
    · exact hdone _ hbehind hle

/-- Whatever is passed, the text goes on behind it. -/
theorem pass_yields (h : s.index ≤ info.len) : Yields (pass info s)
    (Advances (fun s => s.index ≤ info.len) (fun s => info.len - s.index) (fun _ => True) s) := by
  refine Yields.ite (fun hlt => ?_) fun _ => Yields.pure trivial
  obtain ⟨hi, -⟩ := hlt
  refine Yields.bind (yields_getElem hi) fun c hc => Yields.ite (fun heq => ?_) fun _ => ?_
  · have hget : info.httpResponse[s.index]? = some 60 := by
      rw [List.getElem?_eq_getElem hi, ← hc, eq_of_beq heq]
    exact tag_yields hinfo hi hget (u16_of_lt (by omega))
  · refine Yields.bind (readChar_yields hinfo hi) fun r hr => ?_
    obtain ⟨c, index⟩ := r
    have hless : info.len - index < info.len - s.index := Nat.sub_lt_sub_left hi hr.1
    refine Yields.ite (fun _ => Yields.pure ⟨hr.2, hless⟩) fun _ => Yields.pure ?_
    have hletter : ({ s with index := index }.letter c).index = index := letter_index c
    exact ⟨Nat.le_trans (Nat.le_of_eq hletter) hr.2,
      (congrArg (info.len - ·) hletter).trans_lt hless⟩

end TextState

theorem renderText_yields (hinfo : info.len ≤ 8192) (hbody : info.httpBodyOffset ≤ info.len) :
    Yields (renderText info) fun _ => True := by
  refine loop_yields (fun s hs => TextState.pass_yields hinfo hs) hbody ?_
  unfold loopSteps
  omega

/-! ## The summary -/

section Summary

variable {info : NetInfo} (hinfo : info.len ≤ 8192)

include hinfo

/-- The rows are drawn as strings. -/
theorem summaryRow_yields (label : List UInt8) (x maxChars : Nat) (text : List UInt8)
    (s : Summary) :
    Yields (summaryRow info label x maxChars text s) fun s' =>
      glyphs s'.calls = glyphs s.calls := by
  refine Yields.bind (browserPageBackground_yields hinfo _) fun bg _ => Yields.pure ?_
  unfold glyphs
  rw [List.filterMap_append]
  exact List.append_nil _

theorem summaryRowIf_yields (label : List UInt8) (x maxChars : Nat) (text : List UInt8)
    (s : Summary) :
    Yields (summaryRowIf info label x maxChars text s) fun s' => glyphs s'.calls = glyphs s.calls :=
  Yields.ite (fun _ => Yields.pure rfl) fun _ => summaryRow_yields hinfo label x maxChars text s

theorem pageRow_yields (s : Summary) :
    Yields (pageRow info s) fun s' => glyphs s'.calls = glyphs s.calls := by
  refine Yields.bind (browserHtmlAttr_yields hinfo _ 32) fun pageType htype => ?_
  refine Yields.ite (fun _ => Yields.pure rfl) fun _ => ?_
  exact Yields.bind (browserShortType_yields (by omega)) fun _ _ => summaryRow_yields hinfo ..

theorem contentRow_yields (label value : List UInt8) (s : Summary) :
    Yields (contentRow info label value s) fun s' => glyphs s'.calls = glyphs s.calls := by
  refine Yields.ite (fun _ => Yields.pure rfl) fun _ => ?_
  exact Yields.bind (browserContentSummary_yields _ 32) fun _ _ => summaryRow_yields hinfo ..

theorem renderSummary_yields (hbody : info.httpBodyOffset ≤ info.len) (b : Browser)
    (calls : List Draw) :
    Yields (renderSummary info b calls) fun calls' => glyphs calls' = glyphs calls := by
  refine Yields.bind (browserCurrentHostPath_yields b.url (by decide) 8) fun r _ => ?_
  obtain ⟨host, path⟩ := r
  refine Yields.bind (summaryRow_yields hinfo ..) fun s₁ h₁ => ?_
  refine Yields.bind (browserTitleText_yields hinfo 48) fun title _ => ?_
  refine Yields.bind (summaryRowIf_yields hinfo ..) fun s₂ h₂ => ?_
  refine Yields.bind (browserMetaDescription_yields hinfo 64) fun desc _ => ?_
  refine Yields.bind (summaryRowIf_yields hinfo ..) fun s₃ h₃ =>
    Yields.bind (pageRow_yields hinfo s₃) fun s₄ h₄ => ?_
  refine Yields.bind (browserHtmlAttr_yields hinfo _ 16) fun lang _ => ?_
  refine Yields.bind (summaryRowIf_yields hinfo ..) fun s₅ h₅ => ?_
  refine Yields.bind (browserMetaHttpEquiv_yields hinfo 32) fun content _ => ?_
  refine Yields.bind (contentRow_yields hinfo ..) fun s₆ h₆ => ?_
  refine Yields.bind (browserHeaderValue_yields hinfo hbody _ 32) fun value _ => ?_
  refine Yields.bind (contentRow_yields hinfo ..) fun s₇ h₇ => ?_
  refine Yields.bind (browserHeaderValue_yields hinfo hbody _ 32) fun encoding _ => ?_
  refine Yields.bind (summaryRowIf_yields hinfo ..) fun s₈ h₈ => ?_
  refine Yields.bind (browserHeaderValue_yields hinfo hbody _ 32) fun location _ => ?_
  refine Yields.bind (summaryRowIf_yields hinfo ..) fun s₉ h₉ => Yields.pure ?_
  rw [h₉, h₈, h₇, h₆, h₅, h₄, h₃, h₂, h₁]

end Summary

/-- What is drawn of a text is what was drawn by the loop. -/
theorem renderTextFallback_glyphs (hinfo : info.len ≤ 8192)
    (hbody : info.httpBodyOffset ≤ info.len) (b : Browser)
    {t : TextState} (ht : renderText info = some t) :
    Yields (renderTextFallback info b) fun r =>
      r.1.linkCount = 0 ∧ glyphs r.2.1 = glyphs t.calls := by
  refine Yields.bind (Q := fun t' => t' = t) ⟨t, ht, rfl⟩ fun t' ht' => ?_
  subst ht'
  refine Yields.ite (fun _ => ?_) fun _ => Yields.pure ⟨rfl, rfl⟩
  exact Yields.bind (renderSummary_yields hinfo hbody _ _) fun _ h => Yields.pure ⟨rfl, h⟩

theorem renderTextFallback_yields (hinfo : info.len ≤ 8192) (hbody : info.httpBodyOffset ≤ info.len)
    (b : Browser) :
    Yields (renderTextFallback info b) fun r => r.1.linkCount = 0 := by
  obtain ⟨t, ht, -⟩ := renderText_yields hinfo hbody
  exact (renderTextFallback_glyphs hinfo hbody b ht).mono fun r hr => hr.1

end Yields

/-! ## Every scanner -/

/-- The scanners have a result, so they end, and nothing is read beyond the response or written
beyond a buffer; in every state of the page there is room for the links and the colours. -/
structure Safe (info : NetInfo) : Prop where
  skipTag : ∀ index stop, stop ≤ info.len →
    Yields (skipTag info.httpResponse index stop) fun i => index ≤ i
  skipElement : ∀ index stop name, stop ≤ info.len →
    Yields (skipElement info.httpResponse index stop name) fun i => index ≤ i
  style : ∀ start stop property, stop ≤ info.len →
    Yields (tagStyleProperty info.httpResponse start stop property) fun _ => True
  attr : ∀ start stop attr cap, stop ≤ info.len →
    Yields (tagAttrValue info.httpResponse start stop attr cap) fun out => out.length ≤ cap - 1
  bodyStart : Yields (bodyStart info) fun index => index ≤ info.len
  bodyStyle : ∀ property, Yields (bodyStyleProperty info property) fun _ => True
  styleBlock : ∀ property, Yields (styleBlockProperty info property) fun _ => True
  title : ∀ cap, Yields (browserTitleText info cap) fun out => out.length ≤ cap - 1
  description : ∀ cap, Yields (browserMetaDescription info cap) fun out => out.length ≤ cap - 1
  htmlAttr : ∀ attr cap, Yields (browserHtmlAttr info attr cap) fun out => out.length ≤ cap - 1
  httpEquiv : ∀ cap, Yields (browserMetaHttpEquiv info cap) fun out => out.length ≤ cap - 1
  header : ∀ name cap, Yields (browserHeaderValue info name cap) fun out => out.length ≤ cap - 1
  redirect : ∀ httpStatus url cap,
      Yields (browserRedirectLocation info httpStatus url cap) fun out =>
    out.length ≤ cap - 1
  page : ∀ b, Yields (renderPageText info b) PageState.Bounded
  pageStates : ∀ b, Yields (PageState.start info b) fun s₀ =>
    ∀ s, Reaches (PageState.pass info) s₀ s → s.Bounded ∧ s.index ≤ info.len
  fallback : ∀ b, Yields (renderTextFallback info b) fun r => r.1.linkCount ≤ browserMaxLinks

/-- Whatever was captured, and wherever its body begins. -/
theorem scanners_safe {info : NetInfo} (hinfo : info.len ≤ 8192)
    (hbody : info.httpBodyOffset ≤ info.len) : Safe info where
  skipTag index stop hstop := (skipTag_yields hstop hinfo index).mono fun _ h => h.1
  skipElement index stop name hstop :=
    (skipElement_yields hstop hinfo name index).mono fun _ h => h.1
  style start stop property hstop :=
    (tagStyleProperty_yields hstop hinfo start property).mono fun _ _ => trivial
  attr start stop attr cap hstop := tagAttrValue_yields hstop hinfo start attr cap
  bodyStart := (bodyStart_yields hinfo).mono fun _ h =>
    Nat.le_trans h (Nat.max_le.2 ⟨hbody, Nat.le_refl _⟩)
  bodyStyle := bodyStyleProperty_yields hinfo
  styleBlock := styleBlockProperty_yields hinfo
  title := browserTitleText_yields hinfo
  description := browserMetaDescription_yields hinfo
  htmlAttr := browserHtmlAttr_yields hinfo
  httpEquiv := browserMetaHttpEquiv_yields hinfo
  header := browserHeaderValue_yields hinfo hbody
  redirect := browserRedirectLocation_yields hinfo hbody
  page := renderPageText_yields hinfo hbody
  pageStates b := (PageState.start_yields hinfo hbody b).mono fun s₀ h₀ s hs =>
    hs.keeps (fun s hs => PageState.pass_yields hinfo hs) h₀
  fallback b := (renderTextFallback_yields hinfo hbody b).mono fun r hr => hr ▸ Nat.zero_le _

/-- A link that is not closed, behind an empty line. -/
theorem scanners_safe_link : Safe ⟨chars "\r\n<a href=/b>c", 2⟩ :=
  scanners_safe (by decide) (by decide)

end MinervaOS.Browser.Page
