import MinervaOS.Apps.ImageViewer
import MinervaOS.Browser.Links
import MinervaOS.Lib.Loop

/-!
# The scanners of the browser

What the browser looks for in a response, with indices of 16 bits. A read at or beyond the end of
the response, a write beyond the end of a buffer and a loop that goes on for ever have no result;
the scanners have one on every response of the size that is captured.
-/

namespace MinervaOS.Browser.Page

open Net

/-- A `uint16_t`. -/
def u16 (n : Nat) : Nat := n % 65536

/-- More passes than there are indices: a loop that takes them all goes on for ever. -/
def loopSteps : Nat := 65537

/-- `net_info_t`, as far as the page is made from it: the `http_response_len` bytes of
`http_response`, and `http_body_offset`. -/
structure NetInfo where
  httpResponse : List UInt8
  httpBodyOffset : Nat

/-- `http_response_len`. -/
def NetInfo.len (info : NetInfo) : Nat := info.httpResponse.length

/-! ## Buffers -/

/-- `out[o++] = c`, where `o` are the characters that the buffer of `cap` bytes holds. -/
def put (cap : Nat) (out : List UInt8) (c : UInt8) : Option (List UInt8) :=
  if out.length < cap then some (out ++ [c]) else none

/-- `out[o] = 0`. -/
def terminate (cap : Nat) (out : List UInt8) : Option (List UInt8) :=
  if out.length < cap then some out else none

/-- `for (i = 0; text[i] && o + 1 < cap; i++) out[o++] = text[i]`. -/
def appendText (cap : Nat) : List UInt8 → List UInt8 → Option (List UInt8)
  | out, [] => some out
  | out, c :: text => do
    if out.length + 1 < cap then appendText cap (← put cap out c) text else return out

/-- The text in `dst`. -/
def browserCopy (cap : Nat) (src : List UInt8) : Option (List UInt8) := do
  if cap = 0 then return []
  terminate cap (← appendText cap [] src)

section Data

variable (data : List UInt8)

/-! ## Tags -/

/-- `while (index < stop && !ends(data[index])) index++`. -/
def scanTo (ends : UInt8 → Bool) (stop : Nat) : Nat → Option Nat :=
  loop (fun index => do
    if index < stop then
      if ends (← data[index]?) then return .inr index else return .inl (u16 (index + 1))
    else return .inr index) loopSteps

/-- `while (index < stop && is_space(data[index])) index++`. -/
def skipBlanks (stop : Nat) : Nat → Option Nat := scanTo data (!isSpace ·) stop

def matchWord (len : Nat) : Nat → List UInt8 → Option Bool
  | _, [] => some true
  | index, c :: word => do
    if index < len then
      if lowerChar (← data[index]?) != c then return false else matchWord len (u16 (index + 1)) word
    else return false

/-- What the first word that matches stands for. -/
def matchAny {α : Type} (index len : Nat) : List (List UInt8 × α) → Option (Option α)
  | [] => some none
  | (word, a) :: words => do
    if ← matchWord data len index word then return some a else matchAny index len words

def matchTagName (index len : Nat) (name : List UInt8) : Option Bool := do
  if !(← matchWord data len index name) then return false
  let i := u16 (index + name.length)
  if i ≥ len then return true
  let c := lowerChar (← data[i]?)
  return c == 62 || c == 47 || isSpace c

/-- Whether one of the names matches. -/
def matchTagNames (index len : Nat) : List (List UInt8) → Option Bool
  | [] => some false
  | name :: names => do
    if ← matchTagName data index len name then return true else matchTagNames index len names

def findTagEnd (index len : Nat) : Option Nat := scanTo data (· == 62) len index

def skipTag (index len : Nat) : Option Nat := do
  let index ← findTagEnd data index len
  return if index < len then u16 (index + 1) else index

/-- `</` and the name. -/
def closesAt (index len : Nat) (name : List UInt8) : Option Bool := do
  if (← data[index]?) != 60 then return false
  if (← data[index + 1]?) != 47 then return false
  matchTagName data (u16 (index + 2)) len name

/-- `while (index + room < len && !closes) index++`. -/
def findClosing (room len : Nat) (name : List UInt8) : Nat → Option Nat :=
  loop (fun index => do
    if index + room < len then
      if ← closesAt data index len name then return .inr index else return .inl (u16 (index + 1))
    else return .inr index) loopSteps

def skipElement (index len : Nat) (name : List UInt8) : Option Nat := do
  let index ← skipTag data index len
  let index ← findClosing data 3 len name index
  if index + 3 < len then skipTag data index len else return index

/-! ## Style -/

/-- The byte before an index. -/
def byteBefore : Nat → Option UInt8
  | 0 => none
  | index + 1 => data[index]?

def cssNameBoundary (index start : Nat) : Option Bool := do
  if index = start then return true
  let c ← byteBefore data index
  return c == 123 || c == 59 || isSpace c

/-- `none` is -1. -/
def hexValue (c : UInt8) : Option UInt8 :=
  let l := lowerChar c
  if 48 ≤ c && c ≤ 57 then some (c - 48)
  else if 97 ≤ l && l ≤ 102 then some (10 + l - 97)
  else none

/-- Whether no digit follows. -/
def digitsEnd (index stop : Nat) : Option Bool := do
  if u16 index ≥ stop then return true
  return (hexValue (← data[index]?)).isNone

/-- `#` and three digits; `none` is a returned 0. -/
def shortHexColor (index stop : Nat) : Option (Option UInt32) := do
  if u16 (index + 3) < stop then
    let r := hexValue (← data[index + 1]?)
    let g := hexValue (← data[index + 2]?)
    let b := hexValue (← data[index + 3]?)
    match r, g, b with
    | some r, some g, some b =>
      return if ← digitsEnd data (index + 4) stop then
        some (Apps.graphicsRgb (r * 17) (g * 17) (b * 17)) else none
    | _, _, _ => return none
  else return none

/-- `#` and six digits. -/
def longHexColor (index stop : Nat) : Option (Option UInt32) := do
  if u16 (index + 6) < stop then
    let r1 := hexValue (← data[index + 1]?)
    let r2 := hexValue (← data[index + 2]?)
    let g1 := hexValue (← data[index + 3]?)
    let g2 := hexValue (← data[index + 4]?)
    let b1 := hexValue (← data[index + 5]?)
    let b2 := hexValue (← data[index + 6]?)
    return do
      return Apps.graphicsRgb ((← r1) <<< 4 ||| (← r2)) ((← g1) <<< 4 ||| (← g2))
        ((← b1) <<< 4 ||| (← b2))
  else return none

def parseHexColor (index stop : Nat) : Option (Option UInt32) := do
  if index ≥ stop then return none
  if (← data[index]?) != 35 then return none
  match ← shortHexColor data index stop with
  | some color => return some color
  | none => longHexColor data index stop

def namedColors : List (List UInt8 × UInt32) :=
  [(chars "black", Apps.graphicsRgb 0 0 0), (chars "white", Apps.graphicsRgb 255 255 255),
    (chars "red", Apps.graphicsRgb 180 20 20), (chars "green", Apps.graphicsRgb 20 130 55),
    (chars "blue", Apps.graphicsRgb 25 75 180), (chars "yellow", Apps.graphicsRgb 235 210 45),
    (chars "gray", Apps.graphicsRgb 128 128 128), (chars "grey", Apps.graphicsRgb 128 128 128),
    (chars "navy", Apps.graphicsRgb 20 45 120), (chars "purple", Apps.graphicsRgb 120 55 150)]

def parseNamedColor (index stop : Nat) : Option (Option UInt32) :=
  matchAny data index stop namedColors

def parseCssColorValue (index stop : Nat) : Option (Option UInt32) := do
  let index ← skipBlanks data stop index
  match ← parseHexColor data index stop with
  | some color => return some color
  | none => parseNamedColor data index stop

/-- The value of the property at an index, if it is there. -/
def cssPropertyAt (start stop : Nat) (property : List UInt8) (i : Nat) :
    Option (Option UInt32) := do
  if !(← cssNameBoundary data i start) then return none
  if !(← matchWord data stop i property) then return none
  let j ← skipBlanks data stop (u16 (i + property.length))
  if j ≥ stop then return none
  if (← data[j]?) != 58 then return none
  parseCssColorValue data (u16 (j + 1)) stop

def parseCssProperty (start stop : Nat) (property : List UInt8) : Option (Option UInt32) :=
  loop (fun i => do
    if i < stop then
      match ← cssPropertyAt data start stop property i with
      | some color => return .inr (some color)
      | none => return .inl (u16 (i + 1))
    else return .inr none) loopSteps start

/-! ## Attributes -/

/-- The quote that a value begins with, or 0, and where the value begins. -/
def readQuote (i stop : Nat) : Option (UInt8 × Nat) := do
  if i < stop then
    let c ← data[i]?
    return if c == 34 || c == 39 then (c, u16 (i + 1)) else (0, i)
  else return (0, i)

/-- Whether a value in these quotes, or in none, ends with the character. -/
def valueEnds (quote c : UInt8) : Bool := if quote != 0 then c == quote else isSpace c

/-- Behind the name of an attribute: where its value begins, and the quote; otherwise where the
search goes on. -/
def attrValueAt (i stop : Nat) : Option (Nat ⊕ UInt8 × Nat) := do
  let i ← skipBlanks data stop i
  if i ≥ stop then return .inl i
  if (← data[i]?) != 61 then return .inl i
  let i ← skipBlanks data stop (u16 (i + 1))
  return .inr (← readQuote data i stop)

def tagStyleProperty (start stop : Nat) (property : List UInt8) : Option (Option UInt32) :=
  loop (fun i => do
    if i + 5 < stop then
      if !(← matchWord data stop i (chars "style")) then return .inl (u16 (i + 1))
      match ← attrValueAt data (u16 (i + 5)) stop with
      | .inl i => return .inl (u16 (i + 1))
      | .inr (quote, valueStart) =>
        let i ← scanTo data (valueEnds quote) stop valueStart
        match ← parseCssProperty data valueStart i property with
        | some color => return .inr (some color)
        | none => return .inl (u16 (i + 1))
    else return .inr none) loopSteps start

/-- `while (i < stop && o + 1 < cap && !ends(data[i])) out[o++] = data[i++]`, and what `out` holds.
-/
def copyTo (ends : UInt8 → Bool) (stop cap i : Nat) : Option (List UInt8) :=
  loop (fun (i, out) => do
    if i < stop ∧ out.length + 1 < cap then
      let c ← data[i]?
      if ends c then return .inr out else return .inl (u16 (i + 1), ← put cap out c)
    else return .inr out) loopSteps (i, [])

/-- Whether the name of the attribute is at an index, and a blank before it. -/
def attrNameAt (start stop : Nat) (attr : List UInt8) (i : Nat) : Option Bool := do
  if !(← matchWord data stop i attr) then return false
  if i > start then return isSpace (lowerChar (← byteBefore data i))
  return true

/-- The text in `out`, which is not empty if 1 is returned, and only then. -/
def tagAttrValue (start stop : Nat) (attr : List UInt8) (cap : Nat) : Option (List UInt8) := do
  if cap = 0 then return []
  let out ← terminate cap []
  loop (fun i => do
    if i < stop then
      if !(← attrNameAt data start stop attr i) then return .inl (u16 (i + 1))
      match ← attrValueAt data (u16 (i + attr.length)) stop with
      | .inl i => return .inl (u16 (i + 1))
      | .inr (quote, valueStart) =>
        return .inr (← terminate cap (← copyTo data (valueEnds quote) stop cap valueStart))
    else return .inr out) loopSteps start

def tagHrefValue (start stop cap : Nat) : Option (List UInt8) :=
  tagAttrValue data start stop (chars "href") cap

/-! ## Headers -/

def headerNameAt (index stop : Nat) (name : List UInt8) : Option Bool := do
  if !(← matchWord data stop index name) then return false
  let i := u16 (index + name.length)
  if i < stop then return (← data[i]?) == 58
  return false

/-! ## Character references -/

def entities : List (List UInt8 × UInt8) :=
  [(chars "amp;", 38), (chars "lt;", 60), (chars "gt;", 62), (chars "quot;", 34)]

/-- Behind a `&`: the character, and where the text goes on. -/
def readEntity (index len : Nat) : Option (UInt8 × Nat) := do
  let c := (← matchAny data index len entities).getD 32
  let index ← scanTo data (· == 59) len index
  return (c, if index < len then u16 (index + 1) else index)

end Data

theorem u16_of_lt {n : Nat} (h : n < 65536) : u16 n = n := Nat.mod_eq_of_lt h

/-! ## What the buffers hold -/

theorem put_yields {cap : Nat} {out : List UInt8} (c : UInt8) (h : out.length < cap) :
    Yields (put cap out c) fun out' => out' = out ++ [c] := ⟨out ++ [c], if_pos h, rfl⟩

theorem terminate_yields {cap : Nat} {out : List UInt8} (h : out.length < cap) :
    Yields (terminate cap out) fun out' => out' = out := ⟨out, if_pos h, rfl⟩

/-- As much of the text as leaves room for the terminator. -/
theorem appendText_yields {cap : Nat} (text : List UInt8) {out : List UInt8}
    (h : out.length < cap) :
    Yields (appendText cap out text) fun out' =>
      out' = out ++ text.take (cap - 1 - out.length) := by
  induction text generalizing out with
  | nil => exact Yields.pure (by simp)
  | cons c text ih =>
    refine Yields.ite (fun hroom => ?_) fun hfull => Yields.pure ?_
    · refine Yields.bind (put_yields c h) fun out' hout' => ?_
      subst hout'
      refine (ih (by rwa [List.length_append])).mono fun out' hout' => hout'.trans ?_
      obtain ⟨k, hk⟩ : ∃ k, cap - 1 - out.length = k + 1 := ⟨cap - 2 - out.length, by omega⟩
      have hk' : cap - 1 - (out ++ [c]).length = k := by
        rw [List.length_append, List.length_singleton]
        omega
      rw [hk, hk', List.take_succ_cons, List.append_assoc, List.singleton_append]
    · have hzero : cap - 1 - out.length = 0 := by omega
      rw [hzero, List.take_zero, List.append_nil]

theorem appendText_length {cap : Nat} (text : List UInt8) {out : List UInt8}
    (h : out.length < cap) :
    Yields (appendText cap out text) fun out' => out'.length < cap := by
  refine (appendText_yields text h).mono fun out' hout' => ?_
  rw [hout', List.length_append, List.length_take]
  omega

theorem browserCopy_yields (cap : Nat) (src : List UInt8) :
    Yields (browserCopy cap src) fun out => out = src.take (cap - 1) := by
  refine Yields.ite (fun h => Yields.pure (by simp [h])) fun hcap => ?_
  refine Yields.bind ((appendText_yields src (Nat.pos_of_ne_zero hcap)).and
    (appendText_length src (Nat.pos_of_ne_zero hcap))) fun out hout => ?_
  refine (terminate_yields hout.2).mono fun out' hout' => ?_
  rw [hout', hout.1, List.nil_append]
  rfl

/-! ## What the scanners return -/

section Yields

variable {data : List UInt8} {stop index i j start : Nat}

/-- `j` is where the scan from `i` ends. -/
structure Scanned (data : List UInt8) (ends : UInt8 → Bool) (stop i j : Nat) : Prop where
  le : i ≤ j
  le_stop : j ≤ max i stop
  ended : j < stop → ∃ c, data[j]? = some c ∧ ends c = true
  passed : ∀ k c, i ≤ k → k < j → data[k]? = some c → ends c = false

variable (hstop : stop ≤ data.length) (hdata : data.length ≤ 8192)

include hstop hdata

theorem scanTo_yields (ends : UInt8 → Bool) (i : Nat) :
    Yields (scanTo data ends stop i) (Scanned data ends stop i) := by
  refine loop_yields (I := fun k => i ≤ k ∧ k ≤ max i stop ∧ ∀ k' c, i ≤ k' → k' < k →
    data[k']? = some c → ends c = false)
    (m := fun k => stop - k) (fun k hk => ?_)
        ⟨Nat.le_refl i, Nat.le_max_left .., fun k' c h h' => by omega⟩ (by
      unfold loopSteps
      omega)
  obtain ⟨hle, hmax, hpassed⟩ := hk
  refine Yields.ite (fun hlt => ?_) fun hge =>
    Yields.pure ⟨hle, hmax, fun h => absurd h hge, hpassed⟩
  have hk : data[k]? = some data[k] := List.getElem?_eq_getElem (by omega)
  refine Yields.bind (yields_getElem (by omega)) fun c hc => ?_
  subst hc
  refine Yields.ite (fun hend => Yields.pure ⟨hle, hmax, fun _ => ⟨_, hk, hend⟩, hpassed⟩)
    fun hgo => Yields.pure ?_
  rw [u16_of_lt (by omega)]
  refine ⟨⟨by omega, by omega, fun k' c h h' hc => ?_⟩,
    Nat.sub_lt_sub_left hlt (Nat.lt_succ_self k)⟩
  rcases Nat.lt_succ_iff_lt_or_eq.1 h' with h' | rfl
  · exact hpassed k' c h h' hc
  · rw [hk] at hc
    obtain rfl := Option.some.inj hc
    simpa using hgo

/-- A word that matches is in front of the end. -/
theorem matchWord_yields (word : List UInt8) (index : Nat) :
    Yields (matchWord data stop index word) fun b => b = true →
      index + word.length ≤ max index stop := by
  induction word generalizing index with
  | nil => exact Yields.pure fun _ => Nat.le_max_left ..
  | cons c word ih =>
    refine Yields.ite (fun hlt => ?_) fun _ => Yields.pure fun h => by cases h
    refine Yields.bind (yields_getElem (by omega)) fun d _ => ?_
    refine Yields.ite (fun _ => Yields.pure fun h => by cases h) fun _ => ?_
    rw [u16_of_lt (by omega)]
    refine (ih (index + 1)).mono fun b hb h => ?_
    have hle := hb h
    rw [List.length_cons]
    omega

theorem matchAny_yields {α : Type} (index : Nat) (words : List (List UInt8 × α)) :
    Yields (matchAny data index stop words) fun _ => True := by
  induction words with
  | nil => exact Yields.pure trivial
  | cons w words ih =>
    refine Yields.bind (matchWord_yields hstop hdata w.1 index) fun b _ => ?_
    exact Yields.ite (fun _ => Yields.pure trivial) fun _ => ih

theorem matchTagName_yields (index : Nat) (name : List UInt8) :
    Yields (matchTagName data index stop name) fun _ => True := by
  refine Yields.bind (matchWord_yields hstop hdata name index) fun b _ => ?_
  refine Yields.ite (fun _ => Yields.pure trivial) fun _ => ?_
  refine Yields.ite (fun _ => Yields.pure trivial) fun hlt => ?_
  exact Yields.bind (yields_getElem (by omega)) fun c _ => Yields.pure trivial

theorem matchTagNames_yields (index : Nat) (names : List (List UInt8)) :
    Yields (matchTagNames data index stop names) fun _ => True := by
  induction names with
  | nil => exact Yields.pure trivial
  | cons name names ih =>
    refine Yields.bind (matchTagName_yields hstop hdata index name) fun b _ => ?_
    exact Yields.ite (fun _ => Yields.pure trivial) fun _ => ih

theorem findTagEnd_yields (i : Nat) :
    Yields (findTagEnd data i stop) (Scanned data (· == 62) stop i) :=
  scanTo_yields hstop hdata _ i

/-- Behind the tag, or at the end. -/
theorem skipTag_yields (i : Nat) : Yields (skipTag data i stop) fun j => i ≤ j ∧ j ≤ max i stop ∧
    (i < stop → data[i]? ≠ some 62 → i < j) := by
  refine Yields.bind (findTagEnd_yields hstop hdata i) fun j hj => Yields.pure ?_
  have hle := hj.le
  have hmax := hj.le_stop
  by_cases hlt : j < stop
  · rw [if_pos hlt, u16_of_lt (by omega)]
    omega
  · rw [if_neg hlt]
    omega

theorem closesAt_yields (name : List UInt8) (hi : i + 1 < stop) :
    Yields (closesAt data i stop name) fun _ => True := by
  refine Yields.bind (yields_getElem (by omega)) fun c _ =>
    Yields.ite (fun _ => Yields.pure trivial) fun _ => ?_
  refine Yields.bind (yields_getElem (by omega)) fun c _ =>
    Yields.ite (fun _ => Yields.pure trivial) fun _ => ?_
  exact matchTagName_yields hstop hdata _ name

theorem findClosing_yields {room : Nat} (hroom : 1 ≤ room) (name : List UInt8) (i : Nat) :
    Yields (findClosing data room stop name i) fun j => i ≤ j ∧ j ≤ max i stop := by
  refine loop_yields (I := fun k => i ≤ k ∧ k ≤ max i stop) (m := fun k => stop - k)
    (fun k hk => ?_)
    ⟨Nat.le_refl i, Nat.le_max_left ..⟩ (by
      unfold loopSteps
      omega)
  refine Yields.ite (fun hlt => ?_) fun _ => Yields.pure hk
  refine Yields.bind (closesAt_yields hstop hdata name (by omega)) fun b _ => ?_
  refine Yields.ite (fun _ => Yields.pure hk) fun _ => Yields.pure ?_
  rw [u16_of_lt (by omega)]
  exact ⟨by omega, Nat.sub_lt_sub_left (by omega) (Nat.lt_succ_self k)⟩

theorem skipElement_yields (name : List UInt8) (i : Nat) :
    Yields (skipElement data i stop name) fun j => i ≤ j ∧ j ≤ max i stop := by
  refine Yields.bind (skipTag_yields hstop hdata i) fun j hj => ?_
  refine Yields.bind (findClosing_yields hstop hdata (by decide) name j) fun k hk => ?_
  refine Yields.ite (fun _ => ?_) fun _ => Yields.pure (by omega)
  exact (skipTag_yields hstop hdata k).mono fun l hl => by omega

/-! ## Style -/

omit hstop hdata in
theorem byteBefore_yields (hpos : 0 < i) (hi : i ≤ data.length) :
    Yields (byteBefore data i) fun _ => True := by
  obtain ⟨k, rfl⟩ := Nat.exists_eq_succ_of_ne_zero (Nat.ne_of_gt hpos)
  exact (yields_getElem (by omega)).mono fun _ _ => trivial

omit hdata in
theorem cssNameBoundary_yields (hstart : start ≤ i) (hi : i < stop) :
    Yields (cssNameBoundary data i start) fun _ => True := by
  refine Yields.ite (fun _ => Yields.pure trivial) fun hne => ?_
  exact Yields.bind (byteBefore_yields (by omega) (by omega)) fun c _ => Yields.pure trivial

omit hdata in
theorem digitsEnd_yields (hi : i < 65536) : Yields (digitsEnd data i stop) fun _ => True := by
  refine Yields.ite (fun _ => Yields.pure trivial) fun hlt => ?_
  unfold u16 at hlt
  exact Yields.bind (yields_getElem (by omega)) fun c _ => Yields.pure trivial

theorem shortHexColor_yields (hi : i < stop) :
    Yields (shortHexColor data i stop) fun _ => True := by
  refine Yields.ite (fun hlt => ?_) fun _ => Yields.pure trivial
  unfold u16 at hlt
  refine Yields.bind (yields_getElem (by omega)) fun r _ => ?_
  refine Yields.bind (yields_getElem (by omega)) fun g _ => ?_
  refine Yields.bind (yields_getElem (by omega)) fun b _ => ?_
  dsimp only
  split
  · exact Yields.bind (digitsEnd_yields hstop (by omega)) fun ended _ => Yields.pure trivial
  · exact Yields.pure trivial

theorem longHexColor_yields (hi : i < stop) : Yields (longHexColor data i stop) fun _ => True := by
  refine Yields.ite (fun hlt => ?_) fun _ => Yields.pure trivial
  unfold u16 at hlt
  refine Yields.bind (yields_getElem (by omega)) fun r1 _ =>
    Yields.bind (yields_getElem (by omega)) fun r2 _ => ?_
  refine Yields.bind (yields_getElem (by omega)) fun g1 _ =>
    Yields.bind (yields_getElem (by omega)) fun g2 _ => ?_
  refine Yields.bind (yields_getElem (by omega)) fun b1 _ =>
    Yields.bind (yields_getElem (by omega)) fun b2 _ => ?_
  exact Yields.pure trivial

theorem parseHexColor_yields : Yields (parseHexColor data i stop) fun _ => True := by
  refine Yields.ite (fun _ => Yields.pure trivial) fun hlt => ?_
  refine Yields.bind (yields_getElem (by omega)) fun c _ =>
    Yields.ite (fun _ => Yields.pure trivial) fun _ => ?_
  refine Yields.bind (shortHexColor_yields hstop hdata (by omega)) fun color _ => ?_
  cases color with
  | some color => exact Yields.pure trivial
  | none => exact longHexColor_yields hstop hdata (by omega)

theorem parseCssColorValue_yields : Yields (parseCssColorValue data i stop) fun _ => True := by
  refine Yields.bind (scanTo_yields hstop hdata _ i) fun j _ => ?_
  refine Yields.bind (parseHexColor_yields hstop hdata) fun color _ => ?_
  cases color with
  | some color => exact Yields.pure trivial
  | none => exact matchAny_yields hstop hdata j namedColors

theorem cssPropertyAt_yields (property : List UInt8) (hstart : start ≤ i) (hi : i < stop) :
    Yields (cssPropertyAt data start stop property i) fun _ => True := by
  refine Yields.bind (cssNameBoundary_yields hstop hstart hi) fun b _ => ?_
  refine Yields.ite (fun _ => Yields.pure trivial) fun _ => ?_
  refine Yields.bind (matchWord_yields hstop hdata property i) fun b _ => ?_
  refine Yields.ite (fun _ => Yields.pure trivial) fun _ => ?_
  refine Yields.bind (scanTo_yields hstop hdata _ _) fun j _ => ?_
  refine Yields.ite (fun _ => Yields.pure trivial) fun hlt => ?_
  refine Yields.bind (yields_getElem (by omega)) fun c _ => ?_
  exact Yields.ite (fun _ => Yields.pure trivial) fun _ => parseCssColorValue_yields hstop hdata

theorem parseCssProperty_yields (start : Nat) (property : List UInt8) :
    Yields (parseCssProperty data start stop property) fun _ => True := by
  refine loop_yields (I := fun k => start ≤ k) (m := fun k => stop - k) (fun k hk => ?_)
      (Nat.le_refl start) (by
    unfold loopSteps
    omega)
  refine Yields.ite (fun hlt => ?_) fun _ => Yields.pure trivial
  refine Yields.bind (cssPropertyAt_yields hstop hdata property hk hlt) fun color _ => ?_
  cases color with
  | some color => exact Yields.pure trivial
  | none =>
    refine Yields.pure ?_
    rw [u16_of_lt (by omega)]
    exact ⟨by omega, Nat.sub_lt_sub_left hlt (Nat.lt_succ_self k)⟩

/-! ## Attributes -/

theorem readQuote_yields (i : Nat) :
    Yields (readQuote data i stop) fun r => i ≤ r.2 ∧ r.2 ≤ max i stop := by
  refine Yields.ite (fun hlt => ?_) fun _ => Yields.pure ⟨Nat.le_refl i, Nat.le_max_left ..⟩
  refine Yields.bind (yields_getElem (by omega)) fun c _ => Yields.pure ?_
  rw [u16_of_lt (by omega)]
  split
  · exact ⟨by omega, by omega⟩
  · exact ⟨Nat.le_refl i, Nat.le_max_left ..⟩

/-- From there on the value begins, or the search goes on. -/
theorem attrValueAt_yields (i : Nat) : Yields (attrValueAt data i stop) fun r =>
    i ≤ r.elim id Prod.snd ∧ r.elim id Prod.snd ≤ max i stop := by
  refine Yields.bind (scanTo_yields hstop hdata _ i) fun j hj => ?_
  have hle := hj.le
  have hmax := hj.le_stop
  refine Yields.ite (fun _ => Yields.pure ⟨hle, hmax⟩) fun hlt => ?_
  refine Yields.bind (yields_getElem (by omega)) fun c _ => ?_
  refine Yields.ite (fun _ => Yields.pure ⟨hle, hmax⟩) fun _ => ?_
  rw [u16_of_lt (by omega)]
  refine Yields.bind (scanTo_yields hstop hdata _ (j + 1)) fun k hk => ?_
  have hle' := hk.le
  have hmax' := hk.le_stop
  refine Yields.bind (readQuote_yields hstop hdata k) fun r hr => Yields.pure ?_
  dsimp only [Sum.elim_inr]
  omega

theorem tagStyleProperty_yields (start : Nat) (property : List UInt8) :
    Yields (tagStyleProperty data start stop property) fun _ => True := by
  refine loop_yields (I := fun _ => True) (m := fun k => stop - k) (fun k _ => ?_) trivial (by
    unfold loopSteps
    omega)
  have hnext : ∀ {j : Nat}, k < stop → k ≤ j → j ≤ max (k + 5) stop →
      Advances (fun _ => True) (fun k => stop - k) (fun _ => True) k
        (.inl (u16 (j + 1)) : Pass Nat (Option UInt32)) := by
    intro j hk hle hmax
    rw [u16_of_lt (by omega)]
    refine ⟨trivial, ?_⟩
    show stop - (j + 1) < stop - k
    omega
  refine Yields.ite (fun hlt => ?_) fun _ => Yields.pure trivial
  refine Yields.bind (matchWord_yields hstop hdata _ k) fun b _ => ?_
  refine Yields.ite (fun _ => Yields.pure (hnext (by omega) (Nat.le_refl k) (by omega))) fun _ => ?_
  rw [u16_of_lt (by omega)]
  refine Yields.bind (attrValueAt_yields hstop hdata (k + 5)) fun r hr => ?_
  cases r with
  | inl j => exact Yields.pure (hnext (by omega) (by simp at hr; omega) hr.2)
  | inr r =>
    obtain ⟨quote, valueStart⟩ := r
    simp only [Sum.elim_inr] at hr
    refine Yields.bind (scanTo_yields hstop hdata _ valueStart) fun j hj => ?_
    have hle := hj.le
    have hmax := hj.le_stop
    refine Yields.bind (parseCssProperty_yields (by omega) hdata valueStart property)
      fun color _ => ?_
    cases color with
    | some color => exact Yields.pure trivial
    | none => exact Yields.pure (hnext (by omega) (by omega) (by omega))

/-- What is copied leaves room for the terminator. -/
theorem copyTo_yields (ends : UInt8 → Bool) {cap : Nat} (hcap : 0 < cap) (i : Nat) :
    Yields (copyTo data ends stop cap i) fun out => out.length < cap := by
  refine loop_yields (I := fun x => x.2.length < cap) (m := fun x => stop - x.1)
      (fun x hx => ?_) hcap (by
    unfold loopSteps
    show stop - i < 65537
    omega)
  obtain ⟨k, out⟩ := x
  refine Yields.ite (fun hlt => ?_) fun _ => Yields.pure hx
  refine Yields.bind (yields_getElem (by omega)) fun c _ => ?_
  refine Yields.ite (fun _ => Yields.pure hx) fun _ =>
    Yields.bind (put_yields c hx) fun out' hout' => Yields.pure ?_
  rw [u16_of_lt (by omega), hout']
  refine ⟨?_, Nat.sub_lt_sub_left hlt.1 (Nat.lt_succ_self k)⟩
  show (out ++ [c]).length < cap
  rw [List.length_append]
  exact hlt.2

theorem attrNameAt_yields (attr : List UInt8) (hi : i < stop) :
    Yields (attrNameAt data start stop attr i) fun b => b = true → i + attr.length ≤ stop := by
  refine Yields.bind (matchWord_yields hstop hdata attr i) fun b hb => ?_
  refine Yields.ite (fun _ => Yields.pure fun h => by cases h) fun hmatch => ?_
  have hle : i + attr.length ≤ stop := by
    have := hb (by simpa using hmatch)
    omega
  refine Yields.ite (fun hpos => ?_) fun _ => Yields.pure fun _ => hle
  exact Yields.bind (byteBefore_yields (by omega) (by omega)) fun c _ => Yields.pure fun _ => hle

theorem tagAttrValue_yields (start : Nat) (attr : List UInt8) (cap : Nat) :
    Yields (tagAttrValue data start stop attr cap) fun out => out.length ≤ cap - 1 := by
  refine Yields.ite (fun _ => Yields.pure (Nat.zero_le _)) fun hcap => ?_
  have hpos : 0 < cap := Nat.pos_of_ne_zero hcap
  refine Yields.bind (terminate_yields hpos) fun out hout => ?_
  refine loop_yields (I := fun _ => True) (m := fun k => stop - k) (fun k _ => ?_) trivial (by
    unfold loopSteps
    omega)
  have hnext : ∀ {j : Nat}, k < stop → k ≤ j → j ≤ stop →
      Advances (fun _ => True) (fun k => stop - k) (fun out => out.length ≤ cap - 1) k
        (.inl (u16 (j + 1)) : Pass Nat (List UInt8)) := by
    intro j hk hle hmax
    rw [u16_of_lt (by omega)]
    refine ⟨trivial, ?_⟩
    show stop - (j + 1) < stop - k
    omega
  refine Yields.ite (fun hlt => ?_) fun _ => Yields.pure ?_
  · refine Yields.bind (attrNameAt_yields hstop hdata attr hlt) fun b hb => ?_
    refine Yields.ite (fun _ => Yields.pure (hnext hlt (Nat.le_refl k) (by omega))) fun hname => ?_
    have hle := hb (by simpa using hname)
    rw [u16_of_lt (by omega)]
    refine Yields.bind (attrValueAt_yields hstop hdata (k + attr.length)) fun r hr => ?_
    cases r with
    | inl j => exact Yields.pure (hnext hlt (by simp at hr; omega) (by simp at hr; omega))
    | inr r =>
      refine Yields.bind (copyTo_yields hstop hdata _ hpos r.2) fun out hout => ?_
      refine Yields.bind (terminate_yields hout) fun out' hout' => Yields.pure ?_
      rw [hout']
      exact Nat.le_sub_one_of_lt hout
  · rw [hout]
    exact Nat.zero_le _

theorem headerNameAt_yields (name : List UInt8) :
    Yields (headerNameAt data i stop name) fun _ => True := by
  refine Yields.bind (matchWord_yields hstop hdata name i) fun b _ => ?_
  refine Yields.ite (fun _ => Yields.pure trivial) fun _ => Yields.ite (fun hlt => ?_) fun _ =>
    Yields.pure trivial
  exact Yields.bind (yields_getElem (by omega)) fun c _ => Yields.pure trivial

theorem readEntity_yields (i : Nat) :
    Yields (readEntity data i stop) fun r => i ≤ r.2 ∧ r.2 ≤ max i stop := by
  refine Yields.bind (matchAny_yields hstop hdata i entities) fun c _ => ?_
  refine Yields.bind (scanTo_yields hstop hdata _ i) fun j hj => Yields.pure ?_
  have hle := hj.le
  have hmax := hj.le_stop
  dsimp only
  split
  · rw [u16_of_lt (by omega)]
    omega
  · exact ⟨hle, hmax⟩

end Yields

end MinervaOS.Browser.Page
