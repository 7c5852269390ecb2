import MinervaOS.Browser.Scanners

/-!
# What the browser extracts

The title, the attributes of the `meta`, `html` and `body` tags, the style blocks and the headers of
a response, and what becomes of the texts that are copied from them.
-/

namespace MinervaOS.Browser.Page

open Net

/-! ## Addresses -/

/-- `if (!host[0]) browser_copy(host, host_cap, "example.com")`. -/
def orExampleHost (hostCap : Nat) (host : List UInt8) : Option (List UInt8) :=
  if host = [] then browserCopy hostCap (chars "example.com") else some host

def browserCurrentHostPath (browserUrl : List UInt8) (hostCap pathCap : Nat) :
    Option (List UInt8 × List UInt8) := do
  let url := browserUrlOr browserUrl
  let url :=
    if browserStartsWith url (chars "http://") then url.drop 7
    else if browserStartsWith url (chars "http;//") then url.drop 7
    else if browserStartsWith url (chars "https://") then url.drop 8
    else if browserStartsWith url (chars "https;//") then url.drop 8
    else url
  let host ← appendText hostCap [] (url.takeWhile (· != 47))
  let slash := url.drop host.length
  let host ← orExampleHost hostCap (← terminate hostCap host)
  let path ← browserCopy pathCap (if slash.head? = some 47 then slash else [47])
  return (host, path)

def browserResolveHref (browserUrl href : List UInt8) (cap : Nat) : Option (List UInt8) := do
  if href = [] then
    if cap = 0 then return []
    terminate cap []
  else if browserStartsWith href (chars "http://") || browserStartsWith href (chars "https://") then
    browserCopy cap href
  else
    let (host, path) ← browserCurrentHostPath browserUrl 48 64
    let out ← appendText cap [] (if browserIsHttps browserUrl then chars "https://" else [])
    let out ← appendText cap out host
    let rest :=
      if href.head? = some 47 then href
      else if href.head? = some 35 then path
      else 47 :: href
    terminate cap (← appendText cap out rest)

/-! ## Texts -/

def textEqualsCi : List UInt8 → List UInt8 → Bool
  | a :: as, b :: bs => lowerChar a == lowerChar b && textEqualsCi as bs
  | as, bs => as.isEmpty && bs.isEmpty

/-- `if (o + 1 < cap) out[o++] = c`. -/
def putSpare (cap : Nat) (out : List UInt8) (c : UInt8) : Option (List UInt8) :=
  if out.length + 1 < cap then put cap out c else some out

/-- What the buffer holds, and whether a blank is pending. -/
def appendCleanText (cap : Nat) (out : List UInt8) (c : UInt8) (pendingSpace : Bool) :
    Option (List UInt8 × Bool) := do
  if isSpace c then return (out, true)
  if c < 32 || c > 126 then return (out, pendingSpace)
  if pendingSpace ∧ out ≠ [] then
    return (← terminate cap (← putSpare cap (← putSpare cap out 32) c), false)
  return (← terminate cap (← putSpare cap out c), false)

/-- `text[o] = c` in a text and its terminator. -/
def poke (text : List UInt8) (o : Nat) (c : UInt8) : Option (List UInt8) :=
  if o < text.length then some (text.set o c) else none

/-- Behind the last `/` or `#`, or 0. -/
def lastPart (text : List UInt8) : Option Nat :=
  loop (fun (i, last) => do
    let c ← text[i]?
    if c == 0 then return .inr last
    else return .inl (u16 (i + 1), if c == 47 || c == 35 then u16 (i + 1) else last)) loopSteps
      (0, 0)

/-- The text is moved to the front of its buffer from `last` on. -/
def moveDown (text : List UInt8) (last : Nat) : Option (List UInt8) :=
  loop (fun (text, o, last) => do
    let c ← text[last]?
    if c == 0 then return .inr (← poke text o 0)
    else return .inl (← poke text o c, u16 (o + 1), u16 (last + 1))) loopSteps (text, 0, last)

def browserShortType (text : List UInt8) : Option (List UInt8) := do
  if text = [] then return []
  let last ← lastPart (text ++ [0])
  if last = 0 then return text
  return cString (← moveDown (text ++ [0]) last)

/-- Where the text goes on behind the needle; `none` if it is not in it. -/
def findCiText (needle : List UInt8) : List UInt8 → Option (List UInt8)
  | [] => none
  | c :: text =>
    if textEqualsCi ((c :: text).take needle.length) needle then
      some ((c :: text).drop needle.length)
    else findCiText needle text

/-- Up to a `;` or a blank. -/
def firstWord (text : List UInt8) : List UInt8 := text.takeWhile fun c => c != 59 && c != 32

/-- Behind the last `/`. -/
def behindSlash (text : List UInt8) : List UInt8 := (text.reverse.takeWhile (· != 47)).reverse

def browserContentSummary (input : List UInt8) (cap : Nat) : Option (List UInt8) := do
  if cap = 0 then return []
  let out ← terminate cap []
  if input = [] then return out
  let out ← terminate cap (← appendText cap out (behindSlash (firstWord input)))
  match findCiText (chars "charset=") input with
  | none => return out
  | some rest =>
    if out ≠ [] then terminate cap (← appendText cap (← putSpare cap out 32) (firstWord rest))
    else terminate cap (← appendText cap out (firstWord rest))

section Info

variable (info : NetInfo)

/-! ## Tags -/

/-- The loop over the `<` with the name behind them that are followed by `room` bytes. -/
def eachTag {α : Type} (name : List UInt8) (room start : Nat) (missing : α)
    (onTag : Nat → Option (Pass Nat α)) :
    Option α :=
  loop (fun i => do
    if i + room < info.len then
      if (← info.httpResponse[i]?) != 60 then return .inl (u16 (i + 1))
      if !(← matchTagName info.httpResponse (u16 (i + 1)) info.len name) then
        return .inl (u16 (i + 1))
      onTag i
    else return .inr missing) loopSteps start

/-- A character of the text at an index, and where the text goes on. -/
def readChar (index : Nat) : Option (UInt8 × Nat) := do
  let c ← info.httpResponse[index]?
  if c == 38 then readEntity info.httpResponse (u16 (index + 1)) info.len
  else return (c, u16 (index + 1))

/-- A character of the title, with what was copied before. -/
def titlePass (cap index : Nat) (out : List UInt8) (pendingSpace : Bool) :
    Option (Pass (Nat × List UInt8 × Bool) (List UInt8)) := do
  if index + 8 < info.len then
    if ← closesAt info.httpResponse index info.len (chars "title") then return .inr out
    let (c, index) ← readChar info index
    let (out, pendingSpace) ← appendCleanText cap out c pendingSpace
    return .inl (index, out, pendingSpace)
  else return .inr out

/-- The text in `out`, which is not empty if 1 is returned, and only then. -/
def browserTitleText (cap : Nat) : Option (List UInt8) := do
  if cap = 0 then return []
  let out ← terminate cap []
  eachTag info (chars "title") 7 0 out fun i => do
    let index ← skipTag info.httpResponse i info.len
    let out ← loop (fun (index, out, pendingSpace) =>
      titlePass info cap index out pendingSpace) loopSteps
      (index, out, false)
    return .inr out

/-- The attribute of the name, or else the property. -/
def metaName (start stop : Nat) : Option (List UInt8) := do
  let name ← tagAttrValue info.httpResponse start stop (chars "name") 32
  if name ≠ [] then return name
  tagAttrValue info.httpResponse start stop (chars "property") 32

def browserMetaDescription (cap : Nat) : Option (List UInt8) := do
  if cap = 0 then return []
  let out ← terminate cap []
  eachTag info (chars "meta") 5 0 out fun i => do
    let start := u16 (i + 1)
    let stop ← findTagEnd info.httpResponse start info.len
    let name ← metaName info start stop
    if name = [] then return .inl (u16 (i + 1))
    if !textEqualsCi (cString name) (chars "description") &&
      !textEqualsCi (cString name) (chars "og:description") then
      return .inl (u16 (i + 1))
    let content ← tagAttrValue info.httpResponse start stop (chars "content") 64
    if content ≠ [] then return .inr (← browserCopy cap (cString content))
    return .inl (u16 (i + 1))

def browserHtmlAttr (attr : List UInt8) (cap : Nat) : Option (List UInt8) := do
  if cap = 0 then return []
  let out ← terminate cap []
  eachTag info (chars "html") 5 0 out fun i => do
    let start := u16 (i + 1)
    let stop ← findTagEnd info.httpResponse start info.len
    return .inr (← tagAttrValue info.httpResponse start stop attr cap)

def browserMetaHttpEquiv (cap : Nat) : Option (List UInt8) := do
  if cap = 0 then return []
  let out ← terminate cap []
  eachTag info (chars "meta") 5 0 out fun i => do
    let start := u16 (i + 1)
    let stop ← findTagEnd info.httpResponse start info.len
    let equiv ← tagAttrValue info.httpResponse start stop (chars "http-equiv") 32
    if equiv = [] ∨ !textEqualsCi (cString equiv) (chars "Content-Type") then
      return .inl (u16 (i + 1))
    let content ← tagAttrValue info.httpResponse start stop (chars "content") cap
    if content ≠ [] then return .inr (cString content)
    return .inl (u16 (i + 1))

/-! ## The body and the style -/

def bodyStart : Option Nat :=
  eachTag info (chars "body") 5 info.httpBodyOffset info.httpBodyOffset fun i => do
    return .inr (← skipTag info.httpResponse i info.len)

def bodyStyleProperty (property : List UInt8) : Option (Option UInt32) :=
  eachTag info (chars "body") 5 info.httpBodyOffset none fun i => do
    let tagStart := u16 (i + 1)
    let tagEnd ← findTagEnd info.httpResponse tagStart info.len
    return .inr (← tagStyleProperty info.httpResponse tagStart tagEnd property)

def styleBlockProperty (property : List UInt8) : Option (Option UInt32) :=
  eachTag info (chars "style") 7 info.httpBodyOffset none fun i => do
    let cssStart ← skipTag info.httpResponse (u16 (i + 1)) info.len
    let cssEnd ← findClosing info.httpResponse 3 info.len (chars "style") cssStart
    match ← parseCssProperty info.httpResponse cssStart cssEnd property with
    | some color => return .inr (some color)
    | none => return .inl (u16 (cssEnd + 1))

def browserPageBackground (fallback : UInt32) : Option UInt32 := do
  if let some color := ← bodyStyleProperty info (chars "background-color") then return color
  if let some color := ← bodyStyleProperty info (chars "background") then return color
  if let some color := ← styleBlockProperty info (chars "background-color") then return color
  if let some color := ← styleBlockProperty info (chars "background") then return color
  return fallback

def browserPageTextColor (fallback : UInt32) : Option UInt32 := do
  if let some color := ← bodyStyleProperty info (chars "color") then return color
  if let some color := ← styleBlockProperty info (chars "color") then return color
  return fallback

/-! ## Headers -/

/-- Whether the byte ends a line. -/
def endsLine (c : UInt8) : Bool := c == 13 || c == 10

/-- Whether a line begins at an index, with the name. -/
def headerAt (i stop : Nat) (name : List UInt8) : Option Bool := do
  if i > 0 then
    if (← byteBefore info.httpResponse i) != 10 then return false
    headerNameAt info.httpResponse i stop name
  else headerNameAt info.httpResponse i stop name

def browserHeaderValue (name : List UInt8) (cap : Nat) : Option (List UInt8) := do
  if cap = 0 then return []
  let out ← terminate cap []
  let stop := if info.httpBodyOffset ≠ 0 then info.httpBodyOffset else info.len
  loop (fun i => do
    if i + 2 < stop then
      if !(← headerAt info i stop name) then return .inl (u16 (i + 1))
      let i ← scanTo info.httpResponse (· == 58) stop i
      let i := if i < stop then u16 (i + 1) else i
      let i ← scanTo info.httpResponse (fun c => !(c == 32 || c == 9)) stop i
      return .inr (← terminate cap (← copyTo info.httpResponse endsLine stop cap i))
    else return .inr out) loopSteps 0

/-- The text in `out`, with `http_status` and the `url` of the browser. -/
def browserRedirectLocation (httpStatus : Nat) (browserUrl : List UInt8) (cap : Nat) :
    Option (List UInt8) := do
  if cap = 0 then return []
  let out ← terminate cap []
  if httpStatus ≠ 301 ∧ httpStatus ≠ 302 ∧ httpStatus ≠ 303 ∧ httpStatus ≠ 307 ∧
    httpStatus ≠ 308 then return out
  let stop := if info.httpBodyOffset ≠ 0 then info.httpBodyOffset else info.len
  loop (fun i => do
    if i + 9 < stop then
      if !(← headerAt info i stop (chars "location")) then return .inl (u16 (i + 1))
      let i ← scanTo info.httpResponse (fun c => !(c == 32 || c == 9)) stop (u16 (i + 9))
      let raw ← terminate 64 (← copyTo info.httpResponse endsLine stop 64 i)
      return .inr (← browserResolveHref browserUrl (cString raw) cap)
    else return .inr out) loopSteps 0

end Info

/-! ## What is extracted -/

section Yields

variable {text : List UInt8} {cap : Nat}

theorem browserCurrentHostPath_yields (browserUrl : List UInt8) {hostCap : Nat}
    (hhost : 0 < hostCap) (pathCap : Nat) :
    Yields (browserCurrentHostPath browserUrl hostCap pathCap) fun r =>
      r = Browser.browserCurrentHostPath browserUrl hostCap pathCap := by
  unfold browserCurrentHostPath Browser.browserCurrentHostPath
  refine Yields.bind ((appendText_yields _ hhost).and (appendText_length _ hhost)) fun host hh => ?_
  obtain ⟨hhost', hlen⟩ := hh
  rw [List.nil_append, List.length_nil, Nat.sub_zero] at hhost'
  refine Yields.bind (terminate_yields hlen) fun host' hhost'' => ?_
  subst hhost''
  have hor : Yields (orExampleHost hostCap host') fun h =>
      h = if host' = [] then (chars "example.com").take (hostCap - 1) else host' := by
    refine Yields.ite (fun hnil => ?_) fun hne => Yields.pure (if_neg hne).symm
    rw [if_pos hnil]
    exact browserCopy_yields hostCap _
  refine Yields.bind hor fun h hh => Yields.bind (browserCopy_yields pathCap _) fun path hpath =>
    Yields.pure ?_
  subst hhost' hh hpath
  rw [apply_ite (List.take (pathCap - 1))]

theorem browserResolveHref_yields (browserUrl href : List UInt8) (hcap : 0 < cap) :
    Yields (browserResolveHref browserUrl href cap) fun out =>
      out = Browser.browserResolveHref browserUrl href cap ∧ out.length < cap := by
  unfold browserResolveHref Browser.browserResolveHref
  refine Yields.ite (fun hnil =>
    Yields.ite (fun h0 => absurd h0 (Nat.ne_of_gt hcap)) fun _ => ?_) fun hne => ?_
  · rw [if_pos hnil]
    refine (terminate_yields hcap).mono fun out hout => ?_
    rw [hout]
    exact ⟨rfl, hcap⟩
  rw [if_neg hne]
  refine Yields.ite (fun hfull => ?_) fun hpart => ?_
  · rw [if_pos hfull]
    refine (browserCopy_yields cap href).mono fun out hout => ⟨hout, ?_⟩
    rw [hout, List.length_take]
    omega
  rw [if_neg hpart]
  refine Yields.bind (browserCurrentHostPath_yields browserUrl (by decide) 64) fun r hr => ?_
  obtain ⟨host, path⟩ := r
  rw [← hr]
  dsimp only
  have hstep : ∀ (t : List UInt8) {out text : List UInt8}, out.length < cap →
    out = text.take (cap - 1) →
      Yields (appendText cap out t) fun out' =>
        out' = (text ++ t).take (cap - 1) ∧ out'.length < cap := by
    intro t out text hlen hout
    refine ((appendText_yields t hlen).mono fun out' hout' => ?_).and (appendText_length t hlen)
    rw [hout', hout, List.take_append, List.length_take]
    congr 2
    omega
  refine Yields.bind (@hstep _ _ [] hcap (by simp)) fun out hout => ?_
  refine Yields.bind (hstep host hout.2 hout.1) fun out' hout' => ?_
  refine Yields.bind (hstep _ hout'.2 hout'.1) fun out'' hout'' => ?_
  refine (terminate_yields hout''.2).mono fun out₃ hout₃ => ?_
  rw [hout₃]
  refine ⟨hout''.1.trans ?_, hout''.2⟩
  simp

theorem putSpare_yields {out : List UInt8} (h : out.length < cap) (c : UInt8) :
    Yields (putSpare cap out c) fun out' => out'.length < cap := by
  refine Yields.ite (fun hroom => (put_yields c h).mono fun out' hout' => ?_) fun _ => Yields.pure h
  rw [hout', List.length_append]
  exact hroom

theorem appendCleanText_yields {out : List UInt8} (h : out.length < cap) (c : UInt8)
    (pendingSpace : Bool) :
    Yields (appendCleanText cap out c pendingSpace) fun r => r.1.length < cap := by
  refine Yields.ite (fun _ => Yields.pure h) fun _ =>
    Yields.ite (fun _ => Yields.pure h) fun _ => ?_
  refine Yields.ite (fun _ => ?_) fun _ => ?_
  · refine Yields.bind (putSpare_yields h 32) fun out₁ h₁ =>
      Yields.bind (putSpare_yields h₁ c) fun out₂ h₂ => ?_
    refine Yields.bind (terminate_yields h₂) fun out₃ h₃ => Yields.pure ?_
    rw [h₃]
    exact h₂
  · refine Yields.bind (putSpare_yields h c) fun out₁ h₁ =>
      Yields.bind (terminate_yields h₁) fun out₂ h₂ => ?_
    refine Yields.pure ?_
    rw [h₂]
    exact h₁

/-- The terminator of what is left is at the end of it or behind. -/
theorem lastPart_yields (htext : text.length < 65535) :
    Yields (lastPart (text ++ [0])) fun last => ∃ z, last ≤ z ∧ (text ++ [0])[z]? = some 0 := by
  refine loop_yields (I := fun x => x.1 ≤ text.length ∧ x.2 ≤ x.1) (m := fun x => text.length - x.1)
    (fun x hx => ?_) ⟨Nat.zero_le _, Nat.le_refl 0⟩ (by
      unfold loopSteps
      show text.length - 0 < 65537
      omega)
  obtain ⟨i, last⟩ := x
  obtain ⟨hi, hlast⟩ := hx
  have hlen : i < (text ++ [0]).length := by
    rw [List.length_append, List.length_singleton]
    exact Nat.lt_succ_of_le hi
  refine Yields.bind (yields_getElem hlen) fun c hc =>
    Yields.ite (fun hzero => Yields.pure ?_) fun hne => Yields.pure ?_
  · refine ⟨i, hlast, ?_⟩
    rw [List.getElem?_eq_getElem hlen, ← hc]
    exact congrArg some (by simpa using hzero)
  · have hlt : i < text.length := by
      refine Nat.lt_of_le_of_ne hi fun heq => hne ?_
      simp [hc, heq]
    rw [u16_of_lt (by omega)]
    refine ⟨⟨hlt, ?_⟩, Nat.sub_lt_sub_left hlt (Nat.lt_succ_self i)⟩
    show (if _ then _ else _) ≤ i + 1
    split
    · exact Nat.le_refl _
    · exact Nat.le_succ_of_le hlast

/-- What is moved is written behind what was moved before and before what is still to be moved. -/
theorem moveDown_yields {z last : Nat} (hlast : 0 < last) (hz : last ≤ z) (h : text[z]? = some 0)
    (hlen : z < 65535) :
    Yields (moveDown text last) fun _ => True := by
  refine loop_yields (I := fun x => x.2.1 < x.2.2 ∧ x.2.2 ≤ z ∧ x.1[z]? = some 0)
    (m := fun x => z - x.2.2)
    (fun x hx => ?_) ⟨hlast, hz, h⟩ (by
      unfold loopSteps
      show z - last < 65537
      omega)
  obtain ⟨text, o, last⟩ := x
  obtain ⟨ho, hz, h⟩ := hx
  dsimp only at ho hz h
  obtain ⟨hlen', -⟩ := List.getElem?_eq_some_iff.1 h
  have hpoke : ∀ c, Yields (poke text o c) fun text' => text' = text.set o c :=
    fun c => ⟨_, if_pos (by omega), rfl⟩
  refine Yields.bind (yields_getElem (i := last) (by omega)) fun c hc =>
    Yields.ite (fun _ => ?_) fun hne => ?_
  · exact Yields.bind (hpoke 0) fun _ _ => Yields.pure trivial
  · have hlt : last < z := by
      refine Nat.lt_of_le_of_ne hz fun heq => hne ?_
      subst heq
      rw [List.getElem?_eq_getElem hlen', Option.some.injEq] at h
      simp [hc, h]
    refine Yields.bind (hpoke c) fun text' htext' => Yields.pure ?_
    rw [u16_of_lt (by omega), u16_of_lt (by omega), htext']
    refine ⟨⟨Nat.succ_lt_succ ho, hlt, ?_⟩, Nat.sub_lt_sub_left hlt (Nat.lt_succ_self last)⟩
    show (text.set o c)[z]? = some 0
    rw [List.getElem?_set_ne (by omega)]
    exact h

theorem browserShortType_yields (htext : text.length < 65535) :
    Yields (browserShortType text) fun _ => True := by
  refine Yields.ite (fun _ => Yields.pure trivial) fun _ => ?_
  refine Yields.bind (lastPart_yields htext) fun last hlast => ?_
  obtain ⟨z, hz, h⟩ := hlast
  obtain ⟨hlen, -⟩ := List.getElem?_eq_some_iff.1 h
  rw [List.length_append, List.length_singleton] at hlen
  refine Yields.ite (fun _ => Yields.pure trivial) fun hne => ?_
  exact Yields.bind (moveDown_yields (Nat.pos_of_ne_zero hne) hz h (by omega)) fun _ _ =>
    Yields.pure trivial

theorem browserContentSummary_yields (input : List UInt8) (cap : Nat) :
    Yields (browserContentSummary input cap) fun out => out.length ≤ cap - 1 := by
  refine Yields.ite (fun _ => Yields.pure (Nat.zero_le _)) fun hcap => ?_
  have hend : ∀ {out : List UInt8}, out.length < cap →
      Yields (terminate cap out) fun out' => out'.length < cap := by
    intro out hout
    refine (terminate_yields hout).mono fun out' hout' => ?_
    rw [hout']
    exact hout
  refine Yields.mono (Q := fun out => out.length < cap) ?_ fun out hout => Nat.le_sub_one_of_lt hout
  refine Yields.bind (hend (Nat.pos_of_ne_zero hcap)) fun out hout => ?_
  refine Yields.ite (fun _ => Yields.pure hout) fun _ => ?_
  refine Yields.bind (appendText_length _ hout) fun out₁ h₁ =>
    Yields.bind (hend h₁) fun out₂ h₂ => ?_
  split
  · exact Yields.pure h₂
  · refine Yields.ite (fun _ => ?_) fun _ =>
      Yields.bind (appendText_length _ h₂) fun out₃ h₃ => hend h₃
    refine Yields.bind (putSpare_yields h₂ 32) fun out₃ h₃ => ?_
    exact Yields.bind (appendText_length _ h₃) fun out₄ h₄ => hend h₄

/-! ## Tags -/

variable {info : NetInfo} (hinfo : info.len ≤ 8192)

include hinfo

/-- A loop over tags, of which each pass goes on behind the tag or ends. -/
theorem eachTag_yields {α : Type} {name : List UInt8} {room start : Nat} {missing : α}
    {onTag : Nat → Option (Pass Nat α)} {Q : α → Prop} (hmissing : Q missing)
    (h : ∀ i, i + room < info.len → info.httpResponse[i]? = some 60 →
      Yields (onTag i) (Advances (fun _ => True) (fun k => info.len - k) Q i)) :
    Yields (eachTag info name room start missing onTag) Q := by
  refine loop_yields (I := fun _ => True) (m := fun k => info.len - k) (fun i _ => ?_) trivial (by
    unfold loopSteps
    omega)
  refine Yields.ite (fun hlt => ?_) fun _ => Yields.pure hmissing
  have hnext : Advances (fun _ => True) (fun k => info.len - k) Q i
      (.inl (u16 (i + 1)) : Pass Nat α) := by
    rw [u16_of_lt (by omega)]
    exact ⟨trivial, Nat.sub_lt_sub_left (by omega) (Nat.lt_succ_self i)⟩
  have hlen : i < info.httpResponse.length := Nat.lt_of_le_of_lt (Nat.le_add_right i room) hlt
  refine Yields.bind (yields_getElem hlen) fun c hc =>
    Yields.ite (fun _ => Yields.pure hnext) fun hlt' => ?_
  refine Yields.bind (matchTagName_yields (Nat.le_refl _) hinfo _ name) fun b _ => ?_
  refine Yields.ite (fun _ => Yields.pure hnext) fun _ => h i hlt ?_
  rw [List.getElem?_eq_getElem hlen, ← hc]
  exact congrArg some (by simpa using hlt')

/-- Going on behind an index. -/
theorem advances_next {α : Type} {Q : α → Prop} {i j : Nat} (hi : i < info.len) (hj : i ≤ j)
    (hj' : j ≤ info.len) :
    Advances (fun _ => True) (fun k => info.len - k) Q i (.inl (u16 (j + 1)) : Pass Nat α) := by
  rw [u16_of_lt (by omega)]
  refine ⟨trivial, ?_⟩
  show info.len - (j + 1) < info.len - i
  omega

theorem readChar_yields {i : Nat} (hi : i < info.len) :
    Yields (readChar info i) fun r => i < r.2 ∧ r.2 ≤ info.len := by
  refine Yields.bind (yields_getElem hi) fun c _ => ?_
  rw [u16_of_lt (by omega)]
  refine Yields.ite (fun _ => ?_) fun _ => Yields.pure ⟨Nat.lt_succ_self i, hi⟩
  refine (readEntity_yields (Nat.le_refl _) hinfo (i + 1)).mono fun r hr => ?_
  have hmax : max (i + 1) info.httpResponse.length = info.len := Nat.max_eq_right hi
  rw [hmax] at hr
  exact ⟨hr.1, hr.2⟩

theorem browserTitleText_yields (cap : Nat) :
    Yields (browserTitleText info cap) fun out => out.length ≤ cap - 1 := by
  refine Yields.ite (fun _ => Yields.pure (Nat.zero_le _)) fun hcap => ?_
  have hpos := Nat.pos_of_ne_zero hcap
  refine Yields.mono (Q := fun out => out.length < cap) ?_ fun out hout => Nat.le_sub_one_of_lt hout
  refine Yields.bind (terminate_yields hpos) fun out hout => ?_
  subst hout
  refine eachTag_yields hinfo hpos fun i hi _ => ?_
  refine Yields.bind (skipTag_yields (Nat.le_refl _) hinfo i) fun index _ => ?_
  refine Yields.bind (Q := fun out => out.length < cap) ?_ fun out hout => Yields.pure hout
  refine loop_yields (I := fun x => x.2.1.length < cap) (m := fun x => info.len - x.1)
      (fun x hx => ?_) hpos (by
    unfold loopSteps
    show info.len - index < 65537
    omega)
  obtain ⟨index, out, pendingSpace⟩ := x
  refine Yields.ite (fun hlt => ?_) fun _ => Yields.pure hx
  refine Yields.bind (closesAt_yields (Nat.le_refl _) hinfo _ (by unfold NetInfo.len at hlt; omega))
    fun b _ => ?_
  refine Yields.ite (fun _ => Yields.pure hx) fun _ => ?_
  refine Yields.bind (readChar_yields hinfo (by omega)) fun r hr => ?_
  refine Yields.bind (appendCleanText_yields hx r.1 pendingSpace) fun r' hr' =>
    Yields.pure ⟨hr', ?_⟩
  show info.len - r.2 < info.len - index
  omega

/-- The end of a tag that begins behind an index. -/
theorem tagEnd_yields {i : Nat} (hi : i < info.len) :
    Yields (findTagEnd info.httpResponse (u16 (i + 1)) info.len) fun stop => stop ≤ info.len := by
  rw [u16_of_lt (by omega)]
  refine (findTagEnd_yields (Nat.le_refl _) hinfo (i + 1)).mono fun stop hstop => ?_
  have hmax := hstop.le_stop
  unfold NetInfo.len at hi ⊢
  omega

theorem metaName_yields {start stop : Nat} (hstop : stop ≤ info.len) :
    Yields (metaName info start stop) fun _ => True := by
  refine Yields.bind (tagAttrValue_yields hstop hinfo start _ 32) fun name _ => ?_
  refine Yields.ite (fun _ => Yields.pure trivial) fun _ => ?_
  exact (tagAttrValue_yields hstop hinfo start _ 32).mono fun _ _ => trivial

theorem browserMetaDescription_yields (cap : Nat) :
    Yields (browserMetaDescription info cap) fun out => out.length ≤ cap - 1 := by
  refine Yields.ite (fun _ => Yields.pure (Nat.zero_le _)) fun hcap => ?_
  refine Yields.bind (terminate_yields (Nat.pos_of_ne_zero hcap)) fun out hout => ?_
  subst hout
  refine eachTag_yields hinfo (Nat.zero_le _) fun i hi _ => ?_
  have hnext : ∀ {Q : List UInt8 → Prop}, Advances (fun _ => True) (fun k => info.len - k) Q i
      (.inl (u16 (i + 1)) : Pass Nat (List UInt8)) :=
        advances_next hinfo (by omega) (Nat.le_refl i) (by omega)
  refine Yields.bind (tagEnd_yields hinfo (by omega)) fun stop hstop => ?_
  refine Yields.bind (metaName_yields hinfo hstop) fun name _ => ?_
  refine Yields.ite (fun _ => Yields.pure hnext) fun _ =>
    Yields.ite (fun _ => Yields.pure hnext) fun _ => ?_
  refine Yields.bind (tagAttrValue_yields hstop hinfo _ _ 64) fun content _ => ?_
  refine Yields.ite (fun _ => ?_) fun _ => Yields.pure hnext
  refine Yields.bind (browserCopy_yields cap _) fun out hout => Yields.pure ?_
  show out.length ≤ cap - 1
  rw [hout, List.length_take]
  exact Nat.min_le_left ..

theorem browserHtmlAttr_yields (attr : List UInt8) (cap : Nat) :
    Yields (browserHtmlAttr info attr cap) fun out => out.length ≤ cap - 1 := by
  refine Yields.ite (fun _ => Yields.pure (Nat.zero_le _)) fun hcap => ?_
  refine Yields.bind (terminate_yields (Nat.pos_of_ne_zero hcap)) fun out hout => ?_
  subst hout
  refine eachTag_yields hinfo (Nat.zero_le _) fun i hi _ => ?_
  refine Yields.bind (tagEnd_yields hinfo (by omega)) fun stop hstop => ?_
  exact Yields.bind (tagAttrValue_yields hstop hinfo _ attr cap) fun out hout => Yields.pure hout

omit hinfo in
theorem cString_length_le (bytes : List UInt8) : (cString bytes).length ≤ bytes.length :=
  (List.takeWhile_sublist _).length_le

theorem browserMetaHttpEquiv_yields (cap : Nat) :
    Yields (browserMetaHttpEquiv info cap) fun out => out.length ≤ cap - 1 := by
  refine Yields.ite (fun _ => Yields.pure (Nat.zero_le _)) fun hcap => ?_
  refine Yields.bind (terminate_yields (Nat.pos_of_ne_zero hcap)) fun out hout => ?_
  subst hout
  refine eachTag_yields hinfo (Nat.zero_le _) fun i hi _ => ?_
  have hnext : ∀ {Q : List UInt8 → Prop}, Advances (fun _ => True) (fun k => info.len - k) Q i
      (.inl (u16 (i + 1)) : Pass Nat (List UInt8)) :=
        advances_next hinfo (by omega) (Nat.le_refl i) (by omega)
  refine Yields.bind (tagEnd_yields hinfo (by omega)) fun stop hstop => ?_
  refine Yields.bind (tagAttrValue_yields hstop hinfo _ _ 32) fun equiv _ => ?_
  refine Yields.ite (fun _ => Yields.pure hnext) fun _ => ?_
  refine Yields.bind (tagAttrValue_yields hstop hinfo _ _ cap) fun content hcontent => ?_
  refine Yields.ite (fun _ => Yields.pure ?_) fun _ => Yields.pure hnext
  exact Nat.le_trans (cString_length_le content) hcontent

/-! ## The body and the style -/

theorem bodyStart_yields :
    Yields (bodyStart info) fun index => index ≤ max info.httpBodyOffset info.len := by
  refine eachTag_yields hinfo (Nat.le_max_left ..) fun i hi _ => ?_
  refine Yields.bind (skipTag_yields (Nat.le_refl _) hinfo i) fun j hj => Yields.pure ?_
  show j ≤ max info.httpBodyOffset info.len
  have hmax : max i info.httpResponse.length = info.len := Nat.max_eq_right (Nat.le_of_lt (by
    unfold NetInfo.len at hi
    omega))
  rw [hmax] at hj
  exact Nat.le_trans hj.2.1 (Nat.le_max_right ..)

theorem bodyStyleProperty_yields (property : List UInt8) :
    Yields (bodyStyleProperty info property) fun _ => True := by
  refine eachTag_yields hinfo trivial fun i hi _ => ?_
  refine Yields.bind (tagEnd_yields hinfo (by omega)) fun stop hstop => ?_
  exact Yields.bind (tagStyleProperty_yields hstop hinfo _ property) fun _ _ => Yields.pure trivial

theorem styleBlockProperty_yields (property : List UInt8) :
    Yields (styleBlockProperty info property) fun _ => True := by
  refine eachTag_yields hinfo trivial fun i hi _ => ?_
  rw [u16_of_lt (by omega)]
  refine Yields.bind (skipTag_yields (Nat.le_refl _) hinfo (i + 1)) fun cssStart hstart => ?_
  refine Yields.bind (findClosing_yields (Nat.le_refl _) hinfo (by decide) _ cssStart)
    fun cssEnd hend => ?_
  have hlen : info.httpResponse.length = info.len := rfl
  rw [hlen] at hstart hend
  refine Yields.bind (parseCssProperty_yields (by omega) hinfo cssStart property) fun color _ => ?_
  cases color with
  | some color => exact Yields.pure trivial
  | none => exact Yields.pure (advances_next hinfo (by omega) (by omega) (by omega))

theorem browserPageBackground_yields (fallback : UInt32) :
    Yields (browserPageBackground info fallback) fun _ => True := by
  refine Yields.bind (bodyStyleProperty_yields hinfo _) fun color _ => ?_
  cases color with
  | some color => exact Yields.pure trivial
  | none =>
    refine Yields.bind (bodyStyleProperty_yields hinfo _) fun color _ => ?_
    cases color with
    | some color => exact Yields.pure trivial
    | none =>
      refine Yields.bind (styleBlockProperty_yields hinfo _) fun color _ => ?_
      cases color with
      | some color => exact Yields.pure trivial
      | none =>
        refine Yields.bind (styleBlockProperty_yields hinfo _) fun color _ => ?_
        cases color <;> exact Yields.pure trivial

theorem browserPageTextColor_yields (fallback : UInt32) :
    Yields (browserPageTextColor info fallback) fun _ => True := by
  refine Yields.bind (bodyStyleProperty_yields hinfo _) fun color _ => ?_
  cases color with
  | some color => exact Yields.pure trivial
  | none =>
    refine Yields.bind (styleBlockProperty_yields hinfo _) fun color _ => ?_
    cases color <;> exact Yields.pure trivial

/-! ## Headers -/

theorem headerAt_yields {i stop : Nat} (hstop : stop ≤ info.len) (hi : i < stop)
    (name : List UInt8) :
    Yields (headerAt info i stop name) fun _ => True := by
  refine Yields.ite (fun hpos => ?_) fun _ => headerNameAt_yields hstop hinfo name
  have hlen : i ≤ info.httpResponse.length := Nat.le_trans (Nat.le_of_lt hi) hstop
  refine Yields.bind (byteBefore_yields hpos hlen) fun c _ => ?_
  exact Yields.ite (fun _ => Yields.pure trivial) fun _ => headerNameAt_yields hstop hinfo name

omit hinfo in
theorem headersEnd_le (hbody : info.httpBodyOffset ≤ info.len) :
    (if info.httpBodyOffset ≠ 0 then info.httpBodyOffset else info.len) ≤ info.len := by
  split
  · exact hbody
  · exact Nat.le_refl _

theorem browserHeaderValue_yields (hbody : info.httpBodyOffset ≤ info.len)
    (name : List UInt8) (cap : Nat) :
    Yields (browserHeaderValue info name cap) fun out => out.length ≤ cap - 1 := by
  refine Yields.ite (fun _ => Yields.pure (Nat.zero_le _)) fun hcap => ?_
  have hpos := Nat.pos_of_ne_zero hcap
  refine Yields.bind (terminate_yields hpos) fun out hout => ?_
  subst hout
  have hstop := headersEnd_le hbody
  revert hstop
  generalize (if info.httpBodyOffset ≠ 0 then info.httpBodyOffset else info.len) = stop
  intro hstop
  refine loop_yields (I := fun _ => True) (m := fun k => stop - k) (fun i _ => ?_) trivial (by
    unfold loopSteps
    omega)
  refine Yields.ite (fun hlt => ?_) fun _ => Yields.pure (Nat.zero_le _)
  refine Yields.bind (headerAt_yields hinfo hstop (by omega) name) fun b _ => ?_
  refine Yields.ite (fun _ => Yields.pure ?_) fun _ => ?_
  · rw [u16_of_lt (by omega)]
    exact ⟨trivial, Nat.sub_lt_sub_left (by omega) (Nat.lt_succ_self i)⟩
  · refine Yields.bind (scanTo_yields hstop hinfo _ i) fun j _ => ?_
    refine Yields.bind (scanTo_yields hstop hinfo _ _) fun k _ => ?_
    refine Yields.bind (copyTo_yields hstop hinfo _ hpos k) fun out hout => ?_
    refine Yields.bind (terminate_yields hout) fun out' hout' => Yields.pure ?_
    rw [hout']
    exact Nat.le_sub_one_of_lt hout

theorem browserRedirectLocation_yields (hbody : info.httpBodyOffset ≤ info.len) (httpStatus : Nat)
    (browserUrl : List UInt8) (cap : Nat) :
    Yields (browserRedirectLocation info httpStatus browserUrl cap) fun out =>
      out.length ≤ cap - 1 := by
  refine Yields.ite (fun _ => Yields.pure (Nat.zero_le _)) fun hcap => ?_
  have hpos := Nat.pos_of_ne_zero hcap
  refine Yields.bind (terminate_yields hpos) fun out hout => ?_
  subst hout
  refine Yields.ite (fun _ => Yields.pure (Nat.zero_le _)) fun _ => ?_
  have hstop := headersEnd_le hbody
  revert hstop
  generalize (if info.httpBodyOffset ≠ 0 then info.httpBodyOffset else info.len) = stop
  intro hstop
  refine loop_yields (I := fun _ => True) (m := fun k => stop - k) (fun i _ => ?_) trivial (by
    unfold loopSteps
    omega)
  refine Yields.ite (fun hlt => ?_) fun _ => Yields.pure (Nat.zero_le _)
  refine Yields.bind (headerAt_yields hinfo hstop (by omega) _) fun b _ => ?_
  refine Yields.ite (fun _ => Yields.pure ?_) fun _ => ?_
  · rw [u16_of_lt (by omega)]
    exact ⟨trivial, Nat.sub_lt_sub_left (by omega) (Nat.lt_succ_self i)⟩
  · refine Yields.bind (scanTo_yields hstop hinfo _ _) fun j _ => ?_
    refine Yields.bind (copyTo_yields hstop hinfo _ (by decide) j) fun raw hraw => ?_
    refine Yields.bind (terminate_yields hraw) fun raw' _ => ?_
    refine Yields.bind (browserResolveHref_yields browserUrl _ hpos) fun out hout => Yields.pure ?_
    exact Nat.le_sub_one_of_lt hout.2

end Yields

end MinervaOS.Browser.Page
