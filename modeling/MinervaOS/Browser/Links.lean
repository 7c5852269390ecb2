import MinervaOS.Lib.Lines
import MinervaOS.Net.Target

/-!
# Links

What becomes of an `href` between the tag it stands in and the request that a click on it sends.
Nothing on the way takes out a line break: the request is one request exactly if the URL that the
link resolves to has none in its host and neither a line break nor a blank in its path.
-/

namespace MinervaOS.Browser

open Net

/-! ## The attribute -/

def lowerChar (c : UInt8) : UInt8 := if 65 ≤ c && c ≤ 90 then c + 32 else c

def isSpace (c : UInt8) : Bool := c == 32 || c == 13 || c == 10 || c == 9

def browserStartsWith : List UInt8 → List UInt8 → Bool
  | _, [] => true
  | [], _ :: _ => false
  | c :: text, d :: start => lowerChar c == d && browserStartsWith text start

/-- `while (i < end && is_space(data[i])) i++`. -/
def skipSpaces (tag : List UInt8) (i : Nat) : Nat := i + ((tag.drop i).takeWhile isSpace).length

/-- What is copied from index `i` on, where a value begins. -/
def attrValue (tag : List UInt8) (i cap : Nat) : Option (List UInt8) :=
  let quoted := get8 tag i == 34 || get8 tag i == 39
  let value := if quoted then (tag.drop (i + 1)).takeWhile (· != get8 tag i)
    else (tag.drop i).takeWhile (!isSpace ·)
  if value.take (cap - 1) = [] then none else some (value.take (cap - 1))

/-- The loop of `tag_attr_value` from index `i` on; `none` is a returned 0. -/
def tagAttrFrom (tag attr : List UInt8) (cap : Nat) : Nat → Nat → Option (List UInt8)
  | 0, _ => none
  | steps + 1, i =>
    if i ≥ tag.length then none
    else if !browserStartsWith (tag.drop i) attr then tagAttrFrom tag attr cap steps (i + 1)
    else if i > 0 && !isSpace (lowerChar (get8 tag (i - 1))) then
      tagAttrFrom tag attr cap steps (i + 1)
    else
      let i := skipSpaces tag (i + attr.length)
      if i ≥ tag.length || get8 tag i != 61 then tagAttrFrom tag attr cap steps (i + 1)
      else attrValue tag (skipSpaces tag (i + 1)) cap

/-- `tag` are the bytes from `start` up to `end`. -/
def tagAttrValue (tag attr : List UInt8) (cap : Nat) : Option (List UInt8) :=
  if cap = 0 then none else tagAttrFrom tag attr cap (tag.length + 1) 0

/-- The bytes of a buffer that are read as a string. -/
def cString (bytes : List UInt8) : List UInt8 := bytes.takeWhile (· != 0)

/-! ## The URL -/

/-- `url` or, where it is empty, the default. -/
def browserUrlOr (url : List UInt8) : List UInt8 := if url = [] then chars "example.com/" else url

def browserIsHttps (url : List UInt8) : Bool :=
  browserStartsWith url (chars "https://") || browserStartsWith url (chars "https;//")

def browserCurrentHostPath (browserUrl : List UInt8) (hostCap pathCap : Nat) :
    List UInt8 × List UInt8 :=
  let url := browserUrlOr browserUrl
  let url :=
    if browserStartsWith url (chars "http://") then url.drop 7
    else if browserStartsWith url (chars "http;//") then url.drop 7
    else if browserStartsWith url (chars "https://") then url.drop 8
    else if browserStartsWith url (chars "https;//") then url.drop 8
    else url
  let host := (url.takeWhile (· != 47)).take (hostCap - 1)
  let slash := url.drop host.length
  (if host = [] then (chars "example.com").take (hostCap - 1) else host,
    if slash.head? = some 47 then slash.take (pathCap - 1) else [47].take (pathCap - 1))

def browserResolveHref (browserUrl href : List UInt8) (cap : Nat) : List UInt8 :=
  if href = [] then []
  else if browserStartsWith href (chars "http://") || browserStartsWith href (chars "https://") then
    href.take (cap - 1)
  else
    let (host, path) := browserCurrentHostPath browserUrl 48 64
    let scheme := if browserIsHttps browserUrl then chars "https://" else []
    let rest :=
      if href.head? = some 47 then href
      else if href.head? = some 35 then path
      else 47 :: href
    (scheme ++ host ++ rest).take (cap - 1)

/-- What `browser_set_url` stores. -/
def browserSetUrl (url : List UInt8) : List UInt8 := (browserUrlOr url).take 63

/-- The URL that a click on the link of a tag opens, if the tag has a link that can be clicked. -/
def linkUrl (browserUrl tag : List UInt8) : Option (List UInt8) :=
  match tagAttrValue tag (chars "href") 64 with
  | none => none
  | some href =>
    let link := browserResolveHref browserUrl (cString href) 64
    if link = [] then none else some (browserSetUrl link)

/-! ## The request -/

/-- `append_str`. -/
def appendStr (dst : List UInt8) (max : Nat) (src : List UInt8) : List UInt8 :=
  dst ++ src.take (max - dst.length)

def requestEnd : List UInt8 := [13, 10] ++ chars "Connection: close" ++ [13, 10, 13, 10]

def buildHttpRequest (t : Target) (max : Nat) : Option (List UInt8) :=
  let request := appendStr [] max (chars "GET ")
  let request := appendStr request max t.httpPath
  let request := appendStr request max (chars " HTTP/1.0" ++ [13, 10] ++ chars "Host: ")
  let request := appendStr request max t.httpHost
  let request := appendStr request max requestEnd
  if request.length ≥ max then none else some request

/-- What `net_http_get_url` or `net_https_get_url` sends for a URL, with the size of its buffer. -/
def fetchRequest (url : List UInt8) : Option (List UInt8) :=
  if browserIsHttps url then
    (parseTlsUrl (some url) netHttpHostSize netHttpPathSize).bind fun (host, path) =>
      buildHttpRequest (netSetHttpTarget host path) 132
  else
    (parseUrl (some url) netHttpHostSize netHttpPathSize).bind fun (host, path) =>
      buildHttpRequest (netSetHttpTarget host path) 160

/-! ## One request -/

def noBreak (c : UInt8) : Prop := c ≠ 13 ∧ c ≠ 10

/-- The request for a path of a host. -/
def requestFor (host path : List UInt8) : List UInt8 :=
  chars "GET " ++ path ++ (chars " HTTP/1.0" ++ [13, 10] ++ chars "Host: ") ++ host ++ requestEnd

/-- One request line, one Host header, one Connection header and an empty line. -/
def OneRequest (request : List UInt8) : Prop := ∃ host path, (∀ c ∈ path, c ≠ 32 ∧ noBreak c) ∧
  (∀ c ∈ host, noBreak c) ∧ request = requestFor host path

/-- The URL as the parser that it is given to sees it behind the scheme. -/
def behindScheme (url : List UInt8) : List UInt8 :=
  if browserIsHttps url then skipScheme url else skipHttp url

/-- The URL is refused, or there is no line break in the host that is taken from it and neither a
line break nor a blank in the path. -/
def CleanUrl (url : List UInt8) : Prop :=
  browserIsHttps url = false ∧ hasHttps (behindScheme url) = true ∨ Refused (behindScheme url) ∨
    (∀ c ∈ (authority (behindScheme url)).take 47, noBreak c) ∧
      ((authority (behindScheme url)).length < 48 →
        ∀ c ∈ (remainder (behindScheme url)).take 63, c ≠ 32 ∧ noBreak c)

section

variable {host path host' path' : List UInt8}

/-- A request has its line breaks in four places, and every other one is in its host or in its path.
-/
theorem count_requestFor (c : UInt8) (hc : c = 13 ∨ c = 10) :
    (requestFor host path).count c = 4 + path.count c + host.count c := by
  have hget : (chars "GET ").count c = 0 := by rcases hc with rfl | rfl <;> decide
  have hmiddle : (chars " HTTP/1.0" ++ [13, 10] ++ chars "Host: ").count c = 1 := by
    rcases hc with rfl | rfl <;> decide
  have hend : requestEnd.count c = 3 := by rcases hc with rfl | rfl <;> decide
  unfold requestFor
  rw [List.count_append, List.count_append, List.count_append, List.count_append, hget,
    hmiddle, hend]
  omega

theorem noBreak_of_requestFor (h : requestFor host path = requestFor host' path')
    (hpath : ∀ c ∈ path', noBreak c) (hhost : ∀ c ∈ host', noBreak c) :
    (∀ c ∈ path, noBreak c) ∧ ∀ c ∈ host, noBreak c := by
  have hzero : ∀ c, c = 13 ∨ c = 10 → path.count c = 0 ∧ host.count c = 0 := by
    intro c hc
    have hcount := congrArg (List.count c) h
    rw [count_requestFor c hc, count_requestFor c hc] at hcount
    have hpath' : path'.count c = 0 := List.count_eq_zero.2 fun hmem => by
      rcases hc with rfl | rfl
      · exact (hpath _ hmem).1 rfl
      · exact (hpath _ hmem).2 rfl
    have hhost' : host'.count c = 0 := List.count_eq_zero.2 fun hmem => by
      rcases hc with rfl | rfl
      · exact (hhost _ hmem).1 rfl
      · exact (hhost _ hmem).2 rfl
    omega
  obtain ⟨hpath13, hhost13⟩ := hzero 13 (.inl rfl)
  obtain ⟨hpath10, hhost10⟩ := hzero 10 (.inr rfl)
  rw [List.count_eq_zero] at hpath13 hhost13 hpath10 hhost10
  exact ⟨fun c hc => ⟨fun he => hpath13 (he ▸ hc), fun he => hpath10 (he ▸ hc)⟩,
    fun c hc => ⟨fun he => hhost13 (he ▸ hc), fun he => hhost10 (he ▸ hc)⟩⟩

theorem oneRequest_iff (host path : List UInt8) : OneRequest (requestFor host path) ↔
    (∀ c ∈ path, c ≠ 32 ∧ noBreak c) ∧ ∀ c ∈ host, noBreak c := by
  constructor
  · rintro ⟨host', path', hpath', hhost', heq⟩
    obtain ⟨hpath, hhost⟩ := noBreak_of_requestFor heq (fun c hc => (hpath' c hc).2) hhost'
    refine ⟨?_, hhost⟩
    -- both request lines end at the first line break
    have hline : ∀ p : List UInt8, (∀ c ∈ p, noBreak c) → 13 ∉ p ++ chars " HTTP/1.0" := by
      intro p hp h
      rcases List.mem_append.1 h with h | h
      · exact (hp _ h).1 rfl
      · revert h
        decide
    unfold requestFor at heq
    simp only [List.append_assoc, List.append_cancel_left_eq] at heq
    rw [← List.append_assoc path, ← List.append_assoc path'] at heq
    obtain ⟨hsame, -⟩ :=
      first_sep_unique (hline path hpath) (hline path' fun c hc => (hpath' c hc).2) heq
    rw [List.append_cancel_right_eq] at hsame
    exact hsame ▸ hpath'
  · exact fun ⟨hpath, hhost⟩ => ⟨host, path, hpath, hhost, rfl⟩

theorem appendStr_eq {dst src : List UInt8} {max : Nat} (h : dst.length + src.length ≤ max) :
    appendStr dst max src = dst ++ src := by
  unfold appendStr
  rw [List.take_of_length_le (by omega)]

theorem buildHttpRequest_eq {t : Target} {max : Nat}
    (h : 44 + t.httpPath.length + t.httpHost.length < max) :
    buildHttpRequest t max = some (requestFor t.httpHost t.httpPath) := by
  have hget : (chars "GET ").length = 4 := by decide
  have hmiddle : (chars " HTTP/1.0" ++ [13, 10] ++ chars "Host: ").length = 17 := by decide
  have hend : requestEnd.length = 23 := by decide
  have hlen : (requestFor t.httpHost t.httpPath).length = 44 + t.httpPath.length +
      t.httpHost.length := by
    unfold requestFor
    simp only [List.length_append, hget, hmiddle, hend]
    omega
  generalize hm : chars " HTTP/1.0" ++ [13, 10] ++ chars "Host: " = middle at *
  have hfirst : appendStr [] max (chars "GET ") = chars "GET " :=
    appendStr_eq (by rw [hget, List.length_nil]; omega)
  have hpath : appendStr (chars "GET ") max t.httpPath = chars "GET " ++ t.httpPath :=
    appendStr_eq (by rw [hget]; omega)
  have hrest : appendStr (chars "GET " ++ t.httpPath) max middle = chars "GET " ++
      t.httpPath ++ middle :=
    appendStr_eq (by simp only [List.length_append, hget, hmiddle]; omega)
  have hhost : appendStr (chars "GET " ++ t.httpPath ++ middle) max t.httpHost =
      chars "GET " ++ t.httpPath ++ middle ++ t.httpHost :=
    appendStr_eq (by simp only [List.length_append, hget, hmiddle]; omega)
  have hrequest : appendStr (chars "GET " ++ t.httpPath ++ middle ++ t.httpHost) max requestEnd =
      requestFor t.httpHost t.httpPath := by
    rw [appendStr_eq (by simp only [List.length_append, hget, hmiddle, hend]; omega), ← hm]
    rfl
  unfold buildHttpRequest
  rw [hm]
  simp only [hfirst, hpath, hrest, hhost, hrequest, hlen]
  exact if_neg (by omega)

end

/-! ## The link -/

theorem browserSetUrl_spec (url : List UInt8) :
    browserSetUrl url ≠ [] ∧ (browserSetUrl url).length ≤ 63 := by
  unfold browserSetUrl browserUrlOr
  refine ⟨?_, by rw [List.length_take]; exact Nat.min_le_left ..⟩
  rw [ne_eq, List.take_eq_nil_iff, not_or]
  refine ⟨by decide, ?_⟩
  split_ifs with h
  · decide
  · exact h

theorem length_behindScheme_le (url : List UInt8) : (behindScheme url).length ≤ url.length := by
  unfold behindScheme skipScheme skipHttp
  split_ifs <;> simp

theorem length_authority_add (url : List UInt8) :
    (authority url).length + (remainder url).length ≤ url.length + 1 := by
  have hsplit := congrArg List.length (List.takeWhile_append_dropWhile (p := (· != 47)) (l := url))
  rw [List.length_append] at hsplit
  unfold authority remainder
  split_ifs with h
  · rw [h] at hsplit
    simp only [List.length_nil, List.length_cons] at hsplit ⊢
    omega
  · omega

/-- What is sent for a URL behind its scheme. -/
theorem parseAuthority_request {url : List UInt8} {max : Nat} (hlen : url.length ≤ 63)
    (hmax : 132 ≤ max) :
    ((parseAuthority url netHttpHostSize netHttpPathSize).bind fun p =>
        buildHttpRequest (netSetHttpTarget p.1 p.2) max) =
      if Refused url then none
      else if (authority url).length < 48 then some (requestFor (authority url) (remainder url))
      else some (requestFor ((authority url).take 47) [47]) := by
  rw [parseAuthority_eq]
  have hsum := length_authority_add url
  by_cases href : Refused url
  · rw [if_pos href, if_pos href]
    rfl
  have hhost : authority url ≠ [] := fun h => href (.inl h)
  rw [if_neg href, if_neg href]
  by_cases hfits : (authority url).length < netHttpHostSize
  · have hpos : 0 < (authority url).length := List.length_pos_iff.2 hhost
    have hpath : (remainder url).length < netHttpPathSize := by
      unfold netHttpPathSize
      omega
    have hshort : (authority url).length < 48 := hfits
    rw [if_pos hfits, if_pos hshort, List.take_of_length_le (Nat.le_sub_one_of_lt hpath),
      Option.bind_some, netSetHttpTarget_eq hhost (remainder_head url) hfits hpath]
    exact buildHttpRequest_eq (by dsimp only; omega)
  · have htake : ((authority url).take (netHttpHostSize - 1)).length ≤ 47 := by
      rw [List.length_take]
      exact Nat.min_le_left ..
    have hpath : ([47] : List UInt8).length < netHttpPathSize := by decide
    have hne : (authority url).take (netHttpHostSize - 1) ≠ [] := by
      rw [ne_eq, List.take_eq_nil_iff, not_or]
      exact ⟨by decide, hhost⟩
    have hlong : ¬(authority url).length < 48 := hfits
    rw [if_neg hfits, if_neg hlong, Option.bind_some,
      netSetHttpTarget_eq hne rfl (Nat.lt_succ_of_le htake) hpath]
    refine buildHttpRequest_eq ?_
    dsimp only [List.length_cons, List.length_nil]
    omega

theorem orExample_some {url : List UInt8} (h : url ≠ []) : orExample (some url) = url := by
  cases url with
  | nil => exact absurd rfl h
  | cons c url => rfl

/-- What is sent for a URL that the browser stores. -/
theorem fetchRequest_eq {url : List UInt8} (hne : url ≠ []) (hlen : url.length ≤ 63) :
    fetchRequest url =
    if browserIsHttps url = false ∧ hasHttps (behindScheme url) = true then none
    else if Refused (behindScheme url) then none
    else if (authority (behindScheme url)).length < 48 then
      some (requestFor (authority (behindScheme url)) (remainder (behindScheme url)))
    else some (requestFor ((authority (behindScheme url)).take 47) [47]) := by
  have hle := Nat.le_trans (length_behindScheme_le url) hlen
  unfold fetchRequest parseUrl parseTlsUrl
  rw [orExample_some hne]
  cases htls : browserIsHttps url with
  | true =>
    have hbehind : behindScheme url = skipScheme url := by rw [behindScheme, htls, if_pos rfl]
    rw [hbehind] at hle ⊢
    rw [if_pos rfl, if_neg (by simp)]
    exact parseAuthority_request hle (Nat.le_refl _)
  | false =>
    have hbehind : behindScheme url =
      skipHttp url := by rw [behindScheme, htls, if_neg Bool.false_ne_true]
    rw [hbehind] at hle ⊢
    rw [if_neg Bool.false_ne_true]
    dsimp only
    cases hhttps : hasHttps (skipHttp url) with
    | true => rfl
    | false =>
      rw [if_neg Bool.false_ne_true, if_neg (by simp)]
      exact parseAuthority_request hle (by decide)

theorem fetchRequest_one_iff {url : List UInt8} (hne : url ≠ []) (hlen : url.length ≤ 63) :
    (∀ request, fetchRequest url = some request → OneRequest request) ↔ CleanUrl url := by
  rw [fetchRequest_eq hne hlen]
  unfold CleanUrl
  by_cases hhttps : browserIsHttps url = false ∧ hasHttps (behindScheme url) = true
  · rw [if_pos hhttps]
    exact iff_of_true nofun (.inl hhttps)
  rw [if_neg hhttps, or_iff_right hhttps]
  by_cases href : Refused (behindScheme url)
  · rw [if_pos href]
    exact iff_of_true nofun (.inl href)
  rw [if_neg href, or_iff_right href]
  have hle := Nat.le_trans (length_behindScheme_le url) hlen
  have hsum := length_authority_add (behindScheme url)
  by_cases hfits : (authority (behindScheme url)).length < 48
  · have hpos : 0 < (authority (behindScheme url)).length :=
      List.length_pos_iff.2 fun h => href (.inl h)
    rw [if_pos hfits, forall_prop_of_true hfits, List.take_of_length_le (by omega),
      List.take_of_length_le (by omega), and_comm, ← oneRequest_iff]
    exact ⟨fun h => h _ rfl, fun h request hr => by cases hr; exact h⟩
  · rw [if_neg hfits]
    constructor
    · intro h
      exact ⟨((oneRequest_iff _ _).1 (h _ rfl)).2, fun hlt => absurd hlt hfits⟩
    · intro h request hr
      cases hr
      refine (oneRequest_iff _ _).2 ⟨?_, h.1⟩
      simp only [List.mem_singleton, forall_eq]
      exact ⟨by decide, by decide, by decide⟩

/-- A click on a link sends one request and nothing else exactly if the URL of the link is clean. -/
theorem one_request_iff (browserUrl tag : List UInt8) :
    (∀ request, (linkUrl browserUrl tag).bind fetchRequest = some request → OneRequest request) ↔
      ∀ url, linkUrl browserUrl tag = some url → CleanUrl url := by
  have hstored : ∀ url, linkUrl browserUrl tag = some url → url ≠ [] ∧ url.length ≤ 63 := by
    intro url h
    unfold linkUrl at h
    split at h
    · cases h
    · dsimp only at h
      split_ifs at h
      cases h
      exact browserSetUrl_spec _
  cases hurl : linkUrl browserUrl tag with
  | none => exact iff_of_true nofun nofun
  | some url =>
    obtain ⟨hne, hlen⟩ := hstored url hurl
    rw [Option.bind_some, fetchRequest_one_iff hne hlen]
    exact ⟨fun h url' hurl' => by cases hurl'; exact h, fun h => h url rfl⟩

/-- `a href="x/
Evil: 1"`. -/
def brokenTag : List UInt8 :=
  chars "a href=" ++ [34] ++ chars "/x" ++ [13, 10] ++ chars "Evil: 1" ++ [34]

/-- A click on it sends a header line of its own. -/
theorem brokenTag_sends : ¬∀ browserUrl tag request,
    (linkUrl browserUrl tag).bind fetchRequest = some request → OneRequest request := by
  intro h
  have hone :=
    h [] brokenTag (requestFor (chars "example.com") (chars "/x" ++ [13, 10] ++ chars "Evil: 1"))
    (by decide)
  have hclean := ((oneRequest_iff _ _).1 hone).1 13 (by decide)
  exact hclean.2.1 rfl

end MinervaOS.Browser
