import MinervaOS.Net.Tcp
import Mathlib.Data.List.TakeWhile

/-!
# The host and the path of a URL

A C string is the list of its bytes, the terminator left out. Both parsers copy the host up to a
slash or to the end of their buffer, and do not tell the two apart.
-/

namespace MinervaOS.Net

/-- The bytes of a literal. -/
def chars (s : String) : List UInt8 := s.toList.map fun c => UInt8.ofNat c.toNat

def netHttpHostSize : Nat := 48
def netHttpPathSize : Nat := 64

/-- `http://`, or with a semicolon for the colon. -/
def hasHttp (url : List UInt8) : Bool :=
  get8 url 0 == 104 && get8 url 1 == 116 && get8 url 2 == 116 && get8 url 3 == 112 &&
    (get8 url 4 == 58 || get8 url 4 == 59) && get8 url 5 == 47 && get8 url 6 == 47

/-- `https://`, or with a semicolon for the colon. -/
def hasHttps (url : List UInt8) : Bool :=
  get8 url 0 == 104 && get8 url 1 == 116 && get8 url 2 == 116 && get8 url 3 == 112 &&
    get8 url 4 == 115 && (get8 url 5 == 58 || get8 url 5 == 59) && get8 url 6 == 47 &&
      get8 url 7 == 47

/-- `:` and `;`, which begin a port. -/
def isPort (c : UInt8) : Bool := c == 58 || c == 59

/-- The loop that copies the host from index `hi` on: the host and what it stops at. -/
def copyHost (hostMax : Nat) : Nat → List UInt8 → Option (List UInt8 × List UInt8)
  | _, [] => some ([], [])
  | hi, c :: url =>
    if c != 47 && hi + 1 < hostMax then
      if isPort c then none
      else (copyHost hostMax (hi + 1) url).map fun (host, rest) => (c :: host, rest)
    else some ([], c :: url)

/-- Behind the scheme. -/
def parseAuthority (url : List UInt8) (hostMax pathMax : Nat) : Option (List UInt8 × List UInt8) :=
  match copyHost hostMax 0 url with
  | none => none
  | some (host, rest) =>
    if host = [] then none
    else if rest.head? = some 47 then some (host, rest.take (pathMax - 1))
    else some (host, [47])

/-- `if (!url || !url[0]) url = "example.com/"`. -/
def orExample (url : Option (List UInt8)) : List UInt8 :=
  match url with
  | none | some [] => chars "example.com/"
  | some url => url

def skipHttp (url : List UInt8) : List UInt8 := if hasHttp url then url.drop 7 else url

def skipScheme (url : List UInt8) : List UInt8 := if hasHttps url then url.drop 8 else skipHttp url

/-- The host and the path, or `none` for a returned 0. -/
def parseUrl (url : Option (List UInt8)) (hostMax pathMax : Nat) :
    Option (List UInt8 × List UInt8) :=
  let url := skipHttp (orExample url)
  if hasHttps url then none else parseAuthority url hostMax pathMax

def parseTlsUrl (url : Option (List UInt8)) (hostMax pathMax : Nat) :
    Option (List UInt8 × List UInt8) :=
  parseAuthority (skipScheme (orExample url)) hostMax pathMax

/-- `http_host` and `http_path`. -/
structure Target where
  httpHost : List UInt8
  httpPath : List UInt8
  deriving DecidableEq

def netSetHttpTarget (host path : List UInt8) : Target :=
  let host := host.take (netHttpHostSize - 1)
  let path := if path = [] then [47] else path
  { httpHost := if host = [] then chars "example.com" else host
    httpPath := (if path.head? ≠ some 47 then 47 :: path else path).take (netHttpPathSize - 1) }

/-! ## The authority -/

/-- Everything up to the first slash. -/
def authority (url : List UInt8) : List UInt8 := url.takeWhile (· != 47)

/-- Everything from the first slash on. -/
def remainder (url : List UInt8) : List UInt8 :=
  if url.dropWhile (· != 47) = [] then [47] else url.dropWhile (· != 47)

/-- The target is that of the URL behind the scheme. -/
def Names (url host path : List UInt8) : Prop :=
  host = authority url ∧ path = remainder url ∧ netSetHttpTarget host path = ⟨host, path⟩

/-- The host and the path are not longer than what the buffers hold. -/
def Fits (url : List UInt8) : Prop :=
  (authority url).length < netHttpHostSize ∧ (remainder url).length < netHttpPathSize

/-- There is no host, or a port within the first bytes of it. -/
def Refused (url : List UInt8) : Prop :=
  authority url = [] ∨ ∃ c ∈ (authority url).take (netHttpHostSize - 1), isPort c = true

instance (url : List UInt8) : Decidable (Fits url) := inferInstanceAs (Decidable (_ ∧ _))
instance (url : List UInt8) : Decidable (Refused url) := inferInstanceAs (Decidable (_ ∨ _))

theorem authority_cons {c : UInt8} (h : c ≠ 47) (url : List UInt8) :
    authority (c :: url) = c :: authority url := List.takeWhile_cons_of_pos (by simpa using h)

theorem authority_slash (url : List UInt8) : authority (47 :: url) = [] := rfl

theorem copyHost_eq (hostMax : Nat) : ∀ (hi : Nat) (url : List UInt8), copyHost hostMax hi url =
    if ((authority url).take (hostMax - 1 - hi)).any isPort then none
    else some ((authority url).take (hostMax - 1 - hi),
      url.drop ((authority url).take (hostMax - 1 - hi)).length)
  | _, [] => by simp [copyHost, authority]
  | hi, c :: url => by
    unfold copyHost
    by_cases hc : c = 47
    · rw [hc, authority_slash]
      simp
    by_cases hroom : hi + 1 < hostMax
    · have hsub : hostMax - 1 - hi = hostMax - 1 - (hi + 1) + 1 := by omega
      rw [authority_cons hc, hsub, List.take_succ_cons, List.any_cons, List.length_cons,
        List.drop_succ_cons, if_pos (by simp [hc, hroom]), copyHost_eq hostMax (hi + 1) url]
      cases isPort c with
      | true => rfl
      | false =>
        rw [if_neg Bool.false_ne_true, Bool.false_or]
        split_ifs <;> rfl
    · have hzero : hostMax - 1 - hi = 0 := by omega
      rw [if_neg (by simp [hroom]), hzero]
      simp

theorem drop_authority (url : List UInt8) :
    url.drop (authority url).length = url.dropWhile (· != 47) := by
  induction url with
  | nil => rfl
  | cons c url ih =>
    by_cases hc : c = 47
    · rw [hc, authority_slash]
      rfl
    · rw [authority_cons hc, List.length_cons, List.drop_succ_cons, ih,
        List.dropWhile_cons_of_pos (by simpa using hc)]

theorem head?_dropWhile (url : List UInt8) (h : url.dropWhile (· != 47) ≠ []) :
    (url.dropWhile (· != 47)).head? = some 47 := by
  have hfirst := List.dropWhile_get_zero_not (· != 47) url (List.length_pos_iff.2 h)
  rw [List.head?_eq_getElem?, List.getElem?_eq_getElem (List.length_pos_iff.2 h)]
  simpa using hfirst

/-- The byte that a host that does not fit is cut at is not a slash. -/
theorem head?_drop_long {url : List UInt8} {n : Nat} (h : n < (authority url).length) :
    (url.drop n).head? ≠ some 47 := by
  induction url generalizing n with
  | nil => exact absurd h (Nat.not_lt_zero _)
  | cons c url ih =>
    by_cases hc : c = 47
    · rw [hc, authority_slash] at h
      exact absurd h (Nat.not_lt_zero _)
    · rw [authority_cons hc] at h
      cases n with
      | zero => simpa using hc
      | succ n => exact ih (Nat.succ_lt_succ_iff.1 h)

/-- What the parsers make of the URL behind the scheme. -/
theorem parseAuthority_eq (url : List UInt8) :
    parseAuthority url netHttpHostSize netHttpPathSize =
      if Refused url then none
      else if (authority url).length < netHttpHostSize then
        some (authority url, (remainder url).take (netHttpPathSize - 1))
      else some ((authority url).take (netHttpHostSize - 1), [47]) := by
  unfold parseAuthority
  rw [copyHost_eq, Nat.sub_zero]
  cases hport : ((authority url).take (netHttpHostSize - 1)).any isPort with
  | true => rw [if_pos rfl, if_pos (.inr (List.any_eq_true.1 hport))]
  | false =>
    have hnone : ¬∃ c ∈ (authority url).take (netHttpHostSize - 1), isPort c = true := fun h => by
      rw [List.any_eq_true.2 h] at hport
      cases hport
    rw [if_neg Bool.false_ne_true]
    by_cases hempty : authority url = []
    · rw [if_pos (.inl hempty)]
      simp [hempty]
    · have hhost : (authority url).take (netHttpHostSize - 1) ≠ [] := by
        rw [ne_eq, List.take_eq_nil_iff, not_or]
        exact ⟨by decide, hempty⟩
      have href : ¬Refused url := not_or.2 ⟨hempty, hnone⟩
      rw [if_neg href]
      dsimp only
      rw [if_neg hhost]
      by_cases hfits : (authority url).length < netHttpHostSize
      · rw [if_pos hfits, List.take_of_length_le (Nat.le_sub_one_of_lt hfits), drop_authority]
        unfold remainder
        by_cases hrest : url.dropWhile (· != 47) = []
        · rw [if_pos hrest, hrest]
          rfl
        · rw [if_neg hrest, if_pos (head?_dropWhile url hrest)]
      · have hlong : netHttpHostSize - 1 < (authority url).length := by
          unfold netHttpHostSize at *
          omega
        rw [if_neg hfits, List.length_take, Nat.min_eq_left (Nat.le_of_lt hlong),
          if_neg (head?_drop_long hlong)]

theorem remainder_head (url : List UInt8) : (remainder url).head? = some 47 := by
  unfold remainder
  split_ifs with h
  · rfl
  · exact head?_dropWhile url h

/-- A host and a path that fit are stored as they are. -/
theorem netSetHttpTarget_eq {host path : List UInt8} (hne : host ≠ [])
    (hpath : path.head? = some 47)
    (hhost : host.length < netHttpHostSize) (hlen : path.length < netHttpPathSize) :
    netSetHttpTarget host path = ⟨host, path⟩ := by
  have hpath' : path ≠ [] := fun h => by rw [h] at hpath; cases hpath
  unfold netSetHttpTarget
  simp only [List.take_of_length_le (Nat.le_sub_one_of_lt hhost), if_neg hne,
    if_neg hpath', hpath, ne_eq, not_true_eq_false, if_false,
      List.take_of_length_le (Nat.le_sub_one_of_lt hlen)]

/-- What is accepted names the target, and what does not fit or has a port is refused. -/
def Faithful (parsed : Option (List UInt8 × List UInt8)) (url : List UInt8) : Prop :=
  (∀ host path, parsed = some (host, path) → Names url host path) ∧
    (¬Fits url ∨ 58 ∈ authority url → parsed = none)

theorem parseAuthority_faithful_iff (url : List UInt8) :
    Faithful (parseAuthority url netHttpHostSize netHttpPathSize) url ↔ Refused url ∨ Fits url := by
  rw [parseAuthority_eq]
  by_cases href : Refused url
  · rw [if_pos href]
    exact iff_of_true ⟨nofun, fun _ => rfl⟩ (.inl href)
  rw [if_neg href, or_iff_right href]
  constructor
  · intro h
    by_contra hno
    have hnone := h.2 (.inl hno)
    split_ifs at hnone
  · intro hfits
    rw [if_pos hfits.1, List.take_of_length_le (Nat.le_sub_one_of_lt hfits.2)]
    unfold Refused at href
    rw [not_or] at href
    refine ⟨fun host path heq => ?_, fun hbad => ?_⟩
    · cases heq
      exact ⟨rfl, rfl, netSetHttpTarget_eq href.1 (remainder_head url) hfits.1 hfits.2⟩
    · refine absurd ⟨58, ?_, rfl⟩ href.2
      rw [List.take_of_length_le (Nat.le_sub_one_of_lt hfits.1)]
      exact hbad.resolve_left (not_not.2 hfits)

/-- The parser refuses the URL, or the URL is not empty and fits. -/
theorem parse_faithful_iff (url : List UInt8) :
    (Faithful (parseUrl (some url) netHttpHostSize netHttpPathSize) (skipHttp url) ↔ url ≠ [] ∧
        (hasHttps (skipHttp url) = true ∨ Refused (skipHttp url) ∨ Fits (skipHttp url))) ∧
      (Faithful (parseTlsUrl (some url) netHttpHostSize netHttpPathSize) (skipScheme url) ↔
        url ≠ [] ∧
        (Refused (skipScheme url) ∨ Fits (skipScheme url))) := by
  by_cases hempty : url = []
  · subst hempty
    refine ⟨iff_of_false (fun h => ?_) (by simp), iff_of_false (fun h => ?_) (by simp)⟩
    · have hhost := (h.1 (chars "example.com") [47] (by decide)).1
      revert hhost
      decide
    · have hhost := (h.1 (chars "example.com") [47] (by decide)).1
      revert hhost
      decide
  have hurl : orExample (some url) = url := by
    cases url with
    | nil => exact absurd rfl hempty
    | cons c url => rfl
  unfold parseUrl parseTlsUrl
  simp only [hurl, ne_eq, hempty, not_false_eq_true, true_and]
  refine ⟨?_, parseAuthority_faithful_iff _⟩
  cases hasHttps (skipHttp url) with
  | true => exact iff_of_true ⟨nofun, fun _ => rfl⟩ (.inl rfl)
  | false =>
    simp only [Bool.false_eq_true, if_false, false_or]
    exact parseAuthority_faithful_iff _

/-- The host of this URL has 48 bytes; its last byte and the path are lost. -/
theorem parse_longHost :
    ¬(Faithful (parseUrl (some (List.replicate 48 97 ++ [47, 98])) netHttpHostSize
      netHttpPathSize) (skipHttp (List.replicate 48 97 ++ [47, 98])) ∧
    Faithful (parseTlsUrl (some (List.replicate 48 97 ++ [47, 98])) netHttpHostSize netHttpPathSize)
      (skipScheme (List.replicate 48 97 ++ [47, 98]))) := by
  rintro ⟨h, -⟩
  have hhost := (h.1 (List.replicate 47 97) [47] (by decide)).1
  revert hhost
  decide

end MinervaOS.Net
