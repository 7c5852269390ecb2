import Mathlib.Data.List.TakeWhile
import MinervaOS.Fat32.Disk

/-!
# Short names

A C string is the list of its bytes before the terminator. A name that passes
`make_short_name_checked` has the same short name under `make_short_name`, which checks nothing, so
the calls that check a name and then look it up agree on what they look for.
-/

namespace MinervaOS.Fat32

def upperAscii (c : UInt8) : UInt8 := if 0x61 ≤ c ∧ c ≤ 0x7A then c - 0x20 else c

/-- `'.'`. -/
def dot : UInt8 := 0x2E

def space : UInt8 := 0x20

/-- `s` in upper case, padded with spaces to `n` bytes. -/
def padUpper (n : Nat) (s : List UInt8) : List UInt8 :=
  s.map upperAscii ++ List.replicate (n - s.length) space

/-- The C string at the start of some bytes. -/
def cString (s : List UInt8) : List UInt8 := s.takeWhile (· != 0)

def shortNameToString (name : List UInt8) : List UInt8 :=
  let ext := name.drop 8
  cString ((name.take 8).takeWhile (· != space) ++
    if ext.headD 0 != space then dot :: ext.takeWhile (· != space) else [])

def makeShortName (name : List UInt8) : List UInt8 :=
  let base := (name.takeWhile (· != dot)).take 8
  let rest := name.drop base.length
  let ext := (if rest.head? = some dot then rest.tail else rest).take 3
  padUpper 8 base ++ padUpper 3 ext

def validShortNameChar (c : UInt8) : Bool :=
  let c := upperAscii c
  (0x41 ≤ c && c ≤ 0x5A) || (0x30 ≤ c && c ≤ 0x39) || c == 0x5F || c == 0x2D || c == 0x7E

def makeShortNameChecked (name : List UInt8) : Option (List UInt8) :=
  let base := name.takeWhile (· != dot)
  if base.length > 8 || !base.all validShortNameChar || base.isEmpty then none
  else match name.dropWhile (· != dot) with
    | [] => some (padUpper 8 base ++ padUpper 3 [])
    | _ :: ext =>
      if ext.length > 3 || !ext.all (fun c => c != dot && validShortNameChar c) || ext.isEmpty
      then none
      else some (padUpper 8 base ++ padUpper 3 ext)

theorem length_padUpper {n : Nat} {s : List UInt8} (h : s.length ≤ n) :
    (padUpper n s).length = n := by
  simp only [padUpper, List.length_append, List.length_map, List.length_replicate]
  omega

theorem validShortNameChar_upper {c : UInt8} (h : validShortNameChar c = true) :
    upperAscii c ≠ 0x00 ∧ upperAscii c ≠ 0xE5 := by
  constructor <;> intro h0 <;> simp [validShortNameChar, h0] at h

/-- What a name that passes is made of: a base, and an extension behind a dot if there is a dot. -/
theorem makeShortNameChecked_some {name sn : List UInt8} (h : makeShortNameChecked name = some sn) :
    ∃ base ext, sn = padUpper 8 base ++ padUpper 3 ext ∧ base ≠ [] ∧ base.length ≤ 8 ∧
      ext.length ≤ 3 ∧ (∀ c ∈ base, validShortNameChar c = true) ∧
      (∀ c ∈ ext, validShortNameChar c = true) ∧ base = name.takeWhile (· != dot) ∧
      (name = base ∧ ext = [] ∨ name = base ++ dot :: ext ∧ ext ≠ []) := by
  unfold makeShortNameChecked at h
  simp only at h
  split at h
  · cases h
  · rename_i hbase
    simp only [Bool.or_eq_true, decide_eq_true_eq, Bool.not_eq_true', List.isEmpty_iff,
      not_or, Bool.not_eq_false, List.all_eq_true] at hbase
    obtain ⟨⟨hlen, hvalid⟩, hne⟩ := hbase
    have happ := List.takeWhile_append_dropWhile (p := (· != dot)) (l := name)
    split at h
    · rename_i hdrop
      rw [hdrop, List.append_nil] at happ
      obtain rfl : _ = sn := Option.some.inj h
      exact ⟨_, [], rfl, hne, by omega, by simp, hvalid, by simp, rfl, .inl ⟨happ.symm, rfl⟩⟩
    · rename_i c ext hdrop
      split at h
      · cases h
      · rename_i hext
        simp only [Bool.or_eq_true, decide_eq_true_eq, Bool.not_eq_true', List.isEmpty_iff, not_or,
          Bool.not_eq_false, List.all_eq_true, Bool.and_eq_true] at hext
        obtain ⟨⟨hlen', hvalid'⟩, hne'⟩ := hext
        have hc : c = dot := by
          have hne : name.dropWhile (· != dot) ≠ [] := by simp [hdrop]
          have := List.head_dropWhile_not (· != dot) hne
          simpa [hdrop] using this
        obtain rfl : _ = sn := Option.some.inj h
        rw [hdrop, hc] at happ
        exact ⟨_, ext, rfl, hne, by omega, by omega, hvalid, fun x hx => (hvalid' x hx).2, rfl,
          .inr ⟨happ.symm, hne'⟩⟩

theorem length_makeShortNameChecked {name sn : List UInt8}
    (h : makeShortNameChecked name = some sn) : sn.length = 11 := by
  obtain ⟨base, ext, rfl, -, hb, he, -⟩ := makeShortNameChecked_some h
  rw [List.length_append, length_padUpper hb, length_padUpper he]

/-- The two ways to make a short name agree on a name that passes the checks. -/
theorem makeShortName_of_checked {name sn : List UInt8} (h : makeShortNameChecked name = some sn) :
    makeShortName name = sn := by
  obtain ⟨base, ext, rfl, -, hb, he, -, -, hbase, hname⟩ := makeShortNameChecked_some h
  unfold makeShortName
  simp only [← hbase, List.take_of_length_le hb]
  rcases hname with ⟨hn, rfl⟩ | ⟨hn, -⟩
  · rw [hn]
    simp
  · rw [hn]
    simp [List.take_of_length_le he]

/-- The first byte of a checked name marks neither the end of the directory nor a free slot. -/
theorem first_makeShortNameChecked {name sn : List UInt8}
    (h : makeShortNameChecked name = some sn) : sn.getD 0 0 ≠ 0x00 ∧ sn.getD 0 0 ≠ 0xE5 := by
  obtain ⟨base, ext, rfl, hne, -, -, hvalid, -⟩ := makeShortNameChecked_some h
  cases base with
  | nil => exact absurd rfl hne
  | cons c base => simpa [padUpper] using validShortNameChar_upper (hvalid c List.mem_cons_self)

/-! ## Listed names -/

/-- Eleven bytes that are a base and an extension, each padded with spaces, and neither with a
space, a dot or a terminator inside. -/
def ShortName (sn : List UInt8) : Prop :=
  ∃ base ext, base.length ≤ 8 ∧ ext.length ≤ 3 ∧
    (∀ c ∈ base ++ ext, c ≠ space ∧ c ≠ dot ∧ c ≠ 0) ∧
    sn = (base ++ List.replicate (8 - base.length) space) ++
      (ext ++ List.replicate (3 - ext.length) space)

theorem takeWhile_padded {s : List UInt8} (h : ∀ c ∈ s, c ≠ space) (n : Nat) :
    (s ++ List.replicate n space).takeWhile (· != space) = s := by
  rw [List.takeWhile_append_of_pos fun c hc => by simpa using h c hc]
  cases n <;> simp [List.replicate_succ]

theorem shortNameToString_padded {base ext : List UInt8} (hb : base.length ≤ 8)
    (hc : ∀ c ∈ base ++ ext, c ≠ space ∧ c ≠ dot ∧ c ≠ 0) :
    shortNameToString ((base ++ List.replicate (8 - base.length) space) ++
      (ext ++ List.replicate (3 - ext.length) space)) =
        base ++ if ext = [] then [] else dot :: ext := by
  have hlen : (base ++ List.replicate (8 - base.length) space).length = 8 := by simp; omega
  have hbase : ∀ c ∈ base, c ≠ space := fun c h => (hc c (by simp [h])).1
  have hext : ∀ c ∈ ext, c ≠ space := fun c h => (hc c (by simp [h])).1
  have hzero : ∀ c ∈ base ++ (if ext = [] then [] else dot :: ext), (c != 0) = true := by
    intro c h
    rcases List.mem_append.1 h with h | h
    · simpa using (hc c (by simp [h])).2.2
    · split at h
      · simp at h
      · rcases List.mem_cons.1 h with rfl | h
        · decide
        · simpa using (hc c (by simp [h])).2.2
  unfold shortNameToString
  simp only [List.take_left' hlen, List.drop_left' hlen, takeWhile_padded hbase,
    takeWhile_padded hext]
  cases ext with
  | nil =>
    have h0 : cString base = base := List.takeWhile_eq_self_iff.2 (by simpa using hzero)
    simpa [List.replicate_succ] using h0
  | cons x ext =>
    have hx : x ≠ space := hext x List.mem_cons_self
    simp only [List.cons_append, List.headD_cons, bne_iff_ne, ne_eq, hx, not_false_eq_true, if_true,
      List.cons_ne_nil, if_false] at hzero ⊢
    exact List.takeWhile_eq_self_iff.2 fun c hc => by simpa using hzero c hc

/-- A listed name tells which short name it is of. -/
theorem ShortName.inj {sn sn' : List UInt8} (h : ShortName sn) (h' : ShortName sn')
    (heq : shortNameToString sn = shortNameToString sn') : sn = sn' := by
  obtain ⟨base, ext, hb, -, hc, rfl⟩ := h
  obtain ⟨base', ext', hb', -, hc', rfl⟩ := h'
  rw [shortNameToString_padded hb hc, shortNameToString_padded hb' hc'] at heq
  -- the base is what stands before the first dot
  have hsplit : ∀ {b e : List UInt8}, (∀ c ∈ b ++ e, c ≠ space ∧ c ≠ dot ∧ c ≠ 0) →
      (b ++ if e = [] then [] else dot :: e).takeWhile (· != dot) = b := by
    intro b e h
    rw [List.takeWhile_append_of_pos fun c hc => by simpa using (h c (by simp [hc])).2.1]
    split <;> simp
  have hbase : base = base' := by rw [← hsplit hc, heq, hsplit hc']
  subst hbase
  have hext : ext = ext' := by
    have := List.append_cancel_left heq
    by_cases he : ext = [] <;> by_cases he' : ext' = [] <;> simp_all
  rw [hext]

theorem upper_ne {c : UInt8} (h : validShortNameChar c = true) :
    upperAscii c ≠ space ∧ upperAscii c ≠ dot ∧ upperAscii c ≠ 0 := by
  refine ⟨fun h0 => ?_, fun h0 => ?_, fun h0 => ?_⟩ <;>
    simp [validShortNameChar, h0, space, dot] at h

theorem padUpper_eq (n : Nat) (s : List UInt8) : padUpper n s =
    s.map upperAscii ++ List.replicate (n - (s.map upperAscii).length) space := by
  rw [List.length_map]
  rfl

/-- A name that passes the checks makes a short name, listed as the name in upper case. -/
theorem shortName_of_checked {name sn : List UInt8} (h : makeShortNameChecked name = some sn) :
    ShortName sn ∧ shortNameToString sn = name.map upperAscii := by
  obtain ⟨base, ext, rfl, -, hb, he, hvalid, hvalid', hbase, hname⟩ := makeShortNameChecked_some h
  have hb' : (base.map upperAscii).length ≤ 8 := by rwa [List.length_map]
  have he' : (ext.map upperAscii).length ≤ 3 := by rwa [List.length_map]
  have hc : ∀ c ∈ base.map upperAscii ++ ext.map upperAscii, c ≠ space ∧ c ≠ dot ∧ c ≠ 0 := by
    intro c hc
    rw [← List.map_append] at hc
    obtain ⟨x, hx, rfl⟩ := List.mem_map.1 hc
    rcases List.mem_append.1 hx with hx | hx
    · exact upper_ne (hvalid x hx)
    · exact upper_ne (hvalid' x hx)
  rw [padUpper_eq, padUpper_eq, shortNameToString_padded hb' hc]
  refine ⟨⟨_, _, hb', he', hc, rfl⟩, ?_⟩
  rcases hname with ⟨rfl, rfl⟩ | ⟨rfl, hne⟩
  · simp
  · have hdot : upperAscii dot = dot := by decide
    simp [hne, hdot]

end MinervaOS.Fat32
