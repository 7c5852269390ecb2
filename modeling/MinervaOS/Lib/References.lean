import MinervaOS.Lib.Loop
import Mathlib.Data.List.TakeWhile

/-!
# Character references

A text in which `&`, a name of letters and digits, and `;` stand for a character, or for a blank
where the name is not known. `ReadsAs` says which visible characters a reader finds in a text, where
a `&` that begins no reference may be taken for a blank; `reading` takes every one for a blank. A
reader that looks for the next `;` behind every `&` passes over what `lost` reads, and over nothing
else (`reading_next`).
-/

namespace MinervaOS

/-- The letters and digits of ASCII. -/
def isAlnum (c : UInt8) : Bool := (48 ≤ c && c ≤ 57) || (65 ≤ c && c ≤ 90) || (97 ≤ c && c ≤ 122)

/-- The printable characters of ASCII without the blank. -/
def isVisible (c : UInt8) : Bool := 33 ≤ c && c ≤ 126

/-- What can be seen of some characters. -/
def seen (text : List UInt8) : List UInt8 := text.filter isVisible

/-- The letters and digits that a text begins with. -/
def refName (text : List UInt8) : List UInt8 := text.takeWhile isAlnum

/-- Whether a text goes on behind a `&` as a reference does. -/
def startsRef (text : List UInt8) : Bool :=
  (refName text).length != 0 && (text.drop (refName text).length).head? == some 59

/-- Up to the next `;`, and with it. -/
def throughSemicolon (text : List UInt8) : List UInt8 :=
  text.takeWhile (· != 59) ++ (text.dropWhile (· != 59)).take 1

/-- Behind the next `;`. -/
def behindSemicolon (text : List UInt8) : List UInt8 := (text.dropWhile (· != 59)).drop 1

section Names

variable (named : List UInt8 → Option UInt8)

/-- The visible characters of a text. -/
inductive ReadsAs : List UInt8 → List UInt8 → Prop
  | nil : ReadsAs [] []
  | reference {name text shown : List UInt8} (hname : name ≠ [])
      (halnum : ∀ c ∈ name, isAlnum c = true)
      (h : ReadsAs text shown) :
      ReadsAs (38 :: (name ++ 59 :: text)) (seen (named name).toList ++ shown)
  | blanked {text shown : List UInt8} (href : startsRef text = false) (h : ReadsAs text shown) :
      ReadsAs (38 :: text) shown
  | kept {text shown : List UInt8} (href : startsRef text = false) (h : ReadsAs text shown) :
      ReadsAs (38 :: text) (38 :: shown)
  | character {c : UInt8} {text shown : List UInt8} (hc : c ≠ 38) (h : ReadsAs text shown) :
      ReadsAs (c :: text) (seen [c] ++ shown)

/-- The visible characters, from inside a reference on or from outside, with blanks for the `&` that
begin none. -/
def reading : Bool → List UInt8 → List UInt8
  | _, [] => []
  | true, c :: text => reading (c != 59) text
  | false, c :: text =>
    if c = 38 then
      if startsRef text then seen (named (refName text)).toList ++ reading true text
      else reading false text
    else seen [c] ++ reading false text

/-- A character, and the text behind it, for a reader that looks for the next `;` behind every `&`.
-/
def nextChar : List UInt8 → UInt8 × List UInt8
  | [] => (32, [])
  | c :: text =>
    if c = 38 then ((if startsRef text then named (refName text) else none).getD 32,
      behindSemicolon text)
    else (c, text)

/-- What is visible of the text behind a `&` that begins no reference, up to where this reader goes
on. -/
def lost : List UInt8 → List UInt8
  | [] => []
  | c :: text =>
    if c = 38 ∧ startsRef text = false then reading named false (throughSemicolon text) else []

end Names

variable {named : List UInt8 → Option UInt8} {text xs ys : List UInt8}

/-! ## Names -/

theorem refName_append (xs ys : List UInt8) : refName (xs ++ 59 :: ys) = refName xs := by
  induction xs with
  | nil => rfl
  | cons c xs ih =>
    unfold refName at ih ⊢
    rw [List.cons_append, List.takeWhile_cons, List.takeWhile_cons]
    split
    · rw [ih]
    · rfl

theorem length_refName_le (xs : List UInt8) : (refName xs).length ≤ xs.length :=
  (List.takeWhile_sublist _).length_le

/-- What follows the next `;` has no part in a reference. -/
theorem startsRef_append (xs ys : List UInt8) :
    startsRef (xs ++ 59 :: ys) = startsRef (xs ++ [59]) := by
  unfold startsRef
  rw [refName_append, refName_append, List.drop_append_of_le_length (length_refName_le xs),
    List.drop_append_of_le_length (length_refName_le xs), List.head?_append, List.head?_append]
  rfl

theorem refName_of_alnum {name : List UInt8} (h : ∀ c ∈ name, isAlnum c = true) :
    refName name = name :=
  List.takeWhile_eq_self_iff.2 h

theorem startsRef_of_alnum {name : List UInt8} (hname : name ≠ [])
    (h : ∀ c ∈ name, isAlnum c = true) :
    startsRef (name ++ 59 :: text) = true := by
  unfold startsRef
  rw [refName_append, refName_of_alnum h, List.drop_left]
  simp [hname]

/-- The name of a reference, and what is behind it. -/
theorem exists_of_startsRef (h : startsRef text = true) :
    ∃ name rest, text = name ++ 59 :: rest ∧ name ≠ [] ∧ ∀ c ∈ name, isAlnum c = true := by
  unfold startsRef at h
  rw [Bool.and_eq_true, bne_iff_ne, beq_iff_eq] at h
  obtain ⟨hname, hsemi⟩ := h
  obtain ⟨rest, hrest⟩ := List.head?_eq_some_iff.1 hsemi
  refine ⟨refName text, rest, ?_, fun h => hname (congrArg List.length h),
    fun c hc => List.mem_takeWhile_imp hc⟩
  rw [← hrest]
  have hhead : text.take (refName text).length = refName text :=
    List.prefix_iff_eq_take.1 (List.takeWhile_prefix _) |>.symm
  exact (hhead ▸ List.take_append_drop (refName text).length text).symm

theorem semicolon_notMem {name : List UInt8} (h : ∀ c ∈ name, isAlnum c = true) : 59 ∉ name :=
  fun hmem => absurd (h 59 hmem) (by decide)

/-! ## The next semicolon -/

theorem through_append_behind (text : List UInt8) :
    throughSemicolon text ++ behindSemicolon text = text := by
  unfold throughSemicolon behindSemicolon
  rw [List.append_assoc, List.take_append_drop, List.takeWhile_append_dropWhile]

theorem takeWhile_semicolon (h : 59 ∉ xs) : xs.takeWhile (· != 59) = xs :=
  List.takeWhile_eq_self_iff.2 fun _ hc => bne_iff_ne.2 fun heq => h (heq ▸ hc)

theorem dropWhile_semicolon (h : 59 ∉ xs) : xs.dropWhile (· != 59) = [] :=
  List.dropWhile_eq_nil_iff.2 fun _ hc => bne_iff_ne.2 fun heq => h (heq ▸ hc)

theorem through_append (h : 59 ∉ xs) : throughSemicolon (xs ++ 59 :: ys) = xs ++ [59] := by
  unfold throughSemicolon
  rw [List.takeWhile_append, List.dropWhile_append, takeWhile_semicolon h, dropWhile_semicolon h]
  simp

theorem behind_append (h : 59 ∉ xs) : behindSemicolon (xs ++ 59 :: ys) = ys := by
  unfold behindSemicolon
  rw [List.dropWhile_append, dropWhile_semicolon h]
  simp

theorem through_of_notMem (h : 59 ∉ xs) : throughSemicolon xs = xs := by
  unfold throughSemicolon
  rw [takeWhile_semicolon h, dropWhile_semicolon h, List.take_nil, List.append_nil]

theorem behind_of_notMem (h : 59 ∉ xs) : behindSemicolon xs = [] := by
  unfold behindSemicolon
  rw [dropWhile_semicolon h, List.drop_nil]

/-- A text has a first `;`, or none. -/
theorem semicolon_cases (text : List UInt8) :
    (∃ xs ys, text = xs ++ 59 :: ys ∧ 59 ∉ xs) ∨ 59 ∉ text := by
  by_cases h : 59 ∈ text
  · obtain ⟨xs, ys, htext, hxs⟩ := List.eq_append_cons_of_mem h
    exact Or.inl ⟨xs, ys, htext, hxs⟩
  · exact Or.inr h

/-! ## Reading -/

theorem reading_char {c : UInt8} (hc : c ≠ 38) (text : List UInt8) :
    reading named false (c :: text) = seen [c] ++ reading named false text := if_neg hc

theorem reading_ref (h : startsRef text = true) :
    reading named false (38 :: text) = seen (named (refName text)).toList ++
      reading named true text := if_pos h

theorem reading_amp (h : startsRef text = false) :
    reading named false (38 :: text) = reading named false text :=
  if_neg (Bool.eq_false_iff.1 h)

theorem reading_in_reference (h : 59 ∉ xs) :
    reading named true (xs ++ 59 :: ys) = reading named false ys := by
  induction xs with
  | nil => rfl
  | cons c xs ih =>
    rw [List.mem_cons, not_or] at h
    have hc : (c != 59) = true := bne_iff_ne.2 (Ne.symm h.1)
    show reading named (c != 59) (xs ++ 59 :: ys) = reading named false ys
    rw [hc]
    exact ih h.2

/-- What is before a `;` is read as if nothing followed. -/
theorem reading_append (h : 59 ∉ xs) (b : Bool) :
    reading named b (xs ++ 59 :: ys) = reading named b (xs ++ [59]) ++ reading named false ys := by
  induction xs generalizing b with
  | nil => cases b <;> rfl
  | cons c xs ih =>
    rw [List.mem_cons, not_or] at h
    rw [List.cons_append, List.cons_append]
    cases b with
    | true => exact ih h.2 _
    | false =>
      by_cases hc : c = 38
      · subst hc
        have hstarts := startsRef_append xs ys
        by_cases href : startsRef (xs ++ [59]) = true
        · rw [reading_ref (hstarts.trans href), reading_ref href, refName_append,
            refName_append, ih h.2, List.append_assoc]
        · rw [Bool.not_eq_true] at href
          rw [reading_amp (hstarts.trans href), reading_amp href, ih h.2]
      · rw [reading_char hc, reading_char hc, ih h.2, List.append_assoc]

theorem reading_split (text : List UInt8) : reading named false text =
    reading named false (throughSemicolon text) ++ reading named false (behindSemicolon text) := by
  rcases semicolon_cases text with h | h
  · obtain ⟨xs, ys, rfl, hxs⟩ := h
    rw [through_append hxs, behind_append hxs]
    exact reading_append hxs false
  · rw [through_of_notMem h, behind_of_notMem h]
    exact (List.append_nil _).symm

/-- A reference ends at the next `;`. -/
theorem reading_reference (h : startsRef text = true) :
    reading named true text = reading named false (behindSemicolon text) := by
  obtain ⟨name, rest, rfl, -, halnum⟩ := exists_of_startsRef h
  rw [reading_in_reference (semicolon_notMem halnum), behind_append (semicolon_notMem halnum)]

theorem nextChar_amp (text : List UInt8) : nextChar named (38 :: text) =
    ((if startsRef text then named (refName text) else none).getD 32, behindSemicolon text) := rfl

theorem nextChar_char {c : UInt8} (hc : c ≠ 38) (text : List UInt8) :
    nextChar named (c :: text) = (c, text) :=
  if_neg hc

theorem lost_ref (h : startsRef text = true) : lost named (38 :: text) = [] :=
  if_neg fun hc => Bool.false_ne_true (hc.2.symm.trans h)

theorem lost_amp (h : startsRef text = false) :
    lost named (38 :: text) = reading named false (throughSemicolon text) := if_pos ⟨rfl, h⟩

theorem lost_char {c : UInt8} (hc : c ≠ 38) (text : List UInt8) : lost named (c :: text) = [] :=
  if_neg fun h => hc h.1

/-- What this reader shows of a character, what it passes over, and what it goes on with. -/
theorem reading_next (text : List UInt8) : reading named false text =
    seen [(nextChar named text).1] ++ lost named text ++
      reading named false (nextChar named text).2 := by
  cases text with
  | nil => rfl
  | cons c text =>
    by_cases hc : c = 38
    · subst hc
      rw [nextChar_amp]
      by_cases href : startsRef text = true
      · rw [if_pos href, lost_ref href, reading_ref href, reading_reference href, List.append_nil]
        cases named (refName text) <;> rfl
      · rw [if_neg href]
        rw [Bool.not_eq_true] at href
        rw [lost_amp href, reading_amp href]
        exact reading_split text
    · rw [nextChar_char hc, lost_char hc, List.append_nil]
      exact reading_char hc text

/-- A reader may take every `&` that begins no reference for a blank. -/
theorem reads_reading (text : List UInt8) : ReadsAs named text (reading named false text) := by
  induction hn : text.length using Nat.strong_induction_on generalizing text with
  | _ n ih =>
    cases text with
    | nil => exact ReadsAs.nil
    | cons c text =>
      rw [List.length_cons] at hn
      by_cases hc : c = 38
      · subst hc
        by_cases href : startsRef text = true
        · rw [reading_ref href, reading_reference href]
          obtain ⟨name, rest, rfl, hname, halnum⟩ := exists_of_startsRef href
          rw [refName_append, refName_of_alnum halnum, behind_append (semicolon_notMem halnum)]
          rw [List.length_append, List.length_cons] at hn
          exact ReadsAs.reference hname halnum (ih rest.length (by omega) rest rfl)
        · rw [Bool.not_eq_true] at href
          rw [reading_amp href]
          exact ReadsAs.blanked href (ih text.length (by omega) text rfl)
      · rw [reading_char hc]
        exact ReadsAs.character hc (ih text.length (by omega) text rfl)

/-- Whatever else a reader does, it shows no fewer characters. -/
theorem length_reading_le {shown : List UInt8} (h : ReadsAs named text shown) :
    (reading named false text).length ≤ shown.length := by
  induction h with
  | nil => exact Nat.le_refl _
  | @reference name text shown hname halnum h ih =>
    rw [reading_ref (startsRef_of_alnum hname halnum), refName_append, refName_of_alnum halnum,
      reading_in_reference (semicolon_notMem halnum), List.length_append, List.length_append]
    exact Nat.add_le_add_left ih _
  | blanked href h ih =>
    rw [reading_amp href]
    exact ih
  | kept href h ih =>
    rw [reading_amp href]
    exact Nat.le_succ_of_le ih
  | character hc h ih =>
    rw [reading_char hc, List.length_append, List.length_append]
    exact Nat.add_le_add_left ih _

theorem behind_suffix (text : List UInt8) : behindSemicolon text <:+ text :=
  ⟨throughSemicolon text, through_append_behind text⟩

theorem nextChar_suffix (text : List UInt8) : (nextChar named text).2 <:+ text := by
  cases text with
  | nil => exact List.suffix_refl _
  | cons c text =>
    by_cases hc : c = 38
    · subst hc
      exact (behind_suffix text).trans (List.suffix_cons 38 text)
    · rw [nextChar_char hc]
      exact List.suffix_cons c text

/-! ## Readers -/

/-- A pass that goes on behind the next character and shows it, where there is room for it; where
the pass cuts it, a visible character is not shown. -/
structure Follows {σ : Type} (named : List UInt8 → Option UInt8) (rest shown : σ → List UInt8)
    (full cut : σ → Prop)
    (s s' : σ) : Prop where
  next : rest s' = (nextChar named (rest s)).2
  room : ¬full s
  shows : ¬cut s → shown s' = shown s ++ seen [(nextChar named (rest s)).1] ∨ full s' ∧
    shown s' = shown s
  cuts : cut s → shown s' = shown s ∧ seen [(nextChar named (rest s)).1] ≠ []

section Readers

variable {σ α : Type} {pass : σ → Option (Pass σ α)} {rest shown : σ → List UInt8}
    {full cut : σ → Prop} {s₀ s t : σ}
  (h : ∀ s s', Reaches pass s₀ s → pass s = some (.inl s') → Follows named rest shown full cut s s')

include h

theorem rest_suffix (hs : Reaches pass s₀ s) : rest s <:+ rest s₀ := by
  induction hs with
  | refl => exact List.suffix_refl _
  | @tail s s' hs hpass ih =>
    rw [(h s s' hs hpass).next]
    exact (nextChar_suffix (rest s)).trans ih

/-- If nothing is lost and nothing that there is room for is cut, the text is shown until there is
no room. -/
theorem shown_of_fine (hfine : ∀ s s', Reaches pass s₀ s → pass s = some (.inl s') →
      lost named (rest s) = [] ∧ (cut s → full s')) (hs : Reaches pass s₀ s) :
    ∃ more, shown s ++ more = shown s₀ ++ reading named false (rest s₀) ∧
      (¬full s → more = reading named false (rest s)) := by
  induction hs with
  | refl => exact ⟨_, rfl, fun _ => rfl⟩
  | @tail s s' hs hpass ih =>
    obtain ⟨more, hmore, hrest⟩ := ih
    have hstep := h s s' hs hpass
    obtain ⟨hlost, hcut⟩ := hfine s s' hs hpass
    have hnext := (hrest hstep.room).trans (reading_next (rest s))
    rw [hlost, List.append_nil, ← hstep.next] at hnext
    by_cases hc : cut s
    · exact ⟨more, (hstep.cuts hc).1 ▸ hmore, fun hroom => absurd (hcut hc) hroom⟩
    · rcases hstep.shows hc with hshown | ⟨hfull, hshown⟩
      · refine ⟨reading named false (rest s'), ?_, fun _ => rfl⟩
        rw [hshown, List.append_assoc, ← hnext]
        exact hmore
      · exact ⟨more, hshown ▸ hmore, fun hroom => absurd hfull hroom⟩

/-- What a pass loses or cuts is missing from what is shown and what there is still to be read. -/
theorem weight_step {s' : σ} (hs : Reaches pass s₀ s) (hpass : pass s = some (.inl s')) :
    (shown s').length + (reading named false (rest s')).length + (lost named (rest s)).length ≤
        (shown s).length + (reading named false (rest s)).length ∧
      (cut s → (shown s').length + (reading named false (rest s')).length <
        (shown s).length + (reading named false (rest s)).length) := by
  have hstep := h s s' hs hpass
  have hnext : (reading named false (rest s)).length = _ :=
    congrArg List.length (reading_next (rest s))
  rw [← hstep.next, List.length_append, List.length_append] at hnext
  constructor
  · by_cases hc : cut s
    · rw [(hstep.cuts hc).1]
      omega
    · rcases hstep.shows hc with hshown | ⟨-, hshown⟩
      · rw [hshown, List.length_append]
        omega
      · rw [hshown]
        omega
  · intro hc
    obtain ⟨hshown, hne⟩ := hstep.cuts hc
    have hpos := List.length_pos_iff.2 hne
    rw [hshown]
    omega

theorem weight_le (hs : Reaches pass s₀ s) (ht : Reaches pass s t) :
    (shown t).length + (reading named false (rest t)).length ≤
      (shown s).length + (reading named false (rest s)).length := by
  induction ht with
  | refl => exact Nat.le_refl _
  | tail ht hpass ih =>
    have hstep := (weight_step h (hs.trans ht) hpass).1
    omega

/-- If as much is shown as there was to be read, nothing was lost and nothing was cut. -/
theorem fine_of_shown {a : α} (ht : Reaches pass s₀ t) (hend : pass t = some (.inr a))
    (hall : (shown s₀).length + (reading named false (rest s₀)).length ≤ (shown t).length) {s' : σ}
    (hs : Reaches pass s₀ s) (hpass : pass s = some (.inl s')) :
    lost named (rest s) = [] ∧ ¬cut s := by
  have hs' : Reaches pass s₀ s' := hs.tail hpass
  have hbefore := weight_le h Relation.ReflTransGen.refl hs
  have hafter := weight_le h hs' (hs'.to_end ht hend)
  obtain ⟨hstep, hcut⟩ := weight_step h hs hpass
  refine ⟨List.eq_nil_of_length_eq_zero (by omega), fun hc => ?_⟩
  have hlt := hcut hc
  omega

end Readers

end MinervaOS
