import MinervaOS.Browser.Rendering
import MinervaOS.Lib.References

/-!
# The text of the fallback

What `render_text_fallback` shows of a body without tags: a reader that goes on behind the next `;`
after every `&`, in cells from the first to the last.
-/

namespace MinervaOS.Browser.Page

open Net

/-! ## References -/

/-- What the references stand for that have a character of their own. -/
def namedChar (name : List UInt8) : Option UInt8 :=
  [(chars "amp", 38), (chars "lt", 60), (chars "gt", 62), (chars "quot", 34)].lookup
    (name.map lowerChar)

/-- The bytes of the response from an index on. -/
def NetInfo.textAt (info : NetInfo) (i : Nat) : List UInt8 := info.httpResponse.drop i

theorem lowerChar_upper {c : UInt8} (h : (65 ≤ c && c ≤ 90) = true) :
    (lowerChar c).toNat = c.toNat + 32 := by
  have h' := h
  rw [Bool.and_eq_true, decide_eq_true_eq, decide_eq_true_eq, UInt8.le_iff_toNat_le,
    UInt8.le_iff_toNat_le] at h'
  have h90 : c.toNat ≤ 90 := h'.2
  unfold lowerChar
  rw [if_pos h, UInt8.toNat_add]
  exact Nat.mod_eq_of_lt (by
    show c.toNat + 32 < 256
    omega)

theorem isAlnum_iff (c : UInt8) : isAlnum c = true ↔
    (48 ≤ c.toNat ∧ c.toNat ≤ 57) ∨ (65 ≤ c.toNat ∧ c.toNat ≤ 90) ∨
      (97 ≤ c.toNat ∧ c.toNat ≤ 122) := by
  unfold isAlnum
  simp [UInt8.le_iff_toNat_le, or_assoc]

theorem upper_iff (c : UInt8) : (65 ≤ c && c ≤ 90) = true ↔ 65 ≤ c.toNat ∧ c.toNat ≤ 90 := by
  simp [UInt8.le_iff_toNat_le]

theorem isAlnum_lowerChar (c : UInt8) : isAlnum (lowerChar c) = isAlnum c := by
  rw [Bool.eq_iff_iff, isAlnum_iff, isAlnum_iff]
  by_cases h : (65 ≤ c && c ≤ 90) = true
  · rw [lowerChar_upper h]
    rw [upper_iff] at h
    omega
  · unfold lowerChar
    rw [if_neg h]

theorem lowerChar_semicolon (c : UInt8) : lowerChar c = 59 ↔ c = 59 := by
  constructor
  · intro hc
    by_cases h : (65 ≤ c && c ≤ 90) = true
    · have hup := lowerChar_upper h
      rw [upper_iff] at h
      rw [hc] at hup
      have : (59 : UInt8).toNat = 59 := rfl
      omega
    · unfold lowerChar at hc
      rwa [if_neg h] at hc
  · rintro rfl
    rfl

/-- A word of letters and digits with a `;` is in front of a text if it is the name in front of it.
-/
theorem startsWith_name {word : List UInt8} (hword : ∀ c ∈ word, isAlnum c = true)
    (text : List UInt8) :
    browserStartsWith text (word ++ [59]) = true ↔
      (refName text).map lowerChar = word ∧ (text.drop (refName text).length).head? = some 59 := by
  induction word generalizing text with
  | nil =>
    cases text with
    | nil => simp [browserStartsWith, refName]
    | cons d text =>
      by_cases hd : isAlnum d = true
      · have hne : d ≠ 59 := fun h => absurd (h ▸ hd) (by decide)
        simp [browserStartsWith, refName, hd, lowerChar_semicolon, hne]
      · simp [browserStartsWith, refName, hd, lowerChar_semicolon]
  | cons c word ih =>
    have hc := hword c List.mem_cons_self
    cases text with
    | nil => simp [browserStartsWith, refName]
    | cons d text =>
      have ih' := ih (fun c' hc' => hword c' (List.mem_cons_of_mem _ hc')) text
      have hstep : browserStartsWith (d :: text) (c :: word ++ [59]) =
        (lowerChar d == c && browserStartsWith text (word ++ [59])) := rfl
      rw [hstep, Bool.and_eq_true, ih', beq_iff_eq]
      by_cases hd : isAlnum d = true
      · have hname : refName (d :: text) = d :: refName text := List.takeWhile_cons_of_pos hd
        rw [hname, List.map_cons, List.cons.injEq, List.length_cons, List.drop_succ_cons, and_assoc]
      · have hname : refName (d :: text) = [] := List.takeWhile_cons_of_neg hd
        rw [hname]
        constructor
        · intro h
          exact absurd (isAlnum_lowerChar d ▸ h.1 ▸ hc) hd
        · intro h
          cases h.1

/-- The word of a reference is in front of a text exactly if the reference is. -/
theorem startsWith_reference (word : List UInt8) (hne : word ≠ []) (hword : word.all isAlnum = true)
    (text : List UInt8) : browserStartsWith text (word ++ [59]) =
      (startsRef text && (refName text).map lowerChar == word) := by
  rw [Bool.eq_iff_iff, startsWith_name (List.all_eq_true.1 hword), Bool.and_eq_true, beq_iff_eq]
  unfold startsRef
  rw [Bool.and_eq_true, bne_iff_ne, beq_iff_eq]
  constructor
  · intro h
    refine ⟨⟨fun hlen => hne ?_, h.2⟩, h.1⟩
    rw [← h.1, List.eq_nil_of_length_eq_zero hlen]
    rfl
  · intro h
    exact ⟨h.2, h.1.2⟩

theorem entities_find (text : List UInt8) :
    (entities.find? (browserStartsWith text ·.1)).map (·.2) =
    if startsRef text then namedChar (refName text) else none := by
  have hamp : browserStartsWith text (chars "amp;") = _ :=
    startsWith_reference (chars "amp") (by decide)
    (by decide) text
  have hlt : browserStartsWith text (chars "lt;") = _ :=
    startsWith_reference (chars "lt") (by decide)
    (by decide) text
  have hgt : browserStartsWith text (chars "gt;") = _ :=
    startsWith_reference (chars "gt") (by decide)
    (by decide) text
  have hquot : browserStartsWith text (chars "quot;") = _ :=
    startsWith_reference (chars "quot") (by decide)
    (by decide) text
  unfold entities namedChar
  rw [List.find?_cons, List.find?_cons, List.find?_cons, List.find?_cons, List.find?_nil]
  dsimp only
  rw [hamp, hlt, hgt, hquot]
  rw [List.lookup_cons, List.lookup_cons, List.lookup_cons, List.lookup_cons, List.lookup_nil]
  cases startsRef text with
  | false => rfl
  | true =>
    rw [if_pos rfl, Bool.true_and, Bool.true_and, Bool.true_and, Bool.true_and]
    cases (refName text).map lowerChar == chars "amp" with
    | true => rfl
    | false =>
      cases (refName text).map lowerChar == chars "lt" with
      | true => rfl
      | false =>
        cases (refName text).map lowerChar == chars "gt" with
        | true => rfl
        | false => cases (refName text).map lowerChar == chars "quot" <;> rfl

section Data

variable {data : List UInt8} (hdata : data.length ≤ 8192)

include hdata

theorem matchWord_eq (word : List UInt8) (index : Nat) :
    matchWord data data.length index word = some (browserStartsWith (data.drop index) word) := by
  induction word generalizing index with
  | nil =>
    unfold matchWord browserStartsWith
    rfl
  | cons c word ih =>
    unfold matchWord
    by_cases h : index < data.length
    · rw [if_pos h, List.getElem?_eq_getElem h, List.drop_eq_getElem_cons h]
      show (if (lowerChar data[index] != c) = true then some false
        else matchWord data data.length (u16 (index + 1)) word) =
        some (lowerChar data[index] == c && browserStartsWith (data.drop (index + 1)) word)
      rw [u16_of_lt (by omega), ih]
      by_cases hc : lowerChar data[index] = c
      · simp [hc]
      · simp [hc]
    · rw [if_neg h, List.drop_eq_nil_of_le (Nat.not_lt.1 h)]
      rfl

theorem matchAny_eq {α : Type} (index : Nat) (words : List (List UInt8 × α)) :
    matchAny data index data.length words =
      some ((words.find? (browserStartsWith (data.drop index) ·.1)).map (·.2)) := by
  induction words with
  | nil => rfl
  | cons w words ih =>
    obtain ⟨word, a⟩ := w
    unfold matchAny
    rw [matchWord_eq hdata, List.find?_cons]
    dsimp only
    cases browserStartsWith (data.drop index) word with
    | true => rfl
    | false => exact ih

omit hdata in
/-- Behind what was scanned. -/
theorem drop_scanned {i j : Nat} (hi : i ≤ data.length)
    (h : Scanned data (· == 59) data.length i j) :
    (data.drop i).dropWhile (· != 59) = data.drop j := by
  have hle := h.le
  have hsplit : data.drop i = (data.drop i).take (j - i) ++ data.drop j := by
    have hdrop := List.take_append_drop (j - i) (data.drop i)
    rw [List.drop_drop, Nat.add_sub_of_le hle] at hdrop
    exact hdrop.symm
  have hpassed : ∀ c ∈ (data.drop i).take (j - i), (c != 59) = true := by
    intro c hc
    obtain ⟨k, hk, hget⟩ := List.mem_iff_getElem.1 hc
    rw [List.length_take, List.length_drop] at hk
    have hget' : data[i + k]? = some c := by
      rw [← hget, List.getElem_take, List.getElem_drop]
      exact List.getElem?_eq_getElem _
    exact bne_iff_ne.2 fun heq => by
      have hno := h.passed (i + k) c (Nat.le_add_right i k) (by omega) hget'
      rw [heq] at hno
      cases hno
  rw [hsplit, List.dropWhile_append_of_pos hpassed]
  by_cases hj : j < data.length
  · obtain ⟨c, hget, hc⟩ := h.ended hj
    rw [List.drop_eq_getElem_cons hj]
    rw [List.getElem?_eq_getElem hj, Option.some.injEq] at hget
    rw [hget, List.dropWhile_cons_of_neg (by simpa using hc)]
  · rw [List.drop_eq_nil_of_le (Nat.not_lt.1 hj), List.dropWhile_nil]

/-- Behind the next `;`, or at the end. -/
theorem scanSemicolon_yields {i : Nat} (hi : i ≤ data.length) :
    Yields (scanTo data (· == 59) data.length i) fun j =>
      data.drop (if j < data.length then u16 (j + 1) else j) = behindSemicolon (data.drop i) ∧
        i ≤ (if j < data.length then u16 (j + 1) else j) ∧
        (if j < data.length then u16 (j + 1) else j) ≤ data.length := by
  refine (scanTo_yields (Nat.le_refl _) hdata _ i).mono fun j hj => ?_
  have hmax : j ≤ data.length := Nat.le_trans hj.le_stop (Nat.max_le.2 ⟨hi, Nat.le_refl _⟩)
  have hle := hj.le
  unfold behindSemicolon
  rw [drop_scanned hi hj, List.drop_drop]
  by_cases hlt : j < data.length
  · rw [if_pos hlt, u16_of_lt (by omega)]
    exact ⟨rfl, by omega, hlt⟩
  · rw [if_neg hlt, List.drop_eq_nil_of_le (Nat.not_lt.1 hlt), List.drop_eq_nil_of_le (by omega)]
    exact ⟨rfl, hle, hmax⟩

theorem readEntity_next {i : Nat} (hi : i ≤ data.length) :
    Yields (readEntity data i data.length) fun r =>
    r.1 = (if startsRef (data.drop i) then namedChar (refName (data.drop i)) else none).getD 32 ∧
      data.drop r.2 = behindSemicolon (data.drop i) ∧ i ≤ r.2 ∧ r.2 ≤ data.length := by
  have hany : Yields (matchAny data i data.length entities) fun c =>
      c = if startsRef (data.drop i) then namedChar (refName (data.drop i)) else none :=
    ⟨_, matchAny_eq hdata i entities, entities_find _⟩
  refine Yields.bind hany fun c hc => Yields.bind (scanSemicolon_yields hdata hi) fun j hj => ?_
  exact Yields.pure ⟨congrArg (·.getD 32) hc, hj⟩

end Data

theorem readChar_next {info : NetInfo} (hinfo : info.len ≤ 8192) {i : Nat} (hi : i < info.len) :
    Yields (readChar info i) fun r => (r.1, info.textAt r.2) = nextChar namedChar (info.textAt i) ∧
      i < r.2 ∧ r.2 ≤ info.len := by
  have htext : info.textAt i = info.httpResponse[i] :: info.textAt (i + 1) :=
    List.drop_eq_getElem_cons hi
  refine Yields.bind (yields_getElem hi) fun c hc => ?_
  rw [htext, ← hc, u16_of_lt (by omega)]
  refine Yields.ite (fun heq => ?_) fun hne => ?_
  · rw [eq_of_beq heq, nextChar_amp]
    exact (readEntity_next hinfo hi).mono fun r hr => ⟨Prod.ext hr.1 hr.2.1, hr.2.2.1, hr.2.2.2⟩
  · rw [nextChar_char (by simpa using hne)]
    exact Yields.pure ⟨rfl, Nat.lt_succ_self i, hi⟩

/-! ## What is drawn -/

/-- The characters that are not blank. -/
def nonSpace (text : List UInt8) : List UInt8 := text.filter (!isSpace ·)

theorem glyphs_append (calls calls' : List Draw) :
    glyphs (calls ++ calls') = glyphs calls ++ glyphs calls' :=
  List.filterMap_append

theorem nonSpace_append (text text' : List UInt8) :
    nonSpace (text ++ text') = nonSpace text ++ nonSpace text' :=
  List.filter_append ..

theorem isVisible_iff (c : UInt8) : isVisible c = true ↔ 33 ≤ c.toNat ∧ c.toNat ≤ 126 := by
  unfold isVisible
  simp [UInt8.le_iff_toNat_le]

theorem isSpace_iff (c : UInt8) :
    isSpace c = true ↔ c.toNat = 32 ∨ c.toNat = 13 ∨ c.toNat = 10 ∨ c.toNat = 9 := by
  unfold isSpace
  simp [← UInt8.toNat_inj, or_assoc]

theorem unprintable_iff (c : UInt8) :
    (c < 32 || c > 126) = true ↔ c.toNat < 32 ∨ 126 < c.toNat := by
  simp [UInt8.lt_iff_toNat_lt]

theorem seen_eq_nil {c : UInt8} (h : ¬(33 ≤ c.toNat ∧ c.toNat ≤ 126)) : seen [c] = [] :=
  List.filter_cons_of_neg fun hc => h ((isVisible_iff c).1 hc)

theorem seen_space {c : UInt8} (h : isSpace c = true) : seen [c] = [] :=
  seen_eq_nil (by
    rw [isSpace_iff] at h
    omega)

/-- What cannot be printed is drawn as a blank. -/
theorem nonSpace_printed (c : UInt8) :
    nonSpace [if c < 32 || c > 126 then 32 else c] = seen [c] := by
  by_cases h : (c < 32 || c > 126) = true
  · rw [if_pos h]
    rw [unprintable_iff] at h
    exact (seen_eq_nil (by omega)).symm
  · rw [if_neg h]
    rw [unprintable_iff] at h
    have hiff : (!isSpace c) = isVisible c := by
      rw [Bool.eq_iff_iff, isVisible_iff, Bool.not_eq_true', ← Bool.not_eq_true, isSpace_iff]
      omega
    show List.filter (fun c => !isSpace c) [c] = List.filter isVisible [c]
    rw [List.filter_cons, List.filter_cons, hiff]
    rfl

namespace TextState

/-- The text is in cells of 8 pixels, in 8 rows of 26 cells of which the last is followed by no
other. -/
structure Placed (s : TextState) (row col : Nat) : Prop where
  x : s.x = 10 + 8 * col
  y : s.y = 34 + 10 * row
  cells : (glyphs s.calls).length = 26 * row + col
  col_le : col ≤ 26
  row_le : row ≤ 8
  last : row = 8 → col = 0

/-- The text that is still to be shown. -/
def rest (info : NetInfo) (s : TextState) : List UInt8 := info.textAt s.index

/-- The characters that were shown. -/
def shown (s : TextState) : List UInt8 := nonSpace (glyphs s.calls)

/-- What drawing a character comes to: it is in the next cell, or there is no cell left. -/
structure Drawn (s s' : TextState) (c : List UInt8) : Prop where
  index : s'.index = s.index
  placed : ∃ row col, s'.Placed row col
  le : s.y ≤ s'.y
  shown : s'.y < 112 ∧ s'.shown = s.shown ++ c ∨ 112 ≤ s'.y ∧ s'.shown = s.shown

variable {s : TextState}

theorem drawChar_drawn {row col : Nat} (h : s.Placed row col) (c : UInt8) :
    Drawn s (s.drawChar c).1 (seen [c]) := by
  have hx := h.x
  have hy := h.y
  have hcol := h.col_le
  have hrow := h.row_le
  have hlast := h.last
  have hcells := h.cells
  unfold drawChar
  by_cases hwrap : s.x > 216
  · dsimp only
    rw [if_pos hwrap]
    dsimp only
    by_cases hfull : s.y + 10 ≥ 112
    · rw [if_pos hfull]
      exact ⟨rfl, ⟨8, 0, rfl, by dsimp only; omega, by dsimp only; omega, by omega, by omega,
        fun _ => rfl⟩, Nat.le_add_right _ _, Or.inr ⟨hfull, rfl⟩⟩
    · rw [if_neg hfull]
      refine ⟨rfl,
        ⟨row + 1, 1, rfl, by dsimp only; omega, ?_, by omega, by omega, fun h => by omega⟩,
          Nat.le_add_right _ _, Or.inl ⟨Nat.not_le.1 hfull, ?_⟩⟩
      · rw [glyphs_append, List.length_append, hcells]
        show 26 * row + col + 1 = _
        omega
      · unfold shown
        rw [glyphs_append, nonSpace_append]
        exact congrArg (_ ++ ·) (nonSpace_printed c)
  · dsimp only
    rw [if_neg hwrap]
    by_cases hfull : s.y ≥ 112
    · rw [if_pos hfull]
      exact ⟨rfl, ⟨row, col, h⟩, Nat.le_refl _, Or.inr ⟨hfull, rfl⟩⟩
    · rw [if_neg hfull]
      refine ⟨rfl, ⟨row, col + 1, by dsimp only; omega, hy, ?_, by omega, hrow, fun h => by omega⟩,
        Nat.le_refl _, Or.inl ⟨Nat.not_le.1 hfull, ?_⟩⟩
      · rw [glyphs_append, List.length_append, hcells]
        rfl
      · unfold shown
        rw [glyphs_append, nonSpace_append]
        exact congrArg (_ ++ ·) (nonSpace_printed c)

theorem Placed.update {row col i v : Nat} {b : Bool} (h : s.Placed row col) :
    Placed { s with index := i, pendingSpace := b, visible := v } row col :=
  ⟨h.x, h.y, h.cells, h.col_le, h.row_le, h.last⟩

theorem Drawn.refl {row col : Nat} (h : s.Placed row col) : Drawn s s [] := by
  refine ⟨rfl, ⟨row, col, h⟩, Nat.le_refl _, ?_⟩
  rcases Nat.lt_or_ge s.y 112 with hy | hy
  · exact Or.inl ⟨hy, (List.append_nil _).symm⟩
  · exact Or.inr ⟨hy, rfl⟩

/-- A blank, and then something else. -/
theorem Drawn.trans {s₁ s₂ : TextState} {c : List UInt8} (h₁ : Drawn s s₁ []) (h₂ : Drawn s₁ s₂ c) :
    Drawn s s₂ c := by
  have hblank : s₁.shown = s.shown := by
    rcases h₁.shown with h | h
    · exact h.2.trans (List.append_nil _)
    · exact h.2
  refine ⟨h₂.index.trans h₁.index, h₂.placed, Nat.le_trans h₁.le h₂.le, ?_⟩
  rw [← hblank]
  exact h₂.shown

theorem letter_drawn {row col : Nat} (h : s.Placed row col) (c : UInt8) :
    Drawn s (s.letter c) (seen [c]) := by
  have hblank : Drawn s (if s.pendingSpace ∧ s.x > 10 then (s.drawChar 32).1 else s) [] := by
    split
    · exact drawChar_drawn h 32
    · exact Drawn.refl h
  unfold letter
  dsimp only
  revert hblank
  generalize (if s.pendingSpace ∧ s.x > 10 then (s.drawChar 32).1 else s) = s₁
  intro hblank
  obtain ⟨row₁, col₁, h₁⟩ := hblank.placed
  have hdraw := drawChar_drawn (h₁.update (i := s₁.index) (v := s₁.visible) (b := false)) c
  obtain ⟨row₂, col₂, h₂⟩ := hdraw.placed
  exact hblank.trans ⟨hdraw.index, ⟨row₂, col₂, h₂.update⟩, hdraw.le, hdraw.shown⟩

/-! ## The loop -/

variable {info : NetInfo}

/-- The text without tags, in its cells. -/
structure Text (info : NetInfo) (s : TextState) : Prop where
  index_le : s.index ≤ info.len
  placed : ∃ row col, s.Placed row col
  tags : 60 ∉ s.rest info

theorem start_text (hbody : info.httpBodyOffset ≤ info.len)
    (htags : 60 ∉ info.textAt info.httpBodyOffset) :
    Text info (start info) :=
  ⟨hbody, ⟨0, 0, rfl, rfl, rfl, Nat.zero_le _, Nat.zero_le _, fun _ => rfl⟩, htags⟩

/-- A pass shows the next character, or keeps a blank for later. -/
def after (s : TextState) (c : UInt8) (j : Nat) : TextState :=
  if isSpace c then { s with index := j, pendingSpace := true } else { s with index := j }.letter c

theorem pass_next (hinfo : info.len ≤ 8192) (hs : Text info s) (hlt : s.index < info.len)
    (hy : s.y < 112) :
    ∃ c j, (c, info.textAt j) = nextChar namedChar (s.rest info) ∧ s.index < j ∧ j ≤ info.len ∧
      pass info s = some (.inl (s.after c j)) := by
  have hne : info.httpResponse[s.index] ≠ 60 := fun heq =>
    hs.tags (List.mem_of_mem_head? (by
      unfold rest NetInfo.textAt
      rw [List.head?_drop, List.getElem?_eq_getElem hlt, heq]
      rfl))
  obtain ⟨r, hread, hnext, hj, hle⟩ := readChar_next hinfo hlt
  refine ⟨r.1, r.2, hnext, hj, hle, ?_⟩
  unfold pass after
  rw [if_pos ⟨hlt, hy⟩, List.getElem?_eq_getElem hlt, hread]
  show (if (info.httpResponse[s.index] == 60) = true then _ else _) = _
  rw [if_neg (by simpa using hne)]
  show (if isSpace r.1 = true then _ else _) = _
  split <;> rfl

theorem after_index (s : TextState) (c : UInt8) (j : Nat) : (s.after c j).index = j := by
  unfold after
  split
  · rfl
  · exact letter_index c

theorem after_drawn {row col : Nat} (h : s.Placed row col) (c : UInt8) (j : Nat) :
    Drawn { s with index := j } (s.after c j) (seen [c]) := by
  unfold after
  split
  next hspace =>
    rw [seen_space hspace]
    have hrefl := Drawn.refl (h.update (i := j) (v := s.visible) (b := s.pendingSpace))
    exact ⟨rfl, ⟨row, col, h.update⟩, hrefl.le, hrefl.shown⟩
  next => exact letter_drawn (h.update (i := j) (v := s.visible) (b := s.pendingSpace)) c

theorem after_text (hs : Text info s) {c : UInt8} {j : Nat} (hj : s.index < j)
    (hle : j ≤ info.len) :
    Text info (s.after c j) := by
  obtain ⟨row, col, h⟩ := hs.placed
  have hindex := after_index s c j
  refine ⟨(Nat.le_of_eq hindex).trans hle, (after_drawn h c j).placed, fun hmem => hs.tags ?_⟩
  have hsplit : (s.rest info).drop (j - s.index) = (s.after c j).rest info := by
    unfold rest NetInfo.textAt
    rw [List.drop_drop, hindex, Nat.add_sub_of_le (Nat.le_of_lt hj)]
  exact List.mem_of_mem_drop (hsplit ▸ hmem)

/-- What there is of the text, or of the cells, comes to an end. -/
theorem pass_stops (h : ¬(s.index < info.len ∧ s.y < 112)) : pass info s = some (.inr s) := if_neg h

theorem pass_text (hinfo : info.len ≤ 8192) (hs : Text info s) : Yields (pass info s)
    (Advances (Text info) (fun s => info.len - s.index) (fun _ => True) s) := by
  by_cases h : s.index < info.len ∧ s.y < 112
  · obtain ⟨c, j, -, hj, hle, hpass⟩ := pass_next hinfo hs h.1 h.2
    refine ⟨_, hpass, after_text hs hj hle, ?_⟩
    show info.len - (s.after c j).index < info.len - s.index
    rw [after_index]
    exact Nat.sub_lt_sub_left h.1 hj
  · exact ⟨_, pass_stops h, trivial⟩

theorem pass_follows (hinfo : info.len ≤ 8192) (hs : Text info s) {s' : TextState}
    (h : pass info s = some (.inl s')) :
    Follows namedChar (rest info) shown (fun s => 112 ≤ s.y) (fun _ => False) s s' := by
  by_cases hgo : s.index < info.len ∧ s.y < 112
  · obtain ⟨c, j, hnext, -, -, hpass⟩ := pass_next hinfo hs hgo.1 hgo.2
    obtain ⟨row, col, hplaced⟩ := hs.placed
    obtain rfl := Sum.inl.inj (Option.some.inj (hpass.symm.trans h))
    refine ⟨?_, Nat.not_le.2 hgo.2, fun _ => ?_, False.elim⟩
    · rw [← hnext]
      exact congrArg info.textAt (after_index s c j)
    · rw [← hnext]
      rcases (after_drawn hplaced c j).shown with hshown | hshown
      · exact Or.inl hshown.2
      · exact Or.inr hshown
  · rw [pass_stops hgo] at h
    cases h

/-- The loop ends behind the text, or behind the last cell. -/
theorem pass_end (hinfo : info.len ≤ 8192) (hs : Text info s) {t : TextState}
    (h : pass info s = some (.inr t)) :
    t = s ∧ (s.rest info = [] ∨ 112 ≤ s.y) := by
  by_cases hgo : s.index < info.len ∧ s.y < 112
  · obtain ⟨c, j, -, -, -, hpass⟩ := pass_next hinfo hs hgo.1 hgo.2
    rw [hpass] at h
    cases h
  · rw [pass_stops hgo] at h
    obtain rfl := Sum.inr.inj (Option.some.inj h)
    refine ⟨rfl, ?_⟩
    rcases Nat.lt_or_ge s.index info.len with hlt | hge
    · exact Or.inr (Nat.not_lt.1 fun hy => hgo ⟨hlt, hy⟩)
    · exact Or.inl (List.drop_eq_nil_of_le hge)

end TextState

/-- Where the loop of `render_text_fallback` ends. -/
theorem renderText_end {info : NetInfo} (hinfo : info.len ≤ 8192)
    (hbody : info.httpBodyOffset ≤ info.len)
    (htags : 60 ∉ info.textAt info.httpBodyOffset) :
    ∃ t, Reaches (TextState.pass info) (TextState.start info) t ∧
      TextState.pass info t = some (.inr t) ∧
      renderText info = some t ∧ TextState.Text info t ∧ (t.rest info = [] ∨ 112 ≤ t.y) := by
  have hstart := TextState.start_text hbody htags
  obtain ⟨t, a, ht, hend, hloop⟩ :=
      loop_reaches (n := loopSteps) (fun s hs => TextState.pass_text hinfo hs) hstart (by
    unfold loopSteps
    omega)
  have htext := ht.keeps (fun s hs => TextState.pass_text hinfo hs) hstart
  obtain ⟨rfl, hstop⟩ := TextState.pass_end hinfo htext hend
  exact ⟨a, ht, hend, hloop, htext, hstop⟩

end MinervaOS.Browser.Page
