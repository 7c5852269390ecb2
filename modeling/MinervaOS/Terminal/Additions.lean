import MinervaOS.Terminal.Registry

/-!
# Adding an app

An app that `tw_app_add` reports as added is found again, and the others still are, exactly when the
words fit their fields, the file still fits the buffer, and the line is read as a line of its own
or, behind an unfinished one, as if it were (`appAdd_iff`).
-/

namespace MinervaOS.Terminal

open Fat32 Prog

/-! ## The words -/

/-- A word and what is behind it. -/
def splitWord (cursor : List UInt8) : List UInt8 × List UInt8 :=
  ((cursor.dropWhile (· == space)).takeWhile (· != space),
    ((cursor.dropWhile (· == space)).dropWhile (· != space)).dropWhile (· == space))

/-- The words of an argument line, none of them cut. -/
def appArgs (args : List UInt8) : AppEntry :=
  let (name, args) := splitWord args
  let (launcher, args) := splitWord args
  let (target, summary) := splitWord args
  ⟨name, launcher, target, summary⟩

theorem twAppReadWord_eq {cursor : List UInt8} (h0 : 0 ∉ cursor) (outSize : Nat) :
    twAppReadWord cursor outSize =
      ((splitWord cursor).1.take (outSize - 1), (splitWord cursor).2) := by
  have hstop : ∀ c ∈ cursor.dropWhile (· == space), (!(c == 0 || c == space)) = (c != space) := by
    intro c hc
    have hc0 : c ≠ 0 := fun h => h0 (h ▸ (List.dropWhile_sublist _).subset hc)
    rw [beq_false_of_ne hc0]
    rfl
  unfold twAppReadWord
  rw [copyUntil_eq, List.length_nil, Nat.sub_zero, List.nil_append]
  have htake : ∀ l : List UInt8, (∀ c ∈ l, (!(c == 0 || c == space)) = (c != space)) →
      l.takeWhile (fun c => !(c == 0 || c == space)) = l.takeWhile (· != space) ∧
        l.dropWhile (fun c => !(c == 0 || c == space)) = l.dropWhile (· != space) := by
    intro l
    induction l with
    | nil => exact fun _ => ⟨rfl, rfl⟩
    | cons c l ih =>
      intro h
      obtain ⟨ht, hd⟩ := ih fun c hc => h c (List.mem_cons_of_mem _ hc)
      rw [List.takeWhile_cons, List.takeWhile_cons, List.dropWhile_cons, List.dropWhile_cons,
        h c List.mem_cons_self, ht, hd]
      exact ⟨rfl, rfl⟩
  obtain ⟨ht, hd⟩ := htake _ hstop
  rw [ht, hd]
  rfl

theorem splitWord_sublist (cursor : List UInt8) :
    (splitWord cursor).1.Sublist cursor ∧ (splitWord cursor).2.Sublist cursor :=
  ⟨(List.takeWhile_sublist _).trans (List.dropWhile_sublist _),
    (List.dropWhile_sublist _).trans ((List.dropWhile_sublist _).trans (List.dropWhile_sublist _))⟩

/-- A text of the registry's fields. -/
structure Field (x : List UInt8) : Prop where
  ne_nil : x ≠ []
  no_bar : bar ∉ x
  no_return : carriageReturn ∉ x
  no_newline : newline ∉ x
  no_zero : 0 ∉ x

theorem field_of_ok {x : List UInt8} (h : twAppFieldOk x = true) (h0 : 0 ∉ x) : Field x := by
  unfold twAppFieldOk at h
  simp only [Bool.and_eq_true, Bool.not_eq_true', List.isEmpty_eq_false_iff, List.all_eq_true,
    Bool.or_eq_false_iff, beq_eq_false_iff_ne] at h
  obtain ⟨hne, hall⟩ := h
  exact ⟨hne, fun hx => (hall _ hx).1.1 rfl, fun hx => (hall _ hx).1.2 rfl,
    fun hx => (hall _ hx).2 rfl, h0⟩

/-! ## The line -/

theorem twPkgAppend_eq (cap : Nat) (text buffer : List UInt8) (h : buffer.length ≤ cap - 1) :
    twPkgAppend cap buffer text = (buffer ++ text).take (cap - 1) := by
  induction text generalizing buffer with
  | nil => rw [List.append_nil, List.take_of_length_le h, twPkgAppend]
  | cons c text ih =>
    unfold twPkgAppend
    by_cases hfit : buffer.length + 1 < cap
    · rw [if_pos hfit, ih _ (by rw [List.length_append, List.length_singleton]; omega),
        List.append_assoc, List.singleton_append]
    · rw [if_neg hfit, List.take_append_of_le_length (by omega), List.take_of_length_le h]

theorem foldl_twPkgAppend (cap : Nat) (texts : List (List UInt8)) (x : List UInt8) :
    texts.foldl (twPkgAppend cap) (x.take (cap - 1)) = (x ++ texts.flatten).take (cap - 1) := by
  induction texts generalizing x with
  | nil => simp
  | cons text texts ih =>
    rw [List.foldl_cons, twPkgAppend_eq cap text _ (List.length_take_le _ _), List.flatten_cons,
      ← List.append_assoc, ← ih]
    congr 1
    rw [List.take_append, List.take_append, List.length_take, List.take_take, Nat.min_self]
    congr 2
    omega

theorem appLine_eq (name launcher target summary : List UInt8) :
    appLine name launcher target summary =
      (name ++ bar :: (launcher ++ bar :: (target ++ bar :: (summary ++ [newline])))).take 159 := by
  have h := foldl_twPkgAppend 160
    [name, [bar], launcher, [bar], target, [bar], summary, [newline]] []
  rw [List.take_nil] at h
  rw [appLine, h]
  simp

/-- The line of a record, without its newline. -/
def record (e : AppEntry) : List UInt8 :=
  e.name ++ bar :: (e.launcher ++ bar :: (e.target ++ bar :: e.summary))

/-- The words as they are stored: the summary is as long as the line has room for. -/
structure Stored (e : AppEntry) : Prop where
  name : Field e.name
  launcher : Field e.launcher
  target : Field e.target
  summary : Field e.summary
  name_le : e.name.length ≤ 8
  launcher_le : e.launcher.length ≤ 11
  target_le : e.target.length ≤ 63

theorem Field.take {x : List UInt8} (h : Field x) {n : Nat} (hn : 0 < n) : Field (x.take n) :=
  ⟨fun hnil => h.ne_nil ((take_eq_nil_iff_of_pos hn).1 hnil),
    fun hx => h.no_bar (List.mem_of_mem_take hx), fun hx => h.no_return (List.mem_of_mem_take hx),
      fun hx => h.no_newline (List.mem_of_mem_take hx),
    fun hx => h.no_zero (List.mem_of_mem_take hx)⟩

theorem take_sep (x y : List UInt8) (k : Nat) :
    (x ++ bar :: y).take (x.length + (1 + k)) = x ++ bar :: y.take k := by
  rw [List.take_length_add_append, Nat.add_comm 1 k, List.take_succ_cons]

/-- The line is a record with a summary that agrees where the reader looks, ended or cut. -/
theorem appLine_record {e : AppEntry} (h : Stored e) : ∃ summary, Field summary ∧
    summary.take 39 = e.summary.take 39 ∧
    (appLine e.name e.launcher e.target e.summary = record { e with summary := summary } ∨
      appLine e.name e.launcher e.target e.summary =
        record { e with summary := summary } ++ [newline]) := by
  have h1 := h.name_le
  have h2 := h.launcher_le
  have h3 := h.target_le
  obtain ⟨k, hk, hlen⟩ : ∃ k, 74 ≤ k ∧
      159 = e.name.length + (1 + (e.launcher.length + (1 + (e.target.length + (1 + k))))) :=
    ⟨159 - (e.name.length + e.launcher.length + e.target.length + 3), by omega, by omega⟩
  have hline : appLine e.name e.launcher e.target e.summary =
      record { e with summary := (e.summary ++ [newline]).take k } := by
    rw [appLine_eq, hlen, take_sep, take_sep, take_sep]
    rfl
  refine ⟨e.summary.take k, h.summary.take (by omega), ?_, ?_⟩
  · rw [List.take_take, Nat.min_eq_left (by omega)]
  rw [hline]
  by_cases hroom : e.summary.length < k
  · refine .inr ?_
    rw [List.take_of_length_le (by rw [List.length_append, List.length_singleton]; omega),
      List.take_of_length_le (Nat.le_of_lt hroom)]
    simp [record]
  · refine .inl ?_
    rw [List.take_append_of_le_length (Nat.not_lt.1 hroom)]

/-! ## Where the record lands -/

/-- Up to the terminator. -/
def cstr (x : List UInt8) : List UInt8 := x.takeWhile (· != 0)

theorem cstr_eq_self {x : List UInt8} (h : 0 ∉ x) : cstr x = x :=
  List.takeWhile_eq_self_iff.2 fun _ hc => bne_iff_ne.2 fun h0 => h (h0 ▸ hc)

/-- A bar early in a text is there however the text is cut. -/
theorem bar_mem_cstr {x y : List UInt8} (h0 : 0 ∉ x) (hlen : x.length < 39) :
    bar ∈ cstr ((x ++ bar :: y).take 39) := by
  obtain ⟨k, hk⟩ : ∃ k, 39 = x.length + (1 + k) := ⟨38 - x.length, by omega⟩
  have hx : ∀ c ∈ x, (c != 0) = true := fun c hc => bne_iff_ne.2 fun h => h0 (h ▸ hc)
  rw [hk, take_sep, cstr, List.takeWhile_append_of_pos hx, List.takeWhile_cons_of_pos (by decide)]
  exact List.mem_append_right _ List.mem_cons_self

theorem twStreqCi_length : ∀ {x y : List UInt8}, twStreqCi x y = true → 0 ∉ y → y.length ≤ x.length
  | _, [], _, _ => Nat.zero_le _
  | [], b :: y, h, h0 => by
    rw [List.mem_cons, not_or] at h0
    unfold twStreqCi at h
    have : b = 0 := by simpa using h
    exact absurd this.symm h0.1
  | a :: x, b :: y, h, h0 => by
    rw [List.mem_cons, not_or] at h0
    unfold twStreqCi at h
    have hb : (b != 0) = true := bne_iff_ne.2 (Ne.symm h0.1)
    have hb' : (b == 0) = false := beq_false_of_ne (Ne.symm h0.1)
    rw [hb, hb', Bool.and_true, Bool.and_false] at h
    split_ifs at h with ha hlow
    exact Nat.succ_le_succ (twStreqCi_length h h0.2)

theorem twStreqCi_self : ∀ x : List UInt8, twStreqCi x x = true
  | [] => rfl
  | a :: x => by
    unfold twStreqCi
    by_cases ha : a = 0
    · simp [ha]
    · simp [ha, twStreqCi_self x]

section Landing

variable {e : AppEntry} (h : Stored e) (u : List UInt8)

include h

omit h in
theorem chopLine_append (p : List UInt8) {q : List UInt8} (hq : q ≠ []) :
    chopLine (p ++ q) = p ++ chopLine q := by
  unfold chopLine
  rw [List.getLast?_append_of_ne_nil _ hq, List.dropLast_append_of_ne_nil hq]
  split_ifs <;> rfl

omit h in
theorem chopLine_self {q : List UInt8} (hq : carriageReturn ∉ q) : chopLine q = q := by
  refine if_neg fun hlast => hq ?_
  exact List.mem_of_getLast? (by simpa using hlast)

theorem chopLine_record : chopLine (u ++ record e) = u ++ record e := by
  have hsplit :
    u ++ record e = (u ++ e.name ++ bar :: (e.launcher ++ bar :: (e.target ++ [bar]))) ++
      e.summary := by simp [record]
  rw [hsplit, chopLine_append _ h.summary.ne_nil, chopLine_self h.summary.no_return]

/-- Behind text without a bar the record has all its fields but for the name. -/
theorem parse_record_of_no_bar (hu : bar ∉ u) : twParseAppLine (u ++ record e) =
    if (u ++ e.name).head? = some hash then none
    else some ⟨(u ++ e.name).take 8, e.launcher, e.target, e.summary.take 39⟩ := by
  have hhead : (u ++ record e).head? = (u ++ e.name).head? := by
    unfold record
    rw [← List.append_assoc, List.head?_append]
    cases hn : (u ++ e.name).head? with
    | none => simp [h.name.ne_nil] at hn
    | some => rfl
  split_ifs with hhash
  · rw [Option.eq_none_iff_forall_not_mem]
    intro e' he'
    exact (twParseAppLine_eq_some.1 he').1 (hhead.trans hhash)
  · refine twParseAppLine_eq_some.2 ⟨fun hc => hhash (hhead.symm.trans hc), u ++ e.name, e.launcher,
      e.target, e.summary, ?_, ?_, h.launcher.no_bar, h.target.no_bar, ?_, h.launcher.ne_nil,
      h.target.ne_nil, h.summary.ne_nil, ?_⟩
    · rw [chopLine_record h, record, List.append_assoc]
    · rw [List.mem_append, not_or]
      exact ⟨hu, h.name.no_bar⟩
    · simp [h.name.ne_nil]
    · rw [List.take_of_length_le h.launcher_le, List.take_of_length_le h.target_le]

omit h in
theorem chopLine_eq_nil {q : List UInt8} (hq : chopLine q = []) :
    q = [] ∨ q = [carriageReturn] := by
  unfold chopLine at hq
  split_ifs at hq with hlast
  · refine .inr ?_
    obtain ⟨x, c, rfl⟩ :=
      List.eq_nil_or_concat q |>.resolve_left fun hnil => by simp [hnil] at hlast
    simp only [List.concat_eq_append, List.dropLast_concat, List.getLast?_concat, beq_iff_eq,
      Option.some.injEq] at hq hlast
    rw [hq, hlast]
    rfl
  · exact .inl hq

/-- Behind text with a bar the summary is not the record's, unless that text is an entry already. -/
theorem parse_record_of_bar (hu : bar ∈ u) {found : AppEntry}
    (hfound : twParseAppLine (u ++ record e) = some found) (htarget : cstr found.target = e.target)
    (hsummary : bar ∉ cstr found.summary) :
    ∃ e', twParseAppLine u = some e' ∧ e'.name = found.name := by
  obtain ⟨hhash, a, b, c, σ, hline, ha, hb, hc, hane, hbne, hcne, hσ, rfl⟩ :=
    twParseAppLine_eq_some.1 hfound
  rw [chopLine_record h] at hline
  simp only at htarget hsummary ⊢
  -- a bar of the line is the first one behind what has none
  obtain ⟨a', u₁, rfl, ha'⟩ := List.eq_append_cons_of_mem hu
  rw [List.append_assoc, List.cons_append] at hline
  obtain ⟨rfl, hline₁⟩ := first_sep_unique ha' ha hline
  by_cases hu₁ : bar ∈ u₁
  swap
  · -- the record's target is read as the summary, and its launcher as the target
    rw [record, ← List.append_assoc] at hline₁
    have hname : bar ∉ u₁ ++ e.name := fun hx =>
      (List.mem_append.1 hx).elim hu₁ h.name.no_bar
    obtain ⟨-, hline₂⟩ := first_sep_unique hname hb hline₁
    obtain ⟨rfl, rfl⟩ := first_sep_unique h.launcher.no_bar hc hline₂
    have hshort := h.launcher_le
    rw [List.take_of_length_le (by omega), cstr_eq_self h.launcher.no_zero] at htarget
    rw [htarget] at hshort
    exact absurd (bar_mem_cstr h.target.no_zero (by omega)) hsummary
  obtain ⟨b', u₂, rfl, hb'⟩ := List.eq_append_cons_of_mem hu₁
  rw [List.append_assoc, List.cons_append] at hline₁
  obtain ⟨rfl, hline₂⟩ := first_sep_unique hb' hb hline₁
  by_cases hu₂ : bar ∈ u₂
  swap
  · -- the record's launcher is read as the summary
    rw [record, ← List.append_assoc] at hline₂
    have hname : bar ∉ u₂ ++ e.name := fun hx =>
      (List.mem_append.1 hx).elim hu₂ h.name.no_bar
    obtain ⟨-, rfl⟩ := first_sep_unique hname hc hline₂
    have hshort := h.launcher_le
    exact absurd (bar_mem_cstr h.launcher.no_zero (by omega)) hsummary
  obtain ⟨c', u₃, rfl, hc'⟩ := List.eq_append_cons_of_mem hu₂
  rw [List.append_assoc, List.cons_append] at hline₂
  obtain ⟨rfl, rfl⟩ := first_sep_unique hc' hc hline₂
  have hsplit : a' ++ bar :: (b' ++ bar :: (c' ++ bar :: u₃)) =
      (a' ++ bar :: (b' ++ bar :: (c' ++ [bar]))) ++ u₃ := by simp
  by_cases hu₃ : chopLine u₃ = []
  · -- the record's name is read as the summary
    refine absurd ?_ hsummary
    have hshort := h.name_le
    rw [record, ← List.append_assoc]
    refine bar_mem_cstr (fun hx => ?_) ?_
    · rcases List.mem_append.1 hx with hx | hx
      · rcases chopLine_eq_nil hu₃ with rfl | rfl
        · simp at hx
        · simp [carriageReturn] at hx
      · exact h.name.no_zero hx
    · rw [List.length_append]
      rcases chopLine_eq_nil hu₃ with rfl | rfl
      · simp only [List.length_nil]
        omega
      · simp only [List.length_singleton]
        omega
  · have hne : u₃ ≠ [] := by
      rintro rfl
      exact hu₃ rfl
    refine ⟨⟨a'.take 8, b'.take 11, c'.take 63, (chopLine u₃).take 39⟩,
      twParseAppLine_eq_some.2 ⟨?_, a', b', c', chopLine u₃, ?_, ha, hb, hc, hane, hbne,
        hcne, hu₃, rfl⟩,
      rfl⟩
    · intro hhead
      refine hhash ?_
      rw [List.head?_append, hhead]
      rfl
    · rw [hsplit, chopLine_append _ hne]
      simp

end Landing

/-! ## Lookups before and after -/

theorem parse_fits {line : List UInt8} {e : AppEntry} (h : twParseAppLine line = some e) :
    e.name.length ≤ 8 ∧ e.launcher.length ≤ 11 ∧ e.target.length ≤ 63 := by
  obtain ⟨-, a, b, c, s, -, -, -, -, -, -, -, -, rfl⟩ := twParseAppLine_eq_some.1 h
  exact ⟨List.length_take_le _ _, List.length_take_le _ _, List.length_take_le _ _⟩

theorem namedEntry_eq_some {name line : List UInt8} {e : AppEntry} :
    namedEntry name line = some e ↔
      twParseAppLine line = some e ∧ twStreqCi e.name name = true := by
  unfold namedEntry
  rw [Option.filter_eq_some_iff]

/-- The lines that are ended, then the one that is not. -/
theorem lookupApp_eq {bytes name : List UInt8} (hroom : bytes.length ≤ 511)
    (hname : name.headD 0 ≠ 0) :
    lookupApp bytes name = ((splitLines newline bytes).1.findSome? (namedEntry name)).or
      (if unfinished newline bytes = [] then none
        else namedEntry name (unfinished newline bytes)) := by
  rw [lookupApp, if_neg (not_or.2 ⟨hname, Nat.not_lt.2 hroom⟩), linesOf, List.findSome?_append]
  split_ifs
  · rfl
  · rw [List.findSome?_singleton]

/-- The line that is appended is the rest of the unfinished one. -/
theorem linesOf_appLine {e : AppEntry} (h : Stored e) (bytes : List UInt8) :
    ∃ summary, Field summary ∧
    summary.take 39 = e.summary.take 39 ∧
    linesOf newline (bytes ++ appLine e.name e.launcher e.target e.summary) =
      (splitLines newline bytes).1 ++
        [unfinished newline bytes ++ record { e with summary := summary }] := by
  obtain ⟨summary, hfield, htake, hline⟩ := appLine_record h
  refine ⟨summary, hfield, htake, ?_⟩
  have hno : newline ∉ unfinished newline bytes ++ record { e with summary := summary } := by
    have : newline ∉ unfinished newline bytes := not_mem_unfinished bytes
    have := h.name.no_newline
    have := h.launcher.no_newline
    have := h.target.no_newline
    have := hfield.no_newline
    have : newline ≠ bar := by decide
    simp_all [record]
  have hne : unfinished newline bytes ++
    record { e with summary := summary } ≠ [] := by simp [record]
  rw [linesOf_append]
  rcases hline with hline | hline
  · rw [hline, linesOf_line hno hne]
  · rw [hline, ← List.append_assoc, linesOf_cons hno []]
    rfl

/-- The words as `tw_app_add` cuts them. -/
def cutArgs (e : AppEntry) : AppEntry :=
  ⟨e.name.take 8, e.launcher.take 11, e.target.take 63, e.summary⟩

/-- The words fit their fields and the file its buffer, and the line that the words are on is read
as theirs: nothing before them but text without a bar, which does not make the line a comment and
leaves the name what it is. -/
structure AddsLine (bytes : List UInt8) (e : AppEntry) : Prop where
  name_fits : e.name.length ≤ 8
  launcher_fits : e.launcher.length ≤ 11
  target_fits : e.target.length ≤ 63
  file_fits : bytes.length + (appLine e.name e.launcher e.target e.summary).length ≤ 511
  no_bar : bar ∉ unfinished newline bytes
  no_comment : (unfinished newline bytes ++ e.name).head? ≠ some hash
  same_name : twStreqCi ((unfinished newline bytes ++ e.name).take 8) e.name = true

/-- What a lookup finds of the words. -/
def Shows (found e : AppEntry) : Prop :=
  cstr found.launcher = e.launcher ∧ cstr found.target = e.target ∧
    cstr found.summary = e.summary.take 39

section Lookups

variable {bytes : List UInt8} {e : AppEntry} (h : Stored (cutArgs e)) (h0 : 0 ∉ e.name)
  (hroom : bytes.length ≤ 511) (hnew : lookupApp bytes (cutArgs e).name = none)

theorem cutArgs_eq_self (hn : e.name.length ≤ 8) (hl : e.launcher.length ≤ 11)
    (ht : e.target.length ≤ 63) : cutArgs e = e := by
  unfold cutArgs
  rw [List.take_of_length_le hn, List.take_of_length_le hl, List.take_of_length_le ht]

include h

theorem headD_ne_zero : (cutArgs e).name.headD 0 ≠ 0 := by
  have hne := h.name.ne_nil
  have hzero := h.name.no_zero
  cases hn : (cutArgs e).name with
  | nil => exact absurd hn hne
  | cons c x =>
    rw [hn, List.mem_cons, not_or] at hzero
    exact Ne.symm hzero.1

include h0 hroom hnew

/-- Found afterwards, the words are on a line that is read as theirs. -/
theorem addsLine_of_found {found : AppEntry}
    (hfound : lookupApp (bytes ++ appLine (cutArgs e).name (cutArgs e).launcher (cutArgs e).target
      (cutArgs e).summary) e.name = some found) (hshows : Shows found e) : AddsLine bytes e := by
  obtain ⟨summary, hsum, htake, hlines⟩ := linesOf_appLine h bytes
  obtain ⟨hl, ht, hs⟩ := hshows
  have hafter := hfound
  unfold lookupApp at hafter
  split_ifs at hafter with hbad
  rw [not_or, Nat.not_lt] at hbad
  obtain ⟨hhead, hfits⟩ := hbad
  rw [hlines] at hafter
  -- the entry found is cut to its fields, so the words are not longer than those
  obtain ⟨line, -, hline⟩ := List.exists_of_findSome?_eq_some hafter
  rw [namedEntry_eq_some] at hline
  obtain ⟨hfn, hfl, hft⟩ := parse_fits hline.1
  have hcstr : ∀ x : List UInt8, (cstr x).length ≤ x.length := fun x =>
    (List.takeWhile_sublist _).length_le
  have hname : e.name.length ≤ 8 := Nat.le_trans (twStreqCi_length hline.2 h0) hfn
  have hlauncher : e.launcher.length ≤ 11 := hl ▸ Nat.le_trans (hcstr _) hfl
  have htarget : e.target.length ≤ 63 := ht ▸ Nat.le_trans (hcstr _) hft
  rw [cutArgs_eq_self hname hlauncher htarget] at h hnew hafter hlines hfits
  rw [lookupApp_eq hroom hhead, Option.or_eq_none_iff] at hnew
  obtain ⟨hended, hrest⟩ := hnew
  rw [List.findSome?_append, hended, Option.none_or, List.findSome?_singleton,
    namedEntry_eq_some] at hafter
  obtain ⟨hparse, hci⟩ := hafter
  have hstored : Stored { e with summary := summary } :=
    ⟨h.name, h.launcher, h.target, hsum, h.name_le, h.launcher_le, h.target_le⟩
  have hbar : bar ∉ unfinished newline bytes := by
    intro hbar
    have hno : bar ∉ cstr found.summary := by
      rw [hs]
      exact fun hx => h.summary.no_bar (List.mem_of_mem_take hx)
    obtain ⟨e', he', hsame⟩ := parse_record_of_bar hstored _ hbar hparse ht hno
    have hne : unfinished newline bytes ≠ [] := by
      rintro hnil
      rw [hnil] at hbar
      cases hbar
    rw [if_neg hne] at hrest
    cases hrest.symm.trans (namedEntry_eq_some.2 ⟨he', hsame ▸ hci⟩)
  rw [parse_record_of_no_bar hstored _ hbar] at hparse
  split_ifs at hparse with hhash
  obtain rfl := Option.some.inj hparse
  refine ⟨hname, hlauncher, htarget, ?_, hbar, hhash, hci⟩
  rwa [List.length_append] at hfits

omit h0 in
/-- And if they are, then they are found, and so is what was found before. -/
theorem found_of_addsLine (hadds : AddsLine bytes e) :
    (∃ found, lookupApp (bytes ++ appLine (cutArgs e).name (cutArgs e).launcher (cutArgs e).target
        (cutArgs e).summary) e.name = some found ∧ Shows found e) ∧
      ∀ name f, lookupApp bytes name = some f →
        lookupApp (bytes ++ appLine (cutArgs e).name (cutArgs e).launcher (cutArgs e).target
          (cutArgs e).summary) name = some f := by
  obtain ⟨summary, hsum, htake, hlines⟩ := linesOf_appLine h bytes
  have hhead := headD_ne_zero h
  rw [cutArgs_eq_self hadds.name_fits hadds.launcher_fits hadds.target_fits]
    at h hnew hlines hhead htake ⊢
  have hstored : Stored { e with summary := summary } :=
    ⟨h.name, h.launcher, h.target, hsum, h.name_le, h.launcher_le, h.target_le⟩
  have hlookup : ∀ name : List UInt8, name.headD 0 ≠ 0 →
      lookupApp (bytes ++ appLine e.name e.launcher e.target e.summary) name =
        ((splitLines newline bytes).1.findSome? (namedEntry name)).or
          (namedEntry name (unfinished newline bytes ++ record { e with summary := summary })) := by
    intro name hname
    have hfits := hadds.file_fits
    rw [← List.length_append] at hfits
    rw [lookupApp, if_neg (not_or.2 ⟨hname, Nat.not_lt.2 hfits⟩), hlines, List.findSome?_append,
      List.findSome?_singleton]
  constructor
  · rw [lookupApp_eq hroom hhead, Option.or_eq_none_iff] at hnew
    refine ⟨⟨(unfinished newline bytes ++ e.name).take 8, e.launcher, e.target,
      summary.take 39⟩, ?_, ?_⟩
    · rw [hlookup _ hhead, hnew.1, Option.none_or, namedEntry_eq_some,
        parse_record_of_no_bar hstored _ hadds.no_bar, if_neg hadds.no_comment]
      exact ⟨rfl, hadds.same_name⟩
    · refine ⟨cstr_eq_self h.launcher.no_zero, cstr_eq_self h.target.no_zero, ?_⟩
      rw [← htake]
      exact cstr_eq_self fun hx => hsum.no_zero (List.mem_of_mem_take hx)
  · intro name f hf
    have hname : name.headD 0 ≠ 0 := by
      intro hzero
      rw [lookupApp, if_pos (.inl hzero)] at hf
      cases hf
    rw [lookupApp_eq hroom hname, Option.or_eq_some_iff] at hf
    rcases hf with hf | ⟨-, hf⟩
    · rw [hlookup name hname, hf, Option.some_or]
    · -- an entry has a bar
      split_ifs at hf
      obtain ⟨-, a, b, c, s, hchop, -⟩ := twParseAppLine_eq_some.1 (namedEntry_eq_some.1 hf).1
      refine absurd ?_ hadds.no_bar
      have hsub : (chopLine (unfinished newline bytes)).Sublist (unfinished newline bytes) := by
        unfold chopLine
        split_ifs
        · exact List.dropLast_sublist _
        · exact .refl _
      exact hsub.subset (by rw [hchop]; simp)

end Lookups

/-! ## The command -/

section Command

variable {m : Mount} {R : List Nat} {s s' : Fs} {bytes : List UInt8} {d : Disk}

theorem bufferBytes_list (l : List UInt8) :
    bufferBytes (some fun i => l.getD i 0) l.length = l := by
  refine List.ext_getElem (by simp [bufferBytes]) fun i h₁ h₂ => ?_
  simp [bufferBytes, List.getD_eq_getElem?_getD, h₂]

/-- The file with a line appended. -/
theorem fsWrite_appsTxt (g : Geometry m) (hb : Manifest m R s bytes) {line : List UInt8}
    (hline : line.length ≤ 159) : Total (fsWrite m (some appsTxt) (some fun i => line.getD i 0)
      (.ofNat line.length) fsWriteAppend) s fun ok s' => ok = true →
        Manifest m R s' (bytes ++ line) := by
  refine (fsWrite_files g hb.ready (by decide)).mono
    fun ok s' ⟨hready, hsets, _⟩ hok => ⟨hready, ?_⟩
  have hset := (hsets hok).files_self
  have hname : appsTxt.map upperAscii = appsTxt := by decide
  have hsize : (UInt32.ofNat line.length).toNat = line.length := by
    rw [UInt32.toNat_ofNat']
    exact Nat.mod_eq_of_lt (by omega)
  rw [hname, hb.file, writtenBytes, if_pos (by decide), hsize, bufferBytes_list] at hset
  exact hset

theorem twAppAdd_spec (g : Geometry m) (hb : Manifest m R s bytes) {args : List UInt8}
    (h0 : 0 ∉ args)
    (fileBuffer : FileBuffer) : Total (twAppAdd m args fileBuffer) s fun r s' =>
      ∀ name, r.1 = .added name → Stored (cutArgs (appArgs args)) ∧
        lookupApp bytes (cutArgs (appArgs args)).name = none ∧
        Manifest m R s'
          (bytes ++ appLine (cutArgs (appArgs args)).name (cutArgs (appArgs args)).launcher
          (cutArgs (appArgs args)).target (cutArgs (appArgs args)).summary) := by
  have h1 : 0 ∉ (splitWord args).2 := fun h => h0 ((splitWord_sublist _).2.subset h)
  have h2 : 0 ∉ (splitWord (splitWord args).2).2 := fun h => h1 ((splitWord_sublist _).2.subset h)
  have h3 : 0 ∉ (splitWord (splitWord (splitWord args).2).2).2 :=
    fun h => h2 ((splitWord_sublist _).2.subset h)
  unfold twAppAdd
  rw [twAppReadWord_eq h0]
  simp only [twAppReadWord_eq h1, twAppReadWord_eq h2]
  refine (total_ite ..).2 ⟨fun h => by simp [g.mounted] at h, fun _ => ?_⟩
  refine (total_ite ..).2 ⟨fun _ => (total_pure ..).2 fun _ h => (by cases h), fun hok => ?_⟩
  simp only [Bool.or_eq_true, Bool.not_eq_true', not_or, Bool.not_eq_false] at hok
  obtain ⟨⟨⟨hname, hlauncher⟩, htarget⟩, hsummary⟩ := hok
  have hcut : ∀ {x : List UInt8} {n : Nat}, 0 ∉ x → twAppFieldOk (x.take n) = true →
      Field (x.take n) := fun hx hok => field_of_ok hok fun h => hx (List.mem_of_mem_take h)
  have hstored : Stored (cutArgs (appArgs args)) := by
    refine ⟨hcut ?_ hname, hcut ?_ hlauncher, hcut ?_ htarget, field_of_ok hsummary h3,
      List.length_take_le _ _, List.length_take_le _ _, List.length_take_le _ _⟩
    · exact fun h => h0 ((splitWord_sublist _).1.subset h)
    · exact fun h => h1 ((splitWord_sublist _).1.subset h)
    · exact fun h => h2 ((splitWord_sublist _).1.subset h)
  refine (total_bind ..).2 ((twFindApp_spec g hb _ fileBuffer).mono ?_)
  rintro ⟨found, buffer⟩ s₁ ⟨hb₁, -, hfound⟩
  cases found with
  | some e => exact (total_pure ..).2 fun _ h => by cases h
  | none =>
    have hline : ∀ n l t u : List UInt8, (appLine n l t u).length ≤ 159 := by
      intro n l t u
      rw [appLine_eq]
      exact List.length_take_le _ _
    refine (total_bind ..).2 ((fsWrite_appsTxt g hb₁ (hline _ _ _ _)).mono fun ok s₂ hok => ?_)
    refine (total_ite ..).2 ⟨fun _ => (total_pure ..).2 fun _ h => (by cases h), fun hyes => ?_⟩
    refine (total_pure ..).2 fun _ _ => ⟨hstored, hfound.symm, hok ?_⟩
    simpa using hyes

theorem findApp_iff (g : Geometry m) (hb : Manifest m R s bytes) (name : List UInt8)
    (fileBuffer : FileBuffer) (P : Option AppEntry → Prop) :
    Total (twFindApp m (some name) fileBuffer) s (fun r _ => P r.1) ↔ P (lookupApp bytes name) := by
  have hspec := twFindApp_spec g hb name fileBuffer
  constructor
  · intro h
    obtain ⟨r, s', -, ⟨-, -, hr⟩, hP⟩ := hspec.and h
    rwa [hr] at hP
  · intro h
    refine hspec.mono fun r s' ⟨_, _, hr⟩ => ?_
    rwa [hr]

/-- The app that was added is found, with the words that were given and the summary cut, and every
app that was found before is found as it was. -/
structure Registered (m : Mount) (s s' : Fs) (fileBuffer fileBuffer' : FileBuffer) (e : AppEntry) :
    Prop where
  found : Total (twFindApp m (some e.name) fileBuffer') s' fun r _ =>
    ∃ found, r.1 = some found ∧ Shows found e
  kept : ∀ name f, Total (twFindApp m (some name) fileBuffer) s (fun r _ => r.1 = some f) →
    Total (twFindApp m (some name) fileBuffer') s' fun r _ => r.1 = some f

/-- On a well-formed volume whose `APPS.TXT` fits the buffer, an app that is reported as added is
registered exactly when its words fit, the file still does, and the line is read as the app's. -/
theorem appAdd_iff (g : Geometry m) (hw : WellFormed m R d) (hf : files m R d appsTxt = some bytes)
    (hroom : bytes.length ≤ 511) (sector : Sector) (fileBuffer : FileBuffer) {args : List UInt8}
    (h0 : 0 ∉ args) {name : List UInt8} {fileBuffer' : FileBuffer}
    (hadd : twAppAdd m args fileBuffer (Fs.start d sector []) =
      some ((.added name, fileBuffer'), s')) :
    Registered m (Fs.start d sector []) s' fileBuffer fileBuffer' (appArgs args) ↔
      AddsLine bytes (appArgs args) := by
  have hb : Manifest m R (Fs.start d sector []) bytes := ⟨hw.ready sector, hf⟩
  obtain ⟨hstored, hnew, hb'⟩ := (twAppAdd_spec g hb h0 fileBuffer).of_eq hadd name rfl
  have hname0 : 0 ∉ (appArgs args).name := fun h => h0 ((splitWord_sublist _).1.subset h)
  constructor
  · intro h
    obtain ⟨found, hfound, hshows⟩ := (findApp_iff g hb' _ fileBuffer'
      fun r => ∃ found, r = some found ∧ Shows found (appArgs args)).1 h.found
    exact addsLine_of_found hstored hname0 hroom hnew hfound hshows
  · intro h
    obtain ⟨hfound, hkept⟩ := found_of_addsLine hstored hroom hnew h
    refine ⟨(findApp_iff g hb' _ fileBuffer'
      fun r => ∃ found, r = some found ∧ Shows found (appArgs args)).2 hfound,
      fun nm f hnm => (findApp_iff g hb' nm fileBuffer' (· = some f)).2 ?_⟩
    exact hkept nm f ((findApp_iff g hb nm fileBuffer (· = some f)).1 hnm)

end Command

/-- A file is created and written. -/
theorem ready_written (text : List UInt8) (size : UInt32) :
      Total (runAll (Call.run tiny) [.create (some appsTxt),
        .writeFile (some appsTxt) (some fun i => text.getD i 0) size])
      (Fs.start (blankDisk tiny) (fun _ => 0) []) fun _ s => Ready tiny [2] s := by
  simp only [runAll, Call.run, total_bind, total_pure]
  refine (fsCreate_files tiny_geometry (wellFormed_tiny.ready _)).mono fun _ s₁ h₁ => ?_
  exact (fsWriteFile_files tiny_geometry h₁.1).mono fun _ _ h => h.1

/-- `A b c d`, added to an empty file. -/
theorem appAdd_empty :
    Total (fsCreate tiny (some appsTxt)) (Fs.start (blankDisk tiny) (fun _ => 0) [])
    fun _ s => Total (twAppAdd tiny [0x41, 0x20, 0x62, 0x20, 0x63, 0x20, 0x64] fun _ => 0)
      (Fs.start s.disk s.sector []) fun r s' =>
        Registered tiny (Fs.start s.disk s.sector []) s' (fun _ => 0) r.2
          ⟨[0x41], [0x62], [0x63], [0x64]⟩ := by
  refine (fsCreate_files tiny_geometry (wellFormed_tiny.ready _)).with_eq.mono ?_
  rintro ok s ⟨hs, hr, -⟩
  have hrun :
    ((fsCreate tiny (some appsTxt)) (Fs.start (blankDisk tiny) (fun _ => 0) [])).map (fun x =>
      (files tiny [2] x.2.disk appsTxt, (twAppAdd tiny [0x41, 0x20, 0x62, 0x20, 0x63, 0x20, 0x64]
        (fun _ => 0) (Fs.start x.2.disk x.2.sector [])).map (·.1.1))) =
      some (some [], some (.added [0x41])) := by decide +kernel
  rw [hs] at hrun
  obtain ⟨hf, hadd⟩ := Prod.mk.inj (Option.some.inj hrun)
  obtain ⟨⟨⟨_, fileBuffer⟩, s'⟩, hadd, rfl⟩ := Option.map_eq_some_iff.1 hadd
  refine ⟨_, s', hadd,
    (appAdd_iff tiny_geometry hr.wellFormed hf (by decide) _ _ (by decide) hadd).2 ?_⟩
  constructor <;> decide

/-- `B b c d`, added behind `A|b|c|d` with no newline: both are on one line, and `B` is not found.
-/
theorem appAdd_unfinished : Total (runAll (Call.run tiny) [.create (some appsTxt),
      .writeFile (some appsTxt) (some fun i =>
        [0x41, 0x7C, 0x62, 0x7C, 0x63, 0x7C, 0x64].getD i 0) 7])
      (Fs.start (blankDisk tiny) (fun _ => 0) []) fun _ s =>
    WellFormed tiny [2] s.disk ∧
      files tiny [2] s.disk appsTxt = some [0x41, 0x7C, 0x62, 0x7C, 0x63, 0x7C, 0x64] ∧
      Total (twAppAdd tiny [0x42, 0x20, 0x62, 0x20, 0x63, 0x20, 0x64] fun _ => 0)
        (Fs.start s.disk s.sector []) fun r s' => r.1 = .added [0x42] ∧
          ¬Registered tiny (Fs.start s.disk s.sector []) s' (fun _ => 0) r.2
            (appArgs [0x42, 0x20, 0x62, 0x20, 0x63, 0x20, 0x64]) := by
  have hrun : ((runAll (Call.run tiny) [.create (some appsTxt),
      .writeFile (some appsTxt) (some fun i =>
        [0x41, 0x7C, 0x62, 0x7C, 0x63, 0x7C, 0x64].getD i 0) 7])
      (Fs.start (blankDisk tiny) (fun _ => 0) [])).map (fun x =>
      (files tiny [2] x.2.disk appsTxt, (twAppAdd tiny [0x42, 0x20, 0x62, 0x20, 0x63, 0x20, 0x64]
        (fun _ => 0) (Fs.start x.2.disk x.2.sector [])).map (·.1.1))) =
      some (some [0x41, 0x7C, 0x62, 0x7C, 0x63, 0x7C, 0x64], some (.added [0x42])) := by
    decide +kernel
  refine (ready_written _ 7).with_eq.mono ?_
  rintro bs s ⟨hs, hr⟩
  rw [hs] at hrun
  obtain ⟨hf, hadd⟩ := Prod.mk.inj (Option.some.inj hrun)
  obtain ⟨⟨⟨_, fileBuffer⟩, s'⟩, hadd, rfl⟩ := Option.map_eq_some_iff.1 hadd
  refine ⟨hr.wellFormed, hf, _, s', hadd, rfl, fun h => ?_⟩
  obtain ⟨-, -, hb'⟩ := (twAppAdd_spec tiny_geometry ⟨hr.wellFormed.ready s.sector, hf⟩ (by decide)
    fun _ => 0).of_eq hadd [0x42] rfl
  obtain ⟨found, hfound, -⟩ := (findApp_iff tiny_geometry hb' _ fileBuffer
    fun r => ∃ found, r = some found ∧
      Shows found (appArgs [0x42, 0x20, 0x62, 0x20, 0x63, 0x20, 0x64])).1 h.found
  have hnone : lookupApp ([0x41, 0x7C, 0x62, 0x7C, 0x63, 0x7C, 0x64] ++
      appLine [0x42] [0x62] [0x63] [0x64]) [0x42] = none := by decide
  cases hnone.symm.trans hfound

end MinervaOS.Terminal
