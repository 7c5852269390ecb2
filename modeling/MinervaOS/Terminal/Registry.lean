import MinervaOS.Terminal.Apps

/-!
# What the registry holds

A lookup goes through the lines of the file and takes the first with its name (`lookupApp`); of the
file system only the bytes of `APPS.TXT` matter, and that they fit the buffer. An addition leaves
the file with its line behind what was there, as one more line or as the rest of one that was not
ended.
-/

namespace MinervaOS.Terminal

open Fat32 Prog

/-! ## Fields -/

theorem copyUntil_eq (stop : UInt8 → Bool) (outSize : Nat) (p out : List UInt8) :
    copyUntil stop outSize p out = (out ++ (p.takeWhile (!stop ·)).take (outSize - 1 - out.length),
      p.dropWhile (!stop ·)) := by
  induction p generalizing out with
  | nil => simp [copyUntil]
  | cons c p ih =>
    unfold copyUntil
    by_cases hc : stop c
    · simp [hc]
    · rw [if_neg hc, ih, List.takeWhile_cons_of_pos (by simpa using hc),
        List.dropWhile_cons_of_pos (by simpa using hc)]
      congr 1
      by_cases hfit : out.length + 1 < outSize
      · obtain ⟨k, hk⟩ : ∃ k, outSize - 1 - out.length = k + 1 :=
          ⟨outSize - 2 - out.length, by omega⟩
        have hk' : outSize - 1 - (out ++ [c]).length = k := by
          rw [List.length_append, List.length_singleton]
          omega
        rw [if_pos hfit, hk, hk', List.take_succ_cons, List.append_assoc, List.singleton_append]
      · have hk : outSize - 1 - out.length = 0 := by omega
        rw [if_neg hfit, hk, List.take_zero, List.take_zero]

theorem take_eq_nil_iff_of_pos {n : Nat} (hn : 0 < n) {p : List UInt8} :
    p.take n = [] ↔ p = [] := by
  rw [List.take_eq_nil_iff]
  exact or_iff_right (Nat.pos_iff_ne_zero.1 hn)

/-- Up to a bar. -/
theorem twCopyPkgField_bar {p x rest : List UInt8} {outSize : Nat} (hout : 1 < outSize) :
    twCopyPkgField p bar outSize = some (x, rest) ↔
      ∃ a, p = a ++ bar :: rest ∧ bar ∉ a ∧ a ≠ [] ∧ x = a.take (outSize - 1) := by
  have hstop : ∀ {a : List UInt8}, bar ∉ a → ∀ c ∈ a, (!(bar != 0 && c == bar)) = true := by
    intro a ha c hc
    have : c ≠ bar := fun h => ha (h ▸ hc)
    simp [this]
  unfold twCopyPkgField
  by_cases hp : bar ∈ p
  · obtain ⟨a, rest', rfl, ha⟩ := List.eq_append_cons_of_mem hp
    rw [copyUntil_eq, List.takeWhile_append_of_pos (hstop ha),
      List.dropWhile_append_of_pos (hstop ha), List.takeWhile_cons_of_neg (by decide),
        List.dropWhile_cons_of_neg (by decide)]
    simp only [List.append_nil, List.nil_append, List.length_nil, Nat.sub_zero,
      gt_iff_lt, List.length_pos_iff, ne_eq, take_eq_nil_iff_of_pos (Nat.sub_pos_of_lt hout)]
    constructor
    · intro h
      have ha' : a ≠ [] := by
        rintro rfl
        simp [bar] at h
      rw [if_pos (by decide), if_pos ha', Option.some.injEq, Prod.mk.injEq] at h
      obtain ⟨rfl, rfl⟩ := h
      exact ⟨a, rfl, ha, ha', rfl⟩
    · rintro ⟨a', heq, ha', hne, rfl⟩
      obtain ⟨rfl, rfl⟩ := first_sep_unique ha ha' heq
      rw [if_pos (by decide), if_pos hne]
  · rw [copyUntil_eq, List.dropWhile_eq_nil_iff.2 (hstop hp)]
    refine iff_of_false (by simp [bar]) ?_
    rintro ⟨a, rfl, -⟩
    simp at hp

/-- Up to the end of the line. -/
theorem twCopyPkgField_end {p x rest : List UInt8} {outSize : Nat} (hout : 1 < outSize) :
    twCopyPkgField p 0 outSize = some (x, rest) ↔
      p ≠ [] ∧ x = p.take (outSize - 1) ∧ rest = [] := by
  unfold twCopyPkgField
  rw [copyUntil_eq, List.takeWhile_eq_self_iff.2 (by simp), List.dropWhile_eq_nil_iff.2 (by simp)]
  simp only [List.nil_append, List.length_nil, Nat.sub_zero, gt_iff_lt, List.length_pos_iff, ne_eq,
    take_eq_nil_iff_of_pos (Nat.sub_pos_of_lt hout)]
  rw [if_neg (by decide)]
  by_cases hp : p = []
  · rw [if_neg (not_not.2 hp)]
    exact iff_of_false (by simp) fun h => h.1 hp
  · rw [if_pos hp, Option.some.injEq, Prod.mk.injEq]
    exact ⟨fun ⟨h, h'⟩ => ⟨hp, h.symm, h'.symm⟩, fun ⟨_, h, h'⟩ => ⟨h.symm, h'.symm⟩⟩

/-- `line_end[-1] == '\r'`. -/
def chopLine (line : List UInt8) : List UInt8 :=
  if line.getLast? == some carriageReturn then line.dropLast else line

/-- Three bars, something between them and at both ends. -/
theorem twParseAppLine_eq_some {line : List UInt8} {e : AppEntry} : twParseAppLine line = some e ↔
    line.head? ≠ some hash ∧ ∃ a b c s, chopLine line = a ++ bar :: (b ++ bar :: (c ++ bar :: s)) ∧
      bar ∉ a ∧ bar ∉ b ∧ bar ∉ c ∧ a ≠ [] ∧ b ≠ [] ∧ c ≠ [] ∧ s ≠ [] ∧
      e = ⟨a.take 8, b.take 11, c.take 63, s.take 39⟩ := by
  unfold twParseAppLine
  change (if _ then none else _) = _ ↔ _
  have hempty : chopLine line ≠ [] → line.isEmpty = false := by
    intro h
    cases line with
    | nil => exact absurd rfl h
    | cons => rfl
  constructor
  · intro h
    split at h
    · cases h
    rename_i hgo
    simp only [Bool.or_eq_true, not_or, beq_iff_eq] at hgo
    obtain ⟨⟨x₁, p₁⟩, h₁, h⟩ := Option.bind_eq_some_iff.1 h
    obtain ⟨⟨x₂, p₂⟩, h₂, h⟩ := Option.bind_eq_some_iff.1 h
    obtain ⟨⟨x₃, p₃⟩, h₃, h⟩ := Option.bind_eq_some_iff.1 h
    obtain ⟨⟨x₄, p₄⟩, h₄, h⟩ := Option.bind_eq_some_iff.1 h
    obtain ⟨a, ha, hbar, hne, rfl⟩ := (twCopyPkgField_bar (by decide)).1 h₁
    obtain ⟨b, rfl, hbar₂, hne₂, rfl⟩ := (twCopyPkgField_bar (by decide)).1 h₂
    obtain ⟨c, rfl, hbar₃, hne₃, rfl⟩ := (twCopyPkgField_bar (by decide)).1 h₃
    obtain ⟨hne₄, rfl, rfl⟩ := (twCopyPkgField_end (by decide)).1 h₄
    exact ⟨hgo.2, a, b, c, p₃, ha, hbar, hbar₂, hbar₃, hne, hne₂, hne₃, hne₄,
      (Option.some.inj h).symm⟩
  · rintro ⟨hhash, a, b, c, s, hline, hbar, hbar₂, hbar₃, hne, hne₂, hne₃, hne₄, rfl⟩
    have hgo : ¬(line.isEmpty || line.head? == some hash) = true := by
      rw [hempty (by rw [hline]; simp), Bool.false_or, beq_iff_eq]
      exact hhash
    rw [if_neg hgo]
    refine Option.bind_eq_some_iff.2 ⟨_, (twCopyPkgField_bar (by decide)).2
      ⟨a, hline, hbar, hne, rfl⟩, ?_⟩
    refine Option.bind_eq_some_iff.2 ⟨_, (twCopyPkgField_bar (by decide)).2
      ⟨b, rfl, hbar₂, hne₂, rfl⟩, ?_⟩
    refine Option.bind_eq_some_iff.2 ⟨_, (twCopyPkgField_bar (by decide)).2
      ⟨c, rfl, hbar₃, hne₃, rfl⟩, ?_⟩
    exact Option.bind_eq_some_iff.2 ⟨_, (twCopyPkgField_end (by decide)).2 ⟨hne₄, rfl, rfl⟩, rfl⟩

/-! ## Lookups -/

/-- The entry of a line, if it has the name. -/
def namedEntry (name line : List UInt8) : Option AppEntry :=
  (twParseAppLine line).filter fun e => twStreqCi e.name name

theorem line_eq {name line : List UInt8} {next : Option AppEntry} :
    (match twParseAppLine line with
      | none => next
      | some entry => if twStreqCi entry.name name then some entry else next) =
      (namedEntry name line).or next := by
  unfold namedEntry
  cases twParseAppLine line with
  | none => rfl
  | some entry =>
    rw [Option.filter_some]
    split_ifs with hn <;> simp [hn]

theorem findAppLine_eq (name : List UInt8) : ∀ (steps : Nat) (bytes : List UInt8),
    bytes.length ≤ steps →
    findAppLine name steps bytes = (linesOf newline bytes).findSome? (namedEntry name) := by
  intro steps
  induction steps with
  | zero =>
    intro bytes h
    rw [List.length_eq_zero_iff.1 (Nat.le_zero.1 h)]
    rfl
  | succ steps ih =>
    intro bytes h
    have hne : ∀ {a : List UInt8}, newline ∉ a → ∀ c ∈ a, (c != newline) = true := by
      intro a ha c hc
      exact bne_iff_ne.2 fun h => ha (h ▸ hc)
    have hcons : ∀ {a : List UInt8} {l : List (List UInt8)},
        (namedEntry name a).or (l.findSome? (namedEntry name)) =
          (a :: l).findSome? (namedEntry name) := by
      intro a l
      rw [List.findSome?_cons]
      cases namedEntry name a <;> rfl
    unfold findAppLine
    by_cases hnil : bytes = []
    · rw [hnil]
      rfl
    rw [if_neg (by simpa using hnil)]
    refine line_eq.trans ?_
    by_cases hmem : newline ∈ bytes
    · obtain ⟨a, rest, rfl, ha⟩ := List.eq_append_cons_of_mem hmem
      rw [List.length_append, List.length_cons] at h
      rw [List.takeWhile_append_of_pos (hne ha), List.dropWhile_append_of_pos (hne ha),
        List.takeWhile_cons_of_neg (by simp), List.dropWhile_cons_of_neg (by simp), List.append_nil,
        List.tail_cons, linesOf_cons ha, ih rest (by omega)]
      exact hcons
    · rw [List.takeWhile_eq_self_iff.2 (hne hmem), List.dropWhile_eq_nil_iff.2 (hne hmem),
        linesOf_line hmem hnil, List.tail_nil, ih [] (Nat.zero_le _)]
      exact hcons

/-- What `tw_find_app` finds in a file of these bytes. -/
def lookupApp (bytes name : List UInt8) : Option AppEntry :=
  if name.headD 0 = 0 ∨ 511 < bytes.length then none
  else (linesOf newline bytes).findSome? (namedEntry name)

/-! ## The file -/

section File

variable {m : Mount} {R : List Nat} {s s' : Fs} {bytes : List UInt8}

/-- `APPS.TXT` holds the bytes. -/
structure Manifest (m : Mount) (R : List Nat) (s : Fs) (bytes : List UInt8) : Prop where
  ready : Ready m R s
  file : files m R s.disk appsTxt = some bytes

variable (g : Geometry m) (hb : Manifest m R s bytes)

include g hb

/-- The whole file, or a returned 0. -/
theorem fsReadFile_appsTxt (buffer : Nat → UInt8) (size : UInt32) :
    Total (fsReadFile m (some appsTxt) (some buffer) size) s fun r s' => Manifest m R s' bytes ∧
      s'.disk = s.disk ∧ r.1 = decide (bytes.length ≤ size.toNat) ∧
      (bytes.length ≤ size.toNat → r.2.1 = bytes.length ∧
        ∃ b, r.2.2 = some b ∧ (List.range bytes.length).map b = bytes) := by
  have hw := hb.ready.wellFormed
  have hwh := hb.ready.whole
  have hsn : makeShortNameChecked appsTxt = some (makeShortName appsTxt) := by decide
  have hfile : files m R s.disk (appsTxt.map upperAscii) = some bytes := hb.file
  obtain ⟨n, e, he, hattr, hbytes⟩ := entry_of_files hw hsn hfile
  obtain ⟨l, hch, hcov⟩ := hw.covered n e he.dir he.live
  have hlen := length_contents g hw he.dir he.live
  rw [hbytes] at hlen
  refine (total_ite ..).2 ⟨fun h => by simp at h, fun _ => ?_⟩
  refine (total_bind ..).2 ((fsOpen_spec g (some appsTxt) hb.ready.safe hwh.reliable).mono ?_)
  rintro r s₁ ⟨hr, ⟨_, n', e', ⟨⟩, he', -, rfl⟩ | ⟨rfl, hnone⟩⟩
  swap
  · rcases hnone appsTxt rfl with hno | ⟨n', e', he', hattr'⟩
    · exact absurd he.name (hno n e he.dir he.live)
    · rw [(he.det hwh.exact he').2] at hattr'
      exact absurd hattr hattr'
  obtain rfl := (he.det hwh.exact he').2
  refine (total_bind ..).2 ((fsRead_spec g (hr.disk.symm ▸ hch) hcov 0 buffer size.toNat
    (hr.ext.reliable hwh.reliable)).mono ?_)
  rintro r s₂ ⟨hr₂, rfl⟩
  have hreads := hr.reads hr₂
  refine (total_pure ..).2 ⟨⟨hb.ready.reads hreads, ?_⟩, hreads.disk, ?_, fun hroom => ?_⟩
  · rw [hreads.disk]
    exact hb.file
  · simp only [fsFileSize, handle, if_true, Nat.sub_zero, hlen]
    rw [Bool.eq_iff_iff, beq_iff_eq, decide_eq_true_eq]
    omega
  · rw [hlen] at hroom ⊢
    have hall : min size.toNat (e'.size - 0) = e'.size := by omega
    rw [contents_eq g hch hcov] at hbytes
    refine ⟨hall, _, rfl, ?_⟩
    have hcopy := bufferBytes_copyAt buffer e'.size (chainByte m s.disk l)
    rw [hbytes] at hcopy
    simp only [hall, Nat.zero_add, hr.disk]
    exact hcopy

theorem twReadAppManifest_spec (fileBuffer : FileBuffer) :
    Total (twReadAppManifest m fileBuffer) s fun r s' => Manifest m R s' bytes ∧ s'.disk = s.disk ∧
      (511 < bytes.length → r.1 = none) ∧ (bytes.length ≤ 511 → r.1 = some bytes.length ∧
        (List.range bytes.length).map r.2 = bytes) := by
  refine (total_ite ..).2 ⟨fun h => by simp [g.mounted] at h, fun _ => (total_bind ..).2 ?_⟩
  refine (fsReadFile_appsTxt g hb fileBuffer 511).mono ?_
  rintro ⟨ok, size, buffer⟩ s' ⟨hb', hd, hok, hread⟩
  have h511 : (511 : UInt32).toNat = 511 := rfl
  rw [h511] at hok hread
  simp only at hok hread
  refine (total_ite ..).2 ⟨fun hno => (total_pure ..).2 ⟨hb', hd, fun _ => rfl, fun hroom => ?_⟩,
    fun hyes => (total_pure ..).2 ⟨hb', hd, fun hlong => ?_, fun hroom => ?_⟩⟩
  · simp [hok, hroom] at hno
  · have : ¬bytes.length ≤ 511 := Nat.not_le.2 hlong
    simp [hok, this] at hyes
  · obtain ⟨rfl, b, rfl, hb⟩ := hread hroom
    refine ⟨rfl, Eq.trans (List.map_congr_left fun i hi => ?_) hb⟩
    exact if_neg (Nat.ne_of_lt (List.mem_range.1 hi))

theorem twFindApp_spec (name : List UInt8) (fileBuffer : FileBuffer) :
    Total (twFindApp m (some name) fileBuffer) s fun r s' => Manifest m R s' bytes ∧
      s'.disk = s.disk ∧ r.1 = lookupApp bytes name := by
  refine (total_ite ..).2 ⟨fun h => (total_pure ..).2 ⟨hb, rfl, ?_⟩, fun h => (total_bind ..).2 ?_⟩
  · rw [lookupApp, if_pos (.inl (by simpa using h))]
  refine (twReadAppManifest_spec g hb fileBuffer).mono ?_
  rintro ⟨size, buffer⟩ s' ⟨hb', hd, hlong, hroom⟩
  have hhead : ¬name.headD 0 = 0 := by simpa using h
  by_cases hlen : 511 < bytes.length
  · obtain rfl := hlong hlen
    refine (total_pure ..).2 ⟨hb', hd, ?_⟩
    rw [lookupApp, if_pos (.inr hlen)]
  · obtain ⟨rfl, hread⟩ := hroom (Nat.not_lt.1 hlen)
    refine (total_pure ..).2 ⟨hb', hd, ?_⟩
    rw [lookupApp, if_neg (not_or.2 ⟨hhead, hlen⟩), ← findAppLine_eq name _ _ (Nat.le_refl _)]
    simp only at hread
    simp only [hread]

end File

end MinervaOS.Terminal
