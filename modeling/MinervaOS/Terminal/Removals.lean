import MinervaOS.Terminal.Additions

/-!
# Removing an app

The file is written anew from the lines that are kept, each ended by a newline. Parsing goes line by
line as the removal does, so what is parsed from the new file are the entries of the old one without
those that have the name (`appRemove_filters`).
-/

namespace MinervaOS.Terminal

open Fat32 Prog

/-- `sizeof(app_write_buffer)`. -/
def appWriteSize : Nat := 512

/-- Whether the line is an entry with the name. -/
def isNamed (name line : List UInt8) : Bool :=
  match twParseAppLine line with
  | none => false
  | some entry => twStreqCi entry.name name

/-- The loop of `tw_app_remove`, which takes a line in each of its `steps`: what `app_write_buffer`
holds and whether an entry was left out, or `none` where the file is full. -/
def removeLines (name : List UInt8) :
    Nat → List UInt8 → List UInt8 → Bool → Option (List UInt8 × Bool)
  | 0, _, out, removed => some (out, removed)
  | steps + 1, cursor, out, removed =>
    if cursor.isEmpty then some (out, removed)
    else
      let line := cursor.takeWhile (· != newline)
      let next := (cursor.dropWhile (· != newline)).tail
      if isNamed name line then removeLines name steps next out true
      else if line.length > 0 then
        if out.length + line.length + 1 ≥ appWriteSize then none
        else removeLines name steps next (out ++ line ++ [newline]) removed
      else removeLines name steps next out removed

/-- What `tw_app_remove` prints. -/
inductive RemoveReply where
  /-- `usage app remove NAME` -/
  | usage
  /-- `app no manifest` -/
  | noManifest
  /-- `app file full` -/
  | full
  /-- `app missing` -/
  | missing
  /-- `app remove failed` -/
  | failed
  /-- `app removed`, and the name -/
  | removed (name : List UInt8)
  deriving DecidableEq

def twAppRemove (m : Mount) (name : NameArg) (fileBuffer : FileBuffer) :
    Prog Fs (RemoveReply × FileBuffer) := do
  let some name := name | return (.usage, fileBuffer)
  if name.headD 0 == 0 then return (.usage, fileBuffer)
  match ← twReadAppManifest m fileBuffer with
  | (none, fileBuffer) => return (.noManifest, fileBuffer)
  | (some size, fileBuffer) =>
    match removeLines name size ((List.range size).map fileBuffer) [] false with
    | none => return (.full, fileBuffer)
    | some (out, removed) =>
      if !removed then return (.missing, fileBuffer)
      if !(← fsWrite m (some appsTxt) (some fun i => out.getD i 0) (.ofNat out.length)
          (fsWriteCreate ||| fsWriteTruncate)) then return (.failed, fileBuffer)
      return (.removed name, fileBuffer)

/-! ## Names -/

/-- The names are equal up to their terminators, the case of the letters aside. -/
def SameName (x y : List UInt8) : Prop := (cstr x).map twLower = (cstr y).map twLower

instance (x y : List UInt8) : Decidable (SameName x y) :=
  inferInstanceAs (Decidable ((cstr x).map twLower = (cstr y).map twLower))

theorem twStreqCi_iff {x y : List UInt8} : twStreqCi x y = true ↔ SameName x y := by
  induction x generalizing y with
  | nil =>
    cases y with
    | nil => simp [twStreqCi, SameName]
    | cons b y =>
      by_cases hb : b = 0
      · simp [twStreqCi, SameName, cstr, hb]
      · simp [twStreqCi, SameName, cstr, hb]
  | cons a x ih =>
    cases y with
    | nil =>
      by_cases ha : a = 0
      · simp [twStreqCi, SameName, cstr, ha]
      · simp [twStreqCi, SameName, cstr, ha]
    | cons b y =>
      by_cases ha : a = 0
      · by_cases hb : b = 0
        · simp [twStreqCi, SameName, cstr, ha, hb]
        · simp [twStreqCi, SameName, cstr, ha, hb]
      · by_cases hb : b = 0
        · simp [twStreqCi, SameName, cstr, ha, hb]
        · by_cases hlow : twLower a = twLower b
          · simp [twStreqCi, SameName, cstr, ha, hb, hlow, ih]
          · simp [twStreqCi, SameName, cstr, ha, hb, hlow]

/-! ## Lines -/

/-- The entries that are parsed from a file. -/
def entriesOf (bytes : List UInt8) : List AppEntry :=
  (linesOf newline bytes).filterMap twParseAppLine

/-- The lines of a file that are not empty. -/
def textOf (bytes : List UInt8) : List (List UInt8) := (linesOf newline bytes).filter (· ≠ [])

/-- The lines that `tw_app_remove` writes. -/
def keptLines (name bytes : List UInt8) : List (List UInt8) :=
  (textOf bytes).filter fun l => !isNamed name l

theorem textOf_walk {bytes : List UInt8} (hne : bytes ≠ []) : textOf bytes =
    [bytes.takeWhile (· != newline)].filter (· ≠ []) ++
      textOf (bytes.dropWhile (· != newline)).tail := by
  rw [textOf, linesOf_walk hne, ← List.singleton_append, List.filter_append]
  rfl

/-- The loop leaves out the lines that are named, and the blank ones. -/
theorem removeLines_spec (name : List UInt8) {out' : List UInt8} {removed' : Bool} :
    ∀ (steps : Nat) (bytes out : List UInt8) (removed : Bool), bytes.length ≤ steps →
      out.length < appWriteSize →
      removeLines name steps bytes out removed = some (out', removed') →
        out' = out ++ (keptLines name bytes).flatMap (· ++ [newline]) ∧ out'.length < appWriteSize ∧
          removed' = (removed || (linesOf newline bytes).any (isNamed name)) := by
  intro steps
  induction steps with
  | zero =>
    intro bytes out removed hlen hout h
    obtain rfl := List.length_eq_zero_iff.1 (Nat.le_zero.1 hlen)
    obtain ⟨rfl, rfl⟩ := Prod.mk.inj (Option.some.inj h)
    exact ⟨by simp [keptLines, textOf], hout, by simp⟩
  | succ steps ih =>
    intro bytes out removed hlen hout h
    unfold removeLines at h
    by_cases hnil : bytes = []
    · rw [hnil] at h ⊢
      obtain ⟨rfl, rfl⟩ := Prod.mk.inj (Option.some.inj h)
      exact ⟨by simp [keptLines, textOf], hout, by simp⟩
    rw [if_neg (by simpa using hnil)] at h
    have hnext := length_tail_dropWhile_lt hnil (· != newline)
    have hkept : keptLines name bytes = ([bytes.takeWhile (· != newline)].filter (· ≠ [])).filter
        (fun l => !isNamed name l) ++ keptLines name (bytes.dropWhile (· != newline)).tail := by
      rw [keptLines, textOf_walk hnil, List.filter_append]
      rfl
    rw [hkept, linesOf_walk hnil, List.any_cons]
    simp only at h
    split_ifs at h with hnamed hline hfull
    · -- the entry that is left out
      obtain ⟨hout', hfits, hremoved⟩ := ih _ out true (by omega) hout h
      refine ⟨hout'.trans ?_, hfits, ?_⟩
      · rw [List.filter_eq_nil_iff.2, List.nil_append]
        intro l hl
        obtain rfl := List.mem_singleton.1 (List.mem_filter.1 hl).1
        simp [hnamed]
      · rw [hremoved, hnamed]
        simp
    · rw [ge_iff_le, Nat.not_le] at hfull
      obtain ⟨hout', hfits, hremoved⟩ := ih _ _ removed (by omega) (by simpa using by omega) h
      have hne : bytes.takeWhile (· != newline) ≠ [] := List.length_pos_iff.1 hline
      refine ⟨hout'.trans ?_, hfits, ?_⟩
      · simp [hne, hnamed]
      · simp [hremoved, hnamed]
    · -- a blank line
      obtain ⟨hout', hfits, hremoved⟩ := ih _ out removed (by omega) hout h
      have hblank : bytes.takeWhile (· != newline) = [] := by simpa using hline
      refine ⟨hout'.trans ?_, hfits, ?_⟩
      · simp [hblank]
      · simp [hremoved, hnamed]

/-- Blank lines are not entries, so the entries are those of the other lines. -/
theorem entriesOf_eq (bytes : List UInt8) :
    entriesOf bytes = (textOf bytes).filterMap twParseAppLine := by
  rw [entriesOf, textOf, List.filterMap_filter]
  refine List.filterMap_congr fun l _ => ?_
  by_cases hl : l = []
  · simp [hl, twParseAppLine]
  · simp [hl]

/-- Parsing the lines that are kept is keeping the entries that are parsed. -/
theorem filterMap_keptLines (name bytes : List UInt8) :
    (keptLines name bytes).filterMap twParseAppLine = (entriesOf bytes).filter fun e =>
      ¬SameName e.name name := by
  rw [entriesOf_eq, keptLines, List.filterMap_filter, List.filter_filterMap]
  refine List.filterMap_congr fun l _ => ?_
  unfold isNamed
  cases twParseAppLine l with
  | none => simp
  | some e => simp [Option.filter_some, ← twStreqCi_iff]

/-- The lines of the new file are those that were kept. -/
theorem linesOf_keptLines (name bytes : List UInt8) :
    linesOf newline ((keptLines name bytes).flatMap (· ++ [newline])) = keptLines name bytes :=
  linesOf_flatMap fun _ hl => not_mem_of_mem_linesOf (List.mem_filter.1 (List.mem_filter.1 hl).1).1

/-! ## The command -/

section Command

variable {m : Mount} {R : List Nat} {s s' : Fs} {bytes : List UInt8} {d : Disk}

/-- The new file: every line that is no entry with the name is as it was, but for the blank ones,
and nothing else is there. -/
structure Filtered (name old new : List UInt8) : Prop where
  entries : entriesOf new = (entriesOf old).filter fun e => ¬SameName e.name name
  lines : textOf new = (textOf old).filter fun l => ∀ e ∈ twParseAppLine l, ¬SameName e.name name
  removed : ∃ e ∈ entriesOf old, SameName e.name name
  fits : new.length ≤ 511

theorem filtered_keptLines {name : List UInt8}
    (h : (linesOf newline bytes).any (isNamed name) = true)
    (hfits : ((keptLines name bytes).flatMap (· ++ [newline])).length < appWriteSize) :
    Filtered name bytes ((keptLines name bytes).flatMap (· ++ [newline])) where
  entries := by
    rw [entriesOf, linesOf_keptLines, filterMap_keptLines]
  lines := by
    have hnamed : ∀ l, isNamed name l = false ↔ ∀ e ∈ twParseAppLine l, ¬SameName e.name name := by
      intro l
      unfold isNamed
      cases twParseAppLine l with
      | none => simp
      | some e => simp [← twStreqCi_iff]
    rw [textOf, linesOf_keptLines, List.filter_eq_self.2, keptLines]
    · refine List.filter_congr fun l _ => ?_
      rw [Bool.eq_iff_iff, decide_eq_true_iff, ← hnamed, Bool.not_eq_true']
    · exact fun l hl => (List.mem_filter.1 (List.mem_filter.1 hl).1).2
  removed := by
    obtain ⟨l, hl, hnamed⟩ := List.any_eq_true.1 h
    unfold isNamed at hnamed
    cases he : twParseAppLine l with
    | none => simp [he] at hnamed
    | some e =>
      rw [he] at hnamed
      exact ⟨e, List.mem_filterMap.2 ⟨l, hl, he⟩, twStreqCi_iff.1 hnamed⟩
  fits := Nat.le_of_lt_succ hfits

/-- The file with the bytes in the place of what it held. -/
theorem fsWrite_truncated (g : Geometry m) (hb : Manifest m R s bytes) {out : List UInt8}
    (hout : out.length < appWriteSize) :
    Total (fsWrite m (some appsTxt) (some fun i => out.getD i 0)
      (.ofNat out.length) (fsWriteCreate ||| fsWriteTruncate)) s fun ok s' => ok = true →
        Manifest m R s' out := by
  refine (fsWrite_files g hb.ready (by decide)).mono fun ok s' hs' hok => ⟨hs'.1, ?_⟩
  have hset := (hs'.2.1 hok).files_self
  have hname : appsTxt.map upperAscii = appsTxt := by decide
  have hsize : (UInt32.ofNat out.length).toNat = out.length := by
    rw [UInt32.toNat_ofNat']
    unfold appWriteSize at hout
    exact Nat.mod_eq_of_lt (by omega)
  have htruncate : ¬((fsWriteCreate ||| fsWriteTruncate) &&& fsWriteTruncate = 0 ∧
      UInt32.ofNat out.length = 0) := fun h => absurd h.1 (by decide)
  rw [hname, hb.file, writtenBytes, if_neg (by decide), if_neg htruncate, hsize,
    bufferBytes_list] at hset
  exact hset

/-- On a well-formed volume, whatever `APPS.TXT` holds: an app that is reported as removed is
removed from it and nothing else is, and another answer but that the write failed leaves the disk
alone. -/
theorem appRemove_filters (g : Geometry m) (hw : WellFormed m R d)
    (hf : files m R d appsTxt = some bytes)
    (sector : Sector) (name : NameArg) (fileBuffer : FileBuffer) :
    Total (twAppRemove m name fileBuffer) (Fs.start d sector []) fun r s' =>
      (∀ nm, r.1 = .removed nm → name = some nm ∧ WellFormed m R s'.disk ∧
        ∃ new, files m R s'.disk appsTxt = some new ∧ Filtered nm bytes new) ∧
      (r.1 ≠ .failed → (∀ nm, r.1 ≠ .removed nm) → s'.disk = d) := by
  have hb : Manifest m R (Fs.start d sector []) bytes := ⟨hw.ready sector, hf⟩
  have hrefused : ∀ {reply : RemoveReply} {s' : Fs}, (∀ nm, reply ≠ .removed nm) → s'.disk = d →
      (∀ nm, reply = .removed nm → name = some nm ∧ WellFormed m R s'.disk ∧
        ∃ new, files m R s'.disk appsTxt = some new ∧ Filtered nm bytes new) ∧
      (reply ≠ .failed → (∀ nm, reply ≠ .removed nm) → s'.disk = d) :=
    fun hno hd => ⟨fun nm h => absurd h (hno nm), fun _ _ => hd⟩
  cases name with
  | none => exact (total_pure ..).2 (hrefused (fun _ h => by cases h) rfl)
  | some name =>
  refine (total_ite ..).2 ⟨fun _ =>
    (total_pure ..).2 (hrefused (fun _ h => by cases h) rfl), fun _ => ?_⟩
  refine (total_bind ..).2 ((twReadAppManifest_spec g hb fileBuffer).mono fun r s₁ hr => ?_)
  obtain ⟨size, buffer⟩ := r
  obtain ⟨hb₁, hd₁, hlong, hroom⟩ := hr
  by_cases hlen : 511 < bytes.length
  · obtain rfl := hlong hlen
    exact (total_pure ..).2 (hrefused (fun _ h => by cases h) hd₁)
  obtain ⟨rfl, hread⟩ := hroom (Nat.not_lt.1 hlen)
  simp only at hread
  simp only [hread]
  cases hlines : removeLines name bytes.length bytes [] false with
  | none => exact (total_pure ..).2 (hrefused (fun _ h => by cases h) hd₁)
  | some r =>
  obtain ⟨out, removed⟩ := r
  obtain ⟨hout, hfits, hremoved⟩ :=
    removeLines_spec name bytes.length bytes [] false (Nat.le_refl _) (by decide) hlines
  refine (total_ite ..).2 ⟨fun _ => (total_pure ..).2 (hrefused (fun _ h => by cases h) hd₁),
    fun hyes => ?_⟩
  have hany : (linesOf newline bytes).any (isNamed name) = true := by
    rw [hremoved, Bool.false_or] at hyes
    simpa using hyes
  refine (total_bind ..).2 ((fsWrite_truncated g hb₁ hfits).mono fun ok s₂ hok => ?_)
  refine (total_ite ..).2 ⟨fun _ =>
    (total_pure ..).2 ⟨fun _ h => (by cases h), fun h => absurd rfl h⟩,
      fun hwritten => (total_pure ..).2 ⟨fun nm h => ?_, fun _ h => absurd rfl (h name)⟩⟩
  obtain rfl := RemoveReply.removed.inj h
  have hb₂ := hok (by simpa using hwritten)
  refine ⟨rfl, hb₂.ready.wellFormed, out, hb₂.file, ?_⟩
  rw [List.nil_append] at hout
  rw [hout] at hfits ⊢
  exact filtered_keptLines hany hfits

end Command

/-- `a` is removed from a file of a comment and `A|b|c|d`. -/
theorem appRemove_commented : Total (runAll (Call.run tiny) [.create (some appsTxt),
      .writeFile (some appsTxt) (some fun i =>
        [0x23, 0x0A, 0x41, 0x7C, 0x62, 0x7C, 0x63, 0x7C, 0x64].getD i 0) 9])
      (Fs.start (blankDisk tiny) (fun _ => 0) []) fun _ s =>
    Total (twAppRemove tiny (some [0x61]) fun _ => 0) (Fs.start s.disk s.sector []) fun r s' =>
      r.1 = .removed [0x61] ∧ WellFormed tiny [2] s'.disk ∧
        ∃ new, files tiny [2] s'.disk appsTxt = some new ∧
        Filtered [0x61] [0x23, 0x0A, 0x41, 0x7C, 0x62, 0x7C, 0x63, 0x7C, 0x64] new := by
  have hrun : ((runAll (Call.run tiny) [.create (some appsTxt),
      .writeFile (some appsTxt) (some fun i =>
        [0x23, 0x0A, 0x41, 0x7C, 0x62, 0x7C, 0x63, 0x7C, 0x64].getD i 0) 9])
      (Fs.start (blankDisk tiny) (fun _ => 0) [])).map (fun x =>
      (files tiny [2] x.2.disk appsTxt, (twAppRemove tiny (some [0x61])
        (fun _ => 0) (Fs.start x.2.disk x.2.sector [])).map (·.1.1))) =
      some (some [0x23, 0x0A, 0x41, 0x7C, 0x62, 0x7C, 0x63, 0x7C, 0x64],
        some (.removed [0x61])) := by
    decide +kernel
  refine (ready_written _ 9).with_eq.mono fun bs s hs => ?_
  rw [hs.1] at hrun
  obtain ⟨hf, hremove⟩ := Prod.mk.inj (Option.some.inj hrun)
  obtain ⟨r, hremove, hreply⟩ := Option.map_eq_some_iff.1 hremove
  have hspec := appRemove_filters tiny_geometry hs.2.wellFormed hf s.sector (some [0x61]) fun _ => 0
  exact ⟨r.1, r.2, hremove, hreply, ((hspec.of_eq hremove).1 _ hreply).2⟩

end MinervaOS.Terminal
