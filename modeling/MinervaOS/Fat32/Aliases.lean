import MinervaOS.Fat32.Chunks

/-!
# Which strings open a file

The calls that name an entry check the name. A lookup cuts any string to eight and three bytes, so a
string outside the 8.3 grammar finds the file whose short name it is cut to.
-/

namespace MinervaOS.Fat32

open Prog

/-- The 8.3 grammar: a base, and behind a dot an extension. -/
def EightThree (name : List UInt8) : Prop :=
  ∃ base ext, base ≠ [] ∧ base.length ≤ 8 ∧ ext.length ≤ 3 ∧
    (∀ c ∈ base ++ ext, validShortNameChar c = true) ∧
    (name = base ∧ ext = [] ∨ name = base ++ dot :: ext ∧ ext ≠ [])

theorem ne_dot_of_valid {c : UInt8} (h : validShortNameChar c = true) : c ≠ dot := by
  rintro rfl
  exact absurd h (by decide)

theorem takeWhile_valid {base rest : List UInt8} (h : ∀ c ∈ base, validShortNameChar c = true) :
    (base ++ dot :: rest).takeWhile (· != dot) = base := by
  rw [List.takeWhile_append_of_pos fun c hc => by simpa using ne_dot_of_valid (h c hc)]
  simp

theorem makeShortNameChecked_isSome {name : List UInt8} :
    (makeShortNameChecked name).isSome ↔ EightThree name := by
  constructor
  · intro h
    obtain ⟨sn, hsn⟩ := Option.isSome_iff_exists.1 h
    obtain ⟨base, ext, -, hne, hb, he, hvalid, hvalid', -, hname⟩ := makeShortNameChecked_some hsn
    refine ⟨base, ext, hne, hb, he, ?_, hname⟩
    intro c hc
    rcases List.mem_append.1 hc with hc | hc
    · exact hvalid c hc
    · exact hvalid' c hc
  · rintro ⟨base, ext, hne, hb, he, hvalid, hname⟩
    have hbase : ∀ c ∈ base, validShortNameChar c = true := fun c hc => hvalid c (by simp [hc])
    have hext : ∀ c ∈ ext, validShortNameChar c = true := fun c hc => hvalid c (by simp [hc])
    have hnodot : ∀ c ∈ base, (c != dot) = true :=
      fun c hc => by simpa using ne_dot_of_valid (hbase c hc)
    have hok : ¬(base.length > 8 || !base.all validShortNameChar || base.isEmpty) = true := by
      simpa [hne, hb] using hbase
    unfold makeShortNameChecked
    rcases hname with ⟨rfl, rfl⟩ | ⟨rfl, hne'⟩
    · have htake : name.takeWhile (· != dot) = name := List.takeWhile_eq_self_iff.2 hnodot
      have hdrop : name.dropWhile (· != dot) = [] := List.dropWhile_eq_nil_iff.2 hnodot
      simp only [htake, hdrop, if_neg hok, Option.isSome_some]
    · have hdrop : (base ++ dot :: ext).dropWhile (· != dot) = dot :: ext := by
        rw [List.dropWhile_append_of_pos hnodot]
        simp
      have hok' : ¬(ext.length > 3 || !ext.all (fun c => c != dot && validShortNameChar c) ||
          ext.isEmpty) = true := by
        simpa [hne', he] using fun c hc => ⟨ne_dot_of_valid (hext c hc), hext c hc⟩
      simp only [takeWhile_valid hbase, hdrop, if_neg hok, if_neg hok', Option.isSome_some]

theorem upperAscii_upperAscii (c : UInt8) : upperAscii (upperAscii c) = upperAscii c := by
  grind [upperAscii]

theorem upperAscii_eq_dot {c : UInt8} : upperAscii c = dot ↔ c = dot := by
  grind [upperAscii, dot]

theorem valid_upperAscii (c : UInt8) :
    validShortNameChar (upperAscii c) = validShortNameChar c := by
  unfold validShortNameChar
  rw [upperAscii_upperAscii]

/-- The grammar does not tell the cases of the letters apart. -/
theorem eightThree_upper {name : List UInt8} :
    EightThree (name.map upperAscii) ↔ EightThree name := by
  constructor
  · rintro ⟨base, ext, hne, hb, he, hvalid, hname⟩
    rcases hname with ⟨rfl, rfl⟩ | ⟨hname, hne'⟩
    · refine ⟨name, [], by simpa using hne, by simpa using hb, he, ?_, .inl ⟨rfl, rfl⟩⟩
      intro c hc
      rw [List.append_nil] at hc
      have hup := hvalid (upperAscii c) (by simpa using ⟨c, hc, rfl⟩)
      rwa [valid_upperAscii] at hup
    · obtain ⟨base', rest, rfl, rfl, hrest⟩ := List.map_eq_append_iff.1 hname
      obtain ⟨x, ext', rfl, hx, rfl⟩ := List.map_eq_cons_iff.1 hrest
      rw [upperAscii_eq_dot.1 hx]
      refine ⟨base', ext', by simpa using hne, by simpa using hb, by simpa using he, ?_,
        .inr ⟨rfl, by simpa using hne'⟩⟩
      intro c hc
      have hup := hvalid (upperAscii c) (by rw [← List.map_append]; exact List.mem_map_of_mem hc)
      rwa [valid_upperAscii] at hup
  · rintro ⟨base, ext, hne, hb, he, hvalid, hname⟩
    refine ⟨base.map upperAscii, ext.map upperAscii, by simpa using hne, by simpa using hb,
      by simpa using he, ?_, ?_⟩
    · intro c hc
      rw [← List.map_append] at hc
      obtain ⟨x, hx, rfl⟩ := List.mem_map.1 hc
      rw [valid_upperAscii]
      exact hvalid x hx
    · rcases hname with ⟨rfl, rfl⟩ | ⟨rfl, hne'⟩
      · exact .inl ⟨rfl, rfl⟩
      · have hdot : upperAscii dot = dot := upperAscii_eq_dot.2 rfl
        refine .inr ⟨?_, by simpa using hne'⟩
        rw [List.map_append, List.map_cons, hdot]

/-! ## The volume -/

variable {m : Mount} {R : List Nat} {s s' : Fs} {d d' : Disk} {name : List UInt8}

/-- The live entries have names that passed `make_short_name_checked`. -/
def Named (m : Mount) (R : List Nat) (d : Disk) : Prop :=
  ∀ (n : Nat) (e : Dirent), (vol m R d).dir[n]? = some e → Live e →
    ∃ nm, makeShortNameChecked nm = some e.name

/-- An edit of a slot that names its entry by a checked name, or leaves its name. -/
theorem Named.set (h : Named m R d) {n : Nat} {x : Dirent}
    (hdir : (vol m R d').dir = (vol m R d).dir.set n x)
    (hx : ∃ nm, makeShortNameChecked nm = some x.name) : Named m R d' := by
  intro i e he hl
  rw [hdir, List.getElem?_set] at he
  by_cases hin : n = i
  · rw [if_pos hin] at he
    split at he
    · obtain rfl := Option.some.inj he
      exact hx
    · cases he
  · rw [if_neg hin] at he
    exact h i e he hl

theorem Named.create (g : Geometry m) (hc : Consistent m R d) (h : Named m R d) (sector : Sector)
    (name : NameArg) :
    Total (fsCreate m name) (Fs.start d sector []) fun _ s' => Named m R s'.disk := by
  refine (fsCreate_spec g name (hc.safe sector [])).mono ?_
  rintro ok s' ⟨-, -, hout⟩
  obtain ⟨-, hout⟩ := hout (hc.whole sector)
  have ht := hc.tidy
  generalize s'.disk = d₁ at hout
  cases hout with
  | done hnm hsn hno hfree hse =>
    refine h.set
      (congrArg Vol.dir (hse.vol_eq g ht.root.walk.nodup (fun _ => ht.root.two_le) hfree.dir)) ?_
    rw [Dirent.name_newDirent (length_makeShortNameChecked hsn)]
    exact ⟨_, hsn⟩
  | refused _ => exact h

theorem Named.rename (g : Geometry m) (hc : Consistent m R d) (h : Named m R d) (sector : Sector)
    (oldName newName : NameArg) :
    Total (fsRenameFile m oldName newName) (Fs.start d sector []) fun _ s' =>
      Named m R s'.disk := by
  refine (fsRenameFile_spec g oldName newName (hc.safe sector [])).mono ?_
  rintro ok s' ⟨-, -, hout⟩
  obtain ⟨-, hout⟩ := hout (hc.whole sector)
  have ht := hc.tidy
  generalize s'.disk = d₁ at hout
  cases hout with
  | done hold hnew hsn he hattr hno hse =>
    refine h.set
      (congrArg Vol.dir (hse.vol_eq g ht.root.walk.nodup (fun _ => ht.root.two_le) he.dir)) ?_
    rw [Dirent.name_withName _ (length_makeShortNameChecked hsn)]
    exact ⟨_, hsn⟩
  | refused => exact h

/-- A file has the short name that `name` is cut to. -/
def Aliased (m : Mount) (R : List Nat) (d : Disk) (name : List UInt8) : Prop :=
  ∃ n e, Entry m R d (makeShortName name) n e ∧ e.attr &&& 0x10 = 0

/-- `fs_open`, `fs_create` and `fs_rename_file` take `name` for the file that is listed as `name` in
upper case: `fs_open` opens that file, and no other; a file that `fs_create` makes is listed so; and
`fs_rename_file` gives that file the new name. No string outside the grammar opens a file. -/
structure Denotes (m : Mount) (R : List Nat) (d : Disk) (sector : Sector) (name : List UInt8) :
    Prop where
  opened : Total (fsOpen m (some name)) (Fs.start d sector []) fun r _ =>
    r = (listedFile m R d (name.map upperAscii)).map (handle · 0) ∧ (r.isSome → EightThree name)
  created : Total (fsCreate m (some name)) (Fs.start d sector []) fun ok s' => ok = true →
    listedFile m R d (name.map upperAscii) = none ∧
      Sets m R d s'.disk (name.map upperAscii) (some [])
  renamed : ∀ new : List UInt8, Total (fsRenameFile m (some name) (some new)) (Fs.start d sector [])
    fun ok s' => ok = true → Renames m R d s'.disk (name.map upperAscii) (new.map upperAscii)

theorem listedFile_eq_none (hnone : files m R d name = none) :
    listedFile m R d name = none := by
  have hfiles : files m R d name = (listedFile m R d name).map (contents m d) := rfl
  rw [hfiles] at hnone
  exact Option.map_eq_none_iff.1 hnone

/-- The entry of the file listed as a name of the grammar has the short name that the name is cut
to. -/
theorem Named.name_eq (hw : WellFormed m R d) (hnamed : Named m R d) {n : Nat} {e : Dirent}
    (he : (vol m R d).dir[n]? = some e) (hl : Live e)
    (hname : shortNameToString e.name = name.map upperAscii) :
    EightThree name ∧ e.name = makeShortName name := by
  obtain ⟨nm, hnm⟩ := hnamed n e he hl
  have hshown := (shortName_of_checked hnm).2
  have hup : nm.map upperAscii = name.map upperAscii := hshown.symm.trans hname
  have hgrammar : EightThree name := by
    rw [← eightThree_upper, ← hup, eightThree_upper, ← makeShortNameChecked_isSome, hnm]
    rfl
  refine ⟨hgrammar, ?_⟩
  obtain ⟨sn, hsn⟩ := Option.isSome_iff_exists.1 (makeShortNameChecked_isSome.2 hgrammar)
  rw [makeShortName_of_checked hsn]
  refine (hw.named n e he hl).inj (shortName_of_checked hsn).1 ?_
  rw [hname, (shortName_of_checked hsn).2]

section

variable (g : Geometry m) (hw : WellFormed m R d) (hnamed : Named m R d) (sector : Sector)

include g hw hnamed

theorem fsOpen_listed (hname : EightThree name ∨ ¬Aliased m R d name) :
    Total (fsOpen m (some name)) (Fs.start d sector []) fun r _ =>
      r = (listedFile m R d (name.map upperAscii)).map (handle · 0) ∧
        (r.isSome → EightThree name) := by
  have hx := hw.consistent.exact
  refine (fsOpen_spec g (some name) (hw.consistent.safe sector []) rfl).mono ?_
  rintro r s' ⟨-, ⟨nm, n, e, hnm, he, hattr, rfl⟩ | ⟨rfl, hnone⟩⟩
  · obtain rfl := Option.some.inj hnm
    have hgrammar : EightThree name := hname.resolve_right fun hno => hno ⟨n, e, he, hattr⟩
    obtain ⟨sn, hsn⟩ := Option.isSome_iff_exists.1 (makeShortNameChecked_isSome.2 hgrammar)
    have hlisted : listedFile m R d (name.map upperAscii) = some e := by
      refine (listedFile_eq_some hw).2 ⟨n, he.dir, ⟨he.live, hattr⟩, ?_⟩
      rw [he.name, makeShortName_of_checked hsn, (shortName_of_checked hsn).2]
    rw [hlisted]
    exact ⟨rfl, fun _ => hgrammar⟩
  · have hlisted : listedFile m R d (name.map upperAscii) = none := by
      refine Option.eq_none_iff_forall_ne_some.2 ?_
      intro e he
      obtain ⟨n, hn, hf, hshown⟩ := (listedFile_eq_some hw).1 he
      have hcut : Entry m R d (makeShortName name) n e :=
        ⟨hn, hf.1, (hnamed.name_eq hw hn hf.1 hshown).2⟩
      rcases hnone name rfl with hno | ⟨n', e', he', hattr'⟩
      · exact hno n e hn hf.1 hcut.name
      · rw [(hcut.det hx he').2] at hattr'
        exact hattr' hf.2
    rw [hlisted]
    exact ⟨rfl, fun h => absurd h (by decide)⟩

omit hnamed in
theorem fsCreate_listed :
    Total (fsCreate m (some name)) (Fs.start d sector []) fun ok s' => ok = true →
    listedFile m R d (name.map upperAscii) = none ∧
      Sets m R d s'.disk (name.map upperAscii) (some []) := by
  refine (fsCreate_files g (hw.ready sector)).mono ?_
  intro ok s' h hok
  obtain ⟨hnone, hsets⟩ := h.2 hok
  exact ⟨listedFile_eq_none hnone, hsets⟩

omit hnamed in
theorem fsRenameFile_listed (hname : EightThree name ∨ ¬Aliased m R d name) (new : List UInt8) :
    Total (fsRenameFile m (some name) (some new)) (Fs.start d sector []) fun ok s' => ok = true →
      Renames m R d s'.disk (name.map upperAscii) (new.map upperAscii) := by
  rcases hname with hgrammar | hno
  · exact (fsRenameFile_files g (hw.ready sector) (makeShortNameChecked_isSome.2 hgrammar)).mono
      fun _ _ h => h.2
  · refine (fsRenameFile_spec g (some name) (some new) (hw.consistent.safe sector [])).mono ?_
    rintro ok s' ⟨-, -, hout⟩ hok
    obtain ⟨-, hout⟩ := hout (hw.consistent.whole sector)
    subst hok
    generalize s'.disk = d₁ at hout
    cases hout with
    | done hold _ _ he hattr =>
      obtain rfl := Option.some.inj hold
      exact absurd ⟨_, _, he, hattr⟩ hno

/-- On a volume whose entries were named by `fs_create` and `fs_rename_file`, the calls take a
string for the file listed under it exactly when the string is in the 8.3 grammar or cut to no
file's short name. -/
theorem denotes_iff : Denotes m R d sector name ↔ EightThree name ∨ ¬Aliased m R d name := by
  constructor
  · intro h
    by_contra hno
    rw [not_or, not_not] at hno
    obtain ⟨hgrammar, n, e, he, hattr⟩ := hno
    have hopen :=
      fsOpen_entry g (hw.consistent.safe sector []) (hw.consistent.whole sector) he hattr
    obtain ⟨r, s', -, ⟨-, rfl⟩, -, hsome⟩ := hopen.and h.opened
    exact hgrammar (hsome rfl)
  · intro h
    exact ⟨fsOpen_listed g hw hnamed sector h, fsCreate_listed g hw sector,
      fsRenameFile_listed g hw sector h⟩

end

theorem named_tiny : Named tiny [2] (blankDisk tiny) := fun _ _ he hl =>
  absurd hl (not_live_blank tiny_geometry (by decide) he).2

theorem denotes_tiny : Denotes tiny [2] (blankDisk tiny) (fun _ => 0) [0x61, 0x2E, 0x62] :=
  (denotes_iff tiny_geometry wellFormed_tiny named_tiny _).2
    (.inl ⟨[0x61], [0x62], by decide, by decide, by decide, List.all_eq_true.1 (by decide),
      .inr ⟨rfl, by decide⟩⟩)

/-- With the file "ABCDEFGH.I" on the volume, the string "ABCDEFGHI" opens it. -/
theorem longName_opens : Total (fsCreate tiny (some
      [0x41, 0x42, 0x43, 0x44, 0x45, 0x46, 0x47, 0x48, 0x2E, 0x49]))
      (Fs.start (blankDisk tiny) (fun _ => 0) []) fun _ s =>
    WellFormed tiny [2] s.disk ∧ Named tiny [2] s.disk ∧
      ¬EightThree [0x41, 0x42, 0x43, 0x44, 0x45, 0x46, 0x47, 0x48, 0x49] ∧
      files tiny [2] s.disk [0x41, 0x42, 0x43, 0x44, 0x45, 0x46, 0x47, 0x48, 0x49] = none ∧
      Total (fsOpen tiny (some [0x41, 0x42, 0x43, 0x44, 0x45, 0x46, 0x47, 0x48, 0x49]))
        (Fs.start s.disk s.sector []) fun r _ => r.isSome := by
  have hready := (fsCreate_files tiny_geometry (wellFormed_tiny.ready fun _ => 0)).and
    (named_tiny.create tiny_geometry consistent_tiny (fun _ => 0)
      (some [0x41, 0x42, 0x43, 0x44, 0x45, 0x46, 0x47, 0x48, 0x2E, 0x49]))
  have hrun : ((fsCreate tiny (some [0x41, 0x42, 0x43, 0x44, 0x45, 0x46, 0x47, 0x48, 0x2E, 0x49]))
      (Fs.start (blankDisk tiny) (fun _ => 0) [])).map (fun x =>
        (files tiny [2] x.2.disk [0x41, 0x42, 0x43, 0x44, 0x45, 0x46, 0x47, 0x48, 0x49],
          ((fsOpen tiny (some [0x41, 0x42, 0x43, 0x44, 0x45, 0x46, 0x47, 0x48, 0x49]))
            (Fs.start x.2.disk x.2.sector [])).map fun y => y.1.isSome)) =
              some (none, some true) := by
    decide
  refine hready.with_eq.mono ?_
  rintro ok s ⟨hs, ⟨hr, -⟩, hnamed⟩
  rw [hs] at hrun
  obtain ⟨hfiles, hopen⟩ := Prod.mk.inj (Option.some.inj hrun)
  obtain ⟨⟨r, t⟩, ht, hsome⟩ := Option.map_eq_some_iff.1 hopen
  refine ⟨hr.wellFormed, hnamed, ?_, hfiles, r, t, ht, hsome⟩
  rw [← makeShortNameChecked_isSome]
  decide

end MinervaOS.Fat32
