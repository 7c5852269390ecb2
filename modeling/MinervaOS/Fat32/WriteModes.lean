import MinervaOS.Fat32.Refinement
import MinervaOS.Fat32.Runs

/-!
# `fs_write` and its flags

What `fs_write` leaves of the file follows from its flags, its size and what the file held. It is
what the flags promise except on one path: an overwrite of no bytes returns 1 at `fs_write_file`'s
check for an empty buffer, before anything is done to the file.
-/

namespace MinervaOS.Fat32

open Prog

variable {m : Mount} {R : List Nat} {s s' : Fs} {d d₁ d' : Disk} {nm sn : List UInt8}
  {buffer : BufferArg} {size flags : UInt32}

theorem Sets.trans {name : List UInt8} {v w : Option (List UInt8)} (h : Sets m R d d₁ name v)
    (h' : Sets m R d₁ d' name w) : Sets m R d d' name w :=
  ⟨h'.wellFormed, by rw [h'.files, h.files, Function.update_idem], h'.others.trans h.others⟩

theorem Sets.files_self {name : List UInt8} {v : Option (List UInt8)} (h : Sets m R d d' name v) :
    Fat32.files m R d' name = v := by
  rw [h.files, Function.update_self]

/-- What a successful `fs_write` leaves of a file that held `old`. -/
def writtenBytes (buffer : BufferArg) (size flags : UInt32) (old : List UInt8) : List UInt8 :=
  if flags &&& fsWriteAppend ≠ 0 then old ++ bufferBytes buffer size.toNat
  else if flags &&& fsWriteTruncate = 0 ∧ size = 0 then old
  else bufferBytes buffer size.toNat

theorem Ready.reads (hr : Ready m R s) (h : Reads s s') : Ready m R s' :=
  ⟨hr.safe.reads h, hr.whole.reads h, h.disk.symm ▸ hr.wellFormed⟩

theorem contents_of_no_cluster {n : Nat} {e : Dirent} (hw : WellFormed m R d)
    (he : Entry m R d sn n e) (h0 : firstCluster e = 0) : contents m d e = [] := by
  obtain ⟨l, hch, hcov⟩ := hw.covered n e he.dir he.live
  rw [h0] at hch
  rw [hch.eq_nil, List.length_nil, Nat.zero_mul] at hcov
  rw [contents, Nat.le_zero.1 hcov, List.take_zero]

section Calls

variable (g : Geometry m) (hr : Ready m R s)

include g hr

theorem fsWriteOpen_files (hnm : (makeShortNameChecked nm).isSome) :
    Total (fsWriteOpen m (some nm) buffer size flags) s fun ok s' => Ready m R s' ∧
      (ok = false → s'.disk = s.disk) ∧
      (ok = true → (flags &&& fsWriteExcl = 0 ∨ files m R s.disk (nm.map upperAscii) = none) ∧
        (flags &&& fsWriteCreate ≠ 0 ∨ (files m R s.disk (nm.map upperAscii)).isSome) ∧
        Sets m R s.disk s'.disk (nm.map upperAscii)
          (some ((files m R s.disk (nm.map upperAscii)).getD []))) ∧
      (ok = true → flags &&& fsWriteAppend = 0 ∨ flags &&& fsWriteTruncate = 0) ∧
      ((buffer.isSome ∨ size = 0) → (flags &&& fsWriteAppend = 0 ∨ flags &&& fsWriteTruncate = 0) →
        (files m R s.disk (nm.map upperAscii)).isSome → flags &&& fsWriteExcl = 0 → ok = true) := by
  obtain ⟨sn, hsn⟩ := Option.isSome_iff_exists.1 hnm
  have hw := hr.wellFormed
  have hshown := (shortName_of_checked hsn).2
  refine (whole_call hr.whole (fsWriteOpen_spec g (some nm) buffer size flags hr.safe)).mono ?_
  rintro ok s' ⟨hs', hwh', hout⟩
  have hc := hs'.consistent hwh'
  have hready : WellFormed m R s'.disk → Ready m R s' := fun hw' => ⟨hs', hwh', hw'⟩
  generalize s'.disk = d' at hout hc hready ⊢
  cases hout with
  | @found nm' sn' n e hnm' hsn' _ hone he hattr hexcl =>
    obtain rfl := Option.some.inj hnm'
    obtain rfl := Option.some.inj (hsn.symm.trans hsn')
    obtain ⟨bytes, hf⟩ : ∃ bytes, files m R s.disk (nm.map upperAscii) = some bytes :=
      ⟨_, hshown ▸ he.files_eq hw hattr⟩
    have hsets := sets_refl hw (nm.map upperAscii)
    rw [hf] at hsets ⊢
    exact ⟨hready hw, fun h => absurd h (by decide), fun _ => ⟨.inl hexcl, .inr rfl, hsets⟩,
      fun _ => hone, fun _ _ _ _ => rfl⟩
  | @created nm' sn' n e _ hnm' hsn' _ hone hcreate hno hfree hse =>
    obtain rfl := Option.some.inj hnm'
    obtain ⟨hf, hsets⟩ := CreateOut.sets g hw hc (.done rfl hsn' hno hfree hse)
    rw [hf]
    exact ⟨hready hsets.wellFormed, fun h => absurd h (by decide),
      fun _ => ⟨.inr rfl, .inl hcreate, hsets⟩, fun _ => hone, fun _ _ _ _ => rfl⟩
  | refused hwhy =>
    refine ⟨hready hw, fun _ => rfl, fun h => absurd h (by decide), fun h => absurd h (by decide),
      fun hbuf hone hsome hexcl => ?_⟩
    obtain ⟨bytes, hf⟩ := Option.isSome_iff_exists.1 hsome
    obtain ⟨n, e, he, hattr, -⟩ := entry_of_files hw hsn hf
    rcases hwhy nm sn rfl hsn hbuf hone with ⟨n', e', he', hbad⟩ | ⟨hno, -⟩
    · rw [(he.det hr.whole.exact he').2] at hbad
      simp [hattr, hexcl] at hbad
    · exact absurd he.name (hno n e he.dir he.live)

/-- `fs_write_file` has nothing to refuse about an overwrite of no bytes. -/
theorem fsWriteFile_zero (hnm : (makeShortNameChecked nm).isSome)
    (hf : (files m R s.disk (nm.map upperAscii)).isSome) :
    Total (fsWriteFile m (some nm) buffer 0) s fun ok _ => ok = true := by
  obtain ⟨sn, hsn⟩ := Option.isSome_iff_exists.1 hnm
  obtain ⟨bytes, hf⟩ := Option.isSome_iff_exists.1 hf
  obtain ⟨n, e, he, hattr, -⟩ := entry_of_files hr.wellFormed hsn hf
  refine (fsWriteFile_spec g (some nm) buffer 0 hr.safe).mono ?_
  rintro ok s' ⟨-, -, hwhole⟩
  have hout := (hwhole hr.whole).2
  generalize s'.disk = d at hout
  cases hout with
  | empty | reuse | alloc => rfl
  | refused hwhy => exact absurd rfl (hwhy nm sn n e rfl hsn he hattr (.inr rfl) (Nat.zero_le _)).1

theorem fsWrite_files (hnm : (makeShortNameChecked nm).isSome) :
    Total (fsWrite m (some nm) buffer size flags) s fun ok s' => Ready m R s' ∧
      (ok = true → Sets m R s.disk s'.disk (nm.map upperAscii)
        (some (writtenBytes buffer size flags
          ((files m R s.disk (nm.map upperAscii)).getD [])))) ∧
      (flags &&& fsWriteExcl ≠ 0 → (files m R s.disk (nm.map upperAscii)).isSome →
        ok = false ∧ s'.disk = s.disk) ∧
      (flags &&& fsWriteCreate = 0 → files m R s.disk (nm.map upperAscii) = none →
        ok = false ∧ s'.disk = s.disk) ∧
      (size = 0 → flags &&& fsWriteAppend = 0 → flags &&& fsWriteTruncate = 0 →
        flags &&& fsWriteExcl = 0 → (files m R s.disk (nm.map upperAscii)).isSome → ok = true) := by
  unfold fsWrite
  refine (total_bind ..).2 ((fsWriteOpen_files g hr hnm).mono ?_)
  rintro ok s₁ ⟨hr₁, hkept, hopen, hone, hmust⟩
  cases ok with
  | false =>
    refine (total_pure ..).2 ⟨hr₁, by simp, fun _ _ => ⟨rfl, hkept rfl⟩,
      fun _ _ => ⟨rfl, hkept rfl⟩, ?_⟩
    rintro h0 hap htr hex hsome
    exact hmust (.inr h0) (.inl hap) hsome hex
  | true =>
  obtain ⟨hexcl, hcreate, hsets₁⟩ := hopen rfl
  have hf₁ := hsets₁.files_self
  generalize (files m R s.disk (nm.map upperAscii)).getD [] = old at hsets₁ hf₁ ⊢
  -- the flags' guards have been passed
  suffices hrest : Total _ s₁ fun ok s' => Ready m R s' ∧ (ok = true → Sets m R s₁.disk s'.disk
      (nm.map upperAscii) (some (writtenBytes buffer size flags old))) ∧
      (size = 0 → flags &&& fsWriteAppend = 0 → flags &&& fsWriteTruncate = 0 → ok = true) by
    refine hrest.mono fun ok s' ⟨hr', hsets, hok⟩ => ⟨hr', fun h => hsets₁.trans (hsets h),
      fun hex hsome => ?_, fun hcr hnone => ?_, fun h0 hap htr _ _ => hok h0 hap htr⟩
    · rcases hexcl with hexcl | hnone
      · exact absurd hexcl hex
      · simp [hnone] at hsome
    · rcases hcreate with hcreate | hsome
      · exact absurd hcr hcreate
      · simp [hnone] at hsome
  refine (total_ite ..).2 ⟨fun h => by simp at h, fun _ => ?_⟩
  refine (total_ite ..).2 ⟨fun htr => (total_bind ..).2 ?_, fun htr => ?_⟩
  · -- truncate, then write what there is
    have htr' : flags &&& fsWriteTruncate ≠ 0 := by simpa using htr
    have hap : flags &&& fsWriteAppend = 0 := (hone rfl).resolve_right htr'
    have hbytes : writtenBytes buffer size flags old = bufferBytes buffer size.toNat := by
      rw [writtenBytes, if_neg (fun h => h hap), if_neg fun h => htr' h.1]
    rw [hbytes]
    refine (fsTruncateFile_files g hr₁).mono ?_
    rintro ok s₂ ⟨hr₂, hsets₂⟩
    refine (total_ite ..).2 ⟨fun hok =>
      (total_pure ..).2 ⟨hr₂, by simp, fun _ _ h => absurd h htr'⟩, fun hok => ?_⟩
    replace hsets₂ := (hsets₂ (by simpa using hok)).2
    refine (total_ite ..).2 ⟨fun h0 => (total_pure ..).2 ⟨hr₂, fun _ => ?_, fun _ _ _ => rfl⟩,
      fun h0 => (fsWriteFile_files g hr₂).mono ?_⟩
    · rw [h0]
      exact hsets₂
    · rintro ok s₃ ⟨hr₃, hsets₃⟩
      refine ⟨hr₃, fun hok => ?_, fun h => absurd h h0⟩
      have := (hsets₃ hok).2
      rw [if_neg h0] at this
      exact hsets₂.trans this
  have htr' : flags &&& fsWriteTruncate = 0 := by simpa using htr
  refine (total_ite ..).2 ⟨fun hap => ?_, fun hap => ?_⟩
  · -- append, or write to a file that has no cluster yet
    have hap' : flags &&& fsWriteAppend ≠ 0 := by simpa using hap
    have hbytes : writtenBytes buffer size flags old = old ++ bufferBytes buffer size.toNat := by
      rw [writtenBytes, if_pos hap']
    rw [hbytes]
    refine (total_ite ..).2 ⟨fun h0 =>
      (total_pure ..).2 ⟨hr₁, fun _ => ?_, fun _ h => absurd h hap'⟩,
        fun h0 => (total_bind ..).2 ?_⟩
    · have hrefl := sets_refl hr₁.wellFormed (nm.map upperAscii)
      rw [hf₁] at hrefl
      simpa [h0, bufferBytes] using hrefl
    refine (findRootEntryAt_spec g nm s₁ hr₁.safe.tidy).mono ?_
    rintro r s₂ ⟨hread, ⟨f, n, rfl, hf, hname⟩ | ⟨rfl, -⟩⟩
    swap
    · exact (total_pure ..).2 ⟨hr₁.reads hread, by simp, fun h => absurd h h0⟩
    have hr₂ := hr₁.reads hread
    rw [← hread.disk] at hf₁ ⊢
    refine (total_ite ..).2 ⟨fun hfirst => (fsWriteFile_files g hr₂).mono ?_,
      fun _ => (fsAppendFile_files g hr₂).mono ?_⟩
    · rintro ok s₃ ⟨hr₃, hsets₃⟩
      refine ⟨hr₃, fun hok => ?_, fun h => absurd h h0⟩
      have hsets := (hsets₃ hok).2
      rw [if_neg h0] at hsets
      -- a file without a cluster is empty
      obtain ⟨sn, hsn⟩ := Option.isSome_iff_exists.1 hnm
      rw [makeShortName_of_checked hsn] at hname
      obtain ⟨n', e, he, -, rfl⟩ := entry_of_files hr₂.wellFormed hsn hf₁
      have hent : Entry m R s₂.disk sn n f.entry := hread.disk.symm ▸ hf.toEntry hname
      rw [(hent.det hr₂.whole.exact he).2, contents_of_no_cluster hr₂.wellFormed hent hfirst,
        List.nil_append]
      exact hsets
    · rintro ok s₃ ⟨hr₃, hsets₃⟩
      refine ⟨hr₃, fun hok => ?_, fun h => absurd h h0⟩
      have hsets := (hsets₃ hok).2
      rwa [hf₁] at hsets
  · -- overwrite
    have hap' : flags &&& fsWriteAppend = 0 := by simpa using hap
    refine ((fsWriteFile_files g hr₁).with_eq).mono ?_
    rintro ok s₂ ⟨hrun, hr₂, hsets₂⟩
    refine ⟨hr₂, fun hok => ?_, fun h0 _ _ => ?_⟩
    · have hsets := (hsets₂ hok).2
      by_cases h0 : size = 0
      · have hbytes : writtenBytes buffer size flags old = old := by
          rw [writtenBytes, if_neg (fun h => h hap'), if_pos ⟨htr', h0⟩]
        rw [if_pos h0] at hsets
        have hrefl := sets_refl hr₁.wellFormed (nm.map upperAscii)
        rwa [hbytes, hsets, ← hf₁]
      · have hbytes : writtenBytes buffer size flags old = bufferBytes buffer size.toNat := by
          rw [writtenBytes, if_neg (fun h => h hap'), if_neg fun h => h0 h.2]
        rw [if_neg h0] at hsets
        rwa [hbytes]
    · subst h0
      exact (fsWriteFile_zero g hr₁ hnm (by rw [hf₁]; rfl)).of_eq hrun

end Calls

/-! ## What the flags promise -/

/-- `fs_write` returned `ok` and left `d'`: a written file holds what it held and the buffer, or the
buffer alone; an exclusive write leaves a file that is there alone, and a write that may not create
leaves one that is not there missing. -/
structure Promised (m : Mount) (R : List Nat) (name : List UInt8) (buffer : BufferArg)
    (size flags : UInt32) (d : Disk) (ok : Bool) (d' : Disk) : Prop where
  written : ok = true → files m R d' name = some
    (if flags &&& fsWriteAppend ≠ 0 then
      (files m R d name).getD [] ++ bufferBytes buffer size.toNat
    else bufferBytes buffer size.toNat)
  excl : flags &&& fsWriteExcl ≠ 0 → (files m R d name).isSome → d' = d
  create : flags &&& fsWriteCreate = 0 → files m R d name = none → d' = d

/-- `fs_write` keeps what its flags promise, except for an overwrite of a file that is not empty by
no bytes: that returns 1 and leaves the file as it was. -/
theorem fsWrite_promised_iff (g : Geometry m) (hw : WellFormed m R d) (sector : Sector)
    (hnm : (makeShortNameChecked nm).isSome) (buffer : BufferArg) (size flags : UInt32) :
    Total (fsWrite m (some nm) buffer size flags) (Fs.start d sector []) (fun ok s' =>
      Promised m R (nm.map upperAscii) buffer size flags d ok s'.disk) ↔
    ¬(size = 0 ∧ flags &&& fsWriteAppend = 0 ∧ flags &&& fsWriteTruncate = 0 ∧
      flags &&& fsWriteExcl = 0 ∧
      ∃ old, files m R d (nm.map upperAscii) = some old ∧ old ≠ []) := by
  have hspec := @fsWrite_files m R _ nm buffer size flags g (hw.ready sector) hnm
  constructor
  · rintro h ⟨rfl, hap, htr, hex, old, hf, hne⟩
    obtain ⟨ok, s', hrun, hpromised⟩ := h
    obtain ⟨-, hsets, -, -, hok⟩ := hspec.of_eq hrun
    have hold : files m R (Fs.start d sector []).disk (nm.map upperAscii) = some old := hf
    rw [hold] at hsets hok
    obtain rfl := hok rfl hap htr hex rfl
    have hafter := (hsets rfl).files_self
    rw [hpromised.written rfl, writtenBytes, if_neg (fun h => h hap), if_neg (fun h => h hap),
      if_pos ⟨htr, rfl⟩] at hafter
    exact hne (by simpa [bufferBytes] using hafter.symm)
  · intro hgood
    refine hspec.mono ?_
    rintro ok s' ⟨-, hsets, hexcl, hcreate, -⟩
    refine ⟨fun hok => ?_, fun hex hsome => (hexcl hex hsome).2,
      fun hcr hnone => (hcreate hcr hnone).2⟩
    have hdisk : (Fs.start d sector []).disk = d := rfl
    rw [(hsets hok).files_self, writtenBytes, hdisk]
    split
    · rfl
    rename_i hap
    split
    · rename_i hplain
      obtain ⟨htr, rfl⟩ := hplain
      cases hf : files m R d (nm.map upperAscii) with
      | none => rfl
      | some old =>
        -- not an exclusive write, which would have refused, so there was nothing to overwrite
        have hex : flags &&& fsWriteExcl = 0 := by
          by_contra hex
          have := (hexcl hex (by rw [hdisk, hf]; rfl)).1
          simp [hok] at this
        have hold : old = [] := by
          by_contra hne
          exact hgood ⟨rfl, by simpa using hap, htr, hex, old, hf, hne⟩
        rw [hold]
        rfl
    · rfl

theorem fsWrite_promised_tiny :
    Total (fsWrite tiny (some [0x61]) (some fun _ => 9) 3 fsWriteCreate)
      (Fs.start (blankDisk tiny) (fun _ => 0) []) fun ok s' =>
        Promised tiny [2] [0x41] (some fun _ => 9) 3 fsWriteCreate (blankDisk tiny) ok s'.disk :=
  (fsWrite_promised_iff tiny_geometry wellFormed_tiny _ (by decide) _ _ _).2
    fun h => absurd h.1 (by decide)

/-- A file of two bytes overwritten by none: `fs_write` returns 1 and the two bytes are still
there. -/
theorem fsWrite_overwrite_kept : Total (runAll (Call.run tiny)
      [.create (some [0x41]), .writeFile (some [0x41]) (some fun _ => 7) 2])
      (Fs.start (blankDisk tiny) (fun _ => 0) []) fun _ s =>
    WellFormed tiny [2] s.disk ∧ files tiny [2] s.disk [0x41] = some [7, 7] ∧
      Total (fsWrite tiny (some [0x41]) (some fun _ => 9) 0 0) (Fs.start s.disk s.sector [])
        fun ok s' => ok = true ∧ files tiny [2] s'.disk [0x41] = some [7, 7] ∧
          ¬Promised tiny [2] [0x41] (some fun _ => 9) 0 0 s.disk ok s'.disk := by
  have hready : Total (runAll (Call.run tiny)
      [.create (some [0x41]), .writeFile (some [0x41]) (some fun _ => 7) 2])
      (Fs.start (blankDisk tiny) (fun _ => 0) []) fun _ s => Ready tiny [2] s := by
    simp only [runAll, Call.run, total_bind, total_pure]
    refine (fsCreate_files tiny_geometry (wellFormed_tiny.ready _)).mono ?_
    rintro _ s₁ ⟨hr₁, -⟩
    exact (fsWriteFile_files tiny_geometry hr₁).mono fun _ _ h => h.1
  have hrun : ((runAll (Call.run tiny)
      [.create (some [0x41]), .writeFile (some [0x41]) (some fun _ => 7) 2])
      (Fs.start (blankDisk tiny) (fun _ => 0) [])).map (fun x => files tiny [2] x.2.disk [0x41]) =
        some (some [7, 7]) := by decide +kernel
  refine hready.with_eq.mono ?_
  rintro bs s ⟨hs, hr⟩
  have hf : files tiny [2] s.disk [0x41] = some [7, 7] := by
    rw [hs] at hrun
    exact Option.some.inj hrun
  refine ⟨hr.wellFormed, hf, ?_⟩
  refine (@fsWrite_files tiny [2] _ [0x41] (some fun _ => 9) 0 0 tiny_geometry
    (hr.wellFormed.ready s.sector) (by decide)).mono ?_
  rintro ok s' ⟨-, hsets, -, -, hok⟩
  have hold : files tiny [2] (Fs.start s.disk s.sector []).disk (List.map upperAscii [0x41]) =
      some [7, 7] := hf
  rw [hold] at hsets hok
  obtain rfl := hok rfl (by decide) (by decide) (by decide) rfl
  have hafter : files tiny [2] s'.disk [0x41] = some [7, 7] := (hsets rfl).files_self
  refine ⟨rfl, hafter, fun hp => ?_⟩
  have hwritten := hp.written rfl
  rw [hafter, if_neg (by decide)] at hwritten
  exact absurd hwritten (by decide)

end MinervaOS.Fat32
