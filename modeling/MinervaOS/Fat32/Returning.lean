import MinervaOS.Fat32.Termination

/-!
# Which calls return

`WalksEnd` says of a call that the walks of the root directory it makes come to an end, each on the
disk as it then is. On a disk that serves every access a call returns exactly then (`returns_iff`);
a root directory whose cluster chain is a cycle and which has no free slot is one on which no lookup
of a new name does.
-/

namespace MinervaOS.Fat32

open Prog

variable {m : Mount} {s s' : Fs} {d : Disk}

/-- The calls of the interface: those that change the volume, and those that do not. -/
inductive Op where
  | listRoot
  | openFile (name : NameArg)
  | read (file : FsFile) (buffer : BufferArg) (count : Nat)
  | readFile (name : NameArg) (buffer : BufferArg) (bufferSize : UInt32)
  | mutate (c : Call)

/-- The call returns. -/
def Op.Returns (m : Mount) (s : Fs) : Op → Prop
  | .listRoot => Total (fsListRoot m) s fun _ _ => True
  | .openFile name => Total (fsOpen m name) s fun _ _ => True
  | .read file buffer count => Total (fsRead m file buffer count) s fun _ _ => True
  | .readFile name buffer bufferSize =>
      Total (fsReadFile m name buffer bufferSize) s fun _ _ => True
  | .mutate c => Total (c.run m) s fun _ _ => True

/-- A name that `make_short_name_checked` takes. -/
def ValidName (nm : List UInt8) : Prop := (makeShortNameChecked nm).isSome = true

/-- A buffer that is not null, or of no bytes. -/
def GoodBuffer (buffer : BufferArg) (size : UInt32) : Prop := ¬(buffer.isNone && size > 0) = true

/-- The lookup of a call on one file comes to an end. -/
def LookupEnds (m : Mount) (d : Disk) (name : NameArg) : Prop :=
  ∀ nm, name = some nm → ValidName nm → NameEnds m d nm

def WriteFileEnds (m : Mount) (d : Disk) (name : NameArg) (buffer : BufferArg)
    (size : UInt32) : Prop :=
  GoodBuffer buffer size → size.toNat ≤ bytesPerCluster m → LookupEnds m d name

/-- The walks that a call makes come to an end. -/
def Call.WalksEnd (m : Mount) (s : Fs) : Call → Prop
  | .create name | .truncateFile name | .deleteFile name => LookupEnds m s.disk name
  | .writeFile name buffer size => WriteFileEnds m s.disk name buffer size
  | .appendFile name buffer size => GoodBuffer buffer size → size ≠ 0 → LookupEnds m s.disk name
  | .renameFile oldName newName => ∀ old new, oldName = some old → newName = some new →
      ValidName new → NameEnds m s.disk old ∧
        ∀ p, ScansTo m s.disk (lookFor (makeShortName old)) m.bpb.rootCluster (some p) →
          (slotEntry s.disk p).attr &&& 0x10 = 0 → NameEnds m s.disk new
  | .write name buffer size flags =>
      (GoodBuffer buffer size →
        ¬(flags &&& fsWriteAppend != 0 && flags &&& fsWriteTruncate != 0) = true →
        LookupEnds m s.disk name) ∧
      ∀ s₁, fsWriteOpen m name buffer size flags s = some (true, s₁) →
        if flags &&& fsWriteTruncate ≠ 0 then
          LookupEnds m s₁.disk name ∧ (size ≠ 0 → ∀ s₂, fsTruncateFile m name s₁ = some (true, s₂) →
            WriteFileEnds m s₂.disk name buffer size)
        else if flags &&& fsWriteAppend ≠ 0 then size ≠ 0 → LookupEnds m s₁.disk name
        else WriteFileEnds m s₁.disk name buffer size

def Op.WalksEnd (m : Mount) (s : Fs) : Op → Prop
  | .listRoot => DirEnds m s.disk lookEnd
  | .openFile name => ∀ nm, name = some nm → NameEnds m s.disk nm
  | .read _ _ _ => True
  | .readFile name buffer bufferSize => GoodBuffer buffer bufferSize →
      ∀ nm, name = some nm → NameEnds m s.disk nm
  | .mutate c => c.WalksEnd m s

section Accepted

variable (hm : m.mounted = true) (g : 0 < m.bpb.sectorsPerCluster) (hrel : s.faults = [])

include hm hrel

theorem fsOpen_returns_iff (name : NameArg) : Total (fsOpen m name) s (fun _ _ => True) ↔
    ∀ nm, name = some nm → NameEnds m s.disk nm := by
  cases name with
  | none => exact iff_of_true ((total_pure ..).2 trivial) fun _ h => by cases h
  | some nm =>
    unfold fsOpen
    simp only [hm, Bool.not_true, Bool.false_eq_true, if_false]
    rw [total_bind, total_findRootEntry, ← total_bind, lookup_returns_iff hrel]
    · exact ⟨fun h nm' h' => Option.some.inj h' ▸ h, fun h => h nm rfl⟩
    intro f
    cases f with
    | none => exact .pure _
    | some f => exact .ite (fun _ => .pure _) fun _ => .pure _

include g in
theorem fsReadFile_returns_iff (name : NameArg) (buffer : BufferArg) (bufferSize : UInt32) :
    Total (fsReadFile m name buffer bufferSize) s (fun _ _ => True) ↔
      (GoodBuffer buffer bufferSize → ∀ nm, name = some nm → NameEnds m s.disk nm) := by
  unfold fsReadFile
  rw [total_guard]
  refine imp_congr_right fun _ => ?_
  rw [← fsOpen_returns_iff hm hrel, total_bind]
  constructor
  · intro h
    exact h.mono fun _ _ _ => trivial
  · intro h
    refine h.mono fun f s₁ _ => ?_
    cases f with
    | none => exact (total_pure ..).2 trivial
    | some f =>
      exact (total_bind ..).2 ((fsRead_returns g f buffer _ s₁).mono fun x s₂ _ =>
        (total_pure ..).2 trivial)

omit hm hrel in
/-- A call checks the name first. -/
theorem total_valid {nm : List UInt8} {p : Prog Fs Bool} {P : Prop}
    (hno : makeShortNameChecked nm = none → p = pure false)
    (h : ∀ sn, makeShortNameChecked nm = some sn → (Total p s (fun _ _ => True) ↔ P)) :
    Total p s (fun _ _ => True) ↔ (ValidName nm → P) := by
  unfold ValidName
  cases hv : makeShortNameChecked nm with
  | none =>
    rw [hno hv]
    exact iff_of_true ((total_pure ..).2 trivial) fun hval => by cases hval
  | some sn =>
    rw [h sn hv]
    exact ⟨fun hp _ => hp, fun hp => hp rfl⟩

omit hm hrel in
theorem lookupEnds_some {nm : List UInt8} :
    LookupEnds m d (some nm) ↔ (ValidName nm → NameEnds m d nm) :=
  ⟨fun h => h nm rfl, fun h _ h' => Option.some.inj h' ▸ h⟩

omit hm hrel in
theorem lookupEnds_none : LookupEnds m d none := fun _ h => by cases h

theorem fsCreate_returns_iff (name : NameArg) : Total (fsCreate m name) s (fun _ _ => True) ↔
    LookupEnds m s.disk name := by
  cases name with
  | none => exact iff_of_true ((total_pure ..).2 trivial) lookupEnds_none
  | some nm =>
    unfold fsCreate
    simp only [hm, Bool.not_true, Bool.false_eq_true, if_false]
    rw [lookupEnds_some]
    refine total_valid (fun hv => by rw [hv]) fun sn hv => ?_
    rw [hv]
    change Total (findRootEntry m nm >>= _) s _ ↔ _
    rw [total_bind, total_findRootEntry, ← findRootEntryAt_returns_iff hrel nm]
    constructor
    · intro h
      exact h.mono fun _ _ _ => trivial
    · intro h
      refine (findRootEntryAt_quiet hrel ((findRootEntryAt_returns_iff hrel nm).1 h)).mono ?_
      intro f s₁ ⟨hq, r, hr, hf⟩
      rw [total_guard]
      intro hnone
      cases r with
      | some p =>
        rw [hf] at hnone
        exact absurd rfl hnone
      | none =>
        -- the search for a free slot ends where the lookup did
        obtain ⟨r', hr'⟩ := hr.free _ rfl
        rw [← hq.disk] at hr'
        refine (total_bind ..).2 ((scanRoot_spec_any hr' hq.reliable).mono fun p s₂ _ => ?_)
        cases p with
        | none => exact (total_pure ..).2 trivial
        | some p => exact (total_bind ..).2 ((total_modify ..).2 (ataWriteSector_returns _ _))

omit hm hrel in
/-- The steps behind the lookup of `fs_truncate_file` and `fs_delete_file`. -/
theorem freeAndEdit_returns (f : Found) (edit : Sector → Sector) : Returns (do
    if firstCluster f.entry ≥ 2 then
      if !(← freeClusterChain m (firstCluster f.entry)) then return false
    if !(← ataReadSector f.lba) then return false
    modifySector edit
    ataWriteSector f.lba) := by
  refine .ite (fun _ => .bind (freeClusterChain_returns _) fun _ =>
    .ite (fun _ => .pure _) fun _ => ?_)
    fun _ => ?_
  · exact editSector_returns f.lba edit
  · exact editSector_returns f.lba edit

theorem fsTruncateFile_returns_iff (name : NameArg) :
    Total (fsTruncateFile m name) s (fun _ _ => True) ↔ LookupEnds m s.disk name := by
  cases name with
  | none => exact iff_of_true ((total_pure ..).2 trivial) lookupEnds_none
  | some nm =>
    unfold fsTruncateFile
    simp only [hm, Bool.not_true, Bool.false_eq_true, if_false]
    rw [lookupEnds_some]
    refine total_valid (fun hv => by rw [hv]) fun sn hv => ?_
    rw [hv]
    refine lookup_returns_iff hrel nm fun f => ?_
    cases f with
    | none => exact .pure _
    | some f => exact .ite (fun _ => .pure _) fun _ => freeAndEdit_returns f _

theorem fsDeleteFile_returns_iff (name : NameArg) :
    Total (fsDeleteFile m name) s (fun _ _ => True) ↔ LookupEnds m s.disk name := by
  cases name with
  | none => exact iff_of_true ((total_pure ..).2 trivial) lookupEnds_none
  | some nm =>
    unfold fsDeleteFile
    simp only [hm, Bool.not_true, Bool.false_eq_true, if_false]
    rw [lookupEnds_some]
    refine total_valid (fun hv => by rw [hv]) fun sn hv => ?_
    rw [hv]
    refine lookup_returns_iff hrel nm fun f => ?_
    cases f with
    | none => exact .pure _
    | some f => exact .ite (fun _ => .pure _) fun _ => freeAndEdit_returns f _

/-- Behind the checks of the buffer. -/
theorem fsWriteFile_returns_iff (name : NameArg) (buffer : BufferArg) (size : UInt32) :
    Total (fsWriteFile m name buffer size) s (fun _ _ => True) ↔
      WriteFileEnds m s.disk name buffer size := by
  unfold WriteFileEnds
  cases name with
  | none => exact iff_of_true ((total_pure ..).2 trivial) fun _ _ => lookupEnds_none
  | some nm =>
    unfold fsWriteFile
    simp only [hm, Bool.not_true, Bool.false_or]
    rw [total_guard, lookupEnds_some]
    refine imp_congr_right fun _ => ?_
    refine Iff.trans ?_ imp.swap
    refine total_valid (fun hv => by rw [hv]) fun sn hv => ?_
    rw [hv]
    change Total (if _ then _ else _) s _ ↔ _
    rw [total_guard, Nat.not_lt]
    refine imp_congr_right fun _ => lookup_returns_iff hrel nm fun f => ?_
    cases f with
    | none => exact .pure _
    | some f =>
      have hcommit : ∀ target, Returns (do
          if !(← ataReadSector f.lba) then return false
          modifySector fun sec => setSize (setCluster sec f.index target) f.index size.toNat
          ataWriteSector f.lba) := fun _ => editSector_returns _ _
      refine .ite (fun _ => .pure _) fun _ => .ite (fun _ => .pure _) fun _ => .ite (fun _ => ?_)
        fun _ => ?_
      · refine .ite (fun _ => .pure _) fun _ => .bind findFreeCluster_returns fun t => ?_
        cases t with
        | none => exact .pure _
        | some t =>
          exact .bind (writeBufferToCluster_returns _ _ _) fun _ => .ite (fun _ => .pure _) fun _ =>
            .bind (writeFatCopies_returns _ _ _ _) fun _ =>
              .ite (fun _ => .pure _) fun _ => hcommit _
      · exact .bind (clusterIsSingle_returns _) fun _ => .ite (fun _ => .pure _) fun _ =>
          .bind (writeBufferToCluster_returns _ _ _) fun _ =>
            .ite (fun _ => .pure _) fun _ => hcommit _

include g in
theorem fsAppendFile_returns_iff (name : NameArg) (buffer : BufferArg) (size : UInt32) :
    Total (fsAppendFile m name buffer size) s (fun _ _ => True) ↔
      (GoodBuffer buffer size → size ≠ 0 → LookupEnds m s.disk name) := by
  cases name with
  | none => exact iff_of_true ((total_pure ..).2 trivial) fun _ _ => lookupEnds_none
  | some nm =>
    unfold fsAppendFile
    simp only [hm, Bool.not_true, Bool.false_or]
    rw [total_guard, lookupEnds_some]
    refine imp_congr_right fun _ => ?_
    rw [total_guard]
    refine imp_congr_right fun _ => ?_
    refine total_valid (fun hv => by rw [hv]) fun sn hv => ?_
    rw [hv]
    refine lookup_returns_iff hrel nm fun f => ?_
    cases f with
    | none => exact .pure _
    | some f =>
      refine .ite (fun _ => .pure _) fun _ => .ite (fun _ => .pure _) fun _ =>
        .bind (appendSeek_returns (Nat.mul_pos g (by decide)) _ _ _ (Nat.le_refl _)) fun x => ?_
      cases x with
      | none => exact .pure _
      | some x =>
        refine .bind (readFatEntry_returns _) fun t => ?_
        cases t with
        | none => exact .pure _
        | some t =>
          refine .ite (fun _ => .pure _) fun _ =>
            .bind (appendFill_returns _ _ _ _ _ _ (Nat.sub_le _ _)) fun w => ?_
          cases w with
          | none => exact .pure _
          | some w =>
            exact .bind (appendGrow_returns (Nat.mul_pos g (by decide)) _ _ _ _ _ (Nat.sub_le _ _))
              fun _ => .ite (fun _ => .pure _) fun _ => editSector_returns _ _

omit hm hrel in
/-- The second lookup of `fs_rename_file` is made only for an entry that is a file. -/
theorem renameTarget_returns_iff {old new : List UInt8} {f : Option Found} {r : Option (Nat × Nat)}
    (edit : Found → Sector → Sector) (hq : Quiet s s')
    (hr : ScansTo m s.disk (lookFor (makeShortName old)) m.bpb.rootCluster r)
    (hf : f = r.map fun p => ⟨slotEntry s.disk p, p.1, p.2⟩) :
    Total (match f with
      | some f =>
        if f.entry.attr &&& 0x10 != 0 then pure false
        else do
          if (← findRootEntry m new).isSome then return false
          if !(← ataReadSector f.lba) then return false
          modifySector (edit f)
          ataWriteSector f.lba
      | _ => pure false) s' (fun _ _ => True) ↔
      ∀ p, ScansTo m s.disk (lookFor (makeShortName old)) m.bpb.rootCluster (some p) →
        (slotEntry s.disk p).attr &&& 0x10 = 0 → NameEnds m s.disk new := by
  subst hf
  cases r with
  | none => exact iff_of_true ((total_pure ..).2 trivial) fun p hp => by cases hr.det hp
  | some p =>
    change Total (if _ then _ else _) s' _ ↔ _
    have hdir : ∀ a : UInt8, ¬(a &&& 0x10 != 0) = true ↔ a &&& 0x10 = 0 := by simp
    rw [total_guard, hdir]
    have hlook : Total (findRootEntry m new >>= fun x => do
          if x.isSome then return false
          if !(← ataReadSector p.1) then return false
          modifySector (edit ⟨slotEntry s.disk p, p.1, p.2⟩)
          ataWriteSector p.1) s' (fun _ _ => True) ↔ NameEnds m s.disk new := by
      rw [total_bind, total_findRootEntry, ← total_bind, ← hq.disk]
      exact lookup_returns_iff hq.reliable new fun f => .ite (fun _ => .pure _)
        fun _ => editSector_returns _ _
    constructor
    · intro h p' hp' hfile
      cases Option.some.inj (hr.det hp')
      exact hlook.1 (h hfile)
    · intro h hfile
      exact hlook.2 (h p hr hfile)

theorem fsRenameFile_returns_iff (oldName newName : NameArg) :
    Total (fsRenameFile m oldName newName) s (fun _ _ => True) ↔
      ∀ old new, oldName = some old → newName = some new → ValidName new → NameEnds m s.disk old ∧
        ∀ p, ScansTo m s.disk (lookFor (makeShortName old)) m.bpb.rootCluster (some p) →
          (slotEntry s.disk p).attr &&& 0x10 = 0 → NameEnds m s.disk new := by
  cases oldName with
  | none => exact iff_of_true ((total_pure ..).2 trivial) fun _ _ h => by cases h
  | some old =>
  cases newName with
  | none => exact iff_of_true ((total_pure ..).2 trivial) fun _ _ _ h => by cases h
  | some new =>
    unfold fsRenameFile
    simp only [hm, Bool.not_true, Bool.false_eq_true, if_false]
    have hcond : (∀ o n, some old = some o → some new = some n → ValidName n → NameEnds m s.disk o ∧
        ∀ p, ScansTo m s.disk (lookFor (makeShortName o)) m.bpb.rootCluster (some p) →
          (slotEntry s.disk p).attr &&& 0x10 = 0 → NameEnds m s.disk n) ↔
        (ValidName new → NameEnds m s.disk old ∧
          ∀ p, ScansTo m s.disk (lookFor (makeShortName old)) m.bpb.rootCluster (some p) →
            (slotEntry s.disk p).attr &&& 0x10 = 0 → NameEnds m s.disk new) :=
      ⟨fun h => h old new rfl rfl, fun h _ _ h₁ h₂ => Option.some.inj h₁ ▸ Option.some.inj h₂ ▸ h⟩
    rw [hcond]
    refine total_valid (fun hv => by rw [hv]) fun sn hv => ?_
    rw [hv]
    change Total (findRootEntryAt m old >>= _) s _ ↔ _
    rw [total_bind, ← findRootEntryAt_returns_iff hrel old]
    constructor
    · intro h
      have hends := h.mono fun _ _ _ => trivial
      refine ⟨hends, ?_⟩
      obtain ⟨f, s₁, hrun, ⟨hq, r, hr, hf⟩, hrest⟩ :=
        (findRootEntryAt_quiet hrel ((findRootEntryAt_returns_iff hrel old).1 hends)).and h
      exact (renameTarget_returns_iff _ hq hr hf).1 hrest
    · intro ⟨hends, hnew⟩
      refine (findRootEntryAt_quiet hrel ((findRootEntryAt_returns_iff hrel old).1 hends)).mono ?_
      intro f s₁ ⟨hq, r, hr, hf⟩
      exact (renameTarget_returns_iff _ hq hr hf).2 hnew

theorem fsWriteOpen_returns_iff (name : NameArg) (buffer : BufferArg) (size flags : UInt32) :
    Total (fsWriteOpen m name buffer size flags) s (fun _ _ => True) ↔
      (GoodBuffer buffer size →
        ¬(flags &&& fsWriteAppend != 0 && flags &&& fsWriteTruncate != 0) = true →
        LookupEnds m s.disk name) := by
  cases name with
  | none => exact iff_of_true ((total_pure ..).2 trivial) fun _ _ => lookupEnds_none
  | some nm =>
    unfold fsWriteOpen
    simp only [hm, Bool.not_true, Bool.false_or]
    rw [total_guard, lookupEnds_some]
    refine imp_congr_right fun _ => ?_
    rw [total_guard]
    refine imp_congr_right fun _ => ?_
    refine total_valid (fun hv => by rw [hv]) fun sn hv => ?_
    rw [hv]
    change Total (findRootEntryAt m nm >>= _) s _ ↔ _
    rw [total_bind, ← findRootEntryAt_returns_iff hrel nm]
    constructor
    · intro h
      exact h.mono fun _ _ _ => trivial
    · intro h
      have hends := (findRootEntryAt_returns_iff hrel nm).1 h
      refine (findRootEntryAt_quiet hrel hends).mono fun f s₁ ⟨hq, _⟩ => ?_
      cases f with
      | some f =>
        exact Returns.ite (fun _ => .pure _) (fun _ => .ite (fun _ => .pure _) fun _ => .pure _) s₁
      | none =>
        change Total (if _ then _ else _) s₁ _
        rw [total_guard]
        intro _
        refine (fsCreate_returns_iff hm hq.reliable (some nm)).2 (lookupEnds_some.2 fun _ => ?_)
        rw [hq.disk]
        exact hends

end Accepted

/-! ## The disk stays reliable -/

def Reliable (s : Fs) : Prop := s.faults = []

theorem ataReadSector_reliable (lba : Nat) : Keeps Reliable (ataReadSector lba) := fun _ _ _ hs h =>
  ((ataReadSector_quiet hs lba).of_eq h).1.reliable

theorem ataWriteSector_reliable (lba : Nat) : Keeps Reliable (ataWriteSector lba) := by
  intro s a s' hs h
  refine Total.of_eq (Q := fun _ t => Reliable t) ?_ h
  refine (total_ite ..).2 ⟨fun _ => (total_pure ..).2 hs, fun _ => (total_bind ..).2 ?_⟩
  refine (total_get ..).2
    ((total_ite ..).2 ⟨fun _ => (total_bind ..).2 ?_, fun _ => (total_bind ..).2 ?_⟩)
  · exact (total_set ..).2 ((total_pure ..).2 (congrArg List.tail hs))
  · exact (total_set ..).2 ((total_pure ..).2 (congrArg List.tail hs))

theorem modifySector_reliable (f : Sector → Sector) : Keeps Reliable (modifySector f) :=
  .modify fun _ hs => hs

theorem readFatEntry_reliable (c : Nat) : Keeps Reliable (readFatEntry m c) :=
  .bind (ataReadSector_reliable _) fun _ => .ite (fun _ => .pure _) fun _ =>
    .bind .get fun _ => .pure _

theorem writeFatCopies_reliable (c v : Nat) : ∀ n j, Keeps Reliable (writeFatCopies m c v n j)
  | 0, _ => .pure _
  | n + 1, j => .bind (ataReadSector_reliable _) fun _ => .ite (fun _ => .pure _) fun _ =>
      .bind (modifySector_reliable _) fun _ => .bind (ataWriteSector_reliable _) fun _ => .ite
        (fun _ => .pure _) fun _ => writeFatCopies_reliable c v n (j + 1)

theorem freeFrom_reliable (n c : Nat) : Keeps Reliable (freeFrom m n c) := by
  induction n generalizing c with
  | zero =>
    unfold freeFrom
    exact .ite (fun _ => .pure _) fun _ => .ite (fun _ => .pure _) fun _ => .pure _
  | succ n ih =>
    unfold freeFrom
    refine .ite (fun _ => .pure _) fun _ => .ite (fun _ => .pure _) fun _ => ?_
    refine .bind (readFatEntry_reliable c) fun v => ?_
    cases v with
    | none => exact .pure _
    | some v =>
      exact .bind (writeFatCopies_reliable _ _ _ _) fun _ => .ite (fun _ => .pure _) fun _ => ih v

theorem freeClusterChain_reliable (c : Nat) : Keeps Reliable (freeClusterChain m c) :=
  .ite (fun _ => .pure _) fun _ => freeFrom_reliable _ _

theorem scanSectors_reliable (look : Dirent → Scan Unit) (c : Nat) : ∀ n k,
    Keeps Reliable (scanSectors m look c n k)
  | 0, _ => .pure _
  | n + 1, k => by
    refine .bind (ataReadSector_reliable _) fun _ => .ite (fun _ => .pure _) fun _ => .bind .get
      fun s => ?_
    cases scanSlots look s.sector (List.range 16) with
    | stop | hit => exact .pure _
    | next => exact scanSectors_reliable look c n (k + 1)

theorem scanRoot_reliable (look : Dirent → Scan Unit) : ∀ n c, Keeps Reliable (scanRoot m look n c)
  | 0, _ => .failure
  | n + 1, c => by
    refine .ite (fun _ => .pure _) fun _ => .bind (scanSectors_reliable look c _ _) fun x => ?_
    cases x with
    | stop | hit => exact .pure _
    | next =>
      refine .bind (.bind (ataReadSector_reliable _) fun _ => .ite (fun _ => .pure _) fun _ =>
        .bind .get fun _ => .pure _) fun c' => scanRoot_reliable look n c'

theorem findRootEntryAt_reliable (nm : List UInt8) : Keeps Reliable (findRootEntryAt m nm) := by
  refine .bind (scanRoot_reliable _ _ _) fun r => ?_
  cases r with
  | none => exact .pure _
  | some p => exact .bind .get fun _ => .pure _

theorem findRootEntry_reliable (nm : List UInt8) : Keeps Reliable (findRootEntry m nm) := by
  refine .bind (findRootEntryAt_reliable nm) fun r => ?_
  cases r <;> exact .pure _

theorem fsCreate_reliable (name : NameArg) : Keeps Reliable (fsCreate m name) := by
  cases name with
  | none => exact .pure _
  | some nm =>
    refine .ite (fun _ => .pure _) fun _ => ?_
    cases makeShortNameChecked nm with
    | none => exact .pure _
    | some sn =>
      refine .bind (findRootEntry_reliable nm) fun _ => .ite (fun _ => .pure _) fun _ => ?_
      refine .bind (scanRoot_reliable _ _ _) fun r => ?_
      cases r with
      | none => exact .pure _
      | some p => exact .bind (modifySector_reliable _) fun _ => ataWriteSector_reliable _

theorem fsWriteOpen_reliable (name : NameArg) (buffer : BufferArg) (size flags : UInt32) :
    Keeps Reliable (fsWriteOpen m name buffer size flags) := by
  cases name with
  | none => exact .pure _
  | some nm =>
    refine .ite (fun _ => .pure _) fun _ => .ite (fun _ => .pure _) fun _ => ?_
    cases makeShortNameChecked nm with
    | none => exact .pure _
    | some sn =>
      refine .bind (findRootEntryAt_reliable nm) fun f => ?_
      cases f with
      | none => exact .ite (fun _ => .pure _) fun _ => fsCreate_reliable _
      | some f => exact .ite (fun _ => .pure _) fun _ => .ite (fun _ => .pure _) fun _ => .pure _

theorem fsTruncateFile_reliable (name : NameArg) : Keeps Reliable (fsTruncateFile m name) := by
  cases name with
  | none => exact .pure _
  | some nm =>
    refine .ite (fun _ => .pure _) fun _ => ?_
    cases makeShortNameChecked nm with
    | none => exact .pure _
    | some sn =>
      refine .bind (findRootEntryAt_reliable nm) fun f => ?_
      cases f with
      | none => exact .pure _
      | some f =>
        have hedit : Keeps Reliable (do
            if !(← ataReadSector f.lba) then return false
            modifySector fun sec => setSize (setCluster sec f.index 0) f.index 0
            ataWriteSector f.lba) :=
          .bind (ataReadSector_reliable _) fun _ => .ite (fun _ => .pure _) fun _ =>
            .bind (modifySector_reliable _) fun _ => ataWriteSector_reliable _
        exact .ite (fun _ => .pure _) fun _ => .ite (fun _ => .bind (freeClusterChain_reliable _)
          fun _ => .ite (fun _ => .pure _) fun _ => hedit) fun _ => hedit

/-! ## All calls -/

section All

variable (hm : m.mounted = true) (g : 0 < m.bpb.sectorsPerCluster) (hrel : s.faults = [])

include hm g hrel

/-- What `fs_write` does once the file is there. -/
theorem fsWriteRest_returns_iff (nm : List UInt8) (buffer : BufferArg) (size flags : UInt32)
    (hval : ValidName nm) : Total (do
      if flags &&& fsWriteTruncate != 0 then
        if !(← fsTruncateFile m (some nm)) then return false
        if size = 0 then return true
        return ← fsWriteFile m (some nm) buffer size
      if flags &&& fsWriteAppend != 0 then
        if size = 0 then return true
        let some current ← findRootEntryAt m nm | return false
        if firstCluster current.entry = 0 then return ← fsWriteFile m (some nm) buffer size
        return ← fsAppendFile m (some nm) buffer size
      fsWriteFile m (some nm) buffer size) s (fun _ _ => True) ↔
    if flags &&& fsWriteTruncate ≠ 0 then
      LookupEnds m s.disk (some nm) ∧
        (size ≠ 0 → ∀ s₂, fsTruncateFile m (some nm) s = some (true, s₂) →
        WriteFileEnds m s₂.disk (some nm) buffer size)
    else if flags &&& fsWriteAppend ≠ 0 then size ≠ 0 → LookupEnds m s.disk (some nm)
    else WriteFileEnds m s.disk (some nm) buffer size := by
  have hbool : ∀ a : UInt32, (a != 0) = true ↔ a ≠ 0 := by simp
  simp only [hbool]
  by_cases htrunc : flags &&& fsWriteTruncate ≠ 0
  · rw [if_pos htrunc, if_pos htrunc, total_bind, ← fsTruncateFile_returns_iff hm hrel (some nm)]
    constructor
    · intro h
      refine ⟨h.mono fun _ _ _ => trivial, fun hsize s₂ hrun => ?_⟩
      have hrest := h.of_eq hrun
      have hrel₂ := fsTruncateFile_reliable (some nm) s true s₂ hrel hrun
      simp only [Bool.not_true, Bool.false_eq_true, if_false, if_neg hsize] at hrest
      exact (fsWriteFile_returns_iff hm hrel₂ (some nm) buffer size).1 hrest
    · intro ⟨h, hwrite⟩
      obtain ⟨ok, s₂, hrun, -⟩ := h
      have hrel₂ := fsTruncateFile_reliable (some nm) s ok s₂ hrel hrun
      refine ⟨ok, s₂, hrun, ?_⟩
      cases ok with
      | false => exact (total_pure ..).2 trivial
      | true =>
        simp only [Bool.not_true, Bool.false_eq_true, if_false]
        rw [total_guard]
        intro hsize
        exact (fsWriteFile_returns_iff hm hrel₂ (some nm) buffer size).2 (hwrite hsize s₂ hrun)
  rw [if_neg htrunc, if_neg htrunc]
  by_cases happ : flags &&& fsWriteAppend ≠ 0
  · rw [if_pos happ, if_pos happ, total_guard]
    refine imp_congr_right fun hsize => ?_
    have hlook : LookupEnds m s.disk (some nm) ↔ NameEnds m s.disk nm :=
      lookupEnds_some.trans ⟨fun h => h hval, fun h _ => h⟩
    rw [hlook, total_bind, ← findRootEntryAt_returns_iff hrel nm]
    constructor
    · intro h
      exact h.mono fun _ _ _ => trivial
    · intro h
      have hends := (findRootEntryAt_returns_iff hrel nm).1 h
      refine (findRootEntryAt_quiet hrel hends).mono fun f s₁ ⟨hq, _⟩ => ?_
      rw [← hq.disk] at hends
      have hl : LookupEnds m s₁.disk (some nm) := lookupEnds_some.2 fun _ => hends
      cases f with
      | none => exact (total_pure ..).2 trivial
      | some f =>
        refine (total_ite ..).2 ⟨fun _ => ?_, fun _ => ?_⟩
        · exact (fsWriteFile_returns_iff hm hq.reliable ..).2 fun _ _ => hl
        · exact (fsAppendFile_returns_iff hm g hq.reliable ..).2 fun _ _ => hl
  · rw [if_neg happ, if_neg happ]
    exact fsWriteFile_returns_iff hm hrel (some nm) buffer size

omit hm g hrel in
theorem fsWriteOpen_valid {nm : List UInt8} {buffer : BufferArg} {size flags : UInt32}
    (h : fsWriteOpen m (some nm) buffer size flags s = some (true, s')) : ValidName nm := by
  unfold ValidName
  cases hv : makeShortNameChecked nm with
  | some sn => rfl
  | none =>
    have hno : Total (fsWriteOpen m (some nm) buffer size flags) s fun ok _ => ok = false := by
      simp only [fsWriteOpen, hv]
      refine (total_ite ..).2 ⟨fun _ => (total_pure ..).2 rfl, fun _ => ?_⟩
      exact (total_ite ..).2 ⟨fun _ => (total_pure ..).2 rfl, fun _ => (total_pure ..).2 rfl⟩
    cases hno.of_eq h

theorem fsWrite_returns_iff (name : NameArg) (buffer : BufferArg) (size flags : UInt32) :
    Total (fsWrite m name buffer size flags) s (fun _ _ => True) ↔
      (Call.write name buffer size flags).WalksEnd m s := by
  simp only [Call.WalksEnd]
  rw [← fsWriteOpen_returns_iff hm hrel]
  cases name with
  | none =>
    refine iff_of_true ((total_pure ..).2 trivial) ⟨(total_pure ..).2 trivial, fun s₁ h => ?_⟩
    cases (total_pure false s fun ok _ => ok = false).2 rfl |>.of_eq h
  | some nm =>
    change Total (fsWriteOpen m (some nm) buffer size flags >>= _) s _ ↔ _
    have hrest :=
        fun {s₁} (hopen : fsWriteOpen m (some nm) buffer size flags s = some (true, s₁)) =>
      fsWriteRest_returns_iff hm g (fsWriteOpen_reliable _ buffer size flags s true s₁ hrel hopen)
        nm buffer size flags (fsWriteOpen_valid hopen)
    rw [total_bind]
    constructor
    · intro h
      exact ⟨h.mono fun _ _ _ => trivial, fun s₁ hopen => (hrest hopen).1 (h.of_eq hopen)⟩
    · intro ⟨⟨ok, s₁, hopen, _⟩, h⟩
      refine ⟨ok, s₁, hopen, ?_⟩
      cases ok with
      | false => exact (total_pure ..).2 trivial
      | true => exact (hrest hopen).2 (h s₁ hopen)

end All

/-- What `fs_init` makes of a boot sector it accepts. -/
theorem fsInit_accepts {s₀ s₁ : Fs} (h : fsInit s₀ = some (some m, s₁)) :
    m.mounted = true ∧ 0 < m.bpb.sectorsPerCluster := by
  have hinit : Total fsInit s₀ fun r _ => ∀ m, r = some m →
      m.mounted = true ∧ 0 < m.bpb.sectorsPerCluster := by
    obtain ⟨ok, s, hrun, -⟩ := ataReadSector_returns 0 s₀
    refine (total_bind_of_eq hrun).2 ((total_ite ..).2 ⟨fun _ => (total_pure ..).2 (by simp),
      fun _ => (total_bind ..).2 ((total_get ..).2 ?_)⟩)
    refine (total_ite ..).2 ⟨fun _ => (total_pure ..).2 (by simp), fun hok => (total_pure ..).2 ?_⟩
    intro m hm
    obtain rfl := Option.some.inj hm
    simp only [acceptsBpb, Bool.not_eq_true', Bool.not_eq_false, Bool.and_eq_true,
      bne_iff_ne] at hok
    exact ⟨rfl, Nat.pos_of_ne_zero hok.1.1.2⟩
  exact hinit.of_eq h m rfl

/-- A call on an accepted volume, with a disk that serves every access, returns exactly when the
walks of the root directory that it makes come to an end. -/
theorem returns_iff {s₀ s₁ : Fs} (hinit : fsInit s₀ = some (some m, s₁)) (hrel : s.faults = [])
    (op : Op) : op.Returns m s ↔ op.WalksEnd m s := by
  obtain ⟨hm, g⟩ := fsInit_accepts hinit
  cases op with
  | listRoot => exact fsListRoot_returns_iff hm hrel
  | openFile name => exact fsOpen_returns_iff hm hrel name
  | read file buffer count => exact iff_of_true (fsRead_returns g file buffer count s) trivial
  | readFile name buffer size => exact fsReadFile_returns_iff hm g hrel name buffer size
  | mutate c =>
    cases c with
    | create name => exact fsCreate_returns_iff hm hrel name
    | writeFile name buffer size => exact fsWriteFile_returns_iff hm hrel name buffer size
    | appendFile name buffer size => exact fsAppendFile_returns_iff hm g hrel name buffer size
    | truncateFile name => exact fsTruncateFile_returns_iff hm hrel name
    | write name buffer size flags => exact fsWrite_returns_iff hm g hrel name buffer size flags
    | deleteFile name => exact fsDeleteFile_returns_iff hm hrel name
    | renameFile oldName newName => exact fsRenameFile_returns_iff hm hrel oldName newName

/-! ## A root directory without an end -/

/-- The boot sector of a volume of four clusters of one sector, with one FAT of one sector. -/
def bootSector : Sector := fun o =>
  if o = 12 then 0x02 else if o = 13 ∨ o = 14 ∨ o = 16 ∨ o = 36 then 1
  else if o = 19 then 6 else if o = 44 then 2
  else if o = 510 then 0x55 else if o = 511 then 0xAA else 0

/-- Cluster 2 follows itself, and all its slots are files. -/
def cyclicDisk : Disk := fun lba =>
  if lba = 0 then bootSector
  else if lba = 1 then wr32 (fun _ => 0) 8 2
  else fun _ => 0x41

def cyclicMount : Mount := mountOf (bpbOf bootSector)

theorem fsInit_cyclic : fsInit (Fs.start cyclicDisk (fun _ => 0) []) =
    some (some cyclicMount, { Fs.start cyclicDisk bootSector [] with trace := [.read 0 true] }) :=
      rfl

theorem returns_iff_cyclic :
    (Op.openFile
      (some [0x41, 0x41, 0x41, 0x41, 0x41, 0x41, 0x41, 0x41, 0x2E, 0x41, 0x41, 0x41])).Returns
      cyclicMount (Fs.start cyclicDisk bootSector []) := by
  refine (returns_iff fsInit_cyclic rfl _).2 fun nm hnm => ⟨some (2, 0), ?_⟩
  cases hnm
  exact .hit (by decide) (by decide)

/-- `fs_open` of a name that is not there goes round for ever. -/
theorem open_cyclic : Total fsInit (Fs.start cyclicDisk (fun _ => 0) []) fun r s =>
    ∃ m, r = some m ∧ s.faults = [] ∧ ¬(Op.openFile (some [0x42])).Returns m s := by
  refine ⟨_, _, fsInit_cyclic, cyclicMount, rfl, rfl, fun h => ?_⟩
  obtain ⟨r, hr⟩ := (fsOpen_returns_iff rfl rfl (some [0x42])).1 h [0x42] rfl
  have hscan : scanOn cyclicMount cyclicDisk (lookFor (makeShortName [0x42])) 2 1 0 = .next := by
    decide
  have hnext : nextOn cyclicMount cyclicDisk 2 = 2 := by decide
  have hnever : ∀ c r,
      ScansTo cyclicMount cyclicDisk (lookFor (makeShortName [0x42])) c r → c ≠ 2 := by
    intro c r h
    induction h with
    | eoc hc =>
      rintro rfl
      exact absurd hc (by decide)
    | stop _ hs | hit _ hs =>
      rintro rfl
      cases hscan.symm.trans hs
    | next _ _ _ ih =>
      rintro rfl
      exact ih hnext
  exact hnever _ r hr rfl

end MinervaOS.Fat32
