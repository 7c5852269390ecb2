import MinervaOS.Fat32.Append
import MinervaOS.Fat32.Blank

/-!
# Runs of the file system

A run is any list of calls, one after the other, on a mounted volume. On a reliable disk each call
keeps the volume consistent, whatever it returns, and so does a run. With accesses refused anywhere,
no chain ever contains a free cluster and no cluster in use is handed out again, as long as no
deletion or truncation is torn: those two free a chain before they edit the entry that names it,
where `fs_append_file` and `fs_write_file` publish a cluster last.
-/

namespace MinervaOS.Fat32

open Prog

variable {m : Mount} {R : List Nat} {s s' : Fs} {d : Disk}

/-! ## `fs_write` -/

/-- What `fs_write` has done on a reliable disk when it comes to choose what to write. -/
inductive OpenOut (m : Mount) (R : List Nat) (name : NameArg) (buffer : BufferArg)
    (size flags : UInt32) (d : Disk) : Bool → Disk → Prop
  | found {nm sn : List UInt8} {n : Nat} {e : Dirent} : name = some nm →
      makeShortNameChecked nm = some sn → (buffer.isSome ∨ size = 0) →
      (flags &&& fsWriteAppend = 0 ∨ flags &&& fsWriteTruncate = 0) → Entry m R d sn n e →
      e.attr &&& 0x10 = 0 → flags &&& fsWriteExcl = 0 → OpenOut m R name buffer size flags d true d
  | created {nm sn : List UInt8} {n : Nat} {e : Dirent} {d' : Disk} : name = some nm →
      makeShortNameChecked nm = some sn → (buffer.isSome ∨ size = 0) →
      (flags &&& fsWriteAppend = 0 ∨ flags &&& fsWriteTruncate = 0) →
      flags &&& fsWriteCreate ≠ 0 → NoEntry m R d sn → FirstFree m R d n e →
        SlotEdit m R d d' n (fun _ => newDirent sn) →
      OpenOut m R name buffer size flags d true d'
  | refused : (∀ nm sn, name = some nm → makeShortNameChecked nm = some sn →
      (buffer.isSome ∨ size = 0) →
      (flags &&& fsWriteAppend = 0 ∨ flags &&& fsWriteTruncate = 0) →
      (∃ n e, Entry m R d sn n e ∧ (e.attr &&& 0x10 ≠ 0 ∨ flags &&& fsWriteExcl ≠ 0)) ∨
        NoEntry m R d sn ∧ (flags &&& fsWriteCreate = 0 ∨ DirFull m R d)) →
      OpenOut m R name buffer size flags d false d

theorem fsWriteOpen_spec (g : Geometry m) (name : NameArg) (buffer : BufferArg)
    (size flags : UInt32) (hs : Safe m R s) :
    Total (fsWriteOpen m name buffer size flags) s fun ok s' => Extends s s' ∧ Safe m R s' ∧
      (Whole m R s → Whole m R s' ∧ OpenOut m R name buffer size flags s.disk ok s'.disk) := by
  have hkeep : ∀ s', Reads s s' → (Whole m R s → ∀ nm sn, name = some nm →
      makeShortNameChecked nm = some sn → (buffer.isSome ∨ size = 0) →
      (flags &&& fsWriteAppend = 0 ∨ flags &&& fsWriteTruncate = 0) →
      (∃ n e, Entry m R s.disk sn n e ∧ (e.attr &&& 0x10 ≠ 0 ∨ flags &&& fsWriteExcl ≠ 0)) ∨
        NoEntry m R s.disk sn ∧ (flags &&& fsWriteCreate = 0 ∨ DirFull m R s.disk)) →
      Extends s s' ∧ Safe m R s' ∧ (Whole m R s → Whole m R s' ∧
        OpenOut m R name buffer size flags s.disk false s'.disk) :=
    fun s' hr h => ⟨hr.ext, hs.reads hr, fun hw => ⟨hw.reads hr, hr.disk.symm ▸ .refused (h hw)⟩⟩
  cases name with
  | none => exact (total_pure ..).2 (hkeep s (.refl s) (by simp))
  | some nm =>
  have hnull : ((!m.mounted || (buffer.isNone && decide (size > 0))) = true) ↔
      ¬(buffer.isSome ∨ size = 0) := by
    have hsz : size > 0 ↔ size ≠ 0 := by
      rw [gt_iff_lt, UInt32.lt_iff_toNat_lt, ne_eq, ← UInt32.toNat_inj]
      exact Nat.pos_iff_ne_zero
    cases buffer <;> simp [g.mounted, hsz]
  refine (total_ite ..).2 ⟨fun h => (total_pure ..).2 (hkeep s (.refl s) fun _ _ _ _ _ hbuf =>
    absurd hbuf (hnull.1 h)), fun h => ?_⟩
  have hbuf : buffer.isSome ∨ size = 0 := Classical.not_not.1 fun hn => h (hnull.2 hn)
  have hboth : ((flags &&& fsWriteAppend != 0 && flags &&& fsWriteTruncate != 0) = true) ↔
      ¬(flags &&& fsWriteAppend = 0 ∨ flags &&& fsWriteTruncate = 0) := by
    simp only [Bool.and_eq_true, bne_iff_ne, not_or]
  refine (total_ite ..).2 ⟨fun h => (total_pure ..).2 (hkeep s (.refl s) fun _ _ _ _ _ _ hone =>
    absurd hone (hboth.1 h)), fun h => ?_⟩
  have hone : flags &&& fsWriteAppend = 0 ∨ flags &&& fsWriteTruncate = 0 :=
    Classical.not_not.1 fun hn => h (hboth.2 hn)
  cases hsn : makeShortNameChecked nm with
  | none =>
    refine (total_pure ..).2 (hkeep s (.refl s) ?_)
    rintro - _ _ ⟨⟩ hsn'
    simp [hsn] at hsn'
  | some sn =>
  have hmk := makeShortName_of_checked hsn
  have hsn' : ∀ sn', makeShortNameChecked nm = some sn' → sn' = sn := fun sn' h =>
    Option.some.inj (h.symm.trans hsn)
  refine (total_bind ..).2 ((findRootEntryAt_spec g nm s hs.tidy).mono ?_)
  rintro r s₁ ⟨hr, ⟨f, n, rfl, hf, hname⟩ | ⟨rfl, hnone⟩⟩
  · rw [hmk] at hname
    have hent := hf.toEntry hname
    refine (total_ite ..).2 ⟨fun hattr => (total_pure ..).2 (hkeep s₁ hr ?_), fun hattr => ?_⟩
    · rintro - _ sn' ⟨⟩ h _ _
      obtain rfl := hsn' sn' h
      exact .inl ⟨n, f.entry, hent, .inl (by simpa using hattr)⟩
    refine (total_ite ..).2 ⟨fun hex => (total_pure ..).2 (hkeep s₁ hr ?_), fun hex => ?_⟩
    · rintro - _ sn' ⟨⟩ h _ _
      obtain rfl := hsn' sn' h
      exact .inl ⟨n, f.entry, hent, .inr (by simpa using hex)⟩
    refine (total_pure ..).2 ⟨hr.ext, hs.reads hr, fun hw => ⟨hw.reads hr, ?_⟩⟩
    rw [hr.disk]
    exact .found rfl hsn hbuf hone hent (by simpa using hattr) (by simpa using hex)
  · have hnone' : Whole m R s → NoEntry m R s.disk sn := fun hw =>
      hmk ▸ hnone.resolve_left fun hno => hno.not_reliable hw.reliable
    refine (total_ite ..).2 ⟨fun hcr => (total_pure ..).2 (hkeep s₁ hr ?_), fun hcr => ?_⟩
    · rintro hw _ sn' ⟨⟩ h _ _
      obtain rfl := hsn' sn' h
      exact .inr ⟨hnone' hw, .inl (by simpa using hcr)⟩
    refine (fsCreate_spec g (some nm) (hs.reads hr)).mono ?_
    rintro ok s₂ ⟨hext, hs₂, hwhole⟩
    refine ⟨hr.ext.trans hext, hs₂, fun hw => ?_⟩
    obtain ⟨hw₂, hout⟩ := hwhole (hw.reads hr)
    refine ⟨hw₂, ?_⟩
    rw [hr.disk] at hout
    generalize s₂.disk = d₂ at hout
    cases hout with
    | done hnm hsn₂ hno hfree hse =>
      obtain rfl := Option.some.inj hnm
      obtain rfl := hsn' _ hsn₂
      exact .created rfl hsn hbuf hone (by simpa using hcr) hno hfree hse
    | refused hwhy =>
      refine .refused ?_
      rintro _ sn' ⟨⟩ h _ _
      obtain rfl := hsn' sn' h
      rcases hwhy with hbad | ⟨_, ⟨⟩, hex⟩ | hfull
      · rw [Option.bind_some, hsn] at hbad
        cases hbad
      · exact absurd (hmk ▸ hnone' hw) hex
      · exact .inr ⟨hnone' hw, .inr hfull⟩

/-! ## Calls and their runs -/

inductive Call where
  | create (name : NameArg)
  | writeFile (name : NameArg) (buffer : BufferArg) (size : UInt32)
  | appendFile (name : NameArg) (buffer : BufferArg) (size : UInt32)
  | truncateFile (name : NameArg)
  | write (name : NameArg) (buffer : BufferArg) (size flags : UInt32)
  | deleteFile (name : NameArg)
  | renameFile (oldName newName : NameArg)

def Call.run (m : Mount) : Call → Prog Fs Bool
  | .create name => fsCreate m name
  | .writeFile name buffer size => fsWriteFile m name buffer size
  | .appendFile name buffer size => fsAppendFile m name buffer size
  | .truncateFile name => fsTruncateFile m name
  | .write name buffer size flags => fsWrite m name buffer size flags
  | .deleteFile name => fsDeleteFile m name
  | .renameFile oldName newName => fsRenameFile m oldName newName

/-- The driver refuses an access of `p` after it accepted a write of it. -/
def Tears (p : Prog Fs Bool) (s : Fs) : Prop := ∃ r s', p s = some (r, s') ∧ Torn s s'

/-- The driver tears the deletion or the truncation that the call makes. -/
def Call.Torn (m : Mount) : Call → Fs → Prop
  | .deleteFile name, s => Tears (fsDeleteFile m name) s
  | .truncateFile name, s => Tears (fsTruncateFile m name) s
  | .write name buffer size flags, s => flags &&& fsWriteTruncate ≠ 0 ∧ ∃ s₁,
      fsWriteOpen m name buffer size flags s = some (true, s₁) ∧ Tears (fsTruncateFile m name) s₁
  | _, _ => False

theorem not_torn_of_not_tears {p : Prog Fs Bool} {ok : Bool} (h : ¬Tears p s)
    (hp : p s = some (ok, s')) : ¬Fat32.Torn s s' :=
  fun ht => h ⟨ok, s', hp, ht⟩

/-- A deletion or a truncation that is not torn. -/
theorem safe_of_not_tears {p : Prog Fs Bool} {Q : Bool → Fs → Prop}
    (h : Total p s fun ok s' => Extends s s' ∧ (¬Torn s s' → Safe m R s') ∧ Q ok s')
    (ht : ¬Tears p s) : Total p s fun ok s' => Extends s s' ∧ Safe m R s' ∧ Q ok s' := by
  obtain ⟨ok, s', hp, hext, hsafe, hq⟩ := h
  exact ⟨ok, s', hp, hext, hsafe (not_torn_of_not_tears ht hp), hq⟩

theorem fsWrite_spec (g : Geometry m) (name : NameArg) (buffer : BufferArg) (size flags : UInt32)
    (hs : Safe m R s) (ht : ¬(Call.write name buffer size flags).Torn m s) :
    Total (fsWrite m name buffer size flags) s fun _ s' => Extends s s' ∧ Safe m R s' ∧
      (Whole m R s → Whole m R s') := by
  cases name with
  | none => exact (total_pure ..).2 ⟨.refl s, hs, id⟩
  | some nm =>
  refine (total_bind ..).2 ((fsWriteOpen_spec g (some nm) buffer size flags hs).with_eq.mono ?_)
  rintro ok s₁ ⟨hopen, hext₁, hs₁, hw₁⟩
  have hstep : ∀ {p : Prog Fs Bool} {Q : Bool → Fs → Prop},
      (Total p s₁ fun ok s' => Extends s₁ s' ∧ Safe m R s' ∧
        (Whole m R s₁ → Whole m R s' ∧ Q ok s')) →
      Total p s₁ fun _ s' => Extends s s' ∧ Safe m R s' ∧ (Whole m R s → Whole m R s') :=
    fun h => h.mono fun _ _ ⟨hext, hs', hw⟩ =>
      ⟨hext₁.trans hext, hs', fun hw₀ => (hw (hw₁ hw₀).1).1⟩
  have hdone : Extends s s₁ ∧ Safe m R s₁ ∧ (Whole m R s → Whole m R s₁) :=
    ⟨hext₁, hs₁, fun hw => (hw₁ hw).1⟩
  refine (total_ite ..).2 ⟨fun _ => (total_pure ..).2 hdone, fun hok => ?_⟩
  obtain rfl : ok = true := by simpa using hok
  refine (total_ite ..).2 ⟨fun htr => (total_bind ..).2 ?_, fun htr => ?_⟩
  · have hnt : ¬Tears (fsTruncateFile m (some nm)) s₁ := fun h =>
      ht ⟨by simpa using htr, s₁, hopen, h⟩
    refine (safe_of_not_tears (fsTruncateFile_spec g (some nm) hs₁) hnt).mono ?_
    rintro ok s₂ ⟨hext₂, hs₂, hw₂⟩
    have hdone₂ : Extends s s₂ ∧ Safe m R s₂ ∧ (Whole m R s → Whole m R s₂) :=
      ⟨hext₁.trans hext₂, hs₂, fun hw => (hw₂ (hw₁ hw).1).1⟩
    refine (total_ite ..).2 ⟨fun _ => (total_pure ..).2 hdone₂, fun _ => ?_⟩
    refine (total_ite ..).2 ⟨fun _ => (total_pure ..).2 hdone₂, fun _ => ?_⟩
    refine (fsWriteFile_spec g (some nm) buffer size hs₂).mono ?_
    rintro ok s₃ ⟨hext₃, hs₃, hw₃⟩
    exact ⟨hdone₂.1.trans hext₃, hs₃, fun hw => (hw₃ (hdone₂.2.2 hw)).1⟩
  refine (total_ite ..).2 ⟨fun hap => ?_, fun hap => hstep (fsWriteFile_spec g _ buffer size hs₁)⟩
  refine (total_ite ..).2 ⟨fun _ => (total_pure ..).2 hdone, fun _ => (total_bind ..).2 ?_⟩
  refine (findRootEntryAt_spec g nm s₁ hs₁.tidy).mono ?_
  rintro r s₂ ⟨hr, ⟨f, n, rfl, -, -⟩ | ⟨rfl, -⟩⟩
  swap
  · exact (total_pure ..).2 ⟨hext₁.trans hr.ext, hs₁.reads hr, fun hw => (hw₁ hw).1.reads hr⟩
  have hstep₂ : ∀ {p : Prog Fs Bool} {Q : Bool → Fs → Prop},
      (Total p s₂ fun ok s' => Extends s₂ s' ∧ Safe m R s' ∧
        (Whole m R s₂ → Whole m R s' ∧ Q ok s')) →
      Total p s₂ fun _ s' => Extends s s' ∧ Safe m R s' ∧ (Whole m R s → Whole m R s') :=
    fun h => h.mono fun _ _ ⟨hext, hs', hw⟩ =>
      ⟨(hext₁.trans hr.ext).trans hext, hs', fun hw₀ => (hw ((hw₁ hw₀).1.reads hr)).1⟩
  exact (total_ite ..).2 ⟨fun _ => hstep₂ (fsWriteFile_spec g _ buffer size (hs₁.reads hr)),
    fun _ => hstep₂ (fsAppendFile_spec g _ buffer size (hs₁.reads hr))⟩

/-- What one call keeps. -/
theorem Call.run_spec (g : Geometry m) (c : Call) (hs : Safe m R s) (ht : ¬c.Torn m s) :
    Total (c.run m) s fun _ s' => Extends s s' ∧ Safe m R s' ∧ (Whole m R s → Whole m R s') := by
  have hdrop : ∀ {p : Prog Fs Bool} {Q : Bool → Fs → Prop},
      (Total p s fun ok s' => Extends s s' ∧ Safe m R s' ∧ (Whole m R s → Whole m R s' ∧ Q ok s')) →
      Total p s fun _ s' => Extends s s' ∧ Safe m R s' ∧ (Whole m R s → Whole m R s') :=
    fun h => h.mono fun _ _ ⟨hext, hs', hw⟩ => ⟨hext, hs', fun hw₀ => (hw hw₀).1⟩
  cases c with
  | create name => exact hdrop (fsCreate_spec g name hs)
  | writeFile name buffer size => exact hdrop (fsWriteFile_spec g name buffer size hs)
  | appendFile name buffer size => exact hdrop (fsAppendFile_spec g name buffer size hs)
  | truncateFile name => exact hdrop (safe_of_not_tears (fsTruncateFile_spec g name hs) ht)
  | write name buffer size flags => exact fsWrite_spec g name buffer size flags hs ht
  | deleteFile name => exact hdrop (safe_of_not_tears (fsDeleteFile_spec g name hs) ht)
  | renameFile oldName newName => exact hdrop (fsRenameFile_spec g oldName newName hs)

/-- A reliable disk tears nothing. -/
theorem Call.not_torn (g : Geometry m) (c : Call) (hs : Safe m R s) (hw : Whole m R s) :
    ¬c.Torn m s := by
  have hcall : ∀ {p : Prog Fs Bool} {s : Fs} {Q : Bool → Fs → Prop}, s.faults = [] →
      (Total p s fun ok s' => Extends s s' ∧ Q ok s') → ¬Tears p s := by
    rintro p s Q hrel h ⟨r, s', hp, ht⟩
    exact (h.of_eq hp).1.not_torn hrel ht
  cases c with
  | create | writeFile | appendFile | renameFile => exact id
  | truncateFile name => exact hcall hw.reliable (fsTruncateFile_spec g name hs)
  | deleteFile name => exact hcall hw.reliable (fsDeleteFile_spec g name hs)
  | write name buffer size flags =>
    rintro ⟨-, s₁, hopen, ht⟩
    obtain ⟨hext, hs₁, -⟩ := (fsWriteOpen_spec g name buffer size flags hs).of_eq hopen
    exact hcall (hext.reliable hw.reliable) (fsTruncateFile_spec g name hs₁) ht

/-- Any calls, on a reliable disk: the volume stays consistent whatever they return. -/
theorem consistent_run (g : Geometry m) (h : Consistent m R d) (sector : Sector)
    (cs : List Call) : Total (runAll (Call.run m) cs) (Fs.start d sector []) fun _ s' =>
      Consistent m R s'.disk := by
  have hstep : ∀ (c : Call) (s : Fs), Safe m R s ∧ Whole m R s → True →
      Total (c.run m) s fun _ s' => Safe m R s' ∧ Whole m R s' :=
    fun c s ⟨hs, hw⟩ _ => (c.run_spec g hs (c.not_torn g hs hw)).mono
      fun _ _ ⟨_, hs', hw'⟩ => ⟨hs', hw' hw⟩
  refine (total_runAll (Call.run m) (P := fun _ _ => True) hstep cs _
    ⟨h.safe sector [], h.whole sector⟩ (along_of_forall _ (fun _ _ => trivial) cs _)).mono ?_
  exact fun _ s' ⟨hs', hw'⟩ => hs'.consistent hw'

theorem consistent_run_tiny : Total (runAll (Call.run tiny)
    [.create (some [0x41]), .writeFile (some [0x41]) (some fun _ => 7) 1,
      .deleteFile (some [0x41])])
    (Fs.start (blankDisk tiny) (fun _ => 0) []) fun _ s' => Consistent tiny [2] s'.disk :=
  consistent_run tiny_geometry consistent_tiny _ _

/-! ## Refused accesses -/

/-- No live entry's chain meets a free cluster. -/
def ChainsInUse (m : Mount) (R : List Nat) (d : Disk) : Prop :=
  ∀ (n : Nat) (e : Dirent), (vol m R d).dir[n]? = some e → Live e →
    ∀ c, Visits (fatValue m d) ChainEnd (firstCluster e) c → fatValue m d c ≠ 0

theorem Safe.chainsInUse (hs : Safe m R s) : ChainsInUse m R s.disk := by
  intro n e he hl c hv h0
  obtain ⟨l, hch⟩ := hs.tidy.chained n e he hl
  exact Vol.Owns.fat_ne_zero (V := vol m R s.disk) ⟨e, he, hl, hch⟩ (hch.walk.mem_of_visits hv) h0

/-- Any calls, whatever the driver refuses, as long as it tears no deletion and no truncation: no
chain meets a free cluster, and no cluster was handed out while a chain met it. -/
theorem chainsInUse_run (g : Geometry m) (h : Consistent m R d) (sector : Sector)
    (faults : List Bool) (cs : List Call)
    (ht : Along (Call.run m) (fun c s => ¬c.Torn m s) cs (Fs.start d sector faults)) :
    Total (runAll (Call.run m) cs) (Fs.start d sector faults) fun _ s' =>
      ChainsInUse m R s'.disk ∧ ∀ x ∈ s'.granted, Unshared m R x.1 x.2 := by
  have hstep : ∀ (c : Call) (s : Fs), Safe m R s → ¬c.Torn m s →
      Total (c.run m) s fun _ s' => Safe m R s' :=
    fun c s hs hc => (c.run_spec g hs hc).mono fun _ _ ⟨_, hs', _⟩ => hs'
  refine (total_runAll (Call.run m) hstep cs _ (h.safe sector faults) ht).mono ?_
  exact fun _ s' hs' => ⟨hs'.chainsInUse, hs'.unshared⟩

/-- A lookup that is refused its first read tears nothing, and neither does the write after it. -/
theorem chainsInUse_run_tiny : Total (runAll (Call.run tiny)
    [.deleteFile (some [0x41]), .create (some [0x41])])
    (Fs.start (blankDisk tiny) (fun _ => 0) [true, false, false, true]) fun _ s' =>
      ChainsInUse tiny [2] s'.disk ∧ ∀ x ∈ s'.granted, Unshared tiny [2] x.1 x.2 := by
  refine chainsInUse_run tiny_geometry consistent_tiny _ _ _
    ⟨?_, fun _ _ _ => ⟨id, fun _ _ _ => trivial⟩⟩
  rintro ⟨r, s', hp, later, a, earlier, ht, -, w, hw, -⟩
  have htrace : ((fsDeleteFile tiny (some [0x41])
      (Fs.start (blankDisk tiny) (fun _ => 0) [true, false, false, true])).map
        fun x => x.2.trace.length) = some 1 := by decide
  rw [hp] at htrace
  have hlen : s'.trace.length = 1 := by simpa using htrace
  rw [ht] at hlen
  cases earlier with
  | nil => simp at hw
  | cons x xs =>
    simp only [List.length_append, List.length_cons] at hlen
    omega

/-- A deletion refused its last write but one leaves the entry on a chain it has freed. -/
theorem deleteFile_torn : Consistent tiny [2] (blankDisk tiny) ∧
    Total (runAll (Call.run tiny)
      [.create (some [0x41]), .writeFile (some [0x41]) (some fun _ => 7) 1,
        .deleteFile (some [0x41])])
      (Fs.start (blankDisk tiny) (fun _ => 0) (List.replicate 15 false ++ [true]))
      fun _ s' => ¬ChainsInUse tiny [2] s'.disk := by
  refine ⟨consistent_tiny, ?_⟩
  have hrun : ((runAll (Call.run tiny)
      [.create (some [0x41]), .writeFile (some [0x41]) (some fun _ => 7) 1,
        .deleteFile (some [0x41])])
      (Fs.start (blankDisk tiny) (fun _ => 0) (List.replicate 15 false ++ [true]))).map (fun x =>
        (decide (Live (slotEntry x.2.disk (2, 0))), firstCluster (slotEntry x.2.disk (2, 0)),
          fatValue tiny x.2.disk 3)) = some (true, 3, 0) := by decide +kernel
  obtain ⟨⟨rs, s'⟩, hs', h⟩ := Option.map_eq_some_iff.1 hrun
  simp only [Prod.mk.injEq, decide_eq_true_eq] at h
  obtain ⟨hlive, hfirst, hfree⟩ := h
  refine ⟨rs, s', hs', fun hin => ?_⟩
  refine hin 0 (slotEntry s'.disk (2, 0)) rfl hlive 3 ⟨0, hfirst, fun k hk => ?_⟩ hfree
  obtain rfl : k = 0 := by omega
  rw [Function.iterate_zero, id, hfirst]
  decide

end MinervaOS.Fat32
