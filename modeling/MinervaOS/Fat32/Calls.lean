import MinervaOS.Fat32.Updates

/-!
# What each call leaves behind

`Safe` is kept by every call whatever the driver refuses, with one exception: a call that frees a
chain before it edits the entry that names it, and is torn in between. `Whole` is what a reliable
disk adds. Each call is described once, by what both of them become and by the disk it leaves when
nothing is refused.
-/

namespace MinervaOS.Fat32

open Prog

variable {m : Mount} {R : List Nat}

/-- No live entry's chain on `d` meets `c`. -/
def Unshared (m : Mount) (R : List Nat) (c : Nat) (d : Disk) : Prop :=
  ∀ (n : Nat) (e : Dirent), (vol m R d).dir[n]? = some e → Live e →
    ¬Visits (fatValue m d) ChainEnd (firstCluster e) c

structure Safe (m : Mount) (R : List Nat) (s : Fs) : Prop where
  tidy : (vol m R s.disk).Tidy (maxCluster m) m.bpb.rootCluster R
  unshared : ∀ x ∈ s.granted, Unshared m R x.1 x.2

structure Whole (m : Mount) (R : List Nat) (s : Fs) : Prop where
  reliable : s.faults = []
  exact : (vol m R s.disk).Exact (maxCluster m) R
  copies : CopiesEqual m s.disk

/-- A consistent volume: the copies of the FAT agree; the chains of the root directory and of the
live entries stay among the data clusters, end, and share no cluster; no two live entries have one
name; and a cluster in use is in one of the chains. -/
structure Consistent (m : Mount) (R : List Nat) (d : Disk) : Prop where
  copies : CopiesEqual m d
  tidy : (vol m R d).Tidy (maxCluster m) m.bpb.rootCluster R
  exact : (vol m R d).Exact (maxCluster m) R

/-- The driver's state when a run begins: nothing accessed and nothing handed out yet. -/
def Fs.start (d : Disk) (sector : Sector) (faults : List Bool) : Fs := ⟨d, sector, faults, [], []⟩

variable {s s' : Fs} {d d' : Disk}

theorem Consistent.safe (h : Consistent m R d) (sector : Sector) (faults : List Bool) :
    Safe m R (Fs.start d sector faults) :=
  ⟨h.tidy, fun _ hx => by simp [Fs.start] at hx⟩

theorem Consistent.whole (h : Consistent m R d) (sector : Sector) :
    Whole m R (Fs.start d sector []) :=
  ⟨rfl, h.exact, h.copies⟩

theorem Safe.consistent (hs : Safe m R s) (hw : Whole m R s) : Consistent m R s.disk :=
  ⟨hw.copies, hs.tidy, hw.exact⟩

theorem Safe.moves (hs : Safe m R s) (h : Moves s s' d)
    (ht : (vol m R d).Tidy (maxCluster m) m.bpb.rootCluster R) : Safe m R s' :=
  ⟨h.disk ▸ ht, h.granted ▸ hs.unshared⟩

theorem Safe.reads (hs : Safe m R s) (h : Reads s s') : Safe m R s' := hs.moves h hs.tidy

theorem Whole.reads (hw : Whole m R s) (h : Reads s s') : Whole m R s' :=
  ⟨h.ext.reliable hw.reliable, h.disk.symm ▸ hw.exact, h.disk.symm ▸ hw.copies⟩

/-- A free cluster is on nobody's chain. -/
theorem unshared_of_free (ht : (vol m R d).Tidy (maxCluster m) m.bpb.rootCluster R) {c : Nat}
    (hc : fatValue m d c = 0) : Unshared m R c d := by
  intro n e he hl hv
  obtain ⟨l, hch⟩ := ht.chained n e he hl
  have hmem := hch.walk.mem_of_visits hv
  exact Vol.Owns.fat_ne_zero (V := vol m R d) ⟨e, he, hl, hch⟩ hmem hc

theorem Safe.grants (hs : Safe m R s) {c : Nat} (h : Grants m s s' c) : Safe m R s' := by
  refine ⟨h.disk.symm ▸ hs.tidy, fun x hx => ?_⟩
  rw [h.granted] at hx
  rcases List.mem_cons.1 hx with rfl | hx
  · exact unshared_of_free hs.tidy h.free
  · exact hs.unshared x hx

theorem Whole.grants (hw : Whole m R s) {c : Nat} (h : Grants m s s' c) : Whole m R s' :=
  ⟨h.ext.reliable hw.reliable, h.disk.symm ▸ hw.exact, h.disk.symm ▸ hw.copies⟩

theorem Safe.root_two_le (hs : Safe m R s) : ∀ c ∈ R, 2 ≤ c := fun _ hc => hs.tidy.root.two_le hc

theorem Safe.not_root_of_free (hs : Safe m R s) {c : Nat} (hc : fatValue m s.disk c = 0) :
    c ∉ R := fun h => hs.tidy.root_fat_ne_zero h hc

theorem Safe.slot_lba_lt (g : Geometry m) (hs : Safe m R s) {n : Nat} {p : Nat × Nat}
    (hp : (slots m R)[n]? = some p) : p.1 < 0x10000000 :=
  lba_lt_of_mem_slots g (List.mem_of_getElem? hp) fun c hc =>
    ⟨hs.tidy.root.two_le hc, hs.tidy.root.lt c hc⟩

namespace SlotEdit

variable {d₀ : Disk} {n : Nat} {f : Dirent → Dirent} {e : Dirent} (g : Geometry m)
  (ht : (vol m R d₀).Tidy (maxCluster m) m.bpb.rootCluster R) (h : SlotEdit m R d d' n f)
  (hdir : (vol m R d).dir = (vol m R d₀).dir) (he : (vol m R d₀).dir[n]? = some e)
  (hfat : ∀ c, ¬(vol m R d₀).Mine (maxCluster m) n c → fatValue m d c = fatValue m d₀ c)

include g ht h hdir he hfat

theorem tidy (hbefore : ∀ (i : Nat) (x : Dirent), i < n → (vol m R d₀).dir[i]? = some x → x 0 ≠ 0)
    (h0 : f e 0 ≠ 0)
    (hchain : Live (f e) → ∃ l, Chain (fatValue m d) (maxCluster m) (firstCluster (f e)) l ∧
      ∀ c ∈ l, (vol m R d₀).Mine (maxCluster m) n c) :
    (vol m R d').Tidy (maxCluster m) m.bpb.rootCluster R := by
  have hset := h.setSlot g ht.root.walk.nodup (fun _ => ht.root.two_le) hdir he hfat
  refine ht.setSlot hset hbefore h0 fun hl => ?_
  rw [show (vol m R d').fat = fatValue m d from fatValue_congr g fun _ => h.low]
  exact hchain hl

theorem exact (hx : (vol m R d₀).Exact (maxCluster m) R)
    (hname : Live (f e) → ∀ (i : Nat) (x : Dirent), i ≠ n → (vol m R d₀).dir[i]? = some x →
      Live x → (f e).name ≠ x.name)
    (hused : ∀ c, 2 ≤ c → c < maxCluster m → fatValue m d c ≠ 0 →
      (vol m R d₀).Mine (maxCluster m) n c → ∃ l, Live (f e) ∧
        Chain (fatValue m d) (maxCluster m) (firstCluster (f e)) l ∧ c ∈ l) :
    (vol m R d').Exact (maxCluster m) R := by
  have hset := h.setSlot g ht.root.walk.nodup (fun _ => ht.root.two_le) hdir he hfat
  refine hx.setSlot ht hset hname ?_
  rw [show (vol m R d').fat = fatValue m d from fatValue_congr g fun _ => h.low]
  exact hused

end SlotEdit

/-! ## Creating -/

theorem live_congr {e e' : Dirent} (h0 : e' 0 = e 0) (ha : e'.attr = e.attr) :
    Live e' ↔ Live e := by
  simp only [Live, validFileEntry, h0, ha]

theorem lookForFree_hit {e : Dirent} (h : lookForFree e = .hit ()) : e 0 = 0 ∨ e 0 = 0xE5 := by
  unfold lookForFree at h
  split at h
  · rename_i h0
    simpa using h0
  · cases h

theorem lookForFree_next {e : Dirent} (h : lookForFree e = .next) : e 0 ≠ 0 ∧ e 0 ≠ 0xE5 := by
  unfold lookForFree at h
  split at h
  · cases h
  · rename_i h0
    simpa using h0

theorem lookForFree_ne_stop (e : Dirent) : lookForFree e ≠ .stop := by
  unfold lookForFree
  split <;> simp

theorem not_live_of_free {e : Dirent} (h : e 0 = 0 ∨ e 0 = 0xE5) : ¬Live e := by
  rcases h with h | h <;> simp [Live, validFileEntry, h]

/-- Slot `n` is the first that `fs_create` can use. -/
structure FirstFree (m : Mount) (R : List Nat) (d : Disk) (n : Nat) (e : Dirent) : Prop where
  dir : (vol m R d).dir[n]? = some e
  free : e 0 = 0 ∨ e 0 = 0xE5
  before : ∀ (i : Nat) (x : Dirent), i < n → (vol m R d).dir[i]? = some x →
    x 0 ≠ 0 ∧ x 0 ≠ 0xE5

/-- `fs_create` has no slot to use. -/
def DirFull (m : Mount) (R : List Nat) (d : Disk) : Prop :=
  ∀ (n : Nat) (e : Dirent), (vol m R d).dir[n]? = some e → e 0 ≠ 0 ∧ e 0 ≠ 0xE5

theorem scanFree_spec (g : Geometry m) (hs : Safe m R s) :
    Total (scanRoot m lookForFree rootSteps m.bpb.rootCluster) s fun r s' => Reads s s' ∧
      ((∃ p n, r = some p ∧ (slots m R)[n]? = some p ∧ s'.sector = s.disk p.1 ∧
          FirstFree m R s.disk n (slotEntry s.disk p)) ∨
        (r = none ∧ (Refused s s' ∨ DirFull m R s.disk))) := by
  refine (scanRoot_spec g s hs.tidy.root hs.tidy.root_ne).mono ?_
  rintro r s₁ ⟨hr, ⟨p, rfl, hseek, hsec⟩ | ⟨rfl, h⟩⟩
  · obtain ⟨n, hn, hhit, hb⟩ := seek_hit hseek
    refine ⟨hr, .inl ⟨p, n, rfl, hn, hsec, by simp [vol, hn], lookForFree_hit hhit, ?_⟩⟩
    intro i x hi hx
    obtain ⟨q, hq, rfl⟩ := vol_dir_getElem? hx
    exact lookForFree_next (hb i q hi hq)
  · refine ⟨hr, .inr ⟨rfl, h.imp id fun h n e hn => ?_⟩⟩
    obtain ⟨p, hp, rfl⟩ := vol_dir_getElem? hn
    rcases seek_no_hit h n p hp with hnext | ⟨_, _, -, -, hstop⟩
    · exact lookForFree_next hnext
    · exact absurd hstop (lookForFree_ne_stop _)

/-- What `fs_create` does on a reliable disk. -/
inductive CreateOut (m : Mount) (R : List Nat) (name : NameArg) (d : Disk) : Bool → Disk → Prop
  | done {nm sn : List UInt8} {n : Nat} {e : Dirent} {d' : Disk} : name = some nm →
      makeShortNameChecked nm = some sn → NoEntry m R d sn → FirstFree m R d n e →
      SlotEdit m R d d' n (fun _ => newDirent sn) → CreateOut m R name d true d'
  | refused : (name.bind makeShortNameChecked = none ∨
      (∃ nm, name = some nm ∧ ¬NoEntry m R d (makeShortName nm)) ∨ DirFull m R d) →
      CreateOut m R name d false d

theorem newDirent_zero (sn : List UInt8) : newDirent sn 0 = sn.getD 0 0 := rfl

theorem firstCluster_newDirent (sn : List UInt8) : firstCluster (newDirent sn) = 0 := by
  simp [firstCluster, rd16, newDirent]

theorem size_newDirent (sn : List UInt8) : (newDirent sn).size = 0 := by
  simp [Dirent.size, rd32, newDirent]

theorem attr_newDirent (sn : List UInt8) : (newDirent sn).attr = 0x20 := rfl

theorem live_newDirent {nm sn : List UInt8} (h : makeShortNameChecked nm = some sn) :
    Live (newDirent sn) := by
  obtain ⟨h0, h5⟩ := first_makeShortNameChecked h
  rw [← newDirent_zero] at h0 h5
  have h8 : (0x20 : UInt8) &&& 0x08 = 0 := by decide
  simp [Live, validFileEntry, attr_newDirent, h0, h5, h8]

theorem fsCreate_spec (g : Geometry m) (name : NameArg) (hs : Safe m R s) :
    Total (fsCreate m name) s fun ok s' => Extends s s' ∧ Safe m R s' ∧
      (Whole m R s → Whole m R s' ∧ CreateOut m R name s.disk ok s'.disk) := by
  cases name with
  | none =>
    simp only [fsCreate, total_pure]
    exact ⟨.refl s, hs, fun hw => ⟨hw, .refused (.inl rfl)⟩⟩
  | some nm =>
    simp only [fsCreate, g.mounted, Bool.not_true, Bool.false_eq_true, if_false]
    cases hsn : makeShortNameChecked nm with
    | none =>
      simp only [total_pure]
      exact ⟨.refl s, hs, fun hw => ⟨hw, .refused (.inl hsn)⟩⟩
    | some sn =>
      have hmk := makeShortName_of_checked hsn
      simp only [total_bind]
      refine (findRootEntry_spec g nm s hs.tidy).mono ?_
      rintro r s₁ ⟨hr, ⟨f, n, rfl, hf, hname⟩ | ⟨rfl, hnone⟩⟩
      · simp only [Option.isSome_some, if_true, total_pure]
        refine ⟨hr.ext, hs.reads hr, fun hw => ⟨hw.reads hr, ?_⟩⟩
        rw [hr.disk]
        exact .refused (.inr (.inl ⟨nm, rfl, fun h => h n f.entry hf.dir hf.live hname⟩))
      · simp only [Option.isSome_none, Bool.false_eq_true, if_false, total_bind]
        refine (scanFree_spec g (hs.reads hr)).mono ?_
        rintro r s₂ ⟨hr₂, ⟨p, n, rfl, hp, hsec, hfree⟩ | ⟨rfl, hfull⟩⟩
        · simp only [total_bind]
          rw [hr.disk] at hsec hfree
          have h₂ : Reads s s₂ := hr.reads hr₂
          have hlba := hs.slot_lba_lt g hp
          have hed := editsSlot_setDirent p.2 (fun k => newDirent_of_ge sn (k := k))
          refine (modifySector_spec _ s₂).mono fun _ s₃ hedit => ?_
          rcases hedit with ⟨hr₃, hsec₃⟩
          have h₃ : Reads s s₃ := h₂.reads hr₃
          have hput : putSector s₃.disk p.1 s₃.sector =
              editSector s.disk p.1 fun sec => setDirent sec p.2 (newDirent sn) := by
            rw [putSector_edit (f := fun sec => setDirent sec p.2 (newDirent sn))
              (by rw [hsec₃, hsec, h₃.disk]), h₃.disk]
          refine (ataWriteSector_spec hlba s₃).mono ?_
          rintro ok s₄ (⟨rfl, hm, -⟩ | ⟨rfl, hm, hno⟩)
          · rw [hput] at hm
            have h₄ := h₃.trans hm
            have hse : SlotEdit m R s.disk s₄.disk n (fun _ => newDirent sn) :=
              ⟨p, _, hp, hed, h₄.disk⟩
            have hlive := live_newDirent hsn
            have htidy : (vol m R s₄.disk).Tidy (maxCluster m) m.bpb.rootCluster R := by
              refine hse.tidy g hs.tidy rfl hfree.dir (fun _ _ => rfl)
                (fun i x hi hx => (hfree.before i x hi hx).1) (first_makeShortNameChecked hsn).1
                fun _ => ⟨[], ?_, by simp⟩
              rw [firstCluster_newDirent]
              exact .nil
            refine ⟨h₄.ext, hs.moves h₄ (h₄.disk ▸ htidy), fun hw => ?_⟩
            have hnone' : NoEntry m R s.disk sn := by
              rcases hnone with hno | hnone
              · exact absurd hw.reliable hno.not_reliable
              · exact hmk ▸ hnone
            refine ⟨⟨h₄.ext.reliable hw.reliable, ?_, hse.copiesEqual g hw.copies⟩,
              .done rfl hsn hnone' hfree hse⟩
            refine hse.exact g hs.tidy rfl hfree.dir (fun _ _ => rfl) hw.exact ?_ ?_
            · intro _ i x _ hx hlx
              rw [Dirent.name_newDirent (length_makeShortNameChecked hsn)]
              exact Ne.symm (hnone' i x hx hlx)
            · rintro c - - hc (h0 | ⟨l, ⟨e, he, hl, -⟩, -⟩)
              · exact absurd h0 hc
              · obtain rfl : _ = e := Option.some.inj (hfree.dir.symm.trans he)
                exact absurd hl (not_live_of_free hfree.free)
          · have h₄ := h₃.reads hm
            exact ⟨h₄.ext, hs.reads h₄, fun hw =>
              absurd hw.reliable (hno.of_extends h₃.ext).not_reliable⟩
        · have h₂ : Reads s s₂ := hr.reads hr₂
          simp only [total_pure]
          refine ⟨h₂.ext, hs.reads h₂, fun hw => ⟨hw.reads h₂, ?_⟩⟩
          rw [h₂.disk]
          rcases hfull with hno | hfull
          · exact absurd hw.reliable (hno.of_extends hr.ext).not_reliable
          · exact .refused (.inr (.inr (hr.disk ▸ hfull)))

/-! ## Editing an entry that was found -/

/-- Slot `n` holds the live entry `e` of the name. -/
structure Entry (m : Mount) (R : List Nat) (d : Disk) (target : List UInt8) (n : Nat) (e : Dirent) :
    Prop where
  dir : (vol m R d).dir[n]? = some e
  live : Live e
  name : e.name = target

theorem AtSlot.toEntry {f : Found} {n : Nat} (h : AtSlot m R d f n) {target : List UInt8}
    (ht : f.entry.name = target) : Entry m R d target n f.entry :=
  ⟨h.dir, h.live, ht⟩

theorem Entry.det (hx : (vol m R d).Exact (maxCluster m) R) {sn : List UInt8} {n n' : Nat}
    {e e' : Dirent} (h : Entry m R d sn n e) (h' : Entry m R d sn n' e') : n' = n ∧ e' = e := by
  obtain rfl : n' = n := by
    by_contra hne
    exact hx.names n' n e' e hne h'.dir h.dir h'.live h.live (h'.name.trans h.name.symm)
  exact ⟨rfl, Option.some.inj (h'.dir.symm.trans h.dir)⟩

theorem Live.first_ne {e : Dirent} (h : Live e) : e 0 ≠ 0 := fun h0 =>
  not_live_of_free (.inl h0) h

/-- The steps that end a call, on the slot a lookup found. -/
theorem editSlot_spec (g : Geometry m) (hs : Safe m R s) {f : Found} {n : Nat}
    (hslot : (slots m R)[n]? = some (f.lba, f.index)) {edit : Sector → Sector}
    {upd : Dirent → Dirent} (hed : EditsSlot edit f.index upd) {s₁ : Fs} :
    Total (do
      if !(← ataReadSector f.lba) then return false
      modifySector edit
      ataWriteSector f.lba) s₁ fun ok s' =>
      (ok = true ∧ Moves s₁ s' s'.disk ∧ SlotEdit m R s₁.disk s'.disk n upd) ∨
        (ok = false ∧ Reads s₁ s' ∧ Refused s₁ s') := by
  refine (edit_spec (hs.slot_lba_lt g hslot) edit s₁).mono fun ok s' h => h.imp ?_ id
  rintro ⟨hok, hm, -⟩
  exact ⟨hok, hm.disk ▸ hm, (f.lba, f.index), edit, hslot, hed, hm.disk⟩

theorem live_withName {nm sn : List UInt8} (h : makeShortNameChecked nm = some sn) {e : Dirent}
    (hl : Live e) : Live (e.withName sn) := by
  have hfirst : e.withName sn 0 = sn.getD 0 0 := by simp [Dirent.withName, copyAt]
  obtain ⟨h0, h5⟩ := first_makeShortNameChecked h
  rw [← hfirst] at h0 h5
  simp only [Live, validFileEntry, Dirent.attr_withName] at hl ⊢
  simp only [Bool.and_eq_true, Bool.not_eq_true', Bool.or_eq_false_iff, beq_eq_false_iff_ne,
    beq_iff_eq] at hl ⊢
  exact ⟨⟨⟨h0, h5⟩, hl.1.2⟩, hl.2⟩

/-- What a rename does on a reliable disk. -/
inductive RenameOut (m : Mount) (R : List Nat) (oldName newName : NameArg) (d : Disk) :
    Bool → Disk → Prop
  | done {old new sn : List UInt8} {n : Nat} {e : Dirent} {d' : Disk} : oldName = some old →
      newName = some new → makeShortNameChecked new = some sn →
      Entry m R d (makeShortName old) n e → e.attr &&& 0x10 = 0 → NoEntry m R d sn →
      SlotEdit m R d d' n (fun e => e.withName sn) → RenameOut m R oldName newName d true d'
  | refused : RenameOut m R oldName newName d false d

theorem fsRenameFile_spec (g : Geometry m) (oldName newName : NameArg) (hs : Safe m R s) :
    Total (fsRenameFile m oldName newName) s fun ok s' => Extends s s' ∧ Safe m R s' ∧
      (Whole m R s → Whole m R s' ∧ RenameOut m R oldName newName s.disk ok s'.disk) := by
  have hkeep : ∀ s', Reads s s' → Extends s s' ∧ Safe m R s' ∧
      (Whole m R s → Whole m R s' ∧ RenameOut m R oldName newName s.disk false s'.disk) :=
    fun s' hr => ⟨hr.ext, hs.reads hr, fun hw => ⟨hw.reads hr, hr.disk.symm ▸ .refused⟩⟩
  cases oldName with
  | none => simpa [fsRenameFile] using hkeep s (.refl s)
  | some old =>
  cases newName with
  | none => simpa [fsRenameFile] using hkeep s (.refl s)
  | some new =>
  simp only [fsRenameFile, g.mounted, Bool.not_true, Bool.false_eq_true, if_false]
  cases hsn : makeShortNameChecked new with
  | none => simpa using hkeep s (.refl s)
  | some sn =>
  simp only [total_bind]
  refine (findRootEntryAt_spec g old s hs.tidy).mono ?_
  rintro r s₁ ⟨hr, ⟨f, n, rfl, hf, hname⟩ | ⟨rfl, -⟩⟩
  swap
  · simpa using hkeep s₁ hr
  refine (total_ite ..).2 ⟨fun _ => by simpa using hkeep s₁ hr, fun hattr => (total_bind ..).2 ?_⟩
  refine (findRootEntry_spec g new s₁ (hs.reads hr).tidy).mono ?_
  rintro r s₂ ⟨hr₂, ⟨_, _, rfl, -⟩ | ⟨rfl, hnone⟩⟩
  · simpa using hkeep s₂ (hr.reads hr₂)
  have h₂ : Reads s s₂ := hr.reads hr₂
  simp only [Option.isSome_none, Bool.false_eq_true, if_false]
  refine (editSlot_spec g hs hf.slot (editsSlot_setName f.index sn)).mono ?_
  rintro ok s₃ (⟨rfl, hm, hse⟩ | ⟨rfl, hm, hno⟩)
  swap
  · exact hkeep s₃ (h₂.reads hm)
  have h₃ := h₂.trans hm
  rw [h₂.disk] at hse
  have hlen := length_makeShortNameChecked hsn
  have hchain : ∀ {l}, Chain (fatValue m s.disk) (maxCluster m) (firstCluster f.entry) l →
      ∀ c ∈ l, (vol m R s.disk).Mine (maxCluster m) n c :=
    fun hl c hc => .inr ⟨_, ⟨f.entry, hf.dir, hf.live, hl⟩, hc⟩
  have htidy : (vol m R s₃.disk).Tidy (maxCluster m) m.bpb.rootCluster R := by
    refine hse.tidy g hs.tidy rfl hf.dir (fun _ _ => rfl) (hs.tidy.before_live hf.dir hf.live)
      (live_withName hsn hf.live).first_ne fun _ => ?_
    obtain ⟨l, hl⟩ := hs.tidy.chained n f.entry hf.dir hf.live
    rw [Dirent.firstCluster_withName]
    exact ⟨l, hl, hchain hl⟩
  refine ⟨h₃.ext, hs.moves h₃ htidy, fun hw => ?_⟩
  have hnone' : NoEntry m R s.disk sn := by
    rcases hnone with hno | hnone
    · exact absurd hw.reliable (hno.of_extends hr.ext).not_reliable
    · rw [← makeShortName_of_checked hsn, ← hr.disk]
      exact hnone
  refine ⟨⟨h₃.ext.reliable hw.reliable, ?_, hse.copiesEqual g hw.copies⟩,
    .done rfl rfl hsn (hf.toEntry hname) (by simpa using hattr) hnone' hse⟩
  refine hse.exact g hs.tidy rfl hf.dir (fun _ _ => rfl) hw.exact ?_ ?_
  · intro _ i x _ hx hlx
    rw [Dirent.name_withName _ hlen]
    exact Ne.symm (hnone' i x hx hlx)
  · rintro c - - hc (h0 | ⟨l, ⟨e, he, -, hl⟩, hcl⟩)
    · exact absurd h0 hc
    · obtain rfl : f.entry = e := Option.some.inj (hf.dir.symm.trans he)
      exact ⟨l, live_withName hsn hf.live, by rw [Dirent.firstCluster_withName]; exact hl, hcl⟩

/-! ## Freeing a chain and editing its entry -/

/-- What a call does, on a reliable disk, that frees the chain of an entry and then changes the
entry as `upd` says. -/
inductive ReleaseOut (m : Mount) (R : List Nat) (upd : Dirent → Dirent)
    (name : NameArg) (d : Disk) :
    Bool → Disk → Prop
  | done {nm sn : List UInt8} {n : Nat} {e : Dirent} {c : List Nat} {d' : Disk} :
      name = some nm → makeShortNameChecked nm = some sn → Entry m R d sn n e →
      e.attr &&& 0x10 = 0 → Chain (fatValue m d) (maxCluster m) (firstCluster e) c →
      SlotEdit m R (freeAll m d c) d' n upd → ReleaseOut m R upd name d true d'
  | refused : (∀ nm sn n e, name = some nm → makeShortNameChecked nm = some sn →
      Entry m R d sn n e → e.attr &&& 0x10 ≠ 0) → ReleaseOut m R upd name d false d

/-- What `release_spec` needs of the change to the entry: it is left live without a cluster and
under its name, or it is not left live. -/
structure Unlinks (upd : Dirent → Dirent) : Prop where
  first_ne : ∀ e, Live e → upd e 0 ≠ 0
  firstCluster : ∀ e, Live (upd e) → firstCluster (upd e) = 0
  name : ∀ e, Live (upd e) → (upd e).name = e.name

theorem unlinks_deleted : Unlinks fun _ => deletedDirent where
  first_ne _ _ := by decide
  firstCluster _ h := absurd h (by decide)
  name _ h := absurd h (by decide)

theorem unlinks_emptied : Unlinks fun e => (e.withCluster 0).withSize 0 where
  first_ne e h := by
    rw [Dirent.withSize_apply _ _ (by omega), Dirent.withCluster_apply _ _ (by omega)]
    exact h.first_ne
  firstCluster e _ := by
    rw [Dirent.firstCluster_withSize, Dirent.firstCluster_withCluster _ (by omega)]
  name e _ := by rw [Dirent.name_withSize, Dirent.name_withCluster]

section Release

variable {f : Found} {n : Nat} {upd : Dirent → Dirent} {edit : Sector → Sector} {l : List Nat}
  (g : Geometry m) (hs : Safe m R s) (hf : AtSlot m R s.disk f n)
  (hl : Chain (fatValue m s.disk) (maxCluster m) (firstCluster f.entry) l)

include g hs hf hl

/-- An entry unlinked from its chain, after the chain was freed. -/
theorem SlotEdit.released (hupd : Unlinks upd) (h : SlotEdit m R (freeAll m s.disk l) d n upd) :
    (vol m R d).Tidy (maxCluster m) m.bpb.rootCluster R ∧
      (Whole m R s → (vol m R d).Exact (maxCluster m) R ∧ CopiesEqual m d) := by
  have hvol := vol_freeAll g (R := R) l s.disk hl.lt
  have hval : ∀ c, fatValue m (freeAll m s.disk l) c = if c ∈ l then 0 else fatValue m s.disk c :=
    fun c => congrFun (congrArg Vol.fat hvol) c
  have hown : (vol m R s.disk).Owns (maxCluster m) n l := ⟨f.entry, hf.dir, hf.live, hl⟩
  have hfat : ∀ c, ¬(vol m R s.disk).Mine (maxCluster m) n c →
      fatValue m (freeAll m s.disk l) c = fatValue m s.disk c := fun c hc => by
    rw [hval, if_neg fun hcl => hc (.inr ⟨l, hown, hcl⟩)]
  have hdir : (vol m R (freeAll m s.disk l)).dir = (vol m R s.disk).dir := by rw [hvol]
  refine ⟨h.tidy g hs.tidy hdir hf.dir hfat (hs.tidy.before_live hf.dir hf.live)
    (hupd.first_ne _ hf.live) fun hlive => ⟨[], ?_, by simp⟩, fun hw => ⟨?_, ?_⟩⟩
  · rw [hupd.firstCluster _ hlive]
    exact .nil
  · refine h.exact g hs.tidy hdir hf.dir hfat hw.exact (fun hlive => ?_) ?_
    · exact hw.exact.name_ne hf.dir hf.live (hupd.name _ hlive)
    · rintro c - - hc (h0 | ⟨l', hl', hcl⟩)
      · exact absurd (by rw [hval]; split <;> [rfl; exact h0]) hc
      · rw [hl'.det hown] at hcl
        exact absurd (by rw [hval, if_pos hcl]) hc
  · exact h.copiesEqual g (copiesEqual_freeAll g l hl.lt hw.copies)

theorem release_spec (hed : EditsSlot edit f.index upd) (hupd : Unlinks upd) :
    Total (do
      if firstCluster f.entry ≥ 2 then
        if !(← freeClusterChain m (firstCluster f.entry)) then return false
      if !(← ataReadSector f.lba) then return false
      modifySector edit
      ataWriteSector f.lba) s fun ok s' => Extends s s' ∧ (¬Torn s s' → Safe m R s') ∧
        (Whole m R s → Whole m R s' ∧ ok = true ∧
          SlotEdit m R (freeAll m s.disk l) s'.disk n upd) := by
  -- what the last steps do once the chain is free
  have htail : ∀ s₁, Moves s s₁ (freeAll m s.disk l) → (l ≠ [] → Dirty s s₁) → Total (do
      if !(← ataReadSector f.lba) then return false
      modifySector edit
      ataWriteSector f.lba) s₁ fun ok s' => Extends s s' ∧ (¬Torn s s' → Safe m R s') ∧
        (Whole m R s → Whole m R s' ∧ ok = true ∧
          SlotEdit m R (freeAll m s.disk l) s'.disk n upd) := by
    intro s₁ hm₁ hdirty
    refine (editSlot_spec g hs hf.slot hed).mono ?_
    rintro ok s₂ (⟨rfl, hm, hse⟩ | ⟨rfl, hm, hno⟩)
    · rw [hm₁.disk] at hse
      have h₂ := hm₁.trans hm
      obtain ⟨htidy, hwhole⟩ := hse.released g hs hf hl hupd
      exact ⟨h₂.ext, fun _ => hs.moves h₂ htidy, fun hw =>
        ⟨⟨h₂.ext.reliable hw.reliable, (hwhole hw).1, (hwhole hw).2⟩, rfl, hse⟩⟩
    · refine ⟨hm₁.ext.trans hm.ext, fun hnt => ?_, fun hw =>
        absurd hw.reliable (hno.of_extends hm₁.ext).not_reliable⟩
      -- refused between the freeing and the edit: torn, unless there was nothing to free
      cases l with
      | nil => exact hs.reads (hm₁.reads hm)
      | cons c l => exact absurd ((hdirty (by simp)).torn hno) hnt
  refine (total_ite ..).2 ⟨fun hge => (total_bind ..).2 ?_, fun hlt => ?_⟩
  · have hne : l ≠ [] := hl.ne_nil (by omega)
    refine (freeClusterChain_spec g s hl hne).mono ?_
    rintro ok s₁ (⟨rfl, hm, hd⟩ | ⟨rfl, he, hgr, hno, h⟩)
    · exact htail s₁ hm fun _ => hd
    · refine (total_pure ..).2 ⟨he, fun hnt => ?_, fun hw => absurd hw.reliable hno.not_reliable⟩
      rcases h with hd | ht
      · exact hs.moves ⟨he, hgr, hd⟩ hs.tidy
      · exact absurd ht hnt
  · have hnil : l = [] := hl.walk.eq_nil_of_stop (by unfold ChainEnd; omega)
    exact htail s (by rw [hnil]; exact Reads.refl s) (by simp [hnil])

end Release

/-- `fs_delete_file` and `fs_truncate_file` differ in the edit only. -/
theorem releaseCall_spec (g : Geometry m) (name : NameArg) (edit : Nat → Sector → Sector)
    {upd : Dirent → Dirent} (hed : ∀ i, EditsSlot (edit i) i upd) (hupd : Unlinks upd)
    (hs : Safe m R s) :
    Total (do
      let some name := name | return false
      if !m.mounted then return false
      let some _ := makeShortNameChecked name | return false
      let some f ← findRootEntryAt m name | return false
      if f.entry.attr &&& 0x10 != 0 then return false
      if firstCluster f.entry ≥ 2 then
        if !(← freeClusterChain m (firstCluster f.entry)) then return false
      if !(← ataReadSector f.lba) then return false
      modifySector (edit f.index)
      ataWriteSector f.lba) s fun ok s' => Extends s s' ∧ (¬Torn s s' → Safe m R s') ∧
        (Whole m R s → Whole m R s' ∧ ReleaseOut m R upd name s.disk ok s'.disk) := by
  have hkeep : ∀ s', Reads s s' → (Whole m R s → ∀ nm sn n e, name = some nm →
      makeShortNameChecked nm = some sn → Entry m R s.disk sn n e → e.attr &&& 0x10 ≠ 0) →
      Extends s s' ∧ (¬Torn s s' → Safe m R s') ∧
        (Whole m R s → Whole m R s' ∧ ReleaseOut m R upd name s.disk false s'.disk) :=
    fun s' hr h => ⟨hr.ext, fun _ => hs.reads hr, fun hw =>
      ⟨hw.reads hr, hr.disk.symm ▸ .refused (h hw)⟩⟩
  cases name with
  | none => simpa using hkeep s (.refl s) (by simp)
  | some nm =>
  simp only [g.mounted, Bool.not_true, Bool.false_eq_true, if_false]
  cases hsn : makeShortNameChecked nm with
  | none =>
    refine (total_pure ..).2 (hkeep s (.refl s) ?_)
    rintro - _ _ _ _ ⟨⟩ hsn'
    simp [hsn] at hsn'
  | some sn =>
  have hmk := makeShortName_of_checked hsn
  refine (total_bind ..).2 ((findRootEntryAt_spec g nm s hs.tidy).mono ?_)
  rintro r s₁ ⟨hr, ⟨f, n, rfl, hf, hname⟩ | ⟨rfl, hnone⟩⟩
  swap
  · refine (total_pure ..).2 (hkeep s₁ hr ?_)
    rintro hw _ _ n e ⟨⟩ hsn' he
    obtain rfl := Option.some.inj (hsn.symm.trans hsn')
    rcases hnone with hno | hnone
    · exact absurd hw.reliable hno.not_reliable
    · exact absurd he.name (hmk ▸ hnone n e he.dir he.live)
  rw [hmk] at hname
  refine (total_ite ..).2 ⟨fun hattr => (total_pure ..).2 (hkeep s₁ hr ?_), fun hattr => ?_⟩
  · rintro hw _ _ n' e ⟨⟩ hsn' he
    obtain rfl := Option.some.inj (hsn.symm.trans hsn')
    -- names are apart, so the entry found is the only one of the name
    obtain rfl : n' = n := by
      by_contra hne
      exact hw.exact.names n' n e f.entry hne he.dir hf.dir he.live hf.live
        (he.name.trans hname.symm)
    obtain rfl := Option.some.inj (hf.dir.symm.trans he.dir)
    simpa using hattr
  · obtain ⟨c, hc⟩ := hs.tidy.chained n f.entry hf.dir hf.live
    have hf₁ : AtSlot m R s₁.disk f n := hr.disk.symm ▸ hf
    have hc₁ : Chain (fatValue m s₁.disk) (maxCluster m) (firstCluster f.entry) c :=
      hr.disk.symm ▸ hc
    refine (release_spec g (hs.reads hr) hf₁ hc₁ (hed f.index) hupd).mono ?_
    rintro ok s₂ ⟨hext, hsafe, hwhole⟩
    refine ⟨hr.ext.trans hext, fun hnt => hsafe fun ht => hnt (ht.of_extends hr.ext), fun hw => ?_⟩
    obtain ⟨hw₂, rfl, hse⟩ := hwhole (hw.reads hr)
    rw [hr.disk] at hse
    exact ⟨hw₂, .done rfl hsn (hf.toEntry hname) (by simpa using hattr) hc hse⟩

theorem fsDeleteFile_spec (g : Geometry m) (name : NameArg) (hs : Safe m R s) :
    Total (fsDeleteFile m name) s fun ok s' => Extends s s' ∧ (¬Torn s s' → Safe m R s') ∧
      (Whole m R s → Whole m R s' ∧
        ReleaseOut m R (fun _ => deletedDirent) name s.disk ok s'.disk) := by
  unfold fsDeleteFile
  exact releaseCall_spec g name (fun i sec => setDirent sec i deletedDirent)
    (fun i => editsSlot_setDirent i fun _ => deletedDirent_of_ge) unlinks_deleted hs

theorem fsTruncateFile_spec (g : Geometry m) (name : NameArg) (hs : Safe m R s) :
    Total (fsTruncateFile m name) s fun ok s' => Extends s s' ∧ (¬Torn s s' → Safe m R s') ∧
      (Whole m R s → Whole m R s' ∧
        ReleaseOut m R (fun e => (e.withCluster 0).withSize 0) name s.disk ok s'.disk) := by
  unfold fsTruncateFile
  exact releaseCall_spec g name (fun i sec => setSize (setCluster sec i 0) i 0)
    (fun i => editsSlot_setEntry i 0 0) unlinks_emptied hs

end MinervaOS.Fat32
