import MinervaOS.Fat32.Calls

/-!
# Writing a file of one cluster

`fs_write_file` fills the file's only cluster, or a free one that it marks as taken before the entry
names it, so a refused access leaves at worst a taken cluster that no entry has.
-/

namespace MinervaOS.Fat32

open Prog

variable {m : Mount} {R : List Nat} {s s' : Fs} {d d' : Disk}

/-- No data cluster is free. -/
def NoFree (m : Mount) (d : Disk) : Prop :=
  ∀ c, 2 ≤ c → c < maxCluster m → fatValue m d c ≠ 0

theorem eocMark_mod : fat32EocMark % 268435456 = fat32EocMark := by decide

theorem eoc_le_eocMark : fat32Eoc ≤ fat32EocMark := by decide

/-- The FAT of the volume after some copies of an entry were written. -/
theorem vol_fatWrite_cases (g : Geometry m) (d : Disk) {c v k : Nat} (hc : c < maxCluster m)
    (hk : k ≤ m.bpb.fatCount) : fatWrite m d c v 0 k = d ∨ vol m R (fatWrite m d c v 0 k) =
      ⟨Function.update (vol m R d).fat c (v % 268435456), (vol m R d).dir⟩ := by
  cases k with
  | zero => exact .inl (fatWrite_self d c v 0)
  | succ k => exact .inr (vol_fatWrite g d hc (by omega) hk)

/-- A free cluster may be marked as taken. -/
theorem tidy_take (g : Geometry m)
    (ht : (vol m R d).Tidy (maxCluster m) m.bpb.rootCluster R) {c v k : Nat}
    (hc : c < maxCluster m) (h0 : fatValue m d c = 0) (hk : k ≤ m.bpb.fatCount) :
    (vol m R (fatWrite m d c v 0 k)).Tidy (maxCluster m) m.bpb.rootCluster R := by
  rcases vol_fatWrite_cases (R := R) g d (v := v) hc hk with h | h
  · rwa [h]
  · refine ht.setFree (by rw [h]) fun x hx => ?_
    rw [h]
    refine Function.update_of_ne (fun hxc => hx ?_) _ _
    rw [hxc]
    exact h0

/-- What `fs_write_file` does on a reliable disk. -/
inductive WriteOut (m : Mount) (R : List Nat) (name : NameArg) (buffer : BufferArg) (size : UInt32)
    (d : Disk) : Bool → Disk → Prop
  | empty {nm sn : List UInt8} {n : Nat} {e : Dirent} : name = some nm →
      makeShortNameChecked nm = some sn → Entry m R d sn n e → e.attr &&& 0x10 = 0 → size = 0 →
      WriteOut m R name buffer size d true d
  | reuse {nm sn : List UInt8} {n : Nat} {e : Dirent} {d' : Disk} : name = some nm →
      makeShortNameChecked nm = some sn → Entry m R d sn n e → e.attr &&& 0x10 = 0 → size ≠ 0 →
      size.toNat ≤ bytesPerCluster m → firstCluster e ≠ 0 →
      fat32Eoc ≤ fatValue m d (firstCluster e) →
      SlotEdit m R (fillCluster m d (firstCluster e) (buffer.getD fun _ => 0) size.toNat 0
        m.bpb.sectorsPerCluster) d' n
        (fun x => (x.withCluster (firstCluster e)).withSize size.toNat) →
      WriteOut m R name buffer size d true d'
  | alloc {nm sn : List UInt8} {n t : Nat} {e : Dirent} {d' : Disk} : name = some nm →
      makeShortNameChecked nm = some sn → Entry m R d sn n e → e.attr &&& 0x10 = 0 → size ≠ 0 →
      size.toNat ≤ bytesPerCluster m → firstCluster e = 0 → e.size = 0 → 2 ≤ t →
      t < maxCluster m → fatValue m d t = 0 →
      SlotEdit m R (fatWrite m (fillCluster m d t (buffer.getD fun _ => 0) size.toNat 0
        m.bpb.sectorsPerCluster) t fat32EocMark 0 m.bpb.fatCount) d' n
        (fun x => (x.withCluster t).withSize size.toNat) →
      WriteOut m R name buffer size d true d'
  | refused : (∀ nm sn n e, name = some nm → makeShortNameChecked nm = some sn →
      Entry m R d sn n e → e.attr &&& 0x10 = 0 → (buffer.isSome ∨ size = 0) →
      size.toNat ≤ bytesPerCluster m → size ≠ 0 ∧
        (firstCluster e = 0 ∧ (e.size ≠ 0 ∨ NoFree m d) ∨
          firstCluster e ≠ 0 ∧ fatValue m d (firstCluster e) < fat32Eoc)) →
      WriteOut m R name buffer size d false d

/-- The entry after the write: it is as live as before. -/
theorem live_written {e : Dirent} (hl : Live e) (c size : Nat) :
    Live ((e.withCluster c).withSize size) :=
  (live_congr
    (by rw [Dirent.withSize_apply _ _ (by omega), Dirent.withCluster_apply _ _ (by omega)])
    (by rw [Dirent.attr_withSize, Dirent.attr_withCluster])).2 hl

section Commit

variable {n c size : Nat} {e : Dirent} (g : Geometry m) (hs : Safe m R s)
  (he : (vol m R s.disk).dir[n]? = some e) (hl : Live e)

include g hs he hl

/-- The entry keeps its chain. -/
theorem SlotEdit.kept {l : List Nat} {upd : Dirent → Dirent} {d₂ : Disk}
    (hch : Chain (fatValue m s.disk) (maxCluster m) (firstCluster e) l)
    (hvol : vol m R d₂ = vol m R s.disk) (h : SlotEdit m R d₂ d n upd) (hlive : Live (upd e))
    (hc : firstCluster (upd e) = firstCluster e) (hname : (upd e).name = e.name) :
    (vol m R d).Tidy (maxCluster m) m.bpb.rootCluster R ∧
      (Whole m R s → (vol m R d).Exact (maxCluster m) R) := by
  have hval : fatValue m d₂ = fatValue m s.disk := congrArg Vol.fat hvol
  have hdir : (vol m R d₂).dir = (vol m R s.disk).dir := congrArg Vol.dir hvol
  have hown : (vol m R s.disk).Owns (maxCluster m) n l := ⟨e, he, hl, hch⟩
  refine ⟨h.tidy g hs.tidy hdir he (fun c _ => congrFun hval c) (hs.tidy.before_live he hl)
    hlive.first_ne fun _ => ⟨l, ?_, fun c hc => .inr ⟨l, hown, hc⟩⟩, fun hw => ?_⟩
  · rw [hval, hc]
    exact hch
  · refine h.exact g hs.tidy hdir he (fun c _ => congrFun hval c) hw.exact
      (fun _ => hw.exact.name_ne he hl hname) ?_
    rintro c - - hcne (h0 | ⟨l', hl', hcl⟩)
    · exact absurd (by rw [hval]; exact h0) hcne
    · rw [hl'.det hown] at hcl
      exact ⟨l, hlive, by rw [hval, hc]; exact hch, hcl⟩

/-- An entry without a chain gets a cluster that was free. -/
theorem SlotEdit.taken {t : Nat} {d₁ : Disk} (hfirst : firstCluster e = 0) (h2 : 2 ≤ t)
    (hlt : t < maxCluster m) (h0 : fatValue m s.disk t = 0) (hvol : vol m R d₁ = vol m R s.disk)
    (h : SlotEdit m R (fatWrite m d₁ t fat32EocMark 0 m.bpb.fatCount) d n
      fun x => (x.withCluster t).withSize size) :
    (vol m R d).Tidy (maxCluster m) m.bpb.rootCluster R ∧
      (Whole m R s → (vol m R d).Exact (maxCluster m) R) := by
  have hlive := live_written hl t size
  have hwr := vol_fatWrite g (R := R) (v := fat32EocMark) d₁ hlt g.fatCount_pos (Nat.le_refl _)
  have hval : ∀ c, fatValue m (fatWrite m d₁ t fat32EocMark 0 m.bpb.fatCount) c =
      if c = t then fat32EocMark else fatValue m s.disk c := fun c => by
    have := congrFun (congrArg Vol.fat hwr) c
    rw [hvol, eocMark_mod] at this
    exact this.trans (Function.update_apply ..)
  have hdir : (vol m R (fatWrite m d₁ t fat32EocMark 0 m.bpb.fatCount)).dir =
      (vol m R s.disk).dir := by rw [hwr, hvol]
  have hmine : (vol m R s.disk).Mine (maxCluster m) n t := .inl h0
  have hfat : ∀ c, ¬(vol m R s.disk).Mine (maxCluster m) n c →
      fatValue m (fatWrite m d₁ t fat32EocMark 0 m.bpb.fatCount) c = fatValue m s.disk c :=
    fun c hc => by
      have hct : c ≠ t := fun hct => hc (hct ▸ hmine)
      rw [hval, if_neg hct]
  have hfc : firstCluster ((e.withCluster t).withSize size) = t := by
    have := g.maxCluster_lt
    unfold fat32Eoc at this
    rw [Dirent.firstCluster_withSize, Dirent.firstCluster_withCluster _ (by omega)]
  have hch : Chain (fatValue m (fatWrite m d₁ t fat32EocMark 0 m.bpb.fatCount)) (maxCluster m)
      (firstCluster ((e.withCluster t).withSize size)) [t] := by
    rw [hfc]
    refine .single h2 hlt (Nat.lt_trans hlt g.maxCluster_lt) ?_
    rw [hval, if_pos rfl]
    exact eoc_le_eocMark
  refine ⟨h.tidy g hs.tidy hdir he hfat (hs.tidy.before_live he hl) hlive.first_ne fun _ =>
    ⟨[t], hch, by simpa using hmine⟩, fun hw => ?_⟩
  refine h.exact g hs.tidy hdir he hfat hw.exact (fun _ => hw.exact.name_ne he hl (by simp)) ?_
  rintro c - - hcne (hc0 | ⟨l, ⟨x, hx, -, hchx⟩, hcl⟩)
  · refine ⟨[t], hlive, hch, ?_⟩
    by_contra hct
    rw [hval, if_neg (by simpa using hct)] at hcne
    exact hcne hc0
  · obtain rfl := Option.some.inj (he.symm.trans hx)
    rw [hfirst] at hchx
    rw [hchx.eq_nil] at hcl
    simp at hcl

end Commit

theorem fsWriteFile_spec (g : Geometry m) (name : NameArg) (buffer : BufferArg) (size : UInt32)
    (hs : Safe m R s) :
    Total (fsWriteFile m name buffer size) s fun ok s' => Extends s s' ∧ Safe m R s' ∧
      (Whole m R s → Whole m R s' ∧ WriteOut m R name buffer size s.disk ok s'.disk) := by
  have hkeep : ∀ s', Extends s s' → Safe m R s' → s'.disk = s.disk → (Whole m R s →
      ∀ nm sn n e, name = some nm → makeShortNameChecked nm = some sn → Entry m R s.disk sn n e →
        e.attr &&& 0x10 = 0 → (buffer.isSome ∨ size = 0) → size.toNat ≤ bytesPerCluster m →
        size ≠ 0 ∧ (firstCluster e = 0 ∧ (e.size ≠ 0 ∨ NoFree m s.disk) ∨
          firstCluster e ≠ 0 ∧ fatValue m s.disk (firstCluster e) < fat32Eoc)) →
      Extends s s' ∧ Safe m R s' ∧
        (Whole m R s → Whole m R s' ∧ WriteOut m R name buffer size s.disk false s'.disk) :=
    fun s' hext hs' hd h => ⟨hext, hs', fun hw =>
      ⟨⟨hext.reliable hw.reliable, hd.symm ▸ hw.exact, hd.symm ▸ hw.copies⟩,
        hd.symm ▸ .refused (h hw)⟩⟩
  have hfault : ∀ {ok : Bool} s', Extends s s' → Safe m R s' → s.faults ≠ [] →
      Extends s s' ∧ Safe m R s' ∧
        (Whole m R s → Whole m R s' ∧ WriteOut m R name buffer size s.disk ok s'.disk) :=
    fun s' hext hs' hne => ⟨hext, hs', fun hw => absurd hw.reliable hne⟩
  cases name with
  | none => exact (total_pure ..).2 (hkeep s (.refl s) hs rfl (by simp))
  | some nm =>
  refine (total_ite ..).2 ⟨fun hnull =>
    (total_pure ..).2 (hkeep s (.refl s) hs rfl ?_), fun _ => ?_⟩
  · intro _ _ _ _ _ _ _ _ _ hbuf _
    simp only [g.mounted, Bool.not_true, Bool.false_or, Bool.and_eq_true, Option.isNone_iff_eq_none,
      decide_eq_true_eq] at hnull
    rcases hbuf with hbuf | rfl
    · simp [hnull.1] at hbuf
    · exact absurd hnull.2 (by decide)
  cases hsn : makeShortNameChecked nm with
  | none =>
    refine (total_pure ..).2 (hkeep s (.refl s) hs rfl ?_)
    rintro - _ _ _ _ ⟨⟩ hsn'
    simp [hsn] at hsn'
  | some sn =>
  have hmk := makeShortName_of_checked hsn
  refine (total_ite ..).2 ⟨fun hbig => (total_pure ..).2 (hkeep s (.refl s) hs rfl ?_),
    fun hbig => ?_⟩
  · intro _ _ _ _ _ _ _ _ _ _ hle
    omega
  refine (total_bind ..).2 ((findRootEntryAt_spec g nm s hs.tidy).mono ?_)
  rintro r s₁ ⟨hr, ⟨f, n, rfl, hf, hname⟩ | ⟨rfl, hnone⟩⟩
  swap
  · refine (total_pure ..).2 (hkeep s₁ hr.ext (hs.reads hr) hr.disk ?_)
    rintro hw _ _ n e ⟨⟩ hsn' he
    obtain rfl := Option.some.inj (hsn.symm.trans hsn')
    rcases hnone with hno | hnone
    · exact absurd hw.reliable hno.not_reliable
    · exact absurd he.name (hmk ▸ hnone n e he.dir he.live)
  rw [hmk] at hname
  have hent := hf.toEntry hname
  -- on a whole volume the entry found is the only one of the name
  have honly : Whole m R s → ∀ sn' n' e, makeShortNameChecked nm = some sn' →
      Entry m R s.disk sn' n' e → e = f.entry := by
    intro hw sn' n' e hsn' he
    obtain rfl := Option.some.inj (hsn.symm.trans hsn')
    obtain rfl : n' = n := by
      by_contra hne
      exact hw.exact.names n' n e f.entry hne he.dir hf.dir he.live hf.live
        (he.name.trans hname.symm)
    exact Option.some.inj (he.dir.symm.trans hf.dir)
  have hs₁ := hs.reads hr
  refine (total_ite ..).2 ⟨fun hattr => (total_pure ..).2
    (hkeep s₁ hr.ext hs₁ hr.disk ?_), fun hattr => ?_⟩
  · rintro hw _ _ n' e ⟨⟩ hsn' he hat
    rw [honly hw _ n' e hsn' he] at hat
    simp [hat] at hattr
  have hattr' : f.entry.attr &&& 0x10 = 0 := by simpa using hattr
  refine (total_ite ..).2 ⟨fun hzero => (total_pure ..).2 ⟨hr.ext, hs₁, fun hw =>
    ⟨hw.reads hr, hr.disk.symm ▸ .empty rfl hsn hent hattr' hzero⟩⟩, fun hzero => ?_⟩
  refine (total_ite ..).2 ⟨fun hfirst => ?_, fun hfirst => ?_⟩
  · -- no cluster yet: take one
    refine (total_ite ..).2 ⟨fun hsz => (total_pure ..).2 (hkeep s₁ hr.ext hs₁ hr.disk ?_),
      fun hsz => (total_bind ..).2 ?_⟩
    · rintro hw _ _ n' e ⟨⟩ hsn' he _ _ _
      rw [honly hw _ n' e hsn' he]
      exact ⟨hzero, .inl ⟨hfirst, .inl (by simpa using hsz)⟩⟩
    have hsz' : f.entry.size = 0 := by simpa using hsz
    refine (findFreeCluster_spec g s₁).mono ?_
    rintro r s₂ (⟨t, rfl, hg⟩ | ⟨rfl, hr₂, hfree⟩)
    swap
    · have h₂ := hr.reads hr₂
      refine (total_pure ..).2 (hkeep s₂ h₂.ext (hs.reads h₂) h₂.disk ?_)
      rintro hw _ _ n' e ⟨⟩ hsn' he _ _ _
      rw [honly hw _ n' e hsn' he]
      rcases hfree with hno | hfree
      · exact absurd hw.reliable (hno.of_extends hr.ext).not_reliable
      · exact ⟨hzero, .inl ⟨hfirst, .inr (hr.disk ▸ hfree)⟩⟩
    have hs₂ := hs₁.grants hg
    have hext₂ := hr.ext.trans hg.ext
    have hd₂ : s₂.disk = s.disk := hg.disk.trans hr.disk
    have h0 : fatValue m s.disk t = 0 := hr.disk ▸ hg.free
    refine (total_bind ..).2 ((writeBufferToCluster_spec g hg.two_le hg.lt _ _ s₂).mono ?_)
    rintro ok s₃ ⟨j, hj, hm₃, hok₃, hno₃⟩
    have hvol₃ : vol m R s₃.disk = vol m R s.disk := by
      rw [hm₃.disk, hd₂]
      exact vol_fillCluster g s.disk _ _ hg.two_le hs.root_two_le (hs.not_root_of_free h0) hj
    have hs₃ : Safe m R s₃ := hs₂.moves hm₃ (by rw [← hm₃.disk, hvol₃]; exact hs.tidy)
    have hext₃ := hext₂.trans hm₃.ext
    cases ok with
    | false => exact (total_pure ..).2 (hfault s₃ hext₃ hs₃
        ((hno₃ rfl).of_extends hext₂).not_reliable)
    | true =>
    obtain rfl := hok₃ rfl
    refine (total_bind ..).2 ((writeFatEntry_spec g hg.lt _ s₃).mono ?_)
    rintro ok s₄ ⟨k, hk, hm₄, hok₄, hno₄⟩
    have hs₄ : Safe m R s₄ := hs₃.moves hm₄ (tidy_take g hs₃.tidy hg.lt
      ((congrFun (congrArg Vol.fat hvol₃) t).trans h0) hk)
    have hext₄ := hext₃.trans hm₄.ext
    cases ok with
    | false => exact (total_pure ..).2 (hfault s₄ hext₄ hs₄
        ((hno₄ rfl).1.of_extends hext₃).not_reliable)
    | true =>
    obtain rfl := (hok₄ rfl).1
    refine (editSlot_spec g hs hf.slot (editsSlot_setEntry f.index t size.toNat)).mono ?_
    rintro ok s₅ (⟨rfl, hm₅, hse⟩ | ⟨rfl, hm₅, hno₅⟩)
    swap
    · exact hfault s₅ (hext₄.trans hm₅.ext) (hs₄.reads hm₅)
        (hno₅.of_extends hext₄).not_reliable
    rw [hm₄.disk] at hse
    obtain ⟨htidy, hexact⟩ := hse.taken g hs hf.dir hf.live hfirst hg.two_le hg.lt h0 hvol₃
    have hext₅ := hext₄.trans hm₅.ext
    refine ⟨hext₅, hs₄.moves hm₅ htidy, fun hw => ⟨⟨hext₅.reliable hw.reliable, hexact hw, ?_⟩, ?_⟩⟩
    · refine hse.copiesEqual g (copiesEqual_fatWrite g _ hg.lt ?_)
      rw [hm₃.disk, hd₂]
      exact copiesEqual_fillCluster g _ _ _ hw.copies
    · rw [hm₃.disk, hd₂] at hse
      exact .alloc rfl hsn hent hattr' hzero (by omega) hfirst hsz' hg.two_le hg.lt h0 hse
  · -- the file's own cluster
    obtain ⟨l, hch⟩ := hs.tidy.chained n f.entry hf.dir hf.live
    have hmem := hch.start_mem hfirst
    have h2 := hch.two_le hmem
    have hlt := hch.lt _ hmem
    have hoff : firstCluster f.entry ∉ R :=
      hs.tidy.off_root n l ⟨f.entry, hf.dir, hf.live, hch⟩ hmem
    refine (total_bind ..).2 ((clusterIsSingle_spec g h2 hlt s₁).mono ?_)
    rintro ok s₂ ⟨hr₂, hsingle⟩
    have h₂ := hr.reads hr₂
    cases ok with
    | false =>
      refine (total_pure ..).2 (hkeep s₂ h₂.ext (hs.reads h₂) h₂.disk ?_)
      rintro hw _ _ n' e ⟨⟩ hsn' he _ _ _
      rw [honly hw _ n' e hsn' he]
      rcases hsingle with hsingle | ⟨-, hno⟩
      · refine ⟨hzero, .inr ⟨hfirst, ?_⟩⟩
        rw [hr.disk] at hsingle
        simpa using hsingle.symm
      · exact absurd hw.reliable (hno.of_extends hr.ext).not_reliable
    | true =>
    refine (total_bind ..).2 ((writeBufferToCluster_spec g h2 hlt _ _ s₂).mono ?_)
    rintro ok s₃ ⟨j, hj, hm₃, hok₃, hno₃⟩
    have hvol₃ : vol m R s₃.disk = vol m R s.disk := by
      rw [hm₃.disk, h₂.disk]
      exact vol_fillCluster g s.disk _ _ h2 hs.root_two_le hoff hj
    have hs₃ : Safe m R s₃ :=
      (hs.reads h₂).moves hm₃ (by rw [← hm₃.disk, hvol₃]; exact hs.tidy)
    have hext₃ := h₂.ext.trans hm₃.ext
    cases ok with
    | false => exact (total_pure ..).2 (hfault s₃ hext₃ hs₃
        ((hno₃ rfl).of_extends h₂.ext).not_reliable)
    | true =>
    obtain rfl := hok₃ rfl
    refine (editSlot_spec g hs hf.slot
      (editsSlot_setEntry f.index (firstCluster f.entry) size.toNat)).mono ?_
    rintro ok s₄ (⟨rfl, hm₄, hse⟩ | ⟨rfl, hm₄, hno₄⟩)
    swap
    · exact hfault s₄ (hext₃.trans hm₄.ext) (hs₃.reads hm₄)
        (hno₄.of_extends hext₃).not_reliable
    have hfc : firstCluster ((f.entry.withCluster (firstCluster f.entry)).withSize size.toNat) =
        firstCluster f.entry := by
      rw [Dirent.firstCluster_withSize, Dirent.firstCluster_withCluster _ (firstCluster_lt _)]
    obtain ⟨htidy, hexact⟩ := hse.kept g hs hf.dir hf.live hch hvol₃
      (live_written hf.live _ _) hfc (by simp)
    have hext₄ := hext₃.trans hm₄.ext
    refine ⟨hext₄, hs₃.moves hm₄ htidy, fun hw => ⟨⟨hext₄.reliable hw.reliable, hexact hw, ?_⟩, ?_⟩⟩
    · refine hse.copiesEqual g ?_
      rw [hm₃.disk, h₂.disk]
      exact copiesEqual_fillCluster g _ _ _ hw.copies
    · rw [hm₃.disk, h₂.disk] at hse
      have hsing : fat32Eoc ≤ fatValue m s.disk (firstCluster f.entry) := by
        rcases hsingle with hsingle | ⟨hff, -⟩
        · rw [hr.disk] at hsingle
          simpa using hsingle.symm
        · cases hff
      exact .reuse rfl hsn hent hattr' hzero (by omega) hfirst hsing hse

end MinervaOS.Fat32
