import MinervaOS.Fat32.Refinement
import MinervaOS.Fat32.Runs

/-!
# Chains as long as their files

The size of a file is in its entry and the length of its chain is in the FAT. `Sized` says that they
agree: a file with a first cluster has as many clusters as its bytes need, and one at least. Every
call keeps that except for an append that finds some of the clusters it needs and then no more: it
returns 0, the size stays, and the clusters it has linked stay as well (`sized_run_iff`).
-/

namespace MinervaOS.Fat32

open Prog

variable {m : Mount} {R : List Nat} {s s' : Fs} {d d₁ d' : Disk} {n : Nat} {e e' : Dirent}
  {name : NameArg} {buffer : BufferArg} {size : UInt32} {ok : Bool}

/-! ## How many clusters a size needs -/

/-- The clusters of a file of `size` bytes that has any. -/
def clustersOf (m : Mount) (size : Nat) : Nat :=
  max 1 ((size + (bytesPerCluster m - 1)) / bytesPerCluster m)

theorem one_le_clustersOf (m : Mount) (size : Nat) : 1 ≤ clustersOf m size := Nat.le_max_left _ _

section Counts

variable (g : Geometry m) {k size : Nat}

include g

theorem clustersOf_le (h : size ≤ (k + 1) * bytesPerCluster m) : clustersOf m size ≤ k + 1 := by
  have hpos := bytesPerCluster_pos g
  refine Nat.max_le.2 ⟨Nat.le_add_left 1 k, Nat.lt_succ_iff.1 ?_⟩
  rw [Nat.div_lt_iff_lt_mul hpos, Nat.succ_mul (k + 1)]
  omega

theorem lt_clustersOf (h : k * bytesPerCluster m < size) : k < clustersOf m size := by
  have hpos := bytesPerCluster_pos g
  refine Nat.lt_of_lt_of_le ?_ (Nat.le_max_right _ _)
  rw [← Nat.succ_le_iff, Nat.le_div_iff_mul_le hpos, Nat.succ_mul]
  omega

/-- The clusters are full but for the last, which holds something unless it is the only one. -/
theorem clustersOf_eq (h : size ≤ (k + 1) * bytesPerCluster m)
    (hlast : k = 0 ∨ k * bytesPerCluster m < size) : clustersOf m size = k + 1 := by
  refine Nat.le_antisymm (clustersOf_le g h) ?_
  rcases hlast with rfl | hlast
  · exact one_le_clustersOf m size
  · exact lt_clustersOf g hlast

end Counts

/-! ## Sizes and chains -/

structure Sized (m : Mount) (R : List Nat) (d : Disk) : Prop where
  chained : ∀ (n : Nat) (e : Dirent), (vol m R d).dir[n]? = some e → IsFile e →
    2 ≤ firstCluster e → ∃ l, Chain (fatValue m d) (maxCluster m) (firstCluster e) l ∧
      l.length = clustersOf m e.size
  empty : ∀ (n : Nat) (e : Dirent), (vol m R d).dir[n]? = some e → IsFile e →
    firstCluster e = 0 → e.size = 0

theorem Replaced.sized (h : Replaced m R d d' n e e') (hz : Sized m R d)
    (hfull : IsFile e' → 2 ≤ firstCluster e' →
      ∃ l, Chain (fatValue m d') (maxCluster m) (firstCluster e') l ∧
        l.length = clustersOf m e'.size)
    (hempty : IsFile e' → firstCluster e' = 0 → e'.size = 0) : Sized m R d' := by
  refine ⟨fun i x hx hf h2 => ?_, fun i x hx hf h0 => ?_⟩
  · by_cases hin : i = n
    · obtain rfl := Option.some.inj (h.slot'.symm.trans (hin ▸ hx))
      exact hfull hf h2
    · have hx' := h.other hin ▸ hx
      obtain ⟨l, hl, hlen⟩ := hz.chained i x hx' hf h2
      exact ⟨l, (h.others i x l hin hx' hf.1 hl).1, hlen⟩
  · by_cases hin : i = n
    · obtain rfl := Option.some.inj (h.slot'.symm.trans (hin ▸ hx))
      exact hempty hf h0
    · exact hz.empty i x (h.other hin ▸ hx) hf h0

section Out

variable (g : Geometry m) (ht : (vol m R d).Tidy (maxCluster m) m.bpb.rootCluster R)
  (hz : Sized m R d)

include g ht hz

theorem CreateOut.sized (h : CreateOut m R name d ok d') : Sized m R d' := by
  cases h with
  | refused => exact hz
  | @done _ sn n e _ hnm hsn hno hfree hse =>
    refine (hse.replaced g ht (Others.refl d n) rfl hfree.dir).sized hz (fun _ h2 => ?_)
      fun _ _ => size_newDirent sn
    rw [firstCluster_newDirent] at h2
    omega

theorem WriteOut.sized (h : WriteOut m R name buffer size d ok d') : Sized m R d' := by
  cases ok with
  | false =>
    cases h with
    | refused => exact hz
  | true =>
  obtain ⟨nm, rfl⟩ : ∃ nm, name = some nm := by
    cases h with
    | empty hnm | reuse hnm | alloc hnm => exact ⟨_, hnm⟩
  rcases h.filled g ht with ⟨sn, n, e, -, -, -, -, rfl⟩ |
    ⟨sn, n, e, c, d₁, hsn, he, hattr, h0, hle, hf⟩
  · exact hz
  have hsize : ((e.withCluster c).withSize size.toNat).size = size.toNat := by
    rw [Dirent.size_withSize]
    exact Nat.mod_eq_of_lt size.toNat_lt
  have hch := hf.chain g (e := e)
  have hch' := (hf.edit.contents_eq g (fun _ => ht.root.two_le) hch
    (by simpa [List.Disjoint] using fun hR => ht.not_mine_root hR hf.mine)).1
  refine (hf.replaced g ht he).sized hz (fun _ _ => ⟨[c], hch', ?_⟩) fun _ hfc => ?_
  · rw [hsize, clustersOf_eq g (k := 0) (by omega) (.inl rfl)]
    rfl
  · rw [hfc] at hch
    exact absurd hch.eq_nil (List.cons_ne_nil _ _)

theorem ReleaseOut.sized {upd : Dirent → Dirent} (hupd : Unlinks upd)
    (hsize : ∀ e, Live (upd e) → (upd e).size = 0) (h : ReleaseOut m R upd name d ok d') :
    Sized m R d' := by
  cases h with
  | refused => exact hz
  | @done _ sn n e c _ hnm hsn he hattr hch hse =>
    refine (hse.replaced_freed g ht he hch).sized hz (fun hf h2 => ?_) fun hf _ => hsize e hf.1
    rw [hupd.firstCluster e hf.1] at h2
    omega

theorem RenameOut.sized {oldName newName : NameArg} (h : RenameOut m R oldName newName d ok d') :
    Sized m R d' := by
  cases h with
  | refused => exact hz
  | @done _ _ sn n e _ ho hn hsn he hattr hno hse =>
    have hfile : IsFile e := ⟨he.live, hattr⟩
    refine (hse.replaced g ht (Others.refl d n) rfl he.dir).sized hz (fun _ h2 => ?_) fun _ h0 => ?_
    · rw [Dirent.firstCluster_withName] at h2
      obtain ⟨l, hch, hlen⟩ := hz.chained n e he.dir hfile h2
      refine ⟨l, ?_, by rw [Dirent.size_withName, hlen]⟩
      rw [Dirent.firstCluster_withName]
      exact (hse.contents_eq g (fun _ => ht.root.two_le) hch
        (ht.off_root n l ⟨e, he.dir, he.live, hch⟩)).1
    · rw [Dirent.firstCluster_withName] at h0
      rw [Dirent.size_withName]
      exact hz.empty n e he.dir hfile h0

end Out

/-! ## Appending -/

/-- The walk to the tail ends at the last cluster of a chain that is as long as its file. -/
theorem appendSeek_tail (g : Geometry m) (hrel : s.faults = []) {first size : Nat} {l : List Nat}
    (hch : Chain (fatValue m s.disk) (maxCluster m) first l) (hlen : l.length = clustersOf m size) :
    Total (appendSeek m size first size) s fun r s' => Reads s s' ∧
      ∃ pre c off, r = some (c, off) ∧ l = pre ++ [c] ∧ off ≤ bytesPerCluster m ∧
        size = pre.length * bytesPerCluster m + off := by
  have hone := one_le_clustersOf m size
  have hne : l ≠ [] := List.ne_nil_of_length_pos (by omega)
  obtain ⟨c₀, l₀, rfl⟩ := List.exists_cons_of_ne_nil hne
  obtain rfl : first = c₀ := by cases hch.walk with | cons _ _ => rfl
  refine (appendSeek_spec g l₀ _ _ _ s (Nat.le_refl _) hch.walk hch.lt hch.link).mono ?_
  rintro r s' ⟨hr, ⟨pre, c, post, off, rfl, hsplit, hoff, hsize⟩ | ⟨rfl, hno | hlong⟩⟩
  · -- a cluster behind it would be one too many
    have hle : clustersOf m size ≤ pre.length + 1 := clustersOf_le g (by rw [Nat.succ_mul]; omega)
    rw [hsplit, List.length_append, List.length_cons] at hlen
    have hpost : post = [] := List.eq_nil_of_length_eq_zero (by omega)
    exact ⟨hr, pre, c, off, rfl, by rw [hsplit, hpost], hoff, hsize⟩
  · exact absurd hrel hno.not_reliable
  · have hlt := lt_clustersOf g hlong
    rw [List.length_cons] at hlen
    omega

/-- The cluster that `fs_append_file` takes for the tail of a file is the last of its chain. -/
def SeeksTails (m : Mount) (R : List Nat) (s : Fs) : Prop :=
  ∀ (n : Nat) (e : Dirent), (vol m R s.disk).dir[n]? = some e → IsFile e → 2 ≤ firstCluster e →
    Total (appendSeek m e.size (firstCluster e) e.size) s fun r s' =>
      ∃ c off, r = some (c, off) ∧ fat32Eoc ≤ fatValue m s'.disk c

theorem Sized.seeksTails (g : Geometry m) (hrel : s.faults = []) (hz : Sized m R s.disk) :
    SeeksTails m R s := by
  intro n e he hf h2
  obtain ⟨l, hch, hlen⟩ := hz.chained n e he hf h2
  refine (appendSeek_tail g hrel hch hlen).mono ?_
  rintro r s' ⟨hr, pre, c, off, rfl, rfl, -, -⟩
  refine ⟨c, off, rfl, ?_⟩
  rw [hr.disk]
  exact hch.eoc_last

/-- A file whose chain has grown is as long as its size says if nothing has been linked. -/
theorem Extended.sized_iff {l more : List Nat} (h : Extended m R d d' n e l (l ++ more))
    (hz : Sized m R d) (he : (vol m R d).dir[n]? = some e) (hf : IsFile e)
    (h2 : 2 ≤ firstCluster e) : Sized m R d' ↔ more = [] := by
  obtain ⟨l', hch, hlen⟩ := hz.chained n e he hf h2
  obtain rfl := hch.det h.old
  constructor
  · intro hz'
    obtain ⟨l₂, hch₂, hlen₂⟩ := hz'.chained n e (h.dir ▸ he) hf h2
    have hsum := congrArg List.length (hch₂.det h.chain)
    rw [List.length_append] at hsum
    exact List.eq_nil_of_length_eq_zero (by omega)
  · rintro rfl
    refine ⟨fun i x hx hfx hx2 => ?_, fun i x hx => hz.empty i x (h.dir ▸ hx)⟩
    rw [h.dir] at hx
    by_cases hin : i = n
    · obtain rfl := Option.some.inj (he.symm.trans (hin ▸ hx))
      exact ⟨_, h.chain, by rw [List.append_nil, hlen]⟩
    · obtain ⟨k, hk, hklen⟩ := hz.chained i x hx hfx hx2
      exact ⟨k, (h.others i x k hin hx hfx.1 hk).1, hklen⟩

/-- An append that needs more clusters than are free, where some are. -/
def ShortAppend (m : Mount) (R : List Nat) (d : Disk) (name : NameArg) (buffer : BufferArg)
    (size : UInt32) : Prop :=
  ∃ nm sn n e, name = some nm ∧ makeShortNameChecked nm = some sn ∧ buffer.isSome ∧
    Entry m R d sn n e ∧ e.attr &&& 0x10 = 0 ∧ firstCluster e ≠ 0 ∧
    e.size + size.toNat < 4294967296 ∧ 0 < (freeClusters m d).card ∧
    clustersOf m e.size + (freeClusters m d).card < clustersOf m (e.size + size.toNat)

theorem fsAppendFile_sized (g : Geometry m) (name : NameArg) (buffer : BufferArg) (size : UInt32)
    (hs : Safe m R s) (hw : Whole m R s) (hz : Sized m R s.disk) :
    Total (fsAppendFile m name buffer size) s fun _ s' =>
      Sized m R s'.disk ↔ ¬ShortAppend m R s.disk name buffer size := by
  have hkeep : ∀ s', Reads s s' → ¬ShortAppend m R s.disk name buffer size →
      (Sized m R s'.disk ↔ ¬ShortAppend m R s.disk name buffer size) :=
    fun s' hr hno => iff_of_true (hr.disk.symm ▸ hz) hno
  cases name with
  | none =>
    refine (total_pure ..).2 (hkeep s (.refl s) ?_)
    rintro ⟨_, _, _, _, ⟨⟩, -⟩
  | some nm =>
  refine (total_ite ..).2 ⟨fun hnull => (total_pure ..).2 (hkeep s (.refl s) ?_), fun hnull => ?_⟩
  · rintro ⟨_, _, _, _, -, -, hbuf, -⟩
    rw [g.mounted, Option.isNone_eq_false_iff.2 hbuf] at hnull
    exact Bool.false_ne_true hnull
  refine (total_ite ..).2 ⟨fun hzero => (total_pure ..).2 (hkeep s (.refl s) ?_), fun hzero => ?_⟩
  · rintro ⟨_, _, _, _, -, -, -, -, -, -, -, -, hshort⟩
    rw [hzero, UInt32.toNat_zero, Nat.add_zero] at hshort
    omega
  have hn : 0 < size.toNat := Nat.pos_of_ne_zero fun h =>
    hzero (UInt32.toNat_inj.1 (h.trans UInt32.toNat_zero.symm))
  have hbuf : buffer.isSome := by
    cases buffer with
    | some b => rfl
    | none =>
      have hpos : size > 0 := UInt32.lt_iff_toNat_lt.2 hn
      rw [g.mounted, decide_eq_true hpos] at hnull
      exact absurd rfl hnull
  cases hsn : makeShortNameChecked nm with
  | none =>
    refine (total_pure ..).2 (hkeep s (.refl s) ?_)
    rintro ⟨_, _, _, _, ⟨⟩, hsn', -⟩
    exact absurd (hsn.symm.trans hsn') (Option.some_ne_none _).symm
  | some sn =>
  refine (total_bind ..).2 ((findRootEntryAt_spec g nm s hs.tidy).mono ?_)
  rintro r s₁ ⟨hr, ⟨f, n, rfl, hf, hname⟩ | ⟨rfl, hnone⟩⟩
  swap
  · refine (total_pure ..).2 (hkeep s₁ hr ?_)
    rintro ⟨_, _, _, _, ⟨⟩, hsn', -, he, -⟩
    rw [makeShortName_of_checked hsn'] at hnone
    exact hnone.resolve_left (fun hno => hno.not_reliable hw.reliable) _ _ he.dir he.live he.name
  rw [makeShortName_of_checked hsn] at hname
  have hent := hf.toEntry hname
  -- the entry is the one that the condition is about
  have hshort : ShortAppend m R s.disk (some nm) buffer size → f.entry.attr &&& 0x10 = 0 ∧
      firstCluster f.entry ≠ 0 ∧ f.entry.size + size.toNat < 4294967296 ∧
      0 < (freeClusters m s.disk).card ∧ clustersOf m f.entry.size + (freeClusters m s.disk).card <
        clustersOf m (f.entry.size + size.toNat) := by
    rintro ⟨_, _, _, _, ⟨⟩, hsn', -, he, hattr, hfirst, hsum, hfree, hlt⟩
    obtain rfl := Option.some.inj (hsn.symm.trans hsn')
    obtain ⟨-, rfl⟩ := hent.det hw.exact he
    exact ⟨hattr, hfirst, hsum, hfree, hlt⟩
  refine (total_ite ..).2 ⟨fun hattr =>
    (total_pure ..).2 (hkeep s₁ hr fun h => ?_), fun hattr => ?_⟩
  · rw [(hshort h).1] at hattr
    exact absurd hattr (by decide)
  have hfile : IsFile f.entry := ⟨hf.live, by simpa using hattr⟩
  obtain ⟨l₁, hch₁⟩ := hs.tidy.chained n f.entry hf.dir hf.live
  refine (total_ite ..).2 ⟨fun hbad =>
    (total_pure ..).2 (hkeep s₁ hr fun h => ?_), fun hfirst => ?_⟩
  · obtain ⟨-, hne, hsum, -⟩ := hshort h
    have h2 := hch₁.two_le (hch₁.start_mem hne)
    rw [u32_of_lt hsum] at hbad
    simp only [Bool.or_eq_true, decide_eq_true_eq] at hbad
    omega
  simp only [Bool.or_eq_true, decide_eq_true_eq, not_or, Nat.not_lt] at hfirst
  have hsum : f.entry.size + size.toNat < 4294967296 := by
    have h1 := f.entry.size_lt
    have h2 := size.toNat_lt
    have h3 := hfirst.2
    unfold u32 at h3
    omega
  obtain ⟨l, hch, hlen⟩ := hz.chained n f.entry hf.dir hfile hfirst.1
  have hrel₁ := hr.ext.reliable hw.reliable
  refine (total_bind ..).2 ((appendSeek_tail g hrel₁ (hr.disk.symm ▸ hch) hlen).mono ?_)
  rintro r s₂ ⟨hr₂, pre, c, off, rfl, rfl, hoff, hsize⟩
  have h₂ : Reads s s₂ := hr.reads hr₂
  have hcmem : c ∈ pre ++ [c] := by simp
  have hc : c < maxCluster m := hch.lt c hcmem
  have h2 : 2 ≤ c := hch.two_le hcmem
  have hrel₂ := h₂.ext.reliable hw.reliable
  refine (total_bind ..).2 ((readFatEntry_spec g hc s₂).mono ?_)
  rintro r s₃ ⟨hr₃, rfl | ⟨rfl, hno⟩⟩
  swap
  · exact absurd hrel₂ hno.not_reliable
  have h₃ : Reads s s₃ := h₂.reads hr₃
  refine (total_ite ..).2 ⟨fun htail => ?_, fun _ => ?_⟩
  · rw [h₂.disk] at htail
    exact absurd hch.eoc_last (Nat.not_le.2 htail)
  have hown : (vol m R s.disk).Owns (maxCluster m) n (pre ++ [c]) := ⟨f.entry, hf.dir, hf.live, hch⟩
  have hoffR : c ∉ R := hs.tidy.off_root n _ hown hcmem
  refine (total_bind ..).2 ((appendFill_spec g h2 hc _ size.toNat size.toNat 0 off s₃ (by omega)
    hoff).mono ?_)
  rintro r s₄ ⟨k, hk, hm₄, ⟨rfl, hkmax⟩ | ⟨rfl, hno⟩⟩
  swap
  · exact absurd (h₃.ext.reliable hw.reliable) hno.not_reliable
  rw [h₃.disk] at hm₄
  have hvol₄ : vol m R s₄.disk = vol m R s.disk := by
    rw [hm₄.disk]
    exact vol_patchCluster g s.disk _ _ _ h2 hs.root_two_le hoffR
  have hval₄ : fatValue m s₄.disk = fatValue m s.disk := congrArg Vol.fat hvol₄
  have hext₄ := h₃.ext.trans hm₄.ext
  have hs₄ : Safe m R s₄ := (hs.reads h₃).moves hm₄ (by rw [← hm₄.disk, hvol₄]; exact hs.tidy)
  have hw₄ : Whole m R s₄ := by
    refine ⟨hext₄.reliable hw.reliable, hvol₄.symm ▸ hw.exact, ?_⟩
    rw [hm₄.disk]
    exact copiesEqual_congr g (fun x hx => patchCluster_of_lt _ _ _ _ _ hx) hw.copies
  refine (total_bind ..).2 ((appendGrow_spec g _ size.toNat hf.live size.toNat c _ s₄ pre (by omega)
    hs₄ (by rw [hvol₄]; exact hf.dir) (by rw [hval₄]; exact hch)).mono ?_)
  rintro ok s₅ ⟨hext₅, hs₅, hdir₅, hwhole₅⟩
  obtain ⟨hw₅, hgrown, ⟨more, hmore, hcard, hfew, hlate, hall⟩, hfull⟩ := hwhole₅ hw₄
  have hexted := extended_append g hs.tidy hf.dir hf.live hch hoff hsize hm₄.disk hvol₄ hgrown hmore
  have hfree₄ : freeClusters m s₄.disk = freeClusters m s.disk := by
    rw [freeClusters, hval₄, freeClusters]
  rw [hfree₄] at hcard
  rw [List.length_append, List.length_singleton] at hlen
  have hbytes : (pre.length + more.length) * bytesPerCluster m =
      pre.length * bytesPerCluster m + more.length * bytesPerCluster m := Nat.add_mul ..
  rw [Nat.zero_add] at hfew hlate hall
  rw [Nat.sub_zero] at hkmax
  cases ok with
  | false =>
    refine (total_pure ..).2 ?_
    rw [freeClusters_eq_empty (hfull rfl), Finset.card_empty, Nat.add_zero] at hcard
    rw [hexted.sized_iff hz hf.dir hfile hfirst.1]
    have hlate := hlate rfl
    have hlt : pre.length + more.length + 1 < clustersOf m (f.entry.size + size.toNat) :=
      lt_clustersOf g (by rw [Nat.succ_mul]; omega)
    constructor
    · rintro rfl h
      obtain ⟨-, -, -, hfree, -⟩ := hshort h
      rw [← hcard] at hfree
      exact absurd hfree (Nat.lt_irrefl 0)
    · intro hno
      by_contra hne
      have hpos := List.length_pos_iff.2 hne
      exact hno ⟨nm, sn, n, f.entry, rfl, hsn, hbuf, hent, hfile.2, by omega, hsum, by omega,
        by omega⟩
  | true =>
    refine (editSlot_spec g hs hf.slot (editsSlot_setSize f.index _)).mono ?_
    rintro ok s₆ (⟨rfl, hm₆, hse⟩ | ⟨rfl, hm₆, hno⟩)
    swap
    · exact absurd hw₅.reliable hno.not_reliable
    rw [u32_of_lt hsum] at hse
    have hroom := (hall rfl).1
    have hnew : clustersOf m (f.entry.size + size.toNat) = pre.length + more.length + 1 := by
      refine clustersOf_eq g (by rw [Nat.succ_mul]; omega) ?_
      by_cases hnil : more.length = 0
      · have hzero : more.length * bytesPerCluster m = 0 := by rw [hnil, Nat.zero_mul]
        exact .inr (by omega)
      · have := Nat.le_mul_of_pos_left (bytesPerCluster m) (Nat.pos_of_ne_zero hnil)
        exact .inr (by omega)
    refine iff_of_true ?_ fun h => ?_
    · refine (hse.replaced g hs.tidy hexted.others hexted.dir hf.dir).sized hz (fun _ _ => ?_)
        fun _ h0 => ?_
      · refine ⟨pre ++ [c] ++ more, ?_, ?_⟩
        · rw [Dirent.firstCluster_withSize]
          exact hmore.congr fun x _ => congrFun (fatValue_congr g fun _ => hse.low) x
        · rw [Dirent.size_withSize, Nat.mod_eq_of_lt hsum, hnew]
          simp only [List.length_append, List.length_singleton]
          omega
      · rw [Dirent.firstCluster_withSize] at h0
        omega
    · obtain ⟨-, -, -, -, hlt⟩ := hshort h
      omega

/-! ## Calls and their runs -/

/-- A state of the driver over a reliable disk and a consistent volume whose chains are as long as
their files. -/
structure Fits (m : Mount) (R : List Nat) (s : Fs) : Prop where
  safe : Safe m R s
  whole : Whole m R s
  sized : Sized m R s.disk

/-- From what a call's description says on a reliable disk. -/
theorem Fits.call {p : Prog Fs Bool} {P : Bool → Disk → Prop} (hf : Fits m R s)
    (h : Total p s fun ok s' => Extends s s' ∧ (¬Torn s s' → Safe m R s') ∧
      (Whole m R s → Whole m R s' ∧ P ok s'.disk))
    (hP : ∀ ok d', P ok d' → Sized m R d') : Total p s fun _ s' => Fits m R s' := by
  refine h.mono fun ok s' ⟨hext, hs', hwhole⟩ => ?_
  obtain ⟨hw', hp⟩ := hwhole hf.whole
  exact ⟨hs' (hext.not_torn hf.whole.reliable), hw', hP ok _ hp⟩

theorem Fits.reads (hf : Fits m R s) (h : Reads s s') : Fits m R s' :=
  ⟨hf.safe.reads h, hf.whole.reads h, h.disk.symm ▸ hf.sized⟩

section Calls

variable (g : Geometry m) (hf : Fits m R s)

include g hf

theorem fsCreate_fits (name : NameArg) : Total (fsCreate m name) s fun _ s' => Fits m R s' :=
  hf.call (safe_call (fsCreate_spec g name hf.safe)) fun _ _ =>
    CreateOut.sized g hf.safe.tidy hf.sized

theorem fsWriteFile_fits (name : NameArg) (buffer : BufferArg) (size : UInt32) :
    Total (fsWriteFile m name buffer size) s fun _ s' => Fits m R s' :=
  hf.call (safe_call (fsWriteFile_spec g name buffer size hf.safe)) fun _ _ =>
    WriteOut.sized g hf.safe.tidy hf.sized

theorem fsTruncateFile_fits (name : NameArg) :
    Total (fsTruncateFile m name) s fun _ s' => Fits m R s' :=
  hf.call (fsTruncateFile_spec g name hf.safe) fun _ _ =>
    ReleaseOut.sized g hf.safe.tidy hf.sized unlinks_emptied (by simp)

theorem fsDeleteFile_fits (name : NameArg) :
    Total (fsDeleteFile m name) s fun _ s' => Fits m R s' :=
  hf.call (fsDeleteFile_spec g name hf.safe) fun _ _ =>
    ReleaseOut.sized g hf.safe.tidy hf.sized unlinks_deleted fun _ h => absurd h (by decide)

theorem fsRenameFile_fits (oldName newName : NameArg) :
    Total (fsRenameFile m oldName newName) s fun _ s' => Fits m R s' :=
  hf.call (safe_call (fsRenameFile_spec g oldName newName hf.safe)) fun _ _ =>
    RenameOut.sized g hf.safe.tidy hf.sized

end Calls

/-- The call is an append that needs more clusters than are free, where some are. -/
def Call.CutsShort (m : Mount) (R : List Nat) : Call → Disk → Prop
  | .appendFile name buffer size, d => ShortAppend m R d name buffer size
  | .write name buffer size flags, d => flags &&& fsWriteAppend ≠ 0 ∧
      flags &&& fsWriteTruncate = 0 ∧ flags &&& fsWriteExcl = 0 ∧ ShortAppend m R d name buffer size
  | _, _ => False

theorem ShortAppend.size_ne (h : ShortAppend m R d name buffer size) : size ≠ 0 := by
  rintro rfl
  obtain ⟨_, _, _, _, -, -, -, -, -, -, -, -, hlt⟩ := h
  rw [UInt32.toNat_zero, Nat.add_zero] at hlt
  omega

section Open

variable {nm : List UInt8} {flags : UInt32}

/-- Opening the file for a write neither gives it clusters nor takes any. -/
theorem OpenOut.shortAppend_iff (g : Geometry m)
    (ht : (vol m R d).Tidy (maxCluster m) m.bpb.rootCluster R)
    (hx : (vol m R d').Exact (maxCluster m) R)
    (h : OpenOut m R (some nm) buffer size flags d true d') :
    flags &&& fsWriteExcl = 0 ∧ ShortAppend m R d (some nm) buffer size ↔
      ShortAppend m R d' (some nm) buffer size := by
  cases h with
  | found hnm hsn hbuf hone he hattr hexcl => exact and_iff_right hexcl
  | @created _ sn n e _ hnm hsn hbuf hone hcr hno hfree hse =>
    obtain rfl := Option.some.inj hnm
    refine iff_of_false ?_ ?_
    · rintro ⟨-, _, _, i, x, ⟨⟩, hsn', -, hx, -⟩
      obtain rfl := Option.some.inj (hsn.symm.trans hsn')
      exact hno i x hx.dir hx.live hx.name
    · rintro ⟨_, _, i, x, ⟨⟩, hsn', -, hent, -, hfirst, -⟩
      obtain rfl := Option.some.inj (hsn.symm.trans hsn')
      have hrep := hse.replaced g ht (Others.refl d n) rfl hfree.dir
      have hnew : Entry m R d' sn n (newDirent sn) :=
        ⟨hrep.slot', live_newDirent hsn, Dirent.name_newDirent (length_makeShortNameChecked hsn)⟩
      rw [(hnew.det hx hent).2, firstCluster_newDirent] at hfirst
      exact hfirst rfl

theorem OpenOut.sized (g : Geometry m)
    (ht : (vol m R d).Tidy (maxCluster m) m.bpb.rootCluster R) (hz : Sized m R d)
    (h : OpenOut m R (some nm) buffer size flags d true d') : Sized m R d' := by
  cases h with
  | found => exact hz
  | created hnm hsn hbuf hone hcr hno hfree hse =>
    exact CreateOut.sized g ht hz (.done hnm hsn hno hfree hse)

/-- An append that would be cut short is opened. -/
theorem OpenOut.not_cutsShort (hx : (vol m R d).Exact (maxCluster m) R)
    (h : OpenOut m R (some nm) buffer size flags d false d') :
    d' = d ∧ ¬(Call.write (some nm) buffer size flags).CutsShort m R d := by
  cases h with
  | refused hwhy =>
  refine ⟨rfl, ?_⟩
  rintro ⟨-, htrunc, hexcl, _, sn, n, e, ⟨⟩, hsn, hbuf, he, hattr, -⟩
  rcases hwhy nm sn rfl hsn (.inl hbuf) (.inr htrunc) with ⟨i, x, hent, hbad⟩ | ⟨hno, -⟩
  · obtain ⟨-, rfl⟩ := he.det hx hent
    exact hbad.elim (fun h => h hattr) fun h => h hexcl
  · exact hno n e he.dir he.live he.name

end Open

theorem fsWrite_sized (g : Geometry m) (hf : Fits m R s) (name : NameArg) (buffer : BufferArg)
    (size flags : UInt32) : Total (fsWrite m name buffer size flags) s fun _ s' =>
      Sized m R s'.disk ↔ ¬(Call.write name buffer size flags).CutsShort m R s.disk := by
  cases name with
  | none =>
    refine (total_pure ..).2 (iff_of_true hf.sized ?_)
    rintro ⟨-, -, -, _, _, _, _, ⟨⟩, -⟩
  | some nm =>
  refine (total_bind ..).2 ((fsWriteOpen_spec g (some nm) buffer size flags hf.safe).mono ?_)
  rintro ok s₁ ⟨hext₁, hs₁, hopen⟩
  obtain ⟨hw₁, hopen⟩ := hopen hf.whole
  cases ok with
  | false =>
    obtain ⟨hsame, hno⟩ := hopen.not_cutsShort hf.whole.exact
    exact (total_pure ..).2 (iff_of_true (hsame.symm ▸ hf.sized) hno)
  | true =>
  have hf₁ : Fits m R s₁ := ⟨hs₁, hw₁, hopen.sized g hf.safe.tidy hf.sized⟩
  have hshort := hopen.shortAppend_iff g hf.safe.tidy hw₁.exact
  have hfits : ∀ {p : Prog Fs Bool} {s₂ : Fs},
      ¬(Call.write (some nm) buffer size flags).CutsShort m R s.disk →
      Total p s₂ (fun _ s' => Fits m R s') → Total p s₂ fun _ s' => Sized m R s'.disk ↔
        ¬(Call.write (some nm) buffer size flags).CutsShort m R s.disk :=
    fun hno h => h.mono fun _ _ h => iff_of_true h.sized hno
  refine (total_ite ..).2 ⟨fun h => absurd h (by decide), fun _ => ?_⟩
  refine (total_ite ..).2 ⟨fun htr => (total_bind ..).2 ?_, fun htr => ?_⟩
  · have hno : ¬(Call.write (some nm) buffer size flags).CutsShort m R s.disk := fun h => by
      rw [h.2.1] at htr
      exact absurd htr (by decide)
    refine (fsTruncateFile_fits g hf₁ (some nm)).mono fun ok s₂ hf₂ => ?_
    refine (total_ite ..).2 ⟨fun _ => (total_pure ..).2 (iff_of_true hf₂.sized hno), fun _ => ?_⟩
    refine (total_ite ..).2 ⟨fun _ => (total_pure ..).2 (iff_of_true hf₂.sized hno), fun _ => ?_⟩
    exact hfits hno (fsWriteFile_fits g hf₂ (some nm) buffer size)
  refine (total_ite ..).2 ⟨fun hap => ?_, fun hap => ?_⟩
  swap
  · refine hfits (fun h => hap ?_) (fsWriteFile_fits g hf₁ (some nm) buffer size)
    simpa using h.1
  have hcuts : (Call.write (some nm) buffer size flags).CutsShort m R s.disk ↔
      ShortAppend m R s₁.disk (some nm) buffer size :=
    ⟨fun h => hshort.1 h.2.2, fun h => ⟨by simpa using hap, by simpa using htr, hshort.2 h⟩⟩
  refine (total_ite ..).2 ⟨fun hzero => (total_pure ..).2 (iff_of_true hf₁.sized fun h =>
    (hcuts.1 h).size_ne hzero), fun _ => (total_bind ..).2 ?_⟩
  refine (findRootEntryAt_spec g nm s₁ hs₁.tidy).mono ?_
  rintro r s₂ ⟨hr, ⟨f, n, rfl, hat, hname⟩ | ⟨rfl, hnone⟩⟩
  swap
  · refine (total_pure ..).2 (iff_of_true (hr.disk.symm ▸ hf₁.sized) fun h => ?_)
    obtain ⟨_, _, _, _, ⟨⟩, hsn, -, he, -⟩ := hcuts.1 h
    rw [makeShortName_of_checked hsn] at hnone
    exact hnone.resolve_left (fun hno => hno.not_reliable hw₁.reliable) _ _ he.dir he.live he.name
  have hf₂ := hf₁.reads hr
  refine (total_ite ..).2 ⟨fun h0 => ?_, fun _ => ?_⟩
  · refine hfits (fun h => ?_) (fsWriteFile_fits g hf₂ (some nm) buffer size)
    obtain ⟨_, _, _, _, ⟨⟩, hsn, -, he, -, hfirst, -⟩ := hcuts.1 h
    rw [makeShortName_of_checked hsn] at hname
    rw [((hat.toEntry hname).det hw₁.exact he).2] at hfirst
    exact hfirst h0
  · rw [hcuts, ← hr.disk]
    exact fsAppendFile_sized g (some nm) buffer size hf₂.safe hf₂.whole hf₂.sized

theorem Call.run_sized (g : Geometry m) (hf : Fits m R s) (c : Call) :
    Total (c.run m) s fun _ s' => Sized m R s'.disk ↔ ¬c.CutsShort m R s.disk := by
  have hkeep : ∀ {p : Prog Fs Bool}, Total p s (fun _ s' => Fits m R s') →
      Total p s fun _ s' => Sized m R s'.disk ↔ ¬False :=
    fun h => h.mono fun _ _ h => iff_of_true h.sized not_false
  cases c with
  | create name => exact hkeep (fsCreate_fits g hf name)
  | writeFile name buffer size => exact hkeep (fsWriteFile_fits g hf name buffer size)
  | appendFile name buffer size =>
    exact fsAppendFile_sized g name buffer size hf.safe hf.whole hf.sized
  | truncateFile name => exact hkeep (fsTruncateFile_fits g hf name)
  | write name buffer size flags => exact fsWrite_sized g hf name buffer size flags
  | deleteFile name => exact hkeep (fsDeleteFile_fits g hf name)
  | renameFile oldName newName => exact hkeep (fsRenameFile_fits g hf oldName newName)

/-- Any calls, on a reliable disk: the chains are as long as their files, and appends find the
tails, in every state on the way, exactly when no append on the way is cut short. -/
theorem sized_run_iff (g : Geometry m) (h : Consistent m R d) (hz : Sized m R d) (sector : Sector)
    (cs : List Call) :
    (∀ pre, pre <+: cs → Total (runAll (Call.run m) pre) (Fs.start d sector []) fun _ s =>
      Sized m R s.disk ∧ SeeksTails m R s) ↔
    Along (Call.run m) (fun c s => ¬c.CutsShort m R s.disk) cs (Fs.start d sector []) := by
  refine total_runAll_iff (Call.run m) (I := fun s => Safe m R s ∧ Whole m R s)
    (fun c s ⟨hs, hw⟩ => ?_) (fun c s ⟨hs, hw⟩ ⟨hz, _⟩ => ?_) cs _
    ⟨h.safe sector [], h.whole sector⟩ ⟨hz, hz.seeksTails g rfl⟩
  · refine (c.run_spec g hs (c.not_torn g hs hw)).mono ?_
    exact fun _ _ ⟨_, hs', hw'⟩ => ⟨hs', hw' hw⟩
  · refine ((c.run_spec g hs (c.not_torn g hs hw)).and (c.run_sized g ⟨hs, hw, hz⟩)).mono ?_
    rintro _ s' ⟨⟨hext, -, -⟩, hiff⟩
    exact Iff.trans ⟨And.left, fun hz' => ⟨hz', hz'.seeksTails g (hext.reliable hw.reliable)⟩⟩ hiff

theorem sized_tiny : Sized tiny [2] (blankDisk tiny) where
  chained _ _ he hf := absurd hf.1 (not_live_blank tiny_geometry (by decide) he).2
  empty _ _ he hf := absurd hf.1 (not_live_blank tiny_geometry (by decide) he).2

theorem sized_run_tiny :
    Total
      (runAll (Call.run tiny) [.create (some [0x41]), .writeFile (some [0x41]) (some fun _ => 7) 1])
      (Fs.start (blankDisk tiny) (fun _ => 0) []) fun _ s =>
      Sized tiny [2] s.disk ∧ SeeksTails tiny [2] s := by
  refine (sized_run_iff tiny_geometry consistent_tiny sized_tiny _ _).2 ?_ _ (List.prefix_refl _)
  exact ⟨id, fun _ _ _ => ⟨id, fun _ _ _ => trivial⟩⟩

/-- A file of one byte appended three clusters' worth where two are free: `fs_append_file` returns 0
and leaves a chain of three clusters, whose tail the next append does not find. -/
theorem append_cutShort : Consistent tiny [2] (blankDisk tiny) ∧ Sized tiny [2] (blankDisk tiny) ∧
    Total (runAll (Call.run tiny) [.create (some [0x41]),
      .writeFile (some [0x41]) (some fun _ => 7) 1,
      .appendFile (some [0x41]) (some fun _ => 7) 1536,
        .appendFile (some [0x41]) (some fun _ => 7) 1])
      (Fs.start (blankDisk tiny) (fun _ => 0) []) fun bs s =>
        bs = [true, true, false, false] ∧ ¬Sized tiny [2] s.disk := by
  refine ⟨consistent_tiny, sized_tiny, ?_⟩
  have hrun : ((runAll (Call.run tiny) [.create (some [0x41]),
      .writeFile (some [0x41]) (some fun _ => 7) 1,
      .appendFile (some [0x41]) (some fun _ => 7) 1536,
        .appendFile (some [0x41]) (some fun _ => 7) 1])
      (Fs.start (blankDisk tiny) (fun _ => 0) [])).map (fun x =>
        (x.1, decide (IsFile (slotEntry x.2.disk (2, 0))), firstCluster (slotEntry x.2.disk (2, 0)),
          (slotEntry x.2.disk (2, 0)).size, fatValue tiny x.2.disk 3)) =
      some ([true, true, false, false], true, 3, 1, 4) := by decide +kernel
  obtain ⟨⟨bs, s⟩, hs, h⟩ := Option.map_eq_some_iff.1 hrun
  simp only [Prod.mk.injEq, decide_eq_true_eq] at h
  obtain ⟨rfl, hfile, hfirst, hsize, hnext⟩ := h
  refine ⟨_, s, hs, rfl, fun hz => ?_⟩
  obtain ⟨l, hch, hlen⟩ := hz.chained 0 (slotEntry s.disk (2, 0)) rfl hfile (by rw [hfirst]; decide)
  rw [hfirst] at hch
  obtain ⟨c, rfl⟩ := List.length_eq_one_iff.1 (hlen.trans (by rw [hsize]; decide))
  -- the only cluster of the chain would be the first, and that one has a next
  obtain rfl := List.mem_singleton.1 (hch.start_mem (by decide))
  have heoc := hch.eoc_last (l := [])
  rw [hnext] at heoc
  exact absurd heoc (by decide)

end MinervaOS.Fat32
