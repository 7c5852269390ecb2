import Mathlib.Data.List.Nodup
import MinervaOS.Fat32.Chains

/-!
# The volume a disk holds

`vol m R d` reads the FAT and the root directory off the sectors of `d`, the directory along its
cluster chain `R`. The three kinds of sector write the calls make act on it as they should: a FAT
entry written is one FAT value changed, a slot edited is one entry changed, and a write to a cluster
of a file changes neither.
-/

namespace MinervaOS.Fat32

/-- The boot record describes a volume the driver can reach all of: the sectors of the FAT copies
lie before the data region, the data region before the end, and the FAT has an entry for every
cluster. -/
structure Geometry (m : Mount) : Prop where
  mounted : m.mounted = true
  sectors_pos : 0 < m.bpb.sectorsPerCluster
  fatCount_pos : 0 < m.bpb.fatCount
  dataStart : m.dataStartLba = m.fatStartLba + m.bpb.fatCount * m.bpb.fatSize32
  dataStart_le : m.dataStartLba ≤ totalSectors m
  total_le : totalSectors m ≤ 0x10000000
  fat_room : maxCluster m ≤ m.bpb.fatSize32 * 128

variable (m : Mount)

/-- The sector of copy `j` of the FAT that holds the entry of cluster `c`. -/
def fatSector (j c : Nat) : Nat := m.fatStartLba + j * m.bpb.fatSize32 + c / 128

def fatEntry (d : Disk) (j c : Nat) : Nat := rd32 (d (fatSector m j c)) (c % 128 * 4)

/-- The FAT value of a cluster, as the calls read it: from the first copy, with the top bits off. -/
def fatValue (d : Disk) (c : Nat) : Nat :=
  if c < maxCluster m then fatEntry m d 0 c % 268435456 else 0

def clusterSector (c s : Nat) : Nat := m.dataStartLba + (c - 2) * m.bpb.sectorsPerCluster + s

/-- The slots of the root directory in the order a scan looks at them: sector and index. -/
def slots (R : List Nat) : List (Nat × Nat) :=
  R.flatMap fun c => (List.range m.bpb.sectorsPerCluster).flatMap fun s =>
    (List.range 16).map fun i => (clusterSector m c s, i)

def slotEntry (d : Disk) (p : Nat × Nat) : Dirent := dirent (d p.1) p.2

def vol (R : List Nat) (d : Disk) : Vol := ⟨fatValue m d, (slots m R).map (slotEntry d)⟩

/-- The disk after `value` is written to the FAT entry of `cluster` in the copies from `lo` to
before `hi`. -/
def fatWrite (d : Disk) (cluster value lo hi : Nat) : Disk := fun x =>
  if ∃ j < hi, lo ≤ j ∧ x = fatSector m j cluster then wr32 (d x) (cluster % 128 * 4) value
  else d x

/-- The disk after `f` is applied to sector `lba`. -/
def editSector (d : Disk) (lba : Nat) (f : Sector → Sector) : Disk := fun x =>
  if x = lba then f (d lba) else d x

/-- All copies of the FAT hold the same sectors. -/
def CopiesEqual (d : Disk) : Prop :=
  ∀ j < m.bpb.fatCount, ∀ i < m.bpb.fatSize32,
    d (m.fatStartLba + j * m.bpb.fatSize32 + i) = d (m.fatStartLba + i)

variable {m}

namespace Geometry

variable (g : Geometry m)

include g

theorem maxCluster_eq : maxCluster m =
    (totalSectors m - m.dataStartLba) / m.bpb.sectorsPerCluster + 2 := by
  have h := g.total_le
  have hd := Nat.div_le_self (totalSectors m - m.dataStartLba) m.bpb.sectorsPerCluster
  exact u32_of_lt (by omega)

theorem fatSize_le : m.fatStartLba + m.bpb.fatSize32 ≤ m.dataStartLba := by
  have := Nat.le_mul_of_pos_left m.bpb.fatSize32 g.fatCount_pos
  have := g.dataStart
  omega

theorem maxCluster_lt : maxCluster m < fat32Eoc := by
  have h1 := g.maxCluster_eq
  have h2 := Nat.div_le_self (totalSectors m - m.dataStartLba) m.bpb.sectorsPerCluster
  have h3 := g.total_le
  have h4 := g.dataStart_le
  have h5 := g.fat_room
  have h6 := g.fatSize_le
  unfold fat32Eoc
  omega

theorem fatSector_lt {j c : Nat} (hj : j < m.bpb.fatCount) (hc : c < maxCluster m) :
    fatSector m j c < m.dataStartLba := by
  have h1 := g.fat_room
  have h2 := Nat.mul_le_mul_right m.bpb.fatSize32 hj
  rw [Nat.succ_mul] at h2
  have h3 := g.dataStart
  unfold fatSector
  omega

theorem fatSector_lt_lba {j c : Nat} (hj : j < m.bpb.fatCount) (hc : c < maxCluster m) :
    fatSector m j c < 0x10000000 := by
  have := g.fatSector_lt hj hc
  have := g.dataStart_le
  have := g.total_le
  omega

theorem clusterSector_le {c s : Nat} (hc : c < maxCluster m) (hs : s < m.bpb.sectorsPerCluster) :
    clusterSector m c s < totalSectors m ∨ c < 2 := by
  by_cases h2 : c < 2
  · exact .inr h2
  refine .inl ?_
  have h := g.maxCluster_eq
  have hle : c - 2 + 1 ≤ (totalSectors m - m.dataStartLba) / m.bpb.sectorsPerCluster := by omega
  have hmul := (Nat.le_div_iff_mul_le g.sectors_pos).1 hle
  rw [Nat.succ_mul] at hmul
  have := g.dataStart_le
  unfold clusterSector
  omega

theorem clusterSector_lt {c s : Nat} (h2 : 2 ≤ c) (hc : c < maxCluster m)
    (hs : s < m.bpb.sectorsPerCluster) : clusterSector m c s < 0x10000000 := by
  have := g.clusterSector_le hc hs
  have := g.total_le
  omega

/-- The sector arithmetic of the source does not wrap on a cluster of the volume. -/
theorem clusterToLba_add {c s : Nat} (h2 : 2 ≤ c) (hc : c < maxCluster m)
    (hs : s < m.bpb.sectorsPerCluster) :
    u32 (clusterToLba m c + s) = clusterSector m c s := by
  have h := g.clusterSector_lt h2 hc hs
  have hm := g.maxCluster_lt
  unfold clusterSector at h
  have hsub : u32 (c + 4294967294) = c - 2 := by
    unfold u32 fat32Eoc at *
    omega
  unfold clusterToLba clusterSector
  rw [hsub, u32_of_lt (n := m.dataStartLba + (c - 2) * m.bpb.sectorsPerCluster) (by omega),
    u32_of_lt (by omega)]

/-- Nor on an entry of the FAT. -/
theorem fatLba {c : Nat} (hc : c < maxCluster m) :
    u32 (m.fatStartLba + u32 (c * 4) / sectorSize) = fatSector m 0 c ∧
      u32 (c * 4) % sectorSize = c % 128 * 4 := by
  have h := g.fatSector_lt_lba g.fatCount_pos hc
  have hm := g.maxCluster_lt
  unfold fatSector at h
  unfold fat32Eoc at hm
  rw [u32_of_lt (n := c * 4) (by omega)]
  unfold fatSector sectorSize
  have hdiv : c * 4 / 512 = c / 128 := by omega
  rw [hdiv, u32_of_lt (by omega)]
  exact ⟨by omega, by omega⟩

theorem fatLba_copy {j c : Nat} (hj : j < m.bpb.fatCount) (hc : c < maxCluster m) :
    u32 (m.fatStartLba + j * m.bpb.fatSize32 + u32 (c * 4) / sectorSize) = fatSector m j c := by
  have h := g.fatSector_lt_lba hj hc
  have hm := g.maxCluster_lt
  unfold fatSector at h
  unfold fat32Eoc at hm
  rw [u32_of_lt (n := c * 4) (by omega)]
  unfold fatSector sectorSize
  have hdiv : c * 4 / 512 = c / 128 := by omega
  rw [hdiv, u32_of_lt (by omega)]

/-- Copies of the FAT do not overlap. -/
theorem fatSector_inj {j j' c c' : Nat} (hc : c < maxCluster m) (hc' : c' < maxCluster m)
    (h : fatSector m j c = fatSector m j' c') : j = j' ∧ c / 128 = c' / 128 := by
  have hr := g.fat_room
  have h1 : c / 128 < m.bpb.fatSize32 := by omega
  have h2 : c' / 128 < m.bpb.fatSize32 := by omega
  unfold fatSector at h
  have hj : j = j' := by
    rcases Nat.lt_trichotomy j j' with hlt | heq | hlt
    · have := Nat.mul_le_mul_right m.bpb.fatSize32 hlt
      rw [Nat.succ_mul] at this
      omega
    · exact heq
    · have := Nat.mul_le_mul_right m.bpb.fatSize32 hlt
      rw [Nat.succ_mul] at this
      omega
  subst hj
  exact ⟨rfl, by omega⟩

omit g in
/-- Clusters do not overlap. -/
theorem clusterSector_inj {c c' s s' : Nat} (h2 : 2 ≤ c) (h2' : 2 ≤ c')
    (hs : s < m.bpb.sectorsPerCluster) (hs' : s' < m.bpb.sectorsPerCluster)
    (h : clusterSector m c s = clusterSector m c' s') : c = c' ∧ s = s' := by
  unfold clusterSector at h
  have hcc : c = c' := by
    rcases Nat.lt_trichotomy (c - 2) (c' - 2) with hlt | heq | hlt
    · have := Nat.mul_le_mul_right m.bpb.sectorsPerCluster hlt
      rw [Nat.succ_mul] at this
      omega
    · omega
    · have := Nat.mul_le_mul_right m.bpb.sectorsPerCluster hlt
      rw [Nat.succ_mul] at this
      omega
  subst hcc
  exact ⟨rfl, by omega⟩

end Geometry

theorem mem_slots {R : List Nat} {p : Nat × Nat} :
    p ∈ slots m R ↔ ∃ c ∈ R, ∃ s < m.bpb.sectorsPerCluster, p.1 = clusterSector m c s ∧
      p.2 < 16 := by
  obtain ⟨lba, i⟩ := p
  simp only [slots, List.mem_flatMap, List.mem_range, List.mem_map, Prod.mk.injEq]
  constructor
  · rintro ⟨c, hc, s, hs, i', hi', rfl, rfl⟩
    exact ⟨c, hc, s, hs, rfl, hi'⟩
  · rintro ⟨c, hc, s, hs, rfl, hi'⟩
    exact ⟨c, hc, s, hs, i, hi', rfl, rfl⟩

theorem slots_nodup {R : List Nat} (hR : R.Nodup) (h2 : ∀ c ∈ R, 2 ≤ c) : (slots m R).Nodup := by
  unfold slots
  rw [List.nodup_flatMap]
  refine ⟨fun c hc => ?_, ?_⟩
  · rw [List.nodup_flatMap]
    refine ⟨fun s hs => ?_, ?_⟩
    · refine List.Nodup.map (fun i j hij => ?_) List.nodup_range
      simpa using hij
    · refine List.nodup_range.imp_of_mem fun {s s'} hs hs' hne => ?_
      simp only [List.mem_range] at hs hs'
      intro p hp hp'
      simp only [List.mem_map, List.mem_range] at hp hp'
      obtain ⟨i, -, rfl⟩ := hp
      obtain ⟨j, -, hj⟩ := hp'
      exact hne (Geometry.clusterSector_inj (h2 c hc) (h2 c hc) hs hs'
        (Prod.mk.inj hj).1.symm).2
  · refine List.Pairwise.imp_of_mem (fun {c c'} hc hc' hne => ?_) hR
    intro p hp hp'
    simp only [List.mem_flatMap, List.mem_map, List.mem_range] at hp hp'
    obtain ⟨s, hs, i, -, rfl⟩ := hp
    obtain ⟨s', hs', j, -, hj⟩ := hp'
    exact hne (Geometry.clusterSector_inj (h2 c hc) (h2 c' hc') hs hs' (Prod.mk.inj hj).1.symm).1

/-! ## Writes -/

theorem fatWrite_self (d : Disk) (c v lo : Nat) : fatWrite m d c v lo lo = d := by
  funext x
  unfold fatWrite
  rw [if_neg]
  rintro ⟨j, hj, hj', -⟩
  omega

variable (g : Geometry m)

include g

theorem fatValue_congr {d d' : Disk} (h : ∀ x < m.dataStartLba, d' x = d x) :
    fatValue m d' = fatValue m d := by
  funext c
  unfold fatValue fatEntry
  split
  · rw [h _ (g.fatSector_lt g.fatCount_pos (by assumption))]
  · rfl

/-- Only the sectors of the FAT and of the root directory count. -/
theorem vol_congr {R : List Nat} {d d' : Disk} (h : ∀ x < m.dataStartLba, d' x = d x)
    (hR : ∀ c ∈ R, ∀ s < m.bpb.sectorsPerCluster,
      d' (clusterSector m c s) = d (clusterSector m c s)) : vol m R d' = vol m R d := by
  unfold vol
  rw [fatValue_congr g h, Vol.mk.injEq]
  refine ⟨rfl, List.map_congr_left fun p hp => ?_⟩
  obtain ⟨c, hc, s, hs, hp1, -⟩ := mem_slots.1 hp
  unfold slotEntry
  rw [hp1, hR c hc s hs]

theorem copiesEqual_congr {d d' : Disk} (h : ∀ x < m.dataStartLba, d' x = d x)
    (hd : CopiesEqual m d) : CopiesEqual m d' := by
  intro j hj i hi
  have h1 := Nat.mul_le_mul_right m.bpb.fatSize32 hj
  rw [Nat.succ_mul] at h1
  have h2 := g.dataStart
  rw [h _ (by omega), h _ (by omega)]
  exact hd j hj i hi

/-- One copy written, then the copies behind it. -/
theorem fatWrite_editSector (d : Disk) {c : Nat} (v : Nat) {j hi : Nat} (hc : c < maxCluster m)
    (hj : j < hi) : fatWrite m (editSector d (fatSector m j c)
      fun sec => wr32 sec (c % 128 * 4) v) c v (j + 1) hi = fatWrite m d c v j hi := by
  funext x
  unfold fatWrite editSector
  by_cases hx : x = fatSector m j c
  · subst hx
    rw [if_neg, if_pos rfl, if_pos ⟨j, hj, Nat.le_refl j, rfl⟩]
    rintro ⟨i, -, hi', he⟩
    have := (g.fatSector_inj hc hc he).1
    omega
  · rw [if_neg hx]
    refine if_congr ⟨?_, ?_⟩ rfl rfl
    · rintro ⟨i, hi', hi'', he⟩
      exact ⟨i, hi', by omega, he⟩
    · rintro ⟨i, hi', hi'', he⟩
      have hij : i ≠ j := fun hij => hx (hij ▸ he)
      exact ⟨i, hi', by omega, he⟩

theorem fatWrite_of_ge (d : Disk) {c : Nat} (v : Nat) {k : Nat} (hc : c < maxCluster m)
    (hk : k ≤ m.bpb.fatCount) {x : Nat} (hx : m.dataStartLba ≤ x) :
    fatWrite m d c v 0 k x = d x := by
  unfold fatWrite
  rw [if_neg]
  rintro ⟨j, hj, -, rfl⟩
  have := g.fatSector_lt (j := j) (by omega) hc
  omega

theorem fatValue_fatWrite (d : Disk) {c v k : Nat} (hc : c < maxCluster m) (hk : 0 < k) :
    fatValue m (fatWrite m d c v 0 k) =
      Function.update (fatValue m d) c (v % 268435456) := by
  funext x
  unfold fatValue
  by_cases hx : x < maxCluster m
  · simp only [hx, if_true]
    by_cases hxc : x = c
    · subst hxc
      rw [Function.update_self]
      unfold fatEntry fatWrite
      rw [if_pos ⟨0, hk, Nat.le_refl 0, rfl⟩, rd32_wr32]
      omega
    · rw [Function.update_of_ne hxc]
      simp only [hx, if_true]
      unfold fatEntry fatWrite
      split
      · rename_i h
        obtain ⟨j, -, -, hj⟩ := h
        have hdiv := (g.fatSector_inj hx hc hj).2
        rw [rd32_wr32_of_ne _ _ (by omega)]
      · rfl
  · have hxc : x ≠ c := by omega
    rw [Function.update_of_ne hxc]
    simp only [hx, if_false]

theorem vol_fatWrite {R : List Nat} (d : Disk) {c v k : Nat} (hc : c < maxCluster m) (hk : 0 < k)
    (hk' : k ≤ m.bpb.fatCount) : vol m R (fatWrite m d c v 0 k) =
      ⟨Function.update (vol m R d).fat c (v % 268435456), (vol m R d).dir⟩ := by
  unfold vol
  rw [fatValue_fatWrite g d hc hk, Vol.mk.injEq]
  refine ⟨rfl, List.map_congr_left fun p hp => ?_⟩
  obtain ⟨c', hc', s, hs, hp1, -⟩ := mem_slots.1 hp
  unfold slotEntry
  rw [fatWrite_of_ge g d v hc hk']
  rw [hp1]
  unfold clusterSector
  omega

theorem copiesEqual_fatWrite {d : Disk} {c : Nat} (v : Nat) (hc : c < maxCluster m)
    (hd : CopiesEqual m d) : CopiesEqual m (fatWrite m d c v 0 m.bpb.fatCount) := by
  intro j hj i hi
  have hr := g.fat_room
  have h1 := hd j hj i hi
  have hcopy : ∀ j' < m.bpb.fatCount, fatWrite m d c v 0 m.bpb.fatCount
      (m.fatStartLba + j' * m.bpb.fatSize32 + i) =
        if i = c / 128 then wr32 (d (m.fatStartLba + j' * m.bpb.fatSize32 + i)) (c % 128 * 4) v
        else d (m.fatStartLba + j' * m.bpb.fatSize32 + i) := by
    intro j' hj'
    unfold fatWrite
    by_cases hic : i = c / 128
    · rw [if_pos ⟨j', hj', Nat.zero_le j', by rw [hic]; rfl⟩, if_pos hic]
    · rw [if_neg, if_neg hic]
      rintro ⟨j₂, hj₂, -, he⟩
      unfold fatSector at he
      have hj₃ : j' = j₂ := by
        rcases Nat.lt_trichotomy j' j₂ with hlt | heq | hlt
        · have := Nat.mul_le_mul_right m.bpb.fatSize32 hlt
          rw [Nat.succ_mul] at this
          omega
        · exact heq
        · have := Nat.mul_le_mul_right m.bpb.fatSize32 hlt
          rw [Nat.succ_mul] at this
          omega
      subst hj₃
      omega
  have h0 := hcopy 0 g.fatCount_pos
  rw [Nat.zero_mul, Nat.add_zero] at h0
  rw [hcopy j hj, h0, h1]

/-- The slot of index `n` edited. -/
theorem vol_editSector {R : List Nat} (hR : R.Nodup) (h2 : ∀ c ∈ R, 2 ≤ c) (d : Disk)
    {f : Sector → Sector} {lba i n : Nat} {e : Dirent → Dirent} (hf : EditsSlot f i e)
    (hn : (slots m R)[n]? = some (lba, i)) :
    vol m R (editSector d lba f) =
      ⟨(vol m R d).fat, (vol m R d).dir.set n (e (dirent (d lba) i))⟩ := by
  obtain ⟨c, hc, s, hs, rfl, -⟩ := mem_slots.1 (List.mem_of_getElem? hn)
  unfold vol
  rw [Vol.mk.injEq]
  refine ⟨fatValue_congr g fun x hx => ?_, ?_⟩
  · unfold editSector
    rw [if_neg]
    unfold clusterSector
    omega
  · apply List.ext_getElem?
    intro k
    simp only [List.getElem?_set, List.length_map, List.getElem?_map]
    by_cases hkn : n = k
    · subst hkn
      have hlt : n < (slots m R).length := (List.getElem?_eq_some_iff.1 hn).1
      rw [if_pos rfl, if_pos hlt, hn]
      simp only [Option.map_some, slotEntry, editSector, if_true, hf.inside]
    · rw [if_neg hkn]
      rcases hk : (slots m R)[k]? with _ | ⟨lba', j⟩
      · rfl
      · simp only [Option.map_some, Option.some.injEq, slotEntry, editSector]
        split
        · rename_i hlba
          subst hlba
          refine hf.dirent_of_ne _ fun hji => ?_
          subst hji
          have hlt : n < (slots m R).length := (List.getElem?_eq_some_iff.1 hn).1
          exact hkn ((List.getElem?_inj hlt (slots_nodup hR h2)).1 (hn.trans hk.symm))
        · rfl

end MinervaOS.Fat32
