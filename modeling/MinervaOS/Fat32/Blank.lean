import MinervaOS.Fat32.Calls

/-!
# A freshly formatted volume

All sectors zero but for the root directory's FAT entry, an EOC value in every copy. It is
consistent, with an empty directory, whatever the geometry; so the invariants of a run hold of some
volume.
-/

namespace MinervaOS.Fat32

variable {m : Mount}

def blankDisk (m : Mount) : Disk :=
  fatWrite m (fun _ _ => 0) m.bpb.rootCluster fat32EocMark 0 m.bpb.fatCount

theorem fatValue_zero (m : Mount) : fatValue m (fun _ _ => 0) = fun _ => 0 := by
  funext c
  simp [fatValue, fatEntry, rd32]

theorem vol_blankDisk (g : Geometry m) (R : List Nat) (hlt : m.bpb.rootCluster < maxCluster m) :
    vol m R (blankDisk m) = ⟨Function.update (fun _ => 0) m.bpb.rootCluster fat32EocMark,
      (slots m R).map fun _ => fun _ => 0⟩ := by
  have h := vol_fatWrite g (R := R) (v := fat32EocMark) (fun _ _ => 0) hlt g.fatCount_pos
    (Nat.le_refl _)
  rw [blankDisk, h]
  have hmod : fat32EocMark % 268435456 = fat32EocMark := by decide
  have hdir : slotEntry (fun _ _ => 0) = fun _ => fun _ => 0 := by
    funext p j
    simp [slotEntry, dirent]
  simp only [vol, fatValue_zero, hmod, hdir]

/-- A fresh volume has no live entry. -/
theorem not_live_blank (g : Geometry m) {R : List Nat} (hlt : m.bpb.rootCluster < maxCluster m)
    {n : Nat} {e : Dirent} (he : (vol m R (blankDisk m)).dir[n]? = some e) :
    (∀ k, e k = 0) ∧ ¬Live e := by
  rw [vol_blankDisk g R hlt] at he
  obtain ⟨p, -, rfl⟩ := List.mem_map.1 (List.mem_of_getElem? he)
  exact ⟨fun _ => rfl, by simp [Live, validFileEntry]⟩

theorem consistent_blankDisk (g : Geometry m) (h2 : 2 ≤ m.bpb.rootCluster)
    (hlt : m.bpb.rootCluster < maxCluster m) :
    Consistent m [m.bpb.rootCluster] (blankDisk m) := by
  have hvol := vol_blankDisk g [m.bpb.rootCluster] hlt
  have hdead := fun {n e} => not_live_blank (R := [m.bpb.rootCluster]) (n := n) (e := e) g hlt
  have hroot : Chain (vol m [m.bpb.rootCluster] (blankDisk m)).fat (maxCluster m)
      m.bpb.rootCluster [m.bpb.rootCluster] := by
    refine .single h2 hlt (Nat.lt_trans hlt g.maxCluster_lt) ?_
    rw [hvol]
    simp only [Function.update_self]
    decide
  refine ⟨copiesEqual_fatWrite g _ hlt fun _ _ _ _ => rfl, ⟨hroot, by simp, ?_, ?_, ?_, ?_⟩, ?_, ?_⟩
  · exact fun i j e e' _ _ he' _ => (hdead he').1
  · exact fun i e he hl => absurd hl (hdead he).2
  · rintro i j l l' - ⟨e, he, hl, -⟩
    exact absurd hl (hdead he).2
  · rintro i l ⟨e, he, hl, -⟩
    exact absurd hl (hdead he).2
  · exact fun i j e e' _ he _ hl => absurd hl (hdead he).2
  · intro c _ _ hc
    left
    rw [hvol] at hc
    by_contra hne
    have hcr : c ≠ m.bpb.rootCluster := by simpa using hne
    refine hc ?_
    simp only [Function.update_of_ne hcr]

/-- One FAT sector and four data clusters of one sector each. -/
def tiny : Mount where
  bpb :=
    { bytesPerSector := 512, sectorsPerCluster := 1, reservedSectorCount := 1, fatCount := 1
      totalSectors16 := 6, totalSectors32 := 0, fatSize32 := 1, rootCluster := 2
      bytesPerSector_lt := by decide, sectorsPerCluster_lt := by decide
      reservedSectorCount_lt := by decide, fatCount_lt := by decide
      totalSectors16_lt := by decide, totalSectors32_lt := by decide
      fatSize32_lt := by decide, rootCluster_lt := by decide }
  fatStartLba := 1
  dataStartLba := 2
  mounted := true

theorem tiny_geometry : Geometry tiny where
  mounted := rfl
  sectors_pos := by decide
  fatCount_pos := by decide
  dataStart := by decide
  dataStart_le := by decide
  total_le := by decide
  fat_room := by decide

theorem consistent_tiny : Consistent tiny [2] (blankDisk tiny) :=
  consistent_blankDisk tiny_geometry (by decide) (by decide)

end MinervaOS.Fat32
