import MinervaOS.Fat32.Returning

/-!
# Where the calls write

A write is inside if its sector belongs to a copy of the FAT or to the data region. The clusters of
the volume lead inside, and those that `find_free_cluster` grants and `free_cluster_chain` frees are
among them; but the cluster numbers in the boot sector, in a directory entry and in the FAT are used
as they are.
-/

namespace MinervaOS.Fat32

open Prog

/-- A sector of a copy of the FAT, or of the data region. -/
def Inside (m : Mount) (lba : Nat) : Prop :=
  (∃ k < m.bpb.fatCount, ∃ i < m.bpb.fatSize32,
    lba = m.fatStartLba + k * m.bpb.fatSize32 + i) ∨
  m.dataStartLba ≤ lba ∧ lba < totalSectors m

/-- The sector of byte `o` of a cluster. -/
def byteSector (m : Mount) (c o : Nat) : Nat := u32 (clusterToLba m c + o / sectorSize)

/-- The bytes of a cluster from `lo` up to `hi` are inside, as far as the driver takes their
sectors. -/
def BytesInside (m : Mount) (c lo hi : Nat) : Prop :=
  ∀ o, lo ≤ o → o < hi → o < bytesPerCluster m →
    (∀ o', lo ≤ o' → o' ≤ o → byteSector m c o' < 0x10000000) → Inside m (byteSector m c o)

/-- The sector of copy `k` of the FAT in which `write_fat_entry` puts the value of a cluster. -/
def copySector (m : Mount) (k c : Nat) : Nat :=
  u32 (m.fatStartLba + k * m.bpb.fatSize32 + u32 (c * 4) / sectorSize)

/-- The copies of the FAT entry of a cluster are inside, as far as the driver takes their sectors.
-/
def EntryInside (m : Mount) (c : Nat) : Prop :=
  ∀ k < m.bpb.fatCount, (∀ k' ≤ k, copySector m k' c < 0x10000000) → Inside m (copySector m k c)

/-- The FAT entries of the clusters of the volume are inside. -/
def FatInside (m : Mount) : Prop :=
  m.dataStartLba < totalSectors m → ∀ c, 2 ≤ c → c < maxCluster m → EntryInside m c

/-- What was written is inside. -/
def Contained (m : Mount) (s : Fs) : Prop := ∀ lba ok, Access.write lba ok ∈ s.trace → Inside m lba

variable {m : Mount} {s s' : Fs} {d : Disk} {look : Dirent → Scan Unit} {c : Nat}

/-! ## The clusters of the volume -/

theorem clusterToLba_of_lt (hT : m.dataStartLba < totalSectors m) (h2 : 2 ≤ c)
    (hc : c < maxCluster m) {o : Nat} (ho : o < bytesPerCluster m) :
    m.dataStartLba ≤ byteSector m c o ∧ byteSector m c o < totalSectors m := by
  have hpos : 0 < m.bpb.sectorsPerCluster := by
    unfold bytesPerCluster at ho
    exact Nat.pos_of_ne_zero fun h => by simp [h] at ho
  have hmax : c < (totalSectors m - m.dataStartLba) / m.bpb.sectorsPerCluster + 2 :=
    Nat.lt_of_lt_of_le hc (Nat.mod_le _ _)
  have hle : c - 2 + 1 ≤ (totalSectors m - m.dataStartLba) / m.bpb.sectorsPerCluster := by omega
  have hmul := (Nat.le_div_iff_mul_le hpos).1 hle
  rw [Nat.succ_mul] at hmul
  have ho' : o / sectorSize < m.bpb.sectorsPerCluster := by
    unfold bytesPerCluster at ho
    exact Nat.div_lt_of_lt_mul (by rwa [Nat.mul_comm])
  have htotal : totalSectors m < 4294967296 := by
    have := m.bpb.totalSectors32_lt
    have := m.bpb.totalSectors16_lt
    unfold totalSectors
    split <;> omega
  have hsub : u32 (c + 4294967294) = c - 2 := by
    have : c < 4294967296 := Nat.lt_trans hc (Nat.mod_lt _ (by decide))
    unfold u32
    omega
  unfold byteSector clusterToLba
  generalize o / sectorSize = q at *
  rw [hsub, u32_of_lt (n := m.dataStartLba + (c - 2) * m.bpb.sectorsPerCluster) (by omega),
    u32_of_lt (by omega)]
  omega

theorem bytesInside_of_lt (hT : m.dataStartLba < totalSectors m) (h2 : 2 ≤ c)
    (hc : c < maxCluster m) (lo hi : Nat) : BytesInside m c lo hi :=
  fun _ _ _ ho _ => .inr (clusterToLba_of_lt hT h2 hc ho)

/-- Where a copy of the FAT has at most 2^32 - 2^28 sectors, the entries of the clusters of the
volume are inside: a copy that would begin past 2^32 comes behind one that the driver refuses, and
an entry that is not in its copy any more is in the next or in the data region. -/
theorem fatInside_of_le (hpos : 0 < m.bpb.fatSize32) (hsize : m.bpb.fatSize32 ≤ 0xF0000000)
    (hfat : m.fatStartLba < 65536)
    (hdata : m.dataStartLba = u32 (m.fatStartLba + m.bpb.fatCount * m.bpb.fatSize32)) :
    FatInside m := by
  intro hT c h2 hc k hk hbefore
  have hq : u32 (c * 4) / sectorSize ≤ c / 128 ∧ u32 (c * 4) / sectorSize < 8388608 := by
    unfold u32 sectorSize
    omega
  have hmax : c < (totalSectors m - m.dataStartLba) / m.bpb.sectorsPerCluster + 2 :=
    Nat.lt_of_lt_of_le hc (Nat.mod_le _ _)
  have hdiv := Nat.div_le_self (totalSectors m - m.dataStartLba) m.bpb.sectorsPerCluster
  unfold copySector at hbefore ⊢
  generalize u32 (c * 4) / sectorSize = q at *
  have hlow : ∀ k' ≤ k, m.fatStartLba + k' * m.bpb.fatSize32 + q < 4294967296 := by
    intro k'
    induction k' with
    | zero => omega
    | succ k' ih =>
      intro hle
      have hlt := ih (Nat.le_of_succ_le hle)
      have := hbefore k' (Nat.le_of_succ_le hle)
      rw [u32_of_lt hlt] at this
      rw [Nat.succ_mul]
      omega
  have hlt := hbefore k (Nat.le_refl _)
  rw [u32_of_lt (hlow k (Nat.le_refl _))] at hlt ⊢
  rcases Nat.lt_or_ge (k * m.bpb.fatSize32 + q) (m.bpb.fatCount * m.bpb.fatSize32) with hy | hy
  · refine .inl ⟨(k * m.bpb.fatSize32 + q) / m.bpb.fatSize32, (Nat.div_lt_iff_lt_mul hpos).2 hy,
      (k * m.bpb.fatSize32 + q) % m.bpb.fatSize32, Nat.mod_lt _ hpos, ?_⟩
    rw [Nat.add_assoc, Nat.add_assoc, Nat.div_add_mod']
  · have hcopies := Nat.mul_le_mul_right m.bpb.fatSize32 hk
    rw [Nat.succ_mul] at hcopies
    rw [u32_of_lt (by omega)] at hdata
    exact .inr ⟨by omega, by omega⟩

/-! ## Reads -/

/-- Neither the disk nor what was written has changed. -/
structure Still (m : Mount) (s s' : Fs) : Prop where
  disk : s'.disk = s.disk
  contained : Contained m s → Contained m s'

theorem Still.refl (m : Mount) (s : Fs) : Still m s s := ⟨rfl, id⟩

theorem Still.trans {s₁ : Fs} (h : Still m s s₁) (h' : Still m s₁ s') : Still m s s' :=
  ⟨h'.disk.trans h.disk, fun hc => h'.contained (h.contained hc)⟩

theorem ataReadSector_still (m : Mount) (lba : Nat) (s : Fs) :
    Meets (ataReadSector lba) s fun ok s' => Still m s s' ∧
      (ok = true → lba < 0x10000000 ∧ s'.sector = s.disk lba) := by
  have hread : ∀ ok, Contained m s → ∀ x ok', Access.write x ok' ∈ Access.read lba ok :: s.trace →
      Inside m x := by
    intro ok hc x ok' hx
    rcases List.mem_cons.1 hx with hx | hx
    · cases hx
    · exact hc x ok' hx
  refine .ite (fun _ => .pure ⟨.refl m s, nofun⟩) fun hlt =>
    .bind (.get (.ite (fun _ => ?_) fun _ => ?_))
  · exact .bind (.set (.pure ⟨⟨rfl, hread false⟩, nofun⟩))
  · exact .bind (.set (.pure ⟨⟨rfl, hread true⟩, fun _ => ⟨Nat.not_le.1 hlt, rfl⟩⟩))

/-- What `read_fat_entry` finds on the disk. -/
def fatRead (m : Mount) (d : Disk) (c : Nat) : Option Nat :=
  let lba := u32 (m.fatStartLba + u32 (c * 4) / sectorSize)
  if lba ≥ 0x10000000 then none else some (rd32 (d lba) (u32 (c * 4) % sectorSize) % 268435456)

theorem readFatEntry_still (c : Nat) (s : Fs) : Meets (readFatEntry m c) s fun r s' =>
    Still m s s' ∧ ∀ v, r = some v → fatRead m s.disk c = some v := by
  refine .bind ((ataReadSector_still m _ s).mono fun ok s₁ ⟨hs, hok⟩ => ?_)
  refine .ite (fun _ => .pure ⟨hs, nofun⟩) fun hyes => .bind (.get (.pure ⟨hs, fun v hv => ?_⟩))
  obtain ⟨hlt, hsec⟩ := hok (by simpa using hyes)
  unfold fatRead
  rw [if_neg (Nat.not_le.2 hlt), ← hsec]
  exact hv

theorem clusterIsSingle_still (c : Nat) (s : Fs) : Meets (clusterIsSingle m c) s fun r s' =>
    Still m s s' ∧ (r = true → 2 ≤ c ∧ ∃ v, fatRead m s.disk c = some v ∧ fat32Eoc ≤ v) := by
  refine .ite (fun _ => .pure ⟨.refl m s, nofun⟩) fun h2 => .bind ?_
  refine (readFatEntry_still c s).mono fun r s₁ ⟨hs, hr⟩ => ?_
  cases r with
  | none => exact .pure ⟨hs, nofun⟩
  | some v =>
    refine .pure ⟨hs, fun hv => ⟨Nat.not_lt.1 h2, v, hr v rfl, ?_⟩⟩
    simpa using hv

/-- A refused read counts as the end of the chain. -/
theorem nextCluster_still (c : Nat) (s : Fs) : Meets (nextCluster m c) s fun r s' =>
    Still m s s' ∧ (r < fat32Eoc → r = nextOn m s.disk c) := by
  refine .bind ((ataReadSector_still m _ s).mono fun ok s₁ ⟨hs, hok⟩ => ?_)
  refine .ite (fun _ => .pure ⟨hs, fun h => absurd h (Nat.lt_irrefl _)⟩) fun hyes =>
    .bind (.get (.pure ⟨hs, fun _ => ?_⟩))
  obtain ⟨hlt, hsec⟩ := hok (by simpa using hyes)
  unfold nextOn
  rw [if_neg (Nat.not_le.2 hlt), ← hsec]

theorem scanSectors_still (look : Dirent → Scan Unit) (c : Nat) : ∀ (n k : Nat) (s : Fs),
    Meets (scanSectors m look c n k) s fun r s' => Still m s s' ∧
      (r = .next → scanOn m s.disk look c n k = .next) ∧
      ∀ p, r = .hit p → scanOn m s.disk look c n k = .hit p ∧ s'.sector = s.disk p.1 := by
  intro n
  induction n with
  | zero =>
    intro k s
    exact .pure ⟨.refl m s, fun _ => rfl, by simp⟩
  | succ n ih =>
    intro k s
    refine .bind ((ataReadSector_still m _ s).mono fun ok s₁ hread => ?_)
    rcases hread with ⟨hs, hok⟩
    refine .ite (fun _ => .pure ⟨hs, by simp, by simp⟩) fun hyes => .bind (.get ?_)
    obtain ⟨hlt, hsec⟩ := hok (by simpa using hyes)
    rw [hsec]
    unfold scanOn
    rw [if_neg (Nat.not_le.2 hlt)]
    cases hx : scanSlots look (s.disk (u32 (clusterToLba m c + k))) (List.range 16) with
    | stop => exact .pure ⟨hs, by simp, by simp⟩
    | hit i =>
      refine .pure ⟨hs, by simp, fun p hp => ?_⟩
      cases hp
      exact ⟨rfl, hsec⟩
    | next =>
      refine (ih (k + 1) s₁).mono fun r s₂ hrest => ?_
      rcases hrest with ⟨hs₂, hnext, hhit⟩
      rw [hs.disk] at hnext hhit
      exact ⟨hs.trans hs₂, hnext, hhit⟩

theorem scanRoot_still (look : Dirent → Scan Unit) : ∀ (steps c : Nat) (s : Fs),
    Meets (scanRoot m look steps c) s fun r s' => Still m s s' ∧
      ∀ p, r = some p → ScansTo m s.disk look c (some p) ∧ s'.sector = s.disk p.1
  | 0, _, _ => nofun
  | steps + 1, c, s => by
    refine .ite (fun _ => .pure ⟨.refl m s, nofun⟩) fun hc => .bind ?_
    have hlt := Nat.not_le.1 hc
    refine (scanSectors_still look c _ 0 s).mono fun r s₁ ⟨hs, hnext, hhit⟩ => ?_
    cases r with
    | stop => exact .pure ⟨hs, nofun⟩
    | hit p =>
      obtain ⟨hscan, hsec⟩ := hhit p rfl
      refine .pure ⟨hs, fun p' hp => ?_⟩
      cases hp
      exact ⟨.hit hlt hscan, hsec⟩
    | next =>
      refine .bind ((nextCluster_still c s₁).mono fun c' s₂ ⟨hs₂, hc'⟩ => ?_)
      refine (scanRoot_still look steps c' s₂).mono fun r s₃ ⟨hs₃, hr⟩ => ?_
      refine ⟨(hs.trans hs₂).trans hs₃, fun p hp => ?_⟩
      obtain ⟨hscan, hsec⟩ := hr p hp
      rw [(hs.trans hs₂).disk] at hscan hsec
      have hlt' : c' < fat32Eoc := by
        cases hscan with
        | hit h | next h => exact h
      rw [hc' hlt', hs.disk] at hscan
      exact ⟨.next hlt (hnext rfl) hscan, hsec⟩

theorem findRootEntryAt_still (nm : List UInt8) (s : Fs) :
    Meets (findRootEntryAt m nm) s fun r s' =>
    Still m s s' ∧ ∀ f, r = some f →
      ScansTo m s.disk (lookFor (makeShortName nm)) m.bpb.rootCluster (some (f.lba, f.index)) ∧
        f.entry = slotEntry s.disk (f.lba, f.index) := by
  refine .bind ((scanRoot_still _ _ _ s).mono fun r s₁ ⟨hs, hr⟩ => ?_)
  cases r with
  | none => exact .pure ⟨hs, nofun⟩
  | some p =>
    obtain ⟨hscan, hsec⟩ := hr p rfl
    refine .bind (.get (.pure ⟨hs, fun f hf => ?_⟩))
    cases hf
    refine ⟨hscan, ?_⟩
    rw [hsec]
    rfl

/-! ## Writes -/

theorem Still.keeps {α : Type} {p : Prog Fs α} (h : ∀ s, Meets p s fun _ s' => Still m s s') :
    Keeps (Contained m) p := fun s a s' hc hm => (h s a s' hm).contained hc

theorem ataReadSector_contained (lba : Nat) : Keeps (Contained m) (ataReadSector lba) :=
  Still.keeps fun s => (ataReadSector_still m lba s).mono fun _ _ h => h.1

theorem modifySector_contained (f : Sector → Sector) : Keeps (Contained m) (modifySector f) :=
  .modify fun _ h => h

theorem ataWriteSector_contained {lba : Nat} (h : lba < 0x10000000 → Inside m lba) :
    Keeps (Contained m) (ataWriteSector lba) := by
  have hwrite : ∀ {s : Fs} ok, lba < 0x10000000 → Contained m s →
      ∀ x ok', Access.write x ok' ∈ Access.write lba ok :: s.trace → Inside m x := by
    intro s ok hlt hc x ok' hx
    rcases List.mem_cons.1 hx with hx | hx
    · cases hx
      exact h hlt
    · exact hc x ok' hx
  intro s ok s' hc
  revert ok s'
  refine Meets.ite (fun _ => .pure hc) fun hge => .bind (.get (.ite (fun _ => ?_) fun _ => ?_))
  · exact .bind (.set (.pure (hwrite false (Nat.not_le.1 hge) hc)))
  · exact .bind (.set (.pure (hwrite true (Nat.not_le.1 hge) hc)))

theorem ataWriteSector_of_ge {lba : Nat} (h : ¬lba < 0x10000000) :
    ataWriteSector lba = pure false :=
  if_pos (Nat.not_lt.1 h)

theorem ataReadSector_of_ge {lba : Nat} (h : ¬lba < 0x10000000) : ataReadSector lba = pure false :=
  if_pos (Nat.not_lt.1 h)

/-- The steps that end a call. -/
theorem editSector_contained {lba : Nat} (h : Inside m lba) (f : Sector → Sector) :
    Keeps (Contained m) (do
      if !(← ataReadSector lba) then return false
      modifySector f
      ataWriteSector lba) :=
  .bind (ataReadSector_contained lba) fun _ => .ite (fun _ => .pure _) fun _ =>
    .bind (modifySector_contained f) fun _ => ataWriteSector_contained fun _ => h

theorem writeFatCopies_contained (h : EntryInside m c) (v : Nat) : ∀ n k : Nat,
    k + n = m.bpb.fatCount → (∀ k' < k, copySector m k' c < 0x10000000) →
    Keeps (Contained m) (writeFatCopies m c v n k)
  | 0, _, _, _ => .pure _
  | n + 1, k, hk, hbefore => by
    unfold writeFatCopies
    change Keeps (Contained m) (do
      if !(← ataReadSector (copySector m k c)) then return false
      modifySector fun sec => wr32 sec (u32 (c * 4) % sectorSize) v
      if !(← ataWriteSector (copySector m k c)) then return false
      writeFatCopies m c v n (k + 1))
    by_cases hlt : copySector m k c < 0x10000000
    · have hupto : ∀ k' < k + 1, copySector m k' c < 0x10000000 := fun k' hk' =>
        (Nat.lt_succ_iff_lt_or_eq.1 hk').elim (hbefore k') fun heq => heq ▸ hlt
      have hinside := h k (by omega) fun k' hk' => hupto k' (Nat.lt_succ_of_le hk')
      refine .bind (ataReadSector_contained _) fun _ => .ite (fun _ => .pure _) fun _ =>
        .bind (modifySector_contained _) fun _ => .bind (ataWriteSector_contained fun _ => hinside)
        fun _ => .ite (fun _ => .pure _) fun _ => ?_
      exact writeFatCopies_contained h v n (k + 1) (by omega) hupto
    · rw [ataReadSector_of_ge hlt]
      exact .pure _

theorem writeFatEntry_contained (h : EntryInside m c) (v : Nat) :
    Keeps (Contained m) (writeFatEntry m c v) :=
  writeFatCopies_contained h v _ 0 (Nat.zero_add _) fun _ hk => absurd hk (Nat.not_lt_zero _)

theorem writeSectors_contained (h : BytesInside m c 0 (bytesPerCluster m)) (buffer : Nat → UInt8)
    (size n k w : Nat) (hk : k + n = m.bpb.sectorsPerCluster)
    (hbefore : ∀ o < k * sectorSize, byteSector m c o < 0x10000000) :
    Keeps (Contained m) (writeSectors m c buffer size n k w) := by
  induction n generalizing k w with
  | zero => exact .pure _
  | succ n ih =>
    have hsector : ∀ o, k * sectorSize ≤ o → o < (k + 1) * sectorSize →
        byteSector m c o = u32 (clusterToLba m c + k) := by
      intro o hle hlt
      have hdiv : o / sectorSize = k := Nat.div_eq_of_lt_le hle hlt
      unfold byteSector
      rw [hdiv]
    have hnext : k * sectorSize < (k + 1) * sectorSize := by
      rw [Nat.succ_mul]
      exact Nat.lt_add_of_pos_right (by decide)
    refine .bind (modifySector_contained _) fun _ => ?_
    by_cases hlt : u32 (clusterToLba m c + k) < 0x10000000
    · have hupto : ∀ o < (k + 1) * sectorSize, byteSector m c o < 0x10000000 := by
        intro o ho
        rcases Nat.lt_or_ge o (k * sectorSize) with hb | hb
        · exact hbefore o hb
        · rw [hsector o hb ho]
          exact hlt
      have hroom : k * sectorSize < bytesPerCluster m :=
        Nat.mul_lt_mul_of_pos_right (by omega) (by decide)
      have hinside := h (k * sectorSize) (Nat.zero_le _) hroom hroom fun o' _ ho' =>
        hupto o' (Nat.lt_of_le_of_lt ho' hnext)
      rw [hsector _ (Nat.le_refl _) hnext] at hinside
      refine .bind (ataWriteSector_contained fun _ => hinside) fun _ =>
        .ite (fun _ => .pure _) fun _ => ?_
      exact ih (k + 1) _ (by omega) hupto
    · rw [ataWriteSector_of_ge hlt]
      exact .pure _

theorem writeBufferToCluster_contained (h : BytesInside m c 0 (bytesPerCluster m))
    (buffer : Nat → UInt8) (size : Nat) :
    Keeps (Contained m) (writeBufferToCluster m c buffer size) :=
  writeSectors_contained h buffer size _ 0 0 (Nat.zero_add _) fun o ho => by
    rw [Nat.zero_mul] at ho
    exact absurd ho (Nat.not_lt_zero o)

/-! ## Clusters -/

theorem findFreeFrom_still : ∀ (n c : Nat) (s : Fs), Meets (findFreeFrom m n c) s fun r s' =>
    Still m s s' ∧ ∀ x, r = some x → c ≤ x ∧ x < c + n
  | 0, _, s => .pure ⟨.refl m s, nofun⟩
  | n + 1, c, s => by
    refine .bind ((readFatEntry_still c s).mono fun r s₁ ⟨hs, _⟩ => ?_)
    cases r with
    | none => exact .pure ⟨hs, nofun⟩
    | some v =>
      refine .ite (fun _ => .bind (.modify (.pure ⟨⟨hs.disk, hs.contained⟩, ?_⟩))) fun _ => ?_
      · intro x hx
        cases hx
        exact ⟨Nat.le_refl _, by omega⟩
      · refine (findFreeFrom_still n (c + 1) s₁).mono fun r s₂ ⟨hs₂, hr⟩ => ⟨hs.trans hs₂, ?_⟩
        intro x hx
        have := hr x hx
        omega

/-- A cluster that is granted belongs to the volume. -/
theorem findFreeCluster_still (s : Fs) : Meets (findFreeCluster m) s fun r s' => Still m s s' ∧
    ∀ x, r = some x → m.dataStartLba < totalSectors m ∧ 2 ≤ x ∧ x < maxCluster m := by
  refine .ite (fun _ => .pure ⟨.refl m s, nofun⟩) fun hT => ?_
  refine (findFreeFrom_still _ _ s).mono fun r s₁ ⟨hs, hr⟩ => ⟨hs, fun x hx => ?_⟩
  have := hr x hx
  exact ⟨Nat.not_le.1 hT, by omega, by omega⟩

theorem findFreeCluster_contained {α : Type} {k : Option Nat → Prog Fs α}
    (hnone : Keeps (Contained m) (k none))
    (hsome : ∀ x, m.dataStartLba < totalSectors m → 2 ≤ x → x < maxCluster m →
      Keeps (Contained m) (k (some x))) : Keeps (Contained m) (findFreeCluster m >>= k) := by
  refine .bind_of (fun s hc => (findFreeCluster_still s).mono fun r s' ⟨hs, hr⟩ =>
    ⟨hs.contained hc, hr⟩) fun r hr => ?_
  cases r with
  | none => exact hnone
  | some x =>
    obtain ⟨hT, h2, hx⟩ := hr x rfl
    exact hsome x hT h2 hx

section Fat

variable (hfat : FatInside m)

include hfat

theorem freeFrom_contained (hT : m.dataStartLba < totalSectors m) (n c : Nat) :
    Keeps (Contained m) (freeFrom m n c) := by
  induction n generalizing c with
  | zero =>
    unfold freeFrom
    exact .ite (fun _ => .pure _) fun _ => .ite (fun _ => .pure _) fun _ => .pure _
  | succ n ih =>
    unfold freeFrom
    refine .ite (fun _ => .pure _) fun hc => .ite (fun _ => .pure _) fun hmax => ?_
    have h2 : 2 ≤ c := by
      simp only [Bool.not_eq_true', Bool.not_eq_false, Bool.and_eq_true, decide_eq_true_eq] at hc
      exact hc.1
    refine .bind (Still.keeps fun s => (readFatEntry_still c s).mono fun _ _ h => h.1) fun v => ?_
    cases v with
    | none => exact .pure _
    | some v =>
      exact .bind (writeFatEntry_contained (hfat hT c h2 (Nat.not_le.1 hmax)) 0) fun _ =>
        .ite (fun _ => .pure _) fun _ => ih v

theorem freeClusterChain_contained (c : Nat) : Keeps (Contained m) (freeClusterChain m c) :=
  .ite (fun _ => .pure _) fun hT => freeFrom_contained hfat (Nat.not_le.1 hT) _ c

/-- The new clusters belong to the volume; the one before them has its entry written as well. -/
theorem appendGrow_contained (buffer : Nat → UInt8) (size steps c w : Nat)
    (hc : w < size → EntryInside m c) :
    Keeps (Contained m) (appendGrow m buffer size steps c w) := by
  induction steps generalizing c w with
  | zero =>
    unfold appendGrow
    exact .ite (fun _ => .pure _) fun _ => .failure
  | succ steps ih =>
    unfold appendGrow
    refine .ite (fun _ => .pure _) fun hgo =>
      findFreeCluster_contained (.pure _) fun x hT h2 hx => ?_
    have hentry := hfat hT x h2 hx
    exact .bind (writeBufferToCluster_contained (bytesInside_of_lt hT h2 hx _ _) _ _) fun _ =>
      .ite (fun _ => .pure _) fun _ => .bind (writeFatEntry_contained hentry _) fun _ =>
      .ite (fun _ => .pure _) fun _ => .bind (writeFatEntry_contained (hc (Nat.not_le.1 hgo)) _)
      fun _ => .ite (fun _ => .pure _) fun _ => ih x _ fun _ => hentry

end Fat

/-- The bytes that fill the tail cluster go to where they belong, or stop at the end of the cluster.
-/
theorem appendFill_contained {lo hi : Nat} (h : BytesInside m c lo hi) (buffer : Nat → UInt8)
    (size steps w o : Nat) (hlo : lo ≤ o) (hhi : w < size → o + (size - w) = hi)
    (hbefore : ∀ o', lo ≤ o' → o' < o → byteSector m c o' < 0x10000000) :
    Keeps (Contained m) (appendFill m c buffer size steps w o) := by
  induction steps generalizing w o with
  | zero =>
    unfold appendFill
    exact .ite (fun _ => .pure _) fun _ => .failure
  | succ steps ih =>
    unfold appendFill
    refine .ite (fun _ => .pure _) fun hgo => ?_
    simp only [Bool.not_eq_true', Bool.not_eq_false, Bool.and_eq_true, decide_eq_true_eq] at hgo
    have hindex : o / sectorSize % 256 = o / sectorSize := by
      refine Nat.mod_eq_of_lt (Nat.lt_trans ?_ m.bpb.sectorsPerCluster_lt)
      have hroom := hgo.2
      unfold bytesPerCluster at hroom
      exact Nat.div_lt_of_lt_mul (by rwa [Nat.mul_comm])
    simp only [hindex]
    change Keeps (Contained m) (do
      if !(← ataReadSector (byteSector m c o)) then return none
      modifySector _
      if !(← ataWriteSector (byteSector m c o)) then return none
      appendFill m c buffer size steps _ _)
    by_cases hlt : byteSector m c o < 0x10000000
    · have hinside := h o hlo (by omega) hgo.2 fun o' hle hle' =>
        (Nat.lt_or_eq_of_le hle').elim (hbefore o' hle) fun heq => heq ▸ hlt
      refine .bind (ataReadSector_contained _) fun _ => .ite (fun _ => .pure _) fun _ =>
        .bind (modifySector_contained _) fun _ => .bind (ataWriteSector_contained fun _ => hinside)
        fun _ => .ite (fun _ => .pure _) fun _ => ih _ _ (by omega) (by omega) ?_
      intro o' hle hlt'
      rcases Nat.lt_or_ge o' o with hb | hb
      · exact hbefore o' hle hb
      -- the bytes just written are in the sector of the first of them
      · have hsame : o' / sectorSize = o / sectorSize := by
          unfold sectorSize at *
          omega
        unfold byteSector
        rw [hsame]
        exact hlt
    · rw [ataReadSector_of_ge hlt]
      exact .pure _

/-- What is left to write does not fit into the tail cluster. -/
theorem appendFill_rest {hi : Nat} (buffer : Nat → UInt8) (size steps w o : Nat)
    (hhi : w < size → o + (size - w) = hi) (s : Fs) :
    Meets (appendFill m c buffer size steps w o) s fun r _ =>
      ∀ w', r = some w' → w' < size → bytesPerCluster m < hi := by
  have hend : ∀ t : Fs, size ≤ w ∨ bytesPerCluster m ≤ o →
      Meets (pure (some w) : Prog Fs (Option Nat)) t fun r _ =>
        ∀ w', r = some w' → w' < size → bytesPerCluster m < hi := by
    refine fun t hgo => .pure fun w' hw hlt => ?_
    cases hw
    omega
  induction steps generalizing w o s with
  | zero =>
    unfold appendFill
    exact .ite (fun hgo => hend s (by simpa using hgo)) fun _ r s' h => by cases h
  | succ steps ih =>
    unfold appendFill
    refine .ite (fun hgo => hend s (by simpa using hgo)) fun hgo => ?_
    simp only [Bool.not_eq_true', Bool.not_eq_false, Bool.and_eq_true, decide_eq_true_eq] at hgo
    refine .bind fun ok s₁ _ => .ite (fun _ => .pure (by simp)) fun _ => .bind (.modify ?_)
    refine .bind fun ok s₂ _ => .ite (fun _ => .pure (by simp)) fun _ => ?_
    refine ih _ _ (by omega) s₂ fun t hno => .pure fun w' hw hlt => ?_
    cases hw
    omega

/-- The walk of `fs_append_file` from a cluster ends in a cluster and an offset in it. -/
inductive TailAt (m : Mount) (d : Disk) : Nat → Nat → Nat → Nat → Prop
  | here {c off : Nat} : off ≤ bytesPerCluster m → TailAt m d c off c off
  | next {c off c' off' : Nat} : bytesPerCluster m < off → nextOn m d c < fat32Eoc →
      TailAt m d (nextOn m d c) (off - bytesPerCluster m) c' off' → TailAt m d c off c' off'

theorem appendSeek_still (steps c off : Nat) (s : Fs) :
    Meets (appendSeek m steps c off) s fun r s' =>
    Still m s s' ∧ ∀ c' off', r = some (c', off') → TailAt m s.disk c off c' off' := by
  have hhere : off ≤ bytesPerCluster m → Meets (pure (some (c, off)) : Prog Fs _) s fun r s' =>
      Still m s s' ∧ ∀ c' off', r = some (c', off') → TailAt m s.disk c off c' off' := by
    refine fun hle => .pure ⟨.refl m s, fun c' off' h => ?_⟩
    cases h
    exact .here hle
  induction steps generalizing c off s with
  | zero =>
    unfold appendSeek
    exact .ite hhere fun _ r s' h => by cases h
  | succ steps ih =>
    unfold appendSeek
    refine .ite hhere fun hgt => .bind ((nextCluster_still c s).mono fun x s₁ hnext => ?_)
    rcases hnext with ⟨hs, hx⟩
    refine .ite (fun _ => .pure ⟨hs, by simp⟩) fun hlt => ?_
    have hlt := Nat.not_le.1 hlt
    refine (ih x (off - bytesPerCluster m) s₁ fun hle =>
      .pure ⟨.refl m s₁, fun c' off' h => ?_⟩).mono
      fun r s₂ hrest => ?_
    · cases h
      exact .here hle
    · rcases hrest with ⟨hs₂, hr⟩
      refine ⟨hs.trans hs₂, fun c' off' h => ?_⟩
      have htail := hr c' off' h
      rw [hs.disk, hx hlt] at htail
      exact .next (Nat.not_le.1 hgt) (hx hlt ▸ hlt) htail

/-! ## The calls -/

/-- A lookup of the name finds the slot, and its entry is not a directory. -/
structure FileAt (m : Mount) (d : Disk) (nm : List UInt8) (p : Nat × Nat) : Prop where
  scan : ScansTo m d (lookFor (makeShortName nm)) m.bpb.rootCluster (some p)
  file : (slotEntry d p).attr &&& 0x10 = 0

/-- The slot that is edited is inside. -/
def SlotPlaced (m : Mount) (d : Disk) (name : NameArg) : Prop :=
  ∀ nm p, name = some nm → FileAt m d nm p → Inside m p.1

/-- The slot that is filled, where the name is new, is inside. -/
def CreatePlaced (m : Mount) (s : Fs) (name : NameArg) : Prop :=
  ∀ nm s', name = some nm → findRootEntryAt m nm s = some (none, s') →
    ∀ p, ScansTo m s.disk lookForFree m.bpb.rootCluster (some p) → Inside m p.1

/-- The slot of a file that is overwritten is inside, and so is the cluster that it has. -/
def WritePlaced (m : Mount) (d : Disk) (name : NameArg) (size : UInt32) : Prop :=
  ∀ nm p, name = some nm → size ≠ 0 → size.toNat ≤ bytesPerCluster m → FileAt m d nm p →
    (firstCluster (slotEntry d p) = 0 → (slotEntry d p).size = 0 → Inside m p.1) ∧
    (2 ≤ firstCluster (slotEntry d p) →
      (∃ v, fatRead m d (firstCluster (slotEntry d p)) = some v ∧ fat32Eoc ≤ v) →
      Inside m p.1 ∧ BytesInside m (firstCluster (slotEntry d p)) 0 (bytesPerCluster m))

/-- The slot of a file that is appended to is inside, and so are the bytes behind its end in its
tail cluster, and the entry of that cluster where it does not hold what is appended. -/
def AppendPlaced (m : Mount) (d : Disk) (name : NameArg) (size : UInt32) : Prop :=
  ∀ nm p c off, name = some nm → size ≠ 0 → FileAt m d nm p →
    2 ≤ firstCluster (slotEntry d p) →
    TailAt m d (firstCluster (slotEntry d p)) (slotEntry d p).size c off →
    (∃ v, fatRead m d c = some v ∧ fat32Eoc ≤ v) →
    Inside m p.1 ∧ BytesInside m c off (off + size.toNat) ∧
      (bytesPerCluster m < off + size.toNat → EntryInside m c)

/-- The cluster numbers through which a call writes lead inside; where `fs_write` makes further
calls, each in the state in which it is made. -/
def Call.Placed (m : Mount) (s : Fs) : Call → Prop
  | .create name => CreatePlaced m s name
  | .truncateFile name | .deleteFile name => SlotPlaced m s.disk name
  | .renameFile oldName _ => SlotPlaced m s.disk oldName
  | .writeFile name _ size => WritePlaced m s.disk name size
  | .appendFile name _ size => AppendPlaced m s.disk name size
  | .write name buffer size flags =>
      (∀ nm s', name = some nm → findRootEntryAt m nm s = some (none, s') →
        CreatePlaced m s' name) ∧
      ∀ s₁, fsWriteOpen m name buffer size flags s = some (true, s₁) →
        if flags &&& fsWriteTruncate ≠ 0 then
          SlotPlaced m s₁.disk name ∧
            ∀ s₂, fsTruncateFile m name s₁ = some (true, s₂) → WritePlaced m s₂.disk name size
        else if flags &&& fsWriteAppend ≠ 0 then
          AppendPlaced m s₁.disk name size ∧ ((∀ nm p, name = some nm → FileAt m s₁.disk nm p →
            firstCluster (slotEntry s₁.disk p) = 0) → WritePlaced m s₁.disk name size)
        else WritePlaced m s₁.disk name size

def Op.Placed (m : Mount) (s : Fs) : Op → Prop
  | .mutate c => c.Placed m s
  | _ => True

/-- A lookup, then what is done with the entry. -/
theorem lookup_meets {α : Type} {nm : List UInt8} {k : Option Found → Prog Fs α}
    (hc : Contained m s) (hnone : Keeps (Contained m) (k none))
    (hsome : ∀ f s', Still m s s' →
      ScansTo m s.disk (lookFor (makeShortName nm)) m.bpb.rootCluster (some (f.lba, f.index)) →
      f.entry = slotEntry s.disk (f.lba, f.index) →
      Meets (k (some f)) s' fun _ t => Contained m t) :
    Meets (findRootEntryAt m nm >>= k) s fun _ t => Contained m t := by
  refine .bind ((findRootEntryAt_still nm s).mono fun r s' ⟨hs, hr⟩ => ?_)
  cases r with
  | none => exact fun a t hm => hnone s' a t (hs.contained hc) hm
  | some f =>
    obtain ⟨hscan, hentry⟩ := hr f rfl
    exact hsome f s' hs hscan hentry

theorem findRootEntry_contained (nm : List UInt8) : Keeps (Contained m) (findRootEntry m nm) :=
  .bind (Still.keeps fun s => (findRootEntryAt_still nm s).mono fun _ _ h => h.1) fun r => by
    cases r <;> exact .pure _

theorem fsCreate_contained (hc : Contained m s) (name : NameArg) (h : CreatePlaced m s name) :
    Meets (fsCreate m name) s fun _ t => Contained m t := by
  cases name with
  | none => exact .pure hc
  | some nm =>
    refine .ite (fun _ => .pure hc) fun _ => ?_
    cases makeShortNameChecked nm with
    | none => exact .pure hc
    | some sn =>
      refine .bind (.bind fun r s₁ hfind => ?_)
      obtain ⟨hs, -⟩ := findRootEntryAt_still nm s r s₁ hfind
      cases r with
      | some f => exact .pure (.pure (hs.contained hc))
      | none =>
        refine .pure (.bind ((scanRoot_still _ _ _ s₁).mono fun p s₂ ⟨hs₂, hp⟩ => ?_))
        cases p with
        | none => exact .pure (hs₂.contained (hs.contained hc))
        | some p =>
          have hscan := (hp p rfl).1
          rw [hs.disk] at hscan
          have hinside := h nm s₁ rfl hfind p hscan
          exact (Keeps.bind (modifySector_contained _) fun _ =>
            ataWriteSector_contained fun _ => hinside).meets (hs₂.contained (hs.contained hc))

theorem fsWriteOpen_contained (hc : Contained m s) (name : NameArg) (buffer : BufferArg)
    (size flags : UInt32)
    (h : ∀ nm s', name = some nm → findRootEntryAt m nm s = some (none, s') →
      CreatePlaced m s' name) :
    Meets (fsWriteOpen m name buffer size flags) s fun _ t => Contained m t := by
  cases name with
  | none => exact .pure hc
  | some nm =>
    refine .ite (fun _ => .pure hc) fun _ => .ite (fun _ => .pure hc) fun _ => ?_
    cases makeShortNameChecked nm with
    | none => exact .pure hc
    | some sn =>
      refine .bind fun r s' hfind => ?_
      have hc' := (findRootEntryAt_still nm s r s' hfind).1.contained hc
      cases r with
      | some f =>
        exact .ite (fun _ => .pure hc') fun _ => .ite (fun _ => .pure hc') fun _ => .pure hc'
      | none =>
        exact .ite (fun _ => .pure hc') fun _ => fsCreate_contained hc' _ (h nm s' rfl hfind)

theorem file_of_not {a : UInt8} (h : ¬(a &&& 0x10 != 0) = true) : a &&& 0x10 = 0 := by
  simpa using h

theorem fsRenameFile_contained (hc : Contained m s) (oldName newName : NameArg)
    (h : SlotPlaced m s.disk oldName) :
    Meets (fsRenameFile m oldName newName) s fun _ t => Contained m t := by
  cases oldName with
  | none => exact .pure hc
  | some old =>
  cases newName with
  | none => exact .pure hc
  | some new =>
    refine .ite (fun _ => .pure hc) fun _ => ?_
    cases makeShortNameChecked new with
    | none => exact .pure hc
    | some sn =>
      refine lookup_meets hc (.pure _) fun f s' hs hscan hentry => ?_
      refine .ite (fun _ => .pure (hs.contained hc)) fun hfile => ?_
      rw [hentry] at hfile
      have hinside := h old _ rfl ⟨hscan, file_of_not hfile⟩
      refine (Keeps.bind (findRootEntry_contained new) fun _ => .ite (fun _ => .pure _) fun _ =>
        editSector_contained hinside _).meets (hs.contained hc)

section Fat

variable (hfat : FatInside m)

include hfat

/-- Behind the lookup of `fs_truncate_file` and `fs_delete_file`. -/
theorem freeAndEdit_contained {f : Found} (h : Inside m f.lba) (edit : Sector → Sector) :
    Keeps (Contained m) (do
      if firstCluster f.entry ≥ 2 then
        if !(← freeClusterChain m (firstCluster f.entry)) then return false
      if !(← ataReadSector f.lba) then return false
      modifySector edit
      ataWriteSector f.lba) :=
  .ite (fun _ => .bind (freeClusterChain_contained hfat _) fun _ => .ite (fun _ => .pure _) fun _ =>
    editSector_contained h edit) fun _ => editSector_contained h edit

/-- What `fs_truncate_file` and `fs_delete_file` do; `edit` is what they make of the slot. -/
theorem freeFile_contained (hc : Contained m s) (name : NameArg) (h : SlotPlaced m s.disk name)
    (edit : Nat → Sector → Sector) : Meets (do
      let some name := name | return false
      if !m.mounted then return false
      let some _ := makeShortNameChecked name | return false
      let some f ← findRootEntryAt m name | return false
      if f.entry.attr &&& 0x10 != 0 then return false
      if firstCluster f.entry ≥ 2 then
        if !(← freeClusterChain m (firstCluster f.entry)) then return false
      if !(← ataReadSector f.lba) then return false
      modifySector (edit f.index)
      ataWriteSector f.lba) s fun _ t => Contained m t := by
  cases name with
  | none => exact .pure hc
  | some nm =>
    refine .ite (fun _ => .pure hc) fun _ => ?_
    cases makeShortNameChecked nm with
    | none => exact .pure hc
    | some sn =>
      refine lookup_meets hc (.pure _) fun f s' hs hscan hentry => ?_
      refine .ite (fun _ => .pure (hs.contained hc)) fun hfile => ?_
      rw [hentry] at hfile
      have hinside := h nm _ rfl ⟨hscan, file_of_not hfile⟩
      exact (freeAndEdit_contained hfat hinside _).meets (hs.contained hc)

theorem fsTruncateFile_contained (hc : Contained m s) (name : NameArg)
    (h : SlotPlaced m s.disk name) : Meets (fsTruncateFile m name) s fun _ t => Contained m t :=
  freeFile_contained hfat hc name h fun i sec => setSize (setCluster sec i 0) i 0

theorem fsDeleteFile_contained (hc : Contained m s) (name : NameArg)
    (h : SlotPlaced m s.disk name) : Meets (fsDeleteFile m name) s fun _ t => Contained m t :=
  freeFile_contained hfat hc name h fun i sec => setDirent sec i deletedDirent

theorem fsWriteFile_contained (hc : Contained m s) (name : NameArg) (buffer : BufferArg)
    (size : UInt32)
    (h : WritePlaced m s.disk name size) :
    Meets (fsWriteFile m name buffer size) s fun _ t => Contained m t := by
  cases name with
  | none => exact .pure hc
  | some nm =>
    refine .ite (fun _ => .pure hc) fun _ => ?_
    cases makeShortNameChecked nm with
    | none => exact .pure hc
    | some sn =>
      refine .ite (fun _ => .pure hc) fun hfits => ?_
      refine lookup_meets hc (.pure _) fun f s' hs hscan hentry => ?_
      have hc' := hs.contained hc
      refine .ite (fun _ => .pure hc') fun hfile => .ite (fun _ => .pure hc') fun hsize => ?_
      rw [hentry] at hfile
      obtain ⟨hfresh, hsingle⟩ := h nm _ rfl hsize (Nat.not_lt.1 hfits) ⟨hscan, file_of_not hfile⟩
      rw [← hentry] at hfresh hsingle
      refine .ite (fun hzero => .ite (fun _ => .pure hc') fun hempty => ?_) fun _ => ?_
      · have hinside := hfresh hzero (by simpa using hempty)
        refine Keeps.meets ?_ hc'
        refine findFreeCluster_contained (.pure _) fun x hT h2 hx => ?_
        refine .bind (writeBufferToCluster_contained (bytesInside_of_lt hT h2 hx _ _) _ _) fun _ =>
          .ite (fun _ => .pure _) fun _ => ?_
        exact .bind (writeFatEntry_contained (hfat hT x h2 hx) _) fun _ =>
          .ite (fun _ => .pure _) fun _ => editSector_contained hinside _
      · refine .bind ((clusterIsSingle_still _ _).mono fun r s₁ ⟨hs₁, hr⟩ => ?_)
        refine .ite (fun _ => .pure (hs₁.contained hc')) fun hyes => ?_
        obtain ⟨h2, hlast⟩ := hr (by simpa using hyes)
        rw [hs.disk] at hlast
        obtain ⟨hinside, hbytes⟩ := hsingle h2 hlast
        refine Keeps.meets (.bind (writeBufferToCluster_contained hbytes _ _) fun _ => ?_)
          (hs₁.contained hc')
        exact .ite (fun _ => .pure _) fun _ => editSector_contained hinside _

theorem fsAppendFile_contained (hc : Contained m s) (name : NameArg) (buffer : BufferArg)
    (size : UInt32)
    (h : AppendPlaced m s.disk name size) :
    Meets (fsAppendFile m name buffer size) s fun _ t => Contained m t := by
  cases name with
  | none => exact .pure hc
  | some nm =>
    refine .ite (fun _ => .pure hc) fun _ => .ite (fun _ => .pure hc) fun hsize => ?_
    cases makeShortNameChecked nm with
    | none => exact .pure hc
    | some sn =>
      refine lookup_meets hc (.pure _) fun f s' hs hscan hentry => ?_
      have hc' := hs.contained hc
      refine .ite (fun _ => .pure hc') fun hfile => .ite (fun _ => .pure hc') fun hchain => ?_
      rw [hentry] at hfile
      have hplaced := fun c off => h nm _ c off rfl hsize ⟨hscan, file_of_not hfile⟩
      rw [← hentry] at hplaced
      refine .bind ((appendSeek_still _ _ _ s').mono fun r s₁ ⟨hs₁, hr⟩ => ?_)
      have hc₁ := hs₁.contained hc'
      cases r with
      | none => exact .pure hc₁
      | some r =>
      obtain ⟨c, off⟩ := r
      have htail := hr c off rfl
      rw [hs.disk] at htail
      refine .bind ((readFatEntry_still c s₁).mono fun r s₂ ⟨hs₂, hr₂⟩ => ?_)
      have hc₂ := hs₂.contained hc₁
      cases r with
      | none => exact .pure hc₂
      | some v =>
      refine .ite (fun _ => .pure hc₂) fun hlast => ?_
      have hv := hr₂ v rfl
      rw [hs₁.disk, hs.disk] at hv
      have hfirst : 2 ≤ firstCluster f.entry := by
        simp only [Bool.or_eq_true, decide_eq_true_eq] at hchain
        omega
      obtain ⟨hinside, hbytes, hgrow⟩ := hplaced c off hfirst htail ⟨v, hv, Nat.not_lt.1 hlast⟩
      have hfill : ∀ t, Contained m t →
          Meets (appendFill m c (buffer.getD fun _ => 0) size.toNat size.toNat 0 off) t fun r t' =>
            Contained m t' ∧
              ∀ w, r = some w → w < size.toNat → bytesPerCluster m < off + size.toNat := by
        intro t ht r t' hm
        exact ⟨appendFill_contained hbytes _ _ _ _ _ (Nat.le_refl _) (fun _ => rfl)
          (fun o' hle hlt => absurd hlt (Nat.not_lt.2 hle)) t r t' ht hm,
          appendFill_rest _ _ _ _ _ (fun _ => rfl) t r t' hm⟩
      refine Keeps.meets (.bind_of hfill fun r hr => ?_) hc₂
      cases r with
      | none => exact .pure _
      | some w =>
        refine .bind (appendGrow_contained hfat _ _ _ _ _ fun hlt =>
          hgrow (hr w rfl hlt)) fun _ => ?_
        exact .ite (fun _ => .pure _) fun _ => editSector_contained hinside _

theorem fsWrite_contained (hc : Contained m s) (name : NameArg) (buffer : BufferArg)
    (size flags : UInt32) (h : (Call.write name buffer size flags).Placed m s) :
    Meets (fsWrite m name buffer size flags) s fun _ t => Contained m t := by
  obtain ⟨hopen, hrest⟩ := h
  cases name with
  | none => exact .pure hc
  | some nm =>
    refine .bind fun ok s₁ hrun => ?_
    have hc₁ := fsWriteOpen_contained hc _ buffer size flags hopen ok s₁ hrun
    refine .ite (fun _ => .pure hc₁) fun hok => ?_
    obtain rfl : ok = true := by simpa using hok
    specialize hrest s₁ hrun
    refine .ite (fun htrunc => ?_) fun htrunc => ?_
    · rw [if_pos (by simpa using htrunc)] at hrest
      obtain ⟨hslot, hwrite⟩ := hrest
      refine .bind fun ok s₂ hrun₂ => ?_
      have hc₂ := fsTruncateFile_contained hfat hc₁ _ hslot ok s₂ hrun₂
      refine .ite (fun _ => .pure hc₂) fun hok => .ite (fun _ => .pure hc₂) fun _ => ?_
      obtain rfl : ok = true := by simpa using hok
      exact fsWriteFile_contained hfat hc₂ _ buffer size (hwrite s₂ hrun₂)
    rw [if_neg (by simpa using htrunc)] at hrest
    refine .ite (fun happ => ?_) fun happ => ?_
    · rw [if_pos (by simpa using happ)] at hrest
      obtain ⟨happend, hwrite⟩ := hrest
      refine .ite (fun _ => .pure hc₁) fun _ => ?_
      refine lookup_meets hc₁ (.pure _) fun f s₂ hs hscan hentry => ?_
      have hc₂ := hs.contained hc₁
      rw [← hs.disk] at happend hwrite
      refine .ite (fun hzero => ?_) fun _ => ?_
      · refine fsWriteFile_contained hfat hc₂ _ buffer size (hwrite fun nm' p hnm hp => ?_)
        obtain rfl := Option.some.inj hnm
        rw [hs.disk] at hp ⊢
        obtain rfl := Option.some.inj (hp.scan.det hscan)
        rw [← hentry]
        exact hzero
      · exact fsAppendFile_contained hfat hc₂ _ buffer size happend
    · rw [if_neg (by simpa using happ)] at hrest
      exact fsWriteFile_contained hfat hc₁ _ buffer size hrest

theorem Call.run_contained (c : Call) (hc : Contained m s) (h : c.Placed m s) :
    Meets (c.run m) s fun _ t => Contained m t := by
  cases c with
  | create name => exact fsCreate_contained hc name h
  | writeFile name buffer size => exact fsWriteFile_contained hfat hc name buffer size h
  | appendFile name buffer size => exact fsAppendFile_contained hfat hc name buffer size h
  | truncateFile name => exact fsTruncateFile_contained hfat hc name h
  | write name buffer size flags => exact fsWrite_contained hfat hc name buffer size flags h
  | deleteFile name => exact fsDeleteFile_contained hfat hc name h
  | renameFile oldName newName => exact fsRenameFile_contained hc oldName newName h

end Fat

/-! ## The calls that only read -/

theorem nextCluster_contained (c : Nat) : Keeps (Contained m) (nextCluster m c) :=
  Still.keeps fun s => (nextCluster_still c s).mono fun _ _ h => h.1

theorem listSectors_contained (c : Nat) : ∀ n k : Nat, Keeps (Contained m) (listSectors m c n k)
  | 0, _ => .pure _
  | n + 1, k => by
    refine .bind (ataReadSector_contained _) fun _ => .ite (fun _ => .pure _) fun _ =>
      .bind .get fun s => ?_
    refine .ite (fun _ => .pure _) fun _ => .bind (listSectors_contained c n (k + 1)) fun r => ?_
    cases r <;> exact .pure _

theorem listRoot_contained : ∀ steps c : Nat, Keeps (Contained m) (listRoot m steps c)
  | 0, _ => .failure
  | steps + 1, c => by
    refine .ite (fun _ => .pure _) fun _ => .bind (listSectors_contained c _ 0) fun r => ?_
    cases r with
    | none => exact .pure _
    | some r =>
      refine .ite (fun _ => .pure _) fun _ => .bind (nextCluster_contained c) fun c' => ?_
      refine .bind (listRoot_contained steps c') fun r => ?_
      cases r <;> exact .pure _

theorem fsListRoot_contained : Keeps (Contained m) (fsListRoot m) :=
  .ite (fun _ => .pure _) fun _ => listRoot_contained _ _

theorem fsOpen_contained (name : NameArg) : Keeps (Contained m) (fsOpen m name) := by
  cases name with
  | none => exact .pure _
  | some nm =>
    refine .ite (fun _ => .pure _) fun _ => .bind (findRootEntry_contained nm) fun r => ?_
    cases r with
    | none => exact .pure _
    | some e => exact .ite (fun _ => .pure _) fun _ => .pure _

theorem readSkip_contained (steps c skip : Nat) :
    Keeps (Contained m) (readSkip m steps c skip) := by
  induction steps generalizing c skip with
  | zero =>
    unfold readSkip
    exact .ite (fun _ => .pure _) fun _ => .failure
  | succ steps ih =>
    unfold readSkip
    exact .ite (fun _ => .pure _) fun _ => .bind (nextCluster_contained c) fun c' => ih c' _

theorem readSectors_contained (c count : Nat) : ∀ (n k o read : Nat) (buffer : Nat → UInt8),
    Keeps (Contained m) (readSectors m c count n k o read buffer)
  | 0, _, _, _, _ => .pure _
  | n + 1, k, o, read, buffer => by
    refine .ite (fun _ => .pure _) fun _ => .bind (ataReadSector_contained _) fun _ => ?_
    exact .ite (fun _ => .pure _) fun _ => .bind .get fun s =>
      readSectors_contained c count n _ _ _ _

theorem readClusters_contained (count steps c skip read : Nat) (buffer : Nat → UInt8) :
    Keeps (Contained m) (readClusters m count steps c skip read buffer) := by
  induction steps generalizing c skip read buffer with
  | zero =>
    unfold readClusters
    exact .ite (fun _ => .pure _) fun _ => .failure
  | succ steps ih =>
    unfold readClusters
    refine .ite (fun _ => .pure _) fun _ =>
      .bind (readSectors_contained c count _ _ _ _ _) fun r => ?_
    obtain ⟨read', buffer'⟩ := r
    cases read' with
    | none => exact .pure _
    | some read' => exact .bind (nextCluster_contained c) fun c' => ih c' _ _ _

theorem fsRead_contained (file : FsFile) (buffer : BufferArg) (count : Nat) :
    Keeps (Contained m) (fsRead m file buffer count) := by
  cases buffer with
  | none => exact .pure _
  | some bytes =>
    refine .ite (fun _ => .pure _) fun _ => .ite (fun _ => .pure _) fun _ => ?_
    refine .bind (readSkip_contained _ _ _) fun p =>
      .bind (readClusters_contained _ _ _ _ _ _) fun r => ?_
    obtain ⟨read, bytes'⟩ := r
    cases read <;> exact .pure _

theorem fsReadFile_contained (name : NameArg) (buffer : BufferArg) (bufferSize : UInt32) :
    Keeps (Contained m) (fsReadFile m name buffer bufferSize) := by
  refine .ite (fun _ => .pure _) fun _ => .bind (fsOpen_contained name) fun r => ?_
  cases r with
  | none => exact .pure _
  | some file => exact .bind (fsRead_contained _ _ _) fun _ => .pure _

/-! ## Runs -/

/-- A call, whatever it returns. -/
def Op.run (m : Mount) : Op → Prog Fs Unit
  | .listRoot => do let _ ← fsListRoot m
  | .openFile name => do let _ ← fsOpen m name
  | .read file buffer count => do let _ ← fsRead m file buffer count
  | .readFile name buffer bufferSize => do let _ ← fsReadFile m name buffer bufferSize
  | .mutate c => do let _ ← c.run m

theorem Op.run_contained (hfat : FatInside m) (op : Op) (hc : Contained m s) (h : op.Placed m s) :
    Meets (op.run m) s fun _ t => Contained m t := by
  cases op with
  | listRoot => exact (Keeps.bind fsListRoot_contained fun _ => .pure _).meets hc
  | openFile name => exact (Keeps.bind (fsOpen_contained name) fun _ => .pure _).meets hc
  | read file buffer count =>
      exact (Keeps.bind (fsRead_contained file buffer count) fun _ => .pure _).meets hc
  | readFile name buffer bufferSize =>
    exact (Keeps.bind (fsReadFile_contained name buffer bufferSize) fun _ => .pure _).meets hc
  | mutate c => exact .bind ((c.run_contained hfat hc h).mono fun _ _ ht => .pure ht)

/-- `fs_init` writes nothing. -/
theorem fsInit_contained : Keeps (Contained m) fsInit :=
  .bind (ataReadSector_contained 0) fun _ => .ite (fun _ => .pure _) fun _ => .bind .get fun _ =>
    .ite (fun _ => .pure _) fun _ => .pure _

/-- Whatever the driver refuses: on a volume whose FAT is inside, the calls of a run write inside as
long as the cluster numbers through which they write lead there. -/
theorem runs_contained {sector : Sector} {faults : List Bool}
    (hinit : fsInit (Fs.start d sector faults) = some (some m, s)) (hfat : FatInside m)
    {ops : List Op}
    (hops : Along (Op.run m) (fun op t => op.Placed m t) ops s) :
    ∀ pre, pre <+: ops → Meets (runAll (Op.run m) pre) s fun _ t => Contained m t := by
  have hs : Contained m s := fsInit_contained _ _ _ (fun _ _ h => absurd h List.not_mem_nil) hinit
  exact meets_runAll (Op.run m) (fun op t ht hP => op.run_contained hfat ht hP) ops s hs hops

/-- A volume of which only the boot sector is written. -/
def blankBoot (sec : Sector) : Disk := fun lba => if lba = 0 then sec else fun _ => 0

theorem runs_contained_create :
    Meets (runAll (Op.run cyclicMount) [Op.mutate (.create (some [0x41]))])
    { Fs.start (blankBoot bootSector) bootSector [] with trace := [.read 0 true] }
    fun _ t => Contained cyclicMount t := by
  have hinit : fsInit (Fs.start (blankBoot bootSector) (fun _ => 0) []) = some (some cyclicMount,
      { Fs.start (blankBoot bootSector) bootSector [] with trace := [.read 0 true] }) := rfl
  have hplaced : Along (Op.run cyclicMount) (fun op t => op.Placed cyclicMount t)
      [Op.mutate (.create (some [0x41]))]
      { Fs.start (blankBoot bootSector) bootSector [] with trace := [.read 0 true] } := by
    refine ⟨?_, fun _ _ _ => trivial⟩
    intro nm s' hnm _ p hp
    have hhit : ScansTo cyclicMount (blankBoot bootSector) lookForFree 2 (some (2, 0)) :=
      .hit (by decide) (by decide)
    obtain rfl := Option.some.inj (hp.det hhit)
    exact .inr ⟨by decide, by decide⟩
  have hfat : FatInside cyclicMount := fatInside_of_le (by decide) (by decide) (by decide) rfl
  exact runs_contained hinit hfat hplaced _ (List.prefix_refl _)

/-- The boot sector of a volume that has its root directory in cluster 0. -/
def rootlessBoot : Sector := fun o => if o = 44 then 0 else bootSector o

/-- With a root cluster of 0, `fs_create` writes the new entry into the boot sector. -/
theorem create_rootless :
    Total fsInit (Fs.start (blankBoot rootlessBoot) (fun _ => 0) []) fun r s =>
    ∃ m, r = some m ∧ Total (fsCreate m (some [0x41])) s fun _ t => ¬Contained m t := by
  have hinit : fsInit (Fs.start (blankBoot rootlessBoot) (fun _ => 0) []) = some (some (mountOf
      (bpbOf rootlessBoot)), { Fs.start (blankBoot rootlessBoot) rootlessBoot [] with
        trace := [.read 0 true] }) := rfl
  refine ⟨_, _, hinit, _, rfl, (total_bind ..).2 ((total_bind ..).2 ?_)⟩
  have hfind : ScansTo (mountOf (bpbOf rootlessBoot)) (blankBoot rootlessBoot)
      (lookFor (makeShortName [0x41])) 0 none := .stop (by decide) (by decide)
  refine (findRootEntryAt_quiet rfl ⟨none, hfind⟩).mono fun f s ⟨hq, r, hr, hf⟩ => ?_
  obtain rfl := hf.trans (congrArg _ (hr.det hfind))
  refine (total_pure ..).2 ((total_bind ..).2 ?_)
  have hfree : ScansTo (mountOf (bpbOf rootlessBoot)) s.disk lookForFree 0 (some (0, 0)) := by
    rw [hq.disk]
    exact .hit (by decide) (by decide)
  refine (scanRoot_spec_any hfree hq.reliable).mono fun p s₁ ⟨hq₁, hp, _⟩ => ?_
  subst hp
  refine (total_bind ..).2
      ((total_modify ..).2 ((total_ite ..).2 ⟨fun h => absurd h (by decide), fun _ =>
    (total_bind ..).2 ((total_get ..).2 ((total_ite ..).2 ⟨fun h => ?_, fun _ => ?_⟩))⟩))
  · simp [hq₁.reliable] at h
  refine (total_bind ..).2 ((total_set ..).2 ((total_pure ..).2 fun h => ?_))
  rcases h 0 true (List.mem_cons_self ..) with ⟨k, _, i, _, hlba⟩ | ⟨hle, _⟩
  · have hstart : (mountOf (bpbOf rootlessBoot)).fatStartLba = 1 := by decide
    omega
  · exact absurd hle (by decide)

end MinervaOS.Fat32
