import MinervaOS.Fat32.Mounting
import MinervaOS.Fat32.Reading
import MinervaOS.Fat32.Runs

/-!
# Which calls return

Every loop of the file system has a bound of its own but for the walks of the root directory, which
follow the FAT from the root cluster on until something ends them: a value that is an EOC, the end
of the directory, or the entry that is looked for. `ScansTo` is such a walk that ends; a call
returns from a disk exactly when the walks it makes do (`returns_iff`).
-/

namespace MinervaOS.Fat32

open Prog

variable {m : Mount} {s s' : Fs} {d : Disk} {look look' : Dirent → Scan Unit}
  {r : Option (Nat × Nat)} {c : Nat}

/-! ## The loops with a bound -/

theorem ataReadSector_returns (lba : Nat) : Returns (ataReadSector lba) :=
  .ite (fun _ => .pure _) fun _ => .bind .get fun _ => .ite
    (fun _ => .bind (.set _) fun _ => .pure _) fun _ => .bind (.set _) fun _ => .pure _

theorem ataWriteSector_returns (lba : Nat) : Returns (ataWriteSector lba) :=
  .ite (fun _ => .pure _) fun _ => .bind .get fun _ => .ite
    (fun _ => .bind (.set _) fun _ => .pure _) fun _ => .bind (.set _) fun _ => .pure _

/-- The steps that end a call. -/
theorem editSector_returns (lba : Nat) (f : Sector → Sector) : Returns (do
    if !(← ataReadSector lba) then return false
    modifySector f
    ataWriteSector lba) :=
  .bind (ataReadSector_returns lba) fun _ => .ite (fun _ => .pure _) fun _ =>
    .bind (.modify _) fun _ => ataWriteSector_returns lba

theorem nextCluster_returns (c : Nat) : Returns (nextCluster m c) :=
  .bind (ataReadSector_returns _) fun _ => .ite (fun _ => .pure _) fun _ =>
    .bind .get fun _ => .pure _

theorem readFatEntry_returns (c : Nat) : Returns (readFatEntry m c) :=
  .bind (ataReadSector_returns _) fun _ => .ite (fun _ => .pure _) fun _ =>
    .bind .get fun _ => .pure _

theorem writeFatCopies_returns (c v : Nat) : ∀ n j, Returns (writeFatCopies m c v n j)
  | 0, _ => .pure _
  | n + 1, j => .bind (ataReadSector_returns _) fun _ => .ite (fun _ => .pure _) fun _ =>
      .bind (.modify _) fun _ => .bind (ataWriteSector_returns _) fun _ => .ite
        (fun _ => .pure _) fun _ => writeFatCopies_returns c v n (j + 1)

theorem findFreeFrom_returns : ∀ n c, Returns (findFreeFrom m n c)
  | 0, _ => .pure _
  | n + 1, c => .bind (readFatEntry_returns c) fun
    | none => .pure _
    | some _ => .ite (fun _ => .bind (.modify _) fun _ => .pure _) fun _ =>
        findFreeFrom_returns n (c + 1)

theorem findFreeCluster_returns : Returns (findFreeCluster m) :=
  .ite (fun _ => .pure _) fun _ => findFreeFrom_returns _ _

theorem freeFrom_returns (n c : Nat) : Returns (freeFrom m n c) := by
  induction n generalizing c with
  | zero =>
    unfold freeFrom
    exact .ite (fun _ => .pure _) fun _ => .ite (fun _ => .pure _) fun _ => .pure _
  | succ n ih =>
    unfold freeFrom
    refine .ite (fun _ => .pure _) fun _ => .ite (fun _ => .pure _) fun _ => ?_
    refine .bind (readFatEntry_returns c) fun v => ?_
    cases v with
    | none => exact .pure _
    | some v =>
      exact .bind (writeFatCopies_returns _ _ _ _) fun _ => .ite (fun _ => .pure _) fun _ => ih v

theorem freeClusterChain_returns (c : Nat) : Returns (freeClusterChain m c) :=
  .ite (fun _ => .pure _) fun _ => freeFrom_returns _ _

theorem clusterIsSingle_returns (c : Nat) : Returns (clusterIsSingle m c) :=
  .ite (fun _ => .pure _) fun _ => .bind (readFatEntry_returns c) fun
    | none => .pure _
    | some _ => .pure _

theorem writeSectors_returns (c : Nat) (buffer : Nat → UInt8) (size : Nat) :
    ∀ n k w, Returns (writeSectors m c buffer size n k w)
  | 0, _, _ => .pure _
  | n + 1, k, _ => .bind (.modify _) fun _ => .bind (ataWriteSector_returns _) fun _ => .ite
      (fun _ => .pure _) fun _ => writeSectors_returns c buffer size n (k + 1) _

theorem writeBufferToCluster_returns (c : Nat) (buffer : Nat → UInt8) (size : Nat) :
    Returns (writeBufferToCluster m c buffer size) := writeSectors_returns _ _ _ _ _ _

section Bytes

variable (hpos : 0 < bytesPerCluster m)

include hpos

theorem appendSeek_returns (steps c off : Nat) (h : off ≤ steps) :
    Returns (appendSeek m steps c off) := by
  induction steps generalizing c off with
  | zero =>
    unfold appendSeek
    exact .ite (fun _ => .pure _) fun hgt => absurd (Nat.le_trans h (Nat.zero_le _)) hgt
  | succ steps ih =>
    unfold appendSeek
    refine .ite (fun _ => .pure _) fun _ => .bind (nextCluster_returns c) fun _ => ?_
    exact .ite (fun _ => .pure _) fun _ => ih _ _ (by omega)

omit hpos in
theorem appendFill_returns (c : Nat) (buffer : Nat → UInt8) (size steps w off : Nat)
    (h : size - w ≤ steps) : Returns (appendFill m c buffer size steps w off) := by
  induction steps generalizing w off with
  | zero =>
    unfold appendFill
    refine .ite (fun _ => .pure _) fun hgo => ?_
    simp only [Bool.not_eq_true', Bool.not_eq_false, Bool.and_eq_true, decide_eq_true_eq] at hgo
    omega
  | succ steps ih =>
    unfold appendFill
    refine .ite (fun _ => .pure _) fun hgo => .bind (ataReadSector_returns _) fun _ => .ite
      (fun _ => .pure _) fun _ => .bind (.modify _) fun _ => .bind (ataWriteSector_returns _)
      fun _ => .ite (fun _ => .pure _) fun _ => ih _ _ ?_
    simp only [Bool.not_eq_true', Bool.not_eq_false, Bool.and_eq_true, decide_eq_true_eq] at hgo
    have hmod := Nat.mod_lt off (show 0 < sectorSize by decide)
    omega

theorem appendGrow_returns (buffer : Nat → UInt8) (size steps c w : Nat) (h : size - w ≤ steps) :
    Returns (appendGrow m buffer size steps c w) := by
  induction steps generalizing c w with
  | zero =>
    unfold appendGrow
    exact .ite (fun _ => .pure _) fun hgo => absurd (show w ≥ size by omega) hgo
  | succ steps ih =>
    unfold appendGrow
    refine .ite (fun _ => .pure _) fun hgo => .bind findFreeCluster_returns fun t => ?_
    cases t with
    | none => exact .pure _
    | some t =>
      exact .bind (writeBufferToCluster_returns _ _ _) fun _ => .ite (fun _ => .pure _) fun _ =>
        .bind (writeFatCopies_returns _ _ _ _) fun _ => .ite (fun _ => .pure _) fun _ =>
        .bind (writeFatCopies_returns _ _ _ _) fun _ => .ite (fun _ => .pure _) fun _ =>
        ih _ _ (by omega)

end Bytes

/-- A cluster that is read from brings the copy on. -/
theorem readSectors_returns (c count : Nat) :
    ∀ (n k off read : Nat) (buffer : Nat → UInt8) (s : Fs),
    off < sectorSize → Total (readSectors m c count n k off read buffer) s fun x _ =>
      ∀ read', x.1 = some read' → read ≤ read' ∧ (0 < n → read < count → read < read')
  | 0, _, _, read, _, s, _ => by
    refine (total_pure ..).2 fun read' h => ?_
    obtain rfl := Option.some.inj h
    exact ⟨Nat.le_refl _, fun h => absurd h (Nat.lt_irrefl 0)⟩
  | n + 1, k, off, read, buffer, s, hoff => by
    refine (total_ite ..).2 ⟨fun hend => (total_pure ..).2 fun read' h => ?_, fun hgo => ?_⟩
    · obtain rfl := Option.some.inj h
      simp only [Bool.not_eq_true', decide_eq_false_iff_not] at hend
      exact ⟨Nat.le_refl _, fun _ h => absurd h hend⟩
    refine (total_bind ..).2 ((ataReadSector_returns _ s).mono fun ok s₁ _ => ?_)
    refine (total_ite ..).2 ⟨fun _ => (total_pure ..).2 fun read' h => (by cases h), fun _ => ?_⟩
    refine (total_bind ..).2 ((total_get ..).2 ?_)
    refine (readSectors_returns c count n (k + 1) 0 _ _ s₁ (by decide)).mono
      fun x _ hx read' h => ?_
    simp only [Bool.not_eq_true', Bool.not_eq_false, decide_eq_true_eq] at hgo
    have hle := (hx read' h).1
    exact ⟨by omega, fun _ _ => by omega⟩

theorem readClusters_returns (g : 0 < m.bpb.sectorsPerCluster) (count steps c skip read : Nat)
    (buffer : Nat → UInt8) (h : count - read ≤ steps)
    (hskip : skip < bytesPerCluster m ∨ fat32Eoc ≤ c) :
    Returns (readClusters m count steps c skip read buffer) := by
  induction steps generalizing c skip read buffer with
  | zero =>
    unfold readClusters
    refine .ite (fun _ => .pure _) fun hgo => ?_
    simp only [Bool.not_eq_true', Bool.not_eq_false, Bool.and_eq_true, decide_eq_true_eq] at hgo
    omega
  | succ steps ih =>
    unfold readClusters
    refine .ite (fun _ => .pure _) fun hgo s => ?_
    simp only [Bool.not_eq_true', Bool.not_eq_false, Bool.and_eq_true, decide_eq_true_eq] at hgo
    have hlt := hskip.resolve_right (by omega)
    have hindex : skip / sectorSize < m.bpb.sectorsPerCluster := by
      unfold bytesPerCluster at hlt
      exact Nat.div_lt_of_lt_mul (by rwa [Nat.mul_comm])
    rw [Nat.mod_eq_of_lt (Nat.lt_trans hindex m.bpb.sectorsPerCluster_lt)]
    refine (total_bind ..).2 ((readSectors_returns c count _ _ _ read buffer s
      (Nat.mod_lt _ (by decide))).mono ?_)
    rintro ⟨read', buffer'⟩ s₁ hread
    cases read' with
    | none => exact (total_pure ..).2 trivial
    | some read' =>
      have hmore := (hread read' rfl).2 (by omega) hgo.1
      refine (total_bind ..).2 ((nextCluster_returns c s₁).mono fun c' s₂ _ => ?_)
      exact ih c' 0 read' buffer' (by omega) (.inl (Nat.mul_pos g (by decide))) s₂

/-- Where the skip ends. -/
theorem readSkip_spec_any (steps c skip : Nat) (h : skip ≤ steps) (hpos : 0 < bytesPerCluster m)
    (s : Fs) : Total (readSkip m steps c skip) s fun x _ =>
      x.2 < bytesPerCluster m ∨ fat32Eoc ≤ x.1 := by
  induction steps generalizing c skip s with
  | zero =>
    unfold readSkip
    refine (total_ite ..).2 ⟨fun _ => (total_pure ..).2 (.inl ?_), fun hgo => ?_⟩
    · change skip < _
      omega
    · simp only [Bool.not_eq_true', Bool.not_eq_false, Bool.and_eq_true, decide_eq_true_eq] at hgo
      omega
  | succ steps ih =>
    unfold readSkip
    refine (total_ite ..).2 ⟨fun hend => (total_pure ..).2 ?_, fun hgo => ?_⟩
    · simp only [Bool.not_eq_true', Bool.and_eq_false_iff, decide_eq_false_iff_not] at hend
      change skip < _ ∨ _ ≤ c
      omega
    · refine (total_bind ..).2 ((nextCluster_returns c s).mono fun c' s₁ _ => ih _ _ (by omega) s₁)

theorem fsRead_returns (g : 0 < m.bpb.sectorsPerCluster) (file : FsFile) (buffer : BufferArg)
    (count : Nat) : Returns (fsRead m file buffer count) := by
  cases buffer with
  | none => exact .pure _
  | some buffer =>
    refine .ite (fun _ => .pure _) fun _ => .ite (fun _ => .pure _) fun _ s => ?_
    refine (total_bind ..).2 ((readSkip_spec_any _ _ _ (Nat.le_refl _)
      (Nat.mul_pos g (by decide)) s).mono ?_)
    rintro ⟨c, skip⟩ s₁ hskip
    refine (total_bind ..).2 ((readClusters_returns g _ _ c skip 0 buffer (Nat.sub_le _ _) hskip
      s₁).mono ?_)
    rintro ⟨read, buffer'⟩ s₂ -
    cases read <;> exact (total_pure ..).2 trivial

/-! ## Walks of the root directory -/

/-- What `next_cluster` returns on the disk; the driver has no sector behind its last. -/
def nextOn (m : Mount) (d : Disk) (cluster : Nat) : Nat :=
  let lba := u32 (m.fatStartLba + u32 (cluster * 4) / sectorSize)
  if lba ≥ 0x10000000 then fat32Eoc
  else rd32 (d lba) (u32 (cluster * 4) % sectorSize) % 268435456

/-- What the slots of the cluster are for `look`, from sector `k` on, `n` left. -/
def scanOn (m : Mount) (d : Disk) (look : Dirent → Scan Unit) (cluster : Nat) :
    Nat → Nat → Scan (Nat × Nat)
  | 0, _ => .next
  | n + 1, k =>
    let lba := u32 (clusterToLba m cluster + k)
    if lba ≥ 0x10000000 then .stop
    else
      match scanSlots look (d lba) (List.range 16) with
      | .stop => .stop
      | .hit i => .hit (lba, i)
      | .next => scanOn m d look cluster n (k + 1)

/-- The walk from a cluster comes to an end, and finds a slot or not. -/
inductive ScansTo (m : Mount) (d : Disk) (look : Dirent → Scan Unit) :
    Nat → Option (Nat × Nat) → Prop
  | eoc {c : Nat} : fat32Eoc ≤ c → ScansTo m d look c none
  | stop {c : Nat} : c < fat32Eoc → scanOn m d look c m.bpb.sectorsPerCluster 0 = .stop →
      ScansTo m d look c none
  | hit {c : Nat} {p : Nat × Nat} : c < fat32Eoc →
      scanOn m d look c m.bpb.sectorsPerCluster 0 = .hit p → ScansTo m d look c (some p)
  | next {c : Nat} {r : Option (Nat × Nat)} : c < fat32Eoc →
      scanOn m d look c m.bpb.sectorsPerCluster 0 = .next → ScansTo m d look (nextOn m d c) r →
      ScansTo m d look c r

/-- The walk from the root cluster on comes to an end. -/
def DirEnds (m : Mount) (d : Disk) (look : Dirent → Scan Unit) : Prop :=
  ∃ r, ScansTo m d look m.bpb.rootCluster r

theorem ScansTo.det {r' : Option (Nat × Nat)} (h : ScansTo m d look c r)
    (h' : ScansTo m d look c r') : r = r' := by
  induction h with
  | eoc hc => cases h' with
    | eoc => rfl
    | stop hc' | hit hc' | next hc' => exact absurd hc (Nat.not_le.2 hc')
  | stop hc hs => cases h' with
    | eoc hc' => exact absurd hc' (Nat.not_le.2 hc)
    | stop => rfl
    | hit _ hs' | next _ hs' => exact absurd (hs.symm.trans hs') (by simp)
  | hit hc hs => cases h' with
    | eoc hc' => exact absurd hc' (Nat.not_le.2 hc)
    | hit _ hs' => rw [Scan.hit.inj (hs.symm.trans hs')]
    | stop _ hs' | next _ hs' => exact absurd (hs.symm.trans hs') (by simp)
  | next hc hs _ ih => cases h' with
    | eoc hc' => exact absurd hc' (Nat.not_le.2 hc)
    | next _ _ ht => exact ih ht
    | stop _ hs' | hit _ hs' => exact absurd (hs.symm.trans hs') (by simp)

/-- The clusters on the way, which are all different. -/
theorem ScansTo.walk (h : ScansTo m d look c r) : ∃ l, Walk (nextOn m d)
    (fun c => fat32Eoc ≤ c ∨ scanOn m d look c m.bpb.sectorsPerCluster 0 ≠ .next) c l := by
  induction h with
  | eoc hc => exact ⟨[], .nil (.inl hc)⟩
  | stop _ hs | hit _ hs => exact ⟨[], .nil (.inr (by rw [hs]; simp))⟩
  | @next c r hc hs _ ih =>
    obtain ⟨l, hl⟩ := ih
    refine ⟨c :: l, .cons ?_ hl⟩
    rintro (h | h)
    · exact absurd hc (Nat.not_lt.2 h)
    · exact h hs

/-- The driver's state has changed, but neither the disk nor that it is reliable. -/
structure Quiet (s s' : Fs) : Prop where
  disk : s'.disk = s.disk
  reliable : s'.faults = []

theorem ataReadSector_quiet (hrel : s.faults = []) (lba : Nat) :
    Total (ataReadSector lba) s fun ok s' => Quiet s s' ∧ ok = decide (lba < 0x10000000) ∧
      (ok = true → s'.sector = s.disk lba) := by
  refine (total_ite ..).2 ⟨fun hge => (total_pure ..).2 ⟨⟨rfl, hrel⟩, ?_, by simp⟩, fun hlt => ?_⟩
  · exact (decide_eq_false (Nat.not_lt.2 hge)).symm
  refine (total_bind ..).2 ((total_get ..).2 ?_)
  rw [hrel]
  refine (total_ite ..).2 ⟨fun h => absurd h (by decide), fun _ => ?_⟩
  refine (total_bind ..).2 ((total_set ..).2 ((total_pure ..).2 ⟨⟨rfl, rfl⟩, ?_, fun _ => rfl⟩))
  exact (decide_eq_true (Nat.not_le.1 hlt)).symm

theorem nextCluster_quiet (hrel : s.faults = []) (c : Nat) :
    Total (nextCluster m c) s fun r s' => Quiet s s' ∧ r = nextOn m s.disk c := by
  refine (total_bind ..).2 ((ataReadSector_quiet hrel _).mono fun ok s₁ ⟨hq, hok, hsec⟩ => ?_)
  refine (total_ite ..).2 ⟨fun hno => (total_pure ..).2 ⟨hq, ?_⟩, fun hyes => ?_⟩
  · rw [hok] at hno
    simp only [Bool.not_eq_true', decide_eq_false_iff_not, Nat.not_lt] at hno
    exact (if_pos hno).symm
  · simp only [Bool.not_eq_true', Bool.not_eq_false] at hyes
    refine (total_bind ..).2 ((total_get ..).2 ((total_pure ..).2 ⟨hq, ?_⟩))
    rw [hsec hyes, nextOn, if_neg (Nat.not_le.2 (of_decide_eq_true (hok.symm.trans hyes)))]

theorem scanSectors_quiet (look : Dirent → Scan Unit) (c : Nat) : ∀ (n k : Nat) (s : Fs),
    s.faults = [] → Total (scanSectors m look c n k) s fun r s' => Quiet s s' ∧
      r = scanOn m s.disk look c n k ∧ ∀ p, r = .hit p → s'.sector = s.disk p.1
  | 0, _, s, hrel => (total_pure ..).2 ⟨⟨rfl, hrel⟩, rfl, fun p h => by cases h⟩
  | n + 1, k, s, hrel => by
    refine (total_bind ..).2 ((ataReadSector_quiet hrel _).mono fun ok s₁ ⟨hq, hok, hsec⟩ => ?_)
    refine (total_ite ..).2 ⟨fun hno => (total_pure ..).2 ⟨hq, ?_, fun p h => by cases h⟩,
      fun hyes => ?_⟩
    · rw [hok] at hno
      simp only [Bool.not_eq_true', decide_eq_false_iff_not, Nat.not_lt] at hno
      exact (if_pos hno).symm
    simp only [Bool.not_eq_true', Bool.not_eq_false] at hyes
    have hlt := Nat.not_le.2 (of_decide_eq_true (hok.symm.trans hyes))
    refine (total_bind ..).2 ((total_get ..).2 ?_)
    rw [hsec hyes, scanOn, if_neg hlt]
    generalize scanSlots look (s.disk (u32 (clusterToLba m c + k))) (List.range 16) = x
    cases x with
    | stop => exact (total_pure ..).2 ⟨hq, rfl, fun p h => by cases h⟩
    | hit i =>
      refine (total_pure ..).2 ⟨hq, rfl, fun p h => ?_⟩
      rw [← Scan.hit.inj h, hsec hyes]
    | next =>
      refine (scanSectors_quiet look c n (k + 1) s₁ hq.reliable).mono fun r s₂ ⟨hq₂, hr, hp⟩ => ?_
      rw [hq.disk] at hr hp
      exact ⟨⟨hq₂.disk.trans hq.disk, hq₂.reliable⟩, hr, hp⟩

/-- The loop does what the walk does: if it returns, the walk ends in what it returns. -/
theorem scansTo_of_scanRoot (look : Dirent → Scan Unit) : ∀ (steps c : Nat) (s : Fs),
    s.faults = [] → Total (scanRoot m look steps c) s (fun r' _ => r' = r) →
      ScansTo m s.disk look c r
  | 0, _, _, _, h => by
    obtain ⟨_, _, h, -⟩ := h
    cases h
  | steps + 1, c, s, hrel, h => by
    obtain ⟨heoc, hgo⟩ := (total_ite ..).1 h
    by_cases hc : c ≥ fat32Eoc
    · obtain rfl := (total_pure ..).1 (heoc hc)
      exact .eoc hc
    have hlt := Nat.not_le.1 hc
    obtain ⟨x, s₁, -, ⟨hq, hx, -⟩, h₁⟩ := (scanSectors_quiet (m := m) look c
      m.bpb.sectorsPerCluster 0 s hrel).and ((total_bind ..).1 (hgo hc))
    cases x with
    | stop =>
      obtain rfl := (total_pure ..).1 h₁
      exact .stop hlt hx.symm
    | hit p =>
      obtain rfl := (total_pure ..).1 h₁
      exact .hit hlt hx.symm
    | next =>
      obtain ⟨c', s₂, -, ⟨hq₂, rfl⟩, h₂⟩ := (nextCluster_quiet (m := m) hq.reliable c).and
        ((total_bind ..).1 h₁)
      have hrest := scansTo_of_scanRoot look steps _ s₂ hq₂.reliable h₂
      rw [hq₂.disk, hq.disk] at hrest
      exact .next hlt hx.symm hrest

/-- The loop returns if the walk ends within its steps. -/
theorem scanRoot_of_scansTo (h : ScansTo m d look c r) : ∀ (steps : Nat) (s : Fs), s.disk = d →
    s.faults = [] → (∀ l, Walk (nextOn m d)
      (fun c => fat32Eoc ≤ c ∨ scanOn m d look c m.bpb.sectorsPerCluster 0 ≠ .next) c l →
      l.length < steps) →
    Total (scanRoot m look steps c) s fun r' s' => Quiet s s' ∧ r' = r ∧
      ∀ p, r' = some p → s'.sector = s.disk p.1 := by
  induction h with
  | eoc hc =>
    intro steps s hd hrel hsteps
    have := hsteps [] (.nil (.inl hc))
    obtain ⟨steps, rfl⟩ : ∃ k, steps = k + 1 := ⟨steps - 1, by simp at this; omega⟩
    exact (total_ite ..).2 ⟨fun _ => (total_pure ..).2 ⟨⟨rfl, hrel⟩, rfl, fun p h => by cases h⟩,
      fun h => absurd hc h⟩
  | @stop c hc hs =>
    intro steps s hd hrel hsteps
    have := hsteps [] (.nil (.inr (by rw [hs]; simp)))
    obtain ⟨steps, rfl⟩ : ∃ k, steps = k + 1 := ⟨steps - 1, by simp at this; omega⟩
    refine (total_ite ..).2 ⟨fun h => absurd hc (Nat.not_lt.2 h), fun _ => (total_bind ..).2 ?_⟩
    refine (scanSectors_quiet look c _ 0 s hrel).mono fun x s₁ ⟨hq, hx, hp⟩ => ?_
    rw [hd, hs] at hx
    rw [hx]
    exact (total_pure ..).2 ⟨hq, rfl, fun p h => by cases h⟩
  | @hit c p hc hs =>
    intro steps s hd hrel hsteps
    have := hsteps [] (.nil (.inr (by rw [hs]; simp)))
    obtain ⟨steps, rfl⟩ : ∃ k, steps = k + 1 := ⟨steps - 1, by simp at this; omega⟩
    refine (total_ite ..).2 ⟨fun h => absurd hc (Nat.not_lt.2 h), fun _ => (total_bind ..).2 ?_⟩
    refine (scanSectors_quiet look c _ 0 s hrel).mono fun x s₁ ⟨hq, hx, hp⟩ => ?_
    rw [hd, hs] at hx
    rw [hx]
    refine (total_pure ..).2 ⟨hq, rfl, fun p' h => ?_⟩
    obtain rfl := Option.some.inj h
    exact hp p hx
  | @next c r hc hs ht ih =>
    intro steps s hd hrel hsteps
    have hgo : ¬(fat32Eoc ≤ c ∨ scanOn m d look c m.bpb.sectorsPerCluster 0 ≠ .next) := by
      rintro (h | h)
      · exact absurd hc (Nat.not_lt.2 h)
      · exact h hs
    obtain ⟨l, hl⟩ := ht.walk
    have := hsteps (c :: l) (.cons hgo hl)
    obtain ⟨steps, rfl⟩ : ∃ k, steps = k + 1 := ⟨steps - 1, by simp at this; omega⟩
    refine (total_ite ..).2 ⟨fun h => absurd hc (Nat.not_lt.2 h), fun _ => (total_bind ..).2 ?_⟩
    refine (scanSectors_quiet look c _ 0 s hrel).mono fun x s₁ ⟨hq, hx, hp⟩ => ?_
    rw [hd, hs] at hx
    rw [hx]
    refine (total_bind ..).2 ((nextCluster_quiet hq.reliable c).mono fun c' s₂ ⟨hq₂, hc'⟩ => ?_)
    rw [hq.disk, hd] at hc'
    rw [hc']
    refine (ih steps s₂ (hq₂.disk.trans (hq.disk.trans hd)) hq₂.reliable fun l hl => ?_).mono ?_
    · have := hsteps (c :: l) (.cons hgo hl)
      rw [List.length_cons] at this
      omega
    · rintro r' s₃ ⟨hq₃, hr, hp⟩
      rw [hq₂.disk, hq.disk] at hp
      exact ⟨⟨hq₃.disk.trans (hq₂.disk.trans hq.disk), hq₃.reliable⟩, hr, hp⟩

/-- The step allowance is enough for every walk that ends. -/
theorem scanRoot_spec_any (h : ScansTo m s.disk look m.bpb.rootCluster r) (hrel : s.faults = []) :
    Total (scanRoot m look rootSteps m.bpb.rootCluster) s fun r' s' => Quiet s s' ∧ r' = r ∧
      ∀ p, r' = some p → s'.sector = s.disk p.1 := by
  refine scanRoot_of_scansTo h _ s rfl hrel fun l hl => ?_
  have hsub : l ⊆ List.range fat32Eoc := fun c hc => by
    have := hl.not_stop hc
    rw [not_or, Nat.not_le] at this
    exact List.mem_range.2 this.1
  have hle := (List.subperm_of_subset hl.nodup hsub).length_le
  rw [List.length_range] at hle
  exact Nat.lt_of_le_of_lt hle (by decide)

theorem scanRoot_returns_iff (hrel : s.faults = []) :
    Total (scanRoot m look rootSteps m.bpb.rootCluster) s (fun _ _ => True) ↔
      DirEnds m s.disk look :=
  ⟨fun ⟨r, s', hrun, _⟩ => ⟨r, scansTo_of_scanRoot look _ _ s hrel ⟨r, s', hrun, rfl⟩⟩,
    fun ⟨_, hr⟩ => (scanRoot_spec_any hr hrel).mono fun _ _ _ => trivial⟩

/-! ## Lookups -/

/-- The walk that looks for a name comes to an end. -/
def NameEnds (m : Mount) (d : Disk) (nm : List UInt8) : Prop :=
  DirEnds m d (lookFor (makeShortName nm))

theorem findRootEntryAt_quiet (hrel : s.faults = []) {nm : List UInt8} (h : NameEnds m s.disk nm) :
    Total (findRootEntryAt m nm) s fun f s' => Quiet s s' ∧
      ∃ r, ScansTo m s.disk (lookFor (makeShortName nm)) m.bpb.rootCluster r ∧
        f = r.map fun p => ⟨slotEntry s.disk p, p.1, p.2⟩ := by
  obtain ⟨r, hr⟩ := h
  refine (total_bind ..).2 ((scanRoot_spec_any hr hrel).mono fun r' s₁ ⟨hq, hr', hsec⟩ => ?_)
  subst hr'
  cases r' with
  | none => exact (total_pure ..).2 ⟨hq, none, hr, rfl⟩
  | some p =>
    refine (total_bind ..).2 ((total_get ..).2 ((total_pure ..).2 ⟨hq, some p, hr, ?_⟩))
    rw [hsec p rfl]
    rfl

theorem findRootEntryAt_returns_iff (hrel : s.faults = []) (nm : List UInt8) :
    Total (findRootEntryAt m nm) s (fun _ _ => True) ↔ NameEnds m s.disk nm := by
  constructor
  · intro h
    obtain ⟨r, s₁, hrun, -⟩ := (total_bind ..).1 h
    exact (scanRoot_returns_iff hrel).1 ⟨r, s₁, hrun, trivial⟩
  · intro h
    exact (findRootEntryAt_quiet hrel h).mono fun _ _ _ => trivial

/-- A call that looks for a name and has no other walk to make. -/
theorem lookup_returns_iff {α : Type} (hrel : s.faults = []) (nm : List UInt8)
    {k : Option Found → Prog Fs α} (hk : ∀ f, Returns (k f)) :
    Total (findRootEntryAt m nm >>= k) s (fun _ _ => True) ↔ NameEnds m s.disk nm := by
  rw [total_bind, ← findRootEntryAt_returns_iff hrel nm]
  constructor
  · intro h
    exact h.mono fun _ _ _ => trivial
  · intro h
    exact h.mono fun f s₁ _ => hk f s₁

theorem total_findRootEntry (nm : List UInt8) (Q : Option Dirent → Fs → Prop) :
    Total (findRootEntry m nm) s Q ↔
      Total (findRootEntryAt m nm) s fun f s' => Q (f.map Found.entry) s' := by
  unfold findRootEntry
  rw [total_bind]
  constructor
  · intro h
    refine h.mono fun f s₁ h₁ => ?_
    cases f <;> exact (total_pure ..).1 h₁
  · intro h
    refine h.mono fun f s₁ h₁ => ?_
    cases f <;> exact (total_pure ..).2 h₁

/-- A check that ends the call. -/
theorem total_guard {α : Type} {c : Prop} [Decidable c] (a : α) (p : Prog Fs α) :
    Total (if c then pure a else p) s (fun _ _ => True) ↔
      (¬c → Total p s fun _ _ => True) := by
  rw [total_ite]
  exact and_iff_right fun _ => (total_pure ..).2 trivial

section Free

variable (target : List UInt8)

theorem scanSlots_free_ne_stop (sec : Sector) : ∀ l : List Nat, scanSlots lookForFree sec l ≠ .stop
  | [] => by simp [scanSlots]
  | i :: l => by
    unfold scanSlots lookForFree
    split
    · rename_i h
      split at h <;> cases h
    · simp
    · exact scanSlots_free_ne_stop sec l

/-- The end of the directory is a free slot. -/
theorem scanSlots_ne_stop (sec : Sector) : ∀ l : List Nat, scanSlots lookForFree sec l = .next →
    scanSlots (lookFor target) sec l ≠ .stop
  | [], _ => by simp [scanSlots]
  | i :: l, h => by
    unfold scanSlots at h ⊢
    have hfree : ¬(dirent sec i 0 == 0x00 || dirent sec i 0 == 0xE5) = true := by
      intro hf
      rw [lookForFree, if_pos hf] at h
      cases h
    have h0 : ¬(dirent sec i 0 == 0x00) = true := fun h0 => hfree (by rw [h0, Bool.true_or])
    rw [lookForFree, if_neg hfree] at h
    have ih := scanSlots_ne_stop sec l h
    rw [lookFor, if_neg h0]
    split_ifs <;> first | exact ih | simp

theorem scanOn_ne_stop (c : Nat) : ∀ n k : Nat, scanOn m d lookForFree c n k = .next →
    scanOn m d (lookFor target) c n k ≠ .stop
  | 0, _, _ => by simp [scanOn]
  | n + 1, k, h => by
    unfold scanOn at h ⊢
    by_cases hlba : u32 (clusterToLba m c + k) ≥ 0x10000000
    · rw [if_pos hlba] at h
      cases h
    rw [if_neg hlba] at h ⊢
    cases hs : scanSlots lookForFree (d (u32 (clusterToLba m c + k))) (List.range 16) with
    | stop => exact absurd hs (scanSlots_free_ne_stop _ _)
    | hit i => simp [hs] at h
    | next =>
      have hne := scanSlots_ne_stop target _ _ hs
      rw [hs] at h
      split
      · rename_i h'
        exact absurd h' hne
      · simp
      · exact scanOn_ne_stop c n (k + 1) h

theorem scanOn_ne_next (c : Nat) : ∀ n k : Nat, scanOn m d lookForFree c n k = .stop →
    scanOn m d (lookFor target) c n k ≠ .next
  | 0, _, h => by cases h
  | n + 1, k, h => by
    unfold scanOn at h ⊢
    by_cases hlba : u32 (clusterToLba m c + k) ≥ 0x10000000
    · rw [if_pos hlba]
      simp
    rw [if_neg hlba] at h ⊢
    cases hs : scanSlots lookForFree (d (u32 (clusterToLba m c + k))) (List.range 16) with
    | stop => exact absurd hs (scanSlots_free_ne_stop _ _)
    | hit i => simp [hs] at h
    | next =>
      rw [hs] at h
      split
      · simp
      · simp
      · exact scanOn_ne_next c n (k + 1) h

/-- Where a lookup ends without a hit, the search for a free slot ends as well. -/
theorem ScansTo.free (h : ScansTo m d (lookFor target) c r) (hr : r = none) :
    ∃ r', ScansTo m d lookForFree c r' := by
  induction h with
  | eoc hc => exact ⟨none, .eoc hc⟩
  | hit => cases hr
  | @stop c hc hs =>
    cases hf : scanOn m d lookForFree c m.bpb.sectorsPerCluster 0 with
    | stop => exact ⟨none, .stop hc hf⟩
    | hit p => exact ⟨some p, .hit hc hf⟩
    | next => exact absurd hs (scanOn_ne_stop target c _ 0 hf)
  | @next c r hc hs _ ih =>
    obtain ⟨r', ht⟩ := ih hr
    cases hf : scanOn m d lookForFree c m.bpb.sectorsPerCluster 0 with
    | stop => exact absurd hs (scanOn_ne_next target c _ 0 hf)
    | hit p => exact ⟨some p, .hit hc hf⟩
    | next => exact ⟨r', .next hc hf ht⟩

end Free

/-! ## The listing -/

/-- What ends the walk of `fs_list_root`. -/
def lookEnd (e : Dirent) : Scan Unit := if e 0 == 0x00 then .stop else .next

theorem scanSlots_lookEnd (sec : Sector) : ∀ l : List Nat,
    scanSlots lookEnd sec l = if (listSlots sec l).2 then .stop else .next
  | [] => rfl
  | i :: l => by
    unfold scanSlots listSlots lookEnd
    by_cases h0 : (dirent sec i 0 == 0x00) = true
    · rw [if_pos h0, if_pos h0]
      rfl
    · have ih := scanSlots_lookEnd sec l
      rw [if_neg h0, if_neg h0]
      split_ifs with hv hend hend
      · exact ih.trans (if_pos hend)
      · exact ih.trans (if_neg hend)
      · exact ih.trans (if_pos hend)
      · exact ih.trans (if_neg hend)

/-- Whether the listing of a cluster goes on to the next. -/
def listOutcome (r : Option (List (List UInt8 × Nat) × Bool)) : Scan (Nat × Nat) :=
  match r with
  | some (_, false) => .next
  | _ => .stop

/-- Both walks make the same accesses. -/
theorem listSectors_scan (c : Nat) : ∀ (n k : Nat) (s : Fs),
    Total (listSectors m c n k) s fun r s' =>
      Total (scanSectors m lookEnd c n k) s fun x s'' => x = listOutcome r ∧ s'' = s'
  | 0, _, s => (total_pure ..).2 ((total_pure ..).2 ⟨rfl, rfl⟩)
  | n + 1, k, s => by
    obtain ⟨ok, s₁, hrun, -⟩ := ataReadSector_returns (u32 (clusterToLba m c + k)) s
    have hscan : ∀ {Q : Scan (Nat × Nat) → Fs → Prop}, (ok = false → Q .stop s₁) →
        (ok = true → (listSlots s₁.sector (List.range 16)).2 = true → Q .stop s₁) →
        (ok = true → (listSlots s₁.sector (List.range 16)).2 = false →
          Total (scanSectors m lookEnd c n (k + 1)) s₁ Q) →
        Total (scanSectors m lookEnd c (n + 1) k) s Q := by
      intro Q hno hend hnext
      refine (total_bind_of_eq hrun).2 ((total_ite ..).2 ⟨fun h => ?_, fun h => ?_⟩)
      · exact (total_pure ..).2 (hno (by simpa using h))
      refine (total_bind ..).2 ((total_get ..).2 ?_)
      have hok : ok = true := by simpa using h
      rw [scanSlots_lookEnd]
      cases hx : (listSlots s₁.sector (List.range 16)).2 with
      | true => exact (total_pure ..).2 (hend hok hx)
      | false => exact hnext hok hx
    refine (total_bind_of_eq hrun).2 ((total_ite ..).2 ⟨fun h => ?_, fun h => ?_⟩)
    · exact (total_pure ..).2 (hscan (fun _ => ⟨rfl, rfl⟩) (fun hok _ => by simp [hok] at h)
        fun hok _ => by simp [hok] at h)
    have hok : ok = true := by simpa using h
    refine (total_bind ..).2 ((total_get ..).2 ?_)
    cases hx : listSlots s₁.sector (List.range 16) with
    | mk calls ended =>
    rw [hx] at hscan
    cases ended with
    | true =>
      exact (total_pure ..).2 (hscan (fun _ => ⟨rfl, rfl⟩) (fun _ _ => ⟨rfl, rfl⟩)
        fun _ hx => by cases hx)
    | false =>
      refine (total_bind ..).2 ((listSectors_scan c n (k + 1) s₁).mono fun r s₂ hr => ?_)
      cases r with
      | none =>
        exact (total_pure ..).2 (hscan (fun h => by simp [hok] at h) (fun _ hx => by cases hx)
          fun _ _ => hr)
      | some r =>
        refine (total_pure ..).2 (hscan (fun h => by simp [hok] at h) (fun _ hx => by cases hx)
          fun _ _ => hr.mono ?_)
        obtain ⟨calls', ended⟩ := r
        cases ended <;> exact fun _ _ h => h

theorem listRoot_returns_iff (steps c : Nat) (s : Fs) :
    Total (listRoot m steps c) s (fun _ _ => True) ↔
      Total (scanRoot m lookEnd steps c) s fun _ _ => True := by
  induction steps generalizing c s with
  | zero =>
    constructor
    · rintro ⟨_, _, h, _⟩
      cases h
    · rintro ⟨_, _, h, _⟩
      cases h
  | succ steps ih =>
    unfold listRoot scanRoot
    rw [total_guard, total_guard]
    refine imp_congr_right fun _ => ?_
    obtain ⟨r, s₁, hrun, x, s₂, hrun', rfl, rfl⟩ :=
      listSectors_scan (m := m) c m.bpb.sectorsPerCluster 0 s
    rw [total_bind_of_eq hrun, total_bind_of_eq hrun']
    rcases r with _ | ⟨calls, _ | _⟩
    · exact iff_of_true ((total_pure ..).2 trivial) ((total_pure ..).2 trivial)
    · obtain ⟨c', s₃, hnext, -⟩ := nextCluster_returns (m := m) c s₂
      refine (total_bind_of_eq hnext).trans (Iff.trans ?_ (total_bind_of_eq hnext).symm)
      refine Iff.trans ?_ (ih c' s₃)
      rw [total_bind]
      constructor
      · intro h
        exact h.mono fun _ _ _ => trivial
      · intro h
        refine h.mono fun r s₄ _ => ?_
        cases r <;> exact (total_pure ..).2 trivial
    · exact iff_of_true ((total_pure ..).2 trivial) ((total_pure ..).2 trivial)

theorem fsListRoot_returns_iff (hm : m.mounted = true) (hrel : s.faults = []) :
    Total (fsListRoot m) s (fun _ _ => True) ↔ DirEnds m s.disk lookEnd := by
  unfold fsListRoot
  rw [hm, total_guard, listRoot_returns_iff, scanRoot_returns_iff hrel]
  simp

end MinervaOS.Fat32
