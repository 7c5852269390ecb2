import MinervaOS.Fat32.Append

/-!
# Reading a file

`fs_read` skips whole clusters, then copies sector by sector along the chain. On a chain that covers
the file it returns the bytes the listing shows, from the position on and as many as asked for, and
`fs_read_file` returns all of them when the buffer has room.
-/

namespace MinervaOS.Fat32

open Prog

/-- `fs_file_t`. -/
structure FsFile where
  firstCluster : Nat
  size : Nat
  position : Nat
  isOpen : Bool
  deriving DecidableEq

variable (m : Mount)

def fsOpen (name : NameArg) : Prog Fs (Option FsFile) := do
  let some name := name | return none
  if !m.mounted then return none
  let some entry ← findRootEntry m name | return none
  if entry.attr &&& 0x10 != 0 then return none
  return some ⟨firstCluster entry, entry.size, 0, true⟩

def fsFileSize (file : FsFile) : Nat := if file.isOpen then file.size else 0

def fsClose (file : FsFile) : Bool × FsFile :=
  if file.isOpen then (true, ⟨0, 0, 0, false⟩) else (false, file)

/-- `while (skip >= bytes_per_cluster && cluster < FAT32_EOC)`. -/
def readSkip : Nat → Nat → Nat → Prog Fs (Nat × Nat)
  | steps, cluster, skip => do
    if !(skip ≥ bytesPerCluster m && cluster < fat32Eoc) then return (cluster, skip)
    match steps with
    | 0 => failure
    | steps + 1 => readSkip steps (← nextCluster m cluster) (skip - bytesPerCluster m)

/-- The sectors of one cluster from `s` on, `n` left: how far the copy is (`none` for a refused
read), and the caller's buffer. -/
def readSectors (cluster count : Nat) :
    Nat → Nat → Nat → Nat → (Nat → UInt8) → Prog Fs (Option Nat × (Nat → UInt8))
  | 0, _, _, read, buffer => return (some read, buffer)
  | n + 1, s, byteOffset, read, buffer => do
    if !(read < count) then return (some read, buffer)
    if !(← ataReadSector (u32 (clusterToLba m cluster + s))) then return (none, buffer)
    let toCopy := min (sectorSize - byteOffset) (count - read)
    let sector := (← get).sector
    readSectors cluster count n (s + 1) 0 (read + toCopy)
      (copyAt buffer read toCopy fun i => sector (byteOffset + i))

/-- `while (read < count && cluster < FAT32_EOC)`. -/
def readClusters (count : Nat) :
    Nat → Nat → Nat → Nat → (Nat → UInt8) → Prog Fs (Option Nat × (Nat → UInt8))
  | steps, cluster, skip, read, buffer => do
    if !(read < count && cluster < fat32Eoc) then return (some read, buffer)
    match steps with
    | 0 => failure
    | steps + 1 =>
      let sectorIndex := skip / sectorSize % 256
      match ← readSectors m cluster count (m.bpb.sectorsPerCluster - sectorIndex) sectorIndex
          (skip % sectorSize) read buffer with
      | (none, buffer) => return (none, buffer)
      | (some read, buffer) =>
        readClusters count steps (← nextCluster m cluster) 0 read buffer

/-- `fs_read`: what it returns, the handle and the buffer. -/
def fsRead (file : FsFile) (buffer : BufferArg) (count : Nat) :
    Prog Fs (Nat × FsFile × BufferArg) := do
  let some bytes := buffer | return (0, file, buffer)
  if !m.mounted || !file.isOpen || count == 0 then return (0, file, buffer)
  if file.position ≥ file.size then return (0, file, buffer)
  let count := min count (file.size - file.position)
  let (cluster, skip) ← readSkip m file.position file.firstCluster file.position
  match ← readClusters m count count cluster skip 0 bytes with
  | (none, bytes) => return (0, file, some bytes)
  | (some read, bytes) =>
    return (read, { file with position := u32 (file.position + read) }, some bytes)

/-- `fs_read_file`: what it returns, `*out_size` and the buffer. -/
def fsReadFile (name : NameArg) (buffer : BufferArg) (bufferSize : UInt32) :
    Prog Fs (Bool × Nat × BufferArg) := do
  if buffer.isNone && bufferSize > 0 then return (false, 0, buffer)
  let some file ← fsOpen m name | return (false, 0, buffer)
  let size := fsFileSize file
  let (read, file, buffer) ← fsRead m file buffer bufferSize.toNat
  let _ := fsClose file
  return (read == size, read, buffer)

variable {m} {R : List Nat} {s s' : Fs} {d : Disk}

/-! ## The loops -/

theorem copyAt_zero (p : Sector) (o : Nat) (f : Nat → UInt8) : copyAt p o 0 f = p := by
  funext i
  simp only [copyAt]
  rw [if_neg (by omega)]

/-- Two copies, the second behind the first, are one. -/
theorem copyAt_copyAt (p : Sector) (o : Nat) {n k : Nat} {f f' h : Nat → UInt8}
    (hf : ∀ i < n, f i = h i) (hf' : ∀ i < k, f' i = h (n + i)) :
    copyAt (copyAt p o n f) (o + n) k f' = copyAt p o (n + k) h := by
  funext i
  simp only [copyAt]
  by_cases h1 : o + n ≤ i ∧ i < o + n + k
  · rw [if_pos h1, if_pos (by omega), hf' _ (by omega)]
    congr 1
    omega
  · rw [if_neg h1]
    by_cases h2 : o ≤ i ∧ i < o + n
    · rw [if_pos h2, if_pos (by omega), hf _ (by omega)]
    · rw [if_neg h2, if_neg (by omega)]

section Loops

variable (g : Geometry m)

include g

theorem readSectors_spec {c : Nat} (h2 : 2 ≤ c) (hc : c < maxCluster m) (count : Nat) :
    ∀ (n k off read : Nat) (buffer : Nat → UInt8) (s : Fs), k + n = m.bpb.sectorsPerCluster →
      off < 512 → Total (readSectors m c count n k off read buffer) s fun r s' => Reads s s' ∧
        (r = (some (read + min (count - read) (512 * n - off)),
            copyAt buffer read (min (count - read) (512 * n - off))
              fun i => clusterByte m s.disk c (512 * k + off + i)) ∨
          (r.1 = none ∧ Refused s s'))
  | 0, k, off, read, buffer, s, _, _ => by
    refine (total_pure ..).2 ⟨.refl s, .inl ?_⟩
    rw [Nat.mul_zero, Nat.zero_sub, Nat.min_zero, copyAt_zero, Nat.add_zero]
  | n + 1, k, off, read, buffer, s, hn, hoff => by
    have hk : k < m.bpb.sectorsPerCluster := by omega
    have hl := g.clusterSector_lt h2 hc hk
    unfold readSectors
    refine (total_ite ..).2 ⟨fun hend => (total_pure ..).2 ⟨.refl s, .inl ?_⟩, fun hgo => ?_⟩
    · have h0 : count - read = 0 := by simpa [Nat.sub_eq_zero_iff_le] using hend
      rw [h0, Nat.zero_min, copyAt_zero, Nat.add_zero]
    simp only [g.clusterToLba_add h2 hc hk]
    refine (total_bind ..).2 ((ataReadSector_spec hl s).mono fun ok s₁ ⟨hr, hsec, hno⟩ => ?_)
    cases ok with
    | false => exact (total_pure ..).2 ⟨hr, .inr ⟨rfl, hno rfl⟩⟩
    | true =>
    refine (total_bind ..).2 ((total_get ..).2 ?_)
    obtain ⟨j, hj⟩ : ∃ j, min (sectorSize - off) (count - read) = j := ⟨_, rfl⟩
    simp only [hj]
    replace hj : min (512 - off) (count - read) = j := hj
    refine (readSectors_spec h2 hc count n (k + 1) 0 (read + j) _ s₁ (by omega) (by omega)).mono ?_
    rintro r s₂ ⟨hr₂, rfl | ⟨hnone, hno₂⟩⟩
    swap
    · exact ⟨hr.reads hr₂, .inr ⟨hnone, hno₂.of_extends hr.ext⟩⟩
    have hsum : j + min (count - (read + j)) (512 * n - 0) =
        min (count - read) (512 * (n + 1) - off) := by omega
    refine ⟨hr.reads hr₂, .inl ?_⟩
    rw [← hsum, Nat.add_assoc, hsec rfl, hr.disk]
    congr 1
    refine copyAt_copyAt buffer read (fun i hi => ?_) fun i hi => ?_
    · have hdiv : (512 * k + off + i) / 512 = k := by omega
      have hmod : (512 * k + off + i) % 512 = off + i := by omega
      simp only [clusterByte, hdiv, hmod]
    · -- a second sector is looked at only when the first is used up
      have heq : 512 * (k + 1) + 0 + i = 512 * k + off + (j + i) := by omega
      rw [heq]

theorem readClusters_spec (count : Nat) : ∀ (l : List Nat) (steps c skip read : Nat)
    (buffer : Nat → UInt8) (s : Fs), count - read ≤ steps →
    Walk (fatValue m s.disk) ChainEnd c l → 2 ≤ c → (∀ x ∈ l, x < maxCluster m) →
    (∀ x ∈ l, 2 ≤ fatValue m s.disk x) → skip < bytesPerCluster m →
    Total (readClusters m count steps c skip read buffer) s fun r s' => Reads s s' ∧
      (r = (some (read + min (count - read) (l.length * bytesPerCluster m - skip)),
          copyAt buffer read (min (count - read) (l.length * bytesPerCluster m - skip))
            fun i => chainByte m s.disk l (skip + i)) ∨ Refused s s')
  | [], steps, c, skip, read, buffer, s, _, hw, h2, _, _, _ => by
    have hstop : ¬c < fat32Eoc := by
      cases hw with | nil h => unfold ChainEnd at h; omega
    unfold readClusters
    rw [if_pos (by simp [hstop])]
    refine (total_pure ..).2 ⟨.refl s, .inl ?_⟩
    rw [List.length_nil, Nat.zero_mul, Nat.zero_sub, Nat.min_zero, copyAt_zero, Nat.add_zero]
  | x :: l, steps, c, skip, read, buffer, s, hsteps, hw, h2, hlt, hlink, hskip => by
    obtain ⟨rfl, ht⟩ : c = x ∧ Walk (fatValue m s.disk) ChainEnd (fatValue m s.disk c) l := by
      cases hw with | cons _ ht => exact ⟨rfl, ht⟩
    have hc : c < maxCluster m := hlt c List.mem_cons_self
    have hpos := bytesPerCluster_pos g
    have hbpc : bytesPerCluster m = m.bpb.sectorsPerCluster * 512 := rfl
    unfold readClusters
    refine (total_ite ..).2 ⟨fun hend => (total_pure ..).2 ⟨.refl s, .inl ?_⟩, fun hgo => ?_⟩
    · have hmax := g.maxCluster_lt
      simp only [Bool.not_eq_true', Bool.and_eq_false_iff, decide_eq_false_iff_not] at hend
      have h0 : count - read = 0 := by omega
      rw [h0, Nat.zero_min, copyAt_zero, Nat.add_zero]
    simp only [Bool.not_eq_true', Bool.not_eq_false, Bool.and_eq_true, decide_eq_true_eq] at hgo
    obtain ⟨steps, rfl⟩ : ∃ k, steps = k + 1 := ⟨steps - 1, by omega⟩
    have hq : skip / 512 < m.bpb.sectorsPerCluster := by omega
    have hq' : skip / sectorSize % 256 = skip / 512 :=
      Nat.mod_eq_of_lt (Nat.lt_trans hq m.bpb.sectorsPerCluster_lt)
    simp only [hq']
    refine (total_bind ..).2 ((readSectors_spec g h2 hc count _ _ (skip % 512) read buffer s
      (by omega) (Nat.mod_lt _ (by decide))).mono ?_)
    rintro ⟨r, buffer'⟩ s₁ ⟨hr, heq | ⟨rfl, hno⟩⟩
    swap
    · exact (total_pure ..).2 ⟨hr, .inr hno⟩
    obtain ⟨rfl, rfl⟩ := Prod.mk.inj heq
    have hleft : 512 * (m.bpb.sectorsPerCluster - skip / 512) - skip % 512 =
        bytesPerCluster m - skip := by omega
    have hstart : 512 * (skip / 512) + skip % 512 = skip := by omega
    rw [hleft, hstart]
    obtain ⟨j, hj⟩ : ∃ j, min (count - read) (bytesPerCluster m - skip) = j := ⟨_, rfl⟩
    simp only [hj]
    refine (total_bind ..).2 ((nextCluster_spec g hc s₁).mono ?_)
    rintro next s₂ ⟨hr₂, rfl | ⟨rfl, hno⟩⟩
    swap
    · -- a refused look at the FAT reads as the end of the file
      unfold readClusters
      rw [if_pos (by simp)]
      exact (total_pure ..).2 ⟨hr.reads hr₂, .inr (hno.of_extends hr.ext)⟩
    have h₂ : Reads s s₂ := hr.reads hr₂
    have hd : fatValue m s₂.disk = fatValue m s.disk := by rw [h₂.disk]
    rw [hr.disk]
    refine (readClusters_spec count l steps _ 0 (read + j) _ s₂ (by omega) (hd ▸ ht)
      (hlink c List.mem_cons_self) (fun y hy => hlt y (List.mem_cons_of_mem _ hy))
      (fun y hy => hd ▸ hlink y (List.mem_cons_of_mem _ hy)) hpos).mono ?_
    rintro r s₃ ⟨hr₃, rfl | hno⟩
    swap
    · exact ⟨h₂.reads hr₃, .inr (hno.of_extends h₂.ext)⟩
    have hsum : j + min (count - (read + j)) (l.length * bytesPerCluster m - 0) =
        min (count - read) ((c :: l).length * bytesPerCluster m - skip) := by
      rw [List.length_cons, Nat.succ_mul]
      omega
    refine ⟨h₂.reads hr₃, .inl ?_⟩
    rw [← hsum, Nat.add_assoc, h₂.disk]
    congr 1
    refine copyAt_copyAt buffer read (fun i hi => ?_) fun i hi => ?_
    · unfold chainByte
      rw [Nat.div_eq_of_lt (by omega), Nat.mod_eq_of_lt (by omega)]
      rfl
    · have heq : skip + (j + i) = i + bytesPerCluster m := by omega
      unfold chainByte
      rw [heq, Nat.zero_add, Nat.add_div_right _ hpos, Nat.add_mod_right]
      rfl

theorem readSkip_spec : ∀ (l : List Nat) (steps c skip : Nat) (s : Fs), skip ≤ steps →
    Walk (fatValue m s.disk) ChainEnd c l → 2 ≤ c → (∀ x ∈ l, x < maxCluster m) →
    (∀ x ∈ l, 2 ≤ fatValue m s.disk x) → skip < l.length * bytesPerCluster m →
    Total (readSkip m steps c skip) s fun r s' => Reads s s' ∧
      ((∃ pre post, l = pre ++ post ∧ Walk (fatValue m s.disk) ChainEnd r.1 post ∧ 2 ≤ r.1 ∧
          r.2 < bytesPerCluster m ∧ skip = pre.length * bytesPerCluster m + r.2) ∨ Refused s s')
  | [], _, _, _, _, _, _, _, _, _, hlt => by simp at hlt
  | x :: l, steps, c, skip, s, hsteps, hw, h2, hmax, hlink, hlt => by
    obtain ⟨rfl, ht⟩ : c = x ∧ Walk (fatValue m s.disk) ChainEnd (fatValue m s.disk c) l := by
      cases hw with | cons _ ht => exact ⟨rfl, ht⟩
    have hc : c < maxCluster m := hmax c List.mem_cons_self
    have heoc := g.maxCluster_lt
    have hpos := bytesPerCluster_pos g
    unfold readSkip
    refine (total_ite ..).2 ⟨fun hend => (total_pure ..).2 ⟨.refl s, .inl ?_⟩, fun hgo => ?_⟩
    · simp only [Bool.not_eq_true', Bool.and_eq_false_iff, decide_eq_false_iff_not] at hend
      exact ⟨[], c :: l, rfl, hw, h2, by simp only; omega, by simp⟩
    simp only [Bool.not_eq_true', Bool.not_eq_false, Bool.and_eq_true, decide_eq_true_eq] at hgo
    obtain ⟨steps, rfl⟩ : ∃ k, steps = k + 1 := ⟨steps - 1, by omega⟩
    refine (total_bind ..).2 ((nextCluster_spec g hc s).mono ?_)
    rintro next s₁ ⟨hr, rfl | ⟨rfl, hno⟩⟩
    swap
    · unfold readSkip
      rw [if_pos (by simp)]
      exact (total_pure ..).2 ⟨hr, .inr hno⟩
    rw [List.length_cons, Nat.succ_mul] at hlt
    refine (readSkip_spec l steps _ _ s₁ (by omega) (hr.disk.symm ▸ ht) (hlink c List.mem_cons_self)
      (fun y hy => hmax y (List.mem_cons_of_mem _ hy))
      (fun y hy => hr.disk.symm ▸ hlink y (List.mem_cons_of_mem _ hy)) (by omega)).mono ?_
    rintro r s₂ ⟨hr₂, ⟨pre, post, rfl, hpost, h2', hr', hskip⟩ | hno⟩
    · refine ⟨hr.reads hr₂, .inl ⟨c :: pre, post, rfl, hr.disk ▸ hpost, h2', hr', ?_⟩⟩
      rw [List.length_cons, Nat.succ_mul]
      omega
    · exact ⟨hr.reads hr₂, .inr (hno.of_extends hr.ext)⟩

end Loops

/-! ## The calls -/

/-- The first `n` bytes of a buffer. -/
def bufferBytes (buffer : BufferArg) (n : Nat) : List UInt8 :=
  (List.range n).map (buffer.getD fun _ => 0)

theorem bufferBytes_copyAt (buffer : Nat → UInt8) (n : Nat) (f : Nat → UInt8) :
    bufferBytes (some (copyAt buffer 0 n f)) n = (List.range n).map f := by
  refine List.map_congr_left fun i hi => ?_
  simp only [Option.getD_some, copyAt]
  rw [if_pos (by simpa using hi), Nat.sub_zero]

/-- A handle on the file of an entry, as `fs_open` makes it and `fs_read` moves it. -/
def handle (e : Dirent) (position : Nat) : FsFile := ⟨firstCluster e, e.size, position, true⟩

section Calls

variable (g : Geometry m)

include g

theorem fsOpen_spec (name : NameArg) (hs : Safe m R s) (hrel : s.faults = []) :
    Total (fsOpen m name) s fun r s' => Reads s s' ∧
      ((∃ nm n e, name = some nm ∧ Entry m R s.disk (makeShortName nm) n e ∧
          e.attr &&& 0x10 = 0 ∧ r = some (handle e 0)) ∨
        (r = none ∧ ∀ nm, name = some nm → NoEntry m R s.disk (makeShortName nm) ∨
          ∃ n e, Entry m R s.disk (makeShortName nm) n e ∧ e.attr &&& 0x10 ≠ 0)) := by
  cases name with
  | none => exact (total_pure ..).2 ⟨.refl s, .inr ⟨rfl, by simp⟩⟩
  | some nm =>
  simp only [fsOpen, g.mounted, Bool.not_true, Bool.false_eq_true, if_false]
  refine (total_bind ..).2 ((findRootEntry_spec g nm s hs.tidy).mono ?_)
  rintro r s₁ ⟨hr, ⟨f, n, rfl, hf, hname⟩ | ⟨rfl, hnone⟩⟩
  · have hent := hf.toEntry hname
    refine (total_ite ..).2 ⟨fun hattr => (total_pure ..).2 ⟨hr, .inr ⟨rfl, ?_⟩⟩,
      fun hattr => (total_pure ..).2 ⟨hr, .inl ⟨nm, n, f.entry, rfl, hent, ?_, rfl⟩⟩⟩
    · rintro _ ⟨⟩
      exact .inr ⟨n, f.entry, hent, by simpa using hattr⟩
    · simpa using hattr
  · refine (total_pure ..).2 ⟨hr, .inr ⟨rfl, ?_⟩⟩
    rintro _ ⟨⟩
    exact .inl (hnone.resolve_left fun hno => hno.not_reliable hrel)

/-- `fs_read` of a file that its chain covers, from any position. -/
theorem fsRead_spec {e : Dirent} {l : List Nat}
    (hch : Chain (fatValue m s.disk) (maxCluster m) (firstCluster e) l)
    (hsize : e.size ≤ l.length * bytesPerCluster m) (position : Nat) (buffer : Nat → UInt8)
    (count : Nat) (hrel : s.faults = []) :
    Total (fsRead m (handle e position) (some buffer) count) s fun r s' => Reads s s' ∧
      r = (min count (e.size - position), handle e (position + min count (e.size - position)),
        some (copyAt buffer 0 (min count (e.size - position)) fun i =>
          chainByte m s.disk l (position + i))) := by
  have hempty : min count (e.size - position) = 0 → (0, handle e position, some buffer) =
      (min count (e.size - position), handle e (position + min count (e.size - position)),
        some (copyAt buffer 0 (min count (e.size - position)) fun i =>
          chainByte m s.disk l (position + i))) := fun h0 => by rw [h0, copyAt_zero, Nat.add_zero]
  refine (total_ite ..).2 ⟨fun hno => (total_pure ..).2 ⟨.refl s, hempty ?_⟩, fun _ => ?_⟩
  · have h0 : count = 0 := by simpa [g.mounted, handle] using hno
    rw [h0, Nat.zero_min]
  refine (total_ite ..).2 ⟨fun hend => (total_pure ..).2 ⟨.refl s, hempty ?_⟩, fun hin => ?_⟩
  · have hend' : position ≥ e.size := hend
    omega
  have hlt : position < e.size := Nat.lt_of_not_le hin
  obtain ⟨c, l, rfl⟩ : ∃ c l', l = c :: l' := by
    refine List.exists_cons_of_ne_nil fun hnil => ?_
    rw [hnil, List.length_nil, Nat.zero_mul] at hsize
    omega
  have h2 : 2 ≤ firstCluster e := by
    cases hch.walk with
    | cons hn _ => unfold ChainEnd at hn; omega
  refine (total_bind ..).2 ((readSkip_spec g (c :: l) position (firstCluster e) position s
    (Nat.le_refl _) hch.walk h2 hch.lt hch.link (by omega)).mono ?_)
  rintro ⟨c', skip⟩ s₁ ⟨hr, ⟨pre, post, hsplit, hpost, h2', hskip, hpos⟩ | hno⟩
  swap
  · exact absurd hrel hno.not_reliable
  have hsub : ∀ x ∈ post, x ∈ c :: l := fun x hx => by rw [hsplit]; simp [hx]
  refine (total_bind ..).2 ((readClusters_spec g _ post _ c' skip 0 buffer s₁
    (Nat.le_refl _) (hr.disk.symm ▸ hpost) h2' (fun x hx => hch.lt x (hsub x hx))
    (fun x hx => hr.disk.symm ▸ hch.link x (hsub x hx)) hskip).mono ?_)
  rintro r s₂ ⟨hr₂, rfl | hno⟩
  swap
  · exact absurd (hr.ext.reliable hrel) hno.not_reliable
  refine (total_pure ..).2 ⟨hr.reads hr₂, ?_⟩
  have hlen : (c :: l).length = pre.length + post.length := by rw [hsplit, List.length_append]
  simp only at hpos hskip
  rw [hlen, Nat.add_mul] at hsize
  have hall : min (min count (e.size - position) - 0) (post.length * bytesPerCluster m - skip) =
      min count (e.size - position) := by omega
  have hsz := e.size_lt
  simp only [handle, hall, Nat.zero_add, u32_of_lt (n := position + min count (e.size - position))
    (by omega), hr.disk, Prod.mk.injEq, true_and, Option.some.injEq]
  congr 1
  funext i
  have hi : position + i = pre.length * bytesPerCluster m + (skip + i) := by omega
  rw [hi, hsplit, chainByte_append_right g]

/-- `fs_read_file` into a buffer with room for the file. -/
theorem fsReadFile_spec {nm : List UInt8} {n : Nat} {e : Dirent} {l : List Nat}
    (hs : Safe m R s) (hw : Whole m R s) (he : Entry m R s.disk (makeShortName nm) n e)
    (hattr : e.attr &&& 0x10 = 0)
    (hch : Chain (fatValue m s.disk) (maxCluster m) (firstCluster e) l)
    (hsize : e.size ≤ l.length * bytesPerCluster m) (buffer : BufferArg) (bufferSize : UInt32)
    (hbuf : buffer.isSome ∨ bufferSize = 0) (hroom : e.size ≤ bufferSize.toNat) :
    Total (fsReadFile m (some nm) buffer bufferSize) s fun r s' => Reads s s' ∧ r.1 = true ∧
      r.2.1 = e.size ∧ bufferBytes r.2.2 e.size = contents m s.disk e := by
  have hnull : ¬(buffer.isNone && decide (bufferSize > 0)) = true := by
    rintro h
    rcases hbuf with hbuf | rfl
    · cases buffer <;> simp at h hbuf
    · simp at h
  refine (total_ite ..).2 ⟨fun h => absurd h hnull, fun _ => ?_⟩
  refine (total_bind ..).2 ((fsOpen_spec g (some nm) hs hw.reliable).mono ?_)
  rintro r s₁ ⟨hr, ⟨_, n', e', ⟨⟩, he', -, rfl⟩ | ⟨rfl, hnone⟩⟩
  swap
  · rcases hnone nm rfl with hno | ⟨n', e', he', hattr'⟩
    · exact absurd he.name (hno n e he.dir he.live)
    · rw [(he.det hw.exact he').2] at hattr'
      exact absurd hattr hattr'
  obtain rfl := (he.det hw.exact he').2
  cases buffer with
  | none =>
    have h0 : bufferSize = 0 := hbuf.resolve_left (by simp)
    subst h0
    have hzero : e'.size = 0 := by simpa using hroom
    refine (total_bind ..).2 ((total_pure ..).2 ((total_pure ..).2 ⟨hr, ?_⟩))
    simp [fsFileSize, handle, hzero, bufferBytes, contents]
  | some bytes =>
    refine (total_bind ..).2 ((fsRead_spec g (hr.disk.symm ▸ hch) hsize 0 bytes bufferSize.toNat
      (hr.ext.reliable hw.reliable)).mono ?_)
    rintro r s₂ ⟨hr₂, rfl⟩
    have hall : min bufferSize.toNat (e'.size - 0) = e'.size := by omega
    refine (total_pure ..).2 ⟨hr.reads hr₂, ?_⟩
    simp only [hall, fsFileSize, handle, if_true, BEq.rfl, true_and, bufferBytes_copyAt,
      Nat.zero_add, hr.disk]
    exact (contents_eq g hch hsize).symm

end Calls

end MinervaOS.Fat32
