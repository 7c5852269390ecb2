import MinervaOS.Fat32.Mounting
import MinervaOS.Fat32.Names
import MinervaOS.Lib.Loop
import MinervaOS.Lib.Slices
import Mathlib.Algebra.GroupWithZero.Nat

/-!
# The disk image the build makes

`make_fat32_image.py` writes a boot sector, an FSInfo sector, one FAT and a root directory of one
sector into a buffer of 4096 sectors, and lays the files of its list out one behind the other. It
shares no code with the driver that reads the image. A buffer is written by slices, as a `bytearray`
is; `struct.pack` refuses a value that does not fit its field.
-/

namespace MinervaOS.Fat32.Image

def sectorSize : Nat := 512

def totalSectors : Nat := 4096

def reservedSectors : Nat := 32

def fatSectors : Nat := 32

def sectorsPerCluster : Nat := 1

def rootCluster : Nat := 2

/-- `struct.pack("<H", value)`, of a value in range. -/
def le16 (value : Nat) : List UInt8 := [UInt8.ofNat value, UInt8.ofNat (value / 256)]

/-- `struct.pack("<I", value)`, of a value in range. -/
def le32 (value : Nat) : List UInt8 :=
  [UInt8.ofNat value, UInt8.ofNat (value / 256), UInt8.ofNat (value / 65536),
    UInt8.ofNat (value / 16777216)]

def put16 (buf : List UInt8) (offset value : Nat) : Option (List UInt8) :=
  if value < 65536 then some (setSlice buf offset (offset + 2) (le16 value)) else none

def put32 (buf : List UInt8) (offset value : Nat) : Option (List UInt8) :=
  if value < 4294967296 then some (setSlice buf offset (offset + 4) (le32 value)) else none

/-- `buf[offset] = value`. -/
def put8 (buf : List UInt8) (offset : Nat) (value : UInt8) : Option (List UInt8) :=
  if offset < buf.length then some (setSlice buf offset (offset + 1) [value]) else none

/-- A name is an ASCII string, as its characters' codes. -/
def shortName (name : List UInt8) : List UInt8 :=
  let base := name.takeWhile (· != dot)
  let ext := (name.dropWhile (· != dot)).tail
  (padUpper 8 base).take 8 ++ (padUpper 3 ext).take 3

/-- An element of `FILES`. -/
structure ImageFile where
  name : List UInt8
  data : List UInt8
  deriving DecidableEq

def writeFileEntry (image : List UInt8) (entryIndex : Nat) (name : List UInt8) (cluster : Nat)
    (data : List UInt8) : Option (List UInt8) := do
  let rootOffset := (reservedSectors + fatSectors + (rootCluster - 2)) * sectorSize
  let offset := rootOffset + entryIndex * 32
  let image := setSlice image offset (offset + 11) (shortName name)
  let image ← put8 image (offset + 11) 0x20
  let image ← put16 image (offset + 20) (cluster >>> 16 &&& 0xFFFF)
  let image ← put16 image (offset + 26) (cluster &&& 0xFFFF)
  put32 image (offset + 28) data.length

/-- What `main` writes into the boot sector, in order. -/
def bootWrites : List (Nat × List UInt8) :=
  [(0, [0xEB, 0x58, 0x90]),
    (3, [0x4D, 0x49, 0x4E, 0x45, 0x52, 0x56, 0x41, 0x20]),
    (11, le16 sectorSize),
    (13, [UInt8.ofNat sectorsPerCluster]),
    (14, le16 reservedSectors),
    (16, [1]),
    (17, le16 0),
    (19, le16 0),
    (21, [0xF8]),
    (22, le16 0),
    (24, le16 63),
    (26, le16 16),
    (28, le32 0),
    (32, le32 totalSectors),
    (36, le32 fatSectors),
    (40, le16 0),
    (42, le16 0),
    (44, le32 rootCluster),
    (48, le16 1),
    (50, le16 6),
    (64, [0x80]),
    (66, [0x29]),
    (67, le32 0x4D4E5256),
    (71, [0x4D, 0x49, 0x4E, 0x45, 0x52, 0x56, 0x41, 0x4F, 0x53, 0x20, 0x20]),
    (82, [0x46, 0x41, 0x54, 0x33, 0x32, 0x20, 0x20, 0x20]),
    (510, [0x55, 0xAA])]

/-- What it writes into the FSInfo sector. -/
def fsinfoWrites : List (Nat × List UInt8) :=
  [(sectorSize, le32 0x41615252),
    (sectorSize + 484, le32 0x61417272),
    (sectorSize + 488, le32 0xFFFFFFFF),
    (sectorSize + 492, le32 0xFFFFFFFF),
    (sectorSize + 510, [0x55, 0xAA])]

/-- The locals of `main` that its loops change. -/
structure Building where
  image : List UInt8
  fat : List UInt8
  nextCluster : Nat

def clusterSize : Nat := sectorsPerCluster * sectorSize

def clusterCount (data : List UInt8) : Nat := max 1 ((data.length + clusterSize - 1) / clusterSize)

def dataStart : Nat := reservedSectors + fatSectors

def fatOffset : Nat := reservedSectors * sectorSize

/-- The body of the loop over the chunks of a file. -/
def writeChunk (data : List UInt8) (b : Building) (chunkIndex : Nat) : Option Building := do
  let cluster := b.nextCluster
  let nextCluster := b.nextCluster + 1
  let nextValue := if chunkIndex + 1 < clusterCount data then cluster + 1 else 0x0FFFFFFF
  let fat ← put32 b.fat (cluster * 4) nextValue
  let dataOffset := (dataStart + (cluster - 2) * sectorsPerCluster) * sectorSize
  let chunkStart := chunkIndex * clusterSize
  let chunk := (data.drop chunkStart).take clusterSize
  let image := setSlice b.image dataOffset (dataOffset + chunk.length) chunk
  return { image, fat, nextCluster }

/-- The body of the loop over the files. -/
def writeFile (b : Building) (entry : ImageFile × Nat) : Option Building := do
  let (file, index) := entry
  let firstCluster := b.nextCluster
  let b ← (List.range (clusterCount file.data)).foldlM (writeChunk file.data) b
  let image ← writeFileEntry b.image index file.name firstCluster file.data
  return { b with image }

/-- `main`, of the list of files: the bytes it writes out. -/
def main (files : List ImageFile) : Option (List UInt8) := do
  let image := List.replicate (totalSectors * sectorSize) 0
  let image := (bootWrites ++ fsinfoWrites).foldl edit image
  let fat := (image.drop fatOffset).take (fatSectors * sectorSize)
  let fat ← put32 fat 0 0x0FFFFFF8
  let fat ← put32 fat 4 0x0FFFFFFF
  let fat ← put32 fat (rootCluster * 4) 0x0FFFFFFF
  let b ← files.zipIdx.foldlM writeFile ⟨image, fat, 3⟩
  return setSlice b.image fatOffset (fatOffset + fatSectors * sectorSize) b.fat

/-! ## What the writes do -/

/-- A buffer by offset. -/
def bytesOf (buf : List UInt8) : Sector := fun i => buf.getD i 0

theorem bytesOf_setSlice {buf items : List UInt8} {lo hi : Nat} (h : lo + items.length = hi)
    (hhi : hi ≤ buf.length) : bytesOf (setSlice buf lo hi items) =
      copyAt (bytesOf buf) lo items.length fun i => items.getD i 0 := by
  funext i
  subst h
  exact getD_setSlice rfl hhi i 0

section Fields

variable {buf : List UInt8} {offset value : Nat}

theorem put16_yields (hv : value < 65536) (h : offset + 2 ≤ buf.length) :
    Yields (put16 buf offset value) fun b =>
      b.length = buf.length ∧ bytesOf b = wr16 (bytesOf buf) offset value := by
  unfold put16
  rw [if_pos hv]
  have hlen : offset + (le16 value).length = offset + 2 := rfl
  refine Yields.pure ⟨length_setSlice hlen h, ?_⟩
  rw [bytesOf_setSlice hlen h]
  funext i
  by_cases h0 : i = offset
  · simp [copyAt, wr16, le16, h0]
  by_cases h1 : i = offset + 1
  · simp [copyAt, wr16, le16, h1]
  have hout : ¬(offset ≤ i ∧ i < offset + (le16 value).length) := by
    simp only [le16, List.length_cons, List.length_nil]
    omega
  simp only [copyAt, wr16, hout, h0, h1, if_false]

theorem put32_yields (hv : value < 4294967296) (h : offset + 4 ≤ buf.length) :
    Yields (put32 buf offset value) fun b =>
      b.length = buf.length ∧ bytesOf b = wr32 (bytesOf buf) offset value := by
  unfold put32
  rw [if_pos hv]
  have hlen : offset + (le32 value).length = offset + 4 := rfl
  refine Yields.pure ⟨length_setSlice hlen h, ?_⟩
  rw [bytesOf_setSlice hlen h]
  funext i
  by_cases h0 : i = offset
  · simp [copyAt, wr32, le32, h0]
  by_cases h1 : i = offset + 1
  · simp [copyAt, wr32, le32, h1]
  by_cases h2 : i = offset + 2
  · simp [copyAt, wr32, le32, h2]
  by_cases h3 : i = offset + 3
  · simp [copyAt, wr32, le32, h3]
  have hout : ¬(offset ≤ i ∧ i < offset + (le32 value).length) := by
    simp only [le32, List.length_cons, List.length_nil]
    omega
  simp only [copyAt, wr32, hout, h0, h1, h2, h3, if_false]

theorem put8_yields {value : UInt8} (h : offset < buf.length) :
    Yields (put8 buf offset value) fun b =>
      b.length = buf.length ∧ bytesOf b = Function.update (bytesOf buf) offset value := by
  unfold put8
  rw [if_pos h]
  have hlen : offset + [value].length = offset + 1 := rfl
  refine Yields.pure ⟨length_setSlice hlen h, ?_⟩
  rw [bytesOf_setSlice hlen h]
  funext i
  by_cases h0 : i = offset
  · simp [copyAt, h0]
  · have hout : ¬(offset ≤ i ∧ i < offset + [value].length) := by
      simp only [List.length_cons, List.length_nil]
      omega
    simp only [copyAt, hout, if_false, Function.update_of_ne h0]

end Fields

theorem length_shortName (name : List UInt8) : (shortName name).length = 11 := by
  have hpad : ∀ n s, n ≤ (padUpper n s).length := fun n s => by
    simp only [padUpper, List.length_append, List.length_map, List.length_replicate]
    omega
  simp only [shortName, List.length_append, List.length_take]
  rw [Nat.min_eq_left (hpad ..), Nat.min_eq_left (hpad ..)]

/-- The entry that is written for a file. -/
def entryOf (file : ImageFile) (first : Nat) : Dirent :=
  ((newDirent (shortName file.name)).withCluster first).withSize file.data.length

/-- The buffer's slot of a root entry: the root directory's sector begins with slot 1024. -/
def slotOf (index : Nat) : Nat := 1024 + index

/-- The slots are as `setName`, `setCluster` and `setSize` leave a sector's. -/
theorem writeFileEntry_yields {image : List UInt8} (hlen : image.length = 2097152) {index : Nat}
    (hindex : index < 16) (name : List UInt8) {cluster : Nat} (hcl : cluster < 4294967296)
    {data : List UInt8} (hdata : data.length < 4294967296) :
    Yields (writeFileEntry image index name cluster data) fun b => b.length = image.length ∧
      bytesOf b = setSize (setCluster (Function.update
        (setName (bytesOf image) (slotOf index) (shortName name)) (32 * slotOf index + 11) 0x20)
          (slotOf index) cluster) (slotOf index) data.length := by
  have hoff : (reservedSectors + fatSectors + (rootCluster - 2)) * sectorSize + index * 32 =
      32 * slotOf index := by
    simp only [reservedSectors, fatSectors, rootCluster, sectorSize, slotOf]
    omega
  have hslot : 32 * slotOf index + 32 ≤ image.length := by
    unfold slotOf
    omega
  have hname := length_shortName name
  have hlow : cluster &&& 0xFFFF = cluster % 65536 := Nat.and_two_pow_sub_one_eq_mod cluster 16
  have hhigh : cluster >>> 16 &&& 0xFFFF = cluster / 65536 := by
    rw [Nat.shiftRight_eq_div_pow, Nat.and_two_pow_sub_one_eq_mod _ 16]
    omega
  unfold writeFileEntry
  simp only [hoff, hlow, hhigh]
  have hset : (setSlice image (32 * slotOf index) (32 * slotOf index + 11)
      (shortName name)).length = image.length := length_setSlice (by omega) (by omega)
  have hbytes : bytesOf (setSlice image (32 * slotOf index) (32 * slotOf index + 11)
      (shortName name)) = setName (bytesOf image) (slotOf index) (shortName name) := by
    rw [bytesOf_setSlice (by omega) (by omega), hname]
    rfl
  refine Yields.bind (put8_yields (by omega)) ?_
  rintro b₁ ⟨hl₁, h₁⟩
  refine Yields.bind (put16_yields (by omega) (by omega)) ?_
  rintro b₂ ⟨hl₂, h₂⟩
  refine Yields.bind (put16_yields (by omega) (by omega)) ?_
  rintro b₃ ⟨hl₃, h₃⟩
  refine (put32_yields hdata (by omega)).mono ?_
  rintro b₄ ⟨hl₄, h₄⟩
  exact ⟨by omega, by rw [h₄, h₃, h₂, h₁, hbytes]; rfl⟩

/-! ## The loops -/

/-- The FAT's value for a cluster. -/
def fatAt (fat : List UInt8) (cluster : Nat) : Nat := rd32 (bytesOf fat) (cluster * 4)

theorem fatAt_put32 {fat : List UInt8} {cluster value : Nat} (hv : value < 4294967296)
    (h : cluster * 4 + 4 ≤ fat.length) : Yields (put32 fat (cluster * 4) value) fun fat' =>
      fat'.length = fat.length ∧ fatAt fat' = Function.update (fatAt fat) cluster value := by
  refine (put32_yields hv h).mono fun fat' ⟨hlen, hbytes⟩ => ⟨hlen, funext fun x => ?_⟩
  unfold fatAt
  rw [hbytes, Function.update_apply]
  split
  · rename_i hx
    rw [hx, rd32_wr32]
    omega
  · exact rd32_wr32_of_ne _ _ (by omega)

/-- The buffers are as long as the image and its FAT. -/
structure Sized (b : Building) : Prop where
  image : b.image.length = 2097152
  fat : b.fat.length = 16384

/-- Where the data of a cluster begins. -/
def clusterOffset (cluster : Nat) : Nat := (62 + cluster) * 512

/-- The last cluster the image has room for is 4033. -/
def lastCluster : Nat := 4034

variable {b b₀ : Building} {data : List UInt8} {k : Nat}

theorem writeChunk_yields (hb : Sized b) (h2 : 2 ≤ b.nextCluster)
    (hlast : b.nextCluster < lastCluster) :
    Yields (writeChunk data b k) fun b' => Sized b' ∧ b'.nextCluster = b.nextCluster + 1 ∧
      fatAt b'.fat = Function.update (fatAt b.fat) b.nextCluster
        (if k + 1 < clusterCount data then b.nextCluster + 1 else 0x0FFFFFFF) ∧
      bytesOf b'.image = copyAt (bytesOf b.image) (clusterOffset b.nextCluster)
        (min 512 (data.length - k * 512)) fun i => data.getD (k * 512 + i) 0 := by
  have himage := hb.image
  have hfat := hb.fat
  unfold lastCluster at hlast
  have hoff : (dataStart + (b.nextCluster - 2) * sectorsPerCluster) * sectorSize =
      clusterOffset b.nextCluster := by
    simp only [dataStart, reservedSectors, fatSectors, sectorsPerCluster, sectorSize, clusterOffset]
    omega
  have hchunk : ((data.drop (k * clusterSize)).take clusterSize).length =
      min 512 (data.length - k * 512) := by
    rw [List.length_take, List.length_drop]
    rfl
  have hroom : clusterOffset b.nextCluster + ((data.drop (k * clusterSize)).take clusterSize).length
      ≤ b.image.length := by
    unfold clusterOffset
    omega
  unfold writeChunk
  simp only [hoff]
  refine Yields.bind (fatAt_put32 (by split <;> omega) (by omega)) ?_
  rintro fat ⟨hlen, hfat'⟩
  refine Yields.pure ⟨⟨?_, hlen.trans hfat⟩, rfl, hfat', ?_⟩
  · exact (length_setSlice rfl hroom).trans himage
  · rw [bytesOf_setSlice rfl hroom, hchunk]
    funext i
    unfold copyAt
    refine ite_congr rfl (fun hi => ?_) fun _ => rfl
    have hin : i - clusterOffset b.nextCluster < clusterSize := by
      have hsize : clusterSize = 512 := rfl
      omega
    show ((data.drop (k * clusterSize)).take clusterSize).getD (i - clusterOffset b.nextCluster) 0 =
      data.getD (k * 512 + (i - clusterOffset b.nextCluster)) 0
    rw [List.getD_eq_getElem?_getD, List.getElem?_take_of_lt hin, List.getElem?_drop,
      ← List.getD_eq_getElem?_getD]
    rfl

/-- The image and the FAT after `k` chunks of a file. -/
structure Chunks (data : List UInt8) (b₀ : Building) (k : Nat) (b : Building) : Prop where
  sized : Sized b
  next : b.nextCluster = b₀.nextCluster + k
  fat : ∀ x, fatAt b.fat x =
    if b₀.nextCluster ≤ x ∧ x < b₀.nextCluster + k then
      if x + 1 < b₀.nextCluster + clusterCount data then x + 1 else 0x0FFFFFFF
    else fatAt b₀.fat x
  image : bytesOf b.image = copyAt (bytesOf b₀.image) (clusterOffset b₀.nextCluster)
    (min (k * 512) data.length) fun i => data.getD i 0

theorem clusterCount_pos (data : List UInt8) : 1 ≤ clusterCount data := Nat.le_max_left ..

theorem length_le_clusterCount (data : List UInt8) : data.length ≤ clusterCount data * 512 := by
  have h : (data.length + clusterSize - 1) / clusterSize = (data.length + 511) / 512 := rfl
  unfold clusterCount
  rw [h]
  omega

theorem Chunks.step (hb : Chunks data b₀ k b) (hk : k < clusterCount data)
    (h2 : 2 ≤ b₀.nextCluster) (hlast : b₀.nextCluster + clusterCount data ≤ lastCluster) :
    Yields (writeChunk data b k) (Chunks data b₀ (k + 1)) := by
  have hnext := hb.next
  refine (writeChunk_yields hb.sized (by omega) (by omega)).mono ?_
  rintro b' ⟨hsized, hnext', hfat, himage⟩
  refine ⟨hsized, by omega, fun x => ?_, ?_⟩
  · rw [hfat, Function.update_apply, hb.fat]
    by_cases hx : x = b.nextCluster
    · have hin : b₀.nextCluster ≤ x ∧ x < b₀.nextCluster + (k + 1) := by omega
      have hiff : k + 1 < clusterCount data ↔ x + 1 < b₀.nextCluster + clusterCount data := by omega
      rw [if_pos hx, if_pos hin, hx]
      exact if_congr (hx ▸ hiff) rfl rfl
    · have hiff : b₀.nextCluster ≤ x ∧ x < b₀.nextCluster + k ↔
          b₀.nextCluster ≤ x ∧ x < b₀.nextCluster + (k + 1) := by omega
      rw [if_neg hx]
      exact if_congr hiff rfl rfl
  · rw [himage, hb.image, hnext]
    have hoff : clusterOffset (b₀.nextCluster + k) = clusterOffset b₀.nextCluster + k * 512 := by
      unfold clusterOffset
      omega
    rw [hoff]
    funext i
    unfold copyAt
    generalize clusterOffset b₀.nextCluster = o
    -- the chunk is what is behind the chunks before it
    by_cases hi : o + k * 512 ≤ i ∧ i < o + k * 512 + min 512 (data.length - k * 512)
    · have hin : o ≤ i ∧ i < o + min ((k + 1) * 512) data.length := by omega
      have hat : k * 512 + (i - (o + k * 512)) = i - o := by omega
      rw [if_pos hi, if_pos hin]
      exact congrArg (data.getD · 0) hat
    · have hiff : o ≤ i ∧ i < o + min (k * 512) data.length ↔
          o ≤ i ∧ i < o + min ((k + 1) * 512) data.length := by omega
      rw [if_neg hi]
      exact if_congr hiff rfl rfl

theorem chunks_yields (hb : Sized b₀) (h2 : 2 ≤ b₀.nextCluster)
    (hlast : b₀.nextCluster + clusterCount data ≤ lastCluster) : ∀ k ≤ clusterCount data,
    Yields ((List.range k).foldlM (writeChunk data) b₀) (Chunks data b₀ k)
  | 0, _ => by
    refine Yields.pure ⟨hb, rfl, fun x => (if_neg (by omega)).symm, ?_⟩
    funext i
    unfold copyAt
    exact (if_neg (by omega)).symm
  | k + 1, hk => by
    rw [List.range_succ, List.foldlM_append]
    refine Yields.bind (chunks_yields hb h2 hlast k (by omega)) fun b hb' => ?_
    rw [List.foldlM_cons]
    refine Yields.bind (hb'.step hk h2 hlast) fun b' hb'' => Yields.pure hb''

theorem editsSlot_update (i : Nat) {o : Nat} (ho : o < 32) (v : UInt8) :
    EditsSlot (fun sec => Function.update sec (32 * i + o) v) i (fun e => Function.update e o v) where
  outside sec k hk := Function.update_of_ne (by omega) v sec
  inside sec := by
    funext k
    simp only [dirent, Function.update_apply, Nat.add_left_cancel_iff]
    by_cases hk : k = o
    · rw [if_pos (hk ▸ ho), if_pos hk, if_pos hk]
    · rw [if_neg hk, if_neg hk]

/-- A slot that was blank holds the entry of a new file, with its cluster and its size. -/
theorem newDirent_eq (sn : List UInt8) :
    newDirent sn = Function.update (Dirent.withName (fun _ => 0) sn) 11 0x20 := by
  funext j
  simp only [newDirent, Dirent.withName, copyAt, Function.update_apply]
  by_cases hj : j = 11
  · simp [hj]
  · by_cases hlt : j < 11 <;> simp [hj, hlt]

/-- What a file's entry, its clusters and its part of the FAT hold. -/
structure Placed (b : Building) (file : ImageFile) (index first : Nat) : Prop where
  fat : ∀ x, first ≤ x → x < first + clusterCount file.data → fatAt b.fat x =
    if x + 1 < first + clusterCount file.data then x + 1 else 0x0FFFFFFF
  bytes : ∀ i < file.data.length, bytesOf b.image (clusterOffset first + i) = file.data.getD i 0
  entry : dirent (bytesOf b.image) (slotOf index) = entryOf file first

/-- A file laid out, and everything else as it was. -/
structure FileWritten (file : ImageFile) (index : Nat) (b b' : Building) : Prop where
  sized : Sized b'
  next : b'.nextCluster = b.nextCluster + clusterCount file.data
  placed : Placed b' file index b.nextCluster
  fat : ∀ x, x < b.nextCluster ∨ b.nextCluster + clusterCount file.data ≤ x →
    fatAt b'.fat x = fatAt b.fat x
  image : ∀ i, i < clusterOffset b.nextCluster → (i < 32 * slotOf index ∨
    32 * slotOf index + 32 ≤ i) → bytesOf b'.image i = bytesOf b.image i

theorem writeFile_yields {file : ImageFile} {index : Nat} (hb : Sized b) (h2 : 3 ≤ b.nextCluster)
    (hlast : b.nextCluster + clusterCount file.data ≤ lastCluster) (hindex : index < 16)
    (hblank : dirent (bytesOf b.image) (slotOf index) = fun _ => 0) :
    Yields (writeFile b (file, index)) (FileWritten file index b) := by
  have hcovers := length_le_clusterCount file.data
  have hlast' : lastCluster = 4034 := rfl
  have hoff : 33280 ≤ clusterOffset b.nextCluster := by
    unfold clusterOffset
    omega
  refine Yields.bind (chunks_yields hb (by omega) hlast _ (Nat.le_refl _)) fun b₁ h₁ => ?_
  refine Yields.bind (writeFileEntry_yields h₁.sized.image hindex file.name (by omega)
    (by omega)) ?_
  rintro image ⟨hlen, himage⟩
  have hmin : min (clusterCount file.data * 512) file.data.length = file.data.length := by omega
  have hdata := h₁.image
  rw [hmin] at hdata
  have hslot : 32 * slotOf index + 32 ≤ 33280 := by
    unfold slotOf
    omega
  -- the entry's edits, and the slot they are made in
  have hedits := ((editsSlot_setName (slotOf index) (shortName file.name)).comp
    (editsSlot_update (slotOf index) (by omega : 11 < 32) 0x20)).comp
      (editsSlot_setEntry (slotOf index) b.nextCluster file.data.length)
  have hslot₁ : dirent (bytesOf b₁.image) (slotOf index) = fun _ => 0 := by
    rw [← hblank, hdata]
    funext j
    simp only [dirent, copyAt]
    split
    · exact if_neg (by omega)
    · rfl
  refine Yields.pure ⟨⟨hlen.trans h₁.sized.image, h₁.sized.fat⟩, h₁.next, ⟨fun x hx hx' => ?_,
    fun i hi => ?_, ?_⟩, fun x hx => ?_, fun i hi hi' => ?_⟩
  · exact (h₁.fat x).trans (if_pos ⟨hx, hx'⟩)
  · have hout := hedits.outside (bytesOf b₁.image) (clusterOffset b.nextCluster + i) (by omega)
    rw [himage, hout, hdata]
    unfold copyAt
    rw [if_pos (by omega), Nat.add_sub_cancel_left]
  · rw [himage, hedits.inside (bytesOf b₁.image), hslot₁, ← newDirent_eq]
    rfl
  · exact (h₁.fat x).trans (if_neg (by omega))
  · rw [himage, hedits.outside (bytesOf b₁.image) i (by omega), hdata]
    exact if_neg (by omega)

/-! ## The whole image -/

/-- The first two sectors, as they are before the loops. -/
def header : List UInt8 := (bootWrites ++ fsinfoWrites).foldl edit (List.replicate 1024 0)

/-- The cluster behind the last one of some files. -/
def endOf (files : List ImageFile) : Nat := 3 + (files.map fun f => clusterCount f.data).sum

theorem endOf_append (files more : List ImageFile) :
    endOf (files ++ more) = endOf files + (more.map fun f => clusterCount f.data).sum := by
  simp only [endOf, List.map_append, List.sum_append]
  omega

/-- The state of the loop over the files after those of a list. -/
structure Built (files : List ImageFile) (b : Building) : Prop where
  sized : Sized b
  next : b.nextCluster = endOf files
  head : ∀ i < 1024, bytesOf b.image i = bytesOf header i
  root : fatAt b.fat rootCluster = 0x0FFFFFFF
  free : ∀ x, endOf files ≤ x → x < lastCluster → fatAt b.fat x = 0
  placed : ∀ (i : Nat) (f : ImageFile), files[i]? = some f → Placed b f i (endOf (files.take i))
  blank : ∀ i, files.length ≤ i → i < 16 → dirent (bytesOf b.image) (slotOf i) = fun _ => 0

/-- The clusters of one file are before those of the next. -/
theorem endOf_take_add {files : List ImageFile} {i : Nat} {f : ImageFile}
    (h : files[i]? = some f) : endOf (files.take i) + clusterCount f.data ≤ endOf files := by
  obtain ⟨hlt, rfl⟩ := List.getElem?_eq_some_iff.1 h
  have hsplit : files = files.take i ++ files[i] :: files.drop (i + 1) := by
    rw [List.getElem_cons_drop, List.take_append_drop]
  have hend := endOf_append (files.take i) (files[i] :: files.drop (i + 1))
  rw [← hsplit] at hend
  simp only [List.map_cons, List.sum_cons] at hend
  omega

theorem Built.snoc {files : List ImageFile} {f : ImageFile} (hb : Built files b)
    (hindex : files.length < 16) (hroom : endOf (files ++ [f]) ≤ lastCluster) :
    Yields (writeFile b (f, files.length)) (Built (files ++ [f])) := by
  have hnext := hb.next
  have hend : endOf (files ++ [f]) = endOf files + clusterCount f.data := by
    rw [endOf_append]
    rfl
  have h3 : ∀ fs, 3 ≤ endOf fs := fun fs => Nat.le_add_right ..
  have h3' := h3 files
  refine (writeFile_yields hb.sized (by omega) (by omega) hindex
    (hb.blank _ (Nat.le_refl _) hindex)).mono fun b' hw => ?_
  have hoff : 33280 ≤ clusterOffset b.nextCluster := by
    unfold clusterOffset
    omega
  -- a slot of the directory other than the new file's
  have hslot : ∀ i, i < 16 → i ≠ files.length →
      dirent (bytesOf b'.image) (slotOf i) = dirent (bytesOf b.image) (slotOf i) := by
    intro i hi hne
    funext j
    simp only [dirent]
    split
    · refine hw.image _ ?_ ?_ <;> unfold slotOf <;> omega
    · rfl
  refine ⟨hw.sized, by rw [hw.next, hend, hnext], fun i hi => ?_, ?_, fun x hx hx' => ?_,
    fun i g hg => ?_, fun i hi hi' => ?_⟩
  · rw [hw.image i (by omega) (by unfold slotOf; omega)]
    exact hb.head i hi
  · rw [hw.fat rootCluster (.inl (by unfold rootCluster; omega))]
    exact hb.root
  · rw [hw.fat x (by omega)]
    exact hb.free x (by omega) hx'
  · rcases Nat.lt_trichotomy i files.length with hlt | rfl | hgt
    · rw [List.getElem?_append_left hlt] at hg
      rw [List.take_append_of_le_length (by omega)]
      have hold := hb.placed i g hg
      have hbefore := endOf_take_add hg
      have hcovers := length_le_clusterCount g.data
      have hge := h3 (files.take i)
      refine ⟨fun x hx hx' => ?_, fun j hj => ?_, ?_⟩
      · rw [hw.fat x (by omega)]
        exact hold.fat x hx hx'
      · rw [hw.image _ (by unfold clusterOffset; omega)
          (.inr (by unfold clusterOffset slotOf; omega))]
        exact hold.bytes j hj
      · rw [hslot i (by omega) (by omega)]
        exact hold.entry
    · rw [List.getElem?_concat_length] at hg
      obtain rfl := Option.some.inj hg
      rw [List.take_left' rfl, ← hnext]
      exact hw.placed
    · rw [List.getElem?_eq_none (by simp; omega)] at hg
      cases hg
  · rw [List.length_append, List.length_singleton] at hi
    rw [hslot i hi' (by omega)]
    exact hb.blank i (by omega) hi'

theorem bytesOf_replicate (n i : Nat) : bytesOf (List.replicate n 0) i = 0 := by
  simp only [bytesOf, List.getD_eq_getElem?_getD, List.getElem?_replicate]
  split <;> rfl

theorem length_header : header.length = 1024 := by
  unfold header
  rw [length_foldl_edit (by decide +kernel), List.length_replicate]

/-- The buffers before the first file. -/
theorem built_nil {image fat : List UInt8} (himage : image = header ++ List.replicate 2096128 0)
    (hlen : fat.length = 16384) (hroot : fatAt fat rootCluster = 0x0FFFFFFF)
    (hfree : ∀ x, 3 ≤ x → x < lastCluster → fatAt fat x = 0) : Built [] ⟨image, fat, 3⟩ := by
  have hhead := length_header
  have hout : ∀ i, 1024 ≤ i → bytesOf image i = 0 := by
    intro i hi
    unfold bytesOf
    rw [himage, List.getD_append_right _ _ _ _ (by omega)]
    exact bytesOf_replicate ..
  refine ⟨⟨?_, hlen⟩, rfl, fun i hi => ?_, hroot, hfree, fun i f hf => by simp at hf,
    fun i _ hi => ?_⟩
  · rw [himage, List.length_append, hhead, List.length_replicate]
  · unfold bytesOf
    rw [himage, List.getD_append _ _ _ _ (by omega)]
  · funext j
    simp only [dirent]
    split
    · exact hout _ (by unfold slotOf; omega)
    · rfl

theorem files_yields : ∀ (more : List ImageFile) {files : List ImageFile} {b : Building},
    Built files b → (files ++ more).length ≤ 16 → endOf (files ++ more) ≤ lastCluster →
    Yields ((more.zipIdx files.length).foldlM writeFile b) (Built (files ++ more))
  | [], files, b, hb, _, _ => by
    rw [List.append_nil]
    exact Yields.pure hb
  | f :: more, files, b, hb, hlen, hroom => by
    have hassoc : files ++ f :: more = (files ++ [f]) ++ more := by simp
    rw [hassoc] at hlen hroom ⊢
    have hlen' : files.length + 1 ≤ 16 := by
      simp only [List.length_append, List.length_singleton] at hlen
      omega
    have hroom' := endOf_append (files ++ [f]) more
    rw [List.zipIdx_cons, List.foldlM_cons]
    refine Yields.bind (hb.snoc hlen' (by omega)) fun b' hb' => ?_
    rw [← List.length_singleton (a := f), ← List.length_append]
    exact files_yields more hb' hlen hroom

/-- What `main` writes out. -/
def Imaged (files : List ImageFile) (image : List UInt8) : Prop :=
  ∃ b, Built files b ∧ image.length = 2097152 ∧
    bytesOf image = copyAt (bytesOf b.image) 16384 16384 (bytesOf b.fat)

theorem main_yields (files : List ImageFile) (hlen : files.length ≤ 16)
    (hroom : endOf files ≤ lastCluster) : Yields (main files) (Imaged files) := by
  have hheader : (bootWrites ++ fsinfoWrites).foldl edit
      (List.replicate (totalSectors * sectorSize) 0) = header ++ List.replicate 2096128 0 := by
    have hrep : List.replicate (totalSectors * sectorSize) (0 : UInt8) =
        List.replicate 1024 0 ++ List.replicate 2096128 0 := by
      rw [List.replicate_append_replicate]
      rfl
    rw [hrep, foldl_edit_append _ (by decide +kernel)]
    rfl
  have hfat : ((header ++ List.replicate 2096128 (0 : UInt8)).drop fatOffset).take
      (fatSectors * sectorSize) = List.replicate 16384 0 := by
    have hhead := length_header
    rw [List.drop_append, List.drop_eq_nil_of_le (by rw [hhead]; decide), List.nil_append,
      List.drop_replicate, List.take_replicate, hhead]
    rfl
  unfold main
  simp only [hheader, hfat]
  have hzero : ∀ x, fatAt (List.replicate 16384 0) x = 0 := by
    intro x
    simp only [fatAt, rd32, bytesOf_replicate]
    rfl
  have hrep : (List.replicate 16384 (0 : UInt8)).length = 16384 := List.length_replicate
  refine Yields.bind (@fatAt_put32 _ 0 0x0FFFFFF8 (by decide) (by omega)) ?_
  rintro fat₁ ⟨hlen₁, h₁⟩
  refine Yields.bind (@fatAt_put32 _ 1 0x0FFFFFFF (by decide) (by omega)) ?_
  rintro fat₂ ⟨hlen₂, h₂⟩
  refine Yields.bind (fatAt_put32 (by decide) (by unfold rootCluster; omega)) ?_
  rintro fat₃ ⟨hlen₃, h₃⟩
  have hbuilt : Built [] ⟨header ++ List.replicate 2096128 0, fat₃, 3⟩ := by
    refine built_nil rfl (by omega) (by rw [h₃, Function.update_self]) fun x hx _ => ?_
    rw [h₃, h₂, h₁, Function.update_of_ne (by unfold rootCluster; omega),
      Function.update_of_ne (by omega), Function.update_of_ne (by omega), hzero]
  refine Yields.bind (files_yields files hbuilt hlen hroom) fun b hb => ?_
  have himage := hb.sized.image
  have hfat := hb.sized.fat
  have hend : fatOffset + b.fat.length = fatOffset + fatSectors * sectorSize := by rw [hfat]; rfl
  have hin : fatOffset + fatSectors * sectorSize ≤ b.image.length := by rw [himage]; decide
  refine Yields.pure ⟨b, hb, (length_setSlice hend hin).trans himage, ?_⟩
  rw [bytesOf_setSlice hend hin, hfat]
  rfl

end MinervaOS.Fat32.Image
