import MinervaOS.Lib.Prog

/-!
# Sectors, the ATA driver and the mounted volume

A sector is its bytes by offset. The driver's state carries the disk, the one sector buffer that
every file-system function shares, and the fault schedule: the driver refuses the next access when
the schedule's head says so, and leaves the disk and the buffer as they were. An empty schedule is a
reliable disk.

Two fields are a record of what happened and are read by no operation: the accesses issued, and the
clusters `find_free_cluster` handed out, each with the disk as it then was.
-/

namespace MinervaOS.Fat32

abbrev Sector := Nat → UInt8

abbrev Disk := Nat → Sector

/-- What a `uint32_t` holds of `n`. -/
def u32 (n : Nat) : Nat := n % 4294967296

theorem u32_of_lt {n : Nat} (h : n < 4294967296) : u32 n = n := Nat.mod_eq_of_lt h

def sectorSize : Nat := 512

/-- `FAT32_EOC`. -/
def fat32Eoc : Nat := 0x0FFFFFF8

/-- `FAT32_EOC_MARK`. -/
def fat32EocMark : Nat := 0x0FFFFFFF

/-! ## Little-endian fields -/

def rd16 (p : Sector) (o : Nat) : Nat := (p o).toNat + (p (o + 1)).toNat * 256

def rd32 (p : Sector) (o : Nat) : Nat :=
  (p o).toNat + (p (o + 1)).toNat * 256 + (p (o + 2)).toNat * 65536 +
    (p (o + 3)).toNat * 16777216

def wr16 (p : Sector) (o value : Nat) : Sector := fun i =>
  if i = o then UInt8.ofNat value
  else if i = o + 1 then UInt8.ofNat (value / 256)
  else p i

def wr32 (p : Sector) (o value : Nat) : Sector := fun i =>
  if i = o then UInt8.ofNat value
  else if i = o + 1 then UInt8.ofNat (value / 256)
  else if i = o + 2 then UInt8.ofNat (value / 65536)
  else if i = o + 3 then UInt8.ofNat (value / 16777216)
  else p i

/-- `memcpy(p + o, src, n)`. -/
def copyAt (p : Sector) (o n : Nat) (src : Nat → UInt8) : Sector := fun i =>
  if o ≤ i ∧ i < o + n then src (i - o) else p i

/-- Bytes `32 * i` to `32 * i + 31` of a directory sector, as an entry of its own. -/
abbrev Dirent := Nat → UInt8

def dirent (s : Sector) (i : Nat) : Dirent := fun j => if j < 32 then s (32 * i + j) else 0

namespace Dirent

/-- `entry->name`, all eleven bytes. -/
def name (e : Dirent) : List UInt8 := (List.range 11).map e

def attr (e : Dirent) : UInt8 := e 11

def size (e : Dirent) : Nat := rd32 e 28

end Dirent

def firstCluster (e : Dirent) : Nat := rd16 e 20 * 65536 + rd16 e 26

/-! ## The driver -/

inductive Access where
  | read (lba : Nat) (ok : Bool)
  | write (lba : Nat) (ok : Bool)
  deriving DecidableEq

structure Fs where
  disk : Disk
  /-- The static `sector` buffer. -/
  sector : Sector
  /-- Whether each coming access is refused; accesses past the end of the list succeed. -/
  faults : List Bool
  /-- The accesses issued, the latest first. -/
  trace : List Access
  /-- What `find_free_cluster` returned so far, the latest first. -/
  granted : List (Nat × Disk)

/-- `ata_read_sector(lba, sector)`. -/
def ataReadSector (lba : Nat) : Prog Fs Bool := do
  if lba ≥ 0x10000000 then return false
  let s ← get
  if s.faults.headD false then
    set { s with faults := s.faults.tail, trace := .read lba false :: s.trace }
    return false
  set { s with
    sector := s.disk lba
    faults := s.faults.tail
    trace := .read lba true :: s.trace }
  return true

/-- `ata_write_sector(lba, sector)`. -/
def ataWriteSector (lba : Nat) : Prog Fs Bool := do
  if lba ≥ 0x10000000 then return false
  let s ← get
  if s.faults.headD false then
    set { s with faults := s.faults.tail, trace := .write lba false :: s.trace }
    return false
  set { s with
    disk := fun x => if x = lba then s.sector else s.disk x
    faults := s.faults.tail
    trace := .write lba true :: s.trace }
  return true

/-- A write into the shared buffer. -/
def modifySector (f : Sector → Sector) : Prog Fs Unit :=
  modify fun s => { s with sector := f s.sector }

/-! ## The volume -/

/-- The fields of `fat32_bpb_t` that the file system reads, each in the range of its type. -/
structure Bpb where
  bytesPerSector : Nat
  sectorsPerCluster : Nat
  reservedSectorCount : Nat
  fatCount : Nat
  totalSectors16 : Nat
  totalSectors32 : Nat
  fatSize32 : Nat
  rootCluster : Nat
  bytesPerSector_lt : bytesPerSector < 65536
  sectorsPerCluster_lt : sectorsPerCluster < 256
  reservedSectorCount_lt : reservedSectorCount < 65536
  fatCount_lt : fatCount < 256
  totalSectors16_lt : totalSectors16 < 65536
  totalSectors32_lt : totalSectors32 < 4294967296
  fatSize32_lt : fatSize32 < 4294967296
  rootCluster_lt : rootCluster < 4294967296

/-- The statics `bpb`, `fat_start_lba`, `data_start_lba` and `mounted`: only `fs_init` sets them. -/
structure Mount where
  bpb : Bpb
  fatStartLba : Nat
  dataStartLba : Nat
  mounted : Bool

variable (m : Mount)

def clusterToLba (cluster : Nat) : Nat :=
  u32 (m.dataStartLba + u32 (cluster + 4294967294) * m.bpb.sectorsPerCluster)

def totalSectors : Nat :=
  if m.bpb.totalSectors32 = 0 then m.bpb.totalSectors16 else m.bpb.totalSectors32

def bytesPerCluster : Nat := m.bpb.sectorsPerCluster * sectorSize

/-- `max_cluster`, as `find_free_cluster` and `free_cluster_chain` compute it once
`total > data_start_lba`. -/
def maxCluster : Nat :=
  u32 ((totalSectors m - m.dataStartLba) / m.bpb.sectorsPerCluster + 2)

end MinervaOS.Fat32
