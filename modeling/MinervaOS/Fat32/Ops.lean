import MinervaOS.Fat32.Names

/-!
# The file-system calls

Each definition follows the function of its name. A loop bounded by its own counter recurses on
what is left of it; a loop over a cluster chain that the source does not bound takes a step
allowance, and running out of it is a run that never returns: `rootSteps` exceeds the number of
values a masked FAT entry has, so a walk of the root directory that takes it all revisits a cluster
and goes on for ever.
-/

namespace MinervaOS.Fat32

variable (m : Mount)

/-! ## FAT entries -/

def nextCluster (cluster : Nat) : Prog Fs Nat := do
  let fatOffset := u32 (cluster * 4)
  if !(← ataReadSector (u32 (m.fatStartLba + fatOffset / sectorSize))) then return fat32Eoc
  return rd32 (← get).sector (fatOffset % sectorSize) % 268435456

def readFatEntry (cluster : Nat) : Prog Fs (Option Nat) := do
  let fatOffset := u32 (cluster * 4)
  if !(← ataReadSector (u32 (m.fatStartLba + fatOffset / sectorSize))) then return none
  return some (rd32 (← get).sector (fatOffset % sectorSize) % 268435456)

/-- The rest of the loop over the FAT copies, from copy `fat` on, `n` copies left. -/
def writeFatCopies (cluster value : Nat) : Nat → Nat → Prog Fs Bool
  | 0, _ => return true
  | n + 1, fat => do
    let fatOffset := u32 (cluster * 4)
    let fatSector := u32 (m.fatStartLba + fat * m.bpb.fatSize32 + fatOffset / sectorSize)
    if !(← ataReadSector fatSector) then return false
    modifySector fun sec => wr32 sec (fatOffset % sectorSize) value
    if !(← ataWriteSector fatSector) then return false
    writeFatCopies cluster value n (fat + 1)

def writeFatEntry (cluster value : Nat) : Prog Fs Bool :=
  writeFatCopies m cluster value m.bpb.fatCount 0

/-! ## The root directory -/

def validFileEntry (e : Dirent) : Bool :=
  !(e 0 == 0x00 || e 0 == 0xE5) && !(e.attr == 0x0F) && e.attr &&& 0x08 == 0

/-- What a look at a slot, a sector or a cluster of the directory ends in: `return 0`, a slot
found, or the next one to look at. -/
inductive Scan (α : Type) where
  | stop
  | hit (a : α)
  | next
  deriving DecidableEq

/-- The slots of one sector, looked at in turn. -/
def scanSlots (look : Dirent → Scan Unit) (sec : Sector) : List Nat → Scan Nat
  | [] => .next
  | i :: is =>
    match look (dirent sec i) with
    | .stop => .stop
    | .hit _ => .hit i
    | .next => scanSlots look sec is

/-- The sectors of one cluster from sector `s` on, `n` left; a found slot comes with its sector. -/
def scanSectors (look : Dirent → Scan Unit) (cluster : Nat) :
    Nat → Nat → Prog Fs (Scan (Nat × Nat))
  | 0, _ => return .next
  | n + 1, s => do
    let lba := u32 (clusterToLba m cluster + s)
    if !(← ataReadSector lba) then return .stop
    match scanSlots look (← get).sector (List.range 16) with
    | .stop => return .stop
    | .hit i => return .hit (lba, i)
    | .next => scanSectors look cluster n (s + 1)

/-- `while (cluster < FAT32_EOC)`, over the clusters of the root directory. -/
def scanRoot (look : Dirent → Scan Unit) : Nat → Nat → Prog Fs (Option (Nat × Nat))
  | 0, _ => failure
  | steps + 1, cluster => do
    if cluster ≥ fat32Eoc then return none
    match ← scanSectors m look cluster m.bpb.sectorsPerCluster 0 with
    | .stop => return none
    | .hit p => return some p
    | .next => scanRoot look steps (← nextCluster m cluster)

/-- More steps than there are FAT values. -/
def rootSteps : Nat := 268435458

/-- The loop body of `find_root_entry` and `find_root_entry_at`. -/
def lookFor (target : List UInt8) (e : Dirent) : Scan Unit :=
  if e 0 == 0x00 then .stop
  else if !validFileEntry e then .next
  else if e.name == target then .hit () else .next

structure Found where
  entry : Dirent
  lba : Nat
  index : Nat

def findRootEntryAt (name : List UInt8) : Prog Fs (Option Found) := do
  match ← scanRoot m (lookFor (makeShortName name)) rootSteps m.bpb.rootCluster with
  | none => return none
  | some (lba, i) => return some ⟨dirent (← get).sector i, lba, i⟩

def findRootEntry (name : List UInt8) : Prog Fs (Option Dirent) := do
  match ← findRootEntryAt m name with
  | none => return none
  | some f => return some f.entry

/-- The slots of one sector as `fs_list_root` takes them: what it calls back, and whether the
directory ended. -/
def listSlots (sec : Sector) : List Nat → List (List UInt8 × Nat) × Bool
  | [] => ([], false)
  | i :: is =>
    let e := dirent sec i
    if e 0 == 0x00 then ([], true)
    else if !validFileEntry e then listSlots sec is
    else
      let (calls, ended) := listSlots sec is
      ((shortNameToString e.name, e.size) :: calls, ended)

/-- The sectors of one cluster from `s` on, `n` left; `none` for a refused read. -/
def listSectors (cluster : Nat) : Nat → Nat → Prog Fs (Option (List (List UInt8 × Nat) × Bool))
  | 0, _ => return some ([], false)
  | n + 1, s => do
    if !(← ataReadSector (u32 (clusterToLba m cluster + s))) then return none
    let (calls, ended) := listSlots (← get).sector (List.range 16)
    if ended then return some (calls, true)
    let some (calls', ended') ← listSectors cluster n (s + 1) | return none
    return some (calls ++ calls', ended')

def listRoot : Nat → Nat → Prog Fs (Option (List (List UInt8 × Nat)))
  | 0, _ => failure
  | steps + 1, cluster => do
    if cluster ≥ fat32Eoc then return some []
    let some (calls, ended) ← listSectors m cluster m.bpb.sectorsPerCluster 0 | return none
    if ended then return some calls
    let some calls' ← listRoot steps (← nextCluster m cluster) | return none
    return some (calls ++ calls')

/-- `fs_list_root` with a callback that collects its arguments; `none` is a returned 0. -/
def fsListRoot : Prog Fs (Option (List (List UInt8 × Nat))) := do
  if !m.mounted then return none
  listRoot m rootSteps m.bpb.rootCluster

/-! ## Clusters -/

/-- The loop of `find_free_cluster` from `cluster` on, `n` clusters left. -/
def findFreeFrom : Nat → Nat → Prog Fs (Option Nat)
  | 0, _ => return none
  | n + 1, cluster => do
    match ← readFatEntry m cluster with
    | none => return none
    | some value =>
      if value = 0 then
        modify fun s => { s with granted := (cluster, s.disk) :: s.granted }
        return some cluster
      findFreeFrom n (cluster + 1)

def findFreeCluster : Prog Fs (Option Nat) := do
  if totalSectors m ≤ m.dataStartLba then return none
  findFreeFrom m (maxCluster m - 2) 2

/-- The loop of `free_cluster_chain`, with `left` visits before `visited >= max_cluster`. -/
def freeFrom : Nat → Nat → Prog Fs Bool
  | left, cluster => do
    if !(cluster ≥ 2 && cluster < fat32Eoc) then return true
    if cluster ≥ maxCluster m then return false
    match left with
    | 0 => return false
    | left + 1 =>
      match ← readFatEntry m cluster with
      | none => return false
      | some next =>
        if !(← writeFatEntry m cluster 0) then return false
        freeFrom left next

def freeClusterChain (first : Nat) : Prog Fs Bool := do
  if totalSectors m ≤ m.dataStartLba then return false
  freeFrom m (maxCluster m) first

def clusterIsSingle (cluster : Nat) : Prog Fs Bool := do
  if cluster < 2 then return false
  match ← readFatEntry m cluster with
  | none => return false
  | some next => return decide (next ≥ fat32Eoc)

/-- The sectors of `write_buffer_to_cluster` from `s` on, `n` left, `written` bytes done. -/
def writeSectors (cluster : Nat) (buffer : Nat → UInt8) (size : Nat) :
    Nat → Nat → Nat → Prog Fs Bool
  | 0, _, _ => return true
  | n + 1, s, written => do
    let toCopy := min (size - written) sectorSize
    modifySector fun _ => copyAt (fun _ => 0) 0 toCopy fun i => buffer (written + i)
    if !(← ataWriteSector (u32 (clusterToLba m cluster + s))) then return false
    writeSectors cluster buffer size n (s + 1) (written + toCopy)

def writeBufferToCluster (cluster : Nat) (buffer : Nat → UInt8) (size : Nat) : Prog Fs Bool :=
  writeSectors m cluster buffer size m.bpb.sectorsPerCluster 0 0

/-! ## The calls -/

/-- A `const char *name` argument, the terminator left out; `none` is a null pointer. -/
abbrev NameArg := Option (List UInt8)

/-- A `const uint8_t *buffer` argument; `none` is a null pointer. -/
abbrev BufferArg := Option (Nat → UInt8)

/-- `fs_create`'s loop body: the first slot that is free or past the end. -/
def lookForFree (e : Dirent) : Scan Unit :=
  if e 0 == 0x00 || e 0 == 0xE5 then .hit () else .next

/-- The entry `fs_create` writes. -/
def newDirent (shortName : List UInt8) : Dirent := fun j =>
  if j < 11 then shortName.getD j 0 else if j = 11 then 0x20 else 0

/-- The edit of one 32-byte slot of the buffer. -/
def setDirent (sec : Sector) (i : Nat) (e : Dirent) : Sector := copyAt sec (32 * i) 32 e

def fsCreate (name : NameArg) : Prog Fs Bool := do
  let some name := name | return false
  if !m.mounted then return false
  let some shortName := makeShortNameChecked name | return false
  if (← findRootEntry m name).isSome then return false
  match ← scanRoot m lookForFree rootSteps m.bpb.rootCluster with
  | none => return false
  | some (lba, i) =>
    modifySector fun sec => setDirent sec i (newDirent shortName)
    ataWriteSector lba

/-- The first cluster written into slot `i`. -/
def setCluster (sec : Sector) (i cluster : Nat) : Sector :=
  wr16 (wr16 sec (32 * i + 20) (cluster / 65536)) (32 * i + 26) (cluster % 65536)

/-- The size written into slot `i`. -/
def setSize (sec : Sector) (i size : Nat) : Sector := wr32 sec (32 * i + 28) size

def fsWriteFile (name : NameArg) (buffer : BufferArg) (size : UInt32) : Prog Fs Bool := do
  let some name := name | return false
  if !m.mounted || (buffer.isNone && size > 0) then return false
  let some _ := makeShortNameChecked name | return false
  if size.toNat > bytesPerCluster m then return false
  let some f ← findRootEntryAt m name | return false
  if f.entry.attr &&& 0x10 != 0 then return false
  if size = 0 then return true
  let bytes := buffer.getD fun _ => 0
  let commit (target : Nat) : Prog Fs Bool := do
    if !(← ataReadSector f.lba) then return false
    modifySector fun sec => setSize (setCluster sec f.index target) f.index size.toNat
    ataWriteSector f.lba
  if firstCluster f.entry = 0 then
    if f.entry.size != 0 then return false
    let some target ← findFreeCluster m | return false
    if !(← writeBufferToCluster m target bytes size.toNat) then return false
    if !(← writeFatEntry m target fat32EocMark) then return false
    commit target
  else
    if !(← clusterIsSingle m (firstCluster f.entry)) then return false
    if !(← writeBufferToCluster m (firstCluster f.entry) bytes size.toNat) then return false
    commit (firstCluster f.entry)

/-- `while (offset_in_cluster > bytes_per_cluster)`: the walk to the cluster of the file's end. -/
def appendSeek : Nat → Nat → Nat → Prog Fs (Option (Nat × Nat))
  | steps, cluster, offset => do
    if offset ≤ bytesPerCluster m then return some (cluster, offset)
    match steps with
    | 0 => failure
    | steps + 1 =>
      let next ← nextCluster m cluster
      if next ≥ fat32Eoc then return none
      appendSeek steps next (offset - bytesPerCluster m)

/-- The loop that fills the tail cluster; it ends in what is written. -/
def appendFill (cluster : Nat) (buffer : Nat → UInt8) (size : Nat) :
    Nat → Nat → Nat → Prog Fs (Option Nat)
  | steps, written, offset => do
    if !(written < size && offset < bytesPerCluster m) then return some written
    match steps with
    | 0 => failure
    | steps + 1 =>
      let sectorIndex := offset / sectorSize % 256
      let byteOffset := offset % sectorSize
      let lba := u32 (clusterToLba m cluster + sectorIndex)
      if !(← ataReadSector lba) then return none
      let toCopy := min (sectorSize - byteOffset) (size - written)
      modifySector fun sec => copyAt sec byteOffset toCopy fun i => buffer (written + i)
      if !(← ataWriteSector lba) then return none
      appendFill cluster buffer size steps (written + toCopy) (offset + toCopy)

/-- The loop that links new clusters behind `cluster` while bytes remain. -/
def appendGrow (buffer : Nat → UInt8) (size : Nat) : Nat → Nat → Nat → Prog Fs Bool
  | steps, cluster, written => do
    if written ≥ size then return true
    match steps with
    | 0 => failure
    | steps + 1 =>
      let some new ← findFreeCluster m | return false
      let toCopy := min (size - written) (bytesPerCluster m)
      if !(← writeBufferToCluster m new (fun i => buffer (written + i)) toCopy) then return false
      if !(← writeFatEntry m new fat32EocMark) then return false
      if !(← writeFatEntry m cluster new) then return false
      appendGrow buffer size steps new (written + toCopy)

def fsAppendFile (name : NameArg) (buffer : BufferArg) (size : UInt32) : Prog Fs Bool := do
  let some name := name | return false
  if !m.mounted || (buffer.isNone && size > 0) then return false
  if size = 0 then return true
  let some _ := makeShortNameChecked name | return false
  let some f ← findRootEntryAt m name | return false
  if f.entry.attr &&& 0x10 != 0 then return false
  let oldSize := f.entry.size
  let newSize := u32 (oldSize + size.toNat)
  if firstCluster f.entry < 2 || newSize < oldSize then return false
  let some (cluster, offset) ← appendSeek m oldSize (firstCluster f.entry) oldSize | return false
  let some tailNext ← readFatEntry m cluster | return false
  if tailNext < fat32Eoc then return false
  let bytes := buffer.getD fun _ => 0
  let some written ← appendFill m cluster bytes size.toNat size.toNat 0 offset | return false
  if !(← appendGrow m bytes size.toNat size.toNat cluster written) then return false
  if !(← ataReadSector f.lba) then return false
  modifySector fun sec => setSize sec f.index newSize
  ataWriteSector f.lba

def fsTruncateFile (name : NameArg) : Prog Fs Bool := do
  let some name := name | return false
  if !m.mounted then return false
  let some _ := makeShortNameChecked name | return false
  let some f ← findRootEntryAt m name | return false
  if f.entry.attr &&& 0x10 != 0 then return false
  if firstCluster f.entry ≥ 2 then
    if !(← freeClusterChain m (firstCluster f.entry)) then return false
  if !(← ataReadSector f.lba) then return false
  modifySector fun sec => setSize (setCluster sec f.index 0) f.index 0
  ataWriteSector f.lba

def fsWriteCreate : UInt32 := 0x01
def fsWriteTruncate : UInt32 := 0x02
def fsWriteAppend : UInt32 := 0x04
def fsWriteExcl : UInt32 := 0x08

/-- `fs_write` up to its choice between truncating, appending and overwriting: the checks, the
lookup, and the creation of a file that is not there. -/
def fsWriteOpen (name : NameArg) (buffer : BufferArg) (size flags : UInt32) : Prog Fs Bool := do
  let some path := name | return false
  if !m.mounted || (buffer.isNone && size > 0) then return false
  if flags &&& fsWriteAppend != 0 && flags &&& fsWriteTruncate != 0 then return false
  let some _ := makeShortNameChecked path | return false
  match ← findRootEntryAt m path with
  | some f =>
    if f.entry.attr &&& 0x10 != 0 then return false
    if flags &&& fsWriteExcl != 0 then return false
    return true
  | none =>
    if flags &&& fsWriteCreate == 0 then return false
    fsCreate m name

def fsWrite (name : NameArg) (buffer : BufferArg) (size flags : UInt32) : Prog Fs Bool := do
  let some path := name | return false
  if !(← fsWriteOpen m name buffer size flags) then return false
  if flags &&& fsWriteTruncate != 0 then
    if !(← fsTruncateFile m name) then return false
    if size = 0 then return true
    return ← fsWriteFile m name buffer size
  if flags &&& fsWriteAppend != 0 then
    if size = 0 then return true
    let some current ← findRootEntryAt m path | return false
    if firstCluster current.entry = 0 then return ← fsWriteFile m name buffer size
    return ← fsAppendFile m name buffer size
  fsWriteFile m name buffer size

/-- `memset` to zero, then `0xE5` as the first byte. -/
def deletedDirent : Dirent := fun j => if j = 0 then 0xE5 else 0

def fsDeleteFile (name : NameArg) : Prog Fs Bool := do
  let some name := name | return false
  if !m.mounted then return false
  let some _ := makeShortNameChecked name | return false
  let some f ← findRootEntryAt m name | return false
  if f.entry.attr &&& 0x10 != 0 then return false
  if firstCluster f.entry ≥ 2 then
    if !(← freeClusterChain m (firstCluster f.entry)) then return false
  if !(← ataReadSector f.lba) then return false
  modifySector fun sec => setDirent sec f.index deletedDirent
  ataWriteSector f.lba

/-- The eleven name bytes written into slot `i`. -/
def setName (sec : Sector) (i : Nat) (shortName : List UInt8) : Sector :=
  copyAt sec (32 * i) 11 fun j => shortName.getD j 0

def fsRenameFile (oldName newName : NameArg) : Prog Fs Bool := do
  let some old := oldName | return false
  let some new := newName | return false
  if !m.mounted then return false
  let some newShortName := makeShortNameChecked new | return false
  let some f ← findRootEntryAt m old | return false
  if f.entry.attr &&& 0x10 != 0 then return false
  if (← findRootEntry m new).isSome then return false
  if !(← ataReadSector f.lba) then return false
  modifySector fun sec => setName sec f.index newShortName
  ataWriteSector f.lba

end MinervaOS.Fat32
