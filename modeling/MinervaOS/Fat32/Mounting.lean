import MinervaOS.Fat32.Access

/-!
# Mounting a volume

`fs_init` reads the boot sector into `bpb` and accepts it or not. What it accepts may have any
geometry: it checks neither that the FAT has room for the clusters nor where the root directory is.
-/

namespace MinervaOS.Fat32

open Prog

/-- `memcpy(&bpb, sector, sizeof(bpb))`. -/
def bpbOf (sec : Sector) : Bpb where
  bytesPerSector := rd16 sec 11
  sectorsPerCluster := (sec 13).toNat
  reservedSectorCount := rd16 sec 14
  fatCount := (sec 16).toNat
  totalSectors16 := rd16 sec 19
  totalSectors32 := rd32 sec 32
  fatSize32 := rd32 sec 36
  rootCluster := rd32 sec 44
  bytesPerSector_lt := rd16_lt sec 11
  sectorsPerCluster_lt := (sec 13).toNat_lt
  reservedSectorCount_lt := rd16_lt sec 14
  fatCount_lt := (sec 16).toNat_lt
  totalSectors16_lt := rd16_lt sec 19
  totalSectors32_lt := rd32_lt sec 32
  fatSize32_lt := rd32_lt sec 36
  rootCluster_lt := rd32_lt sec 44

/-- The statics once `bpb` is accepted. -/
def mountOf (bpb : Bpb) : Mount where
  bpb := bpb
  fatStartLba := bpb.reservedSectorCount
  dataStartLba := u32 (bpb.reservedSectorCount + bpb.fatCount * bpb.fatSize32)
  mounted := true

/-- The checks of `fs_init`. -/
def acceptsBpb (sec : Sector) : Bool :=
  (bpbOf sec).bytesPerSector == sectorSize && (bpbOf sec).sectorsPerCluster != 0 &&
    !((bpbOf sec).fatCount == 0 || (bpbOf sec).fatSize32 == 0) &&
    !(sec 510 != 0x55 || sec 511 != 0xAA)

/-- `none` is a returned 0, with `mounted` cleared. -/
def fsInit : Prog Fs (Option Mount) := do
  if !(← ataReadSector 0) then return none
  let sector := (← get).sector
  if !acceptsBpb sector then return none
  return some (mountOf (bpbOf sector))

end MinervaOS.Fat32
