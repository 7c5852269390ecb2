import MinervaOS.Apps.Buffers
import MinervaOS.Fat32.WriteModes

/-!
# The image viewer

The viewer reads a file into its buffer and takes the pixels from where the header says that they
are. The end of the pixels is computed in 32 bits. Where the exact end is beyond `2^32` and what is
left of it is within the file, the header is accepted and the loop reads far outside of the buffer;
no other file makes it do so.
-/

namespace MinervaOS.Apps

open Fat32 Prog Reader

/-- `IMAGE_VIEW_MAX_W`. -/
def imageViewMaxW : Nat := 32
/-- `IMAGE_VIEW_MAX_H`. -/
def imageViewMaxH : Nat := 24
/-- `sizeof(viewer_file_buffer)`. -/
def viewerFileSize : Nat := 1024

inductive ViewerStatus where
  /-- `NO FS` -/
  | noFs
  /-- `MISSING` -/
  | missing
  /-- `READY` -/
  | ready
  /-- `TOO SMALL` -/
  | tooSmall
  /-- `TOO BIG` -/
  | tooBig
  /-- `NOT BMP` -/
  | notBmp
  /-- `UNSUP` -/
  | unsup
  /-- `BAD BMP` -/
  | badBmp
  /-- `BMP24` -/
  | bmp24
  deriving DecidableEq

/-- `image_viewer_t` without its window. -/
structure ImageViewer where
  filename : List UInt8
  status : ViewerStatus
  /-- The colour in a row and a column. -/
  pixels : Nat → Nat → UInt32
  imageWidth : UInt32
  imageHeight : UInt32
  fileSize : Nat
  hasFile : Bool
  hasImage : Bool

/-- The palette entry that is near a colour. -/
def graphicsRgb (r g b : UInt8) : UInt32 :=
  if r < 85 && g < 85 && b < 85 then 0
  else if r > 170 && g < 85 && b < 85 then 4
  else if r < 85 && g > 170 && b < 85 then 2
  else if r > 170 && g > 170 && b < 85 then 6
  else if r < 85 && g < 85 && b > 170 then 1
  else if r > 170 && g < 85 && b > 170 then 5
  else if r < 85 && g > 170 && b > 170 then 3
  else if r > 170 && g > 170 && b > 170 then 15
  else 7

/-- The fields of a header that the viewer looks at. -/
structure BmpHeader where
  pixelOffset : UInt32
  dibSize : UInt32
  /-- As it is in the file; from `2^31` on it is negative. -/
  widthSigned : UInt32
  heightSigned : UInt32
  planes : UInt16
  bpp : UInt16
  compression : UInt32

namespace BmpHeader

/-- An `int32_t` below zero. -/
def negative (v : UInt32) : Bool := v ≥ 0x80000000

def unsupported (h : BmpHeader) : Bool :=
  h.dibSize < 40 || h.planes != 1 || h.bpp != 24 || h.compression != 0 ||
    (negative h.widthSigned || h.widthSigned == 0) || h.heightSigned == 0

def width (h : BmpHeader) : UInt32 := h.widthSigned

def height (h : BmpHeader) : UInt32 :=
  if negative h.heightSigned then -h.heightSigned else h.heightSigned

def tooLarge (h : BmpHeader) : Bool :=
  h.width.toNat > imageViewMaxW || h.height.toNat > imageViewMaxH

def rowStride (h : BmpHeader) : UInt32 := ((h.width * 3 + 3) / 4) * 4

/-- `pixel_end`, in 32 bits. -/
def pixelEnd (h : BmpHeader) : UInt32 := h.pixelOffset + h.rowStride * h.height

/-- Rows of a height above zero are stored bottom up. -/
def srcY (h : BmpHeader) (y : UInt32) : UInt32 :=
  if negative h.heightSigned then y else h.height - 1 - y

end BmpHeader

def readHeader : Reader ImageViewer BmpHeader := do
  let pixelOffset ← rd32 10
  let dibSize ← rd32 14
  let widthSigned ← rd32 18
  let heightSigned ← rd32 22
  let planes ← rd16 26
  let bpp ← rd16 28
  let compression ← rd32 30
  return { pixelOffset, dibSize, widthSigned, heightSigned, planes, bpp, compression }

def setStatus (status : ViewerStatus) : Reader ImageViewer Unit :=
  write fun v => { v with status := status }

/-- The body of the loops over the rows and the columns. -/
def readPixel (h : BmpHeader) (y x : Nat) : Reader ImageViewer Unit := do
  let offset := h.pixelOffset + h.srcY (.ofNat y) * h.rowStride + .ofNat x * 3
  let b ← byte (offset + 0)
  let g ← byte (offset + 1)
  let r ← byte (offset + 2)
  write fun v => { v with
    pixels := fun y' x' => if y' = y ∧ x' = x then graphicsRgb r g b else v.pixels y' x' }

def readPixels (h : BmpHeader) : Reader ImageViewer Unit :=
  forM (List.range h.height.toNat) fun y => forM (List.range h.width.toNat) fun x => readPixel h y x

/-- What `viewer_probe_file` does with the buffer, of which `read` bytes are from the file. -/
def viewerProbeBytes (read : Nat) : Reader ImageViewer Unit := do
  let viewer ← fields
  if read < viewer.fileSize || read < 54 then
    setStatus (if read < 54 then .tooSmall else .tooBig)
  else if !(← tagEq 0 [0x42, 0x4D]) then setStatus .notBmp
  else
    let h ← readHeader
    if h.unsupported then setStatus .unsup
    else if h.tooLarge then setStatus .tooBig
    else if h.pixelOffset < 54 || h.pixelEnd.toNat > read then setStatus .badBmp
    else
      readPixels h
      write fun v => { v with
        imageWidth := h.width, imageHeight := h.height, hasImage := true, status := .bmp24 }

def viewerProbeFile (m : Mount) (viewer : ImageViewer) (fileBuffer : Nat → UInt8) :
    Prog Fs (Probe ImageViewer Unit) := do
  let viewer := { viewer with
    fileSize := 0, hasFile := false, hasImage := false, imageWidth := 0, imageHeight := 0 }
  if !m.mounted then return .unread () { viewer with status := .noFs }
  match ← fsOpen m (some viewer.filename) with
  | none => return .unread () { viewer with status := .missing }
  | some file =>
    let viewer := { viewer with fileSize := fsFileSize file, hasFile := true, status := .ready }
    let (read, file, buffer) ← fsRead m file (some fileBuffer) viewerFileSize
    let _ := fsClose file
    return ⟨(viewerProbeBytes read).run (bufferMemory buffer) viewer, bufferMemory buffer, read,
      viewer.fileSize⟩

/-! ## What a header says -/

namespace BmpHeader

/-- The header in a buffer. -/
def of (mem : Memory) : BmpHeader where
  pixelOffset := num32 mem 10
  dibSize := num32 mem 14
  widthSigned := num32 mem 18
  heightSigned := num32 mem 22
  planes := num16 mem 26
  bpp := num16 mem 28
  compression := num32 mem 30

/-- The bytes of the pixels, rows filled up to a multiple of four bytes; in exact arithmetic. -/
def area (h : BmpHeader) : Nat := (h.width.toNat * 3 + 3) / 4 * 4 * h.height.toNat

variable {h : BmpHeader}

theorem le_max (hsize : h.tooLarge = false) : h.width.toNat ≤ 32 ∧ h.height.toNat ≤ 24 := by
  simpa [tooLarge, imageViewMaxW, imageViewMaxH] using hsize

theorem toNat_rowStride (hsize : h.tooLarge = false) :
    h.rowStride.toNat = (h.width.toNat * 3 + 3) / 4 * 4 := by
  have hmax := le_max hsize
  have hmul : (h.width * 3).toNat = h.width.toNat * 3 :=
    (UInt32.toNat_mul ..).trans (Nat.mod_eq_of_lt (show h.width.toNat * 3 < 2 ^ 32 by omega))
  have hadd : (h.width * 3 + 3).toNat = h.width.toNat * 3 + 3 := by
    rw [UInt32.toNat_add, hmul]
    exact Nat.mod_eq_of_lt (show h.width.toNat * 3 + 3 < 2 ^ 32 by omega)
  rw [rowStride, UInt32.toNat_mul, UInt32.toNat_div, hadd]
  exact Nat.mod_eq_of_lt (show (h.width.toNat * 3 + 3) / 4 * 4 < 2 ^ 32 by omega)

theorem area_le (hsize : h.tooLarge = false) : h.area ≤ 2304 := by
  have hmax := le_max hsize
  calc h.area ≤ 96 * 24 := Nat.mul_le_mul (by omega) hmax.2
    _ = 2304 := rfl

theorem toNat_pixelEnd (hsize : h.tooLarge = false) :
    h.pixelEnd.toNat = (h.pixelOffset.toNat + h.area) % 2 ^ 32 := by
  have harea := area_le hsize
  have hmul : (h.rowStride * h.height).toNat = h.area := by
    rw [UInt32.toNat_mul, toNat_rowStride hsize]
    exact Nat.mod_eq_of_lt (Nat.lt_of_le_of_lt harea (by decide))
  rw [pixelEnd, UInt32.toNat_add, hmul]

theorem pos_of_supported (hsup : h.unsupported = false) :
    0 < h.width.toNat ∧ 0 < h.height.toNat := by
  simp only [unsupported, Bool.or_eq_false_iff, beq_eq_false_iff_ne, ne_eq] at hsup
  obtain ⟨⟨-, -, hw⟩, hh⟩ := hsup
  have hwidth : h.width ≠ 0 := hw
  have hheight : h.height ≠ 0 := by
    unfold height
    split_ifs with hneg
    · exact UInt32.neg_ne_zero.2 hh
    · exact hh
  rw [ne_eq, ← UInt32.toNat_inj] at hwidth hheight
  exact ⟨Nat.pos_of_ne_zero hwidth, Nat.pos_of_ne_zero hheight⟩

theorem srcY_lt {y : Nat} (hsize : h.tooLarge = false) (hy : y < h.height.toNat) :
    (h.srcY (.ofNat y)).toNat + 1 ≤ h.height.toNat := by
  have hmax := le_max hsize
  have hy' : (UInt32.ofNat y).toNat = y :=
    UInt32.toNat_ofNat_of_lt' (Nat.lt_of_lt_of_le hy (Nat.le_trans hmax.2 (by decide)))
  unfold srcY
  split_ifs with hneg
  · omega
  · have hone : (1 : UInt32) ≤ h.height := by
      rw [UInt32.le_iff_toNat_le, UInt32.toNat_one]
      omega
    have hsub : (h.height - 1).toNat = h.height.toNat - 1 := UInt32.toNat_sub_of_le _ _ hone
    have hle : UInt32.ofNat y ≤ h.height - 1 := by
      rw [UInt32.le_iff_toNat_le, hsub, hy']
      omega
    rw [UInt32.toNat_sub_of_le _ _ hle, hsub, hy']
    omega

/-- Some pass of the loop is over the row that is stored first. -/
theorem exists_srcY_zero (hpos : 0 < h.height.toNat) :
    ∃ y ∈ List.range h.height.toNat, h.srcY (.ofNat y) = 0 := by
  unfold srcY
  split_ifs with hneg
  · exact ⟨0, List.mem_range.2 hpos, rfl⟩
  · refine ⟨h.height.toNat - 1, List.mem_range.2 (by omega), ?_⟩
    have hone : (1 : UInt32) ≤ h.height := by
      rw [UInt32.le_iff_toNat_le, UInt32.toNat_one]
      omega
    have hlast : UInt32.ofNat (h.height.toNat - 1) = h.height - 1 := by
      rw [← UInt32.toNat_inj, UInt32.toNat_sub_of_le _ _ hone]
      exact UInt32.toNat_ofNat_of_lt' (Nat.lt_of_le_of_lt (Nat.sub_le _ _) h.height.toNat_lt)
    rw [hlast, UInt32.sub_self]

end BmpHeader

/-- The file has a header that passes every check before the last, and the exact end of its pixels
is beyond `2^32` by no more than the file has. -/
def Wraps (mem : Memory) (read fileSize : Nat) : Prop :=
  fileSize ≤ read ∧ 54 ≤ read ∧ hasTag mem 0 [0x42, 0x4D] = true ∧
    (BmpHeader.of mem).unsupported = false ∧ (BmpHeader.of mem).tooLarge = false ∧
    2 ^ 32 ≤ (BmpHeader.of mem).pixelOffset.toNat + (BmpHeader.of mem).area ∧
    (BmpHeader.of mem).pixelOffset.toNat + (BmpHeader.of mem).area - 2 ^ 32 ≤ read

/-- Nothing was read beyond the bytes of the file, nothing written outside of the array of pixels,
and an image is there only where its pixels are all in the file. -/
structure SafeView (viewer : ImageViewer) (p : Probe ImageViewer Unit) : Prop where
  reads : p.outcome.touched ≤ p.read
  pixels : ∀ y x, ¬(y < imageViewMaxH ∧ x < imageViewMaxW) →
    p.outcome.fields.pixels y x = viewer.pixels y x
  contained : p.outcome.fields.hasImage = true →
    (BmpHeader.of p.buffer).pixelOffset.toNat + (BmpHeader.of p.buffer).area ≤ p.read

/-! ## The loops -/

section Bytes

variable {mem : Memory} {x : ImageViewer} {h : BmpHeader} {read n : Nat}

theorem ok_readHeader (hread : 54 ≤ n) :
    Ok readHeader mem x n fun a y => a = BmpHeader.of mem ∧ y = x := by
  refine Ok.bind (ok_rd32 (Nat.le_trans (by decide) hread)) fun _ y hb => ?_
  obtain ⟨rfl, rfl⟩ := hb
  refine Ok.bind (ok_rd32 (Nat.le_trans (by decide) hread)) fun _ y hb => ?_
  obtain ⟨rfl, rfl⟩ := hb
  refine Ok.bind (ok_rd32 (Nat.le_trans (by decide) hread)) fun _ y hb => ?_
  obtain ⟨rfl, rfl⟩ := hb
  refine Ok.bind (ok_rd32 (Nat.le_trans (by decide) hread)) fun _ y hb => ?_
  obtain ⟨rfl, rfl⟩ := hb
  refine Ok.bind (ok_rd16 (Nat.le_trans (by decide) hread)) fun _ y hb => ?_
  obtain ⟨rfl, rfl⟩ := hb
  refine Ok.bind (ok_rd16 (Nat.le_trans (by decide) hread)) fun _ y hb => ?_
  obtain ⟨rfl, rfl⟩ := hb
  refine Ok.bind (ok_rd32 (Nat.le_trans (by decide) hread)) fun _ y hb => ?_
  obtain ⟨rfl, rfl⟩ := hb
  exact Ok.pure ⟨rfl, rfl⟩

theorem returns_readHeader : Reader.Returns readHeader mem (BmpHeader.of mem) := fun _ => ⟨rfl, rfl⟩

/-- Outside of the array the pixels are those of before. -/
def Framed (x y : ImageViewer) : Prop :=
  ∀ r c, ¬(r < imageViewMaxH ∧ c < imageViewMaxW) → y.pixels r c = x.pixels r c

theorem ok_readPixel (hsize : h.tooLarge = false) (harea : h.pixelOffset.toNat + h.area ≤ n)
    {r c : Nat} (hr : r < h.height.toNat) (hc : c < h.width.toNat) (y : ImageViewer)
    (hy : Framed x y) :
    Ok (readPixel h r c) mem y n fun _ y' => Framed x y' := by
  have hmax := BmpHeader.le_max hsize
  have hc' : (UInt32.ofNat c).toNat = c :=
    UInt32.toNat_ofNat_of_lt' (Nat.lt_of_lt_of_le hc (Nat.le_trans hmax.1 (by decide)))
  have hrow : (h.srcY (.ofNat r)).toNat * h.rowStride.toNat + h.rowStride.toNat ≤ h.area := by
    rw [← Nat.succ_mul, BmpHeader.area, ← BmpHeader.toNat_rowStride hsize,
      Nat.mul_comm h.rowStride.toNat]
    exact Nat.mul_le_mul_right _ (BmpHeader.srcY_lt hsize hr)
  have hcol : c * 3 + 3 ≤ h.rowStride.toNat := by
    rw [BmpHeader.toNat_rowStride hsize]
    omega
  have hoffset :
      (h.pixelOffset + h.srcY (.ofNat r) * h.rowStride + .ofNat c * 3).toNat + 3 ≤ n := by
    have h₁ := toNat_add_le (h.pixelOffset + h.srcY (.ofNat r) * h.rowStride) (.ofNat c * 3)
    have h₂ := toNat_add_le h.pixelOffset (h.srcY (.ofNat r) * h.rowStride)
    have h₃ : (h.srcY (.ofNat r) * h.rowStride).toNat ≤ (h.srcY (.ofNat r)).toNat *
        h.rowStride.toNat := by
      rw [UInt32.toNat_mul]
      exact Nat.mod_le _ _
    have h₄ : (UInt32.ofNat c * 3).toNat ≤ c * 3 := by
      rw [UInt32.toNat_mul, hc']
      exact Nat.mod_le _ _
    omega
  unfold readPixel
  generalize h.pixelOffset + h.srcY (.ofNat r) * h.rowStride + .ofNat c * 3 = offset at hoffset
  have h₀ := toNat_add_le offset 0
  have h₁ := toNat_add_le offset 1
  have h₂ := toNat_add_le offset 2
  simp only [UInt32.reduceToNat] at h₀ h₁ h₂
  refine Ok.bind (Ok.byte (by omega)) fun _ y₁ hb => ?_
  obtain ⟨-, rfl⟩ := hb
  refine Ok.bind (Ok.byte (by omega)) fun _ y₂ hb => ?_
  obtain ⟨-, rfl⟩ := hb
  refine Ok.bind (Ok.byte (by omega)) fun _ y₃ hb => ?_
  obtain ⟨-, rfl⟩ := hb
  refine Ok.write.mono fun _ y' hy' r' c' hout => ?_
  subst hy'
  have hne : ¬(r' = r ∧ c' = c) := by
    unfold imageViewMaxH imageViewMaxW at hout
    omega
  simp only [if_neg hne]
  exact hy r' c' hout

theorem ok_readPixels (hsize : h.tooLarge = false) (harea : h.pixelOffset.toNat + h.area ≤ n) :
    Ok (readPixels h) mem x n fun _ y => Framed x y := by
  refine Ok.forM (fun r hr y hy => Ok.forM (fun c hc z hz => ?_) hy) fun _ _ _ => rfl
  exact ok_readPixel hsize harea (List.mem_range.1 hr) (List.mem_range.1 hc) z hz

/-- The pixel that is stored first is read at the offset of the header. -/
theorem touched_readPixels (hsup : h.unsupported = false) (hfar : n ≤ h.pixelOffset.toNat) :
    n < ((readPixels h).run mem x).touched := by
  obtain ⟨hwidth, hheight⟩ := BmpHeader.pos_of_supported hsup
  obtain ⟨r, hr, hsrc⟩ := BmpHeader.exists_srcY_zero hheight
  refine touched_forM hr fun y => touched_forM (List.mem_range.2 hwidth) fun z => ?_
  unfold readPixel
  have hoffset : h.pixelOffset + h.srcY (.ofNat r) * h.rowStride + .ofNat 0 * 3 + 0 =
      h.pixelOffset := by
    rw [hsrc]
    simp
  have hfirst : n < ((byte h.pixelOffset : Reader ImageViewer UInt8).run mem z).touched :=
    Nat.lt_succ_of_le hfar
  simp only [hoffset]
  exact Nat.lt_of_lt_of_le hfirst touched_le_bind

/-! ## The probe -/

/-- Where the end of the pixels does not wrap, the probe stays within the file. -/
theorem ok_viewerProbeBytes (hread : read < 2 ^ 32) (hno : ¬Wraps mem read x.fileSize)
    (himage : x.hasImage = false) :
    Ok (viewerProbeBytes read) mem x read fun _ y => Framed x y ∧ (y.hasImage = true →
      (BmpHeader.of mem).pixelOffset.toNat + (BmpHeader.of mem).area ≤ read) := by
  have hstatus : ∀ status, Ok (setStatus status) mem x read fun _ y => Framed x y ∧
    (y.hasImage = true →
      (BmpHeader.of mem).pixelOffset.toNat + (BmpHeader.of mem).area ≤ read) := by
    refine fun status => Ok.write.mono fun _ y hy => ?_
    subst hy
    exact ⟨fun _ _ _ => rfl, fun h => by simp [himage] at h⟩
  refine Ok.bind Ok.fields fun viewer y hy => ?_
  obtain ⟨rfl, rfl⟩ := hy
  refine Ok.ite (fun _ => hstatus _) fun hlen => ?_
  simp only [Bool.or_eq_true, decide_eq_true_eq, not_or, not_lt] at hlen
  refine Ok.bind (ok_tagEq [0x42, 0x4D] (Nat.le_trans (by decide) hlen.2)) fun tag y hy => ?_
  obtain ⟨rfl, rfl⟩ := hy
  refine Ok.ite (fun _ => hstatus _) fun htag => Ok.bind (ok_readHeader hlen.2) fun h y hy => ?_
  obtain ⟨rfl, rfl⟩ := hy
  refine Ok.ite (fun _ => hstatus _) fun hsup => Ok.ite (fun _ => hstatus _) fun hsize =>
    Ok.ite (fun _ => hstatus _) fun hend => ?_
  simp only [Bool.not_eq_true, Bool.not_eq_false'] at htag hsup hsize
  simp only [Bool.or_eq_true, decide_eq_true_eq, not_or, not_lt] at hend
  have harea : (BmpHeader.of mem).pixelOffset.toNat + (BmpHeader.of mem).area ≤ read := by
    have hmod := hend.2
    rw [BmpHeader.toNat_pixelEnd hsize] at hmod
    have hle := BmpHeader.area_le hsize
    have hlt := (BmpHeader.of mem).pixelOffset.toNat_lt
    by_contra hgt
    exact hno ⟨hlen.1, hlen.2, htag, hsup, hsize, by omega, by omega⟩
  refine Ok.bind (ok_readPixels hsize harea) fun _ y hy => Ok.write.mono fun _ z hz => ?_
  subst hz
  exact ⟨hy, fun _ => harea⟩

/-- Where it wraps, the header is accepted and the first pixel is read far outside. -/
theorem touched_viewerProbeBytes (hread : read ≤ viewerFileSize) (h : Wraps mem read x.fileSize) :
    read < ((viewerProbeBytes read).run mem x).touched := by
  obtain ⟨hsmall, h54, htag, hsup, hsize, hwrap, hleft⟩ := h
  have harea := BmpHeader.area_le hsize
  unfold viewerFileSize at hread
  have hend :
      ¬((BmpHeader.of mem).pixelOffset < 54 ∨ read < (BmpHeader.of mem).pixelEnd.toNat) := by
    rw [BmpHeader.toNat_pixelEnd hsize, UInt32.lt_iff_toNat_lt]
    have h54 : (54 : UInt32).toNat = 54 := rfl
    have hlt := (BmpHeader.of mem).pixelOffset.toNat_lt
    omega
  refine Nat.lt_of_lt_of_le ?_ touched_le_bind_right
  rw [run_fields]
  simp only
  rw [if_neg (by simp; omega)]
  refine Nat.lt_of_lt_of_le ?_ (returns_tagEq 0 [0x42, 0x4D]).touched_bind
  rw [htag, if_neg (by simp)]
  refine Nat.lt_of_lt_of_le ?_ returns_readHeader.touched_bind
  rw [if_neg (by simp [hsup]), if_neg (by simp [hsize]), if_neg (by simpa using hend)]
  exact Nat.lt_of_lt_of_le (touched_readPixels hsup (by omega)) touched_le_bind

end Bytes

/-- A probe is safe exactly when the end of the pixels does not wrap into the file. -/
theorem viewerProbeFile_safe_iff (m : Mount) (viewer : ImageViewer)
    (fileBuffer : Nat → UInt8) (s : Fs) :
    Meets (viewerProbeFile m viewer fileBuffer) s fun p _ =>
      SafeView viewer p ↔ ¬Wraps p.buffer p.read p.fileSize := by
  have hunread : ∀ x : ImageViewer, x.hasImage = false → x.pixels = viewer.pixels →
      (SafeView viewer (.unread () x) ↔ ¬Wraps (Probe.unread () x).buffer 0 0) := by
    intro x himage hpixels
    refine iff_of_true ⟨Nat.le_refl 0, fun r c _ => ?_, fun h => ?_⟩ fun h =>
      absurd h.2.1 (by decide)
    · exact congrFun (congrFun hpixels r) c
    · simp [Probe.unread, himage] at h
  refine Meets.ite (fun _ => Meets.pure (hunread _ rfl rfl)) fun _ => Meets.bind fun file s₁ _ => ?_
  cases file with
  | none => exact Meets.pure (hunread _ rfl rfl)
  | some file =>
    refine Meets.bind ((fsRead_le file (some fileBuffer) viewerFileSize s₁).mono fun r s₂ hle => ?_)
    obtain ⟨read, file', buffer⟩ := r
    refine Meets.pure ⟨fun hsafe hwraps => ?_, fun hno => ?_⟩
    · exact absurd hsafe.reads (Nat.not_le.2 (touched_viewerProbeBytes hle hwraps))
    · have hok := ok_viewerProbeBytes (x := { viewer with
        fileSize := fsFileSize file, hasFile := true, hasImage := false, imageWidth := 0
        imageHeight := 0, status := .ready }) (Nat.lt_of_le_of_lt hle (by decide)) hno rfl
      exact ⟨hok.touched_le, hok.post.1, hok.post.2⟩

/-- A header of one pixel at the offset `2^32 - 4`, and nothing behind it. -/
def wrappedBmp : List UInt8 :=
  [0x42, 0x4D, 54, 0, 0, 0, 0, 0, 0, 0, 0xFC, 0xFF, 0xFF, 0xFF, 40, 0, 0, 0, 1, 0, 0, 0, 1, 0, 0, 0,
    1, 0, 24, 0, 0, 0, 0, 0] ++ List.replicate 20 0

def freshViewer : ImageViewer := ⟨[0x41], .ready, fun _ _ => 0, 0, 0, 0, false, false⟩

/-- The file is accepted as an image, and its pixel is read at the end of the address space. -/
theorem wrappedBmp_accepted : Total (do
      let _ ← fsWrite tiny (some [0x41]) (some fun i => wrappedBmp.getD i 0) 54
        (fsWriteCreate ||| fsWriteTruncate)
      viewerProbeFile tiny freshViewer fun _ => 0)
        (Fs.start (blankDisk tiny) (fun _ => 0) []) fun p s =>
    files tiny [2] s.disk [0x41] = some wrappedBmp ∧ p.read = 54 ∧
      p.outcome.fields.hasImage = true ∧
      p.outcome.touched = 0xFFFFFFFF := by
  have hrun : ((do
      let _ ← fsWrite tiny (some [0x41]) (some fun i => wrappedBmp.getD i 0) 54
        (fsWriteCreate ||| fsWriteTruncate)
      viewerProbeFile tiny freshViewer fun _ => 0 : Prog Fs (Probe ImageViewer Unit))
        (Fs.start (blankDisk tiny) (fun _ => 0) [])).map (fun x =>
      (files tiny [2] x.2.disk [0x41], x.1.read, x.1.outcome.fields.hasImage,
        x.1.outcome.touched)) =
        some (some wrappedBmp, 54, true, 0xFFFFFFFF) := by decide +kernel
  obtain ⟨⟨p, s⟩, hm, h⟩ := Option.map_eq_some_iff.1 hrun
  simp only [Prod.mk.injEq] at h
  exact ⟨p, s, hm, h⟩

end MinervaOS.Apps
