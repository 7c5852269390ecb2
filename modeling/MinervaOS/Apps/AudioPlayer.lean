import MinervaOS.Apps.Buffers
import MinervaOS.Fat32.WriteModes

/-!
# The audio player

The player walks the chunks of a WAV file. The end of a chunk is computed in 32 bits, and the test
that the walk makes progress lets sizes through that wrap to just behind the chunk's header. A
`data` chunk of such a size is taken for sound, a `fmt ` chunk of such a size is read without being
there. Otherwise the walk and the preview stay within the file.
-/

namespace MinervaOS.Apps

open Fat32 Prog Reader

/-- `sizeof(audio_file_buffer)`. -/
def audioFileSize : Nat := 1024

def riffTag : List UInt8 := [0x52, 0x49, 0x46, 0x46]
def waveTag : List UInt8 := [0x57, 0x41, 0x56, 0x45]
def fmtTag : List UInt8 := [0x66, 0x6D, 0x74, 0x20]
def dataTag : List UInt8 := [0x64, 0x61, 0x74, 0x61]

inductive PlayerStatus where
  /-- `NO FS` -/
  | noFs
  /-- `MISSING` -/
  | missing
  /-- `TOO SMALL` -/
  | tooSmall
  /-- `TOO BIG` -/
  | tooBig
  /-- `NOT WAV` -/
  | notWav
  /-- `BAD FMT` -/
  | badFmt
  /-- `BAD WAV` -/
  | badWav
  /-- `UNSUP` -/
  | unsup
  /-- `PCM` -/
  | pcm
  /-- `NO PLAY` -/
  | noPlay
  /-- `NO DATA` -/
  | noData
  /-- `PLAYED` -/
  | played
  deriving DecidableEq

/-- `audio_player_t` without its window. -/
structure AudioPlayer where
  filename : List UInt8
  status : PlayerStatus
  fileSize : Nat
  sampleRate : UInt32
  dataOffset : UInt32
  dataSize : UInt32
  channels : UInt16
  bitsPerSample : UInt16
  hasFile : Bool
  hasWav : Bool

def playerClearMetadata (player : AudioPlayer) : AudioPlayer :=
  { player with
    fileSize := 0, sampleRate := 0, dataOffset := 0, dataSize := 0, channels :=
      0, bitsPerSample := 0
    hasFile := false, hasWav := false }

def setPlayerStatus (status : PlayerStatus) : Reader AudioPlayer Unit :=
  write fun p => { p with status := status }

/-- What the walk has found. -/
structure Found where
  audioFormat : UInt16
  sawFmt : Bool
  sawData : Bool

/-- How the walk came to an end, if it did in the steps that it was given. -/
inductive WalkEnd where
  | ended (found : Found)
  | badFmt
  | running

/-- `while (offset + 8 <= read)`. The sound of a `data` chunk is handed on to the preview. -/
def walkChunks (read : Nat) : Nat → UInt32 → Found → Reader AudioPlayer WalkEnd
  | steps, offset, found => do
    if !((offset + 8).toNat ≤ read) then return .ended found
    match steps with
    | 0 => return .running
    | steps + 1 =>
      let chunkSize ← rd32 (offset + 4)
      let chunkData := offset + 8
      let next := chunkData + chunkSize + (chunkSize &&& 1)
      if (chunkData + chunkSize).toNat > read || next ≤ offset then return .ended found
      if ← tagEq offset fmtTag then
        if chunkSize < 16 then return .badFmt
        let audioFormat ← rd16 (chunkData + 0)
        let channels ← rd16 (chunkData + 2)
        let sampleRate ← rd32 (chunkData + 4)
        let bitsPerSample ← rd16 (chunkData + 14)
        write fun p => { p with channels, sampleRate, bitsPerSample }
        walkChunks read steps next { found with audioFormat, sawFmt := true }
      else if ← tagEq offset dataTag then
        hand chunkData chunkSize
        write fun p => { p with dataOffset := chunkData, dataSize := chunkSize }
        walkChunks read steps next { found with sawData := true }
      else
        walkChunks read steps next found

/-- What `player_probe_file` does with the buffer, of which `read` bytes are from the file; whether
it comes to an end. -/
def playerProbeBytes (read : Nat) : Reader AudioPlayer Bool := do
  let player ← fields
  if read < player.fileSize || read < 44 then
    setPlayerStatus (if read < 44 then .tooSmall else .tooBig)
    return true
  if !(← tagEq 0 riffTag) then
    setPlayerStatus .notWav
    return true
  if !(← tagEq 8 waveTag) then
    setPlayerStatus .notWav
    return true
  match ← walkChunks read read 12 ⟨0, false, false⟩ with
  | .running => return false
  | .badFmt =>
    setPlayerStatus .badFmt
    return true
  | .ended found =>
    if !found.sawFmt || !found.sawData then
      setPlayerStatus .badWav
      return true
    if found.audioFormat != 1 then
      setPlayerStatus .unsup
      return true
    write fun p => { p with hasWav := true, status := .pcm }
    return true

def playerProbeFile (m : Mount) (player : AudioPlayer) (fileBuffer : Nat → UInt8) :
    Prog Fs (Probe AudioPlayer Bool) := do
  let player := playerClearMetadata player
  if !m.mounted then return .unread true { player with status := .noFs }
  match ← fsOpen m (some player.filename) with
  | none => return .unread true { player with status := .missing }
  | some file =>
    let player := { player with fileSize := fsFileSize file, hasFile := true }
    let (read, file, buffer) ← fsRead m file (some fileBuffer) audioFileSize
    let _ := fsClose file
    return ⟨(playerProbeBytes read).run (bufferMemory buffer) player, bufferMemory buffer, read,
      player.fileSize⟩

/-- Whether something was played, and the frequencies of the tones. -/
def audioPlayerPlayPreview : Reader AudioPlayer (Bool × List UInt32) := do
  let player ← fields
  if !player.hasWav then return (false, [])
  if player.channels != 1 || player.bitsPerSample != 8 then
    setPlayerStatus .noPlay
    return (false, [])
  let playable :=
    if (player.dataOffset + player.dataSize).toNat > audioFileSize then
      .ofNat audioFileSize - player.dataOffset
    else player.dataSize
  if playable == 0 then
    setPlayerStatus .noData
    return (false, [])
  let steps := if playable < 48 then playable else 48
  let stride := if playable / steps == 0 then 1 else playable / steps
  let tones ← (List.range steps.toNat).foldlM (fun tones i => do
    let sample ← byte (player.dataOffset + .ofNat i * stride)
    return tones ++ [180 + sample.toUInt32 * 5]) []
  setPlayerStatus .played
  return (true, tones)

/-! ## The chunks that the walk meets -/

section Chunks

variable (mem : Memory) (read : Nat)

def sizeAt (offset : UInt32) : UInt32 := num32 mem (offset + 4)

/-- Where the chunk behind this one starts. -/
def nextOf (offset : UInt32) : UInt32 := offset + 8 + sizeAt mem offset + (sizeAt mem offset &&& 1)

/-- A header that is in the file and passes the test of the walk, in its own arithmetic. -/
def Passes (offset : UInt32) : Prop :=
  (offset + 8).toNat ≤ read ∧ (offset + 8 + sizeAt mem offset).toNat ≤ read ∧
    offset < nextOf mem offset

/-- The chunks that the walk gets to from one: it goes on behind a header that passes, unless that
is of a `fmt ` chunk which is too small. -/
inductive Reached : UInt32 → UInt32 → Prop
  | here (offset : UInt32) : Reached offset offset
  | next {offset other : UInt32} : Passes mem read offset →
      (hasTag mem offset fmtTag = true → ¬sizeAt mem offset < 16) →
      Reached (nextOf mem offset) other → Reached offset other

/-- A size that takes the end of a chunk once around to just behind its header. -/
def Huge (size : UInt32) : Prop := 2 ^ 32 - 7 ≤ size.toNat

/-- A chunk that passes is neither a huge `data` chunk nor a huge `fmt ` chunk right before the end
of the file. -/
def Harmless (offset : UInt32) : Prop :=
  Passes mem read offset → Huge (sizeAt mem offset) →
    if hasTag mem offset fmtTag then offset.toNat + 24 ≤ read else hasTag mem offset dataTag = false

end Chunks

section Bytes

variable {mem : Memory} {read : Nat} {offset other : UInt32} {x : AudioPlayer}

theorem toNat_add_small (k : UInt32) (hk : k.toNat ≤ 32) (h : offset.toNat ≤ 1025) :
    (offset + k).toNat = offset.toNat + k.toNat := by
  rw [UInt32.toNat_add]
  exact Nat.mod_eq_of_lt (by omega)

/-- The padding byte. -/
theorem toNat_and_one (size : UInt32) : (size &&& 1).toNat = size.toNat % 2 := by
  rw [UInt32.toNat_and, UInt32.toNat_one, Nat.and_one_is_mod]

/-- Behind a header that passes the walk is farther on, and still in the file or right behind it. -/
theorem Passes.next (h : Passes mem read offset) :
    offset.toNat < (nextOf mem offset).toNat ∧ (nextOf mem offset).toNat ≤ read + 1 := by
  obtain ⟨-, hend, hlt⟩ := h
  refine ⟨UInt32.lt_iff_toNat_lt.1 hlt, ?_⟩
  have hpad := toNat_and_one (sizeAt mem offset)
  have hadd := toNat_add_le (offset + 8 + sizeAt mem offset) (sizeAt mem offset &&& 1)
  unfold nextOf
  omega

/-- A size that is not huge is added without going around. -/
theorem Passes.exact (hread : read ≤ audioFileSize) (h : Passes mem read offset)
    (hoff : offset.toNat ≤ read + 1) (hsize : ¬Huge (sizeAt mem offset)) :
    offset.toNat + 8 + (sizeAt mem offset).toNat ≤ read := by
  obtain ⟨hin, hend, hlt⟩ := h
  unfold audioFileSize at hread
  unfold Huge at hsize
  have hdata : (offset + 8).toNat = offset.toNat + 8 := toNat_add_small 8 (by decide) (by omega)
  have hpad := toNat_and_one (sizeAt mem offset)
  rw [UInt32.lt_iff_toNat_lt, nextOf, UInt32.toNat_add] at hlt
  rw [UInt32.toNat_add, hdata] at hend hlt
  have hsz := (sizeAt mem offset).toNat_lt
  by_cases hwrap : offset.toNat + 8 + (sizeAt mem offset).toNat < 2 ^ 32
  · rwa [Nat.mod_eq_of_lt hwrap] at hend
  · exfalso
    -- what is left behind the wrap is not beyond the header itself
    have hleft : (offset.toNat + 8 + (sizeAt mem offset).toNat) % 2 ^ 32 =
        offset.toNat + 8 + (sizeAt mem offset).toNat - 2 ^ 32 := by omega
    rw [hleft, hpad] at hlt
    omega

theorem forall_reached {P : UInt32 → Prop} : (∀ o, Reached mem read offset o → P o) ↔
    P offset ∧ (Passes mem read offset →
      (hasTag mem offset fmtTag = true → ¬sizeAt mem offset < 16) →
      ∀ o, Reached mem read (nextOf mem offset) o → P o) := by
  constructor
  · exact fun h => ⟨h _ (.here _), fun hpass hfmt o ho => h o (.next hpass hfmt ho)⟩
  · rintro ⟨hfirst, hrest⟩ o ho
    cases ho with
    | here => exact hfirst
    | next hpass hfmt ho => exact hrest hpass hfmt o ho

/-- The chunk that was taken for sound is in the file. -/
def Inside (read : Nat) (player : AudioPlayer) : Prop :=
  player.dataOffset.toNat + player.dataSize.toNat ≤ read

/-- All the chunks that the walk meets from an offset on do no harm. -/
def AllHarmless (mem : Memory) (read : Nat) (offset : UInt32) : Prop :=
  ∀ o, Reached mem read offset o → Harmless mem read o

theorem allHarmless_stop (h : ¬Passes mem read offset) : AllHarmless mem read offset :=
  forall_reached.2 ⟨fun hpass => absurd hpass h, fun hpass => absurd hpass h⟩

theorem allHarmless_next (hpass : Passes mem read offset) (hharm : Harmless mem read offset)
    (hfmt : hasTag mem offset fmtTag = true → ¬sizeAt mem offset < 16) :
    AllHarmless mem read (nextOf mem offset) ↔ AllHarmless mem read offset :=
  ⟨fun h => forall_reached.2 ⟨hharm, fun _ _ => h⟩, fun h => (forall_reached.1 h).2 hpass hfmt⟩

/-- The fields of a `fmt ` chunk, and what comes behind them. -/
theorem okIff_fmt {β : Type} {C : Prop} {R : β → AudioPlayer → Prop} {chunkData : UInt32}
    {f : UInt16 → UInt16 → UInt32 → UInt16 → Reader AudioPlayer β} (hoff : chunkData.toNat ≤ 1025)
    (hshort : ¬chunkData.toNat + 16 ≤ read → ¬C)
    (hf : chunkData.toNat + 16 ≤ read → ∀ a b c d, OkIff (f a b c d) mem x read C R) :
    OkIff (do
      let audioFormat ← rd16 (chunkData + 0)
      let channels ← rd16 (chunkData + 2)
      let sampleRate ← rd32 (chunkData + 4)
      let bitsPerSample ← rd16 (chunkData + 14)
      f audioFormat channels sampleRate bitsPerSample) mem x read C R := by
  have h₀ : (chunkData + 0).toNat = chunkData.toNat := toNat_add_small 0 (by decide) hoff
  have h₂ : (chunkData + 2).toNat = chunkData.toNat + 2 := toNat_add_small 2 (by decide) hoff
  have h₄ : (chunkData + 4).toNat = chunkData.toNat + 4 := toNat_add_small 4 (by decide) hoff
  have h₁₄ : (chunkData + 14).toNat = chunkData.toNat + 14 := toNat_add_small 14 (by decide) hoff
  by_cases hroom : chunkData.toNat + 16 ≤ read
  · refine OkIff.bind (ok_rd16 (by omega)) fun a y hy => ?_
    obtain ⟨-, rfl⟩ := hy
    refine OkIff.bind (ok_rd16 (by omega)) fun b y hy => ?_
    obtain ⟨-, rfl⟩ := hy
    refine OkIff.bind (ok_rd32 (by omega)) fun c y hy => ?_
    obtain ⟨-, rfl⟩ := hy
    refine OkIff.bind (ok_rd16 (by omega)) fun d y hy => ?_
    obtain ⟨-, rfl⟩ := hy
    exact hf hroom a b c d
  · refine OkIff.of_touched ?_ (hshort hroom)
    -- the last of the fields ends sixteen bytes into the chunk
    have hlast :
        read < ((rd16 (chunkData + 14) : Reader AudioPlayer UInt16).run mem x).touched := by
      have h₁₅ : (chunkData + 14 + 1).toNat = chunkData.toNat + 15 := by
        rw [UInt32.add_assoc]
        exact toNat_add_small 15 (by decide) hoff
      have hbyte :
          read < ((byte (chunkData + 14 + 1) : Reader AudioPlayer UInt8).run mem x).touched := by
        rw [run_byte, h₁₅]
        show read < chunkData.toNat + 15 + 1
        omega
      unfold rd16
      refine Nat.lt_of_lt_of_le ?_ (Reader.Returns.byte (chunkData + 14)).touched_bind
      exact Nat.lt_of_lt_of_le hbyte touched_le_bind
    refine Nat.lt_of_lt_of_le ?_ (returns_rd16 (chunkData + 0)).touched_bind
    refine Nat.lt_of_lt_of_le ?_ (returns_rd16 (chunkData + 2)).touched_bind
    refine Nat.lt_of_lt_of_le ?_ (returns_rd32 (chunkData + 4)).touched_bind
    exact Nat.lt_of_lt_of_le hlast touched_le_bind

/-- The walk ends, and it reads and takes nothing that is not in the file exactly when the chunks
that it meets do no harm. The offset grows with every step. -/
theorem okIff_walkChunks (hread : read ≤ audioFileSize) (steps : Nat) (found : Found)
    (hsteps : read < offset.toNat + 8 + steps) (hoff : offset.toNat ≤ read + 1)
    (hx : Inside read x) :
    OkIff (walkChunks read steps offset found) mem x read (AllHarmless mem read offset) fun a y =>
      Inside read y ∧ a ≠ .running ∧ y.hasWav = x.hasWav := by
  have hread' : read ≤ 1024 := hread
  induction steps generalizing offset found x with
  | zero =>
    have hdata : (offset + 8).toNat = offset.toNat + 8 := toNat_add_small 8 (by decide) (by omega)
    unfold walkChunks
    rw [if_pos (by simp; omega)]
    exact OkIff.of_ok (Ok.pure ⟨hx, by simp, rfl⟩) (allHarmless_stop fun h => by
      have := h.1
      omega)
  | succ steps ih =>
    have hdata : (offset + 8).toNat = offset.toNat + 8 := toNat_add_small 8 (by decide) (by omega)
    have hfour : (offset + 4).toNat = offset.toNat + 4 := toNat_add_small 4 (by decide) (by omega)
    unfold walkChunks
    refine OkIff.ite (fun hend => ?_) fun hin => ?_
    · refine OkIff.of_ok (Ok.pure ⟨hx, by simp, rfl⟩) (allHarmless_stop fun h => ?_)
      simp only [Bool.not_eq_true', decide_eq_false_iff_not] at hend
      exact hend h.1
    simp only [Bool.not_eq_true', decide_eq_false_iff_not, not_not] at hin
    refine OkIff.bind (ok_rd32 (by omega)) fun size y hy => ?_
    obtain ⟨rfl, hy⟩ := hy
    subst y
    refine OkIff.ite (fun hstop => ?_) fun hgo => ?_
    · refine OkIff.of_ok (Ok.pure ⟨hx, by simp, rfl⟩) (allHarmless_stop fun h => ?_)
      simp only [Bool.or_eq_true, decide_eq_true_eq] at hstop
      rcases hstop with hout | hback
      · exact absurd h.2.1 (Nat.not_le.2 hout)
      · exact absurd h.2.2 (UInt32.not_lt.2 hback)
    simp only [Bool.or_eq_true, decide_eq_true_eq, not_or, not_lt, UInt32.not_le] at hgo
    have hpass : Passes mem read offset := ⟨hin, hgo.1, hgo.2⟩
    have hnext := hpass.next
    have hrec : ∀ found' y, Inside read y → y.hasWav = x.hasWav → Harmless mem read offset →
        (hasTag mem offset fmtTag = true → ¬sizeAt mem offset < 16) →
        OkIff (walkChunks read steps (nextOf mem offset) found') mem y read
          (AllHarmless mem read offset)
          fun a z => Inside read z ∧ a ≠ .running ∧ z.hasWav = x.hasWav := by
      intro found' y hy hwav hharm hfmt
      refine ((ih found' (by omega) hnext.2 hy).congr (allHarmless_next hpass hharm hfmt)).mono ?_
      exact fun a z hz => ⟨hz.1, hz.2.1, hz.2.2.trans hwav⟩
    refine OkIff.bind (ok_tagEq fmtTag (by simp [fmtTag]; omega)) fun isFmt y hy => ?_
    obtain ⟨rfl, hy⟩ := hy
    subst y
    refine OkIff.ite (fun hisFmt => ?_) fun hnotFmt => ?_
    · refine OkIff.ite (fun hsmall => ?_) fun hlarge => ?_
      · refine OkIff.of_ok (Ok.pure ⟨hx, by simp, rfl⟩)
          (forall_reached.2 ⟨fun _ hhuge => ?_, fun _ h => ?_⟩)
        · have hsize : (sizeAt mem offset).toNat < 16 := UInt32.lt_iff_toNat_lt.1 hsmall
          unfold Huge at hhuge
          omega
        · exact absurd hsmall (h hisFmt)
      · have hlarge' : 16 ≤ (sizeAt mem offset).toNat :=
          UInt32.le_iff_toNat_le.1 (UInt32.not_lt.1 hlarge)
        refine okIff_fmt (by omega) (fun hshort hall => ?_) fun hroom a b c d => ?_
        · have hhuge : Huge (sizeAt mem offset) := by
            by_contra hsize
            have hexact := hpass.exact hread hoff hsize
            omega
          have hharm := (forall_reached.1 hall).1 hpass hhuge
          rw [if_pos hisFmt] at hharm
          omega
        · refine OkIff.bind Ok.write fun _ y hy => ?_
          subst hy
          refine hrec _ _ hx rfl (fun _ _ => ?_) fun _ => hlarge
          rw [if_pos hisFmt]
          omega
    · have hnofmt : hasTag mem offset fmtTag = true → ¬sizeAt mem offset < 16 :=
        fun h => absurd h hnotFmt
      refine OkIff.bind (ok_tagEq dataTag (by simp [dataTag]; omega)) fun isData y hy => ?_
      obtain ⟨rfl, hy⟩ := hy
      subst y
      refine OkIff.ite (fun hisData => ?_) fun hnotData => ?_
      · by_cases hhuge : Huge (sizeAt mem offset)
        · refine OkIff.hand_long ?_ fun hall => ?_
          · unfold Huge at hhuge
            show read < (offset + 8).toNat + (sizeAt mem offset).toNat
            omega
          · have hharm := (forall_reached.1 hall).1 hpass hhuge
            rw [if_neg hnotFmt, hisData] at hharm
            cases hharm
        · have hexact := hpass.exact hread hoff hhuge
          have hinside : (offset + 8).toNat + (sizeAt mem offset).toNat ≤ read := by omega
          refine OkIff.bind (Ok.hand hinside) fun _ y hy => ?_
          subst y
          refine OkIff.bind Ok.write fun _ y hy => ?_
          subst y
          exact hrec _ _ hinside rfl (fun _ h => absurd h hhuge) hnofmt
      · refine hrec _ _ hx rfl (fun _ _ => ?_) hnofmt
        rw [if_neg hnotFmt]
        exact Bool.not_eq_true _ ▸ hnotData

/-! ## The probe and the preview -/

/-- The file is read whole and has the tags of a WAV file, so the walk starts. -/
def WalkStarts (mem : Memory) (read fileSize : Nat) : Prop :=
  fileSize ≤ read ∧ 44 ≤ read ∧ hasTag mem 0 riffTag = true ∧ hasTag mem 8 waveTag = true

theorem okIff_playerProbeBytes (hread : read ≤ audioFileSize) (hx : Inside read x) :
    OkIff (playerProbeBytes read) mem x read
      (WalkStarts mem read x.fileSize → AllHarmless mem read 12) fun a y =>
        a = true ∧ Inside read y := by
  have hstatus : ∀ (y : AudioPlayer) status, Inside read y → Ok (do
      setPlayerStatus status
      return true) mem y read fun a z => a = true ∧ Inside read z := by
    refine fun y status hy => Ok.bind Ok.write fun _ z hz => ?_
    subst z
    exact Ok.pure ⟨rfl, hy⟩
  refine OkIff.bind Ok.fields fun player y hy => ?_
  obtain ⟨hplayer, hy⟩ := hy
  subst player y
  refine OkIff.ite (fun hshort => ?_) fun hlen => ?_
  · refine OkIff.of_ok (hstatus _ _ hx) fun h => ?_
    simp only [Bool.or_eq_true, decide_eq_true_eq] at hshort
    have hle := h.1
    have h44 := h.2.1
    omega
  simp only [Bool.or_eq_true, decide_eq_true_eq, not_or, not_lt] at hlen
  refine OkIff.bind (ok_tagEq riffTag (Nat.le_trans (by decide) hlen.2)) fun riff y hy => ?_
  obtain ⟨rfl, hy⟩ := hy
  subst y
  refine OkIff.ite (fun hno => OkIff.of_ok (hstatus _ _ hx) fun h => by simp [h.2.2.1] at hno)
    fun hriff => ?_
  refine OkIff.bind (ok_tagEq waveTag (Nat.le_trans (by decide) hlen.2)) fun wave y hy => ?_
  obtain ⟨rfl, hy⟩ := hy
  subst y
  refine OkIff.ite (fun hno => OkIff.of_ok (hstatus _ _ hx) fun h => by simp [h.2.2.2] at hno)
    fun hwave => ?_
  simp only [Bool.not_eq_true', Bool.not_eq_false] at hriff hwave
  have hwalk := @okIff_walkChunks mem read 12 x hread read ⟨0, false, false⟩
    (by show read < 12 + 8 + read; omega) (by show 12 ≤ read + 1; omega) hx
  have hstart : AllHarmless mem read 12 ∧ True ↔
      (WalkStarts mem read x.fileSize → AllHarmless mem read 12) :=
    ⟨fun h _ => h.1, fun h => ⟨h ⟨hlen.1, hlen.2, hriff, hwave⟩, trivial⟩⟩
  refine (OkIff.bind_and hwalk fun a y hy => OkIff.of_ok ?_ trivial).congr hstart
  obtain ⟨hinside, hend, -⟩ := hy
  cases a with
  | running => exact absurd rfl hend
  | badFmt => exact hstatus _ _ hinside
  | ended found =>
    refine Ok.ite (fun _ => hstatus _ _ hinside) fun _ =>
      Ok.ite (fun _ => hstatus _ _ hinside) fun _ => ?_
    refine Ok.bind Ok.write fun _ z hz => ?_
    subst z
    exact Ok.pure ⟨rfl, hinside⟩

/-- The steps of the preview stay within a playable stretch. -/
theorem preview_step {playable steps stride i : Nat}
    (hsteps : steps = if playable < 48 then playable else 48)
    (hstride : stride = if playable / steps = 0 then 1 else playable / steps) (hi : i < steps) :
    i * stride < playable := by
  have hle : steps ≤ playable := by
    rw [hsteps]
    split_ifs <;> omega
  have hdiv : playable / steps ≠ 0 := Nat.pos_iff_ne_zero.1 (Nat.div_pos hle (by omega))
  rw [hstride, if_neg hdiv]
  calc i * (playable / steps) < steps * (playable / steps) :=
        Nat.mul_lt_mul_of_pos_right hi (Nat.pos_of_ne_zero hdiv)
    _ ≤ playable := Nat.mul_div_le playable steps

theorem ok_preview (hread : read ≤ audioFileSize) (hx : Inside read x) :
    Ok audioPlayerPlayPreview mem x read fun _ _ => True := by
  unfold Inside at hx
  have hread' : read ≤ 1024 := hread
  refine Ok.bind Ok.fields fun player y hy => ?_
  obtain ⟨hplayer, hy⟩ := hy
  subst player y
  refine Ok.ite (fun _ => Ok.pure trivial) fun _ => Ok.ite (fun _ => ?_) fun _ => ?_
  · exact Ok.bind Ok.write fun _ _ _ => Ok.pure trivial
  have hsum : (x.dataOffset + x.dataSize).toNat = x.dataOffset.toNat + x.dataSize.toNat := by
    rw [UInt32.toNat_add]
    exact Nat.mod_eq_of_lt (by omega)
  have hplayable : (if (x.dataOffset + x.dataSize).toNat > audioFileSize then
      .ofNat audioFileSize - x.dataOffset else x.dataSize) = x.dataSize := by
    rw [if_neg (by rw [hsum]; unfold audioFileSize; omega)]
  simp only [hplayable]
  refine Ok.ite (fun _ => Ok.bind Ok.write fun _ _ _ => Ok.pure trivial) fun _ => ?_
  set steps : UInt32 := if x.dataSize < 48 then x.dataSize else 48 with hsteps
  set stride : UInt32 := if x.dataSize / steps == 0 then 1 else x.dataSize / steps with hstride
  have hsteps' : steps.toNat = if x.dataSize.toNat < 48 then x.dataSize.toNat else 48 := by
    rw [hsteps, apply_ite UInt32.toNat]
    simp only [UInt32.lt_iff_toNat_lt]
    rfl
  have hstride' : stride.toNat =
      if x.dataSize.toNat / steps.toNat = 0 then 1 else x.dataSize.toNat / steps.toNat := by
    rw [hstride, apply_ite UInt32.toNat]
    simp only [beq_iff_eq, ← UInt32.toNat_inj, UInt32.toNat_div]
    rfl
  have hsample : ∀ i ∈ List.range steps.toNat, (x.dataOffset + .ofNat i * stride).toNat < read := by
    intro i hi
    have hstep := preview_step hsteps' hstride' (List.mem_range.1 hi)
    have hadd := toNat_add_le x.dataOffset (.ofNat i * stride)
    have hmul : (UInt32.ofNat i * stride).toNat ≤ i * stride.toNat := by
      rw [UInt32.toNat_mul]
      exact Nat.le_trans (Nat.mod_le _ _) (Nat.mul_le_mul_right _ (Nat.mod_le _ _))
    omega
  refine Ok.bind (Ok.foldlM (g := fun tones i =>
    tones ++ [180 + (mem (x.dataOffset + .ofNat i * stride)).toUInt32 * 5]) fun tones i hi => ?_)
      fun tones y _ => ?_
  · refine Ok.bind (Ok.byte (hsample i hi)) fun sample y hy => ?_
    obtain ⟨rfl, rfl⟩ := hy
    exact Ok.pure ⟨rfl, rfl⟩
  · exact Ok.bind Ok.write fun _ _ _ => Ok.pure trivial

end Bytes

/-- The walk comes to an end, reads only bytes of the file and takes only `data` chunks that are in
the file, and so does a preview that is played later. -/
structure SafePlay (p : Probe AudioPlayer Bool) : Prop where
  ends : p.outcome.value = true
  walk : p.outcome.touched ≤ p.read
  taken : p.outcome.spanned ≤ p.read
  preview : (audioPlayerPlayPreview.run p.buffer p.outcome.fields).touched ≤ p.read

theorem safePlay_iff {mem : Memory} {read : Nat} {x : AudioPlayer} (hread : read ≤ audioFileSize)
    (hx : Inside read x) : SafePlay ⟨(playerProbeBytes read).run mem x, mem, read, x.fileSize⟩ ↔
      (WalkStarts mem read x.fileSize → AllHarmless mem read 12) := by
  have hprobe := @okIff_playerProbeBytes mem read x hread hx
  refine ⟨fun hsafe => hprobe.cond hsafe.walk hsafe.taken, fun hall => ?_⟩
  obtain ⟨htouched, hspanned, hends, hinside⟩ := hprobe.ok hall
  generalize (playerProbeBytes read).run mem x = outcome at htouched hspanned hends hinside
  have hpreview : Ok audioPlayerPlayPreview mem outcome.fields read fun _ _ => True :=
    ok_preview hread hinside
  exact ⟨hends, htouched, hspanned, hpreview.touched_le⟩

/-- A probe is safe exactly when no chunk that the walk meets does harm. -/
theorem playerProbeFile_safe_iff (m : Mount) (player : AudioPlayer)
    (fileBuffer : Nat → UInt8) (s : Fs) :
    Meets (playerProbeFile m player fileBuffer) s fun p _ =>
      SafePlay p ↔ (WalkStarts p.buffer p.read p.fileSize → AllHarmless p.buffer p.read 12) := by
  have hunread : ∀ x : AudioPlayer, Inside 0 x → (SafePlay (.unread true x) ↔
      (WalkStarts (Probe.unread true x).buffer 0 0 →
        AllHarmless (Probe.unread true x).buffer 0 12)) := by
    intro x hx
    have hpreview : Ok audioPlayerPlayPreview (Probe.unread true x).buffer x 0 fun _ _ => True :=
      ok_preview (Nat.zero_le _) hx
    exact iff_of_true ⟨rfl, Nat.le_refl 0, Nat.le_refl 0, hpreview.touched_le⟩ fun h =>
      absurd h.2.1 (by decide)
  refine Meets.ite (fun _ => Meets.pure (hunread _ (Nat.le_refl 0))) fun _ =>
    Meets.bind fun file s₁ _ => ?_
  cases file with
  | none => exact Meets.pure (hunread _ (Nat.le_refl 0))
  | some file =>
    refine Meets.bind ((fsRead_le file (some fileBuffer) audioFileSize s₁).mono fun r s₂ hle => ?_)
    obtain ⟨read, file', buffer⟩ := r
    exact Meets.pure (safePlay_iff hle (Nat.zero_le read))

/-- A WAV file whose `data` chunk has the size `2^32 - 1`, and four bytes behind its header. -/
def hugeWav : List UInt8 :=
  riffTag ++ [40, 0, 0, 0] ++ waveTag ++ fmtTag ++
    [16, 0, 0, 0, 1, 0, 1, 0, 64, 31, 0, 0, 64, 31, 0, 0, 1, 0, 8, 0] ++ dataTag ++
      [0xFF, 0xFF, 0xFF, 0xFF] ++ [0x80, 0x80, 0x80, 0x80]

def freshPlayer : AudioPlayer := ⟨[0x41], .pcm, 0, 0, 0, 0, 0, 0, false, false⟩

/-- The chunk is taken for sound, and the preview reads far outside of the file. -/
theorem hugeWav_accepted : Total (do
      let _ ← fsWrite tiny (some [0x41]) (some fun i => hugeWav.getD i 0) 48
        (fsWriteCreate ||| fsWriteTruncate)
      playerProbeFile tiny freshPlayer fun _ => 0)
        (Fs.start (blankDisk tiny) (fun _ => 0) []) fun p s =>
    files tiny [2] s.disk [0x41] = some hugeWav ∧ p.read = 48 ∧ p.outcome.fields.hasWav = true ∧
      p.outcome.fields.dataSize = 0xFFFFFFFF ∧
        48 < (audioPlayerPlayPreview.run p.buffer p.outcome.fields).touched := by
  have hrun : ((do
      let _ ← fsWrite tiny (some [0x41]) (some fun i => hugeWav.getD i 0) 48
        (fsWriteCreate ||| fsWriteTruncate)
      playerProbeFile tiny freshPlayer fun _ => 0 : Prog Fs (Probe AudioPlayer Bool))
        (Fs.start (blankDisk tiny) (fun _ => 0) [])).map (fun x =>
      (files tiny [2] x.2.disk [0x41], x.1.read, x.1.outcome.fields.hasWav,
        x.1.outcome.fields.dataSize,
          decide (48 < (audioPlayerPlayPreview.run x.1.buffer x.1.outcome.fields).touched))) =
        some (some hugeWav, 48, true, 0xFFFFFFFF, true) := by decide +kernel
  obtain ⟨⟨p, s⟩, hm, h⟩ := Option.map_eq_some_iff.1 hrun
  simp only [Prod.mk.injEq, decide_eq_true_eq] at h
  exact ⟨p, s, hm, h⟩

end MinervaOS.Apps
