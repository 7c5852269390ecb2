import Mathlib.Tactic

/-!
# The disk behind its ports

`ata.c` reads and writes a sector over the registers of a drive. A drive is a disk and the answers
it is going to give; a busy one takes no notice of the registers. Each access has its result from
the drive's answers to it, and the error of a write that comes before the driver sends its flush is
lost (`ataWriteSector_lost`).
-/

namespace MinervaOS.Devices.Ata

/-! ## The drive -/

/-- The bytes of a sector. -/
abbrev Block := Fin 512 → UInt8

def Block.word (b : Block) (i : ℕ) : UInt16 :=
  UInt16.ofNat ((b (Fin.ofNat 512 (2 * i))).toNat + 256 * (b (Fin.ofNat 512 (2 * i + 1))).toNat)

def Block.setWord (b : Block) (i : ℕ) (word : UInt16) : Block := fun j =>
  if j.val = 2 * i then word.toUInt8 else if j.val = 2 * i + 1 then (word >>> 8).toUInt8 else b j

/-- How a drive ends one step of a command: the reads of its status that find it busy, whether an
error follows, and what the sector it was to write then holds. -/
structure Answer where
  polls : ℕ
  error : Bool
  left : Block

/-- The words that the drive waits to have read or written, from word `i` on. -/
inductive Transfer where
  | idle
  | toHost (block : Block) (i : ℕ)
  | toDrive (block : Block) (i : ℕ)

structure Drive where
  disk : ℕ → Block
  secCount : UInt8
  lba0 : UInt8
  lba1 : UInt8
  lba2 : UInt8
  device : UInt8
  polls : ℕ
  error : Bool
  transfer : Transfer
  /-- The answers still to come. -/
  answers : ℕ → Answer

namespace Drive

/-- The sector that the registers name. -/
def lba (d : Drive) : ℕ :=
  (d.device &&& 0x0F).toNat * 2 ^ 24 + d.lba2.toNat * 2 ^ 16 + d.lba1.toNat * 2 ^ 8 + d.lba0.toNat

def answer (d : Drive) : Drive :=
  { d with
    polls := (d.answers 0).polls
    error := (d.answers 0).error
    answers := fun n => d.answers (n + 1) }

/-- What a write leaves in the sector. -/
def store (d : Drive) (a : Answer) (block : Block) : ℕ → Block :=
  Function.update d.disk d.lba (if a.error then a.left else block)

/-- A command. The drive knows reads and writes of one sector by its address, and the flush; it
reports an error for every other. -/
def command (d : Drive) (value : UInt8) : Drive :=
  let a := d.answers 0
  if value = 0xE7 then { d.answer with transfer := .idle, disk := d.store a (d.disk d.lba) }
  else if d.secCount ≠ 1 ∨ d.device &&& 0x50 ≠ 0x40 ∨ (value ≠ 0x20 ∧ value ≠ 0x30) ∨ a.error then
    { d.answer with transfer := .idle, error := true }
  else if value = 0x20 then { d.answer with transfer := .toHost (d.disk d.lba) 0 }
  else { d.answer with transfer := .toDrive (fun _ => 0) 0 }

/-- `outb`, which a busy drive takes no notice of. -/
def outb (port : ℕ) (value : UInt8) (d : Drive) : Drive :=
  if 0 < d.polls then d
  else if port = 0x1F2 then { d with secCount := value }
  else if port = 0x1F3 then { d with lba0 := value }
  else if port = 0x1F4 then { d with lba1 := value }
  else if port = 0x1F5 then { d with lba2 := value }
  else if port = 0x1F6 then { d with device := value }
  else if port = 0x1F7 then d.command value
  else d

def status (d : Drive) : UInt8 :=
  if 0 < d.polls then 0x80
  else if d.error then 0x41
  else match d.transfer with
    | .idle => 0x40
    | .toHost .. => 0x48
    | .toDrive .. => 0x48

/-- `inb(ATA_STATUS)` -/
def inbStatus (d : Drive) : UInt8 × Drive := (d.status, { d with polls := d.polls - 1 })

/-- `inw(ATA_DATA)` -/
def inw (d : Drive) : UInt16 × Drive :=
  match d.transfer with
  | .toHost block i =>
    (block.word i, { d with transfer := if i = 255 then .idle else .toHost block (i + 1) })
  | _ => (0xFFFF, d)

/-- `outw(ATA_DATA, word)` -/
def outw (word : UInt16) (d : Drive) : Drive :=
  match d.transfer with
  | .toDrive block i =>
    let block := block.setWord i word
    if i = 255 then
      { d.answer with transfer := .idle, disk := d.store (d.answers 0) block }
    else { d with transfer := .toDrive block (i + 1) }
  | _ => d

end Drive

/-! ## The driver -/

def ataDrive : ℕ := 0x1F6
def ataSecCount : ℕ := 0x1F2
def ataLba0 : ℕ := 0x1F3
def ataLba1 : ℕ := 0x1F4
def ataLba2 : ℕ := 0x1F5
def ataCommand : ℕ := 0x1F7
def ataStatusErr : UInt8 := 0x01
def ataStatusDrq : UInt8 := 0x08
def ataStatusBsy : UInt8 := 0x80
def ataCmdRead : UInt8 := 0x20
def ataCmdWrite : UInt8 := 0x30
def ataCmdFlush : UInt8 := 0xE7

def ataIoDelay (d : Drive) : Drive :=
  let d := d.inbStatus.2
  let d := d.inbStatus.2
  let d := d.inbStatus.2
  d.inbStatus.2

/-- The loop of `ata_wait_ready`. -/
def waitReadyFrom : ℕ → Drive → Bool × Drive
  | 0, d => (false, d)
  | todo + 1, d =>
    let (status, d) := d.inbStatus
    if status &&& ataStatusBsy == 0 then (status &&& ataStatusErr == 0, d)
    else waitReadyFrom todo d

def ataWaitReady (d : Drive) : Bool × Drive := waitReadyFrom 100000 d

/-- The loop of `ata_wait_drq`. -/
def waitDrqFrom : ℕ → Drive → Bool × Drive
  | 0, d => (false, d)
  | todo + 1, d =>
    let (status, d) := d.inbStatus
    if status &&& ataStatusErr != 0 then (false, d)
    else if status &&& ataStatusBsy == 0 && status &&& ataStatusDrq != 0 then (true, d)
    else waitDrqFrom todo d

def ataWaitDrq (d : Drive) : Bool × Drive := waitDrqFrom 100000 d

/-- The six `outb` of a transfer. -/
def ataIssue (lba : UInt32) (command : UInt8) (d : Drive) : Drive :=
  let d := d.outb ataDrive ((0xE0 : UInt32) ||| lba >>> 24 &&& 0x0F).toUInt8
  let d := d.outb ataSecCount 1
  let d := d.outb ataLba0 (lba &&& 0xFF).toUInt8
  let d := d.outb ataLba1 (lba >>> 8 &&& 0xFF).toUInt8
  let d := d.outb ataLba2 (lba >>> 16 &&& 0xFF).toUInt8
  d.outb ataCommand command

/-- The drive and the caller's buffer. -/
structure Ports where
  drive : Drive
  buffer : Block

/-- `dst[i] = inw(ATA_DATA)` -/
def readWord (s : Ports) (i : ℕ) : Ports :=
  let (word, d) := s.drive.inw
  ⟨d, s.buffer.setWord i word⟩

/-- `outw(ATA_DATA, src[i])` -/
def writeWord (src : Block) (d : Drive) (i : ℕ) : Drive := d.outw (src.word i)

def ataReadSector (lba : UInt32) (s : Ports) : Bool × Ports :=
  if lba ≥ 0x10000000 then (false, s)
  else
    let (ready, d) := ataWaitReady s.drive
    if !ready then (false, { s with drive := d })
    else
      let (drq, d) := ataWaitDrq (ataIssue lba ataCmdRead d)
      if !drq then (false, { s with drive := d })
      else (true, (List.range 256).foldl readWord { s with drive := d })

def ataWriteSector (lba : UInt32) (s : Ports) : Bool × Ports :=
  if lba ≥ 0x10000000 then (false, s)
  else
    let (ready, d) := ataWaitReady s.drive
    if !ready then (false, { s with drive := d })
    else
      let (drq, d) := ataWaitDrq (ataIssue lba ataCmdWrite d)
      if !drq then (false, { s with drive := d })
      else
        let d := (List.range 256).foldl (writeWord s.buffer) d
        let (ready, d) := ataWaitReady ((ataIoDelay d).outb ataCommand ataCmdFlush)
        (ready, { s with drive := d })

/-! ## Waiting -/

section Waiting

variable {d : Drive}

theorem status_busy (h : 0 < d.polls) : d.status = 0x80 := if_pos h

theorem status_cases (h : d.polls = 0) :
    d.status = 0x41 ∧ d.error = true ∨ d.status = 0x40 ∧ d.error = false ∧ d.transfer = .idle ∨
      d.status = 0x48 ∧ d.error = false ∧ d.transfer ≠ .idle := by
  unfold Drive.status
  rw [if_neg (by omega)]
  cases d.error with
  | true => exact .inl ⟨rfl, rfl⟩
  | false =>
    right
    cases d.transfer with
    | idle => exact .inl ⟨rfl, rfl, rfl⟩
    | toHost block i => exact .inr ⟨rfl, rfl, nofun⟩
    | toDrive block i => exact .inr ⟨rfl, rfl, nofun⟩

theorem status_bsy (h : d.polls = 0) : (d.status &&& ataStatusBsy == 0) = true := by
  rcases status_cases h with ⟨hs, -⟩ | ⟨hs, -⟩ | ⟨hs, -⟩ <;> rw [hs] <;> decide

theorem status_err (h : d.polls = 0) : (d.status &&& ataStatusErr == 0) = !d.error := by
  rcases status_cases h with ⟨hs, he⟩ | ⟨hs, he, -⟩ | ⟨hs, he, -⟩ <;> rw [hs, he] <;> decide

theorem status_drq (h : d.polls = 0) (herror : d.error = false) (hdata : d.transfer ≠ .idle) :
    (d.status &&& ataStatusDrq != 0) = true := by
  rcases status_cases h with ⟨hs, he⟩ | ⟨hs, he, ht⟩ | ⟨hs, he, -⟩
  · rw [herror] at he
    contradiction
  · exact absurd ht hdata
  · rw [hs]
    decide

theorem waitReadyFrom_eq {todo : ℕ} (h : d.polls < todo) :
    waitReadyFrom todo d = (!d.error, { d with polls := 0 }) := by
  induction todo generalizing d with
  | zero => omega
  | succ todo ih =>
    unfold waitReadyFrom Drive.inbStatus
    dsimp only
    by_cases hbusy : 0 < d.polls
    · rw [status_busy hbusy, if_neg (by decide)]
      exact ih (show d.polls - 1 < todo by omega)
    · have hquiet : d.polls = 0 := by omega
      rw [status_bsy hquiet, status_err hquiet, if_pos rfl, hquiet]

theorem ataWaitReady_eq (h : d.polls < 100000) :
    ataWaitReady d = (!d.error, { d with polls := 0 }) := waitReadyFrom_eq h

theorem ataWaitReady_quiet (h : d.polls = 0) : ataWaitReady d = (!d.error, d) := by
  rw [ataWaitReady_eq (by rw [h]; decide), ← h]

theorem waitDrqFrom_eq {todo : ℕ} (h : d.polls < todo) (hdata : d.error = false →
    d.transfer ≠ .idle) : waitDrqFrom todo d = (!d.error, { d with polls := 0 }) := by
  induction todo generalizing d with
  | zero => omega
  | succ todo ih =>
    unfold waitDrqFrom Drive.inbStatus
    dsimp only
    by_cases hbusy : 0 < d.polls
    · rw [status_busy hbusy, if_neg (by decide), if_neg (by decide)]
      exact ih (show d.polls - 1 < todo by omega) hdata
    · have hquiet : d.polls = 0 := by omega
      rw [bne, status_err hquiet, Bool.not_not]
      cases herror : d.error with
      | true => rw [if_pos rfl, hquiet]; rfl
      | false =>
        rw [if_neg Bool.false_ne_true, status_bsy hquiet, status_drq hquiet herror (hdata herror),
          Bool.and_self, if_pos rfl, hquiet]
        rfl

theorem ataWaitDrq_eq (h : d.polls < 100000) (hdata : d.error = false → d.transfer ≠ .idle) :
    ataWaitDrq d = (!d.error, { d with polls := 0 }) := waitDrqFrom_eq h hdata

end Waiting

/-! ## Commands -/

section Commands

variable (lba : UInt32) (d : Drive)

/-- The registers before the command. -/
def addressed : Drive :=
  { d with
    device := ((0xE0 : UInt32) ||| lba >>> 24 &&& 0x0F).toUInt8
    secCount := 1
    lba0 := (lba &&& 0xFF).toUInt8
    lba1 := (lba >>> 8 &&& 0xFF).toUInt8
    lba2 := (lba >>> 16 &&& 0xFF).toUInt8 }

variable {lba d}

theorem ataIssue_eq (command : UInt8) (h : d.polls = 0) :
    ataIssue lba command d = (addressed lba d).command command := by
  simp [ataIssue, addressed, Drive.outb, ataDrive, ataSecCount, ataLba0, ataLba1, ataLba2,
    ataCommand, h]

theorem device_addressed :
    (addressed lba d).device = (0xE0 : UInt8) ||| (lba >>> 24).toUInt8 &&& 0x0F := by
  simp [addressed]

theorem device_and (y m : UInt8) :
    ((0xE0 : UInt8) ||| y &&& 0x0F) &&& m = ((0xE0 : UInt8) &&& m) ||| (y &&& (0x0F &&& m)) := by
  rw [← UInt8.and_assoc]
  apply UInt8.toBitVec_inj.1
  exact BitVec.and_or_distrib_right

/-- The four registers name the sector. -/
theorem lba_addressed (h : lba < 0x10000000) : (addressed lba d).lba = lba.toNat := by
  have hlt : lba.toNat < 2 ^ 28 := UInt32.lt_iff_toNat_lt.1 h
  have hdevice : (addressed lba d).device &&& (0x0F : UInt8) =
      (lba >>> 24).toUInt8 &&& (0x0F : UInt8) := by
    rw [device_addressed, device_and, show (0xE0 : UInt8) &&& (0x0F : UInt8) = 0 from rfl,
      UInt8.zero_or]
    rfl
  have hhigh : ((lba >>> 24).toUInt8 &&& 0x0F).toNat = lba.toNat / 2 ^ 24 := by
    rw [UInt8.toNat_and, UInt32.toNat_toUInt8, UInt32.toNat_shiftRight,
      show (0x0F : UInt8).toNat = 2 ^ 4 - 1 from rfl, Nat.and_two_pow_sub_one_eq_mod]
    simp only [Nat.shiftRight_eq_div_pow, UInt32.reduceToNat, Nat.reduceMod]
    omega
  have hbyte (n : UInt32) : (n &&& 0xFF).toUInt8.toNat = n.toNat % 256 := by
    rw [UInt32.toNat_toUInt8, UInt32.toNat_and, show (0xFF : UInt32).toNat = 2 ^ 8 - 1 from rfl,
      Nat.and_two_pow_sub_one_eq_mod]
    omega
  unfold Drive.lba
  rw [hdevice, hhigh]
  unfold addressed
  simp only [hbyte, UInt32.toNat_shiftRight, Nat.shiftRight_eq_div_pow, UInt32.reduceToNat,
    Nat.reduceMod]
  omega

theorem device_lbaMode : (addressed lba d).device &&& 0x50 = 0x40 := by
  rw [device_addressed, device_and, show (0x0F : UInt8) &&& (0x50 : UInt8) = 0 from rfl,
    UInt8.and_zero, UInt8.or_zero]
  rfl

/-- A read or a write of one sector. -/
theorem command_addressed {value : UInt8} (hvalue : value = ataCmdRead ∨ value = ataCmdWrite)
    (h : lba < 0x10000000) : (addressed lba d).command value =
      { (addressed lba d).answer with
        transfer := if (d.answers 0).error then .idle
          else if value = ataCmdRead then .toHost (d.disk lba.toNat) 0
          else .toDrive (fun _ => 0) 0 } := by
  have hflush : value ≠ 0xE7 := by rcases hvalue with rfl | rfl <;> decide
  unfold Drive.command
  dsimp only
  rw [if_neg hflush, lba_addressed h]
  cases herror : (d.answers 0).error with
  | true =>
    rw [if_pos (.inr (.inr (.inr herror))), if_pos rfl]
    exact congrArg (fun error => { (addressed lba d).answer with transfer := .idle, error })
      herror.symm
  | false =>
    rw [if_neg]
    · rw [if_neg Bool.false_ne_true]
      split
      next hread =>
        rw [if_pos (show value = ataCmdRead from hread)]
        rfl
      next hread =>
        rw [if_neg (show ¬value = ataCmdRead from hread)]
    · rintro (h | h | ⟨hread, hwrite⟩ | h)
      · exact h rfl
      · exact h device_lbaMode
      · exact hvalue.elim hread hwrite
      · rw [show ((addressed lba d).answers 0).error = false from herror] at h
        contradiction

/-- The driver waits for the data of a transfer or for its error. -/
theorem ataWaitDrq_issue {value : UInt8} (hvalue : value = ataCmdRead ∨ value = ataCmdWrite)
    (h : lba < 0x10000000) (hd : d.polls = 0) (hquick : (d.answers 0).polls < 100000) :
    ataWaitDrq (ataIssue lba value d) = (!(d.answers 0).error,
      { (addressed lba d).answer with
        polls := 0
        transfer := if (d.answers 0).error then .idle
          else if value = ataCmdRead then .toHost (d.disk lba.toNat) 0
          else .toDrive (fun _ => 0) 0 }) := by
  rw [ataIssue_eq value hd, command_addressed hvalue h, ataWaitDrq_eq hquick]
  · rfl
  · intro hok
    rw [if_neg (by rw [show (d.answers 0).error = false from hok]; decide)]
    split <;> nofun

end Commands

/-! ## The words -/

section Words

variable (b block : Block)

theorem word_low (i : ℕ) : (b.word i).toUInt8 = b (Fin.ofNat 512 (2 * i)) := by
  have hlow := (b (Fin.ofNat 512 (2 * i))).toNat_lt
  apply UInt8.toNat_inj.1
  unfold Block.word
  rw [UInt16.toNat_toUInt8, UInt16.toNat_ofNat']
  omega

theorem word_high (i : ℕ) : (b.word i >>> 8).toUInt8 = b (Fin.ofNat 512 (2 * i + 1)) := by
  have hlow := (b (Fin.ofNat 512 (2 * i))).toNat_lt
  have hhigh := (b (Fin.ofNat 512 (2 * i + 1))).toNat_lt
  apply UInt8.toNat_inj.1
  unfold Block.word
  rw [UInt16.toNat_toUInt8, UInt16.toNat_shiftRight, UInt16.toNat_ofNat',
    Nat.shiftRight_eq_div_pow]
  simp only [UInt16.reduceToNat, Nat.reduceMod]
  omega

/-- Two bytes go over with a word. -/
theorem setWord_word {i : ℕ} (j : Fin 512) : b.setWord i (block.word i) j =
    if j.val / 2 = i then block j else b j := by
  have hj := j.isLt
  unfold Block.setWord
  rw [word_low, word_high]
  by_cases hlow : j.val = 2 * i
  · rw [if_pos hlow, if_pos (by omega), ← hlow, Fin.ofNat_val_eq_self]
  · rw [if_neg hlow]
    by_cases hhigh : j.val = 2 * i + 1
    · rw [if_pos hhigh, if_pos (by omega), ← hhigh, Fin.ofNat_val_eq_self]
    · rw [if_neg hhigh, if_neg (by omega)]

/-- The first `n` words of the block. -/
theorem setWord_below {n : ℕ} :
    Block.setWord (fun j => if j.val / 2 < n then block j else b j) n (block.word n) =
      fun j => if j.val / 2 < n + 1 then block j else b j := by
  funext j
  rw [setWord_word]
  by_cases heq : j.val / 2 = n
  · rw [if_pos heq, if_pos (by omega)]
  · rw [if_neg heq]
    by_cases hlt : j.val / 2 < n
    · rw [if_pos hlt, if_pos (by omega)]
    · rw [if_neg hlt, if_neg (by omega)]

theorem below_all : (fun j : Fin 512 => if j.val / 2 < 256 then block j else b j) = block := by
  funext j
  exact if_pos (by omega)

variable {b block}

theorem readWords {s : Ports} (h : s.drive.transfer = .toHost block 0) {n : ℕ} (hn : n ≤ 256) :
    (List.range n).foldl readWord s =
      ⟨{ s.drive with transfer := if n = 256 then .idle else .toHost block n },
        fun j => if j.val / 2 < n then block j else s.buffer j⟩ := by
  induction n with
  | zero =>
    rw [if_neg (by decide), ← h]
    rfl
  | succ n ih =>
    rw [List.range_succ, List.foldl_append, ih (by omega), if_neg (by omega), List.foldl_cons,
      List.foldl_nil]
    unfold readWord Drive.inw
    dsimp only
    rw [setWord_below, if_congr (show n = 255 ↔ n + 1 = 256 by omega) rfl rfl]

theorem writeWords {d : Drive} (h : d.transfer = .toDrive block 0) {n : ℕ} (hn : n < 256) :
    (List.range n).foldl (writeWord b) d =
      { d with transfer := .toDrive (fun j => if j.val / 2 < n then b j else block j) n } := by
  induction n with
  | zero =>
    show d = { d with transfer := .toDrive block 0 }
    rw [← h]
  | succ n ih =>
    rw [List.range_succ, List.foldl_append, ih (by omega), List.foldl_cons, List.foldl_nil]
    unfold writeWord Drive.outw
    dsimp only
    rw [setWord_below, if_neg (by omega)]

/-- All the words are out. -/
theorem writeWords_all {d : Drive} (h : d.transfer = .toDrive block 0) :
    (List.range 256).foldl (writeWord b) d =
      { d.answer with transfer := .idle, disk := d.store (d.answers 0) b } := by
  rw [List.range_succ, List.foldl_append, writeWords h (by decide), List.foldl_cons,
    List.foldl_nil]
  unfold writeWord Drive.outw
  dsimp only
  rw [setWord_below, below_all, if_pos rfl]
  rfl

end Words

/-! ## One access -/

section Access

variable {lba : UInt32} {s : Ports}

/-- The drive neither works on a command nor waits for data. -/
structure Settled (d : Drive) : Prop where
  polls : d.polls = 0
  transfer : d.transfer = .idle

/-- Nothing happens while an error shows. -/
theorem ataReadSector_failed (hd : Settled s.drive) (herror : s.drive.error = true) :
    ataReadSector lba s = (false, s) := by
  have hready : ataWaitReady s.drive = (false, s.drive) := by
    rw [ataWaitReady_quiet hd.polls, herror, Bool.not_true]
  unfold ataReadSector
  rw [hready]
  split <;> rfl

theorem ataWriteSector_failed (hd : Settled s.drive) (herror : s.drive.error = true) :
    ataWriteSector lba s = (false, s) := by
  have hready : ataWaitReady s.drive = (false, s.drive) := by
    rw [ataWaitReady_quiet hd.polls, herror, Bool.not_true]
  unfold ataWriteSector
  rw [hready]
  split <;> rfl

/-- A drive that is done with an access, for which it has used some of its answers. -/
structure Done (d : Drive) (error : Bool) (disk : ℕ → Block) (used : ℕ) (d' : Drive) : Prop where
  settled : Settled d'
  error : d'.error = error
  disk : d'.disk = disk
  answers : d'.answers = fun n => d.answers (n + used)

/-- A read gives the sector or reports an error. -/
theorem ataReadSector_settled (hd : Settled s.drive) (herror : s.drive.error = false)
    (h : lba < 0x10000000) (hquick : (s.drive.answers 0).polls < 100000) :
    ∃ d', ataReadSector lba s = (!(s.drive.answers 0).error,
        ⟨d', if (s.drive.answers 0).error then s.buffer else s.drive.disk lba.toNat⟩) ∧
      Done s.drive (s.drive.answers 0).error s.drive.disk 1 d' := by
  unfold ataReadSector
  rw [if_neg (by simpa using h), ataWaitReady_quiet hd.polls, herror]
  dsimp only [Bool.not_false]
  rw [if_neg (by decide), ataWaitDrq_issue (.inl rfl) h hd.polls hquick]
  dsimp only
  cases ha : (s.drive.answers 0).error with
  | true =>
    rw [if_pos rfl]
    exact ⟨_, rfl, ⟨rfl, rfl⟩, ha, rfl, rfl⟩
  | false =>
    rw [if_neg Bool.false_ne_true, readWords rfl le_rfl, below_all]
    exact ⟨_, rfl, ⟨rfl, rfl⟩, ha, rfl, rfl⟩

theorem ataIoDelay_eq (d : Drive) : ataIoDelay d = { d with polls := d.polls - 4 } := rfl

/-- A drive that is still busy takes no notice of the flush. -/
theorem flush_busy {d : Drive} (hbusy : 4 < d.polls) (hquick : d.polls < 100000) :
    ataWaitReady ((ataIoDelay d).outb ataCommand ataCmdFlush) =
      (!d.error, { d with polls := 0 }) := by
  rw [ataIoDelay_eq, Drive.outb, if_pos (show 0 < d.polls - 4 by omega),
    ataWaitReady_eq (show d.polls - 4 < 100000 by omega)]

/-- A drive that is done forgets the error of the write. -/
theorem flush_taken {d : Drive} (hbusy : ¬4 < d.polls) (hquick : (d.answers 0).polls < 100000) :
    ataWaitReady ((ataIoDelay d).outb ataCommand ataCmdFlush) = (!(d.answers 0).error,
      { d.answer with
        polls := 0
        transfer := .idle
        disk := d.store (d.answers 0) (d.disk d.lba) }) := by
  have hcommand : ({ d with polls := d.polls - 4 } : Drive).outb ataCommand ataCmdFlush =
      { d.answer with transfer := .idle, disk := d.store (d.answers 0) (d.disk d.lba) } := by
    rw [Drive.outb, if_neg (show ¬0 < d.polls - 4 by omega)]
    rfl
  rw [ataIoDelay_eq, hcommand, ataWaitReady_eq hquick]
  rfl

theorem ataWriteSector_refused (hd : Settled s.drive) (herror : s.drive.error = false)
    (h : lba < 0x10000000) (hquick : (s.drive.answers 0).polls < 100000)
    (ha : (s.drive.answers 0).error = true) :
    ∃ d', ataWriteSector lba s = (false, ⟨d', s.buffer⟩) ∧ Done s.drive true s.drive.disk 1 d' := by
  unfold ataWriteSector
  rw [if_neg (by simpa using h), ataWaitReady_quiet hd.polls, herror]
  dsimp only [Bool.not_false]
  rw [if_neg (by decide), ataWaitDrq_issue (.inr rfl) h hd.polls hquick, ha]
  exact ⟨_, rfl, ⟨rfl, rfl⟩, ha, rfl, rfl⟩

/-- The drive once it has the data. -/
def written (lba : UInt32) (s : Ports) : Drive :=
  { (addressed lba s.drive).answer.answer with
    transfer := .idle
    disk := Function.update s.drive.disk lba.toNat
      (if (s.drive.answers 1).error then (s.drive.answers 1).left else s.buffer) }

theorem ataWriteSector_taken (hd : Settled s.drive) (herror : s.drive.error = false)
    (h : lba < 0x10000000) (hquick : (s.drive.answers 0).polls < 100000)
    (ha : (s.drive.answers 0).error = false) : ataWriteSector lba s =
      let (ready, d) := ataWaitReady ((ataIoDelay (written lba s)).outb ataCommand ataCmdFlush)
      (ready, ⟨d, s.buffer⟩) := by
  unfold ataWriteSector
  rw [if_neg (by simpa using h), ataWaitReady_quiet hd.polls, herror]
  dsimp only [Bool.not_false]
  rw [if_neg (by decide), ataWaitDrq_issue (.inr rfl) h hd.polls hquick, ha]
  dsimp only [Bool.not_false]
  rw [if_neg (by decide), writeWords_all rfl, written, ← lba_addressed (d := s.drive) h]
  rfl

/-- An error that the write itself ends with is seen where the drive takes its time. -/
theorem ataWriteSector_late (hd : Settled s.drive) (herror : s.drive.error = false)
    (h : lba < 0x10000000) (hquick : ∀ n, (s.drive.answers n).polls < 100000)
    (ha : (s.drive.answers 0).error = false) (hlate : 4 < (s.drive.answers 1).polls) :
    ∃ d', ataWriteSector lba s = (!(s.drive.answers 1).error, ⟨d', s.buffer⟩) ∧
      Done s.drive (s.drive.answers 1).error (Function.update s.drive.disk lba.toNat
        (if (s.drive.answers 1).error then (s.drive.answers 1).left else s.buffer)) 2 d' := by
  rw [ataWriteSector_taken hd herror h (hquick 0) ha, flush_busy hlate (hquick 1)]
  exact ⟨_, rfl, ⟨rfl, rfl⟩, rfl, rfl, rfl⟩

/-- Otherwise the answer to the flush counts. -/
theorem ataWriteSector_early (hd : Settled s.drive) (herror : s.drive.error = false)
    (h : lba < 0x10000000) (hquick : ∀ n, (s.drive.answers n).polls < 100000)
    (ha : (s.drive.answers 0).error = false) (hearly : ¬4 < (s.drive.answers 1).polls) :
    ∃ d', ataWriteSector lba s = (!(s.drive.answers 2).error, ⟨d', s.buffer⟩) ∧
      Done s.drive (s.drive.answers 2).error (Function.update s.drive.disk lba.toNat
        (if (s.drive.answers 2).error then (s.drive.answers 2).left
        else if (s.drive.answers 1).error then (s.drive.answers 1).left else s.buffer)) 3 d' := by
  rw [ataWriteSector_taken hd herror h (hquick 0) ha, flush_taken hearly (hquick 2)]
  refine ⟨_, rfl, ⟨rfl, rfl⟩, rfl, ?_, rfl⟩
  have hlba : (written lba s).lba = lba.toNat := lba_addressed (d := s.drive) h
  show (written lba s).store (s.drive.answers 2) ((written lba s).disk (written lba s).lba) = _
  rw [Drive.store, hlba, written, Function.update_idem]
  dsimp only
  rw [Function.update_self]

/-- A write is reported as done and is not, exactly where the drive ends it with an error before the
driver sends its flush and then does the flush. -/
theorem ataWriteSector_lost (hd : Settled s.drive) (herror : s.drive.error = false)
    (h : lba < 0x10000000) (hquick : ∀ n, (s.drive.answers n).polls < 100000)
    (hleft : ∀ n, (s.drive.answers n).left ≠ s.buffer) :
    (ataWriteSector lba s).1 = true ∧ (ataWriteSector lba s).2.drive.disk lba.toNat ≠ s.buffer ↔
      (s.drive.answers 0).error = false ∧ (s.drive.answers 1).error = true ∧
        (s.drive.answers 1).polls ≤ 4 ∧ (s.drive.answers 2).error = false := by
  cases ha : (s.drive.answers 0).error with
  | true =>
    obtain ⟨d', heq, -⟩ := ataWriteSector_refused hd herror h (hquick 0) ha
    rw [heq]
    simp
  | false =>
    by_cases hlate : 4 < (s.drive.answers 1).polls
    · obtain ⟨d', heq, hdone⟩ := ataWriteSector_late hd herror h hquick ha hlate
      rw [heq, hdone.disk, Function.update_self]
      cases (s.drive.answers 1).error with
      | true => simp [hlate]
      | false => simp
    · obtain ⟨d', heq, hdone⟩ := ataWriteSector_early hd herror h hquick ha hlate
      rw [heq, hdone.disk, Function.update_self]
      cases (s.drive.answers 2).error with
      | true => simp
      | false =>
        cases (s.drive.answers 1).error with
        | true => simpa [hleft 1] using hlate
        | false => simp

/-- A drive that takes `polls` reads of its status for every step. -/
def steadyDrive (errors : List ℕ) (polls : ℕ) : Drive where
  disk _ _ := 7
  secCount := 0
  lba0 := 0
  lba1 := 0
  lba2 := 0
  device := 0
  polls := 0
  error := false
  transfer := .idle
  answers n := ⟨polls, n ∈ errors, fun _ => 1⟩

def hastyPorts : Ports := ⟨steadyDrive [1] 2, fun _ => 0⟩

theorem ataWriteSector_lost_hasty : (ataWriteSector 9 hastyPorts).1 = true ∧
    (ataWriteSector 9 hastyPorts).2.drive.disk (9 : UInt32).toNat ≠ hastyPorts.buffer :=
  (ataWriteSector_lost ⟨rfl, rfl⟩ rfl (by decide) (fun _ => show 2 < 100000 by decide)
    fun _ h => absurd (congrFun h 0) (show ¬(1 : UInt8) = 0 by decide)).2 ⟨rfl, rfl, by decide, rfl⟩

/-- A drive that answers before the driver gives up, and reports no error at once. -/
structure Prompt (answers : ℕ → Answer) : Prop where
  quick : ∀ n, (answers n).polls < 100000
  late : ∀ n, (answers n).error = true → 4 < (answers n).polls

/-- A write that succeeds has stored the sector, and one that fails no other. -/
theorem ataWriteSector_settled (hd : Settled s.drive) (herror : s.drive.error = false)
    (h : lba < 0x10000000) (hprompt : Prompt s.drive.answers) :
    ∃ error disk used d', ataWriteSector lba s = (!error, ⟨d', s.buffer⟩) ∧
      Done s.drive error disk used d' ∧
      (error = false → disk = Function.update s.drive.disk lba.toNat s.buffer) ∧
      ∀ x, x ≠ lba.toNat → disk x = s.drive.disk x := by
  have hothers (b : Block) : ∀ x, x ≠ lba.toNat →
      Function.update s.drive.disk lba.toNat b x = s.drive.disk x :=
    fun x hx => Function.update_of_ne hx ..
  cases ha : (s.drive.answers 0).error with
  | true =>
    obtain ⟨d', heq, hdone⟩ := ataWriteSector_refused hd herror h (hprompt.quick 0) ha
    exact ⟨true, _, _, d', heq, hdone, nofun, fun _ _ => rfl⟩
  | false =>
    by_cases hlate : 4 < (s.drive.answers 1).polls
    · obtain ⟨d', heq, hdone⟩ := ataWriteSector_late hd herror h hprompt.quick ha hlate
      refine ⟨_, _, _, d', heq, hdone, fun hok => ?_, hothers _⟩
      rw [hok, if_neg Bool.false_ne_true]
    · obtain ⟨d', heq, hdone⟩ := ataWriteSector_early hd herror h hprompt.quick ha hlate
      have hnone : ¬(s.drive.answers 1).error = true := fun h => hlate (hprompt.late 1 h)
      refine ⟨_, _, _, d', heq, hdone, fun hok => ?_, hothers _⟩
      rw [hok, if_neg Bool.false_ne_true, if_neg hnone]

end Access

end MinervaOS.Devices.Ata
