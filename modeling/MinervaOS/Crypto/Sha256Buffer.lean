import MinervaOS.Crypto.Sha256
import Mathlib.Data.List.Basic

/-!
# The block buffer of SHA-256

The hash over the array of 64 bytes that the driver has for a block: it is written byte by byte, and
what earlier blocks left behind the index stays there until it is written over. The hash is the one
that takes only the bytes before the index (`hash_eq`), whatever the array held at the start.
-/

namespace MinervaOS.Crypto

namespace BlockBuffer

structure Ctx where
  state : List UInt32
  bitLen : UInt64
  buffer : List UInt8
  bufferLen : UInt8

/-- The array is not written. -/
def sha256Init (buffer : List UInt8) : Ctx := ⟨Crypto.sha256Init.state, 0, buffer, 0⟩

/-- The body of the loop of `sha256_update`. -/
def updateByte (ctx : Ctx) (byte : UInt8) : Ctx :=
  let ctx := { ctx with
    buffer := ctx.buffer.set ctx.bufferLen.toNat byte
    bufferLen := ctx.bufferLen + 1
    bitLen := ctx.bitLen + 8 }
  if ctx.bufferLen == 64 then
    { ctx with state := sha256Transform ctx.state ctx.buffer, bufferLen := 0 }
  else ctx

def sha256Update (ctx : Ctx) (data : List UInt8) : Ctx := data.foldl updateByte ctx

/-- `while (i < limit) buffer[i++] = 0`, where `todo` is what is left to the limit. -/
def zeroFrom (buffer : List UInt8) (i : ℕ) : ℕ → List UInt8
  | 0 => buffer
  | todo + 1 => zeroFrom (buffer.set i 0) (i + 1) todo

/-- The bytes at an index and behind it, one after the other. -/
def writeFrom (buffer : List UInt8) (i : ℕ) : List UInt8 → List UInt8
  | [] => buffer
  | byte :: bytes => writeFrom (buffer.set i byte) (i + 1) bytes

def sha256Final (ctx : Ctx) : List UInt8 :=
  let i := ctx.bufferLen.toNat
  let buffer := ctx.buffer.set i 0x80
  let i := i + 1
  let (state, buffer, i) :=
    if i > 56 then
      let buffer := zeroFrom buffer i (64 - i)
      (sha256Transform ctx.state buffer, buffer, 0)
    else (ctx.state, buffer, i)
  let buffer := zeroFrom buffer i (56 - i)
  let buffer := writeFrom buffer 56 (storeBe64 ctx.bitLen)
  (sha256Transform state buffer).flatMap storeBe32

def sha256Hash (garbage data : List UInt8) : List UInt8 :=
  sha256Final (sha256Update (sha256Init garbage) data)

/-! ## The bytes before the index -/

theorem take_set {buffer : List UInt8} {i : ℕ} (h : i < buffer.length) (byte : UInt8) :
    (buffer.set i byte).take (i + 1) = buffer.take i ++ [byte] := by
  have hlen : (buffer.take i ++ [byte]).length = i + 1 := by
    rw [List.length_append, List.length_take_of_le (Nat.le_of_lt h), List.length_singleton]
  rw [List.set_eq_take_append_cons_drop, if_pos h, List.append_cons, List.take_left' hlen]

theorem writeFrom_eq (bytes : List UInt8) {buffer : List UInt8} {i : ℕ}
    (h : i + bytes.length ≤ buffer.length) :
    writeFrom buffer i bytes = buffer.take i ++ bytes ++ buffer.drop (i + bytes.length) := by
  induction bytes generalizing buffer i with
  | nil => simp [writeFrom]
  | cons byte bytes ih =>
    rw [List.length_cons] at h
    rw [writeFrom, ih (by rw [List.length_set]; omega), take_set (by omega),
      List.drop_set_of_lt (by omega), List.length_cons, List.append_assoc, List.append_assoc,
      List.singleton_append, List.append_assoc, List.cons_append,
      show i + 1 + bytes.length = i + (bytes.length + 1) by omega]

theorem zeroFrom_eq_writeFrom (buffer : List UInt8) (i todo : ℕ) :
    zeroFrom buffer i todo = writeFrom buffer i (List.replicate todo 0) := by
  induction todo generalizing buffer i with
  | zero => rfl
  | succ todo ih =>
    rw [List.replicate_succ]
    exact ih _ _

theorem zeroFrom_eq {buffer : List UInt8} {i todo : ℕ} (h : i + todo ≤ buffer.length) :
    zeroFrom buffer i todo =
      buffer.take i ++ List.replicate todo 0 ++ buffer.drop (i + todo) := by
  rw [zeroFrom_eq_writeFrom, writeFrom_eq _ (by rw [List.length_replicate]; exact h),
    List.length_replicate]

/-- The last block, from the bytes that are there. -/
theorem lastBlock_eq {buffer : List UInt8} {i : ℕ} (h : buffer.length = 64) (hi : i ≤ 56)
    (bitLen : UInt64) :
    writeFrom (zeroFrom buffer i (56 - i)) 56 (storeBe64 bitLen) =
      buffer.take i ++ List.replicate (56 - i) 0 ++ storeBe64 bitLen := by
  have hstore : (storeBe64 bitLen).length = 8 := by
    rw [storeBe64, List.length_map, List.length_range]
  have hzero : zeroFrom buffer i (56 - i) =
      buffer.take i ++ List.replicate (56 - i) 0 ++ buffer.drop 56 := by
    rw [zeroFrom_eq (by omega), show i + (56 - i) = 56 by omega]
  have hfront : (buffer.take i ++ List.replicate (56 - i) 0).length = 56 := by
    rw [List.length_append, List.length_take_of_le (by omega), List.length_replicate]
    omega
  have hall : (buffer.take i ++ List.replicate (56 - i) 0 ++ buffer.drop 56).length = 64 := by
    rw [List.length_append, hfront, List.length_drop]
    omega
  rw [hzero, writeFrom_eq _ (by omega), hstore, List.take_left' hfront,
    List.drop_of_length_le (by omega), List.append_nil]

/-- The array and the list of the bytes that it holds. -/
structure Matches (ctx : Ctx) (abstract : Sha256Ctx) : Prop where
  state : ctx.state = abstract.state
  bitLen : ctx.bitLen = abstract.bitLen
  size : ctx.buffer.length = 64
  room : ctx.bufferLen.toNat < 64
  bytes : abstract.buffer = ctx.buffer.take ctx.bufferLen.toNat

theorem matches_init {buffer : List UInt8} (h : buffer.length = 64) :
    Matches (sha256Init buffer) Crypto.sha256Init := ⟨rfl, rfl, h, Nat.zero_lt_succ 63, rfl⟩

theorem Matches.updateByte {ctx : Ctx} {abstract : Sha256Ctx} (h : Matches ctx abstract)
    (byte : UInt8) : Matches (updateByte ctx byte) (Crypto.sha256Update abstract [byte]) := by
  have hroom := h.room
  have hsize := h.size
  have hnext : (ctx.bufferLen + 1).toNat = ctx.bufferLen.toNat + 1 := by
    rw [UInt8.toNat_add]
    simp only [UInt8.reduceToNat]
    omega
  have hbytes : abstract.buffer ++ [byte] =
      (ctx.buffer.set ctx.bufferLen.toNat byte).take (ctx.bufferLen + 1).toNat := by
    rw [h.bytes, hnext, take_set (by omega)]
  have hlength : (abstract.buffer ++ [byte]).length = ctx.bufferLen.toNat + 1 := by
    rw [hbytes, hnext, List.length_take_of_le (by rw [List.length_set]; omega)]
  have hfull : (ctx.bufferLen + 1 == 64) = true ↔ (abstract.buffer ++ [byte]).length = 64 := by
    rw [hlength, beq_iff_eq, ← UInt8.toNat_inj, hnext]
    rfl
  show Matches (if ctx.bufferLen + 1 == 64 then
      ⟨sha256Transform ctx.state (ctx.buffer.set ctx.bufferLen.toNat byte), ctx.bitLen + 8,
        ctx.buffer.set ctx.bufferLen.toNat byte, 0⟩
    else ⟨ctx.state, ctx.bitLen + 8, ctx.buffer.set ctx.bufferLen.toNat byte, ctx.bufferLen + 1⟩)
    (if (abstract.buffer ++ [byte]).length = 64 then
      ⟨sha256Transform abstract.state (abstract.buffer ++ [byte]), abstract.bitLen + 8, []⟩
    else ⟨abstract.state, abstract.bitLen + 8, abstract.buffer ++ [byte]⟩)
  have hset : (ctx.buffer.set ctx.bufferLen.toNat byte).length =
    64 := by rw [List.length_set, hsize]
  by_cases hlast : (abstract.buffer ++ [byte]).length = 64
  · rw [if_pos (hfull.2 hlast), if_pos hlast]
    refine ⟨?_, by rw [h.bitLen], hset, Nat.zero_lt_succ 63, rfl⟩
    rw [h.state, hbytes, hnext, List.take_of_length_le (by rw [hset]; omega)]
  · rw [if_neg (fun h => hlast (hfull.1 h)), if_neg hlast]
    refine ⟨h.state, by rw [h.bitLen], hset, ?_, hbytes⟩
    rw [hnext]
    omega

theorem Matches.update {ctx : Ctx} {abstract : Sha256Ctx} (h : Matches ctx abstract)
    (data : List UInt8) :
    Matches (sha256Update ctx data) (Crypto.sha256Update abstract data) := by
  induction data generalizing ctx abstract with
  | nil => exact h
  | cons byte data ih => exact ih (h.updateByte byte)

theorem Matches.final {ctx : Ctx} {abstract : Sha256Ctx} (h : Matches ctx abstract) :
    sha256Final ctx = Crypto.sha256Final abstract := by
  have hroom := h.room
  have hsize := h.size
  have hbytes : (ctx.buffer.set ctx.bufferLen.toNat 0x80).take (ctx.bufferLen.toNat + 1)
      = abstract.buffer ++ [0x80] := by
    rw [take_set (by omega), h.bytes]
  have hset : (ctx.buffer.set ctx.bufferLen.toNat 0x80).length = 64 := by
    rw [List.length_set, hsize]
  have hlength : (abstract.buffer ++ [0x80]).length = ctx.bufferLen.toNat + 1 := by
    rw [← hbytes, List.length_take_of_le (by omega)]
  unfold sha256Final Crypto.sha256Final
  dsimp only
  rw [hlength, h.state, h.bitLen]
  by_cases htwo : ctx.bufferLen.toNat + 1 > 56
  · have hzero : zeroFrom (ctx.buffer.set ctx.bufferLen.toNat 0x80) (ctx.bufferLen.toNat + 1)
        (64 - (ctx.bufferLen.toNat + 1)) = abstract.buffer ++ [0x80] ++
          List.replicate (64 - (ctx.bufferLen.toNat + 1)) 0 := by
      rw [zeroFrom_eq (by omega), hbytes, List.drop_of_length_le (by omega), List.append_nil]
    have hzeroLength : (abstract.buffer ++ [0x80] ++
        List.replicate (64 - (ctx.bufferLen.toNat + 1)) 0).length = 64 := by
      rw [List.length_append, hlength, List.length_replicate]
      omega
    rw [if_pos htwo, if_pos htwo]
    dsimp only
    rw [hzero, lastBlock_eq hzeroLength (Nat.zero_le 56)]
    rfl
  · rw [if_neg htwo, if_neg htwo]
    dsimp only
    rw [lastBlock_eq hset (by omega), hbytes, hlength]

/-- The hash does not depend on what the array held. -/
theorem hash_eq {garbage : List UInt8} (h : garbage.length = 64) (data : List UInt8) :
    sha256Hash garbage data = Crypto.sha256Hash data := ((matches_init h).update data).final

end BlockBuffer

end MinervaOS.Crypto
