import Mathlib.Algebra.GroupWithZero.Nat
import Mathlib.Data.List.Basic
import Mathlib.Tactic.Common

/-!
# The heap

The allocator keeps its blocks in the memory that it hands out: a header of twelve bytes in front
of each payload holds the size of the payload, whether it is in use, and the address of the next
header. Addresses are those of the machine, with 0 for `NULL`. A loop over the list is given as many
steps as the heap has bytes; `none` is a loop that has not ended by then.
-/

namespace MinervaOS.Heap

/-- The bytes of memory by their addresses. -/
abbrev Bytes := ℕ → UInt8

def read32 (m : Bytes) (a : ℕ) : ℕ :=
  (m a).toNat + 256 * ((m (a + 1)).toNat + 256 * ((m (a + 2)).toNat + 256 * (m (a + 3)).toNat))

def write8 (m : Bytes) (a : ℕ) (v : UInt8) : Bytes := fun x => if x = a then v else m x

def write32 (m : Bytes) (a v : ℕ) : Bytes :=
  write8 (write8 (write8 (write8 m a (UInt8.ofNat v)) (a + 1) (UInt8.ofNat (v / 256)))
    (a + 2) (UInt8.ofNat (v / 256 / 256))) (a + 3) (UInt8.ofNat (v / 256 / 256 / 256))

def heapSize : ℕ := 224 * 1024

/-- The size of `block_header_t`. -/
def headerSize : ℕ := 12

/-! ## Headers -/

section

variable (m : Bytes) (block : ℕ)

def size : ℕ := read32 m block

def inUse : Bool := m (block + 4) != 0

def next : ℕ := read32 m (block + 8)

def setSize (v : ℕ) : Bytes := write32 m block v

def setInUse (v : UInt8) : Bytes := write8 m (block + 4) v

def setNext (v : ℕ) : Bytes := write32 m (block + 8) v

end

/-! ## Operations -/

structure Heap where
  mem : Bytes
  freeList : ℕ

/-- `heap_memory` is at `base`. -/
def heapInit (base : ℕ) (m : Bytes) : Heap where
  mem := setNext (setInUse (setSize m base (heapSize - headerSize)) base 0) base 0
  freeList := base

/-- The loop of `kmalloc`: the best block so far and its size. -/
def findBest (m : Bytes) (wanted : ℕ) : ℕ → ℕ → ℕ → ℕ → Option (ℕ × ℕ)
  | 0, _, _, _ => none
  | steps + 1, current, bestFit, bestFitSize =>
    if current = 0 then some (bestFit, bestFitSize)
    else if !inUse m current && wanted ≤ size m current && size m current < bestFitSize then
      findBest m wanted steps (next m current) current (size m current)
    else findBest m wanted steps (next m current) bestFit bestFitSize

/-- The heap behind the call and the address that it returns. -/
def kmalloc (h : Heap) (wanted : ℕ) : Option (Heap × ℕ) :=
  if wanted = 0 || h.freeList = 0 then some (h, 0)
  else
    match findBest h.mem wanted heapSize h.freeList 0 (2 ^ 32 - 1) with
    | none => none
    | some (bestFit, _) =>
      if bestFit = 0 then some (h, 0)
      else
        let remaining := size h.mem bestFit - wanted
        let m :=
          if remaining > headerSize then
            let newBlock := bestFit + headerSize + wanted
            let m := setSize h.mem newBlock (remaining - headerSize)
            let m := setInUse m newBlock 0
            let m := setNext m newBlock (next m bestFit)
            setNext (setSize m bestFit wanted) bestFit newBlock
          else h.mem
        some ({ h with mem := setInUse m bestFit 1 }, bestFit + headerSize)

/-- The loop of `kfree`. -/
def coalesceFrom : ℕ → Bytes → ℕ → Option Bytes
  | 0, _, _ => none
  | steps + 1, m, current =>
    if current = 0 then some m
    else if !inUse m current && next m current != 0 && !inUse m (next m current) then
      let m := setSize m current (size m current + (headerSize + size m (next m current)))
      let m := setNext m current (next m (next m current))
      coalesceFrom steps m current
    else coalesceFrom steps m (next m current)

def kfree (h : Heap) (ptr : ℕ) : Option Heap :=
  if ptr = 0 || h.freeList = 0 then some h
  else
    let m := setInUse h.mem (ptr - headerSize) 0
    (coalesceFrom heapSize m h.freeList).map fun m => { h with mem := m }

/-! ## Reading what was written -/

variable {m : Bytes} {a x v : ℕ}

theorem write8_self (m : Bytes) (a : ℕ) (v : UInt8) : write8 m a v a = v := if_pos rfl

theorem write8_of_ne {v : UInt8} (h : x ≠ a) : write8 m a v x = m x := if_neg h

theorem write32_of_not (h : x < a ∨ a + 4 ≤ x) : write32 m a v x = m x := by
  rw [write32, write8_of_ne (by omega), write8_of_ne (by omega), write8_of_ne (by omega),
    write8_of_ne (by omega)]

theorem toNat_byte (v : ℕ) : (UInt8.ofNat v).toNat = v % 256 := rfl

theorem read32_write32 (h : v < 2 ^ 32) : read32 (write32 m a v) a = v := by
  have h0 : write32 m a v a = UInt8.ofNat v := by
    rw [write32, write8_of_ne (by omega), write8_of_ne (by omega), write8_of_ne (by omega),
      write8_self]
  have h1 : write32 m a v (a + 1) = UInt8.ofNat (v / 256) := by
    rw [write32, write8_of_ne (by omega), write8_of_ne (by omega), write8_self]
  have h2 : write32 m a v (a + 2) = UInt8.ofNat (v / 256 / 256) := by
    rw [write32, write8_of_ne (by omega), write8_self]
  have h3 : write32 m a v (a + 3) = UInt8.ofNat (v / 256 / 256 / 256) := by
    rw [write32, write8_self]
  rw [read32, h0, h1, h2, h3, toNat_byte, toNat_byte, toNat_byte, toNat_byte]
  omega

/-- What is read depends on the four bytes. -/
theorem read32_congr {m m' : Bytes} (h : ∀ x, a ≤ x → x < a + 4 → m' x = m x) :
    read32 m' a = read32 m a := by
  rw [read32, read32, h a (by omega) (by omega), h (a + 1) (by omega) (by omega),
    h (a + 2) (by omega) (by omega), h (a + 3) (by omega) (by omega)]

end MinervaOS.Heap
