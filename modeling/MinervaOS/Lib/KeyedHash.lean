import Mathlib.Data.List.Basic
import Mathlib.Algebra.GroupWithZero.Nat

/-!
# Keyed hashes and the streams that they make

A hash of byte strings over blocks of `size` bytes makes a keyed hash; a keyed hash makes from a
seed a stream of blocks, each the hash of the next link of a chain with the seed behind it.
-/

namespace MinervaOS.KeyedHash

section Hmac

variable (hash : List UInt8 → List UInt8) (size : ℕ)

/-- A key that is longer than a block is hashed, and zeros fill the block. -/
def keyBlock (key : List UInt8) : List UInt8 :=
  let key := if key.length > size then hash key else key
  key ++ List.replicate (size - key.length) 0

def hmac (key text : List UInt8) : List UInt8 :=
  hash ((keyBlock hash size key).map (· ^^^ 0x5C) ++
    hash ((keyBlock hash size key).map (· ^^^ 0x36) ++ text))

end Hmac

section Stream

variable (mac : List UInt8 → List UInt8) (seed : List UInt8)

/-- `A(i)` -/
def chain : ℕ → List UInt8
  | 0 => seed
  | i + 1 => mac (chain i)

def block (i : ℕ) : List UInt8 := mac (chain mac seed (i + 1) ++ seed)

/-- The first `n` blocks of the stream. -/
def pHash (n : ℕ) : List UInt8 := (List.range n).flatMap (block mac seed)

theorem pHash_succ (n : ℕ) : pHash mac seed (n + 1) = pHash mac seed n ++ block mac seed n := by
  unfold pHash
  rw [List.range_succ, List.flatMap_append, List.flatMap_singleton]

variable {mac} {size : ℕ} (hsize : ∀ text, (mac text).length = size)
include hsize

theorem length_pHash (n : ℕ) : (pHash mac seed n).length = size * n := by
  induction n with
  | zero => rfl
  | succ n ih =>
    rw [pHash_succ, List.length_append, ih, block, hsize, Nat.mul_succ]

/-- More blocks do not change the bytes of the first ones. -/
theorem take_pHash {len m n : ℕ} (hm : len ≤ size * m) (hmn : m ≤ n) :
    (pHash mac seed n).take len = (pHash mac seed m).take len := by
  obtain ⟨k, rfl⟩ := Nat.exists_eq_add_of_le hmn
  induction k with
  | zero => rfl
  | succ k ih =>
    have hlen : len ≤ (pHash mac seed (m + k)).length := by
      rw [length_pHash seed hsize]
      exact Nat.le_trans hm (Nat.mul_le_mul_left size (Nat.le_add_right m k))
    rw [← Nat.add_assoc, pHash_succ, List.take_append_of_le_length hlen, ih (Nat.le_add_right m k)]

end Stream

end MinervaOS.KeyedHash
