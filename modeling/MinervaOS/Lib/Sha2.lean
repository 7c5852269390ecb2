import Mathlib.Data.Nat.NthRoot.Defs
import Mathlib.Data.Nat.Prime.Basic
import Mathlib.Data.List.Basic
import Mathlib.Algebra.GroupWithZero.Nat
import Mathlib.Tactic.Ring

/-!
# SHA-256 as the standard has it

A message is a list of bits. It is padded with a bit 1, the fewest bits 0 that leave 64 bits of the
last block of 512, and its length; the blocks are compressed in order. The constants are the first
32 bits of the fractional parts of the square roots and the cube roots of the first primes.
-/

namespace MinervaOS.Sha2

abbrev Word := BitVec 32

/-! ## Bits -/

/-- The `w` low bits of a number, the highest first. -/
def bitsOf (w n : ℕ) : List Bool := (List.range w).map fun i => n.testBit (w - 1 - i)

/-- The number of a list of bits, the highest first. -/
def ofBits (bits : List Bool) : ℕ := bits.foldl (fun n bit => 2 * n + bit.toNat) 0

theorem length_bitsOf (w n : ℕ) : (bitsOf w n).length = w := by
  rw [bitsOf, List.length_map, List.length_range]

theorem bitsOf_succ (w n : ℕ) : bitsOf (w + 1) n = bitsOf w (n / 2) ++ [n.testBit 0] := by
  unfold bitsOf
  rw [List.range_succ, List.map_append, List.map_singleton]
  congr 1
  · apply List.map_congr_left
    intro i hi
    have hlt := List.mem_range.1 hi
    rw [← Nat.testBit_add_one, show w + 1 - 1 - i = w - 1 - i + 1 by omega]
  · rw [show w + 1 - 1 - w = 0 by omega]

theorem ofBits_append_singleton (bits : List Bool) (bit : Bool) :
    ofBits (bits ++ [bit]) = 2 * ofBits bits + bit.toNat := by
  rw [ofBits, List.foldl_append]
  rfl

theorem ofBits_bitsOf (w n : ℕ) : ofBits (bitsOf w n) = n % 2 ^ w := by
  induction w generalizing n with
  | zero => rw [pow_zero, Nat.mod_one]; rfl
  | succ w ih =>
    rw [bitsOf_succ, ofBits_append_singleton, ih, Nat.testBit_zero, pow_succ', Nat.mod_mul]
    rcases Nat.mod_two_eq_zero_or_one n with h | h
    · rw [h]
      simp
    · rw [h]
      simp [Nat.add_comm]

/-- The bits of a number in two parts. -/
theorem bitsOf_add (v w n : ℕ) : bitsOf (v + w) n = bitsOf v (n / 2 ^ w) ++ bitsOf w n := by
  unfold bitsOf
  rw [List.range_add, List.map_append, List.map_map]
  congr 1
  · apply List.map_congr_left
    intro i hi
    have hlt := List.mem_range.1 hi
    rw [Nat.testBit_div_two_pow, show v + w - 1 - i = v - 1 - i + w by omega]
  · apply List.map_congr_left
    intro i hi
    rw [Function.comp_apply, show v + w - 1 - (v + i) = w - 1 - i by omega]

/-- Only the low bits matter. -/
theorem bitsOf_mod {v w : ℕ} (n : ℕ) (h : w ≤ v) : bitsOf w (n % 2 ^ v) = bitsOf w n := by
  unfold bitsOf
  apply List.map_congr_left
  intro i hi
  have hlt := List.mem_range.1 hi
  rw [Nat.testBit_mod_two_pow, decide_eq_true (by omega), Bool.true_and]

/-- The bytes of a number, the highest first, have its bits. -/
theorem flatMap_bytes (k n : ℕ) :
    (List.range k).flatMap (fun i => bitsOf 8 (n / 2 ^ (8 * (k - 1 - i)))) = bitsOf (8 * k) n := by
  induction k with
  | zero => rfl
  | succ k ih =>
    rw [List.range_succ_eq_map, List.flatMap_cons, List.flatMap_map,
      show 8 * (k + 1) = 8 + 8 * k by ring, bitsOf_add, ← ih, show k + 1 - 1 - 0 = k by omega]
    congr 1
    apply List.flatMap_congr
    intro i hi
    rw [show k + 1 - 1 - (i + 1) = k - 1 - i by omega]

/-! ## The functions of words -/

def ch (x y z : Word) : Word := (x &&& y) ^^^ (~~~x &&& z)

def maj (x y z : Word) : Word := (x &&& y) ^^^ (x &&& z) ^^^ (y &&& z)

def bigSigma0 (x : Word) : Word := x.rotateRight 2 ^^^ x.rotateRight 13 ^^^ x.rotateRight 22

def bigSigma1 (x : Word) : Word := x.rotateRight 6 ^^^ x.rotateRight 11 ^^^ x.rotateRight 25

def smallSigma0 (x : Word) : Word := x.rotateRight 7 ^^^ x.rotateRight 18 ^^^ x >>> 3

def smallSigma1 (x : Word) : Word := x.rotateRight 17 ^^^ x.rotateRight 19 ^^^ x >>> 10

/-! ## The constants -/

/-- The first sixty-four primes. -/
def primes : List ℕ := (List.range 312).filter Nat.Prime

/-- The first 32 bits of the fractional part of the `n`-th root. -/
def fraction (n p : ℕ) : Word := BitVec.ofNat 32 (Nat.nthRoot n (p * 2 ^ (32 * n)))

def roundConstants : List Word := primes.map (fraction 3)

/-- Eight words: a hash value, or the working variables of a round. -/
structure Words where
  a : Word
  b : Word
  c : Word
  d : Word
  e : Word
  f : Word
  g : Word
  h : Word

namespace Words

def ofList (l : List Word) : Words :=
  ⟨l.getD 0 0, l.getD 1 0, l.getD 2 0, l.getD 3 0, l.getD 4 0, l.getD 5 0, l.getD 6 0, l.getD 7 0⟩

def toList (v : Words) : List Word := [v.a, v.b, v.c, v.d, v.e, v.f, v.g, v.h]

def add (v w : Words) : Words :=
  ⟨v.a + w.a, v.b + w.b, v.c + w.c, v.d + w.d, v.e + w.e, v.f + w.f, v.g + w.g, v.h + w.h⟩

end Words

def initialHash : Words := .ofList ((primes.take 8).map (fraction 2))

/-! ## Compression -/

/-- The words `W` of a block. -/
def scheduled (block : ℕ → Word) (t : ℕ) : Word :=
  if t < 16 then block t
  else
    smallSigma1 (scheduled block (t - 2)) + scheduled block (t - 7)
      + smallSigma0 (scheduled block (t - 15)) + scheduled block (t - 16)
termination_by t

def round (v : Words) (k w : Word) : Words :=
  let t1 := v.h + bigSigma1 v.e + ch v.e v.f v.g + k + w
  let t2 := bigSigma0 v.a + maj v.a v.b v.c
  ⟨t1 + t2, v.a, v.b, v.c, v.d + t1, v.e, v.f, v.g⟩

def compress (hash : Words) (block : ℕ → Word) : Words :=
  ((List.range 64).foldl (fun v t =>
    round v (roundConstants.getD t 0) (scheduled block t)) hash).add
    hash

/-! ## Messages -/

/-- How many bits 0 the padding has. -/
def zeros (length : ℕ) : ℕ := (959 - length % 512) % 512

/-- It is the least number that leaves 64 bits of a block. -/
theorem zeros_least (length k : ℕ) :
    (length + 1 + zeros length) % 512 = 448 ∧
      ((length + 1 + k) % 512 = 448 → zeros length ≤ k) := by
  unfold zeros
  omega

def pad (message : List Bool) : List Bool :=
  message ++ true :: List.replicate (zeros message.length) false ++ bitsOf 64 message.length

/-- Word `t` of block `i`. -/
def blockWord (message : List Bool) (i t : ℕ) : Word :=
  BitVec.ofNat 32 (ofBits ((message.drop (512 * i + 32 * t)).take 32))

/-- The hash value after the blocks of a message that is padded. -/
def hashBlocks (hash : Words) (padded : List Bool) : Words :=
  (List.range (padded.length / 512)).foldl (fun hash i => compress hash (blockWord padded i)) hash

def sha256 (message : List Bool) : List Bool :=
  (hashBlocks initialHash (pad message)).toList.flatMap fun w => bitsOf 32 w.toNat

theorem length_pad (message : List Bool) :
    (pad message).length = message.length + 1 + zeros message.length + 64 := by
  simp only [pad, List.length_append, List.length_cons, List.length_replicate, length_bitsOf]
  omega

theorem scheduled_of_lt {block : ℕ → Word} {t : ℕ} (h : t < 16) : scheduled block t = block t := by
  rw [scheduled, if_pos h]

theorem scheduled_of_ge {block : ℕ → Word} {t : ℕ} (h : 16 ≤ t) : scheduled block t =
    smallSigma1 (scheduled block (t - 2)) + scheduled block (t - 7)
      + smallSigma0 (scheduled block (t - 15)) + scheduled block (t - 16) := by
  rw [scheduled, if_neg (by omega)]

end MinervaOS.Sha2
