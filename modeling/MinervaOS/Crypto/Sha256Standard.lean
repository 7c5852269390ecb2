import MinervaOS.Crypto.Sha256Buffer
import MinervaOS.Lib.Sha2
import Mathlib.Data.List.GetD
import Mathlib.Data.List.Induction

/-!
# The hash is the standard's

The driver's hash of a byte string has the bits of the standard's digest of the bits of the string.
Words and rounds agree one by one; the blocks that the driver fills byte by byte are those of the
padded message (`update_spec`, `final_spec`).
-/

namespace MinervaOS.Crypto

open Sha2

/-- The bits of a byte string, the highest of each byte first. -/
def byteBits (bytes : List UInt8) : List Bool := bytes.flatMap fun b => bitsOf 8 b.toNat

/-! ## Words -/

theorem rotr32_toBitVec (x s : UInt32) (hpos : 0 < s.toNat) (hlt : s.toNat < 32) :
    (rotr32 x s).toBitVec = x.toBitVec.rotateRight s.toNat := by
  have hsub : (32 - s).toNat = 32 - s.toNat := by
    rw [UInt32.toNat_sub]
    simp only [UInt32.reduceToNat]
    omega
  apply BitVec.eq_of_toNat_eq
  rw [BitVec.rotateRight_def, Nat.mod_eq_of_lt hlt, BitVec.toNat_or, BitVec.toNat_ushiftRight,
    BitVec.toNat_shiftLeft, UInt32.toNat_toBitVec, UInt32.toNat_toBitVec, rotr32, UInt32.toNat_or,
    UInt32.toNat_shiftRight, UInt32.toNat_shiftLeft, hsub, Nat.mod_eq_of_lt hlt,
    Nat.mod_eq_of_lt (show 32 - s.toNat < 32 by omega)]

theorem byte_toNat (x : UInt32) (k : ℕ) (hk : k < 32) :
    (x >>> UInt32.ofNat k).toUInt8.toNat = x.toNat / 2 ^ k % 2 ^ 8 := by
  have hmod : (UInt32.ofNat k).toNat % 32 = k := by
    rw [UInt32.toNat_ofNat']
    omega
  rw [UInt32.toNat_toUInt8, UInt32.toNat_shiftRight, hmod, Nat.shiftRight_eq_div_pow]

theorem storeBe32_bits (x : UInt32) : byteBits (storeBe32 x) = bitsOf 32 x.toNat := by
  have h24 := byte_toNat x 24 (by decide)
  have h16 := byte_toNat x 16 (by decide)
  have h8 := byte_toNat x 8 (by decide)
  have h0 : x.toUInt8.toNat = x.toNat / 2 ^ 0 % 2 ^ 8 := by
    rw [UInt32.toNat_toUInt8, pow_zero, Nat.div_one]
  rw [← flatMap_bytes 4]
  show bitsOf 8 (x >>> UInt32.ofNat 24).toUInt8.toNat ++
    (bitsOf 8 (x >>> UInt32.ofNat 16).toUInt8.toNat ++
    (bitsOf 8 (x >>> UInt32.ofNat 8).toUInt8.toNat ++ (bitsOf 8 x.toUInt8.toNat ++ []))) = _
  rw [h24, h16, h8, h0, bitsOf_mod _ le_rfl, bitsOf_mod _ le_rfl, bitsOf_mod _ le_rfl,
    bitsOf_mod _ le_rfl]
  rfl

theorem storeBe64_bits (x : UInt64) : byteBits (storeBe64 x) = bitsOf 64 x.toNat := by
  rw [← flatMap_bytes 8, byteBits, storeBe64, List.flatMap_map]
  apply List.flatMap_congr
  intro i hi
  have hlt := List.mem_range.1 hi
  have hmod : (UInt64.ofNat (8 * (7 - i))).toNat % 64 = 8 * (7 - i) := by
    rw [UInt64.toNat_ofNat']
    omega
  rw [UInt64.toNat_toUInt8, UInt64.toNat_shiftRight, hmod, Nat.shiftRight_eq_div_pow,
    bitsOf_mod _ le_rfl]

theorem shifted_byte (b : UInt8) (k : ℕ) (hk : k ≤ 24) :
    (b.toUInt32 <<< UInt32.ofNat k).toNat = 2 ^ k * b.toNat := by
  have hb := b.toNat_lt
  have hmod : (UInt32.ofNat k).toNat % 32 = k := by
    rw [UInt32.toNat_ofNat']
    omega
  have hle : 2 ^ k * b.toNat < 2 ^ 32 := by
    calc 2 ^ k * b.toNat < 2 ^ k * 2 ^ 8 := Nat.mul_lt_mul_of_pos_left hb (Nat.two_pow_pos k)
      _ = 2 ^ (k + 8) := (pow_add 2 k 8).symm
      _ ≤ 2 ^ 32 := Nat.pow_le_pow_right (by decide) (by omega)
  rw [UInt32.toNat_shiftLeft, hmod, UInt8.toNat_toUInt32, Nat.shiftLeft_eq, Nat.mul_comm,
    Nat.mod_eq_of_lt hle]

/-- Four bytes and the word that they make have the same bits. -/
theorem loadBe32_bits (src : List UInt8) (i : ℕ) : bitsOf 32 (loadBe32 src i).toNat =
    byteBits [src.getD i 0, src.getD (i + 1) 0, src.getD (i + 2) 0, src.getD (i + 3) 0] := by
  unfold loadBe32 byteBits
  generalize src.getD i 0 = a
  generalize src.getD (i + 1) 0 = b
  generalize src.getD (i + 2) 0 = c
  generalize src.getD (i + 3) 0 = d
  have ha := a.toNat_lt
  have hb := b.toNat_lt
  have hc := c.toNat_lt
  have hd := d.toNat_lt
  have hsum : (a.toUInt32 <<< 24 ||| b.toUInt32 <<< 16 ||| c.toUInt32 <<< 8 ||| d.toUInt32).toNat
      = 2 ^ 24 * a.toNat + (2 ^ 16 * b.toNat + (2 ^ 8 * c.toNat + d.toNat)) := by
    have ha' : (a.toUInt32 <<< 24).toNat = 2 ^ 24 * a.toNat := shifted_byte a 24 (by decide)
    have hb' : (b.toUInt32 <<< 16).toNat = 2 ^ 16 * b.toNat := shifted_byte b 16 (by decide)
    have hc' : (c.toUInt32 <<< 8).toNat = 2 ^ 8 * c.toNat := shifted_byte c 8 (by decide)
    rw [Nat.two_pow_add_eq_or_of_lt (show 2 ^ 16 * b.toNat + (2 ^ 8 * c.toNat + d.toNat) < 2 ^ 24
        by omega), Nat.two_pow_add_eq_or_of_lt (show 2 ^ 8 * c.toNat + d.toNat < 2 ^ 16 by omega),
      Nat.two_pow_add_eq_or_of_lt hd, UInt32.toNat_or, UInt32.toNat_or, UInt32.toNat_or, ha', hb',
      hc', UInt8.toNat_toUInt32, Nat.or_assoc, Nat.or_assoc]
  generalize hn : 2 ^ 24 * a.toNat + (2 ^ 16 * b.toNat + (2 ^ 8 * c.toNat + d.toNat)) = n at hsum
  have hbyte (x : ℕ) (y : UInt8) (hxy : x % 2 ^ 8 = y.toNat) : bitsOf 8 x = bitsOf 8 y.toNat := by
    rw [← hxy, bitsOf_mod x le_rfl]
  rw [hsum, ← flatMap_bytes 4]
  show bitsOf 8 (n / 2 ^ 24) ++ (bitsOf 8 (n / 2 ^ 16) ++
    (bitsOf 8 (n / 2 ^ 8) ++ (bitsOf 8 (n / 2 ^ 0) ++ []))) = _
  rw [hbyte (n / 2 ^ 24) a (by omega), hbyte (n / 2 ^ 16) b (by omega),
    hbyte (n / 2 ^ 8) c (by omega), hbyte (n / 2 ^ 0) d (by omega)]
  rfl

/-! ## Rounds -/

def Round.words (v : Round) : Words :=
  ⟨v.a.toBitVec, v.b.toBitVec, v.c.toBitVec, v.d.toBitVec, v.e.toBitVec, v.f.toBitVec,
    v.g.toBitVec, v.h.toBitVec⟩

def stateWords (state : List UInt32) : Words := .ofList (state.map UInt32.toBitVec)

theorem next_words (v : Round) (k w : UInt32) :
    (v.next k w).words = Sha2.round v.words k.toBitVec w.toBitVec := by
  unfold Round.next Round.words Sha2.round bigSigma0 bigSigma1 ch maj
  simp (disch := decide) only [UInt32.toBitVec_add, UInt32.toBitVec_xor, UInt32.toBitVec_and,
    UInt32.toBitVec_not, rotr32_toBitVec, UInt32.reduceToNat]

theorem sha256K_words (t : ℕ) : (sha256K.getD t 0).toBitVec = roundConstants.getD t 0 := by
  have hmap : sha256K.map UInt32.toBitVec = roundConstants := by decide +kernel
  rw [← hmap]
  exact (List.getD_map _ _ UInt32.toBitVec).symm

theorem initial_words : stateWords sha256Init.state = initialHash := by
  have hlist : sha256Init.state.map UInt32.toBitVec = (primes.take 8).map (fraction 2) := by
    decide
  rw [stateWords, hlist]
  rfl

/-- The word that `schedule` appends. -/
def nextWord (w : List UInt32) : UInt32 :=
  let w15 := w.getD (w.length - 15) 0
  let w2 := w.getD (w.length - 2) 0
  w.getD (w.length - 16) 0 + (rotr32 w15 7 ^^^ rotr32 w15 18 ^^^ (w15 >>> 3))
    + w.getD (w.length - 7) 0 + (rotr32 w2 17 ^^^ rotr32 w2 19 ^^^ (w2 >>> 10))

theorem schedule_succ (todo : ℕ) (w : List UInt32) :
    schedule (todo + 1) w = schedule todo (w ++ [nextWord w]) := rfl

theorem smallSigma0_toBitVec (x : UInt32) :
    (rotr32 x 7 ^^^ rotr32 x 18 ^^^ (x >>> 3)).toBitVec = smallSigma0 x.toBitVec := by
  have hshift : (x >>> 3).toBitVec = x.toBitVec >>> 3 := by
    apply BitVec.eq_of_toNat_eq
    rw [UInt32.toNat_toBitVec, UInt32.toNat_shiftRight, BitVec.toNat_ushiftRight]
    rfl
  simp (disch := decide) only [UInt32.toBitVec_xor, rotr32_toBitVec, UInt32.reduceToNat, hshift,
    smallSigma0]

theorem smallSigma1_toBitVec (x : UInt32) :
    (rotr32 x 17 ^^^ rotr32 x 19 ^^^ (x >>> 10)).toBitVec = smallSigma1 x.toBitVec := by
  have hshift : (x >>> 10).toBitVec = x.toBitVec >>> 10 := by
    apply BitVec.eq_of_toNat_eq
    rw [UInt32.toNat_toBitVec, UInt32.toNat_shiftRight, BitVec.toNat_ushiftRight]
    rfl
  simp (disch := decide) only [UInt32.toBitVec_xor, rotr32_toBitVec, UInt32.reduceToNat, hshift,
    smallSigma1]

/-- It is the recurrence of the standard. -/
theorem nextWord_toBitVec {block : ℕ → Word} {w : List UInt32} (hlen : 16 ≤ w.length)
    (hw : ∀ t < w.length, (w.getD t 0).toBitVec = scheduled block t) :
    (nextWord w).toBitVec = scheduled block w.length := by
  rw [scheduled_of_ge hlen, ← hw (w.length - 2) (by omega), ← hw (w.length - 7) (by omega),
    ← hw (w.length - 15) (by omega), ← hw (w.length - 16) (by omega), ← smallSigma0_toBitVec,
    ← smallSigma1_toBitVec]
  unfold nextWord
  simp only [UInt32.toBitVec_add]
  ac_rfl

theorem schedule_words (block : ℕ → Word) (todo : ℕ) {w : List UInt32} (hlen : 16 ≤ w.length)
    (hw : ∀ t < w.length, (w.getD t 0).toBitVec = scheduled block t) :
    (schedule todo w).length = w.length + todo ∧
      ∀ t < w.length + todo, ((schedule todo w).getD t 0).toBitVec = scheduled block t := by
  induction todo generalizing w with
  | zero => exact ⟨rfl, hw⟩
  | succ todo ih =>
    have hlength : (w ++ [nextWord w]).length = w.length + 1 := by simp
    have hnext : ∀ t < (w ++ [nextWord w]).length,
        ((w ++ [nextWord w]).getD t 0).toBitVec = scheduled block t := by
      intro t ht
      rw [hlength] at ht
      by_cases hlast : t = w.length
      · rw [hlast, List.getD_append_right _ _ _ _ le_rfl, Nat.sub_self]
        exact nextWord_toBitVec hlen hw
      · rw [List.getD_append _ _ _ _ (by omega)]
        exact hw t (by omega)
    have hrest := ih (by omega) hnext
    rw [hlength, Nat.add_assoc, Nat.add_comm 1 todo] at hrest
    rw [schedule_succ]
    exact hrest

/-- Two lists read in step are read by their indices. -/
theorem foldl_zip {α β γ : Type*} (f : γ → α → β → γ) (a : List α) (b : List β) (x : α) (y : β)
    {n : ℕ} (ha : a.length = n) (hb : b.length = n) (start : γ) :
    (a.zip b).foldl (fun s ab => f s ab.1 ab.2) start
      = (List.range n).foldl (fun s i => f s (a.getD i x) (b.getD i y)) start := by
  have hzip : a.zip b = (List.range n).map fun i => (a.getD i x, b.getD i y) := by
    apply List.ext_getElem
    · simp [ha, hb]
    · intro i h₁ h₂
      have hi : i < n := by simpa using h₂
      rw [List.getElem_zip, List.getElem_map, List.getElem_range,
        List.getD_eq_getElem _ _ (by omega), List.getD_eq_getElem _ _ (by omega)]
  rw [hzip, List.foldl_map]

theorem scheduled_congr {block block' : ℕ → Word} (h : ∀ t < 16, block t = block' t) (t : ℕ) :
    scheduled block t = scheduled block' t := by
  induction t using Nat.strong_induction_on with
  | _ t ih =>
    by_cases ht : t < 16
    · rw [scheduled_of_lt ht, scheduled_of_lt ht, h t ht]
    · have hge : 16 ≤ t := by omega
      rw [scheduled_of_ge hge, ih (t - 2) (by omega), ih (t - 7) (by omega), ih (t - 15) (by omega),
        ih (t - 16) (by omega), ← scheduled_of_ge hge]

theorem foldl_words (block : ℕ → Word) (w : ℕ → UInt32) (n : ℕ) (v : Round)
    (hw : ∀ t < n, (w t).toBitVec = scheduled block t) :
    ((List.range n).foldl (fun v t => v.next (sha256K.getD t 0) (w t)) v).words =
      (List.range n).foldl (fun v t => Sha2.round v (roundConstants.getD t 0) (scheduled block t))
        v.words := by
  induction n with
  | zero => rfl
  | succ n ih =>
    rw [List.range_succ, List.foldl_append, List.foldl_append, List.foldl_cons, List.foldl_cons,
      List.foldl_nil, List.foldl_nil, next_words, ih fun t ht => hw t (by omega), sha256K_words,
      hw n (by omega)]

theorem length_sha256K : sha256K.length = 64 := rfl

/-- The working variables at the start. -/
def startRound (state : List UInt32) : Round :=
  ⟨state.getD 0 0, state.getD 1 0, state.getD 2 0, state.getD 3 0, state.getD 4 0, state.getD 5 0,
    state.getD 6 0, state.getD 7 0⟩

theorem startRound_words (state : List UInt32) : (startRound state).words = stateWords state := by
  have hget (i : ℕ) : (state.map UInt32.toBitVec).getD i 0 = (state.getD i 0).toBitVec :=
    List.getD_map _ _ UInt32.toBitVec
  unfold stateWords Words.ofList
  simp only [hget]
  rfl

theorem sum_words (state : List UInt32) (v : Round) :
    stateWords [state.getD 0 0 + v.a, state.getD 1 0 + v.b, state.getD 2 0 + v.c,
      state.getD 3 0 + v.d, state.getD 4 0 + v.e, state.getD 5 0 + v.f, state.getD 6 0 + v.g,
      state.getD 7 0 + v.h] = v.words.add (stateWords state) := by
  have hcomm (x y : UInt32) : (x + y).toBitVec = y.toBitVec + x.toBitVec := by
    rw [UInt32.toBitVec_add, BitVec.add_comm]
  rw [← startRound_words state]
  unfold stateWords Words.ofList
  simp only [List.map_cons, hcomm]
  rfl

theorem transform_words (state : List UInt32) (block : List UInt8) :
    stateWords (sha256Transform state block) =
      compress (stateWords state) fun t => (loadBe32 block (4 * t)).toBitVec := by
  have hlen : ((List.range 16).map fun i => loadBe32 block (4 * i)).length = 16 := by
    rw [List.length_map, List.length_range]
  have hstart : ∀ t < ((List.range 16).map fun i => loadBe32 block (4 * i)).length,
      (((List.range 16).map fun i => loadBe32 block (4 * i)).getD t 0).toBitVec
        = scheduled (fun t => (loadBe32 block (4 * t)).toBitVec) t := by
    intro t ht
    rw [List.getD_eq_getElem _ _ ht, List.getElem_map, List.getElem_range]
    rw [scheduled_of_lt (hlen ▸ ht)]
  obtain ⟨hlength, hwords⟩ := schedule_words _ 48 hlen.ge hstart
  rw [hlen] at hlength hwords
  have hrounds := foldl_words _ _ 64 (startRound state) hwords
  unfold sha256Transform
  dsimp only
  rw [sum_words, foldl_zip Round.next sha256K _ 0 0 length_sha256K hlength]
  unfold compress
  rw [← startRound_words, ← hrounds]
  rfl

/-! ## Blocks -/

/-- The state after the full blocks of a byte string. -/
def absorb (state : List UInt32) (bytes : List UInt8) : List UInt32 :=
  (List.range (bytes.length / 64)).foldl
    (fun state i => sha256Transform state ((bytes.drop (64 * i)).take 64)) state

theorem absorb_nil (state : List UInt32) : absorb state [] = state := rfl

theorem absorb_block {state : List UInt32} {block : List UInt8} (h : block.length = 64) :
    absorb state block = sha256Transform state block := by
  unfold absorb
  rw [h, show 64 / 64 = 1 from rfl, List.range_one, List.foldl_cons, List.foldl_nil, Nat.mul_zero,
    List.drop_zero, List.take_of_length_le h.le]

theorem absorb_append {state : List UInt32} {a b : List UInt8} (h : a.length % 64 = 0) :
    absorb state (a ++ b) = absorb (absorb state a) b := by
  have hlength : (a ++ b).length / 64 = a.length / 64 + b.length / 64 := by
    rw [List.length_append]
    omega
  have hleft (state : List UInt32) (i : ℕ) (hi : i ∈ List.range (a.length / 64)) :
      sha256Transform state (((a ++ b).drop (64 * i)).take 64)
        = sha256Transform state ((a.drop (64 * i)).take 64) := by
    have hlt := List.mem_range.1 hi
    rw [List.drop_append_of_le_length (by omega), List.take_append_of_le_length]
    rw [List.length_drop]
    omega
  have hright (state : List UInt32) (i : ℕ) :
      sha256Transform state (((a ++ b).drop (64 * (a.length / 64 + i))).take 64)
        = sha256Transform state ((b.drop (64 * i)).take 64) := by
    rw [List.drop_append, List.drop_eq_nil_of_le (by omega), List.nil_append,
      show 64 * (a.length / 64 + i) - a.length = 64 * i by omega]
  unfold absorb
  rw [hlength, List.range_add, List.foldl_append, List.foldl_map, List.foldl_ext _ _ _ hleft]
  simp only [hright]

theorem byteBits_append (a b : List UInt8) : byteBits (a ++ b) = byteBits a ++ byteBits b :=
  List.flatMap_append

theorem length_byteBits (bytes : List UInt8) : (byteBits bytes).length = 8 * bytes.length := by
  induction bytes with
  | nil => rfl
  | cons b bytes ih =>
    rw [byteBits, List.flatMap_cons, List.length_append, length_bitsOf, List.length_cons]
    unfold byteBits at ih
    omega

theorem drop_byteBits (bytes : List UInt8) (k : ℕ) :
    (byteBits bytes).drop (8 * k) = byteBits (bytes.drop k) := by
  by_cases hk : k ≤ bytes.length
  · have hlen : (byteBits (bytes.take k)).length = 8 * k := by
      rw [length_byteBits, List.length_take_of_le hk]
    conv_lhs => rw [← List.take_append_drop k bytes, byteBits_append, ← hlen, List.drop_left]
  · rw [List.drop_eq_nil_of_le (by rw [length_byteBits]; omega),
      List.drop_eq_nil_of_le (by omega)]
    rfl

theorem take_byteBits {bytes : List UInt8} {k : ℕ} (hk : k ≤ bytes.length) :
    (byteBits bytes).take (8 * k) = byteBits (bytes.take k) := by
  have hlen : (byteBits (bytes.take k)).length = 8 * k := by
    rw [length_byteBits, List.length_take_of_le hk]
  conv_lhs => rw [← List.take_append_drop k bytes, byteBits_append, ← hlen, List.take_left]

theorem take_four {l : List UInt8} (h : 4 ≤ l.length) :
    l.take 4 = [l.getD 0 0, l.getD 1 0, l.getD 2 0, l.getD 3 0] := by
  rcases l with _ | ⟨a, _ | ⟨b, _ | ⟨c, _ | ⟨d, l⟩⟩⟩⟩
  · simp at h
  · simp at h
  · simp at h
  · simp at h
  · rfl

/-- The words that the driver loads from a block are those of the standard. -/
theorem blockWord_byteBits {bytes : List UInt8} {i t : ℕ} (hi : 64 * i + 64 ≤ bytes.length)
    (ht : t < 16) : blockWord (byteBits bytes) i t =
      (loadBe32 ((bytes.drop (64 * i)).take 64) (4 * t)).toBitVec := by
  have hfour : (bytes.drop (64 * i + 4 * t)).take 4 =
      [((bytes.drop (64 * i)).take 64).getD (4 * t) 0,
        ((bytes.drop (64 * i)).take 64).getD (4 * t + 1) 0,
        ((bytes.drop (64 * i)).take 64).getD (4 * t + 2) 0,
        ((bytes.drop (64 * i)).take 64).getD (4 * t + 3) 0] := by
    have hget (k : ℕ) (hk : k < 64) : ((bytes.drop (64 * i)).take 64).getD k 0 =
        bytes.getD (64 * i + k) 0 := by
      rw [List.getD_eq_getElem?_getD, List.getD_eq_getElem?_getD, List.getElem?_take_of_lt hk,
        List.getElem?_drop]
    have hdrop (k : ℕ) : (bytes.drop (64 * i + 4 * t)).getD k 0 =
        bytes.getD (64 * i + (4 * t + k)) 0 := by
      rw [List.getD_eq_getElem?_getD, List.getD_eq_getElem?_getD, List.getElem?_drop, Nat.add_assoc]
    rw [take_four (by rw [List.length_drop]; omega), hget _ (by omega), hget _ (by omega),
      hget _ (by omega), hget _ (by omega), hdrop, hdrop, hdrop, hdrop]
    rfl
  have hlen : 4 ≤ (bytes.drop (64 * i + 4 * t)).length := by
    rw [List.length_drop]
    omega
  have hbits : ((byteBits bytes).drop (512 * i + 32 * t)).take 32 =
      bitsOf 32 (loadBe32 ((bytes.drop (64 * i)).take 64) (4 * t)).toNat := by
    rw [show 512 * i + 32 * t = 8 * (64 * i + 4 * t) by omega, drop_byteBits,
      show 32 = 8 * 4 from rfl, take_byteBits hlen, hfour, ← loadBe32_bits]
  unfold blockWord
  rw [hbits, ofBits_bitsOf, Nat.mod_eq_of_lt (UInt32.toNat_lt _)]
  apply BitVec.eq_of_toNat_eq
  rw [BitVec.toNat_ofNat, Nat.mod_eq_of_lt (UInt32.toNat_lt _), UInt32.toNat_toBitVec]

theorem compress_congr {hash : Words} {block block' : ℕ → Word}
    (h : ∀ t < 16, block t = block' t) : compress hash block = compress hash block' := by
  unfold compress
  simp only [scheduled_congr h]

/-- The blocks of a byte string are those of its bits. -/
theorem absorb_words (state : List UInt32) (bytes : List UInt8) :
    stateWords (absorb state bytes) = hashBlocks (stateWords state) (byteBits bytes) := by
  have hcount : (byteBits bytes).length / 512 = bytes.length / 64 := by
    rw [length_byteBits]
    omega
  have hrun (n : ℕ) (hn : n ≤ bytes.length / 64) :
      stateWords ((List.range n).foldl
        (fun state i => sha256Transform state ((bytes.drop (64 * i)).take 64)) state) =
      (List.range n).foldl (fun hash i => compress hash (blockWord (byteBits bytes) i))
        (stateWords state) := by
    induction n with
    | zero => rfl
    | succ n ih =>
      rw [List.range_succ, List.foldl_append, List.foldl_append, List.foldl_cons, List.foldl_cons,
        List.foldl_nil, List.foldl_nil, transform_words, ih (by omega)]
      apply compress_congr
      intro t ht
      exact (blockWord_byteBits (by omega) ht).symm
  unfold absorb hashBlocks
  rw [hcount]
  exact hrun _ le_rfl

/-! ## Padding -/

/-- The padded message in bytes. -/
def padBytes (data : List UInt8) : List UInt8 :=
  data ++ 0x80 :: List.replicate ((119 - data.length % 64) % 64) 0
    ++ storeBe64 (UInt64.ofNat (8 * data.length))

theorem byteBits_zeros (n : ℕ) :
    byteBits (List.replicate n 0) = List.replicate (8 * n) false := by
  induction n with
  | zero => rfl
  | succ n ih =>
    rw [List.replicate_succ, ← List.singleton_append, byteBits_append, ih,
      show byteBits [0] = List.replicate 8 false from rfl, List.replicate_append_replicate,
      show 8 + 8 * n = 8 * (n + 1) by omega]

theorem padBytes_bits {data : List UInt8} (h : data.length < 2 ^ 32) :
    byteBits (padBytes data) = Sha2.pad (byteBits data) := by
  have hlength : (UInt64.ofNat (8 * data.length)).toNat = 8 * data.length := by
    rw [UInt64.toNat_ofNat']
    omega
  have hzeros : zeros (8 * data.length) = 7 + 8 * ((119 - data.length % 64) % 64) := by
    unfold zeros
    omega
  unfold padBytes Sha2.pad
  rw [byteBits_append, byteBits_append, storeBe64_bits, hlength, length_byteBits, hzeros,
    ← List.singleton_append, byteBits_append, byteBits_zeros,
    show byteBits [0x80] = true :: List.replicate 7 false from rfl, List.cons_append,
    List.replicate_append_replicate]

/-! ## The driver's blocks -/

/-- The full blocks are in the state, the rest is in the buffer. -/
theorem update_spec (data : List UInt8) :
    (sha256Update sha256Init data).state =
        absorb sha256Init.state (data.take (data.length / 64 * 64)) ∧
      (sha256Update sha256Init data).buffer = data.drop (data.length / 64 * 64) ∧
      (sha256Update sha256Init data).bitLen = UInt64.ofNat (8 * data.length) := by
  induction data using List.reverseRecOn with
  | nil => exact ⟨rfl, rfl, rfl⟩
  | append_singleton data byte ih =>
    obtain ⟨hstate, hbuffer, hbitLen⟩ := ih
    have hstep : sha256Update sha256Init (data ++ [byte]) =
        if ((sha256Update sha256Init data).buffer ++ [byte]).length = 64 then
          ⟨sha256Transform (sha256Update sha256Init data).state
            ((sha256Update sha256Init data).buffer ++ [byte]),
            (sha256Update sha256Init data).bitLen + 8, []⟩
        else ⟨(sha256Update sha256Init data).state, (sha256Update sha256Init data).bitLen + 8,
          (sha256Update sha256Init data).buffer ++ [byte]⟩ := by
      conv_lhs => rw [sha256Update, List.foldl_append]
      rfl
    have hlength : (data ++ [byte]).length = data.length + 1 := by simp
    have hbits : UInt64.ofNat (8 * data.length) + 8 = UInt64.ofNat (8 * (data.length + 1)) := by
      rw [Nat.mul_succ, UInt64.ofNat_add]
      rfl
    have hrest : (data.drop (data.length / 64 * 64) ++ [byte]).length
        = data.length % 64 + 1 := by
      rw [List.length_append, List.length_drop, List.length_singleton]
      omega
    rw [hstep, hlength, hstate, hbuffer, hbitLen, hbits, hrest]
    have htake : (data ++ [byte]).take (data.length / 64 * 64) =
        data.take (data.length / 64 * 64) :=
      List.take_append_of_le_length (by omega)
    have hdrop : (data ++ [byte]).drop (data.length / 64 * 64)
        = data.drop (data.length / 64 * 64) ++ [byte] := List.drop_append_of_le_length (by omega)
    by_cases hfull : data.length % 64 + 1 = 64
    · have hcount : (data.length + 1) / 64 * 64 = data.length / 64 * 64 + 64 := by omega
      have hall : (data ++ [byte]).length = data.length / 64 * 64 + 64 := by
        rw [hlength]
        omega
      rw [if_pos hfull, hcount]
      refine ⟨?_, ?_, rfl⟩
      · rw [List.take_of_length_le hall.le]
        conv_rhs => rw [← List.take_append_drop (data.length / 64 * 64) (data ++ [byte])]
        rw [htake, hdrop, absorb_append, absorb_block (hrest.trans hfull)]
        rw [List.length_take_of_le (by omega)]
        omega
      · rw [List.drop_of_length_le hall.le]
    · have hcount : (data.length + 1) / 64 * 64 = data.length / 64 * 64 := by omega
      rw [if_neg hfull, hcount, htake, hdrop]
      exact ⟨rfl, rfl, rfl⟩

theorem length_storeBe64 (x : UInt64) : (storeBe64 x).length = 8 := by
  rw [storeBe64, List.length_map, List.length_range]

/-- The last block, or the last two: the second has no room for the length behind 56 bytes. -/
theorem final_spec (ctx : Sha256Ctx) (h : ctx.buffer.length < 64) :
    sha256Final ctx = (absorb ctx.state (ctx.buffer ++
      0x80 :: List.replicate ((119 - ctx.buffer.length) % 64) 0 ++ storeBe64 ctx.bitLen)).flatMap
        storeBe32 := by
  have hlength := length_storeBe64 ctx.bitLen
  have hmarked : (ctx.buffer ++ [0x80]).length = ctx.buffer.length + 1 := by simp
  unfold sha256Final
  dsimp only
  rw [hmarked]
  by_cases htwo : ctx.buffer.length + 1 > 56
  · have hsplit : ctx.buffer ++ 0x80 :: List.replicate ((119 - ctx.buffer.length) % 64) 0 ++
        storeBe64 ctx.bitLen =
        (ctx.buffer ++ [0x80] ++ List.replicate (64 - (ctx.buffer.length + 1)) 0) ++
          (List.replicate 56 0 ++ storeBe64 ctx.bitLen) := by
      have hzeros : (119 - ctx.buffer.length) % 64 = 64 - (ctx.buffer.length + 1) + 56 := by omega
      rw [hzeros, ← List.replicate_append_replicate]
      simp only [List.append_assoc, List.cons_append, List.nil_append]
    rw [if_pos htwo, hsplit, absorb_append, absorb_block, absorb_block]
    · rfl
    · rw [List.length_append, hmarked, List.length_replicate]
      omega
    · rw [List.length_append, List.length_replicate, hlength]
    · rw [List.length_append, hmarked, List.length_replicate]
      omega
  · have hzeros : (119 - ctx.buffer.length) % 64 = 56 - (ctx.buffer.length + 1) := by omega
    rw [if_neg htwo, hzeros, ← absorb_block]
    · simp only [List.append_assoc, List.cons_append, List.nil_append, List.length_append,
        List.length_singleton]
    · rw [List.length_append, List.length_append, hmarked, List.length_replicate, hlength]
      omega

/-- The hash is the state after all blocks of the padded message. -/
theorem hash_eq_absorb (data : List UInt8) :
    sha256Hash data = (absorb sha256Init.state (padBytes data)).flatMap storeBe32 := by
  obtain ⟨hstate, hbuffer, hbitLen⟩ := update_spec data
  have hrest : (data.drop (data.length / 64 * 64)).length = data.length % 64 := by
    rw [List.length_drop]
    omega
  have hfull : (data.take (data.length / 64 * 64)).length % 64 = 0 := by
    rw [List.length_take_of_le (by omega)]
    omega
  have hpad : padBytes data = data.take (data.length / 64 * 64) ++
      (data.drop (data.length / 64 * 64) ++
        0x80 :: List.replicate ((119 - data.length % 64) % 64) 0 ++
        storeBe64 (UInt64.ofNat (8 * data.length))) := by
    unfold padBytes
    rw [← List.append_assoc, ← List.append_assoc, List.take_append_drop]
  unfold sha256Hash
  rw [final_spec _ (by rw [hbuffer, hrest]; omega), hstate, hbuffer, hbitLen, hrest, hpad,
    absorb_append hfull]

theorem length_absorb (state : List UInt32) (bytes : List UInt8) (h : state.length = 8) :
    (absorb state bytes).length = 8 := by
  unfold absorb
  induction List.range (bytes.length / 64) generalizing state with
  | nil => exact h
  | cons i is ih => exact ih _ rfl

theorem toList_stateWords {state : List UInt32} (h : state.length = 8) :
    (stateWords state).toList = state.map UInt32.toBitVec := by
  rcases state with _ | ⟨a,
    _ | ⟨b, _ | ⟨c, _ | ⟨d, _ | ⟨e, _ | ⟨f, _ | ⟨g, _ | ⟨i, _ | ⟨j, l⟩⟩⟩⟩⟩⟩⟩⟩⟩
  all_goals first
    | rfl
    | simp at h

/-- The hash has the bits of the standard's digest of the bits. -/
theorem hash_standard {data : List UInt8} (h : data.length < 2 ^ 32) :
    byteBits (sha256Hash data) = sha256 (byteBits data) := by
  have hlength := length_absorb sha256Init.state (padBytes data) rfl
  have hflat (state : List UInt32) : byteBits (state.flatMap storeBe32) =
      (state.map UInt32.toBitVec).flatMap fun w => bitsOf 32 w.toNat := by
    rw [byteBits, List.flatMap_assoc, List.flatMap_map]
    apply List.flatMap_congr
    intro w hw
    exact storeBe32_bits w
  unfold sha256
  rw [hash_eq_absorb, hflat, ← toList_stateWords hlength, absorb_words, initial_words,
    padBytes_bits h]

/-- The hash over the block buffer is the standard's, and the one that every other function takes.
-/
theorem sha256_standard {garbage data : List UInt8} (hgarbage : garbage.length = 64)
    (h : data.length < 2 ^ 32) :
    byteBits (BlockBuffer.sha256Hash garbage data) = sha256 (byteBits data) ∧
      BlockBuffer.sha256Hash garbage data = sha256Hash data := by
  rw [BlockBuffer.hash_eq hgarbage]
  exact ⟨hash_standard h, rfl⟩

theorem sha256_standard_abc :
    byteBits (BlockBuffer.sha256Hash (List.replicate 64 0xCC) [0x61, 0x62, 0x63]) =
      sha256 (byteBits [0x61, 0x62, 0x63]) :=
  (sha256_standard List.length_replicate (by decide)).1

end MinervaOS.Crypto
