import MinervaOS.Crypto.Aes
import MinervaOS.Crypto.Sha256Buffer
import MinervaOS.Net.Frames
import Mathlib.Data.List.GetD

/-!
# The loops of Galois counter mode

`aes128_gcm_encrypt` and `aes128_gcm_decrypt` with their offsets of 16 bits, their counter blocks
and the buffers that they write. The first hashes each chunk of the cipher text as it makes it, the
second hashes the whole text before it makes a byte of the plain text. Both return for texts of at
most 65520 bytes and do what the functions over whole texts do (`encrypt_eq`, `decrypt_eq`), and one
undoes the other.
-/

namespace MinervaOS.Crypto

namespace GcmLoops

open BlockBuffer (writeFrom)
open Net (put32be)

/-- The bytes at a pointer. -/
abbrev Buffer := ℕ → UInt8

/-- `ctr[i]++; if (ctr[i]) break;` for the last four bytes, from the end. -/
def incrementFrom : ℕ → List UInt8 → List UInt8
  | 0, ctr => ctr
  | todo + 1, ctr =>
    let ctr := ctr.set (12 + todo) (ctr.getD (12 + todo) 0 + 1)
    if ctr.getD (12 + todo) 0 != 0 then ctr else incrementFrom todo ctr

def chunkLength (length off : UInt16) : ℕ :=
  let chunk := length - off
  let chunk := if chunk > 16 then 16 else chunk
  chunk.toNat

/-- The bytes of one chunk, with the block for the hash. -/
def encryptChunk (plain stream : List UInt8) (off chunk : ℕ) (cipher : Buffer) :
    Buffer × List UInt8 :=
  (List.range chunk).foldl (fun (s : Buffer × List UInt8) i =>
    let cipher := Function.update s.1 (off + i) (plain.getD (off + i) 0 ^^^ stream.getD i 0)
    (cipher, s.2.set i (cipher (off + i)))) (cipher, List.replicate 16 0)

/-- The loop of `aes128_gcm_encrypt`, with a bound on its rounds. -/
def encryptLoop (key h plain : List UInt8) (plainLen : UInt16) :
    ℕ → UInt16 → List UInt8 → List UInt8 → Buffer → Option (List UInt8 × Buffer)
  | 0, _, _, _, _ => none
  | fuel + 1, off, ctr, y, cipher =>
    if off < plainLen then
      let chunk := chunkLength plainLen off
      let stream := aes128EncryptBlock key ctr
      let (cipher, block) := encryptChunk plain stream off.toNat chunk cipher
      let y := ghashBlock y h block
      encryptLoop key h plain plainLen fuel (off + 16) (incrementFrom 4 ctr) y cipher
    else some (y, cipher)

/-- The block of the lengths and the encrypted counter block 1, as both functions have them. -/
def finish (key nonce h y : List UInt8) (length : UInt16) : List UInt8 :=
  let block := List.replicate 16 0
  let block := put32be block 4 (13 * 8)
  let block := put32be block 12 (length.toUInt32 * 8)
  let y := ghashBlock y h block
  let stream := aes128EncryptBlock key (nonce ++ [0, 0, 0, 1])
  (List.range 16).map fun i => stream.getD i 0 ^^^ y.getD i 0

/-- The hash of the additional data. -/
def start (h aad : List UInt8) : List UInt8 :=
  ghashBlock (List.replicate 16 0) h (writeFrom (List.replicate 16 0) 0 aad)

def aes128GcmEncrypt (fuel : ℕ) (key nonce aad plain : List UInt8) (plainLen : UInt16)
    (cipher : Buffer) : Option (Buffer × List UInt8) :=
  let h := aes128EncryptBlock key (List.replicate 16 0)
  let y := start h aad
  match encryptLoop key h plain plainLen fuel 0 (nonce ++ [0, 0, 0, 2]) y cipher with
  | none => none
  | some (y, cipher) => some (cipher, finish key nonce h y plainLen)

/-- The first loop of `aes128_gcm_decrypt`. -/
def hashLoop (h cipher : List UInt8) (cipherLen : UInt16) :
    ℕ → UInt16 → List UInt8 → Option (List UInt8)
  | 0, _, _ => none
  | fuel + 1, off, y =>
    if off < cipherLen then
      let chunk := chunkLength cipherLen off
      let block := writeFrom (List.replicate 16 0) 0 ((cipher.drop off.toNat).take chunk)
      hashLoop h cipher cipherLen fuel (off + 16) (ghashBlock y h block)
    else some y

def decryptChunk (cipher stream : List UInt8) (off chunk : ℕ) (plain : Buffer) : Buffer :=
  (List.range chunk).foldl (fun plain i =>
    Function.update plain (off + i) (cipher.getD (off + i) 0 ^^^ stream.getD i 0)) plain

/-- The second loop of `aes128_gcm_decrypt`. -/
def decryptLoop (key cipher : List UInt8) (cipherLen : UInt16) :
    ℕ → UInt16 → List UInt8 → Buffer → Option Buffer
  | 0, _, _, _ => none
  | fuel + 1, off, ctr, plain =>
    if off < cipherLen then
      let chunk := chunkLength cipherLen off
      let stream := aes128EncryptBlock key ctr
      let plain := decryptChunk cipher stream off.toNat chunk plain
      decryptLoop key cipher cipherLen fuel (off + 16) (incrementFrom 4 ctr) plain
    else some plain

/-- The differing bits of the two tags. -/
def tagDiff (calcTag tag : List UInt8) : UInt8 :=
  (List.range 16).foldl (fun diff i => diff ||| (calcTag.getD i 0 ^^^ tag.getD i 0)) 0

/-- What the function returns, and the plain text. -/
def aes128GcmDecrypt (fuel : ℕ) (key nonce aad cipher : List UInt8) (cipherLen : UInt16)
    (tag : List UInt8) (plain : Buffer) : Option (ℕ × Buffer) :=
  let h := aes128EncryptBlock key (List.replicate 16 0)
  let y := start h aad
  match hashLoop h cipher cipherLen fuel 0 y with
  | none => none
  | some y =>
    let calcTag := finish key nonce h y cipherLen
    if tagDiff calcTag tag != 0 then some (0, plain)
    else
      match decryptLoop key cipher cipherLen fuel 0 (nonce ++ [0, 0, 0, 2]) plain with
      | none => none
      | some plain => some (1, plain)

/-! ## Counter blocks -/

/-- The last byte goes up by one, and where it wraps, the counter before it does. -/
theorem incrementFrom_append {nonce : List UInt8} (h : nonce.length = 12) (a b c d : UInt8) :
    incrementFrom 4 (nonce ++ [a, b, c, d]) =
      nonce ++ if d + 1 ≠ 0 then [a, b, c, d + 1] else if c + 1 ≠ 0 then [a, b, c + 1, 0]
        else if b + 1 ≠ 0 then [a, b + 1, 0, 0] else [a + 1, 0, 0, 0] := by
  have hset (l : List UInt8) (j : ℕ) (v : UInt8) :
      (nonce ++ l).set (12 + j) v = nonce ++ l.set j v := by
    rw [List.set_append_right _ _ (by omega), h, Nat.add_sub_cancel_left]
  have hget (l : List UInt8) (j : ℕ) : (nonce ++ l).getD (12 + j) 0 = l.getD j 0 := by
    rw [List.getD_append_right _ _ _ _ (by omega), h, Nat.add_sub_cancel_left]
  simp only [incrementFrom, hset, hget, List.set_cons_succ, List.set_cons_zero, List.getD_cons_succ,
    List.getD_cons_zero, bne_iff_ne]
  by_cases hd : d + 1 = 0
  · by_cases hc : c + 1 = 0
    · by_cases hb : b + 1 = 0
      · simp [hd, hc, hb]
      · simp [hd, hc, hb]
    · simp [hd, hc]
  · simp [hd]

theorem ofNat_add_one (n : ℕ) : UInt8.ofNat n + 1 = UInt8.ofNat (n + 1) := by
  rw [UInt8.ofNat_add]
  rfl

theorem ofNat_eq_zero {n : ℕ} : UInt8.ofNat n = 0 ↔ n % 256 = 0 := by
  rw [← UInt8.toNat_inj, UInt8.toNat_ofNat']
  rfl

theorem counterBlock_eq (nonce : List UInt8) (n : ℕ) : counterBlock nonce n =
    nonce ++ [UInt8.ofNat (n / 16777216), UInt8.ofNat (n / 65536), UInt8.ofNat (n / 256),
      UInt8.ofNat n] := by
  unfold counterBlock
  simp [List.range_succ]

/-- Counting up in the bytes is counting up. -/
theorem increment_counterBlock {nonce : List UInt8} (h : nonce.length = 12) (n : ℕ) :
    incrementFrom 4 (counterBlock nonce n) = counterBlock nonce (n + 1) := by
  rw [counterBlock_eq, counterBlock_eq, incrementFrom_append h]
  simp only [ofNat_add_one, ne_eq, ofNat_eq_zero]
  congr 1
  by_cases hd : (n + 1) % 256 = 0
  · have hc' : (n + 1) / 256 = n / 256 + 1 := by omega
    by_cases hc : (n / 256 + 1) % 256 = 0
    · have hb' : (n + 1) / 65536 = n / 65536 + 1 := by omega
      by_cases hb : (n / 65536 + 1) % 256 = 0
      · have ha' : (n + 1) / 16777216 = n / 16777216 + 1 := by omega
        simp [hd, hc, hb, ha', hb', hc', ofNat_eq_zero.2]
      · have ha' : (n + 1) / 16777216 = n / 16777216 := by omega
        simp [hd, hc, hb, ha', hb', hc', ofNat_eq_zero.2]
    · have hb' : (n + 1) / 65536 = n / 65536 := by omega
      have ha' : (n + 1) / 16777216 = n / 16777216 := by omega
      simp [hd, hc, ha', hb', hc', ofNat_eq_zero.2]
  · have hc' : (n + 1) / 256 = n / 256 := by omega
    have hb' : (n + 1) / 65536 = n / 65536 := by omega
    have ha' : (n + 1) / 16777216 = n / 16777216 := by omega
    simp [hd, ha', hb', hc']

/-! ## Blocks and bytes of a text -/

theorem length_expandWord (roundKeys : List UInt8) :
    (expandWord roundKeys).length = roundKeys.length + 4 := by
  unfold expandWord
  dsimp only
  rw [List.length_append, List.length_map, List.length_range]

theorem length_aesKeyExpand {key : List UInt8} (h : key.length = 16) :
    (aesKeyExpand key).length = 176 := by
  have hrun (n : ℕ) : ((List.range n).foldl (fun roundKeys _ => expandWord roundKeys) key).length
      = key.length + 4 * n := by
    induction n with
    | zero => rfl
    | succ n ih =>
      rw [List.range_succ, List.foldl_append, List.foldl_cons, List.foldl_nil,
        length_expandWord, ih]
      omega
  unfold aesKeyExpand
  rw [hrun, h]

theorem length_xorBytes (a b : List UInt8) :
    (xorBytes a b).length = min a.length b.length := List.length_zipWith

theorem length_encryptBlock {key : List UInt8} (h : key.length = 16) (input : List UInt8) :
    (aes128EncryptBlock key input).length = 16 := by
  have hkeys := length_aesKeyExpand h
  unfold aes128EncryptBlock aesAddRoundKey aesShiftRows
  dsimp only
  rw [length_xorBytes, List.length_map, List.length_range, List.length_drop, hkeys]
  rfl

/-- Byte `i` of the key stream. -/
def keyStream (key nonce : List UInt8) (i : ℕ) : UInt8 :=
  (aes128EncryptBlock key (counterBlock nonce (2 + i / 16))).getD (i % 16) 0

theorem xorBytes_eq_map {a b : List UInt8} (h : a.length ≤ b.length) :
    xorBytes a b = (List.range a.length).map fun i => a.getD i 0 ^^^ b.getD i 0 := by
  apply List.ext_getElem
  · rw [length_xorBytes, List.length_map, List.length_range, Nat.min_eq_left h]
  · intro i hi hi'
    rw [List.length_map, List.length_range] at hi'
    rw [List.getElem_map, List.getElem_range, List.getD_eq_getElem _ _ hi',
      List.getD_eq_getElem _ _ (by omega)]
    exact List.getElem_zipWith

/-- The bytes of a text with a stream of blocks added to its chunks, from a chunk on. -/
theorem xor_chunks {stream : ℕ → List UInt8} (hstream : ∀ k, (stream k).length = 16) (fuel : ℕ) :
    ∀ (bytes : List UInt8) (k : ℕ), bytes.length ≤ 16 * fuel →
      ((chunks fuel bytes).zipIdx k).flatMap (fun x => xorBytes x.1 (stream x.2)) =
      (List.range bytes.length).map fun i =>
        bytes.getD i 0 ^^^ (stream ((16 * k + i) / 16)).getD ((16 * k + i) % 16) 0 := by
  induction fuel with
  | zero =>
    intro bytes k h
    have hnil : bytes = [] := List.eq_nil_of_length_eq_zero (by omega)
    rw [hnil]
    rfl
  | succ fuel ih =>
    intro bytes k h
    rcases bytes with _ | ⟨byte, bytes⟩
    · rfl
    generalize hall : byte :: bytes = all at h ⊢
    have hchunks : chunks (fuel + 1) all = all.take 16 :: chunks fuel (all.drop 16) := by
      rw [← hall]
      rfl
    have hdrop : (all.drop 16).length ≤ 16 * fuel := by
      rw [List.length_drop]
      omega
    have hblock := hstream k
    have hlength : all.length = (all.take 16).length + (all.drop 16).length := by
      rw [List.length_take, List.length_drop]
      omega
    have hfirst : xorBytes (all.take 16) (stream k) =
        (List.range (all.take 16).length).map fun i =>
          all.getD i 0 ^^^ (stream ((16 * k + i) / 16)).getD ((16 * k + i) % 16) 0 := by
      rw [xorBytes_eq_map (by rw [List.length_take]; omega)]
      apply List.map_congr_left
      intro i hi
      have hlt := List.mem_range.1 hi
      rw [List.length_take] at hlt
      rw [show (16 * k + i) / 16 = k by omega, show (16 * k + i) % 16 = i by omega,
        List.getD_eq_getElem?_getD, List.getElem?_take_of_lt (by omega),
          ← List.getD_eq_getElem?_getD]
    rw [hchunks, List.zipIdx_cons, List.flatMap_cons, ih _ (k + 1) hdrop, hlength, List.range_add,
      List.map_append, List.map_map, ← hfirst]
    congr 1
    apply List.map_congr_left
    intro i hi
    have hlt := List.mem_range.1 hi
    rw [List.length_drop] at hlt
    rw [Function.comp_apply, List.length_take, Nat.min_eq_left (by omega),
      List.getD_eq_getElem?_getD, List.getElem?_drop, ← List.getD_eq_getElem?_getD,
      show 16 * (k + 1) + i = 16 * k + (16 + i) by omega]

theorem gcmCrypt_eq {key : List UInt8} (hkey : key.length = 16) (nonce bytes : List UInt8) :
    gcmCrypt key nonce bytes =
      (List.range bytes.length).map fun i => bytes.getD i 0 ^^^ keyStream key nonce i := by
  have hchunks := xor_chunks
    (fun k => length_encryptBlock hkey (counterBlock nonce (2 + k))) bytes.length bytes 0 (by omega)
  simp only [Nat.mul_zero, Nat.zero_add] at hchunks
  exact hchunks

theorem length_gcmCrypt {key : List UInt8} (hkey : key.length = 16) (nonce bytes : List UInt8) :
    (gcmCrypt key nonce bytes).length = bytes.length := by
  rw [gcmCrypt_eq hkey, List.length_map, List.length_range]

theorem gcmCrypt_getD {key : List UInt8} (hkey : key.length = 16) (nonce bytes : List UInt8) {i : ℕ}
    (hi : i < bytes.length) :
    (gcmCrypt key nonce bytes).getD i 0 = bytes.getD i 0 ^^^ keyStream key nonce i := by
  rw [gcmCrypt_eq hkey, List.getD_eq_getElem _ _ (by simpa using hi), List.getElem_map,
    List.getElem_range]

/-- The key stream twice leaves the text. -/
theorem gcmCrypt_gcmCrypt {key : List UInt8} (hkey : key.length = 16) (nonce bytes : List UInt8) :
    gcmCrypt key nonce (gcmCrypt key nonce bytes) = bytes := by
  apply List.ext_getElem
  · rw [length_gcmCrypt hkey, length_gcmCrypt hkey]
  · intro i hi hi'
    rw [← List.getD_eq_getElem _ 0 hi, gcmCrypt_getD hkey _ _ (by rwa [length_gcmCrypt hkey]),
      gcmCrypt_getD hkey _ _ hi', UInt8.xor_assoc, UInt8.xor_self, UInt8.xor_zero,
      List.getD_eq_getElem]

/-- Chunk `k` of a text. -/
def chunkAt (bytes : List UInt8) (k : ℕ) : List UInt8 := (bytes.drop (16 * k)).take 16

def chunkCount (bytes : List UInt8) : ℕ := (bytes.length + 15) / 16

theorem chunks_eq (fuel : ℕ) : ∀ bytes : List UInt8, bytes.length ≤ 16 * fuel →
    chunks fuel bytes = (List.range (chunkCount bytes)).map (chunkAt bytes) := by
  induction fuel with
  | zero =>
    intro bytes h
    have hnil : bytes = [] := List.eq_nil_of_length_eq_zero (by omega)
    rw [hnil]
    rfl
  | succ fuel ih =>
    intro bytes h
    rcases bytes with _ | ⟨byte, bytes⟩
    · rfl
    generalize hall : byte :: bytes = all at h ⊢
    have hpos : 0 < all.length := by
      rw [← hall]
      exact Nat.zero_lt_succ _
    have hchunks : chunks (fuel + 1) all = all.take 16 :: chunks fuel (all.drop 16) := by
      rw [← hall]
      rfl
    have hcount : chunkCount all = chunkCount (all.drop 16) + 1 := by
      unfold chunkCount
      rw [List.length_drop]
      omega
    rw [hchunks, ih _ (by rw [List.length_drop]; omega), hcount, List.range_succ_eq_map,
      List.map_cons, List.map_map]
    congr 1
    apply List.map_congr_left
    intro k hk
    rw [Function.comp_apply, chunkAt, chunkAt, List.drop_drop, Nat.succ_eq_add_one, Nat.mul_succ,
      Nat.add_comm 16]

/-- The hash of the first `k` chunks. -/
def hashed (h y : List UInt8) (bytes : List UInt8) (k : ℕ) : List UInt8 :=
  (List.range k).foldl (fun y j => ghashBlock y h (pad (chunkAt bytes j))) y

theorem hashed_succ (h y bytes : List UInt8) (k : ℕ) :
    hashed h y bytes (k + 1) = ghashBlock (hashed h y bytes k) h (pad (chunkAt bytes k)) := by
  unfold hashed
  rw [List.range_succ, List.foldl_append, List.foldl_cons, List.foldl_nil]

theorem foldl_chunks (h y bytes : List UInt8) :
    (chunks bytes.length bytes).foldl (fun y chunk => ghashBlock y h (pad chunk)) y =
      hashed h y bytes (chunkCount bytes) := by
  unfold hashed
  rw [chunks_eq _ _ (by omega), List.foldl_map]

theorem gcmTag_eq (key nonce aad cipher : List UInt8) :
    gcmTag key nonce aad cipher =
      xorBytes (aes128EncryptBlock key (counterBlock nonce 1))
        (ghashBlock (hashed (aes128EncryptBlock key (List.replicate 16 0))
          (ghashBlock (List.replicate 16 0)
            (aes128EncryptBlock key (List.replicate 16 0)) (pad aad))
            cipher (chunkCount cipher)) (aes128EncryptBlock key (List.replicate 16 0))
          (lengthBlock cipher.length)) := by
  unfold gcmTag
  dsimp only
  rw [foldl_chunks]

/-- A byte behind the ones that are there. -/
theorem pad_set {bytes : List UInt8} (h : bytes.length < 16) (byte : UInt8) :
    (pad bytes).set bytes.length byte = pad (bytes ++ [byte]) := by
  unfold pad
  rw [List.set_append_right _ _ le_rfl, Nat.sub_self, List.append_assoc, List.length_append,
    List.length_singleton]
  obtain ⟨n, hn⟩ := Nat.exists_eq_add_of_lt h
  rw [show 16 - bytes.length = 16 - (bytes.length + 1) + 1 by omega, List.replicate_succ,
    List.set_cons_zero]
  rfl

/-! ## One chunk -/

/-- The bytes that a chunk makes. -/
def xorChunk (bytes stream : List UInt8) (off chunk : ℕ) : List UInt8 :=
  (List.range chunk).map fun i => bytes.getD (off + i) 0 ^^^ stream.getD i 0

theorem decryptChunk_spec (cipher stream : List UInt8) (off chunk : ℕ) (plain : Buffer) (i : ℕ) :
    decryptChunk cipher stream off chunk plain i =
      if off ≤ i ∧ i < off + chunk then cipher.getD i 0 ^^^ stream.getD (i - off) 0
      else plain i := by
  unfold decryptChunk
  induction chunk with
  | zero => rw [if_neg (by omega)]; rfl
  | succ chunk ih =>
    rw [List.range_succ, List.foldl_append, List.foldl_cons, List.foldl_nil, Function.update_apply]
    by_cases hi : i = off + chunk
    · rw [if_pos hi, if_pos (by omega), hi, Nat.add_sub_cancel_left]
    · rw [if_neg hi, ih]
      by_cases hin : off ≤ i ∧ i < off + chunk
      · rw [if_pos hin, if_pos (by omega)]
      · rw [if_neg hin, if_neg (by omega)]

/-- It writes what decrypting would, and makes the block for the hash of these bytes. -/
theorem encryptChunk_spec (plain stream : List UInt8) (off : ℕ) {chunk : ℕ} (h : chunk ≤ 16)
    (cipher : Buffer) : encryptChunk plain stream off chunk cipher =
      (decryptChunk plain stream off chunk cipher, pad (xorChunk plain stream off chunk)) := by
  unfold encryptChunk decryptChunk xorChunk
  induction chunk with
  | zero => rfl
  | succ chunk ih =>
    have hlength : ((List.range chunk).map fun i =>
        plain.getD (off + i) 0 ^^^ stream.getD i 0).length = chunk := by
      rw [List.length_map, List.length_range]
    have hset := pad_set (hlength.trans_lt h) (plain.getD (off + chunk) 0 ^^^ stream.getD chunk 0)
    rw [hlength] at hset
    rw [List.range_succ, List.foldl_append, List.foldl_append, List.foldl_cons, List.foldl_nil,
      List.foldl_cons, List.foldl_nil, ih (by omega), List.map_append, List.map_singleton]
    dsimp only
    rw [Function.update_self, hset]

/-- A buffer with the first bytes of a text in it. -/
def filled (out : Buffer) (bytes : List UInt8) (n : ℕ) : Buffer := fun i =>
  if i < n then bytes.getD i 0 else out i

section Loops

variable {key nonce : List UInt8} {bytes : List UInt8} {k : ℕ}

theorem toNat_offset (h : k ≤ 4095) : (UInt16.ofNat (16 * k)).toNat = 16 * k := by
  rw [UInt16.toNat_ofNat']
  omega

theorem next_offset (k : ℕ) : UInt16.ofNat (16 * k) + 16 = UInt16.ofNat (16 * (k + 1)) := by
  rw [Nat.mul_succ, UInt16.ofNat_add]
  rfl

theorem toNat_length (h : bytes.length ≤ 65520) :
    (UInt16.ofNat bytes.length).toNat = bytes.length := by
  rw [UInt16.toNat_ofNat']
  omega

/-- The loops go on as long as there is a chunk. -/
theorem offset_lt_iff (h : bytes.length ≤ 65520) (hk : k ≤ chunkCount bytes) :
    UInt16.ofNat (16 * k) < UInt16.ofNat bytes.length ↔ k < chunkCount bytes := by
  unfold chunkCount at hk ⊢
  rw [UInt16.lt_iff_toNat_lt, toNat_length h, toNat_offset (by omega)]
  omega

theorem length_chunkAt (bytes : List UInt8) (k : ℕ) :
    (chunkAt bytes k).length = min 16 (bytes.length - 16 * k) := by
  rw [chunkAt, List.length_take, List.length_drop]

theorem chunkAt_getD (bytes : List UInt8) (k : ℕ) {i : ℕ} (hi : i < 16) :
    (chunkAt bytes k).getD i 0 = bytes.getD (16 * k + i) 0 := by
  rw [chunkAt, List.getD_eq_getElem?_getD, List.getElem?_take_of_lt hi, List.getElem?_drop,
    ← List.getD_eq_getElem?_getD]

theorem chunkLength_eq (h : bytes.length ≤ 65520) (hk : k < chunkCount bytes) :
    chunkLength (UInt16.ofNat bytes.length) (UInt16.ofNat (16 * k)) = (chunkAt bytes k).length := by
  unfold chunkCount at hk
  have hoff : (UInt16.ofNat (16 * k)).toNat = 16 * k := toNat_offset (by omega)
  have hle : UInt16.ofNat (16 * k) ≤ UInt16.ofNat bytes.length := by
    rw [UInt16.le_iff_toNat_le, toNat_length h, hoff]
    omega
  have hsub : (UInt16.ofNat bytes.length - UInt16.ofNat (16 * k)).toNat
      = bytes.length - 16 * k := by
    rw [UInt16.toNat_sub_of_le _ _ hle, toNat_length h, hoff]
  unfold chunkLength
  dsimp only
  rw [length_chunkAt]
  by_cases hlong : UInt16.ofNat bytes.length - UInt16.ofNat (16 * k) > 16
  · have hnat : 16 < bytes.length - 16 * k := by
      rw [← hsub]
      exact UInt16.lt_iff_toNat_lt.1 hlong
    rw [if_pos hlong, Nat.min_eq_left hnat.le]
    rfl
  · have hnat : ¬16 < bytes.length - 16 * k := by
      rw [← hsub]
      exact fun h => hlong (UInt16.lt_iff_toNat_lt.2 h)
    rw [if_neg hlong, hsub, Nat.min_eq_right (by omega)]

/-- A chunk at the front of a block of zeros. -/
theorem writeFrom_zeros {bytes : List UInt8} (h : bytes.length ≤ 16) :
    writeFrom (List.replicate 16 0) 0 bytes = pad bytes := by
  rw [BlockBuffer.writeFrom_eq _ (by rwa [List.length_replicate, Nat.zero_add]), pad,
    List.take_zero, List.nil_append, Nat.zero_add, List.drop_replicate]

theorem toNat_chunk (h : bytes.length ≤ 65520) (hk : k < chunkCount bytes) :
    (UInt16.ofNat (16 * k)).toNat = 16 * k := by
  unfold chunkCount at hk
  exact toNat_offset (by omega)

theorem min_chunkCount (bytes : List UInt8) :
    min (16 * chunkCount bytes) bytes.length = bytes.length := by
  unfold chunkCount
  omega

variable (hkey : key.length = 16)
include hkey

/-- The bytes that a round makes are a chunk of the text with the key stream added. -/
theorem xorChunk_eq (nonce bytes : List UInt8) (k : ℕ) :
    xorChunk bytes (aes128EncryptBlock key (counterBlock nonce (2 + k))) (16 * k)
      (chunkAt bytes k).length = chunkAt (gcmCrypt key nonce bytes) k := by
  have hsame : (chunkAt (gcmCrypt key nonce bytes) k).length = (chunkAt bytes k).length := by
    rw [length_chunkAt, length_chunkAt, length_gcmCrypt hkey]
  apply List.ext_getElem
  · rw [xorChunk, List.length_map, List.length_range, hsame]
  · intro i hi hi'
    have hlt : i < (chunkAt bytes k).length := hsame ▸ hi'
    rw [length_chunkAt] at hlt
    rw [← List.getD_eq_getElem _ 0 hi', chunkAt_getD _ _ (by omega),
      gcmCrypt_getD hkey _ _ (by omega), keyStream, show (16 * k + i) / 16 = k by omega,
      show (16 * k + i) % 16 = i by omega]
    simp only [xorChunk, List.getElem_map, List.getElem_range]

theorem decryptChunk_filled (nonce bytes : List UInt8) (k : ℕ) (out : Buffer) :
    decryptChunk bytes (aes128EncryptBlock key (counterBlock nonce (2 + k))) (16 * k)
      (chunkAt bytes k).length (filled out (gcmCrypt key nonce bytes) (min (16 * k) bytes.length)) =
      filled out (gcmCrypt key nonce bytes) (min (16 * (k + 1)) bytes.length) := by
  funext i
  rw [decryptChunk_spec, length_chunkAt]
  unfold filled
  by_cases hin : 16 * k ≤ i ∧ i < 16 * k + min 16 (bytes.length - 16 * k)
  · have hlt : i < bytes.length := by omega
    rw [if_pos hin, if_pos (by omega), gcmCrypt_getD hkey _ _ hlt, keyStream,
      show i / 16 = k by omega, show i % 16 = i - 16 * k by omega]
  · rw [if_neg hin]
    by_cases hold : i < min (16 * k) bytes.length
    · rw [if_pos hold, if_pos (by omega)]
    · rw [if_neg hold, if_neg (by omega)]

variable (hnonce : nonce.length = 12)
include hnonce

/-- After `k` rounds the first `k` chunks are encrypted and hashed. -/
theorem encryptLoop_from (h y : List UInt8) (out : Buffer) (hlength : bytes.length ≤ 65520)
    {todo fuel : ℕ} (hk : k + todo = chunkCount bytes) (hfuel : todo < fuel) :
    encryptLoop key h bytes (UInt16.ofNat bytes.length) fuel (UInt16.ofNat (16 * k))
      (counterBlock nonce (2 + k)) (hashed h y (gcmCrypt key nonce bytes) k)
      (filled out (gcmCrypt key nonce bytes) (min (16 * k) bytes.length)) =
      some (hashed h y (gcmCrypt key nonce bytes) (chunkCount bytes),
        filled out (gcmCrypt key nonce bytes) bytes.length) := by
  induction todo generalizing k fuel with
  | zero =>
    obtain ⟨fuel, rfl⟩ := Nat.exists_eq_add_one_of_ne_zero (by omega : fuel ≠ 0)
    have hend : ¬UInt16.ofNat (16 * k) < UInt16.ofNat bytes.length := by
      rw [offset_lt_iff hlength (by omega)]
      omega
    rw [Nat.add_zero] at hk
    rw [encryptLoop, if_neg hend, hk, min_chunkCount]
  | succ todo ih =>
    obtain ⟨fuel, rfl⟩ := Nat.exists_eq_add_one_of_ne_zero (by omega : fuel ≠ 0)
    have hlt : k < chunkCount bytes := by omega
    have hmore := (offset_lt_iff hlength hlt.le).2 hlt
    have hchunk := length_chunkAt bytes k
    rw [encryptLoop, if_pos hmore]
    dsimp only
    rw [chunkLength_eq hlength hlt, toNat_chunk hlength hlt, encryptChunk_spec _ _ _ (by omega)]
    dsimp only
    rw [xorChunk_eq hkey, decryptChunk_filled hkey, next_offset, increment_counterBlock hnonce,
      ← hashed_succ]
    exact ih (by omega) (by omega)

omit hkey hnonce in
theorem hashLoop_from (h y : List UInt8) (hlength : bytes.length ≤ 65520) {todo fuel : ℕ}
    (hk : k + todo = chunkCount bytes) (hfuel : todo < fuel) :
    hashLoop h bytes (UInt16.ofNat bytes.length) fuel (UInt16.ofNat (16 * k)) (hashed h y bytes k) =
      some (hashed h y bytes (chunkCount bytes)) := by
  induction todo generalizing k fuel with
  | zero =>
    obtain ⟨fuel, rfl⟩ := Nat.exists_eq_add_one_of_ne_zero (by omega : fuel ≠ 0)
    have hend : ¬UInt16.ofNat (16 * k) < UInt16.ofNat bytes.length := by
      rw [offset_lt_iff hlength (by omega)]
      omega
    rw [Nat.add_zero] at hk
    rw [hashLoop, if_neg hend, hk]
  | succ todo ih =>
    obtain ⟨fuel, rfl⟩ := Nat.exists_eq_add_one_of_ne_zero (by omega : fuel ≠ 0)
    have hlt : k < chunkCount bytes := by omega
    have hmore := (offset_lt_iff hlength hlt.le).2 hlt
    have hchunk := length_chunkAt bytes k
    have htake : (bytes.drop (16 * k)).take (chunkAt bytes k).length = chunkAt bytes k := by
      rw [chunkAt, List.length_take, ← List.take_eq_take_min]
    rw [hashLoop, if_pos hmore]
    dsimp only
    rw [chunkLength_eq hlength hlt, toNat_chunk hlength hlt, htake, writeFrom_zeros (by omega),
      next_offset, ← hashed_succ]
    exact ih (by omega) (by omega)

/-- After `k` rounds the first `k` chunks are decrypted. -/
theorem decryptLoop_from (out : Buffer) (hlength : bytes.length ≤ 65520)
    {todo fuel : ℕ} (hk : k + todo = chunkCount bytes) (hfuel : todo < fuel) :
    decryptLoop key bytes (UInt16.ofNat bytes.length) fuel (UInt16.ofNat (16 * k))
      (counterBlock nonce (2 + k))
      (filled out (gcmCrypt key nonce bytes) (min (16 * k) bytes.length)) =
      some (filled out (gcmCrypt key nonce bytes) bytes.length) := by
  induction todo generalizing k fuel with
  | zero =>
    obtain ⟨fuel, rfl⟩ := Nat.exists_eq_add_one_of_ne_zero (by omega : fuel ≠ 0)
    have hend : ¬UInt16.ofNat (16 * k) < UInt16.ofNat bytes.length := by
      rw [offset_lt_iff hlength (by omega)]
      omega
    rw [Nat.add_zero] at hk
    rw [decryptLoop, if_neg hend, hk, min_chunkCount]
  | succ todo ih =>
    obtain ⟨fuel, rfl⟩ := Nat.exists_eq_add_one_of_ne_zero (by omega : fuel ≠ 0)
    have hlt : k < chunkCount bytes := by omega
    have hmore := (offset_lt_iff hlength hlt.le).2 hlt
    rw [decryptLoop, if_pos hmore]
    dsimp only
    rw [chunkLength_eq hlength hlt, toNat_chunk hlength hlt, decryptChunk_filled hkey, next_offset,
      increment_counterBlock hnonce]
    exact ih (by omega) (by omega)

end Loops

/-! ## The tag -/

theorem length_gcmShiftRight (v : List UInt8) : (gcmShiftRight v).length = v.length := by
  rw [gcmShiftRight, List.length_zipWith, List.length_cons]
  omega

theorem length_gcmMulBits (x : List UInt8) (is : List ℕ) {z v : List UInt8} (hz : z.length = 16)
    (hv : v.length = 16) : (gcmMulBits x is z v).length = 16 := by
  induction is generalizing z v with
  | nil => exact hz
  | cons i is ih =>
    apply ih
    · by_cases hbit : (x.getD (i / 8) 0).toNat.testBit (7 - i % 8)
      · rw [if_pos hbit, length_xorBytes, hz, hv, Nat.min_self]
      · rw [if_neg hbit, hz]
    · by_cases hlow : v.getD 15 0 &&& 1 != 0
      · rw [if_pos hlow, List.length_modifyHead, length_gcmShiftRight, hv]
      · rw [if_neg hlow, length_gcmShiftRight, hv]

theorem length_ghashBlock {h : List UInt8} (hh : h.length = 16) (y block : List UInt8) :
    (ghashBlock y h block).length = 16 :=
  length_gcmMulBits _ _ List.length_replicate hh

theorem start_eq (h : List UInt8) {aad : List UInt8} (haad : aad.length = 13) :
    start h aad = ghashBlock (List.replicate 16 0) h (pad aad) := by
  rw [start, writeFrom_zeros (by omega)]

theorem put32be_lengths (value : UInt32) :
    put32be (put32be (List.replicate 16 0) 4 (13 * 8)) 12 value =
      ([0, 0, 0, 0, 0, 0, 0, 13 * 8, 0, 0, 0, 0, (value >>> 24).toUInt8, (value >>> 16).toUInt8,
        (value >>> 8).toUInt8, value.toUInt8] : List UInt8) := by
  rfl

theorem lengths_eq {length : ℕ} (h : length < 65536) :
    put32be (put32be (List.replicate 16 0) 4 (13 * 8)) 12 ((UInt16.ofNat length).toUInt32 * 8) =
      lengthBlock length := by
  have hvalue : ((UInt16.ofNat length).toUInt32 * 8).toNat = 8 * length := by
    rw [UInt32.toNat_mul, UInt16.toNat_toUInt32, UInt16.toNat_ofNat']
    show length % 65536 * 8 % 4294967296 = 8 * length
    omega
  have hbyte (n : UInt32) : (((UInt16.ofNat length).toUInt32 * 8) >>> n).toUInt8 =
      UInt8.ofNat (8 * length / 2 ^ (n.toNat % 32)) := by
    rw [← UInt8.toNat_inj, UInt32.toNat_toUInt8, UInt32.toNat_shiftRight, hvalue,
      UInt8.toNat_ofNat', Nat.shiftRight_eq_div_pow]
  have hlast : ((UInt16.ofNat length).toUInt32 * 8).toUInt8 = UInt8.ofNat (8 * length) := by
    rw [← UInt8.toNat_inj, UInt32.toNat_toUInt8, hvalue, UInt8.toNat_ofNat']
  rw [put32be_lengths, hbyte, hbyte, hbyte, hlast, lengthBlock]
  simp [List.range_succ]

theorem finish_eq {key : List UInt8} (hkey : key.length = 16) (nonce : List UInt8)
    {h : List UInt8} (hh : h.length = 16) (y : List UInt8) {length : ℕ} (hlength : length < 65536) :
    finish key nonce h y (UInt16.ofNat length) =
      xorBytes (aes128EncryptBlock key (counterBlock nonce 1))
        (ghashBlock y h (lengthBlock length)) := by
  have hstream := length_encryptBlock hkey (counterBlock nonce 1)
  have hone : nonce ++ [0, 0, 0, 1] = counterBlock nonce 1 := by
    rw [counterBlock_eq]
    rfl
  unfold finish
  dsimp only
  rw [lengths_eq hlength, hone, xorBytes_eq_map (by rw [hstream, length_ghashBlock hh]), hstream]

theorem length_gcmTag {key : List UInt8} (hkey : key.length = 16) (nonce aad cipher : List UInt8) :
    (gcmTag key nonce aad cipher).length = 16 := by
  rw [gcmTag_eq, length_xorBytes, length_encryptBlock hkey,
    length_ghashBlock (length_encryptBlock hkey _), Nat.min_self]

theorem foldl_or_eq_zero (f : ℕ → UInt8) (n : ℕ) :
    (List.range n).foldl (fun diff i => diff ||| f i) 0 = 0 ↔ ∀ i < n, f i = 0 := by
  induction n with
  | zero => simp
  | succ n ih =>
    rw [List.range_succ, List.foldl_append, List.foldl_cons, List.foldl_nil,
      UInt8.or_eq_zero_iff, ih, Nat.forall_lt_succ_right]

/-- No bit differs where the tags are one. -/
theorem tagDiff_eq_zero {calcTag tag : List UInt8} (hcalc : calcTag.length = 16)
    (htag : tag.length = 16) : tagDiff calcTag tag = 0 ↔ calcTag = tag := by
  unfold tagDiff
  rw [foldl_or_eq_zero]
  constructor
  · intro h
    apply List.ext_getElem (hcalc.trans htag.symm)
    intro i hi hi'
    have hbyte := UInt8.xor_eq_zero_iff.1 (h i (by omega))
    rwa [List.getD_eq_getElem _ _ hi, List.getD_eq_getElem _ _ hi'] at hbyte
  · intro h i hi
    rw [h, UInt8.xor_self]

/-! ## Encrypting and decrypting -/

section Returns

variable {key nonce aad bytes : List UInt8} {fuel : ℕ}

theorem chunkCount_lt (h : bytes.length ≤ 65520) (hfuel : 4095 < fuel) :
    chunkCount bytes < fuel := by
  unfold chunkCount
  omega

theorem first_counter (nonce : List UInt8) :
    nonce ++ [0, 0, 0, 2] = counterBlock nonce (2 + 0) := by
  rw [counterBlock_eq]
  rfl

theorem hashed_zero (h y bytes : List UInt8) : hashed h y bytes 0 = y := by
  rw [hashed, List.range_zero, List.foldl_nil]

theorem filled_zero (out : Buffer) (bytes : List UInt8) (length : ℕ) :
    filled out bytes (min (16 * 0) length) = out := by
  rw [Nat.mul_zero, Nat.zero_min]
  rfl

theorem hashLoop_eq (h y : List UInt8) (hlength : bytes.length ≤ 65520) (hfuel : 4095 < fuel) :
    hashLoop h bytes (UInt16.ofNat bytes.length) fuel 0 y =
      some (hashed h y bytes (chunkCount bytes)) := by
  have hloop := hashLoop_from h y hlength (Nat.zero_add _) (chunkCount_lt hlength hfuel)
  rwa [hashed_zero] at hloop

variable (hkey : key.length = 16) (hnonce : nonce.length = 12)
include hkey hnonce

theorem encryptLoop_eq (h y : List UInt8) (hlength : bytes.length ≤ 65520) (hfuel : 4095 < fuel)
    (out : Buffer) :
    encryptLoop key h bytes (UInt16.ofNat bytes.length) fuel 0 (nonce ++ [0, 0, 0, 2]) y out =
      some (hashed h y (gcmCrypt key nonce bytes) (chunkCount bytes),
        filled out (gcmCrypt key nonce bytes) bytes.length) := by
  have hloop := encryptLoop_from hkey hnonce h y out hlength (Nat.zero_add _)
    (chunkCount_lt hlength hfuel)
  rwa [hashed_zero, filled_zero, ← first_counter] at hloop

theorem decryptLoop_eq (hlength : bytes.length ≤ 65520) (hfuel : 4095 < fuel) (out : Buffer) :
    decryptLoop key bytes (UInt16.ofNat bytes.length) fuel 0 (nonce ++ [0, 0, 0, 2]) out =
      some (filled out (gcmCrypt key nonce bytes) bytes.length) := by
  have hloop := decryptLoop_from hkey hnonce out hlength (Nat.zero_add _)
    (chunkCount_lt hlength hfuel)
  rwa [filled_zero, ← first_counter] at hloop

variable (haad : aad.length = 13)
include haad

/-- Encrypting writes the text with the key stream added, and makes its tag. -/
theorem encrypt_eq (hlength : bytes.length ≤ 65520) (hfuel : 4095 < fuel) (out : Buffer) :
    aes128GcmEncrypt fuel key nonce aad bytes (UInt16.ofNat bytes.length) out =
      some (filled out (gcmCrypt key nonce bytes) bytes.length,
        gcmTag key nonce aad (gcmCrypt key nonce bytes)) := by
  have hcount : chunkCount (gcmCrypt key nonce bytes) = chunkCount bytes := by
    rw [chunkCount, chunkCount, length_gcmCrypt hkey]
  have hh := length_encryptBlock hkey (List.replicate 16 0)
  unfold aes128GcmEncrypt
  dsimp only
  rw [encryptLoop_eq hkey hnonce _ _ hlength hfuel]
  dsimp only
  rw [finish_eq hkey nonce hh _ (by omega), gcmTag_eq, hcount, length_gcmCrypt hkey,
    start_eq _ haad]

/-- Decrypting compares the tag and then writes the text with the key stream added. -/
theorem decrypt_eq (hlength : bytes.length ≤ 65520) (hfuel : 4095 < fuel) {tag : List UInt8}
    (htag : tag.length = 16) (out : Buffer) :
    aes128GcmDecrypt fuel key nonce aad bytes (UInt16.ofNat bytes.length) tag out =
      some (if gcmTag key nonce aad bytes = tag then
        (1, filled out (gcmCrypt key nonce bytes) bytes.length) else (0, out)) := by
  have hh := length_encryptBlock hkey (List.replicate 16 0)
  have hdiff := tagDiff_eq_zero (length_gcmTag hkey nonce aad bytes) htag
  unfold aes128GcmDecrypt
  dsimp only
  rw [hashLoop_eq _ _ hlength hfuel]
  dsimp only
  rw [finish_eq hkey nonce hh _ (by omega), start_eq _ haad, ← gcmTag_eq]
  by_cases htags : gcmTag key nonce aad bytes = tag
  · rw [if_neg (by rw [hdiff.2 htags]; decide), decryptLoop_eq hkey hnonce hlength hfuel,
      if_pos htags]
  · rw [if_pos (by rw [bne_iff_ne]; exact fun h => htags (hdiff.1 h)), if_neg htags]

end Returns

section Endless

variable {length : UInt16} (hlong : 65520 < length.toNat)
include hlong

/-- The offset wraps before it gets to the length. -/
theorem offset_lt (k : ℕ) : UInt16.ofNat (16 * k) < length := by
  rw [UInt16.lt_iff_toNat_lt, UInt16.toNat_ofNat']
  omega

theorem encryptLoop_endless (key h plain : List UInt8) (fuel : ℕ) : ∀ (k : ℕ) (ctr y : List UInt8)
    (cipher : Buffer),
    encryptLoop key h plain length fuel (UInt16.ofNat (16 * k)) ctr y cipher = none := by
  induction fuel with
  | zero => simp [encryptLoop]
  | succ fuel ih =>
    intro k ctr y cipher
    rw [encryptLoop, if_pos (offset_lt hlong k)]
    dsimp only
    rw [next_offset]
    exact ih _ _ _ _

theorem hashLoop_endless (h cipher : List UInt8) (fuel : ℕ) : ∀ (k : ℕ) (y : List UInt8),
    hashLoop h cipher length fuel (UInt16.ofNat (16 * k)) y = none := by
  induction fuel with
  | zero => simp [hashLoop]
  | succ fuel ih =>
    intro k y
    rw [hashLoop, if_pos (offset_lt hlong k)]
    dsimp only
    rw [next_offset]
    exact ih _ _

theorem encrypt_endless (fuel : ℕ) (key nonce aad plain : List UInt8) (out : Buffer) :
    aes128GcmEncrypt fuel key nonce aad plain length out = none := by
  have hloop := encryptLoop_endless hlong key (aes128EncryptBlock key (List.replicate 16 0)) plain
    fuel 0 (nonce ++ [0, 0, 0, 2]) (start (aes128EncryptBlock key (List.replicate 16 0)) aad) out
  rw [show UInt16.ofNat (16 * 0) = 0 by rfl] at hloop
  unfold aes128GcmEncrypt
  dsimp only
  rw [hloop]

theorem decrypt_endless (fuel : ℕ) (key nonce aad cipher tag : List UInt8) (out : Buffer) :
    aes128GcmDecrypt fuel key nonce aad cipher length tag out = none := by
  have hloop := hashLoop_endless hlong (aes128EncryptBlock key (List.replicate 16 0)) cipher
    fuel 0 (start (aes128EncryptBlock key (List.replicate 16 0)) aad)
  rw [show UInt16.ofNat (16 * 0) = 0 by rfl] at hloop
  unfold aes128GcmDecrypt
  dsimp only
  rw [hloop]

end Endless

/-- The bytes at a pointer, as a text. -/
def bytesAt (buffer : Buffer) (length : ℕ) : List UInt8 := (List.range length).map buffer

theorem bytesAt_filled (out : Buffer) (bytes : List UInt8) :
    bytesAt (filled out bytes bytes.length) bytes.length = bytes := by
  apply List.ext_getElem
  · rw [bytesAt, List.length_map, List.length_range]
  · intro i hi hi'
    simp only [bytesAt, List.getElem_map, List.getElem_range, filled]
    rw [if_pos hi', List.getD_eq_getElem]

/-- What `aes128_gcm_encrypt` made is decrypted to what it was made from. A cipher text is decrypted
where its tag is the one that encrypting the text under it makes, and else nothing is written; where
the length is above 65520 neither function returns. -/
theorem gcm_round_trip {key nonce aad : List UInt8} (hkey : key.length = 16)
    (hnonce : nonce.length = 12) (haad : aad.length = 13) {fuel : ℕ} (hfuel : 4095 < fuel)
    (out back : Buffer) :
    (∀ plain : List UInt8, plain.length ≤ 65520 → ∃ cipher tag,
      aes128GcmEncrypt fuel key nonce aad plain (UInt16.ofNat plain.length) out =
        some (cipher, tag) ∧
      aes128GcmDecrypt fuel key nonce aad (bytesAt cipher plain.length) (UInt16.ofNat plain.length)
        tag back = some (1, filled back plain plain.length)) ∧
    ∀ cipher tag : List UInt8, cipher.length < 65536 → tag.length = 16 →
      ((∃ plain, aes128GcmDecrypt fuel key nonce aad cipher (UInt16.ofNat cipher.length) tag back =
          some (1, plain)) ↔
        ∃ made, aes128GcmEncrypt fuel key nonce aad
          ((List.range cipher.length).map fun i => cipher.getD i 0 ^^^ keyStream key nonce i)
          (UInt16.ofNat cipher.length) out = some (made, tag)) ∧
      ∀ plain, aes128GcmDecrypt fuel key nonce aad cipher (UInt16.ofNat cipher.length) tag back =
        some (0, plain) → plain = back := by
  refine ⟨?_, ?_⟩
  · intro plain hlength
    have hcipher : (gcmCrypt key nonce plain).length = plain.length := length_gcmCrypt hkey _ _
    have hread : bytesAt (filled out (gcmCrypt key nonce plain) plain.length) plain.length =
        gcmCrypt key nonce plain := by
      rw [← hcipher, bytesAt_filled]
    have hdecrypt := decrypt_eq hkey hnonce haad (hcipher.trans_le hlength) hfuel
      (length_gcmTag hkey nonce aad (gcmCrypt key nonce plain)) back
    rw [if_pos rfl, gcmCrypt_gcmCrypt hkey, hcipher] at hdecrypt
    refine ⟨_, _, encrypt_eq hkey hnonce haad hlength hfuel out, ?_⟩
    rw [hread, hdecrypt]
  · intro cipher tag hlength htag
    rw [← gcmCrypt_eq hkey]
    by_cases hlong : 65520 < cipher.length
    · have hnat : 65520 < (UInt16.ofNat cipher.length).toNat := by
        rwa [UInt16.toNat_ofNat', Nat.mod_eq_of_lt hlength]
      rw [decrypt_endless hnat, encrypt_endless hnat]
      simp
    · have hplain : (gcmCrypt key nonce cipher).length = cipher.length := length_gcmCrypt hkey _ _
      have hencrypt := encrypt_eq hkey hnonce haad (hplain.trans_le (by omega)) hfuel out
      rw [gcmCrypt_gcmCrypt hkey, hplain] at hencrypt
      rw [decrypt_eq hkey hnonce haad (by omega) hfuel htag, hencrypt]
      by_cases htags : gcmTag key nonce aad cipher = tag
      · simp [htags]
      · simp [htags]

/-- A chunk and a part of one. -/
theorem gcm_round_trip_twenty : ∃ cipher tag,
    aes128GcmEncrypt 4096 (List.replicate 16 1) (List.replicate 12 2) (List.replicate 13 3)
      (List.replicate 20 4) 20 (fun _ => 0) = some (cipher, tag) ∧
    aes128GcmDecrypt 4096 (List.replicate 16 1) (List.replicate 12 2) (List.replicate 13 3)
      (bytesAt cipher 20) 20 tag (fun _ => 5) =
        some (1, filled (fun _ => 5) (List.replicate 20 4) 20) :=
  (gcm_round_trip List.length_replicate List.length_replicate List.length_replicate
    (by decide) _ _).1
    (List.replicate 20 4) (by decide)

end GcmLoops

end MinervaOS.Crypto
