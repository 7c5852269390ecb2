import MinervaOS.Crypto.Hmac
import MinervaOS.Crypto.Sha256Standard
import MinervaOS.Lib.KeyedHash

/-!
# The keyed hash and the pseudorandom function over their buffers

`net_hmac_sha256` and `net_tls_prf_sha256` with the arrays that they put their inputs together in,
and with the loop that writes the output piece by piece. The keyed hash is the one of the standard
for all keys and for data of at most 160 bytes, and the loop writes the first bytes of its stream
(`prf_stream`).
-/

namespace MinervaOS.Crypto

namespace PrfBuffers

open BlockBuffer KeyedHash

/-- What the arrays hold before they are written. -/
structure Scratch where
  inner : List UInt8
  outer : List UInt8
  labelSeed : List UInt8
  blockData : List UInt8
  inner_length : inner.length = 224
  outer_length : outer.length = 96
  labelSeed_length : labelSeed.length = 128
  blockData_length : blockData.length = 160

/-- `inner[i] = k0[i] ^ pad`, for the 64 bytes of `k0`. -/
def xorLoop (array k0 : List UInt8) (pad : UInt8) : List UInt8 :=
  (List.range 64).foldl (fun array i => array.set i (k0.getD i 0 ^^^ pad)) array

/-- The data is copied before the output is written, so that the two may be one array. -/
def netHmacSha256 (scratch : Scratch) (key data : List UInt8) : List UInt8 :=
  let k0 := List.replicate 64 0
  let k0 := if key.length > 64 then writeFrom k0 0 (Crypto.sha256Hash key) else writeFrom k0 0 key
  let inner := xorLoop scratch.inner k0 0x36
  let outer := xorLoop scratch.outer k0 0x5C
  let dataLen := if data.length > 160 then 160 else data.length
  let inner := writeFrom inner 64 (data.take dataLen)
  let innerHash := Crypto.sha256Hash (inner.take (64 + dataLen))
  let outer := writeFrom outer 64 innerHash
  Crypto.sha256Hash outer

/-- `memcpy(out + produced, bytes, …)` -/
def copyTo (out : ℕ → UInt8) (produced : ℕ) (bytes : List UInt8) : ℕ → UInt8 := fun i =>
  if produced ≤ i ∧ i < produced + bytes.length then bytes.getD (i - produced) 0 else out i

/-- The loop, with a bound on its rounds. -/
def prfLoop (scratch : Scratch) (secret labelSeed : List UInt8) (labelSeedLen outLen : ℕ) :
    ℕ → List UInt8 → List UInt8 → ℕ → (ℕ → UInt8) → Option (ℕ → UInt8)
  | 0, _, _, _, _ => none
  | fuel + 1, a, blockData, produced, out =>
    if produced < outLen then
      let blockData := writeFrom blockData 0 a
      let blockData := writeFrom blockData 32 (labelSeed.take labelSeedLen)
      let block := netHmacSha256 scratch secret (blockData.take (32 + labelSeedLen))
      let copy := outLen - produced
      let copy := if copy > 32 then 32 else copy
      let out := copyTo out produced (block.take copy)
      let a := netHmacSha256 scratch secret a
      prfLoop scratch secret labelSeed labelSeedLen outLen fuel a blockData (produced + copy) out
    else some out

def netTlsPrfSha256 (scratch : Scratch) (fuel : ℕ) (secret label seed : List UInt8)
    (out : ℕ → UInt8) (outLen : ℕ) : Option (ℕ → UInt8) :=
  let labelSeedLen := label.length + seed.length
  if labelSeedLen > 128 then some out
  else
    let labelSeed := writeFrom scratch.labelSeed 0 label
    let labelSeed := writeFrom labelSeed label.length seed
    let a := netHmacSha256 scratch secret (labelSeed.take labelSeedLen)
    prfLoop scratch secret labelSeed labelSeedLen outLen fuel a scratch.blockData 0 out

/-! ## The keyed hash -/

theorem length_sha256Hash (data : List UInt8) : (Crypto.sha256Hash data).length = 32 := by
  have hstate := length_absorb Crypto.sha256Init.state (padBytes data) rfl
  have hfour : ∀ w ∈ absorb Crypto.sha256Init.state (padBytes data), (storeBe32 w).length = 4 :=
    fun w hw => rfl
  rw [hash_eq_absorb, List.length_flatMap, List.map_congr_left hfour, List.map_const', hstate]
  rfl

theorem take_writeFrom {array bytes : List UInt8} {i : ℕ}
    (h : i + bytes.length ≤ array.length) :
    (writeFrom array i bytes).take (i + bytes.length) = array.take i ++ bytes := by
  have hlen : (array.take i ++ bytes).length = i + bytes.length := by
    rw [List.length_append, List.length_take_of_le (by omega)]
  rw [writeFrom_eq _ h, List.take_left' hlen]

theorem length_writeFrom (array bytes : List UInt8) (i : ℕ) :
    (writeFrom array i bytes).length = array.length := by
  induction bytes generalizing array i with
  | nil => rfl
  | cons byte bytes ih => rw [writeFrom, ih, List.length_set]

/-- One string behind the other. -/
theorem take_writeFrom_twice (array a b : List UInt8)
    (h : a.length + b.length ≤ array.length) :
    (writeFrom (writeFrom array 0 a) a.length b).take (a.length + b.length) = a ++ b := by
  have hfirst : (writeFrom array 0 a).take (0 + a.length) = array.take 0 ++ a :=
    take_writeFrom (by omega)
  rw [Nat.zero_add, List.take_zero, List.nil_append] at hfirst
  rw [take_writeFrom (by rw [length_writeFrom]; exact h), hfirst]

theorem xorLoop_eq {array k0 : List UInt8} (pad : UInt8) (hk : k0.length = 64)
    (h : 64 ≤ array.length) :
    xorLoop array k0 pad = k0.map (· ^^^ pad) ++ array.drop 64 := by
  have hrun (n : ℕ) (hn : n ≤ 64) :
      (List.range n).foldl (fun array i => array.set i (k0.getD i 0 ^^^ pad)) array =
        (k0.take n).map (· ^^^ pad) ++ array.drop n := by
    induction n with
    | zero => rfl
    | succ n ih =>
      have hfront : ((k0.take n).map (· ^^^ pad)).length = n := by
        rw [List.length_map, List.length_take_of_le (by omega)]
      have hbyte : k0.getD n 0 = k0[n] := List.getD_eq_getElem _ _ (by omega)
      rw [List.range_succ, List.foldl_append, List.foldl_cons, List.foldl_nil, ih (by omega),
        List.drop_eq_getElem_cons (by omega : n < array.length),
          List.set_append_right _ _ hfront.le,
        hfront, Nat.sub_self, List.set_cons_zero, hbyte,
        List.take_add_one, List.getElem?_eq_getElem (by omega), Option.toList_some, List.map_append,
        List.append_assoc]
      rfl
  have hall := hrun 64 le_rfl
  rwa [List.take_of_length_le hk.le] at hall

/-- The keyed hash that the source means. -/
def standardHmac (key text : List UInt8) : List UInt8 := hmac Crypto.sha256Hash 64 key text

variable (scratch : Scratch) (secret : List UInt8)

theorem keyBlock_eq (key : List UInt8) :
    (if key.length > 64 then writeFrom (List.replicate 64 0) 0 (Crypto.sha256Hash key)
      else writeFrom (List.replicate 64 0) 0 key) = keyBlock Crypto.sha256Hash 64 key := by
  have hwrite (bytes : List UInt8) (h : bytes.length ≤ 64) :
      writeFrom (List.replicate 64 0) 0 bytes =
        bytes ++ List.replicate (64 - bytes.length) 0 := by
    rw [writeFrom_eq _ (by rw [List.length_replicate, Nat.zero_add]; exact h), List.take_zero,
      List.nil_append, Nat.zero_add, List.drop_replicate]
  unfold keyBlock
  by_cases hlong : key.length > 64
  · rw [if_pos hlong, if_pos hlong]
    exact hwrite _ (by rw [length_sha256Hash]; decide)
  · rw [if_neg hlong, if_neg hlong]
    exact hwrite _ (by omega)

theorem length_keyBlock (key : List UInt8) :
    (keyBlock Crypto.sha256Hash 64 key).length = 64 := by
  unfold keyBlock
  have hlength := length_sha256Hash key
  by_cases hlong : key.length > 64
  · rw [if_pos hlong]
    simp [hlength]
  · rw [if_neg hlong]
    simp
    omega

/-- The cap on the data is the only difference. -/
theorem netHmacSha256_eq (key data : List UInt8) :
    netHmacSha256 scratch key data = standardHmac key (data.take 160) := by
  have hk := length_keyBlock key
  have hxor (pad : UInt8) :
      ((keyBlock Crypto.sha256Hash 64 key).map (· ^^^ pad)).length = 64 := by
    rw [List.length_map, hk]
  have hdata : data.take (if data.length > 160 then 160 else data.length) = data.take 160 := by
    split
    · rfl
    · rw [List.take_length, List.take_of_length_le (by omega)]
  have hlen : (if data.length > 160 then 160 else data.length) = (data.take 160).length := by
    rw [List.length_take]
    split
    · omega
    · omega
  have hcap : (data.take 160).length ≤ 160 := by
    rw [List.length_take]
    omega
  have hinner := scratch.inner_length
  have houter := scratch.outer_length
  unfold netHmacSha256 standardHmac hmac
  dsimp only
  rw [keyBlock_eq, hdata, hlen, xorLoop_eq _ hk (by omega), xorLoop_eq _ hk (by omega),
    take_writeFrom (by rw [List.length_append, hxor, List.length_drop]; omega),
    List.take_left' (hxor 0x36), writeFrom_eq _ (by
      rw [List.length_append, hxor, List.length_drop, length_sha256Hash]
      omega), List.take_left' (hxor 0x5C), length_sha256Hash, List.drop_of_length_le (by
      rw [List.length_append, hxor, List.length_drop]
      omega), List.append_nil]

/-- For all keys, and for data of at most 160 bytes. -/
theorem hmac_standard {data : List UInt8} (key : List UInt8) (h : data.length ≤ 160) :
    netHmacSha256 scratch key data = standardHmac key data := by
  rw [netHmacSha256_eq, List.take_of_length_le h]

/-! ## The stream -/

theorem length_standardHmac (key text : List UInt8) : (standardHmac key text).length = 32 :=
  length_sha256Hash _

/-- The same without the arrays. -/
theorem netHmacSha256_standard (key data : List UInt8) :
    Crypto.netHmacSha256 key data = standardHmac key (data.take 160) := rfl

-- The blocks below are never evaluated.
attribute [irreducible] standardHmac

/-- The stream of the secret and the seed. -/
def stream (labelSeed : List UInt8) (blocks : ℕ) : List UInt8 :=
  pHash (standardHmac secret) labelSeed blocks

theorem length_stream (labelSeed : List UInt8) (k : ℕ) :
    (stream secret labelSeed k).length = 32 * k :=
  length_pHash labelSeed (length_standardHmac secret) k

/-- Byte `i` of block `k`. -/
theorem stream_getD (labelSeed : List UInt8) {k n i : ℕ} (hk : k < n) (hi : i < 32) :
    (stream secret labelSeed n).getD (32 * k + i) 0 =
      (block (standardHmac secret) labelSeed k).getD i 0 := by
  have htake := take_pHash labelSeed (length_standardHmac secret) le_rfl
    (Nat.succ_le_of_lt hk)
  have hbyte : (stream secret labelSeed n).getD (32 * k + i) 0 =
      (stream secret labelSeed (k + 1)).getD (32 * k + i) 0 := by
    rw [List.getD_eq_getElem?_getD, List.getD_eq_getElem?_getD,
      ← List.getElem?_take_of_lt (show 32 * k + i < 32 * (k + 1) by omega),
      ← List.getElem?_take_of_lt (l := stream secret labelSeed (k + 1))
        (show 32 * k + i < 32 * (k + 1) by omega)]
    unfold stream
    rw [htake]
  have hlen := length_stream secret labelSeed k
  rw [hbyte]
  unfold stream at hlen ⊢
  rw [pHash_succ, List.getD_append_right _ _ _ _ (by omega), hlen, Nat.add_sub_cancel_left]

/-- The piece of block `k` that one round writes. -/
theorem copyTo_spec (labelSeed : List UInt8) {k n produced copy : ℕ} (out : ℕ → UInt8)
    (hproduced : produced = 32 * k) (hk : k < n) (hcopy : copy ≤ 32) (i : ℕ) :
    copyTo out produced ((block (standardHmac secret) labelSeed k).take copy) i =
      if produced ≤ i ∧ i < produced + copy then (stream secret labelSeed n).getD i 0
      else out i := by
  have hlength : ((block (standardHmac secret) labelSeed k).take copy).length = copy :=
    List.length_take_of_le (by rw [block, length_standardHmac]; exact hcopy)
  unfold copyTo
  rw [hlength]
  by_cases hi : produced ≤ i ∧ i < produced + copy
  · have hstream := stream_getD secret labelSeed hk (show i - produced < 32 by omega)
    rw [← hproduced, Nat.add_sub_cancel' hi.1] at hstream
    rw [if_pos hi, if_pos hi, hstream, List.getD_eq_getElem?_getD,
      List.getElem?_take_of_lt (by omega), ← List.getD_eq_getElem?_getD]
  · rw [if_neg hi, if_neg hi]

/-- A loop that has written the blocks before the `k`-th writes the rest of the output and nothing
behind it. -/
theorem prfLoop_spec {labelSeed array : List UInt8} {len : ℕ} (outLen : ℕ)
    (hlabelSeed : array.take len = labelSeed) (hlen : labelSeed.length = len) (hcap : len ≤ 128)
    (rounds : ℕ) : ∀ fuel k blockData produced out, rounds < fuel →
      outLen ≤ 32 * (k + rounds) → (produced = 32 * k ∨ outLen ≤ produced) →
      blockData.length = 160 →
      ∃ out', prfLoop scratch secret array len outLen fuel
          (chain (standardHmac secret) labelSeed (k + 1)) blockData produced out = some out' ∧
        (∀ i, produced ≤ i → i < outLen →
          out' i = (stream secret labelSeed (k + rounds)).getD i 0) ∧
        ∀ i, i < produced ∨ outLen ≤ i → out' i = out i := by
  induction rounds with
  | zero =>
    intro fuel k blockData produced out hfuel hrounds hproduced hdata
    obtain ⟨fuel, rfl⟩ := Nat.exists_eq_add_of_lt hfuel
    have hdone : ¬produced < outLen := by omega
    refine ⟨out, ?_, ?_, ?_⟩
    · rw [prfLoop, if_neg hdone]
    · intro i hi hi'
      omega
    · intro i hi
      rfl
  | succ rounds ih =>
    intro fuel k blockData produced out hfuel hrounds hproduced hdata
    obtain ⟨fuel, rfl⟩ := Nat.exists_eq_add_of_lt hfuel
    by_cases hmore : produced < outLen
    · have hstart : produced = 32 * k := by omega
      have ha : (chain (standardHmac secret) labelSeed (k + 1)).length = 32 :=
        length_standardHmac secret _
      have hinput := take_writeFrom_twice blockData
        (chain (standardHmac secret) labelSeed (k + 1)) labelSeed (by omega)
      rw [ha, hlen] at hinput
      have hblock : netHmacSha256 scratch secret
          (chain (standardHmac secret) labelSeed (k + 1) ++ labelSeed) =
          block (standardHmac secret) labelSeed k :=
        hmac_standard scratch secret (by rw [List.length_append]; omega)
      have hnext : netHmacSha256 scratch secret (chain (standardHmac secret) labelSeed (k + 1)) =
          chain (standardHmac secret) labelSeed (k + 1 + 1) :=
        hmac_standard scratch secret (by omega)
      generalize hcopy : (if outLen - produced > 32 then 32 else outLen - produced) = copy
      have hcopyLe : copy ≤ 32 ∧ copy ≤ outLen - produced ∧
          (produced + copy = 32 * (k + 1) ∨ outLen ≤ produced + copy) := by
        rw [← hcopy]
        split
        · omega
        · omega
      have hround := copyTo_spec secret labelSeed out hstart
        (show k < k + (rounds + 1) by omega) hcopyLe.1
      obtain ⟨out', hrun, hwrite, hkeep⟩ := ih (rounds + 1 + fuel) (k + 1)
        (writeFrom (writeFrom blockData 0 (chain (standardHmac secret) labelSeed (k + 1))) 32
          labelSeed) (produced + copy)
        (copyTo out produced ((block (standardHmac secret) labelSeed k).take copy)) (by omega)
        (by omega) hcopyLe.2.2 (by rw [length_writeFrom, length_writeFrom, hdata])
      refine ⟨out', ?_, ?_, ?_⟩
      · rw [prfLoop, if_pos hmore]
        dsimp only
        rw [hlabelSeed, hinput, hblock, hcopy, hnext]
        exact hrun
      · intro i hi hi'
        by_cases hlate : produced + copy ≤ i
        · rw [hwrite i hlate hi', show k + 1 + rounds = k + (rounds + 1) by omega]
        · rw [hkeep i (by omega), hround, if_pos ⟨hi, by omega⟩]
      · intro i hi
        rw [hkeep i (by omega), hround, if_neg (by omega)]
    · refine ⟨out, ?_, ?_, ?_⟩
      · rw [prfLoop, if_neg hmore]
      · intro i hi hi'
        omega
      · intro i hi
        rfl

theorem map_range_getD {s : List UInt8} {n : ℕ} (h : n ≤ s.length) :
    (List.range n).map (fun i => s.getD i 0) = s.take n := by
  apply List.ext_getElem
  · rw [List.length_map, List.length_range, List.length_take_of_le h]
  · intro i hi hi'
    have hlt : i < s.length := by
      rw [List.length_map, List.length_range] at hi
      omega
    rw [List.getElem_map, List.getElem_range, List.getElem_take, List.getD_eq_getElem _ _ hlt]

/-- The keyed hash is the standard's where the data is not cut; the function writes the first bytes
of the stream, and none behind them. -/
theorem prf_stream {label seed : List UInt8} (h : label.length + seed.length ≤ 128)
    (out : ℕ → UInt8) (outLen : ℕ) :
    (∀ key data, data.length ≤ 160 →
      netHmacSha256 scratch key data = standardHmac key data) ∧
    ∀ fuel > (outLen + 31) / 32, ∃ out',
      netTlsPrfSha256 scratch fuel secret label seed out outLen = some out' ∧
      (∀ blocks, outLen ≤ 32 * blocks → (List.range outLen).map out' =
        (pHash (standardHmac secret) (label ++ seed) blocks).take outLen) ∧
      ∀ i, outLen ≤ i → out' i = out i := by
  refine ⟨fun key data hdata => hmac_standard scratch key hdata, ?_⟩
  intro fuel hfuel
  have hseed := take_writeFrom_twice scratch.labelSeed label seed
    (by rw [scratch.labelSeed_length]; exact h)
  have hfirst : netHmacSha256 scratch secret (label ++ seed) =
      chain (standardHmac secret) (label ++ seed) (0 + 1) :=
    hmac_standard scratch secret (by rw [List.length_append]; omega)
  have hlength : (label ++ seed).length = label.length + seed.length := List.length_append
  obtain ⟨out', hrun, hwrite, hkeep⟩ := prfLoop_spec scratch secret outLen hseed hlength h
    ((outLen + 31) / 32) fuel 0 scratch.blockData 0 out (by omega) (by omega) (.inl rfl)
    scratch.blockData_length
  refine ⟨out', ?_, ?_, ?_⟩
  · unfold netTlsPrfSha256
    dsimp only
    rw [if_neg (by omega), hseed, hfirst]
    exact hrun
  · intro blocks hblocks
    have hround : outLen ≤ 32 * ((outLen + 31) / 32) := by omega
    have hfront := take_pHash (label ++ seed) (length_standardHmac secret) hround
      (show (outLen + 31) / 32 ≤ blocks by omega)
    have hlen := length_stream secret (label ++ seed) ((outLen + 31) / 32)
    rw [Nat.zero_add] at hwrite
    rw [hfront, ← map_range_getD (by unfold stream at hlen; omega)]
    apply List.map_congr_left
    intro i hi
    exact hwrite i (Nat.zero_le i) (List.mem_range.1 hi)
  · intro i hi
    exact hkeep i (.inr hi)

theorem prfBlocks_eq {labelSeed : List UInt8} (h : labelSeed.length ≤ 128) (rounds k : ℕ) :
    pHash (standardHmac secret) labelSeed k ++ prfBlocks secret labelSeed rounds
      (chain (standardHmac secret) labelSeed (k + 1)) =
        pHash (standardHmac secret) labelSeed (k + rounds) := by
  induction rounds generalizing k with
  | zero => exact List.append_nil _
  | succ rounds ih =>
    have ha : (chain (standardHmac secret) labelSeed (k + 1)).length = 32 :=
      length_standardHmac secret _
    have hblock : Crypto.netHmacSha256 secret
        (chain (standardHmac secret) labelSeed (k + 1) ++ labelSeed) =
        block (standardHmac secret) labelSeed k := by
      rw [netHmacSha256_standard, List.take_of_length_le (by rw [List.length_append]; omega)]
      rfl
    have hnext : Crypto.netHmacSha256 secret (chain (standardHmac secret) labelSeed (k + 1)) =
        chain (standardHmac secret) labelSeed (k + 1 + 1) := by
      rw [netHmacSha256_standard, List.take_of_length_le (by omega)]
      rfl
    rw [prfBlocks, hblock, hnext, ← List.append_assoc, ← pHash_succ, ih, Nat.add_assoc,
      Nat.add_comm 1 rounds]

/-- The function without the arrays gives the same bytes. -/
theorem prf_functional {label seed : List UInt8} (h : label.length + seed.length ≤ 128)
    (outLen : ℕ) : Crypto.netTlsPrfSha256 secret label seed outLen =
      some ((pHash (standardHmac secret) (label ++ seed) ((outLen + 31) / 32)).take outLen) := by
  have hlength : (label ++ seed).length ≤ 128 := by rwa [List.length_append]
  have hfirst : Crypto.netHmacSha256 secret (label ++ seed) =
      chain (standardHmac secret) (label ++ seed) (0 + 1) := by
    rw [netHmacSha256_standard, List.take_of_length_le (by omega)]
    rfl
  have hblocks := prfBlocks_eq secret hlength ((outLen + 31) / 32) 0
  rw [Nat.zero_add ((outLen + 31) / 32)] at hblocks
  unfold Crypto.netTlsPrfSha256
  dsimp only
  rw [if_neg (by omega), hfirst, ← hblocks]
  rfl

/-- Arrays of zeros. -/
def zeroScratch : Scratch where
  inner := List.replicate 224 0
  outer := List.replicate 96 0
  labelSeed := List.replicate 128 0
  blockData := List.replicate 160 0
  inner_length := List.length_replicate
  outer_length := List.length_replicate
  labelSeed_length := List.length_replicate
  blockData_length := List.length_replicate

/-- Forty bytes, the second block cut. -/
theorem prf_stream_forty :
    ∃ out', netTlsPrfSha256 zeroScratch 3 [1, 2, 3] [0x61] [4, 5] (fun _ => 0) 40 = some out' ∧
      (List.range 40).map out' =
        (pHash (standardHmac [1, 2, 3]) [0x61, 4, 5] 2).take 40 ∧ out' 40 = 0 := by
  obtain ⟨out', hrun, hbytes, hkeep⟩ := (prf_stream zeroScratch [1, 2, 3]
    (show [0x61].length + [(4 : UInt8), 5].length ≤ 128 by decide) (fun _ => 0) 40).2 3 (by decide)
  exact ⟨out', hrun, hbytes 2 (by decide), hkeep 40 le_rfl⟩

end PrfBuffers

end MinervaOS.Crypto
