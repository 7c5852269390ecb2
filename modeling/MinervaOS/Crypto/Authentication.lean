import MinervaOS.Crypto.GcmLoops
import MinervaOS.Crypto.Ghash
import MinervaOS.Lib.Frobenius

/-!
# What a tag binds

The residues that GHASH works with are a field. So two texts of authenticated data under one key and
nonce, with one cipher text, have the same tag only where they are the same, unless the hash key is
zero.
-/

namespace MinervaOS.Crypto

namespace Ghash

open GcmLoops (length_ghashBlock length_encryptBlock length_xorBytes)

theorem irreducible_low : Irreducible (BinaryField.modulus low) :=
  BinaryField.irreducible_of_squares low (e := 6) rfl (by decide +kernel)
    0x9e4af928ddbc838a41a8cafd2c95b018#128 (by decide +kernel)

instance : Fact (Irreducible (BinaryField.modulus low)) := ⟨irreducible_low⟩

/-- The key of the hash. -/
def hashKey (key : List UInt8) : List UInt8 := aes128EncryptBlock key (List.replicate 16 0)

theorem length_pad {block : List UInt8} (h : block.length ≤ 16) : (pad block).length = 16 := by
  rw [pad, List.length_append, List.length_replicate]
  omega

theorem pad_injective {a b : List UInt8} (h : a.length = b.length) (hpad : pad a = pad b) : a = b :=
  (List.append_inj hpad h).1

theorem length_foldl_ghash {h : List UInt8} (hh : h.length = 16) (blocks : List (List UInt8)) :
    ∀ {y : List UInt8}, y.length = 16 →
      (blocks.foldl (fun y block => ghashBlock y h block) y).length = 16 := by
  induction blocks with
  | nil => exact fun hy => hy
  | cons block blocks ih => exact fun _ => ih (length_ghashBlock hh _ _)

/-- The hash behind the authenticated data. -/
def hashBehind (h cipher y : List UInt8) : List UInt8 :=
  ghashBlock (((chunks cipher.length cipher).map pad).foldl (fun y block => ghashBlock y h block)
    (ghashBlock (List.replicate 16 0) h y)) h (lengthBlock cipher.length)

theorem gcmTag_hash (key nonce aad cipher : List UInt8) : gcmTag key nonce aad cipher =
    xorBytes (aes128EncryptBlock key (counterBlock nonce 1))
      (hashBehind (hashKey key) cipher (pad aad)) := by
  rw [hashBehind, List.foldl_map]
  rfl

theorem length_hashBehind {h : List UInt8} (hh : h.length = 16) (cipher y : List UInt8) :
    (hashBehind h cipher y).length = 16 := length_ghashBlock hh _ _

theorem length_lengthBlock (length : ℕ) : (lengthBlock length).length = 16 := by
  rw [lengthBlock, List.length_append, List.length_map, List.length_range]
  rfl

theorem length_chunk {cipher block : List UInt8}
    (h : block ∈ (chunks cipher.length cipher).map pad) : block.length = 16 := by
  obtain ⟨chunk, hchunk, rfl⟩ := List.mem_map.1 h
  rw [GcmLoops.chunks_eq _ _ (by omega)] at hchunk
  obtain ⟨k, -, rfl⟩ := List.mem_map.1 hchunk
  refine length_pad ?_
  rw [GcmLoops.length_chunkAt]
  omega

/-- Two hashes differ by what the first blocks differ by, times a power of the key. -/
theorem element_hashBehind {h : List UInt8} (hh : h.length = 16) (cipher : List UInt8)
    {y z : List UInt8} (hy : y.length = 16) (hz : z.length = 16) :
    element (hashBehind h cipher y) - element (hashBehind h cipher z) =
      (element y - element z) * element h ^ ((chunks cipher.length cipher).length + 2) := by
  have hzeros : (List.replicate 16 (0 : UInt8)).length = 16 := List.length_replicate
  have hblocks : ∀ block ∈ (chunks cipher.length cipher).map pad, block.length = 16 :=
    fun block hblock => length_chunk hblock
  unfold hashBehind
  rw [element_ghashBlock hh (length_foldl_ghash hh _ (length_ghashBlock hh _ _))
      (length_lengthBlock _),
    element_ghashBlock hh (length_foldl_ghash hh _ (length_ghashBlock hh _ _))
      (length_lengthBlock _),
    element_foldl hh _ (length_ghashBlock hh _ _) hblocks,
    element_foldl hh _ (length_ghashBlock hh _ _) hblocks,
    element_ghashBlock hh hzeros hy, element_ghashBlock hh hzeros hz, List.length_map, pow_add]
  ring

theorem xorBytes_left_inj {a : List UInt8} : ∀ {b c : List UInt8}, b.length = a.length →
    c.length = a.length → (xorBytes a b = xorBytes a c ↔ b = c) := by
  induction a with
  | nil =>
    intro b c hb hc
    rw [List.eq_nil_of_length_eq_zero hb, List.eq_nil_of_length_eq_zero hc]
    exact iff_of_true rfl rfl
  | cons x a ih =>
    intro b c hb hc
    obtain ⟨y, b, rfl⟩ := List.exists_cons_of_length_eq_add_one hb
    obtain ⟨z, c, rfl⟩ := List.exists_cons_of_length_eq_add_one hc
    have htail := ih (b := b) (c := c) (by simpa using hb) (by simpa using hc)
    show (x ^^^ y) :: xorBytes a b = (x ^^^ z) :: xorBytes a c ↔ y :: b = z :: c
    rw [List.cons.injEq, List.cons.injEq, htail, UInt8.xor_right_inj]

/-- With the same cipher text, another text of authenticated data has another tag. -/
theorem gcmTag_aad_iff {key nonce aad aad' : List UInt8} (hkey : key.length = 16)
    (haad : aad.length = 13) (haad' : aad'.length = 13) (cipher : List UInt8) :
    gcmTag key nonce aad cipher = gcmTag key nonce aad' cipher ↔
      aad = aad' ∨ hashKey key = List.replicate 16 0 := by
  have hh : (hashKey key).length = 16 := length_encryptBlock hkey _
  have hstart := length_encryptBlock hkey (counterBlock nonce 1)
  have hpad := length_pad (show aad.length ≤ 16 by omega)
  have hpad' := length_pad (show aad'.length ≤ 16 by omega)
  have hbehind := length_hashBehind hh cipher
  rw [gcmTag_hash, gcmTag_hash, xorBytes_left_inj (by rw [hbehind, hstart])
    (by rw [hbehind, hstart])]
  have hdiff := element_hashBehind hh cipher hpad hpad'
  have hequal : hashBehind (hashKey key) cipher (pad aad) =
      hashBehind (hashKey key) cipher (pad aad') ↔
        element (pad aad) = element (pad aad') ∨ element (hashKey key) = 0 := by
    constructor
    · intro h
      rw [h, sub_self] at hdiff
      exact (mul_eq_zero.1 hdiff.symm).imp sub_eq_zero.1 (pow_eq_zero_iff (by omega)).1
    · intro h
      refine element_inj (hbehind _) (hbehind _) (sub_eq_zero.1 (hdiff.trans (mul_eq_zero.2 ?_)))
      exact h.imp sub_eq_zero.2 fun hzero => by rw [hzero, zero_pow (by omega)]
  rw [hequal]
  refine or_congr ⟨fun h => ?_, fun h => by rw [h]⟩ ⟨fun h => ?_, fun h => by rw [h, element_zeros]⟩
  · exact pad_injective (by omega) (element_inj hpad hpad' h)
  · rw [← element_zeros] at h
    exact element_inj hh List.length_replicate h

/-- What is sealed along with some data is opened along with that data only, unless the hash key of
the key is zero. -/
theorem gcm_opened_iff {key aad aad' : List UInt8} (hkey : key.length = 16) (haad : aad.length = 13)
    (haad' : aad'.length = 13) (nonce plain : List UInt8) :
    aes128GcmDecrypt key nonce aad' (aes128GcmEncrypt key nonce aad plain).1
        (aes128GcmEncrypt key nonce aad plain).2 =
      if aad' = aad ∨ hashKey key = List.replicate 16 0 then some plain else none := by
  rw [aes128GcmEncrypt]
  dsimp only
  rw [aes128GcmDecrypt, GcmLoops.gcmCrypt_gcmCrypt hkey]
  exact if_congr (gcmTag_aad_iff hkey haad' haad _) rfl rfl

theorem gcm_opened_zeros :
    aes128GcmDecrypt (List.replicate 16 0) (List.replicate 12 0) (List.replicate 13 1)
        (aes128GcmEncrypt (List.replicate 16 0) (List.replicate 12 0) (List.replicate 13 0) [7]).1
        (aes128GcmEncrypt (List.replicate 16 0) (List.replicate 12 0) (List.replicate 13 0) [7]).2 =
      if (List.replicate 13 1 : List UInt8) = List.replicate 13 0 ∨
        hashKey (List.replicate 16 0) = List.replicate 16 0 then some [7] else none :=
  gcm_opened_iff rfl rfl rfl _ _

end Ghash

end MinervaOS.Crypto
