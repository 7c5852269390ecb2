import Mathlib.Algebra.GroupWithZero.Nat
import Mathlib.Logic.Function.Basic

/-!
# AES-128 in Galois counter mode

Blocks and keys are lists of 16 bytes. The tag is over 13 bytes of additional data, the cipher text
and the length block, as every record of the driver has it.
-/

namespace MinervaOS.Crypto

def aesSbox : List UInt8 :=
  [0x63, 0x7C, 0x77, 0x7B, 0xF2, 0x6B, 0x6F, 0xC5, 0x30, 0x01, 0x67, 0x2B, 0xFE, 0xD7, 0xAB, 0x76,
    0xCA, 0x82, 0xC9, 0x7D, 0xFA, 0x59, 0x47, 0xF0, 0xAD, 0xD4, 0xA2, 0xAF, 0x9C, 0xA4, 0x72, 0xC0,
    0xB7, 0xFD, 0x93, 0x26, 0x36, 0x3F, 0xF7, 0xCC, 0x34, 0xA5, 0xE5, 0xF1, 0x71, 0xD8, 0x31, 0x15,
    0x04, 0xC7, 0x23, 0xC3, 0x18, 0x96, 0x05, 0x9A, 0x07, 0x12, 0x80, 0xE2, 0xEB, 0x27, 0xB2, 0x75,
    0x09, 0x83, 0x2C, 0x1A, 0x1B, 0x6E, 0x5A, 0xA0, 0x52, 0x3B, 0xD6, 0xB3, 0x29, 0xE3, 0x2F, 0x84,
    0x53, 0xD1, 0x00, 0xED, 0x20, 0xFC, 0xB1, 0x5B, 0x6A, 0xCB, 0xBE, 0x39, 0x4A, 0x4C, 0x58, 0xCF,
    0xD0, 0xEF, 0xAA, 0xFB, 0x43, 0x4D, 0x33, 0x85, 0x45, 0xF9, 0x02, 0x7F, 0x50, 0x3C, 0x9F, 0xA8,
    0x51, 0xA3, 0x40, 0x8F, 0x92, 0x9D, 0x38, 0xF5, 0xBC, 0xB6, 0xDA, 0x21, 0x10, 0xFF, 0xF3, 0xD2,
    0xCD, 0x0C, 0x13, 0xEC, 0x5F, 0x97, 0x44, 0x17, 0xC4, 0xA7, 0x7E, 0x3D, 0x64, 0x5D, 0x19, 0x73,
    0x60, 0x81, 0x4F, 0xDC, 0x22, 0x2A, 0x90, 0x88, 0x46, 0xEE, 0xB8, 0x14, 0xDE, 0x5E, 0x0B, 0xDB,
    0xE0, 0x32, 0x3A, 0x0A, 0x49, 0x06, 0x24, 0x5C, 0xC2, 0xD3, 0xAC, 0x62, 0x91, 0x95, 0xE4, 0x79,
    0xE7, 0xC8, 0x37, 0x6D, 0x8D, 0xD5, 0x4E, 0xA9, 0x6C, 0x56, 0xF4, 0xEA, 0x65, 0x7A, 0xAE, 0x08,
    0xBA, 0x78, 0x25, 0x2E, 0x1C, 0xA6, 0xB4, 0xC6, 0xE8, 0xDD, 0x74, 0x1F, 0x4B, 0xBD, 0x8B, 0x8A,
    0x70, 0x3E, 0xB5, 0x66, 0x48, 0x03, 0xF6, 0x0E, 0x61, 0x35, 0x57, 0xB9, 0x86, 0xC1, 0x1D, 0x9E,
    0xE1, 0xF8, 0x98, 0x11, 0x69, 0xD9, 0x8E, 0x94, 0x9B, 0x1E, 0x87, 0xE9, 0xCE, 0x55, 0x28, 0xDF,
    0x8C, 0xA1, 0x89, 0x0D, 0xBF, 0xE6, 0x42, 0x68, 0x41, 0x99, 0x2D, 0x0F, 0xB0, 0x54, 0xBB, 0x16]

def subByte (x : UInt8) : UInt8 := aesSbox.getD x.toNat 0

def aesXtime (x : UInt8) : UInt8 := (x <<< 1) ^^^ (if x &&& 0x80 != 0 then 0x1B else 0)

/-- One pass of the loop of `aesKeyExpand`: four bytes more. -/
def expandWord (roundKeys : List UInt8) : List UInt8 :=
  let bytes := roundKeys.length
  let last := fun i => roundKeys.getD (bytes - 4 + i) 0
  let rcon : List UInt8 := [0x01, 0x02, 0x04, 0x08, 0x10, 0x20, 0x40, 0x80, 0x1B, 0x36]
  let tmp :=
    if bytes % 16 = 0 then
      [subByte (last 1) ^^^ rcon.getD (bytes / 16 - 1) 0, subByte (last 2), subByte (last 3),
        subByte (last 0)]
    else [last 0, last 1, last 2, last 3]
  roundKeys ++ (List.range 4).map fun i => roundKeys.getD (bytes - 16 + i) 0 ^^^ tmp.getD i 0

def aesKeyExpand (key : List UInt8) : List UInt8 :=
  (List.range 40).foldl (fun roundKeys _ => expandWord roundKeys) key

def xorBytes (a b : List UInt8) : List UInt8 := List.zipWith (· ^^^ ·) a b

def aesAddRoundKey (state roundKey : List UInt8) : List UInt8 := xorBytes state roundKey

def aesSubBytes (state : List UInt8) : List UInt8 := state.map subByte

/-- Row `i % 4` of the column-major state moves by `i % 4` columns. -/
def aesShiftRows (s : List UInt8) : List UInt8 :=
  (List.range 16).map fun i => s.getD ((i + 4 * (i % 4)) % 16) 0

def mixColumn (a0 a1 a2 a3 : UInt8) : List UInt8 :=
  let t := a0 ^^^ a1 ^^^ a2 ^^^ a3
  [a0 ^^^ (t ^^^ aesXtime (a0 ^^^ a1)), a1 ^^^ (t ^^^ aesXtime (a1 ^^^ a2)),
    a2 ^^^ (t ^^^ aesXtime (a2 ^^^ a3)), a3 ^^^ (t ^^^ aesXtime (a3 ^^^ a0))]

def aesMixColumns (s : List UInt8) : List UInt8 :=
  (List.range 4).flatMap fun c =>
    mixColumn (s.getD (4 * c) 0) (s.getD (4 * c + 1) 0) (s.getD (4 * c + 2) 0)
      (s.getD (4 * c + 3) 0)

def aes128EncryptBlock (key input : List UInt8) : List UInt8 :=
  let roundKeys := aesKeyExpand key
  let state := aesAddRoundKey input roundKeys
  let state := (List.range 9).foldl (fun state round =>
    aesAddRoundKey (aesMixColumns (aesShiftRows (aesSubBytes state)))
      (roundKeys.drop (16 * (round + 1)))) state
  aesAddRoundKey (aesShiftRows (aesSubBytes state)) (roundKeys.drop 160)

/-! ## Galois counter mode -/

/-- The carry of each byte is the lowest bit of the one before. -/
def gcmShiftRight (v : List UInt8) : List UInt8 :=
  List.zipWith (fun previous byte : UInt8 =>
    (byte >>> 1) ||| (if previous &&& 1 != 0 then 0x80 else 0)) (0 :: v) v

/-- The bits of `x`, each byte's top bit first, select the shifts of `v` that are added up. -/
def gcmMulBits (x : List UInt8) : List Nat → List UInt8 → List UInt8 → List UInt8
  | [], z, _ => z
  | i :: is, z, v =>
    let z := if (x.getD (i / 8) 0).toNat.testBit (7 - i % 8) then xorBytes z v else z
    let shifted := gcmShiftRight v
    gcmMulBits x is z (if v.getD 15 0 &&& 1 != 0 then shifted.modifyHead (· ^^^ 0xE1) else shifted)

def gcmMul (x h : List UInt8) : List UInt8 :=
  gcmMulBits x (List.range 128) (List.replicate 16 0) h

def ghashBlock (y h block : List UInt8) : List UInt8 := gcmMul (xorBytes y block) h

/-- The bytes of a buffer in chunks of 16, the last one filled up with zeros by `pad`. -/
def chunks (fuel : Nat) (bytes : List UInt8) : List (List UInt8) :=
  match fuel, bytes with
  | 0, _ => []
  | _, [] => []
  | fuel + 1, bytes => bytes.take 16 :: chunks fuel (bytes.drop 16)

def pad (block : List UInt8) : List UInt8 := block ++ List.replicate (16 - block.length) 0

/-- `nonce` and the counter in four bytes; counting up wraps in these. -/
def counterBlock (nonce : List UInt8) (counter : Nat) : List UInt8 :=
  nonce ++ (List.range 4).map fun i => UInt8.ofNat (counter / 256 ^ (3 - i))

/-- The last block of the hash: the lengths in bits. -/
def lengthBlock (length : Nat) : List UInt8 :=
  [0, 0, 0, 0, 0, 0, 0, 13 * 8, 0, 0, 0, 0] ++
    (List.range 4).map fun i => UInt8.ofNat (8 * length / 256 ^ (3 - i))

/-- The key stream is added to the bytes, a block of it to each chunk. -/
def gcmCrypt (key nonce bytes : List UInt8) : List UInt8 :=
  (chunks bytes.length bytes).zipIdx.flatMap fun (chunk, i) =>
    xorBytes chunk (aes128EncryptBlock key (counterBlock nonce (2 + i)))

def gcmTag (key nonce aad cipher : List UInt8) : List UInt8 :=
  let h := aes128EncryptBlock key (List.replicate 16 0)
  let y := ghashBlock (List.replicate 16 0) h (pad aad)
  let y := (chunks cipher.length cipher).foldl (fun y chunk => ghashBlock y h (pad chunk)) y
  let y := ghashBlock y h (lengthBlock cipher.length)
  xorBytes (aes128EncryptBlock key (counterBlock nonce 1)) y

def aes128GcmEncrypt (key nonce aad plain : List UInt8) : List UInt8 × List UInt8 :=
  let cipher := gcmCrypt key nonce plain
  (cipher, gcmTag key nonce aad cipher)

/-- `none` where the tag is not the one computed and nothing is written. -/
def aes128GcmDecrypt (key nonce aad cipher tag : List UInt8) : Option (List UInt8) :=
  if gcmTag key nonce aad cipher = tag then some (gcmCrypt key nonce cipher) else none

end MinervaOS.Crypto
