import Mathlib.Logic.Function.Basic

/-!
# SHA-256

The hash as the driver computes it: bytes go into a block of 64 one by one, a full block is
compressed, and the last block or two carry the padding and the length in bits.
-/

namespace MinervaOS.Crypto

def sha256K : List UInt32 :=
  [0x428A2F98, 0x71374491, 0xB5C0FBCF, 0xE9B5DBA5, 0x3956C25B, 0x59F111F1, 0x923F82A4, 0xAB1C5ED5,
    0xD807AA98, 0x12835B01, 0x243185BE, 0x550C7DC3, 0x72BE5D74, 0x80DEB1FE, 0x9BDC06A7, 0xC19BF174,
    0xE49B69C1, 0xEFBE4786, 0x0FC19DC6, 0x240CA1CC, 0x2DE92C6F, 0x4A7484AA, 0x5CB0A9DC, 0x76F988DA,
    0x983E5152, 0xA831C66D, 0xB00327C8, 0xBF597FC7, 0xC6E00BF3, 0xD5A79147, 0x06CA6351, 0x14292967,
    0x27B70A85, 0x2E1B2138, 0x4D2C6DFC, 0x53380D13, 0x650A7354, 0x766A0ABB, 0x81C2C92E, 0x92722C85,
    0xA2BFE8A1, 0xA81A664B, 0xC24B8B70, 0xC76C51A3, 0xD192E819, 0xD6990624, 0xF40E3585, 0x106AA070,
    0x19A4C116, 0x1E376C08, 0x2748774C, 0x34B0BCB5, 0x391C0CB3, 0x4ED8AA4A, 0x5B9CCA4F, 0x682E6FF3,
    0x748F82EE, 0x78A5636F, 0x84C87814, 0x8CC70208, 0x90BEFFFA, 0xA4506CEB, 0xBEF9A3F7, 0xC67178F2]

def rotr32 (value shift : UInt32) : UInt32 := (value >>> shift) ||| (value <<< (32 - shift))

def loadBe32 (src : List UInt8) (i : Nat) : UInt32 :=
  ((src.getD i 0).toUInt32 <<< 24) ||| ((src.getD (i + 1) 0).toUInt32 <<< 16) |||
    ((src.getD (i + 2) 0).toUInt32 <<< 8) ||| (src.getD (i + 3) 0).toUInt32

def storeBe32 (value : UInt32) : List UInt8 :=
  [(value >>> 24).toUInt8, (value >>> 16).toUInt8, (value >>> 8).toUInt8, value.toUInt8]

def storeBe64 (value : UInt64) : List UInt8 :=
  (List.range 8).map fun i => (value >>> UInt64.ofNat (8 * (7 - i))).toUInt8

structure Sha256Ctx where
  state : List UInt32
  bitLen : UInt64
  buffer : List UInt8

def sha256Init : Sha256Ctx :=
  ⟨[0x6A09E667, 0xBB67AE85, 0x3C6EF372, 0xA54FF53A, 0x510E527F, 0x9B05688C, 0x1F83D9AB, 0x5BE0CD19],
    0, []⟩

/-- `w[16]`, `w[17]`, … for the `todo` words that are left, after the words so far. -/
def schedule : Nat → List UInt32 → List UInt32
  | 0, w => w
  | todo + 1, w =>
    let i := w.length
    let w15 := w.getD (i - 15) 0
    let w2 := w.getD (i - 2) 0
    let s0 := rotr32 w15 7 ^^^ rotr32 w15 18 ^^^ (w15 >>> 3)
    let s1 := rotr32 w2 17 ^^^ rotr32 w2 19 ^^^ (w2 >>> 10)
    schedule todo (w ++ [w.getD (i - 16) 0 + s0 + w.getD (i - 7) 0 + s1])

/-- The working variables `a` to `h` of a round. -/
structure Round where
  a : UInt32
  b : UInt32
  c : UInt32
  d : UInt32
  e : UInt32
  f : UInt32
  g : UInt32
  h : UInt32

def Round.next (v : Round) (k w : UInt32) : Round :=
  let s1 := rotr32 v.e 6 ^^^ rotr32 v.e 11 ^^^ rotr32 v.e 25
  let ch := (v.e &&& v.f) ^^^ (~~~v.e &&& v.g)
  let temp1 := v.h + s1 + ch + k + w
  let s0 := rotr32 v.a 2 ^^^ rotr32 v.a 13 ^^^ rotr32 v.a 22
  let maj := (v.a &&& v.b) ^^^ (v.a &&& v.c) ^^^ (v.b &&& v.c)
  ⟨temp1 + (s0 + maj), v.a, v.b, v.c, v.d + temp1, v.e, v.f, v.g⟩

def sha256Transform (state : List UInt32) (block : List UInt8) : List UInt32 :=
  let w := schedule 48 ((List.range 16).map fun i => loadBe32 block (4 * i))
  let s := fun i => state.getD i 0
  let v := (sha256K.zip w).foldl (fun v kw => v.next kw.1 kw.2)
    (⟨s 0, s 1, s 2, s 3, s 4, s 5, s 6, s 7⟩ : Round)
  [s 0 + v.a, s 1 + v.b, s 2 + v.c, s 3 + v.d, s 4 + v.e, s 5 + v.f, s 6 + v.g, s 7 + v.h]

def sha256Update (ctx : Sha256Ctx) (data : List UInt8) : Sha256Ctx :=
  data.foldl (fun ctx byte =>
    let ctx := { ctx with buffer := ctx.buffer ++ [byte], bitLen := ctx.bitLen + 8 }
    if ctx.buffer.length = 64 then
      { ctx with state := sha256Transform ctx.state ctx.buffer, buffer := [] }
    else ctx) ctx

def sha256Final (ctx : Sha256Ctx) : List UInt8 :=
  let buffer := ctx.buffer ++ [0x80]
  let (state, buffer) :=
    if buffer.length > 56 then
      (sha256Transform ctx.state (buffer ++ List.replicate (64 - buffer.length) 0), [])
    else (ctx.state, buffer)
  let buffer := buffer ++ List.replicate (56 - buffer.length) 0 ++ storeBe64 ctx.bitLen
  (sha256Transform state buffer).flatMap storeBe32

def sha256Hash (data : List UInt8) : List UInt8 := sha256Final (sha256Update sha256Init data)

end MinervaOS.Crypto
