import MinervaOS.Crypto.Sha256

/-!
# The keyed hash and the pseudorandom function of TLS

`netTlsPrfSha256` is given the number of bytes to produce and appends a block of the keyed hash in
every round of its loop; the last block is cut.
-/

namespace MinervaOS.Crypto

/-- Only the first 160 bytes of the data are hashed. -/
def netHmacSha256 (key data : List UInt8) : List UInt8 :=
  let key := if key.length > 64 then sha256Hash key else key
  let k0 := key ++ List.replicate (64 - key.length) 0
  let inner := sha256Hash (k0.map (· ^^^ 0x36) ++ data.take 160)
  sha256Hash (k0.map (· ^^^ 0x5C) ++ inner)

/-- The loop of `netTlsPrfSha256`; a round is worth 32 bytes. -/
def prfBlocks (secret labelSeed : List UInt8) : Nat → List UInt8 → List UInt8
  | 0, _ => []
  | rounds + 1, a =>
    netHmacSha256 secret (a ++ labelSeed) ++
      prfBlocks secret labelSeed rounds (netHmacSha256 secret a)

/-- `none` where the label and the seed do not fit in their buffer and nothing is produced. -/
def netTlsPrfSha256 (secret label seed : List UInt8) (outLen : Nat) : Option (List UInt8) :=
  let labelSeed := label ++ seed
  if labelSeed.length > 128 then none
  else
    some ((prfBlocks secret labelSeed ((outLen + 31) / 32) (netHmacSha256 secret labelSeed)).take
      outLen)

end MinervaOS.Crypto
