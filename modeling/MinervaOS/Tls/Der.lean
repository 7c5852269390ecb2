import MinervaOS.Lib.Reader
import Mathlib.Algebra.GroupWithZero.Nat
import Mathlib.Data.List.Basic

/-!
# Reading DER

The parsers of the driver walk over memory with 32-bit positions, so everything they add up wraps as
it does there, and an early `return;` leaves what has been written so far. Positions count from the
start of the buffer that is parsed. A helper that the source calls with a pointer and a length says
so with `hand`.
-/

namespace MinervaOS.Tls

open Reader

abbrev DerM (σ : Type) := Reader σ

variable {σ : Type}

/-- `room && src[pos] == tag`: nothing is read where there is no room. -/
def tagAt (room : Bool) (pos : UInt32) (tag : UInt8) : DerM σ Bool :=
  if room then do return (← byte pos) == tag else return false

def get24be (src : UInt32) : DerM σ UInt32 := do
  let a ← byte src
  let b ← byte (src + 1)
  let c ← byte (src + 2)
  return (a.toUInt32 <<< 16) ||| (b.toUInt32 <<< 8) ||| c.toUInt32

/-- The length of the contents and that of the header; `none` where the source returns 0. -/
def netTlsParseDerLenAt (src available : UInt32) : DerM σ (Option (UInt32 × UInt32)) := do
  hand src available
  if available < 2 then return none
  let first ← byte (src + 1)
  if first &&& 0x80 == 0 then return some (first.toUInt32, 2)
  let count := (first &&& 0x7F).toUInt32
  if count == 0 || count > 3 || available < 2 + count then return none
  let value ← (List.range count.toNat).foldlM (fun (value : UInt32) i => do
    return (value <<< 8) ||| (← byte (src + 2 + UInt32.ofNat i)).toUInt32) (0 : UInt32)
  return some (value, 2 + count)

def netTlsParseDerSequenceLen (der available : UInt32) : DerM σ (Option (UInt32 × UInt32)) := do
  hand der available
  if !(← tagAt (available ≥ 2) der 0x30) then return none
  netTlsParseDerLenAt der available

/-! ## Object identifiers -/

def equalAt : UInt32 → List UInt8 → DerM σ Bool
  | _, [] => return true
  | pos, e :: es => do
    if (← byte pos) != e then return false
    equalAt (pos + 1) es

def netTlsOidEqual (oid oidLen : UInt32) (expected : List UInt8) : DerM σ Bool := do
  hand oid oidLen
  if oidLen.toNat ≠ expected.length then return false
  equalAt oid expected

/-- The place, counted from 1, of the identifier in a table; 0 where it is in none. -/
def knownOid (oid oidLen : UInt32) : UInt8 → List (List UInt8) → DerM σ UInt8
  | _, [] => return 0
  | i, e :: es => do
    if ← netTlsOidEqual oid oidLen e then return i
    knownOid oid oidLen (i + 1) es

/-- 1 and 2 are RSA with SHA-256 and SHA-384, 3 and 4 ECDSA with these. -/
def netTlsKnownSigAlg (oid oidLen : UInt32) : DerM σ UInt8 :=
  knownOid oid oidLen 1
    [[0x2A, 0x86, 0x48, 0x86, 0xF7, 0x0D, 0x01, 0x01, 0x0B],
      [0x2A, 0x86, 0x48, 0x86, 0xF7, 0x0D, 0x01, 0x01, 0x0C],
      [0x2A, 0x86, 0x48, 0xCE, 0x3D, 0x04, 0x03, 0x02],
      [0x2A, 0x86, 0x48, 0xCE, 0x3D, 0x04, 0x03, 0x03]]

/-- 1 is RSA, 2 an elliptic curve. -/
def netTlsKnownPubkeyAlg (oid oidLen : UInt32) : DerM σ UInt8 :=
  knownOid oid oidLen 1
    [[0x2A, 0x86, 0x48, 0x86, 0xF7, 0x0D, 0x01, 0x01, 0x01],
      [0x2A, 0x86, 0x48, 0xCE, 0x3D, 0x02, 0x01]]

/-- 1 is P-256, 2 and 3 are P-384 and P-521. -/
def netTlsKnownCurve (oid oidLen : UInt32) : DerM σ UInt8 :=
  knownOid oid oidLen 1
    [[0x2A, 0x86, 0x48, 0xCE, 0x3D, 0x03, 0x01, 0x07], [0x2B, 0x81, 0x04, 0x00, 0x22],
      [0x2B, 0x81, 0x04, 0x00, 0x23]]

/-! ## Dates -/

def netTlsDigit (value : UInt8) : Bool := 48 ≤ value && value ≤ 57

/-- The loops over the digits stop at the first byte that is none. -/
def digits : Nat → UInt32 → DerM σ (Option (List Nat))
  | 0, _ => return some []
  | n + 1, pos => do
    let value ← byte pos
    if !netTlsDigit value then return none
    return (← digits n (pos + 1)).map ((value.toNat - 48) :: ·)

/-- The value of decimal digits. -/
def number (ds : List Nat) : Nat := ds.foldl (fun n d => 10 * n + d) 0

/-- The date as `yyyymmdd`; 0 where the text is no date. -/
def netTlsParseAsn1Date (tag : UInt8) (src len : UInt32) : DerM σ Nat := do
  hand src len
  if tag != 0x17 && tag != 0x18 then return 0
  let yearLen := if tag == 0x17 then 2 else 4
  if len.toNat < yearLen + 4 then return 0
  let some ds ← digits (yearLen + 4) src | return 0
  let shown := number (ds.take yearLen)
  let year := if tag == 0x18 then shown else if shown ≥ 50 then 1900 + shown else 2000 + shown
  let month := number ((ds.drop yearLen).take 2)
  let day := number (ds.drop (yearLen + 2))
  if month < 1 || month > 12 || day < 1 || day > 31 then return 0
  return year * 10000 + month * 100 + day

/-! ## Names -/

def netX509NameSize : Nat := 32

def netTlsIsPrintableByte (value : UInt8) : Bool := 32 ≤ value && value ≤ 126

/-- The text that is stored: at most 31 bytes, `?` for what cannot be printed. Such a text has no
zero byte in it, so as a string it is all of these bytes. -/
def netTlsCopyNameString (src len : UInt32) : DerM σ (List UInt8) := do
  hand src len
  let limit := if len.toNat ≥ netX509NameSize then netX509NameSize - 1 else len.toNat
  return (← bytes limit src).map fun value => if netTlsIsPrintableByte value then value else 63

/-- The bytes of a string constant. -/
def ascii (s : String) : List UInt8 := s.toUTF8.toList

/-- The strings of C and their lengths are those of the bytes before the terminator. -/
def netTlsStrEqual (a b : List UInt8) : Bool := a == b

def netTlsDnsMatches (host dns : List UInt8) : Bool :=
  if netTlsStrEqual host dns then true
  else if dns.take 2 != [42, 46] then false
  else
    let suffix := dns.drop 1
    if host.length ≤ suffix.length then false
    else
      let offset := host.length - suffix.length
      if host.getD (offset - 1) 0 == 46 then false
      else if (host.take offset).contains 46 then false
      else netTlsStrEqual (host.drop offset) suffix

/-- `value_pos` is moved to the next string tag. -/
def skipToString (name nameLen : UInt32) : Nat → UInt32 → DerM σ UInt32
  | 0, valuePos => return valuePos
  | steps + 1, valuePos => do
    if valuePos ≥ nameLen then return valuePos
    let tag ← byte (name + valuePos)
    if tag == 0x0C || tag == 0x13 || tag == 0x16 then return valuePos
    skipToString name nameLen steps (valuePos + 1)

/-- The loop of `net_tls_parse_name_cn` from `pos` on; `none` is a name left empty. -/
def findCommonName (name nameLen : UInt32) : Nat → UInt32 → DerM σ (Option (List UInt8))
  | 0, _ => return none
  | steps + 1, pos => do
    if !(pos + 8 < nameLen) then return none
    if (← byte (name + pos)) != 0x06 then findCommonName name nameLen steps (pos + 1)
    else
      let some (oidLen, oidHeaderLen) ← netTlsParseDerLenAt (name + pos) (nameLen - pos)
        | findCommonName name nameLen steps (pos + 1)
      if oidLen != 3 || pos + oidHeaderLen + oidLen ≥ nameLen then
        findCommonName name nameLen steps (pos + 1)
      else if !(← netTlsOidEqual (name + pos + oidHeaderLen) oidLen [0x55, 0x04, 0x03]) then
        findCommonName name nameLen steps (pos + 1)
      else
        let valuePos ← skipToString name nameLen nameLen.toNat (pos + oidHeaderLen + oidLen)
        if valuePos + 2 ≥ nameLen then return none
        let some (valueLen, valueHeaderLen) ←
          netTlsParseDerLenAt (name + valuePos) (nameLen - valuePos) | return none
        if valuePos + valueHeaderLen + valueLen > nameLen then return none
        return some (← netTlsCopyNameString (name + valuePos + valueHeaderLen) valueLen)

/-- The common name that is stored; empty where none is found. -/
def netTlsParseNameCn (name nameLen : UInt32) : DerM σ (List UInt8) := do
  hand name nameLen
  return (← findCommonName name nameLen nameLen.toNat 0).getD []

/-! ## The integers of a signature -/

/-- The zeros in front of an integer are left out, but for its last byte. -/
def stripZeros : Nat → UInt32 → UInt32 → DerM σ (UInt32 × UInt32)
  | 0, r, rLen => return (r, rLen)
  | steps + 1, r, rLen => do
    if ← tagAt (rLen > 1) r 0 then stripZeros steps (r + 1) (rLen - 1) else return (r, rLen)

/-- An integer of a signature at `ipos`: its length without the zeros in front, its bytes where they
are at most 32 (the first four otherwise) and the position behind it. -/
def parseInteger (sig sigLen ipos : UInt32) : DerM σ (Option (UInt32 × List UInt8 × UInt32)) := do
  if ipos + 2 > sigLen then return none
  if (← byte (sig + ipos)) != 0x02 then return none
  let some (encodedLen, headerLen) ← netTlsParseDerLenAt (sig + ipos) (sigLen - ipos) | return none
  if encodedLen > 255 || ipos + headerLen + encodedLen > sigLen then return none
  let (r, rLen) ← stripZeros encodedLen.toNat (sig + ipos + headerLen) encodedLen
  let value ← bytes (if rLen ≤ 32 then rLen.toNat else 4) r
  return some (rLen, value, ipos + (headerLen + encodedLen))

/-- What the 32 bytes of an integer become: an integer that is too long leaves them. -/
def storeInteger (rLen : UInt32) (value old : List UInt8) : List UInt8 :=
  if rLen ≤ 32 then List.replicate (32 - rLen.toNat) 0 ++ value else old

/-- The two integers of a signature, each stored as soon as it is read. -/
def parseIntegers (sig sigLen : UInt32) (setR setS : UInt32 → List UInt8 → σ → σ) :
    DerM σ Unit := do
  let some (seqLen, seqHeaderLen) ← netTlsParseDerSequenceLen sig sigLen | return
  if seqHeaderLen + seqLen > sigLen then return
  let some (rLen, r, ipos) ← parseInteger sig sigLen seqHeaderLen | return
  write (setR rLen r)
  let some (sLen, s, _) ← parseInteger sig sigLen ipos | return
  write (setS sLen s)

end MinervaOS.Tls
