import MinervaOS.Crypto.P256
import MinervaOS.Crypto.Sha256
import MinervaOS.Tls.Der

/-!
# Parsing the certificates

`netTlsParseBufferedCertificate` is run over the received part of a Certificate message whenever
more of it has come, on the fields that the runs before have left. A helper that returns `none`
stands for a stretch of a parser that returns from the whole of it.
-/

namespace MinervaOS.Tls

open Crypto Reader

/-- The fields of `g_net` that the parsers of a certificate write. -/
structure X509 where
  certificateListLen : UInt32
  firstCertificateLen : UInt32
  secondCertificateLen : UInt32
  firstCertificateDer : Bool
  firstCertificateDerHeaderLen : UInt32
  firstCertificateDerLen : UInt32
  secondCertificateDer : Bool
  chainLink : Bool
  tbs : Bool
  tbsLen : UInt32
  serialLen : UInt32
  sigOidLen : UInt32
  sigAlg : UInt8
  outerSigOidLen : UInt32
  outerSigAlg : UInt8
  signatureLen : UInt32
  signatureUnusedBits : UInt8
  signatureRLen : UInt32
  signatureSLen : UInt32
  signatureR : List UInt8
  signatureS : List UInt8
  tbsHashAlg : UInt8
  tbsHash : List UInt8
  ecdsaScalarInputs : Bool
  ecdsaPubkeyValid : Bool
  ecdsaPointDone : Bool
  ecdsaMatch : Bool
  validity : Bool
  notBeforeTag : UInt8
  notBeforeLen : UInt32
  notAfterTag : UInt8
  notAfterLen : UInt32
  notBeforeDate : Nat
  notAfterDate : Nat
  pubkeyOidLen : UInt32
  pubkeyAlg : UInt8
  pubkeyCurve : UInt8
  pubkeyLen : UInt32
  pubkeyX : List UInt8
  pubkeyY : List UInt8
  issuerCn : List UInt8
  subjectCn : List UInt8
  chainSubjectCn : List UInt8
  chainPubkeyAlg : UInt8
  chainCurve : UInt8
  chainPubkeyLen : UInt32
  chainPubkeyX : List UInt8
  chainPubkeyY : List UInt8
  verifyInputs : Bool
  knownIssuer : Bool
  sanDns : List UInt8
  hostMatch : Bool
  basicConstraints : Bool
  isCa : Bool
  keyUsage : Bool
  keyUsageBits : UInt8
  eku : Bool
  ekuBits : UInt8
  deriving DecidableEq

abbrev X509M := DerM X509

def zeros32 : List UInt8 := List.replicate 32 0

/-- What `net_tls_probe_url` sets the fields to. -/
def X509.reset : X509 where
  certificateListLen := 0
  firstCertificateLen := 0
  secondCertificateLen := 0
  firstCertificateDer := false
  firstCertificateDerHeaderLen := 0
  firstCertificateDerLen := 0
  secondCertificateDer := false
  chainLink := false
  tbs := false
  tbsLen := 0
  serialLen := 0
  sigOidLen := 0
  sigAlg := 0
  outerSigOidLen := 0
  outerSigAlg := 0
  signatureLen := 0
  signatureUnusedBits := 0
  signatureRLen := 0
  signatureSLen := 0
  signatureR := zeros32
  signatureS := zeros32
  tbsHashAlg := 0
  tbsHash := zeros32
  ecdsaScalarInputs := false
  ecdsaPubkeyValid := false
  ecdsaPointDone := false
  ecdsaMatch := false
  validity := false
  notBeforeTag := 0
  notBeforeLen := 0
  notAfterTag := 0
  notAfterLen := 0
  notBeforeDate := 0
  notAfterDate := 0
  pubkeyOidLen := 0
  pubkeyAlg := 0
  pubkeyCurve := 0
  pubkeyLen := 0
  pubkeyX := zeros32
  pubkeyY := zeros32
  issuerCn := []
  subjectCn := []
  chainSubjectCn := []
  chainPubkeyAlg := 0
  chainCurve := 0
  chainPubkeyLen := 0
  chainPubkeyX := zeros32
  chainPubkeyY := zeros32
  verifyInputs := false
  knownIssuer := false
  sanDns := []
  hostMatch := false
  basicConstraints := false
  isCa := false
  keyUsage := false
  keyUsageBits := 0
  eku := false
  ekuBits := 0

/-- The common names that are accepted. The last one is longer than any that is stored. -/
def netTlsKnownIssuerCn (cn : List UInt8) : Bool :=
  ["Cloudflare TLS Issuing ECC CA 1", "E7", "E8", "R12", "R13",
    "DigiCert Global G2 TLS RSA SHA256 2020 CA1"].any fun name =>
      netTlsStrEqual cn (ascii name)

/-! ## Extensions -/

/-- The loop that looks for the identifier `06 03 55 1D id`; what it finds is the position behind
it. -/
def findExtension (id : UInt8) (src len : UInt32) : Nat → UInt32 → X509M (Option UInt32)
  | 0, _ => return none
  | steps + 1, pos => do
    if !(pos + 6 < len) then return none
    let oid ← byte (src + pos)
    if oid == 0x06 && !(pos + 5 > len) then
      if ← equalAt (src + (pos + 1)) [3, 0x55, 0x1D, id] then return some (pos + 5)
    findExtension id src len steps (pos + 1)

def skipToTag (tag : UInt8) (src len : UInt32) : Nat → UInt32 → X509M UInt32
  | 0, cursor => return cursor
  | steps + 1, cursor => do
    if !(cursor + 2 < len) then return cursor
    if (← byte (src + cursor)) == tag then return cursor
    skipToTag tag src len steps (cursor + 1)

/-- The first element with the tag behind the identifier: position and length of its contents. -/
def extensionContents (id tag : UInt8) (src len : UInt32) : X509M (Option (UInt32 × UInt32)) := do
  if len == 0 then return none
  let some cursor ← findExtension id src len len.toNat 0 | return none
  let cursor ← skipToTag tag src len len.toNat cursor
  if cursor + 2 ≥ len then return none
  let some (contentLen, headerLen) ← netTlsParseDerLenAt (src + cursor) (len - cursor)
    | return none
  if cursor + headerLen + contentLen > len then return none
  return some (cursor + headerLen, contentLen)

/-- The general names up to `end'`: the first host name is stored and compared. -/
def findDnsName (host : List UInt8) (src end' : UInt32) : Nat → UInt32 → X509M Unit
  | 0, _ => return
  | steps + 1, cursor => do
    if !(cursor + 2 ≤ end') then return
    let tag ← byte (src + cursor)
    let nameLen ← byte (src + (cursor + 1))
    if nameLen &&& 0x80 != 0 then return
    let cursor := cursor + 2
    if cursor + nameLen.toUInt32 > end' then return
    if tag == 0x82 then
      let dns ← netTlsCopyNameString (src + cursor) nameLen.toUInt32
      write fun x => { x with sanDns := dns, hostMatch := netTlsDnsMatches host dns }
    else findDnsName host src end' steps (cursor + nameLen.toUInt32)

def netTlsParseSanDns (host : List UInt8) (src len : UInt32) : X509M Unit := do
  hand src len
  let some (cursor, seqLen) ← extensionContents 0x11 0x30 src len | return
  findDnsName host src (cursor + seqLen) seqLen.toNat cursor

def netTlsParseBasicConstraints (src len : UInt32) : X509M Unit := do
  hand src len
  let some (inner, innerLen) ← extensionContents 0x13 0x04 src len | return
  let some (seqLen, seqHeaderLen) ← netTlsParseDerSequenceLen (src + inner) innerLen | return
  if seqHeaderLen + seqLen > innerLen then return
  let bpos := inner + seqHeaderLen
  let bend := inner + seqHeaderLen + seqLen
  let boolean ← tagAt (bpos + 3 ≤ bend) (src + bpos) 0x01
  let boolean ← tagAt boolean (src + (bpos + 1)) 0x01
  let isCa ← if boolean then do pure ((← byte (src + (bpos + 2))) != 0) else pure false
  write fun x => { x with basicConstraints := true, isCa }

def netTlsParseKeyUsage (src len : UInt32) : X509M Unit := do
  hand src len
  let some (inner, octetLen) ← extensionContents 0x0F 0x04 src len | return
  if !(← tagAt (octetLen ≥ 4) (src + inner) 0x03) then return
  let some (bitLen, bitHeaderLen) ← netTlsParseDerLenAt (src + inner) octetLen | return
  if bitLen < 2 || bitHeaderLen + bitLen > octetLen then return
  let usage ← byte (src + (inner + bitHeaderLen + 1))
  let bit := fun (mask bit : UInt8) => if usage &&& mask != 0 then bit else 0
  write fun x =>
    { x with keyUsage := true, keyUsageBits := bit 0x80 1 ||| bit 0x20 2 ||| bit 0x04 4 }

/-- The identifiers up to `end'`: server and client authentication are bits of `eku_bits`. -/
def keyPurposes (src end' : UInt32) : Nat → UInt32 → X509M Unit
  | 0, _ => return
  | steps + 1, oidPos => do
    if !(oidPos + 2 ≤ end') then return
    if (← byte (src + oidPos)) != 0x06 then return
    let some (oidLen, oidHeaderLen) ← netTlsParseDerLenAt (src + oidPos) (end' - oidPos) | return
    if oidLen > 32 || oidPos + oidHeaderLen + oidLen > end' then return
    let oid := src + oidPos + oidHeaderLen
    if ← netTlsOidEqual oid oidLen [0x2B, 0x06, 0x01, 0x05, 0x05, 0x07, 0x03, 0x01] then
      write fun x => { x with ekuBits := x.ekuBits ||| 1 }
    if ← netTlsOidEqual oid oidLen [0x2B, 0x06, 0x01, 0x05, 0x05, 0x07, 0x03, 0x02] then
      write fun x => { x with ekuBits := x.ekuBits ||| 2 }
    keyPurposes src end' steps (oidPos + (oidHeaderLen + oidLen))

def netTlsParseExtendedKeyUsage (src len : UInt32) : X509M Unit := do
  hand src len
  let some (inner, octetLen) ← extensionContents 0x25 0x04 src len | return
  let some (seqLen, seqHeaderLen) ← netTlsParseDerSequenceLen (src + inner) octetLen | return
  if seqHeaderLen + seqLen > octetLen then return
  write fun x => { x with eku := true, ekuBits := 0 }
  let oidPos := inner + seqHeaderLen
  keyPurposes src (oidPos + seqLen) seqLen.toNat oidPos

/-! ## The signature -/

def netTlsParseCertificateSignature (der available pos : UInt32) : X509M Unit := do
  hand der available
  if !(← tagAt (!(available ≤ pos + 4)) (der + pos) 0x30) then return
  let some (algLen, algHeaderLen) ← netTlsParseDerSequenceLen (der + pos) (available - pos)
    | return
  let oidPos := pos + algHeaderLen
  if ← tagAt (available > oidPos + 2) (der + oidPos) 0x06 then
    match ← netTlsParseDerLenAt (der + oidPos) (available - oidPos) with
    | some (oidLen, oidHeaderLen) =>
      if oidLen ≤ 32 && available ≥ oidPos + oidHeaderLen + oidLen then
        let alg ← netTlsKnownSigAlg (der + oidPos + oidHeaderLen) oidLen
        write fun x => { x with outerSigOidLen := oidLen, outerSigAlg := alg }
    | none => pure ()
  let pos := pos + (algHeaderLen + algLen)
  if !(← tagAt (!(available ≤ pos + 2)) (der + pos) 0x03) then return
  let some (bitLen, bitHeaderLen) ← netTlsParseDerLenAt (der + pos) (available - pos) | return
  if bitLen < 1 || bitLen > 0xFFFF || available < pos + bitHeaderLen + bitLen then return
  let unusedBits ← byte (der + (pos + bitHeaderLen))
  write fun x => { x with signatureUnusedBits := unusedBits, signatureLen := bitLen - 1 }
  if (← fields).outerSigAlg == 3 && unusedBits == 0 then
    parseIntegers (der + pos + bitHeaderLen + 1) (bitLen - 1)
      (fun rLen r x =>
        { x with signatureRLen := rLen, signatureR := storeInteger rLen r x.signatureR })
      (fun sLen s x =>
        { x with signatureSLen := sLen, signatureS := storeInteger sLen s x.signatureS })

/-! ## The first certificate -/

section

variable (der available : UInt32)

/-- A part of a certificate that is stepped over where it is there: `none` where its length cannot
be read. -/
def skipPart (tag : UInt8) (room pos : UInt32) : X509M (Option UInt32) := do
  if ← tagAt (available > pos + room) (der + pos) tag then
    let some (len, headerLen) ← netTlsParseDerLenAt (der + pos) (available - pos) | return none
    return some (pos + (headerLen + len))
  else return some pos

def parseSerial (pos : UInt32) : X509M UInt32 := do
  if ← tagAt (available > pos + 2) (der + pos) 0x02 then
    match ← netTlsParseDerLenAt (der + pos) (available - pos) with
    | some (serialLen, serialHeaderLen) =>
      if serialLen ≤ 255 then
        write fun x => { x with serialLen }
        return pos + (serialHeaderLen + serialLen)
      else return pos
    | none => return pos
  else return pos

def parseSigAlg (pos : UInt32) : X509M (Option UInt32) := do
  if ← tagAt (available > pos + 4) (der + pos) 0x30 then
    let some (algLen, algHeaderLen) ← netTlsParseDerSequenceLen (der + pos) (available - pos)
      | return none
    let oidPos := pos + algHeaderLen
    if ← tagAt (available > oidPos + 2) (der + oidPos) 0x06 then
      match ← netTlsParseDerLenAt (der + oidPos) (available - oidPos) with
      | some (oidLen, oidHeaderLen) =>
        if oidLen ≤ 32 && available ≥ oidPos + oidHeaderLen + oidLen then
          let alg ← netTlsKnownSigAlg (der + oidPos + oidHeaderLen) oidLen
          write fun x => { x with sigOidLen := oidLen, sigAlg := alg }
      | none => pure ()
    if available < pos + algHeaderLen + algLen then return none
    return some (pos + (algHeaderLen + algLen))
  else return some pos

/-- A name that is stored: the issuer and the subjects. -/
def parseName (store : List UInt8 → X509 → X509) (pos : UInt32) : X509M (Option UInt32) := do
  if ← tagAt (available > pos + 2) (der + pos) 0x30 then
    let some (len, headerLen) ← netTlsParseDerSequenceLen (der + pos) (available - pos)
      | return none
    if available < pos + headerLen + len then return none
    let cn ← netTlsParseNameCn (der + pos + headerLen) len
    write (store cn)
    return some (pos + (headerLen + len))
  else return some pos

/-- One of the two dates: its tag, its length and the position behind it. -/
def parseTime (setDate : Nat → X509 → X509) (vend vpos : UInt32) :
    X509M (Option (UInt8 × UInt32 × UInt32)) := do
  if vpos + 2 > vend then return none
  let tag ← byte (der + vpos)
  if tag != 0x17 && tag != 0x18 then return none
  let some (timeLen, timeHeaderLen) ← netTlsParseDerLenAt (der + vpos) (vend - vpos) | return none
  if timeLen > 255 || vpos + timeHeaderLen + timeLen > vend then return none
  let date ← netTlsParseAsn1Date tag (der + vpos + timeHeaderLen) timeLen
  write (setDate date)
  return some (tag, timeLen, vpos + (timeHeaderLen + timeLen))

def parseValidity (pos : UInt32) : X509M (Option UInt32) := do
  if ← tagAt (available > pos + 4) (der + pos) 0x30 then
    let some (validityLen, validityHeaderLen) ←
      netTlsParseDerSequenceLen (der + pos) (available - pos) | return none
    let vpos := pos + validityHeaderLen
    let vend := vpos + validityLen
    if vend > available then return none
    let some (tag0, len0, vpos) ← parseTime der (fun d x => { x with notBeforeDate := d }) vend vpos
      | return none
    let some (tag1, len1, _) ← parseTime der (fun d x => { x with notAfterDate := d }) vend vpos
      | return none
    write fun x =>
      { x with
        validity := true
        notBeforeTag := tag0
        notBeforeLen := len0
        notAfterTag := tag1
        notAfterLen := len1 }
    return some vend
  else return some pos

/-- The curve that is named behind the algorithm. -/
def parseCurve (setCurve : UInt8 → X509 → X509) (algEnd curvePos : UInt32) : X509M Unit := do
  if ← tagAt (algEnd > curvePos + 2) (der + curvePos) 0x06 then
    match ← netTlsParseDerLenAt (der + curvePos) (algEnd - curvePos) with
    | some (curveLen, curveHeaderLen) =>
      if curveLen ≤ 32 && algEnd ≥ curvePos + curveHeaderLen + curveLen then
        let curve ← netTlsKnownCurve (der + curvePos + curveHeaderLen) curveLen
        write (setCurve curve)
    | none => pure ()

def parsePoint (spkiEnd bitPos : UInt32) : X509M Unit := do
  if ← tagAt (spkiEnd > bitPos + 2) (der + bitPos) 0x03 then
    match ← netTlsParseDerLenAt (der + bitPos) (spkiEnd - bitPos) with
    | some (bitLen, bitHeaderLen) =>
      if bitLen ≥ 2 && spkiEnd ≥ bitPos + bitHeaderLen + bitLen then
        let point := der + bitPos + bitHeaderLen + 1
        let pointLen := bitLen - 1
        if pointLen ≤ 0xFFFF then write fun x => { x with pubkeyLen := pointLen }
        let x ← fields
        if ← tagAt (x.pubkeyAlg == 2 && x.pubkeyCurve == 1 && pointLen == 65) point 0x04 then
          let pubkeyX ← bytes 32 (point + 1)
          let pubkeyY ← bytes 32 (point + 33)
          write fun x => { x with pubkeyX, pubkeyY }
    | none => pure ()

def parseSpki (pos : UInt32) : X509M (Option UInt32) := do
  if ← tagAt (available > pos + 4) (der + pos) 0x30 then
    let some (spkiLen, spkiHeaderLen) ← netTlsParseDerSequenceLen (der + pos) (available - pos)
      | return none
    let spkiEnd := pos + spkiHeaderLen + spkiLen
    let algPos := pos + spkiHeaderLen
    if spkiEnd > available || spkiEnd ≤ algPos + 4 then return none
    if (← byte (der + algPos)) == 0x30 then
      let some (algLen, algHeaderLen) ← netTlsParseDerSequenceLen (der + algPos) (spkiEnd - algPos)
        | return none
      let algEnd := algPos + algHeaderLen + algLen
      let oidPos := algPos + algHeaderLen
      if ← tagAt (algEnd ≤ spkiEnd && algEnd > oidPos + 2) (der + oidPos) 0x06 then
        -- Where the length cannot be read, both lengths stay 0.
        let read ← netTlsParseDerLenAt (der + oidPos) (algEnd - oidPos)
        let (oidLen, oidHeaderLen) := read.getD (0, 0)
        if read.isSome && oidLen ≤ 32 && algEnd ≥ oidPos + oidHeaderLen + oidLen then
          let alg ← netTlsKnownPubkeyAlg (der + oidPos + oidHeaderLen) oidLen
          write fun x => { x with pubkeyOidLen := oidLen, pubkeyAlg := alg }
        parseCurve der (fun curve x => { x with pubkeyCurve := curve }) algEnd
          (oidPos + oidHeaderLen + oidLen)
        parsePoint der spkiEnd algEnd
    return some spkiEnd
  else return some pos

end

def netTlsParseFirstCertificateDer (host : List UInt8) (rx : UInt32) : X509M Unit := do
  if rx < 8 || (← fields).firstCertificateLen == 0 then return
  let der : UInt32 := 6
  let available := rx - 6
  let some (contentLen, headerLen) ← netTlsParseDerSequenceLen der available | return
  write fun x =>
    { x with
      firstCertificateDer := true
      firstCertificateDerHeaderLen := headerLen
      firstCertificateDerLen := contentLen + headerLen }
  let pos := headerLen
  if !(← tagAt (!(available < pos + 2)) (der + pos) 0x30) then return
  let some (tbsContentLen, tbsHeaderLen) ← netTlsParseDerSequenceLen (der + pos) (available - pos)
    | return
  write fun x => { x with tbs := true, tbsLen := tbsContentLen + tbsHeaderLen }
  netTlsParseCertificateSignature der available (pos + tbsHeaderLen + tbsContentLen)
  let x ← fields
  if x.outerSigAlg == 1 || x.outerSigAlg == 3 then
    hand (der + pos) x.tbsLen
    let tbs ← bytes x.tbsLen.toNat (der + pos)
    write fun x => { x with tbsHashAlg := 1, tbsHash := sha256Hash tbs }
  let some pos ← skipPart der available 0xA0 2 (pos + tbsHeaderLen) | return
  let pos ← parseSerial der available pos
  let some pos ← parseSigAlg der available pos | return
  let some pos ← parseName der available
      (fun cn x => { x with issuerCn := cn, knownIssuer := netTlsKnownIssuerCn cn }) pos
    | return
  let some pos ← parseValidity der available pos | return
  let some pos ← parseName der available (fun cn x => { x with subjectCn := cn }) pos | return
  let some pos ← parseSpki der available pos | return
  netTlsParseSanDns host (der + pos) (available - pos)
  netTlsParseBasicConstraints (der + pos) (available - pos)
  netTlsParseKeyUsage (der + pos) (available - pos)
  netTlsParseExtendedKeyUsage (der + pos) (available - pos)

/-! ## The second certificate -/

/-- What `net_tls_compute_ecdsa_scalars` leaves in the flags. -/
def netTlsComputeEcdsaScalars (mul : Nat → Nat → Nat) (x : X509) : X509 :=
  let x :=
    { x with
      ecdsaScalarInputs := false
      ecdsaPubkeyValid := false
      ecdsaPointDone := false
      ecdsaMatch := false }
  if !x.verifyInputs then x
  else
    let valid := (p256PointFromBe32 mul x.chainPubkeyX x.chainPubkeyY).isSome
    let x := { x with ecdsaPubkeyValid := valid }
    if !p256ScalarValidBe32 x.signatureR then x
    else if !p256ScalarValidBe32 x.signatureS then x
    else { x with ecdsaScalarInputs := valid }

/-- The key of the second certificate, from its point on. -/
def parseChainPoint (mul : Nat → Nat → Nat) (der spkiEnd bitPos : UInt32) : X509M Unit := do
  if !(← tagAt (!(spkiEnd ≤ bitPos + 2)) (der + bitPos) 0x03) then return
  let some (bitLen, bitHeaderLen) ← netTlsParseDerLenAt (der + bitPos) (spkiEnd - bitPos) | return
  if bitLen < 2 || spkiEnd < bitPos + bitHeaderLen + bitLen then return
  let point := der + bitPos + bitHeaderLen + 1
  let pointLen := bitLen - 1
  write fun x => { x with chainPubkeyLen := if pointLen > 0xFFFF then 0xFFFF else pointLen }
  if ← tagAt (pointLen ≥ 65) point 0x04 then
    let coordLen := (pointLen - 1) / 2
    -- The two words that the status display shows.
    let _ ← bytes 4 (point + 1)
    let _ ← bytes 4 (point + 1 + coordLen)
    if coordLen == 32 then
      let chainPubkeyX ← bytes 32 (point + 1)
      let chainPubkeyY ← bytes 32 (point + 1 + coordLen)
      write fun x => { x with chainPubkeyX, chainPubkeyY }
  write fun x =>
    netTlsComputeEcdsaScalars mul
      { x with
        verifyInputs := x.tbsHashAlg == 1 && x.signatureRLen ≤ 32 && x.signatureRLen > 0 &&
          x.signatureSLen ≤ 32 && x.signatureSLen > 0 && x.chainPubkeyAlg == 2 &&
          x.chainCurve == 1 && x.chainPubkeyLen == 65 }

def parseChainSpki (mul : Nat → Nat → Nat) (der available pos : UInt32) : X509M Unit := do
  if !(← tagAt (available > pos + 4) (der + pos) 0x30) then return
  let some (spkiLen, spkiHeaderLen) ← netTlsParseDerSequenceLen (der + pos) (available - pos)
    | return
  let spkiEnd := pos + spkiHeaderLen + spkiLen
  let algPos := pos + spkiHeaderLen
  if !(← tagAt (!(spkiEnd > available) && !(spkiEnd ≤ algPos + 4)) (der + algPos) 0x30) then return
  let some (algLen, algHeaderLen) ← netTlsParseDerSequenceLen (der + algPos) (spkiEnd - algPos)
    | return
  let algEnd := algPos + algHeaderLen + algLen
  let oidPos := algPos + algHeaderLen
  if !(← tagAt (!(algEnd > spkiEnd) && !(algEnd ≤ oidPos + 2)) (der + oidPos) 0x06) then return
  let some (oidLen, oidHeaderLen) ← netTlsParseDerLenAt (der + oidPos) (algEnd - oidPos) | return
  if oidLen > 32 || algEnd < oidPos + oidHeaderLen + oidLen then return
  let alg ← netTlsKnownPubkeyAlg (der + oidPos + oidHeaderLen) oidLen
  write fun x => { x with chainPubkeyAlg := alg }
  parseCurve der (fun curve x => { x with chainCurve := curve }) algEnd
    (oidPos + oidHeaderLen + oidLen)
  parseChainPoint mul der spkiEnd algEnd

def netTlsParseChainCertificateDer (mul : Nat → Nat → Nat) (rx : UInt32) : X509M Unit := do
  let firstLen := (← fields).firstCertificateLen
  if rx < 9 || firstLen == 0 then return
  let secondLenPos := 6 + firstLen
  if rx < secondLenPos + 3 then return
  let secondLen ← get24be secondLenPos
  if secondLen == 0 || rx < secondLenPos + 3 + secondLen then return
  let der := secondLenPos + 3
  let available := rx - secondLenPos - 3
  let some (_, headerLen) ← netTlsParseDerSequenceLen der available | return
  write fun x => { x with secondCertificateLen := secondLen, secondCertificateDer := true }
  let pos := headerLen
  if !(← tagAt (!(available < pos + 2)) (der + pos) 0x30) then return
  let some (_, tbsHeaderLen) ← netTlsParseDerSequenceLen (der + pos) (available - pos) | return
  let some pos ← skipPart der available 0xA0 2 (pos + tbsHeaderLen) | return
  let some pos ← skipPart der available 0x02 2 pos | return
  let some pos ← skipPart der available 0x30 4 pos | return
  let some pos ← skipPart der available 0x30 2 pos | return
  let some pos ← skipPart der available 0x30 4 pos | return
  let some pos ← parseName der available
      (fun cn x => { x with chainSubjectCn := cn, chainLink := netTlsStrEqual x.issuerCn cn }) pos
    | return
  parseChainSpki mul der available pos

/-! ## The whole message -/

def netTlsParseCertificateHeader (length rx : UInt32) : X509M Unit := do
  if length < 3 || rx < 3 then return
  let listLen ← get24be 0
  write fun x => { x with certificateListLen := listLen }
  if rx ≥ 6 && listLen ≥ 3 then
    let firstLen ← get24be 3
    write fun x => { x with firstCertificateLen := firstLen }

def netTlsCertCaptureSize : Nat := 8192

/-- `certificateLen` and `certificateRx` are the lengths announced and received. -/
def netTlsParseBufferedCertificate (mul : Nat → Nat → Nat) (host : List UInt8)
    (certificateLen certificateRx : Nat) : X509M Unit := do
  let rx := UInt32.ofNat (min certificateRx netTlsCertCaptureSize)
  netTlsParseCertificateHeader (UInt32.ofNat certificateLen) rx
  netTlsParseFirstCertificateDer host rx
  netTlsParseChainCertificateDer mul rx

end MinervaOS.Tls
