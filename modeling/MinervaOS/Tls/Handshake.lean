import MinervaOS.Net.Http
import MinervaOS.Net.Tcp
import MinervaOS.Tls.X509

/-!
# Handshake messages

The part of `g_net` that a TLS connection lives in, and what one handshake message does to it. The
fields that only the status display reads are left out.
-/

namespace MinervaOS.Tls

open Crypto Net

/-! ## The server's key exchange -/

def netTlsKexParamsSize : Nat := 96

/-- The fields of the last ServerKeyExchange. -/
structure Kex where
  serverKeyExchange : Bool
  serverKeyExchangeLen : Nat
  curveType : UInt8
  namedCurve : UInt16
  pubkeyLen : UInt8
  pubkeyValid : Bool
  sigHash : UInt8
  sigAlg : UInt8
  sigLen : UInt16
  sigRLen : UInt32
  sigSLen : UInt32
  sigR : List UInt8
  sigS : List UInt8
  /-- `tls_kex_params`, as far as `tls_kex_params_len`. -/
  params : List UInt8
  sigPointDone : Bool
  sigMatch : Bool
  deriving DecidableEq, Repr

def Kex.reset : Kex where
  serverKeyExchange := false
  serverKeyExchangeLen := 0
  curveType := 0
  namedCurve := 0
  pubkeyLen := 0
  pubkeyValid := false
  sigHash := 0
  sigAlg := 0
  sigLen := 0
  sigRLen := 0
  sigSLen := 0
  sigR := zeros32
  sigS := zeros32
  params := []
  sigPointDone := false
  sigMatch := false

/-- The signature is read in place, from its own start. -/
def netTlsParseKexEcdsaSig (sig : List UInt8) (sigLen : UInt16) (k : Kex) : Kex :=
  if sigLen < 8 then k
  else
    ((parseIntegers 0 sigLen.toUInt32
      (fun rLen r (k : Kex) => { k with sigRLen := rLen, sigR := storeInteger rLen r k.sigR })
      (fun sLen s k => { k with sigSLen := sLen, sigS := storeInteger sLen s k.sigS })).run
      (fun pos => get8 sig pos.toNat) k).fields

/-- The message replaces all that is known of the key exchange, whatever its signature. -/
def netTlsParseServerKeyExchange (mul : Nat → Nat → Nat) (body : List UInt8) : Kex :=
  let len := body.length
  let k := { Kex.reset with serverKeyExchange := true, serverKeyExchangeLen := min len 0xFFFF }
  if len < 4 then k
  else
    let k :=
      { k with curveType := get8 body 0, namedCurve := get16be body 1, pubkeyLen := get8 body 3 }
    let keyLen := k.pubkeyLen.toNat
    if 4 + keyLen > len then k
    else
      let k := if 4 + keyLen ≤ netTlsKexParamsSize then { k with params := body.take (4 + keyLen) }
        else k
      let key := body.drop 4
      let k :=
        if k.curveType == 3 && k.namedCurve == 0x0017 && keyLen == 65 && get8 key 0 == 0x04 then
          { k with pubkeyValid := (p256PointFromBe32 mul (key.drop 1) (key.drop 33)).isSome }
        else k
      let sigPos := 4 + keyLen
      if sigPos + 4 > len then k
      else
        let k :=
          { k with
            sigHash := get8 body sigPos
            sigAlg := get8 body (sigPos + 1)
            sigLen := get16be body (sigPos + 2) }
        if sigPos + 4 + k.sigLen.toNat > len then k
        else if k.sigAlg == 3 then netTlsParseKexEcdsaSig (body.drop (sigPos + 4)) k.sigLen k
        else k

/-! ## The connection -/

structure ServerHello where
  serverHello : Bool
  serverVersion : UInt16
  sessionIdLen : UInt8
  cipherSuite : UInt16
  extensionsLen : UInt16
  deriving DecidableEq, Repr

/-- What `tls_shared_secret` and the buffers behind it hold, with their flags. -/
structure Keys where
  sharedSecretValid : Bool
  sharedSecret : List UInt8
  masterSecretValid : Bool
  masterSecret : List UInt8
  keyBlockValid : Bool
  keyBlock : List UInt8

structure Tls where
  httpHost : List UInt8
  valid : Bool
  clientRandom : List UInt8
  serverRandom : List UInt8
  hello : ServerHello
  certificate : Bool
  certificateLen : Nat
  certificateRx : Nat
  /-- Memory from `tls_certificate_body` on; its first 8192 bytes are the buffer. -/
  certificateBody : Memory
  x509 : X509
  kex : Kex
  pendingHandshakeType : UInt8
  pendingHandshakeLen : Nat
  pendingHandshakeRx : Nat
  recordPending : Nat
  /-- `tls_transcript`, as far as `tls_transcript_len`. -/
  transcript : List UInt8
  transcriptOverflow : Bool
  transcriptCertificateAdded : Bool
  clientKeyExchange : Bool
  keys : Keys
  clientFinishedValid : Bool
  clientFinished : List UInt8
  finishedTx : Bool
  serverCcsRx : Bool
  serverFinishedRx : Bool
  serverFinishedDecrypt : Bool
  serverFinishedVerify : Bool
  appTx : Bool
  appRx : Bool
  appDecrypt : Bool
  appResponseLen : Nat
  appPendingLen : Nat
  /-- `tls_app_record`, as far as `tls_app_pending_rx`. -/
  appRecord : List UInt8
  http : Http

/-! ## The transcript -/

def netTlsTranscriptSize : Nat := 10000

def netTlsTranscriptAppend (data : List UInt8) (s : Tls) : Tls :=
  if data.isEmpty then s
  else if s.transcript.length ≥ netTlsTranscriptSize ∨
      data.length > netTlsTranscriptSize - s.transcript.length then
    { s with transcriptOverflow := true }
  else { s with transcript := s.transcript ++ data }

def put24be (value : Nat) : List UInt8 :=
  [UInt8.ofNat (value / 65536), UInt8.ofNat (value / 256), UInt8.ofNat value]

def netTlsTranscriptAppendMessage (type : UInt8) (body : List UInt8) (s : Tls) : Tls :=
  netTlsTranscriptAppend body (netTlsTranscriptAppend (type :: put24be body.length) s)

def netTlsCertificateComplete (s : Tls) : Bool :=
  s.certificate && s.certificateLen > 0 && s.certificateRx ≥ s.certificateLen

/-- The bytes of memory from `tls_certificate_body` on. -/
def bodyBytes (memory : Memory) (len : Nat) : List UInt8 :=
  (List.range len).map fun i => memory (UInt32.ofNat i)

def netTlsTranscriptAppendCertificate (s : Tls) : Tls :=
  if s.transcriptCertificateAdded then s
  else if !netTlsCertificateComplete s then s
  else if s.certificateLen > netTlsCertCaptureSize then s
  else
    { netTlsTranscriptAppendMessage 0x0B (bodyBytes s.certificateBody s.certificateLen) s with
      transcriptCertificateAdded := true }

/-! ## One message -/

def netTlsNoteHandshake (type : UInt8) (length rx : Nat) (s : Tls) : Tls :=
  let s :=
    if type == 0x0B then
      { s with certificate := true, certificateLen := length, certificateRx := rx }
    else s
  if rx < length then
    { s with
      pendingHandshakeType := type
      pendingHandshakeLen := length
      pendingHandshakeRx := rx }
  else { s with pendingHandshakeType := 0, pendingHandshakeLen := 0, pendingHandshakeRx := 0 }

def netTlsCaptureCertificateBytes (src : List UInt8) (offset len : Nat) (s : Tls) : Tls :=
  if len = 0 ∨ offset ≥ netTlsCertCaptureSize then s
  else
    let copyLen := min len (netTlsCertCaptureSize - offset)
    { s with
      certificateBody := fun pos =>
        if offset ≤ pos.toNat ∧ pos.toNat < offset + copyLen then get8 src (pos.toNat - offset)
        else s.certificateBody pos }

section

variable (mul : Nat → Nat → Nat)

/-- `net_tls_parse_buffered_certificate` on the fields of the connection. -/
def parseBuffered (s : Tls) : Tls :=
  { s with
    x509 := ((netTlsParseBufferedCertificate mul s.httpHost s.certificateLen s.certificateRx).run
      s.certificateBody s.x509).fields }

/-- The fields of a whole ServerHello. -/
def captureServerHello (body : List UInt8) (s : Tls) : Tls :=
  let s := { s with hello := { s.hello with serverHello := true } }
  if body.length < 38 then s
  else
    let sidLen := get8 body 34
    let pos := 35 + sidLen.toNat
    let hello := { s.hello with serverVersion := get16be body 0, sessionIdLen := sidLen }
    let hello :=
      if pos + 3 ≤ body.length then
        { hello with
          cipherSuite := get16be body pos
          extensionsLen := if pos + 5 ≤ body.length then get16be body (pos + 3) else 0 }
      else hello
    { s with serverRandom := (body.drop 2).take 32, hello }

/-- One message in the loop of `net_tls_capture_payload`: its type, the length its header gives, the
header, and what there is of the record behind the header. -/
def captureMessage (type : UInt8) (len : Nat) (header rest : List UInt8) (s : Tls) : Tls :=
  let rx := min rest.length len
  let body := rest.take len
  if type == 0x02 then
    if len > rest.length then s
    else
      captureServerHello body
        (netTlsTranscriptAppend (header ++ body) (netTlsNoteHandshake type len len s))
  else if type == 0x0B then
    netTlsTranscriptAppendCertificate
      (parseBuffered mul
        (netTlsCaptureCertificateBytes rest 0 rx (netTlsNoteHandshake type len rx s)))
  else if type == 0x0C then
    if len > rest.length then netTlsNoteHandshake type len rx s
    else
      { netTlsTranscriptAppend (header ++ body) (netTlsNoteHandshake type len len s) with
        kex := netTlsParseServerKeyExchange mul body }
  else if len > rest.length then netTlsNoteHandshake type len rx s
  else netTlsTranscriptAppend (header ++ body) (netTlsNoteHandshake type len len s)

end

end MinervaOS.Tls
