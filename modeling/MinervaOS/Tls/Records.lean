import MinervaOS.Crypto.Aes
import MinervaOS.Crypto.Hmac
import MinervaOS.Net.Target
import MinervaOS.Tls.Handshake

/-!
# Records

`net_tls_capture_payload`, which takes the payloads of the connection as they arrive, and what it
does with the records in them. A record of application data may be continued in later payloads; the
bytes that a handshake record lacks are waited for, and kept only where a certificate is pending.

A payload is part of a frame of at most 1536 bytes, so that none of the 16-bit positions in it wraps
and the bytes that are left stand for a position.
-/

namespace MinervaOS.Tls

open Crypto Net

def put16be (value : ℕ) : List UInt8 := [UInt8.ofNat (value / 256), UInt8.ofNat value]

/-! ## The fields at first -/

def netTlsFinishedSize : ℕ := 12

/-- What `net_tls_derive_keys` begins with. -/
def Keys.reset : Keys where
  sharedSecretValid := false
  sharedSecret := zeros32
  masterSecretValid := false
  masterSecret := List.replicate 48 0
  keyBlockValid := false
  keyBlock := List.replicate 40 0

/-- What `net_tls_probe_url` sets before it looks the name up. -/
def Tls.reset (httpHost clientRandom : List UInt8) : Tls where
  httpHost
  valid := false
  clientRandom
  serverRandom := zeros32
  hello := ⟨false, 0, 0, 0, 0⟩
  certificate := false
  certificateLen := 0
  certificateRx := 0
  certificateBody := fun _ => 0
  x509 := .reset
  kex := .reset
  pendingHandshakeType := 0
  pendingHandshakeLen := 0
  pendingHandshakeRx := 0
  recordPending := 0
  transcript := []
  transcriptOverflow := false
  transcriptCertificateAdded := false
  clientKeyExchange := false
  keys := .reset
  clientFinishedValid := false
  clientFinished := List.replicate netTlsFinishedSize 0
  finishedTx := false
  serverCcsRx := false
  serverFinishedRx := false
  serverFinishedDecrypt := false
  serverFinishedVerify := false
  appTx := false
  appRx := false
  appDecrypt := false
  appResponseLen := 0
  appPendingLen := 0
  appRecord := []
  http := .reset

/-! ## Bytes that a message lacks -/

def netTlsAddPendingBytes (add : ℕ) (s : Tls) : Tls :=
  if s.pendingHandshakeType == 0 || s.pendingHandshakeRx ≥ s.pendingHandshakeLen then s
  else
    let rx := s.pendingHandshakeRx + min add (s.pendingHandshakeLen - s.pendingHandshakeRx)
    let s := { s with
      pendingHandshakeRx := rx
      certificateRx := if s.pendingHandshakeType == 0x0B then rx else s.certificateRx }
    if rx ≥ s.pendingHandshakeLen then
      { s with pendingHandshakeType := 0, pendingHandshakeLen := 0, pendingHandshakeRx := 0 }
    else s

section

variable (mul : Nat → Nat → Nat)

/-- `if (g_net.tls_certificate) net_tls_parse_buffered_certificate()` -/
def parseIfCertificate (s : Tls) : Tls := if s.certificate then parseBuffered mul s else s

/-- The payload is what is left of it behind a record that an earlier one began. -/
def netTlsContinuePending (payload : List UInt8) (s : Tls) : List UInt8 × Tls :=
  if s.recordPending == 0 || payload.isEmpty then (payload, s)
  else
    let consume := min payload.length s.recordPending
    let s :=
      if s.pendingHandshakeType == 0x0B then
        netTlsCaptureCertificateBytes payload s.certificateRx consume s
      else s
    let s := netTlsTranscriptAppendCertificate
      (parseIfCertificate mul (netTlsAddPendingBytes consume s))
    (payload.drop consume, { s with recordPending := s.recordPending - consume })

end

/-! ## Encrypted records -/

/-- The nonce of a record of the server: its own four bytes of the key block, then those that the
record begins with. -/
def serverNonce (k : Keys) (src : List UInt8) : List UInt8 :=
  (k.keyBlock.drop 36).take 4 ++ src.take 8

/-- What is authenticated along with a record: its number, its type, the version and its length. -/
def recordAad (number : UInt8) (type : UInt8) (cipherLen : ℕ) : List UInt8 :=
  [0, 0, 0, 0, 0, 0, 0, number, type, 0x03, 0x03] ++ put16be cipherLen

/-- The body of a record under the key of the server. -/
def decryptRecord (k : Keys) (number type : UInt8) (src : List UInt8) : Option (List UInt8) :=
  let cipherLen := src.length - 8 - 16
  aes128GcmDecrypt ((k.keyBlock.drop 16).take 16) (serverNonce k src)
    (recordAad number type cipherLen) ((src.drop 8).take cipherLen) (src.drop (8 + cipherLen))

def netTlsProcessServerFinishedRecord (src : List UInt8) (s : Tls) : Tls :=
  if src.length < 8 + 16 + 16 then s
  else if !s.finishedTx || !s.keys.keyBlockValid then s
  else
    let s := { s with serverFinishedRx := true }
    let cipherLen := src.length - 8 - 16
    if cipherLen > 32 then s
    else
      match decryptRecord s.keys 0 0x16 src with
      | none => s
      | some plain =>
        let s := { s with serverFinishedDecrypt := true }
        if cipherLen ≠ 16 ∨ plain.take 4 ≠ 0x14 :: put24be netTlsFinishedSize then s
        else
          let digest := sha256Hash s.transcript
          let expected := netTlsPrfSha256 s.keys.masterSecret (Net.chars "server finished")
            digest netTlsFinishedSize
          if expected = some (plain.drop 4) then { s with serverFinishedVerify := true } else s

def netTlsProcessAppDataRecord (src : List UInt8) (s : Tls) : Tls :=
  if src.length < 8 + 16 then s
  else if !s.appTx || !s.keys.keyBlockValid then s
  else
    let s := { s with appRx := true }
    let cipherLen := src.length - 8 - 16
    if cipherLen = 0 ∨ cipherLen > netHttpCaptureSize then s
    else
      match decryptRecord s.keys 1 0x17 src with
      | none => s
      | some plain =>
        { s with
          appDecrypt := true
          appResponseLen := cipherLen
          http := netHttpCapturePayload plain s.http }

/-! ## A record of application data over several payloads -/

def netTlsAppPendingReset (s : Tls) : Tls := { s with appPendingLen := 0, appRecord := [] }

/-- `if (tls_app_pending_rx >= tls_app_pending_len)`, once bytes have come. -/
def netTlsAppPendingDone (s : Tls) : Tls :=
  if s.appRecord.length ≥ s.appPendingLen then
    netTlsAppPendingReset (netTlsProcessAppDataRecord s.appRecord s)
  else s

def netTlsAppPendingContinue (payload : List UInt8) (s : Tls) : List UInt8 × Tls :=
  if s.appPendingLen == 0 || payload.isEmpty then (payload, s)
  else
    let copy := min payload.length (s.appPendingLen - s.appRecord.length)
    let s :=
      if copy ≠ 0 ∧ s.appRecord.length + copy ≤ netHttpCaptureSize then
        { s with appRecord := s.appRecord ++ payload.take copy }
      else s
    (payload.drop copy, netTlsAppPendingDone s)

/-- `src` is what there is of the record of `len` bytes. -/
def netTlsAppPendingStart (src : List UInt8) (len : ℕ) (s : Tls) : Tls :=
  if len = 0 ∨ len > netHttpCaptureSize then s
  else
    netTlsAppPendingDone { s with appRecord := src.take len, appPendingLen := len, appRx := true }

/-! ## A payload -/

section

variable (mul : Nat → Nat → Nat)

/-- The length in the header of a handshake message. -/
def handshakeLen (hs : List UInt8) : ℕ :=
  (get8 hs 1).toNat * 65536 + (get8 hs 2).toNat * 256 + (get8 hs 3).toNat

/-- The messages of a record, from `hs` on. -/
def captureMessages : ℕ → List UInt8 → Tls → Tls
  | 0, _, s => s
  | fuel + 1, hs, s =>
    if hs.length < 4 then s
    else
      let len := handshakeLen hs
      let rest := hs.drop 4
      let s := captureMessage mul (get8 hs 0) len (hs.take 4) rest s
      if len > rest.length then s else captureMessages fuel (rest.drop len) s

/-- What there is of a handshake record: first what the pending message lacks. -/
def captureHandshake (hs : List UInt8) (s : Tls) : Tls :=
  if s.pendingHandshakeType == 0 || s.pendingHandshakeRx ≥ s.pendingHandshakeLen then
    captureMessages mul hs.length hs s
  else
    let add := min hs.length (s.pendingHandshakeLen - s.pendingHandshakeRx)
    let s :=
      if s.pendingHandshakeType == 0x0B then
        netTlsCaptureCertificateBytes hs s.certificateRx add s
      else s
    captureMessages mul hs.length (hs.drop add)
      (parseIfCertificate mul (netTlsAddPendingBytes add s))

/-- The flags that are set for the type of a record. -/
def noteRecord (type : UInt8) (s : Tls) : Tls :=
  if type == 0x16 || type == 0x15 then { s with valid := true } else s

def noteCcs (type : UInt8) (s : Tls) : Tls :=
  if s.finishedTx && type == 0x14 then { s with serverCcsRx := true } else s

/-- The loop over the records, from `record` on. -/
def captureRecords : ℕ → List UInt8 → Tls → Tls
  | 0, _, s => s
  | fuel + 1, record, s =>
    if record.length < 5 then s
    else
      let type := get8 record 0
      let version := get16be record 1
      let len := (get16be record 3).toNat
      if type < 0x14 || type > 0x17 then s
      else if version < 0x0301 || version > 0x0304 then s
      else if len = 0 ∨ len > 0x4000 then s
      else
        let rest := record.drop 5
        let body := rest.take len
        let s := noteRecord type s
        if len ≤ rest.length then
          let next := rest.drop len
          let s := noteCcs type s
          if s.finishedTx && type == 0x16 then
            captureRecords fuel next (netTlsProcessServerFinishedRecord body s)
          else if s.appTx && type == 0x17 then
            captureRecords fuel next (netTlsProcessAppDataRecord body s)
          else if type == 0x16 then captureRecords fuel next (captureHandshake mul body s)
          else captureRecords fuel next s
        else if s.appTx && type == 0x17 then netTlsAppPendingStart body len s
        else
          { (if type == 0x16 then captureHandshake mul body s else s) with
            recordPending := len - rest.length }

def netTlsCapturePayload (payload : List UInt8) (s : Tls) : Tls :=
  if payload.isEmpty then s
  else
    let (payload, s) := netTlsContinuePending mul payload s
    let (payload, s) := netTlsAppPendingContinue payload s
    captureRecords mul payload.length payload s

end

end MinervaOS.Tls
