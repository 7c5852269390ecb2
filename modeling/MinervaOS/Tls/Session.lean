import MinervaOS.Browser.Links
import MinervaOS.Tls.Ecdsa
import MinervaOS.Tls.Records

/-!
# A session

The steps that `net_https_get_url` goes through, each of which the terminal can also ask for alone.
A step that sends waits for its answer, and the payloads that come meanwhile are captured: some of
them already inside of `net_send_tcp_segment`, which polls when a frame does not go out.
-/

namespace MinervaOS.Tls

open Crypto Net

/-- What the network does with one segment: the payloads that come before it is out, whether it goes
out, and the payloads that come while the answer is waited for. -/
structure Sending where
  early : List (List UInt8)
  sent : Bool
  later : List (List UInt8)

section

variable (mul : Nat → Nat → Nat)

def capturePayloads (payloads : List (List UInt8)) (s : Tls) : Tls :=
  payloads.foldl (fun s payload => netTlsCapturePayload mul payload s) s

/-! ## The key exchange -/

def netTlsVerifyKexSignature (s : Tls) : Bool × Tls :=
  let s := { s with kex := { s.kex with sigPointDone := false, sigMatch := false } }
  if !s.kex.serverKeyExchange then (false, s)
  else if s.kex.params.length = 0 ∨ s.kex.params.length > netTlsKexParamsSize then (false, s)
  else if s.kex.sigHash != 4 || s.kex.sigAlg != 3 then (false, s)
  else if s.x509.pubkeyAlg != 2 || s.x509.pubkeyCurve != 1 || s.x509.pubkeyLen != 65 then (false, s)
  else if s.kex.sigRLen == 0 || s.kex.sigRLen > 32 || s.kex.sigSLen == 0 || s.kex.sigSLen > 32 then
    (false, s)
  else
    let digest := sha256Hash (s.clientRandom ++ s.serverRandom ++ s.kex.params)
    let sigMatch :=
      (netTlsVerifyEcdsaP256 s.x509.pubkeyX s.x509.pubkeyY s.kex.sigR s.kex.sigS digest).1
    (sigMatch, { s with kex := { s.kex with sigPointDone := true, sigMatch } })

def tlsClientScalar : List UInt8 :=
  [0x11, 0x42, 0x4D, 0x69, 0x6E, 0x65, 0x72, 0x76, 0x61, 0x54, 0x4C, 0x53, 0x2D, 0x45, 0x43, 0x44,
    0x48, 0x45, 0x2D, 0x50, 0x32, 0x35, 0x36, 0x2D, 0x30, 0x30, 0x30, 0x30, 0x30, 0x30, 0x30, 0x31]

/-- The record, or `none` for a returned 0. -/
def buildTlsClientKeyExchange (max : ℕ) : Option (List UInt8) :=
  if max < 75 then none
  else if !p256ScalarValidBe32 tlsClientScalar then none
  else
    let pub := p256PointMulBe32Projective mul p256BasePoint tlsClientScalar
    if pub.infinity then none
    else
      let x := p256FeToBe32 pub.x
      let y := p256FeToBe32 pub.y
      if (p256PointFromBe32 mul x y).isNone then none
      else
        let body := 65 :: 0x04 :: (x ++ y)
        let message := 0x10 :: (put24be body.length ++ body)
        some (0x16 :: 0x03 :: 0x03 :: (put16be message.length ++ message))

/-- The record that was sent, or `none` for a returned 0. -/
def netTlsSendClientKeyExchange (tcpTargetPort : UInt16) (net : Sending) (s : Tls) :
    Option (List UInt8) × Tls :=
  let s := { s with clientKeyExchange := false }
  if !s.kex.serverKeyExchange then (none, s)
  else
    let (ok, s) := if s.kex.sigPointDone then (true, s) else netTlsVerifyKexSignature s
    if !ok then (none, s)
    else if !s.kex.sigMatch then (none, s)
    else if tcpTargetPort != tcpTlsPort then (none, s)
    else
      match buildTlsClientKeyExchange mul 80 with
      | none => (none, s)
      | some record =>
        let s := capturePayloads mul net.early s
        if !net.sent then (none, s)
        else
          let s := netTlsTranscriptAppend (record.drop 5) s
          let s := { s with clientFinishedValid := false, clientKeyExchange := true }
          (some record, capturePayloads mul net.later s)

/-! ## The keys -/

/-- The secrets that follow from a shared one. The pseudorandom function produces nothing where its
buffer is too small, so what is there stays. -/
def deriveFrom (sharedSecret clientRandom serverRandom : List UInt8) : Keys :=
  let masterSecret :=
    (netTlsPrfSha256 sharedSecret (chars "master secret") (clientRandom ++ serverRandom) 48).getD
      Keys.reset.masterSecret
  let keyBlock :=
    (netTlsPrfSha256 masterSecret (chars "key expansion") (serverRandom ++ clientRandom) 40).getD
      Keys.reset.keyBlock
  { sharedSecretValid := true
    sharedSecret
    masterSecretValid := true
    masterSecret
    keyBlockValid := true
    keyBlock }

def netTlsDeriveKeys (s : Tls) : Bool × Tls :=
  let s := { s with keys := .reset }
  if !s.clientKeyExchange then (false, s)
  else if !s.kex.pubkeyValid then (false, s)
  else if s.kex.params.length < 69 || get8 s.kex.params 3 != 65 || get8 s.kex.params 4 != 0x04 then
    (false, s)
  else
    match p256PointFromBe32 mul (s.kex.params.drop 5) (s.kex.params.drop 37) with
    | none => (false, s)
    | some serverPub =>
      let shared := p256PointMulBe32Projective mul serverPub tlsClientScalar
      if shared.infinity then (false, s)
      else
        (true, { s with keys := deriveFrom (p256FeToBe32 shared.x) s.clientRandom s.serverRandom })

/-! ## Finished -/

/-- The data of a Finished message: what the secret makes of the messages so far. -/
def verifyData (masterSecret : List UInt8) (label : String) (transcript : List UInt8) :
    Option (List UInt8) :=
  netTlsPrfSha256 masterSecret (chars label) (sha256Hash transcript) netTlsFinishedSize

def netTlsComputeFinished (s : Tls) : Bool × Tls :=
  let s := { s with clientFinishedValid := false }
  let (ok, s) := if s.keys.keyBlockValid then (true, s) else netTlsDeriveKeys mul s
  if !ok then (false, s)
  else if !s.keys.masterSecretValid then (false, s)
  else if s.transcript.isEmpty || s.transcriptOverflow then (false, s)
  else
    (true, { s with
      clientFinished :=
        (verifyData s.keys.masterSecret "client finished" s.transcript).getD s.clientFinished
      clientFinishedValid := true })

/-- A record under the key of the client. Its nonce ends in its number. -/
def encryptRecord (k : Keys) (number type : UInt8) (plain : List UInt8) : List UInt8 :=
  let explicit := [0, 0, 0, 0, 0, 0, 0, number]
  let (cipher, tag) := aes128GcmEncrypt (k.keyBlock.take 16) ((k.keyBlock.drop 32).take 4 ++ explicit)
    (recordAad number type plain.length) plain
  type :: 0x03 :: 0x03 :: (put16be (8 + plain.length + 16) ++ (explicit ++ (cipher ++ tag)))

def changeCipherSpec : List UInt8 := [0x14, 0x03, 0x03, 0x00, 0x01, 0x01]

def finishedMessage (verifyData : List UInt8) : List UInt8 :=
  0x14 :: (put24be netTlsFinishedSize ++ verifyData)

def netTlsSendFinished (net : Sending) (s : Tls) : Option (List UInt8) × Tls :=
  let s := { s with finishedTx := false }
  let (ok, s) := if s.clientFinishedValid then (true, s) else netTlsComputeFinished mul s
  if !ok then (none, s)
  else if !s.keys.keyBlockValid then (none, s)
  else
    let plain := finishedMessage s.clientFinished
    let payload := changeCipherSpec ++ encryptRecord s.keys 0 0x16 plain
    let s := capturePayloads mul net.early s
    if !net.sent then (none, s)
    else
      let s := netTlsTranscriptAppend plain { s with finishedTx := true }
      (some payload, capturePayloads mul net.later s)

/-! ## The request -/

def netTlsSendHttpGet (target : Target) (tcpTargetPort : UInt16) (net : Sending) (s : Tls) :
    Option (List UInt8) × Tls :=
  let s := netTlsAppPendingReset
    { s with appTx := false, appRx := false, appDecrypt := false, appResponseLen := 0 }
  if !s.serverFinishedVerify then (none, s)
  else if !s.keys.keyBlockValid then (none, s)
  else if tcpTargetPort != tcpTlsPort then (none, s)
  else
    match Browser.buildHttpRequest target 132 with
    | none => (none, s)
    | some request =>
      let payload := encryptRecord s.keys 1 0x17 request
      if payload.length > 160 then (none, s)
      else
        let s := capturePayloads mul net.early { s with http := .reset }
        if !net.sent then (none, s)
        else (some payload, capturePayloads mul net.later { s with appTx := true })

/-! ## A target -/

def netTlsTranscriptReset (s : Tls) : Tls :=
  { s with
    transcript := []
    transcriptOverflow := false
    clientFinishedValid := false
    finishedTx := false
    serverCcsRx := false
    serverFinishedRx := false
    serverFinishedDecrypt := false
    serverFinishedVerify := false
    appTx := false
    appRx := false
    appDecrypt := false
    appResponseLen := 0
    appPendingLen := 0
    appRecord := []
    clientFinished := List.replicate netTlsFinishedSize 0
    transcriptCertificateAdded := false }

/-- One address that is tried: whether it is connected to, and the ClientHello. The payloads that
come while the connection is made are `early` too. -/
structure Attempt where
  connected : Bool
  net : Sending

def netTlsTryTarget (hello : List UInt8) (a : Attempt) (s : Tls) : Bool × Tls :=
  let s := capturePayloads mul a.net.early (netTlsTranscriptReset s)
  if !a.connected then (false, s)
  else if !a.net.sent then (false, s)
  else
    let s := capturePayloads mul a.net.later (netTlsTranscriptAppend (hello.drop 5) s)
    (s.valid, s)

/-- The attempts of `net_tls_probe_url`, up to the first that succeeds. -/
def tryTargets (hello : List UInt8) : List Attempt → Tls → Bool × Tls
  | [], s => (false, s)
  | a :: attempts, s =>
    let (ok, s) := netTlsTryTarget mul hello a s
    if ok then (true, s) else tryTargets hello attempts s

/-- What a call returns, what it sent, and what is left. -/
structure Outcome where
  ok : Bool
  wire : List (List UInt8)
  tls : Tls

/-- Of a step that sends one segment. -/
def Outcome.ofSent (r : Option (List UInt8) × Tls) : Outcome := ⟨r.1.isSome, r.1.toList, r.2⟩

/-- `if (!done && !step()) return 0`, and what comes behind it. -/
def unlessDone (done : Tls → Bool) (step next : Tls → Outcome) (s : Tls) : Outcome :=
  if done s then next s
  else
    let o := step s
    if o.ok then
      let o' := next o.tls
      { o' with wire := o.wire ++ o'.wire }
    else o

/-- What the network does with the segments of one `net_https_get_url`. -/
structure Https where
  keyExchange : Sending
  finished : Sending
  get : Sending

/-- `net_https_get_url` from the point on where the key exchange is sent. -/
def netHttpsGetUrlKeys (target : Target) (net : Https) : Tls → Outcome :=
  unlessDone (fun s => s.keys.keyBlockValid)
    (fun s => ⟨(netTlsDeriveKeys mul s).1, [], (netTlsDeriveKeys mul s).2⟩)
    (unlessDone (fun s => s.clientFinishedValid)
      (fun s => ⟨(netTlsComputeFinished mul s).1, [], (netTlsComputeFinished mul s).2⟩)
      (unlessDone (fun s => s.serverFinishedVerify)
        (fun s => .ofSent (netTlsSendFinished mul net.finished s))
        fun s =>
          let o := Outcome.ofSent (netTlsSendHttpGet mul target tcpTlsPort net.get s)
          { o with ok := o.ok && o.tls.appDecrypt && o.tls.http.response.length > 0 }))

/-- `net_https_get_url` behind `net_tls_probe_url`. -/
def netHttpsGetUrl (target : Target) (net : Https) : Tls → Outcome :=
  unlessDone (fun s => s.kex.sigPointDone)
    (fun s => ⟨(netTlsVerifyKexSignature s).1, [], (netTlsVerifyKexSignature s).2⟩)
    (unlessDone (fun s => s.clientKeyExchange)
      (fun s => .ofSent (netTlsSendClientKeyExchange mul tcpTlsPort net.keyExchange s))
      (netHttpsGetUrlKeys mul target net))

end

end MinervaOS.Tls
