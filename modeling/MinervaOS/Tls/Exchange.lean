import MinervaOS.Crypto.Authentication
import MinervaOS.Tls.Peer

/-!
# A page over TLS

`net_https_get_url` against a server that follows the standard, from the point on where the flight of
the server has been taken in. Both sides come to the same keys, each accepts the Finished message of
the other, the server reads the request, and the client its answer, as far as one record goes: the
number that the client authenticates with is 1 for all of them.
-/

namespace MinervaOS.Tls

open Crypto Net

/-! ## The keys -/

theorem length_keyBlock (secret clientRandom serverRandom : List UInt8) :
    (peerKeys secret clientRandom serverRandom).keyBlock.length = 40 := length_prf ..

section

variable {k : Keys} (h : k.keyBlock.length = 40)
include h

theorem length_clientKey : (clientKey k).length = 16 := by
  rw [clientKey, List.length_take, h]
  rfl

theorem length_serverKey : (serverKey k).length = 16 := by
  rw [serverKey, List.length_take, List.length_drop, h]
  rfl

end

/-! ## The first steps -/

/-- What the client holds of an honest server once its flight has come: its offer, signed under the
key of its certificate. -/
structure Greeted (d t k : ZMod p256N) (s : Tls) : Prop where
  offers : Offers t s.kex
  scalar : t ≠ 0
  sigHash : s.kex.sigHash = 4
  sigAlg : s.kex.sigAlg = 3
  sigRLen : 0 < s.kex.sigRLen ∧ s.kex.sigRLen ≤ 32
  sigSLen : 0 < s.kex.sigSLen ∧ s.kex.sigSLen ≤ 32
  pubkeyAlg : s.x509.pubkeyAlg = 2
  pubkeyCurve : s.x509.pubkeyCurve = 1
  pubkeyLen : s.x509.pubkeyLen = 65
  signed : Signed d k (p256FeFromBe32 s.x509.pubkeyX) (p256FeFromBe32 s.x509.pubkeyY)
    (p256FeFromBe32 s.kex.sigR) (p256FeFromBe32 s.kex.sigS)
    (p256FeFromBe32 (sha256Hash (s.clientRandom ++ s.serverRandom ++ s.kex.params)))
  clientRandom : s.clientRandom.length = 32
  serverRandom : s.serverRandom.length = 32
  /-- The two messages of the client have room in the transcript. -/
  transcript : s.transcript.length + 86 ≤ netTlsTranscriptSize
  transcriptOverflow : s.transcriptOverflow = false

/-- Nothing of the session has been done yet. -/
structure Fresh (s : Tls) : Prop where
  quiet : Quiet s
  appRecord : s.appRecord = []
  sigPointDone : s.kex.sigPointDone = false
  clientKeyExchange : s.clientKeyExchange = false
  keyBlockValid : s.keys.keyBlockValid = false
  clientFinishedValid : s.clientFinishedValid = false
  serverFinishedVerify : s.serverFinishedVerify = false
  appTx : s.appTx = false

theorem Offers.length_params {t : ZMod p256N} {k : Kex} (h : Offers t k) : k.params.length = 69 := by
  obtain ⟨x, y, hbytes, hparams⟩ := h.params
  rw [hparams]
  simp only [List.length_cons, List.length_append, hbytes.x_length, hbytes.y_length]

variable {d t k : ZMod p256N} {s : Tls}

/-- The signature over the offer is accepted. -/
theorem netTlsVerifyKexSignature_honest (h : Greeted d t k s) :
    netTlsVerifyKexSignature s =
      (true, { s with kex := { s.kex with sigPointDone := true, sigMatch := true } }) := by
  have hparams := h.offers.length_params
  have hlength : ¬(s.kex.params.length = 0 ∨ s.kex.params.length > netTlsKexParamsSize) := by
    rw [hparams]
    decide
  have hmatch := (verify_key_iff s.kex.sigR s.kex.sigS
    (sha256Hash (s.clientRandom ++ s.serverRandom ++ s.kex.params)) h.signed.key).2
      h.signed.accepted
  have hlengths : (s.kex.sigRLen == 0 || decide (s.kex.sigRLen > 32) || s.kex.sigSLen == 0 ||
      decide (s.kex.sigSLen > 32)) = false := by
    obtain ⟨hr, hr'⟩ := h.sigRLen
    obtain ⟨hs, hs'⟩ := h.sigSLen
    simp only [Bool.or_eq_false_iff, beq_eq_false_iff_ne, decide_eq_false_iff_not]
    exact ⟨⟨⟨UInt32.pos_iff_ne_zero.1 hr, UInt32.not_lt.2 hr'⟩, UInt32.pos_iff_ne_zero.1 hs⟩,
      UInt32.not_lt.2 hs'⟩
  unfold netTlsVerifyKexSignature
  dsimp only
  rw [h.offers.serverKeyExchange, if_neg (by decide), if_neg hlength, h.sigHash, h.sigAlg,
    if_neg (by decide), h.pubkeyAlg, h.pubkeyCurve, h.pubkeyLen, if_neg (by decide), hlengths,
    if_neg Bool.false_ne_true, hmatch]

theorem transcriptAppend_eq {data : List UInt8} (hne : data ≠ [])
    (hroom : s.transcript.length + data.length ≤ netTlsTranscriptSize) :
    netTlsTranscriptAppend data s = { s with transcript := s.transcript ++ data } := by
  have hpos := List.length_pos_iff.2 hne
  rw [netTlsTranscriptAppend, if_neg (by simpa using hne), if_neg (by omega)]

theorem length_clientKeyExchange {P : p256Curve.Point} {x y : List UInt8} (h : PointBytes P x y) :
    (clientKeyExchange x y).length = 70 := by
  simp only [clientKeyExchange, put24be, List.length_cons, List.length_append, List.length_nil,
    h.x_length, h.y_length]

/-- A segment that goes out at once and is answered later. -/
def Sending.answered (later : List (List UInt8)) : Sending := ⟨[], true, later⟩

theorem netTlsSendClientKeyExchange_honest {P : p256Curve.Point} {x y : List UInt8}
    (hbytes : PointBytes P x y)
    (hbuild : buildTlsClientKeyExchange p256FeMul 80 =
      some (recordHeader 0x16 70 ++ clientKeyExchange x y))
    (hkex : s.kex.serverKeyExchange = true) (hdone : s.kex.sigPointDone = true)
    (hmatch : s.kex.sigMatch = true) (hroom : s.transcript.length + 70 ≤ netTlsTranscriptSize)
    (later : List (List UInt8)) :
    netTlsSendClientKeyExchange p256FeMul tcpTlsPort (.answered later) s =
      (some (recordHeader 0x16 70 ++ clientKeyExchange x y), capturePayloads p256FeMul later
        { s with
          transcript := s.transcript ++ clientKeyExchange x y
          clientFinishedValid := false
          clientKeyExchange := true }) := by
  have hlen := length_clientKeyExchange hbytes
  have hne : clientKeyExchange x y ≠ [] := List.cons_ne_nil _ _
  have happend := transcriptAppend_eq (s := { s with clientKeyExchange := false }) hne
    (by rw [hlen]; exact hroom)
  have hdrop : (recordHeader 0x16 70 ++ clientKeyExchange x y).drop 5 = clientKeyExchange x y :=
    List.drop_left' (length_recordHeader 0x16 70)
  unfold netTlsSendClientKeyExchange
  generalize buildTlsClientKeyExchange p256FeMul 80 = built at hbuild ⊢
  subst hbuild
  simp only [hkex, hdone, hmatch, hdrop, happend, Sending.answered, capturePayloads,
    List.foldl_nil, bne_self_eq_false, Bool.not_true, Bool.false_eq_true, if_false, if_true]

theorem netTlsDeriveKeys_honest (hkex : Offers t s.kex) (ht : t ≠ 0)
    (hclient : s.clientKeyExchange = true) (hc : s.clientRandom.length = 32)
    (hs : s.serverRandom.length = 32) :
    ∃ secret, SecretOf (times t (times clientScalar generator)) secret ∧
      netTlsDeriveKeys p256FeMul s =
        (true, { s with keys := peerKeys secret s.clientRandom s.serverRandom }) := by
  obtain ⟨secret, hsecret, hderive⟩ := deriveKeys_agree hkex ht hclient
  rw [deriveFrom_eq secret hc hs] at hderive
  exact ⟨secret, hsecret, hderive⟩

theorem netTlsComputeFinished_honest (hkey : s.keys.keyBlockValid = true)
    (hmaster : s.keys.masterSecretValid = true) (hne : s.transcript ≠ [])
    (hoverflow : s.transcriptOverflow = false) :
    netTlsComputeFinished p256FeMul s = (true, { s with
      clientFinished := peerVerifyData s.keys.masterSecret "client finished" s.transcript
      clientFinishedValid := true }) := by
  have hsome : s.transcript.isEmpty = false := by simpa using hne
  have hdata := verifyData_eq "client finished" s.keys.masterSecret s.transcript
    (by decide)
  unfold netTlsComputeFinished
  dsimp only
  rw [hkey, if_pos rfl]
  dsimp only
  rw [if_neg (by decide), hmaster, if_neg (by decide), hsome, hoverflow, if_neg (by decide), hdata,
    Option.getD_some]

/-! ## Finished -/

theorem length_peerVerifyData (masterSecret : List UInt8) (label : String)
    (transcript : List UInt8) : (peerVerifyData masterSecret label transcript).length = 12 :=
  length_prf ..

theorem length_finishedMessage {data : List UInt8} (h : data.length = 12) :
    (finishedMessage data).length = 16 := by
  simp only [finishedMessage, put24be, List.length_cons, List.length_append, List.length_nil, h]

/-- The Finished message of the server, over the same messages. -/
theorem serverFinished_accepted {explicit : List UInt8} (hexplicit : explicit.length = 8)
    (hlen : s.keys.keyBlock.length = 40) (hkey : s.keys.keyBlockValid = true)
    (hsent : s.finishedTx = true) :
    netTlsProcessServerFinishedRecord (sealBody (serverKey s.keys) (serverIv s.keys) 0 0x16 explicit
        (finishedMessage (peerVerifyData s.keys.masterSecret "server finished" s.transcript))) s =
      { s with
        serverFinishedRx := true
        serverFinishedDecrypt := true
        serverFinishedVerify := true } := by
  have hdata := length_peerVerifyData s.keys.masterSecret "server finished" s.transcript
  have hmessage := length_finishedMessage hdata
  have hbody := length_sealBody (serverIv s.keys) 0x16 (finishedMessage
    (peerVerifyData s.keys.masterSecret "server finished" s.transcript)) (length_serverKey hlen)
      hexplicit 0
  have hopen := openBody_sealBody (serverIv s.keys) 0x16 (finishedMessage
    (peerVerifyData s.keys.masterSecret "server finished" s.transcript)) (length_serverKey hlen)
      hexplicit 0 0
  have hverify := verifyData_eq "server finished" s.keys.masterSecret s.transcript
    (by decide)
  rw [if_pos rfl] at hopen
  rw [hmessage] at hbody
  unfold netTlsProcessServerFinishedRecord
  dsimp only
  rw [if_neg (by omega), hsent, hkey, if_neg (by decide), if_neg (by omega), decryptRecord_eq,
    show (0 : UInt8).toNat = 0 from rfl, hopen]
  have hshape : ¬((sealBody (serverKey s.keys) (serverIv s.keys) 0 0x16 explicit (finishedMessage
      (peerVerifyData s.keys.masterSecret "server finished" s.transcript))).length - 8 - 16 ≠ 16 ∨
      (finishedMessage (peerVerifyData s.keys.masterSecret "server finished" s.transcript)).take 4 ≠
        0x14 :: put24be netTlsFinishedSize) := by
    rw [hbody, not_or, not_ne_iff, not_ne_iff]
    exact ⟨rfl, rfl⟩
  have hdrop : (finishedMessage (peerVerifyData s.keys.masterSecret "server finished"
      s.transcript)).drop 4 = peerVerifyData s.keys.masterSecret "server finished" s.transcript := rfl
  dsimp only
  rw [if_neg hshape, hdrop]
  exact if_pos hverify

theorem admit_changeCipherSpec (mul : ℕ → ℕ → ℕ) (body : List UInt8) (h : s.finishedTx = true) :
    admitRecord mul 0x14 body s = { s with serverCcsRx := true } := by
  have hnote : noteCcs 0x14 (noteRecord 0x14 s) = { s with serverCcsRx := true } :=
    if_pos (by rw [show (noteRecord 0x14 s).finishedTx = true from h]; rfl)
  unfold admitRecord
  rw [hnote]
  dsimp only
  rw [if_neg (by rw [h]; decide), if_neg (by cases s.appTx <;> decide), if_neg (by decide)]

theorem admit_finished (mul : ℕ → ℕ → ℕ) (body : List UInt8) (h : s.finishedTx = true) :
    admitRecord mul 0x16 body s =
      netTlsProcessServerFinishedRecord body { s with valid := true } := by
  have hnote : noteCcs 0x16 (noteRecord 0x16 s) = { s with valid := true } :=
    if_neg (by rw [show (noteRecord 0x16 s).finishedTx = true from h]; decide)
  unfold admitRecord
  rw [hnote]
  dsimp only
  rw [if_pos (by rw [h]; rfl)]

/-- What the server answers the Finished message of the client with. -/
def finishedAnswer (k : Keys) (explicit transcript : List UInt8) : List (UInt8 × List UInt8) :=
  [(0x14, [1]), (0x16, sealBody (serverKey k) (serverIv k) 0 0x16 explicit
    (finishedMessage (peerVerifyData k.masterSecret "server finished" transcript)))]

theorem finishedAnswer_admitted {k : Keys} {explicit : List UInt8} (hlen : k.keyBlock.length = 40)
    (hexplicit : explicit.length = 8) (transcript : List UInt8) :
    ∀ r ∈ finishedAnswer k explicit transcript, Admitted r.1 r.2.length := by
  have hbody := length_sealBody (serverIv k) 0x16 (finishedMessage
    (peerVerifyData k.masterSecret "server finished" transcript)) (length_serverKey hlen) hexplicit 0
  rw [length_finishedMessage (length_peerVerifyData ..)] at hbody
  intro r hr
  rw [finishedAnswer, List.mem_cons, List.mem_singleton] at hr
  obtain rfl | rfl := hr
  · exact ⟨by decide, by decide, by decide, by decide⟩
  · exact ⟨show (0x14 : UInt8) ≤ 0x16 by decide, show (0x16 : UInt8) ≤ 0x17 by decide,
      by dsimp only; omega, by dsimp only; omega⟩

/-- The client sends its Finished message, and accepts that of the server. -/
theorem netTlsSendFinished_honest {explicit : List UInt8}
    {groups : List (List (UInt8 × List UInt8))} (hexplicit : explicit.length = 8)
    (hquiet : Quiet s) (hvalid : s.clientFinishedValid = true) (hkey : s.keys.keyBlockValid = true)
    (hlen : s.keys.keyBlock.length = 40) (hdata : s.clientFinished.length = 12)
    (hroom : s.transcript.length + 16 ≤ netTlsTranscriptSize)
    (hgroups : groups.flatten = finishedAnswer s.keys explicit
      (s.transcript ++ finishedMessage s.clientFinished)) :
    netTlsSendFinished p256FeMul (.answered (groups.map (List.flatMap encodeRecord))) s =
      (some (changeCipherSpec ++ encryptRecord s.keys 0 0x16 (finishedMessage s.clientFinished)),
        { s with
          valid := true
          transcript := s.transcript ++ finishedMessage s.clientFinished
          finishedTx := true
          serverCcsRx := true
          serverFinishedRx := true
          serverFinishedDecrypt := true
          serverFinishedVerify := true }) := by
  have hne : finishedMessage s.clientFinished ≠ [] := List.cons_ne_nil _ _
  have happend := transcriptAppend_eq (s := { s with finishedTx := true }) hne
    (by rw [length_finishedMessage hdata]; exact hroom)
  have hadmitted : ∀ r ∈ groups.flatten, Admitted r.1 r.2.length := by
    rw [hgroups]
    exact finishedAnswer_admitted hlen hexplicit _
  have hcapture := @foldl_capture_groups p256FeMul groups
    ({ s with
      finishedTx := true
      transcript := s.transcript ++ finishedMessage s.clientFinished })
    hadmitted ⟨hquiet.recordPending, hquiet.appPendingLen⟩
  have haccept := serverFinished_accepted (s := { s with
      valid := true
      transcript := s.transcript ++ finishedMessage s.clientFinished
      finishedTx := true
      serverCcsRx := true }) hexplicit hlen hkey rfl
  rw [hgroups, finishedAnswer, List.foldl_cons, List.foldl_cons, List.foldl_nil,
    admit_changeCipherSpec _ _ rfl, admit_finished _ _ rfl] at hcapture
  dsimp only at hcapture
  unfold netTlsSendFinished
  simp only [if_pos hvalid, hkey, happend, Sending.answered, capturePayloads, List.foldl_nil,
    Bool.not_true, Bool.false_eq_true, if_false]
  rw [hcapture]
  exact congrArg (Prod.mk _) haccept

/-! ## The request -/

theorem length_buildHttpRequest {target : Target} {max : ℕ} {request : List UInt8}
    (h : Browser.buildHttpRequest target max = some request) : request.length < max := by
  unfold Browser.buildHttpRequest at h
  dsimp only at h
  split_ifs at h with hlong
  obtain rfl := Option.some.inj h
  omega

/-- The record of a request has room in the payload. -/
theorem request_fits {target : Target} {request : List UInt8}
    (hrequest : Browser.buildHttpRequest target 132 = some request) {k : Keys}
    (hlen : k.keyBlock.length = 40) : ¬(encryptRecord k 1 0x17 request).length > 160 := by
  have hshort := length_buildHttpRequest hrequest
  have hbody := length_sealBody (clientIv k) 0x17 request (length_clientKey hlen)
    (show ([0, 0, 0, 0, 0, 0, 0, 1] : List UInt8).length = 8 from rfl) (UInt8.toNat 1)
  rw [encryptRecord_eq]
  simp only [List.length_cons, List.length_append, put16be, List.length_nil, hbody]
  omega

/-- The request goes out, and its answer is taken in. -/
theorem netTlsSendHttpGet_honest {target : Target} {request : List UInt8}
    {payloads : List (List UInt8)} (hrequest : Browser.buildHttpRequest target 132 = some request)
    (hverify : s.serverFinishedVerify = true) (hkey : s.keys.keyBlockValid = true)
    (hlen : s.keys.keyBlock.length = 40) :
    netTlsSendHttpGet p256FeMul target tcpTlsPort (.answered payloads) s =
      (some (encryptRecord s.keys 1 0x17 request), capturePayloads p256FeMul payloads
        { s with
          appTx := true
          appRx := false
          appDecrypt := false
          appResponseLen := 0
          appPendingLen := 0
          appRecord := []
          http := .reset }) := by
  unfold netTlsSendHttpGet netTlsAppPendingReset
  simp only [hverify, hkey, hrequest, if_neg (request_fits hrequest hlen), Sending.answered, capturePayloads,
    List.foldl_nil, bne_self_eq_false, Bool.not_true, Bool.false_eq_true, if_false]

/-! ## The answer -/

/-- A number is known by its bytes. -/
theorem eq_of_bytes (k : ℕ) : ∀ {m n : ℕ}, m < 256 ^ k → n < 256 ^ k →
    (∀ j < k, m / 256 ^ j % 256 = n / 256 ^ j % 256) → m = n := by
  induction k with
  | zero =>
    intro m n hm hn _
    rw [pow_zero] at hm hn
    omega
  | succ k ih =>
    intro m n hm hn h
    have hhigh : m / 256 = n / 256 := by
      refine ih (Nat.div_lt_of_lt_mul (by rwa [pow_succ, mul_comm] at hm))
        (Nat.div_lt_of_lt_mul (by rwa [pow_succ, mul_comm] at hn)) fun j hj => ?_
      have := h (j + 1) (by omega)
      rwa [pow_succ, mul_comm, ← Nat.div_div_eq_div_mul, ← Nat.div_div_eq_div_mul] at this
    have hlow := h 0 (by omega)
    rw [pow_zero, Nat.div_one, Nat.div_one] at hlow
    omega

theorem length_peerAad (number : ℕ) (type : UInt8) (length : ℕ) :
    (peerAad number type length).length = 13 := by
  simp [peerAad, put16be]

theorem peerAad_inj {m n : ℕ} (hm : m < 2 ^ 64) (hn : n < 2 ^ 64) (type : UInt8) (length : ℕ) :
    peerAad m type length = peerAad n type length ↔ m = n := by
  refine ⟨fun h => ?_, fun h => by rw [h]⟩
  have hnumber := (List.append_inj (List.append_inj h (by simp)).1 (by simp)).1
  refine eq_of_bytes 8 hm hn fun j hj => ?_
  have hbyte := List.map_inj_left.1 hnumber (7 - j) (List.mem_range.2 (by omega))
  rw [show 7 - (7 - j) = j by omega] at hbyte
  simpa only [UInt8.toNat_ofNat'] using congrArg UInt8.toNat hbyte

/-- The records of an answer, from number 1 on. -/
def answerBodies (k : Keys) (explicit : ℕ → List UInt8) (texts : List (List UInt8)) :
    List (List UInt8) :=
  (texts.zipIdx 1).map fun (text, number) =>
    sealBody (serverKey k) (serverIv k) number 0x17 (explicit number) text

/-- A text that fits in a record with the rest of it. -/
def AnswerFits (text : List UInt8) : Prop := 0 < text.length ∧ text.length + 24 ≤ netHttpCaptureSize

/-- Of the records of the server, that with the number 1 is taken. -/
theorem appDataPlain_sealed {k : Keys} {explicit text : List UInt8} {number : ℕ}
    (hlen : k.keyBlock.length = 40) (hexplicit : explicit.length = 8) (hfits : AnswerFits text)
    (hnumber : number < 2 ^ 64) :
    appDataPlain k (sealBody (serverKey k) (serverIv k) number 0x17 explicit text) =
      if number = 1 ∨ Ghash.hashKey (serverKey k) = List.replicate 16 0 then some text
      else none := by
  have hkey := length_serverKey hlen
  have hbody := length_sealBody (serverIv k) 0x17 text hkey hexplicit number
  have hbound : ¬((sealBody (serverKey k) (serverIv k) number 0x17 explicit text).length - 8 - 16 = 0 ∨
      (sealBody (serverKey k) (serverIv k) number 0x17 explicit text).length - 8 - 16 >
        netHttpCaptureSize) := by
    obtain ⟨hpos, hmax⟩ := hfits
    omega
  rw [appDataPlain, if_neg hbound, decryptRecord_eq, show (1 : UInt8).toNat = 1 from rfl,
    openBody_sealBody _ _ _ hkey hexplicit]
  refine if_congr ?_ rfl rfl
  rw [Ghash.gcmTag_aad_iff hkey (length_peerAad ..) (length_peerAad ..),
    peerAad_inj (by decide) hnumber, eq_comm]

theorem AnswerFits.body {k : Keys} {explicit text : List UInt8} (hlen : k.keyBlock.length = 40)
    (hexplicit : explicit.length = 8) (hfits : AnswerFits text) (number : ℕ) :
    AppDataFits (sealBody (serverKey k) (serverIv k) number 0x17 explicit text) := by
  obtain ⟨hpos, hmax⟩ := hfits
  have hbody := length_sealBody (serverIv k) 0x17 text (length_serverKey hlen) hexplicit number
  exact ⟨by omega, by omega⟩

/-- The texts of an answer that the client takes. -/
def takenTexts (k : Keys) (texts : List (List UInt8)) : List (List UInt8) :=
  if Ghash.hashKey (serverKey k) = List.replicate 16 0 then texts else texts.take 1

theorem filterMap_zipIdx {p : Prop} [Decidable p] (texts : List (List UInt8)) :
    ∀ {n : ℕ}, 0 < n → (texts.zipIdx n).filterMap (fun (text, number) =>
      if number = 1 ∨ p then some text else none) =
        if p then texts else if n = 1 then texts.take 1 else [] := by
  induction texts with
  | nil => simp
  | cons text texts ih =>
    intro n hn
    have hlater := ih (Nat.succ_pos n)
    rw [List.zipIdx_cons, List.filterMap_cons]
    by_cases hp : p
    · simp only [hp, or_true, if_true] at hlater ⊢
      rw [hlater]
    · have hnot : ¬n + 1 = 1 := by omega
      simp only [hp, or_false, if_false, if_neg hnot] at hlater ⊢
      by_cases hone : n = 1
      · rw [if_pos hone, if_pos hone, hlater]
        rfl
      · rw [if_neg hone, if_neg hone, hlater]

theorem filterMap_answer {k : Keys} {explicit : ℕ → List UInt8} {texts : List (List UInt8)}
    (hlen : k.keyBlock.length = 40) (hexplicit : ∀ n, (explicit n).length = 8)
    (hfits : ∀ text ∈ texts, AnswerFits text) (hcount : texts.length + 1 ≤ 2 ^ 64) :
    (answerBodies k explicit texts).filterMap (appDataPlain k) = takenTexts k texts := by
  have hplain : ∀ r ∈ texts.zipIdx 1, appDataPlain k
      (sealBody (serverKey k) (serverIv k) r.2 0x17 (explicit r.2) r.1) =
        if r.2 = 1 ∨ Ghash.hashKey (serverKey k) = List.replicate 16 0 then some r.1 else none := by
    intro r hr
    obtain ⟨-, hlt, hmem⟩ := List.mem_zipIdx hr
    exact appDataPlain_sealed hlen (hexplicit r.2) (hfits r.1 (hmem ▸ List.getElem_mem _))
      (by omega)
  rw [answerBodies, List.filterMap_map]
  have hcongr := List.filterMap_congr hplain
  rw [filterMap_zipIdx texts Nat.one_pos] at hcongr
  exact hcongr

/-- The page is what the authentic records say, in their order. -/
theorem foldl_process (bodies : List (List UInt8)) : ∀ {s : Tls},
    (∀ body ∈ bodies, AppDataFits body) → s.appTx = true → s.keys.keyBlockValid = true →
      (bodies.foldl (fun s body => netTlsProcessAppDataRecord body s) s).http =
          (bodies.filterMap (appDataPlain s.keys)).foldl (fun h text => netHttpCapturePayload text h)
            s.http ∧
        (bodies.foldl (fun s body => netTlsProcessAppDataRecord body s) s).appDecrypt =
          (s.appDecrypt || !(bodies.filterMap (appDataPlain s.keys)).isEmpty) := by
  induction bodies with
  | nil => exact fun _ _ _ => ⟨rfl, (Bool.or_false _).symm⟩
  | cons body bodies ih =>
    intro s hfits happTx hkey
    rw [List.forall_mem_cons] at hfits
    have hprocess := processAppData_eq hfits.1.1 happTx hkey
    rw [List.foldl_cons, hprocess, List.filterMap_cons]
    cases appDataPlain s.keys body with
    | none => exact ih hfits.2 happTx hkey
    | some plain =>
      obtain ⟨hhttp, hdecrypt⟩ := ih (s := { s with
        appRx := true
        appDecrypt := true
        appResponseLen := body.length - 8 - 16
        http := netHttpCapturePayload plain s.http }) hfits.2 happTx hkey
      exact ⟨hhttp, hdecrypt.trans (by simp)⟩

theorem answer_fits {k : Keys} {explicit : ℕ → List UInt8} {texts : List (List UInt8)}
    (hlen : k.keyBlock.length = 40) (hexplicit : ∀ n, (explicit n).length = 8)
    (hfits : ∀ text ∈ texts, AnswerFits text) :
    ∀ body ∈ answerBodies k explicit texts, AppDataFits body := by
  intro body hbody
  obtain ⟨⟨text, number⟩, hmem, rfl⟩ := List.mem_map.1 hbody
  obtain ⟨-, -, htext⟩ := List.mem_zipIdx hmem
  exact (hfits text (htext ▸ List.getElem_mem _)).body hlen (hexplicit number) number

/-- An answer in records of the standard, cut into payloads outside of the headers. -/
structure Answers (k : Keys) (texts payloads : List (List UInt8)) : Prop where
  fits : ∀ text ∈ texts, AnswerFits text
  count : texts.length + 1 ≤ 2 ^ 64
  records : ∃ explicit : ℕ → List UInt8, (∀ n, (explicit n).length = 8) ∧
    payloads.flatten = Framing.stream appDataHeader (answerBodies k explicit texts) ∧
      ∀ ps qs, payloads = ps ++ qs →
        Framing.Outside appDataHeader (answerBodies k explicit texts) ps.flatten.length

/-- What an answer leaves of the page. -/
theorem capture_answer {texts payloads : List (List UInt8)} (hidle : AppDataIdle s)
    (hlen : s.keys.keyBlock.length = 40) (h : Answers s.keys texts payloads) :
    (capturePayloads p256FeMul payloads s).http =
        (takenTexts s.keys texts).foldl (fun h text => netHttpCapturePayload text h) s.http ∧
      (capturePayloads p256FeMul payloads s).appDecrypt =
        (s.appDecrypt || !(takenTexts s.keys texts).isEmpty) := by
  obtain ⟨explicit, hexplicit, hflat, hout⟩ := h.records
  have hbodies := answer_fits hlen hexplicit h.fits
  have hreceiver : Framing.Receiver appDataHeader AppDataFits AppDataIdle
      (netTlsCapturePayload p256FeMul) netTlsProcessAppDataRecord appDataPart := appDataReceiver
  have hpieces := hreceiver.foldl_pieces hbodies hidle hflat hout
  have hprocess := foldl_process (answerBodies s.keys explicit texts) hbodies hidle.appTx
    hidle.keyBlockValid
  rw [filterMap_answer hlen hexplicit h.fits h.count] at hprocess
  unfold capturePayloads
  rw [hpieces]
  exact hprocess

/-! ## The whole exchange -/

/-- Every step behind the key exchange succeeds. -/
theorem netHttpsGetUrlKeys_steps {mul : ℕ → ℕ → ℕ} (target : Target) (net : Https)
    {s s₁ s₂ s₃ s₄ : Tls} {finished get : List UInt8} (hkeys : s.keys.keyBlockValid = false)
    (hderive : netTlsDeriveKeys mul s = (true, s₁)) (hvalid : s₁.clientFinishedValid = false)
    (hcompute : netTlsComputeFinished mul s₁ = (true, s₂)) (hserver : s₂.serverFinishedVerify = false)
    (hfinished : netTlsSendFinished mul net.finished s₂ = (some finished, s₃))
    (hget : netTlsSendHttpGet mul target tcpTlsPort net.get s₃ = (some get, s₄)) :
    netHttpsGetUrlKeys mul target net s =
      ⟨s₄.appDecrypt && s₄.http.response.length > 0, [finished, get], s₄⟩ := by
  unfold netHttpsGetUrlKeys
  simp only [unlessDone, hkeys, hderive, hvalid, hcompute, hserver, hfinished, hget, Outcome.ofSent,
    Option.isSome_some, Option.toList_some, Bool.false_eq_true, if_false, if_true, Bool.true_and,
    List.nil_append, List.cons_append]

/-- The signature is accepted and the key exchange sent. -/
theorem netHttpsGetUrl_steps {mul : ℕ → ℕ → ℕ} (target : Target) (net : Https) {s s₁ s₂ : Tls}
    {cke : List UInt8} (hkex : s.kex.sigPointDone = false)
    (hverify : netTlsVerifyKexSignature s = (true, s₁)) (hcke : s₁.clientKeyExchange = false)
    (hsend : netTlsSendClientKeyExchange mul tcpTlsPort net.keyExchange s₁ = (some cke, s₂)) :
    netHttpsGetUrl mul target net s =
      { netHttpsGetUrlKeys mul target net s₂ with
        wire := cke :: (netHttpsGetUrlKeys mul target net s₂).wire } := by
  unfold netHttpsGetUrl
  simp only [unlessDone, hkex, hverify, hcke, hsend, Outcome.ofSent, Option.isSome_some,
    Option.toList_some, Bool.false_eq_true, if_false, if_true, List.nil_append, List.cons_append]

/-- The response of a page that was empty. -/
theorem response_of_texts (texts : List (List UInt8)) :
    (texts.foldl (fun h text => netHttpCapturePayload text h) Http.reset).response =
      texts.flatten.take netHttpCaptureSize := by
  rw [show Http.reset = Http.after [] none from rfl, foldl_after]
  rfl

theorem takenTexts_ne_nil (k : Keys) {texts : List (List UInt8)} (h : texts ≠ []) :
    ∃ text rest, takenTexts k texts = text :: rest ∧ text ∈ texts := by
  obtain ⟨text, rest, rfl⟩ := List.exists_cons_of_ne_nil h
  unfold takenTexts
  split
  · exact ⟨text, rest, rfl, List.mem_cons_self⟩
  · exact ⟨text, [], rfl, List.mem_cons_self⟩

/-- A page that was empty is one afterwards. -/
theorem page_taken {texts payloads : List (List UInt8)} (hidle : AppDataIdle s)
    (hlen : s.keys.keyBlock.length = 40) (hhttp : s.http = .reset) (htexts : texts ≠ [])
    (h : Answers s.keys texts payloads) :
    ((capturePayloads p256FeMul payloads s).appDecrypt &&
        (capturePayloads p256FeMul payloads s).http.response.length > 0) = true ∧
      (capturePayloads p256FeMul payloads s).http =
        (takenTexts s.keys texts).foldl (fun h text => netHttpCapturePayload text h) .reset := by
  obtain ⟨hpage, hdecrypt⟩ := capture_answer hidle hlen h
  rw [hhttp] at hpage
  refine ⟨?_, hpage⟩
  obtain ⟨text, rest, htaken, hmem⟩ := takenTexts_ne_nil s.keys htexts
  have hpos := (h.fits text hmem).1
  rw [hdecrypt, hpage, response_of_texts, htaken, Bool.and_eq_true, decide_eq_true_eq,
    List.length_take, List.flatten_cons, List.length_append]
  refine ⟨by simp, ?_⟩
  unfold netHttpCaptureSize
  omega

/-- What the server reads in a record of the client. -/
theorem openBody_encryptRecord {k : Keys} (hlen : k.keyBlock.length = 40) (number type : UInt8)
    (plain : List UInt8) :
    openBody (clientKey k) (clientIv k) number.toNat type
      ((encryptRecord k number type plain).drop 5) = some plain := by
  rw [encryptRecord_eq]
  have hdrop : (type :: 0x03 :: 0x03 :: (put16be (8 + plain.length + 16) ++ sealBody (clientKey k)
      (clientIv k) number.toNat type [0, 0, 0, 0, 0, 0, 0, number] plain)).drop 5 =
        sealBody (clientKey k) (clientIv k) number.toNat type [0, 0, 0, 0, 0, 0, 0, number] plain :=
    rfl
  rw [hdrop, openBody_sealBody _ _ _ (length_clientKey hlen) rfl, if_pos rfl]

/-- The client has sent its half of the key exchange, and holds an offer of the server `t`. -/
structure Agreeing (t : ZMod p256N) (s : Tls) : Prop where
  offers : Offers t s.kex
  scalar : t ≠ 0
  quiet : Quiet s
  clientKeyExchange : s.clientKeyExchange = true
  keyBlockValid : s.keys.keyBlockValid = false
  clientFinishedValid : s.clientFinishedValid = false
  serverFinishedVerify : s.serverFinishedVerify = false
  clientRandom : s.clientRandom.length = 32
  serverRandom : s.serverRandom.length = 32
  transcript_ne_nil : s.transcript ≠ []
  /-- The Finished message of the client has room in the transcript. -/
  transcript : s.transcript.length + 16 ≤ netTlsTranscriptSize
  transcriptOverflow : s.transcriptOverflow = false

/-- From there on, the one who offered goes through the session with the client. -/
theorem netHttpsGetUrlKeys_honest {target : Target} {request : List UInt8} (h : Agreeing t s)
    (hrequest : Browser.buildHttpRequest target 132 = some request) (keyExchange : Sending) :
    ∃ secret, SecretOf (times t (times clientScalar generator)) secret ∧
      let keys := peerKeys secret s.clientRandom s.serverRandom
      let finished := finishedMessage (peerVerifyData keys.masterSecret "client finished" s.transcript)
      let record := encryptRecord keys 0 0x16 finished
      let get := encryptRecord keys 1 0x17 request
      openBody (clientKey keys) (clientIv keys) 0 0x16 (record.drop 5) = some finished ∧
        openBody (clientKey keys) (clientIv keys) 1 0x17 (get.drop 5) = some request ∧
          ∀ (explicit : List UInt8) (groups : List (List (UInt8 × List UInt8)))
            (texts payloads : List (List UInt8)), explicit.length = 8 →
            groups.flatten = finishedAnswer keys explicit (s.transcript ++ finished) →
              texts ≠ [] → Answers keys texts payloads →
                let o := netHttpsGetUrlKeys p256FeMul target ⟨keyExchange,
                  .answered (groups.map (List.flatMap encodeRecord)), .answered payloads⟩ s
                o.ok = true ∧ o.wire = [changeCipherSpec ++ record, get] ∧
                  o.tls.http = (takenTexts keys texts).foldl
                    (fun h text => netHttpCapturePayload text h) .reset := by
  obtain ⟨secret, hsecret, hderive⟩ := netTlsDeriveKeys_honest h.offers h.scalar h.clientKeyExchange
    h.clientRandom h.serverRandom
  have hlen := length_keyBlock secret s.clientRandom s.serverRandom
  refine ⟨secret, hsecret, openBody_encryptRecord hlen 0 0x16 _,
    openBody_encryptRecord hlen 1 0x17 request, ?_⟩
  intro explicit groups texts payloads hexplicit hgroups htexts hanswers
  have hcompute := netTlsComputeFinished_honest
    (s := { s with keys := peerKeys secret s.clientRandom s.serverRandom })
    rfl rfl h.transcript_ne_nil h.transcriptOverflow
  have hfinished := netTlsSendFinished_honest
    (s := { s with
      keys := peerKeys secret s.clientRandom s.serverRandom
      clientFinished := peerVerifyData (peerKeys secret s.clientRandom s.serverRandom).masterSecret
        "client finished" s.transcript
      clientFinishedValid := true })
    hexplicit ⟨h.quiet.recordPending, h.quiet.appPendingLen⟩ rfl rfl hlen
    (length_peerVerifyData ..) h.transcript hgroups
  have hget : ∀ s : Tls, s.serverFinishedVerify = true → s.keys.keyBlockValid = true →
      s.keys.keyBlock.length = 40 → _ := fun s hverify hkey hlen =>
    @netTlsSendHttpGet_honest s target request payloads hrequest hverify hkey hlen
  have hsteps := netHttpsGetUrlKeys_steps target ⟨keyExchange,
    .answered (groups.map (List.flatMap encodeRecord)), .answered payloads⟩ h.keyBlockValid hderive
    h.clientFinishedValid hcompute h.serverFinishedVerify hfinished (hget _ rfl rfl hlen)
  dsimp only
  rw [hsteps]
  exact And.imp_right (And.intro rfl)
    (page_taken ⟨rfl, rfl, h.quiet.recordPending, rfl, rfl⟩ hlen rfl htexts hanswers)

/-- What is left by the two steps up to the key exchange, for an honest server. -/
def keyExchangeSent (x y : List UInt8) (s : Tls) : Tls :=
  { s with
    kex := { s.kex with sigPointDone := true, sigMatch := true }
    transcript := s.transcript ++ clientKeyExchange x y
    clientFinishedValid := false
    clientKeyExchange := true }

theorem Greeted.agreeing {x y : List UInt8} {P : p256Curve.Point} (h : Greeted d t k s)
    (hfresh : Fresh s) (hbytes : PointBytes P x y) : Agreeing t (keyExchangeSent x y s) where
  offers := ⟨h.offers.serverKeyExchange, h.offers.pubkeyValid, h.offers.params⟩
  scalar := h.scalar
  quiet := ⟨hfresh.quiet.recordPending, hfresh.quiet.appPendingLen⟩
  clientKeyExchange := rfl
  keyBlockValid := hfresh.keyBlockValid
  clientFinishedValid := rfl
  serverFinishedVerify := hfresh.serverFinishedVerify
  clientRandom := h.clientRandom
  serverRandom := h.serverRandom
  transcript_ne_nil := by simp [keyExchangeSent, clientKeyExchange]
  transcript := by
    have hroom := h.transcript
    simp only [keyExchangeSent, List.length_append, length_clientKeyExchange hbytes]
    omega
  transcriptOverflow := h.transcriptOverflow

/-- Up to the key exchange, and the payloads `later` behind it. -/
theorem netHttpsGetUrl_greeted {target : Target} {later : List (List UInt8)} {x y : List UInt8}
    {P : p256Curve.Point} {finished get : Sending} (h : Greeted d t k s) (hfresh : Fresh s)
    (hbytes : PointBytes P x y)
    (hbuild : buildTlsClientKeyExchange p256FeMul 80 =
      some (recordHeader 0x16 70 ++ clientKeyExchange x y)) :
    let o := netHttpsGetUrlKeys p256FeMul target ⟨.answered later, finished, get⟩
      (capturePayloads p256FeMul later (keyExchangeSent x y s))
    netHttpsGetUrl p256FeMul target ⟨.answered later, finished, get⟩ s =
      { o with wire := (recordHeader 0x16 70 ++ clientKeyExchange x y) :: o.wire } := by
  have hroom := h.transcript
  have hsend := netTlsSendClientKeyExchange_honest
    (s := { s with kex := { s.kex with sigPointDone := true, sigMatch := true } }) hbytes hbuild
    h.offers.serverKeyExchange rfl rfl (by dsimp only; omega) later
  exact netHttpsGetUrl_steps target _ hfresh.sigPointDone (netTlsVerifyKexSignature_honest h)
    hfresh.clientKeyExchange hsend

/-- The offer of a server whose scalars are 1. -/
def paramsOne : List UInt8 :=
  0x03 :: 0x00 :: 0x17 :: 65 :: 0x04 :: (p256FeToBe32 p256Gx ++ p256FeToBe32 p256Gy)

/-- What such a server signs for a client of zeros. -/
def hashOne : ℕ := p256FeFromBe32 (sha256Hash (zeros32 ++ zeros32 ++ paramsOne))

/-- The client that has its flight. -/
def greetedOne : Tls :=
  let s := Tls.reset (chars "a") zeros32
  { s with
    transcript := [0x01]
    x509 := { s.x509 with
      pubkeyAlg := 2
      pubkeyCurve := 1
      pubkeyLen := 65
      pubkeyX := p256FeToBe32 p256Gx
      pubkeyY := p256FeToBe32 p256Gy }
    kex := { s.kex with
      serverKeyExchange := true
      pubkeyValid := true
      params := paramsOne
      sigHash := 4
      sigAlg := 3
      sigRLen := 32
      sigSLen := 32
      sigR := p256FeToBe32 (p256Gx % p256N)
      sigS := p256FeToBe32 ((hashOne + p256Gx) % p256N) } }

theorem pointBytes_generator :
    PointBytes generator (p256FeToBe32 p256Gx) (p256FeToBe32 p256Gy) := by
  refine ⟨length_feToBe32 _, length_feToBe32 _, _, _, _, rfl, ?_, ?_⟩
  · rw [feFromBe32_toBe32 (by decide)]
    exact (ZMod.val_natCast_of_lt (by decide)).symm
  · rw [feFromBe32_toBe32 (by decide)]
    exact (ZMod.val_natCast_of_lt (by decide)).symm

theorem hashOne_ne_zero : (hashOne + p256Gx) % p256N ≠ 0 := by decide +kernel

theorem signed_one : Signed 1 1 (p256FeFromBe32 (p256FeToBe32 p256Gx))
    (p256FeFromBe32 (p256FeToBe32 p256Gy)) (p256FeFromBe32 (p256FeToBe32 (p256Gx % p256N)))
    (p256FeFromBe32 (p256FeToBe32 ((hashOne + p256Gx) % p256N))) hashOne := by
  have hx : (p256Gx : ZMod p256P).val = p256Gx := ZMod.val_natCast_of_lt (by decide)
  have hne := hashOne_ne_zero
  generalize hashOne = hash at *
  have hs : p256FeFromBe32 (p256FeToBe32 ((hash + p256Gx) % p256N)) = (hash + p256Gx) % p256N :=
    feFromBe32_toBe32 (Nat.lt_trans (Nat.mod_lt _ p256N_prime.pos) (by decide))
  have hr : p256FeFromBe32 (p256FeToBe32 (p256Gx % p256N)) = p256Gx % p256N :=
    feFromBe32_toBe32 (by decide)
  refine ⟨keyOf_one, ⟨_, _, _, times_one generator, by rw [hx, hr]⟩, by rw [hr]; decide, ?_, ?_⟩
  · rw [hs, hr, @inv_one (ZMod p256N), one_mul, mul_one, ZMod.natCast_mod, ← Nat.cast_add, ZMod.val_natCast]
  · rw [hs]
    exact Nat.pos_of_ne_zero hne

theorem greeted_one : Greeted 1 1 1 greetedOne where
  offers := ⟨rfl, rfl, _, _, (show times (1 : ZMod p256N) generator = _ from times_one _).symm ▸ pointBytes_generator, rfl⟩
  scalar := one_ne_zero' (ZMod p256N)
  sigHash := rfl
  sigAlg := rfl
  sigRLen := ⟨by decide, by decide⟩
  sigSLen := ⟨by decide, by decide⟩
  pubkeyAlg := rfl
  pubkeyCurve := rfl
  pubkeyLen := rfl
  signed := signed_one
  clientRandom := rfl
  serverRandom := rfl
  transcript := by decide
  transcriptOverflow := rfl

theorem fresh_one : Fresh greetedOne := ⟨⟨rfl, rfl⟩, rfl, rfl, rfl, rfl, rfl, rfl, rfl⟩

theorem request_one : Browser.buildHttpRequest ⟨chars "a", chars "/"⟩ 132 =
    some (chars "GET / HTTP/1.0" ++ [13, 10] ++ chars "Host: a" ++ Browser.requestEnd) := by
  decide

def explicitOne (_ : ℕ) : List UInt8 := List.replicate 8 0

/-- An answer of one record in one payload. -/
theorem answers_one (k : Keys) {text : List UInt8} (h : AnswerFits text) :
    Answers k [text] [Framing.stream appDataHeader (answerBodies k explicitOne [text])] :=
  ⟨fun other hother => by rwa [List.mem_singleton.1 hother], show 1 + 1 ≤ 2 ^ 64 by decide,
    explicitOne, fun _ => rfl, List.append_nil _, fun _ _ => Framing.outside_whole⟩

theorem takenTexts_one (k : Keys) (text : List UInt8) : takenTexts k [text] = [text] := by
  rw [takenTexts, List.take_of_length_le (Nat.le_refl 1), ite_self]

end MinervaOS.Tls
