import MinervaOS.Tls.Exchange

/-!
# What a page is made of

Whatever the network does, a page that `net_https_get_url` succeeds with consists of texts that were
authentic under the keys of the session, and these keys are known to the one who sent the Finished
message. It does not say who that is: the signature is checked before the keys are derived, and the
key exchange that they are derived from may be a later one.
-/

namespace MinervaOS.Tls

open Crypto Net

/-! ## The transcript grows -/

variable {mul : ℕ → ℕ → ℕ} (s : Tls)

theorem prefix_append (data : List UInt8) :
    s.transcript <+: (netTlsTranscriptAppend data s).transcript := by
  unfold netTlsTranscriptAppend
  split_ifs
  · exact List.prefix_rfl
  · exact List.prefix_rfl
  · exact List.prefix_append _ _

theorem prefix_appendCertificate :
    s.transcript <+: (netTlsTranscriptAppendCertificate s).transcript := by
  unfold netTlsTranscriptAppendCertificate netTlsTranscriptAppendMessage
  split_ifs
  · exact List.prefix_rfl
  · exact List.prefix_rfl
  · exact List.prefix_rfl
  · exact (prefix_append s _).trans (prefix_append _ _)

theorem transcript_note (type : UInt8) (length rx : ℕ) :
    (netTlsNoteHandshake type length rx s).transcript = s.transcript := by
  unfold netTlsNoteHandshake
  split_ifs <;> rfl

theorem transcript_captureCertificateBytes (src : List UInt8) (offset len : ℕ) :
    (netTlsCaptureCertificateBytes src offset len s).transcript = s.transcript := by
  unfold netTlsCaptureCertificateBytes
  split_ifs <;> rfl

theorem transcript_addPendingBytes (add : ℕ) :
    (netTlsAddPendingBytes add s).transcript = s.transcript := by
  unfold netTlsAddPendingBytes
  dsimp only
  split_ifs <;> rfl

theorem transcript_parseIfCertificate : (parseIfCertificate mul s).transcript = s.transcript := by
  unfold parseIfCertificate
  split_ifs <;> rfl

theorem transcript_serverHello (body : List UInt8) :
    (captureServerHello body s).transcript = s.transcript := by
  unfold captureServerHello
  split_ifs <;> rfl

theorem prefix_captureMessage (type : UInt8) (len : ℕ) (header rest : List UInt8) :
    s.transcript <+: (captureMessage mul type len header rest s).transcript := by
  have happend : ∀ data rx, s.transcript <+:
      (netTlsTranscriptAppend data (netTlsNoteHandshake type len rx s)).transcript := fun data rx =>
    transcript_note s type len rx ▸ prefix_append (netTlsNoteHandshake type len rx s) data
  unfold captureMessage
  dsimp only
  split_ifs
  · exact List.prefix_rfl
  · rw [transcript_serverHello]
    exact happend _ _
  · refine List.IsPrefix.trans ?_ (prefix_appendCertificate _)
    show s.transcript <+: (netTlsCaptureCertificateBytes _ _ _ _).transcript
    rw [transcript_captureCertificateBytes, transcript_note]
  · rw [transcript_note]
  · exact happend _ _
  · rw [transcript_note]
  · exact happend _ _

theorem prefix_captureMessages (fuel : ℕ) : ∀ (hs : List UInt8) (s : Tls),
    s.transcript <+: (captureMessages mul fuel hs s).transcript := by
  induction fuel with
  | zero => exact fun _ _ => List.prefix_rfl
  | succ fuel ih =>
    intro hs s
    unfold captureMessages
    dsimp only
    split_ifs
    · exact List.prefix_rfl
    · exact prefix_captureMessage s _ _ _ _
    · exact (prefix_captureMessage s _ _ _ _).trans (ih _ _)

theorem prefix_captureHandshake (hs : List UInt8) :
    s.transcript <+: (captureHandshake mul hs s).transcript := by
  unfold captureHandshake
  dsimp only
  split_ifs
  · exact prefix_captureMessages _ _ s
  · refine List.IsPrefix.trans ?_ (prefix_captureMessages _ _ _)
    rw [transcript_parseIfCertificate, transcript_addPendingBytes,
      transcript_captureCertificateBytes]
  · refine List.IsPrefix.trans ?_ (prefix_captureMessages _ _ _)
    rw [transcript_parseIfCertificate, transcript_addPendingBytes]

/-! ## What payloads can do -/

/-- A record of application data that is authentic says `text`. -/
def Authentic (k : Keys) (text : List UInt8) : Prop :=
  ∃ body, decryptRecord k 1 0x17 body = some text

/-- A Finished message under the keys of the server, over messages that begin with `transcript`. -/
def ServerFinished (k : Keys) (transcript : List UInt8) : Prop :=
  ∃ messages body plain, transcript <+: messages ∧ decryptRecord k 0 0x16 body = some plain ∧
    verifyData k.masterSecret "server finished" messages = some (plain.drop 4)

theorem ServerFinished.of_prefix {k : Keys} {transcript transcript' : List UInt8}
    (h : ServerFinished k transcript') (hextends : transcript <+: transcript') :
    ServerFinished k transcript := by
  obtain ⟨messages, body, plain, hmessages, hfinished⟩ := h
  exact ⟨messages, body, plain, hextends.trans hmessages, hfinished⟩

/-- Payloads may have taken `s` to `s'`. -/
structure Captured (s s' : Tls) : Prop where
  keys : s'.keys = s.keys
  finishedTx : s'.finishedTx = s.finishedTx
  appTx : s'.appTx = s.appTx
  transcript : s.transcript <+: s'.transcript
  /-- The server is only ever taken to have finished by its Finished message. -/
  verified : s'.serverFinishedVerify = true →
    s.serverFinishedVerify = true ∨ s.finishedTx = true ∧ ServerFinished s.keys s.transcript
  /-- The page grows by authentic texts. -/
  page : ∃ texts : List (List UInt8), (∀ text ∈ texts, s.appTx = true ∧ Authentic s.keys text) ∧
    s'.http = texts.foldl (fun h text => netHttpCapturePayload text h) s.http ∧
      s'.appDecrypt = (s.appDecrypt || !texts.isEmpty)

variable {s} {s' s'' : Tls}

theorem Captured.refl (s : Tls) : Captured s s :=
  ⟨rfl, rfl, rfl, List.prefix_rfl, .inl, [], by simp, rfl, (Bool.or_false _).symm⟩

theorem Captured.trans (h : Captured s s') (h' : Captured s' s'') : Captured s s'' := by
  obtain ⟨texts, hauthentic, hpage, hdecrypt⟩ := h.page
  obtain ⟨texts', hauthentic', hpage', hdecrypt'⟩ := h'.page
  refine ⟨h'.keys.trans h.keys, h'.finishedTx.trans h.finishedTx, h'.appTx.trans h.appTx,
    h.transcript.trans h'.transcript, fun hverify => ?_, texts ++ texts', ?_, ?_, ?_⟩
  · obtain hbefore | ⟨htx, hfinished⟩ := h'.verified hverify
    · exact h.verified hbefore
    · rw [h.keys] at hfinished
      exact .inr ⟨h.finishedTx ▸ htx, hfinished.of_prefix h.transcript⟩
  · rw [List.forall_mem_append]
    rw [h.appTx, h.keys] at hauthentic'
    exact ⟨hauthentic, hauthentic'⟩
  · rw [hpage', hpage, List.foldl_append]
  · rw [hdecrypt', hdecrypt, Bool.or_assoc]
    congr 1
    cases texts <;> simp

/-- Before the request is out, the page stays as it is. -/
theorem Captured.page_still (h : Captured s s') (happ : s.appTx = false) :
    s'.http = s.http ∧ s'.appDecrypt = s.appDecrypt := by
  obtain ⟨texts, hauthentic, hpage, hdecrypt⟩ := h.page
  cases texts with
  | nil => exact ⟨hpage, hdecrypt.trans (Bool.or_false _)⟩
  | cons text texts =>
    rw [(hauthentic text List.mem_cons_self).1] at happ
    cases happ

/-- Where no page and no flag of the channel changes. -/
theorem Captured.of_fields (hkeys : s'.keys = s.keys) (hfinished : s'.finishedTx = s.finishedTx)
    (happ : s'.appTx = s.appTx) (htranscript : s.transcript <+: s'.transcript)
    (hverify : s'.serverFinishedVerify = s.serverFinishedVerify) (hhttp : s'.http = s.http)
    (hdecrypt : s'.appDecrypt = s.appDecrypt) : Captured s s' :=
  ⟨hkeys, hfinished, happ, htranscript, fun h => .inl (hverify ▸ h), [], by simp, hhttp,
    hdecrypt.trans (Bool.or_false _).symm⟩

theorem Captured.of_channel (hchannel : s'.channel = s.channel)
    (htranscript : s.transcript <+: s'.transcript) : Captured s s' := by
  have hkeys := congrArg Tls.keys hchannel
  have hfinished := congrArg Tls.finishedTx hchannel
  have happ := congrArg Tls.appTx hchannel
  have hverify := congrArg Tls.serverFinishedVerify hchannel
  have hhttp := congrArg Tls.http hchannel
  have hdecrypt := congrArg Tls.appDecrypt hchannel
  exact .of_fields hkeys hfinished happ htranscript hverify hhttp hdecrypt

theorem captured_handshake (hs : List UInt8) (s : Tls) : Captured s (captureHandshake mul hs s) :=
  .of_channel (channel_captureHandshake s hs) (prefix_captureHandshake s hs)

theorem captured_note (type : UInt8) (s : Tls) : Captured s (noteRecord type s) := by
  unfold noteRecord
  split_ifs
  · exact .of_fields rfl rfl rfl List.prefix_rfl rfl rfl rfl
  · exact .refl s

theorem captured_ccs (type : UInt8) (s : Tls) : Captured s (noteCcs type s) := by
  unfold noteCcs
  split_ifs
  · exact .of_fields rfl rfl rfl List.prefix_rfl rfl rfl rfl
  · exact .refl s

/-- The one place that sets `tls_server_finished_verify`. -/
theorem captured_serverFinished (src : List UInt8) (s : Tls) :
    Captured s (netTlsProcessServerFinishedRecord src s) := by
  unfold netTlsProcessServerFinishedRecord
  dsimp only
  split
  · exact .refl s
  split
  · exact .refl s
  rename_i hready
  split
  · exact .of_fields rfl rfl rfl List.prefix_rfl rfl rfl rfl
  cases hplain : decryptRecord s.keys 0 0x16 src with
  | none => exact .of_fields rfl rfl rfl List.prefix_rfl rfl rfl rfl
  | some plain =>
    dsimp only
    split
    · exact .of_fields rfl rfl rfl List.prefix_rfl rfl rfl rfl
    split
    · rename_i hexpected
      have htx : s.finishedTx = true := by
        cases htx : s.finishedTx with
        | true => rfl
        | false => simp [htx] at hready
      exact ⟨rfl, rfl, rfl, List.prefix_rfl,
        fun _ => .inr ⟨htx, s.transcript, src, plain, List.prefix_rfl, hplain, hexpected⟩,
        [], by simp, rfl, (Bool.or_false _).symm⟩
    · exact .of_fields rfl rfl rfl List.prefix_rfl rfl rfl rfl

/-- The one place where the page of a session grows. -/
theorem captured_appData (src : List UInt8) (s : Tls) :
    Captured s (netTlsProcessAppDataRecord src s) := by
  unfold netTlsProcessAppDataRecord
  dsimp only
  split
  · exact .refl s
  split
  · exact .refl s
  rename_i hready
  split
  · exact .of_fields rfl rfl rfl List.prefix_rfl rfl rfl rfl
  cases hplain : decryptRecord s.keys 1 0x17 src with
  | none => exact .of_fields rfl rfl rfl List.prefix_rfl rfl rfl rfl
  | some plain =>
    have htx : s.appTx = true := by
      cases htx : s.appTx with
      | true => rfl
      | false => simp [htx] at hready
    refine ⟨rfl, rfl, rfl, List.prefix_rfl, .inl, [plain], ?_, rfl, (Bool.or_true _).symm⟩
    intro text htext
    rw [List.mem_singleton.1 htext]
    exact ⟨htx, src, hplain⟩

theorem captured_appPendingDone (s : Tls) : Captured s (netTlsAppPendingDone s) := by
  unfold netTlsAppPendingDone netTlsAppPendingReset
  split_ifs
  · exact (captured_appData s.appRecord s).trans
      (.of_fields rfl rfl rfl List.prefix_rfl rfl rfl rfl)
  · exact .refl s

theorem captured_appPendingContinue (payload : List UInt8) (s : Tls) :
    Captured s (netTlsAppPendingContinue payload s).2 := by
  unfold netTlsAppPendingContinue
  dsimp only
  split_ifs
  · exact .refl s
  · refine Captured.trans ?_ (captured_appPendingDone _)
    exact .of_fields rfl rfl rfl List.prefix_rfl rfl rfl rfl
  · exact captured_appPendingDone s

theorem captured_appPendingStart (src : List UInt8) (len : ℕ) (s : Tls) :
    Captured s (netTlsAppPendingStart src len s) := by
  unfold netTlsAppPendingStart
  split_ifs
  · exact .refl s
  · refine Captured.trans ?_ (captured_appPendingDone _)
    exact .of_fields rfl rfl rfl List.prefix_rfl rfl rfl rfl

theorem captured_continuePending (payload : List UInt8) (s : Tls) :
    Captured s (netTlsContinuePending mul payload s).2 := by
  have hcertificate : ∀ add (s : Tls), Captured s (netTlsTranscriptAppendCertificate
      (parseIfCertificate mul (netTlsAddPendingBytes add s))) := fun add s => by
    refine .of_channel ?_ (List.IsPrefix.trans ?_ (prefix_appendCertificate _))
    · rw [channel_appendCertificate, channel_parseIfCertificate, channel_addPendingBytes]
    · rw [transcript_parseIfCertificate, transcript_addPendingBytes]
  unfold netTlsContinuePending
  dsimp only
  split_ifs
  · exact .refl s
  · refine .trans (.trans (.of_channel (channel_captureCertificateBytes s _ _ _) ?_)
      (hcertificate _ _)) (.of_fields rfl rfl rfl List.prefix_rfl rfl rfl rfl)
    rw [transcript_captureCertificateBytes]
  · exact .trans (hcertificate _ _) (.of_fields rfl rfl rfl List.prefix_rfl rfl rfl rfl)

theorem captured_records (fuel : ℕ) : ∀ (record : List UInt8) (s : Tls),
    Captured s (captureRecords mul fuel record s) := by
  induction fuel with
  | zero => exact fun _ s => .refl s
  | succ fuel ih =>
    intro record s
    have hnote := captured_note (get8 record 0) s
    have hccs := hnote.trans (captured_ccs (get8 record 0) _)
    unfold captureRecords
    dsimp only
    split_ifs
    · exact .refl s
    · exact .refl s
    · exact .refl s
    · exact .refl s
    · exact (hccs.trans (captured_serverFinished _ _)).trans (ih _ _)
    · exact (hccs.trans (captured_appData _ _)).trans (ih _ _)
    · exact (hccs.trans (captured_handshake _ _)).trans (ih _ _)
    · exact hccs.trans (ih _ _)
    · exact hnote.trans (captured_appPendingStart _ _ _)
    · exact (hnote.trans (captured_handshake _ _)).trans
        (.of_fields rfl rfl rfl List.prefix_rfl rfl rfl rfl)
    · exact hnote.trans (.of_fields rfl rfl rfl List.prefix_rfl rfl rfl rfl)

theorem captured_payload (payload : List UInt8) (s : Tls) :
    Captured s (netTlsCapturePayload mul payload s) := by
  unfold netTlsCapturePayload
  split
  · exact .refl s
  · exact ((captured_continuePending payload s).trans (captured_appPendingContinue _ _)).trans
      (captured_records _ _ _)

variable (mul) in
theorem captured_payloads (payloads : List (List UInt8)) : ∀ s : Tls,
    Captured s (capturePayloads mul payloads s) := by
  induction payloads with
  | nil => exact fun s => .refl s
  | cons payload payloads ih => exact fun s => (captured_payload payload s).trans (ih _)

/-! ## The steps of a session -/

/-- The Finished message of the client is not out yet, nor that of the server taken. -/
structure Unfinished (transcript : List UInt8) (s : Tls) : Prop where
  finishedTx : s.finishedTx = false
  serverFinishedVerify : s.serverFinishedVerify = false
  transcript : transcript <+: s.transcript

variable {transcript : List UInt8}

theorem Unfinished.captured (h : Unfinished transcript s) (hcaptured : Captured s s') :
    Unfinished transcript s' where
  finishedTx := hcaptured.finishedTx.trans h.finishedTx
  serverFinishedVerify := by
    by_contra hverify
    obtain hbefore | ⟨htx, -⟩ := hcaptured.verified (Bool.not_eq_false _ ▸ hverify)
    · rw [h.serverFinishedVerify] at hbefore
      exact Bool.false_ne_true hbefore
    · rw [h.finishedTx] at htx
      exact Bool.false_ne_true htx
  transcript := h.transcript.trans hcaptured.transcript

theorem Unfinished.verifyKex (h : Unfinished transcript s) :
    Unfinished transcript (netTlsVerifyKexSignature s).2 := by
  unfold netTlsVerifyKexSignature
  dsimp only
  repeat' split
  all_goals exact ⟨h.finishedTx, h.serverFinishedVerify, h.transcript⟩

theorem Unfinished.append (h : Unfinished transcript s) (data : List UInt8) :
    Unfinished transcript (netTlsTranscriptAppend data s) := by
  refine ⟨?_, ?_, h.transcript.trans (prefix_append s data)⟩
  · exact (congrArg Tls.finishedTx (channel_append s data) :).trans h.finishedTx
  · exact (congrArg Tls.serverFinishedVerify (channel_append s data) :).trans h.serverFinishedVerify

theorem Unfinished.keyExchange {port : UInt16} {net : Sending} (h : Unfinished transcript s) :
    Unfinished transcript (netTlsSendClientKeyExchange mul port net s).2 := by
  have hbegin : Unfinished transcript { s with clientKeyExchange := false } :=
    ⟨h.finishedTx, h.serverFinishedVerify, h.transcript⟩
  have hverify : Unfinished transcript (if s.kex.sigPointDone then
      (true, { s with clientKeyExchange := false })
    else netTlsVerifyKexSignature { s with clientKeyExchange := false }).2 := by
    split
    · exact hbegin
    · exact hbegin.verifyKex
  unfold netTlsSendClientKeyExchange
  dsimp only
  generalize (if s.kex.sigPointDone then (true, { s with clientKeyExchange := false })
    else netTlsVerifyKexSignature { s with clientKeyExchange := false }) = checked at hverify ⊢
  split
  · exact hbegin
  split
  · exact hverify
  split
  · exact hverify
  split
  · exact hverify
  split
  · exact hverify
  have hearly := hverify.captured (captured_payloads mul net.early _)
  split
  · exact hearly
  rename_i record _ _
  have happend := hearly.append (record.drop 5)
  refine Unfinished.captured ?_ (captured_payloads _ _ _)
  exact ⟨happend.finishedTx, happend.serverFinishedVerify, happend.transcript⟩

theorem Unfinished.derive (h : Unfinished transcript s) :
    Unfinished transcript (netTlsDeriveKeys mul s).2 := by
  unfold netTlsDeriveKeys
  dsimp only
  repeat' split
  all_goals exact ⟨h.finishedTx, h.serverFinishedVerify, h.transcript⟩

theorem Unfinished.compute (h : Unfinished transcript s) :
    Unfinished transcript (netTlsComputeFinished mul s).2 := by
  have hkeys : Unfinished transcript (if s.keys.keyBlockValid then
      (true, { s with clientFinishedValid := false })
    else netTlsDeriveKeys mul { s with clientFinishedValid := false }).2 := by
    have hbegin : Unfinished transcript { s with clientFinishedValid := false } :=
      ⟨h.finishedTx, h.serverFinishedVerify, h.transcript⟩
    split
    · exact hbegin
    · exact hbegin.derive
  unfold netTlsComputeFinished
  dsimp only
  generalize (if s.keys.keyBlockValid then (true, { s with clientFinishedValid := false })
    else netTlsDeriveKeys mul { s with clientFinishedValid := false }) = derived at hkeys ⊢
  repeat' split
  all_goals exact ⟨hkeys.finishedTx, hkeys.serverFinishedVerify, hkeys.transcript⟩

/-- Behind the Finished message of the client, that of the server is the only way on. -/
theorem serverFinished_of_sent {net : Sending} (h : Unfinished transcript s)
    (hverify : (netTlsSendFinished mul net s).2.serverFinishedVerify = true) :
    ServerFinished (netTlsSendFinished mul net s).2.keys transcript := by
  have hbegin : Unfinished transcript { s with finishedTx := false } :=
    ⟨rfl, h.serverFinishedVerify, h.transcript⟩
  have hcompute : Unfinished transcript (if s.clientFinishedValid then
      (true, { s with finishedTx := false })
    else netTlsComputeFinished mul { s with finishedTx := false }).2 := by
    split
    · exact hbegin
    · exact hbegin.compute
  revert hverify
  unfold netTlsSendFinished
  dsimp only
  generalize (if s.clientFinishedValid then (true, { s with finishedTx := false })
    else netTlsComputeFinished mul { s with finishedTx := false }) = computed at hcompute ⊢
  have hnot : ∀ {s'}, Unfinished transcript s' → s'.serverFinishedVerify = true →
      ServerFinished s'.keys transcript := fun h' hverify => by
    rw [h'.serverFinishedVerify] at hverify
    cases hverify
  split
  · exact hnot hcompute
  split
  · exact hnot hcompute
  have hearly := hcompute.captured (captured_payloads mul net.early _)
  split
  · exact hnot hearly
  intro hverify
  generalize hsent : netTlsTranscriptAppend (finishedMessage computed.2.clientFinished)
    { capturePayloads mul net.early computed.2 with finishedTx := true } = sent at hverify ⊢
  have hlater := captured_payloads mul net.later sent
  dsimp only at hverify ⊢
  rw [hlater.keys]
  have hprefix : transcript <+: sent.transcript :=
    hearly.transcript.trans (hsent ▸ prefix_append { capturePayloads mul net.early computed.2 with
      finishedTx := true } _)
  obtain hbefore | ⟨-, hfinished⟩ := hlater.verified hverify
  · have hsame := congrArg Tls.serverFinishedVerify (channel_append
      { capturePayloads mul net.early computed.2 with finishedTx := true }
      (finishedMessage computed.2.clientFinished))
    rw [hsent] at hsame
    exact absurd ((hsame.trans hearly.serverFinishedVerify).symm.trans hbefore) Bool.false_ne_true
  · exact hfinished.of_prefix hprefix

/-- The request goes out under the keys, and only authentic texts answer it. -/
theorem page_of_get {target : Target} {port : UInt16} {net : Sending} {get : List UInt8}
    (hget : netTlsSendHttpGet mul target port net s = (some get, s')) :
    s.serverFinishedVerify = true ∧ s'.keys = s.keys ∧
      (∃ request, Browser.buildHttpRequest target 132 = some request ∧
        get = encryptRecord s.keys 1 0x17 request) ∧
      ∃ texts : List (List UInt8), (∀ text ∈ texts, Authentic s.keys text) ∧
        s'.http = texts.foldl (fun h text => netHttpCapturePayload text h) .reset ∧
          s'.appDecrypt = !texts.isEmpty := by
  unfold netTlsSendHttpGet netTlsAppPendingReset at hget
  dsimp only at hget
  split at hget
  · cases hget
  rename_i hverify
  split at hget
  · cases hget
  split at hget
  · cases hget
  split at hget
  · cases hget
  rename_i request hrequest
  split at hget
  · cases hget
  generalize hstart : { s with
    appTx := false
    appRx := false
    appDecrypt := false
    appResponseLen := 0
    appPendingLen := 0
    appRecord := []
    http := Http.reset } = start at hget
  have hearly := captured_payloads mul net.early start
  split at hget
  · cases hget
  have happ : start.appTx = false := by rw [← hstart]
  have hreset : start.http = .reset := by rw [← hstart]
  have hplain : start.appDecrypt = false := by rw [← hstart]
  have hkeys : start.keys = s.keys := by rw [← hstart]
  obtain ⟨hhttp, hdecrypt⟩ := hearly.page_still happ
  generalize hout : { capturePayloads mul net.early start with appTx := true } = out at hget
  have hlater := captured_payloads mul net.later out
  obtain ⟨texts, hauthentic, hpage, hnone⟩ := hlater.page
  have hkeys' : out.keys = s.keys := by
    rw [← hout]
    exact hearly.keys.trans hkeys
  have hreset' : out.http = .reset := by
    rw [← hout]
    exact hhttp.trans hreset
  have hplain' : out.appDecrypt = false := by
    rw [← hout]
    exact hdecrypt.trans hplain
  rw [hkeys'] at hauthentic
  rw [hreset'] at hpage
  rw [hplain', Bool.false_or] at hnone
  obtain ⟨hsome, rfl⟩ := Prod.mk.inj hget
  obtain rfl := Option.some.inj hsome
  exact ⟨by simpa using hverify, hlater.keys.trans hkeys', ⟨request, hrequest, rfl⟩, texts,
    fun text htext => (hauthentic text htext).2, hpage, hnone⟩

/-- A chain of steps that succeeds: where `next` begins, and what it comes to. -/
theorem unlessDone_ok {done : Tls → Bool} {step next : Tls → Outcome}
    (h : (unlessDone done step next s).ok = true) :
    ∃ s', (s' = s ∧ done s = true ∨ s' = (step s).tls ∧ done s = false) ∧ (next s').ok = true ∧
      (unlessDone done step next s).tls = (next s').tls ∧
        ∃ wire, (unlessDone done step next s).wire = wire ++ (next s').wire := by
  revert h
  unfold unlessDone
  split
  · rename_i hdone
    exact fun h => ⟨s, .inl ⟨rfl, hdone⟩, h, rfl, [], rfl⟩
  dsimp only
  split
  · rename_i hdone _
    exact fun h => ⟨(step s).tls, .inr ⟨rfl, by simpa using hdone⟩, h, rfl, (step s).wire, rfl⟩
  · rename_i hfail
    exact fun h => absurd h hfail

theorem Unfinished.next {done : Tls → Bool} {step next : Tls → Outcome}
    (h : Unfinished transcript s) (hstep : Unfinished transcript (step s).tls)
    (hok : (unlessDone done step next s).ok = true) :
    ∃ s', Unfinished transcript s' ∧ (next s').ok = true ∧
      (unlessDone done step next s).tls = (next s').tls ∧
        ∃ wire, (unlessDone done step next s).wire = wire ++ (next s').wire := by
  obtain ⟨s', hs', hnext⟩ := unlessDone_ok hok
  refine ⟨s', ?_, hnext⟩
  obtain ⟨rfl, -⟩ | ⟨rfl, -⟩ := hs'
  · exact h
  · exact hstep

/-- With an honest server there is a way to succeed. -/
theorem exists_session {d t k : ZMod p256N} {target : Target} {request : List UInt8}
    (h : Greeted d t k s) (hfresh : Fresh s)
    (hrequest : Browser.buildHttpRequest target 132 = some request) :
    ∃ net : Https, (netHttpsGetUrl p256FeMul target net s).ok = true := by
  obtain ⟨x, y, hbytes, hbuild⟩ := buildTlsClientKeyExchange_eq
  obtain ⟨secret, -, -, -, hrest⟩ := netHttpsGetUrlKeys_honest (h.agreeing hfresh hbytes) hrequest
    (.answered [])
  obtain ⟨hok, -, -⟩ := hrest (explicitOne 0) [finishedAnswer _ _ _] [chars "hi"] _ rfl
    (List.append_nil _) (List.cons_ne_nil _ _) (answers_one _ ⟨by decide, by decide⟩)
  exact ⟨_, by rw [netHttpsGetUrl_greeted h hfresh hbytes hbuild]; exact hok⟩

end MinervaOS.Tls
