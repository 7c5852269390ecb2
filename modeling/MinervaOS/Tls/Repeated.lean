import MinervaOS.Tls.Authentic

/-!
# Two requests of one session

A second call of `net_tls_send_http_get` goes out under the keys of the first, and its record has the
number of the first, so the nonce is the same. What the two requests differ in can be read off their
records.
-/

namespace MinervaOS.Tls

open Crypto Net

variable {mul : ℕ → ℕ → ℕ} {s s' s'' : Tls}

/-! ## A server that has finished -/

/-- What is known of the server's Finished message is kept. -/
def Stays (s s' : Tls) : Prop := s.serverFinishedVerify = true → s'.serverFinishedVerify = true

theorem Stays.trans (h : Stays s s') (h' : Stays s' s'') : Stays s s'' := fun hs => h' (h hs)

theorem Stays.of_channel (h : s'.channel = s.channel) : Stays s s' := fun hs =>
  (congrArg Tls.serverFinishedVerify h).trans hs

theorem stays_note (type : UInt8) (s : Tls) : Stays s (noteCcs type (noteRecord type s)) := by
  unfold noteCcs noteRecord
  intro hs
  split_ifs <;> exact hs

theorem stays_serverFinished (src : List UInt8) (s : Tls) :
    Stays s (netTlsProcessServerFinishedRecord src s) := by
  unfold netTlsProcessServerFinishedRecord
  dsimp only
  intro hs
  split_ifs
  · exact hs
  · exact hs
  · exact hs
  · cases decryptRecord s.keys 0 0x16 src with
    | none => exact hs
    | some plain =>
      dsimp only
      split_ifs
      · exact hs
      · rfl
      · exact hs

theorem stays_appData (src : List UInt8) (s : Tls) : Stays s (netTlsProcessAppDataRecord src s) := by
  unfold netTlsProcessAppDataRecord
  dsimp only
  intro hs
  split_ifs
  · exact hs
  · exact hs
  · exact hs
  · cases decryptRecord s.keys 1 0x17 src <;> exact hs

theorem stays_appPendingDone (s : Tls) : Stays s (netTlsAppPendingDone s) := by
  unfold netTlsAppPendingDone netTlsAppPendingReset
  split_ifs
  · exact stays_appData s.appRecord s
  · exact fun hs => hs

theorem stays_continuePending (payload : List UInt8) (s : Tls) :
    Stays s (netTlsContinuePending mul payload s).2 := by
  have hcertificate : ∀ add (s : Tls), Stays s (netTlsTranscriptAppendCertificate
      (parseIfCertificate mul (netTlsAddPendingBytes add s))) := fun add s => by
    refine .of_channel ?_
    rw [channel_appendCertificate, channel_parseIfCertificate, channel_addPendingBytes]
  unfold netTlsContinuePending
  dsimp only
  split_ifs
  · exact fun hs => hs
  · exact fun hs =>
      hcertificate _ _ (Stays.of_channel (channel_captureCertificateBytes s payload _ _) hs)
  · exact fun hs => hcertificate _ _ hs

theorem stays_appPendingContinue (payload : List UInt8) (s : Tls) :
    Stays s (netTlsAppPendingContinue payload s).2 := by
  unfold netTlsAppPendingContinue
  dsimp only
  split_ifs
  · exact fun hs => hs
  · exact fun hs => stays_appPendingDone _ hs
  · exact stays_appPendingDone s

theorem stays_appPendingStart (src : List UInt8) (len : ℕ) (s : Tls) :
    Stays s (netTlsAppPendingStart src len s) := by
  unfold netTlsAppPendingStart
  split_ifs
  · exact fun hs => hs
  · exact fun hs => stays_appPendingDone _ hs

theorem stays_records (fuel : ℕ) : ∀ (record : List UInt8) (s : Tls),
    Stays s (captureRecords mul fuel record s) := by
  induction fuel with
  | zero => exact fun _ _ hs => hs
  | succ fuel ih =>
    intro record s
    have hnote : Stays s (noteRecord (get8 record 0) s) := fun hs => by
      unfold noteRecord
      split_ifs <;> exact hs
    have hccs := stays_note (get8 record 0) s
    unfold captureRecords
    dsimp only
    split_ifs
    · exact fun hs => hs
    · exact fun hs => hs
    · exact fun hs => hs
    · exact fun hs => hs
    · exact (hccs.trans (stays_serverFinished _ _)).trans (ih _ _)
    · exact (hccs.trans (stays_appData _ _)).trans (ih _ _)
    · exact (hccs.trans (.of_channel (channel_captureHandshake _ _))).trans (ih _ _)
    · exact hccs.trans (ih _ _)
    · exact hnote.trans (stays_appPendingStart _ _ _)
    · exact fun hs =>
        (Stays.of_channel (channel_captureHandshake (noteRecord (get8 record 0) s) _)) (hnote hs)
    · exact hnote

theorem stays_payload (payload : List UInt8) (s : Tls) :
    Stays s (netTlsCapturePayload mul payload s) := by
  unfold netTlsCapturePayload
  split
  · exact fun hs => hs
  · exact ((stays_continuePending payload s).trans (stays_appPendingContinue _ _)).trans
      (stays_records _ _ _)

theorem stays_payloads (payloads : List (List UInt8)) : ∀ s : Tls,
    Stays s (capturePayloads mul payloads s) := by
  induction payloads with
  | nil => exact fun _ hs => hs
  | cons payload payloads ih => exact fun s => (stays_payload payload s).trans (ih _)

/-! ## A request -/

section

variable (mul)

/-- The state that a request leaves. -/
theorem netTlsSendHttpGet_sent {target : Target} {request : List UInt8} {net : Sending}
    (hrequest : Browser.buildHttpRequest target 132 = some request) (hsent : net.sent = true)
    (hverify : s.serverFinishedVerify = true) (hkey : s.keys.keyBlockValid = true)
    (hlen : s.keys.keyBlock.length = 40) :
    (netTlsSendHttpGet mul target tcpTlsPort net s).1 =
        some (encryptRecord s.keys 1 0x17 request) ∧
      (netTlsSendHttpGet mul target tcpTlsPort net s).2.keys = s.keys ∧
        (netTlsSendHttpGet mul target tcpTlsPort net s).2.serverFinishedVerify = true := by
  unfold netTlsSendHttpGet netTlsAppPendingReset
  simp only [hverify, hkey, hrequest, if_neg (request_fits hrequest hlen), hsent,
    bne_self_eq_false, Bool.not_true, Bool.false_eq_true, if_false]
  refine ⟨trivial, ?_, ?_⟩
  · rw [(captured_payloads _ net.later _).keys]
    exact (captured_payloads _ net.early _).keys
  · exact stays_payloads net.later _ (stays_payloads net.early _ rfl)

/-- A record is thirteen bytes of header and nonce, then the ciphertext and its tag. -/
theorem encryptRecord_layout (k : Keys) (number type : UInt8) (plain : List UInt8) :
    ∃ header tag : List UInt8, header.length = 13 ∧ encryptRecord k number type plain = header ++
      (gcmCrypt (clientKey k) (clientIv k ++ [0, 0, 0, 0, 0, 0, 0, number]) plain ++ tag) := by
  have hrecord : encryptRecord k number type plain = [type, 3, 3] ++
      put16be (8 + plain.length + 16) ++ [0, 0, 0, 0, 0, 0, 0, number] ++
        ((aes128GcmEncrypt (clientKey k) (clientIv k ++ [0, 0, 0, 0, 0, 0, 0, number])
          (peerAad number.toNat type plain.length) plain).1 ++
        (aes128GcmEncrypt (clientKey k) (clientIv k ++ [0, 0, 0, 0, 0, 0, 0, number])
          (peerAad number.toNat type plain.length) plain).2) := by
    rw [encryptRecord_eq, sealBody]
    simp only [List.append_assoc, List.cons_append, List.nil_append]
  exact ⟨_, _, by simp [put16be], hrecord⟩

/-- The nonce that a record carries is its number. -/
theorem encryptRecord_nonce (k : Keys) (number type : UInt8) (plain : List UInt8) :
    ((encryptRecord k number type plain).drop 5).take 8 = [0, 0, 0, 0, 0, 0, 0, number] := by
  rw [encryptRecord_eq, sealBody]
  simp [put16be]

/-- A byte of the request, under the key stream. -/
theorem encryptRecord_getD {k : Keys} (hlen : k.keyBlock.length = 40) (number type : UInt8)
    (plain : List UInt8) {i : ℕ} (hi : i < plain.length) :
    (encryptRecord k number type plain).getD (13 + i) 0 = plain.getD i 0 ^^^
      GcmLoops.keyStream (clientKey k) (clientIv k ++ [0, 0, 0, 0, 0, 0, 0, number]) i := by
  have hkey := length_clientKey hlen
  have hcipher : i < (gcmCrypt (clientKey k) (clientIv k ++ [0, 0, 0, 0, 0, 0, 0, number])
      plain).length := by
    rwa [GcmLoops.length_gcmCrypt hkey]
  obtain ⟨header, tag, hheader, hrecord⟩ := encryptRecord_layout k number type plain
  rw [hrecord, ← GcmLoops.gcmCrypt_getD hkey _ _ hi, List.getD_append_right _ _ _ _ (by omega),
    List.getD_append _ _ _ _ (by omega), hheader, Nat.add_sub_cancel_left]

/-- Two requests of one session go out under one nonce, with whatever comes in between, and their
records differ as the requests do. -/
theorem requests_xor {target target' : Target} {request request' : List UInt8} {net net' : Sending}
    (hrequest : Browser.buildHttpRequest target 132 = some request)
    (hrequest' : Browser.buildHttpRequest target' 132 = some request')
    (hsent : net.sent = true) (hsent' : net'.sent = true) (hverify : s.serverFinishedVerify = true)
    (hkey : s.keys.keyBlockValid = true) (hlen : s.keys.keyBlock.length = 40)
    (payloads : List (List UInt8)) :
    ∃ record record' : List UInt8,
      (netTlsSendHttpGet mul target tcpTlsPort net s).1 = some record ∧
      (netTlsSendHttpGet mul target' tcpTlsPort net' (capturePayloads mul payloads
        (netTlsSendHttpGet mul target tcpTlsPort net s).2)).1 = some record' ∧
      (record.drop 5).take 8 = (record'.drop 5).take 8 ∧
      ∀ i, i < request.length → i < request'.length →
        record.getD (13 + i) 0 ^^^ record'.getD (13 + i) 0 =
          request.getD i 0 ^^^ request'.getD i 0 := by
  obtain ⟨hfirst, hkeys, hstays⟩ := netTlsSendHttpGet_sent mul hrequest hsent hverify
    hkey hlen
  have hcaptured : (capturePayloads mul payloads
      (netTlsSendHttpGet mul target tcpTlsPort net s).2).keys = s.keys :=
    (captured_payloads _ payloads _).keys.trans hkeys
  have hsecond : (netTlsSendHttpGet mul target' tcpTlsPort net' (capturePayloads mul payloads
      (netTlsSendHttpGet mul target tcpTlsPort net s).2)).1 =
        some (encryptRecord (capturePayloads mul payloads
          (netTlsSendHttpGet mul target tcpTlsPort net s).2).keys 1 0x17 request') :=
    (netTlsSendHttpGet_sent mul hrequest' hsent' (stays_payloads payloads _ hstays)
      (by rw [hcaptured]; exact hkey) (by rw [hcaptured]; exact hlen)).1
  rw [hcaptured] at hsecond
  refine ⟨_, _, hfirst, hsecond, ?_, fun i hi hi' => ?_⟩
  · rw [encryptRecord_nonce, encryptRecord_nonce]
  · rw [encryptRecord_getD hlen 1 0x17 request hi, encryptRecord_getD hlen 1 0x17 request' hi',
      UInt8.xor_comm (request'.getD i 0), UInt8.xor_assoc,
      ← UInt8.xor_assoc _ _ (request'.getD i 0), UInt8.xor_self, UInt8.zero_xor]

end

/-- A session past the server's Finished message. -/
def verified : Tls :=
  { Tls.reset [] zeros32 with
    serverFinishedVerify := true
    keys := { Keys.reset with keyBlockValid := true, keyBlock := List.replicate 40 7 } }

theorem requests_xor_verified :
    ∃ record record' : List UInt8,
      (netTlsSendHttpGet p256FeMul ⟨chars "a", chars "/"⟩ tcpTlsPort ⟨[], true, []⟩ verified).1 =
        some record ∧
      (netTlsSendHttpGet p256FeMul ⟨chars "a", chars "/b"⟩ tcpTlsPort ⟨[], true, []⟩
        (netTlsSendHttpGet p256FeMul ⟨chars "a", chars "/"⟩ tcpTlsPort ⟨[], true, []⟩ verified).2).1 =
        some record' ∧ record.getD 18 0 ^^^ record'.getD 18 0 = 0x20 ^^^ 0x62 := by
  have htwo : Browser.buildHttpRequest ⟨chars "a", chars "/b"⟩ 132 =
      some (chars "GET /b HTTP/1.0" ++ [13, 10] ++ chars "Host: a" ++ Browser.requestEnd) := by
    decide
  obtain ⟨record, record', h, h', -, hxor⟩ :=
    @requests_xor p256FeMul verified _ _ _ _ ⟨[], true, []⟩ ⟨[], true, []⟩ request_one htwo rfl rfl
      rfl rfl List.length_replicate []
  -- No payload comes in between; the kernel would compare the two requests before it sees that.
  rw [capturePayloads, List.foldl_nil] at h'
  exact ⟨record, record', h, h', hxor 5 (by decide) (by decide)⟩

end MinervaOS.Tls
