import MinervaOS.Tls.Authentic

/-!
# A key exchange behind the signature

The signature over the offer of the server is verified before the client sends its own half, and the
keys are derived after it. An offer that arrives in between takes the place of the one that was
signed, and need not be signed itself.
-/

namespace MinervaOS.Tls

open Crypto Net

/-- The parameters of an offer. -/
def offerParams (x y : List UInt8) : List UInt8 :=
  0x03 :: 0x00 :: 0x17 :: 65 :: 0x04 :: (x ++ y)

/-- A ServerKeyExchange that ends with its parameters. -/
def unsignedOffer (x y : List UInt8) : List UInt8 := 0x0C :: (put24be 69 ++ offerParams x y)

variable {t : ZMod p256N} {x y : List UInt8} {s : Tls}

/-- A record of handshake messages, before the Finished message of the client is out. -/
theorem admit_handshake (body : List UInt8) (htx : s.finishedTx = false) :
    admitRecord p256FeMul 0x16 body s = captureHandshake p256FeMul body { s with valid := true } := by
  have hnote : noteCcs 0x16 (noteRecord 0x16 s) = { s with valid := true } :=
    if_neg (by rw [show (noteRecord 0x16 s).finishedTx = false from htx]; decide)
  have hfinished : ¬(s.finishedTx && (0x16 : UInt8) == 0x16) = true := by
    rw [htx]
    decide
  have happ : ¬(s.appTx && (0x16 : UInt8) == 0x17) = true := by cases s.appTx <;> decide
  unfold admitRecord
  rw [hnote]
  dsimp only
  rw [if_neg hfinished, if_neg happ, if_pos (beq_self_eq_true _)]

section

variable (hbytes : PointBytes (times t generator) x y)
include hbytes

theorem length_offerParams : (offerParams x y).length = 69 := by
  simp only [offerParams, List.length_cons, List.length_append, hbytes.x_length, hbytes.y_length]

theorem length_unsignedOffer : (unsignedOffer x y).length = 73 := by
  rw [unsignedOffer, List.length_cons, List.length_append, length_offerParams hbytes]
  rfl

/-- What the client makes of it. -/
theorem parse_offerParams :
    Offers t (netTlsParseServerKeyExchange p256FeMul (offerParams x y)) := by
  have hlen := length_offerParams hbytes
  obtain ⟨p, hread, -⟩ := hbytes.read y []
  rw [List.append_nil] at hread
  have hx : (offerParams x y).drop 5 = x ++ y := rfl
  have hy : (offerParams x y).drop 37 = y := by
    have h : (offerParams x y).drop (5 + 32) = y := by
      rw [← List.drop_drop, hx, List.drop_left' hbytes.x_length]
    exact h
  have hvalid : (p256PointFromBe32 p256FeMul (((offerParams x y).drop 4).drop 1)
      (((offerParams x y).drop 4).drop 33)).isSome = true := by
    rw [List.drop_drop, List.drop_drop, hx, hy, hread]
    rfl
  have hfour : ¬(offerParams x y).length < 4 := by omega
  have hkey : ¬4 + 65 > (offerParams x y).length := by omega
  have hsig : 4 + 65 + 4 > (offerParams x y).length := by omega
  have htake : (offerParams x y).take (4 + 65) = offerParams x y :=
    List.take_of_length_le (Nat.le_of_eq hlen)
  have hcurve : get8 (offerParams x y) 0 = 3 := rfl
  have hnamed : get16be (offerParams x y) 1 = 0x17 :=
    show (0x00 : UInt8).toUInt16 <<< 8 ||| (0x17 : UInt8).toUInt16 = 0x17 by decide
  have hpoint : get8 (offerParams x y) 3 = 65 := rfl
  have hform : get8 ((offerParams x y).drop 4) 0 = 0x04 := rfl
  have hsize : 4 + 65 ≤ netTlsKexParamsSize := by decide
  unfold netTlsParseServerKeyExchange
  simp only [hfour, hcurve, hnamed, hpoint, hform, htake, hkey, hsig, hsize, hvalid, if_false, if_true,
    show (65 : UInt8).toNat = 65 from rfl, beq_self_eq_true, Bool.and_true]
  exact ⟨rfl, rfl, x, y, hbytes, rfl⟩

theorem unsignedOffer_admitted : Admitted 0x16 (unsignedOffer x y).length := by
  rw [length_unsignedOffer hbytes]
  exact ⟨by decide, by decide, by decide, by decide⟩

/-- An offer that comes in a record of its own replaces the one before it. -/
theorem capture_unsignedOffer (hquiet : Quiet s) (htx : s.finishedTx = false)
    (hpending : s.pendingHandshakeType = 0)
    (hroom : s.transcript.length + 73 ≤ netTlsTranscriptSize) :
    capturePayloads p256FeMul [encodeRecord (0x16, unsignedOffer x y)] s =
      { s with
        valid := true
        pendingHandshakeType := 0
        pendingHandshakeLen := 0
        pendingHandshakeRx := 0
        transcript := s.transcript ++ unsignedOffer x y
        kex := netTlsParseServerKeyExchange p256FeMul (offerParams x y) } := by
  have hparams := length_offerParams hbytes
  have hlen := length_unsignedOffer hbytes
  have hrecord := @foldl_capture_groups p256FeMul [[(0x16, unsignedOffer x y)]] s
    (fun r hr => by
      obtain rfl : r = (0x16, unsignedOffer x y) := by simpa using hr
      exact unsignedOffer_admitted hbytes) hquiet
  have hcaptured : capturePayloads p256FeMul [encodeRecord (0x16, unsignedOffer x y)] s =
      admitRecord p256FeMul 0x16 (unsignedOffer x y) s := by
    simpa [capturePayloads] using hrecord
  rw [hcaptured]
  rw [admit_handshake _ htx]
  have hnone : (s.pendingHandshakeType == 0 || decide (s.pendingHandshakeRx ≥ s.pendingHandshakeLen))
      = true := by
    rw [hpending]
    rfl
  have hshort : ¬(unsignedOffer x y).length < 4 := by omega
  have hhandshake : handshakeLen (unsignedOffer x y) = 69 :=
    show (UInt8.ofNat (69 / 65536)).toNat * 65536 + (UInt8.ofNat (69 / 256)).toNat * 256 +
      (UInt8.ofNat 69).toNat = 69 by decide
  have hbody : (unsignedOffer x y).drop 4 = offerParams x y := rfl
  have htype : get8 (unsignedOffer x y) 0 = 0x0C := rfl
  have hheader : (unsignedOffer x y).take 4 = 0x0C :: put24be 69 := rfl
  have hwhole : ¬69 > (offerParams x y).length := by omega
  have htake : (offerParams x y).take 69 = offerParams x y :=
    List.take_of_length_le (Nat.le_of_eq hparams)
  have hmessage : captureMessage p256FeMul 0x0C 69 (0x0C :: put24be 69) (offerParams x y)
      { s with valid := true } = { s with
        valid := true
        pendingHandshakeType := 0
        pendingHandshakeLen := 0
        pendingHandshakeRx := 0
        transcript := s.transcript ++ unsignedOffer x y
        kex := netTlsParseServerKeyExchange p256FeMul (offerParams x y) } := by
    have hne : unsignedOffer x y ≠ [] := List.cons_ne_nil _ _
    have hfits : s.transcript.length + (unsignedOffer x y).length ≤ netTlsTranscriptSize := by
      rw [hlen]
      exact hroom
    have happend := transcriptAppend_eq (s := { s with
      valid := true
      pendingHandshakeType := 0
      pendingHandshakeLen := 0
      pendingHandshakeRx := 0 }) hne hfits
    have hnote : netTlsNoteHandshake 0x0C 69 69 { s with valid := true } = { s with
        valid := true
        pendingHandshakeType := 0
        pendingHandshakeLen := 0
        pendingHandshakeRx := 0 } := rfl
    unfold captureMessage
    dsimp only
    rw [if_neg (by decide), if_neg (by decide), if_pos (by decide), if_neg hwhole, htake, hnote]
    exact congrArg (fun s => { s with
      kex := netTlsParseServerKeyExchange p256FeMul (offerParams x y) }) happend
  have hnil : ∀ fuel (s : Tls),
      captureMessages p256FeMul fuel ((offerParams x y).drop 69) s = s := by
    rw [List.drop_of_length_le (Nat.le_of_eq hparams)]
    intro fuel s
    cases fuel <;> rfl
  unfold captureHandshake
  rw [if_pos hnone, hlen, captureMessages, if_neg hshort]
  dsimp only
  rw [hhandshake, hbody, htype, hheader, hmessage, if_neg hwhole, hnil]

end

/-- A scalar has its point. -/
theorem exists_pointBytes {t : ZMod p256N} (ht : t ≠ 0) :
    ∃ x y, PointBytes (times t generator) x y := by
  have hp := pointMulBe32Projective_is basePoint_is (p256FeToBe32 t.val)
  rw [feFromBe32_toBe32 (Nat.lt_trans (ZMod.val_lt t) (by decide))] at hp
  obtain ⟨-, hbytes, -⟩ := pointBytes_of_is hp (times_generator_ne_zero ht)
  exact ⟨_, _, hbytes⟩

/-- The client holds an offer of the other server. -/
theorem agreeing_later {d t k : ZMod p256N} {P : p256Curve.Point} {t' : ZMod p256N}
    {x y x' y' : List UInt8} (h : Greeted d t k s) (hfresh : Fresh s) (hbytes : PointBytes P x y)
    (hbytes' : PointBytes (times t' generator) x' y') (ht' : t' ≠ 0) (htx : s.finishedTx = false)
    (hpending : s.pendingHandshakeType = 0)
    (hroom : s.transcript.length + 159 ≤ netTlsTranscriptSize) :
    Agreeing t' (capturePayloads p256FeMul [encodeRecord (0x16, unsignedOffer x' y')]
      (keyExchangeSent x y s)) ∧
    (capturePayloads p256FeMul [encodeRecord (0x16, unsignedOffer x' y')]
      (keyExchangeSent x y s)).transcript =
        s.transcript ++ clientKeyExchange x y ++ unsignedOffer x' y' ∧
    (capturePayloads p256FeMul [encodeRecord (0x16, unsignedOffer x' y')]
      (keyExchangeSent x y s)).clientRandom = s.clientRandom ∧
    (capturePayloads p256FeMul [encodeRecord (0x16, unsignedOffer x' y')]
      (keyExchangeSent x y s)).serverRandom = s.serverRandom := by
  have hcke := length_clientKeyExchange hbytes
  have hlen : (keyExchangeSent x y s).transcript.length = s.transcript.length + 70 := by
    rw [keyExchangeSent, List.length_append, hcke]
  have hcapture := capture_unsignedOffer (s := keyExchangeSent x y s) hbytes'
    ⟨hfresh.quiet.recordPending, hfresh.quiet.appPendingLen⟩ htx hpending (by omega)
  rw [hcapture]
  refine ⟨⟨parse_offerParams hbytes', ht', ⟨hfresh.quiet.recordPending, hfresh.quiet.appPendingLen⟩,
    rfl, hfresh.keyBlockValid, rfl, hfresh.serverFinishedVerify, h.clientRandom, h.serverRandom, ?_,
    ?_, h.transcriptOverflow⟩, rfl, rfl, rfl⟩
  · simp [unsignedOffer]
  · dsimp only
    rw [List.length_append, hlen, length_unsignedOffer hbytes']
    omega

/-- Whoever sends an offer of its own behind the key exchange of the client, without a signature,
takes the session over: the keys are its, it reads the request, and the page is its answer. -/
theorem https_taken_over {d t k t' : ZMod p256N} {target : Target} {request : List UInt8}
    (h : Greeted d t k s) (hfresh : Fresh s) (htx : s.finishedTx = false)
    (hpending : s.pendingHandshakeType = 0)
    (hroom : s.transcript.length + 159 ≤ netTlsTranscriptSize)
    (hrequest : Browser.buildHttpRequest target 132 = some request) (ht' : t' ≠ 0) :
    ∃ x y x' y' secret, PointBytes (times clientScalar generator) x y ∧
      PointBytes (times t' generator) x' y' ∧
      SecretOf (times t' (times clientScalar generator)) secret ∧
      let keys := peerKeys secret s.clientRandom s.serverRandom
      let messages := s.transcript ++ clientKeyExchange x y ++ unsignedOffer x' y'
      let finished := finishedMessage (peerVerifyData keys.masterSecret "client finished" messages)
      let record := encryptRecord keys 0 0x16 finished
      let get := encryptRecord keys 1 0x17 request
      openBody (clientKey keys) (clientIv keys) 1 0x17 (get.drop 5) = some request ∧
        ∀ (explicit : List UInt8) (groups : List (List (UInt8 × List UInt8)))
          (texts payloads : List (List UInt8)), explicit.length = 8 →
          groups.flatten = finishedAnswer keys explicit (messages ++ finished) →
            texts ≠ [] → Answers keys texts payloads →
              let o := netHttpsGetUrl p256FeMul target
                ⟨.answered [encodeRecord (0x16, unsignedOffer x' y')],
                  .answered (groups.map (List.flatMap encodeRecord)), .answered payloads⟩ s
              o.ok = true ∧
                o.wire = [recordHeader 0x16 70 ++ clientKeyExchange x y,
                  changeCipherSpec ++ record, get] ∧
                  o.tls.http = (takenTexts keys texts).foldl
                    (fun h text => netHttpCapturePayload text h) .reset := by
  obtain ⟨x, y, hbytes, hbuild⟩ := buildTlsClientKeyExchange_eq
  obtain ⟨x', y', hbytes'⟩ := exists_pointBytes ht'
  obtain ⟨hagree, htranscript, hclient, hserver⟩ :=
    agreeing_later h hfresh hbytes hbytes' ht' htx hpending hroom
  have hgreeted := fun finished get => @netHttpsGetUrl_greeted _ _ _ _ target
    [encodeRecord (0x16, unsignedOffer x' y')] x y _ finished get h hfresh hbytes hbuild
  dsimp only at hgreeted
  generalize capturePayloads p256FeMul [encodeRecord (0x16, unsignedOffer x' y')]
    (keyExchangeSent x y s) = later at hagree htranscript hclient hserver hgreeted
  obtain ⟨secret, hsecret, -, hget, hrest⟩ := netHttpsGetUrlKeys_honest hagree hrequest
    (.answered [encodeRecord (0x16, unsignedOffer x' y')])
  rw [hclient, hserver, htranscript] at hrest
  rw [hclient, hserver] at hget
  refine ⟨x, y, x', y', secret, hbytes, hbytes', hsecret, hget, ?_⟩
  intro explicit groups texts payloads hexplicit hgroups htexts hanswers
  obtain ⟨hok, hwire, hpage⟩ := hrest explicit groups texts payloads hexplicit hgroups htexts hanswers
  dsimp only
  rw [hgreeted]
  exact ⟨hok, congrArg (List.cons _) hwire, hpage⟩

/-- The server of scalars 1, and another one with the scalar 2. -/
theorem https_taken_over_two : ∃ (net : Https) (secret : List UInt8),
    SecretOf (times (2 : ZMod p256N) (times clientScalar generator)) secret ∧
      let o := netHttpsGetUrl p256FeMul ⟨chars "a", chars "/"⟩ net greetedOne
      o.ok = true ∧ o.tls.http = netHttpCapturePayload (chars "hi") .reset := by
  have htwo : (2 : ZMod p256N) ≠ 0 := by
    rw [← ZMod.val_ne_zero]
    decide
  obtain ⟨x, y, x', y', secret, -, -, hsecret, -, h⟩ :=
    https_taken_over greeted_one fresh_one rfl rfl (by decide) request_one htwo
  obtain ⟨hok, -, hpage⟩ := h (explicitOne 0) [finishedAnswer _ _ _] [chars "hi"] _ rfl
    (List.append_nil _) (List.cons_ne_nil _ _) (answers_one _ ⟨by decide, by decide⟩)
  refine ⟨_, secret, hsecret, hok, hpage.trans ?_⟩
  rw [takenTexts_one, List.foldl_cons, List.foldl_nil]

end MinervaOS.Tls
