import MinervaOS.Tls.CertificateBounds

/-!
# Whether a certificate is read inside its body

All reads of a run are inside what has been received, and so is every stretch that is handed on,
unless one of two things is wrong with the first certificate (`StaysInside`): its signed part is
announced to end behind what has been received, and an earlier run has left an algorithm for which
that part is hashed; or its version or its serial number ends there.
-/

namespace MinervaOS.Tls

open Crypto Reader

variable {mem : Memory} {x : X509} {n : ℕ} {der available pos : UInt32}

/-! ## Behind the end -/

theorem not_room_of_far (room : UInt32) (hroom : room.toNat ≤ 2 ^ 8) (hpos : pos.toNat ≤ 2 ^ 26)
    (hfar : available < pos) : ¬available > pos + room := by
  rw [UInt32.lt_iff_toNat_lt] at hfar
  rw [gt_iff_lt, UInt32.lt_iff_toNat_lt, toNat_add_of_lt (by omega)]
  omega

theorem parseSigAlg_far (h : ¬available > pos + 4) :
    parseSigAlg der available pos = pure (some pos) := by
  rw [parseSigAlg, decide_eq_false h]
  rfl

theorem parseName_far {store : List UInt8 → X509 → X509} (h : ¬available > pos + 2) :
    parseName der available store pos = pure (some pos) := by
  rw [parseName, decide_eq_false h]
  rfl

theorem parseValidity_far (h : ¬available > pos + 4) :
    parseValidity der available pos = pure (some pos) := by
  rw [parseValidity, decide_eq_false h]
  rfl

theorem parseSpki_far (h : ¬available > pos + 4) :
    parseSpki der available pos = pure (some pos) := by
  rw [parseSpki, decide_eq_false h]
  rfl

/-- What is left behind the end wraps. -/
theorem rest_wraps (hn : n ≤ 2 ^ 24) (h : der.toNat + available.toNat ≤ n)
    (hpos : pos.toNat ≤ 2 ^ 26) (hfar : available < pos) :
    n < (der + pos).toNat + (available - pos).toNat := by
  rw [UInt32.lt_iff_toNat_lt] at hfar
  rw [UInt32.toNat_sub]
  omega

/-! ## The first certificate -/

/-- The contents of the signed part begin, and end, at these positions. -/
def tbsPart (mem : Memory) (available : UInt32) : Option (UInt32 × UInt32) :=
  match derSequenceLen mem 6 available with
  | none => none
  | some (_, headerLen) =>
    if !(available < headerLen + 2) && mem (6 + headerLen) == 0x30 then
      (derSequenceLen mem (6 + headerLen) (available - headerLen)).map
        fun (tbsContentLen, tbsHeaderLen) =>
          (headerLen + tbsHeaderLen, headerLen + tbsHeaderLen + tbsContentLen)
    else none

/-- The signed part, where it is hashed, the version and the serial number end inside. -/
def StaysInside (mem : Memory) (available : UInt32) (outerSigAlg : UInt8) : Prop :=
  ∀ start end', tbsPart mem available = some (start, end') →
    (end' ≤ available ∨ (outerSigAlg ≠ 1 ∧ outerSigAlg ≠ 3)) ∧
    ∀ e, partEnd mem 6 available 0xA0 2 start = some e → serialEnd mem 6 available e ≤ available

theorem serialEnd_le (havailable : available.toNat ≤ 2 ^ 24) (hpos : pos.toNat ≤ 2 ^ 26) :
    (serialEnd mem der available pos).toNat ≤ 2 ^ 26 := by
  rw [serialEnd]
  split
  next hpart =>
    rw [Bool.and_eq_true, decide_eq_true_eq] at hpart
    have hlt := lt_of_room _ (by decide) hpos hpart.1
    split
    next l hl hlen =>
      obtain ⟨hl24, -, hhl, -⟩ := derLen_some hlen
      have h1 := toNat_add_le pos (hl + l)
      have h2 := toNat_add_le hl l
      split <;> omega
    next => exact hpos
  next => exact hpos

/-- The extension scanners, on what is left behind a position. -/
theorem scanners_ok {host : List UInt8} (hn : n ≤ 2 ^ 24)
    (h : der.toNat + available.toNat ≤ n) (hpos : pos ≤ available) :
    Ok (do
      netTlsParseSanDns host (der + pos) (available - pos)
      netTlsParseBasicConstraints (der + pos) (available - pos)
      netTlsParseKeyUsage (der + pos) (available - pos)
      netTlsParseExtendedKeyUsage (der + pos) (available - pos)) mem x n
      fun _ y => sizes y = sizes x := by
  have hrest := rest_le h (UInt32.le_iff_toNat_le.1 hpos)
  refine Ok.bind (netTlsParseSanDns_ok _ hrest (by omega)) fun _ y hy => ?_
  have hy : sizes y = sizes x := by
    rw [hy]
    generalize Option.bind _ _ = name
    cases name <;> rfl
  refine Ok.bind (netTlsParseBasicConstraints_ok hn hrest) fun _ z hz => ?_
  refine Ok.bind (netTlsParseKeyUsage_ok hn hrest) fun _ w hw => ?_
  exact (netTlsParseExtendedKeyUsage_ok hn hrest).mono fun _ v hv =>
    hv.trans (hw.trans (hz.trans hy))

/-- What comes behind the serial number. -/
theorem behindSerial_okIff {host : List UInt8} {storeIssuer storeSubject : List UInt8 → X509 → X509}
    (hn : n ≤ 2 ^ 24) (h : der.toNat + available.toNat ≤ n) (hpos : pos.toNat ≤ 2 ^ 26)
    (hissuer : ∀ cn x, sizes (storeIssuer cn x) = sizes x)
    (hsubject : ∀ cn x, sizes (storeSubject cn x) = sizes x) :
    OkIff (do
      let some pos ← parseSigAlg der available pos | return
      let some pos ← parseName der available storeIssuer pos | return
      let some pos ← parseValidity der available pos | return
      let some pos ← parseName der available storeSubject pos | return
      let some pos ← parseSpki der available pos | return
      netTlsParseSanDns host (der + pos) (available - pos)
      netTlsParseBasicConstraints (der + pos) (available - pos)
      netTlsParseKeyUsage (der + pos) (available - pos)
      netTlsParseExtendedKeyUsage (der + pos) (available - pos)) mem x n (pos ≤ available)
      fun _ y => sizes y = sizes x := by
  by_cases hfar : available < pos
  · -- No part has room, and the scanners get a length that wraps.
    have h2 := not_room_of_far 2 (by decide) hpos hfar
    have h4 := not_room_of_far 4 (by decide) hpos hfar
    simp only [parseSigAlg_far h4, parseName_far h2, parseValidity_far h4, parseSpki_far h4,
      pure_bind]
    rw [netTlsParseSanDns, bind_assoc]
    exact OkIff.hand_long (rest_wraps hn h hpos hfar) (UInt32.not_le.2 hfar)
  have hpos := UInt32.not_lt.1 hfar
  refine OkIff.of_ok ?_ hpos
  refine Ok.bind (parseSigAlg_ok hn h hpos) fun r y hr => ?_
  obtain ⟨hr, hy⟩ := hr
  rcases r with _ | pos
  · exact Ok.pure hy
  have hpos := hr pos rfl
  have hle := UInt32.le_iff_toNat_le.1 hpos
  refine Ok.bind (parseName_ok hn h (by omega) hissuer) fun r z hr => ?_
  obtain ⟨hr, hz⟩ := hr
  rcases r with _ | pos'
  · exact Ok.pure (hz.trans hy)
  have hpos := (hr pos' rfl).1 hpos
  refine Ok.bind (parseValidity_ok hn h hpos) fun r w hr => ?_
  obtain ⟨hr, hw⟩ := hr
  rcases r with _ | pos
  · exact Ok.pure (hw.trans (hz.trans hy))
  have hpos := hr pos rfl
  have hle := UInt32.le_iff_toNat_le.1 hpos
  refine Ok.bind (parseName_ok hn h (by omega) hsubject) fun r v hr => ?_
  obtain ⟨hr, hv⟩ := hr
  rcases r with _ | pos'
  · exact Ok.pure (hv.trans (hw.trans (hz.trans hy)))
  have hpos := (hr pos' rfl).1 hpos
  refine Ok.bind (parseSpki_ok hn h hpos) fun r u hr => ?_
  obtain ⟨hr, hu⟩ := hr
  have hu := hu.trans (hv.trans (hw.trans (hz.trans hy)))
  rcases r with _ | pos
  · exact Ok.pure hu
  · exact (scanners_ok hn h (hr pos rfl)).mono fun _ t ht => ht.trans hu

/-- What comes behind the header of the signed part. -/
theorem behindHeader_okIff {host : List UInt8}
    {storeIssuer storeSubject : List UInt8 → X509 → X509} (hn : n ≤ 2 ^ 24)
    (h : der.toNat + available.toNat ≤ n) (hpos : pos.toNat ≤ 2 ^ 26)
    (hissuer : ∀ cn x, sizes (storeIssuer cn x) = sizes x)
    (hsubject : ∀ cn x, sizes (storeSubject cn x) = sizes x) :
    OkIff (do
      let some pos ← skipPart der available 0xA0 2 pos | return
      let pos ← parseSerial der available pos
      let some pos ← parseSigAlg der available pos | return
      let some pos ← parseName der available storeIssuer pos | return
      let some pos ← parseValidity der available pos | return
      let some pos ← parseName der available storeSubject pos | return
      let some pos ← parseSpki der available pos | return
      netTlsParseSanDns host (der + pos) (available - pos)
      netTlsParseBasicConstraints (der + pos) (available - pos)
      netTlsParseKeyUsage (der + pos) (available - pos)
      netTlsParseExtendedKeyUsage (der + pos) (available - pos)) mem x n
      (∀ e, partEnd mem der available 0xA0 2 pos = some e →
        serialEnd mem der available e ≤ available)
      fun _ y => sizes y = sizes x := by
  refine OkIff.bind (skipPart_ok h (by decide) hpos) fun r y hr => ?_
  obtain ⟨hr, rfl⟩ := hr
  rw [← hr]
  match r with
  | none => exact OkIff.of_ok (Ok.pure rfl) fun e he => by simp at he
  | some e =>
    have he := partEnd_le (by decide) (by omega) hpos hr.symm
    simp only [Option.some.injEq, forall_eq']
    refine OkIff.bind (parseSerial_ok h he) fun e' z hz => ?_
    obtain ⟨rfl, hz⟩ := hz
    exact (behindSerial_okIff hn h (serialEnd_le (by omega) he) hissuer hsubject).mono
      fun _ w hw => hw.trans hz

theorem netTlsParseFirstCertificateDer_okIff {host : List UInt8} {rx : UInt32}
    (hn : rx.toNat ≤ 2 ^ 24) :
    OkIff (netTlsParseFirstCertificateDer host rx) mem x rx.toNat
      (rx < 8 ∨ x.firstCertificateLen = 0 ∨ StaysInside mem (rx - 6) x.outerSigAlg)
      fun _ y => y.firstCertificateLen = x.firstCertificateLen := by
  refine OkIff.bind Ok.fields fun y z hy => ?_
  obtain ⟨rfl, rfl⟩ := hy
  extract_lets der available
  refine OkIff.ite (fun hret => OkIff.of_ok (Ok.pure rfl) ?_) fun hgo => ?_
  · rw [Bool.or_eq_true, decide_eq_true_eq, beq_iff_eq] at hret
    exact hret.imp_right .inl
  rw [Bool.or_eq_true, not_or, decide_eq_true_eq, beq_iff_eq, UInt32.not_lt,
    UInt32.le_iff_toNat_le] at hgo
  obtain ⟨hrx, hfirst⟩ := hgo
  simp only [UInt32.reduceToNat] at hrx
  refine OkIff.congr (C := StaysInside mem available z.outerSigAlg) ?_
    ⟨fun hs => .inr (.inr hs), ?_⟩
  rotate_left
  · rintro (h8 | h0 | hs)
    · rw [UInt32.lt_iff_toNat_lt] at h8
      simp only [UInt32.reduceToNat] at h8
      omega
    · exact absurd h0 hfirst
    · exact hs
  have havailable : available.toNat = rx.toNat - 6 :=
    toNat_sub_of_le (by simp only [UInt32.reduceToNat]; omega)
  have hder : der.toNat = 6 := rfl
  have h : der.toNat + available.toNat ≤ rx.toNat := by omega
  refine OkIff.bind (netTlsParseDerSequenceLen_ok h) fun r z hr => ?_
  obtain ⟨hr, rfl⟩ := hr
  rw [StaysInside, tbsPart, show (6 : UInt32) = der from rfl, ← hr]
  match r with
  | none => exact OkIff.of_ok (Ok.pure rfl) fun _ _ h => by simp at h
  | some (contentLen, headerLen) =>
  obtain ⟨-, -, hhl, hroom⟩ := derSequenceLen_some hr.symm
  refine OkIff.bind (Ok.write_keeps (g := fun x => (x.firstCertificateLen, x.outerSigAlg)) rfl)
    fun _ y hy => ?_
  obtain ⟨hyFirst, hyAlg⟩ := Prod.mk.inj hy
  dsimp -zeta only
  extract_lets pos
  have hpos : pos.toNat = headerLen.toNat := rfl
  have hadd : (pos + 2).toNat = pos.toNat + 2 :=
    toNat_add_of_lt (by simp only [UInt32.reduceToNat]; omega)
  have hread := toNat_add_le der pos
  refine OkIff.bind (tagAt_ok fun hin => ?_) fun b y' hb => ?_
  · rw [Bool.not_eq_true', decide_eq_false_iff_not, UInt32.not_lt, UInt32.le_iff_toNat_le,
      hadd] at hin
    omega
  obtain ⟨rfl, rfl⟩ := hb
  refine OkIff.ite (fun hno => OkIff.of_ok (Ok.pure hyFirst) ?_) fun hseq => ?_
  · rw [Bool.not_eq_true'] at hno
    rw [hno, if_neg Bool.false_ne_true]
    exact fun _ _ h => by simp at h
  rw [Bool.not_eq_true', Bool.not_eq_false] at hseq
  rw [if_pos hseq]
  refine OkIff.bind (netTlsParseDerSequenceLen_ok (rest_le h hroom)) fun r y hr => ?_
  obtain ⟨hr, rfl⟩ := hr
  rw [← hr]
  match r with
  | none => exact OkIff.of_ok (Ok.pure hyFirst) fun _ _ h => by simp at h
  | some (tbsContentLen, tbsHeaderLen) =>
  obtain ⟨hl, -, hthl, -⟩ := derSequenceLen_some hr.symm
  have hstart : (headerLen + tbsHeaderLen).toNat ≤ 2 ^ 26 := by
    have hsum := toNat_add_le headerLen tbsHeaderLen
    omega
  have hend := toNat_add_add (a := headerLen) (b := tbsHeaderLen) (c := tbsContentLen) (by omega)
  refine OkIff.congr (C := (headerLen + tbsHeaderLen + tbsContentLen ≤ available ∨
      (z.outerSigAlg ≠ 1 ∧ z.outerSigAlg ≠ 3)) ∧
      ∀ e, partEnd mem der available 0xA0 2 (headerLen + tbsHeaderLen) = some e →
        serialEnd mem der available e ≤ available) ?_
    ⟨fun hC start end' h => ?_, fun hS => hS _ _ rfl⟩
  rotate_left
  · obtain ⟨rfl, rfl⟩ := Prod.mk.inj (Option.some.inj h)
    exact hC
  refine OkIff.bind Ok.write fun _ w hw => ?_
  have hwFirst : w.firstCertificateLen = z.firstCertificateLen := by rw [hw]; exact hyFirst
  have hwAlg : w.outerSigAlg = z.outerSigAlg := by rw [hw]; exact hyAlg
  have hwLen : w.tbsLen = tbsContentLen + tbsHeaderLen := by rw [hw]
  clear hw
  have hend26 : (headerLen + tbsHeaderLen + tbsContentLen).toNat ≤ 2 ^ 26 := by omega
  refine OkIff.bind (netTlsParseCertificateSignature_ok (by omega) h hend26) fun _ v hv => ?_
  obtain ⟨hv, hvFar⟩ := hv
  refine OkIff.bind Ok.fields fun v u hu => ?_
  obtain ⟨rfl, rfl⟩ := hu
  extract_lets jp
  have hrest (t : X509) (ht : sizes t = sizes u) :
      OkIff (jp ()) mem t rx.toNat
        (∀ e, partEnd mem der available 0xA0 2 (headerLen + tbsHeaderLen) = some e →
          serialEnd mem der available e ≤ available)
        fun _ y => y.firstCertificateLen = z.firstCertificateLen := by
    refine OkIff.mono (behindHeader_okIff hn h hstart ?_ ?_) fun _ s hs => ?_
    · exact fun _ _ => rfl
    · exact fun _ _ => rfl
    · exact (Prod.mk.inj (hs.trans (ht.trans hv))).1.trans hwFirst
  clear_value jp
  have hlen : u.tbsLen.toNat = tbsContentLen.toNat + tbsHeaderLen.toNat := by
    rw [(Prod.mk.inj hv).2, hwLen, toNat_add_of_lt (by omega)]
  have hder' : (der + pos).toNat = 6 + headerLen.toNat := toNat_add_of_lt (by omega)
  have hle :=
    UInt32.le_iff_toNat_le (a := headerLen + tbsHeaderLen + tbsContentLen) (b := available)
  by_cases hin : headerLen + tbsHeaderLen + tbsContentLen ≤ available
  · -- The signed part is inside, so hashing it is.
    have hin' := hle.1 hin
    refine OkIff.congr ?_ (and_iff_right (.inl hin)).symm
    refine OkIff.ite (fun _ => ?_) fun _ => hrest u rfl
    refine OkIff.bind (Ok.hand (by omega)) fun _ t ht => ?_
    subst ht
    refine OkIff.bind (Ok.bytes (by omega)) fun tbs t ht => ?_
    obtain ⟨-, rfl⟩ := ht
    exact OkIff.bind (Ok.write_keeps (g := sizes) rfl) fun _ s hs => hrest s hs
  · have hnot : available.toNat < (headerLen + tbsHeaderLen + tbsContentLen).toNat := by
      rw [hle] at hin
      omega
    have hfar : available ≤ headerLen + tbsHeaderLen + tbsContentLen + 4 := by
      rw [UInt32.le_iff_toNat_le, toNat_add_of_lt (by simp only [UInt32.reduceToNat]; omega)]
      omega
    obtain rfl := hvFar hfar
    refine OkIff.ite (fun halg => ?_) fun halg => ?_
    · rw [hwAlg, Bool.or_eq_true, beq_iff_eq, beq_iff_eq] at halg
      refine OkIff.hand_long (by omega) ?_
      rintro ⟨hin' | hno, -⟩
      · exact hin hin'
      · exact halg.elim hno.1 hno.2
    · rw [hwAlg, Bool.or_eq_true, not_or, beq_iff_eq, beq_iff_eq] at halg
      exact OkIff.congr (hrest u rfl) (and_iff_right (.inr halg)).symm

/-! ## The whole message -/

/-- The length of the first certificate behind the header. -/
def firstLen (mem : Memory) (length rx : UInt32) (x : X509) : UInt32 :=
  if 3 ≤ length ∧ 6 ≤ rx ∧ 3 ≤ be24 mem 0 then be24 mem 3 else x.firstCertificateLen

theorem netTlsParseCertificateHeader_ok {length rx : UInt32} :
    Ok (netTlsParseCertificateHeader length rx) mem x rx.toNat fun _ y =>
      y.firstCertificateLen = firstLen mem length rx x ∧ y.outerSigAlg = x.outerSigAlg := by
  rw [firstLen]
  refine Ok.ite (fun hshort => Ok.pure ⟨?_, rfl⟩) fun hlong => ?_
  · rw [if_neg]
    rw [Bool.or_eq_true, decide_eq_true_eq, decide_eq_true_eq, UInt32.lt_iff_toNat_lt,
      UInt32.lt_iff_toNat_lt] at hshort
    rw [UInt32.le_iff_toNat_le, UInt32.le_iff_toNat_le]
    simp only [UInt32.reduceToNat] at hshort ⊢
    omega
  rw [Bool.or_eq_true, not_or, decide_eq_true_eq, decide_eq_true_eq, UInt32.not_lt,
    UInt32.not_lt] at hlong
  have h3 := UInt32.le_iff_toNat_le.1 hlong.2
  simp only [UInt32.reduceToNat] at h3
  refine Ok.bind (get24be_ok h3) fun listLen y hy => ?_
  obtain ⟨rfl, rfl⟩ := hy
  refine Ok.bind (Ok.write_keeps (g := fun x => (x.firstCertificateLen, x.outerSigAlg)) rfl)
    fun _ z hz => ?_
  obtain ⟨hzFirst, hzAlg⟩ := Prod.mk.inj hz
  refine Ok.ite (fun hlist => ?_) fun hlist => Ok.pure ⟨?_, hzAlg⟩
  · rw [Bool.and_eq_true, decide_eq_true_eq, decide_eq_true_eq] at hlist
    rw [if_pos ⟨hlong.1, hlist⟩]
    have h6 := UInt32.le_iff_toNat_le.1 hlist.1
    refine Ok.bind (get24be_ok h6) fun len w hw => ?_
    obtain ⟨rfl, rfl⟩ := hw
    exact Ok.write.mono fun _ v hv => by rw [hv]; exact ⟨rfl, hzAlg⟩
  · rw [Bool.and_eq_true, decide_eq_true_eq, decide_eq_true_eq] at hlist
    rw [if_neg fun h => hlist h.2]
    exact hzFirst

/-- The second certificate is read inside, unless the position of its length wraps. This is no
length that three bytes can have. -/
theorem netTlsParseChainCertificateDer_okIff {mul : ℕ → ℕ → ℕ} {rx : UInt32}
    (hn : rx.toNat ≤ 2 ^ 24) :
    OkIff (netTlsParseChainCertificateDer mul rx) mem x rx.toNat
      (rx < 9 ∨ x.firstCertificateLen = 0 ∨ (6 + x.firstCertificateLen).toNat + 3 < 2 ^ 32)
      fun _ y => sizes y = sizes x := by
  by_cases hfirst : (6 + x.firstCertificateLen).toNat + 3 < 2 ^ 32
  · exact OkIff.of_ok (netTlsParseChainCertificateDer_ok hn hfirst) (.inr (.inr hfirst))
  refine OkIff.bind Ok.fields fun y z hy => ?_
  obtain ⟨rfl, rfl⟩ := hy
  extract_lets firstLen secondLenPos der available
  refine OkIff.ite (fun hret => OkIff.of_ok (Ok.pure rfl) ?_) fun hgo => ?_
  · rw [Bool.or_eq_true, decide_eq_true_eq, beq_iff_eq] at hret
    exact hret.imp_right .inl
  rw [Bool.or_eq_true, not_or, decide_eq_true_eq, beq_iff_eq] at hgo
  have hno : ¬(rx < 9 ∨ firstLen = 0 ∨ secondLenPos.toNat + 3 < 2 ^ 32) := by
    rintro (h | h | h)
    · exact hgo.1 h
    · exact hgo.2 h
    · exact hfirst h
  have hpos : 2 ^ 32 ≤ secondLenPos.toNat + 3 := Nat.not_lt.1 hfirst
  have hlt := secondLenPos.toNat_lt
  have h9 := UInt32.le_iff_toNat_le.1 (UInt32.not_lt.1 hgo.1)
  simp only [UInt32.reduceToNat] at h9
  have hwrap : ¬rx < secondLenPos + 3 := by
    rw [UInt32.lt_iff_toNat_lt, UInt32.toNat_add]
    simp only [UInt32.reduceToNat]
    omega
  rw [if_neg hwrap, get24be, bind_assoc]
  exact OkIff.byte_far (by omega) hno

theorem certificates_okIff {mul : ℕ → ℕ → ℕ} {host : List UInt8} {length rx : UInt32}
    (hn : rx.toNat ≤ 2 ^ 24) :
    OkIff (do
      netTlsParseCertificateHeader length rx
      netTlsParseFirstCertificateDer host rx
      netTlsParseChainCertificateDer mul rx) mem x rx.toNat
      ((rx < 8 ∨ firstLen mem length rx x = 0 ∨ StaysInside mem (rx - 6) x.outerSigAlg) ∧
        (rx < 9 ∨ firstLen mem length rx x = 0 ∨ (6 + firstLen mem length rx x).toNat + 3 < 2 ^ 32))
      fun _ _ => True := by
  refine OkIff.bind netTlsParseCertificateHeader_ok fun _ y hy => ?_
  rw [← hy.1, ← hy.2]
  refine OkIff.bind_and (netTlsParseFirstCertificateDer_okIff hn) fun _ z hz => ?_
  rw [← hz]
  exact (netTlsParseChainCertificateDer_okIff hn).mono fun _ _ _ => trivial

/-- A run reads inside the `n` bytes that have been received, and hands on stretches inside them. -/
def ReadsInside (p : X509M Unit) (mem : Memory) (x : X509) (n : ℕ) : Prop :=
  (p.run mem x).touched ≤ n ∧ (p.run mem x).spanned ≤ n

/-- How much of the message the parsers see. -/
def received (certificateRx : ℕ) : UInt32 :=
  UInt32.ofNat (min certificateRx netTlsCertCaptureSize)

theorem toNat_received (certificateRx : ℕ) :
    (received certificateRx).toNat = min certificateRx netTlsCertCaptureSize :=
  UInt32.toNat_ofNat_of_lt' (by rw [UInt32.size, netTlsCertCaptureSize]; omega)

theorem netTlsParseBufferedCertificate_okIff {mul : ℕ → ℕ → ℕ} {host : List UInt8}
    {certificateLen certificateRx : ℕ} :
    OkIff (netTlsParseBufferedCertificate mul host certificateLen certificateRx) mem x
      (min certificateRx netTlsCertCaptureSize)
      ((received certificateRx < 8 ∨
        firstLen mem (UInt32.ofNat certificateLen) (received certificateRx) x = 0 ∨
        StaysInside mem (received certificateRx - 6) x.outerSigAlg) ∧
      (received certificateRx < 9 ∨
        firstLen mem (UInt32.ofNat certificateLen) (received certificateRx) x = 0 ∨
        (6 + firstLen mem (UInt32.ofNat certificateLen) (received certificateRx) x).toNat + 3 <
          2 ^ 32))
      fun _ _ => True := by
  have hn : (received certificateRx).toNat ≤ 2 ^ 24 := by
    rw [toNat_received, netTlsCertCaptureSize]
    omega
  rw [← toNat_received]
  exact certificates_okIff hn

theorem netTlsParseBufferedCertificate_inside_iff (mul : ℕ → ℕ → ℕ) (host : List UInt8)
    (certificateLen certificateRx : ℕ) (mem : Memory) (x : X509) :
    ReadsInside (netTlsParseBufferedCertificate mul host certificateLen certificateRx) mem x
        (min certificateRx netTlsCertCaptureSize) ↔
      (received certificateRx < 8 ∨
        firstLen mem (UInt32.ofNat certificateLen) (received certificateRx) x = 0 ∨
        StaysInside mem (received certificateRx - 6) x.outerSigAlg) ∧
      (received certificateRx < 9 ∨
        firstLen mem (UInt32.ofNat certificateLen) (received certificateRx) x = 0 ∨
        (6 + firstLen mem (UInt32.ofNat certificateLen) (received certificateRx) x).toNat + 3 <
          2 ^ 32) := by
  have h := @netTlsParseBufferedCertificate_okIff mem x mul host certificateLen certificateRx
  exact ⟨fun hin => h.cond hin.1 hin.2, fun hC => ⟨(h.ok hC).touched_le, (h.ok hC).spanned_le⟩⟩

/-- A message of 20 bytes with a version of 127. -/
def longVersion : List UInt8 :=
  [0, 0, 17, 0, 0, 14, 0x30, 12, 0x30, 10, 0xA0, 127, 2, 1, 2, 2, 1, 1, 0, 0]

theorem not_inside_longVersion :
    ¬ReadsInside (netTlsParseBufferedCertificate (· * ·) [] 20 20) (memory longVersion) X509.reset
      (min 20 netTlsCertCaptureSize) := by
  intro hin
  have h := netTlsParseBufferedCertificate_okIff.cond hin.1 hin.2
  obtain ⟨h8 | h0 | hs, -⟩ := h
  · exact absurd h8 (by decide)
  · exact absurd h0 (by decide)
  · have hpart : tbsPart (memory longVersion) (received 20 - 6) = some (4, 14) := by decide
    have hversion : partEnd (memory longVersion) 6 (received 20 - 6) 0xA0 2 4 = some 133 := by
      decide
    exact absurd ((hs _ _ hpart).2 _ hversion) (by decide)

end MinervaOS.Tls
