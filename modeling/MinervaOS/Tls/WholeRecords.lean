import MinervaOS.Net.Frames
import MinervaOS.Tls.Records

/-!
# Payloads of whole records

A payload that ends with a record leaves nothing to wait for. So it makes no difference how records
are put together to payloads, as long as none is cut.
-/

namespace MinervaOS.Tls

open Crypto Net

theorem toNat_get16be (src : List UInt8) (i : ℕ) :
    (get16be src i).toNat = (get8 src i).toNat * 256 + (get8 src (i + 1)).toNat := by
  rw [← UInt16.toNat_toUInt32, get16be, toNat_word]

theorem toNat_put16be {value : ℕ} (h : value < 65536) :
    (get8 (put16be value) 0).toNat * 256 + (get8 (put16be value) 1).toNat = value := by
  simp only [put16be, get8, List.getD_cons_zero, List.getD_cons_succ, UInt8.toNat_ofNat']
  omega

section

variable {mul : Nat → Nat → Nat}

/-- Every round leaves six bytes behind, so the length of the records is rounds enough. -/
theorem captureRecords_fuel (fuel : ℕ) : ∀ {record : List UInt8} {s : Tls}, record.length ≤ fuel →
    captureRecords mul fuel record s = captureRecords mul record.length record s := by
  induction fuel using Nat.strong_induction_on with
  | _ fuel ih =>
    intro record s hfuel
    cases hlen : record.length with
    | zero =>
      obtain rfl := List.eq_nil_of_length_eq_zero hlen
      cases fuel <;> rfl
    | succ n =>
      obtain ⟨m, rfl⟩ : ∃ m, fuel = m + 1 := ⟨fuel - 1, by omega⟩
      have hnext : ∀ len s, captureRecords mul m ((record.drop 5).drop len) s =
          captureRecords mul n ((record.drop 5).drop len) s := by
        intro len s
        have hle : ((record.drop 5).drop len).length ≤ n := by
          rw [List.length_drop, List.length_drop]
          omega
        rw [ih m (by omega) (by omega), ih n (by omega) hle]
      simp only [captureRecords, hnext]

/-- The five bytes that a record begins with. -/
def recordHeader (type : UInt8) (length : ℕ) : List UInt8 := type :: 0x03 :: 0x03 :: put16be length

@[simp] theorem length_recordHeader (type : UInt8) (length : ℕ) :
    (recordHeader type length).length = 5 := rfl

/-- What `net_tls_capture_payload` takes for a record. -/
def Admitted (type : UInt8) (length : ℕ) : Prop :=
  0x14 ≤ type ∧ type ≤ 0x17 ∧ 0 < length ∧ length ≤ 0x4000

/-- The five bytes are read as they are written. -/
theorem recordHeader_read {length : ℕ} (hlength : length < 65536) (type : UInt8)
    (rest : List UInt8) :
    get8 (recordHeader type length ++ rest) 0 = type ∧
      get16be (recordHeader type length ++ rest) 1 = 0x0303 ∧
        (get16be (recordHeader type length ++ rest) 3).toNat = length ∧
          (recordHeader type length ++ rest).drop 5 = rest := by
  have hversion : (0x03 : UInt8).toUInt16 <<< 8 ||| (0x03 : UInt8).toUInt16 = 0x0303 := by decide
  refine ⟨rfl, hversion, ?_, rfl⟩
  rw [toNat_get16be]
  exact toNat_put16be hlength

/-- One round of the loop over the records. -/
theorem captureRecords_succ {type : UInt8} {length : ℕ} (h : Admitted type length) (fuel : ℕ)
    (rest : List UInt8) (s : Tls) :
    captureRecords mul (fuel + 1) (recordHeader type length ++ rest) s =
      let body := rest.take length
      let s := noteRecord type s
      if length ≤ rest.length then
        let next := rest.drop length
        let s := noteCcs type s
        if s.finishedTx && type == 0x16 then
          captureRecords mul fuel next (netTlsProcessServerFinishedRecord body s)
        else if s.appTx && type == 0x17 then
          captureRecords mul fuel next (netTlsProcessAppDataRecord body s)
        else if type == 0x16 then captureRecords mul fuel next (captureHandshake mul body s)
        else captureRecords mul fuel next s
      else if s.appTx && type == 0x17 then netTlsAppPendingStart body length s
      else
        { (if type == 0x16 then captureHandshake mul body s else s) with
          recordPending := length - rest.length } := by
  obtain ⟨hlow, hhigh, hpos, hmax⟩ := h
  have hlt : length < 65536 := by omega
  obtain ⟨htype, hversion, hlen, hrest⟩ := recordHeader_read hlt type rest
  have hlong : ¬(recordHeader type length ++ rest).length < 5 := by
    rw [List.length_append]
    exact Nat.not_lt.2 (Nat.le_add_right 5 _)
  have hbound : ¬(length = 0 ∨ length > 0x4000) := by omega
  have hno : (decide (type < 0x14) || decide (type > 0x17)) = false := by
    rw [Bool.or_eq_false_iff, decide_eq_false_iff_not, decide_eq_false_iff_not]
    exact ⟨UInt8.not_lt.2 hlow, UInt8.not_lt.2 hhigh⟩
  rw [captureRecords, if_neg hlong]
  simp only [htype, hversion, hlen, hrest, hbound, hno, if_false, Bool.false_eq_true]
  rfl

/-- What a whole record does. -/
def admitRecord (mul : ℕ → ℕ → ℕ) (type : UInt8) (body : List UInt8) (s : Tls) : Tls :=
  let s := noteCcs type (noteRecord type s)
  if s.finishedTx && type == 0x16 then netTlsProcessServerFinishedRecord body s
  else if s.appTx && type == 0x17 then netTlsProcessAppDataRecord body s
  else if type == 0x16 then captureHandshake mul body s
  else s

theorem captureRecords_record {type : UInt8} {body : List UInt8} (h : Admitted type body.length)
    (fuel : ℕ) (q : List UInt8) (s : Tls) :
    captureRecords mul (fuel + 1) (recordHeader type body.length ++ (body ++ q)) s =
      captureRecords mul fuel q (admitRecord mul type body s) := by
  have hwhole : body.length ≤ (body ++ q).length := by
    rw [List.length_append]
    omega
  rw [captureRecords_succ h]
  dsimp only
  rw [if_pos hwhole, List.take_left, List.drop_left, admitRecord]
  split_ifs <;> rfl

/-! ## What a handshake record leaves alone -/

/-- The connection without what its handshake messages fill in. -/
def Tls.channel (s : Tls) : Tls :=
  { s with
    serverRandom := []
    hello := ⟨false, 0, 0, 0, 0⟩
    certificate := false
    certificateLen := 0
    certificateRx := 0
    certificateBody := fun _ => 0
    x509 := .reset
    kex := .reset
    pendingHandshakeType := 0
    pendingHandshakeLen := 0
    pendingHandshakeRx := 0
    transcript := []
    transcriptOverflow := false
    transcriptCertificateAdded := false }

variable (s : Tls)

theorem channel_append (data : List UInt8) :
    (netTlsTranscriptAppend data s).channel = s.channel := by
  unfold netTlsTranscriptAppend
  split_ifs <;> rfl

theorem channel_appendMessage (type : UInt8) (body : List UInt8) :
    (netTlsTranscriptAppendMessage type body s).channel = s.channel := by
  rw [netTlsTranscriptAppendMessage, channel_append, channel_append]

theorem channel_appendCertificate : (netTlsTranscriptAppendCertificate s).channel = s.channel := by
  unfold netTlsTranscriptAppendCertificate
  split_ifs
  · rfl
  · rfl
  · rfl
  · exact channel_appendMessage s 0x0B _

theorem channel_note (type : UInt8) (length rx : ℕ) :
    (netTlsNoteHandshake type length rx s).channel = s.channel := by
  unfold netTlsNoteHandshake
  split_ifs <;> rfl

theorem channel_captureCertificateBytes (src : List UInt8) (offset len : ℕ) :
    (netTlsCaptureCertificateBytes src offset len s).channel = s.channel := by
  unfold netTlsCaptureCertificateBytes
  split_ifs <;> rfl

theorem channel_addPendingBytes (add : ℕ) : (netTlsAddPendingBytes add s).channel = s.channel := by
  unfold netTlsAddPendingBytes
  dsimp only
  split_ifs <;> rfl

theorem channel_parseIfCertificate : (parseIfCertificate mul s).channel = s.channel := by
  unfold parseIfCertificate
  split_ifs <;> rfl

theorem channel_serverHello (body : List UInt8) :
    (captureServerHello body s).channel = s.channel := by
  unfold captureServerHello
  split_ifs <;> rfl

theorem channel_captureMessage (type : UInt8) (len : ℕ) (header rest : List UInt8) :
    (captureMessage mul type len header rest s).channel = s.channel := by
  have happend := fun data s => channel_append s data
  unfold captureMessage
  dsimp only
  split_ifs
  · rfl
  · rw [channel_serverHello, happend, channel_note]
  · rw [channel_appendCertificate]
    show (netTlsCaptureCertificateBytes _ _ _ _).channel = _
    rw [channel_captureCertificateBytes, channel_note]
  · rw [channel_note]
  · show (netTlsTranscriptAppend _ _).channel = _
    rw [happend, channel_note]
  · rw [channel_note]
  · rw [happend, channel_note]

theorem channel_captureMessages (fuel : ℕ) : ∀ (hs : List UInt8) (s : Tls),
    (captureMessages mul fuel hs s).channel = s.channel := by
  induction fuel with
  | zero => exact fun _ _ => rfl
  | succ fuel ih =>
    intro hs s
    unfold captureMessages
    dsimp only
    split_ifs
    · rfl
    · rw [channel_captureMessage]
    · rw [ih, channel_captureMessage]

theorem channel_captureHandshake (hs : List UInt8) :
    (captureHandshake mul hs s).channel = s.channel := by
  unfold captureHandshake
  dsimp only
  split_ifs
  · rw [channel_captureMessages]
  · rw [channel_captureMessages, channel_parseIfCertificate, channel_addPendingBytes,
      channel_captureCertificateBytes]
  · rw [channel_captureMessages, channel_parseIfCertificate, channel_addPendingBytes]

/-! ## Payloads that end with a record -/

/-- Nothing is waited for. -/
structure Quiet (s : Tls) : Prop where
  recordPending : s.recordPending = 0
  appPendingLen : s.appPendingLen = 0

variable {s}

theorem Quiet.of_channel {s' : Tls} (h : Quiet s) (hchannel : s'.channel = s.channel) : Quiet s' :=
  ⟨(congrArg Tls.recordPending hchannel).trans h.recordPending,
    (congrArg Tls.appPendingLen hchannel).trans h.appPendingLen⟩

theorem Quiet.note (h : Quiet s) (type : UInt8) : Quiet (noteCcs type (noteRecord type s)) := by
  unfold noteCcs noteRecord
  split_ifs <;> exact ⟨h.recordPending, h.appPendingLen⟩

theorem Quiet.serverFinished (h : Quiet s) (body : List UInt8) :
    Quiet (netTlsProcessServerFinishedRecord body s) := by
  unfold netTlsProcessServerFinishedRecord
  dsimp only
  repeat' split
  all_goals exact ⟨h.recordPending, h.appPendingLen⟩

theorem Quiet.appData (h : Quiet s) (body : List UInt8) :
    Quiet (netTlsProcessAppDataRecord body s) := by
  unfold netTlsProcessAppDataRecord
  dsimp only
  repeat' split
  all_goals exact ⟨h.recordPending, h.appPendingLen⟩

theorem Quiet.record (h : Quiet s) (type : UInt8) (body : List UInt8) :
    Quiet (admitRecord mul type body s) := by
  have hnote := h.note type
  unfold admitRecord
  dsimp only
  split_ifs
  · exact hnote.serverFinished body
  · exact hnote.appData body
  · exact hnote.of_channel (channel_captureHandshake _ body)
  · exact hnote

/-- A record on the wire. -/
def encodeRecord (r : UInt8 × List UInt8) : List UInt8 := recordHeader r.1 r.2.length ++ r.2

theorem captureRecords_records {records : List (UInt8 × List UInt8)} :
    ∀ {s : Tls}, (∀ r ∈ records, Admitted r.1 r.2.length) →
      captureRecords mul (records.flatMap encodeRecord).length (records.flatMap encodeRecord) s =
        records.foldl (fun s r => admitRecord mul r.1 r.2 s) s := by
  induction records with
  | nil => exact fun _ => rfl
  | cons r records ih =>
    intro s h
    rw [List.forall_mem_cons] at h
    have hlen : ((r :: records).flatMap encodeRecord).length =
        4 + r.2.length + (records.flatMap encodeRecord).length + 1 := by
      simp only [List.flatMap_cons, encodeRecord, List.length_append, length_recordHeader]
      omega
    have hrecords : (r :: records).flatMap encodeRecord =
        recordHeader r.1 r.2.length ++ (r.2 ++ records.flatMap encodeRecord) := by
      rw [List.flatMap_cons, encodeRecord, List.append_assoc]
    rw [hlen, hrecords, captureRecords_record h.1, captureRecords_fuel _ (by omega), ih h.2,
      List.foldl_cons]

theorem netTlsCapturePayload_quiet (payload : List UInt8) (h : Quiet s) :
    netTlsCapturePayload mul payload s = captureRecords mul payload.length payload s := by
  cases payload with
  | nil => rfl
  | cons byte payload =>
    have hcontinue : netTlsContinuePending mul (byte :: payload) s = (byte :: payload, s) := by
      rw [netTlsContinuePending, if_pos]
      rw [h.recordPending]
      rfl
    have happ : netTlsAppPendingContinue (byte :: payload) s = (byte :: payload, s) := by
      rw [netTlsAppPendingContinue, if_pos]
      rw [h.appPendingLen]
      rfl
    rw [netTlsCapturePayload, if_neg (by simp), hcontinue]
    dsimp only
    rw [happ]

theorem Quiet.records (records : List (UInt8 × List UInt8)) : ∀ {s : Tls}, Quiet s →
    Quiet (records.foldl (fun s r => admitRecord mul r.1 r.2 s) s) := by
  induction records with
  | nil => exact fun h => h
  | cons r records ih => exact fun h => ih (h.record r.1 r.2)

/-- Payloads that are put together from whole records do what their records do, one by one. -/
theorem foldl_capture_groups {groups : List (List (UInt8 × List UInt8))} :
    ∀ {s : Tls}, (∀ r ∈ groups.flatten, Admitted r.1 r.2.length) → Quiet s →
      (groups.map (List.flatMap encodeRecord)).foldl
          (fun s payload => netTlsCapturePayload mul payload s) s =
        groups.flatten.foldl (fun s r => admitRecord mul r.1 r.2 s) s := by
  induction groups with
  | nil => exact fun _ _ => rfl
  | cons records groups ih =>
    intro s h hquiet
    rw [List.flatten_cons, List.forall_mem_append] at h
    rw [List.map_cons, List.foldl_cons, netTlsCapturePayload_quiet _ hquiet,
      captureRecords_records h.1, ih h.2 (hquiet.records records), List.flatten_cons,
      List.foldl_append]

end

/-- However records are put together to payloads, the connection ends in the same state. -/
theorem regroup_records (mul : ℕ → ℕ → ℕ) {s : Tls} {groups groups' : List (List (UInt8 × List UInt8))}
    (h : ∀ r ∈ groups.flatten, Admitted r.1 r.2.length) (hquiet : Quiet s)
    (hsame : groups'.flatten = groups.flatten) :
    (groups'.map (List.flatMap encodeRecord)).foldl
        (fun s payload => netTlsCapturePayload mul payload s) s =
      (groups.map (List.flatMap encodeRecord)).foldl
        (fun s payload => netTlsCapturePayload mul payload s) s := by
  rw [foldl_capture_groups h hquiet, foldl_capture_groups (by rwa [hsame]) hquiet, hsame]

/-- An alert and what comes before a Finished message, in one payload or in two. -/
theorem regroup_records_two :
    [encodeRecord (0x15, [1, 0]), encodeRecord (0x14, [1])].foldl
        (fun s payload => netTlsCapturePayload (· * ·) payload s) (.reset (chars "a") zeros32) =
      [encodeRecord (0x15, [1, 0]) ++ encodeRecord (0x14, [1])].foldl
        (fun s payload => netTlsCapturePayload (· * ·) payload s) (.reset (chars "a") zeros32) := by
  refine @regroup_records (· * ·) _ [[(0x15, [1, 0]), (0x14, [1])]]
    [[(0x15, [1, 0])], [(0x14, [1])]] ?_ ⟨rfl, rfl⟩ rfl
  intro r hr
  obtain rfl | rfl : r = (0x15, [1, 0]) ∨ r = (0x14, [1]) := by simpa using hr
  · exact ⟨by decide, by decide, by decide, by decide⟩
  · exact ⟨by decide, by decide, by decide, by decide⟩

end MinervaOS.Tls
