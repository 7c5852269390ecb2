import MinervaOS.Lib.Framing
import MinervaOS.Tls.WholeRecords

/-!
# Application data over payloads

Once the request is out, the records of the answer come in payloads that are cut anywhere. They are
put together again, as long as no payload ends inside the five bytes that a record begins with.
-/

namespace MinervaOS.Tls

open Crypto Net

section

variable {mul : Nat → Nat → Nat}

/-- What the server sends before the body of a record of application data. -/
def appDataHeader (body : List UInt8) : List UInt8 := recordHeader 0x17 body.length

/-- The body of a record that fits in `tls_app_record`: a nonce, a tag, and what is between them. -/
def AppDataFits (body : List UInt8) : Prop := 8 + 16 ≤ body.length ∧ body.length ≤ netHttpCaptureSize

/-- The request is out, and no record has come in part. -/
structure AppDataIdle (s : Tls) : Prop where
  appTx : s.appTx = true
  keyBlockValid : s.keys.keyBlockValid = true
  recordPending : s.recordPending = 0
  appPendingLen : s.appPendingLen = 0
  appRecord : s.appRecord = []

/-- `got` of the record has arrived. -/
def appDataPart (got body : List UInt8) (s : Tls) : Tls :=
  { s with appRecord := got, appPendingLen := body.length, appRx := true }

variable {s : Tls} {body : List UInt8}

/-- What a record of the peer says, if it is authentic. -/
def appDataPlain (k : Keys) (body : List UInt8) : Option (List UInt8) :=
  if body.length - 8 - 16 = 0 ∨ body.length - 8 - 16 > netHttpCaptureSize then none
  else decryptRecord k 1 0x17 body

theorem processAppData_eq (hlen : 8 + 16 ≤ body.length) (happTx : s.appTx = true)
    (hkey : s.keys.keyBlockValid = true) :
    netTlsProcessAppDataRecord body s =
      match appDataPlain s.keys body with
      | none => { s with appRx := true }
      | some plain =>
        { s with
          appRx := true
          appDecrypt := true
          appResponseLen := body.length - 8 - 16
          http := netHttpCapturePayload plain s.http } := by
  unfold netTlsProcessAppDataRecord appDataPlain
  rw [if_neg (Nat.not_lt.2 hlen), if_neg (by rw [happTx, hkey]; decide)]
  split_ifs with hempty
  · exact if_pos hempty
  · dsimp only
    cases decryptRecord s.keys 1 0x17 body <;> simp only [if_neg hempty]

theorem AppDataIdle.process (h : AppDataIdle s) (hfits : AppDataFits body) :
    AppDataIdle (netTlsProcessAppDataRecord body s) := by
  obtain ⟨happTx, hkey, hrecord, hpending, happ⟩ := h
  rw [processAppData_eq hfits.1 happTx hkey]
  cases appDataPlain s.keys body with
  | none => exact ⟨happTx, hkey, hrecord, hpending, happ⟩
  | some plain => exact ⟨happTx, hkey, hrecord, hpending, happ⟩

/-- The record is processed from the buffer that it was put together in. -/
theorem netTlsAppPendingDone_whole (hfits : AppDataFits body) (hidle : AppDataIdle s) :
    netTlsAppPendingDone (appDataPart body body s) = netTlsProcessAppDataRecord body s := by
  obtain ⟨happTx, hkey, hrecord, hpending, happ⟩ := hidle
  have hwhole : (appDataPart body body s).appRecord.length ≥
    (appDataPart body body s).appPendingLen := Nat.le_refl body.length
  rw [netTlsAppPendingDone, if_pos hwhole, processAppData_eq hfits.1 happTx hkey]
  have hpart := processAppData_eq (s := appDataPart body body s) hfits.1 happTx hkey
  have hback : { s with appPendingLen := 0, appRecord := [] } = s := by rw [← hpending, ← happ]
  rw [show (appDataPart body body s).appRecord = body from rfl, hpart]
  have hkeys : (appDataPart body body s).keys = s.keys := rfl
  rw [hkeys]
  cases appDataPlain s.keys body with
  | none => exact congrArg (fun s : Tls => { s with appRx := true }) hback
  | some plain =>
    exact congrArg (fun s : Tls =>
      { s with
        appRx := true
        appDecrypt := true
        appResponseLen := body.length - 8 - 16
        http := netHttpCapturePayload plain s.http }) hback

theorem netTlsAppPendingDone_part {got : List UInt8} (h : got.length < body.length) :
    netTlsAppPendingDone (appDataPart got body s) = appDataPart got body s :=
  if_neg (Nat.not_le.2 h)

/-- `got` of the body has come; with `more` it is still not whole. -/
theorem netTlsAppPendingContinue_part {got more rest : List UInt8} (hmore : more ≠ [])
    (hrest : rest ≠ []) (hfits : AppDataFits (got ++ (more ++ rest))) :
    netTlsAppPendingContinue more (appDataPart got (got ++ (more ++ rest)) s) =
      ([], appDataPart (got ++ more) (got ++ (more ++ rest)) s) := by
  have hpos := List.length_pos_iff.2 hmore
  have hlong := List.length_pos_iff.2 hrest
  have hfit := hfits.2
  rw [List.length_append, List.length_append] at hfit
  have hcopy : min more.length ((got ++ (more ++ rest)).length - got.length) = more.length := by
    rw [List.length_append, List.length_append]
    omega
  have hstart : ((appDataPart got (got ++ (more ++ rest)) s).appPendingLen == 0 ||
      more.isEmpty) = false := by
    rw [Bool.or_eq_false_iff, beq_eq_false_iff_ne]
    refine ⟨?_, by simpa using hmore⟩
    show (got ++ (more ++ rest)).length ≠ 0
    rw [List.length_append, List.length_append]
    omega
  unfold netTlsAppPendingContinue
  rw [if_neg (by rw [hstart]; exact Bool.false_ne_true)]
  simp only [appDataPart, hcopy]
  rw [if_pos ⟨by omega, by omega⟩, List.drop_length, List.take_length]
  refine congrArg (Prod.mk []) (netTlsAppPendingDone_part ?_)
  rw [List.length_append, List.length_append, List.length_append]
  omega

theorem netTlsAppPendingContinue_whole {got rest q : List UInt8} (hrest : rest ≠ [])
    (hfits : AppDataFits (got ++ rest)) (hidle : AppDataIdle s) :
    netTlsAppPendingContinue (rest ++ q) (appDataPart got (got ++ rest) s) =
      (q, netTlsProcessAppDataRecord (got ++ rest) s) := by
  have hlong := List.length_pos_iff.2 hrest
  have hfit := hfits.2
  rw [List.length_append] at hfit
  have hcopy : min (rest ++ q).length ((got ++ rest).length - got.length) = rest.length := by
    rw [List.length_append, List.length_append]
    omega
  have hstart : ((appDataPart got (got ++ rest) s).appPendingLen == 0 ||
      (rest ++ q).isEmpty) = false := by
    rw [Bool.or_eq_false_iff, beq_eq_false_iff_ne]
    refine ⟨?_, by simp [hrest]⟩
    show (got ++ rest).length ≠ 0
    rw [List.length_append]
    omega
  unfold netTlsAppPendingContinue
  rw [if_neg (by rw [hstart]; exact Bool.false_ne_true)]
  simp only [appDataPart, hcopy]
  rw [if_pos ⟨by omega, by omega⟩, List.drop_left, List.take_left]
  exact congrArg (Prod.mk q) (netTlsAppPendingDone_whole hfits hidle)

/-! ## Records as they come -/

theorem AppDataFits.admitted (hfits : AppDataFits body) : Admitted 0x17 body.length := by
  obtain ⟨hmin, hmax⟩ := hfits
  unfold netHttpCaptureSize at hmax
  exact ⟨by decide, by decide, by omega, by omega⟩

/-- Nothing but the body counts. -/
theorem noteRecord_appData (s : Tls) : noteRecord 0x17 s = s := rfl

theorem noteCcs_appData (s : Tls) : noteCcs 0x17 s = s := by
  rw [noteCcs, if_neg]
  rw [show ((0x17 : UInt8) == 0x14) = false from rfl, Bool.and_false]
  exact Bool.false_ne_true

theorem captureRecords_frame (hfits : AppDataFits body) (hidle : AppDataIdle s) (fuel : ℕ)
    (q : List UInt8) :
    captureRecords mul (fuel + 1) (appDataHeader body ++ (body ++ q)) s =
      captureRecords mul fuel q (netTlsProcessAppDataRecord body s) := by
  have hadmit : admitRecord mul 0x17 body s = netTlsProcessAppDataRecord body s := by
    unfold admitRecord
    rw [noteRecord_appData, noteCcs_appData]
    dsimp only
    rw [show ((0x17 : UInt8) == 0x16) = false from rfl, Bool.and_false, if_neg Bool.false_ne_true,
      hidle.appTx]
    rfl
  rw [appDataHeader, captureRecords_record hfits.admitted, hadmit]

theorem captureRecords_start {got rest : List UInt8} (hfits : AppDataFits (got ++ rest))
    (hrest : rest ≠ []) (hidle : AppDataIdle s) (fuel : ℕ) :
    captureRecords mul (fuel + 1) (appDataHeader (got ++ rest) ++ got) s =
      appDataPart got (got ++ rest) s := by
  have hlong := List.length_pos_iff.2 hrest
  have hshort : got.length < (got ++ rest).length := by
    rw [List.length_append]
    omega
  have hbound : ¬((got ++ rest).length = 0 ∨ (got ++ rest).length > netHttpCaptureSize) := by
    have := hfits.1
    have := hfits.2
    omega
  rw [appDataHeader, captureRecords_succ hfits.admitted]
  dsimp only
  rw [if_neg (Nat.not_le.2 hshort), noteRecord_appData, hidle.appTx,
    if_pos (show (true && (0x17 : UInt8) == 0x17) = true from rfl), List.take_of_length_le (Nat.le_of_lt hshort), netTlsAppPendingStart, if_neg hbound,
    List.take_of_length_le (Nat.le_of_lt hshort)]
  exact netTlsAppPendingDone_part hshort

theorem netTlsContinuePending_idle (payload : List UInt8) (h : s.recordPending = 0) :
    netTlsContinuePending mul payload s = (payload, s) := by
  rw [netTlsContinuePending, if_pos]
  rw [h]
  rfl

theorem netTlsCapturePayload_nil : netTlsCapturePayload mul [] s = s := rfl

theorem netTlsCapturePayload_idle (payload : List UInt8) (hidle : AppDataIdle s) :
    netTlsCapturePayload mul payload s = captureRecords mul payload.length payload s := by
  have hpending : netTlsAppPendingContinue payload s = (payload, s) := by
    rw [netTlsAppPendingContinue, if_pos]
    rw [hidle.appPendingLen]
    rfl
  cases payload with
  | nil => rfl
  | cons byte payload =>
    rw [netTlsCapturePayload, if_neg (by simp), netTlsContinuePending_idle _ hidle.recordPending]
    dsimp only
    rw [hpending]

/-- `net_tls_capture_payload` receives the application data of its server. -/
theorem appDataReceiver : Framing.Receiver appDataHeader AppDataFits AppDataIdle
    (netTlsCapturePayload mul) netTlsProcessAppDataRecord appDataPart where
  nil _ := rfl
  idle hfits hidle := hidle.process hfits
  frame {body q s} hfits hidle := by
    have hlen : (appDataHeader body ++ (body ++ q)).length = 4 + body.length + q.length + 1 := by
      simp only [appDataHeader, length_recordHeader, List.length_append]
      omega
    rw [netTlsCapturePayload_idle _ hidle, netTlsCapturePayload_idle _ (hidle.process hfits), hlen,
      captureRecords_frame hfits hidle, captureRecords_fuel _ (by omega)]
  start {got rest s} hfits hrest hidle := by
    have hlen : (appDataHeader (got ++ rest) ++ got).length = 4 + got.length + 1 := by
      simp only [appDataHeader, length_recordHeader, List.length_append]
      omega
    rw [netTlsCapturePayload_idle _ hidle, hlen, captureRecords_start hfits hrest hidle]
  more {got more rest s} hfits hrest hidle := by
    rcases eq_or_ne more [] with rfl | hmore
    · rw [List.append_nil]
      rfl
    · have hempty : more.isEmpty = false := by simpa using hmore
      rw [netTlsCapturePayload, hempty, netTlsContinuePending_idle]
      · dsimp only
        rw [netTlsAppPendingContinue_part hmore hrest hfits]
        rfl
      · exact hidle.recordPending
  last {got rest q s} hfits hrest hidle := by
    have hempty : (rest ++ q).isEmpty = false := by simp [hrest]
    rw [netTlsCapturePayload, hempty, netTlsContinuePending_idle]
    · dsimp only
      rw [netTlsAppPendingContinue_whole hrest hfits hidle,
        netTlsCapturePayload_idle _ (hidle.process hfits)]
      rfl
    · exact hidle.recordPending

end

/-- A client whose request is out. -/
def requested : Tls :=
  { Tls.reset (chars "a") zeros32 with
    appTx := true
    keys := { Keys.reset with keyBlockValid := true } }

end MinervaOS.Tls
