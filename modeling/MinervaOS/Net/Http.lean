import Mathlib.Data.List.Basic
import Mathlib.Tactic.SplitIfs

/-!
# The captured response

The first 8192 bytes of what a server sends, with the status of its first line and the place where
its body starts.
-/

namespace MinervaOS.Net

def netHttpCaptureSize : Nat := 8192

structure Http where
  /-- `http_response`, as far as `http_response_len`. -/
  response : List UInt8
  bodyOffset : Nat
  valid : Bool
  status : Nat

/-- Where the first empty line ends, looking from `i` on. -/
def findBlankLine : Nat → List UInt8 → Option Nat
  | i, a :: rest =>
    if a = 13 ∧ rest.take 3 = [10, 13, 10] then some (i + 4) else findBlankLine (i + 1) rest
  | _, [] => none

def netHttpFindBody (s : Http) : Http :=
  if s.bodyOffset ≠ 0 then s
  else if s.response.length < 4 then s
  else
    match findBlankLine 0 s.response with
    | some offset => { s with bodyOffset := offset }
    | none => s

def isDigit (byte : UInt8) : Bool := 48 ≤ byte && byte ≤ 57

def netHttpParseStatus (payload : List UInt8) (s : Http) : Http :=
  let at' := fun i => payload.getD i 0
  if payload.length < 12 || s.valid then s
  else if payload.take 4 = [72, 84, 84, 80] ∧ at' 8 = 32 ∧ isDigit (at' 9) ∧ isDigit (at' 10) ∧
      isDigit (at' 11) then
    { s with
      status := ((at' 9).toNat - 48) * 100 + ((at' 10).toNat - 48) * 10 + ((at' 11).toNat - 48)
      valid := true }
  else s

def netHttpCapturePayload (payload : List UInt8) (s : Http) : Http :=
  if payload.isEmpty then s
  else
    let s := netHttpParseStatus payload s
    if s.response.length ≥ netHttpCaptureSize then s
    else
      let room := netHttpCaptureSize - s.response.length
      netHttpFindBody { s with response := s.response ++ payload.take room }

/-! ## Chunks -/

/-- What `net_http_get_url` resets before it asks for a page. -/
def Http.reset : Http := ⟨[], 0, false, 0⟩

/-- The status that a payload begins with, as `net_http_parse_status` reads it. -/
def statusLine (payload : List UInt8) : Option Nat :=
  if (netHttpParseStatus payload .reset).valid then
    some (netHttpParseStatus payload .reset).status
  else none

theorem netHttpParseStatus_eq (payload : List UInt8) (s : Http) : netHttpParseStatus payload s =
    if s.valid then s else
      match statusLine payload with
      | some status => { s with status := status, valid := true }
      | none => s := by
  unfold statusLine netHttpParseStatus Http.reset
  cases hv : s.valid with
  | true => simp
  | false =>
    simp only [Bool.or_false, Bool.false_eq_true, if_false]
    split_ifs <;> simp_all

theorem statusLine_nil : statusLine [] = none := rfl

theorem le_of_findBlankLine {l : List UInt8} : ∀ {i offset : Nat}, findBlankLine i l = some offset →
    i + 4 ≤ offset ∧ offset ≤ i + l.length := by
  induction l with
  | nil => exact fun h => by cases h
  | cons a l ih =>
    intro i offset h
    unfold findBlankLine at h
    split at h
    · rename_i hline
      obtain rfl := Option.some.inj h
      have hlen := congrArg List.length hline.2
      simp only [List.length_take, List.length_cons, List.length_nil] at hlen ⊢
      omega
    · have := ih h
      rw [List.length_cons]
      omega

/-- An empty line stays the first one when more bytes come behind it. -/
theorem findBlankLine_append {l : List UInt8} :
    ∀ {i offset : Nat}, findBlankLine i l = some offset →
    ∀ r, findBlankLine i (l ++ r) = some offset := by
  induction l with
  | nil => exact fun h => by cases h
  | cons a l ih =>
    intro i offset h r
    rw [List.cons_append]
    unfold findBlankLine at h ⊢
    split at h
    · rename_i hline
      have hlen : 3 ≤ l.length := by
        have := congrArg List.length hline.2
        simp only [List.length_take, List.length_cons, List.length_nil] at this
        omega
      rw [if_pos ⟨hline.1, by rw [List.take_append_of_le_length hlen, hline.2]⟩]
      exact h
    · rename_i hno
      have hlate := le_of_findBlankLine h
      -- the line would need a byte of `r`, so `l` would be too short for the one found behind it
      rw [if_neg fun hyes => hno ⟨hyes.1, ?_⟩]
      · exact ih h r
      · rw [← hyes.2, List.take_append_of_le_length (by omega)]

/-- The state after the bytes `stream`, of which the status was read as `status`. -/
def Http.after (stream : List UInt8) (status : Option Nat) : Http where
  response := stream.take netHttpCaptureSize
  bodyOffset := (findBlankLine 0 (stream.take netHttpCaptureSize)).getD 0
  valid := status.isSome
  status := status.getD 0

theorem netHttpFindBody_eq {old new : List UInt8} (h : old <+: new) (valid : Bool) (status : Nat) :
    netHttpFindBody ⟨new, (findBlankLine 0 old).getD 0, valid, status⟩ =
      ⟨new, (findBlankLine 0 new).getD 0, valid, status⟩ := by
  obtain ⟨r, rfl⟩ := h
  unfold netHttpFindBody
  cases hold : findBlankLine 0 old with
  | some offset =>
    have hpos := le_of_findBlankLine hold
    rw [findBlankLine_append hold r, Option.getD_some, if_pos (by show offset ≠ 0; omega)]
  | none =>
    rw [Option.getD_none, if_neg (by simp)]
    cases hnew : findBlankLine 0 (old ++ r) with
    | some offset =>
      have hlong := le_of_findBlankLine hnew
      rw [if_neg (by show ¬(old ++ r).length < 4; omega)]
      rfl
    | none => split <;> rfl

/-- One more chunk: the response grows as far as there is room, and the status is that of the first
chunk that begins with one. -/
theorem netHttpCapturePayload_after (chunk stream : List UInt8) (status : Option Nat) :
    netHttpCapturePayload chunk (.after stream status) =
      .after (stream ++ chunk) (status.or (statusLine chunk)) := by
  unfold netHttpCapturePayload
  by_cases hempty : chunk = []
  · simp [hempty, statusLine_nil]
  have hstatus : netHttpParseStatus chunk (.after stream status) =
      .after stream (status.or (statusLine chunk)) := by
    rw [netHttpParseStatus_eq]
    cases status with
    | some v => rfl
    | none => cases statusLine chunk <;> rfl
  rw [if_neg (by simpa using hempty), hstatus]
  have hlen : (Http.after stream (status.or (statusLine chunk))).response.length =
      min netHttpCaptureSize stream.length := by simp [Http.after]
  by_cases hfull : netHttpCaptureSize ≤ stream.length
  · rw [if_pos (by rw [hlen]; omega)]
    unfold Http.after
    rw [List.take_append_of_le_length hfull]
  · rw [if_neg (by rw [hlen]; omega)]
    have hroom :
      netHttpCaptureSize - (Http.after stream (status.or (statusLine chunk))).response.length =
        netHttpCaptureSize - stream.length := by rw [hlen]; omega
    have hresponse : (Http.after stream (status.or (statusLine chunk))).response ++
        chunk.take (netHttpCaptureSize - stream.length) =
          (stream ++ chunk).take netHttpCaptureSize := by
      rw [List.take_append]
      rfl
    simp only [hroom, hresponse]
    refine netHttpFindBody_eq ?_ _ _
    rw [List.take_append]
    exact List.prefix_append _ _

theorem foldl_after (chunks : List (List UInt8)) : ∀ (stream : List UInt8) (status : Option Nat),
    chunks.foldl (fun s chunk => netHttpCapturePayload chunk s) (.after stream status) =
      .after (stream ++ chunks.flatten) (status.or (chunks.findSome? statusLine)) := by
  induction chunks with
  | nil => intro stream status; simp
  | cons chunk chunks ih =>
    intro stream status
    rw [List.foldl_cons, netHttpCapturePayload_after, ih, List.flatten_cons, List.append_assoc,
      List.findSome?_cons, Option.or_assoc]
    cases statusLine chunk <;> rfl

theorem after_inj {stream : List UInt8} {a b : Option Nat} :
    Http.after stream a = Http.after stream b ↔ a = b := by
  refine ⟨fun h => ?_, fun h => by rw [h]⟩
  have hvalid : a.isSome = b.isSome := congrArg Http.valid h
  have hstatus : a.getD 0 = b.getD 0 := congrArg Http.status h
  cases a <;> cases b <;> simp_all

end MinervaOS.Net
