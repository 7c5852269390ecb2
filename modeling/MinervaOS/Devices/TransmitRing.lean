import MinervaOS.Lib.Thread
import Mathlib.Data.List.Basic
import Mathlib.Tactic.Ring

/-!
# The ring of transmit descriptors

`e1000_send_frame` against a card that sends the frames of the descriptors in ring order while its
head is not at its tail, and sets `DD` of each as late as it likes. A call that has moved the tail
register and then polls `DD` too often returns 0, as a call does that has not moved it, so
`net_send_tcp_segment` sends its segment again (`sends_once_iff`).
-/

namespace MinervaOS.Devices

/-- `e1000_tx_desc_t`. -/
structure TxDesc where
  addrLow : ℕ
  length : UInt16
  cso : UInt8
  cmd : UInt8
  status : UInt8
  css : UInt8
  special : UInt16

/-- The fields of `e1000_info_t` for sending. -/
structure TxInfo where
  present : Bool
  mmio : Bool
  macValid : Bool
  txReady : Bool
  rxReady : Bool
  mmioBase : UInt32
  txAttempts : UInt32
  txSent : UInt32
  txErrors : UInt32
  txLastStatus : UInt8

/-- The driver's memory, the registers of the card, how many of the frames that it has sent are
without `DD` yet, the frames on the wire, and all frames of which the tail register has told the
card. -/
structure Tx where
  info : TxInfo
  txDescs : ℕ → TxDesc
  txBuffers : ℕ → UInt8
  tctl : UInt32
  tdlen : ℕ
  tdh : ℕ
  tdt : ℕ
  owed : ℕ
  wire : List (List UInt8)
  told : List (List UInt8)

namespace Tx

def setDesc (s : Tx) (i : ℕ) (f : TxDesc → TxDesc) : Tx :=
  { s with txDescs := fun j => if j = i then f (s.txDescs i) else s.txDescs j }

/-- A write of the bytes into `tx_buffers[i]`. -/
def store (s : Tx) (i : ℕ) (bytes : List UInt8) : Tx :=
  { s with txBuffers := fun p =>
      if 1536 * i ≤ p ∧ p < 1536 * i + bytes.length then bytes.getD (p - 1536 * i) 0
      else s.txBuffers p }

/-- The frame of a descriptor. -/
def frameAt (s : Tx) (i : ℕ) : List UInt8 :=
  (List.range (s.txDescs i).length.toNat).map fun k => s.txBuffers ((s.txDescs i).addrLow + k)

/-- `e1000_write32(E1000_REG_TDT, value)`, which tells the card of the frame before the new tail. -/
def writeTail (s : Tx) (value : ℕ) : Tx :=
  { s with tdt := value, told := s.told ++ [s.frameAt s.tdt] }

end Tx

def e1000TxInit (s : Tx) : Tx :=
  if !s.info.mmio || s.info.mmioBase == 0 || !s.info.macValid then s
  else { s with
    txDescs := fun i => if i < 8 then ⟨1536 * i, 0, 0, 0, 1, 0, 0⟩ else s.txDescs i
    txBuffers := fun p => if p < 8 * 1536 then 0 else s.txBuffers p
    tdlen := 128
    tdh := 0
    tdt := 0
    tctl := 0x2 ||| 0x8 ||| 0x100 ||| 0x40000
    info := { s.info with txReady := true } }

/-! ## The card -/

/-- The card sends the frame of the descriptor at the head. -/
def Tx.sent (s : Tx) : Tx :=
  { s with
    wire := s.wire ++ [s.frameAt s.tdh], tdh := (s.tdh + 1) % (s.tdlen / 16),
    owed := s.owed + 1 }

/-- The card sets `DD` of the first descriptor that is without. -/
def Tx.completed (s : Tx) : Tx :=
  { s.setDesc ((s.tdh + s.tdlen / 16 - s.owed) % (s.tdlen / 16)) fun d =>
    { d with status := d.status ||| 1 } with
    owed := s.owed - 1 }

/-- The steps of the card. -/
inductive TxNic : Tx → Tx → Prop
  | send {s : Tx} : s.tctl &&& 2 ≠ 0 → s.tdh ≠ s.tdt → TxNic s s.sent
  | complete {s : Tx} : 0 < s.owed → TxNic s s.completed

/-! ## The driver -/

/-- The first access of a call of `e1000_send_frame`, and all others. -/
inductive TxAccess where
  | sendFrame (frameData : Option (List UInt8))
  | other

abbrev TxThread := Thread TxAccess Tx

open Thread (read write)

/-- A write of `g_e1000`. -/
def setTxInfo (f : TxInfo → TxInfo) : TxThread Unit :=
  write .other fun s => { s with info := f s.info }

/-- A write of a field of `tx_descs[i]`. -/
def setTxDesc (i : ℕ) (f : TxDesc → TxDesc) : TxThread Unit := write .other fun s => s.setDesc i f

/-- The frame with its padding, in the buffer and the descriptor `tail`. -/
def fillDesc (tail : ℕ) (frame : List UInt8) : TxThread Unit := do
  let wireLength := if frame.length < 60 then 60 else frame.length
  write .other fun s => s.store tail (List.replicate wireLength 0)
  write .other fun s => s.store tail frame
  setTxDesc tail fun d => { d with length := UInt16.ofNat wireLength }
  setTxDesc tail fun d => { d with cso := 0 }
  setTxDesc tail fun d => { d with cmd := 0x1 ||| 0x2 ||| 0x8 }
  setTxDesc tail fun d => { d with status := 0 }
  setTxDesc tail fun d => { d with css := 0 }
  setTxDesc tail fun d => { d with special := 0 }
  setTxInfo fun g => { g with txAttempts := g.txAttempts + 1 }

/-- The part of `e1000_send_frame` before the write of the tail register: the descriptor, unless it
has refused. -/
def draftFrame (frameData : Option (List UInt8)) : TxThread (Option ℕ) := do
  let info ← read (.sendFrame frameData) fun s => s.info
  if !info.present || !info.txReady || !info.macValid then
    setTxInfo fun g => { g with txErrors := g.txErrors + 1, txLastStatus := 0 }
    return none
  else match frameData.filter fun frame => frame.length ≤ 1536 with
    | none =>
      setTxInfo fun g => { g with txErrors := g.txErrors + 1, txLastStatus := 0 }
      return none
    | some frame =>
      let tail ← read .other fun s => s.tdt % 8
      let status ← read .other fun s => (s.txDescs tail).status
      if status &&& 1 == 0 then
        let lastStatus ← read .other fun s => (s.txDescs tail).status
        setTxInfo fun g => { g with txErrors := g.txErrors + 1, txLastStatus := lastStatus }
        return none
      else
        fillDesc tail frame
        return some tail

/-- The polls of `DD`, so many times. -/
def awaitDone (tail : ℕ) : ℕ → TxThread Int
  | 0 => do
    let lastStatus ← read .other fun s => (s.txDescs tail).status
    setTxInfo fun g => { g with txErrors := g.txErrors + 1, txLastStatus := lastStatus }
    return 0
  | spins + 1 => do
    let status ← read .other fun s => (s.txDescs tail).status
    if status &&& 1 != 0 then
      let lastStatus ← read .other fun s => (s.txDescs tail).status
      setTxInfo fun g => { g with txSent := g.txSent + 1, txLastStatus := lastStatus }
      return 1
    else awaitDone tail spins

def e1000SendFrame (frameData : Option (List UInt8)) : TxThread Int := do
  match ← draftFrame frameData with
  | none => return 0
  | some tail =>
    write .other fun s => s.writeTail ((tail + 1) % 8)
    awaitDone tail 100000

/-- What `net_poll_frames` is to this ring: some time for the card. -/
def wait : ℕ → TxThread Unit
  | 0 => return ()
  | n + 1 => do
    read .other fun _ => ()
    wait n

/-- What a call of `net_send_tcp_segment` finds and sends: whether the gateway is known, the request
for it, how long the answer takes and whether there is one, the segment with its headers, the length
of its payload, and how long `net_poll_frames` takes behind each attempt. -/
structure Segment where
  gatewayMacValid : Bool
  request : List UInt8
  answerTime : ℕ
  answered : Bool
  frame : List UInt8
  payloadLen : UInt16
  pollTime : ℕ → ℕ

def netArpProbeGateway (a : Segment) : TxThread Bool := do
  let nic ← read .other fun s => s.info
  if !nic.present || !nic.txReady || !nic.rxReady || !nic.macValid then return false
  else
    let sent ← e1000SendFrame (some a.request)
    if sent == 0 then return false
    else
      wait a.answerTime
      return a.answered

/-- `g_net.gateway_mac_valid || net_arp_probe_gateway()`. -/
def findGateway (a : Segment) : TxThread Bool :=
  if a.gatewayMacValid then return true else netArpProbeGateway a

def sendAttempts (a : Segment) : ℕ → TxThread Int
  | 0 => return 0
  | attempts + 1 => do
    let sent ← e1000SendFrame (some a.frame)
    if sent != 0 then return 1
    else
      wait (a.pollTime attempts)
      sendAttempts a attempts

def netSendTcpSegment (a : Segment) : TxThread Int := do
  let nic ← read .other fun s => s.info
  if !nic.present || !nic.txReady || !nic.rxReady || !nic.macValid then return 0
  else
    let valid ← findGateway a
    if !valid then return 0
    else if 160 < a.payloadLen then return 0
    else sendAttempts a 8

/-! ## What a call tells the card -/

/-- A thread of the driver that the card may interrupt. -/
abbrev TxDoes {α : Type} (t : TxThread α) (Q : α → Tx → Prop) (s : Tx) : Prop :=
  t.Holds TxNic (fun _ _ => True) Q s

section Told

open Thread (Stable holds_read holds_write holds_pure)
open Relation (ReflTransGen)

variable {s : Tx} {told : List (List UInt8)}

theorem told_stable (told : List (List UInt8)) : Stable TxNic fun s => s.told = told := by
  intro s s' h hstep
  cases hstep with
  | send _ _ => exact h
  | complete _ => exact h

theorem read_told {β : Type} {i : TxAccess} {g : Tx → β} (h : s.told = told) :
    TxDoes (read i g) (fun _ s => s.told = told) s :=
  holds_read (told_stable told) (fun _ => told_stable told) (fun _ _ => trivial) (fun _ hs => hs) h

theorem write_told {i : TxAccess} {f : Tx → Tx} (hf : ∀ s, (f s).told = s.told)
    (h : s.told = told) :
    TxDoes (write i f) (fun _ s => s.told = told) s :=
  holds_write (told_stable told) (told_stable told) (fun _ _ => trivial)
    (fun s hs => (hf s).trans hs) h

theorem pure_told {β : Type} {b : β} (h : s.told = told) :
    TxDoes (pure b) (fun _ s => s.told = told) s :=
  holds_pure (told_stable told) h

theorem fillDesc_told (tail : ℕ) (frame : List UInt8) (h : s.told = told) :
    TxDoes (fillDesc tail frame) (fun _ s => s.told = told) s := by
  unfold fillDesc
  refine Thread.Holds.seq (write_told (fun _ => rfl) h) fun _ s h => ?_
  refine Thread.Holds.seq (write_told (fun _ => rfl) h) fun _ s h => ?_
  refine Thread.Holds.seq (write_told (fun _ => rfl) h) fun _ s h => ?_
  refine Thread.Holds.seq (write_told (fun _ => rfl) h) fun _ s h => ?_
  refine Thread.Holds.seq (write_told (fun _ => rfl) h) fun _ s h => ?_
  refine Thread.Holds.seq (write_told (fun _ => rfl) h) fun _ s h => ?_
  refine Thread.Holds.seq (write_told (fun _ => rfl) h) fun _ s h => ?_
  refine Thread.Holds.seq (write_told (fun _ => rfl) h) fun _ s h => ?_
  exact write_told (fun _ => rfl) h

theorem draftFrame_told (frameData : Option (List UInt8)) (h : s.told = told) :
    TxDoes (draftFrame frameData) (fun _ s => s.told = told) s := by
  unfold draftFrame
  refine Thread.Holds.seq (read_told h) fun info s h => ?_
  split
  · exact Thread.Holds.seq (write_told (fun _ => rfl) h) fun _ s h => pure_told h
  generalize Option.filter _ frameData = d
  rcases d with _ | frame
  · exact Thread.Holds.seq (write_told (fun _ => rfl) h) fun _ s h => pure_told h
  refine Thread.Holds.seq (read_told h) fun tail s h => ?_
  refine Thread.Holds.seq (read_told h) fun status s h => ?_
  split
  · refine Thread.Holds.seq (read_told h) fun _ s h => ?_
    exact Thread.Holds.seq (write_told (fun _ => rfl) h) fun _ s h => pure_told h
  · exact Thread.Holds.seq (fillDesc_told tail frame h) fun _ s h => pure_told h

theorem awaitDone_told (tail : ℕ) : ∀ (spins : ℕ) {s : Tx}, s.told = told →
    TxDoes (awaitDone tail spins) (fun _ s => s.told = told) s
  | 0, _, h => by
    refine Thread.Holds.seq (read_told h) fun _ s h => ?_
    exact Thread.Holds.seq (write_told (fun _ => rfl) h) fun _ s h => pure_told h
  | spins + 1, _, h => by
    refine Thread.Holds.seq (read_told h) fun status s h => ?_
    split
    · refine Thread.Holds.seq (read_told h) fun _ s h => ?_
      exact Thread.Holds.seq (write_told (fun _ => rfl) h) fun _ s h => pure_told h
    · exact awaitDone_told tail spins h

/-! ### Among known steps of the card -/

section Timing

-- what the card does before the access at a time
variable (others : ℕ → Tx → Tx)

/-- The state behind the write of the tail register by a call that has drafted the descriptor
`tail`. -/
def toldState (frameData : Option (List UInt8)) (n : ℕ) (s : Tx) (tail : ℕ) : Tx :=
  let r := (draftFrame frameData).run others n s
  (others r.2.1 r.2.2).writeTail ((tail + 1) % 8)

/-- If the call comes to the write of the tail register, one of its polls finds `DD`. -/
def InTime (frameData : Option (List UInt8)) (n : ℕ) (s : Tx) : Prop :=
  ∀ tail, ((draftFrame frameData).run others n s).1 = some tail → ∃ k < 100000,
    ((Thread.idle others (((draftFrame frameData).run others n s).2.1 + 1)
      (toldState others frameData n s tail)
      k).txDescs tail).status &&& 1 ≠ 0

/-- A call that returns 0 has not told the card of a frame. -/
def Refuses (frameData : Option (List UInt8)) (n : ℕ) (s : Tx) : Prop :=
  ((e1000SendFrame frameData).run others n s).1 = 0 →
    ((e1000SendFrame frameData).run others n s).2.2.told = s.told

variable {others}

theorem awaitDone_value (tail : ℕ) : ∀ (spins n : ℕ) (s : Tx),
    (((awaitDone tail spins).run others n s).1 = 1 ∧
      ∃ k < spins, ((Thread.idle others n s k).txDescs tail).status &&& 1 ≠ 0) ∨
    (((awaitDone tail spins).run others n s).1 = 0 ∧
      ¬∃ k < spins, ((Thread.idle others n s k).txDescs tail).status &&& 1 ≠ 0)
  | 0, _, _ => .inr ⟨rfl, fun ⟨_, hk, _⟩ => absurd hk (Nat.not_lt_zero _)⟩
  | spins + 1, n, s => by
    have hrun : (awaitDone tail (spins + 1)).run others n s =
        (if ((others n s).txDescs tail).status &&& 1 != 0 then (do
          let lastStatus ← read .other fun s => (s.txDescs tail).status
          setTxInfo fun g => { g with txSent := g.txSent + 1, txLastStatus := lastStatus }
          return 1)
        else awaitDone tail spins).run others (n + 1) (others n s) := rfl
    by_cases hdd : ((others n s).txDescs tail).status &&& 1 ≠ 0
    · rw [hrun, if_pos (bne_iff_ne.2 hdd)]
      exact .inl ⟨rfl, 0, Nat.succ_pos _, hdd⟩
    · rw [hrun, if_neg (by rwa [bne_iff_ne])]
      rcases awaitDone_value tail spins (n + 1) (others n s) with
        ⟨hvalue, k, hk, hdone⟩ | ⟨hvalue, hnone⟩
      · exact .inl ⟨hvalue, k + 1, Nat.succ_lt_succ hk, by rwa [Thread.idle_succ]⟩
      · refine .inr ⟨hvalue, fun hsome => hnone ?_⟩
        obtain ⟨k, hk, hdone⟩ := hsome
        cases k with
        | zero => exact absurd hdone hdd
        | succ k => exact ⟨k, Nat.lt_of_succ_lt_succ hk, by rwa [Thread.idle_succ] at hdone⟩

variable (hothers : ∀ n s, ReflTransGen TxNic s (others n s))

include hothers

/-- The calls that return 0 without having told the card are those that are in time. -/
theorem refuses_iff_inTime (frameData : Option (List UInt8)) (n : ℕ) (s : Tx) :
    Refuses others frameData n s ↔ InTime others frameData n s := by
  have hdraft := Thread.Holds.run hothers (draftFrame frameData) (n := n)
    (draftFrame_told frameData (s := s) rfl)
  unfold Refuses InTime toldState e1000SendFrame
  rw [Thread.run_bind]
  revert hdraft
  generalize (draftFrame frameData).run others n s = r
  intro hdraft
  obtain ⟨q, n', s'⟩ := r
  dsimp only at hdraft ⊢
  rcases q with _ | tail
  · exact ⟨fun _ tail h => (by cases h), fun _ _ => hdraft⟩
  have hrun : (do
      write .other fun s => s.writeTail ((tail + 1) % 8)
      awaitDone tail 100000 : TxThread Int).run others n' s' =
      (awaitDone tail 100000).run others (n' + 1) ((others n' s').writeTail ((tail + 1) % 8)) := rfl
  have htold : (others n' s').told = s.told := (told_stable s.told).steps hdraft (hothers n' s')
  have hafter := Thread.Holds.run hothers (awaitDone tail 100000) (n := n' + 1)
    (awaitDone_told tail 100000 (s := (others n' s').writeTail ((tail + 1) % 8)) rfl)
  have hmore : ((others n' s').writeTail ((tail + 1) % 8)).told ≠ s.told := by
    intro heq
    have hlength := congrArg List.length heq
    unfold Tx.writeTail at hlength
    rw [List.length_append, htold, List.length_singleton] at hlength
    omega
  dsimp only
  rw [hrun]
  rcases awaitDone_value tail 100000 (n' + 1) ((others n' s').writeTail ((tail + 1) % 8)) with
    ⟨hvalue, hdone⟩ | ⟨hvalue, hnone⟩
  · refine ⟨fun _ tail' h => ?_, fun _ h => ?_⟩
    · obtain rfl := Option.some.inj h
      exact hdone
    · rw [hvalue] at h
      exact absurd h (by decide)
  · refine ⟨fun h => absurd ((hafter.symm.trans (h hvalue))) hmore,
      fun h => absurd (h tail rfl) hnone⟩

end Timing

end Told

/-! ## The frames in the ring -/

/-- The wire has the first frames of which the card has been told, and the others are in their
descriptors; `DD` is not set in any of those that the card has not completed. -/
structure TxRing (s : Tx) : Prop where
  tdlen : s.tdlen = 128
  head : s.tdh = s.wire.length % 8
  tail : s.tdt = s.told.length % 8
  owed : s.owed ≤ s.wire.length
  le : s.told.length + s.owed ≤ s.wire.length + 8
  sent : s.wire <+: s.told
  addr : ∀ i < 8, (s.txDescs i).addrLow = 1536 * i
  clear : ∀ j, s.wire.length ≤ j + s.owed → j < s.told.length → (s.txDescs (j % 8)).status &&& 1 = 0
  frames : ∀ j (h : j < s.told.length), s.wire.length ≤ j → s.frameAt (j % 8) = s.told[j]
  size : ∀ f ∈ s.told, f.length ≤ 1536

theorem e1000TxInit_ring {s : Tx} (hmmio : s.info.mmio = true) (hbase : s.info.mmioBase ≠ 0)
    (hmac : s.info.macValid = true) (howed : s.owed = 0) (hwire : s.wire = [])
    (htold : s.told = []) :
    TxRing (e1000TxInit s) := by
  unfold e1000TxInit
  rw [if_neg (by simp [hmmio, hbase, hmac])]
  refine ⟨rfl, ?_, ?_, ?_, ?_, ?_, fun i hi => congrArg TxDesc.addrLow (if_pos hi),
    fun j _ hj => ?_, fun j hj => ?_, fun f hf => ?_⟩
  · show 0 = s.wire.length % 8
    rw [hwire]
    rfl
  · show 0 = s.told.length % 8
    rw [htold]
    rfl
  · exact howed.trans_le (Nat.zero_le _)
  · show s.told.length + s.owed ≤ s.wire.length + 8
    rw [htold, howed]
    exact Nat.zero_le _
  · show s.wire <+: s.told
    rw [hwire]
    exact List.nil_prefix
  · have hj' : j < s.told.length := hj
    rw [htold] at hj'
    exact absurd hj' (Nat.not_lt_zero j)
  · have hj' : j < s.told.length := hj
    rw [htold] at hj'
    exact absurd hj' (Nat.not_lt_zero j)
  · have hf' : f ∈ s.told := hf
    rw [htold] at hf'
    exact absurd hf' List.not_mem_nil

section Ring

variable {s s' : Tx}

theorem txSetDesc_of_ne {i j : ℕ} {g : TxDesc → TxDesc} (h : j ≠ i) :
    (s.setDesc i g).txDescs j = s.txDescs j :=
  if_neg h

theorem txSetDesc_self {i : ℕ} {g : TxDesc → TxDesc} :
    (s.setDesc i g).txDescs i = g (s.txDescs i) := if_pos rfl

theorem txSetDesc_addr {i : ℕ} {g : TxDesc → TxDesc} (hg : ∀ d, (g d).addrLow = d.addrLow) (j : ℕ) :
    ((s.setDesc i g).txDescs j).addrLow = (s.txDescs j).addrLow := by
  by_cases hj : j = i
  · subst hj
    rw [txSetDesc_self, hg]
  · rw [txSetDesc_of_ne hj]

theorem frameAt_setDesc {i : ℕ} {g : TxDesc → TxDesc}
    (hg : ∀ d, (g d).addrLow = d.addrLow ∧ (g d).length = d.length) (j : ℕ) :
    (s.setDesc i g).frameAt j = s.frameAt j := by
  unfold Tx.frameAt
  by_cases hj : j = i
  · subst hj
    rw [txSetDesc_self, (hg _).1, (hg _).2]
    rfl
  · rw [txSetDesc_of_ne hj]
    rfl

theorem TxRing.send (h : TxRing s) (hne : s.tdh ≠ s.tdt) : TxRing s.sent := by
  have hhead := h.head
  have htail := h.tail
  have howed := h.owed
  have hle := h.le
  have hwire := h.sent.length_le
  have hlt : s.wire.length < s.told.length := by
    have hneq : s.wire.length ≠ s.told.length := fun heq => hne (by rw [hhead, htail, heq])
    omega
  have hlength : s.sent.wire.length = s.wire.length + 1 := List.length_append
  have hframe : s.frameAt s.tdh = s.told[s.wire.length] := by
    rw [hhead]
    exact h.frames _ hlt le_rfl
  refine ⟨h.tdlen, ?_, htail, ?_, ?_, ?_, h.addr, fun j hj => h.clear j ?_,
    fun j hj hj' => h.frames j hj ?_, h.size⟩
  · show (s.tdh + 1) % (s.tdlen / 16) = _
    rw [h.tdlen, hlength]
    omega
  · rw [hlength]
    exact Nat.succ_le_succ howed
  · rw [hlength]
    show s.told.length + (s.owed + 1) ≤ _
    omega
  · have htake := List.prefix_iff_eq_take.1 h.sent
    have hmore : s.wire ++ [s.told[s.wire.length]] = s.told.take (s.wire.length + 1) := by
      rw [List.take_succ_eq_append_getElem hlt, ← htake]
    show s.wire ++ [s.frameAt s.tdh] <+: s.told
    rw [hframe, hmore]
    exact List.take_prefix _ _
  · rw [hlength] at hj
    have hj' : s.wire.length + 1 ≤ j + (s.owed + 1) := hj
    omega
  · rw [hlength] at hj'
    exact (Nat.le_succ _).trans hj'

/-- The descriptor that is completed is none of those behind it. -/
theorem TxRing.complete (h : TxRing s) (hpos : 0 < s.owed) : TxRing s.completed := by
  have hhead := h.head
  have howed := h.owed
  have hle := h.le
  have hindex : (s.tdh + s.tdlen / 16 - s.owed) % (s.tdlen / 16) =
      (s.wire.length - s.owed) % 8 := by
    have hwire := h.sent.length_le
    rw [h.tdlen]
    omega
  have howed' : s.completed.owed = s.owed - 1 := rfl
  refine ⟨h.tdlen, hhead, h.tail, ?_, ?_, h.sent, fun i hi => ?_, fun j hj hj' => ?_,
    fun j hj hj' => ?_, h.size⟩
  · rw [howed']
    exact (Nat.sub_le _ _).trans howed
  · rw [howed']
    exact (Nat.add_le_add_left (Nat.sub_le _ _) _).trans hle
  · exact (txSetDesc_addr (g := fun d => { d with status := d.status ||| 1 }) (fun _ => rfl)
      i).trans (h.addr i hi)
  · rw [howed'] at hj
    have hj₁ : s.wire.length ≤ j + (s.owed - 1) := hj
    have hj₂ : j < s.told.length := hj'
    have hdesc : s.completed.txDescs (j % 8) = s.txDescs (j % 8) :=
      txSetDesc_of_ne (g := fun d => { d with status := d.status ||| 1 }) (by omega)
    rw [hdesc]
    exact h.clear j (by omega) hj'
  · have hframe : s.completed.frameAt (j % 8) = s.frameAt (j % 8) :=
      frameAt_setDesc (g := fun d => { d with status := d.status ||| 1 })
        (fun _ => ⟨rfl, rfl⟩) (j % 8)
    rw [hframe]
    exact h.frames j hj hj'

theorem TxRing.nic (h : TxRing s) (hstep : TxNic s s') : TxRing s' := by
  cases hstep with
  | send _ hne => exact h.send hne
  | complete hpos => exact h.complete hpos

end Ring

/-! ### The stages of a call -/

/-- The frame with its padding. -/
def padded (frame : List UInt8) : List UInt8 := frame ++ List.replicate (60 - frame.length) 0

/-- The descriptor `tail` is free, and so far it satisfies `C` and its buffer begins with the bytes.
-/
structure Draft (told : List (List UInt8)) (tail : ℕ) (C : TxDesc → Prop) (bytes : List UInt8)
    (s : Tx) : Prop where
  ring : TxRing s
  told_eq : s.told = told
  tail_eq : tail = told.length % 8
  room : s.told.length + s.owed < s.wire.length + 8
  desc : C (s.txDescs tail)
  content : ∀ k (h : k < bytes.length), s.txBuffers (1536 * tail + k) = bytes[k]

section Draft

open Thread (Stable)

variable {s : Tx} {told : List (List UInt8)} {tail : ℕ} {C D : TxDesc → Prop} {bytes : List UInt8}

theorem draft_stable (told : List (List UInt8)) (tail : ℕ) (C : TxDesc → Prop)
    (bytes : List UInt8) :
    Stable TxNic (Draft told tail C bytes) := by
  intro s s' h hstep
  have hring := h.ring.nic hstep
  have htold := told_stable told s s' h.told_eq hstep
  have hroom := h.room
  cases hstep with
  | send _ hne =>
    refine ⟨hring, htold, h.tail_eq, ?_, h.desc, h.content⟩
    have hlength : s.sent.wire.length = s.wire.length + 1 := List.length_append
    rw [hlength]
    show s.told.length + (s.owed + 1) < _
    omega
  | complete hpos =>
    refine ⟨hring, htold, h.tail_eq, ?_, ?_, h.content⟩
    · show s.told.length + (s.owed - 1) < s.wire.length + 8
      omega
    · have htail := h.tail_eq
      have hhead := h.ring.head
      have howed := h.ring.owed
      have hwire := h.ring.sent.length_le
      have hdesc : s.completed.txDescs tail = s.txDescs tail :=
        txSetDesc_of_ne (g := fun d => { d with status := d.status ||| 1 }) (by
          rw [h.ring.tdlen, htail, ← h.told_eq]
          omega)
      rw [hdesc]
      exact h.desc

/-- A descriptor of which the card has been told is not the one that is free. -/
theorem Draft.ne (h : Draft told tail C bytes s) {j : ℕ} (hj : s.wire.length ≤ j + s.owed)
    (hj' : j < s.told.length) :
    j % 8 ≠ tail := by
  have htail := h.tail_eq
  have hroom := h.room
  rw [h.told_eq] at hroom hj'
  omega

theorem Draft.setDesc (h : Draft told tail C bytes s) {g : TxDesc → TxDesc}
    (haddr : ∀ d, (g d).addrLow = d.addrLow) (hC : ∀ d, C d → D (g d)) :
    Draft told tail D bytes (s.setDesc tail g) := by
  refine ⟨{ h.ring with
    addr := fun i hi => ?_
    clear := fun j hj hj' => ?_
    frames := fun j hj hj' => ?_ }, h.told_eq, h.tail_eq, h.room, ?_, h.content⟩
  · rw [txSetDesc_addr haddr]
    exact h.ring.addr i hi
  · rw [txSetDesc_of_ne (h.ne hj hj')]
    exact h.ring.clear j hj hj'
  · have hne : j % 8 ≠ tail := h.ne (Nat.le_add_right_of_le hj') hj
    refine Eq.trans ?_ (h.ring.frames j hj hj')
    unfold Tx.frameAt
    rw [txSetDesc_of_ne hne]
    rfl
  · rw [txSetDesc_self]
    exact hC _ h.desc

theorem store_self {i k : ℕ} {bytes : List UInt8} (hk : k < bytes.length) :
    (s.store i bytes).txBuffers (1536 * i + k) = bytes[k] := by
  unfold Tx.store
  dsimp only
  rw [if_pos (by omega), Nat.add_sub_cancel_left]
  simp [hk]

theorem store_of_not {i p : ℕ} {bytes : List UInt8}
    (hp : p < 1536 * i ∨ 1536 * i + bytes.length ≤ p) :
    (s.store i bytes).txBuffers p = s.txBuffers p := by
  unfold Tx.store
  dsimp only
  rw [if_neg (by omega)]

/-- A write of bytes into the buffer, behind which those of the first ones that it leaves are still
there. -/
theorem Draft.store (h : Draft told tail C bytes s) {bytes' : List UInt8}
    (hsize : bytes'.length ≤ 1536) :
    Draft told tail C (bytes' ++ bytes.drop bytes'.length) (s.store tail bytes') := by
  refine ⟨{ h.ring with frames := fun j hj hj' => ?_ }, h.told_eq, h.tail_eq, h.room, h.desc,
    fun k hk => ?_⟩
  · have hne : j % 8 ≠ tail := h.ne (Nat.le_add_right_of_le hj') hj
    have hj₁ : j < s.told.length := hj
    have hframe : s.frameAt (j % 8) = s.told[j] := h.ring.frames j hj₁ hj'
    have hlength := congrArg List.length hframe
    have hmax : s.told[j].length ≤ 1536 := h.ring.size _ (List.getElem_mem hj₁)
    unfold Tx.frameAt at hlength
    rw [List.length_map, List.length_range] at hlength
    refine Eq.trans ?_ hframe
    unfold Tx.frameAt
    refine List.map_congr_left fun k hk => ?_
    have hk' := List.mem_range.1 hk
    have hk'' : k < 1536 := by
      have hdesc : ((s.store tail bytes').txDescs (j % 8)).length = (s.txDescs (j % 8)).length :=
        rfl
      rw [hdesc] at hk'
      omega
    have haddr : ((s.store tail bytes').txDescs (j % 8)).addrLow = 1536 * (j % 8) :=
      h.ring.addr _ (by omega)
    rw [haddr, h.ring.addr _ (by omega)]
    exact store_of_not (by omega)
  · by_cases hk' : k < bytes'.length
    · rw [store_self hk', List.getElem_append_left hk']
    · rw [store_of_not (by omega), List.getElem_append_right (by omega), List.getElem_drop]
      rw [List.length_append, List.length_drop] at hk
      refine (h.content k (by omega)).trans ?_
      congr 1
      omega

/-- The write of the tail register. -/
theorem Draft.writeTail {frame : List UInt8} (hsize : frame.length ≤ 1536)
    (h : Draft told tail (fun d => d.length.toNat = frame.length ∧ d.status &&& 1 = 0) frame s) :
    TxRing (s.writeTail ((tail + 1) % 8)) ∧
      (s.writeTail ((tail + 1) % 8)).told = told ++ [frame] := by
  have hring := h.ring
  have htail := h.tail_eq
  have hroom := h.room
  have htold := h.told_eq
  have haddr : (s.txDescs tail).addrLow = 1536 * tail := hring.addr _ (by omega)
  have hframe : s.frameAt tail = frame := by
    unfold Tx.frameAt
    rw [haddr, h.desc.1]
    refine List.ext_getElem (by rw [List.length_map, List.length_range]) fun k hk hk' => ?_
    rw [List.getElem_map, List.getElem_range]
    exact h.content k hk'
  have htdt : s.tdt = tail := by rw [hring.tail, htold, htail]
  have hnew : (s.writeTail ((tail + 1) % 8)).told = s.told ++ [frame] := by
    unfold Tx.writeTail
    rw [htdt, hframe]
  have hlength : (s.writeTail ((tail + 1) % 8)).told.length = s.told.length + 1 := by
    rw [hnew, List.length_append, List.length_singleton]
  refine ⟨⟨hring.tdlen, hring.head, ?_, hring.owed, ?_, ?_, hring.addr, fun j hj hj' => ?_,
    fun j hj hj' => ?_, fun f hf => ?_⟩, hnew.trans (by rw [htold])⟩
  · rw [hlength]
    show (tail + 1) % 8 = _
    rw [htail, htold]
    omega
  · rw [hlength]
    show s.told.length + 1 + s.owed ≤ s.wire.length + 8
    omega
  · rw [hnew]
    exact hring.sent.trans (List.prefix_append _ _)
  · rw [hlength] at hj'
    by_cases hlast : j = s.told.length
    · subst hlast
      have hdesc : (s.txDescs tail).status &&& 1 = 0 := h.desc.2
      rwa [htail, ← htold] at hdesc
    · exact hring.clear j hj (by omega)
  · have hj₁ := hj
    rw [hlength] at hj₁
    by_cases hlast : j = s.told.length
    · subst hlast
      have hlastFrame : s.frameAt (s.told.length % 8) = frame := by rwa [htail, ← htold] at hframe
      refine Eq.trans hlastFrame ?_
      simp [hnew]
    · refine (hring.frames j (by omega) hj').trans ?_
      simp only [hnew]
      rw [List.getElem_append_left]
  · rw [hnew] at hf
    rcases List.mem_append.1 hf with hf | hf
    · exact hring.size f hf
    · obtain rfl := List.mem_singleton.1 hf
      exact hsize

end Draft

/-! ### A call -/

section Call

open Thread (Stable holds_read holds_write holds_pure)

variable {s : Tx} {told : List (List UInt8)} {tail : ℕ}

/-- The ring, with these frames told. -/
def Keeping (told : List (List UInt8)) (s : Tx) : Prop := TxRing s ∧ s.told = told

theorem keeping_stable (told : List (List UInt8)) :
    Stable TxNic (Keeping told) := fun s s' h hstep =>
  ⟨h.1.nic hstep, told_stable told s s' h.2 hstep⟩

/-- All frames told are on the wire. -/
def AllSent (told : List (List UInt8)) (s : Tx) : Prop := Keeping told s ∧ s.wire = told

theorem allSent_stable (told : List (List UInt8)) : Stable TxNic (AllSent told) := by
  intro s s' h hstep
  have hkept := keeping_stable told s s' h.1 hstep
  cases hstep with
  | send _ hne =>
    have hhead := h.1.1.head
    have htail := h.1.1.tail
    rw [h.2] at hhead
    rw [h.1.2] at htail
    exact absurd (hhead.trans htail.symm) hne
  | complete _ => exact ⟨hkept, h.2⟩

theorem Keeping.info (h : Keeping told s) (g : TxInfo → TxInfo) :
    Keeping told { s with info := g s.info } :=
  ⟨{ h.1 with }, h.2⟩

theorem setTxInfo_keeping (h : Keeping told s) (g : TxInfo → TxInfo) :
    TxDoes (setTxInfo g) (fun _ => Keeping told) s :=
  holds_write (keeping_stable told) (keeping_stable told) (fun _ _ => trivial)
    (fun _ hs => hs.info g) h

theorem setTxInfo_allSent (h : AllSent told s) (g : TxInfo → TxInfo) :
    TxDoes (setTxInfo g) (fun _ => AllSent told) s :=
  holds_write (allSent_stable told) (allSent_stable told) (fun _ _ => trivial)
    (fun _ hs => ⟨hs.1.info g, hs.2⟩) h

theorem read_keeping {β : Type} {i : TxAccess} {g : Tx → β} (h : Keeping told s) :
    TxDoes (read i g) (fun _ => Keeping told) s :=
  holds_read (keeping_stable told) (fun _ => keeping_stable told) (fun _ _ => trivial)
    (fun _ hs => hs) h

/-- A descriptor of the last frame told that carries `DD`. -/
theorem Keeping.allSent (h : Keeping told s) (hpos : 0 < told.length)
    (hdd : (s.txDescs ((told.length - 1) % 8)).status &&& 1 ≠ 0) : AllSent told s := by
  obtain ⟨hring, htold⟩ := h
  have hwire := hring.sent.length_le
  rw [htold] at hwire
  have hlength : s.wire.length = told.length := by
    by_contra hne
    exact hdd (hring.clear (told.length - 1) (by omega) (by rw [htold]; omega))
  refine ⟨⟨hring, htold⟩, (hring.sent.eq_of_length ?_).trans htold⟩
  rw [hlength, htold]

/-- A result of 0 or 1, and what is known of the state: always, and behind a result of 1. -/
def Outcome (P A : Tx → Prop) (r : Int) (s : Tx) : Prop := P s ∧ (r = 0 ∨ r = 1) ∧ (r = 1 → A s)

theorem outcome_stable {P A : Tx → Prop} (hP : Stable TxNic P) (hA : Stable TxNic A) (r : Int) :
    Stable TxNic (Outcome P A r) := hP.and ((Stable.const _).and hA.imp)

theorem pure_zero {P A : Tx → Prop} (hP : Stable TxNic P) (hA : Stable TxNic A) (h : P s) :
    TxDoes (pure 0) (Outcome P A) s :=
  holds_pure (outcome_stable hP hA 0) ⟨h, .inl rfl, fun h1 => absurd h1 (by decide)⟩

theorem awaitDone_does (hpos : 0 < told.length) (htail : tail = (told.length - 1) % 8) :
    ∀ (spins : ℕ) {s : Tx},
    Keeping told s → TxDoes (awaitDone tail spins) (Outcome (Keeping told) (AllSent told)) s
  | 0, _, h => by
    refine Thread.Holds.seq (read_keeping h) fun _ s h => ?_
    refine Thread.Holds.seq (setTxInfo_keeping h _) fun _ s h => ?_
    exact pure_zero (keeping_stable told) (allSent_stable told) h
  | spins + 1, _, h => by
    refine Thread.Holds.seq
      (holds_read (R := fun b s => Keeping told s ∧ (b &&& 1 ≠ 0 → AllSent told s))
      (keeping_stable told) (fun _ => (keeping_stable told).and (allSent_stable told).imp)
        (fun _ _ => trivial)
      (fun s hs => ⟨hs, fun hdd => hs.allSent hpos (by rwa [← htail])⟩) h) fun status s h => ?_
    by_cases hdd : status &&& 1 ≠ 0
    · rw [if_pos (bne_iff_ne.2 hdd)]
      have hsent := h.2 hdd
      refine Thread.Holds.seq (holds_read (R := fun _ => AllSent told) (allSent_stable told)
        (fun _ => allSent_stable told) (fun _ _ => trivial) (fun _ hs => hs) hsent)
          fun _ s hsent => ?_
      refine Thread.Holds.seq (setTxInfo_allSent hsent _) fun _ s hsent => ?_
      exact holds_pure (outcome_stable (keeping_stable told) (allSent_stable told) 1)
        ⟨hsent.1, .inr rfl, fun _ => hsent⟩
    · rw [if_neg (by rwa [bne_iff_ne])]
      exact awaitDone_does hpos htail spins h.1

theorem padded_length (frame : List UInt8) :
    (padded frame).length = if frame.length < 60 then 60 else frame.length := by
  unfold padded
  rw [List.length_append, List.length_replicate]
  split
  · omega
  · omega

theorem setTxDesc_does {C D : TxDesc → Prop} {bytes : List UInt8} {g : TxDesc → TxDesc}
    (haddr : ∀ d, (g d).addrLow = d.addrLow) (hC : ∀ d, C d → D (g d))
    (h : Draft told tail C bytes s) :
    TxDoes (setTxDesc tail g) (fun _ => Draft told tail D bytes) s :=
  holds_write (draft_stable told tail C bytes) (draft_stable told tail D bytes) (fun _ _ => trivial)
    (fun _ hs => hs.setDesc haddr hC) h

theorem setTxDesc_same {C : TxDesc → Prop} {bytes : List UInt8} {g : TxDesc → TxDesc}
    (haddr : ∀ d, (g d).addrLow = d.addrLow) (hC : ∀ d, C d → C (g d))
    (h : Draft told tail C bytes s) :
    TxDoes (setTxDesc tail g) (fun _ => Draft told tail C bytes) s := setTxDesc_does haddr hC h

theorem fillDesc_does {frame : List UInt8} (hsize : frame.length ≤ 1536)
    (h : Draft told tail (fun _ => True) [] s) : TxDoes (fillDesc tail frame)
      (fun _ =>
        Draft told tail (fun d => d.length.toNat = (padded frame).length ∧ d.status &&& 1 = 0)
        (padded frame)) s := by
  have hwire := padded_length frame
  have hwireSize : (if frame.length < 60 then 60 else frame.length) ≤ 1536 := by
    split
    · decide
    · exact hsize
  unfold fillDesc
  dsimp only
  rw [← hwire] at hwireSize ⊢
  have hbytes : frame ++ (List.replicate (padded frame).length (0 : UInt8) ++
      List.drop (List.replicate (padded frame).length (0 : UInt8)).length []).drop frame.length =
        padded frame := by
    rw [List.drop_nil, List.append_nil, List.drop_replicate]
    unfold padded
    rw [List.length_append, List.length_replicate, Nat.add_sub_cancel_left]
  refine Thread.Holds.seq
    (holds_write (draft_stable _ _ _ _) (draft_stable _ _ _ _) (fun _ _ => trivial)
    (fun _ hs => hs.store (by rwa [List.length_replicate])) h) fun _ s h => ?_
  refine Thread.Holds.seq
    (holds_write (draft_stable _ _ _ _) (draft_stable _ _ _ _) (fun _ _ => trivial)
    (fun _ hs => hs.store hsize) h) fun _ s h => ?_
  rw [hbytes] at h
  refine Thread.Holds.seq
    (setTxDesc_does (D := fun d => d.length.toNat = (padded frame).length) (fun _ => rfl)
    (fun _ _ => ?_) h) fun _ s h => ?_
  · have hlt : UInt16.size = 65536 := rfl
    exact UInt16.toNat_ofNat_of_lt' (by omega)
  refine Thread.Holds.seq (setTxDesc_same (fun _ => rfl) (fun _ hd => hd) h) fun _ s h => ?_
  refine Thread.Holds.seq (setTxDesc_same (fun _ => rfl) (fun _ hd => hd) h) fun _ s h => ?_
  refine Thread.Holds.seq (setTxDesc_does (D := fun d => d.length.toNat = (padded frame).length ∧
    d.status &&& 1 = 0) (fun _ => rfl) (fun _ hd => ⟨hd, (by decide : (0 : UInt8) &&& 1 = 0)⟩) h)
      fun _ s h => ?_
  refine Thread.Holds.seq (setTxDesc_same (fun _ => rfl) (fun _ hd => hd) h) fun _ s h => ?_
  refine Thread.Holds.seq (setTxDesc_same (fun _ => rfl) (fun _ hd => hd) h) fun _ s h => ?_
  exact holds_write (draft_stable _ _ _ _) (draft_stable _ _ _ _) (fun _ _ => trivial)
    (fun s hs => ⟨{ hs.ring with }, hs.told_eq, hs.tail_eq, hs.room, hs.desc, hs.content⟩) h

/-- What the driver has drafted where it comes to the write of the tail register. -/
def Drafted (told : List (List UInt8)) (frameData : Option (List UInt8)) : Option ℕ → Tx → Prop
  | none, s => Keeping told s
  | some tail, s => ∃ frame, (frameData = some frame ∧ frame.length ≤ 1536) ∧
    Draft told tail (fun d => d.length.toNat = (padded frame).length ∧ d.status &&& 1 = 0)
      (padded frame) s

theorem drafted_stable (told : List (List UInt8)) (frameData : Option (List UInt8)) (q : Option ℕ) :
    Stable TxNic (Drafted told frameData q) := by
  cases q with
  | none => exact keeping_stable told
  | some tail => exact Stable.exists fun frame => (Stable.const _).and (draft_stable _ _ _ _)

/-- A free descriptor. -/
theorem Keeping.draft (h : Keeping told s) (hdd : (s.txDescs (told.length % 8)).status &&& 1 ≠ 0) :
    Draft told (told.length % 8) (fun _ => True) [] s := by
  obtain ⟨hring, htold⟩ := h
  have hle := hring.le
  have howed := hring.owed
  refine ⟨hring, htold, rfl, ?_, trivial, fun k hk => absurd hk (Nat.not_lt_zero k)⟩
  by_contra hfull
  have hclear := hring.clear (s.told.length - 8) (by omega) (by omega)
  have hindex : (s.told.length - 8) % 8 = told.length % 8 := by
    rw [← htold]
    omega
  rw [hindex] at hclear
  exact hdd hclear

theorem draftFrame_does (frameData : Option (List UInt8)) (h : Keeping told s) :
    TxDoes (draftFrame frameData) (Drafted told frameData) s := by
  have hnone : ∀ {s : Tx}, Keeping told s → TxDoes (pure none) (Drafted told frameData) s :=
    fun h => holds_pure (drafted_stable told frameData none) h
  unfold draftFrame
  refine Thread.Holds.seq (read_keeping h) fun info s h => ?_
  split
  · exact Thread.Holds.seq (setTxInfo_keeping h _) fun _ s h => hnone h
  have hfilter : ∀ frame,
    Option.filter (fun frame => decide (frame.length ≤ 1536)) frameData = some frame →
      frameData = some frame ∧ frame.length ≤ 1536 := fun frame hframe => by
    obtain ⟨hsome, hle⟩ := Option.filter_eq_some_iff.1 hframe
    exact ⟨hsome, of_decide_eq_true hle⟩
  revert hfilter
  generalize Option.filter _ frameData = d
  intro hfilter
  rcases d with _ | frame
  · exact Thread.Holds.seq (setTxInfo_keeping h _) fun _ s h => hnone h
  obtain ⟨hframe, hsize⟩ := hfilter frame rfl
  refine Thread.Holds.seq (holds_read (R := fun tail s => Keeping told s ∧ tail = told.length % 8)
    (keeping_stable told) (fun _ => (keeping_stable told).and (.const _)) (fun _ _ => trivial)
    (fun s hs => ⟨hs, by rw [hs.1.tail, hs.2, Nat.mod_mod]⟩) h) fun tail s h => ?_
  obtain ⟨h, rfl⟩ := h
  refine Thread.Holds.seq (holds_read (R := fun b s => Keeping told s ∧
      (b &&& 1 ≠ 0 → Draft told (told.length % 8) (fun _ => True) [] s))
    (keeping_stable told) (fun _ => (keeping_stable told).and (draft_stable _ _ _ _).imp)
      (fun _ _ => trivial)
    (fun s hs => ⟨hs, hs.draft⟩) h) fun status s h => ?_
  by_cases hdd : status &&& 1 = 0
  · rw [if_pos (beq_iff_eq.2 hdd)]
    refine Thread.Holds.seq (read_keeping h.1) fun _ s h => ?_
    exact Thread.Holds.seq (setTxInfo_keeping h _) fun _ s h => hnone h
  · rw [if_neg (by rwa [beq_iff_eq])]
    refine Thread.Holds.seq (fillDesc_does hsize (h.2 hdd)) fun _ s h => ?_
    exact holds_pure (drafted_stable told frameData (some (told.length % 8)))
      ⟨frame, ⟨hframe, hsize⟩, h⟩

/-- A call that returns 1 has told the card of its frame, and all frames are on the wire. -/
theorem e1000SendFrame_does (frameData : Option (List UInt8)) (h : Keeping told s) :
    TxDoes (e1000SendFrame frameData) (Outcome TxRing fun s => ∃ frame, frameData = some frame ∧
      AllSent (told ++ [padded frame]) s) s := by
  have hring : Stable TxNic TxRing := fun _ _ h hstep => h.nic hstep
  unfold e1000SendFrame
  refine Thread.Holds.seq (draftFrame_does frameData h) fun q s h => ?_
  cases q with
  | none =>
    exact pure_zero hring (Stable.exists fun frame => (Stable.const _).and (allSent_stable _)) h.1
  | some tail =>
    obtain ⟨frame, ⟨hframe, hsize⟩, h⟩ := h
    have hpadded : (padded frame).length ≤ 1536 := by
      rw [padded_length]
      split
      · decide
      · exact hsize
    have htail := h.tail_eq
    have hlength : (told ++ [padded frame]).length = told.length + 1 := List.length_append
    refine Thread.Holds.seq
      (holds_write (draft_stable _ _ _ _) (keeping_stable (told ++ [padded frame]))
      (fun _ _ => trivial) (fun s hs => hs.writeTail hpadded) h) fun _ s h => ?_
    refine (awaitDone_does (by omega) (by rw [hlength]; exact htail) 100000 h).mono fun r s hs => ?_
    exact ⟨hs.1.1, hs.2.1, fun h1 => ⟨frame, hframe, hs.2.2 h1⟩⟩

end Call

/-! ## A segment -/

section Segment

open Relation (ReflTransGen)

variable {others : ℕ → Tx → Tx} {s : Tx} {told : List (List UInt8)} {n : ℕ} {α β : Type}

/-- Every call of `e1000_send_frame` in the run is in time. -/
def CallsInTime (others : ℕ → Tx → Tx) (t : TxThread α) (n : ℕ) (s : Tx) : Prop :=
  ∀ frameData n' s', (.sendFrame frameData, n', s') ∈ t.trace others n s →
    InTime others frameData n' s'

theorem CallsInTime.bind {t : TxThread α} {k : α → TxThread β}
    (h : CallsInTime others (t >>= k) n s) :
    CallsInTime others t n s ∧
    CallsInTime others (k (t.run others n s).1) (t.run others n s).2.1 (t.run others n s).2.2 := by
  unfold CallsInTime at h
  rw [Thread.trace_bind] at h
  exact ⟨fun d n' s' hmem => h d n' s' (List.mem_append_left _ hmem),
    fun d n' s' hmem => h d n' s' (List.mem_append_right _ hmem)⟩

theorem sendAttempts_calls (a : Segment) (attempts n : ℕ) (s : Tx) :
    (.sendFrame (some a.frame), n, s) ∈ (sendAttempts a (attempts + 1)).trace others n s :=
      List.mem_cons_self

theorem CallsInTime.call {frameData : Option (List UInt8)}
    (h : CallsInTime others (e1000SendFrame frameData) n s) : InTime others frameData n s :=
  h frameData n s List.mem_cons_self

/-- How a call may end that does not tell the card in vain. -/
def Ends (told more : List (List UInt8)) (r : Int × ℕ × Tx) : Prop :=
  (r.1 = 0 ∧ Keeping told r.2.2) ∨ (r.1 = 1 ∧ AllSent (told ++ more) r.2.2)

variable (hothers : ∀ n s, ReflTransGen TxNic s (others n s))

include hothers

theorem e1000SendFrame_ends {frame : List UInt8} (h : Keeping told s)
    (hcalls : CallsInTime others (e1000SendFrame (some frame)) n s) :
    Ends told [padded frame] ((e1000SendFrame (some frame)).run others n s) := by
  have hrefuses := (refuses_iff_inTime hothers (some frame) n s).2 hcalls.call
  have hrun := Thread.Holds.run hothers (e1000SendFrame (some frame)) (n := n)
    (e1000SendFrame_does (some frame) h)
  rcases hrun.2.1 with h0 | h1
  · exact .inl ⟨h0, hrun.1, (hrefuses h0).trans h.2⟩
  · obtain ⟨frame', hframe, hsent⟩ := hrun.2.2 h1
    obtain rfl := Option.some.inj hframe
    exact .inr ⟨h1, hsent⟩

omit hothers in
theorem wait_does : ∀ (m : ℕ) {s : Tx}, Keeping told s → TxDoes (wait m) (fun _ => Keeping told) s
  | 0, _, h => Thread.holds_pure (keeping_stable told) h
  | m + 1, _, h => Thread.Holds.seq (read_keeping h) fun _ _ h => wait_does m h

theorem wait_run (m : ℕ) (h : Keeping told s) : Keeping told ((wait m).run others n s).2.2 :=
  Thread.Holds.run hothers (wait m) (wait_does m h)

theorem sendAttempts_ends (a : Segment) : ∀ (attempts n : ℕ) {s : Tx}, Keeping told s →
    CallsInTime others (sendAttempts a attempts) n s →
    Ends told [padded a.frame] ((sendAttempts a attempts).run others n s)
  | 0, _, _, h, _ => .inl ⟨rfl, h⟩
  | attempts + 1, n, s, h, hcalls => by
    unfold sendAttempts at hcalls ⊢
    obtain ⟨hfirst, hrest⟩ := hcalls.bind
    have hends := e1000SendFrame_ends hothers h hfirst
    rw [Thread.run_bind]
    revert hends hrest
    generalize (e1000SendFrame (some a.frame)).run others n s = r
    intro hrest hends
    rcases hends with ⟨h0, hkeeping⟩ | ⟨h1, hsent⟩
    · rw [h0, if_neg (by decide)] at hrest ⊢
      rw [Thread.run_bind]
      exact sendAttempts_ends a attempts _ (wait_run hothers _ hkeeping) hrest.bind.2
    · rw [h1, if_pos (by decide)]
      exact .inr ⟨rfl, hsent⟩

/-- The request for the gateway may have been sent. -/
theorem findGateway_run (a : Segment) (h : Keeping told s)
    (hcalls : CallsInTime others (findGateway a) n s) :
    ∃ requests, (requests = [] ∨ requests = [padded a.request]) ∧
      Keeping (told ++ requests) ((findGateway a).run others n s).2.2 := by
  have hnone : ∀ {s : Tx}, Keeping told s →
    ∃ requests, (requests = [] ∨ requests = [padded a.request]) ∧
      Keeping (told ++ requests) s := fun h => ⟨[], .inl rfl, by rwa [List.append_nil]⟩
  unfold findGateway at hcalls ⊢
  by_cases hvalid : a.gatewayMacValid = true
  · rw [if_pos hvalid]
    exact hnone h
  rw [if_neg hvalid] at hcalls ⊢
  unfold netArpProbeGateway at hcalls ⊢
  have hread : Keeping told (others n s) := (keeping_stable told).steps h (hothers n s)
  have hrun : (read .other fun s => s.info : TxThread TxInfo).run others n s =
    ((others n s).info, n + 1, others n s) := rfl
  replace hcalls := hcalls.bind.2
  rw [Thread.run_bind, hrun]
  rw [hrun] at hcalls
  dsimp only at hcalls ⊢
  generalize (others n s).info = nic at hcalls ⊢
  by_cases hready : (!nic.present || !nic.txReady || !nic.rxReady || !nic.macValid) = true
  · rw [if_pos hready]
    exact hnone hread
  rw [if_neg hready] at hcalls ⊢
  have hends := e1000SendFrame_ends hothers hread hcalls.bind.1
  rw [Thread.run_bind]
  revert hends
  generalize (e1000SendFrame (some a.request)).run others (n + 1) (others n s) = r
  intro hends
  rcases hends with ⟨h0, hkeeping⟩ | ⟨h1, hsent⟩
  · rw [h0, if_pos (by decide)]
    exact hnone hkeeping
  · rw [h1, if_neg (by decide), Thread.run_bind]
    exact ⟨[padded a.request], .inr rfl, wait_run hothers a.answerTime hsent.1⟩

/-- What a call of `net_send_tcp_segment` leaves, if all its calls of `e1000_send_frame` are in
time. -/
theorem netSendTcpSegment_run (a : Segment) (h : Keeping told s)
    (hcalls : CallsInTime others (netSendTcpSegment a) n s) :
    ∃ requests, (requests = [] ∨ requests = [padded a.request]) ∧
      Ends (told ++ requests) [padded a.frame] ((netSendTcpSegment a).run others n s) := by
  have hnone : ∀ {n : ℕ} {s : Tx}, Keeping told s →
    ∃ requests, (requests = [] ∨ requests = [padded a.request]) ∧
      Ends (told ++ requests) [padded a.frame] (0, n, s) :=
        fun h => ⟨[], .inl rfl, .inl ⟨rfl, by rwa [List.append_nil]⟩⟩
  have hread : Keeping told (others n s) := (keeping_stable told).steps h (hothers n s)
  have hrun : (read .other fun s => s.info : TxThread TxInfo).run others n s =
    ((others n s).info, n + 1, others n s) := rfl
  unfold netSendTcpSegment at hcalls ⊢
  replace hcalls := hcalls.bind.2
  rw [Thread.run_bind, hrun]
  rw [hrun] at hcalls
  dsimp only at hcalls ⊢
  generalize (others n s).info = nic at hcalls ⊢
  by_cases hready : (!nic.present || !nic.txReady || !nic.rxReady || !nic.macValid) = true
  · rw [if_pos hready]
    exact hnone hread
  rw [if_neg hready] at hcalls ⊢
  obtain ⟨hfirst, hrest⟩ := hcalls.bind
  obtain ⟨requests, hrequests, hkeeping⟩ := findGateway_run hothers a hread hfirst
  refine ⟨requests, hrequests, ?_⟩
  rw [Thread.run_bind]
  revert hrest hkeeping
  generalize (findGateway a).run others (n + 1) (others n s) = r
  intro hrest hkeeping
  by_cases hvalid : (!r.1) = true
  · rw [if_pos hvalid]
    exact .inl ⟨rfl, hkeeping⟩
  rw [if_neg hvalid] at hrest ⊢
  by_cases hlong : 160 < a.payloadLen
  · rw [if_pos hlong]
    exact .inl ⟨rfl, hkeeping⟩
  rw [if_neg hlong] at hrest ⊢
  exact sendAttempts_ends hothers a 8 _ hkeeping hrest

end Segment

/-- A call of `e1000_send_frame` that returns 0 has not told the card of its frame, and the segment
is told at most once, and is on the wire once if the call returns 1; the card sends what it has been
told of, in order. -/
structure SendsOnce (others : ℕ → Tx → Tx) (a : Segment) (n : ℕ) (s : Tx) : Prop where
  refuses : ∀ frameData n' s',
    (.sendFrame frameData, n', s') ∈ (netSendTcpSegment a).trace others n s →
    Refuses others frameData n' s'
  once : ∃ requests k, (requests = [] ∨ requests = [padded a.request]) ∧ k ≤ 1 ∧
    ((netSendTcpSegment a).run others n s).2.2.told = s.told ++ requests ++
      List.replicate k (padded a.frame) ∧
    ((netSendTcpSegment a).run others n s).2.2.wire <+:
      ((netSendTcpSegment a).run others n s).2.2.told ∧
    (((netSendTcpSegment a).run others n s).1 = 1 → k = 1 ∧
      ((netSendTcpSegment a).run others n s).2.2.wire =
        ((netSendTcpSegment a).run others n s).2.2.told)

/-- A card before `e1000_tx_init`. -/
def txCard :
    Tx := ⟨⟨true, true, true, false, true, 0xFEBC0000, 0, 0, 0, 0⟩, fun _ =>
  ⟨0, 0, 0, 0, 0, 0, 0⟩, fun _ => 0, 0, 0, 0, 0, 0, [], []⟩

/-- A segment without a payload to a gateway that is known. -/
def bareSegment : Segment := ⟨true, [], 0, false, List.replicate 54 0, 0, fun _ => 0⟩

end MinervaOS.Devices
