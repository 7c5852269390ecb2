import MinervaOS.Lib.Thread
import Mathlib.Data.List.Basic
import Mathlib.Tactic.Ring

/-!
# The ring of receive descriptors

`e1000_receive_frame` against a card that fills the descriptors in ring order while its head is not
at its tail: first the frame into the buffer, then the descriptor with `DD`. The card may take steps
before every access of the driver. The frames between `rx_next` and the head are those that have
been accepted and not yet returned (`Ring`).
-/

namespace MinervaOS.Devices

/-- `e1000_rx_desc_t`; the address is a place in `rx_buffers`. -/
structure RxDesc where
  addrLow : ℕ
  length : UInt16
  status : UInt8
  errors : UInt8

/-- The fields of `e1000_info_t` for receiving. -/
structure RxInfo where
  present : Bool
  mmio : Bool
  macValid : Bool
  rxReady : Bool
  mmioBase : UInt32
  rxPackets : UInt32
  rxErrors : UInt32
  rxLastLength : UInt16
  rxLastType : UInt16
  rxLastStatus : UInt8
  rxLastErrors : UInt8

/-- The driver's memory, the registers of the card, the frame that it has put into the buffer at its
head while the descriptor does not tell yet, and the frames that it has accepted. -/
structure Rx where
  info : RxInfo
  rxDescs : ℕ → RxDesc
  rxBuffers : ℕ → UInt8
  rxNext : ℕ
  rctl : UInt32
  rdlen : ℕ
  rdh : ℕ
  rdt : ℕ
  filling : Option (List UInt8)
  accepted : List (List UInt8)

namespace Rx

def setDesc (s : Rx) (i : ℕ) (f : RxDesc → RxDesc) : Rx :=
  { s with rxDescs := fun j => if j = i then f (s.rxDescs i) else s.rxDescs j }

/-- The buffers behind a write of the frame from `place` on. -/
def stored (s : Rx) (place : ℕ) (frame : List UInt8) (p : ℕ) : UInt8 :=
  if place ≤ p ∧ p < place + frame.length then frame.getD (p - place) 0 else s.rxBuffers p

end Rx

def e1000RxInit (s : Rx) : Rx :=
  if !s.info.mmio || s.info.mmioBase == 0 || !s.info.macValid then s
  else { s with
    rxDescs := fun i => if i < 8 then ⟨2048 * i, 0, 0, 0⟩ else s.rxDescs i
    rxBuffers := fun p => if p < 8 * 2048 then 0 else s.rxBuffers p
    rxNext := 0
    rdlen := 128
    rdh := 0
    rdt := 7
    rctl := 0x2 ||| 0x8 ||| 0x10 ||| 0x8000 ||| 0x4000000
    info := { s.info with rxReady := true } }

/-! ## The card -/

/-- The frame is in the buffer of the head. -/
def Rx.filled (s : Rx) (frame : List UInt8) : Rx :=
  { s with rxBuffers := s.stored (s.rxDescs s.rdh).addrLow frame, filling := some frame }

/-- The descriptor of the head tells of the frame, and the head moves on. -/
def Rx.completed (s : Rx) (frame : List UInt8) (status : UInt8) : Rx :=
  { s with
    rxDescs := (s.setDesc s.rdh fun d =>
      { d with length := UInt16.ofNat frame.length, status := status, errors := 0 }).rxDescs
    rdh := (s.rdh + 1) % (s.rdlen / 16)
    filling := none
    accepted := s.accepted ++ [frame] }

/-- A frame that the card accepts. -/
def Fits (f : List UInt8) : Prop := 14 ≤ f.length ∧ f.length ≤ 1536

/-- The steps of the card. -/
inductive Nic : Rx → Rx → Prop
  | fill {s : Rx} (frame : List UInt8) : s.rctl &&& 2 ≠ 0 → s.filling = none →
      s.rdh ≠ s.rdt → Fits frame →
    Nic s (s.filled frame)
  | complete {s : Rx} (frame : List UInt8) (status : UInt8) : s.filling = some frame →
      status &&& 1 ≠ 0 →
    status &&& 2 ≠ 0 → Nic s (s.completed frame status)

/-! ## The driver -/

/-- The accesses of the driver: of its own variables, of a descriptor that may not carry `DD`, of
what a descriptor carries, and the writes that hand it back. -/
inductive RxAccess where
  | own
  | poll (i : ℕ)
  | contents (i : ℕ)
  | clear (i : ℕ)
  | tail
  | advance

/-- The result of a call, with the bytes in the caller's buffer and the value that `*length` is set
to. -/
structure Received where
  value : Int
  bytes : List UInt8
  length : Option UInt16

abbrev RxThread := Thread RxAccess Rx

open Thread (read write)

/-- A write of `g_e1000`. -/
def setInfo (f : RxInfo → RxInfo) : RxThread Unit := write .own fun s => { s with info := f s.info }

/-- `memcpy` out of a receive buffer. -/
def readBytes (i : ℕ) : ℕ → ℕ → RxThread (List UInt8)
  | _, 0 => return []
  | start, n + 1 => do
    let byte ← read (.contents i) fun s => s.rxBuffers (2048 * i + start)
    let bytes ← readBytes i (start + 1) n
    return byte :: bytes

section Receive

-- whether the pointers are given, and the size of the buffer
variable (buffer : Bool) (bufferSize : UInt16) (length : Bool)

/-- `if (desc->length >= 14) { … } else { … }`. -/
def copyFrame (i : ℕ) : RxThread (List UInt8 × Option UInt16) := do
  let descLength ← read (.contents i) fun s => (s.rxDescs i).length
  if 14 ≤ descLength then
    let high ← read (.contents i) fun s => s.rxBuffers (2048 * i + 12)
    let low ← read (.contents i) fun s => s.rxBuffers (2048 * i + 13)
    setInfo fun g => { g with rxLastType := high.toUInt16 <<< 8 ||| low.toUInt16 }
    if buffer && bufferSize != 0 then
      let copyLength ← read (.contents i) fun s => (s.rxDescs i).length
      let copyLength := if bufferSize < copyLength then bufferSize else copyLength
      let bytes ← readBytes i 0 copyLength.toNat
      return (bytes, if length then some copyLength else none)
    else if length then
      let descLength ← read (.contents i) fun s => (s.rxDescs i).length
      return ([], some descLength)
    else return ([], none)
  else
    setInfo fun g => { g with rxLastType := 0 }
    return ([], if length then some 0 else none)

/-- `desc->errors || (desc->status & E1000_RX_STATUS_EOP) == 0`. -/
def damaged (i : ℕ) : RxThread Bool := do
  let errors ← read (.contents i) fun s => (s.rxDescs i).errors
  if errors != 0 then return true
  else
    let status ← read (.contents i) fun s => (s.rxDescs i).status
    return status &&& 2 == 0

/-- From `g_e1000.rx_last_length = desc->length` on. -/
def takeFrame (i : ℕ) : RxThread Received := do
  let lastLength ← read (.contents i) fun s => (s.rxDescs i).length
  setInfo fun g => { g with rxLastLength := lastLength }
  let lastStatus ← read (.contents i) fun s => (s.rxDescs i).status
  setInfo fun g => { g with rxLastStatus := lastStatus }
  let lastErrors ← read (.contents i) fun s => (s.rxDescs i).errors
  setInfo fun g => { g with rxLastErrors := lastErrors }
  let (bytes, setLength) ← copyFrame buffer bufferSize length i
  let bad ← damaged i
  setInfo fun g => if bad then { g with rxErrors := g.rxErrors + 1 } else
    { g with rxPackets := g.rxPackets + 1 }
  write (.clear i) fun s => s.setDesc i fun d => { d with status := 0 }
  write (.clear i) fun s => s.setDesc i fun d => { d with errors := 0 }
  write (.clear i) fun s => s.setDesc i fun d => { d with length := 0 }
  write .tail fun s => { s with rdt := s.rxNext }
  write .advance fun s => { s with rxNext := (s.rxNext + 1) % 8 }
  return ⟨1, bytes, setLength⟩

def e1000ReceiveFrame : RxThread Received := do
  let info ← read .own fun s => s.info
  if !info.present || !info.rxReady then
    setInfo fun g => { g with rxErrors := g.rxErrors + 1, rxLastStatus := 0, rxLastErrors := 0 }
    return ⟨0, [], none⟩
  else
    let i ← read .own fun s => s.rxNext
    let status ← read (.poll i) fun s => (s.rxDescs i).status
    if status &&& 1 == 0 then
      let lastStatus ← read (.poll i) fun s => (s.rxDescs i).status
      setInfo fun g => { g with rxLastStatus := lastStatus }
      let lastErrors ← read (.poll i) fun s => (s.rxDescs i).errors
      setInfo fun g => { g with rxLastErrors := lastErrors }
      return ⟨0, [], if length then some 0 else none⟩
    else takeFrame buffer bufferSize length i

end Receive

/-! ## The frames in the ring -/

/-- The descriptor tells of the frame. -/
structure Tells (d : RxDesc) (f : List UInt8) : Prop where
  dd : d.status &&& 1 ≠ 0
  eop : d.status &&& 2 ≠ 0
  errors : d.errors = 0
  length : d.length.toNat = f.length

/-- The frame is in the buffer. -/
def InBuffer (s : Rx) (i : ℕ) (f : List UInt8) : Prop :=
  ∀ k (h : k < f.length), s.rxBuffers (2048 * i + k) = f[k]

/-- From `base` on the descriptors carry the frames of `q`, and the card may fill so many of them in
all. -/
structure Ring (s : Rx) (base room : ℕ) (q : List (List UInt8)) : Prop where
  ready : s.info.present = true ∧ s.info.rxReady = true
  rdlen : s.rdlen = 128
  head : s.rdh = (base + q.length) % 8
  tail : s.rdt = (base + room) % 8
  length : q.length ≤ room
  le : room ≤ 7
  addr : ∀ i < 8, (s.rxDescs i).addrLow = 2048 * i
  fits : ∀ f ∈ q, Fits f
  tells : ∀ k (h : k < q.length), Tells (s.rxDescs ((base + k) % 8)) q[k]
  data : ∀ k (h : k < q.length), InBuffer s ((base + k) % 8) q[k]
  clear : ∀ k, q.length ≤ k → k < 8 → (s.rxDescs ((base + k) % 8)).status &&& 1 = 0
  filling : ∀ f, s.filling = some f → q.length < room ∧ Fits f ∧ InBuffer s s.rdh f

theorem e1000RxInit_ring {s : Rx} (hpresent : s.info.present = true) (hmmio : s.info.mmio = true)
    (hbase : s.info.mmioBase ≠ 0) (hmac : s.info.macValid = true) (hfilling : s.filling = none) :
    Ring (e1000RxInit s) 0 7 [] := by
  have hguard : ¬(!s.info.mmio || s.info.mmioBase == 0 || !s.info.macValid) = true := by
    simp [hmmio, hbase, hmac]
  unfold e1000RxInit
  rw [if_neg hguard]
  refine ⟨⟨hpresent, rfl⟩, rfl, rfl, rfl, Nat.zero_le 7, le_rfl,
    fun i hi => congrArg RxDesc.addrLow (if_pos hi), fun f hf => absurd hf List.not_mem_nil,
      fun k h => absurd h (Nat.not_lt_zero k),
    fun k h => absurd h (Nat.not_lt_zero k), fun k _ hk => ?_, fun f hf => ?_⟩
  · have hzero : (0 : UInt8) &&& 1 = 0 := by decide
    dsimp only
    rw [Nat.zero_add, if_pos (Nat.mod_lt _ (by decide))]
    exact hzero
  · rw [hfilling] at hf
    cases hf

/-! ### The steps of the card -/

section Nic

variable {s s' : Rx} {base room : ℕ} {q : List (List UInt8)} {frame : List UInt8} {status : UInt8}

theorem stored_of_ne {i j k : ℕ} (hij : i ≠ j) (hk : k < 2048) (hframe : frame.length ≤ 2048) :
    s.stored (2048 * j) frame (2048 * i + k) = s.rxBuffers (2048 * i + k) := by
  unfold Rx.stored
  rw [if_neg]
  omega

theorem stored_self {i k : ℕ} (hk : k < frame.length) :
    s.stored (2048 * i) frame (2048 * i + k) = frame[k] := by
  unfold Rx.stored
  rw [if_pos (by omega), Nat.add_sub_cancel_left]
  simp [hk]

theorem Ring.filled (h : Ring s base room q) (hne : s.rdh ≠ s.rdt) (hfits : Fits frame) :
    Ring (s.filled frame) base room q := by
  have hlength := h.length
  have hroom := h.le
  have hhead := h.head
  have htail := h.tail
  have hlt : q.length < room := by
    have hneq : q.length ≠ room := fun heq => hne (by rw [hhead, htail, heq])
    omega
  have hbuffers : (s.filled frame).rxBuffers = s.stored (2048 * s.rdh) frame := by
    unfold Rx.filled
    rw [h.addr _ (by omega)]
  refine { h with
    data := fun k hk l hl => ?_
    filling := fun f hf => ?_ }
  · have hmax := (h.fits _ (List.getElem_mem hk)).2
    rw [hbuffers, stored_of_ne (by omega) (by omega) (by have hmax' := hfits.2; omega)]
    exact h.data k hk l hl
  · obtain rfl := Option.some.inj hf
    refine ⟨hlt, hfits, fun k hk => ?_⟩
    rw [hbuffers]
    exact stored_self hk

theorem completed_of_ne {i : ℕ} (h : i ≠ s.rdh) :
    (s.completed frame status).rxDescs i = s.rxDescs i := if_neg h

theorem completed_self : (s.completed frame status).rxDescs s.rdh =
    { s.rxDescs s.rdh with length := UInt16.ofNat frame.length, status := status, errors := 0 } :=
      if_pos rfl

theorem Ring.completed (h : Ring s base room q) (hfilling : s.filling = some frame)
    (hdd : status &&& 1 ≠ 0)
    (heop : status &&& 2 ≠ 0) : Ring (s.completed frame status) base room (q ++ [frame]) := by
  obtain ⟨hlt, hfits, hdata⟩ := h.filling frame hfilling
  have hroom := h.le
  have hhead := h.head
  have hlength : (q ++ [frame]).length = q.length + 1 := List.length_append
  refine ⟨h.ready, h.rdlen, ?_, h.tail, by omega, hroom, fun i hi => ?_, fun f hf => ?_,
    fun k hk => ?_, fun k hk => ?_, fun k hk hk8 => ?_, fun f hf => (by cases hf)⟩
  · show (s.rdh + 1) % (s.rdlen / 16) = _
    rw [h.rdlen]
    omega
  · by_cases hi' : i = s.rdh
    · subst hi'
      rw [completed_self]
      exact h.addr _ hi
    · rw [completed_of_ne hi']
      exact h.addr i hi
  · rcases List.mem_append.1 hf with hf | hf
    · exact h.fits f hf
    · obtain rfl := List.mem_singleton.1 hf
      exact hfits
  · by_cases hlast : k = q.length
    · subst hlast
      have hmax := hfits.2
      rw [List.getElem_concat_length rfl, ← hhead, completed_self]
      have hsize : UInt16.size = 65536 := rfl
      exact ⟨hdd, heop, rfl, UInt16.toNat_ofNat_of_lt' (by omega)⟩
    · rw [completed_of_ne (by omega), List.getElem_append_left (by omega)]
      exact h.tells k (by omega)
  · by_cases hlast : k = q.length
    · subst hlast
      rw [List.getElem_concat_length rfl, ← hhead]
      exact hdata
    · rw [List.getElem_append_left (by omega)]
      exact h.data k (by omega)
  · rw [completed_of_ne (by omega)]
    exact h.clear k (by omega) hk8

theorem Ring.nic (h : Ring s base room q) (hstep : Nic s s') : ∃ q', Ring s' base room (q ++ q') ∧
    s'.accepted = s.accepted ++ q' ∧ s'.rxNext = s.rxNext := by
  cases hstep with
  | fill frame _ _ hne hfits =>
    refine ⟨[], ?_, (List.append_nil _).symm, rfl⟩
    rw [List.append_nil]
    exact h.filled hne hfits
  | complete frame status hsome hdd heop => exact ⟨[frame], h.completed hsome hdd heop, rfl, rfl⟩

/-! ### The stages of a call -/

/-- The frames that have been accepted and not returned wait in the ring. -/
def Waiting (returned : List (List UInt8)) (s : Rx) : Prop :=
  ∃ q, Ring s s.rxNext 7 q ∧ s.rxNext < 8 ∧
  s.accepted = returned ++ q

/-- The frame waits in the descriptor `n` that is next. -/
def Taking (returned : List (List UInt8)) (n : ℕ) (f : List UInt8) (s : Rx) : Prop :=
  ∃ q, Ring s n 7 (f :: q) ∧
  s.rxNext = n ∧ n < 8 ∧ s.accepted = returned ++ f :: q

/-- The descriptor `n` has been cleared, and the card may fill so many behind it. -/
def Freed (returned : List (List UInt8)) (n room : ℕ) (s : Rx) : Prop :=
  ∃ q, Ring s (n + 1) room q ∧
  s.rxNext = n ∧ n < 8 ∧ s.accepted = returned ++ q

open Thread (Stable)

theorem waiting_stable (returned : List (List UInt8)) : Stable Nic (Waiting returned) := by
  intro s s' h hstep
  obtain ⟨q, hring, hlt, haccepted⟩ := h
  obtain ⟨q', hring', haccepted', hnext⟩ := hring.nic hstep
  exact ⟨q ++ q', by rwa [hnext], by rwa [hnext], by rw [haccepted', haccepted, List.append_assoc]⟩

theorem taking_stable (returned : List (List UInt8)) (n : ℕ) (f : List UInt8) :
    Stable Nic (Taking returned n f) := by
  intro s s' h hstep
  obtain ⟨q, hring, hn, hlt, haccepted⟩ := h
  obtain ⟨q', hring', haccepted', hnext⟩ := hring.nic hstep
  exact ⟨q ++ q', hring', hnext.trans hn,
    hlt, by rw [haccepted', haccepted, List.append_assoc]; rfl⟩

theorem freed_stable (returned : List (List UInt8)) (n room : ℕ) :
    Stable Nic (Freed returned n room) := by
  intro s s' h hstep
  obtain ⟨q, hring, hn, hlt, haccepted⟩ := h
  obtain ⟨q', hring', haccepted', hnext⟩ := hring.nic hstep
  exact ⟨q ++ q', hring', hnext.trans hn, hlt, by rw [haccepted', haccepted, List.append_assoc]⟩

end Nic

/-! ## What a call does -/

/-- The tail register is the slot before `rx_next`. -/
def TailBefore (s : Rx) : Prop := s.rxNext < 8 ∧ s.rdt = (s.rxNext + 7) % 8

/-- The descriptor is one of those that the card may fill. -/
def NicOwns (s : Rx) (i : ℕ) : Prop := ∃ k, k < (s.rdt + 8 - s.rdh) % 8 ∧ i = (s.rdh + k) % 8

/-- When the accesses of the driver are safe: a descriptor is read while it carries `DD` and has not
been handed back, and the tail register is only ahead in the step in which `rx_next` follows. -/
def RxAccess.Safe : RxAccess → Rx → Prop
  | .contents i, s => i < 8 ∧ (s.rxDescs i).status &&& 1 ≠ 0 ∧ ¬NicOwns s i ∧ TailBefore s
  | .advance, _ => True
  | _, s => TailBefore s

section Stages

variable {s : Rx} {returned : List (List UInt8)} {n : ℕ} {f : List UInt8}

theorem Waiting.tailBefore (h : Waiting returned s) : TailBefore s := by
  obtain ⟨q, hring, hlt, -⟩ := h
  exact ⟨hlt, hring.tail⟩

theorem Taking.tailBefore (h : Taking returned n f s) : TailBefore s := by
  obtain ⟨q, hring, rfl, hlt, -⟩ := h
  exact ⟨hlt, hring.tail⟩

theorem Freed.tailBefore (h : Freed returned n 6 s) : TailBefore s := by
  obtain ⟨q, hring, rfl, hlt, -⟩ := h
  exact ⟨hlt, hring.tail.trans (by omega)⟩

theorem Taking.contents (h : Taking returned n f s) : RxAccess.Safe (.contents n) s := by
  have htail := h.tailBefore
  obtain ⟨q, hring, hn, hlt, -⟩ := h
  have htells := hring.tells 0 (Nat.zero_lt_succ _)
  rw [Nat.add_zero, Nat.mod_eq_of_lt hlt] at htells
  refine ⟨hlt, htells.dd, fun howns => ?_, htail⟩
  obtain ⟨k, hk, heq⟩ := howns
  have hhead := hring.head
  have hrdt := hring.tail
  have hlength := hring.length
  rw [List.length_cons] at hhead hlength
  omega

theorem Taking.next (h : Taking returned n f s) :
    Tells (s.rxDescs n) f ∧ InBuffer s n f ∧ Fits f := by
  obtain ⟨q, hring, hn, hlt, -⟩ := h
  have htells := hring.tells 0 (Nat.zero_lt_succ _)
  have hdata := hring.data 0 (Nat.zero_lt_succ _)
  rw [Nat.add_zero, Nat.mod_eq_of_lt hlt] at htells hdata
  exact ⟨htells, hdata, hring.fits f List.mem_cons_self⟩

theorem Taking.info (h : Taking returned n f s) {g : RxInfo → RxInfo}
    (hg : ∀ i, (g i).present = i.present ∧ (g i).rxReady = i.rxReady) :
    Taking returned n f { s with info := g s.info } := by
  obtain ⟨q, hring, hn, hlt, haccepted⟩ := h
  refine ⟨q, { hring with ready := ?_ }, hn, hlt, haccepted⟩
  exact ⟨(hg _).1.trans hring.ready.1, (hg _).2.trans hring.ready.2⟩

theorem Waiting.info (h : Waiting returned s) {g : RxInfo → RxInfo}
    (hg : ∀ i, (g i).present = i.present ∧ (g i).rxReady = i.rxReady) :
    Waiting returned { s with info := g s.info } := by
  obtain ⟨q, hring, hlt, haccepted⟩ := h
  refine ⟨q, { hring with ready := ?_ }, hlt, haccepted⟩
  exact ⟨(hg _).1.trans hring.ready.1, (hg _).2.trans hring.ready.2⟩

theorem setDesc_of_ne {i j : ℕ} {g : RxDesc → RxDesc} (h : j ≠ i) :
    (s.setDesc i g).rxDescs j = s.rxDescs j :=
  if_neg h

theorem setDesc_self {i : ℕ} {g : RxDesc → RxDesc} :
    (s.setDesc i g).rxDescs i = g (s.rxDescs i) := if_pos rfl

theorem setDesc_addr {g : RxDesc → RxDesc} (hg : ∀ d, (g d).addrLow = d.addrLow) (j : ℕ) :
    ((s.setDesc n g).rxDescs j).addrLow = (s.rxDescs j).addrLow := by
  by_cases hj : j = n
  · subst hj
    rw [setDesc_self, hg]
  · rw [setDesc_of_ne hj]

/-- The descriptor loses its `DD`. -/
theorem Taking.clear (h : Taking returned n f s) :
    Freed (returned ++ [f]) n 6 (s.setDesc n fun d => { d with status := 0 }) := by
  obtain ⟨q, hring, hn, hlt, haccepted⟩ := h
  have hhead := hring.head
  have htail := hring.tail
  have hlength := hring.length
  rw [List.length_cons] at hhead hlength
  refine ⟨q,
    ⟨hring.ready, hring.rdlen, hhead.trans (by omega), htail.trans (by omega), by omega, by omega,
      fun i hi => ?_, fun g hg => hring.fits g (List.mem_cons_of_mem _ hg), fun k hk => ?_,
      fun k hk => ?_,
    fun k hk hk8 => ?_, fun g hg => ?_⟩, hn, hlt, by rw [List.append_assoc]; exact haccepted⟩
  · exact (setDesc_addr (g := fun d => { d with status := 0 }) (fun _ => rfl) i).trans
      (hring.addr i hi)
  · rw [setDesc_of_ne (by omega), Nat.add_right_comm]
    exact hring.tells (k + 1) (Nat.succ_lt_succ hk)
  · have hdata := hring.data (k + 1) (Nat.succ_lt_succ hk)
    rwa [← Nat.add_assoc, Nat.add_right_comm] at hdata
  · by_cases hself : (n + 1 + k) % 8 = n
    · have hzero : (0 : UInt8) &&& 1 = 0 := by decide
      rw [hself, setDesc_self]
      exact hzero
    · rw [setDesc_of_ne hself, Nat.add_right_comm]
      exact hring.clear (k + 1) (Nat.succ_le_succ hk) (by omega)
  · obtain ⟨hroom, hfits, hdata⟩ := hring.filling g hg
    rw [List.length_cons] at hroom
    exact ⟨by omega, hfits, hdata⟩

theorem Freed.setDesc (h : Freed returned n 6 s) {g : RxDesc → RxDesc}
    (hg : ∀ d, (g d).addrLow = d.addrLow ∧ (g d).status = d.status) :
    Freed returned n 6 (s.setDesc n g) := by
  obtain ⟨q, hring, hn, hlt, haccepted⟩ := h
  have hlength := hring.length
  refine ⟨q, { hring with
    addr := fun i hi => ?_
    tells := fun k hk => ?_
    clear := fun k hk hk8 => ?_ }, hn, hlt, haccepted⟩
  · rw [setDesc_addr fun d => (hg d).1]
    exact hring.addr i hi
  · rw [setDesc_of_ne (by omega)]
    exact hring.tells k hk
  · have hclear := hring.clear k hk hk8
    by_cases hself : (n + 1 + k) % 8 = n
    · rw [hself] at hclear ⊢
      rwa [setDesc_self, (hg _).2]
    · rwa [setDesc_of_ne hself]

theorem Freed.tail (h : Freed returned n 6 s) : Freed returned n 7 { s with rdt := s.rxNext } := by
  obtain ⟨q, hring, hn, hlt, haccepted⟩ := h
  refine ⟨q, { hring with
    tail := hn.trans (by omega)
    length := hring.length.trans (by omega)
    le := le_rfl
    filling := fun g hg => ?_ }, hn, hlt, haccepted⟩
  obtain ⟨hroom, hrest⟩ := hring.filling g hg
  exact ⟨hroom.trans (by omega), hrest⟩

theorem Ring.mod {base room : ℕ} {q : List (List UInt8)} (h : Ring s base room q) :
    Ring s (base % 8) room q := by
  refine { h with
    head := by rw [Nat.mod_add_mod]; exact h.head
    tail := by rw [Nat.mod_add_mod]; exact h.tail
    tells := fun k hk => by rw [Nat.mod_add_mod]; exact h.tells k hk
    data := fun k hk => by rw [Nat.mod_add_mod]; exact h.data k hk
    clear := fun k hk => by rw [Nat.mod_add_mod]; exact h.clear k hk }

theorem Freed.advance (h : Freed returned n 7 s) :
    Waiting returned { s with rxNext := (s.rxNext + 1) % 8 } := by
  obtain ⟨q, hring, rfl, hlt, haccepted⟩ := h
  exact ⟨q, { hring.mod with }, Nat.mod_lt _ (by decide), haccepted⟩

end Stages

section Code

open Thread (holds_read holds_write holds_pure)

variable {s : Rx} {returned : List (List UInt8)} {n : ℕ} {f : List UInt8}

/-- A thread of the driver that may be interrupted by the card. -/
abbrev Does {α : Type} (t : RxThread α) (Q : α → Rx → Prop) (s : Rx) : Prop :=
  t.Holds Nic RxAccess.Safe Q s

/-- What is read of the descriptor is known from the frame. -/
theorem read_contents {β : Type} {g : Rx → β} {V : β → Prop} (h : Taking returned n f s)
    (hg : ∀ s, Taking returned n f s → V (g s)) :
    Does (read (.contents n) g) (fun b s => Taking returned n f s ∧ V b) s :=
  holds_read (taking_stable returned n f) (fun _ => (taking_stable returned n f).and (.const _))
    (fun _ => Taking.contents) (fun s hs => ⟨hs, hg s hs⟩) h

theorem setInfo_taking (h : Taking returned n f s) {g : RxInfo → RxInfo}
    (hg : ∀ i, (g i).present = i.present ∧ (g i).rxReady = i.rxReady) :
    Does (setInfo g) (fun _ => Taking returned n f) s :=
  holds_write (taking_stable returned n f) (taking_stable returned n f) (fun _ => Taking.tailBefore)
    (fun _ hs => hs.info hg) h

theorem pure_taking {α : Type} {a : α} {V : α → Prop} (h : Taking returned n f s) (ha : V a) :
    Does (pure a) (fun a s => Taking returned n f s ∧ V a) s :=
  holds_pure ((taking_stable returned n f).and (.const _)) ⟨h, ha⟩

theorem readBytes_does : ∀ (m start : ℕ) {s : Rx}, Taking returned n f s → start + m ≤ f.length →
    Does (readBytes n start m) (fun bytes s =>
      Taking returned n f s ∧ bytes = (f.drop start).take m) s
  | 0, _, _, h, _ => pure_taking h rfl
  | m + 1, start, _, h, hle => by
    refine Thread.Holds.seq (read_contents (V := (· = f[start])) h fun s hs =>
      hs.next.2.1 start (by omega)) fun byte s hs => ?_
    refine Thread.Holds.seq (readBytes_does m (start + 1) hs.1 (by omega)) fun bytes s hs' => ?_
    refine pure_taking hs'.1 ?_
    rw [hs'.2, List.drop_eq_getElem_cons (by omega : start < f.length), List.take_succ_cons]
    exact congrArg (· :: _) hs.2

theorem copyFrame_does {bufferSize : UInt16} {length : Bool} (hsize : 1536 ≤ bufferSize.toNat)
    (h : Taking returned n f s) :
    Does (copyFrame true bufferSize length n) (fun r s => Taking returned n f s ∧
      r = (f, if length then some (UInt16.ofNat f.length) else none)) s := by
  have hfits := h.next.2.2
  unfold Fits at hfits
  unfold copyFrame
  refine Thread.Holds.seq (read_contents (V := (·.toNat = f.length)) h fun s hs => hs.next.1.length)
    fun len s hs => ?_
  have hlong : (14 : UInt16) ≤ len := UInt16.le_iff_toNat_le.2 (by
    show 14 ≤ len.toNat
    rw [hs.2]
    exact hfits.1)
  rw [if_pos hlong]
  refine Thread.Holds.seq (read_contents (V := (· = f[12])) hs.1 fun s hs =>
    hs.next.2.1 12 (by omega)) fun high s hs => ?_
  refine Thread.Holds.seq (read_contents (V := (· = f[13])) hs.1 fun s hs =>
    hs.next.2.1 13 (by omega)) fun low s hs => ?_
  refine Thread.Holds.seq (setInfo_taking hs.1 fun _ => ⟨rfl, rfl⟩) fun _ s hs => ?_
  have hnonzero : (true && bufferSize != 0) = true := by
    rw [Bool.true_and, bne_iff_ne]
    intro heq
    rw [heq] at hsize
    exact absurd hsize (by decide)
  rw [if_pos hnonzero]
  refine Thread.Holds.seq (read_contents (V := (·.toNat = f.length)) hs fun s hs =>
    hs.next.1.length) fun len s hs => ?_
  have hnot : ¬bufferSize < len := fun hlt => by
    have hlt' := UInt16.lt_iff_toNat_lt.1 hlt
    have hlen := hs.2
    omega
  dsimp only
  rw [if_neg hnot]
  refine Thread.Holds.seq (readBytes_does len.toNat 0 hs.1 (by have hlen := hs.2; omega))
    fun bytes s hs' => ?_
  refine pure_taking hs'.1 ?_
  rw [hs'.2, hs.2, List.drop_zero, List.take_length, ← hs.2, UInt16.ofNat_toNat]

theorem damaged_does (h : Taking returned n f s) :
    Does (damaged n) (fun bad s => Taking returned n f s ∧ bad = false) s := by
  unfold damaged
  refine Thread.Holds.seq (read_contents (V := (· = 0)) h fun s hs => hs.next.1.errors)
    fun errors s hs => ?_
  rw [if_neg (by rw [hs.2]; decide)]
  refine Thread.Holds.seq (read_contents (V := (· &&& 2 ≠ 0)) hs.1 fun s hs => hs.next.1.eop)
    fun status s hs => ?_
  exact pure_taking hs.1 (by rw [beq_eq_false_iff_ne]; exact hs.2)

theorem takeFrame_does {bufferSize : UInt16} {length : Bool} (hsize : 1536 ≤ bufferSize.toNat)
    (h : Taking returned n f s) : Does (takeFrame true bufferSize length n) (fun r s =>
      Waiting (returned ++ [f]) s ∧ r =
        ⟨1, f, if length then some (UInt16.ofNat f.length) else none⟩) s := by
  unfold takeFrame
  refine Thread.Holds.seq (read_contents (V := fun _ => True) h fun _ _ => trivial) fun _ s hs => ?_
  refine Thread.Holds.seq (setInfo_taking hs.1 fun _ => ⟨rfl, rfl⟩) fun _ s hs => ?_
  refine Thread.Holds.seq (read_contents (V := fun _ => True) hs fun _ _ => trivial)
    fun _ s hs => ?_
  refine Thread.Holds.seq (setInfo_taking hs.1 fun _ => ⟨rfl, rfl⟩) fun _ s hs => ?_
  refine Thread.Holds.seq (read_contents (V := fun _ => True) hs fun _ _ => trivial)
    fun _ s hs => ?_
  refine Thread.Holds.seq (setInfo_taking hs.1 fun _ => ⟨rfl, rfl⟩) fun _ s hs => ?_
  refine Thread.Holds.seq (copyFrame_does hsize hs) fun r s hs => ?_
  obtain ⟨hs, rfl⟩ := hs
  refine Thread.Holds.seq (damaged_does hs) fun bad s hs => ?_
  refine Thread.Holds.seq (setInfo_taking hs.1 fun _ => by split <;> exact ⟨rfl, rfl⟩)
    fun _ s hs => ?_
  -- the descriptor is cleared, and handed back
  have htaking := taking_stable returned n f
  have hfreed := freed_stable (returned ++ [f]) n
  refine Thread.Holds.seq (holds_write htaking (hfreed 6) (fun _ => Taking.tailBefore)
    (fun _ => Taking.clear) hs) fun _ s hs => ?_
  refine Thread.Holds.seq (holds_write (hfreed 6) (hfreed 6) (fun _ => Freed.tailBefore)
    (fun _ hs => hs.setDesc fun _ => ⟨rfl, rfl⟩) hs) fun _ s hs => ?_
  refine Thread.Holds.seq (holds_write (hfreed 6) (hfreed 6) (fun _ => Freed.tailBefore)
    (fun _ hs => hs.setDesc fun _ => ⟨rfl, rfl⟩) hs) fun _ s hs => ?_
  refine Thread.Holds.seq (holds_write (hfreed 6) (hfreed 7) (fun _ => Freed.tailBefore)
    (fun _ => Freed.tail) hs) fun _ s hs => ?_
  refine Thread.Holds.seq (holds_write (hfreed 7) (waiting_stable _) (fun _ _ => trivial)
    (fun _ => Freed.advance) hs) fun _ s hs => ?_
  exact holds_pure ((waiting_stable _).and (.const _)) ⟨hs, rfl⟩

end Code

/-! ## Runs -/

/-- A buffer that has room for every frame, and whether `length` is given. -/
structure Buffer where
  size : UInt16
  size_le : 1536 ≤ size.toNat
  length : Bool

/-- A call of `e1000_receive_frame` with the buffer. -/
def Buffer.receive (b : Buffer) : RxThread Received := e1000ReceiveFrame true b.size b.length

/-- The frame that a call returns. -/
def Received.frame (r : Received) : Option (List UInt8) :=
  if r.value = 1 then some r.bytes else none

/-- The frames that the calls have returned. -/
def returned (log : List (Buffer × Rx × Received)) : List (List UInt8) :=
  log.filterMap fun e => e.2.2.frame

/-- What a call that began in `s` has returned: a frame, if the next descriptor carried `DD`. -/
structure Answered (b : Buffer) (s : Rx) (r : Received) : Prop where
  returns : (s.rxDescs s.rxNext).status &&& 1 ≠ 0 → r.value = 1
  length : r.value = 1 → r.length = if b.length then some (UInt16.ofNat r.bytes.length) else none

/-- All frames that have been accepted have been returned in order, but for those that still wait.
-/
structure Delivered (log : List (Buffer × Rx × Received)) (s : Rx) : Prop where
  waiting : ∃ q, s.accepted = returned log ++ q ∧ (q ≠ [] → (s.rxDescs s.rxNext).status &&& 1 ≠ 0)
  tail : TailBefore s
  answered : ∀ e ∈ log, Answered e.1 e.2.1 e.2.2

section Runs

variable {s : Rx} {log : List (Buffer × Rx × Received)}

open Thread (holds_read holds_write holds_pure Stable)

theorem Waiting.next {frames : List (List UInt8)} (h : Waiting frames s)
    (hdd : (s.rxDescs s.rxNext).status &&& 1 ≠ 0) : ∃ f, Taking frames s.rxNext f s := by
  obtain ⟨q, hring, hlt, haccepted⟩ := h
  cases q with
  | nil =>
    have hclear := hring.clear 0 le_rfl (by decide)
    rw [Nat.add_zero, Nat.mod_eq_of_lt hlt] at hclear
    exact absurd hclear hdd
  | cons f q => exact ⟨f, q, hring, rfl, hlt, haccepted⟩

theorem Waiting.nonempty {frames : List (List UInt8)} (h : Waiting frames s) :
    ∃ q, s.accepted = frames ++ q ∧ (q ≠ [] → (s.rxDescs s.rxNext).status &&& 1 ≠ 0) := by
  obtain ⟨q, hring, hlt, haccepted⟩ := h
  refine ⟨q, haccepted, fun hq => ?_⟩
  have htells := hring.tells 0 (List.length_pos_iff.2 hq)
  rw [Nat.add_zero, Nat.mod_eq_of_lt hlt] at htells
  exact htells.dd

/-- What is known before the status of the next descriptor is read. -/
def Polling (frames : List (List UInt8)) (s₀ : Rx) (s : Rx) : Prop :=
  Waiting frames s ∧ s.rxNext = s₀.rxNext ∧
  ((s₀.rxDescs s₀.rxNext).status &&& 1 ≠ 0 → ∃ f, Taking frames s₀.rxNext f s)

theorem polling_stable (frames : List (List UInt8)) (s₀ : Rx) : Stable Nic (Polling frames s₀) := by
  have hnext : Stable Nic fun s => Waiting frames s ∧ s.rxNext = s₀.rxNext := by
    intro s s' h hstep
    obtain ⟨⟨q, hring, hlt, haccepted⟩, hn⟩ := h
    obtain ⟨q', hring', haccepted', hn'⟩ := hring.nic hstep
    exact ⟨waiting_stable _ _ _ ⟨q, hring, hlt, haccepted⟩ hstep, hn'.trans hn⟩
  intro s s' h hstep
  have hnext' := hnext s s' ⟨h.1, h.2.1⟩ hstep
  exact ⟨hnext'.1, hnext'.2,
    (Stable.exists fun f => taking_stable frames s₀.rxNext f).imp s s' h.2.2 hstep⟩

theorem Waiting.ready {frames : List (List UInt8)} (h : Waiting frames s) :
    s.info.present = true ∧ s.info.rxReady = true := by
  obtain ⟨q, hring, -⟩ := h
  exact hring.ready

theorem read_waiting {frames : List (List UInt8)} {β : Type} {i : ℕ} {g : Rx → β}
    (h : Waiting frames s) :
    Does (read (.poll i) g) (fun _ => Waiting frames) s :=
  holds_read (waiting_stable frames) (fun _ => waiting_stable frames) (fun _ => Waiting.tailBefore)
    (fun _ => id) h

theorem setInfo_waiting {frames : List (List UInt8)} (h : Waiting frames s) {g : RxInfo → RxInfo}
    (hg : ∀ i, (g i).present = i.present ∧ (g i).rxReady = i.rxReady) :
    Does (setInfo g) (fun _ => Waiting frames) s :=
  holds_write (waiting_stable frames) (waiting_stable frames) (fun _ => Waiting.tailBefore)
    (fun _ hs => hs.info hg) h

theorem receive_does {frames : List (List UInt8)} (b : Buffer) (h : Waiting frames s) :
    Does b.receive (fun r s' => Waiting (frames ++ r.frame.toList) s' ∧ Answered b s r) s := by
  have hpolling : Polling frames s s := ⟨h, rfl, fun hdd => h.next hdd⟩
  have hstable := polling_stable frames s
  have hwaiting := waiting_stable frames
  unfold Buffer.receive e1000ReceiveFrame
  refine Thread.Holds.seq
    (holds_read (R := fun g s' => Polling frames s s' ∧ g.present = true ∧ g.rxReady = true)
    hstable (fun _ => hstable.and (.const _)) (fun _ hs => hs.1.tailBefore)
    (fun _ hs => ⟨hs, hs.1.ready⟩) hpolling) fun g s₁ hs => ?_
  rw [if_neg (by rw [hs.2.1, hs.2.2]; decide)]
  refine Thread.Holds.seq (holds_read (R := fun i s' => Polling frames s s' ∧ i = s.rxNext)
    hstable (fun _ => hstable.and (.const _)) (fun _ hs => hs.1.tailBefore)
    (fun _ hs => ⟨hs, hs.2.1⟩) hs.1) fun i s₁ hs => ?_
  obtain ⟨hs, rfl⟩ := hs
  refine Thread.Holds.seq (holds_read (R := fun d s' =>
      (d &&& 1 = 0 → (s.rxDescs s.rxNext).status &&& 1 = 0 ∧ Waiting frames s') ∧
      (d &&& 1 ≠ 0 → ∃ f, Taking frames s.rxNext f s'))
    hstable (fun _ => ((Stable.const _).and hwaiting).imp.and
      (Stable.exists fun f => taking_stable _ _ f).imp)
    (fun _ hs => hs.1.tailBefore) (fun s' hs => ⟨fun hzero => ⟨?_, hs.1⟩, fun hdd => ?_⟩) hs)
      fun d s₁ hs => ?_
  · by_contra hdd
    obtain ⟨f, hf⟩ := hs.2.2 hdd
    exact hf.next.1.dd hzero
  · rw [← hs.2.1] at hdd ⊢
    exact hs.1.next hdd
  by_cases hd : d &&& 1 = 0
  · obtain ⟨hclear, hs⟩ := hs.1 hd
    rw [if_pos (beq_iff_eq.2 hd)]
    refine Thread.Holds.seq (read_waiting hs) fun _ s₂ hs => ?_
    refine Thread.Holds.seq (setInfo_waiting hs fun _ => ⟨rfl, rfl⟩) fun _ s₂ hs => ?_
    refine Thread.Holds.seq (read_waiting hs) fun _ s₂ hs => ?_
    refine Thread.Holds.seq (setInfo_waiting hs fun _ => ⟨rfl, rfl⟩) fun _ s₂ hs => ?_
    refine holds_pure ((waiting_stable _).and (.const _))
      ⟨?_, fun hdd => absurd hclear hdd, fun h1 => ?_⟩
    · rwa [show Option.toList _ = [] from rfl, List.append_nil]
    · have hne : (0 : Int) ≠ 1 := by decide
      exact absurd h1 hne
  · obtain ⟨f, hs⟩ := hs.2 hd
    rw [if_neg (by rwa [beq_iff_eq])]
    refine (takeFrame_does b.size_le hs).mono fun r s₂ hs => ?_
    obtain ⟨hs, rfl⟩ := hs
    exact ⟨hs, fun _ => rfl, fun _ => rfl⟩

end Runs

section Delivery

variable {s : Rx}

/-- In every run from `e1000_rx_init` on, with steps of the card before any access of the driver,
the calls return the accepted frames in order, each of them once and complete, and a call returns a
frame where one waits when it begins. Between calls the tail register is the slot before `rx_next`;
in a call every access is safe. -/
theorem receive_delivers (hpresent : s.info.present = true) (hmmio : s.info.mmio = true)
    (hbase : s.info.mmioBase ≠ 0) (hmac : s.info.macValid = true) (hfilling : s.filling = none)
    (haccepted : s.accepted = []) {m : Thread.Machine RxAccess Buffer Rx Received}
    (hrun : Thread.Reaches Nic Buffer.receive (Thread.start (e1000RxInit s)) m) :
    (m.running = none → Delivered m.log m.shared) ∧
    ∀ b s₀ t, m.running = some (b, s₀, t) → Delivered m.log s₀ ∧
      ∀ i f next, t = .access i f next → i.Safe m.shared := by
  have hinit : (e1000RxInit s).accepted = [] ∧ (e1000RxInit s).rxNext = 0 := by
    unfold e1000RxInit
    rw [if_neg (by simp [hmmio, hbase, hmac])]
    exact ⟨haccepted, rfl⟩
  have hring := e1000RxInit_ring hpresent hmmio hbase hmac hfilling
  have hcode : ∀ (b : Buffer) (log : List (Buffer × Rx × Received)) (s₀ : Rx),
      Waiting (returned log) s₀ ∧ (∀ e ∈ log, Answered e.1 e.2.1 e.2.2) →
      Does b.receive (fun r s' => Waiting (returned (log ++ [(b, s₀, r)])) s' ∧
        ∀ e ∈ log ++ [(b, s₀, r)], Answered e.1 e.2.1 e.2.2) s₀ := by
    intro b log s₀ h
    refine (receive_does b h.1).mono fun r s' hs => ⟨?_, fun e he => ?_⟩
    · have hframes : returned (log ++ [(b, s₀, r)]) = returned log ++ r.frame.toList := by
        unfold returned
        rw [List.filterMap_append]
        rcases hframe : r.frame with _ | f
        · simp [hframe]
        · simp [hframe]
      rw [hframes]
      exact hs.1
    · rcases List.mem_append.1 he with he | he
      · exact h.2 e he
      · obtain rfl := List.mem_singleton.1 he
        exact hs.2
  have hkept := hrun.kept (fun log => (waiting_stable (returned log)).and (.const _)) hcode
    ⟨⟨[], by rwa [hinit.2], by rw [hinit.2]; decide, hinit.1⟩,
      fun e he => absurd he List.not_mem_nil⟩
  have hdelivered : ∀ log s, Waiting (returned log) s ∧ (∀ e ∈ log, Answered e.1 e.2.1 e.2.2) →
    Delivered log s := fun log s h => ⟨h.1.nonempty, h.1.tailBefore, h.2⟩
  refine ⟨fun hnone => hdelivered _ _ (hkept.1 hnone), fun b s₀ t hrunning => ?_⟩
  obtain ⟨hbegan, hholds⟩ := hkept.2 b s₀ t hrunning
  refine ⟨hdelivered _ _ hbegan, fun i f next ht => ?_⟩
  subst ht
  exact (hholds m.shared .refl).1

/-- A card before `e1000_rx_init`. -/
def card :
    Rx := ⟨⟨true, true, true, false, 0xFEBC0000, 0, 0, 0, 0, 0, 0⟩, fun _ =>
  ⟨0, 0, 0, 0⟩, fun _ => 0, 0, 0, 0, 0, 0, none, []⟩

/-- A card that has filled a descriptor. -/
def filledCard : Rx :=
  ((e1000RxInit card).filled (List.replicate 14 0)).completed (List.replicate 14 0) 3

theorem receive_delivers_filled :
    (card.info.present = true ∧ card.info.mmio = true ∧ card.info.mmioBase ≠ 0 ∧
    card.info.macValid = true ∧ card.filling = none ∧ card.accepted = []) ∧
      Delivered [] filledCard :=
  ⟨⟨rfl, rfl, by decide, rfl, rfl, rfl⟩,
    (receive_delivers (s := card) (m := ⟨filledCard, none, []⟩) rfl rfl (by decide) rfl rfl rfl
      (.tail
        (.single
        (.other (.fill (List.replicate 14 0) (by decide) rfl (by decide) (by unfold Fits; decide))))
        (.other (.complete (List.replicate 14 0) 3 rfl (by decide) (by decide))))).1 rfl⟩

end Delivery

end MinervaOS.Devices
