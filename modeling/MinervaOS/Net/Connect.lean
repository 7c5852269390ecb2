import MinervaOS.Net.Frames

/-!
# Opening a connection

`net_tcp_connect_to` over a network card that has any frames whenever it is polled, and sends or
does not send what it is given. It takes the sequence number of the peer from the last segment that
was handled when the wait ends, and it does not look at the acknowledgement: so it follows the
SYN-ACK only where nothing of the connection came behind it in its batch, or where what came happens
to begin one byte before what is missing.
-/

namespace MinervaOS.Net.Connect

/-- What the card does in a run. -/
structure Device where
  /-- `present`, `tx_ready`, `rx_ready` and `mac_valid`. -/
  ready : Bool
  /-- The frames that are there at each call of `net_poll_frames`. -/
  received : Nat → List (List UInt8)
  /-- What each call of `e1000_send_frame` returns. -/
  sends : Nat → Bool

/-- `g_net`, with the calls so far and the frames that were handled, the latest last. -/
structure State where
  localIp : List UInt8
  gatewayIp : List UInt8
  gatewayMacValid : Bool
  tcpErrors : UInt32
  tcpAcks : UInt32
  tcp : Tcp
  polls : Nat
  sent : Nat
  handled : List (List UInt8)

/-- `net_handle_arp` takes the frame for a reply of the gateway. -/
def fromGateway (s : State) (frame : List UInt8) : Bool :=
  42 ≤ frame.length && get16be frame 12 == 0x0806 && get16be frame 14 == 1 &&
    get16be frame 16 == 0x0800 &&
    get8 frame 18 == 6 && get8 frame 19 == 4 && get16be frame 20 == 2 &&
    (frame.drop 38).take 4 == s.localIp && (frame.drop 28).take 4 == s.gatewayIp

/-- The packet that `net_handle_ipv4` hands to `net_handle_tcp`. -/
def tcpPacket (localIp frame : List UInt8) : Option Packet :=
  let ip := frame.drop 14
  let ipHeaderLen := (get8 ip 0 &&& 0x0F).toUInt16 * 4
  let ipTotalLength := get16be ip 2
  if frame.length < 14 || get16be frame 12 != 0x0800 then none
  else if frame.length < 14 + 20 then none
  else if get8 ip 0 >>> 4 != 4 || ipHeaderLen < 20 then none
  else if 14 + ipHeaderLen.toNat > frame.length then none
  else if (ip.drop 16).take 4 != localIp then none
  else if ipTotalLength < ipHeaderLen || 14 + ipTotalLength.toNat > frame.length then none
  else if get8 ip 9 == ipProtoTcp then some ⟨ip, ipTotalLength, ipHeaderLen⟩
  else none

/-- One turn of `net_poll_frames`, as far as the gateway and the connection go. -/
def netHandleFrame (s : State) (frame : List UInt8) : State :=
  let s := { s with
    handled := s.handled ++ [frame], gatewayMacValid := s.gatewayMacValid || fromGateway s frame }
  match tcpPacket s.localIp frame with
  | some k => { s with tcp := (netHandleTcp s.tcp k).2 }
  | none => s

def netPollFrames (d : Device) (limit : Nat) (s : State) : State :=
  { ((d.received s.polls).take limit).foldl netHandleFrame s with polls := s.polls + 1 }

def netDrainFrames (d : Device) : Nat → State → State
  | 0, s => s
  | rounds + 1, s => netDrainFrames d rounds (netPollFrames d 8 s)

/-- The loops that poll up to `spins` times while there is something to wait for. -/
def pollWhile (d : Device) (waiting : State → Bool) : Nat → State → State
  | 0, s => s
  | spins + 1, s => if waiting s then pollWhile d waiting spins (netPollFrames d 4 s) else s

def e1000SendFrame (d : Device) (s : State) : Bool × State :=
  (d.sends s.sent, { s with sent := s.sent + 1 })

def netArpProbeGateway (d : Device) (s : State) : Bool × State :=
  if !d.ready then (false, s)
  else
    let (ok, s) := e1000SendFrame d s
    if !ok then (false, s)
    else
      let s := pollWhile d (fun s => !s.gatewayMacValid) 40000 s
      (s.gatewayMacValid, s)

/-- `g_net.gateway_mac_valid || net_arp_probe_gateway()`. -/
def findGateway (d : Device) (s : State) : Bool × State :=
  if s.gatewayMacValid then (true, s) else netArpProbeGateway d s

/-- The attempts of `net_send_tcp_segment`. -/
def sendAttempts (d : Device) : Nat → State → Bool × State
  | 0, s => (false, s)
  | attempts + 1, s =>
    let (ok, s) := e1000SendFrame d s
    if ok then (true, s) else sendAttempts d attempts (netPollFrames d 2 s)

/-- `net_send_tcp_segment` without a payload. -/
def netSendTcpSegment (d : Device) (s : State) : Bool × State :=
  if !d.ready then (false, s)
  else
    let (ok, s) := findGateway d s
    if !ok then (false, s) else sendAttempts d 8 s

def State.error (s : State) : State := { s with tcpErrors := s.tcpErrors + 1 }

/-- The new connection, of which no segment has been seen. -/
def State.forget (s : State) (targetIp : List UInt8) (targetPort : UInt16) : State :=
  { s with tcp := { s.tcp with
      tcpTargetIp := targetIp, tcpTargetPort := targetPort
      tcpLocalPort := tcpSourcePortBase + (s.tcp.tcpSyns &&& 0x01FF).toUInt16
      lastTcpSrc := 0, lastTcpDst := 0, lastTcpFlags := 0, lastTcpSeq := 0, lastTcpAck := 0 } }

def State.countSyn (s : State) : State :=
  { s with tcp := { s.tcp with tcpSyns := s.tcp.tcpSyns + 1 } }

/-- The sequence numbers of the connection that the SYN with sequence number `seq` opens. -/
def State.setNext (s : State) (seq : UInt32) : State :=
  { s with tcp := { s.tcp with tcpLocalNext := seq + 1, tcpRemoteNext := s.tcp.lastTcpSeq + 1 } }

/-- `net_tcp_connect_to` up to the sequence numbers. -/
def openConnection (d : Device) (targetIp : List UInt8) (targetPort : UInt16) (s : State) :
    Bool × State :=
  let seq := tcpSeqBase + s.tcp.tcpSyns
  let previousSynacks := s.tcp.tcpSynacks
  let (ok, s) := findGateway d (s.forget targetIp targetPort)
  if !ok then (false, s.error)
  else
    let (ok, s) := netSendTcpSegment d (netDrainFrames d 16 s).countSyn
    if !ok then (false, s.error)
    else
      let s := pollWhile d (fun s => s.tcp.tcpSynacks == previousSynacks) 1200000 s
      if s.tcp.tcpSynacks == previousSynacks then (false, s.error)
      else (true, s.setNext seq)

def netTcpConnectTo (d : Device) (targetIp : List UInt8) (targetPort : UInt16) (sendFinalAck : Bool)
    (s : State) : Bool × State :=
  let (ok, s) := openConnection d targetIp targetPort s
  if !ok then (false, s)
  else if !sendFinalAck then (true, s)
  else
    let (ok, s) := netSendTcpSegment d s
    if !ok then (false, s.error) else (true, { s with tcpAcks := s.tcpAcks + 1 })

/-! ## What a call leaves behind -/

/-- The segment carries data that is handed over. -/
def HasData (k : Packet) : Prop := ¬k.IsSynAck ∧ 0 < k.tcpPayloadLen

instance (k : Packet) : Decidable (HasData k) := inferInstanceAs (Decidable (_ ∧ _))

/-- The sequence number behind the data of a segment. -/
def dataEnd (k : Packet) : UInt32 := k.seq + UInt32.ofNat k.tcpPayloadLen

/-- What the packets `ks` leave in a connection. -/
structure Heard (n n' : Tcp) (ks : List Packet) : Prop where
  peer : SamePeer n n'
  tcpLocalNext : n'.tcpLocalNext = n.tcpLocalNext
  lastTcpSeq : n'.lastTcpSeq =
    ((ks.filter fun k => n.Admits k).getLast?.map Packet.seq).getD n.lastTcpSeq
  tcpRemoteNext : n'.tcpRemoteNext =
    (((ks.filter fun k => n.Admits k).filter fun k => HasData k).getLast?.map dataEnd).getD
      n.tcpRemoteNext
  tcpSynacks : (∀ k ∈ ks.filter fun k => n.Admits k, ¬k.IsSynAck) → n'.tcpSynacks = n.tcpSynacks

theorem SamePeer.admits {n n' : Tcp} {k : Packet} (h : SamePeer n n') :
    n'.Admits k ↔ n.Admits k := by
  unfold Tcp.Admits
  rw [h.1, h.2.1, h.2.2]

theorem SamePeer.filter_admits {n n' : Tcp} (h : SamePeer n n') (ks : List Packet) :
    (ks.filter fun k => n'.Admits k) = ks.filter fun k => n.Admits k :=
  List.filter_congr fun _ _ => decide_eq_decide.2 (SamePeer.admits h)

namespace Heard

variable {n n' n'' : Tcp} {k : Packet} {ks ks' : List Packet}

theorem refl (n : Tcp) : Heard n n [] := ⟨⟨rfl, rfl, rfl⟩, rfl, rfl, rfl, fun _ => rfl⟩

theorem getD_append {α β : Type} (f : α → β) (l l' : List α) (b : β) :
    ((l ++ l').getLast?.map f).getD b = (l'.getLast?.map f).getD ((l.getLast?.map f).getD b) := by
  rw [List.getLast?_append]
  cases l'.getLast? <;> rfl

theorem trans (h : Heard n n' ks) (h' : Heard n' n'' ks') : Heard n n'' (ks ++ ks') := by
  have hfilter := SamePeer.filter_admits h.peer ks'
  refine ⟨⟨h'.peer.1.trans h.peer.1, h'.peer.2.1.trans h.peer.2.1, h'.peer.2.2.trans h.peer.2.2⟩,
    h'.tcpLocalNext.trans h.tcpLocalNext, ?_, ?_, ?_⟩
  · rw [h'.lastTcpSeq, h.lastTcpSeq, hfilter, List.filter_append, getD_append]
  · rw [h'.tcpRemoteNext, h.tcpRemoteNext, hfilter, List.filter_append,
      List.filter_append, getD_append]
  · intro hnone
    rw [List.filter_append] at hnone
    rw [h'.tcpSynacks fun k hk => hnone k (List.mem_append_right _ (hfilter ▸ hk)),
      h.tcpSynacks fun k hk => hnone k (List.mem_append_left _ hk)]

end Heard

theorem tcpLocalNext_netHandleTcp (n : Tcp) (k : Packet) :
    (netHandleTcp n k).2.tcpLocalNext = n.tcpLocalNext := by
  unfold netHandleTcp
  split_ifs <;> rfl

theorem tcpSynacks_netHandleTcp {n : Tcp} {k : Packet} (h : ¬k.IsSynAck) :
    (netHandleTcp n k).2.tcpSynacks = n.tcpSynacks := by
  unfold netHandleTcp
  split_ifs with hshort hheader hport hip hsyn hlen
  · rfl
  · rfl
  · rfl
  · rfl
  · exact absurd hsyn h
  · rfl
  · rfl

theorem netHandleTcp_of_not_admits {n : Tcp} {k : Packet} (h : ¬n.Admits k) :
    (netHandleTcp n k).2 = n := by
  unfold netHandleTcp
  split_ifs with hshort hheader hport hip hsyn hlen
  · rfl
  · rfl
  · rfl
  · rfl
  all_goals
    refine absurd ?_ h
    simp only [Bool.or_eq_true, decide_eq_true_eq, bne_iff_ne, not_or, ne_eq, not_not]
      at hheader hport hip
    exact ⟨by omega, by omega, by omega, hport.1, hport.2, hip⟩

/-- One packet. -/
theorem Heard.step (n : Tcp) (k : Packet) : Heard n (netHandleTcp n k).2 [k] := by
  obtain ⟨hpeer, hdata, hother⟩ := netHandleTcp_spec n k
  by_cases h : n.Admits k
  · have hfilter : ([k].filter fun k => n.Admits k) = [k] := by simp [h]
    refine ⟨hpeer, tcpLocalNext_netHandleTcp n k, ?_, ?_, ?_⟩
    · rw [hfilter, lastTcpSeq_of_admits h]
      rfl
    · rw [hfilter]
      by_cases hd : HasData k
      · rw [(hdata ⟨h, hd⟩).2]
        simp [hd, dataEnd]
      · rw [(hother fun hd' => hd hd'.2).2]
        simp [hd]
    · intro hnone
      exact tcpSynacks_netHandleTcp (hnone k (by rw [hfilter]; exact List.mem_singleton_self k))
  · have hfilter : ([k].filter fun k => n.Admits k) = [] := by simp [h]
    rw [netHandleTcp_of_not_admits h]
    refine ⟨⟨rfl, rfl, rfl⟩, rfl, ?_, ?_, fun _ => rfl⟩
    · rw [hfilter]
      rfl
    · rw [hfilter]
      rfl

/-- `s'` is `s` after the frames `fs`. -/
structure Ran (s s' : State) (fs : List (List UInt8)) : Prop where
  localIp : s'.localIp = s.localIp
  handled : s'.handled = s.handled ++ fs
  heard : Heard s.tcp s'.tcp (fs.filterMap (tcpPacket s.localIp))

namespace Ran

variable {s s' s'' : State} {fs fs' : List (List UInt8)}

/-- Nothing of it is changed. -/
theorem same (hip : s'.localIp = s.localIp) (hhandled : s'.handled = s.handled)
    (h : Heard s.tcp s'.tcp []) : Ran s s' [] := ⟨hip, by rw [hhandled, List.append_nil], h⟩

theorem refl (s : State) : Ran s s [] := .same rfl rfl (.refl s.tcp)

theorem trans (h : Ran s s' fs) (h' : Ran s' s'' fs') : Ran s s'' (fs ++ fs') := by
  refine ⟨h'.localIp.trans h.localIp, by rw [h'.handled, h.handled, List.append_assoc], ?_⟩
  have hheard := h'.heard
  rw [h.localIp] at hheard
  rw [List.filterMap_append]
  exact h.heard.trans hheard

theorem frame (s : State) (f : List UInt8) : Ran s (netHandleFrame s f) [f] := by
  unfold netHandleFrame
  dsimp only
  cases hk : tcpPacket s.localIp f with
  | none => exact ⟨rfl, rfl, by simpa [hk] using Heard.refl s.tcp⟩
  | some k => exact ⟨rfl, rfl, by simpa [hk] using Heard.step s.tcp k⟩

theorem frames (fs : List (List UInt8)) : ∀ s : State, Ran s (fs.foldl netHandleFrame s) fs := by
  induction fs with
  | nil => exact refl
  | cons f fs ih => exact fun s => (frame s f).trans (ih _)

end Ran

/-- `s'` is `s` after some frames. -/
def Runs (s s' : State) : Prop := ∃ fs, Ran s s' fs

namespace Runs

variable {d : Device} {s s' s'' : State}

theorem refl (s : State) : Runs s s := ⟨[], .refl s⟩

theorem trans (h : Runs s s') (h' : Runs s' s'') : Runs s s'' := by
  obtain ⟨fs, h⟩ := h
  obtain ⟨fs', h'⟩ := h'
  exact ⟨fs ++ fs', h.trans h'⟩

theorem poll (d : Device) (limit : Nat) (s : State) : Runs s (netPollFrames d limit s) := by
  obtain ⟨hip, hhandled, hheard⟩ := Ran.frames ((d.received s.polls).take limit) s
  exact ⟨_, hip, hhandled, hheard⟩

theorem drain (d : Device) (rounds : Nat) : ∀ s, Runs s (netDrainFrames d rounds s) := by
  induction rounds with
  | zero => exact refl
  | succ rounds ih => exact fun s => (poll d 8 s).trans (ih _)

theorem pollWhile (d : Device) (waiting : State → Bool) (spins : Nat) :
    ∀ s, Runs s (pollWhile d waiting spins s) := by
  induction spins with
  | zero => exact refl
  | succ spins ih =>
    intro s
    unfold Connect.pollWhile
    split_ifs
    · exact (poll d 4 s).trans (ih _)
    · exact refl s

theorem send (d : Device) (s : State) : Runs s (e1000SendFrame d s).2 :=
  ⟨[], .same rfl rfl (.refl s.tcp)⟩

theorem findGateway (d : Device) (s : State) : Runs s (findGateway d s).2 := by
  unfold Connect.findGateway netArpProbeGateway
  dsimp only
  split_ifs
  · exact refl s
  · exact refl s
  · exact send d s
  · exact (send d s).trans (pollWhile ..)

theorem attempts (d : Device) (n : Nat) : ∀ s, Runs s (sendAttempts d n s).2 := by
  induction n with
  | zero => exact refl
  | succ n ih =>
    intro s
    unfold sendAttempts
    dsimp only
    split_ifs
    · exact send d s
    · exact ((send d s).trans (poll d 2 _)).trans (ih _)

theorem sendTcpSegment (d : Device) (s : State) : Runs s (netSendTcpSegment d s).2 := by
  unfold netSendTcpSegment
  dsimp only
  split_ifs
  · exact refl s
  · exact findGateway d s
  · exact (findGateway d s).trans (attempts d 8 _)

end Runs

/-! ## The connection that is opened -/

/-- The segments of the connection that were handled from `s` to `s'`. -/
def State.arrived (s s' : State) : List Packet :=
  ((s'.handled.drop s.handled.length).filterMap (tcpPacket s.localIp)).filter fun k =>
    s'.tcp.Admits k

/-- The SYN-ACK that answers the SYN with sequence number `seq`. -/
def Answers (seq : UInt32) (k : Packet) : Prop := k.IsSynAck ∧ k.ack = seq + 1

instance (seq : UInt32) (k : Packet) : Decidable (Answers seq k) :=
  inferInstanceAs (Decidable (_ ∧ _))

/-- The first byte that is still missing after the segments, if it was `next` before them: data that
begins there is in order. -/
def missing (next : UInt32) (ks : List Packet) : UInt32 :=
  ks.foldl (fun next k => if HasData k ∧ k.seq = next then dataEnd k else next) next

/-- The SYN was answered, and the connection stands behind the SYN-ACK and the data that came in
order. -/
def Established (seq : UInt32) (n : Tcp) (ks : List Packet) : Prop :=
  ∃ before synAck after, ks = before ++ synAck :: after ∧ Answers seq synAck ∧
    n.tcpLocalNext = seq + 1 ∧
    n.tcpRemoteNext = missing (synAck.seq + 1) after

/-- Among the segments `early`, up to the end of the wait, and `late`, while the final ACK is sent,
is a SYN-ACK that answers the SYN; the last data of `late` ends at the first byte that is missing,
and without such data the last segment of `early` begins one byte before it. -/
def InStep (seq : UInt32) (early late : List Packet) : Prop :=
  ∃ before synAck after, early ++ late = before ++ synAck :: after ∧ Answers seq synAck ∧
    ((late.filter fun k => HasData k) = [] →
      ∀ last ∈ early.getLast?, last.seq + 1 = missing (synAck.seq + 1) after) ∧
    ∀ last ∈ (late.filter fun k => HasData k).getLast?,
      dataEnd last = missing (synAck.seq + 1) after

section

variable {d : Device} {targetIp : List UInt8} {targetPort : UInt16} {s s₁ : State}

/-- The SYN is counted on the way. -/
theorem Runs.countSyn (s : State) : Runs s s.countSyn :=
  ⟨[], .same rfl rfl ⟨⟨rfl, rfl, rfl⟩, rfl, rfl, rfl, fun _ => rfl⟩⟩

theorem openConnection_spec (h : openConnection d targetIp targetPort s = (true, s₁)) :
    ∃ s₀, Runs (s.forget targetIp targetPort) s₀ ∧ s₀.tcp.tcpSynacks ≠ s.tcp.tcpSynacks ∧
      s₁ = s₀.setNext (tcpSeqBase + s.tcp.tcpSyns) := by
  unfold openConnection at h
  dsimp only at h
  split_ifs at h with hgateway hsend hwait
  · cases h
  · cases h
  · cases h
  · rcases h with ⟨-, rfl⟩
    refine ⟨_, ?_, ?_, rfl⟩
    · have hfound := Runs.findGateway d (s.forget targetIp targetPort)
      have hdrained := hfound.trans (.drain d 16 _)
      have hsent := (hdrained.trans (.countSyn _)).trans (.sendTcpSegment d _)
      exact hsent.trans (.pollWhile ..)
    · simpa using hwait

theorem netTcpConnectTo_spec {sendFinalAck : Bool} {s₂ : State}
    (h : netTcpConnectTo d targetIp targetPort sendFinalAck s = (true, s₂)) :
    ∃ s₁, openConnection d targetIp targetPort s = (true, s₁) ∧ Runs s₁ s₂ := by
  unfold netTcpConnectTo at h
  rcases hopen : openConnection d targetIp targetPort s with ⟨ok, s₁⟩
  rw [hopen] at h
  dsimp only at h
  split_ifs at h with hok hack hsend
  · cases h
  · rcases h with ⟨-, rfl⟩
    have hok : ok = true := by simpa using hok
    exact ⟨_, by rw [hok], .refl _⟩
  · cases h
  · rcases h with ⟨-, rfl⟩
    have hok : ok = true := by simpa using hok
    obtain ⟨fs, hip, hhandled, hheard⟩ := Runs.sendTcpSegment d s₁
    exact ⟨s₁, by rw [hok], fs, hip, hhandled, hheard⟩

theorem arrived_eq {s' : State} {fs : List (List UInt8)} (h : Ran s s' fs) :
    s.arrived s' = (fs.filterMap (tcpPacket s.localIp)).filter fun k => s.tcp.Admits k := by
  unfold State.arrived
  rw [h.handled, List.drop_left, SamePeer.filter_admits h.heard.peer]

/-- What the opening takes from the segments. -/
theorem opened_spec (h : openConnection d targetIp targetPort s = (true, s₁)) :
    (∃ fs, s₁.handled = s.handled ++ fs) ∧ s₁.localIp = s.localIp ∧
      s₁.tcp.tcpLocalNext = tcpSeqBase + s.tcp.tcpSyns + 1 ∧ (∃ k ∈ s.arrived s₁, k.IsSynAck) ∧
      ∀ last ∈ (s.arrived s₁).getLast?, s₁.tcp.tcpRemoteNext = last.seq + 1 := by
  obtain ⟨s₀, ⟨fs, hran⟩, hsynacks, rfl⟩ := openConnection_spec h
  have hsame : s.arrived (s₀.setNext (tcpSeqBase + s.tcp.tcpSyns)) =
      (s.forget targetIp targetPort).arrived s₀ := rfl
  have harrived := hsame.trans (arrived_eq hran)
  refine ⟨⟨fs, hran.handled⟩, hran.localIp, rfl, ?_, ?_⟩
  · by_contra hnone
    refine hsynacks (hran.heard.tcpSynacks fun k hk hsyn => hnone ⟨k, ?_, hsyn⟩)
    rw [harrived]
    exact hk
  · intro last hlast
    rw [harrived] at hlast
    have hseq := hran.heard.lastTcpSeq
    rw [Option.mem_def.1 hlast] at hseq
    exact congrArg (· + 1) hseq

/-- The segments of a call are those up to the end of the wait and those after it. -/
theorem arrived_append {s₂ : State} {fs : List (List UInt8)}
    (hhandled : s₁.handled = s.handled ++ fs)
    (hip : s₁.localIp = s.localIp) (h : Runs s₁ s₂) :
    s.arrived s₂ = s.arrived s₁ ++ s₁.arrived s₂ := by
  obtain ⟨gs, h⟩ := h
  have hlate := arrived_eq h
  rw [hlate]
  unfold State.arrived
  rw [h.handled, hhandled, List.append_assoc, List.drop_left, List.drop_left, List.filterMap_append,
    List.filter_append, SamePeer.filter_admits h.heard.peer,
      SamePeer.filter_admits h.heard.peer, hip]

/-- In a call that returns 1, the SYN was answered and the connection stands behind the SYN-ACK and
the data that came in order exactly if the last segments are in step with the SYN-ACK. -/
theorem established_iff {sendFinalAck : Bool} {s₂ : State}
    (h : netTcpConnectTo d targetIp targetPort sendFinalAck s = (true, s₂)) :
    Established (tcpSeqBase + s.tcp.tcpSyns) s₂.tcp (s.arrived s₂) ↔
      InStep (tcpSeqBase + s.tcp.tcpSyns) (s.arrived (openConnection d targetIp targetPort s).2)
        ((openConnection d targetIp targetPort s).2.arrived s₂) := by
  obtain ⟨s₁, hopen, hlater⟩ := netTcpConnectTo_spec h
  obtain ⟨⟨fs, hhandled⟩, hip, hlocal, ⟨k, hk, -⟩, hremote⟩ := opened_spec hopen
  have happend := arrived_append hhandled hip hlater
  obtain ⟨gs, hran⟩ := hlater
  obtain ⟨last, hlast⟩ : ∃ last, (s.arrived s₁).getLast? = some last :=
    ⟨_, List.getLast?_eq_some_getLast (List.ne_nil_of_mem hk)⟩
  have hlocal' := hran.heard.tcpLocalNext.trans hlocal
  have hremote' := hran.heard.tcpRemoteNext
  rw [← arrived_eq hran, hremote last hlast] at hremote'
  -- where the segments after the wait leave `tcp_remote_next`
  have hnext : ∀ next, s₂.tcp.tcpRemoteNext = next ↔
      (((s₁.arrived s₂).filter fun k => HasData k) = [] →
        ∀ last ∈ (s.arrived s₁).getLast?, last.seq + 1 = next) ∧
        ∀ last ∈ ((s₁.arrived s₂).filter fun k => HasData k).getLast?, dataEnd last = next := by
    intro next
    rw [hremote', hlast]
    cases hdata : ((s₁.arrived s₂).filter fun k => HasData k).getLast? with
    | none => simp [List.getLast?_eq_none_iff.1 hdata]
    | some k =>
      have hne : ((s₁.arrived s₂).filter fun k => HasData k) ≠ [] := by
        intro hnil
        rw [hnil] at hdata
        cases hdata
      simp [hne]
  unfold Established InStep
  rw [hopen, happend]
  simp only [hlocal', hnext, true_and]

end

/-- Every data segment begins with the first byte that is missing. -/
def InOrder (next : UInt32) : List Packet → Prop
  | [] => True
  | k :: ks => if HasData k then k.seq = next ∧ InOrder (dataEnd k) ks else InOrder next ks

theorem missing_of_inOrder : ∀ {ks : List Packet} {next : UInt32}, InOrder next ks →
    missing next ks = ((ks.filter fun k => HasData k).getLast?.map dataEnd).getD next
  | [], _, _ => rfl
  | k :: ks, next, h => by
    unfold missing
    rw [List.foldl_cons]
    unfold InOrder at h
    split_ifs at h with hdata
    · have hfilter : ((k :: ks).filter fun k => HasData k) = [k] ++ ks.filter fun k =>
          HasData k := by
        simp [hdata]
      rw [if_pos ⟨hdata, h.1⟩, hfilter, Heard.getD_append]
      exact missing_of_inOrder h.2
    · have hfilter : ((k :: ks).filter fun k => HasData k) = ks.filter fun k => HasData k := by
        simp [hdata]
      rw [if_neg fun hd => hdata hd.1, hfilter]
      exact missing_of_inOrder h

/-- The good order: nothing comes behind the SYN-ACK before the wait ends, and the data after it is
in order. -/
theorem inStep_of_inOrder {seq : UInt32} {early late : List Packet} {k : Packet} (h : Answers seq k)
    (ho : InOrder (k.seq + 1) late) : InStep seq (early ++ [k]) late := by
  have hmissing := missing_of_inOrder ho
  refine ⟨early, k, late, by simp, h, ?_, ?_⟩
  · intro hnone last hlast
    rw [hnone] at hmissing
    rw [List.getLast?_concat, Option.mem_some] at hlast
    rw [← hlast, hmissing]
    rfl
  · intro last hlast
    rw [hmissing, Option.mem_def.1 hlast]
    rfl

/-- A segment of the peer 1.2.3.4 from port 80, whose sequence and acknowledgement numbers end in
`seq` and `ack`. -/
def peerFrame (flags seq ack : UInt8) (payload : List UInt8) : List UInt8 :=
  List.replicate 12 0 ++ [8, 0, 0x45, 0, 0, 40 + UInt8.ofNat payload.length, 0, 0, 0, 0, 64, 6, 0,
    0, 1, 2, 3, 4, 10, 0, 2, 15, 0, 80, 192, 1, 0, 0, 0, seq, 0x4D, 0x4E, 0x10, ack, 0x50, flags, 0,
      0, 0, 0, 0, 0] ++ payload

/-- A card that has the frames when it is polled after the SYN. -/
def answering (frames : List (List UInt8)) : Device :=
  ⟨true, fun n => if n = 16 then frames else [], fun _ => true⟩

/-- The state in which the gateway is known and nothing has been sent. -/
def idle : State := ⟨[10, 0, 2, 15], [10, 0, 2, 2], true, 0, 0, netInit, 0, 0, []⟩

/-- The SYN-ACK alone. -/
theorem established_alone :
    ∃ s₂, netTcpConnectTo (answering [peerFrame 0x12 0 1 []]) [1, 2, 3, 4] 80 true idle =
    (true, s₂) ∧ (Established (tcpSeqBase + idle.tcp.tcpSyns) s₂.tcp (idle.arrived s₂) ↔
      InStep (tcpSeqBase + idle.tcp.tcpSyns)
        (idle.arrived (openConnection (answering [peerFrame 0x12 0 1 []]) [1, 2, 3, 4] 80 idle).2)
        ((openConnection (answering [peerFrame 0x12 0 1 []]) [1, 2, 3, 4] 80 idle).2.arrived
          s₂)) := by
  have hone :
      (netTcpConnectTo (answering [peerFrame 0x12 0 1 []]) [1, 2, 3, 4] 80 true idle).1 = true := by
    decide
  have hrun := Prod.ext hone rfl
  exact ⟨_, hrun, established_iff hrun⟩

theorem Established.exists_index {seq : UInt32} {n : Tcp} {ks : List Packet}
    (h : Established seq n ks) :
    ∃ i < ks.length, ∀ k ∈ ks[i]?, Answers seq k ∧
      n.tcpRemoteNext = missing (k.seq + 1) (ks.drop (i + 1)) := by
  obtain ⟨before, k, after, rfl, hans, -, hnext⟩ := h
  refine ⟨before.length, by simp, ?_⟩
  intro k' hk'
  have hget : (before ++ k :: after)[before.length]? = some k := by simp
  rw [hget, Option.mem_some] at hk'
  have hdrop : (before ++ k :: after).drop (before.length + 1) = after := by simp
  rw [← hk', hdrop]
  exact ⟨hans, hnext⟩

/-- Two bytes of data right behind the SYN-ACK, and a SYN-ACK that acknowledges something else. -/
theorem netTcpConnectTo_astray :
    (∃ s₂, netTcpConnectTo (answering [peerFrame 0x12 0 1 [], peerFrame 0x18 1 1 [7, 8]])
      [1, 2, 3, 4] 80 true
      idle = (true, s₂) ∧ ¬Established (tcpSeqBase + idle.tcp.tcpSyns) s₂.tcp (idle.arrived s₂)) ∧
    ∃ s₂, netTcpConnectTo (answering [peerFrame 0x12 0 9 []]) [1, 2, 3, 4] 80 true
      idle = (true, s₂) ∧
      ¬Established (tcpSeqBase + idle.tcp.tcpSyns) s₂.tcp (idle.arrived s₂) := by
  constructor
  · refine ⟨_, Prod.ext ?_ rfl, ?_⟩
    · decide
    · exact fun h => absurd h.exists_index (by decide)
  · refine ⟨_, Prod.ext ?_ rfl, ?_⟩
    · decide
    · exact fun h => absurd h.exists_index (by decide)

end MinervaOS.Net.Connect
