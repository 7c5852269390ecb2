import Mathlib.Algebra.GroupWithZero.Nat
import Mathlib.Data.List.Induction
import Mathlib.Tactic.SplitIfs

/-!
# TCP segments

`net_handle_tcp` and the connection it serves. It passes the payload of every segment of the peer on
as it arrives, wherever `tcp_remote_next` stands, and sets `tcp_remote_next` just past it. So what
it passes on is a prefix of the peer's stream as long as every segment begins with the first byte
that is still missing, and in no other case.
-/

namespace MinervaOS.Net

def tcpFlagSyn : UInt8 := 0x02
def tcpFlagAck : UInt8 := 0x10
def tcpTlsPort : UInt16 := 443
def tcpSourcePortBase : UInt16 := 49153
def tcpSeqBase : UInt32 := 0x4D4E1000

def get8 (src : List UInt8) (i : Nat) : UInt8 := src.getD i 0

def get16be (src : List UInt8) (i : Nat) : UInt16 :=
  ((get8 src i).toUInt16 <<< 8) ||| (get8 src (i + 1)).toUInt16

def get32be (src : List UInt8) (i : Nat) : UInt32 :=
  ((get8 src i).toUInt32 <<< 24) ||| ((get8 src (i + 1)).toUInt32 <<< 16) |||
    ((get8 src (i + 2)).toUInt32 <<< 8) ||| (get8 src (i + 3)).toUInt32

/-- The connection in `g_net`. `captured` collects the payloads handed to
`net_tls_capture_payload` and `net_http_capture_payload`, the latest last. -/
structure Tcp where
  tcpTargetIp : List UInt8
  tcpTargetPort : UInt16
  tcpLocalPort : UInt16
  lastTcpSrc : UInt16
  lastTcpDst : UInt16
  lastTcpFlags : UInt8
  lastTcpSeq : UInt32
  lastTcpAck : UInt32
  tcpSyns : UInt32
  tcpSynacks : UInt32
  tcpPayloadRx : UInt32
  tcpLocalNext : UInt32
  tcpRemoteNext : UInt32
  captured : List (List UInt8)

/-- An IPv4 packet with the lengths that `net_handle_ipv4` read in its header. -/
structure Packet where
  ip : List UInt8
  ipPayloadLength : UInt16
  ipHeaderLen : UInt16

namespace Packet

/-- Where the segment begins. -/
def tcp (k : Packet) : Nat := k.ipHeaderLen.toNat

def srcPort (k : Packet) : UInt16 := get16be k.ip k.tcp
def dstPort (k : Packet) : UInt16 := get16be k.ip (k.tcp + 2)
def seq (k : Packet) : UInt32 := get32be k.ip (k.tcp + 4)
def ack (k : Packet) : UInt32 := get32be k.ip (k.tcp + 8)
def tcpHeaderLen (k : Packet) : Nat := (get8 k.ip (k.tcp + 12)).toNat / 16 * 4
def flags (k : Packet) : UInt8 := get8 k.ip (k.tcp + 13)
def tcpPayloadLen (k : Packet) : Nat := k.ipPayloadLength.toNat - k.tcp - k.tcpHeaderLen

def tcpPayload (k : Packet) : List UInt8 :=
  (List.range k.tcpPayloadLen).map fun i => get8 k.ip (k.tcp + k.tcpHeaderLen + i)

end Packet

def netHandleTcp (n : Tcp) (k : Packet) : Bool × Tcp :=
  if k.ipPayloadLength.toNat < k.tcp + 20 then (false, n) else
  if k.tcpHeaderLen < 20 || k.ipPayloadLength.toNat < k.tcp + k.tcpHeaderLen then (false, n) else
  if k.srcPort != n.tcpTargetPort || k.dstPort != n.tcpLocalPort then (false, n) else
  if (k.ip.drop 12).take 4 != n.tcpTargetIp then (false, n) else
  let n := { n with
    lastTcpSrc := k.srcPort, lastTcpDst := k.dstPort, lastTcpFlags := k.flags,
    lastTcpSeq := k.seq, lastTcpAck := k.ack }
  if k.flags &&& (tcpFlagSyn ||| tcpFlagAck) = tcpFlagSyn ||| tcpFlagAck then
    (true, { n with tcpSynacks := n.tcpSynacks + 1 })
  else if k.tcpPayloadLen > 0 then
    (true, { n with
      tcpPayloadRx := n.tcpPayloadRx + UInt32.ofNat k.tcpPayloadLen
      tcpRemoteNext := k.seq + UInt32.ofNat k.tcpPayloadLen
      captured := n.captured ++ [k.tcpPayload] })
  else (false, n)

/-- `net_tcp_connect_to` where every send succeeds: `stale` are the packets handled while frames are
drained, `waiting` those handled while it waits, up to the SYN-ACK that ends the wait. -/
def netTcpConnectTo (n : Tcp) (targetIp : List UInt8) (targetPort : UInt16)
    (stale waiting : List Packet) : Tcp :=
  let seq := tcpSeqBase + n.tcpSyns
  let n := { n with
    tcpTargetIp := targetIp, tcpTargetPort := targetPort
    tcpLocalPort := tcpSourcePortBase + (n.tcpSyns &&& 0x01FF).toUInt16
    lastTcpSrc := 0, lastTcpDst := 0, lastTcpFlags := 0, lastTcpSeq := 0, lastTcpAck := 0 }
  let n := stale.foldl (fun n k => (netHandleTcp n k).2) n
  let n := { n with tcpSyns := n.tcpSyns + 1 }
  let n := waiting.foldl (fun n k => (netHandleTcp n k).2) n
  { n with tcpLocalNext := seq + 1, tcpRemoteNext := n.lastTcpSeq + 1 }

/-! ## What a segment does -/

/-- The segment belongs to the connection: it passes the checks of `net_handle_tcp`. -/
def Tcp.Admits (n : Tcp) (k : Packet) : Prop :=
  k.tcp + 20 ≤ k.ipPayloadLength.toNat ∧ 20 ≤ k.tcpHeaderLen ∧
    k.tcp + k.tcpHeaderLen ≤ k.ipPayloadLength.toNat ∧ k.srcPort = n.tcpTargetPort ∧
    k.dstPort = n.tcpLocalPort ∧ (k.ip.drop 12).take 4 = n.tcpTargetIp

def Packet.IsSynAck (k : Packet) : Prop :=
  k.flags &&& (tcpFlagSyn ||| tcpFlagAck) = tcpFlagSyn ||| tcpFlagAck

/-- A data segment of the connection. -/
def Tcp.IsData (n : Tcp) (k : Packet) : Prop := n.Admits k ∧ ¬k.IsSynAck ∧ 0 < k.tcpPayloadLen

instance (n : Tcp) (k : Packet) : Decidable (n.Admits k) := inferInstanceAs (Decidable (_ ∧ _))
instance (k : Packet) : Decidable k.IsSynAck := inferInstanceAs (Decidable (_ = _))
instance (n : Tcp) (k : Packet) : Decidable (n.IsData k) := inferInstanceAs (Decidable (_ ∧ _))

/-- The two states serve the same connection. -/
def SamePeer (n n' : Tcp) : Prop :=
  n'.tcpTargetIp = n.tcpTargetIp ∧ n'.tcpTargetPort = n.tcpTargetPort ∧
    n'.tcpLocalPort = n.tcpLocalPort

section

variable {n n' : Tcp} {k : Packet}

theorem SamePeer.isData (h : SamePeer n n') : n'.IsData k ↔ n.IsData k := by
  unfold Tcp.IsData Tcp.Admits
  rw [h.1, h.2.1, h.2.2]

/-- `net_handle_tcp` hands over the payload of a data segment, and keeps the connection as it is at
every other packet. -/
theorem netHandleTcp_spec (n : Tcp) (k : Packet) : SamePeer n (netHandleTcp n k).2 ∧
    (n.IsData k → (netHandleTcp n k).2.captured = n.captured ++ [k.tcpPayload] ∧
      (netHandleTcp n k).2.tcpRemoteNext = k.seq + UInt32.ofNat k.tcpPayloadLen) ∧
    (¬n.IsData k → (netHandleTcp n k).2.captured = n.captured ∧
      (netHandleTcp n k).2.tcpRemoteNext = n.tcpRemoteNext) := by
  have hkeep : ¬n.IsData k → SamePeer n n ∧
    (n.IsData k → n.captured = n.captured ++ [k.tcpPayload] ∧
      n.tcpRemoteNext = k.seq + UInt32.ofNat k.tcpPayloadLen) ∧
      (¬n.IsData k → n.captured = n.captured ∧ n.tcpRemoteNext = n.tcpRemoteNext) :=
    fun h => ⟨⟨rfl, rfl, rfl⟩, fun h' => absurd h' h, fun _ => ⟨rfl, rfl⟩⟩
  unfold netHandleTcp
  split_ifs with hshort hheader hport hip hsyn hlen
  · exact hkeep fun h => absurd h.1.1 (by omega)
  · refine hkeep fun h => ?_
    simp only [Bool.or_eq_true, decide_eq_true_eq] at hheader
    have := h.1.2.1
    have := h.1.2.2.1
    omega
  · refine hkeep fun h => ?_
    simp [h.1.2.2.2.1, h.1.2.2.2.2.1] at hport
  · refine hkeep fun h => ?_
    simp [h.1.2.2.2.2.2] at hip
  · exact ⟨⟨rfl, rfl, rfl⟩, fun h => absurd hsyn h.2.1, fun _ => ⟨rfl, rfl⟩⟩
  · refine ⟨⟨rfl, rfl, rfl⟩, fun _ => ⟨rfl, rfl⟩, fun h => absurd ?_ h⟩
    simp only [Bool.or_eq_true, decide_eq_true_eq, not_or] at hheader
    simp only [Bool.or_eq_true, bne_iff_ne, not_or, ne_eq, not_not] at hport hip
    exact ⟨⟨by omega, by omega, by omega, hport.1, hport.2, hip⟩, hsyn, hlen⟩
  · exact ⟨⟨rfl, rfl, rfl⟩, fun h => absurd h.2.2 hlen, fun _ => ⟨rfl, rfl⟩⟩

end

/-! ## The order of arrival -/

/-- A packet that arrives, with the place of its payload in the peer's stream. -/
structure Arrival where
  packet : Packet
  offset : Nat

/-- If the packet is a data segment of the connection, it carries the bytes of the stream at its
offset under their sequence number. -/
def Arrival.OfStream (n : Tcp) (isn : UInt32) (stream : List UInt8) (a : Arrival) : Prop :=
  n.IsData a.packet → a.packet.seq = isn + 1 + UInt32.ofNat a.offset ∧
    a.offset + a.packet.tcpPayloadLen ≤ stream.length ∧
    a.packet.tcpPayload = (stream.drop a.offset).take a.packet.tcpPayloadLen

instance (n : Tcp) (isn : UInt32) (stream : List UInt8) (a : Arrival) :
    Decidable (a.OfStream n isn stream) := inferInstanceAs (Decidable (_ → _ ∧ _ ∧ _))

def Tcp.run (n : Tcp) (as : List Arrival) : Tcp :=
  as.foldl (fun n a => (netHandleTcp n a.packet).2) n

/-- The payloads that the arrivals have handed over. -/
def Tcp.handed (n : Tcp) (as : List Arrival) : List (List UInt8) :=
  (n.run as).captured.drop n.captured.length

/-- The places in the stream of the bytes handed over, in the order they were handed over. -/
def Tcp.places (n : Tcp) (as : List Arrival) : List Nat :=
  (as.filter fun a => n.IsData a.packet).flatMap
    fun a => List.range' a.offset a.packet.tcpPayloadLen

/-- `new` is not behind `old` in sequence space. -/
def NotBehind (old new : UInt32) : Prop := (new - old).toNat < 2 ^ 31

/-- At every moment what was handed over is a prefix of the stream, every byte of it once and in
order, and `tcp_remote_next` never moves backwards. -/
def Tcp.Sequential (n : Tcp) (stream : List UInt8) (as : List Arrival) : Prop :=
  (∀ pre, pre <+: as → (n.handed pre).flatten <+: stream ∧
    n.places pre = List.range (n.places pre).length) ∧
  ∀ pre a, pre ++ [a] <+: as → NotBehind (n.run pre).tcpRemoteNext
    (n.run (pre ++ [a])).tcpRemoteNext

/-- Every data segment begins with the first byte that is still missing. -/
def Tcp.InOrder (n : Tcp) (as : List Arrival) : Prop :=
  ∀ pre a, pre ++ [a] <+: as → n.IsData a.packet → a.offset = (n.places pre).length

section

variable {n : Tcp} {isn : UInt32} {stream : List UInt8} {as pre : List Arrival} {a : Arrival}

theorem run_append (n : Tcp) (pre : List Arrival) (a : Arrival) :
    n.run (pre ++ [a]) = (netHandleTcp (n.run pre) a.packet).2 := by
  simp [Tcp.run, List.foldl_append]

theorem samePeer_run (n : Tcp) (as : List Arrival) : SamePeer n (n.run as) := by
  induction as using List.reverseRecOn with
  | nil => exact ⟨rfl, rfl, rfl⟩
  | append_singleton pre a ih =>
    rw [run_append]
    obtain ⟨h, -⟩ := netHandleTcp_spec (n.run pre) a.packet
    exact ⟨h.1.trans ih.1, h.2.1.trans ih.2.1, h.2.2.trans ih.2.2⟩

/-- What has been handed over are the payloads of the data segments as they came. -/
theorem captured_run (n : Tcp) (as : List Arrival) : (n.run as).captured =
    n.captured ++ (as.filter fun a => n.IsData a.packet).map fun a => a.packet.tcpPayload := by
  induction as using List.reverseRecOn with
  | nil => simp [Tcp.run]
  | append_singleton pre a ih =>
    rw [run_append]
    obtain ⟨-, hdata, hother⟩ := netHandleTcp_spec (n.run pre) a.packet
    rw [(samePeer_run n pre).isData] at hdata hother
    by_cases h : n.IsData a.packet
    · simp [(hdata h).1, ih, h]
    · simp [(hother h).1, ih, h]

theorem handed_eq (n : Tcp) (as : List Arrival) : n.handed as =
    (as.filter fun a => n.IsData a.packet).map fun a => a.packet.tcpPayload := by
  simp [Tcp.handed, captured_run]

theorem places_append (n : Tcp) (pre : List Arrival) (a : Arrival) :
    n.places (pre ++ [a]) = n.places pre ++
      if n.IsData a.packet then List.range' a.offset a.packet.tcpPayloadLen else [] := by
  by_cases h : n.IsData a.packet <;> simp [Tcp.places, h]

theorem map_range' (stream : List UInt8) : ∀ {offset len : Nat}, offset + len ≤ stream.length →
    (List.range' offset len).map (fun i => stream[i]?.getD 0) = (stream.drop offset).take len
  | _, 0, _ => by simp
  | offset, len + 1, h => by
    have hlt : offset < stream.length := by omega
    have hrest : offset + 1 + len ≤ stream.length := by omega
    rw [List.range'_succ, List.map_cons, map_range' stream hrest, List.drop_eq_getElem_cons hlt,
      List.take_succ_cons, List.getElem?_eq_getElem hlt, Option.getD_some]

/-- What was handed over are the bytes at the places. -/
theorem handed_flatten : ∀ {as : List Arrival}, (∀ a ∈ as, a.OfStream n isn stream) →
    (n.handed as).flatten = (n.places as).map (fun i => stream[i]?.getD 0) ∧
      ∀ i ∈ n.places as, i < stream.length
  | [], _ => by simp [handed_eq, Tcp.places]
  | a :: as, h => by
    obtain ⟨hflat, hlt⟩ := handed_flatten fun b hb => h b (List.mem_cons_of_mem _ hb)
    rw [handed_eq] at hflat ⊢
    by_cases hd : n.IsData a.packet
    · obtain ⟨-, hle, hpay⟩ := h a (List.mem_cons_self ..) hd
      have hplaces : n.places (a :: as) =
          List.range' a.offset a.packet.tcpPayloadLen ++ n.places as := by simp [Tcp.places, hd]
      rw [hplaces]
      constructor
      · simp [hd, hflat, hpay, map_range' stream hle]
      · intro i hi
        rcases List.mem_append.1 hi with hi | hi
        · have := List.mem_range'_1.1 hi
          omega
        · exact hlt i hi
    · have hplaces : n.places (a :: as) = n.places as := by simp [Tcp.places, hd]
      rw [hplaces]
      exact ⟨by simpa [hd] using hflat, hlt⟩

/-- Bytes at the places `0`, `1`, … are a prefix of the stream. -/
theorem flatten_initial (h : ∀ a ∈ as, a.OfStream n isn stream)
    (hp : n.places as = List.range (n.places as).length) : (n.handed as).flatten <+: stream := by
  obtain ⟨hflat, hlt⟩ := handed_flatten h
  have hle : (n.places as).length ≤ stream.length := by
    by_contra hgt
    have := hlt (stream.length) (by rw [hp]; exact List.mem_range.2 (by omega))
    omega
  rw [hflat, hp, List.range_eq_range', map_range' stream (by simpa using hle)]
  exact List.take_prefix _ _

theorem prefix_of_append {pre as : List Arrival} {a : Arrival} (h : pre ++ [a] <+: as) :
    pre <+: as := (List.prefix_append pre [a]).trans h

/-- In order, the places fill up from the start, and `tcp_remote_next` stands at the next one. -/
theorem inOrder_run (hnext : n.tcpRemoteNext = isn + 1) (h : ∀ a ∈ as, a.OfStream n isn stream)
    (ho : n.InOrder as) : ∀ pre, pre <+: as → n.places pre = List.range (n.places pre).length ∧
      (n.run pre).tcpRemoteNext = isn + 1 + UInt32.ofNat (n.places pre).length := by
  intro pre
  induction pre using List.reverseRecOn with
  | nil => exact fun _ => ⟨rfl, by simp [Tcp.run, Tcp.places, hnext]⟩
  | append_singleton pre a ih =>
    intro hpre
    obtain ⟨hrange, hrem⟩ := ih (prefix_of_append hpre)
    obtain ⟨-, hdata, hother⟩ := netHandleTcp_spec (n.run pre) a.packet
    rw [(samePeer_run n pre).isData] at hdata hother
    rw [places_append, run_append]
    by_cases hd : n.IsData a.packet
    · obtain ⟨hseq, -, -⟩ := h a (hpre.subset (by simp)) hd
      have hoff := ho pre a hpre hd
      rw [if_pos hd, (hdata hd).2, hseq, hoff]
      refine ⟨?_, by simp [UInt32.add_assoc]⟩
      rw [List.length_append, List.length_range', List.range_eq_range', ← List.range'_append_1,
        Nat.zero_add, ← List.range_eq_range', ← hrange]
    · rw [if_neg hd, List.append_nil, (hother hd).2]
      exact ⟨hrange, hrem⟩

/-- `net_tcp_connect_to` opened the connection: the wait ended with a SYN-ACK of the peer, whose
sequence number is `isn`. -/
def Opened (n : Tcp) (isn : UInt32) : Prop :=
  ∃ (n₀ : Tcp) (ip : List UInt8) (port : UInt16) (stale waiting : List Packet) (synAck : Packet),
    n = netTcpConnectTo n₀ ip port stale (waiting ++ [synAck]) ∧ n.Admits synAck ∧
      synAck.IsSynAck ∧ synAck.seq = isn

theorem lastTcpSeq_of_admits {n : Tcp} {k : Packet} (h : n.Admits k) :
    (netHandleTcp n k).2.lastTcpSeq = k.seq := by
  obtain ⟨h1, h2, h3, h4, h5, h6⟩ := h
  have h1' : ¬k.ipPayloadLength.toNat < k.tcp + 20 := by omega
  have h2' : ¬k.tcpHeaderLen < 20 := by omega
  have h3' : ¬k.ipPayloadLength.toNat < k.tcp + k.tcpHeaderLen := by omega
  simp only [netHandleTcp, h1', h2', h3', h4, h5, h6, if_false, decide_false, Bool.or_self,
    bne_self_eq_false, Bool.false_eq_true]
  split_ifs <;> rfl

theorem Opened.tcpRemoteNext (h : Opened n isn) : n.tcpRemoteNext = isn + 1 := by
  obtain ⟨n₀, ip, port, stale, waiting, synAck, rfl, hadm, -, rfl⟩ := h
  simp only [netTcpConnectTo, List.foldl_append, List.foldl_cons, List.foldl_nil] at hadm ⊢
  rw [lastTcpSeq_of_admits]
  refine ⟨hadm.1, hadm.2.1, hadm.2.2.1, ?_⟩
  obtain ⟨h1, h2, h3⟩ := (netHandleTcp_spec _ _).1
  exact ⟨h2 ▸ hadm.2.2.2.1, h3 ▸ hadm.2.2.2.2.1, h1 ▸ hadm.2.2.2.2.2⟩

/-- The state that `net_init` leaves. -/
def netInit : Tcp := ⟨[0, 0, 0, 0], 0, 0, 0, 0, 0, 0, 0, 0, 0, 0, 0, 0, []⟩

/-- A segment to the first connection, from port 443 of the peer 1.2.3.4. -/
def peerSegment (flags seq : UInt8) (payload : List UInt8) : Packet where
  ip := [0x45, 0, 0, 0, 0, 0, 0, 0, 64, 6, 0, 0, 1, 2, 3, 4, 10, 0, 2, 15,
    1, 187, 192, 1, 0, 0, 0, seq, 0, 0, 0, 0, 0x50, flags, 0, 0, 0, 0, 0, 0] ++ payload
  ipPayloadLength := 40 + payload.length.toUInt16
  ipHeaderLen := 20

/-- The connection that the peer's SYN-ACK with sequence number 0 opens. -/
def firstConnection : Tcp := netTcpConnectTo netInit [1, 2, 3, 4] 443 [] [peerSegment 0x12 0 []]

theorem opened_firstConnection : Opened firstConnection 0 :=
  ⟨netInit, [1, 2, 3, 4], 443, [], [], peerSegment 0x12 0 [], rfl, by decide,
    by decide, by decide⟩

end

end MinervaOS.Net
