import MinervaOS.Net.Frames

/-!
# What a receiver gets

A receiver of the frames that `net_send_tcp_segment` and `net_dns_query_current` send gets the
segment and the query as they were given, from the frame that is handed over and from the padded one
on the wire.
-/

namespace MinervaOS.Net

open OnesComplement Ip

theorem bytes16_eq (v : UInt16) : bytes16 v = Wire.be16 v.toNat := put16be_bytes v

theorem bytes32_eq (v : UInt32) : bytes32 v = Wire.be32 v.toNat := by
  unfold bytes32 Wire.be32
  refine congrArg₂ List.cons ?_
    (congrArg₂ List.cons ?_ (congrArg₂ List.cons ?_ (congrArg₂ List.cons ?_ rfl)))
  all_goals
    rw [← UInt8.toNat_inj]
    simp [Nat.shiftRight_eq_div_pow]

theorem ethernetFields_flatten (n : Sender) (packet : List UInt8) :
    (ethernetFields n).flatten ++ packet =
    n.gatewayMac ++ (n.nic.mac ++ (Wire.be16 0x0800 ++ packet)) := by
  simp [ethernetFields, bytes16_eq]

theorem ipv4Fields_flatten (total id : UInt16) (protocol : UInt8) (checksum : UInt16)
    (src dst : List UInt8) :
    (ipv4Fields total id protocol checksum src dst).flatten =
      ipv4Header total.toNat id.toNat 64 protocol.toNat checksum.toNat src dst := by
  simp [ipv4Fields, ipv4Header, bytes16_eq, Wire.be16]

theorem tcpFields_flatten (srcPort dstPort : UInt16) (seq ack : UInt32) (offset flags : UInt8)
    (checksum : UInt16) : (tcpFields srcPort dstPort seq ack offset flags checksum).flatten =
      tcpHeader srcPort.toNat dstPort.toNat seq.toNat ack.toNat offset.toNat flags.toNat 8192
        checksum.toNat := by
  simp [tcpFields, tcpHeader, bytes16_eq, bytes32_eq, Wire.be16]

theorem udpFields_flatten (srcPort dstPort length checksum : UInt16) :
    (udpFields srcPort dstPort length checksum).flatten =
      udpHeader srcPort.toNat dstPort.toNat length.toNat checksum.toNat := by
  simp [udpFields, udpHeader, bytes16_eq]

/-! ## The checksums verify -/

theorem verifies_ipv4Fields (total id : UInt16) (protocol : UInt8) (src dst : List UInt8) :
    OnesComplement.Verifies (sum (ipv4Fields total id protocol (ipv4Checksum
      (ipv4Fields total id protocol 0 src dst).flatten) src dst).flatten) := by
  rw [ipv4Fields_flatten, sum_ipv4Header (UInt16.toNat_lt _), toNat_ipv4Checksum,
    ipv4Fields_flatten]
  exact verifies_complement _

/-- A segment with its checksum added, whose zero is the other one. -/
theorem verifies_transportChecksum {src dst : Octets 4} {protocol : UInt8}
    {segment data : List UInt8}
    (hlt : segment.length < 65536) (hlen : data.length = segment.length)
    (hsum : sum data = sum segment + (transportChecksum src dst protocol segment).toNat) :
    Datagram.Verifies ⟨src, dst, protocol.toNat, data⟩ := by
  unfold Datagram.Verifies
  rw [hlen, hsum, ← Nat.add_assoc, toNat_transportChecksum src dst protocol segment hlt]
  split_ifs with h
  · exact verifies_ones h
  · exact verifies_complement _

theorem transportChecksum_ne {src dst : Octets 4} {protocol : UInt8} {segment : List UInt8}
    (hlt : segment.length < 65536) : (transportChecksum src dst protocol segment).toNat ≠ 0 := by
  have hfold := fold_lt (sum (pseudoHeader src dst protocol.toNat segment.length) + sum segment)
  rw [toNat_transportChecksum src dst protocol segment hlt]
  split_ifs with h
  · decide
  · omega

/-! ## What is received -/

theorem reads_tcpFields {src dst : Octets 4} {srcPort dstPort checksum : UInt16} {seq ack : UInt32}
    {offset flags : UInt8} {options payload : List UInt8}
    (hchecksum : checksum = transportChecksum src dst ipProtoTcp
      ((tcpFields srcPort dstPort seq ack offset flags 0).flatten ++ (options ++ payload)))
    (hlen : options.length + payload.length < 65000)
    (hoffset : offset.toNat / 16 * 4 = options.length + 20) :
    Wire.Reads (tcp ⟨src, dst, ipProtoTcp.toNat,
        (tcpFields srcPort dstPort seq ack offset flags checksum).flatten ++ (options ++ payload)⟩)
      ((tcpFields srcPort dstPort seq ack offset flags checksum).flatten ++ (options ++ payload))
      ⟨srcPort.toNat, dstPort.toNat, seq.toNat, ack.toNat, flags.toNat, 8192, options,
        payload⟩ := by
  have hsmall :
    ((tcpFields srcPort dstPort seq ack offset flags 0).flatten ++ (options ++ payload)).length <
      65536 := by
    rw [List.length_append, List.length_append, length_tcpFields]
    omega
  have hsum : Datagram.Verifies ⟨src, dst, ipProtoTcp.toNat,
      (tcpFields srcPort dstPort seq ack offset flags checksum).flatten ++
        (options ++ payload)⟩ := by
    refine verifies_transportChecksum hsmall ?_ ?_
    · simp only [List.length_append, length_tcpFields]
    · rw [← hchecksum, tcpFields_flatten, sum_tcpHeader (UInt16.toNat_lt _), tcpFields_flatten]
      rfl
  rw [tcpFields_flatten] at hsum ⊢
  exact reads_tcp (UInt16.toNat_lt _) (UInt16.toNat_lt _) (UInt32.toNat_lt _) (UInt32.toNat_lt _)
    (UInt8.toNat_lt _) (UInt8.toNat_lt _) (by decide) (UInt16.toNat_lt _) hoffset rfl rfl hsum

theorem reads_udpFields {src dst : Octets 4} {srcPort dstPort length checksum : UInt16}
    {payload : List UInt8}
    (hchecksum : checksum = transportChecksum src dst ipProtoUdp
      ((udpFields srcPort dstPort length 0).flatten ++ payload))
    (hlen : payload.length < 65000) (hlength : length = UInt16.ofNat (8 + payload.length)) :
    Wire.Reads (udp ⟨src, dst, ipProtoUdp.toNat,
      (udpFields srcPort dstPort length checksum).flatten ++ payload⟩)
      ((udpFields srcPort dstPort length checksum).flatten ++ payload)
      ⟨srcPort.toNat, dstPort.toNat, payload⟩ := by
  have hsmall : ((udpFields srcPort dstPort length 0).flatten ++ payload).length < 65536 := by
    rw [List.length_append, length_udpFields]
    omega
  have hsum : Datagram.Verifies ⟨src, dst, ipProtoUdp.toNat,
      (udpFields srcPort dstPort length checksum).flatten ++ payload⟩ := by
    refine verifies_transportChecksum hsmall ?_ ?_
    · simp only [List.length_append, length_udpFields]
    · rw [← hchecksum, udpFields_flatten, sum_udpHeader (UInt16.toNat_lt _), udpFields_flatten]
      rfl
  have hne : checksum.toNat ≠ 0 := by
    rw [hchecksum]
    exact transportChecksum_ne hsmall
  have htotal : length.toNat = payload.length + 8 := by
    rw [hlength, UInt16.toNat_ofNat_of_lt' (show 8 + payload.length < 65536 by omega)]
    omega
  rw [udpFields_flatten] at hsum ⊢
  exact reads_udp (UInt16.toNat_lt _) (UInt16.toNat_lt _) (UInt16.toNat_lt _)
    (UInt16.toNat_lt _) hne htotal
    rfl rfl hsum

/-- The frame around a segment that `p` reads. -/
theorem reads_frame {α : Type} {p : Datagram → Wire.Parse α} {n : Sender} {dst : Octets 4}
    {total id : UInt16}
    {protocol : UInt8} {segment : List UInt8} {a : α} (htotal : total.toNat = 20 + segment.length)
    (h : Wire.Reads (p ⟨n.localIp, dst, protocol.toNat, segment⟩) segment a) :
    Wire.Reads (receive p) ((ethernetFields n).flatten ++
      ((ipv4Fields total id protocol (ipv4Checksum
      (ipv4Fields total id protocol 0 n.localIp dst).flatten) n.localIp dst).flatten ++ segment))
      ⟨n.gatewayMac, n.nic.mac, n.localIp, dst, a⟩ := by
  have hsum := verifies_ipv4Fields total id protocol n.localIp dst
  rw [ethernetFields_flatten]
  rw [ipv4Fields_flatten] at hsum ⊢
  have hpacket :=
    reads_ipv4 htotal (UInt16.toNat_lt _) (UInt16.toNat_lt _) (by decide) (UInt8.toNat_lt _)
    (UInt16.toNat_lt _) n.localIp.2 dst.2 hsum
  exact reads_receive n.gatewayMac.2 n.nic.mac.2 hpacket h

theorem reads_finishSegment {n : Sender} {targetIp : Octets 4} {id srcPort dstPort : UInt16}
    {seq ack : UInt32}
    {flags dataOffset : UInt8} {payload frame : List UInt8} {o : List Nat} {g : List (List UInt8)}
    {last : List UInt8} {w k : Nat} (h : Laid (headerWidths ++ (o ++ [w])) frame
      (ethernetFields n ++ ipv4Fields 0 id ipProtoTcp 0 n.localIp targetIp ++
        tcpFields srcPort dstPort seq ack 0 flags 0 ++ (g ++ [last])))
    (hg : g.flatten.length = o.sum) (hk : 20 + o.sum = k)
    (hoffset : (dataOffset <<< 4).toNat / 16 * 4 = k)
    (hlen : payload.length ≤ 160) :
    Wire.Reads (receive tcp) (finishSegment n targetIp k dataOffset payload frame)
        ⟨n.gatewayMac, n.nic.mac, n.localIp, targetIp, srcPort.toNat, dstPort.toNat, seq.toNat,
          ack.toNat, flags.toNat, 8192,
        g.flatten, payload⟩ ∧
      (finishSegment n targetIp k dataOffset payload frame).length = 34 + (k + payload.length) := by
  have hlt := (dataOffset <<< 4).toNat_lt
  have hsegment : ∀ checksum,
    ((tcpFields srcPort dstPort seq ack (dataOffset <<< 4) flags checksum).flatten ++
      (g.flatten ++ payload)).length = k + payload.length := by
    intro checksum
    rw [List.length_append, List.length_append, length_tcpFields, hg]
    omega
  rw [finishSegment_eq h hg hk _ rfl]
  constructor
  · refine reads_frame ?_ (reads_tcpFields rfl (by omega) (by omega))
    rw [UInt16.toNat_ofNat_of_lt' (show 20 + (k + payload.length) < 65536 by omega), hsegment]
  · rw [List.length_append, List.length_append, hsegment, length_ethernetFields, length_ipv4Fields]
    omega

/-- What the options of a segment are. -/
def optionsOf (flags : UInt8) : List UInt8 :=
  if flags &&& tcpFlagSyn ≠ 0 then synFields.flatten else []

theorem reads_tcpFrame (n : Sender) (targetIp : Octets 4) (targetPort : UInt16) (flags : UInt8)
    (seq ack : UInt32) {payload : List UInt8} (hlen : payload.length ≤ 160) :
    Wire.Reads (receive tcp) (tcpFrame n targetIp targetPort flags seq ack payload)
        ⟨n.gatewayMac, n.nic.mac, n.localIp, targetIp, n.tcpLocalPort.toNat, targetPort.toNat,
          seq.toNat, ack.toNat, flags.toNat, 8192,
        optionsOf flags, payload⟩ ∧
      (tcpFrame n targetIp targetPort flags seq ack payload).length ≤ 1536 := by
  unfold tcpFrame optionsOf
  dsimp only
  split_ifs with hsyn
  · have h :=
      laid_putSynOptions rfl (laid_tcpFixedHeaders n targetIp targetPort flags seq ack (by decide))
    have hoffset : ((8 : UInt8) <<< 4).toNat / 16 * 4 = 32 := by decide
    obtain ⟨hreads, hlength⟩ := reads_finishSegment h (by decide) (by decide) hoffset hlen
    exact ⟨hreads, by omega⟩
  · have h := laid_tcpFixedHeaders n targetIp targetPort flags seq ack (by decide : [202].sum = 202)
    have hoffset : ((5 : UInt8) <<< 4).toNat / 16 * 4 = 20 := by decide
    obtain ⟨hreads, hlength⟩ :=
      reads_finishSegment (o := []) (g := []) h (by decide) (by decide) hoffset hlen
    exact ⟨hreads, by omega⟩

theorem reads_dnsFrame (n : Sender) {query : List UInt8} (hlen : query.length ≤ 64) :
    Wire.Reads (receive udp) (dnsFrame n query) ⟨n.gatewayMac, n.nic.mac, n.localIp, n.dnsIp,
        dnsSourcePort.toNat, dnsPort.toNat, query⟩ ∧ (dnsFrame n query).length ≤ 1536 := by
  have hsegment : ∀ length checksum,
    ((udpFields dnsSourcePort dnsPort length checksum).flatten ++ query).length =
      8 + query.length := by
    intro length checksum
    rw [List.length_append, length_udpFields]
  rw [dnsFrame_eq n query _ _ rfl rfl]
  constructor
  · refine reads_frame ?_ (reads_udpFields rfl (by omega) rfl)
    rw [UInt16.toNat_ofNat_of_lt' (show 20 + (8 + query.length) < 65536 by omega), hsegment]
  · rw [List.length_append, List.length_append, hsegment, length_ethernetFields, length_ipv4Fields]
    omega

theorem length_buildDnsQuery {host query : List UInt8} (h : buildDnsQuery host = some query) :
    query.length ≤ 64 := by
  have hne : ∀ host : List UInt8, host ≠ [] → buildDnsQuery host = some query →
      query.length ≤ 64 := by
    intro host hne h
    rw [buildDnsQuery_eq hne] at h
    split_ifs at h with hempty
    cases h
    have htake : (host.take 45).length ≤ 45 := by
      rw [List.length_take]
      exact Nat.min_le_left ..
    exact (parseQuery_splitOn htake hempty).1
  by_cases hhost : host = []
  · subst hhost
    exact hne (chars "example.com") (by decide) h
  · exact hne host hhost h

/-- Behind a short frame there are zeros on the wire. -/
theorem e1000SendFrame_eq (txBuffer : Octets 1536) {frameData : List UInt8}
    (h : frameData.length ≤ 1536) :
    e1000SendFrame txBuffer frameData =
      some (frameData ++ List.replicate (60 - frameData.length) 0) := by
  have hwire : (if frameData.length < 60 then 60 else frameData.length) =
      frameData.length + (60 - frameData.length) := by
    split_ifs <;> omega
  unfold e1000SendFrame memcpy
  dsimp only
  rw [if_neg (by omega), hwire, List.replicate_add, List.take_zero, List.take_zero, List.nil_append,
    List.nil_append, List.append_assoc, Nat.zero_add, List.drop_left' List.length_replicate,
    ← List.append_assoc, List.take_left' (by rw [List.length_append, List.length_replicate])]

/-! ## From the sender to the receiver -/

/-- The frame is all packet and no more, and on the wire it has at least 60 bytes: `p` reads `a`
both times. -/
def Delivers {α : Type} (txBuffer : Octets 1536) (p : Datagram → Wire.Parse α) (frame : List UInt8)
    (a : Received α) : Prop :=
  receive p frame = some (a, []) ∧ ∃ wire padding, e1000SendFrame txBuffer frame = some wire ∧
    60 ≤ wire.length ∧ wire = frame ++ padding ∧ receive p wire = some (a, padding)

theorem delivers_of_reads {α : Type} {txBuffer : Octets 1536} {p : Datagram → Wire.Parse α}
    {frame : List UInt8} {a : Received α} (h : Wire.Reads (receive p) frame a)
    (hlen : frame.length ≤ 1536) :
    Delivers txBuffer p frame a := by
  have hframe := h []
  rw [List.append_nil] at hframe
  refine ⟨hframe, _, _, e1000SendFrame_eq txBuffer hlen, ?_, rfl, h _⟩
  rw [List.length_append, List.length_replicate]
  omega

/-- Each segment and each query arrives as it was given, from the addresses and with the numbers it
was given. -/
theorem delivers (probe : Sender → Option Sender) (n n' : Sender) (txBuffer : Octets 1536)
    (h : ready probe n = some n') :
    (∀ targetIp targetPort flags seq ack payload, payload.length ≤ 160 →
      ∃ frame, netSendTcpSegment probe n targetIp targetPort flags seq ack payload = some frame ∧
        Delivers txBuffer tcp frame ⟨n'.gatewayMac, n'.nic.mac, n'.localIp, targetIp,
          n'.tcpLocalPort.toNat, targetPort.toNat, seq.toNat, ack.toNat, flags.toNat, 8192,
            optionsOf flags, payload⟩) ∧
    ∀ query, buildDnsQuery n'.httpHost = some query →
      ∃ frame, netDnsQueryCurrent probe n = some frame ∧
        Delivers txBuffer udp frame ⟨n'.gatewayMac, n'.nic.mac, n'.localIp, n'.dnsIp,
          dnsSourcePort.toNat, dnsPort.toNat, query⟩ := by
  constructor
  · intro targetIp targetPort flags seq ack payload hlen
    obtain ⟨hreads, hsize⟩ := reads_tcpFrame n' targetIp targetPort flags seq ack hlen
    refine ⟨tcpFrame n' targetIp targetPort flags seq ack payload, ?_,
      delivers_of_reads hreads hsize⟩
    unfold netSendTcpSegment
    rw [h]
    exact if_neg (by omega)
  · intro query hquery
    obtain ⟨hreads, hsize⟩ := reads_dnsFrame n' (length_buildDnsQuery hquery)
    refine ⟨dnsFrame n' query, ?_, delivers_of_reads hreads hsize⟩
    unfold netDnsQueryCurrent
    rw [h]
    show (buildDnsQuery n'.httpHost).bind _ = _
    rw [hquery]
    rfl

/-- A sender that knows its gateway. -/
def aSender : Sender :=
  ⟨⟨true, true, true, true, ⟨[82, 84, 0, 18, 52, 86], rfl⟩⟩, true, ⟨[82, 85, 10, 0, 2, 2], rfl⟩,
    ⟨[10, 0, 2, 15], rfl⟩, ⟨[10, 0, 2, 3], rfl⟩, 49153, 1, 0, []⟩

theorem delivers_aSender : ∃ n' query, ready (fun _ => none) aSender = some n' ∧
    buildDnsQuery n'.httpHost = some query ∧
    (∃ frame, netSendTcpSegment (fun _ => none) aSender ⟨[1, 1, 1, 1], rfl⟩ 80 16 7 9
      [71, 69, 84] = some frame ∧
      Delivers ⟨List.replicate 1536 0, List.length_replicate⟩ tcp frame
        ⟨n'.gatewayMac, n'.nic.mac, n'.localIp, [1, 1, 1, 1], 49153, 80, 7, 9, 16, 8192, [],
          [71, 69, 84]⟩) ∧
    ∃ frame, netDnsQueryCurrent (fun _ => none) aSender = some frame ∧
      Delivers ⟨List.replicate 1536 0, List.length_replicate⟩ udp frame
        ⟨n'.gatewayMac, n'.nic.mac, n'.localIp, n'.dnsIp, 49152, 53, query⟩ := by
  obtain ⟨htcp, hudp⟩ :=
    delivers (fun _ => none) aSender aSender ⟨List.replicate 1536 0, List.length_replicate⟩ rfl
  have hquery : (buildDnsQuery aSender.httpHost).isSome := by decide
  obtain ⟨query, hquery⟩ := Option.isSome_iff_exists.1 hquery
  exact ⟨aSender, query, rfl, hquery, htcp ⟨[1, 1, 1, 1], rfl⟩ 80 16 7 9 [71, 69, 84] (by decide),
    hudp query hquery⟩

end MinervaOS.Net
