import MinervaOS.Lib.OnesComplement

/-!
# Receiving packets

A receiver of Ethernet frames that carry TCP or UDP over IPv4, and the packets that it accepts. It
checks the lengths, the checksum of the header and that of the segment, over the pseudo-header, and
it leaves what comes behind the packet.
-/

namespace MinervaOS.Ip

open Wire OnesComplement

structure Datagram where
  src : List UInt8
  dst : List UInt8
  protocol : Nat
  data : List UInt8

/-- A packet without options; it is not a fragment. -/
def ipv4 : Parse Datagram := do
  let first ← peek 1
  let header ← peek ((first.headD 0).toNat % 16 * 4)
  guard ((first.headD 0).toNat / 16 = 4 ∧ 20 ≤ header.length ∧ Verifies (sum header))
  let _ ← take 2
  let total ← u16
  guard (header.length ≤ total)
  let _ ← u16
  let fragment ← u16
  guard (fragment % 16384 = 0)
  let _ ← u8
  let protocol ← u8
  let _ ← u16
  let src ← take 4
  let dst ← take 4
  let _ ← take (header.length - 20)
  let data ← take (total - header.length)
  return ⟨src, dst, protocol, data⟩

/-- The words of the pseudo-header. -/
def pseudoHeader (src dst : List UInt8) (protocol length : Nat) : List UInt8 :=
  src ++ dst ++ [0, UInt8.ofNat protocol] ++ be16 length

/-- The checksum of what a packet carries is right. -/
def Datagram.Verifies (d : Datagram) : Prop :=
  OnesComplement.Verifies (sum (pseudoHeader d.src d.dst d.protocol d.data.length) + sum d.data)

instance (d : Datagram) : Decidable d.Verifies :=
  inferInstanceAs (Decidable (OnesComplement.Verifies _))

structure Segment where
  srcPort : Nat
  dstPort : Nat
  seq : Nat
  ack : Nat
  flags : Nat
  window : Nat
  options : List UInt8
  payload : List UInt8

def tcp (d : Datagram) : Parse Segment := do
  guard (d.protocol = 6 ∧ d.Verifies)
  let srcPort ← u16
  let dstPort ← u16
  let seq ← u32
  let ack ← u32
  let offset ← u8
  guard (5 ≤ offset / 16)
  let flags ← u8
  let window ← u16
  let _ ← u16
  let _ ← u16
  let options ← take (offset / 16 * 4 - 20)
  let payload ← take (d.data.length - offset / 16 * 4)
  return ⟨srcPort, dstPort, seq, ack, flags, window, options, payload⟩

structure Message where
  srcPort : Nat
  dstPort : Nat
  payload : List UInt8

/-- A zero for the checksum is not accepted: it would say that there is none. -/
def udp (d : Datagram) : Parse Message := do
  guard (d.protocol = 17 ∧ d.Verifies)
  let srcPort ← u16
  let dstPort ← u16
  let length ← u16
  guard (length = d.data.length)
  let checksum ← u16
  guard (checksum ≠ 0)
  let payload ← take (length - 8)
  return ⟨srcPort, dstPort, payload⟩

structure Received (α : Type) where
  dstMac : List UInt8
  srcMac : List UInt8
  src : List UInt8
  dst : List UInt8
  content : α

/-- A frame whose packet carries what `p` reads. -/
def receive {α : Type} (p : Datagram → Parse α) : Parse (Received α) := do
  let dstMac ← take 6
  let srcMac ← take 6
  let type ← u16
  guard (type = 0x0800)
  let d ← ipv4
  match whole (p d) d.data with
  | some a => return ⟨dstMac, srcMac, d.src, d.dst, a⟩
  | none => failure

/-! ## What is accepted -/

def ipv4Header (total id ttl protocol checksum : Nat) (src dst : List UInt8) : List UInt8 :=
  [0x45, 0] ++
    (be16 total ++ (be16 id ++ (be16 0 ++ ([UInt8.ofNat ttl] ++ ([UInt8.ofNat protocol] ++
    (be16 checksum ++ (src ++ dst)))))))

def tcpHeader (srcPort dstPort seq ack offset flags window checksum : Nat) : List UInt8 :=
  be16 srcPort ++ (be16 dstPort ++ (be32 seq ++ (be32 ack ++ ([UInt8.ofNat offset] ++
    ([UInt8.ofNat flags] ++ (be16 window ++ (be16 checksum ++ be16 0)))))))

def udpHeader (srcPort dstPort length checksum : Nat) : List UInt8 :=
  be16 srcPort ++ (be16 dstPort ++ (be16 length ++ be16 checksum))

theorem sum_ipv4Header {checksum : Nat} (h : checksum < 65536) (total id ttl protocol : Nat)
    (src dst : List UInt8) : sum (ipv4Header total id ttl protocol checksum src dst) =
      sum (ipv4Header total id ttl protocol 0 src dst) + checksum := by
  have hsplit : ∀ c, ipv4Header total id ttl protocol c src dst =
      ([0x45, 0] ++ be16 total ++ be16 id ++ be16 0 ++ [UInt8.ofNat ttl] ++
        [UInt8.ofNat protocol]) ++
        (be16 c ++ (src ++ dst)) := fun _ => rfl
  rw [hsplit, hsplit, sum_word (k := 5) rfl h]

theorem sum_tcpHeader {checksum : Nat} (h : checksum < 65536)
    (srcPort dstPort seq ack offset flags window : Nat)
    (data : List UInt8) :
    sum (tcpHeader srcPort dstPort seq ack offset flags window checksum ++ data) =
      sum (tcpHeader srcPort dstPort seq ack offset flags window 0 ++ data) + checksum := by
  have hsplit : ∀ c, tcpHeader srcPort dstPort seq ack offset flags window c ++ data =
      (be16 srcPort ++ be16 dstPort ++ be32 seq ++ be32 ack ++ [UInt8.ofNat offset] ++
        [UInt8.ofNat flags] ++
        be16 window) ++ (be16 c ++ (be16 0 ++ data)) := fun _ => rfl
  rw [hsplit, hsplit, sum_word (k := 8) rfl h]

theorem sum_udpHeader {checksum : Nat} (h : checksum < 65536) (srcPort dstPort length : Nat)
    (data : List UInt8) : sum (udpHeader srcPort dstPort length checksum ++ data) =
      sum (udpHeader srcPort dstPort length 0 ++ data) + checksum := by
  have hsplit : ∀ c, udpHeader srcPort dstPort length c ++ data =
      (be16 srcPort ++ be16 dstPort ++ be16 length) ++ (be16 c ++ data) := fun _ => rfl
  rw [hsplit, hsplit, sum_word (k := 3) rfl h]

theorem reads_ipv4 {total id ttl protocol checksum : Nat} {src dst data : List UInt8}
    (htotal : total = 20 + data.length) (hlt : total < 65536) (hid : id < 65536) (httl : ttl < 256)
    (hprotocol : protocol < 256) (hchecksum : checksum < 65536) (hsrc : src.length = 4)
    (hdst : dst.length = 4)
    (hsum : Verifies (sum (ipv4Header total id ttl protocol checksum src dst))) :
    Reads ipv4 (ipv4Header total id ttl protocol checksum src dst ++ data)
      ⟨src, dst, protocol, data⟩ := by
  have hlen : (ipv4Header total id ttl protocol checksum src dst).length = 20 := by
    simp [ipv4Header, be16, hsrc, hdst]
  have hfirst : (List.take 1 (ipv4Header total id ttl protocol checksum src dst ++ data)).headD
    0 = 0x45 := rfl
  have htake : List.take ((0x45 : UInt8).toNat % 16 * 4)
    (ipv4Header total id ttl protocol checksum src dst ++ data) =
      ipv4Header total id ttl protocol checksum src dst := List.take_left' hlen
  unfold ipv4
  refine Reads.peek_bind (by rw [List.length_append]; omega) ?_
  refine Reads.peek_bind (by rw [List.length_append, hfirst, hlen]; exact Nat.le_add_right 20 _) ?_
  rw [hfirst, htake, hlen]
  refine (Reads.check ⟨by decide, Nat.le_refl _, hsum⟩).bind_nil ?_
  unfold ipv4Header
  simp only [List.append_assoc]
  refine (Reads.take (l := [0x45, 0]) rfl).bind ?_
  refine (Reads.u16 hlt).bind ?_
  refine (Reads.check (by omega)).bind_nil ?_
  refine (Reads.u16 hid).bind ?_
  refine (Reads.u16 (by decide)).bind ?_
  refine (Reads.check (by decide)).bind_nil ?_
  refine (Reads.u8 httl).bind ?_
  refine (Reads.u8 hprotocol).bind ?_
  refine (Reads.u16 hchecksum).bind ?_
  refine (Reads.take hsrc).bind ?_
  refine (Reads.take hdst).bind ?_
  refine (Reads.take (List.length_nil)).bind_nil ?_
  exact (Reads.take (by omega)).map

theorem reads_tcp {srcPort dstPort seq ack offset flags window checksum : Nat} {d : Datagram}
    {options payload : List UInt8} (hsrcPort : srcPort < 65536) (hdstPort : dstPort < 65536)
    (hseq : seq < 4294967296) (hack : ack < 4294967296) (hoffset : offset < 256)
    (hflags : flags < 256)
    (hwindow : window < 65536) (hchecksum : checksum < 65536)
    (hlen : offset / 16 * 4 = options.length + 20)
    (hd : d.data = tcpHeader srcPort dstPort seq ack offset flags window checksum ++
      (options ++ payload))
    (hprotocol : d.protocol = 6) (hsum : d.Verifies) :
    Reads (tcp d) d.data ⟨srcPort, dstPort, seq, ack, flags, window, options, payload⟩ := by
  have hlength : d.data.length = offset / 16 * 4 + payload.length := by
    simp [hd, tcpHeader, be16, be32]
    omega
  unfold tcp
  rw [hlength, hd]
  unfold tcpHeader
  simp only [List.append_assoc]
  refine (Reads.check ⟨hprotocol, hsum⟩).bind_nil ?_
  refine (Reads.u16 hsrcPort).bind ?_
  refine (Reads.u16 hdstPort).bind ?_
  refine (Reads.u32 hseq).bind ?_
  refine (Reads.u32 hack).bind ?_
  refine (Reads.u8 hoffset).bind ?_
  refine (Reads.check (by omega)).bind_nil ?_
  refine (Reads.u8 hflags).bind ?_
  refine (Reads.u16 hwindow).bind ?_
  refine (Reads.u16 hchecksum).bind ?_
  refine (Reads.u16 (by decide)).bind ?_
  refine (Reads.take (by omega)).bind ?_
  exact (Reads.take (by omega)).map

theorem reads_udp {srcPort dstPort length checksum : Nat} {d : Datagram} {payload : List UInt8}
    (hsrcPort : srcPort < 65536) (hdstPort : dstPort < 65536) (hlt : length < 65536)
    (hchecksum : checksum < 65536) (hne : checksum ≠ 0) (hlen : length = payload.length + 8)
    (hd : d.data = udpHeader srcPort dstPort length checksum ++ payload)
    (hprotocol : d.protocol = 17)
    (hsum : d.Verifies) : Reads (udp d) d.data ⟨srcPort, dstPort, payload⟩ := by
  have hlength : d.data.length = length := by
    simp [hd, udpHeader, be16, hlen]
  unfold udp
  rw [hlength, hd]
  unfold udpHeader
  simp only [List.append_assoc]
  refine (Reads.check ⟨hprotocol, hsum⟩).bind_nil ?_
  refine (Reads.u16 hsrcPort).bind ?_
  refine (Reads.u16 hdstPort).bind ?_
  refine (Reads.u16 hlt).bind ?_
  refine (Reads.check rfl).bind_nil ?_
  refine (Reads.u16 hchecksum).bind ?_
  refine (Reads.check hne).bind_nil ?_
  exact (Reads.take (by omega)).map

theorem reads_receive {α : Type} {p : Datagram → Parse α} {dstMac srcMac packet : List UInt8}
    {d : Datagram}
    {a : α} (hdst : dstMac.length = 6) (hsrc : srcMac.length = 6) (hpacket : Reads ipv4 packet d)
    (h : Reads (p d) d.data a) :
    Reads (receive p) (dstMac ++ (srcMac ++ (be16 0x0800 ++ packet)))
      ⟨dstMac, srcMac, d.src, d.dst, a⟩ := by
  unfold receive
  refine (Reads.take hdst).bind ?_
  refine (Reads.take hsrc).bind ?_
  refine (Reads.u16 (by decide)).bind ?_
  refine (Reads.check rfl).bind_nil ?_
  rw [← List.append_nil packet]
  refine hpacket.bind ?_
  rw [whole_of_reads h]
  exact .pure _

end MinervaOS.Ip
