import MinervaOS.Lib.Ip
import MinervaOS.Lib.Layout
import MinervaOS.Net.Query
import MinervaOS.Net.Tcp

/-!
# Frames that are sent

`net_send_tcp_segment` and `net_dns_query_current` fill in an Ethernet frame with an IPv4 packet,
and `e1000_send_frame` pads it to 60 bytes. The receiver below checks what a receiver checks: the
lengths, the checksum of the header and that of the segment, over the pseudo-header.
-/

namespace MinervaOS.Net

/-- An array of `n` bytes. -/
abbrev Octets (n : Nat) := { l : List UInt8 // l.length = n }

/-- `memcpy(dst + offset, src, length)`. -/
def memcpy (dst : List UInt8) (offset : Nat) (src : List UInt8) : List UInt8 :=
  dst.take offset ++ src ++ dst.drop (offset + src.length)

def put32be (l : List UInt8) (offset : Nat) (value : UInt32) : List UInt8 :=
  (((l.set offset (value >>> 24).toUInt8).set (offset + 1) (value >>> 16).toUInt8).set (offset + 2)
    (value >>> 8).toUInt8).set (offset + 3) value.toUInt8

/-! ## Checksums -/

theorem toNat_carries (sum : UInt32) : ((sum &&& (0xFFFF : UInt32)) + (sum >>> 16)).toNat =
    sum.toNat % 65536 + sum.toNat / 65536 := by
  have hlt := sum.toNat_lt
  have hlow : (sum &&& 0xFFFF).toNat = sum.toNat % 65536 := by
    rw [UInt32.toNat_and]
    exact Nat.and_two_pow_sub_one_eq_mod _ 16
  have hhigh : (sum >>> 16).toNat = sum.toNat / 65536 := by
    rw [UInt32.toNat_shiftRight]
    exact Nat.shiftRight_eq_div_pow _ 16
  rw [UInt32.toNat_add, hlow, hhigh, Nat.mod_eq_of_lt (by omega)]

theorem shiftRight_eq_zero {sum : UInt32} : sum >>> 16 = 0 ↔ sum.toNat / 65536 = 0 := by
  rw [← UInt32.toNat_inj, UInt32.toNat_shiftRight]
  exact iff_of_eq (congrArg (· = 0) (Nat.shiftRight_eq_div_pow _ 16))

/-- `while (sum >> 16) sum = (sum & 0xFFFF) + (sum >> 16)`. -/
def foldCarries (sum : UInt32) : UInt32 :=
  if sum >>> 16 = 0 then sum else foldCarries ((sum &&& (0xFFFF : UInt32)) + (sum >>> 16))
termination_by sum.toNat
decreasing_by
  rename_i h
  rw [shiftRight_eq_zero] at h
  rw [toNat_carries]
  omega

/-- The loop over the words. -/
def addWords (sum : UInt32) : List UInt8 → UInt32
  | [] => sum
  | [a] => foldCarries (sum + (a.toUInt16 <<< 8).toUInt32)
  | a :: b :: data => addWords (foldCarries (sum + (a.toUInt16 <<< 8 ||| b.toUInt16).toUInt32)) data

def ipv4Checksum (data : List UInt8) : UInt16 := (~~~(addWords 0 data)).toUInt16

def transportChecksum (srcIp dstIp : List UInt8) (protocol : UInt8) (segment : List UInt8) :
    UInt16 :=
  let sum := (get16be srcIp 0).toUInt32
  let sum := sum + (get16be srcIp 2).toUInt32
  let sum := sum + (get16be dstIp 0).toUInt32
  let sum := sum + (get16be dstIp 2).toUInt32
  let sum := sum + protocol.toUInt32
  let sum := sum + (UInt16.ofNat segment.length).toUInt32
  let sum := foldCarries (addWords sum segment)
  let result := (~~~sum).toUInt16
  if result ≠ 0 then result else 0xFFFF

/-! ## The frames -/

/-- `e1000_info`. -/
structure Nic where
  present : Bool
  txReady : Bool
  rxReady : Bool
  macValid : Bool
  mac : Octets 6

/-- What the two functions read. -/
structure Sender where
  nic : Nic
  gatewayMacValid : Bool
  gatewayMac : Octets 6
  localIp : Octets 4
  dnsIp : Octets 4
  tcpLocalPort : UInt16
  tcpSyns : UInt32
  dnsQueries : UInt32
  httpHost : List UInt8

/-- The checks before a frame is filled in. `probe` is `net_arp_probe_gateway`: the state that it
leaves, or `none` where it returns 0. -/
def ready (probe : Sender → Option Sender) (n : Sender) : Option Sender :=
  if !n.nic.present || !n.nic.txReady || !n.nic.rxReady || !n.nic.macValid then none
  else if n.gatewayMacValid then some n else probe n

def ipProtoTcp : UInt8 := 6
def ipProtoUdp : UInt8 := 17
def dnsPort : UInt16 := 53
def dnsSourcePort : UInt16 := 49152

/-- The frame of a segment up to its options. -/
def tcpFixedHeaders (n : Sender) (targetIp : Octets 4) (targetPort : UInt16) (flags : UInt8)
    (seq ack : UInt32) : List UInt8 :=
  let ip := 14
  let tcp := ip + 20
  let frame := List.replicate 256 0
  let frame := memcpy frame 0 n.gatewayMac
  let frame := memcpy frame 6 n.nic.mac
  let frame := put16be frame 12 0x0800
  let frame := frame.set ip 0x45
  let frame := put16be frame (ip + 4) (0x2000 + (n.tcpSyns &&& 0x0FFF)).toUInt16
  let frame := (frame.set (ip + 8) 64).set (ip + 9) ipProtoTcp
  let frame := memcpy (memcpy frame (ip + 12) n.localIp) (ip + 16) targetIp
  let frame := put16be (put16be frame tcp n.tcpLocalPort) (tcp + 2) targetPort
  let frame := put32be (put32be frame (tcp + 4) seq) (tcp + 8) ack
  let frame := frame.set (tcp + 13) flags
  put16be (put16be frame (tcp + 14) 8192) (tcp + 16) 0

/-- The options of a SYN. -/
def putSynOptions (frame : List UInt8) : List UInt8 :=
  let tcp := 34
  let frame := put16be ((frame.set (tcp + 20) 2).set (tcp + 21) 4) (tcp + 22) 1460
  let frame := (frame.set (tcp + 24) 4).set (tcp + 25) 2
  let frame := ((frame.set (tcp + 26) 1).set (tcp + 27) 3).set (tcp + 28) 3
  ((frame.set (tcp + 29) 0).set (tcp + 30) 1).set (tcp + 31) 1

/-- The payload behind `tcp_length` bytes of header, the lengths and the checksums. -/
def finishSegment (n : Sender) (targetIp : Octets 4) (tcpLength : Nat) (dataOffset : UInt8)
    (payload frame : List UInt8) : List UInt8 :=
  let ip := 14
  let tcp := ip + 20
  let frame := memcpy frame (tcp + tcpLength) payload
  let tcpLength := tcpLength + payload.length
  let frame := frame.set (tcp + 12) (dataOffset <<< 4)
  let ipLength := 20 + tcpLength
  let frame := put16be frame (ip + 2) (UInt16.ofNat ipLength)
  let frame := put16be frame (ip + 10) (ipv4Checksum ((frame.drop ip).take 20))
  let frame := put16be frame (tcp + 16)
    (transportChecksum n.localIp targetIp ipProtoTcp ((frame.drop tcp).take tcpLength))
  frame.take (14 + ipLength)

/-- The frame that is handed to `e1000_send_frame`. -/
def tcpFrame (n : Sender) (targetIp : Octets 4) (targetPort : UInt16) (flags : UInt8)
    (seq ack : UInt32)
    (payload : List UInt8) : List UInt8 :=
  let frame := tcpFixedHeaders n targetIp targetPort flags seq ack
  if flags &&& tcpFlagSyn ≠ 0 then finishSegment n targetIp 32 8 payload (putSynOptions frame)
  else finishSegment n targetIp 20 5 payload frame

/-- `net_send_tcp_segment`: the frame of the attempts to send it, or `none` where it returns 0
before them. -/
def netSendTcpSegment (probe : Sender → Option Sender) (n : Sender) (targetIp : Octets 4)
    (targetPort : UInt16) (flags : UInt8) (seq ack : UInt32) (payload : List UInt8) :
    Option (List UInt8) := do
  let n ← ready probe n
  if payload.length > 160 then none
  else some (tcpFrame n targetIp targetPort flags seq ack payload)

/-- The frame around the query of `build_dns_query`. -/
def dnsFrame (n : Sender) (query : List UInt8) : List UInt8 :=
  let ip := 14
  let udp := ip + 20
  let dns := udp + 8
  let frame := List.replicate 128 0
  let frame := memcpy frame 0 n.gatewayMac
  let frame := memcpy frame 6 n.nic.mac
  let frame := put16be frame 12 0x0800
  let frame := memcpy frame dns query
  let udpLength := 8 + query.length
  let ipLength := 20 + udpLength
  let frame := (frame.set ip 0x45).set (ip + 1) 0
  let frame := put16be frame (ip + 2) (UInt16.ofNat ipLength)
  let frame := put16be frame (ip + 4) (0x1000 + (n.dnsQueries &&& 0x0FFF)).toUInt16
  let frame := put16be frame (ip + 6) 0
  let frame := (frame.set (ip + 8) 64).set (ip + 9) ipProtoUdp
  let frame := memcpy (memcpy frame (ip + 12) n.localIp) (ip + 16) n.dnsIp
  let frame := put16be frame (ip + 10) (ipv4Checksum ((frame.drop ip).take 20))
  let frame := put16be (put16be frame udp dnsSourcePort) (udp + 2) dnsPort
  let frame := put16be (put16be frame (udp + 4) (UInt16.ofNat udpLength)) (udp + 6) 0
  let frame := put16be frame (udp + 6)
    (transportChecksum n.localIp n.dnsIp ipProtoUdp ((frame.drop udp).take udpLength))
  frame.take (14 + ipLength)

/-- `net_dns_query_current`: the frame that it sends, or `none` where it returns 0 before. -/
def netDnsQueryCurrent (probe : Sender → Option Sender) (n : Sender) : Option (List UInt8) := do
  let n ← ready probe n
  let query ← buildDnsQuery n.httpHost
  some (dnsFrame n query)

/-- What `e1000_send_frame` puts on the wire from the transmit buffer of a free descriptor. -/
def e1000SendFrame (txBuffer : Octets 1536) (frameData : List UInt8) : Option (List UInt8) :=
  let length := frameData.length
  if length > 1536 then none
  else
    let wireLength := if length < 60 then 60 else length
    let frame := memcpy txBuffer 0 (List.replicate wireLength 0)
    let frame := memcpy frame 0 frameData
    some (frame.take wireLength)

/-! ## What the checksums are -/

open OnesComplement Ip

theorem toNat_foldCarries (s : UInt32) : (foldCarries s).toNat = fold s.toNat := by
  induction s using foldCarries.induct with
  | case1 s h =>
    unfold foldCarries fold
    rw [if_pos h, if_pos (shiftRight_eq_zero.1 h)]
  | case2 s h ih =>
    unfold foldCarries fold
    rw [if_neg h, ih, toNat_carries, if_neg (mt shiftRight_eq_zero.2 h)]

theorem toNat_word (a b : UInt8) :
    (a.toUInt16 <<< 8 ||| b.toUInt16).toUInt32.toNat = a.toNat * 256 + b.toNat := by
  have ha := a.toNat_lt
  have hb := b.toNat_lt
  have hor : a.toNat * 256 ||| b.toNat = a.toNat * 256 + b.toNat := by
    have hshift : a.toNat * 256 = a.toNat <<< 8 := (Nat.shiftLeft_eq _ 8).symm
    rw [hshift, Nat.shiftLeft_add_eq_or_of_lt (by omega)]
  have hhigh : (a.toUInt16 <<< 8).toNat = a.toNat * 256 := by
    rw [UInt16.toNat_shiftLeft]
    simp [Nat.shiftLeft_eq]
    omega
  rw [UInt16.toNat_toUInt32, UInt16.toNat_or, hhigh, UInt8.toNat_toUInt16, hor]

theorem toNat_lastWord (a : UInt8) : (a.toUInt16 <<< 8).toUInt32.toNat = a.toNat * 256 := by
  have h := toNat_word a 0
  simpa using h

/-- The words are added up with the carries put back in at each of them. -/
theorem addWords_spec : ∀ (data : List UInt8) (s : UInt32), s.toNat < 16777216 →
    (addWords s data).toNat < 16777216 ∧ fold (addWords s data).toNat = fold (s.toNat + sum data) ∧
      (s.toNat < 65536 → (addWords s data).toNat < 65536)
  | [], s, h => ⟨h, rfl, id⟩
  | [a], s, h => by
    have ha := a.toNat_lt
    have hword : (s + (a.toUInt16 <<< 8).toUInt32).toNat = s.toNat + a.toNat * 256 := by
      rw [UInt32.toNat_add, toNat_lastWord, Nat.mod_eq_of_lt (by omega)]
    have hlt := fold_lt (s.toNat + a.toNat * 256)
    simp only [addWords, sum, toNat_foldCarries, hword]
    exact ⟨by omega, fold_fold_add _ 0, fun _ => hlt⟩
  | a :: b :: data, s, h => by
    have ha := a.toNat_lt
    have hb := b.toNat_lt
    have hword : (s + (a.toUInt16 <<< 8 ||| b.toUInt16).toUInt32).toNat =
        s.toNat + (a.toNat * 256 + b.toNat) := by
      rw [UInt32.toNat_add, toNat_word, Nat.mod_eq_of_lt (by omega)]
    have hlt := fold_lt (s.toNat + (a.toNat * 256 + b.toNat))
    have hfold := toNat_foldCarries (s + (a.toUInt16 <<< 8 ||| b.toUInt16).toUInt32)
    rw [hword] at hfold
    obtain ⟨hbound, hsum, hsmall⟩ := addWords_spec data
      (foldCarries (s + (a.toUInt16 <<< 8 ||| b.toUInt16).toUInt32)) (by omega)
    rw [hfold, fold_fold_add, Nat.add_assoc] at hsum
    simp only [addWords, sum]
    exact ⟨hbound, hsum, fun _ => hsmall (by omega)⟩

theorem toNat_complement {s : UInt32} (h : s.toNat < 65536) :
    (~~~s).toUInt16.toNat = 65535 - s.toNat := by
  rw [UInt32.toNat_toUInt16, UInt32.toNat_not]
  have hsize : UInt32.size = 4294967296 := rfl
  omega

theorem toNat_ipv4Checksum (data : List UInt8) :
    (ipv4Checksum data).toNat = 65535 - fold (sum data) := by
  obtain ⟨-, hsum, hsmall⟩ := addWords_spec data 0 (by decide)
  have hlt := hsmall (by decide)
  have hself : fold (addWords 0 data).toNat = (addWords 0 data).toNat := by
    unfold fold
    rw [if_pos (Nat.div_eq_of_lt hlt)]
  rw [hself] at hsum
  unfold ipv4Checksum
  rw [toNat_complement hlt, hsum]
  simp

theorem toNat_add_of_lt {a b : UInt32} (h : a.toNat + b.toNat < 4294967296) :
    (a + b).toNat = a.toNat + b.toNat := by
  rw [UInt32.toNat_add, Nat.mod_eq_of_lt h]

theorem octets_four : ∀ l : Octets 4, ∃ a b c d, l.1 = [a, b, c, d]
  | ⟨[a, b, c, d], _⟩ => ⟨a, b, c, d, rfl⟩

theorem toNat_transportChecksum (src dst : Octets 4) (protocol : UInt8) (segment : List UInt8)
    (hlen : segment.length < 65536) : (transportChecksum src dst protocol segment).toNat =
      if fold (sum (pseudoHeader src dst protocol.toNat segment.length) + sum segment) = 65535 then
        65535
      else
        65535 - fold (sum (pseudoHeader src dst protocol.toNat segment.length) + sum segment) := by
  obtain ⟨a, b, c, d, hsrc⟩ := octets_four src
  obtain ⟨a', b', c', d', hdst⟩ := octets_four dst
  rw [hsrc, hdst]
  unfold transportChecksum
  extract_lets s₁ s₂ s₃ s₄ s₅ s₆ s₇ result
  have hw₁ : (get16be [a, b, c, d] 0).toUInt32.toNat = a.toNat * 256 + b.toNat := toNat_word a b
  have hw₂ : (get16be [a, b, c, d] 2).toUInt32.toNat = c.toNat * 256 + d.toNat := toNat_word c d
  have hw₃ : (get16be [a', b', c', d'] 0).toUInt32.toNat = a'.toNat * 256 + b'.toNat :=
    toNat_word a' b'
  have hw₄ : (get16be [a', b', c', d'] 2).toUInt32.toNat = c'.toNat * 256 + d'.toNat :=
    toNat_word c' d'
  have hw₅ : protocol.toUInt32.toNat = protocol.toNat := UInt8.toNat_toUInt32 protocol
  have hw₆ : (UInt16.ofNat segment.length).toUInt32.toNat = segment.length := by
    rw [UInt16.toNat_toUInt32, UInt16.toNat_ofNat', Nat.mod_eq_of_lt hlen]
  have ha := a.toNat_lt
  have hb := b.toNat_lt
  have hc := c.toNat_lt
  have hd := d.toNat_lt
  have ha' := a'.toNat_lt
  have hb' := b'.toNat_lt
  have hc' := c'.toNat_lt
  have hd' := d'.toNat_lt
  have hp := protocol.toNat_lt
  -- six words leave the 32 bits room
  have h₁ : s₁.toNat = a.toNat * 256 + b.toNat := hw₁
  have h₂ : s₂.toNat = s₁.toNat + (c.toNat * 256 + d.toNat) := hw₂ ▸ toNat_add_of_lt (by omega)
  have h₃ : s₃.toNat = s₂.toNat + (a'.toNat * 256 + b'.toNat) := hw₃ ▸ toNat_add_of_lt (by omega)
  have h₄ : s₄.toNat = s₃.toNat + (c'.toNat * 256 + d'.toNat) := hw₄ ▸ toNat_add_of_lt (by omega)
  have h₅ : s₅.toNat = s₄.toNat + protocol.toNat := hw₅ ▸ toNat_add_of_lt (by omega)
  have h₆ : s₆.toNat = s₅.toNat + segment.length := hw₆ ▸ toNat_add_of_lt (by omega)
  have hstart : s₆.toNat =
      sum (pseudoHeader [a, b, c, d] [a', b', c', d'] protocol.toNat segment.length) := by
    have hlength := sum_be16 hlen
    simp only [pseudoHeader, UInt8.ofNat_toNat, List.cons_append, List.nil_append, sum, hlength]
    simp only [UInt8.toNat_zero]
    omega
  obtain ⟨-, hsum, -⟩ := addWords_spec segment s₆ (by omega)
  have hfold : s₇.toNat =
    fold (sum (pseudoHeader [a, b, c, d] [a', b', c', d'] protocol.toNat segment.length) +
      sum segment) := by
    rw [← hstart, ← hsum]
    exact toNat_foldCarries _
  have hresult : result.toNat = 65535 - s₇.toNat :=
    toNat_complement (by rw [hfold]; exact fold_lt _)
  rw [hfold] at hresult
  have hlt :=
    fold_lt
    (sum (pseudoHeader [a, b, c, d] [a', b', c', d'] protocol.toNat segment.length) + sum segment)
  have hzero : result ≠ 0 ↔ result.toNat ≠ 0 := by
    rw [ne_eq, ← UInt16.toNat_inj]
    rfl
  rw [apply_ite UInt16.toNat]
  have hones : (0xFFFF : UInt16).toNat = 65535 := rfl
  rw [hones, hresult]
  by_cases hall :
    fold (sum (pseudoHeader [a, b, c, d] [a', b', c', d'] protocol.toNat segment.length) +
      sum segment) = 65535
  · rw [if_pos hall, if_neg (by rw [hzero, hresult]; omega)]
  · rw [if_neg hall, if_pos (by rw [hzero, hresult]; omega)]

/-! ## What is written -/

def bytes16 (v : UInt16) : List UInt8 := [(v >>> 8).toUInt8, v.toUInt8]

def bytes32 (v : UInt32) : List UInt8 :=
  [(v >>> 24).toUInt8, (v >>> 16).toUInt8, (v >>> 8).toUInt8, v.toUInt8]

section

variable {ws ts : List Nat} {l : List UInt8} {fs : List (List UInt8)} {n w : Nat}

theorem edit_field (h : Laid (ws ++ ts) l fs) (k : Nat) (src : Octets w)
    (put : List UInt8 → List UInt8)
    (hput : ∀ pre f post, pre.length = n → f.length = w →
      put (pre ++ f ++ post) = pre ++ src ++ post)
    (hn : (ws.take k).sum = n) (hw : ws[k]? = some w) : Laid (ws ++ ts) (put l) (fs.set k src) := by
  have hlt : k < ws.length := (List.getElem?_eq_some_iff.1 hw).1
  obtain ⟨src, rfl⟩ := src
  refine h.edit k hput ?_ ?_
  · rw [List.take_append_of_le_length (Nat.le_of_lt hlt), hn]
  · rw [List.getElem?_append_left hlt, hw]

theorem memcpy_field (h : Laid (ws ++ ts) l fs) (k : Nat) (src : Octets w)
    (hn : (ws.take k).sum = n)
    (hw : ws[k]? = some w) : Laid (ws ++ ts) (memcpy l n src) (fs.set k src) := by
  refine edit_field h k src (fun l => memcpy l n src) ?_ hn hw
  intro pre f post hpre hf
  unfold memcpy
  rw [List.append_assoc pre, List.take_left' hpre, src.2, ← List.drop_drop, List.drop_left' hpre,
    List.drop_left' hf]

theorem set_field (h : Laid (ws ++ ts) l fs) (k : Nat) (c : UInt8) (hn : (ws.take k).sum = n)
    (hw : ws[k]? = some 1) : Laid (ws ++ ts) (l.set n c) (fs.set k [c]) := by
  refine edit_field h k ⟨[c], rfl⟩ (fun l => l.set n c) ?_ hn hw
  intro pre f post hpre hf
  obtain ⟨x, rfl⟩ := List.length_eq_one_iff.1 hf
  subst hpre
  simp

theorem put16be_field (h : Laid (ws ++ ts) l fs) (k : Nat) (v : UInt16) (hn : (ws.take k).sum = n)
    (hw : ws[k]? = some 2) : Laid (ws ++ ts) (put16be l n v) (fs.set k (bytes16 v)) := by
  refine edit_field h k ⟨bytes16 v, rfl⟩ (fun l => put16be l n v) ?_ hn hw
  intro pre f post hpre hf
  obtain ⟨x, y, rfl⟩ := List.length_eq_two.1 hf
  subst hpre
  simp [put16be, bytes16]

theorem put32be_field (h : Laid (ws ++ ts) l fs) (k : Nat) (v : UInt32) (hn : (ws.take k).sum = n)
    (hw : ws[k]? = some 4) : Laid (ws ++ ts) (put32be l n v) (fs.set k (bytes32 v)) := by
  refine edit_field h k ⟨bytes32 v, rfl⟩ (fun l => put32be l n v) ?_ hn hw
  intro pre f post hpre hf
  obtain ⟨a, b, c, d, rfl⟩ : ∃ a b c d, f = [a, b, c, d] := octets_four ⟨f, hf⟩
  subst hpre
  simp [put32be, bytes32]

end

def ethernetFields (n : Sender) : List (List UInt8) := [n.gatewayMac, n.nic.mac, bytes16 0x0800]

def ipv4Fields (total id : UInt16) (protocol : UInt8) (checksum : UInt16) (src dst : List UInt8) :
    List (List UInt8) :=
  [[0x45], [0], bytes16 total, bytes16 id, [0, 0], [64], [protocol], bytes16 checksum, src, dst]

def tcpFields (srcPort dstPort : UInt16) (seq ack : UInt32) (offset flags : UInt8)
    (checksum : UInt16) :
    List (List UInt8) :=
  [bytes16 srcPort, bytes16 dstPort, bytes32 seq, bytes32 ack, [offset], [flags], bytes16 8192,
    bytes16 checksum, [0, 0]]

def udpFields (srcPort dstPort length checksum : UInt16) : List (List UInt8) :=
  [bytes16 srcPort, bytes16 dstPort, bytes16 length, bytes16 checksum]

/-- The fields of a SYN's options. -/
def synFields : List (List UInt8) :=
  [[2], [4], bytes16 1460, [4], [2], [1], [3], [3], [0], [1], [1]]

/-- The widths of the fields of a frame up to the options. -/
def headerWidths : List Nat :=
  [6, 6, 2] ++ [1, 1, 2, 2, 2, 1, 1, 2, 4, 4] ++ [2, 2, 4, 4, 1, 1, 2, 2, 2]

def dnsWidths : List Nat := [6, 6, 2] ++ [1, 1, 2, 2, 2, 1, 1, 2, 4, 4] ++ [2, 2, 2, 2]

def synWidths : List Nat := [1, 1, 2, 1, 1, 1, 1, 1, 1, 1, 1]

theorem laid_tcpFixedHeaders (n : Sender) (targetIp : Octets 4) (targetPort : UInt16)
    (flags : UInt8)
    (seq ack : UInt32) {ts : List Nat} (hts : ts.sum = 202) :
    Laid (headerWidths ++ ts) (tcpFixedHeaders n targetIp targetPort flags seq ack)
      (ethernetFields n ++
        ipv4Fields 0 (0x2000 + (n.tcpSyns &&& 0x0FFF)).toUInt16 ipProtoTcp 0 n.localIp targetIp ++
        tcpFields n.tcpLocalPort targetPort seq ack 0 flags 0 ++ ts.map fun w =>
          List.replicate w 0) := by
  have h := Laid.replicate (0 : UInt8) (headerWidths ++ ts)
  have hsum : (headerWidths ++ ts).sum = 256 := by
    rw [List.sum_append, hts]
    decide
  rw [hsum] at h
  have h := memcpy_field h 0 n.gatewayMac (n := 0) (by decide) (by decide)
  have h := memcpy_field h 1 n.nic.mac (n := 6) (by decide) (by decide)
  have h := put16be_field h 2 (n := 12) 0x0800 (by decide) (by decide)
  have h := set_field h 3 (n := 14) 0x45 (by decide) (by decide)
  have h :=
    put16be_field h 6 (n := 18) (0x2000 + (n.tcpSyns &&& 0x0FFF)).toUInt16 (by decide) (by decide)
  have h := set_field h 8 (n := 22) 64 (by decide) (by decide)
  have h := set_field h 9 (n := 23) ipProtoTcp (by decide) (by decide)
  have h := memcpy_field h 11 n.localIp (n := 26) (by decide) (by decide)
  have h := memcpy_field h 12 targetIp (n := 30) (by decide) (by decide)
  have h := put16be_field h 13 (n := 34) n.tcpLocalPort (by decide) (by decide)
  have h := put16be_field h 14 (n := 36) targetPort (by decide) (by decide)
  have h := put32be_field h 15 (n := 38) seq (by decide) (by decide)
  have h := put32be_field h 16 (n := 42) ack (by decide) (by decide)
  have h := set_field h 18 (n := 47) flags (by decide) (by decide)
  have h := put16be_field h 19 (n := 48) 8192 (by decide) (by decide)
  have h := put16be_field h 20 (n := 50) 0 (by decide) (by decide)
  simp only [headerWidths, List.map_cons, List.cons_append, List.nil_append, List.set_cons_zero,
    List.set_cons_succ] at h
  exact h

theorem laid_putSynOptions {frame : List UInt8} {fs : List (List UInt8)} (hfs : fs.length = 22)
    (h : Laid (headerWidths ++ (synWidths ++ [190])) frame
      (fs ++ (synWidths ++ [190]).map fun w => List.replicate w 0)) :
    Laid (headerWidths ++ (synWidths ++ [190])) (putSynOptions frame)
      (fs ++ (synFields ++ [List.replicate 190 0])) := by
  rw [← List.append_assoc] at h ⊢
  have h := set_field h 22 (n := 54) 2 (by decide) (by decide)
  have h := set_field h 23 (n := 55) 4 (by decide) (by decide)
  have h := put16be_field h 24 (n := 56) 1460 (by decide) (by decide)
  have h := set_field h 25 (n := 58) 4 (by decide) (by decide)
  have h := set_field h 26 (n := 59) 2 (by decide) (by decide)
  have h := set_field h 27 (n := 60) 1 (by decide) (by decide)
  have h := set_field h 28 (n := 61) 3 (by decide) (by decide)
  have h := set_field h 29 (n := 62) 3 (by decide) (by decide)
  have h := set_field h 30 (n := 63) 0 (by decide) (by decide)
  have h := set_field h 31 (n := 64) 1 (by decide) (by decide)
  have h := set_field h 32 (n := 65) 1 (by decide) (by decide)
  simp (disch := omega) only [List.set_append_right, hfs] at h
  exact h

theorem length_ethernetFields (n : Sender) : (ethernetFields n).flatten.length = 14 := by
  simp [ethernetFields, bytes16, n.gatewayMac.2, n.nic.mac.2]

theorem length_ipv4Fields (total id : UInt16) (protocol : UInt8) (checksum : UInt16)
    (src dst : Octets 4) :
    (ipv4Fields total id protocol checksum src dst).flatten.length = 20 := by
  simp [ipv4Fields, bytes16, src.2, dst.2]

theorem length_tcpFields (srcPort dstPort : UInt16) (seq ack : UInt32) (offset flags : UInt8)
    (checksum : UInt16) :
    (tcpFields srcPort dstPort seq ack offset flags checksum).flatten.length = 20 := rfl

section

variable {ws : List Nat} {frame : List UInt8} {e i t gs : List (List UInt8)}
    {payload pad : List UInt8} {n : Nat}

/-- A frame in its parts: the segment is `t`, then the options `gs` and the payload. -/
theorem eq_of_laid (h : Laid ws frame (e ++ i ++ t ++ (gs ++ [payload, pad]))) :
    frame = e.flatten ++ (i.flatten ++ ((t.flatten ++ (gs.flatten ++ payload)) ++ pad)) := by
  rw [h.eq]
  simp

theorem header_of_laid (h : Laid ws frame (e ++ i ++ t ++ (gs ++ [payload, pad])))
    (he : e.flatten.length = 14) (hi : i.flatten.length = 20) :
    (frame.drop 14).take 20 = i.flatten := by
  rw [eq_of_laid h, List.drop_left' he, List.take_left' hi]

theorem segment_of_laid (h : Laid ws frame (e ++ i ++ t ++ (gs ++ [payload, pad])))
    (he : e.flatten.length = 14) (hi : i.flatten.length = 20)
    (ht : (t.flatten ++ (gs.flatten ++ payload)).length = n) :
    (frame.drop 34).take n = t.flatten ++ (gs.flatten ++ payload) := by
  rw [eq_of_laid h, ← List.append_assoc,
    List.drop_left' (by simp only [List.length_append, he, hi]), List.take_left' ht]

theorem take_of_laid (h : Laid ws frame (e ++ i ++ t ++ (gs ++ [payload, pad])))
    (he : e.flatten.length = 14) (hi : i.flatten.length = 20)
    (ht : (t.flatten ++ (gs.flatten ++ payload)).length = n) :
    frame.take (14 + (20 + n)) = e.flatten ++
      (i.flatten ++ (t.flatten ++ (gs.flatten ++ payload))) := by
  rw [eq_of_laid h, ← List.append_assoc, ← List.append_assoc, List.take_left', List.append_assoc]
  rw [List.length_append, List.length_append, he, hi, ht]
  omega

end

theorem finishSegment_eq {n : Sender} {targetIp : Octets 4} {id srcPort dstPort : UInt16}
    {seq ack : UInt32}
    {flags dataOffset : UInt8} {payload frame : List UInt8} {os : List Nat} {gs : List (List UInt8)}
    {last : List UInt8} {w k : Nat} (h : Laid (headerWidths ++ (os ++ [w])) frame
      (ethernetFields n ++ ipv4Fields 0 id ipProtoTcp 0 n.localIp targetIp ++
        tcpFields srcPort dstPort seq ack 0 flags 0 ++ (gs ++ [last])))
    (hgs : gs.flatten.length = os.sum) (hk : 20 + os.sum = k) (total : UInt16)
    (htotal : UInt16.ofNat (20 + (k + payload.length)) = total) :
    finishSegment n targetIp k dataOffset payload frame = (ethernetFields n).flatten ++
      ((ipv4Fields total id ipProtoTcp (ipv4Checksum
        (ipv4Fields total id ipProtoTcp 0 n.localIp targetIp).flatten) n.localIp
          targetIp).flatten ++
      ((tcpFields srcPort dstPort seq ack (dataOffset <<< 4) flags
        (transportChecksum n.localIp targetIp
        ipProtoTcp ((tcpFields srcPort dstPort seq ack (dataOffset <<< 4) flags 0).flatten ++
          (gs.flatten ++ payload)))).flatten ++ (gs.flatten ++ payload))) := by
  have hheader : headerWidths.sum = 54 := by decide
  have heth := length_ethernetFields n
  have hip := fun total checksum =>
    length_ipv4Fields total id ipProtoTcp checksum n.localIp targetIp
  have htcp : ∀ checksum,
    ((tcpFields srcPort dstPort seq ack (dataOffset <<< 4) flags checksum).flatten ++
      (gs.flatten ++ payload)).length = k + payload.length := by
    intro checksum
    rw [List.length_append, List.length_append, length_tcpFields, hgs]
    omega
  rw [← List.append_assoc, ← List.append_assoc] at h
  have h := h.writeLast payload (n := 34 + k) (by rw [List.sum_append, hheader]; omega)
  rw [List.append_assoc headerWidths, List.append_assoc _ gs] at h
  generalize os ++ [payload.length, w - payload.length] = ts at h
  have h := set_field h 17 (n := 46) (dataOffset <<< 4) (by decide) (by decide)
  have h := put16be_field h 5 (n := 16) total (by decide) (by decide)
  unfold finishSegment
  extract_lets ip tcp f₁ tcpLength f₂ ipLength f₃ f₄ f₅
  have h : Laid (headerWidths ++ ts) f₃
    (ethernetFields n ++ ipv4Fields total id ipProtoTcp 0 n.localIp targetIp ++
      tcpFields srcPort dstPort seq ack (dataOffset <<< 4) flags 0 ++
        (gs ++ [payload, last.drop payload.length])) := by
    subst htotal
    exact h
  have h₃ := header_of_laid h heth (hip _ _)
  have h₄ :=
    put16be_field h 10 (n := 24) (ipv4Checksum ((f₃.drop ip).take 20)) (by decide) (by decide)
  have h₄ : Laid (headerWidths ++ ts) f₄ (ethernetFields n ++
    ipv4Fields total id ipProtoTcp (ipv4Checksum ((f₃.drop ip).take 20)) n.localIp targetIp ++
      tcpFields srcPort dstPort seq ack (dataOffset <<< 4) flags 0 ++
        (gs ++ [payload, last.drop payload.length])) := h₄
  have ht := segment_of_laid h₄ heth (hip _ _) (htcp _)
  have h₅ := put16be_field h₄ 20 (n := 50) (transportChecksum n.localIp targetIp ipProtoTcp
    ((f₄.drop tcp).take tcpLength)) (by decide) (by decide)
  have h₅ : Laid (headerWidths ++ ts) f₅ (ethernetFields n ++
    ipv4Fields total id ipProtoTcp (ipv4Checksum ((f₃.drop ip).take 20)) n.localIp targetIp ++
      tcpFields srcPort dstPort seq ack (dataOffset <<< 4) flags
        (transportChecksum n.localIp targetIp ipProtoTcp
        ((f₄.drop tcp).take tcpLength)) ++ (gs ++ [payload, last.drop payload.length])) := h₅
  have hframe := take_of_laid h₅ heth (hip _ _) (htcp _)
  rw [h₃, ht] at hframe
  exact hframe

theorem length_udpFields (srcPort dstPort length checksum : UInt16) :
    (udpFields srcPort dstPort length checksum).flatten.length = 8 := rfl

theorem dnsFrame_eq (n : Sender) (query : List UInt8) (total length : UInt16)
    (htotal : UInt16.ofNat (20 + (8 + query.length)) = total)
    (hlength : UInt16.ofNat (8 + query.length) = length) :
    dnsFrame n query = (ethernetFields n).flatten ++
      ((ipv4Fields total (0x1000 + (n.dnsQueries &&& 0x0FFF)).toUInt16 ipProtoUdp (ipv4Checksum
        (ipv4Fields total (0x1000 + (n.dnsQueries &&& 0x0FFF)).toUInt16 ipProtoUdp 0 n.localIp
          n.dnsIp).flatten)
          n.localIp n.dnsIp).flatten ++
      ((udpFields dnsSourcePort dnsPort length (transportChecksum n.localIp n.dnsIp ipProtoUdp
        ((udpFields dnsSourcePort dnsPort length 0).flatten ++ query))).flatten ++ query)) := by
  have heth := length_ethernetFields n
  have hip := fun total id checksum =>
    length_ipv4Fields total id ipProtoUdp checksum n.localIp n.dnsIp
  have hudp : ∀ checksum,
    ((udpFields dnsSourcePort dnsPort length checksum).flatten ++ query).length =
      8 + query.length := by
    intro checksum
    rw [List.length_append, length_udpFields]
  have h := Laid.replicate (0 : UInt8) (dnsWidths ++ [86])
  have h := memcpy_field h 0 n.gatewayMac (n := 0) (by decide) (by decide)
  have h := memcpy_field h 1 n.nic.mac (n := 6) (by decide) (by decide)
  have h := put16be_field h 2 (n := 12) 0x0800 (by decide) (by decide)
  have h : Laid (dnsWidths ++ [86]) _ ((ethernetFields n ++
      (dnsWidths.drop 3).map fun w => List.replicate w 0) ++ [List.replicate 86 0]) := h
  have h := h.writeLast query (n := 42) (by decide)
  generalize [query.length, 86 - query.length] = ts at h
  have h := set_field h 3 (n := 14) 0x45 (by decide) (by decide)
  have h := set_field h 4 (n := 15) 0 (by decide) (by decide)
  have h := put16be_field h 5 (n := 16) total (by decide) (by decide)
  have h := put16be_field h 6 (n := 18) (0x1000 + (n.dnsQueries &&& 0x0FFF)).toUInt16
    (by decide) (by decide)
  have h := put16be_field h 7 (n := 20) 0 (by decide) (by decide)
  have h := set_field h 8 (n := 22) 64 (by decide) (by decide)
  have h := set_field h 9 (n := 23) ipProtoUdp (by decide) (by decide)
  have h := memcpy_field h 11 n.localIp (n := 26) (by decide) (by decide)
  have h := memcpy_field h 12 n.dnsIp (n := 30) (by decide) (by decide)
  unfold dnsFrame
  extract_lets ip udp dns f₁ f₂ f₃ f₄ f₅ udpLength ipLength f₆ f₇ f₈ f₉ f₁₀ f₁₁ f₁₂ f₁₃ f₁₄ f₁₅
  have h : Laid (dnsWidths ++ ts) f₁₁ (ethernetFields n ++ ipv4Fields total
      (0x1000 + (n.dnsQueries &&& 0x0FFF)).toUInt16 ipProtoUdp 0 n.localIp n.dnsIp ++
        [[0, 0], [0, 0], [0, 0], [0, 0]] ++
          ([] ++ [query, (List.replicate 86 0).drop query.length])) := by
    subst htotal
    exact h
  have h₁ := header_of_laid h heth (hip _ _ _)
  have h :=
    put16be_field h 10 (n := 24) (ipv4Checksum ((f₁₁.drop ip).take 20)) (by decide) (by decide)
  have h := put16be_field h 13 (n := 34) dnsSourcePort (by decide) (by decide)
  have h := put16be_field h 14 (n := 36) dnsPort (by decide) (by decide)
  have h := put16be_field h 15 (n := 38) length (by decide) (by decide)
  have h := put16be_field h 16 (n := 40) 0 (by decide) (by decide)
  have h₂ : Laid (dnsWidths ++ ts) f₁₄ (ethernetFields n ++ ipv4Fields total
      (0x1000 + (n.dnsQueries &&& 0x0FFF)).toUInt16 ipProtoUdp
        (ipv4Checksum ((f₁₁.drop ip).take 20))
        n.localIp n.dnsIp ++ udpFields dnsSourcePort dnsPort length 0 ++
          ([] ++ [query, (List.replicate 86 0).drop query.length])) := by
    subst hlength
    exact h
  have ht := segment_of_laid h₂ heth (hip _ _ _) (hudp _)
  have h₃ := put16be_field h₂ 16 (n := 40) (transportChecksum n.localIp n.dnsIp ipProtoUdp
    ((f₁₄.drop udp).take udpLength)) (by decide) (by decide)
  have h₃ : Laid (dnsWidths ++ ts) f₁₅ (ethernetFields n ++ ipv4Fields total
      (0x1000 + (n.dnsQueries &&& 0x0FFF)).toUInt16 ipProtoUdp
        (ipv4Checksum ((f₁₁.drop ip).take 20))
        n.localIp n.dnsIp ++ udpFields dnsSourcePort dnsPort length
          (transportChecksum n.localIp n.dnsIp
          ipProtoUdp ((f₁₄.drop udp).take udpLength)) ++
            ([] ++ [query, (List.replicate 86 0).drop query.length])) := h₃
  have hframe := take_of_laid h₃ heth (hip _ _ _) (hudp _)
  rw [h₁, ht] at hframe
  exact hframe

end MinervaOS.Net
