import MinervaOS.Net.Query

/-!
# The ClientHello

`build_tls_client_hello` leaves the lengths of the record, of the handshake message and of its
extensions open and fills them in at the end. `parseClientHello` reads a ClientHello along the
presentation language: every vector behind its length, with nothing left over in any of them.
-/

namespace MinervaOS.Tls

open Net

/-- The buffer that is filled, and how far. -/
structure Out where
  bytes : List UInt8
  offset : Nat

namespace Out

/-- `out[offset++] = c`, for one byte after the other. -/
def push (out : Out) (cs : List UInt8) : Out :=
  cs.foldl (fun out c => ⟨out.bytes.set out.offset c, out.offset + 1⟩) out

/-- `put16be(out + offset, value)` and `offset += 2`. -/
def push16 (out : Out) (value : UInt16) : Out :=
  ⟨put16be out.bytes out.offset value, out.offset + 2⟩

/-- `offset += n`. -/
def skip (out : Out) (n : Nat) : Out := ⟨out.bytes, out.offset + n⟩

/-- `put24be(out + offset, value)`. -/
def put24be (l : List UInt8) (offset : Nat) (value : UInt32) : List UInt8 :=
  ((l.set offset (value >>> 16).toUInt8).set (offset + 1) (value >>> 8).toUInt8).set (offset + 2)
    value.toUInt8

end Out

/-- What goes into `tls_client_random`. -/
def tlsClientRandom (tcpSyns : UInt32) : List UInt8 :=
  (List.range 32).map fun i => 0x4D + UInt8.ofNat i + (tcpSyns &&& 0x0F).toUInt8

/-- The ClientHello and the client random, or `none` for a returned 0. -/
def buildTlsClientHello (httpHost : List UInt8) (tcpSyns : UInt32) (out : List UInt8) (max : Nat) :
    Option (List UInt8 × List UInt8) :=
  let host := if httpHost = [] then chars "example.com" else httpHost
  let hlen := host.length
  if hlen = 0 || hlen > 47 || max < 120 then none
  else
    let out : Out := ⟨out, 0⟩
    let out := out.push [0x16, 0x03, 0x01]
    let recordLenPos := out.offset
    let out := out.skip 2
    let out := out.push [0x01]
    let handshakeLenPos := out.offset
    let out := out.skip 3
    let bodyStart := out.offset
    let out := out.push [0x03, 0x03]
    let out := out.push (tlsClientRandom tcpSyns)
    let out := out.push [0]
    let out := (((((out.push16 8).push16 0xC02F).push16 0xC02B).push16 0x009C).push16 0x00FF)
    let out := out.push [1, 0]
    let extensionsLenPos := out.offset
    let out := out.skip 2
    let extensionsStart := out.offset
    let out := (out.push16 0x0000).push16 (UInt16.ofNat (5 + hlen))
    let out := ((out.push16 (UInt16.ofNat (3 + hlen))).push [0]).push16 (UInt16.ofNat hlen)
    let out := out.push host
    let out := (((out.push16 0x000A).push16 4).push16 2).push16 0x0017
    let out := ((out.push16 0x000B).push16 2).push [1, 0]
    let out := ((out.push16 0x000D).push16 8).push16 6
    let out := ((out.push16 0x0401).push16 0x0501).push16 0x0403
    if out.offset > max then none
    else
      let bytes := put16be out.bytes extensionsLenPos (UInt16.ofNat (out.offset - extensionsStart))
      let bytes := Out.put24be bytes handshakeLenPos (UInt32.ofNat (out.offset - bodyStart))
      let bytes := put16be bytes recordLenPos (UInt16.ofNat (out.offset - 5))
      some (bytes.take out.offset, tlsClientRandom tcpSyns)

/-! ## The reference parser -/

inductive Extension where
  | serverName (hosts : List (List UInt8))
  | supportedGroups (groups : List Nat)
  | ecPointFormats (formats : List Nat)
  | signatureAlgorithms (algorithms : List Nat)
  | other (type : Nat) (data : List UInt8)

structure ClientHello where
  random : List UInt8
  sessionId : List UInt8
  cipherSuites : List Nat
  compressionMethods : List Nat
  extensions : List Extension

open Wire

/-- A vector of 16-bit numbers behind its length. -/
def parseNumbers : Parse (List Nat) := do
  let length ← u16
  within length (many u16 (length + 1))

def parseServerName : Parse (List UInt8) := do
  let type ← u8
  guard (type = 0)
  let length ← u16
  guard (0 < length)
  take length

def parseExtensionData (type length : Nat) : Parse Extension :=
  if type = 0 then do
    let length ← u16
    let hosts ← within length (many parseServerName (length + 1))
    return .serverName hosts
  else if type = 10 then do return .supportedGroups (← parseNumbers)
  else if type = 11 then do
    let length ← u8
    let formats ← within length (many u8 (length + 1))
    return .ecPointFormats formats
  else if type = 13 then do return .signatureAlgorithms (← parseNumbers)
  else do return .other type (← take length)

def parseExtension : Parse Extension := do
  let type ← u16
  let length ← u16
  within length (parseExtensionData type length)

def parseBody : Parse ClientHello := do
  let version ← u16
  guard (version = 0x0303)
  let random ← take 32
  let length ← u8
  guard (length ≤ 32)
  let sessionId ← take length
  let cipherSuites ← parseNumbers
  guard (cipherSuites ≠ [])
  let length ← u8
  let compressionMethods ← within length (many u8 (length + 1))
  guard (0 ∈ compressionMethods)
  let length ← u16
  let extensions ← within length (many parseExtension (length + 1))
  return { random, sessionId, cipherSuites, compressionMethods, extensions }

def parseHandshake : Parse ClientHello := do
  let type ← u8
  guard (type = 1)
  let length ← u24
  within length parseBody

/-- A record with one ClientHello. -/
def parseClientHello : Parse ClientHello := do
  let type ← u8
  guard (type = 22)
  let version ← u16
  guard (version / 256 = 3)
  let length ← u16
  guard (length ≤ 16384)
  within length parseHandshake

/-! ## What is written -/

/-- An extension behind its type and its length. -/
def extension (type : Nat) (data : List UInt8) : List UInt8 := be16 type ++ be16 data.length ++ data

def extensions (host : List UInt8) : List UInt8 :=
  extension 0 (be16 (3 + host.length) ++ ([0] ++ be16 host.length ++ host)) ++
    extension 10 (be16 2 ++ be16 23) ++ extension 11 [1, 0] ++
    extension 13 (be16 6 ++ (be16 0x0401 ++ be16 0x0501 ++ be16 0x0403))

/-- The body up to the length of the extensions. -/
def bodyStart (random : List UInt8) : List UInt8 :=
  be16 0x0303 ++ random ++ [0] ++
    (be16 8 ++ (be16 0xC02F ++ be16 0xC02B ++ be16 0x009C ++ be16 0x00FF)) ++
    [1, 0]

def body (random host : List UInt8) : List UInt8 :=
  bodyStart random ++ be16 (extensions host).length ++ extensions host

def clientHello (random host : List UInt8) : List UInt8 :=
  [0x16, 0x03, 0x01] ++ be16 (4 + (body random host).length) ++ [0x01] ++
    be24 (body random host).length ++ body random host

/-- The bytes up to the offset are `l`, and the buffer has `n`. -/
structure Wrote (out : Out) (l : List UInt8) (n : Nat) : Prop where
  bytes : out.bytes.take out.offset = l
  offset : out.offset = l.length
  size : out.bytes.length = n

section

variable {out : Out} {l : List UInt8} {n : Nat}

theorem Wrote.push (h : Wrote out l n) : ∀ {cs : List UInt8}, l.length + cs.length ≤ n →
    Wrote (out.push cs) (l ++ cs) n := by
  intro cs
  induction cs generalizing out l with
  | nil =>
    intro _
    rw [List.append_nil]
    exact h
  | cons c cs ih =>
    intro hle
    rw [List.length_cons] at hle
    have hstep : Wrote ⟨out.bytes.set out.offset c, out.offset + 1⟩ (l ++ [c]) n := by
      refine ⟨?_, by simp [h.offset], by simpa using h.size⟩
      dsimp only
      rw [take_set_succ (by rw [h.size, h.offset]; omega), h.bytes]
    have hrest :=
      ih hstep (by simp only [List.length_append, List.length_cons, List.length_nil]; omega)
    rw [List.append_assoc] at hrest
    exact hrest

theorem Wrote.skip (h : Wrote out l n) {k : Nat} (hle : l.length + k ≤ n) :
    ∃ xs, xs.length = k ∧ Wrote (out.skip k) (l ++ xs) n := by
  refine ⟨(out.bytes.drop out.offset).take k, ?_, ?_, ?_, h.size⟩
  · rw [List.length_take, List.length_drop, h.size, h.offset]
    omega
  · rw [Out.skip, List.take_add, h.bytes]
  · rw [Out.skip, List.length_append, List.length_take, List.length_drop, h.size, h.offset]
    dsimp only
    omega

theorem Out.offset_push (out : Out) (cs : List UInt8) :
    (out.push cs).offset = out.offset + cs.length := by
  induction cs generalizing out with
  | nil => rfl
  | cons c cs ih =>
    refine (ih ⟨out.bytes.set out.offset c, out.offset + 1⟩).trans ?_
    rw [List.length_cons]
    dsimp only
    omega

theorem Out.offset_skip (out : Out) (n : Nat) : (out.skip n).offset = out.offset + n := rfl

theorem push_push (out : Out) (a b : List UInt8) : (out.push a).push b = out.push (a ++ b) := by
  simp [Out.push]

theorem push16_eq (out : Out) (value : UInt16) :
    out.push16 value = out.push (be16 value.toNat) := by
  rw [← put16be_bytes]
  rfl

theorem put16be_take (l : List UInt8) (n k : Nat) (value : UInt16) :
    (put16be l n value).take k = put16be (l.take k) n value := by
  simp [put16be, List.take_set]

theorem Out.put24be_take (l : List UInt8) (n k : Nat) (value : UInt32) :
    (Out.put24be l n value).take k = Out.put24be (l.take k) n value := by
  simp [Out.put24be, List.take_set]

theorem put16be_append {a b xs : List UInt8} {n : Nat} (hn : a.length = n) (hxs : xs.length = 2)
    (value : UInt16) : put16be (a ++ xs ++ b) n value = a ++ be16 value.toNat ++ b := by
  obtain ⟨x, y, rfl⟩ := List.length_eq_two.1 hxs
  subst hn
  rw [← put16be_bytes, put16be]
  simp

theorem Out.put24be_append {a b xs : List UInt8} {n : Nat} (hn : a.length = n) (hxs : xs.length = 3)
    (value : UInt32) : Out.put24be (a ++ xs ++ b) n value = a ++ be24 value.toNat ++ b := by
  obtain ⟨x, y, z, rfl⟩ := List.length_eq_three.1 hxs
  subst hn
  have hbytes : [(value >>> 16).toUInt8, (value >>> 8).toUInt8, value.toUInt8] =
      be24 value.toNat := by
    unfold be24
    refine congrArg₂ (fun a l => a :: l) ?_ (congrArg₂ (fun a b => [a, b]) ?_ ?_)
    · rw [← UInt8.toNat_inj]
      simp [Nat.shiftRight_eq_div_pow]
    · rw [← UInt8.toNat_inj]
      simp [Nat.shiftRight_eq_div_pow]
    · rw [← UInt8.toNat_inj]
      simp
  rw [← hbytes, Out.put24be]
  simp

theorem length_tlsClientRandom (tcpSyns : UInt32) : (tlsClientRandom tcpSyns).length = 32 := by
  simp [tlsClientRandom]

theorem length_extensions (host : List UInt8) : (extensions host).length = 35 + host.length := by
  simp only [extensions, extension, be16, List.length_append, List.length_cons, List.length_nil]
  omega

theorem length_bodyStart {random : List UInt8} (h : random.length = 32) :
    (bodyStart random).length = 47 := by
  simp only [bodyStart, be16, List.length_append, List.length_cons, List.length_nil, h]

theorem push_bodyStart (out : Out) (random : List UInt8) :
    ((((((((out.push [0x03, 0x03]).push random).push [0]).push16 8).push16 0xC02F).push16
      0xC02B).push16
      0x009C).push16 0x00FF).push [1, 0] = out.push (bodyStart random) := by
  simp only [push16_eq, push_push, List.append_assoc]
  simp [bodyStart, be16]

theorem push_extensions (out : Out) {host : List UInt8} (h : host.length ≤ 47) :
    ((((((((((((((((((out.push16 0x0000).push16 (UInt16.ofNat (5 + host.length))).push16
      (UInt16.ofNat (3 + host.length))).push [0]).push16 (UInt16.ofNat host.length)).push
        host).push16
      0x000A).push16 4).push16 2).push16 0x0017).push16 0x000B).push16 2).push [1, 0]).push16
      0x000D).push16 8).push16 6).push16 0x0401).push16 0x0501).push16 0x0403 =
      out.push (extensions host) := by
  simp only [push16_eq, push_push,
    UInt16.toNat_ofNat_of_lt' (show 5 + host.length < 65536 by omega),
      UInt16.toNat_ofNat_of_lt' (show 3 + host.length < 65536 by omega),
    UInt16.toNat_ofNat_of_lt' (show host.length < 65536 by omega)]
  have hdata : (be16 (3 + host.length) ++ ([0] ++ be16 host.length ++ host)).length = 5 +
      host.length := by
    simp only [be16, List.length_append, List.length_cons, List.length_nil]
    omega
  unfold extensions extension
  rw [hdata]
  simp [be16]

/-- The lengths that are filled in at the end. -/
theorem fill_lengths {out start rest : List UInt8} (hout : out.length = 160)
    (hstart : start.length = 47)
    (hrest : rest.length ≤ 82) {o : Out}
    (ho : o =
      ((((((Out.push ⟨out, 0⟩ [0x16, 0x03, 0x01]).skip 2).push [0x01]).skip 3).push start).skip
      2).push rest) : o.offset = 58 + rest.length ∧
    (put16be (Out.put24be (put16be o.bytes 56 (UInt16.ofNat (o.offset - 58))) 6
      (UInt32.ofNat (o.offset - 9))) 3
      (UInt16.ofNat (o.offset - 5))).take o.offset = [0x16, 0x03, 0x01] ++
        be16 (53 + rest.length) ++ [0x01] ++
        be24 (49 + rest.length) ++ (start ++ be16 rest.length ++ rest) := by
  have h₀ : Wrote ⟨out, 0⟩ [] 160 := ⟨rfl, rfl, hout⟩
  have h₁ : Wrote _ [0x16, 0x03, 0x01] 160 := h₀.push (by decide)
  obtain ⟨xs, hxs, h₂⟩ := h₁.skip (k := 2) (by decide)
  have h₃ : Wrote _ ([0x16, 0x03, 0x01] ++ xs ++ [0x01]) 160 := h₂.push (by simp [hxs])
  obtain ⟨ys, hys, h₄⟩ := h₃.skip (k := 3) (by simp [hxs])
  have h₅ : Wrote _ ([0x16, 0x03, 0x01] ++ xs ++ [0x01] ++ ys ++ start) 160 :=
    h₄.push (by simp [hxs, hys, hstart])
  obtain ⟨zs, hzs, h₆⟩ := h₅.skip (k := 2) (by simp [hxs, hys, hstart])
  have hfits : ([0x16, 0x03, 0x01] ++ xs ++ [0x01] ++ ys ++ start ++ zs).length +
      rest.length ≤ 160 := by
    simp only [List.length_append, hxs, hys, hzs, hstart, List.length_cons, List.length_nil]
    omega
  have h₇ : Wrote o ([0x16, 0x03, 0x01] ++ xs ++ [0x01] ++ ys ++ start ++ zs ++ rest) 160 := by
    rw [ho]
    exact h₆.push hfits
  have hoff : o.offset = 58 + rest.length := by
    rw [h₇.offset]
    simp only [List.length_append, hxs, hys, hzs, hstart, List.length_cons, List.length_nil]
  refine ⟨hoff, ?_⟩
  have hexts : (UInt16.ofNat (o.offset - 58)).toNat = rest.length := by
    rw [UInt16.toNat_ofNat_of_lt' (show o.offset - 58 < 65536 by omega)]
    omega
  have hbody : (UInt32.ofNat (o.offset - 9)).toNat = 49 + rest.length := by
    rw [UInt32.toNat_ofNat', Nat.mod_eq_of_lt (by omega)]
    omega
  have hrecord : (UInt16.ofNat (o.offset - 5)).toNat = 53 + rest.length := by
    rw [UInt16.toNat_ofNat_of_lt' (show o.offset - 5 < 65536 by omega)]
    omega
  rw [put16be_take, Out.put24be_take, put16be_take, h₇.bytes,
    put16be_append (by simp [hxs, hys, hstart]) hzs, hexts]
  have hsplit : [0x16, 0x03, 0x01] ++ xs ++ [0x01] ++ ys ++ start ++ be16 rest.length ++ rest =
      [0x16, 0x03, 0x01] ++ xs ++ [0x01] ++ ys ++ (start ++ be16 rest.length ++ rest) := by
    simp only [List.append_assoc]
  rw [hsplit, Out.put24be_append (by simp [hxs]) hys, hbody]
  have hsplit' : [0x16, 0x03, 0x01] ++ xs ++ [0x01] ++ be24 (49 + rest.length) ++
      (start ++ be16 rest.length ++ rest) = [0x16, 0x03, 0x01] ++ xs ++
        ([0x01] ++ be24 (49 + rest.length) ++
        (start ++ be16 rest.length ++ rest)) := by
    simp only [List.append_assoc]
  rw [hsplit', put16be_append (n := 3) rfl hxs, hrecord]
  simp only [List.append_assoc]

/-- The ClientHello is written as a whole. -/
theorem buildTlsClientHello_eq {host out : List UInt8} (tcpSyns : UInt32) (hne : host ≠ [])
    (hlen : host.length ≤ 47) (hout : out.length = 160) : buildTlsClientHello host tcpSyns out 160 =
      some (clientHello (tlsClientRandom tcpSyns) host, tlsClientRandom tcpSyns) := by
  have hpos : 0 < host.length := List.length_pos_iff.2 hne
  have hext := length_extensions host
  have hstart := length_bodyStart (length_tlsClientRandom tcpSyns)
  unfold buildTlsClientHello
  rw [if_neg hne]
  dsimp only
  rw [if_neg (by simp only [Bool.or_eq_true, decide_eq_true_eq]; omega), push_bodyStart,
    push_extensions _ hlen]
  generalize tlsClientRandom tcpSyns = random at *
  obtain ⟨hoff, hfill⟩ := fill_lengths hout hstart (show (extensions host).length ≤ 82 by omega) rfl
  have hbody : (body random host).length = 49 + (extensions host).length := by
    simp only [body, be16, List.length_append, hstart, List.length_cons, List.length_nil]
  unfold clientHello
  rw [hbody]
  simp only [Out.offset_push, Out.offset_skip, hstart, List.length_cons,
    List.length_nil] at hoff hfill ⊢
  rw [if_neg (by omega)]
  have hrecord : 4 + (49 + (extensions host).length) = 53 + (extensions host).length := by omega
  rw [hrecord]
  refine congrArg (fun l => some (l, random)) ?_
  exact hfill

/-! ## What the parser reads -/

theorem length_le_flatten : ∀ {pieces : List (List UInt8)}, (∀ l ∈ pieces, l ≠ []) →
    pieces.length ≤ pieces.flatten.length
  | [], _ => Nat.le_refl _
  | l :: pieces, h => by
    have hpos : 0 < l.length := List.length_pos_iff.2 (h l (List.mem_cons_self ..))
    have ih := length_le_flatten fun l hl => h l (List.mem_cons_of_mem _ hl)
    rw [List.flatten_cons, List.length_append, List.length_cons]
    omega

/-- A vector behind its length, in pieces. -/
theorem reads_many {α : Type} {p : Parse α} {n : Nat} (pieces : List (List UInt8 × α))
    {l : List UInt8}
    (hl : (pieces.map Prod.fst).flatten = l) (hn : l.length = n)
    (h : ∀ x ∈ pieces, x.1 ≠ [] ∧ Reads p x.1 x.2) :
    Reads (within n (many p (n + 1))) l (pieces.map Prod.snd) := by
  subst hl
  refine .within (whole_many ?_ h) hn
  have hle : (pieces.map Prod.fst).length ≤ (pieces.map Prod.fst).flatten.length := by
    refine length_le_flatten ?_
    intro l hl
    obtain ⟨x, hx, rfl⟩ := List.mem_map.1 hl
    exact (h x hx).1
  rw [List.length_map] at hle
  omega

theorem length_numbers (numbers : List Nat) :
    (numbers.map be16).flatten.length = 2 * numbers.length := by
  induction numbers with
  | nil => rfl
  | cons x numbers ih =>
    rw [List.map_cons, List.flatten_cons, List.length_append, ih, List.length_cons]
    simp only [be16, List.length_cons, List.length_nil]
    omega

theorem reads_parseNumbers (numbers : List Nat) (h : ∀ x ∈ numbers, x < 65536) {n : Nat}
    (hn : 2 * numbers.length = n) (hlt : n < 65536) :
    Reads parseNumbers (be16 n ++ (numbers.map be16).flatten) numbers := by
  refine (Reads.u16 hlt).bind ?_
  have hmany := reads_many (p := u16) (n := n) (l := (numbers.map be16).flatten)
    (numbers.map fun x => (be16 x, x)) ?_ ?_ ?_
  · simpa [Function.comp_def] using hmany
  · simp [Function.comp_def]
  · rw [length_numbers, hn]
  · intro x hx
    obtain ⟨y, hy, rfl⟩ := List.mem_map.1 hx
    exact ⟨List.cons_ne_nil _ _, .u16 (h y hy)⟩

theorem reads_parseServerName {host : List UInt8} (hne : host ≠ []) (hlen : host.length < 65536) :
    Reads parseServerName ([0] ++ be16 host.length ++ host) host := by
  have hpos : 0 < host.length := List.length_pos_iff.2 hne
  rw [List.append_assoc]
  refine (Reads.u8 (n := 0) (by decide)).bind ?_
  refine (Reads.check rfl).bind_nil ?_
  refine (Reads.u16 hlen).bind ?_
  refine (Reads.check hpos).bind_nil ?_
  exact .take rfl

theorem reads_extension {type : Nat} {data : List UInt8} {x : Extension} (htype : type < 65536)
    (hlen : data.length < 65536) (h : Reads (parseExtensionData type data.length) data x) :
    Reads parseExtension (extension type data) x := by
  unfold extension
  rw [List.append_assoc]
  refine (Reads.u16 htype).bind ?_
  refine (Reads.u16 hlen).bind ?_
  exact .within (whole_of_reads h) rfl

theorem reads_serverNames {host : List UInt8} (hne : host ≠ []) (hlen : host.length ≤ 47) :
    Reads parseExtension (extension 0 (be16 (3 + host.length) ++ ([0] ++ be16 host.length ++ host)))
      (.serverName [host]) := by
  have hbytes : ([0] ++ be16 host.length ++ host).length = 3 + host.length := by
    simp only [be16, List.length_append, List.length_cons, List.length_nil]
  refine reads_extension (by decide) ?_ ?_
  · rw [List.length_append, hbytes]
    simp only [be16, List.length_cons, List.length_nil]
    omega
  · unfold parseExtensionData
    rw [if_pos rfl]
    refine (Reads.u16 (by omega)).bind ?_
    refine Reads.map (f := Extension.serverName) ?_
    refine reads_many [([0] ++ be16 host.length ++ host, host)] (by simp) hbytes ?_
    intro x hx
    rw [List.mem_singleton.1 hx]
    exact ⟨by simp, reads_parseServerName hne (by omega)⟩

theorem reads_supportedGroups : Reads parseExtension (extension 10 (be16 2 ++ be16 23))
    (.supportedGroups [23]) := by
  refine reads_extension (by decide) (by decide) ?_
  refine Reads.map (f := Extension.supportedGroups) ?_
  exact reads_parseNumbers [23] (by decide) rfl (by decide)

theorem reads_ecPointFormats :
    Reads parseExtension (extension 11 [1, 0]) (.ecPointFormats [0]) := by
  refine reads_extension (by decide) (by decide) ?_
  refine (Reads.u8 (n := 1) (by decide)).bind ?_
  refine Reads.map (f := Extension.ecPointFormats) ?_
  refine reads_many [([0], 0)] rfl rfl ?_
  intro x hx
  rw [List.mem_singleton.1 hx]
  exact ⟨List.cons_ne_nil _ _, .u8 (n := 0) (by decide)⟩

theorem reads_signatureAlgorithms :
    Reads parseExtension (extension 13 (be16 6 ++ (be16 0x0401 ++ be16 0x0501 ++ be16 0x0403)))
      (.signatureAlgorithms [0x0401, 0x0501, 0x0403]) := by
  refine reads_extension (by decide) (by decide) ?_
  refine Reads.map (f := Extension.signatureAlgorithms) ?_
  exact reads_parseNumbers [0x0401, 0x0501, 0x0403] (by decide) rfl (by decide)

/-- What the extensions say. -/
def offers (host : List UInt8) : List Extension :=
  [.serverName [host], .supportedGroups [23], .ecPointFormats [0],
    .signatureAlgorithms [0x0401, 0x0501, 0x0403]]

theorem reads_extensions {host : List UInt8} (hne : host ≠ []) (hlen : host.length ≤ 47) {n : Nat}
    (hn : (extensions host).length = n) :
    Reads (within n (many parseExtension (n + 1))) (extensions host) (offers host) := by
  refine reads_many [(extension 0 (be16 (3 + host.length) ++ ([0] ++ be16 host.length ++ host)),
    Extension.serverName [host]),
      (extension 10 (be16 2 ++ be16 23), Extension.supportedGroups [23]),
    (extension 11 [1, 0], Extension.ecPointFormats [0]),
    (extension 13 (be16 6 ++ (be16 0x0401 ++ be16 0x0501 ++ be16 0x0403)),
      Extension.signatureAlgorithms [0x0401, 0x0501, 0x0403])] (by simp [extensions]) hn ?_
  have hne' (type : Nat) (data : List UInt8) : extension type data ≠ [] := List.cons_ne_nil _ _
  simp only [List.forall_mem_cons, List.not_mem_nil, false_implies, implies_true, and_true]
  exact ⟨⟨hne' _ _, reads_serverNames hne hlen⟩, ⟨hne' _ _, reads_supportedGroups⟩,
    ⟨hne' _ _, reads_ecPointFormats⟩, ⟨hne' _ _, reads_signatureAlgorithms⟩⟩

theorem reads_parseBody {random host : List UInt8} (hrandom : random.length = 32) (hne : host ≠ [])
    (hlen : host.length ≤ 47) : Reads parseBody (body random host)
      ⟨random, [], [0xC02F, 0xC02B, 0x009C, 0x00FF], [0], offers host⟩ := by
  have hbody : body random host = be16 0x0303 ++ (random ++ ([0] ++ ([] ++
      ((be16 8 ++ ([0xC02F, 0xC02B, 0x009C, 0x00FF].map be16).flatten) ++ ([1] ++ ([0] ++
        (be16 (extensions host).length ++ extensions host))))))) := by
    simp [body, bodyStart]
  have hext := length_extensions host
  rw [hbody]
  refine (Reads.u16 (by decide)).bind ?_
  refine (Reads.check rfl).bind_nil ?_
  refine (Reads.take hrandom).bind ?_
  refine (Reads.u8 (n := 0) (by decide)).bind ?_
  refine (Reads.check (by decide)).bind_nil ?_
  refine (Reads.take (l := []) rfl).bind ?_
  refine (reads_parseNumbers [0xC02F, 0xC02B, 0x009C, 0x00FF] (by decide) rfl (by decide)).bind ?_
  refine (Reads.check (by decide)).bind_nil ?_
  refine (Reads.u8 (n := 1) (by decide)).bind ?_
  refine (reads_many (p := u8) [([0], 0)] rfl rfl ?_).bind ?_
  · intro x hx
    rw [List.mem_singleton.1 hx]
    exact ⟨List.cons_ne_nil _ _, .u8 (n := 0) (by decide)⟩
  refine (Reads.check (by decide)).bind_nil ?_
  refine (Reads.u16 (by omega)).bind ?_
  exact (reads_extensions hne hlen rfl).map

theorem whole_clientHello {random host : List UInt8} (hrandom : random.length = 32)
    (hne : host ≠ [])
    (hlen : host.length ≤ 47) : whole parseClientHello (clientHello random host) =
      some ⟨random, [], [0xC02F, 0xC02B, 0x009C, 0x00FF], [0], offers host⟩ := by
  have hext := length_extensions host
  have hbody : (body random host).length = 49 + (extensions host).length := by
    simp only [body, be16, List.length_append, length_bodyStart hrandom, List.length_cons,
      List.length_nil]
  have hhello : clientHello random host = [0x16] ++
    (be16 0x0301 ++ (be16 (4 + (body random host).length) ++
      ([0x01] ++ (be24 (body random host).length ++ body random host)))) := by
    simp [clientHello, be16]
  rw [hhello]
  refine whole_of_reads ?_
  refine (Reads.u8 (n := 22) (by decide)).bind ?_
  refine (Reads.check rfl).bind_nil ?_
  refine (Reads.u16 (by decide)).bind ?_
  refine (Reads.check (by decide)).bind_nil ?_
  refine (Reads.u16 (by omega)).bind ?_
  refine (Reads.check (by omega)).bind_nil ?_
  refine .within (whole_of_reads ?_) ?_
  · refine (Reads.u8 (n := 1) (by decide)).bind ?_
    refine (Reads.check rfl).bind_nil ?_
    refine (Reads.u24 (by omega)).bind ?_
    exact .within (whole_of_reads (reads_parseBody hrandom hne hlen)) rfl
  · simp only [be24, List.length_append, List.length_cons, List.length_nil]
    omega

/-- The reference parser accepts the ClientHello to its last byte, and reads the host and the client
random back. -/
theorem clientHello_accepted (httpHost : List UInt8) (tcpSyns : UInt32) (out : List UInt8)
    (hpos : 1 ≤ httpHost.length) (hmax : httpHost.length ≤ 47) (hout : out.length = 160) :
    ∃ bytes random, buildTlsClientHello httpHost tcpSyns out 160 = some (bytes, random) ∧
      bytes.length ≤ 160 ∧ random.length = 32 ∧ whole parseClientHello bytes =
        some ⟨random, [], [0xC02F, 0xC02B, 0x009C, 0x00FF], [0],
          [.serverName [httpHost], .supportedGroups [23], .ecPointFormats [0],
            .signatureAlgorithms [0x0401, 0x0501, 0x0403]]⟩ := by
  have hne : httpHost ≠ [] := List.length_pos_iff.1 hpos
  have hrandom := length_tlsClientRandom tcpSyns
  refine ⟨_, _, buildTlsClientHello_eq tcpSyns hne hmax hout, ?_, hrandom,
    whole_clientHello hrandom hne hmax⟩
  simp only [clientHello, body, be16, be24, List.length_append, List.length_cons, List.length_nil,
    length_bodyStart hrandom, length_extensions]
  omega

/-- A host of one byte. -/
theorem clientHello_accepted_short : ∃ bytes random,
    buildTlsClientHello [97] 3 (List.replicate 160 0) 160 = some (bytes, random) ∧
      bytes.length ≤ 160 ∧ random.length = 32 ∧ whole parseClientHello bytes =
        some ⟨random, [], [0xC02F, 0xC02B, 0x009C, 0x00FF], [0],
          [.serverName [[97]], .supportedGroups [23], .ecPointFormats [0],
            .signatureAlgorithms [0x0401, 0x0501, 0x0403]]⟩ :=
  clientHello_accepted [97] 3 (List.replicate 160 0) (by decide) (by decide) List.length_replicate

end

end MinervaOS.Tls
