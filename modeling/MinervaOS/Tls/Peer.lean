import MinervaOS.Crypto.GcmLoops
import MinervaOS.Crypto.Prf
import MinervaOS.Tls.AppData
import MinervaOS.Tls.Session
import MinervaOS.Tls.Signing

/-!
# The other side of a session

What a server does that follows the standard, for the suite that the client can go through with:
its half of the key exchange, the secrets that both halves give it, and its records.
-/

namespace MinervaOS.Tls

open Crypto Net

/-! ## Points on the wire -/

/-- The coordinates of a finite point, in 32 bytes each. -/
structure PointBytes (P : p256Curve.Point) (x y : List UInt8) : Prop where
  x_length : x.length = 32
  y_length : y.length = 32
  point : ∃ u v h, P = WeierstrassCurve.Affine.Point.some u v h ∧
    p256FeFromBe32 x = u.val ∧ p256FeFromBe32 y = v.val

/-- The secret that a point is worth: its `x`. -/
def SecretOf (P : p256Curve.Point) (secret : List UInt8) : Prop :=
  ∃ u v h, P = WeierstrassCurve.Affine.Point.some u v h ∧ secret = p256FeToBe32 u.val

theorem SecretOf.unique {P : p256Curve.Point} {a b : List UInt8} (ha : SecretOf P a)
    (hb : SecretOf P b) : a = b := by
  obtain ⟨u, v, h, rfl, rfl⟩ := ha
  obtain ⟨u', v', h', heq, rfl⟩ := hb
  cases heq
  rfl

/-- Bytes behind the 32 of a number do not count. -/
theorem feFromBe32_append {src : List UInt8} (h : src.length = 32) (rest : List UInt8) :
    p256FeFromBe32 (src ++ rest) = p256FeFromBe32 src := by
  refine List.foldl_ext _ _ _ fun value i hi => ?_
  rw [List.mem_range] at hi
  rw [List.getD_append _ _ _ _ (by omega)]

theorem length_feToBe32 (a : ℕ) : (p256FeToBe32 a).length = 32 := by
  rw [p256FeToBe32, List.length_map, List.length_range]

theorem val_lt (u : ZMod p256P) : u.val < 2 ^ 256 :=
  Nat.lt_trans (ZMod.val_lt u) (by decide)

/-- A finite point of the code has the coordinates of the one that it stands for. -/
theorem coords_of_some {p : P256Point} {u v : ZMod p256P} {h : p256Curve.Nonsingular u v}
    (hp : p.Is (.some u v h)) : p = ⟨u.val, v.val, false⟩ := by
  have hx := x_of_some hp
  have hfinite : p.infinity = false := by
    rw [← Bool.not_eq_true, infinity_iff hp]
    exact WeierstrassCurve.Affine.Point.some_ne_zero h
  have ha := hp.affine
  rw [P256Point.affine, hfinite] at ha
  have hy : (p.y : ZMod p256P) = v := (Prod.mk.inj (Option.some.inj ha)).2
  have hy' : p.y = v.val := by rw [← hy, ZMod.val_natCast_of_lt hp.canonical.y_lt]
  cases p
  cases hx
  cases hy'
  cases hfinite
  rfl

theorem PointBytes.read {P : p256Curve.Point} {x y : List UInt8} (h : PointBytes P x y)
    (restX restY : List UInt8) :
    ∃ p, p256PointFromBe32 p256FeMul (x ++ restX) (y ++ restY) = some p ∧ p.Is P := by
  obtain ⟨u, v, hon, rfl, hx, hy⟩ := h.point
  refine ⟨⟨u.val, v.val, false⟩, ?_, ⟨ZMod.val_lt u, ZMod.val_lt v⟩, ?_⟩
  · have hcurve : p256PointOnCurve p256FeMul ⟨u.val, v.val, false⟩ = true :=
      (pointOnCurve_iff u v).2 hon.1
    have hbound : ¬((decide (u.val ≥ p256P) || decide (v.val ≥ p256P)) = true) := by
      have := ZMod.val_lt u
      have := ZMod.val_lt v
      simp only [Bool.or_eq_true, decide_eq_true_eq]
      omega
    rw [p256PointFromBe32, feFromBe32_append h.x_length, feFromBe32_append h.y_length, hx, hy,
      if_neg hbound]
    dsimp only
    rw [if_pos hcurve]
  · show (if false = true then none else some _) = _
    rw [if_neg Bool.false_ne_true, ZMod.natCast_zmod_val, ZMod.natCast_zmod_val]
    rfl

theorem pointBytes_of_is {p : P256Point} {P : p256Curve.Point} (hp : p.Is P) (hne : P ≠ 0) :
    p.infinity = false ∧ PointBytes P (p256FeToBe32 p.x) (p256FeToBe32 p.y) ∧
      SecretOf P (p256FeToBe32 p.x) := by
  cases P with
  | zero => exact absurd rfl hne
  | some u v h =>
    obtain rfl := coords_of_some hp
    exact ⟨rfl, ⟨length_feToBe32 _, length_feToBe32 _, u, v, h, rfl,
      feFromBe32_toBe32 (val_lt u), feFromBe32_toBe32 (val_lt v)⟩, u, v, h, rfl, rfl⟩

/-! ## The key exchange -/

/-- The scalar of the client, which is below the order. -/
def clientScalar : ZMod p256N := (p256FeFromBe32 tlsClientScalar : ℕ)

theorem val_clientScalar : clientScalar.val = p256FeFromBe32 tlsClientScalar :=
  ZMod.val_natCast_of_lt (by decide)

theorem clientScalar_ne_zero : clientScalar ≠ 0 := by
  rw [← ZMod.val_ne_zero, val_clientScalar]
  decide

theorem times_generator_ne_zero {a : ZMod p256N} (ha : a ≠ 0) : times a generator ≠ 0 := fun h =>
  ha ((times_eq_zero_iff order_generator generator_ne_zero a).1 h)

/-- The code multiplies by the scalar of the client. -/
theorem mul_clientScalar_is {p : P256Point} {P : p256Curve.Point} (hp : p.Is P) :
    (p256PointMulBe32Projective p256FeMul p tlsClientScalar).Is (times clientScalar P) := by
  rw [times, val_clientScalar]
  exact pointMulBe32Projective_is hp _

/-- The message of the client around its point. -/
def clientKeyExchange (x y : List UInt8) : List UInt8 :=
  0x10 :: (put24be 66 ++ 65 :: 0x04 :: (x ++ y))

/-- The client sends its point. -/
theorem buildTlsClientKeyExchange_eq : ∃ x y, PointBytes (times clientScalar generator) x y ∧
    buildTlsClientKeyExchange p256FeMul 80 =
      some (0x16 :: 0x03 :: 0x03 :: (put16be 70 ++ clientKeyExchange x y)) := by
  obtain ⟨hfinite, hbytes, -⟩ := pointBytes_of_is (mul_clientScalar_is basePoint_is)
    (times_generator_ne_zero clientScalar_ne_zero)
  obtain ⟨p, hread, -⟩ := hbytes.read [] []
  rw [List.append_nil, List.append_nil] at hread
  refine ⟨_, _, hbytes, ?_⟩
  have hvalid : p256ScalarValidBe32 tlsClientScalar = true := by decide
  unfold buildTlsClientKeyExchange
  rw [if_neg (by decide), hvalid, if_neg (by decide)]
  generalize p256PointMulBe32Projective p256FeMul p256BasePoint tlsClientScalar = pub at *
  have hbody : (65 :: 0x04 :: (p256FeToBe32 pub.x ++ p256FeToBe32 pub.y)).length = 66 := by
    rw [List.length_cons, List.length_cons, List.length_append, hbytes.x_length, hbytes.y_length]
  have hmessage : (clientKeyExchange (p256FeToBe32 pub.x) (p256FeToBe32 pub.y)).length = 70 := by
    rw [clientKeyExchange, List.length_cons, List.length_append, hbody]
    rfl
  have hnone : (p256PointFromBe32 p256FeMul (p256FeToBe32 pub.x) (p256FeToBe32 pub.y)).isNone =
      false := by rw [hread]; rfl
  dsimp only
  rw [hfinite, if_neg Bool.false_ne_true, hnone, if_neg Bool.false_ne_true, hbody]
  rw [clientKeyExchange] at hmessage ⊢
  rw [hmessage]

/-- What a server with the scalar `t` has sent of the key exchange, as the client holds it. -/
structure Offers (t : ZMod p256N) (k : Kex) : Prop where
  serverKeyExchange : k.serverKeyExchange = true
  pubkeyValid : k.pubkeyValid = true
  params : ∃ x y, PointBytes (times t generator) x y ∧
    k.params = 0x03 :: 0x00 :: 0x17 :: 65 :: 0x04 :: (x ++ y)

/-- Both sides come to the same secret: the client from the point of the server, the server from
that of the client. -/
theorem deriveKeys_agree {s : Tls} {t : ZMod p256N} (hkex : Offers t s.kex) (ht : t ≠ 0)
    (hclient : s.clientKeyExchange = true) :
    ∃ secret, SecretOf (times t (times clientScalar generator)) secret ∧
      netTlsDeriveKeys p256FeMul s =
        (true, { s with keys := deriveFrom secret s.clientRandom s.serverRandom }) := by
  obtain ⟨x, y, hbytes, hparams⟩ := hkex.params
  obtain ⟨p, hread, hp⟩ := hbytes.read y []
  have hne : times clientScalar (times t generator) ≠ 0 := by
    rw [times_times order_generator]
    exact times_generator_ne_zero (mul_ne_zero clientScalar_ne_zero ht)
  obtain ⟨hfinite, -, hsecret⟩ := pointBytes_of_is (mul_clientScalar_is hp) hne
  rw [times_comm] at hsecret
  refine ⟨_, hsecret, ?_⟩
  have hx : s.kex.params.drop 5 = x ++ y := by
    rw [hparams]
    rfl
  have hy : s.kex.params.drop 37 = y ++ [] := by
    have h : s.kex.params.drop (5 + 32) = y ++ [] := by
      rw [← List.drop_drop, hx, List.drop_left' hbytes.x_length, List.append_nil]
    exact h
  have hshape : (decide (s.kex.params.length < 69) || get8 s.kex.params 3 != 65 ||
      get8 s.kex.params 4 != 0x04) = false := by
    have hlen : ¬s.kex.params.length < 69 := by
      rw [hparams]
      simp only [List.length_cons, List.length_append, hbytes.x_length, hbytes.y_length]
      omega
    rw [decide_eq_false hlen, hparams]
    rfl
  unfold netTlsDeriveKeys
  simp only [hclient, hkex.pubkeyValid, hshape, hx, hy, hread, hfinite, Bool.not_true,
    Bool.false_eq_true, if_false]

/-! ## The secrets of the standard -/

/-- The pseudorandom function of the standard. -/
def prf (secret : List UInt8) (label : String) (seed : List UInt8) (length : ℕ) : List UInt8 :=
  (KeyedHash.pHash (PrfBuffers.standardHmac secret) (chars label ++ seed) ((length + 31) / 32)).take
    length

theorem length_prf (secret : List UInt8) (label : String) (seed : List UInt8) (length : ℕ) :
    (prf secret label seed length).length = length := by
  rw [prf, List.length_take, KeyedHash.length_pHash _ (PrfBuffers.length_standardHmac secret)]
  omega

theorem prfSha256_eq (label : String) {seed : List UInt8} (secret : List UInt8)
    (h : (chars label).length + seed.length ≤ 128) (length : ℕ) :
    netTlsPrfSha256 secret (chars label) seed length = some (prf secret label seed length) :=
  PrfBuffers.prf_functional secret h length

/-- What both sides make of the shared secret. -/
def peerKeys (secret clientRandom serverRandom : List UInt8) : Keys :=
  let masterSecret := prf secret "master secret" (clientRandom ++ serverRandom) 48
  { sharedSecretValid := true
    sharedSecret := secret
    masterSecretValid := true
    masterSecret
    keyBlockValid := true
    keyBlock := prf masterSecret "key expansion" (serverRandom ++ clientRandom) 40 }

theorem deriveFrom_eq {clientRandom serverRandom : List UInt8} (secret : List UInt8)
    (hclient : clientRandom.length = 32) (hserver : serverRandom.length = 32) :
    deriveFrom secret clientRandom serverRandom = peerKeys secret clientRandom serverRandom := by
  have hseed : (clientRandom ++ serverRandom).length = 64 := by
    rw [List.length_append, hclient, hserver]
  have hseed' : (serverRandom ++ clientRandom).length = 64 := by
    rw [List.length_append, hclient, hserver]
  have hmaster := prfSha256_eq "master secret" secret (by rw [hseed]; decide) 48
  have hblock := fun masterSecret =>
    prfSha256_eq "key expansion" masterSecret (by rw [hseed']; decide) 40
  unfold deriveFrom peerKeys
  simp only [hmaster, hblock, Option.getD_some]

/-- The data of a Finished message. -/
def peerVerifyData (masterSecret : List UInt8) (label : String) (transcript : List UInt8) :
    List UInt8 :=
  prf masterSecret label (sha256Hash transcript) 12

theorem verifyData_eq (label : String) (masterSecret transcript : List UInt8)
    (h : (chars label).length ≤ 96) :
    verifyData masterSecret label transcript = some (peerVerifyData masterSecret label transcript) :=
  prfSha256_eq label masterSecret (by rw [PrfBuffers.length_sha256Hash]; omega) 12

/-! ## Records of the standard -/

/-- What is authenticated along with record `number` of a direction. -/
def peerAad (number : ℕ) (type : UInt8) (length : ℕ) : List UInt8 :=
  (List.range 8).map (fun i => UInt8.ofNat (number / 256 ^ (7 - i))) ++ [type, 0x03, 0x03] ++
    put16be length

/-- The body of record `number`, with the part of the nonce that is sent along. -/
def sealBody (key iv : List UInt8) (number : ℕ) (type : UInt8) (explicit plain : List UInt8) :
    List UInt8 :=
  let (cipher, tag) := aes128GcmEncrypt key (iv ++ explicit) (peerAad number type plain.length) plain
  explicit ++ (cipher ++ tag)

/-- What the body of record `number` says, if it is authentic. -/
def openBody (key iv : List UInt8) (number : ℕ) (type : UInt8) (body : List UInt8) :
    Option (List UInt8) :=
  let length := body.length - 8 - 16
  aes128GcmDecrypt key (iv ++ body.take 8) (peerAad number type length) ((body.drop 8).take length)
    (body.drop (8 + length))

def clientKey (k : Keys) : List UInt8 := k.keyBlock.take 16
def serverKey (k : Keys) : List UInt8 := (k.keyBlock.drop 16).take 16
def clientIv (k : Keys) : List UInt8 := (k.keyBlock.drop 32).take 4
def serverIv (k : Keys) : List UInt8 := (k.keyBlock.drop 36).take 4

theorem recordAad_eq (number type : UInt8) (length : ℕ) :
    recordAad number type length = peerAad number.toNat type length := by
  have hhigh : ∀ k, UInt8.ofNat (number.toNat / 256 ^ (k + 1)) = 0 := fun k => by
    rw [Nat.div_eq_of_lt (Nat.lt_of_lt_of_le number.toNat_lt (Nat.le_self_pow k.succ_ne_zero 256))]
    rfl
  have hlow : UInt8.ofNat (number.toNat / 256 ^ 0) = number := by
    rw [pow_zero, Nat.div_one, UInt8.ofNat_toNat]
  have hrange : (List.range 8).map (fun i => UInt8.ofNat (number.toNat / 256 ^ (7 - i))) =
      [0, 0, 0, 0, 0, 0, 0, number] := by
    rw [show List.range 8 = [0, 1, 2, 3, 4, 5, 6, 7] from rfl]
    simp only [List.map_cons, List.map_nil, Nat.reduceSub, hhigh, hlow]
  rw [peerAad, hrange]
  rfl

theorem decryptRecord_eq (k : Keys) (number type : UInt8) (body : List UInt8) :
    decryptRecord k number type body = openBody (serverKey k) (serverIv k) number.toNat type body := by
  rw [decryptRecord, recordAad_eq]
  rfl

theorem encryptRecord_eq (k : Keys) (number type : UInt8) (plain : List UInt8) :
    encryptRecord k number type plain = type :: 0x03 :: 0x03 :: (put16be (8 + plain.length + 16) ++
      sealBody (clientKey k) (clientIv k) number.toNat type [0, 0, 0, 0, 0, 0, 0, number] plain) := by
  rw [encryptRecord, recordAad_eq]
  rfl

section

variable {key explicit : List UInt8} (iv : List UInt8) (type : UInt8) (plain : List UInt8)

theorem length_sealBody (hkey : key.length = 16) (hexplicit : explicit.length = 8) (number : ℕ) :
    (sealBody key iv number type explicit plain).length = 8 + plain.length + 16 := by
  rw [sealBody, aes128GcmEncrypt]
  simp only [List.length_append, hexplicit, GcmLoops.length_gcmCrypt hkey,
    GcmLoops.length_gcmTag hkey, Nat.add_assoc]

/-- A record is opened under the number for which its tag is right. -/
theorem openBody_sealBody (hkey : key.length = 16) (hexplicit : explicit.length = 8)
    (number expected : ℕ) :
    openBody key iv expected type (sealBody key iv number type explicit plain) =
      if gcmTag key (iv ++ explicit) (peerAad expected type plain.length)
            (gcmCrypt key (iv ++ explicit) plain) =
          gcmTag key (iv ++ explicit) (peerAad number type plain.length)
            (gcmCrypt key (iv ++ explicit) plain) then some plain
      else none := by
  have hlen : (sealBody key iv number type explicit plain).length - 8 - 16 = plain.length := by
    rw [length_sealBody iv type plain hkey hexplicit]
    omega
  have hcipher := GcmLoops.length_gcmCrypt hkey (iv ++ explicit) plain
  unfold openBody
  rw [hlen]
  rw [sealBody, aes128GcmEncrypt]
  dsimp only
  rw [List.take_left' hexplicit, List.drop_left' hexplicit, ← List.drop_drop,
    List.drop_left' hexplicit, List.take_left' hcipher, List.drop_left' hcipher, aes128GcmDecrypt,
    GcmLoops.gcmCrypt_gcmCrypt hkey]

end

end MinervaOS.Tls
