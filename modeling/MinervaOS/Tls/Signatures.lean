import MinervaOS.Crypto.Sha256Buffer
import MinervaOS.Lib.Der
import MinervaOS.Tls.DerBounds
import MinervaOS.Tls.Handshake

/-!
# The two walks over a signature

`net_tls_parse_kex_ecdsa_sig` and the end of `net_tls_parse_certificate_signature` each walk over a
sequence of two integers, on fields of their own. Both are spelled out here as they stand in the
source. They leave the same fields on the same bytes (`kex_eq_certificate`), are what the parsers of
the handshake and of the certificates run (`certificate_eq_run`), and decode what DER encodes
(`signatures_agree`).
-/

namespace MinervaOS.Tls

namespace Signatures

open Crypto Reader
open BlockBuffer (writeFrom)

/-- The fields for a signature, those of the key exchange or those of a certificate. -/
structure Signature where
  rLen : UInt8
  r32 : UInt32
  r : List UInt8
  sLen : UInt8
  s32 : UInt32
  s : List UInt8

/-- `while (r_len > 1 && *r == 0) { r++; r_len--; }`, with a bound on its rounds. -/
def skipZeros (sig : Memory) : ℕ → UInt32 → UInt32 → UInt32 × UInt32
  | 0, r, rLen => (r, rLen)
  | steps + 1, r, rLen =>
    if rLen > 1 && sig r == 0 then skipZeros sig steps (r + 1) (rLen - 1) else (r, rLen)

/-- The bytes at `r` to the right in a field of 32 zeros. -/
def alignRight (sig : Memory) (r rLen : UInt32) : List UInt8 :=
  writeFrom (List.replicate 32 0) (32 - rLen.toNat) (stretch sig r rLen.toNat)

/-- The loop of `r32`. -/
def first32 (sig : Memory) (r rLen : UInt32) : UInt32 :=
  (List.range 4).foldl (fun r32 i =>
    if i < rLen.toNat then (r32 <<< 8) ||| (sig (r + UInt32.ofNat i)).toUInt32 else r32) 0

/-- The assignments for `r`: an integer that is too long leaves the bytes. -/
def assignR (sig : Memory) (r rLen : UInt32) (g : Signature) : Signature :=
  let g := { g with rLen := rLen.toUInt8, r32 := 0 }
  let g := if rLen ≤ 32 then { g with r := alignRight sig r rLen } else g
  { g with r32 := first32 sig r rLen }

def assignS (sig : Memory) (s sLen : UInt32) (g : Signature) : Signature :=
  let g := { g with sLen := sLen.toUInt8, s32 := 0 }
  let g := if sLen ≤ 32 then { g with s := alignRight sig s sLen } else g
  { g with s32 := first32 sig s sLen }

/-- `net_tls_parse_kex_ecdsa_sig`; positions count from `sig`. -/
def netTlsParseKexEcdsaSig (sig : Memory) (sigLen : UInt16) (g : Signature) : Signature :=
  if sigLen < 8 || sig 0 != 0x30 then g
  else
    match derSequenceLen sig 0 sigLen.toUInt32 with
    | none => g
    | some (seqLen, seqHeaderLen) =>
      if seqHeaderLen + seqLen > sigLen.toUInt32 then g
      else
        let ipos := seqHeaderLen
        if ipos + 2 > sigLen.toUInt32 || sig ipos != 0x02 then g
        else
          match derLen sig ipos (sigLen.toUInt32 - ipos) with
          | none => g
          | some (rEncodedLen, rHeaderLen) =>
            if rEncodedLen > 255 || ipos + rHeaderLen + rEncodedLen > sigLen.toUInt32 then g
            else
              let (r, rLen) := skipZeros sig rEncodedLen.toNat (ipos + rHeaderLen) rEncodedLen
              let g := assignR sig r rLen g
              let ipos := ipos + (rHeaderLen + rEncodedLen)
              if ipos + 2 > sigLen.toUInt32 || sig ipos != 0x02 then g
              else
                match derLen sig ipos (sigLen.toUInt32 - ipos) with
                | none => g
                | some (sEncodedLen, sHeaderLen) =>
                  if sEncodedLen > 255 || ipos + sHeaderLen + sEncodedLen > sigLen.toUInt32 then g
                  else
                    let (s, sLen) := skipZeros sig sEncodedLen.toNat (ipos + sHeaderLen) sEncodedLen
                    assignS sig s sLen g

/-- The end of `net_tls_parse_certificate_signature`, from `sig` on. -/
def parseCertificateEcdsaSig (sig : Memory) (sigLen : UInt32) (g : Signature) : Signature :=
  match derSequenceLen sig 0 sigLen with
  | none => g
  | some (seqLen, seqHeaderLen) =>
    if seqHeaderLen + seqLen > sigLen then g
    else
      let ipos := seqHeaderLen
      if ipos + 2 > sigLen || sig ipos != 0x02 then g
      else
        match derLen sig ipos (sigLen - ipos) with
        | none => g
        | some (rEncodedLen, rHeaderLen) =>
          if rEncodedLen > 255 || ipos + rHeaderLen + rEncodedLen > sigLen then g
          else
            let (r, rLen) := skipZeros sig rEncodedLen.toNat (ipos + rHeaderLen) rEncodedLen
            let g := assignR sig r rLen g
            let ipos := ipos + (rHeaderLen + rEncodedLen)
            if ipos + 2 > sigLen || sig ipos != 0x02 then g
            else
              match derLen sig ipos (sigLen - ipos) with
              | none => g
              | some (sEncodedLen, sHeaderLen) =>
                if sEncodedLen > 255 || ipos + sHeaderLen + sEncodedLen > sigLen then g
                else
                  let (s, sLen) := skipZeros sig sEncodedLen.toNat (ipos + sHeaderLen) sEncodedLen
                  assignS sig s sLen g

/-! ## One walk -/

/-- The one copy asks for eight bytes and the tag before it begins, and then they are the same. -/
theorem kex_eq_certificate (sig : Memory) {sigLen : UInt16} (h : 8 ≤ sigLen) (g : Signature) :
    netTlsParseKexEcdsaSig sig sigLen g = parseCertificateEcdsaSig sig sigLen.toUInt32 g := by
  have hlong : ¬sigLen < 8 := UInt16.not_lt.2 h
  by_cases htag : sig 0 = 0x30
  · have hguard : ¬(decide (sigLen < 8) || sig 0 != 0x30) = true := by simp [hlong, htag]
    rw [netTlsParseKexEcdsaSig, if_neg hguard]
    rfl
  · have hguard : (decide (sigLen < 8) || sig 0 != 0x30) = true := by simp [htag]
    have hnone : derSequenceLen sig 0 sigLen.toUInt32 = none := by simp [derSequenceLen, htag]
    rw [netTlsParseKexEcdsaSig, if_pos hguard, parseCertificateEcdsaSig, hnone]

/-- The integer at `ipos`, as the parsers of the handshake read it. -/
def integerAt (sig : Memory) (sigLen ipos : UInt32) : Option (UInt32 × List UInt8 × UInt32) :=
  if ipos + 2 > sigLen || sig ipos != 0x02 then none
  else
    match derLen sig ipos (sigLen - ipos) with
    | none => none
    | some (encodedLen, headerLen) =>
      if encodedLen > 255 || ipos + headerLen + encodedLen > sigLen then none
      else
        let (r, rLen) := skipZeros sig encodedLen.toNat (ipos + headerLen) encodedLen
        some (rLen, stretch sig r (if rLen ≤ 32 then rLen.toNat else 4),
          ipos + (headerLen + encodedLen))

/-- What a walk does to the fields, with the two assignments. -/
def walk {σ : Type} (setR setS : UInt32 → List UInt8 → σ → σ) (sig : Memory) (sigLen : UInt32)
    (x : σ) : σ :=
  match derSequenceLen sig 0 sigLen with
  | none => x
  | some (seqLen, seqHeaderLen) =>
    if seqHeaderLen + seqLen > sigLen then x
    else
      match integerAt sig sigLen seqHeaderLen with
      | none => x
      | some (rLen, r, ipos) =>
        match integerAt sig sigLen ipos with
        | none => setR rLen r x
        | some (sLen, s, _) => setS sLen s (setR rLen r x)

/-- The number in the first four bytes. -/
def word (bytes : List UInt8) : UInt32 :=
  (bytes.take 4).foldl (fun r32 byte => (r32 <<< 8) ||| byte.toUInt32) 0

def setR (rLen : UInt32) (r : List UInt8) (g : Signature) : Signature :=
  { g with rLen := rLen.toUInt8, r32 := word r, r := storeInteger rLen r g.r }

def setS (sLen : UInt32) (s : List UInt8) (g : Signature) : Signature :=
  { g with sLen := sLen.toUInt8, s32 := word s, s := storeInteger sLen s g.s }

section Store

variable (sig : Memory) (r rLen : UInt32)

theorem stretch_succ (n : ℕ) :
    stretch sig r (n + 1) = stretch sig r n ++ [sig (r + UInt32.ofNat n)] := by
  induction n generalizing r with
  | zero => simp [stretch]
  | succ n ih =>
    rw [stretch, ih, stretch, List.cons_append, UInt32.ofNat_add, UInt32.add_assoc,
      UInt32.add_comm (UInt32.ofNat n)]
    rfl

theorem first32_eq :
    first32 sig r rLen = word (stretch sig r (if rLen ≤ 32 then rLen.toNat else 4)) := by
  have hloop (n : ℕ) : (List.range n).foldl (fun (r32 : UInt32) i =>
      if i < rLen.toNat then (r32 <<< 8) ||| (sig (r + UInt32.ofNat i)).toUInt32 else r32) 0 =
      (stretch sig r (min n rLen.toNat)).foldl (fun (r32 : UInt32) byte =>
        (r32 <<< 8) ||| byte.toUInt32) 0 := by
    induction n with
    | zero => simp [stretch]
    | succ n ih =>
      rw [List.range_succ, List.foldl_append, List.foldl_cons, List.foldl_nil, ih]
      by_cases hlt : n < rLen.toNat
      · rw [if_pos hlt, Nat.min_eq_left hlt.le, Nat.min_eq_left hlt, stretch_succ,
          List.foldl_append, List.foldl_cons, List.foldl_nil]
      · rw [if_neg hlt, Nat.min_eq_right (by omega), Nat.min_eq_right (by omega)]
  have hmin : min 4 rLen.toNat = min 4 (if rLen ≤ 32 then rLen.toNat else 4) := by
    by_cases hle : rLen ≤ 32
    · rw [if_pos hle]
    · rw [if_neg hle]
      rw [UInt32.le_iff_toNat_le] at hle
      simp only [UInt32.reduceToNat] at hle
      omega
  rw [first32, hloop, word, take_stretch, hmin]

theorem alignRight_eq (h : rLen ≤ 32) (old : List UInt8) :
    alignRight sig r rLen =
      storeInteger rLen (stretch sig r (if rLen ≤ 32 then rLen.toNat else 4)) old := by
  have hle := UInt32.le_iff_toNat_le.1 h
  simp only [UInt32.reduceToNat] at hle
  have hroom : 32 - rLen.toNat + (stretch sig r rLen.toNat).length ≤
      (List.replicate 32 0).length := by
    rw [length_stretch, List.length_replicate]
    omega
  rw [alignRight, BlockBuffer.writeFrom_eq _ hroom, storeInteger, if_pos h, if_pos h,
    List.take_replicate, List.drop_replicate, length_stretch,
    show 32 - (32 - rLen.toNat + rLen.toNat) = 0 by omega, List.replicate_zero, List.append_nil,
    Nat.min_eq_left (by omega)]

theorem assignR_eq (g : Signature) : assignR sig r rLen g =
    setR rLen (stretch sig r (if rLen ≤ 32 then rLen.toNat else 4)) g := by
  rw [assignR, setR, ← first32_eq]
  by_cases h : rLen ≤ 32
  · rw [← alignRight_eq sig r rLen h]
    simp [h]
  · simp [h, storeInteger]

theorem assignS_eq (g : Signature) : assignS sig r rLen g =
    setS rLen (stretch sig r (if rLen ≤ 32 then rLen.toNat else 4)) g := by
  rw [assignS, setS, ← first32_eq]
  by_cases h : rLen ≤ 32
  · rw [← alignRight_eq sig r rLen h]
    simp [h]
  · simp [h, storeInteger]

end Store

/-- The copies are walks that assign to the fields of a signature. -/
theorem certificate_eq_walk (sig : Memory) (sigLen : UInt32) (g : Signature) :
    parseCertificateEcdsaSig sig sigLen g = walk setR setS sig sigLen g := by
  rw [parseCertificateEcdsaSig, walk]
  rcases derSequenceLen sig 0 sigLen with _ | ⟨seqLen, seqHeaderLen⟩
  · rfl
  dsimp only
  by_cases hseq : seqHeaderLen + seqLen > sigLen
  · rw [if_pos hseq, if_pos hseq]
  rw [if_neg hseq, if_neg hseq, integerAt]
  by_cases hr : (decide (seqHeaderLen + 2 > sigLen) || sig seqHeaderLen != 0x02) = true
  · rw [if_pos hr, if_pos hr]
  rw [if_neg hr, if_neg hr]
  rcases derLen sig seqHeaderLen (sigLen - seqHeaderLen) with _ | ⟨rEncodedLen, rHeaderLen⟩
  · rfl
  dsimp only
  by_cases hrEnd :
      (decide (rEncodedLen > 255) || decide (seqHeaderLen + rHeaderLen + rEncodedLen > sigLen)) =
        true
  · rw [if_pos hrEnd, if_pos hrEnd]
  rw [if_neg hrEnd, if_neg hrEnd]
  dsimp only
  rw [assignR_eq]
  generalize setR _ _ g = g'
  generalize seqHeaderLen + (rHeaderLen + rEncodedLen) = ipos
  rw [integerAt]
  by_cases hs : (decide (ipos + 2 > sigLen) || sig ipos != 0x02) = true
  · rw [if_pos hs, if_pos hs]
  rw [if_neg hs, if_neg hs]
  rcases derLen sig ipos (sigLen - ipos) with _ | ⟨sEncodedLen, sHeaderLen⟩
  · rfl
  dsimp only
  by_cases hsEnd :
      (decide (sEncodedLen > 255) || decide (ipos + sHeaderLen + sEncodedLen > sigLen)) = true
  · rw [if_pos hsEnd, if_pos hsEnd]
  rw [if_neg hsEnd, if_neg hsEnd]
  exact assignS_eq sig _ _ g'

/-! ## The parsers of the driver -/

section Run

variable {σ : Type} (mem : Memory) (src : UInt32)

/-- The bytes from `src` on. -/
def behind : Memory := fun pos => mem (src + pos)

theorem behind_zero : behind mem 0 = mem := by
  funext pos
  rw [behind, UInt32.zero_add]

theorem derLen_behind (pos available : UInt32) :
    derLen (behind mem src) pos available = derLen mem (src + pos) available := by
  simp only [derLen, behind, ← UInt32.add_assoc]

theorem derSequenceLen_behind (available : UInt32) :
    derSequenceLen (behind mem src) 0 available = derSequenceLen mem src available := by
  rw [derSequenceLen, derLen_behind, behind, UInt32.add_zero, derSequenceLen]

theorem stretch_behind (pos : UInt32) (n : ℕ) :
    stretch (behind mem src) pos n = stretch mem (src + pos) n := by
  induction n generalizing pos with
  | zero => rfl
  | succ n ih => rw [stretch, ih, stretch, behind, UInt32.add_assoc]

theorem bytes_returns (n : ℕ) (pos : UInt32) :
    Returns (bytes n pos : Reader σ _) mem (stretch mem pos n) :=
  Returns.of_ok fun _ => Ok.bytes le_rfl

theorem tagAt_returns (room : Bool) (pos : UInt32) (tag : UInt8) :
    Returns (tagAt room pos tag : Reader σ _) mem (room && mem pos == tag) :=
  Returns.of_ok fun _ => tagAt_ok fun _ => Nat.lt_succ_self _

theorem derLenAt_returns (available : UInt32) :
    Returns (netTlsParseDerLenAt src available : Reader σ _) mem (derLen mem src available) :=
  Returns.of_ok fun _ => netTlsParseDerLenAt_ok le_rfl

theorem derSequenceLen_returns (available : UInt32) :
    Returns (netTlsParseDerSequenceLen src available : Reader σ _) mem
      (derSequenceLen mem src available) :=
  Returns.of_ok fun _ => netTlsParseDerSequenceLen_ok le_rfl

theorem stripZeros_returns (steps : ℕ) (r rLen : UInt32) :
    Returns (stripZeros steps (src + r) rLen : Reader σ _) mem
      (src + (skipZeros (behind mem src) steps r rLen).1,
        (skipZeros (behind mem src) steps r rLen).2) := by
  induction steps generalizing r rLen with
  | zero => exact Returns.pure _
  | succ steps ih =>
    have hnext := ih (r + 1) (rLen - 1)
    rw [← UInt32.add_assoc] at hnext
    rw [stripZeros]
    refine Returns.bind (tagAt_returns mem _ _ _) ?_
    rw [skipZeros, behind]
    by_cases hzero : (decide (rLen > 1) && mem (src + r) == 0) = true
    · rw [if_pos hzero, if_pos hzero]
      exact hnext
    · rw [if_neg hzero, if_neg hzero]
      exact Returns.pure _

theorem parseInteger_returns (sigLen ipos : UInt32) :
    Returns (parseInteger src sigLen ipos : Reader σ _) mem
      (integerAt (behind mem src) sigLen ipos) := by
  rw [parseInteger, integerAt, derLen_behind, behind]
  by_cases hroom : ipos + 2 > sigLen
  · simp only [hroom, decide_true, Bool.true_or, if_true]
    exact Returns.pure _
  simp only [hroom, decide_false, Bool.false_or, if_false]
  refine Returns.bind (Returns.byte _) ?_
  by_cases htag : (mem (src + ipos) != 0x02) = true
  · rw [if_pos htag, if_pos htag]
    exact Returns.pure _
  rw [if_neg htag, if_neg htag]
  refine Returns.bind (derLenAt_returns mem _ _) ?_
  rcases derLen mem (src + ipos) (sigLen - ipos) with _ | ⟨encodedLen, headerLen⟩
  · exact Returns.pure _
  dsimp only
  by_cases hend :
      (decide (encodedLen > 255) || decide (ipos + headerLen + encodedLen > sigLen)) = true
  · rw [if_pos hend, if_pos hend]
    exact Returns.pure _
  rw [if_neg hend, if_neg hend, UInt32.add_assoc src]
  refine Returns.bind (stripZeros_returns mem src _ _ _) ?_
  refine Returns.bind (bytes_returns mem _ _) ?_
  rw [← stretch_behind]
  exact Returns.pure _

/-- The parser of the driver is the walk over the bytes from `src` on. -/
theorem parseIntegers_fields (setR setS : UInt32 → List UInt8 → σ → σ) (sigLen : UInt32) (x : σ) :
    ((parseIntegers src sigLen setR setS).run mem x).fields =
      walk setR setS (behind mem src) sigLen x := by
  rw [parseIntegers, walk, derSequenceLen_behind,
    Returns.run_bind_fields (derSequenceLen_returns mem src sigLen)]
  rcases derSequenceLen mem src sigLen with _ | ⟨seqLen, seqHeaderLen⟩
  · rfl
  dsimp only
  by_cases hseq : seqHeaderLen + seqLen > sigLen
  · rw [if_pos hseq, if_pos hseq]
    rfl
  rw [if_neg hseq, if_neg hseq, Returns.run_bind_fields (parseInteger_returns mem src sigLen _)]
  rcases integerAt (behind mem src) sigLen seqHeaderLen with _ | ⟨rLen, r, ipos⟩
  · rfl
  dsimp only
  rw [run_bind, run_write]
  dsimp only
  rw [Returns.run_bind_fields (parseInteger_returns mem src sigLen _)]
  rcases integerAt (behind mem src) sigLen ipos with _ | ⟨sLen, s, _⟩
  · rfl
  · rfl

/-- A walk reads only below the length. -/
theorem walk_congr {sig sig' : Memory} {sigLen : UInt32} (hlen : sigLen.toNat ≤ 2 ^ 24)
    (h : ∀ pos : UInt32, pos.toNat < sigLen.toNat → sig' pos = sig pos)
    (setR setS : UInt32 → List UInt8 → σ → σ) (x : σ) :
    walk setR setS sig' sigLen x = walk setR setS sig sigLen x := by
  have hread : (parseIntegers 0 sigLen setR setS).run sig' x =
      (parseIntegers 0 sigLen setR setS).run sig x := by
    apply Reader.run_congr
    intro pos hpos
    have hok : Ok (parseIntegers 0 sigLen setR setS) sig x sigLen.toNat fun _ _ => () = () :=
      parseIntegers_ok (g := fun _ => ()) hlen (Nat.zero_add _).le (by simp) (by simp)
    exact h pos (hpos.trans_le hok.touched_le)
  have hrun := parseIntegers_fields sig 0 setR setS sigLen x
  have hrun' := parseIntegers_fields sig' 0 setR setS sigLen x
  rw [behind_zero] at hrun hrun'
  rw [← hrun, ← hrun', hread]

/-- Fields that stand for each other do so after the walks. -/
theorem walk_rel {τ : Type} {R : σ → τ → Prop} {setR setS : UInt32 → List UInt8 → σ → σ}
    {setR' setS' : UInt32 → List UInt8 → τ → τ}
    (hR : ∀ l v x y, R x y → R (setR l v x) (setR' l v y))
    (hS : ∀ l v x y, R x y → R (setS l v x) (setS' l v y)) (sig : Memory) (sigLen : UInt32) {x : σ}
    {y : τ} (h : R x y) : R (walk setR setS sig sigLen x) (walk setR' setS' sig sigLen y) := by
  rw [walk, walk]
  rcases derSequenceLen sig 0 sigLen with _ | ⟨seqLen, seqHeaderLen⟩
  · exact h
  dsimp only
  by_cases hseq : seqHeaderLen + seqLen > sigLen
  · rw [if_pos hseq, if_pos hseq]
    exact h
  rw [if_neg hseq, if_neg hseq]
  rcases integerAt sig sigLen seqHeaderLen with _ | ⟨rLen, r, ipos⟩
  · exact h
  dsimp only
  rcases integerAt sig sigLen ipos with _ | ⟨sLen, s, _⟩
  · exact hR _ _ _ _ h
  · exact hS _ _ _ _ (hR _ _ _ _ h)

end Run

/-- The fields hold the same signature, with the lengths as the model of the handshake has them. -/
structure Same (g : Signature) (rLen sLen : UInt32) (r s : List UInt8) : Prop where
  rLen_eq : g.rLen = rLen.toUInt8
  sLen_eq : g.sLen = sLen.toUInt8
  r_eq : g.r = r
  s_eq : g.s = s

theorem Same.assign_r {g : Signature} {rLen sLen : UInt32} {r s : List UInt8}
    (h : Same g rLen sLen r s) (l : UInt32) (v : List UInt8) :
    Same (setR l v g) l sLen (storeInteger l v r) s :=
  ⟨rfl, h.sLen_eq, by rw [setR, h.r_eq], h.s_eq⟩

theorem Same.assign_s {g : Signature} {rLen sLen : UInt32} {r s : List UInt8}
    (h : Same g rLen sLen r s) (l : UInt32) (v : List UInt8) :
    Same (setS l v g) rLen l r (storeInteger l v s) :=
  ⟨h.rLen_eq, rfl, h.r_eq, by rw [setS, h.s_eq]⟩

/-- The parser of the key exchange leaves what the copy in the source does. -/
theorem kex_same (bytes : List UInt8) (sigLen : UInt16) {g : Signature} {k : Kex}
    (h : Same g k.sigRLen k.sigSLen k.sigR k.sigS) :
    let k' := Tls.netTlsParseKexEcdsaSig bytes sigLen k
    Same (netTlsParseKexEcdsaSig (memory bytes) sigLen g) k'.sigRLen k'.sigSLen
      k'.sigR k'.sigS := by
  intro k'
  by_cases hshort : sigLen < 8
  · have hk : k' = k := if_pos hshort
    have hg : netTlsParseKexEcdsaSig (memory bytes) sigLen g = g := by
      simp [netTlsParseKexEcdsaSig, hshort]
    rw [hk, hg]
    exact h
  · have hk : k' = _ := if_neg hshort
    have hbehind : behind (fun pos => Net.get8 bytes pos.toNat) 0 = memory bytes := behind_zero _
    rw [hk, parseIntegers_fields, hbehind, kex_eq_certificate _ (UInt16.not_lt.1 hshort),
      certificate_eq_walk]
    refine walk_rel (R := fun g (k : Kex) => Same g k.sigRLen k.sigSLen k.sigR k.sigS) ?_ ?_ _ _ h
    · intro l v g k hsame
      exact hsame.assign_r l v
    · intro l v g k hsame
      exact hsame.assign_s l v

/-- So does the parser of a certificate, wherever its signature lies. -/
theorem certificate_same (mem : Memory) (src sigLen : UInt32) {g : Signature} {x : X509}
    (h : Same g x.signatureRLen x.signatureSLen x.signatureR x.signatureS) :
    let y := ((parseIntegers src sigLen
      (fun rLen r (x : X509) =>
        { x with signatureRLen := rLen, signatureR := storeInteger rLen r x.signatureR })
      (fun sLen s x =>
        { x with signatureSLen := sLen, signatureS := storeInteger sLen s x.signatureS })).run
      mem x).fields
    Same (parseCertificateEcdsaSig (behind mem src) sigLen g) y.signatureRLen y.signatureSLen
      y.signatureR y.signatureS := by
  intro y
  have hy : y = _ := parseIntegers_fields _ _ _ _ _ _
  rw [hy, certificate_eq_walk]
  refine walk_rel (R := fun g (x : X509) =>
    Same g x.signatureRLen x.signatureSLen x.signatureR x.signatureS) ?_ ?_ _ _ h
  · intro l v g x hsame
    exact hsame.assign_r l v
  · intro l v g x hsame
    exact hsame.assign_s l v

/-! ## What is decoded -/

/-- The bytes are in memory from `pos` on. -/
def Holds (sig : Memory) (pos : UInt32) (bytes : List UInt8) : Prop :=
  stretch sig pos bytes.length = bytes

section Decode

variable {sig : Memory} {pos : UInt32}

theorem holds_cons {b : UInt8} {bytes : List UInt8} :
    Holds sig pos (b :: bytes) ↔ sig pos = b ∧ Holds sig (pos + 1) bytes := by
  rw [Holds, List.length_cons, stretch, List.cons.injEq, Holds]

theorem holds_append {front back : List UInt8} :
    Holds sig pos (front ++ back) ↔
      Holds sig pos front ∧ Holds sig (pos + UInt32.ofNat front.length) back := by
  induction front generalizing pos with
  | nil => simp [Holds, stretch]
  | cons b front ih =>
    rw [List.cons_append, holds_cons, ih, holds_cons, List.length_cons, UInt32.add_assoc, and_assoc,
      UInt32.ofNat_add, UInt32.add_comm (UInt32.ofNat front.length)]
    rfl

theorem toNat_ofNat {n : ℕ} (h : n < 2 ^ 32) : (UInt32.ofNat n).toNat = n := by
  rw [UInt32.toNat_ofNat', Nat.mod_eq_of_lt h]

/-- The zeros go, and the bytes behind them stay, whose first is not zero or is the only one. -/
theorem skipZeros_eq {bytes : List UInt8} (hpos : 0 < bytes.length)
    (hfirst : bytes.length = 1 ∨ bytes.getD 0 0 ≠ 0) {zeros steps : ℕ} (hsteps : zeros ≤ steps)
    (hshort : zeros + bytes.length < 2 ^ 32) (h : Holds sig pos (List.replicate zeros 0 ++ bytes)) :
    skipZeros sig steps pos (UInt32.ofNat (zeros + bytes.length)) =
      (pos + UInt32.ofNat zeros, UInt32.ofNat bytes.length) := by
  induction zeros generalizing steps pos with
  | zero =>
    rw [Nat.zero_add, show UInt32.ofNat 0 = 0 by rfl, UInt32.add_zero]
    rcases steps with _ | steps
    · rfl
    · have hstop : ¬(decide (UInt32.ofNat bytes.length > 1) && sig pos == 0) = true := by
        rcases hfirst with hone | hfirst
        · simp [hone]
        · obtain ⟨b, rest, rfl⟩ := List.exists_cons_of_length_pos hpos
          have hb : sig pos = b := (holds_cons.1 h).1
          have hne : b ≠ 0 := hfirst
          simp [hb, hne]
      rw [skipZeros, if_neg hstop]
  | succ zeros ih =>
    obtain ⟨steps, rfl⟩ := Nat.exists_eq_add_one_of_ne_zero (by omega : steps ≠ 0)
    rw [List.replicate_succ, List.cons_append, holds_cons] at h
    have hmore : UInt32.ofNat (zeros + 1 + bytes.length) > 1 := by
      rw [gt_iff_lt, UInt32.lt_iff_toNat_lt, toNat_ofNat hshort]
      simp only [UInt32.reduceToNat]
      omega
    have hless : UInt32.ofNat (zeros + 1 + bytes.length) - 1 =
        UInt32.ofNat (zeros + bytes.length) := by
      rw [show zeros + 1 + bytes.length = zeros + bytes.length + 1 by omega, UInt32.ofNat_add]
      exact UInt32.add_sub_cancel _ _
    have hnext : pos + 1 + UInt32.ofNat zeros = pos + UInt32.ofNat (zeros + 1) := by
      rw [UInt32.ofNat_add, UInt32.add_assoc, UInt32.add_comm 1]
      rfl
    have hgo : (decide (UInt32.ofNat (zeros + 1 + bytes.length) > 1) && sig pos == 0) = true := by
      rw [decide_eq_true hmore, h.1]
      rfl
    rw [skipZeros, if_pos hgo, hless, ih (by omega) (by omega) h.2, hnext]

/-- The length of a short element. -/
theorem derLen_short {contents : List UInt8} {tag : UInt8} {available : UInt32}
    (hshort : contents.length < 128) (hroom : 2 ≤ available)
    (h : Holds sig pos (tag :: UInt8.ofNat contents.length :: contents)) :
    derLen sig pos available = some (UInt32.ofNat contents.length, 2) := by
  rw [holds_cons, holds_cons] at h
  have hlow : ∀ n < 128, UInt8.ofNat n &&& 0x80 = 0 := by
    decide
  have hwide : (UInt8.ofNat contents.length).toUInt32 = UInt32.ofNat contents.length := by
    rw [← UInt32.toNat_inj, UInt8.toNat_toUInt32, UInt8.toNat_ofNat', toNat_ofNat (by omega)]
    omega
  rw [derLen, h.2.1, if_neg (UInt32.not_lt.2 hroom), if_pos (by rw [hlow _ hshort]; rfl), hwide]

/-- An integer is decoded to its bytes without the zero in front. -/
theorem integerAt_eq {n : ℕ} (hn : n < 256 ^ 32) {sigLen : UInt32}
    (hroom : pos.toNat + (Der.integer n).length ≤ sigLen.toNat)
    (h : Holds sig pos (Der.integer n)) :
    integerAt sig sigLen pos = some (UInt32.ofNat (Der.integerBytes n).length, Der.integerBytes n,
      pos + UInt32.ofNat (Der.integer n).length) := by
  obtain ⟨zeros, hzeros, hcontents⟩ := Der.integerContents_eq n
  have hbytes := Der.length_integerBytes_le (by decide) hn
  have hpos := Der.integerBytes_ne_nil n
  set contents := Der.integerContents n with hset
  have hlength : contents.length = zeros + (Der.integerBytes n).length := by
    rw [hcontents, List.length_append, List.length_replicate]
  have hshort : contents.length < 128 := by omega
  have helement : Der.integer n = 0x02 :: UInt8.ofNat contents.length :: contents :=
    Der.element_eq hshort
  have hlong : (Der.integer n).length = contents.length + 2 := by
    rw [helement, List.length_cons, List.length_cons]
  have hlt := sigLen.toNat_lt
  have hposNat : (pos + 2).toNat = pos.toNat + 2 :=
    toNat_add_of_lt (by simp only [UInt32.reduceToNat]; omega)
  have hlenNat : (UInt32.ofNat contents.length).toNat = contents.length := toNat_ofNat (by omega)
  rw [helement] at h
  have htag := (holds_cons.1 h).1
  have hsub : (sigLen - pos).toNat = sigLen.toNat - pos.toNat := toNat_sub_of_le (by omega)
  have hlen := derLen_short (by omega) (UInt32.le_iff_toNat_le.2 (by
    rw [hsub]
    simp only [UInt32.reduceToNat]
    omega) : 2 ≤ sigLen - pos) h
  have hroom' : ¬(decide (pos + 2 > sigLen) || sig pos != 0x02) = true := by
    have hin : ¬pos + 2 > sigLen := by
      rw [gt_iff_lt, UInt32.lt_iff_toNat_lt, hposNat]
      omega
    simp [hin, htag]
  have hend : ¬(decide (UInt32.ofNat contents.length > 255) ||
      decide (pos + 2 + UInt32.ofNat contents.length > sigLen)) = true := by
    have hsmall : ¬UInt32.ofNat contents.length > 255 := by
      rw [gt_iff_lt, UInt32.lt_iff_toNat_lt, hlenNat]
      simp only [UInt32.reduceToNat]
      omega
    have hin : ¬pos + 2 + UInt32.ofNat contents.length > sigLen := by
      rw [gt_iff_lt, UInt32.lt_iff_toNat_lt, toNat_add_of_lt (by omega), hposNat, hlenNat]
      omega
    simp [hsmall, hin]
  have hholds : Holds sig (pos + 2) (List.replicate zeros 0 ++ Der.integerBytes n) := by
    have hrest := (holds_cons.1 (holds_cons.1 h).2).2
    rw [UInt32.add_assoc, hcontents] at hrest
    exact hrest
  have hskip := skipZeros_eq hpos (Der.integerBytes_first n)
    (by omega : zeros ≤ contents.length) (by omega) hholds
  rw [← hlength] at hskip
  rw [integerAt, if_neg hroom', hlen]
  dsimp only
  rw [if_neg hend, hlenNat, hskip]
  dsimp only
  have hfits : UInt32.ofNat (Der.integerBytes n).length ≤ 32 := by
    rw [UInt32.le_iff_toNat_le, toNat_ofNat (by omega)]
    exact hbytes
  have hvalue : stretch sig (pos + 2 + UInt32.ofNat zeros) (Der.integerBytes n).length =
      Der.integerBytes n := by
    have hback := (holds_append.1 hholds).2
    rwa [List.length_replicate] at hback
  have hbehind : pos + (2 + UInt32.ofNat contents.length) =
      pos + UInt32.ofNat (contents.length + 2) := by
    rw [UInt32.ofNat_add, UInt32.add_comm 2]
    rfl
  rw [if_pos hfits, toNat_ofNat (by omega), hvalue, hlong, hbehind]

/-- A walk over two encoded integers makes both assignments, with their bytes. -/
theorem walk_sequence {σ : Type} (setR setS : UInt32 → List UInt8 → σ → σ) {r s : ℕ}
    (hr : r < 256 ^ 32) (hs : s < 256 ^ 32)
    (h : Holds sig 0 (Der.sequence [Der.integer r, Der.integer s])) (x : σ) :
    walk setR setS sig (UInt32.ofNat (Der.sequence [Der.integer r, Der.integer s]).length) x =
      setS (UInt32.ofNat (Der.integerBytes s).length) (Der.integerBytes s)
        (setR (UInt32.ofNat (Der.integerBytes r).length) (Der.integerBytes r) x) := by
  have hrLen := Der.length_integer (by decide) (by decide) hr
  have hsLen := Der.length_integer (by decide) (by decide) hs
  have hsequence := Der.sequence_pair
    (by omega : (Der.integer r).length + (Der.integer s).length < 128)
  set contents := Der.integer r ++ Der.integer s with hset
  have hcontents : contents.length = (Der.integer r).length + (Der.integer s).length :=
    List.length_append
  have hshort : contents.length < 128 := by omega
  have hlong : (Der.sequence [Der.integer r, Der.integer s]).length = contents.length + 2 := by
    rw [hsequence, List.length_cons, List.length_cons]
  rw [hsequence] at h
  rw [hlong]
  have hlenNat : (UInt32.ofNat (contents.length + 2)).toNat = contents.length + 2 :=
    toNat_ofNat (by omega)
  have hroom : 2 ≤ UInt32.ofNat (contents.length + 2) := by
    rw [UInt32.le_iff_toNat_le, hlenNat]
    simp only [UInt32.reduceToNat]
    omega
  have hseq : derSequenceLen sig 0 (UInt32.ofNat (contents.length + 2)) =
      some (UInt32.ofNat contents.length, 2) := by
    have htag : (decide (UInt32.ofNat (contents.length + 2) ≥ 2) && sig 0 == 0x30) = true := by
      rw [decide_eq_true hroom, (holds_cons.1 h).1]
      rfl
    rw [derSequenceLen, if_pos htag, derLen_short hshort hroom h]
  have hbody : Holds sig 2 (Der.integer r ++ Der.integer s) := (holds_cons.1 (holds_cons.1 h).2).2
  obtain ⟨hfirst, hsecond⟩ := holds_append.1 hbody
  have hipos : (2 + UInt32.ofNat (Der.integer r).length).toNat = 2 + (Der.integer r).length := by
    rw [toNat_add_of_lt, toNat_ofNat (by omega)]
    · rfl
    · rw [toNat_ofNat (by omega)]
      simp only [UInt32.reduceToNat]
      omega
  have hend : 2 + UInt32.ofNat contents.length = UInt32.ofNat (contents.length + 2) := by
    rw [UInt32.ofNat_add, UInt32.add_comm]
    rfl
  have hin : (2 : UInt32).toNat + (Der.integer r).length ≤
      (UInt32.ofNat (contents.length + 2)).toNat := by
    rw [hlenNat]
    simp only [UInt32.reduceToNat]
    omega
  rw [walk, hseq]
  dsimp only
  rw [hend, if_neg (UInt32.lt_irrefl _), integerAt_eq hr hin hfirst]
  dsimp only
  rw [integerAt_eq hs (by rw [hlenNat, hipos]; omega) hsecond]

/-- The field that an integer of 256 bits is put in. -/
theorem storeInteger_eq {n : ℕ} (hn : n < 256 ^ 32) (old : List UInt8) :
    storeInteger (UInt32.ofNat (Der.integerBytes n).length) (Der.integerBytes n) old =
      p256FeToBe32 n := by
  have hbytes := Der.length_integerBytes_le (by decide) hn
  have hlenNat : (UInt32.ofNat (Der.integerBytes n).length).toNat = (Der.integerBytes n).length :=
    toNat_ofNat (by omega)
  have hfits : UInt32.ofNat (Der.integerBytes n).length ≤ 32 := by
    rw [UInt32.le_iff_toNat_le, hlenNat]
    exact hbytes
  rw [storeInteger, if_pos hfits, hlenNat, Der.integerBytes_aligned (by decide) hn, p256FeToBe32]

end Decode

section Agree

variable {bytes : List UInt8} {sig sig' : Memory}

theorem Holds.getD {pos : UInt32} (h : Holds sig pos bytes) {i : ℕ} (hi : i < bytes.length) :
    sig (pos + UInt32.ofNat i) = bytes.getD i 0 := by
  have hsplit : bytes = bytes.take i ++ bytes.drop i := (List.take_append_drop i bytes).symm
  rw [hsplit, holds_append, List.length_take, Nat.min_eq_left hi.le,
    List.drop_eq_getElem_cons hi, holds_cons] at h
  rw [h.2.1, List.getD_eq_getElem _ _ hi]

theorem toUInt32_ofNat (hlong : bytes.length < 65536) :
    (UInt16.ofNat bytes.length).toUInt32 = UInt32.ofNat bytes.length := by
  rw [← UInt32.toNat_inj, UInt16.toNat_toUInt32, UInt16.toNat_ofNat', toNat_ofNat (by omega),
    Nat.mod_eq_of_lt hlong]

/-- Eight bytes at least, and the key exchange's copy does what the certificate's does elsewhere. -/
theorem kex_eq_certificate_of_holds (hshort : 8 ≤ bytes.length) (hlong : bytes.length < 65536)
    (h : Holds sig 0 bytes) (h' : Holds sig' 0 bytes) (g : Signature) :
    netTlsParseKexEcdsaSig sig (UInt16.ofNat bytes.length) g =
      parseCertificateEcdsaSig sig' (UInt32.ofNat bytes.length) g := by
  have hlen : (UInt32.ofNat bytes.length).toNat = bytes.length := toNat_ofNat (by omega)
  have height : 8 ≤ UInt16.ofNat bytes.length := by
    rw [UInt16.le_iff_toNat_le, UInt16.toNat_ofNat', Nat.mod_eq_of_lt hlong]
    exact hshort
  have hread (pos : UInt32) (hpos : pos.toNat < (UInt32.ofNat bytes.length).toNat) :
      sig pos = sig' pos := by
    rw [hlen] at hpos
    have hbyte := h.getD hpos
    have hbyte' := h'.getD hpos
    rw [UInt32.zero_add, UInt32.ofNat_toNat] at hbyte hbyte'
    rw [hbyte, hbyte']
  rw [kex_eq_certificate sig height, toUInt32_ofNat hlong, certificate_eq_walk, certificate_eq_walk]
  exact walk_congr (by rw [hlen]; omega) hread setR setS g

end Agree

/-- The copies leave the same fields on the same bytes, whatever lies behind them in memory; and of
a sequence of two integers of 256 bits they leave the integers, to the right in 32 bytes. -/
theorem signatures_agree :
    (∀ bytes : List UInt8, 8 ≤ bytes.length → bytes.length < 65536 → ∀ sig sig' : Memory,
      Holds sig 0 bytes → Holds sig' 0 bytes → ∀ g : Signature,
        netTlsParseKexEcdsaSig sig (UInt16.ofNat bytes.length) g =
          parseCertificateEcdsaSig sig' (UInt32.ofNat bytes.length) g) ∧
    ∀ r s : ℕ, r < 2 ^ 256 → s < 2 ^ 256 → ∀ sig : Memory,
      Holds sig 0 (Der.sequence [Der.integer r, Der.integer s]) → ∀ g : Signature,
        let sigLen := (Der.sequence [Der.integer r, Der.integer s]).length
        let g' := parseCertificateEcdsaSig sig (UInt32.ofNat sigLen) g
        netTlsParseKexEcdsaSig sig (UInt16.ofNat sigLen) g = g' ∧
        g'.r = p256FeToBe32 r ∧ g'.s = p256FeToBe32 s ∧
        g'.rLen.toNat = (Der.integerBytes r).length ∧
        g'.sLen.toNat = (Der.integerBytes s).length := by
  refine ⟨fun bytes hshort hlong sig sig' => kex_eq_certificate_of_holds hshort hlong, ?_⟩
  intro r s hr hs sig h g sigLen g'
  have hr' : r < 256 ^ 32 := hr.trans_le (by decide)
  have hs' : s < 256 ^ 32 := hs.trans_le (by decide)
  have hwalk : g' = _ := (certificate_eq_walk sig _ g).trans (walk_sequence setR setS hr' hs' h g)
  have hlen {n : ℕ} (hn : n < 256 ^ 32) : (UInt32.ofNat (Der.integerBytes n).length).toUInt8.toNat =
      (Der.integerBytes n).length := by
    have hbytes := Der.length_integerBytes_le (by decide) hn
    rw [UInt32.toNat_toUInt8, toNat_ofNat (by omega)]
    omega
  have hrLen := Der.length_integer (by decide) (by decide) hr'
  have hsLen := Der.length_integer (by decide) (by decide) hs'
  have hsigLen : sigLen = (Der.integer r).length + (Der.integer s).length + 2 := by
    show (Der.sequence [Der.integer r, Der.integer s]).length = _
    rw [Der.sequence_pair (by omega), List.length_cons, List.length_cons, List.length_append]
  refine ⟨kex_eq_certificate_of_holds (by omega) (by omega) h h g, ?_, ?_, ?_, ?_⟩
  · rw [hwalk]
    exact storeInteger_eq hr' _
  · rw [hwalk]
    exact storeInteger_eq hs' _
  · rw [hwalk]
    exact hlen hr'
  · rw [hwalk]
    exact hlen hs'

theorem signatures_agree_zeros :
    netTlsParseKexEcdsaSig (memory [0x30, 6, 2, 1, 0, 2, 1, 0]) 8 ⟨0, 0, zeros32, 0, 0, zeros32⟩ =
      parseCertificateEcdsaSig (memory [0x30, 6, 2, 1, 0, 2, 1, 0]) 8
        ⟨0, 0, zeros32, 0, 0, zeros32⟩ :=
  signatures_agree.1 [0x30, 6, 2, 1, 0, 2, 1, 0] (by decide) (by decide)
    (memory [0x30, 6, 2, 1, 0, 2, 1, 0]) (memory [0x30, 6, 2, 1, 0, 2, 1, 0]) rfl rfl _

end Signatures

end MinervaOS.Tls
