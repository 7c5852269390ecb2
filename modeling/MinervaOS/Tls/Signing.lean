import MinervaOS.Lib.Scalars
import MinervaOS.Tls.Ecdsa

/-!
# Signatures of an honest signer

The base point has the order that the code takes its scalars modulo. So whatever a signer signs as
the standard says is accepted, and with it the signature that has the opposite second half.
-/

namespace MinervaOS.Tls

open Crypto

/-- Products that the kernel multiplies and divides as numbers. -/
def modularMul (a b : ℕ) : ℕ := a * b % 2 ^ 512 % p256P

theorem feMul_modularMul : p256FeMul = modularMul := by
  funext a b
  rw [p256FeMul, p256ReduceProductMod, reduceBits_eq _ p256P_prime.pos, Nat.zero_mul, Nat.zero_add,
    Nat.mod_mod]
  rfl

/-- The code's own multiplication of the base point by the order. -/
theorem order_infinity :
    (p256PointMulBe32Projective modularMul p256BasePoint (p256FeToBe32 p256N)).infinity = true := by
  decide +kernel

theorem order_generator : p256N • generator = 0 := by
  have his := pointMulBe32Projective_is basePoint_is (p256FeToBe32 p256N)
  rw [feFromBe32_toBe32 (by decide)] at his
  refine (infinity_iff his).1 ?_
  rw [feMul_modularMul]
  exact order_infinity

theorem generator_ne_zero : generator ≠ 0 := WeierstrassCurve.Affine.Point.some_ne_zero _

/-- The coordinates are the public key of `d`. -/
structure KeyOf (d : ZMod p256N) (pubX pubY : ℕ) : Prop where
  point : ∃ h : p256Curve.Nonsingular (pubX : ZMod p256P) (pubY : ZMod p256P),
    times d generator = .some _ _ h
  pubX_lt : pubX < p256P
  pubY_lt : pubY < p256P

/-- What a signature by the key `d` with the nonce `k` is, and the public key: `r` is the `x` of
`k G`, and `s` is `k⁻¹ (z + r d)`. -/
structure Signed (d k : ZMod p256N) (pubX pubY r s hash : ℕ) : Prop where
  key : KeyOf d pubX pubY
  nonce : ∃ x y h, times k generator = WeierstrassCurve.Affine.Point.some x y h ∧ r = x.val % p256N
  r_pos : 0 < r
  s_eq : s = (k⁻¹ * (hash + r * d)).val
  s_pos : 0 < s

/-- Verification comes back to the nonce's point. -/
theorem Signed.sum {d k : ZMod p256N} {pubX pubY r s hash : ℕ} (h : Signed d k pubX pubY r s hash) :
    times ((hash : ZMod p256N) * (s : ZMod p256N)⁻¹) generator +
      times ((r : ZMod p256N) * (s : ZMod p256N)⁻¹) (times d generator) = times k generator := by
  have hs : (s : ZMod p256N) = k⁻¹ * (hash + r * d) := by
    rw [h.s_eq, ZMod.natCast_zmod_val]
  have hne : k⁻¹ * ((hash : ZMod p256N) + r * d) ≠ 0 := by
    intro h0
    have hpos := h.s_pos
    rw [h.s_eq, h0, ZMod.val_zero] at hpos
    exact absurd hpos (Nat.lt_irrefl 0)
  obtain ⟨hk, hz⟩ := mul_ne_zero_iff.1 hne
  have hk' : k ≠ 0 := fun h0 => hk (by rw [h0, inv_zero])
  rw [times_times order_generator, ← times_add order_generator, hs]
  congr 1
  field_simp

/-- So the scalars are in range, and the sum has the `x` that `r` is the remainder of. -/
theorem Signed.accepted {d k : ZMod p256N} {pubX pubY r s hash : ℕ}
    (h : Signed d k pubX pubY r s hash) :
    (0 < r ∧ r < p256N) ∧ (0 < s ∧ s < p256N) ∧
      ∃ x y h, times ((hash : ZMod p256N) * (s : ZMod p256N)⁻¹) generator +
          times ((r : ZMod p256N) * (s : ZMod p256N)⁻¹) (times d generator) =
            WeierstrassCurve.Affine.Point.some x y h ∧ x.val % p256N = r := by
  obtain ⟨x, y, hxy, hnonce, hr⟩ := h.nonce
  have hrn : r < p256N := hr ▸ Nat.mod_lt _ p256N_prime.pos
  have hsn : s < p256N := h.s_eq ▸ ZMod.val_lt _
  exact ⟨⟨h.r_pos, hrn⟩, ⟨h.s_pos, hsn⟩, x, y, hxy, h.sum.trans hnonce, hr.symm⟩

/-- Under a key that is a point of the curve, the code compares `r` with the `x` of the sum. -/
theorem verify_key_iff {d : ZMod p256N} {pubX pubY : List UInt8} (sigR sigS hash : List UInt8)
    (hkey : KeyOf d (p256FeFromBe32 pubX) (p256FeFromBe32 pubY)) :
    (netTlsVerifyEcdsaP256 pubX pubY sigR sigS hash).1 = true ↔
      (0 < p256FeFromBe32 sigR ∧ p256FeFromBe32 sigR < p256N) ∧
        (0 < p256FeFromBe32 sigS ∧ p256FeFromBe32 sigS < p256N) ∧
          ∃ x y h, times ((p256FeFromBe32 hash : ZMod p256N) * (p256FeFromBe32 sigS : ZMod p256N)⁻¹)
              generator +
            times ((p256FeFromBe32 sigR : ZMod p256N) * (p256FeFromBe32 sigS : ZMod p256N)⁻¹)
              (times d generator) = WeierstrassCurve.Affine.Point.some x y h ∧
            x.val % p256N = p256FeFromBe32 sigR := by
  obtain ⟨⟨hon, hpoint⟩, hx, hy⟩ := hkey
  rw [← scalarValid_iff, ← scalarValid_iff, netTlsVerifyEcdsaP256]
  cases hr : Limbwise.p256ScalarValidBe32 sigR with
  | false => simp
  | true =>
    cases hs : Limbwise.p256ScalarValidBe32 sigS with
    | false => simp
    | true =>
      obtain ⟨-, hno⟩ | ⟨hq, hnumbers, -, -, -⟩ := pointFromBe32_cases pubX pubY
      · exact absurd ⟨hx, hy, hon.1⟩ hno
      have his : (Limbwise.p256PointFromBe32 pubX pubY).1.numbers.Is (times d generator) := by
        rw [hnumbers, hpoint]
        exact ⟨⟨hx, hy⟩, rfl⟩
      have hw : (Limbwise.p256ScalarInv (Limbwise.p256ScalarFromBe32 sigS)).value
          = (p256FeFromBe32 sigS : ZMod p256N)⁻¹.val := by
        rw [Limbwise.value_scalarInv, value_scalar, scalarInv_val]
      have hmul (src : List UInt8) : (Limbwise.p256ScalarMul (Limbwise.p256ScalarFromBe32 src)
          (Limbwise.p256ScalarInv (Limbwise.p256ScalarFromBe32 sigS))).value
          = ((p256FeFromBe32 src : ZMod p256N) * (p256FeFromBe32 sigS : ZMod p256N)⁻¹).val := by
        rw [Limbwise.value_scalarMul, hw, value_scalar, scalarMul_val]
      have hsum := sum_iff (r := Limbwise.p256ScalarFromBe32 sigR) his (hmul hash) (hmul sigR)
      rw [value_scalar, ZMod.val_natCast_of_lt ((scalarValid_iff sigR).1 hr).2] at hsum
      dsimp only at hsum ⊢
      rw [hq]
      simp only [Bool.not_true, Bool.false_eq_true, if_false, true_and]
      refine Iff.trans ?_ hsum
      split <;> simp_all

theorem verify_signed {d k : ZMod p256N} {pubX pubY sigR sigS hash : List UInt8}
    (h : Signed d k (p256FeFromBe32 pubX) (p256FeFromBe32 pubY) (p256FeFromBe32 sigR)
      (p256FeFromBe32 sigS) (p256FeFromBe32 hash)) :
    (netTlsVerifyEcdsaP256 pubX pubY sigR sigS hash).1 = true :=
  (verify_key_iff sigR sigS hash h.key).2 h.accepted

/-- The key 1 and the nonce 1, for a hash of zeros. -/
theorem verify_signed_one :
    (netTlsVerifyEcdsaP256 (p256FeToBe32 p256Gx) (p256FeToBe32 p256Gy)
      (p256FeToBe32 (p256Gx % p256N)) (p256FeToBe32 (p256Gx % p256N)) (p256FeToBe32 0)).1 = true := by
  have hone : times (1 : ZMod p256N) generator = generator := times_one generator
  have hx : (p256Gx : ZMod p256P).val = p256Gx := ZMod.val_natCast_of_lt (by decide)
  refine verify_signed (d := 1) (k := 1) ?_
  rw [feFromBe32_toBe32 (by decide), feFromBe32_toBe32 (by decide), feFromBe32_toBe32 (by decide),
    feFromBe32_toBe32 (by decide)]
  refine ⟨⟨⟨_, hone⟩, by decide, by decide⟩, ⟨_, _, _, hone, by rw [hx]⟩, by decide, ?_, by decide⟩
  rw [inv_one, one_mul, mul_one, Nat.cast_zero, zero_add, ZMod.val_natCast, Nat.mod_mod]

/-! ## The opposite signature -/

/-- Opposite points share their `x`. -/
theorem exists_x_neg {P : p256Curve.Point} {r : ℕ} :
    (∃ x y h, -P = WeierstrassCurve.Affine.Point.some x y h ∧ x.val % p256N = r) ↔
      ∃ x y h, P = WeierstrassCurve.Affine.Point.some x y h ∧ x.val % p256N = r := by
  have hone : ∀ {P : p256Curve.Point},
      (∃ x y h, P = WeierstrassCurve.Affine.Point.some x y h ∧ x.val % p256N = r) →
        ∃ x y h, -P = WeierstrassCurve.Affine.Point.some x y h ∧ x.val % p256N = r := by
    rintro _ ⟨x, y, h, rfl, hr⟩
    exact ⟨x, _, _, WeierstrassCurve.Affine.Point.neg_some h, hr⟩
  refine ⟨fun h => ?_, hone⟩
  have hback := hone h
  rwa [neg_neg] at hback

/-- The sum with the opposite second half is the opposite point. -/
theorem sum_opposite {d : ZMod p256N} {s s' : ℕ} (hopp : s + s' = p256N) (r hash : ℕ) :
    times ((hash : ZMod p256N) * (s' : ZMod p256N)⁻¹) generator +
        times ((r : ZMod p256N) * (s' : ZMod p256N)⁻¹) (times d generator) =
      -(times ((hash : ZMod p256N) * (s : ZMod p256N)⁻¹) generator +
        times ((r : ZMod p256N) * (s : ZMod p256N)⁻¹) (times d generator)) := by
  have hneg : (s' : ZMod p256N) = -(s : ZMod p256N) := by
    rw [eq_neg_iff_add_eq_zero, ← Nat.cast_add, Nat.add_comm, hopp, ZMod.natCast_self]
  have hd : p256N • times d generator = 0 := by
    rw [times, nsmul_left_comm, order_generator, nsmul_zero]
  rw [neg_add, ← times_neg order_generator, ← times_neg hd, ← mul_neg, ← mul_neg, ← inv_neg,
    ← hneg]

/-- With `s` a signature is accepted as with `n - s`. -/
theorem verify_opposite {d : ZMod p256N} {pubX pubY sigR sigS opposite hash : List UInt8}
    (hkey : KeyOf d (p256FeFromBe32 pubX) (p256FeFromBe32 pubY))
    (hopp : p256FeFromBe32 sigS + p256FeFromBe32 opposite = p256N) :
    (netTlsVerifyEcdsaP256 pubX pubY sigR opposite hash).1 =
      (netTlsVerifyEcdsaP256 pubX pubY sigR sigS hash).1 := by
  rw [Bool.eq_iff_iff, verify_key_iff sigR opposite hash hkey, verify_key_iff sigR sigS hash hkey,
    sum_opposite hopp, exists_x_neg]
  refine and_congr_right fun _ => and_congr_left fun _ => ?_
  omega

theorem keyOf_one : KeyOf 1 (p256FeFromBe32 (p256FeToBe32 p256Gx))
    (p256FeFromBe32 (p256FeToBe32 p256Gy)) := by
  rw [feFromBe32_toBe32 (by decide), feFromBe32_toBe32 (by decide)]
  exact ⟨⟨_, times_one generator⟩, by decide, by decide⟩

theorem verify_opposite_one :
    (netTlsVerifyEcdsaP256 (p256FeToBe32 p256Gx) (p256FeToBe32 p256Gy) (p256FeToBe32 3)
      (p256FeToBe32 (p256N - 5)) (p256FeToBe32 2)).1 =
    (netTlsVerifyEcdsaP256 (p256FeToBe32 p256Gx) (p256FeToBe32 p256Gy) (p256FeToBe32 3)
      (p256FeToBe32 5) (p256FeToBe32 2)).1 :=
  verify_opposite keyOf_one
    (by rw [feFromBe32_toBe32 (by decide), feFromBe32_toBe32 (by decide)]; decide)

end MinervaOS.Tls
