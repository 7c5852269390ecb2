import Mathlib.Algebra.GroupWithZero.Nat
import Mathlib.Data.Nat.Bits
import Mathlib.Tactic.SplitIfs

/-!
# The curve P-256

Field elements and scalars are the numbers that their eight limbs stand for; the carries and borrows
of the limb loops are those of the numbers. Multiplication reduces the double-width product bit by
bit. The point functions take the field multiplication as a parameter, so that the remainder it
computes can stand in for the reduction loop.
-/

namespace MinervaOS.Crypto

def p256P : Nat := 0xFFFFFFFF00000001000000000000000000000000FFFFFFFFFFFFFFFFFFFFFFFF
def p256N : Nat := 0xFFFFFFFF00000000FFFFFFFFFFFFFFFFBCE6FAADA7179E84F3B9CAC2FC632551
def p256B : Nat := 0x5AC635D8AA3A93E7B3EBBD55769886BC651D06B0CC53B0F63BCE3C3E27D2604B
def p256Gx : Nat := 0x6B17D1F2E12C4247F8BCE6E563A440F277037D812DEB33A0F4A13945D898C296
def p256Gy : Nat := 0x4FE342E2FE1A7F9B8EE7EB4A7C0F9E162BCE33576B315ECECBB6406837BF51F5

/-! ## Field elements and scalars -/

def p256FeFromBe32 (src : List UInt8) : Nat :=
  (List.range 32).foldl (fun value i => 256 * value + (src.getD i 0).toNat) 0

def p256FeToBe32 (src : Nat) : List UInt8 :=
  (List.range 32).map fun i => UInt8.ofNat (src / 256 ^ (31 - i))

/-- The difference of the limbs, and whether a borrow is left. -/
def p256RawSub (a b : Nat) : Nat × Bool := ((a + 2 ^ 256 - b) % 2 ^ 256, a < b)

/-- The sum of the limbs, and the carry. -/
def p256RawAdd (a b : Nat) : Nat × Nat := ((a + b) % 2 ^ 256, (a + b) / 2 ^ 256)

def p256ReduceOnce (out carry : Nat) : Nat :=
  if carry != 0 || out ≥ p256P then (p256RawSub out p256P).1 else out

def p256FeAdd (a b : Nat) : Nat :=
  let (out, carry) := p256RawAdd a b
  p256ReduceOnce out carry

def p256FeSub (a b : Nat) : Nat :=
  let (out, borrow) := p256RawSub a b
  if borrow then (p256RawAdd out p256P).1 else out

/-- The bits of the product from `bit` down are shifted into the remainder. -/
def reduceBits (product mod : Nat) : Nat → Nat → Nat
  | 0, rem => rem
  | bit + 1, rem =>
    let rem := 2 * rem + (product.testBit bit).toNat
    reduceBits product mod bit (if rem ≥ mod then rem - mod else rem)

def p256ReduceProductMod (product mod : Nat) : Nat := reduceBits product mod 512 0

/-- The product of two vectors of eight limbs has sixteen. -/
def p256FeMul (a b : Nat) : Nat := p256ReduceProductMod (a * b % 2 ^ 512) p256P

def p256ScalarMul (a b : Nat) : Nat := p256ReduceProductMod (a * b % 2 ^ 512) p256N

/-- Square and multiply over the bits of `exp` from `bit` down. -/
def expBits (mul : Nat → Nat → Nat) (exp base : Nat) : Nat → Nat → Nat
  | 0, result => result
  | bit + 1, result =>
    let result := mul result result
    expBits mul exp base bit (if exp.testBit bit then mul result base else result)

def p256FeInv (mul : Nat → Nat → Nat) (a : Nat) : Nat := expBits mul (p256P - 2) a 256 1

def p256ScalarInv (mul : Nat → Nat → Nat) (a : Nat) : Nat := expBits mul (p256N - 2) a 256 1

/-- Subtracting the order as long as it goes leaves the remainder. -/
def p256ScalarFromFe (src : Nat) : Nat := src % p256N

def p256ScalarFromBe32 (src : List UInt8) : Nat := p256ScalarFromFe (p256FeFromBe32 src)

def p256ScalarValidBe32 (src : List UInt8) : Bool :=
  p256FeFromBe32 src != 0 && p256FeFromBe32 src < p256N

/-! ## Points -/

structure P256Point where
  x : Nat
  y : Nat
  infinity : Bool
  deriving DecidableEq, Repr

structure P256Jacobian where
  x : Nat
  y : Nat
  z : Nat
  infinity : Bool

def p256PointInfinity : P256Point := ⟨0, 0, true⟩
def p256JacobianInfinity : P256Jacobian := ⟨0, 0, 0, true⟩
def p256BasePoint : P256Point := ⟨p256Gx, p256Gy, false⟩

section

variable (mul : Nat → Nat → Nat)

def p256PointOnCurve (p : P256Point) : Bool :=
  if p.infinity then true
  else
    let y2 := mul p.y p.y
    let x2 := mul p.x p.x
    let x3 := mul x2 p.x
    let rhs := p256FeSub (p256FeSub (p256FeSub x3 p.x) p.x) p.x
    y2 == p256FeAdd rhs p256B

/-- `none` where the source leaves the point at infinity and returns 0. -/
def p256PointFromBe32 (x y : List UInt8) : Option P256Point :=
  if p256FeFromBe32 x ≥ p256P || p256FeFromBe32 y ≥ p256P then none
  else
    let p : P256Point := ⟨p256FeFromBe32 x, p256FeFromBe32 y, false⟩
    if p256PointOnCurve mul p then some p else none

def p256FeTwice (a : Nat) : Nat := p256FeAdd a a
def p256FeThrice (a : Nat) : Nat := p256FeAdd (p256FeAdd a a) a
def p256FeFour (a : Nat) : Nat := p256FeTwice (p256FeTwice a)
def p256FeEight (a : Nat) : Nat := p256FeTwice (p256FeFour a)

def p256JacobianFromPoint (p : P256Point) : P256Jacobian :=
  if p.infinity then p256JacobianInfinity else ⟨p.x, p.y, 1, false⟩

def p256JacobianToPoint (p : P256Jacobian) : P256Point :=
  if p.infinity || p.z == 0 then p256PointInfinity
  else
    let zinv := p256FeInv mul p.z
    let z2 := mul zinv zinv
    let z3 := mul z2 zinv
    ⟨mul p.x z2, mul p.y z3, false⟩

def p256JacobianDouble (p : P256Jacobian) : P256Jacobian :=
  if p.infinity || p.y == 0 then p256JacobianInfinity
  else
    let delta := mul p.z p.z
    let gamma := mul p.y p.y
    let beta := mul p.x gamma
    let alpha := p256FeThrice (mul (p256FeSub p.x delta) (p256FeAdd p.x delta))
    let x3 := p256FeSub (mul alpha alpha) (p256FeEight beta)
    let tmp := mul alpha (p256FeSub (p256FeFour beta) x3)
    let y3 := p256FeSub tmp (p256FeEight (mul gamma gamma))
    let yPlusZ := p256FeAdd p.y p.z
    let z3 := p256FeSub (p256FeSub (mul yPlusZ yPlusZ) gamma) delta
    ⟨x3, y3, z3, false⟩

def p256JacobianAddMixed (a : P256Jacobian) (b : P256Point) : P256Jacobian :=
  if a.infinity then p256JacobianFromPoint b
  else if b.infinity then a
  else
    let z1z1 := mul a.z a.z
    let u2 := mul b.x z1z1
    let s2 := mul (mul a.z z1z1) b.y
    let h := p256FeSub u2 a.x
    let r := p256FeSub s2 a.y
    if h == 0 then
      if r == 0 then p256JacobianDouble mul a else p256JacobianInfinity
    else
      let r := p256FeTwice r
      let hh := mul h h
      let i := p256FeFour hh
      let j := mul h i
      let v := mul a.x i
      let x3 := p256FeSub (p256FeSub (mul r r) j) (p256FeTwice v)
      let y3 := p256FeSub (mul r (p256FeSub v x3)) (p256FeTwice (mul a.y j))
      let zPlusH := p256FeAdd a.z h
      let z3 := p256FeSub (p256FeSub (mul zPlusH zPlusH) z1z1) hh
      ⟨x3, y3, z3, false⟩

def p256PointDouble (p : P256Point) : P256Point :=
  if p.infinity || p.y == 0 then { p with infinity := true }
  else
    let x2 := mul p.x p.x
    let num := p256FeSub (p256FeAdd (p256FeAdd x2 x2) x2) 3
    let lambda := mul num (p256FeInv mul (p256FeAdd p.y p.y))
    let x3 := p256FeSub (mul lambda lambda) (p256FeAdd p.x p.x)
    ⟨x3, p256FeSub (mul lambda (p256FeSub p.x x3)) p.y, false⟩

def p256PointAdd (a b : P256Point) : P256Point :=
  if a.infinity then b
  else if b.infinity then a
  else if a.x == b.x then
    if a.y == b.y then p256PointDouble mul a else { a with infinity := true }
  else
    let lambda := mul (p256FeSub b.y a.y) (p256FeInv mul (p256FeSub b.x a.x))
    let x3 := p256FeSub (p256FeSub (mul lambda lambda) a.x) b.x
    ⟨x3, p256FeSub (mul lambda (p256FeSub a.x x3)) a.y, false⟩

/-- The bits of a scalar, the first byte's top bit first. -/
def scalarBits (scalar : List UInt8) : List Bool :=
  (List.range 32).flatMap fun i =>
    [7, 6, 5, 4, 3, 2, 1, 0].map fun bit => (scalar.getD i 0).toNat.testBit bit

/-- The bits of a 32-bit scalar, the top one first. -/
def wordBits (scalar : UInt32) : List Bool :=
  (List.range 32).map fun i => scalar.toNat.testBit (31 - i)

def p256PointMulBits (p : P256Point) (bits : List Bool) : P256Point :=
  bits.foldl (fun acc bit =>
    let acc := p256PointDouble mul acc
    if bit then p256PointAdd mul acc p else acc) p256PointInfinity

def p256PointMulU32 (p : P256Point) (scalar : UInt32) : P256Point :=
  p256PointMulBits mul p (wordBits scalar)

def p256PointMulBe32 (p : P256Point) (scalar : List UInt8) : P256Point :=
  p256PointMulBits mul p (scalarBits scalar)

def p256PointMulBe32Projective (p : P256Point) (scalar : List UInt8) : P256Point :=
  p256JacobianToPoint mul ((scalarBits scalar).foldl (fun acc bit =>
    let acc := p256JacobianDouble mul acc
    if bit then p256JacobianAddMixed mul acc p else acc) p256JacobianInfinity)

end

end MinervaOS.Crypto
