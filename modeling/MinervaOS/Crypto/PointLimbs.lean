import MinervaOS.Crypto.FieldLimbs

/-!
# The points of P-256, limb by limb

The point functions of the source on field elements of eight limbs. `P256Point.numbers` reads the
limbs of a point as numbers; each function computes on the limbs what the function of the same name
computes on the numbers, with the product that the reduction loop leaves.
-/

namespace MinervaOS.Crypto

namespace Limbwise

structure P256Point where
  x : P256Fe
  y : P256Fe
  infinity : Bool
  deriving DecidableEq

structure P256Jacobian where
  x : P256Fe
  y : P256Fe
  z : P256Fe
  infinity : Bool

def P256Point.numbers (p : P256Point) : Crypto.P256Point := ⟨p.x.value, p.y.value, p.infinity⟩

def P256Jacobian.numbers (p : P256Jacobian) : Crypto.P256Jacobian :=
  ⟨p.x.value, p.y.value, p.z.value, p.infinity⟩

def p256FeSquare (a : P256Fe) : P256Fe := p256FeMul a a

def p256PointInfinity : P256Point := ⟨p256FeZero, p256FeZero, true⟩

def p256PointOnCurve (p : P256Point) : Bool :=
  if p.infinity then true
  else
    let y2 := p256FeSquare p.y
    let x2 := p256FeSquare p.x
    let x3 := p256FeMul x2 p.x
    let rhs := p256FeSub x3 p.x
    let rhs := p256FeSub rhs p.x
    let rhs := p256FeSub rhs p.x
    let rhs := p256FeAdd rhs (p256FeFromBe32 p256BBe)
    p256FeEqual y2 rhs

/-- The point that is left, and whether 1 is returned. -/
def p256PointFromBe32 (x y : List UInt8) : P256Point × Bool :=
  if !p256FeValidBe32 x || !p256FeValidBe32 y then (p256PointInfinity, false)
  else
    let out : P256Point := ⟨p256FeFromBe32 x, p256FeFromBe32 y, false⟩
    if !p256PointOnCurve out then (p256PointInfinity, false) else (out, true)

def p256BasePoint : P256Point := ⟨p256FeFromBe32 p256GxBe, p256FeFromBe32 p256GyBe, false⟩

def p256FeTwice (a : P256Fe) : P256Fe := p256FeAdd a a
def p256FeThrice (a : P256Fe) : P256Fe := p256FeAdd (p256FeAdd a a) a
def p256FeFour (a : P256Fe) : P256Fe := p256FeTwice (p256FeTwice a)
def p256FeEight (a : P256Fe) : P256Fe := p256FeTwice (p256FeFour a)

def p256JacobianInfinity : P256Jacobian := ⟨p256FeZero, p256FeZero, p256FeZero, true⟩

def p256JacobianFromPoint (p : P256Point) : P256Jacobian :=
  if p.infinity then p256JacobianInfinity else ⟨p.x, p.y, p256FeOne, false⟩

def p256JacobianToPoint (p : P256Jacobian) : P256Point :=
  if p.infinity || p256FeIsZero p.z then p256PointInfinity
  else
    let zinv := p256FeInv p.z
    let z2 := p256FeSquare zinv
    let z3 := p256FeMul z2 zinv
    ⟨p256FeMul p.x z2, p256FeMul p.y z3, false⟩

def p256JacobianDouble (p : P256Jacobian) : P256Jacobian :=
  if p.infinity || p256FeIsZero p.y then p256JacobianInfinity
  else
    let delta := p256FeSquare p.z
    let gamma := p256FeSquare p.y
    let beta := p256FeMul p.x gamma
    let xMinusDelta := p256FeSub p.x delta
    let xPlusDelta := p256FeAdd p.x delta
    let alpha := p256FeMul xMinusDelta xPlusDelta
    let alpha := p256FeThrice alpha
    let alpha2 := p256FeSquare alpha
    let eightBeta := p256FeEight beta
    let x3 := p256FeSub alpha2 eightBeta
    let fourBeta := p256FeFour beta
    let tmp := p256FeSub fourBeta x3
    let tmp := p256FeMul alpha tmp
    let gamma2 := p256FeSquare gamma
    let eightGamma2 := p256FeEight gamma2
    let y3 := p256FeSub tmp eightGamma2
    let yPlusZ := p256FeAdd p.y p.z
    let z3 := p256FeSquare yPlusZ
    let z3 := p256FeSub z3 gamma
    let z3 := p256FeSub z3 delta
    ⟨x3, y3, z3, false⟩

def p256JacobianAddMixed (a : P256Jacobian) (b : P256Point) : P256Jacobian :=
  if a.infinity then p256JacobianFromPoint b
  else if b.infinity then a
  else
    let z1z1 := p256FeSquare a.z
    let u2 := p256FeMul b.x z1z1
    let s2 := p256FeMul a.z z1z1
    let s2 := p256FeMul s2 b.y
    let h := p256FeSub u2 a.x
    let r := p256FeSub s2 a.y
    if p256FeIsZero h then
      if p256FeIsZero r then p256JacobianDouble a else p256JacobianInfinity
    else
      let r := p256FeTwice r
      let hh := p256FeSquare h
      let i := p256FeFour hh
      let j := p256FeMul h i
      let v := p256FeMul a.x i
      let x3 := p256FeSquare r
      let x3 := p256FeSub x3 j
      let tmp := p256FeTwice v
      let x3 := p256FeSub x3 tmp
      let tmp := p256FeSub v x3
      let tmp := p256FeMul r tmp
      let tmp2 := p256FeMul a.y j
      let tmp2 := p256FeTwice tmp2
      let y3 := p256FeSub tmp tmp2
      let z3 := p256FeAdd a.z h
      let z3 := p256FeSquare z3
      let z3 := p256FeSub z3 z1z1
      let z3 := p256FeSub z3 hh
      ⟨x3, y3, z3, false⟩

/-- At infinity and with no `y`, the coordinates stay and only the flag is set. -/
def p256PointDouble (p : P256Point) : P256Point :=
  if p.infinity || p256FeIsZero p.y then { p with infinity := true }
  else
    let x2 := p256FeSquare p.x
    let num := p256FeAdd x2 x2
    let num := p256FeAdd num x2
    let num := p256FeSubSmall num 3
    let den := p256FeAdd p.y p.y
    let inv := p256FeInv den
    let lambda := p256FeMul num inv
    let lambda2 := p256FeSquare lambda
    let twoX := p256FeAdd p.x p.x
    let x3 := p256FeSub lambda2 twoX
    let tmp := p256FeSub p.x x3
    let tmp := p256FeMul lambda tmp
    ⟨x3, p256FeSub tmp p.y, false⟩

def p256PointAdd (a b : P256Point) : P256Point :=
  if a.infinity then b
  else if b.infinity then a
  else if p256FeEqual a.x b.x then
    if p256FeEqual a.y b.y then p256PointDouble a else { a with infinity := true }
  else
    let dy := p256FeSub b.y a.y
    let dx := p256FeSub b.x a.x
    let inv := p256FeInv dx
    let lambda := p256FeMul dy inv
    let lambda2 := p256FeSquare lambda
    let x3 := p256FeSub lambda2 a.x
    let x3 := p256FeSub x3 b.x
    let tmp := p256FeSub a.x x3
    let tmp := p256FeMul lambda tmp
    ⟨x3, p256FeSub tmp a.y, false⟩

/-- Doubling at every bit, from the top, and adding the point where the bit is set. -/
def p256PointMulU32 (p : P256Point) (scalar : UInt32) : P256Point :=
  (List.range 32).foldl (fun acc i =>
    let acc := p256PointDouble acc
    if (scalar >>> UInt32.ofNat (31 - i)) &&& 1 != 0 then p256PointAdd acc p else acc)
    p256PointInfinity

def p256PointMulBe32 (p : P256Point) (scalar : List UInt8) : P256Point :=
  (List.range 32).foldl (fun acc i =>
    let byte := scalar.getD i 0
    ([7, 6, 5, 4, 3, 2, 1, 0] : List UInt8).foldl (fun acc bit =>
      let acc := p256PointDouble acc
      if (byte >>> bit) &&& 1 != 0 then p256PointAdd acc p else acc) acc) p256PointInfinity

def p256PointMulBe32Projective (p : P256Point) (scalar : List UInt8) : P256Point :=
  p256JacobianToPoint ((List.range 32).foldl (fun acc i =>
    let byte := scalar.getD i 0
    ([7, 6, 5, 4, 3, 2, 1, 0] : List UInt8).foldl (fun acc bit =>
      let acc := p256JacobianDouble acc
      if (byte >>> bit) &&& 1 != 0 then p256JacobianAddMixed acc p else acc) acc)
    p256JacobianInfinity)

/-! ## The numbers of the limbs -/

@[simp] theorem value_feSquare (a : P256Fe) :
    (p256FeSquare a).value = Crypto.p256FeMul a.value a.value := value_feMul a a

@[simp] theorem value_feTwice (a : P256Fe) :
    (p256FeTwice a).value = Crypto.p256FeTwice a.value := value_feAdd a a

@[simp] theorem value_feThrice (a : P256Fe) :
    (p256FeThrice a).value = Crypto.p256FeThrice a.value := by
  simp [p256FeThrice, Crypto.p256FeThrice]

@[simp] theorem value_feFour (a : P256Fe) :
    (p256FeFour a).value = Crypto.p256FeFour a.value := by
  simp [p256FeFour, Crypto.p256FeFour]

@[simp] theorem value_feEight (a : P256Fe) :
    (p256FeEight a).value = Crypto.p256FeEight a.value := by
  simp [p256FeEight, Crypto.p256FeEight]

@[simp] theorem bBe_spec : Crypto.p256FeFromBe32 p256BBe = Crypto.p256B := by decide

theorem numbers_basePoint : p256BasePoint.numbers = Crypto.p256BasePoint := by decide

@[simp] theorem numbers_pointInfinity : p256PointInfinity.numbers = Crypto.p256PointInfinity := by
  simp [p256PointInfinity, P256Point.numbers, Crypto.p256PointInfinity]

@[simp] theorem numbers_jacobianInfinity :
    p256JacobianInfinity.numbers = Crypto.p256JacobianInfinity := by
  simp [p256JacobianInfinity, P256Jacobian.numbers, Crypto.p256JacobianInfinity]

theorem pointOnCurve_numbers (p : P256Point) :
    p256PointOnCurve p = Crypto.p256PointOnCurve Crypto.p256FeMul p.numbers := by
  cases h : p.infinity <;> simp [p256PointOnCurve, Crypto.p256PointOnCurve, P256Point.numbers, h]

theorem numbers_jacobianFromPoint (p : P256Point) :
    (p256JacobianFromPoint p).numbers = Crypto.p256JacobianFromPoint p.numbers := by
  cases h : p.infinity
  · simp [p256JacobianFromPoint, Crypto.p256JacobianFromPoint, P256Jacobian.numbers,
      P256Point.numbers, h]
  · simp [p256JacobianFromPoint, Crypto.p256JacobianFromPoint, P256Point.numbers, h]

theorem numbers_jacobianToPoint (p : P256Jacobian) :
    (p256JacobianToPoint p).numbers
      = Crypto.p256JacobianToPoint Crypto.p256FeMul p.numbers := by
  rw [p256JacobianToPoint, Crypto.p256JacobianToPoint, apply_ite P256Point.numbers,
    numbers_pointInfinity]
  simp [P256Jacobian.numbers, P256Point.numbers]

theorem numbers_jacobianDouble (p : P256Jacobian) :
    (p256JacobianDouble p).numbers = Crypto.p256JacobianDouble Crypto.p256FeMul p.numbers := by
  rw [p256JacobianDouble, Crypto.p256JacobianDouble, apply_ite P256Jacobian.numbers,
    numbers_jacobianInfinity]
  simp [P256Jacobian.numbers]

theorem numbers_jacobianAddMixed (a : P256Jacobian) (b : P256Point) :
    (p256JacobianAddMixed a b).numbers
      = Crypto.p256JacobianAddMixed Crypto.p256FeMul a.numbers b.numbers := by
  simp only [p256JacobianAddMixed, Crypto.p256JacobianAddMixed, apply_ite P256Jacobian.numbers,
    numbers_jacobianFromPoint, numbers_jacobianDouble, numbers_jacobianInfinity]
  simp [P256Jacobian.numbers, P256Point.numbers]

theorem numbers_pointDouble (p : P256Point) :
    (p256PointDouble p).numbers = Crypto.p256PointDouble Crypto.p256FeMul p.numbers := by
  simp only [p256PointDouble, Crypto.p256PointDouble, apply_ite P256Point.numbers]
  simp [P256Point.numbers]

theorem numbers_pointAdd (a b : P256Point) :
    (p256PointAdd a b).numbers
      = Crypto.p256PointAdd Crypto.p256FeMul a.numbers b.numbers := by
  simp only [p256PointAdd, Crypto.p256PointAdd, apply_ite P256Point.numbers, numbers_pointDouble]
  simp [P256Point.numbers]

/-! ## The multiplications -/

theorem byte_bit (byte bit : UInt8) (h : bit.toNat < 8) :
    (byte >>> bit &&& 1 != 0) = byte.toNat.testBit bit.toNat := by
  rw [Bool.eq_iff_iff, bne_iff_ne, ne_eq, ← UInt8.toNat_inj, UInt8.toNat_and,
    UInt8.toNat_shiftRight, Nat.mod_eq_of_lt h, Nat.testBit, bne_iff_ne, Nat.and_comm]
  rfl

theorem word_bit (word : UInt32) {bit : ℕ} (h : bit < 32) :
    (word >>> UInt32.ofNat bit &&& 1 != 0) = word.toNat.testBit bit := by
  have hbit : (UInt32.ofNat bit).toNat % 32 = bit := by
    rw [UInt32.toNat_ofNat']
    omega
  rw [Bool.eq_iff_iff, bne_iff_ne, ne_eq, ← UInt32.toNat_inj, UInt32.toNat_and,
    UInt32.toNat_shiftRight, hbit, Nat.testBit, bne_iff_ne, Nat.and_comm]
  rfl

/-- A step for every bit of every byte is a step for every bit of the scalar. -/
theorem foldl_scalarBits {β : Type*} (step : β → Bool → β) (scalar : List UInt8) (start : β) :
    (List.range 32).foldl (fun acc i =>
      ([7, 6, 5, 4, 3, 2, 1, 0] : List UInt8).foldl (fun acc bit =>
        step acc (scalar.getD i 0 >>> bit &&& 1 != 0)) acc) start
      = (scalarBits scalar).foldl step start := by
  rw [scalarBits, List.foldl_flatMap]
  congr 1
  funext acc i
  simp only [List.foldl_cons, List.foldl_nil, List.map_cons, List.map_nil]
  rw [byte_bit _ 7 (by decide), byte_bit _ 6 (by decide), byte_bit _ 5 (by decide),
    byte_bit _ 4 (by decide), byte_bit _ 3 (by decide), byte_bit _ 2 (by decide),
    byte_bit _ 1 (by decide), byte_bit _ 0 (by decide)]
  rfl

theorem foldl_wordBits {β : Type*} (step : β → Bool → β) (scalar : UInt32) (start : β) :
    (List.range 32).foldl (fun acc i =>
      step acc (scalar >>> UInt32.ofNat (31 - i) &&& 1 != 0)) start
      = (wordBits scalar).foldl step start := by
  rw [wordBits, List.foldl_map]
  refine List.foldl_ext _ _ _ fun acc i hi => ?_
  rw [word_bit _ (by omega)]

/-- The rounds of a multiplication, on the limbs and on the numbers. -/
theorem numbers_foldl (p : P256Point) (bits : List Bool) (acc : P256Point) :
    (bits.foldl (fun acc bit =>
      if bit then p256PointAdd (p256PointDouble acc) p else p256PointDouble acc) acc).numbers
      = bits.foldl (fun acc bit =>
          let acc := Crypto.p256PointDouble Crypto.p256FeMul acc
          if bit then Crypto.p256PointAdd Crypto.p256FeMul acc p.numbers else acc)
        acc.numbers := by
  induction bits generalizing acc with
  | nil => rfl
  | cons bit bits ih =>
    rw [List.foldl_cons, List.foldl_cons, ih]
    cases bit <;> simp only [numbers_pointAdd, numbers_pointDouble, if_true, Bool.false_eq_true,
      if_false]

theorem numbers_foldl_projective (p : P256Point) (bits : List Bool) (acc : P256Jacobian) :
    (bits.foldl (fun acc bit =>
      if bit then p256JacobianAddMixed (p256JacobianDouble acc) p
      else p256JacobianDouble acc) acc).numbers
      = bits.foldl (fun acc bit =>
          let acc := Crypto.p256JacobianDouble Crypto.p256FeMul acc
          if bit then Crypto.p256JacobianAddMixed Crypto.p256FeMul acc p.numbers else acc)
        acc.numbers := by
  induction bits generalizing acc with
  | nil => rfl
  | cons bit bits ih =>
    rw [List.foldl_cons, List.foldl_cons, ih]
    cases bit <;> simp only [numbers_jacobianAddMixed, numbers_jacobianDouble, if_true,
      Bool.false_eq_true, if_false]

theorem numbers_pointMulU32 (p : P256Point) (scalar : UInt32) :
    (p256PointMulU32 p scalar).numbers
      = Crypto.p256PointMulU32 Crypto.p256FeMul p.numbers scalar := by
  rw [p256PointMulU32, foldl_wordBits (fun acc bit =>
      if bit then p256PointAdd (p256PointDouble acc) p else p256PointDouble acc),
    numbers_foldl, numbers_pointInfinity]
  rfl

theorem numbers_pointMulBe32 (p : P256Point) (scalar : List UInt8) :
    (p256PointMulBe32 p scalar).numbers
      = Crypto.p256PointMulBe32 Crypto.p256FeMul p.numbers scalar := by
  rw [p256PointMulBe32, foldl_scalarBits (fun acc bit =>
      if bit then p256PointAdd (p256PointDouble acc) p else p256PointDouble acc),
    numbers_foldl, numbers_pointInfinity]
  rfl

theorem numbers_pointMulBe32Projective (p : P256Point) (scalar : List UInt8) :
    (p256PointMulBe32Projective p scalar).numbers
      = Crypto.p256PointMulBe32Projective Crypto.p256FeMul p.numbers scalar := by
  rw [p256PointMulBe32Projective, foldl_scalarBits (fun acc bit =>
      if bit then p256JacobianAddMixed (p256JacobianDouble acc) p else p256JacobianDouble acc),
    numbers_jacobianToPoint, numbers_foldl_projective, numbers_jacobianInfinity]
  rfl

end Limbwise

end MinervaOS.Crypto
