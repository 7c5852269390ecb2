import MinervaOS.Crypto.InPlace
import MinervaOS.Crypto.P256Curve

/-!
# The sum of two points in place

`p256PointAdd` and `p256PointDouble` as programs over variables: those of the points, which pointers
name, and the local ones. On points that are at infinity or on the curve the output is the sum in
the group of the curve, and such a point again, whichever of the pointers are equal. At infinity the
coordinates may be any (`Valid`).
-/

namespace MinervaOS.Crypto

namespace InPlace

open Limbwise

/-- The local variables of the two functions. -/
inductive Local
  | x2 | num | den | inv | lambda | lambda2 | twoX | x3 | y3 | tmp | dy | dx | small
  deriving DecidableEq

/-- The field elements: the coordinates of the point at an address, and the local variables. -/
inductive Var
  | x (p : ℕ)
  | y (p : ℕ)
  | loc (l : Local)
  deriving DecidableEq

structure Points where
  fe : Vars Var
  infinity : ℕ → Bool

abbrev PointM := StateM Points

def Points.point (s : Points) (p : ℕ) : Limbwise.P256Point :=
  ⟨s.fe (.x p), s.fe (.y p), s.infinity p⟩

def Points.set (s : Points) (v : Var) (r : P256Fe) : Points :=
  { s with fe := Function.update s.fe v r }

def fe (m : FeM Var Unit) : PointM Unit := modify fun s => { s with fe := (m.run s.fe).2 }

def setInfinity (out : ℕ) (infinity : Bool) : PointM Unit :=
  modify fun s => { s with infinity := Function.update s.infinity out infinity }

/-- `*out = *p` -/
def copyPoint (out p : ℕ) : PointM Unit :=
  modify fun s =>
    { fe := Function.update (Function.update s.fe (.x out) (s.fe (.x p))) (.y out) (s.fe (.y p))
      infinity := Function.update s.infinity out (s.infinity p) }

def copyFe (out src : Var) : PointM Unit :=
  modify fun s => { s with fe := Function.update s.fe out (s.fe src) }

def p256PointDouble (out p : ℕ) : PointM Unit := do
  let s ← get
  if s.infinity p || p256FeIsZero (s.fe (.y p)) then
    copyPoint out p
    setInfinity out true
  else
    fe (p256FeSquare (.loc .x2) (.x p))
    fe (p256FeAdd (.loc .num) (.loc .x2) (.loc .x2))
    fe (p256FeAdd (.loc .num) (.loc .num) (.loc .x2))
    fe (p256FeSubSmall (.loc .num) (.loc .num) (.loc .small) 3)
    fe (p256FeAdd (.loc .den) (.y p) (.y p))
    fe (p256FeInv (.loc .inv) (.loc .den))
    fe (p256FeMul (.loc .lambda) (.loc .num) (.loc .inv))
    fe (p256FeSquare (.loc .lambda2) (.loc .lambda))
    fe (p256FeAdd (.loc .twoX) (.x p) (.x p))
    fe (p256FeSub (.loc .x3) (.loc .lambda2) (.loc .twoX))
    fe (p256FeSub (.loc .tmp) (.x p) (.loc .x3))
    fe (p256FeMul (.loc .tmp) (.loc .lambda) (.loc .tmp))
    fe (p256FeSub (.loc .y3) (.loc .tmp) (.y p))
    copyFe (.x out) (.loc .x3)
    copyFe (.y out) (.loc .y3)
    setInfinity out false

def p256PointAdd (out a b : ℕ) : PointM Unit := do
  let s ← get
  if s.infinity a then copyPoint out b
  else if s.infinity b then copyPoint out a
  else if p256FeEqual (s.fe (.x a)) (s.fe (.x b)) then
    if p256FeEqual (s.fe (.y a)) (s.fe (.y b)) then p256PointDouble out a
    else
      copyPoint out a
      setInfinity out true
  else
    fe (p256FeSub (.loc .dy) (.y b) (.y a))
    fe (p256FeSub (.loc .dx) (.x b) (.x a))
    fe (p256FeInv (.loc .inv) (.loc .dx))
    fe (p256FeMul (.loc .lambda) (.loc .dy) (.loc .inv))
    fe (p256FeSquare (.loc .lambda2) (.loc .lambda))
    fe (p256FeSub (.loc .x3) (.loc .lambda2) (.x a))
    fe (p256FeSub (.loc .x3) (.loc .x3) (.x b))
    fe (p256FeSub (.loc .tmp) (.x a) (.loc .x3))
    fe (p256FeMul (.loc .tmp) (.loc .lambda) (.loc .tmp))
    fe (p256FeSub (.loc .y3) (.loc .tmp) (.y a))
    copyFe (.x out) (.loc .x3)
    copyFe (.y out) (.loc .y3)
    setInfinity out false

/-! ## What they leave -/

namespace Points

variable (s : Points) (v w : Var) (r : P256Fe)

@[simp] theorem set_infinity : (s.set v r).infinity = s.infinity := rfl

@[simp] theorem set_self : (s.set v r).fe v = r := Function.update_self ..

@[simp] theorem set_of_ne (h : w ≠ v) : (s.set v r).fe w = s.fe w := Function.update_of_ne h ..

end Points

section

variable (s : Points) (out a b : Var) {rest : PointM Unit}

/-- A step on field elements, with the steps behind it. -/
theorem run_fe {m : FeM Var Unit} {r : P256Fe} (h : Leaves m out s.fe r) :
    (do fe m; rest).run s = rest.run (s.set out r) := by
  unfold fe
  rw [StateT.run_bind, StateT.run_modify, h, pure_bind]
  rfl

theorem run_feAdd : (do fe (p256FeAdd out a b); rest).run s =
    rest.run (s.set out (Limbwise.p256FeAdd (s.fe a) (s.fe b))) :=
  run_fe s out (feAdd_leaves out a b s.fe)

theorem run_feSub : (do fe (p256FeSub out a b); rest).run s =
    rest.run (s.set out (Limbwise.p256FeSub (s.fe a) (s.fe b))) :=
  run_fe s out (feSub_leaves out a b s.fe)

theorem run_feMul : (do fe (p256FeMul out a b); rest).run s =
    rest.run (s.set out (Limbwise.p256FeMul (s.fe a) (s.fe b))) :=
  run_fe s out (feMul_leaves out a b s.fe)

theorem run_feSquare : (do fe (p256FeSquare out a); rest).run s =
    rest.run (s.set out (Limbwise.p256FeSquare (s.fe a))) :=
  run_fe s out (feMul_leaves out a a s.fe)

theorem run_feInv : (do fe (p256FeInv out a); rest).run s =
    rest.run (s.set out (Limbwise.p256FeInv (s.fe a))) := rfl

/-- The small number is kept in a variable that no other step uses. -/
theorem run_feSubSmall (small : Var) (value : UInt32) (h : a ≠ small) :
    (do fe (p256FeSubSmall out a small value); rest).run s = rest.run
      ((s.set small ⟨[value, 0, 0, 0, 0, 0, 0, 0], rfl⟩).set out
        (Limbwise.p256FeSubSmall (s.fe a) value)) := by
  have hassign := assign_leaves small s.fe ⟨[value, 0, 0, 0, 0, 0, 0, 0], rfl⟩
  unfold fe
  rw [StateT.run_bind, StateT.run_modify, pure_bind]
  unfold p256FeSubSmall Limbwise.p256FeSubSmall
  rw [StateT.run_bind, hassign, pure_bind, feSub_leaves]
  dsimp only
  rw [Function.update_self, Function.update_of_ne h]
  rfl

/-- The end of both functions. -/
theorem run_finish (p : ℕ) : (do
      copyFe (.x p) (.loc .x3)
      copyFe (.y p) (.loc .y3)
      setInfinity p false : PointM Unit).run s =
    pure ((), { (s.set (.x p) (s.fe (.loc .x3))).set (.y p) (s.fe (.loc .y3)) with
      infinity := Function.update s.infinity p false }) := by
  have hne : Var.loc .y3 ≠ Var.x p := by simp
  unfold copyFe setInfinity
  simp only [StateT.run_bind, StateT.run_modify, pure_bind, Function.update_of_ne hne]
  rfl

end

/-- The program leaves the point `r` at the address `out`, and the points elsewhere as they were. -/
def LeavesPoint (m : PointM Unit) (out : ℕ) (s : Points) (r : Limbwise.P256Point) : Prop :=
  ∃ s', m.run s = pure ((), s') ∧ s'.point out = r ∧ ∀ q, q ≠ out → s'.point q = s.point q

variable (out a b : ℕ) (s : Points)

theorem copyPoint_leaves : LeavesPoint (copyPoint out a) out s (s.point a) := by
  refine ⟨_, rfl, by simp [Points.point], ?_⟩
  intro q hq
  simp [Points.point, hq]

theorem copyPoint_infinity_leaves :
    LeavesPoint (do copyPoint out a; setInfinity out true) out s
      { s.point a with infinity := true } := by
  refine ⟨_, rfl, by simp [Points.point], ?_⟩
  intro q hq
  simp [Points.point, hq]

theorem pointDouble_leaves :
    LeavesPoint (p256PointDouble out a) out s (Limbwise.p256PointDouble (s.point a)) := by
  unfold Limbwise.p256PointDouble
  by_cases h : (s.infinity a || p256FeIsZero (s.fe (.y a))) = true
  · have hrun : (p256PointDouble out a).run s =
        (do copyPoint out a; setInfinity out true : PointM Unit).run s := by
      unfold p256PointDouble
      rw [StateT.run_bind, StateT.run_get, pure_bind, if_pos h]
    have hleaves := copyPoint_infinity_leaves out a s
    rw [if_pos (show ((s.point a).infinity || p256FeIsZero (s.point a).y) = true from h)]
    unfold LeavesPoint
    rw [hrun]
    exact hleaves
  · rw [if_neg (show ¬((s.point a).infinity || p256FeIsZero (s.point a).y) = true from h)]
    unfold LeavesPoint p256PointDouble
    rw [StateT.run_bind, StateT.run_get, pure_bind, if_neg h, run_feSquare, run_feAdd, run_feAdd,
      run_feSubSmall _ _ _ _ _ (by simp), run_feAdd, run_feInv, run_feMul, run_feSquare, run_feAdd,
      run_feSub, run_feSub, run_feMul, run_feSub, run_finish]
    refine ⟨_, rfl, ?_, ?_⟩
    · simp [Points.point]
    · intro q hq
      simp [Points.point, hq]

theorem pointAdd_leaves :
    LeavesPoint (p256PointAdd out a b) out s
      (Limbwise.p256PointAdd (s.point a) (s.point b)) := by
  have hstart (m : PointM Unit) (h : (p256PointAdd out a b).run s = m.run s)
      {r : Limbwise.P256Point} (hm : LeavesPoint m out s r) :
      LeavesPoint (p256PointAdd out a b) out s r := by
    unfold LeavesPoint
    rw [h]
    exact hm
  unfold Limbwise.p256PointAdd
  by_cases ha : s.infinity a = true
  · rw [if_pos (show (s.point a).infinity = true from ha)]
    refine hstart _ ?_ (copyPoint_leaves out b s)
    unfold p256PointAdd
    rw [StateT.run_bind, StateT.run_get, pure_bind, if_pos ha]
  rw [if_neg (show ¬(s.point a).infinity = true from ha)]
  by_cases hb : s.infinity b = true
  · rw [if_pos (show (s.point b).infinity = true from hb)]
    refine hstart _ ?_ (copyPoint_leaves out a s)
    unfold p256PointAdd
    rw [StateT.run_bind, StateT.run_get, pure_bind, if_neg ha, if_pos hb]
  rw [if_neg (show ¬(s.point b).infinity = true from hb)]
  by_cases hx : p256FeEqual (s.fe (.x a)) (s.fe (.x b)) = true
  · rw [if_pos (show p256FeEqual (s.point a).x (s.point b).x = true from hx)]
    by_cases hy : p256FeEqual (s.fe (.y a)) (s.fe (.y b)) = true
    · rw [if_pos (show p256FeEqual (s.point a).y (s.point b).y = true from hy)]
      refine hstart _ ?_ (pointDouble_leaves out a s)
      unfold p256PointAdd
      rw [StateT.run_bind, StateT.run_get, pure_bind, if_neg ha, if_neg hb, if_pos hx, if_pos hy]
    · rw [if_neg (show ¬p256FeEqual (s.point a).y (s.point b).y = true from hy)]
      refine hstart _ ?_ (copyPoint_infinity_leaves out a s)
      unfold p256PointAdd
      rw [StateT.run_bind, StateT.run_get, pure_bind, if_neg ha, if_neg hb, if_pos hx, if_neg hy]
  · rw [if_neg (show ¬p256FeEqual (s.point a).x (s.point b).x = true from hx)]
    unfold LeavesPoint p256PointAdd
    rw [StateT.run_bind, StateT.run_get, pure_bind, if_neg ha, if_neg hb, if_neg hx, run_feSub,
      run_feSub, run_feInv, run_feMul, run_feSquare, run_feSub, run_feSub, run_feSub, run_feMul,
      run_feSub, run_finish]
    refine ⟨_, rfl, ?_, ?_⟩
    · simp [Points.point]
    · intro q hq
      simp [Points.point, hq]

end InPlace

/-! ## The group -/

theorem pointDouble_is {p : P256Point} {P : p256Curve.Point} (hp : p.Is P) :
    (p256PointDouble p256FeMul p).Is (P + P) := by
  have hdouble := pointDouble_spec hp.canonical
  refine ⟨hdouble.1, ?_⟩
  rw [hdouble.2, hp.affine]
  exact (Jacobian.coords_add_self P).symm

namespace Limbwise.P256Point

/-- Infinity, with any coordinates, or a point of the curve with canonical ones. -/
def Valid (p : P256Point) : Prop :=
  p.infinity = true ∨
    p.numbers.Canonical ∧ p256Curve.Equation (p.x.value : ZMod Crypto.p256P)
      (p.y.value : ZMod Crypto.p256P)

open Classical in
/-- The point of the group that a valid point stands for. -/
noncomputable def group (p : P256Point) : p256Curve.Point :=
  if h : p256Curve.Equation (p.x.value : ZMod Crypto.p256P) (p.y.value : ZMod Crypto.p256P) ∧
    p.infinity = false
  then .mk h.1
  else 0

variable {p : P256Point} {P : p256Curve.Point}

theorem group_infinity (h : p.infinity = true) : p.group = 0 := by
  unfold group
  rw [dif_neg]
  simp [h]

theorem Valid.is (h : p.Valid) (hfinite : p.infinity = false) : p.numbers.Is p.group := by
  rcases h with hinf | ⟨hcanonical, hcurve⟩
  · rw [hinf] at hfinite
    contradiction
  · refine ⟨hcanonical, ?_⟩
    have haffine : p.numbers.affine =
        some ((p.x.value : ZMod Crypto.p256P), (p.y.value : ZMod Crypto.p256P)) := by
      unfold Crypto.P256Point.affine
      rw [if_neg (by simp [numbers, hfinite])]
      rfl
    unfold group
    rw [dif_pos ⟨hcurve, hfinite⟩, haffine]
    rfl

theorem valid_of_is (h : p.numbers.Is P) : p.Valid ∧ p.group = P := by
  cases hinf : p.infinity with
  | true =>
    have haffine := h.affine
    unfold Crypto.P256Point.affine at haffine
    rw [if_pos (show p.numbers.infinity = true from hinf)] at haffine
    have hP : P = 0 := Jacobian.coords_eq_none.1 haffine.symm
    exact ⟨.inl hinf, by rw [group_infinity hinf, hP]⟩
  | false =>
    have haffine := h.affine
    unfold Crypto.P256Point.affine at haffine
    rw [if_neg (by simp [numbers, hinf])] at haffine
    cases P with
    | zero => simp [Jacobian.coords] at haffine
    | some x y hxy =>
      simp only [Jacobian.coords, Option.some.injEq, Prod.mk.injEq] at haffine
      obtain ⟨rfl, rfl⟩ := haffine
      refine ⟨.inr ⟨h.canonical, hxy.1⟩, ?_⟩
      unfold group
      rw [dif_pos ⟨hxy.1, hinf⟩]
      rfl

/-- A valid point is what the code's own check lets through. -/
theorem valid_iff :
    p.Valid ↔ p.infinity = true ∨ p.numbers.Canonical ∧ p256PointOnCurve p = true := by
  cases hinf : p.infinity with
  | true => simp [Valid, hinf]
  | false =>
    unfold Valid
    simp only [hinf, Bool.false_eq_true, false_or, and_congr_right_iff]
    intro hcanonical
    have hform := hcanonical.eq_ofField
    rw [pointOnCurve_numbers, hform, show p.numbers.infinity = false from hinf, pointOnCurve_iff]
    rfl

theorem pointDouble_valid (h : p.Valid) :
    (p256PointDouble p).Valid ∧ (p256PointDouble p).group = p.group + p.group := by
  cases hinf : p.infinity with
  | true =>
    have hdouble : p256PointDouble p = { p with infinity := true } := by
      simp [p256PointDouble, hinf]
    rw [hdouble, group_infinity hinf, add_zero]
    exact ⟨.inl rfl, group_infinity rfl⟩
  | false =>
    apply valid_of_is
    rw [numbers_pointDouble]
    exact pointDouble_is (h.is hinf)

theorem pointAdd_valid {q : P256Point} (hp : p.Valid) (hq : q.Valid) :
    (p256PointAdd p q).Valid ∧ (p256PointAdd p q).group = p.group + q.group := by
  cases hpi : p.infinity with
  | true =>
    have hadd : p256PointAdd p q = q := by simp [p256PointAdd, hpi]
    rw [hadd, group_infinity hpi, zero_add]
    exact ⟨hq, rfl⟩
  | false =>
    cases hqi : q.infinity with
    | true =>
      have hadd : p256PointAdd p q = p := by simp [p256PointAdd, hpi, hqi]
      rw [hadd, group_infinity hqi, add_zero]
      exact ⟨hp, rfl⟩
    | false =>
      apply valid_of_is
      rw [numbers_pointAdd]
      exact pointAdd_is (hp.is hpi) (hq.is hqi)

end Limbwise.P256Point

namespace InPlace

/-- The program leaves at `out` a valid point that stands for `P`, and every other point as it was.
-/
def SumAt (m : PointM Unit) (out : ℕ) (s : Points) (P : p256Curve.Point) : Prop :=
  ∃ r, LeavesPoint m out s r ∧ r.Valid ∧ r.group = P

theorem points_in_group (out a b : ℕ) (s : Points) (ha : (s.point a).Valid)
    (hb : (s.point b).Valid) :
    SumAt (p256PointAdd out a b) out s ((s.point a).group + (s.point b).group) ∧
    SumAt (p256PointDouble out a) out s ((s.point a).group + (s.point a).group) := by
  constructor
  · exact ⟨_, pointAdd_leaves out a b s, Limbwise.P256Point.pointAdd_valid ha hb⟩
  · exact ⟨_, pointDouble_leaves out a s, Limbwise.P256Point.pointDouble_valid ha⟩

/-- The same point at every address. -/
def Points.everywhere (p : Limbwise.P256Point) : Points where
  fe
    | .x _ => p.x
    | .y _ => p.y
    | .loc _ => Limbwise.p256FeZero
  infinity _ := p.infinity

theorem basePoint_valid : Limbwise.p256BasePoint.Valid :=
  (Limbwise.P256Point.valid_of_is (Limbwise.numbers_basePoint ▸ basePoint_is)).1

/-- The base point doubled by adding it to itself, all three pointers equal. -/
theorem points_in_group_basePoint :
    SumAt (p256PointAdd 0 0 0) 0 (.everywhere Limbwise.p256BasePoint)
      (Limbwise.p256BasePoint.group + Limbwise.p256BasePoint.group) :=
  (points_in_group 0 0 0 (.everywhere Limbwise.p256BasePoint) basePoint_valid basePoint_valid).1

end InPlace

end MinervaOS.Crypto
