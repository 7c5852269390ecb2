import MinervaOS.Crypto.Residues

/-!
# The arithmetic of P-256 in place

The functions of the source are given pointers, and their output may be one of their inputs. Here
they are programs over the variables of `p256_fe_t`: every read and write goes to the variable that
the pointer names, limb by limb where the source goes limb by limb. Whichever of the pointers are
equal, each leaves in its output what the function of the same name makes of the values that its
inputs had, and every other variable as it was (`Leaves`).
-/

namespace MinervaOS.Crypto

namespace InPlace

open Limbs Limbwise

/-- The variables of the program, by what names them. -/
abbrev Vars (ι : Type) := ι → P256Fe

abbrev FeM (ι : Type) := StateM (Vars ι)

variable {ι : Type} [DecidableEq ι]

/-! ## Loops over limbs -/

/-- A limb of one number and one of another make a limb and a carry. -/
abbrev LimbStep (γ : Type) := UInt32 → UInt32 → γ → UInt32 × γ

variable {γ : Type}

/-- The limbs that a loop makes from the lowest on. -/
def limbsFrom (step : LimbStep γ) : List UInt32 → List UInt32 → γ → List UInt32 × γ
  | x :: a, y :: b, carry =>
    let (limb, carry) := step x y carry
    let rest := limbsFrom step a b carry
    (limb :: rest.1, rest.2)
  | _, _, carry => ([], carry)

def setLimb (a : P256Fe) (i : ℕ) (limb : UInt32) : P256Fe :=
  ⟨a.v.set i limb, by rw [List.length_set, a.length]⟩

/-- `out->v[i]` is written before the next limbs of `a` and `b` are read. -/
def limbLoop (step : LimbStep γ) (out a b : ι) : ℕ → ℕ → γ → FeM ι γ
  | 0, _, carry => return carry
  | todo + 1, i, carry => do
    let vars ← get
    let (limb, carry) := step ((vars a).v.getD i 0) ((vars b).v.getD i 0) carry
    set (Function.update vars out (setLimb (vars out) i limb))
    limbLoop step out a b todo (i + 1) carry

def addStep : LimbStep UInt64 := fun x y carry =>
  let sum := x.toUInt64 + y.toUInt64 + carry
  (sum.toUInt32, sum >>> 32)

def subStep : LimbStep UInt32 := fun x y borrow =>
  let av := x.toUInt64
  let bv := y.toUInt64 + borrow.toUInt64
  ((av - bv).toUInt32, if av < bv then 1 else 0)

/-! ## The functions -/

def p256RawSub (out a b : ι) : FeM ι UInt32 := limbLoop subStep out a b 8 0 0

def p256RawAdd (out a b : ι) : FeM ι UInt32 := do
  let carry ← limbLoop addStep out a b 8 0 0
  return carry.toUInt32

def assign (out : ι) (value : P256Fe) : FeM ι Unit :=
  modify fun vars => Function.update vars out value

/-- `tmp` is a variable of its own. -/
def p256ReduceOnce (out : ι) (carry : UInt32) : FeM ι Unit := do
  let vars ← get
  if carry != 0 || p256Cmp (vars out) Limbwise.p256P ≥ 0 then
    assign out (Limbwise.p256RawSub (vars out) Limbwise.p256P).1

def p256FeAdd (out a b : ι) : FeM ι Unit := do
  let carry ← p256RawAdd out a b
  p256ReduceOnce out carry

def p256FeSub (out a b : ι) : FeM ι Unit := do
  let borrow ← p256RawSub out a b
  if borrow != 0 then
    let vars ← get
    assign out (Limbwise.p256RawAdd (vars out) Limbwise.p256P).1

/-- The product is put together and reduced before the output is written. -/
def p256FeMul (out a b : ι) : FeM ι Unit := do
  let vars ← get
  assign out (Limbwise.p256FeMul (vars a) (vars b))

def p256ScalarMul (out a b : ι) : FeM ι Unit := do
  let vars ← get
  assign out (Limbwise.p256ScalarMul (vars a) (vars b))

def p256ScalarAdd (out a b : ι) : FeM ι Unit := do
  let vars ← get
  assign out (Limbwise.p256ScalarAdd (vars a) (vars b))

def p256FeSquare (out a : ι) : FeM ι Unit := p256FeMul out a a

def p256FeInv (out a : ι) : FeM ι Unit := do
  let vars ← get
  assign out (Limbwise.p256FeInv (vars a))

theorem length_small (value : UInt32) : [value, 0, 0, 0, 0, 0, 0, 0].length = 8 := rfl

/-- `small` is a variable of its own. -/
def p256FeSubSmall (out a small : ι) (value : UInt32) : FeM ι Unit := do
  assign small ⟨[value, 0, 0, 0, 0, 0, 0, 0], length_small value⟩
  p256FeSub out a small

/-! ## What they leave -/

/-- The program leaves `r` in `out`, and every other variable as it was. -/
def Leaves (m : FeM ι Unit) (out : ι) (vars : Vars ι) (r : P256Fe) : Prop :=
  m.run vars = pure ((), Function.update vars out r)

theorem limbsFrom_add (a b : List UInt32) (carry : UInt64) :
    limbsFrom addStep a b carry = addFrom a b carry := by
  induction a generalizing b carry with
  | nil => rfl
  | cons x a ih =>
    cases b with
    | nil => rfl
    | cons y b =>
      simp only [limbsFrom, addFrom, addStep, ih]

theorem limbsFrom_sub (a b : List UInt32) (borrow : UInt32) :
    limbsFrom subStep a b borrow = subFrom a b borrow := by
  induction a generalizing b borrow with
  | nil => rfl
  | cons x a ih =>
    cases b with
    | nil => rfl
    | cons y b =>
      simp only [limbsFrom, subFrom, subStep, ih]

/-- The variable that is written keeps its limbs from `i` on, so what is read there is what the
inputs had at the start. -/
theorem limbLoop_run (step : LimbStep γ) (out a b : ι) (vars : Vars ι) (todo : ℕ) :
    ∀ (i : ℕ) (carry : γ) (w : P256Fe), i + todo = 8 → w.v.drop i = (vars out).v.drop i →
      ∃ r : P256Fe,
        r.v = w.v.take i ++ (limbsFrom step ((vars a).v.drop i) ((vars b).v.drop i) carry).1 ∧
        (limbLoop step out a b todo i carry).run (Function.update vars out w) =
          ((limbsFrom step ((vars a).v.drop i) ((vars b).v.drop i) carry).2,
            Function.update vars out r) := by
  have hdrop : ∀ (x : P256Fe) {i : ℕ}, i < 8 → x.v.drop i = x.v.getD i 0 :: x.v.drop (i + 1) := by
    intro x i hi
    rw [← x.length] at hi
    rw [List.getD_eq_getElem _ _ hi, List.drop_eq_getElem_cons hi]
  induction todo with
  | zero =>
    intro i carry w hi hw
    have hnil : ∀ x : P256Fe, x.v.drop i = [] :=
      fun x => List.drop_eq_nil_of_le (by rw [x.length]; omega)
    rw [hnil, hnil]
    refine ⟨w, ?_, rfl⟩
    rw [limbsFrom, List.append_nil, List.take_of_length_le (by rw [w.length]; omega)]
    all_goals simp
  | succ todo ih =>
    intro i carry w hi hw
    have hlt : i < 8 := by omega
    have hread : ∀ p : ι, (Function.update vars out w p).v.getD i 0 = (vars p).v.getD i 0 := by
      intro p
      by_cases hp : p = out
      · rw [hp, Function.update_self]
        rw [hdrop w hlt, hdrop (vars out) hlt] at hw
        exact (List.cons.inj hw).1
      · rw [Function.update_of_ne hp]
    rw [hdrop (vars a) hlt, hdrop (vars b) hlt]
    simp only [limbsFrom]
    generalize hstep : step ((vars a).v.getD i 0) ((vars b).v.getD i 0) carry = made
    have hset : (setLimb w i made.1).v.drop (i + 1) = (vars out).v.drop (i + 1) := by
      rw [hdrop w hlt, hdrop (vars out) hlt] at hw
      rw [setLimb, List.drop_set_of_lt (Nat.lt_succ_self i)]
      exact (List.cons.inj hw).2
    obtain ⟨r, hr, hrun⟩ := ih (i + 1) made.2 (setLimb w i made.1) (by omega) hset
    refine ⟨r, ?_, ?_⟩
    · have hwl : i < w.v.length := by rwa [w.length]
      have hlen : (w.v.take i ++ [made.1]).length = i + 1 := by
        rw [List.length_append, List.length_take_of_le hwl.le, List.length_singleton]
      have hmade : (setLimb w i made.1).v = w.v.take i ++ made.1 :: w.v.drop (i + 1) := by
        simp only [setLimb, List.set_eq_take_append_cons_drop, if_pos hwl]
      rw [hr, hmade, List.append_cons, List.take_left' hlen, List.append_assoc,
        List.singleton_append]
    · unfold limbLoop
      simp only [StateT.run_bind, StateT.run_get, pure_bind, hread, hstep, StateT.run_set,
        Function.update_self, Function.update_idem]
      exact hrun

theorem limbLoop_eq (step : LimbStep γ) (out a b : ι) (vars : Vars ι) (carry : γ) :
    ∃ r : P256Fe, r.v = (limbsFrom step (vars a).v (vars b).v carry).1 ∧
      (limbLoop step out a b 8 0 carry).run vars =
        ((limbsFrom step (vars a).v (vars b).v carry).2, Function.update vars out r) := by
  have h := limbLoop_run step out a b vars 8 0 carry (vars out) rfl rfl
  simp only [List.take_zero, List.nil_append, List.drop_zero, Function.update_eq_self] at h
  exact h

theorem rawAdd_run (out a b : ι) (vars : Vars ι) :
    (p256RawAdd out a b).run vars = pure ((Limbwise.p256RawAdd (vars a) (vars b)).2,
      Function.update vars out (Limbwise.p256RawAdd (vars a) (vars b)).1) := by
  obtain ⟨r, hr, hrun⟩ := limbLoop_eq addStep out a b vars 0
  rw [limbsFrom_add] at hr hrun
  have heq : r = (Limbwise.p256RawAdd (vars a) (vars b)).1 := by
    cases r
    exact P256Fe.mk.injEq .. ▸ hr
  unfold p256RawAdd
  rw [StateT.run_bind, hrun, heq]
  rfl

theorem rawSub_run (out a b : ι) (vars : Vars ι) :
    (p256RawSub out a b).run vars = pure ((Limbwise.p256RawSub (vars a) (vars b)).2,
      Function.update vars out (Limbwise.p256RawSub (vars a) (vars b)).1) := by
  obtain ⟨r, hr, hrun⟩ := limbLoop_eq subStep out a b vars 0
  rw [limbsFrom_sub] at hr hrun
  have heq : r = (Limbwise.p256RawSub (vars a) (vars b)).1 := by
    cases r
    exact P256Fe.mk.injEq .. ▸ hr
  unfold p256RawSub
  rw [hrun, heq]
  rfl

section Leaves

variable (out a b : ι) (vars : Vars ι)

theorem assign_leaves (r : P256Fe) : Leaves (assign out r) out vars r := rfl

theorem feAdd_leaves :
    Leaves (p256FeAdd out a b) out vars (Limbwise.p256FeAdd (vars a) (vars b)) := by
  unfold Leaves p256FeAdd p256ReduceOnce Limbwise.p256FeAdd Limbwise.p256ReduceOnce
  simp only [StateT.run_bind, rawAdd_run, StateT.run_get, pure_bind, Function.update_self]
  split
  · simp only [assign, StateT.run_modify, Function.update_idem]
  · rfl

theorem feSub_leaves :
    Leaves (p256FeSub out a b) out vars (Limbwise.p256FeSub (vars a) (vars b)) := by
  unfold Leaves p256FeSub Limbwise.p256FeSub
  simp only [StateT.run_bind, rawSub_run, pure_bind]
  split
  · simp only [assign, StateT.run_bind, StateT.run_get, StateT.run_modify, pure_bind,
      Function.update_self, Function.update_idem]
  · rfl

theorem feMul_leaves :
    Leaves (p256FeMul out a b) out vars (Limbwise.p256FeMul (vars a) (vars b)) := rfl

theorem scalarMul_leaves :
    Leaves (p256ScalarMul out a b) out vars (Limbwise.p256ScalarMul (vars a) (vars b)) := rfl

theorem scalarAdd_leaves :
    Leaves (p256ScalarAdd out a b) out vars (Limbwise.p256ScalarAdd (vars a) (vars b)) := rfl

end Leaves

/-- The program leaves in `out` the canonical residue of `z` modulo `m`. -/
def Computes (prog : FeM ι Unit) (out : ι) (vars : Vars ι) (m : ℕ) (z : ℤ) : Prop :=
  ∃ r, Leaves prog out vars r ∧ Residue m z r ∧ r.value < m

theorem Leaves.computes {prog : FeM ι Unit} {out : ι} {vars : Vars ι} {r : P256Fe} {m : ℕ} {z : ℤ}
    (h : Leaves prog out vars r) (hm : m.Prime) (hr : Residue m z r) :
    Computes prog out vars m z := ⟨r, h, hr, hr.lt hm.pos⟩

theorem arithmetic_residues (out a b : ι) (vars : Vars ι) :
    Computes (p256FeMul out a b) out vars Crypto.p256P ((vars a).value * (vars b).value) ∧
    Computes (p256ScalarMul out a b) out vars Crypto.p256N ((vars a).value * (vars b).value) ∧
    ((vars a).value < Crypto.p256P → (vars b).value < Crypto.p256P →
      Computes (p256FeAdd out a b) out vars Crypto.p256P ((vars a).value + (vars b).value) ∧
      Computes (p256FeSub out a b) out vars Crypto.p256P ((vars a).value - (vars b).value)) ∧
    ((vars a).value < Crypto.p256N → (vars b).value < Crypto.p256N →
      Computes (p256ScalarAdd out a b) out vars Crypto.p256N
        ((vars a).value + (vars b).value)) := by
  refine ⟨?_, ?_, fun ha hb => ⟨?_, ?_⟩, fun ha hb => ?_⟩
  · exact (feMul_leaves out a b vars).computes p256P_prime (feMul_residue _ _)
  · exact (scalarMul_leaves out a b vars).computes p256N_prime (scalarMul_residue _ _)
  · exact (feAdd_leaves out a b vars).computes p256P_prime (feAdd_residue ha hb)
  · exact (feSub_leaves out a b vars).computes p256P_prime (feSub_residue ha hb)
  · exact (scalarAdd_leaves out a b vars).computes p256N_prime (scalarAdd_residue ha hb)

/-- One variable for all three: it is doubled in place. -/
theorem arithmetic_residues_one :
    Computes (p256FeAdd () () ()) () (fun _ => p256FeOne) Crypto.p256P 2 := by
  have hone : p256FeOne.value < Crypto.p256P := by decide
  exact ((arithmetic_residues () () () fun _ => p256FeOne).2.2.1 hone hone).1

end InPlace

end MinervaOS.Crypto
