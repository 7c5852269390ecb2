import Mathlib.Order.Defs.LinearOrder
import Mathlib.Tactic.Common

/-!
# Readers of memory

A reader runs over memory with 32-bit positions and over the fields it writes. It leaves two marks:
one past the highest position it has read, and the farthest end of a stretch of memory that it has
handed on. What it returns depends on the memory below the first mark only, which is part of the
type, so it holds of every reader that is put together from the ones below.

`Reader.Ok` says that both marks stay below a bound and that what comes out satisfies a condition;
its rules follow the way readers are put together.
-/

namespace MinervaOS

/-- The bytes of memory by their positions. -/
abbrev Memory := UInt32 → UInt8

/-- Memory that begins with some bytes. -/
def memory (bytes : List UInt8) : Memory := fun pos => bytes.getD pos.toNat 0

structure Outcome (σ α : Type) where
  value : α
  fields : σ
  /-- One past the highest position that was read. -/
  touched : ℕ
  /-- The farthest end of a stretch that was handed on. -/
  spanned : ℕ

structure Reader (σ α : Type) where
  run : Memory → σ → Outcome σ α
  run_congr : ∀ mem mem' x, (∀ pos : UInt32, pos.toNat < (run mem x).touched → mem' pos = mem pos) →
    run mem' x = run mem x

namespace Reader

variable {σ α β : Type} {p q : Reader σ α} {f g : α → Reader σ β} {mem mem' : Memory} {x y : σ}
  {n : ℕ}

@[ext] theorem ext (h : ∀ mem x, p.run mem x = q.run mem x) : p = q := by
  obtain ⟨run, _⟩ := p
  obtain ⟨run', _⟩ := q
  have hr : run = run' := funext fun mem => funext fun x => h mem x
  subst hr
  rfl

instance : Monad (Reader σ) where
  pure a := ⟨fun _ x => ⟨a, x, 0, 0⟩, fun _ _ _ _ => rfl⟩
  bind p f :=
    { run := fun mem x =>
        let o := p.run mem x
        let o' := (f o.value).run mem o.fields
        ⟨o'.value, o'.fields, max o.touched o'.touched, max o.spanned o'.spanned⟩
      run_congr := fun mem mem' x h => by
        have hp := p.run_congr mem mem' x fun pos hpos =>
          h pos (Nat.lt_of_lt_of_le hpos (Nat.le_max_left _ _))
        have hf := (f (p.run mem x).value).run_congr mem mem' (p.run mem x).fields fun pos hpos =>
          h pos (Nat.lt_of_lt_of_le hpos (Nat.le_max_right _ _))
        simp only [hp, hf] }

@[simp] theorem run_pure (a : α) : (pure a : Reader σ α).run mem x = ⟨a, x, 0, 0⟩ := rfl

theorem run_bind : (p >>= f).run mem x =
    ⟨((f (p.run mem x).value).run mem (p.run mem x).fields).value,
      ((f (p.run mem x).value).run mem (p.run mem x).fields).fields,
      max (p.run mem x).touched ((f (p.run mem x).value).run mem (p.run mem x).fields).touched,
      max (p.run mem x).spanned ((f (p.run mem x).value).run mem (p.run mem x).fields).spanned⟩ :=
  rfl

instance : LawfulMonad (Reader σ) := LawfulMonad.mk' (Reader σ)
  (fun p => by
    ext mem x
    change (p >>= fun a => pure a).run mem x = _
    simp only [run_bind, run_pure, Nat.max_zero])
  (fun a f => by
    ext mem x
    simp only [run_bind, run_pure, Nat.zero_max])
  (fun p f g => by
    ext mem x
    simp only [run_bind, Nat.max_assoc])

/-! ## Readers -/

/-- The byte at a position. -/
def byte (pos : UInt32) : Reader σ UInt8 where
  run mem x := ⟨mem pos, x, pos.toNat + 1, 0⟩
  run_congr mem mem' x h := by rw [h pos (Nat.lt_succ_self _)]

/-- A helper gets the stretch of `len` bytes from `src` on. -/
def hand (src len : UInt32) : Reader σ Unit where
  run _ x := ⟨(), x, 0, src.toNat + len.toNat⟩
  run_congr _ _ _ _ := rfl

def fields : Reader σ σ where
  run _ x := ⟨x, x, 0, 0⟩
  run_congr _ _ _ _ := rfl

def write (f : σ → σ) : Reader σ Unit where
  run _ x := ⟨(), f x, 0, 0⟩
  run_congr _ _ _ _ := rfl

def bytes : ℕ → UInt32 → Reader σ (List UInt8)
  | 0, _ => return []
  | n + 1, pos => do return (← byte pos) :: (← bytes n (pos + 1))

/-- The bytes from a position on. -/
def stretch (mem : Memory) (pos : UInt32) : ℕ → List UInt8
  | 0 => []
  | n + 1 => mem pos :: stretch mem (pos + 1) n

@[simp] theorem length_stretch (mem : Memory) (pos : UInt32) (n : ℕ) :
    (stretch mem pos n).length = n := by
  induction n generalizing pos with
  | zero => rfl
  | succ n ih => rw [stretch, List.length_cons, ih]

theorem take_stretch (mem : Memory) (pos : UInt32) (k n : ℕ) :
    (stretch mem pos n).take k = stretch mem pos (min k n) := by
  induction n generalizing pos k with
  | zero => rw [Nat.min_zero, stretch, List.take_nil]
  | succ n ih =>
    cases k with
    | zero => rw [Nat.zero_min, stretch, List.take_zero]
    | succ k => rw [Nat.succ_min_succ, stretch, stretch, List.take_succ_cons, ih]

theorem drop_stretch (mem : Memory) (pos : UInt32) (k n : ℕ) :
    (stretch mem pos n).drop k = stretch mem (pos + UInt32.ofNat k) (n - k) := by
  induction k generalizing pos n with
  | zero =>
    rw [List.drop_zero, Nat.sub_zero]
    exact congrArg (stretch mem · n) (UInt32.add_zero pos).symm
  | succ k ih =>
    cases n with
    | zero => rw [Nat.zero_sub, stretch, stretch, List.drop_nil]
    | succ n =>
      rw [stretch, List.drop_succ_cons, ih, Nat.succ_sub_succ, UInt32.ofNat_add, UInt32.add_assoc,
        UInt32.add_comm 1]
      rfl

@[simp] theorem run_byte (pos : UInt32) :
    (byte pos : Reader σ UInt8).run mem x = ⟨mem pos, x, pos.toNat + 1, 0⟩ := rfl

@[simp] theorem run_hand (src len : UInt32) :
    (hand src len : Reader σ Unit).run mem x = ⟨(), x, 0, src.toNat + len.toNat⟩ := rfl

@[simp] theorem run_fields : (fields : Reader σ σ).run mem x = ⟨x, x, 0, 0⟩ := rfl

@[simp] theorem run_write (f : σ → σ) :
    (write f : Reader σ Unit).run mem x = ⟨(), f x, 0, 0⟩ := rfl

/-! ## Bounds on the marks -/

/-- Both marks are at most `n`, and `Q` holds of what is returned and left. -/
structure Ok (p : Reader σ α) (mem : Memory) (x : σ) (n : ℕ) (Q : α → σ → Prop) : Prop where
  touched_le : (p.run mem x).touched ≤ n
  spanned_le : (p.run mem x).spanned ≤ n
  post : Q (p.run mem x).value (p.run mem x).fields

variable {Q Q' : α → σ → Prop} {R : β → σ → Prop}

theorem Ok.mono (h : Ok p mem x n Q) (hQ : ∀ a y, Q a y → Q' a y) : Ok p mem x n Q' :=
  ⟨h.touched_le, h.spanned_le, hQ _ _ h.post⟩

theorem Ok.value (h : Ok p mem x n Q) :
    Ok p mem x n fun a y => Q a y ∧ a = (p.run mem x).value :=
  ⟨h.touched_le, h.spanned_le, h.post, rfl⟩

theorem Ok.pure {a : α} (h : Q a x) : Ok (Pure.pure a) mem x n Q :=
  ⟨Nat.zero_le n, Nat.zero_le n, h⟩

theorem Ok.bind (hp : Ok p mem x n Q) (hf : ∀ a y, Q a y → Ok (f a) mem y n R) :
    Ok (p >>= f) mem x n R := by
  have h := hf _ _ hp.post
  exact ⟨Nat.max_le.2 ⟨hp.touched_le, h.touched_le⟩, Nat.max_le.2 ⟨hp.spanned_le, h.spanned_le⟩,
    h.post⟩

theorem Ok.byte {pos : UInt32} (h : pos.toNat < n) :
    Ok (Reader.byte pos : Reader σ UInt8) mem x n fun a y => a = mem pos ∧ y = x :=
  ⟨h, Nat.zero_le n, rfl, rfl⟩

theorem Ok.hand {src len : UInt32} (h : src.toNat + len.toNat ≤ n) :
    Ok (Reader.hand src len : Reader σ Unit) mem x n fun _ y => y = x :=
  ⟨Nat.zero_le n, h, rfl⟩

theorem Ok.fields : Ok (Reader.fields : Reader σ σ) mem x n fun a y => a = x ∧ y = x :=
  ⟨Nat.zero_le n, Nat.zero_le n, rfl, rfl⟩

theorem Ok.write {f : σ → σ} : Ok (Reader.write f) mem x n fun _ y => y = f x :=
  ⟨Nat.zero_le n, Nat.zero_le n, rfl⟩

/-- What an assignment leaves alone. -/
theorem Ok.write_keeps {γ : Type} {f : σ → σ} {g : σ → γ} (h : g (f x) = g x) :
    Ok (Reader.write f) mem x n fun _ y => g y = g x :=
  ⟨Nat.zero_le n, Nat.zero_le n, h⟩

theorem Ok.ite {c : Prop} [Decidable c] (hp : c → Ok p mem x n Q) (hq : ¬c → Ok q mem x n Q) :
    Ok (if c then p else q) mem x n Q := by
  split
  next h => exact hp h
  next h => exact hq h

theorem Ok.bytes {k : ℕ} {pos : UInt32} (h : pos.toNat + k ≤ n) :
    Ok (Reader.bytes k pos : Reader σ (List UInt8)) mem x n fun a y =>
      a = stretch mem pos k ∧ y = x := by
  induction k generalizing pos with
  | zero => exact Ok.pure ⟨rfl, rfl⟩
  | succ k ih =>
    have hpos : (pos + 1).toNat ≤ pos.toNat + 1 := by
      rw [UInt32.toNat_add]
      exact Nat.mod_le _ _
    refine Ok.bind (Ok.byte (by omega)) fun a y ha => ?_
    obtain ⟨rfl, rfl⟩ := ha
    refine Ok.bind (@ih (pos + 1) (by omega)) fun l y hl => ?_
    obtain ⟨rfl, rfl⟩ := hl
    exact Ok.pure ⟨rfl, rfl⟩

/-- A loop that only reads, step by step what `g` does. -/
theorem Ok.foldlM {γ : Type} {step : β → γ → Reader σ β} {g : β → γ → β} {l : List γ} {b : β}
    (h : ∀ b, ∀ c ∈ l, Ok (step b c) mem x n fun b' y => b' = g b c ∧ y = x) :
    Ok (l.foldlM step b) mem x n fun b' y => b' = l.foldl g b ∧ y = x := by
  induction l generalizing b with
  | nil => exact Ok.pure ⟨rfl, rfl⟩
  | cons c l ih =>
    rw [List.foldlM_cons]
    refine Ok.bind (h b c List.mem_cons_self) fun b' y hb => ?_
    obtain ⟨rfl, rfl⟩ := hb
    exact ih fun b c hc => h b c (List.mem_cons_of_mem _ hc)

/-- What every pass of a loop keeps, the loop keeps. -/
theorem Ok.forM {γ : Type} {step : γ → Reader σ Unit} {I : σ → Prop} {l : List γ}
    (h : ∀ c ∈ l, ∀ y, I y → Ok (step c) mem y n fun _ y' => I y') (hx : I x) :
    Ok (forM l step) mem x n fun _ y => I y := by
  induction l generalizing x with
  | nil => exact Ok.pure hx
  | cons c l ih =>
    rw [List.forM_cons]
    exact Ok.bind (h c List.mem_cons_self x hx) fun _ y hy =>
      ih (fun c hc => h c (List.mem_cons_of_mem _ hc)) hy

/-! ## Marks that are too high -/

theorem touched_le_bind : (p.run mem x).touched ≤ ((p >>= f).run mem x).touched :=
  Nat.le_max_left _ _

theorem touched_le_bind_right :
    ((f (p.run mem x).value).run mem (p.run mem x).fields).touched ≤
      ((p >>= f).run mem x).touched :=
  Nat.le_max_right _ _

/-- A pass that reads too far, from whatever state it starts, spoils the loop. -/
theorem touched_forM {γ : Type} {step : γ → Reader σ Unit} {l : List γ} {c : γ} (hc : c ∈ l)
    (h : ∀ y, n < ((step c).run mem y).touched) :
    n < ((forM l step : Reader σ Unit).run mem x).touched := by
  induction l generalizing x with
  | nil => cases hc
  | cons b l ih =>
    rw [List.forM_cons]
    rcases List.mem_cons.1 hc with rfl | hc
    · exact Nat.lt_of_lt_of_le (h x) touched_le_bind
    · have hrest :
        n < ((forM l step : Reader σ Unit).run mem ((step b).run mem x).fields).touched := ih hc
      exact Nat.lt_of_lt_of_le hrest (touched_le_bind_right (f := fun _ => forM l step))

/-- Both marks stay below `n` under the condition `C`, with `Q` in the end, and only under it. -/
structure OkIff (p : Reader σ α) (mem : Memory) (x : σ) (n : ℕ) (C : Prop) (Q : α → σ → Prop) :
    Prop where
  ok : C → Ok p mem x n Q
  cond : (p.run mem x).touched ≤ n → (p.run mem x).spanned ≤ n → C

variable {C : Prop}

theorem OkIff.of_ok (h : Ok p mem x n Q) (hC : C) : OkIff p mem x n C Q :=
  ⟨fun _ => h, fun _ _ => hC⟩

theorem OkIff.bind (hp : Ok p mem x n Q) (hf : ∀ a y, Q a y → OkIff (f a) mem y n C R) :
    OkIff (p >>= f) mem x n C R := by
  have h := hf _ _ hp.post
  exact ⟨fun hC => Ok.bind hp fun a y hQ => (hf a y hQ).ok hC, fun ht hs =>
    h.cond (Nat.le_trans (Nat.le_max_right _ _) ht) (Nat.le_trans (Nat.le_max_right _ _) hs)⟩

theorem OkIff.ite {c : Prop} [Decidable c] (hp : c → OkIff p mem x n C Q)
    (hq : ¬c → OkIff q mem x n C Q) : OkIff (if c then p else q) mem x n C Q := by
  split
  next h => exact hp h
  next h => exact hq h

theorem OkIff.mono (h : OkIff p mem x n C Q) (hQ : ∀ a y, Q a y → Q' a y) :
    OkIff p mem x n C Q' :=
  ⟨fun hC => (h.ok hC).mono hQ, h.cond⟩

theorem OkIff.congr {C' : Prop} (h : OkIff p mem x n C Q) (hC : C ↔ C') : OkIff p mem x n C' Q :=
  ⟨fun h' => h.ok (hC.2 h'), fun ht hs => hC.1 (h.cond ht hs)⟩

/-- A stretch that is too long spoils everything that is put behind it. -/
theorem OkIff.hand_long {src len : UInt32} {f : Unit → Reader σ β}
    (h : n < src.toNat + len.toNat) (hC : ¬C) :
    OkIff (Reader.hand src len >>= f) mem x n C R :=
  ⟨fun h => absurd h hC, fun _ hs =>
    absurd (Nat.le_trans (Nat.le_max_left _ _) hs) (Nat.not_le.2 h)⟩

/-- So does a byte that is too far. -/
theorem OkIff.byte_far {pos : UInt32} {f : UInt8 → Reader σ β} (h : n ≤ pos.toNat) (hC : ¬C) :
    OkIff (Reader.byte pos >>= f) mem x n C R :=
  ⟨fun h => absurd h hC, fun ht _ =>
    absurd (Nat.le_trans (Nat.le_max_left _ _) ht) (Nat.not_le.2 (Nat.lt_succ_of_le h))⟩

theorem OkIff.of_touched (h : n < (p.run mem x).touched) (hC : ¬C) : OkIff p mem x n C Q :=
  ⟨fun h => absurd h hC, fun ht _ => absurd ht (Nat.not_le.2 h)⟩

/-- Two conditions, one behind the other. -/
theorem OkIff.bind_and {D : Prop} (hp : OkIff p mem x n C Q)
    (hf : ∀ a y, Q a y → OkIff (f a) mem y n D R) : OkIff (p >>= f) mem x n (C ∧ D) R := by
  refine ⟨fun hCD => Ok.bind (hp.ok hCD.1) fun a y hQ => (hf a y hQ).ok hCD.2, fun ht hs => ?_⟩
  have hC := hp.cond (Nat.le_trans (Nat.le_max_left _ _) ht)
    (Nat.le_trans (Nat.le_max_left _ _) hs)
  exact ⟨hC, (hf _ _ (hp.ok hC).post).cond (Nat.le_trans (Nat.le_max_right _ _) ht)
    (Nat.le_trans (Nat.le_max_right _ _) hs)⟩

/-! ## Reading only -/

/-- What is read does not depend on the fields, and they are left as they are. -/
def ReadsOnly (p : Reader σ α) : Prop :=
  ∀ mem x y, p.run mem x = { p.run mem y with fields := x }

theorem ReadsOnly.pure (a : α) : ReadsOnly (Pure.pure a : Reader σ α) := fun _ _ _ => rfl

theorem ReadsOnly.bind (hp : ReadsOnly p) (hf : ∀ a, ReadsOnly (f a)) : ReadsOnly (p >>= f) := by
  intro mem x y
  rw [run_bind, run_bind, hp mem x y, hf _ mem x (p.run mem y).fields]

theorem ReadsOnly.byte (pos : UInt32) : ReadsOnly (Reader.byte pos : Reader σ UInt8) :=
  fun _ _ _ => rfl

theorem ReadsOnly.hand (src len : UInt32) : ReadsOnly (Reader.hand src len : Reader σ Unit) :=
  fun _ _ _ => rfl

theorem ReadsOnly.ite {c : Prop} [Decidable c] (hp : ReadsOnly p) (hq : ReadsOnly q) :
    ReadsOnly (if c then p else q) := by
  split
  · exact hp
  · exact hq

theorem ReadsOnly.foldlM {γ : Type} {step : β → γ → Reader σ β} (h : ∀ b c, ReadsOnly (step b c))
    (l : List γ) (b : β) : ReadsOnly (l.foldlM step b) := by
  induction l generalizing b with
  | nil => exact ReadsOnly.pure b
  | cons c l ih =>
    rw [List.foldlM_cons]
    exact ReadsOnly.bind (h b c) ih

/-! ## What is returned -/

/-- It returns `a` from this memory, and leaves the fields as they are. -/
def Returns (p : Reader σ α) (mem : Memory) (a : α) : Prop :=
  ∀ x, (p.run mem x).value = a ∧ (p.run mem x).fields = x

variable {a : α} {b : β}

theorem Returns.of_ok (h : ∀ x, Ok p mem x n fun r y => r = a ∧ y = x) : Returns p mem a :=
  fun x => (h x).post

theorem Returns.pure (a : α) : Returns (Pure.pure a : Reader σ α) mem a := fun _ => ⟨rfl, rfl⟩

theorem Returns.byte (pos : UInt32) : Returns (Reader.byte pos : Reader σ UInt8) mem (mem pos) :=
  fun _ => ⟨rfl, rfl⟩

/-- Behind it the run goes on with what was returned. -/
theorem Returns.run_bind_fields (hp : Returns p mem a) :
    ((p >>= f).run mem x).fields = ((f a).run mem x).fields := by
  obtain ⟨hvalue, hfields⟩ := hp x
  rw [run_bind, hvalue, hfields]

/-- What is read behind it counts. -/
theorem Returns.touched_bind (hp : Returns p mem a) :
    ((f a).run mem x).touched ≤ ((p >>= f).run mem x).touched := by
  obtain ⟨hvalue, hfields⟩ := hp x
  have hright : ((f (p.run mem x).value).run mem (p.run mem x).fields).touched ≤
      ((p >>= f).run mem x).touched := touched_le_bind_right
  rwa [hvalue, hfields] at hright

theorem Returns.bind (hp : Returns p mem a) (hf : Returns (f a) mem b) :
    Returns (p >>= f) mem b := by
  intro x
  obtain ⟨hvalue, hfields⟩ := hp x
  rw [run_bind, hvalue, hfields]
  exact hf x

theorem Returns.ite {c : Prop} [Decidable c] {a' : α} (hp : c → Returns p mem a)
    (hq : ¬c → Returns q mem a') :
    Returns (if c then p else q) mem (if c then a else a') := by
  by_cases h : c
  · rw [if_pos h, if_pos h]
    exact hp h
  · rw [if_neg h, if_neg h]
    exact hq h

end Reader

end MinervaOS
