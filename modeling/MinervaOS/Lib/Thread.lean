import Mathlib.Logic.Relation

/-!
# Threads

A thread works on a state that it shares with others, one access at a time, and any number of steps
of the others may come before each of its accesses. `Thread.Holds` says that every access of a
thread finds a state that is safe for it, and that its result satisfies `Q` for as long as it is not
used. A machine that runs one thread after another keeps what every one of them keeps
(`Thread.Reaches.kept`). Where it is known what the others do before each access, a thread has one
run (`Thread.run`).
-/

namespace MinervaOS

open Relation (ReflTransGen)

variable {ι κ σ α β : Type}

/-- A thread over the states `σ`: its accesses are of the kinds `ι`, and its result is of type `α`.
-/
inductive Thread (ι σ α : Type) where
  | done (a : α)
  | access (i : ι) (f : σ → σ) (next : σ → Thread ι σ α)

namespace Thread

/-- The state is as it was before the access where the thread goes on. -/
def andThen (k : α → Thread ι σ β) : Thread ι σ α → Thread ι σ β
  | done a => k a
  | access i f next => access i f fun s => (next s).andThen k

instance : Monad (Thread ι σ) where
  pure := done
  bind t k := t.andThen k

def read (i : ι) (g : σ → β) : Thread ι σ β := access i id fun s => done (g s)

def write (i : ι) (f : σ → σ) : Thread ι σ Unit := access i f fun _ => done ()

section Holds

variable (Other : σ → σ → Prop) (Safe : ι → σ → Prop)

/-- Every access of the thread is safe, and its result satisfies `Q`. -/
def Holds (Q : α → σ → Prop) : Thread ι σ α → σ → Prop
  | done a, s => ∀ s', ReflTransGen Other s s' → Q a s'
  | access i f next, s => ∀ s', ReflTransGen Other s s' → Safe i s' ∧ (next s').Holds Q (f s')

variable {Other Safe} {Q : α → σ → Prop} {P : σ → Prop} {s s' : σ}

/-- The others may take steps. -/
theorem Holds.other {t : Thread ι σ α} (h : t.Holds Other Safe Q s) (hs : ReflTransGen Other s s') :
    t.Holds Other Safe Q s' := by
  cases t with
  | done a => exact fun s'' hs' => h s'' (hs.trans hs')
  | access i f next => exact fun s'' hs' => h s'' (hs.trans hs')

/-- A predicate that the others keep. -/
def Stable (Other : σ → σ → Prop) (P : σ → Prop) : Prop := ∀ s s', P s → Other s s' → P s'

theorem Stable.steps (h : Stable Other P) (hP : P s) (hs : ReflTransGen Other s s') : P s' := by
  induction hs with
  | refl => exact hP
  | tail _ hstep ih => exact h _ _ ih hstep

theorem Stable.and {P' : σ → Prop} (h : Stable Other P) (h' : Stable Other P') :
    Stable Other fun s => P s ∧ P' s := fun s s' hP hs => ⟨h s s' hP.1 hs, h' s s' hP.2 hs⟩

theorem Stable.const (p : Prop) : Stable Other fun _ => p := fun _ _ h _ => h

theorem Stable.imp {p : Prop} (h : Stable Other P) : Stable Other fun s => p → P s :=
  fun s s' hP hs hp => h s s' (hP hp) hs

theorem Stable.exists {P : β → σ → Prop} (h : ∀ b, Stable Other (P b)) :
    Stable Other fun s => ∃ b, P b s :=
  fun s s' hP hs => hP.elim fun b hb => ⟨b, h b s s' hb hs⟩

theorem Holds.mono {t : Thread ι σ α} {Q' : α → σ → Prop} : ∀ {s : σ}, t.Holds Other Safe Q s →
    (∀ a s, Q a s → Q' a s) → t.Holds Other Safe Q' s := by
  induction t with
  | done a => exact fun h hQ s' hs => hQ a s' (h s' hs)
  | access i f next ih => exact fun h hQ s' hs => ⟨(h s' hs).1, ih s' (h s' hs).2 hQ⟩

theorem Holds.bind {t : Thread ι σ β} {k : β → Thread ι σ α} :
    ∀ {s : σ}, t.Holds Other Safe (fun b s => (k b).Holds Other Safe Q s) s →
      (t >>= k).Holds Other Safe Q s := by
  induction t with
  | done b => exact fun h => h _ .refl
  | access i f next ih => exact fun h s' hs => ⟨(h s' hs).1, ih s' (h s' hs).2⟩

/-- What is known of a thread is known where another one goes on. -/
theorem Holds.seq {t : Thread ι σ β} {k : β → Thread ι σ α} {R : β → σ → Prop}
    (h : t.Holds Other Safe R s)
    (hk : ∀ b s, R b s → (k b).Holds Other Safe Q s) :
    (t >>= k).Holds Other Safe Q s := (h.mono hk).bind

theorem holds_pure {a : α} (hstable : Stable Other (Q a)) (h : Q a s) :
    (pure a : Thread ι σ α).Holds Other Safe Q s := fun _ hs => hstable.steps h hs

theorem holds_read {i : ι} {g : σ → β} {R : β → σ → Prop} (hP : Stable Other P)
    (hR : ∀ b, Stable Other (R b))
    (hsafe : ∀ s, P s → Safe i s) (hg : ∀ s, P s → R (g s) s) (h : P s) :
    (read i g).Holds Other Safe R s := by
  intro s' hs
  have hs' := hP.steps h hs
  exact ⟨hsafe s' hs', fun s'' hs'' => (hR _).steps (hg s' hs') hs''⟩

theorem holds_write {i : ι} {f : σ → σ} {R : σ → Prop} (hP : Stable Other P) (hR : Stable Other R)
    (hsafe : ∀ s, P s → Safe i s) (hf : ∀ s, P s → R (f s)) (h : P s) :
    (write i f).Holds Other Safe (fun _ => R) s := by
  intro s' hs
  have hs' := hP.steps h hs
  exact ⟨hsafe s' hs', fun s'' hs'' => hR.steps (hf s' hs') hs''⟩

end Holds

/-! ## The run among known others -/

section Run

-- what the others do before the access at a time
variable (others : Nat → σ → σ)

/-- The result of the thread, the time behind its last access, and the state there. -/
def run : Thread ι σ α → Nat → σ → α × Nat × σ
  | done a, n, s => (a, n, s)
  | access _ f next, n, s => (next (others n s)).run (n + 1) (f (others n s))

/-- The accesses of the run, each with its time and the state before the others' steps. -/
def trace : Thread ι σ α → Nat → σ → List (ι × Nat × σ)
  | done _, _, _ => []
  | access i f next, n, s => (i, n, s) :: (next (others n s)).trace (n + 1) (f (others n s))

/-- The state that the access number `k` finds, where the thread has only read. -/
def idle (n : Nat) (s : σ) : Nat → σ
  | 0 => others n s
  | k + 1 => others (n + k + 1) (idle n s k)

theorem idle_succ (n : Nat) (s : σ) (k : Nat) :
    idle others n s (k + 1) = idle others (n + 1) (others n s) k := by
  induction k with
  | zero => rfl
  | succ k ih =>
    show others (n + (k + 1) + 1) (idle others n s (k + 1)) = others (n + 1 + k + 1) _
    rw [ih, Nat.add_right_comm n 1 k]
    rfl

theorem run_bind (t : Thread ι σ α) (k : α → Thread ι σ β) (n : Nat) (s : σ) :
    (t >>= k).run others n s =
    (k (t.run others n s).1).run others (t.run others n s).2.1 (t.run others n s).2.2 := by
  induction t generalizing n s with
  | done a => rfl
  | access i f next ih => exact ih _ _ _

theorem trace_bind (t : Thread ι σ α) (k : α → Thread ι σ β) (n : Nat) (s : σ) :
    (t >>= k).trace others n s =
    t.trace others n s ++
      (k (t.run others n s).1).trace others (t.run others n s).2.1 (t.run others n s).2.2 := by
  induction t generalizing n s with
  | done a => rfl
  | access i f next ih => exact congrArg (_ :: ·) (ih _ _ _)

variable {Other : σ → σ → Prop} {Safe : ι → σ → Prop} {others}

/-- What holds of every run holds of this one. -/
theorem Holds.run (hothers : ∀ n s, ReflTransGen Other s (others n s)) {Q : α → σ → Prop}
    (t : Thread ι σ α) :
    ∀ {n : Nat} {s : σ}, t.Holds Other Safe Q s →
      Q (t.run others n s).1 (t.run others n s).2.2 := by
  induction t with
  | done a => exact fun h => h _ .refl
  | access i f next ih => exact fun h => ih _ (h _ (hothers _ _)).2

end Run

/-! ## One thread after another -/

/-- The shared state, the call that is running and the state in which it began, and the calls that
have returned with their results. -/
structure Machine (ι κ σ α : Type) where
  shared : σ
  running : Option (κ × σ × Thread ι σ α)
  log : List (κ × σ × α)

section Machine

variable (Other : σ → σ → Prop) (code : κ → Thread ι σ α)

/-- A step of the others, the start of a call, an access of it, or its return. -/
inductive Step : Machine ι κ σ α → Machine ι κ σ α → Prop
  | other {m : Machine ι κ σ α} {s : σ} : Other m.shared s → Step m { m with shared := s }
  | call {m : Machine ι κ σ α} (k : κ) : m.running = none →
      Step m { m with running := some (k, m.shared, code k) }
  | access {m : Machine ι κ σ α} {k : κ} {s : σ} {i : ι} {f : σ → σ} {next : σ → Thread ι σ α} :
    m.running = some (k, s, .access i f next) →
    Step m { m with shared := f m.shared, running := some (k, s, next m.shared) }
  | finish {m : Machine ι κ σ α} {k : κ} {s : σ} {a : α} : m.running = some (k, s, .done a) →
    Step m { m with running := none, log := m.log ++ [(k, s, a)] }

def start (s : σ) : Machine ι κ σ α := ⟨s, none, []⟩

def Reaches : Machine ι κ σ α → Machine ι κ σ α → Prop := ReflTransGen (Step Other code)

variable {Other code} {Safe : ι → σ → Prop} {I : List (κ × σ × α) → σ → Prop}

/-- What holds of a machine between its steps. -/
def Kept (Other : σ → σ → Prop) (Safe : ι → σ → Prop) (I : List (κ × σ × α) → σ → Prop)
    (m : Machine ι κ σ α) :
    Prop :=
  (m.running = none → I m.log m.shared) ∧ ∀ k s t, m.running = some (k, s, t) → I m.log s ∧
    t.Holds Other Safe (fun a s' => I (m.log ++ [(k, s, a)]) s') m.shared

theorem Step.kept {m m' : Machine ι κ σ α} (hstable : ∀ log, Stable Other (I log))
    (hcode : ∀ k log s,
      I log s → (code k).Holds Other Safe (fun a s' => I (log ++ [(k, s, a)]) s') s)
    (h : Kept Other Safe I m) (hstep : Step Other code m m') : Kept Other Safe I m' := by
  cases hstep with
  | other hs =>
    refine ⟨fun hnone => hstable _ _ _ (h.1 hnone) hs, fun k s t hrun => ?_⟩
    exact ⟨(h.2 k s t hrun).1, (h.2 k s t hrun).2.other (.single hs)⟩
  | call k hnone =>
    refine ⟨fun hrun => (by cases hrun), fun k' s t hrun => ?_⟩
    obtain ⟨rfl, rfl, rfl⟩ : k = k' ∧ m.shared = s ∧ code k = t := by
      injection hrun with hrun
      exact ⟨congrArg (·.1) hrun, congrArg (·.2.1) hrun, congrArg (·.2.2) hrun⟩
    exact ⟨h.1 hnone, hcode k m.log m.shared (h.1 hnone)⟩
  | access hrun =>
    refine ⟨fun hnone => (by cases hnone), fun k' s' t' hrun' => ?_⟩
    obtain ⟨hI, hholds⟩ := h.2 _ _ _ hrun
    injection hrun' with hrun'
    obtain ⟨rfl, rfl, rfl⟩ : _ = k' ∧ _ = s' ∧ _ = t' :=
      ⟨congrArg (·.1) hrun', congrArg (·.2.1) hrun', congrArg (·.2.2) hrun'⟩
    exact ⟨hI, (hholds m.shared .refl).2⟩
  | finish hrun =>
      exact ⟨fun _ => (h.2 _ _ _ hrun).2 m.shared .refl, fun _ _ _ hrun' => (by cases hrun')⟩

/-- What every call keeps holds of every run. -/
theorem Reaches.kept {s : σ} {m : Machine ι κ σ α} (hstable : ∀ log, Stable Other (I log))
    (hcode : ∀ k log s,
      I log s → (code k).Holds Other Safe (fun a s' => I (log ++ [(k, s, a)]) s') s)
    (h : I [] s) (hrun : Reaches Other code (start s) m) : Kept Other Safe I m := by
  induction hrun with
  | refl => exact ⟨fun _ => h, fun _ _ _ hrun => (by cases hrun)⟩
  | tail _ hstep ih => exact hstep.kept hstable hcode ih

end Machine

end Thread

end MinervaOS
