import MinervaOS.Scheduler.Tasks

/-!
# Contexts and their suspensions

A context is a kernel task or the main loop. It is suspended by saving its stack pointer in a
cooperative switch, or by the interrupt that leaves its frame on the stack, and it is resumed along
the same two paths. A resumption is fresh if it loads what the latest suspension recorded.
-/

namespace MinervaOS.Scheduler

/-- How a context was last suspended. -/
inductive Suspension where
  | cooperative (esp : Addr)
  | interrupt (frame : Addr)
  deriving DecidableEq

def Suspension.ofInterrupt : Suspension → Bool
  | .cooperative _ => false
  | .interrupt _ => true

inductive Path where
  | cooperative
  | irq
  deriving DecidableEq

/-- A context is resumed: the pointer that is loaded, and how. -/
structure Resume where
  path : Path
  target : Nat
  pointer : Addr
  deriving DecidableEq

/-- The scheduler, the context that runs and, for each context, its latest suspension. -/
structure Sys where
  sched : Sched
  running : Nat
  last : Nat → Suspension

/-- `pointer` is the synthetic frame of `target`, and it leads to the saved stack pointer `esp`. -/
def Sched.LeadsTo (s : Sched) (target : Nat) (pointer esp : Addr) : Prop :=
  pointer ≠ .null ∧ pointer = (s.tasks target).context.resumeIrqEsp ∧ s.frameEax pointer = esp

instance (s : Sched) (target : Nat) (pointer esp : Addr) :
    Decidable (s.LeadsTo target pointer esp) :=
  inferInstanceAs (Decidable (_ ∧ _ ∧ _))

/-- The pointer is the one that the target's latest suspension recorded. A synthetic frame stands
for the cooperative suspension that it was refreshed with. -/
def Resume.Fresh (s : Sys) (r : Resume) : Prop :=
  match r.path, s.last r.target with
  | .cooperative, .cooperative esp => r.pointer = esp
  | .cooperative, .interrupt _ => False
  | .irq, .cooperative esp => s.sched.LeadsTo r.target r.pointer esp
  | .irq, .interrupt frame => r.pointer = frame

instance (s : Sys) (r : Resume) : Decidable (r.Fresh s) := by
  unfold Resume.Fresh
  exact match r.path, s.last r.target with
  | .cooperative, .cooperative esp => inferInstanceAs (Decidable (r.pointer = esp))
  | .cooperative, .interrupt _ => inferInstanceAs (Decidable False)
  | .irq, .cooperative esp => inferInstanceAs (Decidable (s.sched.LeadsTo r.target r.pointer esp))
  | .irq, .interrupt frame => inferInstanceAs (Decidable (r.pointer = frame))

/-- The context that a step resumes, if it resumes one, is resumed from what its latest suspension
recorded; `sys` is the system in the state that the step ends in. -/
def FreshAfter {σ : Type} (sys : σ → Sys) (out : Option (Option Resume × σ)) : Prop :=
  ∀ r s', out = some (some r, s') → r.Fresh (sys s')

instance {σ : Type} (sys : σ → Sys) :
    ∀ out : Option (Option Resume × σ), Decidable (FreshAfter sys out)
  | some (some r, s') => decidable_of_iff (r.Fresh (sys s'))
    ⟨fun hf r₁ s₁ h => by cases h; exact hf, fun hf => hf r s' rfl⟩
  | some (none, _) => isTrue fun _ _ h => by cases h
  | none => isTrue fun _ _ h => by cases h

end MinervaOS.Scheduler
