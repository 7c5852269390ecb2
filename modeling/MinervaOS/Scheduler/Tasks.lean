import MinervaOS.Lib.Prog
import Mathlib.Logic.Function.Basic
import Mathlib.Tactic.SplitIfs

/-!
# The task table and its bookkeeping

The globals of the scheduler and the functions that change them. A stack pointer is the stack it
points into and an offset, so that pointers into two stacks are never equal. The statements of
`scheduler_poll` and `scheduler_yield` that come before their stack switch are functions of their
own; the switch itself, which leaves one stack for another, is where the contexts are modelled.
-/

namespace MinervaOS.Scheduler

/-- A pointer into one of the stacks. -/
inductive Addr where
  | null
  | bootStack (offset : Nat)
  | mainStack (offset : Nat)
  | taskStack (id offset : Nat)
  | irqStack (id offset : Nat)
  deriving DecidableEq, Repr

structure Context where
  esp : Addr
  irqEsp : Addr
  resumeIrqEsp : Addr
  deriving DecidableEq, Repr

/-- `entry` says whether the task has one; the main loop has none. -/
structure Task where
  entry : Bool
  context : Context
  active : Bool
  deriving DecidableEq, Repr

def schedMaxTasks : Nat := 8

/-- `none` stands for the task id -1. `frameEax` is the EAX word of the frames in `irq_stacks`. -/
structure Sched where
  tasks : Nat → Task
  taskCount : Nat
  currentTask : Option Nat
  ticksInQuantum : Nat
  switchPending : Bool
  irqCandidateReady : Bool
  preemptiveEnabled : Bool
  mainSwitchEnabled : Bool
  inTask : Bool
  mainPausedViaIrq : Bool
  mainTaskId : Option Nat
  frameEax : Addr → Addr

namespace Sched

def setTask (s : Sched) (id : Nat) (t : Task) : Sched :=
  { s with tasks := Function.update s.tasks id t }

def setEsp (s : Sched) (id : Nat) (esp : Addr) : Sched :=
  s.setTask id { s.tasks id with context := { (s.tasks id).context with esp := esp } }

def setIrqEsp (s : Sched) (id : Nat) (esp : Addr) : Sched :=
  s.setTask id { s.tasks id with context := { (s.tasks id).context with irqEsp := esp } }

/-- Writes the EAX word of the frame at `frame`. -/
def setFrameEax (s : Sched) (frame eax : Addr) : Sched :=
  { s with frameEax := Function.update s.frameEax frame eax }

end Sched

/-! ## Starting up -/

def schedulerInit : Sched where
  tasks _ := ⟨false, ⟨.null, .null, .null⟩, false⟩
  taskCount := 0
  currentTask := none
  ticksInQuantum := 0
  switchPending := false
  irqCandidateReady := false
  preemptiveEnabled := false
  mainSwitchEnabled := false
  inTask := false
  mainPausedViaIrq := false
  mainTaskId := none
  frameEax _ := .null

/-- Five words below the top of the task's stack. -/
def makeInitialEsp (id : Nat) : Addr := .taskStack id (1024 - 20)

/-- The frame of nineteen words below the top of the task's interrupt stack. -/
def resumeFrame (id : Nat) : Addr := .irqStack id (1024 - 76)

def makeResumeIrqEsp (s : Sched) (id : Nat) : Addr × Sched :=
  (resumeFrame id, s.setFrameEax (resumeFrame id) (s.tasks id).context.esp)

/-- `name` and `entry` say whether the pointers are set. -/
def schedulerCreateKernelTask (s : Sched) (name entry : Bool) : Option Nat × Sched :=
  if !name || !entry || s.taskCount ≥ schedMaxTasks then (none, s)
  else
    let id := s.taskCount
    let s := s.setTask id ⟨entry, ⟨makeInitialEsp id, .null, .null⟩, false⟩
    let (resume, s) := makeResumeIrqEsp s id
    let s := s.setTask id ⟨entry, ⟨makeInitialEsp id, resume, resume⟩, true⟩
    let current := s.currentTask.getD 0
    (some id, { s with taskCount := s.taskCount + 1, currentTask := some current })

def schedulerRegisterMainTask (s : Sched) (name : Bool) : Option Nat × Sched :=
  if !name || s.taskCount ≥ schedMaxTasks || s.mainTaskId.isSome then (none, s)
  else
    let id := s.taskCount
    let s := s.setTask id ⟨false, ⟨.null, .null, .null⟩, true⟩
    (some id, { s with taskCount := s.taskCount + 1, mainTaskId := some id })

/-! ## The timer interrupt -/

/-- The task after `next` in the round, the first one after -1. -/
def Sched.following (s : Sched) : Option Nat → Nat
  | none => 0
  | some next => if next + 1 ≥ s.taskCount then 0 else next + 1

def irqScan (s : Sched) : Nat → Option Nat → Option Nat
  | 0, _ => none
  | left + 1, next =>
    let next := s.following next
    if some next = s.currentTask then irqScan s left (some next)
    else if (s.tasks next).active && (s.tasks next).context.irqEsp != .null then some next
    else irqScan s left (some next)

def schedulerNextActiveIrqTask (s : Sched) : Option Nat := irqScan s s.taskCount s.currentTask

def schedulerTick (s : Sched) : Sched :=
  if s.taskCount = 0 then s
  else if s.ticksInQuantum + 1 ≥ 10 then
    { s with ticksInQuantum := 0, switchPending := true, irqCandidateReady := true }
  else { s with ticksInQuantum := s.ticksInQuantum + 1 }

/-- The frame to leave the interrupt through, `null` to go on with the interrupted code. -/
def schedulerOnTimerInterrupt (s : Sched) (frame : Addr) : Addr × Sched :=
  if !s.switchPending || !s.irqCandidateReady || s.taskCount = 0 then (.null, s) else
  match schedulerNextActiveIrqTask s with
  | none => (.null, s)
  | some next =>
    let s := { s with irqCandidateReady := false }
    if !s.preemptiveEnabled then (.null, s) else
    if !s.inTask then
      match s.mainTaskId with
      | none => (.null, s)
      | some main =>
        if !s.mainSwitchEnabled then (.null, s) else
        let s := s.setIrqEsp main frame
        let s := { s with
          mainPausedViaIrq := true, switchPending := false, currentTask :=
            some next, inTask := true }
        ((s.tasks next).context.irqEsp, s)
    else
      match s.currentTask with
      | none => (.null, s)
      | some current =>
        if !(s.tasks current).active then (.null, s) else
        let s := { s with switchPending := false }.setIrqEsp current frame
        let resumeEsp := (s.tasks next).context.irqEsp
        let s := if some next = s.mainTaskId then
            { s.setIrqEsp next .null with mainPausedViaIrq := false, inTask := false }
          else s
        (resumeEsp, { s with currentTask := some next })

/-- Whether a timer interrupt may take the interrupted context off the processor. -/
def timerGate (s : Sched) : Bool :=
  s.switchPending && s.irqCandidateReady && s.preemptiveEnabled &&
    (if s.inTask then s.currentTask.any fun current => (s.tasks current).active
      else s.mainSwitchEnabled && s.mainTaskId.isSome)

/-- The task that a timer interrupt switches to, if it comes to switch. -/
def timerSwitch (s : Sched) : Option Nat :=
  if timerGate s then schedulerNextActiveIrqTask s else none

/-! ## Poll and yield -/

/-- The round of `scheduler_poll`: the first active task with an entry. -/
def pollScan (s : Sched) : Nat → Option Nat → Option Nat
  | 0, _ => none
  | left + 1, next =>
    let next := s.following next
    if (s.tasks next).active && (s.tasks next).entry then some next
    else pollScan s left (some next)

/-- Whether the main loop waits in an interrupt frame. -/
def Sched.mainPaused (s : Sched) : Bool :=
  s.mainPausedViaIrq && s.mainTaskId.any fun main => (s.tasks main).context.irqEsp != .null

/-- The bookkeeping of `scheduler_yield` under `cli`, and the frame of the main loop. -/
def yieldToPausedMain (s : Sched) (oldTask main : Nat) : Addr × Sched :=
  let mainIretEsp := (s.tasks main).context.irqEsp
  let s := s.setIrqEsp oldTask (s.tasks oldTask).context.resumeIrqEsp
  let s := s.setIrqEsp main .null
  (mainIretEsp, { s with mainPausedViaIrq := false, currentTask := some main, inTask := false })

/-- The synthetic frame of a task, where it has one, is refreshed with the stack pointer saved. -/
def updateResumeFrame (s : Sched) (resumeIrqEsp esp : Addr) : Sched :=
  if resumeIrqEsp = .null then s else s.setFrameEax resumeIrqEsp esp

def schedulerSetPreemptiveEnabled (s : Sched) (enabled : Int) : Sched :=
  { s with preemptiveEnabled := enabled != 0 }

def schedulerSetMainSwitchEnabled (s : Sched) (enabled : Int) : Sched :=
  { s with mainSwitchEnabled := enabled != 0 }

/-! ## What the functions do -/

section Spec

variable {s : Sched} {next : Nat}

variable (id : Nat) (esp : Addr) (j : Nat)

@[simp] theorem setEsp_esp : ((s.setEsp id esp).tasks j).context.esp =
    if j = id then esp else (s.tasks j).context.esp := by
  by_cases h : j = id <;> simp [Sched.setEsp, Sched.setTask, h]

@[simp] theorem setEsp_irqEsp :
    ((s.setEsp id esp).tasks j).context.irqEsp = (s.tasks j).context.irqEsp := by
  by_cases h : j = id <;> simp [Sched.setEsp, Sched.setTask, h]

@[simp] theorem setEsp_resumeIrqEsp :
    ((s.setEsp id esp).tasks j).context.resumeIrqEsp = (s.tasks j).context.resumeIrqEsp := by
  by_cases h : j = id <;> simp [Sched.setEsp, Sched.setTask, h]

@[simp] theorem setEsp_entry : ((s.setEsp id esp).tasks j).entry = (s.tasks j).entry := by
  by_cases h : j = id <;> simp [Sched.setEsp, Sched.setTask, h]

@[simp] theorem setEsp_mainPausedViaIrq :
    (s.setEsp id esp).mainPausedViaIrq = s.mainPausedViaIrq := rfl

@[simp] theorem setEsp_frameEax : (s.setEsp id esp).frameEax = s.frameEax := rfl

@[simp] theorem setIrqEsp_irqEsp : ((s.setIrqEsp id esp).tasks j).context.irqEsp =
    if j = id then esp else (s.tasks j).context.irqEsp := by
  by_cases h : j = id <;> simp [Sched.setIrqEsp, Sched.setTask, h]

@[simp] theorem setIrqEsp_esp :
    ((s.setIrqEsp id esp).tasks j).context.esp = (s.tasks j).context.esp := by
  by_cases h : j = id <;> simp [Sched.setIrqEsp, Sched.setTask, h]

@[simp] theorem setIrqEsp_resumeIrqEsp :
    ((s.setIrqEsp id esp).tasks j).context.resumeIrqEsp = (s.tasks j).context.resumeIrqEsp := by
  by_cases h : j = id <;> simp [Sched.setIrqEsp, Sched.setTask, h]

@[simp] theorem setIrqEsp_entry : ((s.setIrqEsp id esp).tasks j).entry = (s.tasks j).entry := by
  by_cases h : j = id <;> simp [Sched.setIrqEsp, Sched.setTask, h]

@[simp] theorem setFrameEax_tasks (frame eax : Addr) : (s.setFrameEax frame eax).tasks = s.tasks :=
  rfl

@[simp] theorem setFrameEax_frameEax (frame eax : Addr) :
    (s.setFrameEax frame eax).frameEax = Function.update s.frameEax frame eax := rfl

@[simp] theorem setIrqEsp_frameEax (id : Nat) (esp : Addr) :
    (s.setIrqEsp id esp).frameEax = s.frameEax := rfl

/-- A task with a synthetic frame has the saved stack pointer written into it. -/
theorem updateResumeFrame_resumeFrame (s : Sched) (id : Nat) (esp : Addr) :
    updateResumeFrame s (resumeFrame id) esp = s.setFrameEax (resumeFrame id) esp := by
  simp [updateResumeFrame, resumeFrame]

theorem resumeFrame_inj {i j : Nat} : resumeFrame i = resumeFrame j ↔ i = j := by
  simp [resumeFrame]

theorem following_lt (h : 0 < s.taskCount) (next : Option Nat) :
    s.following next < s.taskCount := by
  cases next with
  | none => exact h
  | some next =>
    simp only [Sched.following]
    split <;> omega

theorem irqScan_some : ∀ {left : Nat} {start : Option Nat}, 0 < s.taskCount →
    irqScan s left start = some next → next < s.taskCount ∧ some next ≠ s.currentTask ∧
      (s.tasks next).active = true ∧ (s.tasks next).context.irqEsp ≠ .null
  | 0, _, _, h => by simp [irqScan] at h
  | left + 1, start, hc, h => by
    simp only [irqScan] at h
    split_ifs at h with hcur hready
    · exact irqScan_some hc h
    · obtain rfl := Option.some.inj h
      simp only [Bool.and_eq_true, bne_iff_ne] at hready
      exact ⟨following_lt hc start, hcur, hready⟩
    · exact irqScan_some hc h

theorem pollScan_some : ∀ {left : Nat} {start : Option Nat}, 0 < s.taskCount →
    pollScan s left start = some next → next < s.taskCount ∧ (s.tasks next).active = true ∧
      (s.tasks next).entry = true
  | 0, _, _, h => by simp [pollScan] at h
  | left + 1, start, hc, h => by
    simp only [pollScan] at h
    split_ifs at h with hready
    · obtain rfl := Option.some.inj h
      exact ⟨following_lt hc start, by simpa using hready⟩
    · exact pollScan_some hc h

theorem pollScan_switchPending (b : Bool) : ∀ (left : Nat) (start : Option Nat),
    pollScan { s with switchPending := b } left start = pollScan s left start
  | 0, _ => rfl
  | left + 1, start => by
    have hf : Sched.following { s with switchPending := b } start = s.following start := by
      cases start <;> rfl
    simp only [pollScan, hf, pollScan_switchPending b left]

/-- A tick counts, and asks for a switch. -/
theorem schedulerTick_eq (s : Sched) : ∃ ticks pending ready, schedulerTick s =
    { s with ticksInQuantum := ticks, switchPending := pending, irqCandidateReady := ready } := by
  unfold schedulerTick
  split_ifs
  · exact ⟨s.ticksInQuantum, s.switchPending, s.irqCandidateReady, rfl⟩
  · exact ⟨_, _, _, rfl⟩
  · exact ⟨_, s.switchPending, s.irqCandidateReady, rfl⟩

theorem timerSwitch_some (h : timerSwitch s = some next) : timerGate s = true ∧
    s.switchPending = true ∧ s.irqCandidateReady = true ∧ s.preemptiveEnabled = true ∧
      s.taskCount ≠ 0 ∧ schedulerNextActiveIrqTask s = some next := by
  unfold timerSwitch at h
  split_ifs at h with hg
  have hgate := hg
  simp only [timerGate, Bool.and_eq_true] at hg
  refine ⟨hgate, hg.1.1.1, hg.1.1.2, hg.1.2, fun h0 => ?_, h⟩
  simp [schedulerNextActiveIrqTask, h0, irqScan] at h

/-- Without a task to switch to, the interrupted code goes on. -/
theorem schedulerOnTimerInterrupt_stay (h : timerSwitch s = none) (frame : Addr) :
    ∃ ready, schedulerOnTimerInterrupt s frame =
      (.null, { s with irqCandidateReady := ready }) := by
  have hsame : ∃ ready, ((.null, s) : Addr × Sched) =
      (.null, { s with irqCandidateReady := ready }) := ⟨s.irqCandidateReady, rfl⟩
  unfold schedulerOnTimerInterrupt
  split
  · exact hsame
  · rename_i hgate
    simp only [Bool.or_eq_true, Bool.not_eq_true', decide_eq_true_eq, not_or,
      Bool.not_eq_false] at hgate
    cases hn : schedulerNextActiveIrqTask s with
    | none => exact hsame
    | some next =>
      simp only [timerSwitch, timerGate, hgate, hn, Bool.true_and] at h
      by_cases hpre : s.preemptiveEnabled = true <;> cases hin : s.inTask <;>
        cases hm : s.mainTaskId <;> cases hcur : s.currentTask <;>
        simp_all

/-- From the main loop to a task. -/
theorem schedulerOnTimerInterrupt_fromMain (h : timerSwitch s = some next)
    (hin : s.inTask = false) (frame : Addr) : ∃ main t, s.mainTaskId = some main ∧
      t = { s.setIrqEsp main frame with
        irqCandidateReady := false, mainPausedViaIrq := true, switchPending := false,
        currentTask := some next, inTask := true } ∧
      schedulerOnTimerInterrupt s frame = ((t.tasks next).context.irqEsp, t) := by
  obtain ⟨hg, hp, hr, hpre, hc, hn⟩ := timerSwitch_some h
  simp only [timerGate, hp, hr, hpre, hin, Bool.true_and, Bool.false_eq_true, if_false,
    Bool.and_eq_true, Option.isSome_iff_exists] at hg
  obtain ⟨hms, main, hm⟩ := hg
  refine ⟨main, _, hm, rfl, ?_⟩
  simp [schedulerOnTimerInterrupt, hp, hr, hn, hpre, hin, hm, hms, hc, Sched.setIrqEsp,
    Sched.setTask]

section FromTask

variable {current : Nat}

theorem timerSwitch_current (h : timerSwitch s = some next) (hin : s.inTask = true)
    (hcur : s.currentTask = some current) :
    next ≠ current ∧ (s.tasks current).active = true := by
  obtain ⟨hg, hp, hr, hpre, hc, hn⟩ := timerSwitch_some h
  have hne := (irqScan_some (Nat.pos_of_ne_zero hc) hn).2.1
  simp only [timerGate, hp, hr, hpre, hin, hcur, Bool.true_and, if_true, Option.any_some] at hg
  exact ⟨fun h => hne (h ▸ hcur.symm), hg⟩

/-- From a task to another. -/
theorem schedulerOnTimerInterrupt_toTask (h : timerSwitch s = some next) (hin : s.inTask = true)
    (hcur : s.currentTask = some current) (hm : some next ≠ s.mainTaskId) (frame : Addr) :
    ∃ t, t = { s.setIrqEsp current frame with
        irqCandidateReady := false, switchPending := false, currentTask := some next } ∧
      schedulerOnTimerInterrupt s frame = ((t.tasks next).context.irqEsp, t) := by
  obtain ⟨hg, hp, hr, hpre, hc, hn⟩ := timerSwitch_some h
  obtain ⟨hne, hact⟩ := timerSwitch_current h hin hcur
  refine ⟨_, rfl, ?_⟩
  simp [schedulerOnTimerInterrupt, hp, hr, hn, hpre, hin, hcur, hact, hc, hm, Sched.setIrqEsp,
    Sched.setTask]

/-- From a task back to the main loop. -/
theorem schedulerOnTimerInterrupt_toMain (h : timerSwitch s = some next) (hin : s.inTask = true)
    (hcur : s.currentTask = some current) (hm : s.mainTaskId = some next) (frame : Addr) :
    ∃ t, t = { (s.setIrqEsp current frame).setIrqEsp next .null with
        irqCandidateReady := false, switchPending := false, currentTask := some next,
        mainPausedViaIrq := false, inTask := false } ∧
      schedulerOnTimerInterrupt s frame = ((s.tasks next).context.irqEsp, t) := by
  obtain ⟨hg, hp, hr, hpre, hc, hn⟩ := timerSwitch_some h
  obtain ⟨hne, hact⟩ := timerSwitch_current h hin hcur
  refine ⟨_, rfl, ?_⟩
  simp [schedulerOnTimerInterrupt, hp, hr, hn, hpre, hin, hcur, hact, hc, hm, hne,
    Sched.setIrqEsp, Sched.setTask]

end FromTask

end Spec

end MinervaOS.Scheduler
