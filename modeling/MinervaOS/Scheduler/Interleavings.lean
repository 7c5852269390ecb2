import MinervaOS.Scheduler.Resumptions

/-!
# Interleavings

Here `scheduler_poll` and `scheduler_yield` are taken one statement at a time, and the switches one
instruction at a time, with timer interrupts in between wherever they are enabled. The bookkeeping
names the context that an interrupt finds running as long as no interrupt finds the main loop
between the two assignments to `in_task` around its switch.
-/

namespace MinervaOS.Scheduler

open Prog

/-- The next statement of a context, with the locals and arguments it uses. -/
inductive Pc where
  /-- Code outside the functions below. -/
  | code
  /-- `scheduler_resume_from_saved_esp`, entered on the task's interrupt stack. -/
  | resumeStub (eax : Addr)
  | pollTest
  | pollClear
  | pollInit
  | pollScan (next : Option Nat) (left : Nat)
  | pollCurrent (next : Nat)
  | pollEnter
  | pollArgs
  | pollSave (task : Nat) (newEsp : Addr)
  | pollLoad (task : Nat) (newEsp : Addr)
  | pollLeave
  | yieldTest
  | yieldPaused
  | yieldIret
  | yieldMain
  | yieldArgs
  | yieldSave (oldTask : Nat) (resumeIrqEsp newEsp : Addr)
  | yieldUpdate (resumeIrqEsp esp newEsp : Addr)
  | yieldLoad (newEsp : Addr)
  deriving DecidableEq

/-- `saved` is the statement at which an interrupt found a context. -/
structure Machine where
  sys : Sys
  pc : Pc
  saved : Nat → Pc

namespace Machine

def goto (m : Machine) (pc : Pc) : Option (Option Resume × Machine) :=
  some (none, { m with pc := pc })

/-- Changes the scheduler, and goes on at `pc`. -/
def update (m : Machine) (f : Sched → Sched) (pc : Pc) : Option (Option Resume × Machine) :=
  some (none, { m with sys := { m.sys with sched := f m.sys.sched }, pc := pc })

/-- Where a context goes on after a cooperative switch: the main loop in `scheduler_poll`, a task
in its trampoline. -/
def returnPc (m : Machine) (id : Nat) : Pc :=
  if m.sys.sched.mainTaskId = some id then .pollLeave else .code

/-- Where the context that `r` resumes goes on. -/
def entryPc (m : Machine) (r : Resume) : Pc :=
  match r.path, m.sys.last r.target with
  | .cooperative, _ => m.returnPc r.target
  | .irq, .interrupt _ => m.saved r.target
  | .irq, .cooperative _ => .resumeStub (m.sys.sched.frameEax r.pointer)

def enter (m : Machine) (r : Resume) : Option (Option Resume × Machine) :=
  some (some r, { m with sys := { m.sys with running := r.target }, pc := m.entryPc r })

def suspend (m : Machine) (sched : Sched) (how : Suspension) (pc : Pc) : Machine :=
  { m with
    sys := { m.sys with sched := sched, last := Function.update m.sys.last m.sys.running how }
    pc := pc }

/-- Where the interrupt leaves its frame. -/
def frame (m : Machine) (offset : Nat) : Addr :=
  match m.pc with
  | .resumeStub _ => resumeFrame m.sys.running
  | _ => m.sys.stack offset

/-- A timer interrupt between two statements. -/
def timer (m : Machine) (offset : Nat) : Option (Option Resume × Machine) :=
  let frame := m.frame offset
  let out := schedulerOnTimerInterrupt (schedulerTick m.sys.sched) frame
  if out.1 = .null then some (none, { m with sys := { m.sys with sched := out.2 } })
  else
    match out.2.currentTask with
    | none => none
    | some next =>
      let m := { m with saved := Function.update m.saved m.sys.running m.pc }
      (m.suspend out.2 (.interrupt frame) m.pc).enter ⟨.irq, next, out.1⟩

/-- The next statement; the stack pointer is at `offset` where it is saved. -/
def stmt (m : Machine) (offset : Nat) : Option (Option Resume × Machine) :=
  let s := m.sys.sched
  match m.pc with
  | .code => m.goto .code
  | .resumeStub _ => m.goto .code
  | .pollTest => m.goto (if !s.switchPending || s.taskCount = 0 then .code else .pollClear)
  | .pollClear => m.update (fun s => { s with switchPending := false }) .pollInit
  | .pollInit => m.goto (.pollScan s.currentTask s.taskCount)
  | .pollScan _ 0 => m.goto .code
  | .pollScan next (left + 1) =>
    let next := s.following next
    m.goto (if (s.tasks next).active && (s.tasks next).entry then .pollCurrent next
      else .pollScan (some next) left)
  | .pollCurrent next => m.update (fun s => { s with currentTask := some next }) .pollEnter
  | .pollEnter => m.update (fun s => { s with inTask := true }) .pollArgs
  | .pollArgs => do
    let task ← s.currentTask
    m.goto (.pollSave task (s.tasks task).context.esp)
  | .pollSave task newEsp => do
    let main ← s.mainTaskId
    let esp := m.sys.stack offset
    return (none, m.suspend (s.setEsp main esp) (.cooperative esp) (.pollLoad task newEsp))
  | .pollLoad task newEsp => m.enter ⟨.cooperative, task, newEsp⟩
  | .pollLeave => m.update (fun s => { s with inTask := false }) .code
  | .yieldTest => m.goto (if !s.inTask || s.currentTask.isNone then .code else .yieldPaused)
  | .yieldPaused => m.goto (if s.mainPaused then .yieldIret else .yieldMain)
  | .yieldIret => do
    -- from `cli` to `iretd` no interrupt comes in between
    let oldTask ← s.currentTask
    let main ← s.mainTaskId
    let esp := m.sys.stack offset
    let out := yieldToPausedMain s oldTask main
    let resumeIrqEsp := (out.2.tasks oldTask).context.resumeIrqEsp
    let sched := updateResumeFrame (out.2.setEsp oldTask esp) resumeIrqEsp esp
    (m.suspend sched (.cooperative esp) .code).enter ⟨.irq, main, out.1⟩
  | .yieldMain => m.goto (if s.mainTaskId.isNone then .code else .yieldArgs)
  | .yieldArgs => do
    let current ← s.currentTask
    let main ← s.mainTaskId
    m.goto (.yieldSave current (s.tasks current).context.resumeIrqEsp (s.tasks main).context.esp)
  | .yieldSave oldTask resumeIrqEsp newEsp =>
    let esp := m.sys.stack offset
    some (none, m.suspend (s.setEsp oldTask esp) (.cooperative esp)
      (.yieldUpdate resumeIrqEsp esp newEsp))
  | .yieldUpdate resumeIrqEsp esp newEsp =>
    m.update (fun s => updateResumeFrame s resumeIrqEsp esp) (.yieldLoad newEsp)
  | .yieldLoad newEsp => do
    let main ← s.mainTaskId
    m.enter ⟨.cooperative, main, newEsp⟩

/-- The main loop calls `scheduler_poll`, a task `scheduler_yield`. -/
def call (m : Machine) : Option (Option Resume × Machine) :=
  if m.pc = .code then
    m.goto (if m.sys.sched.mainTaskId = some m.sys.running then .pollTest else .yieldTest)
  else none

end Machine

inductive Event where
  | timer (offset : Nat)
  | stmt (offset : Nat)
  | call
  | setPreemptiveEnabled (enabled : Int)
  | setMainSwitchEnabled (enabled : Int)

def Event.run : Event → Prog Machine (Option Resume)
  | .timer offset => fun m => m.timer offset
  | .stmt offset => fun m => m.stmt offset
  | .call => Machine.call
  | .setPreemptiveEnabled enabled => fun m =>
    if m.pc = .code then m.update (schedulerSetPreemptiveEnabled · enabled) .code else none
  | .setMainSwitchEnabled enabled => fun m =>
    if m.pc = .code then m.update (schedulerSetMainSwitchEnabled · enabled) .code else none

/-- The main loop is about to be polled, and no context has been interrupted. -/
def Machine.boot (kernelTasks ticks : Nat) : Machine :=
  ⟨Scheduler.boot kernelTasks ticks, .code, fun _ => .code⟩

/-! ## What an interrupt finds -/

/-- From `in_task = 1` to the switch, and from the switch back to `in_task = 0`. -/
def Pc.midSwitch : Pc → Bool
  | .pollArgs | .pollSave .. | .pollLoad .. | .pollLeave => true
  | _ => false

/-- `in_task` is 1 exactly if the interrupted code runs on the stack of the task `current_task`,
and 0 exactly if it runs on the main loop's. -/
def Machine.Names (m : Machine) : Prop :=
  (m.sys.sched.inTask = true ↔ m.sys.sched.mainTaskId ≠ some m.sys.running ∧
    m.sys.sched.currentTask = some m.sys.running) ∧
  (m.sys.sched.inTask = false ↔ m.sys.sched.mainTaskId = some m.sys.running)

instance (m : Machine) : Decidable m.Names := inferInstanceAs (Decidable (_ ∧ _))

/-- A timer interrupt stores no frame in the slot of a context that it did not interrupt; it can
only clear one. -/
def Machine.StoresOwn (m : Machine) : Prop :=
  ∀ (frame : Addr) (id : Nat), id ≠ m.sys.running →
    ((schedulerOnTimerInterrupt (schedulerTick m.sys.sched) frame).2.tasks id).context.irqEsp =
      (m.sys.sched.tasks id).context.irqEsp ∨
    ((schedulerOnTimerInterrupt (schedulerTick m.sys.sched) frame).2.tasks id).context.irqEsp =
      .null

def Event.isTimer : Event → Bool
  | .timer _ => true
  | _ => false

/-- At a timer interrupt, the bookkeeping names the interrupted context. -/
def Event.Named (e : Event) (m : Machine) : Prop :=
  e.isTimer = true → m.Names ∧ m.StoresOwn

/-- The interrupt does not find the main loop in the middle of its switch, and no context is
resumed from a stale pointer. -/
def Event.Quiet (e : Event) (m : Machine) : Prop :=
  (e.isTimer = true → m.pc.midSwitch = false) ∧ FreshAfter Machine.sys (e.run m)

instance (e : Event) (m : Machine) : Decidable (e.Quiet m) :=
  inferInstanceAs (Decidable (_ ∧ _))

section Named

variable {n : Nat} {m m' : Machine} {r : Option Resume}

/-- Statements of the main loop. -/
def Pc.ofMain (n : Nat) : Pc → Prop
  | .code | .pollTest | .pollClear | .pollInit | .pollScan .. | .pollEnter | .pollArgs
  | .pollLeave => True
  | .pollCurrent next => next ≤ n
  | .pollSave .. | .pollLoad .. => True
  | _ => False

/-- Statements of a task. -/
def Pc.ofTask : Pc → Prop
  | .code | .resumeStub _ | .yieldTest | .yieldPaused | .yieldIret | .yieldMain | .yieldArgs
  | .yieldSave .. | .yieldUpdate .. | .yieldLoad _ => True
  | _ => False

/-- The task that a switch under way goes to. -/
def Pc.target : Pc → Option Nat
  | .pollSave task _ | .pollLoad task _ => some task
  | _ => none

theorem Pc.target_eq_none {pc : Pc} (h : pc.midSwitch = false) : pc.target = none := by
  cases pc <;> first | rfl | simp [Pc.midSwitch] at h

structure NamedInv (n : Nat) (m : Machine) : Prop where
  taskCount : m.sys.sched.taskCount = n + 1
  mainTaskId : m.sys.sched.mainTaskId = some n
  running : m.sys.running ≤ n
  current : ∀ task ∈ m.sys.sched.currentTask, task ≤ n
  savedMain : (m.saved n).ofMain n ∧ (m.saved n).midSwitch = false
  savedTasks : ∀ id < n, (m.saved id).ofTask
  mainRuns : m.sys.running = n → m.sys.sched.inTask = m.pc.midSwitch ∧
    (m.sys.sched.tasks n).context.irqEsp = .null ∧ m.pc.ofMain n ∧
      ∀ task ∈ m.pc.target, m.sys.sched.currentTask = some task
  taskRuns : m.sys.running < n → m.sys.sched.inTask = true ∧
    m.sys.sched.currentTask = some m.sys.running ∧ m.pc.ofTask ∧
      ((m.sys.last n).ofInterrupt = true ∨ (m.sys.sched.tasks n).context.irqEsp = .null)

theorem NamedInv.names (hi : NamedInv n m) (hq : m.pc.midSwitch = false) : m.Names := by
  unfold Machine.Names
  rw [hi.mainTaskId]
  rcases Nat.lt_or_ge m.sys.running n with hrun | hrun
  · obtain ⟨hin, hcur, -⟩ := hi.taskRuns hrun
    have hne := Nat.ne_of_gt hrun
    simp [hin, hcur, hne]
  · have hrun := Nat.le_antisymm hi.running hrun
    obtain ⟨hin, -⟩ := hi.mainRuns hrun
    simp [hin, hq, hrun]

theorem NamedInv.storesOwn (hi : NamedInv n m) (hq : m.pc.midSwitch = false) : m.StoresOwn := by
  obtain ⟨ticks, pending, ready, ht⟩ := schedulerTick_eq m.sys.sched
  intro frame id hid
  rw [ht]
  generalize hs : ({ m.sys.sched with
    ticksInQuantum := ticks, switchPending := pending, irqCandidateReady := ready } : Sched) = s
  have htasks : s.tasks = m.sys.sched.tasks := by rw [← hs]
  have hcur : s.currentTask = m.sys.sched.currentTask := by rw [← hs]
  have hmain : s.mainTaskId = some n := by rw [← hs]; exact hi.mainTaskId
  have hin : s.inTask = m.sys.sched.inTask := by rw [← hs]
  rw [← htasks]
  cases hsw : timerSwitch s with
  | none =>
    obtain ⟨ready, hout⟩ := schedulerOnTimerInterrupt_stay hsw frame
    exact .inl (by rw [hout])
  | some next =>
    rcases Nat.lt_or_ge m.sys.running n with hrun | hrun
    · obtain ⟨hin', hcur', -⟩ := hi.taskRuns hrun
      rw [← hin] at hin'
      rw [← hcur] at hcur'
      by_cases hm : some next = s.mainTaskId
      · obtain ⟨t, rfl, hout⟩ := schedulerOnTimerInterrupt_toMain hsw hin' hcur' hm.symm frame
        rw [hout]
        by_cases hnext : id = next
        · exact .inr (by simp [hnext])
        · exact .inl (by simp [hid, hnext])
      · obtain ⟨t, rfl, hout⟩ := schedulerOnTimerInterrupt_toTask hsw hin' hcur' hm frame
        rw [hout]
        exact .inl (by simp [hid])
    · have hrun := Nat.le_antisymm hi.running hrun
      have hin' : s.inTask = false := by rw [hin, (hi.mainRuns hrun).1, hq]
      obtain ⟨main, t, hm, rfl, hout⟩ := schedulerOnTimerInterrupt_fromMain hsw hin' frame
      obtain rfl : n = main := Option.some.inj (hmain.symm.trans hm)
      rw [hout]
      exact .inl (by simp [hrun ▸ hid])

/-- The main loop goes on at another statement. -/
theorem NamedInv.goto_main (hi : NamedInv n m) (hrun : m.sys.running = n) {pc : Pc}
    (hof : pc.ofMain n) (hmid : pc.midSwitch = m.pc.midSwitch) (htgt : pc.target = none) :
    NamedInv n { m with pc := pc } :=
  ⟨hi.taskCount, hi.mainTaskId, hi.running, hi.current, hi.savedMain, hi.savedTasks,
    fun _ => ⟨hmid ▸ (hi.mainRuns hrun).1, (hi.mainRuns hrun).2.1, hof, by simp [htgt]⟩,
    fun h => absurd hrun (Nat.ne_of_lt h)⟩

/-- A task goes on at another statement. -/
theorem NamedInv.goto_task (hi : NamedInv n m) (hrun : m.sys.running < n) {pc : Pc}
    (hof : pc.ofTask) : NamedInv n { m with pc := pc } :=
  ⟨hi.taskCount, hi.mainTaskId, hi.running, hi.current, hi.savedMain, hi.savedTasks,
    fun h => absurd h (Nat.ne_of_lt hrun),
    fun _ => ⟨(hi.taskRuns hrun).1, (hi.taskRuns hrun).2.1, hof, (hi.taskRuns hrun).2.2.2⟩⟩

theorem NamedInv.stmt_main (hi : NamedInv n m) (hrun : m.sys.running = n) {offset : Nat}
    (h : m.stmt offset = some (r, m')) : NamedInv n m' := by
  obtain ⟨hin, hirq, hof, htgt⟩ := hi.mainRuns hrun
  have hnot : ∀ {P : Prop}, m.sys.running < n → P := fun h => absurd hrun (Nat.ne_of_lt h)
  unfold Machine.stmt at h
  cases hpc : m.pc with
  | code | resumeStub eax =>
    simp only [hpc, Machine.goto, Option.some.injEq, Prod.mk.injEq] at h
    obtain ⟨-, rfl⟩ := h
    exact hi.goto_main hrun trivial (by simp [hpc, Pc.midSwitch]) rfl
  | pollTest =>
    simp only [hpc, Machine.goto, Option.some.injEq, Prod.mk.injEq] at h
    obtain ⟨-, rfl⟩ := h
    refine hi.goto_main hrun ?_ ?_ ?_ <;> split <;> simp [hpc, Pc.ofMain, Pc.midSwitch, Pc.target]
  | pollClear =>
    simp only [hpc, Machine.update, Option.some.injEq, Prod.mk.injEq] at h
    obtain ⟨-, rfl⟩ := h
    exact ⟨hi.taskCount, hi.mainTaskId, hi.running, hi.current, hi.savedMain, hi.savedTasks,
      fun _ => ⟨hin.trans (by rw [hpc]; rfl), hirq, trivial, by simp [Pc.target]⟩, hnot⟩
  | pollInit =>
    simp only [hpc, Machine.goto, Option.some.injEq, Prod.mk.injEq] at h
    obtain ⟨-, rfl⟩ := h
    exact hi.goto_main hrun trivial (by simp [hpc, Pc.midSwitch]) rfl
  | pollScan next left =>
    cases left with
    | zero =>
      simp only [hpc, Machine.goto, Option.some.injEq, Prod.mk.injEq] at h
      obtain ⟨-, rfl⟩ := h
      exact hi.goto_main hrun trivial (by simp [hpc, Pc.midSwitch]) rfl
    | succ left =>
      simp only [hpc, Machine.goto, Option.some.injEq, Prod.mk.injEq] at h
      obtain ⟨-, rfl⟩ := h
      have hlt := following_lt (s := m.sys.sched) (by rw [hi.taskCount]; omega) next
      rw [hi.taskCount] at hlt
      refine hi.goto_main hrun ?_ ?_ ?_ <;> split <;>
        simp [hpc, Pc.ofMain, Pc.midSwitch, Pc.target] <;> omega
  | pollCurrent next =>
    simp only [hpc, Machine.update, Option.some.injEq, Prod.mk.injEq] at h
    obtain ⟨-, rfl⟩ := h
    rw [hpc] at hof
    refine ⟨hi.taskCount, hi.mainTaskId, hi.running, ?_, hi.savedMain, hi.savedTasks,
      fun _ => ⟨hin.trans (by rw [hpc]; rfl), hirq, trivial, by simp [Pc.target]⟩, hnot⟩
    rintro task ⟨⟩
    exact hof
  | pollEnter =>
    simp only [hpc, Machine.update, Option.some.injEq, Prod.mk.injEq] at h
    obtain ⟨-, rfl⟩ := h
    exact ⟨hi.taskCount, hi.mainTaskId, hi.running, hi.current, hi.savedMain, hi.savedTasks,
      fun _ => ⟨rfl, hirq, trivial, by simp [Pc.target]⟩, hnot⟩
  | pollArgs =>
    cases hcur : m.sys.sched.currentTask with
    | none => simp [hpc, hcur] at h
    | some task =>
      simp [hpc, hcur, Machine.goto] at h
      obtain ⟨-, rfl⟩ := h
      exact ⟨hi.taskCount, hi.mainTaskId, hi.running, hi.current, hi.savedMain, hi.savedTasks,
        fun _ => ⟨hin.trans (by rw [hpc]; rfl), hirq, trivial, by simp [Pc.target, hcur]⟩, hnot⟩
  | pollSave task newEsp =>
    simp [hpc, hi.mainTaskId] at h
    obtain ⟨-, rfl⟩ := h
    rw [hpc] at htgt hin
    refine ⟨hi.taskCount, hi.mainTaskId, hi.running, hi.current, hi.savedMain, hi.savedTasks,
      fun _ => ⟨hin, ?_, trivial, htgt⟩, hnot⟩
    simpa [Machine.suspend] using hirq
  | pollLoad task newEsp =>
    simp only [hpc, Machine.enter, Option.some.injEq, Prod.mk.injEq] at h
    obtain ⟨-, rfl⟩ := h
    rw [hpc] at htgt hin
    have hcur := htgt task rfl
    refine ⟨hi.taskCount, hi.mainTaskId, hi.current task hcur, hi.current, hi.savedMain,
      hi.savedTasks, fun ht => ?_, fun ht => ⟨hin, hcur, ?_, .inr hirq⟩⟩
    · have ht : task = n := ht
      simp only [Machine.entryPc, Machine.returnPc, hi.mainTaskId, ht, if_true]
      exact ⟨hin, hirq, trivial, by simp [Pc.target]⟩
    · have hne : n ≠ task := Nat.ne_of_gt ht
      simp [Machine.entryPc, Machine.returnPc, hi.mainTaskId, hne, Pc.ofTask]
  | pollLeave =>
    simp only [hpc, Machine.update, Option.some.injEq, Prod.mk.injEq] at h
    obtain ⟨-, rfl⟩ := h
    exact ⟨hi.taskCount, hi.mainTaskId, hi.running, hi.current, hi.savedMain, hi.savedTasks,
      fun _ => ⟨rfl, hirq, trivial, by simp [Pc.target]⟩, hnot⟩
  | yieldTest | yieldPaused | yieldIret | yieldMain | yieldArgs => simp [hpc, Pc.ofMain] at hof
  | yieldSave oldTask resumeIrqEsp newEsp => simp [hpc, Pc.ofMain] at hof
  | yieldUpdate resumeIrqEsp esp newEsp => simp [hpc, Pc.ofMain] at hof
  | yieldLoad newEsp => simp [hpc, Pc.ofMain] at hof

theorem updateResumeFrame_fields (s : Sched) (resumeIrqEsp esp : Addr) :
    ∃ eax, updateResumeFrame s resumeIrqEsp esp = { s with frameEax := eax } := by
  unfold updateResumeFrame
  split
  · exact ⟨s.frameEax, rfl⟩
  · exact ⟨_, rfl⟩

/-- Only the main loop is resumed in a fresh frame by the yield of a task. -/
theorem NamedInv.main_iret (hi : NamedInv n m) (hrun : m.sys.running < n) {last : Nat → Suspension}
    (hlast : last n = m.sys.last n) {sched : Sched}
    (hf : (⟨.irq, n, (m.sys.sched.tasks n).context.irqEsp⟩ : Resume).Fresh ⟨sched, n, last⟩) :
    ∃ frame, last n = .interrupt frame := by
  obtain ⟨-, -, -, hwhich⟩ := hi.taskRuns hrun
  rw [← hlast] at hwhich
  cases hl : last n with
  | interrupt frame => exact ⟨frame, rfl⟩
  | cooperative esp =>
    simp only [hl, Suspension.ofInterrupt, Bool.false_eq_true, false_or] at hwhich
    simp [Resume.Fresh, hl, Sched.LeadsTo, hwhich] at hf

theorem NamedInv.stmt_task (hi : NamedInv n m) (hrun : m.sys.running < n) {offset : Nat}
    (h : m.stmt offset = some (r, m')) (hf : ∀ r', r = some r' → r'.Fresh m'.sys) :
    NamedInv n m' := by
  obtain ⟨hin, hcur, hof, hwhich⟩ := hi.taskRuns hrun
  have hnot : ∀ {P : Prop}, m.sys.running = n → P := fun h => absurd h (Nat.ne_of_lt hrun)
  have hne : m.sys.running ≠ n := Nat.ne_of_lt hrun
  unfold Machine.stmt at h
  cases hpc : m.pc with
  | code | resumeStub eax =>
    simp only [hpc, Machine.goto, Option.some.injEq, Prod.mk.injEq] at h
    obtain ⟨-, rfl⟩ := h
    exact hi.goto_task hrun trivial
  | yieldTest | yieldPaused | yieldMain =>
    simp only [hpc, Machine.goto, Option.some.injEq, Prod.mk.injEq] at h
    obtain ⟨-, rfl⟩ := h
    refine hi.goto_task hrun ?_
    split <;> trivial
  | yieldIret =>
    simp [hpc, hcur, hi.mainTaskId, Machine.enter] at h
    obtain ⟨hr, rfl⟩ := h
    have hfresh := hf _ hr.symm
    obtain ⟨eax, heax⟩ := updateResumeFrame_fields
      ((yieldToPausedMain m.sys.sched m.sys.running n).2.setEsp m.sys.running (m.sys.stack offset))
      (((yieldToPausedMain m.sys.sched m.sys.running n).2.tasks m.sys.running).context.resumeIrqEsp)
      (m.sys.stack offset)
    simp only [heax] at hfresh ⊢
    have hlast : (Function.update m.sys.last m.sys.running
        (.cooperative (m.sys.stack offset))) n = m.sys.last n := Function.update_of_ne hne.symm ..
    obtain ⟨frame, hframe⟩ := hi.main_iret hrun hlast hfresh
    refine ⟨hi.taskCount, hi.mainTaskId, Nat.le_refl _, ?_, hi.savedMain, hi.savedTasks,
      fun _ => ?_, fun h => absurd h (Nat.lt_irrefl _)⟩
    · rintro task ⟨⟩
      exact Nat.le_refl _
    · simp only [Machine.entryPc, Machine.suspend, hframe]
      refine ⟨hi.savedMain.2.symm, by simp [yieldToPausedMain], hi.savedMain.1, ?_⟩
      simp [Pc.target_eq_none hi.savedMain.2]
  | yieldArgs =>
    simp [hpc, hcur, hi.mainTaskId, Machine.goto] at h
    obtain ⟨-, rfl⟩ := h
    exact hi.goto_task hrun trivial
  | yieldSave oldTask resumeIrqEsp newEsp =>
    simp only [hpc, Option.some.injEq, Prod.mk.injEq] at h
    obtain ⟨-, rfl⟩ := h
    refine ⟨hi.taskCount, hi.mainTaskId, hi.running, hi.current, hi.savedMain, hi.savedTasks,
      hnot, fun _ => ⟨hin, hcur, trivial, ?_⟩⟩
    simpa [Machine.suspend, Function.update_of_ne hne.symm] using hwhich
  | yieldUpdate resumeIrqEsp esp newEsp =>
    simp only [hpc, Machine.update, Option.some.injEq, Prod.mk.injEq] at h
    obtain ⟨-, rfl⟩ := h
    obtain ⟨eax, heax⟩ := updateResumeFrame_fields m.sys.sched resumeIrqEsp esp
    rw [heax]
    exact ⟨hi.taskCount, hi.mainTaskId, hi.running, hi.current, hi.savedMain, hi.savedTasks,
      hnot, fun _ => ⟨hin, hcur, trivial, hwhich⟩⟩
  | yieldLoad newEsp =>
    simp [hpc, hi.mainTaskId, Machine.enter] at h
    obtain ⟨hr, rfl⟩ := h
    have hfresh := hf _ hr.symm
    refine ⟨hi.taskCount, hi.mainTaskId, Nat.le_refl _, hi.current, hi.savedMain, hi.savedTasks,
      fun _ => ?_, fun h => absurd h (Nat.lt_irrefl _)⟩
    cases hl : m.sys.last n with
    | interrupt frame => simp [Resume.Fresh, hl] at hfresh
    | cooperative esp =>
      simp only [hl, Suspension.ofInterrupt, Bool.false_eq_true, false_or] at hwhich
      simp [Machine.entryPc, Machine.returnPc, hi.mainTaskId, hin, hwhich, Pc.midSwitch,
        Pc.ofMain, Pc.target]
  | pollTest | pollClear | pollInit | pollEnter | pollArgs | pollLeave =>
    simp [hpc, Pc.ofTask] at hof
  | pollScan next left => simp [hpc, Pc.ofTask] at hof
  | pollCurrent next => simp [hpc, Pc.ofTask] at hof
  | pollSave task newEsp => simp [hpc, Pc.ofTask] at hof
  | pollLoad task newEsp => simp [hpc, Pc.ofTask] at hof

/-- The statement of the running context is one of its own. -/
theorem NamedInv.update_saved (hi : NamedInv n m) (hq : m.pc.midSwitch = false) :
    ((Function.update m.saved m.sys.running m.pc) n).ofMain n ∧
      ((Function.update m.saved m.sys.running m.pc) n).midSwitch = false ∧
      ∀ id < n, ((Function.update m.saved m.sys.running m.pc) id).ofTask := by
  rcases Nat.lt_or_ge m.sys.running n with hrun | hrun
  · rw [Function.update_of_ne (Nat.ne_of_gt hrun)]
    refine ⟨hi.savedMain.1, hi.savedMain.2, fun id hid => ?_⟩
    by_cases h : id = m.sys.running
    · subst h
      rw [Function.update_self]
      exact (hi.taskRuns hrun).2.2.1
    · rw [Function.update_of_ne h]
      exact hi.savedTasks id hid
  · have hrun := Nat.le_antisymm hi.running hrun
    rw [hrun, Function.update_self]
    refine ⟨(hi.mainRuns hrun).2.2.1, hq, fun id hid => ?_⟩
    rw [Function.update_of_ne (Nat.ne_of_lt hid)]
    exact hi.savedTasks id hid

/-- A task that an interrupt enters goes on at a statement of its own. -/
theorem ofTask_entryPc {id : Nat} (h : (m.saved id).ofTask) (frame : Addr) :
    (m.entryPc ⟨.irq, id, frame⟩).ofTask := by
  simp only [Machine.entryPc]
  cases m.sys.last id with
  | interrupt frame => exact h
  | cooperative esp => trivial

theorem NamedInv.timer (hi : NamedInv n m) (hq : m.pc.midSwitch = false) {offset : Nat}
    (h : m.timer offset = some (r, m')) : NamedInv n m' := by
  obtain ⟨ticks, pending, ready, ht⟩ := schedulerTick_eq m.sys.sched
  unfold Machine.timer at h
  rw [ht] at h
  obtain ⟨hmainOf, hmainMid, htaskOf⟩ := hi.update_saved hq
  generalize m.frame offset = frame at h
  generalize hs : ({ m.sys.sched with
    ticksInQuantum := ticks, switchPending := pending, irqCandidateReady := ready } : Sched) =
      s at h
  have htasks : s.tasks = m.sys.sched.tasks := by rw [← hs]
  have hcur : s.currentTask = m.sys.sched.currentTask := by rw [← hs]
  have hcount : s.taskCount = n + 1 := by rw [← hs]; exact hi.taskCount
  have hmain : s.mainTaskId = some n := by rw [← hs]; exact hi.mainTaskId
  have hin : s.inTask = m.sys.sched.inTask := by rw [← hs]
  cases hsw : timerSwitch s with
  | none =>
    obtain ⟨ready, hout⟩ := schedulerOnTimerInterrupt_stay hsw frame
    simp only [hout, if_true, Option.some.injEq, Prod.mk.injEq] at h
    obtain ⟨-, rfl⟩ := h
    refine ⟨hcount, hmain, hi.running, hcur ▸ hi.current, hi.savedMain, hi.savedTasks,
      fun hrun => ?_, fun hrun => ?_⟩
    · simpa [hin, htasks, hcur] using hi.mainRuns hrun
    · simpa [hin, htasks, hcur] using hi.taskRuns hrun
  | some next =>
    obtain ⟨-, -, -, -, hc, hpick⟩ := timerSwitch_some hsw
    obtain ⟨hlt, -, -, hnull⟩ := irqScan_some (Nat.pos_of_ne_zero hc) hpick
    rw [hcount] at hlt
    rcases Nat.lt_or_ge m.sys.running n with hrun | hrun
    · obtain ⟨hin', hrc, hof, hwhich⟩ := hi.taskRuns hrun
      rw [← hin] at hin'
      rw [← hcur] at hrc
      have hrn : n ≠ m.sys.running := Nat.ne_of_gt hrun
      by_cases hm : next = n
      · subst hm
        obtain ⟨t, rfl, hout⟩ := schedulerOnTimerInterrupt_toMain hsw hin' hrc hmain frame
        simp only [hout, hnull, if_false, Machine.enter, Machine.suspend, Option.some.injEq,
          Prod.mk.injEq] at h
        obtain ⟨-, rfl⟩ := h
        refine ⟨hcount, hmain, Nat.le_refl _, ?_, ⟨hmainOf, hmainMid⟩, htaskOf,
          fun _ => ?_, fun h => absurd h (Nat.lt_irrefl _)⟩
        · rintro task ⟨⟩
          exact Nat.le_refl _
        · -- the main loop has a frame to go on from, so an interrupt suspended it
          have hint : (m.sys.last next).ofInterrupt = true :=
            hwhich.resolve_right (htasks ▸ hnull)
          simp only [Machine.entryPc, Function.update_of_ne hrn]
          cases hl : m.sys.last next with
          | cooperative esp => simp [hl, Suspension.ofInterrupt] at hint
          | interrupt f =>
            exact ⟨hi.savedMain.2.symm, by simp, hi.savedMain.1,
              by simp [Pc.target_eq_none hi.savedMain.2]⟩
      · have hlt' : next < n := by omega
        obtain ⟨t, ht, hout⟩ := schedulerOnTimerInterrupt_toTask hsw hin' hrc
          (fun h => hm (Option.some.inj (h.trans hmain))) frame
        have htask : t.tasks next = s.tasks next := by
          simp [ht, Sched.setIrqEsp, Sched.setTask, (timerSwitch_current hsw hin' hrc).1]
        simp only [hout, htask, hnull, if_false, Machine.enter, Machine.suspend] at h
        subst ht
        obtain ⟨-, rfl⟩ := by simpa using h
        refine ⟨hcount, hmain, Nat.le_of_lt hlt', ?_, ⟨hmainOf, hmainMid⟩, htaskOf,
          fun h => absurd h hm, fun _ => ⟨hin', rfl, ofTask_entryPc (htaskOf next hlt') .., ?_⟩⟩
        · rintro task ⟨⟩
          exact Nat.le_of_lt hlt'
        · simpa [Function.update_of_ne hrn, hrn, htasks] using hwhich
    · have hrun := Nat.le_antisymm hi.running hrun
      obtain ⟨hin', hirq, -⟩ := hi.mainRuns hrun
      rw [← hin, hq] at hin'
      obtain ⟨main, t, hm, ht, hout⟩ := schedulerOnTimerInterrupt_fromMain hsw hin' frame
      obtain rfl : n = main := Option.some.inj (hmain.symm.trans hm)
      have hne : next ≠ n := by
        rintro rfl
        exact hnull (htasks ▸ hirq)
      have hlt' : next < n := by omega
      have htask : t.tasks next = s.tasks next := by
        simp [ht, Sched.setIrqEsp, Sched.setTask, hne]
      simp only [hout, htask, hnull, if_false, Machine.enter, Machine.suspend] at h
      subst ht
      obtain ⟨-, rfl⟩ := by simpa using h
      refine ⟨hcount, hmain, Nat.le_of_lt hlt', ?_, ⟨hmainOf, hmainMid⟩, htaskOf,
        fun h => absurd h hne, fun _ => ⟨rfl, rfl, ofTask_entryPc (htaskOf next hlt') .., ?_⟩⟩
      · rintro task ⟨⟩
        exact Nat.le_of_lt hlt'
      · simp [hrun, Suspension.ofInterrupt]

theorem NamedInv.update (hi : NamedInv n m) {f : Sched → Sched}
    (hf : ∃ preemptive switch, f m.sys.sched = { m.sys.sched with
      preemptiveEnabled := preemptive, mainSwitchEnabled := switch })
    (hpc : m.pc = .code) (h : m.update f .code = some (r, m')) : NamedInv n m' := by
  obtain ⟨preemptive, switch, hf⟩ := hf
  simp only [Machine.update, hf, Option.some.injEq, Prod.mk.injEq] at h
  obtain ⟨-, rfl⟩ := h
  refine ⟨hi.taskCount, hi.mainTaskId, hi.running, hi.current, hi.savedMain, hi.savedTasks,
    fun hrun => ?_, fun hrun => ?_⟩
  · simpa [hpc] using hi.mainRuns hrun
  · simpa [hpc] using hi.taskRuns hrun

theorem Event.run_spec (hi : NamedInv n m) (e : Event) (hq : e.Quiet m)
    (h : e.run m = some (r, m')) : NamedInv n m' := by
  cases e with
  | timer offset => exact hi.timer (hq.1 rfl) h
  | stmt offset =>
    rcases Nat.lt_or_ge m.sys.running n with hrun | hrun
    · exact hi.stmt_task hrun h fun r' hr => hq.2 r' m' (hr ▸ h)
    · exact hi.stmt_main (Nat.le_antisymm hi.running hrun) h
  | call =>
    simp only [Event.run, Machine.call] at h
    split_ifs at h with hpc hmain
    · simp only [Machine.goto, Option.some.injEq, Prod.mk.injEq] at h
      obtain ⟨-, rfl⟩ := h
      refine hi.goto_main (Option.some.inj (hmain.symm.trans hi.mainTaskId)) trivial ?_ rfl
      rw [hpc]
      rfl
    · simp only [Machine.goto, Option.some.injEq, Prod.mk.injEq] at h
      obtain ⟨-, rfl⟩ := h
      have hne : m.sys.running ≠ n := fun hrun => hmain (hrun ▸ hi.mainTaskId)
      exact hi.goto_task (Nat.lt_of_le_of_ne hi.running hne) trivial
  | setPreemptiveEnabled enabled =>
    simp only [Event.run] at h
    split_ifs at h with hpc
    exact hi.update ⟨_, _, rfl⟩ hpc h
  | setMainSwitchEnabled enabled =>
    simp only [Event.run] at h
    split_ifs at h with hpc
    exact hi.update ⟨_, _, rfl⟩ hpc h

theorem NamedInv.named (hi : NamedInv n m) {e : Event} (hq : e.Quiet m) : e.Named m := by
  intro ht
  exact ⟨hi.names (hq.1 ht), hi.storesOwn (hq.1 ht)⟩

theorem namedInv_boot {kernelTasks : Nat} (h : kernelTasks < schedMaxTasks) (ticks : Nat) :
    NamedInv kernelTasks (Machine.boot kernelTasks ticks) := by
  have hi := inv_boot h ticks
  refine ⟨hi.taskCount, hi.mainTaskId, hi.running, fun task ht => ?_, ⟨trivial, rfl⟩,
    fun _ _ => trivial, fun hrun => ?_, fun hrun => absurd hrun (Nat.lt_irrefl _)⟩
  · rw [boot_current h ticks task ht]
    exact Nat.zero_le _
  · exact ⟨(hi.mainRuns hrun).1, (hi.mainRuns hrun).2.1, trivial, by simp [Machine.boot, Pc.target]⟩

/-- In a run in which no interrupt finds the main loop in the middle of its switch, and no context
is resumed from a stale pointer, every timer interrupt finds the bookkeeping naming the context it
interrupts. -/
theorem named_run {kernelTasks : Nat} (h : kernelTasks < schedMaxTasks) (ticks : Nat)
    (es : List Event) (hq : Along Event.run Event.Quiet es (Machine.boot kernelTasks ticks)) :
    Along Event.run Event.Named es (Machine.boot kernelTasks ticks) :=
  Along.of_inv Event.run
    (fun e _ _ _ (hi : NamedInv kernelTasks _) hq hr => Event.run_spec hi e hq hr)
    (fun _ _ hi hq => hi.named hq) es _ (namedInv_boot h ticks) hq

/-- An interrupt in the middle of a poll takes the main loop off, and it comes back to the poll. -/
theorem named_run_quiet : 3 < schedMaxTasks ∧ Along Event.run Event.Named
    ([.setPreemptiveEnabled 1, .setMainSwitchEnabled 1] ++ List.replicate 9 (.timer 0) ++
      [.call, .stmt 0, .stmt 0, .timer 4, .stmt 0, .timer 8, .call, .stmt 0, .timer 4, .stmt 0,
        .stmt 12, .stmt 0, .timer 0]) (Machine.boot 3 0) :=
  ⟨by decide, named_run (by decide) 0 _ (by decide)⟩

/-- The interrupt comes after `in_task = 1`, on the main loop's stack. -/
theorem interrupts_poll : ¬∀ kernelTasks < schedMaxTasks, ∀ (ticks : Nat) (es : List Event),
    Along Event.run Event.Named es (Machine.boot kernelTasks ticks) := fun h =>
  absurd ((h 2 (by decide) 0 ([.setPreemptiveEnabled 1] ++ List.replicate 19 (.timer 0) ++
    [.call] ++ List.replicate 6 (.stmt 0) ++ [.timer 4])).mono Event.run
      fun e m he ht => (he ht).1) (by decide)

end Named

end MinervaOS.Scheduler
