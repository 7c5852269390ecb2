import Mathlib.Logic.Function.Iterate
import MinervaOS.Scheduler.Contexts

/-!
# Resumptions

Each operation of the scheduler is taken whole: a timer interrupt, a poll from the main loop up to
the switch, a yield from a task with what the main loop does as it comes back. A run is any list of
them. Which pointer a resumption loads is current is an invariant of every run, and from it follows
exactly which picks of a poll or of a timer interrupt resume a context from a stale pointer.
-/

namespace MinervaOS.Scheduler

open Prog

inductive Op where
  | timer (offset : Nat)
  | poll (offset : Nat)
  | yield (offset : Nat)
  | setPreemptiveEnabled (enabled : Int)
  | setMainSwitchEnabled (enabled : Int)

/-- The address `offset` of the stack that the running context is on. -/
def Sys.stack (s : Sys) (offset : Nat) : Addr :=
  if some s.running = s.sched.mainTaskId then .mainStack offset else .taskStack s.running offset

/-- The running context is suspended as `how` says, and `r` resumes another. -/
def Sys.switch (s : Sys) (sched : Sched) (how : Suspension) (r : Resume) : Sys :=
  ⟨sched, r.target, Function.update s.last s.running how⟩

/-- The scheduler after `scheduler_tick`. -/
def Sys.tick (s : Sys) : Sys := { s with sched := schedulerTick s.sched }

/-- The way out of an interrupt, through the frame `esp` if the scheduler returned one. -/
def leaveInterrupt (frame esp : Addr) (sched : Sched) : Prog Sys (Option Resume) := do
  let s ← get
  if esp = .null then
    set { s with sched := sched }
    return none
  else
    match sched.currentTask with
    | none => fun _ => none
    | some next =>
      let r : Resume := ⟨.irq, next, esp⟩
      set (s.switch sched (.interrupt frame) r)
      return some r

/-- `scheduler_tick` and `scheduler_on_timer_interrupt`. -/
def timerInterrupt (offset : Nat) : Prog Sys (Option Resume) := do
  modify Sys.tick
  let s ← get
  let frame := s.stack offset
  let out := schedulerOnTimerInterrupt s.sched frame
  leaveInterrupt frame out.1 out.2

/-- `scheduler_poll` up to its switch, by the main loop. -/
def schedulerPoll (offset : Nat) : Prog Sys (Option Resume) := do
  let s ← get
  if s.sched.mainTaskId ≠ some s.running then fun _ => none
  else if !s.sched.switchPending || s.sched.taskCount = 0 then return none
  else
    let sched := { s.sched with switchPending := false }
    match pollScan sched sched.taskCount sched.currentTask with
    | none =>
      set { s with sched := sched }
      return none
    | some next =>
      -- the pointer to load is an argument of the switch, which then stores the main loop's
      let esp := s.stack offset
      let sched := { sched with currentTask := some next, inTask := true }
      let r : Resume := ⟨.cooperative, next, (sched.tasks next).context.esp⟩
      set (s.switch (sched.setEsp s.running esp) (.cooperative esp) r)
      return some r

/-- `scheduler_yield` by a task, and the end of `scheduler_poll` that a cooperative switch comes
back to in the main loop. -/
def schedulerYield (offset : Nat) : Prog Sys (Option Resume) := do
  let s ← get
  if s.sched.mainTaskId = some s.running then fun _ => none
  else if !s.sched.inTask then return none
  else
    match s.sched.currentTask, s.sched.mainTaskId with
    | none, _ => return none
    | some _, none => return none
    | some current, some main =>
      let esp := s.stack offset
      let resumeIrqEsp := (s.sched.tasks current).context.resumeIrqEsp
      if s.sched.mainPaused then
        let out := yieldToPausedMain s.sched current main
        let sched := updateResumeFrame (out.2.setEsp current esp) resumeIrqEsp esp
        let r : Resume := ⟨.irq, main, out.1⟩
        set (s.switch sched (.cooperative esp) r)
        return some r
      else
        let r : Resume := ⟨.cooperative, main, (s.sched.tasks main).context.esp⟩
        let sched := updateResumeFrame (s.sched.setEsp current esp) resumeIrqEsp esp
        set (s.switch { sched with inTask := false } (.cooperative esp) r)
        return some r

def setFlag (f : Sched → Sched) : Prog Sys (Option Resume) := do
  modify fun s => { s with sched := f s.sched }
  return none

/-- An operation, and the context it resumes. It has no outcome in a context that does not call
it. -/
def Op.run : Op → Prog Sys (Option Resume)
  | .timer offset => timerInterrupt offset
  | .poll offset => schedulerPoll offset
  | .yield offset => schedulerYield offset
  | .setPreemptiveEnabled enabled => setFlag (schedulerSetPreemptiveEnabled · enabled)
  | .setMainSwitchEnabled enabled => setFlag (schedulerSetMainSwitchEnabled · enabled)

/-! ## The start -/

/-- `kernel_main`: `kernelTasks` tasks are created, `ticks` timer interrupts come on the boot stack,
and the main loop is registered. -/
def bootSched (kernelTasks ticks : Nat) : Sched :=
  let create s := (schedulerCreateKernelTask s true true).2
  let tick s := (schedulerOnTimerInterrupt (schedulerTick s) (.bootStack 0)).2
  (schedulerRegisterMainTask (tick^[ticks] (create^[kernelTasks] schedulerInit)) true).2

/-- The main loop runs, and the tasks wait in their initial frames. -/
def boot (kernelTasks ticks : Nat) : Sys :=
  ⟨bootSched kernelTasks ticks, kernelTasks, fun id => .cooperative (makeInitialEsp id)⟩

/-! ## Which pointers are current -/

section Current

variable {n : Nat} {s s' : Sys} {r : Option Resume} {op : Op}

/-- What the scheduler holds of a task that waits. -/
def TaskWaits (s : Sys) (id : Nat) : Prop :=
  match s.last id with
  | .cooperative esp =>
    (s.sched.tasks id).context.esp = esp ∧ s.sched.frameEax (resumeFrame id) = esp
  | .interrupt frame => (s.sched.tasks id).context.irqEsp = frame

/-- What the scheduler holds of the main loop while it waits. -/
def MainWaits (s : Sys) (id : Nat) : Prop :=
  match s.last id with
  | .cooperative esp => (s.sched.tasks id).context.esp = esp ∧
    (s.sched.tasks id).context.irqEsp = .null ∧ s.sched.mainPausedViaIrq = false
  | .interrupt frame => (s.sched.tasks id).context.irqEsp = frame ∧ frame ≠ .null ∧
    s.sched.mainPausedViaIrq = true

/-- Tasks `0` to `n - 1` and the main loop as task `n`, with the pointers of those that wait. -/
structure Inv (n : Nat) (s : Sys) : Prop where
  taskCount : s.sched.taskCount = n + 1
  mainTaskId : s.sched.mainTaskId = some n
  entry : (s.sched.tasks n).entry = false
  resumeIrqEsp : ∀ id < n, (s.sched.tasks id).context.resumeIrqEsp = resumeFrame id
  running : s.running ≤ n
  mainRuns : s.running = n → s.sched.inTask = false ∧
    (s.sched.tasks n).context.irqEsp = .null ∧ s.sched.mainPausedViaIrq = false
  taskRuns : s.running < n → s.sched.inTask = true ∧ s.sched.currentTask = some s.running ∧
    MainWaits s n
  waits : ∀ id < n, id ≠ s.running → TaskWaits s id

/-- The condition under which the resumption of an operation is fresh: `scheduler_poll` picks no
task that an interrupt suspended, and a timer interrupt picks a task that yielded only if its
`irq_esp` is its synthetic frame. -/
def Op.Orderly (op : Op) (s : Sys) : Prop :=
  match op with
  | .timer _ => ∀ next ∈ timerSwitch s.tick.sched, (s.last next).ofInterrupt = true ∨
    (s.tick.sched.tasks next).context.irqEsp = (s.tick.sched.tasks next).context.resumeIrqEsp
  | .poll _ => s.sched.mainTaskId = some s.running → s.sched.switchPending = true →
    ∀ next ∈ pollScan s.sched s.sched.taskCount s.sched.currentTask,
      (s.last next).ofInterrupt = false
  | _ => True

instance (op : Op) (s : Sys) : Decidable (op.Orderly s) :=
  match op with
  | .timer _ => inferInstanceAs (Decidable (∀ next ∈ timerSwitch s.tick.sched, _ ∨ _))
  | .poll _ => inferInstanceAs (Decidable (_ → _ → ∀ next ∈ pollScan .., _))
  | .yield _ => isTrue trivial
  | .setPreemptiveEnabled _ => isTrue trivial
  | .setMainSwitchEnabled _ => isTrue trivial

theorem stack_ne_null (s : Sys) (offset : Nat) : s.stack offset ≠ .null := by
  unfold Sys.stack
  split <;> simp

theorem TaskWaits.keep {id : Nat} (h : TaskWaits s id) (hlast : s'.last id = s.last id)
    (hesp : (s'.sched.tasks id).context.esp = (s.sched.tasks id).context.esp)
    (hirq : (s'.sched.tasks id).context.irqEsp = (s.sched.tasks id).context.irqEsp)
    (heax : s'.sched.frameEax (resumeFrame id) = s.sched.frameEax (resumeFrame id)) :
    TaskWaits s' id := by
  unfold TaskWaits at h ⊢
  rwa [hlast, hesp, hirq, heax]

theorem MainWaits.keep {id : Nat} (h : MainWaits s id) (hlast : s'.last id = s.last id)
    (hesp : (s'.sched.tasks id).context.esp = (s.sched.tasks id).context.esp)
    (hirq : (s'.sched.tasks id).context.irqEsp = (s.sched.tasks id).context.irqEsp)
    (hpaused : s'.sched.mainPausedViaIrq = s.sched.mainPausedViaIrq) : MainWaits s' id := by
  unfold MainWaits at h ⊢
  rwa [hlast, hesp, hirq, hpaused]

/-- A switch keeps the invariant if it records the suspension of the context it leaves, accounts
for the one it enters, and leaves the others alone. -/
theorem Inv.switch (hi : Inv n s) {t : Sched} {how : Suspension} {r : Resume}
    (hcount : t.taskCount = s.sched.taskCount) (hmain : t.mainTaskId = s.sched.mainTaskId)
    (hentry : (t.tasks n).entry = (s.sched.tasks n).entry)
    (hresume : ∀ id < n,
      (t.tasks id).context.resumeIrqEsp = (s.sched.tasks id).context.resumeIrqEsp)
    (htarget : r.target ≤ n)
    (hmainRuns : r.target = n → t.inTask = false ∧ (t.tasks n).context.irqEsp = .null ∧
      t.mainPausedViaIrq = false)
    (htaskRuns : r.target < n → t.inTask = true ∧ t.currentTask = some r.target ∧
      MainWaits (s.switch t how r) n)
    (hself : s.running < n → TaskWaits (s.switch t how r) s.running)
    (hothers : ∀ id < n, id ≠ s.running →
      (t.tasks id).context.esp = (s.sched.tasks id).context.esp ∧
      (t.tasks id).context.irqEsp = (s.sched.tasks id).context.irqEsp ∧
      t.frameEax (resumeFrame id) = s.sched.frameEax (resumeFrame id)) :
    Inv n (s.switch t how r) where
  taskCount := hcount.trans hi.taskCount
  mainTaskId := hmain.trans hi.mainTaskId
  entry := hentry.trans hi.entry
  resumeIrqEsp id hid := (hresume id hid).trans (hi.resumeIrqEsp id hid)
  running := htarget
  mainRuns := hmainRuns
  taskRuns := htaskRuns
  waits id hid hne := by
    by_cases hself' : id = s.running
    · subst hself'
      exact hself hid
    · obtain ⟨hesp, hirq, heax⟩ := hothers id hid hself'
      exact (hi.waits id hid hself').keep (Function.update_of_ne hself' ..) hesp hirq heax

theorem Inv.fresh_irq (hi : Inv n s) {id : Nat} {last : Nat → Suspension} {sched : Sched}
    (hid : id < n) (hw : TaskWaits s id) (hnull : (s.sched.tasks id).context.irqEsp ≠ .null)
    (hlast : last id = s.last id) (htask : sched.tasks id = s.sched.tasks id)
    (heax : sched.frameEax = s.sched.frameEax) :
    (⟨.irq, id, (sched.tasks id).context.irqEsp⟩ : Resume).Fresh ⟨sched, id, last⟩ ↔
      (s.last id).ofInterrupt = true ∨
        (s.sched.tasks id).context.irqEsp = (s.sched.tasks id).context.resumeIrqEsp := by
  unfold TaskWaits at hw
  simp only [Resume.Fresh, hlast]
  cases hl : s.last id with
  | cooperative esp =>
    simp only [hl] at hw
    have hr := hi.resumeIrqEsp id hid
    simp only [Sched.LeadsTo, htask, heax, hr, Suspension.ofInterrupt, Bool.false_eq_true, false_or]
    constructor
    · exact fun h => h.2.1
    · exact fun h => ⟨hnull, h, h ▸ hw.2⟩
  | interrupt frame =>
    simp only [hl] at hw
    simp [htask, hw, Suspension.ofInterrupt]

theorem Inv.tick (hi : Inv n s) : Inv n s.tick := by
  obtain ⟨ticks, pending, ready, ht⟩ := schedulerTick_eq s.sched
  unfold Sys.tick
  rw [ht]
  exact ⟨hi.taskCount, hi.mainTaskId, hi.entry, hi.resumeIrqEsp, hi.running, hi.mainRuns,
    hi.taskRuns, hi.waits⟩

theorem total_leaveInterrupt {frame esp : Addr} {sched : Sched} {next : Nat}
    {Q : Option Resume → Sys → Prop} (hesp : esp ≠ .null) (hcur : sched.currentTask = some next)
    (hQ : Q (some ⟨.irq, next, esp⟩) (s.switch sched (.interrupt frame) ⟨.irq, next, esp⟩)) :
    Total (leaveInterrupt frame esp sched) s Q := by
  refine (total_bind ..).2
    ((total_get ..).2 ((total_ite ..).2 ⟨fun h => absurd h hesp, fun _ => ?_⟩))
  rw [hcur]
  exact (total_bind ..).2 ((total_set ..).2 ((total_pure ..).2 hQ))

/-- A timer interrupt keeps the invariant, and what it resumes is fresh exactly if its pick is
orderly. -/
theorem timerInterrupt_spec (hi : Inv n s) (offset : Nat) :
    Total (timerInterrupt offset) s fun r s' =>
      Inv n s' ∧ ((∀ r', r = some r' → r'.Fresh s') ↔ (Op.timer offset).Orderly s) := by
  refine (total_bind ..).2 ((total_modify ..).2 ((total_bind ..).2 ((total_get ..).2 ?_)))
  have hlast : s.last = s.tick.last := rfl
  simp only [Op.Orderly, hlast]
  replace hi := hi.tick
  generalize s.tick = s at hi
  have hframe := stack_ne_null s offset
  generalize s.stack offset = frame at hframe
  cases hsw : timerSwitch s.sched with
  | none =>
    obtain ⟨ready, hout⟩ := schedulerOnTimerInterrupt_stay hsw frame
    rw [hout]
    refine (total_bind ..).2
      ((total_get ..).2 ((total_ite ..).2 ⟨fun _ => ?_, fun h => absurd rfl h⟩))
    refine (total_bind ..).2 ((total_set ..).2 ((total_pure ..).2 ⟨?_, by simp⟩))
    exact ⟨hi.taskCount, hi.mainTaskId, hi.entry, hi.resumeIrqEsp, hi.running, hi.mainRuns,
      hi.taskRuns, hi.waits⟩
  | some next =>
    obtain ⟨-, -, -, -, hc, hpick⟩ := timerSwitch_some hsw
    obtain ⟨hlt, hcur, -, hnull⟩ := irqScan_some (Nat.pos_of_ne_zero hc) hpick
    rw [hi.taskCount] at hlt
    simp only [Option.mem_def, Option.some.injEq, forall_eq']
    rcases Nat.lt_or_ge s.running n with hrun | hrun
    · obtain ⟨hin, hrc, hmain⟩ := hi.taskRuns hrun
      have hne := (timerSwitch_current hsw hin hrc).1
      have hrn : s.running ≠ n := Nat.ne_of_lt hrun
      by_cases hm : next = n
      · subst hm
        obtain ⟨t, ht, hout⟩ := schedulerOnTimerInterrupt_toMain hsw hin hrc hi.mainTaskId frame
        rw [hout]
        refine total_leaveInterrupt hnull (by rw [ht]) ⟨?_, ?_⟩
        · subst ht
          refine hi.switch rfl rfl (by simp) (by simp) (Nat.le_refl _) (by simp)
            (fun h => absurd h (Nat.lt_irrefl _)) (fun _ => ?_) fun id hid hne => ?_
          · simp [TaskWaits, Sys.switch, hrn]
          · simp [hne, Nat.ne_of_lt hid, Sched.setIrqEsp, Sched.setTask]
        · -- the main loop waits in the frame that the switch loads
          unfold MainWaits at hmain
          cases hl : s.last next with
          | cooperative esp =>
            simp only [hl] at hmain
            exact absurd hmain.2.1 hnull
          | interrupt f =>
            simp only [hl] at hmain
            simp [Resume.Fresh, Sys.switch, hne, hl, hmain.1, Suspension.ofInterrupt]
      · obtain ⟨t, ht, hout⟩ := schedulerOnTimerInterrupt_toTask hsw hin hrc
          (fun h => hm (Option.some.inj (h.trans hi.mainTaskId))) frame
        have hlt' : next < n := by omega
        rw [hout]
        have htask : t.tasks next = s.sched.tasks next := by
          simp [ht, Sched.setIrqEsp, Sched.setTask, hne]
        refine total_leaveInterrupt (by rwa [htask]) (by rw [ht]) ⟨?_, ?_⟩
        · subst ht
          refine hi.switch rfl rfl (by simp) (by simp) (Nat.le_of_lt hlt')
            (fun h => absurd h hm) (fun _ => ⟨hin, rfl, ?_⟩) (fun _ => ?_) fun id hid hne => ?_
          · exact hmain.keep (Function.update_of_ne hrn.symm ..) (by simp [Sys.switch])
              (by simp [Sys.switch, hrn.symm]) rfl
          · simp [TaskWaits, Sys.switch]
          · simp [hne, Sched.setIrqEsp, Sched.setTask]
        · simp only [Option.some.injEq, forall_eq']
          exact hi.fresh_irq hlt' (hi.waits next hlt' hne) hnull (Function.update_of_ne hne ..)
            htask (by rw [ht]; rfl)
    · obtain hrun : s.running = n := Nat.le_antisymm hi.running hrun
      obtain ⟨hin, hmain, hpaused⟩ := hi.mainRuns hrun
      obtain ⟨main, t, hm, ht, hout⟩ := schedulerOnTimerInterrupt_fromMain hsw hin frame
      obtain rfl : n = main := Option.some.inj (hi.mainTaskId.symm.trans hm)
      have hne : next ≠ n := by
        rintro rfl
        exact hnull hmain
      have hlt' : next < n := by omega
      have htask : t.tasks next = s.sched.tasks next := by
        simp [ht, Sched.setIrqEsp, Sched.setTask, hne]
      rw [hout]
      refine total_leaveInterrupt (by rwa [htask]) (by rw [ht]) ⟨?_, ?_⟩
      · subst ht
        refine hi.switch rfl rfl (by simp) (by simp) (Nat.le_of_lt hlt')
          (fun h => absurd h hne) (fun _ => ⟨rfl, rfl, ?_⟩) (fun h => absurd hrun (Nat.ne_of_lt h))
          fun id hid _ => ?_
        · simp [MainWaits, Sys.switch, hrun, hframe]
        · simp [Nat.ne_of_lt hid, Sched.setIrqEsp, Sched.setTask]
      · simp only [Option.some.injEq, forall_eq']
        exact hi.fresh_irq hlt' (hi.waits next hlt' (hrun ▸ hne)) hnull
          (Function.update_of_ne (hrun ▸ hne) ..) htask (by rw [ht]; rfl)

/-- A poll by the main loop. -/
theorem schedulerPoll_spec (hi : Inv n s) (hrun : s.running = n) (offset : Nat) :
    Total (schedulerPoll offset) s fun r s' =>
      Inv n s' ∧ ((∀ r', r = some r' → r'.Fresh s') ↔ (Op.poll offset).Orderly s) := by
  have hmainId : s.sched.mainTaskId = some s.running := hrun ▸ hi.mainTaskId
  simp only [Op.Orderly, hmainId, forall_const]
  refine (total_bind ..).2
    ((total_get ..).2 ((total_ite ..).2 ⟨fun h => absurd hmainId h, fun _ => ?_⟩))
  refine (total_ite ..).2 ⟨fun h => (total_pure ..).2 ⟨hi, ?_⟩, fun h => ?_⟩
  · simp only [Bool.or_eq_true, Bool.not_eq_true', decide_eq_true_eq, hi.taskCount,
      Nat.add_one_ne_zero, or_false] at h
    simp [h]
  · simp only [Bool.or_eq_true, Bool.not_eq_true', decide_eq_true_eq, not_or,
      Bool.not_eq_false] at h
    obtain ⟨hpending, hc⟩ := h
    simp only [hpending, forall_const, pollScan_switchPending]
    cases hp : pollScan s.sched s.sched.taskCount s.sched.currentTask with
    | none =>
      refine (total_bind ..).2 ((total_set ..).2 ((total_pure ..).2 ⟨?_, by simp⟩))
      exact ⟨hi.taskCount, hi.mainTaskId, hi.entry, hi.resumeIrqEsp, hi.running, hi.mainRuns,
        hi.taskRuns, hi.waits⟩
    | some next =>
      obtain ⟨hlt, -, hentry⟩ := pollScan_some (Nat.pos_of_ne_zero hc) hp
      have hne : next ≠ n := by
        rintro rfl
        simp [hi.entry] at hentry
      have hlt' : next < n := by
        rw [hi.taskCount] at hlt
        omega
      obtain ⟨-, hmain, hpaused⟩ := hi.mainRuns hrun
      refine (total_bind ..).2 ((total_set ..).2 ((total_pure ..).2 ⟨?_, ?_⟩))
      · refine hi.switch rfl rfl (by simp) (by simp) (Nat.le_of_lt hlt') (fun h => absurd h hne)
          (fun _ => ⟨rfl, rfl, ?_⟩) (fun h => absurd hrun (Nat.ne_of_lt h)) fun id hid hid' => ?_
        · simp [MainWaits, Sys.switch, hrun, hmain, hpaused]
        · simp [hid']
      · have hw := hi.waits next hlt' (hrun ▸ hne)
        unfold TaskWaits at hw
        simp only [Option.some.injEq, forall_eq', Resume.Fresh, Sys.switch,
          Function.update_of_ne (hrun ▸ hne : next ≠ s.running)]
        cases hl : s.last next with
        | cooperative esp =>
          simp only [hl] at hw
          simp [hw.1, hl, Suspension.ofInterrupt]
        | interrupt frame => simp [hl, Suspension.ofInterrupt]

/-- A yield by a task, which resumes the main loop where it waits. -/
theorem schedulerYield_spec (hi : Inv n s) (hrun : s.running < n) (offset : Nat) :
    Total (schedulerYield offset) s fun r s' => Inv n s' ∧ ∀ r', r = some r' → r'.Fresh s' := by
  obtain ⟨hin, hcur, hmain⟩ := hi.taskRuns hrun
  have hrn : s.running ≠ n := Nat.ne_of_lt hrun
  have hres := hi.resumeIrqEsp s.running hrun
  refine (total_bind ..).2 ((total_get ..).2 ((total_ite ..).2 ⟨fun h => ?_, fun _ => ?_⟩))
  · exact absurd (Option.some.inj (h.symm.trans hi.mainTaskId)) hrn
  refine (total_ite ..).2 ⟨fun h => by simp [hin] at h, fun _ => ?_⟩
  rw [hcur, hi.mainTaskId]
  simp only [hres, updateResumeFrame_resumeFrame]
  refine (total_ite ..).2 ⟨fun hp => ?_, fun hp => ?_⟩
  · simp only [Sched.mainPaused, hi.mainTaskId, Option.any_some, Bool.and_eq_true,
      bne_iff_ne] at hp
    refine (total_bind ..).2 ((total_set ..).2 ((total_pure ..).2 ⟨?_, ?_⟩))
    · refine hi.switch rfl rfl (by simp [yieldToPausedMain]) (by simp [yieldToPausedMain])
        (Nat.le_refl _) (fun _ => ?_) (fun h => absurd h (Nat.lt_irrefl _)) (fun _ => ?_)
        fun id hid hid' => ?_
      · exact ⟨rfl, by simp [yieldToPausedMain], rfl⟩
      · simp [TaskWaits, Sys.switch]
      · simp [yieldToPausedMain, hid', Nat.ne_of_lt hid, resumeFrame_inj]
    · unfold MainWaits at hmain
      cases hl : s.last n with
      | cooperative esp =>
        simp only [hl] at hmain
        exact absurd hmain.2.1 hp.2
      | interrupt f =>
        simp only [hl] at hmain
        simp [Resume.Fresh, Sys.switch, hrn.symm, hl, hmain.1, yieldToPausedMain]
  · have hcoop : ∃ esp, s.last n = .cooperative esp ∧ (s.sched.tasks n).context.esp = esp ∧
        (s.sched.tasks n).context.irqEsp = .null ∧ s.sched.mainPausedViaIrq = false := by
      unfold MainWaits at hmain
      cases hl : s.last n with
      | cooperative esp =>
        simp only [hl] at hmain
        exact ⟨esp, rfl, hmain⟩
      | interrupt f =>
        simp only [hl] at hmain
        simp [Sched.mainPaused, hi.mainTaskId, hmain] at hp
    obtain ⟨esp, hl, hesp, hirq, hpaused⟩ := hcoop
    refine (total_bind ..).2 ((total_set ..).2 ((total_pure ..).2 ⟨?_, ?_⟩))
    · refine hi.switch rfl rfl (by simp) (by simp)
        (Nat.le_refl _) (fun _ => ?_) (fun h => absurd h (Nat.lt_irrefl _)) (fun _ => ?_)
        fun id hid hid' => ?_
      · exact ⟨rfl, by simp [hirq], hpaused⟩
      · simp [TaskWaits, Sys.switch]
      · simp [hid', resumeFrame_inj]
    · simp [Resume.Fresh, Sys.switch, hrn.symm, hl, hesp]

/-- Setting a flag keeps the invariant and resumes no context. -/
theorem setFlag_spec {f : Sched → Sched} (hi : Inv n { s with sched := f s.sched }) :
    Total (setFlag f) s fun r s' => Inv n s' ∧ ∀ r', r = some r' → r'.Fresh s' :=
  (total_bind ..).2 ((total_modify ..).2 ((total_pure ..).2 ⟨hi, fun _ h => by cases h⟩))

theorem schedulerPoll_task (h : s.sched.mainTaskId ≠ some s.running) (offset : Nat) :
    schedulerPoll offset s = none := by
  simp [schedulerPoll, h, bind, StateT.bind, get, getThe, MonadStateOf.get, StateT.get, pure]

theorem schedulerYield_main (h : s.sched.mainTaskId = some s.running) (offset : Nat) :
    schedulerYield offset s = none := by
  simp [schedulerYield, h, bind, StateT.bind, get, getThe, MonadStateOf.get, StateT.get, pure]

/-- Every operation keeps the invariant, and what it resumes is fresh exactly if it is orderly. -/
theorem Op.run_spec (hi : Inv n s) (op : Op) (h : op.run s = some (r, s')) :
    Inv n s' ∧ ((∀ r', r = some r' → r'.Fresh s') ↔ op.Orderly s) := by
  cases op with
  | timer offset => exact (timerInterrupt_spec hi offset).of_eq h
  | poll offset =>
    by_cases hrun : s.running = n
    · exact (schedulerPoll_spec hi hrun offset).of_eq h
    · rw [show (Op.poll offset).run s = none from schedulerPoll_task (fun hm => hrun
        (Option.some.inj (hm.symm.trans hi.mainTaskId))) offset] at h
      cases h
  | yield offset =>
    by_cases hrun : s.running = n
    · rw [show (Op.yield offset).run s = none from
        schedulerYield_main (hrun ▸ hi.mainTaskId) offset] at h
      cases h
    · obtain ⟨hi', hf⟩ :=
        (schedulerYield_spec hi (Nat.lt_of_le_of_ne hi.running hrun) offset).of_eq h
      exact ⟨hi', iff_of_true hf trivial⟩
  | setPreemptiveEnabled enabled =>
    have hi' : Inv n { s with sched := schedulerSetPreemptiveEnabled s.sched enabled } :=
      ⟨hi.taskCount, hi.mainTaskId, hi.entry, hi.resumeIrqEsp, hi.running, hi.mainRuns,
        hi.taskRuns, hi.waits⟩
    obtain ⟨hi'', hf⟩ := (setFlag_spec (f := (schedulerSetPreemptiveEnabled · enabled)) hi').of_eq h
    exact ⟨hi'', iff_of_true hf trivial⟩
  | setMainSwitchEnabled enabled =>
    have hi' : Inv n { s with sched := schedulerSetMainSwitchEnabled s.sched enabled } :=
      ⟨hi.taskCount, hi.mainTaskId, hi.entry, hi.resumeIrqEsp, hi.running, hi.mainRuns,
        hi.taskRuns, hi.waits⟩
    obtain ⟨hi'', hf⟩ := (setFlag_spec (f := (schedulerSetMainSwitchEnabled · enabled)) hi').of_eq h
    exact ⟨hi'', iff_of_true hf trivial⟩

/-! ## Booting -/

/-- `n` tasks have been created, and the main loop is not registered yet. -/
structure Created (n : Nat) (s : Sched) : Prop where
  taskCount : s.taskCount = n
  mainTaskId : s.mainTaskId = none
  inTask : s.inTask = false
  mainPausedViaIrq : s.mainPausedViaIrq = false
  current : ∀ id ∈ s.currentTask, id = 0
  contexts : ∀ id < n, (s.tasks id).context =
    ⟨makeInitialEsp id, resumeFrame id, resumeFrame id⟩ ∧
      s.frameEax (resumeFrame id) = makeInitialEsp id

variable {t : Sched}

theorem Created.create (h : Created n t) (hn : n < schedMaxTasks) :
    Created (n + 1) (schedulerCreateKernelTask t true true).2 := by
  have hroom : ¬t.taskCount ≥ schedMaxTasks := by rw [h.taskCount]; omega
  simp only [schedulerCreateKernelTask, Bool.not_true, Bool.false_or, hroom, decide_false,
    Bool.false_eq_true, if_false, makeResumeIrqEsp]
  refine ⟨by simp [Sched.setTask, Sched.setFrameEax, h.taskCount], h.mainTaskId, h.inTask,
    h.mainPausedViaIrq, ?_, fun id hid => ?_⟩
  · cases hcur : t.currentTask with
    | none => simp [Sched.setTask, Sched.setFrameEax, hcur]
    | some id => simpa [Sched.setTask, Sched.setFrameEax, hcur] using h.current id hcur
  by_cases hid' : id = n
  · subst hid'
    simp [Sched.setTask, Sched.setFrameEax, h.taskCount]
  · have hc := h.contexts id (by omega)
    simp [Sched.setTask, Sched.setFrameEax, h.taskCount, hid', resumeFrame_inj, hc]

theorem Created.tick (h : Created n t) (frame : Addr) :
    Created n (schedulerOnTimerInterrupt (schedulerTick t) frame).2 := by
  obtain ⟨ticks, pending, ready, ht⟩ := schedulerTick_eq t
  have hsw : timerSwitch (schedulerTick t) = none := by
    simp [timerSwitch, timerGate, ht, h.inTask, h.mainTaskId]
  obtain ⟨ready', hout⟩ := schedulerOnTimerInterrupt_stay hsw frame
  rw [hout, ht]
  exact ⟨h.taskCount, h.mainTaskId, h.inTask, h.mainPausedViaIrq, h.current, h.contexts⟩

theorem Created.register (h : Created n t) (hn : n < schedMaxTasks) :
    Inv n ⟨(schedulerRegisterMainTask t true).2, n, fun id =>
      .cooperative (makeInitialEsp id)⟩ := by
  have hroom : ¬t.taskCount ≥ schedMaxTasks := by rw [h.taskCount]; omega
  simp only [schedulerRegisterMainTask, Bool.not_true, Bool.false_or, hroom, decide_false,
    Bool.false_eq_true, if_false, h.mainTaskId, Option.isSome_none]
  refine ⟨by simp [Sched.setTask, h.taskCount], by simp [h.taskCount],
    by simp [Sched.setTask, h.taskCount], fun id hid => ?_, Nat.le_refl _,
    fun _ => ⟨h.inTask, by simp [Sched.setTask, h.taskCount], h.mainPausedViaIrq⟩,
    fun h => absurd h (Nat.lt_irrefl _), fun id hid _ => ?_⟩
  · simp [Sched.setTask, h.taskCount, Nat.ne_of_lt hid, (h.contexts id hid).1]
  · simpa [TaskWaits, Sched.setTask, h.taskCount, Nat.ne_of_lt hid, (h.contexts id hid).1] using
      (h.contexts id hid).2

theorem created_boot {kernelTasks : Nat} (h : kernelTasks < schedMaxTasks) (ticks : Nat) :
    Created kernelTasks
      ((fun s => (schedulerOnTimerInterrupt (schedulerTick s) (.bootStack 0)).2)^[ticks]
        ((fun s => (schedulerCreateKernelTask s true true).2)^[kernelTasks] schedulerInit)) := by
  have hcreate : ∀ n ≤ kernelTasks, Created n
      ((fun s => (schedulerCreateKernelTask s true true).2)^[n] schedulerInit) := by
    intro n
    induction n with
    | zero =>
      intro _
      exact ⟨rfl, rfl, rfl, rfl, (fun _ h => nomatch h), fun _ h => absurd h (Nat.not_lt_zero _)⟩
    | succ n ih =>
      intro hn
      rw [Function.iterate_succ_apply']
      exact (ih (Nat.le_of_succ_le hn)).create (by omega)
  induction ticks with
  | zero => exact hcreate kernelTasks (Nat.le_refl _)
  | succ ticks ih =>
    rw [Function.iterate_succ_apply']
    exact ih.tick _

theorem inv_boot {kernelTasks : Nat} (h : kernelTasks < schedMaxTasks) (ticks : Nat) :
    Inv kernelTasks (boot kernelTasks ticks) :=
  (created_boot h ticks).register h

theorem boot_current {kernelTasks : Nat} (h : kernelTasks < schedMaxTasks) (ticks : Nat) :
    ∀ id ∈ (bootSched kernelTasks ticks).currentTask, id = 0 := by
  have hc := created_boot h ticks
  have hroom : ¬kernelTasks ≥ schedMaxTasks := by omega
  simpa [bootSched, schedulerRegisterMainTask, hc.taskCount, hc.mainTaskId, hroom,
    Sched.setTask] using hc.current

/-! ## Runs -/

/-- The operation resumes no context from a stale pointer. -/
def Op.Fresh (op : Op) (s : Sys) : Prop := FreshAfter id (op.run s)

instance (op : Op) (s : Sys) : Decidable (op.Fresh s) :=
  inferInstanceAs (Decidable (FreshAfter id (op.run s)))

theorem Op.fresh_iff (hi : Inv n s) (op : Op) : op.Fresh s ↔ op.Orderly s := by
  cases hrun : op.run s with
  | some out =>
    rw [← (op.run_spec hi hrun).2]
    unfold Op.Fresh FreshAfter
    rw [hrun]
    constructor
    · rintro h r hr
      exact h r out.2 (by rw [← hr])
    · rintro h r s' ⟨⟩
      exact h r rfl
  | none =>
    have hfresh : op.Fresh s := fun r s' h => by rw [hrun] at h; cases h
    refine iff_of_true hfresh ?_
    cases op with
    | timer offset =>
      obtain ⟨r, s', h, -⟩ := timerInterrupt_spec hi offset
      cases hrun.symm.trans h
    | poll offset =>
      rintro hm
      obtain ⟨r, s', h, -⟩ :=
        schedulerPoll_spec hi (Option.some.inj (hm.symm.trans hi.mainTaskId)) offset
      cases hrun.symm.trans h
    | yield offset => trivial
    | setPreemptiveEnabled enabled => trivial
    | setMainSwitchEnabled enabled => trivial

/-- In a run from boot every resumption is fresh exactly if every operation is orderly. -/
theorem fresh_run {kernelTasks : Nat} (h : kernelTasks < schedMaxTasks) (ticks : Nat)
    (ops : List Op) : Along Op.run Op.Fresh ops (boot kernelTasks ticks) ↔
      Along Op.run Op.Orderly ops (boot kernelTasks ticks) :=
  along_congr Op.run (fun op _ _ _ hi hr => (op.run_spec hi hr).1)
    (fun op _ hi => op.fresh_iff hi) ops _ (inv_boot h ticks)

/-- A quantum of timer interrupts. -/
def quantum : List Op := List.replicate 10 (.timer 0)

/-- The main loop is preempted for a task, which yields back to it and is polled again. -/
theorem fresh_run_orderly : 3 < schedMaxTasks ∧ Along Op.run Op.Fresh
    ([.setPreemptiveEnabled 1, .setMainSwitchEnabled 1] ++ quantum ++ [.yield 8] ++ quantum ++
      [.yield 8, .setMainSwitchEnabled 0] ++ quantum ++ [.poll 4, .yield 12]) (boot 3 0) :=
  ⟨by decide, (fresh_run (by decide) 0 _).2 (by decide +kernel)⟩

/-- A preempted task is polled: the poll loads the stack pointer of its last yield. -/
theorem polls_preempted : ¬∀ kernelTasks < schedMaxTasks, ∀ (ticks : Nat) (ops : List Op),
    Along Op.run Op.Fresh ops (boot kernelTasks ticks) := fun h =>
  absurd (h 2 (by decide) 0 ([.setPreemptiveEnabled 1] ++ quantum ++ [.poll 4] ++ quantum ++
    [.yield 8] ++ quantum ++ [.poll 4])) (by decide +kernel)

end Current

end MinervaOS.Scheduler
