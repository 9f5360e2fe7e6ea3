import Matryoshka.RoundRobin
import Matryoshka.Task

/-!
# Runs of the scheduler

A run is any sequence of `task_create`, `task_create_user`, `task_exit` by
the current task, `task_request_reschedule` and `task_schedule_if_needed`,
each taken as one step. The creators find whatever heap and page tables
the rest of the kernel left them, so each creation brings its own; the
stack pointers the scheduler is handed are arbitrary too.

Every operation is a local change to the table followed by at most one
dispatch (`op_effect`), and both results are read off that: the invariant
of the table (`sched_state_machine`), and the laps of the round-robin
(`round_robin_lap`).
-/

namespace Matryoshka

/-! ## Operations -/

inductive TaskOp
  | create (h : Heap) (entry : BitVec 32) (name : Option String)
  | createUser (h : Heap) (v : Vmm) (entry : BitVec 32) (name : Option String)
  | exit (esp : Nat)
  | request
  | schedule (esp : Nat)

def TaskOp.run (taskExitAddr : BitVec 32) (s : Sched) : TaskOp → Sched
  | create h entry name => (taskCreate taskExitAddr s h entry name).2.1
  | createUser h v entry name => (taskCreateUser s h v entry name).2.1
  | exit esp => (taskExit s esp).2
  | request => taskRequestReschedule s
  | schedule esp => (taskScheduleIfNeeded s esp).2

def runOps (taskExitAddr : BitVec 32) (s : Sched) (ops : List TaskOp) : Sched :=
  ops.foldl (TaskOp.run taskExitAddr) s

/-- The task switched to between two states. -/
def switchTarget (s s' : Sched) : Option Nat :=
  if s'.current = s.current then none else some s'.current

/-- The targets of all switches of a run, in order. -/
def switches (taskExitAddr : BitVec 32) (s : Sched) : List TaskOp → List Nat
  | [] => []
  | op :: ops =>
      let s' := op.run taskExitAddr s
      (switchTarget s s').toList ++ switches taskExitAddr s' ops

/-! ## What an operation can do -/

/-- The table part of an operation, which keeps the current task. -/
inductive LocalEffect (s : Sched) : Sched → Prop
  | keep {s' : Sched} (htasks : s'.tasks = s.tasks) (hcount : s'.count = s.count)
      (hcurrent : s'.current = s.current) : LocalEffect s s'
  | create {s' : Sched} (t : Task) (hroom : s.count < MAX_TASKS) (hid : t.id = s.count)
      (hstate : t.state = .ready) (htasks : s'.tasks = Function.update s.tasks s.count t)
      (hcount : s'.count = s.count + 1) (hcurrent : s'.current = s.current) : LocalEffect s s'
  | terminate : LocalEffect s (markTerminated s)

/-- The scheduling part: the same task goes on, or the next ready one is entered. -/
inductive DispatchEffect (s : Sched) : Sched → Prop
  | stay {s' : Sched} (htasks : s'.tasks = s.tasks) (hcount : s'.count = s.count)
      (hcurrent : s'.current = s.current) : DispatchEffect s s'
  | switch {s' : Sched} (next esp : Nat)
      (hnext : RoundRobin.Next s.count s.current s.Runnable next)
      (htasks : s'.tasks = (switchIn (switchOut s esp) next).tasks)
      (hcount : s'.count = s.count) (hcurrent : s'.current = next) : DispatchEffect s s'

section Effects

variable (taskExitAddr : BitVec 32) {s : Sched}

/-- The scan with `n` iterations left after `k` fruitless ones. -/
theorem scanReady_spec (s : Sched) :
    ∀ {n k : Nat}, k + n = s.count → (∀ i, i < k → ¬s.Runnable ((s.current + 1 + i) % s.count)) →
      scanReady s n ((s.current + 1 + k) % s.count) = s.current ∨
        ∃ j, j < s.count ∧ scanReady s n ((s.current + 1 + k) % s.count) =
            (s.current + 1 + j) % s.count ∧
          s.Runnable ((s.current + 1 + j) % s.count) ∧
          ∀ i, i < j → ¬s.Runnable ((s.current + 1 + i) % s.count)
  | 0, _, _, _ => Or.inl rfl
  | n + 1, k, hk, hno => by
      rw [scanReady]
      by_cases hrun : s.Runnable ((s.current + 1 + k) % s.count)
      · rw [if_pos hrun]
        exact Or.inr ⟨k, by omega, rfl, hrun, hno⟩
      · rw [if_neg hrun, Nat.mod_add_mod, Nat.add_assoc]
        refine scanReady_spec s (by omega) fun i hi => ?_
        rcases Nat.lt_or_eq_of_le (Nat.lt_succ_iff.mp hi) with h | h
        · exact hno i h
        · rw [h]
          exact hrun

theorem findNextReady_spec (hc : s.current < s.count) :
    findNextReady s = s.current ∨
      RoundRobin.Next s.count s.current s.Runnable (findNextReady s) := by
  rcases scanReady_spec s (n := s.count) (k := 0) (by omega) (by omega) with
    h | ⟨j, hj, heq, hr, hno⟩
  · exact Or.inl h
  · refine Or.inr ?_
    rw [findNextReady]
    rw [Nat.add_zero] at heq
    rw [heq]
    exact RoundRobin.Next.of_scan hc hj hr (fun h => h.1 rfl) hno

/-- The flag plays no part in a switch. -/
theorem switch_tasks (flag : Bool) (esp next : Nat) :
    (switchIn (switchOut { s with needReschedule := flag } esp) next).tasks =
      (switchIn (switchOut s esp) next).tasks := by
  rw [switchIn_tasks, switchIn_tasks, switchOut_eq, switchOut_eq]
  rfl

/-- Either nothing but the flag changes, or the next ready task is entered with the
stack pointer in its slot. -/
theorem schedule_cases (hc : s.current < s.count) (esp : Nat) :
    (∃ flag, taskScheduleIfNeeded s esp = (esp, { s with needReschedule := flag })) ∨
      ∃ next, RoundRobin.Next s.count s.current s.Runnable next ∧
        taskScheduleIfNeeded s esp =
          ((s.tasks next).esp,
            switchIn (switchOut { s with needReschedule := false } esp) next) := by
  simp only [taskScheduleIfNeeded]
  split
  · exact Or.inl ⟨s.needReschedule, rfl⟩
  · split
    · exact Or.inl ⟨false, rfl⟩
    · rename_i hne
      rcases findNextReady_spec (s := { s with needReschedule := false }) hc with h | h
      · exact absurd h hne
      · refine Or.inr ⟨_, h, ?_⟩
        rw [switchIn_current, switched_next h.1.1]

theorem schedule_effect (hc : s.current < s.count) (esp : Nat) :
    DispatchEffect s (taskScheduleIfNeeded s esp).2 := by
  rcases schedule_cases hc esp with ⟨flag, heq⟩ | ⟨next, hnext, heq⟩
  · rw [heq]
    exact .stay rfl rfl rfl
  · rw [heq]
    refine .switch next esp hnext (switch_tasks ..) ?_ (switchIn_current ..)
    rw [switchIn_count, switchOut_count]

theorem create_effect (h : Heap) (entry : BitVec 32) (name : Option String) :
    LocalEffect s (taskCreate taskExitAddr s h entry name).2.1 := by
  rcases hr : taskCreate taskExitAddr s h entry name with ⟨id, s', h'⟩
  rcases taskCreate_cases hr with ⟨-, rfl⟩ | ⟨stack, h₁, hroom, -, rfl, -⟩
  · exact .keep rfl rfl rfl
  · exact .create _ hroom rfl rfl rfl rfl rfl

theorem createUser_effect (h : Heap) (v : Vmm) (entry : BitVec 32) (name : Option String) :
    LocalEffect s (taskCreateUser s h v entry name).2.1 := by
  rcases hr : taskCreateUser s h v entry name with ⟨id, s', h', v'⟩
  rcases taskCreateUser_cases hr with ⟨-, rfl⟩ | ⟨kstack, ustack, h₁, hroom, -, rfl, -⟩
  · exact .keep rfl rfl rfl
  · exact .create _ hroom rfl rfl rfl rfl rfl

theorem LocalEffect.current_eq {s' : Sched} (h : LocalEffect s s') : s'.current = s.current := by
  cases h with
  | keep _ _ hcurrent => exact hcurrent
  | create _ _ _ _ _ _ hcurrent => exact hcurrent
  | terminate => rfl

/-- Every operation is a local change followed by a dispatch. -/
theorem op_effect (hc : s.current < s.count) (op : TaskOp) :
    ∃ q, LocalEffect s q ∧ DispatchEffect q (op.run taskExitAddr s) := by
  cases op with
  | create h entry name => exact ⟨_, create_effect taskExitAddr h entry name, .stay rfl rfl rfl⟩
  | createUser h v entry name => exact ⟨_, createUser_effect h v entry name, .stay rfl rfl rfl⟩
  | exit esp =>
      refine ⟨markTerminated s, .terminate, ?_⟩
      have heff := schedule_effect (s := taskRequestReschedule (markTerminated s)) hc esp
      cases heff with
      | stay htasks hcount hcurrent => exact .stay htasks hcount hcurrent
      | switch next esp hnext htasks hcount hcurrent =>
          exact .switch next esp hnext (htasks.trans (switch_tasks ..)) hcount hcurrent
  | request => exact ⟨s, .keep rfl rfl rfl, .stay rfl rfl rfl⟩
  | schedule esp => exact ⟨s, .keep rfl rfl rfl, schedule_effect hc esp⟩

end Effects

/-! ## What stays in a slot -/

/-- The stacks of all tasks are where they were. -/
structure SameLayout (s s' : Sched) : Prop where
  count : s'.count = s.count
  slots : ∀ i, (s'.tasks i).stackBase = (s.tasks i).stackBase ∧
    (s'.tasks i).userStackBase = (s.tasks i).userStackBase ∧
    (s'.tasks i).kernelStackTop = (s.tasks i).kernelStackTop ∧
    (s'.tasks i).isUser = (s.tasks i).isUser

section Layout

variable {s : Sched} {next : Nat}

/-- A switch moves no stack. -/
theorem switched_layout (hn : next ≠ s.current) (esp : Nat) :
    SameLayout s (switchIn (switchOut s esp) next) := by
  refine ⟨by rw [switchIn_count, switchOut_count], fun i => ?_⟩
  by_cases hin : i = next
  · rw [hin, switched_next hn]
    exact ⟨rfl, rfl, rfl, rfl⟩
  · by_cases hic : i = s.current
    · rw [hic, switched_current hn]
      exact ⟨rfl, rfl, rfl, rfl⟩
    · rw [switched_of_ne hic hin]
      exact ⟨rfl, rfl, rfl, rfl⟩

theorem switched_layout_flag (hn : next ≠ s.current) (esp : Nat) :
    SameLayout s (switchIn (switchOut { s with needReschedule := false } esp) next) := by
  obtain ⟨h1, h2⟩ := switched_layout (s := { s with needReschedule := false }) hn esp
  exact ⟨h1, h2⟩

theorem schedule_layout (hc : s.current < s.count) (esp : Nat) :
    SameLayout s (taskScheduleIfNeeded s esp).2 := by
  rcases schedule_cases hc esp with ⟨flag, heq⟩ | ⟨next, hnext, heq⟩
  · rw [heq]
    exact ⟨rfl, fun _ => ⟨rfl, rfl, rfl, rfl⟩⟩
  · rw [heq]
    exact switched_layout_flag hnext.1.1 esp

theorem markTerminated_layout (s : Sched) : SameLayout s (markTerminated s) := by
  refine ⟨rfl, fun i => ?_⟩
  by_cases h : i = s.current
  · rw [h, markTerminated_self]
    exact ⟨rfl, rfl, rfl, rfl⟩
  · rw [markTerminated_of_ne h]
    exact ⟨rfl, rfl, rfl, rfl⟩

end Layout

/-! ## The state machine -/

structure SchedInv (s : Sched) : Prop where
  current_lt : s.current < s.count
  count_le : s.count ≤ MAX_TASKS
  ids : ∀ i, i < s.count → (s.tasks i).id = i
  others : ∀ i, i < s.count → i ≠ s.current → s.state i = .ready ∨ s.state i = .terminated
  current_state : s.state s.current = .running ∨ s.state s.current = .terminated
  fresh : ∀ i, s.count ≤ i → s.tasks i = zeroTask

section Inv

variable (taskExitAddr : BitVec 32) {s s' : Sched} {i : Nat}

theorem taskInit_inv (s : Sched) : SchedInv (taskInit s) := by
  refine ⟨Nat.one_pos, ?_, fun i hi => ?_, fun i hi hne => ?_, Or.inl rfl, fun i hi => ?_⟩
  · exact (by decide : 1 ≤ MAX_TASKS)
  · rw [Nat.lt_one_iff.mp hi]
    rfl
  · exact absurd (Nat.lt_one_iff.mp hi) hne
  · have hne : i ≠ 0 := Nat.ne_of_gt hi
    exact Function.update_of_ne hne _ (fun _ => zeroTask)

theorem local_inv (h : SchedInv s) (heff : LocalEffect s s') : SchedInv s' := by
  have hlt := h.current_lt
  cases heff with
  | keep htasks hcount hcurrent =>
      obtain ⟨h1, h2, h3, h4, h5, h6⟩ := h
      refine ⟨?_, ?_, ?_, ?_, ?_, ?_⟩ <;> simp only [Sched.state, htasks, hcount, hcurrent] <;>
        assumption
  | create t hroom hid hstate htasks hcount hcurrent =>
      have hold : ∀ i, i ≠ s.count → s'.tasks i = s.tasks i := fun i hi => by
        rw [htasks, Function.update_of_ne hi]
      have hnew : s'.tasks s.count = t := by rw [htasks, Function.update_self]
      refine ⟨by omega, by omega, fun i hi => ?_, fun i hi hne => ?_, ?_, fun i hi => ?_⟩
      · rcases Nat.lt_or_eq_of_le (Nat.le_of_lt_succ (hcount ▸ hi)) with h' | rfl
        · rw [hold i (by omega), h.ids i h']
        · rw [hnew, hid]
      · rcases Nat.lt_or_eq_of_le (Nat.le_of_lt_succ (hcount ▸ hi)) with h' | rfl
        · rw [Sched.state, hold i (by omega)]
          exact h.others i h' (hcurrent ▸ hne)
        · rw [Sched.state, hnew]
          exact Or.inl hstate
      · rw [Sched.state, hcurrent, hold _ (by omega)]
        exact h.current_state
      · rw [hold i (by omega), h.fresh i (by omega)]
  | terminate =>
      refine ⟨hlt, h.count_le, fun i hi => ?_, fun i hi hne => ?_, ?_, fun i hi => ?_⟩
      · by_cases hic : i = s.current
        · rw [hic, markTerminated_self]
          exact h.ids _ hlt
        · rw [markTerminated_of_ne hic, h.ids i hi]
      · have hic : i ≠ s.current := hne
        rw [Sched.state, markTerminated_of_ne hic]
        exact h.others i hi hic
      · show ((markTerminated s).tasks s.current).state = _ ∨
          ((markTerminated s).tasks s.current).state = _
        rw [markTerminated_self]
        exact Or.inr rfl
      · have hne : i ≠ s.current := Nat.ne_of_gt (Nat.lt_of_lt_of_le hlt hi)
        rw [markTerminated_of_ne hne, h.fresh i hi]

theorem outState_cases (st : TaskState) (h : st = .running ∨ st = .terminated) :
    outState st = .ready ∨ outState st = .terminated := by
  rcases h with rfl | rfl
  · exact Or.inl rfl
  · exact Or.inr rfl

theorem dispatch_inv (h : SchedInv s) (heff : DispatchEffect s s') : SchedInv s' := by
  cases heff with
  | stay htasks hcount hcurrent => exact local_inv h (.keep htasks hcount hcurrent)
  | switch next esp hnext htasks hcount hcurrent =>
      obtain ⟨⟨hne, -⟩, hlt, -⟩ := hnext
      refine ⟨by omega, hcount ▸ h.count_le, fun i hi => ?_, fun i hi hin => ?_, ?_, fun i hi => ?_⟩
      · rw [htasks]
        by_cases hin : i = next
        · rw [hin, switched_next hne]
          exact h.ids _ hlt
        · by_cases hic : i = s.current
          · rw [hic, switched_current hne]
            exact h.ids _ h.current_lt
          · rw [switched_of_ne hic hin, h.ids i (hcount ▸ hi)]
      · rw [hcurrent] at hin
        rw [Sched.state, htasks]
        by_cases hic : i = s.current
        · rw [hic, switched_current hne]
          exact outState_cases _ h.current_state
        · rw [switched_of_ne hic hin]
          exact h.others i (hcount ▸ hi) hic
      · rw [Sched.state, hcurrent, htasks, switched_next hne]
        exact Or.inl rfl
      · have hlt' := h.current_lt
        rw [htasks, switched_of_ne (by omega) (by omega), h.fresh i (hcount ▸ hi)]

theorem op_inv (h : SchedInv s) (op : TaskOp) : SchedInv (op.run taskExitAddr s) := by
  obtain ⟨q, hloc, hdis⟩ := op_effect taskExitAddr h.current_lt op
  exact dispatch_inv (local_inv h hloc) hdis

theorem runOps_inv (h : SchedInv s) (ops : List TaskOp) :
    SchedInv (runOps taskExitAddr s ops) := by
  induction ops generalizing s with
  | nil => exact h
  | cons op ops ih => exact ih (op_inv taskExitAddr h op)

/-! ## Termination is final -/

theorem local_terminated (h : SchedInv s) (heff : LocalEffect s s')
    (hi : s.state i = .terminated) : s'.state i = .terminated := by
  cases heff with
  | keep htasks hcount hcurrent => exact (state_congr (congrFun htasks i)).trans hi
  | create t hroom hid hstate htasks hcount hcurrent =>
      have hne : i ≠ s.count := by
        rintro rfl
        rw [Sched.state, h.fresh _ (Nat.le_refl _)] at hi
        cases hi
      exact (state_congr (by rw [htasks, Function.update_of_ne hne])).trans hi
  | terminate =>
      by_cases hic : i = s.current
      · rw [hic, Sched.state, markTerminated_self]
      · exact (state_congr (markTerminated_of_ne hic)).trans hi

theorem dispatch_terminated (heff : DispatchEffect s s') (hi : s.state i = .terminated) :
    s'.state i = .terminated ∧ switchTarget s s' ≠ some i := by
  cases heff with
  | stay htasks hcount hcurrent =>
      rw [Sched.state, htasks, switchTarget, if_pos hcurrent]
      exact ⟨hi, (Option.some_ne_none i).symm⟩
  | switch next esp hnext htasks hcount hcurrent =>
      obtain ⟨⟨hne, hrun⟩, -⟩ := hnext
      have hin : i ≠ next := by
        rintro rfl
        rcases hrun with hrun | hrun <;> rw [hi] at hrun <;> cases hrun
      rw [switchTarget, hcurrent, if_neg hne]
      refine ⟨?_, fun heq => hin (Option.some.inj heq).symm⟩
      by_cases hic : i = s.current
      · subst hic
        rw [Sched.state, htasks, switched_current hne]
        show outState (s.state s.current) = _
        rw [hi]
        rfl
      · exact (state_congr (by rw [htasks, switched_of_ne hic hin])).trans hi

theorem op_terminated (h : SchedInv s) (op : TaskOp) (hi : s.state i = .terminated) :
    (op.run taskExitAddr s).state i = .terminated ∧
      switchTarget s (op.run taskExitAddr s) ≠ some i := by
  obtain ⟨q, hloc, hdis⟩ := op_effect taskExitAddr h.current_lt op
  have hq := dispatch_terminated hdis (local_terminated h hloc hi)
  rw [switchTarget, hloc.current_eq] at hq
  exact hq

theorem runOps_terminated (h : SchedInv s) (hi : s.state i = .terminated) (ops : List TaskOp) :
    (runOps taskExitAddr s ops).state i = .terminated ∧ i ∉ switches taskExitAddr s ops := by
  induction ops generalizing s with
  | nil => exact ⟨hi, List.not_mem_nil⟩
  | cons op ops ih =>
      obtain ⟨hstate, htarget⟩ := op_terminated taskExitAddr h op hi
      obtain ⟨hend, hrest⟩ := ih (op_inv taskExitAddr h op) hstate
      refine ⟨hend, fun hmem => ?_⟩
      rcases List.mem_append.mp hmem with hmem | hmem
      · exact htarget (Option.mem_toList.mp hmem)
      · exact hrest hmem

end Inv

/-- **The scheduler's state machine.** Along every run from `task_init` the table
keeps its invariant, and a task that is once terminated stays so and is never
switched to again. -/
theorem sched_state_machine (taskExitAddr : BitVec 32) (s₀ : Sched) (ops : List TaskOp) :
    SchedInv (runOps taskExitAddr (taskInit s₀) ops) ∧
      ∀ i, (runOps taskExitAddr (taskInit s₀) ops).state i = .terminated → ∀ ops',
        (runOps taskExitAddr (taskInit s₀) (ops ++ ops')).state i = .terminated ∧
          i ∉ switches taskExitAddr (runOps taskExitAddr (taskInit s₀) ops) ops' := by
  have h := runOps_inv taskExitAddr (taskInit_inv s₀) ops
  refine ⟨h, fun i hi ops' => ?_⟩
  rw [runOps, List.foldl_append]
  exact runOps_terminated taskExitAddr h hi ops'

/-- The table before `task_init` and an empty heap. -/
def sampleSched : Sched := ⟨fun _ => zeroTask, 0, 0, false, false, 0⟩

def sampleHeap : Heap := heapInit fun _ => 0#8

/-- The only task exits. -/
theorem sched_state_machine_exit :
    (runOps 0#32 (taskInit sampleSched) ([.exit 0] ++ [.request, .schedule 0])).state 0 =
        .terminated ∧
      0 ∉ switches 0#32 (runOps 0#32 (taskInit sampleSched) [.exit 0])
        [.request, .schedule 0] :=
  (sched_state_machine 0#32 sampleSched [.exit 0]).2 0 (by decide) [.request, .schedule 0]

/-! ## Laps -/

open RoundRobin

/-- A task waiting for its turn. -/
def Pending (s : Sched) (u : Nat) : Prop := u < s.count ∧ s.state u = .ready

/-- The lap from `t` has come to the current task, and what it still has to visit waits. -/
structure LapAt (t : Nat) (R : Nat → Prop) (v : List Nat) (s : Sched) : Prop where
  lap : Lap t R v s.current
  pending : ∀ u, R u → u ∉ v → Pending s u

section Laps

variable (taskExitAddr : BitVec 32) {s s' : Sched} {t u : Nat} {R : Nat → Prop} {v : List Nat}

theorem Pending.ne_current (hu : Pending s u) (h : SchedInv s) : u ≠ s.current := by
  rintro rfl
  rcases h.current_state with hst | hst <;> rw [hu.2] at hst <;> cases hst

theorem Pending.runnable (hu : Pending s u) (h : SchedInv s) : s.Runnable u :=
  ⟨hu.ne_current h, Or.inl hu.2⟩

theorem local_pending (h : SchedInv s) (heff : LocalEffect s s') (hu : Pending s u) :
    Pending s' u := by
  have hne := hu.ne_current h
  obtain ⟨hlt, hst⟩ := hu
  cases heff with
  | keep htasks hcount hcurrent =>
      exact ⟨hcount ▸ hlt, (state_congr (congrFun htasks u)).trans hst⟩
  | create t hroom hid hstate htasks hcount hcurrent =>
      refine ⟨by omega, (state_congr ?_).trans hst⟩
      rw [htasks, Function.update_of_ne (by omega)]
  | terminate => exact ⟨hlt, (state_congr (markTerminated_of_ne hne)).trans hst⟩

theorem local_lap (h : SchedInv s) (heff : LocalEffect s s') (hl : LapAt t R v s) :
    LapAt t R v s' :=
  ⟨heff.current_eq ▸ hl.lap, fun u hR hv => local_pending h heff (hl.pending u hR hv)⟩

/-- A task that is neither current nor terminated can be switched to. -/
theorem runnable_of_alive (h : SchedInv s) (ht : t < s.count) (hne : s.current ≠ t)
    (halive : s.state t ≠ .terminated) : s.Runnable t := by
  rcases h.others t ht hne.symm with hst | hst
  · exact ⟨hne.symm, Or.inl hst⟩
  · exact absurd hst halive

theorem dispatch_lap (h : SchedInv s) (heff : DispatchEffect s s') (hl : LapAt t R v s)
    (ht : t < s.count) (halive : s'.state t ≠ .terminated) (hno : switchTarget s s' ≠ some t) :
    LapAt t R (v ++ (switchTarget s s').toList) s' := by
  have halive' : s.state t ≠ .terminated := fun hst => halive (dispatch_terminated heff hst).1
  cases heff with
  | stay htasks hcount hcurrent =>
      rw [switchTarget, if_pos hcurrent, Option.toList_none, List.append_nil]
      exact local_lap h (.keep htasks hcount hcurrent) hl
  | switch next esp hnext htasks hcount hcurrent =>
      have hne : next ≠ s.current := hnext.1.1
      rw [switchTarget, hcurrent, if_neg hne] at hno ⊢
      have hnt : next ≠ t := fun heq => hno (congrArg some heq)
      rw [Option.toList_some]
      refine ⟨?_, fun u hR hv => ?_⟩
      · rw [hcurrent]
        refine hl.lap.pick hnext hnt (fun u hR hv => ?_) (fun hct => ?_) ht
        · exact ⟨(hl.pending u hR hv).runnable h, (hl.pending u hR hv).1⟩
        · exact runnable_of_alive h ht hct halive'
      · rw [List.mem_append, not_or, List.mem_singleton] at hv
        obtain ⟨hlt, hst⟩ := hl.pending u hR hv.1
        have huc := (hl.pending u hR hv.1).ne_current h
        refine ⟨hcount ▸ hlt, (state_congr ?_).trans hst⟩
        rw [htasks, switched_of_ne huc hv.2]

theorem op_count_le (h : SchedInv s) (op : TaskOp) : s.count ≤ (op.run taskExitAddr s).count := by
  obtain ⟨q, hloc, hdis⟩ := op_effect taskExitAddr h.current_lt op
  have hq : s.count ≤ q.count := by
    cases hloc with
    | keep _ hcount _ => exact Nat.le_of_eq hcount.symm
    | create _ _ _ _ _ hcount _ => omega
    | terminate => exact Nat.le_refl _
  cases hdis with
  | stay _ hcount _ => omega
  | switch _ _ _ _ hcount _ => omega

theorem runOps_lap (h : SchedInv s) (hl : LapAt t R v s) (ht : t < s.count) {ops : List TaskOp}
    (halive : (runOps taskExitAddr s ops).state t ≠ .terminated)
    (hno : t ∉ switches taskExitAddr s ops) :
    LapAt t R (v ++ switches taskExitAddr s ops) (runOps taskExitAddr s ops) := by
  induction ops generalizing s v with
  | nil =>
      rw [switches, List.append_nil]
      exact hl
  | cons op ops ih =>
      rw [switches, List.mem_append, not_or] at hno
      obtain ⟨q, hloc, hdis⟩ := op_effect taskExitAddr h.current_lt op
      have htarget : switchTarget q (op.run taskExitAddr s) =
          switchTarget s (op.run taskExitAddr s) := by
        rw [switchTarget, switchTarget, hloc.current_eq]
      have hq := local_inv h hloc
      have htq : t < q.count := by
        cases hloc with
        | keep _ hcount _ => omega
        | create _ _ _ _ _ hcount _ => omega
        | terminate => exact ht
      have halive' : (op.run taskExitAddr s).state t ≠ .terminated :=
        fun hst => halive (runOps_terminated taskExitAddr (op_inv taskExitAddr h op) hst ops).1
      have hstep := dispatch_lap hq hdis (local_lap h hloc hl) htq halive' fun heq =>
        hno.1 (Option.mem_toList.mpr (htarget ▸ heq))
      rw [htarget] at hstep
      rw [switches, ← List.append_assoc]
      exact ih (op_inv taskExitAddr h op) hstep
        (Nat.lt_of_lt_of_le ht (op_count_le taskExitAddr h op)) halive hno.2

/-- The operation that switches back to `t` finds the lap complete. -/
theorem op_finish (h : SchedInv s) (hl : LapAt t R v s) (op : TaskOp)
    (hback : switchTarget s (op.run taskExitAddr s) = some t) (hu : R u) (hut : u ≠ t) :
    u ∈ v := by
  obtain ⟨q, hloc, hdis⟩ := op_effect taskExitAddr h.current_lt op
  have hq := local_inv h hloc
  have hlq := local_lap h hloc hl
  rw [switchTarget, ← hloc.current_eq] at hback
  cases hdis with
  | stay _ _ hcurrent =>
      rw [if_pos hcurrent] at hback
      cases hback
  | switch next esp hnext _ _ hcurrent =>
      rw [hcurrent, if_neg hnext.1.1] at hback
      rw [Option.some.inj hback] at hnext
      exact hlq.lap.finish hnext (fun u hR hv =>
        ⟨(hlq.pending u hR hv).runnable hq, (hlq.pending u hR hv).1⟩) hu hut

end Laps

/-- **No starvation.** Between two consecutive switches to `t` every other task that
was ready at the first of them is switched to, and none more than once. -/
theorem round_robin_lap (taskExitAddr : BitVec 32) (s₀ : Sched) (ops ops' : List TaskOp)
    (first second : TaskOp) (t : Nat)
    (hfirst : switchTarget (runOps taskExitAddr (taskInit s₀) ops)
      (runOps taskExitAddr (taskInit s₀) (ops ++ [first])) = some t)
    (hbetween : t ∉ switches taskExitAddr
      (runOps taskExitAddr (taskInit s₀) (ops ++ [first])) ops')
    (hsecond : switchTarget (runOps taskExitAddr (taskInit s₀) (ops ++ [first] ++ ops'))
      (runOps taskExitAddr (taskInit s₀) (ops ++ [first] ++ ops' ++ [second])) = some t) :
    (∀ u, u ≠ t → u < (runOps taskExitAddr (taskInit s₀) (ops ++ [first])).count →
        (runOps taskExitAddr (taskInit s₀) (ops ++ [first])).state u = .ready →
        u ∈ switches taskExitAddr (runOps taskExitAddr (taskInit s₀) (ops ++ [first])) ops') ∧
      (switches taskExitAddr (runOps taskExitAddr (taskInit s₀) (ops ++ [first])) ops').Nodup := by
  have h := runOps_inv taskExitAddr (taskInit_inv s₀) (ops ++ [first])
  have hcurrent : (runOps taskExitAddr (taskInit s₀) (ops ++ [first])).current = t := by
    rw [switchTarget] at hfirst
    split at hfirst
    · cases hfirst
    · exact Option.some.inj hfirst
  have hsplit : ∀ l, runOps taskExitAddr (taskInit s₀) (ops ++ [first] ++ l) =
      runOps taskExitAddr (runOps taskExitAddr (taskInit s₀) (ops ++ [first])) l :=
    fun l => List.foldl_append
  rw [List.append_assoc _ ops', hsplit, hsplit] at hsecond
  generalize runOps taskExitAddr (taskInit s₀) (ops ++ [first]) = s at *
  have hend := runOps_inv taskExitAddr h ops'
  have hback : switchTarget (runOps taskExitAddr s ops')
      (second.run taskExitAddr (runOps taskExitAddr s ops')) = some t := by
    rw [runOps, runOps, List.foldl_append] at hsecond
    exact hsecond
  have halive : (runOps taskExitAddr s ops').state t ≠ .terminated :=
    fun hst => (op_terminated taskExitAddr hend second hst).2 hback
  have hstart : LapAt t (fun u => u ≠ t ∧ Pending s u) [] s :=
    ⟨hcurrent ▸ Lap.start .., fun u hu _ => hu.2⟩
  have hlap := runOps_lap taskExitAddr h hstart (hcurrent ▸ h.current_lt) halive hbetween
  rw [List.nil_append] at hlap
  exact ⟨fun u hut hlt hst => op_finish taskExitAddr hend hlap second hback ⟨hut, hlt, hst⟩ hut,
    hlap.lap.nodup⟩

/-- Two tasks take turns: between two switches to task 1 comes task 0. -/
theorem round_robin_lap_two :
    0 ∈ switches 0#32 (runOps 0#32 (taskInit sampleSched)
      ([.create sampleHeap 0#32 none, .request] ++ [.schedule 0]))
      [.request, .schedule 0, .request] :=
  (round_robin_lap 0#32 sampleSched [.create sampleHeap 0#32 none, .request]
    [.request, .schedule 0, .request] (.schedule 0) (.schedule 0) 1 (by decide +kernel)
    (by decide +kernel) (by decide +kernel)).1 0 (by decide) (by decide +kernel) (by decide +kernel)

end Matryoshka
