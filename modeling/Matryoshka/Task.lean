import Matryoshka.Heap
import Matryoshka.Stack
import Matryoshka.Vmm

/-!
# Tasks and the scheduler

`kernel/proc/task.c`: the task table, the two creators and the scheduler
that runs at the end of every interrupt. Stacks come from the heap and the
initial frames are pushed into heap memory; `TSS.ESP0` is part of the
state because the scheduler sets it. The address of `task_exit` is a
parameter, fixed when the kernel is linked. Pointers are naturals, NULL is
0, and console and log output is not modelled.

The page tables `vmm_set_user` writes are frames of the PMM and are kept
in the memory of the `Vmm` state, apart from the heap's.
-/

namespace Matryoshka

open Stack

/-! ## Constants -/

def MAX_TASKS : Nat := 64

def TASK_STACK_SIZE : Nat := 4096

def GDT_KERNEL_CODE_SEL : BitVec 32 := 0x08#32

def GDT_KERNEL_DATA_SEL : BitVec 32 := 0x10#32

def GDT_USER_CODE_SEL : BitVec 32 := 0x1B#32

def GDT_USER_DATA_SEL : BitVec 32 := 0x23#32

/-- `(uint32_t)-1`. -/
def noTask : Nat := 0xFFFFFFFF

/-- `PAGE_ALIGN_DOWN` on a 32-bit address. -/
def pageAlignDown (a : BitVec 32) : BitVec 32 := a &&& 0xFFFFF000#32

/-! ## State -/

inductive TaskState
  | ready
  | running
  | terminated
deriving Repr, DecidableEq

structure Task where
  id : Nat
  esp : Nat
  stackBase : Nat
  userStackBase : Nat
  kernelStackTop : Nat
  state : TaskState
  name : Option String
  isUser : Bool
deriving Repr, DecidableEq

/-- A slot after `memset`; the first state of the enumeration is `TASK_READY`. -/
def zeroTask : Task := ⟨0, 0, 0, 0, 0, .ready, none, false⟩

structure Sched where
  tasks : Nat → Task
  current : Nat
  count : Nat
  schedulerReady : Bool
  needReschedule : Bool
  tssEsp0 : Nat

abbrev Sched.state (s : Sched) (i : Nat) : TaskState := (s.tasks i).state

def setTask (s : Sched) (i : Nat) (t : Task) : Sched :=
  { s with tasks := Function.update s.tasks i t }

def setState (s : Sched) (i : Nat) (st : TaskState) : Sched :=
  setTask s i { s.tasks i with state := st }

def setEsp (s : Sched) (i esp : Nat) : Sched :=
  setTask s i { s.tasks i with esp := esp }

def taskInit (s : Sched) : Sched :=
  { tasks := Function.update (fun _ => zeroTask) 0
      { zeroTask with id := 0, state := .running, name := some "kernel", stackBase := 0,
                      userStackBase := 0, kernelStackTop := 0, isUser := false }
    current := 0
    count := 1
    needReschedule := false
    schedulerReady := true
    tssEsp0 := s.tssEsp0 }

/-! ## Scheduling -/

/-- The condition inside the scan. -/
def Sched.Runnable (s : Sched) (id : Nat) : Prop :=
  id ≠ s.current ∧ (s.state id = .ready ∨ s.state id = .running)

instance (s : Sched) (id : Nat) : Decidable (s.Runnable id) :=
  inferInstanceAs (Decidable (_ ∧ _))

/-- The loop of `find_next_ready` with `n` iterations left. -/
def scanReady (s : Sched) : (n id : Nat) → Nat
  | 0, _ => s.current
  | n + 1, id => if s.Runnable id then id else scanReady s n ((id + 1) % s.count)

def findNextReady (s : Sched) : Nat := scanReady s s.count ((s.current + 1) % s.count)

def taskRequestReschedule (s : Sched) : Sched := { s with needReschedule := true }

/-- Save the stack pointer; a task that still runs becomes ready. -/
def switchOut (s : Sched) (esp : Nat) : Sched :=
  let s := setEsp s s.current esp
  if s.state s.current = .running then setState s s.current .ready else s

def tssSetEsp0 (s : Sched) (esp0 : Nat) : Sched := { s with tssEsp0 := esp0 }

def switchIn (s : Sched) (next : Nat) : Sched :=
  let s := setState { s with current := next } next .running
  if (s.tasks s.current).kernelStackTop ≠ 0 then
    tssSetEsp0 s (s.tasks s.current).kernelStackTop
  else s

def taskScheduleIfNeeded (s : Sched) (esp : Nat) : Nat × Sched :=
  if !s.schedulerReady || !s.needReschedule then (esp, s)
  else
    let s := { s with needReschedule := false }
    let next := findNextReady s
    if next = s.current then (esp, s)
    else
      let s := switchIn (switchOut s esp) next
      ((s.tasks s.current).esp, s)

/-- `INT 0x81`: `yield_isr_handler`, then the scheduler on the interrupt frame. -/
def taskYield (s : Sched) (esp : Nat) : Nat × Sched :=
  taskScheduleIfNeeded { s with needReschedule := true } esp

/-- The first statement of `task_exit`. -/
def markTerminated (s : Sched) : Sched := setState s s.current .terminated

/-- `task_exit` up to its `hlt` loop. -/
def taskExit (s : Sched) (esp : Nat) : Nat × Sched := taskYield (markTerminated s) esp

/-! ## Creation -/

/-- The words `task_create` pushes, first to last. -/
def ring0Frame (taskExitAddr entry : BitVec 32) : List (BitVec 32) :=
  [taskExitAddr, 0x202#32, GDT_KERNEL_CODE_SEL, entry, 0#32, 0#32,
    0#32, 0#32, 0#32, 0#32, 0#32, 0#32, 0#32, 0#32, GDT_KERNEL_DATA_SEL]

/-- The words `task_create_user` pushes on the kernel stack, first to last. -/
def ring3Frame (ustackTop : Nat) (entry : BitVec 32) : List (BitVec 32) :=
  [GDT_USER_DATA_SEL, BitVec.ofNat 32 ustackTop, 0x202#32, GDT_USER_CODE_SEL, entry,
    0#32, 0#32, 0#32, 0#32, 0#32, 0#32, 0#32, 0#32, 0#32, 0#32, GDT_USER_DATA_SEL]

/-- `(uint32_t)(stack + TASK_STACK_SIZE)`. -/
def stackTop (stack : Nat) : Nat := u32 (stack + TASK_STACK_SIZE)

/-- The slot of a new ring-0 task. -/
def kernelTask (id stack : Nat) (name : Option String) : Task :=
  { id := id
    esp := stackTop stack - 4 * 15
    stackBase := stack
    userStackBase := 0
    kernelStackTop := stackTop stack
    state := .ready
    name := name
    isUser := false }

/-- The slot of a new ring-3 task. -/
def userTask (id kstack ustack : Nat) (name : Option String) : Task :=
  { id := id
    esp := stackTop kstack - 4 * 16
    stackBase := kstack
    userStackBase := ustack
    kernelStackTop := stackTop kstack
    state := .ready
    name := name
    isUser := true }

def setCount (s : Sched) (n : Nat) : Sched := { s with count := n }

def pushFrame (h : Heap) (top : Nat) (ws : List (BitVec 32)) : Heap :=
  { h with mem := pushAll h.mem top ws }

def taskCreate (taskExitAddr : BitVec 32) (s : Sched) (h : Heap) (entry : BitVec 32)
    (name : Option String) : Nat × Sched × Heap :=
  if MAX_TASKS ≤ s.count then (noTask, s, h)
  else
    let id := s.count
    let s := setCount s (s.count + 1)
    let (stack, h) := kmalloc h TASK_STACK_SIZE
    if stack = 0 then (noTask, setCount s (s.count - 1), h)
    else
      let h := pushFrame h (stackTop stack) (ring0Frame taskExitAddr entry)
      (id, setTask s id (kernelTask id stack name), h)

/-- `if (p) kfree(p)`. -/
def kfreeNonNull (h : Heap) (p : Nat) : Heap := if p ≠ 0 then kfree h p else h

/-- `vmm_set_user` on every page of a user stack, with `n` pages left. -/
def setUserPages (v : Vmm) (base : Nat) : (n off : Nat) → Vmm
  | 0, _ => v
  | n + 1, off =>
      setUserPages (vmmSetUser v (BitVec.ofNat 32 (base + off))).2 base n (off + PAGE_SIZE)

/-- The pages `task_create_user` opens to ring 3: the user stack and two pages of code. -/
def openUserPages (v : Vmm) (ustack : Nat) (entry : BitVec 32) : Vmm :=
  let v := setUserPages v ustack (TASK_STACK_SIZE / PAGE_SIZE) 0
  let v := (vmmSetUser v (pageAlignDown entry)).2
  (vmmSetUser v (pageAlignDown entry + BitVec.ofNat 32 PAGE_SIZE)).2

def taskCreateUser (s : Sched) (h : Heap) (v : Vmm) (entry : BitVec 32)
    (name : Option String) : Nat × Sched × Heap × Vmm :=
  if MAX_TASKS ≤ s.count then (noTask, s, h, v)
  else
    let id := s.count
    let s := setCount s (s.count + 1)
    let (kstack, h) := kmalloc h TASK_STACK_SIZE
    let (ustack, h) := kmalloc h TASK_STACK_SIZE
    if kstack = 0 ∨ ustack = 0 then
      let h := kfreeNonNull (kfreeNonNull h kstack) ustack
      (noTask, setCount s (s.count - 1), h, v)
    else
      let v := openUserPages v ustack entry
      let h := pushFrame h (stackTop kstack) (ring3Frame (stackTop ustack) entry)
      (id, setTask s id (userTask id kstack ustack name), h, v)

/-! A creation fails and leaves the scheduler alone, or it fills the next slot. -/

theorem taskCreate_cases {taskExitAddr entry : BitVec 32} {s s' : Sched} {h h' : Heap}
    {name : Option String} {id : Nat}
    (hr : taskCreate taskExitAddr s h entry name = (id, s', h')) :
    (id = noTask ∧ s' = s) ∨
      ∃ stack h₁, s.count < MAX_TASKS ∧ id = s.count ∧
        s' = setTask (setCount s (s.count + 1)) s.count (kernelTask s.count stack name) ∧
        h' = pushFrame h₁ (stackTop stack) (ring0Frame taskExitAddr entry) := by
  simp only [taskCreate] at hr
  split at hr
  · obtain ⟨rfl, rfl, -⟩ := hr
    exact Or.inl ⟨rfl, rfl⟩
  · rename_i hmax
    split at hr
    · obtain ⟨rfl, rfl, -⟩ := hr
      exact Or.inl ⟨rfl, rfl⟩
    · obtain ⟨rfl, rfl, rfl⟩ := hr
      exact Or.inr ⟨_, _, by omega, rfl, rfl, rfl⟩

theorem taskCreateUser_cases {entry : BitVec 32} {s s' : Sched} {h h' : Heap} {v v' : Vmm}
    {name : Option String} {id : Nat} (hr : taskCreateUser s h v entry name = (id, s', h', v')) :
    (id = noTask ∧ s' = s) ∨
      ∃ kstack ustack h₁, s.count < MAX_TASKS ∧ id = s.count ∧
        s' = setTask (setCount s (s.count + 1)) s.count (userTask s.count kstack ustack name) ∧
        h' = pushFrame h₁ (stackTop kstack) (ring3Frame (stackTop ustack) entry) := by
  simp only [taskCreateUser] at hr
  split at hr
  · obtain ⟨rfl, rfl, -⟩ := hr
    exact Or.inl ⟨rfl, rfl⟩
  · rename_i hmax
    split at hr
    · obtain ⟨rfl, rfl, -⟩ := hr
      exact Or.inl ⟨rfl, rfl⟩
    · obtain ⟨rfl, rfl, rfl, -⟩ := hr
      exact Or.inr ⟨_, _, _, by omega, rfl, rfl, rfl⟩

/-! ## Queries -/

def taskCount (s : Sched) : Nat := s.count

def taskCurrentId (s : Sched) : Nat := s.current

/-- The three out-parameters, or `none` for `false`. -/
def taskGetInfo (s : Sched) (index : Nat) : Option (Nat × Option String × TaskState) :=
  if s.count ≤ index then none
  else some ((s.tasks index).id, (s.tasks index).name, (s.tasks index).state)

/-! ## What the setters change -/

section Setters

variable {s : Sched} {i j esp : Nat} {t : Task} {st : TaskState}

theorem state_congr {s' : Sched} (h : s'.tasks i = s.tasks i) : s'.state i = s.state i :=
  congrArg Task.state h

@[simp] theorem setTask_current : (setTask s i t).current = s.current := rfl

@[simp] theorem setTask_count : (setTask s i t).count = s.count := rfl

theorem setTask_of_ne (h : j ≠ i) : (setTask s i t).tasks j = s.tasks j :=
  Function.update_of_ne h ..

@[simp] theorem setTask_self : (setTask s i t).tasks i = t := Function.update_self ..

@[simp] theorem setState_current : (setState s i st).current = s.current := rfl

@[simp] theorem setState_count : (setState s i st).count = s.count := rfl

theorem setState_of_ne (h : j ≠ i) : (setState s i st).tasks j = s.tasks j := setTask_of_ne h

theorem setState_self : (setState s i st).tasks i = { s.tasks i with state := st } :=
  setTask_self

theorem setEsp_of_ne (h : j ≠ i) : (setEsp s i esp).tasks j = s.tasks j := setTask_of_ne h

theorem setEsp_self : (setEsp s i esp).tasks i = { s.tasks i with esp := esp } := setTask_self

theorem setEsp_state : (setEsp s i esp).state j = s.state j := by
  by_cases h : j = i
  · rw [h, Sched.state, setEsp_self]
  · rw [Sched.state, setEsp_of_ne h]

/-- The state a task is left in when it is switched out. -/
def outState (st : TaskState) : TaskState := if st = .running then .ready else st

theorem switchOut_eq : switchOut s esp =
    setState (setEsp s s.current esp) s.current (outState (s.state s.current)) := by
  have hst : (setEsp s s.current esp).state s.current = s.state s.current := setEsp_state
  by_cases h : s.state s.current = .running
  · rw [switchOut, outState, if_pos h]
    exact if_pos (hst.trans h)
  · rw [switchOut, outState, if_neg h, ← hst, setState, setTask]
    refine (if_neg (fun hr => h (hst.symm.trans hr))).trans ?_
    exact (congrArg (fun f => { setEsp s s.current esp with tasks := f })
      (Function.update_eq_self s.current _)).symm

@[simp] theorem switchOut_current : (switchOut s esp).current = s.current := by
  rw [switchOut_eq]
  rfl

@[simp] theorem switchOut_count : (switchOut s esp).count = s.count := by
  rw [switchOut_eq]
  rfl

theorem switchOut_of_ne (h : j ≠ s.current) : (switchOut s esp).tasks j = s.tasks j := by
  rw [switchOut_eq, setState_of_ne h, setEsp_of_ne h]

theorem switchOut_self : (switchOut s esp).tasks s.current =
    { s.tasks s.current with esp := esp, state := outState (s.state s.current) } := by
  rw [switchOut_eq, setState_self, setEsp_self]

theorem markTerminated_of_ne (h : j ≠ s.current) : (markTerminated s).tasks j = s.tasks j :=
  setState_of_ne h

theorem markTerminated_self : (markTerminated s).tasks s.current =
    { s.tasks s.current with state := .terminated } := setState_self

@[simp] theorem switchIn_current : (switchIn s i).current = i := by
  simp only [switchIn]
  split <;> rfl

@[simp] theorem switchIn_count : (switchIn s i).count = s.count := by
  simp only [switchIn]
  split <;> rfl

theorem switchIn_tasks : (switchIn s i).tasks =
    Function.update s.tasks i { s.tasks i with state := .running } := by
  simp only [switchIn]
  split <;> rfl

theorem switchIn_tssEsp0 : (switchIn s i).tssEsp0 =
    if (s.tasks i).kernelStackTop ≠ 0 then (s.tasks i).kernelStackTop else s.tssEsp0 := by
  have htop : ((setState { s with current := i } i .running).tasks i).kernelStackTop =
      (s.tasks i).kernelStackTop := by rw [setState_self]
  rw [switchIn]
  by_cases h : (s.tasks i).kernelStackTop ≠ 0
  · rw [if_pos h]
    exact (congrArg Sched.tssEsp0 (if_pos (htop ▸ h))).trans htop
  · rw [if_neg h]
    exact (congrArg Sched.tssEsp0 (if_neg (htop ▸ h))).trans rfl

theorem switchIn_of_ne (h : j ≠ i) : (switchIn s i).tasks j = s.tasks j := by
  rw [switchIn_tasks, Function.update_of_ne h]

theorem switchIn_self : (switchIn s i).tasks i = { s.tasks i with state := .running } := by
  rw [switchIn_tasks, Function.update_self]

/-! A whole switch from the current task to another one. -/

theorem switched_of_ne {next : Nat} (h : j ≠ s.current) (hn : j ≠ next) :
    (switchIn (switchOut s esp) next).tasks j = s.tasks j := by
  rw [switchIn_of_ne hn, switchOut_of_ne h]

theorem switched_next {next : Nat} (hn : next ≠ s.current) :
    (switchIn (switchOut s esp) next).tasks next =
      { s.tasks next with state := .running } := by
  rw [switchIn_self, switchOut_of_ne hn]

theorem switched_current {next : Nat} (hn : next ≠ s.current) :
    (switchIn (switchOut s esp) next).tasks s.current =
      { s.tasks s.current with esp := esp, state := outState (s.state s.current) } := by
  rw [switchIn_of_ne hn.symm, switchOut_self]

end Setters

end Matryoshka
