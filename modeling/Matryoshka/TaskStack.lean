import Matryoshka.Preempt

/-!
# The kernel stack of ring-3 entries

On an interrupt from ring 3 the processor takes its stack pointer from
`TSS.ESP0`. The scheduler sets it in one place, and only for a task whose
`kernel_stack_top` is not null, so after a switch to task 0 it still names
the stack of an earlier task.

`TaskSys` runs the scheduler over one heap and one set of page tables.
Besides creations, exits, requests and dispatches, any other client of the
heap may take a step that leaves the task stacks allocated. Tasks never
give their stacks back. `StackInv` says that all stacks are separate heap
blocks and that `TSS.ESP0` is right whenever a user task is current.
-/

namespace Matryoshka

open ByteMem Stack Tiling

/-! ## Stacks of the tasks -/

/-- The stacks a slot owns. -/
def Task.stacks (t : Task) : List Nat := [t.stackBase, t.userStackBase].filter (· ≠ 0)

/-- All stacks, in the order of their tasks. -/
def Sched.stackList (s : Sched) : List Nat :=
  (List.range s.count).flatMap fun i => (s.tasks i).stacks

section Stacks

variable {s s' : Sched} {t : Task} {i p : Nat}

theorem SameLayout.stackList (h : SameLayout s s') : s'.stackList = s.stackList := by
  rw [Sched.stackList, Sched.stackList, h.count]
  simp only [Task.stacks, fun i => (h.slots i).1, fun i => (h.slots i).2.1]

/-- A creation adds the stacks of the new slot at the end. -/
theorem stackList_create (s : Sched) (t : Task) :
    (setTask (setCount s (s.count + 1)) s.count t).stackList = s.stackList ++ t.stacks := by
  show (List.range (s.count + 1)).flatMap _ = _
  rw [List.range_succ, List.flatMap_append, List.flatMap_singleton, setTask_self]
  congr 1
  refine List.flatMap_congr fun i hi => ?_
  rw [setTask_of_ne (Nat.ne_of_lt (List.mem_range.mp hi))]
  rfl

theorem mem_stackList (hi : i < s.count) (hp : p ∈ (s.tasks i).stacks) : p ∈ s.stackList :=
  List.mem_flatMap.mpr ⟨i, List.mem_range.mpr hi, hp⟩

theorem stackBase_mem (h : t.stackBase ≠ 0) : t.stackBase ∈ t.stacks := by
  simp [Task.stacks, h]

/-- With distinct stacks, no stack of a task belongs to another one. -/
theorem stacks_apart (hnodup : s.stackList.Nodup) {j : Nat} (hi : i < s.count) (hj : j < s.count)
    (hne : j ≠ i) (hp : p ∈ (s.tasks i).stacks) : p ∉ (s.tasks j).stacks := by
  have hsymm : Std.Symm (Function.onFun List.Disjoint fun i => (s.tasks i).stacks) :=
    ⟨fun _ _ h _ h1 h2 => h h2 h1⟩
  have hdisj := (List.nodup_flatMap.mp hnodup).2.forall (List.mem_range.mpr hi)
    (List.mem_range.mpr hj) hne.symm
  exact fun hp' => hdisj hp hp'

end Stacks

/-! ## TSS.ESP0 -/

/-- `gdt_init`, which clears the TSS in `write_tss`. -/
def gdtInit (s : Sched) : Sched := tssSetEsp0 s 0

/-- A dispatch keeps `TSS.ESP0` with the task, or takes it from the slot it enters. -/
theorem schedule_tssEsp0 {s : Sched} (hc : s.current < s.count) (esp : Nat) :
    ((taskScheduleIfNeeded s esp).2.current = s.current ∧
        (taskScheduleIfNeeded s esp).2.tssEsp0 = s.tssEsp0) ∨
      (taskScheduleIfNeeded s esp).2.tssEsp0 =
        if (s.tasks (taskScheduleIfNeeded s esp).2.current).kernelStackTop ≠ 0 then
          (s.tasks (taskScheduleIfNeeded s esp).2.current).kernelStackTop
        else s.tssEsp0 := by
  rcases schedule_cases hc esp with ⟨flag, heq⟩ | ⟨next, hnext, heq⟩
  · rw [heq]
    exact Or.inl ⟨rfl, rfl⟩
  · have hslot : (switchOut { s with needReschedule := false } esp).tasks next = s.tasks next :=
      switchOut_of_ne hnext.1.1
    have hout : (switchOut { s with needReschedule := false } esp).tssEsp0 = s.tssEsp0 := by
      rw [switchOut_eq]
      rfl
    rw [heq, switchIn_current, switchIn_tssEsp0, hslot, hout]
    exact Or.inr rfl

/-! ## The system -/

structure TaskSys where
  sched : Sched
  run : HeapRun
  vmm : Vmm

/-- The stacks of the slot a creator filled are held from then on. -/
def addStacks (s : Sched) (id : Nat) (live : List Nat) : List Nat :=
  if id = noTask then live else (s.tasks id).stacks ++ live

section Ops

variable (taskExitAddr : BitVec 32) (sys : TaskSys) (entry : BitVec 32) (name : Option String)

def TaskSys.created : TaskSys :=
  let (id, s, h) := taskCreate taskExitAddr sys.sched sys.run.heap entry name
  ⟨s, ⟨h, addStacks s id sys.run.live⟩, sys.vmm⟩

def TaskSys.userCreated : TaskSys :=
  let (id, s, h, v) := taskCreateUser sys.sched sys.run.heap sys.vmm entry name
  ⟨s, ⟨h, addStacks s id sys.run.live⟩, v⟩

def TaskSys.withSched (s : Sched) : TaskSys := { sys with sched := s }

end Ops

inductive TaskStep (taskExitAddr : BitVec 32) : TaskSys → TaskSys → Prop
  | create (sys : TaskSys) (entry : BitVec 32) (name : Option String) :
      TaskStep taskExitAddr sys (sys.created taskExitAddr entry name)
  | createUser (sys : TaskSys) (entry : BitVec 32) (name : Option String) :
      TaskStep taskExitAddr sys (sys.userCreated entry name)
  | exit (sys : TaskSys) (esp : Nat) :
      TaskStep taskExitAddr sys (sys.withSched (taskExit sys.sched esp).2)
  | request (sys : TaskSys) :
      TaskStep taskExitAddr sys (sys.withSched (taskRequestReschedule sys.sched))
  | schedule (sys : TaskSys) (esp : Nat) :
      TaskStep taskExitAddr sys (sys.withSched (taskScheduleIfNeeded sys.sched esp).2)
  -- another client of the heap, which leaves the stacks alone
  | client (sys : TaskSys) (r : HeapRun) (hstep : HeapStep sys.run r)
      (hkeep : ∀ p ∈ sys.sched.stackList, p ∈ r.live) :
      TaskStep taskExitAddr sys { sys with run := r }

/-- States reachable from `gdt_init` and `task_init` over a heap in use. -/
inductive TaskReach (taskExitAddr : BitVec 32) : TaskSys → Prop
  | init (s : Sched) (r : HeapRun) (hr : HeapReach r) (v : Vmm) :
      TaskReach taskExitAddr ⟨taskInit (gdtInit s), r, v⟩
  | step {sys sys' : TaskSys} : TaskReach taskExitAddr sys → TaskStep taskExitAddr sys sys' →
      TaskReach taskExitAddr sys'

/-! ## The invariant -/

structure StackInv (s : Sched) (bs : List Seg) : Prop where
  table : SchedInv s
  boot : (s.tasks 0).kernelStackTop = 0 ∧ (s.tasks 0).isUser = false
  made : ∀ i, i ≠ 0 → i < s.count → (s.tasks i).stackBase ≠ 0 ∧
    (s.tasks i).kernelStackTop = (s.tasks i).stackBase + TASK_STACK_SIZE
  segs : ∀ p ∈ s.stackList, StackSeg bs p
  nodup : s.stackList.Nodup
  esp0 : (s.tasks s.current).isUser = true → s.tssEsp0 = (s.tasks s.current).kernelStackTop

def TaskInv (sys : TaskSys) : Prop :=
  ∃ bs, HeapWf sys.run.heap bs ∧ Holds sys.run.live bs ∧ StackInv sys.sched bs

section Sched

variable {s s' : Sched} {bs bs' : List Seg}

theorem taskInit_stackInv (s : Sched) (bs : List Seg) : StackInv (taskInit s) bs := by
  have hlist : (taskInit s).stackList = [] := rfl
  refine ⟨taskInit_inv s, ⟨rfl, rfl⟩, fun i h0 hi => ?_, ?_, ?_, nofun⟩
  · exact absurd (Nat.lt_one_iff.mp hi) h0
  · rw [hlist]
    exact nofun
  · rw [hlist]
    exact List.nodup_nil

/-- The blocks of the stacks may move to another layout of the heap. -/
theorem StackInv.heap (h : StackInv s bs) (hsegs : ∀ p ∈ s.stackList, StackSeg bs' p) :
    StackInv s bs' :=
  ⟨h.table, h.boot, h.made, hsegs, h.nodup, h.esp0⟩

/-- A change that keeps the stacks of every slot. -/
theorem StackInv.layout (h : StackInv s bs) (hl : SameLayout s s') (htable : SchedInv s')
    (hesp : (s.tasks s'.current).isUser = true →
      s'.tssEsp0 = (s.tasks s'.current).kernelStackTop) : StackInv s' bs := by
  obtain ⟨-, hboot, hmade, hsegs, hnodup, -⟩ := h
  refine ⟨htable, ?_, fun i h0 hi => ?_, hl.stackList ▸ hsegs, hl.stackList ▸ hnodup, ?_⟩
  · rw [(hl.slots 0).2.2.1, (hl.slots 0).2.2.2]
    exact hboot
  · rw [(hl.slots i).1, (hl.slots i).2.2.1]
    exact hmade i h0 (hl.count ▸ hi)
  · rw [(hl.slots _).2.2.1, (hl.slots _).2.2.2]
    exact hesp

/-- A user task is not task 0, so its slot has a stack. -/
theorem StackInv.user_made (h : StackInv s bs) {i : Nat} (hi : i < s.count)
    (huser : (s.tasks i).isUser = true) : (s.tasks i).stackBase ≠ 0 ∧
      (s.tasks i).kernelStackTop = (s.tasks i).stackBase + TASK_STACK_SIZE := by
  refine h.made i (fun h0 => ?_) hi
  rw [h0, h.boot.2] at huser
  cases huser

theorem StackInv.schedule (h : StackInv s bs) (esp : Nat) :
    StackInv (taskScheduleIfNeeded s esp).2 bs := by
  have hc := h.table.current_lt
  have hl := schedule_layout hc esp
  have htable := dispatch_inv h.table (schedule_effect hc esp)
  refine h.layout hl htable fun huser => ?_
  rcases schedule_tssEsp0 hc esp with ⟨hcur, hesp⟩ | hesp
  · rw [hesp, hcur]
    exact h.esp0 (hcur ▸ huser)
  · obtain ⟨-, htop⟩ := h.user_made (hl.count ▸ htable.current_lt) huser
    rw [hesp, if_pos]
    rw [htop, TASK_STACK_SIZE]
    exact Nat.succ_ne_zero _

theorem StackInv.request (h : StackInv s bs) : StackInv (taskRequestReschedule s) bs :=
  h.layout ⟨rfl, fun _ => ⟨rfl, rfl, rfl, rfl⟩⟩ (local_inv h.table (.keep rfl rfl rfl)) h.esp0

theorem StackInv.exit (h : StackInv s bs) (esp : Nat) : StackInv (taskExit s esp).2 bs := by
  have hmark : StackInv (markTerminated s) bs :=
    h.layout (markTerminated_layout s) (local_inv h.table .terminate) h.esp0
  exact hmark.request.schedule esp

/-- A new slot with its own stacks. -/
theorem StackInv.create (h : StackInv s bs) {t : Task} (hroom : s.count < MAX_TASKS)
    (hid : t.id = s.count) (hstate : t.state = .ready) (hbase : t.stackBase ≠ 0)
    (htop : t.kernelStackTop = t.stackBase + TASK_STACK_SIZE)
    (hsegs : ∀ p ∈ s.stackList ++ t.stacks, StackSeg bs' p)
    (hnodup : (s.stackList ++ t.stacks).Nodup) :
    StackInv (setTask (setCount s (s.count + 1)) s.count t) bs' := by
  have hlt := h.table.current_lt
  have hold : ∀ i, i ≠ s.count →
      (setTask (setCount s (s.count + 1)) s.count t).tasks i = s.tasks i :=
    fun i hi => setTask_of_ne hi
  refine ⟨local_inv h.table (.create t hroom hid hstate rfl rfl rfl), ?_, fun i h0 hi => ?_,
    stackList_create s t ▸ hsegs, stackList_create s t ▸ hnodup, ?_⟩
  · rw [hold 0 (by omega)]
    exact h.boot
  · rcases Nat.lt_succ_iff_lt_or_eq.mp hi with hi | rfl
    · rw [hold i (Nat.ne_of_lt hi)]
      exact h.made i h0 hi
    · rw [setTask_self]
      exact ⟨hbase, htop⟩
  · show ((setTask _ s.count t).tasks s.current).isUser = true →
      s.tssEsp0 = ((setTask _ s.count t).tasks s.current).kernelStackTop
    rw [hold _ (Nat.ne_of_lt hlt)]
    exact h.esp0

end Sched

/-! ## Creation over the heap -/

section Create

variable {s : Sched} {h : Heap} {bs bs' : List Seg} {b c : Seg} {live : List Nat}

theorem StackSeg.mono (hb : ∀ d ∈ used bs, d ∈ used bs') {st : Nat} (hs : StackSeg bs st) :
    StackSeg bs' st := by
  obtain ⟨d, hd, hst, hsize⟩ := hs
  exact ⟨d, hb d hd, hst, hsize⟩

/-- A frame is pushed into the payload of its stack. -/
theorem pushFrame_wf (hwf : HeapWf h bs) {st : Nat} (hs : StackSeg bs st) {ws : List (BitVec 32)}
    (hlen : 4 * ws.length ≤ TASK_STACK_SIZE) : HeapWf (pushFrame h (stackTop st) ws) bs := by
  have htop := hs.stackTop_eq hwf
  obtain ⟨b, hb, rfl, hsize⟩ := hs
  simp only [TASK_STACK_SIZE] at hsize hlen
  exact hwf.payload_write hb fun x hx => pushAll_of_outside (by omega) (by omega)

theorem Placed.stackSeg (hp : Placed h bs bs' b) (hsize : TASK_STACK_SIZE ≤ b.size) :
    StackSeg bs' (b.addr + 16) :=
  ⟨b, (hp.used b).mpr (Or.inr rfl), rfl, hsize⟩

theorem Placed.fresh_stack (hp : Placed h bs bs' b) {st : Nat} (hs : StackSeg bs st) :
    st ≠ b.addr + 16 := by
  obtain ⟨d, hd, rfl, -⟩ := hs
  have := hp.fresh d hd
  omega

theorem Placed.pushFrame (hp : Placed h bs bs' b) {st : Nat} (hs : StackSeg bs' st)
    {ws : List (BitVec 32)} (hlen : 4 * ws.length ≤ TASK_STACK_SIZE) :
    Placed (pushFrame h (stackTop st) ws) bs bs' b :=
  ⟨pushFrame_wf hp.wf hs hlen, hp.used, hp.fresh⟩

theorem ring0Frame_fits (taskExitAddr entry : BitVec 32) :
    4 * (ring0Frame taskExitAddr entry).length ≤ TASK_STACK_SIZE := by
  simp [ring0Frame, TASK_STACK_SIZE]

theorem ring3Frame_fits (ustackTop : Nat) (entry : BitVec 32) :
    4 * (ring3Frame ustackTop entry).length ≤ TASK_STACK_SIZE := by
  simp [ring3Frame, TASK_STACK_SIZE]

/-- `task_create` fails and changes nothing, or its stack is a new block. -/
theorem taskCreate_spec (taskExitAddr : BitVec 32) (hwf : HeapWf h bs) (entry : BitVec 32)
    (name : Option String) :
    taskCreate taskExitAddr s h entry name = (noTask, s, h) ∨
      ∃ b bs' h', s.count < MAX_TASKS ∧ TASK_STACK_SIZE ≤ b.size ∧ Placed h' bs bs' b ∧
        taskCreate taskExitAddr s h entry name =
          (s.count, setTask (setCount s (s.count + 1)) s.count
            (kernelTask s.count (b.addr + 16) name), h') := by
  by_cases hmax : MAX_TASKS ≤ s.count
  · exact Or.inl (if_pos hmax)
  · rw [taskCreate, if_neg hmax]
    rcases kmalloc_spec hwf (n := TASK_STACK_SIZE) (by decide) with
      hk | ⟨b, bs', hp, hsize, hplaced⟩
    · rw [hk]
      exact Or.inl rfl
    · refine Or.inr ⟨b, bs', _, Nat.lt_of_not_le hmax, hsize,
        hplaced.pushFrame (hplaced.stackSeg hsize) (ring0Frame_fits taskExitAddr entry), ?_⟩
      simp only [hp]
      exact if_neg (Nat.succ_ne_zero _)

/-- `task_create_user` fails with the same blocks in use, or its stacks are two new blocks. -/
theorem taskCreateUser_spec (hwf : HeapWf h bs) (v : Vmm) (entry : BitVec 32)
    (name : Option String) :
    (∃ h' bs', taskCreateUser s h v entry name = (noTask, s, h', v) ∧ HeapWf h' bs' ∧
        ∀ d, d ∈ used bs' ↔ d ∈ used bs) ∨
      ∃ b c h₁ bs₁ bs' h', s.count < MAX_TASKS ∧ TASK_STACK_SIZE ≤ b.size ∧
        TASK_STACK_SIZE ≤ c.size ∧ Placed h₁ bs bs₁ b ∧ Placed h' bs₁ bs' c ∧
        taskCreateUser s h v entry name =
          (s.count, setTask (setCount s (s.count + 1)) s.count
            (userTask s.count (b.addr + 16) (c.addr + 16) name), h',
            openUserPages v (c.addr + 16) entry) := by
  by_cases hmax : MAX_TASKS ≤ s.count
  · exact Or.inl ⟨h, bs, if_pos hmax, hwf, fun _ => Iff.rfl⟩
  · rw [taskCreateUser, if_neg hmax]
    rcases kmalloc_spec hwf (n := TASK_STACK_SIZE) (by decide) with
      hk | ⟨b, bs₁, hp, hsize, hplaced⟩
    · -- the second attempt sees the same heap
      simp only [hk, true_or, if_true]
      exact Or.inl ⟨h, bs, rfl, hwf, fun _ => Iff.rfl⟩
    · have hb0 : b.addr + 16 ≠ 0 := Nat.succ_ne_zero _
      simp only [hp]
      rcases kmalloc_spec hplaced.wf (n := TASK_STACK_SIZE) (by decide) with
        hk | ⟨c, bs', hq, hsize', hplaced'⟩
      · obtain ⟨bs'', hwf', hused⟩ := hplaced.undo
        simp only [hk, or_true, if_true]
        refine Or.inl ⟨_, bs'', rfl, ?_, hused⟩
        rw [kfreeNonNull, if_neg (by simp), kfreeNonNull, if_pos hb0]
        exact hwf'
      · have hseg : StackSeg bs' (b.addr + 16) :=
          (hplaced.stackSeg hsize).mono fun d hd => (hplaced'.used d).mpr (Or.inl hd)
        refine Or.inr ⟨b, c, _, bs₁, bs', _, Nat.lt_of_not_le hmax, hsize, hsize', hplaced,
          hplaced'.pushFrame hseg (ring3Frame_fits (stackTop (c.addr + 16)) entry), ?_⟩
        simp only [hq]
        exact if_neg (by omega)

end Create

section Steps

variable {sys sys' : TaskSys} {taskExitAddr : BitVec 32}

theorem count_ne_noTask {n : Nat} (h : n < MAX_TASKS) : n ≠ noTask := by
  simp only [MAX_TASKS] at h
  simp only [noTask]
  omega

theorem addStacks_create (s : Sched) (t : Task) (hroom : s.count < MAX_TASKS) (live : List Nat) :
    addStacks (setTask (setCount s (s.count + 1)) s.count t) s.count live = t.stacks ++ live := by
  rw [addStacks, if_neg (count_ne_noTask hroom), setTask_self]

theorem kernelTask_stacks (id : Nat) {st : Nat} (hst : st ≠ 0) (name : Option String) :
    (kernelTask id st name).stacks = [st] := by
  simp [Task.stacks, kernelTask, hst]

theorem userTask_stacks (id : Nat) {kst ust : Nat} (hk : kst ≠ 0) (hu : ust ≠ 0)
    (name : Option String) : (userTask id kst ust name).stacks = [kst, ust] := by
  simp [Task.stacks, userTask, hk, hu]

theorem create_taskInv (h : TaskInv sys) (entry : BitVec 32) (name : Option String) :
    TaskInv (sys.created taskExitAddr entry name) := by
  obtain ⟨bs, hwf, hh, hinv⟩ := h
  rw [TaskSys.created]
  rcases taskCreate_spec taskExitAddr hwf entry name with
    heq | ⟨b, bs', h', hroom, hsize, hp, heq⟩
  · rw [heq]
    exact ⟨bs, hwf, hh, hinv⟩
  · rw [heq]
    have hb0 : b.addr + 16 ≠ 0 := Nat.succ_ne_zero _
    have hstacks := kernelTask_stacks sys.sched.count hb0 name
    have hseg := hp.stackSeg hsize
    refine ⟨bs', hp.wf, ?_, hinv.create hroom rfl rfl hb0 (hseg.stackTop_eq hp.wf) ?_ ?_⟩
    · dsimp only
      rw [addStacks_create _ _ hroom, hstacks]
      exact hp.holds hh
    · rw [hstacks]
      intro p hmem
      rcases List.mem_append.mp hmem with hold | hnew
      · exact (hinv.segs p hold).mono fun d hd => (hp.used d).mpr (Or.inl hd)
      · rw [List.mem_singleton.mp hnew]
        exact hseg
    · rw [hstacks]
      refine List.nodup_append.mpr ⟨hinv.nodup, List.nodup_singleton _, fun p hold q hnew => ?_⟩
      rw [List.mem_singleton.mp hnew]
      exact hp.fresh_stack (hinv.segs p hold)

theorem createUser_taskInv (h : TaskInv sys) (entry : BitVec 32) (name : Option String) :
    TaskInv (sys.userCreated entry name) := by
  obtain ⟨bs, hwf, hh, hinv⟩ := h
  rw [TaskSys.userCreated]
  rcases taskCreateUser_spec (s := sys.sched) hwf sys.vmm entry name with
    ⟨h', bs', heq, hwf', hused⟩ | ⟨b, c, h₁, bs₁, bs', h', hroom, hsize, hsize', hp, hp', heq⟩
  · rw [heq]
    refine ⟨bs', hwf', ⟨hh.nodup, fun p => ?_⟩, hinv.heap fun p hp => ?_⟩
    · show p ∈ sys.run.live ↔ _
      simp only [hh.mem_iff, hused]
    · exact (hinv.segs p hp).mono fun d hd => (hused d).mpr hd
  · rw [heq]
    have hb0 : b.addr + 16 ≠ 0 := Nat.succ_ne_zero _
    have hstacks := userTask_stacks sys.sched.count hb0 (Nat.succ_ne_zero (c.addr + 15)) name
    have hseg := hp.stackSeg hsize
    have hmono : ∀ d ∈ used bs₁, d ∈ used bs' := fun d hd => (hp'.used d).mpr (Or.inl hd)
    have hold : ∀ p ∈ sys.sched.stackList, StackSeg bs₁ p := fun p hmem =>
      (hinv.segs p hmem).mono fun d hd => (hp.used d).mpr (Or.inl hd)
    refine ⟨bs', hp'.wf, ?_, hinv.create hroom rfl rfl hb0 (hseg.stackTop_eq hp.wf) ?_ ?_⟩
    · dsimp only
      rw [addStacks_create _ _ hroom, hstacks]
      exact (hp'.holds (hp.holds hh)).perm (.swap ..)
    · rw [hstacks]
      intro p hmem
      rcases List.mem_append.mp hmem with hmem | hnew
      · exact (hold p hmem).mono hmono
      · rcases List.mem_pair.mp hnew with rfl | rfl
        · exact hseg.mono hmono
        · exact hp'.stackSeg hsize'
    · rw [hstacks]
      refine List.nodup_append.mpr ⟨hinv.nodup, ?_, fun p hmem q hnew => ?_⟩
      · exact List.nodup_cons.mpr ⟨fun heq => hp'.fresh_stack hseg (List.mem_singleton.mp heq),
          List.nodup_singleton _⟩
      · rcases List.mem_pair.mp hnew with rfl | rfl
        · exact hp.fresh_stack (hinv.segs p hmem)
        · exact hp'.fresh_stack (hold p hmem)

theorem client_taskInv (h : TaskInv sys) {r : HeapRun} (hstep : HeapStep sys.run r)
    (hkeep : ∀ p ∈ sys.sched.stackList, p ∈ r.live) : TaskInv { sys with run := r } := by
  obtain ⟨bs, hwf, hh, hinv⟩ := h
  obtain ⟨bs', hkept⟩ := heapStep_kept hwf hh hstep
  refine ⟨bs', hkept.wf, hkept.holds, hinv.heap fun p hp => ?_⟩
  obtain ⟨b, hb, rfl, hsize⟩ := hinv.segs p hp
  exact ⟨b, hkept.same b hb (hkeep _ hp), rfl, hsize⟩

theorem taskStep_inv (h : TaskInv sys) (hstep : TaskStep taskExitAddr sys sys') :
    TaskInv sys' := by
  cases hstep with
  | create entry name => exact create_taskInv h entry name
  | createUser entry name => exact createUser_taskInv h entry name
  | exit esp =>
      obtain ⟨bs, hwf, hh, hinv⟩ := h
      exact ⟨bs, hwf, hh, hinv.exit esp⟩
  | request =>
      obtain ⟨bs, hwf, hh, hinv⟩ := h
      exact ⟨bs, hwf, hh, hinv.request⟩
  | schedule esp =>
      obtain ⟨bs, hwf, hh, hinv⟩ := h
      exact ⟨bs, hwf, hh, hinv.schedule esp⟩
  | client r hstep hkeep => exact client_taskInv h hstep hkeep

theorem taskReach_inv (h : TaskReach taskExitAddr sys) : TaskInv sys := by
  induction h with
  | init s r hr v =>
      obtain ⟨bs, hwf, hh⟩ := heapReach_inv hr
      exact ⟨bs, hwf, hh, taskInit_stackInv _ bs⟩
  | step _ hstep ih => exact taskStep_inv ih hstep

end Steps

/-! ## Entries from ring 3 -/

/-- `kernel_stack_top` of task `i` is the end of a stack that is a heap block in use,
which no other task has and which is not the task's own user stack. -/
structure OwnStack (sys : TaskSys) (i : Nat) : Prop where
  live : (sys.sched.tasks i).stackBase ∈ sys.run.live
  size : TASK_STACK_SIZE ≤
    blockSize sys.run.heap.mem ((sys.sched.tasks i).stackBase - sizeofBlock)
  top : (sys.sched.tasks i).kernelStackTop = (sys.sched.tasks i).stackBase + TASK_STACK_SIZE
  own : ∀ j < sys.sched.count, j ≠ i →
    (sys.sched.tasks i).stackBase ∉ (sys.sched.tasks j).stacks
  kernel : (sys.sched.tasks i).stackBase ≠ (sys.sched.tasks i).userStackBase

theorem ownStack_of_inv {sys : TaskSys} {bs : List Seg} (hwf : HeapWf sys.run.heap bs)
    (hh : Holds sys.run.live bs) (hinv : StackInv sys.sched bs) {i : Nat}
    (hi : i < sys.sched.count) (huser : (sys.sched.tasks i).isUser = true) : OwnStack sys i := by
  obtain ⟨hbase, htop⟩ := hinv.user_made hi huser
  have hmem := stackBase_mem hbase
  obtain ⟨b, hb, hst, hsize⟩ := hinv.segs _ (mem_stackList hi hmem)
  refine ⟨(hh.mem_iff _).mpr ⟨b, hb, hst⟩, ?_, htop, fun j hj hne => ?_, fun heq => ?_⟩
  · rw [hst, show b.addr + 16 - sizeofBlock = b.addr from Nat.add_sub_cancel ..,
      hwf.size_at (List.mem_filter.mp hb).1]
    exact hsize
  · exact stacks_apart hinv.nodup hi hj hne hmem
  · have hnodup := (List.nodup_flatMap.mp hinv.nodup).1 i (List.mem_range.mpr hi)
    simp [Task.stacks, ← heq, hbase] at hnodup

/-- Whenever a user task is current, `TSS.ESP0` is the top of its own kernel stack. A
switch to task 0 leaves `TSS.ESP0` as it was. -/
theorem ring3_entry_stack {taskExitAddr : BitVec 32} {sys : TaskSys}
    (h : TaskReach taskExitAddr sys) :
    ((sys.sched.tasks sys.sched.current).isUser = true →
        sys.sched.tssEsp0 = (sys.sched.tasks sys.sched.current).kernelStackTop ∧
          OwnStack sys sys.sched.current) ∧
      ∀ esp, (taskScheduleIfNeeded sys.sched esp).2.current = 0 →
        (taskScheduleIfNeeded sys.sched esp).2.tssEsp0 = sys.sched.tssEsp0 := by
  obtain ⟨bs, hwf, hh, hinv⟩ := taskReach_inv h
  have hc := hinv.table.current_lt
  refine ⟨fun huser => ⟨hinv.esp0 huser, ownStack_of_inv hwf hh hinv hc huser⟩, fun esp h0 => ?_⟩
  rcases schedule_tssEsp0 hc esp with ⟨-, hesp⟩ | hesp
  · exact hesp
  · rw [hesp, h0, if_neg fun hne => hne hinv.boot.1]

/-- After `gdt_init` and `task_init` on an empty heap. -/
def bootSys : TaskSys :=
  ⟨taskInit (gdtInit ⟨fun _ => zeroTask, 0, 0, false, false, 0xDEAD⟩),
    ⟨heapInit fun _ => 0#8, []⟩, ⟨fun _ => 0#8, fun _ => 0#32, 0, 0, 0, Pmm.static fun _ => 0#32⟩⟩

/-- A user task is created and entered. -/
def userSys : TaskSys :=
  let sys := bootSys.userCreated 0x1000#32 none
  let sys := sys.withSched (taskRequestReschedule sys.sched)
  sys.withSched (taskScheduleIfNeeded sys.sched 0x9000).2

theorem ring3_entry_stack_first : userSys.sched.current = 1 ∧ OwnStack userSys 1 :=
  have hreach : TaskReach 0#32 userSys :=
    (((TaskReach.init _ _ (.init fun _ => 0#8) _).step (.createUser _ _ _)).step (.request _)).step
      (.schedule _ _)
  have hcur : userSys.sched.current = 1 := by decide +kernel
  ⟨hcur, hcur ▸ ((ring3_entry_stack hreach).1 (by decide +kernel)).2⟩

end Matryoshka
