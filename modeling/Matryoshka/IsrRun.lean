import Matryoshka.Isr
import Matryoshka.SchedRun

/-!
# Context switches are transparent

Runs of the kernel seen from the interrupt path: tasks execute, are
interrupted by the timer, the keyboard, `INT 0x80` or `INT 0x81`, possibly
inside a system call, and are resumed by `isr_common_stub`. The abstract
view of such a run is one stack of contexts per task: an interruption
pushes the registers of the current task, `INT 0x80` replaces `eax` by its
result when it returns, a creation pushes a start at the entry, and a
resumption pops. `context_switch_transparent` says that the frames in
memory, the saved stack pointers and `TSS.ESP0` implement that view.

The assumptions are those of a kernel without memory protection between
its threads. Stacks do not overlap, and what a task executes, in a system
call or outside, changes no byte of another task's stacks. A stack pointer
stays inside its own stack. The code of the handlers writes no saved frame
but for the result of a system call, with one exception: `sys_read` stores
its character wherever its caller points it to, and a task may point it at
its own frame. Runs are therefore relative to a condition on the buffers of
reads; `read_corrupts_frame` is what happens without one.
-/

namespace Matryoshka

open ByteMem Stack

/-! ## State -/

/-- What is fixed when the kernel is linked and started; the boot task runs on the stack
`[bootLo, bootHi)`. -/
structure IsrParams where
  taskExitAddr : BitVec 32
  isrHandlerAddr : BitVec 32
  bootLo : Nat
  bootHi : Nat

/-- `active` lists the frames of the system calls a task is in, innermost first. `ctxs` and
`fresh` are the abstract view: the contexts of a task that wait to be restored, and
the entry of a task that has not run yet. -/
structure Isr where
  cpu : Cpu
  heap : Heap
  sched : Sched
  active : Nat → List Nat
  ctxs : Nat → List Ctx
  fresh : Nat → Option (BitVec 32)

def stackLo (p : IsrParams) (s : Sched) (i : Nat) : Nat :=
  if i = 0 then p.bootLo else (s.tasks i).stackBase

def stackHi (p : IsrParams) (s : Sched) (i : Nat) : Nat :=
  if i = 0 then p.bootHi else (s.tasks i).kernelStackTop

/-- The bytes of the kernel stack and the user stack of a task. -/
def InStack (p : IsrParams) (s : Sched) (i x : Nat) : Prop :=
  (stackLo p s i ≤ x ∧ x < stackHi p s i) ∨
    ((s.tasks i).isUser = true ∧ (s.tasks i).userStackBase ≤ x ∧
      x < (s.tasks i).userStackBase + TASK_STACK_SIZE)

/-- Stacks do not overlap and do not wrap around. -/
structure StacksOk (p : IsrParams) (s : Sched) : Prop where
  apart : ∀ i j, i < s.count → j < s.count → i ≠ j → ∀ x, InStack p s i x → ¬InStack p s j x
  fits : ∀ i, i < s.count → i ≠ 0 → (s.tasks i).stackBase + TASK_STACK_SIZE < 2 ^ 32

/-- What the current task executes leaves the stacks of the others alone. -/
def KeepsOthers (p : IsrParams) (sys : Isr) (m : Mem) : Prop :=
  ∀ i, i < sys.sched.count → i ≠ sys.sched.current → ∀ x, InStack p sys.sched i x →
    m x = sys.heap.mem x

/-- The code of a handler leaves the frames `fs` alone, too. -/
structure KeepsStacks (p : IsrParams) (sys : Isr) (fs : List Nat) (m : Mem) : Prop where
  others : KeepsOthers p sys m
  frames : ∀ a ∈ fs, ∀ x, a ≤ x → x < a + frameBytes (frameWord sys.heap.mem a 12) →
    m x = sys.heap.mem x

/-- Where the frames `fs` leave off. -/
def limit (hi : Nat) : List Nat → Nat
  | [] => hi
  | a :: _ => a

/-- In ring 0 the stack pointer is inside the stack of the task, below the frames in
progress, with room for one more. -/
def HasRoom (p : IsrParams) (sys : Isr) : Prop :=
  ring3 sys.cpu.cs = false →
    stackLo p sys.sched sys.sched.current + 56 ≤ sys.cpu.esp.toNat ∧
      sys.cpu.esp.toNat ≤
        limit (stackHi p sys.sched sys.sched.current) (sys.active sys.sched.current)

/-! ## Steps -/

inductive Irq
  | timer
  | keyboard
  | yield

def Irq.vector : Irq → BitVec 32
  | timer => 32#32
  | keyboard => 33#32
  | yield => 129#32

/-- Hardware interrupts need `IF`; the gate of `INT 0x81` is closed to ring 3. -/
def Irq.Enabled (c : Cpu) : Irq → Prop
  | timer => c.eflags.getLsbD 9 = true
  | keyboard => c.eflags.getLsbD 9 = true
  | yield => ring3 c.cs = false

/-- The frame an interruption of the current task is saved in. -/
def Isr.frame (sys : Isr) : Nat := entryFrame sys.cpu sys.sched.tssEsp0

/-- The address is in no frame of a system call the current task is in. -/
def Isr.Outside (sys : Isr) (buf : Nat) : Prop :=
  ∀ a ∈ sys.active sys.sched.current,
    buf < a ∨ a + frameBytes (frameWord sys.heap.mem a 12) ≤ buf

/-- The frame at `a` restores `x` and lies between `lo` and the frames `as`; only the
outermost frame of a created task belongs to ring 3. -/
structure FrameAt (m : Mem) (lo hi : Nat) (created : Prop) (a : Nat) (x : Ctx) (as : List Nat) :
    Prop where
  read : readCtx m a = x
  lower : lo ≤ a
  upper : a + frameBytes x.cs ≤ limit hi as
  outer : ring3 x.cs = true → as = [] ∧ created

/-- The frames at the addresses restore the contexts, one by one. -/
def Chain (m : Mem) (lo hi : Nat) (created : Prop) : List Nat → List Ctx → Prop
  | [], [] => True
  | a :: as, x :: xs => FrameAt m lo hi created a x as ∧ Chain m lo hi created as xs
  | _, _ => False

section Chain

variable {m m' : Mem} {lo hi a : Nat} {created : Prop} {as : List Nat} {xs : List Ctx}

theorem Chain.uncons (h : Chain m lo hi created (a :: as) xs) :
    ∃ x tail, xs = x :: tail ∧ FrameAt m lo hi created a x as ∧ Chain m lo hi created as tail := by
  cases xs with
  | nil => cases h
  | cons x tail => exact ⟨x, tail, rfl, h.1, h.2⟩

theorem Chain.limit_le : ∀ {as : List Nat} {xs : List Ctx}, Chain m lo hi created as xs →
    limit hi as ≤ hi
  | [], _, _ => Nat.le_refl _
  | a :: as, xs, h => by
      obtain ⟨x, tail, -, hf, ht⟩ := h.uncons
      have hup := hf.upper
      have hle := ht.limit_le
      rw [limit]
      omega

theorem Chain.mem_bounds : ∀ {as : List Nat} {xs : List Ctx}, Chain m lo hi created as xs →
    ∀ a ∈ as, lo ≤ a ∧ a + frameBytes (frameWord m a 12) ≤ hi
  | b :: as, xs, h, a, ha => by
      obtain ⟨x, tail, -, hf, ht⟩ := h.uncons
      rcases List.mem_cons.mp ha with rfl | ha
      · have hup := hf.upper
        rw [← hf.read, readCtx_cs] at hup
        exact ⟨hf.lower, Nat.le_trans hup ht.limit_le⟩
      · exact ht.mem_bounds a ha

theorem Chain.congr : ∀ {as : List Nat} {xs : List Ctx}, Chain m lo hi created as xs →
    (∀ a ∈ as, ∀ x, a ≤ x → x < a + frameBytes (frameWord m a 12) → m' x = m x) →
    Chain m' lo hi created as xs
  | [], [], _, _ => trivial
  | a :: as, xs, h, hm => by
      obtain ⟨x, tail, rfl, hf, ht⟩ := h.uncons
      refine ⟨⟨?_, hf.lower, hf.upper, hf.outer⟩,
        ht.congr fun b hb => hm b (List.mem_cons_of_mem _ hb)⟩
      rw [readCtx_congr (hm a (List.mem_cons_self ..)), hf.read]

/-- Memory that agrees on the whole stack keeps its frames. -/
theorem Chain.congr_stack (h : Chain m lo hi created as xs)
    (hm : ∀ x, lo ≤ x → x < hi → m' x = m x) : Chain m' lo hi created as xs :=
  h.congr fun a ha x h1 h2 => by
    have := h.mem_bounds a ha
    exact hm x (by omega) (by omega)

end Chain

/-- What holds while the frames `cur` of the current task are in place. -/
structure IsrCore (p : IsrParams) (sys : Isr) (cur : List Nat) : Prop where
  current_lt : sys.sched.current < sys.sched.count
  apart : StacksOk p sys.sched
  slots : ∀ i, i < sys.sched.count → i ≠ 0 →
    (sys.sched.tasks i).kernelStackTop = stackTop (sys.sched.tasks i).stackBase
  tss : sys.sched.current ≠ 0 →
    sys.sched.tssEsp0 = (sys.sched.tasks sys.sched.current).kernelStackTop
  unborn : ∀ i, sys.sched.count ≤ i → sys.active i = []
  chain_current : Chain sys.heap.mem (stackLo p sys.sched sys.sched.current)
    (stackHi p sys.sched sys.sched.current) (sys.sched.current ≠ 0) cur
    (sys.ctxs sys.sched.current)
  chain : ∀ i, i < sys.sched.count → i ≠ sys.sched.current →
    Chain sys.heap.mem (stackLo p sys.sched i) (stackHi p sys.sched i) (i ≠ 0)
      ((sys.sched.tasks i).esp :: sys.active i) (sys.ctxs i)
  fresh : ∀ i entry, sys.fresh i = some entry →
    i ≠ 0 ∧ i < sys.sched.count ∧ i ≠ sys.sched.current ∧
      sys.ctxs i = [initialCtx (sys.sched.tasks i) entry] ∧
      ((sys.sched.tasks i).isUser = false →
        load32 sys.heap.mem ((sys.sched.tasks i).kernelStackTop - 4) = p.taskExitAddr)

/-- Ring 3 runs on an empty kernel stack. -/
structure IsrInv (p : IsrParams) (sys : Isr) : Prop where
  core : IsrCore p sys (sys.active sys.sched.current)
  ring : ring3 sys.cpu.cs = true → sys.active sys.sched.current = [] ∧ sys.sched.current ≠ 0

section Core

variable {p : IsrParams} {sys : Isr} {cur : List Nat}

theorem IsrCore.top (h : IsrCore p sys cur) {i : Nat} (hi : i < sys.sched.count) (h0 : i ≠ 0) :
    stackLo p sys.sched i = (sys.sched.tasks i).stackBase ∧
      stackHi p sys.sched i = (sys.sched.tasks i).stackBase + 4096 ∧
      (sys.sched.tasks i).kernelStackTop = (sys.sched.tasks i).stackBase + 4096 := by
  have hfit := h.apart.fits i hi h0
  have hslot := h.slots i hi h0
  rw [stackTop, u32_of_lt hfit] at hslot
  refine ⟨if_neg h0, ?_, hslot⟩
  rw [stackHi, if_neg h0, hslot]
  rfl

/-- A change to the memory and to the contexts of the current task that leaves the other
stacks alone. -/
theorem IsrCore.update (h : IsrCore p sys cur) {heap : Heap} {cur' : List Nat} {xs : List Ctx}
    (hothers : KeepsOthers p sys heap.mem)
    (hchain : Chain heap.mem (stackLo p sys.sched sys.sched.current)
      (stackHi p sys.sched sys.sched.current) (sys.sched.current ≠ 0) cur' xs) :
    IsrCore p { sys with
      heap := heap
      ctxs := Function.update sys.ctxs sys.sched.current xs } cur' := by
  refine ⟨h.current_lt, h.apart, h.slots, h.tss, h.unborn, ?_, fun i hi hne => ?_,
    fun i entry hf => ?_⟩
  · rwa [← Function.update_self sys.sched.current xs sys.ctxs] at hchain
  · have hother := h.chain i hi hne
    rw [← Function.update_of_ne hne xs sys.ctxs] at hother
    exact hother.congr_stack fun x h1 h2 => hothers i hi hne x (Or.inl ⟨h1, h2⟩)
  · obtain ⟨h0, hi, hne, hctx, hret⟩ := h.fresh i entry hf
    refine ⟨h0, hi, hne, (Function.update_of_ne hne ..).trans hctx, fun hu => ?_⟩
    obtain ⟨hlo, hhi, htop⟩ := h.top hi h0
    rw [← hret hu]
    show load32 heap.mem ((sys.sched.tasks i).kernelStackTop - 4) = _
    exact load32_congr fun x h1 h2 => hothers i hi hne x (Or.inl (by omega))

/-- Code of the current task that keeps the stacks keeps the invariant. -/
theorem IsrCore.keeps (h : IsrCore p sys cur) {heap : Heap}
    (hkeep : KeepsStacks p sys cur heap.mem) : IsrCore p { sys with heap := heap } cur := by
  have hcore := h.update hkeep.others (h.chain_current.congr hkeep.frames)
  rwa [Function.update_eq_self] at hcore

section Layout

variable {s s' : Sched} {i : Nat}

theorem SameLayout.stackLo (h : SameLayout s s') (p : IsrParams) (i : Nat) :
    stackLo p s' i = stackLo p s i := by
  rw [Matryoshka.stackLo, Matryoshka.stackLo, (h.slots i).1]

theorem SameLayout.stackHi (h : SameLayout s s') (p : IsrParams) (i : Nat) :
    stackHi p s' i = stackHi p s i := by
  rw [Matryoshka.stackHi, Matryoshka.stackHi, (h.slots i).2.2.1]

theorem SameLayout.inStack (h : SameLayout s s') (p : IsrParams) (i x : Nat) :
    InStack p s' i x ↔ InStack p s i x := by
  rw [InStack, InStack, h.stackLo, h.stackHi, (h.slots i).2.1, (h.slots i).2.2.2]

theorem SameLayout.stacksOk (h : SameLayout s s') (hok : StacksOk p s) : StacksOk p s' := by
  refine ⟨fun i j hi hj hne x => ?_, fun i hi h0 => ?_⟩
  · rw [h.inStack, h.inStack]
    exact hok.apart i j (h.count ▸ hi) (h.count ▸ hj) hne x
  · rw [(h.slots i).1]
    exact hok.fits i (h.count ▸ hi) h0

theorem SameLayout.initialCtx (h : SameLayout s s') (i : Nat) (entry : BitVec 32) :
    initialCtx (s'.tasks i) entry = initialCtx (s.tasks i) entry := by
  rw [Matryoshka.initialCtx, Matryoshka.initialCtx, (h.slots i).2.1, (h.slots i).2.2.1,
    (h.slots i).2.2.2]

end Layout

/-- Changes to the scheduler that leave the stack pointers alone. -/
theorem IsrCore.sched (h : IsrCore p sys cur) {s : Sched} (hl : SameLayout sys.sched s)
    (hcurrent : s.current = sys.sched.current) (htss : s.tssEsp0 = sys.sched.tssEsp0)
    (hesp : ∀ i, (s.tasks i).esp = (sys.sched.tasks i).esp) :
    IsrCore p { sys with sched := s } cur := by
  have hcount := hl.count
  have htop := fun i => (hl.slots i).2.2.1
  refine ⟨?_, hl.stacksOk h.apart, fun i hi h0 => ?_, fun h0 => ?_, fun i hi => ?_, ?_,
    fun i hi hne => ?_, fun i entry hf => ?_⟩
  · rw [hcurrent, hcount]
    exact h.current_lt
  · rw [htop, (hl.slots i).1]
    exact h.slots i (hcount ▸ hi) h0
  · rw [hcurrent] at h0 ⊢
    rw [htss, htop]
    exact h.tss h0
  · exact h.unborn i (hcount ▸ hi)
  · rw [hcurrent, hl.stackLo, hl.stackHi]
    exact h.chain_current
  · rw [hl.stackLo, hl.stackHi, hesp]
    exact h.chain i (hcount ▸ hi) (hcurrent ▸ hne)
  · obtain ⟨h0, hi, hne, hctx, hret⟩ := h.fresh i entry hf
    refine ⟨h0, hcount ▸ hi, hcurrent ▸ hne, ?_, fun hu => ?_⟩
    · rw [hl.initialCtx]
      exact hctx
    · rw [htop]
      exact hret ((hl.slots i).2.2.2 ▸ hu)

/-! ## Saving and resuming -/

/-- Where the processor puts the frame of the current task. -/
theorem IsrInv.frame_bounds (h : IsrInv p sys) (hroom : HasRoom p sys) :
    frameBytes sys.cpu.cs ≤ entryStack sys.cpu sys.sched.tssEsp0 ∧
      stackLo p sys.sched sys.sched.current ≤ sys.frame ∧
      entryStack sys.cpu sys.sched.tssEsp0 ≤
        limit (stackHi p sys.sched sys.sched.current) (sys.active sys.sched.current) := by
  rw [Isr.frame, entryFrame, frameBytes, entryStack]
  cases hr : ring3 sys.cpu.cs with
  | false =>
      obtain ⟨hlo, hhi⟩ := hroom hr
      simp only [Bool.false_eq_true, if_false]
      exact ⟨by omega, by omega, hhi⟩
  | true =>
      obtain ⟨hactive, h0⟩ := h.ring hr
      obtain ⟨hlo, hhi, htop⟩ := h.core.top h.core.current_lt h0
      simp only [if_true]
      rw [hactive, limit, h.core.tss h0, hlo, hhi, htop]
      exact ⟨by omega, by omega, Nat.le_refl _⟩

/-- After a switch the old task waits on its frame and the frames of the new one are those
of its system calls. -/
theorem IsrCore.switch {frame next : Nat}
    (h : IsrCore p sys (frame :: sys.active sys.sched.current)) (hn : next ≠ sys.sched.current)
    (hlt : next < sys.sched.count) {xs : List Ctx}
    (hchain : Chain sys.heap.mem (stackLo p sys.sched next) (stackHi p sys.sched next) (next ≠ 0)
      (sys.active next) xs) :
    IsrCore p { sys with
      sched := switchIn (switchOut { sys.sched with needReschedule := false } frame) next
      ctxs := Function.update sys.ctxs next xs
      fresh := Function.update sys.fresh next none } (sys.active next) := by
  have hl := switched_layout_flag hn frame
  have hcount := hl.count
  have hcurrent : (switchIn (switchOut { sys.sched with needReschedule := false } frame)
      next).current = next := switchIn_current
  have htasks := switch_tasks (s := sys.sched) false frame next
  have htop := fun i => (hl.slots i).2.2.1
  have htss : next ≠ 0 → (switchIn (switchOut { sys.sched with needReschedule := false } frame)
      next).tssEsp0 = (sys.sched.tasks next).kernelStackTop := fun h0 => by
    have hout : (switchOut { sys.sched with needReschedule := false } frame).tasks next =
        sys.sched.tasks next := switchOut_of_ne hn
    have hpos : (sys.sched.tasks next).kernelStackTop ≠ 0 := by
      have := (h.top hlt h0).2.2
      omega
    rw [switchIn_tssEsp0, hout, if_pos hpos]
  generalize switchIn (switchOut { sys.sched with needReschedule := false } frame) next = s' at *
  refine ⟨?_, hl.stacksOk h.apart, fun i hi h0 => ?_, fun h0 => ?_, fun i hi => ?_, ?_,
    fun i hi hne => ?_, fun i entry hf => ?_⟩
  · rw [hcurrent, hcount]
    exact hlt
  · rw [htop, (hl.slots i).1]
    exact h.slots i (hcount ▸ hi) h0
  · dsimp only at h0 ⊢
    rw [hcurrent] at h0 ⊢
    rw [htss h0, htop]
  · exact h.unborn i (hcount ▸ hi)
  · dsimp only
    rw [hcurrent, hl.stackLo, hl.stackHi, Function.update_self]
    exact hchain
  · dsimp only at hi hne ⊢
    rw [hcurrent] at hne
    rw [hcount] at hi
    rw [hl.stackLo, hl.stackHi, htasks, Function.update_of_ne hne]
    by_cases hic : i = sys.sched.current
    · rw [hic, switched_current hn]
      exact h.chain_current
    · rw [switched_of_ne hic hne]
      exact h.chain i hi hic
  · dsimp only at hf ⊢
    by_cases hin : i = next
    · rw [hin, Function.update_self] at hf
      cases hf
    · rw [Function.update_of_ne hin] at hf
      obtain ⟨h0, hi, -, hctx, hret⟩ := h.fresh i entry hf
      rw [hcount, hcurrent, hl.initialCtx, htop, (hl.slots i).2.2.2, Function.update_of_ne hin]
      exact ⟨h0, hi, hin, hctx, hret⟩

/-- A new slot leaves the others and their kernel stacks as they were. -/
theorem added_of_ne (p : IsrParams) {s : Sched} (t : Task) {i : Nat} (hi : i ≠ s.count) :
    (setTask (setCount s (s.count + 1)) s.count t).tasks i = s.tasks i
      ∧ stackLo p (setTask (setCount s (s.count + 1)) s.count t) i = stackLo p s i
      ∧ stackHi p (setTask (setCount s (s.count + 1)) s.count t) i = stackHi p s i := by
  have hold : (setTask (setCount s (s.count + 1)) s.count t).tasks i = s.tasks i :=
    setTask_of_ne hi
  refine ⟨hold, ?_, ?_⟩
  · rw [stackLo, stackLo, hold]
  · rw [stackHi, stackHi, hold]

/-- A new slot with a complete initial frame joins the table. -/
theorem IsrCore.create (h : IsrCore p sys cur) {t : Task} {entry : BitVec 32} {heap : Heap}
    (hkeep : KeepsStacks p sys cur heap.mem)
    (hok : StacksOk p (setTask (setCount sys.sched (sys.sched.count + 1)) sys.sched.count t))
    (htop : t.kernelStackTop = stackTop t.stackBase)
    (hframe : FrameAt heap.mem t.stackBase t.kernelStackTop True t.esp (initialCtx t entry) [])
    (hret : t.isUser = false → load32 heap.mem (t.kernelStackTop - 4) = p.taskExitAddr) :
    IsrCore p { sys with
      sched := setTask (setCount sys.sched (sys.sched.count + 1)) sys.sched.count t
      heap := heap
      ctxs := Function.update sys.ctxs sys.sched.count [initialCtx t entry]
      fresh := Function.update sys.fresh sys.sched.count (some entry) } cur := by
  have hlt := h.current_lt
  have hcore := h.keeps hkeep
  have hnew : (setTask (setCount sys.sched (sys.sched.count + 1)) sys.sched.count t).tasks
      sys.sched.count = t := setTask_self
  have hc : sys.sched.current ≠ sys.sched.count := Nat.ne_of_lt hlt
  obtain ⟨hcold, hclo, hchi⟩ := added_of_ne p t hc
  refine ⟨Nat.lt_succ_of_lt hlt, hok, fun i hi h0 => ?_, fun h0 => ?_, fun i hi => ?_, ?_,
    fun i hi hne => ?_, fun i e hf => ?_⟩
  · by_cases hin : i = sys.sched.count
    · rw [hin, hnew, htop]
    · have hi' : i < sys.sched.count + 1 := hi
      rw [(added_of_ne p t hin).1]
      exact h.slots i (by omega) h0
  · show sys.sched.tssEsp0 = ((setTask _ _ t).tasks sys.sched.current).kernelStackTop
    rw [hcold]
    exact h.tss h0
  · have hi' : sys.sched.count + 1 ≤ i := hi
    exact h.unborn i (by omega)
  · show Chain heap.mem (stackLo p _ sys.sched.current) (stackHi p _ sys.sched.current) _ cur
      (Function.update sys.ctxs sys.sched.count _ sys.sched.current)
    rw [hclo, hchi, Function.update_of_ne hc]
    exact hcore.chain_current
  · have hi' : i < sys.sched.count + 1 := hi
    dsimp only
    by_cases hin : i = sys.sched.count
    · have h0 : i ≠ 0 := by omega
      rw [stackLo, stackHi, if_neg h0, if_neg h0, hin, hnew, Function.update_self,
        h.unborn _ (Nat.le_refl _)]
      exact ⟨⟨hframe.read, hframe.lower, hframe.upper, fun _ => ⟨rfl, hin ▸ h0⟩⟩, trivial⟩
    · obtain ⟨hold, hlo, hhi⟩ := added_of_ne p t hin
      rw [hlo, hhi, hold, Function.update_of_ne hin]
      exact hcore.chain i (show i < sys.sched.count by omega) hne
  · dsimp only at hf ⊢
    by_cases hin : i = sys.sched.count
    · rw [hin, Function.update_self] at hf
      obtain rfl := Option.some.inj hf
      rw [hin, hnew, Function.update_self]
      exact ⟨by omega, Nat.lt_succ_self _, hc.symm, rfl, hret⟩
    · rw [Function.update_of_ne hin] at hf
      obtain ⟨h0, hi, hne, hctx, hword⟩ := hcore.fresh i e hf
      rw [(added_of_ne p t hin).1, Function.update_of_ne hin]
      exact ⟨h0, Nat.lt_succ_of_lt hi, hne, hctx, hword⟩

end Core

section Sample

variable {Ok : Isr → Nat → Prop} {buf : BitVec 32}

end Sample

end Matryoshka
