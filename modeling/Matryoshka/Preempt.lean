import Matryoshka.HeapRun
import Matryoshka.SchedRun

/-!
# Task creation under preemption

`task_create` as the sequence of its statements, run by tasks whose
interrupts are enabled: between any two statements the timer may ask for a
reschedule and the scheduler may switch away. Run without interruption the
statements are `taskCreate` (`execAll_createBody`).

`count++` comes first and makes the new slot visible to the scheduler. A
zeroed slot reads as ready with a null stack pointer, so the timer must
not arrive before `tasks[id].esp` is stored. `QuietCreation` rules that
out, together with a second task taking the last slot between the check
and the increment; then every switch goes to a stack pointer that the
scheduler saved or to a complete initial frame.
-/

namespace Matryoshka

open ByteMem Stack Tiling

/-! ## Statements -/

inductive TaskField
  | id
  | esp
  | stackBase
  | userStackBase
  | kernelStackTop
  | state
  | name
  | isUser
deriving Repr, DecidableEq

inductive CreateStmt
  | checkMax
  | incCount
  | alloc
  | checkNull
  | push (w : BitVec 32)
  | store (f : TaskField)
deriving Repr, DecidableEq

/-- The fields stored after `tasks[id].esp`. -/
def lateFields : List TaskField :=
  [.stackBase, .userStackBase, .kernelStackTop, .state, .name, .isUser]

/-- The statements of `task_create(entry, name)` in program order. -/
def createBody (taskExitAddr entry : BitVec 32) : List CreateStmt :=
  .checkMax :: .incCount :: .alloc :: .checkNull ::
    ((ring0Frame taskExitAddr entry).map .push ++ (.id :: .esp :: lateFields).map .store)

/-- An activation of `task_create`: its arguments, its locals and what is left to run. -/
structure CreateCall where
  entry : BitVec 32
  name : Option String
  id : Nat
  stack : Nat
  sp : Nat
  rest : List CreateStmt
deriving Repr, DecidableEq

def storeField (c : CreateCall) (t : Task) : TaskField → Task
  | .id => { t with id := c.id }
  | .esp => { t with esp := c.sp }
  | .stackBase => { t with stackBase := c.stack }
  | .userStackBase => { t with userStackBase := 0 }
  | .kernelStackTop => { t with kernelStackTop := stackTop c.stack }
  | .state => { t with state := .ready }
  | .name => { t with name := c.name }
  | .isUser => { t with isUser := false }

/-- One statement; `none` is a return from `task_create`. -/
def execStmt (c : CreateCall) (s : Sched) (h : Heap) :
    CreateStmt → Option CreateCall × Sched × Heap
  | .checkMax => if MAX_TASKS ≤ s.count then (none, s, h) else (some c, s, h)
  | .incCount => (some { c with id := s.count }, setCount s (s.count + 1), h)
  | .alloc =>
      (some { c with stack := (kmalloc h TASK_STACK_SIZE).1 }, s, (kmalloc h TASK_STACK_SIZE).2)
  | .checkNull =>
      if c.stack = 0 then (none, setCount s (s.count - 1), h)
      else (some { c with sp := stackTop c.stack }, s, h)
  | .push w =>
      (some { c with sp := c.sp - 4 }, s, { h with mem := store32 h.mem (c.sp - 4) w })
  | .store f => (some c, setTask s c.id (storeField c (s.tasks c.id) f), h)

/-- The statements without interruption. -/
def execAll : List CreateStmt → CreateCall → Sched → Heap → Sched × Heap
  | [], _, s, h => (s, h)
  | st :: rest, c, s, h =>
      match execStmt c s h st with
      | (none, s, h) => (s, h)
      | (some c, s, h) => execAll rest c s h

section Body

variable {c : CreateCall} {s : Sched} {h : Heap}

theorem execAll_push (l : List CreateStmt) :
    ∀ (ws : List (BitVec 32)) (c : CreateCall) (h : Heap),
      execAll (ws.map .push ++ l) c s h =
        execAll l { c with sp := c.sp - 4 * ws.length } s { h with mem := pushAll h.mem c.sp ws }
  | [], _, _ => rfl
  | w :: ws, c, h => by
      rw [List.map_cons, List.cons_append, execAll, execStmt]
      dsimp only
      rw [execAll_push l ws, List.length_cons, pushAll,
        show c.sp - 4 - 4 * ws.length = c.sp - 4 * (ws.length + 1) by omega]

theorem execAll_store :
    ∀ (fs : List TaskField) (s : Sched),
      execAll (fs.map .store) c s h =
        (setTask s c.id (fs.foldl (storeField c) (s.tasks c.id)), h)
  | [], s => by
      rw [List.map_nil, execAll, List.foldl_nil, setTask, Function.update_eq_self]
  | f :: fs, s => by
      rw [List.map_cons, execAll, execStmt]
      dsimp only
      rw [execAll_store fs, setTask_self, List.foldl_cons, setTask, setTask,
        Function.update_idem]
      rfl

/-- Uninterrupted, the statements are `task_create`. -/
theorem execAll_createBody (taskExitAddr entry : BitVec 32) (c : CreateCall) (s : Sched)
    (h : Heap) :
    execAll (createBody taskExitAddr entry) c s h =
      (taskCreate taskExitAddr s h entry c.name).2 := by
  rw [createBody, taskCreate]
  by_cases hmax : MAX_TASKS ≤ s.count
  · rw [if_pos hmax, execAll, execStmt, if_pos hmax]
  · rw [if_neg hmax, execAll, execStmt, if_neg hmax]
    simp only [execAll, execStmt]
    by_cases hnull : (kmalloc h TASK_STACK_SIZE).1 = 0
    · rw [if_pos hnull, if_pos hnull]
    · rw [if_neg hnull, if_neg hnull]
      dsimp only
      rw [execAll_push, execAll_store]
      rfl

end Body

/-! ## Interleaving -/

/-- The scheduler, the heap and the activation each task is in; `saved` and `made` are
ghosts: the stack pointer a task was last switched out with, and the entry and
the stack `task_create` gave a task. -/
structure CreateSys where
  sched : Sched
  heap : Heap
  calls : Nat → Option CreateCall
  saved : Nat → Option Nat
  made : Nat → Option (BitVec 32 × Nat)

inductive CreateEvent
  | call (entry : BitVec 32) (name : Option String)
  | stmt
  | timer (esp : Nat)

/-- The timer interrupt: a request, then the scheduler on the interrupt frame. -/
def timerTick (s : Sched) (esp : Nat) : Nat × Sched :=
  taskScheduleIfNeeded (taskRequestReschedule s) esp

def noteMade (c : CreateCall) (made : Nat → Option (BitVec 32 × Nat)) :
    CreateStmt → Nat → Option (BitVec 32 × Nat)
  | .checkNull => if c.stack = 0 then made else Function.update made c.id (some (c.entry, c.stack))
  | _ => made

def afterStmt (sys : CreateSys) (c : CreateCall) (st : CreateStmt) (rest : List CreateStmt) :
    CreateSys :=
  let r := execStmt c sys.sched sys.heap st
  { sched := r.2.1
    heap := r.2.2
    calls := Function.update sys.calls sys.sched.current (r.1.map fun c => { c with rest := rest })
    saved := sys.saved
    made := noteMade c sys.made st }

def afterTimer (sys : CreateSys) (esp : Nat) : CreateSys :=
  let s' := (timerTick sys.sched esp).2
  { sys with
    sched := s'
    saved := if s'.current = sys.sched.current then sys.saved
      else Function.update sys.saved sys.sched.current (some esp) }

def setCall (sys : CreateSys) (c : Option CreateCall) : CreateSys :=
  { sys with calls := Function.update sys.calls sys.sched.current c }

/-- The current task enters `task_create`, runs one statement of it or returns, or the
timer interrupts. -/
inductive CreateStep (taskExitAddr : BitVec 32) (sys : CreateSys) : CreateEvent → CreateSys → Prop
  | call (entry : BitVec 32) (name : Option String)
      (hidle : sys.calls sys.sched.current = none) :
      CreateStep taskExitAddr sys (.call entry name)
        (setCall sys (some ⟨entry, name, 0, 0, 0, createBody taskExitAddr entry⟩))
  | stmt {c : CreateCall} {st : CreateStmt} {rest : List CreateStmt}
      (hcall : sys.calls sys.sched.current = some c) (hrest : c.rest = st :: rest) :
      CreateStep taskExitAddr sys .stmt (afterStmt sys c st rest)
  | ret {c : CreateCall} (hcall : sys.calls sys.sched.current = some c) (hrest : c.rest = []) :
      CreateStep taskExitAddr sys .stmt (setCall sys none)
  | timer (esp : Nat) : CreateStep taskExitAddr sys (.timer esp) (afterTimer sys esp)

/-- States reachable from `task_init` on a working heap through events that satisfy `Ok`. -/
inductive CreateRun (taskExitAddr : BitVec 32) (Ok : CreateSys → CreateEvent → Prop) :
    CreateSys → Prop
  | init (s₀ : Sched) {r : HeapRun} (hr : HeapReach r) :
      CreateRun taskExitAddr Ok ⟨taskInit s₀, r.heap, fun _ => none, fun _ => none, fun _ => none⟩
  | step {sys sys' : CreateSys} {e : CreateEvent} (h : CreateRun taskExitAddr Ok sys)
      (hok : Ok sys e) (hs : CreateStep taskExitAddr sys e sys') : CreateRun taskExitAddr Ok sys'

/-- `esp` is what the scheduler saved, or the lowest word of a complete initial frame. -/
def EspOk (taskExitAddr : BitVec 32) (m : Mem) (saved : Option Nat)
    (made : Option (BitVec 32 × Nat)) (esp : Nat) : Prop :=
  saved = some esp ∨ ∃ entry stack, made = some (entry, stack) ∧
    esp = stackTop stack - 4 * 15 ∧ WordsAt m esp (ring0Frame taskExitAddr entry).reverse

/-- The slot is counted and its stack pointer is still to be stored. -/
def CreateCall.InWindow (c : CreateCall) : Prop :=
  .incCount ∉ c.rest ∧ .store .esp ∈ c.rest

/-- No timer interrupt between `count++` and the store of `tasks[id].esp`, and no
increment past the end of the table. -/
def QuietCreation (sys : CreateSys) : CreateEvent → Prop
  | .call _ _ => True
  | .stmt => ∀ c rest, sys.calls sys.sched.current = some c → c.rest = .incCount :: rest →
      sys.sched.count < MAX_TASKS
  | .timer _ => ∀ i c, sys.calls i = some c → ¬c.InWindow

/-! ## The invariant of quiet runs -/

/-- `st` is the payload of a used block that holds a task stack. -/
def StackSeg (bs : List Seg) (st : Nat) : Prop :=
  ∃ b ∈ used bs, st = b.addr + 16 ∧ TASK_STACK_SIZE ≤ b.size

/-- An activation that has not counted its slot or has stored its stack pointer. -/
def CreateCall.Outside (taskExitAddr : BitVec 32) (c : CreateCall) : Prop :=
  c.rest = createBody taskExitAddr c.entry ∨ c.rest = (createBody taskExitAddr c.entry).tail ∨
    c.rest <:+ lateFields.map .store

/-- What holds of the first `n` slots whatever the current task is in. -/
structure CreateBase (taskExitAddr : BitVec 32) (sys : CreateSys) (bs : List Seg) (n : Nat) :
    Prop where
  wf : HeapWf sys.heap bs
  made : ∀ i entry st, sys.made i = some (entry, st) → StackSeg bs st
  current_lt : sys.sched.current < n
  others : ∀ i c, i ≠ sys.sched.current → sys.calls i = some c → c.Outside taskExitAddr
  settled : ∀ i, i < n → i ≠ sys.sched.current →
    EspOk taskExitAddr sys.heap.mem (sys.saved i) (sys.made i) (sys.sched.tasks i).esp

/-- The stack of the activation is used by no other task. -/
structure FreshStack (sys : CreateSys) (bs : List Seg) (c : CreateCall) : Prop where
  seg : StackSeg bs c.stack
  fresh : ∀ i, i ≠ c.id → ∀ entry st, sys.made i = some (entry, st) → st ≠ c.stack

/-- Where an activation can be between `count++` and the store of `tasks[id].esp`. -/
inductive Window (taskExitAddr : BitVec 32) (sys : CreateSys) (bs : List Seg) (c : CreateCall) :
    Prop
  | counted (hrest : c.rest = (createBody taskExitAddr c.entry).drop 2)
  | allocated (hrest : c.rest = (createBody taskExitAddr c.entry).drop 3)
      (hstack : c.stack ≠ 0 → FreshStack sys bs c)
  | pushing (done todo : List (BitVec 32)) (hframe : ring0Frame taskExitAddr c.entry = done ++ todo)
      (hrest : c.rest = todo.map .push ++ (.id :: .esp :: lateFields).map .store)
      (hstack : FreshStack sys bs c) (hmade : sys.made c.id = some (c.entry, c.stack))
      (hsp : c.sp = stackTop c.stack - 4 * done.length)
      (hwords : WordsAt sys.heap.mem c.sp done.reverse)
  | storing (hrest : c.rest = (.esp :: lateFields).map .store)
      (hok : EspOk taskExitAddr sys.heap.mem none (sys.made c.id) c.sp)

inductive CreateInv (taskExitAddr : BitVec 32) (sys : CreateSys) : Prop
  | quiet (bs : List Seg) (hbase : CreateBase taskExitAddr sys bs sys.sched.count)
      (hmax : sys.sched.count ≤ MAX_TASKS)
      (hcall : ∀ c, sys.calls sys.sched.current = some c → c.Outside taskExitAddr)
  | window (bs : List Seg) (c : CreateCall) (hbase : CreateBase taskExitAddr sys bs c.id)
      (hmax : sys.sched.count ≤ MAX_TASKS) (hid : sys.sched.count = c.id + 1)
      (hcall : sys.calls sys.sched.current = some c) (hwin : Window taskExitAddr sys bs c)

section Inv

variable {taskExitAddr : BitVec 32} {sys sys' : CreateSys} {bs bs' : List Seg} {c c' : CreateCall}
  {n : Nat}

theorem StackSeg.stackTop_eq {h : Heap} {st : Nat} (hs : StackSeg bs st) (hwf : HeapWf h bs) :
    stackTop st = st + 4096 := by
  obtain ⟨b, hb, rfl, hsize⟩ := hs
  have := hwf.lt (List.mem_filter.mp hb).1
  rw [stackTop, TASK_STACK_SIZE, u32_of_lt (by simp only [TASK_STACK_SIZE] at hsize; omega)]

/-- A frame survives writes that miss its stack. -/
theorem EspOk.congr {m m' : Mem} {saved : Option Nat} {made : Option (BitVec 32 × Nat)} {esp : Nat}
    (h : EspOk taskExitAddr m saved made esp)
    (hm : ∀ entry st, made = some (entry, st) →
      ∀ x, stackTop st - 60 ≤ x → x < stackTop st - 60 + 60 → m' x = m x) :
    EspOk taskExitAddr m' saved made esp := by
  rcases h with h | ⟨entry, stack, hmade, hesp, hwords⟩
  · exact Or.inl h
  · exact Or.inr ⟨entry, stack, hmade, hesp,
      hwords.congr fun x h1 h2 => hm entry stack hmade x (hesp ▸ h1) (hesp ▸ h2)⟩

/-- Only the current task's activation and slots from `n` on change. -/
theorem CreateBase.frame (h : CreateBase taskExitAddr sys bs n)
    (hheap : sys'.heap = sys.heap) (hmade : ∀ i, i ≠ n → sys'.made i = sys.made i)
    (hn : ∀ entry st, sys'.made n = some (entry, st) → StackSeg bs st)
    (hsaved : sys'.saved = sys.saved) (hcurrent : sys'.sched.current = sys.sched.current)
    (hcalls : ∀ i, i ≠ sys.sched.current → sys'.calls i = sys.calls i)
    (hesp : ∀ i, i < n → (sys'.sched.tasks i).esp = (sys.sched.tasks i).esp) :
    CreateBase taskExitAddr sys' bs n := by
  refine ⟨hheap ▸ h.wf, fun i entry st hi => ?_, hcurrent ▸ h.current_lt, fun i c hne hc => ?_,
    fun i hi hne => ?_⟩
  · by_cases hin : i = n
    · exact hn entry st (hin ▸ hi)
    · exact h.made i entry st (hmade i hin ▸ hi)
  · rw [hcurrent] at hne
    exact h.others i c hne (hcalls i hne ▸ hc)
  · rw [hcurrent] at hne
    rw [hheap, hsaved, hmade i (by omega), hesp i hi]
    exact h.settled i hi hne

theorem CreateBase.setCall (h : CreateBase taskExitAddr sys bs n) (c : Option CreateCall) :
    CreateBase taskExitAddr (setCall sys c) bs n :=
  h.frame rfl (fun _ _ => rfl) (h.made n) rfl rfl (fun _ hi => Function.update_of_ne hi ..)
    fun _ _ => rfl

theorem setCall_calls (o : Option CreateCall) :
    (setCall sys o).calls (setCall sys o).sched.current = o := Function.update_self ..

theorem afterStmt_calls (st : CreateStmt) (rest : List CreateStmt) :
    (afterStmt sys c st rest).calls sys.sched.current =
      (execStmt c sys.sched sys.heap st).1.map fun c => { c with rest := rest } :=
  Function.update_self ..

theorem call_inv (h : CreateInv taskExitAddr sys) (hidle : sys.calls sys.sched.current = none)
    (entry : BitVec 32) (name : Option String) :
    CreateInv taskExitAddr
      (setCall sys (some ⟨entry, name, 0, 0, 0, createBody taskExitAddr entry⟩)) := by
  cases h with
  | quiet bs hbase hmax hcall =>
      refine .quiet bs (hbase.setCall _) hmax fun c hc => ?_
      rw [setCall_calls] at hc
      obtain rfl := Option.some.inj hc
      exact Or.inl rfl
  | window bs c hbase hmax hid hcall hwin =>
      rw [hidle] at hcall
      cases hcall

theorem ret_inv (h : CreateInv taskExitAddr sys) (hcall : sys.calls sys.sched.current = some c)
    (hrest : c.rest = []) : CreateInv taskExitAddr (setCall sys none) := by
  cases h with
  | quiet bs hbase hmax _ =>
      refine .quiet bs (hbase.setCall none) hmax fun c hc => ?_
      rw [setCall_calls] at hc
      cases hc
  | window bs c' hbase hmax hid hcall' hwin =>
      rw [hcall] at hcall'
      obtain rfl := Option.some.inj hcall'
      cases hwin with
      | counted h => cases h.symm.trans hrest
      | allocated h => cases h.symm.trans hrest
      | pushing done todo _ h =>
          rw [hrest] at h
          simp at h
      | storing h => cases h.symm.trans hrest

/-! Statements outside the window. -/

theorem afterStmt_checkMax (rest : List CreateStmt) :
    afterStmt sys c .checkMax rest =
      setCall sys (if MAX_TASKS ≤ sys.sched.count then none else some { c with rest := rest }) := by
  by_cases h : MAX_TASKS ≤ sys.sched.count
  · simp only [afterStmt, execStmt, noteMade, setCall, if_pos h, Option.map_none]
  · simp only [afterStmt, execStmt, noteMade, setCall, if_neg h, Option.map_some]

theorem storeField_esp {t : Task} {f : TaskField} (hf : f ≠ .esp) :
    (storeField c t f).esp = t.esp := by
  cases f with
  | esp => exact absurd rfl hf
  | _ => simp only [storeField]

/-- Stores to other fields leave every saved stack pointer alone. -/
theorem afterStmt_store_esp {f : TaskField} (hf : f ≠ .esp) (rest : List CreateStmt) (i : Nat) :
    ((afterStmt sys c (.store f) rest).sched.tasks i).esp = (sys.sched.tasks i).esp := by
  show ((setTask sys.sched c.id _).tasks i).esp = _
  by_cases hi : i = c.id
  · rw [hi, setTask_self, storeField_esp hf]
  · rw [setTask_of_ne hi]

theorem CreateBase.store (h : CreateBase taskExitAddr sys bs n) {f : TaskField} (hf : f ≠ .esp)
    (rest : List CreateStmt) : CreateBase taskExitAddr (afterStmt sys c (.store f) rest) bs n :=
  h.frame rfl (fun _ _ => rfl) (h.made n) rfl rfl (fun _ hi => Function.update_of_ne hi ..)
    fun i _ => afterStmt_store_esp hf rest i

theorem outside_stmt_inv (hbase : CreateBase taskExitAddr sys bs sys.sched.count)
    (hmax : sys.sched.count ≤ MAX_TASKS) (hout : c.Outside taskExitAddr) {st : CreateStmt}
    {rest : List CreateStmt} (hrest : c.rest = st :: rest)
    (hok : st = .incCount → sys.sched.count < MAX_TASKS) :
    CreateInv taskExitAddr (afterStmt sys c st rest) := by
  rcases hout with h | h | h
  · obtain ⟨rfl, rfl⟩ := List.cons.inj (h.symm.trans hrest)
    rw [afterStmt_checkMax]
    refine .quiet bs (hbase.setCall _) hmax fun c' hc => ?_
    rw [setCall_calls] at hc
    split at hc
    · cases hc
    · obtain rfl := Option.some.inj hc
      exact Or.inr (Or.inl rfl)
  · obtain ⟨rfl, rfl⟩ := List.cons.inj (h.symm.trans hrest)
    refine .window bs { c with id := sys.sched.count, rest := _ } ?_ (hok rfl) rfl
      (Function.update_self ..) (.counted rfl)
    exact hbase.frame rfl (fun _ _ => rfl) (hbase.made _) rfl rfl
      (fun _ hi => Function.update_of_ne hi ..) fun _ _ => rfl
  · rw [hrest] at h
    obtain ⟨f, hf, rfl⟩ := List.mem_map.mp (h.subset (List.mem_cons_self ..))
    have hne : f ≠ .esp := by
      rintro rfl
      simp [lateFields] at hf
    refine .quiet bs (hbase.store hne rest) hmax fun c' hc => ?_
    obtain rfl := Option.some.inj ((afterStmt_calls (.store f) rest).symm.trans hc)
    exact Or.inr (Or.inr ((List.suffix_cons ..).trans h))

/-! Statements inside the window. -/

/-- The bytes of an initial frame lie in the payload of its stack. -/
theorem StackSeg.frame_bounds {h : Heap} {st x : Nat} (hs : StackSeg bs st) (hwf : HeapWf h bs)
    (h1 : stackTop st - 60 ≤ x) (h2 : x < stackTop st - 60 + 60) :
    ∃ b ∈ used bs, st = b.addr + 16 ∧ b.addr + 16 ≤ x ∧ x < b.addr + 16 + b.size := by
  have htop := hs.stackTop_eq hwf
  obtain ⟨b, hb, rfl, hsize⟩ := hs
  simp only [TASK_STACK_SIZE] at hsize
  exact ⟨b, hb, rfl, by omega, by omega⟩

theorem alloc_inv (hbase : CreateBase taskExitAddr sys bs c.id) (hmax : sys.sched.count ≤ MAX_TASKS)
    (hid : sys.sched.count = c.id + 1) :
    CreateInv taskExitAddr
      (afterStmt sys c .alloc ((createBody taskExitAddr c.entry).drop 3)) := by
  rcases kmalloc_spec hbase.wf (n := TASK_STACK_SIZE) (by decide) with
    hk | ⟨b, bs', hp, hsize, hwf, hused, hfresh⟩
  · refine .window bs { c with stack := (kmalloc sys.heap TASK_STACK_SIZE).1, rest := _ } ?_
      hmax hid (afterStmt_calls ..) (.allocated rfl fun hne => absurd ?_ hne)
    · exact hbase.frame (congrArg Prod.snd hk) (fun _ _ => rfl) (hbase.made _) rfl rfl
        (fun _ hi => Function.update_of_ne hi ..) fun _ _ => rfl
    · exact congrArg Prod.fst hk
  · have hmono : ∀ {st}, StackSeg bs st → StackSeg bs' st := by
      rintro st ⟨d, hd, hst, hdsize⟩
      exact ⟨d, (hused d).mpr (Or.inl hd), hst, hdsize⟩
    refine .window bs' { c with stack := (kmalloc sys.heap TASK_STACK_SIZE).1, rest := _ }
      ⟨hwf, ?_, hbase.current_lt, ?_, ?_⟩ hmax hid (afterStmt_calls ..)
      (.allocated rfl fun _ => ⟨⟨b, (hused b).mpr (Or.inr rfl), hp, hsize⟩, ?_⟩)
    · exact fun i entry st hi => hmono (hbase.made i entry st hi)
    · exact fun i c' hne hc => hbase.others i c' hne ((Function.update_of_ne hne ..).symm.trans hc)
    · refine fun i hi hne => (hbase.settled i hi hne).congr fun entry st hmade x h1 h2 => ?_
      obtain ⟨d, hd, -, h1, h2⟩ := (hbase.made i entry st hmade).frame_bounds hbase.wf h1 h2
      exact kmalloc_payload hbase.wf hd h1 h2 _
    · intro i _ entry st hmade heq
      obtain ⟨d, hd, rfl, -⟩ := hbase.made i entry st hmade
      have := hfresh d hd
      have : d.addr + 16 = b.addr + 16 := heq.trans hp
      omega

theorem checkNull_inv (hbase : CreateBase taskExitAddr sys bs c.id)
    (hmax : sys.sched.count ≤ MAX_TASKS) (hid : sys.sched.count = c.id + 1)
    (hstack : c.stack ≠ 0 → FreshStack sys bs c) :
    CreateInv taskExitAddr
      (afterStmt sys c .checkNull ((createBody taskExitAddr c.entry).drop 4)) := by
  by_cases hnull : c.stack = 0
  · have hcount : sys.sched.count - 1 = c.id := by omega
    have hafter : afterStmt sys c .checkNull ((createBody taskExitAddr c.entry).drop 4) =
        setCall { sys with sched := setCount sys.sched c.id } none := by
      simp only [afterStmt, execStmt, noteMade, if_pos hnull, Option.map_none, hcount]
      rfl
    have hbase' : CreateBase taskExitAddr { sys with sched := setCount sys.sched c.id } bs c.id :=
      hbase.frame rfl (fun _ _ => rfl) (hbase.made _) rfl rfl (fun _ _ => rfl) fun _ _ => rfl
    rw [hafter]
    refine .quiet bs (hbase'.setCall none) (?_ : c.id ≤ MAX_TASKS) fun c' hc => ?_
    · omega
    · rw [setCall_calls] at hc
      cases hc
  · have hfresh := hstack hnull
    have hafter : afterStmt sys c .checkNull ((createBody taskExitAddr c.entry).drop 4) =
        { setCall sys (some { c with sp := stackTop c.stack,
                                     rest := (createBody taskExitAddr c.entry).drop 4 }) with
          made := Function.update sys.made c.id (some (c.entry, c.stack)) } := by
      simp only [afterStmt, execStmt, noteMade, setCall, if_neg hnull, Option.map_some]
    rw [hafter]
    refine .window bs
      { c with sp := stackTop c.stack, rest := (createBody taskExitAddr c.entry).drop 4 } ?_
      hmax hid (Function.update_self ..) (.pushing [] _ rfl rfl ⟨hfresh.seg, fun i hi => ?_⟩
        (Function.update_self ..) (Nat.sub_zero _).symm trivial)
    · refine hbase.frame rfl (fun i hi => Function.update_of_ne hi ..)
        (fun entry st hmade => ?_) rfl rfl (fun _ hi => Function.update_of_ne hi ..) fun _ _ => rfl
      obtain ⟨-, rfl⟩ := Prod.mk.inj
        (Option.some.inj ((Function.update_self c.id _ sys.made).symm.trans hmade))
      exact hfresh.seg
    · intro entry st hmade
      exact hfresh.fresh i hi entry st ((Function.update_of_ne hi _ sys.made).symm.trans hmade)

/-- A push changes the stack of the new task only. -/
theorem push_outside {w : BitVec 32} {x : Nat} (hwf : HeapWf sys.heap bs)
    (hfresh : FreshStack sys bs c) {k : Nat} (hk : k < 15) (hsp : c.sp = stackTop c.stack - 4 * k)
    {i entry st} (hi : i ≠ c.id) (hmade : sys.made i = some (entry, st)) (hseg : StackSeg bs st)
    (h1 : stackTop st - 60 ≤ x) (h2 : x < stackTop st - 60 + 60) :
    store32 sys.heap.mem (c.sp - 4) w x = sys.heap.mem x := by
  have htop := hfresh.seg.stackTop_eq hwf
  have hne := hfresh.fresh i hi entry st hmade
  obtain ⟨d, hd, hst, hd1, hd2⟩ := hseg.frame_bounds hwf h1 h2
  obtain ⟨b, hb, hstack, hsize⟩ := hfresh.seg
  simp only [TASK_STACK_SIZE] at hsize
  have := header_disjoint hwf.canon.tiles (List.mem_filter.mp hd).1 (List.mem_filter.mp hb).1
    (by omega)
  exact store32_of_outside (by omega)

theorem push_inv {w : BitVec 32} {done todo : List (BitVec 32)}
    (hbase : CreateBase taskExitAddr sys bs c.id) (hmax : sys.sched.count ≤ MAX_TASKS)
    (hid : sys.sched.count = c.id + 1)
    (hframe : ring0Frame taskExitAddr c.entry = done ++ w :: todo) (hfresh : FreshStack sys bs c)
    (hmade : sys.made c.id = some (c.entry, c.stack))
    (hsp : c.sp = stackTop c.stack - 4 * done.length)
    (hwords : WordsAt sys.heap.mem c.sp done.reverse) :
    CreateInv taskExitAddr (afterStmt sys c (.push w)
      (todo.map .push ++ (.id :: .esp :: lateFields).map .store)) := by
  have hlen : done.length < 15 := by
    have := congrArg List.length hframe
    rw [List.length_append, List.length_cons] at this
    simp only [ring0Frame, List.length_cons, List.length_nil] at this
    omega
  have htop := hfresh.seg.stackTop_eq hbase.wf
  refine .window bs { c with sp := c.sp - 4, rest := _ } ⟨?_, hbase.made, hbase.current_lt, ?_, ?_⟩
    hmax hid (afterStmt_calls ..)
    (.pushing (done ++ [w]) todo ?_ rfl ⟨hfresh.seg, hfresh.fresh⟩ hmade ?_ ?_)
  · obtain ⟨b, hb, hstack, hsize⟩ := hfresh.seg
    simp only [TASK_STACK_SIZE] at hsize
    exact hbase.wf.payload_write hb fun x hx => store32_of_outside (by omega)
  · exact fun i c' hne hc => hbase.others i c' hne ((Function.update_of_ne hne ..).symm.trans hc)
  · refine fun i hi hne => (hbase.settled i hi hne).congr fun entry st hst x h1 h2 => ?_
    have hic : i ≠ c.id := Nat.ne_of_lt hi
    exact push_outside hbase.wf hfresh hlen hsp hic hst (hbase.made i entry st hst) h1 h2
  · rw [hframe, List.append_assoc]
    rfl
  · show c.sp - 4 = stackTop c.stack - 4 * (done ++ [w]).length
    rw [List.length_append, List.length_singleton, hsp]
    omega
  · show WordsAt (store32 sys.heap.mem (c.sp - 4) w) (c.sp - 4) _
    rw [List.reverse_append]
    refine ⟨load32_store32_self .., ?_⟩
    rw [show c.sp - 4 + 4 = c.sp by omega]
    exact hwords.congr fun x h1 h2 => store32_of_outside (by omega)

/-- The store of `tasks[id].esp` publishes the slot. -/
theorem storeEsp_inv (hbase : CreateBase taskExitAddr sys bs c.id)
    (hmax : sys.sched.count ≤ MAX_TASKS) (hid : sys.sched.count = c.id + 1)
    (hok : EspOk taskExitAddr sys.heap.mem none (sys.made c.id) c.sp) :
    CreateInv taskExitAddr (afterStmt sys c (.store .esp) (lateFields.map .store)) := by
  have hlt := hbase.current_lt
  refine .quiet bs ⟨hbase.wf, hbase.made, ?_, ?_, ?_⟩ hmax fun c' hc => ?_
  · show sys.sched.current < sys.sched.count
    omega
  · exact fun i c' hne hc => hbase.others i c' hne ((Function.update_of_ne hne ..).symm.trans hc)
  · intro i hi hne
    show EspOk _ _ _ _ ((setTask sys.sched c.id _).tasks i).esp
    have hi' : i < c.id + 1 := hid ▸ hi
    by_cases hic : i = c.id
    · rw [hic, setTask_self]
      rcases hok with h | h
      · cases h
      · exact Or.inr h
    · rw [setTask_of_ne hic]
      exact hbase.settled i (by omega) hne
  · obtain rfl := Option.some.inj ((afterStmt_calls ..).symm.trans hc)
    exact Or.inr (Or.inr (List.suffix_refl _))

theorem window_stmt_inv (hbase : CreateBase taskExitAddr sys bs c.id)
    (hmax : sys.sched.count ≤ MAX_TASKS) (hid : sys.sched.count = c.id + 1)
    (hwin : Window taskExitAddr sys bs c) {st : CreateStmt} {rest : List CreateStmt}
    (hrest : c.rest = st :: rest) : CreateInv taskExitAddr (afterStmt sys c st rest) := by
  cases hwin with
  | counted h =>
      obtain ⟨rfl, rfl⟩ := List.cons.inj (h.symm.trans hrest)
      exact alloc_inv hbase hmax hid
  | allocated h hstack =>
      obtain ⟨rfl, rfl⟩ := List.cons.inj (h.symm.trans hrest)
      exact checkNull_inv hbase hmax hid hstack
  | pushing done todo hframe h hfresh hmade hsp hwords =>
      cases todo with
      | nil =>
          obtain ⟨rfl, rfl⟩ := List.cons.inj (h.symm.trans hrest)
          rw [List.append_nil] at hframe
          refine .window bs { c with rest := (.esp :: lateFields).map .store }
            (hbase.store (by decide) _) hmax hid (afterStmt_calls ..)
            (.storing rfl (Or.inr ⟨c.entry, c.stack, hmade, ?_, ?_⟩))
          · show c.sp = _
            rw [hsp, ← hframe]
            rfl
          · rw [hframe]
            exact hwords
      | cons w todo =>
          obtain ⟨rfl, rfl⟩ := List.cons.inj (h.symm.trans hrest)
          exact push_inv hbase hmax hid hframe hfresh hmade hsp hwords
  | storing h hok =>
      obtain ⟨rfl, rfl⟩ := List.cons.inj (h.symm.trans hrest)
      exact storeEsp_inv hbase hmax hid hok

/-! The timer. -/

theorem Window.inWindow (h : Window taskExitAddr sys bs c) : c.InWindow := by
  cases h with
  | counted h => simp [CreateCall.InWindow, h, createBody, ring0Frame]
  | allocated h => simp [CreateCall.InWindow, h, createBody, ring0Frame]
  | pushing done todo _ h => simp [CreateCall.InWindow, h]
  | storing h => simp [CreateCall.InWindow, h]

theorem CreateCall.Outside.not_inWindow (h : c.Outside taskExitAddr) : ¬c.InWindow := by
  rintro ⟨hinc, hesp⟩
  rcases h with h | h | h
  · exact hinc (h ▸ List.mem_cons_of_mem _ (List.mem_cons_self ..))
  · exact hinc (h ▸ List.mem_cons_self ..)
  · obtain ⟨f, hf, heq⟩ := List.mem_map.mp (h.subset hesp)
    cases heq
    simp [lateFields] at hf

/-- In a quiet run only the current task can be in the window. -/
theorem CreateInv.quiet_of_current (h : CreateInv taskExitAddr sys)
    (hcur : ∀ c, sys.calls sys.sched.current = some c → ¬c.InWindow) :
    ∀ i c, sys.calls i = some c → ¬c.InWindow := by
  have hothers : ∀ i c, i ≠ sys.sched.current → sys.calls i = some c → c.Outside taskExitAddr := by
    cases h with
    | quiet bs hbase => exact hbase.others
    | window bs c hbase => exact hbase.others
  intro i c hc
  by_cases hi : i = sys.sched.current
  · exact hcur c (hi ▸ hc)
  · exact (hothers i c hi hc).not_inWindow

/-- Outside the window all slots but the current one are settled. -/
theorem CreateInv.settled (h : CreateInv taskExitAddr sys)
    (hq : ∀ i c, sys.calls i = some c → ¬c.InWindow) :
    sys.sched.count ≤ MAX_TASKS ∧ ∃ bs, CreateBase taskExitAddr sys bs sys.sched.count ∧
      ∀ i c, sys.calls i = some c → c.Outside taskExitAddr := by
  cases h with
  | quiet bs hbase hmax hcall =>
      refine ⟨hmax, bs, hbase, fun i c hc => ?_⟩
      by_cases hi : i = sys.sched.current
      · exact hcall c (hi ▸ hc)
      · exact hbase.others i c hi hc
  | window bs c _ _ _ hcall hwin => exact absurd hwin.inWindow (hq _ c hcall)

theorem timerTick_cases {s : Sched} (hc : s.current < s.count) (esp : Nat) :
    (∃ flag, timerTick s esp = (esp, { s with needReschedule := flag })) ∨
      ∃ next, next ≠ s.current ∧ next < s.count ∧ (timerTick s esp).1 = (s.tasks next).esp ∧
        (timerTick s esp).2.current = next ∧ (timerTick s esp).2.count = s.count ∧
        (timerTick s esp).2.tasks = (switchIn (switchOut s esp) next).tasks := by
  rcases schedule_cases (s := taskRequestReschedule s) hc esp with
    ⟨flag, heq⟩ | ⟨next, ⟨⟨hne, -⟩, hlt, -⟩, heq⟩
  · exact Or.inl ⟨flag, heq⟩
  · refine Or.inr ⟨next, hne, hlt, ?_⟩
    rw [timerTick, heq, switchIn_current, switchIn_count, switchOut_count]
    exact ⟨rfl, rfl, rfl, switch_tasks (s := s) false esp next⟩

theorem timer_inv (h : CreateInv taskExitAddr sys)
    (hq : ∀ i c, sys.calls i = some c → ¬c.InWindow) (esp : Nat) :
    CreateInv taskExitAddr (afterTimer sys esp) := by
  obtain ⟨hmax, bs, hbase, hout⟩ := h.settled hq
  rcases timerTick_cases hbase.current_lt esp with
    ⟨flag, heq⟩ | ⟨next, hne, hlt, -, hcurrent, hcount, htasks⟩
  · have hafter : afterTimer sys esp =
        { sys with sched := { sys.sched with needReschedule := flag } } := by
      simp only [afterTimer, heq, if_true]
    rw [hafter]
    exact .quiet bs (hbase.frame rfl (fun _ _ => rfl) (hbase.made _) rfl rfl (fun _ _ => rfl)
      fun _ _ => rfl) hmax fun c hc => hout _ c hc
  · have hafter : afterTimer sys esp = { sys with
        sched := (timerTick sys.sched esp).2
        saved := Function.update sys.saved sys.sched.current (some esp) } := by
      simp only [afterTimer, hcurrent, if_neg hne]
    rw [hafter]
    generalize (timerTick sys.sched esp).2 = s' at *
    refine .quiet bs ⟨hbase.wf, hbase.made, ?_, fun i c _ hc => hout i c hc, fun i hi hin => ?_⟩
      (hcount ▸ hmax) fun c hc => hout _ c hc
    · rw [hcurrent, hcount]
      exact hlt
    · rw [hcount] at hi
      rw [hcurrent] at hin
      dsimp only
      rw [htasks]
      by_cases hic : i = sys.sched.current
      · rw [hic, Function.update_self, switched_current hne]
        exact Or.inl rfl
      · rw [Function.update_of_ne hic, switched_of_ne hic hin]
        exact hbase.settled i hi hic

theorem createStep_inv {e : CreateEvent} (h : CreateInv taskExitAddr sys)
    (hok : QuietCreation sys e) (hs : CreateStep taskExitAddr sys e sys') :
    CreateInv taskExitAddr sys' := by
  cases hs with
  | call entry name hidle => exact call_inv h hidle entry name
  | @stmt c st rest hcall hrest =>
      cases h with
      | quiet bs hbase hmax hout =>
          exact outside_stmt_inv hbase hmax (hout c hcall) hrest fun hst =>
            hok c rest hcall (hst ▸ hrest)
      | window bs c' hbase hmax hid hcall' hwin =>
          obtain rfl := Option.some.inj (hcall.symm.trans hcall')
          exact window_stmt_inv hbase hmax hid hwin hrest
  | ret hcall hrest => exact ret_inv h hcall hrest
  | timer esp => exact timer_inv h hok esp

theorem createRun_inv (h : CreateRun taskExitAddr QuietCreation sys) :
    CreateInv taskExitAddr sys := by
  induction h with
  | init s₀ hr =>
      obtain ⟨bs, hwf, -⟩ := heapReach_inv hr
      refine .quiet bs ⟨hwf, nofun, Nat.one_pos, nofun, fun i hi hne => ?_⟩ ?_ nofun
      · exact absurd (Nat.lt_one_iff.mp hi) hne
      · exact (by decide : 1 ≤ MAX_TASKS)
  | step _ hok hs ih => exact createStep_inv ih hok hs

end Inv

/-- **No half-built task is dispatched in a quiet run.** If the timer never arrives
between `count++` and the store of `tasks[id].esp`, every switch goes to a slot of
the table, and to the stack pointer saved for it or to its complete initial frame. -/
theorem create_dispatch_ok {taskExitAddr : BitVec 32} {sys : CreateSys}
    (h : CreateRun taskExitAddr QuietCreation sys) {esp y : Nat}
    (hq : QuietCreation sys (.timer esp))
    (hy : switchTarget sys.sched (timerTick sys.sched esp).2 = some y) :
    y < MAX_TASKS ∧ EspOk taskExitAddr sys.heap.mem (sys.saved y) (sys.made y)
      (timerTick sys.sched esp).1 := by
  obtain ⟨hmax, bs, hbase, -⟩ := (createRun_inv h).settled hq
  rcases timerTick_cases hbase.current_lt esp with
    ⟨flag, heq⟩ | ⟨next, hne, hlt, hesp, hcurrent, -⟩
  · rw [heq, switchTarget, if_pos rfl] at hy
    cases hy
  · rw [switchTarget, hcurrent, if_neg hne] at hy
    obtain rfl := Option.some.inj hy
    rw [hesp]
    exact ⟨Nat.lt_of_lt_of_le hlt hmax, hbase.settled next hlt hne⟩

/-! ## A timer interrupt in the window -/

def sampleCreate : CreateSys :=
  ⟨taskInit sampleSched, sampleHeap, fun _ => none, fun _ => none, fun _ => none⟩

def sampleCall : CreateCall := ⟨0x102000#32, none, 0, 0, 0, createBody 0x101000#32 0x102000#32⟩

/-- The boot task has entered `task_create`. -/
def sampleEntered : CreateSys := setCall sampleCreate (some sampleCall)

/-- The next statement of the current task. -/
def nextStmt (sys : CreateSys) : CreateSys :=
  match sys.calls sys.sched.current with
  | none => sys
  | some c =>
      match c.rest with
      | [] => setCall sys none
      | st :: rest => afterStmt sys c st rest

section Sample

variable {taskExitAddr : BitVec 32} {Ok : CreateSys → CreateEvent → Prop} {sys : CreateSys}

theorem sampleEntered_run (hok : ∀ entry name, Ok sampleCreate (.call entry name)) :
    CreateRun 0x101000#32 Ok sampleEntered :=
  .step (.init sampleSched (HeapReach.init fun _ => 0#8)) (hok 0x102000#32 none) (.call _ _ rfl)

theorem CreateRun.nextStmt (h : CreateRun taskExitAddr Ok sys) (hok : Ok sys .stmt) :
    CreateRun taskExitAddr Ok (nextStmt sys) := by
  rw [Matryoshka.nextStmt]
  split
  · exact h
  · rename_i c hcall
    split
    · rename_i hrest
      exact .step h hok (.ret hcall hrest)
    · rename_i st rest hrest
      exact .step h hok (.stmt hcall hrest)

theorem CreateRun.nextStmts (h : CreateRun taskExitAddr QuietCreation sys) :
    ∀ n, (∀ k, k < n → (Matryoshka.nextStmt^[k] sys).sched.count < MAX_TASKS) →
      CreateRun taskExitAddr QuietCreation (Matryoshka.nextStmt^[n] sys)
  | 0, _ => h
  | n + 1, hcount => by
      rw [Function.iterate_succ_apply']
      exact (h.nextStmts n fun k hk => hcount k (by omega)).nextStmt
        fun _ _ _ _ => hcount n (by omega)

end Sample

/-- The check and the increment have run, then the timer arrives: task 1 is entered with
a null stack pointer. -/
theorem half_built_dispatched :
    ∃ sys, CreateRun 0x101000#32 (fun _ _ => True) sys ∧
      switchTarget sys.sched (timerTick sys.sched 0x9000).2 = some 1 ∧
      (timerTick sys.sched 0x9000).1 = 0 ∧
      ¬EspOk 0x101000#32 sys.heap.mem (sys.saved 1) (sys.made 1)
        (timerTick sys.sched 0x9000).1 := by
  refine ⟨nextStmt (nextStmt sampleEntered), ?_, by decide +kernel, by decide +kernel, ?_⟩
  · exact ((sampleEntered_run fun _ _ => trivial).nextStmt trivial).nextStmt trivial
  · rintro (h | ⟨_, _, h, -⟩) <;> cases h

/-- The state after the store of `tasks[id].esp`. -/
def sampleStored : CreateSys := nextStmt^[21] sampleEntered

theorem sampleStored_run : CreateRun 0x101000#32 QuietCreation sampleStored :=
  (sampleEntered_run fun _ _ => trivial).nextStmts 21 (by decide +kernel)

theorem sampleStored_quiet : ∀ i c, sampleStored.calls i = some c → ¬c.InWindow := by
  refine (createRun_inv sampleStored_run).quiet_of_current fun c hc hwin => ?_
  have hrest : (sampleStored.calls sampleStored.sched.current).map CreateCall.rest =
      some (lateFields.map .store) := by decide +kernel
  rw [hc] at hrest
  have hesp := hwin.2
  rw [Option.some.inj hrest] at hesp
  simp [lateFields] at hesp

/-- Now the new task may be entered. -/
theorem create_dispatch_ok_stored :
    1 < MAX_TASKS ∧ EspOk 0x101000#32 sampleStored.heap.mem (sampleStored.saved 1)
      (sampleStored.made 1) (timerTick sampleStored.sched 0x9000).1 :=
  create_dispatch_ok sampleStored_run sampleStored_quiet (by decide +kernel)

end Matryoshka
