import Matryoshka.Keyboard
import Matryoshka.Serial
import Matryoshka.Tables
import Matryoshka.Vga

/-!
# System calls

`kernel/syscall/syscall.c`: the handler of `INT 0x80` and the seven calls.
`frame` is the address of the `interrupt_frame_t` on the kernel stack of
the caller. The gate turns interrupts off, so a call is not interrupted,
except that `keyboard_getchar` gives the processor away while it waits: a
read that finds no character ends in `wait`, and `sysReadTake` is its next
try. `sys_exit` does not come back; the switch to another task is not
repeated here. `serial` is what has been given to the serial port, and the
text buffer of the screen is kept apart from the memory.

`CallDoes` says everything a call can do, in terms of the registers of the
caller. No pointer is checked: `sys_read_escalates` is a read that returns
to its caller in ring 0.
-/

namespace Matryoshka

open ByteMem X86

/-! ## State -/

structure SysState where
  heap : Heap
  sched : Sched
  kb : Keyboard
  vga : Vga
  serial : List (BitVec 8)
  timerTicks : Nat

def SysState.withMem (s : SysState) (m : Mem) : SysState :=
  { s with heap := { s.heap with mem := m } }

/-- How a call ends: with a result, in the wait loop of `keyboard_getchar` on behalf of a
buffer, or not at all. -/
inductive SysEnd
  | ret (result : BitVec 32)
  | wait (buf : Nat)
  | gone
deriving Repr, DecidableEq

/-! ## The calls -/

/-- `(uint32_t)-1`. -/
def minusOne : BitVec 32 := 0xFFFFFFFF#32

def sysExitMsg : List (BitVec 8) := "syscall: exit".toList.map fun c => BitVec.ofNat 8 c.toNat

/-- Up to the `task_yield` of `task_exit`. -/
def sysExit (s : SysState) (_f : Nat) : SysState × SysEnd :=
  ({ s with serial := s.serial ++ klogText sysExitMsg, sched := markTerminated s.sched }, .gone)

/-- The loop over the rest of the text; `false` is the return inside it. -/
def sysWriteLoop (fd : BitVec 32) (buf : Nat) : Nat → Nat → SysState → SysState × Bool
  | 0, _, s => (s, true)
  | n + 1, i, s =>
      let c := s.heap.mem (u32 (buf + i))
      if fd = 1#32 then sysWriteLoop fd buf n (i + 1) { s with vga := (vgaPutchar s.vga c).val }
      else if fd = 2#32 then sysWriteLoop fd buf n (i + 1) { s with serial := s.serial ++ [c] }
      else (s, false)

def sysWrite (s : SysState) (f : Nat) : SysState × SysEnd :=
  let fd := frameWord s.heap.mem f 5
  let buf := (frameWord s.heap.mem f 7).toNat
  let len := (frameWord s.heap.mem f 6).toNat
  if buf = 0 ∨ len = 0 then (s, .ret 0#32)
  else
    let r := sysWriteLoop fd buf len 0 s
    (r.1, .ret (if r.2 then BitVec.ofNat 32 len else minusOne))

/-- `keyboard_getchar` without an interruption; `none` if it has to wait. -/
def keyboardGetchar (kb : Keyboard) : Option (BitVec 8 × Keyboard) :=
  if kb.kbHead = kb.kbTail then none
  else some (kb.kbBuffer kb.kbTail, { kb with kbTail := nextIndex kb.kbTail })

/-- `sys_read` from the call of `keyboard_getchar` on. -/
def sysReadTake (s : SysState) (buf : Nat) : SysState × SysEnd :=
  match keyboardGetchar s.kb with
  | none => (s, .wait buf)
  | some (c, kb) =>
      let s := { s with kb := kb }
      if c = 0#8 then (s, .ret 0#32) else (s.withMem (store8 s.heap.mem buf c), .ret 1#32)

def sysRead (s : SysState) (f : Nat) : SysState × SysEnd :=
  let fd := frameWord s.heap.mem f 5
  let buf := (frameWord s.heap.mem f 7).toNat
  let len := (frameWord s.heap.mem f 6).toNat
  if fd ≠ 0#32 ∨ buf = 0 ∨ len = 0 then (s, .ret minusOne) else sysReadTake s buf

def sysGetpid (s : SysState) (_f : Nat) : SysState × SysEnd :=
  (s, .ret (BitVec.ofNat 32 (taskCurrentId s.sched)))

def sysUptime (s : SysState) (_f : Nat) : SysState × SysEnd :=
  (s, .ret (BitVec.ofNat 32 s.timerTicks))

def sysSbrk (s : SysState) (f : Nat) : SysState × SysEnd :=
  let r := kmalloc s.heap (frameWord s.heap.mem f 5).toNat
  ({ s with heap := r.2 }, .ret (if r.1 ≠ 0 then BitVec.ofNat 32 r.1 else minusOne))

def sysYield (s : SysState) (_f : Nat) : SysState × SysEnd :=
  ({ s with sched := taskRequestReschedule s.sched }, .ret 0#32)

/-- `SYS_EXIT` to `SYS_YIELD`; no entry is null. -/
def syscallTable : List (SysState → Nat → SysState × SysEnd) :=
  [sysExit, sysWrite, sysRead, sysGetpid, sysUptime, sysSbrk, sysYield]

/-- `frame->eax = result`, if the call comes back. -/
def storeResult (frame : Nat) (r : SysState × SysEnd) : SysState × SysEnd :=
  match r.2 with
  | .ret v => (r.1.withMem (setFrameEax r.1.heap.mem frame v), .ret v)
  | _ => r

def syscallHandler (s : SysState) (frame : Nat) : SysState × SysEnd :=
  match syscallTable[(frameWord s.heap.mem frame 8).toNat]? with
  | none => storeResult frame (s, .ret minusOne)
  | some fn => storeResult frame (fn s frame)

/-- `INT 0x80` up to the handler. -/
def sysEnter (s : SysState) (c : Cpu) (esp0 : Nat) : SysState :=
  s.withMem (isrEntry c esp0 128#32 s.heap.mem)

/-! ## Calls in terms of registers -/

/-- The bytes a loop over a buffer sees; addresses wrap. -/
def textAt (m : Mem) (buf n : Nat) : List (BitVec 8) :=
  (List.range n).map fun i => m (u32 (buf + i))

/-- The text of a write. -/
def Cpu.text (c : Cpu) (m : Mem) : List (BitVec 8) := textAt m c.ecx.toNat c.edx.toNat

def Cpu.Exits (c : Cpu) : Prop := c.eax = 0#32

def Cpu.Prints (c : Cpu) : Prop := c.eax = 1#32 ∧ c.ebx = 1#32 ∧ c.ecx ≠ 0#32 ∧ c.edx ≠ 0#32

def Cpu.Sends (c : Cpu) : Prop := c.eax = 1#32 ∧ c.ebx = 2#32 ∧ c.ecx ≠ 0#32 ∧ c.edx ≠ 0#32

def Cpu.Reads (c : Cpu) : Prop := c.eax = 2#32 ∧ c.ebx = 0#32 ∧ c.ecx ≠ 0#32 ∧ c.edx ≠ 0#32

def Cpu.Sbrks (c : Cpu) : Prop := c.eax = 5#32

/-- A call with no effect but its result, and on the scheduler. -/
def Cpu.Quiet (c : Cpu) : Prop := ¬c.Exits ∧ ¬c.Prints ∧ ¬c.Sends ∧ ¬c.Reads ∧ ¬c.Sbrks

instance (c : Cpu) : Decidable c.Prints := inferInstanceAs (Decidable (_ ∧ _))

instance (c : Cpu) : Decidable c.Sends := inferInstanceAs (Decidable (_ ∧ _))

instance (c : Cpu) : Decidable c.Reads := inferInstanceAs (Decidable (_ ∧ _))

instance (c : Cpu) : Decidable c.Sbrks := inferInstanceAs (Decidable (_ = _))

def putChars (v : Vga) (text : List (BitVec 8)) : Vga :=
  text.foldl (fun v b => (vgaPutchar v b).val) v

def quietResult (s : SysState) (c : Cpu) : BitVec 32 :=
  match c.eax.toNat with
  | 1 => if c.ecx = 0#32 ∨ c.edx = 0#32 then 0#32 else minusOne
  | 3 => BitVec.ofNat 32 s.sched.current
  | 4 => BitVec.ofNat 32 s.timerTicks
  | 6 => 0#32
  | _ => minusOne

/-- What the call of `c` can do in state `s`, before its result is stored. -/
inductive CallDoes (s : SysState) (c : Cpu) : SysState → SysEnd → Prop
  | exit (h : c.Exits) :
      CallDoes s c
        { s with serial := s.serial ++ klogText sysExitMsg, sched := markTerminated s.sched } .gone
  | print (h : c.Prints) :
      CallDoes s c { s with vga := putChars s.vga (c.text s.heap.mem) } (.ret c.edx)
  | send (h : c.Sends) :
      CallDoes s c { s with serial := s.serial ++ c.text s.heap.mem } (.ret c.edx)
  | wait (h : c.Reads) (hnone : keyboardGetchar s.kb = none) : CallDoes s c s (.wait c.ecx.toNat)
  | read {b : BitVec 8} {kb : Keyboard} (h : c.Reads) (hsome : keyboardGetchar s.kb = some (b, kb))
      (hb : b ≠ 0#8) :
      CallDoes s c (({ s with kb := kb } : SysState).withMem (store8 s.heap.mem c.ecx.toNat b))
        (.ret 1#32)
  | readZero {kb : Keyboard} (h : c.Reads) (hsome : keyboardGetchar s.kb = some (0#8, kb)) :
      CallDoes s c { s with kb := kb } (.ret 0#32)
  | sbrk (h : c.Sbrks) :
      CallDoes s c { s with heap := (kmalloc s.heap c.ebx.toNat).2 }
        (.ret (if (kmalloc s.heap c.ebx.toNat).1 ≠ 0
          then BitVec.ofNat 32 (kmalloc s.heap c.ebx.toNat).1 else minusOne))
  | quiet (h : c.Quiet) (sched : Sched) :
      CallDoes s c { s with sched := sched } (.ret (quietResult s c))

section Does

variable {s : SysState} {c : Cpu} {esp0 f : Nat}

/-- The arguments of the calls, in a frame. -/
structure ArgsAt (m : Mem) (f : Nat) (c : Cpu) : Prop where
  eax : frameWord m f 8 = c.eax
  ebx : frameWord m f 5 = c.ebx
  ecx : frameWord m f 7 = c.ecx
  edx : frameWord m f 6 = c.edx

theorem argsAt_of_readCtx {m : Mem} (h : readCtx m f = c.ctx) : ArgsAt m f c :=
  ⟨congrArg Ctx.eax h, congrArg Ctx.ebx h, congrArg Ctx.ecx h, congrArg Ctx.edx h⟩

theorem readCtx_sysEnter (hroom : frameBytes c.cs ≤ entryStack c esp0) :
    readCtx (sysEnter s c esp0).heap.mem (entryFrame c esp0) = c.ctx := readCtx_isrEntry hroom

theorem sysWriteLoop_print (buf : Nat) :
    ∀ (n i : Nat) (s : SysState), sysWriteLoop 1#32 buf n i s
      = ({ s with
          vga := putChars s.vga ((List.range' i n).map fun j => s.heap.mem (u32 (buf + j))) },
        true) := by
  intro n
  induction n with
  | zero =>
      intro i s
      rfl
  | succ n ih =>
      intro i s
      rw [sysWriteLoop]
      simp only [if_true]
      rw [ih, List.range'_succ, List.map_cons]
      rfl

theorem sysWriteLoop_send (buf : Nat) :
    ∀ (n i : Nat) (s : SysState), sysWriteLoop 2#32 buf n i s
      = ({ s with serial := s.serial ++ (List.range' i n).map fun j => s.heap.mem (u32 (buf + j)) },
        true) := by
  intro n
  induction n with
  | zero =>
      intro i s
      rw [sysWriteLoop, List.range'_zero, List.map_nil, List.append_nil]
  | succ n ih =>
      intro i s
      rw [sysWriteLoop]
      simp only [if_true]
      rw [if_neg (by decide), ih, List.range'_succ, List.map_cons]
      simp only [List.append_assoc, List.singleton_append]

theorem sysWriteLoop_other {fd : BitVec 32} (h1 : fd ≠ 1#32) (h2 : fd ≠ 2#32) (buf n : Nat)
    (s : SysState) : sysWriteLoop fd buf (n + 1) 0 s = (s, false) := by
  rw [sysWriteLoop, if_neg h1, if_neg h2]

theorem toNat_eq_zero_iff {v : BitVec 32} : v.toNat = 0 ↔ v = 0#32 :=
  ⟨fun h => BitVec.eq_of_toNat_eq h, fun h => by rw [h]; rfl⟩

/-- A call whose number is `n` is not one with another number. -/
theorem quiet_of_eax {n : BitVec 32} (h : c.eax = n) (h0 : n ≠ 0#32) (h5 : n ≠ 5#32)
    (hprint : ¬c.Prints) (hsend : ¬c.Sends) (hread : ¬c.Reads) : c.Quiet :=
  ⟨fun he => h0 (h.symm.trans he), hprint, hsend, hread, fun he => h5 (h.symm.trans he)⟩

theorem sysWrite_does (ha : ArgsAt s.heap.mem f c) (h : c.eax = 1#32) :
    CallDoes s c (sysWrite s f).1 (sysWrite s f).2 := by
  have hread : ¬c.Reads := fun hr => absurd (h.symm.trans hr.1) (by decide)
  have hresult : quietResult s c = if c.ecx = 0#32 ∨ c.edx = 0#32 then 0#32 else minusOne := by
    rw [quietResult, h]
    rfl
  simp only [sysWrite, ha.ebx, ha.ecx, ha.edx, toNat_eq_zero_iff]
  by_cases hnone : c.ecx = 0#32 ∨ c.edx = 0#32
  · rw [if_pos hnone] at hresult ⊢
    rw [← hresult]
    have hprint : ¬c.Prints := fun hp => hnone.elim hp.2.2.1 hp.2.2.2
    have hsend : ¬c.Sends := fun hp => hnone.elim hp.2.2.1 hp.2.2.2
    exact .quiet (quiet_of_eax h (by decide) (by decide) hprint hsend hread) s.sched
  · rw [if_neg hnone] at hresult ⊢
    rw [not_or] at hnone
    by_cases h1 : c.ebx = 1#32
    · rw [h1, sysWriteLoop_print, ← List.range_eq_range']
      dsimp only
      rw [if_pos rfl, BitVec.ofNat_toNat, BitVec.setWidth_eq]
      exact .print ⟨h, h1, hnone⟩
    · by_cases h2 : c.ebx = 2#32
      · rw [h2, sysWriteLoop_send, ← List.range_eq_range']
        dsimp only
        rw [if_pos rfl, BitVec.ofNat_toNat, BitVec.setWidth_eq]
        exact .send ⟨h, h2, hnone⟩
      · obtain ⟨n, hn⟩ := Nat.exists_eq_succ_of_ne_zero (mt toNat_eq_zero_iff.mp hnone.2)
        rw [hn, sysWriteLoop_other h1 h2]
        dsimp only
        rw [if_neg Bool.false_ne_true, ← hresult]
        exact .quiet (quiet_of_eax h (by decide) (by decide) (fun hp => h1 hp.2.1)
          (fun hp => h2 hp.2.1) hread) s.sched

theorem sysReadTake_does (hr : c.Reads) :
    CallDoes s c (sysReadTake s c.ecx.toNat).1 (sysReadTake s c.ecx.toNat).2 := by
  rw [sysReadTake]
  cases hget : keyboardGetchar s.kb with
  | none => exact .wait hr hget
  | some r =>
      obtain ⟨b, kb⟩ := r
      by_cases hb : b = 0#8
      · subst hb
        exact .readZero hr hget
      · simp only [if_neg hb]
        exact .read hr hget hb

theorem sysRead_does (ha : ArgsAt s.heap.mem f c) (h : c.eax = 2#32) :
    CallDoes s c (sysRead s f).1 (sysRead s f).2 := by
  have hprint : ¬c.Prints := fun hp => absurd (h.symm.trans hp.1) (by decide)
  have hsend : ¬c.Sends := fun hp => absurd (h.symm.trans hp.1) (by decide)
  have hresult : quietResult s c = minusOne := by
    rw [quietResult, h]
    rfl
  simp only [sysRead, ha.ebx, ha.ecx, ha.edx, toNat_eq_zero_iff]
  by_cases hbad : c.ebx ≠ 0#32 ∨ c.ecx = 0#32 ∨ c.edx = 0#32
  · rw [if_pos hbad, ← hresult]
    refine .quiet (quiet_of_eax h (by decide) (by decide) hprint hsend ?_) s.sched
    rintro ⟨-, hebx, hecx, hedx⟩
    exact hbad.elim (fun hne => hne hebx) fun hz => hz.elim hecx hedx
  · rw [if_neg hbad]
    rw [not_or, not_or, not_not] at hbad
    exact sysReadTake_does ⟨h, hbad⟩

/-- Everything the handler can do on the frame of `c`. -/
theorem syscallHandler_does (ha : ArgsAt s.heap.mem f c) :
    ∃ s' e, CallDoes s c s' e ∧ syscallHandler s f = storeResult f (s', e) := by
  have hquiet : ∀ {n : BitVec 32}, c.eax = n → n ≠ 0#32 → n ≠ 1#32 → n ≠ 2#32 → n ≠ 5#32 →
      c.Quiet := by
    intro n h h0 h1 h2 h5
    exact quiet_of_eax h h0 h5 (fun hp => h1 (h.symm.trans hp.1)) (fun hp => h1 (h.symm.trans hp.1))
      fun hr => h2 (h.symm.trans hr.1)
  have heax : ∀ n : Nat, n < 2 ^ 32 → c.eax.toNat = n → c.eax = BitVec.ofNat 32 n := by
    intro n hn h
    exact BitVec.eq_of_toNat_eq (by rw [h, BitVec.toNat_ofNat, Nat.mod_eq_of_lt hn])
  have hlist : ∀ {n : Nat} {fn : SysState → Nat → SysState × SysEnd}, c.eax.toNat = n →
      syscallTable[n]? = some fn → syscallHandler s f = storeResult f (fn s f) := by
    intro n fn hn hfn
    rw [syscallHandler, ha.eax, hn, hfn]
  match hn : c.eax.toNat with
  | 0 => exact ⟨_, _, .exit (heax 0 (by decide) hn), hlist hn rfl⟩
  | 1 => exact ⟨_, _, sysWrite_does ha (heax 1 (by decide) hn), hlist hn rfl⟩
  | 2 => exact ⟨_, _, sysRead_does ha (heax 2 (by decide) hn), hlist hn rfl⟩
  | 3 =>
      refine ⟨_, _, .quiet (hquiet (heax 3 (by decide) hn) (by decide) (by decide) (by decide)
        (by decide)) s.sched, ?_⟩
      rw [hlist hn rfl, quietResult, hn]
      rfl
  | 4 =>
      refine ⟨_, _, .quiet (hquiet (heax 4 (by decide) hn) (by decide) (by decide) (by decide)
        (by decide)) s.sched, ?_⟩
      rw [hlist hn rfl, quietResult, hn]
      rfl
  | 5 =>
      refine ⟨_, _, .sbrk (heax 5 (by decide) hn), ?_⟩
      rw [hlist hn rfl, sysSbrk, ha.ebx]
  | 6 =>
      refine ⟨_, _, .quiet (hquiet (heax 6 (by decide) hn) (by decide) (by decide) (by decide)
        (by decide)) (taskRequestReschedule s.sched), ?_⟩
      rw [hlist hn rfl, quietResult, hn]
      rfl
  | n + 7 =>
      have hne : ∀ k : Nat, k < 7 → c.eax ≠ BitVec.ofNat 32 k := by
        intro k hk heq
        rw [heq, BitVec.toNat_ofNat, Nat.mod_eq_of_lt (by omega)] at hn
        omega
      refine ⟨_, _, .quiet (hquiet rfl (hne 0 (by decide)) (hne 1 (by decide)) (hne 2 (by decide))
        (hne 5 (by decide))) s.sched, ?_⟩
      rw [syscallHandler, ha.eax, hn, quietResult, hn]
      rfl

end Does

/-! ## Pointers are not checked -/

section Escalation

variable {s : SysState} {c : Cpu} {esp0 f : Nat} {kb : Keyboard} {b : BitVec 8}

/-- A read stores the character wherever `ecx` points to. -/
theorem syscallHandler_read (ha : ArgsAt s.heap.mem f c) (hr : c.Reads)
    (hkey : keyboardGetchar s.kb = some (b, kb)) (hb : b ≠ 0#8) :
    syscallHandler s f = (({ s with kb := kb } : SysState).withMem
      (setFrameEax (store8 s.heap.mem c.ecx.toNat b) f 1#32), .ret 1#32) := by
  have hbad : ¬(c.ebx ≠ 0#32 ∨ c.ecx = 0#32 ∨ c.edx = 0#32) := by
    rw [not_or, not_or, not_not]
    exact hr.2
  have hsome : syscallTable[2]? = some sysRead := rfl
  have hnum : (2#32).toNat = 2 := rfl
  simp only [syscallHandler, ha.eax, hr.1, hnum, hsome, sysRead, ha.ebx, ha.ecx, ha.edx,
    toNat_eq_zero_iff, if_neg hbad, sysReadTake, hkey, if_neg hb, storeResult]
  rfl

/-- **Reading into the saved registers.** A user task that reads with its buffer at the code
selector saved in its frame, and gets a backspace: the processor accepts the frame, and the
task goes on at its own next instruction, in ring 0. -/
theorem sys_read_escalates {gdt tss idt : Nat} (hp : TablesPlaced gdt tss idt) (m : Mem)
    (isr : Nat → BitVec 32) (esps : List (BitVec 32)) (hcs : c.cs = GDT_USER_CODE_SEL)
    (hds : c.ds = 0x23#16) (hr : c.Reads) (hroom : 64 ≤ esp0)
    (hbuf : c.ecx.toNat = entryFrame c esp0 + 48)
    (hkey : keyboardGetchar s.kb = some (0x08#8, kb)) :
    let f := entryFrame c esp0
    let r := syscallHandler (sysEnter s c esp0) f
    r.2 = .ret 1#32
      ∧ readCtx r.1.heap.mem f = { c.ctx with
        eax := 1#32, cs := GDT_KERNEL_CODE_SEL, esp := BitVec.ofNat 32 (f + 56), ss := none }
      ∧ CtxLoads (loaded (tablesMem m gdt tss idt isr esps) gdt idt) (readCtx r.1.heap.mem f) := by
  have hring : ring3 c.cs = true := by
    rw [hcs]
    exact ring3_user
  have hfits : frameBytes c.cs ≤ entryStack c esp0 := by
    rw [frameBytes, entryStack, if_pos hring, if_pos hring]
    exact hroom
  have hctx := readCtx_sysEnter (s := s) hfits
  have hrun := syscallHandler_read (argsAt_of_readCtx hctx) hr hkey (by decide)
  intro f r
  have hmem : r.1.heap.mem
      = setFrameEax (store8 (sysEnter s c esp0).heap.mem (f + 48) 0x08#8) f 1#32 := by
    show (syscallHandler (sysEnter s c esp0) f).1.heap.mem = _
    rw [hrun, hbuf]
    rfl
  have hword : frameWord (sysEnter s c esp0).heap.mem f 12 = GDT_USER_CODE_SEL :=
    (congrArg Ctx.cs hctx).trans hcs
  have hresumed : readCtx r.1.heap.mem f = { c.ctx with
      eax := 1#32, cs := GDT_KERNEL_CODE_SEL, esp := BitVec.ofNat 32 (f + 56), ss := none } := by
    rw [hmem, readCtx_setFrameEax, readCtx_store8_cs hword (by decide), hctx]
    rfl
  have hok : TablesOk (tablesMem m gdt tss idt isr esps) gdt tss idt isr :=
    (tables_init hp m isr).setEsp0s hp esps
  refine ⟨congrArg Prod.snd hrun, hresumed, ?_⟩
  rw [hresumed]
  have hdata : (loaded (tablesMem m gdt tss idt isr esps) gdt idt).dataOk 0 c.ds = true := by
    rw [hds]
    exact hok.dataOk_user (by decide)
  have hrpl : rpl 0x08#16 = 0 := by decide
  refine ⟨hok.iretOk_kernel, hdata, ?_⟩
  show (loaded (tablesMem m gdt tss idt isr esps) gdt idt).dataOk (rpl 0x08#16) c.ds = true
  rw [hrpl]
  exact hdata

end Escalation

/-- The backspace key has been pressed. -/
def backspaceTyped : SysState where
  heap := heapInit fun _ => 0#8
  sched := ⟨fun _ => zeroTask, 0, 0, false, false, 0⟩
  kb := keyboardIrqHandler (keyboardInit ⟨0#8, false, fun _ => 0#8, 0, 0⟩) 0x0E#8
  vga := Vga.static (fun _ => 0#16) 0
  serial := []
  timerTicks := 0

/-- A user task about to read one character to where its code selector will be saved. -/
def aimedRead : Cpu where
  ds := 0x23#16
  edi := 0#32
  esi := 0#32
  ebp := 0#32
  ebx := 0#32
  edx := 1#32
  ecx := 0x0023FFF0#32
  eax := 2#32
  eip := 0x00101000#32
  cs := GDT_USER_CODE_SEL
  eflags := 0x202#32
  esp := 0x00250000#32
  ss := GDT_USER_DATA_SEL

theorem sys_read_escalates_backspace :
    (readCtx (syscallHandler (sysEnter backspaceTyped aimedRead 0x240000)
      (entryFrame aimedRead 0x240000)).1.heap.mem (entryFrame aimedRead 0x240000)).cs
        = GDT_KERNEL_CODE_SEL := by
  have hkey : keyboardGetchar backspaceTyped.kb
      = some (0x08#8, { backspaceTyped.kb with kbTail := 1 }) := rfl
  have hbuf : aimedRead.ecx.toNat = entryFrame aimedRead 0x240000 + 48 := rfl
  have h := sys_read_escalates
    (⟨by decide, by decide, by decide, by decide⟩ : TablesPlaced 0x1000 0x2000 0x3000)
    (fun _ => 0#8) (BitVec.ofNat 32 ·) [] rfl rfl ⟨rfl, rfl, by decide, by decide⟩ (by decide)
    hbuf hkey
  exact congrArg Ctx.cs h.2.1

end Matryoshka
