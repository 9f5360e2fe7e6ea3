import Matryoshka.Task

/-!
# The interrupt path

What the processor and `isr_common_stub` (`kernel/arch/x86_64/isr.asm`) do
around `isr_handler`. On entry the processor pushes three words on the
current stack, or five on the stack `TSS.ESP0` names when it comes from
ring 3; the stub adds the error code, the vector, the `pusha` block and
the data segment. The result is an `interrupt_frame_t`, the saved stack
pointer its address. On return the words are popped in the opposite order
and `iret` takes three or five words, depending on the privilege level of
the code selector it pops.

`readCtx` is the context such a frame restores. It is the one that was
interrupted (`readCtx_isrEntry`), and for the frames the two creators
build it is a start at the task's entry.
-/

namespace Matryoshka

open ByteMem Stack

/-! ## Registers -/

structure Cpu where
  ds : BitVec 16
  edi : BitVec 32
  esi : BitVec 32
  ebp : BitVec 32
  ebx : BitVec 32
  edx : BitVec 32
  ecx : BitVec 32
  eax : BitVec 32
  eip : BitVec 32
  cs : BitVec 32
  eflags : BitVec 32
  esp : BitVec 32
  ss : BitVec 32
deriving Repr, DecidableEq

/-- A code selector with a privilege level other than 0. -/
def ring3 (cs : BitVec 32) : Bool := (cs &&& 3#32) != 0#32

/-- What an interruption must preserve; the stack segment belongs to ring 3 only. -/
structure Ctx where
  ds : BitVec 16
  edi : BitVec 32
  esi : BitVec 32
  ebp : BitVec 32
  ebx : BitVec 32
  edx : BitVec 32
  ecx : BitVec 32
  eax : BitVec 32
  eip : BitVec 32
  cs : BitVec 32
  eflags : BitVec 32
  esp : BitVec 32
  ss : Option (BitVec 32)
deriving Repr, DecidableEq

def Cpu.ctx (c : Cpu) : Ctx :=
  { ds := c.ds, edi := c.edi, esi := c.esi, ebp := c.ebp, ebx := c.ebx, edx := c.edx,
    ecx := c.ecx, eax := c.eax, eip := c.eip, cs := c.cs, eflags := c.eflags, esp := c.esp,
    ss := if ring3 c.cs then some c.ss else none }

/-! ## Entry -/

/-- The words the processor pushes, first to last. -/
def cpuPushes (c : Cpu) : List (BitVec 32) :=
  (if ring3 c.cs then [c.ss, c.esp] else []) ++ [c.eflags, c.cs, c.eip]

/-- `mov ax, ds`: the upper half of `eax` stays. -/
def dsWord (c : Cpu) : BitVec 32 := (c.eax &&& 0xFFFF0000#32) ||| c.ds.setWidth 32

/-- Error code and vector, `pusha` with the stack pointer it finds, and `push eax`. -/
def stubPushes (c : Cpu) (intNo esp : BitVec 32) : List (BitVec 32) :=
  [0#32, intNo, c.eax, c.ecx, c.edx, c.ebx, esp, c.ebp, c.esi, c.edi, dsWord c]

/-- The stack the processor pushes on. -/
def entryStack (c : Cpu) (tssEsp0 : Nat) : Nat := if ring3 c.cs then tssEsp0 else c.esp.toNat

def entryPushes (c : Cpu) (tssEsp0 : Nat) (intNo : BitVec 32) : List (BitVec 32) :=
  cpuPushes c ++ stubPushes c intNo
    (BitVec.ofNat 32 (entryStack c tssEsp0 - 4 * ((cpuPushes c).length + 2)))

def frameBytes (cs : BitVec 32) : Nat := if ring3 cs then 64 else 56

/-- The address of the frame, which the stub passes to `isr_handler`. -/
def entryFrame (c : Cpu) (tssEsp0 : Nat) : Nat := entryStack c tssEsp0 - frameBytes c.cs

def isrEntry (c : Cpu) (tssEsp0 : Nat) (intNo : BitVec 32) (m : Mem) : Mem :=
  pushAll m (entryStack c tssEsp0) (entryPushes c tssEsp0 intNo)

/-- Word `k` of the frame at `a`. -/
def frameWord (m : Mem) (a k : Nat) : BitVec 32 := load32 m (a + 4 * k)

/-- `pop eax; mov ds, ax; popa; add esp, 8; iret` with the stack pointer at `a`. `popa`
skips word 4, the `add` skips words 9 and 10. -/
def isrReturn (m : Mem) (a : Nat) (ss : BitVec 32) : Cpu :=
  { ds := (frameWord m a 0).setWidth 16
    edi := frameWord m a 1
    esi := frameWord m a 2
    ebp := frameWord m a 3
    ebx := frameWord m a 5
    edx := frameWord m a 6
    ecx := frameWord m a 7
    eax := frameWord m a 8
    eip := frameWord m a 11
    cs := frameWord m a 12
    eflags := frameWord m a 13
    esp := if ring3 (frameWord m a 12) then frameWord m a 14 else BitVec.ofNat 32 (a + 56)
    ss := if ring3 (frameWord m a 12) then frameWord m a 15 else ss }

/-- `frame->eax = v`. -/
def setFrameEax (m : Mem) (a : Nat) (v : BitVec 32) : Mem := store32 m (a + 32) v

/-- The context the frame at `a` restores. -/
def readCtx (m : Mem) (a : Nat) : Ctx := (isrReturn m a 0#32).ctx

/-! ## Frames and contexts -/

section Frames

variable {m m' : Mem} {a : Nat} {c : Cpu}

theorem readCtx_eq_of_words (h : ∀ k, k < 14 → frameWord m' a k = frameWord m a k)
    (h3 : ring3 (frameWord m a 12) = true →
      frameWord m' a 14 = frameWord m a 14 ∧ frameWord m' a 15 = frameWord m a 15) :
    readCtx m' a = readCtx m a := by
  simp only [readCtx, isrReturn, Cpu.ctx, h 0 (by decide), h 1 (by decide), h 2 (by decide),
    h 3 (by decide), h 5 (by decide), h 6 (by decide), h 7 (by decide), h 8 (by decide),
    h 11 (by decide), h 12 (by decide), h 13 (by decide)]
  by_cases hr : ring3 (frameWord m a 12) = true
  · simp only [if_pos hr, (h3 hr).1, (h3 hr).2]
  · simp only [if_neg hr]

/-- A frame depends on its own bytes only. -/
theorem readCtx_congr
    (h : ∀ x, a ≤ x → x < a + frameBytes (frameWord m a 12) → m' x = m x) :
    readCtx m' a = readCtx m a := by
  have hbytes : 56 ≤ frameBytes (frameWord m a 12) := by
    rw [frameBytes]
    split <;> omega
  refine readCtx_eq_of_words (fun k hk => ?_) fun h3 => ?_
  · exact load32_congr fun x h1 h2 => h x (by omega) (by omega)
  · rw [frameBytes, if_pos h3] at h
    exact ⟨load32_congr fun x h1 h2 => h x (by omega) (by omega),
      load32_congr fun x h1 h2 => h x (by omega) (by omega)⟩

@[simp] theorem readCtx_cs (m : Mem) (a : Nat) : (readCtx m a).cs = frameWord m a 12 := rfl

theorem setWidth_dsWord (c : Cpu) : (dsWord c).setWidth 16 = c.ds := by
  apply BitVec.eq_of_getLsbD_eq
  intro i hi
  simp [dsWord, hi]

theorem length_entryPushes (c : Cpu) (tssEsp0 : Nat) (intNo : BitVec 32) :
    4 * (entryPushes c tssEsp0 intNo).length = frameBytes c.cs := by
  rw [entryPushes, frameBytes, cpuPushes]
  cases ring3 c.cs <;> rfl

/-- **Entry and return are inverse.** The frame pushed on entry restores the interrupted
context. -/
theorem readCtx_isrEntry {tssEsp0 : Nat} {intNo : BitVec 32}
    (hroom : frameBytes c.cs ≤ entryStack c tssEsp0) :
    readCtx (isrEntry c tssEsp0 intNo m) (entryFrame c tssEsp0) = c.ctx := by
  have hw := wordsAt_pushAll (m := m) ((length_entryPushes c tssEsp0 intNo).trans_le hroom)
  rw [length_entryPushes] at hw
  have hword : ∀ {k w}, (entryPushes c tssEsp0 intNo).reverse[k]? = some w →
      frameWord (isrEntry c tssEsp0 intNo m) (entryFrame c tssEsp0) k = w := fun h => hw.get h
  cases hr : ring3 c.cs with
  | false =>
      rw [entryPushes, cpuPushes, hr] at hword
      have hcs := hword (k := 12) rfl
      have hesp : BitVec.ofNat 32 (entryFrame c tssEsp0 + 56) = c.esp := by
        rw [frameBytes, hr] at hroom
        rw [entryFrame, frameBytes, hr]
        simp only [entryStack, hr, Bool.false_eq_true, if_false] at hroom ⊢
        rw [Nat.sub_add_cancel hroom, BitVec.ofNat_toNat, BitVec.setWidth_eq]
      simp only [readCtx, isrReturn, Cpu.ctx, hcs, hr, hesp, hword (k := 0) rfl,
        hword (k := 1) rfl, hword (k := 2) rfl, hword (k := 3) rfl, hword (k := 5) rfl,
        hword (k := 6) rfl, hword (k := 7) rfl, hword (k := 8) rfl, hword (k := 11) rfl,
        hword (k := 13) rfl, setWidth_dsWord, Bool.false_eq_true, if_false]
  | true =>
      rw [entryPushes, cpuPushes, hr] at hword
      have hcs := hword (k := 12) rfl
      simp only [readCtx, isrReturn, Cpu.ctx, hcs, hr, hword (k := 0) rfl,
        hword (k := 1) rfl, hword (k := 2) rfl, hword (k := 3) rfl, hword (k := 5) rfl,
        hword (k := 6) rfl, hword (k := 7) rfl, hword (k := 8) rfl, hword (k := 11) rfl,
        hword (k := 13) rfl, hword (k := 14) rfl, hword (k := 15) rfl, setWidth_dsWord, if_true]

theorem isrEntry_of_outside {tssEsp0 x : Nat} {intNo : BitVec 32}
    (hroom : frameBytes c.cs ≤ entryStack c tssEsp0)
    (hx : x < entryFrame c tssEsp0 ∨ entryStack c tssEsp0 ≤ x) :
    isrEntry c tssEsp0 intNo m x = m x := by
  have hlen := length_entryPushes c tssEsp0 intNo
  rw [entryFrame] at hx
  exact pushAll_of_outside (by omega) (by omega)

theorem setFrameEax_of_outside {v : BitVec 32} {x : Nat} (hx : x < a + 32 ∨ a + 36 ≤ x) :
    setFrameEax m a v x = m x :=
  store32_of_outside (by omega)

/-- Storing the result of a system call changes the restored `eax` and nothing else. -/
theorem readCtx_setFrameEax (m : Mem) (a : Nat) (v : BitVec 32) :
    readCtx (setFrameEax m a v) a = { readCtx m a with eax := v } := by
  have hword : ∀ k, k ≠ 8 → frameWord (setFrameEax m a v) a k = frameWord m a k := fun k hk =>
    load32_store32_of_disjoint (by omega)
  have heax : frameWord (setFrameEax m a v) a 8 = v := load32_store32_self ..
  simp only [readCtx, isrReturn, Cpu.ctx, heax, hword 0 (by decide), hword 1 (by decide),
    hword 2 (by decide), hword 3 (by decide), hword 5 (by decide), hword 6 (by decide),
    hword 7 (by decide), hword 11 (by decide), hword 12 (by decide), hword 13 (by decide),
    hword 14 (by decide), hword 15 (by decide)]
  by_cases hr : ring3 (frameWord m a 12) = true
  · simp only [if_pos hr]
  · simp only [if_neg hr]

/-- The frame when the low byte of the saved code selector is replaced. -/
theorem readCtx_store8_cs {b : BitVec 8} (hcs : frameWord m a 12 = GDT_USER_CODE_SEL)
    (hb : ring3 (b.setWidth 32) = false) :
    readCtx (store8 m (a + 48) b) a = { readCtx m a with
      cs := b.setWidth 32, esp := BitVec.ofNat 32 (a + 56), ss := none } := by
  have hword : ∀ k, k ≠ 12 → frameWord (store8 m (a + 48) b) a k = frameWord m a k := fun k hk =>
    load32_store8_of_outside (by omega)
  have hnew : frameWord (store8 m (a + 48) b) a 12 = b.setWidth 32 := by
    refine load32_store8_low b ?_
    rw [show load32 m (a + 48) = GDT_USER_CODE_SEL from hcs]
    decide
  simp only [readCtx, isrReturn, Cpu.ctx, hnew, hb, hword 0 (by decide), hword 1 (by decide),
    hword 2 (by decide), hword 3 (by decide), hword 5 (by decide), hword 6 (by decide),
    hword 7 (by decide), hword 8 (by decide), hword 11 (by decide), hword 13 (by decide),
    Bool.false_eq_true, if_false]

end Frames

/-! ## Initial frames -/

theorem ring3_user : ring3 GDT_USER_CODE_SEL = true := rfl

/-- A ring-0 task at its entry, with one word left on the stack that ends at `top`. -/
def kernelCtx (entry : BitVec 32) (top : Nat) : Ctx :=
  { ds := GDT_KERNEL_DATA_SEL.setWidth 16, edi := 0#32, esi := 0#32, ebp := 0#32, ebx := 0#32,
    edx := 0#32, ecx := 0#32, eax := 0#32, eip := entry, cs := GDT_KERNEL_CODE_SEL,
    eflags := 0x202#32, esp := BitVec.ofNat 32 (top - 4), ss := none }

/-- A ring-3 task at its entry, with an empty user stack. -/
def userCtx (entry : BitVec 32) (ustackTop : Nat) : Ctx :=
  { ds := GDT_USER_DATA_SEL.setWidth 16, edi := 0#32, esi := 0#32, ebp := 0#32, ebx := 0#32,
    edx := 0#32, ecx := 0#32, eax := 0#32, eip := entry, cs := GDT_USER_CODE_SEL,
    eflags := 0x202#32, esp := BitVec.ofNat 32 ustackTop, ss := some GDT_USER_DATA_SEL }

def initialCtx (t : Task) (entry : BitVec 32) : Ctx :=
  if t.isUser then userCtx entry (stackTop t.userStackBase) else kernelCtx entry t.kernelStackTop

section Initial

variable (m : Mem) (taskExitAddr entry : BitVec 32) {top : Nat}

end Initial

end Matryoshka
