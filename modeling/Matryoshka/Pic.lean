import Matryoshka.I8259
import Matryoshka.Word

/-!
# Interrupt requests

`kernel/arch/x86_64/pic.c` over a pair of controllers, and what
`isr_handler` (`kernel/arch/x86_64/idt.c`) and the handlers it calls do to
them. The gates clear the interrupt flag and no handler sets it before it
has signalled the end of its interrupt, so an interrupt reaches its
`pic_send_eoi` before the next one is taken, whatever was interrupted.

`irq_refines_lines` is about every run: however requests come and go, and
whatever the drivers enable in between, the controllers behave like
sixteen lines without any state of service. No interrupt blocks another
one, and a spurious one, which is ended like a real one, does no harm.
`only_timer_and_keyboard` is what follows for the calls of this kernel.
-/

namespace Matryoshka

open I8259

/-! ## Ports -/

def PIC1_COMMAND : Nat := 0x20

def PIC1_DATA : Nat := 0x21

def PIC2_COMMAND : Nat := 0xA0

def PIC2_DATA : Nat := 0xA1

def PIC_EOI : BitVec 8 := 0x20#8

def ICW1_ICW4 : BitVec 8 := 0x01#8

def ICW1_INIT : BitVec 8 := 0x10#8

def ICW4_8086 : BitVec 8 := 0x01#8

def IRQ_OFFSET : BitVec 8 := 32#8

/-- `outb`; the ports of other devices do not matter here. -/
def picOut (p : Pair) (port : Nat) (value : BitVec 8) : Pair :=
  if port = PIC1_COMMAND then { p with master := writeCommand p.master value }
  else if port = PIC1_DATA then { p with master := writeData p.master value }
  else if port = PIC2_COMMAND then { p with slave := writeCommand p.slave value }
  else if port = PIC2_DATA then { p with slave := writeData p.slave value }
  else p

/-- `inb` of a data port reads the mask. -/
def picIn (p : Pair) (port : Nat) : BitVec 8 :=
  if port = PIC1_DATA then p.master.imr else p.slave.imr

def ioWait (p : Pair) : Pair := picOut p 0x80 0#8

/-! ## The driver -/

def picInit (p : Pair) : Pair :=
  let p := ioWait (picOut p PIC1_COMMAND (ICW1_INIT ||| ICW1_ICW4))
  let p := ioWait (picOut p PIC2_COMMAND (ICW1_INIT ||| ICW1_ICW4))
  let p := ioWait (picOut p PIC1_DATA IRQ_OFFSET)
  let p := ioWait (picOut p PIC2_DATA (IRQ_OFFSET + 8#8))
  let p := ioWait (picOut p PIC1_DATA 0x04#8)
  let p := ioWait (picOut p PIC2_DATA 0x02#8)
  let p := ioWait (picOut p PIC1_DATA ICW4_8086)
  let p := ioWait (picOut p PIC2_DATA ICW4_8086)
  let p := picOut p PIC1_DATA 0xFF#8
  picOut p PIC2_DATA 0xFF#8

def picSendEoi (p : Pair) (irq : Nat) : Pair :=
  let p := if 8 ≤ irq then picOut p PIC2_COMMAND PIC_EOI else p
  picOut p PIC1_COMMAND PIC_EOI

/-- The data port of an `irq`, and its number at that controller. -/
def irqPort (irq : Nat) : Nat × Nat := if irq < 8 then (PIC1_DATA, irq) else (PIC2_DATA, irq - 8)

/-- `value = inb(port) & ~(1 << irq)`, computed as an `int`. -/
def picEnableIrq (p : Pair) (irq : Nat) : Pair :=
  match irqPort irq with
  | (port, irq) => picOut p port (((picIn p port).setWidth 32 &&& ~~~(1#32 <<< irq)).setWidth 8)

/-- `value = inb(port) | (1 << irq)`. -/
def picDisableIrq (p : Pair) (irq : Nat) : Pair :=
  match irqPort irq with
  | (port, irq) => picOut p port (((picIn p port).setWidth 32 ||| (1#32 <<< irq)).setWidth 8)

def picGetMask (p : Pair) : BitVec 16 :=
  ((picIn p PIC2_DATA).setWidth 16 <<< 8) ||| (picIn p PIC1_DATA).setWidth 16

def picSetMask (p : Pair) (mask : BitVec 16) : Pair :=
  let p := picOut p PIC1_DATA ((mask &&& 0xFF#16).setWidth 8)
  picOut p PIC2_DATA (((mask >>> 8) &&& 0xFF#16).setWidth 8)

/-! ## Handlers -/

/-- The functions that are registered as handlers. -/
inductive Handler where
  | timer
  | keyboard
  | pageFault
  | syscall
  | yield
  deriving DecidableEq

/-- Where `timer_init`, `keyboard_init`, `vmm_init`, `syscall_init` and `task_init` register
them. -/
def Handler.vector : Handler → Nat
  | timer => 32
  | keyboard => 33
  | pageFault => 14
  | syscall => 128
  | yield => 129

/-- `interrupt_handlers`. -/
abbrev Handlers := Nat → Option Handler

def idtRegisterHandler (t : Handlers) (num : Nat) (h : Handler) : Handlers :=
  Function.update t num (some h)

/-- What `isr_handler` does to the controllers for vector `intNo`; `none` if it does not
return. Every path through `keyboard_irq_handler` has one `pic_send_eoi(1)`. -/
def isrHandlerPic (t : Handlers) (p : Pair) (intNo : Nat) : Option Pair :=
  match t intNo with
  | some .timer => some (picSendEoi p 0)
  | some .keyboard => some (picSendEoi p 1)
  | some .pageFault => none
  | some .syscall | some .yield => some p
  | none =>
      if intNo < 32 then none
      else if intNo < 48 then some (picSendEoi p (intNo - 32))
      else some p

/-! ## Runs -/

inductive IrqEvent where
  /-- A device sets or takes back its request. -/
  | request (line : Nat) (b : Bool)
  | enable (irq : Nat)
  | disable (irq : Nat)
  | setMask (mask : BitVec 16)
  | register (h : Handler)
  /-- The processor takes an interrupt; `late` are requests withdrawn meanwhile. -/
  | interrupt (late : BitVec 8)

/-- The controllers, the table, and the vectors taken so far, last first. -/
structure IrqState where
  pic : Pair
  handlers : Handlers
  taken : List Nat

def irqStep (s : IrqState) : IrqEvent → Option IrqState
  | .request line b => some { s with pic := s.pic.request line b }
  | .enable irq => some { s with pic := picEnableIrq s.pic irq }
  | .disable irq => some { s with pic := picDisableIrq s.pic irq }
  | .setMask mask => some { s with pic := picSetMask s.pic mask }
  | .register h => some { s with handlers := idtRegisterHandler s.handlers h.vector h }
  | .interrupt late =>
      let r := intAck s.pic late
      (isrHandlerPic s.handlers r.2 r.1).map fun p => { s with pic := p, taken := r.1 :: s.taken }

def irqRun (s : IrqState) : List IrqEvent → Option IrqState
  | [] => some s
  | e :: es => (irqStep s e).bind fun s => irqRun s es

/-- Right after `idt_init` and `pic_init`. -/
def irqBoot (p : Pair) : IrqState := ⟨picInit p, fun _ => none, []⟩

/-- The same over sixteen lines. -/
def linesStep (a : Lines × List Nat) : IrqEvent → Lines × List Nat
  | .request line b => (a.1.request line b, a.2)
  | .enable irq => (a.1.enable irq true, a.2)
  | .disable irq => (a.1.enable irq false, a.2)
  | .setMask mask => ({ a.1 with enabled := fun j => !mask.getLsbD j }, a.2)
  | .register _ => a
  | .interrupt late => ((a.1.deliver late).2, (a.1.deliver late).1 :: a.2)

def linesRun (a : Lines × List Nat) (es : List IrqEvent) : Lines × List Nat := es.foldl linesStep a

def noLines : Lines := ⟨fun _ => false, fun _ => false⟩

/-- The lines of the two controllers have numbers below 16. -/
def IrqEvent.Valid : IrqEvent → Prop
  | .enable irq | .disable irq => irq < 16
  | _ => True

/-! ## The driver and the lines -/

section Driver

variable {p : Pair} {base : BitVec 8} {a : Lines} {irq : Nat}

theorem picOut_command1 (p : Pair) (v : BitVec 8) :
    picOut p PIC1_COMMAND v = { p with master := writeCommand p.master v } := rfl

theorem picOut_data1 (p : Pair) (v : BitVec 8) :
    picOut p PIC1_DATA v = { p with master := writeData p.master v } := rfl

theorem picOut_command2 (p : Pair) (v : BitVec 8) :
    picOut p PIC2_COMMAND v = { p with slave := writeCommand p.slave v } := rfl

theorem picOut_data2 (p : Pair) (v : BitVec 8) :
    picOut p PIC2_DATA v = { p with slave := writeData p.slave v } := rfl

theorem writeCommand_eoi (c : Chip) : writeCommand c PIC_EOI = eoi c := by
  rw [writeCommand, if_neg (by decide), if_neg (by decide), if_pos (by decide)]

theorem picSendEoi_eq (p : Pair) (irq : Nat) : picSendEoi p irq = p.finish irq := by
  rw [picSendEoi, Pair.finish]
  by_cases h : 8 ≤ irq
  · simp only [if_pos h, picOut_command2, picOut_command1, writeCommand_eoi]
  · simp only [if_neg h, picOut_command1, writeCommand_eoi]

theorem I8259.Chip.Idle.writeData {c : Chip} {cascade : BitVec 8}
    (h : c.Idle base cascade) (v : BitVec 8) :
    writeData c v = { c with imr := v } := by
  rw [I8259.writeData, h.phase]

/-- `inb(port) & ~(1 << n)` and `inb(port) | (1 << n)`, cut to a byte. -/
theorem mask_byte (r : BitVec 8) {n : Nat} (hn : n < 8) :
    (r.setWidth 32 &&& ~~~(1#32 <<< n)).setWidth 8 = putBit r n false
      ∧ (r.setWidth 32 ||| (1#32 <<< n)).setWidth 8 = putBit r n true := by
  have hbit : ∀ {j : Nat}, j < 8 → (1#32 <<< n).getLsbD j = decide (n = j) := by
    intro j hj
    rw [Word.getLsbD_mask (by omega) (by omega)]
    exact decide_eq_decide.mpr eq_comm
  have hlow : ∀ {j : Nat}, j < 8 → (r.setWidth 32).getLsbD j = r.getLsbD j := by
    intro j hj
    rw [BitVec.getLsbD_setWidth, decide_eq_true (by omega), Bool.true_and]
  constructor
  · apply BitVec.eq_of_getLsbD_eq
    intro j hj
    rw [getLsbD_putBit _ _ _ hj, BitVec.getLsbD_setWidth, BitVec.getLsbD_and, BitVec.getLsbD_not,
      hbit hj, hlow hj, decide_eq_true hj, decide_eq_true (show j < 32 by omega)]
    by_cases h : n = j <;> simp [h]
  · apply BitVec.eq_of_getLsbD_eq
    intro j hj
    rw [getLsbD_putBit _ _ _ hj, BitVec.getLsbD_setWidth, BitVec.getLsbD_or, hbit hj, hlow hj,
      decide_eq_true hj]
    by_cases h : n = j <;> simp [h]

theorem I8259.Tracks.picOut_mask (h : Tracks p base a) (irq : Nat) (b : Bool) :
    picOut p (irqPort irq).1 (putBit (picIn p (irqPort irq).1) (irqPort irq).2 b)
      = p.mask irq b := by
  rw [irqPort, Pair.mask]
  split
  · rw [picOut_data1, h.master.writeData]
    rfl
  · rw [picOut_data2, h.slave.writeData]
    rfl

theorem irqPort_lt (h : irq < 16) : (irqPort irq).2 < 8 := by
  rw [irqPort]
  split <;> omega

theorem I8259.Tracks.picEnableIrq (h : Tracks p base a) (hirq : irq < 16) :
    Tracks (picEnableIrq p irq) base (a.enable irq true) := by
  rw [Matryoshka.picEnableIrq]
  dsimp only
  rw [(mask_byte _ (irqPort_lt hirq)).1, h.picOut_mask]
  exact h.mask irq false

theorem I8259.Tracks.picDisableIrq (h : Tracks p base a) (hirq : irq < 16) :
    Tracks (picDisableIrq p irq) base (a.enable irq false) := by
  rw [Matryoshka.picDisableIrq]
  dsimp only
  rw [(mask_byte _ (irqPort_lt hirq)).2, h.picOut_mask]
  exact h.mask irq true

theorem I8259.Tracks.picSetMask (h : Tracks p base a) (mask : BitVec 16) :
    Tracks (picSetMask p mask) base { a with enabled := fun j => !mask.getLsbD j } := by
  have hout : Matryoshka.picSetMask p mask
      = ⟨{ p.master with imr := (mask &&& 0xFF#16).setWidth 8 },
        { p.slave with imr := ((mask >>> 8) &&& 0xFF#16).setWidth 8 }⟩ := by
    simp only [Matryoshka.picSetMask, picOut_data1, picOut_data2, h.master.writeData,
      h.slave.writeData]
  have hlow : ∀ (w : BitVec 16) {j : Nat}, j < 8 →
      ((w &&& 0xFF#16).setWidth 8).getLsbD j = w.getLsbD j := by
    intro w j hj
    have hff : (0xFF#16).getLsbD j = true := by
      revert j
      decide
    rw [BitVec.getLsbD_setWidth, decide_eq_true hj, Bool.true_and, BitVec.getLsbD_and, hff,
      Bool.and_true]
  rw [hout]
  refine ⟨h.master.of_imr _, h.slave.of_imr _, fun j hj => ?_, fun j hj => ?_, h.masterIrr,
    h.slaveIrr⟩
  · rw [Bool.not_not]
    exact hlow mask hj
  · rw [Bool.not_not]
    exact (hlow _ hj).trans (BitVec.getLsbD_ushiftRight ..)

/-- `pic_get_mask` has the bits of the disabled lines. -/
theorem I8259.Tracks.picGetMask (h : Tracks p base a) {j : Nat} (hj : j < 16) :
    (picGetMask p).getLsbD j = !a.enabled j := by
  have hmask : (Matryoshka.picGetMask p).getLsbD j
      = if j < 8 then p.master.imr.getLsbD j else p.slave.imr.getLsbD (j - 8) := by
    simp only [Matryoshka.picGetMask, picIn, BitVec.getLsbD_or, BitVec.getLsbD_shiftLeft,
      BitVec.getLsbD_setWidth]
    by_cases hlow : j < 8
    · simp [hlow, hj, PIC1_DATA, PIC2_DATA]
    · have hhigh : p.master.imr.getLsbD j = false := BitVec.getLsbD_of_ge _ _ (by omega)
      simp [hlow, hj, hhigh, PIC1_DATA, PIC2_DATA, show j - 8 < 16 by omega]
  rw [hmask]
  split
  · next hlow => exact h.masterImr j hlow
  · next hlow =>
      rw [h.slaveImr (j - 8) (by omega), Nat.add_sub_of_le (by omega)]

/-- Whatever state the controllers were in, `pic_init` leaves them set up and masked. -/
theorem picInit_tracks (p : Pair) : Tracks (picInit p) IRQ_OFFSET noLines := by
  have hinit : picInit p = ⟨⟨0#8, 0xFF#8, 0#8, 32#8, .ready, false, true, false, 4#8⟩,
      ⟨0#8, 0xFF#8, 0#8, 40#8, .ready, false, true, false, 2#8⟩⟩ := rfl
  rw [hinit]
  refine ⟨⟨rfl, rfl, rfl, rfl, rfl, rfl⟩, ⟨rfl, rfl, rfl, rfl, rfl, rfl⟩, ?_, ?_, ?_, ?_⟩
  all_goals decide

end Driver

/-! ## Whole runs -/

/-- The handlers stand at their own vectors. -/
def Wired (t : Handlers) : Prop := ∀ v h, t v = some h → v = h.vector

/-- The controllers track the lines, and the vectors taken are those of the lines. -/
structure IrqSim (s : IrqState) (a : Lines × List Nat) : Prop where
  tracks : Tracks s.pic IRQ_OFFSET a.1
  wired : Wired s.handlers
  taken : s.taken = a.2.map (32 + ·)

section Runs

variable {s s' : IrqState} {a : Lines × List Nat} {t : Handlers} {n : Nat} {e : IrqEvent}

theorem Wired.register (hw : Wired t) (h : Handler) :
    Wired (idtRegisterHandler t h.vector h) := by
  intro v h' hv
  rw [idtRegisterHandler, Function.update_apply] at hv
  split at hv
  · next heq =>
      cases hv
      exact heq
  · exact hw v h' hv

/-- An interrupt of a line is ended for that line. -/
theorem isrHandlerPic_line (hw : Wired t) (p : Pair) (hn : n < 16) :
    isrHandlerPic t p (32 + n) = some (p.finish n) := by
  rw [isrHandlerPic]
  cases ht : t (32 + n) with
  | none =>
      dsimp only
      rw [if_neg (by omega), if_pos (by omega), picSendEoi_eq, Nat.add_sub_cancel_left]
  | some h =>
      have hv := hw _ _ ht
      cases h with
      | timer =>
          obtain rfl : n = 0 := by
            rw [Handler.vector] at hv
            omega
          exact congrArg some (picSendEoi_eq p 0)
      | keyboard =>
          obtain rfl : n = 1 := by
            rw [Handler.vector] at hv
            omega
          exact congrArg some (picSendEoi_eq p 1)
      | pageFault | syscall | yield =>
          rw [Handler.vector] at hv
          omega

theorem deliver_lt (l : Lines) (late : BitVec 8) : (l.deliver late).1 < 16 := by
  have hbound : ∀ n ∈ order, n < 16 := by decide
  have hbound' : ∀ n ∈ slaveOrder, n < 16 := by decide
  rw [Lines.deliver]
  cases hf : order.find? l.wants with
  | none => exact (by decide : 7 < 16)
  | some n =>
      dsimp only
      split
      · exact hbound n (List.mem_of_find?_eq_some hf)
      · rw [Lines.deliverSlave]
        cases hs : slaveOrder.find? (l.drop late).wants with
        | none => exact (by decide : 15 < 16)
        | some k => exact hbound' k (List.mem_of_find?_eq_some hs)

theorem IrqSim.interrupt (h : IrqSim s a) (late : BitVec 8) :
    ∃ s', irqStep s (.interrupt late) = some s' ∧ IrqSim s' (linesStep a (.interrupt late)) := by
  obtain ⟨hvec, htracks⟩ := h.tracks.intAck (show (32#8).toNat + 8 < 256 by decide) late
  rw [show IRQ_OFFSET.toNat = 32 from rfl] at hvec
  refine ⟨⟨(intAck s.pic late).2.finish (a.1.deliver late).1, s.handlers,
    (intAck s.pic late).1 :: s.taken⟩, ?_, htracks, h.wired, ?_⟩
  · rw [irqStep, hvec, isrHandlerPic_line h.wired _ (deliver_lt a.1 late), Option.map_some]
  · dsimp only [linesStep]
    rw [hvec, h.taken, List.map_cons]

theorem IrqSim.step (h : IrqSim s a) (hv : e.Valid) :
    ∃ s', irqStep s e = some s' ∧ IrqSim s' (linesStep a e) := by
  cases e with
  | request line b => exact ⟨_, rfl, h.tracks.request line b, h.wired, h.taken⟩
  | enable irq => exact ⟨_, rfl, h.tracks.picEnableIrq hv, h.wired, h.taken⟩
  | disable irq => exact ⟨_, rfl, h.tracks.picDisableIrq hv, h.wired, h.taken⟩
  | setMask mask => exact ⟨_, rfl, h.tracks.picSetMask mask, h.wired, h.taken⟩
  | register handler => exact ⟨_, rfl, h.tracks, h.wired.register handler, h.taken⟩
  | interrupt late => exact h.interrupt late

theorem IrqSim.run {es : List IrqEvent} (h : IrqSim s a) (hv : ∀ e ∈ es, e.Valid) :
    ∃ s', irqRun s es = some s' ∧ IrqSim s' (linesRun a es) := by
  induction es generalizing s a with
  | nil => exact ⟨s, rfl, h⟩
  | cons e es ih =>
      obtain ⟨s₁, hstep, h₁⟩ := h.step (hv e List.mem_cons_self)
      obtain ⟨s', hrun, h'⟩ := ih h₁ fun e' he' => hv e' (List.mem_cons_of_mem e he')
      exact ⟨s', by rw [irqRun, hstep, Option.bind_some, hrun], h'⟩

theorem irqSim_boot (p : Pair) : IrqSim (irqBoot p) (noLines, []) := by
  refine ⟨picInit_tracks p, fun v h hv => ?_, rfl⟩
  cases hv

/-- **Interrupt requests.** From any state of the controllers, after `pic_init` and any
sequence of requests, driver calls, registrations and interrupts: every interrupt comes back
from `isr_handler`; the vectors taken are 32 more than the lines that sixteen independent
lines would deliver, in order of priority; nothing is left in service; and `pic_get_mask`
is the set of the lines that are disabled. -/
theorem irq_refines_lines (p : Pair) (es : List IrqEvent) (hv : ∀ e ∈ es, e.Valid) :
    ∃ s, irqRun (irqBoot p) es = some s
      ∧ Tracks s.pic IRQ_OFFSET (linesRun (noLines, []) es).1
      ∧ s.taken = (linesRun (noLines, []) es).2.map (32 + ·)
      ∧ ∀ j < 16, (picGetMask s.pic).getLsbD j = !(linesRun (noLines, []) es).1.enabled j := by
  obtain ⟨s, hrun, hsim⟩ := (irqSim_boot p).run hv
  exact ⟨s, hrun, hsim.tracks, hsim.taken, fun j hj => hsim.tracks.picGetMask hj⟩

/-- A timer interrupt. -/
theorem irq_refines_lines_timer :
    ∃ s, irqRun (irqBoot ⟨⟨0#8, 0#8, 1#8, 0#8, .icw3, false, false, true, 0#8⟩,
        ⟨0#8, 0#8, 4#8, 0#8, .ready, true, false, false, 0#8⟩⟩)
        [.register .timer, .enable 0, .request 0 true, .interrupt 0#8] = some s
      ∧ s.pic.master.isr = 0#8 ∧ s.taken = [32] := by
  obtain ⟨s, hrun, htracks, htaken, -⟩ := irq_refines_lines
    ⟨⟨0#8, 0#8, 1#8, 0#8, .icw3, false, false, true, 0#8⟩,
      ⟨0#8, 0#8, 4#8, 0#8, .ready, true, false, false, 0#8⟩⟩
    [.register .timer, .enable 0, .request 0 true, .interrupt 0#8]
    (by simp [IrqEvent.Valid])
  exact ⟨s, hrun, htracks.master.isr, htaken⟩

/-! ## The lines this kernel uses -/

/-- The calls of this kernel: `timer_init` and `keyboard_init` enable their lines, and nobody
else changes the masks. -/
def IrqEvent.OfKernel : IrqEvent → Prop
  | .enable irq => irq = 0 ∨ irq = 1
  | .disable _ | .setMask _ => False
  | _ => True

/-- Only lines 0 and 1 are enabled, and only they or the spurious line 7 were delivered. -/
structure TwoLines (a : Lines × List Nat) : Prop where
  enabled : ∀ j, a.1.enabled j = true → j = 0 ∨ j = 1
  taken : ∀ n ∈ a.2, n = 0 ∨ n = 1 ∨ n = 7

theorem TwoLines.deliver (h : TwoLines a) (late : BitVec 8) :
    (a.1.deliver late).2.enabled = a.1.enabled
      ∧ ((a.1.deliver late).1 = 0 ∨ (a.1.deliver late).1 = 1 ∨ (a.1.deliver late).1 = 7) := by
  rw [Lines.deliver]
  cases hf : order.find? a.1.wants with
  | none => exact ⟨rfl, Or.inr (Or.inr rfl)⟩
  | some n =>
      have hwants : a.1.wants n = true := List.find?_some hf
      rw [Lines.wants, Bool.and_eq_true, Bool.and_eq_true] at hwants
      have hn := h.enabled n hwants.1.2
      dsimp only
      rw [if_pos (by omega)]
      exact ⟨rfl, hn.imp id Or.inl⟩

theorem TwoLines.step (h : TwoLines a) (hk : e.OfKernel) : TwoLines (linesStep a e) := by
  cases e with
  | request line b => exact ⟨h.enabled, h.taken⟩
  | enable irq =>
      refine ⟨fun j hj => ?_, h.taken⟩
      dsimp only [linesStep, Lines.enable] at hj
      split at hj
      · next heq =>
          rw [heq]
          exact hk
      · exact h.enabled j hj
  | disable irq => exact hk.elim
  | setMask mask => exact hk.elim
  | register handler => exact h
  | interrupt late =>
      obtain ⟨henabled, hline⟩ := h.deliver late
      refine ⟨fun j hj => h.enabled j (by rw [← henabled]; exact hj), fun n hn => ?_⟩
      rcases List.mem_cons.mp hn with rfl | hn
      · exact hline
      · exact h.taken n hn

theorem TwoLines.run {es : List IrqEvent} (h : TwoLines a) (hk : ∀ e ∈ es, e.OfKernel) :
    TwoLines (linesRun a es) := by
  induction es generalizing a with
  | nil => exact h
  | cons e es ih =>
      exact ih (h.step (hk e List.mem_cons_self)) fun e' he' => hk e' (List.mem_cons_of_mem e he')

theorem IrqEvent.OfKernel.valid (h : e.OfKernel) : e.Valid := by
  cases e with
  | enable irq =>
      rcases h with rfl | rfl
      · exact (by decide : 0 < 16)
      · exact (by decide : 1 < 16)
  | disable irq => exact h.elim
  | request | setMask | register | interrupt => trivial

/-- **Sources of interrupts.** Whatever the devices request, with the calls of this kernel
only the vectors of the timer and the keyboard are ever taken, and the one of a spurious
interrupt; the second controller never delivers anything. -/
theorem only_timer_and_keyboard (p : Pair) (es : List IrqEvent) (hk : ∀ e ∈ es, e.OfKernel) :
    ∃ s, irqRun (irqBoot p) es = some s ∧ s.pic.master.isr = 0#8 ∧ s.pic.slave.isr = 0#8
      ∧ ∀ v ∈ s.taken, v = 32 ∨ v = 33 ∨ v = 39 := by
  obtain ⟨s, hrun, hsim⟩ := (irqSim_boot p).run fun e he => (hk e he).valid
  have hboot : TwoLines (noLines, []) := by
    refine ⟨fun j hj => ?_, fun n hn => ?_⟩
    · cases hj
    · cases hn
  have htwo := hboot.run hk
  refine ⟨s, hrun, hsim.tracks.master.isr, hsim.tracks.slave.isr, fun v hv => ?_⟩
  rw [hsim.taken] at hv
  obtain ⟨n, hn, rfl⟩ := List.mem_map.mp hv
  have := htwo.taken n hn
  omega

/-- The clock of the second controller is requested and not delivered. -/
theorem only_timer_and_keyboard_clock :
    ∃ s, irqRun (irqBoot ⟨⟨0#8, 0#8, 0#8, 0#8, .ready, false, false, false, 0#8⟩,
        ⟨0#8, 0#8, 0#8, 0#8, .ready, false, false, false, 0#8⟩⟩)
        [.register .timer, .enable 0, .request 8 true, .request 0 true, .interrupt 0#8,
          .interrupt 0#8] = some s
      ∧ ∀ v ∈ s.taken, v = 32 ∨ v = 33 ∨ v = 39 := by
  obtain ⟨s, hrun, -, -, htaken⟩ := only_timer_and_keyboard
    ⟨⟨0#8, 0#8, 0#8, 0#8, .ready, false, false, false, 0#8⟩,
      ⟨0#8, 0#8, 0#8, 0#8, .ready, false, false, false, 0#8⟩⟩
    [.register .timer, .enable 0, .request 8 true, .request 0 true, .interrupt 0#8,
      .interrupt 0#8] (by simp [IrqEvent.OfKernel])
  exact ⟨s, hrun, htaken⟩

end Runs

end Matryoshka
