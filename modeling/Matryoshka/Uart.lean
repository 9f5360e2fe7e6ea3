import Mathlib.Data.List.Basic
import Mathlib.Logic.Function.Iterate

/-!
# A serial port chip

The registers of a 16550 as a program sees them: the divisor behind the
latch bit, the transmit and receive buffers (16 bytes, or one when the FIFOs
are off), the line status, and the loopback of the modem control register.
`line` is what has left the chip. The chip moves by itself: `transmit` takes
the next byte of the transmit buffer to the line, or to the receiver in
loopback. A byte written to a full buffer is lost, the old one in a single
register, the new one in a FIFO.
-/

namespace Matryoshka.Uart

structure Chip where
  ier : BitVec 8
  lcr : BitVec 8
  mcr : BitVec 8
  divisor : BitVec 16
  fifo : Bool
  tx : List (BitVec 8)
  rx : List (BitVec 8)
  line : List (BitVec 8)
  deriving Repr, DecidableEq

def Chip.dlab (c : Chip) : Bool := c.lcr.getLsbD 7

def Chip.loopback (c : Chip) : Bool := c.mcr.getLsbD 4

def Chip.depth (c : Chip) : Nat := if c.fifo then 16 else 1

def Chip.enqueue (c : Chip) (buf : List (BitVec 8)) (b : BitVec 8) : List (BitVec 8) :=
  if buf.length < c.depth then buf ++ [b] else if c.fifo then buf else [b]

/-- Turning the FIFOs on or off empties them, and so do bits 1 and 2. -/
def Chip.writeFcr (c : Chip) (v : BitVec 8) : Chip :=
  let c := if v.getLsbD 0 = c.fifo then c else { c with fifo := v.getLsbD 0, tx := [], rx := [] }
  { c with
    rx := if v.getLsbD 1 then [] else c.rx
    tx := if v.getLsbD 2 then [] else c.tx }

def Chip.write (c : Chip) (reg : Nat) (v : BitVec 8) : Chip :=
  match reg with
  | 0 => if c.dlab then { c with divisor := c.divisor.extractLsb' 8 8 ++ v }
      else { c with tx := c.enqueue c.tx v }
  | 1 => if c.dlab then { c with divisor := v ++ c.divisor.extractLsb' 0 8 }
      else { c with ier := v }
  | 2 => c.writeFcr v
  | 3 => { c with lcr := v }
  | 4 => { c with mcr := v }
  | _ => c

/-- Data ready, and transmitter empty. -/
def Chip.lsr (c : Chip) : BitVec 8 :=
  (if c.rx = [] then 0x00#8 else 0x01#8) ||| (if c.tx = [] then 0x60#8 else 0x00#8)

def Chip.read (c : Chip) (reg : Nat) : BitVec 8 × Chip :=
  match reg with
  | 0 => if c.dlab then (c.divisor.extractLsb' 0 8, c)
      else (c.rx.headD 0#8, { c with rx := c.rx.tail })
  | 1 => (if c.dlab then c.divisor.extractLsb' 8 8 else c.ier, c)
  | 3 => (c.lcr, c)
  | 4 => (c.mcr, c)
  | 5 => (c.lsr, c)
  | _ => (0#8, c)

def Chip.transmit (c : Chip) : Chip :=
  match c.tx with
  | [] => c
  | b :: rest =>
      if c.loopback then { c with tx := rest, rx := c.enqueue c.rx b }
      else { c with tx := rest, line := c.line ++ [b] }

/-! ## Lemmas -/

section Chip

variable {c : Chip} {b v : BitVec 8}

theorem lsr_empty : c.lsr &&& 0x20#8 = 0#8 ↔ c.tx ≠ [] := by
  rw [Chip.lsr]
  by_cases hrx : c.rx = [] <;> by_cases htx : c.tx = [] <;> simp [hrx, htx]

theorem write_data (hd : c.dlab = false) (hroom : c.tx.length < c.depth) :
    c.write 0 b = { c with tx := c.tx ++ [b] } := by
  simp only [Chip.write, hd, Bool.false_eq_true, if_false, Chip.enqueue, if_pos hroom]

theorem write_divisor_low (hd : c.dlab = true) :
    c.write 0 v = { c with divisor := c.divisor.extractLsb' 8 8 ++ v } := if_pos hd

theorem write_divisor_high (hd : c.dlab = true) :
    c.write 1 v = { c with divisor := v ++ c.divisor.extractLsb' 0 8 } := if_pos hd

theorem read_data (hd : c.dlab = false) :
    c.read 0 = (c.rx.headD 0#8, { c with rx := c.rx.tail }) := by
  simp only [Chip.read, hd, Bool.false_eq_true, if_false]

/-- Both FIFOs on and empty, whatever was in them. -/
theorem writeFcr_clear (h0 : v.getLsbD 0 = true) (h1 : v.getLsbD 1 = true)
    (h2 : v.getLsbD 2 = true) : c.writeFcr v = { c with fifo := true, tx := [], rx := [] } := by
  rw [Chip.writeFcr, h0, h1, h2]
  cases hf : c.fifo
  · rfl
  · simp only [if_true]
    rw [← hf]

/-- The chip only moves bytes. -/
theorem transmit_control (c : Chip) :
    c.transmit.lcr = c.lcr ∧ c.transmit.mcr = c.mcr ∧ c.transmit.divisor = c.divisor
      ∧ c.transmit.fifo = c.fifo := by
  rw [Chip.transmit]
  repeat' split
  all_goals exact ⟨rfl, rfl, rfl, rfl⟩

/-- Outside loopback nothing is lost on the way to the line. -/
theorem transmit_line (h : c.loopback = false) :
    c.transmit.line ++ c.transmit.tx = c.line ++ c.tx ∧ c.transmit.tx = c.tx.tail := by
  rw [Chip.transmit]
  split
  · next htx => exact ⟨rfl, by rw [htx, List.tail_nil]⟩
  · next b rest htx =>
      rw [h, if_neg Bool.false_ne_true, htx]
      exact ⟨by rw [List.append_assoc, List.singleton_append], rfl⟩

/-- What holds of the chip after each move holds after all of them. -/
theorem iterate_transmit {P : Chip → Prop} (h : ∀ c, P c → P c.transmit) (hc : P c) (k : Nat) :
    P (Chip.transmit^[k] c) := by
  induction k generalizing c with
  | zero => exact hc
  | succ k ih => exact ih (h c hc)

theorem iterate_control (c : Chip) (k : Nat) :
    (Chip.transmit^[k] c).lcr = c.lcr ∧ (Chip.transmit^[k] c).mcr = c.mcr
      ∧ (Chip.transmit^[k] c).divisor = c.divisor ∧ (Chip.transmit^[k] c).fifo = c.fifo := by
  refine iterate_transmit (P := fun d => d.lcr = c.lcr ∧ d.mcr = c.mcr ∧ d.divisor = c.divisor
    ∧ d.fifo = c.fifo) ?_ ⟨rfl, rfl, rfl, rfl⟩ k
  rintro d ⟨hlcr, hmcr, hdiv, hfifo⟩
  obtain ⟨hlcr', hmcr', hdiv', hfifo'⟩ := transmit_control d
  exact ⟨hlcr'.trans hlcr, hmcr'.trans hmcr, hdiv'.trans hdiv, hfifo'.trans hfifo⟩

theorem iterate_idle (h : c.tx = []) (k : Nat) : Chip.transmit^[k] c = c := by
  refine iterate_transmit (P := fun d => d = c) ?_ rfl k
  rintro _ rfl
  rw [Chip.transmit, h]

/-- In loopback a single byte comes back. -/
theorem iterate_loopback (hl : c.loopback = true) (htx : c.tx = [b]) (hrx : c.rx = []) {k : Nat}
    (hk : k ≠ 0) : Chip.transmit^[k] c = { c with tx := [], rx := [b] } := by
  obtain ⟨n, rfl⟩ := Nat.exists_eq_succ_of_ne_zero hk
  have hone : c.transmit = { c with tx := [], rx := [b] } := by
    have hroom : ([] : List (BitVec 8)).length < c.depth := by
      rw [Chip.depth]
      split <;> decide
    rw [Chip.transmit, htx]
    simp only [if_pos hl, Chip.enqueue, hrx, if_pos hroom, List.nil_append]
  rw [Function.iterate_succ_apply, hone, iterate_idle rfl]

/-- Left alone, the chip sends what it holds. -/
theorem drain (h : c.loopback = false) :
    (Chip.transmit^[c.tx.length] c).line = c.line ++ c.tx := by
  have key : ∀ (k : Nat) (c : Chip), c.loopback = false → c.tx.length = k →
      (Chip.transmit^[k] c).line = c.line ++ c.tx := by
    intro k
    induction k with
    | zero =>
        intro c _ hlen
        rw [List.length_eq_zero_iff.mp hlen, List.append_nil, Function.iterate_zero, id]
    | succ k ih =>
        intro c hc hlen
        have hmcr := (transmit_control c).2.1
        have hline := transmit_line hc
        have hlen' : c.transmit.tx.length = k := by
          rw [hline.2, List.length_tail, hlen, Nat.add_sub_cancel]
        have hloop : c.transmit.loopback = false := by
          rw [Chip.loopback, hmcr]
          exact hc
        rw [Function.iterate_succ_apply, ih _ hloop hlen', hline.1]
  exact key _ c h rfl

end Chip

end Matryoshka.Uart
