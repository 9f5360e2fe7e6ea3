import Mathlib.Logic.Function.Basic
import Mathlib.Tactic.Common

/-!
# The configuration space of a PCI bus

Configuration mechanism 1: an address written to one port selects a register
of one function of one device, and the other port reads or writes it. A
register has bits that can be written, bits that a written one clears, and
bits that only the device changes. A function that is not there reads as
ones and ignores writes.
-/

namespace Matryoshka.PciBus

structure Reg where
  value : BitVec 32
  /-- The bits a write sets and clears. -/
  rw : BitVec 32
  /-- The bits a written one clears. -/
  w1c : BitVec 32
  deriving Repr, DecidableEq

def Reg.write (r : Reg) (v : BitVec 32) : Reg :=
  { r with value := (v &&& r.rw) ||| (r.value &&& ~~~r.rw &&& ~~~(v &&& r.w1c)) }

def absent : Reg := ⟨0xFFFFFFFF#32, 0#32, 0#32⟩

/-- A register: the function it belongs to, and its number there. -/
structure Addr where
  bus : BitVec 8
  slot : BitVec 5
  func : BitVec 3
  reg : BitVec 6
  deriving Repr, DecidableEq

def decode (a : BitVec 32) : Addr :=
  ⟨a.extractLsb' 16 8, a.extractLsb' 11 5, a.extractLsb' 8 3, a.extractLsb' 2 6⟩

structure Bus where
  latch : BitVec 32
  regs : Addr → Reg

def Bus.select (b : Bus) (a : BitVec 32) : Bus := { b with latch := a }

def Bus.read (b : Bus) : BitVec 32 :=
  if b.latch.getLsbD 31 then (b.regs (decode b.latch)).value else 0xFFFFFFFF#32

def Bus.write (b : Bus) (v : BitVec 32) : Bus :=
  if b.latch.getLsbD 31 then
    { b with regs :=
        Function.update b.regs (decode b.latch) ((b.regs (decode b.latch)).write v) }
  else b

/-! ## Lemmas -/

variable {b : Bus} {a v : BitVec 32} {x : Addr}

@[simp] theorem select_regs : (b.select a).regs = b.regs := rfl

theorem read_select (ha : a.getLsbD 31 = true) :
    (b.select a).read = (b.regs (decode a)).value := if_pos ha

theorem write_select_regs (ha : a.getLsbD 31 = true) :
    ((b.select a).write v).regs =
      Function.update b.regs (decode a) ((b.regs (decode a)).write v) := by
  rw [Bus.write, if_pos (show (b.select a).latch.getLsbD 31 = true from ha)]
  rfl

theorem getLsbD_write (r : Reg) (v : BitVec 32) (i : Nat) :
    (r.write v).value.getLsbD i =
      if r.rw.getLsbD i then v.getLsbD i
      else r.value.getLsbD i && !(v.getLsbD i && r.w1c.getLsbD i) := by
  by_cases hi : i < 32
  · simp only [Reg.write, BitVec.getLsbD_or, BitVec.getLsbD_and, BitVec.getLsbD_not, hi,
      decide_true, Bool.true_and]
    cases r.rw.getLsbD i <;> simp
  · have hge : 32 ≤ i := Nat.le_of_not_lt hi
    simp [BitVec.getLsbD_of_ge, hge]

end Matryoshka.PciBus
