import Mathlib.Data.List.Basic
import Mathlib.Tactic.Common

/-!
# Two cascaded interrupt controllers

The pair of 8259A controllers of a PC: initialisation words, masks,
requests, interrupts in service, the acknowledge cycle and the
end-of-interrupt commands. The output of the second controller is line 2
of the first; whether the vector of a line comes from the second one is
up to the third initialisation words of both. Rotating priorities,
polling, special masks and the commands that select a register for reading
are left out.

A request is a bit that a device sets and may take back. One that is taken
back while the processor acknowledges it gives the vector of line 7
instead, with nothing in service.

`Lines` is what the pair is for: sixteen lines with a fixed order of
priority, each enabled or not, requested or not. As long as nothing is in
service the pair delivers what `Lines` does (`Tracks.intAck`).
-/

namespace Matryoshka

namespace I8259

/-! ## One controller -/

/-- What the next write to the data port is. -/
inductive Phase where
  | ready
  | icw2
  | icw3
  | icw4
  deriving DecidableEq

/-- `cascade` is the third initialisation word: the lines that have a controller behind them,
or the number of the line that this controller is behind. -/
structure Chip where
  irr : BitVec 8
  imr : BitVec 8
  isr : BitVec 8
  base : BitVec 8
  phase : Phase
  single : Bool
  needIcw4 : Bool
  autoEoi : Bool
  cascade : BitVec 8
  deriving DecidableEq

def putBit (r : BitVec 8) (n : Nat) (b : Bool) : BitVec 8 :=
  if b then r ||| BitVec.twoPow 8 n else r &&& ~~~BitVec.twoPow 8 n

/-- The line of the highest priority in `r`. -/
def top (r : BitVec 8) : Option Nat := (List.range 8).find? fun n => r.getLsbD n

/-- The end of the interrupt of the highest priority in service. -/
def eoi (c : Chip) : Chip :=
  match top c.isr with
  | none => c
  | some n => { c with isr := putBit c.isr n false }

/-- The first initialisation word, or an operation command. -/
def writeCommand (c : Chip) (v : BitVec 8) : Chip :=
  if v.getLsbD 4 then
    { irr := 0#8, imr := 0#8, isr := 0#8, base := c.base, phase := .icw2, single := v.getLsbD 1,
      needIcw4 := v.getLsbD 0, autoEoi := false, cascade := 7#8 }
  else if v.getLsbD 3 then c
  else if v.extractLsb' 5 3 = 1#3 then eoi c
  else if v.extractLsb' 5 3 = 3#3 then
    { c with isr := putBit c.isr (v.extractLsb' 0 3).toNat false }
  else c

/-- What follows the third word. -/
def Chip.lastPhase (c : Chip) : Phase := if c.needIcw4 then .icw4 else .ready

def writeData (c : Chip) (v : BitVec 8) : Chip :=
  match c.phase with
  | .ready => { c with imr := v }
  | .icw2 =>
      { c with base := v &&& 0xF8#8, phase := if c.single then c.lastPhase else .icw3 }
  | .icw3 => { c with cascade := v, phase := c.lastPhase }
  | .icw4 => { c with autoEoi := v.getLsbD 1, phase := .ready }

/-- The line that the controller would serve, given its requests: nothing of the same or a
higher priority is in service. -/
def serve (c : Chip) (requests : BitVec 8) : Option Nat :=
  match top (requests &&& ~~~c.imr) with
  | none => none
  | some n => if (top c.isr).any (· ≤ n) then none else some n

/-- The first half of an acknowledge cycle. -/
def accept (c : Chip) (n : Nat) : Chip :=
  { c with irr := putBit c.irr n false, isr := if c.autoEoi then c.isr else putBit c.isr n true }

def vector (c : Chip) (n : Nat) : Nat := c.base.toNat + n

/-- The vector of line `n` is left to the controller behind it. -/
def Chip.defers (c : Chip) (n : Nat) : Bool := !c.single && c.cascade.getLsbD n

/-- The line whose acknowledge cycles the controller answers. -/
def Chip.answers (c : Chip) : Nat := (c.cascade.extractLsb' 0 3).toNat

/-! ## The pair -/

structure Pair where
  master : Chip
  slave : Chip
  deriving DecidableEq

/-- The requests at the first controller. -/
def Pair.requests (p : Pair) : BitVec 8 :=
  putBit p.master.irr 2 (serve p.slave p.slave.irr).isSome

/-- A device asks for line `n`, or takes its request back. -/
def Pair.request (p : Pair) (n : Nat) (b : Bool) : Pair :=
  if n = 2 then p
  else if n < 8 then { p with master := { p.master with irr := putBit p.master.irr n b } }
  else { p with slave := { p.slave with irr := putBit p.slave.irr (n - 8) b } }

/-- Bit `n` of the two masks; a set bit disables the line. -/
def Pair.mask (p : Pair) (n : Nat) (b : Bool) : Pair :=
  if n < 8 then { p with master := { p.master with imr := putBit p.master.imr n b } }
  else { p with slave := { p.slave with imr := putBit p.slave.imr (n - 8) b } }

/-- The acknowledge cycle of the second controller for line `n` of the first. The lines `late`
are withdrawn after the first one has been asked. -/
def ackSlave (p : Pair) (n : Nat) (late : BitVec 8) : Nat × Pair :=
  let slave := { p.slave with irr := p.slave.irr &&& ~~~late }
  match serve slave slave.irr with
  | none => (vector slave 7, ⟨accept p.master n, slave⟩)
  | some k => (vector slave k, ⟨accept p.master n, accept slave k⟩)

/-- What the processor reads when no controller answers. -/
def floatingVector : Nat := 0xFF

/-- The acknowledge cycle, with the vector that the processor reads. -/
def intAck (p : Pair) (late : BitVec 8) : Nat × Pair :=
  match serve p.master p.requests with
  | none => (vector p.master 7, p)
  | some n =>
      if p.master.defers n then
        if p.slave.answers = n then ackSlave p n late
        else (floatingVector, ⟨accept p.master n, p.slave⟩)
      else (vector p.master n, ⟨accept p.master n, p.slave⟩)

/-- The end of the interrupt of line `n`: a line of the second controller is in service at
both of them. -/
def Pair.finish (p : Pair) (n : Nat) : Pair :=
  ⟨eoi p.master, if 8 ≤ n then eoi p.slave else p.slave⟩

/-! ## Bits -/

section Bits

variable {r : BitVec 8} {n : Nat}

theorem getLsbD_putBit (r : BitVec 8) (n : Nat) (b : Bool) {j : Nat} (hj : j < 8) :
    (putBit r n b).getLsbD j = if n = j then b else r.getLsbD j := by
  rw [putBit]
  by_cases h : n = j
  · subst h
    cases b <;> simp [hj]
  · have h' : ¬j = n := fun heq => h heq.symm
    cases b <;> simp [h, h', hj]

theorem getLsbD_unmasked (r imr : BitVec 8) {j : Nat} (hj : j < 8) :
    (r &&& ~~~imr).getLsbD j = (r.getLsbD j && !imr.getLsbD j) := by
  rw [BitVec.getLsbD_and, BitVec.getLsbD_not]
  simp [hj]

theorem top_lt (h : top r = some n) : n < 8 := List.mem_range.mp (List.mem_of_find?_eq_some h)

theorem top_zero : top 0#8 = none := by decide

theorem top_putBit_zero (hn : n < 8) : top (putBit 0#8 n true) = some n := by
  revert n
  decide

theorem putBit_putBit_zero (hn : n < 8) : putBit (putBit 0#8 n true) n false = 0#8 := by
  revert n
  decide

theorem find_congr {l : List Nat} {f g : Nat → Bool} (h : ∀ j ∈ l, f j = g j) :
    l.find? f = l.find? g := by
  induction l with
  | nil => rfl
  | cons j l ih =>
      rw [List.find?_cons, List.find?_cons, h j List.mem_cons_self,
        ih fun i hi => h i (List.mem_cons_of_mem j hi)]

/-- `top` looks at the bits of a register one by one. -/
theorem top_congr {f : Nat → Bool} (h : ∀ j < 8, r.getLsbD j = f j) :
    top r = (List.range 8).find? f :=
  find_congr fun j hj => h j (List.mem_range.mp hj)

end Bits

/-! ## Nothing in service -/

/-- A controller that is set up with vectors from `base` on and has nothing in service. -/
structure Chip.Idle (c : Chip) (base cascade : BitVec 8) : Prop where
  isr : c.isr = 0#8
  phase : c.phase = .ready
  base : c.base = base
  autoEoi : c.autoEoi = false
  single : c.single = false
  cascade : c.cascade = cascade

section Idle

variable {c : Chip} {base cascade : BitVec 8} {n : Nat}

theorem Chip.Idle.serve (h : c.Idle base cascade) (r : BitVec 8) :
    serve c r = top (r &&& ~~~c.imr) := by
  rw [I8259.serve, h.isr, top_zero]
  cases top (r &&& ~~~c.imr) with
  | none => rfl
  | some n => rfl

theorem Chip.Idle.eoi (h : c.Idle base cascade) : eoi c = c := by
  rw [I8259.eoi, h.isr, top_zero]

theorem Chip.Idle.of_irr (h : c.Idle base cascade) (irr : BitVec 8) :
    ({ c with irr := irr } : Chip).Idle base cascade :=
  ⟨h.isr, h.phase, h.base, h.autoEoi, h.single, h.cascade⟩

theorem Chip.Idle.of_imr (h : c.Idle base cascade) (imr : BitVec 8) :
    ({ c with imr := imr } : Chip).Idle base cascade :=
  ⟨h.isr, h.phase, h.base, h.autoEoi, h.single, h.cascade⟩

/-- One interrupt taken and ended: only its request is gone. -/
theorem Chip.Idle.eoi_accept (h : c.Idle base cascade) (hn : n < 8) :
    I8259.eoi (accept c n) = { c with irr := putBit c.irr n false } := by
  have hisr : (accept c n).isr = putBit 0#8 n true := by
    simp only [accept, h.autoEoi, h.isr, Bool.false_eq_true, if_false]
  rw [I8259.eoi, hisr, top_putBit_zero hn]
  dsimp only
  rw [putBit_putBit_zero hn, accept, ← h.isr]

end Idle

/-! ## Sixteen lines -/

/-- The lines by priority: those of the second controller stand where it is connected. -/
def order : List Nat := [0, 1, 8, 9, 10, 11, 12, 13, 14, 15, 3, 4, 5, 6, 7]

def slaveOrder : List Nat := [8, 9, 10, 11, 12, 13, 14, 15]

/-- What is enabled and what is requested. -/
structure Lines where
  enabled : Nat → Bool
  requested : Nat → Bool

/-- Line `n` would be delivered if it came first. -/
def Lines.wants (a : Lines) (n : Nat) : Bool :=
  a.requested n && a.enabled n && (n < 8 || a.enabled 2)

def Lines.request (a : Lines) (n : Nat) (b : Bool) : Lines :=
  { a with requested := fun j => if j = n then b else a.requested j }

def Lines.enable (a : Lines) (n : Nat) (b : Bool) : Lines :=
  { a with enabled := fun j => if j = n then b else a.enabled j }

/-- The lines `late` of the second controller lose their requests. -/
def Lines.drop (a : Lines) (late : BitVec 8) : Lines :=
  { a with requested := fun j => a.requested j && !(8 ≤ j && late.getLsbD (j - 8)) }

def Lines.deliverSlave (a : Lines) (late : BitVec 8) : Nat × Lines :=
  match slaveOrder.find? (a.drop late).wants with
  | none => (15, a.drop late)
  | some k => (k, (a.drop late).request k false)

/-- The line delivered, as its number; lines 7 and 15 stand for nothing too. -/
def Lines.deliver (a : Lines) (late : BitVec 8) : Nat × Lines :=
  match order.find? a.wants with
  | none => (7, a)
  | some n => if n < 8 then (n, a.request n false) else a.deliverSlave late

/-! ## What the pair delivers -/

/-- The pair is idle, knows how it is connected, and its requests and masks are those of the
lines. -/
structure Tracks (p : Pair) (base : BitVec 8) (a : Lines) : Prop where
  master : p.master.Idle base 4#8
  slave : p.slave.Idle (base + 8#8) 2#8
  masterImr : ∀ j < 8, p.master.imr.getLsbD j = !a.enabled j
  slaveImr : ∀ j < 8, p.slave.imr.getLsbD j = !a.enabled (8 + j)
  masterIrr : ∀ j < 8, j ≠ 2 → p.master.irr.getLsbD j = a.requested j
  slaveIrr : ∀ j < 8, p.slave.irr.getLsbD j = a.requested (8 + j)

section Tracks

variable {p : Pair} {base : BitVec 8} {a : Lines} {n : Nat}

theorem order_eq : order = [0, 1] ++ ((List.range 8).map (8 + ·) ++ [3, 4, 5, 6, 7]) := by decide

theorem slaveOrder_eq : slaveOrder = (List.range 8).map (8 + ·) := by decide

theorem range_eq : List.range 8 = [0, 1] ++ ([2] ++ [3, 4, 5, 6, 7]) := by decide

/-- The request that the second controller serves. -/
theorem Tracks.serve_slave (h : Tracks p base a) :
    serve p.slave p.slave.irr
      = (List.range 8).find? fun j => a.requested (8 + j) && a.enabled (8 + j) := by
  rw [h.slave.serve]
  refine top_congr fun j hj => ?_
  rw [getLsbD_unmasked _ _ hj, h.slaveIrr j hj, h.slaveImr j hj, Bool.not_not]

/-- The second controller in the order of all lines. -/
theorem Tracks.find_slave (h : Tracks p base a) (hcascade : a.enabled 2 = true) :
    slaveOrder.find? a.wants = (serve p.slave p.slave.irr).map (8 + ·) := by
  rw [h.serve_slave, slaveOrder_eq, List.find?_map]
  congr 1
  refine find_congr fun j _ => ?_
  rw [Function.comp_apply, Lines.wants, hcascade, Bool.or_true, Bool.and_true]

/-- Nothing of the second controller is wanted while its line is masked. -/
theorem find_slave_masked (hcascade : a.enabled 2 = false) : slaveOrder.find? a.wants = none := by
  rw [List.find?_eq_none]
  intro n hn
  have hge : ¬n < 8 := by
    revert n
    decide
  simp [Lines.wants, hcascade, hge]

/-- What the first controller wants of line `j`. -/
def masterWants (p : Pair) (a : Lines) (j : Nat) : Bool :=
  if j = 2 then (serve p.slave p.slave.irr).isSome && a.enabled 2 else a.wants j

theorem Tracks.serve_master (h : Tracks p base a) :
    serve p.master p.requests = (List.range 8).find? (masterWants p a) := by
  rw [h.master.serve]
  refine top_congr fun j hj => ?_
  rw [getLsbD_unmasked _ _ hj, h.masterImr j hj, Bool.not_not, Pair.requests, masterWants]
  rw [getLsbD_putBit _ _ _ hj]
  by_cases h2 : j = 2
  · rw [if_pos h2.symm, if_pos h2, h2]
  · rw [if_neg (Ne.symm h2), if_neg h2, h.masterIrr j hj h2, Lines.wants, decide_eq_true hj,
      Bool.true_or, Bool.and_true]

/-- Searching the first controller, and then the second where it is connected, is searching
the lines in their order. -/
theorem Tracks.find_order (h : Tracks p base a) :
    order.find? a.wants = (serve p.master p.requests).bind fun n =>
      if n = 2 then (serve p.slave p.slave.irr).map (8 + ·) else some n := by
  have hhigh : ([0, 1] : List Nat).find? (masterWants p a) = [0, 1].find? a.wants :=
    find_congr fun j hj => if_neg (by rintro rfl; revert hj; decide)
  have hlow : ([3, 4, 5, 6, 7] : List Nat).find? (masterWants p a)
      = [3, 4, 5, 6, 7].find? a.wants :=
    find_congr fun j hj => if_neg (by rintro rfl; revert hj; decide)
  have hnot2 : ∀ {l : List Nat} {n : Nat}, 2 ∉ l → l.find? a.wants = some n → n ≠ 2 := by
    rintro l n hl hf rfl
    exact hl (List.mem_of_find?_eq_some hf)
  rw [h.serve_master, range_eq, order_eq, List.find?_append, List.find?_append, List.find?_append,
    List.find?_append, hhigh, hlow, ← slaveOrder_eq]
  cases hf : ([0, 1] : List Nat).find? a.wants with
  | some n => exact (if_neg (hnot2 (by decide) hf)).symm
  | none =>
      have hrest : ([3, 4, 5, 6, 7] : List Nat).find? a.wants
          = ([3, 4, 5, 6, 7].find? a.wants).bind fun n =>
            if n = 2 then (serve p.slave p.slave.irr).map (8 + ·) else some n := by
        cases hl : ([3, 4, 5, 6, 7] : List Nat).find? a.wants with
        | none => rfl
        | some n => exact (if_neg (hnot2 (by decide) hl)).symm
      cases hc : a.enabled 2 with
      | false =>
          have htwo : masterWants p a 2 = false := by
            rw [masterWants, if_pos rfl, hc, Bool.and_false]
          rw [find_slave_masked hc, List.find?_singleton, htwo]
          exact hrest
      | true =>
          have htwo : masterWants p a 2 = (serve p.slave p.slave.irr).isSome := by
            rw [masterWants, if_pos rfl, hc, Bool.and_true]
          rw [h.find_slave hc, List.find?_singleton, htwo]
          cases hs : serve p.slave p.slave.irr with
          | none =>
              rw [hs] at hrest
              exact hrest
          | some k => rfl

/-! ## Operations -/

theorem Tracks.request (h : Tracks p base a) (n : Nat) (b : Bool) :
    Tracks (p.request n b) base (a.request n b) := by
  rw [Pair.request]
  split
  · next h2 =>
      refine ⟨h.master, h.slave, h.masterImr, h.slaveImr, fun j hj hj2 => ?_, fun j hj => ?_⟩
      · exact (h.masterIrr j hj hj2).trans (if_neg (by omega)).symm
      · exact (h.slaveIrr j hj).trans (if_neg (by omega)).symm
  · split
    · next hn =>
        refine ⟨h.master.of_irr _, h.slave, h.masterImr, h.slaveImr, fun j hj hj2 => ?_,
          fun j hj => (h.slaveIrr j hj).trans (if_neg (by omega)).symm⟩
        dsimp only [Lines.request]
        rw [getLsbD_putBit _ _ _ hj, h.masterIrr j hj hj2]
        exact if_congr eq_comm rfl rfl
    · next hn =>
        refine ⟨h.master, h.slave.of_irr _, h.masterImr, h.slaveImr,
          fun j hj hj2 => (h.masterIrr j hj hj2).trans (if_neg (by omega)).symm, fun j hj => ?_⟩
        dsimp only [Lines.request]
        rw [getLsbD_putBit _ _ _ hj, h.slaveIrr j hj]
        exact if_congr (by omega) rfl rfl

theorem Tracks.mask (h : Tracks p base a) (n : Nat) (b : Bool) :
    Tracks (p.mask n b) base (a.enable n (!b)) := by
  rw [Pair.mask]
  split
  · next hn =>
      refine ⟨h.master.of_imr _, h.slave, fun j hj => ?_, fun j hj => ?_, h.masterIrr, h.slaveIrr⟩
      · dsimp only [Lines.enable]
        rw [getLsbD_putBit _ _ _ hj, h.masterImr j hj, apply_ite not, Bool.not_not]
        exact if_congr eq_comm rfl rfl
      · dsimp only [Lines.enable]
        rw [h.slaveImr j hj, if_neg (by omega)]
  · next hn =>
      refine ⟨h.master, h.slave.of_imr _, fun j hj => ?_, fun j hj => ?_, h.masterIrr, h.slaveIrr⟩
      · dsimp only [Lines.enable]
        rw [h.masterImr j hj, if_neg (by omega)]
      · dsimp only [Lines.enable]
        rw [getLsbD_putBit _ _ _ hj, h.slaveImr j hj, apply_ite not, Bool.not_not]
        exact if_congr (by omega) rfl rfl

theorem Tracks.drop (h : Tracks p base a) (late : BitVec 8) :
    Tracks ⟨p.master, { p.slave with irr := p.slave.irr &&& ~~~late }⟩ base (a.drop late) := by
  refine ⟨h.master, h.slave.of_irr _, h.masterImr, h.slaveImr, fun j hj hj2 => ?_, fun j hj => ?_⟩
  · have hlow : decide (8 ≤ j) = false := decide_eq_false (by omega)
    dsimp only [Lines.drop]
    rw [h.masterIrr j hj hj2, hlow, Bool.false_and, Bool.not_false, Bool.and_true]
  · have hhigh : decide (8 ≤ 8 + j) = true := decide_eq_true (by omega)
    dsimp only [Lines.drop]
    rw [getLsbD_unmasked _ _ hj, h.slaveIrr j hj, hhigh, Bool.true_and, Nat.add_sub_cancel_left]

/-- The bit of the second controller's line in the first one's requests is not used. -/
theorem Tracks.of_line2 (h : Tracks p base a) (b : Bool) :
    Tracks ⟨{ p.master with irr := putBit p.master.irr 2 b }, p.slave⟩ base a := by
  refine ⟨h.master.of_irr _, h.slave, h.masterImr, h.slaveImr, fun j hj hj2 => ?_, h.slaveIrr⟩
  dsimp only
  rw [getLsbD_putBit _ _ _ hj, if_neg (Ne.symm hj2), h.masterIrr j hj hj2]

theorem Tracks.vector_master (h : Tracks p base a) (n : Nat) :
    vector p.master n = base.toNat + n := by
  rw [vector, h.master.base]

theorem Tracks.vector_slave (h : Tracks p base a) (hbase : base.toNat + 8 < 256) (n : Nat) :
    vector p.slave n = base.toNat + (8 + n) := by
  have hsum : (base + 8#8).toNat = base.toNat + 8 := by
    rw [BitVec.toNat_add]
    exact Nat.mod_eq_of_lt hbase
  rw [vector, h.slave.base, hsum, Nat.add_assoc]

/-- Line 2, and no other, is left to the second controller. -/
theorem Tracks.defers (h : Tracks p base a) (hn : n < 8) :
    p.master.defers n = decide (n = 2) := by
  rw [Chip.defers, h.master.single, h.master.cascade]
  revert n
  decide

theorem Tracks.answers (h : Tracks p base a) : p.slave.answers = 2 := by
  rw [Chip.answers, h.slave.cascade]
  rfl

/-- An interrupt of the second controller. -/
theorem Tracks.ackSlave (h : Tracks p base a) (hbase : base.toNat + 8 < 256)
    (hcascade : a.enabled 2 = true) (late : BitVec 8) :
    (ackSlave p 2 late).1 = base.toNat + (a.deliverSlave late).1
      ∧ Tracks ((ackSlave p 2 late).2.finish (a.deliverSlave late).1) base
        (a.deliverSlave late).2 := by
  have hdrop := h.drop late
  have hfind := hdrop.find_slave hcascade
  rw [I8259.ackSlave, Lines.deliverSlave, hfind]
  dsimp only
  cases hs : serve { p.slave with irr := p.slave.irr &&& ~~~late } (p.slave.irr &&& ~~~late) with
  | none =>
      refine ⟨hdrop.vector_slave hbase 7, ?_⟩
      have hend : Pair.finish ⟨accept p.master 2,
          { p.slave with irr := p.slave.irr &&& ~~~late }⟩ 15
          = ⟨{ p.master with irr := putBit p.master.irr 2 false },
            { p.slave with irr := p.slave.irr &&& ~~~late }⟩ := by
        rw [Pair.finish, h.master.eoi_accept (by decide), if_pos (by decide), hdrop.slave.eoi]
      rw [Option.map_none]
      dsimp only
      rw [hend]
      exact hdrop.of_line2 false
  | some k =>
      have hk : k < 8 := by
        rw [hdrop.slave.serve] at hs
        exact top_lt hs
      refine ⟨hdrop.vector_slave hbase k, ?_⟩
      have hend : Pair.finish ⟨accept p.master 2,
          accept { p.slave with irr := p.slave.irr &&& ~~~late } k⟩ (8 + k)
          = Pair.request ⟨{ p.master with irr := putBit p.master.irr 2 false },
            { p.slave with irr := p.slave.irr &&& ~~~late }⟩ (8 + k) false := by
        rw [Pair.finish, h.master.eoi_accept (by decide), if_pos (by omega),
          hdrop.slave.eoi_accept hk, Pair.request, if_neg (by omega), if_neg (by omega),
          Nat.add_sub_cancel_left]
      rw [Option.map_some]
      dsimp only
      rw [hend]
      exact (hdrop.of_line2 false).request (8 + k) false

/-- **One interrupt.** The pair delivers the line of the highest priority that is enabled and
requested; when its end has been signalled, nothing is in service and its request is gone. -/
theorem Tracks.intAck (h : Tracks p base a) (hbase : base.toNat + 8 < 256) (late : BitVec 8) :
    (intAck p late).1 = base.toNat + (a.deliver late).1
      ∧ Tracks ((intAck p late).2.finish (a.deliver late).1) base (a.deliver late).2 := by
  have horder := h.find_order
  rw [I8259.intAck, Lines.deliver]
  cases hm : serve p.master p.requests with
  | none =>
      rw [hm, Option.bind_none] at horder
      rw [horder]
      refine ⟨h.vector_master 7, ?_⟩
      have hsame : p.finish 7 = p := by
        rw [Pair.finish, h.master.eoi, if_neg (by decide)]
      rw [hsame]
      exact h
  | some n =>
      rw [hm, Option.bind_some] at horder
      have hn : n < 8 := by
        rw [h.master.serve] at hm
        exact top_lt hm
      dsimp only
      rw [h.defers hn, h.answers]
      by_cases h2 : n = 2
      · -- the second controller asked, so its line is enabled
        subst h2
        rw [h.serve_master] at hm
        have hwants : masterWants p a 2 = true := List.find?_some hm
        rw [masterWants, if_pos rfl, Bool.and_eq_true] at hwants
        obtain ⟨k, hk⟩ := Option.isSome_iff_exists.mp hwants.1
        rw [if_pos rfl, hk, Option.map_some] at horder
        simp only [horder, decide_true, if_true, if_neg (show ¬8 + k < 8 by omega)]
        exact h.ackSlave hbase hwants.2 late
      · rw [if_neg h2] at horder
        simp only [horder, decide_eq_true_eq, if_neg h2, if_pos hn]
        refine ⟨h.vector_master n, ?_⟩
        have hend : Pair.finish ⟨accept p.master n, p.slave⟩ n = p.request n false := by
          rw [Pair.finish, h.master.eoi_accept hn, if_neg (by omega), Pair.request, if_neg h2,
            if_pos hn]
        rw [hend]
        exact h.request n false

end Tracks

end I8259

end Matryoshka
