import Matryoshka.ByteMem

/-!
# Descriptors of the 32-bit protected mode

The layout of segment descriptors, interrupt gates and the task state
segment, and what the processor checks when it takes an interrupt, returns
from one, loads a data segment or is asked for an I/O port. Interrupt
gates are the only gates, and the local descriptor table is not used.
-/

namespace Matryoshka

namespace X86

open ByteMem

/-! ## Layout -/

structure Seg where
  base : BitVec 32
  limit : BitVec 20
  access : BitVec 8
  flags : BitVec 4
  deriving DecidableEq

def segAt (m : Mem) (a : Nat) : Seg where
  base := m (a + 7) ++ m (a + 4) ++ load16 m (a + 2)
  limit := (m (a + 6)).extractLsb' 0 4 ++ load16 m a
  access := m (a + 5)
  flags := (m (a + 6)).extractLsb' 4 4

structure Gate where
  offset : BitVec 32
  selector : BitVec 16
  access : BitVec 8
  deriving DecidableEq

def gateAt (m : Mem) (a : Nat) : Gate where
  offset := load16 m (a + 6) ++ load16 m a
  selector := load16 m (a + 2)
  access := m (a + 5)

theorem segAt_congr {m m' : Mem} {a : Nat} (h : ∀ k < 8, m' (a + k) = m (a + k)) :
    segAt m' a = segAt m a := by
  have h0 : m' a = m a := h 0 (by decide)
  simp only [segAt, h 4 (by decide), h 5 (by decide), h 6 (by decide), h 7 (by decide),
    load16_congr h0 (h 1 (by decide)), load16_congr (h 2 (by decide)) (h 3 (by decide))]

theorem gateAt_congr {m m' : Mem} {a : Nat} (h : ∀ k < 8, m' (a + k) = m (a + k)) :
    gateAt m' a = gateAt m a := by
  have h0 : m' a = m a := h 0 (by decide)
  simp only [gateAt, h 5 (by decide), load16_congr h0 (h 1 (by decide)),
    load16_congr (h 2 (by decide)) (h 3 (by decide)),
    load16_congr (h 6 (by decide)) (h 7 (by decide))]

/-- The present bit and the privilege level have the same place in both. -/
def present (access : BitVec 8) : Bool := access.getLsbD 7

def dpl (access : BitVec 8) : Nat := (access.extractLsb' 5 2).toNat

def Seg.code (s : Seg) : Bool := s.access.getLsbD 4 && s.access.getLsbD 3

def Seg.conforming (s : Seg) : Bool := s.access.getLsbD 2

def Seg.writable (s : Seg) : Bool :=
  s.access.getLsbD 4 && !s.access.getLsbD 3 && s.access.getLsbD 1

/-- A data segment, or a code segment that can be read. -/
def Seg.readable (s : Seg) : Bool :=
  s.access.getLsbD 4 && (!s.access.getLsbD 3 || s.access.getLsbD 1)

/-- The last offset inside the segment. -/
def Seg.lastByte (s : Seg) : Nat :=
  if s.flags.getLsbD 3 then s.limit.toNat * 4096 + 4095 else s.limit.toNat

def Gate.interrupt32 (g : Gate) : Bool := g.access.extractLsb' 0 5 = 0x0E#5

/-! ## The processor -/

def rpl (sel : BitVec 16) : Nat := (sel.extractLsb' 0 2).toNat

def index (sel : BitVec 16) : Nat := (sel.extractLsb' 3 13).toNat

/-- Memory, and what the table registers hold. -/
structure Tables where
  mem : Mem
  gdt : Nat
  gdtLimit : Nat
  idt : Nat
  idtLimit : Nat
  tss : Nat
  tssLimit : Nat

/-- The descriptor of a selector, unless it is null, local or beyond the table. -/
def Tables.seg (t : Tables) (sel : BitVec 16) : Option Seg :=
  if index sel = 0 ∨ sel.getLsbD 2 = true ∨ t.gdtLimit < 8 * index sel + 7 then none
  else some (segAt t.mem (t.gdt + 8 * index sel))

/-- Where an interrupt goes: the privilege level, the instruction, and the stack if it is
another one. -/
structure Entry where
  cpl : Nat
  eip : BitVec 32
  stack : Option (BitVec 16 × BitVec 32)
  deriving DecidableEq

/-- The stack for privilege level `level`, from the task state segment. -/
def Tables.innerStack (t : Tables) (level : Nat) : Except Nat (BitVec 16 × BitVec 32) :=
  if t.tssLimit < 8 * level + 11 then .error 10
  else
    let ss := load16 t.mem (t.tss + 8 * level + 8)
    match t.seg ss with
    | none => .error 10
    | some s =>
        if rpl ss ≠ level ∨ dpl s.access ≠ level ∨ s.writable = false then .error 10
        else if present s.access = false then .error 12
        else .ok (ss, load32 t.mem (t.tss + 8 * level + 4))

/-- Taking interrupt `n` at privilege level `cpl`: the entry, or the exception raised instead.
The privilege level of the gate counts for the `INT` instruction only. -/
def Tables.enter (t : Tables) (cpl : Nat) (software : Bool) (n : Nat) : Except Nat Entry :=
  let g := gateAt t.mem (t.idt + 8 * n)
  if t.idtLimit < 8 * n + 7 ∨ g.interrupt32 = false then .error 13
  else if software = true ∧ dpl g.access < cpl then .error 13
  else if present g.access = false then .error 11
  else
    match t.seg g.selector with
    | none => .error 13
    | some cs =>
        if cs.code = false ∨ cpl < dpl cs.access then .error 13
        else if present cs.access = false then .error 11
        else if cs.conforming = true ∨ dpl cs.access = cpl then .ok ⟨cpl, g.offset, none⟩
        else
          match t.innerStack (dpl cs.access) with
          | .error f => .error f
          | .ok stack => .ok ⟨dpl cs.access, g.offset, some stack⟩

/-- An interrupt with the exceptions that come of it; `none` is a shutdown. -/
def Tables.deliver (t : Tables) (cpl : Nat) (software : Bool) (n : Nat) : Option Entry :=
  match t.enter cpl software n with
  | .ok e => some e
  | .error f =>
      match t.enter cpl false f with
      | .ok e => some e
      | .error _ =>
          match t.enter cpl false 8 with
          | .ok e => some e
          | .error _ => none

/-- `iret` from `cpl` to the code selector `cs`, with `ss` popped if the level changes. -/
def Tables.iretOk (t : Tables) (cpl : Nat) (cs ss : BitVec 16) : Bool :=
  match t.seg cs with
  | none => false
  | some c =>
      c.code && decide (cpl ≤ rpl cs) && present c.access
        && (if c.conforming then decide (dpl c.access ≤ rpl cs) else dpl c.access == rpl cs)
        && (if rpl cs = cpl then true
          else
            match t.seg ss with
            | none => false
            | some s => rpl ss == rpl cs && s.writable && dpl s.access == rpl cs
                && present s.access)

/-- Loading `sel` into a data segment register. -/
def Tables.dataOk (t : Tables) (cpl : Nat) (sel : BitVec 16) : Bool :=
  match t.seg sel with
  | none => false
  | some s => s.readable && present s.access && decide (cpl ≤ dpl s.access)
      && decide (rpl sel ≤ dpl s.access)

/-- Access to an I/O port: by privilege, or by a clear bit of the map. -/
def Tables.ioAllowed (t : Tables) (cpl iopl port : Nat) : Bool :=
  let map := (load16 t.mem (t.tss + 102)).toNat
  decide (cpl ≤ iopl)
    || decide (map + port / 8 + 1 ≤ t.tssLimit)
      && !(t.mem (t.tss + map + port / 8)).getLsbD (port % 8)

/-! ## Gates that work -/

section Enter

variable {t : Tables} {n cpl : Nat} {software : Bool}

/-- A present interrupt gate to a code segment of level 0. -/
structure Tables.Opens (t : Tables) (n : Nat) (level : Nat) (eip : BitVec 32) : Prop where
  inside : 8 * n + 7 ≤ t.idtLimit
  gate : ∃ sel access, gateAt t.mem (t.idt + 8 * n) = ⟨eip, sel, access⟩
    ∧ access.extractLsb' 0 5 = 0x0E#5 ∧ present access = true ∧ dpl access = level
    ∧ ∃ cs, t.seg sel = some cs ∧ cs.code = true ∧ present cs.access = true
      ∧ cs.conforming = false ∧ dpl cs.access = 0

/-- It is entered at level 0, on the inner stack if that is a change of level, unless an
`INT` instruction lacks the privilege. -/
theorem Tables.Opens.enter {level : Nat} {eip : BitVec 32} {stack : BitVec 16 × BitVec 32}
    (h : t.Opens n level eip) (hstack : t.innerStack 0 = .ok stack) (cpl : Nat) (software : Bool) :
    t.enter cpl software n
      = if software = true ∧ level < cpl then .error 13
        else .ok ⟨0, eip, if cpl = 0 then none else some stack⟩ := by
  obtain ⟨sel, access, hgate, htype, hpresent, hlevel, cs, hseg, hcode, hcs, hconf, hdpl⟩ := h.gate
  have hopen : ¬(t.idtLimit < 8 * n + 7 ∨ Gate.interrupt32 ⟨eip, sel, access⟩ = false) := by
    rintro (hlim | hkind)
    · exact absurd h.inside (Nat.not_le.mpr hlim)
    · rw [Gate.interrupt32, htype] at hkind
      cases hkind
  simp only [Tables.enter, hgate, if_neg hopen, hlevel, hpresent, hseg, hcode, hcs, hconf,
    hdpl, hstack, Bool.true_eq_false, Bool.false_eq_true, Nat.not_lt_zero, or_self, if_false,
    false_or]
  by_cases hcpl : cpl = 0
  · simp [hcpl]
  · have hne : ¬0 = cpl := fun heq => hcpl heq.symm
    simp [hcpl, hne]

theorem Tables.enter_closed (h : (gateAt t.mem (t.idt + 8 * n)).interrupt32 = false) (cpl : Nat)
    (software : Bool) : t.enter cpl software n = .error 13 := by
  rw [Tables.enter]
  exact if_pos (Or.inr h)

end Enter

end X86

end Matryoshka
