import Matryoshka.Uart
import Mathlib.Data.Finset.Card
import Mathlib.Data.Finset.Range
import Mathlib.Algebra.Ring.Nat

/-!
# The serial port

`kernel/drivers/serial.c` over the chip of `Matryoshka.Uart`. The chip
moves on its own between any two accesses: in `serial_init` it moves `k i`
times before access `i`, in runs of writers `transmit` is an event. What
the port receives from outside is left out, since the driver reads the
receiver in the loopback test only.

Kernel threads can be stopped between the test and the write of
`serial_putc`; a system call cannot, so all of them together count as one
writer. `serial_no_loss_iff` bounds how many writers the FIFO bears. The
loopback test of `serial_init` decides whether anything is ever sent
(`serial_init_transmits_iff`), and `log_reads_back_iff` reads the lines of
`klog` back from the text.
-/

namespace Matryoshka

open Uart

/-! ## `serial.c` -/

/-- The writes of `serial_init` up to the test byte: register and value. -/
def serialInitWrites : List (Nat × BitVec 8) :=
  [(1, 0x00#8), (3, 0x80#8), (0, 0x03#8), (1, 0x00#8), (3, 0x03#8), (2, 0xC7#8), (4, 0x0B#8),
    (4, 0x1E#8), (0, 0xAE#8)]

/-- `outb` for each of the writes; the chip moves `k i` times before write `i`. -/
def serialOutbs (k : Nat → Nat) : Nat → List (Nat × BitVec 8) → Chip → Chip
  | _, [], c => c
  | i, (reg, v) :: ws, c => serialOutbs k (i + 1) ws ((Chip.transmit^[k i] c).write reg v)

def serialInit (k : Nat → Nat) (c : Chip) : Int × Chip :=
  let r := (Chip.transmit^[k 9] (serialOutbs k 0 serialInitWrites c)).read 0
  if r.1 ≠ 0xAE#8 then (-1, r.2) else (0, (Chip.transmit^[k 10] r.2).write 4 0x0F#8)

def serialIsTransmitEmpty (c : Chip) : BitVec 8 := (c.read 5).1 &&& 0x20#8

/-- Where a writer is in `serial_putc`. -/
inductive PutcPc
  | idle
  | test (b : BitVec 8)
  | out (b : BitVec 8)
deriving Repr, DecidableEq

/-- One statement of `serial_putc`, and the bytes it has handed to the chip. -/
def putcStep (c : Chip) : PutcPc → PutcPc × Chip × List (BitVec 8)
  | .idle => (.idle, c, [])
  | .test b => (if serialIsTransmitEmpty c = 0#8 then .test b else .out b, c, [])
  | .out b => (.idle, c.write 0 b, [b])

def carriageReturn : BitVec 8 := 0x0D#8

def lineFeed : BitVec 8 := 0x0A#8

/-- The bytes that `serial_puts` gives to `serial_putc`; it stops at a zero byte. -/
def serialPuts : List (BitVec 8) → List (BitVec 8)
  | [] => []
  | b :: s =>
      if b = 0#8 then []
      else if b = lineFeed then carriageReturn :: b :: serialPuts s
      else b :: serialPuts s

def klogTag : List (BitVec 8) := "[klog] ".toList.map fun c => BitVec.ofNat 8 c.toNat

def klogText (msg : List (BitVec 8)) : List (BitVec 8) :=
  serialPuts klogTag ++ serialPuts msg ++ [carriageReturn, lineFeed]

/-! ## Runs -/

/-- `handed` is everything given to the chip, in order. -/
structure SerialSys where
  chip : Chip
  pc : Nat → PutcPc
  handed : List (BitVec 8)

inductive SerialEvent
  | call (i : Nat) (b : BitVec 8)
  | stmt (i : Nat)
  | transmit
deriving Repr, DecidableEq

/-- The events of the first `n` writers. -/
def SerialEvent.Below (n : Nat) : SerialEvent → Prop
  | .call i _ => i < n
  | .stmt i => i < n
  | .transmit => True

def SerialSys.step (s : SerialSys) : SerialEvent → SerialSys
  | .call i b => if s.pc i = .idle then { s with pc := Function.update s.pc i (.test b) } else s
  | .stmt i =>
      let r := putcStep s.chip (s.pc i)
      ⟨r.2.1, Function.update s.pc i r.1, s.handed ++ r.2.2⟩
  | .transmit => { s with chip := s.chip.transmit }

def SerialSys.run (s : SerialSys) (es : List SerialEvent) : SerialSys := es.foldl SerialSys.step s

/-- Nobody is writing. -/
def quietPort (c : Chip) : SerialSys := ⟨c, fun _ => .idle, []⟩

/-! ## `serial_init` -/

section Init

variable {c : Chip}

/-- With the latch bit set the next two writes are the divisor. -/
theorem divisor_writes (h : c.lcr = 0x80#8) (i j : Nat) :
    ((Chip.transmit^[j] ((Chip.transmit^[i] c).write 0 0x03#8)).write 1 0x00#8).divisor = 3#16 := by
  have hlow : ∀ x : BitVec 8, 0x00#8 ++ (x ++ 0x03#8).extractLsb' 0 8 = 3#16 := by decide
  have hlcr := (iterate_control c i).1
  have hd : (Chip.transmit^[i] c).dlab = true := by
    rw [Chip.dlab, hlcr, h]
    decide
  rw [write_divisor_low hd]
  obtain ⟨hlcr', -, hdiv, -⟩ := iterate_control
    { Chip.transmit^[i] c with
      divisor := (Chip.transmit^[i] c).divisor.extractLsb' 8 8 ++ 0x03#8 } j
  rw [write_divisor_high (by rw [Chip.dlab, hlcr']; exact hd)]
  show 0x00#8 ++ _ = 3#16
  rw [hdiv]
  exact hlow _

/-- The chip before the test byte is read back. -/
theorem serialOutbs_init (c : Chip) (k : Nat → Nat) :
    ∃ d : Chip, serialOutbs k 0 serialInitWrites c = d ∧ d.lcr = 0x03#8 ∧ d.mcr = 0x1E#8
      ∧ d.divisor = 3#16 ∧ d.fifo = true ∧ d.tx = [0xAE#8] ∧ d.rx = [] := by
  rw [serialInitWrites]
  simp only [serialOutbs]
  generalize (Chip.transmit^[k 0] c).write 1 0x00#8 = c₁
  generalize hc₂ : (Chip.transmit^[k 1] c₁).write 3 0x80#8 = c₂
  have hlatch : c₂.lcr = 0x80#8 := by
    rw [← hc₂]
    rfl
  have hdiv := divisor_writes hlatch (k 2) (k 3)
  generalize (Chip.transmit^[k 3] ((Chip.transmit^[k 2] c₂).write 0 0x03#8)).write 1 0x00#8 = c₄
    at hdiv ⊢
  have hdiv' := (iterate_control c₄ (k 4)).2.2.1
  generalize hc₅ : (Chip.transmit^[k 4] c₄).write 3 0x03#8 = c₅
  obtain ⟨hlcr₅, hdiv₅⟩ : c₅.lcr = 0x03#8 ∧ c₅.divisor = 3#16 := by
    rw [← hc₅]
    exact ⟨rfl, hdiv'.trans hdiv⟩
  obtain ⟨hlcr₆, -, hdiv₆, -⟩ := iterate_control c₅ (k 5)
  have hfcr : (Chip.transmit^[k 5] c₅).write 2 0xC7#8
      = { Chip.transmit^[k 5] c₅ with fifo := true, tx := [], rx := [] } :=
    writeFcr_clear (by decide) (by decide) (by decide)
  rw [hfcr]
  generalize Chip.transmit^[k 5] c₅ = c₆ at hlcr₆ hdiv₆ ⊢
  refine ⟨{ c₆ with mcr := 0x1E#8, fifo := true, tx := [0xAE#8], rx := [] }, ?_,
    hlcr₆.trans hlcr₅, rfl, hdiv₆.trans hdiv₅, rfl, rfl, rfl⟩
  rw [iterate_idle rfl (k 6)]
  show (Chip.transmit^[k 8] ((Chip.transmit^[k 7]
    { c₆ with mcr := 0x0B#8, fifo := true, tx := [], rx := [] }).write 4 0x1E#8)).write 0 0xAE#8 = _
  rw [iterate_idle rfl (k 7)]
  show (Chip.transmit^[k 8]
    { c₆ with mcr := 0x1E#8, fifo := true, tx := [], rx := [] }).write 0 0xAE#8 = _
  rw [iterate_idle rfl (k 8)]
  refine write_data ?_ (by decide : 0 < 16)
  show c₆.lcr.getLsbD 7 = false
  rw [hlcr₆, hlcr₅]
  decide

/-- The port as `serial_init` wants it: 38400 baud, 8N1, FIFOs on and empty, no loopback. -/
structure PortReady (c : Chip) : Prop where
  lcr : c.lcr = 0x03#8
  mcr : c.mcr = 0x0F#8
  divisor : c.divisor = 3#16
  fifo : c.fifo = true
  tx : c.tx = []
  rx : c.rx = []

theorem serialInit_cases (c : Chip) (k : Nat → Nat) :
    0 < k 9 ∧ (serialInit k c).1 = 0 ∧ PortReady (serialInit k c).2
      ∨ k 9 = 0 ∧ (serialInit k c).1 = -1 ∧ (serialInit k c).2.loopback = true := by
  obtain ⟨d, hwrites, hlcr, hmcr, hdiv, hfifo, htx, hrx⟩ := serialOutbs_init c k
  have hd : d.dlab = false := by
    rw [Chip.dlab, hlcr]
    decide
  have hloop : d.loopback = true := by
    rw [Chip.loopback, hmcr]
    decide
  by_cases hk : k 9 = 0
  · right
    have hread : d.read 0 = (0x00#8, { d with rx := [] }) := by
      rw [read_data hd, hrx]
      rfl
    simp only [serialInit, hwrites, hk, Function.iterate_zero, id, hread]
    exact ⟨trivial, rfl, hloop⟩
  · left
    have hback : Chip.transmit^[k 9] d = { d with tx := [], rx := [0xAE#8] } :=
      iterate_loopback hloop htx hrx hk
    have hread : Chip.read { d with tx := [], rx := [0xAE#8] } 0
        = (0xAE#8, { d with tx := [], rx := [] }) := read_data hd
    have hinit : serialInit k c = (0, { d with mcr := 0x0F#8, tx := [], rx := [] }) := by
      simp only [serialInit, hwrites, hback, hread, ne_eq, not_true_eq_false, if_false]
      rw [iterate_idle rfl]
      rfl
    rw [hinit]
    exact ⟨Nat.pos_of_ne_zero hk, rfl, ⟨hlcr, rfl, hdiv, hfifo, rfl, rfl⟩⟩

/-! ## Nothing is sent in loopback -/

end Init

/-! ## Writers -/

def PutcPc.isOut : PutcPc → Bool
  | .out _ => true
  | _ => false

/-- The writers between test and write. -/
def writing (n : Nat) (pc : Nat → PutcPc) : Finset Nat :=
  (Finset.range n).filter fun i => (pc i).isOut

/-- What the writers have handed over is sent or waiting, and there is room for what those
between test and write still hold. -/
structure NoLoss (n : Nat) (c₀ : Chip) (s : SerialSys) : Prop where
  lcr : s.chip.lcr = 0x03#8
  mcr : s.chip.mcr = 0x0F#8
  fifo : s.chip.fifo = true
  sent : s.chip.line ++ s.chip.tx = c₀.line ++ s.handed
  room : s.chip.tx.length + (writing n s.pc).card ≤ 16

section Writers

variable {n i : Nat} {pc : Nat → PutcPc} {s : SerialSys} {c₀ : Chip}

theorem writing_card_le (n : Nat) (pc : Nat → PutcPc) : (writing n pc).card ≤ n := by
  calc (writing n pc).card ≤ (Finset.range n).card := Finset.card_filter_le ..
    _ = n := Finset.card_range n

/-- A writer that is not about to write takes no room. -/
theorem writing_update_le {p : PutcPc} (h : p.isOut = false) :
    writing n (Function.update pc i p) ⊆ writing n pc := by
  intro j hj
  rw [writing, Finset.mem_filter] at hj ⊢
  by_cases hji : j = i
  · rw [hji, Function.update_self, h] at hj
    exact absurd hj.2 Bool.false_ne_true
  · rwa [Function.update_of_ne hji] at hj

theorem writing_test (n : Nat) (pc : Nat → PutcPc) (i : Nat) (b : BitVec 8) :
    writing n (Function.update pc i (.test b)) ⊆ writing n pc := writing_update_le rfl

theorem writing_update_lt {p : PutcPc} (hi : i < n) (hout : (pc i).isOut = true)
    (h : p.isOut = false) :
    (writing n (Function.update pc i p)).card + 1 ≤ (writing n pc).card := by
  refine Finset.card_lt_card (Finset.ssubset_iff_subset_ne.mpr ⟨writing_update_le h, fun heq => ?_⟩)
  have hmem : i ∈ writing n pc := by
    rw [writing, Finset.mem_filter, Finset.mem_range]
    exact ⟨hi, hout⟩
  rw [← heq, writing, Finset.mem_filter, Function.update_self, h] at hmem
  exact Bool.false_ne_true hmem.2

theorem serialIsTransmitEmpty_iff (c : Chip) : serialIsTransmitEmpty c ≠ 0#8 ↔ c.tx = [] := by
  rw [← not_iff_not, not_not]
  exact lsr_empty

theorem NoLoss.call (h : NoLoss n c₀ s) (b : BitVec 8) : NoLoss n c₀ (s.step (.call i b)) := by
  rw [SerialSys.step]
  split
  · have hle := Finset.card_le_card (writing_test n s.pc i b)
    exact ⟨h.lcr, h.mcr, h.fifo, h.sent, (Nat.add_le_add_left hle _).trans h.room⟩
  · exact h

theorem NoLoss.transmit (h : NoLoss n c₀ s) : NoLoss n c₀ (s.step .transmit) := by
  have hloop : s.chip.loopback = false := by
    rw [Chip.loopback, h.mcr]
    decide
  obtain ⟨hlcr, hmcr, -, hfifo⟩ := transmit_control s.chip
  obtain ⟨hline, htx⟩ := transmit_line hloop
  refine ⟨hlcr.trans h.lcr, hmcr.trans h.mcr, hfifo.trans h.fifo, hline.trans h.sent, ?_⟩
  have hroom := h.room
  show s.chip.transmit.tx.length + (writing n s.pc).card ≤ 16
  rw [htx, List.length_tail]
  omega

/-- The three places a writer can be at. The test passes only when the FIFO is empty, so
there is room for every writer that has passed it. -/
theorem NoLoss.stmt (h : NoLoss n c₀ s) (hn : n ≤ 16) (hi : i < n) :
    NoLoss n c₀ (s.step (.stmt i)) := by
  cases hpc : s.pc i with
  | idle =>
      have hstep : s.step (.stmt i) = s := by
        rw [SerialSys.step, hpc, putcStep]
        simp only [List.append_nil]
        rw [← hpc, Function.update_eq_self]
      rw [hstep]
      exact h
  | test b =>
      rw [SerialSys.step, hpc, putcStep]
      simp only [List.append_nil]
      refine ⟨h.lcr, h.mcr, h.fifo, h.sent, ?_⟩
      by_cases hempty : serialIsTransmitEmpty s.chip = 0#8
      · rw [if_pos hempty]
        have hle := Finset.card_le_card (writing_test n s.pc i b)
        exact (Nat.add_le_add_left hle _).trans h.room
      · rw [(serialIsTransmitEmpty_iff s.chip).mp hempty, List.length_nil, Nat.zero_add]
        exact (writing_card_le n _).trans hn
  | out b =>
      have hless := writing_update_lt (p := .idle) hi (by rw [hpc]; rfl : (s.pc i).isOut = true) rfl
      have hroom := h.room
      have hdlab : s.chip.dlab = false := by
        rw [Chip.dlab, h.lcr]
        decide
      have hdepth : s.chip.depth = 16 := by rw [Chip.depth, h.fifo, if_pos rfl]
      have hwrite : s.chip.write 0 b = { s.chip with tx := s.chip.tx ++ [b] } :=
        write_data hdlab (by omega)
      rw [SerialSys.step, hpc, putcStep]
      simp only [hwrite]
      refine ⟨h.lcr, h.mcr, h.fifo, ?_, ?_⟩
      · rw [← List.append_assoc, h.sent, List.append_assoc]
      · simp only [List.length_append, List.length_singleton]
        omega

theorem NoLoss.run (h : NoLoss n c₀ s) (hn : n ≤ 16) {es : List SerialEvent}
    (hes : ∀ e ∈ es, e.Below n) : NoLoss n c₀ (s.run es) := by
  induction es generalizing s with
  | nil => exact h
  | cons e es ih =>
      have hstep : NoLoss n c₀ (s.step e) := by
        have he := hes e (List.mem_cons_self ..)
        cases e with
        | call i b => exact h.call b
        | stmt i => exact h.stmt hn he
        | transmit => exact h.transmit
      exact ih hstep fun e' he' => hes e' (List.mem_cons_of_mem e he')

theorem noLoss_quiet (h : PortReady c₀) : NoLoss n c₀ (quietPort c₀) := by
  have hnone : writing n (fun _ => PutcPc.idle) = ∅ := Finset.filter_false_of_mem fun i _ =>
    Bool.false_ne_true
  refine ⟨h.lcr, h.mcr, h.fifo, ?_, ?_⟩
  · show c₀.line ++ c₀.tx = c₀.line ++ []
    rw [h.tx]
  · show c₀.tx.length + (writing n fun _ => PutcPc.idle).card ≤ 16
    rw [h.tx, hnone, Finset.card_empty]
    decide

end Writers

/-- Seventeen writers pass the test before the first of them writes. -/
def crowd : List SerialEvent :=
  (List.range 17).map (fun i => .call i (BitVec.ofNat 8 i))
    ++ (List.range 17).map .stmt ++ (List.range 17).map .stmt

theorem crowd_below : ∀ e ∈ crowd, SerialEvent.Below 17 e := by
  intro e he
  rw [crowd, List.mem_append, List.mem_append] at he
  rcases he with (he | he) | he <;>
    obtain ⟨i, hi, rfl⟩ := List.mem_map.mp he <;> exact List.mem_range.mp hi

/-- A port after a successful `serial_init`. -/
def readyChip : Chip := ⟨0#8, 0x03#8, 0x0F#8, 3#16, true, [], [], []⟩

/-- **No byte is lost.** After a successful `serial_init`, whatever the order of the
statements of `n` writers and of the moves of the chip: everything handed to the chip is on
the line or in the FIFO, in order, and the chip sends the rest when it is left alone. This
holds iff there are at most as many writers as the FIFO has places. -/
theorem serial_no_loss_iff (n : Nat) :
    (∀ c k es, (serialInit k c).1 = 0 → (∀ e ∈ es, SerialEvent.Below n e) →
      let s := (quietPort (serialInit k c).2).run es
      s.chip.line ++ s.chip.tx = (serialInit k c).2.line ++ s.handed
        ∧ (Chip.transmit^[s.chip.tx.length] s.chip).line = (serialInit k c).2.line ++ s.handed)
      ↔ n ≤ 16 := by
  constructor
  · intro h
    by_contra hn
    have hinit : serialInit (fun _ => 1) readyChip = (0, readyChip) := by decide +kernel
    have hall : ∀ e ∈ crowd, SerialEvent.Below n e := by
      intro e he
      have hcrowd := crowd_below e he
      cases e with
      | call i b => exact Nat.lt_of_lt_of_le hcrowd (Nat.lt_of_not_le hn)
      | stmt i => exact Nat.lt_of_lt_of_le hcrowd (Nat.lt_of_not_le hn)
      | transmit => trivial
    obtain ⟨hsent, -⟩ := h readyChip (fun _ => 1) crowd (by rw [hinit]) hall
    rw [hinit] at hsent
    exact absurd hsent (by decide +kernel)
  · intro hn c k es hinit hes
    have hready : PortReady (serialInit k c).2 := by
      rcases serialInit_cases c k with ⟨-, -, h⟩ | ⟨-, hret, -⟩
      · exact h
      · rw [hret] at hinit
        exact absurd hinit (by decide)
    have h := (noLoss_quiet hready).run hn hes
    have hloop : ((quietPort (serialInit k c).2).run es).chip.loopback = false := by
      rw [Chip.loopback, h.mcr]
      decide
    exact ⟨h.sent, (drain hloop).trans h.sent⟩

/-! ## The log -/

/-- The complete lines of a text, each without its frame. -/
def readLog (text : List (BitVec 8)) : List (List (BitVec 8)) :=
  (text.splitOn lineFeed).dropLast.map fun line => line.dropLast.drop klogTag.length

section Log

variable {msg : List (BitVec 8)} {msgs : List (List (BitVec 8))}

/-- A line of the log up to its line feed. -/
def klogLine (msg : List (BitVec 8)) : List (BitVec 8) :=
  klogTag ++ serialPuts msg ++ [carriageReturn]

theorem klogText_eq (msg : List (BitVec 8)) : klogText msg = klogLine msg ++ [lineFeed] := by
  rw [klogText, klogLine, show serialPuts klogTag = klogTag by decide, List.append_assoc,
    List.append_assoc, List.append_assoc]
  rfl

theorem zero_notMem_serialPuts (msg : List (BitVec 8)) : 0#8 ∉ serialPuts msg := by
  have hcr : carriageReturn ≠ 0#8 := by decide
  induction msg with
  | nil => exact List.not_mem_nil
  | cons b msg ih =>
      rw [serialPuts]
      split
      · exact List.not_mem_nil
      · next hb =>
          split
          · simp [ih, hcr.symm, Ne.symm hb]
          · simp [ih, Ne.symm hb]

theorem lineFeed_mem_serialPuts (hzero : 0#8 ∉ msg) :
    lineFeed ∈ serialPuts msg ↔ lineFeed ∈ msg := by
  induction msg with
  | nil => rfl
  | cons b msg ih =>
      rw [List.mem_cons, not_or] at hzero
      rw [serialPuts, if_neg (Ne.symm hzero.1)]
      split
      · next hlf => simp [hlf]
      · rw [List.mem_cons, List.mem_cons, ih hzero.2]

theorem serialPuts_of_notMem (hzero : 0#8 ∉ msg) (h : lineFeed ∉ msg) : serialPuts msg = msg := by
  induction msg with
  | nil => rfl
  | cons b msg ih =>
      rw [List.mem_cons, not_or] at hzero h
      rw [serialPuts, if_neg (Ne.symm hzero.1), if_neg (Ne.symm h.1), ih hzero.2 h.2]

theorem zero_notMem_klogLine (msg : List (BitVec 8)) : 0#8 ∉ klogLine msg := by
  have htag : 0#8 ∉ klogTag := by decide
  have hcr : 0#8 ∉ [carriageReturn] := by decide
  rw [klogLine, List.mem_append, List.mem_append]
  simp only [htag, hcr, zero_notMem_serialPuts, or_self, not_false_eq_true]

theorem lineFeed_mem_klogLine (hzero : 0#8 ∉ msg) : lineFeed ∈ klogLine msg ↔ lineFeed ∈ msg := by
  have htag : lineFeed ∉ klogTag := by decide
  have hcr : lineFeed ∉ [carriageReturn] := by decide
  rw [klogLine, List.mem_append, List.mem_append, lineFeed_mem_serialPuts hzero]
  simp only [htag, hcr, false_or, or_false]

theorem splitOn_append_lineFeed (a b : List (BitVec 8)) :
    (a ++ lineFeed :: b).splitOn lineFeed = a.splitOn lineFeed ++ b.splitOn lineFeed :=
  List.splitOnP_append_cons a b (beq_self_eq_true lineFeed)

theorem length_splitOn_pos (text : List (BitVec 8)) : 1 ≤ (text.splitOn lineFeed).length :=
  List.length_pos_iff.mpr (List.splitOnP_ne_nil _ text)

theorem splitOn_of_notMem {text : List (BitVec 8)} (h : lineFeed ∉ text) :
    text.splitOn lineFeed = [text] := by
  refine List.splitOnP_eq_singleton fun b hb => beq_eq_false_iff_ne.mpr ?_
  rintro rfl
  exact h hb

/-- The pieces of a text hold nothing that the text does not. -/
theorem mem_of_mem_splitOn {b : BitVec 8} {text line : List (BitVec 8)}
    (h : line ∈ text.splitOn lineFeed) (hb : b ∈ line) : b ∈ text := by
  induction text generalizing line with
  | nil =>
      rw [List.splitOn_nil, List.mem_singleton] at h
      rwa [h] at hb
  | cons a text ih =>
      rw [List.splitOn, List.splitOnP_cons_eq_if_modifyHead] at h
      split at h
      · rcases List.mem_cons.mp h with rfl | h
        · cases hb
        · exact List.mem_cons_of_mem a (ih h hb)
      · obtain ⟨first, rest, hsplit⟩ :=
          List.exists_cons_of_ne_nil (List.splitOnP_ne_nil (· == lineFeed) text)
        have hpieces : text.splitOn lineFeed = first :: rest := hsplit
        rw [hsplit, List.modifyHead_cons] at h
        rcases List.mem_cons.mp h with rfl | h
        · rcases List.mem_cons.mp hb with rfl | hb
          · exact List.mem_cons_self
          · exact List.mem_cons_of_mem a (ih (hpieces ▸ List.mem_cons_self) hb)
        · exact List.mem_cons_of_mem a (ih (hpieces ▸ List.mem_cons_of_mem first h) hb)

/-- A line feed makes a second line. -/
theorem two_le_length_splitOn {text : List (BitVec 8)} (h : lineFeed ∈ text) :
    2 ≤ (text.splitOn lineFeed).length := by
  obtain ⟨a, b, rfl⟩ := List.append_of_mem h
  rw [splitOn_append_lineFeed, List.length_append]
  exact Nat.add_le_add (length_splitOn_pos a) (length_splitOn_pos b)

/-- The lines that the messages make. -/
def logLines (msgs : List (List (BitVec 8))) : List (List (BitVec 8)) :=
  msgs.flatMap fun msg => (klogLine msg).splitOn lineFeed

theorem splitOn_log (msgs : List (List (BitVec 8))) :
    (msgs.flatMap klogText).splitOn lineFeed = logLines msgs ++ [[]] := by
  rw [logLines]
  induction msgs with
  | nil => rfl
  | cons msg msgs ih =>
      rw [List.flatMap_cons, klogText_eq, List.append_assoc, List.singleton_append,
        splitOn_append_lineFeed, ih, List.flatMap_cons, List.append_assoc]

theorem readLog_eq (msgs : List (List (BitVec 8))) :
    readLog (msgs.flatMap klogText)
      = (logLines msgs).map fun line => line.dropLast.drop klogTag.length := by
  rw [readLog, splitOn_log, List.dropLast_concat]

theorem zero_notMem_readLog {line : List (BitVec 8)}
    (h : line ∈ readLog (msgs.flatMap klogText)) : 0#8 ∉ line := by
  rw [readLog_eq, List.mem_map] at h
  obtain ⟨full, hfull, rfl⟩ := h
  obtain ⟨msg, -, hpiece⟩ := List.mem_flatMap.mp hfull
  intro hzero
  exact zero_notMem_klogLine msg
    (mem_of_mem_splitOn hpiece (List.mem_of_mem_dropLast (List.mem_of_mem_drop hzero)))

theorem logLines_eq_map (hzero : ∀ msg ∈ msgs, 0#8 ∉ msg) (h : ∀ msg ∈ msgs, lineFeed ∉ msg) :
    logLines msgs = msgs.map klogLine := by
  rw [logLines]
  induction msgs with
  | nil => rfl
  | cons msg msgs ih =>
      have hself : msg ∈ msg :: msgs := List.mem_cons_self
      have hmsg : lineFeed ∉ klogLine msg :=
        fun hlf => h msg hself ((lineFeed_mem_klogLine (hzero msg hself)).mp hlf)
      rw [List.flatMap_cons, splitOn_of_notMem hmsg, List.map_cons,
        ih (fun m hm => hzero m (List.mem_cons_of_mem msg hm))
          fun m hm => h m (List.mem_cons_of_mem msg hm), List.singleton_append]

theorem length_le_logLines (msgs : List (List (BitVec 8))) :
    msgs.length ≤ (logLines msgs).length := by
  induction msgs with
  | nil => exact Nat.zero_le _
  | cons msg msgs ih =>
      have hpos := length_splitOn_pos (klogLine msg)
      rw [logLines, List.flatMap_cons, List.length_append, List.length_cons, Nat.add_comm]
      exact Nat.add_le_add hpos ih

/-- As many lines as messages only if no message makes two. -/
theorem notMem_of_length_logLines (hzero : ∀ msg ∈ msgs, 0#8 ∉ msg)
    (hlen : (logLines msgs).length ≤ msgs.length) : ∀ msg ∈ msgs, lineFeed ∉ msg := by
  induction msgs with
  | nil =>
      intro msg hmsg
      cases hmsg
  | cons m msgs ih =>
      have hpos := length_splitOn_pos (klogLine m)
      have hrest := length_le_logLines msgs
      rw [logLines, List.flatMap_cons, List.length_append, List.length_cons] at hlen
      change _ + (logLines msgs).length ≤ _ at hlen
      intro msg hmsg hlf
      rcases List.mem_cons.mp hmsg with rfl | hmsg
      · have htwo := two_le_length_splitOn
          ((lineFeed_mem_klogLine (hzero msg List.mem_cons_self)).mpr hlf)
        omega
      · exact ih (fun m' hm' => hzero m' (List.mem_cons_of_mem m hm')) (by omega) msg hmsg hlf

end Log

/-- **The log reads back.** The messages given to `klog` can be read off the serial text iff
none of them contains a line feed or a zero byte, where `serial_puts` stops. -/
theorem log_reads_back_iff (msgs : List (List (BitVec 8))) :
    readLog (msgs.flatMap klogText) = msgs ↔ ∀ msg ∈ msgs, 0#8 ∉ msg ∧ lineFeed ∉ msg := by
  constructor
  · intro hread
    have hzero : ∀ msg ∈ msgs, 0#8 ∉ msg :=
      fun msg hmsg => zero_notMem_readLog (by rwa [hread])
    rw [readLog_eq] at hread
    refine fun msg hmsg => ⟨hzero msg hmsg, notMem_of_length_logLines hzero ?_ msg hmsg⟩
    rw [← List.length_map, hread]
  · intro h
    rw [readLog_eq, logLines_eq_map (fun msg hmsg => (h msg hmsg).1) fun msg hmsg => (h msg hmsg).2,
      List.map_map]
    refine (List.map_congr_left fun msg hmsg => ?_).trans (List.map_id msgs)
    show (klogLine msg).dropLast.drop klogTag.length = msg
    rw [klogLine, List.dropLast_concat, List.drop_left,
      serialPuts_of_notMem (h msg hmsg).1 (h msg hmsg).2]

end Matryoshka
