import Matryoshka.Loop
import Matryoshka.PciBus
import Mathlib.Tactic.IntervalCases

/-!
# PCI configuration access

`kernel/drivers/pci.c`: the address word, reads and writes of whole and half
registers, and the search for a device. A half is written by writing the
whole register back, so a write reaches bits of the other half too: those
that a written one clears.
-/

namespace Matryoshka

open PciBus

def PCI_VENDOR_ID : BitVec 8 := 0x00#8

def PCI_DEVICE_ID : BitVec 8 := 0x02#8

def PCI_COMMAND : BitVec 8 := 0x04#8

def PCI_BAR0 : BitVec 8 := 0x10#8

def PCI_IRQ_LINE : BitVec 8 := 0x3C#8

def pciAddr (bus slot func off : BitVec 8) : BitVec 32 :=
  0x80000000#32
    ||| (bus.setWidth 32 <<< 16)
    ||| (slot.setWidth 32 <<< 11)
    ||| (func.setWidth 32 <<< 8)
    ||| (off &&& 0xFC#8).setWidth 32

def pciRead32 (b : Bus) (bus slot func off : BitVec 8) : BitVec 32 × Bus :=
  let b := b.select (pciAddr bus slot func off)
  (b.read, b)

/-- `(off & 2) * 8`. -/
def halfShift (off : BitVec 8) : Nat := (off &&& 2#8).toNat * 8

def pciRead16 (b : Bus) (bus slot func off : BitVec 8) : BitVec 16 × Bus :=
  let (val, b) := pciRead32 b bus slot func (off &&& ~~~3#8)
  ((val >>> halfShift off).setWidth 16, b)

def pciWrite32 (b : Bus) (bus slot func off : BitVec 8) (val : BitVec 32) : Bus :=
  (b.select (pciAddr bus slot func off)).write val

def pciWrite16 (b : Bus) (bus slot func off : BitVec 8) (val : BitVec 16) : Bus :=
  let (old, b) := pciRead32 b bus slot func (off &&& ~~~3#8)
  let shift := halfShift off
  let old := old &&& ~~~(0xFFFF#32 <<< shift)
  let old := old ||| (val.setWidth 32 <<< shift)
  pciWrite32 b bus slot func (off &&& ~~~3#8) old

structure PciDevice where
  bus : BitVec 8
  slot : BitVec 8
  func : BitVec 8
  vendorId : BitVec 16
  deviceId : BitVec 16
  classCode : BitVec 8
  subclass : BitVec 8
  irqLine : BitVec 8
  bar0 : BitVec 32
  deriving Repr, DecidableEq

/-- The body of the loops of `pci_find_device`. -/
def pciProbe (vendor device : BitVec 16) (bus slot : BitVec 8) (b : Bus) :
    Option PciDevice × Bus :=
  let (vid, b) := pciRead16 b bus slot 0#8 PCI_VENDOR_ID
  if vid = 0xFFFF#16 then (none, b)
  else
    let (did, b) := pciRead16 b bus slot 0#8 PCI_DEVICE_ID
    if vid = vendor ∧ did = device then
      let (cls, b) := pciRead32 b bus slot 0#8 0x08#8
      let (sub, b) := pciRead32 b bus slot 0#8 0x08#8
      let (bar, b) := pciRead32 b bus slot 0#8 PCI_BAR0
      let (irq, b) := pciRead32 b bus slot 0#8 PCI_IRQ_LINE
      (some ⟨bus, slot, 0#8, vid, did, (cls >>> 24).setWidth 8, (sub >>> 16).setWidth 8,
        irq.setWidth 8, bar &&& ~~~0xF#32⟩, b)
    else (none, b)

def pciFindDevice (vendor device : BitVec 16) (b : Bus) : Option PciDevice × Bus :=
  Loop.scan (fun bus => Loop.scan
    (fun slot => pciProbe vendor device (BitVec.ofNat 8 bus) (BitVec.ofNat 8 slot)) 32 0) 256 0 b

/-! ## Addresses -/

section Addr

variable {bus slot func off : BitVec 8} {b : Bus}

/-- The register at byte `off` of a function. -/
def regAddr (bus slot func off : BitVec 8) : Addr :=
  ⟨bus, slot.setWidth 5, func.setWidth 3, off.extractLsb' 2 6⟩

theorem getLsbD_high {x : BitVec 8} {k i : Nat} (hx : x.toNat < 2 ^ k) (hi : k ≤ i) :
    x.getLsbD i = false :=
  Nat.testBit_lt_two_pow (Nat.lt_of_lt_of_le hx (Nat.pow_le_pow_right (by decide) hi))

theorem pciAddr_enabled : (pciAddr bus slot func off).getLsbD 31 = true := by
  simp [pciAddr]

/-- A slot below 32 and a function below 8 do not reach into the next field. -/
theorem decode_pciAddr (hslot : slot.toNat < 32) (hfunc : func.toNat < 8) :
    decode (pciAddr bus slot func off) = regAddr bus slot func off := by
  have hs : ∀ i, 5 ≤ i → slot.getLsbD i = false := fun i hi => getLsbD_high (k := 5) hslot hi
  have hf : ∀ i, 3 ≤ i → func.getLsbD i = false := fun i hi => getLsbD_high (k := 3) hfunc hi
  rw [decode, regAddr, Addr.mk.injEq]
  refine ⟨?_, ?_, ?_, ?_⟩
  -- bit by bit: of the four fields only one reaches each bit of the address
  all_goals
    apply BitVec.eq_of_getLsbD_eq
    intro i hi
    simp only [pciAddr, BitVec.getLsbD_extractLsb', BitVec.getLsbD_or, BitVec.getLsbD_shiftLeft,
      BitVec.getLsbD_setWidth, BitVec.getLsbD_and, hi]
    interval_cases i <;> simp [-BitVec.getLsbD_eq_getElem, hs, hf]

theorem regAddr_aligned : regAddr bus slot func (off &&& ~~~3#8) = regAddr bus slot func off := by
  rw [regAddr, regAddr, Addr.mk.injEq]
  refine ⟨rfl, rfl, rfl, ?_⟩
  apply BitVec.eq_of_getLsbD_eq
  intro i hi
  simp only [BitVec.getLsbD_extractLsb', BitVec.getLsbD_and, BitVec.getLsbD_not, hi]
  interval_cases i <;> simp

theorem regAddr_flip : regAddr bus slot func (off ^^^ 2#8) = regAddr bus slot func off := by
  rw [regAddr, regAddr, Addr.mk.injEq]
  refine ⟨rfl, rfl, rfl, ?_⟩
  apply BitVec.eq_of_getLsbD_eq
  intro i hi
  simp only [BitVec.getLsbD_extractLsb', BitVec.getLsbD_xor, hi]
  interval_cases i <;> simp

theorem halfShift_eq (off : BitVec 8) : halfShift off = if off.getLsbD 1 then 16 else 0 := by
  revert off
  decide +kernel

theorem halfShift_flip (off : BitVec 8) : halfShift (off ^^^ 2#8) = 16 - halfShift off := by
  revert off
  decide +kernel

end Addr

/-! ## Reading and writing registers -/

section Access

variable {b : Bus} {bus slot func off : BitVec 8}

/-- Half of a register. -/
def half (v : BitVec 32) (shift : Nat) : BitVec 16 := v.extractLsb' shift 16

theorem getLsbD_half (v : BitVec 32) (k i : Nat) :
    (half v k).getLsbD i = (decide (i < 16) && v.getLsbD (k + i)) :=
  BitVec.getLsbD_extractLsb' ..

theorem half_eq_iff {v w : BitVec 32} {k : Nat} :
    half v k = half w k ↔ ∀ i < 16, v.getLsbD (k + i) = w.getLsbD (k + i) := by
  constructor
  · intro h i hi
    have hbit := congrArg (fun x => x.getLsbD i) h
    simpa only [getLsbD_half, hi, decide_true, Bool.true_and] using hbit
  · intro h
    apply BitVec.eq_of_getLsbD_eq
    intro i hi
    rw [getLsbD_half, getLsbD_half, h i hi]

/-- A bit written back as it was read. -/
theorem bit_kept_iff (v rw w1c : Bool) :
    (v && (rw || !w1c)) = v ↔ (v = true → w1c = true → rw = true) := by
  cases v <;> cases rw <;> cases w1c <;> decide

theorem pciRead32_fst (hslot : slot.toNat < 32) (hfunc : func.toNat < 8) :
    (pciRead32 b bus slot func off).1 = (b.regs (regAddr bus slot func off)).value := by
  rw [pciRead32, read_select pciAddr_enabled, decode_pciAddr hslot hfunc]

@[simp] theorem pciRead32_regs : (pciRead32 b bus slot func off).2.regs = b.regs := rfl

theorem pciRead16_fst (hslot : slot.toNat < 32) (hfunc : func.toNat < 8) :
    (pciRead16 b bus slot func off).1 =
      half (b.regs (regAddr bus slot func off)).value (halfShift off) := by
  show BitVec.setWidth 16 ((pciRead32 b bus slot func (off &&& ~~~3#8)).1 >>> halfShift off) = _
  rw [pciRead32_fst hslot hfunc, regAddr_aligned]
  rfl

@[simp] theorem pciRead16_regs : (pciRead16 b bus slot func off).2.regs = b.regs := rfl

/-- What `pci_write16` writes to the register that reads as `old`. -/
def merge (old : BitVec 32) (shift : Nat) (val : BitVec 16) : BitVec 32 :=
  old &&& ~~~(0xFFFF#32 <<< shift) ||| (val.setWidth 32 <<< shift)

theorem pciWrite16_regs (hslot : slot.toNat < 32) (hfunc : func.toNat < 8) (val : BitVec 16) :
    (pciWrite16 b bus slot func off val).regs =
      let a := regAddr bus slot func off
      Function.update b.regs a ((b.regs a).write (merge (b.regs a).value (halfShift off) val)) := by
  show ((Bus.select _ (pciAddr bus slot func (off &&& ~~~3#8))).write
    (merge (pciRead32 b bus slot func (off &&& ~~~3#8)).1 (halfShift off) val)).regs = _
  rw [pciRead32_fst hslot hfunc, write_select_regs pciAddr_enabled, decode_pciAddr hslot hfunc,
    regAddr_aligned, select_regs]

theorem getLsbD_merge {old : BitVec 32} {k : Nat} {val : BitVec 16} (hk : k = 0 ∨ k = 16) {i : Nat}
    (hi : i < 32) : (merge old k val).getLsbD i =
      if k ≤ i ∧ i < k + 16 then val.getLsbD (i - k) else old.getLsbD i := by
  simp only [merge, BitVec.getLsbD_or, BitVec.getLsbD_and, BitVec.getLsbD_not,
    BitVec.getLsbD_shiftLeft, BitVec.getLsbD_setWidth, hi]
  rcases hk with rfl | rfl <;> interval_cases i <;> simp

/-- The bits of the register after `pci_write16`, in the half written and in the other one. -/
theorem pciWrite16_bit (hslot : slot.toNat < 32) (hfunc : func.toNat < 8) (val : BitVec 16)
    {i : Nat} (hi : i < 32) :
    let r := b.regs (regAddr bus slot func off)
    let k := halfShift off
    ((pciWrite16 b bus slot func off val).regs (regAddr bus slot func off)).value.getLsbD i =
      if k ≤ i ∧ i < k + 16 then
        if r.rw.getLsbD i then val.getLsbD (i - k)
        else r.value.getLsbD i && !(val.getLsbD (i - k) && r.w1c.getLsbD i)
      else r.value.getLsbD i && (r.rw.getLsbD i || !r.w1c.getLsbD i) := by
  intro r k
  have hk : k = 0 ∨ k = 16 := by
    show halfShift off = 0 ∨ halfShift off = 16
    rw [halfShift_eq]
    split
    · exact .inr rfl
    · exact .inl rfl
  rw [pciWrite16_regs hslot hfunc]
  show ((Function.update b.regs _ (r.write (merge r.value k val))) _).value.getLsbD i = _
  rw [Function.update_self, getLsbD_write, getLsbD_merge hk hi]
  by_cases hin : k ≤ i ∧ i < k + 16
  · rw [if_pos hin, if_pos hin]
  · rw [if_neg hin, if_neg hin]
    cases r.rw.getLsbD i <;> cases r.value.getLsbD i <;> cases r.w1c.getLsbD i <;> rfl

/-- **Writing half a register.** No other register changes, and a half of writable bits reads
back. The other half reads as before exactly if none of its bits that are set is cleared by
writing a one, since it is written back as it was read: enabling a device through its command
register also clears the errors in its status register. -/
theorem pci_write16_iff (b : Bus) (bus slot func off : BitVec 8) (val : BitVec 16)
    (hslot : slot.toNat < 32) (hfunc : func.toNat < 8) :
    let a := regAddr bus slot func off
    let r := b.regs a
    let b' := pciWrite16 b bus slot func off val
    (∀ x, x ≠ a → b'.regs x = b.regs x)
      ∧ ((∀ i < 16, r.rw.getLsbD (halfShift off + i) = true) →
        (pciRead16 b' bus slot func off).1 = val)
      ∧ ((pciRead16 b' bus slot func (off ^^^ 2#8)).1 = (pciRead16 b bus slot func (off ^^^ 2#8)).1
        ↔ ∀ i < 16, let j := halfShift (off ^^^ 2#8) + i
          r.value.getLsbD j = true → r.w1c.getLsbD j = true → r.rw.getLsbD j = true) := by
  intro a r b'
  have hshift : halfShift off ≤ 16 := by
    rw [halfShift_eq]
    split <;> decide
  refine ⟨?_, ?_, ?_⟩
  · intro x hx
    show (pciWrite16 b bus slot func off val).regs x = _
    rw [pciWrite16_regs hslot hfunc]
    exact Function.update_of_ne hx _ _
  · intro hrw
    rw [pciRead16_fst hslot hfunc]
    apply BitVec.eq_of_getLsbD_eq
    intro i hi
    rw [getLsbD_half, pciWrite16_bit hslot hfunc val (by omega), if_pos ⟨by omega, by omega⟩,
      if_pos (hrw i hi), Nat.add_sub_cancel_left, decide_eq_true hi, Bool.true_and]
  · have hother : ∀ i < 16, (b'.regs a).value.getLsbD (halfShift (off ^^^ 2#8) + i) =
        (r.value.getLsbD (halfShift (off ^^^ 2#8) + i)
          && (r.rw.getLsbD (halfShift (off ^^^ 2#8) + i)
            || !r.w1c.getLsbD (halfShift (off ^^^ 2#8) + i))) := by
      intro i hi
      have hout : ¬(halfShift off ≤ halfShift (off ^^^ 2#8) + i
          ∧ halfShift (off ^^^ 2#8) + i < halfShift off + 16) := by
        rw [halfShift_flip, halfShift_eq]
        split <;> omega
      have hlt : halfShift (off ^^^ 2#8) + i < 32 := by
        rw [halfShift_flip]
        omega
      rw [pciWrite16_bit hslot hfunc val hlt, if_neg hout]
    rw [pciRead16_fst hslot hfunc, pciRead16_fst hslot hfunc, regAddr_flip, half_eq_iff]
    refine forall₂_congr fun i hi => ?_
    rw [hother i hi]
    exact bit_kept_iff _ _ _

/-- A device in slot 3 that has logged a master abort. -/
def abortedBus : Bus :=
  ⟨0#32, fun x => if x = ⟨0#8, 3#5, 0#3, 1#6⟩ then ⟨0x22B00103#32, 0x00000547#32, 0xF9000000#32⟩
    else absent⟩

theorem pci_write16_iff_command :
    (pciRead16 abortedBus 0#8 3#8 0#8 0x06#8).1 = 0x22B0#16
      ∧ (pciRead16 (pciWrite16 abortedBus 0#8 3#8 0#8 PCI_COMMAND 0x0107#16) 0#8 3#8 0#8 0x06#8).1
        ≠ 0x22B0#16 := by
  have hread : (pciRead16 abortedBus 0#8 3#8 0#8 0x06#8).1 = 0x22B0#16 := by decide +kernel
  refine ⟨hread, fun hsame => ?_⟩
  obtain ⟨-, -, hiff⟩ := pci_write16_iff abortedBus 0#8 3#8 0#8 PCI_COMMAND 0x0107#16 (by decide)
    (by decide)
  -- bit 29 is set and cleared by writing a one
  have hbit := hiff.mp (hsame.trans hread.symm) 13 (by decide) (by decide) (by decide)
  exact absurd hbit (by decide)

end Access

/-! ## Looking for a device -/

section Find

variable {regs : Addr → Reg} {vendor device : BitVec 16} {bus slot : BitVec 8} {b : Bus}

/-- Function 0 of the slot has these identifiers, and is not an empty slot. -/
def Identifies (regs : Addr → Reg) (vendor device : BitVec 16) (bus slot : BitVec 8) : Prop :=
  let id := (regs (regAddr bus slot 0#8 PCI_VENDOR_ID)).value
  half id 0 ≠ 0xFFFF#16 ∧ half id 0 = vendor ∧ half id 16 = device

instance : Decidable (Identifies regs vendor device bus slot) :=
  inferInstanceAs (Decidable (_ ∧ _ ∧ _))

/-- What `pci_find_device` notes of function 0 of a slot. -/
def deviceAt (regs : Addr → Reg) (bus slot : BitVec 8) : PciDevice :=
  let reg off := (regs (regAddr bus slot 0#8 off)).value
  { bus := bus
    slot := slot
    func := 0#8
    vendorId := half (reg PCI_VENDOR_ID) 0
    deviceId := half (reg PCI_VENDOR_ID) 16
    classCode := (reg 0x08#8).extractLsb' 24 8
    subclass := (reg 0x08#8).extractLsb' 16 8
    irqLine := (reg PCI_IRQ_LINE).extractLsb' 0 8
    bar0 := reg PCI_BAR0 &&& ~~~0xF#32 }

theorem pciRead16_vendor (hslot : slot.toNat < 32) :
    (pciRead16 b bus slot 0#8 PCI_VENDOR_ID).1 =
      half (b.regs (regAddr bus slot 0#8 PCI_VENDOR_ID)).value 0 :=
  pciRead16_fst hslot (by decide)

theorem pciRead16_device (hslot : slot.toNat < 32) :
    (pciRead16 b bus slot 0#8 PCI_DEVICE_ID).1 =
      half (b.regs (regAddr bus slot 0#8 PCI_VENDOR_ID)).value 16 :=
  pciRead16_fst hslot (by decide)

theorem pciProbe_spec (hslot : slot.toNat < 32) :
    (pciProbe vendor device bus slot b).1 =
        (if Identifies b.regs vendor device bus slot then some (deviceAt b.regs bus slot) else none)
      ∧ (pciProbe vendor device bus slot b).2.regs = b.regs := by
  have hread : ∀ (c : Bus) off, (pciRead32 c bus slot 0#8 off).1 =
      (c.regs (regAddr bus slot 0#8 off)).value := fun c off => pciRead32_fst hslot (by decide)
  simp only [pciProbe, pciRead16_vendor hslot, pciRead16_device hslot, hread, pciRead16_regs,
    pciRead32_regs]
  by_cases hempty : half (b.regs (regAddr bus slot 0#8 PCI_VENDOR_ID)).value 0 = 0xFFFF#16
  · rw [if_pos hempty, if_neg (fun h => h.1 hempty)]
    exact ⟨rfl, rfl⟩
  · rw [if_neg hempty]
    by_cases hid : half (b.regs (regAddr bus slot 0#8 PCI_VENDOR_ID)).value 0 = vendor
        ∧ half (b.regs (regAddr bus slot 0#8 PCI_VENDOR_ID)).value 16 = device
    · rw [if_pos hid, if_pos ⟨hempty, hid⟩]
      exact ⟨rfl, rfl⟩
    · rw [if_neg hid, if_neg (fun h => hid h.2)]
      exact ⟨rfl, rfl⟩

/-- The answer of one slot. -/
def slotAnswer (regs : Addr → Reg) (vendor device : BitVec 16) (bus slot : Nat) :
    Option PciDevice :=
  if Identifies regs vendor device (BitVec.ofNat 8 bus) (BitVec.ofNat 8 slot) then
    some (deviceAt regs (BitVec.ofNat 8 bus) (BitVec.ofNat 8 slot))
  else none

theorem slots_answer (vendor device : BitVec 16) (b : Bus) (bus : Nat) :
    Loop.Answers
      (fun slot => pciProbe vendor device (BitVec.ofNat 8 bus) (BitVec.ofNat 8 slot))
      (slotAnswer b.regs vendor device bus) (fun c => c.regs = b.regs) 32 := by
  intro slot c hslot hc
  have hlt : (BitVec.ofNat 8 slot).toNat < 32 := by
    rw [BitVec.toNat_ofNat, Nat.mod_eq_of_lt (by omega)]
    exact hslot
  show (pciProbe vendor device _ (BitVec.ofNat 8 slot) c).1 = _ ∧ _ = _
  rw [← hc]
  exact pciProbe_spec hlt

/-- The answer of one bus: of its first slot that has one. -/
def busAnswer (vendor device : BitVec 16) (b : Bus) (bus : Nat) : Option PciDevice :=
  (Loop.scan (fun slot => pciProbe vendor device (BitVec.ofNat 8 bus) (BitVec.ofNat 8 slot))
    32 0 b).1

theorem buses_answer (vendor device : BitVec 16) (b : Bus) :
    Loop.Answers
      (fun bus => Loop.scan
        (fun slot => pciProbe vendor device (BitVec.ofNat 8 bus) (BitVec.ofNat 8 slot)) 32 0)
      (busAnswer vendor device b) (fun c => c.regs = b.regs) 256 := by
  intro bus c _ hc
  have hslots := slots_answer vendor device b bus
  exact ⟨Loop.scan_state hslots hc rfl (Nat.le_refl _),
    Loop.scan_keeps hslots hc (Nat.le_refl _)⟩

theorem slotAnswer_eq_none {bus slot : Nat} : slotAnswer regs vendor device bus slot = none ↔
    ¬Identifies regs vendor device (BitVec.ofNat 8 bus) (BitVec.ofNat 8 slot) := by
  rw [slotAnswer]
  split
  · next h => exact iff_of_false (Option.some_ne_none _) (not_not_intro h)
  · next h => exact iff_of_true rfl h

theorem slotAnswer_eq_some {bus slot : Nat} {d : PciDevice} :
    slotAnswer regs vendor device bus slot = some d ↔
      Identifies regs vendor device (BitVec.ofNat 8 bus) (BitVec.ofNat 8 slot)
        ∧ d = deviceAt regs (BitVec.ofNat 8 bus) (BitVec.ofNat 8 slot) := by
  rw [slotAnswer]
  split
  · next h => rw [Option.some.injEq, eq_comm, and_iff_right h]
  · next h => exact iff_of_false (Option.some_ne_none d).symm fun hd => h hd.1

theorem busAnswer_eq_none {bus : Nat} : busAnswer vendor device b bus = none ↔
    ∀ slot < 32, ¬Identifies b.regs vendor device (BitVec.ofNat 8 bus) (BitVec.ofNat 8 slot) := by
  rw [busAnswer, Loop.scan_eq_none_iff (slots_answer vendor device b bus) rfl (Nat.le_refl _)]
  simp only [Nat.zero_le, true_imp_iff, Nat.zero_add, slotAnswer_eq_none]

/-- **The search finds the first match.** `pci_find_device` changes no register. It finds
nothing exactly if function 0 of no slot of the 256 buses has the identifiers, and otherwise
reports the first such slot, by bus and then by slot, with the values of its own registers. -/
theorem pci_find_device_first (vendor device : BitVec 16) (b : Bus) :
    let r := pciFindDevice vendor device b
    let matching bus slot :=
      Identifies b.regs vendor device (BitVec.ofNat 8 bus) (BitVec.ofNat 8 slot)
    r.2.regs = b.regs
      ∧ (r.1 = none ↔ ∀ bus < 256, ∀ slot < 32, ¬matching bus slot)
      ∧ ∀ d, r.1 = some d ↔ ∃ bus < 256, ∃ slot < 32, matching bus slot
        ∧ d = deviceAt b.regs (BitVec.ofNat 8 bus) (BitVec.ofNat 8 slot)
        ∧ (∀ slot' < slot, ¬matching bus slot')
        ∧ ∀ bus' < bus, ∀ slot' < 32, ¬matching bus' slot' := by
  intro r matching
  have hbuses := buses_answer vendor device b
  refine ⟨Loop.scan_keeps hbuses rfl (Nat.le_refl _), ?_, ?_⟩
  · show (Loop.scan _ 256 0 b).1 = none ↔ _
    rw [Loop.scan_eq_none_iff hbuses rfl (Nat.le_refl _)]
    simp only [Nat.zero_le, true_imp_iff, Nat.zero_add, busAnswer_eq_none, matching]
  · intro d
    show (Loop.scan _ 256 0 b).1 = some d ↔ _
    rw [Loop.scan_eq_some_iff hbuses rfl (Nat.le_refl _)]
    constructor
    · rintro ⟨bus, -, hbus, hsome, hbefore⟩
      rw [busAnswer, Loop.scan_eq_some_iff (slots_answer vendor device b bus) rfl
        (Nat.le_refl _)] at hsome
      obtain ⟨slot, -, hslot, hd, hearlier⟩ := hsome
      obtain ⟨hid, rfl⟩ := slotAnswer_eq_some.mp hd
      exact ⟨bus, by omega, slot, by omega, hid, rfl,
        fun slot' hlt => slotAnswer_eq_none.mp (hearlier slot' (Nat.zero_le _) hlt),
        fun bus' hlt => busAnswer_eq_none.mp (hbefore bus' (Nat.zero_le _) hlt)⟩
    · rintro ⟨bus, hbus, slot, hslot, hid, rfl, hearlier, hbefore⟩
      refine ⟨bus, Nat.zero_le _, by omega, ?_,
        fun bus' _ hlt => busAnswer_eq_none.mpr (hbefore bus' hlt)⟩
      rw [busAnswer, Loop.scan_eq_some_iff (slots_answer vendor device b bus) rfl (Nat.le_refl _)]
      exact ⟨slot, Nat.zero_le _, by omega, slotAnswer_eq_some.mpr ⟨hid, rfl⟩,
        fun slot' _ hlt => slotAnswer_eq_none.mpr (hearlier slot' hlt)⟩

end Find

end Matryoshka
