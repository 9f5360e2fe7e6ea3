import Matryoshka.E1000
import Matryoshka.Pci
import Matryoshka.VmmMmu

/-!
# Starting the e1000

`e1000_init` of `kernel/drivers/e1000.c`: finding the NIC and letting it
master the bus, the mapping of its registers, the MAC address and the rings.
What the registers of the NIC read as is a parameter. The EEPROM answers a
request after some time or not at all, and the driver polls it; if one of
the three words does not come in time, all six bytes are taken from the
receive address registers.

The registers are memory behind the MMU. `e1000_init` does not look at what
`vmm_map` returns, and an access to a page that was not mapped ends in
`page_fault_handler`, which never returns (`none`). Left out are the values
written to the registers (reset, interrupt mask, multicast table, ring
addresses, control bits) and console output.
-/

namespace Matryoshka

open PciBus

def E1000_VENDOR : BitVec 16 := 0x8086#16

def E1000_DEVICE : BitVec 16 := 0x100E#16

def PCI_CMD_MEMORY : BitVec 16 := 0x0002#16

def PCI_CMD_MASTER : BitVec 16 := 0x0004#16

def PTE_CACHE_DISABLE : BitVec 32 := 1#32 <<< 4

/-! ## Registers -/

def REG_CTRL : Nat := 0x0000
def REG_STATUS : Nat := 0x0008
def REG_EEPROM : Nat := 0x0014
def REG_ICR : Nat := 0x00C0
def REG_IMC : Nat := 0x00D8
def REG_RCTL : Nat := 0x0100
def REG_TCTL : Nat := 0x0400
def REG_RDBAL : Nat := 0x2800
def REG_RDBAH : Nat := 0x2804
def REG_RDLEN : Nat := 0x2808
def REG_RDH : Nat := 0x2810
def REG_RDT : Nat := 0x2818
def REG_TDBAL : Nat := 0x3800
def REG_TDBAH : Nat := 0x3804
def REG_TDLEN : Nat := 0x3808
def REG_TDH : Nat := 0x3810
def REG_TDT : Nat := 0x3818
def REG_MTA : Nat := 0x5200
def REG_RAL0 : Nat := 0x5400
def REG_RAH0 : Nat := 0x5404

/-- What the driver reads from the NIC. -/
structure NicRegs where
  /-- The `k`-th read of `REG_EEPROM` after word `i` was asked for. -/
  eeprom : Nat → Nat → BitVec 32
  ral : BitVec 32
  rah : BitVec 32

structure NicSys where
  bus : Bus
  vmm : Vmm
  dev : E1000
  macAddr : Nat → BitVec 8

/-! ## The MAC address -/

/-- `val & (1 << 4)`. -/
def eepromDone (val : BitVec 32) : Bool := val.getLsbD 4

/-- The polling loop, with at most 10000 reads. -/
def pollEeprom (reads : Nat → BitVec 32) : Option (BitVec 32) :=
  (Loop.scan (fun k u => (if eepromDone (reads k) then some (reads k) else none, u))
    10000 0 ()).1

/-- `read_mac_eeprom` with `n` words to go; the bytes of the words before a timeout stay. -/
def readMacEeprom (io : NicRegs) : (n i : Nat) → (Nat → BitVec 8) → Bool × (Nat → BitVec 8)
  | 0, _, mac => (true, mac)
  | n + 1, i, mac =>
      match pollEeprom (io.eeprom i) with
      | none => (false, mac)
      | some val =>
          let mac := Function.update mac (i * 2) ((val >>> 16).setWidth 8)
          let mac := Function.update mac (i * 2 + 1) ((val >>> 24).setWidth 8)
          readMacEeprom io n (i + 1) mac

def readMacRal (io : NicRegs) (mac : Nat → BitVec 8) : Nat → BitVec 8 :=
  let mac := Function.update mac 0 (io.ral.setWidth 8)
  let mac := Function.update mac 1 ((io.ral >>> 8).setWidth 8)
  let mac := Function.update mac 2 ((io.ral >>> 16).setWidth 8)
  let mac := Function.update mac 3 ((io.ral >>> 24).setWidth 8)
  let mac := Function.update mac 4 (io.rah.setWidth 8)
  Function.update mac 5 ((io.rah >>> 8).setWidth 8)

def readMac (io : NicRegs) (mac : Nat → BitVec 8) : Nat → BitVec 8 :=
  match readMacEeprom io 3 0 mac with
  | (true, mac) => mac
  | (false, mac) => readMacRal io mac

/-! ## Initialisation -/

def MMIO_FLAGS : BitVec 32 := PTE_PRESENT ||| PTE_WRITABLE ||| PTE_CACHE_DISABLE

/-- The loop over the pages of the registers, `n` to go from page `k`. What `vmm_map` returns
is not looked at. -/
def mapMmio (bar0 : BitVec 32) : (n k : Nat) → Vmm → Option Vmm
  | 0, _, s => some s
  | n + 1, k, s =>
      let va := bar0 + BitVec.ofNat 32 (k * PAGE_SIZE)
      (Mmu.vmmMap s va va MMIO_FLAGS).bind fun r => mapMmio bar0 n (k + 1) r.2

/-- Bus mastering and memory space. -/
def enableDevice (b : Bus) (d : PciDevice) : Bus :=
  let (cmd, b) := pciRead16 b d.bus d.slot d.func PCI_COMMAND
  pciWrite16 b d.bus d.slot d.func PCI_COMMAND (cmd ||| PCI_CMD_MEMORY ||| PCI_CMD_MASTER)

/-- The registers that are accessed, in this order; `eeprom` is what `read_mac_eeprom`
returned. -/
def initRegs (eeprom : Bool) : List Nat :=
  [REG_CTRL, REG_IMC, REG_ICR, REG_EEPROM] ++ (if eeprom then [] else [REG_RAL0, REG_RAH0])
    ++ (List.range 128).map (fun i => REG_MTA + i * 4)
    ++ [REG_RDBAL, REG_RDBAH, REG_RDLEN, REG_RDH, REG_RDT, REG_RCTL]
    ++ [REG_TDBAL, REG_TDBAH, REG_TDLEN, REG_TDH, REG_TDT, REG_TCTL] ++ [REG_CTRL, REG_STATUS]

/-- `e1000_read` and `e1000_write`: the access to a register does not fault. -/
def regMapped (v : Vmm) (bar0 : BitVec 32) (reg : Nat) : Bool :=
  (translate v (bar0 + BitVec.ofNat 32 reg).toNat).isSome

def e1000InitNic (io : NicRegs) (s : NicSys) : Option (Int × NicSys) :=
  match pciFindDevice E1000_VENDOR E1000_DEVICE s.bus with
  | (none, b) => some (-1, { s with bus := b })
  | (some d, b) =>
      (mapMmio d.bar0 (0x20000 / PAGE_SIZE) 0 s.vmm).bind fun v =>
        if (initRegs (readMacEeprom io 3 0 s.macAddr).1).all (regMapped v d.bar0) then
          some (0,
            { bus := enableDevice b d
              vmm := v
              dev := e1000Init s.dev
              macAddr := readMac io s.macAddr })
        else none

/-! ## The registers in the address space -/

section Mmio

variable {s : Vmm} {bar0 va : BitVec 32} {n k : Nat}

theorem mapEntry_page {a b flags : BitVec 32} (h : pageOf a = pageOf b) :
    mapEntry a flags = mapEntry b flags := by
  have hpage : a &&& PTE_ADDR_MASK = b &&& PTE_ADDR_MASK := by
    apply BitVec.eq_of_toNat_eq
    rw [PTE_ADDR_MASK, Word.toNat_page, Word.toNat_page]
    rw [pageOf, pageOf, PAGE_SIZE] at h
    omega
  rw [mapEntry, mapEntry, hpage]

/-- The registers lie in a window of 128 KiB that starts at a multiple of its size. -/
theorem pageOf_mmio (halign : bar0.toNat % 0x20000 = 0) (hk : k < 32) :
    pageOf (bar0 + BitVec.ofNat 32 (k * PAGE_SIZE)) = pageOf bar0 + k := by
  have hlt := bar0.isLt
  rw [pageOf, pageOf, BitVec.toNat_add, BitVec.toNat_ofNat, PAGE_SIZE]
  omega

theorem pdIndex_mmio (halign : bar0.toNat % 0x20000 = 0) (hk : k < 32) :
    pdIndex (bar0 + BitVec.ofNat 32 (k * PAGE_SIZE)) = pdIndex bar0 := by
  rw [pdIndex_eq, pdIndex_eq, pageOf_mmio halign hk, pageOf, PAGE_SIZE]
  omega

/-- The page table of an address is there, or can be made. -/
def TableReady (s : Vmm) (i : Nat) : Prop :=
  hasFlag (s.pageDirectory i) PTE_PRESENT = true ∨ (pmmAllocFrame s.pmm).1 ≠ 0

theorem vmmMap_ready {pa flags : BitVec 32} (h : TableReady s (pdIndex va)) :
    (vmmMap s va pa flags).1 = 0 := by
  have hens : (ensureTable s (pdIndex va)).1 = true := by
    rw [ensureTable]
    split
    · rfl
    · next hpd =>
        rw [if_neg (h.resolve_left hpd)]
  rw [vmmMap]
  rcases hr : ensureTable s (pdIndex va) with ⟨ok, s'⟩
  rw [hr] at hens
  obtain rfl : ok = true := hens
  rfl

theorem vmmMap_stuck {pa flags : BitVec 32} (h : ¬TableReady s (pdIndex va))
    (hzero : (pmmAllocFrame s.pmm).1 = 0 → (pmmAllocFrame s.pmm).2 = s.pmm) :
    Mmu.vmmMap s va pa flags = some (-1, s) := by
  rw [TableReady, not_or, not_not] at h
  obtain ⟨hpd, hnone⟩ := h
  rw [Mmu.vmmMap, Mmu.ensureTable, if_neg hpd, if_pos hnone, hzero hnone]
  rfl

theorem mapSlot_mmio (pa : BitVec 32) :
    mapSlot pa MMIO_FLAGS = some (mapEntry pa MMIO_FLAGS) := if_pos (by decide)

/-- One page: the call succeeds, and the table is there for the next one. -/
theorem map_page (h : VmmInv s) (hready : TableReady s (pdIndex va))
    (hfresh : hasFlag (s.pageDirectory (pdIndex va)) PTE_PRESENT = false → Granted FreshFrame s) :
    let s' := (vmmMap s va va MMIO_FLAGS).2
    VmmInv s' ∧ hasFlag (s'.pageDirectory (pdIndex va)) PTE_PRESENT = true
      ∧ ∀ vb, s'.entryAt vb =
        if pageOf vb = pageOf va then some (mapEntry vb MMIO_FLAGS) else s.entryAt vb := by
  intro s'
  obtain ⟨hinv, ⟨hfail, -⟩ | ⟨-, hput⟩⟩ := vmmMap_spec h va va MMIO_FLAGS hfresh
  · rw [vmmMap_ready hready] at hfail
    cases hfail
  · have hentry : ∀ vb, s'.entryAt vb =
        if pageOf vb = pageOf va then some (mapEntry vb MMIO_FLAGS) else s.entryAt vb := by
      intro vb
      rw [hput.entryAt vb, mapSlot_mmio]
      split
      · next hpage => rw [mapEntry_page hpage]
      · rfl
    refine ⟨hinv, ?_, hentry⟩
    by_contra hpd
    have hnone : s'.entryAt va = none := entry_eq_none (Bool.not_eq_true _ ▸ hpd)
    rw [hentry va, if_pos rfl] at hnone
    exact Option.some_ne_none _ hnone

/-- No table lies in the window. -/
def OutsideWindow (s : Vmm) (bar0 : BitVec 32) : Prop :=
  ∀ i, hasFlag (s.pageDirectory i) PTE_PRESENT = true →
    ∀ j < 32, pageOf (BitVec.ofNat 32 (tableAddr (s.pageDirectory i))) ≠ pageOf bar0 + j

/-- The frame of a table is new and mapped to itself. -/
def TableFrame (s : Vmm) (a : Nat) : Prop := FreshFrame s a ∧ translate s (u32 a) = some (u32 a)

/-- The table of the window itself is mapped before the window is. -/
theorem OutsideWindow.call (h : OutsideWindow s bar0) (hva : pdIndex va = pdIndex bar0)
    (halign : bar0.toNat % 0x20000 = 0)
    (hframe : hasFlag (s.pageDirectory (pdIndex bar0)) PTE_PRESENT = false →
      Granted TableFrame s) {pa flags : BitVec 32} :
    OutsideWindow (vmmMap s va pa flags).2 bar0 := by
  intro i hi j hj heq
  rcases call_tables (.map va pa flags) hi with ⟨hold, ha⟩ | ⟨-, -, -, habsent, hne, ha⟩
  · rw [VmmCall.run] at ha
    rw [ha] at heq
    exact h i hold j hj heq
  · rw [VmmCall.addr, hva] at habsent
    have htr := (hframe habsent hne).2
    have hpd : pdIndex (BitVec.ofNat 32 (u32 (pmmAllocFrame s.pmm).1)) = pdIndex bar0 := by
      rw [VmmCall.run] at ha
      rw [ha] at heq
      rw [← pdIndex_mmio halign hj, pdIndex_eq, pdIndex_eq, heq, pageOf_mmio halign hj]
    rw [translate, Vmm.entryAt, hpd, entry_eq_none habsent] at htr
    cases htr

theorem mapMmio_mapped (halign : bar0.toNat % 0x20000 = 0) (hinv : VmmInv s)
    (hm : TablesMapped s) (hready : TableReady s (pdIndex bar0))
    (hframe : hasFlag (s.pageDirectory (pdIndex bar0)) PTE_PRESENT = false →
      Granted TableFrame s) (hout : OutsideWindow s bar0) (hk : k + n ≤ 32) :
    ∃ v, mapMmio bar0 n k s = some v ∧ ∀ vb, v.entryAt vb =
      if pageOf bar0 + k ≤ pageOf vb ∧ pageOf vb < pageOf bar0 + k + n then
        some (mapEntry vb MMIO_FLAGS)
      else s.entryAt vb := by
  induction n generalizing k s with
  | zero => exact ⟨s, rfl, fun vb => (if_neg (by omega)).symm⟩
  | succ n ih =>
      have hpd := pdIndex_mmio halign (show k < 32 by omega)
      have hpage := pageOf_mmio halign (show k < 32 by omega)
      generalize hva : bar0 + BitVec.ofNat 32 (k * PAGE_SIZE) = va at hpd hpage
      have hfresh : hasFlag (s.pageDirectory (pdIndex va)) PTE_PRESENT = false →
          Granted FreshFrame s := fun h => (hframe (hpd ▸ h)).mono fun _ _ ha => ha.1
      have hreach : (VmmCall.map va va MMIO_FLAGS).Reaches s := fun h =>
        (hframe (hpd ▸ h)).mono fun _ _ ha => ha.2
      obtain ⟨hcall, hm'⟩ := call_mapped hinv hm (c := .map va va MMIO_FLAGS) hfresh hreach
        fun _ i hi => by
          rw [VmmCall.addr, hpage]
          exact hout i hi k (by omega)
      obtain ⟨hinv', hpresent, hentry⟩ := map_page hinv (hpd ▸ hready) hfresh
      rw [hpd] at hpresent
      -- from here on the table is there, so no frame is asked for
      obtain ⟨v, hv, hrest⟩ := ih (k := k + 1) hinv' hm' (.inl hpresent)
        (fun habsent => absurd (hpresent.symm.trans habsent) (Bool.false_ne_true ·.symm))
        (hout.call hpd halign hframe) (by omega)
      refine ⟨v, ?_, fun vb => ?_⟩
      · have hcall' : Mmu.vmmMap s va va MMIO_FLAGS = some (vmmMap s va va MMIO_FLAGS) := hcall
        rw [mapMmio, hva, hcall', Option.bind_some]
        exact hv
      · rw [hrest vb, hentry vb, hpage]
        by_cases hfirst : pageOf vb = pageOf bar0 + k
        · rw [if_neg (by omega), if_pos hfirst, if_pos ⟨by omega, by omega⟩]
        · rw [if_neg hfirst]
          exact if_congr (by omega) rfl rfl

theorem mapMmio_stuck (halign : bar0.toNat % 0x20000 = 0) (hstuck : ¬TableReady s (pdIndex bar0))
    (hzero : (pmmAllocFrame s.pmm).1 = 0 → (pmmAllocFrame s.pmm).2 = s.pmm) (hk : k + n ≤ 32) :
    mapMmio bar0 n k s = some s := by
  induction n generalizing k with
  | zero => rfl
  | succ n ih =>
      have hpd := pdIndex_mmio halign (show k < 32 by omega)
      rw [mapMmio, vmmMap_stuck (hpd ▸ hstuck) hzero]
      exact ih (by omega)

theorem initRegs_lt (eeprom : Bool) : ∀ reg ∈ initRegs eeprom, reg < 0x20000 := by
  cases eeprom with
  | false => decide +kernel
  | true => decide +kernel

theorem e1000InitNic_found (io : NicRegs) {s : NicSys} {d : PciDevice} {v : Vmm}
    (h : (pciFindDevice E1000_VENDOR E1000_DEVICE s.bus).1 = some d)
    (hv : mapMmio d.bar0 32 0 s.vmm = some v) :
    e1000InitNic io s =
      if (initRegs (readMacEeprom io 3 0 s.macAddr).1).all (regMapped v d.bar0) then
        some (0,
          { bus := enableDevice (pciFindDevice E1000_VENDOR E1000_DEVICE s.bus).2 d
            vmm := v
            dev := e1000Init s.dev
            macAddr := readMac io s.macAddr })
      else none := by
  rw [e1000InitNic]
  rcases hfind : pciFindDevice E1000_VENDOR E1000_DEVICE s.bus with ⟨found, b⟩
  rw [hfind] at h
  obtain rfl : found = some d := h
  have hpages : mapMmio d.bar0 (0x20000 / PAGE_SIZE) 0 s.vmm = some v := hv
  simp only [hpages, Option.bind_some]

def InWindow (bar0 va : BitVec 32) : Prop :=
  bar0.toNat ≤ va.toNat ∧ va.toNat < bar0.toNat + 0x20000

theorem inWindow_iff (halign : bar0.toNat % 0x20000 = 0) :
    InWindow bar0 va ↔ pageOf bar0 + 0 ≤ pageOf va ∧ pageOf va < pageOf bar0 + 0 + 32 := by
  have hlt := bar0.isLt
  simp only [InWindow, pageOf, PAGE_SIZE]
  omega

theorem regMapped_eq (v : Vmm) (bar0 : BitVec 32) (reg : Nat) :
    regMapped v bar0 reg = (v.entryAt (bar0 + BitVec.ofNat 32 reg)).isSome := by
  rw [regMapped, translate, BitVec.ofNat_toNat, BitVec.setWidth_eq, Option.isSome_map]

theorem inWindow_reg (halign : bar0.toNat % 0x20000 = 0) {reg : Nat} (hreg : reg < 0x20000) :
    InWindow bar0 (bar0 + BitVec.ofNat 32 reg) := by
  have hlt := bar0.isLt
  rw [InWindow, BitVec.toNat_add, BitVec.toNat_ofNat]
  omega

/-- The 128 KiB from `bar0` on are aligned, as the NIC has them, and there is no RAM. -/
structure NicWindow (mmap : List MmapEntry) (bar0 : BitVec 32) : Prop where
  aligned : bar0.toNat % 0x20000 = 0
  noRam : ∀ e ∈ mmap, e.isAvailable = true →
    e.addr.toNat + e.len.toNat ≤ bar0.toNat ∨ bar0.toNat + 0x20000 ≤ e.addr.toNat

variable {kernelEnd : KernelEnd} {mmap : List MmapEntry} {R : Requests}

theorem MmuRun.outsideWindow (h : MmuRun kernelEnd mmap (RamFrame mmap) s R)
    (hw : NicWindow mmap bar0) : OutsideWindow s bar0 := by
  intro i hi j hj heq
  obtain ⟨hhi, e, he, hfree, hlo, hend⟩ := mmuRun_tables h i hi
  have hno := hw.noRam e he hfree
  have halign := hw.aligned
  unfold PAGE_SIZE at hhi hend
  rw [pageOf, pageOf, BitVec.toNat_ofNat, PAGE_SIZE] at heq
  omega

section Init

variable {t : NicSys} {d : PciDevice} (io : NicRegs)
  (hrun : MmuRun kernelEnd mmap (RamFrame mmap) t.vmm R)
  (hfind : (pciFindDevice E1000_VENDOR E1000_DEVICE t.bus).1 = some d)
  (hw : NicWindow mmap d.bar0)

include hrun hfind hw

theorem e1000InitNic_ready (hready : TableReady t.vmm (pdIndex d.bar0))
    (hframe : (VmmCall.map d.bar0 d.bar0 MMIO_FLAGS).Grants
      (fun s a => RamFrame mmap a ∧ translate s a = some a) t.vmm) :
    ∃ t', e1000InitNic io t = some (0, t')
      ∧ (∀ va, InWindow d.bar0 va → t'.vmm.entryAt va = some (mapEntry va MMIO_FLAGS))
      ∧ ∀ va, ¬InWindow d.bar0 va → t'.vmm.entryAt va = t.vmm.entryAt va := by
  obtain ⟨hurun, hm⟩ := mmuRun_sim hrun
  have hsim := userRun_sim hurun
  have htable : hasFlag (t.vmm.pageDirectory (pdIndex d.bar0)) PTE_PRESENT = false →
      Granted TableFrame t.vmm := by
    intro habsent hne
    obtain ⟨hram, htr⟩ := hframe habsent hne
    refine ⟨hsim.used.fresh (fun _ => hram.low) hne, ?_⟩
    rw [u32_of_lt hram.low]
    exact htr
  obtain ⟨v, hv, hentry⟩ := mapMmio_mapped (n := 32) (k := 0) hw.aligned hsim.inv hm hready htable
    (hrun.outsideWindow hw) (by decide)
  have hwindow : ∀ va, InWindow d.bar0 va → v.entryAt va = some (mapEntry va MMIO_FLAGS) := by
    intro va hva
    rw [hentry va, if_pos ((inWindow_iff hw.aligned).mp hva)]
  have hall : (initRegs (readMacEeprom io 3 0 t.macAddr).1).all (regMapped v d.bar0) = true := by
    refine List.all_eq_true.mpr fun reg hreg => ?_
    rw [regMapped_eq, hwindow _ (inWindow_reg hw.aligned (initRegs_lt _ reg hreg))]
    rfl
  refine ⟨_, (e1000InitNic_found io hfind hv).trans (if_pos hall), hwindow, fun va hva => ?_⟩
  rw [hentry va, if_neg (mt (inWindow_iff hw.aligned).mpr hva)]

/-- Without a table the first access, to `REG_CTRL`, is the last. -/
theorem e1000InitNic_stuck (hstuck : ¬TableReady t.vmm (pdIndex d.bar0)) :
    e1000InitNic io t = none := by
  have hused := (userRun_sim (mmuRun_sim hrun).1).used
  have hv := mapMmio_stuck (n := 32) (k := 0) hw.aligned hstuck
    ((mmuRun_zeroUsed hrun).none hused.bound) (by decide)
  refine (e1000InitNic_found io hfind hv).trans (if_neg fun hall => ?_)
  have hctrl := List.all_eq_true.mp hall REG_CTRL (List.mem_cons_self ..)
  have hpd : hasFlag (t.vmm.pageDirectory (pdIndex d.bar0)) PTE_PRESENT = false :=
    Bool.eq_false_iff.mpr fun h => hstuck (.inl h)
  rw [regMapped_eq, REG_CTRL, BitVec.add_zero, Vmm.entryAt, entry_eq_none hpd] at hctrl
  cases hctrl

/-- **Mapped, or no return.** With the registers in an aligned window where there is no RAM,
`e1000_init` returns exactly if the page table of the window is there or the PMM has a frame
for it. It then returns 0, each address of the window is mapped to itself, uncached and for the
kernel only, and every other translation is as before. -/
theorem e1000_mmio_mapped_iff
    (hframe : (VmmCall.map d.bar0 d.bar0 MMIO_FLAGS).Grants
      (fun s a => RamFrame mmap a ∧ translate s a = some a) t.vmm) :
    ((∃ r, e1000InitNic io t = some r) ↔ TableReady t.vmm (pdIndex d.bar0))
      ∧ ∀ ret t', e1000InitNic io t = some (ret, t') → ret = 0
        ∧ (∀ va, InWindow d.bar0 va → t'.vmm.entryAt va = some (mapEntry va MMIO_FLAGS))
        ∧ ∀ va, ¬InWindow d.bar0 va → t'.vmm.entryAt va = t.vmm.entryAt va := by
  by_cases hready : TableReady t.vmm (pdIndex d.bar0)
  · obtain ⟨t₁, hret, hin, hother⟩ := e1000InitNic_ready io hrun hfind hw hready hframe
    refine ⟨iff_of_true ⟨_, hret⟩ hready, fun ret t' h => ?_⟩
    cases hret.symm.trans h
    exact ⟨rfl, hin, hother⟩
  · have hnone := e1000InitNic_stuck io hrun hfind hw hready
    refine ⟨iff_of_false ?_ hready, fun ret t' h => ?_⟩
    · rintro ⟨r, h⟩
      cases hnone.symm.trans h
    · cases hnone.symm.trans h

end Init

end Mmio

/-- A NIC in slot 3 of the first bus, and nothing else. -/
def nicBus : Bus :=
  let nic : BitVec 6 → Reg
    | 0#6 => ⟨0x100E8086#32, 0#32, 0#32⟩
    | 1#6 => ⟨0x02300100#32, 0x00000547#32, 0xF9000000#32⟩
    | 4#6 => ⟨0xFEB80000#32, 0xFFFE0000#32, 0#32⟩
    | _ => ⟨0#32, 0#32, 0#32⟩
  ⟨0#32, fun x => if x.bus = 0#8 ∧ x.slot = 3#5 ∧ x.func = 0#3 then nic x.reg else absent⟩

/-- The NIC in the small machine after `vmm_init`. -/
def nicSys : NicSys := ⟨nicBus, (vmmInit sampleVmm).2, bootE1000, fun _ => 0#8⟩

/-- An EEPROM that answers two words and then stops. -/
def halfEeprom : NicRegs :=
  ⟨fun i _ => if i < 2 then 0xAAAA0010#32 else 0#32, 0x33221100#32, 0x00005544#32⟩

def nicDevice : PciDevice :=
  ⟨0#8, 3#8, 0#8, 0x8086#16, 0x100E#16, 0#8, 0#8, 0#8, 0xFEB80000#32⟩

theorem nicSys_found :
    (pciFindDevice E1000_VENDOR E1000_DEVICE nicSys.bus).1 = some nicDevice := by
  decide +kernel

theorem nicSys_vmm : nicSys.vmm = (vmmInit sampleVmm).2 := by
  rw [nicSys]

theorem nicSys_run : MmuRun sampleKernelEnd highMmap (RamFrame highMmap) nicSys.vmm
    fun _ => false := by
  rw [nicSys_vmm]
  exact sampleVmm_mmuRun

theorem nicWindow_high : NicWindow highMmap 0xFEB80000#32 := by
  refine ⟨by decide, ?_⟩
  decide

/-- The table of the window gets the frame at `0x301000`. -/
theorem nicSys_frame :
    (VmmCall.map nicDevice.bar0 nicDevice.bar0 MMIO_FLAGS).Grants
        (fun s a => RamFrame highMmap a ∧ translate s a = some a) nicSys.vmm
      ∧ TableReady nicSys.vmm (pdIndex nicDevice.bar0) := by
  have halloc : (pmmAllocFrame nicSys.vmm.pmm).1 = 0x301000 := by
    rw [nicSys_vmm, sampleVmm_pmm, highPmm_alloc₂]
  refine ⟨fun _ _ => ?_, .inr ?_⟩
  · rw [halloc, nicSys_vmm]
    exact ⟨ramFrame_sample (by decide),
      identity_translate sampleVmm_identity (by decide) (by decide)⟩
  · rw [halloc]
    decide

/-- The NIC at `0xFEB80000`, above the identity mapping, with frames left. -/
theorem e1000_mmio_mapped_iff_high :
    ∃ t', e1000InitNic halfEeprom nicSys = some (0, t')
      ∧ t'.vmm.entryAt 0xFEB80014#32 = some 0xFEB80013#32 := by
  obtain ⟨hiff, hall⟩ := e1000_mmio_mapped_iff halfEeprom (t := nicSys) nicSys_run
    nicSys_found nicWindow_high nicSys_frame.1
  obtain ⟨⟨ret, t'⟩, hret⟩ := hiff.mpr nicSys_frame.2
  obtain ⟨rfl, hwindow, -⟩ := hall ret t' hret
  exact ⟨t', hret, (hwindow 0xFEB80014#32 ⟨by decide, by decide⟩).trans (by decide)⟩

/-! ## Where the address comes from -/

section Mac

variable {io : NicRegs} {mac : Nat → BitVec 8} {i : Nat} {val : BitVec 32}

/-- Word `i` of the EEPROM: the first read with the done bit, among the first 10000. -/
def WordRead (io : NicRegs) (i : Nat) (val : BitVec 32) : Prop :=
  ∃ k < 10000, io.eeprom i k = val ∧ eepromDone val = true
    ∧ ∀ l < k, eepromDone (io.eeprom i l) = false

theorem WordRead.no_timeout (h : WordRead io i val) :
    ¬∀ k < 10000, eepromDone (io.eeprom i k) = false := by
  intro hno
  obtain ⟨k, hk, rfl, hd, -⟩ := h
  rw [hno k hk] at hd
  exact Bool.false_ne_true hd

theorem poll_answers (reads : Nat → BitVec 32) :
    Loop.Answers (fun k (u : Unit) => (if eepromDone (reads k) then some (reads k) else none, u))
      (fun k => if eepromDone (reads k) then some (reads k) else none) (fun _ => True) 10000 :=
  fun _ _ _ _ => ⟨rfl, trivial⟩

theorem read_eq_some (v val : BitVec 32) :
    (if eepromDone v then some v else none) = some val ↔ v = val ∧ eepromDone val = true := by
  by_cases hd : eepromDone v = true
  · rw [if_pos hd, Option.some.injEq]
    exact ⟨fun h => ⟨h, h ▸ hd⟩, fun h => h.1⟩
  · rw [if_neg hd]
    refine iff_of_false (Option.some_ne_none val).symm ?_
    rintro ⟨rfl, h⟩
    exact hd h

theorem read_eq_none (v : BitVec 32) :
    (if eepromDone v then some v else none) = none ↔ eepromDone v = false := by
  cases hd : eepromDone v <;> simp

theorem pollEeprom_eq_some : pollEeprom (io.eeprom i) = some val ↔ WordRead io i val := by
  rw [pollEeprom, Loop.scan_eq_some_iff (poll_answers _) trivial (Nat.le_refl _)]
  simp only [read_eq_some, read_eq_none, Nat.zero_le, true_and, true_imp_iff, Nat.zero_add,
    and_assoc, WordRead]

theorem pollEeprom_eq_none :
    pollEeprom (io.eeprom i) = none ↔ ∀ k < 10000, eepromDone (io.eeprom i k) = false := by
  rw [pollEeprom, Loop.scan_eq_none_iff (poll_answers _) trivial (Nat.le_refl _)]
  simp only [read_eq_none, Nat.zero_le, true_imp_iff, Nat.zero_add]

/-- The bytes of word `j` stand in the address. -/
def HasWord (mac : Nat → BitVec 8) (j : Nat) (val : BitVec 32) : Prop :=
  mac (j * 2) = val.extractLsb' 16 8 ∧ mac (j * 2 + 1) = val.extractLsb' 24 8

theorem readMacEeprom_none {n : Nat} (h : pollEeprom (io.eeprom i) = none) :
    readMacEeprom io (n + 1) i mac = (false, mac) := by
  rw [readMacEeprom, h]

theorem readMacEeprom_some (n : Nat) (mac : Nat → BitVec 8)
    (h : pollEeprom (io.eeprom i) = some val) :
    ∃ mac', readMacEeprom io (n + 1) i mac = readMacEeprom io n (i + 1) mac'
      ∧ HasWord mac' i val ∧ ∀ x < i * 2, mac' x = mac x := by
  rw [readMacEeprom, h]
  refine ⟨_, rfl, ⟨?_, ?_⟩, ?_⟩
  · rw [Function.update_of_ne (by omega), Function.update_self]
    rfl
  · rw [Function.update_self]
    rfl
  · intro x hx
    rw [Function.update_of_ne (by omega), Function.update_of_ne (by omega)]

/-- The words are read one after the other, and a timeout ends the loop. -/
theorem readMacEeprom_spec (io : NicRegs) (n i : Nat) (mac : Nat → BitVec 8) :
    ((readMacEeprom io n i mac).1 = true ∧ (∀ x < i * 2, (readMacEeprom io n i mac).2 x = mac x)
        ∧ ∀ j, i ≤ j → j < i + n → ∃ val, WordRead io j val
          ∧ HasWord (readMacEeprom io n i mac).2 j val)
      ∨ (readMacEeprom io n i mac).1 = false
        ∧ ∃ j, i ≤ j ∧ j < i + n ∧ ∀ k < 10000, eepromDone (io.eeprom j k) = false := by
  induction n generalizing i mac with
  | zero =>
      exact .inl ⟨rfl, fun _ _ => rfl, fun j hij hj => absurd hij (Nat.not_le.mpr hj)⟩
  | succ n ih =>
      cases hpoll : pollEeprom (io.eeprom i) with
      | none =>
          rw [readMacEeprom_none hpoll]
          exact .inr ⟨rfl, i, Nat.le_refl i, by omega, pollEeprom_eq_none.mp hpoll⟩
      | some val =>
          obtain ⟨mac', hstep, hword, hlow⟩ := readMacEeprom_some n mac hpoll
          rw [hstep]
          rcases ih (i + 1) mac' with ⟨hok, hkeep, hwords⟩ | ⟨hfail, j, hij, hj, hno⟩
          · refine .inl ⟨hok, fun x hx => ?_, fun j hij hj => ?_⟩
            · rw [hkeep x (by omega), hlow x hx]
            · rcases Nat.eq_or_lt_of_le hij with rfl | hlt
              · refine ⟨val, pollEeprom_eq_some.mp hpoll, ?_⟩
                rw [HasWord, hkeep _ (by omega), hkeep _ (by omega)]
                exact hword
              · exact hwords j hlt (by omega)
          · exact .inr ⟨hfail, j, by omega, by omega, hno⟩

def ralBytes (io : NicRegs) : List (BitVec 8) :=
  [io.ral.extractLsb' 0 8, io.ral.extractLsb' 8 8, io.ral.extractLsb' 16 8, io.ral.extractLsb' 24 8,
    io.rah.extractLsb' 0 8, io.rah.extractLsb' 8 8]

theorem readMacRal_bytes (io : NicRegs) (mac : Nat → BitVec 8) :
    (List.range 6).map (readMacRal io mac) = ralBytes io := by
  rfl

theorem readMac_cases (io : NicRegs) (mac : Nat → BitVec 8) :
    (∀ i < 3, ∃ val, WordRead io i val ∧ HasWord (readMac io mac) i val)
      ∨ (∃ i < 3, ∀ k < 10000, eepromDone (io.eeprom i k) = false)
        ∧ ∃ mac', readMac io mac = readMacRal io mac' := by
  rw [readMac]
  rcases readMacEeprom_spec io 3 0 mac with
    ⟨hok, -, hwords⟩ | ⟨hfail, i, -, hi, hno⟩
  · rcases hr : readMacEeprom io 3 0 mac with ⟨ok, mac'⟩
    rw [hr] at hok hwords
    obtain rfl : ok = true := hok
    exact .inl fun i hi => hwords i (Nat.zero_le i) (by omega)
  · rcases hr : readMacEeprom io 3 0 mac with ⟨ok, mac'⟩
    rw [hr] at hfail
    obtain rfl : ok = false := hfail
    exact .inr ⟨⟨i, by omega, hno⟩, mac', rfl⟩

/-- A return with 0 means that the NIC was found and its address read. -/
theorem e1000InitNic_ret {s s' : NicSys} (h : e1000InitNic io s = some (0, s')) :
    s'.macAddr = readMac io s.macAddr := by
  rw [e1000InitNic] at h
  rcases hfind : pciFindDevice E1000_VENDOR E1000_DEVICE s.bus with ⟨_ | d, b⟩
  · rw [hfind] at h
    cases h
  · rw [hfind] at h
    obtain ⟨v, -, hres⟩ := Option.bind_eq_some_iff.mp h
    split at hres
    · cases hres
      rfl
    · cases hres

/-- **One source for the MAC address.** Whenever the NIC is found, the six bytes are those of
the three EEPROM words if each of them is there within 10000 reads, and those of the receive
address registers if one of them is not, also after the first words were read: the two are
never mixed. -/
theorem e1000_mac_source (io : NicRegs) (s s' : NicSys) (h : e1000InitNic io s = some (0, s')) :
    let mac := s'.macAddr
    ((∀ i < 3, ∃ val, WordRead io i val) →
        ∀ i < 3, ∀ val, WordRead io i val → HasWord mac i val)
      ∧ ((∃ i < 3, ∀ k < 10000, eepromDone (io.eeprom i k) = false) →
        (List.range 6).map mac = ralBytes io) := by
  intro mac
  have hmac : mac = readMac io s.macAddr := e1000InitNic_ret h
  rw [hmac]
  rcases readMac_cases io s.macAddr with hwords | ⟨⟨i, hi, hno⟩, mac', hral⟩
  · refine ⟨fun _ i hi val hval => ?_, ?_⟩
    · obtain ⟨val', hval', hhas⟩ := hwords i hi
      rw [← pollEeprom_eq_some] at hval hval'
      rw [hval, Option.some.injEq] at hval'
      exact hval' ▸ hhas
    · rintro ⟨i, hi, hno⟩
      obtain ⟨val, hval, -⟩ := hwords i hi
      exact absurd hno hval.no_timeout
  · refine ⟨fun hall => ?_, fun _ => ?_⟩
    · obtain ⟨val, hval⟩ := hall i hi
      exact absurd hno hval.no_timeout
    · rw [hral]
      exact readMacRal_bytes io mac'

theorem e1000_mac_source_half :
    ∃ s', e1000InitNic halfEeprom nicSys = some (0, s')
      ∧ (List.range 6).map s'.macAddr = [0x00#8, 0x11#8, 0x22#8, 0x33#8, 0x44#8, 0x55#8] := by
  obtain ⟨s', hret, -⟩ := e1000InitNic_ready halfEeprom (t := nicSys) nicSys_run
    nicSys_found nicWindow_high nicSys_frame.2 nicSys_frame.1
  have hstop : ∀ k < 10000, eepromDone (halfEeprom.eeprom 2 k) = false := by
    intro k _
    show eepromDone (if 2 < 2 then 0xAAAA0010#32 else 0#32) = false
    decide
  exact ⟨s', hret, ((e1000_mac_source _ _ _ hret).2 ⟨2, by decide, hstop⟩).trans (by decide)⟩

end Mac

end Matryoshka
