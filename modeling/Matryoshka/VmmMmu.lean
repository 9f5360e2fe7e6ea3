import Matryoshka.VmmUser
import Matryoshka.Heap

/-!
# The page tables through the MMU

Once `vmm_init` has set CR0.PG every pointer of the kernel is translated,
also the pointers `vmm.c` uses for its own page tables. Here the calls are
written over that translation: a load or store of a table entry, and the
`memset` of a new table, reach the frame the page walk finds, and if it
finds none the page fault handler stops the machine (`none`). While every
table lies in a page that is mapped to itself these calls are the ones at
physical addresses, and they keep it so unless they map or unmap such a
page themselves.
-/

namespace Matryoshka

open ByteMem

/-! ## The page walk -/

/-- The physical address of `a`, for the kernel; `none` is a page fault. -/
def translate (s : Vmm) (a : Nat) : Option Nat :=
  (s.entryAt (BitVec.ofNat 32 a)).map fun e => tableAddr e + a % PAGE_SIZE

namespace Mmu

def readPte (s : Vmm) (i j : Nat) : Option (BitVec 32) :=
  (translate s (tableAddr (s.pageDirectory i) + 4 * j)).map (load32 s.mem)

def writePte (s : Vmm) (i j : Nat) (e : BitVec 32) : Option Vmm :=
  (translate s (tableAddr (s.pageDirectory i) + 4 * j)).map fun a =>
    { s with mem := store32 s.mem a e }

/-- The `memset` comes before the directory entry is set. -/
def zeroTable (s : Vmm) (i : Nat) : Option Vmm :=
  let (ptPhys, pmm) := pmmAllocFrame s.pmm
  (translate s (u32 ptPhys)).map fun pt =>
    { s with
      pmm := pmm
      mem := fillUp s.mem pt 0#8 PAGE_SIZE
      pageDirectory := Function.update s.pageDirectory i (tablePde ptPhys)
      pageTables := u32 (s.pageTables + 1) }

def ensureTable (s : Vmm) (i : Nat) : Option (Bool × Vmm) :=
  if hasFlag (s.pageDirectory i) PTE_PRESENT then some (true, s)
  else if (pmmAllocFrame s.pmm).1 = 0 then
    some (false, { s with pmm := (pmmAllocFrame s.pmm).2 })
  else (zeroTable s i).map fun s => (true, s)

def vmmMap (s : Vmm) (va pa flags : BitVec 32) : Option (Int × Vmm) :=
  (ensureTable s (pdIndex va)).bind fun
    | (false, s) => some (-1, s)
    | (true, s) =>
        let s := propagateUser s (pdIndex va) flags
        (writePte s (pdIndex va) (ptIndex va)
          ((pa &&& PTE_ADDR_MASK) ||| (flags &&& 0xFFF#32))).map fun s =>
            (0, { s with mappedPages := u32 (s.mappedPages + 1) })

def vmmUnmap (s : Vmm) (va : BitVec 32) : Option (Int × Vmm) :=
  if !hasFlag (s.pageDirectory (pdIndex va)) PTE_PRESENT then some (-1, s)
  else (readPte s (pdIndex va) (ptIndex va)).bind fun pte =>
    if !hasFlag pte PTE_PRESENT then some (-1, s)
    else (writePte s (pdIndex va) (ptIndex va) 0#32).map fun s => (0, decMapped s)

def vmmSetUser (s : Vmm) (va : BitVec 32) : Option (Int × Vmm) :=
  if !hasFlag (s.pageDirectory (pdIndex va)) PTE_PRESENT then some (-1, s)
  else
    let s := setUserPde s (pdIndex va)
    (readPte s (pdIndex va) (ptIndex va)).bind fun pte =>
      if !hasFlag pte PTE_PRESENT then some (-1, s)
      else (writePte s (pdIndex va) (ptIndex va) (pte ||| PTE_USER)).map fun s => (0, s)

def vmmIsMapped (s : Vmm) (va : BitVec 32) : Option Bool :=
  if !hasFlag (s.pageDirectory (pdIndex va)) PTE_PRESENT then some false
  else (readPte s (pdIndex va) (ptIndex va)).map fun pte => hasFlag pte PTE_PRESENT

def vmmGetPhysical (s : Vmm) (va : BitVec 32) : Option (BitVec 32) :=
  if !hasFlag (s.pageDirectory (pdIndex va)) PTE_PRESENT then some 0#32
  else (readPte s (pdIndex va) (ptIndex va)).map fun pte =>
    if !hasFlag pte PTE_PRESENT then 0#32 else (pte &&& PTE_ADDR_MASK) ||| vmmOffset va

end Mmu

def VmmCall.mmuRun (s : Vmm) : VmmCall → Option (Int × Vmm)
  | .map va pa flags => Mmu.vmmMap s va pa flags
  | .unmap va => Mmu.vmmUnmap s va
  | .setUser va => Mmu.vmmSetUser s va

/-- Every table lies in a page that is mapped to itself. -/
def TablesMapped (s : Vmm) : Prop :=
  ∀ k, hasFlag (s.pageDirectory k) PTE_PRESENT = true →
    translate s (tableAddr (s.pageDirectory k)) = some (tableAddr (s.pageDirectory k))

/-! ## Walks that agree -/

section Walk

variable {s s' : Vmm}

theorem entryAt_congr {va vb : BitVec 32} (h : pageOf va = pageOf vb) :
    s.entryAt va = s.entryAt vb := by
  obtain ⟨hpd, hpt⟩ := (index_eq_iff va vb).mpr h
  rw [Vmm.entryAt, Vmm.entryAt, hpd, hpt]

theorem translate_congr {a : Nat}
    (h : s'.entryAt (BitVec.ofNat 32 a) = s.entryAt (BitVec.ofNat 32 a)) :
    translate s' a = translate s a := by
  rw [translate, translate, h]

/-- A page that is mapped to itself is so at every offset. -/
theorem translate_add {a k : Nat} (hmod : a % 4096 = 0) (hk : k < 4096)
    (h : translate s a = some a) : translate s (a + k) = some (a + k) := by
  have hpage : pageOf (BitVec.ofNat 32 (a + k)) = pageOf (BitVec.ofNat 32 a) := by
    unfold pageOf PAGE_SIZE
    rw [BitVec.toNat_ofNat, BitVec.toNat_ofNat]
    omega
  rw [translate, entryAt_congr hpage]
  rw [translate] at h
  obtain ⟨e, he, hea⟩ := Option.map_eq_some_iff.mp h
  rw [he, Option.map_some]
  unfold PAGE_SIZE at hea ⊢
  exact congrArg some (by omega)

theorem TablesMapped.slot (h : TablesMapped s) {i j : Nat}
    (hi : hasFlag (s.pageDirectory i) PTE_PRESENT = true) (hj : j < 1024) :
    translate s (tableAddr (s.pageDirectory i) + 4 * j)
      = some (tableAddr (s.pageDirectory i) + 4 * j) :=
  translate_add (tableAddr_mod _) (by omega) (h i hi)

/-- What moves no table and changes no translation of a table page. -/
theorem TablesMapped.of_same (h : TablesMapped s)
    (hp : ∀ k, hasFlag (s'.pageDirectory k) PTE_PRESENT = hasFlag (s.pageDirectory k) PTE_PRESENT)
    (ha : ∀ k, tableAddr (s'.pageDirectory k) = tableAddr (s.pageDirectory k))
    (ht : ∀ k, hasFlag (s.pageDirectory k) PTE_PRESENT = true →
      translate s' (tableAddr (s.pageDirectory k)) = translate s (tableAddr (s.pageDirectory k))) :
    TablesMapped s' := by
  intro k hk
  rw [hp] at hk
  rw [ha, ht k hk]
  exact h k hk

theorem entry_setUserPde (s : Vmm) (i k l : Nat) : (setUserPde s i).entry k l = s.entry k l := by
  rw [Vmm.entry, Vmm.entry, setUserPde_present, readPte_setUserPde]

theorem translate_setUserPde (s : Vmm) (i a : Nat) :
    translate (setUserPde s i) a = translate s a :=
  translate_congr (entry_setUserPde s i _ _)

theorem TablesMapped.setUserPde (h : TablesMapped s) (i : Nat) : TablesMapped (setUserPde s i) :=
  h.of_same (setUserPde_present s i) (setUserPde_tableAddr s i) fun _ _ =>
    translate_setUserPde s i _

end Walk

/-! ## Calls that agree -/

section Agree

variable {s : Vmm}

theorem Mmu.readPte_eq (h : TablesMapped s) {i j : Nat}
    (hi : hasFlag (s.pageDirectory i) PTE_PRESENT = true) (hj : j < 1024) :
    Mmu.readPte s i j = some (Matryoshka.readPte s i j) := by
  rw [Mmu.readPte, h.slot hi hj]
  rfl

theorem Mmu.writePte_eq {i j : Nat} {e : BitVec 32}
    (h : translate s (tableAddr (s.pageDirectory i) + 4 * j)
      = some (tableAddr (s.pageDirectory i) + 4 * j)) :
    Mmu.writePte s i j e = some (Matryoshka.writePte s i j e) := by
  rw [Mmu.writePte, h]
  rfl

theorem Mmu.vmmIsMapped_absent {va : BitVec 32}
    (h : hasFlag (s.pageDirectory (pdIndex va)) PTE_PRESENT = false) :
    Mmu.vmmIsMapped s va = some false := by
  rw [Mmu.vmmIsMapped, h]
  rfl

theorem Mmu.vmmIsMapped_eq (h : TablesMapped s) (va : BitVec 32) :
    Mmu.vmmIsMapped s va = some (Matryoshka.vmmIsMapped s va) := by
  unfold Mmu.vmmIsMapped Matryoshka.vmmIsMapped
  split
  · rfl
  · rename_i hpd
    rw [Mmu.readPte_eq h (by simpa using hpd) (ptIndex_lt va)]
    rfl

theorem Mmu.vmmGetPhysical_eq (h : TablesMapped s) (va : BitVec 32) :
    Mmu.vmmGetPhysical s va = some (Matryoshka.vmmGetPhysical s va) := by
  unfold Mmu.vmmGetPhysical Matryoshka.vmmGetPhysical
  split
  · rfl
  · rename_i hpd
    rw [Mmu.readPte_eq h (by simpa using hpd) (ptIndex_lt va)]
    rfl

/-- If the call needs a new table, its frame is mapped to itself. -/
def VmmCall.Reaches (s : Vmm) (c : VmmCall) : Prop :=
  c.Grants (fun s a => translate s (u32 a) = some (u32 a)) s

theorem Mmu.ensureTable_eq {i : Nat}
    (h : hasFlag (s.pageDirectory i) PTE_PRESENT = false →
      Granted (fun s a => translate s (u32 a) = some (u32 a)) s) :
    Mmu.ensureTable s i = some (Matryoshka.ensureTable s i) := by
  unfold Mmu.ensureTable Matryoshka.ensureTable
  split
  · rfl
  · rename_i hi
    split
    · rfl
    · rename_i hne
      have hpt := h (by simpa using hi) hne
      simp only [Mmu.zeroTable, hpt, Option.map_some]
      rfl

theorem Mmu.vmmMap_eq {va pa flags : BitVec 32} (hr : (VmmCall.map va pa flags).Reaches s)
    (hslot : ∀ s₁, Matryoshka.ensureTable s (pdIndex va) = (true, s₁) →
      translate s₁ (tableAddr (s₁.pageDirectory (pdIndex va)) + 4 * ptIndex va)
        = some (tableAddr (s₁.pageDirectory (pdIndex va)) + 4 * ptIndex va)) :
    Mmu.vmmMap s va pa flags = some (Matryoshka.vmmMap s va pa flags) := by
  unfold Mmu.vmmMap Matryoshka.vmmMap
  rw [Mmu.ensureTable_eq hr, Option.bind_some]
  rcases hens : Matryoshka.ensureTable s (pdIndex va) with ⟨ok, s₁⟩
  cases ok with
  | false => rfl
  | true =>
      have htr := hslot s₁ hens
      have hprop : translate (propagateUser s₁ (pdIndex va) flags)
          (tableAddr ((propagateUser s₁ (pdIndex va) flags).pageDirectory (pdIndex va))
            + 4 * ptIndex va)
          = some (tableAddr ((propagateUser s₁ (pdIndex va) flags).pageDirectory (pdIndex va))
            + 4 * ptIndex va) := by
        unfold propagateUser
        split
        · rw [setUserPde_tableAddr, translate_setUserPde, htr]
        · exact htr
      simp only [Mmu.writePte_eq hprop, Option.map_some]

theorem Mmu.vmmUnmap_eq (h : TablesMapped s) (va : BitVec 32) :
    Mmu.vmmUnmap s va = some (Matryoshka.vmmUnmap s va) := by
  unfold Mmu.vmmUnmap Matryoshka.vmmUnmap
  split
  · rfl
  · rename_i hpd
    have hpd : hasFlag (s.pageDirectory (pdIndex va)) PTE_PRESENT = true := by simpa using hpd
    rw [Mmu.readPte_eq h hpd (ptIndex_lt va), Option.bind_some]
    split
    · rfl
    · rw [Mmu.writePte_eq (h.slot hpd (ptIndex_lt va))]
      rfl

theorem Mmu.vmmSetUser_eq (h : TablesMapped s) (va : BitVec 32) :
    Mmu.vmmSetUser s va = some (Matryoshka.vmmSetUser s va) := by
  unfold Mmu.vmmSetUser Matryoshka.vmmSetUser
  split
  · rfl
  · rename_i hpd
    have hset := h.setUserPde (pdIndex va)
    have hpd : hasFlag ((setUserPde s (pdIndex va)).pageDirectory (pdIndex va)) PTE_PRESENT
        = true := by
      rw [setUserPde_present]
      simpa using hpd
    dsimp only
    rw [Mmu.readPte_eq hset hpd (ptIndex_lt va), Option.bind_some]
    split
    · rfl
    · rw [Mmu.writePte_eq (hset.slot hpd (ptIndex_lt va))]
      rfl

end Agree

/-! ## Calls that keep the tables mapped -/

/-- The call changes a translation and not only a user bit. -/
def VmmCall.Moves : VmmCall → Prop
  | .map _ _ _ => True
  | .unmap _ => True
  | .setUser _ => False

/-- The pages the kernel itself works in: its image with the bitmap of the PMM behind it,
the heap with the stacks of the tasks, and the page tables. -/
inductive Vmm.Reserved (kernelEnd : KernelEnd) (s : Vmm) (page : Nat) : Prop
  | image (hlo : 0x100000 ≤ page * PAGE_SIZE)
      (hhi : page * PAGE_SIZE < kernelEnd.addr + bitmapSize s.pmm.totalFrames)
  | heap (hlo : HEAP_START ≤ page * PAGE_SIZE) (hhi : page * PAGE_SIZE < HEAP_START + HEAP_INITIAL)
  | table (k : Nat) (hk : hasFlag (s.pageDirectory k) PTE_PRESENT = true)
      (ha : tableAddr (s.pageDirectory k) = page * PAGE_SIZE)

section Keep

variable {s : Vmm}

/-- Where a table of the state after a call comes from. -/
inductive TableFrom (s : Vmm) (c : VmmCall) (k a : Nat) : Prop
  | old (hk : hasFlag (s.pageDirectory k) PTE_PRESENT = true)
      (ha : a = tableAddr (s.pageDirectory k))
  | new (pa flags : BitVec 32) (hc : c = .map c.addr pa flags)
      (hi : hasFlag (s.pageDirectory (pdIndex c.addr)) PTE_PRESENT = false)
      (hne : (pmmAllocFrame s.pmm).1 ≠ 0) (ha : a = u32 (pmmAllocFrame s.pmm).1)

theorem ensureTable_tables {i k : Nat}
    (hk : hasFlag ((ensureTable s i).2.pageDirectory k) PTE_PRESENT = true) :
    hasFlag (s.pageDirectory k) PTE_PRESENT = true
        ∧ tableAddr ((ensureTable s i).2.pageDirectory k) = tableAddr (s.pageDirectory k)
      ∨ hasFlag (s.pageDirectory i) PTE_PRESENT = false ∧ (pmmAllocFrame s.pmm).1 ≠ 0
        ∧ tableAddr ((ensureTable s i).2.pageDirectory k) = u32 (pmmAllocFrame s.pmm).1 := by
  unfold ensureTable at hk ⊢
  split_ifs at hk ⊢ with hi hz
  · exact Or.inl ⟨hk, rfl⟩
  · exact Or.inl ⟨hk, rfl⟩
  · by_cases hki : k = i
    · subst hki
      refine Or.inr ⟨by simpa using hi, hz, ?_⟩
      rw [zeroTable, installTable_self, tableAddr_tablePde (pmmAllocFrame_mod _)]
    · rw [zeroTable, installTable_other hki] at hk ⊢
      exact Or.inl ⟨hk, rfl⟩

/-- A new table in a page that is mapped to itself keeps the tables mapped. -/
theorem ensureTable_mapped (hinv : VmmInv s) (hm : TablesMapped s) {i : Nat}
    (hg : hasFlag (s.pageDirectory i) PTE_PRESENT = false → Granted FreshFrame s)
    (hr : hasFlag (s.pageDirectory i) PTE_PRESENT = false →
      Granted (fun s a => translate s (u32 a) = some (u32 a)) s) :
    TablesMapped (ensureTable s i).2 := by
  intro k hk
  have hsame := (ensureTable_spec hinv hg).2.1
  rw [translate_congr (hsame.entryAt _)]
  rcases ensureTable_tables hk with ⟨hold, ha⟩ | ⟨hi, hne, ha⟩
  · rw [ha]
    exact hm k hold
  · rw [ha]
    exact hr hi hne

/-- Only `ensureTable` adds a table: the rest of a call sets user bits at most. -/
theorem vmmMap_tables (s : Vmm) (va pa flags : BitVec 32) (k : Nat) :
    hasFlag ((vmmMap s va pa flags).2.pageDirectory k) PTE_PRESENT
        = hasFlag ((ensureTable s (pdIndex va)).2.pageDirectory k) PTE_PRESENT
      ∧ tableAddr ((vmmMap s va pa flags).2.pageDirectory k)
        = tableAddr ((ensureTable s (pdIndex va)).2.pageDirectory k) := by
  unfold vmmMap
  match ensureTable s (pdIndex va) with
  | (false, s₁) => exact ⟨rfl, rfl⟩
  | (true, s₁) =>
      simp only [writePte, propagateUser]
      split
      · exact ⟨setUserPde_present _ _ _, setUserPde_tableAddr _ _ _⟩
      · exact ⟨rfl, rfl⟩

theorem vmmUnmap_tables (s : Vmm) (va : BitVec 32) :
    (vmmUnmap s va).2.pageDirectory = s.pageDirectory := by
  unfold vmmUnmap decMapped
  split_ifs
  · rfl
  · rfl
  · rfl
  · rfl

theorem vmmSetUser_tables (s : Vmm) (va : BitVec 32) (k : Nat) :
    hasFlag ((vmmSetUser s va).2.pageDirectory k) PTE_PRESENT
        = hasFlag (s.pageDirectory k) PTE_PRESENT
      ∧ tableAddr ((vmmSetUser s va).2.pageDirectory k) = tableAddr (s.pageDirectory k) := by
  have hset := And.intro (setUserPde_present s (pdIndex va) k)
    (setUserPde_tableAddr s (pdIndex va) k)
  simp only [vmmSetUser]
  split_ifs
  · exact ⟨rfl, rfl⟩
  · exact hset
  · exact hset

theorem call_tables (c : VmmCall) {k : Nat}
    (hk : hasFlag ((c.run s).2.pageDirectory k) PTE_PRESENT = true) :
    TableFrom s c k (tableAddr ((c.run s).2.pageDirectory k)) := by
  cases c with
  | map va pa flags =>
      obtain ⟨hp, ha⟩ := vmmMap_tables s va pa flags k
      rw [VmmCall.run] at hk ⊢
      rw [hp] at hk
      rw [ha]
      rcases ensureTable_tables hk with ⟨hk, ha⟩ | ⟨hi, hne, ha⟩
      · exact .old hk ha
      · exact .new pa flags rfl hi hne ha
  | unmap va =>
      rw [VmmCall.run, vmmUnmap_tables] at hk ⊢
      exact .old hk rfl
  | setUser va =>
      obtain ⟨hp, ha⟩ := vmmSetUser_tables s va k
      rw [VmmCall.run] at hk ⊢
      rw [hp] at hk
      exact .old hk ha

/-- A call keeps the translation of every page but the one it maps or unmaps. -/
theorem call_translate (hinv : VmmInv s) {c : VmmCall} (hg : c.Grants FreshFrame s) {a : Nat}
    (ha : c.Moves → pageOf (BitVec.ofNat 32 a) ≠ pageOf c.addr) :
    translate (c.run s).2 a = translate s a := by
  obtain ⟨-, ⟨-, hsame⟩ | ⟨-, v, hput, hv⟩⟩ := call_spec hinv c hg
  · exact translate_congr (hsame _)
  · by_cases hp : pageOf (BitVec.ofNat 32 a) = pageOf c.addr
    · cases c with
      | map va pa flags => exact absurd hp (ha trivial)
      | unmap va => exact absurd hp (ha trivial)
      | setUser va =>
          obtain ⟨e, he, rfl⟩ := hv
          rw [translate, translate, hput, if_pos hp, entryAt_congr hp, VmmCall.addr, he,
            Option.map_some, Option.map_some, tableAddr_or_user]
    · refine translate_congr ?_
      rw [hput, if_neg hp]

/-- A call that does not move the page of a table does not fault, does what it does at physical
addresses and keeps the tables mapped. -/
theorem call_mapped (hinv : VmmInv s) (hm : TablesMapped s) {c : VmmCall}
    (hg : c.Grants FreshFrame s) (hr : c.Reaches s)
    (hpage : c.Moves → ∀ k, hasFlag (s.pageDirectory k) PTE_PRESENT = true →
      pageOf (BitVec.ofNat 32 (tableAddr (s.pageDirectory k))) ≠ pageOf c.addr) :
    c.mmuRun s = some (c.run s) ∧ TablesMapped (c.run s).2 := by
  constructor
  · cases c with
    | map va pa flags =>
        refine Mmu.vmmMap_eq hr fun s₁ hens => ?_
        have hm₁ := ensureTable_mapped hinv hm hg hr
        have hpres := (ensureTable_spec hinv hg).2.2
        rw [hens] at hm₁ hpres
        exact hm₁.slot (hpres rfl) (ptIndex_lt va)
    | unmap va => exact Mmu.vmmUnmap_eq hm va
    | setUser va => exact Mmu.vmmSetUser_eq hm va
  · intro k hk
    rcases call_tables c hk with ⟨hold, ha⟩ | ⟨pa, flags, hc', hi, hne, ha⟩
    · rw [ha, call_translate hinv hg fun hmove => hpage hmove k hold]
      exact hm k hold
    · rw [hc'] at hr
      have htr : translate s (u32 (pmmAllocFrame s.pmm).1)
          = some (u32 (pmmAllocFrame s.pmm).1) := hr hi hne
      rw [ha, call_translate hinv hg fun _ heq => ?_]
      · exact htr
      · -- the page of the call is not mapped yet, the frame of its table is
        rw [translate, entryAt_congr heq, Vmm.entryAt, entry_eq_none hi] at htr
        cases htr

/-- The calls a caller may make: no page the kernel works in is mapped or unmapped, and a new
table gets a frame that is mapped to itself. -/
structure VmmCall.Apart (kernelEnd : KernelEnd) (s : Vmm) (c : VmmCall) : Prop where
  page : c.Moves → ¬s.Reserved kernelEnd (pageOf c.addr)
  reaches : c.Reaches s

theorem VmmCall.Apart.mapped {kernelEnd : KernelEnd} {c : VmmCall} (hc : c.Apart kernelEnd s)
    (hinv : VmmInv s) (hm : TablesMapped s) (hg : c.Grants FreshFrame s) :
    c.mmuRun s = some (c.run s) ∧ TablesMapped (c.run s).2 := by
  refine call_mapped hinv hm hg hc.reaches fun hmove k hk heq => hc.page hmove (.table k hk ?_)
  have hmod := tableAddr_mod (s.pageDirectory k)
  have hlt : tableAddr (s.pageDirectory k) < 2 ^ 32 := (s.pageDirectory k &&& PTE_ADDR_MASK).isLt
  rw [← heq, pageOf, BitVec.toNat_ofNat, PAGE_SIZE]
  omega

end Keep

/-! ## Runs -/

/-- The frame at `a` is RAM below 4 GiB. -/
def RamFrame (mmap : List MmapEntry) (a : Nat) : Prop :=
  a + PAGE_SIZE ≤ 2 ^ 32 ∧ ∃ e ∈ mmap, e.isAvailable = true
    ∧ e.addr.toNat ≤ a ∧ a + PAGE_SIZE ≤ e.addr.toNat + e.len.toNat

/-- Runs of the calls with paging on. `vmm_init` maps the kernel, the bitmap and its own
tables; afterwards nobody maps or unmaps a page the kernel works in, and a new table gets a
frame that is mapped to itself. Every frame a table is put in satisfies `Ok`. -/
inductive MmuRun (kernelEnd : KernelEnd) (mmap : List MmapEntry) (Ok : Nat → Prop) :
    Vmm → Requests → Prop
  | init {held : List Alloc} {s s' : Vmm} (hp : PmmReach kernelEnd (some mmap) ⟨s.pmm, held⟩)
      (hfit : kernelEnd.addr + bitmapSize s.pmm.totalFrames ≤ initCount s * 0x400000)
      (hg : InitGrants (fun _ a => Ok a ∧ a < initCount s * 0x400000) (initCount s) 0 (clearVmm s))
      (hr : vmmInit s = (0, s')) : MmuRun kernelEnd mmap Ok s' fun _ => false
  | call {s s' : Vmm} {R : Requests} {result : Int} (h : MmuRun kernelEnd mmap Ok s R)
      (c : VmmCall) (hg : c.Grants (fun _ => Ok) s) (hc : c.Apart kernelEnd s)
      (hr : c.mmuRun s = some (result, s')) : MmuRun kernelEnd mmap Ok s' (R.after c result)

section Runs

variable {kernelEnd : KernelEnd} {mmap : List MmapEntry} {s : Vmm} {R : Requests}

theorem RamFrame.low {a : Nat} (h : RamFrame mmap a) : LowFrame a := by
  have := h.1
  unfold PAGE_SIZE at this
  unfold LowFrame
  omega

theorem Granted.mono {P Q : Vmm → Nat → Prop} (h : Granted P s) (hpq : ∀ s a, P s a → Q s a) :
    Granted Q s :=
  fun hne => hpq _ _ (h hne)

theorem VmmCall.Grants.mono {P Q : Vmm → Nat → Prop} {c : VmmCall} (h : c.Grants P s)
    (hpq : ∀ s a, P s a → Q s a) : c.Grants Q s := by
  cases c with
  | map va pa flags => exact fun hi => (h hi).mono hpq
  | unmap va => trivial
  | setUser va => trivial

theorem InitGrants.mono {P Q : Vmm → Nat → Prop} {n i : Nat} (h : InitGrants P n i s)
    (hpq : ∀ s a, P s a → Q s a) : InitGrants Q n i s := by
  induction h with
  | done i s => exact .done i s
  | next hg hn ih => exact .next (hg.mono hpq) fun hne => ih hne

/-- The tables of `vmm_init` are the frames it was granted. -/
theorem initTables_granted {Ok : Nat → Prop} {n i : Nat} {s : Vmm}
    (hg : InitGrants (fun _ => Ok) n i s) (hlow : ∀ a, Ok a → a < 2 ^ 32)
    (h : ∀ k, hasFlag (s.pageDirectory k) PTE_PRESENT = true →
      Ok (tableAddr (s.pageDirectory k))) :
    ∀ k, hasFlag ((initTables n i s).2.pageDirectory k) PTE_PRESENT = true →
      Ok (tableAddr ((initTables n i s).2.pageDirectory k)) := by
  induction hg with
  | done i s => exact h
  | @next n i s hg hn ih =>
      rw [initTables]
      split
      · exact h
      · rename_i hne
        refine ih hne fun k hk => ?_
        by_cases hki : k = i
        · subst hki
          rw [initTable, installTable_tableAddr (hlow _ (hg hne))]
          exact hg hne
        · rw [initTable, installTable_other hki] at hk ⊢
          exact h k hk

theorem translate_eq (s : Vmm) (a : Nat) :
    translate s a =
      ((s.entryAt (BitVec.ofNat 32 a)).map frameOf).map fun p => p * PAGE_SIZE + a % PAGE_SIZE := by
  rw [translate, Option.map_map]
  refine congrArg (fun f => Option.map f _) (funext fun e => ?_)
  rw [Function.comp_apply, tableAddr, PTE_ADDR_MASK, Word.toNat_page, frameOf, PAGE_SIZE]

/-- Inside the identity map addresses are their own translation. -/
theorem identity_translate {n a : Nat} (h : IdentityTables s n) (hn : n ≤ 1024)
    (ha : a < n * 0x400000) : translate s a = some a := by
  have hpage : pageOf (BitVec.ofNat 32 a) = a / PAGE_SIZE := by
    rw [pageOf, BitVec.toNat_ofNat, Nat.mod_eq_of_lt (by omega)]
  rw [translate_eq, (identity_sim h hn).agree, identityMap, hpage]
  unfold PAGE_SIZE
  rw [if_pos (by omega), Option.map_some]
  exact congrArg some (by omega)

theorem vmmInit_mapped (hb : s.pmm.totalFrames ≤ 2 ^ 52)
    (hg : InitGrants (fun _ a => a < initCount s * 0x400000) (initCount s) 0 (clearVmm s))
    (hok : (vmmInit s).1 = 0) : TablesMapped (vmmInit s).2 := by
  have hle : initCount s ≤ 1023 := (numPde_bounds _).2
  have hlow : ∀ a, a < initCount s * 0x400000 → a < 2 ^ 32 := fun a ha => by omega
  have htables := (vmmInit_spec ((hg.mono fun _ => hlow).fresh (clearVmm_used hb)) hok).1
  have hnone : ∀ k, hasFlag ((clearVmm s).pageDirectory k) PTE_PRESENT = true →
      tableAddr ((clearVmm s).pageDirectory k) < initCount s * 0x400000 := by
    intro k hk
    rw [(clearVmm_spec s).above k k.zero_le] at hk
    cases hk
  have hgranted := initTables_granted hg hlow hnone
  intro k hk
  refine identity_translate htables (by omega) ?_
  rw [(vmmInit_tables hok (pair_eq (vmmInit_success hok).1)).2] at hk ⊢
  exact hgranted k hk

/-- Such a run is one at physical addresses, and no access to a table goes astray. -/
theorem mmuRun_sim (h : MmuRun kernelEnd mmap (RamFrame mmap) s R) :
    UserRun LowFrame s R ∧ TablesMapped s := by
  induction h with
  | @init held s s' hp hfit hg hr =>
      obtain ⟨T, hinv⟩ := pmmReach_inv hp
      refine ⟨.init hp (hg.mono fun _ _ ha => ha.1.low) hr, ?_⟩
      have hmapped := vmmInit_mapped (hinv.total ▸ hinv.bound) (hg.mono fun _ _ ha => ha.2)
        (by rw [hr])
      rwa [hr] at hmapped
  | call h c hg hc hr ih =>
      obtain ⟨hrun, hm⟩ := ih
      have hsim := userRun_sim hrun
      have hlow := hg.mono fun _ _ ha => RamFrame.low ha
      obtain ⟨heq, hm'⟩ := hc.mapped hsim.inv hm (hlow.fresh hsim.used)
      have hres := Option.some.inj (hr.symm.trans heq)
      rw [← hres] at hm'
      exact ⟨hrun.call c hlow hres.symm, hm'⟩

/-- A call of a run is the call at physical addresses. -/
theorem MmuRun.call_run {s' : Vmm} {c : VmmCall} {result : Int}
    (h : MmuRun kernelEnd mmap (RamFrame mmap) s R) (hg : c.Grants (fun _ => RamFrame mmap) s)
    (hc : c.Apart kernelEnd s) (hr : c.mmuRun s = some (result, s')) : c.run s = (result, s') := by
  obtain ⟨hrun, hm⟩ := mmuRun_sim h
  have hsim := userRun_sim hrun
  have hfresh := (hg.mono fun _ _ ha => RamFrame.low ha).fresh hsim.used
  exact Option.some.inj ((hc.mapped hsim.inv hm hfresh).1.symm.trans hr)

/-- Every table is RAM below 4 GiB. -/
theorem mmuRun_tables (h : MmuRun kernelEnd mmap (RamFrame mmap) s R) :
    ∀ k, hasFlag (s.pageDirectory k) PTE_PRESENT = true →
      RamFrame mmap (tableAddr (s.pageDirectory k)) := by
  induction h with
  | @init held s s' hp hfit hg hr =>
      have hok : (vmmInit s).1 = 0 := by rw [hr]
      have hnone : ∀ k, hasFlag ((clearVmm s).pageDirectory k) PTE_PRESENT = true →
          RamFrame mmap (tableAddr ((clearVmm s).pageDirectory k)) := by
        intro k hk
        rw [(clearVmm_spec s).above k k.zero_le] at hk
        cases hk
      have hdir := (vmmInit_tables hok (pair_eq (vmmInit_success hok).1)).2
      rw [hr] at hdir
      rw [hdir]
      exact initTables_granted (hg.mono fun _ _ ha => ha.1) (fun _ ha => ha.low) hnone
  | call h c hg hc hr ih =>
      intro k hk
      have hrun := h.call_run hg hc hr
      have hfrom := call_tables c (k := k) (by rw [hrun]; exact hk)
      rw [hrun] at hfrom
      rcases hfrom with ⟨hold, ha⟩ | ⟨pa, flags, hc', hi, hne, ha⟩
      · exact ha ▸ ih k hold
      · rw [hc'] at hg
        have hram := hg hi hne
        rw [ha, u32_of_lt hram.low]
        exact hram

/-- Frame 0 is reserved. -/
def ZeroUsed (p : Pmm) : Prop := 0 < p.totalFrames → p.isUsed 0 = true

theorem ZeroUsed.alloc {p : Pmm} (h : ZeroUsed p) : ZeroUsed (pmmAllocFrame p).2 := by
  intro hpos
  rw [pmmAllocFrame_totalFrames] at hpos
  exact pmmAllocFrame_mono p (h hpos)

/-- With frame 0 reserved the answer 0 means that nothing was handed out. -/
theorem ZeroUsed.none {p : Pmm} (h : ZeroUsed p) (hb : p.totalFrames ≤ 2 ^ 52)
    (hz : (pmmAllocFrame p).1 = 0) : (pmmAllocFrame p).2 = p := by
  rcases pmmAllocFrame_cases p with heq | ⟨f, hlt, hfree, heq⟩
  · rw [heq]
  · rw [heq] at hz
    by_cases hf : f = 0
    · rw [hf, h (by omega)] at hfree
      cases hfree
    · exact absurd hz (frameToAddr_pos (by omega) hf)

theorem initTables_zeroUsed {n i : Nat} {s : Vmm} (h : ZeroUsed s.pmm) :
    ZeroUsed (initTables n i s).2.pmm := by
  induction n generalizing i s with
  | zero => exact h
  | succ n ih =>
      rw [initTables]
      split
      · exact h.alloc
      · exact ih h.alloc

theorem ensureTable_zeroUsed (h : ZeroUsed s.pmm) (i : Nat) :
    ZeroUsed (ensureTable s i).2.pmm := by
  unfold ensureTable
  split_ifs
  · exact h
  · exact h.alloc
  · exact h.alloc

theorem vmmMap_pmm (va pa flags : BitVec 32) :
    (vmmMap s va pa flags).2.pmm = (ensureTable s (pdIndex va)).2.pmm := by
  unfold vmmMap
  rcases ensureTable s (pdIndex va) with ⟨made, s₁⟩
  cases made with
  | false => rfl
  | true =>
      unfold propagateUser
      dsimp only
      split_ifs
      · rfl
      · rfl

theorem vmmUnmap_pmm (va : BitVec 32) : (vmmUnmap s va).2.pmm = s.pmm := by
  unfold vmmUnmap decMapped
  split_ifs
  · rfl
  · rfl
  · rfl
  · rfl

theorem vmmSetUser_pmm (va : BitVec 32) : (vmmSetUser s va).2.pmm = s.pmm := by
  unfold vmmSetUser
  dsimp only
  split_ifs
  · rfl
  · rfl
  · rfl

theorem call_zeroUsed (h : ZeroUsed s.pmm) (c : VmmCall) : ZeroUsed (c.run s).2.pmm := by
  cases c with
  | map va pa flags =>
      rw [VmmCall.run, vmmMap_pmm]
      exact ensureTable_zeroUsed h (pdIndex va)
  | unmap va =>
      rw [VmmCall.run, vmmUnmap_pmm]
      exact h
  | setUser va =>
      rw [VmmCall.run, vmmSetUser_pmm]
      exact h

theorem mmuRun_zeroUsed (h : MmuRun kernelEnd mmap (RamFrame mmap) s R) : ZeroUsed s.pmm := by
  induction h with
  | @init held s s' hp hfit hg hr =>
      have hok : (vmmInit s).1 = 0 := by rw [hr]
      obtain ⟨T, hinv⟩ := pmmReach_inv hp
      have hzero : ZeroUsed (clearVmm s).pmm := fun hpos =>
        hinv.kept 0 (Nat.zero_le _) (hinv.total ▸ hpos)
      have hpmm := (vmmInit_tables hok (pair_eq (vmmInit_success hok).1)).1
      rw [hr] at hpmm
      rw [hpmm]
      exact initTables_zeroUsed hzero
  | call h c hg hc hr ih =>
      have hzero := call_zeroUsed ih c
      rw [h.call_run hg hc hr] at hzero
      exact hzero

/-- **User access does not spread**, in runs whose tables are RAM below 4 GiB that stays
mapped to itself: ring 3 reaches a page exactly when it is mapped and access was requested for
it, and a further call returns and changes the access of its own page only. -/
theorem user_access_exact (h : MmuRun kernelEnd mmap (RamFrame mmap) s R) :
    (∀ va, (Mmu.vmmIsMapped s va).map (fun mapped => mapped && R (pageOf va))
        = some (accessible s va))
      ∧ ∀ c : VmmCall, c.Grants (fun _ => RamFrame mmap) s → c.Apart kernelEnd s →
          ∃ result s', c.mmuRun s = some (result, s')
            ∧ ∀ va, pageOf va ≠ pageOf c.addr → accessible s' va = accessible s va := by
  obtain ⟨hrun, hm⟩ := mmuRun_sim h
  have hsim := userRun_sim hrun
  refine ⟨fun va => ?_, fun c hg hc => ?_⟩
  · rw [Mmu.vmmIsMapped_eq hm, hsim.accessible_iff]
    rfl
  · have hlow := hg.mono fun _ _ ha => RamFrame.low ha
    obtain ⟨heq, -⟩ := hc.mapped hsim.inv hm (hlow.fresh hsim.used)
    exact ⟨_, _, heq, fun va hva => call_accessible hsim hlow hva⟩

end Runs

/-! ## Calls on the small machine -/

section Sample

/-- A table outside what was written keeps its translations. -/
theorem translate_of_table {s s' : Vmm} {a i : Nat} (hi : pdIndex (BitVec.ofNat 32 a) = i)
    (hpd : s'.pageDirectory i = s.pageDirectory i)
    (hm : ∀ x, tableAddr (s.pageDirectory i) ≤ x → x < tableAddr (s.pageDirectory i) + 4096 →
      s'.mem x = s.mem x) : translate s' a = translate s a := by
  have hpt := ptIndex_lt (BitVec.ofNat 32 a)
  refine translate_congr ?_
  have hread : readPte s' i (ptIndex (BitVec.ofNat 32 a))
      = readPte s i (ptIndex (BitVec.ofNat 32 a)) := by
    rw [readPte, readPte, hpd]
    exact load32_congr fun x h1 h2 => hm x (by omega) (by omega)
  rw [Vmm.entryAt, Vmm.entryAt, Vmm.entry, Vmm.entry, hi, hread, hpd]

theorem MmuRun.mono {kernelEnd : KernelEnd} {mmap : List MmapEntry} {P Q : Nat → Prop} {s : Vmm}
    {R : Requests} (h : MmuRun kernelEnd mmap P s R) (hpq : ∀ a, P a → Q a) :
    MmuRun kernelEnd mmap Q s R := by
  induction h with
  | init hp hfit hg hr => exact .init hp hfit (hg.mono fun _ _ ha => ⟨hpq _ ha.1, ha.2⟩) hr
  | call h c hg hc hr ih => exact ih.call c (hg.mono fun _ => hpq) hc hr

/-- Pages away from the first 4 MiB, or below the image, are free to map while the tables lie
between. -/
theorem not_reserved {s : Vmm} {page : Nat} (hT : s.pmm.totalFrames = 0x100320)
    (ht : ∀ k, hasFlag (s.pageDirectory k) PTE_PRESENT = true →
      0x300000 ≤ tableAddr (s.pageDirectory k) ∧ tableAddr (s.pageDirectory k) < 0x400000)
    (hp : page < 0x100 ∨ 0x400 ≤ page) : ¬s.Reserved sampleKernelEnd page := by
  have hbitmap : sampleKernelEnd.addr + bitmapSize 0x100320 ≤ 0x400000 := by decide
  rintro (⟨hlo, hhi⟩ | ⟨hlo, hhi⟩ | ⟨k, hk, ha⟩)
  · rw [hT] at hhi
    unfold PAGE_SIZE at hlo hhi
    omega
  · unfold HEAP_START HEAP_INITIAL PAGE_SIZE at *
    omega
  · have := ht k hk
    unfold PAGE_SIZE at ha
    omega

theorem ramFrame_sample {a : Nat} (h : 0x300000 ≤ a ∧ a + 0x1000 ≤ 0x302000) :
    RamFrame highMmap a := by
  refine ⟨by unfold PAGE_SIZE; omega, ⟨0x300000, 0x2000, 1⟩, by simp [highMmap], by decide, h.1, ?_⟩
  exact h.2

theorem sampleVmm_fits :
    sampleKernelEnd.addr + bitmapSize sampleVmm.pmm.totalFrames ≤ initCount sampleVmm * 0x400000
      ∧ InitGrants (fun _ a => RamFrame highMmap a ∧ a < initCount sampleVmm * 0x400000)
        (initCount sampleVmm) 0 (clearVmm sampleVmm) := by
  refine ⟨?_, sampleVmm_grants ⟨ramFrame_sample (by decide), ?_⟩⟩
  · rw [sampleVmm_initCount, sampleVmm, highPmm_totalFrames]
    decide
  · rw [sampleVmm_initCount]
    decide

theorem sampleVmm_mmuRun :
    MmuRun sampleKernelEnd highMmap (RamFrame highMmap) (vmmInit sampleVmm).2 fun _ => false := by
  obtain ⟨hfit, hg⟩ := sampleVmm_fits
  exact .init highPmm_reach hfit hg (pair_eq sampleVmm_init)

/-- The directory after user access was asked for the page at 4 MiB. -/
def sampleDirectory : Nat → BitVec 32 :=
  Function.update (vmmInit sampleVmm).2.pageDirectory 1 (tablePde 0x301000 ||| PTE_USER)

/-- The new table is the last frame below 4 GiB, which `vmm_init` has mapped. -/
theorem sampleMap_ok :
    (VmmCall.map 0x400000#32 0x400000#32 7#32).Grants (fun _ => RamFrame highMmap)
        (vmmInit sampleVmm).2
      ∧ (VmmCall.map 0x400000#32 0x400000#32 7#32).Apart sampleKernelEnd
        (vmmInit sampleVmm).2 := by
  have halloc : (pmmAllocFrame (vmmInit sampleVmm).2.pmm).1 = 0x301000 := by
    rw [sampleVmm_pmm, highPmm_alloc₂]
  refine ⟨fun _ _ => halloc ▸ ramFrame_sample (by decide),
    fun _ => not_reserved ?_ (fun k hk => ?_) (by decide), fun _ _ => ?_⟩
  · rw [sampleVmm_pmm, markUsed_totalFrames, highPmm_totalFrames]
  · rw [sampleVmm_tableAddr hk]
    decide
  · rw [halloc]
    exact identity_translate sampleVmm_identity (by decide) (by decide)

/-- User access asked for the page at 4 MiB. -/
theorem sampleRun₁ :
    ∃ s, (VmmCall.map 0x400000#32 0x400000#32 7#32).mmuRun (vmmInit sampleVmm).2 = some (0, s)
      ∧ MmuRun sampleKernelEnd highMmap (RamFrame highMmap) s
        (Requests.after (fun _ => false) (.map 0x400000#32 0x400000#32 7#32) 0)
      ∧ s.pmm = markUsed (markUsed highPmm 0x300) 0x301
      ∧ s.pageDirectory = sampleDirectory
      ∧ ∀ va, pageOf va ≠ pageOf 0x400000#32 →
          s.entryAt va = (vmmInit sampleVmm).2.entryAt va := by
  obtain ⟨hg, hc⟩ := sampleMap_ok
  obtain ⟨hurun, hm⟩ := mmuRun_sim sampleVmm_mmuRun
  have hsim := userRun_sim hurun
  have hfresh := (hg.mono fun _ _ ha => RamFrame.low ha).fresh hsim.used
  have habsent := sampleVmm_pageDirectory (k := 1) (by decide)
  obtain ⟨hr, hpmm, hpd, -⟩ := vmmMap_new 0x400000#32 0x400000#32 7#32 (i := 1) (by decide)
    (by rw [habsent]; rfl) sampleVmm_pmm highPmm_alloc₂ (by decide)
  have hres : (VmmCall.map 0x400000#32 0x400000#32 7#32).mmuRun (vmmInit sampleVmm).2
      = some (0, (vmmMap (vmmInit sampleVmm).2 0x400000#32 0x400000#32 7#32).2) :=
    (hc.mapped hsim.inv hm hfresh).1.trans (congrArg some (pair_eq hr))
  refine ⟨_, hres, sampleVmm_mmuRun.call _ hg hc hres, hpmm, hpd, fun va hva => ?_⟩
  obtain ⟨-, ⟨-, hsame⟩ | ⟨-, v, hput, -⟩⟩ := call_spec hsim.inv _ hfresh
  · exact hsame va
  · exact (hput va).trans (if_neg hva)

theorem sampleDirectory_zero : sampleDirectory 0 = tablePde 0x300000 := by
  rw [sampleDirectory, Function.update_of_ne (by decide), sampleVmm_directory]

theorem sampleDirectory_one : sampleDirectory 1 = tablePde 0x301000 ||| PTE_USER := by
  rw [sampleDirectory, Function.update_self]

theorem sampleDirectory_two : sampleDirectory 2 = 0#32 := by
  rw [sampleDirectory, Function.update_of_ne (by decide), sampleVmm_pageDirectory (by decide)]

theorem sampleDirectory_tables {k : Nat}
    (hk : hasFlag (sampleDirectory k) PTE_PRESENT = true) :
    0x300000 ≤ tableAddr (sampleDirectory k) ∧ tableAddr (sampleDirectory k) < 0x400000 := by
  unfold sampleDirectory at hk ⊢
  by_cases h1 : k = 1
  · rw [h1, Function.update_self]
    decide
  · rw [Function.update_of_ne h1] at hk ⊢
    rw [sampleVmm_tableAddr hk]
    decide

/-- A page below the kernel image may be unmapped. -/
theorem sampleUnmap_ok {s : Vmm} (hpmm : s.pmm = markUsed (markUsed highPmm 0x300) 0x301)
    (hpd : s.pageDirectory = sampleDirectory) :
    (VmmCall.unmap 0x1000#32).Apart sampleKernelEnd s := by
  refine ⟨fun _ => not_reserved ?_ (fun k hk => ?_) (by decide), trivial⟩
  · rw [hpmm, markUsed_totalFrames, markUsed_totalFrames, highPmm_totalFrames]
  · rw [hpd] at hk ⊢
    exact sampleDirectory_tables hk

/-- Then the page at 4 KiB is unmapped. -/
theorem sampleRun_unmap {s : Vmm} {R : Requests}
    (hrun : MmuRun sampleKernelEnd highMmap (RamFrame highMmap) s R)
    (hc : (VmmCall.unmap 0x1000#32).Apart sampleKernelEnd s)
    (hentry : ∀ va, pageOf va ≠ pageOf 0x400000#32 →
      s.entryAt va = (vmmInit sampleVmm).2.entryAt va) :
    ∃ s', (VmmCall.unmap 0x1000#32).mmuRun s = some (0, s') := by
  obtain ⟨hurun, hm⟩ := mmuRun_sim hrun
  obtain ⟨heq, -⟩ := hc.mapped (userRun_sim hurun).inv hm trivial
  have hmapped : vmmIsMapped s 0x1000#32 = true := by
    rw [vmmIsMapped_eq, ← Vmm.entryAt, hentry _ (by decide), Vmm.entryAt,
      sampleVmm_identity.below _ _ (by decide) (ptIndex_lt _)]
    rfl
  exact ⟨_, heq.trans (congrArg some (pair_eq (vmmUnmap_mapped hmapped).1))⟩

/-- The access theorem after the two calls: the page at 4 MiB was asked for. -/
theorem user_access_exact_calls :
    ∃ (s₁ s₂ : Vmm) (R : Requests),
      (VmmCall.map 0x400000#32 0x400000#32 7#32).mmuRun (vmmInit sampleVmm).2 = some (0, s₁)
      ∧ (VmmCall.unmap 0x1000#32).mmuRun s₁ = some (0, s₂) ∧ R (pageOf 0x400000#32) = true
      ∧ (∀ va, (Mmu.vmmIsMapped s₂ va).map (fun mapped => mapped && R (pageOf va))
          = some (accessible s₂ va))
      ∧ ∀ c : VmmCall, c.Grants (fun _ => RamFrame highMmap) s₂ → c.Apart sampleKernelEnd s₂ →
          ∃ result s', c.mmuRun s₂ = some (result, s')
            ∧ ∀ va, pageOf va ≠ pageOf c.addr → accessible s' va = accessible s₂ va := by
  obtain ⟨s₁, hres₁, hrun, hpmm, hpd, hentry⟩ := sampleRun₁
  have hc := sampleUnmap_ok hpmm hpd
  obtain ⟨s₂, hres₂⟩ := sampleRun_unmap hrun hc hentry
  exact ⟨s₁, s₂, _, hres₁, hres₂, by decide,
    user_access_exact (hrun.call (.unmap 0x1000#32) (by trivial) hc hres₂)⟩

/-! ## Tables above 4 GiB -/

theorem highPmm_alloc₃ :
    pmmAllocFrame (markUsed (markUsed highPmm 0x300) 0x301)
      = (0x100301000, markUsed (markUsed (markUsed highPmm 0x300) 0x301) 0x100301) := by
  have haddr : frameToAddr 0x100301 = 0x100301000 := by decide
  rw [pmmAllocFrame_lowest (f := 0x100301), haddr]
  · rw [markUsed_totalFrames, markUsed_totalFrames, highPmm_totalFrames]
    decide
  · rw [markUsed_isUsed, markUsed_isUsed, ← Bool.not_eq_true, Bool.or_eq_true, Bool.or_eq_true,
      highPmm_isUsed (by decide)]
    decide
  · intro g hg
    rw [markUsed_isUsed, markUsed_isUsed, Bool.or_eq_true, Bool.or_eq_true, decide_eq_true_eq,
      decide_eq_true_eq, highPmm_isUsed (by omega)]
    omega

/-- The table for 4 MiB is mapped to itself, and stays so while table 0, which translates its
page, is not written. -/
theorem sampleTable_self {s s' : Vmm} {R : Requests}
    (hrun : MmuRun sampleKernelEnd highMmap (RamFrame highMmap) s R)
    (hpd : s.pageDirectory = sampleDirectory) (hdir : s'.pageDirectory 0 = s.pageDirectory 0)
    (hmem : ∀ x, x < 0x301000 ∨ 0x302000 ≤ x → s'.mem x = s.mem x) :
    translate s' 0x301000 = some 0x301000 := by
  have hself := (mmuRun_sim hrun).2 1 (by rw [hpd, sampleDirectory_one]; decide)
  rw [hpd, sampleDirectory_one,
    show tableAddr (tablePde 0x301000 ||| PTE_USER) = 0x301000 by decide] at hself
  rw [← hself]
  refine translate_of_table (i := 0) (by decide) hdir fun x _ h2 => hmem x (Or.inl ?_)
  rwa [hpd, sampleDirectory_zero, show tableAddr (tablePde 0x300000) = 0x300000 by decide] at h2

/-- A kernel page at 8 MiB: its table is a frame above 4 GiB, truncated to the address of
the table for 4 MiB. -/
theorem sampleRun₂ :
    ∃ s, MmuRun sampleKernelEnd highMmap (fun _ => True) s
        ((Requests.after (fun _ => false) (.map 0x400000#32 0x400000#32 7#32) 0).after
          (.map 0x800000#32 0x500000#32 3#32) 0)
      ∧ s.pmm.totalFrames = 0x100320
      ∧ s.pageDirectory = Function.update sampleDirectory 2 (tablePde 0x100301000)
      ∧ translate s 0x301000 = some 0x301000 := by
  obtain ⟨s₁, -, hrun, hpmm, hpd₁, -⟩ := sampleRun₁
  have habsent : hasFlag (s₁.pageDirectory 2) PTE_PRESENT = false := by
    rw [hpd₁, sampleDirectory_two]
    rfl
  have halloc : pmmAllocFrame s₁.pmm
      = (0x100301000, markUsed (markUsed (markUsed highPmm 0x300) 0x301) 0x100301) := by
    rw [hpmm, highPmm_alloc₃]
  have hreach : (VmmCall.map 0x800000#32 0x500000#32 3#32).Reaches s₁ := fun _ _ => by
    rw [halloc]
    exact sampleTable_self hrun hpd₁ rfl fun _ _ => rfl
  obtain ⟨hens, -, hdir, hfill⟩ := zeroTable_new habsent halloc (by decide)
  have hslot : translate (zeroTable s₁ 2) 0x301000 = some 0x301000 := by
    refine sampleTable_self hrun hpd₁ (by rw [hdir, Function.update_of_ne (by decide)])
      fun x hx => ?_
    rw [hfill]
    exact fillUp_of_outside hx
  have hc : (VmmCall.map 0x800000#32 0x500000#32 3#32).Apart sampleKernelEnd s₁ := by
    refine ⟨fun _ => not_reserved ?_ (fun k hk => ?_) (by decide), hreach⟩
    · rw [hpmm, markUsed_totalFrames, markUsed_totalFrames, highPmm_totalFrames]
    · rw [hpd₁] at hk ⊢
      exact sampleDirectory_tables hk
  obtain ⟨hr, hpmm', hpd, hmem⟩ := vmmMap_new 0x800000#32 0x500000#32 3#32 (i := 2) (by decide)
    habsent rfl halloc (by decide)
  have hres : (VmmCall.map 0x800000#32 0x500000#32 3#32).mmuRun s₁
      = some (0, (vmmMap s₁ 0x800000#32 0x500000#32 3#32).2) := by
    refine (Mmu.vmmMap_eq hreach fun s' hs' => ?_).trans (congrArg some (pair_eq hr))
    have hi : pdIndex 0x800000#32 = 2 := by decide
    have hj : ptIndex 0x800000#32 = 0 := by decide
    rw [hi] at hs' ⊢
    obtain rfl : zeroTable s₁ 2 = s' := congrArg Prod.snd (hens.symm.trans hs')
    rw [hj, hdir, Function.update_self]
    exact hslot
  refine ⟨_, (hrun.mono fun _ _ => trivial).call _ (fun _ _ => trivial) hc hres, ?_, ?_, ?_⟩
  · rw [hpmm']
    simp only [markUsed_totalFrames, highPmm_totalFrames]
  · rw [hpd, hpd₁]
    rfl
  · exact sampleTable_self hrun hpd₁ (by rw [hpd, Function.update_of_ne (by decide)]) hmem

/-- On a machine that runs out of frames below 4 GiB the table for the page at 8 MiB is the
table for the page at 4 MiB. After a third mapping, at 8 MiB + 4 KiB, the page at
4 MiB + 4 KiB that nobody asked for is reachable from ring 3. -/
theorem user_access_spreads :
    ∃ s R, MmuRun sampleKernelEnd highMmap (fun _ => True) s R
      ∧ accessible s 0x401000#32 = true ∧ R (pageOf 0x401000#32) = false := by
  obtain ⟨s, hrun, hT, hdir, hself⟩ := sampleRun₂
  have hpd2 : s.pageDirectory 2 = tablePde 0x100301000 := by rw [hdir, Function.update_self]
  have hpd1 : s.pageDirectory 1 = tablePde 0x301000 ||| PTE_USER := by
    rw [hdir, Function.update_of_ne (by decide), sampleDirectory_one]
  have hpres : hasFlag (s.pageDirectory 2) PTE_PRESENT = true := by rw [hpd2, present_tablePde]
  have hi2 : pdIndex 0x801000#32 = 2 := by decide
  have hj2 : ptIndex 0x801000#32 = 1 := by decide
  obtain ⟨hr, hpd, hpte⟩ := vmmMap_old 0x801000#32 0x501000#32 7#32 hi2 hj2 hpres (by decide)
  have hreach : (VmmCall.map 0x801000#32 0x501000#32 7#32).Reaches s := by
    intro habsent
    rw [hi2, hpres] at habsent
    cases habsent
  have hc : (VmmCall.map 0x801000#32 0x501000#32 7#32).Apart sampleKernelEnd s := by
    refine ⟨fun _ => not_reserved hT (fun k hk => ?_) (by decide), hreach⟩
    by_cases hk2 : k = 2
    · rw [hk2, hpd2]
      decide
    · rw [hdir, Function.update_of_ne hk2] at hk ⊢
      exact sampleDirectory_tables hk
  have hres : (VmmCall.map 0x801000#32 0x501000#32 7#32).mmuRun s
      = some (0, (vmmMap s 0x801000#32 0x501000#32 7#32).2) := by
    refine (Mmu.vmmMap_eq hreach fun s' hs' => ?_).trans (congrArg some (pair_eq hr))
    rw [hi2, ensureTable, if_pos hpres] at hs'
    obtain rfl : s = s' := congrArg Prod.snd hs'
    rw [hi2, hj2, hpd2]
    exact translate_add (k := 4) (by decide) (by decide) hself
  refine ⟨_, _, hrun.call (.map 0x801000#32 0x501000#32 7#32) (fun _ _ => trivial) hc hres, ?_,
    by decide⟩
  have hpde : (vmmMap s 0x801000#32 0x501000#32 7#32).2.pageDirectory 1
      = tablePde 0x301000 ||| PTE_USER := by
    rw [hpd, setUserPde_apply, if_neg (by decide), hpd1]
  have hsame : readPte (vmmMap s 0x801000#32 0x501000#32 7#32).2 1 1
      = mapEntry 0x501000#32 7#32 := by
    rw [← hpte, readPte, readPte, hpde, hpd, setUserPde_tableAddr, hpd2, tableAddr_or_user]
    rfl
  have hi : pdIndex 0x401000#32 = 1 := by decide
  have hj : ptIndex 0x401000#32 = 1 := by decide
  simp only [accessible, hi, hj, hpde, hsame]
  decide

end Sample

end Matryoshka
