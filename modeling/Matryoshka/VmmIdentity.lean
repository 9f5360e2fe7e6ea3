import Matryoshka.VmmMmu
import Matryoshka.PmmHeap

/-!
# Which RAM `vmm_init` identity-maps

`vmm_init` computes the mapped extent from the sum of the available
region lengths, rounded up to 4 MiB in 32-bit arithmetic, and fills one
page table per 4 MiB with the frames the PMM hands out. Tables and frame
bitmap are the same memory, the bitmap from `_kernel_end` upwards, so the
allocations are written here over memory; while the tables lie behind the
bitmap they are those of the bitmap kept apart. The questions of the
result, `vmm_is_mapped` and `vmm_get_physical`, are asked with paging on.
-/

namespace Matryoshka

open ByteMem

/-! ## The memory map -/

/-- `a` lies in an available entry. -/
def Available (mmap : List MmapEntry) (a : BitVec 32) : Prop :=
  ∃ e ∈ mmap, e.isAvailable = true
    ∧ e.addr.toNat ≤ a.toNat ∧ a.toNat < e.addr.toNat + e.len.toNat

/-- The extent of the identity map: the round-up wraps from 4 GiB - 4 MiB on, and then
one table is left. -/
theorem lt_numPde_iff (t i : Nat) :
    i < numPde t ↔ i = 0 ∨ t ≤ 0xFFC00000 ∧ i * 0x400000 < t := by
  unfold numPde u32 TABLES_PER_DIR
  simp only
  split
  · rw [if_pos (by decide)]
    omega
  · split <;> split <;> omega

/-! ## `vmm_init` over memory that holds the bitmap -/

namespace BitmapMem

/-- The scan reads the bitmap in memory, and the word of the frame is stored back. -/
def pmmAllocFrame (kernelEnd : KernelEnd) (s : Vmm) : Nat × Vmm :=
  let pmm := { s.pmm with frameBitmap := bitmapWords kernelEnd s.mem }
  match findFreeFrame pmm with
  | none => (0, s)
  | some frame =>
      (frameToAddr frame,
        { s with
          pmm := markUsed pmm frame
          mem := store32 s.mem (kernelEnd.addr + 4 * (frame / 32))
            ((markUsed pmm frame).frameBitmap (frame / 32)) })

/-- The table for directory entry `i`, in the frame just handed out. -/
def fillTable (s : Vmm) (i ptPhys : Nat) : Vmm :=
  { s with
    mem := fillIdentity s.mem (u32 ptPhys) i PAGES_PER_TABLE
    pageDirectory := Function.update s.pageDirectory i (tablePde ptPhys)
    pageTables := u32 (s.pageTables + 1) }

def initTables (kernelEnd : KernelEnd) : (n i : Nat) → Vmm → Bool × Vmm
  | 0, _, s => (true, s)
  | n + 1, i, s =>
      let r := pmmAllocFrame kernelEnd s
      if r.1 = 0 then (false, r.2)
      else initTables kernelEnd n (i + 1) (fillTable r.2 i r.1)

def vmmInit (kernelEnd : KernelEnd) (s : Vmm) : Int × Vmm :=
  let r := initTables kernelEnd (initCount s) 0 (clearVmm s)
  if r.1 then
    (0, setStats r.2 (u32 (initCount s * PAGES_PER_TABLE)) (u32 (initCount s * 0x400000)))
  else (-1, r.2)

end BitmapMem

/-- The memory of `b` holds the bitmap of `s` for `T` frames, and behind it the memory of
`s`. -/
structure BitmapSim (kernelEnd : KernelEnd) (T : Nat) (b s : Vmm) : Prop where
  directory : b.pageDirectory = s.pageDirectory
  total : b.pmm.totalFrames = T
  total' : s.pmm.totalFrames = T
  words : ∀ i, 4 * i < bitmapSize T → bitmapWords kernelEnd b.mem i = s.pmm.frameBitmap i
  behind : ∀ x, kernelEnd.addr + bitmapSize T ≤ x → b.mem x = s.mem x

section Sim

variable {kernelEnd : KernelEnd} {T : Nat} {b s : Vmm}

/-- The words of the frames fit in the bitmap. -/
theorem word_lt_bitmapSize {t f : Nat} (hf : f < t) : 4 * (f / 32) + 4 ≤ bitmapSize t := by
  unfold bitmapSize
  simp only
  split_ifs <;> omega

theorem findSome?_congr {α β : Type} {f g : α → Option β} :
    ∀ {l : List α}, (∀ x ∈ l, f x = g x) → l.findSome? f = l.findSome? g
  | [], _ => rfl
  | a :: l, h => by
      rw [List.findSome?_cons, List.findSome?_cons, h a List.mem_cons_self,
        findSome?_congr fun x hx => h x (List.mem_cons_of_mem a hx)]

/-- The scan looks at the words of frames below `total_frames` only. -/
theorem findFreeFrame_congr {p q : Pmm} (hT : p.totalFrames = q.totalFrames)
    (hw : ∀ i < q.totalFrames / 32, p.frameBitmap i = q.frameBitmap i) :
    findFreeFrame p = findFreeFrame q := by
  unfold findFreeFrame
  rw [hT]
  refine findSome?_congr fun i hi => ?_
  have hword := hw i (List.mem_range.mp hi)
  unfold scanWord
  rw [hword]
  split
  · refine findSome?_congr fun j hj => ?_
    have hindex : (i * 32 + j) / 32 = i := by
      have := List.mem_range.mp hj
      omega
    simp only [bitmapTest, Bitmap.test, hindex, hword, hT]
  · rfl

/-- The allocation over memory hands out the frame of the one with the bitmap apart. -/
theorem BitmapSim.alloc (h : BitmapSim kernelEnd T b s) :
    (BitmapMem.pmmAllocFrame kernelEnd b).1 = (pmmAllocFrame s.pmm).1
      ∧ BitmapSim kernelEnd T (BitmapMem.pmmAllocFrame kernelEnd b).2
        { s with pmm := (pmmAllocFrame s.pmm).2 } := by
  have hfind : findFreeFrame { b.pmm with frameBitmap := bitmapWords kernelEnd b.mem }
      = findFreeFrame s.pmm := by
    refine findFreeFrame_congr (h.total.trans h.total'.symm) fun i hi => h.words i ?_
    have := word_lt_bitmapSize (t := T) (f := 32 * i)
    rw [h.total'] at hi
    omega
  unfold BitmapMem.pmmAllocFrame pmmAllocFrame
  simp only [hfind]
  cases hf : findFreeFrame s.pmm with
  | none => exact ⟨rfl, h.directory, h.total, h.total', h.words, h.behind⟩
  | some f =>
      have hlt := (findFreeFrame_some hf).1
      rw [h.total'] at hlt
      have hfits := word_lt_bitmapSize hlt
      refine ⟨rfl, h.directory, h.total, h.total', fun i hi => ?_, fun x hx => ?_⟩
      · have hword := h.words i hi
        have hset :
            (markUsed { b.pmm with frameBitmap := bitmapWords kernelEnd b.mem } f).frameBitmap i =
              (markUsed s.pmm f).frameBitmap i := by
          simp only [markUsed, bitmapSet, Bitmap.set, hword]
        by_cases hif : i = f / 32
        · subst hif
          rw [← hset]
          exact load32_store32_self ..
        · refine (load32_store32_of_disjoint (by omega)).trans (hword.trans ?_)
          simp only [markUsed, bitmapSet, Bitmap.set, if_neg hif]
      · exact (store32_of_outside (by omega)).trans (h.behind x hx)

theorem store32_apply_congr {m m' : Mem} {a x : Nat} {v : BitVec 32} (h : m x = m' x) :
    store32 m a v x = store32 m' a v x := by
  simp only [store32, h]

theorem fillIdentity_apply_congr {m m' : Mem} {pt i x : Nat} (h : m x = m' x) :
    ∀ n, fillIdentity m pt i n x = fillIdentity m' pt i n x
  | 0 => h
  | n + 1 => store32_apply_congr (fillIdentity_apply_congr h n)

/-- A table behind the bitmap is filled alike. -/
theorem BitmapSim.fill (h : BitmapSim kernelEnd T b s) (i : Nat)
    (hpt : kernelEnd.addr + bitmapSize T ≤ u32 (pmmAllocFrame s.pmm).1) :
    BitmapSim kernelEnd T
      (BitmapMem.fillTable (BitmapMem.pmmAllocFrame kernelEnd b).2 i (pmmAllocFrame s.pmm).1)
      (initTable s i) := by
  have hsim := h.alloc.2
  refine ⟨?_, hsim.total, hsim.total', fun j hj => ?_, fun x hx => ?_⟩
  · simp only [BitmapMem.fillTable, initTable, installTable, hsim.directory]
  · refine Eq.trans ?_ (hsim.words j hj)
    have hmod : bitmapSize T % 4 = 0 := by
      unfold bitmapSize
      simp only
      split_ifs <;> omega
    exact load32_congr fun x _ _ => fillIdentity_of_outside (by omega)
  · exact fillIdentity_apply_congr (hsim.behind x hx) _

theorem BitmapSim.initTables {n i : Nat} (h : BitmapSim kernelEnd T b s)
    (hg : InitGrants (fun _ a => kernelEnd.addr + bitmapSize T ≤ u32 a) n i s) :
    (BitmapMem.initTables kernelEnd n i b).1 = (initTables n i s).1
      ∧ BitmapSim kernelEnd T (BitmapMem.initTables kernelEnd n i b).2 (initTables n i s).2 := by
  induction hg generalizing b with
  | done i s => exact ⟨rfl, h⟩
  | @next n i s hg hn ih =>
      obtain ⟨haddr, hsim⟩ := h.alloc
      rw [BitmapMem.initTables, Matryoshka.initTables]
      simp only [haddr]
      by_cases hz : (pmmAllocFrame s.pmm).1 = 0
      · rw [if_pos hz, if_pos hz]
        exact ⟨rfl, hsim⟩
      · rw [if_neg hz, if_neg hz]
        exact ih hz (h.fill i (hg hz))

/-- The end of `vmm_init`, at any statistics: the kernel would multiply the real ones out. -/
theorem BitmapSim.finish {r r' : Bool × Vmm} (hr : r.1 = r'.1)
    (h : BitmapSim kernelEnd T r.2 r'.2) (pages stop : Nat) :
    (if r.1 then ((0 : Int), setStats r.2 pages stop) else (-1, r.2)).1
        = (if r'.1 then ((0 : Int), setStats r'.2 pages stop) else (-1, r'.2)).1
      ∧ BitmapSim kernelEnd T (if r.1 then ((0 : Int), setStats r.2 pages stop) else (-1, r.2)).2
        (if r'.1 then ((0 : Int), setStats r'.2 pages stop) else (-1, r'.2)).2 := by
  rw [hr]
  split
  · exact ⟨rfl, h.directory, h.total, h.total', h.words, h.behind⟩
  · exact ⟨rfl, h⟩

/-- `vmm_init` over memory that holds the bitmap is `vmm_init`, as long as the tables lie behind
the bitmap. -/
theorem bitmapMem_vmmInit (hT : s.pmm.totalFrames = T)
    (hw : ∀ i, 4 * i < bitmapSize T → bitmapWords kernelEnd s.mem i = s.pmm.frameBitmap i)
    (hg : InitGrants (fun _ a => kernelEnd.addr + bitmapSize T ≤ u32 a) (initCount s) 0
      (clearVmm s)) :
    (BitmapMem.vmmInit kernelEnd s).1 = (vmmInit s).1
      ∧ BitmapSim kernelEnd T (BitmapMem.vmmInit kernelEnd s).2 (vmmInit s).2 := by
  have hclear : BitmapSim kernelEnd T (clearVmm s) (clearVmm s) := ⟨rfl, hT, hT, hw, fun _ _ => rfl⟩
  obtain ⟨hr, hsim⟩ := hclear.initTables hg
  exact hsim.finish hr _ _

/-- Tables behind the bitmap are read alike. -/
theorem BitmapSim.identity {n : Nat} (h : BitmapSim kernelEnd T b s) (hs : IdentityTables s n)
    (ht : ∀ k, hasFlag (s.pageDirectory k) PTE_PRESENT = true →
      kernelEnd.addr + bitmapSize T ≤ tableAddr (s.pageDirectory k)) : IdentityTables b n := by
  have hread : ∀ k l, hasFlag (s.pageDirectory k) PTE_PRESENT = true →
      readPte b k l = readPte s k l := by
    intro k l hk
    have := ht k hk
    rw [readPte, readPte, h.directory]
    exact load32_congr fun x h1 _ => h.behind x (by omega)
  refine ⟨⟨?_, fun i j hj hi hu => ?_⟩, fun k l hk hl => ?_, ?_⟩
  · rw [h.directory]
    exact hs.inv.apart
  · rw [h.directory] at hi ⊢
    rw [hread i j hi] at hu
    exact hs.inv.user i j hj hi hu
  · rw [← hs.below k l hk hl, Vmm.entry, Vmm.entry, h.directory]
    by_cases hp : hasFlag (s.pageDirectory k) PTE_PRESENT = true
    · rw [hread k l hp]
    · simp [hp]
  · rw [h.directory]
    exact hs.above

end Sim

/-! ## The frames of the tables -/

/-- The PMM after `k` allocations. -/
def afterAllocs (p : Pmm) : Nat → Pmm
  | 0 => p
  | k + 1 => (pmmAllocFrame (afterAllocs p k)).2

/-- The frame handed out for table `k`. -/
def tableFrame (p : Pmm) (k : Nat) : Nat := (pmmAllocFrame (afterAllocs p k)).1

theorem tableFrame_zero (p : Pmm) : tableFrame p 0 = (pmmAllocFrame p).1 := rfl

section Frames

variable {p : Pmm}

theorem initGrants_of_tableFrame {Ok : Nat → Prop} {n i : Nat} {s : Vmm}
    (hs : s.pmm = afterAllocs p i)
    (h : ∀ k, i ≤ k → k < i + n → tableFrame p k ≠ 0 → Ok (tableFrame p k)) :
    InitGrants (fun _ => Ok) n i s := by
  induction n generalizing i s with
  | zero => exact .done i s
  | succ n ih =>
      have hframe : (pmmAllocFrame s.pmm).1 = tableFrame p i := by rw [hs, tableFrame]
      refine .next (fun hne => ?_) fun _ => ?_
      · rw [hframe] at hne ⊢
        exact h i (Nat.le_refl i) (by omega) hne
      · refine ih ?_ fun k hik hk => h k (by omega) (by omega)
        rw [initTable_pmm, hs, afterAllocs]

theorem afterAllocs_totalFrames (p : Pmm) : ∀ k, (afterAllocs p k).totalFrames = p.totalFrames
  | 0 => rfl
  | k + 1 => (pmmAllocFrame_totalFrames _).trans (afterAllocs_totalFrames p k)

theorem afterAllocs_mono {f : Nat} (hf : p.isUsed f = true) :
    ∀ k, (afterAllocs p k).isUsed f = true
  | 0 => hf
  | k + 1 => pmmAllocFrame_mono _ (afterAllocs_mono hf k)

/-- A table frame is free in the PMM as `pmm_init` leaves it. -/
theorem tableFrame_free (hb : p.totalFrames ≤ 2 ^ 52) {k : Nat} (hne : tableFrame p k ≠ 0) :
    p.isUsed (addrToFrame (tableFrame p k)) = false := by
  have hfree := (pmmAllocFrame_frame (afterAllocs_totalFrames p k ▸ hb) hne).1
  cases hused : p.isUsed (addrToFrame (tableFrame p k)) with
  | false => rfl
  | true =>
      have := afterAllocs_mono hused k
      rw [tableFrame] at this
      rw [this] at hfree
      cases hfree

/-- `pmm_init` keeps the bitmap, and all below it, from being handed out. -/
theorem tableFrame_behind {kernelEnd : KernelEnd} {mmap : List MmapEntry} {w : Nat → BitVec 32}
    (hp : p = pmmInit kernelEnd (some mmap) (Pmm.static w))
    (hfit : kernelEnd.addr + bitmapSize p.totalFrames < 2 ^ 32) {k : Nat}
    (hne : tableFrame p k ≠ 0) (hlow : tableFrame p k < 2 ^ 32) :
    kernelEnd.addr + bitmapSize p.totalFrames ≤ tableFrame p k := by
  have hb : p.totalFrames ≤ 2 ^ 52 := by
    rw [hp]
    exact pmmInit_totalFrames_le kernelEnd (some mmap) _
  have hfree := tableFrame_free hb hne
  have hmod : tableFrame p k % 4096 = 0 := pmmAllocFrame_mod _
  have hlt : addrToFrame (tableFrame p k) < p.totalFrames := by
    rw [← afterAllocs_totalFrames p k]
    rcases pmmAllocFrame_cases (afterAllocs p k) with h | ⟨f, hf, -, h⟩
    · rw [tableFrame, h] at hne
      exact absurd rfl hne
    · rw [afterAllocs_totalFrames] at hf ⊢
      rw [tableFrame, h, addrToFrame_frameToAddr (show f < 2 ^ 52 by omega)]
      exact hf
  have hout : ¬addrToFrame (tableFrame p k) ≤ endFrame (bitmapEnd kernelEnd p.totalFrames) := by
    intro hle
    rw [hp] at hfree hlt hle
    rw [(pmmInit_isUsed kernelEnd mmap w hlt).mpr (Or.inr hle)] at hfree
    cases hfree
  unfold addrToFrame endFrame PMM_FRAME_SIZE bitmapEnd ptrToU64 u64 addrToFrame at hout
  unfold PMM_FRAME_SIZE at hout
  split at hout <;> omega

end Frames

/-! ## All RAM -/

/-- Every available address below 4 GiB is mapped to itself. -/
def IdentityMapped (mmap : List MmapEntry) (s : Vmm) : Prop :=
  ∀ a, Available mmap a → Mmu.vmmIsMapped s a = some true ∧ Mmu.vmmGetPhysical s a = some a

/-- The map leaves room for `a`: its 4 MiB block starts below the sum of the available
lengths, and the sum is at most 4 GiB - 4 MiB, or the block is the first one. -/
def Covered (mmap : List MmapEntry) (a : BitVec 32) : Prop :=
  pdIndex a = 0 ∨ availableBytes mmap ≤ 0xFFC00000 ∧ pdIndex a * 0x400000 < availableBytes mmap

/-- The bitmap lies below 4 GiB, and every frame handed out for a table is RAM below 4 GiB. -/
structure BootTables (kernelEnd : KernelEnd) (mmap : List MmapEntry) (p : Pmm) : Prop where
  fits : kernelEnd.addr + bitmapSize p.totalFrames < 2 ^ 32
  ram : ∀ k < numPde (availableBytes mmap), tableFrame p k ≠ 0 → RamFrame mmap (tableFrame p k)

section All

variable {kernelEnd : KernelEnd} {mmap : List MmapEntry} {w : Nat → BitVec 32} {s : Vmm}

/-- With identity tables for `n` blocks an address is its own translation exactly if its block
is one of them. -/
theorem identity_iff {n : Nat} (h : IdentityTables s n) (hn : n ≤ 1024) (a : BitVec 32) :
    (vmmIsMapped s a = true ∧ vmmGetPhysical s a = a) ↔ pdIndex a < n := by
  rw [vmmIsMapped_eq, vmmGetPhysical_eq]
  have hpt := ptIndex_lt a
  by_cases hi : pdIndex a < n
  · refine iff_of_true ?_ hi
    rw [h.below _ _ hi hpt, Option.map_some, Option.getD_some]
    refine ⟨rfl, BitVec.eq_of_toNat_eq ?_⟩
    have hframe := frameOf_identityEntry (i := pdIndex a) (by omega) hpt
    have hpd := pdIndex_eq a
    have hpi := ptIndex_eq a
    unfold frameOf PAGE_SIZE at hframe
    unfold pageOf PAGE_SIZE at hpd hpi
    rw [PTE_ADDR_MASK, vmmOffset, Word.toNat_page_or_offset, hframe]
    omega
  · refine iff_of_false ?_ hi
    rw [entry_eq_none (h.above _ (by omega))]
    rintro ⟨hnone, -⟩
    cases hnone

/-- The grants of the frames of `BootTables`. -/
theorem BootTables.grants (hs : s.pmm = pmmInit kernelEnd (some mmap) (Pmm.static w))
    (ht : BootTables kernelEnd mmap s.pmm) :
    InitGrants (fun _ a => kernelEnd.addr + bitmapSize s.pmm.totalFrames ≤ a ∧ RamFrame mmap a)
      (initCount s) 0 (clearVmm s) := by
  have hcount : initCount s = numPde (availableBytes mmap) := by
    rw [initCount, pmmGetStats, hs, pmmInit_availableBytes]
  refine initGrants_of_tableFrame (p := s.pmm) rfl fun k _ hk hne => ?_
  rw [hcount, Nat.zero_add] at hk
  have hram := ht.ram k hk hne
  exact ⟨tableFrame_behind hs ht.fits hne hram.low, hram⟩

/-- What `vmm_init` leaves behind on such a machine. -/
theorem bitmapMem_vmmInit_spec (hs : s.pmm = pmmInit kernelEnd (some mmap) (Pmm.static w))
    (hw : ∀ i, 4 * i < bitmapSize s.pmm.totalFrames →
      bitmapWords kernelEnd s.mem i = s.pmm.frameBitmap i)
    (ht : BootTables kernelEnd mmap s.pmm) :
    (BitmapMem.vmmInit kernelEnd s).1 = (vmmInit s).1
      ∧ ((vmmInit s).1 = 0 →
        IdentityTables (BitmapMem.vmmInit kernelEnd s).2 (numPde (availableBytes mmap))
        ∧ ∀ k, hasFlag ((BitmapMem.vmmInit kernelEnd s).2.pageDirectory k) PTE_PRESENT = true →
          RamFrame mmap (tableAddr ((BitmapMem.vmmInit kernelEnd s).2.pageDirectory k))) := by
  have hcount : initCount s = numPde (availableBytes mmap) := by
    rw [initCount, pmmGetStats, hs, pmmInit_availableBytes]
  have hb : s.pmm.totalFrames ≤ 2 ^ 52 := by
    rw [hs]
    exact pmmInit_totalFrames_le kernelEnd (some mmap) _
  have hg := ht.grants hs
  obtain ⟨hres, hsim⟩ := bitmapMem_vmmInit rfl hw
    (hg.mono fun _ a ha => by rw [u32_of_lt ha.2.low]; exact ha.1)
  refine ⟨hres, fun hok => ?_⟩
  have htables := (vmmInit_spec ((hg.mono fun _ _ ha => ha.2.low).fresh (clearVmm_used hb)) hok).1
  have hplace : ∀ k, hasFlag ((vmmInit s).2.pageDirectory k) PTE_PRESENT = true →
      kernelEnd.addr + bitmapSize s.pmm.totalFrames ≤ tableAddr ((vmmInit s).2.pageDirectory k)
        ∧ RamFrame mmap (tableAddr ((vmmInit s).2.pageDirectory k)) := by
    rw [(vmmInit_tables hok (pair_eq (vmmInit_success hok).1)).2]
    refine initTables_granted hg (fun _ ha => ha.2.low) fun k hk => ?_
    rw [(clearVmm_spec s).above k k.zero_le] at hk
    cases hk
  rw [← hcount]
  refine ⟨hsim.identity htables fun k hk => (hplace k hk).1, fun k hk => ?_⟩
  rw [hsim.directory] at hk ⊢
  exact (hplace k hk).2

/-- If all RAM is covered, the tables are too. -/
theorem tablesMapped_of_covered {n : Nat} (h : IdentityTables s n)
    (hn : n = numPde (availableBytes mmap))
    (hram : ∀ k, hasFlag (s.pageDirectory k) PTE_PRESENT = true →
      RamFrame mmap (tableAddr (s.pageDirectory k)))
    (hcov : ∀ a, Available mmap a → Covered mmap a) : TablesMapped s := by
  have hle := (numPde_bounds (availableBytes mmap)).2
  intro k hk
  obtain ⟨hlow, e, he, havail, hlo, hhi⟩ := hram k hk
  unfold PAGE_SIZE at hlow hhi
  have haddr : (BitVec.ofNat 32 (tableAddr (s.pageDirectory k))).toNat
      = tableAddr (s.pageDirectory k) := by
    rw [BitVec.toNat_ofNat, Nat.mod_eq_of_lt (by omega)]
  have hblock := (lt_numPde_iff _ _).mpr (hcov (BitVec.ofNat 32 (tableAddr (s.pageDirectory k)))
    ⟨e, he, havail, by rw [haddr]; exact hlo, by rw [haddr]; omega⟩)
  rw [pdIndex_eq, pageOf, haddr, PAGE_SIZE, ← hn] at hblock
  exact identity_translate h (by omega) (by omega)

/-- `vmm_init` identity-maps all RAM exactly when the map covers every available address. -/
theorem identity_mapped_iff (hs : s.pmm = pmmInit kernelEnd (some mmap) (Pmm.static w))
    (hw : ∀ i, 4 * i < bitmapSize s.pmm.totalFrames →
      bitmapWords kernelEnd s.mem i = s.pmm.frameBitmap i)
    (ht : BootTables kernelEnd mmap s.pmm) (hok : (BitmapMem.vmmInit kernelEnd s).1 = 0) :
    IdentityMapped mmap (BitmapMem.vmmInit kernelEnd s).2
      ↔ ∀ a, Available mmap a → Covered mmap a := by
  have hle := (numPde_bounds (availableBytes mmap)).2
  obtain ⟨hres, hspec⟩ := bitmapMem_vmmInit_spec hs hw ht
  obtain ⟨htables, hram⟩ := hspec (hres.symm.trans hok)
  constructor
  · intro hid a ha
    refine (lt_numPde_iff _ _).mp ?_
    by_contra hlt
    have hmapped := (hid a ha).1
    rw [Mmu.vmmIsMapped_absent (htables.above _ (Nat.le_of_not_lt hlt))] at hmapped
    cases hmapped
  · intro hcov a ha
    have hm := tablesMapped_of_covered htables rfl hram hcov
    obtain ⟨hmapped, hphys⟩ := (identity_iff htables (by omega) a).mpr
      ((lt_numPde_iff _ _).mpr (hcov a ha))
    rw [Mmu.vmmIsMapped_eq hm, Mmu.vmmGetPhysical_eq hm, hmapped, hphys]
    exact ⟨rfl, rfl⟩

end All

/-! ## A machine with 4 GiB -/

section Sample

/-- The map of a 4 GiB machine: 3 GiB below the PCI hole and 1 GiB above 4 GiB. -/
def bigMmap : List MmapEntry :=
  [⟨0, 0x9FC00, 1⟩, ⟨0x9FC00, 0x400, 2⟩, ⟨0xF0000, 0x10000, 2⟩, ⟨0x100000, 0xBFEE0000, 1⟩,
    ⟨0xBFFE0000, 0x20000, 2⟩, ⟨0xFFFC0000, 0x40000, 2⟩, ⟨0x100000000, 0x40000000, 1⟩]

@[irreducible] def bigPmm : Pmm :=
  pmmInit sampleKernelEnd (some bigMmap) (Pmm.static fun _ => 0#32)

theorem bigPmm_totalFrames : bigPmm.totalFrames = 0x140000 := by
  unfold bigPmm
  simp only [pmmInit, pmmReserveRegion_totalFrames, foldl_clearEntry_totalFrames, fillBitmap]
  decide

theorem bigPmm_isUsed {f : Nat} (hf : f ≤ 0x149) : bigPmm.isUsed f = true ↔ f ≠ 0x149 := by
  have hT := bigPmm_totalFrames
  have hend : endFrame (bitmapEnd sampleKernelEnd 0x140000) = 0x148 := by decide
  unfold bigPmm at hT ⊢
  rw [pmmInit_isUsed _ _ _ (by rw [hT]; omega), hT, hend]
  constructor
  · rintro (hnone | hle)
    · rintro rfl
      exact hnone ⟨0x100000, 0xBFEE0000, 1⟩ (by simp [bigMmap]) ⟨by decide, by decide⟩
    · omega
  · intro hne
    exact Or.inr (by omega)

theorem bigPmm_alloc : (pmmAllocFrame bigPmm).1 = 0x149000 := by
  rw [pmmAllocFrame_lowest (f := 0x149)]
  · decide
  · rw [bigPmm_totalFrames]
    decide
  · rw [← Bool.not_eq_true, bigPmm_isUsed (by decide)]
    decide
  · intro g hg
    rw [bigPmm_isUsed (by omega)]
    omega

/-- A machine at boot, with the bitmap of `p` in memory. -/
def bitmapVmm (p : Pmm) : Vmm :=
  ⟨ofWords sampleKernelEnd.addr p.frameBitmap fun _ => 0#8, fun _ => 0#32, 0, 0, 0, p⟩

theorem bitmapVmm_words (p : Pmm) (i : Nat) (_ : 4 * i < bitmapSize (bitmapVmm p).pmm.totalFrames) :
    bitmapWords sampleKernelEnd (bitmapVmm p).mem i = (bitmapVmm p).pmm.frameBitmap i :=
  load32_ofWords ..

/-- A machine whose extent is one table. -/
theorem bitmapVmm_init {p : Pmm} {mmap : List MmapEntry} {w : Nat → BitVec 32}
    (hp : p = pmmInit sampleKernelEnd (some mmap) (Pmm.static w))
    (ht : BootTables sampleKernelEnd mmap p) (hn : numPde (availableBytes mmap) = 1)
    (halloc : (pmmAllocFrame p).1 ≠ 0) :
    (BitmapMem.vmmInit sampleKernelEnd (bitmapVmm p)).1 = 0
      ∧ ∀ va, pdIndex va ≠ 0 →
        Mmu.vmmIsMapped (BitmapMem.vmmInit sampleKernelEnd (bitmapVmm p)).2 va = some false := by
  have hcount : initCount (bitmapVmm p) = 1 := by
    have hmem : (pmmGetStats (bitmapVmm p).pmm).totalMemory = p.totalMemory := rfl
    rw [initCount, hmem, hp, pmmInit_availableBytes, hn]
  have hr : (initTables (initCount (bitmapVmm p)) 0 (clearVmm (bitmapVmm p))).1 = true := by
    have hz : ¬(pmmAllocFrame (clearVmm (bitmapVmm p)).pmm).1 = 0 := halloc
    rw [hcount, initTables, if_neg hz]
    rfl
  have hok : (vmmInit (bitmapVmm p)).1 = 0 := by simp only [vmmInit, hr, if_true]
  obtain ⟨hres, hspec⟩ := bitmapMem_vmmInit_spec (s := bitmapVmm p) hp (bitmapVmm_words p) ht
  obtain ⟨htables, -⟩ := hspec hok
  rw [hn] at htables
  exact ⟨hres.trans hok, fun va hva => Mmu.vmmIsMapped_absent (htables.above _ (by omega))⟩

theorem bigPmm_init :
    bigPmm = pmmInit sampleKernelEnd (some bigMmap) (Pmm.static fun _ => 0#32) := by
  unfold bigPmm
  exact Eq.refl _

theorem bigPmm_numPde : numPde (availableBytes bigMmap) = 1 := by decide

theorem bigPmm_bootTables : BootTables sampleKernelEnd bigMmap bigPmm := by
  refine ⟨?_, fun k hk _ => ?_⟩
  · rw [bigPmm_totalFrames]
    decide
  · rw [bigPmm_numPde, Nat.lt_one_iff] at hk
    rw [hk, tableFrame_zero, bigPmm_alloc]
    exact ⟨by decide, ⟨0x100000, 0xBFEE0000, 1⟩, by simp [bigMmap], by decide, by decide, by decide⟩

/-- `vmm_init` succeeds and maps 4 MiB: RAM at 4 MiB is left out. -/
theorem big_machine_unmapped :
    bigPmm = pmmInit sampleKernelEnd (some bigMmap) (Pmm.static fun _ => 0#32)
      ∧ BootTables sampleKernelEnd bigMmap bigPmm
      ∧ (BitmapMem.vmmInit sampleKernelEnd (bitmapVmm bigPmm)).1 = 0
      ∧ Available bigMmap 0x400000#32
      ∧ Mmu.vmmIsMapped (BitmapMem.vmmInit sampleKernelEnd (bitmapVmm bigPmm)).2 0x400000#32
          = some false
      ∧ ¬IdentityMapped bigMmap (BitmapMem.vmmInit sampleKernelEnd (bitmapVmm bigPmm)).2 := by
  have havail : Available bigMmap 0x400000#32 :=
    ⟨⟨0x100000, 0xBFEE0000, 1⟩, by simp [bigMmap], by decide, by decide, by decide⟩
  obtain ⟨hok, habsent⟩ := bitmapVmm_init bigPmm_init bigPmm_bootTables bigPmm_numPde
    (by rw [bigPmm_alloc]; decide)
  have hmap := habsent 0x400000#32 (by decide)
  refine ⟨bigPmm_init, bigPmm_bootTables, hok, havail, hmap, fun hid => ?_⟩
  rw [(hid _ havail).1] at hmap
  cases hmap

theorem highPmm_init :
    highPmm = pmmInit sampleKernelEnd (some highMmap) (Pmm.static fun _ => 0#32) := by
  unfold highPmm
  exact Eq.refl _

theorem highPmm_numPde : numPde (availableBytes highMmap) = 1 := by decide

theorem highPmm_bootTables : BootTables sampleKernelEnd highMmap highPmm := by
  refine ⟨?_, fun k hk _ => ?_⟩
  · rw [highPmm_totalFrames]
    decide
  · rw [highPmm_numPde, Nat.lt_one_iff] at hk
    rw [hk, tableFrame_zero, highPmm_alloc₁]
    exact ramFrame_sample (by decide)

/-- The small machine has all its RAM below 4 GiB in the first block. -/
theorem identity_mapped_iff_small :
    IdentityMapped highMmap (BitmapMem.vmmInit sampleKernelEnd (bitmapVmm highPmm)).2 := by
  have hok := (bitmapVmm_init highPmm_init highPmm_bootTables highPmm_numPde
    (by rw [highPmm_alloc₁]; decide)).1
  refine (identity_mapped_iff (s := bitmapVmm highPmm) highPmm_init (bitmapVmm_words highPmm)
    highPmm_bootTables hok).mpr ?_
  rintro a ⟨e, he, -, hlo, hhi⟩
  have hpd := pdIndex_eq a
  unfold pageOf PAGE_SIZE at hpd
  have ha := a.isLt
  simp only [highMmap, List.mem_cons, List.not_mem_nil, or_false] at he
  rcases he with rfl | rfl
  · have hstop : a.toNat < 0x302000 := hhi
    exact Or.inl (by omega)
  · have hstart : 0x100301000 ≤ a.toNat := hlo
    omega

end Sample

end Matryoshka
