import Matryoshka.VmmSpec
import Matryoshka.PmmOwn

/-!
# Page tables as a partial map

Runs of `vmm_map`, `vmm_unmap` and `vmm_set_user` after a successful
`vmm_init`, next to what the calls say: a partial map from virtual to
physical pages, and the set of pages for which ring-3 access was asked.
The tables refine the map, and ring 3 reaches a page exactly when it is
mapped and was asked for.
-/

namespace Matryoshka

open ByteMem

/-! ## Pages and calls -/

def pageOf (a : BitVec 32) : Nat := a.toNat / PAGE_SIZE

inductive VmmCall
  | map (va pa flags : BitVec 32)
  | unmap (va : BitVec 32)
  | setUser (va : BitVec 32)
deriving Repr, DecidableEq

def VmmCall.run (s : Vmm) : VmmCall → Int × Vmm
  | .map va pa flags => vmmMap s va pa flags
  | .unmap va => vmmUnmap s va
  | .setUser va => vmmSetUser s va

/-- The address a call is about. -/
def VmmCall.addr : VmmCall → BitVec 32
  | .map va _ _ => va
  | .unmap va => va
  | .setUser va => va

/-- If the call needs a new table, the frame it gets satisfies `Ok`. -/
def VmmCall.Grants (Ok : Vmm → Nat → Prop) (s : Vmm) : VmmCall → Prop
  | .map va _ _ => hasFlag (s.pageDirectory (pdIndex va)) PTE_PRESENT = false → Granted Ok s
  | .unmap _ => True
  | .setUser _ => True

section Pages

variable {s s' : Vmm}

theorem pdIndex_eq (va : BitVec 32) : pdIndex va = pageOf va / 1024 := by
  have := va.isLt
  rw [pdIndex, Word.toNat_index, pageOf, PAGE_SIZE]
  omega

theorem ptIndex_eq (va : BitVec 32) : ptIndex va = pageOf va % 1024 := Word.toNat_index va 12

/-- The two indices determine the page. -/
theorem index_eq_iff (va vb : BitVec 32) :
    pdIndex va = pdIndex vb ∧ ptIndex va = ptIndex vb ↔ pageOf va = pageOf vb := by
  rw [pdIndex_eq, pdIndex_eq, ptIndex_eq, ptIndex_eq]
  omega

/-- The translation of the page of `va`. -/
def Vmm.entryAt (s : Vmm) (va : BitVec 32) : Option (BitVec 32) :=
  s.entry (pdIndex va) (ptIndex va)

theorem Vmm.SameEntries.entryAt (h : s.SameEntries s') (va : BitVec 32) :
    s'.entryAt va = s.entryAt va :=
  h _ _ (ptIndex_lt va)

theorem Vmm.Puts.entryAt {va : BitVec 32} {v : Option (BitVec 32)}
    (h : s.Puts s' (pdIndex va) (ptIndex va) v) (vb : BitVec 32) :
    s'.entryAt vb = if pageOf vb = pageOf va then v else s.entryAt vb := by
  rw [Vmm.entryAt, h _ _ (ptIndex_lt vb)]
  simp only [index_eq_iff]
  rfl

/-- What a call does to the translations: nothing when it fails, and one page when it
succeeds. -/
theorem call_spec (h : VmmInv s) (c : VmmCall) (hg : c.Grants FreshFrame s) :
    VmmInv (c.run s).2 ∧
      ((c.run s).1 = -1 ∧ (∀ vb, (c.run s).2.entryAt vb = s.entryAt vb)
        ∨ (c.run s).1 = 0 ∧ ∃ v, (∀ vb, (c.run s).2.entryAt vb =
            if pageOf vb = pageOf c.addr then v else s.entryAt vb)
          ∧ match c with
            | .map _ pa flags => v = mapSlot pa flags
            | .unmap _ => v = none
            | .setUser va => ∃ e, s.entryAt va = some e ∧ v = some (e ||| PTE_USER)) := by
  cases c with
  | map va pa flags =>
      obtain ⟨hinv, ⟨hr, hsame⟩ | ⟨hr, hput⟩⟩ := vmmMap_spec h va pa flags hg
      · exact ⟨hinv, Or.inl ⟨hr, hsame.entryAt⟩⟩
      · exact ⟨hinv, Or.inr ⟨hr, _, hput.entryAt, rfl⟩⟩
  | unmap va =>
      obtain ⟨hinv, ⟨hr, hsame⟩ | ⟨hr, hput⟩⟩ := vmmUnmap_spec h va
      · exact ⟨hinv, Or.inl ⟨hr, hsame.entryAt⟩⟩
      · exact ⟨hinv, Or.inr ⟨hr, _, hput.entryAt, rfl⟩⟩
  | setUser va =>
      obtain ⟨hinv, ⟨hr, hsame⟩ | ⟨hr, e, he, hput⟩⟩ := vmmSetUser_spec h va
      · exact ⟨hinv, Or.inl ⟨hr, hsame.entryAt⟩⟩
      · exact ⟨hinv, Or.inr ⟨hr, _, hput.entryAt, e, he, rfl⟩⟩

end Pages

/-! ## The partial map -/

/-- Virtual page to physical page. -/
abbrev PageMap := Nat → Option Nat

/-- The identity exactly on `[0, identityEnd)`. -/
def identityMap (identityEnd : Nat) : PageMap :=
  fun p => if p * PAGE_SIZE < identityEnd then some p else none

/-- What a call with this result does to the map. -/
def PageMap.after (A : PageMap) (c : VmmCall) (result : Int) : PageMap :=
  if result = 0 then
    match c with
    | .map va pa flags =>
        Function.update A (pageOf va) (if hasFlag flags PTE_PRESENT then some (pageOf pa) else none)
    | .unmap va => Function.update A (pageOf va) none
    | .setUser _ => A
  else A

/-- Runs in which every new table is a fresh frame below 4 GiB. Between the calls anything
may happen to the PMM and to memory that holds no table. -/
inductive MapRun : Vmm → PageMap → Prop
  | init {s s' : Vmm} (hg : InitGrants FreshFrame (initCount s) 0 (clearVmm s))
      (hr : vmmInit s = (0, s')) : MapRun s' (identityMap s'.identityEnd)
  | call {s s' : Vmm} {A : PageMap} {result : Int} (h : MapRun s A) (c : VmmCall)
      (hg : c.Grants FreshFrame s) (hr : c.run s = (result, s')) : MapRun s' (A.after c result)
  | other {s : Vmm} {A : PageMap} (h : MapRun s A) (m : Mem) (pmm : Pmm)
      (hm : ∀ k x, hasFlag (s.pageDirectory k) PTE_PRESENT = true →
        tableAddr (s.pageDirectory k) ≤ x → x < tableAddr (s.pageDirectory k) + PAGE_SIZE →
        m x = s.mem x) :
      MapRun { s with mem := m, pmm := pmm } A

section Map

variable {s : Vmm} {A : PageMap}

/-- The physical page of an entry. -/
def frameOf (e : BitVec 32) : Nat := e.toNat / PAGE_SIZE

theorem frameOf_or_user (e : BitVec 32) : frameOf (e ||| PTE_USER) = frameOf e := by
  have h := tableAddr_or_user e
  rw [tableAddr, tableAddr, PTE_ADDR_MASK, Word.toNat_page, Word.toNat_page] at h
  unfold frameOf PAGE_SIZE
  omega

theorem frameOf_mapEntry (pa flags : BitVec 32) : frameOf (mapEntry pa flags) = pageOf pa := by
  rw [frameOf, mapEntry, PTE_ADDR_MASK, Word.toNat_page_or_offset, pageOf, PAGE_SIZE]
  omega

theorem frameOf_identityEntry {i j : Nat} (hi : i < 1024) (hj : j < 1024) :
    frameOf (identityEntry i j) = i * 1024 + j := by
  have hbase : ((BitVec.ofNat 32 i <<< 22) ||| (BitVec.ofNat 32 j <<< 12)).toNat
      = i * 0x400000 + j * 4096 := by
    have hor := Nat.two_pow_add_eq_or_of_lt (i := 22) (b := j * 4096) (by omega) i
    simp only [BitVec.toNat_or, BitVec.toNat_shiftLeft, BitVec.toNat_ofNat, Nat.shiftLeft_eq,
      Nat.reducePow] at hor ⊢
    rw [Nat.mod_eq_of_lt (show i < 4294967296 by omega),
      Nat.mod_eq_of_lt (show j < 4294967296 by omega),
      Nat.mod_eq_of_lt (show i * 4194304 < 4294967296 by omega),
      Nat.mod_eq_of_lt (show j * 4096 < 4294967296 by omega), Nat.mul_comm i, ← hor]
  have hpage : (identityEntry i j &&& 0xFFFFF000#32).toNat
      = (((BitVec.ofNat 32 i <<< 22) ||| (BitVec.ofNat 32 j <<< 12)) &&& 0xFFFFF000#32).toNat := by
    rw [identityEntry, Word.page_or (by decide), Word.page_or (by decide)]
  rw [Word.toNat_page, Word.toNat_page, hbase] at hpage
  unfold frameOf PAGE_SIZE
  omega

/-- The tables hold the map. -/
structure MapSim (s : Vmm) (A : PageMap) : Prop where
  inv : VmmInv s
  agree : ∀ va, (s.entryAt va).map frameOf = A (pageOf va)

theorem identity_sim {n : Nat} (h : IdentityTables s n) (hn : n ≤ 1024) :
    MapSim s (identityMap (n * 0x400000)) := by
  refine ⟨h.inv, fun va => ?_⟩
  have hpd := pdIndex_eq va
  have hpt := ptIndex_eq va
  have hlt := ptIndex_lt va
  rw [Vmm.entryAt, identityMap, PAGE_SIZE]
  by_cases hva : pdIndex va < n
  · rw [h.below _ _ hva hlt, if_pos (by omega), Option.map_some,
      frameOf_identityEntry (by omega) hlt]
    exact congrArg some (by omega)
  · rw [entry_eq_none (h.above _ (by omega)), if_neg (by omega)]
    rfl

theorem PageMap.after_of_ne (A : PageMap) (c : VmmCall) (result : Int) {p : Nat}
    (hp : p ≠ pageOf c.addr) : A.after c result p = A p := by
  unfold PageMap.after
  split
  · cases c with
    | map va pa flags => exact Function.update_of_ne hp ..
    | unmap va => exact Function.update_of_ne hp ..
    | setUser va => rfl
  · rfl

theorem call_sim (h : MapSim s A) (c : VmmCall) (hg : c.Grants FreshFrame s) :
    MapSim (c.run s).2 (A.after c (c.run s).1) := by
  obtain ⟨hinv, ⟨hr, hsame⟩ | ⟨hr, v, hput, hv⟩⟩ := call_spec h.inv c hg
  · refine ⟨hinv, fun va => ?_⟩
    rw [hr, hsame, h.agree]
    rfl
  · refine ⟨hinv, fun vb => ?_⟩
    rw [hr, hput]
    by_cases hp : pageOf vb = pageOf c.addr
    · rw [if_pos hp, hp]
      cases c with
      | map va pa flags =>
          simp only [PageMap.after, VmmCall.addr, if_true, Function.update_self, hv, mapSlot]
          split
          · rw [Option.map_some, frameOf_mapEntry]
          · rfl
      | unmap va =>
          simp only [PageMap.after, VmmCall.addr, if_true, Function.update_self, hv]
          rfl
      | setUser va =>
          obtain ⟨e, he, rfl⟩ := hv
          have hA := h.agree va
          rw [he, Option.map_some] at hA
          rw [Option.map_some, frameOf_or_user, hA]
          rfl
    · rw [if_neg hp, h.agree, A.after_of_ne c 0 hp]

/-- Writes outside the tables and changes of the PMM are invisible. -/
theorem other_sim (h : MapSim s A) {m : Mem} (pmm : Pmm)
    (hm : ∀ k x, hasFlag (s.pageDirectory k) PTE_PRESENT = true →
      tableAddr (s.pageDirectory k) ≤ x → x < tableAddr (s.pageDirectory k) + PAGE_SIZE →
      m x = s.mem x) : MapSim { s with mem := m, pmm := pmm } A := by
  have hread : ∀ k l, l < 1024 → hasFlag (s.pageDirectory k) PTE_PRESENT = true →
      readPte { s with mem := m, pmm := pmm } k l = readPte s k l := by
    intro k l hl hk
    refine load32_congr fun x h1 h2 => hm k x hk ?_ ?_
    · dsimp only at h1
      omega
    · dsimp only at h2
      unfold PAGE_SIZE
      omega
  refine ⟨⟨h.inv.apart, fun i j hj hi hu => ?_⟩, fun va => ?_⟩
  · rw [hread i j hj hi] at hu
    exact h.inv.user i j hj hi hu
  · rw [← h.agree va, Vmm.entryAt, Vmm.entryAt, Vmm.entry, Vmm.entry]
    by_cases hk : hasFlag (s.pageDirectory (pdIndex va)) PTE_PRESENT = true
    · rw [hread _ _ (ptIndex_lt va) hk]
    · simp [hk]

theorem mapRun_sim (h : MapRun s A) : MapSim s A := by
  induction h with
  | @init s s' hg hr =>
      obtain ⟨htables, hend⟩ := vmmInit_spec hg (by rw [hr])
      rw [hr] at htables hend
      rw [hend]
      have hle := (numPde_bounds (pmmGetStats s.pmm).totalMemory).2
      exact identity_sim htables (by unfold initCount; omega)
  | call h c hg hr ih =>
      have := call_sim ih c hg
      rwa [hr] at this
  | other h m pmm hm ih => exact other_sim ih pmm hm

/-- The address the map gives `va`; unmapped addresses read as zero. -/
def PageMap.translate (A : PageMap) (va : BitVec 32) : Nat :=
  match A (pageOf va) with
  | none => 0
  | some p => p * PAGE_SIZE + va.toNat % PAGE_SIZE

/-- **Refinement.** In every run `vmm_is_mapped` and `vmm_get_physical` answer as the
partial map does. -/
theorem vmm_refines_map (h : MapRun s A) (va : BitVec 32) :
    vmmIsMapped s va = (A (pageOf va)).isSome
      ∧ (vmmGetPhysical s va).toNat = A.translate va := by
  have hA := (mapRun_sim h).agree va
  rw [vmmIsMapped_eq, vmmGetPhysical_eq, PageMap.translate, ← hA, Vmm.entryAt]
  cases s.entry (pdIndex va) (ptIndex va) with
  | none => exact ⟨rfl, rfl⟩
  | some e =>
      refine ⟨rfl, ?_⟩
      rw [Option.map_some, Option.getD_some, PTE_ADDR_MASK, vmmOffset, Word.toNat_page_or_offset]
      rfl

end Map

/-! ## A small machine -/

section Sample

/-- Two free frames at 3 MiB and 31 more just above 4 GiB. -/
def highMmap : List MmapEntry := [⟨0x300000, 0x2000, 1⟩, ⟨0x100301000, 0x1F000, 1⟩]

@[irreducible] def highPmm : Pmm :=
  pmmInit sampleKernelEnd (some highMmap) (Pmm.static fun _ => 0#32)

theorem highPmm_reach : PmmReach sampleKernelEnd (some highMmap) ⟨highPmm, []⟩ := by
  unfold highPmm
  exact PmmReach.init fun _ => 0#32

theorem highPmm_totalFrames : highPmm.totalFrames = 0x100320 := by
  unfold highPmm
  simp only [pmmInit, pmmReserveRegion_totalFrames, foldl_clearEntry_totalFrames, fillBitmap]
  decide

theorem highPmm_totalMemory : highPmm.totalMemory = 0x21000 := by
  unfold highPmm
  rw [pmmInit_totalMemory]
  decide

/-- The free frames, lowest first, are 0x300, 0x301 and those from 0x100301 on. -/
theorem highPmm_isUsed {f : Nat} (hf : f < 0x100320) :
    highPmm.isUsed f = true ↔ f ≠ 0x300 ∧ f ≠ 0x301 ∧ f < 0x100301 := by
  have hT := highPmm_totalFrames
  have hend : endFrame (bitmapEnd sampleKernelEnd 0x100320) = 321 := by decide
  have h1 : (⟨0x300000, 0x2000, 1⟩ : MmapEntry).Covers f ↔ 0x300 ≤ f ∧ f < 0x302 :=
    and_iff_right (by decide)
  have h2 : (⟨0x100301000, 0x1F000, 1⟩ : MmapEntry).Covers f ↔ 0x100301 ≤ f ∧ f < 0x100320 :=
    and_iff_right (by decide)
  unfold highPmm at hT ⊢
  rw [pmmInit_isUsed _ _ _ (hT ▸ hf), hT, hend]
  simp only [highMmap, List.forall_mem_cons, h1, h2]
  simp
  omega

theorem pair_eq {α β : Type} {p : α × β} {a : α} (h : p.1 = a) : p = (a, p.2) := by
  cases h
  rfl

theorem highPmm_alloc₁ : pmmAllocFrame highPmm = (0x300000, markUsed highPmm 0x300) := by
  have haddr : frameToAddr 0x300 = 0x300000 := by decide
  rw [pmmAllocFrame_lowest (f := 0x300), haddr]
  · rw [highPmm_totalFrames]
    decide
  · rw [← Bool.not_eq_true, highPmm_isUsed (by decide)]
    decide
  · intro g hg
    rw [highPmm_isUsed (by omega)]
    omega

def sampleVmm : Vmm := ⟨fun _ => 0#8, fun _ => 0#32, 0, 0, 0, highPmm⟩

theorem sampleVmm_initCount : initCount sampleVmm = 1 := by
  rw [initCount, pmmGetStats, sampleVmm, highPmm_totalMemory]
  decide

theorem sampleVmm_alloc :
    pmmAllocFrame (clearVmm sampleVmm).pmm = (0x300000, markUsed highPmm 0x300) :=
  highPmm_alloc₁

theorem sampleVmm_tables :
    initTables (initCount sampleVmm) 0 (clearVmm sampleVmm)
      = (true, initTable (clearVmm sampleVmm) 0) := by
  rw [sampleVmm_initCount, initTables, sampleVmm_alloc]
  rfl

theorem sampleVmm_init : (vmmInit sampleVmm).1 = 0 := by
  simp only [vmmInit, sampleVmm_tables, if_true]

theorem sampleVmm_grants {Ok : Vmm → Nat → Prop} (h : Ok (clearVmm sampleVmm) 0x300000) :
    InitGrants Ok (initCount sampleVmm) 0 (clearVmm sampleVmm) := by
  rw [sampleVmm_initCount]
  refine .next (fun _ => ?_) fun _ => .done _ _
  rw [sampleVmm_alloc]
  exact h

theorem highPmm_alloc₂ :
    pmmAllocFrame (markUsed highPmm 0x300)
      = (0x301000, markUsed (markUsed highPmm 0x300) 0x301) := by
  have haddr : frameToAddr 0x301 = 0x301000 := by decide
  rw [pmmAllocFrame_lowest (f := 0x301), haddr]
  · rw [markUsed_totalFrames, highPmm_totalFrames]
    decide
  · rw [markUsed_isUsed, ← Bool.not_eq_true, Bool.or_eq_true, highPmm_isUsed (by decide)]
    decide
  · intro g hg
    rw [markUsed_isUsed, Bool.or_eq_true, decide_eq_true_eq, highPmm_isUsed (by omega)]
    omega

theorem sampleVmm_pmm : (vmmInit sampleVmm).2.pmm = markUsed highPmm 0x300 := by
  rw [(vmmInit_tables sampleVmm_init sampleVmm_tables).1, initTable_pmm, sampleVmm_alloc]

theorem sampleVmm_pageDirectory {k : Nat} (hk : k ≠ 0) :
    (vmmInit sampleVmm).2.pageDirectory k = 0#32 := by
  rw [(vmmInit_tables sampleVmm_init sampleVmm_tables).2, initTable_clearVmm hk]

theorem sampleVmm_fresh :
    InitGrants FreshFrame (initCount sampleVmm) 0 (clearVmm sampleVmm) := by
  refine sampleVmm_grants ⟨by decide, fun k hk => ?_⟩
  rw [(clearVmm_spec sampleVmm).above k (Nat.zero_le k)] at hk
  cases hk

theorem sampleVmm_identity : IdentityTables (vmmInit sampleVmm).2 1 := by
  have htables := (vmmInit_spec sampleVmm_fresh sampleVmm_init).1
  rwa [sampleVmm_initCount] at htables

theorem sampleVmm_directory :
    (vmmInit sampleVmm).2.pageDirectory 0 = tablePde 0x300000 := by
  rw [(vmmInit_tables sampleVmm_init sampleVmm_tables).2, initTable, installTable_self,
    sampleVmm_alloc]

theorem sampleVmm_tableAddr {k : Nat}
    (hk : hasFlag ((vmmInit sampleVmm).2.pageDirectory k) PTE_PRESENT = true) :
    tableAddr ((vmmInit sampleVmm).2.pageDirectory k) = 0x300000 := by
  by_cases h0 : k = 0
  · rw [h0, sampleVmm_directory]
    decide
  · rw [sampleVmm_pageDirectory h0] at hk
    cases hk

/-- The refinement after a mapping that needed a table and an unmapping. -/
theorem vmm_refines_map_calls :
    ∃ s₁ s₂, vmmMap (vmmInit sampleVmm).2 0x400000#32 0x600000#32 3#32 = (0, s₁)
      ∧ vmmUnmap s₁ 0x1000#32 = (0, s₂)
      ∧ ∀ va, vmmIsMapped s₂ va
          = ((((identityMap (vmmInit sampleVmm).2.identityEnd).after
              (.map 0x400000#32 0x600000#32 3#32) 0).after (.unmap 0x1000#32) 0)
                (pageOf va)).isSome
        ∧ (vmmGetPhysical s₂ va).toNat
          = (((identityMap (vmmInit sampleVmm).2.identityEnd).after
              (.map 0x400000#32 0x600000#32 3#32) 0).after (.unmap 0x1000#32) 0).translate va := by
  have hinit : MapRun (vmmInit sampleVmm).2 (identityMap (vmmInit sampleVmm).2.identityEnd) :=
    .init sampleVmm_fresh (pair_eq sampleVmm_init)
  have habsent : hasFlag ((vmmInit sampleVmm).2.pageDirectory 1) PTE_PRESENT = false := by
    rw [sampleVmm_pageDirectory (by decide)]
    rfl
  obtain ⟨hr₁, -, -, -⟩ := vmmMap_new 0x400000#32 0x600000#32 3#32 (i := 1) (by decide) habsent
    sampleVmm_pmm highPmm_alloc₂ (by decide)
  have hg : (VmmCall.map 0x400000#32 0x600000#32 3#32).Grants FreshFrame
      (vmmInit sampleVmm).2 := by
    intro _ _
    rw [sampleVmm_pmm, highPmm_alloc₂]
    refine ⟨by decide, fun k hk => ?_⟩
    rw [sampleVmm_tableAddr hk]
    decide
  have hrun₁ := hinit.call (.map 0x400000#32 0x600000#32 3#32) hg (pair_eq hr₁)
  have hmapped : vmmIsMapped (vmmMap (vmmInit sampleVmm).2 0x400000#32 0x600000#32 3#32).2
      0x1000#32 = true := by
    obtain ⟨-, ⟨hfail, -⟩ | ⟨-, hput⟩⟩ := vmmMap_spec sampleVmm_identity.inv 0x400000#32
      0x600000#32 3#32 hg
    · exact absurd (hr₁.symm.trans hfail) (by decide)
    · rw [vmmIsMapped_eq, ← Vmm.entryAt, hput.entryAt, if_neg (by decide), Vmm.entryAt,
        sampleVmm_identity.below _ _ (by decide) (ptIndex_lt _)]
      rfl
  have hr₂ := (vmmUnmap_mapped hmapped).1
  exact ⟨_, _, pair_eq hr₁, pair_eq hr₂, fun va => vmm_refines_map
    (hrun₁.call (.unmap 0x1000#32) trivial (pair_eq hr₂)) va⟩

end Sample

end Matryoshka
