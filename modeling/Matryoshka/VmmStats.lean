import Matryoshka.VmmMmu

/-!
# Failed calls and statistics

Two things a caller of the VMM may expect. A call that returns -1 has
changed nothing: this holds but for `vmm_set_user`, which sets the user bit
of the directory entry before it looks at the table entry. And the
statistics count what is there: `page_tables` does, in every run, while
`mapped_pages` counts the calls of `vmm_map`, so that it is right as long
as each of them adds a page to the mapped ones.
-/

namespace Matryoshka

open ByteMem

/-! ## Failed calls -/

/-- Directory, tables and statistics are the same. -/
structure SamePaging (s s' : Vmm) : Prop where
  pageDirectory : s'.pageDirectory = s.pageDirectory
  mem : s'.mem = s.mem
  mappedPages : s'.mappedPages = s.mappedPages
  pageTables : s'.pageTables = s.pageTables
  identityEnd : s'.identityEnd = s.identityEnd

/-- User access asked for an unmapped page whose directory entry is present and has no user
bit yet. -/
def VmmCall.HalfDone (s : Vmm) : VmmCall → Prop
  | .setUser va =>
      hasFlag (s.pageDirectory (pdIndex va)) PTE_PRESENT = true
        ∧ hasFlag (s.pageDirectory (pdIndex va)) PTE_USER = false ∧ vmmIsMapped s va = false
  | _ => False

section Failed

variable {s : Vmm}

theorem SamePaging.refl (s : Vmm) : SamePaging s s := ⟨rfl, rfl, rfl, rfl, rfl⟩

theorem or_user_eq {e : BitVec 32} (h : hasFlag e PTE_USER = true) : e ||| PTE_USER = e := by
  apply BitVec.eq_of_getLsbD_eq
  intro i hi
  rw [hasFlag_user] at h
  rw [BitVec.getLsbD_or, PTE_USER, Word.getLsbD_mask (by decide) hi]
  by_cases h2 : i = 2
  · rw [h2, h]
    rfl
  · simp [h2]

theorem setUserPde_same_iff (s : Vmm) (i : Nat) :
    SamePaging s (setUserPde s i) ↔ hasFlag (s.pageDirectory i) PTE_USER = true := by
  constructor
  · intro h
    rw [← h.pageDirectory]
    exact setUserPde_user s i
  · intro h
    have hpd : (setUserPde s i).pageDirectory = s.pageDirectory := by
      funext k
      rw [setUserPde_apply]
      split
      case isTrue hk => rw [hk, or_user_eq h]
      case isFalse => rfl
    exact ⟨hpd, rfl, rfl, rfl, rfl⟩

theorem ensureTable_failed {s₁ : Vmm} {i : Nat} (h : ensureTable s i = (false, s₁)) :
    SamePaging s s₁ := by
  unfold ensureTable at h
  split_ifs at h
  · cases h
  · cases h
    exact ⟨rfl, rfl, rfl, rfl, rfl⟩
  · cases h

theorem vmmMap_failed {va pa flags : BitVec 32} (h : (vmmMap s va pa flags).1 = -1) :
    SamePaging s (vmmMap s va pa flags).2 := by
  unfold vmmMap at h ⊢
  rcases hens : ensureTable s (pdIndex va) with ⟨ok, s₁⟩
  rw [hens] at h
  cases ok with
  | false => exact ensureTable_failed hens
  | true => cases h

theorem vmmUnmap_failed {va : BitVec 32} (h : (vmmUnmap s va).1 = -1) :
    SamePaging s (vmmUnmap s va).2 := by
  unfold vmmUnmap at h ⊢
  split_ifs at h ⊢
  · exact .refl s
  · exact .refl s

/-- A failed `vmm_set_user` stops at the directory, or behind its update. -/
theorem vmmSetUser_failed {va : BitVec 32} (h : (vmmSetUser s va).1 = -1) :
    hasFlag (s.pageDirectory (pdIndex va)) PTE_PRESENT = false ∧ (vmmSetUser s va).2 = s
      ∨ hasFlag (s.pageDirectory (pdIndex va)) PTE_PRESENT = true ∧ vmmIsMapped s va = false
        ∧ (vmmSetUser s va).2 = setUserPde s (pdIndex va) := by
  unfold vmmSetUser at h ⊢
  cases hpd : hasFlag (s.pageDirectory (pdIndex va)) PTE_PRESENT with
  | false => exact .inl ⟨rfl, rfl⟩
  | true =>
      simp only [hpd, readPte_setUserPde] at h ⊢
      cases hpt : hasFlag (readPte s (pdIndex va) (ptIndex va)) PTE_PRESENT with
      | false => exact .inr ⟨trivial, by simp [vmmIsMapped, hpd, hpt], rfl⟩
      | true =>
          rw [hpt] at h
          cases h

/-- A call that returns -1 leaves directory, tables and statistics as they were, except for
the one update of `vmm_set_user` that comes too early. -/
theorem failed_call_intact_iff (s : Vmm) (c : VmmCall) (h : (c.run s).1 = -1) :
    SamePaging s (c.run s).2 ↔ ¬c.HalfDone s := by
  cases c with
  | map va pa flags => exact ⟨fun _ => not_false, fun _ => vmmMap_failed h⟩
  | unmap va => exact ⟨fun _ => not_false, fun _ => vmmUnmap_failed h⟩
  | setUser va =>
      rcases vmmSetUser_failed h with ⟨hpd, hs⟩ | ⟨hpd, hmapped, hs⟩
      · rw [VmmCall.run, hs]
        refine ⟨fun _ hhalf => ?_, fun _ => .refl s⟩
        exact absurd (hpd.symm.trans hhalf.1) (by decide)
      · rw [VmmCall.run, hs, setUserPde_same_iff, ← Bool.not_eq_false]
        exact not_congr ⟨fun hu => ⟨hpd, hu, hmapped⟩, fun hhalf => hhalf.2.1⟩

end Failed

theorem sampleVmm_run : UserRun LowFrame (vmmInit sampleVmm).2 fun _ => false :=
  .init highPmm_reach (sampleVmm_grants (by unfold LowFrame; decide)) (pair_eq sampleVmm_init)

theorem sampleVmm_absent {va : BitVec 32} (h : pdIndex va ≠ 0) :
    hasFlag ((vmmInit sampleVmm).2.pageDirectory (pdIndex va)) PTE_PRESENT = false := by
  rw [sampleVmm_pageDirectory h]
  rfl

theorem failed_call_intact_unmap :
    SamePaging (vmmInit sampleVmm).2 ((VmmCall.unmap 0x400000#32).run (vmmInit sampleVmm).2).2
      ↔ ¬(VmmCall.unmap 0x400000#32).HalfDone (vmmInit sampleVmm).2 := by
  refine failed_call_intact_iff _ _ ?_
  rw [VmmCall.run, vmmUnmap, sampleVmm_absent (by decide)]
  rfl

/-- The early update, as a result of the call. -/
theorem vmmSetUser_halfDone {s : Vmm} {va : BitVec 32} (h : (VmmCall.setUser va).HalfDone s) :
    vmmSetUser s va = (-1, setUserPde s (pdIndex va)) := by
  obtain ⟨hpd, -, hmapped⟩ := h
  have hpt : hasFlag (readPte s (pdIndex va) (ptIndex va)) PTE_PRESENT = false := by
    simpa [vmmIsMapped, hpd] using hmapped
  simp only [vmmSetUser, hpd, readPte_setUserPde, hpt]
  rfl

theorem sampleVmm_mapped {va : BitVec 32} (h : pdIndex va = 0) :
    vmmIsMapped (vmmInit sampleVmm).2 va = true := by
  rw [vmmIsMapped_eq, sampleVmm_identity.below _ _ (by omega) (ptIndex_lt va)]
  rfl

theorem UserRun.unmap {Ok : Nat → Prop} {s : Vmm} {R : Requests} (h : UserRun Ok s R)
    (va : BitVec 32) :
    UserRun Ok (vmmUnmap s va).2 (R.after (.unmap va) (vmmUnmap s va).1) :=
  h.call (.unmap va) trivial rfl

/-- The two calls on a mapped page whose directory entry has no user bit. -/
theorem vmmUnmap_setUser {s : Vmm} {va : BitVec 32} (h : vmmIsMapped s va = true)
    (hu : hasFlag (s.pageDirectory (pdIndex va)) PTE_USER = false) :
    (vmmUnmap s va).1 = 0 ∧ (vmmSetUser (vmmUnmap s va).2 va).1 = -1
      ∧ hasFlag ((vmmUnmap s va).2.pageDirectory (pdIndex va)) PTE_USER = false
      ∧ hasFlag ((vmmSetUser (vmmUnmap s va).2 va).2.pageDirectory (pdIndex va)) PTE_USER
          = true := by
  obtain ⟨hr, hdir, hpd, hmapped⟩ := vmmUnmap_mapped h
  rw [← hdir] at hpd hu
  rw [vmmSetUser_halfDone ⟨hpd, hu, hmapped⟩]
  exact ⟨hr, rfl, hu, setUserPde_user _ _⟩

/-- `vmm_init`, `vmm_unmap(0x1000)`, and `vmm_set_user(0x1000)` returns -1 with the user bit
set in the directory entry of the first 4 MiB. -/
theorem failed_setUser_leaves_trace :
    ∃ s R, s = (vmmUnmap (vmmInit sampleVmm).2 0x1000#32).2 ∧ UserRun LowFrame s R
      ∧ (vmmSetUser s 0x1000#32).1 = -1
      ∧ hasFlag (s.pageDirectory (pdIndex 0x1000#32)) PTE_USER = false
      ∧ hasFlag ((vmmSetUser s 0x1000#32).2.pageDirectory (pdIndex 0x1000#32)) PTE_USER
          = true := by
  have hi : pdIndex 0x1000#32 = 0 := by decide
  have hu : hasFlag ((vmmInit sampleVmm).2.pageDirectory (pdIndex 0x1000#32)) PTE_USER
      = false := by
    rw [hi, sampleVmm_directory]
    decide
  obtain ⟨-, htrace⟩ := vmmUnmap_setUser (sampleVmm_mapped hi) hu
  exact ⟨_, _, rfl, sampleVmm_run.unmap 0x1000#32, htrace⟩

/-! ## Counting -/

/-- The pages of the address space. -/
def VIRTUAL_PAGES : Nat := 2 ^ 20

def pageMapped (s : Vmm) (p : Nat) : Bool := vmmIsMapped s (BitVec.ofNat 32 (p * PAGE_SIZE))

/-- The number of pages for which `vmm_is_mapped` is true. -/
def mappedCount (s : Vmm) : Nat := (List.range VIRTUAL_PAGES).countP (pageMapped s)

def tablePresent (s : Vmm) (i : Nat) : Bool := hasFlag (s.pageDirectory i) PTE_PRESENT

/-- The number of present directory entries. -/
def tableCount (s : Vmm) : Nat := (List.range TABLES_PER_DIR).countP (tablePresent s)

/-- The number of pages for which `vmm_is_mapped` is true, with paging on. -/
def Mmu.mappedCount (s : Vmm) : Nat :=
  (List.range VIRTUAL_PAGES).countP fun p =>
    Mmu.vmmIsMapped s (BitVec.ofNat 32 (p * PAGE_SIZE)) == some true

/-- There is a table for `va`, or a frame for a new one: `vmm_map` will succeed. -/
def Vmm.CanMap (s : Vmm) (va : BitVec 32) : Prop :=
  hasFlag (s.pageDirectory (pdIndex va)) PTE_PRESENT = true ∨ (pmmAllocFrame s.pmm).1 ≠ 0

/-- A mapping that adds a page: of an unmapped page, with `PTE_PRESENT`. -/
def VmmCall.Counts (s : Vmm) : VmmCall → Prop
  | .map va _ flags =>
      s.CanMap va → Mmu.vmmIsMapped s va = some false ∧ hasFlag flags PTE_PRESENT = true
  | _ => True

/-! ### Page tables -/

section Tables

variable {s : Vmm}

theorem tableCount_le (s : Vmm) : tableCount s ≤ 1024 := by
  have hle := List.countP_le_length (p := tablePresent s) (l := List.range TABLES_PER_DIR)
  rwa [List.length_range] at hle

/-- A table in a free directory entry is counted by both. -/
theorem installTable_exact (h : s.pageTables = tableCount s) {i : Nat} (hi : i < TABLES_PER_DIR)
    (habsent : tablePresent s i = false) (fill : Mem → Nat → Mem) :
    (installTable s i fill).pageTables = tableCount (installTable s i fill) := by
  have hpresent : tablePresent (installTable s i fill)
      = Function.update (tablePresent s) i true := by
    funext k
    by_cases hk : k = i
    · subst hk
      rw [tablePresent, installTable_self, present_tablePde, Function.update_self]
    · rw [tablePresent, installTable_other hk, Function.update_of_ne hk, tablePresent]
  have hcount := Bitmap.countP_range_update (tablePresent s) hi true
  rw [← hpresent, habsent, Bool.toNat_false, Bool.toNat_true, Nat.add_zero] at hcount
  have hle := tableCount_le s
  have hsum : (installTable s i fill).pageTables = u32 (s.pageTables + 1) := rfl
  rw [hsum, h, u32_of_lt (by omega), tableCount, tableCount, hcount]

theorem initTables_exact :
    ∀ {n i : Nat} {s : Vmm}, s.pageTables = tableCount s → i + n ≤ TABLES_PER_DIR →
      (∀ k, i ≤ k → tablePresent s k = false) → (initTables n i s).1 = true →
      (initTables n i s).2.pageTables = tableCount (initTables n i s).2
  | 0, _, _, h, _, _, _ => h
  | n + 1, i, s, h, hle, habsent, hok => by
      rw [initTables] at hok ⊢
      split at hok
      · cases hok
      · rename_i hne
        rw [if_neg hne]
        have hnext := installTable_exact h (i := i) (by omega) (habsent i (Nat.le_refl i))
          fun m pt => fillIdentity m pt i PAGES_PER_TABLE
        refine initTables_exact hnext (by omega) (fun k hk => ?_) hok
        rw [tablePresent, initTable, installTable_other (by omega : k ≠ i)]
        exact habsent k (by omega)

/-- What leaves the counter and the presence of all entries alone. -/
theorem exact_of_same {s' : Vmm} (h : s.pageTables = tableCount s)
    (hn : s'.pageTables = s.pageTables) (hp : ∀ k, tablePresent s' k = tablePresent s k) :
    s'.pageTables = tableCount s' := by
  rw [hn, h, tableCount, tableCount, funext hp]

theorem setStats_exact (h : s.pageTables = tableCount s) (a b : Nat) :
    (setStats s a b).pageTables = tableCount (setStats s a b) :=
  exact_of_same h rfl fun _ => rfl

theorem vmmInit_pageTables (hok : (vmmInit s).1 = 0) :
    (vmmInit s).2.pageTables = tableCount (vmmInit s).2 := by
  obtain ⟨htables, hs⟩ := vmmInit_success hok
  have habsent : ∀ k, tablePresent (clearVmm s) k = false := fun k =>
    (clearVmm_spec s).above k k.zero_le
  have hnone : tableCount (clearVmm s) = 0 :=
    List.countP_eq_zero.mpr fun k _ => by rw [habsent k]; exact Bool.false_ne_true
  have hle : initCount s ≤ 1023 := (numPde_bounds _).2
  have hexact := initTables_exact hnone.symm (by unfold TABLES_PER_DIR; omega)
    (fun k _ => habsent k) htables
  rw [hs]
  exact setStats_exact hexact _ _

theorem pageOf_lt (va : BitVec 32) : pageOf va < VIRTUAL_PAGES := by
  have := va.isLt
  unfold pageOf PAGE_SIZE VIRTUAL_PAGES
  omega

theorem pdIndex_lt (va : BitVec 32) : pdIndex va < TABLES_PER_DIR := by
  have := pageOf_lt va
  rw [pdIndex_eq]
  unfold VIRTUAL_PAGES at this
  unfold TABLES_PER_DIR
  omega

theorem ensureTable_exact (h : s.pageTables = tableCount s) {i : Nat} (hi : i < TABLES_PER_DIR) :
    (ensureTable s i).2.pageTables = tableCount (ensureTable s i).2 := by
  unfold ensureTable
  split_ifs with hpd hframe
  · exact h
  · exact exact_of_same h rfl fun _ => rfl
  · exact installTable_exact h hi (Bool.not_eq_true _ ▸ hpd) _

theorem propagateUser_exact (h : s.pageTables = tableCount s) (i : Nat) (flags : BitVec 32) :
    (propagateUser s i flags).pageTables = tableCount (propagateUser s i flags) := by
  unfold propagateUser
  split
  · exact exact_of_same h rfl (setUserPde_present s i)
  · exact h

theorem vmmMap_pageTables (h : s.pageTables = tableCount s) (va pa flags : BitVec 32) :
    (vmmMap s va pa flags).2.pageTables = tableCount (vmmMap s va pa flags).2 := by
  have hens := ensureTable_exact h (pdIndex_lt va)
  unfold vmmMap
  match ensureTable s (pdIndex va), hens with
  | (false, s₁), hens => exact hens
  | (true, s₁), hens =>
      exact exact_of_same (propagateUser_exact hens (pdIndex va) flags) rfl fun _ => rfl

/-- Every call keeps `page_tables` right. -/
theorem call_pageTables (h : s.pageTables = tableCount s) (c : VmmCall) :
    (c.run s).2.pageTables = tableCount (c.run s).2 := by
  cases c with
  | map va pa flags => exact vmmMap_pageTables h va pa flags
  | unmap va =>
      simp only [VmmCall.run, vmmUnmap]
      split_ifs
      · exact h
      · exact h
      · unfold decMapped
        split
        · exact exact_of_same h rfl fun _ => rfl
        · exact exact_of_same h rfl fun _ => rfl
  | setUser va =>
      have hset : (setUserPde s (pdIndex va)).pageTables
          = tableCount (setUserPde s (pdIndex va)) :=
        exact_of_same h rfl (setUserPde_present s (pdIndex va))
      simp only [VmmCall.run, vmmSetUser]
      split_ifs
      · exact h
      · exact hset
      · exact exact_of_same hset rfl fun _ => rfl

theorem userRun_pageTables {Ok : Nat → Prop} {R : Requests} (h : UserRun Ok s R) :
    s.pageTables = tableCount s := by
  induction h with
  | init hp hg hr =>
      have hexact := vmmInit_pageTables (by rw [hr])
      rwa [hr] at hexact
  | call h c hg hr ih =>
      have hexact := call_pageTables ih c
      rwa [hr] at hexact

end Tables

/-! ### Mapped pages -/

section Mapped

variable {s s' : Vmm}

theorem pageOf_pageStart {p : Nat} (hp : p < VIRTUAL_PAGES) :
    pageOf (BitVec.ofNat 32 (p * PAGE_SIZE)) = p := by
  unfold VIRTUAL_PAGES at hp
  unfold pageOf PAGE_SIZE
  rw [BitVec.toNat_ofNat]
  omega

theorem pageMapped_eq (s : Vmm) (p : Nat) :
    pageMapped s p = (s.entryAt (BitVec.ofNat 32 (p * PAGE_SIZE))).isSome :=
  vmmIsMapped_eq _

/-- `vmm_is_mapped` depends on the page of the address only. -/
theorem pageMapped_pageOf (s : Vmm) (va : BitVec 32) :
    pageMapped s (pageOf va) = vmmIsMapped s va := by
  have hpage := (index_eq_iff _ va).mpr (pageOf_pageStart (pageOf_lt va))
  rw [pageMapped, vmmIsMapped_eq, vmmIsMapped_eq, hpage.1, hpage.2]

theorem mappedCount_le (s : Vmm) : mappedCount s ≤ 2 ^ 20 := by
  have hle := List.countP_le_length (p := pageMapped s) (l := List.range VIRTUAL_PAGES)
  rwa [List.length_range] at hle

theorem mappedCount_same (h : ∀ va, s'.entryAt va = s.entryAt va) :
    mappedCount s' = mappedCount s := by
  rw [mappedCount, mappedCount]
  congr 1
  funext p
  rw [pageMapped_eq, pageMapped_eq, h]

/-- One page changed. -/
theorem mappedCount_put {v : Option (BitVec 32)} {va : BitVec 32}
    (h : ∀ vb, s'.entryAt vb = if pageOf vb = pageOf va then v else s.entryAt vb) :
    mappedCount s' + (vmmIsMapped s va).toNat = mappedCount s + v.isSome.toNat := by
  have hupdate : mappedCount s'
      = (List.range VIRTUAL_PAGES).countP
          (Function.update (pageMapped s) (pageOf va) v.isSome) := by
    refine List.countP_congr fun p hp => ?_
    rw [pageMapped_eq, h, pageOf_pageStart (List.mem_range.mp hp), Function.update_apply]
    split
    · rfl
    · rw [pageMapped_eq]
  have hcount := Bitmap.countP_range_update (pageMapped s) (pageOf_lt va) v.isSome
  rw [pageMapped_pageOf] at hcount
  rw [hupdate, mappedCount, hcount]

/-- The identity tables map their pages and no others. -/
theorem mappedCount_identity {n : Nat} (h : IdentityTables s n) (hn : n ≤ 1024) :
    mappedCount s = n * 1024 := by
  have hle : n * 1024 ≤ VIRTUAL_PAGES := by
    unfold VIRTUAL_PAGES
    omega
  rw [mappedCount, ← Bitmap.countP_range_lt hle]
  refine List.countP_congr fun p hp => ?_
  have hpd := pdIndex_eq (BitVec.ofNat 32 (p * PAGE_SIZE))
  rw [pageOf_pageStart (List.mem_range.mp hp)] at hpd
  rw [pageMapped_eq, Vmm.entryAt, decide_eq_true_eq]
  by_cases hlt : p / 1024 < n
  · rw [h.below _ _ (hpd ▸ hlt) (ptIndex_lt _)]
    exact ⟨fun _ => by omega, fun _ => rfl⟩
  · rw [entry_eq_none (h.above _ (by omega))]
    exact ⟨fun hsome => absurd hsome Bool.false_ne_true, fun hp => by omega⟩

theorem vmmInit_mappedPages (hg : InitGrants FreshFrame (initCount s) 0 (clearVmm s))
    (hok : (vmmInit s).1 = 0) : (vmmInit s).2.mappedPages = mappedCount (vmmInit s).2 := by
  have hle : initCount s ≤ 1023 := (numPde_bounds _).2
  have hset : ∀ (t : Vmm) (a b : Nat), (setStats t a b).mappedPages = a := fun _ _ _ => rfl
  rw [mappedCount_identity (vmmInit_spec hg hok).1 (by omega), (vmmInit_success hok).2, hset,
    PAGES_PER_TABLE, u32_of_lt (by omega)]

theorem vmmMap_mappedPages {va pa flags : BitVec 32} (hr : (vmmMap s va pa flags).1 = 0) :
    (vmmMap s va pa flags).2.mappedPages = u32 (s.mappedPages + 1) := by
  have hens : (ensureTable s (pdIndex va)).2.mappedPages = s.mappedPages := by
    unfold ensureTable
    split_ifs
    · rfl
    · rfl
    · rfl
  have hprop : ∀ t : Vmm, (propagateUser t (pdIndex va) flags).mappedPages = t.mappedPages := by
    intro t
    unfold propagateUser
    split
    · rfl
    · rfl
  unfold vmmMap at hr ⊢
  match ensureTable s (pdIndex va), hens, hr with
  | (true, s₁), hens, _ => exact congrArg (fun n => u32 (n + 1)) ((hprop s₁).trans hens)

theorem decMapped_mappedPages (s : Vmm) : (decMapped s).mappedPages = s.mappedPages - 1 := by
  unfold decMapped
  split
  case isTrue => rfl
  case isFalse hz => omega

theorem vmmUnmap_mappedPages {va : BitVec 32} (hr : (vmmUnmap s va).1 = 0) :
    (vmmUnmap s va).2.mappedPages = s.mappedPages - 1 ∧ vmmIsMapped s va = true := by
  unfold vmmUnmap at hr ⊢
  split_ifs at hr ⊢ with hpd hpt
  · cases hr
  · cases hr
  · refine ⟨decMapped_mappedPages _, ?_⟩
    rw [vmmIsMapped, if_neg hpd]
    simpa using hpt

theorem vmmSetUser_mappedPages (s : Vmm) (va : BitVec 32) :
    (vmmSetUser s va).2.mappedPages = s.mappedPages := by
  simp only [vmmSetUser]
  split_ifs
  · rfl
  · rfl
  · rfl

/-- A call that fails leaves `mapped_pages` alone, also the half-done one. -/
theorem failed_mappedPages {c : VmmCall} (hr : (c.run s).1 = -1) :
    (c.run s).2.mappedPages = s.mappedPages := by
  cases c with
  | map va pa flags => exact (vmmMap_failed hr).mappedPages
  | unmap va => exact (vmmUnmap_failed hr).mappedPages
  | setUser va => exact vmmSetUser_mappedPages s va

theorem mapSlot_isSome (pa flags : BitVec 32) :
    (mapSlot pa flags).isSome = hasFlag flags PTE_PRESENT := by
  unfold mapSlot
  split
  case isTrue h => exact h.symm
  case isFalse h => exact (Bool.not_eq_true _ ▸ h).symm

/-- `vmm_map` adds one to the counter. It adds one to the pages if the page was unmapped and
the entry is present, and otherwise none or takes one away. -/
theorem vmmMap_counts {va pa flags : BitVec 32} (h : s.mappedPages = mappedCount s)
    (hr : (vmmMap s va pa flags).1 = 0)
    (hcount : mappedCount (vmmMap s va pa flags).2 + (vmmIsMapped s va).toNat
      = mappedCount s + (mapSlot pa flags).isSome.toNat) :
    (vmmMap s va pa flags).2.mappedPages = mappedCount (vmmMap s va pa flags).2
      ↔ vmmIsMapped s va = false ∧ hasFlag flags PTE_PRESENT = true := by
  have hle := mappedCount_le s
  rw [vmmMap_mappedPages hr, h, u32_of_lt (by omega)]
  rw [mapSlot_isSome] at hcount
  cases hold : vmmIsMapped s va with
  | false =>
      cases hnew : hasFlag flags PTE_PRESENT with
      | false =>
          rw [hold, hnew, Bool.toNat_false] at hcount
          exact ⟨fun heq => by omega, nofun⟩
      | true =>
          rw [hold, hnew, Bool.toNat_false, Bool.toNat_true, Nat.add_zero] at hcount
          exact ⟨fun _ => ⟨rfl, rfl⟩, fun _ => hcount.symm⟩
  | true =>
      refine ⟨fun heq => ?_, nofun⟩
      have hbit := Bool.toNat_le (hasFlag flags PTE_PRESENT)
      rw [hold, Bool.toNat_true] at hcount
      omega

theorem vmmMap_canMap (s : Vmm) (va pa flags : BitVec 32) :
    s.CanMap va ↔ (vmmMap s va pa flags).1 = 0 := by
  unfold Vmm.CanMap vmmMap ensureTable
  split_ifs with hpd hz
  · exact iff_of_true (Or.inl hpd) rfl
  · refine iff_of_false ?_ (show ¬(-1 : Int) = 0 by decide)
    rintro (hp | hne)
    · exact hpd hp
    · exact hne hz
  · exact iff_of_true (Or.inr hz) rfl

theorem Mmu.mappedCount_eq (hm : TablesMapped s) :
    Mmu.mappedCount s = Matryoshka.mappedCount s := by
  unfold Mmu.mappedCount Matryoshka.mappedCount
  congr 1
  funext p
  rw [Mmu.vmmIsMapped_eq hm, pageMapped]
  cases Matryoshka.vmmIsMapped s (BitVec.ofNat 32 (p * PAGE_SIZE)) with
  | false => rfl
  | true => rfl

/-- After a call the counter is right exactly if the call adds a page when it maps one. -/
theorem call_counts_iff (hinv : VmmInv s) (hm : TablesMapped s)
    (h : s.mappedPages = mappedCount s) (c : VmmCall) (hg : c.Grants FreshFrame s) :
    (c.run s).2.mappedPages = mappedCount (c.run s).2 ↔ c.Counts s := by
  obtain ⟨-, ⟨hr, hsame⟩ | ⟨hr, v, hput, hv⟩⟩ := call_spec hinv c hg
  · rw [failed_mappedPages hr, mappedCount_same hsame]
    refine ⟨fun _ => ?_, fun _ => h⟩
    cases c with
    | map va pa flags =>
        intro hcan
        exact absurd (hr.symm.trans ((vmmMap_canMap s va pa flags).mp hcan)) (by decide)
    | unmap va => trivial
    | setUser va => trivial
  · have hcount := mappedCount_put hput
    cases c with
    | map va pa flags =>
        subst hv
        have hcan := (vmmMap_canMap s va pa flags).mpr hr
        rw [VmmCall.Counts, imp_iff_right hcan, Mmu.vmmIsMapped_eq hm, Option.some_inj]
        exact vmmMap_counts h hr hcount
    | unmap va =>
        subst hv
        obtain ⟨hpages, hmapped⟩ := vmmUnmap_mappedPages hr
        rw [VmmCall.addr, hmapped, Option.isSome_none, Bool.toNat_true, Bool.toNat_false] at hcount
        refine ⟨fun _ => trivial, fun _ => ?_⟩
        rw [VmmCall.run, hpages, h]
        rw [VmmCall.run] at hcount
        omega
    | setUser va =>
        obtain ⟨e, he, rfl⟩ := hv
        have hmapped : vmmIsMapped s va = true := by
          rw [vmmIsMapped_eq, ← Vmm.entryAt, he]
          rfl
        rw [VmmCall.addr, hmapped, Option.isSome_some, Nat.add_right_cancel_iff] at hcount
        refine ⟨fun _ => trivial, fun _ => ?_⟩
        rw [hcount, ← h]
        exact vmmSetUser_mappedPages s va

end Mapped

/-! ### Runs -/

/-- Runs with paging on, tables in RAM below 4 GiB, in which every mapping adds a page. -/
inductive CountRun (kernelEnd : KernelEnd) (mmap : List MmapEntry) : Vmm → Prop
  | init {held : List Alloc} {s s' : Vmm} (hp : PmmReach kernelEnd (some mmap) ⟨s.pmm, held⟩)
      (hfit : kernelEnd.addr + bitmapSize s.pmm.totalFrames ≤ initCount s * 0x400000)
      (hg : InitGrants (fun _ a => RamFrame mmap a ∧ a < initCount s * 0x400000) (initCount s) 0
        (clearVmm s))
      (hr : vmmInit s = (0, s')) : CountRun kernelEnd mmap s'
  | call {s s' : Vmm} {result : Int} (h : CountRun kernelEnd mmap s) (c : VmmCall)
      (hg : c.Grants (fun _ => RamFrame mmap) s) (hc : c.Apart kernelEnd s) (hn : c.Counts s)
      (hr : c.mmuRun s = some (result, s')) : CountRun kernelEnd mmap s'

section Runs

variable {kernelEnd : KernelEnd} {mmap : List MmapEntry} {s : Vmm}

theorem CountRun.mmuRun (h : CountRun kernelEnd mmap s) :
    ∃ R, MmuRun kernelEnd mmap (RamFrame mmap) s R := by
  induction h with
  | init hp hfit hg hr => exact ⟨_, .init hp hfit hg hr⟩
  | call h c hg hc hn hr ih =>
      obtain ⟨R, hrun⟩ := ih
      exact ⟨_, hrun.call c hg hc hr⟩

/-- What is known of a state of such a run, tables and all. -/
theorem CountRun.sim (h : CountRun kernelEnd mmap s) :
    VmmInv s ∧ TablesUsed s ∧ TablesMapped s ∧ s.pageTables = tableCount s := by
  obtain ⟨R, hrun⟩ := h.mmuRun
  obtain ⟨hurun, hm⟩ := mmuRun_sim hrun
  have hsim := userRun_sim hurun
  exact ⟨hsim.inv, hsim.used, hm, userRun_pageTables hurun⟩

theorem countRun_mappedPages (h : CountRun kernelEnd mmap s) : s.mappedPages = mappedCount s := by
  induction h with
  | init hp hfit hg hr =>
      obtain ⟨T, hinv⟩ := pmmReach_inv hp
      have hlow := hg.mono fun _ _ ha => RamFrame.low ha.1
      have hexact := vmmInit_mappedPages (hlow.fresh (clearVmm_used (hinv.total ▸ hinv.bound)))
        (by rw [hr])
      rwa [hr] at hexact
  | call h c hg hc hn hr ih =>
      obtain ⟨hinv, hused, hm, -⟩ := h.sim
      have hfresh := (hg.mono fun _ _ ha => RamFrame.low ha).fresh hused
      have hres := Option.some.inj (hr.symm.trans (hc.mapped hinv hm hfresh).1)
      have hexact := (call_counts_iff hinv hm ih c hfresh).mpr hn
      rwa [← hres] at hexact

/-- The statistics count the mapped pages and the page tables as long as every successful
`vmm_map` adds a page, and the first one that does not makes them wrong. -/
theorem vmm_stats_exact (h : CountRun kernelEnd mmap s) :
    s.mappedPages = Mmu.mappedCount s ∧ s.pageTables = tableCount s
      ∧ ∀ c : VmmCall, c.Grants (fun _ => RamFrame mmap) s → c.Apart kernelEnd s →
          ∃ result s', c.mmuRun s = some (result, s')
            ∧ (s'.mappedPages = Mmu.mappedCount s' ∧ s'.pageTables = tableCount s'
              ↔ c.Counts s) := by
  obtain ⟨hinv, hused, hm, htables⟩ := h.sim
  have hpages := countRun_mappedPages h
  refine ⟨hpages.trans (Mmu.mappedCount_eq hm).symm, htables, fun c hg hc => ?_⟩
  have hfresh := (hg.mono fun _ _ ha => RamFrame.low ha).fresh hused
  obtain ⟨heq, hm'⟩ := hc.mapped hinv hm hfresh
  refine ⟨(c.run s).1, (c.run s).2, heq, ?_⟩
  rw [and_iff_left (call_pageTables htables c), Mmu.mappedCount_eq hm']
  exact call_counts_iff hinv hm hpages c hfresh

end Runs

theorem sampleVmm_countRun : CountRun sampleKernelEnd highMmap (vmmInit sampleVmm).2 := by
  obtain ⟨hfit, hg⟩ := sampleVmm_fits
  exact .init highPmm_reach hfit hg (pair_eq sampleVmm_init)

/-- The statistics after a mapping that needed a table and an unmapping. -/
theorem vmm_stats_exact_calls :
    ∃ s₁ s₂,
      (VmmCall.map 0x400000#32 0x400000#32 7#32).mmuRun (vmmInit sampleVmm).2 = some (0, s₁)
      ∧ (VmmCall.unmap 0x1000#32).mmuRun s₁ = some (0, s₂)
      ∧ s₂.mappedPages = Mmu.mappedCount s₂ ∧ s₂.pageTables = tableCount s₂
      ∧ ∀ c : VmmCall, c.Grants (fun _ => RamFrame highMmap) s₂ → c.Apart sampleKernelEnd s₂ →
          ∃ result s', c.mmuRun s₂ = some (result, s')
            ∧ (s'.mappedPages = Mmu.mappedCount s' ∧ s'.pageTables = tableCount s'
              ↔ c.Counts s₂) := by
  obtain ⟨s₁, hres₁, hrun, hpmm, hpd, hentry⟩ := sampleRun₁
  have hc := sampleUnmap_ok hpmm hpd
  obtain ⟨s₂, hres₂⟩ := sampleRun_unmap hrun hc hentry
  have hcounts : (VmmCall.map 0x400000#32 0x400000#32 7#32).Counts (vmmInit sampleVmm).2 := by
    exact fun _ => ⟨Mmu.vmmIsMapped_absent (sampleVmm_absent (by decide)), by decide⟩
  have hrun₁ := sampleVmm_countRun.call _ sampleMap_ok.1 sampleMap_ok.2 hcounts hres₁
  have hrun₂ := hrun₁.call (.unmap 0x1000#32) (by trivial) hc (by trivial) hres₂
  exact ⟨s₁, s₂, hres₁, hres₂, vmm_stats_exact hrun₂⟩

/-- Mapping a mapped page again raises the counter alone. -/
theorem CountRun.remap {kernelEnd : KernelEnd} {mmap : List MmapEntry} {s : Vmm}
    (h : CountRun kernelEnd mmap s) (va pa flags : BitVec 32)
    (hc : (VmmCall.map va pa flags).Apart kernelEnd s) (hmapped : vmmIsMapped s va = true)
    (hflag : hasFlag flags PTE_PRESENT = true) :
    ∃ s', (VmmCall.map va pa flags).mmuRun s = some (0, s')
      ∧ s'.mappedPages = Mmu.mappedCount s' + 1 := by
  obtain ⟨hinv, -, hm, -⟩ := h.sim
  have hpd : hasFlag (s.pageDirectory (pdIndex va)) PTE_PRESENT = true :=
    (vmmUnmap_mapped hmapped).2.2.1
  have hno : (VmmCall.map va pa flags).Grants FreshFrame s :=
    fun hfalse => absurd (hpd.symm.trans hfalse) (by decide)
  have hr : (vmmMap s va pa flags).1 = 0 := (vmmMap_canMap s va pa flags).mp (Or.inl hpd)
  obtain ⟨heq, hm'⟩ := hc.mapped hinv hm hno
  refine ⟨(vmmMap s va pa flags).2, heq.trans (congrArg some (pair_eq hr)), ?_⟩
  rw [VmmCall.run] at hm'
  rw [Mmu.mappedCount_eq hm']
  obtain ⟨-, ⟨hr', -⟩ | ⟨-, hput⟩⟩ := vmmMap_spec hinv va pa flags hno
  · exact absurd (hr.symm.trans hr') (by decide)
  · have hcount := mappedCount_put hput.entryAt
    have hle := mappedCount_le s
    rw [hmapped, mapSlot_isSome, hflag, Nat.add_right_cancel_iff] at hcount
    rw [vmmMap_mappedPages hr, countRun_mappedPages h, u32_of_lt (by omega), hcount]

/-- `vmm_map(0x1000, 0x1000, 3)` after `vmm_init` maps a page that is mapped: the counter
says one more than there are. -/
theorem remap_miscounts :
    CountRun sampleKernelEnd highMmap (vmmInit sampleVmm).2
      ∧ ∃ s', (VmmCall.map 0x1000#32 0x1000#32 3#32).mmuRun (vmmInit sampleVmm).2 = some (0, s')
        ∧ s'.mappedPages = Mmu.mappedCount s' + 1 := by
  have hmapped : vmmIsMapped (vmmInit sampleVmm).2 0x1000#32 = true := sampleVmm_mapped (by decide)
  refine ⟨sampleVmm_countRun, sampleVmm_countRun.remap 0x1000#32 0x1000#32 3#32
    ⟨fun _ => not_reserved ?_ (fun k hk => ?_) (by decide), fun habsent => ?_⟩ hmapped (by decide)⟩
  · rw [sampleVmm_pmm, markUsed_totalFrames, highPmm_totalFrames]
  · rw [sampleVmm_tableAddr hk]
    decide
  · exact absurd ((vmmUnmap_mapped hmapped).2.2.1.symm.trans habsent) (by decide)

end Matryoshka
