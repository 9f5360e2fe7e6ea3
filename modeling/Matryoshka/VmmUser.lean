import Matryoshka.VmmRun

/-!
# Ring-3 access to pages

A page is reachable from ring 3 when its directory entry and its table
entry are both present and both carry the user bit. The user bit of a
directory entry is shared by 1024 pages and never cleared; access stays
with the pages it was asked for because of the table entries. That needs
the tables to be apart, and the PMM keeps them apart as long as the frames
it hands to the VMM are below 4 GiB: `vmm_map` truncates a frame address
to 32 bits, so two frames 4 GiB apart become the same table.
-/

namespace Matryoshka

open ByteMem

/-! ## Access and requests -/

def accessible (s : Vmm) (va : BitVec 32) : Bool :=
  let pde := s.pageDirectory (pdIndex va)
  let pte := readPte s (pdIndex va) (ptIndex va)
  hasFlag pde PTE_PRESENT && hasFlag pde PTE_USER && hasFlag pte PTE_PRESENT && hasFlag pte PTE_USER

/-- The pages for which ring-3 access was asked since they were last mapped or unmapped. -/
abbrev Requests := Nat → Bool

def Requests.after (R : Requests) (c : VmmCall) (result : Int) : Requests :=
  if result = 0 then
    match c with
    | .map va _ flags => Function.update R (pageOf va) (hasFlag flags PTE_USER)
    | .unmap va => Function.update R (pageOf va) false
    | .setUser va => Function.update R (pageOf va) true
  else R

/-- Runs over the real PMM. Every frame a new table is put in satisfies `Ok`. -/
inductive UserRun (Ok : Nat → Prop) : Vmm → Requests → Prop
  | init {kernelEnd : KernelEnd} {mmap : Option (List MmapEntry)} {held : List Alloc}
      {s s' : Vmm} (hp : PmmReach kernelEnd mmap ⟨s.pmm, held⟩)
      (hg : InitGrants (fun _ => Ok) (initCount s) 0 (clearVmm s))
      (hr : vmmInit s = (0, s')) : UserRun Ok s' fun _ => false
  | call {s s' : Vmm} {R : Requests} {result : Int} (h : UserRun Ok s R) (c : VmmCall)
      (hg : c.Grants (fun _ => Ok) s) (hr : c.run s = (result, s')) :
      UserRun Ok s' (R.after c result)

/-- A frame whose address survives the truncation to a pointer. -/
def LowFrame (a : Nat) : Prop := a < 2 ^ 32

/-! ## The tables are frames in use -/

/-- Every table is a frame the PMM has marked used. -/
structure TablesUsed (s : Vmm) : Prop where
  bound : s.pmm.totalFrames ≤ 2 ^ 52
  used : ∀ k, hasFlag (s.pageDirectory k) PTE_PRESENT = true →
    s.pmm.isUsed (addrToFrame (tableAddr (s.pageDirectory k))) = true

section Used

variable {s : Vmm} {i : Nat}

theorem pmmAllocFrame_totalFrames (p : Pmm) :
    (pmmAllocFrame p).2.totalFrames = p.totalFrames := by
  rcases pmmAllocFrame_cases p with h | ⟨f, -, -, h⟩
  · rw [h]
  · rw [h]
    rfl

theorem pmmAllocFrame_mono (p : Pmm) {g : Nat} (hg : p.isUsed g = true) :
    (pmmAllocFrame p).2.isUsed g = true := by
  rcases pmmAllocFrame_cases p with h | ⟨f, -, -, h⟩
  · rw [h]
    exact hg
  · rw [h]
    simp only [markUsed_isUsed, hg, Bool.or_true]

/-- A frame handed out was free and is used from then on. -/
theorem pmmAllocFrame_frame {p : Pmm} (hb : p.totalFrames ≤ 2 ^ 52)
    (hne : (pmmAllocFrame p).1 ≠ 0) :
    p.isUsed (addrToFrame (pmmAllocFrame p).1) = false
      ∧ (pmmAllocFrame p).2.isUsed (addrToFrame (pmmAllocFrame p).1) = true := by
  rcases pmmAllocFrame_cases p with h | ⟨f, hlt, hfree, h⟩
  · rw [h] at hne
    exact absurd rfl hne
  · rw [h]
    simp only [addrToFrame_frameToAddr (show f < 2 ^ 52 by omega)]
    exact ⟨hfree, by simp [markUsed_isUsed]⟩

theorem TablesUsed.fresh (h : TablesUsed s) (hg : Granted (fun _ => LowFrame) s) :
    Granted FreshFrame s := by
  intro hne
  refine ⟨hg hne, fun k hk heq => ?_⟩
  have hused := h.used k hk
  rw [heq, (pmmAllocFrame_frame h.bound hne).1] at hused
  cases hused

theorem TablesUsed.alloc (h : TablesUsed s) :
    TablesUsed { s with pmm := (pmmAllocFrame s.pmm).2 } :=
  ⟨(pmmAllocFrame_totalFrames s.pmm).symm ▸ h.bound,
    fun k hk => pmmAllocFrame_mono s.pmm (h.used k hk)⟩

theorem TablesUsed.install (h : TablesUsed s) (hg : Granted (fun _ => LowFrame) s)
    (hne : (pmmAllocFrame s.pmm).1 ≠ 0) (fill : Mem → Nat → Mem) :
    TablesUsed (installTable s i fill) := by
  refine ⟨(pmmAllocFrame_totalFrames s.pmm).symm ▸ h.bound, fun k hk => ?_⟩
  by_cases hki : k = i
  · subst hki
    rw [installTable_tableAddr (hg hne)]
    exact (pmmAllocFrame_frame h.bound hne).2
  · rw [installTable_other hki] at hk ⊢
    exact pmmAllocFrame_mono s.pmm (h.used k hk)

/-- Stores into tables and user bits keep the tables where they are. -/
theorem TablesUsed.of_same {s' : Vmm} (h : TablesUsed s) (hpmm : s'.pmm = s.pmm)
    (hp : ∀ k, hasFlag (s'.pageDirectory k) PTE_PRESENT = hasFlag (s.pageDirectory k) PTE_PRESENT)
    (ha : ∀ k, tableAddr (s'.pageDirectory k) = tableAddr (s.pageDirectory k)) :
    TablesUsed s' := by
  refine ⟨hpmm ▸ h.bound, fun k hk => ?_⟩
  rw [hp] at hk
  rw [ha, hpmm]
  exact h.used k hk

theorem TablesUsed.setUserPde (h : TablesUsed s) (i : Nat) : TablesUsed (setUserPde s i) :=
  h.of_same rfl (setUserPde_present s i) (setUserPde_tableAddr s i)

theorem TablesUsed.setStats (h : TablesUsed s) (a b : Nat) : TablesUsed (setStats s a b) :=
  h.of_same rfl (fun _ => rfl) (fun _ => rfl)

theorem TablesUsed.ensureTable (h : TablesUsed s)
    (hg : hasFlag (s.pageDirectory i) PTE_PRESENT = false → Granted (fun _ => LowFrame) s) :
    TablesUsed (ensureTable s i).2 := by
  unfold Matryoshka.ensureTable
  split
  · exact h
  · rename_i hi
    split
    · exact h.alloc
    · rename_i hne
      have hzero : TablesUsed (zeroTable s i) := h.install (hg (by simpa using hi)) hne _
      exact hzero

theorem call_tablesUsed (h : TablesUsed s) (c : VmmCall)
    (hg : c.Grants (fun _ => LowFrame) s) : TablesUsed (c.run s).2 := by
  cases c with
  | map va pa flags =>
      have hens := h.ensureTable hg
      simp only [VmmCall.run, vmmMap]
      generalize ensureTable s (pdIndex va) = r at hens
      obtain ⟨made, s₁⟩ := r
      cases made with
      | false => exact hens
      | true =>
          have hprop : TablesUsed (propagateUser s₁ (pdIndex va) flags) := by
            unfold propagateUser
            split
            · exact hens.setUserPde _
            · exact hens
          exact hprop.of_same rfl (fun _ => rfl) (fun _ => rfl)
  | unmap va =>
      simp only [VmmCall.run, vmmUnmap]
      split
      · exact h
      · split
        · exact h
        · unfold decMapped
          split
          · exact h.of_same rfl (fun _ => rfl) (fun _ => rfl)
          · exact h.of_same rfl (fun _ => rfl) (fun _ => rfl)
  | setUser va =>
      simp only [VmmCall.run, vmmSetUser]
      split
      · exact h
      · split
        · exact h.setUserPde _
        · exact (h.setUserPde _).of_same rfl (fun _ => rfl) (fun _ => rfl)

theorem VmmCall.Grants.fresh (h : TablesUsed s) {c : VmmCall}
    (hg : c.Grants (fun _ => LowFrame) s) : c.Grants FreshFrame s := by
  cases c with
  | map va pa flags => exact fun hi => h.fresh (hg hi)
  | unmap va => trivial
  | setUser va => trivial

theorem InitGrants.fresh {n : Nat} (hg : InitGrants (fun _ => LowFrame) n i s)
    (h : TablesUsed s) : InitGrants FreshFrame n i s := by
  induction hg with
  | done i s => exact .done i s
  | next hg hn ih => exact .next (h.fresh hg) fun hne => ih hne (h.install hg hne _)

theorem initTables_used {n : Nat} (hg : InitGrants (fun _ => LowFrame) n i s)
    (h : TablesUsed s) : TablesUsed (initTables n i s).2 := by
  induction hg with
  | done i s => exact h
  | next hg hn ih =>
      rw [initTables]
      split
      · exact h.alloc
      · rename_i hne
        exact ih hne (h.install hg hne _)

end Used

/-! ## Access follows the requests -/

structure UserSim (s : Vmm) (R : Requests) : Prop where
  inv : VmmInv s
  used : TablesUsed s
  agree : ∀ va e, s.entryAt va = some e → hasFlag e PTE_USER = R (pageOf va)

section User

variable {s s' : Vmm} {R : Requests}

/-- Under the invariant the table entry alone decides. -/
theorem accessible_eq (h : VmmInv s) (va : BitVec 32) :
    accessible s va = (s.entryAt va).any fun e => hasFlag e PTE_USER := by
  simp only [accessible, Vmm.entryAt, Vmm.entry]
  cases hp : hasFlag (s.pageDirectory (pdIndex va)) PTE_PRESENT with
  | false => simp
  | true =>
      cases hq : hasFlag (readPte s (pdIndex va) (ptIndex va)) PTE_PRESENT with
      | false => simp
      | true =>
          cases hu : hasFlag (readPte s (pdIndex va) (ptIndex va)) PTE_USER with
          | false => simp [hu]
          | true => simp [hu, h.user _ _ (ptIndex_lt va) hp hu]

theorem clearVmm_used (hb : s.pmm.totalFrames ≤ 2 ^ 52) : TablesUsed (clearVmm s) := by
  refine ⟨hb, fun k hk => ?_⟩
  rw [(clearVmm_spec s).above k (Nat.zero_le k)] at hk
  cases hk

theorem identity_user {n : Nat} (h : IdentityTables s n) {va : BitVec 32} {e : BitVec 32}
    (he : s.entryAt va = some e) : hasFlag e PTE_USER = false := by
  rw [Vmm.entryAt] at he
  rcases Nat.lt_or_ge (pdIndex va) n with hlt | hge
  · rw [h.below _ _ hlt (ptIndex_lt va)] at he
    rw [← Option.some.inj he, user_identityEntry]
  · rw [entry_eq_none (h.above _ hge)] at he
    cases he

theorem vmmInit_sim (hb : s.pmm.totalFrames ≤ 2 ^ 52)
    (hg : InitGrants (fun _ => LowFrame) (initCount s) 0 (clearVmm s))
    (hok : (vmmInit s).1 = 0) : UserSim (vmmInit s).2 fun _ => false := by
  have hclear := clearVmm_used hb
  obtain ⟨htables, -⟩ := vmmInit_spec (hg.fresh hclear) hok
  refine ⟨htables.inv, ?_, fun va e he => identity_user htables he⟩
  rw [(vmmInit_success hok).2]
  exact (initTables_used hg hclear).setStats _ _

theorem Requests.after_of_ne (R : Requests) (c : VmmCall) (result : Int) {p : Nat}
    (hp : p ≠ pageOf c.addr) : R.after c result p = R p := by
  unfold Requests.after
  split
  · cases c with
    | map va pa flags => exact Function.update_of_ne hp ..
    | unmap va => exact Function.update_of_ne hp ..
    | setUser va => exact Function.update_of_ne hp ..
  · rfl

theorem call_userSim (h : UserSim s R) (c : VmmCall) (hg : c.Grants (fun _ => LowFrame) s) :
    UserSim (c.run s).2 (R.after c (c.run s).1) := by
  obtain ⟨hinv, ⟨hr, hsame⟩ | ⟨hr, v, hput, hv⟩⟩ := call_spec h.inv c (hg.fresh h.used)
  · refine ⟨hinv, call_tablesUsed h.used c hg, fun va e he => ?_⟩
    rw [hsame] at he
    rw [hr, h.agree va e he]
    rfl
  · refine ⟨hinv, call_tablesUsed h.used c hg, fun vb e he => ?_⟩
    rw [hput] at he
    rw [hr]
    by_cases hp : pageOf vb = pageOf c.addr
    · rw [if_pos hp] at he
      rw [hp]
      cases c with
      | map va pa flags =>
          simp only [Requests.after, VmmCall.addr, if_true, Function.update_self]
          rw [hv, mapSlot] at he
          split at he
          · rw [← Option.some.inj he, user_mapEntry]
          · cases he
      | unmap va =>
          rw [hv] at he
          cases he
      | setUser va =>
          simp only [Requests.after, VmmCall.addr, if_true, Function.update_self]
          obtain ⟨e', -, rfl⟩ := hv
          rw [← Option.some.inj he, user_or_user]
    · rw [if_neg hp] at he
      rw [h.agree vb e he, R.after_of_ne c 0 hp]

theorem userRun_sim (h : UserRun LowFrame s R) : UserSim s R := by
  induction h with
  | init hp hg hr =>
      obtain ⟨T, hinv⟩ := pmmReach_inv hp
      have hsim := vmmInit_sim (hinv.total ▸ hinv.bound) hg (by rw [hr])
      rwa [hr] at hsim
  | call h c hg hr ih =>
      have hsim := call_userSim ih c hg
      rwa [hr] at hsim

/-- A call keeps the ring-3 access of every page but its own. -/
theorem call_accessible (h : UserSim s R) {c : VmmCall} (hg : c.Grants (fun _ => LowFrame) s)
    {va : BitVec 32} (hva : pageOf va ≠ pageOf c.addr) :
    accessible (c.run s).2 va = accessible s va := by
  obtain ⟨hinv, ⟨-, hsame⟩ | ⟨-, v, hput, -⟩⟩ := call_spec h.inv c (hg.fresh h.used)
  · rw [accessible_eq hinv, accessible_eq h.inv, hsame]
  · rw [accessible_eq hinv, accessible_eq h.inv, hput, if_neg hva]

/-- Ring 3 reaches the mapped pages for which access was requested. -/
theorem UserSim.accessible_iff (h : UserSim s R) (va : BitVec 32) :
    accessible s va = (vmmIsMapped s va && R (pageOf va)) := by
  rw [accessible_eq h.inv, vmmIsMapped_eq]
  have hagree := h.agree va
  rw [Vmm.entryAt] at hagree ⊢
  cases he : s.entry (pdIndex va) (ptIndex va) with
  | none => rfl
  | some e => simp [hagree e he]

end User

end Matryoshka
