import Matryoshka.Vmm
import Matryoshka.PmmSpec

/-!
# What the VMM operations do to the page tables

`entry s i j` is the translation the hardware finds in slot `j` of table
`i`, if both levels are present. Each operation is specified by the slots
it changes. The specifications need the tables of different directory
entries to be apart, and they keep it as long as every new table is a
fresh frame below 4 GiB.
-/

namespace Matryoshka

open ByteMem

/-! ## Flags and addresses of entries -/

theorem hasFlag_present (e : BitVec 32) : hasFlag e PTE_PRESENT = e.getLsbD 0 :=
  Word.and_mask_ne_zero e (by decide)

theorem hasFlag_user (e : BitVec 32) : hasFlag e PTE_USER = e.getLsbD 2 :=
  Word.and_mask_ne_zero e (by decide)

@[simp] theorem present_or_user (e : BitVec 32) :
    hasFlag (e ||| PTE_USER) PTE_PRESENT = hasFlag e PTE_PRESENT := by
  simp only [hasFlag_present, BitVec.getLsbD_or]
  simp [PTE_USER]

@[simp] theorem user_or_user (e : BitVec 32) : hasFlag (e ||| PTE_USER) PTE_USER = true := by
  simp only [hasFlag_user, BitVec.getLsbD_or]
  simp [PTE_USER]

theorem tableAddr_or_user (e : BitVec 32) : tableAddr (e ||| PTE_USER) = tableAddr e := by
  rw [tableAddr, tableAddr, PTE_ADDR_MASK, Word.page_or (by decide)]

theorem tableAddr_mod (e : BitVec 32) : tableAddr e % 4096 = 0 := by
  rw [tableAddr, PTE_ADDR_MASK, Word.toNat_page]
  omega

@[simp] theorem present_tablePde (a : Nat) : hasFlag (tablePde a) PTE_PRESENT = true := by
  simp only [hasFlag_present, tablePde, BitVec.getLsbD_or]
  simp [PTE_PRESENT]

theorem tableAddr_tablePde {a : Nat} (ha : a % 4096 = 0) : tableAddr (tablePde a) = u32 a := by
  rw [tableAddr, PTE_ADDR_MASK, tablePde, Word.page_or (by decide), Word.page_or (by decide),
    Word.toNat_page, BitVec.toNat_ofNat, u32]
  omega

/-- The entry `vmm_map` stores. -/
def mapEntry (pa flags : BitVec 32) : BitVec 32 :=
  (pa &&& PTE_ADDR_MASK) ||| (flags &&& 0xFFF#32)

theorem getLsbD_mapEntry (pa flags : BitVec 32) {i : Nat} (hi : i < 12) :
    (mapEntry pa flags).getLsbD i = flags.getLsbD i := by
  rw [mapEntry, BitVec.getLsbD_or, BitVec.getLsbD_and, BitVec.getLsbD_and, PTE_ADDR_MASK,
    Word.getLsbD_pageMask (by omega), Word.getLsbD_offsetMask (by omega)]
  simp [hi, Nat.not_le_of_lt hi]

@[simp] theorem present_mapEntry (pa flags : BitVec 32) :
    hasFlag (mapEntry pa flags) PTE_PRESENT = hasFlag flags PTE_PRESENT := by
  rw [hasFlag_present, hasFlag_present, getLsbD_mapEntry pa flags (by decide)]

@[simp] theorem user_mapEntry (pa flags : BitVec 32) :
    hasFlag (mapEntry pa flags) PTE_USER = hasFlag flags PTE_USER := by
  rw [hasFlag_user, hasFlag_user, getLsbD_mapEntry pa flags (by decide)]

theorem getLsbD_identityEntry (i j : Nat) {k : Nat} (hk : k < 12) :
    (identityEntry i j).getLsbD k = (decide (k = 0) || decide (k = 1)) := by
  rw [identityEntry, PTE_PRESENT, PTE_WRITABLE]
  simp only [BitVec.getLsbD_or, Word.getLsbD_mask (show 0 < 32 by decide) (show k < 32 by omega),
    Word.getLsbD_mask (show 1 < 32 by decide) (show k < 32 by omega), BitVec.getLsbD_shiftLeft]
  simp [show k < 22 by omega, hk]

@[simp] theorem present_identityEntry (i j : Nat) :
    hasFlag (identityEntry i j) PTE_PRESENT = true := by
  rw [hasFlag_present, getLsbD_identityEntry i j (by decide)]
  rfl

@[simp] theorem user_identityEntry (i j : Nat) :
    hasFlag (identityEntry i j) PTE_USER = false := by
  rw [hasFlag_user, getLsbD_identityEntry i j (by decide)]
  rfl

theorem ptIndex_lt (va : BitVec 32) : ptIndex va < 1024 := by
  rw [ptIndex, Word.toNat_index]
  exact Nat.mod_lt _ (by decide)

/-! ## Slots -/

/-- The translation in slot `j` of table `i`. -/
def Vmm.entry (s : Vmm) (i j : Nat) : Option (BitVec 32) :=
  if hasFlag (s.pageDirectory i) PTE_PRESENT && hasFlag (readPte s i j) PTE_PRESENT then
    some (readPte s i j)
  else none

/-- Different directory entries point to different tables, and a user entry sits only
under a user directory entry. -/
structure VmmInv (s : Vmm) : Prop where
  apart : ∀ i k, i ≠ k → hasFlag (s.pageDirectory i) PTE_PRESENT = true →
    hasFlag (s.pageDirectory k) PTE_PRESENT = true →
    tableAddr (s.pageDirectory i) ≠ tableAddr (s.pageDirectory k)
  user : ∀ i j, j < 1024 → hasFlag (s.pageDirectory i) PTE_PRESENT = true →
    hasFlag (readPte s i j) PTE_USER = true → hasFlag (s.pageDirectory i) PTE_USER = true

/-- All slots of `s'` are those of `s`. -/
def Vmm.SameEntries (s s' : Vmm) : Prop := ∀ k l, l < 1024 → s'.entry k l = s.entry k l

/-- `s'` is `s` with `v` in slot `j` of table `i`. -/
def Vmm.Puts (s s' : Vmm) (i j : Nat) (v : Option (BitVec 32)) : Prop :=
  ∀ k l, l < 1024 → s'.entry k l = if k = i ∧ l = j then v else s.entry k l

/-- Address `a` is below 4 GiB and holds no table yet. -/
def FreshFrame (s : Vmm) (a : Nat) : Prop :=
  a < 2 ^ 32 ∧ ∀ k, hasFlag (s.pageDirectory k) PTE_PRESENT = true →
    tableAddr (s.pageDirectory k) ≠ a

/-- If the PMM has a frame to hand out next, it satisfies `Ok`. -/
def Granted (Ok : Vmm → Nat → Prop) (s : Vmm) : Prop :=
  (pmmAllocFrame s.pmm).1 ≠ 0 → Ok s (pmmAllocFrame s.pmm).1

section Slots

variable {s : Vmm} {i j k l : Nat} {e : BitVec 32}

theorem entry_eq_none (h : hasFlag (s.pageDirectory i) PTE_PRESENT = false) :
    s.entry i j = none := by
  simp [Vmm.entry, h]

theorem vmmIsMapped_eq (va : BitVec 32) :
    vmmIsMapped s va = (s.entry (pdIndex va) (ptIndex va)).isSome := by
  unfold vmmIsMapped Vmm.entry
  cases hasFlag (s.pageDirectory (pdIndex va)) PTE_PRESENT with
  | false => rfl
  | true =>
      cases hasFlag (readPte s (pdIndex va) (ptIndex va)) PTE_PRESENT with
      | false => rfl
      | true => rfl

theorem vmmGetPhysical_eq (va : BitVec 32) :
    vmmGetPhysical s va =
      ((s.entry (pdIndex va) (ptIndex va)).map fun e => (e &&& PTE_ADDR_MASK) ||| vmmOffset va).getD
        0#32 := by
  unfold vmmGetPhysical Vmm.entry
  cases hasFlag (s.pageDirectory (pdIndex va)) PTE_PRESENT with
  | false => rfl
  | true =>
      cases hasFlag (readPte s (pdIndex va) (ptIndex va)) PTE_PRESENT with
      | false => rfl
      | true => rfl

/-- Slots of tables that are apart do not overlap. -/
theorem VmmInv.slot_disjoint (h : VmmInv s)
    (hi : hasFlag (s.pageDirectory i) PTE_PRESENT = true)
    (hk : hasFlag (s.pageDirectory k) PTE_PRESENT = true) (hj : j < 1024) (hl : l < 1024)
    (hne : ¬(k = i ∧ l = j)) :
    tableAddr (s.pageDirectory k) + 4 * l + 4 ≤ tableAddr (s.pageDirectory i) + 4 * j
      ∨ tableAddr (s.pageDirectory i) + 4 * j + 4 ≤ tableAddr (s.pageDirectory k) + 4 * l := by
  by_cases hki : k = i
  · subst hki
    have : l ≠ j := fun hlj => hne ⟨rfl, hlj⟩
    omega
  · have hne := h.apart k i hki hk hi
    have h1 := tableAddr_mod (s.pageDirectory k)
    have h2 := tableAddr_mod (s.pageDirectory i)
    omega

theorem readPte_writePte (h : VmmInv s) (hi : hasFlag (s.pageDirectory i) PTE_PRESENT = true)
    (hk : hasFlag (s.pageDirectory k) PTE_PRESENT = true) (hj : j < 1024) (hl : l < 1024) :
    readPte (writePte s i j e) k l = if k = i ∧ l = j then e else readPte s k l := by
  unfold readPte writePte
  split
  · rename_i heq
    obtain ⟨rfl, rfl⟩ := heq
    exact load32_store32_self ..
  · rename_i hne
    exact load32_store32_of_disjoint (h.slot_disjoint hi hk hj hl hne)

/-- Storing an entry puts it in its slot and nowhere else. -/
theorem writePte_spec (h : VmmInv s) (hi : hasFlag (s.pageDirectory i) PTE_PRESENT = true)
    (hj : j < 1024)
    (hu : hasFlag e PTE_USER = true → hasFlag (s.pageDirectory i) PTE_USER = true) :
    VmmInv (writePte s i j e)
      ∧ s.Puts (writePte s i j e) i j (if hasFlag e PTE_PRESENT then some e else none) := by
  refine ⟨⟨h.apart, fun k l hl hk huser => ?_⟩, fun k l hl => ?_⟩
  · rw [readPte_writePte h hi hk hj hl] at huser
    split at huser
    · rename_i heq
      exact heq.1 ▸ hu huser
    · exact h.user k l hl hk huser
  · by_cases hk : hasFlag (s.pageDirectory k) PTE_PRESENT = true
    · unfold Vmm.entry
      rw [readPte_writePte h hi hk hj hl]
      by_cases heq : k = i ∧ l = j
      · simp [heq, writePte, hi]
      · simp [heq, writePte]
    · have hki : ¬(k = i ∧ l = j) := fun heq => hk (heq.1 ▸ hi)
      rw [Bool.not_eq_true] at hk
      rw [if_neg hki, entry_eq_none hk, entry_eq_none (by exact hk)]

theorem setUserPde_apply (s : Vmm) (i k : Nat) :
    (setUserPde s i).pageDirectory k
      = if k = i then s.pageDirectory k ||| PTE_USER else s.pageDirectory k := by
  simp only [setUserPde, setPde, Function.update_apply]
  split
  · rename_i heq
    rw [heq]
  · rfl

theorem setUserPde_present (s : Vmm) (i k : Nat) :
    hasFlag ((setUserPde s i).pageDirectory k) PTE_PRESENT
      = hasFlag (s.pageDirectory k) PTE_PRESENT := by
  rw [setUserPde_apply]
  split
  · exact present_or_user _
  · rfl

theorem setUserPde_tableAddr (s : Vmm) (i k : Nat) :
    tableAddr ((setUserPde s i).pageDirectory k) = tableAddr (s.pageDirectory k) := by
  rw [setUserPde_apply]
  split
  · exact tableAddr_or_user _
  · rfl

theorem setUserPde_user (s : Vmm) (i : Nat) :
    hasFlag ((setUserPde s i).pageDirectory i) PTE_USER = true := by
  rw [setUserPde_apply, if_pos rfl, user_or_user]

theorem readPte_setUserPde (s : Vmm) (i k l : Nat) :
    readPte (setUserPde s i) k l = readPte s k l := by
  rw [readPte, setUserPde_tableAddr]
  rfl

/-- Setting the user bit of a directory entry moves no slot. -/
theorem setUserPde_spec (h : VmmInv s) (i : Nat) :
    VmmInv (setUserPde s i) ∧ s.SameEntries (setUserPde s i) := by
  refine ⟨⟨?_, ?_⟩, ?_⟩
  · intro k l hkl hk hl
    rw [setUserPde_present] at hk hl
    rw [setUserPde_tableAddr, setUserPde_tableAddr]
    exact h.apart k l hkl hk hl
  · intro k l hl hk huser
    rw [setUserPde_present] at hk
    rw [readPte_setUserPde] at huser
    rw [setUserPde_apply]
    split
    · exact user_or_user _
    · exact h.user k l hl hk huser
  · intro k l _
    rw [Vmm.entry, Vmm.entry, setUserPde_present, readPte_setUserPde]

/-- Counters are no part of the tables. -/
theorem VmmInv.of_eq {s' : Vmm} (h : VmmInv s) (hm : s'.mem = s.mem)
    (hpd : s'.pageDirectory = s.pageDirectory) : VmmInv s' := by
  refine ⟨?_, ?_⟩
  · rw [hpd]
    exact h.apart
  · intro i j
    rw [readPte, hpd, hm]
    exact h.user i j

theorem entry_of_eq {s' : Vmm} (hm : s'.mem = s.mem)
    (hpd : s'.pageDirectory = s.pageDirectory) (i j : Nat) : s'.entry i j = s.entry i j := by
  rw [Vmm.entry, Vmm.entry, readPte, readPte, hm, hpd]

end Slots

/-! ## New tables -/

section Tables

variable {s : Vmm} {i : Nat} {fill : Mem → Nat → Mem}

theorem pmmAllocFrame_mod (p : Pmm) : (pmmAllocFrame p).1 % 4096 = 0 := by
  rcases pmmAllocFrame_cases p with h | ⟨f, -, -, h⟩
  · rw [h]
    rfl
  · rw [h]
    simp only [frameToAddr, u64, PMM_FRAME_SIZE]
    omega

theorem installTable_self :
    (installTable s i fill).pageDirectory i = tablePde (pmmAllocFrame s.pmm).1 :=
  Function.update_self ..

theorem installTable_other {k : Nat} (hk : k ≠ i) :
    (installTable s i fill).pageDirectory k = s.pageDirectory k :=
  Function.update_of_ne hk ..

/-- The new table is in the frame that was handed out. -/
theorem installTable_tableAddr (hlt : (pmmAllocFrame s.pmm).1 < 2 ^ 32) :
    tableAddr ((installTable s i fill).pageDirectory i) = (pmmAllocFrame s.pmm).1 := by
  rw [installTable_self, tableAddr_tablePde (pmmAllocFrame_mod s.pmm), u32_of_lt hlt]

theorem installTable_mem (hlt : (pmmAllocFrame s.pmm).1 < 2 ^ 32) :
    (installTable s i fill).mem = fill s.mem (pmmAllocFrame s.pmm).1 :=
  congrArg (fill s.mem) (u32_of_lt hlt)

theorem installTable_readPte_self (hlt : (pmmAllocFrame s.pmm).1 < 2 ^ 32) (j : Nat) :
    readPte (installTable s i fill) i j =
      load32 (fill s.mem (pmmAllocFrame s.pmm).1) ((pmmAllocFrame s.pmm).1 + 4 * j) := by
  rw [readPte, installTable_tableAddr hlt, installTable_mem hlt]

/-- Filling the new table writes into no other. -/
theorem installTable_readPte_other (hfresh : FreshFrame s (pmmAllocFrame s.pmm).1)
    (hfill : ∀ m a x, x < a ∨ a + 4096 ≤ x → fill m a x = m x) {k l : Nat} (hl : l < 1024)
    (hk : k ≠ i) (hp : hasFlag (s.pageDirectory k) PTE_PRESENT = true) :
    readPte (installTable s i fill) k l = readPte s k l := by
  have hnew := pmmAllocFrame_mod s.pmm
  have hold := tableAddr_mod (s.pageDirectory k)
  have hne := hfresh.2 k hp
  rw [readPte, installTable_other hk, installTable_mem hfresh.1, readPte]
  exact load32_congr fun x hx1 hx2 => hfill _ _ x (by omega)

theorem installTable_apart (h : VmmInv s) (hfresh : FreshFrame s (pmmAllocFrame s.pmm).1)
    {k l : Nat} (hkl : k ≠ l)
    (hk : hasFlag ((installTable s i fill).pageDirectory k) PTE_PRESENT = true)
    (hl : hasFlag ((installTable s i fill).pageDirectory l) PTE_PRESENT = true) :
    tableAddr ((installTable s i fill).pageDirectory k)
      ≠ tableAddr ((installTable s i fill).pageDirectory l) := by
  by_cases hki : k = i
  · subst hki
    rw [installTable_other (Ne.symm hkl)] at hl ⊢
    rw [installTable_tableAddr hfresh.1]
    exact (hfresh.2 l hl).symm
  · by_cases hli : l = i
    · subst hli
      rw [installTable_other hki] at hk ⊢
      rw [installTable_tableAddr hfresh.1]
      exact hfresh.2 k hk
    · rw [installTable_other hki] at hk ⊢
      rw [installTable_other hli] at hl ⊢
      exact h.apart k l hkl hk hl

/-- A fresh table for a directory entry: the other tables keep their entries, and the
new one has what `fill` wrote. -/
theorem installTable_spec (h : VmmInv s) (hfresh : FreshFrame s (pmmAllocFrame s.pmm).1)
    (i : Nat) (fill : Mem → Nat → Mem)
    (hfill : ∀ m a x, x < a ∨ a + 4096 ≤ x → fill m a x = m x)
    (huser : ∀ m a j, j < 1024 → hasFlag (load32 (fill m a) (a + 4 * j)) PTE_USER = false) :
    VmmInv (installTable s i fill)
      ∧ hasFlag ((installTable s i fill).pageDirectory i) PTE_PRESENT = true
      ∧ ∀ k l, l < 1024 → k ≠ i → (installTable s i fill).entry k l = s.entry k l := by
  refine ⟨⟨fun k l hkl hk hl => installTable_apart h hfresh hkl hk hl, fun k l hl hk hu => ?_⟩,
    ?_, fun k l hl hk => ?_⟩
  · by_cases hki : k = i
    · subst hki
      rw [installTable_readPte_self hfresh.1, huser _ _ l hl] at hu
      cases hu
    · rw [installTable_other hki] at hk ⊢
      rw [installTable_readPte_other hfresh hfill hl hki hk] at hu
      exact h.user k l hl hk hu
  · rw [installTable_self, present_tablePde]
  · rw [Vmm.entry, Vmm.entry, installTable_other hk]
    by_cases hp : hasFlag (s.pageDirectory k) PTE_PRESENT = true
    · rw [installTable_readPte_other hfresh hfill hl hk hp]
    · simp [hp]

theorem zeroTable_spec (h : VmmInv s) (hi : hasFlag (s.pageDirectory i) PTE_PRESENT = false)
    (hfresh : FreshFrame s (pmmAllocFrame s.pmm).1) :
    VmmInv (zeroTable s i) ∧ s.SameEntries (zeroTable s i)
      ∧ hasFlag ((zeroTable s i).pageDirectory i) PTE_PRESENT = true := by
  have hzero : ∀ (m : Mem) (a j : Nat), j < 1024 →
      load32 (fillUp m a 0#8 PAGE_SIZE) (a + 4 * j) = 0#32 := fun m a j hj =>
    load32_fillUp_zero (by omega) (by unfold PAGE_SIZE; omega)
  obtain ⟨hinv, hpres, hentry⟩ := installTable_spec h hfresh i
    (fun m pt => fillUp m pt 0#8 PAGE_SIZE) (fun m a x hx => fillUp_of_outside hx)
    (fun m a j hj => by rw [hzero m a j hj]; rfl)
  refine ⟨hinv, fun k l hl => ?_, hpres⟩
  by_cases hk : k = i
  · subst hk
    have hnone : hasFlag (readPte (zeroTable s k) k l) PTE_PRESENT = false := by
      rw [zeroTable, installTable_readPte_self hfresh.1, hzero _ _ l hl]
      rfl
    rw [entry_eq_none hi, Vmm.entry, hnone, Bool.and_false]
    rfl
  · exact hentry k l hl hk

theorem ensureTable_spec (h : VmmInv s)
    (hfresh : hasFlag (s.pageDirectory i) PTE_PRESENT = false → Granted FreshFrame s) :
    VmmInv (ensureTable s i).2 ∧ s.SameEntries (ensureTable s i).2
      ∧ ((ensureTable s i).1 = true →
          hasFlag ((ensureTable s i).2.pageDirectory i) PTE_PRESENT = true) := by
  unfold ensureTable
  split
  · rename_i hi
    exact ⟨h, fun _ _ _ => rfl, fun _ => hi⟩
  · rename_i hi
    rw [Bool.not_eq_true] at hi
    split
    · exact ⟨⟨h.apart, h.user⟩, fun _ _ _ => rfl, fun hfalse => by cases hfalse⟩
    · rename_i hne
      obtain ⟨hinv, hsame, hpres⟩ := zeroTable_spec h hi (hfresh hi hne)
      exact ⟨hinv, hsame, fun _ => hpres⟩

theorem propagateUser_spec (h : VmmInv s) (i : Nat) (flags : BitVec 32) :
    VmmInv (propagateUser s i flags) ∧ s.SameEntries (propagateUser s i flags)
      ∧ hasFlag ((propagateUser s i flags).pageDirectory i) PTE_PRESENT
          = hasFlag (s.pageDirectory i) PTE_PRESENT
      ∧ (hasFlag flags PTE_USER = true →
          hasFlag ((propagateUser s i flags).pageDirectory i) PTE_USER = true) := by
  unfold propagateUser
  split
  · obtain ⟨hinv, hsame⟩ := setUserPde_spec h i
    exact ⟨hinv, hsame, setUserPde_present s i i, fun _ => setUserPde_user s i⟩
  · rename_i hu
    exact ⟨h, fun _ _ _ => rfl, rfl, fun hu' => absurd hu' hu⟩

/-! ## Initialisation -/

theorem fillIdentity_of_outside {m : Mem} {pt i x : Nat} :
    ∀ {n : Nat}, x < pt ∨ pt + 4 * n ≤ x → fillIdentity m pt i n x = m x
  | 0, _ => rfl
  | n + 1, h => by
      rw [fillIdentity, store32_of_outside (by omega), fillIdentity_of_outside (by omega)]

theorem load32_fillIdentity {m : Mem} {pt i j : Nat} :
    ∀ {n : Nat}, j < n → load32 (fillIdentity m pt i n) (pt + 4 * j) = identityEntry i j
  | n + 1, h => by
      rw [fillIdentity]
      by_cases hj : j = n
      · rw [hj, load32_store32_self]
      · rw [load32_store32_of_disjoint (by omega), load32_fillIdentity (by omega)]

/-- The first `n` tables map the identity and there are no others. -/
structure IdentityTables (s : Vmm) (n : Nat) : Prop where
  inv : VmmInv s
  below : ∀ k l, k < n → l < 1024 → s.entry k l = some (identityEntry k l)
  above : ∀ k, n ≤ k → hasFlag (s.pageDirectory k) PTE_PRESENT = false

/-- Every frame handed out in the `n` iterations from `i` on satisfies `Ok`. -/
inductive InitGrants (Ok : Vmm → Nat → Prop) : (n i : Nat) → Vmm → Prop
  | done (i : Nat) (s : Vmm) : InitGrants Ok 0 i s
  | next {n i : Nat} {s : Vmm} (hg : Granted Ok s)
      (hn : (pmmAllocFrame s.pmm).1 ≠ 0 → InitGrants Ok n (i + 1) (initTable s i)) :
      InitGrants Ok (n + 1) i s

theorem initTable_spec (h : IdentityTables s i)
    (hfresh : FreshFrame s (pmmAllocFrame s.pmm).1) : IdentityTables (initTable s i) (i + 1) := by
  obtain ⟨hinv, hpres, hentry⟩ := installTable_spec h.inv hfresh i
    (fun m pt => fillIdentity m pt i PAGES_PER_TABLE)
    (fun m a x hx => fillIdentity_of_outside (by unfold PAGES_PER_TABLE; omega))
    (fun m a j hj => by rw [load32_fillIdentity (by exact hj), user_identityEntry])
  refine ⟨hinv, fun k l hk hl => ?_, fun k hk => ?_⟩
  · by_cases hki : k = i
    · subst hki
      have hr : readPte (initTable s k) k l = identityEntry k l := by
        rw [initTable, installTable_readPte_self hfresh.1, load32_fillIdentity (by exact hl)]
      rw [Vmm.entry, hr, initTable, hpres, present_identityEntry]
      rfl
    · exact (hentry k l hl hki).trans (h.below k l (by omega) hl)
  · rw [initTable, installTable_other (show k ≠ i by omega), h.above k (by omega)]

theorem initTables_spec :
    ∀ {n i : Nat} {s : Vmm}, IdentityTables s i → InitGrants FreshFrame n i s →
      (initTables n i s).1 = true → IdentityTables (initTables n i s).2 (i + n)
  | 0, _, _, h, _, _ => h
  | n + 1, i, s, h, .next hg hn, hok => by
      rw [initTables] at hok ⊢
      split at hok
      · cases hok
      · rename_i hne
        rw [if_neg hne, show i + (n + 1) = i + 1 + n by omega]
        exact initTables_spec (initTable_spec h (hg hne)) (hn hne) hok

theorem clearVmm_spec (s : Vmm) : IdentityTables (clearVmm s) 0 := by
  have habsent : ∀ k, hasFlag ((clearVmm s).pageDirectory k) PTE_PRESENT = false := by
    intro k
    simp [clearVmm, hasFlag]
  refine ⟨⟨fun i k _ hi => ?_, fun i j _ hi => ?_⟩, fun k _ hk => ?_, fun k _ => habsent k⟩
  · rw [habsent] at hi
    cases hi
  · rw [habsent] at hi
    cases hi
  · omega

theorem numPde_bounds (t : Nat) : 0 < numPde t ∧ numPde t ≤ 1023 := by
  unfold numPde u32 TABLES_PER_DIR
  simp only
  split
  · decide
  · split <;> split <;> omega

theorem IdentityTables.setStats {n : Nat} (h : IdentityTables s n) (a b : Nat) :
    IdentityTables (setStats s a b) n :=
  ⟨h.inv.of_eq rfl rfl, h.below, h.above⟩

theorem vmmInit_success (hok : (vmmInit s).1 = 0) :
    (initTables (initCount s) 0 (clearVmm s)).1 = true
      ∧ (vmmInit s).2 = setStats (initTables (initCount s) 0 (clearVmm s)).2
          (u32 (initCount s * PAGES_PER_TABLE)) (u32 (initCount s * 0x400000)) := by
  simp only [vmmInit] at hok ⊢
  split at hok
  · rename_i hr
    rw [if_pos hr]
    exact ⟨hr, rfl⟩
  · cases hok

/-- A successful `vmm_init` maps `[0, identity_end)` to itself and nothing else. -/
theorem vmmInit_spec (hg : InitGrants FreshFrame (initCount s) 0 (clearVmm s))
    (hok : (vmmInit s).1 = 0) :
    IdentityTables (vmmInit s).2 (initCount s)
      ∧ (vmmInit s).2.identityEnd = initCount s * 0x400000 := by
  have hlt := (numPde_bounds (pmmGetStats s.pmm).totalMemory).2
  have hend : u32 (initCount s * 0x400000) = initCount s * 0x400000 := by
    refine u32_of_lt ?_
    unfold initCount
    omega
  obtain ⟨hr, hs⟩ := vmmInit_success hok
  have hspec := initTables_spec (clearVmm_spec s) hg hr
  rw [Nat.zero_add] at hspec
  rw [hs]
  exact ⟨hspec.setStats _ _, hend⟩

end Tables

/-! ## The three operations -/

section Ops

variable {s : Vmm}

/-- The slot a mapping leaves behind. -/
def mapSlot (pa flags : BitVec 32) : Option (BitVec 32) :=
  if hasFlag flags PTE_PRESENT then some (mapEntry pa flags) else none

theorem vmmMap_spec (h : VmmInv s) (va pa flags : BitVec 32)
    (hfresh : hasFlag (s.pageDirectory (pdIndex va)) PTE_PRESENT = false → Granted FreshFrame s) :
    VmmInv (vmmMap s va pa flags).2 ∧
      ((vmmMap s va pa flags).1 = -1 ∧ s.SameEntries (vmmMap s va pa flags).2
        ∨ (vmmMap s va pa flags).1 = 0
          ∧ s.Puts (vmmMap s va pa flags).2 (pdIndex va) (ptIndex va) (mapSlot pa flags)) := by
  obtain ⟨hinv, hsame, hpres⟩ := ensureTable_spec h hfresh
  unfold vmmMap
  match ensureTable s (pdIndex va), hinv, hsame, hpres with
  | (false, s₁), hinv, hsame, _ => exact ⟨hinv, Or.inl ⟨rfl, hsame⟩⟩
  | (true, s₁), hinv, hsame, hpres =>
      obtain ⟨hinv₂, hsame₂, hpres₂, hu⟩ := propagateUser_spec hinv (pdIndex va) flags
      obtain ⟨hinv₃, hput⟩ := writePte_spec hinv₂ (hpres₂.trans (hpres rfl)) (ptIndex_lt va)
        (e := mapEntry pa flags) (by rwa [user_mapEntry])
      refine ⟨hinv₃.of_eq rfl rfl, Or.inr ⟨rfl, fun k l hl => ?_⟩⟩
      rw [present_mapEntry] at hput
      refine (hput k l hl).trans ?_
      rw [hsame₂ k l hl, hsame k l hl, mapSlot]

theorem vmmUnmap_spec (h : VmmInv s) (va : BitVec 32) :
    VmmInv (vmmUnmap s va).2 ∧
      ((vmmUnmap s va).1 = -1 ∧ s.SameEntries (vmmUnmap s va).2
        ∨ (vmmUnmap s va).1 = 0
          ∧ s.Puts (vmmUnmap s va).2 (pdIndex va) (ptIndex va) none) := by
  unfold vmmUnmap
  split
  · exact ⟨h, Or.inl ⟨rfl, fun _ _ _ => rfl⟩⟩
  · rename_i hpd
    split
    · exact ⟨h, Or.inl ⟨rfl, fun _ _ _ => rfl⟩⟩
    · obtain ⟨hinv, hput⟩ := writePte_spec h (by simpa using hpd) (ptIndex_lt va) (e := 0#32)
        (fun hu => by cases hu)
      refine ⟨hinv.of_eq ?_ ?_,
        Or.inr ⟨rfl, fun k l hl => (entry_of_eq ?_ ?_ k l).trans (hput k l hl)⟩⟩
      all_goals
        unfold decMapped
        split <;> rfl

theorem vmmSetUser_spec (h : VmmInv s) (va : BitVec 32) :
    VmmInv (vmmSetUser s va).2 ∧
      ((vmmSetUser s va).1 = -1 ∧ s.SameEntries (vmmSetUser s va).2
        ∨ (vmmSetUser s va).1 = 0 ∧ ∃ e, s.entry (pdIndex va) (ptIndex va) = some e
          ∧ s.Puts (vmmSetUser s va).2 (pdIndex va) (ptIndex va) (some (e ||| PTE_USER))) := by
  unfold vmmSetUser
  split
  · exact ⟨h, Or.inl ⟨rfl, fun _ _ _ => rfl⟩⟩
  · rename_i hpd
    obtain ⟨hinv, hsame⟩ := setUserPde_spec h (pdIndex va)
    have hpd' := (setUserPde_present s (pdIndex va) (pdIndex va)).trans (by simpa using hpd)
    dsimp only
    split
    · exact ⟨hinv, Or.inl ⟨rfl, hsame⟩⟩
    · rename_i hpte
      rw [Bool.not_eq_true', Bool.not_eq_false] at hpte
      obtain ⟨hinv₂, hput⟩ := writePte_spec hinv hpd' (ptIndex_lt va)
        (e := readPte (setUserPde s (pdIndex va)) (pdIndex va) (ptIndex va) ||| PTE_USER)
        (fun _ => setUserPde_user s _)
      refine ⟨hinv₂, Or.inr ⟨rfl, readPte (setUserPde s (pdIndex va)) (pdIndex va) (ptIndex va),
        ?_, fun k l hl => ?_⟩⟩
      · rw [← hsame _ _ (ptIndex_lt va), Vmm.entry, hpd', hpte]
        rfl
      · rw [hput k l hl, present_or_user, hpte, hsame k l hl]
        rfl

end Ops

/-! ## The operations case by case -/

section Cases

variable {s : Vmm} (va pa flags : BitVec 32)

/-- The new table of a directory entry without one. -/
theorem zeroTable_new {i a : Nat} {p : Pmm} (hpd : hasFlag (s.pageDirectory i) PTE_PRESENT = false)
    (ha : pmmAllocFrame s.pmm = (a, p)) (hne : a ≠ 0) :
    ensureTable s i = (true, zeroTable s i) ∧ (zeroTable s i).pmm = p
      ∧ (zeroTable s i).pageDirectory = Function.update s.pageDirectory i (tablePde a)
      ∧ (zeroTable s i).mem = fillUp s.mem (u32 a) 0#8 PAGE_SIZE := by
  refine ⟨?_, congrArg Prod.snd ha, ?_, ?_⟩
  · rw [ensureTable, hpd, ha, if_neg Bool.false_ne_true, if_neg hne]
  · rw [← show (pmmAllocFrame s.pmm).1 = a from congrArg Prod.fst ha]
    rfl
  · rw [← show (pmmAllocFrame s.pmm).1 = a from congrArg Prod.fst ha]
    rfl

/-- `vmm_map` on a directory entry without a table. -/
theorem vmmMap_new {i a : Nat} {q p : Pmm} (hi : pdIndex va = i)
    (hpd : hasFlag (s.pageDirectory i) PTE_PRESENT = false) (hq : s.pmm = q)
    (ha : pmmAllocFrame q = (a, p)) (hne : a ≠ 0) :
    (vmmMap s va pa flags).1 = 0 ∧ (vmmMap s va pa flags).2.pmm = p
      ∧ (vmmMap s va pa flags).2.pageDirectory = Function.update s.pageDirectory i
          (if hasFlag flags PTE_USER then tablePde a ||| PTE_USER else tablePde a)
      ∧ ∀ x, x < u32 a ∨ u32 a + 4096 ≤ x → (vmmMap s va pa flags).2.mem x = s.mem x := by
  subst hi hq
  obtain ⟨hens, hpmm, hnew, hmem⟩ := zeroTable_new hpd ha hne
  have hmod := pmmAllocFrame_mod s.pmm
  rw [ha] at hmod
  have haddr : tableAddr (tablePde a) = u32 a := tableAddr_tablePde hmod
  have hpt := ptIndex_lt va
  have hstore : ∀ (e : BitVec 32) (x : Nat), x < u32 a ∨ u32 a + 4096 ≤ x →
      store32 (zeroTable s (pdIndex va)).mem (u32 a + 4 * ptIndex va) e x = s.mem x := by
    intro e x hx
    rw [store32_of_outside (by omega), hmem, fillUp_of_outside (by unfold PAGE_SIZE; exact hx)]
  simp only [vmmMap, hens, writePte, propagateUser, true_and]
  split
  · simp only [setUserPde, setPde, hnew, Function.update_self, Function.update_idem,
      tableAddr_or_user, haddr]
    exact ⟨hpmm, trivial, hstore _⟩
  · rw [hnew, Function.update_self, haddr]
    exact ⟨hpmm, rfl, hstore _⟩

/-- `vmm_map` on a directory entry with a table: the slot holds the new entry. -/
theorem vmmMap_old {i j : Nat} (hi : pdIndex va = i) (hj : ptIndex va = j)
    (hpd : hasFlag (s.pageDirectory i) PTE_PRESENT = true)
    (hu : hasFlag flags PTE_USER = true) :
    (vmmMap s va pa flags).1 = 0
      ∧ (vmmMap s va pa flags).2.pageDirectory = (setUserPde s i).pageDirectory
      ∧ readPte (vmmMap s va pa flags).2 i j = mapEntry pa flags := by
  subst hi hj
  have hens : ensureTable s (pdIndex va) = (true, s) := by rw [ensureTable, if_pos hpd]
  simp only [vmmMap, hens, writePte, propagateUser, hu, if_true, true_and]
  exact load32_store32_self ..

end Cases

theorem decMapped_tables (s : Vmm) :
    (decMapped s).pageDirectory = s.pageDirectory ∧ (decMapped s).mem = s.mem := by
  unfold decMapped
  split
  · exact ⟨rfl, rfl⟩
  · exact ⟨rfl, rfl⟩

/-- `vmm_unmap` of a mapped page keeps the directory and clears the entry. -/
theorem vmmUnmap_mapped {s : Vmm} {va : BitVec 32} (h : vmmIsMapped s va = true) :
    (vmmUnmap s va).1 = 0 ∧ (vmmUnmap s va).2.pageDirectory = s.pageDirectory
      ∧ hasFlag (s.pageDirectory (pdIndex va)) PTE_PRESENT = true
      ∧ vmmIsMapped (vmmUnmap s va).2 va = false := by
  unfold vmmIsMapped at h
  split_ifs at h with hpd
  rw [Bool.not_eq_true', Bool.not_eq_false] at hpd
  have hun : vmmUnmap s va = (0, decMapped (writePte s (pdIndex va) (ptIndex va) 0#32)) := by
    simp [vmmUnmap, hpd, h]
  obtain ⟨hdir, hmem⟩ := decMapped_tables (writePte s (pdIndex va) (ptIndex va) 0#32)
  have hpte : readPte (decMapped (writePte s (pdIndex va) (ptIndex va) 0#32)) (pdIndex va)
      (ptIndex va) = 0#32 := by
    rw [readPte, hdir, hmem]
    exact load32_store32_self ..
  rw [hun]
  refine ⟨rfl, hdir, hpd, ?_⟩
  simp only [vmmIsMapped, hpte]
  split
  · rfl
  · rfl

-- for every `m` and `e`: at the values `vmm_init` stores, the kernel would multiply them out
theorem setStats_tables (s : Vmm) (m e : Nat) :
    (setStats s m e).pmm = s.pmm ∧ (setStats s m e).pageDirectory = s.pageDirectory :=
  ⟨rfl, rfl⟩

theorem vmmInit_tables {s t : Vmm} (hok : (vmmInit s).1 = 0)
    (ht : initTables (initCount s) 0 (clearVmm s) = (true, t)) :
    (vmmInit s).2.pmm = t.pmm ∧ (vmmInit s).2.pageDirectory = t.pageDirectory := by
  rw [(vmmInit_success hok).2, ht]
  exact setStats_tables t _ _

theorem initTable_pmm (s : Vmm) (i : Nat) : (initTable s i).pmm = (pmmAllocFrame s.pmm).2 := rfl

theorem initTable_clearVmm {s : Vmm} {i k : Nat} (hk : k ≠ i) :
    (initTable (clearVmm s) i).pageDirectory k = 0#32 :=
  Function.update_of_ne hk ..

end Matryoshka
