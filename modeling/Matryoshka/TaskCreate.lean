import Matryoshka.HeapClient
import Matryoshka.TaskStack
import Matryoshka.VmmUser

/-!
# What the creation of a task leaves behind

A creation that fails leaves no trace. One that succeeds opens three pages
to ring 3: the page its user stack starts in and two pages of code. The
stack is a heap block, one page long but eight bytes aligned, so the page
it starts in is neither all of the stack nor only the stack. The top of
the stack usually lies in a page that stays closed, and the header before
it, with whatever else is in the page, is opened. `user_stack_open_iff`
and `no_heap_exposed_iff` say for which blocks this does not happen.

The page tables are taken to be apart (`VmmInv`), as they are in every
state reached with frames below 4 GiB (`userRun_sim`).
-/

namespace Matryoshka

open ByteMem Tiling

/-! ## Failed creation -/

section Fail

variable {taskExitAddr : BitVec 32} {sys : TaskSys}

/-- **A failed creation leaves no trace**: the scheduler, the page tables, the block list
and the counter of the heap are as before. -/
theorem failed_creation_no_trace (h : TaskReach taskExitAddr sys) (entry : BitVec 32)
    (name : Option String) :
    (∀ s' h', taskCreate taskExitAddr sys.sched sys.run.heap entry name = (noTask, s', h') →
        s' = sys.sched ∧ SameHeap h' sys.run.heap)
      ∧ ∀ s' h' v', taskCreateUser sys.sched sys.run.heap sys.vmm entry name
          = (noTask, s', h', v') →
        s' = sys.sched ∧ SameHeap h' sys.run.heap ∧ v' = sys.vmm := by
  obtain ⟨bs, hwf, -, -⟩ := taskReach_inv h
  refine ⟨fun s' h' hc => ?_, fun s' h' v' hc => ?_⟩
  · rcases taskCreate_spec taskExitAddr hwf entry name with
      heq | ⟨b, bs', h₁, hroom, -, -, heq⟩
    · cases heq.symm.trans hc
      exact ⟨rfl, rfl, rfl⟩
    · exact absurd (congrArg Prod.fst (heq.symm.trans hc)) (count_ne_noTask hroom)
  · rcases taskCreateUser_spec hwf sys.vmm entry name with
      ⟨h₁, bs', heq, hwf', hused⟩ | ⟨b, c, h₁, bs₁, bs', h₂, hroom, -, -, -, -, heq⟩
    · cases heq.symm.trans hc
      exact ⟨rfl, hwf'.sameHeap hwf hused, rfl⟩
    · exact absurd (congrArg Prod.fst (heq.symm.trans hc)) (count_ne_noTask hroom)

end Fail

/-- A heap with room for one stack and not for two. -/
def oneStackSys : TaskSys :=
  { bootSys with run := ⟨(kmalloc bootSys.run.heap 1044000).2,
      addLive (kmalloc bootSys.run.heap 1044000).1 bootSys.run.live⟩ }

theorem failed_creation_no_trace_second :
    (kmalloc oneStackSys.run.heap TASK_STACK_SIZE).1 ≠ 0
      ∧ (taskCreateUser oneStackSys.sched oneStackSys.run.heap oneStackSys.vmm 0x1000#32 none).1
          = noTask
      ∧ SameHeap (taskCreateUser oneStackSys.sched oneStackSys.run.heap oneStackSys.vmm 0x1000#32
          none).2.2.1 oneStackSys.run.heap := by
  have hreach : TaskReach 0#32 oneStackSys :=
    (TaskReach.init _ _ (.init fun _ => 0#8) _).step
      (.client bootSys _ (.kmalloc bootSys.run 1044000) (by decide +kernel))
  have hfail : (taskCreateUser oneStackSys.sched oneStackSys.run.heap oneStackSys.vmm 0x1000#32
      none).1 = noTask := by decide +kernel
  refine ⟨by decide +kernel, hfail, ?_⟩
  have hnone := (failed_creation_no_trace hreach 0x1000#32 none).2
  generalize taskCreateUser oneStackSys.sched oneStackSys.run.heap oneStackSys.vmm 0x1000#32 none
    = res at hfail hnone ⊢
  obtain ⟨id, s', h', v'⟩ := res
  cases hfail
  exact (hnone s' h' v' rfl).2.1

/-! ## Opened pages -/

section Access

variable {v : Vmm}

theorem accessible_congr {a b : BitVec 32} (h : pageOf a = pageOf b) :
    accessible v a = accessible v b := by
  obtain ⟨hd, ht⟩ := (index_eq_iff a b).mpr h
  rw [accessible, accessible, hd, ht]

theorem vmmIsMapped_congr {a b : BitVec 32} (h : pageOf a = pageOf b) :
    vmmIsMapped v a = vmmIsMapped v b := by
  obtain ⟨hd, ht⟩ := (index_eq_iff a b).mpr h
  rw [vmmIsMapped, vmmIsMapped, hd, ht]

theorem vmmSetUser_unmapped {va : BitVec 32} (h : (vmmSetUser v va).1 = -1) :
    vmmIsMapped v va = false := by
  unfold vmmSetUser at h
  unfold vmmIsMapped
  split at h
  · next hpd => rw [if_pos hpd]
  · next hpd =>
      rw [if_neg hpd]
      dsimp only at h
      rw [readPte_setUserPde] at h
      split at h
      · next hpte => simpa using hpte
      · cases h

/-- `vmm_set_user` opens the page of its address if that is mapped, and no other. -/
theorem vmmSetUser_opens (hv : VmmInv v) (va a : BitVec 32) :
    vmmIsMapped (vmmSetUser v va).2 a = vmmIsMapped v a
      ∧ accessible (vmmSetUser v va).2 a
        = (accessible v a || vmmIsMapped v a && decide (pageOf a = pageOf va)) := by
  obtain ⟨hinv, ⟨hr, hsame⟩ | ⟨hr, e, he, hput⟩⟩ := vmmSetUser_spec hv va
  · have hun := vmmSetUser_unmapped hr
    refine ⟨by rw [vmmIsMapped_eq, vmmIsMapped_eq, hsame _ _ (ptIndex_lt a)], ?_⟩
    rw [accessible_eq hinv, accessible_eq hv, hsame.entryAt]
    by_cases hp : pageOf a = pageOf va
    · rw [vmmIsMapped_congr hp, hun, Bool.false_and, Bool.or_false]
    · rw [decide_eq_false hp, Bool.and_false, Bool.or_false]
  · have hput := hput.entryAt
    by_cases hp : pageOf a = pageOf va
    · have hmapped : vmmIsMapped v a = true := by
        rw [vmmIsMapped_congr hp, vmmIsMapped_eq, he]
        rfl
      have hentry := hput a
      rw [if_pos hp] at hentry
      refine ⟨?_, ?_⟩
      · rw [hmapped, vmmIsMapped_eq]
        exact congrArg Option.isSome hentry
      · rw [accessible_eq hinv, hentry, hmapped, decide_eq_true hp]
        simp
    · have hentry := hput a
      rw [if_neg hp] at hentry
      refine ⟨?_, ?_⟩
      · rw [vmmIsMapped_eq, vmmIsMapped_eq]
        exact congrArg Option.isSome hentry
      · rw [accessible_eq hinv, accessible_eq hv, hentry, decide_eq_false hp, Bool.and_false,
          Bool.or_false]

/-- The pages of code that `task_create_user` opens. -/
def entryPages (entry : BitVec 32) : List Nat :=
  [pageOf (pageAlignDown entry), pageOf (pageAlignDown entry + BitVec.ofNat 32 PAGE_SIZE)]

/-- `task_create_user` opens the page its user stack starts in and two pages of code. -/
theorem openUserPages_opens (hv : VmmInv v) (ustack : Nat) (entry a : BitVec 32) :
    accessible (openUserPages v ustack entry) a
      = (accessible v a || vmmIsMapped v a && decide
          (pageOf a = pageOf (BitVec.ofNat 32 ustack) ∨ pageOf a ∈ entryPages entry)) := by
  have hone : ∀ base, setUserPages v base (TASK_STACK_SIZE / PAGE_SIZE) 0
      = (vmmSetUser v (BitVec.ofNat 32 base)).2 := fun _ => rfl
  simp only [openUserPages, hone]
  have h₁ := (vmmSetUser_spec hv (BitVec.ofNat 32 ustack)).1
  have h₂ := (vmmSetUser_spec h₁ (pageAlignDown entry)).1
  rw [(vmmSetUser_opens h₂ _ a).2, (vmmSetUser_opens h₁ _ a).1, (vmmSetUser_opens h₁ _ a).2,
    (vmmSetUser_opens hv _ a).1, (vmmSetUser_opens hv _ a).2]
  cases accessible v a <;> cases vmmIsMapped v a <;>
    simp [entryPages, Bool.or_assoc]

end Access

/-! ## The new task -/

/-- The heap is mapped. -/
def HeapMapped (v : Vmm) : Prop :=
  ∀ a, HEAP_START ≤ a → a < HEAP_START + HEAP_INITIAL → vmmIsMapped v (BitVec.ofNat 32 a) = true

/-- The user stack of the next user task: the second of two stacks taken from the heap. -/
def userStackOn (h : Heap) : Nat :=
  (kmalloc (kmalloc h TASK_STACK_SIZE).2 TASK_STACK_SIZE).1

/-- A user task was created: its user stack is the block `c`, and its pages are open. -/
structure UserMade (h' : Heap) (v v' : Vmm) (entry : BitVec 32) (ustack : Nat) (bs' : List Seg)
    (c : Seg) : Prop where
  wf : HeapWf h' bs'
  block : c ∈ used bs'
  size : TASK_STACK_SIZE ≤ c.size
  stack : ustack = c.addr + 16
  opened : v' = openUserPages v ustack entry

section Made

variable {s s' : Sched} {h h' : Heap} {v v' : Vmm} {entry : BitVec 32} {name : Option String}
  {id ustack : Nat} {bs bs' : List Seg} {c : Seg}

theorem taskCreateUser_made (hwf : HeapWf h bs)
    (hc : taskCreateUser s h v entry name = (id, s', h', v')) (hid : id ≠ noTask) :
    ∃ bs' c, UserMade h' v v' entry (s'.tasks id).userStackBase bs' c := by
  rcases taskCreateUser_spec (s := s) hwf v entry name with
    ⟨h₁, bs', heq, -⟩ | ⟨b, c, h₁, bs₁, bs', h₂, -, -, hsize, -, hp, heq⟩
  · exact absurd (congrArg Prod.fst (hc.symm.trans heq)) hid
  · cases heq.symm.trans hc
    rw [setTask_self]
    exact ⟨bs', c, hp.wf, (hp.used c).mpr (Or.inr rfl), hsize, rfl, rfl⟩

theorem taskCreateUser_ustack (hc : taskCreateUser s h v entry name = (id, s', h', v'))
    (hid : id ≠ noTask) : (s'.tasks id).userStackBase = userStackOn h := by
  simp only [taskCreateUser] at hc
  split at hc
  · cases hc
    exact absurd rfl hid
  · split at hc
    · cases hc
      exact absurd rfl hid
    · cases hc
      rw [setTask_self]
      rfl

theorem pageOf_ofNat {a : Nat} (ha : a < 2 ^ 32) : pageOf (BitVec.ofNat 32 a) = a / PAGE_SIZE := by
  rw [pageOf, BitVec.toNat_ofNat, Nat.mod_eq_of_lt ha]

theorem UserMade.bounds (hm : UserMade h' v v' entry ustack bs' c) :
    HEAP_START + 16 ≤ ustack ∧ ustack + TASK_STACK_SIZE ≤ HEAP_START + HEAP_INITIAL := by
  have := hm.wf.mem_bounds (List.mem_filter.mp hm.block).1
  have := hm.size
  have := hm.stack
  omega

theorem UserMade.accessible (hm : UserMade h' v v' entry ustack bs' c) (hv : VmmInv v)
    {a : Nat} (ha : a < 2 ^ 32) :
    Matryoshka.accessible v' (BitVec.ofNat 32 a) = true ↔
      Matryoshka.accessible v (BitVec.ofNat 32 a) = true
        ∨ vmmIsMapped v (BitVec.ofNat 32 a) = true
          ∧ (a / PAGE_SIZE = ustack / PAGE_SIZE ∨ a / PAGE_SIZE ∈ entryPages entry) := by
  have hb := hm.bounds
  simp only [HEAP_START, HEAP_INITIAL, TASK_STACK_SIZE] at hb
  rw [hm.opened, openUserPages_opens hv, pageOf_ofNat ha, pageOf_ofNat (by omega)]
  simp only [Bool.or_eq_true, Bool.and_eq_true, decide_eq_true_eq]

end Made

/-! ## Access to the whole stack -/

/-- The page with the last byte of the stack is the first one, or it was open before, or
it is a page of code. -/
def TopPageOpen (v : Vmm) (ustack : Nat) (entry : BitVec 32) : Prop :=
  ustack % PAGE_SIZE = 0
    ∨ accessible v (BitVec.ofNat 32 (ustack + TASK_STACK_SIZE - 1)) = true
    ∨ (ustack + TASK_STACK_SIZE - 1) / PAGE_SIZE ∈ entryPages entry

/-- Ring 3 reaches the whole stack of a new user task exactly when the page of its top is
open by alignment or by accident. -/
theorem user_stack_open_iff {taskExitAddr : BitVec 32} {sys : TaskSys}
    (h : TaskReach taskExitAddr sys) (hv : VmmInv sys.vmm) (hmap : HeapMapped sys.vmm)
    {entry : BitVec 32} {name : Option String} {id : Nat} {s' : Sched} {h' : Heap} {v' : Vmm}
    (hc : taskCreateUser sys.sched sys.run.heap sys.vmm entry name = (id, s', h', v'))
    (hid : id ≠ noTask) :
    (∀ a, (s'.tasks id).userStackBase ≤ a → a < (s'.tasks id).userStackBase + TASK_STACK_SIZE →
        accessible v' (BitVec.ofNat 32 a) = true)
      ↔ TopPageOpen sys.vmm (userStackOn sys.run.heap) entry := by
  obtain ⟨bs, hwf, -, -⟩ := taskReach_inv h
  obtain ⟨bs', c, hm⟩ := taskCreateUser_made hwf hc hid
  rw [← taskCreateUser_ustack hc hid]
  generalize (s'.tasks id).userStackBase = ustack at hm ⊢
  have hb := hm.bounds
  simp only [HeapMapped, HEAP_START, HEAP_INITIAL] at hb hmap
  unfold TopPageOpen
  simp only [TASK_STACK_SIZE] at hb ⊢
  constructor
  · intro hall
    rcases (hm.accessible hv (by omega)).mp (hall (ustack + 4096 - 1) (by omega) (by omega)) with
      hold | ⟨-, hpage | hentry⟩
    · exact Or.inr (Or.inl hold)
    · -- the first and the last byte in one page
      simp only [PAGE_SIZE] at hpage ⊢
      exact Or.inl (by omega)
    · exact Or.inr (Or.inr hentry)
  · intro htop a hlo hhi
    rw [hm.accessible hv (by omega)]
    have hmapped := hmap a (by omega) (by omega)
    by_cases hfirst : a / PAGE_SIZE = ustack / PAGE_SIZE
    · exact Or.inr ⟨hmapped, Or.inl hfirst⟩
    · have hlast : a / PAGE_SIZE = (ustack + 4096 - 1) / PAGE_SIZE := by
        simp only [PAGE_SIZE] at hfirst ⊢
        omega
      rcases htop with halign | hopen | hentry
      · simp only [PAGE_SIZE] at hfirst halign
        omega
      · refine Or.inl ((accessible_congr ?_).trans hopen)
        rw [pageOf_ofNat (by omega), pageOf_ofNat (by omega), hlast]
      · exact Or.inr ⟨hmapped, Or.inr (hlast ▸ hentry)⟩

/-! ## Exposed heap bytes -/

/-- Ring 3 could not access `a` before and can now. -/
def Gains (v v' : Vmm) (a : Nat) : Prop :=
  accessible v (BitVec.ofNat 32 a) = false ∧ accessible v' (BitVec.ofNat 32 a) = true

/-- A page that a request for ring-3 access would open. -/
def Openable (v : Vmm) (a : Nat) : Prop :=
  vmmIsMapped v (BitVec.ofNat 32 a) = true ∧ accessible v (BitVec.ofNat 32 a) = false

/-- A byte of a block header, or of a live allocation other than the one at `own`. -/
def KernelByte (h : Heap) (own a : Nat) : Prop :=
  ∃ b ∈ h.blocks, b.addr ≤ a ∧ a < b.addr + sizeofBlock
    ∨ b.isFree = false ∧ b.addr + sizeofBlock ≠ own ∧ b.addr + sizeofBlock ≤ a
      ∧ a < b.addr + sizeofBlock + b.size

section Exposed

variable {h' : Heap} {v v' : Vmm} {entry : BitVec 32} {ustack own a : Nat} {bs' : List Seg}
  {c : Seg}

theorem UserMade.gains_iff (hm : UserMade h' v v' entry ustack bs' c) (hv : VmmInv v)
    (ha : a < 2 ^ 32) :
    Gains v v' a ↔ Openable v a
      ∧ (a / PAGE_SIZE = ustack / PAGE_SIZE ∨ a / PAGE_SIZE ∈ entryPages entry) := by
  rw [Gains, hm.accessible hv ha, Openable]
  constructor
  · rintro ⟨hclosed, hopen | ⟨hmapped, hpage⟩⟩
    · rw [hclosed] at hopen
      cases hopen
    · exact ⟨⟨hmapped, hclosed⟩, hpage⟩
  · rintro ⟨⟨hmapped, hclosed⟩, hpage⟩
    exact ⟨hclosed, Or.inr ⟨hmapped, hpage⟩⟩

theorem Openable.congr {b : Nat} (h : Openable v a) (ha : a < 2 ^ 32) (hb : b < 2 ^ 32)
    (hpage : a / PAGE_SIZE = b / PAGE_SIZE) : Openable v b := by
  have hp : pageOf (BitVec.ofNat 32 a) = pageOf (BitVec.ofNat 32 b) := by
    rw [pageOf_ofNat ha, pageOf_ofNat hb, hpage]
  exact ⟨vmmIsMapped_congr hp ▸ h.1, accessible_congr hp ▸ h.2⟩

theorem KernelByte.bounds (hwf : HeapWf h' bs') (hk : KernelByte h' own a) :
    HEAP_START ≤ a ∧ a < HEAP_START + HEAP_INITIAL := by
  obtain ⟨b, hb, hbyte⟩ := hk
  have hbounds := hwf.mem_bounds (hwf.mem_blocks hb)
  simp only [sizeofBlock] at hbyte
  dsimp only at hbounds
  omega

/-- Bytes of the stack are not kernel bytes. -/
theorem UserMade.own_byte (hm : UserMade h' v v' entry ustack bs' c) (hlo : ustack ≤ a)
    (hhi : a < ustack + TASK_STACK_SIZE) : ¬KernelByte h' ustack a := by
  rintro ⟨b, hb, hbyte⟩
  have hmem := (List.mem_filter.mp hm.block).1
  have hsize := hm.size
  have hstack := hm.stack
  by_cases hne : c.addr = b.addr
  · simp only [sizeofBlock] at hbyte
    omega
  · have := header_disjoint hm.wf.canon.tiles hmem (hm.wf.mem_blocks hb) hne
    simp only [sizeofBlock] at hbyte
    dsimp only at this
    omega

/-- The byte before the stack belongs to its header. -/
theorem UserMade.header_byte (hm : UserMade h' v v' entry ustack bs' c) :
    KernelByte h' ustack (ustack - 1) := by
  obtain ⟨b, hb, heq⟩ := hm.wf.exists_block (List.mem_filter.mp hm.block).1
  have haddr : b.addr = c.addr := congrArg Seg.addr heq
  have hstack := hm.stack
  refine ⟨b, hb, Or.inl ?_⟩
  simp only [sizeofBlock]
  omega

/-- The heap starts with a header. -/
theorem HeapWf.first_byte (hwf : HeapWf h' bs') : KernelByte h' own HEAP_START := by
  have hcovers := hwf.repInv.covers
  cases hbs : h'.blocks with
  | nil =>
      rw [hbs] at hcovers
      exact hcovers.elim
  | cons b l =>
      have haddr : b.addr = HEAP_START := by
        rw [hbs] at hcovers
        cases l with
        | nil => exact hcovers.1
        | cons => exact hcovers.1
      exact ⟨b, by rw [hbs]; exact List.mem_cons_self .., Or.inl ⟨by omega, by
        rw [haddr, sizeofBlock]; omega⟩⟩

/-- The page of an address and the next one. -/
theorem mem_entryPages {p : Nat} :
    p ∈ entryPages entry ↔ p = pageOf entry ∨ p = (pageOf entry + 1) % 2 ^ 20 := by
  have hlt := entry.isLt
  have hdown : pageOf (pageAlignDown entry) = pageOf entry := by
    rw [pageOf, pageAlignDown, Word.toNat_page, pageOf, PAGE_SIZE]
    omega
  have hnext : pageOf (pageAlignDown entry + BitVec.ofNat 32 PAGE_SIZE)
      = (pageOf entry + 1) % 2 ^ 20 := by
    rw [pageOf, BitVec.toNat_add, pageAlignDown, Word.toNat_page, BitVec.toNat_ofNat, pageOf,
      PAGE_SIZE]
    omega
  rw [entryPages, hdown, hnext, List.mem_pair]

/-- The heap is a range of whole pages, so for an entry outside only its first page can be
a page of code. -/
theorem heap_entryPage
    (hentry : entry.toNat < HEAP_START ∨ HEAP_START + HEAP_INITIAL ≤ entry.toNat)
    (ha : HEAP_START ≤ a ∧ a < HEAP_START + HEAP_INITIAL)
    (hpage : a / PAGE_SIZE ∈ entryPages entry) :
    pageOf entry + 1 = HEAP_START / PAGE_SIZE ∧ a / PAGE_SIZE = HEAP_START / PAGE_SIZE := by
  have hlt := entry.isLt
  simp only [HEAP_START, HEAP_INITIAL, PAGE_SIZE, pageOf] at *
  rcases mem_entryPages.mp hpage with hsame | hnext
  · simp only [pageOf, PAGE_SIZE] at hsame
    omega
  · simp only [pageOf, PAGE_SIZE] at hnext
    omega

/-- An unaligned stack opens the header before it, unless its page stays as it was. -/
theorem UserMade.header_gained (hm : UserMade h' v v' entry ustack bs' c) (hv : VmmInv v)
    (halign : ustack % PAGE_SIZE ≠ 0) (hopen : Openable v ustack) : Gains v v' (ustack - 1) := by
  have hb := hm.bounds
  simp only [HEAP_START, HEAP_INITIAL, TASK_STACK_SIZE] at hb
  have hpage : (ustack - 1) / PAGE_SIZE = ustack / PAGE_SIZE := by
    simp only [PAGE_SIZE] at halign ⊢
    omega
  refine (hm.gains_iff hv (by omega)).mpr ⟨?_, Or.inl hpage⟩
  exact hopen.congr (by omega) (by omega) hpage.symm

/-- Code right below the heap opens its first page, unless that stays as it was. -/
theorem UserMade.first_gained (hm : UserMade h' v v' entry ustack bs' c) (hv : VmmInv v)
    (hnext : pageOf entry + 1 = HEAP_START / PAGE_SIZE) (hopen : Openable v HEAP_START) :
    Gains v v' HEAP_START := by
  refine (hm.gains_iff hv (by decide)).mpr ⟨hopen, Or.inr ?_⟩
  rw [mem_entryPages]
  exact Or.inr (by rw [hnext]; rfl)

end Exposed

/-- **What a user stack exposes.** With the entry function outside the heap, the call opens
no kernel byte of the heap to ring 3 exactly when the stack is aligned or its first page
stays as it was, and likewise the heap's first page is not the second page of code or
stays as it was. -/
theorem no_heap_exposed_iff {taskExitAddr : BitVec 32} {sys : TaskSys}
    (h : TaskReach taskExitAddr sys) (hv : VmmInv sys.vmm) {entry : BitVec 32}
    (hentry : entry.toNat < HEAP_START ∨ HEAP_START + HEAP_INITIAL ≤ entry.toNat)
    {name : Option String} {id : Nat} {s' : Sched} {h' : Heap} {v' : Vmm}
    (hc : taskCreateUser sys.sched sys.run.heap sys.vmm entry name = (id, s', h', v'))
    (hid : id ≠ noTask) :
    (∀ a, KernelByte h' (s'.tasks id).userStackBase a → ¬Gains sys.vmm v' a)
      ↔ (userStackOn sys.run.heap % PAGE_SIZE = 0
          ∨ ¬Openable sys.vmm (userStackOn sys.run.heap))
        ∧ (pageOf entry + 1 ≠ HEAP_START / PAGE_SIZE ∨ ¬Openable sys.vmm HEAP_START) := by
  obtain ⟨bs, hwf, -, -⟩ := taskReach_inv h
  obtain ⟨bs', c, hm⟩ := taskCreateUser_made hwf hc hid
  rw [← taskCreateUser_ustack hc hid]
  generalize (s'.tasks id).userStackBase = ustack at hm ⊢
  constructor
  · intro hnone
    refine ⟨?_, ?_⟩
    · by_contra hcon
      rw [not_or, not_not] at hcon
      exact hnone _ hm.header_byte (hm.header_gained hv hcon.1 hcon.2)
    · by_contra hcon
      rw [not_or, not_not, not_not] at hcon
      exact hnone _ hm.wf.first_byte (hm.first_gained hv hcon.1 hcon.2)
  · rintro ⟨hstack, hcode⟩ a hk hgain
    have hb := hm.bounds
    have hbounds := hk.bounds hm.wf
    have hlt : a < 2 ^ 32 := Nat.lt_trans hbounds.2 (by decide)
    obtain ⟨hopen, hpage | hpage⟩ := (hm.gains_iff hv hlt).mp hgain
    · rcases hstack with halign | hclosed
      · -- the page is the stack
        simp only [PAGE_SIZE] at halign hpage
        exact hm.own_byte (by omega) (by simp only [TASK_STACK_SIZE]; omega) hk
      · simp only [HEAP_START, HEAP_INITIAL, TASK_STACK_SIZE] at hb
        exact hclosed (hopen.congr hlt (by omega) hpage)
    · obtain ⟨hnext, hfirst⟩ := heap_entryPage hentry hbounds hpage
      rcases hcode with hne | hclosed
      · exact hne hnext
      · exact hclosed (hopen.congr hlt (by decide) hfirst)

/-! ## The first user task -/

section Sample

/-- The state a call leaves. Irreducible, so that the tables of a given machine are not
evaluated. -/
@[irreducible] def stateOf (r : Int × Vmm) : Vmm := r.2

theorem stateOf_eq (r : Int × Vmm) : stateOf r = r.2 := by
  unfold stateOf
  rfl

/-- The first 4 MiB mapped, nothing open to ring 3. -/
def lowVmm : Vmm := stateOf (vmmInit sampleVmm)

theorem lowVmm_identity : IdentityTables lowVmm 1 := by
  have hgrants : InitGrants FreshFrame (initCount sampleVmm) 0 (clearVmm sampleVmm) :=
    sampleVmm_grants ⟨by decide, fun k hk => by
      rw [(clearVmm_spec sampleVmm).above k (Nat.zero_le k)] at hk
      cases hk⟩
  have hspec := (vmmInit_spec hgrants sampleVmm_init).1
  rw [sampleVmm_initCount, ← stateOf_eq] at hspec
  exact hspec

theorem lowVmm_mapped {a : BitVec 32} (ha : a.toNat < 0x400000) : vmmIsMapped lowVmm a = true := by
  have hpd : pdIndex a = 0 := by
    rw [pdIndex_eq, pageOf, PAGE_SIZE]
    omega
  rw [vmmIsMapped_eq, hpd, lowVmm_identity.below 0 _ Nat.zero_lt_one (ptIndex_lt a)]
  rfl

theorem lowVmm_heap : HeapMapped lowVmm := by
  intro a hlo hhi
  simp only [HEAP_START, HEAP_INITIAL] at hlo hhi
  exact lowVmm_mapped (by rw [BitVec.toNat_ofNat]; omega)

theorem lowVmm_closed (a : BitVec 32) : accessible lowVmm a = false := by
  rw [accessible_eq lowVmm_identity.inv]
  cases he : lowVmm.entryAt a with
  | none => rfl
  | some e => simp [identity_user lowVmm_identity he]

/-- After boot, with the first 4 MiB mapped. -/
def mappedSys : TaskSys := ⟨bootSys.sched, bootSys.run, lowVmm⟩

theorem mappedSys_reach : TaskReach 0#32 mappedSys :=
  TaskReach.init ⟨fun _ => zeroTask, 0, 0, false, false, 0xDEAD⟩ ⟨heapInit fun _ => 0#8, []⟩
    (.init fun _ => 0#8) lowVmm

theorem mappedSys_vmm : mappedSys.vmm = lowVmm := rfl

/-- The second block of one page on an empty heap starts 32 bytes into a page. -/
theorem mappedSys_ustack :
    (kmalloc mappedSys.run.heap TASK_STACK_SIZE).1 = 0x200010
      ∧ (kmalloc (kmalloc mappedSys.run.heap TASK_STACK_SIZE).2 TASK_STACK_SIZE).1 = 0x201020 := by
  decide +kernel

/-- The first user task, its code at 1 MiB. -/
theorem mappedSys_created : ∃ s' h' v',
    taskCreateUser mappedSys.sched mappedSys.run.heap mappedSys.vmm 0x100000#32 none
        = (1, s', h', v')
      ∧ (s'.tasks 1).userStackBase = 0x201020 ∧ (s'.tasks 1).stackBase = 0x200010
      ∧ (s'.tasks 1).kernelStackTop = 0x201010 := by
  obtain ⟨hk, hu⟩ := mappedSys_ustack
  have hcount : mappedSys.sched.count = 1 := rfl
  simp only [taskCreateUser, hcount, hk, hu]
  exact ⟨_, _, _, rfl, rfl, rfl, rfl⟩

/-- The top 32 bytes of its stack are closed to it: the first push faults. -/
theorem user_stack_top_closed :
    ∃ s' h' v', TaskReach 0#32 mappedSys ∧ HeapMapped mappedSys.vmm
      ∧ taskCreateUser mappedSys.sched mappedSys.run.heap mappedSys.vmm 0x100000#32 none
        = (1, s', h', v')
      ∧ (s'.tasks 1).userStackBase + TASK_STACK_SIZE = 0x202020
      ∧ ∀ a, 0x202000 ≤ a → a < 0x202020 → accessible v' (BitVec.ofNat 32 a) = false := by
  obtain ⟨s', h', v', hc, hu, -⟩ := mappedSys_created
  obtain ⟨bs, hwf, -, -⟩ := taskReach_inv mappedSys_reach
  obtain ⟨bs', c, hm⟩ := taskCreateUser_made hwf hc (by decide)
  refine ⟨s', h', v', mappedSys_reach, lowVmm_heap, hc, by rw [hu]; rfl, fun a hlo hhi => ?_⟩
  have hpage : a / PAGE_SIZE = 0x202 := by
    simp only [PAGE_SIZE]
    omega
  rw [← Bool.not_eq_true, hm.accessible lowVmm_identity.inv (by omega), mappedSys_vmm,
    lowVmm_closed, hpage, hu]
  rintro (hopen | ⟨-, hopen⟩)
  · cases hopen
  · exact absurd hopen (by decide)

theorem user_stack_open_iff_first :
    ∃ s' h' v', taskCreateUser mappedSys.sched mappedSys.run.heap mappedSys.vmm 0x100000#32 none
        = (1, s', h', v')
      ∧ ((∀ a, (s'.tasks 1).userStackBase ≤ a → a < (s'.tasks 1).userStackBase + TASK_STACK_SIZE →
          accessible v' (BitVec.ofNat 32 a) = true)
        ↔ TopPageOpen mappedSys.vmm (userStackOn mappedSys.run.heap) 0x100000#32) := by
  obtain ⟨s', h', v', hc, -⟩ := mappedSys_created
  exact ⟨s', h', v', hc, user_stack_open_iff mappedSys_reach lowVmm_identity.inv lowVmm_heap hc
    (by decide)⟩

/-- Ring 3 gets to see the header of the stack and the end of the task's own kernel
stack. -/
theorem user_stack_exposes_heap :
    ∃ s' h' v', TaskReach 0#32 mappedSys
      ∧ taskCreateUser mappedSys.sched mappedSys.run.heap mappedSys.vmm 0x100000#32 none
        = (1, s', h', v')
      ∧ KernelByte h' (s'.tasks 1).userStackBase 0x20101F ∧ Gains mappedSys.vmm v' 0x20101F
      ∧ (s'.tasks 1).stackBase ≤ 0x201000 ∧ 0x201000 < (s'.tasks 1).kernelStackTop
      ∧ Gains mappedSys.vmm v' 0x201000 := by
  obtain ⟨s', h', v', hc, hu, hk, htop⟩ := mappedSys_created
  obtain ⟨bs, hwf, -, -⟩ := taskReach_inv mappedSys_reach
  obtain ⟨bs', c, hm⟩ := taskCreateUser_made hwf hc (by decide)
  have hgain : ∀ a, a / PAGE_SIZE = 0x201 → Gains mappedSys.vmm v' a := by
    intro a hpage
    simp only [PAGE_SIZE] at hpage
    refine (hm.gains_iff lowVmm_identity.inv (by omega)).mpr
      ⟨⟨lowVmm_mapped (by rw [BitVec.toNat_ofNat]; omega), lowVmm_closed _⟩, Or.inl ?_⟩
    rw [hu, PAGE_SIZE]
    omega
  have hheader := hm.header_byte
  rw [hu] at hheader
  refine ⟨s', h', v', mappedSys_reach, hc, by rwa [hu], hgain _ (by decide), by rw [hk]; decide,
    by rw [htop]; decide, hgain _ (by decide)⟩

theorem no_heap_exposed_iff_first :
    ∃ s' h' v', taskCreateUser mappedSys.sched mappedSys.run.heap mappedSys.vmm 0x100000#32 none
        = (1, s', h', v')
      ∧ ((∀ a, KernelByte h' (s'.tasks 1).userStackBase a → ¬Gains mappedSys.vmm v' a)
        ↔ (userStackOn mappedSys.run.heap % PAGE_SIZE = 0
            ∨ ¬Openable mappedSys.vmm (userStackOn mappedSys.run.heap))
          ∧ (pageOf 0x100000#32 + 1 ≠ HEAP_START / PAGE_SIZE
            ∨ ¬Openable mappedSys.vmm HEAP_START)) := by
  obtain ⟨s', h', v', hc, -⟩ := mappedSys_created
  exact ⟨s', h', v', hc, no_heap_exposed_iff mappedSys_reach lowVmm_identity.inv
    (Or.inl (by decide)) hc (by decide)⟩

end Sample

end Matryoshka
