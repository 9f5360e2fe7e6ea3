import Matryoshka.PmmMap

/-!
# Laws of the frame allocator

First fit, agreement of the two allocators, release as the inverse of
allocation, and failure without effect. The last three are about the
states that PMM calls with arbitrary arguments can reach (`PmmCalled`);
queries do not change the state and are left out.

Two facts about such states carry the proofs: frame numbers stay below
2^52, so an address determines its frame, and the counter stays a 64-bit
number. What the laws depend on beyond that is whether frame 0 is free,
whose address is also the failure answer, and whether a free frame lies in
a full word of the bitmap, the only ones `find_free_frame` visits.
-/

namespace Matryoshka

/-- Frame `f` exists and is free. -/
def Pmm.IsFree (s : Pmm) (f : Nat) : Prop := f < s.totalFrames ∧ s.isUsed f = false

theorem isUsed_of_not_isFree {s : Pmm} {f : Nat} (hlt : f < s.totalFrames) (h : ¬s.IsFree f) :
    s.isUsed f = true := by
  by_contra hfree
  exact h ⟨hlt, Bool.eq_false_iff.mpr hfree⟩

/-- States reachable by PMM calls that meet `Ok`; `pmm_init` may be called again. -/
inductive PmmCalled (kernelEnd : KernelEnd) (Ok : PmmOp → Prop) : Pmm → Prop
  | boot (mmap : Option (List MmapEntry)) (w : Nat → BitVec 32) :
      PmmCalled kernelEnd Ok (pmmInit kernelEnd mmap (Pmm.static w))
  | init {s : Pmm} (mmap : Option (List MmapEntry)) :
      PmmCalled kernelEnd Ok s → PmmCalled kernelEnd Ok (pmmInit kernelEnd mmap s)
  | call {s : Pmm} (op : PmmOp) (hop : Ok op) :
      PmmCalled kernelEnd Ok s → PmmCalled kernelEnd Ok (op.run s)

def anyCall (_ : PmmOp) : Prop := True

structure PmmBounds (s : Pmm) : Prop where
  total : s.totalFrames ≤ 2 ^ 52
  highest : s.highestAddress < 2 ^ 64
  used : s.usedFrames < 2 ^ 64

section Bounds

variable {kernelEnd : KernelEnd} {Ok : PmmOp → Prop} {s s' : Pmm}

theorem PmmBounds.pmmInit (h : PmmBounds s) (kernelEnd : KernelEnd)
    (mmap : Option (List MmapEntry)) : PmmBounds (pmmInit kernelEnd mmap s) := by
  cases mmap with
  | none => exact h
  | some entries =>
      obtain ⟨hused, hhigh, -⟩ := pmmInit_counter kernelEnd entries h.highest
      refine ⟨?_, hhigh, hused⟩
      rw [pmmInit_totalFrames]
      exact framesOf_le (foldl_scanEntry_highest entries s h.highest)

theorem PmmBounds.inStep (h : PmmBounds s) (hstep : InStep s s') : PmmBounds s' :=
  ⟨hstep.total ▸ h.total, hstep.highest ▸ h.highest, hstep.lt h.used⟩

theorem pmmCalled_bounds (h : PmmCalled kernelEnd Ok s) : PmmBounds s := by
  have hstatic : ∀ w, PmmBounds (Pmm.static w) := fun w =>
    ⟨Nat.zero_le _, Nat.two_pow_pos 64, Nat.two_pow_pos 64⟩
  induction h with
  | boot mmap w => exact (hstatic w).pmmInit kernelEnd mmap
  | init mmap _ ih => exact ih.pmmInit kernelEnd mmap
  | call op _ _ ih => exact ih.inStep (op.run_inStep _)

end Bounds

/-! ## First fit -/

/-- From `s` to `s'` exactly the `n` frames from `a` on are taken. -/
structure TookRun (s s' : Pmm) (a n : Nat) : Prop where
  bits : ∀ g, s'.isUsed g = true ↔ s.isUsed g = true ∨ a ≤ g ∧ g < a + n
  used : s'.usedFrames = u64 (s.usedFrames + n)
  totalFrames : s'.totalFrames = s.totalFrames
  totalMemory : s'.totalMemory = s.totalMemory
  highestAddress : s'.highestAddress = s.highestAddress

section FirstFit

variable {s : Pmm} {a n : Nat}

theorem foldl_markUsed_usedFrames (l : List Nat) (s : Pmm) :
    u64 (l.foldl markUsed s).usedFrames = u64 (s.usedFrames + l.length) := by
  induction l generalizing s with
  | nil => rfl
  | cons f l ih =>
      rw [List.foldl_cons, ih, List.length_cons]
      simp only [markUsed, u64]
      omega

theorem foldl_markUsed_lt {l : List Nat} (hl : l ≠ []) (s : Pmm) :
    (l.foldl markUsed s).usedFrames < 2 ^ 64 := by
  obtain ⟨l, f, rfl⟩ := List.eq_nil_or_concat l |>.resolve_left hl
  rw [List.concat_eq_append, List.foldl_append]
  exact Nat.mod_lt _ (by decide)

theorem tookRun (s : Pmm) (a : Nat) (hn : n ≠ 0) :
    TookRun s (((List.range n).map (a + ·)).foldl markUsed s) a n := by
  refine ⟨fun g => foldl_markUsed_range s a n, ?_, foldl_markUsed_totalFrames _,
    foldl_keeps Pmm.totalMemory markUsed (fun _ _ => rfl) _ s,
    foldl_keeps Pmm.highestAddress markUsed (fun _ _ => rfl) _ s⟩
  have hne : (List.range n).map (a + ·) ≠ [] := by simp [hn]
  have hmod := foldl_markUsed_usedFrames ((List.range n).map (a + ·)) s
  rwa [u64_of_lt (foldl_markUsed_lt hne s), List.length_map, List.length_range] at hmod

end FirstFit

/-- The words of the bitmap have addresses of their own: they take at most 2^32 bytes. -/
def Pmm.BitmapFits (s : Pmm) : Prop := s.totalFrames ≤ 8 * 2 ^ 32

/-- **First fit.** `pmm_alloc_frames(n)` takes the lowest run of `n` free frames if there
is one, and does nothing otherwise. -/
theorem alloc_frames_first_fit (s : Pmm) (hfits : s.BitmapFits) (n : UInt32) (hn : n ≠ 0) :
    ((∃ b, s.FreeRun b n.toNat) → ∃ a, s.FirstFit n.toNat (some a)
        ∧ (pmmAllocFrames s n.toNat).1 = PMM_FRAME_SIZE * a
        ∧ TookRun s (pmmAllocFrames s n.toNat).2 a n.toNat)
      ∧ (¬(∃ b, s.FreeRun b n.toNat) → pmmAllocFrames s n.toNat = (0, s)) := by
  have hn0 : n.toNat ≠ 0 := fun h => hn (UInt32.toNat_inj.mp h)
  rcases pmmAllocFrames_cases s hn0 with ⟨hz, hnone⟩ | ⟨a, hrun, hmin, heq⟩
  · refine ⟨?_, fun _ => hz⟩
    rintro ⟨b, hb⟩
    exact absurd hb (hnone b)
  · refine ⟨fun _ => ⟨a, ⟨hrun, hmin⟩, ?_, ?_⟩, fun h => absurd ⟨a, hrun⟩ h⟩
    · have ha := (hrun 0 (by omega)).1
      rw [Pmm.BitmapFits] at hfits
      rw [heq, Nat.mul_comm]
      exact u64_of_lt (by unfold PMM_FRAME_SIZE; omega)
    · rw [heq]
      exact tookRun s a hn0

/-- Frames 1 and 3 are free, and then all from 31 on. -/
def gappedFrames : Pmm := ⟨fun i => if i = 0 then 0x7FFFFFF5#32 else 0#32, 40, 29, 0, 0⟩

/-- The run crosses from the first word of the bitmap into the second. -/
theorem alloc_frames_first_fit_gapped :
    (pmmAllocFrames gappedFrames 3).1 = PMM_FRAME_SIZE * 31
      ∧ TookRun gappedFrames (pmmAllocFrames gappedFrames 3).2 31 3 := by
  have hfits : gappedFrames.BitmapFits := by
    unfold Pmm.BitmapFits
    decide
  have hrun : gappedFrames.FreeRun 31 (3 : UInt32).toNat := by
    unfold Pmm.FreeRun
    decide
  have hbelow : ∀ b < 31, ¬gappedFrames.FreeRun b (3 : UInt32).toNat := by
    unfold Pmm.FreeRun
    decide
  obtain ⟨a, ⟨hfree, hmin⟩, haddr, htook⟩ :=
    (alloc_frames_first_fit gappedFrames hfits 3 (by decide)).1 ⟨31, hrun⟩
  obtain rfl : a = 31 := by
    rcases Nat.lt_trichotomy a 31 with hlt | heq | hgt
    · exact absurd hfree (hbelow a hlt)
    · exact heq
    · exact absurd hrun (hmin 31 hgt)
  exact ⟨haddr, htook⟩

/-! ## The two allocators -/

/-- `pmm_alloc_frame()` and `pmm_alloc_frames(1)` do the same, and fail only when no
frame is free. -/
structure AllocsAgree (s : Pmm) : Prop where
  addr : (pmmAllocFrame s).1 = (pmmAllocFrames s (1 : UInt32).toNat).1
  frameBitmap : (pmmAllocFrame s).2.frameBitmap
    = (pmmAllocFrames s (1 : UInt32).toNat).2.frameBitmap
  usedFrames : (pmmAllocFrame s).2.usedFrames
    = (pmmAllocFrames s (1 : UInt32).toNat).2.usedFrames
  single : (pmmAllocFrame s).1 = 0 → ∀ f, ¬s.IsFree f
  contiguous : (pmmAllocFrames s (1 : UInt32).toNat).1 = 0 → ∀ f, ¬s.IsFree f

section Agreement

variable {s : Pmm} {f : Nat}

theorem exists_lowest_free (h : s.IsFree f) :
    ∃ k ≤ f, s.IsFree k ∧ ∀ g < k, s.isUsed g = true := by
  induction f using Nat.strong_induction_on with
  | _ f ih =>
      by_cases hlow : ∃ g < f, s.IsFree g
      · obtain ⟨g, hg, hfree⟩ := hlow
        obtain ⟨k, hk, hrest⟩ := ih g hg hfree
        exact ⟨k, by omega, hrest⟩
      · refine ⟨f, Nat.le_refl f, h, fun g hg => ?_⟩
        exact isUsed_of_not_isFree (Nat.lt_trans hg h.1) fun hfree => hlow ⟨g, hg, hfree⟩

theorem pmmAllocFrame_of_used (h : ∀ g, g / 32 < s.totalFrames / 32 → s.isUsed g = true) :
    pmmAllocFrame s = (0, s) := by
  unfold pmmAllocFrame
  cases hfind : findFreeFrame s with
  | none => rfl
  | some g =>
      obtain ⟨i, hi, hword, -⟩ := findSome?_range_eq_some hfind
      obtain ⟨-, hfree, rfl, -⟩ := scanWord_some hword
      rw [h g hi] at hfree
      cases hfree

theorem pmmAllocFrames_of_used (h : ∀ f, ¬s.IsFree f) :
    pmmAllocFrames s (1 : UInt32).toNat = (0, s) := by
  rcases pmmAllocFrames_cases s (show (1 : UInt32).toNat ≠ 0 by decide) with
    ⟨hz, -⟩ | ⟨a, hrun, -⟩
  · exact hz
  · exact absurd (hrun 0 Nat.one_pos) (h _)

/-- A free frame 0 is the first to go, and its address reads as a failure. -/
theorem pmmAllocFrames_zero (h : s.IsFree 0) :
    pmmAllocFrames s (1 : UInt32).toNat = (0, markUsed s 0) :=
  allocFrames_lowest (fun g hg => absurd hg (Nat.not_lt_zero g)) h.1 h.2

theorem allocsAgree_of_lowest (hb : PmmBounds s) (hword : f / 32 < s.totalFrames / 32)
    (hf : s.IsFree f) (hlow : ∀ g < f, s.isUsed g = true) (hzero : f ≠ 0) : AllocsAgree s := by
  have hsingle := pmmAllocFrame_lowest hword hf.2 hlow
  have hcontiguous := allocFrames_lowest hlow hf.1 hf.2
  have haddr := frameToAddr_pos (Nat.lt_of_lt_of_le hf.1 hb.total) hzero
  refine ⟨?_, ?_, ?_, fun h => ?_, fun h => ?_⟩
  · rw [hsingle, hcontiguous]
  · rw [hsingle, hcontiguous]
  · rw [hsingle, hcontiguous]
  · rw [hsingle] at h
    exact absurd h haddr
  · rw [hcontiguous] at h
    exact absurd h haddr

end Agreement

/-- In a reachable state the two allocators agree exactly when frame 0 is not free and,
if any frame is free, one in a full word of the bitmap is. -/
theorem allocators_agree_iff {kernelEnd : KernelEnd} {s : Pmm}
    (h : PmmCalled kernelEnd anyCall s) :
    AllocsAgree s ↔ ¬s.IsFree 0
      ∧ ((∃ f, s.IsFree f) → ∃ f, s.IsFree f ∧ f / 32 < s.totalFrames / 32) := by
  have hb := pmmCalled_bounds h
  constructor
  · intro hagree
    refine ⟨fun hzero => ?_, fun ⟨f, hf⟩ => ?_⟩
    · exact hagree.contiguous (by rw [pmmAllocFrames_zero hzero]) 0 hzero
    · by_contra hnone
      have hused : ∀ g, g / 32 < s.totalFrames / 32 → s.isUsed g = true := fun g hg =>
        isUsed_of_not_isFree (by omega) fun hfree => hnone ⟨g, hfree, hg⟩
      exact hagree.single (by rw [pmmAllocFrame_of_used hused]) f hf
  · rintro ⟨hzero, hfull⟩
    by_cases hany : ∃ f, s.IsFree f
    · obtain ⟨f, hf, hword⟩ := hfull hany
      obtain ⟨k, hk, hkfree, hlow⟩ := exists_lowest_free hf
      refine allocsAgree_of_lowest hb (by omega) hkfree hlow fun heq => ?_
      exact hzero (heq ▸ hkfree)
    · have hnone : ∀ f, ¬s.IsFree f := fun f hf => hany ⟨f, hf⟩
      have hsingle : pmmAllocFrame s = (0, s) := pmmAllocFrame_of_used fun g hg =>
        isUsed_of_not_isFree (by omega) (hnone g)
      have hcontiguous := pmmAllocFrames_of_used hnone
      rw [← hcontiguous] at hsingle
      exact ⟨congrArg Prod.fst hsingle, congrArg (·.2.frameBitmap) hsingle,
        congrArg (·.2.usedFrames) hsingle, fun _ => hnone, fun _ => hnone⟩

/-- A machine of 310 frames, of which 290 to 309 are free after `pmm_init`. -/
def tailMmap : List MmapEntry := [⟨0, 0x9FC00, 1⟩, ⟨0x100000, 0x36000, 1⟩]

@[irreducible] def tailPmm : Pmm :=
  pmmInit sampleKernelEnd (some tailMmap) (Pmm.static fun _ => 0#32)

theorem tailPmm_called (Ok : PmmOp → Prop) : PmmCalled sampleKernelEnd Ok tailPmm := by
  unfold tailPmm
  exact PmmCalled.boot _ _

theorem tailPmm_totalFrames : tailPmm.totalFrames = 310 := by
  unfold tailPmm
  rw [pmmInit_mapFrames]
  decide

theorem tailPmm_isFree {f : Nat} : tailPmm.IsFree f ↔ 290 ≤ f ∧ f < 310 := by
  have hcov : ∀ f < 310, (lastReserved sampleKernelEnd tailMmap < f
      ∧ ∃ e ∈ tailMmap, e.Covers f) ↔ 290 ≤ f := by decide +kernel
  have hiff : tailPmm.IsFree f ↔
      lastReserved sampleKernelEnd tailMmap < f ∧ ∃ e ∈ tailMmap, e.Covers f := by
    unfold tailPmm
    exact pmmInit_free_iff
  constructor
  · intro h
    have hlt := h.1
    rw [tailPmm_totalFrames] at hlt
    exact ⟨(hcov f hlt).mp (hiff.mp h), hlt⟩
  · rintro ⟨hlo, hhi⟩
    exact hiff.mpr ((hcov f hhi).mpr hlo)

theorem tailPmm_isUsed (g : Nat) (hg : g < 290) : tailPmm.isUsed g = true := by
  refine isUsed_of_not_isFree (by rw [tailPmm_totalFrames]; omega) fun hfree => ?_
  have := tailPmm_isFree.mp hfree
  omega

/-- Right after `pmm_init` the one call finds nothing and the other takes frame 290. -/
theorem tail_frames_missed :
    PmmCalled sampleKernelEnd anyCall tailPmm ∧ (pmmAllocFrame tailPmm).1 = 0
      ∧ (pmmAllocFrames tailPmm (1 : UInt32).toNat).1 = 0x122000 ∧ ¬AllocsAgree tailPmm := by
  have htotal := tailPmm_totalFrames
  have hsingle : pmmAllocFrame tailPmm = (0, tailPmm) :=
    pmmAllocFrame_of_used fun g hg => tailPmm_isUsed g (by omega)
  have hfree : tailPmm.IsFree 290 := tailPmm_isFree.mpr (by decide)
  refine ⟨tailPmm_called anyCall, by rw [hsingle], ?_, fun h => ?_⟩
  · rw [allocFrames_lowest tailPmm_isUsed hfree.1 hfree.2]
    decide
  · exact h.single (by rw [hsingle]) 290 hfree

theorem allocators_agree_sample : AllocsAgree samplePmm := by
  have hcalled : PmmCalled sampleKernelEnd anyCall samplePmm := by
    unfold samplePmm
    exact PmmCalled.boot _ _
  have hiff : ∀ f, samplePmm.IsFree f ↔
      lastReserved sampleKernelEnd sampleMmap < f ∧ ∃ e ∈ sampleMmap, e.Covers f := by
    unfold samplePmm
    exact fun f => pmmInit_free_iff
  have hfree : samplePmm.IsFree 293 := (hiff 293).mpr (by decide)
  refine (allocators_agree_iff hcalled).mpr ⟨fun h => ?_, fun _ => ⟨293, hfree, ?_⟩⟩
  · exact Nat.not_lt_zero _ ((hiff 0).mp h).1
  · rw [samplePmm_totalFrames]
    decide

/-! ## Releasing what was allocated -/

/-- The bitmap and the counter are the same. -/
def FramesKept (s s' : Pmm) : Prop :=
  s'.frameBitmap = s.frameBitmap ∧ s'.usedFrames = s.usedFrames

section Release

variable {s s' : Pmm} {a n g : Nat}

theorem frameBitmap_eq (h : ∀ g, s'.isUsed g = true ↔ s.isUsed g = true) :
    s'.frameBitmap = s.frameBitmap :=
  Bitmap.ext fun g => Bool.eq_iff_iff.mpr (h g)

/-- `i * PMM_FRAME_SIZE` wraps at 2^20 frames: what was allocated beyond them stays. -/
theorem freed_run_isUsed (ht : s.totalFrames ≤ 2 ^ 52) (hrun : s.FreeRun a n) :
    (pmmFreeFrames (((List.range n).map (a + ·)).foldl markUsed s) (frameToAddr a) n).isUsed g
        = true ↔
      s.isUsed g = true ∨ a + 2 ^ 20 ≤ g ∧ g < a + n := by
  have hframe : ∀ i < n, freedFrame (frameToAddr a) i = a + i % 2 ^ 20 := by
    intro i hi
    have hlt := (hrun i hi).1
    have ha : addrToFrame (frameToAddr a) = a := addrToFrame_frameToAddr (by omega)
    rw [freedFrame_eq (by omega), ha]
  have hrange : ∀ g, a ≤ g → g < a + n → g < s.totalFrames ∧ s.isUsed g = false := by
    intro g hlo hhi
    have := hrun (g - a) (by omega)
    rwa [show a + (g - a) = g by omega] at this
  rw [pmmFreeFrames_isUsed, foldl_markUsed_range, foldl_markUsed_totalFrames]
  constructor
  · rintro ⟨hu | hin, hkept⟩
    · exact Or.inl hu
    · refine Or.inr ⟨?_, hin.2⟩
      by_contra hlow
      refine hkept ⟨⟨g - a, by omega, ?_⟩, (hrange g hin.1 hin.2).1⟩
      rw [hframe _ (by omega), Nat.mod_eq_of_lt (by omega)]
      omega
  · intro h
    refine ⟨h.imp_right fun hin => ⟨by omega, hin.2⟩, ?_⟩
    rintro ⟨⟨i, hi, heq⟩, -⟩
    rw [hframe i hi] at heq
    have hmod := Nat.mod_lt i (Nat.two_pow_pos 20)
    have hle := Nat.mod_le i (2 ^ 20)
    rcases h with hu | hin
    · rw [(hrange g (by omega) (by omega)).2] at hu
      cases hu
    · omega

theorem not_framesKept_of_large (ht : s.totalFrames ≤ 2 ^ 52) (hrun : s.FreeRun a n)
    (hn : 2 ^ 20 < n) : ¬FramesKept s
      (pmmFreeFrames (((List.range n).map (a + ·)).foldl markUsed s) (frameToAddr a) n) := by
  rintro ⟨hbits, -⟩
  have hkept := (freed_run_isUsed (g := a + 2 ^ 20) ht hrun).mpr (Or.inr ⟨by omega, by omega⟩)
  rw [Pmm.isUsed, hbits] at hkept
  have hfree := (hrun (2 ^ 20) hn).2
  rw [Pmm.isUsed, hkept] at hfree
  cases hfree

/-- Two steps that leave the bits as they were leave the counter as it was. -/
theorem InStep.usedFrames_eq (h : InStep s s') (hu : s.usedFrames < 2 ^ 64)
    (hbits : s'.frameBitmap = s.frameBitmap) : s'.usedFrames = s.usedFrames := by
  have hcount : s'.setBits = s.setBits := by
    rw [Pmm.setBits, Pmm.setBits, h.total]
    refine List.countP_congr fun g _ => ?_
    rw [Pmm.isUsed, Pmm.isUsed, hbits]
  have hmod := h.used
  rw [hcount, Nat.add_zero] at hmod
  exact (Nat.ModEq.add_right_cancel' _ hmod).eq_of_lt_of_lt (h.lt hu) hu

end Release

/-- In a reachable state `pmm_free_frames` undoes `pmm_alloc_frames` exactly for counts
of at most 2^20 frames. -/
theorem free_undoes_alloc_iff {kernelEnd : KernelEnd} {s : Pmm}
    (h : PmmCalled kernelEnd anyCall s) (n : UInt32) (hn : n ≠ 0)
    (haddr : (pmmAllocFrames s n.toNat).1 ≠ 0) :
    FramesKept s (pmmFreeFrames (pmmAllocFrames s n.toNat).2 (pmmAllocFrames s n.toNat).1 n.toNat)
      ↔ n.toNat ≤ 2 ^ 20 := by
  have hb := pmmCalled_bounds h
  have hn0 : n.toNat ≠ 0 := fun h => hn (UInt32.toNat_inj.mp h)
  have hstep : InStep s (pmmFreeFrames (pmmAllocFrames s n.toNat).2
      (pmmAllocFrames s n.toNat).1 n.toNat) :=
    (pmmAllocFrames_inStep s n.toNat).trans (pmmFreeFrames_inStep _ _ _)
  rcases pmmAllocFrames_cases s hn0 with ⟨hz, -⟩ | ⟨a, hrun, -, heq⟩
  · rw [hz] at haddr
    exact absurd rfl haddr
  · rw [heq] at hstep ⊢
    constructor
    · intro hsame
      by_contra hlarge
      exact not_framesKept_of_large hb.total hrun (Nat.lt_of_not_le hlarge) hsame
    · intro hsmall
      have hbits := frameBitmap_eq (s := s) fun g => by
        rw [freed_run_isUsed (g := g) hb.total hrun]
        constructor
        · rintro (hu | hin)
          · exact hu
          · omega
        · exact Or.inl
      exact ⟨hbits, hstep.usedFrames_eq hb.used hbits⟩

/-- A machine with sixteen gigabytes from the first megabyte on. -/
def largeMmap : List MmapEntry := [⟨0x100000, 0x400000000, 1⟩]

@[irreducible] def largePmm : Pmm :=
  pmmInit sampleKernelEnd (some largeMmap) (Pmm.static fun _ => 0#32)

theorem largePmm_isFree {f : Nat} : largePmm.IsFree f ↔ 418 ≤ f ∧ f < 4194560 := by
  have hlast : lastReserved sampleKernelEnd largeMmap = 417 := by decide
  have hcov : (∃ e ∈ largeMmap, e.Covers f) ↔ 256 ≤ f ∧ f < 4194560 := by
    simp only [largeMmap, List.mem_singleton, exists_eq_left, MmapEntry.Covers]
    exact and_iff_right (by decide)
  unfold largePmm Pmm.IsFree
  rw [pmmInit_free_iff, hlast, hcov]
  omega

theorem largePmm_called : PmmCalled sampleKernelEnd anyCall largePmm := by
  unfold largePmm
  exact PmmCalled.boot _ _

theorem largePmm_alloc {n : Nat} (hn : n ≠ 0) (hmax : 418 + n ≤ 4194560) :
    largePmm.FreeRun 418 n ∧ pmmAllocFrames largePmm n
      = (frameToAddr 418, ((List.range n).map (418 + ·)).foldl markUsed largePmm) := by
  have hrun : largePmm.FreeRun 418 n := fun i hi => largePmm_isFree.mpr (by omega)
  refine ⟨hrun, ?_⟩
  rcases pmmAllocFrames_cases largePmm hn with ⟨-, hnone⟩ | ⟨a, harun, hmin, heq⟩
  · exact absurd hrun (hnone 418)
  · have hlo := largePmm_isFree.mp (harun 0 (by omega))
    obtain rfl : a = 418 := by
      by_contra hne
      exact hmin 418 (by omega) hrun
    exact heq

theorem largePmm_release {n : Nat} (hn : 2 ^ 20 < n) (hmax : 418 + n ≤ 4194560) :
    (pmmAllocFrames largePmm n).1 = 0x1A2000
      ∧ ¬FramesKept largePmm (pmmFreeFrames (pmmAllocFrames largePmm n).2 0x1A2000 n) := by
  obtain ⟨hrun, heq⟩ := largePmm_alloc (by omega) hmax
  have haddr : frameToAddr 418 = 0x1A2000 := by decide
  rw [heq, ← haddr]
  exact ⟨rfl, not_framesKept_of_large (pmmCalled_bounds largePmm_called).total hrun hn⟩

/-- One frame more than 4 GiB is allocated and released, and frame 2^20 of it stays used. -/
theorem large_release_incomplete :
    PmmCalled sampleKernelEnd anyCall largePmm
      ∧ (pmmAllocFrames largePmm (0x100001 : UInt32).toNat).1 = 0x1A2000
      ∧ ¬FramesKept largePmm (pmmFreeFrames (pmmAllocFrames largePmm (0x100001 : UInt32).toNat).2
        0x1A2000 (0x100001 : UInt32).toNat) :=
  ⟨largePmm_called, largePmm_release (by decide) (by decide)⟩

theorem free_undoes_alloc_page :
    FramesKept largePmm (pmmFreeFrames (pmmAllocFrames largePmm (3 : UInt32).toNat).2
      (pmmAllocFrames largePmm (3 : UInt32).toNat).1 (3 : UInt32).toNat) := by
  have haddr : (pmmAllocFrames largePmm (3 : UInt32).toNat).1 ≠ 0 := by
    rw [(largePmm_alloc (by decide) (by decide)).2]
    decide
  exact (free_undoes_alloc_iff largePmm_called 3 (by decide) haddr).mpr (by decide)

/-! ## Failing without effect -/

/-- A call that answers 0 leaves the bitmap and the counter alone. -/
structure FailsClean (s : Pmm) : Prop where
  single : (pmmAllocFrame s).1 = 0 → FramesKept s (pmmAllocFrame s).2
  contiguous : ∀ n : UInt32, (pmmAllocFrames s n.toNat).1 = 0 →
    FramesKept s (pmmAllocFrames s n.toNat).2

/-- No address the call frees is in frame 0. -/
def KeepsFrameZero : PmmOp → Prop
  | .freeFrame addr => addrToFrame addr.toNat ≠ 0
  | .freeFrames addr count => ∀ i < count.toNat, freedFrame addr.toNat i ≠ 0
  | _ => True

section Failing

variable {kernelEnd : KernelEnd} {s : Pmm}

theorem not_framesKept_markUsed {f : Nat} (hf : s.IsFree f) : ¬FramesKept s (markUsed s f) := by
  rintro ⟨hbits, -⟩
  have hnow : (markUsed s f).isUsed f = true := by simp [markUsed_isUsed]
  rw [Pmm.isUsed, hbits] at hnow
  have hfree := hf.2
  rw [Pmm.isUsed, hnow] at hfree
  cases hfree

theorem failsClean_of_zero_kept (ht : s.totalFrames ≤ 2 ^ 52) (hzero : ¬s.IsFree 0) :
    FailsClean s := by
  have hpos : ∀ f, s.IsFree f → frameToAddr f ≠ 0 := fun f hf =>
    frameToAddr_pos (Nat.lt_of_lt_of_le hf.1 ht) fun h => hzero (h ▸ hf)
  refine ⟨fun hfail => ?_, fun n hfail => ?_⟩
  · rcases pmmAllocFrame_cases s with h | ⟨f, hlt, hfree, h⟩
    · rw [h]
      exact ⟨rfl, rfl⟩
    · rw [h] at hfail
      exact absurd hfail (hpos f ⟨hlt, hfree⟩)
  · by_cases hn : n.toNat = 0
    · rw [pmmAllocFrames, if_pos hn]
      exact ⟨rfl, rfl⟩
    · rcases pmmAllocFrames_cases s hn with ⟨h, -⟩ | ⟨a, hrun, -, h⟩
      · rw [h]
        exact ⟨rfl, rfl⟩
      · rw [h] at hfail
        exact absurd hfail (hpos a (hrun 0 (by omega)))

theorem zero_kept_of_failsClean (h : FailsClean s) : ¬s.IsFree 0 := by
  intro hzero
  have hsame := h.contiguous 1 (by rw [pmmAllocFrames_zero hzero])
  rw [pmmAllocFrames_zero hzero] at hsame
  exact not_framesKept_markUsed hzero hsame

theorem not_isFree_zero_pmmInit (kernelEnd : KernelEnd) (mmap : Option (List MmapEntry))
    (hb : PmmBounds s) (hs : ¬s.IsFree 0) : ¬(pmmInit kernelEnd mmap s).IsFree 0 := by
  cases mmap with
  | none => exact hs
  | some entries =>
      rintro ⟨hlt, hfree⟩
      rw [(pmmInit_isUsed_from kernelEnd entries hb.highest hlt).mpr
        (Or.inr (Nat.zero_le _))] at hfree
      cases hfree

/-- Only a release can make frame 0 free. -/
theorem isFree_zero_of_run {op : PmmOp} (hop : KeepsFrameZero op) (h : (op.run s).IsFree 0)
    (ht : s.totalFrames ≤ 2 ^ 52) : s.IsFree 0 := by
  have hlt : 0 < s.totalFrames := (op.run_inStep s).total ▸ h.1
  refine ⟨hlt, ?_⟩
  by_contra hused
  rw [Bool.not_eq_false] at hused
  have hnow : (op.run s).isUsed 0 = true := by
    cases op with
    | allocFrame =>
        rcases pmmAllocFrame_cases s with heq | ⟨f, -, -, heq⟩
        · rwa [PmmOp.run, heq]
        · rw [PmmOp.run, heq, markUsed_isUsed, hused, Bool.or_true]
    | allocFrames count =>
        by_cases hn : count.toNat = 0
        · rwa [PmmOp.run, pmmAllocFrames, if_pos hn]
        · rcases pmmAllocFrames_cases s hn with ⟨heq, -⟩ | ⟨a, -, -, heq⟩
          · rwa [PmmOp.run, heq]
          · rw [PmmOp.run, heq]
            exact (foldl_markUsed_range ..).mpr (Or.inl hused)
    | freeFrame addr => exact pmmFreeFrame_isUsed.mpr ⟨hused, fun hz => hop hz.1.symm⟩
    | freeFrames addr count =>
        refine (pmmFreeFrames_isUsed ..).mpr ⟨hused, ?_⟩
        rintro ⟨⟨i, hi, hz⟩, -⟩
        exact hop i hi hz.symm
    | reserveFrame addr => exact pmmReserveFrame_isUsed.mpr (Or.inl hused)
    | reserveRegion start stop => exact (pmmReserveRegion_isUsed ht ..).mpr (Or.inl hused)
  exact Bool.false_ne_true (h.2.symm.trans hnow)

theorem zero_kept_of_called (h : PmmCalled kernelEnd KeepsFrameZero s) : ¬s.IsFree 0 := by
  have hstatic : ∀ w, ¬(Pmm.static w).IsFree 0 := fun w hz => Nat.not_lt_zero 0 hz.1
  induction h with
  | boot mmap w =>
      exact not_isFree_zero_pmmInit kernelEnd mmap
        ⟨Nat.zero_le _, Nat.two_pow_pos 64, Nat.two_pow_pos 64⟩ (hstatic w)
  | init mmap hs ih => exact not_isFree_zero_pmmInit kernelEnd mmap (pmmCalled_bounds hs) ih
  | call op hop hs ih =>
      exact fun hz => ih (isFree_zero_of_run hop hz (pmmCalled_bounds hs).total)

end Failing

/-- In every run that frees no address in frame 0 a failed allocation changes nothing.
In any other reachable state that holds exactly while frame 0 is not free. -/
theorem failed_alloc_clean (kernelEnd : KernelEnd) :
    (∀ s, PmmCalled kernelEnd KeepsFrameZero s → FailsClean s)
      ∧ ∀ s, PmmCalled kernelEnd anyCall s → (FailsClean s ↔ ¬s.IsFree 0) := by
  refine ⟨fun s h => ?_, fun s h => ?_⟩
  · exact failsClean_of_zero_kept (pmmCalled_bounds h).total (zero_kept_of_called h)
  · exact ⟨zero_kept_of_failsClean, failsClean_of_zero_kept (pmmCalled_bounds h).total⟩

/-- The boot code frees the answer of a failed allocation; the next one gets frame 0. -/
theorem freed_zero_allocated :
    PmmCalled sampleKernelEnd anyCall ((PmmOp.freeFrame 0).run tailPmm)
      ∧ (pmmAllocFrame tailPmm).1 = 0
      ∧ (pmmAllocFrame ((PmmOp.freeFrame 0).run tailPmm)).1 = 0
      ∧ ¬FramesKept ((PmmOp.freeFrame 0).run tailPmm)
        (pmmAllocFrame ((PmmOp.freeFrame 0).run tailPmm)).2 := by
  have htotal : ((PmmOp.freeFrame 0).run tailPmm).totalFrames = 310 :=
    pmmFreeFrame_totalFrames.trans tailPmm_totalFrames
  have hfree : ((PmmOp.freeFrame 0).run tailPmm).IsFree 0 := by
    refine ⟨by omega, Bool.eq_false_iff.mpr fun h => ?_⟩
    exact (pmmFreeFrame_isUsed.mp h).2 ⟨rfl, by rw [tailPmm_totalFrames]; decide⟩
  have halloc := pmmAllocFrame_lowest (by omega) hfree.2
    fun g hg => absurd hg (Nat.not_lt_zero g)
  refine ⟨(tailPmm_called anyCall).call _ trivial, ?_, ?_, ?_⟩
  · rw [pmmAllocFrame_of_used fun g hg =>
      tailPmm_isUsed g (by rw [tailPmm_totalFrames] at hg; omega)]
  · rw [halloc]
    rfl
  · rw [halloc]
    exact not_framesKept_markUsed hfree

theorem failed_alloc_clean_tail : FailsClean tailPmm :=
  (failed_alloc_clean sampleKernelEnd).1 tailPmm (tailPmm_called KeepsFrameZero)

end Matryoshka
