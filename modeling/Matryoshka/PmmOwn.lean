import Matryoshka.PmmSpec

/-!
# Ownership of physical frames

Runs of the PMM together with the allocations its clients hold. `FrameStep`
is one allocation or one release; `PmmStep` adds reservations. Clients free
only what they hold, with the count they asked for.
-/

namespace Matryoshka

/-- A non-zero answer of the allocator and the number of frames asked for. -/
structure Alloc where
  addr : Nat
  count : Nat
deriving Repr, DecidableEq

def Alloc.Owns (a : Alloc) (f : Nat) : Prop :=
  addrToFrame a.addr ≤ f ∧ f < addrToFrame a.addr + a.count

def Alloc.Apart (a b : Alloc) : Prop := ∀ f, a.Owns f → ¬b.Owns f

structure PmmRun where
  pmm : Pmm
  held : List Alloc

/-- Address zero is the failure answer, so it is never held. -/
def addHeld (addr count : Nat) (held : List Alloc) : List Alloc :=
  if addr = 0 then held else ⟨addr, count⟩ :: held

inductive FrameStep : PmmRun → PmmRun → Prop
  | allocFrame (r : PmmRun) :
      FrameStep r ⟨(pmmAllocFrame r.pmm).2, addHeld (pmmAllocFrame r.pmm).1 1 r.held⟩
  | allocFrames (r : PmmRun) (count : UInt32) :
      FrameStep r ⟨(pmmAllocFrames r.pmm count.toNat).2,
        addHeld (pmmAllocFrames r.pmm count.toNat).1 count.toNat r.held⟩
  | freeFrame (r : PmmRun) (a : Alloc) (ha : a ∈ r.held) (hc : a.count = 1) :
      FrameStep r ⟨pmmFreeFrame r.pmm a.addr, r.held.erase a⟩
  | freeFrames (r : PmmRun) (a : Alloc) (ha : a ∈ r.held) :
      FrameStep r ⟨pmmFreeFrames r.pmm a.addr a.count, r.held.erase a⟩

inductive PmmStep : PmmRun → PmmRun → Prop
  | frame {r r' : PmmRun} : FrameStep r r' → PmmStep r r'
  | reserveFrame (r : PmmRun) (addr : UInt64) :
      PmmStep r ⟨pmmReserveFrame r.pmm addr.toNat, r.held⟩
  | reserveRegion (r : PmmRun) (start stop : UInt64) :
      PmmStep r ⟨pmmReserveRegion r.pmm start.toNat stop.toNat, r.held⟩

/-- States reachable after `pmm_init`. -/
inductive PmmReach (kernelEnd : KernelEnd) (mmap : Option (List MmapEntry)) : PmmRun → Prop
  | init (w : Nat → BitVec 32) :
      PmmReach kernelEnd mmap ⟨pmmInit kernelEnd mmap (Pmm.static w), []⟩
  | step {r r' : PmmRun} :
      PmmReach kernelEnd mmap r → PmmStep r r' → PmmReach kernelEnd mmap r'

/-! ## The invariant -/

/-- Of the `T` frames, a set `K` of kept ones stays used and unowned; every owned frame is in range,
used, and owned once. -/
structure OwnInv (T : Nat) (K : Nat → Prop) (r : PmmRun) : Prop where
  total : r.pmm.totalFrames = T
  bound : T ≤ 2 ^ 52
  kept : ∀ f, K f → f < T → r.pmm.isUsed f = true
  owned : ∀ a ∈ r.held, ∀ f, a.Owns f → f < T ∧ r.pmm.isUsed f = true ∧ ¬K f
  apart : r.held.Pairwise Alloc.Apart

section Inv

variable {T : Nat} {K : Nat → Prop} {r r' : PmmRun}

theorem Alloc.Apart.symm {a b : Alloc} (h : a.Apart b) : b.Apart a := fun f hb ha => h f ha hb

theorem owns_frameToAddr {f n g : Nat} (h : f < 2 ^ 52) :
    (⟨frameToAddr f, n⟩ : Alloc).Owns g ↔ f ≤ g ∧ g < f + n := by
  simp only [Alloc.Owns, addrToFrame_frameToAddr h]

/-- A fresh run of frames, marked used, joins the held allocations. -/
theorem OwnInv.alloc (h : OwnInv T K r) {s : Pmm} {f n : Nat} (hn : 0 < n)
    (hrun : r.pmm.FreeRun f n) (ht : s.totalFrames = r.pmm.totalFrames)
    (hs : ∀ g, s.isUsed g = true ↔ r.pmm.isUsed g = true ∨ f ≤ g ∧ g < f + n) :
    OwnInv T K ⟨s, addHeld (frameToAddr f) n r.held⟩ := by
  have hf : f < 2 ^ 52 := Nat.lt_of_lt_of_le (h.total ▸ (hrun 0 hn).1) h.bound
  have hfree : ∀ g, f ≤ g → g < f + n → g < T ∧ r.pmm.isUsed g = false := by
    intro g hle hlt
    have := hrun (g - f) (by omega)
    rwa [show f + (g - f) = g by omega, h.total] at this
  have hold : ∀ a ∈ r.held, ∀ g, a.Owns g → g < T ∧ s.isUsed g = true ∧ ¬K g := by
    intro a ha g hg
    obtain ⟨hlt, hused, hk⟩ := h.owned a ha g hg
    exact ⟨hlt, (hs g).mpr (Or.inl hused), hk⟩
  have hkept : ∀ g, K g → g < T → s.isUsed g = true := fun g hk hlt =>
    (hs g).mpr (Or.inl (h.kept g hk hlt))
  unfold addHeld
  split
  · exact ⟨ht.trans h.total, h.bound, hkept, hold, h.apart⟩
  · refine ⟨ht.trans h.total, h.bound, hkept, ?_, List.pairwise_cons.mpr ⟨?_, h.apart⟩⟩
    · intro a ha g hg
      rcases List.mem_cons.mp ha with rfl | ha
      · rw [owns_frameToAddr hf] at hg
        obtain ⟨hlt, hfree⟩ := hfree g hg.1 hg.2
        refine ⟨hlt, (hs g).mpr (Or.inr hg), fun hk => ?_⟩
        rw [h.kept g hk hlt] at hfree
        cases hfree
      · exact hold a ha g hg
    · intro b hb g hg hgb
      rw [owns_frameToAddr hf] at hg
      have := (h.owned b hb g hgb).2.1
      rw [(hfree g hg.1 hg.2).2] at this
      cases this

/-- Clearing only frames that a held allocation owns releases it. -/
theorem OwnInv.free (h : OwnInv T K r) {s : Pmm} {a : Alloc} (ha : a ∈ r.held)
    (ht : s.totalFrames = r.pmm.totalFrames)
    (hs : ∀ g, r.pmm.isUsed g = true → ¬a.Owns g → s.isUsed g = true) :
    OwnInv T K ⟨s, r.held.erase a⟩ := by
  have hap : (a :: r.held.erase a).Pairwise Alloc.Apart :=
    ((List.perm_cons_erase ha).pairwise_iff Alloc.Apart.symm).mp h.apart
  rw [List.pairwise_cons] at hap
  refine ⟨ht.trans h.total, h.bound, fun g hk hlt => ?_, fun b hb g hg => ?_, hap.2⟩
  · exact hs g (h.kept g hk hlt) fun hown => (h.owned a ha g hown).2.2 hk
  · obtain ⟨hlt, hused, hk⟩ := h.owned b (List.mem_of_mem_erase hb) g hg
    exact ⟨hlt, hs g hused fun hown => hap.1 b hb g hown hg, hk⟩

/-- Marking further frames used keeps the invariant. -/
theorem OwnInv.reserve (h : OwnInv T K r) {s : Pmm} (ht : s.totalFrames = r.pmm.totalFrames)
    (hs : ∀ g, r.pmm.isUsed g = true → s.isUsed g = true) : OwnInv T K ⟨s, r.held⟩ := by
  refine ⟨ht.trans h.total, h.bound, fun g hk hlt => hs g (h.kept g hk hlt), ?_, h.apart⟩
  intro a ha g hg
  obtain ⟨hlt, hused, hk⟩ := h.owned a ha g hg
  exact ⟨hlt, hs g hused, hk⟩

theorem freedFrame_eq {addr i : Nat} (h : addrToFrame addr + i < 2 ^ 52) :
    freedFrame addr i = addrToFrame addr + i % 2 ^ 20 := by
  unfold freedFrame addrToFrame PMM_FRAME_SIZE at *
  have hmod : i * 4096 % 2 ^ 32 = i % 2 ^ 20 * 4096 := by omega
  rw [hmod, u64_of_lt (by omega)]
  omega

theorem frameStep_inv (h : OwnInv T K r) (hstep : FrameStep r r') : OwnInv T K r' := by
  cases hstep with
  | allocFrame =>
      rcases pmmAllocFrame_cases r.pmm with hz | ⟨f, hlt, hfree, heq⟩
      · rw [hz]
        exact h
      · rw [heq]
        refine h.alloc Nat.one_pos ?_ rfl fun g => ?_
        · intro i hi
          rw [Nat.lt_one_iff.mp hi]
          exact ⟨hlt, hfree⟩
        · rw [markUsed_isUsed, Bool.or_eq_true, decide_eq_true_eq, or_comm]
          exact or_congr_right (by omega)
  | allocFrames count =>
      by_cases hc : count.toNat = 0
      · rw [pmmAllocFrames, if_pos hc]
        exact h
      · rcases pmmAllocFrames_cases r.pmm hc with ⟨hz, -⟩ | ⟨a, hrun, -, heq⟩
        · rw [hz]
          exact h
        · rw [heq]
          exact h.alloc (by omega) hrun (foldl_markUsed_totalFrames _) fun g =>
            foldl_markUsed_range ..
  | freeFrame a ha hc =>
      refine h.free ha pmmFreeFrame_totalFrames fun g hg hown => ?_
      refine pmmFreeFrame_isUsed.mpr ⟨hg, fun hbad => hown ?_⟩
      exact ⟨by omega, by omega⟩
  | freeFrames a ha =>
      refine h.free ha (pmmFreeFrames_totalFrames ..) fun g hg hown => ?_
      refine (pmmFreeFrames_isUsed ..).mpr ⟨hg, ?_⟩
      rintro ⟨⟨i, hi, rfl⟩, -⟩
      have hlast : a.Owns (addrToFrame a.addr + i) := ⟨by omega, by omega⟩
      have hlt := (h.owned a ha _ hlast).1
      have := h.bound
      have hle := Nat.mod_le i (2 ^ 20)
      rw [freedFrame_eq (by omega)] at hown
      exact hown ⟨by omega, by omega⟩

theorem pmmStep_inv (h : OwnInv T K r) (hstep : PmmStep r r') : OwnInv T K r' := by
  cases hstep with
  | frame hstep => exact frameStep_inv h hstep
  | reserveFrame addr =>
      exact h.reserve pmmReserveFrame_totalFrames fun g hg =>
        pmmReserveFrame_isUsed.mpr (Or.inl hg)
  | reserveRegion start stop =>
      exact h.reserve (pmmReserveRegion_totalFrames ..) fun g hg =>
        (pmmReserveRegion_isUsed (h.total ▸ h.bound) ..).mpr (Or.inl hg)

end Inv

/-! ## No double ownership -/

/-- Nothing `pmm_init` reserved, the frames up to the end of the bitmap, is ever owned. -/
theorem pmmReach_inv {kernelEnd : KernelEnd} {mmap : Option (List MmapEntry)} {r : PmmRun}
    (h : PmmReach kernelEnd mmap r) :
    ∃ T, OwnInv T (fun f => f ≤ endFrame (bitmapEnd kernelEnd T)) r := by
  induction h with
  | init w =>
      refine ⟨_, rfl, pmmInit_totalFrames_le kernelEnd mmap w, fun f hk hlt => ?_,
        fun a ha => absurd ha List.not_mem_nil, List.Pairwise.nil⟩
      cases mmap with
      | none => exact absurd hlt (Nat.not_lt_zero f)
      | some entries => exact (pmmInit_isUsed kernelEnd entries w hlt).mpr (Or.inr hk)
  | step _ hstep ih =>
      obtain ⟨T, hinv⟩ := ih
      exact ⟨T, pmmStep_inv hinv hstep⟩

structure OwnedOnce (kernelEnd : KernelEnd) (r : PmmRun) : Prop where
  apart : r.held.Pairwise Alloc.Apart
  used : ∀ a ∈ r.held, ∀ f, a.Owns f → f < r.pmm.totalFrames ∧ bitmapTest r.pmm f = true
  outside : ∀ a ∈ r.held, ∀ f, a.Owns f →
    bitmapEnd kernelEnd r.pmm.totalFrames ≤ f * PMM_FRAME_SIZE

/-- **No double ownership.** In every run the held allocations own disjoint frames,
all below `total_frames` and marked used, none of them in `[0, bitmap_end)`. -/
theorem frames_owned_once {kernelEnd : KernelEnd} {mmap : Option (List MmapEntry)} {r : PmmRun}
    (h : PmmReach kernelEnd mmap r) : OwnedOnce kernelEnd r := by
  obtain ⟨T, hinv⟩ := pmmReach_inv h
  refine ⟨hinv.apart, fun a ha f hf => ?_, fun a ha f hf => ?_⟩
  · obtain ⟨hlt, hused, -⟩ := hinv.owned a ha f hf
    exact ⟨hinv.total.symm ▸ hlt, (bitmapTest_eq _ _).trans hused⟩
  · obtain ⟨-, -, hk⟩ := hinv.owned a ha f hf
    rw [hinv.total]
    exact le_of_endFrame_lt (Nat.lt_of_not_le hk)

/-- A 512 MB machine whose kernel ends at 0x120000. -/
def sampleKernelEnd : KernelEnd := ⟨0x120000, by decide, by decide⟩

def sampleMmap : List MmapEntry := [⟨0, 0x9FC00, 1⟩, ⟨0x100000, 0x1FF00000, 1⟩]

@[irreducible] def samplePmm : Pmm :=
  pmmInit sampleKernelEnd (some sampleMmap) (Pmm.static fun _ => 0#32)

theorem samplePmm_reach : PmmReach sampleKernelEnd (some sampleMmap) ⟨samplePmm, []⟩ := by
  unfold samplePmm
  exact PmmReach.init fun _ => 0#32

theorem samplePmm_totalFrames : samplePmm.totalFrames = 0x20000 := by
  unfold samplePmm
  rw [pmmInit_totalFrames]
  decide

/-- The lowest free frame is 0x125, and from there on all are free. -/
theorem samplePmm_isUsed {f : Nat} (hf : f < 0x20000) :
    samplePmm.isUsed f = true ↔ f < 0x125 := by
  have hT := samplePmm_totalFrames
  have hend : endFrame (bitmapEnd sampleKernelEnd 0x20000) = 0x124 := by decide
  have h1 : (⟨0, 0x9FC00, 1⟩ : MmapEntry).Covers f ↔ 0 ≤ f ∧ f < 0x9F :=
    and_iff_right (by decide)
  have h2 : (⟨0x100000, 0x1FF00000, 1⟩ : MmapEntry).Covers f ↔ 0x100 ≤ f ∧ f < 0x20000 :=
    and_iff_right (by decide)
  unfold samplePmm at hT ⊢
  rw [pmmInit_isUsed _ _ _ (hT ▸ hf), hT, hend]
  simp only [sampleMmap, List.forall_mem_cons, h1, h2]
  simp
  omega

theorem samplePmm_alloc : pmmAllocFrame samplePmm = (0x125000, markUsed samplePmm 0x125) := by
  have haddr : frameToAddr 0x125 = 0x125000 := by decide
  rw [pmmAllocFrame_lowest (f := 0x125), haddr]
  · rw [samplePmm_totalFrames]
    decide
  · rw [← Bool.not_eq_true, samplePmm_isUsed (by decide)]
    decide
  · intro g hg
    rw [samplePmm_isUsed (by omega)]
    omega

/-- The next three frames. -/
theorem samplePmm_allocs : (pmmAllocFrames (markUsed samplePmm 0x125) 3).1 = 0x126000 := by
  have hused : ∀ f < 0x20000, (markUsed samplePmm 0x125).isUsed f = true ↔ f < 0x126 := by
    intro f hf
    rw [markUsed_isUsed, Bool.or_eq_true, samplePmm_isUsed hf]
    simp
    omega
  have hT : (markUsed samplePmm 0x125).totalFrames = 0x20000 := by
    rw [markUsed_totalFrames, samplePmm_totalFrames]
  have hrun : (markUsed samplePmm 0x125).FreeRun 0x126 3 := by
    intro i hi
    rw [hT, ← Bool.not_eq_true, hused _ (by omega)]
    omega
  rcases pmmAllocFrames_cases (markUsed samplePmm 0x125) (show 3 ≠ 0 by decide) with
    ⟨-, hnone⟩ | ⟨a, hfree, hmin, heq⟩
  · exact absurd hrun (hnone _)
  · have hlo : ¬a < 0x126 := by
      intro hlt
      have := (hfree 0 (by decide)).2
      rw [Nat.add_zero, (hused a (by omega)).mpr hlt] at this
      cases this
    have hhi : ¬0x126 < a := fun hlt => hmin _ hlt hrun
    obtain rfl : a = 0x126 := by omega
    rw [heq]
    decide

/-- A frame and a run of three frames are held. -/
theorem frames_owned_once_two :
    ∃ p, PmmReach sampleKernelEnd (some sampleMmap) ⟨p, [⟨0x126000, 3⟩, ⟨0x125000, 1⟩]⟩
      ∧ OwnedOnce sampleKernelEnd ⟨p, [⟨0x126000, 3⟩, ⟨0x125000, 1⟩]⟩ := by
  have hone := samplePmm_reach.step (.frame (.allocFrame _))
  rw [samplePmm_alloc] at hone
  have htwo := hone.step (.frame (.allocFrames _ 3))
  have hheld : addHeld (pmmAllocFrames (markUsed samplePmm 0x125) (3 : UInt32).toNat).1
      (3 : UInt32).toNat (addHeld 0x125000 1 []) = [⟨0x126000, 3⟩, ⟨0x125000, 1⟩] := by
    rw [show (3 : UInt32).toNat = 3 from rfl, samplePmm_allocs]
    decide
  rw [hheld] at htwo
  exact ⟨_, htwo, frames_owned_once htwo⟩

end Matryoshka
