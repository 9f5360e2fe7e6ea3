import Matryoshka.PmmOwn
import Matryoshka.Heap

/-!
# Physical frames against the kernel heap

`heap_init` takes `[HEAP_START, HEAP_START + HEAP_INITIAL)` at a fixed
address and tells the PMM nothing. Whether the PMM hands out those frames
is decided by the memory map and the end of the bitmap alone, and this
module says exactly when.

The frame bitmap is ordinary memory from `_kernel_end` upwards, so the
header that `heap_init` writes can land on bitmap words; the boot sequence
below goes through byte memory to keep that effect.
-/

namespace Matryoshka

open ByteMem

/-! ## Boot -/

def bitmapWords (kernelEnd : KernelEnd) (m : Mem) : Nat → BitVec 32 :=
  fun i => load32 m (kernelEnd.addr + 4 * i)

/-- `pmm_init` over the memory at boot. -/
def bootPmm (kernelEnd : KernelEnd) (mmap : Option (List MmapEntry)) (m : Mem) : Pmm :=
  pmmInit kernelEnd mmap (Pmm.static (bitmapWords kernelEnd m))

def bootHeap (kernelEnd : KernelEnd) (mmap : Option (List MmapEntry)) (m : Mem) : Heap :=
  heapInit (ofWords kernelEnd.addr (bootPmm kernelEnd mmap m).frameBitmap m)

/-- The PMM as `heap_init` leaves it. -/
def boot (kernelEnd : KernelEnd) (mmap : Option (List MmapEntry)) (m : Mem) : Pmm :=
  { bootPmm kernelEnd mmap m with
    frameBitmap := bitmapWords kernelEnd (bootHeap kernelEnd mmap m).mem }

/-- States reachable by allocations and releases after the boot sequence. -/
inductive BootReach (kernelEnd : KernelEnd) (mmap : Option (List MmapEntry)) (m : Mem) :
    PmmRun → Prop
  | init : BootReach kernelEnd mmap m ⟨boot kernelEnd mmap m, []⟩
  | step {r r' : PmmRun} :
      BootReach kernelEnd mmap m r → FrameStep r r' → BootReach kernelEnd mmap m r'

/-- Frame `f` shares a byte with the heap. -/
def FrameInHeap (f : Nat) : Prop :=
  ∃ x, f * PMM_FRAME_SIZE ≤ x ∧ x < (f + 1) * PMM_FRAME_SIZE
    ∧ HEAP_START ≤ x ∧ x < HEAP_START + HEAP_INITIAL

def HeapDisjoint (r : PmmRun) : Prop := ∀ a ∈ r.held, ∀ f, a.Owns f → ¬FrameInHeap f

/-- No AVAILABLE entry covers a heap frame above the region `pmm_init` reserves. -/
def HeapKept (kernelEnd : KernelEnd) (mmap : Option (List MmapEntry)) (m : Mem) : Prop :=
  ∀ f, FrameInHeap f → ∀ e ∈ mmap.getD [], e.Covers f →
    f ≤ endFrame (bitmapEnd kernelEnd (boot kernelEnd mmap m).totalFrames)

section Boot

variable {kernelEnd : KernelEnd} {mmap : Option (List MmapEntry)} {m : Mem}

theorem frameInHeap_iff {f : Nat} : FrameInHeap f ↔ 512 ≤ f ∧ f < 768 := by
  unfold FrameInHeap PMM_FRAME_SIZE HEAP_START HEAP_INITIAL
  constructor
  · rintro ⟨x, h1, h2, h3, h4⟩
    omega
  · rintro ⟨h1, h2⟩
    exact ⟨f * 4096, by omega, by omega, by omega, by omega⟩

theorem heapInit_of_outside {x : Nat} (h : x < HEAP_START ∨ HEAP_START + 16 ≤ x) :
    (heapInit m).mem x = m x := by
  simp only [heapInit]
  rw [setNext_of_outside h, setIsFree_of_outside h, setSize_of_outside h, setMagic_of_outside h]

/-- The bitmap words that the sixteen header bytes miss are as `pmm_init` left them. -/
theorem boot_isUsed {f : Nat} (hf : kernelEnd.addr + 4 * (f / 32) + 4 ≤ HEAP_START
      ∨ HEAP_START + 16 ≤ kernelEnd.addr + 4 * (f / 32)) :
    (boot kernelEnd mmap m).isUsed f = (bootPmm kernelEnd mmap m).isUsed f := by
  have hword : bitmapWords kernelEnd (bootHeap kernelEnd mmap m).mem (f / 32)
      = (bootPmm kernelEnd mmap m).frameBitmap (f / 32) := by
    rw [← load32_ofWords kernelEnd.addr (f / 32) (bootPmm kernelEnd mmap m).frameBitmap m]
    exact load32_congr fun b h1 h2 => heapInit_of_outside (by omega)
  rw [Pmm.isUsed, Pmm.isUsed, Bitmap.get, Bitmap.get, boot]
  simp only [hword]

/-- `_kernel_end` and `HEAP_START` are page aligned, so the header misses the words of
the heap's own frames. -/
theorem boot_isUsed_heap {f : Nat} (hf : FrameInHeap f) :
    (boot kernelEnd mmap m).isUsed f = (bootPmm kernelEnd mmap m).isUsed f := by
  rw [frameInHeap_iff] at hf
  have ha := kernelEnd.aligned
  refine boot_isUsed ?_
  unfold HEAP_START
  omega

theorem bootPmm_isUsed {entries : List MmapEntry} {f : Nat}
    (hf : f < (boot kernelEnd (some entries) m).totalFrames) :
    (bootPmm kernelEnd (some entries) m).isUsed f = true ↔
      (∀ e ∈ entries, ¬e.Covers f) ∨
        f ≤ endFrame (bitmapEnd kernelEnd (boot kernelEnd (some entries) m).totalFrames) :=
  pmmInit_isUsed kernelEnd entries _ hf

/-! ## When the heap is kept -/

/-- If `pmm_init` leaves the heap frames used, no run hands one out. -/
theorem bootReach_disjoint (h : HeapKept kernelEnd mmap m) {r : PmmRun}
    (hr : BootReach kernelEnd mmap m r) : HeapDisjoint r := by
  have hinv : OwnInv (boot kernelEnd mmap m).totalFrames FrameInHeap r := by
    induction hr with
    | init =>
        refine ⟨rfl, pmmInit_totalFrames_le kernelEnd mmap _, fun f hf hlt => ?_,
          fun a ha => absurd ha List.not_mem_nil, List.Pairwise.nil⟩
        rw [boot_isUsed_heap hf]
        cases mmap with
        | none => exact absurd hlt (Nat.not_lt_zero f)
        | some entries =>
            refine (bootPmm_isUsed hlt).mpr ?_
            by_cases hc : ∃ e ∈ entries, e.Covers f
            · obtain ⟨e, he, hcov⟩ := hc
              exact Or.inr (h f hf e he hcov)
            · exact Or.inl fun e he hcov => hc ⟨e, he, hcov⟩
    | step _ hstep ih => exact frameStep_inv ih hstep
  exact fun a ha f hown hf => (hinv.owned a ha f hown).2.2 hf

/-! ## When it is not -/

/-- Taking the lowest free frame again and again uses up everything below `f`. -/
theorem exists_used_below {f : Nat} (hlt : f < (boot kernelEnd mmap m).totalFrames)
    (hfree : (boot kernelEnd mmap m).isUsed f = false) :
    ∀ k ≤ f, ∃ r, BootReach kernelEnd mmap m r
      ∧ r.pmm.totalFrames = (boot kernelEnd mmap m).totalFrames
      ∧ (∀ g < k, r.pmm.isUsed g = true) ∧ r.pmm.isUsed f = false
  | 0, _ => ⟨_, BootReach.init, rfl, fun g hg => absurd hg (Nat.not_lt_zero g), hfree⟩
  | k + 1, hk => by
      obtain ⟨r, hr, ht, hbelow, hf⟩ := exists_used_below hlt hfree k (by omega)
      have hext : ∀ s : Pmm, s.isUsed k = true → (∀ g < k, s.isUsed g = true) →
          ∀ g < k + 1, s.isUsed g = true := by
        intro s hsk hs g hg
        rcases Nat.lt_succ_iff_lt_or_eq.mp hg with hgk | rfl
        · exact hs g hgk
        · exact hsk
      cases hused : r.pmm.isUsed k with
      | true => exact ⟨r, hr, ht, hext _ hused hbelow, hf⟩
      | false =>
          have halloc := allocFrames_lowest hbelow (by omega) hused
          refine ⟨_, hr.step (FrameStep.allocFrames r 1), ?_, ?_, ?_⟩
          · rw [halloc]
            exact ht
          · rw [halloc]
            refine hext _ ?_ fun g hg => ?_
            · simp [markUsed_isUsed]
            · simp [markUsed_isUsed, hbelow g hg]
          · rw [halloc]
            simp only [markUsed_isUsed, hf, Bool.or_false, decide_eq_false_iff_not]
            omega

/-- A frame some AVAILABLE entry covers is below `total_frames`. -/
theorem covers_lt {entries : List MmapEntry} {e : MmapEntry} (he : e ∈ entries) {f : Nat}
    (hc : e.Covers f) : f < (boot kernelEnd (some entries) m).totalFrames :=
  covers_lt_totalFrames kernelEnd he hc _

theorem heapKept_of_disjoint
    (h : ∀ r, BootReach kernelEnd mmap m r → HeapDisjoint r) : HeapKept kernelEnd mmap m := by
  intro f hf e he hc
  by_contra hgt
  cases mmap with
  | none => exact absurd he List.not_mem_nil
  | some entries =>
      have hlt : f < (boot kernelEnd (some entries) m).totalFrames := covers_lt he hc
      have hfree : (boot kernelEnd (some entries) m).isUsed f = false := by
        rw [boot_isUsed_heap hf, ← Bool.not_eq_true]
        intro hused
        rcases (bootPmm_isUsed hlt).mp hused with hnone | hle
        · exact hnone e he hc
        · exact hgt hle
      obtain ⟨r, hr, ht, hbelow, hrf⟩ := exists_used_below hlt hfree f (Nat.le_refl f)
      have halloc := allocFrames_lowest hbelow (ht ▸ hlt) hrf
      have hreach := hr.step (FrameStep.allocFrames r 1)
      rw [halloc] at hreach
      have hf52 : f < 2 ^ 52 := Nat.lt_of_lt_of_le hlt (pmmInit_totalFrames_le ..)
      have hpos : f ≠ 0 := by
        rw [frameInHeap_iff] at hf
        omega
      refine h _ hreach ⟨frameToAddr f, 1⟩ ?_ f ((owns_frameToAddr hf52).mpr (by omega)) hf
      rw [addHeld, if_neg (frameToAddr_pos hf52 hpos)]
      exact List.mem_cons_self

end Boot

/-- The frames handed out after boot stay clear of the heap in every run exactly when
no AVAILABLE entry covers a heap frame above the end of the bitmap. -/
theorem heap_disjoint_iff (kernelEnd : KernelEnd) (mmap : Option (List MmapEntry)) (m : Mem) :
    (∀ r, BootReach kernelEnd mmap m r → HeapDisjoint r) ↔ HeapKept kernelEnd mmap m :=
  ⟨heapKept_of_disjoint, fun h _ hr => bootReach_disjoint h hr⟩

section Sample

def sampleBoot : Pmm := boot sampleKernelEnd (some sampleMmap) fun _ => 0#8

theorem sampleBoot_totalFrames : sampleBoot.totalFrames = 131072 := by
  simp only [sampleBoot, boot, bootPmm, pmmInit, pmmReserveRegion_totalFrames,
    foldl_clearEntry_totalFrames, fillBitmap]
  decide

theorem sampleBoot_isUsed {f : Nat} (hlo : 256 ≤ f) (hhi : f < 131072) :
    sampleBoot.isUsed f = true ↔ f ≤ 292 := by
  have hT := sampleBoot_totalFrames
  have hend : endFrame (bitmapEnd sampleKernelEnd 131072) = 292 := by decide
  have hcov : ¬∀ e ∈ sampleMmap, ¬e.Covers f := by
    intro h
    refine h ⟨0x100000, 0x1FF00000, 1⟩ (by simp [sampleMmap]) ⟨by decide, ?_, ?_⟩
    · exact Nat.le_trans (by decide) hlo
    · exact Nat.lt_of_lt_of_le hhi (by decide)
  have hmiss : sampleKernelEnd.addr + 4 * (f / 32) + 4 ≤ HEAP_START := by
    simp only [sampleKernelEnd, HEAP_START]
    omega
  rw [sampleBoot] at hT ⊢
  rw [boot_isUsed (Or.inl hmiss), bootPmm_isUsed (hT ▸ hhi), or_iff_right hcov, hT, hend]

theorem sampleBoot_alloc :
    (pmmAllocFrames sampleBoot (300 : UInt32).toNat).1 = frameToAddr 293 := by
  have hT := sampleBoot_totalFrames
  have hrun : sampleBoot.FreeRun 293 (300 : UInt32).toNat := by
    intro i hi
    have hi : i < 300 := hi
    refine ⟨by omega, ?_⟩
    rw [← Bool.not_eq_true, sampleBoot_isUsed (by omega) (by omega)]
    omega
  rcases pmmAllocFrames_cases sampleBoot (show (300 : UInt32).toNat ≠ 0 by decide) with
    ⟨-, hnone⟩ | ⟨a, ha, hmin, heq⟩
  · exact absurd hrun (hnone 293)
  · have hle : a ≤ 293 := by
      by_contra hgt
      exact hmin 293 (by omega) hrun
    have hge : 293 ≤ a := by
      by_contra hlt
      have hmem : max a 256 - a < 300 := by omega
      have hfree := (ha (max a 256 - a) hmem).2
      rw [show a + (max a 256 - a) = max a 256 by omega] at hfree
      rw [(sampleBoot_isUsed (by omega) (by omega)).mpr (by omega)] at hfree
      cases hfree
    rw [heq, show a = 293 by omega]

/-- On a 512 MB machine one contiguous request right after boot takes heap frames. -/
theorem sample_alloc_meets_heap :
    ∃ r, BootReach sampleKernelEnd (some sampleMmap) (fun _ => 0#8) r
      ∧ (⟨0x125000, 300⟩ : Alloc) ∈ r.held ∧ ¬HeapDisjoint r := by
  have hinit : BootReach sampleKernelEnd (some sampleMmap) (fun _ => 0#8) ⟨sampleBoot, []⟩ :=
    BootReach.init
  have hheld : addHeld (frameToAddr 293) (300 : UInt32).toNat [] = [⟨0x125000, 300⟩] := by decide
  refine ⟨_, hinit.step (FrameStep.allocFrames ⟨sampleBoot, []⟩ 300), ?_, fun hdisj => ?_⟩
  · simp only [sampleBoot_alloc, hheld, List.mem_singleton]
  · refine hdisj ⟨0x125000, 300⟩ ?_ 512 ⟨by decide, by decide⟩ (frameInHeap_iff.mpr (by decide))
    simp only [sampleBoot_alloc, hheld, List.mem_singleton]

end Sample

end Matryoshka
