import Matryoshka.Pmm

/-!
# What the PMM operations do to the frames

One specification per operation, in terms of `isUsed`, the bit of a
frame. Every later result about the PMM cites these and unfolds none of
the loops.
-/

namespace Matryoshka

def Pmm.isUsed (s : Pmm) (f : Nat) : Bool := Bitmap.get s.frameBitmap f

/-- `n` consecutive frames from `a`, all below the end and free. -/
def Pmm.FreeRun (s : Pmm) (a n : Nat) : Prop :=
  ∀ i < n, a + i < s.totalFrames ∧ s.isUsed (a + i) = false

/-- The answer is the lowest start of `count` consecutive free frames, if there is one. -/
def Pmm.FirstFit (s : Pmm) (count : Nat) : Option Nat → Prop
  | none => ∀ b, ¬s.FreeRun b count
  | some a => s.FreeRun a count ∧ ∀ b < a, ¬s.FreeRun b count

theorem bitmapTest_eq (s : Pmm) (f : Nat) : bitmapTest s f = s.isUsed f :=
  Bitmap.test_eq_get _ _

/-! ## Marking -/

section Mark

variable {s : Pmm} {f g : Nat}

@[simp] theorem markUsed_totalFrames : (markUsed s f).totalFrames = s.totalFrames := rfl

@[simp] theorem markFreed_totalFrames : (markFreed s f).totalFrames = s.totalFrames := rfl

theorem markUsed_isUsed : (markUsed s f).isUsed g = (decide (g = f) || s.isUsed g) :=
  Bitmap.get_set _ _ _

theorem markFreed_isUsed : (markFreed s f).isUsed g = (!decide (g = f) && s.isUsed g) :=
  Bitmap.get_clear _ _ _

/-- What every iteration keeps, the loop keeps. -/
theorem foldl_keeps {α β : Type} (p : Pmm → β) (step : Pmm → α → Pmm)
    (h : ∀ s a, p (step s a) = p s) (l : List α) (s : Pmm) : p (l.foldl step s) = p s := by
  induction l generalizing s with
  | nil => rfl
  | cons a l ih => rw [List.foldl_cons, ih, h]

theorem foldl_markUsed_totalFrames (l : List Nat) :
    (l.foldl markUsed s).totalFrames = s.totalFrames :=
  foldl_keeps Pmm.totalFrames markUsed (fun _ _ => rfl) l s

theorem foldl_markUsed_isUsed (l : List Nat) :
    (l.foldl markUsed s).isUsed g = (decide (g ∈ l) || s.isUsed g) := by
  induction l generalizing s with
  | nil => simp
  | cons f l ih =>
      rw [List.foldl_cons, ih, markUsed_isUsed]
      by_cases hg : g = f <;> simp [hg]

theorem foldl_markFreed_isUsed (l : List Nat) :
    (l.foldl markFreed s).isUsed g = (!decide (g ∈ l) && s.isUsed g) := by
  induction l generalizing s with
  | nil => simp
  | cons f l ih =>
      rw [List.foldl_cons, ih, markFreed_isUsed]
      by_cases hg : g = f <;> simp [hg]

end Mark

/-! ## Single frames -/

section Single

variable {s : Pmm} {f g a : Nat}

theorem findSome?_range_eq_some {α : Type} {p : Nat → Option α} {b : α} :
    ∀ {n : Nat}, (List.range n).findSome? p = some b →
      ∃ i < n, p i = some b ∧ ∀ k < i, p k = none
  | 0, h => by cases h
  | n + 1, h => by
      rw [List.range_succ, List.findSome?_append] at h
      cases hn : (List.range n).findSome? p with
      | some c =>
          rw [hn] at h
          obtain ⟨i, hi, hp⟩ := findSome?_range_eq_some hn
          obtain rfl := Option.some.inj h
          exact ⟨i, by omega, hp⟩
      | none =>
          rw [hn] at h
          rw [List.findSome?_eq_none_iff] at hn
          refine ⟨n, by omega, ?_, fun k hk => hn k (List.mem_range.mpr hk)⟩
          simpa using h

theorem scanWord_some {i : Nat} (h : scanWord s i = some f) :
    f < s.totalFrames ∧ s.isUsed f = false ∧ f / 32 = i
      ∧ ∀ g < f, g / 32 = i → s.isUsed g = true := by
  unfold scanWord at h
  split at h
  · obtain ⟨j, hj, hf, hmin⟩ := findSome?_range_eq_some h
    simp only [bitmapTest_eq, Option.ite_none_right_eq_some, Option.some.injEq] at hf
    obtain ⟨⟨hlt, hfree⟩, rfl⟩ := hf
    refine ⟨hlt, hfree, by omega, fun g hg hword => ?_⟩
    have hgj := hmin (g % 32) (by omega)
    simp only [show i * 32 + g % 32 = g by omega, bitmapTest_eq] at hgj
    by_contra hused
    rw [if_pos ⟨by omega, by simpa using hused⟩] at hgj
    cases hgj
  · cases h

theorem scanWord_none {i : Nat} (h : scanWord s i = none) (hi : f / 32 = i)
    (hf : f < s.totalFrames) : s.isUsed f = true := by
  have hdiv : i * 32 + f % 32 = f := by omega
  unfold scanWord at h
  split at h
  · rw [List.findSome?_eq_none_iff] at h
    have hj := h (f % 32) (List.mem_range.mpr (by omega))
    simp only [hdiv, bitmapTest_eq] at hj
    by_contra hused
    rw [if_pos ⟨hf, by simpa using hused⟩] at hj
    cases hj
  · rename_i hw
    have := (Bitmap.full_iff s.frameBitmap i).mp (not_not.mp hw) (f % 32) (by omega)
    rwa [hdiv] at this

/-- The word-skipping scan finds the lowest free frame. -/
theorem findFreeFrame_some (h : findFreeFrame s = some f) :
    f < s.totalFrames ∧ s.isUsed f = false ∧ ∀ g < f, s.isUsed g = true := by
  obtain ⟨i, -, hi, hmin⟩ := findSome?_range_eq_some h
  obtain ⟨hlt, hfree, hword, hsame⟩ := scanWord_some hi
  refine ⟨hlt, hfree, fun g hg => ?_⟩
  rcases Nat.lt_or_ge (g / 32) i with hgi | hgi
  · exact scanWord_none (hmin _ hgi) rfl (by omega)
  · exact hsame g hg (by omega)

/-- The scan fails only when every frame of the full words is used. -/
theorem findFreeFrame_none (h : findFreeFrame s = none) (hf : f / 32 < s.totalFrames / 32) :
    s.isUsed f = true := by
  rw [findFreeFrame, List.findSome?_eq_none_iff] at h
  exact scanWord_none (h _ (List.mem_range.mpr hf)) rfl (by omega)

theorem pmmAllocFrame_cases (s : Pmm) :
    pmmAllocFrame s = (0, s) ∨
      ∃ f, f < s.totalFrames ∧ s.isUsed f = false
        ∧ pmmAllocFrame s = (frameToAddr f, markUsed s f) := by
  unfold pmmAllocFrame
  cases h : findFreeFrame s with
  | none => exact Or.inl rfl
  | some f =>
      obtain ⟨hlt, hfree, -⟩ := findFreeFrame_some h
      exact Or.inr ⟨f, hlt, hfree, rfl⟩

theorem pmmAllocFrame_lowest (hf : f / 32 < s.totalFrames / 32) (hfree : s.isUsed f = false)
    (hbelow : ∀ g < f, s.isUsed g = true) :
    pmmAllocFrame s = (frameToAddr f, markUsed s f) := by
  unfold pmmAllocFrame
  cases h : findFreeFrame s with
  | none =>
      rw [findFreeFrame_none h hf] at hfree
      cases hfree
  | some g =>
      obtain ⟨-, hgfree, hgmin⟩ := findFreeFrame_some h
      obtain rfl : g = f := by
        rcases Nat.lt_trichotomy g f with hlt | heq | hgt
        · rw [hbelow g hlt] at hgfree
          cases hgfree
        · exact heq
        · rw [hgmin f hgt] at hfree
          cases hfree
      rfl

theorem pmmReserveFrame_totalFrames : (pmmReserveFrame s a).totalFrames = s.totalFrames := by
  simp only [pmmReserveFrame]
  split
  · rfl
  · split <;> rfl

theorem pmmReserveFrame_totalMemory : (pmmReserveFrame s a).totalMemory = s.totalMemory := by
  simp only [pmmReserveFrame]
  split
  · rfl
  · split <;> rfl

theorem pmmReserveFrame_isUsed :
    (pmmReserveFrame s a).isUsed g = true ↔
      s.isUsed g = true ∨ g = addrToFrame a ∧ g < s.totalFrames := by
  simp only [pmmReserveFrame]
  split
  · rename_i hge
    constructor
    · exact Or.inl
    · rintro (h | ⟨rfl, hlt⟩)
      · exact h
      · omega
  · rename_i hlt
    simp only [bitmapTest_eq]
    split
    · rw [markUsed_isUsed, Bool.or_eq_true, decide_eq_true_eq, or_comm]
      constructor
      · exact Or.imp_right fun h => ⟨h, by omega⟩
      · exact Or.imp_right And.left
    · rename_i hused
      constructor
      · exact Or.inl
      · rintro (h | ⟨rfl, -⟩)
        · exact h
        · simpa using hused

theorem pmmFreeFrame_totalFrames : (pmmFreeFrame s a).totalFrames = s.totalFrames := by
  simp only [pmmFreeFrame]
  split
  · rfl
  · split <;> rfl

theorem pmmFreeFrame_isUsed :
    (pmmFreeFrame s a).isUsed g = true ↔
      s.isUsed g = true ∧ ¬(g = addrToFrame a ∧ g < s.totalFrames) := by
  simp only [pmmFreeFrame]
  split
  · rename_i hge
    constructor
    · exact fun h => ⟨h, by rintro ⟨rfl, hlt⟩; omega⟩
    · exact And.left
  · rename_i hlt
    simp only [bitmapTest_eq]
    split
    · rename_i hfree
      constructor
      · exact fun h => ⟨h, by rintro ⟨rfl, -⟩; rw [hfree] at h; cases h⟩
      · exact And.left
    · rw [markFreed_isUsed, Bool.and_eq_true, Bool.not_eq_true', decide_eq_false_iff_not, and_comm]
      constructor
      · exact fun h => ⟨h.1, fun h' => h.2 h'.1⟩
      · exact fun h => ⟨h.1, fun h' => h.2 ⟨h', by omega⟩⟩

end Single

/-! ## Runs of frames -/

section Runs

variable {s : Pmm} {g : Nat}

theorem addrToFrame_frameToAddr {f : Nat} (h : f < 2 ^ 52) : addrToFrame (frameToAddr f) = f := by
  rw [frameToAddr, u64_of_lt (by unfold PMM_FRAME_SIZE; omega), addrToFrame]
  exact Nat.mul_div_cancel f (by decide)

theorem frameToAddr_pos {f : Nat} (h : f < 2 ^ 52) (hf : f ≠ 0) : frameToAddr f ≠ 0 := by
  intro h0
  have := addrToFrame_frameToAddr h
  rw [h0] at this
  exact hf this.symm

/-- Past frame 2^52 the address wraps, and another frame is reserved. -/
theorem foldl_reserve_isUsed (l : List Nat) (s : Pmm) :
    (l.foldl (fun s f => pmmReserveFrame s (frameToAddr f)) s).isUsed g = true ↔
      s.isUsed g = true ∨ (∃ f ∈ l, g = addrToFrame (frameToAddr f)) ∧ g < s.totalFrames := by
  induction l generalizing s with
  | nil => simp
  | cons f l ih =>
      rw [List.foldl_cons, ih, pmmReserveFrame_isUsed, pmmReserveFrame_totalFrames,
        List.exists_mem_cons_iff, or_assoc, or_and_right]

theorem pmmReserveRegion_totalFrames (a b : Nat) :
    (pmmReserveRegion s a b).totalFrames = s.totalFrames :=
  foldl_keeps Pmm.totalFrames _ (fun _ _ => pmmReserveFrame_totalFrames) _ s

theorem pmmReserveRegion_totalMemory (a b : Nat) :
    (pmmReserveRegion s a b).totalMemory = s.totalMemory :=
  foldl_keeps Pmm.totalMemory _ (fun _ _ => pmmReserveFrame_totalMemory) _ s

/-- The region's end is inclusive: the frame of `endFrame` is reserved too. -/
theorem pmmReserveRegion_isUsed (hT : s.totalFrames ≤ 2 ^ 52) (a b : Nat) :
    (pmmReserveRegion s a b).isUsed g = true ↔
      s.isUsed g = true ∨ addrToFrame a ≤ g ∧ g ≤ endFrame b ∧ g < s.totalFrames := by
  unfold pmmReserveRegion
  rw [foldl_reserve_isUsed]
  simp only [List.mem_range'_1]
  constructor
  · rintro (h | ⟨⟨f, hf, rfl⟩, hlt⟩)
    · exact Or.inl h
    · rw [addrToFrame_frameToAddr (by omega)] at hlt ⊢
      exact Or.inr (by omega)
  · rintro (h | h)
    · exact Or.inl h
    · exact Or.inr ⟨⟨g, by omega, (addrToFrame_frameToAddr (by omega)).symm⟩, h.2.2⟩

theorem le_of_endFrame_lt {stop f : Nat} (h : endFrame stop < f) : stop ≤ f * PMM_FRAME_SIZE := by
  unfold endFrame addrToFrame PMM_FRAME_SIZE at *
  split at h <;> omega

theorem pmmFreeFrames_totalFrames (addr count : Nat) :
    (pmmFreeFrames s addr count).totalFrames = s.totalFrames :=
  foldl_keeps Pmm.totalFrames _ (fun _ _ => pmmFreeFrame_totalFrames) _ s

/-- The frames `pmm_free_frames(addr, count)` names. -/
def freedFrame (addr i : Nat) : Nat :=
  addrToFrame (u64 (addr + i * PMM_FRAME_SIZE % 2 ^ 32))

theorem pmmFreeFrames_isUsed (addr count : Nat) :
    (pmmFreeFrames s addr count).isUsed g = true ↔
      s.isUsed g = true ∧ ¬((∃ i < count, g = freedFrame addr i) ∧ g < s.totalFrames) := by
  have key : ∀ (l : List Nat) (s : Pmm),
      (l.foldl (fun s i => pmmFreeFrame s (u64 (addr + i * PMM_FRAME_SIZE % 2 ^ 32))) s).isUsed g
          = true ↔
        s.isUsed g = true ∧ ¬((∃ i ∈ l, g = freedFrame addr i) ∧ g < s.totalFrames) := by
    intro l
    induction l with
    | nil => simp
    | cons i l ih =>
        intro s
        rw [List.foldl_cons, ih, pmmFreeFrame_isUsed, pmmFreeFrame_totalFrames, and_assoc]
        apply and_congr_right
        intro _
        rw [← not_or, ← or_and_right, List.exists_mem_cons_iff]
        rfl
  rw [pmmFreeFrames, key]
  simp only [List.mem_range]

/-- The scan of `pmm_alloc_frames` is a first fit. `foundCount` frames before `frame`
are free, and no run that starts before them is long enough. -/
theorem scanContiguous_spec {count : Nat} :
    ∀ {n frame startFrame foundCount : Nat}, foundCount < count →
      frame + n = s.totalFrames → foundCount ≤ frame →
      (0 < foundCount → startFrame + foundCount = frame) →
      s.FreeRun (frame - foundCount) foundCount →
      (∀ b < frame - foundCount, ¬s.FreeRun b count) →
      s.FirstFit count (scanContiguous s count n frame startFrame foundCount)
  | 0, frame, _, foundCount, hc, hn, _, _, _, hbefore => by
      intro b hb
      rcases Nat.lt_or_ge b (frame - foundCount) with hlt | hge
      · exact hbefore b hlt hb
      · have := (hb (count - 1) (by omega)).1
        omega
  | n + 1, frame, startFrame, foundCount, hc, hn, hle, hstart, hrun, hbefore => by
      rw [scanContiguous]
      simp only [bitmapTest_eq]
      split
      · rename_i hfree
        have hnext : s.FreeRun (frame - foundCount) (foundCount + 1) := by
          intro i hi
          rcases Nat.lt_succ_iff_lt_or_eq.mp hi with hlt | heq
          · exact hrun i hlt
          · have : frame - foundCount + i = frame := by omega
            rw [this]
            exact ⟨by omega, hfree⟩
        have hfrom : (if foundCount = 0 then frame else startFrame) = frame - foundCount := by
          split
          · omega
          · have := hstart (by omega)
            omega
        rw [hfrom]
        split
        · rename_i heq
          exact ⟨heq ▸ hnext, hbefore⟩
        · have hback : frame + 1 - (foundCount + 1) = frame - foundCount := by omega
          exact scanContiguous_spec (by omega) (by omega) (by omega) (fun _ => by omega)
            (hback ▸ hnext) (hback ▸ hbefore)
      · rename_i hused
        refine scanContiguous_spec (by omega) (by omega) (by omega) (fun h => by omega)
          (fun i hi => by omega) fun b hb hfree => ?_
        rcases Nat.lt_or_ge b (frame - foundCount) with hlt | hge
        · exact hbefore b hlt hfree
        · have := (hfree (frame - b) (by omega)).2
          rw [show b + (frame - b) = frame by omega] at this
          exact hused this

theorem scanContiguous_firstFit (s : Pmm) {count : Nat} (hc : count ≠ 0) :
    s.FirstFit count (scanContiguous s count s.totalFrames 0 0 0) :=
  scanContiguous_spec (by omega) (by omega) (by omega) (fun h => by omega)
    (fun i hi => by omega) (fun b hb => by omega)

theorem pmmAllocFrames_cases (s : Pmm) {count : Nat} (hc : count ≠ 0) :
    (pmmAllocFrames s count = (0, s) ∧ ∀ b, ¬s.FreeRun b count) ∨
      ∃ a, s.FreeRun a count ∧ (∀ b < a, ¬s.FreeRun b count)
        ∧ pmmAllocFrames s count
          = (frameToAddr a, ((List.range count).map (a + ·)).foldl markUsed s) := by
  have hscan := scanContiguous_firstFit s hc
  rw [pmmAllocFrames, if_neg hc]
  cases h : scanContiguous s count s.totalFrames 0 0 0 with
  | none =>
      rw [h] at hscan
      exact Or.inl ⟨rfl, hscan⟩
  | some a =>
      rw [h] at hscan
      refine Or.inr ⟨a, hscan.1, hscan.2, ?_⟩
      simp only [List.foldl_map]

/-- A single frame is taken from the lowest free place. -/
theorem allocFrames_lowest {k : Nat} (hbelow : ∀ g < k, s.isUsed g = true)
    (hlt : k < s.totalFrames) (hfree : s.isUsed k = false) :
    pmmAllocFrames s (1 : UInt32).toNat = (frameToAddr k, markUsed s k) := by
  have hrun : s.FreeRun k 1 := fun i hi => by
    rw [Nat.lt_one_iff.mp hi]
    exact ⟨hlt, hfree⟩
  rcases pmmAllocFrames_cases s (show (1 : UInt32).toNat ≠ 0 by decide) with
    ⟨-, hnone⟩ | ⟨a, ha, hmin, heq⟩
  · exact absurd hrun (hnone k)
  · have hka : k ≤ a := by
      by_contra hak
      have := (ha 0 (by decide)).2
      rw [Nat.add_zero, hbelow a (by omega)] at this
      cases this
    have hak : a ≤ k := by
      by_contra hak
      exact hmin k (by omega) hrun
    obtain rfl : a = k := by omega
    rw [heq]
    rfl

theorem foldl_markUsed_range (s : Pmm) (a count : Nat) :
    (((List.range count).map (a + ·)).foldl markUsed s).isUsed g = true ↔
      s.isUsed g = true ∨ a ≤ g ∧ g < a + count := by
  rw [foldl_markUsed_isUsed, Bool.or_eq_true, decide_eq_true_eq, or_comm]
  apply or_congr_right
  simp only [List.mem_map, List.mem_range]
  constructor
  · rintro ⟨i, hi, rfl⟩
    omega
  · exact fun h => ⟨g - a, by omega, by omega⟩

end Runs

/-! ## Initialisation -/

/-- Frame `f` is one of those an AVAILABLE entry hands to the allocator. -/
def MmapEntry.Covers (e : MmapEntry) (f : Nat) : Prop :=
  e.isAvailable = true ∧ addrToFrame e.addr.toNat ≤ f ∧ f < addrToFrame e.stop

instance (e : MmapEntry) (f : Nat) : Decidable (e.Covers f) := by
  unfold MmapEntry.Covers
  infer_instance

theorem foldl_scanEntry_highest (entries : List MmapEntry) (s : Pmm)
    (h : s.highestAddress < 2 ^ 64) : (entries.foldl scanEntry s).highestAddress < 2 ^ 64 := by
  induction entries generalizing s with
  | nil => exact h
  | cons e entries ih =>
      refine ih _ ?_
      have hstop : e.stop < 2 ^ 64 := Nat.mod_lt _ (by decide)
      unfold scanEntry
      split
      · simp only
        split <;> assumption
      · exact h

theorem framesOf_le {a : Nat} (h : a < 2 ^ 64) : framesOf a ≤ 2 ^ 52 := by
  unfold framesOf PMM_FRAME_SIZE
  split <;> omega

theorem clearEntry_totalFrames (s : Pmm) (e : MmapEntry) :
    (clearEntry s e).totalFrames = s.totalFrames := by
  unfold clearEntry
  split
  · exact foldl_keeps Pmm.totalFrames markFreed (fun _ _ => rfl) _ s
  · rfl

theorem clearEntry_totalMemory (s : Pmm) (e : MmapEntry) :
    (clearEntry s e).totalMemory = s.totalMemory := by
  unfold clearEntry
  split
  · exact foldl_keeps Pmm.totalMemory markFreed (fun _ _ => rfl) _ s
  · rfl

theorem clearEntry_isUsed (s : Pmm) (e : MmapEntry) {g : Nat} (hg : g < s.totalFrames) :
    (clearEntry s e).isUsed g = true ↔ s.isUsed g = true ∧ ¬e.Covers g := by
  unfold clearEntry MmapEntry.Covers
  split
  · rename_i ha
    rw [foldl_markFreed_isUsed, Bool.and_eq_true, Bool.not_eq_true', decide_eq_false_iff_not,
      and_comm, List.mem_range'_1]
    apply and_congr_right
    intro _
    constructor
    · exact fun h hc => h (by omega)
    · exact fun h hc => h ⟨ha, by omega⟩
  · rename_i ha
    simp [ha]

theorem foldl_clearEntry_totalFrames (entries : List MmapEntry) (s : Pmm) :
    (entries.foldl clearEntry s).totalFrames = s.totalFrames :=
  foldl_keeps Pmm.totalFrames clearEntry clearEntry_totalFrames entries s

theorem foldl_clearEntry_isUsed (entries : List MmapEntry) (s : Pmm) {g : Nat}
    (hg : g < s.totalFrames) :
    (entries.foldl clearEntry s).isUsed g = true ↔
      s.isUsed g = true ∧ ∀ e ∈ entries, ¬e.Covers g := by
  induction entries generalizing s with
  | nil => simp
  | cons e entries ih =>
      rw [List.foldl_cons, ih _ (by rwa [clearEntry_totalFrames]), clearEntry_isUsed _ _ hg,
        and_assoc, List.forall_mem_cons]

theorem bitmapSize_covers {total f : Nat} (h : f < total) : f / 32 < bitmapSize total / 4 := by
  unfold bitmapSize
  simp only
  split <;> split <;> omega

theorem fillBitmap_isUsed {s : Pmm} {f : Nat} (h : f < s.totalFrames) :
    (fillBitmap s).isUsed f = true := by
  have hword : (fillBitmap s).frameBitmap (f / 32) = 0xFFFFFFFF#32 :=
    if_pos (bitmapSize_covers h)
  have := (Bitmap.full_iff _ _).mp hword (f % 32) (by omega)
  rwa [show f / 32 * 32 + f % 32 = f by omega] at this

theorem pmmInit_totalFrames (kernelEnd : KernelEnd) (entries : List MmapEntry) (s : Pmm) :
    (pmmInit kernelEnd (some entries) s).totalFrames
      = framesOf (entries.foldl scanEntry s).highestAddress := by
  simp only [pmmInit, pmmReserveRegion_totalFrames, foldl_clearEntry_totalFrames]
  rfl

theorem foldl_scanEntry_mono (entries : List MmapEntry) (s : Pmm) :
    s.highestAddress ≤ (entries.foldl scanEntry s).highestAddress := by
  induction entries generalizing s with
  | nil => exact Nat.le_refl _
  | cons e entries ih =>
      refine Nat.le_trans ?_ (ih _)
      unfold scanEntry
      split
      · simp only
        split <;> omega
      · exact Nat.le_refl _

theorem stop_le_highest {entries : List MmapEntry} {e : MmapEntry} (he : e ∈ entries)
    (ha : e.isAvailable = true) (s : Pmm) :
    e.stop ≤ (entries.foldl scanEntry s).highestAddress := by
  induction entries generalizing s with
  | nil => cases he
  | cons d entries ih =>
      rcases List.mem_cons.mp he with rfl | he
      · refine Nat.le_trans ?_ (foldl_scanEntry_mono entries _)
        simp only [scanEntry, ha, if_true]
        split <;> omega
      · exact ih he _

theorem covers_lt_totalFrames (kernelEnd : KernelEnd) {entries : List MmapEntry} {e : MmapEntry}
    (he : e ∈ entries) {f : Nat} (hc : e.Covers f) (s : Pmm) :
    f < (pmmInit kernelEnd (some entries) s).totalFrames := by
  have hstop := stop_le_highest he hc.1 s
  have hlt := hc.2.2
  rw [pmmInit_totalFrames]
  unfold framesOf addrToFrame PMM_FRAME_SIZE at *
  split <;> omega

theorem pmmInit_totalFrames_le (kernelEnd : KernelEnd) (mmap : Option (List MmapEntry))
    (w : Nat → BitVec 32) : (pmmInit kernelEnd mmap (Pmm.static w)).totalFrames ≤ 2 ^ 52 := by
  cases mmap with
  | none => exact Nat.zero_le _
  | some entries =>
      rw [pmmInit_totalFrames]
      exact framesOf_le (foldl_scanEntry_highest entries _ (by simp [Pmm.static]))

theorem pmmInit_totalMemory (kernelEnd : KernelEnd) (entries : List MmapEntry) (s : Pmm) :
    (pmmInit kernelEnd (some entries) s).totalMemory = (entries.foldl scanEntry s).totalMemory := by
  simp only [pmmInit, pmmReserveRegion_totalMemory]
  exact foldl_keeps Pmm.totalMemory clearEntry clearEntry_totalMemory entries _

/-- The sum of the available lengths, as `pmm_init` accumulates it. -/
def availableBytes (mmap : List MmapEntry) : Nat :=
  u64 ((mmap.filter MmapEntry.isAvailable).map fun e => e.len.toNat).sum

theorem foldl_scanEntry_totalMemory (mmap : List MmapEntry) (s : Pmm)
    (h : s.totalMemory < 2 ^ 64) :
    (mmap.foldl scanEntry s).totalMemory
      = u64 (s.totalMemory
        + ((mmap.filter MmapEntry.isAvailable).map fun e => e.len.toNat).sum) := by
  induction mmap generalizing s with
  | nil => exact (u64_of_lt h).symm
  | cons e mmap ih =>
      rw [List.foldl_cons]
      by_cases he : e.isAvailable = true
      · have hstep : (scanEntry s e).totalMemory = u64 (s.totalMemory + e.len.toNat) := by
          rw [scanEntry, if_pos he]
        rw [ih _ (hstep ▸ Nat.mod_lt _ (by decide)), hstep, List.filter_cons_of_pos he,
          List.map_cons, List.sum_cons]
        unfold u64
        omega
      · have hstep : scanEntry s e = s := if_neg he
        rw [hstep, ih s h, List.filter_cons_of_neg he]

theorem pmmInit_availableBytes (kernelEnd : KernelEnd) (mmap : List MmapEntry)
    (w : Nat → BitVec 32) :
    (pmmInit kernelEnd (some mmap) (Pmm.static w)).totalMemory = availableBytes mmap := by
  rw [pmmInit_totalMemory, foldl_scanEntry_totalMemory mmap _ (show 0 < 2 ^ 64 by decide)]
  exact congrArg u64 (Nat.zero_add _)

/-- After `pmm_init` a frame is used exactly when no AVAILABLE entry covers it or it is
at or below the end of the bitmap, whatever was there before. -/
theorem pmmInit_isUsed_from (kernelEnd : KernelEnd) (entries : List MmapEntry) {s : Pmm}
    (hs : s.highestAddress < 2 ^ 64) {f : Nat}
    (hf : f < (pmmInit kernelEnd (some entries) s).totalFrames) :
    (pmmInit kernelEnd (some entries) s).isUsed f = true ↔
      (∀ e ∈ entries, ¬e.Covers f) ∨
        f ≤ endFrame (bitmapEnd kernelEnd (pmmInit kernelEnd (some entries) s).totalFrames) := by
  have hle : (pmmInit kernelEnd (some entries) s).totalFrames ≤ 2 ^ 52 := by
    rw [pmmInit_totalFrames]
    exact framesOf_le (foldl_scanEntry_highest entries s hs)
  simp only [pmmInit, pmmReserveRegion_totalFrames] at hf hle ⊢
  rw [pmmReserveRegion_isUsed hle]
  rw [foldl_clearEntry_totalFrames] at hf ⊢
  have hfill := fillBitmap_isUsed (s := { entries.foldl scanEntry s with
    totalFrames := framesOf (entries.foldl scanEntry s).highestAddress }) hf
  rw [foldl_clearEntry_isUsed _ _ hf, hfill]
  simp [addrToFrame, hf]

theorem pmmInit_isUsed (kernelEnd : KernelEnd) (entries : List MmapEntry) (w : Nat → BitVec 32)
    {f : Nat} (hf : f < (pmmInit kernelEnd (some entries) (Pmm.static w)).totalFrames) :
    (pmmInit kernelEnd (some entries) (Pmm.static w)).isUsed f = true ↔
      (∀ e ∈ entries, ¬e.Covers f) ∨
        f ≤ endFrame (bitmapEnd kernelEnd
          (pmmInit kernelEnd (some entries) (Pmm.static w)).totalFrames) :=
  pmmInit_isUsed_from kernelEnd entries (by simp [Pmm.static]) hf

end Matryoshka
