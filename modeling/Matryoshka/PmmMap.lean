import Matryoshka.PmmCount
import Matryoshka.PmmOwn

/-!
# Regions of physical memory

What `pmm_init` makes of a memory map, and what `pmm_reserve_region` does to
a region, down to bytes and to the counter. Both ends of a region are
divided by the frame size; the three results say which frames that rounding
gets wrong.

A frame is backed when all its bytes belong to AVAILABLE entries. `pmm_init`
rounds the start of an entry down, so a frame is handed out from its first
byte on although the entry begins inside it. It also decrements the counter
for every frame of every entry, although the bit may be clear already.
-/

namespace Matryoshka

/-! ## The map -/

/-- The end of the highest AVAILABLE entry. -/
def highestStop (entries : List MmapEntry) : Nat :=
  ((entries.filter MmapEntry.isAvailable).map MmapEntry.stop).foldl max 0

def mapFrames (entries : List MmapEntry) : Nat := framesOf (highestStop entries)

/-- The last frame `pmm_init` keeps for the kernel and the bitmap. -/
def lastReserved (kernelEnd : KernelEnd) (entries : List MmapEntry) : Nat :=
  endFrame (bitmapEnd kernelEnd (mapFrames entries))

def MmapEntry.Contains (e : MmapEntry) (x : Nat) : Prop :=
  e.isAvailable = true ∧ e.addr.toNat ≤ x ∧ x < e.addr.toNat + e.len.toNat

/-- Every byte of the frame is in some AVAILABLE entry. -/
def Backed (entries : List MmapEntry) (f : Nat) : Prop :=
  ∀ x, f * PMM_FRAME_SIZE ≤ x → x < (f + 1) * PMM_FRAME_SIZE → ∃ e ∈ entries, e.Contains x

/-- An entry that starts inside a frame above the reserved ones and reaches the end of
that frame finds the bytes before its start in other entries. -/
def StartsBacked (kernelEnd : KernelEnd) (entries : List MmapEntry) : Prop :=
  ∀ e ∈ entries, e.Covers (addrToFrame e.addr.toNat) →
    lastReserved kernelEnd entries < addrToFrame e.addr.toNat →
    ∀ x, addrToFrame e.addr.toNat * PMM_FRAME_SIZE ≤ x → x < e.addr.toNat →
      ∃ d ∈ entries, d.Contains x

section Map

variable {kernelEnd : KernelEnd} {entries : List MmapEntry} {w : Nat → BitVec 32} {f : Nat}

theorem foldl_scanEntry_eq (entries : List MmapEntry) (s : Pmm) :
    (entries.foldl scanEntry s).highestAddress
      = ((entries.filter MmapEntry.isAvailable).map MmapEntry.stop).foldl max
          s.highestAddress := by
  induction entries generalizing s with
  | nil => rfl
  | cons e entries ih =>
      rw [List.foldl_cons, ih, List.filter_cons, scanEntry]
      cases ha : e.isAvailable with
      | false => rfl
      | true =>
          simp only [if_true, List.map_cons, List.foldl_cons]
          congr 1
          split
          · exact (Nat.max_eq_right (by omega)).symm
          · exact (Nat.max_eq_left (by omega)).symm

theorem pmmInit_mapFrames :
    (pmmInit kernelEnd (some entries) (Pmm.static w)).totalFrames = mapFrames entries := by
  rw [pmmInit_totalFrames, foldl_scanEntry_eq]
  rfl

theorem mapFrames_le (entries : List MmapEntry) : mapFrames entries ≤ 2 ^ 52 := by
  have := pmmInit_totalFrames_le ⟨0, by decide, rfl⟩ (some entries) fun _ => 0#32
  rwa [pmmInit_mapFrames] at this

theorem covers_lt_mapFrames {e : MmapEntry} (he : e ∈ entries) (hc : e.Covers f) :
    f < mapFrames entries := by
  have := covers_lt_totalFrames ⟨0, by decide, rfl⟩ he hc (Pmm.static fun _ => 0#32)
  rwa [pmmInit_mapFrames] at this

/-- The frames `pmm_init` hands to the allocator. -/
theorem pmmInit_free_iff :
    f < (pmmInit kernelEnd (some entries) (Pmm.static w)).totalFrames
        ∧ (pmmInit kernelEnd (some entries) (Pmm.static w)).isUsed f = false ↔
      lastReserved kernelEnd entries < f ∧ ∃ e ∈ entries, e.Covers f := by
  have hused := pmmInit_isUsed (f := f) kernelEnd entries w
  rw [pmmInit_mapFrames] at hused ⊢
  constructor
  · rintro ⟨hf, hfree⟩
    have hnot : ¬((∀ e ∈ entries, ¬e.Covers f) ∨ f ≤ lastReserved kernelEnd entries) :=
      fun h => Bool.false_ne_true (hfree.symm.trans ((hused hf).mpr h))
    rw [not_or] at hnot
    obtain ⟨hcov, hle⟩ := hnot
    push Not at hcov
    exact ⟨Nat.lt_of_not_le hle, hcov⟩
  · rintro ⟨hgt, e, he, hc⟩
    have hf := covers_lt_mapFrames he hc
    refine ⟨hf, Bool.eq_false_iff.mpr fun htrue => ?_⟩
    rcases (hused hf).mp htrue with hnone | hle
    · exact hnone e he hc
    · exact absurd hle (Nat.not_le_of_lt hgt)

/-- A covered frame is inside its entry, except for the bytes before the entry's start. -/
theorem MmapEntry.Covers.contains {e : MmapEntry}
    (hwrap : e.addr.toNat + e.len.toNat < 2 ^ 64) (hc : e.Covers f) {x : Nat}
    (hlo : e.addr.toNat ≤ x) (hhi : x < (f + 1) * PMM_FRAME_SIZE) : e.Contains x := by
  have hstop : e.stop = e.addr.toNat + e.len.toNat := u64_of_lt hwrap
  have hlast := hc.2.2
  refine ⟨hc.1, hlo, ?_⟩
  rw [hstop] at hlast
  unfold addrToFrame PMM_FRAME_SIZE at *
  omega

end Map

/-- After `pmm_init` every free frame is backed and above the bitmap exactly when
every entry that starts inside such a frame is completed by other entries. -/
theorem free_frames_backed_iff (kernelEnd : KernelEnd) (entries : List MmapEntry)
    (hwrap : ∀ e ∈ entries, e.addr.toNat + e.len.toNat < 2 ^ 64) (w : Nat → BitVec 32) :
    (∀ f < (pmmInit kernelEnd (some entries) (Pmm.static w)).totalFrames,
        (pmmInit kernelEnd (some entries) (Pmm.static w)).isUsed f = false →
          Backed entries f ∧ bitmapEnd kernelEnd
            (pmmInit kernelEnd (some entries) (Pmm.static w)).totalFrames ≤ f * PMM_FRAME_SIZE)
      ↔ StartsBacked kernelEnd entries := by
  constructor
  · intro h e he hc hgt x hlo hhi
    obtain ⟨hlt, hfree⟩ := pmmInit_free_iff (w := w).mpr ⟨hgt, e, he, hc⟩
    refine (h _ hlt hfree).1 x hlo ?_
    unfold addrToFrame PMM_FRAME_SIZE
    omega
  · intro h f hlt hfree
    obtain ⟨hgt, e, he, hc⟩ := pmmInit_free_iff.mp ⟨hlt, hfree⟩
    refine ⟨fun x hlo hhi => ?_, ?_⟩
    · rcases Nat.lt_or_ge x e.addr.toNat with hx | hx
      · -- the entry starts inside this frame
        have hfirst : f = addrToFrame e.addr.toNat := by
          have := hc.2.1
          unfold addrToFrame PMM_FRAME_SIZE at *
          omega
        rw [hfirst] at hc hgt hlo
        exact h e he hc hgt x hlo hx
      · exact ⟨e, he, hc.contains (hwrap e he) hx hhi⟩
    · rw [pmmInit_mapFrames]
      exact le_of_endFrame_lt hgt

/-- The second entry starts in the middle of frame 0x300. -/
def roundedMmap : List MmapEntry := [⟨0x100000, 0x100000, 1⟩, ⟨0x300800, 0x100000, 1⟩]

theorem rounded_frame_not_backed :
    0x300 < (pmmInit sampleKernelEnd (some roundedMmap) (Pmm.static fun _ => 0#32)).totalFrames
      ∧ (pmmInit sampleKernelEnd (some roundedMmap) (Pmm.static fun _ => 0#32)).isUsed 0x300 = false
      ∧ ¬Backed roundedMmap 0x300 := by
  have hfree : lastReserved sampleKernelEnd roundedMmap < 0x300
      ∧ ∃ e ∈ roundedMmap, e.Covers 0x300 := by decide
  obtain ⟨hlt, hfree⟩ := pmmInit_free_iff (w := fun _ => 0#32).mpr hfree
  refine ⟨hlt, hfree, fun hbacked => ?_⟩
  obtain ⟨e, he, -, hlo, hhi⟩ := hbacked 0x300000 (by decide) (by decide)
  have hnone : ∀ e ∈ roundedMmap,
      ¬(e.addr.toNat ≤ 0x300000 ∧ 0x300000 < e.addr.toNat + e.len.toNat) := by decide
  exact hnone e he ⟨hlo, hhi⟩

theorem free_frames_backed_sample :
    Backed sampleMmap 0x1000 ∧ bitmapEnd sampleKernelEnd
      (pmmInit sampleKernelEnd (some sampleMmap) (Pmm.static fun _ => 0#32)).totalFrames
        ≤ 0x1000 * PMM_FRAME_SIZE := by
  have hstarts : StartsBacked sampleKernelEnd sampleMmap := by
    intro e he _ _ x hlo hhi
    have haligned : ∀ e ∈ sampleMmap,
        addrToFrame e.addr.toNat * PMM_FRAME_SIZE = e.addr.toNat := by decide
    rw [haligned e he] at hlo
    omega
  have hcovered : lastReserved sampleKernelEnd sampleMmap < 0x1000
      ∧ ∃ e ∈ sampleMmap, e.Covers 0x1000 := by decide
  obtain ⟨hlt, hfree⟩ := pmmInit_free_iff (w := fun _ => 0#32).mpr hcovered
  exact (free_frames_backed_iff sampleKernelEnd sampleMmap (by decide) fun _ => 0#32).mpr hstarts
    0x1000 hlt hfree

/-! ## The counter after `pmm_init` -/

/-- The frames the loop of `pmm_init` clears for one entry. -/
def MmapEntry.cleared (e : MmapEntry) (total : Nat) : List Nat :=
  if e.isAvailable then
    List.range' (addrToFrame e.addr.toNat)
      (min (addrToFrame e.stop) total - addrToFrame e.addr.toNat)
  else []

/-- How often a frame is cleared that an earlier entry has cleared already. -/
def recleared (total : Nat) : (earlier entries : List MmapEntry) → Nat
  | _, [] => 0
  | earlier, e :: entries =>
      (e.cleared total).countP (fun f => earlier.any fun d => decide (d.Covers f))
        + recleared total (earlier ++ [e]) entries

section Counter

variable {s : Pmm} {total f : Nat} {e : MmapEntry} {earlier entries : List MmapEntry}

theorem clearEntry_eq (s : Pmm) (e : MmapEntry) :
    clearEntry s e = (e.cleared s.totalFrames).foldl markFreed s := by
  unfold clearEntry MmapEntry.cleared
  split <;> rfl

theorem mem_cleared : f ∈ e.cleared total ↔ e.Covers f ∧ f < total := by
  unfold MmapEntry.cleared MmapEntry.Covers
  split
  · rename_i ha
    rw [List.mem_range'_1]
    constructor
    · exact fun h => ⟨⟨ha, by omega⟩, by omega⟩
    · exact fun h => by omega
  · rename_i ha
    simp [ha]

theorem cleared_nodup (e : MmapEntry) (total : Nat) : (e.cleared total).Nodup := by
  unfold MmapEntry.cleared
  split
  · exact List.nodup_range'
  · exact List.nodup_nil

/-- Clearing a clear bit moves the counter alone. -/
theorem markFreed_drift (hfree : s.isUsed f = false) : Drift 1 s (markFreed s f) := by
  have hsame : ∀ g, (markFreed s f).isUsed g = s.isUsed g := by
    intro g
    rw [markFreed_isUsed]
    by_cases hg : g = f
    · simp [hg, hfree]
    · simp [hg]
  have hbits : (markFreed s f).setBits = s.setBits :=
    List.countP_congr fun g _ => by rw [hsame g]
  have hnow : (markFreed s f).usedFrames = u64 (s.usedFrames + 2 ^ 64 - 1) := rfl
  refine ⟨rfl, rfl, ?_, fun _ => Nat.mod_lt _ (by decide)⟩
  rw [hbits, hnow, Nat.ModEq, u64]
  omega

theorem foldl_markFreed_drift {l : List Nat} (hl : l.Nodup) (hlt : ∀ f ∈ l, f < s.totalFrames) :
    Drift (l.countP fun f => !s.isUsed f) s (l.foldl markFreed s) := by
  induction l generalizing s with
  | nil => exact .refl s
  | cons f l ih =>
      obtain ⟨hnot, hl⟩ := List.nodup_cons.mp hl
      have hrest := ih (s := markFreed s f) hl fun g hg => hlt g (List.mem_cons_of_mem _ hg)
      have hcount : l.countP (fun g => !(markFreed s f).isUsed g)
          = l.countP fun g => !s.isUsed g := by
        refine List.countP_congr fun g hg => ?_
        have : g ≠ f := fun heq => hnot (heq ▸ hg)
        simp [markFreed_isUsed, this]
      rw [hcount] at hrest
      rw [List.foldl_cons, List.countP_cons, Nat.add_comm]
      cases hf : s.isUsed f with
      | true => exact (markFreed_inStep (hlt f List.mem_cons_self) hf).toDrift.trans hrest
      | false => exact (markFreed_drift hf).trans hrest

/-- What the entries before have cleared is clear, everything else is still set. -/
theorem foldl_clearEntry_drift (hs : ∀ f < s.totalFrames,
      s.isUsed f = true ↔ ∀ d ∈ earlier, ¬d.Covers f) :
    Drift (recleared s.totalFrames earlier entries) s (entries.foldl clearEntry s) := by
  induction entries generalizing s earlier with
  | nil => exact .refl s
  | cons e entries ih =>
      have hstep : Drift ((e.cleared s.totalFrames).countP fun f => !s.isUsed f) s
          (clearEntry s e) := by
        rw [clearEntry_eq]
        exact foldl_markFreed_drift (cleared_nodup ..) fun f hf => (mem_cleared.mp hf).2
      have hcount : (e.cleared s.totalFrames).countP (fun f => !s.isUsed f)
          = (e.cleared s.totalFrames).countP
              fun f => earlier.any fun d => decide (d.Covers f) := by
        refine List.countP_congr fun f hf => ?_
        have := hs f (mem_cleared.mp hf).2
        rw [Bool.not_eq_true', ← Bool.not_eq_true, this, List.any_eq_true]
        simp
      have hnext : ∀ f < (clearEntry s e).totalFrames,
          (clearEntry s e).isUsed f = true ↔ ∀ d ∈ earlier ++ [e], ¬d.Covers f := by
        intro f hf
        rw [clearEntry_totalFrames] at hf
        rw [clearEntry_isUsed s e hf, hs f hf, List.forall_mem_append]
        simp
      have hrest := ih hnext
      rw [hcount] at hstep
      rw [clearEntry_totalFrames] at hrest
      exact hstep.trans hrest

theorem setBits_of_full (h : ∀ f < s.totalFrames, s.isUsed f = true) :
    s.setBits = s.totalFrames := by
  have : (List.range s.totalFrames).countP s.isUsed = (List.range s.totalFrames).length :=
    List.countP_eq_length.mpr fun f hf => h f (List.mem_range.mp hf)
  rwa [List.length_range] at this

/-- After `pmm_init` the counter is behind the set bits by the frames cleared again. -/
theorem pmmInit_counter (kernelEnd : KernelEnd) (entries : List MmapEntry) {s : Pmm}
    (hs : s.highestAddress < 2 ^ 64) :
    let s' := pmmInit kernelEnd (some entries) s
    s'.usedFrames < 2 ^ 64 ∧ s'.highestAddress < 2 ^ 64
      ∧ s'.usedFrames + recleared s'.totalFrames [] entries ≡ s'.setBits [MOD 2 ^ 64] := by
  intro s'
  have hhigh := foldl_scanEntry_highest entries s hs
  have hframes := framesOf_le hhigh
  -- all bits are set and counted, then the entries are cleared, then the region is reserved
  let full := fillBitmap { entries.foldl scanEntry s with
    totalFrames := framesOf (entries.foldl scanEntry s).highestAddress }
  have hfull : ∀ f < full.totalFrames, full.isUsed f = true := fun f hf => fillBitmap_isUsed hf
  have hclear : Drift (recleared full.totalFrames [] entries) full
      (entries.foldl clearEntry full) :=
    foldl_clearEntry_drift fun f hf => by simp [hfull f hf]
  have hall : Drift (recleared full.totalFrames [] entries + 0) full s' :=
    hclear.trans (pmmReserveRegion_inStep _ _ _).toDrift
  have hused : full.usedFrames = full.totalFrames := rfl
  have hmod := hall.used
  rw [setBits_of_full hfull, hused] at hmod
  refine ⟨hall.lt ?_, ?_, ?_⟩
  · exact Nat.lt_of_le_of_lt hframes (by decide)
  · rw [hall.highest]
    exact hhigh
  · rw [hall.total]
    refine Nat.ModEq.add_right_cancel' full.totalFrames ?_
    rw [Nat.add_comm s'.setBits,
      show s'.usedFrames + recleared full.totalFrames [] entries + full.totalFrames
        = s'.usedFrames + full.totalFrames + (recleared full.totalFrames [] entries + 0) by omega]
    exact hmod

theorem recleared_eq_zero :
    recleared total earlier entries = 0 ↔
      (∀ e ∈ entries, ∀ f ∈ e.cleared total, ∀ d ∈ earlier, ¬d.Covers f)
        ∧ entries.Pairwise fun d e => ∀ f ∈ e.cleared total, ¬d.Covers f := by
  induction entries generalizing earlier with
  | nil => simp [recleared]
  | cons e entries ih =>
      rw [recleared, Nat.add_eq_zero_iff, ih, List.countP_eq_zero, List.pairwise_cons,
        List.forall_mem_cons]
      simp only [List.any_eq_true, decide_eq_true_eq, not_exists, not_and, List.forall_mem_append,
        List.mem_singleton, forall_eq]
      constructor
      · rintro ⟨hnow, hrest, hpair⟩
        exact ⟨⟨hnow, fun c hc f hf => (hrest c hc f hf).1⟩,
          fun c hc f hf => (hrest c hc f hf).2, hpair⟩
      · rintro ⟨⟨hnow, hold⟩, hhead, hpair⟩
        exact ⟨hnow, fun c hc f hf => ⟨hold c hc f hf, hhead c hc f hf⟩, hpair⟩

theorem recleared_le (earlier entries : List MmapEntry) :
    recleared total earlier entries ≤ total * entries.length := by
  induction entries generalizing earlier with
  | nil => exact Nat.zero_le _
  | cons e entries ih =>
      have hlen : (e.cleared total).length ≤ total := by
        unfold MmapEntry.cleared
        split
        · rw [List.length_range']
          omega
        · exact Nat.zero_le _
      have hcount := List.countP_le_length (l := e.cleared total)
        (p := fun f => earlier.any fun d => decide (d.Covers f))
      have hrest := ih (earlier ++ [e])
      rw [recleared, List.length_cons, Nat.mul_succ]
      omega

/-- The first entry finds every bit set, so 4096 entries do not clear 2^64 frames again. -/
theorem recleared_lt (ht : total ≤ 2 ^ 52) (hlen : entries.length ≤ 4096) :
    recleared total [] entries < 2 ^ 64 := by
  cases entries with
  | nil => exact Nat.two_pow_pos 64
  | cons e entries =>
      have hnone : (e.cleared total).countP
          (fun f => ([] : List MmapEntry).any fun d => decide (d.Covers f)) = 0 := by
        simp
      have hrest : recleared total [e] entries ≤ total * entries.length := recleared_le [e] entries
      have hmul := Nat.mul_le_mul ht (Nat.le_of_succ_le_succ hlen)
      rw [recleared, hnone, Nat.zero_add, List.nil_append]
      omega

end Counter

/-- The counter `pmm_init` leaves is the number of set bits exactly when the frames
cleared a second time make a multiple of 2^64, and on a map of at most 4096 entries
exactly when no two AVAILABLE entries cover one frame. -/
theorem init_counter_iff (kernelEnd : KernelEnd) (entries : List MmapEntry)
    (w : Nat → BitVec 32) :
    let s := pmmInit kernelEnd (some entries) (Pmm.static w)
    (s.usedFrames = s.setBits ↔ 2 ^ 64 ∣ recleared (mapFrames entries) [] entries)
      ∧ (entries.length ≤ 4096 → (s.usedFrames = s.setBits ↔
          entries.Pairwise fun d e => ∀ f, d.Covers f → ¬e.Covers f)) := by
  intro s
  obtain ⟨hlt, -, hmod⟩ : s.usedFrames < 2 ^ 64 ∧ s.highestAddress < 2 ^ 64
      ∧ s.usedFrames + recleared s.totalFrames [] entries ≡ s.setBits [MOD 2 ^ 64] :=
    pmmInit_counter kernelEnd entries (Nat.two_pow_pos 64)
  have hbits := setBits_le s
  have htotal : s.totalFrames = mapFrames entries := pmmInit_mapFrames
  rw [htotal] at hmod hbits
  have hle := mapFrames_le entries
  have hiff : s.usedFrames = s.setBits ↔ 2 ^ 64 ∣ recleared (mapFrames entries) [] entries := by
    rw [Nat.ModEq] at hmod
    constructor
    · intro heq
      rw [Nat.dvd_iff_mod_eq_zero]
      omega
    · rintro ⟨k, hk⟩
      omega
  refine ⟨hiff, fun hlen => hiff.trans ?_⟩
  have hsmall := recleared_lt hle hlen
  rw [Nat.dvd_iff_mod_eq_zero, Nat.mod_eq_of_lt hsmall, recleared_eq_zero]
  simp only [List.not_mem_nil, false_implies, implies_true, true_and]
  constructor
  · intro h
    refine h.imp_of_mem fun hd he hclear f hcd hce => ?_
    exact hclear f (mem_cleared.mpr ⟨hce, covers_lt_mapFrames he hce⟩) hcd
  · intro h
    exact h.imp fun hdisj f hf hcd => hdisj f hcd (mem_cleared.mp hf).1

/-- Two entries that share the second megabyte of the first. -/
def overlappingMmap : List MmapEntry := [⟨0x100000, 0x200000, 1⟩, ⟨0x200000, 0x200000, 1⟩]

theorem overlap_counted_twice :
    (pmmInit sampleKernelEnd (some overlappingMmap) (Pmm.static fun _ => 0#32)).usedFrames
      ≠ (pmmInit sampleKernelEnd (some overlappingMmap) (Pmm.static fun _ => 0#32)).setBits := by
  intro heq
  obtain ⟨-, -, hmod⟩ := pmmInit_counter sampleKernelEnd overlappingMmap
    (s := Pmm.static fun _ => 0#32) (Nat.two_pow_pos 64)
  have htwice : recleared (mapFrames overlappingMmap) [] overlappingMmap = 256 := by
    decide +kernel
  rw [pmmInit_mapFrames, htwice, ← heq, Nat.ModEq] at hmod
  omega

theorem init_counter_sample :
    (pmmInit sampleKernelEnd (some sampleMmap) (Pmm.static fun _ => 0#32)).usedFrames
      = (pmmInit sampleKernelEnd (some sampleMmap) (Pmm.static fun _ => 0#32)).setBits := by
  have hlow : addrToFrame (⟨0, 0x9FC00, 1⟩ : MmapEntry).stop = 159 := by decide
  have hhigh : addrToFrame (⟨0x100000, 0x1FF00000, 1⟩ : MmapEntry).addr.toNat = 256 := by decide
  refine ((init_counter_iff sampleKernelEnd sampleMmap fun _ => 0#32).2 (by decide)).mpr
    (List.pairwise_pair.mpr fun f h1 h2 => ?_)
  have hlt := h1.2.2
  have hle := h2.2.1
  omega

/-! ## Reserving a region -/

/-- Frame `f` shares a byte with `[start, stop)`. -/
def FrameMeets (f start stop : Nat) : Prop :=
  ∃ x, f * PMM_FRAME_SIZE ≤ x ∧ x < (f + 1) * PMM_FRAME_SIZE ∧ start ≤ x ∧ x < stop

theorem frameMeets_iff {f start stop : Nat} :
    FrameMeets f start stop ↔
      start < stop ∧ addrToFrame start ≤ f ∧ f * PMM_FRAME_SIZE < stop := by
  unfold FrameMeets addrToFrame PMM_FRAME_SIZE
  constructor
  · rintro ⟨x, h1, h2, h3, h4⟩
    omega
  · rintro ⟨h1, h2, h3⟩
    exact ⟨max (f * 4096) start, by omega, by omega, by omega, by omega⟩

instance (f start stop : Nat) : Decidable (FrameMeets f start stop) :=
  decidable_of_iff _ frameMeets_iff.symm

/-- Frames used in `s'` and free in `s`. -/
def newlyUsed (s s' : Pmm) : Nat :=
  (List.range s.totalFrames).countP fun f => s'.isUsed f && !s.isUsed f

/-- Free frames of the region. -/
def regionFree (s : Pmm) (start stop : Nat) : Nat :=
  (List.range s.totalFrames).countP fun f => decide (FrameMeets f start stop) && !s.isUsed f

structure ReservedExactly (s s' : Pmm) (start stop : Nat) : Prop where
  frames : ∀ f < s.totalFrames,
    (s'.isUsed f = true ↔ s.isUsed f = true ∨ FrameMeets f start stop)
  used : s'.usedFrames = s.usedFrames + newlyUsed s s'

/-- What the loop takes beyond the region was used before. It goes one frame too far,
where the address of frame 2^52 is that of frame 0, and it takes the frame of an empty
region. -/
structure NoFrameBeyond (s : Pmm) (start stop : Nat) : Prop where
  after : endFrame stop < s.totalFrames → ¬FrameMeets (endFrame stop % 2 ^ 52) start stop →
    s.isUsed (endFrame stop % 2 ^ 52) = true
  empty : start = stop → addrToFrame start < s.totalFrames → s.isUsed (addrToFrame start) = true
  room : s.usedFrames + regionFree s start stop < 2 ^ 64

section Region

variable {s s' : Pmm} {start stop f : Nat}

theorem addrToFrame_frameToAddr_mod (f : Nat) : addrToFrame (frameToAddr f) = f % 2 ^ 52 := by
  unfold addrToFrame frameToAddr u64 PMM_FRAME_SIZE
  omega

/-- The frames the loop visits, in any state. -/
theorem pmmReserveRegion_isUsed_any (s : Pmm) (start stop : Nat) :
    (pmmReserveRegion s start stop).isUsed f = true ↔
      s.isUsed f = true ∨ (∃ k, addrToFrame start ≤ k ∧ k ≤ endFrame stop ∧ k < s.totalFrames
        ∧ f = k % 2 ^ 52) ∧ f < s.totalFrames := by
  unfold pmmReserveRegion
  rw [foldl_reserve_isUsed]
  simp only [List.mem_range'_1, addrToFrame_frameToAddr_mod]
  apply or_congr_right
  apply and_congr_left
  intro _
  constructor
  · rintro ⟨k, hk, hf⟩
    exact ⟨k, by omega, by omega, by omega, hf⟩
  · rintro ⟨k, hk⟩
    exact ⟨k, by omega, hk.2.2.2⟩

/-- Only the last frame visited can lie outside a region that is not empty. -/
theorem frameMeets_of_lt_endFrame (hlt : start < stop) (hlo : addrToFrame start ≤ f)
    (hhi : f < endFrame stop) : FrameMeets f start stop := by
  refine frameMeets_iff.mpr ⟨hlt, hlo, ?_⟩
  unfold endFrame addrToFrame PMM_FRAME_SIZE at *
  split at hhi <;> omega

theorem lt_endFrame_of_meets (h : FrameMeets f start stop) : f < endFrame stop := by
  have := (frameMeets_iff.mp h).2.2
  unfold endFrame addrToFrame PMM_FRAME_SIZE at *
  split <;> omega

theorem endFrame_le (h : stop < 2 ^ 64) : endFrame stop ≤ 2 ^ 52 := by
  unfold endFrame addrToFrame PMM_FRAME_SIZE
  split <;> omega

theorem addrToFrame_le_endFrame (h : start ≤ stop) : addrToFrame start ≤ endFrame stop := by
  unfold endFrame addrToFrame PMM_FRAME_SIZE
  split <;> omega

theorem setBits_newlyUsed (htotal : s'.totalFrames = s.totalFrames)
    (hmono : ∀ f, s.isUsed f = true → s'.isUsed f = true) :
    s'.setBits = s.setBits + newlyUsed s s' := by
  rw [Pmm.setBits, Pmm.setBits, newlyUsed, htotal]
  induction List.range s.totalFrames with
  | nil => rfl
  | cons f l ih =>
      simp only [List.countP_cons]
      have := hmono f
      cases hs : s.isUsed f with
      | true =>
          rw [this hs]
          simp
          omega
      | false =>
          cases s'.isUsed f <;> simp <;> omega

theorem newlyUsed_eq_regionFree (h : ∀ f < s.totalFrames,
      (s'.isUsed f = true ↔ s.isUsed f = true ∨ FrameMeets f start stop)) :
    newlyUsed s s' = regionFree s start stop := by
  refine List.countP_congr fun f hf => ?_
  have := h f (List.mem_range.mp hf)
  simp only [Bool.and_eq_true, Bool.not_eq_true', decide_eq_true_eq, this]
  constructor
  · rintro ⟨hu | hm, hfree⟩
    · rw [hu] at hfree
      cases hfree
    · exact ⟨hm, hfree⟩
  · exact fun h => ⟨Or.inr h.1, h.2⟩

/-- The counter grows by the newly used frames, as a 64-bit number. -/
theorem reserveRegion_usedFrames (s : Pmm) (start stop : Nat) :
    (pmmReserveRegion s start stop).usedFrames
      ≡ s.usedFrames + newlyUsed s (pmmReserveRegion s start stop) [MOD 2 ^ 64] := by
  have hstep := pmmReserveRegion_inStep s start stop
  have hbits := setBits_newlyUsed hstep.total fun f hf =>
    (pmmReserveRegion_isUsed_any s start stop).mpr (Or.inl hf)
  have hmod := hstep.used
  rw [hbits, Nat.add_zero] at hmod
  refine Nat.ModEq.add_right_cancel' s.setBits ?_
  rw [show s.usedFrames + newlyUsed s (pmmReserveRegion s start stop) + s.setBits
    = s.usedFrames + (s.setBits + newlyUsed s (pmmReserveRegion s start stop)) by omega]
  exact hmod

theorem reserveRegion_frames (hstop : stop < 2 ^ 64) (hle : start ≤ stop)
    (h : NoFrameBeyond s start stop) (hf : f < s.totalFrames) :
    (pmmReserveRegion s start stop).isUsed f = true ↔
      s.isUsed f = true ∨ FrameMeets f start stop := by
  have hend := endFrame_le hstop
  rw [pmmReserveRegion_isUsed_any]
  constructor
  · rintro (hu | ⟨⟨k, hlo, hhi, hk, rfl⟩, -⟩)
    · exact Or.inl hu
    · rcases Nat.lt_or_eq_of_le hhi with hlt | rfl
      · rw [Nat.mod_eq_of_lt (by omega)]
        rcases Nat.lt_or_eq_of_le hle with hne | heq
        · exact Or.inr (frameMeets_of_lt_endFrame hne hlo hlt)
        · -- an empty region inside a frame
          have hfirst : k = addrToFrame start := by
            subst heq
            unfold endFrame addrToFrame PMM_FRAME_SIZE at *
            split at hlt <;> omega
          exact Or.inl (hfirst ▸ h.empty heq (hfirst ▸ hk))
      · by_cases hm : FrameMeets (endFrame stop % 2 ^ 52) start stop
        · exact Or.inr hm
        · exact Or.inl (h.after hk hm)
  · rintro (hu | hm)
    · exact Or.inl hu
    · have hlt := lt_endFrame_of_meets hm
      have hlo := (frameMeets_iff.mp hm).2.1
      exact Or.inr ⟨⟨f, hlo, by omega, hf, (Nat.mod_eq_of_lt (by omega)).symm⟩, hf⟩

theorem noFrameBeyond_of_exact (hu : s.usedFrames < 2 ^ 64) (hstart : start < 2 ^ 64)
    (hle : start ≤ stop)
    (h : ReservedExactly s (pmmReserveRegion s start stop) start stop) :
    NoFrameBeyond s start stop := by
  have hlo := addrToFrame_le_endFrame hle
  refine ⟨fun hlt hnot => ?_, fun heq hlt => ?_, ?_⟩
  · have hmod := Nat.mod_le (endFrame stop) (2 ^ 52)
    have hnow : (pmmReserveRegion s start stop).isUsed (endFrame stop % 2 ^ 52) = true :=
      (pmmReserveRegion_isUsed_any s start stop).mpr
        (Or.inr ⟨⟨_, hlo, Nat.le_refl _, hlt, rfl⟩, by omega⟩)
    exact ((h.frames _ (by omega)).mp hnow).resolve_right hnot
  · have hsmall : addrToFrame start < 2 ^ 52 := by
      unfold addrToFrame PMM_FRAME_SIZE
      omega
    have hnow : (pmmReserveRegion s start stop).isUsed (addrToFrame start) = true :=
      (pmmReserveRegion_isUsed_any s start stop).mpr
        (Or.inr ⟨⟨_, Nat.le_refl _, hlo, hlt, (Nat.mod_eq_of_lt hsmall).symm⟩, hlt⟩)
    refine ((h.frames _ hlt).mp hnow).resolve_right fun hm => ?_
    exact Nat.lt_irrefl _ (heq ▸ (frameMeets_iff.mp hm).1)
  · rw [← newlyUsed_eq_regionFree h.frames, ← h.used]
    exact (pmmReserveRegion_inStep s start stop).lt hu

end Region

/-- `pmm_reserve_region` reserves its region and nothing else, and counts that, exactly
when the frames it takes beyond the region were used before. -/
theorem reserve_region_exact_iff (s : Pmm) (hu : s.usedFrames < 2 ^ 64) (start stop : UInt64)
    (hle : start ≤ stop) :
    ReservedExactly s (pmmReserveRegion s start.toNat stop.toNat) start.toNat stop.toNat
      ↔ NoFrameBeyond s start.toNat stop.toNat := by
  have hle : start.toNat ≤ stop.toNat := hle
  constructor
  · exact noFrameBeyond_of_exact hu start.toNat_lt hle
  · intro h
    have hframes : ∀ f < s.totalFrames, _ := fun f hf =>
      reserveRegion_frames stop.toNat_lt hle h hf
    refine ⟨hframes, ?_⟩
    have hmod := reserveRegion_usedFrames s start.toNat stop.toNat
    have hroom := h.room
    rw [← newlyUsed_eq_regionFree hframes] at hroom
    exact hmod.eq_of_lt_of_lt ((pmmReserveRegion_inStep s _ _).lt hu) hroom

/-- One page is asked for and two are taken. -/
theorem reserve_page_takes_two :
    ¬ReservedExactly fortyFrames (pmmReserveRegion fortyFrames 0x1000 0x2000) 0x1000 0x2000 := by
  intro h
  have hmeets := (h.frames 2 (by decide)).mp (by decide)
  exact absurd hmeets (by decide)

theorem reserve_region_exact_last :
    ReservedExactly fortyFrames (pmmReserveRegion fortyFrames 0x26800 0x28000) 0x26800 0x28000 :=
  (reserve_region_exact_iff fortyFrames (by decide) 0x26800 0x28000 (by decide)).mpr
    ⟨by decide, by decide, by decide⟩

end Matryoshka
