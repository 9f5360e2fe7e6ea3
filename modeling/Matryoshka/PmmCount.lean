import Matryoshka.PmmSpec
import Mathlib.Data.Nat.ModEq

/-!
# Frame accounting

`used_frames` is kept beside the bitmap, one step at a time, and `Drift`
measures how far the two part. `InStep` says what every operation does from
any state: the counter moves with the number of set bits below
`total_frames`, modulo 2^64, and the bits from there on do not change. So a
right counter stays right (`Balanced`).

The functions with `In` are those of `kernel/mm/pmm.c` over a bitmap of
`words` words, with every access checked: one outside the bitmap yields
`none`. With a bit for each frame they agree with the unchecked ones.
-/

namespace Matryoshka

/-- Set bits among the frames. -/
def Pmm.setBits (s : Pmm) : Nat := (List.range s.totalFrames).countP s.isUsed

def Pmm.clearBits (s : Pmm) : Nat := (List.range s.totalFrames).countP fun f => !s.isUsed f

/-- The operations with their arguments. -/
inductive PmmOp
  | allocFrame
  | allocFrames (count : UInt32)
  | freeFrame (addr : UInt64)
  | freeFrames (addr : UInt64) (count : UInt32)
  | reserveFrame (addr : UInt64)
  | reserveRegion (start stop : UInt64)
deriving Repr, DecidableEq

def PmmOp.run (s : Pmm) : PmmOp → Pmm
  | .allocFrame => (pmmAllocFrame s).2
  | .allocFrames count => (pmmAllocFrames s count.toNat).2
  | .freeFrame addr => pmmFreeFrame s addr.toNat
  | .freeFrames addr count => pmmFreeFrames s addr.toNat count.toNat
  | .reserveFrame addr => pmmReserveFrame s addr.toNat
  | .reserveRegion start stop => pmmReserveRegion s start.toNat stop.toNat

/-! ## Checked accesses -/

section Checked

variable (words : Nat)

/-- `frame_bitmap[index]`. -/
def wordIn (s : Pmm) (index : Nat) : Option (BitVec 32) :=
  if index < words then some (s.frameBitmap index) else none

def bitmapSetIn (s : Pmm) (frame : Nat) : Option Pmm := do
  let _ ← wordIn words s (frame / 32)
  return bitmapSet s frame

def bitmapClearIn (s : Pmm) (frame : Nat) : Option Pmm := do
  let _ ← wordIn words s (frame / 32)
  return bitmapClear s frame

def bitmapTestIn (s : Pmm) (frame : Nat) : Option Bool := do
  let word ← wordIn words s (frame / 32)
  return (word &&& (1#32 <<< (frame % 32))) != 0#32

/-- A loop that returns the first answer of its body. -/
def firstIn {α : Type} (body : Nat → Option (Option α)) : List Nat → Option (Option α)
  | [] => some none
  | i :: l => do
      match ← body i with
      | some a => return some a
      | none => firstIn body l

def scanWordIn (s : Pmm) (i : Nat) : Option (Option Nat) := do
  if (← wordIn words s i) ≠ 0xFFFFFFFF#32 then
    firstIn (fun j =>
      let frame := i * 32 + j
      -- the test is not evaluated for a frame past the end
      if frame < s.totalFrames then do
        return if (← bitmapTestIn words s frame) = false then some frame else none
      else return none) (List.range 32)
  else return none

def findFreeFrameIn (s : Pmm) : Option (Option Nat) :=
  firstIn (scanWordIn words s) (List.range (s.totalFrames / 32))

def markUsedIn (s : Pmm) (frame : Nat) : Option Pmm := do
  let s' ← bitmapSetIn words s frame
  return { s' with usedFrames := u64 (s.usedFrames + 1) }

def markFreedIn (s : Pmm) (frame : Nat) : Option Pmm := do
  let s' ← bitmapClearIn words s frame
  return { s' with usedFrames := u64 (s.usedFrames + 2 ^ 64 - 1) }

def pmmAllocFrameIn (s : Pmm) : Option (Nat × Pmm) := do
  match ← findFreeFrameIn words s with
  | none => return (0, s)
  | some frame => return (frameToAddr frame, ← markUsedIn words s frame)

def scanContiguousIn (s : Pmm) (count : Nat) :
    (n frame startFrame foundCount : Nat) → Option (Option Nat)
  | 0, _, _, _ => some none
  | n + 1, frame, startFrame, foundCount => do
      if (← bitmapTestIn words s frame) = false then
        let startFrame := if foundCount = 0 then frame else startFrame
        let foundCount := foundCount + 1
        if foundCount = count then return some startFrame
        else scanContiguousIn s count n (frame + 1) startFrame foundCount
      else scanContiguousIn s count n (frame + 1) startFrame 0

def pmmAllocFramesIn (s : Pmm) (count : Nat) : Option (Nat × Pmm) := do
  if count = 0 then return (0, s)
  else
    match ← scanContiguousIn words s count s.totalFrames 0 0 0 with
    | none => return (0, s)
    | some startFrame =>
        let s ← (List.range count).foldlM (fun s i => markUsedIn words s (startFrame + i)) s
        return (frameToAddr startFrame, s)

def pmmFreeFrameIn (s : Pmm) (addr : Nat) : Option Pmm := do
  let frame := addrToFrame addr
  if s.totalFrames ≤ frame then return s
  else if (← bitmapTestIn words s frame) = false then return s
  else markFreedIn words s frame

def pmmFreeFramesIn (s : Pmm) (addr count : Nat) : Option Pmm :=
  (List.range count).foldlM
    (fun s i => pmmFreeFrameIn words s (u64 (addr + i * PMM_FRAME_SIZE % 2 ^ 32))) s

def pmmReserveFrameIn (s : Pmm) (addr : Nat) : Option Pmm := do
  let frame := addrToFrame addr
  if s.totalFrames ≤ frame then return s
  else if (← bitmapTestIn words s frame) = false then markUsedIn words s frame
  else return s

def pmmReserveRegionIn (s : Pmm) (start stop : Nat) : Option Pmm :=
  (List.range' (addrToFrame start)
      (min (endFrame stop + 1) s.totalFrames - addrToFrame start)).foldlM
    (fun s frame => pmmReserveFrameIn words s (frameToAddr frame)) s

def PmmOp.runIn (s : Pmm) : PmmOp → Option Pmm
  | .allocFrame => (pmmAllocFrameIn words s).map Prod.snd
  | .allocFrames count => (pmmAllocFramesIn words s count.toNat).map Prod.snd
  | .freeFrame addr => pmmFreeFrameIn words s addr.toNat
  | .freeFrames addr count => pmmFreeFramesIn words s addr.toNat count.toNat
  | .reserveFrame addr => pmmReserveFrameIn words s addr.toNat
  | .reserveRegion start stop => pmmReserveRegionIn words s start.toNat stop.toNat

end Checked

section Agree

variable {words : Nat} {s : Pmm} {f : Nat}

theorem wordIn_eq {i : Nat} (h : i < words) : wordIn words s i = some (s.frameBitmap i) := if_pos h

theorem bitmapTestIn_eq (h : f / 32 < words) : bitmapTestIn words s f = some (bitmapTest s f) := by
  rw [bitmapTestIn, wordIn_eq h]
  rfl

theorem markUsedIn_eq (h : f / 32 < words) : markUsedIn words s f = some (markUsed s f) := by
  rw [markUsedIn, bitmapSetIn, wordIn_eq h]
  rfl

theorem markFreedIn_eq (h : f / 32 < words) : markFreedIn words s f = some (markFreed s f) := by
  rw [markFreedIn, bitmapClearIn, wordIn_eq h]
  rfl

theorem firstIn_eq {α : Type} {body : Nat → Option (Option α)} {step : Nat → Option α}
    {l : List Nat} (h : ∀ i ∈ l, body i = some (step i)) :
    firstIn body l = some (l.findSome? step) := by
  induction l with
  | nil => rfl
  | cons i l ih =>
      have hl := ih fun j hj => h j (List.mem_cons_of_mem _ hj)
      rw [firstIn, h i List.mem_cons_self, List.findSome?_cons]
      cases hi : step i with
      | some a => simp
      | none => simpa using hl

/-- A loop whose body succeeds on all states of `P`. -/
theorem foldlM_eq {α : Type} {P : Pmm → Prop} {body : Pmm → α → Option Pmm}
    {step : Pmm → α → Pmm} {l : List α}
    (h : ∀ s a, a ∈ l → P s → body s a = some (step s a) ∧ P (step s a)) (hs : P s) :
    l.foldlM body s = some (l.foldl step s) := by
  induction l generalizing s with
  | nil => rfl
  | cons a l ih =>
      obtain ⟨hbody, hnext⟩ := h s a List.mem_cons_self hs
      rw [List.foldlM_cons, hbody, List.foldl_cons]
      exact ih (fun s b hb => h s b (List.mem_cons_of_mem _ hb)) hnext

theorem div_lt_words (hw : s.totalFrames ≤ 32 * words) (hf : f < s.totalFrames) :
    f / 32 < words := by
  omega

theorem scanWordIn_eq (hw : s.totalFrames ≤ 32 * words) {i : Nat} (hi : i < words) :
    scanWordIn words s i = some (scanWord s i) := by
  rw [scanWordIn, wordIn_eq hi, scanWord]
  by_cases hfull : s.frameBitmap i ≠ 0xFFFFFFFF#32
  · simp only [Option.bind_eq_bind, Option.bind_some, if_pos hfull]
    refine firstIn_eq fun j _ => ?_
    by_cases hlt : i * 32 + j < s.totalFrames
    · simp [hlt, bitmapTestIn_eq (s := s) (div_lt_words hw hlt)]
    · simp [hlt]
  · simp only [Option.bind_eq_bind, Option.bind_some, if_neg hfull]
    rfl

theorem findFreeFrameIn_eq (hw : s.totalFrames ≤ 32 * words) :
    findFreeFrameIn words s = some (findFreeFrame s) := by
  refine firstIn_eq fun i hi => scanWordIn_eq hw ?_
  rw [List.mem_range] at hi
  omega

theorem pmmAllocFrameIn_eq (hw : s.totalFrames ≤ 32 * words) :
    pmmAllocFrameIn words s = some (pmmAllocFrame s) := by
  rw [pmmAllocFrameIn, findFreeFrameIn_eq hw, pmmAllocFrame]
  cases h : findFreeFrame s with
  | none => rfl
  | some f =>
      have hf := (findFreeFrame_some h).1
      simp [markUsedIn_eq (s := s) (div_lt_words hw hf)]

theorem scanContiguousIn_eq (hw : s.totalFrames ≤ 32 * words) {count : Nat} :
    ∀ {n frame startFrame foundCount : Nat}, frame + n ≤ s.totalFrames →
      scanContiguousIn words s count n frame startFrame foundCount
        = some (scanContiguous s count n frame startFrame foundCount)
  | 0, _, _, _, _ => rfl
  | n + 1, frame, startFrame, foundCount, hn => by
      rw [scanContiguousIn, scanContiguous, bitmapTestIn_eq (div_lt_words hw (by omega))]
      simp only [Option.bind_eq_bind, Option.bind_some]
      split
      · split
        · rfl
        · exact scanContiguousIn_eq hw (by omega)
      · exact scanContiguousIn_eq hw (by omega)

theorem pmmAllocFramesIn_eq (hw : s.totalFrames ≤ 32 * words) (count : Nat) :
    pmmAllocFramesIn words s count = some (pmmAllocFrames s count) := by
  rw [pmmAllocFramesIn, pmmAllocFrames, scanContiguousIn_eq hw (by omega)]
  by_cases hc : count = 0
  · rw [if_pos hc, if_pos hc]
    rfl
  · rw [if_neg hc, if_neg hc]
    have hscan := scanContiguous_firstFit s hc
    cases h : scanContiguous s count s.totalFrames 0 0 0 with
    | none => rfl
    | some a =>
        rw [h] at hscan
        have hstep : ∀ t, ∀ i ∈ List.range count, t.totalFrames = s.totalFrames →
            markUsedIn words t (a + i) = some (markUsed t (a + i))
              ∧ (markUsed t (a + i)).totalFrames = s.totalFrames := by
          intro t i hi ht
          have := (hscan.1 i (List.mem_range.mp hi)).1
          exact ⟨markUsedIn_eq (by omega), ht⟩
        have hloop := foldlM_eq hstep rfl
        simp [hloop]

theorem pmmFreeFrameIn_eq (hw : s.totalFrames ≤ 32 * words) (addr : Nat) :
    pmmFreeFrameIn words s addr = some (pmmFreeFrame s addr) := by
  simp only [pmmFreeFrameIn, pmmFreeFrame]
  by_cases hge : s.totalFrames ≤ addrToFrame addr
  · simp [hge]
  · have hlt := div_lt_words hw (Nat.lt_of_not_le hge)
    rw [bitmapTestIn_eq hlt, markFreedIn_eq hlt, if_neg hge, if_neg hge]
    simp only [Option.bind_eq_bind, Option.bind_some]
    split <;> rfl

theorem pmmReserveFrameIn_eq (hw : s.totalFrames ≤ 32 * words) (addr : Nat) :
    pmmReserveFrameIn words s addr = some (pmmReserveFrame s addr) := by
  simp only [pmmReserveFrameIn, pmmReserveFrame]
  by_cases hge : s.totalFrames ≤ addrToFrame addr
  · simp [hge]
  · have hlt := div_lt_words hw (Nat.lt_of_not_le hge)
    rw [bitmapTestIn_eq hlt, markUsedIn_eq hlt, if_neg hge, if_neg hge]
    simp only [Option.bind_eq_bind, Option.bind_some]
    split <;> rfl

/-- With a bit for every frame, no access is outside the bitmap. -/
theorem PmmOp.runIn_eq (hw : s.totalFrames ≤ 32 * words) (op : PmmOp) :
    op.runIn words s = some (op.run s) := by
  cases op with
  | allocFrame => simp [runIn, run, pmmAllocFrameIn_eq hw]
  | allocFrames count => simp [runIn, run, pmmAllocFramesIn_eq hw]
  | freeFrame addr => exact pmmFreeFrameIn_eq hw _
  | freeFrames addr count =>
      refine foldlM_eq (P := fun t => t.totalFrames ≤ 32 * words) (fun t i _ ht => ?_) hw
      exact ⟨pmmFreeFrameIn_eq ht _, by rwa [pmmFreeFrame_totalFrames]⟩
  | reserveFrame addr => exact pmmReserveFrameIn_eq hw _
  | reserveRegion start stop =>
      refine foldlM_eq (P := fun t => t.totalFrames ≤ 32 * words) (fun t i _ ht => ?_) hw
      exact ⟨pmmReserveFrameIn_eq ht _, by rwa [pmmReserveFrame_totalFrames]⟩

end Agree

/-! ## The counter -/

/-- From `s` to `s'` the counter stays right, and no bit above the frames changes. -/
structure Balanced (s s' : Pmm) : Prop where
  total : s'.totalFrames = s.totalFrames
  above : ∀ f, s.totalFrames ≤ f → s'.isUsed f = s.isUsed f
  used : s.totalFrames < 2 ^ 64 → s.usedFrames = s.setBits → s'.usedFrames = s'.setBits

/-- From `s` to `s'` the counter falls behind the set bits by `d`, as a 64-bit number. -/
structure Drift (d : Nat) (s s' : Pmm) : Prop where
  total : s'.totalFrames = s.totalFrames
  highest : s'.highestAddress = s.highestAddress
  used : s'.usedFrames + s.setBits + d ≡ s.usedFrames + s'.setBits [MOD 2 ^ 64]
  lt : s.usedFrames < 2 ^ 64 → s'.usedFrames < 2 ^ 64

/-- The counter moves with the set bits, and no bit above the frames changes. -/
structure InStep (s s' : Pmm) : Prop extends Drift 0 s s' where
  above : ∀ f, s.totalFrames ≤ f → s'.isUsed f = s.isUsed f

section Count

variable {s s' s'' : Pmm} {d d' f : Nat}

theorem Drift.refl (s : Pmm) : Drift 0 s s := ⟨rfl, rfl, Nat.ModEq.rfl, id⟩

theorem Drift.trans (h : Drift d s s') (h' : Drift d' s' s'') : Drift (d + d') s s'' := by
  refine ⟨h'.total.trans h.total, h'.highest.trans h.highest, ?_, fun hlt => h'.lt (h.lt hlt)⟩
  have hsum := h.used.add h'.used
  refine Nat.ModEq.add_right_cancel' (s'.usedFrames + s'.setBits) ?_
  rw [show s''.usedFrames + s.setBits + (d + d') + (s'.usedFrames + s'.setBits)
      = s'.usedFrames + s.setBits + d + (s''.usedFrames + s'.setBits + d') by omega,
    show s.usedFrames + s''.setBits + (s'.usedFrames + s'.setBits)
      = s.usedFrames + s'.setBits + (s'.usedFrames + s''.setBits) by omega]
  exact hsum

theorem InStep.refl (s : Pmm) : InStep s s := ⟨.refl s, fun _ _ => rfl⟩

theorem InStep.trans (h : InStep s s') (h' : InStep s' s'') : InStep s s'' := by
  refine ⟨h.toDrift.trans h'.toDrift, fun f hf => ?_⟩
  rw [h'.above f (h.total ▸ hf), h.above f hf]

theorem InStep.foldl {α : Type} {step : Pmm → α → Pmm} (h : ∀ s a, InStep s (step s a))
    (l : List α) (s : Pmm) : InStep s (l.foldl step s) := by
  induction l generalizing s with
  | nil => exact .refl s
  | cons a l ih => exact (h s a).trans (ih _)

theorem setBits_le (s : Pmm) : s.setBits ≤ s.totalFrames := by
  have := List.countP_le_length (p := s.isUsed) (l := List.range s.totalFrames)
  rwa [List.length_range] at this

theorem InStep.balanced (h : InStep s s') : Balanced s s' := by
  refine ⟨h.total, h.above, fun ht hu => ?_⟩
  have hle := setBits_le s
  have hle' := setBits_le s'
  have hmod := h.used
  rw [hu, Nat.add_zero, Nat.add_comm s.setBits] at hmod
  exact (Nat.ModEq.add_right_cancel' _ hmod).eq_of_lt_of_lt (h.lt (by omega))
    (by rw [h.total] at hle'; omega)

theorem markUsed_inStep (hf : f < s.totalFrames) (hfree : s.isUsed f = false) :
    InStep s (markUsed s f) := by
  refine ⟨⟨rfl, rfl, ?_, fun _ => Nat.mod_lt _ (by decide)⟩, fun g hg => ?_⟩
  · have hset : (markUsed s f).setBits = s.setBits + 1 := Bitmap.count_set hf hfree
    have hnow : (markUsed s f).usedFrames = u64 (s.usedFrames + 1) := rfl
    rw [hset, hnow, Nat.ModEq, u64]
    omega
  · have : g ≠ f := by omega
    simp [markUsed_isUsed, this]

theorem markFreed_inStep (hf : f < s.totalFrames) (hused : s.isUsed f = true) :
    InStep s (markFreed s f) := by
  refine ⟨⟨rfl, rfl, ?_, fun _ => Nat.mod_lt _ (by decide)⟩, fun g hg => ?_⟩
  · have hclear : s.setBits = (markFreed s f).setBits + 1 := Bitmap.count_clear hf hused
    have hnow : (markFreed s f).usedFrames = u64 (s.usedFrames + 2 ^ 64 - 1) := rfl
    rw [hclear, hnow, Nat.ModEq, u64]
    omega
  · have : g ≠ f := by omega
    simp [markFreed_isUsed, this]

/-- A run of free frames is marked one by one. -/
theorem foldl_markUsed_inStep {a n : Nat} (h : s.FreeRun a n) :
    InStep s (((List.range n).map (a + ·)).foldl markUsed s) := by
  induction n with
  | zero => exact .refl s
  | succ n ih =>
      have hpre := ih fun i hi => h i (Nat.lt_succ_of_lt hi)
      rw [List.range_succ, List.map_append, List.foldl_append]
      refine hpre.trans (markUsed_inStep ?_ ?_)
      · rw [hpre.total]
        exact (h n (Nat.lt_succ_self n)).1
      · have hmem : a + n ∉ (List.range n).map (a + ·) := by simp
        simp [foldl_markUsed_isUsed, hmem, (h n (Nat.lt_succ_self n)).2]

theorem pmmFreeFrame_inStep (s : Pmm) (addr : Nat) : InStep s (pmmFreeFrame s addr) := by
  simp only [pmmFreeFrame, bitmapTest_eq]
  split
  · exact .refl s
  · split
    · exact .refl s
    · rename_i hlt hused
      exact markFreed_inStep (Nat.lt_of_not_le hlt) (by simpa using hused)

theorem pmmReserveFrame_inStep (s : Pmm) (addr : Nat) : InStep s (pmmReserveFrame s addr) := by
  simp only [pmmReserveFrame, bitmapTest_eq]
  split
  · exact .refl s
  · split
    · rename_i hlt hfree
      exact markUsed_inStep (Nat.lt_of_not_le hlt) hfree
    · exact .refl s

theorem pmmFreeFrames_inStep (s : Pmm) (addr count : Nat) :
    InStep s (pmmFreeFrames s addr count) :=
  .foldl (fun s _ => pmmFreeFrame_inStep s _) _ s

theorem pmmReserveRegion_inStep (s : Pmm) (start stop : Nat) :
    InStep s (pmmReserveRegion s start stop) :=
  .foldl (fun s _ => pmmReserveFrame_inStep s _) _ s

theorem pmmAllocFrame_inStep (s : Pmm) : InStep s (pmmAllocFrame s).2 := by
  rcases pmmAllocFrame_cases s with h | ⟨f, hf, hfree, h⟩
  · rw [h]
    exact .refl s
  · rw [h]
    exact markUsed_inStep hf hfree

theorem pmmAllocFrames_inStep (s : Pmm) (count : Nat) : InStep s (pmmAllocFrames s count).2 := by
  by_cases hc : count = 0
  · rw [pmmAllocFrames, if_pos hc]
    exact .refl s
  · rcases pmmAllocFrames_cases s hc with ⟨h, -⟩ | ⟨a, hrun, -, h⟩
    · rw [h]
      exact .refl s
    · rw [h]
      exact foldl_markUsed_inStep hrun

theorem PmmOp.run_inStep (s : Pmm) (op : PmmOp) : InStep s (op.run s) := by
  cases op with
  | allocFrame => exact pmmAllocFrame_inStep s
  | allocFrames count => exact pmmAllocFrames_inStep s _
  | freeFrame addr => exact pmmFreeFrame_inStep s _
  | freeFrames addr count => exact pmmFreeFrames_inStep s _ _
  | reserveFrame addr => exact pmmReserveFrame_inStep s _
  | reserveRegion start stop => exact pmmReserveRegion_inStep s _ _

theorem clearBits_eq (hu : s.usedFrames = s.setBits) :
    s.usedFrames + s.clearBits = s.totalFrames := by
  rw [hu]
  exact Bitmap.count_add_clear s.frameBitmap s.totalFrames

end Count

/-- From any state with a right counter and a bit for every frame, whatever is called:
no access leaves the bitmap, the counter stays right, the bits above the frames stay,
and the statistics report the clear bits. -/
theorem pmm_accounting (words : Nat) (s : Pmm) (ht : s.totalFrames < 2 ^ 64)
    (hw : s.totalFrames ≤ 32 * words) (hu : s.usedFrames = s.setBits) (ops : List PmmOp) :
    ops.foldlM (PmmOp.runIn words) s = some (ops.foldl PmmOp.run s)
      ∧ (ops.foldl PmmOp.run s).totalFrames = s.totalFrames
      ∧ (ops.foldl PmmOp.run s).usedFrames = (ops.foldl PmmOp.run s).setBits
      ∧ (∀ f, s.totalFrames ≤ f → (ops.foldl PmmOp.run s).isUsed f = s.isUsed f)
      ∧ (ops.foldl PmmOp.run s).usedFrames ≤ (ops.foldl PmmOp.run s).totalFrames
      ∧ (pmmGetStats (ops.foldl PmmOp.run s)).freeFrames
        = (ops.foldl PmmOp.run s).clearBits := by
  have hb := (InStep.foldl PmmOp.run_inStep ops s).balanced
  have hused := hb.used ht hu
  have hsum := clearBits_eq hused
  refine ⟨?_, hb.total, hused, hb.above, by omega, ?_⟩
  · refine foldlM_eq (P := fun t => t.totalFrames ≤ 32 * words) (fun t op _ hop => ?_) hw
    exact ⟨op.runIn_eq hop, by rwa [(op.run_inStep t).total]⟩
  · have htotal := hb.total
    simp only [pmmGetStats, u64]
    omega

/-- Forty frames in two words, all free. -/
def fortyFrames : Pmm := ⟨fun _ => 0#32, 40, 0, 0, 0⟩

theorem pmm_accounting_forty :
    ([.allocFrames 3, .reserveRegion 0 0x5001, .freeFrame 0x1000, .freeFrame 0x1FFF].foldl
        PmmOp.run fortyFrames).usedFrames
      = ([.allocFrames 3, .reserveRegion 0 0x5001, .freeFrame 0x1000, .freeFrame 0x1FFF].foldl
        PmmOp.run fortyFrames).setBits :=
  (pmm_accounting 2 fortyFrames (by decide) (by decide) (by decide) _).2.2.1

end Matryoshka
