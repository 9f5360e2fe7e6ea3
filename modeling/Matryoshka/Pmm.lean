import Matryoshka.Word
import Matryoshka.Bitmap
import Mathlib.Data.List.Range

/-!
# The physical memory manager

`kernel/mm/pmm.c`: a bitmap of 32-bit words with one bit per 4 KiB frame,
placed in memory at `_kernel_end`. `frameBitmap` is that memory read as
words from `bitmap_location` upwards; `uint64_t` values are naturals
reduced by `u64` where the C expression can wrap, and the sentinel
`(uint64_t)-1` of `find_free_frame` is `none`.

The Multiboot2 memory map enters as the list of its entries; `none`
stands for a missing map, on which `pmm_init` returns at once. Console
output is not modelled.
-/

namespace Matryoshka

/-! ## Data -/

def PMM_FRAME_SIZE : Nat := 4096

def addrToFrame (a : Nat) : Nat := a / PMM_FRAME_SIZE

def frameToAddr (f : Nat) : Nat := u64 (f * PMM_FRAME_SIZE)

def MULTIBOOT_MEMORY_AVAILABLE : UInt32 := 1

structure MmapEntry where
  addr : UInt64
  len : UInt64
  type : UInt32
deriving Repr, DecidableEq

/-- The linker symbol `_kernel_end`: `linker.ld` aligns it to 4 KiB. -/
structure KernelEnd where
  addr : Nat
  lt : addr < 2 ^ 32
  aligned : addr % 4096 = 0
deriving Repr, DecidableEq

structure Pmm where
  frameBitmap : Nat → BitVec 32
  totalFrames : Nat
  usedFrames : Nat
  totalMemory : Nat
  highestAddress : Nat

/-- The static variables before the first `pmm_init`, over any memory. -/
def Pmm.static (w : Nat → BitVec 32) : Pmm := ⟨w, 0, 0, 0, 0⟩

/-! ## The bitmap -/

def bitmapSet (s : Pmm) (frame : Nat) : Pmm :=
  { s with frameBitmap := Bitmap.set s.frameBitmap frame }

def bitmapClear (s : Pmm) (frame : Nat) : Pmm :=
  { s with frameBitmap := Bitmap.clear s.frameBitmap frame }

def bitmapTest (s : Pmm) (frame : Nat) : Bool := Bitmap.test s.frameBitmap frame

/-- The inner loop of `find_free_frame`, over one word. -/
def scanWord (s : Pmm) (i : Nat) : Option Nat :=
  if s.frameBitmap i ≠ 0xFFFFFFFF#32 then
    (List.range 32).findSome? fun j =>
      let frame := i * 32 + j
      if frame < s.totalFrames ∧ bitmapTest s frame = false then some frame else none
  else none

/-- The word-skipping scan. It visits the `total_frames / 32` full words only. -/
def findFreeFrame (s : Pmm) : Option Nat :=
  (List.range (s.totalFrames / 32)).findSome? (scanWord s)

/-! ## Allocation and release -/

def markUsed (s : Pmm) (frame : Nat) : Pmm :=
  { bitmapSet s frame with usedFrames := u64 (s.usedFrames + 1) }

def markFreed (s : Pmm) (frame : Nat) : Pmm :=
  { bitmapClear s frame with usedFrames := u64 (s.usedFrames + 2 ^ 64 - 1) }

def pmmAllocFrame (s : Pmm) : Nat × Pmm :=
  match findFreeFrame s with
  | none => (0, s)
  | some frame => (frameToAddr frame, markUsed s frame)

/-- The contiguous scan of `pmm_alloc_frames`, `n` frames before the end. -/
def scanContiguous (s : Pmm) (count : Nat) : (n frame startFrame foundCount : Nat) → Option Nat
  | 0, _, _, _ => none
  | n + 1, frame, startFrame, foundCount =>
      if bitmapTest s frame = false then
        let startFrame := if foundCount = 0 then frame else startFrame
        let foundCount := foundCount + 1
        if foundCount = count then some startFrame
        else scanContiguous s count n (frame + 1) startFrame foundCount
      else scanContiguous s count n (frame + 1) startFrame 0

def pmmAllocFrames (s : Pmm) (count : Nat) : Nat × Pmm :=
  if count = 0 then (0, s)
  else
    match scanContiguous s count s.totalFrames 0 0 0 with
    | none => (0, s)
    | some startFrame =>
        (frameToAddr startFrame,
          (List.range count).foldl (fun s i => markUsed s (startFrame + i)) s)

def pmmFreeFrame (s : Pmm) (addr : Nat) : Pmm :=
  let frame := addrToFrame addr
  if s.totalFrames ≤ frame then s
  else if bitmapTest s frame = false then s
  else markFreed s frame

/-- `i * PMM_FRAME_SIZE` is a 32-bit product. -/
def pmmFreeFrames (s : Pmm) (addr count : Nat) : Pmm :=
  (List.range count).foldl
    (fun s i => pmmFreeFrame s (u64 (addr + i * PMM_FRAME_SIZE % 2 ^ 32))) s

def pmmReserveFrame (s : Pmm) (addr : Nat) : Pmm :=
  let frame := addrToFrame addr
  if s.totalFrames ≤ frame then s
  else if bitmapTest s frame = false then markUsed s frame
  else s

/-- The last frame `pmm_reserve_region(_, end)` may reserve. -/
def endFrame (stop : Nat) : Nat :=
  addrToFrame stop + if stop % PMM_FRAME_SIZE ≠ 0 then 1 else 0

def pmmReserveRegion (s : Pmm) (start stop : Nat) : Pmm :=
  (List.range' (addrToFrame start)
      (min (endFrame stop + 1) s.totalFrames - addrToFrame start)).foldl
    (fun s frame => pmmReserveFrame s (frameToAddr frame)) s

/-! ## Initialisation -/

/-- `entry->addr + entry->len`, a 64-bit sum. -/
def MmapEntry.stop (e : MmapEntry) : Nat := u64 (e.addr.toNat + e.len.toNat)

def MmapEntry.isAvailable (e : MmapEntry) : Bool := e.type = MULTIBOOT_MEMORY_AVAILABLE

def scanEntry (s : Pmm) (e : MmapEntry) : Pmm :=
  if e.isAvailable then
    { s with
      totalMemory := u64 (s.totalMemory + e.len.toNat)
      highestAddress := if s.highestAddress < e.stop then e.stop else s.highestAddress }
  else s

def framesOf (highestAddress : Nat) : Nat :=
  highestAddress / PMM_FRAME_SIZE + if highestAddress % PMM_FRAME_SIZE ≠ 0 then 1 else 0

/-- Bytes of bitmap, rounded up to whole words. -/
def bitmapSize (totalFrames : Nat) : Nat :=
  let size := totalFrames / 8 + if totalFrames % 8 ≠ 0 then 1 else 0
  if size % 4 ≠ 0 then size + (4 - size % 4) else size

def clearEntry (s : Pmm) (e : MmapEntry) : Pmm :=
  if e.isAvailable then
    (List.range' (addrToFrame e.addr.toNat)
        (min (addrToFrame e.stop) s.totalFrames - addrToFrame e.addr.toNat)).foldl markFreed s
  else s

/-- `(uint64_t)bitmap_location`: the compiler sign-extends a 32-bit pointer. -/
def ptrToU64 (p : Nat) : Nat := if p < 2 ^ 31 then p else p + (2 ^ 64 - 2 ^ 32)

def bitmapEnd (kernelEnd : KernelEnd) (totalFrames : Nat) : Nat :=
  u64 (ptrToU64 kernelEnd.addr + bitmapSize totalFrames)

def fillBitmap (s : Pmm) : Pmm :=
  { s with
    frameBitmap := fun i =>
      if i < bitmapSize s.totalFrames / 4 then 0xFFFFFFFF#32 else s.frameBitmap i
    usedFrames := s.totalFrames }

def pmmInit (kernelEnd : KernelEnd) (mmap : Option (List MmapEntry)) (s : Pmm) : Pmm :=
  match mmap with
  | none => s
  | some entries =>
      let s := entries.foldl scanEntry s
      let s := { s with totalFrames := framesOf s.highestAddress }
      let s := fillBitmap s
      let s := entries.foldl clearEntry s
      pmmReserveRegion s 0 (bitmapEnd kernelEnd s.totalFrames)

/-! ## Statistics -/

structure PmmStats where
  totalFrames : Nat
  usedFrames : Nat
  freeFrames : Nat
  totalMemory : Nat
  usedMemory : Nat
  freeMemory : Nat
deriving Repr, DecidableEq

def pmmGetStats (s : Pmm) : PmmStats :=
  let free := u64 (s.totalFrames + 2 ^ 64 - s.usedFrames)
  { totalFrames := s.totalFrames
    usedFrames := s.usedFrames
    freeFrames := free
    totalMemory := s.totalMemory
    usedMemory := u64 (s.usedFrames * PMM_FRAME_SIZE)
    freeMemory := u64 (free * PMM_FRAME_SIZE) }

end Matryoshka
