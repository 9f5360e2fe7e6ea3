import Matryoshka.ByteMem
import Matryoshka.Pmm
import Mathlib.Logic.Function.Basic

/-!
# The virtual memory manager

`kernel/mm/vmm.c`: two-level paging with 1024 page tables of 1024 entries.
The page directory is a static array of the kernel; the tables are frames
of the PMM and are read and written in byte memory at their physical
addresses. A 64-bit frame address becomes a pointer by truncation to 32
bits. Loading CR3, enabling paging, TLB flushes, the page-fault handler
and console output are not modelled; `int` results are integers.
-/

namespace Matryoshka

open ByteMem

/-! ## Entries and indices -/

def PTE_PRESENT : BitVec 32 := 1#32 <<< 0

def PTE_WRITABLE : BitVec 32 := 1#32 <<< 1

def PTE_USER : BitVec 32 := 1#32 <<< 2

def PTE_ADDR_MASK : BitVec 32 := 0xFFFFF000#32

def PAGE_SIZE : Nat := 4096

def PAGES_PER_TABLE : Nat := 1024

def TABLES_PER_DIR : Nat := 1024

/-- `(e & flag) != 0`. -/
def hasFlag (e flag : BitVec 32) : Bool := (e &&& flag) != 0#32

def pdIndex (va : BitVec 32) : Nat := ((va >>> 22) &&& 0x3FF#32).toNat

def ptIndex (va : BitVec 32) : Nat := ((va >>> 12) &&& 0x3FF#32).toNat

def vmmOffset (va : BitVec 32) : BitVec 32 := va &&& 0xFFF#32

/-! ## State -/

structure Vmm where
  mem : Mem
  pageDirectory : Nat → BitVec 32
  mappedPages : Nat
  pageTables : Nat
  identityEnd : Nat
  pmm : Pmm

/-- The page table an entry of the directory points to. -/
def tableAddr (e : BitVec 32) : Nat := (e &&& PTE_ADDR_MASK).toNat

def setPde (s : Vmm) (i : Nat) (e : BitVec 32) : Vmm :=
  { s with pageDirectory := Function.update s.pageDirectory i e }

/-- `page_directory[i] |= PTE_USER`. -/
def setUserPde (s : Vmm) (i : Nat) : Vmm := setPde s i (s.pageDirectory i ||| PTE_USER)

/-- `pt[j]` for the table of directory entry `i`. -/
def readPte (s : Vmm) (i j : Nat) : BitVec 32 :=
  load32 s.mem (tableAddr (s.pageDirectory i) + 4 * j)

def writePte (s : Vmm) (i j : Nat) (e : BitVec 32) : Vmm :=
  { s with mem := store32 s.mem (tableAddr (s.pageDirectory i) + 4 * j) e }

/-! ## Initialisation -/

/-- The number of page tables `vmm_init` identity-maps, in 32-bit arithmetic. -/
def numPde (totalMemory : Nat) : Nat :=
  let memBytes := if 0xFFFFFFFF < totalMemory then 0xFFFFFFFF else u32 totalMemory
  let n := u32 (memBytes + 0x3FFFFF) / 2 ^ 22
  let n := if TABLES_PER_DIR < n then TABLES_PER_DIR else n
  if n = 0 then 1 else n

def identityEntry (i j : Nat) : BitVec 32 :=
  ((BitVec.ofNat 32 i <<< 22) ||| (BitVec.ofNat 32 j <<< 12)) ||| PTE_PRESENT ||| PTE_WRITABLE

/-- The first `n` entries of the table at `pt`. -/
def fillIdentity (m : Mem) (pt i : Nat) : Nat → Mem
  | 0 => m
  | j + 1 => store32 (fillIdentity m pt i j) (pt + 4 * j) (identityEntry i j)

/-- The directory entry for a table at `a`, truncated to a 32-bit pointer. -/
def tablePde (a : Nat) : BitVec 32 := BitVec.ofNat 32 a ||| PTE_PRESENT ||| PTE_WRITABLE

/-- The frame the PMM hands out, filled and entered as table `i`. -/
def installTable (s : Vmm) (i : Nat) (fill : Mem → Nat → Mem) : Vmm :=
  let (ptPhys, pmm) := pmmAllocFrame s.pmm
  { s with
    pmm := pmm
    mem := fill s.mem (u32 ptPhys)
    pageDirectory := Function.update s.pageDirectory i (tablePde ptPhys)
    pageTables := u32 (s.pageTables + 1) }

def initTable (s : Vmm) (i : Nat) : Vmm :=
  installTable s i fun m pt => fillIdentity m pt i PAGES_PER_TABLE

/-- The loop with `n` iterations left; `false` is the early return. -/
def initTables : (n i : Nat) → Vmm → Bool × Vmm
  | 0, _, s => (true, s)
  | n + 1, i, s =>
      if (pmmAllocFrame s.pmm).1 = 0 then (false, { s with pmm := (pmmAllocFrame s.pmm).2 })
      else initTables n (i + 1) (initTable s i)

/-- Both `memset`s. -/
def clearVmm (s : Vmm) : Vmm :=
  { s with pageDirectory := fun _ => 0#32, mappedPages := 0, pageTables := 0, identityEnd := 0 }

/-- The number of tables to build. -/
def initCount (s : Vmm) : Nat := numPde (pmmGetStats s.pmm).totalMemory

def setStats (s : Vmm) (mappedPages identityEnd : Nat) : Vmm :=
  { s with mappedPages := mappedPages, identityEnd := identityEnd }

def vmmInit (s : Vmm) : Int × Vmm :=
  let r := initTables (initCount s) 0 (clearVmm s)
  if r.1 then
    (0, setStats r.2 (u32 (initCount s * PAGES_PER_TABLE)) (u32 (initCount s * 0x400000)))
  else (-1, r.2)

/-! ## Mapping -/

def zeroTable (s : Vmm) (i : Nat) : Vmm :=
  installTable s i fun m pt => fillUp m pt 0#8 PAGE_SIZE

/-- The first block of `vmm_map`; `false` is the early return. -/
def ensureTable (s : Vmm) (i : Nat) : Bool × Vmm :=
  if hasFlag (s.pageDirectory i) PTE_PRESENT then (true, s)
  else if (pmmAllocFrame s.pmm).1 = 0 then (false, { s with pmm := (pmmAllocFrame s.pmm).2 })
  else (true, zeroTable s i)

/-- `flags & PTE_USER` is propagated to the directory entry. -/
def propagateUser (s : Vmm) (i : Nat) (flags : BitVec 32) : Vmm :=
  if hasFlag flags PTE_USER then setUserPde s i else s

def vmmMap (s : Vmm) (va pa flags : BitVec 32) : Int × Vmm :=
  match ensureTable s (pdIndex va) with
  | (false, s) => (-1, s)
  | (true, s) =>
      let s := propagateUser s (pdIndex va) flags
      let s := writePte s (pdIndex va) (ptIndex va)
        ((pa &&& PTE_ADDR_MASK) ||| (flags &&& 0xFFF#32))
      (0, { s with mappedPages := u32 (s.mappedPages + 1) })

def decMapped (s : Vmm) : Vmm :=
  if 0 < s.mappedPages then { s with mappedPages := s.mappedPages - 1 } else s

def vmmUnmap (s : Vmm) (va : BitVec 32) : Int × Vmm :=
  if !hasFlag (s.pageDirectory (pdIndex va)) PTE_PRESENT then (-1, s)
  else if !hasFlag (readPte s (pdIndex va) (ptIndex va)) PTE_PRESENT then (-1, s)
  else (0, decMapped (writePte s (pdIndex va) (ptIndex va) 0#32))

def vmmSetUser (s : Vmm) (va : BitVec 32) : Int × Vmm :=
  if !hasFlag (s.pageDirectory (pdIndex va)) PTE_PRESENT then (-1, s)
  else
    let s := setUserPde s (pdIndex va)
    if !hasFlag (readPte s (pdIndex va) (ptIndex va)) PTE_PRESENT then (-1, s)
    else
      (0, writePte s (pdIndex va) (ptIndex va)
        (readPte s (pdIndex va) (ptIndex va) ||| PTE_USER))

/-! ## Queries -/

def vmmGetPhysical (s : Vmm) (va : BitVec 32) : BitVec 32 :=
  if !hasFlag (s.pageDirectory (pdIndex va)) PTE_PRESENT then 0#32
  else if !hasFlag (readPte s (pdIndex va) (ptIndex va)) PTE_PRESENT then 0#32
  else (readPte s (pdIndex va) (ptIndex va) &&& PTE_ADDR_MASK) ||| vmmOffset va

def vmmIsMapped (s : Vmm) (va : BitVec 32) : Bool :=
  if !hasFlag (s.pageDirectory (pdIndex va)) PTE_PRESENT then false
  else hasFlag (readPte s (pdIndex va) (ptIndex va)) PTE_PRESENT

end Matryoshka
