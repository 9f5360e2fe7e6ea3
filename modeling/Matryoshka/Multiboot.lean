import Matryoshka.Loop
import Matryoshka.ByteMem
import Matryoshka.Pmm

/-!
# Multiboot2 information

`kernel/arch/x86_64/multiboot2.c` over byte memory, and `pmm_init` from the
pointer it is given. Pointers are 32-bit addresses, NULL is 0 and the result
of a search is `none` for NULL.

The parser believes what it reads. `none` outside a result stands for a
call that does not return: a search that never meets its tag nor an END
tag, or a memory map whose entry size is zero, on which the division traps.
A search moves among the 2^32 addresses, so as many rounds decide it
(`multibootFindTag_eq`).

`pmm_init` goes through the map twice. The bitmap it fills in between is
taken not to lie over the boot information, so both passes see one list.
-/

namespace Matryoshka

open ByteMem

/-! ## Tags -/

def MULTIBOOT_TAG_TYPE_END : Nat := 0

def MULTIBOOT_TAG_TYPE_BASIC_MEMINFO : Nat := 4

def MULTIBOOT_TAG_TYPE_MMAP : Nat := 6

def tagType (m : Mem) (tag : Nat) : Nat := (load32 m tag).toNat

def tagSize (m : Mem) (tag : Nat) : Nat := (load32 m (tag + 4)).toNat

/-- One round of `multiboot_find_tag`. -/
def findTagBody (m : Mem) (type tag : Nat) : Option Nat ⊕ Nat :=
  if tagType m tag = MULTIBOOT_TAG_TYPE_END then .inl none
  else if tagType m tag = type then .inl (some tag)
  else .inr (u32 (tag + align8 (tagSize m tag)))

def multibootFindTag (m : Mem) (mbi type : Nat) : Option (Option Nat) :=
  if mbi = 0 then some none else Loop.run (findTagBody m type) (2 ^ 32) (u32 (mbi + 8))

def multibootGetMmap (m : Mem) (mbi : Nat) : Option (Option Nat) :=
  if mbi = 0 then some none else multibootFindTag m mbi MULTIBOOT_TAG_TYPE_MMAP

/-! ## The memory map -/

/-- `sizeof(multiboot_tag_mmap_t)`. -/
def sizeofTagMmap : Nat := 16

def mmapEntrySize (m : Mem) (tag : Nat) : Nat := (load32 m (tag + 8)).toNat

def mmapEntryAt (m : Mem) (entry : Nat) : MmapEntry :=
  ⟨.ofBitVec (load64 m entry), .ofBitVec (load64 m (entry + 8)), .ofBitVec (load32 m (entry + 16))⟩

/-- The entries a loop over the map sees, `n` of them from `entry` on. -/
def mmapEntriesFrom (m : Mem) (entrySize : Nat) : (n entry : Nat) → List MmapEntry
  | 0, _ => []
  | n + 1, entry => mmapEntryAt m entry :: mmapEntriesFrom m entrySize n (u32 (entry + entrySize))

def mmapEntries (m : Mem) (tag : Nat) : Option (List MmapEntry) :=
  if mmapEntrySize m tag = 0 then none
  else
    let entryCount := u32 (tagSize m tag + 2 ^ 32 - sizeofTagMmap) / mmapEntrySize m tag
    some (mmapEntriesFrom m (mmapEntrySize m tag) entryCount (u32 (tag + sizeofTagMmap)))

def addAvailable (total : Nat) (e : MmapEntry) : Nat :=
  if e.isAvailable then u64 (total + e.len.toNat) else total

/-- Without a map the sizes in KB below and above the first megabyte are added up. -/
def multibootGetTotalMemory (m : Mem) (mbi : Nat) : Option Nat :=
  if mbi = 0 then some 0
  else do
    match ← multibootGetMmap m mbi with
    | some tag => return (← mmapEntries m tag).foldl addAvailable 0
    | none =>
        match ← multibootFindTag m mbi MULTIBOOT_TAG_TYPE_BASIC_MEMINFO with
        | some meminfo =>
            let memLower := (load32 m (meminfo + 8)).toNat
            let memUpper := (load32 m (meminfo + 12)).toNat
            return u64 (memLower * 1024 + memUpper * 1024 + 1024 * 1024)
        | none => return 0

/-! ## The memory manager -/

/-- The map `pmm_init` works on; `none` if it returns before. -/
def multibootMmap (m : Mem) (mbi : Nat) : Option (Option (List MmapEntry)) := do
  match ← multibootGetMmap m mbi with
  | some tag => return some (← mmapEntries m tag)
  | none => return none

/-- `pmm_init(mbi)`. -/
def pmmInitMbi (kernelEnd : KernelEnd) (m : Mem) (mbi : Nat) (s : Pmm) : Option Pmm := do
  return pmmInit kernelEnd (← multibootMmap m mbi) s

/-! ## The search decides -/

theorem findTagBody_lt {m : Mem} {type tag tag' : Nat} (h : findTagBody m type tag = .inr tag') :
    tag' < 2 ^ 32 := by
  unfold findTagBody at h
  split at h
  · cases h
  · split at h
    · cases h
    · obtain rfl := Sum.inr.inj h
      exact Nat.mod_lt _ (Nat.two_pow_pos 32)

/-- Whatever the number of rounds, an answer is the answer. -/
theorem multibootFindTag_eq {m : Mem} {mbi type n : Nat} {r : Option Nat} (hmbi : mbi ≠ 0)
    (h : Loop.run (findTagBody m type) n (u32 (mbi + 8)) = some r) :
    multibootFindTag m mbi type = some r := by
  have hS : ∀ t ∈ Finset.range (2 ^ 32), ∀ t', findTagBody m type t = .inr t' →
      t' ∈ Finset.range (2 ^ 32) := fun t _ t' ht => Finset.mem_range.mpr (findTagBody_lt ht)
  have hstart : u32 (mbi + 8) ∈ Finset.range (2 ^ 32) :=
    Finset.mem_range.mpr (Nat.mod_lt _ (Nat.two_pow_pos 32))
  have := Loop.run_card hS hstart h
  rw [Finset.card_range] at this
  rw [multibootFindTag, if_neg hmbi, this]

end Matryoshka
