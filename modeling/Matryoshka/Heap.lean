import Matryoshka.Word
import Matryoshka.ByteMem

/-!
# The kernel heap allocator

`kernel/mm/heap.c` over byte memory. A block header is sixteen bytes on
the 32-bit target: magic at offset 0, size at 4, the `is_free` byte at 8
(three bytes of padding) and the next pointer at 12. Addresses and
`size_t` values are naturals below 2^32, reduced by `u32` wherever the C
expression can wrap; a null pointer is 0.

The two pointer-chasing loops take `heapFuel`, one more than the number
of headers that fit into the heap; `HeapRefine` shows that a well-formed
heap never exhausts it. Console output is not modelled.
-/

namespace Matryoshka

open ByteMem

/-! ## Configuration -/

def HEAP_START : Nat := 0x00200000

def HEAP_INITIAL : Nat := 0x00100000

def HEAP_MAGIC : Nat := 0xDEADBEEF

/-- `sizeof(heap_block_t)`. -/
def sizeofBlock : Nat := 16

/-! ## Block headers -/

def blockMagic (m : Mem) (p : Nat) : Nat := (load32 m p).toNat

def blockSize (m : Mem) (p : Nat) : Nat := (load32 m (p + 4)).toNat

def blockIsFree (m : Mem) (p : Nat) : Bool := m (p + 8) != 0#8

def blockNext (m : Mem) (p : Nat) : Nat := (load32 m (p + 12)).toNat

def setMagic (m : Mem) (p v : Nat) : Mem := store32 m p (BitVec.ofNat 32 v)

def setSize (m : Mem) (p v : Nat) : Mem := store32 m (p + 4) (BitVec.ofNat 32 v)

def setIsFree (m : Mem) (p : Nat) (v : Bool) : Mem :=
  store8 m (p + 8) (if v then 1#8 else 0#8)

def setNext (m : Mem) (p v : Nat) : Mem := store32 m (p + 12) (BitVec.ofNat 32 v)

/-! ## State and operations -/

structure Heap where
  mem : Mem
  heapStart : Nat
  heapTotal : Nat
  heapUsed : Nat

def heapInit (m : Mem) : Heap :=
  let m := setMagic m HEAP_START HEAP_MAGIC
  let m := setSize m HEAP_START (HEAP_INITIAL - sizeofBlock)
  let m := setIsFree m HEAP_START true
  let m := setNext m HEAP_START 0
  { mem := m, heapStart := HEAP_START, heapTotal := HEAP_INITIAL, heapUsed := sizeofBlock }

def heapFuel : Nat := HEAP_INITIAL / sizeofBlock + 1

def findFreeBlock (m : Mem) (size : Nat) : Nat → Nat → Nat
  | 0, _ => 0
  | fuel + 1, current =>
      if current = 0 then 0
      else if blockMagic m current ≠ HEAP_MAGIC then 0
      else if blockIsFree m current && decide (size ≤ blockSize m current) then current
      else findFreeBlock m size fuel (blockNext m current)

def splitBlock (m : Mem) (block size : Nat) : Mem :=
  if u32 (size + sizeofBlock + 16) ≤ blockSize m block then
    let newBlock := u32 (block + sizeofBlock + size)
    let m := setMagic m newBlock HEAP_MAGIC
    let m := setSize m newBlock
      (u32 (blockSize m block + 2 ^ 32 - u32 (size + sizeofBlock)))
    let m := setIsFree m newBlock true
    let m := setNext m newBlock (blockNext m block)
    let m := setSize m block size
    setNext m block newBlock
  else m

def mergeFreeBlocks (m : Mem) : Nat → Nat → Mem
  | 0, _ => m
  | fuel + 1, current =>
      if current = 0 ∨ blockNext m current = 0 then m
      else
        let next := blockNext m current
        if blockIsFree m current && blockIsFree m next then
          let m := setSize m current
            (u32 (blockSize m current + sizeofBlock + blockSize m next))
          let m := setNext m current (blockNext m next)
          mergeFreeBlocks m fuel current
        else mergeFreeBlocks m fuel next

def kmalloc (s : Heap) (size : Nat) : Nat × Heap :=
  if size = 0 then (0, s)
  else
    let size := align8 size
    let block := findFreeBlock s.mem size heapFuel s.heapStart
    if block = 0 then (0, s)
    else
      let m := splitBlock s.mem block size
      let m := setIsFree m block false
      (u32 (block + sizeofBlock),
        { s with mem := m, heapUsed := u32 (s.heapUsed + sizeofBlock + blockSize m block) })

def kzalloc (s : Heap) (size : Nat) : Nat × Heap :=
  let (ptr, s) := kmalloc s size
  if ptr ≠ 0 then (ptr, { s with mem := fillUp s.mem ptr 0#8 size }) else (ptr, s)

def kfree (s : Heap) (ptr : Nat) : Heap :=
  if ptr = 0 then s
  else
    let block := u32 (ptr + 2 ^ 32 - sizeofBlock)
    if blockMagic s.mem block ≠ HEAP_MAGIC then s
    else if blockIsFree s.mem block then s
    else
      let m := setIsFree s.mem block true
      { s with
        mem := mergeFreeBlocks m heapFuel s.heapStart
        heapUsed := u32 (s.heapUsed + 2 ^ 32 - u32 (sizeofBlock + blockSize m block)) }

/-- The copy loop of `krealloc`; the bound `block->size` is read again on every
iteration. -/
def reallocCopy (block src dst size : Nat) : Nat → Nat → Mem → Mem
  | 0, _, m => m
  | n + 1, i, m =>
      if i < blockSize m block ∧ i < size then
        reallocCopy block src dst size n (i + 1) (store8 m (dst + i) (m (src + i)))
      else m

def krealloc (s : Heap) (ptr size : Nat) : Nat × Heap :=
  if ptr = 0 then kmalloc s size
  else if size = 0 then (0, kfree s ptr)
  else
    let block := u32 (ptr + 2 ^ 32 - sizeofBlock)
    if size ≤ blockSize s.mem block then (ptr, s)
    else
      let (newPtr, s) := kmalloc s size
      if newPtr = 0 then (0, s)
      else
        let s := { s with mem := reallocCopy block ptr newPtr size size 0 s.mem }
        (newPtr, kfree s ptr)

/-- Total, used and free bytes as `heap_get_stats` reports them. -/
def heapGetStats (s : Heap) : Nat × Nat × Nat :=
  (s.heapTotal, s.heapUsed, u32 (s.heapTotal + 2 ^ 32 - s.heapUsed))

/-! ## What a header store changes -/

section Headers

variable {m : Mem} {p q v : Nat} {f : Bool}

@[simp] theorem blockMagic_setMagic : blockMagic (setMagic m p v) p = u32 v := by
  simp [blockMagic, setMagic, u32]

@[simp] theorem blockSize_setMagic : blockSize (setMagic m p v) p = blockSize m p := by
  rw [blockSize, setMagic, load32_store32_of_disjoint (by omega), blockSize]

@[simp] theorem blockIsFree_setMagic : blockIsFree (setMagic m p v) p = blockIsFree m p := by
  rw [blockIsFree, setMagic, store32_of_outside (by omega), blockIsFree]

@[simp] theorem blockNext_setMagic : blockNext (setMagic m p v) p = blockNext m p := by
  rw [blockNext, setMagic, load32_store32_of_disjoint (by omega), blockNext]

@[simp] theorem blockMagic_setSize : blockMagic (setSize m p v) p = blockMagic m p := by
  rw [blockMagic, setSize, load32_store32_of_disjoint (by omega), blockMagic]

@[simp] theorem blockSize_setSize : blockSize (setSize m p v) p = u32 v := by
  simp [blockSize, setSize, u32]

@[simp] theorem blockIsFree_setSize : blockIsFree (setSize m p v) p = blockIsFree m p := by
  rw [blockIsFree, setSize, store32_of_outside (by omega), blockIsFree]

@[simp] theorem blockNext_setSize : blockNext (setSize m p v) p = blockNext m p := by
  rw [blockNext, setSize, load32_store32_of_disjoint (by omega), blockNext]

@[simp] theorem blockMagic_setIsFree : blockMagic (setIsFree m p f) p = blockMagic m p := by
  rw [blockMagic, setIsFree, load32_store8_of_outside (by omega), blockMagic]

@[simp] theorem blockSize_setIsFree : blockSize (setIsFree m p f) p = blockSize m p := by
  rw [blockSize, setIsFree, load32_store8_of_outside (by omega), blockSize]

@[simp] theorem blockIsFree_setIsFree : blockIsFree (setIsFree m p f) p = f := by
  cases f <;> simp [blockIsFree, setIsFree]

@[simp] theorem blockNext_setIsFree : blockNext (setIsFree m p f) p = blockNext m p := by
  rw [blockNext, setIsFree, load32_store8_of_outside (by omega), blockNext]

@[simp] theorem blockMagic_setNext : blockMagic (setNext m p v) p = blockMagic m p := by
  rw [blockMagic, setNext, load32_store32_of_disjoint (by omega), blockMagic]

@[simp] theorem blockSize_setNext : blockSize (setNext m p v) p = blockSize m p := by
  rw [blockSize, setNext, load32_store32_of_disjoint (by omega), blockSize]

@[simp] theorem blockIsFree_setNext : blockIsFree (setNext m p v) p = blockIsFree m p := by
  rw [blockIsFree, setNext, store32_of_outside (by omega), blockIsFree]

@[simp] theorem blockNext_setNext : blockNext (setNext m p v) p = u32 v := by
  simp [blockNext, setNext, u32]

theorem setMagic_of_outside (h : q < p ∨ p + 16 ≤ q) : setMagic m p v q = m q :=
  store32_of_outside (by omega)

theorem setSize_of_outside (h : q < p ∨ p + 16 ≤ q) : setSize m p v q = m q :=
  store32_of_outside (by omega)

theorem setIsFree_of_outside (h : q < p ∨ p + 16 ≤ q) : setIsFree m p f q = m q :=
  store8_of_ne (by omega)

theorem setNext_of_outside (h : q < p ∨ p + 16 ≤ q) : setNext m p v q = m q :=
  store32_of_outside (by omega)

end Headers

end Matryoshka
