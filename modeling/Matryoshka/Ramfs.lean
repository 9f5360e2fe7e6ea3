import Matryoshka.HeapRun
import Matryoshka.LinkedList
import Mathlib.Logic.Function.Basic

/-!
# The RAM file system

`kernel/fs/ramfs.c` with the node type of `vfs.h`. A node pointer is the
node's number, counted in order of creation, and NULL is `none`; nodes are
never freed. A C string is the list of its bytes before the terminating
zero. Every node carries the one operations table of this file, which is
left out.

The outcome of each `kmalloc` is a parameter: whether a node or a payload
was allocated, and for a data buffer the bytes the new block happens to
hold. The only thing taken from the heap is that no block is larger than
it (`kmalloc_size_le`).
-/

namespace Matryoshka

open ByteMem LinkedList

/-! ## Nodes -/

/-- The bytes of a C string. -/
abbrev CStr := List (BitVec 8)

def VFS_NAME_MAX : Nat := 64

def VFS_FILE : BitVec 32 := 0x01#32

def VFS_DIRECTORY : BitVec 32 := 0x02#32

/-- `ramfs_file_t`: a growable buffer. -/
structure RamfsFile where
  data : Option Mem
  capacity : Nat

structure VfsNode where
  name : CStr
  flags : BitVec 32
  size : Nat
  inode : Nat
  fsData : Option RamfsFile
  parent : Option Nat
  children : Option Nat
  next : Option Nat

def VfsNode.isFile (n : VfsNode) : Bool := n.flags &&& VFS_FILE != 0#32

def VfsNode.isDirectory (n : VfsNode) : Bool := n.flags &&& VFS_DIRECTORY != 0#32

/-- The nodes `0, …, count - 1` and the inode counter. -/
structure Ramfs where
  nodes : Nat → VfsNode
  count : Nat
  nextInode : Nat

def Ramfs.setNode (s : Ramfs) (n : Nat) (node : VfsNode) : Ramfs :=
  { s with nodes := Function.update s.nodes n node }

/-! ## Allocation -/

/-- Which of the two allocations of `alloc_node` succeed. -/
structure NodeAlloc where
  node : Bool
  file : Bool

def allocNode (s : Ramfs) (a : NodeAlloc) (name : CStr) (flags : BitVec 32) : Option Nat × Ramfs :=
  if a.node then
    let file := if flags &&& VFS_FILE ≠ 0#32 ∧ a.file then some ⟨none, 0⟩ else none
    (some s.count,
      { nodes := Function.update s.nodes s.count
          ⟨name.take (VFS_NAME_MAX - 1), flags, 0, s.nextInode, file, none, none, none⟩
        count := s.count + 1
        nextInode := u32 (s.nextInode + 1) })
  else (none, s)

/-- `kmalloc(n)` for a data buffer: `blk` is NULL or the bytes of a free block. -/
def kmallocData (blk : Option Mem) (n : Nat) : Option Mem :=
  if n ≤ HEAP_INITIAL then blk else none

/-- `while (new_cap < needed) new_cap *= 2`. Thirty-two doublings leave zero,
from where the loop never ends; `none` is that case. -/
def growCapacity (needed : Nat) : Nat → Nat → Option Nat
  | 0, _ => none
  | fuel + 1, newCap =>
      if newCap < needed then growCapacity needed fuel (u32 (newCap * 2)) else some newCap

/-- The old bytes copied into the new block, and zeros behind them. -/
def growData (f : RamfsFile) (newData : Mem) (newCap : Nat) : Mem :=
  let newData := match f.data with
    | some d => copyUp newData 0 d 0 f.capacity
    | none => newData
  fillUp newData f.capacity 0#8 (newCap - f.capacity)

/-- `ensure_capacity`; `none` if it does not return. -/
def ensureCapacity (f : RamfsFile) (blk : Option Mem) (needed : Nat) :
    Option (Bool × RamfsFile) :=
  if needed ≤ f.capacity then some (true, f)
  else
    match growCapacity needed 33 (if f.capacity ≠ 0 then f.capacity else 64) with
    | none => none
    | some newCap =>
        match kmallocData blk newCap with
        | none => some (false, f)
        | some newData => some (true, ⟨some (growData f newData newCap), newCap⟩)

/-! ## Operations -/

/-- `ramfs_read` into `buf`. -/
def ramfsRead (s : Ramfs) (n off size : Nat) (buf : Mem) : Int × Mem :=
  let node := s.nodes n
  if !node.isFile then (-1, buf)
  else
    match node.fsData with
    | none => (-1, buf)
    | some f =>
        if node.size ≤ off then (0, buf)
        else
          let avail := node.size - off
          let size := if avail < size then avail else size
          let buf := match f.data with
            | some d => copyUp buf 0 d off size
            | none => buf
          (i32 size, buf)

/-- `memcpy(f->data + off, buf, size)` of the bytes `data`. -/
def RamfsFile.put (f : RamfsFile) (off : Nat) (data : List (BitVec 8)) : RamfsFile :=
  { f with data := f.data.map fun d => copyUp d off (fun i => data.getD i 0#8) 0 data.length }

/-- `ramfs_write` of the bytes `data`; `none` if it does not return. -/
def ramfsWrite (s : Ramfs) (n off : Nat) (data : List (BitVec 8)) (blk : Option Mem) :
    Option (Int × Ramfs) :=
  let node := s.nodes n
  if !node.isFile then some (-1, s)
  else
    match node.fsData with
    | none => some (-1, s)
    | some f =>
        let end' := u32 (off + data.length)
        match ensureCapacity f blk end' with
        | none => none
        | some (false, _) => some (-1, s)
        | some (true, f) =>
            let size := if node.size < end' then end' else node.size
            some (i32 data.length,
              s.setNode n { node with size := size, fsData := some (f.put off data) })

def ramfsLookup (s : Ramfs) (dir : Nat) (name : CStr) : Option Nat :=
  if (s.nodes dir).isDirectory then
    findFrom (fun c => (s.nodes c).next) (fun c => (s.nodes c).name == name) s.count
      (s.nodes dir).children
  else none

/-- The loop of `ramfs_readdir`, with its 32-bit counter. -/
def readdirFrom (s : Ramfs) (index : Nat) : Nat → Nat → Option Nat → Option Nat
  | _, _, none => none
  | 0, _, some _ => none
  | fuel + 1, i, some c =>
      if i = index then some c else readdirFrom s index fuel (u32 (i + 1)) (s.nodes c).next

/-- `ramfs_readdir`: the name and type of an entry, `none` for the result -1. -/
def ramfsReaddir (s : Ramfs) (dir index : Nat) : Option (CStr × BitVec 32) :=
  if (s.nodes dir).isDirectory then
    (readdirFrom s index s.count 0 (s.nodes dir).children).map fun c =>
      ((s.nodes c).name, (s.nodes c).flags)
  else none

/-- The last three assignments of `ramfs_create`. -/
def linkChild (s : Ramfs) (parent node : Nat) : Ramfs :=
  let s := s.setNode node
    { s.nodes node with parent := some parent, next := (s.nodes parent).children }
  s.setNode parent { s.nodes parent with children := some node }

def ramfsCreate (s : Ramfs) (a : NodeAlloc) (parent : Nat) (name : CStr) (flags : BitVec 32) :
    Option Nat × Ramfs :=
  if !(s.nodes parent).isDirectory then (none, s)
  else if (ramfsLookup s parent name).isSome then (none, s)
  else
    match allocNode s a name flags with
    | (none, s) => (none, s)
    | (some node, s) => (some node, linkChild s parent node)

/-! ## The heap below -/

/-- No block of a well-formed heap is larger than the heap. -/
theorem kmalloc_size_le {s : Heap} {bs : List Tiling.Seg} (h : HeapWf s bs) {n : Nat}
    (hn : n + 7 < 2 ^ 32) (hp : (kmalloc s n).1 ≠ 0) : n ≤ HEAP_INITIAL := by
  rcases kmalloc_spec h hn with hk | ⟨b, bs', -, hsize, hplaced⟩
  · exact absurd (congrArg Prod.fst hk) hp
  · have hb := (List.mem_filter.mp ((hplaced.used b).mpr (Or.inr rfl))).1
    have := (hplaced.wf.mem_bounds hb).2
    have := (hplaced.wf.mem_bounds hb).1
    omega

/-! ## What the operations do -/

section Spec

variable {s : Ramfs} {a : NodeAlloc} {n dir : Nat}

@[simp] theorem setNode_self (s : Ramfs) (n : Nat) (node : VfsNode) :
    (s.setNode n node).nodes n = node := Function.update_self ..

theorem setNode_of_ne {m : Nat} {node : VfsNode} (h : m ≠ n) :
    (s.setNode n node).nodes m = s.nodes m := Function.update_of_ne h ..

/-- A write that returns fails and changes nothing, or finds a buffer that is large enough,
copies into it and moves the end of the file. -/
theorem ramfsWrite_inv {s' : Ramfs} {off : Nat} {data : List (BitVec 8)} {blk : Option Mem}
    {r : Int} (hw : ramfsWrite s n off data blk = some (r, s')) :
    (r = -1 ∧ s' = s) ∨ ∃ f f', (s.nodes n).isFile = true ∧ (s.nodes n).fsData = some f
      ∧ ensureCapacity f blk (u32 (off + data.length)) = some (true, f')
      ∧ r = i32 data.length
      ∧ s' = s.setNode n { s.nodes n with
          size := if (s.nodes n).size < u32 (off + data.length) then u32 (off + data.length)
            else (s.nodes n).size
          fsData := some (f'.put off data) } := by
  simp only [ramfsWrite] at hw
  split at hw
  · cases hw
    exact Or.inl ⟨rfl, rfl⟩
  · next hfile =>
      split at hw
      · cases hw
        exact Or.inl ⟨rfl, rfl⟩
      · next f hf =>
          split at hw
          · cases hw
          · cases hw
            exact Or.inl ⟨rfl, rfl⟩
          · next f' hcap =>
              cases hw
              exact Or.inr ⟨f, f', by simpa using hfile, hf, hcap, rfl, rfl⟩

/-- What `ramfs_create` makes: node `s.count`, linked in front of its siblings. -/
structure Created (s s' : Ramfs) (dir : Nat) (name : CStr) (flags : BitVec 32)
    (file : Option RamfsFile) : Prop where
  count : s'.count = s.count + 1
  nextInode : s'.nextInode = u32 (s.nextInode + 1)
  made : s'.nodes s.count = ⟨name.take (VFS_NAME_MAX - 1), flags, 0, s.nextInode, file,
    some dir, none, (s.nodes dir).children⟩
  link : s'.nodes dir = { s.nodes dir with children := some s.count }
  others : ∀ m, m ≠ s.count → m ≠ dir → s'.nodes m = s.nodes m

/-- The payload of a new node. -/
def newPayload (a : NodeAlloc) (flags : BitVec 32) : Option RamfsFile :=
  if flags &&& VFS_FILE ≠ 0#32 ∧ a.file then some ⟨none, 0⟩ else none

theorem newPayload_cases (a : NodeAlloc) (flags : BitVec 32) :
    newPayload a flags = none ∨ newPayload a flags = some ⟨none, 0⟩ := by
  rw [newPayload]
  split
  · exact Or.inr rfl
  · exact Or.inl rfl

theorem linkChild_created (name : CStr) (flags : BitVec 32) (hdir : dir < s.count)
    (hnode : a.node = true) :
    Created s (linkChild (allocNode s a name flags).2 dir s.count) dir name flags
      (newPayload a flags) := by
  have hne : dir ≠ s.count := by omega
  simp only [allocNode, hnode, if_true]
  constructor
  · rfl
  · rfl
  · rw [linkChild, setNode_of_ne hne.symm, setNode_self]
    simp [Function.update_of_ne hne, newPayload]
  · rw [linkChild, setNode_self, setNode_of_ne hne]
    simp [Function.update_of_ne hne]
  · intro m hm hmd
    rw [linkChild, setNode_of_ne hmd, setNode_of_ne hm]
    exact Function.update_of_ne hm ..

/-- Either nothing happens, or the name was free in a directory and is linked now. -/
theorem ramfsCreate_cases (s : Ramfs) (a : NodeAlloc) (name : CStr) (flags : BitVec 32)
    (hdir : dir < s.count) :
    ramfsCreate s a dir name flags = (none, s) ∨
      ∃ s', ramfsCreate s a dir name flags = (some s.count, s')
        ∧ (s.nodes dir).isDirectory = true ∧ ramfsLookup s dir name = none
        ∧ Created s s' dir name flags (newPayload a flags) := by
  by_cases hd : (s.nodes dir).isDirectory = true
  · by_cases hl : (ramfsLookup s dir name).isSome = true
    · exact Or.inl (by simp [ramfsCreate, hd, hl])
    · by_cases hnode : a.node = true
      · refine Or.inr ⟨_, ?_, hd, by simpa using hl, linkChild_created name flags hdir hnode⟩
        simp [ramfsCreate, hd, hl, allocNode, hnode]
      · exact Or.inl (by simp [ramfsCreate, hd, hl, allocNode, hnode])
  · exact Or.inl (by simp [ramfsCreate, hd])

end Spec

end Matryoshka
