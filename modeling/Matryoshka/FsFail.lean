import Matryoshka.FsStream

/-!
# Calls that fail half-way

Two calls of the file system take several steps of which a later one can
fail. `vfs_open` creates a missing file before it looks for a descriptor,
and does not remove it again when there is none. `alloc_node` allocates a
node and then its payload, and reports only the failure of the first:
`ramfs_create` is run over the heap here, so that the two requests meet
one state of memory. The results say for which states the calls are all
or nothing.
-/

namespace Matryoshka

open ByteMem

/-! ## Opens without a descriptor -/

/-- The directory that `path` names its last component in has no child of that name. -/
def NameFree (v : Vfs) (path : CStr) : Prop :=
  ∃ dir leaf, resolveParent v path VFS_NAME_MAX = some (dir, leaf)
    ∧ (v.fs.nodes dir).isDirectory = true ∧ ramfsLookup v.fs dir leaf = none

/-- The path is missing and could be created, the heap has a node for it, and there is no
descriptor. -/
structure OpenStrands (v : Vfs) (a : NodeAlloc) (path : CStr) (flags : BitVec 32) : Prop where
  missing : vfsResolve v path = none
  creat : flags &&& VFS_O_CREAT ≠ 0#32
  nameFree : NameFree v path
  node : a.node = true
  full : allocFd v = none

section Open

variable {v : Vfs} {a : NodeAlloc} {path : CStr} {flags : BitVec 32}

/-- A failed open has no node or no descriptor, and its state is the one after creation. -/
theorem vfsOpen_failed (hfail : (vfsOpen v a path flags).1 = -1) :
    (vfsOpen v a path flags).2 = (openNode v a path flags).2
      ∧ ((openNode v a path flags).1 = none ∨ allocFd v = none) := by
  have htab := openNode_fdTable v a path flags
  rcases hnode : openNode v a path flags with ⟨_ | n, w⟩
  · exact ⟨by rw [vfsOpen, hnode], Or.inl rfl⟩
  · rw [hnode] at htab
    have hsame : allocFd w = allocFd v := by rw [allocFd, htab, allocFd]
    cases hfd : allocFd w with
    | none => exact ⟨by simp only [vfsOpen, hnode, hfd], Or.inr (hsame ▸ hfd)⟩
    | some fd =>
        simp only [vfsOpen, hnode, hfd] at hfail
        omega

theorem vfsCreateFile_made_iff :
    (vfsCreateFile v a path).1 ≠ none ↔ NameFree v path ∧ a.node = true := by
  rw [vfsCreateFile, vfsCreate, NameFree]
  cases hp : resolveParent v path VFS_NAME_MAX with
  | none => simp
  | some r =>
      obtain ⟨dir, leaf⟩ := r
      cases hdir : (v.fs.nodes dir).isDirectory <;>
        cases hlook : ramfsLookup v.fs dir leaf <;>
          cases hnode : a.node <;>
            simp [ramfsCreate, allocNode, hdir, hlook, hnode]

theorem VfsTree.createFile_cases {kids : Nat → List Nat} (h : VfsTree v kids) (a : NodeAlloc)
    (path : CStr) :
    vfsCreateFile v a path = (none, v)
      ∨ (vfsCreateFile v a path).1 ≠ none ∧ (vfsCreateFile v a path).2 ≠ v := by
  rcases h.create_cases a path VFS_FILE with hc | ⟨fs, base, rest, dir, hnew⟩
  · exact Or.inl hc
  · rw [vfsCreateFile, hnew.call]
    refine Or.inr ⟨Option.some_ne_none _, fun heq => ?_⟩
    have hcount : fs.count = v.fs.count := congrArg (fun w => w.fs.count) heq
    have := hnew.made.count
    omega

/-- A failed open changes nothing, except when it strands a new file. -/
theorem failed_open_unchanged_iff (h : VfsReachable v) (a : NodeAlloc) (path : CStr)
    (flags : BitVec 32) (hfail : (vfsOpen v a path flags).1 = -1) :
    (vfsOpen v a path flags).2 = v ↔ ¬OpenStrands v a path flags := by
  obtain ⟨kids, ht⟩ := h.sound.tree
  obtain ⟨hstate, hreason⟩ := vfsOpen_failed hfail
  rw [hstate]
  unfold openNode at hreason ⊢
  cases hres : vfsResolve v path with
  | some node => exact iff_of_true rfl fun hs => nomatch hres.symm.trans hs.missing
  | none =>
      rw [hres] at hreason
      dsimp only at hreason ⊢
      by_cases hcreat : flags &&& VFS_O_CREAT ≠ 0#32
      · rw [if_pos hcreat] at hreason ⊢
        rcases ht.createFile_cases a path with hnone | ⟨hmade, hne⟩
        · rw [hnone]
          exact iff_of_true rfl fun hs =>
            vfsCreateFile_made_iff.mpr ⟨hs.nameFree, hs.node⟩ (by rw [hnone])
        · obtain ⟨hname, hnode⟩ := vfsCreateFile_made_iff.mp hmade
          exact iff_of_false hne
            (not_not_intro ⟨hres, hcreat, hname, hnode, hreason.resolve_left hmade⟩)
      · rw [if_neg hcreat]
        exact iff_of_true rfl fun hs => hcreat hs.creat

end Open

/-- All thirty-two descriptors open on `/etc/motd`. -/
def crowded : Vfs :=
  (fullRun (fun _ _ _ => True) (List.replicate 32
    (.openFile (slash :: ascii ['e', 't', 'c'] ++ slash :: ascii ['m', 'o', 't', 'd']) 0#32
      ⟨true, true⟩))).2

/-- The open of a new file fails for want of a descriptor, and the file is there. -/
theorem failed_open_leaves_file :
    VfsReachable crowded
      ∧ (vfsOpen crowded ⟨true, true⟩ (slash :: ascii ['f']) VFS_O_CREAT).1 = -1
      ∧ vfsResolve crowded (slash :: ascii ['f']) = none
      ∧ vfsResolve (vfsOpen crowded ⟨true, true⟩ (slash :: ascii ['f']) VFS_O_CREAT).2
          (slash :: ascii ['f']) = some 5 :=
  ⟨⟨_, fullRun_run ..⟩, by decide +kernel, by decide +kernel, by decide +kernel⟩

theorem failed_open_unchanged_iff_missing :
    (vfsOpen fullBoot ⟨true, true⟩ (slash :: ascii ['f']) 0#32).2 = fullBoot
      ↔ ¬OpenStrands fullBoot ⟨true, true⟩ (slash :: ascii ['f']) 0#32 :=
  failed_open_unchanged_iff fullBoot_reachable _ _ _ (by decide +kernel)

/-! ## Creation over the heap -/

/-- `sizeof(vfs_node_t)`: the name and eight words. -/
def sizeofNode : Nat := VFS_NAME_MAX + 8 * 4

/-- `sizeof(ramfs_file_t)`. -/
def sizeofFile : Nat := 8

/-- The two requests of `alloc_node`. Both blocks are cleared, the node by `memset` and
the payload field by field; the other stores go into the node, which is in `Ramfs`. -/
def allocNodeHeap (h : Heap) (flags : BitVec 32) : NodeAlloc × Heap :=
  let (node, h) := kzalloc h sizeofNode
  if node = 0 then (⟨false, false⟩, h)
  else if flags &&& VFS_FILE ≠ 0#32 then
    let (fd, h) := kzalloc h sizeofFile
    (⟨true, decide (fd ≠ 0)⟩, h)
  else (⟨true, false⟩, h)

/-- `ramfs_create` with the heap it allocates from. -/
def ramfsCreateHeap (s : Ramfs) (h : Heap) (parent : Nat) (name : CStr) (flags : BitVec 32) :
    Option Nat × Ramfs × Heap :=
  if !(s.nodes parent).isDirectory then (none, s, h)
  else if (ramfsLookup s parent name).isSome then (none, s, h)
  else
    let (a, h) := allocNodeHeap h flags
    let (node, s) := ramfsCreate s a parent name flags
    (node, s, h)

/-- The creation of a file did nothing, or it made a file with its payload. -/
def AllOrNothing (s : Ramfs) (h : Heap) (parent : Nat) (name : CStr) (node : Option Nat)
    (s' : Ramfs) (h' : Heap) : Prop :=
  node = none ∧ s' = s ∧ SameHeap h' h
    ∨ node = some s.count ∧ Created s s' parent name VFS_FILE (some ⟨none, 0⟩)

/-- If the node was allocated, so was the payload. -/
def NodeAlloc.Whole (a : NodeAlloc) : Prop := a.node = true → a.file = true

/-- A node fits and takes the last block that a payload fits in: no other free block is
large enough for one, and this one is not large enough to be split. -/
def RoomForNodeOnly (h : Heap) : Prop :=
  ∃ b ∈ h.blocks, b.isFree = true ∧ sizeofNode ≤ b.size
    ∧ b.size < sizeofNode + sizeofBlock + 16
    ∧ ∀ c ∈ h.blocks, c.isFree = true → sizeofFile ≤ c.size → c.addr = b.addr

/-- The name can be created, and there is room for a node but not, after it, for the
payload. -/
structure HalfFails (s : Ramfs) (h : Heap) (parent : Nat) (name : CStr) : Prop where
  directory : (s.nodes parent).isDirectory = true
  free : ramfsLookup s parent name = none
  half : RoomForNodeOnly h

section Create

variable {s : Ramfs} {h : Heap} {bs : List Tiling.Seg} {parent : Nat} {name : CStr}

/-- Without a node nothing is allocated. -/
theorem allocNodeHeap_cases (hwf : HeapWf h bs) (flags : BitVec 32) :
    allocNodeHeap h flags = (⟨false, false⟩, h) ∨
      ∃ file h', allocNodeHeap h flags = (⟨true, file⟩, h') := by
  simp only [allocNodeHeap]
  rcases kzalloc_placed hwf (n := sizeofNode) (by decide) with hk | ⟨c, bs', hp, -⟩
  · rw [hk]
    exact Or.inl rfl
  · rw [if_neg (by omega)]
    split
    · exact Or.inr ⟨_, _, rfl⟩
    · exact Or.inr ⟨_, _, rfl⟩

theorem HeapWf.exists_seg_iff {P : Tiling.Seg → Prop} (hwf : HeapWf h bs) :
    (∃ b ∈ bs, P b) ↔ ∃ b ∈ h.blocks, P ⟨b.addr, b.size, b.isFree⟩ := by
  conv_lhs => rw [← views_segs bs, ← hwf.blocks_eq]
  simp only [List.mem_map, exists_exists_and_eq_and]

theorem HeapWf.forall_seg_iff {P : Tiling.Seg → Prop} (hwf : HeapWf h bs) :
    (∀ b ∈ bs, P b) ↔ ∀ b ∈ h.blocks, P ⟨b.addr, b.size, b.isFree⟩ := by
  conv_lhs => rw [← views_segs bs, ← hwf.blocks_eq]
  simp only [List.mem_map, forall_exists_index, and_imp, forall_apply_eq_imp_iff₂]

/-- The two requests in terms of first fit. -/
theorem allocNodeHeap_half_iff (hwf : HeapWf h bs) :
    ¬(allocNodeHeap h VFS_FILE).1.Whole ↔
      ∃ p bs', Tiling.allocate sizeofBlock 16 sizeofNode bs = some (p, bs')
        ∧ Tiling.allocate sizeofBlock 16 sizeofFile bs' = none := by
  have hfile : VFS_FILE &&& VFS_FILE ≠ 0#32 := by decide
  simp only [allocNodeHeap, if_pos hfile]
  cases hal : Tiling.allocate sizeofBlock 16 sizeofNode bs with
  | none =>
      rw [kzalloc_null (kmalloc_none (n := sizeofNode) hwf hal), if_pos rfl]
      refine iff_of_false (not_not_intro fun hnode => absurd hnode Bool.false_ne_true) ?_
      rintro ⟨p, bs', heq, -⟩
      cases heq
  | some r =>
      obtain ⟨p, bs'⟩ := r
      obtain ⟨hp, hwf'⟩ := kzalloc_refines (n := sizeofNode) hwf (by decide) (by decide) hal
      rw [if_neg (by omega)]
      cases hal' : Tiling.allocate sizeofBlock 16 sizeofFile bs' with
      | none =>
          rw [kzalloc_null (kmalloc_none (n := sizeofFile) hwf' hal')]
          exact iff_of_true (fun hwhole => absurd (hwhole rfl) Bool.false_ne_true)
            ⟨p, bs', rfl, hal'⟩
      | some r' =>
          obtain ⟨hp', -⟩ := kzalloc_refines (n := sizeofFile) hwf' (by decide) (by decide) hal'
          refine iff_of_false (not_not_intro fun _ => decide_eq_true (by omega)) ?_
          rintro ⟨q, cs, heq, hnone⟩
          cases heq
          cases hal'.symm.trans hnone

theorem roomForNodeOnly_iff (hwf : HeapWf h bs) :
    ¬(allocNodeHeap h VFS_FILE).1.Whole ↔ RoomForNodeOnly h := by
  rw [allocNodeHeap_half_iff hwf, Tiling.allocate_then_none_iff (by decide) hwf.canon.tiles
    (by decide) (by decide), hwf.exists_seg_iff, RoomForNodeOnly]
  simp only [hwf.forall_seg_iff, Tiling.fits_iff, and_imp, and_assoc]

/-- With a node at hand a free name is linked, payload or not. -/
theorem ramfsCreate_made (hlt : parent < s.count) (hdir : (s.nodes parent).isDirectory = true)
    (hfree : ramfsLookup s parent name = none) (file : Bool) (flags : BitVec 32) :
    ∃ s', ramfsCreate s ⟨true, file⟩ parent name flags = (some s.count, s')
      ∧ Created s s' parent name flags (newPayload ⟨true, file⟩ flags) := by
  refine ⟨_, ?_, linkChild_created name flags hlt rfl⟩
  simp [ramfsCreate, hdir, hfree, allocNode]

/-- The three ways to get NULL and change nothing. -/
theorem allOrNothing_null (hres : ramfsCreateHeap s h parent name VFS_FILE = (none, s, h)) :
    AllOrNothing s h parent name (ramfsCreateHeap s h parent name VFS_FILE).1
      (ramfsCreateHeap s h parent name VFS_FILE).2.1
      (ramfsCreateHeap s h parent name VFS_FILE).2.2 := by
  rw [hres]
  exact Or.inl ⟨rfl, rfl, rfl, rfl⟩

/-- The creation of a file is all or nothing exactly when its allocations are. -/
theorem ramfsCreateHeap_iff (hwf : HeapWf h bs) (hlt : parent < s.count) (name : CStr) :
    AllOrNothing s h parent name (ramfsCreateHeap s h parent name VFS_FILE).1
        (ramfsCreateHeap s h parent name VFS_FILE).2.1
        (ramfsCreateHeap s h parent name VFS_FILE).2.2
      ↔ ¬HalfFails s h parent name := by
  by_cases hdir : (s.nodes parent).isDirectory = true
  · cases hfree : ramfsLookup s parent name with
    | some c =>
        exact iff_of_true (allOrNothing_null (by simp [ramfsCreateHeap, hdir, hfree]))
          fun hh => absurd (hfree.symm.trans hh.free) (Option.some_ne_none c)
    | none =>
        rcases allocNodeHeap_cases hwf VFS_FILE with hnull | ⟨file, h', halloc⟩
        · refine iff_of_true (allOrNothing_null ?_) fun hh =>
            (roomForNodeOnly_iff hwf).mpr hh.half ?_
          · simp [ramfsCreateHeap, hdir, hfree, hnull, ramfsCreate, allocNode]
          · rw [hnull]
            exact fun hnode => absurd hnode Bool.false_ne_true
        · obtain ⟨s', hcreate, hmade⟩ := ramfsCreate_made hlt hdir hfree file VFS_FILE
          simp only [ramfsCreateHeap, hdir, hfree, halloc, hcreate, Bool.not_true,
            Bool.false_eq_true, if_false, Option.isSome_none]
          cases file with
          | true =>
              refine iff_of_true (Or.inr ⟨rfl, hmade⟩) fun hh =>
                (roomForNodeOnly_iff hwf).mpr hh.half ?_
              rw [halloc]
              exact fun _ => rfl
          | false =>
              have hhalf : ¬(allocNodeHeap h VFS_FILE).1.Whole := by
                rw [halloc]
                exact fun hwhole => absurd (hwhole rfl) Bool.false_ne_true
              refine iff_of_false ?_
                (not_not_intro ⟨hdir, hfree, (roomForNodeOnly_iff hwf).mp hhalf⟩)
              rintro (⟨hnone, -⟩ | ⟨-, hwhole⟩)
              · cases hnone
              · -- one node cannot be without and with a payload
                have heq := congrArg VfsNode.fsData (hmade.made.symm.trans hwhole.made)
                cases heq
  · exact iff_of_true (allOrNothing_null (by simp [ramfsCreateHeap, hdir]))
      fun hh => hdir hh.directory

end Create

/-! ## Files without a payload -/

/-- A call that does not create half a file. -/
def VfsCall.Whole : VfsCall → Prop
  | .createFile _ a => a.Whole
  | .openFile _ _ a => a.Whole
  | _ => True

/-- Runs in which no creation of a file, at boot or later, fails half-way. -/
def WholeRun (v : Vfs) : Prop :=
  ∃ b v₀ log, b.motd.Whole ∧ ramfsInit (vfsInit vfsStatic) b = some v₀
    ∧ VfsSteps (fun _ _ c => c.Whole) [.booted v₀.fs] v₀ log v

/-- Every file has its payload. -/
def FilesReadable (s : Ramfs) : Prop := ∀ n < s.count, (s.nodes n).isFile = true → Readable s n

section Readable

variable {s s' : Ramfs} {v : Vfs} {n : Nat} {a : NodeAlloc}

theorem Created.filesReadable {dir : Nat} {name : CStr} {flags : BitVec 32}
    {file : Option RamfsFile} (hc : Created s s' dir name flags file)
    (hfile : flags &&& VFS_FILE ≠ 0#32 → file ≠ none) (h : FilesReadable s) :
    FilesReadable s' := by
  intro n hn hisFile
  refine ⟨hisFile, ?_⟩
  rcases hc.lt_or_new hn with hold | rfl
  · obtain ⟨q, hq, -⟩ := hc.old hold
    rw [hq] at hisFile ⊢
    exact (h n hold hisFile).2
  · rw [hc.made] at hisFile ⊢
    exact hfile (by simpa [VfsNode.isFile] using hisFile)

/-- A node is replaced by one that has a payload if the old one had. -/
theorem FilesReadable.setNode (h : FilesReadable s) {node : VfsNode}
    (hflags : node.flags = (s.nodes n).flags)
    (hdata : (s.nodes n).fsData ≠ none → node.fsData ≠ none) :
    FilesReadable (s.setNode n node) := by
  intro m hm hisFile
  refine ⟨hisFile, ?_⟩
  by_cases hmn : m = n
  · subst hmn
    rw [setNode_self] at hisFile ⊢
    rw [VfsNode.isFile, hflags] at hisFile
    exact hdata (h m hm hisFile).2
  · rw [setNode_of_ne hmn] at hisFile ⊢
    exact (h m hm hisFile).2

theorem ramfsWrite_filesReadable {off : Nat} {data : List (BitVec 8)} {blk : Option Mem} {r : Int}
    (hw : ramfsWrite s n off data blk = some (r, s')) (h : FilesReadable s) :
    FilesReadable s' := by
  obtain ⟨-, rfl⟩ | ⟨f, f₁, -, -, -, -, rfl⟩ := ramfsWrite_inv hw
  · exact h
  · exact h.setNode rfl fun _ => Option.some_ne_none _

/-- Files get their payload with their node, directories have none to miss. -/
def PayloadKept (flags : BitVec 32) (a : NodeAlloc) : Prop :=
  flags &&& VFS_FILE ≠ 0#32 → a.Whole

theorem filesReadable_rule : FsRule PayloadKept FilesReadable where
  create {_ _ _ _ flags a} hnode hkept hc h := hc.filesReadable (fun hflags => by
    rw [newPayload, if_pos ⟨hflags, hkept hflags hnode⟩]
    exact Option.some_ne_none _) h
  truncate _ h := h.setNode rfl id
  write hw h := ramfsWrite_filesReadable hw h

theorem payloadKept_directory (a : NodeAlloc) : PayloadKept VFS_DIRECTORY a :=
  fun hflags => absurd hflags (by decide)

theorem VfsCall.Whole.allocs {c : VfsCall} (h : c.Whole) : c.Allocs PayloadKept := by
  cases c with
  | mkdir path a => exact payloadKept_directory a
  | createFile path a => exact fun _ => h
  | openFile path flags a => exact fun _ => h
  | close | read | write => trivial

/-- After `ramfs_init` the only file is `/etc/motd`. -/
theorem booted_filesReadable {b : BootAllocs} (hw : b.motd.Whole)
    (hb : ramfsInit (vfsInit vfsStatic) b = some v) : FilesReadable v.fs := by
  refine filesReadable_rule.booted (fun n hn => absurd hn (Nat.not_lt_zero n))
    (fun {a s} hs n hn hisFile => ?_) payloadKept_directory (fun _ => hw) hb
  rw [allocNode] at hs
  split at hs
  · cases hs
    rw [Nat.lt_one_iff.mp hn] at hisFile
    have hdir : (VFS_DIRECTORY &&& VFS_FILE != 0#32) = true := hisFile
    exact absurd hdir (by decide)
  · cases hs

theorem WholeRun.filesReadable (h : WholeRun v) : FilesReadable v.fs := by
  obtain ⟨b, v₀, log, hw, hb, hs⟩ := h
  exact filesReadable_rule.steps (fun _ _ _ hc => hc.allocs) (fsInv_booted ⟨b, hb⟩)
    (booted_filesReadable hw hb) hs

theorem WholeRun.sound (h : WholeRun v) : FsSound v := by
  obtain ⟨b, v₀, log, -, hb, hs⟩ := h
  exact (fsInv_steps (fsInv_booted ⟨b, hb⟩) hs).sound

theorem NodeOk.capacity_le (hok : NodeOk (s.nodes n)) : fileCapacity s n ≤ HEAP_INITIAL := by
  rw [fileCapacity]
  split
  · next f hf => exact hok.fits f hf
  · exact Nat.zero_le _

theorem Readable.empty_read (h : Readable s n) (off : Nat) (buf : Mem) :
    (ramfsRead s n off 0 buf).1 = 0 := by
  obtain ⟨f, hf⟩ := Option.ne_none_iff_exists'.mp h.2
  simp only [ramfsRead, h.1, hf, Bool.not_true, Bool.false_eq_true, if_false]
  split
  · rfl
  · rw [if_neg (Nat.not_lt_zero _)]
    rfl

theorem Readable.empty_write (h : Readable s n) {off : Nat} (hoff : off ≤ fileCapacity s n)
    (hfits : fileCapacity s n ≤ HEAP_INITIAL) (blk : Option Mem) :
    ∃ s', ramfsWrite s n off [] blk = some (0, s') := by
  obtain ⟨f, hf⟩ := Option.ne_none_iff_exists'.mp h.2
  simp only [fileCapacity, hf] at hoff hfits
  have hend : u32 (off + ([] : List (BitVec 8)).length) = off :=
    u32_of_lt (heap_lt (Nat.le_trans hoff hfits))
  simp only [ramfsWrite, h.1, hf, hend, ensureCapacity, if_pos hoff, Bool.not_true,
    Bool.false_eq_true, if_false]
  exact ⟨_, rfl⟩

end Readable

/-- File `n` takes an empty write anywhere in its buffer, and an empty read. -/
def AcceptsEmpty (s : Ramfs) (n : Nat) : Prop :=
  (∀ off buf, (ramfsRead s n off 0 buf).1 = 0)
    ∧ ∀ off ≤ fileCapacity s n, ∀ blk, ∃ s', ramfsWrite s n off [] blk = some (0, s')

/-- In any tree and any heap, the creation of a file is all or nothing exactly when it does
not fail half-way; in runs without such failures every file can be read and written. -/
theorem file_creation_whole_iff {s : Ramfs} {r : HeapRun} {w : Vfs} (hr : HeapReach r)
    {parent : Nat} (hp : parent < s.count) (name : CStr) (hw : WholeRun w) :
    (AllOrNothing s r.heap parent name (ramfsCreateHeap s r.heap parent name VFS_FILE).1
        (ramfsCreateHeap s r.heap parent name VFS_FILE).2.1
        (ramfsCreateHeap s r.heap parent name VFS_FILE).2.2
      ↔ ¬HalfFails s r.heap parent name)
    ∧ ∀ n < w.fs.count, (w.fs.nodes n).isFile = true → AcceptsEmpty w.fs n := by
  obtain ⟨bs, hwf, -⟩ := heapReach_inv hr
  refine ⟨ramfsCreateHeap_iff hwf hp name, fun n hn hfile => ?_⟩
  have hread := hw.filesReadable n hn hfile
  have hfits := (hw.sound.files n hn).capacity_le
  exact ⟨hread.empty_read, fun off hoff blk => hread.empty_write hoff hfits blk⟩

/-- A heap whose last free block holds a node and nothing else. -/
def tightHeap : HeapRun :=
  ⟨(kmalloc (heapInit fun _ => 0#8) 1048448).2,
    addLive (kmalloc (heapInit fun _ => 0#8) 1048448).1 []⟩

theorem tightHeap_reach : HeapReach tightHeap :=
  .step (.init fun _ => 0#8) (.kmalloc ⟨heapInit fun _ => 0#8, []⟩ 1048448)

/-- `/f` is created there without a payload: it is linked, but nothing can be read from it
or written to it. -/
theorem half_file_created :
    ∃ v r, VfsReachable v ∧ HeapReach r
      ∧ (ramfsCreateHeap v.fs r.heap 0 (ascii ['f']) VFS_FILE).1 = some 5
      ∧ ¬AllOrNothing v.fs r.heap 0 (ascii ['f'])
          (ramfsCreateHeap v.fs r.heap 0 (ascii ['f']) VFS_FILE).1
          (ramfsCreateHeap v.fs r.heap 0 (ascii ['f']) VFS_FILE).2.1
          (ramfsCreateHeap v.fs r.heap 0 (ascii ['f']) VFS_FILE).2.2
      ∧ (ramfsRead (ramfsCreateHeap v.fs r.heap 0 (ascii ['f']) VFS_FILE).2.1 5 0 0
          fun _ => 0#8).1 = -1
      ∧ (ramfsWrite (ramfsCreateHeap v.fs r.heap 0 (ascii ['f']) VFS_FILE).2.1 5 0 []
          none).map Prod.fst = some (-1) := by
  obtain ⟨bs, hwf, -⟩ := heapReach_inv tightHeap_reach
  refine ⟨fullBoot, tightHeap, fullBoot_reachable, tightHeap_reach, by decide +kernel, ?_,
    by decide +kernel, by decide +kernel⟩
  rw [ramfsCreateHeap_iff hwf (by decide +kernel), not_not]
  refine ⟨by decide +kernel, by decide +kernel, ?_⟩
  unfold RoomForNodeOnly
  decide +kernel

theorem fullBoot_whole : WholeRun fullBoot :=
  ⟨fullAllocs, fullBoot, _, fun _ => rfl, fullBoot_init, .refl⟩

def freshHeap : HeapRun := ⟨heapInit fun _ => 0#8, []⟩

theorem file_creation_whole_iff_boot :
    (AllOrNothing fullBoot.fs freshHeap.heap 0 (ascii ['f'])
        (ramfsCreateHeap fullBoot.fs freshHeap.heap 0 (ascii ['f']) VFS_FILE).1
        (ramfsCreateHeap fullBoot.fs freshHeap.heap 0 (ascii ['f']) VFS_FILE).2.1
        (ramfsCreateHeap fullBoot.fs freshHeap.heap 0 (ascii ['f']) VFS_FILE).2.2
      ↔ ¬HalfFails fullBoot.fs freshHeap.heap 0 (ascii ['f']))
    ∧ ∀ n < fullBoot.fs.count, (fullBoot.fs.nodes n).isFile = true →
        AcceptsEmpty fullBoot.fs n :=
  file_creation_whole_iff (r := freshHeap) (.init fun _ => 0#8) (by decide +kernel) (ascii ['f'])
    fullBoot_whole

end Matryoshka
