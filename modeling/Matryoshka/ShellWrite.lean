import Matryoshka.FsResolve
import Matryoshka.FsStream
import Matryoshka.Shell

/-!
# What the shell's write command writes

`cmd_write` ignores what its two calls of `vfs_write` return, so its
silence promises little: the path may be a directory, or the heap may be
full. A path that is cut at 127 bytes is another path, and a file that is
created under a name of more than 63 bytes does not answer to it.
`write_faithful_iff` says exactly when the file holds the text after the
command has printed nothing.
-/

namespace Matryoshka

open ByteMem Cursor SepPath

/-! ## One write -/

/-- The capacity of a buffer after `ensure_capacity`. -/
def grownCapacity (cap needed : Nat) : Nat :=
  if needed ≤ cap then cap
  else (growCapacity needed 33 (if cap ≠ 0 then cap else 64)).getD 0

/-- A write of `data` at the end of file `n` finds room, in the buffer or in a
block for a larger one. -/
def WriteRoom (s : Ramfs) (n off len : Nat) (blk : Option Mem) : Prop :=
  Readable s n ∧ (off + len ≤ fileCapacity s n ∨ blk.isSome = true)

section Room

variable {f : RamfsFile} {blk : Option Mem} {needed cap : Nat}

theorem grownCapacity_spec (hsmall : 2 * needed ≤ HEAP_INITIAL) (hlt : cap < needed) :
    growCapacity needed 33 (if cap ≠ 0 then cap else 64) = some (grownCapacity cap needed)
      ∧ grownCapacity cap needed ≤ HEAP_INITIAL := by
  have hheap := heapInitial_eq
  have hstart : needed ≤ (if cap ≠ 0 then cap else 64) * 2 ^ 32 := by
    split <;> omega
  obtain ⟨c, hc, hle⟩ := growCapacity_exists (by omega) hstart
  have hgrown : grownCapacity cap needed = c := by
    rw [grownCapacity, if_neg (by omega), hc, Option.getD_some]
  rw [hgrown]
  refine ⟨hc, ?_⟩
  split at hle <;> omega

theorem ensureCapacity_room (hsmall : 2 * needed ≤ HEAP_INITIAL)
    (h : needed ≤ f.capacity ∨ blk.isSome = true) :
    ∃ f', ensureCapacity f blk needed = some (true, f')
      ∧ f'.capacity = grownCapacity f.capacity needed := by
  by_cases hcap : needed ≤ f.capacity
  · exact ⟨f, if_pos hcap, (if_pos hcap).symm⟩
  · obtain ⟨d, hd⟩ := Option.isSome_iff_exists.mp (h.resolve_left hcap)
    obtain ⟨hgrow, hfits⟩ := grownCapacity_spec hsmall (Nat.lt_of_not_le hcap)
    refine ⟨⟨some (growData f d (grownCapacity f.capacity needed)),
      grownCapacity f.capacity needed⟩, ?_, rfl⟩
    simp only [ensureCapacity, if_neg hcap, hgrow, hd, kmallocData, if_pos hfits]

theorem ensureCapacity_refused (hsmall : 2 * needed ≤ HEAP_INITIAL)
    (h : ¬(needed ≤ f.capacity ∨ blk.isSome = true)) :
    ensureCapacity f blk needed = some (false, f) := by
  obtain ⟨hcap, hblk⟩ := not_or.mp h
  have hnone : blk = none := by simpa using hblk
  obtain ⟨hgrow, -⟩ := grownCapacity_spec hsmall (Nat.lt_of_not_le hcap)
  simp only [ensureCapacity, if_neg hcap, hgrow, hnone, kmallocData, ite_self]

end Room

section Writes

variable {s : Ramfs} {v v' : Vfs} {n fd off : Nat} {l data : List (BitVec 8)} {blk : Option Mem}

theorem ramfsWrite_room (hsmall : 2 * (off + data.length) ≤ HEAP_INITIAL)
    (h : WriteRoom s n off data.length blk) :
    ∃ s', ramfsWrite s n off data blk = some ((data.length : Int), s')
      ∧ fileCapacity s' n = grownCapacity (fileCapacity s n) (off + data.length) := by
  have hheap := heapInitial_eq
  obtain ⟨f, hf⟩ := Option.ne_none_iff_exists'.mp h.1.2
  have hcap : fileCapacity s n = f.capacity := by simp only [fileCapacity, hf]
  rw [hcap]
  obtain ⟨f', hens, hgrown⟩ := ensureCapacity_room hsmall (hcap ▸ h.2)
  refine ⟨s.setNode n { s.nodes n with
    size := if (s.nodes n).size < off + data.length then off + data.length else (s.nodes n).size
    fsData := some (f'.put off data) }, ?_, ?_⟩
  · simp only [ramfsWrite, h.1.1, hf, u32_of_lt (show off + data.length < 2 ^ 32 by omega), hens,
      i32_of_lt (show data.length < 2 ^ 31 by omega), Bool.not_true, Bool.false_eq_true, if_false]
  · simp only [fileCapacity, setNode_self, RamfsFile.put, hgrown]

theorem ramfsWrite_refused (hsmall : 2 * (off + data.length) ≤ HEAP_INITIAL)
    (h : ¬WriteRoom s n off data.length blk) : ramfsWrite s n off data blk = some (-1, s) := by
  have hheap := heapInitial_eq
  simp only [ramfsWrite, u32_of_lt (show off + data.length < 2 ^ 32 by omega)]
  split
  · rfl
  · next hfile =>
      cases hf : (s.nodes n).fsData with
      | none => rfl
      | some f =>
          have hcap : fileCapacity s n = f.capacity := by simp only [fileCapacity, hf]
          have hread : Readable s n := .of_some (by simpa using hfile) hf
          have hfull : ¬(off + data.length ≤ f.capacity ∨ blk.isSome = true) := fun hroom =>
            h ⟨hread, hcap ▸ hroom⟩
          simp only [ensureCapacity_refused hsmall hfull]

/-- A small write to the end of the file, with its outcome `b`. -/
structure WriteStep (v : Vfs) (fd n : Nat) (l data : List (BitVec 8)) (blk : Option Mem) (v' : Vfs)
    (b : Bool) : Prop where
  call : ∃ r, vfsWrite v fd data blk = some (r, v')
  room : b = true ↔ WriteRoom v.fs n l.length data.length blk
  file : FileHolds v' n (l ++ if b then data else [])
  openAt : OpenAt v' fd n (l ++ if b then data else []).length
  readable : Readable v'.fs n ↔ Readable v.fs n
  capacity : b = true →
    fileCapacity v'.fs n = grownCapacity (fileCapacity v.fs n) (l.length + data.length)
  others : ∀ m, m ≠ n → v'.fs.nodes m = v.fs.nodes m

theorem vfsWrite_open (ho : OpenAt v fd n off) (data : List (BitVec 8)) (blk : Option Mem) :
    vfsWrite v fd data blk = (ramfsWrite v.fs n off data blk).map fun r =>
      (r.1, advanceFd { v with fs := r.2 } fd r.1) := by
  have hnode : (v.fdTable (fd : Int).toNat).node = some n := ho.node
  have hoff : (v.fdTable (fd : Int).toNat).offset = off := ho.offset
  rw [vfsWrite, if_pos ho.valid, hnode, hoff]
  dsimp only
  cases ramfsWrite v.fs n off data blk with
  | none => rfl
  | some r => rfl

theorem writeStep_exists (h : FileHolds v n l) (ho : OpenAt v fd n l.length)
    (data : List (BitVec 8)) (blk : Option Mem)
    (hsmall : 2 * (l.length + data.length) ≤ HEAP_INITIAL) :
    ∃ v' b, WriteStep v fd n l data blk v' b := by
  have hheap := heapInitial_eq
  have hcall := vfsWrite_open ho data blk
  by_cases hroom : WriteRoom v.fs n l.length data.length blk
  · obtain ⟨s', hw, hcap⟩ := ramfsWrite_room hsmall hroom
    rw [hw, Option.map_some] at hcall
    obtain ⟨hf, ho', hread⟩ := h.write ho (by omega) hcall
    refine ⟨_, true, ⟨_, hcall⟩, iff_of_true rfl hroom, hf, ho', iff_of_true hread hroom.1,
      fun _ => ?_, fun m hm => ?_⟩
    · rw [advanceFd_fs]
      exact hcap
    · rw [advanceFd_fs]
      rcases ramfsWrite_cases (h.sound.files n h.lt) (by omega) hw with ⟨hneg, -⟩ | ⟨-, hwrote⟩
      · omega
      · exact hwrote.other hm
  · rw [ramfsWrite_refused hsmall hroom] at hcall
    refine ⟨v, false, ⟨-1, hcall⟩, iff_of_false nofun hroom, ?_, ?_, Iff.rfl, nofun, fun _ _ => rfl⟩
    · rw [if_neg nofun, List.append_nil]
      exact h
    · rw [if_neg nofun, List.append_nil]
      exact ho

end Writes

/-! ## The whole command -/

/-- Both writes of the command find room for a text of `len` bytes in a file whose
buffer has `cap`. -/
def TextRoom (a : WriteAllocs) (cap len : Nat) : Prop :=
  (len ≤ cap ∨ a.text.isSome = true)
    ∧ (len + 1 ≤ grownCapacity cap len ∨ a.newline.isSome = true)

/-- What the command leaves behind when it prints nothing: `w` is the state with
the node of the path, `n` that node. -/
structure SilentWrite (w : Vfs) (a : WriteAllocs) (n : Nat) (text : CStr) (v' : Vfs) : Prop where
  sound : FsSound v'
  lt : n < w.fs.count
  tree : SameTree w.fs v'.fs
  root : v'.rootNode = w.rootNode
  content : ∃ b₁ b₂ : Bool, fileContent v'.fs n
      = (if b₁ then text else []) ++ (if b₂ then [newline] else [])
    ∧ (b₁ = true ∧ b₂ = true ↔ Readable w.fs n ∧ TextRoom a (fileCapacity w.fs n) text.length)
  readable : Readable v'.fs n ↔ Readable w.fs n
  others : ∀ m, m ≠ n → v'.fs.nodes m = w.fs.nodes m

section Command

variable {v w v₁ v' : Vfs} {a : WriteAllocs} {n fd : Nat} {path text : CStr} {flags : BitVec 32}

/-- The two writes, after the file was opened and truncated. -/
theorem silentWrite_exists (h : FileHolds v n []) (ho : OpenAt v fd n 0) (a : WriteAllocs)
    (hsmall : 2 * (text.length + 1) ≤ HEAP_INITIAL) :
    ∃ r₁ v₂ r₂ v₃, vfsWrite v fd text a.text = some (r₁, v₂)
      ∧ vfsWrite v₂ fd [newline] a.newline = some (r₂, v₃) ∧ SilentWrite v a n text v₃ := by
  obtain ⟨v₂, b₁, h₁⟩ := writeStep_exists h ho text a.text (by
    rw [List.length_nil]
    omega)
  obtain ⟨v₃, b₂, h₂⟩ := writeStep_exists h₁.file h₁.openAt [newline] a.newline (by
    cases b₁ with
    | true => exact hsmall
    | false => exact Nat.le_trans (Nat.mul_le_mul_left 2 (Nat.le_add_left 1 text.length)) hsmall)
  obtain ⟨r₁, hcall₁⟩ := h₁.call
  obtain ⟨r₂, hcall₂⟩ := h₂.call
  obtain ⟨htree₁, hroot₁⟩ := vfsWrite_sameTree hcall₁
  obtain ⟨htree₂, hroot₂⟩ := vfsWrite_sameTree hcall₂
  have hfirst : b₁ = true ↔ Readable v.fs n
      ∧ (text.length ≤ fileCapacity v.fs n ∨ a.text.isSome = true) := by
    simpa only [WriteRoom, List.length_nil, Nat.zero_add] using h₁.room
  have hsecond : b₁ = true → (b₂ = true ↔ Readable v.fs n
      ∧ (text.length + 1 ≤ grownCapacity (fileCapacity v.fs n) text.length
        ∨ a.newline.isSome = true)) := by
    intro hb
    have hcap := h₁.capacity hb
    subst hb
    rw [List.length_nil, Nat.zero_add] at hcap
    have hroom := h₂.room
    rw [WriteRoom, h₁.readable, hcap] at hroom
    exact hroom
  refine ⟨r₁, v₂, r₂, v₃, hcall₁, hcall₂, h₂.file.sound, h.lt, htree₁.trans htree₂,
    hroot₂.trans hroot₁, ⟨b₁, b₂, h₂.file.content, ?_⟩, h₂.readable.trans h₁.readable,
    fun m hm => (h₂.others m hm).trans (h₁.others m hm)⟩
  constructor
  · rintro ⟨hb₁, hb₂⟩
    exact ⟨(hfirst.mp hb₁).1, (hfirst.mp hb₁).2, ((hsecond hb₁).mp hb₂).2⟩
  · rintro ⟨hread, hroom₁, hroom₂⟩
    have hb₁ := hfirst.mpr ⟨hread, hroom₁⟩
    exact ⟨hb₁, (hsecond hb₁).mpr ⟨hread, hroom₂⟩⟩

theorem installFd_payload (w : Vfs) (fd n : Nat) (flags : BitVec 32) (m : Nat) :
    ((installFd w fd n flags).fs.nodes m).flags = (w.fs.nodes m).flags
      ∧ ((installFd w fd n flags).fs.nodes m).fsData = (w.fs.nodes m).fsData := by
  rw [installFd_node]
  split <;> exact ⟨rfl, rfl⟩

/-- The truncation before and the close after leave nothing else behind. -/
theorem SilentWrite.close (h : SilentWrite (installFd w fd n flags) a n text v') :
    SilentWrite w a n text (vfsClose v' fd).2 := by
  obtain ⟨hfs, hroot⟩ := vfsClose_same v' fd
  obtain ⟨hflags, hdata⟩ := installFd_payload w fd n flags n
  have hread : Readable (installFd w fd n flags).fs n ↔ Readable w.fs n := by
    rw [Readable, Readable, VfsNode.isFile, VfsNode.isFile, hflags, hdata]
  have hcap : fileCapacity (installFd w fd n flags).fs n = fileCapacity w.fs n := by
    rw [fileCapacity, hdata, fileCapacity]
  have hcount := installFd_count w fd n flags
  obtain ⟨b₁, b₂, hcontent, hboth⟩ := h.content
  rw [hread, hcap] at hboth
  refine ⟨?_, hcount ▸ h.lt, ?_, hroot.trans h.root, ⟨b₁, b₂, ?_, hboth⟩, ?_, fun m hm => ?_⟩
  · exact h.sound.call (c := .close fd) trivial rfl
  · rw [hfs]
    exact (installFd_sameTree w fd n flags).trans h.tree
  · rw [hfs]
    exact hcontent
  · rw [hfs]
    exact h.readable.trans hread
  · rw [hfs, h.others m hm, installFd_node, if_neg fun hin => hm hin.1.symm]

/-- The command complains that it cannot open the file, or it writes in silence. -/
theorem writeFile_cases (hs : FsSound v) (a : WriteAllocs) (path : CStr)
    (hsmall : 2 * (text.length + 1) ≤ HEAP_INITIAL) :
    ∃ out v', writeFile v a path text = some (out, v')
      ∧ (out = [] → ∃ n, (openNode v a.node path
            (VFS_O_WRONLY ||| VFS_O_CREAT ||| VFS_O_TRUNC)).1 = some n
          ∧ SilentWrite (openNode v a.node path
            (VFS_O_WRONLY ||| VFS_O_CREAT ||| VFS_O_TRUNC)).2 a n text v') := by
  have htrunc : (VFS_O_WRONLY ||| VFS_O_CREAT ||| VFS_O_TRUNC) &&& VFS_O_TRUNC ≠ 0#32 := by decide
  have hstart : (VFS_O_WRONLY ||| VFS_O_CREAT ||| VFS_O_TRUNC) &&& VFS_O_APPEND = 0#32 := by decide
  rw [writeFile]
  generalize VFS_O_WRONLY ||| VFS_O_CREAT ||| VFS_O_TRUNC = flags at htrunc hstart ⊢
  rcases vfsOpen_cases v a.node path flags with ho | ⟨n, fd, hnode, -, ho⟩
  · rw [ho]
    exact ⟨_, _, if_pos (by decide), fun hnil => absurd hnil (by simp [cannotOpenText])⟩
  · have hopen : FreshlyOpened v flags fd n
        (installFd (openNode v a.node path flags).2 fd n flags) :=
      ⟨⟨_, _, ho⟩, by rw [installFd_entry, openEntry], hstart⟩
    obtain ⟨r₁, v₂, r₂, v₃, hcall₁, hcall₂, hsilent⟩ :=
      silentWrite_exists (hopen.truncated hs htrunc) hopen.openAt a hsmall
    rw [ho]
    refine ⟨[], (vfsClose v₃ fd).2, ?_, fun _ => ⟨n, hnode, hsilent.close⟩⟩
    simp only [if_neg (show ¬(fd : Int) < 0 by omega), hcall₁, hcall₂]

end Command

/-! ## When silence means success -/

/-- Reading file `n` from its start returns exactly `l`. -/
def ReadsAs (s : Ramfs) (n : Nat) (l : List (BitVec 8)) : Prop :=
  (s.nodes n).isFile = true ∧ ∀ size buf, (ramfsRead s n 0 size buf).1 = (l.take size).length
    ∧ bytesAt (ramfsRead s n 0 size buf).2 0 (l.take size).length = l.take size

/-- The path names a file that holds the text and a newline. -/
def Faithful (v : Vfs) (path text : CStr) : Prop :=
  ∃ n, vfsResolve v path = some n ∧ ReadsAs v.fs n (text ++ [newline])

/-- The last component of a path, as `resolve_parent` finds it. -/
def leafName (path : CStr) : CStr := path.drop (lastSlash 0 0 path + 1)

/-- The path fits into its buffer, and names a file that has room for the text, or
nothing and can be created under its own name. A longer path is not written to at
all: it has to be a file that already holds the text, and that its first 127 bytes
do not name. -/
def WriteFits (v : Vfs) (a : WriteAllocs) (path text : CStr) : Prop :=
  if path.length ≤ pathMax then
    match vfsResolve v path with
    | some n => Readable v.fs n ∧ TextRoom a (fileCapacity v.fs n) text.length
    | none => (leafName path).length ≤ VFS_NAME_MAX - 1 ∧ a.node.file = true
        ∧ TextRoom a 0 text.length
  else
    ∃ n, vfsResolve v path = some n ∧ vfsResolve v (path.take pathMax) ≠ some n
      ∧ ReadsAs v.fs n (text ++ [newline])

section Reads

variable {s s' : Ramfs} {n : Nat} {l : List (BitVec 8)}

theorem readsAs_iff (hok : NodeOk (s.nodes n)) :
    ReadsAs s n l ↔ Readable s n ∧ fileContent s n = l := by
  constructor
  · rintro ⟨hfile, hall⟩
    have hr : Readable s n := by
      by_contra hno
      have hret := (hall 0 fun _ => 0#8).1
      rw [ramfsRead_refused hno] at hret
      omega
    refine ⟨hr, ?_⟩
    -- one read that is large enough for both lists
    obtain ⟨size, hsize⟩ : ∃ size, max (fileContent s n).length l.length = size := ⟨_, rfl⟩
    obtain ⟨hret, hbytes⟩ := ramfsRead_fetch hok hr 0 size fun _ => 0#8
    obtain ⟨hret', hbytes'⟩ := hall size fun _ => 0#8
    rw [fetch, List.drop_zero, List.take_of_length_le (by omega)] at hret hbytes
    rw [List.take_of_length_le (by omega)] at hret' hbytes'
    have hlen : (fileContent s n).length = l.length := by omega
    rw [hlen, hbytes'] at hbytes
    exact hbytes.symm
  · rintro ⟨hr, rfl⟩
    exact ⟨hr.1, fun size buf => ramfsRead_fetch hok hr 0 size buf⟩

theorem readsAs_congr (hflags : (s'.nodes n).flags = (s.nodes n).flags)
    (hsize : (s'.nodes n).size = (s.nodes n).size)
    (hdata : (s'.nodes n).fsData = (s.nodes n).fsData) : ReadsAs s' n l ↔ ReadsAs s n l := by
  have hread : ∀ size buf, ramfsRead s' n 0 size buf = ramfsRead s n 0 size buf := by
    intro size buf
    simp only [ramfsRead, VfsNode.isFile, hflags, hsize, hdata]
  simp only [ReadsAs, hread, VfsNode.isFile, hflags]

end Reads

section Faithful

variable {v w v' : Vfs} {kids : Nat → List Nat} {a : WriteAllocs} {n : Nat}
  {path text long base rest : CStr} {fs : Ramfs} {dir : Nat}

theorem written_length (b₁ b₂ : Bool) (text : CStr) :
    ((if b₁ then text else []) ++ (if b₂ then [newline] else [])).length
      = (if b₁ then text.length else 0) + if b₂ then 1 else 0 := by
  rw [List.length_append]
  cases b₁ <;> cases b₂ <;> rfl

theorem SilentWrite.nodeOk (h : SilentWrite w a n text v') : NodeOk (v'.fs.nodes n) :=
  h.sound.files n (h.tree.count ▸ h.lt)

/-- The file holds the text exactly if both writes went through. -/
theorem SilentWrite.reads_text (h : SilentWrite w a n text v') (htext : text ≠ []) :
    ReadsAs v'.fs n (text ++ [newline]) ↔
      Readable w.fs n ∧ TextRoom a (fileCapacity w.fs n) text.length := by
  obtain ⟨b₁, b₂, hcontent, hboth⟩ := h.content
  rw [readsAs_iff h.nodeOk, h.readable, ← hboth, hcontent]
  constructor
  · rintro ⟨-, heq⟩
    have hlen := congrArg List.length heq
    have hpos : 0 < text.length := List.length_pos_iff.mpr htext
    rw [written_length, List.length_append, List.length_singleton] at hlen
    cases b₁ with
    | true =>
        refine ⟨rfl, ?_⟩
        cases b₂ with
        | true => rfl
        | false => simp at hlen
    | false =>
        have : (if b₂ = true then 1 else 0) ≤ 1 := by split <;> decide
        simp only [Bool.false_eq_true, if_false] at hlen
        omega
  · rintro ⟨rfl, rfl⟩
    exact ⟨(hboth.mp ⟨rfl, rfl⟩).1, rfl⟩

/-- A file that was given a longer text does not hold a shorter one. -/
theorem SilentWrite.not_reads (h : SilentWrite w a n long v') (htext : text ≠ [])
    (hlong : text.length + 2 ≤ long.length) : ¬ReadsAs v'.fs n (text ++ [newline]) := by
  intro hreads
  obtain ⟨b₁, b₂, hcontent, -⟩ := h.content
  have hlen := congrArg List.length (hcontent.symm.trans ((readsAs_iff h.nodeOk).mp hreads).2)
  have hpos : 0 < text.length := List.length_pos_iff.mpr htext
  have hone : (if b₂ = true then 1 else 0) ≤ 1 := by split <;> decide
  rw [written_length, List.length_append, List.length_singleton] at hlen
  split at hlen <;> omega

/-- The path named a node before. -/
theorem SilentWrite.faithful_old (h : SilentWrite v a n text v') (ht : VfsTree v kids)
    (hres : vfsResolve v path = some n) (htext : text ≠ []) :
    Faithful v' path text ↔ Readable v.fs n ∧ TextRoom a (fileCapacity v.fs n) text.length := by
  have hres' : vfsResolve v' path = some n := by rw [ht.resolve_same h.tree h.root, hres]
  rw [← h.reads_text htext]
  constructor
  · rintro ⟨m, hm, hreads⟩
    cases hres'.symm.trans hm
    exact hreads
  · exact fun hreads => ⟨n, hres', hreads⟩

theorem NewLeaf.leafName_eq {b : NodeAlloc} {flags : BitVec 32}
    (hnew : NewLeaf v b path flags fs base rest dir) : leafName path = rest := by
  rw [leafName, hnew.split, lastSlash_eq hnew.noSlash, Nat.zero_add, ← List.drop_drop,
    List.drop_left]
  rfl

theorem NewLeaf.new_readable {b : NodeAlloc} (hnew : NewLeaf v b path VFS_FILE fs base rest dir) :
    (Readable fs v.fs.count ↔ b.file = true) ∧ fileCapacity fs v.fs.count = 0 := by
  have hpayload : newPayload b VFS_FILE = if b.file = true then some ⟨none, 0⟩ else none := by
    simp [newPayload, VFS_FILE]
  rw [Readable, fileCapacity, hnew.made.made, hpayload]
  cases b.file with
  | true =>
      have hfile : (VFS_FILE &&& VFS_FILE != 0#32) = true := by decide
      exact ⟨iff_of_true ⟨hfile, Option.some_ne_none _⟩ rfl, rfl⟩
  | false => exact ⟨iff_of_false (fun h => h.2 rfl) Bool.false_ne_true, rfl⟩

/-- The path named nothing, and its node was created. -/
theorem SilentWrite.faithful_new (ht : VfsTree v kids) (hres : vfsResolve v path = none)
    (hnew : NewLeaf v a.node path VFS_FILE fs base rest dir)
    (h : SilentWrite { v with fs := fs } a v.fs.count text v') (htext : text ≠ []) :
    Faithful v' path text ↔ (leafName path).length ≤ VFS_NAME_MAX - 1 ∧ a.node.file = true
      ∧ TextRoom a 0 text.length := by
  obtain ⟨kids', ht'⟩ := ht.create a.node path VFS_FILE
  rw [hnew.call] at ht'
  obtain ⟨hread, hcap⟩ := hnew.new_readable
  have hresolve : ∀ m, vfsResolve v' path = some m ↔
      m = v.fs.count ∧ rest.length ≤ VFS_NAME_MAX - 1 := by
    intro m
    rw [ht'.resolve_same h.tree h.root, hnew.resolve_iff ht, hres, hnew.names_iff]
    exact or_iff_right nofun
  have hreads := h.reads_text htext
  rw [hread, hcap] at hreads
  rw [hnew.leafName_eq, ← hreads]
  constructor
  · rintro ⟨m, hm, hr⟩
    obtain ⟨rfl, hlen⟩ := (hresolve m).mp hm
    exact ⟨hlen, hr⟩
  · rintro ⟨hlen, hr⟩
    exact ⟨_, (hresolve _).mpr ⟨rfl, hlen⟩, hr⟩

/-- Every file but the one written to reads as before. -/
theorem SilentWrite.reads_other (h : SilentWrite w a n long v') {m : Nat} (hne : m ≠ n)
    (hnode : ∃ p, w.fs.nodes m = { v.fs.nodes m with children := p }) {l : List (BitVec 8)} :
    ReadsAs v'.fs m l ↔ ReadsAs v.fs m l := by
  obtain ⟨p, hp⟩ := hnode
  have hm : v'.fs.nodes m = { v.fs.nodes m with children := p } := (h.others m hne).trans hp
  exact readsAs_congr (by rw [hm]) (by rw [hm]) (by rw [hm])

/-- The path was cut, and something else written to: what `path` means and holds is
what it did before, unless it is the file that was written. -/
theorem SilentWrite.faithful_cut (h : SilentWrite w a n long v') (ht : VfsTree v kids)
    (hresolve : ∀ m, vfsResolve v' path = some m → m ≠ n → vfsResolve v path = some m)
    (hkept : ∀ m, vfsResolve v path = some m → vfsResolve v' path = some m)
    (hold : ∀ m < v.fs.count, ∃ p, w.fs.nodes m = { v.fs.nodes m with children := p })
    (hnode : ∀ m, vfsResolve v path = some m → (m ≠ n ↔ vfsResolve v base ≠ some m))
    (htext : text ≠ []) (hlong : text.length + 2 ≤ long.length) :
    Faithful v' path text ↔ ∃ m, vfsResolve v path = some m ∧ vfsResolve v base ≠ some m
      ∧ ReadsAs v.fs m (text ++ [newline]) := by
  constructor
  · rintro ⟨m, hm, hreads⟩
    have hne : m ≠ n := by
      rintro rfl
      exact h.not_reads htext hlong hreads
    have hres := hresolve m hm hne
    exact ⟨m, hres, (hnode m hres).mp hne,
      (h.reads_other hne (hold m (ht.resolve_lt hres))).mp hreads⟩
  · rintro ⟨m, hres, hbase, hreads⟩
    have hne := (hnode m hres).mpr hbase
    exact ⟨m, hkept m hres, (h.reads_other hne (hold m (ht.resolve_lt hres))).mpr hreads⟩

/-- The node that was opened was there before, or it is new. -/
theorem VfsTree.openNode_cases (ht : VfsTree v kids) {b : NodeAlloc} {flags : BitVec 32}
    (hcreat : flags &&& VFS_O_CREAT ≠ 0#32) (hnode : (openNode v b path flags).1 = some n) :
    (vfsResolve v path = some n ∧ (openNode v b path flags).2 = v) ∨
      (vfsResolve v path = none ∧ n = v.fs.count ∧ ∃ fs base rest dir,
        NewLeaf v b path VFS_FILE fs base rest dir
          ∧ (openNode v b path flags).2 = { v with fs := fs }) := by
  rw [openNode] at hnode ⊢
  cases hres : vfsResolve v path with
  | some m =>
      rw [hres] at hnode
      exact Or.inl ⟨hnode, rfl⟩
  | none =>
      rw [hres] at hnode
      simp only [if_pos hcreat, vfsCreateFile] at hnode ⊢
      rcases ht.create_cases b path VFS_FILE with hc | ⟨fs, base, rest, dir, hnew⟩
      · rw [hc] at hnode
        cases hnode
      · rw [hnew.call] at hnode ⊢
        exact Or.inr ⟨trivial, (Option.some.inj hnode).symm, fs, base, rest, dir, hnew, rfl⟩

/-- A silent `write` to the whole path. -/
theorem SilentWrite.faithful_whole (ht : VfsTree v kids) {flags : BitVec 32}
    (hcreat : flags &&& VFS_O_CREAT ≠ 0#32) (hnode : (openNode v a.node path flags).1 = some n)
    (h : SilentWrite (openNode v a.node path flags).2 a n text v') (htext : text ≠ [])
    (hlen : path.length ≤ pathMax) : Faithful v' path text ↔ WriteFits v a path text := by
  rw [WriteFits, if_pos hlen]
  rcases ht.openNode_cases hcreat hnode with
    ⟨hres, hw⟩ | ⟨hres, rfl, fs, base, rest, dir, hnew, hw⟩
  · rw [hw] at h
    rw [hres]
    exact h.faithful_old ht hres htext
  · rw [hw] at h
    rw [hres]
    exact h.faithful_new ht hres hnew htext

/-- A silent `write` to the first 127 bytes of a longer path. -/
theorem SilentWrite.faithful_part (ht : VfsTree v kids) {flags : BitVec 32}
    (hcreat : flags &&& VFS_O_CREAT ≠ 0#32)
    (hnode : (openNode v a.node (path.take pathMax) flags).1 = some n)
    (h : SilentWrite (openNode v a.node (path.take pathMax) flags).2 a n long v')
    (htext : text ≠ []) (hlong : text.length + 2 ≤ long.length) (hlen : ¬path.length ≤ pathMax) :
    Faithful v' path text ↔ WriteFits v a path text := by
  rw [WriteFits, if_neg hlen]
  rcases ht.openNode_cases hcreat hnode with
    ⟨hres, hw⟩ | ⟨hres, rfl, fs, base, rest, dir, hnew, hw⟩
  · rw [hw] at h
    have hsame := ht.resolve_same h.tree h.root path
    refine h.faithful_cut ht (fun m hm _ => hsame ▸ hm) (fun m hm => hsame ▸ hm)
      (fun m _ => ⟨_, rfl⟩) (fun m _ => ?_) htext hlong
    rw [hres, ne_eq, ne_eq, Option.some.injEq, eq_comm]
  · rw [hw] at h
    obtain ⟨kids', ht'⟩ := ht.create a.node (path.take pathMax) VFS_FILE
    rw [hnew.call] at ht'
    have hsame := ht'.resolve_same h.tree h.root path
    refine h.faithful_cut ht (fun m hm hne => ?_) (fun m hm => ?_) (fun m hm => ?_)
      (fun m hm => ?_) htext hlong
    · rw [hsame, hnew.resolve_iff ht] at hm
      exact hm.resolve_right fun hnew' => hne hnew'.1
    · rw [hsame, hnew.resolve_iff ht]
      exact Or.inl hm
    · obtain ⟨p, hp, -⟩ := hnew.made.old hm
      exact ⟨p, hp⟩
    · have hlt := ht.resolve_lt hm
      rw [hres]
      exact iff_of_true (by omega) nofun

/-- A `write` that prints nothing has written the text exactly if `WriteFits`. -/
theorem write_faithful_iff (h : VfsReachable v) (a : WriteAllocs) (i j k : Nat) (hpath : path ≠ [])
    (hspace : space ∉ path) (htext : text ≠ []) (hhead : text.head? ≠ some space)
    (hline : (writeLine i j k path text).length ≤ CMD_MAX - 1) :
    ∃ args out v', shellExecute (writeLine i j k path text) = .handler .write args
      ∧ cmdWrite v a args = some (out, v')
      ∧ (out = [] → (Faithful v' path text ↔ WriteFits v a path text)) := by
  have hsize : path.length + (k + 1) + text.length ≤ 255 := by
    have hmax : CMD_MAX - 1 = 255 := rfl
    simp only [writeLine, spaces, List.length_append, List.length_replicate] at hline
    omega
  have hlong := textAfter_length k path text
  have hsmall : (textAfter k path text).length ≤ 255 := by
    split at hlong <;> omega
  have hheap := heapInitial_eq
  have hcreat : (VFS_O_WRONLY ||| VFS_O_CREAT ||| VFS_O_TRUNC) &&& VFS_O_CREAT ≠ 0#32 := by decide
  obtain ⟨kids, ht⟩ := h.sound.tree
  obtain ⟨out, v', hcall, hout⟩ := writeFile_cases h.sound a (path.take pathMax)
    (show 2 * ((textAfter k path text).length + 1) ≤ HEAP_INITIAL by omega)
  refine ⟨_, out, v', shellExecute_writeLine i j k hpath hspace text,
    (cmdWrite_eq v a k hpath hspace htext hhead).trans hcall, fun hnil => ?_⟩
  obtain ⟨n, hnode, hsilent⟩ := hout hnil
  by_cases hlen : path.length ≤ pathMax
  · rw [textAfter, if_pos hlen, List.take_of_length_le hlen] at hsilent
    rw [List.take_of_length_le hlen] at hnode
    exact SilentWrite.faithful_whole ht hcreat hnode hsilent htext hlen
  · rw [if_neg hlen] at hlong
    exact SilentWrite.faithful_part ht hcreat hnode hsilent htext (by omega) hlen

end Faithful

/-- Every allocation succeeds. -/
def plentyAllocs : WriteAllocs :=
  ⟨⟨true, true⟩, some fun _ => 0xFF#8, some fun _ => 0xFF#8⟩

/-- `write /tmp x` prints nothing, and `/tmp` is still the directory. -/
theorem write_to_directory_silent :
    VfsReachable fullBoot
      ∧ shellExecute (writeLine 0 0 0 (ascii "/tmp".toList) (ascii ['x']))
        = .handler .write (ascii "/tmp x".toList)
      ∧ ∃ v', cmdWrite fullBoot plentyAllocs (ascii "/tmp x".toList) = some ([], v')
        ∧ ¬Faithful v' (ascii "/tmp".toList) (ascii ['x']) := by
  refine ⟨fullBoot_reachable, by decide +kernel, ?_⟩
  have hrun : (cmdWrite fullBoot plentyAllocs (ascii "/tmp x".toList)).map (fun r =>
      (r.1, vfsResolve r.2 (ascii "/tmp".toList), (r.2.fs.nodes 1).isFile))
        = some ([], some 1, false) := by
    decide +kernel
  obtain ⟨⟨out, v'⟩, hcall, hout⟩ := Option.map_eq_some_iff.mp hrun
  simp only [Prod.mk.injEq] at hout
  obtain ⟨rfl, hres, hfile⟩ := hout
  refine ⟨v', hcall, ?_⟩
  rintro ⟨n, hn, hreads⟩
  cases hres.symm.trans hn
  rw [hreads.1] at hfile
  cases hfile

/-- `write /f hi`. -/
theorem write_faithful_iff_hi :
    ∃ v', cmdWrite fullBoot plentyAllocs (ascii "/f hi".toList) = some ([], v')
      ∧ Faithful v' (ascii "/f".toList) (ascii "hi".toList) := by
  obtain ⟨args, out, v', hline, hcall, hiff⟩ := write_faithful_iff fullBoot_reachable plentyAllocs
    0 0 0 (show ascii "/f".toList ≠ [] by decide) (by decide)
    (show ascii "hi".toList ≠ [] by decide) (by decide) (by decide)
  have hargs : shellExecute (writeLine 0 0 0 (ascii "/f".toList) (ascii "hi".toList))
      = .handler .write (ascii "/f hi".toList) := by decide +kernel
  cases hargs.symm.trans hline
  have hout : (cmdWrite fullBoot plentyAllocs (ascii "/f hi".toList)).map Prod.fst = some [] := by
    decide +kernel
  rw [hcall] at hout
  cases hout
  refine ⟨v', hcall, (hiff rfl).mpr ?_⟩
  have hnone : vfsResolve fullBoot (ascii "/f".toList) = none := by decide +kernel
  rw [WriteFits, if_pos (by decide), hnone]
  exact ⟨by decide, rfl, Or.inr rfl, Or.inr rfl⟩

end Matryoshka
