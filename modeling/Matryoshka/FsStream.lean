import Matryoshka.Cursor
import Matryoshka.FsHistory

/-!
# Files as byte streams

One program writes a file in chunks and another one reads it in chunks,
while the rest of the system goes on calling the file system. What the
others may do is a condition on their calls: they leave the file alone,
and the descriptor of the program in question. Under it a writer that has
truncated the file appends (`Streamed.writing`), and a reader is a cursor
over what the file holds (`ReadRun.reading`), so that neither sees how
the other cut the data.
-/

namespace Matryoshka

open ByteMem Cursor

/-! ## The calls of others -/

/-- The call neither writes to file `n` nor truncates it. -/
def LeavesFile (n : Nat) (v : Vfs) : VfsCall → Prop
  | .write fd _ _ => fdValid v fd = true → (v.fdTable fd.toNat).node ≠ some n
  | .openFile path flags _ => vfsResolve v path = some n → flags &&& VFS_O_TRUNC = 0#32
  | _ => True

/-- The call does not go through descriptor `fd`. -/
def LeavesFd (fd : Nat) : VfsCall → Prop
  | .close fd' | .read fd' _ _ | .write fd' _ _ => fd' ≠ fd
  | _ => True

/-- Any calls that leave file `n` alone and meet `Ok`. -/
inductive Meanwhile (n : Nat) (Ok : VfsCall → Prop) (v : Vfs) : Vfs → Prop
  | refl : Meanwhile n Ok v v
  | call {w c r w'} : Meanwhile n Ok v w → LeavesFile n w c → Ok c → NoWrap w c →
      vfsCall w c = some (r, w') → Meanwhile n Ok v w'

/-! ## A writer and a reader -/

/-- The chunks written in order through `fd` to file `n`, each write complete. -/
inductive Streamed (n fd : Nat) (v : Vfs) : List (List (BitVec 8)) → Vfs → Prop
  | start : Streamed n fd v [] v
  | others {cs w w'} : Streamed n fd v cs w → Meanwhile n (LeavesFd fd) w w' →
      Streamed n fd v cs w'
  | write {cs w data blk w'} : Streamed n fd v cs w →
      vfsWrite w fd data blk = some ((data.length : Int), w') →
      Streamed n fd v (cs ++ [data]) w'

/-- Reads of file `n` through `fd` without end, the `i`-th one of `sizes i` bytes
in `state i`. -/
structure ReadRun (n fd : Nat) (sizes : Nat → Nat) (v : Vfs) where
  buf : Nat → Mem
  state : Nat → Vfs
  first : Meanwhile n (LeavesFd fd) v (state 0)
  next : ∀ i, Meanwhile n (LeavesFd fd) (vfsRead (state i) fd (buf i) (sizes i)).2.2 (state (i + 1))

section Reader

variable {n fd : Nat} {sizes : Nat → Nat} {v : Vfs}

/-- What `vfs_read` returns the `i`-th time. -/
def ReadRun.result (r : ReadRun n fd sizes v) (i : Nat) : Int :=
  (vfsRead (r.state i) fd (r.buf i) (sizes i)).1

/-- The bytes it delivers. -/
def ReadRun.chunk (r : ReadRun n fd sizes v) (i : Nat) : List (BitVec 8) :=
  bytesAt (vfsRead (r.state i) fd (r.buf i) (sizes i)).2.1 0 (r.result i).toNat

end Reader

/-! ## What one call leaves behind -/

/-- The invariants of the file system that need no history. -/
structure FsSound (v : Vfs) : Prop where
  tree : ∃ kids, VfsTree v kids
  files : FilesOk v.fs
  fds : FdNodes v

/-- The file `n` with content `l`. -/
structure FileHolds (v : Vfs) (n : Nat) (l : List (BitVec 8)) : Prop where
  sound : FsSound v
  lt : n < v.fs.count
  content : fileContent v.fs n = l

/-- Descriptor `fd` is open for node `n` and stands at `off`. -/
structure OpenAt (v : Vfs) (fd n off : Nat) : Prop where
  valid : fdValid v fd = true
  node : (v.fdTable fd).node = some n
  offset : (v.fdTable fd).offset = off

section Calls

variable {v v' w : Vfs} {c : VfsCall} {e : FsEvent} {r : Int} {n m fd off : Nat}
  {l data : List (BitVec 8)} {blk : Option Mem} {Ok : VfsCall → Prop}

theorem FsInv.sound {log : List FsEvent} (h : FsInv log v) : FsSound v := ⟨h.tree, h.files, h.fds⟩

theorem VfsReachable.sound (h : VfsReachable v) : FsSound v := by
  obtain ⟨log, hrun⟩ := h
  exact (fsInv_run hrun).sound

theorem FsSound.effect (h : FsSound v) (hwrap : NoWrap v c) (hcall : vfsCall v c = some (r, v')) :
    FileEffect v v' c (eventOf v c r v') := by
  obtain ⟨kids, ht⟩ := h.tree
  exact call_effect ht h.files h.fds hwrap hcall

theorem FsSound.call (h : FsSound v) (hwrap : NoWrap v c) (hcall : vfsCall v c = some (r, v')) :
    FsSound v' := by
  have he := h.effect hwrap hcall
  obtain ⟨kids, ht⟩ := h.tree
  exact ⟨ht.call hcall, he.filesOk h.files, he.fdNodes h.fds⟩

/-! ### Properties of the nodes -/

/-- A property of the nodes that every call keeps, if the allocations for its new nodes
satisfy `Good`. -/
structure FsRule (Good : BitVec 32 → NodeAlloc → Prop) (P : Ramfs → Prop) : Prop where
  create : ∀ {s s' dir name flags a}, a.node = true → Good flags a →
    Created s s' dir name flags (newPayload a flags) → P s → P s'
  truncate : ∀ {s} n, P s → P (s.setNode n { s.nodes n with size := 0 })
  write : ∀ {s s' n off data blk r}, ramfsWrite s n off data blk = some (r, s') → P s → P s'

/-- What the allocations of a call have to satisfy. -/
def VfsCall.Allocs (Good : BitVec 32 → NodeAlloc → Prop) : VfsCall → Prop
  | .mkdir _ a => Good VFS_DIRECTORY a
  | .createFile _ a => Good VFS_FILE a
  | .openFile _ _ a => Good VFS_FILE a
  | _ => True

section Rule

variable {Good : BitVec 32 → NodeAlloc → Prop} {P : Ramfs → Prop}

theorem ramfsCreate_node {s : Ramfs} {a : NodeAlloc} {dir : Nat} {name : CStr} {flags : BitVec 32}
    (hc : (ramfsCreate s a dir name flags).1 ≠ none) : a.node = true := by
  by_contra hnode
  refine hc ?_
  simp only [ramfsCreate, allocNode, hnode]
  split
  · rfl
  · split <;> rfl

theorem FsRule.ramfsCreate {s : Ramfs} (hP : FsRule Good P) {dir : Nat} (hdir : dir < s.count)
    {a : NodeAlloc} {flags : BitVec 32} (hgood : Good flags a) (name : CStr) (h : P s) :
    P (ramfsCreate s a dir name flags).2 := by
  rcases ramfsCreate_cases s a name flags hdir with hc | ⟨s', hc, -, -, hmade⟩
  · rw [hc]
    exact h
  · have hnode := ramfsCreate_node (by rw [hc]; exact Option.some_ne_none _)
    rw [hc]
    exact hP.create hnode hgood hmade h

theorem FsRule.vfsCreate (hP : FsRule Good P) {kids : Nat → List Nat} (ht : VfsTree v kids)
    {a : NodeAlloc} {flags : BitVec 32} (hgood : Good flags a) (path : CStr) (h : P v.fs) :
    P (vfsCreate v a path flags).2.fs := by
  rw [Matryoshka.vfsCreate]
  split
  · exact h
  · next dir leaf hp =>
      obtain ⟨base, rest, -, -, -, -, hres⟩ := resolveParent_spec hp
      split
      · exact hP.ramfsCreate (ht.resolve_lt hres) hgood leaf h
      · exact h

theorem FsRule.vfsOpen (hP : FsRule Good P) {kids : Nat → List Nat} (ht : VfsTree v kids)
    {a : NodeAlloc} (hgood : Good VFS_FILE a) (path : CStr) (flags : BitVec 32) (h : P v.fs) :
    P (vfsOpen v a path flags).2.fs := by
  have hopen : P (openNode v a path flags).2.fs := by
    rw [openNode]
    split
    · exact h
    · split
      · exact hP.vfsCreate ht hgood path h
      · exact h
  rcases vfsOpen_cases v a path flags with ho | ⟨n, fd, -, -, ho⟩
  · rw [ho]
    exact hopen
  · rw [ho]
    simp only [installFd]
    split
    · exact hP.truncate n hopen
    · exact hopen

theorem FsRule.vfsWrite (hP : FsRule Good P) {fd : Int} (h : P v.fs)
    (hcall : vfsWrite v fd data blk = some (r, v')) : P v'.fs := by
  obtain ⟨-, rfl⟩ | ⟨n, fs, -, -, hw, rfl⟩ := vfsWrite_inv hcall
  · exact h
  · rw [advanceFd_fs]
    exact hP.write hw h

theorem FsRule.call (hP : FsRule Good P) (hs : FsSound v) (hgood : c.Allocs Good) (h : P v.fs)
    (hcall : vfsCall v c = some (r, v')) : P v'.fs := by
  obtain ⟨kids, ht⟩ := hs.tree
  cases c with
  | mkdir path a =>
      cases hcall
      exact hP.vfsCreate ht hgood path h
  | createFile path a =>
      cases hcall
      exact hP.vfsCreate ht hgood path h
  | openFile path flags a =>
      obtain rfl : (Matryoshka.vfsOpen v a path flags).2 = v' :=
        congrArg Prod.snd (Option.some.inj hcall)
      exact hP.vfsOpen ht hgood path flags h
  | close fd =>
      obtain rfl : (vfsClose v fd).2 = v' := congrArg Prod.snd (Option.some.inj hcall)
      rw [(vfsClose_same v fd).1]
      exact h
  | read fd buf size =>
      cases hcall
      rw [(vfsRead_same v fd buf size).1]
      exact h
  | write fd data blk => exact hP.vfsWrite h hcall

theorem FsRule.steps {Ok : List FsEvent → Vfs → VfsCall → Prop} {log₀ log : List FsEvent} {v₀ : Vfs}
    (hP : FsRule Good P) (hok : ∀ log v c, Ok log v c → c.Allocs Good) (h₀ : FsInv log₀ v₀)
    (h : P v₀.fs) (hs : VfsSteps Ok log₀ v₀ log v) : P v.fs := by
  induction hs with
  | refl => exact h
  | call hs hc _ hcall ih => exact hP.call (fsInv_steps h₀ hs).sound (hok _ _ _ hc) ih hcall

theorem FsRule.bootInv {s : Ramfs} (hP : FsRule Good P) (h : BootInv P s) {dir : Nat}
    (hdir : dir < s.count) {a : NodeAlloc} {flags : BitVec 32} (hgood : Good flags a) (name : CStr)
    (hname : GoodName name) : BootInv P (Matryoshka.ramfsCreate s a dir name flags).2 := by
  have htree : BootInv (fun _ => True) s := ⟨h.tree, h.pos, trivial⟩
  obtain ⟨-, htree⟩ := htree.create trivial_bootRule hdir a name flags hname
  exact ⟨htree.tree, htree.pos, hP.ramfsCreate hdir hgood name h.holds⟩

theorem FsRule.createMotd {s s' : Ramfs} {b : BootAllocs} (hP : FsRule Good P) (h : BootInv P s)
    (hgood : Good VFS_FILE b.motd) (hm : createMotd s b 0 = some s') : P s' := by
  obtain ⟨kids, ht⟩ := h.tree
  simp only [Matryoshka.createMotd] at hm
  split at hm
  · cases hm
    exact h.holds
  · next etc hl =>
      have hetc := (ht.kid 0 h.pos etc ((ht.lookup_iff h.pos).mp hl).1).2.1
      have hmade := hP.ramfsCreate hetc hgood (ascii ['m', 'o', 't', 'd']) h.holds
      split at hm
      · next hc =>
          rw [hc] at hmade
          cases hm
          exact hmade
      · next hc =>
          rw [hc] at hmade
          obtain ⟨⟨r, s₂⟩, hw, rfl⟩ := Option.map_eq_some_iff.mp hm
          exact hP.write hw hmade

/-- What holds of the root alone holds after `ramfs_init`. -/
theorem FsRule.booted {b : BootAllocs} (hP : FsRule Good P) (hstatic : P vfsStatic.fs)
    (hroot : ∀ {b s}, allocNode vfsStatic.fs b [slash] VFS_DIRECTORY = (some 0, s) → P s)
    (hdirs : ∀ a, Good VFS_DIRECTORY a) (hmotd : Good VFS_FILE b.motd)
    (hb : ramfsInit (vfsInit vfsStatic) b = some v) : P v.fs := by
  by_cases hnode : b.root.node = true
  · obtain ⟨s, hs, hone, ht⟩ := rootAlloc_tree hnode
    have hinit : (vfsInit vfsStatic).fs = vfsStatic.fs := rfl
    simp only [ramfsInit, hinit, hs] at hb
    obtain ⟨fs, hm, rfl⟩ := Option.map_eq_some_iff.mp hb
    have h : BootInv P s := ⟨⟨_, ht⟩, by omega, hroot hs⟩
    have h := hP.bootInv h h.pos (hdirs b.tmp) (ascii ['t', 'm', 'p']) (by decide)
    have h := hP.bootInv h h.pos (hdirs b.dev) (ascii ['d', 'e', 'v']) (by decide)
    have h := hP.bootInv h h.pos (hdirs b.etc) (ascii ['e', 't', 'c']) (by decide)
    exact hP.createMotd h hmotd hm
  · simp only [ramfsInit, allocNode, hnode] at hb
    cases hb
    exact hstatic

end Rule

/-! ### Files -/

theorem FileEffect.keeps (he : FileEffect v v' c e) (hl : LeavesFile n v c) (hn : n < v.fs.count) :
    (v'.fs.nodes n).size = (v.fs.nodes n).size
      ∧ (v'.fs.nodes n).fsData = (v.fs.nodes n).fsData := by
  cases he with
  | quiet hs _ => exact hs.old n hn
  | closed heq =>
      rw [heq]
      exact ⟨rfl, rfl⟩
  | @opened path flags _ fd m w hres hs _ _ heq =>
      have hno : ¬(m = n ∧ flags &&& VFS_O_TRUNC ≠ 0#32) := by
        rintro ⟨rfl, ht⟩
        exact ht (hl (hres.resolve_right (by omega)))
      rw [heq, installFd_node, if_neg hno]
      exact hs.old n hn
  | got _ _ _ heq =>
      rw [heq, advanceFd_fs]
      exact ⟨rfl, rfl⟩
  | @wrote fd data blk m fs hvalid hnode hw heq =>
      have hne : n ≠ m := by
        rintro rfl
        exact hl hvalid hnode
      rw [heq, advanceFd_fs]
      dsimp only
      rw [hw.other hne]
      exact ⟨rfl, rfl⟩

theorem readable_congr {s s' : Ramfs} (hflags : (s'.nodes n).flags = (s.nodes n).flags)
    (hdata : (s'.nodes n).fsData = (s.nodes n).fsData) (h : Readable s n) : Readable s' n := by
  rw [Readable, VfsNode.isFile, hflags, hdata]
  exact h

theorem FileHolds.call (h : FileHolds v n l) (hl : LeavesFile n v c) (hwrap : NoWrap v c)
    (hcall : vfsCall v c = some (r, v')) :
    FileHolds v' n l ∧ (Readable v.fs n → Readable v'.fs n) := by
  have he := h.sound.effect hwrap hcall
  obtain ⟨hsize, hdata⟩ := he.keeps hl h.lt
  obtain ⟨kids, ht⟩ := h.sound.tree
  refine ⟨⟨h.sound.call hwrap hcall, Nat.lt_of_lt_of_le h.lt he.count_le, ?_⟩,
    readable_congr (ht.call_flags hcall h.lt) hdata⟩
  rw [fileContent_congr hsize hdata, h.content]

theorem FileHolds.meanwhile (h : FileHolds v n l) (hm : Meanwhile n Ok v w) :
    FileHolds w n l ∧ (Readable v.fs n → Readable w.fs n) := by
  induction hm with
  | refl => exact ⟨h, id⟩
  | call _ hl _ hwrap hcall ih =>
      obtain ⟨hstep, hread⟩ := ih.1.call hl hwrap hcall
      exact ⟨hstep, fun hr => hread (ih.2 hr)⟩

/-! ### Descriptors -/

theorem allocFd_spec (h : allocFd v = some fd) :
    fd < VFS_MAX_FDS ∧ (v.fdTable fd).used = false := by
  have hmem := List.mem_of_find?_eq_some h
  have hfree := List.find?_some h
  exact ⟨List.mem_range.mp hmem, by simpa using hfree⟩

theorem vfsCreate_fdTable (v : Vfs) (a : NodeAlloc) (path : CStr) (flags : BitVec 32) :
    (vfsCreate v a path flags).2.fdTable = v.fdTable := by
  rw [vfsCreate]
  split
  · rfl
  · split <;> rfl

theorem openNode_fdTable (v : Vfs) (a : NodeAlloc) (path : CStr) (flags : BitVec 32) :
    (openNode v a path flags).2.fdTable = v.fdTable := by
  rcases openNode_tree v a path flags with hw | ⟨kind, hw⟩
  · rw [hw]
  · rw [hw, vfsCreate_fdTable]

theorem advanceFd_of_ne {fd' : Nat} (hne : fd ≠ fd') (k : Int) :
    (advanceFd v fd' k).fdTable fd = v.fdTable fd := by
  rw [advanceFd]
  split
  · exact setFd_of_ne hne
  · rfl

theorem fdValid_iff (v : Vfs) (fd : Nat) :
    fdValid v fd = true ↔ fd < VFS_MAX_FDS ∧ (v.fdTable fd).used = true := by
  simp only [fdValid, Bool.and_eq_true, decide_eq_true_eq, Int.toNat_natCast, Int.ofNat_lt,
    Int.natCast_nonneg, true_and]

theorem fdValid_toNat_ne {fd' : Int} (hvalid : fdValid v fd' = true) (hne : fd' ≠ fd) :
    fd ≠ fd'.toNat := by
  simp only [fdValid, Bool.and_eq_true, decide_eq_true_eq] at hvalid
  omega

/-- A call through another descriptor leaves an open one as it is. -/
theorem vfsCall_entry (hcall : vfsCall v c = some (r, v')) (hl : LeavesFd fd c)
    (hused : (v.fdTable fd).used = true) : v'.fdTable fd = v.fdTable fd := by
  cases c with
  | mkdir path a =>
      cases hcall
      exact congrFun (vfsCreate_fdTable ..) fd
  | createFile path a =>
      cases hcall
      exact congrFun (vfsCreate_fdTable ..) fd
  | openFile path flags a =>
      have heq : (vfsOpen v a path flags).2 = v' := congrArg Prod.snd (Option.some.inj hcall)
      have htab := openNode_fdTable v a path flags
      rcases vfsOpen_cases v a path flags with ho | ⟨n, fd', -, hfree, ho⟩
      · rw [← heq, ho, htab]
      · have hne : fd ≠ fd' := by
          rintro rfl
          have hunused := (allocFd_spec hfree).2
          rw [htab, hused] at hunused
          cases hunused
        rw [← heq, ho, installFd_entry_of_ne hne, htab]
  | close fd' =>
      have heq : (vfsClose v fd').2 = v' := congrArg Prod.snd (Option.some.inj hcall)
      rw [← heq, vfsClose]
      split
      · next hvalid => exact setFd_of_ne (fdValid_toNat_ne hvalid hl)
      · rfl
  | read fd' buf size =>
      cases hcall
      rw [vfsRead]
      split
      · next hvalid =>
          split
          · rfl
          · exact advanceFd_of_ne (fdValid_toNat_ne hvalid hl) _
      · rfl
  | write fd' data blk =>
      obtain ⟨-, rfl⟩ | ⟨n, fs, hvalid, -, -, rfl⟩ := vfsWrite_inv hcall
      · rfl
      · exact advanceFd_of_ne (fdValid_toNat_ne hvalid hl) _

theorem OpenAt.congr (h : OpenAt v fd n off) (heq : v'.fdTable fd = v.fdTable fd) :
    OpenAt v' fd n off := by
  refine ⟨?_, by rw [heq, h.node], by rw [heq, h.offset]⟩
  rw [fdValid_iff, heq, ← fdValid_iff]
  exact h.valid

/-- A descriptor after it has moved by `k`. -/
theorem OpenAt.advance (h : OpenAt v fd n off) {k : Nat} (hk : k = 0 ∨ off + k < 2 ^ 32) :
    OpenAt (advanceFd v fd k) fd n (off + k) := by
  rw [← h.offset] at hk
  have hentry := advanceFd_entry v hk fd
  rw [if_pos rfl] at hentry
  refine ⟨?_, ?_, ?_⟩
  · rw [fdValid_iff, hentry]
    exact (fdValid_iff v fd).mp h.valid
  · rw [hentry]
    exact h.node
  · rw [hentry, h.offset]

theorem OpenAt.meanwhile (h : OpenAt v fd n off) (hm : Meanwhile n (LeavesFd fd) v w) :
    OpenAt w fd n off := by
  induction hm with
  | refl => exact h
  | call _ _ hl _ hcall ih =>
      exact ih.congr (vfsCall_entry hcall hl ((fdValid_iff ..).mp ih.valid).2)

end Calls

/-! ## Writing -/

section Writing

variable {v v' w : Vfs} {n fd : Nat} {l data : List (BitVec 8)} {cs : List (List (BitVec 8))}
  {blk : Option Mem}

theorem Wrote.readable {s s' : Ramfs} {off : Nat} (h : Wrote s s' n off data) : Readable s' n := by
  refine ⟨h.isFile, ?_⟩
  obtain ⟨f, f', -, rfl, -⟩ := h.node
  rw [setNode_self]
  exact Option.some_ne_none f'

/-- A complete write at the end of the file appends and stays at the end. -/
theorem FileHolds.write (h : FileHolds v n l) (ho : OpenAt v fd n l.length)
    (hlen : l.length + data.length < 2 ^ 32)
    (hcall : vfsWrite v fd data blk = some ((data.length : Int), v')) :
    FileHolds v' n (l ++ data) ∧ OpenAt v' fd n (l ++ data).length ∧ Readable v'.fs n := by
  have hwrap : NoWrap v (.write fd data blk) := by
    intro _
    show (v.fdTable fd).offset + data.length < 2 ^ 32
    rwa [ho.offset]
  have hsound := h.sound.call (c := .write fd data blk) hwrap hcall
  rcases vfsWrite_cases h.sound.files h.sound.fds hwrap hcall with
    ⟨hneg, -⟩ | ⟨m, fs, -, -, hnode, hw, rfl⟩
  · omega
  · have hoff : (v.fdTable (fd : Int).toNat).offset = l.length := ho.offset
    cases ho.node.symm.trans hnode
    rw [hoff] at hw
    have hsize : l.length = (v.fs.nodes n).size := by rw [← h.content, fileContent_length]
    refine ⟨⟨hsound, ?_, ?_⟩, ?_, ?_⟩
    · rw [advanceFd_fs]
      exact Nat.lt_of_lt_of_eq h.lt hw.count.symm
    · rw [advanceFd_fs, ← h.content]
      exact hw.append (h.sound.files n h.lt) hsize
    · have ho' : OpenAt { v with fs := fs } fd n l.length := ho.congr rfl
      rw [List.length_append]
      exact ho'.advance (Or.inr hlen)
    · rw [advanceFd_fs]
      exact hw.readable

/-- After any number of complete writes the file holds their chunks, and the
writer stands at its end. -/
theorem Streamed.writing (hs : Streamed n fd v cs w) (h : FileHolds v n []) (ho : OpenAt v fd n 0)
    (htotal : cs.flatten.length < 2 ^ 31) :
    FileHolds w n cs.flatten ∧ OpenAt w fd n cs.flatten.length
      ∧ (cs ≠ [] ∨ Readable v.fs n → Readable w.fs n) := by
  induction hs with
  | start => exact ⟨h, ho, fun hr => hr.resolve_left fun hne => hne rfl⟩
  | others _ hm ih =>
      obtain ⟨hf, hfd, hread⟩ := ih htotal
      obtain ⟨hf', hkeep⟩ := hf.meanwhile hm
      exact ⟨hf', hfd.meanwhile hm, fun hr => hkeep (hread hr)⟩
  | @write cs w data blk w' _ hcall ih =>
      rw [List.flatten_append, List.flatten_singleton] at htotal ⊢
      rw [List.length_append] at htotal
      obtain ⟨hf, hfd, -⟩ := ih (by omega)
      obtain ⟨hf', hfd', hread⟩ := hf.write hfd (by omega) hcall
      exact ⟨hf', hfd', fun _ => hread⟩

end Writing

/-! ## Reading -/

section Reading

variable {v v' w : Vfs} {n fd off : Nat} {l : List (BitVec 8)} {sizes : Nat → Nat}

theorem vfsRead_open (ho : OpenAt v fd n off) (buf : Mem) (size : Nat) :
    vfsRead v fd buf size = ((ramfsRead v.fs n off size buf).1, (ramfsRead v.fs n off size buf).2,
      advanceFd v fd (ramfsRead v.fs n off size buf).1) := by
  have hnode : (v.fdTable (fd : Int).toNat).node = some n := ho.node
  have hoff : (v.fdTable (fd : Int).toNat).offset = off := ho.offset
  rw [vfsRead, if_pos ho.valid, hnode, hoff]
  rfl

/-- A read of a file delivers what the file holds from its offset on. -/
theorem ramfsRead_fetch {s : Ramfs} (hok : NodeOk (s.nodes n)) (hr : Readable s n) (off size : Nat)
    (buf : Mem) :
    (ramfsRead s n off size buf).1 = (fetch (fileContent s n) off size).length
      ∧ bytesAt (ramfsRead s n off size buf).2 0 (fetch (fileContent s n) off size).length
        = fetch (fileContent s n) off size := by
  have hlen : (fetch (fileContent s n) off size).length = min size ((s.nodes n).size - off) := by
    rw [fetch_length, fileContent_length]
  obtain ⟨hret, hbytes⟩ := ramfsRead_readable hok hr off size buf
  rw [← hlen] at hret hbytes
  refine ⟨hret, bytesAt_eq fun i hi => ?_⟩
  have hget : (fetch (fileContent s n) off size)[i]? = some (fileMem s n (off + i)) := by
    rw [fetch_getElem? _ off (by omega), fileContent, bytesAt_getElem? _ _ (by omega),
      Nat.zero_add]
  rw [Nat.zero_add, hbytes i hi, List.getD_eq_getElem?_getD, hget, Option.getD_some]

/-- A read at a cursor delivers what is left, and moves past it. -/
theorem FileHolds.read (h : FileHolds v n l) (hr : Readable v.fs n) (ho : OpenAt v fd n off)
    (buf : Mem) (size : Nat) :
    (vfsRead v fd buf size).1 = (fetch l off size).length
      ∧ bytesAt (vfsRead v fd buf size).2.1 0 (fetch l off size).length = fetch l off size
      ∧ FileHolds (vfsRead v fd buf size).2.2 n l ∧ Readable (vfsRead v fd buf size).2.2.fs n
      ∧ OpenAt (vfsRead v fd buf size).2.2 fd n (off + (fetch l off size).length) := by
  have hok := h.sound.files n h.lt
  have hsound := h.sound.call (c := .read fd buf size) trivial rfl
  obtain ⟨hret, hbytes⟩ := ramfsRead_fetch hok hr off size buf
  rw [h.content] at hret hbytes
  rw [vfsRead_open ho] at hsound ⊢
  dsimp only at hsound ⊢
  rw [hret] at hsound ⊢
  refine ⟨rfl, hbytes, ⟨hsound, ?_, ?_⟩, ?_, ?_⟩
  · rw [advanceFd_fs]
    exact h.lt
  · rw [advanceFd_fs]
    exact h.content
  · rw [advanceFd_fs]
    exact hr
  · refine ho.advance ?_
    have hsize : l.length = (v.fs.nodes n).size := by rw [← h.content, fileContent_length]
    have hlen := fetch_length l off size
    have := heap_lt hok.size_le_heap
    omega

/-- The reader is a cursor over what the file holds. -/
theorem ReadRun.reading (r : ReadRun n fd sizes v) (h : FileHolds v n l) (hr : Readable v.fs n)
    (ho : OpenAt v fd n 0) (i : Nat) :
    FileHolds (r.state i) n l ∧ Readable (r.state i).fs n
      ∧ OpenAt (r.state i) fd n (pos l sizes i) := by
  induction i with
  | zero =>
      obtain ⟨hf, hread⟩ := h.meanwhile r.first
      exact ⟨hf, hread hr, ho.meanwhile r.first⟩
  | succ i ih =>
      obtain ⟨hf, hread, hfd⟩ := ih
      obtain ⟨-, -, hf, hread, hfd⟩ := hf.read hread hfd (r.buf i) (sizes i)
      obtain ⟨hf, hkeep⟩ := hf.meanwhile (r.next i)
      exact ⟨hf, hkeep hread, hfd.meanwhile (r.next i)⟩

theorem ReadRun.chunk_eq (r : ReadRun n fd sizes v) (h : FileHolds v n l) (hr : Readable v.fs n)
    (ho : OpenAt v fd n 0) (i : Nat) :
    r.chunk i = answer l sizes i ∧ r.result i = (answer l sizes i).length := by
  obtain ⟨hf, hread, hfd⟩ := r.reading h hr ho i
  obtain ⟨hret, hbytes, -⟩ := hf.read hread hfd (r.buf i) (sizes i)
  refine ⟨?_, hret⟩
  rw [ReadRun.chunk, ReadRun.result, hret, Int.toNat_natCast]
  exact hbytes

end Reading

/-! ## The round trip -/

/-- `vfs_open` has just returned `fd` for node `n`, not for appending. -/
structure FreshlyOpened (v : Vfs) (flags : BitVec 32) (fd n : Nat) (v' : Vfs) : Prop where
  call : ∃ a path, vfsOpen v a path flags = ((fd : Int), v')
  node : (v'.fdTable fd).node = some n
  start : flags &&& VFS_O_APPEND = 0#32

/-- The reads deliver `l` and nothing else: first its bytes, in whatever pieces,
and then the end of the file for ever. -/
def ReadRun.Delivers {n fd : Nat} {sizes : Nat → Nat} {v : Vfs} (r : ReadRun n fd sizes v)
    (l : List (BitVec 8)) : Prop :=
  (∀ i, r.result i = (r.chunk i).length)
    ∧ ∃ k, (List.range k).flatMap r.chunk = l ∧ ∀ i, k ≤ i → r.result i = 0

section RoundTrip

variable {v v' v₁ v₂ v₃ v₄ : Vfs} {flags wflags rflags : BitVec 32} {fd rd n : Nat}
  {l : List (BitVec 8)} {cs : List (List (BitVec 8))} {sizes : Nat → Nat}

theorem FreshlyOpened.openAt (h : FreshlyOpened v flags fd n v') : OpenAt v' fd n 0 := by
  obtain ⟨a, path, hcall⟩ := h.call
  have hnode := h.node
  rcases vfsOpen_cases v a path flags with ho | ⟨m, fd', -, hfree, ho⟩
  · have hneg : (-1 : Int) = fd := congrArg Prod.fst (ho.symm.trans hcall)
    omega
  · cases ho.symm.trans hcall
    rw [installFd_entry] at hnode
    refine ⟨?_, ?_, ?_⟩
    · rw [fdValid_iff, installFd_entry]
      exact ⟨(allocFd_spec hfree).1, rfl⟩
    · rw [installFd_entry]
      exact hnode
    · rw [installFd_entry, openEntry, if_neg (not_not_intro h.start)]

/-- A truncating open leaves the file empty. -/
theorem FreshlyOpened.truncated (h : FreshlyOpened v flags fd n v') (hs : FsSound v)
    (ht : flags &&& VFS_O_TRUNC ≠ 0#32) : FileHolds v' n [] := by
  obtain ⟨a, path, hcall⟩ := h.call
  have hs' : FsSound v' := hs.call (c := .openFile path flags a) trivial (congrArg some hcall)
  refine ⟨hs', hs'.fds fd n h.node, ?_⟩
  have hnode := h.node
  rcases vfsOpen_cases v a path flags with ho | ⟨m, fd', -, -, ho⟩
  · have hneg : (-1 : Int) = fd := congrArg Prod.fst (ho.symm.trans hcall)
    omega
  · cases ho.symm.trans hcall
    rw [installFd_entry] at hnode
    cases hnode
    rw [fileContent, installFd_node, if_pos ⟨rfl, ht⟩]
    rfl

/-- An open that does not truncate leaves every file as it was. -/
theorem FreshlyOpened.keeps (h : FreshlyOpened v flags fd n v') (hf : FileHolds v n l)
    (ht : flags &&& VFS_O_TRUNC = 0#32) :
    FileHolds v' n l ∧ (Readable v.fs n → Readable v'.fs n) := by
  obtain ⟨a, path, hcall⟩ := h.call
  exact hf.call (c := .openFile path flags a) (fun _ => ht) trivial (congrArg some hcall)

/-- The chunks of a writer that has truncated the file come back through a fresh
descriptor, however either side cuts the data, provided that a chunk was written
or the opened node is a file: `vfs_open` hands out descriptors for directories
too, and only `ramfs_read` and `ramfs_write` refuse them. -/
theorem stream_round_trip (h : VfsReachable v) (hopen : FreshlyOpened v wflags fd n v₁)
    (htrunc : wflags &&& VFS_O_TRUNC ≠ 0#32) (hwritten : Streamed n fd v₁ cs v₂)
    (htotal : cs.flatten.length < 2 ^ 31) (hfile : cs ≠ [] ∨ Readable v₁.fs n)
    (hothers : Meanwhile n (fun _ => True) v₂ v₃) (hreopen : FreshlyOpened v₃ rflags rd n v₄)
    (hkeep : rflags &&& VFS_O_TRUNC = 0#32) (hpos : ∀ i, 0 < sizes i)
    (r : ReadRun n rd sizes v₄) : r.Delivers cs.flatten := by
  obtain ⟨hf, -, hread⟩ :=
    hwritten.writing (hopen.truncated h.sound htrunc) hopen.openAt htotal
  obtain ⟨hf, hread₃⟩ := hf.meanwhile hothers
  obtain ⟨hf, hread₄⟩ := hreopen.keeps hf hkeep
  have hanswer := r.chunk_eq hf (hread₄ (hread₃ (hread hfile))) hreopen.openAt
  have hchunk : r.chunk = answer cs.flatten sizes := funext fun i => (hanswer i).1
  obtain ⟨hall, hend⟩ := answers_complete cs.flatten sizes hpos
  refine ⟨fun i => ?_, cs.flatten.length, ?_, fun i hi => ?_⟩
  · rw [(hanswer i).1, (hanswer i).2]
  · rw [hchunk, hall]
  · rw [(hanswer i).2, hend i hi]
    rfl

end RoundTrip

/-! ## Runs without others -/

/-- A reader that nobody interrupts. -/
def ReadRun.alone (n fd : Nat) (sizes : Nat → Nat) (v : Vfs) : ReadRun n fd sizes v where
  buf := fun _ _ => 0#8
  state := Nat.rec v fun i w => (vfsRead w fd (fun _ => 0#8) (sizes i)).2.2
  first := .refl
  next := fun _ => .refl

section Refused

variable {v : Vfs} {n fd off : Nat} {sizes : Nat → Nat}

theorem vfsRead_refused (ho : OpenAt v fd n off) (h : ¬Readable v.fs n) (buf : Mem) (size : Nat) :
    vfsRead v fd buf size = (-1, buf, v) := by
  rw [vfsRead_open ho, ramfsRead_refused h]
  rfl

/-- Every read of a node that is no file fails. -/
theorem ReadRun.alone_refused (ho : OpenAt v fd n off) (h : ¬Readable v.fs n) (i : Nat) :
    (ReadRun.alone n fd sizes v).result i = -1 := by
  have hstate : ∀ i, (ReadRun.alone n fd sizes v).state i = v := by
    intro i
    induction i with
    | zero => rfl
    | succ i ih =>
        have hnext : (ReadRun.alone n fd sizes v).state (i + 1)
            = (vfsRead ((ReadRun.alone n fd sizes v).state i) fd (fun _ => 0#8) (sizes i)).2.2 :=
          rfl
        rw [hnext, ih, vfsRead_refused ho h]
  rw [ReadRun.result, hstate, vfsRead_refused ho h]

end Refused

/-- `/tmp` opened like a file to be written. -/
def tmpOpened : Vfs :=
  (vfsOpen fullBoot ⟨true, true⟩ (slash :: ascii ['t', 'm', 'p']) (VFS_O_CREAT ||| VFS_O_TRUNC)).2

def tmpReopened : Vfs := (vfsOpen tmpOpened ⟨true, true⟩ (slash :: ascii ['t', 'm', 'p']) 0#32).2

theorem fullBoot_reachable : VfsReachable fullBoot := ⟨_, fullRun_run (fun _ _ _ => True) []⟩

/-- Nothing is written to `/tmp`, and its reader never sees the end of a file. -/
theorem directory_stream_fails :
    VfsReachable fullBoot ∧ FreshlyOpened fullBoot (VFS_O_CREAT ||| VFS_O_TRUNC) 0 1 tmpOpened
      ∧ Streamed 1 0 tmpOpened [] tmpOpened
      ∧ Meanwhile 1 (fun _ => True) tmpOpened tmpOpened
      ∧ FreshlyOpened tmpOpened 0#32 1 1 tmpReopened
      ∧ (∀ i, (ReadRun.alone 1 1 (fun _ => 8) tmpReopened).result i = -1)
      ∧ ¬(ReadRun.alone 1 1 (fun _ => 8) tmpReopened).Delivers [] := by
  have hopen : FreshlyOpened fullBoot (VFS_O_CREAT ||| VFS_O_TRUNC) 0 1 tmpOpened :=
    ⟨⟨_, _, Prod.ext (by decide +kernel) rfl⟩, by decide +kernel, by decide⟩
  have hreopen : FreshlyOpened tmpOpened 0#32 1 1 tmpReopened :=
    ⟨⟨_, _, Prod.ext (by decide +kernel) rfl⟩, by decide +kernel, by decide⟩
  have hfail : ∀ i, (ReadRun.alone 1 1 (fun _ => 8) tmpReopened).result i = -1 :=
    ReadRun.alone_refused hreopen.openAt (by decide +kernel)
  refine ⟨fullBoot_reachable, hopen, .start, .refl, hreopen, hfail, ?_⟩
  rintro ⟨-, k, -, hend⟩
  have hzero := hend k (Nat.le_refl k)
  rw [hfail k] at hzero
  cases hzero

/-- `/f`, created and opened. -/
def noteOpened : Vfs :=
  (vfsOpen fullBoot ⟨true, true⟩ (slash :: ascii ['f']) (VFS_O_CREAT ||| VFS_O_TRUNC)).2

/-- The state after a write through descriptor 0. -/
def afterWrite (v : Vfs) (data : List (BitVec 8)) : Vfs :=
  ((vfsWrite v 0 data (some fun _ => 0xFF#8)).map Prod.snd).getD v

theorem afterWrite_eq {v : Vfs} {data : List (BitVec 8)} {r : Int}
    (h : (vfsWrite v 0 data (some fun _ => 0xFF#8)).map Prod.fst = some r) :
    vfsWrite v 0 data (some fun _ => 0xFF#8) = some (r, afterWrite v data) := by
  obtain ⟨⟨r', w⟩, hw, rfl⟩ := Option.map_eq_some_iff.mp h
  rw [afterWrite, hw]
  rfl

def noteReopened : Vfs :=
  (vfsOpen (afterWrite (afterWrite noteOpened [1#8, 2#8]) [3#8]) ⟨true, true⟩
    (slash :: ascii ['f']) 0#32).2

/-- Two bytes and one byte, read two at a time. -/
theorem stream_round_trip_note :
    (ReadRun.alone 5 1 (fun _ => 2) noteReopened).Delivers [1#8, 2#8, 3#8] := by
  have hwritten : Streamed 5 0 noteOpened [[1#8, 2#8], [3#8]]
      (afterWrite (afterWrite noteOpened [1#8, 2#8]) [3#8]) :=
    .write (.write .start (afterWrite_eq (by decide +kernel))) (afterWrite_eq (by decide +kernel))
  have hopen : FreshlyOpened fullBoot (VFS_O_CREAT ||| VFS_O_TRUNC) 0 5 noteOpened :=
    ⟨⟨_, _, Prod.ext (by decide +kernel) rfl⟩, by decide +kernel, by decide⟩
  have hreopen : FreshlyOpened (afterWrite (afterWrite noteOpened [1#8, 2#8]) [3#8]) 0#32 1 5
      noteReopened :=
    ⟨⟨_, _, Prod.ext (by decide +kernel) rfl⟩, by decide +kernel, by decide⟩
  have hback := stream_round_trip fullBoot_reachable hopen (by decide) hwritten (by decide)
    (Or.inl (by decide)) .refl hreopen (by decide) (fun _ => Nat.zero_lt_two)
    (ReadRun.alone 5 1 (fun _ => 2) noteReopened)
  exact hback

end Matryoshka
