import Matryoshka.Ramfs

/-!
# The virtual file system

`kernel/fs/vfs.c`: path resolution and the descriptor table, over the RAM
file system that is mounted at the root, and the two initialisation
routines. Paths are C strings, so the scanners stop at the end of the
list; a NULL path is left out, as is the operations table, which every
node has.

A call of the interface is a `VfsCall` together with the outcome of the
allocations it makes. `VfsRun` is the runs from boot in which every call
meets a condition; each carries the history that the properties of open
files talk about.
-/

namespace Matryoshka

open ByteMem

/-! ## Descriptors -/

def VFS_MAX_FDS : Nat := 32

def VFS_O_CREAT : BitVec 32 := 0x40#32

def VFS_O_TRUNC : BitVec 32 := 0x200#32

def VFS_O_APPEND : BitVec 32 := 0x400#32

structure FdEntry where
  node : Option Nat
  offset : Nat
  flags : BitVec 32
  used : Bool

structure Vfs where
  fs : Ramfs
  rootNode : Option Nat
  fdTable : Nat → FdEntry

def Vfs.setFd (v : Vfs) (fd : Nat) (e : FdEntry) : Vfs :=
  { v with fdTable := Function.update v.fdTable fd e }

def allocFd (v : Vfs) : Option Nat :=
  (List.range VFS_MAX_FDS).find? fun i => !(v.fdTable i).used

/-- `fd >= 0 && fd < VFS_MAX_FDS && fd_table[fd].used`. -/
def fdValid (v : Vfs) (fd : Int) : Bool :=
  decide (0 ≤ fd) && decide (fd < VFS_MAX_FDS) && (v.fdTable fd.toNat).used

/-! ## Path resolution -/

def slash : BitVec 8 := 0x2F#8

/-- `next_component`: the component and the new cursor. -/
def nextComponent (cursor : CStr) (max : Nat) : Option (CStr × CStr) :=
  let p := cursor.dropWhile (· == slash)
  if p = [] then none
  else
    let comp := (p.takeWhile (· != slash)).take (max - 1)
    some (comp, p.drop comp.length)

/-- The loop of `vfs_resolve`; a turn consumes at least one byte of the path. -/
def resolveFrom (s : Ramfs) : Nat → Nat → CStr → Option Nat
  | 0, _, _ => none
  | fuel + 1, cur, p =>
      match nextComponent p VFS_NAME_MAX with
      | none => some cur
      | some (comp, p) =>
          if (s.nodes cur).isDirectory then
            match ramfsLookup s cur comp with
            | none => none
            | some c => resolveFrom s fuel c p
          else none

def vfsResolve (v : Vfs) (path : CStr) : Option Nat :=
  match v.rootNode with
  | none => none
  | some root =>
      if path = [slash] then some root else resolveFrom v.fs (path.length + 1) root path

/-- The offset of the last slash: `last` is where the latest one was, `i` the
offset of the bytes still to be read. -/
def lastSlash (last i : Nat) : CStr → Nat
  | [] => last
  | b :: p => lastSlash (if b = slash then i else last) (i + 1) p

/-- `resolve_parent`: the parent directory and the leaf name. -/
def resolveParent (v : Vfs) (path : CStr) (max : Nat) : Option (Nat × CStr) :=
  if path.head? ≠ some slash then none
  else
    let last := lastSlash 0 0 path
    let leaf := (path.drop (last + 1)).take (max - 1)
    if leaf = [] then none
    else if last = 0 then v.rootNode.map fun root => (root, leaf)
    else if 256 ≤ last then none
    else (vfsResolve v (path.take last)).map fun dir => (dir, leaf)

/-! ## Creation -/

/-- The common body of `vfs_mkdir` and `vfs_create_file`. -/
def vfsCreate (v : Vfs) (a : NodeAlloc) (path : CStr) (flags : BitVec 32) : Option Nat × Vfs :=
  match resolveParent v path VFS_NAME_MAX with
  | none => (none, v)
  | some (dir, leaf) =>
      if (v.fs.nodes dir).isDirectory then
        let (node, fs) := ramfsCreate v.fs a dir leaf flags
        (node, { v with fs := fs })
      else (none, v)

def vfsMkdir (v : Vfs) (a : NodeAlloc) (path : CStr) : Int × Vfs :=
  let (dir, v) := vfsCreate v a path VFS_DIRECTORY
  (if dir.isSome then 0 else -1, v)

def vfsCreateFile (v : Vfs) (a : NodeAlloc) (path : CStr) : Option Nat × Vfs :=
  vfsCreate v a path VFS_FILE

/-! ## Open files -/

/-- The node that `vfs_open` opens, created on demand. -/
def openNode (v : Vfs) (a : NodeAlloc) (path : CStr) (flags : BitVec 32) : Option Nat × Vfs :=
  match vfsResolve v path with
  | some node => (some node, v)
  | none => if flags &&& VFS_O_CREAT ≠ 0#32 then vfsCreateFile v a path else (none, v)

/-- The entry `vfs_open` makes; the size is the one before truncation. -/
def openEntry (s : Ramfs) (node : Nat) (flags : BitVec 32) : FdEntry where
  node := some node
  offset := if flags &&& VFS_O_APPEND ≠ 0#32 then (s.nodes node).size else 0
  flags := flags
  used := true

/-- The rest of `vfs_open`, with the node and a free descriptor at hand. -/
def installFd (v : Vfs) (fd node : Nat) (flags : BitVec 32) : Vfs :=
  let v := v.setFd fd (openEntry v.fs node flags)
  { v with
    fs := if flags &&& VFS_O_TRUNC ≠ 0#32 then
        v.fs.setNode node { v.fs.nodes node with size := 0 }
      else v.fs }

def vfsOpen (v : Vfs) (a : NodeAlloc) (path : CStr) (flags : BitVec 32) : Int × Vfs :=
  match openNode v a path flags with
  | (none, v) => (-1, v)
  | (some node, v) =>
      match allocFd v with
      | none => (-1, v)
      | some fd => (fd, installFd v fd node flags)

def vfsClose (v : Vfs) (fd : Int) : Int × Vfs :=
  if fdValid v fd then
    (0, v.setFd fd.toNat { v.fdTable fd.toNat with used := false, node := none })
  else (-1, v)

/-- `if (n > 0) fd_table[fd].offset += (uint32_t)n`. -/
def advanceFd (v : Vfs) (fd : Nat) (n : Int) : Vfs :=
  if 0 < n then
    v.setFd fd { v.fdTable fd with offset := u32 ((v.fdTable fd).offset + n.toNat) }
  else v

def vfsRead (v : Vfs) (fd : Int) (buf : Mem) (size : Nat) : Int × Mem × Vfs :=
  if fdValid v fd then
    match (v.fdTable fd.toNat).node with
    | none => (-1, buf, v)
    | some node =>
        let (n, buf) := ramfsRead v.fs node (v.fdTable fd.toNat).offset size buf
        (n, buf, advanceFd v fd.toNat n)
  else (-1, buf, v)

/-- `vfs_write`; `none` if it does not return. -/
def vfsWrite (v : Vfs) (fd : Int) (data : List (BitVec 8)) (blk : Option Mem) :
    Option (Int × Vfs) :=
  if fdValid v fd then
    match (v.fdTable fd.toNat).node with
    | none => some (-1, v)
    | some node =>
        match ramfsWrite v.fs node (v.fdTable fd.toNat).offset data blk with
        | none => none
        | some (n, fs) => some (n, advanceFd { v with fs := fs } fd.toNat n)
  else some (-1, v)

def vfsReaddir (v : Vfs) (path : CStr) (index : Nat) : Option (CStr × BitVec 32) :=
  match vfsResolve v path with
  | none => none
  | some dir => if (v.fs.nodes dir).isDirectory then ramfsReaddir v.fs dir index else none

/-! ## Initialisation -/

/-- The static data before `vfs_init`. -/
def vfsStatic : Vfs where
  fs := { nodes := fun _ => ⟨[], 0#32, 0, 0, none, none, none, none⟩, count := 0, nextInode := 1 }
  rootNode := none
  fdTable := fun _ => ⟨none, 0, 0#32, false⟩

def vfsInit (v : Vfs) : Vfs :=
  { v with fdTable := fun _ => ⟨none, 0, 0#32, false⟩, rootNode := none }

/-- The outcomes of the allocations of `ramfs_init`. -/
structure BootAllocs where
  root : NodeAlloc
  tmp : NodeAlloc
  dev : NodeAlloc
  etc : NodeAlloc
  motd : NodeAlloc
  data : Option Mem

def ascii (cs : List Char) : CStr := cs.map fun c => BitVec.ofNat 8 c.toNat

def motdText : CStr := ascii ['W', 'e', 'l', 'c', 'o', 'm', 'e', ' ', 't', 'o', ' ',
  'M', 'a', 't', 'r', 'y', 'o', 's', 'h', 'k', 'a', 'O', 'S', '!', '\n']

/-- `/etc/motd`, if there is room for it. -/
def createMotd (fs : Ramfs) (a : BootAllocs) (root : Nat) : Option Ramfs :=
  match ramfsLookup fs root (ascii ['e', 't', 'c']) with
  | none => some fs
  | some etc =>
      match ramfsCreate fs a.motd etc (ascii ['m', 'o', 't', 'd']) VFS_FILE with
      | (none, fs) => some fs
      | (some motd, fs) => (ramfsWrite fs motd 0 motdText a.data).map Prod.snd

/-- `ramfs_init`; `none` if it does not return. -/
def ramfsInit (v : Vfs) (a : BootAllocs) : Option Vfs :=
  match allocNode v.fs a.root [slash] VFS_DIRECTORY with
  | (none, fs) => some { v with fs := fs }
  | (some root, fs) =>
      let fs := (ramfsCreate fs a.tmp root (ascii ['t', 'm', 'p']) VFS_DIRECTORY).2
      let fs := (ramfsCreate fs a.dev root (ascii ['d', 'e', 'v']) VFS_DIRECTORY).2
      let fs := (ramfsCreate fs a.etc root (ascii ['e', 't', 'c']) VFS_DIRECTORY).2
      (createMotd fs a root).map fun fs => { v with fs := fs, rootNode := some root }

/-! ## Calls and runs -/

inductive VfsCall where
  | mkdir (path : CStr) (a : NodeAlloc)
  | createFile (path : CStr) (a : NodeAlloc)
  | openFile (path : CStr) (flags : BitVec 32) (a : NodeAlloc)
  | close (fd : Int)
  | read (fd : Int) (buf : Mem) (size : Nat)
  | write (fd : Int) (data : List (BitVec 8)) (blk : Option Mem)

/-- The result of a call and the state after it; `none` if the call does not
return. A node pointer counts as 0 and NULL as -1. -/
def vfsCall (v : Vfs) : VfsCall → Option (Int × Vfs)
  | .mkdir path a => some (vfsMkdir v a path)
  | .createFile path a =>
      some (if (vfsCreateFile v a path).1.isSome then 0 else -1, (vfsCreateFile v a path).2)
  | .openFile path flags a => some (vfsOpen v a path flags)
  | .close fd => some (vfsClose v fd)
  | .read fd buf size => some ((vfsRead v fd buf size).1, (vfsRead v fd buf size).2.2)
  | .write fd data blk => vfsWrite v fd data blk

/-- What a call did to open files, for the history of a run: `opened` carries
the size of the file before truncation. -/
inductive FsEvent where
  | booted (fs : Ramfs)
  | opened (fd node : Nat) (flags : BitVec 32) (size : Nat)
  | got (fd count : Nat)
  | wrote (fd node off : Nat) (data : List (BitVec 8))
  | other

/-- The event of a call in `v` with result `r` that ends in `v'`. -/
def eventOf (v : Vfs) (c : VfsCall) (r : Int) (v' : Vfs) : FsEvent :=
  if r < 0 then .other
  else
    match c with
    | .openFile path flags a =>
        match (v'.fdTable r.toNat).node with
        | some n => .opened r.toNat n flags ((openNode v a path flags).2.fs.nodes n).size
        | none => .other
    | .read fd _ _ => .got fd.toNat r.toNat
    | .write fd data _ =>
        match (v.fdTable fd.toNat).node with
        | some n => .wrote fd.toNat n (v.fdTable fd.toNat).offset data
        | none => .other
    | _ => .other

/-- A write whose end is a 32-bit number. -/
def NoWrap (v : Vfs) : VfsCall → Prop
  | .write fd data _ =>
      fdValid v fd = true → (v.fdTable fd.toNat).offset + data.length < 2 ^ 32
  | _ => True

instance (v : Vfs) : ∀ c, Decidable (NoWrap v c)
  | .write .. => inferInstanceAs (Decidable (_ = _ → _ < _))
  | .mkdir .. | .createFile .. | .openFile .. | .close _ | .read .. =>
      inferInstanceAs (Decidable True)

/-- Calls in any order, each one made where `Ok` holds; the history has the
latest event first. -/
inductive VfsSteps (Ok : List FsEvent → Vfs → VfsCall → Prop) (log₀ : List FsEvent) (v₀ : Vfs) :
    List FsEvent → Vfs → Prop
  | refl : VfsSteps Ok log₀ v₀ log₀ v₀
  | call {log v c r v'} : VfsSteps Ok log₀ v₀ log v → Ok log v c → NoWrap v c →
      vfsCall v c = some (r, v') → VfsSteps Ok log₀ v₀ (eventOf v c r v' :: log) v'

def Booted (v : Vfs) : Prop := ∃ a, ramfsInit (vfsInit vfsStatic) a = some v

/-- The states reached from `vfs_init` and `ramfs_init`. -/
def VfsRun (Ok : List FsEvent → Vfs → VfsCall → Prop) (log : List FsEvent) (v : Vfs) : Prop :=
  ∃ v₀, Booted v₀ ∧ VfsSteps Ok [.booted v₀.fs] v₀ log v

/-- Every state that any calls can reach. -/
def VfsReachable (v : Vfs) : Prop := ∃ log, VfsRun (fun _ _ _ => True) log v

/-- The run that makes the calls of a list, as far as they meet `Ok` and return. -/
def runCalls (Ok : List FsEvent → Vfs → VfsCall → Prop) [∀ log v c, Decidable (Ok log v c)]
    (log : List FsEvent) (v : Vfs) : List VfsCall → List FsEvent × Vfs
  | [] => (log, v)
  | c :: cs =>
      if Ok log v c ∧ NoWrap v c then
        match vfsCall v c with
        | none => (log, v)
        | some (r, v') => runCalls Ok (eventOf v c r v' :: log) v' cs
      else (log, v)

theorem runCalls_steps {Ok : List FsEvent → Vfs → VfsCall → Prop}
    [∀ log v c, Decidable (Ok log v c)] {log₀ : List FsEvent} {v₀ : Vfs} :
    ∀ (cs : List VfsCall) {log : List FsEvent} {v : Vfs}, VfsSteps Ok log₀ v₀ log v →
      VfsSteps Ok log₀ v₀ (runCalls Ok log v cs).1 (runCalls Ok log v cs).2
  | [], _, _, h => h
  | c :: cs, log, v, h => by
      rw [runCalls]
      split
      · next hok =>
          split
          · exact h
          · next r v' hcall => exact runCalls_steps cs (h.call hok.1 hok.2 hcall)
      · exact h

/-! ## A booted system -/

/-- Every allocation succeeds; the buffer of `/etc/motd` comes up full of ones. -/
def fullAllocs : BootAllocs :=
  let a : NodeAlloc := ⟨true, true⟩
  ⟨a, a, a, a, a, some fun _ => 0xFF#8⟩

def fullBoot : Vfs := (ramfsInit (vfsInit vfsStatic) fullAllocs).getD vfsStatic

theorem fullBoot_init : ramfsInit (vfsInit vfsStatic) fullAllocs = some fullBoot := by
  have hsome : (ramfsInit (vfsInit vfsStatic) fullAllocs).isSome = true := by decide +kernel
  obtain ⟨v, hv⟩ := Option.isSome_iff_exists.mp hsome
  rw [fullBoot, hv, Option.getD_some]

theorem booted_fullBoot : Booted fullBoot := ⟨fullAllocs, fullBoot_init⟩

/-- The system after some calls, with its history. -/
def fullRun (Ok : List FsEvent → Vfs → VfsCall → Prop) [∀ log v c, Decidable (Ok log v c)]
    (cs : List VfsCall) : List FsEvent × Vfs :=
  runCalls Ok [.booted fullBoot.fs] fullBoot cs

theorem fullRun_run (Ok : List FsEvent → Vfs → VfsCall → Prop)
    [∀ log v c, Decidable (Ok log v c)] (cs : List VfsCall) :
    VfsRun Ok (fullRun Ok cs).1 (fullRun Ok cs).2 :=
  ⟨fullBoot, booted_fullBoot, runCalls_steps cs .refl⟩

end Matryoshka
