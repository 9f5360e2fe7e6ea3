import Matryoshka.FsTree

/-!
# Files and descriptors

What one call does to sizes, buffers and descriptors. A write overlays its
bytes and leaves the others, whether or not the buffer grows
(`ramfsWrite_cases`); bytes that a grown buffer gains are zero, bytes
between the size and the capacity of an old one are whatever was there
before. `FileEffect` lists everything a call can do, with the event it
leaves in the history.
-/

namespace Matryoshka

open ByteMem

/-! ## Buffers -/

def RamfsFile.mem (f : RamfsFile) : Mem := f.data.getD fun _ => 0#8

/-- The bytes behind a node's payload pointer. -/
def fileMem (s : Ramfs) (n : Nat) : Mem :=
  match (s.nodes n).fsData with
  | some f => f.mem
  | none => fun _ => 0#8

def fileCapacity (s : Ramfs) (n : Nat) : Nat :=
  match (s.nodes n).fsData with
  | some f => f.capacity
  | none => 0

/-- What a reader can see of a file. -/
def fileContent (s : Ramfs) (n : Nat) : List (BitVec 8) :=
  bytesAt (fileMem s n) 0 (s.nodes n).size

/-- A file that has a payload: `ramfs_read` and `ramfs_write` refuse every other
node. -/
def Readable (s : Ramfs) (n : Nat) : Prop :=
  (s.nodes n).isFile = true ∧ (s.nodes n).fsData ≠ none

instance (s : Ramfs) (n : Nat) : Decidable (Readable s n) :=
  decidable_of_iff ((s.nodes n).isFile = true ∧ (s.nodes n).fsData.isSome = true) (by
    rw [Readable, Option.isSome_iff_ne_none])

/-- The size stays within the buffer, and the buffer within the heap. -/
structure NodeOk (node : VfsNode) : Prop where
  empty : node.fsData = none → node.size = 0
  size_le : ∀ f, node.fsData = some f → node.size ≤ f.capacity
  buffer : ∀ f, node.fsData = some f → f.capacity ≠ 0 → f.data ≠ none
  fits : ∀ f, node.fsData = some f → f.capacity ≤ HEAP_INITIAL

def FilesOk (s : Ramfs) : Prop := ∀ n < s.count, NodeOk (s.nodes n)

section Nodes

variable {node node' : VfsNode}

theorem NodeOk.congr (h : NodeOk node) (hsize : node'.size = node.size)
    (hdata : node'.fsData = node.fsData) : NodeOk node' where
  empty hnone := by rw [hsize, h.empty (hdata ▸ hnone)]
  size_le f hf := by rw [hsize]; exact h.size_le f (hdata ▸ hf)
  buffer f hf := h.buffer f (hdata ▸ hf)
  fits f hf := h.fits f (hdata ▸ hf)

theorem NodeOk.truncate (h : NodeOk node) : NodeOk { node with size := 0 } where
  empty _ := rfl
  size_le _ _ := Nat.zero_le _
  buffer := h.buffer
  fits := h.fits

theorem NodeOk.of_new (hsize : node.size = 0)
    (hdata : node.fsData = none ∨ node.fsData = some ⟨none, 0⟩) : NodeOk node := by
  rcases hdata with hdata | hdata
  · exact ⟨fun _ => hsize, by simp [hdata], by simp [hdata], by simp [hdata]⟩
  · exact ⟨fun _ => hsize, by simp [hdata, hsize], by simp [hdata], by simp [hdata]⟩

end Nodes

theorem heapInitial_eq : HEAP_INITIAL = 2 ^ 20 := rfl

theorem Readable.of_some {s : Ramfs} {n : Nat} {f : RamfsFile} (hfile : (s.nodes n).isFile = true)
    (hf : (s.nodes n).fsData = some f) : Readable s n :=
  ⟨hfile, fun hnone => nomatch hf.symm.trans hnone⟩

section Buffers

variable {f f' : RamfsFile} {blk : Option Mem} {needed : Nat}

theorem growCapacity_le : ∀ {fuel cap c : Nat}, growCapacity needed fuel cap = some c → needed ≤ c
  | fuel + 1, cap, c, h => by
      rw [growCapacity] at h
      split at h
      · exact growCapacity_le h
      · cases h
        omega

/-- Doubling gets there, and stops at the first power that is enough. -/
theorem growCapacity_exists (hneed : needed ≤ 2 ^ 31) :
    ∀ {fuel cap : Nat}, needed ≤ cap * 2 ^ fuel →
      ∃ c, growCapacity needed (fuel + 1) cap = some c ∧ (c = cap ∨ c < 2 * needed)
  | fuel, cap, h => by
      rw [growCapacity]
      by_cases hlt : cap < needed
      · cases fuel with
        | zero => omega
        | succ fuel =>
            rw [if_pos hlt, u32_of_lt (by omega)]
            rw [Nat.pow_succ', ← Nat.mul_assoc] at h
            obtain ⟨c, hc, hle⟩ := growCapacity_exists hneed h
            exact ⟨c, hc, Or.inr (by omega)⟩
      · exact ⟨cap, if_neg hlt, Or.inl rfl⟩

/-- A grown buffer holds the old bytes, then zeros. -/
theorem growData_apply (hdata : f.capacity ≠ 0 → f.data ≠ none) (newData : Mem) {newCap i : Nat}
    (hi : i < newCap) :
    growData f newData newCap i = if i < f.capacity then f.mem i else 0#8 := by
  rw [growData]
  by_cases hold : i < f.capacity
  · rw [if_pos hold, fillUp_of_outside (Or.inl hold)]
    cases hd : f.data with
    | none => exact absurd hd (hdata (by omega))
    | some d =>
        simp only [copyUp_apply, RamfsFile.mem, hd, Option.getD_some]
        rw [if_pos (by omega), Nat.zero_add, Nat.sub_zero]
  · rw [if_neg hold, fillUp_inside (by omega) (by omega)]

theorem ensureCapacity_spec (h : ensureCapacity f blk needed = some (true, f'))
    (hdata : f.capacity ≠ 0 → f.data ≠ none) (hfits : f.capacity ≤ HEAP_INITIAL) :
    needed ≤ f'.capacity ∧ f'.capacity ≤ HEAP_INITIAL ∧ (f'.capacity ≠ 0 → f'.data ≠ none)
      ∧ f.capacity ≤ f'.capacity
      ∧ ∀ i < f'.capacity, f'.mem i = if i < f.capacity then f.mem i else 0#8 := by
  rw [ensureCapacity] at h
  split at h
  · next hle =>
      cases h
      exact ⟨hle, hfits, hdata, Nat.le_refl _, fun i hi => (if_pos hi).symm⟩
  · next hlt =>
      split at h
      · cases h
      · next newCap hgrow =>
          have hneed := growCapacity_le hgrow
          rw [kmallocData] at h
          split at h
          · cases h
          · next newData hblk =>
              split at hblk
              · next hnew =>
                  cases h
                  exact ⟨hneed, hnew, fun _ => Option.some_ne_none _,
                    Nat.le_trans (Nat.le_of_not_le hlt) hneed,
                    fun i hi => growData_apply hdata newData hi⟩
              · cases hblk

theorem put_mem (off : Nat) (data : List (BitVec 8)) (hdata : f.data ≠ none) (i : Nat) :
    (f.put off data).mem i =
      if off ≤ i ∧ i < off + data.length then data.getD (i - off) 0#8 else f.mem i := by
  cases hd : f.data with
  | none => exact absurd hd hdata
  | some d =>
      simp only [RamfsFile.put, RamfsFile.mem, hd, Option.map_some, Option.getD_some, copyUp_apply,
        Nat.zero_add]

end Buffers

/-! ## Reads and writes -/

/-- `data` laid over the file `n` at `off`: the new size and bytes. -/
structure Wrote (s s' : Ramfs) (n off : Nat) (data : List (BitVec 8)) : Prop where
  file : (s.nodes n).isFile = true
  end_le : off + data.length ≤ HEAP_INITIAL
  node : ∃ f f', (s.nodes n).fsData = some f ∧ s' = s.setNode n { s.nodes n with
      size := max (s.nodes n).size (off + data.length), fsData := some f' }
    ∧ off + data.length ≤ f'.capacity ∧ f.capacity ≤ f'.capacity
    ∧ f'.capacity ≤ HEAP_INITIAL ∧ (f'.capacity ≠ 0 → f'.data ≠ none)
    ∧ ∀ i < f'.capacity, f'.mem i =
        if off ≤ i ∧ i < off + data.length then data.getD (i - off) 0#8
        else if i < f.capacity then f.mem i else 0#8

section Ops

variable {s s' : Ramfs} {n off : Nat} {data : List (BitVec 8)} {blk : Option Mem} {r : Int}

/-- A write fails and changes nothing, or it writes all its bytes. -/
theorem ramfsWrite_cases (hok : NodeOk (s.nodes n)) (hwrap : off + data.length < 2 ^ 32)
    (hw : ramfsWrite s n off data blk = some (r, s')) :
    (r = -1 ∧ s' = s) ∨ (r = data.length ∧ Wrote s s' n off data) := by
  obtain hfail | ⟨f, f₁, hfile, hf, hcap, rfl, hs'⟩ := ramfsWrite_inv hw
  · exact Or.inl hfail
  · rw [u32_of_lt hwrap] at hcap hs'
    obtain ⟨hend, hfits, hbuf, hgrow, hmem⟩ :=
      ensureCapacity_spec hcap (hok.buffer f hf) (hok.fits f hf)
    have hlen : data.length < 2 ^ 31 := by
      have := heapInitial_eq
      omega
    have hsize : (if (s.nodes n).size < off + data.length then off + data.length
        else (s.nodes n).size) = max (s.nodes n).size (off + data.length) := by
      split <;> omega
    rw [hsize] at hs'
    refine Or.inr ⟨i32_of_lt hlen, hfile, by omega, f, f₁.put off data, hf, hs', hend, hgrow,
      hfits, fun h0 => ?_, fun i hi => ?_⟩
    · simpa [RamfsFile.put] using hbuf h0
    · have hi : i < f₁.capacity := hi
      rw [put_mem off data (hbuf (by omega)), hmem i hi]

theorem Wrote.count (h : Wrote s s' n off data) : s'.count = s.count := by
  obtain ⟨f, f', -, rfl, -⟩ := h.node
  rfl

theorem Wrote.other (h : Wrote s s' n off data) {m : Nat} (hm : m ≠ n) :
    s'.nodes m = s.nodes m := by
  obtain ⟨f, f', -, rfl, -⟩ := h.node
  exact setNode_of_ne hm

theorem Wrote.size (h : Wrote s s' n off data) :
    (s'.nodes n).size = max (s.nodes n).size (off + data.length) := by
  obtain ⟨f, f', -, rfl, -⟩ := h.node
  rw [setNode_self]

theorem Wrote.isFile (h : Wrote s s' n off data) : (s'.nodes n).isFile = true := by
  have hfile := h.file
  obtain ⟨f, f', -, rfl, -⟩ := h.node
  rw [setNode_self]
  exact hfile

/-- Below the new size: the new bytes, the old ones, and zeros past the old buffer. -/
theorem Wrote.mem (h : Wrote s s' n off data) (hok : NodeOk (s.nodes n)) {i : Nat}
    (hi : i < (s'.nodes n).size) :
    fileMem s' n i = if off ≤ i ∧ i < off + data.length then data.getD (i - off) 0#8
      else if i < fileCapacity s n then fileMem s n i else 0#8 := by
  rw [h.size] at hi
  obtain ⟨f, f', hf, rfl, hend, hgrow, -, -, hmem⟩ := h.node
  have hle := hok.size_le f hf
  simp only [fileMem, fileCapacity, setNode_self, hf]
  exact hmem i (by omega)

theorem Wrote.nodeOk (h : Wrote s s' n off data) (hok : NodeOk (s.nodes n)) :
    NodeOk (s'.nodes n) := by
  obtain ⟨f, f', hf, rfl, hend, hgrow, hfits, hbuf, -⟩ := h.node
  have hle := hok.size_le f hf
  rw [setNode_self]
  constructor
  · exact fun hnone => nomatch hnone
  · rintro g ⟨⟩
    dsimp only
    omega
  · rintro g ⟨⟩
    exact hbuf
  · rintro g ⟨⟩
    exact hfits

theorem ramfsRead_refused (h : ¬Readable s n) (size : Nat) (buf : Mem) :
    ramfsRead s n off size buf = (-1, buf) := by
  simp only [ramfsRead]
  split
  · rfl
  · next hfile =>
      cases hf : (s.nodes n).fsData with
      | none => rfl
      | some f => exact absurd (Readable.of_some (by simpa using hfile) hf) h

/-- A read of a file returns the bytes from its offset to its end, at most `size`
of them. -/
theorem ramfsRead_readable (hok : NodeOk (s.nodes n)) (h : Readable s n) (off size : Nat)
    (buf : Mem) :
    (ramfsRead s n off size buf).1 = (min size ((s.nodes n).size - off) : Nat)
      ∧ ∀ j < min size ((s.nodes n).size - off),
        (ramfsRead s n off size buf).2 j = fileMem s n (off + j) := by
  obtain ⟨f, hf⟩ := Option.ne_none_iff_exists'.mp h.2
  have hle := hok.size_le f hf
  have hfits := hok.fits f hf
  simp only [ramfsRead, h.1, hf, Bool.not_true, Bool.false_eq_true, if_false]
  split
  · next hoff =>
      have hzero : min size ((s.nodes n).size - off) = 0 := by omega
      rw [hzero]
      exact ⟨rfl, fun j hj => absurd hj (Nat.not_lt_zero j)⟩
  · next hoff =>
      have hk : (if (s.nodes n).size - off < size then (s.nodes n).size - off else size)
          = min size ((s.nodes n).size - off) := by
        split <;> omega
      rw [hk]
      generalize hk' : min size ((s.nodes n).size - off) = k
      have hsmall : k < 2 ^ 31 := by
        have := heapInitial_eq
        omega
      refine ⟨i32_of_lt hsmall, fun j hj => ?_⟩
      cases hd : f.data with
      | none => exact absurd hd (hok.buffer f hf (by omega))
      | some d =>
          have hmem : fileMem s n = d := by
            simp only [fileMem, hf, RamfsFile.mem, hd, Option.getD_some]
          simp only [copyUp_apply, hmem]
          rw [if_pos (by omega), Nat.sub_zero]

theorem NodeOk.size_le_heap (hok : NodeOk (s.nodes n)) : (s.nodes n).size ≤ HEAP_INITIAL := by
  cases hf : (s.nodes n).fsData with
  | none =>
      rw [hok.empty hf]
      exact Nat.zero_le _
  | some f => exact Nat.le_trans (hok.size_le f hf) (hok.fits f hf)

/-- A read fails, or it returns bytes of the file that lie before its end. -/
theorem ramfsRead_cases (hok : NodeOk (s.nodes n)) (size : Nat) (buf : Mem) :
    (ramfsRead s n off size buf).1 = -1 ∨
      ∃ k : Nat, (ramfsRead s n off size buf).1 = k ∧ (k = 0 ∨ off + k ≤ (s.nodes n).size)
        ∧ (s.nodes n).size ≤ HEAP_INITIAL
        ∧ ∀ j < k, (ramfsRead s n off size buf).2 j = fileMem s n (off + j) := by
  by_cases h : Readable s n
  · obtain ⟨hret, hbytes⟩ := ramfsRead_readable hok h off size buf
    exact Or.inr ⟨_, hret, by omega, hok.size_le_heap, hbytes⟩
  · rw [ramfsRead_refused h]
    exact Or.inl rfl

/-- Every byte of a file can be read. -/
theorem ramfsRead_byte (hok : NodeOk (s.nodes n)) (hfile : (s.nodes n).isFile = true)
    {i : Nat} (hi : i < (s.nodes n).size) (buf : Mem) :
    (ramfsRead s n i 1 buf).1 = 1 ∧ (ramfsRead s n i 1 buf).2 0 = fileMem s n i := by
  have hread : Readable s n := ⟨hfile, fun hnone => by
    rw [hok.empty hnone] at hi
    omega⟩
  obtain ⟨hret, hbytes⟩ := ramfsRead_readable hok hread i 1 buf
  have hone : min 1 ((s.nodes n).size - i) = 1 := by omega
  rw [hone] at hret hbytes
  exact ⟨hret, hbytes 0 Nat.zero_lt_one⟩

end Ops

/-! ## Calls -/

/-- Files keep their size and payload; new nodes are empty. -/
structure SameFiles (s s' : Ramfs) : Prop where
  count_le : s.count ≤ s'.count
  old : ∀ n < s.count, (s'.nodes n).size = (s.nodes n).size
    ∧ (s'.nodes n).fsData = (s.nodes n).fsData
  new : ∀ n, s.count ≤ n → n < s'.count → (s'.nodes n).size = 0
    ∧ ((s'.nodes n).fsData = none ∨ (s'.nodes n).fsData = some ⟨none, 0⟩)

/-- Everything a call can do to files and descriptors, and the event it leaves. -/
inductive FileEffect (v v' : Vfs) : VfsCall → FsEvent → Prop
  | quiet {c : VfsCall} : SameFiles v.fs v'.fs → v'.fdTable = v.fdTable → FileEffect v v' c .other
  | closed {fd : Int} :
      v' = v.setFd fd.toNat { v.fdTable fd.toNat with used := false, node := none } →
      FileEffect v v' (.close fd) .other
  | opened {path : CStr} {flags : BitVec 32} {a : NodeAlloc} {fd n : Nat} {w : Vfs} :
      vfsResolve v path = some n ∨ v.fs.count ≤ n → SameFiles v.fs w.fs → w.fdTable = v.fdTable →
      n < w.fs.count → v' = installFd w fd n flags →
      FileEffect v v' (.openFile path flags a) (.opened fd n flags (w.fs.nodes n).size)
  | got {fd : Int} {buf : Mem} {size k n : Nat} : fdValid v fd = true →
      (v.fdTable fd.toNat).node = some n →
      k = 0 ∨ (v.fdTable fd.toNat).offset + k ≤ HEAP_INITIAL →
      v' = advanceFd v fd.toNat k → FileEffect v v' (.read fd buf size) (.got fd.toNat k)
  | wrote {fd : Int} {data : List (BitVec 8)} {blk : Option Mem} {n : Nat} {fs : Ramfs} :
      fdValid v fd = true → (v.fdTable fd.toNat).node = some n →
      Wrote v.fs fs n (v.fdTable fd.toNat).offset data →
      v' = advanceFd { v with fs := fs } fd.toNat data.length →
      FileEffect v v' (.write fd data blk)
        (.wrote fd.toNat n (v.fdTable fd.toNat).offset data)

section Calls

variable {s s' : Ramfs} {v v' : Vfs} {kids : Nat → List Nat}

theorem SameFiles.refl (s : Ramfs) : SameFiles s s :=
  ⟨Nat.le_refl _, fun _ _ => ⟨rfl, rfl⟩, fun n h1 h2 => by omega⟩

theorem Created.sameFiles {dir : Nat} {name : CStr} {flags : BitVec 32} {file : Option RamfsFile}
    (hc : Created s s' dir name flags file) (hfile : file = none ∨ file = some ⟨none, 0⟩) :
    SameFiles s s' := by
  refine ⟨by rw [hc.count]; omega, fun n hn => ?_, fun n h1 h2 => ?_⟩
  · obtain ⟨q, hq, -⟩ := hc.old hn
    rw [hq]
    exact ⟨rfl, rfl⟩
  · have hn : n = s.count := by
      rw [hc.count] at h2
      omega
    rw [hn, hc.made]
    exact ⟨rfl, hfile⟩

theorem VfsTree.create_files (h : VfsTree v kids) (a : NodeAlloc) (path : CStr)
    (flags : BitVec 32) :
    SameFiles v.fs (vfsCreate v a path flags).2.fs
      ∧ (vfsCreate v a path flags).2.fdTable = v.fdTable
      ∧ ∀ n, (vfsCreate v a path flags).1 = some n →
        n = v.fs.count ∧ n < (vfsCreate v a path flags).2.fs.count := by
  rcases h.create_cases a path flags with hc | ⟨fs, base, rest, dir, hnew⟩
  · rw [hc]
    exact ⟨SameFiles.refl _, rfl, fun n hn => nomatch hn⟩
  · rw [hnew.call]
    refine ⟨hnew.made.sameFiles (newPayload_cases a flags), rfl, fun n hn => ?_⟩
    cases hn
    exact ⟨rfl, by rw [hnew.made.count]; omega⟩

theorem VfsTree.openNode_files (h : VfsTree v kids) (a : NodeAlloc) (path : CStr)
    (flags : BitVec 32) :
    SameFiles v.fs (openNode v a path flags).2.fs
      ∧ (openNode v a path flags).2.fdTable = v.fdTable
      ∧ ∀ n, (openNode v a path flags).1 = some n →
        (vfsResolve v path = some n ∨ v.fs.count ≤ n)
          ∧ n < (openNode v a path flags).2.fs.count := by
  rw [openNode]
  split
  · next node hres =>
      refine ⟨SameFiles.refl _, rfl, fun n hn => ?_⟩
      cases hn
      exact ⟨Or.inl hres, h.resolve_lt hres⟩
  · split
    · obtain ⟨hs, ht, hn⟩ := h.create_files a path VFS_FILE
      exact ⟨hs, ht, fun n hnode => ⟨Or.inr (hn n hnode).1.ge, (hn n hnode).2⟩⟩
    · refine ⟨SameFiles.refl _, rfl, ?_⟩
      intro n hn
      cases hn

theorem setFd_self (v : Vfs) (fd : Nat) (e : FdEntry) : (v.setFd fd e).fdTable fd = e :=
  Function.update_self ..

theorem setFd_of_ne {fd fd' : Nat} {e : FdEntry} (h : fd' ≠ fd) :
    (v.setFd fd e).fdTable fd' = v.fdTable fd' := Function.update_of_ne h ..

/-- Descriptors point to nodes. -/
def FdNodes (v : Vfs) : Prop := ∀ fd n, (v.fdTable fd).node = some n → n < v.fs.count

theorem eventOf_neg {c : VfsCall} {r : Int} (hr : r < 0) : eventOf v c r v' = .other := if_pos hr

theorem installFd_entry (w : Vfs) (fd n : Nat) (flags : BitVec 32) :
    (installFd w fd n flags).fdTable fd = openEntry w.fs n flags := Function.update_self ..

theorem installFd_entry_of_ne {w : Vfs} {fd fd' n : Nat} {flags : BitVec 32} (h : fd' ≠ fd) :
    (installFd w fd n flags).fdTable fd' = w.fdTable fd' := Function.update_of_ne h ..

theorem open_effect (h : VfsTree v kids) {path : CStr} {flags : BitVec 32} {a : NodeAlloc} {r : Int}
    (hcall : vfsOpen v a path flags = (r, v')) :
    FileEffect v v' (.openFile path flags a) (eventOf v (.openFile path flags a) r v') := by
  obtain ⟨hs, ht, hn⟩ := h.openNode_files a path flags
  rcases vfsOpen_cases v a path flags with ho | ⟨n, fd, hnode, -, ho⟩
  · cases ho.symm.trans hcall
    rw [eventOf_neg (by decide)]
    exact .quiet hs ht
  · cases ho.symm.trans hcall
    obtain ⟨hres, hlt⟩ := hn n hnode
    have hev : eventOf v (.openFile path flags a) (fd : Int)
          (installFd (openNode v a path flags).2 fd n flags)
        = .opened fd n flags ((openNode v a path flags).2.fs.nodes n).size := by
      simp only [eventOf, if_neg (show ¬(fd : Int) < 0 by omega), Int.toNat_natCast,
        installFd_entry, openEntry]
    rw [hev]
    exact .opened hres hs ht hlt rfl

theorem read_effect (hok : FilesOk v.fs) (hfd : FdNodes v) {fd : Int} {buf : Mem} {size : Nat} :
    FileEffect v (vfsRead v fd buf size).2.2 (.read fd buf size)
      (eventOf v (.read fd buf size) (vfsRead v fd buf size).1 (vfsRead v fd buf size).2.2) := by
  simp only [vfsRead]
  split
  · next hvalid =>
      split
      · rw [eventOf_neg (by simp)]
        exact .quiet (SameFiles.refl _) rfl
      · next n hnode =>
          rcases ramfsRead_cases (hok n (hfd _ n hnode)) size buf with
            hr | ⟨k, hr, hk, hsz, -⟩
          · rw [hr, eventOf_neg (by decide), advanceFd, if_neg (by decide)]
            exact .quiet (SameFiles.refl _) rfl
          · rw [hr]
            have hev : ∀ w, eventOf v (.read fd buf size) (k : Int) w = .got fd.toNat k := by
              intro w
              simp only [eventOf, if_neg (show ¬(k : Int) < 0 by omega), Int.toNat_natCast]
            rw [hev]
            exact .got hvalid hnode (hk.imp_right fun hle => Nat.le_trans hle hsz) rfl
  · rw [eventOf_neg (by simp)]
    exact .quiet (SameFiles.refl _) rfl

/-- `vfs_write` fails and changes nothing, or it writes and moves its offset. -/
theorem vfsWrite_cases (hok : FilesOk v.fs) (hfd : FdNodes v) {fd : Int} {data : List (BitVec 8)}
    {blk : Option Mem} {r : Int} (hwrap : NoWrap v (.write fd data blk))
    (hcall : vfsWrite v fd data blk = some (r, v')) :
    (r = -1 ∧ v' = v) ∨ ∃ n fs, r = data.length ∧ fdValid v fd = true
      ∧ (v.fdTable fd.toNat).node = some n ∧ Wrote v.fs fs n (v.fdTable fd.toNat).offset data
      ∧ v' = advanceFd { v with fs := fs } fd.toNat data.length := by
  obtain hfail | ⟨n, fs, hvalid, hnode, hw, heq⟩ := vfsWrite_inv hcall
  · exact Or.inl hfail
  · rcases ramfsWrite_cases (hok n (hfd _ n hnode)) (hwrap hvalid) hw with ⟨rfl, rfl⟩ | ⟨rfl, hwr⟩
    · exact Or.inl ⟨rfl, heq.trans (if_neg (by decide))⟩
    · exact Or.inr ⟨n, fs, rfl, hvalid, hnode, hwr, heq⟩

theorem eventOf_write {fd : Int} {data : List (BitVec 8)} {blk : Option Mem} {n : Nat}
    (hnode : (v.fdTable fd.toNat).node = some n) :
    eventOf v (.write fd data blk) data.length v'
      = .wrote fd.toNat n (v.fdTable fd.toNat).offset data := by
  simp only [eventOf, if_neg (show ¬(data.length : Int) < 0 by omega), hnode]

theorem write_effect (hok : FilesOk v.fs) (hfd : FdNodes v) {fd : Int} {data : List (BitVec 8)}
    {blk : Option Mem} {r : Int} (hwrap : NoWrap v (.write fd data blk))
    (hcall : vfsWrite v fd data blk = some (r, v')) :
    FileEffect v v' (.write fd data blk) (eventOf v (.write fd data blk) r v') := by
  rcases vfsWrite_cases hok hfd hwrap hcall with ⟨rfl, rfl⟩ | ⟨n, fs, rfl, hvalid, hnode, hw, heq⟩
  · rw [eventOf_neg (by decide)]
    exact .quiet (SameFiles.refl _) rfl
  · rw [eventOf_write hnode]
    exact .wrote hvalid hnode hw heq

theorem call_effect (h : VfsTree v kids) (hok : FilesOk v.fs) (hfd : FdNodes v) {c : VfsCall}
    {r : Int} (hwrap : NoWrap v c) (hcall : vfsCall v c = some (r, v')) :
    FileEffect v v' c (eventOf v c r v') := by
  cases c with
  | mkdir path a =>
      have hev : eventOf v (.mkdir path a) r v' = .other := ite_self _
      obtain ⟨hs, ht, -⟩ := h.create_files a path VFS_DIRECTORY
      cases hcall
      rw [hev]
      exact .quiet hs ht
  | createFile path a =>
      have hev : eventOf v (.createFile path a) r v' = .other := ite_self _
      obtain ⟨hs, ht, -⟩ := h.create_files a path VFS_FILE
      cases hcall
      rw [hev]
      exact .quiet hs ht
  | openFile path flags a => exact open_effect h (Option.some.inj hcall)
  | close fd =>
      have hev : eventOf v (.close fd) r v' = .other := ite_self _
      rw [hev]
      simp only [vfsCall, vfsClose, Option.some.injEq] at hcall
      split at hcall
      · cases hcall
        exact .closed rfl
      · cases hcall
        exact .quiet (SameFiles.refl _) rfl
  | read fd buf size =>
      cases hcall
      exact read_effect hok hfd
  | write fd data blk => exact write_effect hok hfd hwrap hcall

end Calls

end Matryoshka
