import Matryoshka.FsFile

/-!
# Open files over a run

The history of a run says what a file should hold: `lastWritten` is the
last byte written to a position since the file was last truncated, and
`sizeAtOpen`, `movedSince` say where a descriptor has got to. `FsInv`
holds in every run.

The code keeps neither promise on its own. Truncation leaves the old bytes
in the buffer, and a descriptor that is past the new end brings them back
when it writes; and a descriptor opened for appending keeps the position
it had at the time of the open. `truncated_bytes_stay_gone` and
`append_at_end_iff` say for which writes the promises hold.
-/

namespace Matryoshka

open ByteMem

/-! ## Histories -/

/-- The last byte written at position `i` of file `n` since its last
truncation, zero if there is none. -/
def lastWritten : List FsEvent → Nat → Nat → BitVec 8
  | [], _, _ => 0#8
  | .booted fs :: _, n, i =>
      if n < fs.count ∧ i < (fs.nodes n).size then fileMem fs n i else 0#8
  | .opened _ m flags _ :: log, n, i =>
      if m = n ∧ flags &&& VFS_O_TRUNC ≠ 0#32 then 0#8 else lastWritten log n i
  | .wrote _ m off data :: log, n, i =>
      if m = n ∧ off ≤ i ∧ i < off + data.length then data.getD (i - off) 0#8
      else lastWritten log n i
  | .got .. :: log, n, i => lastWritten log n i
  | .other :: log, n, i => lastWritten log n i

/-- The size of the file when `fd` was opened, before that open truncated it. -/
def sizeAtOpen : List FsEvent → Nat → Nat
  | [], _ => 0
  | .opened fd' _ _ size :: log, fd => if fd' = fd then size else sizeAtOpen log fd
  | _ :: log, fd => sizeAtOpen log fd

/-- The bytes read and written through `fd` since it was opened. -/
def movedSince : List FsEvent → Nat → Nat
  | [], _ => 0
  | .opened fd' .. :: log, fd => if fd' = fd then 0 else movedSince log fd
  | .got fd' k :: log, fd => if fd' = fd then movedSince log fd + k else movedSince log fd
  | .wrote fd' _ _ data :: log, fd =>
      if fd' = fd then movedSince log fd + data.length else movedSince log fd
  | _ :: log, fd => movedSince log fd

/-- What an event wrote to file `n`. -/
def chunkTo (n : Nat) : FsEvent → List (BitVec 8)
  | .wrote _ m _ data => if m = n then data else []
  | _ => []

/-- The bytes written to file `n`, in call order. -/
def chunksTo (n : Nat) : List FsEvent → List (BitVec 8)
  | [] => []
  | e :: log => chunksTo n log ++ chunkTo n e

/-! ## Invariants of every run -/

/-- Nothing counts as written past the end of a file. -/
def NothingBeyond (log : List FsEvent) (v : Vfs) : Prop :=
  ∀ n i, v.fs.count ≤ n ∨ (v.fs.nodes n).size ≤ i → lastWritten log n i = 0#8

/-- An append descriptor is where it was opened, plus what went through it. -/
def AppendOffsets (log : List FsEvent) (v : Vfs) : Prop :=
  ∀ fd, (v.fdTable fd).used = true → (v.fdTable fd).flags &&& VFS_O_APPEND ≠ 0#32 →
    (v.fdTable fd).offset = sizeAtOpen log fd + movedSince log fd

structure FsInv (log : List FsEvent) (v : Vfs) : Prop where
  tree : ∃ kids, VfsTree v kids
  files : FilesOk v.fs
  fds : FdNodes v
  beyond : NothingBeyond log v
  offsets : AppendOffsets log v

section Effects

variable {v v' w : Vfs} {s s' : Ramfs} {c : VfsCall} {e : FsEvent} {log : List FsEvent}
  {fd n k : Nat} {flags : BitVec 32}

/-! ### State after an open and after moving an offset -/

theorem installFd_count (w : Vfs) (fd n : Nat) (flags : BitVec 32) :
    (installFd w fd n flags).fs.count = w.fs.count := by
  simp only [installFd]
  split <;> rfl

/-- A truncating open sets the size of its own file to zero; nothing else changes. -/
theorem installFd_node (w : Vfs) (fd n : Nat) (flags : BitVec 32) (m : Nat) :
    (installFd w fd n flags).fs.nodes m =
      if n = m ∧ flags &&& VFS_O_TRUNC ≠ 0#32 then { w.fs.nodes m with size := 0 }
      else w.fs.nodes m := by
  by_cases ht : flags &&& VFS_O_TRUNC ≠ 0#32
  · have hfs : (installFd w fd n flags).fs = w.fs.setNode n { w.fs.nodes n with size := 0 } :=
      if_pos ht
    rw [hfs]
    by_cases hm : n = m
    · rw [if_pos ⟨hm, ht⟩, ← hm, setNode_self]
    · rw [if_neg fun h => hm h.1, setNode_of_ne (Ne.symm hm)]
  · have hfs : (installFd w fd n flags).fs = w.fs := if_neg ht
    rw [hfs, if_neg fun h => ht h.2]

theorem advanceFd_fs (v : Vfs) (fd : Nat) (k : Int) : (advanceFd v fd k).fs = v.fs :=
  (advanceFd_same v fd k).1

/-- Moving an offset by `k` changes that offset only. -/
theorem advanceFd_entry (v : Vfs) {fd k : Nat}
    (hk : k = 0 ∨ (v.fdTable fd).offset + k < 2 ^ 32) (fd' : Nat) :
    (advanceFd v fd k).fdTable fd' = { v.fdTable fd' with
      offset := if fd = fd' then (v.fdTable fd').offset + k else (v.fdTable fd').offset } := by
  rw [advanceFd]
  by_cases hfd : fd = fd'
  · subst hfd
    rw [if_pos rfl]
    split
    · rw [setFd_self, Int.toNat_natCast, u32_of_lt (hk.resolve_left (by omega))]
    · rw [show k = 0 by omega, Nat.add_zero]
  · rw [if_neg hfd]
    split
    · rw [setFd_of_ne (Ne.symm hfd)]
    · rfl

theorem heap_lt {x : Nat} (h : x ≤ HEAP_INITIAL) : x < 2 ^ 32 :=
  Nat.lt_of_le_of_lt h (by decide)

/-! ### One call -/

theorem SameFiles.filesOk (hs : SameFiles s s') (h : FilesOk s) : FilesOk s' := by
  intro n hn
  by_cases hold : n < s.count
  · exact (h n hold).congr (hs.old n hold).1 (hs.old n hold).2
  · obtain ⟨hsize, hdata⟩ := hs.new n (by omega) hn
    exact NodeOk.of_new hsize hdata

theorem Wrote.filesOk {off : Nat} {data : List (BitVec 8)} (hw : Wrote s s' n off data)
    (h : FilesOk s) : FilesOk s' := by
  intro m hm
  rw [hw.count] at hm
  by_cases hmn : m = n
  · subst hmn
    exact hw.nodeOk (h m hm)
  · rw [hw.other hmn]
    exact h m hm

theorem FileEffect.filesOk (he : FileEffect v v' c e) (h : FilesOk v.fs) : FilesOk v'.fs := by
  cases he with
  | quiet hs _ => exact hs.filesOk h
  | closed heq => exact heq ▸ h
  | @opened _ flags _ fd n w _ hs _ hn heq =>
      subst heq
      intro m hm
      rw [installFd_count] at hm
      rw [installFd_node]
      have hok := hs.filesOk h m hm
      split
      · exact hok.truncate
      · exact hok
  | got _ _ _ heq =>
      subst heq
      rw [advanceFd_fs]
      exact h
  | wrote _ _ hw heq =>
      subst heq
      rw [advanceFd_fs]
      exact hw.filesOk h

theorem FileEffect.count_le (he : FileEffect v v' c e) : v.fs.count ≤ v'.fs.count := by
  cases he with
  | quiet hs _ => exact hs.count_le
  | closed heq => exact heq ▸ Nat.le_refl _
  | opened _ hs _ _ heq =>
      rw [heq, installFd_count]
      exact hs.count_le
  | got _ _ _ heq =>
      rw [heq, advanceFd_fs]
  | wrote _ _ hw heq =>
      rw [heq, advanceFd_fs]
      exact hw.count.ge

theorem FileEffect.fdNodes (he : FileEffect v v' c e) (h : FdNodes v) : FdNodes v' := by
  have hle := he.count_le
  intro fd m hm
  cases he with
  | quiet _ ht =>
      rw [ht] at hm
      have := h fd m hm
      omega
  | @closed fd' heq =>
      subst heq
      by_cases hfd : fd = fd'.toNat
      · rw [hfd, setFd_self] at hm
        cases hm
      · rw [setFd_of_ne hfd] at hm
        exact h fd m hm
  | @opened _ flags _ fd' n w _ hs ht hn heq =>
      subst heq
      by_cases hfd : fd = fd'
      · rw [hfd, installFd_entry] at hm
        cases hm
        rwa [installFd_count]
      · rw [installFd_entry_of_ne hfd, ht] at hm
        have := h fd m hm
        omega
  | got _ _ hk heq =>
      rw [heq, advanceFd_entry v (hk.imp_right heap_lt)] at hm
      have := h fd m hm
      omega
  | @wrote _ _ _ _ fs _ _ hw heq =>
      rw [heq, advanceFd_entry { v with fs := fs } (Or.inr (heap_lt hw.end_le))] at hm
      have := h fd m hm
      omega

theorem SameFiles.beyond (hs : SameFiles v.fs s') (h : NothingBeyond log v) {m i : Nat}
    (hm : s'.count ≤ m ∨ (s'.nodes m).size ≤ i) : lastWritten log m i = 0#8 := by
  have hle := hs.count_le
  by_cases hold : m < v.fs.count
  · rw [(hs.old m hold).1] at hm
    exact h m i (hm.imp_left fun hcount => by omega)
  · exact h m i (Or.inl (by omega))

theorem FileEffect.beyond (he : FileEffect v v' c e) (hfd : FdNodes v)
    (h : NothingBeyond log v) : NothingBeyond (e :: log) v' := by
  intro m i hm
  cases he with
  | quiet hs _ => exact hs.beyond h hm
  | closed heq => exact h m i (by rwa [heq] at hm)
  | @opened _ flags _ fd n w _ hs _ _ heq =>
      rw [lastWritten]
      split
      · rfl
      · next hno =>
          rw [heq, installFd_count, installFd_node, if_neg hno] at hm
          exact hs.beyond h hm
  | got _ _ _ heq =>
      rw [heq, advanceFd_fs] at hm
      exact h m i hm
  | @wrote fd data blk n fs _ hnode hw heq =>
      rw [heq, advanceFd_fs] at hm
      have hm : fs.count ≤ m ∨ (fs.nodes m).size ≤ i := hm
      rw [hw.count] at hm
      by_cases hmn : m = n
      · subst hmn
        have hlt := hfd _ m hnode
        rw [hw.size] at hm
        rw [lastWritten, if_neg (by omega)]
        exact h m i (by omega)
      · rw [hw.other hmn] at hm
        rw [lastWritten, if_neg fun hin => hmn hin.1.symm]
        exact h m i hm

theorem FileEffect.offsets (he : FileEffect v v' c e) (h : AppendOffsets log v) :
    AppendOffsets (e :: log) v' := by
  intro fd hused hflags
  cases he with
  | quiet _ ht =>
      rw [ht] at hused hflags ⊢
      exact h fd hused hflags
  | @closed fd' heq =>
      by_cases hfd : fd = fd'.toNat
      · rw [heq, hfd, setFd_self] at hused
        cases hused
      · rw [heq, setFd_of_ne hfd] at hused hflags ⊢
        exact h fd hused hflags
  | @opened _ flags _ fd' n w _ hs ht _ heq =>
      by_cases hfd : fd' = fd
      · subst hfd
        rw [heq, installFd_entry] at hflags ⊢
        rw [sizeAtOpen, if_pos rfl, movedSince, if_pos rfl]
        exact if_pos hflags
      · rw [heq, installFd_entry_of_ne (Ne.symm hfd), ht] at hused hflags ⊢
        rw [sizeAtOpen, if_neg hfd, movedSince, if_neg hfd]
        exact h fd hused hflags
  | @got fd' _ _ k _ _ _ hk heq =>
      rw [heq, advanceFd_entry v (hk.imp_right heap_lt)] at hused hflags ⊢
      have := h fd hused hflags
      simp only [sizeAtOpen, movedSince]
      split <;> omega
  | @wrote fd' data _ _ fs _ _ hw heq =>
      rw [heq, advanceFd_entry { v with fs := fs } (Or.inr (heap_lt hw.end_le))] at hused hflags ⊢
      have := h fd hused hflags
      simp only [sizeAtOpen, movedSince]
      split <;> omega

end Effects

/-! ### Whole runs -/

section Runs

variable {v v' : Vfs} {c : VfsCall} {r : Int} {log log₀ : List FsEvent} {v₀ : Vfs}
  {Ok : List FsEvent → Vfs → VfsCall → Prop}

theorem FsInv.effect (h : FsInv log v) (hwrap : NoWrap v c) (hcall : vfsCall v c = some (r, v')) :
    FileEffect v v' c (eventOf v c r v') := by
  obtain ⟨kids, ht⟩ := h.tree
  exact call_effect ht h.files h.fds hwrap hcall

theorem FsInv.call (h : FsInv log v) (hwrap : NoWrap v c) (hcall : vfsCall v c = some (r, v')) :
    FsInv (eventOf v c r v' :: log) v' := by
  have he := h.effect hwrap hcall
  obtain ⟨kids, ht⟩ := h.tree
  exact ⟨ht.call hcall, he.filesOk h.files, he.fdNodes h.fds, he.beyond h.fds h.beyond,
    he.offsets h.offsets⟩

theorem filesOk_bootRule : BootRule FilesOk where
  static n hn := absurd hn (Nat.not_lt_zero n)
  root {b s} hs n hn := by
    rw [allocNode] at hs
    split at hs
    · cases hs
      rw [Nat.lt_one_iff.mp hn]
      exact NodeOk.of_new rfl (Or.inl rfl)
    · cases hs
  create hc hfile h := (hc.sameFiles hfile).filesOk h
  write {s s' n blk r} hn hw h := by
    rcases ramfsWrite_cases (h n hn) (by decide) hw with ⟨-, rfl⟩ | ⟨-, hwr⟩
    · exact h
    · exact hwr.filesOk h

theorem fsInv_booted (hb : Booted v) : FsInv [.booted v.fs] v := by
  obtain ⟨ht, hfiles, htab⟩ := filesOk_bootRule.booted hb
  refine ⟨ht, hfiles, fun fd n hn => ?_, fun n i hn => ?_, fun fd hused => ?_⟩
  · rw [htab] at hn
    cases hn
  · exact if_neg (by omega)
  · rw [htab] at hused
    cases hused

theorem fsInv_steps (h₀ : FsInv log₀ v₀) (hs : VfsSteps Ok log₀ v₀ log v) : FsInv log v := by
  induction hs with
  | refl => exact h₀
  | call _ _ hwrap hcall ih => exact ih.call hwrap hcall

theorem fsInv_run (h : VfsRun Ok log v) : FsInv log v := by
  obtain ⟨v₀, hb, hs⟩ := h
  exact fsInv_steps (fsInv_booted hb) hs

end Runs

/-! ## Truncated bytes -/

/-- Every file holds what was written to it since its last truncation. -/
def Written (log : List FsEvent) (v : Vfs) : Prop :=
  ∀ n < v.fs.count, ∀ i < (v.fs.nodes n).size, fileMem v.fs n i = lastWritten log n i

/-- Between the end of file `n` and the offset of `fd`, the buffer is zero. -/
def CleanGap (v : Vfs) (fd n : Nat) : Prop :=
  ∀ i < (v.fdTable fd).offset, (v.fs.nodes n).size ≤ i → i < fileCapacity v.fs n →
    fileMem v.fs n i = 0#8

instance (v : Vfs) (fd n : Nat) : Decidable (CleanGap v fd n) :=
  inferInstanceAs (Decidable (∀ i < (v.fdTable fd).offset, _ → _ → _))

/-- No write uncovers bytes from before a truncation. -/
def GapClean (v : Vfs) : VfsCall → Prop
  | .write fd _ _ =>
      fdValid v fd = true → ∀ n ∈ (v.fdTable fd.toNat).node, CleanGap v fd.toNat n
  | _ => True

instance (v : Vfs) : ∀ c, Decidable (GapClean v c)
  | .write fd _ _ =>
      inferInstanceAs (Decidable (fdValid v fd = true →
        ∀ n ∈ (v.fdTable fd.toNat).node, CleanGap v fd.toNat n))
  | .mkdir .. | .createFile .. | .openFile .. | .close _ | .read .. =>
      inferInstanceAs (Decidable True)

/-- What a read of any file returns, wherever it starts, was written there since
the last truncation. -/
def ReadsBack (log : List FsEvent) (v : Vfs) : Prop :=
  ∀ n < v.fs.count, ∀ off size buf, ∀ k : Nat, (k : Int) < (ramfsRead v.fs n off size buf).1 →
    (ramfsRead v.fs n off size buf).2 k = lastWritten log n (off + k)

section Truncation

variable {v v' : Vfs} {s s' : Ramfs} {c : VfsCall} {e : FsEvent} {log : List FsEvent} {n : Nat}

theorem fileMem_congr (h : (s'.nodes n).fsData = (s.nodes n).fsData) :
    fileMem s' n = fileMem s n := by
  rw [fileMem, h, fileMem]

theorem SameFiles.written (hs : SameFiles v.fs s') (h : Written log v) {m i : Nat}
    (hm : m < s'.count) (hi : i < (s'.nodes m).size) :
    fileMem s' m i = lastWritten log m i := by
  by_cases hold : m < v.fs.count
  · rw [(hs.old m hold).1] at hi
    rw [fileMem_congr (hs.old m hold).2]
    exact h m hold i hi
  · rw [(hs.new m (by omega) hm).1] at hi
    omega

theorem NodeOk.lt_capacity (hok : NodeOk (s.nodes n)) {i : Nat} (hi : i < (s.nodes n).size) :
    i < fileCapacity s n := by
  cases hf : (s.nodes n).fsData with
  | none =>
      rw [hok.empty hf] at hi
      omega
  | some f =>
      have := hok.size_le f hf
      simp only [fileCapacity, hf]
      omega

/-- A write over a clean gap keeps the promise. -/
theorem Wrote.written {fd : Nat} {data : List (BitVec 8)}
    (hw : Wrote v.fs s' n (v.fdTable fd).offset data) (hok : NodeOk (v.fs.nodes n))
    (hn : n < v.fs.count) (hb : NothingBeyond log v) (h : Written log v)
    (hgap : CleanGap v fd n) {i : Nat} (hi : i < (s'.nodes n).size) :
    fileMem s' n i = lastWritten (.wrote fd n (v.fdTable fd).offset data :: log) n i := by
  rw [hw.mem hok hi]
  rw [hw.size] at hi
  by_cases hin : (v.fdTable fd).offset ≤ i ∧ i < (v.fdTable fd).offset + data.length
  · rw [if_pos hin, lastWritten, if_pos ⟨rfl, hin⟩]
  · have hlast : lastWritten (.wrote fd n (v.fdTable fd).offset data :: log) n i
        = lastWritten log n i := if_neg fun hin' => hin hin'.2
    rw [if_neg hin, hlast]
    by_cases hlt : i < (v.fs.nodes n).size
    · rw [if_pos (hok.lt_capacity hlt)]
      exact h n hn i hlt
    · rw [hb n i (Or.inr (by omega))]
      split
      · next hi' => exact hgap i (by omega) (by omega) hi'
      · rfl

theorem FileEffect.written (he : FileEffect v v' c e) (hgap : GapClean v c) (hinv : FsInv log v)
    (h : Written log v) : Written (e :: log) v' := by
  intro m hm i hi
  cases he with
  | quiet hs _ => exact hs.written h hm hi
  | closed heq =>
      subst heq
      exact h m hm i hi
  | @opened _ flags _ fd n w _ hs _ _ heq =>
      rw [heq, installFd_count] at hm
      rw [heq, installFd_node] at hi
      rw [lastWritten]
      split
      · next ht =>
          rw [if_pos ht] at hi
          exact absurd hi (Nat.not_lt_zero i)
      · next ht =>
          rw [if_neg ht] at hi
          have hsame : fileMem v'.fs m = fileMem w.fs m :=
            fileMem_congr (by rw [heq, installFd_node, if_neg ht])
          rw [hsame]
          exact hs.written h hm hi
  | got _ _ _ heq =>
      rw [heq, advanceFd_fs] at hm hi ⊢
      exact h m hm i hi
  | @wrote fd data blk n fs hvalid hnode hw heq =>
      rw [heq, advanceFd_fs] at hm hi ⊢
      have hm : m < v.fs.count := hw.count ▸ hm
      by_cases hmn : m = n
      · subst hmn
        exact hw.written (hinv.files m hm) hm hinv.beyond h (hgap hvalid m hnode) hi
      · have hnode' := hw.other hmn
        have hi : i < (fs.nodes m).size := hi
        rw [hnode'] at hi
        rw [lastWritten, if_neg fun hin => hmn hin.1.symm]
        exact (congrFun (fileMem_congr (by rw [hnode'])) i).trans (h m hm i hi)

theorem written_booted (v : Vfs) : Written [.booted v.fs] v :=
  fun _ hn _ hi => (if_pos ⟨hn, hi⟩).symm

theorem written_run (h : VfsRun (fun _ v c => GapClean v c) log v) : Written log v := by
  obtain ⟨v₀, hb, hs⟩ := h
  suffices h : FsInv log v ∧ Written log v from h.2
  induction hs with
  | refl => exact ⟨fsInv_booted hb, written_booted v₀⟩
  | call _ hgap hwrap hcall ih =>
      exact ⟨ih.1.call hwrap hcall, (ih.1.effect hwrap hcall).written hgap ih.1 ih.2⟩

theorem Written.readsBack (h : Written log v) (hok : FilesOk v.fs) : ReadsBack log v := by
  intro n hn off size buf k hk
  rcases ramfsRead_cases (hok n hn) size buf with hr | ⟨j, hr, hj, -, hmem⟩
  · rw [hr] at hk
    omega
  · rw [hr] at hk
    rw [hmem k (by omega)]
    exact h n hn (off + k) (by omega)

/-- A write that uncovers an old byte makes the next read return it. -/
theorem Wrote.cleanGap {fd : Nat} {data : List (BitVec 8)}
    (hw : Wrote v.fs v'.fs n (v.fdTable fd).offset data) (hok : FilesOk v.fs)
    (hn : n < v.fs.count) (hb : NothingBeyond log v)
    (h : ReadsBack (.wrote fd n (v.fdTable fd).offset data :: log) v') : CleanGap v fd n := by
  intro i hi hsize hcap
  have hsize' : i < (v'.fs.nodes n).size := by
    rw [hw.size]
    omega
  have hin : ¬((v.fdTable fd).offset ≤ i ∧ i < (v.fdTable fd).offset + data.length) := by omega
  obtain ⟨hret, hbyte⟩ := ramfsRead_byte (hw.filesOk hok n (hw.count ▸ hn)) hw.isFile hsize'
    fun _ => 0#8
  have hread := h n (hw.count ▸ hn) i 1 (fun _ => 0#8) 0 (by rw [hret]; decide)
  rw [hbyte, hw.mem (hok n hn) hsize', if_neg hin, if_pos hcap, lastWritten,
    if_neg fun hin' => hin hin'.2, Nat.add_zero, hb n i (Or.inr hsize)] at hread
  exact hread

/-- In every run whose writes find only zeros between the end of the file and
their offset, `vfs_read` returns what was last written since the last truncation;
a successful write without that condition breaks it. -/
theorem truncated_bytes_stay_gone (h : VfsRun (fun _ v c => GapClean v c) log v) :
    (∀ fd buf size n, (v.fdTable fd.toNat).node = some n → ∀ k : Nat,
        (k : Int) < (vfsRead v fd buf size).1 →
          (vfsRead v fd buf size).2.1 k = lastWritten log n ((v.fdTable fd.toNat).offset + k))
      ∧ ∀ fd data blk r v', NoWrap v (.write fd data blk) →
          vfsWrite v fd data blk = some (r, v') → 0 ≤ r →
          (ReadsBack (eventOf v (.write fd data blk) r v' :: log) v' ↔
            GapClean v (.write fd data blk)) := by
  have hinv := fsInv_run h
  have hwritten := written_run h
  refine ⟨fun fd buf size n hnode k hk => ?_, fun fd data blk r v' hwrap hcall hr => ?_⟩
  · have hback := hwritten.readsBack hinv.files n (hinv.fds _ n hnode)
      (v.fdTable fd.toNat).offset size buf k
    simp only [vfsRead, hnode] at hk ⊢
    split at hk
    · next hvalid =>
        rw [if_pos hvalid]
        exact hback hk
    · omega
  · constructor
    · intro hback
      rcases vfsWrite_cases hinv.files hinv.fds hwrap hcall with
        ⟨rfl, -⟩ | ⟨n, fs, rfl, -, hnode, hw, rfl⟩
      · omega
      · rw [eventOf_write hnode] at hback
        intro _ m hm
        cases hnode.symm.trans hm
        exact Wrote.cleanGap (by rwa [advanceFd_fs]) hinv.files (hinv.fds _ n hnode) hinv.beyond
          hback
    · intro hgap
      have he := hinv.effect (c := .write fd data blk) hwrap hcall
      have hinv' := hinv.call (c := .write fd data blk) hwrap hcall
      exact (he.written hgap hinv hwritten).readsBack hinv'.files

end Truncation

/-- `/f`, opened twice: three bytes written, truncated through the second
descriptor, one more byte written through the first. -/
def staleCalls : List VfsCall :=
  [.openFile (slash :: ascii ['f']) VFS_O_CREAT ⟨true, true⟩,
    .write 0 [1#8, 2#8, 3#8] (some fun _ => 0xFF#8),
    .openFile (slash :: ascii ['f']) VFS_O_TRUNC ⟨true, true⟩,
    .write 0 [4#8] none]

/-- The second descriptor reads the first byte back. -/
theorem stale_write_uncovers_bytes :
    VfsRun (fun _ _ _ => True) (fullRun (fun _ _ _ => True) staleCalls).1
        (fullRun (fun _ _ _ => True) staleCalls).2
      ∧ ((fullRun (fun _ _ _ => True) staleCalls).2.fdTable 1).node = some 5
      ∧ ((fullRun (fun _ _ _ => True) staleCalls).2.fdTable 1).offset = 0
      ∧ (vfsRead (fullRun (fun _ _ _ => True) staleCalls).2 1 (fun _ => 0#8) 1).1 = 1
      ∧ (vfsRead (fullRun (fun _ _ _ => True) staleCalls).2 1 (fun _ => 0#8) 1).2.1 0 = 1#8
      ∧ lastWritten (fullRun (fun _ _ _ => True) staleCalls).1 5 0 = 0#8 :=
  ⟨fullRun_run _ _, by decide +kernel, by decide +kernel, by decide +kernel, by decide +kernel,
    by decide +kernel⟩

/-- The same with the last write through the second descriptor, and a third one
to read. -/
def freshCalls : List VfsCall :=
  [.openFile (slash :: ascii ['f']) VFS_O_CREAT ⟨true, true⟩,
    .write 0 [1#8, 2#8, 3#8] (some fun _ => 0xFF#8),
    .openFile (slash :: ascii ['f']) VFS_O_TRUNC ⟨true, true⟩,
    .write 1 [4#8] none,
    .openFile (slash :: ascii ['f']) 0#32 ⟨true, true⟩]

theorem truncated_bytes_stay_gone_fresh :
    (vfsRead (fullRun (fun _ v c => GapClean v c) freshCalls).2 2 (fun _ => 0#8) 9).1 = 1
      ∧ (vfsRead (fullRun (fun _ v c => GapClean v c) freshCalls).2 2 (fun _ => 0#8) 9).2.1 0
        = 4#8 :=
  ⟨by decide +kernel,
    ((truncated_bytes_stay_gone (fullRun_run _ freshCalls)).1 2 _ _ 5 (by decide +kernel) 0
      (by decide +kernel)).trans (by decide +kernel)⟩

/-! ## Appends -/

/-- The file is as long as when `fd` was opened, plus what went through `fd`: its
size has not been changed by anyone else, nor by the truncation of that open. -/
def Undisturbed (log : List FsEvent) (v : Vfs) (fd n : Nat) : Prop :=
  (v.fs.nodes n).size = sizeAtOpen log fd + movedSince log fd

instance (log : List FsEvent) (v : Vfs) (fd n : Nat) : Decidable (Undisturbed log v fd n) :=
  inferInstanceAs (Decidable (_ = _))

/-- File `n` is written through undisturbed append descriptors only, and is not
truncated. -/
def OnlyAppends (n : Nat) (log : List FsEvent) (v : Vfs) : VfsCall → Prop
  | .write fd _ _ => fdValid v fd = true → (v.fdTable fd.toNat).node = some n →
      (v.fdTable fd.toNat).flags &&& VFS_O_APPEND ≠ 0#32 ∧ Undisturbed log v fd.toNat n
  | .openFile path flags _ => vfsResolve v path = some n → flags &&& VFS_O_TRUNC = 0#32
  | _ => True

section Appends

variable {v v' : Vfs} {s s' : Ramfs} {c : VfsCall} {e : FsEvent} {log : List FsEvent}
  {n off : Nat} {data : List (BitVec 8)}

theorem fdValid_used {fd : Int} (h : fdValid v fd = true) : (v.fdTable fd.toNat).used = true := by
  simp only [fdValid, Bool.and_eq_true] at h
  exact h.2

theorem fileContent_length (s : Ramfs) (n : Nat) :
    (fileContent s n).length = (s.nodes n).size := bytesAt_length ..

theorem fileContent_congr (hsize : (s'.nodes n).size = (s.nodes n).size)
    (hdata : (s'.nodes n).fsData = (s.nodes n).fsData) : fileContent s' n = fileContent s n := by
  rw [fileContent, fileMem_congr hdata, hsize, fileContent]

/-- A write at the end of the file appends. -/
theorem Wrote.append (hw : Wrote s s' n off data) (hok : NodeOk (s.nodes n))
    (hoff : off = (s.nodes n).size) : fileContent s' n = fileContent s n ++ data := by
  subst hoff
  have hsize : (s'.nodes n).size = (s.nodes n).size + data.length := by
    rw [hw.size]
    omega
  have hold : bytesAt (fileMem s' n) 0 (s.nodes n).size
      = bytesAt (fileMem s n) 0 (s.nodes n).size := by
    refine bytesAt_congr fun i hi => ?_
    rw [Nat.zero_add, hw.mem hok (by omega), if_neg (by omega), if_pos (hok.lt_capacity hi)]
  have hnew : bytesAt (fileMem s' n) (0 + (s.nodes n).size) data.length = data := by
    refine bytesAt_eq fun i hi => ?_
    rw [Nat.zero_add, hw.mem hok (by omega), if_pos (by omega), Nat.add_sub_cancel_left]
  rw [fileContent, hsize, bytesAt_add, hold, hnew, fileContent]

/-- A non-empty write appends only at the end of the file. -/
theorem Wrote.append_iff (hw : Wrote s s' n off data) (hok : NodeOk (s.nodes n))
    (hne : data ≠ []) :
    fileContent s' n = fileContent s n ++ data ↔ (s.nodes n).size = off := by
  constructor
  · intro heq
    have hlen := congrArg List.length heq
    have hpos : 0 < data.length := List.length_pos_iff.mpr hne
    rw [List.length_append, fileContent_length, fileContent_length, hw.size] at hlen
    omega
  · exact fun heq => hw.append hok heq.symm

/-- Every call extends the file by what it wrote to it. -/
theorem FileEffect.appends (he : FileEffect v v' c e) (hok : OnlyAppends n log v c)
    (hinv : FsInv log v) (hn : n < v.fs.count) :
    fileContent v'.fs n = fileContent v.fs n ++ chunkTo n e := by
  cases he with
  | quiet hs _ =>
      refine Eq.trans ?_ (List.append_nil _).symm
      exact fileContent_congr (hs.old n hn).1 (hs.old n hn).2
  | closed heq =>
      rw [heq]
      exact (List.append_nil _).symm
  | @opened path flags _ fd m w hres hs _ _ heq =>
      have hno : ¬(m = n ∧ flags &&& VFS_O_TRUNC ≠ 0#32) := by
        rintro ⟨rfl, ht⟩
        exact ht (hok (hres.resolve_right (by omega)))
      have hnode : v'.fs.nodes n = w.fs.nodes n := by rw [heq, installFd_node, if_neg hno]
      refine Eq.trans ?_ (List.append_nil _).symm
      exact fileContent_congr (by rw [hnode, (hs.old n hn).1]) (by rw [hnode, (hs.old n hn).2])
  | got _ _ _ heq =>
      rw [heq, advanceFd_fs]
      exact (List.append_nil _).symm
  | @wrote fd data blk m fs hvalid hnode hw heq =>
      rw [heq, advanceFd_fs, chunkTo]
      by_cases hmn : m = n
      · subst hmn
        obtain ⟨hflags, hsize⟩ := hok hvalid hnode
        rw [if_pos rfl]
        exact hw.append (hinv.files m hn)
          ((hinv.offsets _ (fdValid_used hvalid) hflags).trans hsize.symm)
      · rw [if_neg hmn, List.append_nil]
        have hsame := hw.other (Ne.symm hmn)
        exact fileContent_congr (by rw [hsame]) (by rw [hsame])

theorem appends_steps {log' : List FsEvent} (hinv : FsInv log v) (hn : n < v.fs.count)
    (hs : VfsSteps (OnlyAppends n) log v log' v') :
    ∃ new, log' = new ++ log ∧ fileContent v'.fs n = fileContent v.fs n ++ chunksTo n new := by
  suffices h : n < v'.fs.count ∧ ∃ new, log' = new ++ log
      ∧ fileContent v'.fs n = fileContent v.fs n ++ chunksTo n new from h.2
  induction hs with
  | refl => exact ⟨hn, [], rfl, (List.append_nil _).symm⟩
  | @call log₁ v₁ c r v₂ hs hok hwrap hcall ih =>
      obtain ⟨hn₁, new, rfl, hcontent⟩ := ih
      have hinv₁ := fsInv_steps hinv hs
      have he := hinv₁.effect hwrap hcall
      refine ⟨Nat.lt_of_lt_of_le hn₁ he.count_le, _ :: new, rfl, ?_⟩
      rw [he.appends hok hinv₁ hn₁, hcontent, chunksTo, List.append_assoc]

/-- A non-empty write through an append descriptor lands at the end of the file
exactly if nobody else has changed the size of the file; as long as that holds and
nothing truncates the file, it grows by the chunks in call order. -/
theorem append_at_end_iff (h : VfsRun (fun _ _ _ => True) log v) :
    (∀ fd data blk r v' n, (v.fdTable fd.toNat).node = some n →
        (v.fdTable fd.toNat).flags &&& VFS_O_APPEND ≠ 0#32 → data ≠ [] →
        NoWrap v (.write fd data blk) → vfsWrite v fd data blk = some (r, v') → 0 ≤ r →
        (fileContent v'.fs n = fileContent v.fs n ++ data ↔ Undisturbed log v fd.toNat n))
      ∧ ∀ n < v.fs.count, ∀ log' v', VfsSteps (OnlyAppends n) log v log' v' →
          ∃ new, log' = new ++ log
            ∧ fileContent v'.fs n = fileContent v.fs n ++ chunksTo n new := by
  have hinv := fsInv_run h
  refine ⟨fun fd data blk r v' n hnode hflags hne hwrap hcall hr => ?_,
    fun n hn log' v' hs => appends_steps hinv hn hs⟩
  rcases vfsWrite_cases hinv.files hinv.fds hwrap hcall with
    ⟨rfl, -⟩ | ⟨m, fs, rfl, hvalid, hnode', hw, rfl⟩
  · omega
  · cases hnode.symm.trans hnode'
    rw [advanceFd_fs, Undisturbed, ← hinv.offsets _ (fdValid_used hvalid) hflags]
    exact hw.append_iff (hinv.files n (hinv.fds _ n hnode)) hne

end Appends

/-- Two append descriptors for `/f`, and a byte written through the first. -/
def twoAppenders : List VfsCall :=
  [.openFile (slash :: ascii ['f']) (VFS_O_CREAT ||| VFS_O_APPEND) ⟨true, true⟩,
    .openFile (slash :: ascii ['f']) VFS_O_APPEND ⟨true, true⟩,
    .write 0 [1#8] (some fun _ => 0xFF#8)]

/-- The second appender overwrites what the first one wrote. -/
theorem second_append_overwrites :
    VfsRun (fun _ _ _ => True) (fullRun (fun _ _ _ => True) twoAppenders).1
        (fullRun (fun _ _ _ => True) twoAppenders).2
      ∧ ((fullRun (fun _ _ _ => True) twoAppenders).2.fdTable 1).node = some 5
      ∧ ((fullRun (fun _ _ _ => True) twoAppenders).2.fdTable 1).flags = VFS_O_APPEND
      ∧ fileContent (fullRun (fun _ _ _ => True) twoAppenders).2.fs 5 = [1#8]
      ∧ (vfsWrite (fullRun (fun _ _ _ => True) twoAppenders).2 1 [2#8] none).map
          (fun r => (r.1, fileContent r.2.fs 5)) = some (1, [2#8]) :=
  ⟨fullRun_run _ _, by decide +kernel, by decide +kernel, by decide +kernel, by decide +kernel⟩

/-- The first appender goes on where it stopped. -/
theorem append_at_end_iff_first :
    ∃ r v', vfsWrite (fullRun (fun _ _ _ => True) twoAppenders).2 0 [2#8] none = some (r, v')
      ∧ fileContent v'.fs 5 = [1#8] ++ [2#8] := by
  have hret : (vfsWrite (fullRun (fun _ _ _ => True) twoAppenders).2 0 [2#8] none).map Prod.fst
      = some 1 := by decide +kernel
  obtain ⟨⟨r, v'⟩, hcall, rfl⟩ := Option.map_eq_some_iff.mp hret
  have hcontent : fileContent (fullRun (fun _ _ _ => True) twoAppenders).2.fs 5 = [1#8] := by
    decide +kernel
  refine ⟨_, v', hcall, ?_⟩
  rw [← hcontent]
  exact ((append_at_end_iff (fullRun_run _ twoAppenders)).1 0 [2#8] none 1 v' 5 (by decide +kernel)
    (by decide +kernel) (by decide) (by decide +kernel) hcall (by decide)).mpr (by decide +kernel)

end Matryoshka
