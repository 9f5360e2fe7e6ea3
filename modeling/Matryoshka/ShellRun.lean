import Matryoshka.ShellCmd
import Matryoshka.ShellWrite

/-!
# Shell sessions

What the commands do to the file system. A command that opens a file takes
a descriptor that was free, works through it only and gives it back
(`Borrowed`); the others leave the table alone. The loop of `cmd_cat` is a
cursor over the file that stops at the end (`catLoop_reads`).

`shell_session` is about whole sessions: whatever is typed and however the
allocations end, the file system stays one that calls of its interface can
reach, no descriptor is lost, and every command but `reboot` comes back.
-/

namespace Matryoshka

open ByteMem Cursor SepPath

/-! ## Descriptors -/

/-- The same descriptors are open, for the same nodes at the same positions. -/
def SameFds (v v' : Vfs) : Prop :=
  ∀ fd, (v'.fdTable fd).used = (v.fdTable fd).used
    ∧ ((v.fdTable fd).used = true → v'.fdTable fd = v.fdTable fd)

/-- Only the entry of `fd` differs. -/
structure OnlyFd (fd : Nat) (v w : Vfs) : Prop where
  fs : w.fs = v.fs
  rootNode : w.rootNode = v.rootNode
  others : ∀ fd', fd' ≠ fd → w.fdTable fd' = v.fdTable fd'

/-- `fd` was free in `v` and is open in `w`, and the other descriptors are as they were. -/
structure Borrowed (fd : Nat) (v w : Vfs) : Prop where
  free : (v.fdTable fd).used = false
  valid : fdValid w fd = true
  others : ∀ fd', fd' ≠ fd → w.fdTable fd' = v.fdTable fd'

/-- What a command leaves behind that writes to the nodes in `written`: the other files
see calls that leave them alone. -/
structure KeptFs (written : Nat → Prop) (v v' : Vfs) : Prop where
  reachable : VfsReachable v'
  fds : SameFds v v'
  files : ∀ n < v.fs.count, ¬written n → Meanwhile n (fun _ => True) v v'

section Descriptors

variable {v v' w w' : Vfs} {fd n : Nat} {c : VfsCall} {r : Int} {written : Nat → Prop}

theorem VfsReachable.call (h : VfsReachable v) (hwrap : NoWrap v c)
    (hcall : vfsCall v c = some (r, v')) : VfsReachable v' := by
  obtain ⟨log, v₀, hb, hs⟩ := h
  exact ⟨_, v₀, hb, hs.call trivial hwrap hcall⟩

theorem SameFds.of_eq (h : v'.fdTable = v.fdTable) : SameFds v v' := by
  intro fd
  rw [h]
  exact ⟨rfl, fun _ => rfl⟩

theorem SameFds.trans (h : SameFds v v') (h' : SameFds v' w) : SameFds v w := by
  intro fd
  obtain ⟨hused, heq⟩ := h fd
  obtain ⟨hused', heq'⟩ := h' fd
  exact ⟨hused'.trans hused, fun hopen => (heq' (hused.trans hopen)).trans (heq hopen)⟩

theorem Meanwhile.one (hl : LeavesFile n v c) (hwrap : NoWrap v c)
    (hcall : vfsCall v c = some (r, v')) : Meanwhile n (fun _ => True) v v' :=
  .call .refl hl trivial hwrap hcall

theorem Meanwhile.trans {Ok : VfsCall → Prop} (h : Meanwhile n Ok v v')
    (h' : Meanwhile n Ok v' w) : Meanwhile n Ok v w := by
  induction h' with
  | refl => exact h
  | call _ hl hok hwrap hcall ih => exact ih.call hl hok hwrap hcall

theorem VfsReachable.meanwhile {Ok : VfsCall → Prop} (h : VfsReachable v)
    (hm : Meanwhile n Ok v w) : VfsReachable w := by
  induction hm with
  | refl => exact h
  | call _ _ _ hwrap hcall ih => exact ih.call hwrap hcall

theorem KeptFs.mono {written' : Nat → Prop} (h : KeptFs written v v')
    (hsub : ∀ n, written n → written' n) : KeptFs written' v v' :=
  ⟨h.reachable, h.fds, fun n hn hw => h.files n hn fun hin => hw (hsub n hin)⟩

theorem KeptFs.refl (h : VfsReachable v) : KeptFs written v v :=
  ⟨h, .of_eq rfl, fun _ _ _ => .refl⟩

theorem OnlyFd.refl (fd : Nat) (v : Vfs) : OnlyFd fd v v := ⟨rfl, rfl, fun _ _ => rfl⟩

theorem OnlyFd.trans (h : OnlyFd fd v v') (h' : OnlyFd fd v' w) : OnlyFd fd v w :=
  ⟨h'.fs.trans h.fs, h'.rootNode.trans h.rootNode,
    fun fd' hne => (h'.others fd' hne).trans (h.others fd' hne)⟩

theorem onlyFd_advance (v : Vfs) (fd : Nat) (k : Int) : OnlyFd fd v (advanceFd v fd k) :=
  ⟨(advanceFd_same v fd k).1, (advanceFd_same v fd k).2, fun _ hne => advanceFd_of_ne hne k⟩

/-- An open that succeeds borrows a descriptor, and one that fails takes none. -/
theorem vfsOpen_borrows (v : Vfs) (a : NodeAlloc) (path : CStr) (flags : BitVec 32) :
    (∃ w, vfsOpen v a path flags = (-1, w) ∧ w.fdTable = v.fdTable)
      ∨ ∃ (fd : Nat) (w : Vfs) (n : Nat), vfsOpen v a path flags = ((fd : Int), w) ∧ Borrowed fd v w
        ∧ (openNode v a path flags).1 = some n ∧ allocFd v = some fd
        ∧ w = installFd (openNode v a path flags).2 fd n flags := by
  have htab := openNode_fdTable v a path flags
  rcases vfsOpen_cases v a path flags with ho | ⟨n, fd, hnode, hfree, ho⟩
  · exact Or.inl ⟨_, ho, htab⟩
  · obtain ⟨hlt, hunused⟩ := allocFd_spec hfree
    have hsame : allocFd (openNode v a path flags).2 = allocFd v := by rw [allocFd, htab, allocFd]
    refine Or.inr ⟨fd, _, n, ho, ⟨?_, ?_, ?_⟩, hnode, hsame ▸ hfree, rfl⟩
    · rw [← htab]
      exact hunused
    · rw [fdValid_iff, installFd_entry]
      exact ⟨hlt, rfl⟩
    · intro fd' hne
      rw [installFd_entry_of_ne hne, htab]

theorem Borrowed.step (h : Borrowed fd v w) (hvalid : fdValid w' fd = true)
    (hothers : ∀ fd', fd' ≠ fd → w'.fdTable fd' = w.fdTable fd') : Borrowed fd v w' :=
  ⟨h.free, hvalid, fun fd' hne => (hothers fd' hne).trans (h.others fd' hne)⟩

/-- A call through the borrowed descriptor leaves the others alone. -/
theorem vfsWrite_others {data : CStr} {blk : Option Mem}
    (hcall : vfsWrite w fd data blk = some (r, w')) {fd' : Nat} (hne : fd' ≠ fd) :
    w'.fdTable fd' = w.fdTable fd' := by
  obtain ⟨-, rfl⟩ | ⟨n, fs, -, -, -, rfl⟩ := vfsWrite_inv hcall
  · rfl
  · exact advanceFd_of_ne hne r

/-- Closing it ends the loan. -/
theorem Borrowed.close (h : Borrowed fd v w) (hr : VfsReachable w)
    (hfiles : ∀ n < v.fs.count, ¬written n → Meanwhile n (fun _ => True) v w) :
    KeptFs written v (vfsClose w fd).2 := by
  refine ⟨hr.call (c := .close fd) trivial rfl, fun fd' => ?_,
    fun n hn hw => (hfiles n hn hw).trans (.one (c := .close fd) trivial trivial rfl)⟩
  rw [vfsClose, if_pos h.valid]
  by_cases hfd : fd' = fd
  · subst hfd
    dsimp only
    rw [Int.toNat_natCast, setFd_self, h.free]
    exact ⟨rfl, fun hused => absurd hused Bool.false_ne_true⟩
  · dsimp only
    rw [Int.toNat_natCast, setFd_of_ne hfd, h.others fd' hfd]
    exact ⟨rfl, fun _ => rfl⟩

end Descriptors

/-! ## Reading a file to the console -/

/-- What `cmd_cat` shows of a file: pieces of 127 bytes, each up to its first zero. -/
def catText (l : CStr) : CStr := (chunks 127 l).flatMap fun piece => piece.takeWhile (· != 0#8)

section Cat

variable {v : Vfs} {n fd off : Nat} {l : CStr}

/-- A file without zero bytes is shown as it is. -/
theorem catText_eq (h : 0#8 ∉ l) : catText l = l := by
  have hpiece : ∀ piece ∈ chunks 127 l, piece.takeWhile (· != 0#8) = piece := by
    intro piece hpiece
    refine List.takeWhile_eq_self_iff.mpr fun b hb => ?_
    rw [bne_iff_ne]
    rintro rfl
    refine h ?_
    rw [← flatten_chunks (by decide : 0 < 127) l]
    exact List.mem_flatten_of_mem hpiece hb
  rw [catText, List.flatMap_def, List.map_congr_left hpiece, List.map_id',
    flatten_chunks (by decide)]

/-- `buf[n] = '\0'; vga_puts(buf)` prints the bytes before the first zero. -/
theorem bytes_terminated (buf : Mem) {k : Nat} (hk : k < 128) :
    (VgaCall.puts (some (bytesAt (store8 buf k 0#8) 0 128))).bytes
      = (bytesAt buf 0 k).takeWhile (· != 0#8) := by
  have hsplit : bytesAt (store8 buf k 0#8) 0 128
      = bytesAt buf 0 k ++ 0#8 :: bytesAt (store8 buf k 0#8) (k + 1) (127 - k) := by
    rw [show 128 = k + (1 + (127 - k)) by omega, bytesAt_add, bytesAt_add]
    congr 1
    · refine bytesAt_congr fun i hi => store8_of_ne ?_
      omega
    · rw [Nat.zero_add, bytesAt, List.range_one, List.map_singleton, Nat.add_zero, store8_self]
      rfl
  rw [VgaCall.bytes, hsplit, List.takeWhile_append]
  split
  · next hall =>
      rw [List.takeWhile_cons_of_neg (by decide), List.append_nil]
      exact (List.takeWhile_prefix _).eq_of_length hall |>.symm
  · rfl

/-- The loop shows what is left of the file and stops at its end. -/
theorem catLoop_reads (fuel : Nat) (hf : FileHolds v n l) (hr : Readable v.fs n)
    (ho : OpenAt v fd n off) (hfuel : l.length - off < fuel) (buf : Mem) :
    ∃ calls w, catLoop fd fuel v buf = some (calls, w) ∧ consoleText calls = catText (l.drop off)
      ∧ OnlyFd fd v w ∧ fdValid w fd = true ∧ ∀ m, Meanwhile m (fun _ => True) v w := by
  induction fuel generalizing v off buf with
  | zero => omega
  | succ fuel ih =>
      obtain ⟨hcount, hbytes, hf', hr', ho'⟩ := hf.read hr ho buf 127
      have honly : OnlyFd fd v (vfsRead v fd buf 127).2.2 := by
        rw [vfsRead_open ho]
        exact onlyFd_advance v fd _
      have hmean : ∀ m, Meanwhile m (fun _ => True) v (vfsRead v fd buf 127).2.2 :=
        fun m => .one (c := .read fd buf 127) trivial trivial rfl
      have hfetch := fetch_length l off 127
      rw [catLoop]
      generalize vfsRead v fd buf 127 = res at *
      obtain ⟨k, buf', v'⟩ := res
      dsimp only at *
      subst hcount
      by_cases hend : l.length ≤ off
      · -- nothing is left
        have hnil : fetch l off 127 = [] := by
          rw [fetch, List.drop_of_length_le hend, List.take_nil]
        rw [hnil, List.length_nil, if_neg (by decide)]
        refine ⟨[], v', rfl, ?_, honly, ho'.valid, hmean⟩
        rw [List.drop_of_length_le hend, catText, chunks_nil (by decide)]
        rfl
      · have hpos : 0 < (fetch l off 127).length := by omega
        rw [if_pos (by exact_mod_cast hpos), Int.toNat_natCast]
        obtain ⟨calls, w, hloop, htext, honly', hvalid, hmean'⟩ :=
          ih hf' hr' ho' (by omega) (store8 buf' (fetch l off 127).length 0#8)
        rw [hloop]
        refine ⟨_, w, rfl, ?_, honly.trans honly', hvalid, fun m => (hmean m).trans (hmean' m)⟩
        have hne : l.drop off ≠ [] := by
          rw [ne_eq, List.drop_eq_nil_iff]
          exact hend
        have hrest : (l.drop off).drop 127 = l.drop (off + (fetch l off 127).length) := by
          rw [List.drop_drop]
          by_cases hlong : 127 ≤ l.length - off
          · rw [hfetch, Nat.min_eq_left hlong]
          · rw [List.drop_of_length_le (by omega), List.drop_of_length_le (by omega)]
        rw [consoleText_cons, bytes_terminated _ (by omega), hbytes, htext, catText, catText,
          chunks_eq_cons (by decide) hne, List.flatMap_cons, hrest, fetch]

end Cat

/-! ## Listing a directory -/

/-- What `cmd_ls` prints for node `c`. -/
def nodeCalls (s : Ramfs) (c : Nat) : Console := entryCalls (s.nodes c).name (s.nodes c).flags

section Ls

variable {v : Vfs} {kids : Nat → List Nat} {path : CStr} {dir : Nat}

theorem vfsReaddir_eq (h : VfsTree v kids) (hres : vfsResolve v path = some dir)
    (hdir : (v.fs.nodes dir).isDirectory = true) {i : Nat} (hi : i < 2 ^ 32) :
    vfsReaddir v path i
      = ((kids dir)[i]?).map fun c => ((v.fs.nodes c).name, (v.fs.nodes c).flags) := by
  simp only [vfsReaddir, hres, if_pos hdir]
  exact h.tree.readdir_eq (h.resolve_lt hres) hi

/-- The loop lists the children from number `i` on. -/
theorem lsLoop_lists (fuel : Nat) (h : VfsTree v kids) (hres : vfsResolve v path = some dir)
    (hdir : (v.fs.nodes dir).isDirectory = true) (hcount : (kids dir).length < 2 ^ 32) {i : Nat}
    (hi : i ≤ (kids dir).length) (hfuel : (kids dir).length - i < fuel) :
    lsLoop v path fuel i = some (((kids dir).drop i).flatMap (nodeCalls v.fs)) := by
  induction fuel generalizing i with
  | zero => omega
  | succ fuel ih =>
      rw [lsLoop, vfsReaddir_eq h hres hdir (by omega)]
      by_cases hend : i = (kids dir).length
      · rw [List.getElem?_eq_none (by omega), List.drop_of_length_le (by omega)]
        rfl
      · have hlt : i < (kids dir).length := by omega
        rw [List.getElem?_eq_getElem hlt, Option.map_some]
        dsimp only
        rw [u32_of_lt (by omega), ih (by omega) (by omega), Option.map_some,
          List.drop_eq_getElem_cons hlt, List.flatMap_cons, nodeCalls]

/-- The path that `cmd_ls` lists. -/
def lsPath (args : CStr) : CStr := if skipSpaces args = [] then [slash] else skipSpaces args

theorem cmdLs_directory (h : VfsTree v kids) (hcount : v.fs.count < 2 ^ 32) {args : CStr}
    (hres : vfsResolve v (lsPath args) = some dir) (hdir : (v.fs.nodes dir).isDirectory = true) :
    cmdLs v args = some ((kids dir).flatMap (nodeCalls v.fs)
      ++ [onBlack VGA_COLOR_LIGHT_GREY, .putchar newline]) := by
  have hlen := h.tree.length_le (h.resolve_lt hres)
  have hloop := lsLoop_lists (v.fs.count + 1) h hres hdir (by omega) (Nat.zero_le _) (by omega)
  rw [List.drop_zero] at hloop
  rw [lsPath] at hres hloop
  simp only [cmdLs, hres, hdir, Bool.not_true, Bool.false_eq_true, if_false, hloop,
    Option.map_some]

theorem cmdLs_returns (h : VfsReachable v) (hcount : v.fs.count < 2 ^ 32) (args : CStr) :
    ∃ calls, cmdLs v args = some calls := by
  obtain ⟨kids, ht⟩ := h.sound.tree
  cases hres : vfsResolve v (lsPath args) with
  | none =>
      rw [lsPath] at hres
      exact ⟨_, by simp only [cmdLs, hres]; rfl⟩
  | some dir =>
      by_cases hdir : (v.fs.nodes dir).isDirectory = true
      · exact ⟨_, cmdLs_directory ht hcount hres hdir⟩
      · rw [lsPath] at hres
        rw [Bool.not_eq_true] at hdir
        exact ⟨_, by simp only [cmdLs, hres, hdir]; rfl⟩

end Ls

/-! ## Commands that use files -/

/-- What `cat` does with a path. -/
structure CatResult (v : Vfs) (path : CStr) (calls : Console) (v' : Vfs) : Prop where
  kept : KeptFs (fun _ => False) v v'
  fs : v'.fs = v.fs
  rootNode : v'.rootNode = v.rootNode
  shows : ∀ n, vfsResolve v path = some n → allocFd v ≠ none → Readable v.fs n →
    consoleText calls = catText (fileContent v.fs n)
  silent : ∀ n, vfsResolve v path = some n → allocFd v ≠ none → ¬Readable v.fs n →
    consoleText calls = []
  fails : vfsResolve v path = none ∨ allocFd v = none →
    calls = complaint "cat: not found: " path

section Files

variable {v : Vfs} {args : CStr}

theorem openNode_rdonly (v : Vfs) (a : NodeAlloc) (path : CStr) :
    openNode v a path VFS_O_RDONLY = (vfsResolve v path, v) := by
  rw [openNode]
  cases vfsResolve v path with
  | none => exact if_neg (by decide)
  | some n => rfl

/-- Opening for reading needs a node and a descriptor, and changes nothing else. -/
theorem vfsOpen_rdonly (v : Vfs) (a : NodeAlloc) (path : CStr) :
    (vfsResolve v path = none ∨ allocFd v = none) ∧ vfsOpen v a path VFS_O_RDONLY = (-1, v)
      ∨ ∃ n fd, vfsResolve v path = some n ∧ allocFd v = some fd
        ∧ vfsOpen v a path VFS_O_RDONLY = ((fd : Int), installFd v fd n VFS_O_RDONLY) := by
  rw [vfsOpen, openNode_rdonly]
  cases hres : vfsResolve v path with
  | none => exact Or.inl ⟨Or.inl rfl, rfl⟩
  | some n =>
      cases hfd : allocFd v with
      | none => exact Or.inl ⟨Or.inr rfl, by simp only [hfd]⟩
      | some fd => exact Or.inr ⟨n, fd, rfl, rfl, by simp only [hfd]⟩

theorem installFd_rdonly (v : Vfs) (fd n : Nat) :
    OnlyFd fd v (installFd v fd n VFS_O_RDONLY) := by
  have hkeep : ¬(VFS_O_RDONLY &&& VFS_O_TRUNC ≠ 0#32) := by decide
  refine ⟨?_, rfl, fun fd' hne => installFd_entry_of_ne hne⟩
  simp only [installFd, if_neg hkeep, Vfs.setFd]

/-- The loop of `cmd_cat` after a successful open. -/
theorem catLoop_opened (h : VfsReachable v) {path : CStr} {n fd : Nat}
    (hres : vfsResolve v path = some n)
    (hopen : vfsOpen v ⟨false, false⟩ path VFS_O_RDONLY
      = ((fd : Int), installFd v fd n VFS_O_RDONLY)) (stack : Mem) :
    ∃ calls w, catLoop fd (HEAP_INITIAL + 1) (installFd v fd n VFS_O_RDONLY) stack
        = some (calls, w)
      ∧ (Readable v.fs n → consoleText calls = catText (fileContent v.fs n))
      ∧ (¬Readable v.fs n → calls = [])
      ∧ OnlyFd fd v w ∧ fdValid w fd = true ∧ ∀ m, Meanwhile m (fun _ => True) v w := by
  obtain ⟨kids, ht⟩ := h.sound.tree
  have hlt := ht.resolve_lt hres
  have honly := installFd_rdonly v fd n
  have hfresh : FreshlyOpened v VFS_O_RDONLY fd n (installFd v fd n VFS_O_RDONLY) :=
    ⟨⟨_, _, hopen⟩, by rw [installFd_entry, openEntry], by decide⟩
  have hmean : ∀ m, Meanwhile m (fun _ => True) v (installFd v fd n VFS_O_RDONLY) :=
    fun m => .one (c := .openFile path VFS_O_RDONLY ⟨false, false⟩) (fun _ => by decide) trivial
      (congrArg some hopen)
  by_cases hr : Readable v.fs n
  · obtain ⟨hf, hr'⟩ := hfresh.keeps (l := fileContent v.fs n) ⟨h.sound, hlt, rfl⟩ (by decide)
    have hsize := (h.sound.files n hlt).size_le_heap
    obtain ⟨calls, w, hloop, htext, honly', hvalid, hmean'⟩ := catLoop_reads (HEAP_INITIAL + 1) hf
      (hr' hr) hfresh.openAt (by rw [fileContent_length]; omega) stack
    rw [List.drop_zero] at htext
    exact ⟨calls, w, hloop, fun _ => htext, fun hnot => absurd hr hnot, honly.trans honly', hvalid,
      fun m => (hmean m).trans (hmean' m)⟩
  · refine ⟨[], _, ?_, fun hr' => absurd hr' hr, fun _ => rfl, honly, hfresh.openAt.valid, hmean⟩
    have hr' : ¬Readable (installFd v fd n VFS_O_RDONLY).fs n := by
      rw [honly.fs]
      exact hr
    rw [catLoop, vfsRead_refused hfresh.openAt hr']
    exact if_neg (by decide)

theorem cmdCat_result (h : VfsReachable v) (stack : Mem) (hpath : skipSpaces args ≠ []) :
    ∃ calls v', cmdCat v stack args = some (calls, v')
      ∧ CatResult v (skipSpaces args) calls v' := by
  simp only [cmdCat, if_neg hpath]
  generalize skipSpaces args = path
  rcases vfsOpen_rdonly v ⟨false, false⟩ path with ⟨hnone, hopen⟩ | ⟨n, fd, hres, hfd, hopen⟩
  · rw [hopen]
    refine ⟨_, v, if_pos (show (-1 : Int) < 0 by decide), .refl h, rfl, rfl, ?_, ?_, fun _ => rfl⟩
    all_goals
      intro n hres hfd
      rw [hres] at hnone
      exact absurd (hnone.resolve_left (Option.some_ne_none n)) hfd
  · obtain ⟨calls, w, hloop, hshown, hsilent, honly, hvalid, hmean⟩ :=
      catLoop_opened h hres hopen stack
    have hborrowed : Borrowed fd v w := ⟨(allocFd_spec hfd).2, hvalid, honly.others⟩
    rw [hopen]
    refine ⟨onBlack VGA_COLOR_LIGHT_GREY :: calls, (vfsClose w fd).2, ?_,
      hborrowed.close (h.meanwhile (hmean 0)) fun m _ _ => hmean m, ?_, ?_, ?_, ?_, ?_⟩
    · dsimp only
      rw [if_neg (by omega), hloop]
      rfl
    · rw [vfsClose, if_pos hvalid]
      exact honly.fs
    · rw [vfsClose, if_pos hvalid]
      exact honly.rootNode
    · intro m hm _ hr
      cases hres.symm.trans hm
      exact hshown hr
    · intro m hm _ hr
      cases hres.symm.trans hm
      rw [hsilent hr]
      rfl
    · intro hnone
      rw [hres, hfd] at hnone
      rcases hnone with hnone | hnone <;> cases hnone

theorem cmdCat_kept (h : VfsReachable v) (stack : Mem) (args : CStr) :
    ∃ calls v', cmdCat v stack args = some (calls, v') ∧ KeptFs (fun _ => False) v v' := by
  by_cases hpath : skipSpaces args = []
  · exact ⟨_, v, by rw [cmdCat, if_pos hpath], .refl h⟩
  · obtain ⟨calls, v', hcat, hresult⟩ := cmdCat_result h stack hpath
    exact ⟨calls, v', hcat, hresult.kept⟩

theorem KeptFs.create {a : NodeAlloc} {path : CStr} {flags : BitVec 32} {c : VfsCall} {r : Int}
    (h : VfsReachable v) (hl : ∀ n, LeavesFile n v c) (hwrap : NoWrap v c)
    (hcall : vfsCall v c = some (r, (vfsCreate v a path flags).2)) :
    KeptFs (fun _ => False) v (vfsCreate v a path flags).2 :=
  ⟨h.call hwrap hcall, .of_eq (vfsCreate_fdTable v a path flags),
    fun n _ _ => .one (hl n) hwrap hcall⟩

theorem cmdMkdir_kept (h : VfsReachable v) (a : NodeAlloc) (args : CStr) :
    KeptFs (fun _ => False) v (cmdMkdir v a args).2 := by
  simp only [cmdMkdir]
  split
  · exact .refl h
  · exact .create (c := .mkdir (skipSpaces args) a) h (fun _ => trivial) trivial rfl

theorem cmdTouch_kept (h : VfsReachable v) (a : NodeAlloc) (args : CStr) :
    KeptFs (fun _ => False) v (cmdTouch v a args).2 := by
  simp only [cmdTouch]
  split
  · exact .refl h
  · exact .create (c := .createFile (skipSpaces args) a) h (fun _ => trivial) trivial rfl

/-- A write through the descriptor of node `m` is none of the others' business. -/
theorem OpenAt.leaves {fd m n off : Nat} (ho : OpenAt v fd m off) (hne : m ≠ n) (data : CStr)
    (blk : Option Mem) : LeavesFile n v (.write fd data blk) := by
  intro _ hnode
  exact hne (Option.some.inj (ho.node.symm.trans hnode))

theorem OpenAt.noWrap {fd m off : Nat} (ho : OpenAt v fd m off) {data : CStr}
    (hsmall : off + data.length < 2 ^ 32) (blk : Option Mem) :
    NoWrap v (.write fd data blk) := by
  intro _
  rw [Int.toNat_natCast, ho.offset]
  exact hsmall

/-- The node that a `write` opens is the one its path names, or a new one. -/
theorem openNode_ne (h : VfsReachable v) {b : NodeAlloc} {path : CStr} {flags : BitVec 32}
    {m n : Nat} (hcreat : flags &&& VFS_O_CREAT ≠ 0#32)
    (hnode : (openNode v b path flags).1 = some m) (hn : n < v.fs.count)
    (hother : vfsResolve v path ≠ some n) : m ≠ n := by
  obtain ⟨kids, ht⟩ := h.sound.tree
  rintro rfl
  rcases ht.openNode_cases hcreat hnode with ⟨hres, -⟩ | ⟨-, heq, -⟩
  · exact hother hres
  · omega

/-- A `write` complains, or prints nothing and has found a descriptor. -/
structure WriteResult (v : Vfs) (path out : CStr) (v' : Vfs) : Prop where
  kept : KeptFs (fun n => vfsResolve v path = some n) v v'
  prints : out = cannotOpenText path ∨ out = [] ∧ allocFd v ≠ none

theorem writeFile_result (h : VfsReachable v) (a : WriteAllocs) (path text : CStr)
    (hsmall : 2 * (text.length + 1) ≤ HEAP_INITIAL) :
    ∃ out v', writeFile v a path text = some (out, v') ∧ WriteResult v path out v' := by
  have htrunc : (VFS_O_WRONLY ||| VFS_O_CREAT ||| VFS_O_TRUNC) &&& VFS_O_TRUNC ≠ 0#32 := by decide
  have hstart : (VFS_O_WRONLY ||| VFS_O_CREAT ||| VFS_O_TRUNC) &&& VFS_O_APPEND = 0#32 := by decide
  have hcreat : (VFS_O_WRONLY ||| VFS_O_CREAT ||| VFS_O_TRUNC) &&& VFS_O_CREAT ≠ 0#32 := by decide
  rw [writeFile]
  generalize VFS_O_WRONLY ||| VFS_O_CREAT ||| VFS_O_TRUNC = flags at htrunc hstart hcreat ⊢
  have hreach : VfsReachable (vfsOpen v a.node path flags).2 :=
    h.call (c := .openFile path flags a.node) trivial rfl
  have hmean : ∀ m, vfsResolve v path ≠ some m →
      Meanwhile m (fun _ => True) v (vfsOpen v a.node path flags).2 := fun m hother =>
    .one (c := .openFile path flags a.node) (fun hres => absurd hres hother) trivial rfl
  rcases vfsOpen_borrows v a.node path flags with
    ⟨w, ho, htab⟩ | ⟨fd, w, n, ho, hb, hnode, hfd, rfl⟩
  · rw [ho] at hreach hmean ⊢
    exact ⟨_, w, if_pos (by decide), ⟨hreach, .of_eq htab, fun m _ => hmean m⟩, Or.inl rfl⟩
  · rw [ho] at hreach hmean ⊢
    have hopen : FreshlyOpened v flags fd n _ :=
      ⟨⟨_, _, ho⟩, by rw [installFd_entry, openEntry], hstart⟩
    have hheap := heapInitial_eq
    obtain ⟨w₁, b₁, hw₁⟩ := writeStep_exists (hopen.truncated h.sound htrunc) hopen.openAt text
      a.text (by rw [List.length_nil]; omega)
    obtain ⟨r₁, hcall₁⟩ := hw₁.call
    have hwrap₁ := hopen.openAt.noWrap (show 0 + text.length < 2 ^ 32 by omega) a.text
    have hlen : ([] ++ if b₁ = true then text else []).length ≤ text.length := by
      cases b₁ <;> simp
    obtain ⟨w₂, b₂, hw₂⟩ := writeStep_exists hw₁.file hw₁.openAt [newline] a.newline
      (by rw [List.length_singleton]; omega)
    obtain ⟨r₂, hcall₂⟩ := hw₂.call
    have hwrap₂ := hw₁.openAt.noWrap
      (show _ + [newline].length < 2 ^ 32 by rw [List.length_singleton]; omega) a.newline
    have hb₂ : Borrowed fd v w₂ := (hb.step hw₁.openAt.valid
      fun _ hne => vfsWrite_others hcall₁ hne).step hw₂.openAt.valid
      fun _ hne => vfsWrite_others hcall₂ hne
    refine ⟨[], (vfsClose w₂ fd).2, ?_, hb₂.close ((hreach.call hwrap₁ hcall₁).call hwrap₂ hcall₂)
      fun m hm hother => ?_, Or.inr ⟨rfl, ?_⟩⟩
    · simp only [if_neg (show ¬(fd : Int) < 0 by omega), hcall₁, hcall₂]
    · have hne := openNode_ne h hcreat hnode hm hother
      exact ((hmean m hother).trans (.one (hopen.openAt.leaves hne _ _) hwrap₁ hcall₁)).trans
        (.one (hw₁.openAt.leaves hne _ _) hwrap₂ hcall₂)
    · rw [hfd]
      exact Option.some_ne_none fd

theorem skipSpaces_length_le (s : CStr) : (skipSpaces s).length ≤ s.length :=
  (List.dropWhile_suffix _).length_le

/-- The path that `cmd_write` opens. -/
def writePath (args : CStr) : CStr := ((skipSpaces args).takeWhile (· != space)).take pathMax

theorem cmdWrite_kept (h : VfsReachable v) (a : WriteAllocs) (hargs : args.length ≤ CMD_MAX) :
    ∃ out v', cmdWrite v a args = some (out, v')
      ∧ KeptFs (fun n => vfsResolve v (writePath args) = some n) v v' := by
  simp only [cmdWrite, writePath]
  split
  · exact ⟨_, v, rfl, .refl h⟩
  · split
    · exact ⟨_, v, rfl, .refl h⟩
    · have hheap := heapInitial_eq
      rw [CMD_MAX] at hargs
      generalize ((skipSpaces args).takeWhile (· != space)).take pathMax = path
      have hskip := skipSpaces_length_le ((skipSpaces args).drop path.length)
      have hskip' := skipSpaces_length_le args
      rw [List.length_drop] at hskip
      obtain ⟨out, v', hcall, hresult⟩ := writeFile_result h a path
        (skipSpaces ((skipSpaces args).drop path.length)) (by omega)
      exact ⟨out, v', hcall, hresult.kept⟩

end Files

/-! ## Lines -/

/-- The line buffer during input. -/
structure LineOk (e : LineEdit) : Prop where
  len : e.lineLen ≤ CMD_MAX - 1
  print : ∀ i < e.lineLen, isPrint (e.lineBuf i) = true

section Lines

variable {e e' : LineEdit}

theorem LineOk.edit (h : LineOk e) (c : BitVec 8) : LineOk (editChar e c) := by
  rw [editChar]
  split
  · split
    · have := h.len
      exact ⟨by dsimp only; omega, fun i hi => h.print i (by dsimp only at hi; omega)⟩
    · exact h
  · split
    · next hc =>
        refine ⟨hc.2, fun i hi => ?_⟩
        dsimp only at hi ⊢
        by_cases hlast : i = e.lineLen
        · rw [hlast, store8_self]
          exact hc.1
        · rw [store8_of_ne hlast]
          exact h.print i (by omega)
    · exact h

theorem LineOk.read {input rest : CStr} (h : LineOk e)
    (hread : readLoop e input = (e', some rest)) : LineOk e' := by
  induction input generalizing e with
  | nil => cases hread
  | cons c input ih =>
      rw [readLoop] at hread
      split at hread
      · cases hread
        refine ⟨h.len, fun i hi => ?_⟩
        dsimp only at hi ⊢
        rw [store8_of_ne (Nat.ne_of_lt hi)]
        exact h.print i hi
      · exact ih (h.edit c) hread

/-- A line has at most 255 characters, all of them printable. -/
theorem shellReadline_line {input rest : CStr} (hread : shellReadline e input = (e', some rest)) :
    (lineOf e').length < CMD_MAX ∧ ∀ b ∈ lineOf e', isPrint b = true := by
  have hok : LineOk e' := by
    refine LineOk.read ⟨Nat.zero_le _, fun i hi => ?_⟩ hread
    exact absurd hi (Nat.not_lt_zero i)
  constructor
  · have := hok.len
    rw [lineOf, bytesAt_length]
    unfold CMD_MAX at this ⊢
    omega
  · intro b hb
    obtain ⟨i, hi, rfl⟩ := List.mem_map.mp hb
    rw [Nat.zero_add]
    exact hok.print i (List.mem_range.mp hi)

theorem shellExecute_args {line args : CStr} {cmd : Command}
    (h : shellExecute line = .handler cmd args) : args <:+ line := by
  simp only [shellExecute] at h
  split at h
  · cases h
  · split at h
    · cases h
      exact (List.dropWhile_suffix _).trans ((List.dropWhile_suffix _).trans
        (List.dropWhile_suffix _))
    · cases h

end Lines

/-! ## Sessions -/

section Sessions

variable {m m' : Machine} {o : Outcome} {args line : CStr}

/-- The line is a `write` to node `n`. -/
def WritesTo (v : Vfs) (line : CStr) (n : Nat) : Prop :=
  ∃ args, shellExecute line = .handler .write args ∧ vfsResolve v (writePath args) = some n

theorem runCommand_kept {calls : Console} (h : VfsReachable m.vfs) (hargs : args.length ≤ CMD_MAX)
    {cmd : Command} (hrun : runCommand m o args cmd = some (calls, m')) :
    KeptFs (fun n => cmd = .write ∧ vfsResolve m.vfs (writePath args) = some n) m.vfs m'.vfs := by
  cases cmd with
  | ls =>
      obtain ⟨_, -, heq⟩ := Option.map_eq_some_iff.mp hrun
      cases heq
      exact .refl h
  | cat =>
      obtain ⟨out, v', hcat, hkept⟩ := cmdCat_kept h o.stack args
      rw [runCommand, hcat] at hrun
      cases hrun
      exact hkept.mono fun _ => False.elim
  | mkdir =>
      cases hrun
      exact (cmdMkdir_kept h _ _).mono fun _ => False.elim
  | touch =>
      cases hrun
      exact (cmdTouch_kept h _ _).mono fun _ => False.elim
  | write =>
      obtain ⟨out, v', hwrite, hkept⟩ := cmdWrite_kept h o.allocs hargs
      rw [runCommand, hwrite] at hrun
      cases hrun
      exact hkept.mono fun _ hres => ⟨rfl, hres⟩
  | syscall =>
      cases hrun
      exact .refl h
  | reboot => cases hrun
  | help | clear | meminfo | uptime | ps | virt | net | echo =>
      cases hrun
      exact .refl h

theorem runCommand_returns (h : VfsReachable m.vfs) (hcount : m.vfs.fs.count < 2 ^ 32)
    (hargs : args.length ≤ CMD_MAX) {cmd : Command} (hcmd : cmd ≠ .reboot) :
    ∃ calls m', runCommand m o args cmd = some (calls, m') := by
  cases cmd with
  | ls =>
      obtain ⟨calls, hls⟩ := cmdLs_returns h hcount args
      exact ⟨calls, m, by rw [runCommand, hls, Option.map_some]⟩
  | cat =>
      obtain ⟨out, v', hcat, -⟩ := cmdCat_kept h o.stack args
      exact ⟨_, _, by rw [runCommand, hcat, Option.map_some]⟩
  | write =>
      obtain ⟨out, v', hwrite, -⟩ := cmdWrite_kept h o.allocs hargs
      exact ⟨_, _, by rw [runCommand, hwrite, Option.map_some]⟩
  | reboot => exact absurd rfl hcmd
  | help | clear | meminfo | uptime | ps | virt | mkdir | touch | net | syscall | echo =>
      exact ⟨_, _, rfl⟩

theorem executeLine_kept {calls : Console} (h : VfsReachable m.vfs) (hline : line.length ≤ CMD_MAX)
    (hrun : executeLine m o line = some (calls, m')) :
    KeptFs (WritesTo m.vfs line) m.vfs m'.vfs := by
  rw [executeLine] at hrun
  cases hx : shellExecute line with
  | nothing =>
      rw [hx] at hrun
      cases hrun
      exact .refl h
  | handler cmd args =>
      rw [hx] at hrun
      refine (runCommand_kept h ((shellExecute_args hx).length_le.trans hline) hrun).mono ?_
      rintro n ⟨rfl, hres⟩
      exact ⟨args, hx, hres⟩
  | unknown name =>
      rw [hx] at hrun
      cases hrun
      exact .refl h

theorem executeLine_returns (h : VfsReachable m.vfs) (hcount : m.vfs.fs.count < 2 ^ 32)
    (hline : line.length ≤ CMD_MAX) (hreboot : ∀ args, shellExecute line ≠ .handler .reboot args) :
    ∃ calls m', executeLine m o line = some (calls, m') := by
  rw [executeLine]
  cases hx : shellExecute line with
  | nothing => exact ⟨_, _, rfl⟩
  | handler cmd args =>
      refine runCommand_returns h hcount ((shellExecute_args hx).length_le.trans hline) ?_
      rintro rfl
      exact hreboot args hx
  | unknown name => exact ⟨_, _, rfl⟩

theorem shellTurn_inv {e e' : LineEdit} {input rest : CStr}
    (hturn : shellTurn m e o input = some (m', e', rest)) :
    ∃ e₁ calls, shellReadline { e with vga := shellPrompt e.vga } input = (e₁, some rest)
      ∧ executeLine m o (lineOf e₁) = some (calls, m')
      ∧ e' = { e₁ with vga := (vgaRun e₁.vga calls).val } := by
  rw [shellTurn] at hturn
  rcases hread : shellReadline { e with vga := shellPrompt e.vga } input with ⟨e₁, _ | rest'⟩
  · rw [hread] at hturn
    cases hturn
  · rw [hread] at hturn
    obtain ⟨⟨calls, m₁⟩, hexec, heq⟩ := Option.map_eq_some_iff.mp hturn
    cases heq
    exact ⟨e₁, calls, rfl, hexec, rfl⟩

theorem ShellSession.kept {e e' : LineEdit} (h : VfsReachable m.vfs)
    (hs : ShellSession m e m' e') : VfsReachable m'.vfs ∧ SameFds m.vfs m'.vfs := by
  induction hs with
  | start => exact ⟨h, .of_eq rfl⟩
  | turn _ hturn ih =>
      obtain ⟨e₁, calls, hread, hexec, -⟩ := shellTurn_inv hturn
      have hkept := executeLine_kept ih.1 (Nat.le_of_lt (shellReadline_line hread).1) hexec
      exact ⟨hkept.reachable, ih.2.trans hkept.fds⟩

/-- **Sessions.** Whatever is typed and however the allocations of the commands end, the
file system stays one that calls of its interface can reach and the descriptors open before
the session are the ones open after it; and every complete line that is not a `reboot` is
executed and comes back to the prompt, `ls` too while its 32-bit index counts the nodes. -/
theorem shell_session {e e' : LineEdit} (h : VfsReachable m.vfs) (hs : ShellSession m e m' e') :
    VfsReachable m'.vfs ∧ SameFds m.vfs m'.vfs
      ∧ ∀ o input e₁ rest, m'.vfs.fs.count < 2 ^ 32 →
        shellReadline { e' with vga := shellPrompt e'.vga } input = (e₁, some rest) →
        (∀ args, shellExecute (lineOf e₁) ≠ .handler .reboot args) →
        ∃ m₂ e₂, shellTurn m' e' o input = some (m₂, e₂, rest) := by
  obtain ⟨hreach, hfds⟩ := hs.kept h
  refine ⟨hreach, hfds, ?_⟩
  intro o input e₁ rest hcount hread hreboot
  obtain ⟨calls, m₂, hexec⟩ := executeLine_returns (o := o) hreach hcount
    (Nat.le_of_lt (shellReadline_line hread).1) hreboot
  refine ⟨m₂, { e₁ with vga := (vgaRun e₁.vga calls).val }, ?_⟩
  simp only [shellTurn, hread, hexec, Option.map_some]

end Sessions

/-- The kernel with the file system of `ramfs_init` and nothing else started. -/
def bootMachine : Machine where
  vfs := fullBoot
  heap := heapInit fun _ => 0#8
  sched := taskInit ⟨fun _ => zeroTask, 0, 0, false, false, 0⟩
  vmm := ⟨fun _ => 0#8, fun _ => 0#32, 0, 0, 0, Pmm.static fun _ => 0#32⟩
  net := ⟨fun _ => 0#8, fun _ => 0#8, fun _ => 0#8, fun _ => 0#8⟩
  e1000 := bootE1000
  timerTicks := 0
  macAddr := fun _ => 0#8
  linkUp := false
  cr3 := 0

def bootEdit : LineEdit := ⟨Vga.static (fun _ => 0#16) 0, fun _ => 0#8, 0⟩

def plentyOutcome : Outcome := ⟨plentyAllocs, fun _ => 0xFF#8, 0x00101000#32⟩

/-- `touch /f` as the first line. -/
theorem shell_session_touch :
    VfsReachable bootMachine.vfs ∧ ShellSession bootMachine bootEdit bootMachine bootEdit
      ∧ ∃ m₂ e₂, shellTurn bootMachine bootEdit plentyOutcome (ascii "touch /f\n".toList)
        = some (m₂, e₂, []) := by
  have hreach : VfsReachable bootMachine.vfs := fullBoot_reachable
  have hread : (shellReadline { bootEdit with vga := shellPrompt bootEdit.vga }
      (ascii "touch /f\n".toList)).2 = some [] := by
    decide +kernel
  have hline : shellExecute (lineOf (shellReadline { bootEdit with vga := shellPrompt bootEdit.vga }
      (ascii "touch /f\n".toList)).1) = .handler .touch (ascii "/f".toList) := by
    decide +kernel
  refine ⟨hreach, .start, (shell_session hreach .start).2.2 plentyOutcome _ _ []
    (by decide +kernel) (Prod.ext rfl hread) fun args hreboot => ?_⟩
  cases hline.symm.trans hreboot

end Matryoshka
