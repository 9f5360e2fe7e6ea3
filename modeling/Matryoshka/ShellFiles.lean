import Matryoshka.ShellRun

/-!
# What the shell shows of its files

A line is dispatched by its first word (`shell_dispatch_iff`). `ls` prints
every child of a directory once (`ls_lists_children`), the newest first
(`create_then_ls`). What a `write` has stored is what `cat` shows, whatever
lines come between, as long as none of them is a `write` to the same node
(`write_then_cat`): the descriptor that `write` found is free again, and
paths keep their meaning.
-/

namespace Matryoshka

open ByteMem Cursor SepPath

/-! ## Words -/

/-- The first word of the line is `name`, and `rest` is what follows it. -/
structure FirstWord (line name rest : CStr) : Prop where
  split : ∃ i, line = spaces i ++ (name ++ rest)
  ne_nil : name ≠ []
  word : space ∉ name
  ends : rest = [] ∨ rest.head? = some space

section Words

variable {line name rest : CStr}

theorem takeWhile_wordEnd (h : rest = [] ∨ rest.head? = some space) :
    rest.takeWhile (· != space) = [] ∧ rest.dropWhile (· != space) = rest := by
  cases rest with
  | nil => exact ⟨rfl, rfl⟩
  | cons b rest =>
      obtain rfl : b = space := Option.some.inj (h.resolve_left (List.cons_ne_nil b rest))
      exact ⟨rfl, rfl⟩

theorem FirstWord.skip (h : FirstWord line name rest) : skipSpaces line = name ++ rest := by
  obtain ⟨i, rfl⟩ := h.split
  rw [skipSpaces_spaces, skipSpaces_of_head (head_append_of_notMem h.ne_nil h.word _)]

theorem FirstWord.take (h : FirstWord line name rest) :
    (skipSpaces line).takeWhile (· != space) = name
      ∧ (skipSpaces line).dropWhile (· != space) = rest := by
  obtain ⟨htake, hdrop⟩ := takeWhile_wordEnd h.ends
  rw [h.skip, List.takeWhile_append_of_pos (token_bne h.word),
    List.dropWhile_append_of_pos (token_bne h.word), htake, hdrop, List.append_nil]
  exact ⟨rfl, rfl⟩

theorem spaces_skipSpaces (line : CStr) : ∃ i, line = spaces i ++ skipSpaces line := by
  refine ⟨(line.takeWhile (· == space)).length, ?_⟩
  have hall : line.takeWhile (· == space) = spaces (line.takeWhile (· == space)).length :=
    List.eq_replicate_of_mem fun b hb => by simpa using List.mem_takeWhile_imp hb
  rw [← hall]
  exact List.takeWhile_append_dropWhile.symm

/-- A line that is not blank has a first word. -/
theorem firstWord_exists (h : skipSpaces line ≠ []) :
    FirstWord line ((skipSpaces line).takeWhile (· != space))
      ((skipSpaces line).dropWhile (· != space)) := by
  refine ⟨?_, ?_, fun hin => ?_, ?_⟩
  · rw [List.takeWhile_append_dropWhile]
    exact spaces_skipSpaces line
  · -- the first byte that is no space belongs to the word
    obtain ⟨b, s, hs⟩ := List.exists_cons_of_ne_nil h
    have hb : (b != space) = true := by
      have hhead := List.head?_dropWhile_not (· == space) line
      rw [← skipSpaces, hs] at hhead
      simpa using hhead
    rw [hs, List.takeWhile_cons, if_pos hb]
    exact List.cons_ne_nil _ _
  · simpa using List.mem_takeWhile_imp hin
  · cases hrest : (skipSpaces line).dropWhile (· != space) with
    | nil => exact Or.inl rfl
    | cons b s =>
        have hhead := List.head?_dropWhile_not (· != space) (skipSpaces line)
        rw [hrest] at hhead
        exact Or.inr (congrArg some (by simpa using hhead))

/-- The names in the table are different words. -/
theorem find_command {c : CStr × Command} (hc : c ∈ commands) :
    (commands.find? fun d => d.1.length == c.1.length && d.1 == c.1) = some c := by
  revert c
  decide

theorem FirstWord.handler (h : FirstWord line name rest) {cmd : Command}
    (hcmd : (name, cmd) ∈ commands) : shellExecute line = .handler cmd (skipSpaces rest) := by
  have hne : skipSpaces line ≠ [] := by
    rw [h.skip]
    exact List.append_ne_nil_of_left_ne_nil h.ne_nil rest
  simp only [shellExecute, if_neg hne, h.take.1, h.take.2, find_command hcmd]

theorem FirstWord.unknown (h : FirstWord line name rest) (hno : ∀ c ∈ commands, c.1 ≠ name) :
    shellExecute line = .unknown name := by
  have hne : skipSpaces line ≠ [] := by
    rw [h.skip]
    exact List.append_ne_nil_of_left_ne_nil h.ne_nil rest
  have hfind : (commands.find? fun c => c.1.length == name.length && c.1 == name) = none := by
    rw [List.find?_eq_none]
    intro c hc hmatch
    exact hno c hc (by simpa using (Bool.and_eq_true_iff.mp hmatch).2)
  simp only [shellExecute, if_neg hne, h.take.1, hfind]

/-- What becomes of a line: it is blank, or its first word is in the table, or it is not. -/
theorem shellExecute_cases (line : CStr) :
    (∃ i, line = spaces i) ∧ shellExecute line = .nothing
      ∨ (∃ name rest cmd, FirstWord line name rest ∧ (name, cmd) ∈ commands
        ∧ shellExecute line = .handler cmd (skipSpaces rest))
      ∨ ∃ name rest, FirstWord line name rest ∧ (∀ c ∈ commands, c.1 ≠ name)
        ∧ shellExecute line = .unknown name := by
  by_cases hblank : skipSpaces line = []
  · obtain ⟨i, hi⟩ := spaces_skipSpaces line
    rw [hblank, List.append_nil] at hi
    exact Or.inl ⟨⟨i, hi⟩, by simp only [shellExecute, if_pos hblank]⟩
  · have hword := firstWord_exists hblank
    generalize (skipSpaces line).takeWhile (· != space) = name at hword
    generalize (skipSpaces line).dropWhile (· != space) = rest at hword
    by_cases hknown : ∃ cmd, (name, cmd) ∈ commands
    · obtain ⟨cmd, hcmd⟩ := hknown
      exact Or.inr (Or.inl ⟨name, rest, cmd, hword, hcmd, hword.handler hcmd⟩)
    · have hno : ∀ c ∈ commands, c.1 ≠ name := by
        rintro ⟨_, cmd⟩ hc rfl
        exact hknown ⟨cmd, hc⟩
      exact Or.inr (Or.inr ⟨name, rest, hword, hno, hword.unknown hno⟩)

theorem FirstWord.not_blank (h : FirstWord line name rest) (i : Nat) : line ≠ spaces i := by
  intro hi
  have hskip := h.skip
  rw [hi, ← List.append_nil (spaces i), skipSpaces_spaces] at hskip
  exact List.append_ne_nil_of_left_ne_nil h.ne_nil rest hskip.symm

theorem FirstWord.unique {name' rest' : CStr} (h : FirstWord line name rest)
    (h' : FirstWord line name' rest') : name = name' ∧ rest = rest' :=
  ⟨h.take.1.symm.trans h'.take.1, h.take.2.symm.trans h'.take.2⟩

/-- **Dispatch.** A blank line does nothing; a line whose first word is a name of the table
runs that command on what follows the word and the spaces after it; any other first word is
reported as unknown. -/
theorem shell_dispatch_iff (line : CStr) :
    (shellExecute line = .nothing ↔ ∃ i, line = spaces i)
      ∧ (∀ cmd args, shellExecute line = .handler cmd args ↔
        ∃ name rest, FirstWord line name rest ∧ (name, cmd) ∈ commands ∧ args = skipSpaces rest)
      ∧ ∀ name, shellExecute line = .unknown name ↔
        (∃ rest, FirstWord line name rest) ∧ ∀ c ∈ commands, c.1 ≠ name := by
  refine ⟨⟨fun hx => ?_, ?_⟩, fun cmd args => ⟨fun hx => ?_, ?_⟩, fun name => ⟨fun hx => ?_, ?_⟩⟩
  · rcases shellExecute_cases line with ⟨hblank, -⟩ | ⟨_, _, _, -, -, heq⟩ | ⟨_, _, -, -, heq⟩
    · exact hblank
    · cases hx.symm.trans heq
    · cases hx.symm.trans heq
  · rintro ⟨i, hi⟩
    rcases shellExecute_cases line with ⟨-, heq⟩ | ⟨_, _, _, hword, -⟩ | ⟨_, _, hword, -⟩
    · exact heq
    · exact absurd hi (hword.not_blank i)
    · exact absurd hi (hword.not_blank i)
  · rcases shellExecute_cases line with
      ⟨-, heq⟩ | ⟨name, rest, _, hword, hin, heq⟩ | ⟨_, _, -, -, heq⟩
    · cases hx.symm.trans heq
    · cases hx.symm.trans heq
      exact ⟨name, rest, hword, hin, rfl⟩
    · cases hx.symm.trans heq
  · rintro ⟨name, rest, hword, hin, rfl⟩
    exact hword.handler hin
  · rcases shellExecute_cases line with ⟨-, heq⟩ | ⟨_, _, _, -, -, heq⟩ | ⟨_, rest, hword, hno, heq⟩
    · cases hx.symm.trans heq
    · cases hx.symm.trans heq
    · cases hx.symm.trans heq
      exact ⟨⟨rest, hword⟩, hno⟩
  · rintro ⟨⟨rest, hword⟩, hno⟩
    exact hword.unknown hno

end Words

/-! ## Listings -/

/-- What `ls` prints for an entry of a directory. -/
def entryText (name : CStr) (type : BitVec 32) : CStr := consoleText (entryCalls name type)

/-- What `ls` prints for node `c`. -/
def nodeText (s : Ramfs) (c : Nat) : CStr := entryText (s.nodes c).name (s.nodes c).flags

section Listings

variable {v : Vfs} {kids : Nat → List Nat} {args : CStr} {dir d : Nat}

theorem consoleText_nodes (s : Ramfs) (l : List Nat) :
    consoleText (l.flatMap (nodeCalls s)) = l.flatMap (nodeText s) := by
  rw [consoleText, List.flatMap_assoc]
  rfl

theorem cmdLs_text (h : VfsTree v kids) (hcount : v.fs.count < 2 ^ 32)
    (hres : vfsResolve v (lsPath args) = some d) (hdir : (v.fs.nodes d).isDirectory = true) :
    ∃ calls, cmdLs v args = some calls
      ∧ consoleText calls = (kids d).flatMap (nodeText v.fs) ++ [newline] := by
  refine ⟨_, cmdLs_directory h hcount hres hdir, ?_⟩
  rw [consoleText_append, consoleText_nodes]
  rfl

/-- **Listings.** On a directory of any reachable file system `ls` prints exactly its
children, each of them once, and ends the line. Its 32-bit index has to count them, which it
does as the heap holds fewer than 2^32 nodes. -/
theorem ls_lists_children (h : VfsReachable v) (hcount : v.fs.count < 2 ^ 32)
    (hres : vfsResolve v (lsPath args) = some d) (hdir : (v.fs.nodes d).isDirectory = true) :
    ∃ (calls : Console) (cs : List Nat), cmdLs v args = some calls ∧ cs.Nodup
      ∧ (∀ c, c ∈ cs ↔ c < v.fs.count ∧ (v.fs.nodes c).parent = some d)
      ∧ consoleText calls = cs.flatMap (nodeText v.fs) ++ [newline] := by
  obtain ⟨kids, ht⟩ := h.sound.tree
  have hlt := ht.resolve_lt hres
  obtain ⟨calls, hls, htext⟩ := cmdLs_text ht hcount hres hdir
  refine ⟨calls, kids d, hls, ht.tree.nodup hlt, fun c => ⟨fun hc => ?_, ?_⟩, htext⟩
  · exact (ht.tree.kid d hlt c hc).2
  · rintro ⟨hc, hparent⟩
    exact ((ht.parent_iff hc).mp hparent).2

/-- `ls` in the root directory. -/
theorem ls_lists_children_root :
    ∃ (calls : Console) (cs : List Nat), cmdLs fullBoot [] = some calls ∧ cs.Nodup
      ∧ (∀ c, c ∈ cs ↔ c < fullBoot.fs.count ∧ (fullBoot.fs.nodes c).parent = some 0)
      ∧ consoleText calls = cs.flatMap (nodeText fullBoot.fs) ++ [newline] :=
  ls_lists_children fullBoot_reachable (by decide +kernel) (by decide +kernel) (by decide +kernel)

/-- An entry of the tree looks the same after a creation. -/
theorem Created.nodeText_old {s s' : Ramfs} {name : CStr} {flags : BitVec 32}
    {file : Option RamfsFile} (hc : Created s s' dir name flags file) {c : Nat} (h : c < s.count) :
    nodeText s' c = nodeText s c := by
  obtain ⟨p, hp, -⟩ := hc.old h
  rw [nodeText, hp, nodeText]

/-- The listing of the directory gets a new first entry, the others stay. -/
theorem NewLeaf.listings {a : NodeAlloc} {path base rest : CStr} {flags : BitVec 32} {fs : Ramfs}
    (ht : VfsTree v kids) (hnew : NewLeaf v a path flags fs base rest dir) (hd : d < v.fs.count) :
    (addKid v.fs kids dir d).flatMap (nodeText fs)
      = (if d = dir then entryText (rest.take (VFS_NAME_MAX - 1)) flags else [])
        ++ (kids d).flatMap (nodeText v.fs) := by
  have hcut : (rest.take (VFS_NAME_MAX - 1)).take (VFS_NAME_MAX - 1)
      = rest.take (VFS_NAME_MAX - 1) := by
    rw [List.take_take, Nat.min_self]
  have hmade : nodeText fs v.fs.count = entryText (rest.take (VFS_NAME_MAX - 1)) flags := by
    rw [nodeText, hnew.made.made, hcut]
  have hold : ∀ c ∈ kids d, nodeText fs c = nodeText v.fs c := fun c hc =>
    hnew.made.nodeText_old (ht.tree.kid d hd c hc).2.1
  by_cases hdir : d = dir
  · subst hdir
    rw [addKid_self, List.flatMap_cons, hmade, if_pos rfl, List.flatMap_congr hold]
  · rw [addKid_of_ne hdir (Nat.ne_of_lt hd), if_neg hdir, List.nil_append,
      List.flatMap_congr hold]

/-- What every listing shows after a creation, compared with before. -/
structure ListsNew (v v' : Vfs) (dir : Nat) (name : CStr) (flags : BitVec 32) : Prop where
  listings : ∀ args d, vfsResolve v (lsPath args) = some d →
    (v.fs.nodes d).isDirectory = true →
    ∃ before after, cmdLs v args = some before ∧ cmdLs v' args = some after
      ∧ consoleText after = (if d = dir then entryText name flags else []) ++ consoleText before

theorem NewLeaf.listsNew {a : NodeAlloc} {path base rest : CStr} {flags : BitVec 32} {fs : Ramfs}
    (ht : VfsTree v kids) (hnew : NewLeaf v a path flags fs base rest dir)
    (hcount : v.fs.count + 1 < 2 ^ 32) :
    ListsNew v { v with fs := fs } dir (rest.take (VFS_NAME_MAX - 1)) flags := by
  refine ⟨fun args d hres hdir => ?_⟩
  have hd := ht.resolve_lt hres
  have htree := ht.tree.create hnew.lt hnew.made hnew.directory hnew.good hnew.free
  have hroot : v.rootNode = if fs.count = 0 then none else some 0 := by
    rw [ht.root, hnew.made.count, if_neg (by omega), if_neg (Nat.succ_ne_zero _)]
  have ht' : VfsTree { v with fs := fs } (addKid v.fs kids dir) := ⟨htree, hroot⟩
  obtain ⟨p, hp, -⟩ := hnew.made.old hd
  have hdir' : (fs.nodes d).isDirectory = true := by
    rw [hp]
    exact hdir
  obtain ⟨before, hbefore, htext⟩ := cmdLs_text ht (by omega) hres hdir
  obtain ⟨after, hafter, htext'⟩ := cmdLs_text ht' (by rw [hnew.made.count]; exact hcount)
    ((hnew.resolve_iff ht).mpr (Or.inl hres)) hdir'
  refine ⟨before, after, hbefore, hafter, ?_⟩
  rw [htext', htext, hnew.listings ht hd, List.append_assoc]

theorem complaint_prints (what : String) (path : CStr) :
    consoleText (complaint what path) ≠ [] := by
  have hlast : consoleText (complaint what path)
      = (puts what).bytes ++ ((VgaCall.puts (some path)).bytes ++ [newline]) := rfl
  rw [hlast, ← List.append_assoc]
  exact List.append_ne_nil_of_right_ne_nil _ (List.cons_ne_nil _ _)

/-- A creation by a command that printed nothing. -/
structure QuietCreate (v : Vfs) (path : CStr) (flags : BitVec 32) (v' : Vfs) : Prop where
  made : ∃ a fs base rest dir, NewLeaf v a path flags fs base rest dir ∧ v' = { v with fs := fs }

theorem cmdMkdir_quiet (ht : VfsTree v kids) {a : NodeAlloc}
    (hquiet : consoleText (cmdMkdir v a args).1 = []) :
    QuietCreate v (skipSpaces args) VFS_DIRECTORY (cmdMkdir v a args).2 := by
  simp only [cmdMkdir] at hquiet ⊢
  split at hquiet
  · exact absurd hquiet (show consoleText [puts "Usage: mkdir <path>\n"] ≠ [] by decide)
  · next hpath =>
      rw [if_neg hpath]
      rcases ht.create_cases a (skipSpaces args) VFS_DIRECTORY with
        hc | ⟨fs, base, rest, dir, hnew⟩
      · simp only [vfsMkdir, hc] at hquiet
        exact absurd hquiet (complaint_prints _ _)
      · exact ⟨a, fs, base, rest, dir, hnew, by simp only [vfsMkdir, hnew.call]⟩

theorem cmdTouch_quiet (ht : VfsTree v kids) {a : NodeAlloc}
    (hquiet : consoleText (cmdTouch v a args).1 = []) :
    QuietCreate v (skipSpaces args) VFS_FILE (cmdTouch v a args).2 := by
  simp only [cmdTouch] at hquiet ⊢
  split at hquiet
  · exact absurd hquiet (show consoleText [puts "Usage: touch <path>\n"] ≠ [] by decide)
  · next hpath =>
      rw [if_neg hpath]
      rcases ht.create_cases a (skipSpaces args) VFS_FILE with hc | ⟨fs, base, rest, dir, hnew⟩
      · simp only [vfsCreateFile, hc] at hquiet
        exact absurd hquiet (complaint_prints _ _)
      · exact ⟨a, fs, base, rest, dir, hnew, by simp only [vfsCreateFile, hnew.call]⟩

/-- **New entries.** After a `mkdir` or `touch` that printed nothing, the listing of the
directory in its path starts with the new entry and goes on as before, and every other
listing is what it was (with fewer nodes than the index of `ls` counts). -/
theorem create_then_ls {m m' : Machine} {o : Outcome} {line : CStr} {calls : Console}
    {cmd : Command} {flags : BitVec 32}
    (hcmd : cmd = .mkdir ∧ flags = VFS_DIRECTORY ∨ cmd = .touch ∧ flags = VFS_FILE)
    (h : VfsReachable m.vfs) (hcount : m.vfs.fs.count + 1 < 2 ^ 32)
    (hx : shellExecute line = .handler cmd args)
    (hrun : executeLine m o line = some (calls, m')) (hquiet : consoleText calls = []) :
    ∃ base rest dir, skipSpaces args = base ++ slash :: rest ∧ slash ∉ rest
      ∧ vfsResolve m.vfs base = some dir
      ∧ ListsNew m.vfs m'.vfs dir (rest.take (VFS_NAME_MAX - 1)) flags := by
  obtain ⟨kids, ht⟩ := h.sound.tree
  rw [executeLine, hx] at hrun
  have hmade : QuietCreate m.vfs (skipSpaces args) flags m'.vfs := by
    rcases hcmd with ⟨rfl, rfl⟩ | ⟨rfl, rfl⟩
    · cases hrun
      exact cmdMkdir_quiet ht hquiet
    · cases hrun
      exact cmdTouch_quiet ht hquiet
  obtain ⟨a, fs, base, rest, dir, hnew, hv⟩ := hmade.made
  refine ⟨base, rest, dir, hnew.split, hnew.noSlash, hnew.parent, ?_⟩
  rw [hv]
  exact hnew.listsNew ht hcount

/-- `touch /f`. -/
theorem create_then_ls_touch :
    ∃ calls m', executeLine bootMachine plentyOutcome (ascii "touch /f".toList) = some (calls, m')
      ∧ consoleText calls = [] ∧ ∃ base rest dir, ascii "/f".toList = base ++ slash :: rest
        ∧ slash ∉ rest ∧ vfsResolve fullBoot base = some dir
        ∧ ListsNew fullBoot m'.vfs dir (rest.take (VFS_NAME_MAX - 1)) VFS_FILE := by
  have hrun : (executeLine bootMachine plentyOutcome (ascii "touch /f".toList)).map
      (fun r => consoleText r.1) = some [] := by
    decide +kernel
  have hx : shellExecute (ascii "touch /f".toList) = .handler .touch (ascii "/f".toList) := by
    decide +kernel
  obtain ⟨⟨calls, m'⟩, hrun, hquiet⟩ := Option.map_eq_some_iff.mp hrun
  obtain ⟨base, rest, dir, hsplit, hleaf, hparent, hlists⟩ := create_then_ls (Or.inr ⟨rfl, rfl⟩)
    fullBoot_reachable (by decide +kernel) hx hrun hquiet
  exact ⟨calls, m', hrun, hquiet, base, rest, dir, hsplit, hleaf, hparent, hlists⟩

end Listings

/-! ## Files -/

/-- The line that shows `path`. -/
def catLine (i j : Nat) (path : CStr) : CStr :=
  spaces i ++ (ascii "cat".toList ++ (spaces (j + 1) ++ path))

/-- Lines executed one after the other, none of which writes to the node of `path`. -/
inductive LinesApart (path : CStr) (m : Machine) : Machine → Prop
  | start : LinesApart path m m
  | line {m₁ m₂ o line calls} : LinesApart path m m₁ → line.length < CMD_MAX →
      (∀ n, vfsResolve m₁.vfs path = some n → ¬WritesTo m₁.vfs line n) →
      executeLine m₁ o line = some (calls, m₂) → LinesApart path m m₂

section Files

variable {m m₁ m₂ : Machine} {v v' : Vfs} {o : Outcome} {path text line args : CStr}
  {calls : Console} {n : Nat}

theorem shellExecute_catLine (i j : Nat) (hne : path ≠ []) (hspace : space ∉ path) :
    shellExecute (catLine i j path) = .handler .cat path := by
  have hword : FirstWord (catLine i j path) (ascii "cat".toList) (spaces (j + 1) ++ path) :=
    ⟨⟨i, rfl⟩, by decide, by decide, Or.inr rfl⟩
  have hskip := head_append_of_notMem hne hspace []
  rw [List.append_nil] at hskip
  rw [hword.handler (show (ascii "cat".toList, Command.cat) ∈ commands by decide),
    skipSpaces_spaces, skipSpaces_of_head hskip]

/-- **`cat`.** With a path it shows the file, in pieces of 127 bytes that end at a zero byte;
it prints nothing for a directory and complains if there is no such node or no free
descriptor. The file system and the open descriptors are as before, and a file without zero
bytes is shown as it is. -/
theorem cat_shows_file (h : VfsReachable m.vfs) (o : Outcome)
    (hx : shellExecute line = .handler .cat args) (hpath : skipSpaces args ≠ []) :
    ∃ calls m', executeLine m o line = some (calls, m')
      ∧ CatResult m.vfs (skipSpaces args) calls m'.vfs
      ∧ ∀ n, vfsResolve m.vfs (skipSpaces args) = some n → allocFd m.vfs ≠ none →
        Readable m.vfs.fs n → 0#8 ∉ fileContent m.vfs.fs n →
        consoleText calls = fileContent m.vfs.fs n := by
  obtain ⟨calls, v', hcat, hresult⟩ := cmdCat_result h o.stack hpath
  refine ⟨calls, { m with vfs := v' }, ?_, hresult, fun n hres hfd hread hzero => ?_⟩
  · rw [executeLine, hx]
    dsimp only
    rw [runCommand, hcat, Option.map_some]
  · rw [hresult.shows n hres hfd hread, catText_eq hzero]

/-- `cat /etc/motd` shows the message that `ramfs_init` leaves there. -/
theorem cat_shows_file_motd :
    ∃ calls m', executeLine bootMachine plentyOutcome (ascii "cat /etc/motd".toList)
        = some (calls, m')
      ∧ CatResult fullBoot (ascii "/etc/motd".toList) calls m'.vfs
      ∧ consoleText calls = ascii "Welcome to MatryoshkaOS!\n".toList := by
  have hx : shellExecute (ascii "cat /etc/motd".toList)
      = .handler .cat (ascii "/etc/motd".toList) := by decide +kernel
  obtain ⟨calls, m', hrun, hresult, hshow⟩ := cat_shows_file (show VfsReachable bootMachine.vfs from
    fullBoot_reachable) plentyOutcome hx (by decide)
  have htext := hshow 4 (by decide +kernel) (by decide +kernel) (by decide +kernel)
    (by decide +kernel)
  refine ⟨calls, m', hrun, hresult, htext.trans ?_⟩
  decide +kernel

/-- A path that has a meaning keeps it. -/
theorem VfsTree.call_resolve {kids : Nat → List Nat} (ht : VfsTree v kids) {c : VfsCall} {r : Int}
    (hcall : vfsCall v c = some (r, v')) (hres : vfsResolve v path = some n) :
    vfsResolve v' path = some n := by
  obtain ⟨w, hw, hs, hroot⟩ := vfsCall_tree hcall
  rcases hw with rfl | ⟨a, p, flags, rfl⟩
  · rw [ht.resolve_same hs hroot, hres]
  · obtain ⟨kids', ht'⟩ := ht.create a p flags
    rw [ht'.resolve_same hs hroot]
    rcases ht.create_cases a p flags with hc | ⟨fs, base, rest, dir, hnew⟩
    · rw [hc, hres]
    · rw [hnew.call]
      exact (hnew.resolve_iff ht).mpr (Or.inl hres)

theorem Meanwhile.resolve {Ok : VfsCall → Prop} {k : Nat} (hs : FsSound v)
    (hm : Meanwhile k Ok v v') (hres : vfsResolve v path = some n) :
    FsSound v' ∧ vfsResolve v' path = some n := by
  induction hm with
  | refl => exact ⟨hs, hres⟩
  | call _ _ _ hwrap hcall ih =>
      obtain ⟨kids, ht⟩ := ih.1.tree
      exact ⟨ih.1.call hwrap hcall, ht.call_resolve hcall ih.2⟩

theorem SameFds.allocFd (h : SameFds v v') : allocFd v' = allocFd v := by
  have hfree : ∀ fd, (!(v'.fdTable fd).used) = !(v.fdTable fd).used := fun fd => by
    rw [(h fd).1]
  simp only [Matryoshka.allocFd, hfree]

/-- `path` names a file that holds `l`, and a descriptor is free. -/
structure ShowsAs (v : Vfs) (path l : CStr) (n : Nat) : Prop where
  reachable : VfsReachable v
  resolves : vfsResolve v path = some n
  holds : FileHolds v n l
  readable : Readable v.fs n
  free : Matryoshka.allocFd v ≠ none

theorem ShowsAs.after_line {l : CStr} (h : ShowsAs m₁.vfs path l n) (hline : line.length < CMD_MAX)
    (hapart : ¬WritesTo m₁.vfs line n) (hrun : executeLine m₁ o line = some (calls, m₂)) :
    ShowsAs m₂.vfs path l n := by
  have hkept := executeLine_kept h.reachable (Nat.le_of_lt hline) hrun
  have hmean := hkept.files n h.holds.lt hapart
  obtain ⟨hholds, hread⟩ := h.holds.meanwhile hmean
  refine ⟨hkept.reachable, (hmean.resolve h.reachable.sound h.resolves).2, hholds,
    hread h.readable, ?_⟩
  rw [hkept.fds.allocFd]
  exact h.free

theorem ShowsAs.after_lines {l : CStr} (h : ShowsAs m.vfs path l n) (hs : LinesApart path m m₁) :
    ShowsAs m₁.vfs path l n := by
  induction hs with
  | start => exact h
  | line _ hline hapart hrun ih => exact ih.after_line hline (hapart n ih.resolves) hrun

/-- What a silent `write` leaves. -/
theorem write_showsAs (h : VfsReachable m.vfs) (i j k : Nat) (hpath : path ≠ [])
    (hspace : space ∉ path) (htext : text ≠ []) (hhead : text.head? ≠ some space)
    (hline : (writeLine i j k path text).length < CMD_MAX) (hlen : path.length ≤ pathMax)
    (hfits : WriteFits m.vfs o.allocs path text)
    (hrun : executeLine m o (writeLine i j k path text) = some (calls, m₁))
    (hquiet : consoleText calls = []) :
    ∃ n, ShowsAs m₁.vfs path (text ++ [newline]) n := by
  have hheap := heapInitial_eq
  have hmax : CMD_MAX = 256 := rfl
  have hsmall : 2 * (text.length + 1) ≤ HEAP_INITIAL := by
    simp only [writeLine, spaces, List.length_append, List.length_replicate] at hline
    omega
  have hcreat : (VFS_O_WRONLY ||| VFS_O_CREAT ||| VFS_O_TRUNC) &&& VFS_O_CREAT ≠ 0#32 := by decide
  rw [executeLine, shellExecute_writeLine i j k hpath hspace text] at hrun
  dsimp only at hrun
  rw [runCommand, cmdWrite_eq m.vfs o.allocs k hpath hspace htext hhead, textAfter, if_pos hlen,
    List.take_of_length_le hlen] at hrun
  obtain ⟨out, v', hcall, hout⟩ := writeFile_cases h.sound o.allocs path hsmall
  obtain ⟨out', v'', hcall', hresult⟩ := writeFile_result h o.allocs path text hsmall
  cases hcall.symm.trans hcall'
  rw [hcall, Option.map_some] at hrun
  cases hrun
  have hsilent : out = [] ∧ Matryoshka.allocFd m.vfs ≠ none := by
    refine hresult.prints.resolve_left ?_
    rintro rfl
    have hprints : ∀ rest : CStr, consoleText (writeCalls (0x77#8 :: rest)) ≠ [] := by
      intro rest
      rw [writeCalls, consoleText_append]
      exact List.append_ne_nil_of_right_ne_nil _ (List.cons_ne_nil _ _)
    exact hprints _ hquiet
  obtain ⟨n, hnode, hwrote⟩ := hout hsilent.1
  obtain ⟨kids, ht⟩ := h.sound.tree
  obtain ⟨n', hres, hreads⟩ :=
    (SilentWrite.faithful_whole ht hcreat hnode hwrote htext hlen).mpr hfits
  obtain ⟨kids', ht'⟩ := hresult.kept.reachable.sound.tree
  have hlt := ht'.resolve_lt hres
  obtain ⟨hread, hcontent⟩ := (readsAs_iff (hresult.kept.reachable.sound.files n' hlt)).mp hreads
  refine ⟨n', hresult.kept.reachable, hres, ⟨hresult.kept.reachable.sound, hlt, hcontent⟩,
    hread, ?_⟩
  rw [hresult.kept.fds.allocFd]
  exact hsilent.2

/-- **Write, then read.** A `write` that fits and prints nothing, then any lines that do not
write to the same node, then `cat`: it shows the text and a newline. -/
theorem write_then_cat (h : VfsReachable m.vfs) (i j k : Nat) (hpath : path ≠ [])
    (hspace : space ∉ path) (htext : text ≠ []) (hhead : text.head? ≠ some space)
    (hzero : 0#8 ∉ text) (hline : (writeLine i j k path text).length < CMD_MAX)
    (hlen : path.length ≤ pathMax) (hfits : WriteFits m.vfs o.allocs path text)
    (hrun : executeLine m o (writeLine i j k path text) = some (calls, m₁))
    (hquiet : consoleText calls = []) (hlines : LinesApart path m₁ m₂) (i' j' : Nat)
    (o' : Outcome) :
    ∃ calls' m₃, executeLine m₂ o' (catLine i' j' path) = some (calls', m₃)
      ∧ consoleText calls' = text ++ [newline] := by
  obtain ⟨n, hshows⟩ := write_showsAs h i j k hpath hspace htext hhead hline hlen hfits hrun hquiet
  have hshows' := hshows.after_lines hlines
  have hnoskip := head_append_of_notMem hpath hspace []
  rw [List.append_nil] at hnoskip
  have hskip : skipSpaces path = path := skipSpaces_of_head hnoskip
  have hsome : skipSpaces path ≠ [] := by
    rw [hskip]
    exact hpath
  obtain ⟨calls', v', hcat, hresult⟩ := cmdCat_result hshows'.reachable o'.stack hsome
  rw [hskip] at hresult
  refine ⟨calls', { m₂ with vfs := v' }, ?_, ?_⟩
  · rw [executeLine, shellExecute_catLine i' j' hpath hspace]
    dsimp only
    rw [runCommand, hcat, Option.map_some]
  · rw [hresult.shows n hshows'.resolves hshows'.free hshows'.readable, hshows'.holds.content,
      catText_eq]
    rw [List.mem_append, not_or]
    exact ⟨hzero, by decide⟩

/-- `write /f hi`, then `cat /f`. -/
theorem write_then_cat_hi :
    ∃ m₁ calls m₂, LinesApart (ascii "/f".toList) m₁ m₁
      ∧ executeLine m₁ plentyOutcome (ascii "cat /f".toList) = some (calls, m₂)
      ∧ consoleText calls = ascii "hi\n".toList := by
  have hwrite : (executeLine bootMachine plentyOutcome
      (writeLine 0 0 0 (ascii "/f".toList) (ascii "hi".toList))).map
      (fun r => consoleText r.1) = some [] := by
    decide +kernel
  have hnone : vfsResolve fullBoot (ascii "/f".toList) = none := by decide +kernel
  have hfits : WriteFits bootMachine.vfs plentyOutcome.allocs (ascii "/f".toList)
      (ascii "hi".toList) := by
    rw [WriteFits, if_pos (by decide), show bootMachine.vfs = fullBoot from rfl, hnone]
    exact ⟨by decide, rfl, Or.inr rfl, Or.inr rfl⟩
  obtain ⟨⟨calls, m₁⟩, hrun, hquiet⟩ := Option.map_eq_some_iff.mp hwrite
  obtain ⟨calls', m₂, hcat, htext⟩ := write_then_cat fullBoot_reachable 0 0 0 (by decide)
    (by decide) (by decide) (by decide) (by decide) (by decide) (by decide) hfits hrun hquiet
    .start 0 0 plentyOutcome
  exact ⟨m₁, calls', m₂, .start, hcat, htext⟩

end Files

end Matryoshka
