import Mathlib.Data.List.Forall2
import Matryoshka.ShellRun
import Matryoshka.StringCmp

/-!
# The shell and the file system over memory

The other modules take strings for lists of bytes. Here `shell_execute`
(`kernel/shell.c`) and `ramfs_lookup` (`kernel/fs/ramfs.c`) are the loops
over pointers of the source, on the line buffer, the names of the command
table and the nodes in memory.

`shell_execute_refines` and `ramfs_lookup_refines` say that they compute
what the functions on lists do: the pointers they return are at the strings
and nodes that those speak of, and every loop ends.
-/

namespace Matryoshka

open ByteMem LinkedList

/-! ## Moving a pointer over a string -/

/-- `while (P(*s)) s++;` -/
def whileChar (P : BitVec 8 → Bool) (m : Mem) (s : Nat) : Nat ⊕ Nat :=
  if P (m s) then .inr (ptrNext s) else .inl s

/-- The loop stops behind the characters that satisfy the condition, at the latest at the
NUL. -/
theorem whileChar_exact {P Q : BitVec 8 → Bool} {m : Mem} (hzero : P 0#8 = false)
    (hsame : ∀ c, c ≠ 0#8 → P c = Q c) :
    ∀ {l : CStr} {p : Nat}, HoldsStr m p l →
      Loop.run (whileChar P m) (l.length + 1) p = some (p + (l.takeWhile Q).length)
        ∧ HoldsStr m (p + (l.takeWhile Q).length) (l.dropWhile Q) := by
  intro l
  induction l with
  | nil =>
      intro p h
      have hstop : whileChar P m p = .inl p := by
        rw [whileChar, h.2, hzero]
        rfl
      exact ⟨Loop.run_inl hstop, h⟩
  | cons c l ih =>
      intro p h
      have hc : P (m p) = Q c := by
        rw [h.1]
        exact hsame c h.2.1
      rw [List.takeWhile_cons, List.dropWhile_cons]
      cases hq : Q c with
      | false =>
          have hstop : whileChar P m p = .inl p := by
            rw [whileChar, hc, hq]
            rfl
          exact ⟨Loop.run_inl hstop, h⟩
      | true =>
          have hgo : whileChar P m p = .inr (p + 1) := by
            rw [whileChar, hc, hq, h.next]
            rfl
          obtain ⟨hrun, hrest⟩ := ih h.2.2
          rw [Nat.add_right_comm, Nat.add_assoc] at hrun hrest
          exact ⟨(Loop.run_inr hgo).trans hrun, hrest⟩

theorem whileChar_run {P Q : BitVec 8 → Bool} {m : Mem} (hzero : P 0#8 = false)
    (hsame : ∀ c, c ≠ 0#8 → P c = Q c) {l : CStr} {p n : Nat} (h : HoldsStr m p l)
    (hn : l.length < n) :
    Loop.run (whileChar P m) n p = some (p + (l.takeWhile Q).length)
      ∧ HoldsStr m (p + (l.takeWhile Q).length) (l.dropWhile Q) := by
  obtain ⟨hrun, hrest⟩ := whileChar_exact hzero hsame h
  exact ⟨Loop.run_mono hrun hn, hrest⟩

/-! ## `shell_execute` -/

/-- A row of `commands[]`: where the name is, and the handler. -/
structure CmdRow where
  name : Nat
  handler : Command

/-- The loop over `commands[]`; the outer `none` if a call in it does not return. -/
def findCommand (rounds : Nat) (m : Mem) (start len : Nat) :
    List CmdRow → Option (Option Command)
  | [] => some none
  | row :: rows =>
      match strlen rounds m row.name with
      | none => none
      | some n =>
          if n = len ∧ strncmp m row.name start len = 0 then some (some row.handler)
          else findCommand rounds m start len rows

/-- What `shell_execute` does, with pointers. -/
inductive DispatchAt where
  | nothing
  | handler (cmd : Command) (args : Nat)
  | unknown (start len : Nat)

/-- `shell_execute` on the line at `lineBuf`, with at most `rounds` rounds of each loop. -/
def shellExecuteAt (rounds : Nat) (m : Mem) (rows : List CmdRow) (lineBuf : Nat) :
    Option DispatchAt :=
  match Loop.run (whileChar (· == space) m) rounds lineBuf with
  | none => none
  | some start =>
      if m start = 0#8 then some .nothing
      else
        match Loop.run (whileChar (fun c => c != 0#8 && c != space) m) rounds start with
        | none => none
        | some p =>
            let len := u32 (p + 2 ^ 32 - start)
            match Loop.run (whileChar (· == space) m) rounds p with
            | none => none
            | some args =>
                match findCommand rounds m start len rows with
                | none => none
                | some (some cmd) => some (.handler cmd args)
                | some none => some (.unknown start len)

/-- The pointers are at the strings of the list model. -/
def DispatchAt.Means (m : Mem) : DispatchAt → Dispatch → Prop
  | .nothing, .nothing => True
  | .handler cmd args, .handler cmd' l => cmd = cmd' ∧ HoldsStr m args l
  | .unknown start len, .unknown name => bytesAt m start len = name
  | _, _ => False

/-- The table of the source in memory. -/
def TableAt (m : Mem) (rows : List CmdRow) : Prop :=
  List.Forall₂ (fun row c => HoldsStr m row.name c.1 ∧ row.handler = c.2) rows commands

section Dispatch

variable {m : Mem} {rounds start : Nat}

theorem strncmp_whole_iff {a : Nat} {x name rest : CStr} (ha : HoldsStr m a x)
    (hs : HoldsStr m start (name ++ rest)) (hlen : x.length = name.length) :
    strncmp m a start name.length = 0 ↔ x = name := by
  have hx : ∀ c ∈ x, c ≠ 0#8 := ha.nonzero
  have hname : ∀ c ∈ name, c ≠ 0#8 := fun c hc => hs.nonzero c (List.mem_append_left rest hc)
  rw [strncmp_eq ha hs, List.take_left, List.take_of_length_le (Nat.le_of_eq hlen)]
  exact strDiff_eq_zero_iff hx hname

theorem findCommand_eq {rows : List CmdRow} {cmds : List (CStr × Command)} {name rest : CStr}
    (hrows : List.Forall₂ (fun row c => HoldsStr m row.name c.1 ∧ row.handler = c.2) rows cmds)
    (hshort : ∀ c ∈ cmds, c.1.length < rounds) (hs : HoldsStr m start (name ++ rest)) :
    findCommand rounds m start name.length rows
      = some ((cmds.find? fun c => c.1.length == name.length && c.1 == name).map (·.2)) := by
  induction hrows with
  | nil => rfl
  | @cons row c rows cmds hrow hrows ih =>
      obtain ⟨hheld, hhandler⟩ := hrow
      have hlen := strlen_run hheld (hshort c List.mem_cons_self)
      have hrest := ih fun d hd => hshort d (List.mem_cons_of_mem c hd)
      rw [findCommand, hlen, List.find?_cons]
      dsimp only
      by_cases hname : c.1 = name
      · have hzero := (strncmp_whole_iff hheld hs (congrArg List.length hname)).mpr hname
        rw [if_pos ⟨congrArg List.length hname, hzero⟩, hname, beq_self_eq_true, beq_self_eq_true,
          hhandler]
        rfl
      · have hno : ¬(c.1.length = name.length ∧ strncmp m row.name start name.length = 0) := by
          rintro ⟨heq, hzero⟩
          exact hname ((strncmp_whole_iff hheld hs heq).mp hzero)
        rw [if_neg hno, hrest, beq_eq_false_iff_ne.mpr hname, Bool.and_false]

theorem commands_short : ∀ c ∈ commands, c.1.length < CMD_MAX := by decide

/-- A line in memory is dispatched like the list of its bytes. -/
theorem shellExecuteAt_eq {rows : List CmdRow} {buf : Nat} {line : CStr}
    (hline : HoldsStr m buf line) (htable : TableAt m rows) (hlen : line.length < rounds)
    (hrounds : CMD_MAX ≤ rounds) :
    ∃ d, shellExecuteAt rounds m rows buf = some d ∧ d.Means m (shellExecute line) := by
  obtain ⟨hskip, hstart⟩ := whileChar_run (P := (· == space)) (Q := (· == space)) (by decide)
    (fun _ _ => rfl) hline hlen
  generalize buf + (line.takeWhile (· == space)).length = start at hskip hstart
  replace hstart : HoldsStr m start (skipSpaces line) := hstart
  have hshort : (skipSpaces line).length < rounds :=
    Nat.lt_of_le_of_lt (List.dropWhile_suffix _).length_le hlen
  rw [shellExecuteAt, hskip, shellExecute]
  dsimp only
  generalize skipSpaces line = l at hstart hshort ⊢
  by_cases hnil : l = []
  · rw [if_pos (hstart.head_eq_zero_iff.mpr hnil), if_pos hnil]
    exact ⟨.nothing, rfl, trivial⟩
  · have hword : ∀ c : BitVec 8, c ≠ 0#8 → (c != 0#8 && c != space) = (c != space) := by
      intro c hc
      rw [bne_iff_ne.mpr hc, Bool.true_and]
    obtain ⟨hrun, hend⟩ := whileChar_run (P := fun c => c != 0#8 && c != space)
      (Q := (· != space)) (by decide) hword hstart hshort
    obtain ⟨hargs, hheld⟩ := whileChar_run (P := (· == space)) (Q := (· == space)) (by decide)
      (fun _ _ => rfl) hend (Nat.lt_of_le_of_lt (List.dropWhile_suffix _).length_le hshort)
    have hsplit : HoldsStr m start (l.takeWhile (· != space) ++ l.dropWhile (· != space)) := by
      rw [List.takeWhile_append_dropWhile]
      exact hstart
    have hfind := findCommand_eq htable
      (fun c hc => Nat.lt_of_lt_of_le (commands_short c hc) hrounds) hsplit
    have hcount : u32 (start + (l.takeWhile (· != space)).length + 2 ^ 32 - start)
        = (l.takeWhile (· != space)).length := by
      have hinside := hsplit.inside
      rw [List.length_append] at hinside
      rw [Nat.add_assoc, Nat.add_sub_cancel_left, u32, Nat.add_mod_right]
      exact Nat.mod_eq_of_lt (by omega)
    rw [if_neg fun hzero => hnil (hstart.head_eq_zero_iff.mp hzero), if_neg hnil]
    simp only [hrun, hargs, hcount, hfind]
    cases commands.find? fun c => c.1.length == (l.takeWhile (· != space)).length
        && c.1 == l.takeWhile (· != space) with
    | none => exact ⟨.unknown _ _, rfl, hsplit.bytes⟩
    | some c => exact ⟨.handler _ _, rfl, rfl, hheld⟩

end Dispatch

/-! ## The buffer that `shell_readline` leaves -/

section Readline

variable {e e' : LineEdit} {input rest : CStr}

theorem readLoop_terminated (h : readLoop e input = (e', some rest)) :
    e'.lineBuf e'.lineLen = 0#8 := by
  induction input generalizing e with
  | nil => cases h
  | cons c input ih =>
      rw [readLoop] at h
      split at h
      · cases h
        exact store8_self ..
      · exact ih h

/-- The buffer as an array in memory holds the line. -/
theorem shellReadline_holds {m : Mem} {buf : Nat} (h : shellReadline e input = (e', some rest))
    (hbuf : buf + CMD_MAX ≤ 2 ^ 32) (hmem : ∀ i < CMD_MAX, m (buf + i) = e'.lineBuf i) :
    HoldsStr m buf (lineOf e') := by
  obtain ⟨hlen, hprint⟩ := shellReadline_line h
  rw [lineOf, bytesAt_length] at hlen
  have hbytes : bytesAt m buf e'.lineLen = lineOf e' := by
    refine List.map_congr_left fun i hi => ?_
    rw [Nat.zero_add]
    exact hmem i (Nat.lt_trans (List.mem_range.mp hi) hlen)
  have hstr : StrAt m buf e'.lineLen := by
    refine ⟨?_, fun i hi hzero => ?_, ?_⟩
    · omega
    · -- a printable character is not zero
      have hmemb : m (buf + i) ∈ lineOf e' := by
        rw [← hbytes]
        exact List.mem_map.mpr ⟨i, List.mem_range.mpr hi, rfl⟩
      have hp := hprint _ hmemb
      rw [hzero] at hp
      exact absurd hp (by decide)
    · rw [hmem _ hlen]
      exact readLoop_terminated h
  rw [← hbytes]
  exact hstr.holds

end Readline

/-- **Dispatch over memory.** Whatever was typed, on the buffer that `shell_readline` leaves
and with the names of the commands anywhere in memory, every loop of `shell_execute` ends
within 256 rounds; it calls the handler of the list model with a pointer to the arguments of
the list model, or prints the word that is no command, or does nothing. -/
theorem shell_execute_refines {e e' : LineEdit} {input rest : CStr}
    (hread : shellReadline e input = (e', some rest)) {m : Mem} {buf : Nat}
    (hbuf : buf + CMD_MAX ≤ 2 ^ 32) (hmem : ∀ i < CMD_MAX, m (buf + i) = e'.lineBuf i)
    {rows : List CmdRow} (htable : TableAt m rows) :
    ∃ d, shellExecuteAt CMD_MAX m rows buf = some d ∧ d.Means m (shellExecute (lineOf e')) :=
  shellExecuteAt_eq (shellReadline_holds hread hbuf hmem) htable (shellReadline_line hread).1
    (Nat.le_refl _)

/-- The editor after `ls` and a newline. -/
def lsEdit : LineEdit := (shellReadline bootEdit (ascii "ls\n".toList)).1

/-- The line buffer at 0, and behind it sixteen bytes for each name of the table. -/
def lsMem : Mem := fun a =>
  if a < CMD_MAX then lsEdit.lineBuf a
  else ((commands.map (·.1)).getD ((a - CMD_MAX) / 16) []).getD ((a - CMD_MAX) % 16) 0#8

def lsRows : List CmdRow := commands.zipIdx.map fun c => ⟨CMD_MAX + 16 * c.2, c.1.2⟩

theorem shell_execute_refines_ls :
    ∃ args, shellExecuteAt CMD_MAX lsMem lsRows 0 = some (.handler .ls args)
      ∧ HoldsStr lsMem args [] := by
  have hread : shellReadline bootEdit (ascii "ls\n".toList) = (lsEdit, some []) :=
    Prod.ext rfl (by decide +kernel)
  have hmem : ∀ i < CMD_MAX, lsMem (0 + i) = lsEdit.lineBuf i := by
    intro i hi
    rw [Nat.zero_add, lsMem, if_pos hi]
  have hcmd : shellExecute (lineOf lsEdit) = .handler .ls [] := by decide +kernel
  have hrows : ∀ r ∈ lsRows.zip commands, HoldsStr lsMem r.1.name r.2.1 ∧ r.1.handler = r.2.2 := by
    decide +kernel
  have htable : TableAt lsMem lsRows :=
    List.forall₂_iff_zip.mpr ⟨rfl, fun hr => hrows _ hr⟩
  obtain ⟨d, hd, hmeans⟩ := shell_execute_refines hread (by decide) hmem htable
  rw [hcmd] at hmeans
  cases d with
  | nothing => exact hmeans.elim
  | handler cmd args =>
      obtain ⟨rfl, hheld⟩ := hmeans
      exact ⟨args, hd, hheld⟩
  | unknown start len => exact hmeans.elim

/-! ## `ramfs_lookup` -/

-- offsets in `struct vfs_node`, behind `name[VFS_NAME_MAX]`
def nodeFlags : Nat := VFS_NAME_MAX

def nodeChildren : Nat := VFS_NAME_MAX + 24

def nodeNext : Nat := VFS_NAME_MAX + 28

/-- A round of the loop over the children; the answer `none` if `strcmp` does not return. -/
def lookupBody (rounds : Nat) (m : Mem) (name c : Nat) : Option Nat ⊕ Nat :=
  if c = 0 then .inl (some 0)
  else
    match strcmp rounds m c name with
    | none => .inl none
    | some r => if r = 0 then .inl (some c) else .inr (load32 m (c + nodeNext)).toNat

/-- `ramfs_lookup` on the directory at `dir`: the pointer it returns. -/
def ramfsLookupAt (rounds : Nat) (m : Mem) (dir name : Nat) : Option Nat :=
  if load32 m (dir + nodeFlags) &&& VFS_DIRECTORY = 0#32 then some 0
  else (Loop.run (lookupBody rounds m name) rounds (load32 m (dir + nodeChildren)).toNat).join

/-- The pointer to a node, or `NULL`. -/
def nodePtr (addr : Nat → Nat) : Option Nat → Nat
  | none => 0
  | some c => addr c

/-- Node `c` of the file system is at `addr c`, in the fields that a lookup reads. -/
structure NodesAt (m : Mem) (s : Ramfs) (addr : Nat → Nat) : Prop where
  nonnull : ∀ c < s.count, addr c ≠ 0
  name : ∀ c < s.count, HoldsStr m (addr c) (s.nodes c).name
  flags : ∀ c < s.count, load32 m (addr c + nodeFlags) = (s.nodes c).flags
  children : ∀ c < s.count,
    (load32 m (addr c + nodeChildren)).toNat = nodePtr addr (s.nodes c).children
  next : ∀ c < s.count, (load32 m (addr c + nodeNext)).toNat = nodePtr addr (s.nodes c).next

section Lookup

variable {m : Mem} {s : Ramfs} {addr : Nat → Nat} {p rounds : Nat} {name : CStr}

/-- The loop goes along the siblings up to the one of that name. -/
theorem lookupBody_run (hat : NodesAt m s addr) (hp : HoldsStr m p name) :
    ∀ {l : List Nat} {first : Option Nat}, Links s.next first l →
      (∀ c ∈ l, c < s.count ∧ (s.nodes c).name.length < rounds) →
      Loop.run (lookupBody rounds m p) (l.length + 1) (nodePtr addr first)
        = some (some (nodePtr addr (l.find? fun c => (s.nodes c).name == name))) := by
  intro l
  induction l with
  | nil =>
      intro first hlinks _
      rw [show first = none from hlinks]
      exact Loop.run_inl (if_pos rfl)
  | cons c l ih =>
      intro first hlinks hnodes
      obtain ⟨rfl, hrest⟩ := hlinks
      obtain ⟨hlt, hshort⟩ := hnodes c List.mem_cons_self
      have hheld := hat.name c hlt
      have hbody : lookupBody rounds m p (addr c)
          = if strDiff (s.nodes c).name name = 0 then .inl (some (addr c))
            else .inr (nodePtr addr (s.nodes c).next) := by
        rw [lookupBody, if_neg (hat.nonnull c hlt), strcmp_run hheld hp hshort, hat.next c hlt]
      have hzero := strDiff_eq_zero_iff hheld.nonzero hp.nonzero
      rw [nodePtr, List.find?_cons]
      by_cases hname : (s.nodes c).name = name
      · rw [if_pos (hzero.mpr hname)] at hbody
        rw [Loop.run_inl hbody, hname, beq_self_eq_true]
        rfl
      · rw [if_neg fun h => hname (hzero.mp h)] at hbody
        rw [Loop.run_inr hbody, beq_eq_false_iff_ne.mpr hname]
        exact ih hrest fun d hd => hnodes d (List.mem_cons_of_mem c hd)

end Lookup

/-- **Lookup over memory.** For every file system that calls of its interface can reach, with
its nodes anywhere in memory, `ramfs_lookup` goes through the children of any directory by
their pointers and ends; it returns the pointer to the node that the model finds under that
name, or `NULL` if there is none. -/
theorem ramfs_lookup_refines {v : Vfs} (hv : VfsReachable v) {m : Mem} {addr : Nat → Nat}
    (hat : NodesAt m v.fs addr) {d : Nat} (hd : d < v.fs.count) {p : Nat} {name : CStr}
    (hp : HoldsStr m p name) {rounds : Nat} (hcount : v.fs.count < rounds)
    (hrounds : VFS_NAME_MAX ≤ rounds) :
    ramfsLookupAt rounds m (addr d) p = some (nodePtr addr (ramfsLookup v.fs d name)) := by
  obtain ⟨log, hrun⟩ := hv
  obtain ⟨kids, htree, -⟩ := vfsRun_tree hrun
  have hnodes : ∀ c ∈ kids d, c < v.fs.count ∧ (v.fs.nodes c).name.length < rounds := by
    intro c hc
    obtain ⟨hdc, hlt, -⟩ := htree.kid d hd c hc
    obtain ⟨-, hshort, -⟩ := htree.name c hlt (Nat.ne_of_gt (Nat.zero_lt_of_lt hdc))
    exact ⟨hlt, Nat.lt_of_lt_of_le hshort hrounds⟩
  have hloop := Loop.run_mono (lookupBody_run hat hp (htree.chain d hd) hnodes)
    (Nat.lt_of_le_of_lt (htree.length_le hd) hcount)
  rw [ramfsLookupAt, hat.flags d hd]
  split
  · next hfile =>
      have hdir : (v.fs.nodes d).isDirectory = false := by
        rw [VfsNode.isDirectory, hfile]
        rfl
      rw [ramfsLookup, hdir]
      rfl
  · rw [hat.children d hd, hloop, ← htree.lookup_eq hd]
    rfl

/-- Nodes of 96 bytes one behind the other. -/
def rowAddr (c : Nat) : Nat := 1024 + 96 * c

/-- The file system of `ramfs_init` in memory, and the name `tmp` at 0. -/
def bootNodesMem : Mem := fun a =>
  if a < 1024 then (ascii "tmp".toList).getD a 0#8
  else
    let node := fullBoot.fs.nodes ((a - 1024) / 96)
    let off := (a - 1024) % 96
    let word : Nat :=
      if off < nodeChildren then node.flags.toNat
      else if off < nodeNext then nodePtr rowAddr node.children
      else nodePtr rowAddr node.next
    if off < nodeFlags then node.name.getD off 0#8 else BitVec.ofNat 8 (word >>> (8 * (off % 4)))

theorem ramfs_lookup_refines_tmp :
    ∃ c, ramfsLookup fullBoot.fs 0 (ascii "tmp".toList) = some c
      ∧ ramfsLookupAt 64 bootNodesMem (rowAddr 0) 0 = some (rowAddr c) := by
  have hat : NodesAt bootNodesMem fullBoot.fs rowAddr := by
    refine ⟨?_, ?_, ?_, ?_, ?_⟩
    all_goals decide +kernel
  have hname : HoldsStr bootNodesMem 0 (ascii "tmp".toList) := by decide +kernel
  have hlookup := @ramfs_lookup_refines _ fullBoot_reachable _ _ hat 0 (by decide +kernel) 0 _ hname
    64 (by decide +kernel) (Nat.le_refl _)
  have hfound : ramfsLookup fullBoot.fs 0 (ascii "tmp".toList) = some 1 := by decide +kernel
  rw [hfound] at hlookup
  exact ⟨1, hfound, hlookup⟩

end Matryoshka
