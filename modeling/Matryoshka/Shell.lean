import Matryoshka.Vfs

/-!
# The shell

`kernel/shell.c`: the dispatch of a line, and `cmd_write` with everything
it prints. A line is the text before its terminating zero; colours are
left out, as are the handlers of the other commands.

A line that writes reaches `cmd_write` with its path and text in place
(`shellExecute_writeLine`), but the command keeps only 127 bytes of the
path and takes the rest for text (`cmdWrite_eq`).
-/

namespace Matryoshka

open ByteMem

/-! ## Dispatch -/

def CMD_MAX : Nat := 256

def space : BitVec 8 := 0x20#8

def newline : BitVec 8 := 0x0A#8

def skipSpaces (s : CStr) : CStr := s.dropWhile (· == space)

inductive Command where
  | help
  | clear
  | meminfo
  | uptime
  | ps
  | virt
  | ls
  | cat
  | mkdir
  | touch
  | write
  | net
  | syscall
  | echo
  | reboot
  deriving DecidableEq

def commands : List (CStr × Command) :=
  [(ascii "help".toList, .help), (ascii "clear".toList, .clear),
    (ascii "meminfo".toList, .meminfo), (ascii "uptime".toList, .uptime),
    (ascii "ps".toList, .ps), (ascii "virt".toList, .virt), (ascii "ls".toList, .ls),
    (ascii "cat".toList, .cat), (ascii "mkdir".toList, .mkdir), (ascii "touch".toList, .touch),
    (ascii "write".toList, .write), (ascii "net".toList, .net),
    (ascii "syscall".toList, .syscall), (ascii "echo".toList, .echo),
    (ascii "reboot".toList, .reboot)]

/-- What `shell_execute` does with a line: nothing, a handler, or a complaint. -/
inductive Dispatch where
  | nothing
  | handler (cmd : Command) (args : CStr)
  | unknown (name : CStr)
  deriving DecidableEq

def shellExecute (line : CStr) : Dispatch :=
  let p := skipSpaces line
  if p = [] then .nothing
  else
    let name := p.takeWhile (· != space)
    let args := skipSpaces (p.dropWhile (· != space))
    match commands.find? fun c => c.1.length == name.length && c.1 == name with
    | some c => .handler c.2 args
    | none => .unknown name

/-! ## `cmd_write` -/

def VFS_O_WRONLY : BitVec 32 := 0x01#32

def usageText : CStr := ascii "Usage: write <path> <text>\n".toList

def cannotOpenText (path : CStr) : CStr :=
  ascii "write: cannot open: ".toList ++ path ++ [newline]

/-- `sizeof(path) - 1`. -/
def pathMax : Nat := 127

/-- The outcomes of the allocations that a `write` makes: for a new node, and for
the buffers of its two writes. -/
structure WriteAllocs where
  node : NodeAlloc
  text : Option Mem
  newline : Option Mem

/-- The second half of `cmd_write`: what is printed, and the file system after it. -/
def writeFile (v : Vfs) (a : WriteAllocs) (path text : CStr) : Option (CStr × Vfs) :=
  match vfsOpen v a.node path (VFS_O_WRONLY ||| VFS_O_CREAT ||| VFS_O_TRUNC) with
  | (fd, v) =>
      if fd < 0 then some (cannotOpenText path, v)
      else
        match vfsWrite v fd text a.text with
        | none => none
        | some (_, v) =>
            match vfsWrite v fd [newline] a.newline with
            | none => none
            | some (_, v) => some ([], (vfsClose v fd).2)

/-- `cmd_write`; `none` if it does not return. -/
def cmdWrite (v : Vfs) (a : WriteAllocs) (args : CStr) : Option (CStr × Vfs) :=
  let p := skipSpaces args
  if p = [] then some (usageText, v)
  else
    let path := (p.takeWhile (· != space)).take pathMax
    let text := skipSpaces (p.drop path.length)
    if text = [] then some (usageText, v) else writeFile v a path text

/-! ## Lines that write -/

def spaces (k : Nat) : CStr := List.replicate k space

/-- The line that writes `text` to `path`, with any number of spaces between. -/
def writeLine (i j k : Nat) (path text : CStr) : CStr :=
  spaces i ++ (ascii "write".toList ++ (spaces (j + 1) ++ (path ++ (spaces (k + 1) ++ text))))

section Lines

variable {s path text : CStr}

theorem skipSpaces_spaces (k : Nat) (s : CStr) : skipSpaces (spaces k ++ s) = skipSpaces s :=
  List.dropWhile_append_of_pos fun b hb => by
    rw [List.eq_of_mem_replicate hb]
    rfl

theorem skipSpaces_of_head (h : s.head? ≠ some space) : skipSpaces s = s := by
  cases s with
  | nil => rfl
  | cons b s =>
      have hb : (b == space) = false := by
        rw [beq_eq_false_iff_ne]
        exact fun heq => h (congrArg some heq)
      rw [skipSpaces, List.dropWhile_cons, hb]
      rfl

theorem token_bne (h : space ∉ path) : ∀ b ∈ path, (b != space) = true := by
  intro b hb
  rw [bne_iff_ne]
  rintro rfl
  exact h hb

theorem takeWhile_token (h : space ∉ path) (k : Nat) (s : CStr) :
    (path ++ (spaces (k + 1) ++ s)).takeWhile (· != space) = path := by
  rw [List.takeWhile_append_of_pos (token_bne h)]
  exact List.append_nil path

theorem dropWhile_token (h : space ∉ path) (k : Nat) (s : CStr) :
    (path ++ (spaces (k + 1) ++ s)).dropWhile (· != space) = spaces (k + 1) ++ s := by
  rw [List.dropWhile_append_of_pos (token_bne h)]
  rfl

theorem head_append_of_notMem (hne : path ≠ []) (h : space ∉ path) (s : CStr) :
    (path ++ s).head? ≠ some space := by
  cases path with
  | nil => exact absurd rfl hne
  | cons b path =>
      intro heq
      exact h (Option.some.inj heq ▸ List.mem_cons_self)

/-- The shell hands such a line to `cmd_write`. -/
theorem shellExecute_writeLine (i j k : Nat) (hne : path ≠ []) (h : space ∉ path) (text : CStr) :
    shellExecute (writeLine i j k path text)
      = .handler .write (path ++ (spaces (k + 1) ++ text)) := by
  have hskip : skipSpaces (writeLine i j k path text) = ascii "write".toList
      ++ (spaces (j + 1) ++ (path ++ (spaces (k + 1) ++ text))) := by
    rw [writeLine, skipSpaces_spaces]
    exact skipSpaces_of_head (head_append_of_notMem (by decide) (by decide) _)
  have hword : space ∉ ascii "write".toList := by decide
  have hfound : (commands.find? fun c => c.1.length == (ascii "write".toList).length
      && c.1 == ascii "write".toList) = some (ascii "write".toList, .write) := by
    decide
  simp only [shellExecute, hskip, takeWhile_token hword, dropWhile_token hword, hfound,
    skipSpaces_spaces, skipSpaces_of_head (head_append_of_notMem hne h _)]
  exact if_neg (List.append_ne_nil_of_left_ne_nil (by decide) _)

/-- The text that `cmd_write` finds: what it cut off the path belongs to it. -/
def textAfter (k : Nat) (path text : CStr) : CStr :=
  if path.length ≤ pathMax then text else path.drop pathMax ++ (spaces (k + 1) ++ text)

theorem textAfter_length (k : Nat) (path text : CStr) :
    (textAfter k path text).length = if path.length ≤ pathMax then text.length
      else path.length - pathMax + ((k + 1) + text.length) := by
  rw [textAfter]
  split
  · rfl
  · rw [List.length_append, List.length_append, List.length_drop, spaces, List.length_replicate]

theorem cmdWrite_eq (v : Vfs) (a : WriteAllocs) (k : Nat) (hne : path ≠ []) (h : space ∉ path)
    (htext : text ≠ []) (hhead : text.head? ≠ some space) :
    cmdWrite v a (path ++ (spaces (k + 1) ++ text))
      = writeFile v a (path.take pathMax) (textAfter k path text) := by
  have hskip := skipSpaces_of_head (head_append_of_notMem hne h (spaces (k + 1) ++ text))
  have hdrop : (path ++ (spaces (k + 1) ++ text)).drop (path.take pathMax).length
      = path.drop pathMax ++ (spaces (k + 1) ++ text) := by
    rw [List.drop_append_of_le_length (List.length_take_le' ..), List.length_take]
    by_cases hlen : pathMax ≤ path.length
    · rw [Nat.min_eq_left hlen]
    · rw [Nat.min_eq_right (by omega), List.drop_of_length_le (Nat.le_refl _),
        List.drop_of_length_le (by omega)]
  have hafter : skipSpaces (path.drop pathMax ++ (spaces (k + 1) ++ text))
      = textAfter k path text := by
    rw [textAfter]
    split
    · next hlen =>
        rw [List.drop_of_length_le hlen, List.nil_append, skipSpaces_spaces]
        exact skipSpaces_of_head hhead
    · next hlen =>
        refine skipSpaces_of_head (head_append_of_notMem ?_ ?_ _)
        · rw [ne_eq, List.drop_eq_nil_iff]
          omega
        · exact fun hmem => h (List.mem_of_mem_drop hmem)
  have hsome : textAfter k path text ≠ [] := by
    rw [textAfter]
    split
    · exact htext
    · exact List.append_ne_nil_of_right_ne_nil _ (List.append_ne_nil_of_right_ne_nil _ htext)
  simp only [cmdWrite, hskip, takeWhile_token h, hdrop, hafter]
  rw [if_neg (List.append_ne_nil_of_left_ne_nil hne _), if_neg hsome]

end Lines

end Matryoshka
