import Mathlib.Logic.Relation
import Matryoshka.KeyboardEvents
import Matryoshka.KeyboardQueue
import Matryoshka.ShellRun

/-!
# From the keys to the commands

The keyboard interrupt and `shell_run` on one machine: scancodes arrive
between any two statements of `keyboard_getchar` and while a command runs,
`shell_readline` edits its line with every character it gets, and a newline
hands the line to `shell_execute`.

What was typed is said of the key events alone (`typed`), what was entered
of the typed characters alone (`typedLines`). The buffer between the two
ends is a queue that may lose characters (`KeyShell.lost`); what it keeps
comes out of the shell as whole lines.
-/

namespace Matryoshka

open ByteMem

/-! ## Lines of a text -/

/-- A line with one more character typed behind it. -/
def editLine (line : CStr) (c : BitVec 8) : CStr :=
  if c = 0x08#8 then line.dropLast
  else if isPrint c ∧ line.length < CMD_MAX - 1 then line ++ [c]
  else line

/-- The lines entered so far and the open one, one character further. -/
def typeChar (lines : List CStr × CStr) (c : BitVec 8) : List CStr × CStr :=
  if c = newline then (lines.1 ++ [lines.2], []) else (lines.1, editLine lines.2 c)

def typedLines (text : CStr) : List CStr × CStr := text.foldl typeChar ([], [])

theorem typedLines_snoc (text : CStr) (c : BitVec 8) :
    typedLines (text ++ [c]) = typeChar (typedLines text) c := by
  rw [typedLines, List.foldl_append]
  rfl

theorem typeChar_extends (lines : List CStr × CStr) (c : BitVec 8) :
    lines.1 <+: (typeChar lines c).1 := by
  rw [typeChar]
  split
  · exact List.prefix_append ..
  · exact List.prefix_rfl

theorem typedLines_extends (text more : CStr) :
    (typedLines text).1 <+: (typedLines (text ++ more)).1 := by
  induction more generalizing text with
  | nil => rw [List.append_nil]
  | cons c more ih =>
      have hstep := typeChar_extends (typedLines text) c
      rw [← typedLines_snoc] at hstep
      have hmore := ih (text ++ [c])
      rw [List.append_assoc, List.singleton_append] at hmore
      exact hstep.trans hmore

/-- The line buffer as a list. -/
theorem lineOf_editChar (e : LineEdit) (c : BitVec 8) :
    lineOf (editChar e c) = editLine (lineOf e) c := by
  rw [editChar, editLine]
  split
  · split
    · next hpos =>
        obtain ⟨n, hn⟩ := Nat.exists_eq_succ_of_ne_zero (Nat.ne_of_gt hpos)
        simp only [lineOf, hn, Nat.succ_eq_add_one, Nat.add_sub_cancel, bytesAt_succ,
          List.dropLast_concat]
    · next hpos =>
        rw [lineOf, Nat.eq_zero_of_not_pos hpos]
        rfl
  · rw [show (lineOf e).length = e.lineLen from bytesAt_length ..]
    split
    · rw [lineOf, lineOf]
      dsimp only
      rw [bytesAt_succ, Nat.zero_add, store8_self]
      refine congrArg (· ++ [c]) (bytesAt_congr fun i hi => store8_of_ne ?_)
      omega
    · rfl

theorem readLoop_newline (e : LineEdit) : readLoop e [newline]
    = ({ e with
          lineBuf := store8 e.lineBuf e.lineLen 0#8
          vga := putBytes e.vga [newline] }, some []) := by
  rw [readLoop, if_pos rfl]

theorem readLoop_single {e : LineEdit} {c : BitVec 8} (h : c ≠ newline) :
    readLoop e [c] = (editChar e c, none) := by
  rw [readLoop, if_neg h]
  rfl

/-- The terminator is behind the line. -/
theorem lineOf_terminated (e : LineEdit) (v : Vga) :
    lineOf { e with lineBuf := store8 e.lineBuf e.lineLen 0#8, vga := v } = lineOf e := by
  refine bytesAt_congr fun i hi => store8_of_ne ?_
  rw [Nat.zero_add]
  exact Nat.ne_of_lt hi

/-- The loop goes on where it waits. -/
theorem readLoop_snoc {input : CStr} {e e' : LineEdit} (c : BitVec 8)
    (h : readLoop e input = (e', none)) : readLoop e (input ++ [c]) = readLoop e' [c] := by
  induction input generalizing e with
  | nil =>
      cases h
      rfl
  | cons d input ih =>
      rw [readLoop] at h
      split at h
      · cases h
      · next hd =>
          rw [List.cons_append, readLoop, if_neg hd]
          exact ih h

theorem shellReadline_nil (e : LineEdit) : shellReadline e [] = ({ e with lineLen := 0 }, none) :=
  rfl

theorem shellReadline_snoc {input : CStr} {e e' : LineEdit} (c : BitVec 8)
    (h : shellReadline e input = (e', none)) :
    shellReadline e (input ++ [c]) = readLoop e' [c] :=
  readLoop_snoc c h

/-! ## Keys and shell -/

/-- The driver with its reader, the editor, the machine the commands work on and the line
that is being executed. The rest is history: the lines given to `shell_execute`, the
scancodes, and the number of characters that found the buffer full. -/
structure KeyShell where
  kbd : KbSys
  edit : LineEdit
  machine : Machine
  running : Option CStr
  executed : List CStr
  scanned : List (BitVec 8)
  lost : Nat

namespace KeyShell

/-- The first prompt. -/
def start (kb : Keyboard) (m : Machine) (e : LineEdit) : KeyShell where
  kbd := ⟨keyboardInit kb, .idle, [], []⟩
  edit := { e with vga := shellPrompt e.vga, lineLen := 0 }
  machine := m
  running := none
  executed := []
  scanned := []
  lost := 0

def irq (s : KeyShell) (scancode : BitVec 8) : KeyShell :=
  { s with
    kbd := s.kbd.irq scancode
    scanned := s.scanned ++ [scancode]
    lost := s.lost
      + if bufFull s.kbd.kb then (decodeKey s.kbd.kb scancode).2.toList.length else 0 }

/-- `shell_readline` on the character that `keyboard_getchar` returned. -/
def accept (s : KeyShell) (c : BitVec 8) : KeyShell :=
  match readLoop s.edit [c] with
  | (e, none) => { s with edit := e }
  | (e, some _) =>
      { s with edit := e, running := some (lineOf e), executed := s.executed ++ [lineOf e] }

/-- A statement of `keyboard_getchar`, with the round of `shell_readline` when it returns. -/
def stmt (s : KeyShell) : KeyShell :=
  let s' := { s with kbd := s.kbd.stmt }
  match (getcharStep s.kbd.kb s.kbd.pc).2.2 with
  | none => s'
  | some c => s'.accept c

/-- The command has returned: its output, and the next prompt. -/
def finish (s : KeyShell) (calls : Console) (m : Machine) : KeyShell :=
  { s with
    edit := { s.edit with vga := shellPrompt (vgaRun s.edit.vga calls).val, lineLen := 0 }
    machine := m
    running := none }

end KeyShell

/-- The statements of the shell, while it reads a line. -/
def ShellStmt (s s' : KeyShell) : Prop := s.running = none ∧ s' = s.stmt

inductive KeyShellStep : KeyShell → KeyShell → Prop
  | irq (s : KeyShell) (scancode : BitVec 8) : KeyShellStep s (s.irq scancode)
  | stmt {s s' : KeyShell} : ShellStmt s s' → KeyShellStep s s'
  | finish {s : KeyShell} {o : Outcome} {line : CStr} {calls : Console} {m : Machine} :
      s.running = some line → executeLine s.machine o line = some (calls, m) →
      KeyShellStep s (s.finish calls m)

inductive KeyShellReach (kb : Keyboard) (m : Machine) (e : LineEdit) : KeyShell → Prop
  | start : KeyShellReach kb m e (KeyShell.start kb m e)
  | step {s s' : KeyShell} : KeyShellReach kb m e s → KeyShellStep s s' → KeyShellReach kb m e s'

/-- The shell waits at the prompt and has read all there is. -/
def KeyShell.Drained (s : KeyShell) : Prop :=
  s.running = none ∧ keyboardHasInput s.kbd.kb = false ∧ s.kbd.pc.inFlight = []

/-- The line that is open in the editor. -/
def KeyShell.openLine (s : KeyShell) : CStr :=
  match s.running with
  | none => lineOf s.edit
  | some _ => []

/-! ## What a character does -/

section Accept

variable (s : KeyShell)

theorem accept_newline :
    ∃ e, readLoop s.edit [newline] = (e, some []) ∧ lineOf e = lineOf s.edit
      ∧ s.accept newline
        = { s with
            edit := e, running := some (lineOf e), executed := s.executed ++ [lineOf e] } := by
  refine ⟨_, readLoop_newline s.edit, lineOf_terminated s.edit _, ?_⟩
  rw [KeyShell.accept, readLoop_newline]

theorem accept_char {c : BitVec 8} (h : c ≠ newline) :
    s.accept c = { s with edit := editChar s.edit c } := by
  rw [KeyShell.accept, readLoop_single h]

/-- Only the editor and the log of lines change. -/
theorem accept_rest (c : BitVec 8) :
    (s.accept c).kbd = s.kbd ∧ (s.accept c).machine = s.machine
      ∧ (s.accept c).scanned = s.scanned ∧ (s.accept c).lost = s.lost := by
  rw [KeyShell.accept]
  split
  · exact ⟨rfl, rfl, rfl, rfl⟩
  · exact ⟨rfl, rfl, rfl, rfl⟩

/-- A statement that returns nothing. -/
theorem stmt_quiet (h : (getcharStep s.kbd.kb s.kbd.pc).2.2 = none) :
    s.stmt = { s with kbd := s.kbd.stmt } ∧ s.kbd.stmt.returned = s.kbd.returned := by
  constructor
  · rw [KeyShell.stmt, h]
  · rw [KbSys.stmt]
    dsimp only
    rw [h, Option.toList_none, List.append_nil]

/-- The statement that returns a character. -/
theorem stmt_returns {c : BitVec 8} (h : (getcharStep s.kbd.kb s.kbd.pc).2.2 = some c) :
    s.stmt = KeyShell.accept { s with kbd := s.kbd.stmt } c
      ∧ s.kbd.stmt.returned = s.kbd.returned ++ [c] := by
  constructor
  · rw [KeyShell.stmt, h]
  · rw [KbSys.stmt]
    dsimp only
    rw [h, Option.toList_some]

theorem stmt_rest :
    s.stmt.kbd = s.kbd.stmt ∧ s.stmt.machine = s.machine
      ∧ s.stmt.scanned = s.scanned ∧ s.stmt.lost = s.lost := by
  cases hout : (getcharStep s.kbd.kb s.kbd.pc).2.2 with
  | none =>
      rw [(stmt_quiet s hout).1]
      exact ⟨rfl, rfl, rfl, rfl⟩
  | some c =>
      rw [(stmt_returns s hout).1]
      exact accept_rest _ c

-- Stated once, as the unifier would compare the screens of the two states.
theorem finish_rest (calls : Console) (m : Machine) :
    (s.finish calls m).kbd = s.kbd ∧ (s.finish calls m).executed = s.executed
      ∧ (s.finish calls m).openLine = []
      ∧ (s.finish calls m).scanned = s.scanned ∧ (s.finish calls m).lost = s.lost := by
  rw [KeyShell.openLine, KeyShell.finish]
  exact ⟨rfl, rfl, rfl, rfl, rfl⟩

end Accept

/-! ## The decoding does not depend on the queue -/

/-- The drivers are at the same place in the stream of scancodes. -/
def SameKeys (kb kb' : Keyboard) : Prop :=
  kb'.extendedPending = kb.extendedPending ∧ kb'.modifiers = kb.modifiers

section SameKeys

variable {kb kb' : Keyboard}

/-- The ring of another driver. -/
def Keyboard.withRing (kb ring : Keyboard) : Keyboard :=
  { kb with kbBuffer := ring.kbBuffer, kbHead := ring.kbHead, kbTail := ring.kbTail }

theorem SameKeys.withRing (h : SameKeys kb kb') : kb' = kb.withRing kb' := by
  obtain ⟨hpending, hmodifiers⟩ := h
  rw [Keyboard.withRing, ← hpending, ← hmodifiers]

theorem handleKey_withRing (kb ring : Keyboard) (released : Bool) (key : BitVec 8) :
    handleKey (kb.withRing ring) released key
      = ((handleKey kb released key).1.withRing ring, (handleKey kb released key).2) := by
  have hchar : keyChar (kb.withRing ring) key = keyChar kb key := rfl
  -- the ring is exchanged in every branch, and no condition looks at it
  let exchange : Keyboard × Option (BitVec 8) → Keyboard × Option (BitVec 8) :=
    fun r => (r.1.withRing ring, r.2)
  show _ = exchange (handleKey kb released key)
  rw [handleKey, handleKey, hchar]
  simp only [apply_ite exchange]
  rfl

theorem decodeKey_withRing (kb ring : Keyboard) (scancode : BitVec 8) :
    decodeKey (kb.withRing ring) scancode
      = ((decodeKey kb scancode).1.withRing ring, (decodeKey kb scancode).2) := by
  have hpending : (kb.withRing ring).extendedPending = kb.extendedPending := rfl
  rw [decodeKey, decodeKey, hpending, handleKey_withRing]
  split
  · rfl
  · split
    · rfl
    · rfl

theorem SameKeys.decode (h : SameKeys kb kb') (scancode : BitVec 8) :
    SameKeys (decodeKey kb scancode).1 (decodeKey kb' scancode).1
      ∧ (decodeKey kb' scancode).2 = (decodeKey kb scancode).2 := by
  rw [h.withRing, decodeKey_withRing]
  exact ⟨⟨rfl, rfl⟩, rfl⟩

theorem SameKeys.irq (h : SameKeys kb kb') (scancode : BitVec 8) :
    SameKeys (keyboardIrqHandler kb scancode) (keyboardIrqHandler kb' scancode) := by
  obtain ⟨hpending, hmodifiers⟩ := keyboardIrqHandler_decodes kb scancode
  obtain ⟨hpending', hmodifiers'⟩ := keyboardIrqHandler_decodes kb' scancode
  obtain ⟨hp, hm⟩ := (h.decode scancode).1
  exact ⟨hpending'.trans (hp.trans hpending.symm), hmodifiers'.trans (hm.trans hmodifiers.symm)⟩

theorem getcharStep_sameKeys (kb : Keyboard) (pc : GetcharPc) :
    SameKeys kb (getcharStep kb pc).2.1 := by
  cases pc with
  | _ => exact ⟨rfl, rfl⟩

end SameKeys

/-- The system against the handler alone on the same scancodes. -/
structure ScanInv (kb : Keyboard) (s : KeyShell) : Prop where
  keys : SameKeys (scanRun (keyboardInit kb) s.scanned).1 s.kbd.kb
  kept : s.kbd.accepted.Sublist (scanRun (keyboardInit kb) s.scanned).2
  count : s.kbd.accepted.length + s.lost = (scanRun (keyboardInit kb) s.scanned).2.length

section Scan

variable {kb : Keyboard} {s : KeyShell}

theorem ScanInv.irq (h : ScanInv kb s) (scancode : BitVec 8) : ScanInv kb (s.irq scancode) := by
  obtain ⟨hkeys, hkept, hcount⟩ := h
  have hoffer := (hkeys.decode scancode).2
  have hrun : scanRun (keyboardInit kb) (s.scanned ++ [scancode])
      = (keyboardIrqHandler (scanRun (keyboardInit kb) s.scanned).1 scancode,
          (scanRun (keyboardInit kb) s.scanned).2
            ++ (decodeKey s.kbd.kb scancode).2.toList) := by
    rw [scanRun_append, hoffer]
    simp only [scanRun, List.append_nil]
  refine ⟨?_, ?_, ?_⟩
  · rw [KeyShell.irq, hrun]
    exact hkeys.irq scancode
  · rw [KeyShell.irq, hrun]
    refine hkept.append ?_
    rw [keyAccepted]
    split
    · exact List.nil_sublist _
    · exact List.Sublist.refl _
  · rw [KeyShell.irq, hrun]
    dsimp only [KbSys.irq]
    rw [List.length_append, List.length_append, ← hcount, keyAccepted]
    split
    · rw [List.length_nil]
      omega
    · omega

theorem ScanInv.of_same {s' : KeyShell} (h : ScanInv kb s) (hkb : SameKeys s.kbd.kb s'.kbd.kb)
    (hacc : s'.kbd.accepted = s.kbd.accepted) (hscan : s'.scanned = s.scanned)
    (hlost : s'.lost = s.lost) : ScanInv kb s' := by
  obtain ⟨hkeys, hkept, hcount⟩ := h
  refine ⟨?_, ?_, ?_⟩
  · rw [hscan]
    exact ⟨hkb.1.trans hkeys.1, hkb.2.trans hkeys.2⟩
  · rw [hscan, hacc]
    exact hkept
  · rw [hscan, hacc, hlost]
    exact hcount

theorem ScanInv.stmt (h : ScanInv kb s) : ScanInv kb s.stmt := by
  obtain ⟨hkbd, -, hscan, hlost⟩ := stmt_rest s
  refine h.of_same ?_ ?_ hscan hlost
  · rw [hkbd]
    exact getcharStep_sameKeys s.kbd.kb s.kbd.pc
  · rw [hkbd]
    rfl

end Scan

/-! ## Lines and commands -/

/-- The lines executed and the open one are those of the characters returned. -/
def LinesInv (s : KeyShell) : Prop := typedLines s.kbd.returned = (s.executed, s.openLine)

/-- The commands so far are a session, and the editor is in its next line. -/
def SessionInv (m : Machine) (e : LineEdit) (s : KeyShell) : Prop :=
  ∃ e₁ input, ShellSession m e s.machine e₁
    ∧ match s.running with
      | none => shellReadline { e₁ with vga := shellPrompt e₁.vga } input = (s.edit, none)
      | some line =>
          shellReadline { e₁ with vga := shellPrompt e₁.vga } input = (s.edit, some [])
            ∧ line = lineOf s.edit

section Lines

variable {m : Machine} {e : LineEdit} {s : KeyShell}

theorem LinesInv.stmt (h : LinesInv s) (hreads : s.running = none) : LinesInv s.stmt := by
  rw [LinesInv, KeyShell.openLine, hreads] at h
  cases hout : (getcharStep s.kbd.kb s.kbd.pc).2.2 with
  | none =>
      obtain ⟨heq, hret⟩ := stmt_quiet s hout
      rw [LinesInv, KeyShell.openLine, heq]
      dsimp only
      rw [hret, hreads]
      exact h
  | some c =>
      obtain ⟨heq, hret⟩ := stmt_returns s hout
      have hreturned : s.stmt.kbd.returned = s.kbd.returned ++ [c] := by
        rw [(stmt_rest s).1, hret]
      rw [LinesInv, hreturned, typedLines_snoc, h, heq, typeChar]
      by_cases hc : c = newline
      · subst hc
        obtain ⟨e', -, hline, hacc⟩ := accept_newline { s with kbd := s.kbd.stmt }
        rw [if_pos rfl, hacc, hline]
        rfl
      · rw [if_neg hc, accept_char _ hc, KeyShell.openLine]
        dsimp only
        rw [hreads, lineOf_editChar]

theorem LinesInv.finish {line : CStr} (h : LinesInv s) (hrun : s.running = some line)
    (calls : Console) (m' : Machine) : LinesInv (s.finish calls m') := by
  obtain ⟨hkbd, hexecuted, hopen, -, -⟩ := finish_rest s calls m'
  rw [LinesInv, KeyShell.openLine, hrun] at h
  rw [LinesInv, hkbd, hexecuted, hopen]
  exact h

theorem SessionInv.stmt (h : SessionInv m e s) (hreads : s.running = none) :
    SessionInv m e s.stmt := by
  obtain ⟨e₁, input, hsession, hread⟩ := h
  rw [hreads] at hread
  dsimp only at hread
  cases hout : (getcharStep s.kbd.kb s.kbd.pc).2.2 with
  | none =>
      rw [(stmt_quiet s hout).1]
      refine ⟨e₁, input, hsession, ?_⟩
      dsimp only
      rw [hreads]
      exact hread
  | some c =>
      rw [(stmt_returns s hout).1]
      have hnext := shellReadline_snoc c hread
      by_cases hc : c = newline
      · subst hc
        obtain ⟨e', hloop, -, hacc⟩ := accept_newline { s with kbd := s.kbd.stmt }
        rw [hacc]
        exact ⟨e₁, input ++ [newline], hsession, hnext.trans hloop, rfl⟩
      · rw [accept_char _ hc]
        refine ⟨e₁, input ++ [c], hsession, ?_⟩
        dsimp only
        rw [hreads]
        exact hnext.trans (readLoop_single hc)

theorem SessionInv.finish {o : Outcome} {line : CStr} {calls : Console} {m' : Machine}
    (h : SessionInv m e s) (hrun : s.running = some line)
    (hexec : executeLine s.machine o line = some (calls, m')) :
    SessionInv m e (s.finish calls m') := by
  obtain ⟨e₁, input, hsession, hread⟩ := h
  rw [hrun] at hread
  obtain ⟨hread, hline⟩ := hread
  have hturn : shellTurn s.machine e₁ o input
      = some (m', { s.edit with vga := (vgaRun s.edit.vga calls).val }, []) := by
    rw [shellTurn, hread]
    dsimp only
    rw [← hline, hexec, Option.map_some]
  have hsession' := hsession.turn hturn
  have hnil := shellReadline_nil
    { s.edit with vga := shellPrompt (vgaRun s.edit.vga calls).val }
  rw [KeyShell.finish]
  refine ⟨{ s.edit with vga := (vgaRun s.edit.vga calls).val }, [], hsession', ?_⟩
  dsimp only
  exact hnil

end Lines

/-! ## Runs -/

section Runs

variable {kb : Keyboard} {m : Machine} {e : LineEdit} {s s' : KeyShell}

theorem stmt_kbReach (h : KbReach s.kbd) : KbReach s.stmt.kbd := by
  rw [(stmt_rest s).1]
  exact h.step (.stmt _)

structure KeyShellInv (kb : Keyboard) (m : Machine) (e : LineEdit) (s : KeyShell) : Prop where
  queue : KbReach s.kbd
  scan : ScanInv kb s
  lines : LinesInv s
  session : SessionInv m e s

theorem KeyShellInv.step (h : KeyShellInv kb m e s) (hstep : KeyShellStep s s') :
    KeyShellInv kb m e s' := by
  cases hstep with
  | irq scancode => exact ⟨h.queue.step (.irq _ _), h.scan.irq scancode, h.lines, h.session⟩
  | stmt hstmt =>
      obtain ⟨hreads, rfl⟩ := hstmt
      exact ⟨stmt_kbReach h.queue, h.scan.stmt, h.lines.stmt hreads, h.session.stmt hreads⟩
  | finish hrun hexec =>
      refine ⟨?_, ?_, h.lines.finish hrun _ _, h.session.finish hrun hexec⟩
      · rw [(finish_rest s _ _).1]
        exact h.queue
      · obtain ⟨hkbd, -, -, hscan, hlost⟩ := finish_rest s _ _
        refine h.scan.of_same ?_ ?_ hscan hlost
        · rw [hkbd]
          exact ⟨rfl, rfl⟩
        · rw [hkbd]

theorem KeyShellReach.inv (h : KeyShellReach kb m e s) : KeyShellInv kb m e s := by
  induction h with
  | start =>
      exact ⟨.init kb, ⟨⟨rfl, rfl⟩, List.nil_sublist _, rfl⟩, rfl,
        e, [], .start, shellReadline_nil _⟩
  | step _ hstep ih => exact ih.step hstep

end Runs

/-! ## A complete line is executed -/

def GetcharPc.rank : GetcharPc → Nat
  | .idle => 0
  | .wait => 0
  | .test => 1
  | .fetch => 2
  | .update _ => 3
  | .ret _ => 4

/-- The statements that are left until all characters are returned. -/
def KbSys.todo (sys : KbSys) : Nat :=
  5 * (sys.accepted.length - sys.returned.length) - sys.pc.rank

section Progress

variable {sys : KbSys} {s : KeyShell}

theorem accepted_extends (h : KbReach sys) : sys.returned <+: sys.accepted := by
  obtain ⟨lo, hinv⟩ := kbReach_inv h
  have hread := List.take_prefix lo sys.accepted
  rw [hinv.read] at hread
  exact (List.prefix_append ..).trans hread

/-- With nothing in the queue and nothing on its way all characters are returned. -/
theorem returned_of_empty (h : KbReach sys) (hempty : keyboardHasInput sys.kb = false)
    (hflight : sys.pc.inFlight = []) : sys.returned = sys.accepted := by
  obtain ⟨lo, hinv⟩ := kbReach_inv h
  have hall : sys.accepted.length ≤ lo := by
    by_contra hlo
    rw [hinv.rep.hasInput_iff.mpr (Nat.lt_of_not_le hlo)] at hempty
    cases hempty
  have hread := hinv.read
  rw [List.take_of_length_le hall, hflight, List.append_nil] at hread
  exact hread.symm

theorem stmt_todo (h : KbReach sys) (hlt : sys.returned.length < sys.accepted.length) :
    sys.stmt.todo < sys.todo := by
  cases hpc : sys.pc with
  | test =>
      -- the queue is not empty, or all would have been returned
      have hne : sys.kb.kbHead ≠ sys.kb.kbTail := by
        intro heq
        have hall := returned_of_empty h (decide_eq_false (not_not.mpr heq)) (by rw [hpc]; rfl)
        rw [hall] at hlt
        exact Nat.lt_irrefl _ hlt
      have hmove : getcharStep sys.kb sys.pc = (.fetch, sys.kb, none) := by
        rw [hpc, getcharStep, if_neg hne]
      rw [KbSys.stmt_move hmove]
      simp only [KbSys.todo, hpc, GetcharPc.rank]
      omega
  | ret c =>
      simp only [KbSys.stmt, KbSys.todo, hpc, getcharStep, GetcharPc.rank, Option.toList_some,
        List.length_append, List.length_singleton]
      omega
  | _ =>
      simp only [KbSys.stmt, KbSys.todo, hpc, getcharStep, GetcharPc.rank, Option.toList_none,
        List.append_nil]
      omega

/-- A statement either leaves the log alone or hands a line over. -/
theorem stmt_log (hreads : s.running = none) :
    (s.stmt.running = none ∧ s.stmt.executed = s.executed)
      ∨ ∃ line, s.stmt.running = some line ∧ s.stmt.executed = s.executed ++ [line] := by
  cases hout : (getcharStep s.kbd.kb s.kbd.pc).2.2 with
  | none =>
      rw [(stmt_quiet s hout).1]
      exact Or.inl ⟨hreads, rfl⟩
  | some c =>
      rw [(stmt_returns s hout).1]
      by_cases hc : c = newline
      · subst hc
        obtain ⟨e, -, -, hacc⟩ := accept_newline { s with kbd := s.kbd.stmt }
        rw [hacc]
        exact Or.inr ⟨_, rfl, rfl⟩
      · rw [accept_char _ hc]
        exact Or.inl ⟨hreads, rfl⟩

theorem line_reached (h : KbReach s.kbd) (hlines : LinesInv s) (hreads : s.running = none)
    (hmore : s.executed ≠ (typedLines s.kbd.accepted).1) :
    ∃ s' line, Relation.ReflTransGen ShellStmt s s'
      ∧ s'.running = some line ∧ s'.executed = s.executed ++ [line] := by
  induction hn : s.kbd.todo using Nat.strong_induction_on generalizing s with
  | _ n ih =>
      have hlt : s.kbd.returned.length < s.kbd.accepted.length := by
        by_contra hall
        have heq := (accepted_extends h).eq_of_length_le (Nat.le_of_not_lt hall)
        rw [← heq, hlines] at hmore
        exact hmore rfl
      have hfirst : ShellStmt s s.stmt := ⟨hreads, rfl⟩
      rcases stmt_log hreads with ⟨hreads', hsame⟩ | ⟨line, hrun, hlog⟩
      · have hacc : s.stmt.kbd.accepted = s.kbd.accepted := by
          rw [(stmt_rest s).1]
          rfl
        have htodo : s.stmt.kbd.todo < n := by
          rw [(stmt_rest s).1, ← hn]
          exact stmt_todo h hlt
        obtain ⟨s', line, hsteps, hrun, hlog⟩ := ih _ htodo (stmt_kbReach h)
          (hlines.stmt hreads) hreads' (by rw [hsame, hacc]; exact hmore) rfl
        rw [hsame] at hlog
        exact ⟨s', line, .head hfirst hsteps, hrun, hlog⟩
      · exact ⟨s.stmt, line, .single hfirst, hrun, hlog⟩

end Progress

/-! ## Typing a command executes it -/

/-- **From key events to commands.** After any stream of complete key events, with the
interrupts between any statements and during the commands: the buffer has accepted the
characters of the events except those pressed on a full buffer; the lines given to
`shell_execute` are the first lines of the accepted text, and all of them, with the rest in
the editor, once the shell waits for a key; a line that is complete is executed without a
further key; and the commands ran as a session of the shell. -/
theorem typed_lines_executed {kb : Keyboard} {m : Machine} {e : LineEdit} {s : KeyShell}
    (h : KeyShellReach kb m e s) {events : List KeyEvent}
    (hscan : s.scanned = events.flatMap KeyEvent.bytes) :
    (s.kbd.accepted.Sublist (typed [] events)
        ∧ s.kbd.accepted.length + s.lost = (typed [] events).length)
      ∧ s.executed <+: (typedLines s.kbd.accepted).1
      ∧ (s.Drained → (s.executed, lineOf s.edit) = typedLines s.kbd.accepted)
      ∧ (s.running = none → s.executed ≠ (typedLines s.kbd.accepted).1 →
        ∃ s' line, Relation.ReflTransGen ShellStmt s s'
          ∧ s'.running = some line ∧ s'.executed = s.executed ++ [line])
      ∧ ∃ e', ShellSession m e s.machine e' := by
  obtain ⟨hqueue, ⟨-, hkept, hcount⟩, hlines, e₁, -, hsession, -⟩ := h.inv
  have htyped := ((keyboardInit_follows kb).events events).2
  rw [hscan, htyped] at hkept hcount
  refine ⟨⟨hkept, hcount⟩, ?_, ?_, line_reached hqueue hlines, e₁, hsession⟩
  · obtain ⟨rest, hrest⟩ := accepted_extends hqueue
    have hprefix := typedLines_extends s.kbd.returned rest
    rw [hrest, hlines] at hprefix
    exact hprefix
  · rintro ⟨hreads, hempty, hflight⟩
    rw [LinesInv, KeyShell.openLine, hreads, returned_of_empty hqueue hempty hflight] at hlines
    exact hlines.symm

/-- Reading characters takes none from the keyboard. -/
theorem KeyShellReach.stmts {kb : Keyboard} {m : Machine} {e : LineEdit} {s s' : KeyShell}
    (h : KeyShellReach kb m e s) (hsteps : Relation.ReflTransGen ShellStmt s s') :
    KeyShellReach kb m e s' ∧ s'.scanned = s.scanned ∧ s'.kbd.accepted = s.kbd.accepted := by
  induction hsteps with
  | refl => exact ⟨h, rfl, rfl⟩
  | tail _ hstep ih =>
      obtain ⟨hreach, hscan, hacc⟩ := ih
      refine ⟨.step hreach (.stmt hstep), ?_, ?_⟩
      · rw [hstep.2, (stmt_rest _).2.2.1, hscan]
      · rw [hstep.2, (stmt_rest _).1]
        exact hacc

/-- The keys `l`, `s` and Enter, and the release of the first one. -/
def lsKeys : List KeyEvent :=
  [⟨false, 0x26#8, by decide⟩, ⟨false, 0x1F#8, by decide⟩, ⟨false, 0xA6#8, by decide⟩,
    ⟨false, 0x1C#8, by decide⟩]

/-- `ls` is typed at the first prompt. -/
def lsTyped : KeyShell :=
  (lsKeys.flatMap KeyEvent.bytes).foldl KeyShell.irq
    (KeyShell.start ⟨0#8, false, fun _ => 0#8, 0, 0⟩ bootMachine bootEdit)

theorem typed_lines_executed_ls :
    lsTyped.kbd.accepted = ascii "ls\n".toList ∧ lsTyped.executed = []
      ∧ ∃ s', Relation.ReflTransGen ShellStmt lsTyped s'
        ∧ s'.running = some (ascii "ls".toList) ∧ s'.executed = [ascii "ls".toList] := by
  have hreach : KeyShellReach ⟨0#8, false, fun _ => 0#8, 0, 0⟩ bootMachine bootEdit lsTyped :=
    .step (.step (.step (.step .start (.irq _ _)) (.irq _ _)) (.irq _ _)) (.irq _ _)
  have hscan : lsTyped.scanned = lsKeys.flatMap KeyEvent.bytes := rfl
  have hacc : lsTyped.kbd.accepted = ascii "ls\n".toList := by decide +kernel
  have hlines : (typedLines (ascii "ls\n".toList)).1 = [ascii "ls".toList] := by decide +kernel
  obtain ⟨-, -, -, hprogress, -⟩ := typed_lines_executed hreach hscan
  obtain ⟨s', line, hsteps, hrun, hexec⟩ := hprogress rfl (by rw [hacc, hlines]; decide)
  -- the line that is handed over is the first of the accepted text
  obtain ⟨hreach', hscan', hacc'⟩ := hreach.stmts hsteps
  have hfirst := (typed_lines_executed hreach' (hscan'.trans hscan)).2.1
  rw [hexec, hacc', hacc, hlines] at hfirst
  obtain rfl : line = ascii "ls".toList := (List.cons_prefix_cons.mp hfirst).1
  exact ⟨hacc, rfl, s', hsteps, hrun, hexec⟩

end Matryoshka
