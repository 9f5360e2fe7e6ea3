import Matryoshka.Word
import Mathlib.Data.List.Basic

/-!
# The keyboard driver

`kernel/drivers/keyboard.c`: translation of scancodes and the ring buffer
between the interrupt handler and the readers. Characters are bytes. The
scancode that the handler reads from the data port is its argument, and
`keyboard_getchar` is the sequence of its statements, since the handler
may run between any two of them. What the wait loop calls does not touch
the driver, so `wait_func` is left out, as are the interrupt controller
and the console.
-/

namespace Matryoshka

/-! ## Constants -/

def KB_BUFFER_SIZE : Nat := 256

def KB_MOD_LSHIFT : BitVec 8 := 0x01#8

def KB_MOD_RSHIFT : BitVec 8 := 0x02#8

def KB_MOD_CTRL : BitVec 8 := 0x04#8

def KB_MOD_ALT : BitVec 8 := 0x08#8

def KB_MOD_CAPSLOCK : BitVec 8 := 0x10#8

def charByte (c : Char) : BitVec 8 := BitVec.ofNat 8 c.toNat

/-- The rows of a table up to scancode 0x57; the rest is zero. -/
def scTable (rows : List (List Char)) (key : BitVec 8) : BitVec 8 :=
  (rows.flatten.map charByte).getD key.toNat 0#8

def scNormal : BitVec 8 → BitVec 8 := scTable
  [['\x00', '\x1b', '1', '2', '3', '4', '5', '6'],
    ['7', '8', '9', '0', '-', '=', '\x08', '\x09'],
    ['q', 'w', 'e', 'r', 't', 'y', 'u', 'i'],
    ['o', 'p', '\x5b', '\x5d', '\x0a', '\x00', 'a', 's'],
    ['d', 'f', 'g', 'h', 'j', 'k', 'l', ';'],
    ['\x27', '\x60', '\x00', '\x5c', 'z', 'x', 'c', 'v'],
    ['b', 'n', 'm', ',', '.', '/', '\x00', '*'],
    ['\x00', ' ', '\x00', '\x00', '\x00', '\x00', '\x00', '\x00'],
    ['\x00', '\x00', '\x00', '\x00', '\x00', '\x00', '\x00', '\x00'],
    ['\x00', '\x00', '-', '\x00', '\x00', '\x00', '+', '\x00'],
    ['\x00', '\x00', '\x00', '.', '\x00', '\x00', '\x00', '\x00']]

def scShifted : BitVec 8 → BitVec 8 := scTable
  [['\x00', '\x1b', '!', '@', '#', '$', '%', '^'],
    ['&', '*', '\x28', '\x29', '_', '+', '\x08', '\x09'],
    ['Q', 'W', 'E', 'R', 'T', 'Y', 'U', 'I'],
    ['O', 'P', '\x7b', '\x7d', '\x0a', '\x00', 'A', 'S'],
    ['D', 'F', 'G', 'H', 'J', 'K', 'L', ':'],
    ['\x22', '~', '\x00', '|', 'Z', 'X', 'C', 'V'],
    ['B', 'N', 'M', '<', '>', '?', '\x00', '*'],
    ['\x00', ' ', '\x00', '\x00', '\x00', '\x00', '\x00', '\x00'],
    ['\x00', '\x00', '\x00', '\x00', '\x00', '\x00', '\x00', '\x00'],
    ['\x00', '\x00', '-', '\x00', '\x00', '\x00', '+', '\x00'],
    ['\x00', '\x00', '\x00', '.', '\x00', '\x00', '\x00', '\x00']]

/-! ## State -/

structure Keyboard where
  modifiers : BitVec 8
  extendedPending : Bool
  kbBuffer : Nat → BitVec 8
  kbHead : Nat
  kbTail : Nat

def keyboardInit (kb : Keyboard) : Keyboard :=
  { kb with kbHead := 0, kbTail := 0, modifiers := 0#8, extendedPending := false }

/-! ## The interrupt handler -/

def nextIndex (i : Nat) : Nat := (i + 1) % KB_BUFFER_SIZE

/-- `next == kb_tail`. -/
def bufFull (kb : Keyboard) : Bool := nextIndex kb.kbHead = kb.kbTail

def bufPut (kb : Keyboard) (c : BitVec 8) : Keyboard :=
  if bufFull kb then kb
  else
    { kb with
      kbBuffer := Function.update kb.kbBuffer kb.kbHead c
      kbHead := nextIndex kb.kbHead }

def isLower (c : BitVec 8) : Bool := charByte 'a' ≤ c ∧ c ≤ charByte 'z'

def isUpper (c : BitVec 8) : Bool := charByte 'A' ≤ c ∧ c ≤ charByte 'Z'

def isAlpha (c : BitVec 8) : Bool := isLower c || isUpper c

def toggleCase (c : BitVec 8) : BitVec 8 :=
  if isLower c then c - 32#8 else if isUpper c then c + 32#8 else c

/-- A modifier key: its flag follows the key. -/
def setModifier (kb : Keyboard) (flag : BitVec 8) (released : Bool) : Keyboard :=
  { kb with modifiers := if released then kb.modifiers &&& ~~~flag else kb.modifiers ||| flag }

/-- The character of a key under the current modifiers. -/
def keyChar (kb : Keyboard) (key : BitVec 8) : BitVec 8 :=
  let shift : Bool := (kb.modifiers &&& (KB_MOD_LSHIFT ||| KB_MOD_RSHIFT)) ≠ 0#8
  let c := if shift then scShifted key else scNormal key
  if c ≠ 0#8 ∧ isAlpha c ∧ (kb.modifiers &&& KB_MOD_CAPSLOCK) ≠ 0#8 then toggleCase c else c

/-- A make or break code without prefix: the modifiers, and the character to store if
there is one. -/
def handleKey (kb : Keyboard) (released : Bool) (key : BitVec 8) : Keyboard × Option (BitVec 8) :=
  if key = 0x2A#8 then (setModifier kb KB_MOD_LSHIFT released, none)
  else if key = 0x36#8 then (setModifier kb KB_MOD_RSHIFT released, none)
  else if key = 0x1D#8 then (setModifier kb KB_MOD_CTRL released, none)
  else if key = 0x38#8 then (setModifier kb KB_MOD_ALT released, none)
  else if key = 0x3A#8 ∧ released = false then
    ({ kb with modifiers := kb.modifiers ^^^ KB_MOD_CAPSLOCK }, none)
  else if released then (kb, none)
  else (kb, if keyChar kb key ≠ 0#8 then some (keyChar kb key) else none)

/-- `keyboard_irq_handler` before `buf_put`. -/
def decodeKey (kb : Keyboard) (scancode : BitVec 8) : Keyboard × Option (BitVec 8) :=
  if scancode = 0xE0#8 then ({ kb with extendedPending := true }, none)
  else if kb.extendedPending then ({ kb with extendedPending := false }, none)
  else handleKey kb ((scancode &&& 0x80#8) ≠ 0#8) (scancode &&& 0x7F#8)

def keyboardIrqHandler (kb : Keyboard) (scancode : BitVec 8) : Keyboard :=
  match decodeKey kb scancode with
  | (kb, none) => kb
  | (kb, some c) => bufPut kb c

/-! ## Readers -/

def keyboardHasInput (kb : Keyboard) : Bool := kb.kbHead ≠ kb.kbTail

/-- Where a reader is in `keyboard_getchar`; `idle` is outside. -/
inductive GetcharPc
  | idle
  | test
  | wait
  | fetch
  | update (c : BitVec 8)
  | ret (c : BitVec 8)
deriving Repr, DecidableEq

/-- One statement of `keyboard_getchar`, and the character when it returns. -/
def getcharStep (kb : Keyboard) : GetcharPc → GetcharPc × Keyboard × Option (BitVec 8)
  | .idle => (.test, kb, none)
  | .test => (if kb.kbHead = kb.kbTail then .wait else .fetch, kb, none)
  | .wait => (.test, kb, none)
  | .fetch => (.update (kb.kbBuffer kb.kbTail), kb, none)
  | .update c => (.ret c, { kb with kbTail := nextIndex kb.kbTail }, none)
  | .ret c => (.idle, kb, some c)

/-! ## What the decoding changes -/

/-- The two states differ in the decoding of keys only. -/
def SameRing (kb kb' : Keyboard) : Prop :=
  ∃ modifiers extendedPending,
    kb' = { kb with modifiers := modifiers, extendedPending := extendedPending }

theorem handleKey_ring (kb : Keyboard) (released : Bool) (key : BitVec 8) :
    SameRing kb (handleKey kb released key).1 := by
  rw [handleKey]
  repeat' split
  all_goals exact ⟨_, _, rfl⟩

theorem decodeKey_ring (kb : Keyboard) (scancode : BitVec 8) :
    SameRing kb (decodeKey kb scancode).1 := by
  rw [decodeKey]
  split
  · exact ⟨_, _, rfl⟩
  · split
    · exact ⟨_, _, rfl⟩
    · exact handleKey_ring ..

end Matryoshka
