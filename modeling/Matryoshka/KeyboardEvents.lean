import Matryoshka.Keyboard

/-!
# Key events

What a stream of complete key events leaves in the driver, said of the
events themselves: a modifier follows the last event of its key, Caps Lock
the number of its presses, and every other press offers its character
under the modifiers held at that moment. Events with the prefix 0xE0 leave
no trace, whatever their code.
-/

namespace Matryoshka

/-! ## Events -/

/-- A make or break code, with the prefix 0xE0 before it or without. -/
structure KeyEvent where
  extended : Bool
  code : BitVec 8
  code_ne : code ≠ 0xE0#8

namespace KeyEvent

/-- The bytes the controller sends. -/
def bytes (e : KeyEvent) : List (BitVec 8) :=
  if e.extended then [0xE0#8, e.code] else [e.code]

def released (e : KeyEvent) : Bool := (e.code &&& 0x80#8) ≠ 0#8

def key (e : KeyEvent) : BitVec 8 := e.code &&& 0x7F#8

/-- A plain event of key `k`. -/
def isOf (k : BitVec 8) (e : KeyEvent) : Bool := !e.extended && e.key == k

/-- A plain press of Caps Lock. -/
def isCapsPress (e : KeyEvent) : Bool := e.isOf 0x3A#8 && !e.released

end KeyEvent

/-- The last plain event of key `k` was a press. -/
def held (k : BitVec 8) (events : List KeyEvent) : Bool :=
  (events.filter (KeyEvent.isOf k)).getLast?.any fun e => !e.released

def capsPresses (events : List KeyEvent) : Nat := events.countP KeyEvent.isCapsPress

def capsOn (events : List KeyEvent) : Bool := capsPresses events % 2 = 1

/-- The flags that follow a key. -/
def modifierKeys : List (BitVec 8 × BitVec 8) :=
  [(KB_MOD_LSHIFT, 0x2A#8), (KB_MOD_RSHIFT, 0x36#8), (KB_MOD_CTRL, 0x1D#8), (KB_MOD_ALT, 0x38#8)]

/-- The table entry of a key; Caps Lock toggles the case of letters. -/
def translation (shift caps : Bool) (key : BitVec 8) : BitVec 8 :=
  let c := if shift then scShifted key else scNormal key
  if caps && isAlpha c then toggleCase c else c

/-- A press that no modifier takes. -/
def KeyEvent.Types (e : KeyEvent) : Prop :=
  e.extended = false ∧ e.released = false ∧ e.key ≠ 0x3A#8 ∧ ∀ p ∈ modifierKeys, e.key ≠ p.2

instance (e : KeyEvent) : Decidable e.Types := inferInstanceAs (Decidable (_ ∧ _ ∧ _ ∧ _))

/-- The character of one event behind a stream of others; a zero entry is none. -/
def typedBy (past : List KeyEvent) (e : KeyEvent) : List (BitVec 8) :=
  if e.Types then
    [translation (held 0x2A#8 past || held 0x36#8 past) (capsOn past) e.key].filter (· ≠ 0#8)
  else []

/-- The characters of a stream behind another one. -/
def typed (past : List KeyEvent) : List KeyEvent → List (BitVec 8)
  | [] => []
  | e :: events => typedBy past e ++ typed (past ++ [e]) events

/-! ## The handler on a stream -/

/-- The interrupts of a stream of scancodes, with the characters offered to `buf_put`. -/
def scanRun (kb : Keyboard) : List (BitVec 8) → Keyboard × List (BitVec 8)
  | [] => (kb, [])
  | scancode :: rest =>
      let (kb', offered) := scanRun (keyboardIrqHandler kb scancode) rest
      (kb', (decodeKey kb scancode).2.toList ++ offered)

theorem scanRun_append (rest : List (BitVec 8)) :
    ∀ (l : List (BitVec 8)) (kb : Keyboard), scanRun kb (l ++ rest)
      = ((scanRun (scanRun kb l).1 rest).1,
          (scanRun kb l).2 ++ (scanRun (scanRun kb l).1 rest).2) := by
  intro l
  induction l with
  | nil =>
      intro kb
      rfl
  | cons scancode l ih =>
      intro kb
      simp only [List.cons_append, scanRun, ih, List.append_assoc]

/-! ## What the stream says, one event further -/

theorem held_snoc (k : BitVec 8) (past : List KeyEvent) (e : KeyEvent) :
    held k (past ++ [e]) = if e.isOf k then !e.released else held k past := by
  unfold held
  rw [List.filter_append]
  by_cases h : e.isOf k
  · simp [h]
  · simp [h]

theorem capsOn_snoc (past : List KeyEvent) (e : KeyEvent) :
    capsOn (past ++ [e]) = if e.isCapsPress then !capsOn past else capsOn past := by
  unfold capsOn capsPresses
  rw [List.countP_append, List.countP_singleton]
  split
  · rcases Nat.mod_two_eq_zero_or_one (past.countP KeyEvent.isCapsPress) with h | h
    · simp [Nat.add_mod, h]
    · simp [Nat.add_mod, h]
  · rfl

/-! ## The modifier byte -/

/-- The byte with the five flags. -/
def modifierByte (lshift rshift ctrl alt caps : Bool) : BitVec 8 :=
  (if lshift then KB_MOD_LSHIFT else 0#8) ||| (if rshift then KB_MOD_RSHIFT else 0#8)
    ||| (if ctrl then KB_MOD_CTRL else 0#8) ||| (if alt then KB_MOD_ALT else 0#8)
    ||| (if caps then KB_MOD_CAPSLOCK else 0#8)

section ModifierByte

variable (l r c a k : Bool)

theorem modifierByte_set (released : Bool) :
    let m := modifierByte l r c a k
    let set flag := if released then m &&& ~~~flag else m ||| flag
    set KB_MOD_LSHIFT = modifierByte (!released) r c a k
      ∧ set KB_MOD_RSHIFT = modifierByte l (!released) c a k
      ∧ set KB_MOD_CTRL = modifierByte l r (!released) a k
      ∧ set KB_MOD_ALT = modifierByte l r c (!released) k
      ∧ m ^^^ KB_MOD_CAPSLOCK = modifierByte l r c a (!k) := by
  revert l r c a k released
  decide

theorem modifierByte_test :
    let m := modifierByte l r c a k
    (m &&& KB_MOD_LSHIFT ≠ 0#8 ↔ l = true) ∧ (m &&& KB_MOD_RSHIFT ≠ 0#8 ↔ r = true)
      ∧ (m &&& KB_MOD_CTRL ≠ 0#8 ↔ c = true) ∧ (m &&& KB_MOD_ALT ≠ 0#8 ↔ a = true)
      ∧ (m &&& KB_MOD_CAPSLOCK ≠ 0#8 ↔ k = true)
      ∧ (m &&& (KB_MOD_LSHIFT ||| KB_MOD_RSHIFT) ≠ 0#8 ↔ (l || r) = true) := by
  revert l r c a k
  decide

end ModifierByte

/-! ## One event -/

/-- The flags that a stream leaves. -/
def heldByte (past : List KeyEvent) : BitVec 8 :=
  modifierByte (held 0x2A#8 past) (held 0x36#8 past) (held 0x1D#8 past) (held 0x38#8 past)
    (capsOn past)

/-- The driver between two events. -/
structure Follows (kb : Keyboard) (past : List KeyEvent) : Prop where
  pending : kb.extendedPending = false
  modifiers : kb.modifiers = heldByte past

section Event

variable {kb : Keyboard} {past : List KeyEvent} {e : KeyEvent}

theorem heldByte_extended (he : e.extended = true) : heldByte (past ++ [e]) = heldByte past := by
  simp [heldByte, held_snoc, capsOn_snoc, KeyEvent.isOf, KeyEvent.isCapsPress, he]

theorem keyChar_eq (h : kb.modifiers = heldByte past) (key : BitVec 8) :
    keyChar kb key
      = translation (held 0x2A#8 past || held 0x36#8 past) (capsOn past) key := by
  obtain ⟨-, -, -, -, hcaps, hshift⟩ := modifierByte_test (held 0x2A#8 past) (held 0x36#8 past)
    (held 0x1D#8 past) (held 0x38#8 past) (capsOn past)
  have halpha : ∀ c, isAlpha c = true → c ≠ 0#8 := by
    rintro c hc rfl
    revert hc
    decide
  simp only [keyChar, h, heldByte, decide_eq_true_eq, hshift, hcaps, translation]
  refine if_congr ?_ rfl rfl
  rw [Bool.and_eq_true]
  exact ⟨fun ⟨_, hc, hk⟩ => ⟨hk, hc⟩, fun ⟨hk, hc⟩ => ⟨halpha _ hc, hc, hk⟩⟩

theorem handleKey_pending (released : Bool) (key : BitVec 8) :
    (handleKey kb released key).1.extendedPending = kb.extendedPending := by
  rw [handleKey]
  repeat' split
  all_goals rfl

/-- A plain event moves the flags as it moves the stream. -/
theorem handleKey_modifiers (h : kb.modifiers = heldByte past) (he : e.extended = false) :
    (handleKey kb e.released e.key).1.modifiers = heldByte (past ++ [e]) := by
  obtain ⟨hl, hr, hc, ha, hk⟩ := modifierByte_set (held 0x2A#8 past) (held 0x36#8 past)
    (held 0x1D#8 past) (held 0x38#8 past) (capsOn past) e.released
  have hstep : heldByte (past ++ [e]) = modifierByte
      (if e.key = 0x2A#8 then !e.released else held 0x2A#8 past)
      (if e.key = 0x36#8 then !e.released else held 0x36#8 past)
      (if e.key = 0x1D#8 then !e.released else held 0x1D#8 past)
      (if e.key = 0x38#8 then !e.released else held 0x38#8 past)
      (if e.key = 0x3A#8 ∧ e.released = false then !capsOn past else capsOn past) := by
    simp [heldByte, held_snoc, capsOn_snoc, KeyEvent.isOf, KeyEvent.isCapsPress, he]
  rw [heldByte] at h
  rw [handleKey]
  -- each key moves its own flag, and the keys differ
  split_ifs with hls hrs hctrl halt hcaps
  · simpa [hstep, hls, setModifier, h] using hl
  · simpa [hstep, hrs, setModifier, h] using hr
  · simpa [hstep, hctrl, setModifier, h] using hc
  · simpa [hstep, halt, setModifier, h] using ha
  · simpa [hstep, hcaps, h] using hk
  all_goals
    rw [hstep, if_neg hls, if_neg hrs, if_neg hctrl, if_neg halt, if_neg hcaps]
    exact h

/-- A plain event offers what it types. -/
theorem handleKey_offered (h : kb.modifiers = heldByte past) (he : e.extended = false) :
    (handleKey kb e.released e.key).2.toList = typedBy past e := by
  have htypes : e.Types ↔ e.released = false ∧ e.key ≠ 0x3A#8 ∧ e.key ≠ 0x2A#8
      ∧ e.key ≠ 0x36#8 ∧ e.key ≠ 0x1D#8 ∧ e.key ≠ 0x38#8 := by
    simp [KeyEvent.Types, modifierKeys, he]
  have hnone : ¬e.Types → [] = typedBy past e := fun hn => (if_neg hn).symm
  rw [handleKey]
  split_ifs with hls hrs hctrl halt hcaps hrel hzero
  · exact hnone fun ht => (htypes.mp ht).2.2.1 hls
  · exact hnone fun ht => (htypes.mp ht).2.2.2.1 hrs
  · exact hnone fun ht => (htypes.mp ht).2.2.2.2.1 hctrl
  · exact hnone fun ht => (htypes.mp ht).2.2.2.2.2 halt
  · exact hnone fun ht => (htypes.mp ht).2.1 hcaps.1
  · exact hnone fun ht => absurd ((htypes.mp ht).1.symm.trans hrel) (by decide)
  all_goals
    have hpress := eq_false_of_ne_true hrel
    have ht : e.Types := htypes.mpr ⟨hpress, fun hk => hcaps ⟨hk, hpress⟩, hls, hrs, hctrl, halt⟩
    rw [keyChar_eq h] at hzero
    simp [typedBy, ht, hzero, keyChar_eq h]

/-- Storing the character leaves the decoding alone. -/
theorem keyboardIrqHandler_decodes (kb : Keyboard) (scancode : BitVec 8) :
    (keyboardIrqHandler kb scancode).extendedPending = (decodeKey kb scancode).1.extendedPending
      ∧ (keyboardIrqHandler kb scancode).modifiers = (decodeKey kb scancode).1.modifiers := by
  have hput : ∀ (kb : Keyboard) (c : BitVec 8),
      (bufPut kb c).extendedPending = kb.extendedPending
        ∧ (bufPut kb c).modifiers = kb.modifiers := by
    intro kb c
    rw [bufPut]
    split
    · exact ⟨rfl, rfl⟩
    · exact ⟨rfl, rfl⟩
  rw [keyboardIrqHandler]
  rcases decodeKey kb scancode with ⟨kb', c⟩
  cases c with
  | none => exact ⟨rfl, rfl⟩
  | some c => exact hput kb' c

theorem Follows.extended (h : Follows kb past) (he : e.extended = true) :
    Follows (scanRun kb e.bytes).1 (past ++ [e]) ∧ (scanRun kb e.bytes).2 = typedBy past e := by
  have hprefix : decodeKey kb 0xE0#8 = ({ kb with extendedPending := true }, none) := rfl
  have hcode : decodeKey { kb with extendedPending := true } e.code
      = ({ kb with extendedPending := false }, none) := by
    rw [decodeKey, if_neg e.code_ne]
    rfl
  have hrun : scanRun kb e.bytes = ({ kb with extendedPending := false }, []) := by
    simp only [KeyEvent.bytes, he, if_true, scanRun, keyboardIrqHandler, hprefix, hcode,
      Option.toList_none, List.nil_append]
  have hnone : typedBy past e = [] := if_neg fun ht => absurd (ht.1.symm.trans he) (by decide)
  rw [hrun, hnone]
  exact ⟨⟨rfl, h.modifiers.trans (heldByte_extended he).symm⟩, rfl⟩

theorem Follows.plain (h : Follows kb past) (he : e.extended = false) :
    Follows (scanRun kb e.bytes).1 (past ++ [e]) ∧ (scanRun kb e.bytes).2 = typedBy past e := by
  have hdec : decodeKey kb e.code = handleKey kb e.released e.key := by
    rw [decodeKey, if_neg e.code_ne, h.pending]
    rfl
  have hrun : scanRun kb e.bytes
      = (keyboardIrqHandler kb e.code, (handleKey kb e.released e.key).2.toList) := by
    simp [KeyEvent.bytes, he, scanRun, hdec]
  obtain ⟨hpending, hmodifiers⟩ := keyboardIrqHandler_decodes kb e.code
  rw [hdec] at hpending hmodifiers
  rw [hrun]
  refine ⟨⟨?_, ?_⟩, handleKey_offered h.modifiers he⟩
  · rw [hpending, handleKey_pending, h.pending]
  · rw [hmodifiers, handleKey_modifiers h.modifiers he]

theorem Follows.event (h : Follows kb past) (e : KeyEvent) :
    Follows (scanRun kb e.bytes).1 (past ++ [e]) ∧ (scanRun kb e.bytes).2 = typedBy past e := by
  cases he : e.extended with
  | true => exact h.extended he
  | false => exact h.plain he

end Event

/-! ## Whole streams -/

theorem Follows.events {kb : Keyboard} {past : List KeyEvent} (h : Follows kb past) :
    ∀ events : List KeyEvent,
      Follows (scanRun kb (events.flatMap KeyEvent.bytes)).1 (past ++ events)
        ∧ (scanRun kb (events.flatMap KeyEvent.bytes)).2 = typed past events := by
  intro events
  induction events generalizing kb past with
  | nil =>
      rw [List.append_nil]
      exact ⟨h, rfl⟩
  | cons e events ih =>
      obtain ⟨he, htyped⟩ := h.event e
      obtain ⟨hrest, hrestTyped⟩ := ih he
      rw [List.append_assoc, List.singleton_append] at hrest
      rw [List.flatMap_cons, scanRun_append, htyped, hrestTyped]
      exact ⟨hrest, rfl⟩

theorem keyboardInit_follows (kb : Keyboard) : Follows (keyboardInit kb) [] := ⟨rfl, rfl⟩

/-- No modifier is stuck behind a stream of complete events: each flag follows the last plain
event of its key, Caps Lock the parity of its presses, no prefix is pending, and the
characters offered to the buffer are those of the other presses under the flags of the
moment. -/
theorem no_stuck_modifiers (kb : Keyboard) (events : List KeyEvent) :
    let run := scanRun (keyboardInit kb) (events.flatMap KeyEvent.bytes)
    run.1.extendedPending = false
      ∧ (∀ p ∈ modifierKeys, run.1.modifiers &&& p.1 ≠ 0#8 ↔ held p.2 events = true)
      ∧ (run.1.modifiers &&& KB_MOD_CAPSLOCK ≠ 0#8 ↔ capsPresses events % 2 = 1)
      ∧ run.2 = typed [] events := by
  obtain ⟨⟨hpending, hmodifiers⟩, htyped⟩ := (keyboardInit_follows kb).events events
  obtain ⟨hl, hr, hc, ha, hk, -⟩ := modifierByte_test (held 0x2A#8 events) (held 0x36#8 events)
    (held 0x1D#8 events) (held 0x38#8 events) (capsOn events)
  rw [List.nil_append, heldByte] at hmodifiers
  refine ⟨hpending, ?_, ?_, htyped⟩
  · simp only [modifierKeys, List.forall_mem_cons, hmodifiers]
    exact ⟨hl, hr, hc, ha, nofun⟩
  · rw [hmodifiers, hk, capsOn, decide_eq_true_eq]

/-- Left shift, `a`, an extended release that looks like left shift, `b`, shift released,
`c`. -/
example :
    (scanRun (keyboardInit ⟨0#8, true, fun _ => 0#8, 0, 0⟩)
      [0x2A#8, 0x1E#8, 0xE0#8, 0xAA#8, 0x30#8, 0xAA#8, 0x2E#8]).2
      = [charByte 'A', charByte 'B', charByte 'c'] := by
  decide +kernel

end Matryoshka
