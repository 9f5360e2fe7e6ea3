import Matryoshka.Keyboard
import Matryoshka.RingBuf

/-!
# The keyboard buffer is a queue

`KbRep` relates the ring buffer to the list of all characters `buf_put`
ever accepted: those from index `lo` on are unread and in their slots. One
slot stays empty, so at most 255 are unread. Each rule says what one
statement does to that relation.

`KbSys` is one reader in `keyboard_getchar` with the interrupt handler
running between any two of its statements.
-/

namespace Matryoshka

open RingBuf

/-! ## The ring -/

structure KbRep (kb : Keyboard) (accepted : List (BitVec 8)) (lo : Nat) : Prop where
  head : kb.kbHead = accepted.length % KB_BUFFER_SIZE
  tail : kb.kbTail = lo % KB_BUFFER_SIZE
  lo_le : lo ≤ accepted.length
  room : accepted.length ≤ lo + 255
  slots : Window KB_BUFFER_SIZE (fun slot c => kb.kbBuffer slot = c) accepted lo

section Ring

variable {kb kb' : Keyboard} {accepted : List (BitVec 8)} {lo : Nat}

theorem keyboardInit_rep (kb : Keyboard) : KbRep (keyboardInit kb) [] 0 :=
  ⟨rfl, rfl, Nat.le_refl _, Nat.zero_le _, fun _ _ _ h => by cases h⟩

theorem KbRep.sameRing (h : KbRep kb accepted lo) (hs : SameRing kb kb') :
    KbRep kb' accepted lo := by
  obtain ⟨m, e, rfl⟩ := hs
  exact ⟨h.head, h.tail, h.lo_le, h.room, h.slots⟩

theorem SameRing.bufFull (hs : SameRing kb kb') : bufFull kb' = bufFull kb := by
  obtain ⟨m, e, rfl⟩ := hs
  rfl

theorem KbRep.empty_iff (h : KbRep kb accepted lo) :
    kb.kbHead = kb.kbTail ↔ accepted.length = lo := by
  obtain ⟨hh, ht, hle, hroom, -⟩ := h
  rw [hh, ht, KB_BUFFER_SIZE]
  omega

theorem KbRep.hasInput_iff (h : KbRep kb accepted lo) :
    keyboardHasInput kb = true ↔ lo < accepted.length := by
  have hle := h.lo_le
  rw [keyboardHasInput, decide_eq_true_eq, Ne, h.empty_iff]
  omega

theorem KbRep.full_iff (h : KbRep kb accepted lo) :
    bufFull kb = true ↔ accepted.length = lo + 255 := by
  obtain ⟨hh, ht, hle, hroom, -⟩ := h
  rw [bufFull, decide_eq_true_eq, nextIndex, hh, ht, KB_BUFFER_SIZE]
  omega

/-- `buf_put` with room stores the next character. -/
theorem KbRep.put (h : KbRep kb accepted lo) (c : BitVec 8) (hroom : bufFull kb = false) :
    KbRep (bufPut kb c) (accepted ++ [c]) lo := by
  have hlt : accepted.length < lo + 255 := by
    have hne : accepted.length ≠ lo + 255 := fun heq => by
      rw [h.full_iff.mpr heq] at hroom
      cases hroom
    have := h.room
    omega
  rw [bufPut, hroom, if_neg Bool.false_ne_true]
  refine ⟨?_, h.tail, ?_, ?_, ?_⟩
  · rw [List.length_append, List.length_singleton]
    dsimp only
    rw [nextIndex, h.head, Nat.mod_add_mod]
  · rw [List.length_append]
    exact Nat.le_add_right_of_le h.lo_le
  · rw [List.length_append, List.length_singleton]
    omega
  · refine h.slots.push (by rw [KB_BUFFER_SIZE]; omega) (fun slot x hslot hx => ?_) ?_
    · dsimp only
      rw [Function.update_of_ne (h.head ▸ hslot)]
      exact hx
    · dsimp only
      rw [← h.head, Function.update_self]

theorem bufPut_full (kb : Keyboard) (c : BitVec 8) : bufPut kb c = kb ↔ bufFull kb = true := by
  rw [bufPut]
  constructor
  · intro heq
    by_contra hfull
    rw [if_neg hfull] at heq
    have hnext : nextIndex kb.kbHead = kb.kbHead := congrArg Keyboard.kbHead heq
    rw [nextIndex, KB_BUFFER_SIZE] at hnext
    omega
  · exact fun hfull => if_pos hfull

/-- The slot at the tail holds the oldest unread character. -/
theorem KbRep.front (h : KbRep kb accepted lo) (hlo : lo < accepted.length) :
    accepted[lo]? = some (kb.kbBuffer kb.kbTail) := by
  have hget := List.getElem?_eq_getElem hlo
  have hslot := h.slots lo _ (Nat.le_refl _) hget
  rw [h.tail, hslot, hget]

theorem KbRep.pop (h : KbRep kb accepted lo) (hlo : lo < accepted.length) :
    KbRep { kb with kbTail := nextIndex kb.kbTail } accepted (lo + 1) := by
  refine ⟨h.head, ?_, hlo, Nat.le_trans h.room (by omega), h.slots.pop⟩
  dsimp only
  rw [nextIndex, h.tail, KB_BUFFER_SIZE]
  omega

end Ring

/-! ## The interrupt handler -/

/-- What `buf_put` accepts when the handler runs on a scancode. -/
def keyAccepted (kb : Keyboard) (scancode : BitVec 8) : List (BitVec 8) :=
  if bufFull kb then [] else (decodeKey kb scancode).2.toList

theorem keyAccepted_cases (kb : Keyboard) (scancode : BitVec 8) :
    keyAccepted kb scancode = [] ∨ ∃ c, keyAccepted kb scancode = [c] ∧ bufFull kb = false := by
  rw [keyAccepted]
  cases hfull : bufFull kb with
  | true => exact Or.inl rfl
  | false =>
      cases (decodeKey kb scancode).2 with
      | none => exact Or.inl rfl
      | some c => exact Or.inr ⟨c, rfl, rfl⟩

theorem KbRep.irq {kb : Keyboard} {accepted : List (BitVec 8)} {lo : Nat}
    (h : KbRep kb accepted lo) (scancode : BitVec 8) :
    KbRep (keyboardIrqHandler kb scancode) (accepted ++ keyAccepted kb scancode) lo := by
  have hfull := (decodeKey_ring kb scancode).bufFull
  have hrep := h.sameRing (decodeKey_ring kb scancode)
  rw [keyboardIrqHandler, keyAccepted]
  rcases hdec : decodeKey kb scancode with ⟨kb', c⟩
  rw [hdec] at hfull hrep
  cases c with
  | none =>
      have hnone : (if bufFull kb then [] else (none : Option (BitVec 8)).toList) = [] := by
        split <;> rfl
      dsimp only
      rw [hnone, List.append_nil]
      exact hrep
  | some c =>
      dsimp only
      cases hk : bufFull kb with
      | true =>
          rw [if_pos rfl, List.append_nil, (bufPut_full kb' c).mpr (hfull.trans hk)]
          exact hrep
      | false =>
          rw [if_neg Bool.false_ne_true]
          exact hrep.put c (hfull.trans hk)

/-! ## One reader -/

/-- The driver, its reader, and all characters accepted and returned so far. -/
structure KbSys where
  kb : Keyboard
  pc : GetcharPc
  accepted : List (BitVec 8)
  returned : List (BitVec 8)

def KbSys.irq (sys : KbSys) (scancode : BitVec 8) : KbSys :=
  { sys with
    kb := keyboardIrqHandler sys.kb scancode
    accepted := sys.accepted ++ keyAccepted sys.kb scancode }

def KbSys.stmt (sys : KbSys) : KbSys :=
  let (pc, kb, out) := getcharStep sys.kb sys.pc
  { sys with kb := kb, pc := pc, returned := sys.returned ++ out.toList }

inductive KbStep : KbSys → KbSys → Prop
  | irq (sys : KbSys) (scancode : BitVec 8) : KbStep sys (sys.irq scancode)
  | stmt (sys : KbSys) : KbStep sys sys.stmt

inductive KbReach : KbSys → Prop
  | init (kb : Keyboard) : KbReach ⟨keyboardInit kb, .idle, [], []⟩
  | step {sys sys' : KbSys} : KbReach sys → KbStep sys sys' → KbReach sys'

/-- A character that has left the queue but is not returned yet. -/
def GetcharPc.inFlight : GetcharPc → List (BitVec 8)
  | .ret c => [c]
  | _ => []

/-- What the place of a reader says about the queue. -/
def GetcharOk (accepted : List (BitVec 8)) (lo : Nat) : GetcharPc → Prop
  | .fetch => lo < accepted.length
  | .update c => accepted[lo]? = some c
  | _ => True

/-- A statement before the read of the buffer, from `pc` to `pc'`. -/
structure QuietMove (kb : Keyboard) (pc pc' : GetcharPc) : Prop where
  step : getcharStep kb pc = (pc', kb, none)
  not_fetch : pc ≠ .fetch
  old : pc.inFlight = []
  new : pc'.inFlight = []
  not_update : ∀ c, pc' ≠ .update c
  enters : pc' = .fetch → pc = .test ∧ kb.kbHead ≠ kb.kbTail

/-- The statements of `keyboard_getchar`. -/
theorem getchar_cases (kb : Keyboard) (pc : GetcharPc) :
    (∃ pc', QuietMove kb pc pc') ∨ pc = .fetch ∨ (∃ c, pc = .update c) ∨ ∃ c, pc = .ret c := by
  cases pc with
  | idle => exact Or.inl ⟨.test, rfl, nofun, rfl, rfl, nofun, nofun⟩
  | wait => exact Or.inl ⟨.test, rfl, nofun, rfl, rfl, nofun, nofun⟩
  | test =>
      by_cases hempty : kb.kbHead = kb.kbTail
      · refine Or.inl ⟨.wait, ?_, nofun, rfl, rfl, nofun, nofun⟩
        rw [getcharStep, if_pos hempty]
      · refine Or.inl ⟨.fetch, ?_, nofun, rfl, rfl, nofun, fun _ => ⟨rfl, hempty⟩⟩
        rw [getcharStep, if_neg hempty]
  | fetch => exact Or.inr (Or.inl rfl)
  | update c => exact Or.inr (Or.inr (Or.inl ⟨c, rfl⟩))
  | ret c => exact Or.inr (Or.inr (Or.inr ⟨c, rfl⟩))

structure KbInv (sys : KbSys) (lo : Nat) : Prop where
  rep : KbRep sys.kb sys.accepted lo
  read : sys.accepted.take lo = sys.returned ++ sys.pc.inFlight
  pc : GetcharOk sys.accepted lo sys.pc

section Inv

variable {sys sys' : KbSys} {lo : Nat}

theorem GetcharOk.append {accepted : List (BitVec 8)} {pc : GetcharPc}
    (h : GetcharOk accepted lo pc) (more : List (BitVec 8)) :
    GetcharOk (accepted ++ more) lo pc := by
  cases pc with
  | fetch =>
      rw [GetcharOk, List.length_append]
      exact Nat.lt_add_right _ h
  | update c =>
      obtain ⟨hlt, -⟩ := List.getElem?_eq_some_iff.mp h
      rw [GetcharOk, List.getElem?_append_left hlt]
      exact h
  | _ => trivial

theorem irq_kbInv (h : KbInv sys lo) (scancode : BitVec 8) : KbInv (sys.irq scancode) lo := by
  refine ⟨h.rep.irq scancode, ?_, h.pc.append _⟩
  rw [KbSys.irq, List.take_append_of_le_length h.rep.lo_le]
  exact h.read

theorem KbInv.move {pc : GetcharPc} (h : KbInv sys lo) (hold : sys.pc.inFlight = [])
    (hnew : pc.inFlight = []) (hpc : GetcharOk sys.accepted lo pc) :
    KbInv { sys with pc := pc } lo := by
  refine ⟨h.rep, ?_, hpc⟩
  rw [h.read, hold]
  exact congrArg (sys.returned ++ ·) hnew.symm

/-- A statement that returns nothing and leaves the driver alone. -/
theorem KbSys.stmt_move {pc : GetcharPc} (h : getcharStep sys.kb sys.pc = (pc, sys.kb, none)) :
    sys.stmt = { sys with pc := pc } := by
  rw [KbSys.stmt, h]
  simp only [Option.toList_none, List.append_nil]

theorem stmt_kbInv (h : KbInv sys lo) : ∃ lo', KbInv sys.stmt lo' := by
  have hok := h.pc
  have hread := h.read
  rcases getchar_cases sys.kb sys.pc with ⟨pc, hq⟩ | hpc | ⟨c, hpc⟩ | ⟨c, hpc⟩
  · rw [KbSys.stmt_move hq.step]
    refine ⟨lo, h.move hq.old hq.new ?_⟩
    cases pc with
    | fetch =>
        obtain ⟨-, hne⟩ := hq.enters rfl
        exact h.rep.hasInput_iff.mp (decide_eq_true hne)
    | update c => exact absurd rfl (hq.not_update c)
    | _ => trivial
  · rw [hpc] at hok
    rw [KbSys.stmt_move (by rw [hpc, getcharStep])]
    exact ⟨lo, h.move (by rw [hpc]; rfl) rfl (h.rep.front hok)⟩
  · rw [hpc] at hok hread
    rw [KbSys.stmt, hpc, getcharStep]
    refine ⟨lo + 1, h.rep.pop (List.getElem?_eq_some_iff.mp hok).1, ?_, trivial⟩
    rw [List.take_add_one, hread, hok]
    simp [GetcharPc.inFlight]
  · rw [hpc] at hread
    rw [KbSys.stmt, hpc, getcharStep]
    refine ⟨lo, h.rep, ?_, trivial⟩
    rw [hread]
    simp [GetcharPc.inFlight]

theorem kbReach_inv (h : KbReach sys) : ∃ lo, KbInv sys lo := by
  induction h with
  | init kb => exact ⟨0, keyboardInit_rep kb, rfl, trivial⟩
  | step _ hstep ih =>
      obtain ⟨lo, hinv⟩ := ih
      cases hstep with
      | irq scancode => exact ⟨lo, irq_kbInv hinv scancode⟩
      | stmt => exact stmt_kbInv hinv

end Inv

/-- **The keyboard buffer is a bounded queue.** What was accepted is what was returned,
then at most one character on its way to the caller, then the unread ones, in order.
`buf_put` drops a character exactly if 255 are unread. -/
theorem keyboard_fifo {sys : KbSys} (h : KbReach sys) :
    ∃ unread, sys.accepted = sys.returned ++ sys.pc.inFlight ++ unread
      ∧ unread.length ≤ 255
      ∧ (∀ c, bufPut sys.kb c = sys.kb ↔ unread.length = 255)
      ∧ (keyboardHasInput sys.kb = true ↔ unread ≠ []) := by
  obtain ⟨lo, hrep, hread, -⟩ := kbReach_inv h
  have hle := hrep.lo_le
  have hroom := hrep.room
  refine ⟨sys.accepted.drop lo, ?_, ?_, fun c => ?_, ?_⟩
  · rw [← hread, List.take_append_drop]
  · rw [List.length_drop]
    omega
  · rw [bufPut_full, hrep.full_iff, List.length_drop]
    omega
  · rw [hrep.hasInput_iff, Ne, List.drop_eq_nil_iff]
    omega

/-- The handler runs on the keys `a` and `b` after the reader found the buffer empty, and then
the reader goes on until it returns. -/
def typedWhileWaiting : KbSys :=
  ((((⟨keyboardInit ⟨0#8, false, fun _ => 0#8, 0, 0⟩, .idle, [], []⟩ : KbSys).stmt.stmt).irq
    0x1E#8).irq 0x30#8).stmt.stmt.stmt.stmt.stmt

theorem typedWhileWaiting_reach : KbReach typedWhileWaiting :=
  (((((((((KbReach.init _).step (.stmt _)).step (.stmt _)).step (.irq _ _)).step (.irq _ _)).step
    (.stmt _)).step (.stmt _)).step (.stmt _)).step (.stmt _)).step (.stmt _)

/-- The first key was returned, and the second is still to be read. -/
theorem keyboard_fifo_two :
    typedWhileWaiting.accepted = [charByte 'a', charByte 'b']
      ∧ typedWhileWaiting.returned = [charByte 'a']
      ∧ keyboardHasInput typedWhileWaiting.kb = true := by
  obtain ⟨unread, heq, -, -, hinput⟩ := keyboard_fifo typedWhileWaiting_reach
  have hacc : typedWhileWaiting.accepted = [charByte 'a', charByte 'b'] := by decide +kernel
  have hret : typedWhileWaiting.returned = [charByte 'a'] := by decide +kernel
  refine ⟨hacc, hret, hinput.mpr fun hnil => ?_⟩
  rw [hnil, hacc, hret] at heq
  revert heq
  decide +kernel

end Matryoshka
