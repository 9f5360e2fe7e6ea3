import Mathlib.Data.Nat.Basic
import Mathlib.Tactic.Common

/-!
# A reference terminal

A screen of `height` rows and `width` columns with a cursor. Control bytes
move the cursor: newline, carriage return, tab to the next multiple of 8,
and a backspace that does not erase and stops at column 0. Any other byte
is printed as its glyph. A line wraps behind its last column, and behind the
last row everything moves up by one line and a line of blanks comes in.

What is shown is independent of what a cell is (`write_map`): a terminal
over another type of cells does the same with their images.
-/

namespace Matryoshka

structure Terminal (α : Type) where
  cell : Nat → Nat → α
  row : Nat
  col : Nat

namespace Terminal

variable {α β : Type}

/-! ## Operations -/

/-- What a byte does before the edges of the screen are looked at. -/
def act (glyph : BitVec 8 → α) (t : Terminal α) (b : BitVec 8) : Terminal α :=
  if b = 0x0A#8 then { t with col := 0, row := t.row + 1 }
  else if b = 0x0D#8 then { t with col := 0 }
  else if b = 0x09#8 then { t with col := (t.col / 8 + 1) * 8 }
  else if b = 0x08#8 then { t with col := t.col - 1 }
  else
    { t with
      cell := fun r c => if r = t.row ∧ c = t.col then glyph b else t.cell r c
      col := t.col + 1 }

def wrap (width : Nat) (t : Terminal α) : Terminal α :=
  if width ≤ t.col then { t with col := 0, row := t.row + 1 } else t

def scroll (height : Nat) (blank : α) (t : Terminal α) : Terminal α :=
  if height ≤ t.row then
    { t with
      cell := fun r c => if r + 1 < height then t.cell (r + 1) c else blank
      row := height - 1 }
  else t

section Write

variable (width height : Nat) (blank : α) (glyph : BitVec 8 → α)

def feed (t : Terminal α) (b : BitVec 8) : Terminal α :=
  scroll height blank (wrap width (act glyph t b))

/-- A string, up to a NUL. -/
def write (t : Terminal α) : List (BitVec 8) → Terminal α
  | [] => t
  | b :: text => if b = 0#8 then t else write (feed width height blank glyph t b) text

end Write

/-! ## Other cells -/

def map (f : α → β) (t : Terminal α) : Terminal β := ⟨fun r c => f (t.cell r c), t.row, t.col⟩

section Map

variable (f : α → β) (t : Terminal α)

theorem act_map (glyph : BitVec 8 → α) (b : BitVec 8) :
    (act glyph t b).map f = act (fun b => f (glyph b)) (t.map f) b := by
  unfold act
  split_ifs
  · rfl
  · rfl
  · rfl
  · rfl
  · simp only [map, apply_ite f]
    rfl

theorem wrap_map (width : Nat) : (wrap width t).map f = wrap width (t.map f) :=
  apply_ite (map f) ..

theorem scroll_map (height : Nat) (blank : α) :
    (scroll height blank t).map f = scroll height (f blank) (t.map f) := by
  rw [scroll, scroll, apply_ite (map f)]
  refine if_congr Iff.rfl ?_ rfl
  simp only [map, apply_ite f]

theorem write_map (width height : Nat) (blank : α) (glyph : BitVec 8 → α) :
    ∀ (text : List (BitVec 8)) (t : Terminal α),
      (write width height blank glyph t text).map f
        = write width height (f blank) (fun b => f (glyph b)) (t.map f) text := by
  intro text
  induction text with
  | nil =>
      intro t
      rfl
  | cons b text ih =>
      intro t
      rw [write, write, apply_ite (map f), ih, feed, scroll_map, wrap_map, act_map]
      rfl

end Map

end Terminal

end Matryoshka
