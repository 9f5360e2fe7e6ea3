import Matryoshka.Traced
import Matryoshka.Word

/-!
# The VGA text console

`kernel/drivers/vga.c`. The buffer is an array of 16-bit cells; nothing in
the driver checks an index, so it is indexed without a bound and every write
is recorded in the log of a computation (`Traced`), by its index. Characters
are bytes, and `char` is signed. The cursor is two bytes. Of the ports only
the cursor location is modelled, which `vga_update_cursor` writes in two
halves; the shape of the cursor is left out.
-/

namespace Matryoshka

open Traced

/-! ## State and constants -/

def VGA_WIDTH : Nat := 80

def VGA_HEIGHT : Nat := 25

def VGA_COLOR_BLACK : BitVec 32 := 0#32

def VGA_COLOR_LIGHT_GREY : BitVec 32 := 7#32

def VGA_COLOR_LIGHT_GREEN : BitVec 32 := 10#32

def VGA_COLOR_WHITE : BitVec 32 := 15#32

structure Vga where
  vgaBuffer : Nat → BitVec 16
  vgaCursorX : Nat
  vgaCursorY : Nat
  vgaCurrentColor : BitVec 8
  cursorLocation : Nat

/-- The static variables before any call. -/
def Vga.static (vgaBuffer : Nat → BitVec 16) (cursorLocation : Nat) : Vga :=
  ⟨vgaBuffer, 0, 0, 0#8, cursorLocation⟩

/-- `(uint16_t)c | ((uint16_t)color << 8)`, with `c` sign-extended. -/
def vgaEntry (c color : BitVec 8) : BitVec 16 := c.signExtend 16 ||| (color.setWidth 16 <<< 8)

def vgaColor (fg bg : BitVec 32) : BitVec 8 := (fg ||| (bg <<< 4)).setWidth 8

/-- `vga_buffer[index] = cell`. -/
def putCell (v : Vga) (index : Nat) (cell : BitVec 16) : Traced Nat Vga :=
  ⟨{ v with vgaBuffer := Function.update v.vgaBuffer index cell }, [index]⟩

/-! ## The driver -/

def vgaUpdateCursor (v : Vga) (x y : Nat) : Vga :=
  { v with cursorLocation := u16 (y * VGA_WIDTH + x) }

def vgaClear (v : Vga) (fg bg : BitVec 32) : Traced Nat Vga := do
  let blank := vgaEntry 0x20#8 (vgaColor fg bg)
  let v ← forUp (fun i v => putCell v i blank) (VGA_WIDTH * VGA_HEIGHT) v
  return vgaUpdateCursor { v with vgaCursorX := 0, vgaCursorY := 0 } 0 0

def vgaInit (v : Vga) : Traced Nat Vga :=
  vgaClear
    { v with
      vgaCursorX := 0
      vgaCursorY := 0
      vgaCurrentColor := vgaColor VGA_COLOR_LIGHT_GREY VGA_COLOR_BLACK }
    VGA_COLOR_LIGHT_GREY VGA_COLOR_BLACK

def vgaSetColor (v : Vga) (fg bg : BitVec 32) : Vga :=
  { v with vgaCurrentColor := vgaColor fg bg }

/-- One row of the first loop of `vga_scroll`. -/
def scrollRow (y : Nat) (v : Vga) : Traced Nat Vga :=
  forUp (fun x v => putCell v (y * VGA_WIDTH + x) (v.vgaBuffer ((y + 1) * VGA_WIDTH + x)))
    VGA_WIDTH v

def vgaScroll (v : Vga) : Traced Nat Vga := do
  let blank := vgaEntry 0x20#8 v.vgaCurrentColor
  let v ← forUp scrollRow (VGA_HEIGHT - 1) v
  forUp (fun x v => putCell v ((VGA_HEIGHT - 1) * VGA_WIDTH + x) blank) VGA_WIDTH v

/-- The branches of `vga_putchar` on the character. -/
def placeChar (v : Vga) (c : BitVec 8) : Traced Nat Vga :=
  if c = 0x0A#8 then return { v with vgaCursorX := 0, vgaCursorY := u8 (v.vgaCursorY + 1) }
  else if c = 0x0D#8 then return { v with vgaCursorX := 0 }
  else if c = 0x09#8 then return { v with vgaCursorX := u8 ((v.vgaCursorX + 8) / 8 * 8) }
  else if c = 0x08#8 then
    return if 0 < v.vgaCursorX then { v with vgaCursorX := v.vgaCursorX - 1 } else v
  else do
    let v ← putCell v (v.vgaCursorY * VGA_WIDTH + v.vgaCursorX) (vgaEntry c v.vgaCurrentColor)
    return { v with vgaCursorX := u8 (v.vgaCursorX + 1) }

def lineWrap (v : Vga) : Vga :=
  if VGA_WIDTH ≤ v.vgaCursorX then
    { v with vgaCursorX := 0, vgaCursorY := u8 (v.vgaCursorY + 1) }
  else v

def screenScroll (v : Vga) : Traced Nat Vga :=
  if VGA_HEIGHT ≤ v.vgaCursorY then do
    let v ← vgaScroll v
    return { v with vgaCursorY := VGA_HEIGHT - 1 }
  else return v

def vgaPutchar (v : Vga) (c : BitVec 8) : Traced Nat Vga := do
  let v ← placeChar v c
  let v ← screenScroll (lineWrap v)
  return vgaUpdateCursor v v.vgaCursorX v.vgaCursorY

/-- The loop of `vga_puts`: the string may go on behind its first NUL. -/
def putString (v : Vga) : List (BitVec 8) → Traced Nat Vga
  | [] => return v
  | c :: str => if c = 0#8 then return v else do putString (← vgaPutchar v c) str

/-- A null pointer is `none`. -/
def vgaPuts (v : Vga) : Option (List (BitVec 8)) → Traced Nat Vga
  | none => return v
  | some str => putString v str

def vgaPutcharAt (v : Vga) (c x y : BitVec 8) (fg bg : BitVec 32) : Traced Nat Vga :=
  if VGA_WIDTH ≤ x.toNat ∨ VGA_HEIGHT ≤ y.toNat then return v
  else putCell v (y.toNat * VGA_WIDTH + x.toNat) (vgaEntry c (vgaColor fg bg))

def vgaSetCursorPos (v : Vga) (x y : BitVec 8) : Vga :=
  vgaUpdateCursor { v with vgaCursorX := x.toNat, vgaCursorY := y.toNat } x.toNat y.toNat

/-- `vga_putchar` without its log. -/
theorem vgaPutchar_val {v w : Vga} {c : BitVec 8}
    (hw : (screenScroll (lineWrap (placeChar v c).val)).val = w) :
    (vgaPutchar v c).val = vgaUpdateCursor w w.vgaCursorX w.vgaCursorY := by
  rw [vgaPutchar, val_bind, val_bind, val_pure, hw]

/-! ## What the loops do -/

/-- The state with other cells. -/
def Vga.setBuffer (v : Vga) (cells : Nat → BitVec 16) : Vga := { v with vgaBuffer := cells }

theorem putCell_setBuffer (v : Vga) (cells : Nat → BitVec 16) (index : Nat) (cell : BitVec 16) :
    (putCell (v.setBuffer cells) index cell).val
      = v.setBuffer (Function.update cells index cell) := rfl

section Loops

variable (v : Vga)

/-- Filling `n` cells from `a` on. -/
theorem fillCells_val (a : Nat) (cell : BitVec 16) (n : Nat) :
    (forUp (fun i v => putCell v (a + i) cell) n v).val
      = v.setBuffer fun i => if a ≤ i ∧ i < a + n then cell else v.vgaBuffer i := by
  refine forUp_inv (I := fun n v' => v' = v.setBuffer fun i =>
    if a ≤ i ∧ i < a + n then cell else v.vgaBuffer i) ?_ ?_
  · refine congrArg v.setBuffer (funext fun i => ?_)
    rw [if_neg (by omega)]
  · rintro k - _ rfl
    rw [putCell_setBuffer]
    refine congrArg v.setBuffer (funext fun i => ?_)
    rw [Function.update_apply]
    by_cases hi : i = a + k
    · rw [if_pos hi, if_pos (by omega)]
    · rw [if_neg hi]
      exact if_congr (by omega) rfl rfl

/-- A row gets the cells of the row below, which are read before they are overwritten. -/
theorem scrollRow_val (y : Nat) :
    (scrollRow y v).val = v.setBuffer fun i =>
      if y * 80 ≤ i ∧ i < y * 80 + 80 then v.vgaBuffer (i + 80) else v.vgaBuffer i := by
  refine forUp_inv (I := fun n v' => v' = v.setBuffer fun i =>
    if y * 80 ≤ i ∧ i < y * 80 + n then v.vgaBuffer (i + 80) else v.vgaBuffer i) ?_ ?_
  · refine congrArg v.setBuffer (funext fun i => ?_)
    rw [if_neg (by omega)]
  · rintro x - _ rfl
    rw [putCell_setBuffer, VGA_WIDTH]
    refine congrArg v.setBuffer (funext fun i => ?_)
    rw [Function.update_apply]
    by_cases hi : i = y * 80 + x
    · have hsrc : (y + 1) * 80 + x = i + 80 := by omega
      rw [if_pos hi, if_pos (by omega), hsrc]
      exact if_neg (by omega)
    · rw [if_neg hi]
      exact if_congr (by omega) rfl rfl

theorem scrollRows_val (n : Nat) :
    (forUp scrollRow n v).val = v.setBuffer fun i =>
      if i < n * 80 then v.vgaBuffer (i + 80) else v.vgaBuffer i := by
  refine forUp_inv (I := fun n v' => v' = v.setBuffer fun i =>
    if i < n * 80 then v.vgaBuffer (i + 80) else v.vgaBuffer i) ?_ ?_
  · refine congrArg v.setBuffer (funext fun i => ?_)
    rw [if_neg (by omega)]
  · rintro y - _ rfl
    rw [scrollRow_val]
    refine congrArg v.setBuffer (funext fun i => ?_)
    by_cases hrow : y * 80 ≤ i ∧ i < y * 80 + 80
    · rw [if_pos hrow, if_pos (by omega)]
      exact if_neg (by omega)
    · rw [if_neg hrow]
      exact if_congr (by omega) rfl rfl

/-- Everything moves up by one row, and the last row is blank. -/
theorem vgaScroll_val :
    (vgaScroll v).val = v.setBuffer fun i =>
      if i < 1920 then v.vgaBuffer (i + 80)
      else if i < 2000 then vgaEntry 0x20#8 v.vgaCurrentColor else v.vgaBuffer i := by
  rw [vgaScroll, val_bind, fillCells_val, scrollRows_val]
  refine congrArg v.setBuffer (funext fun i => ?_)
  change (if 1920 ≤ i ∧ i < 2000 then _ else if i < 1920 then _ else _) = _
  by_cases hi : i < 1920
  · rw [if_pos hi, if_neg (by omega), if_pos hi]
  · rw [if_neg hi, if_neg hi]
    exact if_congr (by omega) rfl rfl

theorem vgaClear_val (fg bg : BitVec 32) :
    (vgaClear v fg bg).val = { v with
      vgaBuffer := fun i => if i < 2000 then vgaEntry 0x20#8 (vgaColor fg bg) else v.vgaBuffer i
      vgaCursorX := 0
      vgaCursorY := 0
      cursorLocation := 0 } := by
  have hfill := fillCells_val v 0 (vgaEntry 0x20#8 (vgaColor fg bg)) 2000
  simp only [Nat.zero_add, Nat.zero_le, true_and] at hfill
  rw [vgaClear, val_bind]
  exact congrArg (fun v' : Vga => vgaUpdateCursor { v' with vgaCursorX := 0, vgaCursorY := 0 } 0 0)
    hfill

end Loops

/-! ## Where the writes go -/

section Writes

variable {P : Nat → Prop} (v : Vga)

@[simp] theorem all_putCell (index : Nat) (cell : BitVec 16) :
    All P (putCell v index cell) ↔ P index := by
  simp [All, putCell]

theorem vgaClear_inside (fg bg : BitVec 32) : All (· < 2000) (vgaClear v fg bg) := by
  simp only [vgaClear, all_bind, all_pure, and_true]
  refine all_forUp fun i hi s => ?_
  rw [all_putCell]
  exact hi

theorem vgaScroll_inside : All (· < 2000) (vgaScroll v) := by
  simp only [vgaScroll, all_bind]
  refine ⟨all_forUp fun y hy s => all_forUp fun x hx s => ?_, all_forUp fun x hx s => ?_⟩
  · rw [all_putCell]
    unfold VGA_HEIGHT at hy
    unfold VGA_WIDTH at hx ⊢
    omega
  · rw [all_putCell]
    unfold VGA_WIDTH at hx
    unfold VGA_WIDTH VGA_HEIGHT
    omega

end Writes

end Matryoshka
