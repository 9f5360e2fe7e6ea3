import Matryoshka.Terminal
import Matryoshka.Vga

/-!
# The console as a terminal

Two results about `kernel/drivers/vga.c`. No call writes outside the text
buffer as long as `vga_set_cursor_pos` places the cursor on one of its
cells: every printed character brings the cursor back onto the screen,
whatever it was before. And `vga_puts` is a reference terminal as far as the
cursor and the places of the characters go. What a cell holds is another
matter: a byte from 0x80 on is sign-extended over the attribute.
-/

namespace Matryoshka

open Traced

/-! ## Calls -/

inductive VgaCall
  | init
  | clear (fg bg : BitVec 32)
  | setColor (fg bg : BitVec 32)
  | putchar (c : BitVec 8)
  | puts (str : Option (List (BitVec 8)))
  | putcharAt (c x y : BitVec 8) (fg bg : BitVec 32)
  | scroll
  | setCursorPos (x y : BitVec 8)

def VgaCall.run (v : Vga) : VgaCall → Traced Nat Vga
  | .init => vgaInit v
  | .clear fg bg => vgaClear v fg bg
  | .setColor fg bg => return vgaSetColor v fg bg
  | .putchar c => vgaPutchar v c
  | .puts str => vgaPuts v str
  | .putcharAt c x y fg bg => vgaPutcharAt v c x y fg bg
  | .scroll => vgaScroll v
  | .setCursorPos x y => return vgaSetCursorPos v x y

def vgaRun (v : Vga) : List VgaCall → Traced Nat Vga
  | [] => return v
  | c :: calls => do vgaRun (← c.run v) calls

/-! ## Writes stay in the buffer -/

/-- The cursor is on a cell of the buffer, not necessarily in its own row. -/
def OnCell (v : Vga) : Prop := v.vgaCursorY * VGA_WIDTH + v.vgaCursorX < VGA_WIDTH * VGA_HEIGHT

section Inside

variable {v : Vga}

theorem onCell_of_lt (hx : v.vgaCursorX < 80) (hy : v.vgaCursorY < 25) : OnCell v := by
  unfold OnCell VGA_WIDTH VGA_HEIGHT
  omega

theorem onCell_home (hx : v.vgaCursorX = 0) (hy : v.vgaCursorY = 0) : OnCell v :=
  onCell_of_lt (hx ▸ Nat.succ_pos 79) (hy ▸ Nat.succ_pos 24)

theorem lineWrap_col (v : Vga) : (lineWrap v).vgaCursorX < 80 := by
  unfold lineWrap
  split
  case isTrue => exact Nat.succ_pos 79
  case isFalse h => exact Nat.lt_of_not_le h

theorem screenScroll_cursor (v : Vga) :
    (screenScroll v).val.vgaCursorX = v.vgaCursorX ∧ (screenScroll v).val.vgaCursorY < 25 := by
  unfold screenScroll
  rw [val_ite]
  split
  case isTrue =>
      rw [val_bind, vgaScroll_val]
      exact ⟨rfl, Nat.lt_succ_self 24⟩
  case isFalse h => exact ⟨rfl, Nat.lt_of_not_le h⟩

/-- A character leaves the cursor on the screen, wherever it was before. -/
theorem vgaPutchar_cursor (v : Vga) (c : BitVec 8) :
    (vgaPutchar v c).val.vgaCursorX < 80 ∧ (vgaPutchar v c).val.vgaCursorY < 25 := by
  obtain ⟨hx, hy⟩ := screenScroll_cursor (lineWrap (placeChar v c).val)
  rw [vgaPutchar_val rfl]
  exact ⟨Nat.lt_of_le_of_lt (Nat.le_of_eq hx) (lineWrap_col _), hy⟩

theorem placeChar_inside (h : OnCell v) (c : BitVec 8) :
    All (· < VGA_WIDTH * VGA_HEIGHT) (placeChar v c) := by
  simp only [placeChar, all_ite, all_pure, all_bind, all_putCell, implies_true, true_and, and_true]
  intro _ _ _ _
  exact h

theorem screenScroll_inside (v : Vga) : All (· < VGA_WIDTH * VGA_HEIGHT) (screenScroll v) := by
  simp only [screenScroll, all_ite, all_pure, all_bind, and_true, implies_true]
  exact fun _ => vgaScroll_inside v

theorem vgaPutchar_inside (h : OnCell v) (c : BitVec 8) :
    All (· < VGA_WIDTH * VGA_HEIGHT) (vgaPutchar v c) := by
  simp only [vgaPutchar, all_bind, all_pure, and_true]
  exact ⟨placeChar_inside h c, screenScroll_inside _⟩

theorem putString_inside (str : List (BitVec 8)) : ∀ {v : Vga}, OnCell v →
    All (· < VGA_WIDTH * VGA_HEIGHT) (putString v str) ∧ OnCell (putString v str).val := by
  induction str with
  | nil =>
      intro v h
      exact ⟨all_pure v, h⟩
  | cons c str ih =>
      intro v h
      rw [putString]
      split
      · exact ⟨all_pure v, h⟩
      · obtain ⟨hx, hy⟩ := vgaPutchar_cursor v c
        obtain ⟨hall, hon⟩ := ih (onCell_of_lt hx hy)
        rw [all_bind, val_bind]
        exact ⟨⟨vgaPutchar_inside h c, hall⟩, hon⟩

theorem vgaPutcharAt_inside (v : Vga) (c x y : BitVec 8) (fg bg : BitVec 32) :
    All (· < VGA_WIDTH * VGA_HEIGHT) (vgaPutcharAt v c x y fg bg) := by
  simp only [vgaPutcharAt, all_ite, all_pure, all_putCell, implies_true, true_and]
  unfold VGA_WIDTH VGA_HEIGHT
  omega

/-- Every call writes inside the buffer and leaves the cursor on a cell. -/
theorem VgaCall.run_inside (h : OnCell v) (c : VgaCall)
    (hset : ∀ x y, c = .setCursorPos x y → y.toNat * VGA_WIDTH + x.toNat < VGA_WIDTH * VGA_HEIGHT) :
    All (· < VGA_WIDTH * VGA_HEIGHT) (c.run v) ∧ OnCell (c.run v).val := by
  cases c with
  | init =>
      refine ⟨vgaClear_inside _ _ _, ?_⟩
      rw [VgaCall.run, vgaInit, vgaClear_val]
      exact onCell_home rfl rfl
  | clear fg bg =>
      refine ⟨vgaClear_inside _ _ _, ?_⟩
      rw [VgaCall.run, vgaClear_val]
      exact onCell_home rfl rfl
  | setColor fg bg => exact ⟨all_pure _, h⟩
  | putchar c =>
      obtain ⟨hx, hy⟩ := vgaPutchar_cursor v c
      exact ⟨vgaPutchar_inside h c, onCell_of_lt hx hy⟩
  | puts str =>
      cases str with
      | none => exact ⟨all_pure v, h⟩
      | some str => exact putString_inside str h
  | putcharAt c x y fg bg =>
      refine ⟨vgaPutcharAt_inside v c x y fg bg, ?_⟩
      rw [VgaCall.run, vgaPutcharAt, val_ite]
      split
      · exact h
      · exact h
  | scroll =>
      refine ⟨vgaScroll_inside v, ?_⟩
      rw [VgaCall.run, vgaScroll_val]
      exact h
  | setCursorPos x y => exact ⟨all_pure _, hset x y rfl⟩

theorem vgaRun_inside (calls : List VgaCall)
    (hset : ∀ x y, .setCursorPos x y ∈ calls →
      y.toNat * VGA_WIDTH + x.toNat < VGA_WIDTH * VGA_HEIGHT) :
    ∀ {v : Vga}, OnCell v → All (· < VGA_WIDTH * VGA_HEIGHT) (vgaRun v calls) := by
  induction calls with
  | nil =>
      intro v _
      exact all_pure v
  | cons c calls ih =>
      intro v h
      obtain ⟨hall, hon⟩ := c.run_inside h fun x y hc => hset x y (hc ▸ List.mem_cons_self)
      rw [vgaRun, all_bind]
      exact ⟨hall, ih (fun x y hmem => hset x y (List.mem_cons_of_mem c hmem)) hon⟩

end Inside

/-- The static variables, then the cursor at `(x, y)` and one letter. -/
theorem letter_at (v : Vga) (x y : BitVec 8)
    (h : All (· < VGA_WIDTH * VGA_HEIGHT) (vgaRun v [.setCursorPos x y, .putchar 0x41#8])) :
    y.toNat * VGA_WIDTH + x.toNat < VGA_WIDTH * VGA_HEIGHT := by
  simp only [vgaRun, VgaCall.run, vgaPutchar, all_bind] at h
  exact h.2.1.1 _ (List.mem_singleton_self _)

/-- With the positions given to `vga_set_cursor_pos` restricted to `Ok`, all sequences of
calls stay inside the text buffer exactly if every such position is a cell of it. -/
theorem vga_writes_inside_iff (Ok : BitVec 8 → BitVec 8 → Prop) :
    (∀ vgaBuffer cursorLocation calls, (∀ x y, .setCursorPos x y ∈ calls → Ok x y) →
        All (· < VGA_WIDTH * VGA_HEIGHT) (vgaRun (Vga.static vgaBuffer cursorLocation) calls))
      ↔ ∀ x y, Ok x y → y.toNat * VGA_WIDTH + x.toNat < VGA_WIDTH * VGA_HEIGHT := by
  constructor
  · intro hall x y hok
    refine letter_at (Vga.static (fun _ => 0#16) 0) x y (hall _ _ _ fun x' y' hmem => ?_)
    simp only [List.mem_cons, VgaCall.setCursorPos.injEq, reduceCtorEq, List.not_mem_nil,
      or_false] at hmem
    rw [hmem.1, hmem.2]
    exact hok
  · intro hok vgaBuffer cursorLocation calls hcalls
    exact vgaRun_inside calls (fun x y hmem => hok x y (hcalls x y hmem))
      (onCell_home rfl rfl)

/-- `vga_set_cursor_pos(0, 25)` and one letter: the write goes to the first index behind the
buffer. -/
theorem vga_letter_outside :
    ¬All (· < VGA_WIDTH * VGA_HEIGHT)
      (vgaRun (Vga.static (fun _ => 0#16) 0) [.setCursorPos 0#8 25#8, .putchar 0x41#8]) :=
  fun h => absurd (letter_at _ 0#8 25#8 h) (by decide)

/-! ## The terminal with the cells of the driver -/

/-- The screen and the cursor are those of the terminal. -/
structure Shows (v : Vga) (t : Terminal (BitVec 16)) : Prop where
  cells : ∀ r c, r < 25 → c < 80 → v.vgaBuffer (r * 80 + c) = t.cell r c
  row : v.vgaCursorY = t.row
  col : v.vgaCursorX = t.col

/-- The terminal that prints as the driver does. -/
def driverWrite (color : BitVec 8) :
    Terminal (BitVec 16) → List (BitVec 8) → Terminal (BitVec 16) :=
  Terminal.write 80 25 (vgaEntry 0x20#8 color) fun b => vgaEntry b color

section Shows

variable {v : Vga} {t : Terminal (BitVec 16)}

/-- Two places of the screen are one cell only if they are the same. -/
theorem cellIndex_eq {r c r' c' : Nat} (hc : c < 80) (hc' : c' < 80) :
    r * 80 + c = r' * 80 + c' ↔ r = r' ∧ c = c' := by
  omega

theorem placeChar_shows (h : Shows v t) (hrow : t.row < 25) (hcol : t.col < 80) (b : BitVec 8) :
    Shows (placeChar v b).val (t.act (fun b => vgaEntry b v.vgaCurrentColor) b) := by
  have hx := h.col
  have hy := h.row
  simp only [placeChar, Terminal.act, val_ite, val_pure, val_bind]
  split_ifs
  · exact ⟨h.cells, by rw [hy, u8_of_lt (by omega)], rfl⟩
  · exact ⟨h.cells, hy, rfl⟩
  · refine ⟨h.cells, hy, ?_⟩
    rw [hx, u8_of_lt (by omega)]
    dsimp only
    omega
  · exact ⟨h.cells, hy, by rw [hx]⟩
  · refine ⟨h.cells, hy, ?_⟩
    dsimp only
    omega
  · refine ⟨?_, hy, ?_⟩
    · intro r c hr hc
      simp only [putCell, Function.update_apply, VGA_WIDTH, hx, hy]
      exact if_congr (cellIndex_eq hc hcol) rfl (h.cells r c hr hc)
    · simp only [putCell]
      rw [hx, u8_of_lt (by omega)]

/-- Behind a byte the cursor is at most one step beyond one of the edges. -/
theorem act_edges (glyph : BitVec 8 → BitVec 16) (hrow : t.row < 25) (hcol : t.col < 80)
    (b : BitVec 8) :
    (t.act glyph b).col < 80 ∧ (t.act glyph b).row ≤ 25
      ∨ (t.act glyph b).col = 80 ∧ (t.act glyph b).row < 25 := by
  unfold Terminal.act
  split_ifs
  all_goals
    dsimp only
    omega

theorem lineWrap_shows (h : Shows v t)
    (hedge : t.col < 80 ∧ t.row ≤ 25 ∨ t.col = 80 ∧ t.row < 25) :
    Shows (lineWrap v) (t.wrap 80) := by
  unfold lineWrap Terminal.wrap VGA_WIDTH
  rw [h.col]
  split
  · refine ⟨h.cells, ?_, rfl⟩
    rw [h.row, u8_of_lt (by omega)]
  · exact h

theorem screenScroll_shows (h : Shows v t) :
    Shows (screenScroll v).val (t.scroll 25 (vgaEntry 0x20#8 v.vgaCurrentColor)) := by
  unfold screenScroll Terminal.scroll VGA_HEIGHT
  rw [val_ite, h.row]
  split
  · rw [val_bind, vgaScroll_val]
    refine ⟨?_, rfl, h.col⟩
    intro r c hr hc
    simp only [Vga.setBuffer, val_pure]
    by_cases hlast : r + 1 < 25
    · have hbelow : r * 80 + c + 80 = (r + 1) * 80 + c := by omega
      rw [if_pos (by omega), if_pos hlast, hbelow, h.cells _ _ hlast hc]
    · rw [if_neg (by omega), if_pos (by omega), if_neg hlast]
  · exact h

theorem placeChar_color (v : Vga) (b : BitVec 8) :
    (placeChar v b).val.vgaCurrentColor = v.vgaCurrentColor := by
  simp only [placeChar, val_ite, val_pure, val_bind]
  split_ifs
  all_goals rfl

theorem lineWrap_color (v : Vga) : (lineWrap v).vgaCurrentColor = v.vgaCurrentColor := by
  unfold lineWrap
  split
  · rfl
  · rfl

theorem screenScroll_color (v : Vga) :
    (screenScroll v).val.vgaCurrentColor = v.vgaCurrentColor := by
  rw [screenScroll, val_ite]
  split
  · rw [val_bind, vgaScroll_val]
    rfl
  · rfl

theorem vgaPutchar_color (v : Vga) (b : BitVec 8) :
    (vgaPutchar v b).val.vgaCurrentColor = v.vgaCurrentColor := by
  rw [vgaPutchar_val rfl]
  exact (screenScroll_color _).trans ((lineWrap_color _).trans (placeChar_color v b))

/-- One character is one byte fed to the terminal. -/
theorem vgaPutchar_shows (h : Shows v t) (hrow : t.row < 25) (hcol : t.col < 80) (b : BitVec 8) :
    Shows (vgaPutchar v b).val (t.feed 80 25 (vgaEntry 0x20#8 v.vgaCurrentColor)
      (fun b => vgaEntry b v.vgaCurrentColor) b) := by
  have hplace := placeChar_shows h hrow hcol b
  have hwrap := lineWrap_shows hplace (act_edges _ hrow hcol b)
  have hscroll := screenScroll_shows hwrap
  rw [lineWrap_color, placeChar_color] at hscroll
  rw [vgaPutchar_val rfl]
  exact ⟨hscroll.cells, hscroll.row, hscroll.col⟩

theorem putString_shows (str : List (BitVec 8)) :
    ∀ {v : Vga} {t : Terminal (BitVec 16)}, Shows v t → t.row < 25 → t.col < 80 →
      Shows (putString v str).val (driverWrite v.vgaCurrentColor t str) := by
  induction str with
  | nil =>
      intro v t h _ _
      exact h
  | cons b str ih =>
      intro v t h hrow hcol
      rw [putString, driverWrite, Terminal.write, val_ite]
      split
      · exact h
      · have hnext := vgaPutchar_shows h hrow hcol b
        obtain ⟨hx, hy⟩ := vgaPutchar_cursor v b
        have hstr := ih hnext (hnext.row ▸ hy) (hnext.col ▸ hx)
        rw [vgaPutchar_color] at hstr
        exact hstr

/-- The cursor the hardware shows is the cursor of the driver. -/
def Synced (v : Vga) : Prop := v.cursorLocation = v.vgaCursorY * VGA_WIDTH + v.vgaCursorX

theorem vgaPutchar_synced (v : Vga) (b : BitVec 8) : Synced (vgaPutchar v b).val := by
  obtain ⟨hx, hy⟩ := vgaPutchar_cursor v b
  rw [vgaPutchar_val rfl] at hx hy ⊢
  generalize (screenScroll (lineWrap (placeChar v b).val)).val = w at *
  simp only [vgaUpdateCursor] at hx hy
  refine u16_of_lt ?_
  unfold VGA_WIDTH
  omega

theorem putString_synced (str : List (BitVec 8)) :
    ∀ {v : Vga}, Synced v → Synced (putString v str).val := by
  induction str with
  | nil =>
      intro v h
      exact h
  | cons b str ih =>
      intro v h
      rw [putString, val_ite]
      split
      · exact h
      · exact ih (vgaPutchar_synced v b)

end Shows

/-! ## The reference terminal -/

/-- The terminal with the attribute in the high byte of a cell and the character in the low
byte. -/
def referenceWrite (color : BitVec 8) :
    Terminal (BitVec 16) → List (BitVec 8) → Terminal (BitVec 16) :=
  Terminal.write 80 25 (color ++ 0x20#8) fun b => color ++ b

def screenOf (v : Vga) : Terminal (BitVec 16) :=
  ⟨fun r c => v.vgaBuffer (r * 80 + c), v.vgaCursorY, v.vgaCursorX⟩

/-- The places of the screen that show a byte of the string at its end. -/
def printed (v : Vga) : List (BitVec 8) → Terminal (Option (BitVec 8)) :=
  Terminal.write 80 25 none some ⟨fun _ _ => none, v.vgaCursorY, v.vgaCursorX⟩

theorem vgaEntry_getLsbD (b color : BitVec 8) {i : Nat} (hi : i < 16) :
    (vgaEntry b color).getLsbD i
      = if i < 8 then b.getLsbD i else b.msb || color.getLsbD (i - 8) := by
  rw [vgaEntry, BitVec.getLsbD_or, BitVec.getLsbD_signExtend, BitVec.getLsbD_shiftLeft,
    BitVec.getLsbD_setWidth]
  by_cases h : i < 8
  · simp [h, hi]
  · have hlt : i - 8 < 16 := by omega
    simp [h, hi, hlt]

/-- The sign of the character covers the attribute, unless all its bits are set. -/
theorem vgaEntry_eq_iff (b color : BitVec 8) :
    vgaEntry b color = color ++ b ↔ b.toNat < 0x80 ∨ color = 0xFF#8 := by
  have hmsb : b.msb = false ↔ b.toNat < 0x80 := by
    rw [BitVec.msb_eq_decide, decide_eq_false_iff_not]
    omega
  have hfull : ∀ j < 8, (0xFF#8).getLsbD j = true := by decide
  rw [← hmsb]
  constructor
  · intro heq
    rw [Classical.or_iff_not_imp_left, Bool.not_eq_false]
    intro hneg
    apply BitVec.eq_of_getLsbD_eq
    intro j hj
    have hbit := congrArg (BitVec.getLsbD · (j + 8)) heq
    simp only [vgaEntry_getLsbD b color (show j + 8 < 16 by omega), BitVec.getLsbD_append, hneg,
      Nat.add_sub_cancel, if_neg (show ¬j + 8 < 8 by omega), Bool.true_or] at hbit
    rw [← hbit, hfull j hj]
  · intro hor
    apply BitVec.eq_of_getLsbD_eq
    intro i hi
    rw [vgaEntry_getLsbD b color hi, BitVec.getLsbD_append]
    rcases hor with hpos | rfl
    · rw [hpos, Bool.false_or]
    · by_cases hlow : i < 8
      · rw [if_pos hlow, if_pos hlow]
      · rw [if_neg hlow, if_neg hlow, hfull (i - 8) (by omega), Bool.or_true]

section Reference

variable (v : Vga) (str : List (BitVec 8))

/-- The string printed symbolically: a cell is an old one or a blank, or a byte of the
string. -/
def symbolic : Terminal (BitVec 16 ⊕ BitVec 8) :=
  Terminal.write 80 25 (.inl (v.vgaCurrentColor ++ 0x20#8)) .inr
    ⟨fun r c => .inl (v.vgaBuffer (r * 80 + c)), v.vgaCursorY, v.vgaCursorX⟩ str

theorem symbolic_driver :
    (symbolic v str).map (Sum.elim id fun b => vgaEntry b v.vgaCurrentColor)
      = driverWrite v.vgaCurrentColor (screenOf v) str := by
  have hblank : vgaEntry 0x20#8 v.vgaCurrentColor = v.vgaCurrentColor ++ 0x20#8 :=
    (vgaEntry_eq_iff _ _).mpr (.inl (by decide))
  rw [symbolic, Terminal.write_map, driverWrite, hblank]
  rfl

theorem symbolic_reference :
    (symbolic v str).map (Sum.elim id fun b => v.vgaCurrentColor ++ b)
      = referenceWrite v.vgaCurrentColor (screenOf v) str := by
  rw [symbolic, Terminal.write_map]
  rfl

theorem symbolic_printed :
    (symbolic v str).map (Sum.elim (fun _ => none) some) = printed v str := by
  rw [symbolic, Terminal.write_map]
  rfl

/-- A cell of the driver is the cell of the reference unless it shows a byte with the sign
set under another attribute than 0xFF. -/
theorem driver_cell_iff (r c : Nat) :
    (driverWrite v.vgaCurrentColor (screenOf v) str).cell r c
        = (referenceWrite v.vgaCurrentColor (screenOf v) str).cell r c
      ↔ ∀ b, (printed v str).cell r c = some b →
          b.toNat < 0x80 ∨ v.vgaCurrentColor = 0xFF#8 := by
  rw [← symbolic_driver, ← symbolic_reference, ← symbolic_printed]
  simp only [Terminal.map]
  cases (symbolic v str).cell r c with
  | inl cell =>
      refine ⟨?_, fun _ => rfl⟩
      intro _ b hb
      cases hb
  | inr b =>
      refine (vgaEntry_eq_iff b v.vgaCurrentColor).trans ⟨?_, fun h => h b rfl⟩
      rintro h _ ⟨⟩
      exact h

end Reference

/-- From every position on the screen, `vga_puts` moves the cursor as the reference terminal
does and writes inside the buffer only. The screens agree exactly if no byte from 0x80 on is
left of the string on the screen, or the attribute is 0xFF. -/
theorem vga_puts_matches_iff (v : Vga) (hx : v.vgaCursorX < 80) (hy : v.vgaCursorY < 25)
    (str : List (BitVec 8)) :
    let v' := (vgaPuts v (some str)).val
    let t := referenceWrite v.vgaCurrentColor (screenOf v) str
    All (· < VGA_WIDTH * VGA_HEIGHT) (vgaPuts v (some str))
      ∧ (v'.vgaCursorY = t.row ∧ v'.vgaCursorX = t.col ∧ (Synced v → Synced v'))
      ∧ ((∀ r c, r < 25 → c < 80 → v'.vgaBuffer (r * 80 + c) = t.cell r c)
        ↔ ∀ r c b, r < 25 → c < 80 → (printed v str).cell r c = some b →
            b.toNat < 0x80 ∨ v.vgaCurrentColor = 0xFF#8) := by
  have hshows : Shows (vgaPuts v (some str)).val
      (driverWrite v.vgaCurrentColor (screenOf v) str) :=
    putString_shows str ⟨fun _ _ _ _ => rfl, rfl, rfl⟩ hy hx
  have hsame : (driverWrite v.vgaCurrentColor (screenOf v) str).row
        = (referenceWrite v.vgaCurrentColor (screenOf v) str).row
      ∧ (driverWrite v.vgaCurrentColor (screenOf v) str).col
        = (referenceWrite v.vgaCurrentColor (screenOf v) str).col := by
    rw [← symbolic_driver, ← symbolic_reference]
    exact ⟨rfl, rfl⟩
  refine ⟨(putString_inside str (onCell_of_lt hx hy)).1,
    ⟨hshows.row.trans hsame.1, hshows.col.trans hsame.2, putString_synced str⟩, ?_, ?_⟩
  · intro hcells r c b hr hc
    refine (driver_cell_iff v str r c).mp ?_ b
    rw [← hshows.cells r c hr hc]
    exact hcells r c hr hc
  · intro hsigned r c hr hc
    rw [hshows.cells r c hr hc]
    exact (driver_cell_iff v str r c).mpr fun b => hsigned r c b hr hc

/-- A grey screen with the cursor in its first cell. -/
def greyVga : Vga := { Vga.static (fun _ => 0x0720#16) 0 with vgaCurrentColor := 0x07#8 }

theorem vga_puts_matches_grey :
    All (· < VGA_WIDTH * VGA_HEIGHT) (vgaPuts greyVga (some [0x41#8, 0x0A#8]))
      ∧ (vgaPuts greyVga (some [0x41#8, 0x0A#8])).val.vgaCursorY
        = (referenceWrite 0x07#8 (screenOf greyVga) [0x41#8, 0x0A#8]).row :=
  have h := vga_puts_matches_iff greyVga (by decide) (by decide) [0x41#8, 0x0A#8]
  ⟨h.1, h.2.1.1⟩

/-- The byte 0xE9 in grey on black: the cell holds 0xFFE9 and not 0x07E9. -/
theorem vga_puts_covers_attribute :
    (vgaPuts greyVga (some [0xE9#8])).val.vgaBuffer 0 = 0xFFE9#16
      ∧ (referenceWrite greyVga.vgaCurrentColor (screenOf greyVga) [0xE9#8]).cell 0 0
        = 0x07E9#16 := by
  decide

end Matryoshka
