import Matryoshka.Shell
import Matryoshka.VgaScreen
import Mathlib.Data.List.DropRight

/-!
# The line editor

`shell_prompt` and `shell_readline` of `kernel/shell.c`. The editor keeps
the line in `line_buf`, the console keeps what it printed, and neither looks
at the other. They agree as long as the cursor is where the line ends. A
printed character keeps it so, also when the screen scrolls. A backspace
does so unless the line ends at the right edge: the cursor is then in the
first column of the next row, and the console does not move it back over the
edge.
-/

namespace Matryoshka

open ByteMem Traced

/-! ## Prompt and editor -/

def prompt : CStr := ascii "mshka> ".toList

def shellPrompt (v : Vga) : Vga :=
  let v := vgaSetColor v VGA_COLOR_LIGHT_GREEN VGA_COLOR_BLACK
  let v := (vgaPuts v (some prompt)).val
  vgaSetColor v VGA_COLOR_WHITE VGA_COLOR_BLACK

/-- The static variables of the editor, and the console. -/
structure LineEdit where
  vga : Vga
  lineBuf : Mem
  lineLen : Nat

def putBytes (v : Vga) : List (BitVec 8) → Vga
  | [] => v
  | c :: l => putBytes (vgaPutchar v c).val l

/-- `c >= ' ' && c <= '~'`, of a signed `char`. -/
def isPrint (c : BitVec 8) : Bool := (0x20#8).sle c && c.sle 0x7E#8

/-- One round of the loop, on a character other than a newline. -/
def editChar (e : LineEdit) (c : BitVec 8) : LineEdit :=
  if c = 0x08#8 then
    if 0 < e.lineLen then
      { e with
        lineLen := e.lineLen - 1
        vga := putBytes e.vga [0x08#8, 0x20#8, 0x08#8] }
    else e
  else if isPrint c ∧ e.lineLen < CMD_MAX - 1 then
    { lineBuf := store8 e.lineBuf e.lineLen c
      lineLen := e.lineLen + 1
      vga := putBytes e.vga [c] }
  else e

/-- The loop on the characters that `keyboard_getchar` returns, and those it leaves; `none`
is the wait for more. -/
def readLoop (e : LineEdit) : List (BitVec 8) → LineEdit × Option (List (BitVec 8))
  | [] => (e, none)
  | c :: input =>
      if c = newline then
        ({ e with
            lineBuf := store8 e.lineBuf e.lineLen 0#8
            vga := putBytes e.vga [newline] }, some input)
      else readLoop (editChar e c) input

def shellReadline (e : LineEdit) (input : List (BitVec 8)) :
    LineEdit × Option (List (BitVec 8)) :=
  readLoop { e with lineLen := 0 } input

theorem readLoop_waits : ∀ {input : List (BitVec 8)} (e : LineEdit), newline ∉ input →
    readLoop e input = (input.foldl editChar e, none) := by
  intro input
  induction input with
  | nil =>
      intro e _
      rfl
  | cons c input ih =>
      intro e h
      rw [List.mem_cons, not_or] at h
      rw [readLoop, if_neg (Ne.symm h.1), ih _ h.2]
      rfl

/-! ## What is on the screen -/

/-- The character in a cell. -/
def cellChar (cell : BitVec 16) : BitVec 8 := cell.setWidth 8

/-- The characters from a cell to the end of the screen, row by row. -/
def screenText (v : Vga) (i : Nat) : List (BitVec 8) :=
  (List.range (VGA_WIDTH * VGA_HEIGHT - i)).map fun k => cellChar (v.vgaBuffer (i + k))

/-- The text without trailing blanks. -/
def trim (text : List (BitVec 8)) : List (BitVec 8) := text.rdropWhile (· == space)

/-- Behind the prompt in `row` the screen shows the line. -/
def ShowsLine (e : LineEdit) (row : Nat) : Prop :=
  trim (screenText e.vga (row * VGA_WIDTH + prompt.length)) = trim (bytesAt e.lineBuf 0 e.lineLen)

/-- The cursor is at the start of `row`, and the screen is blank from there on. -/
structure FreshRow (v : Vga) (row : Nat) : Prop where
  row_lt : row < VGA_HEIGHT
  y : v.vgaCursorY = row
  x : v.vgaCursorX = 0
  blank : ∀ i, row * VGA_WIDTH ≤ i → i < VGA_WIDTH * VGA_HEIGHT →
    cellChar (v.vgaBuffer i) = space

/-- How many lines the screen moves up while the bytes are printed. -/
def scrollCount (v : Vga) : List (BitVec 8) → Nat
  | [] => 0
  | c :: l =>
      (if VGA_HEIGHT ≤ (lineWrap (placeChar v c).val).vgaCursorY then 1 else 0)
        + scrollCount (vgaPutchar v c).val l

/-- The bytes printed by one round. -/
def echo (e : LineEdit) (c : BitVec 8) : List (BitVec 8) :=
  if c = 0x08#8 then if 0 < e.lineLen then [0x08#8, 0x20#8, 0x08#8] else []
  else if isPrint c ∧ e.lineLen < CMD_MAX - 1 then [c]
  else []

/-- How many lines the screen moves up during the input. -/
def inputScrolls (e : LineEdit) : List (BitVec 8) → Nat
  | [] => 0
  | c :: input => scrollCount e.vga (echo e c) + inputScrolls (editChar e c) input

/-- Every backspace that deletes comes at a length in `Ok`. -/
def BackspacesAt (Ok : Nat → Prop) (e : LineEdit) : List (BitVec 8) → Prop
  | [] => True
  | c :: input =>
      (c = 0x08#8 → 0 < e.lineLen → Ok e.lineLen) ∧ BackspacesAt Ok (editChar e c) input

/-- `echo` is what a round prints. -/
theorem editChar_vga (e : LineEdit) (c : BitVec 8) :
    (editChar e c).vga = putBytes e.vga (echo e c) := by
  unfold editChar echo
  split_ifs
  all_goals rfl

/-! ## Printing by position -/

section Position

variable {v : Vga} {c : BitVec 8}

/-- The cursor is on the screen, at cell `i`. -/
structure CursorAt (v : Vga) (i : Nat) : Prop where
  x_lt : v.vgaCursorX < 80
  y_lt : v.vgaCursorY < 25
  pos : v.vgaCursorY * 80 + v.vgaCursorX = i

theorem CursorAt.lt {i : Nat} (h : CursorAt v i) : i < 2000 := by
  obtain ⟨hx, hy, hpos⟩ := h
  omega

/-- A character that is printed as it is. -/
def Regular (c : BitVec 8) : Prop := c ≠ 0x0A#8 ∧ c ≠ 0x0D#8 ∧ c ≠ 0x09#8 ∧ c ≠ 0x08#8

instance (c : BitVec 8) : Decidable (Regular c) := inferInstanceAs (Decidable (_ ∧ _ ∧ _ ∧ _))

theorem isPrint_regular (h : isPrint c = true) : Regular c := by
  refine ⟨?_, ?_, ?_, ?_⟩
  all_goals
    rintro rfl
    revert h
    decide

theorem cellChar_vgaEntry (c color : BitVec 8) : cellChar (vgaEntry c color) = c := by
  apply BitVec.eq_of_getLsbD_eq
  intro i hi
  rw [cellChar, BitVec.getLsbD_setWidth, vgaEntry_getLsbD c color (by omega), if_pos hi]
  simp [hi]

/-- While the cursor stays above the last row nothing scrolls. -/
theorem vgaPutchar_still {w : Vga} (hw : lineWrap (placeChar v c).val = w)
    (hy : w.vgaCursorY < 25) :
    (vgaPutchar v c).val = vgaUpdateCursor w w.vgaCursorX w.vgaCursorY
      ∧ scrollCount v [c] = 0 := by
  subst hw
  have hn : ¬VGA_HEIGHT ≤ (lineWrap (placeChar v c).val).vgaCursorY := Nat.not_le_of_lt hy
  refine ⟨vgaPutchar_val ?_, ?_⟩
  · rw [screenScroll, if_neg hn, val_pure]
  · rw [scrollCount, if_neg hn]
    rfl

/-- Behind the last row the screen moves up once. -/
theorem vgaPutchar_scrolls {w : Vga} (hw : lineWrap (placeChar v c).val = w)
    (hy : 25 ≤ w.vgaCursorY) :
    (vgaPutchar v c).val.vgaCursorX = w.vgaCursorX ∧ (vgaPutchar v c).val.vgaCursorY = 24
      ∧ (vgaPutchar v c).val.vgaBuffer = (vgaScroll w).val.vgaBuffer
      ∧ scrollCount v [c] = 1 := by
  subst hw
  have hn : VGA_HEIGHT ≤ (lineWrap (placeChar v c).val).vgaCursorY := hy
  have hscroll : (screenScroll (lineWrap (placeChar v c).val)).val
      = { (vgaScroll (lineWrap (placeChar v c).val)).val with vgaCursorY := VGA_HEIGHT - 1 } := by
    rw [screenScroll, if_pos hn, val_bind, val_pure]
  rw [vgaPutchar_val hscroll, vgaScroll_val]
  refine ⟨rfl, rfl, rfl, ?_⟩
  rw [scrollCount, if_pos hn]
  rfl

theorem placeChar_regular (hc : Regular c) (hx : v.vgaCursorX < 80) :
    (placeChar v c).val = { v with
      vgaBuffer := Function.update v.vgaBuffer (v.vgaCursorY * 80 + v.vgaCursorX)
        (vgaEntry c v.vgaCurrentColor)
      vgaCursorX := v.vgaCursorX + 1 } := by
  obtain ⟨h1, h2, h3, h4⟩ := hc
  rw [placeChar, if_neg h1, if_neg h2, if_neg h3, if_neg h4, val_bind, val_pure]
  simp only [putCell, VGA_WIDTH, u8_of_lt (by omega : v.vgaCursorX + 1 < 2 ^ 8)]

/-- The state behind a printed character, before the screen moves. -/
theorem lineWrap_regular (hc : Regular c) (hx : v.vgaCursorX < 80) (hy : v.vgaCursorY < 25) :
    ∃ w, lineWrap (placeChar v c).val = w
      ∧ w.vgaCursorX < 80 ∧ w.vgaCursorY ≤ 25
      ∧ w.vgaCursorY * 80 + w.vgaCursorX = v.vgaCursorY * 80 + v.vgaCursorX + 1
      ∧ w.vgaCurrentColor = v.vgaCurrentColor
      ∧ w.vgaBuffer = Function.update v.vgaBuffer (v.vgaCursorY * 80 + v.vgaCursorX)
          (vgaEntry c v.vgaCurrentColor) := by
  refine ⟨_, rfl, ?_⟩
  rw [placeChar_regular hc hx, lineWrap, VGA_WIDTH]
  split
  case isTrue h =>
      dsimp only at h ⊢
      rw [u8_of_lt (by omega)]
      exact ⟨by omega, by omega, by omega, rfl, rfl⟩
  case isFalse h =>
      dsimp only at h ⊢
      exact ⟨by omega, by omega, by omega, rfl, rfl⟩

/-- A character before the last cell of the screen. -/
theorem print_inside {i : Nat} (hat : CursorAt v i) (hc : Regular c) (hi : i + 1 < 2000) :
    CursorAt (vgaPutchar v c).val (i + 1)
      ∧ (vgaPutchar v c).val.vgaBuffer
        = Function.update v.vgaBuffer i (vgaEntry c v.vgaCurrentColor)
      ∧ scrollCount v [c] = 0 := by
  obtain ⟨w, hw, hx, hy, hpos, -, hbuf⟩ := lineWrap_regular hc hat.x_lt hat.y_lt
  rw [hat.pos] at hpos hbuf
  have hlt : w.vgaCursorY < 25 := by omega
  obtain ⟨hput, hscroll⟩ := vgaPutchar_still hw hlt
  rw [hput]
  exact ⟨⟨hx, hlt, hpos⟩, hbuf, hscroll⟩

/-- A character in the last cell: the screen moves up, and the cursor is at the start of its
last row. -/
theorem print_last (hat : CursorAt v 1999) (hc : Regular c) :
    CursorAt (vgaPutchar v c).val 1920
      ∧ (∀ i < 1920, (vgaPutchar v c).val.vgaBuffer i
          = Function.update v.vgaBuffer 1999 (vgaEntry c v.vgaCurrentColor) (i + 80))
      ∧ (∀ i, 1920 ≤ i → i < 2000 → (vgaPutchar v c).val.vgaBuffer i
          = vgaEntry 0x20#8 v.vgaCurrentColor)
      ∧ scrollCount v [c] = 1 := by
  obtain ⟨w, hw, hx, hy, hpos, hcolor, hbuf⟩ := lineWrap_regular hc hat.x_lt hat.y_lt
  rw [hat.pos] at hpos hbuf
  obtain ⟨hx', hy', hbuf', hscroll⟩ := vgaPutchar_scrolls hw (by omega)
  rw [vgaScroll_val, hcolor, hbuf] at hbuf'
  refine ⟨⟨by omega, by omega, by omega⟩, ?_, ?_, hscroll⟩
  · intro i hi
    rw [hbuf']
    exact if_pos hi
  · intro i hge hlt
    rw [hbuf']
    exact (if_neg (by omega)).trans (if_pos hlt)

/-- A backspace moves the cursor within its row. -/
theorem backspace_at (hx : v.vgaCursorX < 80) (hy : v.vgaCursorY < 25) :
    (vgaPutchar v 0x08#8).val.vgaBuffer = v.vgaBuffer
      ∧ (vgaPutchar v 0x08#8).val.vgaCursorX = v.vgaCursorX - 1
      ∧ (vgaPutchar v 0x08#8).val.vgaCursorY = v.vgaCursorY
      ∧ scrollCount v [0x08#8] = 0 := by
  have hplace : (placeChar v 0x08#8).val = { v with vgaCursorX := v.vgaCursorX - 1 } := by
    change (if 0 < v.vgaCursorX then { v with vgaCursorX := v.vgaCursorX - 1 } else v) = _
    split
    case isTrue => rfl
    case isFalse h => rw [Nat.sub_eq_zero_of_le (by omega), ← Nat.eq_zero_of_not_pos h]
  have hwrap : lineWrap (placeChar v 0x08#8).val = { v with vgaCursorX := v.vgaCursorX - 1 } := by
    rw [hplace, lineWrap, if_neg]
    unfold VGA_WIDTH
    dsimp only
    omega
  obtain ⟨hput, hscroll⟩ := vgaPutchar_still hwrap hy
  rw [hput]
  exact ⟨rfl, rfl, rfl, hscroll⟩

theorem scrollCount_cons (v : Vga) (c : BitVec 8) (l : List (BitVec 8)) :
    scrollCount v (c :: l) = scrollCount v [c] + scrollCount (vgaPutchar v c).val l := rfl

/-- Backspace, blank, backspace: the cell before the cursor is blank, in the first column the
cell under it. -/
theorem erase_at (hx : v.vgaCursorX < 80) (hy : v.vgaCursorY < 25) :
    CursorAt (putBytes v [0x08#8, 0x20#8, 0x08#8]) (v.vgaCursorY * 80 + (v.vgaCursorX - 1))
      ∧ (putBytes v [0x08#8, 0x20#8, 0x08#8]).vgaBuffer
        = Function.update v.vgaBuffer (v.vgaCursorY * 80 + (v.vgaCursorX - 1))
            (vgaEntry space v.vgaCurrentColor)
      ∧ scrollCount v [0x08#8, 0x20#8, 0x08#8] = 0 := by
  obtain ⟨hbuf₁, hx₁, hy₁, hscroll₁⟩ := backspace_at hx hy
  have hcolor := vgaPutchar_color v 0x08#8
  rw [putBytes, putBytes, putBytes, putBytes, scrollCount_cons v, hscroll₁]
  -- each state by its facts only: the calls themselves must not be unfolded
  generalize (vgaPutchar v 0x08#8).val = v₁ at *
  have hat₁ : CursorAt v₁ (v.vgaCursorY * 80 + (v.vgaCursorX - 1)) :=
    ⟨by omega, by omega, by rw [hx₁, hy₁]⟩
  obtain ⟨hat₂, hbuf₂, hscroll₂⟩ := print_inside (c := 0x20#8) hat₁ (by decide) (by omega)
  rw [hbuf₁, hcolor] at hbuf₂
  rw [scrollCount_cons v₁, hscroll₂]
  generalize (vgaPutchar v₁ 0x20#8).val = v₂ at *
  obtain ⟨hbuf₃, hx₃, hy₃, hscroll₃⟩ := backspace_at hat₂.x_lt hat₂.y_lt
  obtain ⟨hxlt, hylt, hpos⟩ := hat₂
  rw [hscroll₃]
  generalize (vgaPutchar v₂ 0x08#8).val = v₃ at *
  exact ⟨⟨by omega, by omega, by omega⟩, hbuf₃.trans hbuf₂, rfl⟩

theorem putString_regular (str : List (BitVec 8)) :
    ∀ {v : Vga} {i : Nat}, (∀ c ∈ str, Regular c ∧ c ≠ 0#8) → CursorAt v i →
      i + str.length < 2000 → CursorAt (putString v str).val (i + str.length)
        ∧ ∀ j, i + str.length ≤ j → (putString v str).val.vgaBuffer j = v.vgaBuffer j := by
  induction str with
  | nil =>
      intro v i _ hat _
      exact ⟨hat, fun _ _ => rfl⟩
  | cons c str ih =>
      intro v i hreg hat hi
      rw [List.length_cons] at hi
      obtain ⟨hc, hne⟩ := hreg c List.mem_cons_self
      obtain ⟨hat', hbuf, -⟩ := print_inside hat hc (by omega)
      obtain ⟨hend, hrest⟩ := ih (fun d hd => hreg d (List.mem_cons_of_mem c hd)) hat' (by omega)
      rw [putString, if_neg hne, val_bind, List.length_cons, ← Nat.add_assoc,
        Nat.add_right_comm]
      refine ⟨hend, fun j hj => ?_⟩
      rw [hrest j hj, hbuf, Function.update_of_ne (by omega)]

end Position

/-! ## Text on the screen -/

/-- From cell `b` on the screen is the line and blanks. -/
def Spells (screen : Nat → BitVec 16) (b : Nat) (line : Mem) (len : Nat) : Prop :=
  ∀ i, b ≤ i → i < 2000 →
    cellChar (screen i) = if i < b + len then line (i - b) else space

section Spells

variable {screen : Nat → BitVec 16} {b len : Nat} {line : Mem}

theorem Spells.type (h : Spells screen b line len) (c color : BitVec 8) :
    Spells (Function.update screen (b + len) (vgaEntry c color)) b (store8 line len c)
      (len + 1) := by
  intro i hge hlt
  by_cases hi : i = b + len
  · rw [hi, Function.update_self, cellChar_vgaEntry, if_pos (by omega),
      Nat.add_sub_cancel_left, store8_self]
  · rw [Function.update_of_ne hi, h i hge hlt, store8_of_ne (by omega)]
    exact if_congr (by omega) rfl rfl

/-- A blank on the last character of a line, or on the cell behind it. -/
theorem Spells.blank {n : Nat} (h : Spells screen b line n) (hge : len ≤ n) (hle : n ≤ len + 1)
    (color : BitVec 8) :
    Spells (Function.update screen (b + len) (vgaEntry space color)) b line len := by
  intro i hi hlt
  by_cases heq : i = b + len
  · rw [heq, Function.update_self, cellChar_vgaEntry, if_neg (Nat.lt_irrefl _)]
  · rw [Function.update_of_ne heq, h i hi hlt]
    exact if_congr (by omega) rfl rfl

/-- The screen one row up, with a blank last row. -/
theorem Spells.scroll {screen' : Nat → BitVec 16} (h : Spells screen (b + 80) line len)
    (hlen : b + len ≤ 1920) (hup : ∀ i < 1920, screen' i = screen (i + 80))
    (hlast : ∀ i, 1920 ≤ i → i < 2000 → cellChar (screen' i) = space) :
    Spells screen' b line len := by
  intro i hge hlt
  by_cases hi : i < 1920
  · rw [hup i hi, h (i + 80) (by omega) (by omega), Nat.add_sub_add_right]
    exact if_congr (by omega) rfl rfl
  · rw [hlast i (by omega) hlt, if_neg (by omega)]

theorem trim_append_blanks (text : List (BitVec 8)) (k : Nat) :
    trim (text ++ List.replicate k space) = trim text := by
  rw [trim, List.rdropWhile, List.reverse_append, List.reverse_replicate,
    List.dropWhile_append_of_pos fun c hc => beq_iff_eq.mpr (List.eq_of_mem_replicate hc)]
  rfl

theorem screenText_of_spells {v : Vga} (h : Spells v.vgaBuffer b line len)
    (hend : b + len ≤ 2000) :
    screenText v b = bytesAt line 0 len ++ List.replicate (2000 - (b + len)) space := by
  have hsize : VGA_WIDTH * VGA_HEIGHT - b = len + (2000 - (b + len)) := by
    change 2000 - b = _
    omega
  rw [screenText, hsize, List.range_add, List.map_append, List.map_map, bytesAt]
  congr 1
  · refine List.map_congr_left fun k hk => ?_
    have hk' := List.mem_range.mp hk
    rw [h (b + k) (by omega) (by omega), if_pos (by omega), Nat.add_sub_cancel_left, Nat.zero_add]
  · refine List.eq_replicate_iff.mpr ⟨by rw [List.length_map, List.length_range], ?_⟩
    intro c hc
    obtain ⟨k, hk, rfl⟩ := List.mem_map.mp hc
    have hk' := List.mem_range.mp hk
    exact (h (b + (len + k)) (by omega) (by omega)).trans (if_neg (by omega))

end Spells

/-! ## Line and screen in step -/

/-- The cursor is at the end of the line, and the screen behind the prompt in `row` is the
line and blanks. -/
structure Sync (e : LineEdit) (row : Nat) : Prop where
  at_end : CursorAt e.vga (row * 80 + 7 + e.lineLen)
  len_le : e.lineLen ≤ 255
  spells : Spells e.vga.vgaBuffer (row * 80 + 7) e.lineBuf e.lineLen

theorem prompt_length : prompt.length = 7 := by decide

theorem prompt_regular : ∀ c ∈ prompt, Regular c ∧ c ≠ 0#8 := by decide +kernel

section Sync

variable {e : LineEdit} {row : Nat} {c : BitVec 8}

theorem sync_prompt {v : Vga} (h : FreshRow v row) (lineBuf : Mem) :
    Sync ⟨shellPrompt v, lineBuf, 0⟩ row := by
  have hrow : row < 25 := h.row_lt
  have hat : CursorAt (vgaSetColor v VGA_COLOR_LIGHT_GREEN VGA_COLOR_BLACK) (row * 80) := by
    have hx := h.x
    have hy := h.y
    refine ⟨?_, ?_, ?_⟩
    · exact hx ▸ Nat.succ_pos 79
    · exact hy ▸ hrow
    · change v.vgaCursorY * 80 + v.vgaCursorX = row * 80
      rw [hx, hy, Nat.add_zero]
  obtain ⟨hend, hrest⟩ := putString_regular prompt prompt_regular hat
    (by rw [prompt_length]; omega)
  rw [prompt_length] at hend hrest
  have hprompt : shellPrompt v = vgaSetColor
      (putString (vgaSetColor v VGA_COLOR_LIGHT_GREEN VGA_COLOR_BLACK) prompt).val
      VGA_COLOR_WHITE VGA_COLOR_BLACK := rfl
  rw [hprompt]
  generalize (putString (vgaSetColor v VGA_COLOR_LIGHT_GREEN VGA_COLOR_BLACK) prompt).val = w at *
  refine ⟨⟨hend.x_lt, hend.y_lt, hend.pos⟩, Nat.zero_le _, ?_⟩
  intro i hge hlt
  refine ((congrArg cellChar (hrest i hge)).trans (h.blank i ?_ hlt)).trans
    (if_neg (Nat.not_lt_of_le hge)).symm
  unfold VGA_WIDTH
  omega

/-- A typed character. In the last cell it scrolls the screen, and with at most 255
characters the prompt is then far from the first row. -/
theorem Sync.type (h : Sync e row) (hc : isPrint c = true) (hlen : e.lineLen < 255) :
    scrollCount e.vga [c] ≤ row
      ∧ Sync ⟨putBytes e.vga [c], store8 e.lineBuf e.lineLen c, e.lineLen + 1⟩
          (row - scrollCount e.vga [c]) := by
  obtain ⟨hat, -, hspells⟩ := h
  have hreg := isPrint_regular hc
  have hnext := hspells.type c e.vga.vgaCurrentColor
  rw [putBytes, putBytes]
  by_cases hi : row * 80 + 7 + e.lineLen + 1 < 2000
  · obtain ⟨hat', hbuf, hscroll⟩ := print_inside hat hreg hi
    rw [hscroll]
    refine ⟨Nat.zero_le _, hat', hlen, ?_⟩
    rw [← hbuf] at hnext
    exact hnext
  · have hlt := hat.lt
    have hpos : row * 80 + 7 + e.lineLen = 1999 := by omega
    rw [hpos] at hat hnext
    obtain ⟨hat', hup, hlast, hscroll⟩ := print_last hat hreg
    have hbase : row * 80 + 7 = (row - 1) * 80 + 7 + 80 := by omega
    rw [hbase] at hnext
    rw [hscroll]
    refine ⟨by omega, ?_, hlen, ?_⟩
    · rw [show (row - 1) * 80 + 7 + (e.lineLen + 1) = 1920 by omega]
      exact hat'
    · refine hnext.scroll (by omega) hup fun i hge hlt => ?_
      exact (congrArg cellChar (hlast i hge hlt)).trans (cellChar_vgaEntry _ _)

/-- A deleting backspace away from the edge. -/
theorem Sync.erase (h : Sync e row) (hlen : 0 < e.lineLen) (hedge : (7 + e.lineLen) % 80 ≠ 0) :
    scrollCount e.vga [0x08#8, 0x20#8, 0x08#8] = 0
      ∧ Sync ⟨putBytes e.vga [0x08#8, 0x20#8, 0x08#8], e.lineBuf, e.lineLen - 1⟩ row := by
  obtain ⟨⟨hx, hy, hpos⟩, hle, hspells⟩ := h
  obtain ⟨hat, hbuf, hscroll⟩ := erase_at hx hy
  have hcell : e.vga.vgaCursorY * 80 + (e.vga.vgaCursorX - 1)
      = row * 80 + 7 + (e.lineLen - 1) := by omega
  rw [hcell] at hat hbuf
  refine ⟨hscroll, hat, by dsimp only; omega, ?_⟩
  have hnext := hspells.blank (e.lineLen.sub_le 1) (by omega) e.vga.vgaCurrentColor
  rw [← hbuf] at hnext
  exact hnext

/-- At the edge the blank goes behind the line, and the last character stays. -/
theorem Sync.erase_edge (h : Sync e row) (hedge : (7 + e.lineLen) % 80 = 0) :
    scrollCount e.vga [0x08#8, 0x20#8, 0x08#8] = 0
      ∧ Spells (putBytes e.vga [0x08#8, 0x20#8, 0x08#8]).vgaBuffer (row * 80 + 7) e.lineBuf
          e.lineLen := by
  obtain ⟨⟨hx, hy, hpos⟩, -, hspells⟩ := h
  obtain ⟨-, hbuf, hscroll⟩ := erase_at hx hy
  have hcell : e.vga.vgaCursorY * 80 + (e.vga.vgaCursorX - 1) = row * 80 + 7 + e.lineLen := by
    omega
  rw [hcell] at hbuf
  have hnext := hspells.blank (Nat.le_refl _) (Nat.le_succ _) e.vga.vgaCurrentColor
  rw [← hbuf] at hnext
  exact ⟨hscroll, hnext⟩

/-- One round. -/
theorem Sync.edit (h : Sync e row)
    (hedge : c = 0x08#8 → 0 < e.lineLen → (7 + e.lineLen) % 80 ≠ 0) :
    scrollCount e.vga (echo e c) ≤ row
      ∧ Sync (editChar e c) (row - scrollCount e.vga (echo e c)) := by
  unfold echo editChar
  split_ifs with hback hlen hprint
  · obtain ⟨hscroll, hsync⟩ := h.erase hlen (hedge hback hlen)
    rw [hscroll]
    exact ⟨Nat.zero_le _, hsync⟩
  · exact ⟨Nat.zero_le _, h⟩
  · exact h.type hprint.1 hprint.2
  · exact ⟨Nat.zero_le _, h⟩

/-- The whole input, by induction on it: the row of the prompt moves up with the screen. -/
theorem Sync.input {Ok : Nat → Prop} (hok : ∀ n ≤ 255, Ok n → (7 + n) % 80 ≠ 0)
    (input : List (BitVec 8)) : ∀ {e : LineEdit} {row : Nat}, Sync e row →
      BackspacesAt Ok e input →
      inputScrolls e input ≤ row ∧ Sync (input.foldl editChar e) (row - inputScrolls e input) := by
  induction input with
  | nil =>
      intro e row h _
      exact ⟨Nat.zero_le _, h⟩
  | cons c input ih =>
      intro e row h hback
      obtain ⟨hle, hsync⟩ := h.edit fun hc hlen => hok _ h.len_le (hback.1 hc hlen)
      obtain ⟨hle', hsync'⟩ := ih hsync hback.2
      rw [inputScrolls, ← Nat.sub_sub]
      exact ⟨by omega, hsync'⟩

theorem Sync.showsLine (h : Sync e row) : ShowsLine e row := by
  have hend := Nat.le_of_lt h.at_end.lt
  rw [ShowsLine, prompt_length, VGA_WIDTH, screenText_of_spells h.spells hend, trim_append_blanks]

/-- With one character more on the screen than in the line, and that one no blank. -/
theorem not_showsLine_of_spells
    (h : Spells e.vga.vgaBuffer (row * 80 + 7) e.lineBuf (e.lineLen + 1))
    (hend : row * 80 + 7 + (e.lineLen + 1) ≤ 2000) (hlast : e.lineBuf e.lineLen ≠ space) :
    ¬ShowsLine e row := by
  intro hshows
  have hself : trim (bytesAt e.lineBuf 0 (e.lineLen + 1))
      = bytesAt e.lineBuf 0 (e.lineLen + 1) := by
    rw [bytesAt_succ, Nat.zero_add, trim]
    exact List.rdropWhile_concat_neg _ _ _ (mt beq_iff_eq.mp hlast)
  rw [ShowsLine, prompt_length, VGA_WIDTH, screenText_of_spells h hend, trim_append_blanks,
    hself] at hshows
  have hle := (List.rdropWhile_prefix (· == space) (bytesAt e.lineBuf 0 e.lineLen)).length_le
  rw [← trim, ← hshows, bytesAt_length, bytesAt_length] at hle
  omega

/-! ## Typing without a backspace -/

theorem editChar_print (hc : isPrint c = true) (hlen : e.lineLen < 255) :
    editChar e c = ⟨putBytes e.vga [c], store8 e.lineBuf e.lineLen c, e.lineLen + 1⟩ := by
  rw [editChar, if_neg (isPrint_regular hc).2.2.2, if_pos ⟨hc, hlen⟩]

/-- Printable characters go to the line as they are. -/
theorem typed_line (text : List (BitVec 8)) :
    ∀ {e : LineEdit}, (∀ c ∈ text, isPrint c = true) → e.lineLen + text.length ≤ 255 →
      (text.foldl editChar e).lineLen = e.lineLen + text.length
        ∧ bytesAt (text.foldl editChar e).lineBuf 0 (e.lineLen + text.length)
          = bytesAt e.lineBuf 0 e.lineLen ++ text := by
  induction text with
  | nil =>
      intro e _ _
      exact ⟨rfl, (List.append_nil _).symm⟩
  | cons c text ih =>
      intro e hprint hlen
      rw [List.length_cons] at hlen
      have hold : bytesAt (store8 e.lineBuf e.lineLen c) 0 e.lineLen
          = bytesAt e.lineBuf 0 e.lineLen :=
        bytesAt_congr fun i hi => store8_of_ne (by omega)
      obtain ⟨hlen', hline⟩ := ih
        (e := ⟨putBytes e.vga [c], store8 e.lineBuf e.lineLen c, e.lineLen + 1⟩)
        (fun d hd => hprint d (List.mem_cons_of_mem c hd)) (by dsimp only; omega)
      rw [List.foldl_cons, editChar_print (hprint c List.mem_cons_self) (by omega),
        List.length_cons, ← Nat.add_assoc, Nat.add_right_comm]
      refine ⟨hlen', hline.trans ?_⟩
      dsimp only
      rw [bytesAt_succ, hold, Nat.zero_add, store8_self, List.append_assoc]
      rfl

theorem backspacesAt_of_print {Ok : Nat → Prop} (text : List (BitVec 8)) :
    ∀ {e : LineEdit}, (∀ c ∈ text, isPrint c = true) → BackspacesAt Ok e text := by
  induction text with
  | nil =>
      intro e _
      trivial
  | cons c text ih =>
      intro e hprint
      have hc := isPrint_regular (hprint c List.mem_cons_self)
      refine ⟨fun hback => absurd hback hc.2.2.2, ih ?_⟩
      intro d hd
      exact hprint d (List.mem_cons_of_mem c hd)

theorem backspacesAt_append {Ok : Nat → Prop} (text rest : List (BitVec 8)) :
    ∀ {e : LineEdit}, BackspacesAt Ok e text → BackspacesAt Ok (text.foldl editChar e) rest →
      BackspacesAt Ok e (text ++ rest) := by
  induction text with
  | nil =>
      intro e _ hrest
      exact hrest
  | cons c text ih =>
      intro e htext hrest
      exact ⟨htext.1, ih htext.2 hrest⟩

theorem inputScrolls_append (text rest : List (BitVec 8)) : ∀ (e : LineEdit),
    inputScrolls e (text ++ rest)
      = inputScrolls e text + inputScrolls (text.foldl editChar e) rest := by
  induction text with
  | nil =>
      intro e
      exact (Nat.zero_add _).symm
  | cons c text ih =>
      intro e
      rw [List.cons_append, inputScrolls, inputScrolls, ih, Nat.add_assoc]
      rfl

/-- A text that ends at the edge, and one backspace: the screen shows a character that the
line has no more. -/
theorem edge_backspace {v : Vga} (h : FreshRow v row) (lineBuf : Mem) {text : List (BitVec 8)}
    (hprint : ∀ c ∈ text, isPrint c = true) (hlast : text.getLast? ≠ some space)
    (hlen : text.length ≤ 255) (hedge : (7 + text.length) % 80 = 0) :
    inputScrolls ⟨shellPrompt v, lineBuf, 0⟩ (text ++ [0x08#8]) ≤ row
      ∧ ¬ShowsLine ((text ++ [0x08#8]).foldl editChar ⟨shellPrompt v, lineBuf, 0⟩)
          (row - inputScrolls ⟨shellPrompt v, lineBuf, 0⟩ (text ++ [0x08#8])) := by
  have hback : BackspacesAt (fun _ => False) ⟨shellPrompt v, lineBuf, 0⟩ text :=
    backspacesAt_of_print text hprint
  obtain ⟨hle, hsync⟩ := Sync.input (fun _ _ h => h.elim) text (sync_prompt h lineBuf) hback
  obtain ⟨hlen', hline⟩ := typed_line text (e := ⟨shellPrompt v, lineBuf, 0⟩) hprint
    ((Nat.zero_add _).trans_le hlen)
  rw [inputScrolls_append, List.foldl_append, List.foldl_cons, List.foldl_nil]
  generalize text.foldl editChar ⟨shellPrompt v, lineBuf, 0⟩ = e at *
  rw [Nat.zero_add] at hlen' hline
  obtain ⟨n, hn⟩ : ∃ n, e.lineLen = n + 1 := ⟨e.lineLen - 1, by omega⟩
  obtain ⟨hscroll, hspells⟩ := hsync.erase_edge (by rw [hlen']; exact hedge)
  have hechoed : inputScrolls e [0x08#8] = 0 := by
    rw [inputScrolls, echo, if_pos rfl, if_pos (by omega), hscroll]
    rfl
  have hedit : editChar e 0x08#8 = ⟨putBytes e.vga [0x08#8, 0x20#8, 0x08#8], e.lineBuf, n⟩ := by
    rw [editChar, if_pos rfl, if_pos (by omega), hn, Nat.add_sub_cancel]
  rw [hechoed, hedit, Nat.add_zero]
  refine ⟨hle, not_showsLine_of_spells (hn ▸ hspells) ?_ ?_⟩
  · have hlt := hsync.at_end.lt
    dsimp only
    omega
  · intro hspace
    have htext : text = bytesAt e.lineBuf 0 n ++ [e.lineBuf n] := by
      rw [← hlen', hn, bytesAt_succ, Nat.zero_add] at hline
      exact hline.symm
    dsimp only at hspace
    rw [htext, List.getLast?_concat, hspace] at hlast
    exact hlast rfl

end Sync

/-! ## The editor and the screen -/

theorem freshRow_vgaInit (v : Vga) : FreshRow (vgaInit v).val 0 := by
  rw [vgaInit, vgaClear_val]
  refine ⟨by decide, rfl, rfl, ?_⟩
  intro i _ hlt
  exact (congrArg cellChar (if_pos hlt)).trans (cellChar_vgaEntry _ _)

/-- `n` letters and a backspace. -/
def lettersBackspace (n : Nat) : List (BitVec 8) := List.replicate n 0x61#8 ++ [0x08#8]

section Letters

variable (v : Vga) (lineBuf : Mem) {n : Nat}

theorem letters_print (n : Nat) : ∀ c ∈ List.replicate n 0x61#8, isPrint c = true := by
  intro c hc
  rw [List.eq_of_mem_replicate hc]
  decide

theorem newline_notMem_lettersBackspace (n : Nat) : newline ∉ lettersBackspace n := by
  intro h
  rcases List.mem_append.mp h with h | h
  · exact absurd (letters_print n newline h) (by decide)
  · exact absurd (List.mem_singleton.mp h) (by decide)

theorem backspacesAt_lettersBackspace {Ok : Nat → Prop} (hn : n ≤ 255) (hok : Ok n) :
    BackspacesAt Ok ⟨shellPrompt v, lineBuf, 0⟩ (lettersBackspace n) := by
  refine backspacesAt_append _ _ (backspacesAt_of_print _ (letters_print n)) ⟨?_, trivial⟩
  intro _ _
  obtain ⟨hlen, -⟩ := typed_line _ (e := ⟨shellPrompt v, lineBuf, 0⟩) (letters_print n)
    (by rw [List.length_replicate]; exact (Nat.zero_add n).trans_le hn)
  rw [hlen, List.length_replicate, Nat.zero_add]
  exact hok

/-- The letters fill the row: nothing scrolls, and the deleted letter is still shown. -/
theorem lettersBackspace_shown (lineLen : Nat) (hn : n ≤ 255) (hedge : (7 + n) % 80 = 0) :
    inputScrolls ⟨shellPrompt (vgaInit v).val, lineBuf, 0⟩ (lettersBackspace n) = 0
      ∧ ¬ShowsLine
          (shellReadline ⟨shellPrompt (vgaInit v).val, lineBuf, lineLen⟩ (lettersBackspace n)).1
          0 := by
  have hlast : (List.replicate n 0x61#8).getLast? ≠ some space := by
    intro h
    exact absurd (List.eq_of_mem_replicate (List.mem_of_getLast? h)) (by decide)
  obtain ⟨hle, hnot⟩ := edge_backspace (freshRow_vgaInit v) lineBuf (letters_print n) hlast
    (by rw [List.length_replicate]; exact hn) (by rw [List.length_replicate]; exact hedge)
  rw [Nat.zero_sub] at hnot
  rw [shellReadline, readLoop_waits _ (newline_notMem_lettersBackspace n)]
  exact ⟨Nat.le_zero.mp hle, hnot⟩

end Letters

/-- The screen shows the line after every input whose deleting backspaces come at lengths in
`Ok`, exactly if no such length ends a row of the screen. -/
theorem readline_shown_iff (Ok : Nat → Prop) :
    (∀ (v : Vga) (lineBuf : Mem) (lineLen row : Nat) (input : List (BitVec 8)), FreshRow v row →
      newline ∉ input → BackspacesAt Ok ⟨shellPrompt v, lineBuf, 0⟩ input →
      inputScrolls ⟨shellPrompt v, lineBuf, 0⟩ input ≤ row →
      ShowsLine (shellReadline ⟨shellPrompt v, lineBuf, lineLen⟩ input).1
        (row - inputScrolls ⟨shellPrompt v, lineBuf, 0⟩ input))
      ↔ ∀ n ≤ CMD_MAX - 1, Ok n → (prompt.length + n) % VGA_WIDTH ≠ 0 := by
  rw [prompt_length]
  constructor
  · intro h n hn hok hedge
    have v := Vga.static (fun _ => 0#16) 0
    have lineBuf : Mem := fun _ => 0#8
    obtain ⟨hscroll, hnot⟩ := lettersBackspace_shown v lineBuf 0 hn hedge
    have hshown := h _ lineBuf 0 0 _ (freshRow_vgaInit v) (newline_notMem_lettersBackspace n)
      (backspacesAt_lettersBackspace _ lineBuf hn hok) (Nat.le_of_eq hscroll)
    rw [hscroll] at hshown
    exact hnot hshown
  · intro h v lineBuf lineLen row input hfresh hnl hback _
    rw [shellReadline, readLoop_waits _ hnl]
    exact (Sync.input h input (sync_prompt hfresh lineBuf) hback).2.showsLine

/-- On the screen of `vga_init`, 73 letters fill the row of the prompt. After one backspace 72
letters are in the line, and 73 are on the screen. -/
theorem readline_edge_backspace :
    FreshRow (vgaInit (Vga.static (fun _ => 0#16) 0)).val 0
      ∧ inputScrolls ⟨shellPrompt (vgaInit (Vga.static (fun _ => 0#16) 0)).val, fun _ => 0#8, 0⟩
          (lettersBackspace 73) = 0
      ∧ ¬ShowsLine (shellReadline
          ⟨shellPrompt (vgaInit (Vga.static (fun _ => 0#16) 0)).val, fun _ => 0#8, 0⟩
          (lettersBackspace 73)).1 0 :=
  ⟨freshRow_vgaInit _, lettersBackspace_shown _ _ 0 (by decide) (by decide)⟩

end Matryoshka
