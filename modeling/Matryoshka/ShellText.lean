import Matryoshka.Numeral
import Matryoshka.Shell
import Matryoshka.VgaScreen
import Mathlib.Data.List.TakeWhile

/-!
# Numbers on the console

The helpers that print numbers: `print_uint`, `print_size` and
`print_hex32` of `kernel/shell.c` (`kernel/mm/vmm.c` has a copy of the
last one), and `format_memory_size` of `kernel/kernel.c`. A command is the
list of its calls of the console driver; `consoleText` is the bytes that
reach `vga_putchar`.

The shell's helpers print every 64-bit number (`print_uint_reads_back`).
The one of the boot messages has two digits for gigabytes
(`memory_size_shown_iff`).
-/

namespace Matryoshka

open Numeral

/-! ## Console calls -/

def VGA_COLOR_DARK_GREY : BitVec 32 := 8#32

def VGA_COLOR_LIGHT_CYAN : BitVec 32 := 11#32

def VGA_COLOR_LIGHT_RED : BitVec 32 := 12#32

def VGA_COLOR_YELLOW : BitVec 32 := 14#32

/-- The calls that a piece of code makes, first to last. -/
abbrev Console := List VgaCall

/-- `vga_set_color(fg, VGA_COLOR_BLACK)`. -/
def onBlack (fg : BitVec 32) : VgaCall := .setColor fg VGA_COLOR_BLACK

/-- `vga_puts` of a literal. -/
def puts (s : String) : VgaCall := .puts (some (ascii s.toList))

/-- The bytes a call hands to `vga_putchar`. -/
def VgaCall.bytes : VgaCall → CStr
  | .putchar c => [c]
  | .puts (some str) => str.takeWhile (· != 0#8)
  | _ => []

def consoleText (calls : Console) : CStr := calls.flatMap VgaCall.bytes

@[simp] theorem consoleText_nil : consoleText [] = [] := rfl

@[simp] theorem consoleText_cons (c : VgaCall) (calls : Console) :
    consoleText (c :: calls) = c.bytes ++ consoleText calls := rfl

@[simp] theorem consoleText_append (a b : Console) :
    consoleText (a ++ b) = consoleText a ++ consoleText b := List.flatMap_append

@[simp] theorem bytes_onBlack (fg : BitVec 32) : (onBlack fg).bytes = [] := rfl

theorem consoleText_putchar (s : CStr) : consoleText (s.map .putchar) = s := by
  induction s with
  | nil => rfl
  | cons c s ih => rw [List.map_cons, consoleText_cons, ih, VgaCall.bytes, List.singleton_append]

/-- A string without a zero byte is printed whole. -/
theorem bytes_puts {s : CStr} (h : 0#8 ∉ s) : (VgaCall.puts (some s)).bytes = s := by
  refine List.takeWhile_eq_self_iff.mpr fun b hb => ?_
  rw [bne_iff_ne]
  rintro rfl
  exact h hb

/-! ## `print_uint` and `print_hex32` -/

/-- `'0' + d`. -/
def digitChar (d : Nat) : BitVec 8 := BitVec.ofNat 8 (0x30 + d)

/-- `while (n > 0) { buf[i++] = '0' + (n % 10); n /= 10; }`: what is stored in `buf`. -/
def uintDigits (n : Nat) : CStr :=
  if 0 < n then digitChar (n % 10) :: uintDigits (n / 10) else []
termination_by n

def printUint (n : Nat) : Console :=
  if n = 0 then [.putchar 0x30#8] else (uintDigits n).reverse.map .putchar

/-- `hex[d]`. -/
def hexChar (d : Nat) : BitVec 8 := (ascii "0123456789ABCDEF".toList).getD d 0#8

/-- The loop of `print_hex32` with `n` places left: `buf` has the places behind them. -/
def hexLoop : (n v : Nat) → CStr → CStr
  | 0, _, buf => buf
  | n + 1, v, buf => hexLoop n (v / 16) (hexChar (v % 16) :: buf)

def printHex32 (v : Nat) : VgaCall := .puts (some (hexLoop 8 v []))

/-! ## Sizes -/

def printSize (bytes : Nat) : Console :=
  if 1024 * 1024 * 1024 ≤ bytes then printUint (bytes / (1024 * 1024 * 1024)) ++ [puts " GB"]
  else if 1024 * 1024 ≤ bytes then printUint (bytes / (1024 * 1024)) ++ [puts " MB"]
  else if 1024 ≤ bytes then printUint (bytes / 1024) ++ [puts " KB"]
  else printUint bytes ++ [puts " B"]

/-- `format_memory_size`: the bytes stored in `buffer` before the terminating zero. -/
def formatMemorySize (bytes : Nat) : CStr :=
  if 1024 * 1024 * 1024 ≤ bytes then
    let gb := bytes / (1024 * 1024 * 1024)
    [digitChar (gb / 10), digitChar (gb % 10)] ++ ascii " GB".toList
  else if 1024 * 1024 ≤ bytes then
    let mb := bytes / (1024 * 1024)
    if 1000 ≤ mb then
      [digitChar (mb / 1000), digitChar (mb / 100 % 10), digitChar (mb / 10 % 10),
        digitChar (mb % 10)] ++ ascii " MB".toList
    else if 100 ≤ mb then
      [digitChar (mb / 100), digitChar (mb / 10 % 10), digitChar (mb % 10)] ++ ascii " MB".toList
    else [digitChar (mb / 10), digitChar (mb % 10)] ++ ascii " MB".toList
  else
    let kb := bytes / 1024
    [digitChar (kb / 1000), digitChar (kb / 100 % 10), digitChar (kb / 10 % 10),
      digitChar (kb % 10)] ++ ascii " KB".toList

/-! ## Reading them back -/

def decimalVal (b : BitVec 8) : Option Nat :=
  if 0x30 ≤ b.toNat ∧ b.toNat ≤ 0x39 then some (b.toNat - 0x30) else none

/-- The number a reader takes from decimal digits. -/
def readDecimal (s : CStr) : Option Nat := read 10 decimalVal s

def hexVal (b : BitVec 8) : Option Nat :=
  if 0x30 ≤ b.toNat ∧ b.toNat ≤ 0x39 then some (b.toNat - 0x30)
  else if 0x41 ≤ b.toNat ∧ b.toNat ≤ 0x46 then some (b.toNat - 0x37)
  else none

def readHex (s : CStr) : Option Nat := read 16 hexVal s

theorem decimalVal_digitChar {d : Nat} (hd : d < 10) : decimalVal (digitChar d) = some d := by
  have h : ∀ d < 10, decimalVal (digitChar d) = some d := by decide
  exact h d hd

theorem hexVal_hexChar {d : Nat} (hd : d < 16) : hexVal (hexChar d) = some d := by
  have h : ∀ d < 16, hexVal (hexChar d) = some d := by decide
  exact h d hd

theorem decimalVal_lt {b : BitVec 8} {d : Nat} (h : decimalVal b = some d) : d < 10 := by
  rw [decimalVal] at h
  split at h
  · cases h
    omega
  · cases h

theorem uintDigits_eq (n : Nat) : uintDigits n = (Nat.digits 10 n).map digitChar := by
  induction n using Nat.strong_induction_on with
  | h n ih =>
      rw [uintDigits]
      split
      · next hn =>
          rw [ih (n / 10) (Nat.div_lt_self hn (by decide)),
            Nat.digits_def' (by decide) hn, List.map_cons]
      · next hn =>
          obtain rfl : n = 0 := by omega
          rw [Nat.digits_zero, List.map_nil]

/-- The decimal numeral of a number. -/
def decimalText (n : Nat) : CStr := consoleText (printUint n)

theorem decimalText_of_pos {n : Nat} (hn : n ≠ 0) :
    decimalText n = (Nat.digits 10 n).reverse.map digitChar := by
  rw [decimalText, printUint, if_neg hn, consoleText_putchar, uintDigits_eq, List.map_reverse]

theorem readDecimal_decimalText (n : Nat) : readDecimal (decimalText n) = some n := by
  by_cases hn : n = 0
  · subst hn
    rfl
  · rw [decimalText_of_pos hn]
    exact read_digits (by decide) (fun d hd => decimalVal_digitChar hd) hn

/-- Twenty places are enough for 64 bits. -/
theorem length_uintDigits_le {n : Nat} (hn : n < 2 ^ 64) : (uintDigits n).length ≤ 20 := by
  rw [uintDigits_eq, List.length_map, Nat.digits_length_le_iff (by decide)]
  exact Nat.lt_trans hn (by decide)

theorem decimalText_head {n : Nat} (hn : n ≠ 0) : (decimalText n).head? ≠ some 0x30#8 := by
  have hne : Nat.digits 10 n ≠ [] := Nat.digits_ne_nil_iff_ne_zero.mpr hn
  have hlast := Nat.getLast_digit_ne_zero 10 hn
  have hlt := Nat.digits_lt_base (b := 10) (by decide) (List.getLast_mem hne)
  rw [decimalText_of_pos hn, List.head?_map, List.head?_reverse, List.getLast?_eq_some_getLast hne,
    Option.map_some]
  generalize (Nat.digits 10 n).getLast hne = d at hlast hlt
  have hdigit : ∀ d < 10, d ≠ 0 → some (digitChar d) ≠ some 0x30#8 := by decide
  exact hdigit d hlt hlast

theorem hexLoop_eq (n v : Nat) (buf : CStr) :
    hexLoop n v buf = (lowDigits 16 n v).reverse.map hexChar ++ buf := by
  induction n generalizing v buf with
  | zero => rfl
  | succ n ih =>
      rw [hexLoop, ih, lowDigits, List.reverse_cons, List.map_append, List.append_assoc]
      rfl

theorem bytes_printHex32 (v : Nat) :
    (printHex32 v).bytes = (lowDigits 16 8 v).reverse.map hexChar := by
  have hchar : ∀ d < 16, hexChar d ≠ 0#8 := by decide
  rw [printHex32, hexLoop_eq, List.append_nil]
  refine bytes_puts fun hmem => ?_
  obtain ⟨d, hd, hzero⟩ := List.mem_map.mp hmem
  exact hchar d (lowDigits_lt (by decide) (List.mem_reverse.mp hd)) hzero

/-- **Printed numbers read back.** A 64-bit number fits into the buffer of `print_uint`
with a byte to spare, its text denotes it and has no leading zero; `print_hex32` prints
eight digits that denote a 32-bit number. -/
theorem print_uint_reads_back (n : Nat) (hn : n < 2 ^ 64) :
    (uintDigits n).length < 21
      ∧ readDecimal (consoleText (printUint n)) = some n
      ∧ (n ≠ 0 → (consoleText (printUint n)).head? ≠ some 0x30#8)
      ∧ (consoleText [printHex32 n]).length = 8
      ∧ readHex (consoleText [printHex32 n]) = some (n % 2 ^ 32) := by
  have hhex : consoleText [printHex32 n] = (lowDigits 16 8 n).reverse.map hexChar := by
    rw [consoleText_cons, bytes_printHex32, consoleText_nil, List.append_nil]
  refine ⟨?_, readDecimal_decimalText n, decimalText_head, ?_, ?_⟩
  · have := length_uintDigits_le hn
    omega
  · rw [hhex, List.length_map, List.length_reverse, length_lowDigits]
  · rw [hhex]
    exact read_lowDigits (by decide) (fun d hd => hexVal_hexChar hd) (by decide) n

theorem print_uint_reads_back_max :
    (uintDigits 0xFFFFFFFFFFFFFFFF).length < 21
      ∧ readDecimal (consoleText (printUint 0xFFFFFFFFFFFFFFFF)) = some 0xFFFFFFFFFFFFFFFF :=
  have h := print_uint_reads_back 0xFFFFFFFFFFFFFFFF (by decide)
  ⟨h.1, h.2.1⟩

/-! ## Sizes read back -/

/-- The units of both formatters. -/
def sizeUnits : List (CStr × Nat) :=
  [(ascii " GB".toList, 2 ^ 30), (ascii " MB".toList, 2 ^ 20), (ascii " KB".toList, 2 ^ 10),
    (ascii " B".toList, 1)]

/-- The text gives `bytes` in the unit `u`, rounded down. -/
def ShownIn (u : CStr × Nat) (text : CStr) (bytes : Nat) : Prop :=
  ∃ num, text = num ++ u.1 ∧ readDecimal num = some (bytes / u.2)

/-- The unit is not larger than what it measures; there is none below the byte. -/
def UnitFits (u : CStr × Nat) (bytes : Nat) : Prop := u.2 = 1 ∨ u.2 ≤ bytes

section Sizes

variable {bytes : Nat}

theorem printSize_shown (bytes : Nat) :
    ∃ u ∈ sizeUnits, ShownIn u (consoleText (printSize bytes)) bytes
      ∧ UnitFits u bytes := by
  have hshown : ∀ (unit : String) (k : Nat), (0#8 ∉ ascii unit.toList) →
      ShownIn (ascii unit.toList, k) (consoleText (printUint (bytes / k) ++ [puts unit]))
        bytes := by
    intro unit k hunit
    refine ⟨decimalText (bytes / k), ?_, readDecimal_decimalText _⟩
    rw [consoleText_append, consoleText_cons, puts, bytes_puts hunit, consoleText_nil,
      List.append_nil, decimalText]
  unfold printSize
  split
  · next h => exact ⟨_, List.mem_cons_self, hshown _ _ (by decide), Or.inr h⟩
  · split
    · next h => exact ⟨_, .tail _ (.head _), hshown _ _ (by decide), Or.inr h⟩
    · split
      · next h => exact ⟨_, .tail _ (.tail _ (.head _)), hshown _ _ (by decide), Or.inr h⟩
      · have hone := hshown " B" 1 (by decide)
        rw [Nat.div_one] at hone
        exact ⟨_, .tail _ (.tail _ (.tail _ (.head _))), hone, Or.inl rfl⟩

theorem readDecimal_digitChars {ds : List Nat} (hne : ds ≠ []) (h : ∀ d ∈ ds, d < 10) :
    readDecimal (ds.map digitChar) = some (Nat.ofDigits 10 ds.reverse) := by
  have hread := readFrom_reverse (b := 10) ds.reverse
    (fun d hd => decimalVal_digitChar (h d (List.mem_reverse.mp hd))) 0
  rw [List.reverse_reverse, Nat.zero_mul, Nat.zero_add] at hread
  rw [readDecimal, Numeral.read, if_neg (by simpa using hne), hread]

/-- The places `format_memory_size` uses for `n`: two, three or four of them, of which the
first takes what is left. -/
def Places (n : Nat) (ds : List Nat) : Prop :=
  ds = [n / 10, n % 10] ∨ ds = [n / 100, n / 10 % 10, n % 10]
    ∨ ds = [n / 1000, n / 100 % 10, n / 10 % 10, n % 10]

theorem Places.value {n : Nat} {ds : List Nat} (h : Places n ds) :
    Nat.ofDigits 10 ds.reverse = n := by
  rcases h with rfl | rfl | rfl <;> simp [Nat.ofDigits] <;> omega

theorem Places.length {n : Nat} {ds : List Nat} (h : Places n ds) :
    2 ≤ ds.length ∧ ds.length ≤ 4 := by
  rcases h with rfl | rfl | rfl <;> simp

theorem Places.digits {n : Nat} {ds : List Nat} (h : Places n ds) (hn : n < 10 ^ ds.length) :
    ∀ d ∈ ds, d < 10 := by
  intro d hd
  rcases h with rfl | rfl | rfl <;>
    simp only [List.mem_cons, List.not_mem_nil, or_false, List.length_cons, List.length_nil]
      at hd hn <;>
    omega

/-- Which places go with which unit. Below a hundred of the largest one they are enough. -/
theorem formatMemorySize_cases (bytes : Nat) :
    ∃ ds, ∃ u ∈ sizeUnits, formatMemorySize bytes = ds.map digitChar ++ u.1 ∧ u.1.length = 3
      ∧ Places (bytes / u.2) ds ∧ (bytes < 100 * 2 ^ 30 → bytes / u.2 < 10 ^ ds.length)
      ∧ (100 * 2 ^ 30 ≤ bytes → ds.length = 2 ∧ u.2 = 2 ^ 30) ∧ (2 ^ 10 ≤ bytes → u.2 ≤ bytes) := by
  unfold formatMemorySize
  split
  · next hgb =>
      exact ⟨[_, _], _, .head _, rfl, rfl, Or.inl rfl,
        fun hlt => show bytes / 2 ^ 30 < 10 ^ 2 by omega, fun _ => ⟨rfl, rfl⟩, fun _ => hgb⟩
  · next hgb =>
      have hsmall : ∀ {p : Prop}, 100 * 2 ^ 30 ≤ bytes → p := by
        intro p hle
        omega
      split
      · next hmb =>
          dsimp only
          split
          · exact ⟨[_, _, _, _], _, .tail _ (.head _), rfl, rfl, Or.inr (Or.inr rfl),
              fun _ => show bytes / 2 ^ 20 < 10 ^ 4 by omega, hsmall, fun _ => hmb⟩
          · next h1000 =>
              split
              · exact ⟨[_, _, _], _, .tail _ (.head _), rfl, rfl, Or.inr (Or.inl rfl),
                  fun _ => show bytes / 2 ^ 20 < 10 ^ 3 by omega, hsmall, fun _ => hmb⟩
              · next h100 =>
                  exact ⟨[_, _], _, .tail _ (.head _), rfl, rfl, Or.inl rfl,
                    fun _ => show bytes / 2 ^ 20 < 10 ^ 2 by omega, hsmall, fun _ => hmb⟩
      · exact ⟨[_, _, _, _], _, .tail _ (.tail _ (.head _)), rfl, rfl, Or.inr (Or.inr rfl),
          fun _ => show bytes / 2 ^ 10 < 10 ^ 4 by omega, hsmall, fun h => h⟩

theorem formatMemorySize_shown (h : bytes < 100 * 2 ^ 30) :
    ∃ u ∈ sizeUnits, ShownIn u (formatMemorySize bytes) bytes ∧ (2 ^ 10 ≤ bytes → u.2 ≤ bytes) := by
  obtain ⟨ds, u, hu, htext, -, hplaces, hdigits, -, hunit⟩ := formatMemorySize_cases bytes
  have hne : ds ≠ [] := List.ne_nil_of_length_pos (by have := hplaces.length.1; omega)
  refine ⟨u, hu, ⟨ds.map digitChar, htext, ?_⟩, hunit⟩
  rw [readDecimal_digitChars hne (hplaces.digits (hdigits h)), hplaces.value]

/-- Two texts with units of three letters have the same unit; the short unit ends another
way. -/
theorem sizeUnits_inj {u w : CStr × Nat} (hu : u ∈ sizeUnits) (hlen : u.1.length = 3)
    (hw : w ∈ sizeUnits) {s t : CStr} (h : s ++ u.1 = t ++ w.1) : s = t ∧ u = w := by
  have hshort : w.1.length = 3 := by
    have hsuffix : w.1 <:+ s ++ u.1 := h ▸ List.suffix_append t w.1
    have hcases : ∀ u ∈ sizeUnits, u.1.length = 3 → ∀ w ∈ sizeUnits, w.1.length ≠ 3 →
        ¬w.1 <:+ u.1 ∧ w.1.length ≤ u.1.length := by decide
    by_contra hne
    obtain ⟨hnot, hle⟩ := hcases u hu hlen w hw hne
    exact hnot (List.suffix_of_suffix_length_le hsuffix (List.suffix_append s u.1) hle)
  obtain ⟨hs, hunit⟩ := List.append_inj' h (hlen.trans hshort.symm)
  have hcases : ∀ u ∈ sizeUnits, ∀ w ∈ sizeUnits, u.1 = w.1 → u = w := by decide
  exact ⟨hs, hcases u hu w hw hunit⟩

/-- Two places do not hold a hundred gigabytes. -/
theorem formatMemorySize_not_shown (h : 100 * 2 ^ 30 ≤ bytes) :
    ¬∃ u ∈ sizeUnits, ShownIn u (formatMemorySize bytes) bytes := by
  rintro ⟨w, hw, num, hnum, hread⟩
  obtain ⟨ds, u, hu, htext, hlen, -, -, hbig, -⟩ := formatMemorySize_cases bytes
  obtain ⟨rfl, rfl⟩ := sizeUnits_inj hu hlen hw (htext.symm.trans hnum)
  have hlt := read_lt (fun c d => decimalVal_lt) hread
  rw [List.length_map, (hbig h).1, (hbig h).2] at hlt
  exact absurd (Nat.div_lt_iff_lt_mul (by decide) |>.mp hlt) (Nat.not_lt.mpr h)

/-- The smallest unit of the boot messages is the kilobyte. -/
theorem formatMemorySize_unit {w : CStr × Nat} (hw : w ∈ sizeUnits)
    (hshown : ShownIn w (formatMemorySize bytes) bytes) : 2 ^ 10 ≤ w.2 := by
  obtain ⟨num, hnum, -⟩ := hshown
  obtain ⟨ds, u, hu, htext, hlen, -⟩ := formatMemorySize_cases bytes
  obtain ⟨-, rfl⟩ := sizeUnits_inj hu hlen hw (htext.symm.trans hnum)
  have hcases : ∀ u ∈ sizeUnits, u.1.length = 3 → 2 ^ 10 ≤ u.2 := by decide
  exact hcases u hu hlen

/-- **Sizes on the screen.** `print_size` gives every size, rounded down to a unit that is
not larger than it, with a number that fits into the buffer of `print_uint`.
`format_memory_size` gives a size in some unit exactly below 100 GiB, and in a unit that is not
larger than it exactly if it is a kilobyte at least, too; it never leaves its buffer. -/
theorem memory_size_shown_iff (bytes : Nat) (h : bytes < 2 ^ 64) :
    (∃ u ∈ sizeUnits, ShownIn u (consoleText (printSize bytes)) bytes ∧ UnitFits u bytes
        ∧ (uintDigits (bytes / u.2)).length < 21)
      ∧ ((∃ u ∈ sizeUnits, ShownIn u (formatMemorySize bytes) bytes) ↔ bytes < 100 * 2 ^ 30)
      ∧ ((∃ u ∈ sizeUnits, ShownIn u (formatMemorySize bytes) bytes ∧ UnitFits u bytes) ↔
        2 ^ 10 ≤ bytes ∧ bytes < 100 * 2 ^ 30)
      ∧ (formatMemorySize bytes).length < 16 := by
  have hbelow : ∀ {w}, w ∈ sizeUnits → ShownIn w (formatMemorySize bytes) bytes →
      bytes < 100 * 2 ^ 30 := by
    intro w hw hshown
    by_contra hlt
    exact formatMemorySize_not_shown (Nat.le_of_not_lt hlt) ⟨w, hw, hshown⟩
  refine ⟨?_, ⟨?_, fun hlt => ?_⟩, ⟨?_, ?_⟩, ?_⟩
  · obtain ⟨u, hu, hshown, hfits⟩ := printSize_shown bytes
    have := length_uintDigits_le (Nat.lt_of_le_of_lt (Nat.div_le_self bytes u.2) h)
    exact ⟨u, hu, hshown, hfits, by omega⟩
  · rintro ⟨w, hw, hshown⟩
    exact hbelow hw hshown
  · obtain ⟨u, hu, hshown, -⟩ := formatMemorySize_shown hlt
    exact ⟨u, hu, hshown⟩
  · rintro ⟨w, hw, hshown, hfits⟩
    have hunit := formatMemorySize_unit hw hshown
    rw [UnitFits] at hfits
    exact ⟨by omega, hbelow hw hshown⟩
  · rintro ⟨hge, hlt⟩
    obtain ⟨u, hu, hshown, hunit⟩ := formatMemorySize_shown hlt
    exact ⟨u, hu, hshown, .inr (hunit hge)⟩
  · obtain ⟨ds, u, -, htext, hlen, hplaces, -⟩ := formatMemorySize_cases bytes
    have := hplaces.length.2
    rw [htext, List.length_append, List.length_map, hlen]
    omega

/-- Below a kilobyte the boot messages have no unit that fits. -/
theorem memory_size_shown_iff_half :
    formatMemorySize 512 = ascii "0000 KB".toList
      ∧ ¬∃ u ∈ sizeUnits, ShownIn u (formatMemorySize 512) 512 ∧ UnitFits u 512 :=
  ⟨by decide, fun hshown =>
    absurd ((memory_size_shown_iff 512 (by decide)).2.2.1.mp hshown).1 (by decide)⟩

end Sizes

end Matryoshka
