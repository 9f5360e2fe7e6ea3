import Matryoshka.Word
import Mathlib.Data.Nat.Digits.Lemmas

/-!
# Numerals

Positional numerals over any alphabet. `read` is what a reader makes of a
string, the most significant digit first; a string with a character that
is not a digit, and the empty string, denote nothing. Programs produce the
digits in the opposite order, all of them (`Nat.digits`) or a fixed number
(`lowDigits`); what they print is read back (`read_digits`,
`read_lowDigits`).
-/

namespace Matryoshka

namespace Numeral

variable {α : Type*}

/-! ## Reading -/

/-- A reader that has seen a numeral of value `acc`. -/
def readFrom (b : Nat) (val : α → Option Nat) : Nat → List α → Option Nat
  | acc, [] => some acc
  | acc, c :: s =>
      match val c with
      | none => none
      | some d => readFrom b val (acc * b + d) s

def read (b : Nat) (val : α → Option Nat) (s : List α) : Option Nat :=
  if s.isEmpty then none else readFrom b val 0 s

section Reading

variable {b : Nat} {val : α → Option Nat} {glyph : Nat → α}

theorem readFrom_cons {c : α} {d : Nat} (hval : val c = some d) (acc : Nat) (s : List α) :
    readFrom b val acc (c :: s) = readFrom b val (acc * b + d) s := by
  simp only [readFrom, hval]

theorem readFrom_append (acc : Nat) (s t : List α) :
    readFrom b val acc (s ++ t)
      = (readFrom b val acc s).bind fun a => readFrom b val a t := by
  induction s generalizing acc with
  | nil => rfl
  | cons c s ih =>
      rw [List.cons_append, readFrom, readFrom]
      cases val c with
      | none => rfl
      | some d => exact ih _

theorem readFrom_eq_none {acc : Nat} {s : List α} {c : α} (hc : c ∈ s) (hval : val c = none) :
    readFrom b val acc s = none := by
  obtain ⟨s, t, rfl⟩ := List.append_of_mem hc
  rw [readFrom_append]
  cases readFrom b val acc s with
  | none => rfl
  | some a => simp only [Option.bind_some, readFrom, hval]

/-- A numeral of `k` places denotes less than `b ^ k`. -/
theorem readFrom_lt (hval : ∀ c d, val c = some d → d < b) {s : List α} {acc n : Nat}
    (h : readFrom b val acc s = some n) : n < (acc + 1) * b ^ s.length := by
  induction s generalizing acc with
  | nil =>
      cases h
      simp
  | cons c s ih =>
      cases hc : val c with
      | none =>
          rw [readFrom_eq_none List.mem_cons_self hc] at h
          cases h
      | some d =>
          rw [readFrom_cons hc] at h
          calc n < (acc * b + d + 1) * b ^ s.length := ih h
            _ ≤ ((acc + 1) * b) * b ^ s.length := by
                have := hval c d hc
                exact Nat.mul_le_mul_right _ (by rw [Nat.add_mul]; omega)
            _ = (acc + 1) * b ^ (c :: s).length := by
                rw [List.length_cons, Nat.pow_succ', Nat.mul_assoc]

theorem read_lt (hval : ∀ c d, val c = some d → d < b) {s : List α} {n : Nat}
    (h : read b val s = some n) : n < b ^ s.length := by
  rw [Numeral.read] at h
  split at h
  · cases h
  · have hlt := readFrom_lt hval h
    rwa [Nat.zero_add, Nat.one_mul] at hlt

/-- Digits that are printed with the highest one first denote their value. -/
theorem readFrom_reverse (ds : List Nat) (hval : ∀ d ∈ ds, val (glyph d) = some d) (acc : Nat) :
    readFrom b val acc (ds.reverse.map glyph)
      = some (acc * b ^ ds.length + Nat.ofDigits b ds) := by
  induction ds generalizing acc with
  | nil => simp [readFrom]
  | cons d ds ih =>
      have hrest := ih (fun d' hd' => hval d' (List.mem_cons_of_mem d hd')) acc
      rw [List.reverse_cons, List.map_append, readFrom_append, hrest, Option.bind_some,
        List.map_singleton, readFrom_cons (hval d List.mem_cons_self), readFrom,
        Nat.ofDigits_cons, List.length_cons, Nat.pow_succ]
      congr 1
      ring

end Reading

/-! ## Digits of a number -/

/-- The `width` lowest digits of `n`, the lowest first. -/
def lowDigits (b : Nat) : (width n : Nat) → List Nat
  | 0, _ => []
  | width + 1, n => n % b :: lowDigits b width (n / b)

section Digits

variable {b : Nat} {val : α → Option Nat} {glyph : Nat → α}

theorem length_lowDigits (b width n : Nat) : (lowDigits b width n).length = width := by
  induction width generalizing n with
  | zero => rfl
  | succ width ih => rw [lowDigits, List.length_cons, ih]

theorem lowDigits_lt (hbase : 0 < b) {width n d : Nat} (hd : d ∈ lowDigits b width n) :
    d < b := by
  induction width generalizing n with
  | zero => exact absurd hd List.not_mem_nil
  | succ width ih =>
      rw [lowDigits, List.mem_cons] at hd
      rcases hd with rfl | hd
      · exact Nat.mod_lt _ hbase
      · exact ih hd

theorem ofDigits_lowDigits (b width n : Nat) :
    Nat.ofDigits b (lowDigits b width n) = n % b ^ width := by
  induction width generalizing n with
  | zero => simp [lowDigits, Nat.mod_one]
  | succ width ih =>
      rw [lowDigits, Nat.ofDigits_cons, ih, Nat.pow_succ', Nat.mod_mul]

/-- All digits of a number, printed, denote it. -/
theorem read_digits (hbase : 1 < b) (hval : ∀ d < b, val (glyph d) = some d) {n : Nat}
    (hn : n ≠ 0) : read b val ((Nat.digits b n).reverse.map glyph) = some n := by
  have hne : Nat.digits b n ≠ [] := Nat.digits_ne_nil_iff_ne_zero.mpr hn
  have hread := readFrom_reverse (b := b) (Nat.digits b n)
    (fun d hd => hval d (Nat.digits_lt_base hbase hd)) 0
  rw [read, if_neg (by simpa using hne), hread, Nat.zero_mul, Nat.zero_add, Nat.ofDigits_digits]

/-- A fixed number of digits denotes the number reduced to that many. -/
theorem read_lowDigits (hbase : 0 < b) (hval : ∀ d < b, val (glyph d) = some d)
    {width : Nat} (hwidth : 0 < width) (n : Nat) :
    read b val ((lowDigits b width n).reverse.map glyph) = some (n % b ^ width) := by
  have hlen := length_lowDigits b width n
  have hne : lowDigits b width n ≠ [] := by
    rintro hnil
    rw [hnil, List.length_nil] at hlen
    exact absurd hlen.symm (Nat.ne_of_gt hwidth)
  have hread := readFrom_reverse (b := b) (lowDigits b width n)
    (fun d hd => hval d (lowDigits_lt hbase hd)) 0
  rw [read, if_neg (by simpa using hne), hread, Nat.zero_mul, Nat.zero_add, ofDigits_lowDigits]

end Digits

end Numeral

end Matryoshka
