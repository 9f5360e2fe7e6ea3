import Mathlib.Algebra.Ring.Nat
import Mathlib.Data.Nat.Basic
import Mathlib.Tactic.Common

/-!
# Machine words

Reduction to 8, 16, 32 and 64 bits, single-bit flags of a word, and the split of
a word into a 4 KiB-aligned part and a 12-bit offset.
-/

namespace Matryoshka

def u8 (n : Nat) : Nat := n % 2 ^ 8

theorem u8_of_lt {n : Nat} (h : n < 2 ^ 8) : u8 n = n := Nat.mod_eq_of_lt h

def u16 (n : Nat) : Nat := n % 2 ^ 16

theorem u16_of_lt {n : Nat} (h : n < 2 ^ 16) : u16 n = n := Nat.mod_eq_of_lt h

/-- Reduction to 32 bits: `uint32_t`, `size_t` and pointers. -/
def u32 (n : Nat) : Nat := n % 2 ^ 32

theorem u32_of_lt {n : Nat} (h : n < 2 ^ 32) : u32 n = n := Nat.mod_eq_of_lt h

/-- `(size + 7) & ~7` on 32 bits. -/
def align8 (size : Nat) : Nat := u32 (size + 7) - u32 (size + 7) % 8

theorem align8_dvd (n : Nat) : 8 ∣ align8 n := by
  unfold align8
  omega

theorem le_align8 {n : Nat} (h : n + 7 < 2 ^ 32) : n ≤ align8 n := by
  unfold align8
  rw [u32_of_lt h]
  omega

/-- The cast `(int)n` of a `uint32_t`. -/
def i32 (n : Nat) : Int := (BitVec.ofNat 32 n).toInt

theorem i32_of_lt {n : Nat} (h : n < 2 ^ 31) : i32 n = n := by
  have hn : (BitVec.ofNat 32 n).toNat = n := Nat.mod_eq_of_lt (by omega)
  rw [i32, BitVec.toInt_eq_toNat_of_lt (by omega), hn]

def u64 (n : Nat) : Nat := n % 2 ^ 64

theorem u64_of_lt {n : Nat} (h : n < 2 ^ 64) : u64 n = n := Nat.mod_eq_of_lt h

namespace Word

/-! ## Flags -/

theorem getLsbD_mask {i j : Nat} (hi : i < 32) (hj : j < 32) :
    (1#32 <<< i).getLsbD j = decide (j = i) := by
  rw [BitVec.getLsbD_shiftLeft, BitVec.getLsbD_one]
  by_cases h : j = i
  · subst h
    simp [hj]
  · simp only [h, decide_false]
    by_cases hlt : j < i
    · simp [hlt]
    · simp only [hlt, hj]
      simp
      omega

/-- `(e & (1 << i)) != 0` reads bit `i`. -/
theorem and_mask_ne_zero (e : BitVec 32) {i : Nat} (hi : i < 32) :
    ((e &&& (1#32 <<< i)) != 0#32) = e.getLsbD i := by
  cases hb : e.getLsbD i with
  | false =>
      have : e &&& (1#32 <<< i) = 0#32 := by
        apply BitVec.eq_of_getLsbD_eq
        intro j hj
        rw [BitVec.getLsbD_and, getLsbD_mask hi hj, BitVec.getLsbD_zero]
        by_cases h : j = i
        · rw [h, hb]
          rfl
        · simp [h]
      simp [this]
  | true =>
      have : e &&& (1#32 <<< i) ≠ 0#32 := by
        intro h
        have := congrArg (BitVec.getLsbD · i) h
        simp only [BitVec.getLsbD_and, getLsbD_mask hi hi, hb, BitVec.getLsbD_zero] at this
        simp at this
      simpa using this

/-! ## Pages and offsets -/

theorem getLsbD_pageMask {i : Nat} (hi : i < 32) :
    (0xFFFFF000#32).getLsbD i = decide (12 ≤ i) := by
  revert i
  decide

theorem getLsbD_offsetMask {i : Nat} (hi : i < 32) :
    (0xFFF#32).getLsbD i = decide (i < 12) := by
  revert i
  decide

theorem toNat_offset (e : BitVec 32) : (e &&& 0xFFF#32).toNat = e.toNat % 4096 := by
  rw [BitVec.toNat_and]
  exact Nat.and_two_pow_sub_one_eq_mod e.toNat 12

theorem toNat_index (e : BitVec 32) (k : Nat) :
    ((e >>> k) &&& 0x3FF#32).toNat = e.toNat / 2 ^ k % 1024 := by
  rw [BitVec.toNat_and, BitVec.toNat_ushiftRight, Nat.shiftRight_eq_div_pow]
  exact Nat.and_two_pow_sub_one_eq_mod _ 10

theorem page_eq_shift (e : BitVec 32) : e &&& 0xFFFFF000#32 = (e >>> 12) <<< 12 := by
  apply BitVec.eq_of_getLsbD_eq
  intro i hi
  rw [BitVec.getLsbD_and, getLsbD_pageMask hi, BitVec.getLsbD_shiftLeft,
    BitVec.getLsbD_ushiftRight]
  by_cases h : i < 12
  · simp [h]
  · simp [h, hi, Nat.le_of_not_lt h]

theorem toNat_page (e : BitVec 32) :
    (e &&& 0xFFFFF000#32).toNat = e.toNat / 4096 * 4096 := by
  have hlt := e.isLt
  rw [page_eq_shift, BitVec.toNat_shiftLeft, BitVec.toNat_ushiftRight,
    Nat.shiftRight_eq_div_pow, Nat.shiftLeft_eq]
  omega

/-- Flags in the low twelve bits leave the page alone. -/
theorem page_or {e f : BitVec 32} (hf : f &&& 0xFFFFF000#32 = 0#32) :
    (e ||| f) &&& 0xFFFFF000#32 = e &&& 0xFFFFF000#32 := by
  rw [BitVec.and_comm, BitVec.and_or_distrib_left, BitVec.and_comm _ f, hf, BitVec.or_zero,
    BitVec.and_comm]

/-- The page of one word and the offset of another make up an address. -/
theorem toNat_page_or_offset (e f : BitVec 32) :
    ((e &&& 0xFFFFF000#32) ||| (f &&& 0xFFF#32)).toNat
      = e.toNat / 4096 * 4096 + f.toNat % 4096 := by
  rw [BitVec.toNat_or, toNat_page, toNat_offset, Nat.mul_comm]
  have hlt : f.toNat % 4096 < 2 ^ 12 := Nat.mod_lt _ (by decide)
  exact (Nat.two_pow_add_eq_or_of_lt hlt _).symm

end Word

end Matryoshka
