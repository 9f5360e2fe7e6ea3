import Mathlib.Data.Nat.Basic
import Mathlib.Tactic.Common

/-!
# Rings of slots

A ring of `n` slots carries a growing sequence of items: item `k` goes to
slot `k % n`. Two parties share it, one that fills the next slot and one
that gives slots back, so that at any time the items from `lo` on are in
the ring and at most `n` of them. `Window` says that they are, and the
rules say what a write to one slot does to it. `Numbered` ties a record of
items to their slots.
-/

namespace Matryoshka

namespace RingBuf

/-! ## Slots -/

theorem slot_eq_of_le {n i j : Nat} (hle : i ≤ j) (hlt : j < i + n) (h : i % n = j % n) :
    i = j := by
  have hdvd : n ∣ j - i := Nat.dvd_of_mod_eq_zero (Nat.sub_mod_eq_zero_of_mod_eq h.symm)
  have := Nat.eq_zero_of_dvd_of_lt hdvd (by omega)
  omega

/-- Within one lap the slot determines the item. -/
theorem slot_inj {n lo i j : Nat} (hi : lo ≤ i) (hi' : i < lo + n) (hj : lo ≤ j)
    (hj' : j < lo + n) (h : i % n = j % n) : i = j := by
  rcases Nat.le_total i j with hle | hle
  · exact slot_eq_of_le hle (by omega) h
  · exact (slot_eq_of_le hle (by omega) h.symm).symm

/-! ## Windows -/

section Window

variable {α : Type} {n lo : Nat} {Holds Holds' : Nat → α → Prop} {items : List α}

/-- The items from `lo` on are in their slots. -/
def Window (n : Nat) (Holds : Nat → α → Prop) (items : List α) (lo : Nat) : Prop :=
  ∀ k x, lo ≤ k → items[k]? = some x → Holds (k % n) x

/-- Giving the oldest slot back. -/
theorem Window.pop (h : Window n Holds items lo) : Window n Holds items (lo + 1) :=
  fun k x hk => h k x (by omega)

/-- A write to the slot of item `w`, for a `w` that is not in the window. -/
theorem Window.write {w : Nat} (h : Window n Holds items lo) (hw : items.length ≤ w)
    (hlt : w < lo + n)
    (hkeep : ∀ s x, s ≠ w % n → Holds s x → Holds' s x) : Window n Holds' items lo := by
  intro k x hk hx
  have hkl : k < items.length := (List.getElem?_eq_some_iff.mp hx).1
  refine hkeep _ x (fun hs => ?_) (h k x hk hx)
  have := slot_inj (by omega) (by omega) (by omega) hlt hs
  omega

theorem getElem?_concat_cases {y x : α} {k : Nat} (hx : (items ++ [y])[k]? = some x) :
    (k < items.length ∧ items[k]? = some x) ∨ (k = items.length ∧ x = y) := by
  rcases Nat.lt_or_ge k items.length with hk | hk
  · rw [List.getElem?_append_left hk] at hx
    exact Or.inl ⟨hk, hx⟩
  · have hlen := (List.getElem?_eq_some_iff.mp hx).1
    rw [List.length_append, List.length_singleton] at hlen
    obtain rfl : k = items.length := by omega
    rw [List.getElem?_concat_length] at hx
    exact Or.inr ⟨rfl, (Option.some.inj hx).symm⟩

/-- Filling the next slot. -/
theorem Window.push {y : α} (h : Window n Holds items lo)
    (hlt : items.length < lo + n)
    (hkeep : ∀ s x, s ≠ items.length % n → Holds s x → Holds' s x)
    (hnew : Holds' (items.length % n) y) : Window n Holds' (items ++ [y]) lo := by
  intro k x hk hx
  rcases getElem?_concat_cases hx with ⟨-, hx⟩ | ⟨rfl, rfl⟩
  · exact h.write (Nat.le_refl _) hlt hkeep k x hk hx
  · exact hnew

/-- Every item is recorded with its slot. -/
def Numbered (n : Nat) (items : List (Nat × α)) : Prop :=
  ∀ k x, items[k]? = some x → x.1 = k % n

theorem Numbered.push {items : List (Nat × α)} {slot : Nat} (h : Numbered n items)
    (hslot : slot = items.length % n) (y : α) : Numbered n (items ++ [(slot, y)]) := by
  intro k x hx
  rcases getElem?_concat_cases hx with ⟨-, hx⟩ | ⟨rfl, rfl⟩
  · exact h k x hx
  · exact hslot

end Window

end RingBuf

end Matryoshka
