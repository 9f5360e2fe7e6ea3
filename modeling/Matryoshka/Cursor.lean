import Mathlib.Data.List.Basic

/-!
# Reading a list through a cursor

A cursor stands at a position of a list; a request for `size` elements
returns what is left from there, at most `size` of them, and moves past
it. However the requests are sized, the answers one after the other are
the list from its start (`flatMap_answer`), and requests that ask for
something get to its end (`length_le_pos`).
-/

namespace Matryoshka

namespace Cursor

variable {α : Type*} (l : List α) (sizes : Nat → Nat)

/-- The answer to a request of `size` elements at `pos`. -/
def fetch (pos size : Nat) : List α := (l.drop pos).take size

/-- Where the cursor stands before request `i`. -/
def pos : Nat → Nat
  | 0 => 0
  | i + 1 => pos i + (fetch l (pos i) (sizes i)).length

/-- The answer to request `i`. -/
def answer (i : Nat) : List α := fetch l (pos l sizes i) (sizes i)

theorem fetch_length (pos size : Nat) : (fetch l pos size).length = min size (l.length - pos) := by
  rw [fetch, List.length_take, List.length_drop]

theorem fetch_getElem? (pos : Nat) {size i : Nat} (hi : i < size) :
    (fetch l pos size)[i]? = l[pos + i]? := by
  rw [fetch, List.getElem?_take_of_lt hi, List.getElem?_drop]

theorem pos_succ (i : Nat) : pos l sizes (i + 1) = pos l sizes i + (answer l sizes i).length := rfl

theorem take_append_fetch (pos size : Nat) :
    l.take pos ++ fetch l pos size = l.take (pos + (fetch l pos size).length) := by
  have hcut : (l.drop pos).take (fetch l pos size).length = fetch l pos size := by
    rw [fetch_length, fetch, List.take_eq_take_iff, List.length_drop]
    omega
  rw [List.take_add, hcut]

/-- The answers so far are the list up to the cursor. -/
theorem flatMap_answer (k : Nat) :
    (List.range k).flatMap (answer l sizes) = l.take (pos l sizes k) := by
  induction k with
  | zero => rfl
  | succ k ih =>
      rw [List.range_succ, List.flatMap_append, ih, List.flatMap_singleton, answer,
        take_append_fetch, pos_succ, answer]

/-- Every request that asks for something moves the cursor, until it is at the end. -/
theorem length_le_pos (hpos : ∀ i, 0 < sizes i) (k : Nat) :
    min k l.length ≤ pos l sizes k := by
  induction k with
  | zero => omega
  | succ k ih =>
      have := hpos k
      rw [pos_succ, answer, fetch_length]
      omega

theorem answer_eq_nil {i : Nat} (hi : l.length ≤ pos l sizes i) : answer l sizes i = [] := by
  rw [answer, fetch, List.drop_of_length_le hi, List.take_nil]

/-- After as many requests as the list is long, everything has been fetched. -/
theorem answers_complete (hpos : ∀ i, 0 < sizes i) :
    (List.range l.length).flatMap (answer l sizes) = l
      ∧ ∀ i, l.length ≤ i → answer l sizes i = [] := by
  constructor
  · have := length_le_pos l sizes hpos l.length
    rw [flatMap_answer, List.take_of_length_le (by omega)]
  · intro i hi
    have := length_le_pos l sizes hpos i
    exact answer_eq_nil l sizes (by omega)

end Cursor

end Matryoshka
