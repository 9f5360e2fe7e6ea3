import Matryoshka.Word

/-!
# Bitmaps packed into 32-bit words

Bit `i` lives in word `i / 32` at position `i % 32`. `set`, `clear` and
`test` are the mask expressions of C; `get` is the bit they are about.
-/

namespace Matryoshka

namespace Bitmap

/-- `words[i / 32] |= 1 << (i % 32)`. -/
def set (w : Nat → BitVec 32) (i : Nat) : Nat → BitVec 32 :=
  fun k => if k = i / 32 then w k ||| (1#32 <<< (i % 32)) else w k

/-- `words[i / 32] &= ~(1 << (i % 32))`. -/
def clear (w : Nat → BitVec 32) (i : Nat) : Nat → BitVec 32 :=
  fun k => if k = i / 32 then w k &&& ~~~(1#32 <<< (i % 32)) else w k

/-- `(words[i / 32] & (1 << (i % 32))) != 0`. -/
def test (w : Nat → BitVec 32) (i : Nat) : Bool :=
  (w (i / 32) &&& (1#32 <<< (i % 32))) != 0#32

def get (w : Nat → BitVec 32) (i : Nat) : Bool := (w (i / 32)).getLsbD (i % 32)

theorem test_eq_get (w : Nat → BitVec 32) (i : Nat) : test w i = get w i :=
  Word.and_mask_ne_zero _ (Nat.mod_lt _ (by decide))

theorem index_eq {i j : Nat} (h : j / 32 = i / 32) : j % 32 = i % 32 ↔ j = i := by
  omega

theorem get_set (w : Nat → BitVec 32) (i j : Nat) :
    get (set w i) j = (decide (j = i) || get w j) := by
  have hi : i % 32 < 32 := Nat.mod_lt _ (by decide)
  have hj : j % 32 < 32 := Nat.mod_lt _ (by decide)
  unfold get set
  by_cases h : j / 32 = i / 32
  · rw [if_pos h, BitVec.getLsbD_or, Word.getLsbD_mask hi hj, Bool.or_comm]
    simp only [index_eq h]
  · rw [if_neg h]
    have : j ≠ i := fun heq => h (by rw [heq])
    simp [this]

theorem get_clear (w : Nat → BitVec 32) (i j : Nat) :
    get (clear w i) j = (!decide (j = i) && get w j) := by
  have hi : i % 32 < 32 := Nat.mod_lt _ (by decide)
  have hj : j % 32 < 32 := Nat.mod_lt _ (by decide)
  unfold get clear
  by_cases h : j / 32 = i / 32
  · rw [if_pos h, BitVec.getLsbD_and, BitVec.getLsbD_not, Word.getLsbD_mask hi hj, Bool.and_comm]
    simp [hj, index_eq h]
  · rw [if_neg h]
    have : j ≠ i := fun heq => h (by rw [heq])
    simp [this]

/-- A word is full exactly when its 32 bits are set. -/
theorem full_iff (w : Nat → BitVec 32) (k : Nat) :
    w k = 0xFFFFFFFF#32 ↔ ∀ j < 32, get w (k * 32 + j) = true := by
  have hk : ∀ j < 32, (k * 32 + j) / 32 = k ∧ (k * 32 + j) % 32 = j := fun j hj => by omega
  have hones : ∀ j < 32, (0xFFFFFFFF#32).getLsbD j = true := by decide
  constructor
  · intro h j hj
    rw [get, (hk j hj).1, (hk j hj).2, h, hones j hj]
  · intro h
    apply BitVec.eq_of_getLsbD_eq
    intro j hj
    have := h j hj
    rw [get, (hk j hj).1, (hk j hj).2] at this
    rw [this, hones j hj]

/-- A bitmap is its bits. -/
theorem ext {w w' : Nat → BitVec 32} (h : ∀ i, get w i = get w' i) : w = w' := by
  funext k
  apply BitVec.eq_of_getLsbD_eq
  intro j hj
  have := h (k * 32 + j)
  rwa [get, get, show (k * 32 + j) / 32 = k by omega, show (k * 32 + j) % 32 = j by omega] at this

/-! ## Counting -/

/-- The number of set bits below `n`. -/
def count (w : Nat → BitVec 32) (n : Nat) : Nat := (List.range n).countP (get w)

/-- Two predicates that differ at one place below `n`. -/
theorem countP_range_flip {p q : Nat → Bool} {i : Nat} (hp : p i = false) (hq : q i = true)
    (hne : ∀ j, j ≠ i → q j = p j) :
    ∀ {n : Nat}, i < n → (List.range n).countP q = (List.range n).countP p + 1
  | n + 1, hi => by
      simp only [List.range_succ, List.countP_append, List.countP_singleton]
      rcases Nat.lt_succ_iff_lt_or_eq.mp hi with hlt | rfl
      · rw [countP_range_flip hp hq hne hlt, hne n (Nat.ne_of_gt hlt)]
        omega
      · have hbelow : (List.range i).countP q = (List.range i).countP p :=
          List.countP_congr fun j hj => by rw [hne j (Nat.ne_of_lt (List.mem_range.mp hj))]
        rw [hbelow, hp, hq]
        rfl

/-- One value changed: without subtraction, each side gets what the other one lost. -/
theorem countP_range_update (p : Nat → Bool) {i n : Nat} (hi : i < n) (b : Bool) :
    (List.range n).countP (Function.update p i b) + (p i).toNat
      = (List.range n).countP p + b.toNat := by
  have hne : ∀ j, j ≠ i → Function.update p i b j = p j := fun j hj => Function.update_of_ne hj ..
  cases hp : p i with
  | false =>
      cases b with
      | false => rw [← hp, Function.update_eq_self]
      | true => exact countP_range_flip hp (Function.update_self ..) hne hi
  | true =>
      cases b with
      | false =>
          exact (countP_range_flip (Function.update_self ..) hp (fun j hj => (hne j hj).symm)
            hi).symm
      | true => rw [← hp, Function.update_eq_self]

theorem countP_range_lt {k n : Nat} (h : k ≤ n) :
    (List.range n).countP (fun j => decide (j < k)) = k := by
  obtain ⟨d, rfl⟩ := Nat.exists_eq_add_of_le h
  have hbelow : (List.range k).countP (fun j => decide (j < k)) = (List.range k).length :=
    List.countP_eq_length.mpr fun j hj => decide_eq_true (List.mem_range.mp hj)
  have habove : ((List.range d).map (k + ·)).countP (fun j => decide (j < k)) = 0 := by
    refine List.countP_eq_zero.mpr fun j hj => ?_
    obtain ⟨e, -, rfl⟩ := List.mem_map.mp hj
    simp
  rw [List.range_add, List.countP_append, hbelow, habove, List.length_range, Nat.add_zero]

theorem count_set {w : Nat → BitVec 32} {i n : Nat} (hi : i < n) (hw : get w i = false) :
    count (set w i) n = count w n + 1 :=
  countP_range_flip hw (by simp [get_set]) (fun j hj => by simp [get_set, hj]) hi

theorem count_clear {w : Nat → BitVec 32} {i n : Nat} (hi : i < n) (hw : get w i = true) :
    count w n = count (clear w i) n + 1 :=
  countP_range_flip (by simp [get_clear]) hw (fun j hj => by simp [get_clear, hj]) hi

theorem count_add_clear (w : Nat → BitVec 32) (n : Nat) :
    count w n + (List.range n).countP (fun i => !get w i) = n := by
  have := List.length_eq_countP_add_countP (get w) (l := List.range n)
  simp only [List.length_range, Bool.not_eq_true, Bool.decide_eq_false] at this
  exact this.symm

end Bitmap

end Matryoshka
