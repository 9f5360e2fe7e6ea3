import Mathlib.Data.List.Basic
import Mathlib.Data.List.TakeWhile
import Mathlib.Tactic.Common

/-!
# Separated paths

A path is a list in which one element separates the components; empty
components do not count. `components` is what a path means. `pieces n` is
what a scanner sees that copies at most `n` elements of a component at a
time and comes back for the rest (`pieces_eq_cons`); the two agree on
paths whose components are short.
-/

namespace Matryoshka

namespace SepPath

/-! ## Cutting a list into runs -/

/-- `l` in runs of `n` elements, the last one possibly shorter. -/
def chunks {α : Type*} (n : Nat) (l : List α) : List (List α) :=
  (List.range ((l.length + n - 1) / n)).map fun i => (l.drop (i * n)).take n

section Chunks

variable {α : Type*} {n : Nat} {l : List α}

theorem chunks_of_length_le (hl : l ≠ []) (h : l.length ≤ n) : chunks n l = [l] := by
  have hpos : 0 < l.length := List.length_pos_iff.mpr hl
  have hone : (l.length + n - 1) / n = 1 :=
    Nat.div_eq_of_lt_le (by omega) (by omega)
  simp [chunks, hone, List.take_of_length_le h]

theorem chunks_of_lt_length (hn : 0 < n) (h : n < l.length) :
    chunks n l = l.take n :: chunks n (l.drop n) := by
  have hcount : (l.length + n - 1) / n = ((l.drop n).length + n - 1) / n + 1 := by
    rw [List.length_drop, ← Nat.add_div_right _ hn]
    congr 1
    omega
  rw [chunks, hcount, List.range_succ_eq_map, List.map_cons, List.map_map, chunks]
  simp only [Nat.zero_mul, List.drop_zero, List.cons.injEq, true_and]
  refine List.map_congr_left fun i _ => ?_
  rw [Function.comp_apply, List.drop_drop, Nat.succ_mul, Nat.add_comm]

theorem chunks_ne_nil (hn : 0 < n) (hl : l ≠ []) : chunks n l ≠ [] := by
  by_cases h : l.length ≤ n
  · rw [chunks_of_length_le hl h]
    exact List.cons_ne_nil _ _
  · rw [chunks_of_lt_length hn (Nat.lt_of_not_le h)]
    exact List.cons_ne_nil _ _

theorem chunks_nil (hn : 0 < n) : chunks n ([] : List α) = [] := by
  rw [chunks, List.length_nil, Nat.zero_add, Nat.div_eq_of_lt (Nat.sub_lt hn Nat.one_pos)]
  rfl

theorem chunks_eq_cons (hn : 0 < n) (hl : l ≠ []) :
    chunks n l = l.take n :: chunks n (l.drop n) := by
  by_cases h : l.length ≤ n
  · rw [chunks_of_length_le hl h, List.take_of_length_le h, List.drop_of_length_le h,
      chunks_nil hn]
  · exact chunks_of_lt_length hn (Nat.lt_of_not_le h)

/-- The runs together are the list. -/
theorem flatten_chunks (hn : 0 < n) (l : List α) : (chunks n l).flatten = l := by
  induction hlen : l.length using Nat.strong_induction_on generalizing l with
  | h len ih =>
      by_cases hl : l = []
      · rw [hl, chunks_nil hn, List.flatten_nil]
      · have hpos := List.length_pos_iff.mpr hl
        have hshort : (l.drop n).length < len := by
          rw [List.length_drop]
          omega
        rw [chunks_eq_cons hn hl, List.flatten_cons, ih _ hshort _ rfl, List.take_append_drop]

end Chunks

/-! ## Components -/

variable {α : Type*} [DecidableEq α] {sep : α} {n : Nat}

/-- The non-empty runs between separators. -/
def components (sep : α) (p : List α) : List (List α) :=
  (p.splitOn sep).filter (· ≠ [])

/-- The components, each cut into runs of at most `n`. -/
def pieces (sep : α) (n : Nat) (p : List α) : List (List α) :=
  (components sep p).flatMap (chunks n)

theorem components_append_sep (a b : List α) :
    components sep (a ++ sep :: b) = components sep a ++ components sep b := by
  rw [components, List.splitOn_append_cons_self, List.filter_append, components, components]

theorem components_sep_cons (b : List α) : components sep (sep :: b) = components sep b :=
  components_append_sep [] b

theorem components_of_notMem {a : List α} (h : sep ∉ a) (ha : a ≠ []) :
    components sep a = [a] := by
  rw [components, List.splitOn_eq_singleton h]
  simp [ha]

/-- Leading separators do not matter. -/
theorem components_dropWhile (p : List α) :
    components sep (p.dropWhile (· == sep)) = components sep p := by
  induction p with
  | nil => rfl
  | cons b p ih =>
      by_cases hb : b = sep
      · rw [List.dropWhile_cons_of_pos (by simp [hb]), ih, hb, components_sep_cons]
      · rw [List.dropWhile_cons_of_neg (by simp [hb])]

/-- A component ends at a separator or at the end of the path. -/
theorem components_append {a r : List α} (h : sep ∉ a) (ha : a ≠ [])
    (hr : r = [] ∨ ∃ r', r = sep :: r') :
    components sep (a ++ r) = a :: components sep r := by
  rcases hr with rfl | ⟨r', rfl⟩
  · rw [List.append_nil, components_of_notMem h ha]
    rfl
  · rw [components_append_sep, components_of_notMem h ha, components_sep_cons]
    rfl

theorem mem_components {p c : List α} (h : c ∈ components sep p) : c ≠ [] := by
  simpa using (List.mem_filter.mp h).2

/-! ## Pieces -/

/-- Cutting changes nothing if every component is short. -/
theorem pieces_eq_components {p : List α} (h : ∀ c ∈ components sep p, c.length ≤ n) :
    pieces sep n p = components sep p := by
  have hone : ∀ c ∈ components sep p, chunks n c = [c] := fun c hc =>
    chunks_of_length_le (mem_components hc) (h c hc)
  rw [pieces, List.flatMap_congr hone, List.flatMap_singleton']

theorem pieces_dropWhile (p : List α) :
    pieces sep n (p.dropWhile (· == sep)) = pieces sep n p := by
  rw [pieces, components_dropWhile, pieces]

theorem pieces_append_sep (a b : List α) :
    pieces sep n (a ++ sep :: b) = pieces sep n a ++ pieces sep n b := by
  rw [pieces, components_append_sep, List.flatMap_append, pieces, pieces]

theorem pieces_append {a r : List α} (h : sep ∉ a) (ha : a ≠ [])
    (hr : r = [] ∨ ∃ r', r = sep :: r') :
    pieces sep n (a ++ r) = chunks n a ++ pieces sep n r := by
  rw [pieces, components_append h ha hr, List.flatMap_cons, pieces]

/-- One turn of the scanner on a path that does not start with a separator:
it copies at most `n` elements up to the next separator, and the rest of the
path holds the other pieces. -/
theorem pieces_eq_cons (hn : 0 < n) {p : List α} (hp : p ≠ []) (hhead : p.head? ≠ some sep) :
    pieces sep n p = (p.takeWhile (· != sep)).take n ::
      pieces sep n (p.drop ((p.takeWhile (· != sep)).take n).length) := by
  obtain ⟨a, r, ha, hr⟩ : ∃ a r, p.takeWhile (· != sep) = a ∧ p.dropWhile (· != sep) = r :=
    ⟨_, _, rfl, rfl⟩
  have hpa : p = a ++ r := by rw [← ha, ← hr, List.takeWhile_append_dropWhile]
  have hfree : sep ∉ a := by
    intro hmem
    rw [← ha] at hmem
    simpa using List.mem_takeWhile_imp hmem
  have hne : a ≠ [] := by
    intro hnil
    obtain ⟨b, p', rfl⟩ := List.exists_cons_of_ne_nil hp
    simp only [List.head?_cons, ne_eq, Option.some.injEq] at hhead
    rw [List.takeWhile_cons_of_pos (by simpa using hhead), hnil] at ha
    cases ha
  have hend : r = [] ∨ ∃ r', r = sep :: r' := by
    cases r with
    | nil => exact Or.inl rfl
    | cons b r' =>
        have hb := List.head_dropWhile_not (· != sep) (l := p) (by rw [hr]; simp)
        simp only [hr, List.head_cons, bne_eq_false_iff_eq] at hb
        exact Or.inr ⟨r', by rw [hb]⟩
  rw [ha, hpa, pieces_append hfree hne hend]
  by_cases hlen : a.length ≤ n
  · rw [chunks_of_length_le hne hlen, List.take_of_length_le hlen, List.drop_left]
    rfl
  · have hlt : n < a.length := Nat.lt_of_not_le hlen
    have hdrop : a.drop n ≠ [] := by
      rw [ne_eq, List.drop_eq_nil_iff]
      exact hlen
    have hfree' : sep ∉ a.drop n := fun hmem => hfree (List.mem_of_mem_drop hmem)
    rw [chunks_of_lt_length hn hlt, List.length_take_of_le hlt.le,
      List.drop_append_of_le_length hlt.le, pieces_append hfree' hdrop hend]
    rfl

end SepPath

end Matryoshka
