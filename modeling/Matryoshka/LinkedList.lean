import Mathlib.Data.List.Basic
import Mathlib.Tactic.Common

/-!
# Null-terminated linked lists

`Links next p l` says that following `next` from `p` visits exactly the
cells of `l`, in order, and then the null pointer. The rules are the ones
a list with insertion at the head needs: what the search loop returns, and
that a chain only depends on the cells it goes through.
-/

namespace Matryoshka

namespace LinkedList

variable {ι : Type*} {next next' : ι → Option ι} {p : Option ι} {l : List ι}

def Links (next : ι → Option ι) : Option ι → List ι → Prop
  | p, [] => p = none
  | p, c :: l => p = some c ∧ Links next (next c) l

/-- `for (c = p; c; c = c->next) if (q(c)) return c;`, at most `fuel` times. -/
def findFrom (next : ι → Option ι) (q : ι → Bool) : Nat → Option ι → Option ι
  | _, none => none
  | 0, some _ => none
  | fuel + 1, some c => if q c then some c else findFrom next q fuel (next c)

theorem Links.congr : ∀ {p : Option ι} {l : List ι}, Links next p l →
    (∀ c ∈ l, next' c = next c) → Links next' p l
  | _, [], h, _ => h
  | _, c :: l, h, hn => by
      refine ⟨h.1, ?_⟩
      rw [hn c List.mem_cons_self]
      exact h.2.congr fun d hd => hn d (List.mem_cons_of_mem c hd)

theorem Links.findFrom_eq {q : ι → Bool} : ∀ {fuel : Nat} {p : Option ι} {l : List ι},
    Links next p l → l.length ≤ fuel → findFrom next q fuel p = l.find? q
  | _, _, [], h, _ => by
      rw [show _ = none from h, findFrom, List.find?_nil]
  | 0, _, _ :: _, _, hf => absurd hf (by simp)
  | fuel + 1, _, c :: l, h, hf => by
      rw [h.1, findFrom, List.find?_cons, h.2.findFrom_eq (Nat.le_of_succ_le_succ hf)]
      cases q c <;> rfl

end LinkedList

end Matryoshka
