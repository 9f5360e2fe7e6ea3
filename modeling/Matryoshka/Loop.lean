import Mathlib.Data.Finset.Card
import Mathlib.Data.List.Nodup
import Mathlib.Tactic.Common

/-!
# Loops that may not end, and searches that do

The body of a loop maps a state to an answer or to the next state. `run`
gives the answer if it comes within a number of rounds, `visits` lists the
states the body is entered in. More rounds never change an answer, and over
finitely many states the number of states is enough of them: a loop that
comes back to a state never leaves it for good.

`scan` counts through a range and stops at the first answer. When the
answers do not depend on the state the rounds leave, it finds the first one
there is.
-/

namespace Matryoshka

namespace Loop

variable {σ α : Type} {body : σ → α ⊕ σ} {s s' : σ} {a : α} {n k : Nat}

def run (body : σ → α ⊕ σ) : Nat → σ → Option α
  | 0, _ => none
  | n + 1, s =>
      match body s with
      | .inl a => some a
      | .inr s' => run body n s'

def visits (body : σ → α ⊕ σ) : Nat → σ → List σ
  | 0, _ => []
  | n + 1, s =>
      s :: match body s with
        | .inl _ => []
        | .inr s' => visits body n s'

theorem run_inl (h : body s = .inl a) : run body (n + 1) s = some a := by
  rw [run, h]

theorem run_inr (h : body s = .inr s') : run body (n + 1) s = run body n s' := by
  rw [run, h]

theorem visits_inl (h : body s = .inl a) : visits body (n + 1) s = [s] := by
  rw [visits, h]

theorem visits_inr (h : body s = .inr s') :
    visits body (n + 1) s = s :: visits body n s' := by
  rw [visits, h]

theorem run_mono (h : run body n s = some a) (hle : n ≤ k) : run body k s = some a := by
  induction n generalizing s k with
  | zero => cases h
  | succ n ih =>
      obtain ⟨k, rfl⟩ := Nat.exists_eq_add_of_le' (Nat.le_trans (Nat.succ_pos n) hle)
      cases hb : body s with
      | inl b =>
          rw [run_inl hb] at h ⊢
          exact h
      | inr s' =>
          rw [run_inr hb] at h ⊢
          exact ih h (Nat.le_of_succ_le_succ hle)

/-- From every state on the way the rest of the rounds gives the same answer. -/
theorem run_of_mem_visits (h : run body n s = some a) (hs : s' ∈ visits body n s) :
    run body n s' = some a := by
  induction n generalizing s with
  | zero => cases h
  | succ n ih =>
      cases hb : body s with
      | inl b =>
          rw [visits_inl hb, List.mem_singleton] at hs
          exact hs ▸ h
      | inr t =>
          rw [visits_inr hb] at hs
          rcases List.mem_cons.mp hs with rfl | hs
          · exact h
          · rw [run_inr hb] at h
            exact run_mono (ih h hs) (Nat.le_succ n)

/-- Up to its first answer a loop enters no state twice. -/
theorem visits_nodup (h : run body (n + 1) s = some a) (hmin : run body n s = none) :
    (visits body (n + 1) s).Nodup ∧ (visits body (n + 1) s).length = n + 1 := by
  induction n generalizing s with
  | zero =>
      cases hb : body s with
      | inl b =>
          rw [visits_inl hb]
          exact ⟨List.nodup_singleton s, rfl⟩
      | inr t =>
          rw [run_inr hb] at h
          cases h
  | succ n ih =>
      cases hb : body s with
      | inl b =>
          rw [run_inl hb] at hmin
          cases hmin
      | inr t =>
          have ht := h
          have htmin := hmin
          rw [run_inr hb] at ht htmin
          obtain ⟨hnodup, hlen⟩ := ih ht htmin
          rw [visits_inr hb, List.length_cons, hlen]
          refine ⟨List.nodup_cons.mpr ⟨fun hmem => ?_, hnodup⟩, rfl⟩
          rw [run_of_mem_visits ht hmem] at hmin
          cases hmin

theorem visits_subset {S : Finset σ} (hS : ∀ t ∈ S, ∀ t', body t = .inr t' → t' ∈ S)
    (hs : s ∈ S) : ∀ t ∈ visits body n s, t ∈ S := by
  induction n generalizing s with
  | zero => exact fun t ht => absurd ht List.not_mem_nil
  | succ n ih =>
      intro t ht
      cases hb : body s with
      | inl b =>
          rw [visits_inl hb, List.mem_singleton] at ht
          exact ht ▸ hs
      | inr s' =>
          rw [visits_inr hb] at ht
          rcases List.mem_cons.mp ht with rfl | ht
          · exact hs
          · exact ih (hS s hs s' hb) t ht

/-- Among finitely many states an answer comes within as many rounds. -/
theorem run_card [DecidableEq σ] {S : Finset σ}
    (hS : ∀ t ∈ S, ∀ t', body t = .inr t' → t' ∈ S) (hs : s ∈ S)
    (h : run body n s = some a) : run body S.card s = some a := by
  induction n with
  | zero => cases h
  | succ n ih =>
      cases hmin : run body n s with
      | some b =>
          have hb := run_mono hmin (Nat.le_succ n)
          rw [h] at hb
          exact ih (hmin.trans hb.symm)
      | none =>
          obtain ⟨hnodup, hlen⟩ := visits_nodup h hmin
          have hsub : (visits body (n + 1) s).toFinset ⊆ S := fun t ht =>
            visits_subset hS hs t (List.mem_toFinset.mp ht)
          have hcard := Finset.card_le_card hsub
          rw [List.toFinset_card_of_nodup hnodup, hlen] at hcard
          exact run_mono h hcard

/-! ## Searches through a range -/

section Scan

variable {f : Nat → σ → Option α × σ} {g : Nat → Option α} {P : σ → Prop} {i : Nat}

/-- Tries the rounds `i`, `i + 1`, ... up to the first answer, `k` of them at most. -/
def scan (f : Nat → σ → Option α × σ) : (k i : Nat) → σ → Option α × σ
  | 0, _, s => (none, s)
  | k + 1, i, s =>
      match f i s with
      | (some a, s') => (some a, s')
      | (none, s') => scan f k (i + 1) s'

/-- In states with `P`, which every round keeps, round `j` of the first `n` answers `g j`. -/
def Answers (f : Nat → σ → Option α × σ) (g : Nat → Option α) (P : σ → Prop) (n : Nat) : Prop :=
  ∀ j s, j < n → P s → (f j s).1 = g j ∧ P (f j s).2

theorem scan_some (h : (f i s).1 = some a) : scan f (k + 1) i s = (some a, (f i s).2) := by
  rw [scan]
  split
  · next b s' hf =>
      rw [hf] at h ⊢
      rw [← h]
  · next s' hf =>
      rw [hf] at h
      cases h

theorem scan_none (h : (f i s).1 = none) : scan f (k + 1) i s = scan f k (i + 1) (f i s).2 := by
  rw [scan]
  split
  · next b s' hf =>
      rw [hf] at h
      cases h
  · next s' hf => rw [hf]

theorem scan_keeps (hf : Answers f g P n) (hs : P s) (hn : i + k ≤ n) : P (scan f k i s).2 := by
  induction k generalizing i s with
  | zero => exact hs
  | succ k ih =>
      obtain ⟨-, hP⟩ := hf i s (by omega) hs
      cases ha : (f i s).1 with
      | some a =>
          rw [scan_some ha]
          exact hP
      | none =>
          rw [scan_none ha]
          exact ih hP (by omega)

theorem scan_eq_none_iff (hf : Answers f g P n) (hs : P s) (hn : i + k ≤ n) :
    (scan f k i s).1 = none ↔ ∀ j, i ≤ j → j < i + k → g j = none := by
  induction k generalizing i s with
  | zero => exact iff_of_true rfl fun j hij hj => absurd hij (Nat.not_le.mpr hj)
  | succ k ih =>
      obtain ⟨hg, hP⟩ := hf i s (by omega) hs
      cases ha : (f i s).1 with
      | some a =>
          rw [scan_some ha]
          refine iff_of_false (Option.some_ne_none a) fun h => ?_
          have hi := h i (Nat.le_refl i) (by omega)
          rw [← hg, ha] at hi
          exact Option.some_ne_none a hi
      | none =>
          rw [scan_none ha, ih hP (by omega)]
          constructor
          · intro h j hij hj
            rcases Nat.eq_or_lt_of_le hij with rfl | hlt
            · exact hg.symm.trans ha
            · exact h j hlt (by omega)
          · intro h j hij hj
            exact h j (by omega) (by omega)

theorem scan_eq_some_iff (hf : Answers f g P n) (hs : P s) (hn : i + k ≤ n) :
    (scan f k i s).1 = some a ↔
      ∃ j, i ≤ j ∧ j < i + k ∧ g j = some a ∧ ∀ l, i ≤ l → l < j → g l = none := by
  induction k generalizing i s with
  | zero =>
      refine iff_of_false (Option.some_ne_none a).symm ?_
      rintro ⟨j, hij, hj, -⟩
      exact Nat.not_le.mpr hj hij
  | succ k ih =>
      obtain ⟨hg, hP⟩ := hf i s (by omega) hs
      cases ha : (f i s).1 with
      | some b =>
          rw [scan_some ha]
          rw [ha] at hg
          constructor
          · intro h
            exact ⟨i, Nat.le_refl i, by omega, hg.symm.trans h,
              fun l hl hlt => absurd hl (Nat.not_le.mpr hlt)⟩
          · rintro ⟨j, hij, -, hj, hbefore⟩
            rcases Nat.eq_or_lt_of_le hij with rfl | hlt
            · exact hg.trans hj
            · exact absurd (hg.trans (hbefore i (Nat.le_refl i) hlt)) (Option.some_ne_none b)
      | none =>
          rw [scan_none ha, ih hP (by omega)]
          rw [ha] at hg
          constructor
          · rintro ⟨j, hij, hj, hgj, hbefore⟩
            refine ⟨j, by omega, by omega, hgj, fun l hl hlt => ?_⟩
            rcases Nat.eq_or_lt_of_le hl with rfl | hil
            · exact hg.symm
            · exact hbefore l hil hlt
          · rintro ⟨j, hij, hj, hgj, hbefore⟩
            rcases Nat.eq_or_lt_of_le hij with rfl | hlt
            · exact absurd (hgj.symm.trans hg.symm) (Option.some_ne_none a)
            · exact ⟨j, hlt, by omega, hgj, fun l hl hlt' => hbefore l (by omega) hlt'⟩

/-- The state a search starts in does not matter. -/
theorem scan_state {s' : σ} (hf : Answers f g P n) (hs : P s) (hs' : P s') (hn : i + k ≤ n) :
    (scan f k i s).1 = (scan f k i s').1 := by
  apply Option.ext
  intro a
  rw [scan_eq_some_iff hf hs hn, scan_eq_some_iff hf hs' hn]

end Scan

end Loop

end Matryoshka
