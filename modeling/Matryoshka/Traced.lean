import Mathlib.Tactic.Common

/-!
# Computations with a log

A value together with the events of computing it, in the order they
happened. Erasing the log gives the plain computation back; a property of
every event is checked along the binds of the computation, and once for the
body of a counting loop.
-/

namespace Matryoshka

universe u v

structure Traced (E : Type u) (α : Type v) where
  val : α
  log : List E

namespace Traced

variable {E : Type u} {α β : Type v} {P : E → Prop}

instance : Monad (Traced E) where
  pure a := ⟨a, []⟩
  bind t f := ⟨(f t.val).val, t.log ++ (f t.val).log⟩

/-! ## The value -/

@[simp] theorem val_pure (a : α) : (pure a : Traced E α).val = a := rfl

@[simp] theorem val_bind (t : Traced E α) (f : α → Traced E β) :
    (t >>= f).val = (f t.val).val := rfl

@[simp] theorem val_ite (c : Prop) [Decidable c] (t t' : Traced E α) :
    (if c then t else t').val = if c then t.val else t'.val :=
  apply_ite val c t t'

/-! ## The events -/

/-- Every event satisfies `P`. -/
def All (P : E → Prop) (t : Traced E α) : Prop := ∀ e ∈ t.log, P e

@[simp] theorem all_pure (a : α) : All P (pure a : Traced E α) := nofun

@[simp] theorem all_bind (t : Traced E α) (f : α → Traced E β) :
    All P (t >>= f) ↔ All P t ∧ All P (f t.val) :=
  List.forall_mem_append

@[simp] theorem all_ite (c : Prop) [Decidable c] (t t' : Traced E α) :
    All P (if c then t else t') ↔ (c → All P t) ∧ (¬c → All P t') := by
  split <;> simp [*]

/-- The events `e a`, …, `e (a + n - 1)` of an access to `n` places from `a` on. -/
def span (e : Nat → E) (a n : Nat) : List E := (List.range n).map fun k => e (a + k)

@[simp] theorem forall_mem_span (e : Nat → E) (a n : Nat) :
    (∀ x ∈ span e a n, P x) ↔ ∀ k < n, P (e (a + k)) := by
  simp [span]

/-! ## Counting loops -/

section Loops

variable {σ : Type v} {body : Nat → σ → Traced E σ} {s : σ} {n : Nat}

/-- `for (i = 0; i < n; i++) s = body i s`. -/
def forUp (body : Nat → σ → Traced E σ) : Nat → σ → Traced E σ
  | 0, s => pure s
  | n + 1, s => forUp body n s >>= body n

/-- An invariant of the value, indexed by the rounds done. -/
theorem forUp_inv {I : Nat → σ → Prop} (h0 : I 0 s)
    (hstep : ∀ i < n, ∀ s, I i s → I (i + 1) (body i s).val) : I n (forUp body n s).val := by
  induction n with
  | zero => exact h0
  | succ n ih =>
      have hn := ih fun i hi => hstep i (Nat.lt_succ_of_lt hi)
      exact hstep n (Nat.lt_succ_self n) _ hn

theorem all_forUp (h : ∀ i < n, ∀ s, All P (body i s)) : All P (forUp body n s) := by
  induction n with
  | zero => exact all_pure s
  | succ n ih =>
      rw [forUp, all_bind]
      exact ⟨ih fun i hi => h i (Nat.lt_succ_of_lt hi), h n (Nat.lt_succ_self n) _⟩

end Loops

end Traced

end Matryoshka
