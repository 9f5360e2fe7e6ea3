import Matryoshka.ByteMem

/-!
# Stacks of words

A stack grows downwards in byte memory. `pushAll` is a sequence of
`*(--sp) = v`; `WordsAt m a ws` says that the words `ws` lie at `a` in
ascending order. Pushing lays the words out in reverse and touches nothing
else.
-/

namespace Matryoshka

namespace Stack

open ByteMem

def pushAll (m : Mem) (sp : Nat) : List (BitVec 32) → Mem
  | [] => m
  | v :: vs => pushAll (store32 m (sp - 4) v) (sp - 4) vs

def WordsAt (m : Mem) (a : Nat) : List (BitVec 32) → Prop
  | [] => True
  | w :: ws => load32 m a = w ∧ WordsAt m (a + 4) ws

section Words

variable {m m' : Mem} {a sp x : Nat} {vs ws : List (BitVec 32)} {v w : BitVec 32}

theorem wordsAt_append :
    ∀ {us : List (BitVec 32)} {a : Nat},
      WordsAt m a (us ++ ws) ↔ WordsAt m a us ∧ WordsAt m (a + 4 * us.length) ws
  | [], a => by simp [WordsAt]
  | u :: us, a => by
      have hlen : a + 4 + 4 * us.length = a + 4 * (us.length + 1) := by omega
      rw [List.cons_append, WordsAt, WordsAt, wordsAt_append, and_assoc, List.length_cons, hlen]

theorem WordsAt.get :
    ∀ {ws : List (BitVec 32)} {a k : Nat} {w : BitVec 32}, WordsAt m a ws → ws[k]? = some w →
      load32 m (a + 4 * k) = w
  | _ :: _, a, 0, w, h, hk => by
      rw [List.getElem?_cons_zero] at hk
      rw [← Option.some.inj hk]
      exact h.1
  | _ :: ws, a, k + 1, w, h, hk => by
      rw [List.getElem?_cons_succ] at hk
      have hnext := h.2.get hk
      rwa [show a + 4 + 4 * k = a + 4 * (k + 1) by omega] at hnext

theorem WordsAt.congr :
    ∀ {ws : List (BitVec 32)} {a : Nat}, WordsAt m a ws →
      (∀ x, a ≤ x → x < a + 4 * ws.length → m' x = m x) → WordsAt m' a ws
  | [], _, _, _ => trivial
  | w :: ws, a, h, hm => by
      rw [List.length_cons] at hm
      refine ⟨?_, h.2.congr fun x h1 h2 => hm x (by omega) (by omega)⟩
      rw [← h.1]
      exact load32_congr fun x h1 h2 => hm x h1 (by omega)

theorem pushAll_of_outside :
    ∀ {vs : List (BitVec 32)} {m : Mem} {sp : Nat}, 4 * vs.length ≤ sp →
      x < sp - 4 * vs.length ∨ sp ≤ x → pushAll m sp vs x = m x
  | [], _, _, _, _ => rfl
  | v :: vs, m, sp, hle, hx => by
      rw [List.length_cons] at hle hx
      rw [pushAll, pushAll_of_outside (by omega) (by omega), store32_of_outside (by omega)]

theorem wordsAt_pushAll :
    ∀ {vs : List (BitVec 32)} {m : Mem} {sp : Nat}, 4 * vs.length ≤ sp →
      WordsAt (pushAll m sp vs) (sp - 4 * vs.length) vs.reverse
  | [], _, _, _ => trivial
  | v :: vs, m, sp, hle => by
      rw [List.length_cons] at hle
      rw [List.reverse_cons, wordsAt_append, List.length_reverse, List.length_cons, pushAll]
      have hsp : sp - 4 * (vs.length + 1) = sp - 4 - 4 * vs.length := by omega
      have htop : sp - 4 - 4 * vs.length + 4 * vs.length = sp - 4 := by omega
      refine ⟨hsp ▸ wordsAt_pushAll (by omega), ?_, trivial⟩
      have hload : load32 (pushAll (store32 m (sp - 4) v) (sp - 4) vs) (sp - 4) =
          load32 (store32 m (sp - 4) v) (sp - 4) :=
        load32_congr fun x h1 h2 => pushAll_of_outside (by omega) (by omega)
      rw [hsp, htop, hload, load32_store32_self]

end Words

end Stack

end Matryoshka
