import Matryoshka.Loop
import Matryoshka.Ramfs
import Matryoshka.StringOps

/-!
# Comparing strings (`kernel/string.c`)

`strlen`, `strcmp` and `strncmp` over memory. Their loops follow 32-bit
pointers and may not end where there is no NUL, so a number of rounds is a
parameter; `HoldsStr` says what string starts at an address, and then one
round more than the string has characters is enough.

What the comparisons return is the difference of the first bytes that
differ (`strDiff`), which orders strings like a dictionary
(`string_order`).
-/

namespace Matryoshka

open ByteMem

/-! ## Strings in memory -/

/-- The string `l` and its NUL, from `p` on. -/
def HoldsStr (m : Mem) : Nat → CStr → Prop
  | p, [] => p < 2 ^ 32 ∧ m p = 0#8
  | p, c :: l => m p = c ∧ c ≠ 0#8 ∧ HoldsStr m (p + 1) l

instance HoldsStr.decidable (m : Mem) : ∀ (p : Nat) (l : CStr), Decidable (HoldsStr m p l)
  | p, [] => inferInstanceAs (Decidable (p < 2 ^ 32 ∧ m p = 0#8))
  | p, c :: l =>
      have := HoldsStr.decidable m (p + 1) l
      inferInstanceAs (Decidable (m p = c ∧ c ≠ 0#8 ∧ HoldsStr m (p + 1) l))

section Strings

variable {m : Mem} {p : Nat} {c : BitVec 8} {l : CStr}

theorem HoldsStr.inside : ∀ {l : CStr} {p : Nat}, HoldsStr m p l → p + l.length < 2 ^ 32 := by
  intro l
  induction l with
  | nil =>
      intro p h
      exact h.1
  | cons c l ih =>
      intro p h
      have hrest := ih h.2.2
      rw [List.length_cons]
      omega

theorem HoldsStr.next (h : HoldsStr m p (c :: l)) : ptrNext p = p + 1 := by
  have hrest := h.2.2.inside
  exact u32_of_lt (by omega)

theorem HoldsStr.head_eq_zero_iff (h : HoldsStr m p l) : m p = 0#8 ↔ l = [] := by
  cases l with
  | nil => exact iff_of_true h.2 rfl
  | cons c l =>
      rw [h.1]
      exact iff_of_false h.2.1 (List.cons_ne_nil c l)

theorem HoldsStr.bytes {rest : CStr} : ∀ {l : CStr} {p : Nat}, HoldsStr m p (l ++ rest) →
    bytesAt m p l.length = l := by
  intro l
  induction l with
  | nil =>
      intro p _
      rfl
  | cons c l ih =>
      intro p h
      rw [List.length_cons, Nat.add_comm, bytesAt_add, ih h.2.2]
      exact congrArg (· :: l) h.1

/-- A terminated array holds the bytes in front of the NUL. -/
theorem StrAt.holds : ∀ {n p : Nat}, StrAt m p n → HoldsStr m p (bytesAt m p n) := by
  intro n
  induction n with
  | zero =>
      intro p h
      exact ⟨h.inside, h.terminated⟩
  | succ n ih =>
      intro p h
      have hrest : StrAt m (p + 1) n := by
        have hshift : ∀ i, p + 1 + i = p + (i + 1) := by
          intro i
          omega
        refine ⟨?_, fun i hi => ?_, ?_⟩
        · rw [hshift]
          exact h.inside
        · rw [hshift]
          exact h.nonzero (i + 1) (Nat.succ_lt_succ hi)
        · rw [hshift]
          exact h.terminated
      rw [Nat.add_comm, bytesAt_add]
      exact ⟨rfl, h.nonzero 0 (Nat.succ_pos n), ih hrest⟩

end Strings

/-! ## Comparing strings -/

/-- `s[n]` is the condition of the loop of `strlen`. -/
def strlenBody (m : Mem) (s n : Nat) : Nat ⊕ Nat :=
  if m (u32 (s + n)) ≠ 0#8 then .inr (u32 (n + 1)) else .inl n

def strlen (rounds : Nat) (m : Mem) (s : Nat) : Option Nat := Loop.run (strlenBody m s) rounds 0

/-- `*(const unsigned char *)a - *(const unsigned char *)b`. -/
def charDiff (m : Mem) (a b : Nat) : Int := (m a).toNat - (m b).toNat

def strcmpBody (m : Mem) : Nat × Nat → Int ⊕ (Nat × Nat)
  | (a, b) =>
      if m a ≠ 0#8 ∧ m a = m b then .inr (ptrNext a, ptrNext b) else .inl (charDiff m a b)

def strcmp (rounds : Nat) (m : Mem) (a b : Nat) : Option Int :=
  Loop.run (strcmpBody m) rounds (a, b)

/-- The loop of `strncmp`, with `n` after its decrement. -/
def strncmpLoop (m : Mem) (a b : Nat) : Nat → Int
  | 0 => charDiff m a b
  | n + 1 =>
      if m a ≠ 0#8 ∧ m a = m b then strncmpLoop m (ptrNext a) (ptrNext b) n else charDiff m a b

def strncmp (m : Mem) (a b : Nat) : Nat → Int
  | 0 => 0
  | n + 1 => strncmpLoop m a b n

/-- The first difference of two strings; the NUL is below every other byte. -/
def strDiff : CStr → CStr → Int
  | [], [] => 0
  | [], d :: _ => -(d.toNat : Int)
  | c :: _, [] => c.toNat
  | c :: x, d :: y => if c = d then strDiff x y else c.toNat - d.toNat

section Compare

variable {m : Mem} {a b : Nat} {x y : CStr}

theorem strlen_run {rounds : Nat} (h : HoldsStr m a x) (hrounds : x.length < rounds) :
    strlen rounds m a = some x.length := by
  -- after `k` characters the loop counts the rest
  have hloop : ∀ (l : CStr) (k : Nat), HoldsStr m (a + k) l →
      Loop.run (strlenBody m a) (l.length + 1) k = some (k + l.length) := by
    intro l
    induction l with
    | nil =>
        intro k hl
        have hstop : strlenBody m a k = .inl k := by
          rw [strlenBody, u32_of_lt hl.1, if_neg (not_not.mpr hl.2)]
        exact Loop.run_inl hstop
    | cons c l ih =>
        intro k hl
        have hinside := hl.inside
        have hgo : strlenBody m a k = .inr (k + 1) := by
          have hne : m (a + k) ≠ 0#8 := by
            rw [hl.1]
            exact hl.2.1
          rw [List.length_cons] at hinside
          rw [strlenBody, u32_of_lt (by omega), if_pos hne, u32_of_lt (by omega)]
        rw [Loop.run_inr hgo, List.length_cons, ih (k + 1) hl.2.2, Nat.add_right_comm,
          Nat.add_assoc]
  rw [strlen, Loop.run_mono (hloop x 0 h) hrounds, Nat.zero_add]

/-- The characters under the pointers decide whether the comparison goes on. -/
theorem charDiff_eq (ha : HoldsStr m a x) (hb : HoldsStr m b y)
    (hstop : ¬(m a ≠ 0#8 ∧ m a = m b)) : charDiff m a b = strDiff x y := by
  cases x with
  | nil =>
      cases y with
      | nil =>
          rw [charDiff, ha.2, hb.2]
          rfl
      | cons d y =>
          rw [charDiff, ha.2, hb.1, strDiff, BitVec.toNat_zero]
          omega
  | cons c x =>
      cases y with
      | nil =>
          rw [charDiff, ha.1, hb.2, strDiff, BitVec.toNat_zero]
          omega
      | cons d y =>
          rw [ha.1, hb.1] at hstop
          have hne : c ≠ d := fun heq => hstop ⟨ha.2.1, heq⟩
          rw [charDiff, ha.1, hb.1, strDiff, if_neg hne]

/-- Where the comparison goes on both strings have the character. -/
theorem HoldsStr.same_head (ha : HoldsStr m a x) (hb : HoldsStr m b y)
    (hgo : m a ≠ 0#8 ∧ m a = m b) : ∃ c x' y', x = c :: x' ∧ y = c :: y'
      ∧ (ptrNext a = a + 1 ∧ HoldsStr m (a + 1) x')
      ∧ (ptrNext b = b + 1 ∧ HoldsStr m (b + 1) y') := by
  cases x with
  | nil => exact absurd ha.2 hgo.1
  | cons c x =>
      cases y with
      | nil => exact absurd (hgo.2.trans hb.2) hgo.1
      | cons d y =>
          have heq : c = d := by rw [← ha.1, ← hb.1, hgo.2]
          subst heq
          exact ⟨c, x, y, rfl, rfl, ⟨ha.next, ha.2.2⟩, hb.next, hb.2.2⟩

theorem strcmp_run {rounds : Nat} (ha : HoldsStr m a x) (hb : HoldsStr m b y)
    (hrounds : x.length < rounds) : strcmp rounds m a b = some (strDiff x y) := by
  induction rounds generalizing a b x y with
  | zero => exact absurd hrounds (Nat.not_lt_zero _)
  | succ n ih =>
      by_cases hgo : m a ≠ 0#8 ∧ m a = m b
      · obtain ⟨c, x', y', rfl, rfl, ⟨hna, ha'⟩, hnb, hb'⟩ := ha.same_head hb hgo
        have hstep : strcmpBody m (a, b) = .inr (a + 1, b + 1) := by
          rw [strcmpBody, if_pos hgo, hna, hnb]
        rw [strcmp, Loop.run_inr hstep, strDiff, if_pos rfl]
        exact ih ha' hb' (Nat.lt_of_succ_lt_succ hrounds)
      · have hstop : strcmpBody m (a, b) = .inl (charDiff m a b) := by
          rw [strcmpBody, if_neg hgo]
        rw [strcmp, Loop.run_inl hstop, charDiff_eq ha hb hgo]

theorem strDiff_take (n : Nat) (hstop : ∀ c x' y', x = c :: x' → y ≠ c :: y') :
    strDiff (x.take (n + 1)) (y.take (n + 1)) = strDiff x y := by
  cases x with
  | nil =>
      cases y with
      | nil => rfl
      | cons d y => rfl
  | cons c x =>
      cases y with
      | nil => rfl
      | cons d y =>
          have hne : c ≠ d := by
            rintro rfl
            exact hstop c x y rfl rfl
          rw [List.take_succ_cons, List.take_succ_cons, strDiff, strDiff, if_neg hne, if_neg hne]

theorem charDiff_eq_take (ha : HoldsStr m a x) (hb : HoldsStr m b y)
    (hstop : ¬(m a ≠ 0#8 ∧ m a = m b)) (n : Nat) :
    charDiff m a b = strDiff (x.take (n + 1)) (y.take (n + 1)) := by
  rw [charDiff_eq ha hb hstop, strDiff_take]
  rintro c x' y' rfl rfl
  refine hstop ⟨?_, ha.1.trans hb.1.symm⟩
  rw [ha.1]
  exact ha.2.1

theorem strncmpLoop_eq {n : Nat} (ha : HoldsStr m a x) (hb : HoldsStr m b y) :
    strncmpLoop m a b n = strDiff (x.take (n + 1)) (y.take (n + 1)) := by
  induction n generalizing a b x y with
  | zero =>
      rw [strncmpLoop]
      by_cases hgo : m a ≠ 0#8 ∧ m a = m b
      · obtain ⟨c, x', y', rfl, rfl, -, -⟩ := ha.same_head hb hgo
        rw [charDiff, hgo.2, Int.sub_self, List.take_succ_cons, List.take_succ_cons, strDiff,
          if_pos rfl]
        rfl
      · exact charDiff_eq_take ha hb hgo 0
  | succ n ih =>
      rw [strncmpLoop]
      split
      · next hgo =>
          obtain ⟨c, x', y', rfl, rfl, ⟨hna, ha'⟩, hnb, hb'⟩ := ha.same_head hb hgo
          rw [hna, hnb, ih ha' hb', List.take_succ_cons, List.take_succ_cons, strDiff, if_pos rfl]
      · next hgo => exact charDiff_eq_take ha hb hgo (n + 1)

theorem strncmp_eq (ha : HoldsStr m a x) (hb : HoldsStr m b y) (n : Nat) :
    strncmp m a b n = strDiff (x.take n) (y.take n) := by
  cases n with
  | zero => rfl
  | succ n => exact strncmpLoop_eq ha hb

end Compare

/-! ## The order -/

section Order

variable {x y : CStr}

theorem toNat_pos_of_ne {c : BitVec 8} (h : c ≠ 0#8) : 0 < c.toNat := by
  refine Nat.pos_of_ne_zero fun hzero => h ?_
  exact BitVec.eq_of_toNat_eq hzero

theorem HoldsStr.nonzero {m : Mem} : ∀ {l : CStr} {p : Nat}, HoldsStr m p l →
    ∀ c ∈ l, c ≠ 0#8 := by
  intro l
  induction l with
  | nil =>
      intro p _ c hc
      cases hc
  | cons d l ih =>
      intro p h c hc
      rcases List.mem_cons.mp hc with rfl | hc
      · exact h.2.1
      · exact ih h.2.2 c hc

theorem strDiff_eq_zero_iff (hx : ∀ c ∈ x, c ≠ 0#8) (hy : ∀ c ∈ y, c ≠ 0#8) :
    strDiff x y = 0 ↔ x = y := by
  induction x generalizing y with
  | nil =>
      cases y with
      | nil => exact iff_of_true rfl rfl
      | cons d y =>
          have hd := toNat_pos_of_ne (hy d List.mem_cons_self)
          rw [strDiff]
          refine iff_of_false (by omega) (List.cons_ne_nil d y).symm
  | cons c x ih =>
      cases y with
      | nil =>
          have hc := toNat_pos_of_ne (hx c List.mem_cons_self)
          rw [strDiff]
          refine iff_of_false (by omega) (List.cons_ne_nil c x)
      | cons d y =>
          rw [strDiff, List.cons.injEq]
          split
          · next heq =>
              rw [ih (fun e he => hx e (List.mem_cons_of_mem c he))
                fun e he => hy e (List.mem_cons_of_mem d he)]
              exact (and_iff_right heq).symm
          · next hne =>
              refine iff_of_false (fun hzero => hne ?_) fun h => hne h.1
              exact BitVec.eq_of_toNat_eq (by omega)

theorem strDiff_neg_iff (hx : ∀ c ∈ x, c ≠ 0#8) (hy : ∀ c ∈ y, c ≠ 0#8) :
    strDiff x y < 0 ↔ x < y := by
  induction x generalizing y with
  | nil =>
      cases y with
      | nil => exact iff_of_false (Int.lt_irrefl 0) (List.not_lt_nil [])
      | cons d y =>
          have hd := toNat_pos_of_ne (hy d List.mem_cons_self)
          rw [strDiff]
          exact iff_of_true (by omega) (List.nil_lt_cons d y)
  | cons c x ih =>
      cases y with
      | nil =>
          rw [strDiff]
          exact iff_of_false (by omega) (List.not_lt_nil _)
      | cons d y =>
          rw [strDiff, List.cons_lt_cons_iff]
          split
          · next heq =>
              rw [ih (fun e he => hx e (List.mem_cons_of_mem c he))
                fun e he => hy e (List.mem_cons_of_mem d he), heq]
              constructor
              · intro hlt
                exact Or.inr ⟨rfl, hlt⟩
              · rintro (hlt | ⟨-, hlt⟩)
                · exact absurd hlt (BitVec.lt_irrefl d)
                · exact hlt
          · next hne =>
              rw [BitVec.lt_def]
              constructor
              · intro hlt
                exact Or.inl (by omega)
              · rintro (hlt | ⟨heq, -⟩)
                · omega
                · exact absurd heq hne

end Order

/-- **Strings are ordered like words in a dictionary.** On any two strings in memory, which
may overlap, `strlen` counts the characters, `strcmp` returns, and its sign is the
lexicographic order of the strings as unsigned bytes; `strncmp` does the same with the first
`n` characters, also if a string is shorter. -/
theorem string_order {m : Mem} {a b : Nat} {x y : CStr} (ha : HoldsStr m a x)
    (hb : HoldsStr m b y) {rounds : Nat} (hrounds : x.length < rounds) :
    strlen rounds m a = some x.length
      ∧ (∃ r, strcmp rounds m a b = some r ∧ (r < 0 ↔ x < y) ∧ (r = 0 ↔ x = y))
      ∧ ∀ n, (strncmp m a b n < 0 ↔ x.take n < y.take n)
        ∧ (strncmp m a b n = 0 ↔ x.take n = y.take n) := by
  have hx := ha.nonzero
  have hy := hb.nonzero
  refine ⟨strlen_run ha hrounds, ⟨_, strcmp_run ha hb hrounds, strDiff_neg_iff hx hy,
    strDiff_eq_zero_iff hx hy⟩, fun n => ?_⟩
  have hxn : ∀ c ∈ x.take n, c ≠ 0#8 := fun c hc => hx c (List.mem_of_mem_take hc)
  have hyn : ∀ c ∈ y.take n, c ≠ 0#8 := fun c hc => hy c (List.mem_of_mem_take hc)
  rw [strncmp_eq ha hb n]
  exact ⟨strDiff_neg_iff hxn hyn, strDiff_eq_zero_iff hxn hyn⟩

/-- The string `ab` at 100 and its suffix `b` at 101. -/
def suffixMem : Mem := fun a => if a = 100 then 0x61#8 else if a = 101 then 0x62#8 else 0#8

/-- `ab` comes before its own suffix. -/
theorem string_order_suffix :
    HoldsStr suffixMem 100 [0x61#8, 0x62#8] ∧ HoldsStr suffixMem 101 [0x62#8]
      ∧ ∃ r, strcmp 3 suffixMem 100 101 = some r ∧ r < 0 := by
  have ha : HoldsStr suffixMem 100 [0x61#8, 0x62#8] := by decide
  have hb : HoldsStr suffixMem 101 [0x62#8] := by decide
  obtain ⟨-, ⟨r, hr, hneg, -⟩, -⟩ := @string_order suffixMem 100 101 _ _ ha hb 3 (by decide)
  exact ⟨ha, hb, r, hr, hneg.mpr (by decide)⟩

end Matryoshka
