import Mathlib.Data.List.Basic
import Mathlib.Data.List.Chain
import Mathlib.Algebra.BigOperators.Group.List.Basic
import Mathlib.Algebra.Ring.Nat
import Mathlib.Tactic.Common

/-!
# Tilings of an address range by headed segments

The abstract view of a boundary-tag allocator: a range `[a, e)` is tiled
by segments, each a header of `h` bytes followed by `size` payload
bytes, and each either free or used. Two operations act on such a list:
`allocate` carves the first free segment that fits, `release` frees a
segment and coalesces every run of adjacent free segments.

The point of coalescing is `Tiles.eq_of_used`: a tiling without two
adjacent free segments is determined by its used segments alone, so any
two histories that agree on what is in use agree on everything.
-/

namespace Matryoshka

namespace Tiling

structure Seg where
  addr : Nat
  size : Nat
  free : Bool
deriving Repr, DecidableEq

/-! ## Tilings -/

/-- The segments follow each other without gap from `a` up to `e`. -/
def Tiles (h : Nat) : Nat → List Seg → Nat → Prop
  | a, [], e => a = e
  | a, b :: bs, e => b.addr = a ∧ Tiles h (a + h + b.size) bs e

/-- No two adjacent segments are both free. -/
def Separated (bs : List Seg) : Prop :=
  bs.IsChain fun b c => ¬(b.free = true ∧ c.free = true)

def used (bs : List Seg) : List Seg := bs.filter fun b => !b.free

/-- Bytes taken by the used segments, headers included. -/
def usedBytes (h : Nat) (bs : List Seg) : Nat :=
  ((used bs).map fun b => h + b.size).sum

section Tiles

variable {h a e : Nat} {b : Seg} {bs l₁ l₂ : List Seg}

theorem tiles_append :
    Tiles h a (l₁ ++ l₂) e ↔ ∃ c, Tiles h a l₁ c ∧ Tiles h c l₂ e := by
  induction l₁ generalizing a with
  | nil => simp [Tiles]
  | cons b l ih =>
      simp only [List.cons_append, Tiles, ih]
      constructor
      · rintro ⟨hb, c, h1, h2⟩
        exact ⟨c, ⟨hb, h1⟩, h2⟩
      · rintro ⟨c, ⟨hb, h1⟩, h2⟩
        exact ⟨hb, c, h1, h2⟩

theorem Tiles.le (ht : Tiles h a bs e) : a ≤ e := by
  induction bs generalizing a with
  | nil => exact Nat.le_of_eq ht
  | cons b l ih =>
      have := ih ht.2
      omega

theorem Tiles.mem_bounds (ht : Tiles h a bs e) (hb : b ∈ bs) :
    a ≤ b.addr ∧ b.addr + h + b.size ≤ e := by
  induction bs generalizing a with
  | nil => cases hb
  | cons c l ih =>
      obtain ⟨rfl, hl⟩ := ht
      rcases List.mem_cons.mp hb with rfl | hb
      · exact ⟨Nat.le_refl _, hl.le⟩
      · have := ih hl hb
        exact ⟨by omega, this.2⟩

/-- Segments of a tiling are listed in address order and do not overlap. -/
theorem Tiles.pairwise (ht : Tiles h a bs e) :
    bs.Pairwise fun b c => b.addr + h + b.size ≤ c.addr := by
  induction bs generalizing a with
  | nil => exact List.Pairwise.nil
  | cons b l ih =>
      obtain ⟨rfl, hl⟩ := ht
      exact List.pairwise_cons.mpr ⟨fun c hc => (hl.mem_bounds hc).1, ih hl⟩

/-- Two segments of a tiling are the same one, or one lies behind the other. -/
theorem Tiles.apart (ht : Tiles h a bs e) {c : Seg} (hb : b ∈ bs) (hc : c ∈ bs) :
    b = c ∨ b.addr + h + b.size ≤ c.addr ∨ c.addr + h + c.size ≤ b.addr := by
  induction bs generalizing a with
  | nil => cases hb
  | cons d l ih =>
      obtain ⟨rfl, hl⟩ := ht
      rcases List.mem_cons.mp hb with rfl | hbl
      · rcases List.mem_cons.mp hc with rfl | hcl
        · exact Or.inl rfl
        · exact Or.inr (Or.inl (hl.mem_bounds hcl).1)
      · rcases List.mem_cons.mp hc with rfl | hcl
        · exact Or.inr (Or.inr (hl.mem_bounds hbl).1)
        · exact ih hl hbl hcl

/-- With a non-empty header, segments are identified by their address. -/
theorem Tiles.eq_of_addr (ht : Tiles h a bs e) (hh : 0 < h) {c : Seg}
    (hb : b ∈ bs) (hc : c ∈ bs) (hbc : b.addr = c.addr) : b = c := by
  rcases ht.apart hb hc with heq | hlt | hlt
  · exact heq
  · omega
  · omega

/-- A free segment of a separated tiling reaches at least as far as one that
starts at the same address in a second tiling with the same used segments:
what follows it is used, and the second tiling would have to cover it. -/
theorem free_size_le {c : Seg} (h₁ : Tiles h a (b :: l₁) e)
    (h₂ : Tiles h a (c :: l₂) e) (hs : Separated (b :: l₁)) (hbf : b.free = true)
    (hcf : c.free = true) (hu : ∀ d ∈ used (b :: l₁), d ∈ used (c :: l₂)) :
    c.size ≤ b.size := by
  by_contra hlt
  obtain ⟨hb, hl₁⟩ := h₁
  obtain ⟨hc, hl₂⟩ := h₂
  cases l₁ with
  | nil =>
      have := hl₂.le
      have : a + h + b.size = e := hl₁
      omega
  | cons d l =>
      have hdf : d.free = false := by
        have := (List.isChain_cons_cons.mp hs).1
        cases hd : d.free with
        | false => rfl
        | true => exact absurd ⟨hbf, hd⟩ this
      have hd : d ∈ used (c :: l₂) := hu d (by simp [used, hdf])
      have hdl : d ∈ l₂ := by
        have hmem := (List.mem_filter.mp hd).1
        rcases List.mem_cons.mp hmem with rfl | hmem
        · rw [hdf] at hcf
          cases hcf
        · exact hmem
      have := (hl₂.mem_bounds hdl).1
      have := hl₁.1
      omega

/-- Two separated tilings with the same used segments start with the same one. -/
theorem Tiles.head_eq_of_used {c : Seg} (hh : 0 < h) (h₁ : Tiles h a (b :: l₁) e)
    (h₂ : Tiles h a (c :: l₂) e) (s₁ : Separated (b :: l₁)) (s₂ : Separated (c :: l₂))
    (hu : ∀ d, d ∈ used (b :: l₁) ↔ d ∈ used (c :: l₂)) : b = c := by
  have haddr := h₁.1.trans h₂.1.symm
  cases hbf : b.free with
  | false =>
      have hb := (List.mem_filter.mp ((hu b).mp (by simp [used, hbf]))).1
      exact h₂.eq_of_addr hh hb (List.mem_cons_self ..) haddr
  | true =>
      cases hcf : c.free with
      | false =>
          have hc := (List.mem_filter.mp ((hu c).mpr (by simp [used, hcf]))).1
          exact h₁.eq_of_addr hh (List.mem_cons_self ..) hc haddr
      | true =>
          have hle := free_size_le h₁ h₂ s₁ hbf hcf fun d hd => (hu d).mp hd
          have hge := free_size_le h₂ h₁ s₂ hcf hbf fun d hd => (hu d).mpr hd
          cases b
          cases c
          simp only at haddr hbf hcf hle hge
          rw [haddr, hbf, hcf, Nat.le_antisymm hge hle]

/-- A used segment behind the first one is found behind the first one. -/
theorem Tiles.used_tail (hh : 0 < h) (h₁ : Tiles h a (b :: l₁) e) {d : Seg} (hd : d ∈ used l₁)
    (hu : d ∈ used (b :: l₁) → d ∈ used (b :: l₂)) : d ∈ used l₂ := by
  obtain ⟨hmem, hfree⟩ := List.mem_filter.mp hd
  have hne : d ≠ b := by
    rintro rfl
    have := (h₁.2.mem_bounds hmem).1
    have := h₁.1
    omega
  have hd' := hu (List.mem_filter.mpr ⟨List.mem_cons_of_mem b hmem, hfree⟩)
  obtain ⟨hmem', -⟩ := List.mem_filter.mp hd'
  exact List.mem_filter.mpr ⟨(List.mem_cons.mp hmem').resolve_left hne, hfree⟩

/-- **Canonical form.** A separated tiling is determined by its used
segments. -/
theorem Tiles.eq_of_used (hh : 0 < h) (h₁ : Tiles h a l₁ e) (h₂ : Tiles h a l₂ e)
    (s₁ : Separated l₁) (s₂ : Separated l₂)
    (hu : ∀ d, d ∈ used l₁ ↔ d ∈ used l₂) : l₁ = l₂ := by
  induction l₁ generalizing a l₂ with
  | nil =>
      cases l₂ with
      | nil => rfl
      | cons c l₂ =>
          have : a = e := h₁
          have := h₂.2.le
          omega
  | cons b l₁ ih =>
      cases l₂ with
      | nil =>
          have : a = e := h₂
          have := h₁.2.le
          omega
      | cons c l₂ =>
          obtain rfl : b = c := h₁.head_eq_of_used hh h₂ s₁ s₂ hu
          have htail : ∀ d, d ∈ used l₁ ↔ d ∈ used l₂ := fun d =>
            ⟨fun hd => h₁.used_tail hh hd (hu d).mp, fun hd => h₂.used_tail hh hd (hu d).mpr⟩
          rw [ih h₁.2 h₂.2 s₁.tail s₂.tail htail]

/-! Bytes outside the used segments. -/

/-- The range `[x, x + len)` meets no used segment. -/
def Gap (h : Nat) (bs : List Seg) (x len : Nat) : Prop :=
  ∀ c ∈ used bs, x + len ≤ c.addr ∨ c.addr + h + c.size ≤ x

/-- A gap of a separated tiling lies inside one free segment: what follows that
segment is used. -/
theorem Tiles.gap_in_free {x len : Nat} (ht : Tiles h a bs e) (hs : Separated bs) (ha : a ≤ x)
    (he : x + len ≤ e) (hlen : 0 < len) (hg : Gap h bs x len) :
    ∃ b ∈ bs, b.free = true ∧ b.addr ≤ x ∧ x + len ≤ b.addr + h + b.size := by
  induction bs generalizing a with
  | nil =>
      have : a = e := ht
      omega
  | cons b l ih =>
      obtain ⟨rfl, hl⟩ := ht
      by_cases hx : b.addr + h + b.size ≤ x
      · have hg' : Gap h l x len := fun c hc => by
          obtain ⟨hmem, hfree⟩ := List.mem_filter.mp hc
          exact hg c (List.mem_filter.mpr ⟨List.mem_cons_of_mem _ hmem, hfree⟩)
        obtain ⟨c, hc, hfree, hle⟩ := ih hl hs.tail hx hg'
        exact ⟨c, List.mem_cons_of_mem _ hc, hfree, hle⟩
      · have hbf : b.free = true := by
          by_contra hbf
          have := hg b (List.mem_filter.mpr ⟨List.mem_cons_self, by simpa using hbf⟩)
          omega
        refine ⟨b, List.mem_cons_self, hbf, ha, ?_⟩
        cases l with
        | nil =>
            have : b.addr + h + b.size = e := hl
            omega
        | cons d l =>
            have hdf : d.free = false := by
              have := (List.isChain_cons_cons.mp hs).1
              simpa [hbf] using this
            have := hg d (List.mem_filter.mpr
              ⟨List.mem_cons_of_mem _ List.mem_cons_self, by simp [hdf]⟩)
            have := hl.1
            omega

/-- Free segments are gaps. -/
theorem Tiles.free_gap (ht : Tiles h a bs e) (hb : b ∈ bs) (hf : b.free = true) :
    Gap h bs b.addr (h + b.size) := by
  intro c hc
  obtain ⟨hmem, hfree⟩ := List.mem_filter.mp hc
  obtain ⟨l₁, l₂, rfl⟩ := List.append_of_mem hb
  have hp := ht.pairwise
  rw [List.pairwise_append, List.pairwise_cons] at hp
  rcases List.mem_append.mp hmem with hmem | hmem
  · exact Or.inr (hp.2.2 c hmem b List.mem_cons_self)
  · rcases List.mem_cons.mp hmem with rfl | hmem
    · rw [hf] at hfree
      cases hfree
    · have := hp.2.1.1 c hmem
      omega

end Tiles

/-! ## Allocation -/

def fits (n : Nat) (b : Seg) : Bool := b.free && decide (n ≤ b.size)

/-- The payload a request for `n` bytes gets out of `b`: exactly `n` when the
remainder has room for a header and `slack` bytes, the whole segment otherwise. -/
def carved (h slack n : Nat) (b : Seg) : Nat :=
  if n + h + slack ≤ b.size then n else b.size

def carve (h slack n : Nat) (b : Seg) : List Seg :=
  if n + h + slack ≤ b.size then
    [⟨b.addr, n, false⟩, ⟨b.addr + h + n, b.size - n - h, true⟩]
  else [⟨b.addr, b.size, false⟩]

/-- First fit: the segment found and the list after carving it. -/
def allocate (h slack n : Nat) : List Seg → Option (Nat × List Seg)
  | [] => none
  | b :: bs =>
      if fits n b then some (b.addr, carve h slack n b ++ bs)
      else (allocate h slack n bs).map fun r => (r.1, b :: r.2)

section Allocate

variable {h slack n d a e p : Nat} {b c : Seg} {bs bs' : List Seg}

/-- First fit splits the list at the first segment that fits. -/
theorem allocate_eq_some (ha : allocate h slack n bs = some (p, bs')) :
    ∃ pre b post, bs = pre ++ b :: post ∧ (∀ c ∈ pre, fits n c = false)
      ∧ fits n b = true ∧ p = b.addr ∧ bs' = pre ++ (carve h slack n b ++ post) := by
  induction bs generalizing p bs' with
  | nil => cases ha
  | cons b l ih =>
      rw [allocate] at ha
      by_cases hf : fits n b = true
      · rw [if_pos hf, Option.some.injEq, Prod.mk.injEq] at ha
        exact ⟨[], b, l, rfl, by simp, hf, ha.1.symm, ha.2.symm⟩
      · rw [if_neg hf, Option.map_eq_some_iff] at ha
        obtain ⟨⟨q, l'⟩, hl, heq⟩ := ha
        rw [Prod.mk.injEq] at heq
        obtain ⟨pre, c, post, rfl, hpre, hc, hq, hl'⟩ := ih hl
        refine ⟨b :: pre, c, post, rfl, ?_, hc, heq.1.symm.trans hq, ?_⟩
        · intro x hx
          rcases List.mem_cons.mp hx with rfl | hx
          · simpa using hf
          · exact hpre x hx
        · rw [← heq.2, hl', List.cons_append]

theorem carve_tiles (hb : b.addr = a) :
    Tiles h a (carve h slack n b) (a + h + b.size) := by
  unfold carve
  split
  · refine ⟨hb, ?_, ?_⟩
    · simp only [hb]
    · simp only [Tiles]
      omega
  · exact ⟨hb, rfl⟩

theorem carve_eq_cons (h slack n : Nat) (b : Seg) :
    ∃ rest, carve h slack n b = ⟨b.addr, carved h slack n b, false⟩ :: rest
      ∧ used rest = [] := by
  unfold carve carved
  split
  · exact ⟨_, rfl, by simp [used]⟩
  · exact ⟨_, rfl, by simp [used]⟩

theorem carved_ge (hf : fits n b = true) : n ≤ carved h slack n b := by
  simp only [fits, Bool.and_eq_true, decide_eq_true_eq] at hf
  unfold carved
  split
  · exact Nat.le_refl n
  · exact hf.2

theorem separated_append {l₁ l₂ : List Seg} :
    Separated (l₁ ++ l₂) ↔ Separated l₁ ∧ Separated l₂ ∧
      ∀ x ∈ l₁.getLast?, ∀ y ∈ l₂.head?, ¬(x.free = true ∧ y.free = true) :=
  List.isChain_append

theorem carve_aligned (hd : d ∣ h) (hn : d ∣ n) (hb : d ∣ b.size) :
    ∀ c ∈ carve h slack n b, d ∣ c.size := by
  unfold carve
  split
  · intro c hc
    simp only [List.mem_cons, List.not_mem_nil, or_false] at hc
    rcases hc with rfl | rfl
    · exact hn
    · exact Nat.dvd_sub (Nat.dvd_sub hb hn) hd
  · intro c hc
    obtain rfl := List.mem_singleton.mp hc
    exact hb

/-- The carved list replaces a free segment between non-free neighbours: its
head is used, and its tail is free only in front of what followed `b`. -/
theorem carve_separated {post : List Seg} (hf : b.free = true)
    (hs : Separated (b :: post)) : Separated (carve h slack n b ++ post) := by
  have hpost : Separated post := hs.tail
  unfold carve
  split
  · cases post with
    | nil => simp [Separated]
    | cons c post =>
        have hc := (List.isChain_cons_cons.mp hs).1
        refine List.isChain_cons_cons.mpr ⟨by simp, List.isChain_cons_cons.mpr ⟨?_, hpost⟩⟩
        exact fun hbc => hc ⟨hf, hbc.2⟩
  · cases post with
    | nil => simp [Separated]
    | cons c post => exact List.isChain_cons_cons.mpr ⟨by simp, hpost⟩

end Allocate

/-! ## Release -/

/-- Absorb into `b` every free segment that directly follows it, then go on
with the next one. -/
def coalesceFrom (h : Nat) : Seg → List Seg → List Seg
  | b, [] => [b]
  | b, c :: bs =>
      if b.free && c.free then coalesceFrom h ⟨b.addr, b.size + h + c.size, true⟩ bs
      else b :: coalesceFrom h c bs

def coalesce (h : Nat) : List Seg → List Seg
  | [] => []
  | b :: bs => coalesceFrom h b bs

def markFree (p : Nat) (bs : List Seg) : List Seg :=
  bs.map fun b => if b.addr = p then ⟨b.addr, b.size, true⟩ else b

def release (h p : Nat) (bs : List Seg) : List Seg := coalesce h (markFree p bs)

section Release

variable {h d a e p : Nat} {b c : Seg} {bs : List Seg}

/-- Two neighbours taken as one segment fill the same space. -/
theorem Tiles.join (ht : Tiles h a (b :: c :: bs) e) (f : Bool) :
    Tiles h a (⟨b.addr, b.size + h + c.size, f⟩ :: bs) e := by
  obtain ⟨hb, -, hl⟩ := ht
  refine ⟨hb, ?_⟩
  rw [show a + h + (b.size + h + c.size) = a + h + b.size + h + c.size by omega]
  exact hl

theorem coalesceFrom_tiles (ht : Tiles h a (b :: bs) e) :
    Tiles h a (coalesceFrom h b bs) e := by
  induction bs generalizing a b with
  | nil => exact ht
  | cons c l ih =>
      rw [coalesceFrom]
      split
      · exact ih (ht.join true)
      · exact ⟨ht.1, ih ht.2⟩

theorem coalesceFrom_head (h : Nat) (b : Seg) (bs : List Seg) :
    ∃ c l, coalesceFrom h b bs = c :: l ∧ c.addr = b.addr ∧ c.free = b.free := by
  induction bs generalizing b with
  | nil => exact ⟨b, [], rfl, rfl, rfl⟩
  | cons c l ih =>
      rw [coalesceFrom]
      by_cases hbc : (b.free && c.free) = true
      · rw [if_pos hbc]
        obtain ⟨x, l', hx, haddr, hfree⟩ := ih ⟨b.addr, b.size + h + c.size, true⟩
        rw [Bool.and_eq_true] at hbc
        exact ⟨x, l', hx, haddr, hfree.trans hbc.1.symm⟩
      · rw [if_neg hbc]
        exact ⟨b, _, rfl, rfl, rfl⟩

/-- Coalescing separates any list. -/
theorem coalesceFrom_separated (h : Nat) (b : Seg) (bs : List Seg) :
    Separated (coalesceFrom h b bs) := by
  induction bs generalizing b with
  | nil => exact List.isChain_singleton b
  | cons c l ih =>
      rw [coalesceFrom]
      by_cases hbc : (b.free && c.free) = true
      · rw [if_pos hbc]
        exact ih _
      · rw [if_neg hbc]
        obtain ⟨x, l', hx, -, hfree⟩ := coalesceFrom_head h c l
        have hs := ih c
        rw [hx] at hs ⊢
        refine List.isChain_cons_cons.mpr ⟨?_, hs⟩
        rw [hfree]
        simpa using hbc

theorem coalesceFrom_aligned (hd : d ∣ h) (hal : ∀ c ∈ b :: bs, d ∣ c.size) :
    ∀ c ∈ coalesceFrom h b bs, d ∣ c.size := by
  induction bs generalizing b with
  | nil => exact hal
  | cons c l ih =>
      have hb : d ∣ b.size := hal b (List.mem_cons_self ..)
      have hc : d ∣ c.size := hal c (by simp)
      have hl : ∀ x ∈ l, d ∣ x.size := fun x hx => hal x (by simp [hx])
      rw [coalesceFrom]
      split
      · refine ih fun x hx => ?_
        rcases List.mem_cons.mp hx with rfl | hx
        · exact Nat.dvd_add (Nat.dvd_add hb hd) hc
        · exact hl x hx
      · intro x hx
        rcases List.mem_cons.mp hx with rfl | hx
        · exact hb
        · refine ih (fun y hy => ?_) x hx
          rcases List.mem_cons.mp hy with rfl | hy
          · exact hc
          · exact hl y hy

/-- Coalescing moves no used segment. -/
theorem coalesceFrom_used (h : Nat) (b : Seg) (bs : List Seg) :
    used (coalesceFrom h b bs) = used (b :: bs) := by
  induction bs generalizing b with
  | nil => rfl
  | cons c l ih =>
      rw [coalesceFrom]
      by_cases hbc : (b.free && c.free) = true
      · rw [if_pos hbc, ih]
        rw [Bool.and_eq_true] at hbc
        simp [used, hbc.1, hbc.2]
      · rw [if_neg hbc]
        have := ih c
        simp only [used, List.filter_cons] at this ⊢
        rw [this]

theorem markFree_tiles (ht : Tiles h a bs e) : Tiles h a (markFree p bs) e := by
  induction bs generalizing a with
  | nil => exact ht
  | cons b l ih =>
      obtain ⟨hb, hl⟩ := ht
      simp only [markFree, List.map_cons]
      split
      · exact ⟨hb, ih hl⟩
      · exact ⟨hb, ih hl⟩

/-- Marking moves no segment. -/
theorem exists_of_mem_markFree (hc : c ∈ markFree p bs) : ∃ b ∈ bs, b.addr = c.addr := by
  obtain ⟨b, hb, rfl⟩ := List.mem_map.mp hc
  refine ⟨b, hb, ?_⟩
  split <;> rfl

theorem mem_used_markFree :
    c ∈ used (markFree p bs) ↔ c ∈ used bs ∧ c.addr ≠ p := by
  simp only [used, markFree, List.mem_filter, List.mem_map]
  constructor
  · rintro ⟨⟨b, hb, heq⟩, hf⟩
    by_cases hbp : b.addr = p
    · rw [if_pos hbp] at heq
      rw [← heq] at hf
      cases hf
    · rw [if_neg hbp] at heq
      subst heq
      exact ⟨⟨hb, hf⟩, hbp⟩
  · rintro ⟨⟨hc, hf⟩, hp⟩
    exact ⟨⟨c, hc, if_neg hp⟩, hf⟩

theorem used_coalesce : used (coalesce h bs) = used bs := by
  cases bs with
  | nil => rfl
  | cons b l => exact coalesceFrom_used h b l

theorem mem_used_release :
    c ∈ used (release h p bs) ↔ c ∈ used bs ∧ c.addr ≠ p := by
  rw [release, used_coalesce, mem_used_markFree]

theorem markFree_of_ne (hne : ∀ b ∈ bs, b.addr ≠ p) : markFree p bs = bs := by
  have : bs.map (fun b => if b.addr = p then ⟨b.addr, b.size, true⟩ else b) = bs.map id :=
    List.map_congr_left fun b hb => if_neg (hne b hb)
  rw [markFree, this, List.map_id]

/-- With distinct addresses, marking changes the one segment it names. -/
theorem markFree_split {pre post : List Seg} (hh : 0 < h)
    (ht : Tiles h a (pre ++ b :: post) e) :
    markFree b.addr (pre ++ b :: post) = pre ++ ⟨b.addr, b.size, true⟩ :: post := by
  have hp := ht.pairwise
  rw [List.pairwise_append, List.pairwise_cons] at hp
  obtain ⟨-, ⟨hpost, -⟩, hpre⟩ := hp
  have hpre' : markFree b.addr pre = pre :=
    markFree_of_ne fun x hx => by
      have := hpre x hx b (List.mem_cons_self ..)
      omega
  have hpost' : markFree b.addr post = post :=
    markFree_of_ne fun x hx => by
      have := hpost x hx
      omega
  simp only [markFree, List.map_append, List.map_cons] at hpre' hpost' ⊢
  rw [hpre', hpost', if_pos trivial]

end Release

/-! ## The allocator invariant -/

/-- A separated tiling of `[a, e)` whose sizes are multiples of `d`. -/
structure Canonical (h d a e : Nat) (bs : List Seg) : Prop where
  tiles : Tiles h a bs e
  separated : Separated bs
  aligned : ∀ b ∈ bs, d ∣ b.size

section Canonical

variable {h n d a e p : Nat} {b c : Seg} {bs bs' pre post : List Seg}

theorem Tiles.end_dvd (ht : Tiles h a bs e) (hd : d ∣ h) (ha : d ∣ a)
    (hal : ∀ b ∈ bs, d ∣ b.size) : d ∣ e := by
  induction bs generalizing a with
  | nil => exact ht ▸ ha
  | cons b l ih =>
      exact ih ht.2 (Nat.dvd_add (Nat.dvd_add ha hd) (hal b List.mem_cons_self))
        fun c hc => hal c (List.mem_cons_of_mem _ hc)

theorem Canonical.addr_dvd (hc : Canonical h d a e bs) (hd : d ∣ h) (ha : d ∣ a) (hb : b ∈ bs) :
    d ∣ b.addr := by
  obtain ⟨pre, post, rfl⟩ := List.append_of_mem hb
  obtain ⟨q, hpre, hba, -⟩ := tiles_append.mp hc.tiles
  rw [hba]
  exact hpre.end_dvd hd ha fun c hmem => hc.aligned c (List.mem_append_left _ hmem)

theorem Canonical.carve_split (slack : Nat) (hc : Canonical h d a e (pre ++ b :: post))
    (hd : d ∣ h) (hn : d ∣ n) (hf : fits n b = true) :
    Canonical h d a e (pre ++ (carve h slack n b ++ post)) := by
  have hbf : b.free = true := by
    simp only [fits, Bool.and_eq_true] at hf
    exact hf.1
  obtain ⟨q, hpre, hb, hpost⟩ := tiles_append.mp hc.tiles
  obtain ⟨hspre, hspost, hjoin⟩ := separated_append.mp hc.separated
  refine ⟨tiles_append.mpr ⟨q, hpre, tiles_append.mpr ⟨_, carve_tiles hb, hpost⟩⟩, ?_, ?_⟩
  · refine separated_append.mpr ⟨hspre, carve_separated hbf hspost, ?_⟩
    obtain ⟨rest, hrest, -⟩ := carve_eq_cons h slack n b
    intro x _ y hy
    rw [hrest, List.cons_append, List.head?_cons, Option.mem_some_iff] at hy
    simp [← hy]
  · intro x hx
    simp only [List.mem_append] at hx
    rcases hx with hx | hx | hx
    · exact hc.aligned x (by simp [hx])
    · exact carve_aligned hd hn (hc.aligned b (by simp)) x hx
    · exact hc.aligned x (by simp [hx])

variable {slack : Nat}

theorem Canonical.release (hc : Canonical h d a e bs) (hd : d ∣ h) :
    Canonical h d a e (release h p bs) := by
  have ht := markFree_tiles (p := p) hc.tiles
  have hal : ∀ x ∈ markFree p bs, d ∣ x.size := by
    intro x hx
    obtain ⟨y, hy, rfl⟩ := List.mem_map.mp hx
    split
    · exact hc.aligned y hy
    · exact hc.aligned y hy
  rw [Tiling.release]
  cases hm : markFree p bs with
  | nil =>
      rw [hm] at ht hal
      exact ⟨ht, List.isChain_nil, hal⟩
  | cons b l =>
      rw [hm] at ht hal
      exact ⟨coalesceFrom_tiles ht, coalesceFrom_separated h b l, coalesceFrom_aligned hd hal⟩

theorem usedBytes_append (l₁ l₂ : List Seg) :
    usedBytes h (l₁ ++ l₂) = usedBytes h l₁ + usedBytes h l₂ := by
  simp [usedBytes, used]

theorem usedBytes_cons (b : Seg) (l : List Seg) :
    usedBytes h (b :: l) = (if b.free then 0 else h + b.size) + usedBytes h l := by
  cases hb : b.free <;> simp [usedBytes, used, hb]

theorem Tiles.usedBytes_le (ht : Tiles h a bs e) : a + usedBytes h bs ≤ e := by
  induction bs generalizing a with
  | nil =>
      have : a = e := ht
      simp [usedBytes, used, this]
  | cons b l ih =>
      have := ih ht.2
      rw [usedBytes_cons]
      split <;> omega

/-- Together with any one free segment, the used ones fit into the range. -/
theorem Tiles.usedBytes_free (ht : Tiles h a bs e) (hb : b ∈ bs) (hf : b.free = true) :
    a + usedBytes h bs + (h + b.size) ≤ e := by
  obtain ⟨l₁, l₂, rfl⟩ := List.append_of_mem hb
  obtain ⟨q, h₁, -, h₂⟩ := tiles_append.mp ht
  have := h₁.usedBytes_le
  have := h₂.usedBytes_le
  rw [usedBytes_append, usedBytes_cons, if_pos hf]
  omega

/-- Without a free segment, the used ones fill the range. -/
theorem Tiles.usedBytes_full (ht : Tiles h a bs e) (hf : ∀ b ∈ bs, b.free = false) :
    a + usedBytes h bs = e := by
  induction bs generalizing a with
  | nil => exact ht
  | cons b l ih =>
      have := ih ht.2 fun c hc => hf c (List.mem_cons_of_mem _ hc)
      rw [usedBytes_cons, hf b List.mem_cons_self]
      simp only [Bool.false_eq_true, if_false]
      omega

theorem mem_used_carve_split (hf : fits n b = true) :
    c ∈ used (pre ++ (carve h slack n b ++ post)) ↔
      c ∈ used (pre ++ b :: post) ∨ c = ⟨b.addr, carved h slack n b, false⟩ := by
  have hbf : b.free = true := by
    simp only [fits, Bool.and_eq_true] at hf
    exact hf.1
  obtain ⟨rest, hrest, hused⟩ := carve_eq_cons h slack n b
  rw [hrest]
  simp only [used] at hused
  simp only [used, List.filter_append, List.filter_cons, hbf, hused, List.mem_append,
    List.cons_append, List.nil_append, Bool.not_false, Bool.not_true, if_true,
    Bool.false_eq_true, if_false, List.mem_cons]
  tauto

/-- What first fit adds to the used segments: one of the requested size or more,
at an address no used segment had. -/
theorem allocate_used (hh : 0 < h) (ht : Tiles h a bs e)
    (ha : allocate h slack n bs = some (p, bs')) :
    ∃ z, n ≤ z ∧ (∀ c, c ∈ used bs' ↔ c ∈ used bs ∨ c = ⟨p, z, false⟩)
      ∧ ∀ c ∈ used bs, c.addr ≠ p := by
  obtain ⟨pre, b, post, rfl, -, hf, rfl, rfl⟩ := allocate_eq_some ha
  refine ⟨carved h slack n b, carved_ge hf, fun c => mem_used_carve_split hf, ?_⟩
  intro c hc haddr
  obtain ⟨hmem, hfree⟩ := List.mem_filter.mp hc
  obtain rfl := ht.eq_of_addr hh hmem (by simp) haddr
  simp only [fits, Bool.and_eq_true] at hf
  rw [hf.1] at hfree
  cases hfree

theorem allocate_eq_none : allocate h slack n bs = none ↔ ∀ c ∈ bs, fits n c = false := by
  induction bs with
  | nil => simp [allocate]
  | cons b l ih =>
      rw [allocate]
      by_cases hf : fits n b = true
      · simp [hf]
      · simp [hf, ih]

theorem fits_iff : fits n b = true ↔ b.free = true ∧ n ≤ b.size := by
  simp [fits]

/-- What first fit takes is a gap with room for the header and `n` bytes. -/
theorem Canonical.allocate_gap (hc : Canonical h d a e bs)
    (hal : allocate h slack n bs = some (p, bs')) :
    a ≤ p ∧ p + (h + n) ≤ e ∧ Gap h bs p (h + n) := by
  obtain ⟨pre, b, post, rfl, -, hf, rfl, -⟩ := allocate_eq_some hal
  have hmem : b ∈ pre ++ b :: post := by simp
  obtain ⟨hfree, hsize⟩ := fits_iff.mp hf
  obtain ⟨hlo, hhi⟩ := hc.tiles.mem_bounds hmem
  refine ⟨hlo, by omega, fun c hmem' => ?_⟩
  have := hc.tiles.free_gap hmem hfree c hmem'
  omega

/-- First fit takes the lowest gap that is large enough. -/
theorem Canonical.allocate_lowest (hc : Canonical h d a e bs) (hh : 0 < h)
    (hal : allocate h slack n bs = some (p, bs')) {x : Nat} (ha : a ≤ x)
    (he : x + (h + n) ≤ e) (hg : Gap h bs x (h + n)) : p ≤ x := by
  obtain ⟨b, hb, hfree, hle, hge⟩ := hc.tiles.gap_in_free hc.separated ha he (by omega) hg
  obtain ⟨pre, c, post, rfl, hpre, -, rfl, -⟩ := allocate_eq_some hal
  have hp := hc.tiles.pairwise
  rw [List.pairwise_append, List.pairwise_cons] at hp
  rcases List.mem_append.mp hb with hmem | hmem
  · have hfits : fits n b = true := fits_iff.mpr ⟨hfree, by omega⟩
    rw [hpre b hmem] at hfits
    cases hfits
  · rcases List.mem_cons.mp hmem with rfl | hmem
    · exact hle
    · have := hp.2.1.1 b hmem
      omega

/-- First fit fails exactly if no gap has room for the header and `n` bytes. -/
theorem Canonical.allocate_none_iff (hc : Canonical h d a e bs) (hh : 0 < h) :
    allocate h slack n bs = none ↔
      ¬∃ x, a ≤ x ∧ x + (h + n) ≤ e ∧ Gap h bs x (h + n) := by
  constructor
  · rintro hnone ⟨x, ha, he, hg⟩
    obtain ⟨b, hb, hfree, hle, hge⟩ :=
      hc.tiles.gap_in_free hc.separated ha he (by omega) hg
    have hfits : fits n b = true := fits_iff.mpr ⟨hfree, by omega⟩
    rw [allocate_eq_none.mp hnone b hb] at hfits
    cases hfits
  · intro hno
    rcases hal : allocate h slack n bs with _ | ⟨p, bs'⟩
    · rfl
    · obtain ⟨hle, hge, hg⟩ := hc.allocate_gap hal
      exact absurd ⟨p, hle, hge, hg⟩ hno

theorem fits_of_le {k : Nat} (hk : k ≤ n) (hf : fits n b = true) : fits k b = true := by
  rw [fits_iff] at hf ⊢
  exact ⟨hf.1, Nat.le_trans hk hf.2⟩

/-- The rest of a split segment has room for the slack. -/
theorem exists_fits_carve {k : Nat} (hk : k ≤ slack) (hge : n + h + slack ≤ b.size) :
    ∃ c ∈ carve h slack n b, fits k c = true := by
  refine ⟨⟨b.addr + h + n, b.size - n - h, true⟩, by simp [carve, hge], fits_iff.mpr ⟨rfl, ?_⟩⟩
  show k ≤ b.size - n - h
  omega

/-- When `b` was taken whole, there is room left exactly in the other segments. -/
theorem Tiles.carve_whole_none (ht : Tiles h a (pre ++ b :: post) e) (hh : 0 < h) {k : Nat}
    (hlt : b.size < n + h + slack) :
    (∀ c ∈ pre ++ (carve h slack n b ++ post), fits k c = false) ↔
      ∀ c ∈ pre ++ b :: post, fits k c = true → c.addr = b.addr := by
  rw [carve, if_neg (Nat.not_le_of_lt hlt)]
  constructor
  · intro hnone c hc hfit
    by_contra hne
    have hcb : c ≠ b := fun heq => hne (by rw [heq])
    have hother := hnone c (by
      simp only [List.mem_append, List.mem_cons] at hc ⊢
      tauto)
    rw [hfit] at hother
    cases hother
  · intro honly c hc
    by_contra hfit
    rw [Bool.not_eq_false] at hfit
    have hp := ht.pairwise
    rw [List.pairwise_append, List.pairwise_cons] at hp
    simp only [List.mem_append, List.mem_cons, List.not_mem_nil, or_false] at hc
    rcases hc with hc | rfl | hc
    · have := hp.2.2 c hc b List.mem_cons_self
      have := honly c (by simp [hc]) hfit
      omega
    · cases hfit
    · have := hp.2.1.1 c hc
      have := honly c (by simp [hc]) hfit
      omega

/-- After first fit took `n` bytes nothing is left for `k` more: only one segment had room
for `k`, and it was too small to be split. -/
theorem allocate_then_none_iff (hh : 0 < h) (ht : Tiles h a bs e) {k : Nat} (hk : k ≤ n)
    (hslack : k ≤ slack) :
    (∃ p bs', allocate h slack n bs = some (p, bs') ∧ allocate h slack k bs' = none) ↔
      ∃ b ∈ bs, fits n b = true ∧ b.size < n + h + slack
        ∧ ∀ c ∈ bs, fits k c = true → c.addr = b.addr := by
  constructor
  · rintro ⟨p, bs', hal, hnone⟩
    obtain ⟨pre, b, post, rfl, -, hf, -, rfl⟩ := allocate_eq_some hal
    rw [allocate_eq_none] at hnone
    have hsmall : b.size < n + h + slack := by
      by_contra hge
      obtain ⟨c, hc, hfit⟩ := exists_fits_carve (n := n) hslack (Nat.le_of_not_lt hge)
      rw [hnone c (by simp [hc])] at hfit
      cases hfit
    exact ⟨b, by simp, hf, hsmall, (ht.carve_whole_none hh hsmall).mp hnone⟩
  · rintro ⟨b, hb, hf, hsmall, honly⟩
    cases hal : allocate h slack n bs with
    | none =>
        rw [allocate_eq_none.mp hal b hb] at hf
        cases hf
    | some r =>
        obtain ⟨pre, b₁, post, rfl, -, hf₁, -, hbs'⟩ := allocate_eq_some hal
        -- first fit takes the one segment with room
        obtain rfl : b₁ = b :=
          ht.eq_of_addr hh (by simp) hb (honly b₁ (by simp) (fits_of_le hk hf₁))
        refine ⟨r.1, r.2, rfl, allocate_eq_none.mpr ?_⟩
        rw [hbs']
        exact (ht.carve_whole_none hh hsmall).mpr honly

theorem usedBytes_carve_split (hf : fits n b = true) :
    usedBytes h (pre ++ (carve h slack n b ++ post)) =
      usedBytes h (pre ++ b :: post) + (h + carved h slack n b) := by
  have hbf : b.free = true := by
    simp only [fits, Bool.and_eq_true] at hf
    exact hf.1
  obtain ⟨rest, hrest, hused⟩ := carve_eq_cons h slack n b
  have hzero : usedBytes h rest = 0 := by simp [usedBytes, hused]
  rw [hrest, List.cons_append, usedBytes_append, usedBytes_append, usedBytes_cons,
    usedBytes_cons, usedBytes_append, hzero, if_pos hbf, if_neg (by simp)]
  simp only
  omega

theorem usedBytes_release (hh : 0 < h) (ht : Tiles h a (pre ++ b :: post) e)
    (hb : b.free = false) :
    usedBytes h (release h b.addr (pre ++ b :: post)) + (h + b.size) =
      usedBytes h (pre ++ b :: post) := by
  have hrel : usedBytes h (Tiling.release h b.addr (pre ++ b :: post)) =
      usedBytes h (pre ++ ⟨b.addr, b.size, true⟩ :: post) := by
    rw [Tiling.release, markFree_split hh ht, usedBytes, used_coalesce, usedBytes]
  rw [hrel, usedBytes_append, usedBytes_append, usedBytes_cons, usedBytes_cons, hb]
  simp only [Bool.false_eq_true, if_false, if_true]
  omega

end Canonical

end Tiling

end Matryoshka
