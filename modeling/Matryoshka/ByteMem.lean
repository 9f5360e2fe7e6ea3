import Mathlib.Algebra.Ring.Nat
import Mathlib.Data.Nat.Basic
import Mathlib.Tactic.Common

/-!
# Byte-addressed memory with little-endian words

A memory is one byte per address; a 32-bit word is the four bytes at an
address, least significant first. The lemmas are the two halves every
later argument uses: a word reads back as it was stored, and a store
changes nothing outside its own bytes. `fillUp` is the ascending byte
loop, `copyUp` copies between two arrays and `bytesAt` reads a range out;
`copied` is a memory with one range taken from another range of it, and
`ofWords` lays an array of words out from a base address.
-/

namespace Matryoshka

/-- One byte per address. -/
abbrev Mem := Nat → BitVec 8

namespace ByteMem

/-! ## Loads and stores -/

def store8 (m : Mem) (a : Nat) (v : BitVec 8) : Mem :=
  fun b => if b = a then v else m b

def load32 (m : Mem) (a : Nat) : BitVec 32 :=
  BitVec.ofNat 32 ((m a).toNat + 2 ^ 8 * (m (a + 1)).toNat
    + 2 ^ 16 * (m (a + 2)).toNat + 2 ^ 24 * (m (a + 3)).toNat)

def store32 (m : Mem) (a : Nat) (v : BitVec 32) : Mem :=
  fun b =>
    if b = a then BitVec.ofNat 8 v.toNat
    else if b = a + 1 then BitVec.ofNat 8 (v.toNat / 2 ^ 8)
    else if b = a + 2 then BitVec.ofNat 8 (v.toNat / 2 ^ 16)
    else if b = a + 3 then BitVec.ofNat 8 (v.toNat / 2 ^ 24)
    else m b

@[simp] theorem store8_self (m : Mem) (a : Nat) (v : BitVec 8) :
    store8 m a v a = v := by
  simp [store8]

theorem store8_of_ne {m : Mem} {a b : Nat} {v : BitVec 8} (h : b ≠ a) :
    store8 m a v b = m b := by
  simp [store8, h]

theorem store32_of_outside {m : Mem} {a b : Nat} {v : BitVec 32}
    (h : b < a ∨ a + 4 ≤ b) : store32 m a v b = m b := by
  have h0 : b ≠ a := by omega
  have h1 : b ≠ a + 1 := by omega
  have h2 : b ≠ a + 2 := by omega
  have h3 : b ≠ a + 3 := by omega
  simp [store32, h0, h1, h2, h3]

/-- A word depends on its own four bytes only. -/
theorem load32_congr {m m' : Mem} {a : Nat}
    (h : ∀ b, a ≤ b → b < a + 4 → m' b = m b) : load32 m' a = load32 m a := by
  simp only [load32]
  rw [h a (by omega) (by omega), h (a + 1) (by omega) (by omega),
    h (a + 2) (by omega) (by omega), h (a + 3) (by omega) (by omega)]

@[simp] theorem load32_store32_self (m : Mem) (a : Nat) (v : BitVec 32) :
    load32 (store32 m a v) a = v := by
  apply BitVec.eq_of_toNat_eq
  have hv := v.isLt
  simp [load32, store32]
  omega

theorem load32_store32_of_disjoint {m : Mem} {a b : Nat} {v : BitVec 32}
    (h : b + 4 ≤ a ∨ a + 4 ≤ b) : load32 (store32 m a v) b = load32 m b :=
  load32_congr fun c h1 h2 => store32_of_outside (by omega)

theorem load32_store8_of_outside {m : Mem} {a b : Nat} {v : BitVec 8}
    (h : a < b ∨ b + 4 ≤ a) : load32 (store8 m a v) b = load32 m b :=
  load32_congr fun c h1 h2 => store8_of_ne (by omega)

/-- A small word takes the value of its low byte. -/
theorem load32_store8_low {m : Mem} {a : Nat} (v : BitVec 8) (h : (load32 m a).toNat < 2 ^ 8) :
    load32 (store8 m a v) a = v.setWidth 32 := by
  have hv := v.isLt
  have h0 := (m a).isLt
  have h1 := (m (a + 1)).isLt
  have h2 := (m (a + 2)).isLt
  have h3 := (m (a + 3)).isLt
  rw [load32, BitVec.toNat_ofNat] at h
  apply BitVec.eq_of_toNat_eq
  rw [load32, store8_self, store8_of_ne (by omega), store8_of_ne (by omega),
    store8_of_ne (by omega), BitVec.toNat_ofNat, BitVec.toNat_setWidth]
  omega

/-- Two words, the lower half first. -/
def load64 (m : Mem) (a : Nat) : BitVec 64 := load32 m (a + 4) ++ load32 m a

/-! ## Byte loops -/

/-- `for i in 0..n: dst[i] = v`. -/
def fillUp (m : Mem) (dst : Nat) (v : BitVec 8) : Nat → Mem
  | 0 => m
  | n + 1 => store8 (fillUp m dst v n) (dst + n) v

theorem fillUp_of_outside {m : Mem} {dst : Nat} {v : BitVec 8} {b : Nat} :
    ∀ {n : Nat}, b < dst ∨ dst + n ≤ b → fillUp m dst v n b = m b
  | 0, _ => rfl
  | n + 1, h => by
      rw [fillUp, store8_of_ne (by omega), fillUp_of_outside (by omega)]

theorem fillUp_inside {m : Mem} {dst : Nat} {v : BitVec 8} {b : Nat} :
    ∀ {n : Nat}, dst ≤ b → b < dst + n → fillUp m dst v n b = v
  | 0, _, _ => by omega
  | n + 1, h1, h2 => by
      rw [fillUp]
      by_cases h : b = dst + n
      · rw [h, store8_self]
      · rw [store8_of_ne h, fillUp_inside h1 (by omega)]

theorem load32_fillUp_zero {m : Mem} {dst n a : Nat} (h1 : dst ≤ a) (h2 : a + 4 ≤ dst + n) :
    load32 (fillUp m dst 0#8 n) a = 0#32 := by
  rw [load32, fillUp_inside (by omega) (by omega), fillUp_inside (by omega) (by omega),
    fillUp_inside (by omega) (by omega), fillUp_inside (by omega) (by omega)]
  rfl

/-- `for i in 0..n: dst[d + i] = src[s + i]`, between two arrays. -/
def copyUp (dst : Mem) (d : Nat) (src : Mem) (s : Nat) : Nat → Mem
  | 0 => dst
  | n + 1 => store8 (copyUp dst d src s n) (d + n) (src (s + n))

theorem copyUp_apply (dst : Mem) (d : Nat) (src : Mem) (s b : Nat) :
    ∀ n, copyUp dst d src s n b = if d ≤ b ∧ b < d + n then src (s + (b - d)) else dst b
  | 0 => (if_neg (by omega)).symm
  | n + 1 => by
      rw [copyUp]
      by_cases h : b = d + n
      · rw [h, store8_self, if_pos (by omega), Nat.add_sub_cancel_left]
      · rw [store8_of_ne h, copyUp_apply dst d src s b n]
        exact if_congr (by omega) rfl rfl

/-- The `n` bytes from `a` on. -/
def bytesAt (m : Mem) (a n : Nat) : List (BitVec 8) := (List.range n).map fun i => m (a + i)

@[simp] theorem bytesAt_length (m : Mem) (a n : Nat) : (bytesAt m a n).length = n := by
  simp [bytesAt]

theorem bytesAt_getElem? (m : Mem) (a : Nat) {n i : Nat} (h : i < n) :
    (bytesAt m a n)[i]? = some (m (a + i)) := by
  simp [bytesAt, h]

theorem getD_bytesAt (m : Mem) (a : Nat) {n i : Nat} (h : i < n) (v : BitVec 8) :
    (bytesAt m a n).getD i v = m (a + i) := by
  rw [List.getD_eq_getElem?_getD, bytesAt_getElem? m a h, Option.getD_some]

theorem bytesAt_congr {m m' : Mem} {a n : Nat} (h : ∀ i < n, m (a + i) = m' (a + i)) :
    bytesAt m a n = bytesAt m' a n :=
  List.map_congr_left fun i hi => h i (List.mem_range.mp hi)

theorem bytesAt_add (m : Mem) (a n k : Nat) :
    bytesAt m a (n + k) = bytesAt m a n ++ bytesAt m (a + n) k := by
  simp only [bytesAt, List.range_add, List.map_append, List.map_map, Function.comp_def,
    Nat.add_assoc]

theorem bytesAt_succ (m : Mem) (a n : Nat) :
    bytesAt m a (n + 1) = bytesAt m a n ++ [m (a + n)] :=
  bytesAt_add m a n 1

theorem bytesAt_eq {m : Mem} {a : Nat} {l : List (BitVec 8)}
    (h : ∀ i < l.length, m (a + i) = l.getD i 0#8) : bytesAt m a l.length = l := by
  refine List.ext_getElem (bytesAt_length ..) fun i _ hi => ?_
  simpa [bytesAt, hi] using h i hi

/-! ## Intervals copied from a snapshot -/

/-- The memory `m` with `[dst + lo, dst + hi)` holding what `m` has from `src + lo` on. -/
def copied (m : Mem) (dst src lo hi : Nat) : Mem :=
  fun b => if dst + lo ≤ b ∧ b < dst + hi then m (src + (b - dst)) else m b

section Copied

variable {m : Mem} {dst src lo hi b : Nat}

theorem copied_of_outside (h : b < dst + lo ∨ dst + hi ≤ b) :
    copied m dst src lo hi b = m b :=
  if_neg (by omega)

theorem copied_inside {i : Nat} (hlo : lo ≤ i) (hhi : i < hi) :
    copied m dst src lo hi (dst + i) = m (src + i) := by
  rw [copied, if_pos (by omega), Nat.add_sub_cancel_left]

theorem copied_empty (m : Mem) (dst src k : Nat) : copied m dst src k k = m :=
  funext fun _ => copied_of_outside (by omega)

theorem store8_copied_above (h : lo ≤ hi) :
    store8 (copied m dst src lo hi) (dst + hi) (m (src + hi)) = copied m dst src lo (hi + 1) := by
  funext b
  by_cases hb : b = dst + hi
  · rw [hb, store8_self, copied_inside h (Nat.lt_succ_self hi)]
  · rw [store8_of_ne hb]
    exact if_congr (by omega) rfl rfl

theorem store8_copied_below (h : lo + 1 ≤ hi) :
    store8 (copied m dst src (lo + 1) hi) (dst + lo) (m (src + lo)) = copied m dst src lo hi := by
  funext b
  by_cases hb : b = dst + lo
  · rw [hb, store8_self, copied_inside (Nat.le_refl lo) h]
  · rw [store8_of_ne hb]
    exact if_congr (by omega) rfl rfl

end Copied

/-! ## Half words -/

def load16 (m : Mem) (a : Nat) : BitVec 16 :=
  BitVec.ofNat 16 ((m a).toNat + 2 ^ 8 * (m (a + 1)).toNat)

def store16 (m : Mem) (a : Nat) (v : BitVec 16) : Mem :=
  store8 (store8 m a (BitVec.ofNat 8 v.toNat)) (a + 1) (BitVec.ofNat 8 (v.toNat / 2 ^ 8))

theorem store16_of_outside {m : Mem} {a b : Nat} {v : BitVec 16} (h : b < a ∨ a + 2 ≤ b) :
    store16 m a v b = m b := by
  rw [store16, store8_of_ne (by omega), store8_of_ne (by omega)]

theorem store16_low (m : Mem) (a : Nat) (v : BitVec 16) :
    store16 m a v a = BitVec.ofNat 8 v.toNat := by
  rw [store16, store8_of_ne (by omega), store8_self]

theorem store16_high (m : Mem) (a : Nat) (v : BitVec 16) :
    store16 m a v (a + 1) = BitVec.ofNat 8 (v.toNat / 2 ^ 8) := by
  rw [store16, store8_self]

@[simp] theorem load16_store16_self (m : Mem) (a : Nat) (v : BitVec 16) :
    load16 (store16 m a v) a = v := by
  have hv := v.isLt
  apply BitVec.eq_of_toNat_eq
  rw [load16, store16_low, store16_high, BitVec.toNat_ofNat, BitVec.toNat_ofNat,
    BitVec.toNat_ofNat]
  omega

theorem load16_congr {m m' : Mem} {a : Nat} (h0 : m a = m' a) (h1 : m (a + 1) = m' (a + 1)) :
    load16 m a = load16 m' a := by
  rw [load16, load16, h0, h1]

theorem load16_store16_of_disjoint {m : Mem} {a b : Nat} {v : BitVec 16}
    (h : a + 2 ≤ b ∨ b + 2 ≤ a) : load16 (store16 m b v) a = load16 m a :=
  load16_congr (store16_of_outside (by omega)) (store16_of_outside (by omega))

theorem load16_store32_of_disjoint {m : Mem} {a b : Nat} {v : BitVec 32}
    (h : a + 2 ≤ b ∨ b + 4 ≤ a) : load16 (store32 m b v) a = load16 m a :=
  load16_congr (store32_of_outside (by omega)) (store32_of_outside (by omega))

/-- The lower half of a word. -/
theorem load16_store32_self (m : Mem) (a : Nat) (v : BitVec 32) :
    load16 (store32 m a v) a = v.setWidth 16 := by
  have hv := v.isLt
  have h0 : store32 m a v a = BitVec.ofNat 8 v.toNat := by simp [store32]
  have h1 : store32 m a v (a + 1) = BitVec.ofNat 8 (v.toNat / 2 ^ 8) := by simp [store32]
  apply BitVec.eq_of_toNat_eq
  rw [load16, h0, h1, BitVec.toNat_ofNat, BitVec.toNat_ofNat, BitVec.toNat_ofNat,
    BitVec.toNat_setWidth]
  omega

theorem load16_store8_of_outside {m : Mem} {a b : Nat} {v : BitVec 8}
    (h : b < a ∨ a + 2 ≤ b) : load16 (store8 m b v) a = load16 m a :=
  load16_congr (store8_of_ne (by omega)) (store8_of_ne (by omega))

/-! ## Two memories

The rules go backwards: after a write of the same values, two memories
agree on `P` if before it they agreed on the part of `P` not written. -/

def Agree (P : Nat → Prop) (m m' : Mem) : Prop := ∀ i, P i → m i = m' i

section Agree

variable {P : Nat → Prop} {m m' : Mem} {a : Nat}

theorem Agree.store8 {v : BitVec 8} (h : Agree (fun i => P i ∧ i ≠ a) m m') :
    Agree P (store8 m a v) (store8 m' a v) := by
  intro i hi
  by_cases ha : i = a
  · rw [ha, store8_self, store8_self]
  · rw [store8_of_ne ha, store8_of_ne ha, h i ⟨hi, ha⟩]

theorem Agree.store16 {v : BitVec 16} (h : Agree (fun i => P i ∧ ¬(a ≤ i ∧ i < a + 2)) m m') :
    Agree P (store16 m a v) (store16 m' a v) :=
  Agree.store8 (Agree.store8 fun i hi => h i ⟨hi.1.1, by omega⟩)

theorem Agree.copyUp {src src' : Mem} {s n : Nat}
    (h : Agree (fun i => P i ∧ ¬(a ≤ i ∧ i < a + n)) m m')
    (hsrc : ∀ k < n, src (s + k) = src' (s + k)) :
    Agree P (copyUp m a src s n) (copyUp m' a src' s n) := by
  intro i hi
  rw [copyUp_apply, copyUp_apply]
  by_cases ha : a ≤ i ∧ i < a + n
  · rw [if_pos ha, if_pos ha, hsrc _ (by omega)]
  · rw [if_neg ha, if_neg ha, h i ⟨hi, ha⟩]

end Agree

/-! ## Arrays of words -/

/-- The words `w` laid out from `base` upwards, over `m` below it. -/
def ofWords (base : Nat) (w : Nat → BitVec 32) (m : Mem) : Mem :=
  fun b =>
    if b < base then m b
    else BitVec.ofNat 8 ((w ((b - base) / 4)).toNat / 2 ^ (8 * ((b - base) % 4)))

theorem ofWords_byte {base i k : Nat} {w : Nat → BitVec 32} {m : Mem} (hk : k < 4) :
    ofWords base w m (base + 4 * i + k) = BitVec.ofNat 8 ((w i).toNat / 2 ^ (8 * k)) := by
  have hdiv : (base + 4 * i + k - base) / 4 = i := by omega
  have hmod : (base + 4 * i + k - base) % 4 = k := by omega
  rw [ofWords, if_neg (by omega), hdiv, hmod]

theorem load32_ofWords (base i : Nat) (w : Nat → BitVec 32) (m : Mem) :
    load32 (ofWords base w m) (base + 4 * i) = w i := by
  have h0 : ofWords base w m (base + 4 * i) = BitVec.ofNat 8 ((w i).toNat / 2 ^ (8 * 0)) :=
    ofWords_byte (k := 0) (by decide)
  apply BitVec.eq_of_toNat_eq
  have hlt := (w i).isLt
  rw [load32, h0, ofWords_byte (by decide), ofWords_byte (by decide), ofWords_byte (by decide)]
  simp only [BitVec.toNat_ofNat]
  omega

end ByteMem

end Matryoshka
