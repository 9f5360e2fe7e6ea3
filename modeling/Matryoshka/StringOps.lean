import Matryoshka.ByteMem
import Matryoshka.Word

/-!
# Memory and string routines (`kernel/string.c`)

`memset`, `memcpy`, `memmove` and `strncpy` over one memory, with the moving
32-bit pointers of their loops. Both copy loops extend an interval of the
destination that holds the source as it was before the call (`copied`): the
ascending one upwards from its start, the descending one downwards from its
end. What has to be shown is that the byte read next is still outside the
interval.

`strncpy` reuses the ascending loop up to the NUL. The NUL it copies is not
counted, so the padding writes one byte too many.
-/

namespace Matryoshka

open ByteMem

/-! ## The routines -/

/-- A pointer after `p++`. -/
def ptrNext (p : Nat) : Nat := u32 (p + 1)

/-- A pointer after `--p`. -/
def ptrPrev (p : Nat) : Nat := u32 (p + 2 ^ 32 - 1)

/-- `while (n--) *p++ = v`. -/
def setAscending (m : Mem) (p : Nat) (v : BitVec 8) : Nat → Mem
  | 0 => m
  | n + 1 => setAscending (store8 m p v) (ptrNext p) v n

/-- `while (n--) *d++ = *s++`. -/
def copyAscending (m : Mem) (d s : Nat) : Nat → Mem
  | 0 => m
  | n + 1 => copyAscending (store8 m d (m s)) (ptrNext d) (ptrNext s) n

/-- `while (n--) *--d = *--s`. -/
def copyDescending (m : Mem) (d s : Nat) : Nat → Mem
  | 0 => m
  | n + 1 =>
      copyDescending (store8 m (ptrPrev d) (m (ptrPrev s))) (ptrPrev d) (ptrPrev s) n

/-- The pointer returned and the memory left. -/
def memset (m : Mem) (s : Nat) (c : BitVec 32) (n : Nat) : Nat × Mem :=
  (s, setAscending m s (c.setWidth 8) n)

def memcpy (m : Mem) (dst src n : Nat) : Nat × Mem :=
  (dst, copyAscending m dst src n)

def memmove (m : Mem) (dst src n : Nat) : Nat × Mem :=
  if dst < src then (dst, copyAscending m dst src n)
  else (dst, copyDescending m (u32 (dst + n)) (u32 (src + n)) n)

/-- `while (n && (*d++ = *src++)) n--`: the memory, `d` and `n` when it ends. -/
def strncpyCopy (m : Mem) (d src : Nat) : Nat → Mem × Nat × Nat
  | 0 => (m, d, 0)
  | n + 1 =>
      -- the assignment is made before its value ends the loop
      if m src = 0#8 then (store8 m d (m src), ptrNext d, n + 1)
      else strncpyCopy (store8 m d (m src)) (ptrNext d) (ptrNext src) n

def strncpy (m : Mem) (dst src n : Nat) : Nat × Mem :=
  let (m, d, n) := strncpyCopy m dst src n
  (dst, setAscending m d 0#8 n)

/-! ## Pointers -/

theorem ptrNext_u32 (p : Nat) : ptrNext (u32 p) = u32 (p + 1) := by
  unfold ptrNext u32
  omega

theorem ptrPrev_u32 (p : Nat) : ptrPrev (u32 (p + 1)) = u32 p := by
  unfold ptrPrev u32
  omega

theorem u32_self {p n : Nat} (h : p + n ≤ 2 ^ 32) (hn : 0 < n) : u32 p = p :=
  u32_of_lt (by omega)

/-! ## Filling -/

theorem setAscending_succ (m : Mem) (v : BitVec 8) :
    ∀ n p, setAscending m (u32 p) v (n + 1)
      = store8 (setAscending m (u32 p) v n) (u32 (p + n)) v := by
  intro n
  induction n generalizing m with
  | zero =>
      intro p
      rfl
  | succ n ih =>
      intro p
      rw [setAscending, ptrNext_u32, ih, setAscending, ptrNext_u32]
      congr 2
      omega

theorem setAscending_apply (m : Mem) (v : BitVec 8) (b : Nat) :
    ∀ {n p}, p + n ≤ 2 ^ 32 →
      setAscending m (u32 p) v n b = if p ≤ b ∧ b < p + n then v else m b := by
  intro n p h
  induction n with
  | zero => exact (if_neg (by omega)).symm
  | succ n ih =>
      rw [setAscending_succ, u32_of_lt (by omega : p + n < 2 ^ 32)]
      by_cases hb : b = p + n
      · rw [hb, store8_self, if_pos (by omega)]
      · rw [store8_of_ne hb, ih (by omega)]
        exact if_congr (by omega) rfl rfl

theorem memset_apply (m : Mem) (c : BitVec 32) {s n : Nat} (hs : s < 2 ^ 32)
    (h : s + n ≤ 2 ^ 32) (b : Nat) :
    (memset m s c n).2 b = if s ≤ b ∧ b < s + n then c.setWidth 8 else m b := by
  have hset := setAscending_apply m (c.setWidth 8) b h
  rw [u32_of_lt hs] at hset
  exact hset

/-! ## Copying -/

section Copying

variable {m : Mem} {dst src : Nat}

theorem copyAscending_copied {n : Nat} (hd : dst + n ≤ 2 ^ 32) (hs : src + n ≤ 2 ^ 32)
    (h : dst ≤ src ∨ src + n ≤ dst) :
    ∀ j k, k + j = n →
      copyAscending (copied m dst src 0 k) (u32 (dst + k)) (u32 (src + k)) j
        = copied m dst src 0 n := by
  intro j
  induction j with
  | zero =>
      intro k hk
      rw [copyAscending, ← hk, Nat.add_zero]
  | succ j ih =>
      intro k hk
      have hread : copied m dst src 0 k (src + k) = m (src + k) := copied_of_outside (by omega)
      rw [copyAscending, ptrNext_u32, ptrNext_u32, u32_of_lt (by omega : dst + k < 2 ^ 32),
        u32_of_lt (by omega : src + k < 2 ^ 32), hread, store8_copied_above k.zero_le]
      exact ih (k + 1) (by omega)

theorem copyDescending_copied {n : Nat} (hd : dst + n ≤ 2 ^ 32) (hs : src + n ≤ 2 ^ 32)
    (h : src ≤ dst) :
    ∀ k ≤ n, copyDescending (copied m dst src k n) (u32 (dst + k)) (u32 (src + k)) k
      = copied m dst src 0 n := by
  intro k
  induction k with
  | zero =>
      intro _
      rfl
  | succ k ih =>
      intro hk
      have hread : copied m dst src (k + 1) n (src + k) = m (src + k) :=
        copied_of_outside (by omega)
      rw [copyDescending, ← Nat.add_assoc, ← Nat.add_assoc, ptrPrev_u32, ptrPrev_u32,
        u32_of_lt (by omega : dst + k < 2 ^ 32), u32_of_lt (by omega : src + k < 2 ^ 32),
        hread, store8_copied_below hk]
      have := ih (by omega)
      rwa [u32_of_lt (by omega : dst + k < 2 ^ 32), u32_of_lt (by omega : src + k < 2 ^ 32)]
        at this

/-- The ascending loop from its start, on ranges it may be used on. -/
theorem copyAscending_eq {n : Nat} (hd : dst + n ≤ 2 ^ 32) (hs : src + n ≤ 2 ^ 32)
    (h : dst ≤ src ∨ src + n ≤ dst) : copyAscending m dst src n = copied m dst src 0 n := by
  rcases Nat.eq_zero_or_pos n with rfl | hn
  · exact (copied_empty m dst src 0).symm
  · have hrun := copyAscending_copied (m := m) hd hs h n 0 n.zero_add
    rwa [copied_empty, Nat.add_zero, Nat.add_zero, u32_self hd hn, u32_self hs hn] at hrun

theorem memmove_eq {n : Nat} (hd : dst + n ≤ 2 ^ 32) (hs : src + n ≤ 2 ^ 32) :
    memmove m dst src n = (dst, copied m dst src 0 n) := by
  unfold memmove
  split
  case isTrue hlt => rw [copyAscending_eq hd hs (.inl (Nat.le_of_lt hlt))]
  case isFalse hge =>
      have hrun := copyDescending_copied (m := m) hd hs (Nat.le_of_not_lt hge) n (Nat.le_refl n)
      rw [copied_empty] at hrun
      rw [hrun]

theorem memcpy_eq {n : Nat} (hd : dst + n ≤ 2 ^ 32) (hs : src + n ≤ 2 ^ 32)
    (h : dst + n ≤ src ∨ src + n ≤ dst) :
    memcpy m dst src n = (dst, copied m dst src 0 n) := by
  rw [memcpy, copyAscending_eq hd hs (by omega)]

end Copying

/-- Every byte of the destination gets the source byte from before the call, whichever
way the ranges overlap, and no other byte changes. On disjoint ranges `memcpy` is the
same function. -/
theorem memmove_correct (m : Mem) {dst src n : Nat} (hd : dst + n ≤ 2 ^ 32)
    (hs : src + n ≤ 2 ^ 32) :
    (∀ i < n, (memmove m dst src n).2 (dst + i) = m (src + i))
      ∧ (∀ a, a < dst ∨ dst + n ≤ a → (memmove m dst src n).2 a = m a)
      ∧ (dst + n ≤ src ∨ src + n ≤ dst → memcpy m dst src n = memmove m dst src n) := by
  rw [memmove_eq hd hs]
  refine ⟨?_, ?_, ?_⟩
  · intro i hi
    exact copied_inside i.zero_le hi
  · intro a ha
    exact copied_of_outside ha
  · intro hdis
    exact memcpy_eq hd hs hdis

/-- The ranges overlap, the destination two bytes above the source. -/
theorem memmove_overlapping_up :
    (∀ i < 8, (memmove (BitVec.ofNat 8) 0x1002 0x1000 8).2 (0x1002 + i)
        = BitVec.ofNat 8 (0x1000 + i))
      ∧ ∀ a, a < 0x1002 ∨ 0x1002 + 8 ≤ a →
          (memmove (BitVec.ofNat 8) 0x1002 0x1000 8).2 a = BitVec.ofNat 8 a :=
  have hmove := @memmove_correct (BitVec.ofNat 8) 0x1002 0x1000 8 (by decide) (by decide)
  ⟨hmove.1, hmove.2.1⟩

/-! ## Bounded strings -/

/-- A string of `len` bytes and its NUL. -/
structure StrAt (m : Mem) (src len : Nat) : Prop where
  inside : src + len < 2 ^ 32
  nonzero : ∀ i < len, m (src + i) ≠ 0#8
  terminated : m (src + len) = 0#8

section Strncpy

variable {m : Mem} {dst src len n : Nat} (hs : StrAt m src len) (hd : dst + n ≤ 2 ^ 32)
  (h : dst + n ≤ src ∨ src + len < dst)

include hs hd h

/-- With `k` bytes copied the loop is about to read an untouched source byte. -/
theorem strncpyCopy_read {k : Nat} (hk : k < n) (hlen : k ≤ len) :
    u32 (dst + k) = dst + k ∧ u32 (src + k) = src + k
      ∧ copied m dst src 0 k (src + k) = m (src + k) := by
  have := hs.inside
  exact ⟨u32_of_lt (by omega), u32_of_lt (by omega), copied_of_outside (by omega)⟩

/-- Up to the NUL the loop counts down as it copies. -/
theorem strncpyCopy_run :
    ∀ k ≤ n, k ≤ len → strncpyCopy m (u32 dst) (u32 src) n
      = strncpyCopy (copied m dst src 0 k) (u32 (dst + k)) (u32 (src + k)) (n - k) := by
  intro k
  induction k with
  | zero =>
      intro _ _
      rw [copied_empty]
      rfl
  | succ k ih =>
      intro hk hlen
      obtain ⟨hdst, hsrc, hread⟩ := strncpyCopy_read hs hd h hk (Nat.le_of_succ_le hlen)
      obtain ⟨j, hj⟩ : ∃ j, n - k = j + 1 := ⟨n - k - 1, by omega⟩
      have hj' : n - (k + 1) = j := by omega
      rw [ih (by omega) (by omega), hj, hj', strncpyCopy, hdst, hsrc, hread,
        if_neg (hs.nonzero k hlen), store8_copied_above k.zero_le]
      rfl

theorem strncpy_short (hdst : dst < 2 ^ 32) (hn : n ≤ len) :
    (strncpy m dst src n).2 = copied m dst src 0 n := by
  have hsrc : src < 2 ^ 32 := Nat.lt_of_le_of_lt (Nat.le_add_right src len) hs.inside
  have hrun := strncpyCopy_run hs hd h n (Nat.le_refl n) hn
  rw [u32_of_lt hdst, u32_of_lt hsrc, Nat.sub_self, strncpyCopy] at hrun
  rw [strncpy, hrun]
  rfl

/-- The padding starts behind the NUL, with the count from before it. -/
theorem strncpy_long (hdst : dst < 2 ^ 32) (hn : len < n) :
    (strncpy m dst src n).2
      = setAscending (copied m dst src 0 (len + 1)) (u32 (dst + (len + 1))) 0#8 (n - len) := by
  have hsrc : src < 2 ^ 32 := Nat.lt_of_le_of_lt (Nat.le_add_right src len) hs.inside
  obtain ⟨hdlen, hslen, hread⟩ := strncpyCopy_read hs hd h hn (Nat.le_refl len)
  obtain ⟨j, hj⟩ : ∃ j, n - len = j + 1 := ⟨n - len - 1, by omega⟩
  have hrun := strncpyCopy_run hs hd h len (Nat.le_of_lt hn) (Nat.le_refl len)
  rw [u32_of_lt hdst, u32_of_lt hsrc, hj, strncpyCopy, hdlen, hslen, hread,
    if_pos hs.terminated, store8_copied_above len.zero_le] at hrun
  rw [strncpy, hrun, hj]
  rfl

/-- Every byte after the call, the NUL at index `n` last. -/
theorem strncpy_long_apply (hdst : dst < 2 ^ 32) (hn : len < n) (b : Nat) :
    (strncpy m dst src n).2 b
      = if b = u32 (dst + n) then 0#8
        else if dst + len < b ∧ b < dst + n then 0#8
        else copied m dst src 0 (len + 1) b := by
  obtain ⟨j, hj⟩ : ∃ j, n - len = j + 1 := ⟨n - len - 1, by omega⟩
  have hend : dst + (len + 1) + j = dst + n := by omega
  rw [strncpy_long hs hd h hdst hn, hj, setAscending_succ, hend, store8,
    setAscending_apply _ _ _ (by omega)]
  exact if_congr Iff.rfl rfl (if_congr (by omega) rfl rfl)

/-- The bytes below `n` are right, whatever the length of the string. -/
theorem strncpy_filled (hdst : dst < 2 ^ 32) (hn : n < 2 ^ 32) {i : Nat} (hi : i < n) :
    (strncpy m dst src n).2 (dst + i) = if i < len then m (src + i) else 0#8 := by
  by_cases hlen : n ≤ len
  · rw [strncpy_short hs hd h hdst hlen, copied_inside i.zero_le hi, if_pos (by omega)]
  · have hne : dst + i ≠ u32 (dst + n) := by
      unfold u32
      omega
    rw [strncpy_long_apply hs hd h hdst (by omega), if_neg hne]
    rcases Nat.lt_trichotomy i len with hlt | rfl | hgt
    · rw [if_neg (by omega), if_pos hlt, copied_inside i.zero_le (by omega)]
    · rw [if_neg (by omega), if_neg (Nat.lt_irrefl i), copied_inside i.zero_le (by omega),
        hs.terminated]
    · rw [if_pos (by omega), if_neg (by omega)]

end Strncpy

/-- The destination is filled as it should be. Nothing else changes exactly when the string
does not end below `n` or the byte at index `n` was zero already: the copied NUL is not
counted, and one zero too many follows it. -/
theorem strncpy_unchanged_iff (m : Mem) {dst src len n : Nat} (hs : StrAt m src len)
    (hdst : dst < 2 ^ 32) (hd : dst + n ≤ 2 ^ 32) (hn : n < 2 ^ 32)
    (h : dst + n ≤ src ∨ src + len < dst) :
    (∀ i < n, (strncpy m dst src n).2 (dst + i) = if i < len then m (src + i) else 0#8)
      ∧ ((∀ a, a < dst ∨ dst + n ≤ a → (strncpy m dst src n).2 a = m a)
        ↔ n ≤ len ∨ m (u32 (dst + n)) = 0#8) := by
  refine ⟨fun i hi => strncpy_filled hs hd h hdst hn hi, ?_⟩
  by_cases hlen : n ≤ len
  · refine ⟨fun _ => .inl hlen, fun _ a ha => ?_⟩
    rw [strncpy_short hs hd h hdst hlen, copied_of_outside ha]
  · have hout : u32 (dst + n) < dst ∨ dst + n ≤ u32 (dst + n) := by
      unfold u32
      omega
    constructor
    · intro hsame
      have hzero := hsame _ hout
      rw [strncpy_long_apply hs hd h hdst (by omega), if_pos rfl] at hzero
      exact .inr hzero.symm
    · intro hor a ha
      have hzero : m (u32 (dst + n)) = 0#8 := hor.resolve_left hlen
      rw [strncpy_long_apply hs hd h hdst (by omega)]
      split
      case isTrue heq => rw [heq, hzero]
      case isFalse => rw [if_neg (by omega), copied_of_outside (by omega)]

/-- `"hi"` at address 100, and no other zero byte than its NUL. -/
def hiMem : Mem := fun a =>
  if a = 100 then 0x68#8 else if a = 101 then 0x69#8 else if a = 102 then 0#8 else 0xFF#8

theorem hiMem_str : StrAt hiMem 100 2 := by
  refine ⟨by decide, ?_, rfl⟩
  decide

theorem strncpy_unchanged_hi_two :
    StrAt hiMem 100 2
      ∧ ∀ a, a < 8 ∨ 8 + 2 ≤ a → (strncpy hiMem 8 100 2).2 a = hiMem a :=
  ⟨hiMem_str, (strncpy_unchanged_iff hiMem hiMem_str (by decide) (by decide) (by decide)
    (by decide)).2.mpr (.inl (by decide))⟩

/-- `strncpy(buf, "hi", 8)` clears the byte behind the eight. -/
theorem strncpy_writes_past_end :
    StrAt hiMem 100 2 ∧ (8 + 8 ≤ 100 ∨ 100 + 2 < 8) ∧ hiMem 16 = 0xFF#8
      ∧ (strncpy hiMem 8 100 8).2 16 = 0#8 :=
  ⟨hiMem_str, by decide, rfl, by decide⟩

end Matryoshka
