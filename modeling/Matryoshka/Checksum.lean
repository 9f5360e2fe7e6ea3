import Matryoshka.ByteMem
import Matryoshka.Word

/-!
# The 16-bit one's complement checksum

The bytes are added as little-endian half words into a 32-bit sum, a last
odd byte as it is, and the carries are folded back into the low 16 bits.
The checksum of a range depends on the bytes of the range only, and it is
sensitive to every single one of them. Stored into a cleared half word of
the range it makes the one's complement sum of the range `0xFFFF`, in
network byte order as in the order of the machine, and the checksum of the
range zero.
-/

namespace Matryoshka

open ByteMem

namespace Checksum

/-! ## The sum -/

/-- `while (len > 1) { sum += *p++; len -= 2; } if (len) sum += *(uint8_t *)p;` -/
def addWords (m : Mem) : (a len sum : Nat) → Nat
  | _, 0, sum => sum
  | a, 1, sum => u32 (sum + (m a).toNat)
  | a, len + 2, sum => addWords m (a + 2) len (u32 (sum + (load16 m a).toNat))

/-- The sum without the 32-bit reduction. -/
def total (m : Mem) : (a len : Nat) → Nat
  | _, 0 => 0
  | a, 1 => (m a).toNat
  | a, len + 2 => (m a).toNat + 256 * (m (a + 1)).toNat + total m (a + 2) len

theorem load16_toNat (m : Mem) (a : Nat) :
    (load16 m a).toNat = (m a).toNat + 256 * (m (a + 1)).toNat := by
  have h0 := (m a).isLt
  have h1 := (m (a + 1)).isLt
  rw [load16, BitVec.toNat_ofNat]
  omega

theorem addWords_eq (m : Mem) :
    ∀ (a len sum : Nat), sum < 2 ^ 32 → addWords m a len sum = u32 (sum + total m a len)
  | _, 0, _, h => (u32_of_lt h).symm
  | _, 1, _, _ => rfl
  | a, len + 2, sum, _ => by
      have hlt : u32 (sum + (load16 m a).toNat) < 2 ^ 32 := Nat.mod_lt _ (by decide)
      rw [addWords, addWords_eq m (a + 2) len _ hlt, load16_toNat, total]
      unfold u32
      omega

theorem total_le (m : Mem) : ∀ a len, total m a len ≤ 0x8000 * (len + 1)
  | _, 0 => Nat.zero_le _
  | a, 1 => by
      have := (m a).isLt
      rw [total]
      omega
  | a, len + 2 => by
      have h0 := (m a).isLt
      have h1 := (m (a + 1)).isLt
      have h2 := total_le m (a + 2) len
      rw [total]
      omega

/-- No addition of the loop goes beyond 32 bits. -/
def NoOverflow (m : Mem) : (a len sum : Nat) → Prop
  | _, 0, _ => True
  | a, 1, sum => sum + (m a).toNat < 2 ^ 32
  | a, len + 2, sum =>
      sum + (load16 m a).toNat < 2 ^ 32
        ∧ NoOverflow m (a + 2) len (u32 (sum + (load16 m a).toNat))

theorem noOverflow_of_lt (m : Mem) :
    ∀ {a len sum : Nat}, sum + total m a len < 2 ^ 32 → NoOverflow m a len sum
  | _, 0, _, _ => trivial
  | _, 1, _, h => h
  | a, len + 2, sum, h => by
      rw [total] at h
      have hadd : sum + (load16 m a).toNat < 2 ^ 32 := by
        rw [load16_toNat]
        omega
      refine ⟨hadd, noOverflow_of_lt m ?_⟩
      rw [u32_of_lt hadd, load16_toNat]
      omega

theorem total_congr {m m' : Mem} :
    ∀ {a len : Nat}, (∀ i, a ≤ i → i < a + len → m i = m' i) → total m a len = total m' a len
  | _, 0, _ => rfl
  | a, 1, h => by rw [total, total, h a (by omega) (by omega)]
  | a, len + 2, h => by
      rw [total, total, h a (by omega) (by omega), h (a + 1) (by omega) (by omega),
        total_congr fun i h1 h2 => h i (by omega) (by omega)]

theorem total_pos {m : Mem} {i : Nat} (hi : m i ≠ 0#8) :
    ∀ {a len : Nat}, a ≤ i → i < a + len → 0 < total m a len := by
  have hpos : 0 < (m i).toNat := by
    rcases Nat.eq_zero_or_pos (m i).toNat with h | h
    · exact absurd (BitVec.eq_of_toNat_eq h) hi
    · exact h
  intro a len
  induction len using Nat.twoStepInduction generalizing a with
  | zero => omega
  | one =>
      intro h1 h2
      obtain rfl : i = a := by omega
      exact hpos
  | more len ih _ =>
      intro h1 h2
      rw [total]
      by_cases h0 : i = a
      · rw [← h0]
        omega
      · by_cases h3 : i = a + 1
        · rw [← h3]
          omega
        · have := @ih (a + 2) (by omega) (by omega)
          omega

/-- The weight of a byte in the sum. -/
def weight (a q : Nat) : Nat := if (q - a) % 2 = 0 then 1 else 256

/-- Raising byte `q` from 0 to 1 adds its weight. -/
theorem total_bump {m m' : Mem} {q : Nat} (hq : m q = 0#8) (hq' : m' q = 1#8)
    (hne : ∀ i, i ≠ q → m i = m' i) :
    ∀ {a len : Nat}, a ≤ q → q < a + len → total m' a len = total m a len + weight a q
  | a, 0, h1, h2 => by omega
  | a, 1, h1, h2 => by
      obtain rfl : q = a := by omega
      rw [total, total, hq, hq', weight, if_pos (by omega)]
      rfl
  | a, len + 2, h1, h2 => by
      have htail : q < a + 2 → total m' (a + 2) len = total m (a + 2) len := fun hlt =>
        total_congr fun i hi _ => (hne i (by omega)).symm
      rw [total, total]
      by_cases h0 : q = a
      · subst h0
        rw [htail (by omega), ← hne (q + 1) (by omega), hq, hq', weight, if_pos (by omega)]
        simp only [BitVec.toNat_ofNat]
        omega
      · by_cases h3 : q = a + 1
        · subst h3
          rw [htail (by omega), ← hne a (by omega), hq, hq', weight, if_neg (by omega)]
          simp only [BitVec.toNat_ofNat]
          omega
        · have hw : weight (a + 2) q = weight a q := if_congr (by omega) rfl rfl
          rw [← hne a (Ne.symm h0), ← hne (a + 1) (Ne.symm h3),
            total_bump hq hq' hne (by omega) (by omega), hw]
          omega

/-! ## Folding -/

/-- `while (sum >> 16) sum = (sum & 0xFFFF) + (sum >> 16);`, at most `n` times. -/
def foldCarries : (n sum : Nat) → Nat
  | 0, sum => sum
  | n + 1, sum => if sum / 0x10000 = 0 then sum else foldCarries n (sum % 0x10000 + sum / 0x10000)

/-- Folding takes the representative of the sum modulo `2 ^ 16 - 1`. -/
theorem foldCarries_eq {sum : Nat} (h : sum < 2 ^ 32) (h0 : 0 < sum) :
    foldCarries 2 sum = (sum - 1) % 0xFFFF + 1 := by
  simp only [foldCarries]
  split
  · omega
  · split <;> omega

/-- Two rounds are enough: the loop condition fails behind them. -/
theorem foldCarries_done {sum : Nat} (h : sum < 2 ^ 32) : foldCarries 2 sum / 0x10000 = 0 := by
  rcases Nat.eq_zero_or_pos sum with rfl | h0
  · rfl
  · rw [foldCarries_eq h h0]
    omega

/-! ## The checksum -/

def checksum (m : Mem) (a len : Nat) : BitVec 16 :=
  ~~~(BitVec.ofNat 16 (foldCarries 2 (addWords m a len 0)))

theorem checksum_congr {m m' : Mem} {a len : Nat} (h : ∀ i, a ≤ i → i < a + len → m i = m' i) :
    checksum m a len = checksum m' a len := by
  rw [checksum, checksum, addWords_eq _ _ _ _ (by decide), addWords_eq _ _ _ _ (by decide),
    total_congr h]

theorem checksum_toNat {m : Mem} {a len : Nat} (hlen : len ≤ 0x10000) (h0 : 0 < total m a len) :
    (checksum m a len).toNat = 0xFFFE - (total m a len - 1) % 0xFFFF := by
  have hle := total_le m a len
  have hlt : total m a len < 2 ^ 32 := by omega
  rw [checksum, addWords_eq _ _ _ _ (by decide), Nat.zero_add, u32_of_lt hlt,
    foldCarries_eq hlt h0, BitVec.toNat_not, BitVec.toNat_ofNat]
  omega

section Bump

variable {m m' : Mem} {q a len : Nat}

/-- Raising an even byte changes the low byte of the checksum. -/
theorem checksum_bump_low (hlen : len ≤ 0x10000) (h0 : 0 < total m a len) (hq : m q = 0#8)
    (hq' : m' q = 1#8) (hne : ∀ i, i ≠ q → m i = m' i) (hlo : a ≤ q) (hhi : q < a + len)
    (heven : (q - a) % 2 = 0) :
    BitVec.ofNat 8 (checksum m a len).toNat ≠ BitVec.ofNat 8 (checksum m' a len).toNat := by
  have hbump := total_bump hq hq' hne hlo hhi
  rw [weight, if_pos heven] at hbump
  intro h
  have := congrArg BitVec.toNat h
  rw [checksum_toNat hlen h0, checksum_toNat hlen (by omega), hbump, BitVec.toNat_ofNat,
    BitVec.toNat_ofNat] at this
  omega

/-- Raising an odd byte changes the high byte of the checksum. -/
theorem checksum_bump_high (hlen : len ≤ 0x10000) (h0 : 0 < total m a len) (hq : m q = 0#8)
    (hq' : m' q = 1#8) (hne : ∀ i, i ≠ q → m i = m' i) (hlo : a ≤ q) (hhi : q < a + len)
    (hodd : (q - a) % 2 ≠ 0) :
    BitVec.ofNat 8 ((checksum m a len).toNat / 2 ^ 8)
      ≠ BitVec.ofNat 8 ((checksum m' a len).toNat / 2 ^ 8) := by
  have hbump := total_bump hq hq' hne hlo hhi
  rw [weight, if_neg hodd] at hbump
  intro h
  have := congrArg BitVec.toNat h
  rw [checksum_toNat hlen h0, checksum_toNat hlen (by omega), hbump, BitVec.toNat_ofNat,
    BitVec.toNat_ofNat] at this
  -- the representative rises by 256, or falls by 0xFFFF - 256
  have hmod : (total m a len + 256 - 1) % 0xFFFF = (total m a len - 1) % 0xFFFF + 256
      ∨ (total m a len + 256 - 1) % 0xFFFF + 0xFFFF = (total m a len - 1) % 0xFFFF + 256 := by
    omega
  have hx : (total m a len - 1) % 0xFFFF < 0xFFFF := Nat.mod_lt _ (by decide)
  have hy : (total m a len + 256 - 1) % 0xFFFF < 0xFFFF := Nat.mod_lt _ (by decide)
  generalize (total m a len - 1) % 0xFFFF = x at *
  generalize (total m a len + 256 - 1) % 0xFFFF = y at *
  simp only [Nat.reducePow] at this
  omega

end Bump

/-! ## Network order

The two byte orders weigh the bytes of a half word differently. Modulo
`2 ^ 16 - 1` swapping them multiplies a sum by 256, so that a sum is a
multiple of `2 ^ 16 - 1` in both orders or in none. -/

/-- Addition of half words with the carry added back. -/
def onesAdd (x y : Nat) : Nat := if x + y ≤ 0xFFFF then x + y else x + y - 0xFFFF

/-- The one's complement sum of the bytes as big-endian half words, a last odd byte
padded with zero. -/
def onesSum (m : Mem) : (a len : Nat) → Nat
  | _, 0 => 0
  | a, 1 => 256 * (m a).toNat
  | a, len + 2 => onesAdd (256 * (m a).toNat + (m (a + 1)).toNat) (onesSum m (a + 2) len)

theorem onesSum_congr {m m' : Mem} :
    ∀ {a len : Nat}, (∀ i, a ≤ i → i < a + len → m i = m' i) → onesSum m a len = onesSum m' a len
  | _, 0, _ => rfl
  | a, 1, h => by rw [onesSum, onesSum, h a (by omega) (by omega)]
  | a, len + 2, h => by
      rw [onesSum, onesSum, h a (by omega) (by omega), h (a + 1) (by omega) (by omega),
        onesSum_congr fun i h1 h2 => h i (by omega) (by omega)]

theorem onesSum_le (m : Mem) : ∀ a len, onesSum m a len ≤ 0xFFFF
  | _, 0 => Nat.zero_le _
  | a, 1 => by
      have := (m a).isLt
      rw [onesSum]
      omega
  | a, len + 2 => by
      have h0 := (m a).isLt
      have h1 := (m (a + 1)).isLt
      have h2 := onesSum_le m (a + 2) len
      rw [onesSum, onesAdd]
      split <;> omega

theorem onesAdd_mod (x y : Nat) : onesAdd x y % 0xFFFF = (x + y) % 0xFFFF := by
  unfold onesAdd
  split <;> omega

theorem onesSum_mod (m : Mem) : ∀ a len, onesSum m a len % 0xFFFF = 256 * total m a len % 0xFFFF
  | _, 0 => rfl
  | _, 1 => rfl
  | a, len + 2 => by
      have ih := onesSum_mod m (a + 2) len
      rw [onesSum, onesAdd_mod, total]
      omega

/-- A sum does not fall back to zero once a byte is set. -/
theorem onesSum_eq_zero {m : Mem} : ∀ {a len : Nat}, onesSum m a len = 0 → total m a len = 0
  | _, 0, _ => rfl
  | _, 1, h => by
      rw [onesSum] at h
      rw [total]
      omega
  | a, len + 2, h => by
      rw [onesSum, onesAdd] at h
      split at h
      · have ih : total m (a + 2) len = 0 := onesSum_eq_zero (by omega)
        rw [total, ih]
        omega
      · omega

theorem onesSum_full {m : Mem} {a len : Nat} (hmod : total m a len % 0xFFFF = 0)
    (hpos : 0 < total m a len) : onesSum m a len = 0xFFFF := by
  have hle := onesSum_le m a len
  have hne : onesSum m a len ≠ 0 := fun h => absurd (onesSum_eq_zero h) (by omega)
  have hswap := onesSum_mod m a len
  omega

/-! ## Sealing -/

/-- Storing a half word into a cleared one adds it to the sum. -/
theorem total_store16 {m : Mem} {p : Nat} {v : BitVec 16} (h0 : m p = 0#8)
    (h1 : m (p + 1) = 0#8) :
    ∀ {a len : Nat}, a ≤ p → (p - a) % 2 = 0 → p + 2 ≤ a + len →
      total (store16 m p v) a len = total m a len + v.toNat
  | a, 0, hlo, _, hhi => by omega
  | a, 1, hlo, _, hhi => by omega
  | a, len + 2, hlo, heven, hhi => by
      rw [total, total]
      by_cases hp : p = a
      · subst hp
        have htail : total (store16 m p v) (p + 2) len = total m (p + 2) len :=
          total_congr fun i hi _ => store16_of_outside (by omega)
        have hv := v.isLt
        rw [htail, store16_low, store16_high, h0, h1]
        simp only [BitVec.toNat_ofNat]
        omega
      · rw [store16_of_outside (by omega), store16_of_outside (by omega),
          total_store16 h0 h1 (by omega) (by omega) (by omega)]
        omega

/-- The checksum completes the sum to a positive multiple of `2 ^ 16 - 1`. -/
theorem total_add_checksum (m : Mem) (a : Nat) {len : Nat} (hlen : len ≤ 0x10000) :
    (total m a len + (checksum m a len).toNat) % 0xFFFF = 0
      ∧ 0 < total m a len + (checksum m a len).toNat := by
  rcases Nat.eq_zero_or_pos (total m a len) with h0 | hpos
  · have hsum : checksum m a len = 0xFFFF#16 := by
      rw [checksum, addWords_eq _ _ _ _ (by decide), h0]
      rfl
    rw [h0, hsum]
    decide
  · rw [checksum_toNat hlen hpos]
    omega

/-- With its checksum stored into a cleared half word, a range sums up to `0xFFFF`. -/
theorem onesSum_sealed {m : Mem} {p a len : Nat} (h0 : m p = 0#8) (h1 : m (p + 1) = 0#8)
    (hlo : a ≤ p) (heven : (p - a) % 2 = 0) (hhi : p + 2 ≤ a + len) (hlen : len ≤ 0x10000) :
    onesSum (store16 m p (checksum m a len)) a len = 0xFFFF := by
  obtain ⟨hmod, hpos⟩ := total_add_checksum m a hlen
  rw [← total_store16 h0 h1 hlo heven hhi] at hmod hpos
  exact onesSum_full hmod hpos

/-- And its own checksum is then zero. -/
theorem checksum_sealed {m : Mem} {p a len : Nat} (h0 : m p = 0#8) (h1 : m (p + 1) = 0#8)
    (hlo : a ≤ p) (heven : (p - a) % 2 = 0) (hhi : p + 2 ≤ a + len) (hlen : len ≤ 0x10000) :
    checksum (store16 m p (checksum m a len)) a len = 0#16 := by
  obtain ⟨hmod, hpos⟩ := total_add_checksum m a hlen
  rw [← total_store16 h0 h1 hlo heven hhi] at hmod hpos
  apply BitVec.eq_of_toNat_eq
  rw [checksum_toNat hlen hpos, BitVec.toNat_ofNat]
  omega

end Checksum

end Matryoshka
