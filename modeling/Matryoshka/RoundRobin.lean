import Mathlib.Data.List.Nodup
import Mathlib.Tactic.Common

/-!
# Round-robin laps

A scheduler over the numbers below `N` that always picks the cyclically
next ready one. A lap is what happens between two picks of the same `t`:
the picks first climb above `t`, then wrap around and climb below it. Along
a lap nothing is picked twice, and at its end everything that stayed ready
until it was picked has been picked.
-/

namespace Matryoshka

namespace RoundRobin

/-- `y` is the first ready number cyclically after `c`. -/
def Next (N c : Nat) (ready : Nat → Prop) (y : Nat) : Prop :=
  ready y ∧ y < N ∧
    (c < y ∧ (∀ z, c < z → z < y → ¬ready z) ∨
      y < c ∧ (∀ z, c < z → z < N → ¬ready z) ∧ ∀ z, z < y → ¬ready z)

/-- The cyclic scan from `c + 1` visits every number below `N`. -/
theorem visits {N c z : Nat} (hc : c < N) (hz : z < N) :
    (c + 1 + (if c < z then z - c - 1 else N + z - c - 1)) % N = z := by
  split
  · rw [show c + 1 + (z - c - 1) = z by omega, Nat.mod_eq_of_lt hz]
  · rw [show c + 1 + (N + z - c - 1) = z + N by omega, Nat.add_mod_right, Nat.mod_eq_of_lt hz]

/-- A scan that stops at its first ready number has found the next one. -/
theorem Next.of_scan {N c j : Nat} {ready : Nat → Prop} (hc : c < N) (hj : j < N)
    (hready : ready ((c + 1 + j) % N)) (hself : ¬ready c)
    (hbefore : ∀ i, i < j → ¬ready ((c + 1 + i) % N)) : Next N c ready ((c + 1 + j) % N) := by
  have hskip : ∀ z, z < N → (if c < z then z - c - 1 else N + z - c - 1) < j → ¬ready z :=
    fun z hz hlt => visits hc hz ▸ hbefore _ hlt
  have hlt : (c + 1 + j) % N < N := Nat.mod_lt _ (by omega)
  refine ⟨hready, hlt, ?_⟩
  rcases Nat.lt_or_ge (c + 1 + j) N with h | h
  · rw [Nat.mod_eq_of_lt h]
    refine Or.inl ⟨by omega, fun z h1 h2 => hskip z (by omega) ?_⟩
    rw [if_pos h1]
    omega
  · have hmod : (c + 1 + j) % N = c + 1 + j - N := by
      rw [Nat.mod_eq_sub_mod h, Nat.mod_eq_of_lt (by omega)]
    have hne : c + 1 + j - N ≠ c := fun heq => hself (heq ▸ hmod ▸ hready)
    rw [hmod]
    refine Or.inr ⟨by omega, fun z h1 h2 => hskip z h2 ?_, fun z h1 => hskip z (by omega) ?_⟩
    · rw [if_pos h1]
      omega
    · rw [if_neg (by omega)]
      omega

/-- The lap from `t` has reached `c` through the picks `v`; `R` is what it has to visit. -/
structure Lap (t : Nat) (R : Nat → Prop) (v : List Nat) (c : Nat) : Prop where
  nodup : v.Nodup
  phase : (t ≤ c ∧ (∀ x ∈ v, t < x ∧ x ≤ c) ∧ ∀ u, R u → t < u → u ≤ c → u ∈ v) ∨
    (c < t ∧ (∀ x ∈ v, t < x ∨ x ≤ c) ∧ ∀ u, R u → t < u ∨ u ≤ c → u ∈ v)

section Lap

variable {N t c y : Nat} {R ready : Nat → Prop} {v : List Nat}

theorem Lap.start (t : Nat) (R : Nat → Prop) : Lap t R [] t :=
  ⟨List.nodup_nil, Or.inl ⟨Nat.le_refl t, by simp, fun u _ h1 h2 => by omega⟩⟩

theorem nodup_pick (h : v.Nodup) (hy : y ∉ v) : (v ++ [y]).Nodup := by
  rw [← List.concat_eq_append]
  exact h.concat hy

/-- A pick further up, still above `t`. -/
theorem Lap.climb_above (h : v.Nodup) (htc : t ≤ c) (hv : ∀ x ∈ v, t < x ∧ x ≤ c)
    (hR : ∀ u, R u → t < u → u ≤ c → u ∈ v) (hcy : c < y)
    (hskip : ∀ u, R u → c < u → u < y → u ∈ v) : Lap t R (v ++ [y]) y := by
  have hyv : y ∉ v := fun hmem => by
    have := hv y hmem
    omega
  refine ⟨nodup_pick h hyv, Or.inl ⟨by omega, List.forall_mem_append.mpr ⟨fun x hx => ?_, ?_⟩,
    fun u hu h1 h2 => List.mem_append.mpr ?_⟩⟩
  · have := hv x hx
    omega
  · simpa using Nat.lt_of_le_of_lt htc hcy
  · rcases Nat.lt_or_ge c u with hcu | huc
    · rcases Nat.lt_or_eq_of_le h2 with huy | rfl
      · exact Or.inl (hskip u hu hcu huy)
      · exact Or.inr (List.mem_singleton_self u)
    · exact Or.inl (hR u hu h1 huc)

/-- The pick wraps around, over everything left above `c` and below `y`. -/
theorem Lap.wrap (h : v.Nodup) (hv : ∀ x ∈ v, t < x ∧ x ≤ c)
    (hR : ∀ u, R u → t < u → u ≤ c → u ∈ v) (hyt : y < t) (hafter : ∀ u, R u → c < u → u ∈ v)
    (hbefore : ∀ u, R u → u < y → u ∈ v) : Lap t R (v ++ [y]) y := by
  have hyv : y ∉ v := fun hmem => by
    have := hv y hmem
    omega
  refine ⟨nodup_pick h hyv, Or.inr ⟨hyt, List.forall_mem_append.mpr ⟨fun x hx => ?_, ?_⟩,
    fun u hu hcase => List.mem_append.mpr ?_⟩⟩
  · exact Or.inl (hv x hx).1
  · simp
  · rcases hcase with htu | huy
    · rcases Nat.lt_or_ge c u with hcu | huc
      · exact Or.inl (hafter u hu hcu)
      · exact Or.inl (hR u hu htu huc)
    · rcases Nat.lt_or_eq_of_le huy with hlt | rfl
      · exact Or.inl (hbefore u hu hlt)
      · exact Or.inr (List.mem_singleton_self u)

/-- A pick further up, below `t` again. -/
theorem Lap.climb_below (h : v.Nodup) (hv : ∀ x ∈ v, t < x ∨ x ≤ c)
    (hR : ∀ u, R u → t < u ∨ u ≤ c → u ∈ v) (hcy : c < y) (hyt : y < t)
    (hskip : ∀ u, R u → c < u → u < y → u ∈ v) : Lap t R (v ++ [y]) y := by
  have hyv : y ∉ v := fun hmem => by
    have := hv y hmem
    omega
  refine ⟨nodup_pick h hyv, Or.inr ⟨hyt, List.forall_mem_append.mpr ⟨fun x hx => ?_, ?_⟩,
    fun u hu hcase => List.mem_append.mpr ?_⟩⟩
  · have := hv x hx
    omega
  · simp
  · rcases hcase with htu | huy
    · exact Or.inl (hR u hu (Or.inl htu))
    · rcases Nat.lt_or_ge c u with hcu | huc
      · rcases Nat.lt_or_eq_of_le huy with hlt | rfl
        · exact Or.inl (hskip u hu hcu hlt)
        · exact Or.inr (List.mem_singleton_self u)
      · exact Or.inl (hR u hu (Or.inr huc))

/-- A pick other than `t` extends the lap: everything skipped was not ready, so it was
either visited before or is not to be visited. -/
theorem Lap.pick (h : Lap t R v c) (hn : Next N c ready y) (hy : y ≠ t)
    (hpend : ∀ u, R u → u ∉ v → ready u ∧ u < N) (ht : c ≠ t → ready t) (htN : t < N) :
    Lap t R (v ++ [y]) y := by
  obtain ⟨-, -, hnext⟩ := hn
  have hskip : ∀ u, R u → (u < N → ¬ready u) → u ∈ v := fun u hu hnr => by
    by_contra hv
    exact hnr (hpend u hu hv).2 (hpend u hu hv).1
  rcases h.phase with ⟨htc, hv, hR⟩ | ⟨hct, hv, hR⟩
  · rcases hnext with ⟨hcy, hbetween⟩ | ⟨hyc, hafter, hbefore⟩
    · exact Lap.climb_above h.nodup htc hv hR hcy fun u hu h1 h2 =>
        hskip u hu fun _ => hbetween u h1 h2
    · -- the scan wraps around and stops at the latest at `t`
      have hyt : y < t := by
        by_contra hge
        rcases Nat.eq_or_lt_of_le htc with heq | hlt
        · omega
        · exact hbefore t (by omega) (ht (by omega))
      exact Lap.wrap h.nodup hv hR hyt (fun u hu h1 => hskip u hu fun huN => hafter u h1 huN)
        fun u hu h1 => hskip u hu fun _ => hbefore u h1
  · rcases hnext with ⟨hcy, hbetween⟩ | ⟨hyc, hafter, -⟩
    · -- `t` is ready, so the scan does not pass it
      have hyt : y < t := by
        by_contra hge
        exact hbetween t hct (by omega) (ht (by omega))
      exact Lap.climb_below h.nodup hv hR hcy hyt fun u hu h1 h2 =>
        hskip u hu fun _ => hbetween u h1 h2
    · exact absurd (ht (by omega)) (hafter t hct htN)

/-- When `t` is picked again the lap has visited everything. -/
theorem Lap.finish (h : Lap t R v c) (hn : Next N c ready t)
    (hpend : ∀ u, R u → u ∉ v → ready u ∧ u < N) {u : Nat} (hu : R u) (hut : u ≠ t) :
    u ∈ v := by
  obtain ⟨hready, htN, hnext⟩ := hn
  by_contra hv
  obtain ⟨hru, huN⟩ := hpend u hu hv
  rcases h.phase with ⟨htc, -, hR⟩ | ⟨hct, -, hR⟩
  · rcases hnext with ⟨hct, -⟩ | ⟨-, hafter, hbefore⟩
    · omega
    · rcases Nat.lt_or_ge u t with hlt | hge
      · exact hbefore u hlt hru
      · rcases Nat.lt_or_ge c u with hcu | huc
        · exact hafter u hcu huN hru
        · exact hv (hR u hu (by omega) huc)
  · rcases hnext with ⟨-, hbetween⟩ | ⟨htc, -⟩
    · rcases Nat.lt_or_ge c u with hcu | huc
      · rcases Nat.lt_or_ge u t with hlt | hge
        · exact hbetween u hcu hlt hru
        · exact hv (hR u hu (Or.inl (by omega)))
      · exact hv (hR u hu (Or.inr huc))
    · omega

end Lap

end RoundRobin

end Matryoshka
