import Matryoshka.FsStream

/-!
# How far a write reaches

`ramfs_write` computes the end of the write in 32 bits and lets
`ensure_capacity` double the buffer, again in 32 bits, until the end fits.
Both computations can wrap. The end then looks small although the copy is
not, and the loop arrives at zero and stays there. `write_in_buffer_iff`
and `file_growth_ends_iff` say exactly when; below 2 GiB neither happens,
and a write is an overlay (`write_is_overlay`).
-/

namespace Matryoshka

open ByteMem

/-! ## The doubling loop -/

/-- Where `ensure_capacity` starts doubling. -/
def firstCapacity (capacity : Nat) : Nat := if capacity ≠ 0 then capacity else 64

/-- What 64 bytes can be doubled to, and the zero they end up in. -/
def Doubled (c : Nat) : Prop := c = 0 ∨ ∃ k, c = 2 ^ (k + 6)

/-- The buffer sizes of a file system. -/
def Capacities (s : Ramfs) : Prop :=
  ∀ n < s.count, ∀ f, (s.nodes n).fsData = some f → Doubled f.capacity

section Growth

variable {needed cap fuel : Nat} {f f' : RamfsFile} {blk : Option Mem}

theorem Doubled.double (h : Doubled cap) : Doubled (u32 (cap * 2)) := by
  rcases h with rfl | ⟨k, rfl⟩
  · exact Or.inl rfl
  · rw [← Nat.pow_succ, u32]
    rcases Nat.lt_or_ge (k + 7) 32 with hlt | hge
    · exact Or.inr ⟨k + 1, Nat.mod_eq_of_lt (Nat.pow_lt_pow_right (by decide) hlt)⟩
    · exact Or.inl (Nat.mod_eq_zero_of_dvd (pow_dvd_pow 2 hge))

theorem Doubled.first (h : Doubled cap) : Doubled (firstCapacity cap) := by
  unfold firstCapacity
  split
  · exact h
  · exact Or.inr ⟨0, rfl⟩

theorem Doubled.le_half (h : Doubled cap) (hlt : cap < 2 ^ 32) : cap ≤ 2 ^ 31 := by
  rcases h with rfl | ⟨k, rfl⟩
  · exact Nat.zero_le _
  · have hk : k + 6 < 32 := (Nat.pow_lt_pow_iff_right (by decide)).mp hlt
    exact Nat.pow_le_pow_right (by decide) (by omega)

theorem growCapacity_doubled :
    ∀ {fuel cap c : Nat}, Doubled cap → growCapacity needed fuel cap = some c → Doubled c
  | fuel + 1, cap, c, h, hc => by
      rw [growCapacity] at hc
      split at hc
      · exact growCapacity_doubled h.double hc
      · cases hc
        exact h

/-- No doubled size is more than half of the 32-bit range, so the loop never stops. -/
theorem growCapacity_never (hneed : 2 ^ 31 < needed) :
    ∀ (fuel : Nat) {cap : Nat}, Doubled cap → cap < 2 ^ 32 → growCapacity needed fuel cap = none
  | 0, _, _, _ => rfl
  | fuel + 1, cap, h, hlt => by
      have hle := h.le_half hlt
      rw [growCapacity, if_pos (by omega)]
      exact growCapacity_never hneed fuel h.double (Nat.mod_lt _ (by decide))

theorem firstCapacity_bounds (hcap : cap ≤ HEAP_INITIAL) (hd : Doubled cap) :
    64 ≤ firstCapacity cap ∧ firstCapacity cap < 2 ^ 32 := by
  rw [heapInitial_eq] at hcap
  unfold firstCapacity
  split
  · next hne =>
      obtain ⟨k, rfl⟩ := hd.resolve_left hne
      exact ⟨Nat.pow_le_pow_right (n := 2) (by decide) (show 6 ≤ k + 6 by omega), by omega⟩
  · decide

/-- From 64 on, twenty-five doublings are enough for anything up to 2 GiB. -/
theorem growCapacity_first (hcap : cap ≤ HEAP_INITIAL) (hd : Doubled cap)
    (hneed : needed ≤ 2 ^ 31) : ∃ c, growCapacity needed 33 (firstCapacity cap) = some c := by
  have hle := (firstCapacity_bounds hcap hd).1
  have hfits : needed ≤ firstCapacity cap * 2 ^ 32 := by omega
  obtain ⟨c, hc, -⟩ := growCapacity_exists hneed hfits
  exact ⟨c, hc⟩

theorem ensureCapacity_doubled {b : Bool} (h : Doubled f.capacity)
    (hcap : ensureCapacity f blk needed = some (b, f')) : Doubled f'.capacity := by
  rw [ensureCapacity] at hcap
  split at hcap
  · cases hcap
    exact h
  · split at hcap
    · cases hcap
    · next newCap hgrow =>
        split at hcap
        · cases hcap
          exact h
        · cases hcap
          exact growCapacity_doubled h.first hgrow

/-- `ensure_capacity` does not return exactly when more than 2 GiB are asked for. -/
theorem ensureCapacity_none_iff (hcap : f.capacity ≤ HEAP_INITIAL) (hd : Doubled f.capacity) :
    ensureCapacity f blk needed = none ↔ 2 ^ 31 < needed := by
  rw [heapInitial_eq] at hcap
  rw [ensureCapacity, show (if f.capacity ≠ 0 then f.capacity else 64) = firstCapacity f.capacity
    from rfl]
  constructor
  · intro hnone
    by_contra hle
    obtain ⟨c, hc⟩ := growCapacity_first hcap hd (Nat.le_of_not_lt hle)
    rw [hc] at hnone
    split at hnone
    · cases hnone
    · dsimp only at hnone
      split at hnone
      · cases hnone
      · cases hnone
  · intro hlt
    rw [if_neg (by omega),
      growCapacity_never hlt 33 hd.first (firstCapacity_bounds hcap hd).2]

end Growth

/-! ## Buffer sizes in every run -/

section Capacities

variable {s s' : Ramfs} {v : Vfs} {n off : Nat}

theorem SameFiles.capacities (hs : SameFiles s s') (h : Capacities s) : Capacities s' := by
  intro n hn f hf
  by_cases hold : n < s.count
  · exact h n hold f ((hs.old n hold).2 ▸ hf)
  · rcases (hs.new n (by omega) hn).2 with hnone | hnew
    · rw [hnone] at hf
      cases hf
    · rw [hnew] at hf
      cases hf
      exact Or.inl rfl

/-- A node is replaced by one whose buffer, if any, has a doubled size. -/
theorem Capacities.setNode (h : Capacities s) {node : VfsNode}
    (hnode : n < s.count → ∀ f, node.fsData = some f → Doubled f.capacity) :
    Capacities (s.setNode n node) := by
  intro m hm f hf
  by_cases hmn : m = n
  · subst hmn
    rw [setNode_self] at hf
    exact hnode hm f hf
  · rw [setNode_of_ne hmn] at hf
    exact h m hm f hf

theorem ramfsWrite_capacities {data : List (BitVec 8)} {blk : Option Mem} {r : Int}
    (hw : ramfsWrite s n off data blk = some (r, s')) (h : Capacities s) : Capacities s' := by
  obtain ⟨-, rfl⟩ | ⟨f, f₁, -, hf, hcap, -, rfl⟩ := ramfsWrite_inv hw
  · exact h
  · refine h.setNode fun hn g hg => ?_
    cases hg
    show Doubled f₁.capacity
    exact ensureCapacity_doubled (h n hn f hf) hcap

theorem capacities_rule : FsRule (fun _ _ => True) Capacities where
  create _ _ hc h := (hc.sameFiles (newPayload_cases ..)).capacities h
  truncate n h := h.setNode fun hn f hf => h n hn f hf
  write hw h := ramfsWrite_capacities hw h

theorem VfsReachable.capacities (h : VfsReachable v) : Capacities v.fs := by
  obtain ⟨log, v₀, ⟨b, hb⟩, hs⟩ := h
  have hboot : Capacities v₀.fs :=
    capacities_rule.booted (fun n hn => absurd hn (Nat.not_lt_zero n)) (fun hs n hn f hf => by
      rw [allocNode] at hs
      split at hs
      · cases hs
        rw [Nat.lt_one_iff.mp hn] at hf
        cases hf
      · cases hs) (fun _ => trivial) trivial hb
  refine capacities_rule.steps (fun log v c _ => ?_) (fsInv_booted ⟨b, hb⟩) hboot hs
  cases c <;> trivial

end Capacities

/-! ## Termination -/

/-- The doubling loop of `ensure_capacity` ends exactly when at most 2 GiB are needed, and
what it then asks `kmalloc` for is enough. -/
theorem file_growth_ends_iff {v : Vfs} (h : VfsReachable v) {n : Nat} (hn : n < v.fs.count)
    {f : RamfsFile} (hf : (v.fs.nodes n).fsData = some f) (needed : Nat) :
    ((∃ fuel c, growCapacity needed fuel (firstCapacity f.capacity) = some c)
        ↔ needed ≤ 2 ^ 31)
      ∧ (∀ fuel c, growCapacity needed fuel (firstCapacity f.capacity) = some c → needed ≤ c)
      ∧ ∀ blk, ensureCapacity f blk needed = none ↔ 2 ^ 31 < needed := by
  have hd := h.capacities n hn f hf
  have hfits := (h.sound.files n hn).fits f hf
  refine ⟨⟨?_, fun hle => ⟨33, growCapacity_first hfits hd hle⟩⟩,
    fun fuel c hc => growCapacity_le hc, fun blk => ensureCapacity_none_iff hfits hd⟩
  rintro ⟨fuel, c, hc⟩
  by_contra hlt
  rw [growCapacity_never (Nat.lt_of_not_le hlt) fuel hd.first (firstCapacity_bounds hfits hd).2]
    at hc
  cases hc

/-- `/etc/motd` after boot: a buffer of 64 bytes. -/
theorem motd_file : ∃ f, (fullBoot.fs.nodes 4).fsData = some f ∧ f.capacity = 64 := by
  have hcap : (fullBoot.fs.nodes 4).fsData.map RamfsFile.capacity = some 64 := by decide +kernel
  exact Option.map_eq_some_iff.mp hcap

theorem motd_lt : 4 < fullBoot.fs.count := by decide +kernel

/-- One byte more than 2 GiB, and the loop of `ensure_capacity` never ends. -/
theorem file_growth_never_ends :
    ∃ v n f, VfsReachable v ∧ n < v.fs.count ∧ (v.fs.nodes n).fsData = some f
      ∧ 0x80000001 < 2 ^ 32
      ∧ ∀ fuel, growCapacity 0x80000001 fuel (firstCapacity f.capacity) = none := by
  obtain ⟨f, hf, hcap⟩ := motd_file
  refine ⟨fullBoot, 4, f, fullBoot_reachable, motd_lt, hf, by decide, fun fuel => ?_⟩
  rw [hcap]
  exact growCapacity_never (by decide) fuel (Or.inr ⟨0, rfl⟩) (by decide)

theorem file_growth_ends_iff_motd :
    ∃ f, (fullBoot.fs.nodes 4).fsData = some f
      ∧ ((∃ fuel c, growCapacity 1000 fuel (firstCapacity f.capacity) = some c)
          ↔ 1000 ≤ 2 ^ 31) := by
  obtain ⟨f, hf, -⟩ := motd_file
  exact ⟨f, hf, (file_growth_ends_iff fullBoot_reachable motd_lt hf 1000).1⟩

/-! ## Bounds -/

/-- The file whose buffer `ramfs_write` copies into; `none` if it does not get to its
`memcpy`. -/
def writeTarget (s : Ramfs) (n off size : Nat) (blk : Option Mem) : Option RamfsFile :=
  if !(s.nodes n).isFile then none
  else
    match (s.nodes n).fsData with
    | none => none
    | some f =>
        match ensureCapacity f blk (u32 (off + size)) with
        | some (true, f) => some f
        | _ => none

section Bounds

variable {s : Ramfs} {v : Vfs} {n off size : Nat} {data : List (BitVec 8)} {blk : Option Mem}
  {f f' : RamfsFile}

theorem writeTarget_eq_some (ht : writeTarget s n off size blk = some f') :
    (s.nodes n).isFile = true ∧ ∃ f, (s.nodes n).fsData = some f
      ∧ ensureCapacity f blk (u32 (off + size)) = some (true, f') := by
  simp only [writeTarget] at ht
  split at ht
  · cases ht
  · next hfile =>
      split at ht
      · cases ht
      · next f hf =>
          split at ht
          · next hcap =>
              cases ht
              exact ⟨by simpa using hfile, f, hf, hcap⟩
          · cases ht

/-- The rest of `ramfs_write` once the buffer is large enough. -/
theorem ramfsWrite_target (ht : writeTarget s n off data.length blk = some f') :
    ramfsWrite s n off data blk = some (i32 data.length, s.setNode n { s.nodes n with
      size := if (s.nodes n).size < u32 (off + data.length) then u32 (off + data.length)
        else (s.nodes n).size
      fsData := some (f'.put off data) }) := by
  obtain ⟨hfile, f, hf, hcap⟩ := writeTarget_eq_some ht
  simp [ramfsWrite, hfile, hf, hcap]

/-- The copy of a write stays in the buffer exactly when its end does not wrap around,
and the size never exceeds the capacity. -/
theorem write_in_buffer_iff (h : VfsReachable v) (hn : n < v.fs.count)
    (ht : writeTarget v.fs n off data.length blk = some f') :
    (off + data.length ≤ f'.capacity ↔ off + data.length < 2 ^ 32)
      ∧ ∃ r s', ramfsWrite v.fs n off data blk = some (r, s')
        ∧ fileCapacity s' n = f'.capacity ∧ (s'.nodes n).size ≤ fileCapacity s' n := by
  have hok := h.sound.files n hn
  obtain ⟨-, f, hf, hcap⟩ := writeTarget_eq_some ht
  obtain ⟨hend, hfits, -, hgrow, -⟩ :=
    ensureCapacity_spec hcap (hok.buffer f hf) (hok.fits f hf)
  have hsize := hok.size_le f hf
  refine ⟨⟨fun hle => heap_lt (Nat.le_trans hle hfits), fun hlt => ?_⟩,
    _, _, ramfsWrite_target ht, ?_, ?_⟩
  · rwa [u32_of_lt hlt] at hend
  · simp only [fileCapacity, setNode_self]
    rfl
  · simp only [fileCapacity, setNode_self]
    show _ ≤ f'.capacity
    split <;> omega

end Bounds

/-- `/etc/motd`, opened and read up to byte 10. -/
def motdAt10 : Vfs :=
  (fullRun (fun _ _ _ => True)
    [.openFile (slash :: ascii ['e', 't', 'c'] ++ slash :: ascii ['m', 'o', 't', 'd']) 0#32
        ⟨true, true⟩,
      .read 0 (fun _ => 0#8) 10]).2

/-- A write of 2^32 - 1 bytes through that descriptor ends, in 32 bits, at byte 9 of 64:
the buffer is not grown and the copy runs out of it. -/
theorem wrapped_write_leaves_buffer :
    ∃ v fd n off size f, VfsReachable v ∧ fdValid v fd = true
      ∧ (v.fdTable fd.toNat).node = some n ∧ (v.fdTable fd.toNat).offset = off
      ∧ n < v.fs.count ∧ size < 2 ^ 32
      ∧ (∀ blk, writeTarget v.fs n off size blk = some f) ∧ f.capacity < off + size := by
  have hnode : (motdAt10.fs.nodes 4).isFile = true
      ∧ (motdAt10.fs.nodes 4).fsData.map RamfsFile.capacity = some 64 := by decide +kernel
  obtain ⟨hfile, hcap⟩ := hnode
  obtain ⟨f, hf, hcap⟩ := Option.map_eq_some_iff.mp hcap
  refine ⟨motdAt10, 0, 4, 10, 0xFFFFFFFF, f, ⟨_, fullRun_run ..⟩, by decide +kernel,
    by decide +kernel, by decide +kernel, by decide +kernel, by decide, fun blk => ?_, by omega⟩
  have hend : u32 (10 + 0xFFFFFFFF) = 9 := by decide
  simp [writeTarget, hfile, hf, hend, ensureCapacity, hcap]

theorem write_in_buffer_iff_motd :
    ∃ f, writeTarget fullBoot.fs 4 3 [0x21#8, 0x0A#8].length none = some f
      ∧ (3 + [0x21#8, 0x0A#8].length ≤ f.capacity ↔ 3 + [0x21#8, 0x0A#8].length < 2 ^ 32) := by
  have htarget : (writeTarget fullBoot.fs 4 3 [0x21#8, 0x0A#8].length none).isSome = true := by
    decide +kernel
  obtain ⟨f, hf⟩ := Option.isSome_iff_exists.mp htarget
  exact ⟨f, hf, (write_in_buffer_iff fullBoot_reachable motd_lt hf).1⟩

/-! ## Contents -/

/-- What `data` laid over the file `n` at `off` leaves behind. -/
structure Overlaid (s s' : Ramfs) (n off : Nat) (data : List (BitVec 8)) : Prop where
  readable : Readable s' n
  size : (s'.nodes n).size = max (s.nodes n).size (off + data.length)
  new : ∀ i, off ≤ i → i < off + data.length → fileMem s' n i = data.getD (i - off) 0#8
  old : ∀ i < (s.nodes n).size, ¬(off ≤ i ∧ i < off + data.length) →
    fileMem s' n i = fileMem s n i
  others : ∀ m, m ≠ n → s'.nodes m = s.nodes m

/-- Every read of file `n` delivers its bytes from the offset to the end, and no more. -/
def ReadsContent (s : Ramfs) (n : Nat) : Prop :=
  ∀ off size buf,
    (ramfsRead s n off size buf).1 = (min size ((s.nodes n).size - off) : Nat)
      ∧ ∀ j, (ramfsRead s n off size buf).2 j =
        if j < min size ((s.nodes n).size - off) then fileMem s n (off + j) else buf j

section Overlay

variable {s s' : Ramfs} {v : Vfs} {n off : Nat} {data : List (BitVec 8)} {blk : Option Mem}

theorem Wrote.overlaid (h : Wrote s s' n off data) (hok : NodeOk (s.nodes n)) :
    Overlaid s s' n off data where
  readable := h.readable
  size := h.size
  new i hlo hhi := by
    have hsize := h.size
    rw [h.mem hok (by omega), if_pos ⟨hlo, hhi⟩]
  old i hi hout := by
    have hsize := h.size
    rw [h.mem hok (by omega), if_neg hout, if_pos (hok.lt_capacity hi)]
  others m hm := h.other hm

/-- The buffer of the caller is not touched past the bytes that are delivered. -/
theorem ramfsRead_beyond (s : Ramfs) (n off size : Nat) (buf : Mem) {j : Nat}
    (hj : min size ((s.nodes n).size - off) ≤ j) :
    (ramfsRead s n off size buf).2 j = buf j := by
  simp only [ramfsRead]
  split
  · rfl
  · split
    · rfl
    · next f _ =>
        split
        · rfl
        · cases f.data with
          | none => rfl
          | some d =>
              simp only [copyUp_apply]
              refine if_neg ?_
              split <;> omega

theorem NodeOk.readsContent (hok : NodeOk (s.nodes n)) (h : Readable s n) : ReadsContent s n := by
  intro off size buf
  obtain ⟨hret, hbytes⟩ := ramfsRead_readable hok h off size buf
  refine ⟨hret, fun j => ?_⟩
  split
  · next hj => exact hbytes j hj
  · next hj => exact ramfsRead_beyond s n off size buf (Nat.le_of_not_lt hj)

/-- Below 2 GiB `ramfs_write` returns. -/
theorem ramfsWrite_returns (h : VfsReachable v) (hn : n < v.fs.count)
    (hle : off + data.length ≤ 2 ^ 31) :
    ∃ r s', ramfsWrite v.fs n off data blk = some (r, s') := by
  simp only [ramfsWrite]
  split
  · exact ⟨_, _, rfl⟩
  · split
    · exact ⟨_, _, rfl⟩
    · next f hf =>
        have hnone : ensureCapacity f blk (u32 (off + data.length)) = none
            ↔ 2 ^ 31 < u32 (off + data.length) :=
          ensureCapacity_none_iff ((h.sound.files n hn).fits f hf) (h.capacities n hn f hf)
        rw [u32_of_lt (by omega)] at hnone ⊢
        split
        · next hcap =>
            have := hnone.mp hcap
            omega
        · exact ⟨_, _, rfl⟩
        · exact ⟨_, _, rfl⟩

/-- **A write is an overlay.** Up to 2 GiB, `ramfs_write` changes nothing and returns -1,
or it lays its bytes over the file and returns their number; every read afterwards
delivers the content of the file. -/
theorem write_is_overlay (h : VfsReachable v) (hn : n < v.fs.count)
    (hle : off + data.length ≤ 2 ^ 31) :
    ∃ r s', ramfsWrite v.fs n off data blk = some (r, s')
      ∧ (r = -1 ∧ s' = v.fs ∨ r = data.length ∧ Overlaid v.fs s' n off data)
      ∧ (Readable s' n → ReadsContent s' n) := by
  have hok := h.sound.files n hn
  have hreturns : ∃ r s', ramfsWrite v.fs n off data blk = some (r, s') :=
    ramfsWrite_returns h hn hle
  obtain ⟨r, s', hw⟩ := hreturns
  refine ⟨r, s', hw, ?_⟩
  rcases ramfsWrite_cases hok (by omega) hw with ⟨hr, rfl⟩ | ⟨hr, hwr⟩
  · exact ⟨Or.inl ⟨hr, rfl⟩, fun hread => hok.readsContent hread⟩
  · exact ⟨Or.inr ⟨hr, hwr.overlaid hok⟩, fun hread => (hwr.nodeOk hok).readsContent hread⟩

end Overlay

theorem write_is_overlay_motd :
    ∃ r s', ramfsWrite fullBoot.fs 4 60 [1#8, 2#8, 3#8, 4#8, 5#8] (some fun _ => 0xFF#8)
        = some (r, s')
      ∧ (r = -1 ∧ s' = fullBoot.fs
          ∨ r = 5 ∧ Overlaid fullBoot.fs s' 4 60 [1#8, 2#8, 3#8, 4#8, 5#8])
      ∧ (Readable s' 4 → ReadsContent s' 4) :=
  write_is_overlay fullBoot_reachable motd_lt (by decide)

end Matryoshka
