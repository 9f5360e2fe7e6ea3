import Matryoshka.HeapRun
import Mathlib.Logic.Function.Basic

/-!
# What the heap gives its clients

`HeapClient` remembers for every pointer the size it was asked for. In its
runs `kmalloc` takes any 32-bit size, and so does `krealloc` wherever a
condition `Ok` holds. Sizes within seven bytes of 2^32 round up to zero:
the block that comes back has no room for them, and a `krealloc` with such
a size copies the old block over the headers behind the new one. `CopyFits`
excludes the latter and keeps the heap well formed.

Over these runs: `kmalloc_bytes_iff` (when the bytes a caller gets are its own),
`kmalloc_fails_only_if` (an allocation fails only for want of room),
`heap_stats_iff` (when the statistics add up) and `krealloc_preserves`.
-/

namespace Matryoshka

open ByteMem Tiling

/-! ## Runs with requests -/

/-- A run of the heap, and for each address the size it was last handed out for. -/
structure HeapClient where
  run : HeapRun
  asked : Nat → Nat

/-- A result other than NULL is remembered with its size. -/
def noteAsked (asked : Nat → Nat) (p n : Nat) : Nat → Nat :=
  if p = 0 then asked else Function.update asked p n

section Calls

variable (c : HeapClient) (p : Nat) (n : UInt32)

def HeapClient.allocated : HeapClient :=
  ⟨⟨(kmalloc c.run.heap n.toNat).2, addLive (kmalloc c.run.heap n.toNat).1 c.run.live⟩,
    noteAsked c.asked (kmalloc c.run.heap n.toNat).1 n.toNat⟩

def HeapClient.zeroed : HeapClient :=
  ⟨⟨(kzalloc c.run.heap n.toNat).2, addLive (kzalloc c.run.heap n.toNat).1 c.run.live⟩,
    noteAsked c.asked (kzalloc c.run.heap n.toNat).1 n.toNat⟩

def HeapClient.freed : HeapClient :=
  ⟨⟨kfree c.run.heap p, c.run.live.erase p⟩, c.asked⟩

def HeapClient.resized : HeapClient :=
  ⟨⟨(krealloc c.run.heap p n.toNat).2,
      reallocLive p n.toNat (krealloc c.run.heap p n.toNat).1 c.run.live⟩,
    noteAsked c.asked (krealloc c.run.heap p n.toNat).1 n.toNat⟩

def HeapClient.written (i : Nat) (v : BitVec 8) : HeapClient :=
  ⟨⟨{ c.run.heap with mem := store8 c.run.heap.mem (p + i) v }, c.run.live⟩, c.asked⟩

end Calls

/-- One call, or one byte stored into a block that is held. -/
inductive ClientStep (Ok : Heap → Nat → Nat → Prop) : HeapClient → HeapClient → Prop
  | kmalloc (c : HeapClient) (n : UInt32) : ClientStep Ok c (c.allocated n)
  | kzalloc (c : HeapClient) (n : UInt32) (hn : n.toNat + 7 < 2 ^ 32) :
      ClientStep Ok c (c.zeroed n)
  | kfree (c : HeapClient) (p : Nat) (hp : p ∈ c.run.live) : ClientStep Ok c (c.freed p)
  | krealloc (c : HeapClient) (p : Nat) (n : UInt32) (hp : p ∈ c.run.live)
      (hok : Ok c.run.heap p n.toNat) : ClientStep Ok c (c.resized p n)
  | write (c : HeapClient) (p i : Nat) (v : BitVec 8) (hp : p ∈ c.run.live)
      (hi : i < blockSize c.run.heap.mem (p - sizeofBlock)) :
      ClientStep Ok c (c.written p i v)

/-- States reachable from `heap_init` on any memory. -/
inductive ClientReach (Ok : Heap → Nat → Nat → Prop) : HeapClient → Prop
  | init (m : Mem) : ClientReach Ok ⟨⟨heapInit m, []⟩, fun _ => 0⟩
  | step {c c' : HeapClient} : ClientReach Ok c → ClientStep Ok c c' → ClientReach Ok c'

/-- A block holds what was asked for, unless the rounding of the size wrapped. -/
def Served (asked : Nat → Nat) (bs : List Seg) : Prop :=
  ∀ b ∈ used bs, asked (b.addr + 16) + 7 < 2 ^ 32 → asked (b.addr + 16) ≤ b.size

structure ClientInv (c : HeapClient) (bs : List Seg) : Prop where
  wf : HeapWf c.run.heap bs
  holds : Holds c.run.live bs
  served : Served c.asked bs

section Inv

variable {s s' : Heap} {bs bs' : List Seg} {live : List Nat} {asked : Nat → Nat} {n p : Nat}

theorem noteAsked_pos (hp : p ≠ 0) : noteAsked asked p n = Function.update asked p n := if_neg hp

theorem noteAsked_null : noteAsked asked 0 n = asked := if_pos rfl

/-- One more block, large enough for the size noted for it. -/
theorem Served.insert (h : Served asked bs) {c : Seg} (hc : n + 7 < 2 ^ 32 → n ≤ c.size)
    (hused : ∀ d ∈ used bs', d ∈ used bs ∧ d.addr ≠ c.addr ∨ d = c) :
    Served (noteAsked asked (c.addr + 16) n) bs' := by
  rw [noteAsked_pos (by omega)]
  intro d hd
  rcases hused d hd with ⟨hd, hne⟩ | rfl
  · rw [Function.update_of_ne (by omega)]
    exact h d hd
  · rw [Function.update_self]
    exact hc

theorem Placed.client {c : Seg} (hp : Placed s bs bs' c) (hh : Holds live bs)
    (hs : Served asked bs) (hc : n + 7 < 2 ^ 32 → n ≤ c.size) :
    ClientInv ⟨⟨s, addLive (c.addr + 16) live⟩, noteAsked asked (c.addr + 16) n⟩ bs' := by
  rw [addLive, if_neg (by omega)]
  refine ⟨hp.wf, hp.holds hh, hs.insert hc fun d hd => ?_⟩
  exact ((hp.used d).mp hd).imp_left fun hd => ⟨hd, hp.fresh d hd⟩

theorem kmalloc_client (h : ClientInv ⟨⟨s, live⟩, asked⟩ bs) (n : Nat) :
    ∃ bs', ClientInv ⟨⟨(kmalloc s n).2, addLive (kmalloc s n).1 live⟩,
      noteAsked asked (kmalloc s n).1 n⟩ bs' := by
  obtain ⟨hwf, hh, hs⟩ := h
  rcases kmalloc_placed hwf n with hk | ⟨c, bs', hp, hz, hplaced⟩
  · rw [hk, noteAsked_null]
    exact ⟨bs, hwf, hh, hs⟩
  · rw [hp]
    exact ⟨bs', hplaced.client hh hs fun hn => Nat.le_trans (le_align8 hn) hz⟩

theorem kzalloc_client (h : ClientInv ⟨⟨s, live⟩, asked⟩ bs) (hn : n + 7 < 2 ^ 32) :
    ∃ bs', ClientInv ⟨⟨(kzalloc s n).2, addLive (kzalloc s n).1 live⟩,
      noteAsked asked (kzalloc s n).1 n⟩ bs' := by
  obtain ⟨hwf, hh, hs⟩ := h
  rcases kzalloc_placed hwf hn with hk | ⟨c, bs', hp, hz, hplaced⟩
  · rw [hk, noteAsked_null]
    exact ⟨bs, hwf, hh, hs⟩
  · rw [hp]
    exact ⟨bs', hplaced.client hh hs fun _ => hz⟩

theorem kfree_client (h : ClientInv ⟨⟨s, live⟩, asked⟩ bs) (hp : p ∈ live) :
    ∃ bs', ClientInv ⟨⟨kfree s p, live.erase p⟩, asked⟩ bs' := by
  obtain ⟨hwf, hh, hs⟩ := h
  obtain ⟨b, hb, rfl⟩ := (hh.mem_iff p).mp hp
  refine ⟨_, (kfree_refines hwf hb).1, hh.release b.addr, fun d hd => ?_⟩
  exact hs d (mem_used_release.mp hd).1

theorem krealloc_client (h : ClientInv ⟨⟨s, live⟩, asked⟩ bs) (hp : p ∈ live)
    (hfit : CopyFits s p n) :
    ∃ bs', ClientInv ⟨⟨(krealloc s p n).2, reallocLive p n (krealloc s p n).1 live⟩,
      noteAsked asked (krealloc s p n).1 n⟩ bs' := by
  have hfree := kfree_client h hp
  obtain ⟨hwf, hh, hs⟩ := h
  obtain ⟨b, hb, rfl⟩ := (hh.mem_iff p).mp hp
  by_cases hn0 : n = 0
  · rw [reallocLive, if_pos hn0, krealloc, if_neg (by omega), if_pos hn0, noteAsked_null]
    exact hfree
  · rw [reallocLive, if_neg hn0]
    rcases krealloc_cases hwf hb hn0 hfit with ⟨hle, hk⟩ | hk | ⟨c, bs', hq, -, hz, hm⟩
    · rw [hk, if_neg (by omega)]
      refine ⟨bs, hwf, hh.perm (List.perm_cons_erase hp), hs.insert (fun _ => hle) fun d hd => ?_⟩
      by_cases hd' : d.addr = b.addr
      · exact Or.inr (hwf.canon.tiles.eq_of_addr (by decide) (List.mem_filter.mp hd).1
          (List.mem_filter.mp hb).1 hd')
      · exact Or.inl ⟨hd, hd'⟩
    · rw [hk, if_pos rfl, noteAsked_null]
      exact ⟨bs, hwf, hh, hs⟩
    · rw [hq, if_neg (by omega)]
      refine ⟨bs', hm.wf, hm.holds hh, hs.insert (fun hn => Nat.le_trans (le_align8 hn) hz)
        fun d hd => ?_⟩
      exact ((hm.used d).mp hd).imp_left fun hd => ⟨hd.1, hm.fresh d hd.1⟩

theorem write_client {i : Nat} {v : BitVec 8} (h : ClientInv ⟨⟨s, live⟩, asked⟩ bs)
    (hp : p ∈ live) (hi : i < blockSize s.mem (p - sizeofBlock)) :
    ClientInv ⟨⟨{ s with mem := store8 s.mem (p + i) v }, live⟩, asked⟩ bs :=
  ⟨write_wf h.wf h.holds hp hi, h.holds, h.served⟩

end Inv

theorem clientStep_inv {c c' : HeapClient} {bs : List Seg} (h : ClientInv c bs)
    (hstep : ClientStep CopyFits c c') : ∃ bs', ClientInv c' bs' := by
  cases hstep with
  | kmalloc n => exact kmalloc_client h _
  | kzalloc n hn => exact kzalloc_client h hn
  | kfree p hp => exact kfree_client h hp
  | krealloc p n hp hok => exact krealloc_client h hp hok
  | write p i v hp hi => exact ⟨bs, write_client h hp hi⟩

theorem clientReach_inv {c : HeapClient} (h : ClientReach CopyFits c) :
    ∃ bs, ClientInv c bs := by
  induction h with
  | init m =>
      refine ⟨_, heapInit_wf m, ⟨List.nodup_nil, by simp [used]⟩, fun b hb => ?_⟩
      simp [used] at hb
  | step _ hstep ih =>
      obtain ⟨bs, hinv⟩ := ih
      exact clientStep_inv hinv hstep

/-! ## Free ranges -/

/-- `[a, a + len)` is in the heap and meets no block that a client holds. -/
structure FreeRange (r : HeapRun) (a len : Nat) : Prop where
  start : HEAP_START ≤ a
  stop : a + len ≤ HEAP_START + HEAP_INITIAL
  apart : ∀ p ∈ r.live, a + len ≤ p - sizeofBlock
    ∨ p + blockSize r.heap.mem (p - sizeofBlock) ≤ a

/-- The least multiple of eight from `n` on. -/
def roundup8 (n : Nat) : Nat := (n + 7) / 8 * 8

section Ranges

variable {s : Heap} {bs : List Seg} {r : HeapRun} {n a len : Nat}

theorem align8_eq (hn : n + 7 < 2 ^ 32) : align8 n = roundup8 n := by
  rw [align8, u32_of_lt hn, roundup8]
  omega

theorem freeRange_iff (hwf : HeapWf r.heap bs) (hh : Holds r.live bs) :
    FreeRange r a len ↔
      HEAP_START ≤ a ∧ a + len ≤ HEAP_START + HEAP_INITIAL ∧ Gap sizeofBlock bs a len := by
  have hblock : ∀ b ∈ used bs, blockSize r.heap.mem (b.addr + 16 - sizeofBlock) = b.size :=
    fun b hb => hwf.size_at (List.mem_filter.mp hb).1
  constructor
  · rintro ⟨hlo, hhi, hap⟩
    refine ⟨hlo, hhi, fun b hb => ?_⟩
    have := hap _ ((hh.mem_iff _).mpr ⟨b, hb, rfl⟩)
    rw [hblock b hb] at this
    simp only [sizeofBlock] at this ⊢
    omega
  · rintro ⟨hlo, hhi, hg⟩
    refine ⟨hlo, hhi, fun p hp => ?_⟩
    obtain ⟨b, hb, rfl⟩ := (hh.mem_iff p).mp hp
    have := hg b hb
    rw [hblock b hb]
    simp only [sizeofBlock] at this ⊢
    omega

/-- A successful `kmalloc` takes the lowest range there is. -/
theorem kmalloc_lowest (hwf : HeapWf r.heap bs) (hh : Holds r.live bs) (hn : n + 7 < 2 ^ 32)
    (hp : (kmalloc r.heap n).1 ≠ 0) :
    FreeRange r ((kmalloc r.heap n).1 - sizeofBlock) (sizeofBlock + roundup8 n)
      ∧ ∀ a, FreeRange r a (sizeofBlock + roundup8 n) →
          (kmalloc r.heap n).1 - sizeofBlock ≤ a := by
  simp only [freeRange_iff hwf hh, ← align8_eq hn]
  rcases kmalloc_cases hwf n with hk | ⟨hn0, p, bs', ha⟩
  · exact absurd (congrArg Prod.fst hk) hp
  · rw [(kmalloc_refines hwf hn0 ha).1, show p + 16 - sizeofBlock = p from Nat.add_sub_cancel ..]
    refine ⟨hwf.canon.allocate_gap ha, ?_⟩
    rintro a ⟨hlo, hhi, hg⟩
    exact hwf.canon.allocate_lowest (by decide) ha hlo hhi hg

end Ranges

/-! ## The bytes of an allocation -/

/-- `[p, p + n)` lies aligned inside the heap, outside every header of `s'` and
outside what any pointer held in `c` was asked for. -/
structure OwnBytes (c : HeapClient) (s' : Heap) (p n : Nat) : Prop where
  aligned : p % 8 = 0
  inside : HEAP_START ≤ p ∧ p + n ≤ HEAP_START + HEAP_INITIAL
  headers : ∀ b ∈ s'.blocks, p + n ≤ b.addr ∨ b.addr + sizeofBlock ≤ p
  others : ∀ q ∈ c.run.live, p + n ≤ q ∨ q + c.asked q ≤ p

section Bytes

variable {s : Heap} {bs : List Seg} {c : HeapClient} {b : Seg} {n p : Nat}

/-- Headers in the block list are headers of the tiling. -/
theorem HeapWf.mem_blocks (h : HeapWf s bs) {v : HeapBlock} (hv : v ∈ s.blocks) :
    (⟨v.addr, v.size, v.isFree⟩ : Seg) ∈ bs := by
  rw [h.blocks_eq] at hv
  rw [← views_segs bs]
  exact List.mem_map_of_mem hv

theorem HeapWf.exists_block (h : HeapWf s bs) (hb : b ∈ bs) :
    ∃ v ∈ s.blocks, (⟨v.addr, v.size, v.isFree⟩ : Seg) = b := by
  rw [← views_segs bs] at hb
  obtain ⟨v, hv, heq⟩ := List.mem_map.mp hb
  exact ⟨v, h.blocks_eq ▸ hv, heq⟩

/-- A new block that is large enough, below every block whose size wrapped. -/
theorem ClientInv.ownBytes {bs' : List Seg} (h : ClientInv c bs) (hp : Placed s bs bs' b)
    (hn : n ≤ b.size)
    (hwrap : ∀ q ∈ c.run.live, 2 ^ 32 ≤ c.asked q + 7 → b.addr + 16 < q) :
    OwnBytes c s (b.addr + 16) n := by
  have hb : b ∈ used bs' := (hp.used b).mpr (Or.inr rfl)
  have hmem := (List.mem_filter.mp hb).1
  have hbounds := hp.wf.mem_bounds hmem
  have hdvd : 8 ∣ b.addr := hp.wf.canon.addr_dvd (by decide) (by decide) hmem
  refine ⟨by omega, by omega, fun v hv => ?_, fun q hq => ?_⟩
  · by_cases heq : b.addr = v.addr
    · exact Or.inr (by rw [sizeofBlock]; omega)
    · have := header_disjoint hp.wf.canon.tiles hmem (hp.wf.mem_blocks hv) heq
      simp only [sizeofBlock] at this ⊢
      omega
  · obtain ⟨d, hd, rfl⟩ := (h.holds.mem_iff q).mp hq
    have hdmem := (List.mem_filter.mp ((hp.used d).mpr (Or.inl hd))).1
    have hapart := header_disjoint hp.wf.canon.tiles hmem hdmem (hp.fresh d hd).symm
    by_cases hsmall : c.asked (d.addr + 16) + 7 < 2 ^ 32
    · have := h.served d hd hsmall
      omega
    · have := hwrap _ hq (by omega)
      omega

/-- A non-null result of `kmalloc(n)` is `n` bytes of the heap that belong to
nobody else, exactly if the rounding of `n` does not wrap and there is room for
the block below every block whose size wrapped. -/
theorem kmalloc_bytes_iff (h : ClientReach CopyFits c) (n : UInt32)
    (hp : (kmalloc c.run.heap n.toNat).1 ≠ 0) :
    OwnBytes c (kmalloc c.run.heap n.toNat).2 (kmalloc c.run.heap n.toNat).1 n.toNat ↔
      n.toNat + 7 < 2 ^ 32
        ∧ ∃ a, FreeRange c.run a (sizeofBlock + roundup8 n.toNat)
          ∧ ∀ q ∈ c.run.live, 2 ^ 32 ≤ c.asked q + 7 → a + sizeofBlock < q := by
  obtain ⟨bs, hinv⟩ := clientReach_inv h
  rcases kmalloc_placed hinv.wf n.toNat with hk | ⟨b, bs', hq, hz, hplaced⟩
  · exact absurd (congrArg Prod.fst hk) hp
  · have hlow := fun hn => kmalloc_lowest hinv.wf hinv.holds hn hp
    rw [hq, show b.addr + 16 - sizeofBlock = b.addr from Nat.add_sub_cancel ..] at hlow
    rw [hq]
    constructor
    · intro hown
      have hin := hown.inside.2
      have hn0 : n.toNat ≠ 0 := fun h0 => hp (by rw [h0, kmalloc_zero])
      simp only [HEAP_START, HEAP_INITIAL] at hin
      have hn : n.toNat + 7 < 2 ^ 32 := by omega
      refine ⟨hn, b.addr, (hlow hn).1, fun q hmem hwrap => ?_⟩
      have := hown.others q hmem
      rw [sizeofBlock]
      omega
    · rintro ⟨hn, a, hfree, hwrap⟩
      have hle := (hlow hn).2 a hfree
      refine hinv.ownBytes hplaced (Nat.le_trans (le_align8 hn) hz) fun q hmem hbig => ?_
      have := hwrap q hmem hbig
      rw [sizeofBlock] at this
      omega

end Bytes

/-- The empty heap over zeroed memory. -/
def freshClient : HeapClient := ⟨⟨heapInit fun _ => 0#8, []⟩, fun _ => 0⟩

/-- A request for 2^32 - 1 bytes is answered with the first block of the heap. -/
theorem huge_kmalloc_succeeds :
    ClientReach CopyFits freshClient
      ∧ (kmalloc freshClient.run.heap (0xFFFFFFFF : UInt32).toNat).1 = HEAP_START + 16
      ∧ HEAP_START + HEAP_INITIAL
        < (kmalloc freshClient.run.heap (0xFFFFFFFF : UInt32).toNat).1
          + (0xFFFFFFFF : UInt32).toNat := by
  have hp : (kmalloc freshClient.run.heap (0xFFFFFFFF : UInt32).toNat).1 = HEAP_START + 16 := by
    decide +kernel
  refine ⟨.init _, hp, ?_⟩
  rw [hp]
  decide

/-- Blocks for 16, 2^32 - 1 and 64 bytes, of which the first is free again. -/
def belowHuge : HeapClient :=
  (((freshClient.allocated 16).allocated 0xFFFFFFFF).allocated 64).freed (HEAP_START + 16)

theorem belowHuge_reach : ClientReach CopyFits belowHuge :=
  ((((ClientReach.init fun _ => 0#8).step (.kmalloc _ 16)).step (.kmalloc _ 0xFFFFFFFF)).step
    (.kmalloc _ 64)).step (.kfree _ _ (by decide +kernel))

theorem kmalloc_bytes_iff_below :
    OwnBytes belowHuge (kmalloc belowHuge.run.heap (16 : UInt32).toNat).2
      (kmalloc belowHuge.run.heap (16 : UInt32).toNat).1 (16 : UInt32).toNat := by
  have hlive : belowHuge.run.live = [HEAP_START + 64, HEAP_START + 48] := by decide +kernel
  have hfree : FreeRange belowHuge.run HEAP_START (sizeofBlock + roundup8 16) := by
    refine ⟨by decide, by decide, ?_⟩
    rw [hlive]
    decide +kernel
  refine (kmalloc_bytes_iff belowHuge_reach 16 (by decide +kernel)).mpr
    ⟨by decide, HEAP_START, hfree, ?_⟩
  rw [hlive]
  decide +kernel

/-! ## When an allocation fails -/

/-- `kmalloc` fails only for want of room, takes the lowest range there is, and
changes nothing when it fails. -/
theorem kmalloc_fails_only_if {n : Nat} {c : HeapClient} (h : ClientReach CopyFits c)
    (hn0 : 0 < n) (hn : n ≤ 2 ^ 32 - 8) :
    ((kmalloc c.run.heap n).1 = 0 ↔ ¬∃ a, FreeRange c.run a (sizeofBlock + roundup8 n))
      ∧ ((kmalloc c.run.heap n).1 ≠ 0 →
          FreeRange c.run ((kmalloc c.run.heap n).1 - sizeofBlock) (sizeofBlock + roundup8 n)
            ∧ ∀ a, FreeRange c.run a (sizeofBlock + roundup8 n) →
                (kmalloc c.run.heap n).1 - sizeofBlock ≤ a)
      ∧ ((kmalloc c.run.heap n).1 = 0 → (kmalloc c.run.heap n).2 = c.run.heap) := by
  obtain ⟨bs, hwf, hh, -⟩ := clientReach_inv h
  have hround : n + 7 < 2 ^ 32 := by omega
  rcases ha : allocate sizeofBlock 16 (align8 n) bs with _ | ⟨p, bs'⟩
  · rw [kmalloc_none hwf ha]
    refine ⟨⟨fun _ => ?_, fun _ => rfl⟩, fun hne => absurd rfl hne, fun _ => rfl⟩
    simp only [freeRange_iff hwf hh, ← align8_eq hround]
    exact (hwf.canon.allocate_none_iff (by decide)).mp ha
  · have hne : (kmalloc c.run.heap n).1 ≠ 0 := by
      rw [(kmalloc_refines hwf (Nat.ne_of_gt hn0) ha).1]
      omega
    have hlow := kmalloc_lowest hwf hh hround hne
    exact ⟨⟨fun h0 => absurd h0 hne, fun hno => absurd ⟨_, hlow.1⟩ hno⟩, fun _ => hlow,
      fun h0 => absurd h0 hne⟩

/-- After `p = kmalloc(16)`. -/
def oneBlock : HeapClient := freshClient.allocated 16

theorem oneBlock_reach (Ok : Heap → Nat → Nat → Prop) : ClientReach Ok oneBlock :=
  .step (.init fun _ => 0#8) (.kmalloc _ 16)

/-- After `krealloc(p, 2^32 - 1)` as well. -/
def overrun : HeapClient := oneBlock.resized (HEAP_START + 16) 0xFFFFFFFF

/-- The copy has overwritten the header of the free block, and a request that
fits into it fails. -/
theorem overrun_hides_free_block :
    ClientReach (fun _ _ _ => True) overrun
      ∧ (kmalloc overrun.run.heap 1000).1 = 0
      ∧ FreeRange overrun.run (HEAP_START + 48) (sizeofBlock + roundup8 1000) := by
  have hlive : overrun.run.live = [HEAP_START + 48] := by decide +kernel
  have hsize : blockSize overrun.run.heap.mem (HEAP_START + 48 - sizeofBlock) = 0 := by
    decide +kernel
  refine ⟨.step (oneBlock_reach _) (.krealloc _ _ 0xFFFFFFFF (by decide +kernel) trivial),
    by decide +kernel, by decide, by decide, fun p hp => ?_⟩
  rw [hlive] at hp
  cases List.mem_singleton.mp hp
  rw [hsize]
  exact Or.inr (by decide)

theorem kmalloc_fails_only_if_large :
    (kmalloc oneBlock.run.heap 0x100000).1 = 0
      ∧ ¬∃ a, FreeRange oneBlock.run a (sizeofBlock + roundup8 0x100000) :=
  have h0 : (kmalloc oneBlock.run.heap 0x100000).1 = 0 := by decide +kernel
  ⟨h0, (kmalloc_fails_only_if (oneBlock_reach _) (by decide) (by decide)).1.mp h0⟩

/-! ## Statistics -/

/-- `heap_used` counts one header too many, so the statistics add up exactly as
long as some block is free. -/
theorem heap_stats_iff {c : HeapClient} (h : ClientReach CopyFits c) :
    ((heapGetStats c.run.heap).2.1 ≤ (heapGetStats c.run.heap).1
        ∧ (heapGetStats c.run.heap).2.2 + (heapGetStats c.run.heap).2.1
          = (heapGetStats c.run.heap).1)
      ↔ ∃ b ∈ c.run.heap.blocks, b.isFree = true := by
  obtain ⟨bs, hwf, -⟩ := clientReach_inv h
  simp only [heapGetStats, hwf.total, hwf.used]
  constructor
  · rintro ⟨hle, -⟩
    by_contra hno
    have hfull := hwf.canon.tiles.usedBytes_full fun b hb => by
      obtain ⟨v, hv, rfl⟩ := hwf.exists_block hb
      by_contra hfree
      exact hno ⟨v, hv, by simpa using hfree⟩
    simp only [sizeofBlock] at hfull hle
    omega
  · rintro ⟨v, hv, hfree⟩
    have := hwf.canon.tiles.usedBytes_free (hwf.mem_blocks hv) hfree
    simp only [HEAP_START, HEAP_INITIAL, sizeofBlock] at this ⊢
    refine ⟨by omega, ?_⟩
    rw [u32]
    omega

/-- One request can take the whole heap; the free bytes then wrap. -/
theorem full_heap_stats_wrap :
    ClientReach CopyFits (freshClient.allocated 0xFFFF0)
      ∧ heapGetStats (freshClient.allocated 0xFFFF0).run.heap
        = (0x100000, 0x100010, 0xFFFFFFF0) :=
  ⟨.step (.init fun _ => 0#8) (.kmalloc _ 0xFFFF0), by decide +kernel⟩

theorem heap_stats_iff_one :
    (heapGetStats oneBlock.run.heap).2.1 ≤ (heapGetStats oneBlock.run.heap).1 :=
  ((heap_stats_iff (oneBlock_reach _)).mpr ⟨readBlock oneBlock.run.heap.mem (HEAP_START + 32),
    by decide +kernel, by decide +kernel⟩).1

/-! ## Reallocation -/

/-- `p` points behind the header of a used block. -/
def Heap.IsLive (s : Heap) (p : Nat) : Prop :=
  ∃ b ∈ s.blocks, b.isFree = false ∧ p = b.addr + sizeofBlock

/-- The block at `p` is as it was in `s`, with all its bytes. -/
def SameBlock (s s' : Heap) (p : Nat) : Prop :=
  s'.IsLive p ∧ blockSize s'.mem (p - sizeofBlock) = blockSize s.mem (p - sizeofBlock)
    ∧ ∀ i < blockSize s.mem (p - sizeofBlock), s'.mem (p + i) = s.mem (p + i)

/-- The block at `p` has become the block at `q` of at least `n` bytes. -/
structure Reallocated (s s' : Heap) (p q n : Nat) : Prop where
  live : s'.IsLive q
  size : n ≤ blockSize s'.mem (q - sizeofBlock)
  bytes : ∀ i < min (blockSize s.mem (p - sizeofBlock)) n, s'.mem (q + i) = s.mem (p + i)
  gone : s'.IsLive p → q = p

section Realloc

variable {s s' : Heap} {bs bs' : List Seg} {b c d : Seg} {n p : Nat}

theorem isLive_iff (h : HeapWf s bs) : s.IsLive p ↔ ∃ b ∈ used bs, p = b.addr + 16 := by
  constructor
  · rintro ⟨v, hv, hfree, rfl⟩
    exact ⟨_, List.mem_filter.mpr ⟨h.mem_blocks hv, by simp [hfree]⟩, rfl⟩
  · rintro ⟨b, hb, rfl⟩
    obtain ⟨v, hv, rfl⟩ := h.exists_block (List.mem_filter.mp hb).1
    exact ⟨v, hv, by simpa using (List.mem_filter.mp hb).2, rfl⟩

theorem size_used (h : HeapWf s bs) (hb : b ∈ used bs) :
    blockSize s.mem (b.addr + 16 - sizeofBlock) = b.size :=
  h.size_at (List.mem_filter.mp hb).1

theorem sameBlock_of_moved (hm : Moved s s' bs bs' b c) (h : HeapWf s bs) (hd : d ∈ used bs)
    (hne : d.addr ≠ b.addr) : SameBlock s s' (d.addr + 16) := by
  have hd' : d ∈ used bs' := (hm.used d).mpr (Or.inl ⟨hd, hne⟩)
  rw [SameBlock, size_used h hd, size_used hm.wf hd']
  exact ⟨(isLive_iff hm.wf).mpr ⟨d, hd', rfl⟩, rfl, hm.others d hd hne⟩

theorem reallocated_of_moved (hm : Moved s s' bs bs' b c) (h : HeapWf s bs) (hb : b ∈ used bs)
    (hn : n ≤ c.size) : Reallocated s s' (b.addr + 16) (c.addr + 16) n := by
  have hc : c ∈ used bs' := (hm.used c).mpr (Or.inr rfl)
  refine ⟨(isLive_iff hm.wf).mpr ⟨c, hc, rfl⟩, by rwa [size_used hm.wf hc], fun i hi => ?_,
    fun hp => ?_⟩
  · rw [size_used h hb] at hi
    exact hm.copied i (by omega)
  · obtain ⟨d, hd, heq⟩ := (isLive_iff hm.wf).mp hp
    rcases (hm.used d).mp hd with ⟨-, hne⟩ | rfl
    · omega
    · exact heq.symm

end Realloc

/-- `krealloc` of a live pointer fails and changes nothing, or it returns a live
block with the old bytes; either way no other block changes. -/
theorem krealloc_preserves {c : HeapClient} (h : ClientReach CopyFits c) {p n : Nat}
    (hp : p ∈ c.run.live) (hn0 : 0 < n) (hn : n ≤ 2 ^ 32 - 8) :
    krealloc c.run.heap p n = (0, c.run.heap)
      ∨ Reallocated c.run.heap (krealloc c.run.heap p n).2 p (krealloc c.run.heap p n).1 n
        ∧ ∀ q ∈ c.run.live, q ≠ p → SameBlock c.run.heap (krealloc c.run.heap p n).2 q := by
  obtain ⟨bs, hwf, hh, -⟩ := clientReach_inv h
  obtain ⟨b, hb, rfl⟩ := (hh.mem_iff p).mp hp
  have hround : n + 7 < 2 ^ 32 := by omega
  rcases krealloc_cases hwf hb (Nat.ne_of_gt hn0) (hwf.copyFits hround _) with
    ⟨hle, hk⟩ | hk | ⟨d, bs', hq, -, hz, hm⟩
  · rw [hk]
    refine Or.inr ⟨⟨(isLive_iff hwf).mpr ⟨b, hb, rfl⟩, by rwa [size_used hwf hb], fun i _ => rfl,
      fun _ => rfl⟩, fun q hq _ => ⟨?_, rfl, fun i _ => rfl⟩⟩
    exact (isLive_iff hwf).mpr ((hh.mem_iff q).mp hq)
  · exact Or.inl hk
  · rw [hq]
    refine Or.inr ⟨reallocated_of_moved hm hwf hb (Nat.le_trans (le_align8 hround) hz),
      fun q hq hne => ?_⟩
    obtain ⟨e, he, rfl⟩ := (hh.mem_iff q).mp hq
    exact sameBlock_of_moved hm hwf he (by omega)

/-- Blocks of 16, 8 and 64 bytes, of which the second is free again. -/
def holeBeforeBlock : HeapClient :=
  (((freshClient.allocated 16).allocated 8).allocated 64).freed (HEAP_START + 48)

/-- After `krealloc` of the first block by 2^32 - 1 bytes. Its copy into the
hole has wiped the magic number and the size of the third block. -/
def wiped : HeapClient := holeBeforeBlock.resized (HEAP_START + 16) 0xFFFFFFFF

/-- `krealloc` of the third block by 8 bytes returns another block, and the
`kfree` in it rejects the third, which stays in use. -/
theorem wiped_block_stays_live :
    ClientReach (fun _ _ _ => True) wiped
      ∧ HEAP_START + 72 ∈ wiped.run.live
      ∧ (krealloc wiped.run.heap (HEAP_START + 72) 8).1 = HEAP_START + 16
      ∧ (krealloc wiped.run.heap (HEAP_START + 72) 8).2.IsLive (HEAP_START + 72) := by
  have hreach : ClientReach (fun _ _ _ => True) wiped :=
    (((((ClientReach.init fun _ => 0#8).step (.kmalloc _ 16)).step (.kmalloc _ 8)).step
      (.kmalloc _ 64)).step (.kfree _ _ (by decide +kernel))).step
      (.krealloc _ _ 0xFFFFFFFF (by decide +kernel) trivial)
  refine ⟨hreach, by decide +kernel, by decide +kernel, ?_⟩
  exact ⟨readBlock (krealloc wiped.run.heap (HEAP_START + 72) 8).2.mem (HEAP_START + 56),
    by decide +kernel, by decide +kernel, rfl⟩

theorem krealloc_preserves_grow :
    Reallocated oneBlock.run.heap (krealloc oneBlock.run.heap (HEAP_START + 16) 100).2
      (HEAP_START + 16) (krealloc oneBlock.run.heap (HEAP_START + 16) 100).1 100 :=
  ((krealloc_preserves (oneBlock_reach _) (by decide +kernel) (by decide)
    (by decide)).resolve_left fun hk => absurd (congrArg Prod.fst hk) (by decide +kernel)).1

end Matryoshka
