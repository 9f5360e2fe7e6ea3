import Matryoshka.HeapRefine

/-!
# Runs of the heap allocator

Clients call `kmalloc`, `kzalloc`, `krealloc` and `kfree` in any order,
free only what they hold, and write bytes of blocks they hold. `HeapReach`
is the set of states such a run can reach, with the pointers the clients
currently hold as a ghost component.

`HeapInv` is the run invariant: the heap is well formed for some tiling
whose used segments are exactly the blocks the clients hold. Two results
are read off it. `heap_rep_inv` states the representation invariant over
the header list as it stands in memory. `heap_canonical` says that a heap
is determined by what is live: whatever splits and merges a run went
through, two states with the same live blocks have the same block list
and the same counter.
-/

namespace Matryoshka

open ByteMem Tiling

/-! ## The block list as it stands in memory -/

/-- One header of the list, with the address it was read from. -/
structure HeapBlock where
  addr : Nat
  magic : Nat
  size : Nat
  isFree : Bool
  next : Nat
deriving Repr, DecidableEq

def readBlock (m : Mem) (p : Nat) : HeapBlock :=
  ⟨p, blockMagic m p, blockSize m p, blockIsFree m p, blockNext m p⟩

/-- Follow the next pointers up to NULL. -/
def blockList (m : Mem) : Nat → Nat → List HeapBlock
  | 0, _ => []
  | fuel + 1, p =>
      if p = 0 then [] else readBlock m p :: blockList m fuel (blockNext m p)

def Heap.blocks (s : Heap) : List HeapBlock := blockList s.mem heapFuel s.heapStart

/-- The header list a tiling is laid out as. -/
def views : List Seg → List HeapBlock
  | [] => []
  | b :: bs => ⟨b.addr, HEAP_MAGIC, b.size, b.free, headAddr bs 0⟩ :: views bs

/-- The tiling can be read off the header list. -/
theorem views_segs (bs : List Seg) :
    (views bs).map (fun v => (⟨v.addr, v.size, v.isFree⟩ : Seg)) = bs := by
  induction bs with
  | nil => rfl
  | cons b l ih => rw [views, List.map_cons, ih]

theorem blockList_eq {m : Mem} :
    ∀ {bs : List Seg} {fuel : Nat}, Linked m bs 0 → (∀ b ∈ bs, b.addr ≠ 0) →
      bs.length < fuel → blockList m fuel (headAddr bs 0) = views bs
  | [], fuel + 1, _, _, _ => by simp [blockList, headAddr, views]
  | b :: bs, fuel + 1, hl, hne, hlen => by
      obtain ⟨hb, hl⟩ := hl
      have ih := @blockList_eq m bs fuel hl
        (fun c hc => hne c (List.mem_cons_of_mem _ hc))
        (by simp only [List.length_cons] at hlen; omega)
      show blockList m (fuel + 1) b.addr = _
      rw [blockList, if_neg (hne b (List.mem_cons_self ..)), hb.next, ih, views, readBlock,
        hb.magic, hb.size, hb.isFree, hb.next]

theorem HeapWf.blocks_eq {s : Heap} {bs : List Seg} (h : HeapWf s bs) :
    s.blocks = views bs := by
  rw [Heap.blocks, ← h.headAddr]
  exact blockList_eq h.linked (fun b hb => h.addr_pos hb) h.length_lt

/-! ## The representation invariant -/

/-- The list covers the heap from `a` to its end: every block but the last
points to the byte after itself, the last one ends the heap and points nowhere. -/
def CoversHeap : Nat → List HeapBlock → Prop
  | _, [] => False
  | a, [b] =>
      b.addr = a ∧ b.addr + sizeofBlock + b.size = HEAP_START + HEAP_INITIAL ∧ b.next = 0
  | a, b :: c :: rest =>
      b.addr = a ∧ b.next = b.addr + sizeofBlock + b.size
        ∧ CoversHeap (b.addr + sizeofBlock + b.size) (c :: rest)

structure RepInv (s : Heap) : Prop where
  covers : CoversHeap HEAP_START s.blocks
  magic : ∀ b ∈ s.blocks, b.magic = HEAP_MAGIC
  aligned : ∀ b ∈ s.blocks, b.size % 8 = 0
  separated : s.blocks.IsChain fun b c => ¬(b.isFree = true ∧ c.isFree = true)
  used : s.heapUsed = sizeofBlock
    + ((s.blocks.filter fun b => !b.isFree).map fun b => sizeofBlock + b.size).sum

theorem views_covers :
    ∀ {bs : List Seg} {a : Nat}, Tiles sizeofBlock a bs (HEAP_START + HEAP_INITIAL) → bs ≠ [] →
      CoversHeap a (views bs)
  | [], _, _, hne => absurd rfl hne
  | [b], a, ⟨hb, hend⟩, _ => by
      refine ⟨hb, ?_, rfl⟩
      rw [show (HeapBlock.addr _) = b.addr from rfl, hb]
      exact hend
  | b :: c :: rest, a, ⟨hb, ht⟩, _ => by
      refine ⟨hb, ?_, ?_⟩
      · show c.addr = b.addr + sizeofBlock + b.size
        rw [hb, ht.1]
      · show CoversHeap (b.addr + sizeofBlock + b.size) (views (c :: rest))
        rw [hb]
        exact views_covers ht (List.cons_ne_nil c rest)

theorem mem_views {bs : List Seg} {v : HeapBlock} (hv : v ∈ views bs) :
    ∃ b ∈ bs, v.addr = b.addr ∧ v.magic = HEAP_MAGIC ∧ v.size = b.size ∧ v.isFree = b.free := by
  induction bs with
  | nil => cases hv
  | cons b l ih =>
      rcases List.mem_cons.mp hv with rfl | hv
      · exact ⟨b, List.mem_cons_self .., rfl, rfl, rfl, rfl⟩
      · obtain ⟨c, hc, h⟩ := ih hv
        exact ⟨c, List.mem_cons_of_mem _ hc, h⟩

theorem views_separated :
    ∀ {bs : List Seg}, Separated bs →
      (views bs).IsChain fun b c => ¬(b.isFree = true ∧ c.isFree = true)
  | [], _ => List.isChain_nil
  | [_], _ => List.isChain_singleton _
  | _ :: _ :: _, hs => by
      obtain ⟨hbc, hs⟩ := List.isChain_cons_cons.mp hs
      have ih := views_separated hs
      exact List.isChain_cons_cons.mpr ⟨hbc, ih⟩

theorem views_used (bs : List Seg) :
    (((views bs).filter fun b => !b.isFree).map fun b => sizeofBlock + b.size).sum
      = usedBytes sizeofBlock bs := by
  induction bs with
  | nil => rfl
  | cons b l ih =>
      rw [usedBytes_cons, views]
      cases hb : b.free <;> simp [ih]

theorem HeapWf.repInv {s : Heap} {bs : List Seg} (h : HeapWf s bs) : RepInv s := by
  have hne : bs ≠ [] := by
    rintro rfl
    have : HEAP_START = HEAP_START + HEAP_INITIAL := h.canon.tiles
    simp [HEAP_INITIAL] at this
  refine ⟨?_, ?_, ?_, ?_, ?_⟩ <;> rw [h.blocks_eq]
  · exact views_covers h.canon.tiles hne
  · intro v hv
    obtain ⟨b, -, -, hmagic, -⟩ := mem_views hv
    exact hmagic
  · intro v hv
    obtain ⟨b, hb, -, -, hsize, -⟩ := mem_views hv
    rw [hsize]
    exact Nat.mod_eq_zero_of_dvd (h.canon.aligned b hb)
  · exact views_separated h.canon.separated
  · rw [h.used, views_used]

/-! ## Runs -/

/-- The heap and the pointers its clients currently hold. -/
structure HeapRun where
  heap : Heap
  live : List Nat

def addLive (p : Nat) (live : List Nat) : List Nat := if p = 0 then live else p :: live

/-- What the client holds after `krealloc(p, n)` returned `q`: a size of zero
frees, a null result keeps the old block, any other result replaces it. -/
def reallocLive (p n q : Nat) (live : List Nat) : List Nat :=
  if n = 0 then live.erase p else if q = 0 then live else q :: live.erase p

/-- One client call, or one client write into a held block. Only `kmalloc` takes
sizes whose rounding wraps. -/
inductive HeapStep : HeapRun → HeapRun → Prop
  | kmalloc (r : HeapRun) (n : UInt32) :
      HeapStep r ⟨(kmalloc r.heap n.toNat).2, addLive (kmalloc r.heap n.toNat).1 r.live⟩
  | kzalloc (r : HeapRun) (n : UInt32) (hn : n.toNat + 7 < 2 ^ 32) :
      HeapStep r ⟨(kzalloc r.heap n.toNat).2, addLive (kzalloc r.heap n.toNat).1 r.live⟩
  | kfreeNull (r : HeapRun) : HeapStep r ⟨kfree r.heap 0, r.live⟩
  | kfree (r : HeapRun) (p : Nat) (hp : p ∈ r.live) :
      HeapStep r ⟨kfree r.heap p, r.live.erase p⟩
  | kreallocNull (r : HeapRun) (n : UInt32) (hn : n.toNat + 7 < 2 ^ 32) :
      HeapStep r ⟨(krealloc r.heap 0 n.toNat).2, addLive (krealloc r.heap 0 n.toNat).1 r.live⟩
  | krealloc (r : HeapRun) (p : Nat) (n : UInt32) (hp : p ∈ r.live)
      (hn : n.toNat + 7 < 2 ^ 32) :
      HeapStep r ⟨(krealloc r.heap p n.toNat).2,
        reallocLive p n.toNat (krealloc r.heap p n.toNat).1 r.live⟩
  | write (r : HeapRun) (p i : Nat) (v : BitVec 8) (hp : p ∈ r.live)
      (hi : i < blockSize r.heap.mem (p - sizeofBlock)) :
      HeapStep r ⟨{ r.heap with mem := store8 r.heap.mem (p + i) v }, r.live⟩

/-- States reachable from `heap_init` on any memory. -/
inductive HeapReach : HeapRun → Prop
  | init (m : Mem) : HeapReach ⟨heapInit m, []⟩
  | step {r r' : HeapRun} : HeapReach r → HeapStep r r' → HeapReach r'

/-- The held pointers are the payloads of the used segments. -/
structure Holds (live : List Nat) (bs : List Seg) : Prop where
  nodup : live.Nodup
  mem_iff : ∀ p, p ∈ live ↔ ∃ b ∈ used bs, p = b.addr + 16

def HeapInv (r : HeapRun) : Prop := ∃ bs, HeapWf r.heap bs ∧ Holds r.live bs

section Inv

variable {s : Heap} {bs bs' : List Seg} {live : List Nat} {n p : Nat}

theorem heapInit_wf (m : Mem) :
    HeapWf (heapInit m) [⟨HEAP_START, HEAP_INITIAL - sizeofBlock, true⟩] := by
  refine ⟨rfl, rfl, ⟨⟨rfl, ?_⟩, List.isChain_singleton _, ?_⟩, ⟨?_, trivial⟩, rfl⟩
  · rfl
  · simp [HEAP_INITIAL, sizeofBlock]
  · exact headerAt_write m HEAP_START (HEAP_INITIAL - sizeofBlock) 0 true (by decide) (by decide)

theorem heapInit_inv (m : Mem) : HeapInv ⟨heapInit m, []⟩ :=
  ⟨_, heapInit_wf m, List.nodup_nil, by simp [used]⟩

/-- Either the call changes nothing and returns NULL, or first fit finds a block. -/
theorem kmalloc_cases (h : HeapWf s bs) (n : Nat) :
    kmalloc s n = (0, s) ∨
      n ≠ 0 ∧ ∃ p bs', allocate sizeofBlock 16 (align8 n) bs = some (p, bs') := by
  by_cases hn : n = 0
  · subst hn
    exact Or.inl (kmalloc_zero s)
  · cases ha : allocate sizeofBlock 16 (align8 n) bs with
    | none => exact Or.inl (kmalloc_none h ha)
    | some r => exact Or.inr ⟨hn, r.1, r.2, rfl⟩

/-- The heap `s'` has one more used block than `bs`, the block `c`. -/
structure Placed (s' : Heap) (bs bs' : List Seg) (c : Seg) : Prop where
  wf : HeapWf s' bs'
  used : ∀ d, d ∈ Tiling.used bs' ↔ d ∈ Tiling.used bs ∨ d = c
  fresh : ∀ d ∈ Tiling.used bs, d.addr ≠ c.addr

/-- What a client sees of `kmalloc`: NULL and no change, or one new used block. -/
theorem kmalloc_placed (h : HeapWf s bs) (n : Nat) :
    kmalloc s n = (0, s) ∨ ∃ c bs', (kmalloc s n).1 = c.addr + 16 ∧ align8 n ≤ c.size
      ∧ Placed (kmalloc s n).2 bs bs' c := by
  rcases kmalloc_cases h n with hk | ⟨hn0, p, bs', ha⟩
  · exact Or.inl hk
  · obtain ⟨hp, hwf, -⟩ := kmalloc_refines h hn0 ha
    obtain ⟨z, hz, hused, hfresh⟩ := allocate_used (by decide) h.canon.tiles ha
    exact Or.inr ⟨⟨p, z, false⟩, bs', hp, hz, hwf, hused, hfresh⟩

theorem kmalloc_spec (h : HeapWf s bs) (hn : n + 7 < 2 ^ 32) :
    kmalloc s n = (0, s) ∨
      ∃ b bs', (kmalloc s n).1 = b.addr + 16 ∧ n ≤ b.size ∧ Placed (kmalloc s n).2 bs bs' b := by
  rcases kmalloc_placed h n with hk | ⟨c, bs', hp, hz, hplaced⟩
  · exact Or.inl hk
  · exact Or.inr ⟨c, bs', hp, Nat.le_trans (le_align8 hn) hz, hplaced⟩

/-- `kmalloc` leaves the payload of every used block alone. -/
theorem kmalloc_payload (h : HeapWf s bs) {b : Seg} (hb : b ∈ Tiling.used bs) {x : Nat}
    (h1 : b.addr + 16 ≤ x) (h2 : x < b.addr + 16 + b.size) (n : Nat) :
    (kmalloc s n).2.mem x = s.mem x := by
  rcases kmalloc_cases h n with hk | ⟨hn, p, bs', ha⟩
  · rw [hk]
  · obtain ⟨-, -, c, hc, hfree, rfl, hmem⟩ := kmalloc_refines h hn ha
    obtain ⟨hb, hused⟩ := List.mem_filter.mp hb
    have hne : b.addr ≠ c.addr := fun heq => by
      rw [h.canon.tiles.eq_of_addr (by decide) hb hc heq, hfree] at hused
      cases hused
    have := header_disjoint h.canon.tiles hb hc hne
    exact hmem x (by omega)

theorem Placed.holds {c : Seg} (hp : Placed s bs bs' c) (hh : Holds live bs) :
    Holds ((c.addr + 16) :: live) bs' := by
  refine ⟨List.nodup_cons.mpr ⟨fun hmem => ?_, hh.nodup⟩, fun q => ?_⟩
  · obtain ⟨b, hb, heq⟩ := (hh.mem_iff _).mp hmem
    exact hp.fresh b hb (by omega)
  · rw [List.mem_cons, hh.mem_iff]
    constructor
    · rintro (rfl | ⟨b, hb, rfl⟩)
      · exact ⟨c, (hp.used c).mpr (Or.inr rfl), rfl⟩
      · exact ⟨b, (hp.used b).mpr (Or.inl hb), rfl⟩
    · rintro ⟨b, hb, rfl⟩
      rcases (hp.used b).mp hb with hb | rfl
      · exact Or.inr ⟨b, hb, rfl⟩
      · exact Or.inl rfl

theorem Holds.release (hh : Holds live bs) (p : Nat) :
    Holds (live.erase (p + 16)) (release sizeofBlock p bs) := by
  refine ⟨hh.nodup.erase _, fun q => ?_⟩
  rw [hh.nodup.mem_erase_iff, hh.mem_iff]
  simp only [mem_used_release]
  constructor
  · rintro ⟨hne, b, hb, rfl⟩
    exact ⟨b, ⟨hb, fun h => hne (by rw [h])⟩, rfl⟩
  · rintro ⟨b, ⟨hb, hne⟩, rfl⟩
    exact ⟨by omega, b, hb, rfl⟩

/-- `kfree` of the new block takes it back. -/
theorem Placed.undo {c : Seg} (hp : Placed s bs bs' c) :
    ∃ bs'', HeapWf (kfree s (c.addr + 16)) bs'' ∧
      ∀ d, d ∈ Tiling.used bs'' ↔ d ∈ Tiling.used bs := by
  refine ⟨_, (kfree_refines hp.wf ((hp.used c).mpr (Or.inr rfl))).1, fun d => ?_⟩
  rw [mem_used_release, hp.used]
  constructor
  · rintro ⟨hd | rfl, hne⟩
    · exact hd
    · exact absurd rfl hne
  · exact fun hd => ⟨Or.inl hd, hp.fresh d hd⟩

/-- The heap of `r` is laid out as `bs'`, and a block of `bs` that is still held
in `r` is the same block. -/
structure Kept (bs : List Seg) (r : HeapRun) (bs' : List Seg) : Prop where
  wf : HeapWf r.heap bs'
  holds : Holds r.live bs'
  same : ∀ d ∈ Tiling.used bs, d.addr + 16 ∈ r.live → d ∈ Tiling.used bs'

theorem Kept.refl (hwf : HeapWf s bs) (hh : Holds live bs) : Kept bs ⟨s, live⟩ bs :=
  ⟨hwf, hh, fun _ hd _ => hd⟩

theorem Placed.kept {c : Seg} (hp : Placed s bs bs' c) (hh : Holds live bs) :
    Kept bs ⟨s, addLive (c.addr + 16) live⟩ bs' := by
  rw [addLive, if_neg (by omega)]
  exact ⟨hp.wf, hp.holds hh, fun d hd _ => (hp.used d).mpr (Or.inl hd)⟩

theorem kmalloc_kept (hwf : HeapWf s bs) (hh : Holds live bs) (n : Nat) :
    ∃ bs', Kept bs ⟨(kmalloc s n).2, addLive (kmalloc s n).1 live⟩ bs' := by
  rcases kmalloc_placed hwf n with hk | ⟨c, bs', hp, -, hplaced⟩
  · rw [hk]
    exact ⟨bs, .refl hwf hh⟩
  · rw [hp]
    exact ⟨bs', hplaced.kept hh⟩

theorem kfree_kept (hwf : HeapWf s bs) (hh : Holds live bs) (hp : p ∈ live) :
    ∃ bs', Kept bs ⟨kfree s p, live.erase p⟩ bs' := by
  obtain ⟨b, hb, rfl⟩ := (hh.mem_iff p).mp hp
  refine ⟨_, (kfree_refines hwf hb).1, hh.release b.addr, fun d hd hlive => ?_⟩
  refine mem_used_release.mpr ⟨hd, fun heq => ?_⟩
  rw [heq] at hlive
  exact hh.nodup.not_mem_erase hlive

/-- Writes into the payload of a used block leave the heap well formed. -/
theorem HeapWf.payload_write (hwf : HeapWf s bs) {b : Seg} (hb : b ∈ Tiling.used bs) {m : Mem}
    (hm : ∀ x, x < b.addr + 16 ∨ b.addr + 16 + b.size ≤ x → m x = s.mem x) :
    HeapWf { s with mem := m } bs := by
  have hmem : b ∈ bs := (List.mem_filter.mp hb).1
  refine hwf.of_headers fun c hc x hx1 hx2 => hm x ?_
  by_contra hx
  have := hwf.payload_not_header hmem hc (x := x) (by omega) (by omega)
  omega

/-- Clearing the new block touches no header. -/
theorem kzalloc_wf {c : Seg} (hwf : HeapWf (kmalloc s n).2 bs') (hc : c ∈ Tiling.used bs')
    (hp : (kmalloc s n).1 = c.addr + 16) (hz : n ≤ c.size) :
    (kzalloc s n).1 = c.addr + 16 ∧ HeapWf (kzalloc s n).2 bs' := by
  have hk : kzalloc s n = (c.addr + 16,
      { (kmalloc s n).2 with mem := fillUp (kmalloc s n).2.mem (c.addr + 16) 0#8 n }) := by
    simp only [kzalloc, hp]
    rw [if_pos (by omega)]
  rw [hk]
  exact ⟨rfl, hwf.payload_write hc fun x hx => fillUp_of_outside (by omega)⟩

theorem kzalloc_null (hk : kmalloc s n = (0, s)) : kzalloc s n = (0, s) := by
  rw [kzalloc, hk]
  rfl

theorem kzalloc_placed (h : HeapWf s bs) (hn : n + 7 < 2 ^ 32) :
    kzalloc s n = (0, s) ∨ ∃ c bs', (kzalloc s n).1 = c.addr + 16 ∧ n ≤ c.size
      ∧ Placed (kzalloc s n).2 bs bs' c := by
  rcases kmalloc_spec h hn with hk | ⟨c, bs', hp, hz, hplaced⟩
  · exact Or.inl (kzalloc_null hk)
  · obtain ⟨hp, hwf⟩ := kzalloc_wf hplaced.wf ((hplaced.used c).mpr (Or.inr rfl)) hp hz
    exact Or.inr ⟨c, bs', hp, hz, hwf, hplaced.used, hplaced.fresh⟩

/-- `kzalloc` lays the heap out as first fit does. -/
theorem kzalloc_refines (h : HeapWf s bs) (hn0 : n ≠ 0) (hn : n + 7 < 2 ^ 32)
    (ha : allocate sizeofBlock 16 (align8 n) bs = some (p, bs')) :
    (kzalloc s n).1 = p + 16 ∧ HeapWf (kzalloc s n).2 bs' := by
  obtain ⟨hp, hwf, -⟩ := kmalloc_refines h hn0 ha
  obtain ⟨z, hz, hused, -⟩ := allocate_used (by decide) h.canon.tiles ha
  exact kzalloc_wf hwf ((hused ⟨p, z, false⟩).mpr (Or.inr rfl)) hp
    (Nat.le_trans (le_align8 hn) hz)

theorem kzalloc_kept (hwf : HeapWf s bs) (hh : Holds live bs) (hn : n + 7 < 2 ^ 32) :
    ∃ bs', Kept bs ⟨(kzalloc s n).2, addLive (kzalloc s n).1 live⟩ bs' := by
  rcases kzalloc_placed hwf hn with hk | ⟨c, bs', hp, -, hplaced⟩
  · rw [hk]
    exact ⟨bs, .refl hwf hh⟩
  · rw [hp]
    exact ⟨bs', hplaced.kept hh⟩

theorem Holds.perm {live' : List Nat} (hh : Holds live bs) (hp : live.Perm live') :
    Holds live' bs :=
  ⟨hp.nodup_iff.mp hh.nodup, fun q => (hp.mem_iff).symm.trans (hh.mem_iff q)⟩

theorem HeapWf.size_at (h : HeapWf s bs) {b : Seg} (hb : b ∈ bs) :
    blockSize s.mem b.addr = b.size := by
  obtain ⟨nxt, hhead⟩ := h.linked.headerAt hb
  exact hhead.size

/-- What `krealloc(p, n)` copies fits into the block it gets. -/
def CopyFits (s : Heap) (p n : Nat) : Prop :=
  (kmalloc s n).1 = 0 ∨ min (blockSize s.mem (p - sizeofBlock)) n
    ≤ blockSize (kmalloc s n).2.mem ((kmalloc s n).1 - sizeofBlock)

instance (s : Heap) (p n : Nat) : Decidable (CopyFits s p n) :=
  inferInstanceAs (Decidable (_ ∨ _))

/-- It does whenever the rounding of the size does not wrap. -/
theorem HeapWf.copyFits (h : HeapWf s bs) (hn : n + 7 < 2 ^ 32) (p : Nat) : CopyFits s p n := by
  rcases kmalloc_spec h hn with hk | ⟨c, bs', hc, hz, hplaced⟩
  · exact Or.inl (by rw [hk])
  · have hmem := (List.mem_filter.mp ((hplaced.used c).mpr (Or.inr rfl))).1
    refine Or.inr ?_
    rw [hc, show c.addr + 16 - sizeofBlock = c.addr from Nat.add_sub_cancel ..,
      hplaced.wf.size_at hmem]
    omega

/-- The block `b` has become the block `c`: its bytes moved along, and every
other used block is as it was. -/
structure Moved (s s' : Heap) (bs bs' : List Seg) (b c : Seg) : Prop where
  wf : HeapWf s' bs'
  used : ∀ d, d ∈ Tiling.used bs' ↔ (d ∈ Tiling.used bs ∧ d.addr ≠ b.addr) ∨ d = c
  fresh : ∀ d ∈ Tiling.used bs, d.addr ≠ c.addr
  copied : ∀ i < b.size, s'.mem (c.addr + 16 + i) = s.mem (b.addr + 16 + i)
  others : ∀ d ∈ Tiling.used bs, d.addr ≠ b.addr → ∀ i < d.size,
    s'.mem (d.addr + 16 + i) = s.mem (d.addr + 16 + i)

/-- A reallocation that moves: allocate, copy into the new payload, free. -/
theorem krealloc_moved (h : HeapWf s bs) {b c : Seg} (hb : b ∈ Tiling.used bs)
    (hlt : b.size < n) (hq : (kmalloc s n).1 = c.addr + 16)
    (hp : Placed (kmalloc s n).2 bs bs' c) (hfit : CopyFits s (b.addr + 16) n) :
    ∃ bs'', Moved s (kfree { (kmalloc s n).2 with
        mem := reallocCopy b.addr (b.addr + 16) (c.addr + 16) n n 0 (kmalloc s n).2.mem }
        (b.addr + 16)) bs bs'' b c := by
  have hc : c ∈ Tiling.used bs' := (hp.used c).mpr (Or.inr rfl)
  have hcmem := (List.mem_filter.mp hc).1
  have hb' : b ∈ Tiling.used bs' := (hp.used b).mpr (Or.inl hb)
  have hbmem := (List.mem_filter.mp hb').1
  have hapart := header_disjoint hp.wf.canon.tiles hbmem hcmem (hp.fresh b hb)
  have hroom : b.size ≤ c.size := by
    rcases hfit with hfit | hfit
    · omega
    · rw [hq, show b.addr + 16 - sizeofBlock = b.addr from Nat.add_sub_cancel ..,
        show c.addr + 16 - sizeofBlock = c.addr from Nat.add_sub_cancel .., hp.wf.size_at hcmem,
        h.size_at (List.mem_filter.mp hb).1] at hfit
      omega
  have hmin : min b.size n = b.size := Nat.min_eq_left (Nat.le_of_lt hlt)
  have hcopy : ∀ x, reallocCopy b.addr (b.addr + 16) (c.addr + 16) n n 0 (kmalloc s n).2.mem x =
      if c.addr + 16 + 0 ≤ x ∧ x < c.addr + 16 + min b.size n
      then (kmalloc s n).2.mem (b.addr + 16 + (x - (c.addr + 16))) else (kmalloc s n).2.mem x :=
    reallocCopy_apply (by omega) (by omega) n 0 _ (hp.wf.size_at hbmem) (by omega)
  rw [hmin] at hcopy
  have hwf := hp.wf.payload_write hc
    (m := reallocCopy b.addr (b.addr + 16) (c.addr + 16) n n 0 (kmalloc s n).2.mem)
    fun x hx => by rw [hcopy, if_neg (by omega)]
  obtain ⟨hfree, hframe⟩ := kfree_refines hwf hb'
  refine ⟨_, hfree, fun d => ?_, hp.fresh, fun i hi => ?_, fun d hd hne i hi => ?_⟩
  · rw [mem_used_release, hp.used]
    constructor
    · rintro ⟨hd | rfl, hne⟩
      · exact Or.inl ⟨hd, hne⟩
      · exact Or.inr rfl
    · rintro (⟨hd, hne⟩ | rfl)
      · exact ⟨Or.inl hd, hne⟩
      · exact ⟨Or.inr rfl, (hp.fresh b hb).symm⟩
  · rw [hframe _ fun d hd => hp.wf.payload_not_header hcmem hd (by omega) (by omega)]
    simp only
    rw [hcopy, if_pos (by omega), Nat.add_sub_cancel_left]
    exact kmalloc_payload h hb (by omega) (by omega) n
  · have hdmem := (List.mem_filter.mp ((hp.used d).mpr (Or.inl hd))).1
    have hdc := header_disjoint hp.wf.canon.tiles hdmem hcmem (hp.fresh d hd)
    rw [hframe _ fun c hc => hp.wf.payload_not_header hdmem hc (by omega) (by omega)]
    simp only
    rw [hcopy, if_neg (by omega)]
    exact kmalloc_payload h hd (by omega) (by omega) n

/-- `krealloc` of a used block: it stays, the call fails and changes nothing, or
it moves. -/
theorem krealloc_cases (h : HeapWf s bs) {b : Seg} (hb : b ∈ Tiling.used bs) (hn0 : n ≠ 0)
    (hfit : CopyFits s (b.addr + 16) n) :
    (n ≤ b.size ∧ krealloc s (b.addr + 16) n = (b.addr + 16, s))
      ∨ krealloc s (b.addr + 16) n = (0, s)
      ∨ ∃ c bs', (krealloc s (b.addr + 16) n).1 = c.addr + 16 ∧ b.size < n ∧ align8 n ≤ c.size
          ∧ Moved s (krealloc s (b.addr + 16) n).2 bs bs' b c := by
  have hmem : b ∈ bs := (List.mem_filter.mp hb).1
  have hlt := h.lt hmem
  rw [krealloc, if_neg (by omega), if_neg hn0, u32_block (by omega)]
  simp only [h.size_at hmem]
  by_cases hle : n ≤ b.size
  · rw [if_pos hle]
    exact Or.inl ⟨hle, rfl⟩
  · rw [if_neg hle]
    rcases kmalloc_placed h n with hk | ⟨c, bs', hc, hz, hplaced⟩
    · refine Or.inr (Or.inl ?_)
      simp only [hk, if_true]
    · obtain ⟨bs'', hmoved⟩ := krealloc_moved h hb (by omega) hc hplaced hfit
      refine Or.inr (Or.inr ⟨c, bs'', ?_, by omega, hz, ?_⟩)
      · simp only [hc, if_neg (show ¬c.addr + 16 = 0 by omega)]
      · simp only [hc, if_neg (show ¬c.addr + 16 = 0 by omega)]
        exact hmoved

theorem Moved.holds {s' : Heap} {b c : Seg} (hm : Moved s s' bs bs' b c) (hh : Holds live bs) :
    Holds ((c.addr + 16) :: live.erase (b.addr + 16)) bs' := by
  refine ⟨List.nodup_cons.mpr ⟨fun hmem => ?_, hh.nodup.erase _⟩, fun q => ?_⟩
  · obtain ⟨d, hd, heq⟩ := (hh.mem_iff _).mp (List.mem_of_mem_erase hmem)
    exact hm.fresh d hd (by omega)
  · rw [List.mem_cons, hh.nodup.mem_erase_iff, hh.mem_iff]
    constructor
    · rintro (rfl | ⟨hne, d, hd, rfl⟩)
      · exact ⟨c, (hm.used c).mpr (Or.inr rfl), rfl⟩
      · exact ⟨d, (hm.used d).mpr (Or.inl ⟨hd, fun h => hne (by rw [h])⟩), rfl⟩
    · rintro ⟨d, hd, rfl⟩
      rcases (hm.used d).mp hd with ⟨hd, hne⟩ | rfl
      · exact Or.inr ⟨by omega, d, hd, rfl⟩
      · exact Or.inl rfl

theorem Moved.kept {s' : Heap} {b c : Seg} (hm : Moved s s' bs bs' b c) (hh : Holds live bs) :
    Kept bs ⟨s', (c.addr + 16) :: live.erase (b.addr + 16)⟩ bs' := by
  refine ⟨hm.wf, hm.holds hh, fun d hd hlive => (hm.used d).mpr (Or.inl ⟨hd, fun heq => ?_⟩)⟩
  rcases List.mem_cons.mp hlive with hnew | hold
  · exact hm.fresh d hd (by omega)
  · rw [heq] at hold
    exact hh.nodup.not_mem_erase hold

theorem krealloc_kept (hwf : HeapWf s bs) (hh : Holds live bs) (hp : p ∈ live)
    (hfit : CopyFits s p n) :
    ∃ bs', Kept bs ⟨(krealloc s p n).2, reallocLive p n (krealloc s p n).1 live⟩ bs' := by
  have hfree := kfree_kept hwf hh hp
  obtain ⟨b, hb, rfl⟩ := (hh.mem_iff p).mp hp
  by_cases hn0 : n = 0
  · rw [reallocLive, if_pos hn0, krealloc, if_neg (by omega), if_pos hn0]
    exact hfree
  · rw [reallocLive, if_neg hn0]
    rcases krealloc_cases hwf hb hn0 hfit with ⟨-, hk⟩ | hk | ⟨c, bs', hq, -, -, hm⟩
    · rw [hk, if_neg (by omega)]
      exact ⟨bs, .refl hwf (hh.perm (List.perm_cons_erase hp))⟩
    · rw [hk, if_pos rfl]
      exact ⟨bs, .refl hwf hh⟩
    · rw [hq, if_neg (by omega)]
      exact ⟨bs', hm.kept hh⟩

theorem write_wf {i : Nat} {v : BitVec 8} (hwf : HeapWf s bs) (hh : Holds live bs) (hp : p ∈ live)
    (hi : i < blockSize s.mem (p - sizeofBlock)) :
    HeapWf { s with mem := store8 s.mem (p + i) v } bs := by
  obtain ⟨b, hb, rfl⟩ := (hh.mem_iff p).mp hp
  rw [show b.addr + 16 - sizeofBlock = b.addr from Nat.add_sub_cancel ..,
    hwf.size_at (List.mem_filter.mp hb).1] at hi
  exact hwf.payload_write hb fun x hx => store8_of_ne (by omega)

end Inv

theorem heapStep_kept {r r' : HeapRun} {bs : List Seg} (hwf : HeapWf r.heap bs)
    (hh : Holds r.live bs) (hstep : HeapStep r r') : ∃ bs', Kept bs r' bs' := by
  cases hstep with
  | kmalloc n => exact kmalloc_kept hwf hh _
  | kzalloc n hn => exact kzalloc_kept hwf hh hn
  | kfreeNull => exact ⟨bs, .refl hwf hh⟩
  | kfree p hp => exact kfree_kept hwf hh hp
  | kreallocNull n hn => exact kmalloc_kept hwf hh _
  | krealloc p n hp hn => exact krealloc_kept hwf hh hp (hwf.copyFits hn p)
  | write p i v hp hi => exact ⟨bs, .refl (write_wf hwf hh hp hi) hh⟩

theorem heapReach_inv {r : HeapRun} (h : HeapReach r) : HeapInv r := by
  induction h with
  | init m => exact heapInit_inv m
  | step _ hstep ih =>
      obtain ⟨bs, hwf, hh⟩ := ih
      obtain ⟨bs', hkept⟩ := heapStep_kept hwf hh hstep
      exact ⟨bs', hkept.wf, hkept.holds⟩

/-- **Representation invariant.** In every reachable state the header list tiles
the heap, every header is valid and aligned, no two adjacent blocks are free,
and `heap_used` counts the first header and the used blocks. -/
theorem heap_rep_inv {r : HeapRun} (h : HeapReach r) : RepInv r.heap := by
  obtain ⟨bs, hwf, -⟩ := heapReach_inv h
  exact hwf.repInv

theorem heap_rep_inv_kmalloc :
    RepInv (kmalloc (heapInit fun _ => 0#8) (100 : UInt32).toNat).2 :=
  heap_rep_inv (HeapReach.step (HeapReach.init fun _ => 0#8) (HeapStep.kmalloc _ 100))

/-! ## The heap is determined by what is live -/

/-- Payload address and block size of everything the clients hold. -/
def HeapRun.liveBlocks (r : HeapRun) : List (Nat × Nat) :=
  r.live.map fun p => (p, blockSize r.heap.mem (p - sizeofBlock))

def SameHeap (s t : Heap) : Prop := s.blocks = t.blocks ∧ s.heapUsed = t.heapUsed

def freeAll (s : Heap) (ps : List Nat) : Heap := ps.foldl kfree s

section Same

variable {s t : Heap} {bs bs' : List Seg}

theorem HeapWf.sameHeap (hs : HeapWf s bs) (ht : HeapWf t bs')
    (h : ∀ c, c ∈ Tiling.used bs ↔ c ∈ Tiling.used bs') : SameHeap s t := by
  obtain rfl := hs.canon.tiles.eq_of_used (by decide) ht.canon.tiles hs.canon.separated
    ht.canon.separated h
  exact ⟨hs.blocks_eq.trans ht.blocks_eq.symm, hs.used.trans ht.used.symm⟩

theorem mem_liveBlocks {r : HeapRun} (hwf : HeapWf r.heap bs) (hh : Holds r.live bs) {c : Seg}
    (hc : c.free = false) :
    (c.addr + 16, c.size) ∈ r.liveBlocks ↔ c ∈ Tiling.used bs := by
  rw [HeapRun.liveBlocks, List.mem_map]
  constructor
  · rintro ⟨p, hp, heq⟩
    obtain ⟨b, hb, rfl⟩ := (hh.mem_iff p).mp hp
    obtain ⟨hmem, hfree⟩ := List.mem_filter.mp hb
    rw [Prod.mk.injEq, show b.addr + 16 - sizeofBlock = b.addr from Nat.add_sub_cancel ..,
      hwf.size_at hmem] at heq
    have hbc : b = c := by
      cases b
      cases c
      simp_all
    exact hbc ▸ hb
  · intro h
    refine ⟨c.addr + 16, (hh.mem_iff _).mpr ⟨c, h, rfl⟩, ?_⟩
    rw [show c.addr + 16 - sizeofBlock = c.addr from Nat.add_sub_cancel ..,
      hwf.size_at (List.mem_filter.mp h).1]

theorem used_free {c : Seg} (h : c ∈ Tiling.used bs) : c.free = false := by
  simpa using (List.mem_filter.mp h).2

/-- Freeing held pointers one after the other removes exactly their segments. -/
theorem freeAll_refines (hs : HeapWf s bs) :
    ∀ {ps : List Nat}, ps.Nodup → (∀ p ∈ ps, ∃ b ∈ Tiling.used bs, p = b.addr + 16) →
      ∃ bs', HeapWf (freeAll s ps) bs'
        ∧ ∀ c, c ∈ Tiling.used bs' ↔ c ∈ Tiling.used bs ∧ c.addr + 16 ∉ ps := by
  intro ps
  induction ps generalizing s bs with
  | nil => exact fun _ _ => ⟨bs, hs, by simp⟩
  | cons p ps ih =>
      intro hnd hps
      obtain ⟨hp, hnd'⟩ := List.nodup_cons.mp hnd
      obtain ⟨b, hb, rfl⟩ := hps p (List.mem_cons_self ..)
      have hrest : ∀ q ∈ ps,
          ∃ c ∈ Tiling.used (release sizeofBlock b.addr bs), q = c.addr + 16 := by
        intro q hq
        obtain ⟨c, hc, rfl⟩ := hps q (List.mem_cons_of_mem _ hq)
        exact ⟨c, mem_used_release.mpr ⟨hc, fun h => hp (h ▸ hq)⟩, rfl⟩
      obtain ⟨bs', hwf, hused⟩ := ih (kfree_refines hs hb).1 hnd' hrest
      refine ⟨bs', hwf, fun c => ?_⟩
      rw [hused, mem_used_release, List.mem_cons, not_or, and_assoc]
      have : c.addr ≠ b.addr ↔ ¬c.addr + 16 = b.addr + 16 := by omega
      rw [this]

/-- Freeing what `kmalloc` just returned undoes it. -/
theorem kfree_kmalloc_sameHeap (hs : HeapWf s bs) (n : Nat) :
    SameHeap (kfree (kmalloc s n).2 (kmalloc s n).1) s := by
  rcases kmalloc_placed hs n with hk | ⟨b, bs', hp, -, hplaced⟩
  · rw [hk]
    exact ⟨rfl, rfl⟩
  · rw [hp]
    obtain ⟨bs'', hwf, hused⟩ := hplaced.undo
    exact hwf.sameHeap hs hused

end Same

/-- **Canonicity.** Two reachable heaps with the same live blocks have the same
block list and counter. So the order in which pointers are freed does not
matter, freeing everything restores the initial heap, and `kfree` undoes
`kmalloc`. -/
theorem heap_canonical {r₁ r₂ : HeapRun} (h₁ : HeapReach r₁) (h₂ : HeapReach r₂) :
    ((∀ x, x ∈ r₁.liveBlocks ↔ x ∈ r₂.liveBlocks) → SameHeap r₁.heap r₂.heap)
      ∧ (∀ ps qs, ps.Nodup → ps.Perm qs → (∀ p ∈ ps, p ∈ r₁.live) →
          SameHeap (freeAll r₁.heap ps) (freeAll r₁.heap qs))
      ∧ (∀ ps m, ps.Perm r₁.live → SameHeap (freeAll r₁.heap ps) (heapInit m))
      ∧ ∀ n : UInt32,
          SameHeap (kfree (kmalloc r₁.heap n.toNat).2 (kmalloc r₁.heap n.toNat).1) r₁.heap := by
  obtain ⟨bs₁, hwf₁, hh₁⟩ := heapReach_inv h₁
  obtain ⟨bs₂, hwf₂, hh₂⟩ := heapReach_inv h₂
  have hheld : ∀ {ps : List Nat}, (∀ p ∈ ps, p ∈ r₁.live) →
      ∀ p ∈ ps, ∃ b ∈ Tiling.used bs₁, p = b.addr + 16 :=
    fun hps p hp => (hh₁.mem_iff p).mp (hps p hp)
  refine ⟨fun h => ?_, fun ps qs hnd hperm hps => ?_, fun ps m hperm => ?_, fun n => ?_⟩
  · refine hwf₁.sameHeap hwf₂ fun c => ⟨fun hc => ?_, fun hc => ?_⟩
    · exact (mem_liveBlocks hwf₂ hh₂ (used_free hc)).mp
        ((h _).mp ((mem_liveBlocks hwf₁ hh₁ (used_free hc)).mpr hc))
    · exact (mem_liveBlocks hwf₁ hh₁ (used_free hc)).mp
        ((h _).mpr ((mem_liveBlocks hwf₂ hh₂ (used_free hc)).mpr hc))
  · obtain ⟨bs, hwf, hused⟩ := freeAll_refines hwf₁ hnd (hheld hps)
    obtain ⟨bs', hwf', hused'⟩ := freeAll_refines hwf₁ (hperm.nodup_iff.mp hnd)
      (hheld fun p hp => hps p (hperm.mem_iff.mpr hp))
    refine hwf.sameHeap hwf' fun c => ?_
    rw [hused, hused', hperm.mem_iff]
  · obtain ⟨bs, hwf, hused⟩ := freeAll_refines hwf₁ (hperm.nodup_iff.mpr hh₁.nodup)
      (hheld fun p hp => hperm.mem_iff.mp hp)
    refine hwf.sameHeap (heapInit_wf m) fun c => ?_
    rw [hused, hperm.mem_iff]
    constructor
    · rintro ⟨hc, hnot⟩
      exact absurd ((hh₁.mem_iff _).mpr ⟨c, hc, rfl⟩) hnot
    · intro hc
      simp [Tiling.used] at hc
  · exact kfree_kmalloc_sameHeap hwf₁ n.toNat

section TwoHistories

def HeapRun.alloc (r : HeapRun) (n : UInt32) : HeapRun :=
  ⟨(kmalloc r.heap n.toNat).2, addLive (kmalloc r.heap n.toNat).1 r.live⟩

def HeapRun.release (r : HeapRun) (p : Nat) : HeapRun := ⟨kfree r.heap p, r.live.erase p⟩

def HeapRun.start (m : Mem) : HeapRun := ⟨heapInit m, []⟩

/-- Blocks of 16 and 64 bytes, of which the first is free again. -/
def shortHistory : HeapRun :=
  (((HeapRun.start fun _ => 0#8).alloc 16).alloc 64).release (HEAP_START + 16)

/-- The same with a third block in between, on other memory. -/
def longHistory : HeapRun :=
  (((((HeapRun.start fun _ => 0xFF#8).alloc 16).alloc 64).alloc 100).release
    (HEAP_START + 16)).release (HEAP_START + 128)

theorem shortHistory_reach : HeapReach shortHistory :=
  (((HeapReach.init fun _ => 0#8).step (.kmalloc _ 16)).step (.kmalloc _ 64)).step
    (.kfree _ _ (by decide +kernel))

theorem longHistory_reach : HeapReach longHistory :=
  (((((HeapReach.init fun _ => 0xFF#8).step (.kmalloc _ 16)).step (.kmalloc _ 64)).step
    (.kmalloc _ 100)).step (.kfree _ _ (by decide +kernel))).step (.kfree _ _ (by decide +kernel))

theorem heap_canonical_histories : SameHeap shortHistory.heap longHistory.heap := by
  have hlive : shortHistory.liveBlocks = longHistory.liveBlocks := by decide +kernel
  refine (heap_canonical shortHistory_reach longHistory_reach).1 fun x => ?_
  rw [hlive]

end TwoHistories

end Matryoshka
