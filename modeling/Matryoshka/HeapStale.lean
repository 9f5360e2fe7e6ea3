import Matryoshka.HeapRun

/-!
# Pointers that are freed twice

`kfree` knows a header by its magic number and turns down a block whose
`is_free` byte is set. After a merge the header of a freed block is no
longer in the list, and later splits write new headers across its bytes.
`double_free_harmless` says that the two checks go on turning it down, for
as long as no client writes into the sixteen bytes.

The argument is about single bytes. Headers start at multiples of eight,
so a `size` or a `next` never reaches the lower half of an eight-byte
word, which is where the magic number and the flag of any header are. A
header eight bytes below an old one puts its flag on the lowest byte of
the old magic number, and one eight bytes above puts its own magic number
on the old flag. Either way the old header stays `Dead`.

A client that has forged an old header can free it again. That call takes
the forged size off `heap_used` but leaves the list alone, so the run
invariant below is about the list and not about the counter.
-/

namespace Matryoshka

open ByteMem Tiling

/-! ## Dead headers -/

/-- `kfree` turns down the header at `p`. -/
def Dead (m : Mem) (p : Nat) : Prop := blockMagic m p ≠ HEAP_MAGIC ∨ blockIsFree m p = true

/-- The lower half of an eight-byte word. -/
def LowHalf (x : Nat) : Prop := x % 8 < 4

section Dead

variable {m m' : Mem} {p q sz nxt : Nat} {f : Bool}

theorem Dead.congr (h : Dead m q) (hmagic : ∀ x, q ≤ x → x < q + 4 → m' x = m x)
    (hflag : m' (q + 8) = m (q + 8)) : Dead m' q := by
  rcases h with h | h
  · refine Or.inl ?_
    rwa [blockMagic, load32_congr hmagic]
  · refine Or.inr ?_
    rwa [blockIsFree, hflag]

theorem Dead.of_agree (h : Dead m q) (hq : 8 ∣ q) (hm : Agree LowHalf m m') : Dead m' q :=
  h.congr (fun x _ _ => (hm x (show x % 8 < 4 by omega)).symm)
    (hm (q + 8) (show (q + 8) % 8 < 4 by omega)).symm

theorem agree_setSize (hp : 8 ∣ p) : Agree LowHalf m (setSize m p sz) := by
  intro x (hx : x % 8 < 4)
  exact (store32_of_outside (by omega)).symm

theorem agree_setNext (hp : 8 ∣ p) : Agree LowHalf m (setNext m p nxt) := by
  intro x (hx : x % 8 < 4)
  exact (store32_of_outside (by omega)).symm

theorem agree_joinNext (hp : 8 ∣ p) : Agree LowHalf m (joinNext m p sz nxt) :=
  fun x hx => (agree_setSize hp x hx).trans (agree_setNext hp x hx)

/-- The lowest byte of the magic number, which no flag is equal to. -/
theorem magic_low (h : blockMagic m p = HEAP_MAGIC) : m p = 0xEF#8 := by
  have h0 := (m p).isLt
  have h1 := (m (p + 1)).isLt
  have h2 := (m (p + 2)).isLt
  have h3 := (m (p + 3)).isLt
  apply BitVec.eq_of_toNat_eq
  simp only [blockMagic, load32, BitVec.toNat_ofNat, HEAP_MAGIC] at h ⊢
  omega

theorem Dead.setIsFree (h : Dead m q) (hp : 8 ∣ p) (hq : 8 ∣ q) (hf : p = q → f = true) :
    Dead (setIsFree m p f) q := by
  by_cases heq : p = q
  · subst heq
    exact Or.inr (by rw [blockIsFree_setIsFree, hf rfl])
  · by_cases hover : p + 8 = q
    · -- the flag lands on the lowest byte of the magic number
      subst hover
      refine Or.inl fun hmagic => ?_
      have hlow := magic_low hmagic
      rw [Matryoshka.setIsFree, store8_self] at hlow
      cases f <;> cases hlow
    · exact h.congr (fun x _ _ => store8_of_ne (by omega)) (store8_of_ne (by omega))

theorem Dead.setMagic (h : Dead m q) (hp : 8 ∣ p) (hq : 8 ∣ q) (hne : p ≠ q) :
    Dead (setMagic m p HEAP_MAGIC) q := by
  by_cases hover : p = q + 8
  · -- the magic number lands on the flag
    subst hover
    have hlow : Matryoshka.setMagic m (q + 8) HEAP_MAGIC (q + 8) = 0xEF#8 :=
      magic_low (by rw [blockMagic_setMagic]; rfl)
    refine Or.inr ?_
    rw [blockIsFree, hlow]
    rfl
  · exact h.congr (fun x _ _ => store32_of_outside (by omega)) (store32_of_outside (by omega))

/-- A new free header kills nothing, and is itself turned down. -/
theorem Dead.writeHeader (h : Dead m q) (hp : 8 ∣ p) (hq : 8 ∣ q) :
    Dead (writeHeader m p sz true nxt) q := by
  by_cases heq : p = q
  · subst heq
    exact Or.inr (by simp [Matryoshka.writeHeader])
  · have hsize : Dead (setSize (Matryoshka.setMagic m p HEAP_MAGIC) p sz) q :=
      (h.setMagic hp hq heq).of_agree hq (agree_setSize hp)
    exact (hsize.setIsFree hp hq fun _ => rfl).of_agree hq (agree_setNext hp)

theorem Dead.splitBlock {b : Seg} {n : Nat} (h : Dead m q) (hb : HeaderAt m b nxt)
    (hn : n ≤ b.size) (hlo : 16 ≤ b.addr) (hhi : b.addr + 16 + b.size < 2 ^ 32)
    (hp : 8 ∣ b.addr) (hd : 8 ∣ n) (hq : 8 ∣ q) : Dead (splitBlock m b.addr n) q := by
  by_cases hsplit : n + 16 + 16 ≤ b.size
  · rw [splitBlock_eq hb hsplit hhi]
    exact (h.writeHeader (by omega) hq).of_agree hq (agree_joinNext hp)
  · rwa [splitBlock_of_small hb hn hsplit hhi hlo]

end Dead

/-! ## The operations -/

/-- Well formed but for the counter. -/
def ListWf (s : Heap) (bs : List Seg) : Prop :=
  HeapWf { s with heapUsed := sizeofBlock + usedBytes sizeofBlock bs } bs

section Ops

variable {s : Heap} {bs : List Seg} {live : List Nat} {n q : Nat}

theorem HeapWf.listWf (h : HeapWf s bs) : ListWf s bs := by
  rw [ListWf, ← h.used]
  exact h

theorem HeapWf.addr_dvd (h : HeapWf s bs) {b : Seg} (hb : b ∈ bs) : 8 ∣ b.addr :=
  h.canon.addr_dvd (by decide) (by decide) hb

/-- `kmalloc` brings no dead header back but the one it returns. -/
theorem Dead.kmalloc (h : HeapWf s bs) (hd : Dead s.mem q) (hq : 8 ∣ q)
    (hne : (kmalloc s n).1 ≠ q + 16) : Dead (kmalloc s n).2.mem q := by
  rcases kmalloc_cases h n with hk | ⟨hn, p, bs', ha⟩
  · rwa [hk]
  · have hfind := h.findFreeBlock_eq (align8 n)
    rw [ha] at hfind
    obtain ⟨pre, b, post, rfl, -, hf, rfl, -⟩ := allocate_eq_some ha
    have hmem : b ∈ pre ++ b :: post := by simp
    simp only [fits, Bool.and_eq_true, decide_eq_true_eq] at hf
    obtain ⟨-, hb, -⟩ := linked_append.mp h.linked
    rw [kmalloc_eq h hn hmem hfind] at hne ⊢
    have hsplit := hd.splitBlock hb hf.2 (h.addr_ge hmem) (h.lt hmem) (h.addr_dvd hmem)
      (align8_dvd n) hq
    exact hsplit.setIsFree (h.addr_dvd hmem) hq fun heq => absurd (by rw [heq]) hne

/-- The merge loop writes sizes and next pointers only. -/
theorem mergeFreeBlocks_agreeFrom :
    ∀ {bs : List Seg} {m : Mem} {b : Seg} {a e : Nat} (fuel : Nat), Linked m (b :: bs) 0 →
      Tiles sizeofBlock a (b :: bs) e → 0 < a → e < 2 ^ 32 → (∀ c ∈ b :: bs, 8 ∣ c.addr) →
      Agree LowHalf m (mergeFreeBlocks m fuel b.addr) := by
  intro bs
  induction bs with
  | nil =>
      intro m b a e fuel hl _ _ _ _ x _
      cases fuel with
      | zero => rfl
      | succ fuel =>
          have hnext : blockNext m b.addr = 0 := hl.1.next
          rw [mergeFreeBlocks, if_pos (Or.inr hnext)]
  | cons c l ih =>
      intro m b a e fuel hl ht ha he hal x hx
      cases fuel with
      | zero => rfl
      | succ fuel =>
          rw [mergeFreeBlocks_step hl ht ha he]
          by_cases hfree : (b.free && c.free) = true
          · rw [if_pos hfree]
            rw [Bool.and_eq_true] at hfree
            have hb : 8 ∣ b.addr := hal b (List.mem_cons_self ..)
            refine (agree_joinNext hb x hx).trans (ih fuel (linked_joinNext hl ht he hfree.1)
              (ht.join true) ha he (fun d hd => ?_) x hx)
            rcases List.mem_cons.mp hd with rfl | hd
            · exact hb
            · exact hal d (by simp [hd])
          · rw [if_neg hfree]
            have hal' : ∀ d ∈ c :: l, 8 ∣ d.addr := fun d hd => hal d (List.mem_cons_of_mem _ hd)
            exact ih fuel hl.2 ht.2 (by omega) he hal' x hx

theorem mergeFreeBlocks_agree {m : Mem} {a e : Nat} (hl : Linked m bs 0)
    (ht : Tiles sizeofBlock a bs e) (ha : 0 < a) (he : e < 2 ^ 32) (hne : a ≠ e)
    (hal : ∀ c ∈ bs, 8 ∣ c.addr) (fuel : Nat) : Agree LowHalf m (mergeFreeBlocks m fuel a) := by
  cases bs with
  | nil => exact absurd ht hne
  | cons b l =>
      rw [← ht.1]
      exact mergeFreeBlocks_agreeFrom fuel hl ht ha he hal

theorem kfree_of_dead (hd : Dead s.mem q) (hlt : q + 16 < 2 ^ 32) : kfree s (q + 16) = s := by
  unfold kfree
  rw [if_neg (by omega), u32_block hlt]
  by_cases hmagic : blockMagic s.mem q = HEAP_MAGIC
  · rcases hd with hd | hd
    · exact absurd hmagic hd
    · simp only [hmagic, hd, ne_eq, not_true_eq_false, if_false, if_true]
  · simp only [hmagic, ne_eq, not_false_eq_true, if_true]

theorem kfree_of_not_dead (hd : ¬Dead s.mem q) (hlt : q + 16 < 2 ^ 32) :
    ∃ u, kfree s (q + 16) =
      { s with
        mem := mergeFreeBlocks (setIsFree s.mem q true) heapFuel s.heapStart
        heapUsed := u } := by
  rw [Dead, not_or, not_not] at hd
  unfold kfree
  rw [if_neg (by omega), u32_block hlt]
  simp only [hd.1, hd.2, ne_eq, not_true_eq_false, if_false]
  exact ⟨_, rfl⟩

/-- A header that `kfree` accepts shares its flag with no header of the list but
the one at its own address. -/
theorem linked_setIsFree {m : Mem} (hl : Linked m bs 0) {a e : Nat}
    (ht : Tiles sizeofBlock a bs e) (hal : ∀ c ∈ bs, 8 ∣ c.addr) (hq : 8 ∣ q) (hd : ¬Dead m q) :
    Linked (setIsFree m q true) (markFree q bs) 0 := by
  by_cases hlisted : ∃ b ∈ bs, b.addr = q
  · obtain ⟨b, hb, rfl⟩ := hlisted
    exact hl.markFree ht hb
  · have hne : ∀ c ∈ bs, c.addr ≠ q := fun c hc heq => hlisted ⟨c, hc, heq⟩
    rw [markFree_of_ne hne]
    refine hl.congr fun c hc x hx1 hx2 => store8_of_ne fun heq => ?_
    have hdvd := hal c hc
    have hcq := hne c hc
    obtain ⟨_, hhead⟩ := hl.headerAt hc
    have hlow := magic_low hhead.magic
    rw [show c.addr = q + 8 by omega] at hlow
    refine hd (Or.inr ?_)
    rw [blockIsFree, hlow]
    rfl

/-- What `kfree` of an address that was once returned does to the list, and to
the headers that it turns down from then on. -/
structure Freed (s s' : Heap) (bs : List Seg) (q : Nat) (bs' : List Seg) : Prop where
  wf : ListWf s' bs'
  used : ∀ d, d ∈ Tiling.used bs' ↔ d ∈ Tiling.used bs ∧ d.addr ≠ q
  dead : Dead s'.mem q
  kept : ∀ x, 8 ∣ x → Dead s.mem x → Dead s'.mem x

theorem Freed.holds {s' : Heap} {bs' : List Seg} (hf : Freed s s' bs q bs')
    (hh : Holds live bs) : Holds (live.erase (q + 16)) bs' := by
  refine ⟨hh.nodup.erase _, fun p => ?_⟩
  rw [(hh.release q).mem_iff]
  simp only [mem_used_release, hf.used]

theorem not_dead_of_used (h : ListWf s bs) {b : Seg} (hb : b ∈ Tiling.used bs) :
    ¬Dead s.mem b.addr := by
  obtain ⟨_, hhead⟩ := h.linked.headerAt (List.mem_filter.mp hb).1
  rintro (hd | hd)
  · exact hd hhead.magic
  · exact absurd (hd.symm.trans (hhead.isFree.trans (used_free hb))) (by decide)

theorem kfree_freed (h : ListWf s bs) (hq : 8 ∣ q) (hlt : q + 16 < 2 ^ 32) :
    ∃ bs', Freed s (kfree s (q + 16)) bs q bs' := by
  by_cases hd : Dead s.mem q
  · rw [kfree_of_dead hd hlt]
    refine ⟨bs, h, fun d => ⟨fun hmem => ⟨hmem, ?_⟩, And.left⟩, hd, fun _ _ hx => hx⟩
    rintro rfl
    exact not_dead_of_used h hmem hd
  · obtain ⟨u, hk⟩ := kfree_of_not_dead hd hlt
    have hal : ∀ c ∈ bs, 8 ∣ c.addr := fun c hc => HeapWf.addr_dvd h hc
    have hmark := linked_setIsFree h.linked h.canon.tiles hal hq hd
    have htiles := markFree_tiles (p := q) h.canon.tiles
    have hlen : (markFree q bs).length ≤ heapFuel := by
      rw [markFree, List.length_map]
      exact Nat.le_of_lt (HeapWf.length_lt h)
    have hmal : ∀ c ∈ markFree q bs, 8 ∣ c.addr := by
      intro c hc
      obtain ⟨b, hb, haddr⟩ := exists_of_mem_markFree hc
      exact haddr ▸ hal b hb
    have hmerged := (mergeFreeBlocks_coalesce hmark htiles (by decide) (by decide) (by decide)
      hlen).1
    have hlow := mergeFreeBlocks_agree hmark htiles (by decide) (by decide) (by decide) hmal
      heapFuel
    have hstart : s.heapStart = HEAP_START := h.start
    rw [hk, hstart]
    refine ⟨release sizeofBlock q bs, ⟨rfl, h.total, h.canon.release (by decide), hmerged, rfl⟩,
      fun d => mem_used_release, ?_, fun x hx hdead => ?_⟩
    · exact Dead.of_agree (Or.inr blockIsFree_setIsFree) hq hlow
    · exact (hdead.setIsFree hq hx fun _ => rfl).of_agree hx hlow

/-- `kmalloc` reads no counter. -/
theorem kmalloc_withUsed (s : Heap) (n u : Nat) :
    ∃ u', kmalloc { s with heapUsed := u } n =
      ((kmalloc s n).1, { (kmalloc s n).2 with heapUsed := u' }) := by
  by_cases hn : n = 0
  · exact ⟨u, by simp only [kmalloc, if_pos hn]⟩
  · by_cases hfind : findFreeBlock s.mem (align8 n) heapFuel s.heapStart = 0
    · exact ⟨u, by simp only [kmalloc, if_neg hn, if_pos hfind]⟩
    · refine ⟨(kmalloc { s with heapUsed := u } n).2.heapUsed, ?_⟩
      simp only [kmalloc, if_neg hn, if_neg hfind]

/-- What `kmalloc` does to the list and to the dead headers. -/
theorem kmalloc_listWf (h : ListWf s bs) (hh : Holds live bs) (n : Nat) :
    ∃ bs', ListWf (kmalloc s n).2 bs' ∧ Holds (addLive (kmalloc s n).1 live) bs'
      ∧ ∀ q, 8 ∣ q → Dead s.mem q → (kmalloc s n).1 ≠ q + 16 → Dead (kmalloc s n).2.mem q := by
  obtain ⟨bs', hkept⟩ := kmalloc_kept h hh n
  have hdead := fun q => Dead.kmalloc (q := q) (n := n) h
  obtain ⟨u, hk⟩ := kmalloc_withUsed s n (sizeofBlock + usedBytes sizeofBlock bs)
  rw [hk] at hkept hdead
  exact ⟨bs', hkept.wf.listWf, hkept.holds, fun q hq hd hne => hdead q hd hq hne⟩

end Ops

/-! ## Runs -/

/-- The heap, the pointers in use, every pointer `kmalloc` ever returned, and
those of them that were freed with no client write into their old header since. -/
structure StaleRun where
  heap : Heap
  live : List Nat
  returned : List Nat
  stale : List Nat

def StaleRun.allocated (r : StaleRun) (n : Nat) : StaleRun :=
  { heap := (kmalloc r.heap n).2
    live := addLive (kmalloc r.heap n).1 r.live
    returned := addLive (kmalloc r.heap n).1 r.returned
    stale := r.stale }

def StaleRun.freed (r : StaleRun) (p : Nat) : StaleRun :=
  { r with heap := kfree r.heap p, live := r.live.erase p, stale := p :: r.stale }

def StaleRun.written (r : StaleRun) (x : Nat) (v : BitVec 8) : StaleRun :=
  { r with
    heap := { r.heap with mem := store8 r.heap.mem x v }
    stale := r.stale.filter fun p => decide (x < p - sizeofBlock ∨ p ≤ x) }

/-- A call of `kmalloc` for any size, a call of `kfree` for NULL or for a pointer
that was ever returned, in use or not, or a client write to any byte that is in
no header of the list. -/
inductive StaleStep : StaleRun → StaleRun → Prop
  | kmalloc (r : StaleRun) (n : UInt32) : StaleStep r (r.allocated n.toNat)
  | kfreeNull (r : StaleRun) : StaleStep r { r with heap := kfree r.heap 0 }
  | kfree (r : StaleRun) (p : Nat) (hp : p ∈ r.returned) : StaleStep r (r.freed p)
  | write (r : StaleRun) (x : Nat) (v : BitVec 8)
      (hx : ∀ b ∈ r.heap.blocks, x < b.addr ∨ b.addr + sizeofBlock ≤ x) :
      StaleStep r (r.written x v)

/-- States reachable from `heap_init` on any memory. -/
inductive StaleReach : StaleRun → Prop
  | init (m : Mem) : StaleReach ⟨heapInit m, [], [], []⟩
  | step {r r' : StaleRun} : StaleReach r → StaleStep r r' → StaleReach r'

/-- The address of a header that a pointer can have been returned for. -/
structure HeaderAddr (q : Nat) : Prop where
  dvd : 8 ∣ q
  lt : q + 16 < 2 ^ 32

structure StaleInv (r : StaleRun) (bs : List Seg) : Prop where
  wf : ListWf r.heap bs
  holds : Holds r.live bs
  returned : ∀ p ∈ r.returned, ∃ q, HeaderAddr q ∧ p = q + 16
  subset : ∀ p ∈ r.stale, p ∈ r.returned
  stale : ∀ q, q + 16 ∈ r.stale → q + 16 ∈ r.live ∨ Dead r.heap.mem q

section Inv

variable {r r' : StaleRun} {bs : List Seg}

theorem mem_addLive {p q : Nat} {live : List Nat} :
    p ∈ addLive q live ↔ p ∈ live ∨ p = q ∧ q ≠ 0 := by
  by_cases hq : q = 0
  · simp [addLive, hq]
  · simp [addLive, hq, or_comm]

theorem subset_addLive {p q : Nat} {live : List Nat} (hp : p ∈ live) : p ∈ addLive q live :=
  mem_addLive.mpr (Or.inl hp)

theorem headerAddr_of_mem {s : Heap} (h : ListWf s bs) {b : Seg} (hb : b ∈ bs) :
    HeaderAddr b.addr := by
  have := HeapWf.lt h hb
  exact ⟨HeapWf.addr_dvd h hb, by omega⟩

/-- The segments are what the header list shows. -/
theorem exists_mem_blocks {s : Heap} (h : ListWf s bs) {b : Seg} (hb : b ∈ bs) :
    ∃ c ∈ s.blocks, c.addr = b.addr := by
  have hwf : HeapWf { s with heapUsed := sizeofBlock + usedBytes sizeofBlock bs } bs := h
  have hblocks : s.blocks = views bs := hwf.blocks_eq
  rw [← views_segs bs, ← hblocks] at hb
  obtain ⟨c, hc, rfl⟩ := List.mem_map.mp hb
  exact ⟨c, hc, rfl⟩

theorem StaleInv.headerAddr (h : StaleInv r bs) {q : Nat} (hq : q + 16 ∈ r.stale) :
    HeaderAddr q := by
  obtain ⟨q', hq', heq⟩ := h.returned _ (h.subset _ hq)
  obtain rfl : q = q' := by omega
  exact hq'

theorem StaleInv.allocated (h : StaleInv r bs) (n : Nat) :
    ∃ bs', StaleInv (r.allocated n) bs' := by
  obtain ⟨bs', hwf, hholds, hdead⟩ := kmalloc_listWf h.wf h.holds n
  refine ⟨bs', hwf, hholds, fun p hp => ?_, fun p hp => subset_addLive (h.subset p hp),
    fun q hq => ?_⟩
  · rcases mem_addLive.mp hp with hp | ⟨rfl, hne⟩
    · exact h.returned p hp
    · obtain ⟨b, hb, heq⟩ := (hholds.mem_iff _).mp (mem_addLive.mpr (Or.inr ⟨rfl, hne⟩))
      exact ⟨b.addr, headerAddr_of_mem hwf (List.mem_filter.mp hb).1, heq⟩
  · by_cases hnew : (kmalloc r.heap n).1 = q + 16
    · exact Or.inl (mem_addLive.mpr (Or.inr ⟨hnew.symm, by omega⟩))
    · rcases h.stale q hq with hlive | hd
      · exact Or.inl (subset_addLive hlive)
      · exact Or.inr (hdead q (h.headerAddr hq).dvd hd hnew)

theorem StaleInv.freed (h : StaleInv r bs) {p : Nat} (hp : p ∈ r.returned) :
    ∃ bs', StaleInv (r.freed p) bs' := by
  obtain ⟨q, hq, rfl⟩ := h.returned p hp
  obtain ⟨bs', hfreed⟩ := kfree_freed h.wf hq.dvd hq.lt
  refine ⟨bs', hfreed.wf, hfreed.holds h.holds, h.returned, fun p hmem => ?_, fun x hx => ?_⟩
  · rcases List.mem_cons.mp hmem with rfl | hmem
    · exact hp
    · exact h.subset p hmem
  · by_cases heq : x = q
    · subst heq
      exact Or.inr hfreed.dead
    · have hx : x + 16 ∈ r.stale := (List.mem_cons.mp hx).resolve_left (by omega)
      rcases h.stale x hx with hlive | hd
      · exact Or.inl ((List.mem_erase_of_ne (by omega)).mpr hlive)
      · exact Or.inr (hfreed.kept x (h.headerAddr hx).dvd hd)

/-- A write outside the headers of the list that reaches an old header takes its
pointer off `stale`. -/
theorem StaleInv.written (h : StaleInv r bs) {x : Nat} {v : BitVec 8}
    (hx : ∀ b ∈ r.heap.blocks, x < b.addr ∨ b.addr + sizeofBlock ≤ x) :
    StaleInv (r.written x v) bs := by
  have hout : ∀ b ∈ bs, x < b.addr ∨ b.addr + sizeofBlock ≤ x := by
    intro b hb
    obtain ⟨c, hc, heq⟩ := exists_mem_blocks h.wf hb
    exact heq ▸ hx c hc
  have hmem : ∀ p ∈ (r.written x v).stale, p ∈ r.stale ∧ (x < p - sizeofBlock ∨ p ≤ x) := by
    intro p hp
    obtain ⟨hold, hfar⟩ := List.mem_filter.mp hp
    exact ⟨hold, of_decide_eq_true hfar⟩
  refine ⟨?_, h.holds, h.returned, fun p hp => h.subset p (hmem p hp).1, fun q hq => ?_⟩
  · refine HeapWf.of_headers h.wf fun c hc y hy1 hy2 => store8_of_ne ?_
    have := hout c hc
    simp only [sizeofBlock] at this
    omega
  · obtain ⟨hold, hfar⟩ := hmem _ hq
    simp only [sizeofBlock] at hfar
    rcases h.stale q hold with hlive | hd
    · exact Or.inl hlive
    · exact Or.inr (hd.congr (fun y _ _ => store8_of_ne (by omega)) (store8_of_ne (by omega)))

theorem StaleStep.inv (h : StaleInv r bs) (hstep : StaleStep r r') : ∃ bs', StaleInv r' bs' := by
  cases hstep with
  | kmalloc n => exact h.allocated n.toNat
  | kfreeNull => exact ⟨bs, h⟩
  | kfree p hp => exact h.freed hp
  | write x v hx => exact ⟨bs, h.written hx⟩

theorem StaleReach.inv (h : StaleReach r) : ∃ bs, StaleInv r bs := by
  induction h with
  | init m =>
      exact ⟨_, (heapInit_wf m).listWf, ⟨List.nodup_nil, by simp [Tiling.used]⟩, by simp, by simp,
        by simp⟩
  | step _ hstep ih =>
      obtain ⟨bs, hinv⟩ := ih
      exact hstep.inv hinv

end Inv

/-- **Double free is harmless.** In every reachable state, `kfree` of a pointer
that was freed, is not in use, and whose old header no client has written since
changes nothing: not the block list, not a byte of a header, not `heap_used`. -/
theorem double_free_harmless {r : StaleRun} (h : StaleReach r) {p : Nat} (hp : p ∈ r.stale)
    (hlive : p ∉ r.live) : kfree r.heap p = r.heap := by
  obtain ⟨bs, hinv⟩ := h.inv
  obtain ⟨q, hq, rfl⟩ := hinv.returned p (hinv.subset p hp)
  exact kfree_of_dead ((hinv.stale q hp).resolve_left hlive) hq.lt

def freshRun : StaleRun := ⟨heapInit fun _ => 0#8, [], [], []⟩

/-- Blocks of 8 and 16 bytes are freed and merged. Then a block of 16 bytes takes
the place of the first, and the header behind it starts eight bytes above the
old header of the second. -/
def overlaidRun : StaleRun :=
  ((((freshRun.allocated 8).allocated 16).freed (HEAP_START + 16)).freed
    (HEAP_START + 40)).allocated 16

theorem double_free_harmless_overlaid :
    kfree overlaidRun.heap (HEAP_START + 40) = overlaidRun.heap := by
  have hreach : StaleReach overlaidRun :=
    (((((StaleReach.init fun _ => 0#8).step (.kmalloc _ 8)).step (.kmalloc _ 16)).step
      (.kfree _ _ (by decide +kernel))).step (.kfree _ _ (by decide +kernel))).step
      (.kmalloc _ 16)
  exact double_free_harmless hreach (by decide +kernel) (by decide +kernel)

end Matryoshka
