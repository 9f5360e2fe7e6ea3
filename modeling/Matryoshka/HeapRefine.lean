import Matryoshka.Heap
import Matryoshka.Tiling

/-!
# The heap in memory refines a tiling

`Linked m bs q` says that the segments `bs` are laid out in memory as a
list of headers, each pointing to the next and the last one to `q`. Under
`HeapWf` the memory-level operations simulate the abstract ones:

- `findFreeBlock_eq`: the search returns what first fit returns;
- `kmalloc_refines`: `kmalloc` is `Tiling.allocate`;
- `kfree_refines`: `kfree` of a used block is `Tiling.release`.

Each simulation lemma also says which bytes the operation may change,
which is what keeps the payloads of the live blocks intact.
-/

namespace Matryoshka

open ByteMem Tiling

/-! ## Lists of headers in memory -/

structure HeaderAt (m : Mem) (b : Seg) (nxt : Nat) : Prop where
  magic : blockMagic m b.addr = HEAP_MAGIC
  size : blockSize m b.addr = b.size
  isFree : blockIsFree m b.addr = b.free
  next : blockNext m b.addr = nxt

/-- Where a list that continues at `q` starts. -/
def headAddr : List Seg → Nat → Nat
  | [], q => q
  | b :: _, _ => b.addr

def Linked (m : Mem) : List Seg → Nat → Prop
  | [], _ => True
  | b :: bs, q => HeaderAt m b (headAddr bs q) ∧ Linked m bs q

section Linked

variable {m m' : Mem} {b : Seg} {bs l₁ l₂ : List Seg} {a e q nxt : Nat}

theorem headAddr_append (l₁ l₂ : List Seg) (q : Nat) :
    headAddr (l₁ ++ l₂) q = headAddr l₁ (headAddr l₂ q) := by
  cases l₁ <;> rfl

theorem linked_append :
    Linked m (l₁ ++ l₂) q ↔ Linked m l₁ (headAddr l₂ q) ∧ Linked m l₂ q := by
  induction l₁ with
  | nil => simp [Linked]
  | cons b l ih => simp only [List.cons_append, Linked, ih, headAddr_append, and_assoc]

theorem HeaderAt.congr (hb : HeaderAt m b nxt)
    (h : ∀ x, b.addr ≤ x → x < b.addr + 16 → m' x = m x) : HeaderAt m' b nxt := by
  have hword : ∀ k, k + 4 ≤ 16 → load32 m' (b.addr + k) = load32 m (b.addr + k) :=
    fun k hk => load32_congr fun x h1 h2 => h x (by omega) (by omega)
  refine ⟨?_, ?_, ?_, ?_⟩
  · rw [← hb.magic, blockMagic, blockMagic]
    exact congrArg BitVec.toNat (hword 0 (by omega))
  · rw [← hb.size, blockSize, blockSize, hword 4 (by omega)]
  · rw [← hb.isFree, blockIsFree, blockIsFree, h _ (by omega) (by omega)]
  · rw [← hb.next, blockNext, blockNext, hword 12 (by omega)]

theorem Linked.congr (hl : Linked m bs q)
    (h : ∀ b ∈ bs, ∀ x, b.addr ≤ x → x < b.addr + 16 → m' x = m x) : Linked m' bs q := by
  induction bs with
  | nil => trivial
  | cons b l ih =>
      exact ⟨hl.1.congr (h b (List.mem_cons_self ..)),
        ih hl.2 fun c hc => h c (List.mem_cons_of_mem _ hc)⟩

theorem Linked.headerAt (hl : Linked m bs q) (hb : b ∈ bs) : ∃ nxt, HeaderAt m b nxt := by
  obtain ⟨pre, post, rfl⟩ := List.append_of_mem hb
  exact ⟨_, (linked_append.mp hl).2.1⟩

theorem tiles_length (ht : Tiles sizeofBlock a bs e) : a + 16 * bs.length ≤ e := by
  induction bs generalizing a with
  | nil => exact Nat.le_of_eq ht
  | cons b l ih =>
      have := ih ht.2
      simp only [sizeofBlock, List.length_cons] at this ⊢
      omega

/-- A block of the list is replaced by a list laid out in its place: the blocks
around it stay linked. -/
theorem Linked.replace {pre mid post : List Seg} (hl : Linked m (pre ++ b :: post) q)
    (ht : Tiles sizeofBlock a (pre ++ b :: post) e) (hmid : Linked m' mid (headAddr post q))
    (hhead : headAddr mid (headAddr post q) = b.addr)
    (hframe : ∀ x, x < b.addr ∨ b.addr + 16 + b.size ≤ x → m' x = m x) :
    Linked m' (pre ++ (mid ++ post)) q := by
  obtain ⟨hpre, -, hpost⟩ := linked_append.mp hl
  have hp := ht.pairwise
  simp only [List.pairwise_append, List.pairwise_cons, sizeofBlock] at hp
  obtain ⟨-, ⟨habove, -⟩, hbelow⟩ := hp
  refine linked_append.mpr ⟨?_, linked_append.mpr ⟨hmid, ?_⟩⟩
  · rw [headAddr_append, hhead]
    refine hpre.congr fun c hc x _ hx => hframe x (Or.inl ?_)
    have := hbelow c hc b (List.mem_cons_self ..)
    omega
  · refine hpost.congr fun c hc x hx _ => hframe x (Or.inr ?_)
    have := habove c hc
    omega

theorem tiles_head (ht : Tiles sizeofBlock a (b :: bs) e) : headAddr (b :: bs) q = a := ht.1

end Linked

/-! ## Well-formed heaps -/

structure HeapWf (s : Heap) (bs : List Seg) : Prop where
  start : s.heapStart = HEAP_START
  total : s.heapTotal = HEAP_INITIAL
  canon : Canonical sizeofBlock 8 HEAP_START (HEAP_START + HEAP_INITIAL) bs
  linked : Linked s.mem bs 0
  used : s.heapUsed = sizeofBlock + usedBytes sizeofBlock bs

section Wf

variable {s : Heap} {bs : List Seg} {b : Seg}

theorem HeapWf.mem_bounds (h : HeapWf s bs) (hb : b ∈ bs) :
    HEAP_START ≤ b.addr ∧ b.addr + 16 + b.size ≤ HEAP_START + HEAP_INITIAL :=
  h.canon.tiles.mem_bounds hb

theorem HeapWf.addr_ge (h : HeapWf s bs) (hb : b ∈ bs) : 16 ≤ b.addr := by
  have := (h.mem_bounds hb).1
  simp only [HEAP_START] at this
  omega

theorem HeapWf.addr_pos (h : HeapWf s bs) (hb : b ∈ bs) : b.addr ≠ 0 := by
  have := h.addr_ge hb
  omega

theorem HeapWf.lt (h : HeapWf s bs) (hb : b ∈ bs) : b.addr + 16 + b.size < 2 ^ 32 := by
  have := (h.mem_bounds hb).2
  simp only [HEAP_START, HEAP_INITIAL] at this
  omega

theorem HeapWf.length_lt (h : HeapWf s bs) : bs.length < heapFuel := by
  have := tiles_length h.canon.tiles
  simp only [HEAP_START, HEAP_INITIAL, heapFuel, sizeofBlock] at this ⊢
  omega

theorem HeapWf.headAddr (h : HeapWf s bs) : headAddr bs 0 = s.heapStart := by
  cases bs with
  | nil =>
      have : HEAP_START = HEAP_START + HEAP_INITIAL := h.canon.tiles
      simp [HEAP_INITIAL] at this
  | cons b l => rw [tiles_head h.canon.tiles, h.start]

/-- The header of a block of a tiling overlaps no other block. -/
theorem header_disjoint {a e : Nat} (ht : Tiles sizeofBlock a bs e) {c : Seg}
    (hb : b ∈ bs) (hc : c ∈ bs) (hne : b.addr ≠ c.addr) :
    b.addr + 16 + b.size ≤ c.addr ∨ c.addr + 16 + c.size ≤ b.addr := by
  rcases ht.apart hb hc with rfl | hapart
  · exact absurd rfl hne
  · exact hapart

end Wf

/-! ## The search -/

/-- The pointer-chasing search is first fit. -/
theorem findFreeBlock_eq {m : Mem} {n : Nat} :
    ∀ {bs : List Seg} {fuel : Nat}, Linked m bs 0 → (∀ b ∈ bs, b.addr ≠ 0) →
      bs.length < fuel →
      findFreeBlock m n fuel (headAddr bs 0) =
        ((allocate sizeofBlock 16 n bs).map Prod.fst).getD 0
  | [], fuel + 1, _, _, _ => by simp [findFreeBlock, headAddr, allocate]
  | b :: bs, fuel + 1, hl, hne, hlen => by
      obtain ⟨hb, hl⟩ := hl
      have hb0 : b.addr ≠ 0 := hne b (List.mem_cons_self ..)
      have ih := @findFreeBlock_eq m n bs fuel hl
        (fun c hc => hne c (List.mem_cons_of_mem _ hc))
        (by simp only [List.length_cons] at hlen; omega)
      have hfit : (blockIsFree m b.addr && decide (n ≤ blockSize m b.addr)) = fits n b := by
        rw [hb.isFree, hb.size, fits]
      show findFreeBlock m n (fuel + 1) b.addr = _
      rw [findFreeBlock, if_neg hb0, if_neg (not_not.mpr hb.magic), hfit, allocate]
      by_cases hf : fits n b = true
      · rw [if_pos hf, if_pos hf]
        rfl
      · rw [if_neg hf, if_neg hf, hb.next, ih, Option.map_map]
        rfl

theorem HeapWf.findFreeBlock_eq {s : Heap} {bs : List Seg} (h : HeapWf s bs) (n : Nat) :
    findFreeBlock s.mem n heapFuel s.heapStart =
      ((allocate sizeofBlock 16 n bs).map Prod.fst).getD 0 := by
  rw [← h.headAddr]
  exact Matryoshka.findFreeBlock_eq h.linked (fun b hb => h.addr_pos hb) h.length_lt

/-! ## Splitting -/

/-- A header written field by field, as `heap_init` and `split_block` do. -/
def writeHeader (m : Mem) (p sz : Nat) (f : Bool) (nxt : Nat) : Mem :=
  setNext (setIsFree (setSize (setMagic m p HEAP_MAGIC) p sz) p f) p nxt

theorem headerAt_write (m : Mem) (p sz nxt : Nat) (f : Bool) (hsz : sz < 2 ^ 32)
    (hnxt : nxt < 2 ^ 32) : HeaderAt (writeHeader m p sz f nxt) ⟨p, sz, f⟩ nxt := by
  unfold writeHeader
  refine ⟨?_, ?_, ?_, ?_⟩
  · simp [u32, HEAP_MAGIC]
  · simp [u32_of_lt hsz]
  · simp
  · simp [u32_of_lt hnxt]

theorem writeHeader_of_outside {m : Mem} {p sz nxt x : Nat} {f : Bool}
    (h : x < p ∨ p + 16 ≤ x) : writeHeader m p sz f nxt x = m x := by
  rw [writeHeader, setNext_of_outside h, setIsFree_of_outside h, setSize_of_outside h,
    setMagic_of_outside h]

/-- A block large enough gets a new header behind its first `n` bytes. -/
theorem splitBlock_eq {m : Mem} {b : Seg} {n nxt : Nat} (hb : HeaderAt m b nxt)
    (hsplit : n + 16 + 16 ≤ b.size) (hhi : b.addr + 16 + b.size < 2 ^ 32) :
    splitBlock m b.addr n =
      setNext (setSize (writeHeader m (b.addr + 16 + n) (b.size - n - 16) true nxt) b.addr n)
        b.addr (b.addr + 16 + n) := by
  have hu : u32 (n + 16 + 16) = n + 16 + 16 := u32_of_lt (by omega)
  have hq : u32 (b.addr + 16 + n) = b.addr + 16 + n := u32_of_lt (by omega)
  have hrest : u32 (b.size + 2 ^ 32 - u32 (n + 16)) = b.size - n - 16 := by
    simp only [u32]
    omega
  have h1 : HeaderAt (setMagic m (b.addr + 16 + n) HEAP_MAGIC) b nxt :=
    hb.congr fun x _ _ => setMagic_of_outside (by omega)
  have h2 : HeaderAt (setIsFree (setSize (setMagic m (b.addr + 16 + n) HEAP_MAGIC)
      (b.addr + 16 + n) (b.size - n - 16)) (b.addr + 16 + n) true) b nxt :=
    h1.congr fun x _ _ => by
      rw [setIsFree_of_outside (by omega), setSize_of_outside (by omega)]
  simp only [splitBlock, sizeofBlock, hu, hq, hb.size]
  rw [if_pos hsplit, h1.size, hrest, h2.next, writeHeader]

theorem splitBlock_of_small {m : Mem} {b : Seg} {n nxt : Nat} (hb : HeaderAt m b nxt)
    (hn : n ≤ b.size) (hsmall : ¬n + 16 + 16 ≤ b.size) (hhi : b.addr + 16 + b.size < 2 ^ 32)
    (hlo : 16 ≤ b.addr) : splitBlock m b.addr n = m := by
  rw [splitBlock, u32_of_lt (by simp only [sizeofBlock]; omega), hb.size, sizeofBlock,
    if_neg hsmall]

/-- `kmalloc`'s split and mark, as a memory transformer: the carved list is laid
out in place of `b`, and nothing outside `b` changes. -/
theorem splitBlock_refines {m : Mem} {b : Seg} {n nxt : Nat} (hb : HeaderAt m b nxt)
    (hf : fits n b = true) (hlo : 16 ≤ b.addr) (hhi : b.addr + 16 + b.size < 2 ^ 32) :
    Linked (setIsFree (splitBlock m b.addr n) b.addr false) (carve sizeofBlock 16 n b) nxt
      ∧ ∀ x, x < b.addr ∨ b.addr + 16 + b.size ≤ x →
          setIsFree (splitBlock m b.addr n) b.addr false x = m x := by
  have hn : n ≤ b.size := by
    simp only [fits, Bool.and_eq_true, decide_eq_true_eq] at hf
    exact hf.2
  have hnxt : nxt < 2 ^ 32 := by
    rw [← hb.next]
    exact BitVec.isLt _
  by_cases hsplit : n + 16 + 16 ≤ b.size
  · have hq : u32 (b.addr + 16 + n) = b.addr + 16 + n := u32_of_lt (by omega)
    have hnew := headerAt_write m (b.addr + 16 + n) (b.size - n - 16) nxt true (by omega) hnxt
    have hold : HeaderAt (writeHeader m (b.addr + 16 + n) (b.size - n - 16) true nxt) b nxt :=
      hb.congr fun x _ _ => writeHeader_of_outside (by omega)
    rw [splitBlock_eq hb hsplit hhi, carve, sizeofBlock, if_pos hsplit]
    refine ⟨⟨⟨?_, ?_, ?_, ?_⟩, ?_, trivial⟩, ?_⟩
    · simpa using hold.magic
    · simp [u32_of_lt (show n < 2 ^ 32 by omega)]
    · simp
    · simp [headAddr, hq]
    · refine hnew.congr fun x hx _ => ?_
      simp only at hx
      rw [setIsFree_of_outside (by omega), setNext_of_outside (by omega),
        setSize_of_outside (by omega)]
    · intro x hx
      rw [setIsFree_of_outside (by omega), setNext_of_outside (by omega),
        setSize_of_outside (by omega), writeHeader_of_outside (by omega)]
  · rw [splitBlock_of_small hb hn hsplit hhi hlo, carve, sizeofBlock, if_neg hsplit]
    refine ⟨⟨⟨?_, ?_, ?_, ?_⟩, trivial⟩, ?_⟩
    · simpa using hb.magic
    · simpa using hb.size
    · simp
    · simpa [headAddr] using hb.next
    · exact fun x hx => setIsFree_of_outside (by omega)

/-! ## Allocation -/

section Kmalloc

variable {s : Heap} {bs bs' : List Seg} {n p : Nat}

theorem kmalloc_zero (s : Heap) : kmalloc s 0 = (0, s) := rfl

theorem kmalloc_none (h : HeapWf s bs)
    (ha : allocate sizeofBlock 16 (align8 n) bs = none) : kmalloc s n = (0, s) := by
  unfold kmalloc
  split
  · rfl
  · simp only [h.findFreeBlock_eq, ha, Option.map_none, Option.getD_none, if_true]

/-- What `kmalloc` writes, once the search has found `b`. -/
theorem kmalloc_eq (h : HeapWf s bs) (hn : n ≠ 0) {b : Seg} (hb : b ∈ bs)
    (hfind : findFreeBlock s.mem (align8 n) heapFuel s.heapStart = b.addr) :
    kmalloc s n = (b.addr + 16,
      { s with
        mem := setIsFree (splitBlock s.mem b.addr (align8 n)) b.addr false
        heapUsed := u32 (s.heapUsed + sizeofBlock
          + blockSize (setIsFree (splitBlock s.mem b.addr (align8 n)) b.addr false) b.addr) }) := by
  have hlt := h.lt hb
  unfold kmalloc
  rw [if_neg hn]
  simp only [hfind, if_neg (h.addr_pos hb)]
  rw [u32_of_lt (show b.addr + sizeofBlock < 2 ^ 32 by simp only [sizeofBlock]; omega)]
  rfl

/-- `kmalloc` is first-fit allocation, and it writes inside the free block it
picks only. -/
theorem kmalloc_refines (h : HeapWf s bs) (hn : n ≠ 0)
    (ha : allocate sizeofBlock 16 (align8 n) bs = some (p, bs')) :
    (kmalloc s n).1 = p + 16 ∧ HeapWf (kmalloc s n).2 bs'
      ∧ ∃ b ∈ bs, b.free = true ∧ b.addr = p ∧
          ∀ x, x < p ∨ p + 16 + b.size ≤ x → (kmalloc s n).2.mem x = s.mem x := by
  have hfind := h.findFreeBlock_eq (align8 n)
  rw [ha] at hfind
  obtain ⟨pre, b, post, rfl, -, hf, rfl, rfl⟩ := allocate_eq_some ha
  have hmem : b ∈ pre ++ b :: post := by simp
  have hbf : b.free = true := by
    simp only [fits, Bool.and_eq_true] at hf
    exact hf.1
  obtain ⟨-, hb, -⟩ := linked_append.mp h.linked
  obtain ⟨hsplit, hframe⟩ := splitBlock_refines hb hf (h.addr_ge hmem) (h.lt hmem)
  have hcanon := h.canon.carve_split 16 (by decide) (align8_dvd n) hf
  obtain ⟨rest, hcarve, -⟩ := carve_eq_cons sizeofBlock 16 (align8 n) b
  have hsize : blockSize (setIsFree (splitBlock s.mem b.addr (align8 n)) b.addr false) b.addr
      = carved sizeofBlock 16 (align8 n) b := by
    rw [hcarve] at hsplit
    exact hsplit.1.size
  rw [kmalloc_eq h hn hmem hfind, hsize]
  refine ⟨rfl, ⟨h.start, h.total, hcanon, ?_, ?_⟩, b, hmem, hbf, rfl, hframe⟩
  · exact h.linked.replace h.canon.tiles hsplit (by rw [hcarve]; rfl) hframe
  · have hle := hcanon.tiles.usedBytes_le
    simp only [HEAP_START, HEAP_INITIAL] at hle
    rw [usedBytes_carve_split hf] at hle ⊢
    simp only [h.used, sizeofBlock] at hle ⊢
    rw [u32_of_lt (by omega)]
    omega

end Kmalloc

/-! ## Merging -/

/-- The two writes by which a block takes in the one after it. -/
def joinNext (m : Mem) (p sz nxt : Nat) : Mem := setNext (setSize m p sz) p nxt

theorem joinNext_of_outside {m : Mem} {p sz nxt x : Nat} (h : x < p ∨ p + 16 ≤ x) :
    joinNext m p sz nxt x = m x := by
  rw [joinNext, setNext_of_outside h, setSize_of_outside h]

section Merge

variable {m : Mem} {b c : Seg} {l : List Seg} {a e : Nat}

/-- One step of the merge loop: two free neighbours become one block, from any
other pair the loop goes on to the second. -/
theorem mergeFreeBlocks_step (hl : Linked m (b :: c :: l) 0)
    (ht : Tiles sizeofBlock a (b :: c :: l) e) (ha : 0 < a) (he : e < 2 ^ 32) (fuel : Nat) :
    mergeFreeBlocks m (fuel + 1) b.addr =
      if b.free && c.free then
        mergeFreeBlocks (joinNext m b.addr (b.size + sizeofBlock + c.size) (headAddr l 0)) fuel
          b.addr
      else mergeFreeBlocks m fuel c.addr := by
  obtain ⟨hb, hc, -⟩ := hl
  obtain ⟨hba, hca, htl⟩ := ht
  simp only [sizeofBlock] at hca htl
  have hle := htl.le
  have hnext : blockNext m b.addr = c.addr := hb.next
  have hguard : ¬(b.addr = 0 ∨ blockNext m b.addr = 0) := by
    rw [hnext]
    omega
  have hsz : u32 (b.size + sizeofBlock + c.size) = b.size + sizeofBlock + c.size :=
    u32_of_lt (by simp only [sizeofBlock]; omega)
  have hc' : HeaderAt (setSize m b.addr (b.size + sizeofBlock + c.size)) c (headAddr l 0) :=
    hc.congr fun x _ _ => setSize_of_outside (by omega)
  rw [mergeFreeBlocks, if_neg hguard]
  simp only [hnext, hb.isFree, hc.isFree, hb.size, hc.size, hsz, hc'.next, joinNext]

theorem linked_joinNext (hl : Linked m (b :: c :: l) 0)
    (ht : Tiles sizeofBlock a (b :: c :: l) e) (he : e < 2 ^ 32) (hfree : b.free = true) :
    Linked (joinNext m b.addr (b.size + sizeofBlock + c.size) (headAddr l 0))
      (⟨b.addr, b.size + sizeofBlock + c.size, true⟩ :: l) 0 := by
  obtain ⟨hb, hc, hl⟩ := hl
  obtain ⟨hba, hca, htl⟩ := ht
  simp only [sizeofBlock] at hca htl ⊢
  have hle := htl.le
  have hnx : headAddr l 0 < 2 ^ 32 := by
    rw [← hc.next]
    exact BitVec.isLt _
  refine ⟨⟨?_, ?_, ?_, ?_⟩, hl.congr fun d hd x hx _ => joinNext_of_outside (Or.inr ?_)⟩
  · simpa [joinNext] using hb.magic
  · simpa [joinNext] using u32_of_lt (show b.size + 16 + c.size < 2 ^ 32 by omega)
  · simpa [joinNext] using hb.isFree.trans hfree
  · simpa [joinNext] using u32_of_lt hnx
  · have := (htl.mem_bounds hd).1
    omega

end Merge

/-- The merge loop started at `b` coalesces the list that starts there. It
rewrites headers of that list only. -/
theorem mergeFreeBlocks_refines {bs : List Seg} :
    ∀ {m : Mem} {b : Seg} {a e fuel : Nat}, Linked m (b :: bs) 0 →
      Tiles sizeofBlock a (b :: bs) e → 0 < a → e < 2 ^ 32 → bs.length < fuel →
      Linked (mergeFreeBlocks m fuel b.addr) (coalesceFrom sizeofBlock b bs) 0
        ∧ ∀ x, (∀ c ∈ b :: bs, x < c.addr ∨ c.addr + 16 ≤ x) →
            mergeFreeBlocks m fuel b.addr x = m x := by
  induction bs with
  | nil =>
      intro m b a e fuel hl ht ha he hfuel
      obtain ⟨fuel, rfl⟩ := Nat.exists_eq_succ_of_ne_zero (Nat.ne_of_gt hfuel)
      have hnext : blockNext m b.addr = 0 := hl.1.next
      rw [mergeFreeBlocks, if_pos (Or.inr hnext)]
      exact ⟨hl, fun x _ => rfl⟩
  | cons c l ih =>
      intro m b a e fuel hl ht ha he hfuel
      obtain ⟨fuel, rfl⟩ := Nat.exists_eq_succ_of_ne_zero (Nat.ne_of_gt
        (Nat.lt_of_le_of_lt (Nat.zero_le _) hfuel))
      have hlen : l.length < fuel := by
        simp only [List.length_cons] at hfuel
        omega
      rw [mergeFreeBlocks_step hl ht ha he, coalesceFrom]
      by_cases hfree : (b.free && c.free) = true
      · rw [if_pos hfree, if_pos hfree]
        rw [Bool.and_eq_true] at hfree
        obtain ⟨h1, h2⟩ := ih (linked_joinNext hl ht he hfree.1) (ht.join true) ha he hlen
        refine ⟨h1, fun x hx => (h2 x fun d hd => ?_).trans
          (joinNext_of_outside (hx b (List.mem_cons_self ..)))⟩
        rcases List.mem_cons.mp hd with rfl | hd
        · exact hx b (List.mem_cons_self ..)
        · exact hx d (by simp [hd])
      · rw [if_neg hfree, if_neg hfree]
        obtain ⟨hb, hl⟩ := hl
        obtain ⟨hba, ht⟩ := ht
        obtain ⟨h1, h2⟩ := ih hl ht (by omega) he hlen
        -- the rest of the loop works behind `b`, whose header is kept
        have hb' : HeaderAt (mergeFreeBlocks m fuel c.addr) b c.addr := by
          refine HeaderAt.congr hb fun x _ hx => h2 x fun d hd => Or.inl ?_
          have := (ht.mem_bounds hd).1
          simp only [sizeofBlock] at this
          omega
        obtain ⟨d, l', hd, hda, -⟩ := coalesceFrom_head sizeofBlock c l
        refine ⟨⟨?_, h1⟩, fun x hx => h2 x fun d hd => hx d (List.mem_cons_of_mem _ hd)⟩
        rw [hd]
        exact hda ▸ hb'

/-- The merge loop over a whole list. -/
theorem mergeFreeBlocks_coalesce {m : Mem} {bs : List Seg} {a e : Nat} (hl : Linked m bs 0)
    (ht : Tiles sizeofBlock a bs e) (ha : 0 < a) (he : e < 2 ^ 32) (hne : a ≠ e)
    (hlen : bs.length ≤ heapFuel) :
    Linked (mergeFreeBlocks m heapFuel a) (coalesce sizeofBlock bs) 0
      ∧ ∀ x, (∀ c ∈ bs, x < c.addr ∨ c.addr + 16 ≤ x) →
          mergeFreeBlocks m heapFuel a x = m x := by
  cases bs with
  | nil => exact absurd ht hne
  | cons b l =>
      rw [← ht.1]
      exact mergeFreeBlocks_refines hl ht ha he hlen

/-! ## Freeing -/

theorem u32_block {a : Nat} (h : a + 16 < 2 ^ 32) :
    u32 (a + 16 + 2 ^ 32 - sizeofBlock) = a := by
  simp only [u32, sizeofBlock]
  omega

theorem kfree_eq {s : Heap} {b : Seg} {nxt : Nat} (hb : HeaderAt s.mem b nxt)
    (hlt : b.addr + 16 < 2 ^ 32) (hfree : b.free = false) :
    kfree s (b.addr + 16) =
      { s with
        mem := mergeFreeBlocks (setIsFree s.mem b.addr true) heapFuel s.heapStart
        heapUsed := u32 (s.heapUsed + 2 ^ 32 - u32 (sizeofBlock + b.size)) } := by
  unfold kfree
  rw [if_neg (by omega), u32_block hlt]
  simp only [hb.magic, hb.isFree, hfree, ne_eq, not_true_eq_false, if_false,
    Bool.false_eq_true, blockSize_setIsFree, hb.size]

/-- Setting the flag of a block in memory marks it in the list. -/
theorem Linked.markFree {m : Mem} {bs : List Seg} {b : Seg} {a e q : Nat} (hl : Linked m bs q)
    (ht : Tiles sizeofBlock a bs e) (hb : b ∈ bs) :
    Linked (setIsFree m b.addr true) (markFree b.addr bs) q := by
  obtain ⟨pre, post, rfl⟩ := List.append_of_mem hb
  obtain ⟨-, hhead, -⟩ := linked_append.mp hl
  rw [markFree_split (by decide) ht]
  have hmid : Linked (setIsFree m b.addr true) [⟨b.addr, b.size, true⟩] (headAddr post q) := by
    refine ⟨⟨?_, ?_, ?_, ?_⟩, trivial⟩
    · simpa using hhead.magic
    · simpa using hhead.size
    · simp
    · simpa [headAddr] using hhead.next
  exact hl.replace ht hmid rfl fun x hx => setIsFree_of_outside (by omega)

/-- `kfree` of a used block releases it and coalesces; it writes headers only. -/
theorem kfree_refines {s : Heap} {bs : List Seg} {b : Seg} (h : HeapWf s bs)
    (hb : b ∈ used bs) :
    HeapWf (kfree s (b.addr + 16)) (release sizeofBlock b.addr bs)
      ∧ ∀ x, (∀ c ∈ bs, x < c.addr ∨ c.addr + 16 ≤ x) →
          (kfree s (b.addr + 16)).mem x = s.mem x := by
  obtain ⟨hmem, hfree⟩ := List.mem_filter.mp hb
  have hbf : b.free = false := by simpa using hfree
  have htiles := h.canon.tiles
  have hlt := h.lt hmem
  obtain ⟨nxt, hhead⟩ := h.linked.headerAt hmem
  have hlen : (markFree b.addr bs).length ≤ heapFuel := by
    rw [markFree, List.length_map]
    exact Nat.le_of_lt h.length_lt
  obtain ⟨hmerged, hframe⟩ := mergeFreeBlocks_coalesce (h.linked.markFree htiles hmem)
    (markFree_tiles htiles) (by decide) (by decide) (by decide) hlen
  rw [kfree_eq hhead (by omega) hbf, h.start]
  refine ⟨⟨rfl, h.total, h.canon.release (by decide), hmerged, ?_⟩, fun x hx => ?_⟩
  · obtain ⟨pre, post, rfl⟩ := List.append_of_mem hmem
    have hbytes := usedBytes_release (by decide) htiles hbf
    have hle := htiles.usedBytes_le
    simp only [HEAP_START, HEAP_INITIAL] at hle
    simp only [h.used, sizeofBlock] at hle hbytes ⊢
    rw [u32_of_lt (show 16 + b.size < 2 ^ 32 by omega)]
    simp only [u32]
    omega
  · refine (hframe x fun c hc => ?_).trans (setIsFree_of_outside (hx b hmem))
    obtain ⟨d, hd, haddr⟩ := exists_of_mem_markFree hc
    exact haddr ▸ hx d hd

/-! ## Payload writes and reallocation -/

/-- A heap stays well formed under writes that miss every header. -/
theorem HeapWf.of_headers {s : Heap} {bs : List Seg} (h : HeapWf s bs) {m : Mem}
    (hm : ∀ c ∈ bs, ∀ x, c.addr ≤ x → x < c.addr + 16 → m x = s.mem x) :
    HeapWf { s with mem := m } bs :=
  ⟨h.start, h.total, h.canon, h.linked.congr hm, h.used⟩

/-- Payload bytes belong to no header. -/
theorem HeapWf.payload_not_header {s : Heap} {bs : List Seg} (h : HeapWf s bs) {b c : Seg}
    (hb : b ∈ bs) (hc : c ∈ bs) {x : Nat} (hx : b.addr + 16 ≤ x)
    (hx' : x < b.addr + 16 + b.size) : x < c.addr ∨ c.addr + 16 ≤ x := by
  by_cases hne : b.addr = c.addr
  · omega
  · have := header_disjoint h.canon.tiles hb hc hne
    omega

/-- The copy loop, as long as it writes neither the old block's size nor its payload. -/
theorem reallocCopy_apply {block src dst size old : Nat}
    (hhead : block + 8 ≤ dst ∨ dst + min old size ≤ block + 4)
    (hsrc : src + min old size ≤ dst ∨ dst + min old size ≤ src) :
    ∀ (n i : Nat) (m : Mem), blockSize m block = old → min old size ≤ i + n → ∀ x,
      reallocCopy block src dst size n i m x =
        if dst + i ≤ x ∧ x < dst + min old size then m (src + (x - dst)) else m x
  | 0, i, m, _, hn, x => by rw [reallocCopy, if_neg (by omega)]
  | n + 1, i, m, hold, hn, x => by
      rw [reallocCopy, hold]
      by_cases hi : i < old ∧ i < size
      · have hold' : blockSize (store8 m (dst + i) (m (src + i))) block = old := by
          rw [blockSize, load32_store8_of_outside (by omega), ← hold, blockSize]
        rw [if_pos hi, reallocCopy_apply hhead hsrc n (i + 1) _ hold' (by omega) x]
        by_cases hx : x = dst + i
        · rw [if_neg (by omega), if_pos (by omega), hx, store8_self, Nat.add_sub_cancel_left]
        · by_cases hin : dst + i ≤ x ∧ x < dst + min old size
          · rw [if_pos (by omega), if_pos hin, store8_of_ne (by omega)]
          · rw [if_neg (by omega), if_neg hin, store8_of_ne hx]
      · rw [if_neg hi, if_neg (by omega)]

end Matryoshka
