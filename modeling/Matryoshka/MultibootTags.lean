import Matryoshka.Multiboot
import Matryoshka.PmmSpec

/-!
# Walking the tags

`multiboot_find_tag` never looks at `total_size`: where the walk goes, and
whether it ends, is up to the tags. `TagWalk` describes the buffers on which
it ends inside the buffer, and no others do. A size of zero, or one that
wraps when it is rounded up, leaves the walk where it is.

`TagsAt` describes well-formed information: a list of tags laid out one
after the other and closed by an END tag. There the search finds the first
tag of a type, and the two traversals of the memory map, that of
`multiboot_get_total_memory` and that of `pmm_init`, add up the same entries.
-/

namespace Matryoshka

open ByteMem

/-! ## Where the search goes -/

/-- The bytes one round reads: the type, and the size if the tag is passed over. -/
def roundReads (m : Mem) (type tag : Nat) : List Nat :=
  match findTagBody m type tag with
  | .inl _ => List.range' tag 4
  | .inr _ => List.range' tag 8

/-- The bytes the first `n` rounds from `tag` on read. -/
def findTagReads (m : Mem) (type n tag : Nat) : List Nat :=
  (Loop.visits (findTagBody m type) n tag).flatMap (roundReads m type)

def FindTagReturns (m : Mem) (mbi type : Nat) : Prop :=
  mbi ≠ 0 → ∃ n r, Loop.run (findTagBody m type) n (u32 (mbi + 8)) = some r

/-- No byte at or beyond `stop` is read, however long the search goes on. -/
def FindTagWithin (m : Mem) (mbi type stop : Nat) : Prop :=
  mbi ≠ 0 → ∀ n, ∀ x ∈ findTagReads m type n (u32 (mbi + 8)), x < stop

/-- From `tag` on, each tag leads to the next by its rounded size, until an END tag or
one of the type asked for. Both words of a tag passed over are below `stop`, and the
type of the last one is. -/
inductive TagWalk (m : Mem) (type stop : Nat) : Nat → Prop
  | found {tag : Nat} (hin : tag + 4 ≤ stop)
      (htype : tagType m tag = MULTIBOOT_TAG_TYPE_END ∨ tagType m tag = type) :
      TagWalk m type stop tag
  | pass {tag : Nat} (hin : tag + 8 ≤ stop) (hend : tagType m tag ≠ MULTIBOOT_TAG_TYPE_END)
      (htype : tagType m tag ≠ type)
      (hnext : TagWalk m type stop (u32 (tag + align8 (tagSize m tag)))) :
      TagWalk m type stop tag

section Walk

variable {m : Mem} {mbi type stop tag n : Nat}

theorem findTagBody_pass (hend : tagType m tag ≠ MULTIBOOT_TAG_TYPE_END)
    (htype : tagType m tag ≠ type) :
    findTagBody m type tag = .inr (u32 (tag + align8 (tagSize m tag))) := by
  rw [findTagBody, if_neg hend, if_neg htype]

theorem findTagBody_found
    (h : tagType m tag = MULTIBOOT_TAG_TYPE_END ∨ tagType m tag = type) :
    ∃ r, findTagBody m type tag = .inl r := by
  by_cases hend : tagType m tag = MULTIBOOT_TAG_TYPE_END
  · exact ⟨none, if_pos hend⟩
  · exact ⟨some tag, by rw [findTagBody, if_neg hend, if_pos (h.resolve_left hend)]⟩

theorem findTagReads_found {r : Option Nat} (h : findTagBody m type tag = .inl r) :
    findTagReads m type (n + 1) tag = List.range' tag 4 := by
  rw [findTagReads, Loop.visits_inl h, List.flatMap_singleton, roundReads, h]

theorem findTagReads_pass {tag' : Nat} (h : findTagBody m type tag = .inr tag') :
    findTagReads m type (n + 1) tag = List.range' tag 8 ++ findTagReads m type n tag' := by
  rw [findTagReads, Loop.visits_inr h, List.flatMap_cons, roundReads, h]
  rfl

theorem tagWalk_of_run {r : Option Nat} (h : Loop.run (findTagBody m type) n tag = some r)
    (hreads : ∀ x ∈ findTagReads m type n tag, x < stop) : TagWalk m type stop tag := by
  induction n generalizing tag with
  | zero => cases h
  | succ n ih =>
      by_cases hfound : tagType m tag = MULTIBOOT_TAG_TYPE_END ∨ tagType m tag = type
      · obtain ⟨r', hbody⟩ := findTagBody_found hfound
        rw [findTagReads_found hbody] at hreads
        have := hreads (tag + 3) (List.mem_range'_1.mpr (by omega))
        exact .found (by omega) hfound
      · rw [not_or] at hfound
        have hbody := findTagBody_pass hfound.1 hfound.2
        rw [findTagReads_pass hbody, List.forall_mem_append] at hreads
        rw [Loop.run_inr hbody] at h
        have := hreads.1 (tag + 7) (List.mem_range'_1.mpr (by omega))
        exact .pass (by omega) hfound.1 hfound.2 (ih h hreads.2)

theorem TagWalk.run (h : TagWalk m type stop tag) :
    ∃ n r, Loop.run (findTagBody m type) n tag = some r := by
  induction h with
  | found hin htype =>
      obtain ⟨r, hbody⟩ := findTagBody_found htype
      exact ⟨1, r, Loop.run_inl hbody⟩
  | pass hin hend htype hnext ih =>
      obtain ⟨n, r, hrun⟩ := ih
      exact ⟨n + 1, r, (Loop.run_inr (findTagBody_pass hend htype)).trans hrun⟩

theorem TagWalk.within (h : TagWalk m type stop tag) (n : Nat) :
    ∀ x ∈ findTagReads m type n tag, x < stop := by
  induction h generalizing n with
  | found hin htype =>
      intro x hx
      obtain ⟨r, hbody⟩ := findTagBody_found htype
      cases n with
      | zero => cases hx
      | succ n =>
          rw [findTagReads_found hbody, List.mem_range'_1] at hx
          omega
  | pass hin hend htype hnext ih =>
      intro x hx
      cases n with
      | zero => cases hx
      | succ n =>
          rw [findTagReads_pass (findTagBody_pass hend htype), List.mem_append] at hx
          rcases hx with hx | hx
          · rw [List.mem_range'_1] at hx
            omega
          · exact ih n x hx

end Walk

/-- The search returns and stays below the end of the buffer exactly when the tags lead
to an END tag or to the type asked for inside the buffer. -/
theorem find_tag_total_iff (m : Mem) (mbi type total : Nat) :
    FindTagReturns m mbi type ∧ FindTagWithin m mbi type (mbi + total)
      ↔ (mbi ≠ 0 → TagWalk m type (mbi + total) (u32 (mbi + 8))) := by
  constructor
  · rintro ⟨hreturns, hwithin⟩ hmbi
    obtain ⟨n, r, hrun⟩ := hreturns hmbi
    exact tagWalk_of_run hrun (hwithin hmbi n)
  · intro h
    exact ⟨fun hmbi => (h hmbi).run, fun hmbi => (h hmbi).within⟩

/-- Sixteen bytes of information at 0x10000 with one tag, of type 1 and size 0. -/
def stuckInfo : Mem := fun a => if a = 0x10000 then 16#8 else if a = 0x10008 then 1#8 else 0#8

theorem stuck_search_never_returns :
    (load32 stuckInfo 0x10000).toNat = 16
      ∧ ¬FindTagReturns stuckInfo 0x10000 MULTIBOOT_TAG_TYPE_MMAP := by
  have hbody : findTagBody stuckInfo MULTIBOOT_TAG_TYPE_MMAP 0x10008 = .inr 0x10008 := by decide
  have hnone : ∀ n, Loop.run (findTagBody stuckInfo MULTIBOOT_TAG_TYPE_MMAP) n 0x10008 = none := by
    intro n
    induction n with
    | zero => rfl
    | succ n ih => rw [Loop.run_inr hbody, ih]
  refine ⟨by decide, fun hreturns => ?_⟩
  obtain ⟨n, r, hrun⟩ := hreturns (by decide)
  rw [show u32 (0x10000 + 8) = 0x10008 by decide, hnone n] at hrun
  cases hrun

/-! ## Well-formed information -/

/-- The type and the size of a tag that is not the last. -/
structure BootTag where
  type : Nat
  size : Nat
  type_ne : type ≠ MULTIBOOT_TAG_TYPE_END
  size_ge : 8 ≤ size

/-- The next tag begins at the next multiple of eight. -/
def BootTag.stride (g : BootTag) : Nat := (g.size + 7) / 8 * 8

/-- Where the tag behind `tags` begins. -/
def tagsEnd (tag : Nat) (tags : List BootTag) : Nat := tag + (tags.map BootTag.stride).sum

/-- The tags as they lie in memory from `tag` on, the END tag behind them. -/
def TagsAt (m : Mem) : Nat → List BootTag → Prop
  | tag, [] => tagType m tag = MULTIBOOT_TAG_TYPE_END
  | tag, g :: tags =>
      tagType m tag = g.type ∧ tagSize m tag = g.size ∧ TagsAt m (tag + g.stride) tags

structure BootInfo (m : Mem) (mbi : Nat) (tags : List BootTag) : Prop where
  mbi_ne : mbi ≠ 0
  layout : TagsAt m (mbi + 8) tags
  fits : tagsEnd (mbi + 8) tags + 8 ≤ 2 ^ 32

def EntryAt (m : Mem) (entry : Nat) (e : MmapEntry) : Prop :=
  load64 m entry = e.addr.toBitVec ∧ load64 m (entry + 8) = e.len.toBitVec
    ∧ load32 m (entry + 16) = e.type.toBitVec

/-- A memory map tag with the entries, each `entrySize` bytes after the one before. -/
structure MmapAt (m : Mem) (tag entrySize : Nat) (entries : List MmapEntry) : Prop where
  size : tagSize m tag = sizeofTagMmap + entries.length * entrySize
  entrySize_eq : mmapEntrySize m tag = entrySize
  entrySize_ge : 24 ≤ entrySize
  entries : ∀ i e, entries[i]? = some e → EntryAt m (tag + sizeofTagMmap + i * entrySize) e

section Info

variable {m : Mem} {mbi type tag entrySize : Nat} {g : BootTag} {pre post tags : List BootTag}
  {entries : List MmapEntry}

@[simp] theorem tagsEnd_nil (tag : Nat) : tagsEnd tag [] = tag := rfl

theorem tagsEnd_cons (tag : Nat) (g : BootTag) (tags : List BootTag) :
    tagsEnd tag (g :: tags) = tagsEnd (tag + g.stride) tags := by
  rw [tagsEnd, tagsEnd, List.map_cons, List.sum_cons, Nat.add_assoc]

theorem tagsEnd_append (tag : Nat) (pre post : List BootTag) :
    tagsEnd tag (pre ++ post) = tagsEnd (tagsEnd tag pre) post := by
  rw [tagsEnd, tagsEnd, tagsEnd, List.map_append, List.sum_append, Nat.add_assoc]

theorem le_tagsEnd (tag : Nat) (tags : List BootTag) : tag ≤ tagsEnd tag tags :=
  Nat.le_add_right ..

theorem size_le_stride (g : BootTag) : g.size ≤ g.stride := by
  unfold BootTag.stride
  omega

/-- Inside the address space neither the rounding nor the pointer wraps. -/
theorem next_tag_eq (h : tag + g.stride < 2 ^ 32) : u32 (tag + align8 g.size) = tag + g.stride := by
  have hsize := size_le_stride g
  have hround : align8 g.size = g.stride := by
    unfold align8 BootTag.stride at *
    rw [u32_of_lt (by omega)]
    omega
  rw [hround, u32_of_lt h]

/-- The search passes over tags of other types. -/
theorem run_pass_tags (hat : TagsAt m tag (pre ++ post)) (hpre : ∀ x ∈ pre, x.type ≠ type)
    (hfits : tagsEnd tag (pre ++ post) < 2 ^ 32) :
    TagsAt m (tagsEnd tag pre) post ∧ ∀ n, Loop.run (findTagBody m type) (pre.length + n) tag
      = Loop.run (findTagBody m type) n (tagsEnd tag pre) := by
  induction pre generalizing tag with
  | nil => exact ⟨hat, fun n => by rw [List.length_nil, Nat.zero_add, tagsEnd_nil]⟩
  | cons g pre ih =>
      obtain ⟨htype, hsize, hat⟩ := hat
      obtain ⟨hg, hpre⟩ := List.forall_mem_cons.mp hpre
      rw [List.cons_append, tagsEnd_cons] at hfits
      have hle := le_tagsEnd (tag + g.stride) (pre ++ post)
      have hbody : findTagBody m type tag = .inr (tag + g.stride) := by
        rw [findTagBody_pass (by rw [htype]; exact g.type_ne) (by rwa [htype]), hsize,
          next_tag_eq (by omega)]
      obtain ⟨hpost, hrun⟩ := ih hat hpre hfits
      rw [tagsEnd_cons]
      refine ⟨hpost, fun n => ?_⟩
      rw [List.length_cons, Nat.add_right_comm, Loop.run_inr hbody, hrun]

theorem BootInfo.start_eq (h : BootInfo m mbi tags) : u32 (mbi + 8) = mbi + 8 := by
  have hle := le_tagsEnd (mbi + 8) tags
  have hfits := h.fits
  exact u32_of_lt (by omega)

theorem BootInfo.find_first (h : BootInfo m mbi (pre ++ g :: post))
    (hpre : ∀ x ∈ pre, x.type ≠ g.type) :
    multibootFindTag m mbi g.type = some (some (tagsEnd (mbi + 8) pre)) := by
  have hfits := h.fits
  obtain ⟨⟨htype, -, -⟩, hrun⟩ := run_pass_tags h.layout hpre (by omega)
  have hbody : findTagBody m g.type (tagsEnd (mbi + 8) pre)
      = .inl (some (tagsEnd (mbi + 8) pre)) := by
    rw [findTagBody, if_neg (by rw [htype]; exact g.type_ne), if_pos htype]
  refine multibootFindTag_eq h.mbi_ne (n := pre.length + 1) ?_
  rw [h.start_eq, hrun, Loop.run_inl hbody]

theorem BootInfo.find_none (h : BootInfo m mbi tags) (hnone : ∀ x ∈ tags, x.type ≠ type) :
    multibootFindTag m mbi type = some none := by
  have hfits := h.fits
  have hat := h.layout
  rw [← List.append_nil tags] at hat hfits
  obtain ⟨hend, hrun⟩ := run_pass_tags hat hnone (by omega)
  have hbody : findTagBody m type (tagsEnd (mbi + 8) tags) = .inl none := if_pos hend
  refine multibootFindTag_eq h.mbi_ne (n := tags.length + 1) ?_
  rw [h.start_eq, hrun, Loop.run_inl hbody]

/-! ## The map -/

theorem mmapEntryAt_eq {entry : Nat} {e : MmapEntry} (h : EntryAt m entry e) :
    mmapEntryAt m entry = e := by
  rw [mmapEntryAt, h.1, h.2.1, h.2.2]

theorem mmapEntriesFrom_eq {entry : Nat}
    (hat : ∀ i e, entries[i]? = some e → EntryAt m (entry + i * entrySize) e)
    (hfits : entry + entries.length * entrySize < 2 ^ 32) :
    mmapEntriesFrom m entrySize entries.length entry = entries := by
  induction entries generalizing entry with
  | nil => rfl
  | cons e entries ih =>
      have hfirst := hat 0 e rfl
      rw [Nat.zero_mul, Nat.add_zero] at hfirst
      rw [List.length_cons, Nat.succ_mul] at hfits
      have hnext : u32 (entry + entrySize) = entry + entrySize := u32_of_lt (by omega)
      rw [List.length_cons, mmapEntriesFrom, mmapEntryAt_eq hfirst, hnext, ih ?_ (by omega)]
      intro i d hd
      have := hat (i + 1) d hd
      rwa [Nat.succ_mul, Nat.add_comm (i * entrySize), ← Nat.add_assoc] at this

theorem MmapAt.entries_eq (h : MmapAt m tag entrySize entries)
    (hfits : tag + tagSize m tag < 2 ^ 32) : mmapEntries m tag = some entries := by
  have hge := h.entrySize_ge
  have hsize := h.size
  have hstart : u32 (tag + sizeofTagMmap) = tag + sizeofTagMmap := u32_of_lt (by omega)
  have hcount : u32 (tagSize m tag + 2 ^ 32 - sizeofTagMmap) / entrySize = entries.length := by
    rw [hsize, show sizeofTagMmap + entries.length * entrySize + 2 ^ 32 - sizeofTagMmap
        = entries.length * entrySize + 2 ^ 32 by omega, u32, Nat.add_mod_right,
      Nat.mod_eq_of_lt (by omega)]
    exact Nat.mul_div_cancel _ (by omega)
  rw [mmapEntries, h.entrySize_eq, if_neg (by omega)]
  simp only [hcount, hstart]
  rw [mmapEntriesFrom_eq h.entries (by omega)]

theorem foldl_scanEntry_addAvailable (entries : List MmapEntry) (s : Pmm) :
    (entries.foldl scanEntry s).totalMemory = entries.foldl addAvailable s.totalMemory := by
  induction entries generalizing s with
  | nil => rfl
  | cons e entries ih =>
      rw [List.foldl_cons, List.foldl_cons, ih, scanEntry, addAvailable]
      split <;> rfl

/-- `multiboot_get_total_memory` adds up what `pmm_init` does. -/
theorem foldl_addAvailable (entries : List MmapEntry) :
    entries.foldl addAvailable 0 = availableBytes entries := by
  have hscan := foldl_scanEntry_addAvailable entries (Pmm.static fun _ => 0#32)
  rw [foldl_scanEntry_totalMemory entries _ (Nat.two_pow_pos 64)] at hscan
  exact hscan.symm.trans (congrArg u64 (Nat.zero_add _))

theorem BootInfo.mmap_entries (h : BootInfo m mbi (pre ++ g :: post))
    (hmmap : MmapAt m (tagsEnd (mbi + 8) pre) entrySize entries)
    (hpre : ∀ x ∈ pre, x.type ≠ type) :
    mmapEntries m (tagsEnd (mbi + 8) pre) = some entries := by
  have hfits := h.fits
  obtain ⟨⟨-, hsize, -⟩, -⟩ := run_pass_tags h.layout hpre (by omega)
  have hstride := size_le_stride g
  have hle := le_tagsEnd (tagsEnd (mbi + 8) pre + g.stride) post
  rw [tagsEnd_append, tagsEnd_cons] at hfits
  exact hmmap.entries_eq (by omega)

end Info

/-- On well-formed information a search answers with the first tag of the type, or NULL
if there is none, and with a memory map both `multiboot_get_total_memory` and the first
`pmm_init` report the lengths of its AVAILABLE entries, added up modulo 2^64. -/
theorem multiboot_parse_correct {m : Mem} {mbi : Nat} {tags : List BootTag}
    (h : BootInfo m mbi tags) :
    (∀ pre g post, tags = pre ++ g :: post → (∀ x ∈ pre, x.type ≠ g.type) →
        multibootFindTag m mbi g.type = some (some (tagsEnd (mbi + 8) pre)))
      ∧ (∀ type, (∀ x ∈ tags, x.type ≠ type) → multibootFindTag m mbi type = some none)
      ∧ ∀ pre g post entrySize entries, tags = pre ++ g :: post →
          g.type = MULTIBOOT_TAG_TYPE_MMAP → (∀ x ∈ pre, x.type ≠ MULTIBOOT_TAG_TYPE_MMAP) →
          MmapAt m (tagsEnd (mbi + 8) pre) entrySize entries →
          multibootGetTotalMemory m mbi = some (availableBytes entries)
            ∧ ∀ kernelEnd w, ∃ s, pmmInitMbi kernelEnd m mbi (Pmm.static w) = some s
              ∧ (pmmGetStats s).totalMemory = availableBytes entries := by
  refine ⟨?_, fun type hnone => h.find_none hnone, ?_⟩
  · rintro pre g post rfl hpre
    exact h.find_first hpre
  · rintro pre g post entrySize entries rfl htype hpre hmmap
    have hfind := h.find_first (htype ▸ hpre)
    rw [htype] at hfind
    have hget : multibootGetMmap m mbi = some (some (tagsEnd (mbi + 8) pre)) := by
      rw [multibootGetMmap, if_neg h.mbi_ne, hfind]
    have hentries := h.mmap_entries hmmap hpre
    refine ⟨?_, fun kernelEnd w => ⟨pmmInit kernelEnd (some entries) (Pmm.static w), ?_, ?_⟩⟩
    · rw [multibootGetTotalMemory, if_neg h.mbi_ne, hget]
      simp [hentries, foldl_addAvailable]
    · rw [pmmInitMbi, multibootMmap, hget]
      simp [hentries]
    · exact pmmInit_availableBytes kernelEnd entries w

/-- Information at 0x10000: a boot loader name of five bytes with its padding, and a map
with one AVAILABLE entry of 31 MB and one reserved. -/
def sampleInfo : Mem :=
  ofWords 0x10000 (fun i => [96, 0, 2, 13, 0x42555247, 0xFFFFFF32, 6, 64, 24, 0, 0x100000, 0,
    0x1F00000, 0, 1, 0, 0x2000000, 0, 0x1000, 0, 2, 0, 0, 8].getD i 0#32) fun _ => 0#8

def nameTag : BootTag := ⟨2, 13, by decide, by decide⟩

def mapTag : BootTag := ⟨6, 64, by decide, by decide⟩

theorem multiboot_parse_sample :
    multibootFindTag sampleInfo 0x10000 MULTIBOOT_TAG_TYPE_MMAP = some (some 0x10018)
      ∧ multibootGetTotalMemory sampleInfo 0x10000 = some 0x1F00000 := by
  have hinfo : BootInfo sampleInfo 0x10000 [nameTag, mapTag] :=
    ⟨by decide, by simp only [TagsAt]; decide, by decide⟩
  have hname : ∀ x ∈ [nameTag], x.type ≠ MULTIBOOT_TAG_TYPE_MMAP := by
    intro x hx
    rw [List.mem_singleton.mp hx]
    decide
  have hmmap : MmapAt sampleInfo 0x10018 24
      [⟨0x100000, 0x1F00000, 1⟩, ⟨0x2000000, 0x1000, 2⟩] := by
    refine ⟨by decide, by decide, by decide, fun i e he => ?_⟩
    match i, he with
    | 0, he =>
        obtain rfl := Option.some.inj he
        exact ⟨by decide, by decide, by decide⟩
    | 1, he =>
        obtain rfl := Option.some.inj he
        exact ⟨by decide, by decide, by decide⟩
  obtain ⟨hfirst, -, hmap⟩ := multiboot_parse_correct hinfo
  exact ⟨hfirst [nameTag] mapTag [] rfl hname,
    (hmap [nameTag] mapTag [] 24 _ rfl rfl hname hmmap).1⟩

end Matryoshka
