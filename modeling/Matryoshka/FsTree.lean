import Matryoshka.Vfs
import Mathlib.Data.List.Nodup
import Mathlib.Data.List.Perm.Subperm

/-!
# The directory tree

`RamfsTree` is the invariant of the node pointers: `kids d` lists the
children of `d` in the order of its linked list, and every child is newer
than its directory, so that the lists cannot close a cycle. Only creation
changes the tree (`Created.tree`); reads, writes, truncation and the
descriptor calls leave every name and pointer as it was (`SameTree`).
-/

namespace Matryoshka

open LinkedList

/-! ## The invariant -/

/-- One to 63 bytes, none of them a slash. -/
def GoodName (name : CStr) : Prop := name ≠ [] ∧ name.length < VFS_NAME_MAX ∧ slash ∉ name

instance (name : CStr) : Decidable (GoodName name) := inferInstanceAs (Decidable (_ ∧ _))

def Ramfs.next (s : Ramfs) (n : Nat) : Option Nat := (s.nodes n).next

structure RamfsTree (s : Ramfs) (kids : Nat → List Nat) : Prop where
  chain : ∀ d < s.count, Links s.next (s.nodes d).children (kids d)
  kid : ∀ d < s.count, ∀ c ∈ kids d, d < c ∧ c < s.count ∧ (s.nodes c).parent = some d
  covered : ∀ c < s.count, c ≠ 0 → ∃ d < s.count, c ∈ kids d
  directory : ∀ d < s.count, kids d ≠ [] → (s.nodes d).isDirectory = true
  siblings : ∀ d < s.count, ((kids d).map fun c => (s.nodes c).name).Nodup
  name : ∀ c < s.count, c ≠ 0 → GoodName (s.nodes c).name
  inode : ∀ c < s.count, (s.nodes c).inode = u32 (c + 1)
  nextInode : s.nextInode = u32 (s.count + 1)
  rootParent : 0 < s.count → (s.nodes 0).parent = none

section Tree

variable {s s' : Ramfs} {kids : Nat → List Nat} {c d : Nat} {name : CStr} {flags : BitVec 32}
  {file : Option RamfsFile}

theorem RamfsTree.nodup (h : RamfsTree s kids) (hd : d < s.count) : (kids d).Nodup :=
  (h.siblings d hd).of_map _

theorem RamfsTree.length_le (h : RamfsTree s kids) (hd : d < s.count) :
    (kids d).length ≤ s.count := by
  have hsub : kids d ⊆ List.range s.count := fun c hc => List.mem_range.mpr (h.kid d hd c hc).2.1
  simpa using (List.subperm_of_subset (h.nodup hd) hsub).length_le

/-! ## Lookup and enumeration -/

theorem RamfsTree.lookup_eq (h : RamfsTree s kids) (hd : d < s.count) (name : CStr) :
    ramfsLookup s d name = (kids d).find? fun c => (s.nodes c).name == name := by
  rw [ramfsLookup]
  by_cases hdir : (s.nodes d).isDirectory = true
  · rw [if_pos hdir]
    exact (h.chain d hd).findFrom_eq (h.length_le hd)
  · have hnil : kids d = [] := by
      by_contra hne
      exact hdir (h.directory d hd hne)
    rw [if_neg hdir, hnil, List.find?_nil]

/-- `ramfs_lookup` returns exactly the children of that name. -/
theorem RamfsTree.lookup_iff (h : RamfsTree s kids) (hd : d < s.count) :
    ramfsLookup s d name = some c ↔ c ∈ kids d ∧ (s.nodes c).name = name := by
  rw [h.lookup_eq hd]
  constructor
  · intro hf
    exact ⟨List.mem_of_find?_eq_some hf, by simpa using List.find?_some hf⟩
  · rintro ⟨hc, hn⟩
    cases hf : (kids d).find? fun c => (s.nodes c).name == name with
    | none => simpa [hn] using List.find?_eq_none.mp hf c hc
    | some b =>
        have hb := List.mem_of_find?_eq_some hf
        have hbn : (s.nodes b).name = name := by simpa using List.find?_some hf
        rw [List.inj_on_of_nodup_map (h.siblings d hd) hb hc (hbn.trans hn.symm)]

theorem readdirFrom_eq {index : Nat} (hindex : index < 2 ^ 32) :
    ∀ {fuel i : Nat} {p : Option Nat} {l : List Nat}, Links s.next p l → l.length ≤ fuel →
      i ≤ index → readdirFrom s index fuel i p = l[index - i]?
  | _, _, _, [], hch, _, _ => by
      rw [show _ = none from hch, readdirFrom, List.getElem?_nil]
  | 0, _, _, _ :: _, _, hf, _ => absurd hf (by simp)
  | fuel + 1, i, _, c :: l, hch, hf, hi => by
      rw [hch.1, readdirFrom]
      by_cases heq : i = index
      · rw [if_pos heq, heq, Nat.sub_self, List.getElem?_cons_zero]
      · have hsub : index - i = index - (i + 1) + 1 := by omega
        rw [if_neg heq, u32_of_lt (by omega), hsub, List.getElem?_cons_succ]
        exact readdirFrom_eq hindex hch.2 (Nat.le_of_succ_le_succ hf) (by omega)

/-- `ramfs_readdir` enumerates the children in the order of the list. -/
theorem RamfsTree.readdir_eq (h : RamfsTree s kids) (hd : d < s.count) {index : Nat}
    (hindex : index < 2 ^ 32) :
    ramfsReaddir s d index =
      ((kids d)[index]?).map fun c => ((s.nodes c).name, (s.nodes c).flags) := by
  rw [ramfsReaddir]
  by_cases hdir : (s.nodes d).isDirectory = true
  · rw [if_pos hdir, readdirFrom_eq hindex (h.chain d hd) (h.length_le hd) (Nat.zero_le _)]
    rfl
  · have hnil : kids d = [] := by
      by_contra hne
      exact hdir (h.directory d hd hne)
    rw [if_neg hdir, hnil]
    rfl

/-! ## Creation -/

/-- An older node keeps everything but, if it is the directory, its first child. -/
theorem Created.old (hc : Created s s' d name flags file) {m : Nat} (hm : m < s.count) :
    ∃ p, s'.nodes m = { s.nodes m with children := p } ∧ (m ≠ d → p = (s.nodes m).children) := by
  by_cases hmd : m = d
  · exact ⟨some s.count, by rw [hmd, hc.link], fun hne => absurd hmd hne⟩
  · exact ⟨(s.nodes m).children, by rw [hc.others m (by omega) hmd], fun _ => rfl⟩

/-- The lists of children after `s.count` was created in `d`. -/
def addKid (s : Ramfs) (kids : Nat → List Nat) (d : Nat) : Nat → List Nat :=
  Function.update (Function.update kids s.count []) d (s.count :: kids d)

theorem addKid_self (s : Ramfs) (kids : Nat → List Nat) (d : Nat) :
    addKid s kids d d = s.count :: kids d := Function.update_self ..

theorem addKid_new (hd : d < s.count) : addKid s kids d s.count = [] := by
  rw [addKid, Function.update_of_ne (by omega), Function.update_self]

theorem addKid_of_ne {m : Nat} (hmd : m ≠ d) (hm : m ≠ s.count) :
    addKid s kids d m = kids m := by
  rw [addKid, Function.update_of_ne hmd, Function.update_of_ne hm]

theorem Created.lt_or_new (hc : Created s s' d name flags file) {m : Nat} (hm : m < s'.count) :
    m < s.count ∨ m = s.count := by
  rw [hc.count] at hm
  omega

/-- The list that grew, the new node's empty one, or a list that stayed. -/
theorem Created.addKid_cases (hc : Created s s' d name flags file) (hd : d < s.count) {m : Nat}
    (hm : m < s'.count) :
    (m = d ∧ addKid s kids d m = s.count :: kids d) ∨ (m = s.count ∧ addKid s kids d m = [])
      ∨ (m < s.count ∧ m ≠ d ∧ addKid s kids d m = kids m) := by
  by_cases hmd : m = d
  · exact Or.inl ⟨hmd, by rw [hmd, addKid_self]⟩
  · rcases hc.lt_or_new hm with hlt | hmc
    · exact Or.inr (Or.inr ⟨hlt, hmd, addKid_of_ne hmd (Nat.ne_of_lt hlt)⟩)
    · exact Or.inr (Or.inl ⟨hmc, by rw [hmc, addKid_new hd]⟩)

theorem Created.old_name (hc : Created s s' d name flags file) {m : Nat} (hm : m < s.count) :
    (s'.nodes m).name = (s.nodes m).name := by
  obtain ⟨p, hp, -⟩ := hc.old hm
  rw [hp]

theorem Created.new_name (hc : Created s s' d name flags file) (hname : GoodName name) :
    (s'.nodes s.count).name = name := by
  rw [hc.made]
  exact List.take_of_length_le (Nat.le_pred_of_lt hname.2.1)

section Create

variable (h : RamfsTree s kids) (hd : d < s.count) (hc : Created s s' d name flags file)
include h hc

theorem RamfsTree.chain_old {m : Nat} (hm : m < s.count) :
    Links s'.next (s.nodes m).children (kids m) := by
  refine (h.chain m hm).congr fun c hmem => ?_
  obtain ⟨p, hp, -⟩ := hc.old (h.kid m hm c hmem).2.1
  rw [Ramfs.next, hp, Ramfs.next]

theorem RamfsTree.kid_old {m c : Nat} (hm : m < s.count) (hmem : c ∈ kids m) :
    m < c ∧ c < s'.count ∧ (s'.nodes c).parent = some m := by
  obtain ⟨hlt, hcount, hpar⟩ := h.kid m hm c hmem
  obtain ⟨p, hp, -⟩ := hc.old hcount
  rw [hc.count, hp]
  exact ⟨hlt, by omega, hpar⟩

include hd

theorem RamfsTree.chain_created {m : Nat} (hm : m < s'.count) :
    Links s'.next (s'.nodes m).children (addKid s kids d m) := by
  rcases hc.addKid_cases hd hm with ⟨hmd, hkids⟩ | ⟨hmc, hkids⟩ | ⟨hlt, hmd, hkids⟩
  · have hnext : s'.next s.count = (s.nodes d).children := by rw [Ramfs.next, hc.made]
    rw [hkids, hmd, hc.link]
    refine ⟨rfl, ?_⟩
    rw [hnext]
    exact h.chain_old hc hd
  · rw [hkids, hmc, hc.made]
    rfl
  · obtain ⟨p, hp, hpd⟩ := hc.old hlt
    rw [hkids, hp, hpd hmd]
    exact h.chain_old hc hlt

theorem RamfsTree.kid_created {m c : Nat} (hm : m < s'.count) (hmem : c ∈ addKid s kids d m) :
    m < c ∧ c < s'.count ∧ (s'.nodes c).parent = some m := by
  rcases hc.addKid_cases hd hm with ⟨hmd, hkids⟩ | ⟨-, hkids⟩ | ⟨hlt, -, hkids⟩
  · rw [hkids] at hmem
    rw [hmd]
    rcases List.mem_cons.mp hmem with rfl | hmem
    · rw [hc.count, hc.made]
      exact ⟨hd, by omega, rfl⟩
    · exact h.kid_old hc hd hmem
  · rw [hkids] at hmem
    cases hmem
  · rw [hkids] at hmem
    exact h.kid_old hc hlt hmem

theorem RamfsTree.covered_created {c : Nat} (hlt : c < s'.count) (h0 : c ≠ 0) :
    ∃ m < s'.count, c ∈ addKid s kids d m := by
  rcases hc.lt_or_new hlt with hold | hnew
  · obtain ⟨m, hm, hmem⟩ := h.covered c hold h0
    refine ⟨m, by rw [hc.count]; omega, ?_⟩
    by_cases hmd : m = d
    · rw [hmd, addKid_self]
      exact List.mem_cons_of_mem _ (hmd ▸ hmem)
    · rw [addKid_of_ne hmd (by omega)]
      exact hmem
  · refine ⟨d, by rw [hc.count]; omega, ?_⟩
    rw [hnew, addKid_self]
    exact List.mem_cons_self

/-- No two children of a directory have one name: the new one was free. -/
theorem RamfsTree.siblings_created (hname : GoodName name) (hfree : ramfsLookup s d name = none)
    {m : Nat} (hm : m < s'.count) :
    ((addKid s kids d m).map fun c => (s'.nodes c).name).Nodup := by
  have hold : ∀ m < s.count, (kids m).map (fun c => (s'.nodes c).name)
      = (kids m).map fun c => (s.nodes c).name := fun m hm =>
    List.map_congr_left fun c hmem => hc.old_name (h.kid m hm c hmem).2.1
  rcases hc.addKid_cases hd hm with ⟨-, hkids⟩ | ⟨-, hkids⟩ | ⟨hlt, -, hkids⟩
  · rw [hkids, List.map_cons, hold d hd, hc.new_name hname, List.nodup_cons]
    refine ⟨fun hmem => ?_, h.siblings d hd⟩
    obtain ⟨c, hmem, heq⟩ := List.mem_map.mp hmem
    have hfound := (h.lookup_iff hd).mpr ⟨hmem, heq⟩
    rw [hfree] at hfound
    cases hfound
  · rw [hkids]
    exact List.nodup_nil
  · rw [hkids, hold m hlt]
    exact h.siblings m hlt

/-- Creation under a free, well-formed name keeps the tree. -/
theorem RamfsTree.create (hdir : (s.nodes d).isDirectory = true) (hname : GoodName name)
    (hfree : ramfsLookup s d name = none) : RamfsTree s' (addKid s kids d) := by
  constructor
  case chain => exact fun m hm => h.chain_created hd hc hm
  case kid => exact fun m hm c hmem => h.kid_created hd hc hm hmem
  case covered => exact fun c hlt h0 => h.covered_created hd hc hlt h0
  case directory =>
    intro m hm hne
    rcases hc.addKid_cases hd hm with ⟨hmd, -⟩ | ⟨-, hkids⟩ | ⟨hlt, hmd, hkids⟩
    · rw [hmd, hc.link]
      exact hdir
    · exact absurd hkids hne
    · rw [hkids] at hne
      rw [hc.others m (Nat.ne_of_lt hlt) hmd]
      exact h.directory m hlt hne
  case siblings => exact fun m hm => h.siblings_created hd hc hname hfree hm
  case name =>
    intro c hlt h0
    rcases hc.lt_or_new hlt with hold | hnew
    · rw [hc.old_name hold]
      exact h.name c hold h0
    · rw [hnew, hc.new_name hname]
      exact hname
  case inode =>
    intro c hlt
    rcases hc.lt_or_new hlt with hold | hnew
    · obtain ⟨p, hp, -⟩ := hc.old hold
      rw [hp]
      exact h.inode c hold
    · rw [hnew, hc.made, h.nextInode]
  case nextInode =>
    rw [hc.nextInode, h.nextInode, hc.count]
    simp only [u32]
    omega
  case rootParent =>
    intro _
    obtain ⟨p, hp, -⟩ := hc.old (Nat.zero_lt_of_lt hd)
    rw [hp]
    exact h.rootParent (Nat.zero_lt_of_lt hd)

end Create

/-! ## Calls that keep the tree -/

/-- At most sizes and payloads differ. -/
structure SameTree (s s' : Ramfs) : Prop where
  count : s'.count = s.count
  nextInode : s'.nextInode = s.nextInode
  node : ∀ m, ∃ size file, s'.nodes m = { s.nodes m with size := size, fsData := file }

theorem SameTree.refl (s : Ramfs) : SameTree s s := ⟨rfl, rfl, fun _ => ⟨_, _, rfl⟩⟩

theorem SameTree.trans {s₁ : Ramfs} (h : SameTree s s') (h' : SameTree s' s₁) :
    SameTree s s₁ := by
  refine ⟨h'.count.trans h.count, h'.nextInode.trans h.nextInode, fun m => ?_⟩
  obtain ⟨z, f, hm⟩ := h.node m
  obtain ⟨z', f', hm'⟩ := h'.node m
  exact ⟨z', f', by rw [hm', hm]⟩

theorem SameTree.setNode (s : Ramfs) (n size : Nat) (file : Option RamfsFile) :
    SameTree s (s.setNode n { s.nodes n with size := size, fsData := file }) := by
  refine ⟨rfl, rfl, fun m => ?_⟩
  by_cases hm : m = n
  · exact ⟨size, file, by rw [hm, setNode_self]⟩
  · exact ⟨_, _, setNode_of_ne hm⟩

theorem SameTree.tree (hs : SameTree s s') (h : RamfsTree s kids) : RamfsTree s' kids := by
  have hname : ∀ m, (s'.nodes m).name = (s.nodes m).name := fun m => by
    obtain ⟨z, f, hm⟩ := hs.node m
    rw [hm]
  have hparent : ∀ m, (s'.nodes m).parent = (s.nodes m).parent := fun m => by
    obtain ⟨z, f, hm⟩ := hs.node m
    rw [hm]
  have hnext : s'.next = s.next := funext fun m => by
    obtain ⟨z, f, hm⟩ := hs.node m
    rw [Ramfs.next, hm, Ramfs.next]
  constructor
  case chain =>
    intro d hd
    obtain ⟨z, f, hm⟩ := hs.node d
    rw [hnext, hm]
    exact h.chain d (hs.count ▸ hd)
  case kid =>
    intro d hd c hc
    rw [hs.count, hparent]
    exact h.kid d (hs.count ▸ hd) c hc
  case covered =>
    rw [hs.count]
    exact h.covered
  case directory =>
    intro d hd hne
    obtain ⟨z, f, hm⟩ := hs.node d
    rw [hm]
    exact h.directory d (hs.count ▸ hd) hne
  case siblings =>
    simp only [hs.count, hname]
    exact h.siblings
  case name =>
    simp only [hs.count, hname]
    exact h.name
  case inode =>
    intro c hc
    obtain ⟨z, f, hm⟩ := hs.node c
    rw [hm]
    exact h.inode c (hs.count ▸ hc)
  case nextInode =>
    rw [hs.nextInode, hs.count, h.nextInode]
  case rootParent =>
    rw [hs.count, hparent]
    exact h.rootParent

theorem ramfsWrite_sameTree {n off : Nat} {data : List (BitVec 8)} {blk : Option Mem} {r : Int}
    (hw : ramfsWrite s n off data blk = some (r, s')) : SameTree s s' := by
  obtain ⟨-, rfl⟩ | ⟨f, f', -, -, -, -, rfl⟩ := ramfsWrite_inv hw
  · exact SameTree.refl _
  · exact SameTree.setNode ..

end Tree

/-! ## Path resolution stays in the tree -/

structure VfsTree (v : Vfs) (kids : Nat → List Nat) : Prop where
  tree : RamfsTree v.fs kids
  root : v.rootNode = if v.fs.count = 0 then none else some 0

section Resolve

variable {v v' : Vfs} {kids : Nat → List Nat} {path : CStr} {n : Nat}

theorem VfsTree.root_lt (h : VfsTree v kids) (hr : v.rootNode = some n) :
    n = 0 ∧ 0 < v.fs.count := by
  rw [h.root] at hr
  split at hr
  · cases hr
  · cases hr
    exact ⟨rfl, by omega⟩

theorem resolveFrom_lt {s : Ramfs} (h : RamfsTree s kids) :
    ∀ {fuel cur : Nat} {p : CStr}, cur < s.count → resolveFrom s fuel cur p = some n → n < s.count
  | 0, _, _, _, hr => by cases hr
  | fuel + 1, cur, p, hcur, hr => by
      rw [resolveFrom] at hr
      split at hr
      · cases hr
        exact hcur
      · split at hr
        · split at hr
          · cases hr
          · next hl =>
              exact resolveFrom_lt h (h.kid cur hcur _ ((h.lookup_iff hcur).mp hl).1).2.1 hr
        · cases hr

theorem VfsTree.resolve_lt (h : VfsTree v kids) (hr : vfsResolve v path = some n) :
    n < v.fs.count := by
  rw [vfsResolve] at hr
  split at hr
  · cases hr
  · next root hroot =>
      obtain ⟨rfl, hpos⟩ := h.root_lt hroot
      split at hr
      · cases hr
        exact hpos
      · exact resolveFrom_lt h.tree hpos hr

theorem lastSlash_of_notMem {last i : Nat} : ∀ {b : CStr}, slash ∉ b → lastSlash last i b = last
  | [], _ => rfl
  | c :: b, h => by
      rw [List.mem_cons, not_or] at h
      rw [lastSlash, if_neg (Ne.symm h.1), lastSlash_of_notMem h.2]

theorem lastSlash_eq {b : CStr} (hb : slash ∉ b) :
    ∀ {last i : Nat} {a : CStr}, lastSlash last i (a ++ slash :: b) = i + a.length
  | _, _, [] => by
      rw [List.nil_append, lastSlash, if_pos rfl, lastSlash_of_notMem hb]
      rfl
  | _, i, c :: a => by
      rw [List.cons_append, lastSlash, lastSlash_eq hb, List.length_cons]
      omega

theorem vfsResolve_nil (v : Vfs) : vfsResolve v [] = v.rootNode := by
  rw [vfsResolve]
  cases v.rootNode <;> rfl

/-- The path is a parent path, a slash and the leaf, cut to 63 bytes. -/
theorem resolveParent_spec {dir : Nat} {leaf : CStr}
    (h : resolveParent v path VFS_NAME_MAX = some (dir, leaf)) :
    ∃ base rest, path = base ++ slash :: rest ∧ slash ∉ rest
      ∧ leaf = rest.take (VFS_NAME_MAX - 1) ∧ GoodName leaf ∧ vfsResolve v base = some dir := by
  rw [resolveParent] at h
  split at h
  · cases h
  · next hhead =>
      have hmem : slash ∈ path.reverse :=
        List.mem_reverse.mpr (List.mem_of_mem_head? (not_not.mp hhead))
      obtain ⟨b, a, hrev, hb⟩ := List.eq_append_cons_of_mem hmem
      have hpath : path = a.reverse ++ slash :: b.reverse := by
        rw [← List.reverse_reverse path, hrev]
        simp
      have hfree : slash ∉ b.reverse := fun hs => hb (List.mem_reverse.mp hs)
      generalize a.reverse = base at hpath
      generalize b.reverse = rest at hpath hfree
      have hlast : lastSlash 0 0 path = base.length := by
        rw [hpath, lastSlash_eq hfree, Nat.zero_add]
      have hrest : path.drop (base.length + 1) = rest := by
        rw [hpath, ← List.drop_drop, List.drop_left]
        rfl
      have hbase : path.take base.length = base := by rw [hpath, List.take_left]
      simp only [hlast, hrest, hbase] at h
      refine ⟨base, rest, hpath, hfree, ?_⟩
      have hgood : rest.take (VFS_NAME_MAX - 1) ≠ [] →
          GoodName (rest.take (VFS_NAME_MAX - 1)) := fun hne =>
        ⟨hne, Nat.lt_of_le_of_lt (List.length_take_le ..) (by decide),
          fun hs => hfree (List.mem_of_mem_take hs)⟩
      split at h
      · cases h
      · next hne =>
          split at h
          · next h0 =>
              obtain ⟨root, hroot, heq⟩ := Option.map_eq_some_iff.mp h
              cases heq
              refine ⟨rfl, hgood hne, ?_⟩
              rw [List.length_eq_zero_iff.mp h0, vfsResolve_nil, hroot]
          · split at h
            · cases h
            · obtain ⟨d, hres, heq⟩ := Option.map_eq_some_iff.mp h
              cases heq
              exact ⟨rfl, hgood hne, hres⟩

end Resolve

/-! ## Calls -/

section Calls

variable {v v' : Vfs} {kids : Nat → List Nat} {path : CStr} {a : NodeAlloc} {flags : BitVec 32}

/-- What a creation did: the leaf of the path is new in the directory before it. -/
structure NewLeaf (v : Vfs) (a : NodeAlloc) (path : CStr) (flags : BitVec 32) (fs : Ramfs)
    (base rest : CStr) (dir : Nat) : Prop where
  call : vfsCreate v a path flags = (some v.fs.count, { v with fs := fs })
  split : path = base ++ slash :: rest
  noSlash : slash ∉ rest
  good : GoodName (rest.take (VFS_NAME_MAX - 1))
  parent : vfsResolve v base = some dir
  lt : dir < v.fs.count
  directory : (v.fs.nodes dir).isDirectory = true
  free : ramfsLookup v.fs dir (rest.take (VFS_NAME_MAX - 1)) = none
  made : Created v.fs fs dir (rest.take (VFS_NAME_MAX - 1)) flags (newPayload a flags)

/-- Either nothing happens, or the resolved parent gets a new child. -/
theorem VfsTree.create_cases (h : VfsTree v kids) (a : NodeAlloc) (path : CStr)
    (flags : BitVec 32) :
    vfsCreate v a path flags = (none, v) ∨
      ∃ fs base rest dir, NewLeaf v a path flags fs base rest dir := by
  cases hp : resolveParent v path VFS_NAME_MAX with
  | none => exact Or.inl (by rw [vfsCreate, hp])
  | some r =>
      obtain ⟨dir, leaf⟩ := r
      obtain ⟨base, rest, hpath, hrest, rfl, hgood, hres⟩ := resolveParent_spec hp
      have hlt := h.resolve_lt hres
      rcases ramfsCreate_cases v.fs a (rest.take (VFS_NAME_MAX - 1)) flags hlt with
        hc | ⟨fs, hc, hdir, hfree, hcr⟩
      · refine Or.inl ?_
        simp only [vfsCreate, hp, hc, ite_self]
      · refine Or.inr ⟨fs, base, rest, dir, ?_, hpath, hrest, hgood, hres, hlt, hdir, hfree, hcr⟩
        simp only [vfsCreate, hp, hc, hdir, if_true]

theorem VfsTree.create (h : VfsTree v kids) (a : NodeAlloc) (path : CStr) (flags : BitVec 32) :
    ∃ kids', VfsTree (vfsCreate v a path flags).2 kids' := by
  rcases h.create_cases a path flags with hc | ⟨fs, base, rest, dir, hnew⟩
  · rw [hc]
    exact ⟨kids, h⟩
  · rw [hnew.call]
    refine ⟨_, h.tree.create hnew.lt hnew.made hnew.directory hnew.good hnew.free, ?_⟩
    have hlt := hnew.lt
    simp only [h.root, hnew.made.count]
    rw [if_neg (by omega), if_neg (by omega)]

theorem VfsTree.same (h : VfsTree v kids) (hs : SameTree v.fs v'.fs)
    (hroot : v'.rootNode = v.rootNode) : VfsTree v' kids :=
  ⟨hs.tree h.tree, by rw [hroot, h.root, hs.count]⟩

theorem openNode_tree (v : Vfs) (a : NodeAlloc) (path : CStr) (flags : BitVec 32) :
    (openNode v a path flags).2 = v ∨
      ∃ kind, (openNode v a path flags).2 = (vfsCreate v a path kind).2 := by
  rw [openNode]
  split
  · exact Or.inl rfl
  · split
    · exact Or.inr ⟨VFS_FILE, rfl⟩
    · exact Or.inl rfl

/-- An open fails, or it installs the node in a free descriptor. -/
theorem vfsOpen_cases (v : Vfs) (a : NodeAlloc) (path : CStr) (flags : BitVec 32) :
    vfsOpen v a path flags = (-1, (openNode v a path flags).2) ∨
      ∃ n fd, (openNode v a path flags).1 = some n
        ∧ allocFd (openNode v a path flags).2 = some fd
        ∧ vfsOpen v a path flags
          = ((fd : Int), installFd (openNode v a path flags).2 fd n flags) := by
  rcases hnode : openNode v a path flags with ⟨_ | n, w⟩
  · exact Or.inl (by rw [vfsOpen, hnode])
  · cases hfd : allocFd w with
    | none => exact Or.inl (by simp only [vfsOpen, hnode, hfd])
    | some fd => exact Or.inr ⟨n, fd, rfl, rfl, by simp only [vfsOpen, hnode, hfd]⟩

theorem installFd_sameTree (v : Vfs) (fd node : Nat) (flags : BitVec 32) :
    SameTree v.fs (installFd v fd node flags).fs := by
  simp only [installFd]
  split
  · exact SameTree.setNode ..
  · exact SameTree.refl _

theorem advanceFd_same (v : Vfs) (fd : Nat) (k : Int) :
    (advanceFd v fd k).fs = v.fs ∧ (advanceFd v fd k).rootNode = v.rootNode := by
  rw [advanceFd]
  split
  · exact ⟨rfl, rfl⟩
  · exact ⟨rfl, rfl⟩

/-- A write that returns fails and changes nothing, or is that of `ramfs_write` at the offset
of the descriptor, which moves on by the result. -/
theorem vfsWrite_inv {fd : Int} {data : List (BitVec 8)} {blk : Option Mem} {r : Int}
    (hcall : vfsWrite v fd data blk = some (r, v')) :
    (r = -1 ∧ v' = v) ∨ ∃ n fs, fdValid v fd = true ∧ (v.fdTable fd.toNat).node = some n
      ∧ ramfsWrite v.fs n (v.fdTable fd.toNat).offset data blk = some (r, fs)
      ∧ v' = advanceFd { v with fs := fs } fd.toNat r := by
  rw [vfsWrite] at hcall
  split at hcall
  · next hvalid =>
      split at hcall
      · cases hcall
        exact Or.inl ⟨rfl, rfl⟩
      · next n hnode =>
          split at hcall
          · cases hcall
          · next m fs hw =>
              cases hcall
              exact Or.inr ⟨n, fs, hvalid, hnode, hw, rfl⟩
  · cases hcall
    exact Or.inl ⟨rfl, rfl⟩

theorem vfsWrite_sameTree {fd : Int} {data : List (BitVec 8)} {blk : Option Mem} {r : Int}
    (hcall : vfsWrite v fd data blk = some (r, v')) :
    SameTree v.fs v'.fs ∧ v'.rootNode = v.rootNode := by
  obtain ⟨-, rfl⟩ | ⟨n, fs, -, -, hw, rfl⟩ := vfsWrite_inv hcall
  · exact ⟨SameTree.refl _, rfl⟩
  · obtain ⟨hfs, hroot⟩ := advanceFd_same { v with fs := fs } fd.toNat r
    rw [hfs, hroot]
    exact ⟨ramfsWrite_sameTree hw, rfl⟩

theorem vfsClose_same (v : Vfs) (fd : Int) :
    (vfsClose v fd).2.fs = v.fs ∧ (vfsClose v fd).2.rootNode = v.rootNode := by
  rw [vfsClose]
  split
  · exact ⟨rfl, rfl⟩
  · exact ⟨rfl, rfl⟩

theorem vfsRead_same (v : Vfs) (fd : Int) (buf : Mem) (size : Nat) :
    (vfsRead v fd buf size).2.2.fs = v.fs ∧ (vfsRead v fd buf size).2.2.rootNode = v.rootNode := by
  rw [vfsRead]
  split
  · split
    · exact ⟨rfl, rfl⟩
    · exact advanceFd_same ..
  · exact ⟨rfl, rfl⟩

/-- Everything a call can do to the tree: at most one creation. -/
theorem vfsCall_tree {c : VfsCall} {r : Int} (hcall : vfsCall v c = some (r, v')) :
    ∃ w, (w = v ∨ ∃ a path flags, w = (vfsCreate v a path flags).2)
      ∧ SameTree w.fs v'.fs ∧ v'.rootNode = w.rootNode := by
  cases c with
  | mkdir path a =>
      cases hcall
      exact ⟨_, Or.inr ⟨a, path, VFS_DIRECTORY, rfl⟩, SameTree.refl _, rfl⟩
  | createFile path a =>
      cases hcall
      exact ⟨_, Or.inr ⟨a, path, VFS_FILE, rfl⟩, SameTree.refl _, rfl⟩
  | openFile path flags a =>
      refine ⟨(openNode v a path flags).2, ?_, ?_⟩
      · rcases openNode_tree v a path flags with hw | ⟨kind, hw⟩
        · exact Or.inl hw
        · exact Or.inr ⟨a, path, kind, hw⟩
      · have heq : (vfsOpen v a path flags).2 = v' := congrArg Prod.snd (Option.some.inj hcall)
        rcases vfsOpen_cases v a path flags with ho | ⟨n, fd, -, -, ho⟩
        · rw [← heq, ho]
          exact ⟨SameTree.refl _, rfl⟩
        · rw [← heq, ho]
          exact ⟨installFd_sameTree .., rfl⟩
  | close fd =>
      have heq : (vfsClose v fd).2 = v' := congrArg Prod.snd (Option.some.inj hcall)
      obtain ⟨hfs, hroot⟩ := vfsClose_same v fd
      rw [heq] at hfs hroot
      exact ⟨v, Or.inl rfl, hfs ▸ SameTree.refl _, hroot⟩
  | read fd buf size =>
      cases hcall
      obtain ⟨hfs, hroot⟩ := vfsRead_same v fd buf size
      exact ⟨v, Or.inl rfl, hfs ▸ SameTree.refl _, hroot⟩
  | write fd data blk => exact ⟨v, Or.inl rfl, vfsWrite_sameTree hcall⟩

/-- Every call keeps the tree. -/
theorem VfsTree.call (h : VfsTree v kids) {c : VfsCall} {r : Int}
    (hcall : vfsCall v c = some (r, v')) : ∃ kids', VfsTree v' kids' := by
  obtain ⟨w, hw, hs, hroot⟩ := vfsCall_tree hcall
  have hw : ∃ kids', VfsTree w kids' := by
    rcases hw with rfl | ⟨a, path, flags, rfl⟩
    · exact ⟨kids, h⟩
    · exact h.create a path flags
  obtain ⟨kids', hw⟩ := hw
  exact ⟨kids', hw.same hs hroot⟩

/-- A node keeps its type. -/
theorem VfsTree.call_flags (h : VfsTree v kids) {c : VfsCall} {r : Int}
    (hcall : vfsCall v c = some (r, v')) {n : Nat} (hn : n < v.fs.count) :
    (v'.fs.nodes n).flags = (v.fs.nodes n).flags := by
  obtain ⟨w, hw, hs, -⟩ := vfsCall_tree hcall
  obtain ⟨z, f, hnode⟩ := hs.node n
  rw [hnode]
  rcases hw with rfl | ⟨a, path, flags, rfl⟩
  · rfl
  · rcases h.create_cases a path flags with hc | ⟨fs, base, rest, dir, hnew⟩
    · rw [hc]
    · obtain ⟨q, hq, -⟩ := hnew.made.old hn
      rw [hnew.call, hq]

/-! ## Runs -/

/-- A property of the nodes that every step of `ramfs_init` keeps. -/
structure BootRule (P : Ramfs → Prop) : Prop where
  static : P vfsStatic.fs
  root : ∀ {b s}, allocNode vfsStatic.fs b [slash] VFS_DIRECTORY = (some 0, s) → P s
  create : ∀ {s s' dir name flags file}, Created s s' dir name flags file →
    (file = none ∨ file = some ⟨none, 0⟩) → P s → P s'
  write : ∀ {s s' n blk r}, n < s.count → ramfsWrite s n 0 motdText blk = some (r, s') → P s → P s'

/-- The state of `ramfs_init` after the root is there. -/
structure BootInv (P : Ramfs → Prop) (s : Ramfs) : Prop where
  tree : ∃ kids, RamfsTree s kids
  pos : 0 < s.count
  holds : P s

section Boot

variable {P : Ramfs → Prop} {s s' : Ramfs}

theorem BootInv.create (h : BootInv P s) (hP : BootRule P) {dir : Nat} (hdir : dir < s.count)
    (a : NodeAlloc) (name : CStr) (flags : BitVec 32) (hname : GoodName name) :
    s.count ≤ (ramfsCreate s a dir name flags).2.count
      ∧ BootInv P (ramfsCreate s a dir name flags).2 := by
  rcases ramfsCreate_cases s a name flags hdir with hc | ⟨s', hc, hd, hfree, hcr⟩
  · rw [hc]
    exact ⟨Nat.le_refl _, h⟩
  · obtain ⟨kids, ht⟩ := h.tree
    have hle : s.count ≤ s'.count := by rw [hcr.count]; omega
    rw [hc]
    exact ⟨hle, ⟨_, ht.create hdir hcr hd hname hfree⟩, Nat.lt_of_lt_of_le h.pos hle,
      hP.create hcr (newPayload_cases a flags) h.holds⟩

theorem BootInv.createMotd (h : BootInv P s) (hP : BootRule P) {b : BootAllocs}
    (hm : createMotd s b 0 = some s') : BootInv P s' := by
  obtain ⟨kids, ht⟩ := h.tree
  simp only [Matryoshka.createMotd] at hm
  split at hm
  · cases hm
    exact h
  · next etc hl =>
      have hetc := (ht.kid 0 h.pos etc ((ht.lookup_iff h.pos).mp hl).1).2.1
      obtain ⟨-, h'⟩ := h.create hP hetc b.motd (ascii ['m', 'o', 't', 'd']) VFS_FILE (by decide)
      rcases ramfsCreate_cases s b.motd (ascii ['m', 'o', 't', 'd']) VFS_FILE hetc with
        hc | ⟨s₁, hc, -, -, hcr⟩
      · rw [hc] at hm
        cases hm
        exact h
      · rw [hc] at hm h'
        obtain ⟨⟨r, s₂⟩, hw, rfl⟩ := Option.map_eq_some_iff.mp hm
        have hs := ramfsWrite_sameTree hw
        obtain ⟨kids', ht'⟩ := h'.tree
        exact ⟨⟨kids', hs.tree ht'⟩, by rw [hs.count]; exact h'.pos,
          hP.write (by rw [hcr.count]; omega) hw h'.holds⟩

/-- The root alone. -/
theorem rootAlloc_tree {b : NodeAlloc} (hb : b.node = true) :
    ∃ s, allocNode vfsStatic.fs b [slash] VFS_DIRECTORY = (some 0, s) ∧ s.count = 1
      ∧ RamfsTree s fun _ => [] := by
  refine ⟨_, by rw [allocNode, if_pos hb]; rfl, rfl, ?_⟩
  constructor
  case kid => exact fun _ _ _ hc => absurd hc List.not_mem_nil
  case covered => exact fun c hc h0 => absurd (Nat.lt_one_iff.mp hc) h0
  case directory => exact fun _ _ hne => absurd rfl hne
  case siblings => exact fun _ _ => List.nodup_nil
  case name => exact fun c hc h0 => absurd (Nat.lt_one_iff.mp hc) h0
  case nextInode => rfl
  case rootParent => exact fun _ => rfl
  case chain =>
    intro d hd
    rw [Nat.lt_one_iff.mp hd]
    rfl
  case inode =>
    intro c hc
    rw [Nat.lt_one_iff.mp hc]
    rfl

/-- What holds after boot, whatever was allocated. -/
theorem BootRule.booted (hP : BootRule P) (hb : Booted v) :
    (∃ kids, VfsTree v kids) ∧ P v.fs ∧ ∀ fd, v.fdTable fd = ⟨none, 0, 0#32, false⟩ := by
  obtain ⟨b, hb⟩ := hb
  by_cases hroot : b.root.node = true
  · obtain ⟨s, hs, hone, ht⟩ := rootAlloc_tree hroot
    have hinit : (vfsInit vfsStatic).fs = vfsStatic.fs := rfl
    simp only [ramfsInit, hinit, hs] at hb
    obtain ⟨fs, hm, rfl⟩ := Option.map_eq_some_iff.mp hb
    have h : BootInv P s := ⟨⟨_, ht⟩, by omega, hP.root hs⟩
    have h := (h.create hP h.pos b.tmp (ascii ['t', 'm', 'p']) VFS_DIRECTORY (by decide)).2
    have h := (h.create hP h.pos b.dev (ascii ['d', 'e', 'v']) VFS_DIRECTORY (by decide)).2
    have h := (h.create hP h.pos b.etc (ascii ['e', 't', 'c']) VFS_DIRECTORY (by decide)).2
    have h := h.createMotd hP hm
    obtain ⟨kids, ht⟩ := h.tree
    exact ⟨⟨kids, ht, by rw [if_neg (by simpa using h.pos.ne')]⟩, h.holds, fun _ => rfl⟩
  · -- no root: nothing is mounted and the tree stays empty
    simp only [ramfsInit, allocNode, hroot] at hb
    cases hb
    refine ⟨⟨fun _ => [], ?_, rfl⟩, hP.static, fun _ => rfl⟩
    constructor <;> intros <;> first | contradiction | rfl

end Boot

theorem trivial_bootRule : BootRule fun _ => True :=
  ⟨trivial, fun _ => trivial, fun _ _ _ => trivial, fun _ _ _ => trivial⟩

theorem booted_tree (hb : Booted v) : ∃ kids, VfsTree v kids := (trivial_bootRule.booted hb).1

theorem vfsSteps_tree {Ok : List FsEvent → Vfs → VfsCall → Prop} {log₀ log : List FsEvent}
    {v₀ : Vfs} (h₀ : ∃ kids, VfsTree v₀ kids) (hs : VfsSteps Ok log₀ v₀ log v) :
    ∃ kids, VfsTree v kids := by
  induction hs with
  | refl => exact h₀
  | call _ _ _ hcall ih =>
      obtain ⟨kids, h⟩ := ih
      exact h.call hcall

theorem vfsRun_tree {Ok : List FsEvent → Vfs → VfsCall → Prop} {log : List FsEvent}
    (h : VfsRun Ok log v) : ∃ kids, VfsTree v kids := by
  obtain ⟨v₀, hb, hs⟩ := h
  exact vfsSteps_tree (booted_tree hb) hs

end Calls

/-! ## The contract of the directory tree -/

/-- `n` hangs below the root, under these names, by its parent pointers. -/
inductive NamePath (v : Vfs) : Nat → List CStr → Prop
  | root {r : Nat} : v.rootNode = some r → NamePath v r []
  | child {c d : Nat} {names : List CStr} : NamePath v d names → c < v.fs.count →
      (v.fs.nodes c).parent = some d → NamePath v c (names ++ [(v.fs.nodes c).name])

structure DirectoryTree (v : Vfs) (kids : Nat → List Nat) : Prop where
  lists : ∀ d < v.fs.count, Links v.fs.next (v.fs.nodes d).children (kids d)
  rooted : ∀ c < v.fs.count, ∃ names, NamePath v c names
  once : ∀ c < v.fs.count, v.rootNode ≠ some c → ∃! d, d < v.fs.count ∧ c ∈ kids d
  nodup : ∀ d < v.fs.count, (kids d).Nodup
  parent : ∀ d < v.fs.count, ∀ c ∈ kids d,
    c < v.fs.count ∧ v.rootNode ≠ some c ∧ (v.fs.nodes c).parent = some d
  directories : ∀ d < v.fs.count, kids d ≠ [] → (v.fs.nodes d).isDirectory = true
  siblings : ∀ d < v.fs.count, ∀ b ∈ kids d, ∀ c ∈ kids d, b ≠ c →
    (v.fs.nodes b).name ≠ (v.fs.nodes c).name
  names : ∀ c < v.fs.count, v.rootNode ≠ some c → 1 ≤ (v.fs.nodes c).name.length
    ∧ (v.fs.nodes c).name.length ≤ 63 ∧ slash ∉ (v.fs.nodes c).name
  inodes : v.fs.count < 2 ^ 32 → ∀ b < v.fs.count, ∀ c < v.fs.count, b ≠ c →
    (v.fs.nodes b).inode ≠ (v.fs.nodes c).inode
  readdir : ∀ d < v.fs.count, ∀ index < 2 ^ 32, ramfsReaddir v.fs d index =
    ((kids d)[index]?).map fun c => ((v.fs.nodes c).name, (v.fs.nodes c).flags)
  lookup : ∀ d < v.fs.count, ∀ name c,
    ramfsLookup v.fs d name = some c ↔ c ∈ kids d ∧ (v.fs.nodes c).name = name
  sameNames : v.fs.count < 2 ^ 32 → ∀ d < v.fs.count, ∀ name,
    (ramfsLookup v.fs d name).isSome = true ↔
      ∃ index < 2 ^ 32, ∃ type, ramfsReaddir v.fs d index = some (name, type)

section Contract

variable {v : Vfs} {kids : Nat → List Nat}

theorem VfsTree.zero_of_root (h : VfsTree v kids) {c : Nat} (hc : c < v.fs.count) :
    v.rootNode = some c ↔ c = 0 := by
  rw [h.root, if_neg (by omega), Option.some.injEq, eq_comm]

/-- Parents are older, so the way up from any node ends at the root. -/
theorem VfsTree.namePath (h : VfsTree v kids) (c : Nat) (hc : c < v.fs.count) :
    ∃ names, NamePath v c names := by
  induction c using Nat.strong_induction_on with
  | _ c ih =>
      by_cases h0 : c = 0
      · exact ⟨[], .root ((h.zero_of_root hc).mpr h0)⟩
      · obtain ⟨d, hd, hmem⟩ := h.tree.covered c hc h0
        obtain ⟨hlt, -, hpar⟩ := h.tree.kid d hd c hmem
        obtain ⟨names, hn⟩ := ih d hlt hd
        exact ⟨_, hn.child hc hpar⟩

theorem VfsTree.sameNames (h : VfsTree v kids) (hcount : v.fs.count < 2 ^ 32) {d : Nat}
    (hd : d < v.fs.count) (name : CStr) :
    (ramfsLookup v.fs d name).isSome = true ↔
      ∃ index < 2 ^ 32, ∃ type, ramfsReaddir v.fs d index = some (name, type) := by
  rw [Option.isSome_iff_exists]
  constructor
  · rintro ⟨c, hl⟩
    obtain ⟨hmem, hname⟩ := (h.tree.lookup_iff hd).mp hl
    obtain ⟨index, hlt, hget⟩ := List.getElem_of_mem hmem
    have hle := h.tree.length_le hd
    refine ⟨index, by omega, (v.fs.nodes c).flags, ?_⟩
    rw [h.tree.readdir_eq hd (by omega), List.getElem?_eq_getElem hlt, hget, Option.map_some, hname]
  · rintro ⟨index, hlt, type, hr⟩
    rw [h.tree.readdir_eq hd hlt] at hr
    obtain ⟨c, hget, heq⟩ := Option.map_eq_some_iff.mp hr
    exact ⟨c, (h.tree.lookup_iff hd).mpr
      ⟨List.mem_of_getElem? hget, congrArg Prod.fst heq⟩⟩

theorem VfsTree.directoryTree (h : VfsTree v kids) : DirectoryTree v kids where
  lists := h.tree.chain
  rooted := h.namePath
  once c hc hroot := by
    obtain ⟨d, hd, hmem⟩ := h.tree.covered c hc fun h0 => hroot ((h.zero_of_root hc).mpr h0)
    refine ⟨d, ⟨hd, hmem⟩, fun e he => ?_⟩
    have hpar := (h.tree.kid e he.1 c he.2).2.2
    rw [(h.tree.kid d hd c hmem).2.2] at hpar
    exact (Option.some.inj hpar).symm
  nodup _ hd := h.tree.nodup hd
  parent d hd c hmem := by
    obtain ⟨hlt, hc, hpar⟩ := h.tree.kid d hd c hmem
    refine ⟨hc, fun hroot => ?_, hpar⟩
    have := (h.zero_of_root hc).mp hroot
    omega
  directories := h.tree.directory
  siblings d hd b hb c hc hne heq :=
    hne (List.inj_on_of_nodup_map (h.tree.siblings d hd) hb hc heq)
  names c hc hroot := by
    obtain ⟨hne, hlen, hs⟩ := h.tree.name c hc fun h0 => hroot ((h.zero_of_root hc).mpr h0)
    exact ⟨List.length_pos_iff.mpr hne, Nat.le_of_lt_succ hlen, hs⟩
  inodes hcount b hb c hc hne heq := by
    rw [h.tree.inode b hb, h.tree.inode c hc, u32_of_lt (by omega), u32_of_lt (by omega)] at heq
    omega
  readdir _ hd _ hindex := h.tree.readdir_eq hd hindex
  lookup _ hd _ _ := h.tree.lookup_iff hd
  sameNames hcount _ hd name := h.sameNames hcount hd name

/-- In every reachable state the nodes form a directory tree under the root. -/
theorem ramfs_tree_invariant (h : VfsReachable v) : ∃ kids, DirectoryTree v kids := by
  obtain ⟨log, hrun⟩ := h
  obtain ⟨kids, ht⟩ := vfsRun_tree hrun
  exact ⟨kids, ht.directoryTree⟩

end Contract

/-- `mkdir /a`, a file `/a/b` without a payload, and a second `mkdir /a`, which fails. -/
def nestedCalls : List VfsCall :=
  [.mkdir (slash :: ascii ['a']) ⟨true, true⟩,
    .createFile (slash :: ascii ['a'] ++ slash :: ascii ['b']) ⟨true, false⟩,
    .mkdir (slash :: ascii ['a']) ⟨true, true⟩]

theorem ramfs_tree_invariant_nested :
    VfsReachable (fullRun (fun _ _ _ => True) nestedCalls).2
      ∧ (fullRun (fun _ _ _ => True) nestedCalls).2.fs.count = 7
      ∧ ∃ kids, DirectoryTree (fullRun (fun _ _ _ => True) nestedCalls).2 kids := by
  have hrun := fullRun_run (fun _ _ _ => True) nestedCalls
  exact ⟨⟨_, hrun⟩, by decide +kernel, ramfs_tree_invariant ⟨_, hrun⟩⟩

end Matryoshka
