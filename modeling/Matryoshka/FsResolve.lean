import Matryoshka.FsTree
import Matryoshka.SepPath

/-!
# Paths and nodes

`vfs_resolve` follows the 63-byte pieces of a path from the root
(`vfsResolve_eq`), so it finds `n` exactly if `n` hangs below the root
under these names (`VfsTree.resolve_iff`). A node has one such list of
names, and creation adds one list to one new node; what paths mean before
and after a creation, and which paths meet, follows from that.

A path whose components fit into 63 bytes means its components. A longer
component is not rejected: the scanner returns its rest as the next
component, and the path runs into a deeper one.
-/

namespace Matryoshka

open SepPath

/-! ## Scanning a path -/

/-- The names `vfs_resolve` looks up. -/
def pathNames (p : CStr) : List CStr := pieces slash (VFS_NAME_MAX - 1) p

/-- The path's meaning: its non-empty components. -/
def pathComponents (p : CStr) : List CStr := components slash p

/-- Every component fits into the buffer of `vfs_resolve`. -/
def ShortPath (p : CStr) : Prop := ∀ c ∈ pathComponents p, c.length ≤ VFS_NAME_MAX - 1

instance (p : CStr) : Decidable (ShortPath p) :=
  inferInstanceAs (Decidable (∀ c ∈ pathComponents p, _))

theorem ShortPath.names_eq {p : CStr} (h : ShortPath p) : pathNames p = pathComponents p :=
  pieces_eq_components h

theorem nextComponent_none {p : CStr} (h : nextComponent p VFS_NAME_MAX = none) :
    pathNames p = [] := by
  simp only [nextComponent] at h
  split at h
  · next hp =>
      rw [pathNames, ← pieces_dropWhile, hp]
      rfl
  · cases h

/-- One turn of the scanner takes the first name and leaves the others. -/
theorem nextComponent_some {p comp rest : CStr}
    (h : nextComponent p VFS_NAME_MAX = some (comp, rest)) :
    pathNames p = comp :: pathNames rest ∧ rest.length < p.length := by
  simp only [nextComponent] at h
  split at h
  · cases h
  · next hne =>
      cases h
      have hle : (p.dropWhile (· == slash)).length ≤ p.length := List.length_dropWhile_le ..
      generalize hq : p.dropWhile (· == slash) = q at hne hle ⊢
      obtain ⟨b, q', rfl⟩ := List.exists_cons_of_ne_nil hne
      have hb : b ≠ slash := by
        have := List.head_dropWhile_not (· == slash) (l := p) (by rw [hq]; simp)
        simpa [hq] using this
      have hcons := pieces_eq_cons (n := VFS_NAME_MAX - 1) (by decide) hne
        (by simpa using hb)
      refine ⟨by rw [pathNames, ← pieces_dropWhile, hq, hcons]; rfl, ?_⟩
      rw [List.takeWhile_cons_of_pos (by simpa using hb)]
      simp only [VFS_NAME_MAX, List.take_succ_cons, List.length_cons, List.drop_succ_cons,
        List.length_drop] at hle ⊢
      omega

/-- Following a list of names from a node. -/
def walkNames (s : Ramfs) (cur : Nat) : List CStr → Option Nat
  | [] => some cur
  | name :: names => (ramfsLookup s cur name).bind fun c => walkNames s c names

theorem walkNames_append (s : Ramfs) (b : List CStr) :
    ∀ (cur : Nat) (a : List CStr),
      walkNames s cur (a ++ b) = (walkNames s cur a).bind fun c => walkNames s c b
  | _, [] => rfl
  | cur, name :: a => by
      rw [List.cons_append, walkNames, walkNames, Option.bind_assoc]
      exact congrArg _ (funext fun c => walkNames_append s b c a)

theorem resolveFrom_eq (s : Ramfs) :
    ∀ (fuel cur : Nat) (p : CStr), p.length < fuel →
      resolveFrom s fuel cur p = walkNames s cur (pathNames p)
  | 0, _, _, h => by omega
  | fuel + 1, cur, p, h => by
      rw [resolveFrom]
      split
      · next hn =>
          rw [nextComponent_none hn]
          rfl
      · next comp rest hn =>
          obtain ⟨hnames, hlt⟩ := nextComponent_some hn
          rw [hnames, walkNames]
          by_cases hd : (s.nodes cur).isDirectory = true
          · rw [if_pos hd]
            cases hl : ramfsLookup s cur comp with
            | none => rfl
            | some c => exact resolveFrom_eq s fuel c rest (by omega)
          · have hl : ramfsLookup s cur comp = none := by rw [ramfsLookup, if_neg hd]
            rw [if_neg hd, hl]
            rfl

/-- `vfs_resolve` depends on the names of the path only. -/
theorem vfsResolve_eq (v : Vfs) (p : CStr) :
    vfsResolve v p = v.rootNode.bind fun root => walkNames v.fs root (pathNames p) := by
  rw [vfsResolve]
  cases v.rootNode with
  | none => rfl
  | some root =>
      simp only [Option.bind_some]
      split
      · next heq =>
          rw [heq]
          rfl
      · exact resolveFrom_eq v.fs _ root p (Nat.lt_succ_self _)

/-! ## Name paths -/

section Paths

variable {v : Vfs} {kids : Nat → List Nat} {n d : Nat} {p : CStr} {names : List CStr}

theorem NamePath.lt (h : VfsTree v kids) (hn : NamePath v n names) : n < v.fs.count := by
  cases hn with
  | root hr =>
      obtain ⟨rfl, hpos⟩ := h.root_lt hr
      exact hpos
  | child _ hc _ => exact hc

/-- The parent pointer of a node and the list of children it is in agree. -/
theorem VfsTree.parent_iff (h : VfsTree v kids) (hn : n < v.fs.count) :
    (v.fs.nodes n).parent = some d ↔ d < v.fs.count ∧ n ∈ kids d := by
  constructor
  · intro hpar
    by_cases h0 : n = 0
    · rw [h0, h.tree.rootParent (by omega)] at hpar
      cases hpar
    · obtain ⟨e, he, hmem⟩ := h.tree.covered n hn h0
      rw [(h.tree.kid e he n hmem).2.2] at hpar
      cases hpar
      exact ⟨he, hmem⟩
  · rintro ⟨hd, hmem⟩
    exact (h.tree.kid d hd n hmem).2.2

theorem walkNames_namePath (h : VfsTree v kids) :
    ∀ {names above : List CStr} {cur : Nat}, NamePath v cur above →
      walkNames v.fs cur names = some n → NamePath v n (above ++ names)
  | [], above, cur, hcur, hw => by
      cases hw
      rwa [List.append_nil]
  | name :: names, above, cur, hcur, hw => by
      obtain ⟨c, hl, hc'⟩ := Option.bind_eq_some_iff.mp hw
      have hlt := hcur.lt h
      obtain ⟨hmem, rfl⟩ := (h.tree.lookup_iff hlt).mp hl
      obtain ⟨-, hc, hpar⟩ := h.tree.kid cur hlt c hmem
      have := walkNames_namePath h (hcur.child hc hpar) hc'
      rwa [List.append_assoc, List.singleton_append] at this

theorem NamePath.walk (h : VfsTree v kids) (hn : NamePath v n names) :
    (v.rootNode.bind fun root => walkNames v.fs root names) = some n := by
  induction hn with
  | root hr =>
      rw [hr]
      rfl
  | @child c d names hd hc hpar ih =>
      obtain ⟨root, hroot, hw⟩ := Option.bind_eq_some_iff.mp ih
      obtain ⟨hdlt, hmem⟩ := (h.parent_iff hc).mp hpar
      rw [hroot, Option.bind_some, walkNames_append, hw, Option.bind_some, walkNames,
        (h.tree.lookup_iff hdlt).mpr ⟨hmem, rfl⟩]
      rfl

/-- A path resolves to the node that hangs below the root under its names. -/
theorem VfsTree.resolve_iff (h : VfsTree v kids) :
    vfsResolve v p = some n ↔ NamePath v n (pathNames p) := by
  rw [vfsResolve_eq]
  constructor
  · intro hr
    obtain ⟨root, hroot, hw⟩ := Option.bind_eq_some_iff.mp hr
    simpa using walkNames_namePath h (.root hroot) hw
  · exact fun hn => hn.walk h

/-- A node hangs below the root under one list of names. -/
theorem NamePath.unique (h : VfsTree v kids) {names' : List CStr} (hn : NamePath v n names)
    (hn' : NamePath v n names') : names = names' := by
  induction hn generalizing names' with
  | root hr =>
      cases hn' with
      | root => rfl
      | child hd hc hpar =>
          rw [(h.root_lt hr).1, h.tree.rootParent (h.root_lt hr).2] at hpar
          cases hpar
  | child hd hc hpar ih =>
      cases hn' with
      | root hr =>
          rw [(h.root_lt hr).1, h.tree.rootParent (h.root_lt hr).2] at hpar
          cases hpar
      | child hd' _ hpar' =>
          rw [hpar] at hpar'
          cases hpar'
          rw [ih hd']

/-- Sizes and payloads have no part in what a path means. -/
theorem SameTree.namePath {v' : Vfs} (hs : SameTree v.fs v'.fs) (hroot : v'.rootNode = v.rootNode)
    (hn : NamePath v n names) : NamePath v' n names := by
  induction hn with
  | root hr => exact .root (hroot.trans hr)
  | @child c d names _ hlt hpar ih =>
      obtain ⟨z, f, hc⟩ := hs.node c
      have := NamePath.child (c := c) ih (by rw [hs.count]; exact hlt) (by rw [hc]; exact hpar)
      rwa [show (v'.fs.nodes c).name = (v.fs.nodes c).name by rw [hc]] at this

theorem SameTree.symm {s s' : Ramfs} (hs : SameTree s s') : SameTree s' s := by
  refine ⟨hs.count.symm, hs.nextInode.symm, fun m => ⟨(s.nodes m).size, (s.nodes m).fsData, ?_⟩⟩
  obtain ⟨z, f, hm⟩ := hs.node m
  rw [hm]

theorem VfsTree.resolve_same {v' : Vfs} (h : VfsTree v kids) (hs : SameTree v.fs v'.fs)
    (hroot : v'.rootNode = v.rootNode) (q : CStr) : vfsResolve v' q = vfsResolve v q := by
  refine Option.ext fun m => ?_
  rw [(h.same hs hroot).resolve_iff, h.resolve_iff]
  exact ⟨hs.symm.namePath hroot.symm, hs.namePath hroot⟩

end Paths

/-! ## Creation -/

section Creation

variable {v : Vfs} {kids : Nat → List Nat} {n dir : Nat} {fs : Ramfs} {name p base rest : CStr}
  {a : NodeAlloc} {flags : BitVec 32} {file : Option RamfsFile} {names : List CStr}

/-- What hung below the root still does, under the same names. -/
theorem Created.namePath (hc : Created v.fs fs dir name flags file)
    (hn : NamePath v n names) : NamePath { v with fs := fs } n names := by
  induction hn with
  | root hr => exact .root hr
  | @child c d names _ hlt hpar ih =>
      obtain ⟨q, hq, -⟩ := hc.old hlt
      have := NamePath.child (c := c) ih (by rw [hc.count]; omega) (by rw [hq]; exact hpar)
      rwa [show (fs.nodes c).name = (v.fs.nodes c).name by rw [hq]] at this

/-- After a creation, an old node keeps its names and the new one hangs below the
directory. -/
theorem Created.namePath_iff (h : VfsTree v kids) (hdir : dir < v.fs.count)
    (hc : Created v.fs fs dir name flags file) :
    NamePath { v with fs := fs } n names ↔ NamePath v n names ∨
      n = v.fs.count ∧ ∃ above, NamePath v dir above
        ∧ names = above ++ [name.take (VFS_NAME_MAX - 1)] := by
  constructor
  · intro hn
    induction hn with
    | root hr => exact Or.inl (.root hr)
    | @child c d names hd hlt hpar ih =>
        by_cases hnew : c = v.fs.count
        · subst hnew
          rw [hc.made] at hpar ⊢
          cases hpar
          rcases ih with hd' | ⟨rfl, -⟩
          · exact Or.inr ⟨rfl, names, hd', rfl⟩
          · omega
        · have hold : c < v.fs.count := by
            have := hc.count ▸ hlt
            omega
          obtain ⟨q, hq, -⟩ := hc.old hold
          rw [hq] at hpar ⊢
          rcases ih with hd' | ⟨rfl, -⟩
          · exact Or.inl (hd'.child hold hpar)
          · exact absurd ((h.parent_iff hold).mp hpar).1 (Nat.lt_irrefl _)
  · rintro (hn | ⟨rfl, above, hd, rfl⟩)
    · exact hc.namePath hn
    · have := NamePath.child (c := v.fs.count) (hc.namePath hd) (by rw [hc.count]; omega)
        (by rw [hc.made])
      rwa [show (fs.nodes v.fs.count).name = name.take (VFS_NAME_MAX - 1) by rw [hc.made]] at this

theorem NewLeaf.rest_ne (hnew : NewLeaf v a p flags fs base rest dir) : rest ≠ [] := by
  intro hnil
  exact hnew.good.1 (by rw [hnil, List.take_nil])

/-- The names of the path of a creation. -/
theorem NewLeaf.names_eq (hnew : NewLeaf v a p flags fs base rest dir) :
    pathNames p = pathNames base ++ chunks (VFS_NAME_MAX - 1) rest := by
  have hrest : pathNames rest = chunks (VFS_NAME_MAX - 1) rest := by
    rw [pathNames, pieces, components_of_notMem hnew.noSlash hnew.rest_ne, List.flatMap_singleton]
  rw [hnew.split, pathNames, pieces_append_sep, ← pathNames, ← pathNames, hrest]

/-- A leaf that fits into the buffer is one name. A longer one is several, and the
new node has the first of them. -/
theorem NewLeaf.names_iff (hnew : NewLeaf v a p flags fs base rest dir) :
    pathNames p = pathNames base ++ [rest.take (VFS_NAME_MAX - 1)] ↔
      rest.length ≤ VFS_NAME_MAX - 1 := by
  rw [hnew.names_eq]
  constructor
  · intro heq
    by_contra hlen
    have hcut := List.append_cancel_left heq
    rw [chunks_of_lt_length (by decide) (by omega), List.cons.injEq] at hcut
    have hmore : rest.drop (VFS_NAME_MAX - 1) ≠ [] := by
      rw [ne_eq, List.drop_eq_nil_iff]
      omega
    exact chunks_ne_nil (by decide) hmore hcut.2
  · intro hlen
    rw [chunks_of_length_le hnew.rest_ne hlen, List.take_of_length_le hlen]

/-- What paths mean after a creation. -/
theorem NewLeaf.resolve_iff (h : VfsTree v kids) (hnew : NewLeaf v a p flags fs base rest dir)
    {q : CStr} : vfsResolve { v with fs := fs } q = some n ↔ vfsResolve v q = some n ∨
      n = v.fs.count ∧ pathNames q = pathNames base ++ [rest.take (VFS_NAME_MAX - 1)] := by
  obtain ⟨kids', h'⟩ := h.create a p flags
  rw [hnew.call] at h'
  have hbase : NamePath v dir (pathNames base) := h.resolve_iff.mp hnew.parent
  have hcut : (rest.take (VFS_NAME_MAX - 1)).take (VFS_NAME_MAX - 1)
      = rest.take (VFS_NAME_MAX - 1) := by
    rw [List.take_take, Nat.min_self]
  rw [h'.resolve_iff, hnew.made.namePath_iff h hnew.lt, h.resolve_iff, hcut]
  refine or_congr_right (and_congr_right fun _ => ⟨?_, fun heq => ⟨_, hbase, heq⟩⟩)
  rintro ⟨above, habove, heq⟩
  rw [heq, habove.unique h hbase]

/-- A new node `n` answers to the path `p`, and no other path changed its meaning. -/
structure CreatedAt (v v' : Vfs) (p : CStr) (n : Nat) : Prop where
  fresh : n = v.fs.count ∧ v'.fs.count = v.fs.count + 1
  here : vfsResolve v' p = some n
  frame : ∀ q, ShortPath q → pathComponents q ≠ pathComponents p →
    vfsResolve v' q = vfsResolve v q

/-- A creation changes nothing, or it adds the one node the path names. -/
theorem VfsTree.createdAt (h : VfsTree v kids) (a : NodeAlloc) {p : CStr} (hp : ShortPath p)
    (flags : BitVec 32) :
    vfsCreate v a p flags = (none, v) ∨
      ∃ v', vfsCreate v a p flags = (some v.fs.count, v') ∧ CreatedAt v v' p v.fs.count := by
  rcases h.create_cases a p flags with hc | ⟨fs, base, rest, dir, hnew⟩
  · exact Or.inl hc
  · have hmem : rest ∈ pathComponents p := by
      rw [hnew.split, pathComponents, components_append_sep,
        components_of_notMem hnew.noSlash hnew.rest_ne]
      exact List.mem_append_right _ List.mem_cons_self
    have hnames := hnew.names_iff.mpr (hp rest hmem)
    refine Or.inr ⟨{ v with fs := fs }, hnew.call, ⟨rfl, hnew.made.count⟩, ?_, ?_⟩
    · exact (hnew.resolve_iff h).mpr (Or.inr ⟨rfl, hnames⟩)
    · intro q hq hdiff
      refine Option.ext fun m => ?_
      rw [hnew.resolve_iff h]
      refine or_iff_left ?_
      rintro ⟨-, heq⟩
      rw [← hnames, hq.names_eq, hp.names_eq] at heq
      exact hdiff heq

theorem VfsTree.create_some (h : VfsTree v kids) {v' : Vfs} {a : NodeAlloc} {p : CStr}
    {flags : BitVec 32} {n : Nat} (hp : ShortPath p) (hc : vfsCreate v a p flags = (some n, v')) :
    CreatedAt v v' p n := by
  rcases h.createdAt a hp flags with hc' | ⟨w, hc', hat⟩
  · cases hc.symm.trans hc'
  · cases hc.symm.trans hc'
    exact hat

theorem VfsTree.create_none (h : VfsTree v kids) {v' : Vfs} {a : NodeAlloc} {p : CStr}
    {flags : BitVec 32} (hc : vfsCreate v a p flags = (none, v')) : v' = v := by
  rcases h.create_cases a p flags with hc' | ⟨fs, base, rest, dir, hnew⟩
  · cases hc.symm.trans hc'
    rfl
  · cases hc.symm.trans hnew.call

end Creation

theorem vfsMkdir_zero {v v' : Vfs} {a : NodeAlloc} {p : CStr} (hc : vfsMkdir v a p = (0, v')) :
    ∃ n, vfsCreate v a p VFS_DIRECTORY = (some n, v') := by
  rcases hr : vfsCreate v a p VFS_DIRECTORY with ⟨_ | n, w⟩ <;> rw [vfsMkdir, hr] at hc
  · cases hc
  · cases hc
    exact ⟨n, rfl⟩

theorem vfsMkdir_neg {v v' : Vfs} {a : NodeAlloc} {p : CStr} (hc : vfsMkdir v a p = (-1, v')) :
    vfsCreate v a p VFS_DIRECTORY = (none, v') := by
  rcases hr : vfsCreate v a p VFS_DIRECTORY with ⟨_ | n, w⟩ <;> rw [vfsMkdir, hr] at hc
  · cases hc
    rfl
  · cases hc

/-! ## Creation and resolution agree -/

/-- For short paths, creation and resolution agree on which node a path names. -/
theorem creation_resolution_agree {v : Vfs} (h : VfsReachable v) :
    (∀ a p n v', ShortPath p → vfsCreateFile v a p = (some n, v') → CreatedAt v v' p n)
      ∧ (∀ a p v', ShortPath p → vfsMkdir v a p = (0, v') → ∃ n, CreatedAt v v' p n)
      ∧ (∀ a p v', vfsCreateFile v a p = (none, v') → ∀ q, vfsResolve v' q = vfsResolve v q)
      ∧ (∀ a p v', vfsMkdir v a p = (-1, v') → ∀ q, vfsResolve v' q = vfsResolve v q)
      ∧ ∀ p q, ShortPath p → ShortPath q → pathComponents p = pathComponents q →
          vfsResolve v p = vfsResolve v q := by
  obtain ⟨log, hrun⟩ := h
  obtain ⟨kids, ht⟩ := vfsRun_tree hrun
  refine ⟨?_, ?_, ?_, ?_, ?_⟩
  · intro a p n v' hp hc
    exact ht.create_some hp hc
  · intro a p v' hp hc
    obtain ⟨n, hc⟩ := vfsMkdir_zero hc
    exact ⟨n, ht.create_some hp hc⟩
  · intro a p v' hc q
    rw [ht.create_none hc]
  · intro a p v' hc q
    rw [ht.create_none (vfsMkdir_neg hc)]
  · intro p q hp hq heq
    rw [vfsResolve_eq, vfsResolve_eq, hp.names_eq, hq.names_eq, heq]

/-- `mkdir /a//b` after `mkdir /a`. -/
theorem creation_resolution_agree_slashes :
    ∃ v p, VfsReachable v ∧ (vfsMkdir v ⟨true, true⟩ p).1 = 0
      ∧ pathComponents p = [ascii ['a'], ascii ['b']]
      ∧ ∃ n, CreatedAt v (vfsMkdir v ⟨true, true⟩ p).2 p n := by
  have hrun := fullRun_run (fun _ _ _ => True) [.mkdir (slash :: ascii ['a']) ⟨true, true⟩]
  refine ⟨_, slash :: ascii ['a'] ++ [slash, slash] ++ ascii ['b'], ⟨_, hrun⟩, by decide +kernel,
    by decide +kernel, ?_⟩
  exact (creation_resolution_agree ⟨_, hrun⟩).2.1 ⟨true, true⟩ _ _ (by decide +kernel)
    (Prod.ext (by decide +kernel) rfl)

/-! ## Paths that meet -/

/-- Two paths never meet in one node, unless over-long components are cut into
the same names and the tree has a node under these. -/
theorem paths_do_not_alias_iff {v : Vfs} (h : VfsReachable v) (p q : CStr) :
    (∀ n, vfsResolve v p = some n → vfsResolve v q = some n →
        pathComponents p = pathComponents q) ↔
      (pathNames p = pathNames q → (∃ n, NamePath v n (pathNames p)) →
        pathComponents p = pathComponents q) := by
  obtain ⟨log, hrun⟩ := h
  obtain ⟨kids, ht⟩ := vfsRun_tree hrun
  constructor
  · rintro hno heq ⟨n, hn⟩
    exact hno n (ht.resolve_iff.mpr hn) (ht.resolve_iff.mpr (heq ▸ hn))
  · intro hno n hp hq
    have hp := ht.resolve_iff.mp hp
    exact hno (hp.unique ht (ht.resolve_iff.mp hq)) ⟨n, hp⟩

/-- A directory name of 63 bytes, the most the buffer holds. -/
def longName : CStr := List.replicate 63 0x61#8

/-- `mkdir` of that directory and a file `b` in it. -/
def longCalls : List VfsCall :=
  [.mkdir (slash :: longName) ⟨true, true⟩,
    .createFile (slash :: longName ++ slash :: ascii ['b']) ⟨true, true⟩]

/-- The file also answers to the name of 64 bytes that starts with the directory's. -/
theorem long_component_aliases :
    VfsReachable (fullRun (fun _ _ _ => True) longCalls).2
      ∧ vfsResolve (fullRun (fun _ _ _ => True) longCalls).2
          (slash :: longName ++ slash :: ascii ['b']) = some 6
      ∧ vfsResolve (fullRun (fun _ _ _ => True) longCalls).2
          (slash :: longName ++ ascii ['b']) = some 6
      ∧ pathComponents (slash :: longName ++ slash :: ascii ['b'])
          ≠ pathComponents (slash :: longName ++ ascii ['b']) :=
  ⟨⟨_, fullRun_run _ longCalls⟩, by decide +kernel, by decide +kernel, by decide +kernel⟩

/-- A doubled slash is another spelling of the same components. -/
theorem paths_do_not_alias_iff_slashes :
    vfsResolve (fullRun (fun _ _ _ => True) longCalls).2
        (slash :: slash :: longName ++ slash :: ascii ['b']) = some 6
      ∧ ∀ n, vfsResolve (fullRun (fun _ _ _ => True) longCalls).2
          (slash :: longName ++ slash :: ascii ['b']) = some n →
        vfsResolve (fullRun (fun _ _ _ => True) longCalls).2
          (slash :: slash :: longName ++ slash :: ascii ['b']) = some n →
        pathComponents (slash :: longName ++ slash :: ascii ['b'])
          = pathComponents (slash :: slash :: longName ++ slash :: ascii ['b']) :=
  ⟨by decide +kernel, (paths_do_not_alias_iff ⟨_, fullRun_run _ longCalls⟩ _ _).mpr
    fun _ _ => by decide +kernel⟩

end Matryoshka
