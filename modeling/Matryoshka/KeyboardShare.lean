import Matryoshka.KeyboardQueue
import Mathlib.Data.List.Nodup

/-!
# Two readers of the keyboard

The shell and a user task in `SYS_READ` both call `keyboard_getchar`. The
timer may stop the shell between any two of its statements. The user task
is not preempted between leaving the wait loop and updating `kb_tail`, so
the shell does not move while the user task is there. The interrupt
handler may run at any time.

Every accepted character has an index. `stored` remembers for each slot of
the buffer which character was put there last, `fetched` for each reader
which character it read last, and `delivered` is what both have got.

The readers share the queue properly as long as two things do not happen:
that the shell reads the buffer when the queue has become empty since its
test, and that the user task leaves its wait loop when the shell has read
a character but not updated `kb_tail`. `shared_reads_sound` shows that
this is enough, and that either of them leads to a wrong delivery.
-/

namespace Matryoshka

open RingBuf

inductive Reader
  | shell
  | user
deriving Repr, DecidableEq

/-- Between leaving the wait loop and updating `kb_tail`. -/
def GetcharPc.inWindow : GetcharPc → Bool
  | .fetch => true
  | .update _ => true
  | _ => false

structure ShareSys where
  kb : Keyboard
  pc : Reader → GetcharPc
  accepted : List (BitVec 8)
  stored : Nat → Option Nat
  fetched : Reader → Option Nat
  delivered : List (Reader × Option Nat × BitVec 8)

def shareInit (kb : Keyboard) : ShareSys :=
  ⟨keyboardInit kb, fun _ => .idle, [], fun _ => none, fun _ => none, []⟩

/-! ## Steps -/

inductive ShareEvent
  | irq (scancode : BitVec 8)
  | stmt (r : Reader)
deriving Repr, DecidableEq

def ShareSys.irq (s : ShareSys) (scancode : BitVec 8) : ShareSys :=
  { s with
    kb := keyboardIrqHandler s.kb scancode
    accepted := s.accepted ++ keyAccepted s.kb scancode
    stored := if keyAccepted s.kb scancode = [] then s.stored
      else Function.update s.stored s.kb.kbHead (some s.accepted.length) }

def ShareSys.stmt (s : ShareSys) (r : Reader) : ShareSys :=
  let (pc, kb, out) := getcharStep s.kb (s.pc r)
  { s with
    kb := kb
    pc := Function.update s.pc r pc
    fetched := if s.pc r = .fetch then Function.update s.fetched r (s.stored s.kb.kbTail)
      else s.fetched
    delivered := s.delivered ++ (out.map fun c => (r, s.fetched r, c)).toList }

def ShareSys.run (s : ShareSys) : ShareEvent → ShareSys
  | .irq scancode => s.irq scancode
  | .stmt r => s.stmt r

/-- The shell does not run while the user task is in its window. -/
def ShareSys.Enabled (s : ShareSys) : ShareEvent → Prop
  | .stmt .shell => (s.pc .user).inWindow = false
  | _ => True

/-- Neither of the two bad moments. -/
def Careful (s : ShareSys) : ShareEvent → Prop
  | .irq _ => True
  | .stmt .shell => s.pc .shell = .fetch → keyboardHasInput s.kb = true
  | .stmt .user => s.pc .user = .test → keyboardHasInput s.kb = true →
      ∀ c, s.pc .shell ≠ .update c

inductive ShareReach (Ok : ShareSys → ShareEvent → Prop) : ShareSys → Prop
  | init (kb : Keyboard) : ShareReach Ok (shareInit kb)
  | step {s : ShareSys} {e : ShareEvent} : ShareReach Ok s → s.Enabled e → Ok s e →
      ShareReach Ok (s.run e)

/-- Every event is possible when its turn comes. -/
def ShareSys.Runs : ShareSys → List ShareEvent → Prop
  | _, [] => True
  | s, e :: es => s.Enabled e ∧ (s.run e).Runs es

/-- Every delivery is an accepted character, and none is delivered twice. -/
def ShareSys.Sound (s : ShareSys) : Prop :=
  (∀ d ∈ s.delivered, ∃ k, d.2.1 = some k ∧ s.accepted[k]? = some d.2.2) ∧
    (s.delivered.map fun d => d.2.1).Nodup

/-! ## The invariant -/

/-- Characters with their indices. -/
def numbered (l : List (BitVec 8)) : List (Option Nat × BitVec 8) :=
  l.zipIdx.map fun x => (some x.2, x.1)

def ShareSys.flight (s : ShareSys) (r : Reader) : List (Option Nat × BitVec 8) :=
  (s.pc r).inFlight.map fun c => (s.fetched r, c)

/-- What has left the queue: delivered, or on its way to a reader. -/
def ShareSys.taken (s : ShareSys) : List (Option Nat × BitVec 8) :=
  s.delivered.map Prod.snd ++ s.flight .shell ++ s.flight .user

structure ShareInv (s : ShareSys) (lo : Nat) : Prop where
  rep : KbRep s.kb s.accepted lo
  stored : Window KB_BUFFER_SIZE (fun slot k => s.stored slot = some k)
    (List.range s.accepted.length) lo
  old : ∀ slot k, s.stored slot = some k → k < s.accepted.length
  taken : s.taken.Perm (numbered (s.accepted.take lo))
  ready : ∀ r c, s.pc r = .update c → s.fetched r = some lo ∧ s.accepted[lo]? = some c
  user : s.pc .user = .fetch → lo < s.accepted.length
  alone : (s.pc .user).inWindow = true → ∀ c, s.pc .shell ≠ .update c

section Numbered

variable {l : List (BitVec 8)}

theorem numbered_concat (l : List (BitVec 8)) (c : BitVec 8) :
    numbered (l ++ [c]) = numbered l ++ [(some l.length, c)] := by
  simp [numbered, List.zipIdx_append]

theorem numbered_tags (l : List (BitVec 8)) :
    (numbered l).map Prod.fst = (List.range l.length).map some := by
  rw [List.range_eq_range', ← List.zipIdx_map_snd, List.map_map, numbered, List.map_map]
  rfl

theorem mem_numbered {x : Option Nat × BitVec 8} (hx : x ∈ numbered l) :
    ∃ k, x.1 = some k ∧ l[k]? = some x.2 := by
  obtain ⟨⟨c, k⟩, hmem, rfl⟩ := List.mem_map.mp hx
  exact ⟨k, rfl, List.mem_zipIdx_iff_getElem?.mp hmem⟩

end Numbered

section Taken

variable {s : ShareSys} {r : Reader} {p : GetcharPc} {c : BitVec 8}

/-! The four kinds of statement. -/

theorem ShareSys.stmt_move (hf : s.pc r ≠ .fetch)
    (h : getcharStep s.kb (s.pc r) = (p, s.kb, none)) :
    s.stmt r = { s with pc := Function.update s.pc r p } := by
  rw [ShareSys.stmt, h, if_neg hf]
  simp only [Option.map_none, Option.toList_none, List.append_nil]

theorem ShareSys.stmt_fetch (h : s.pc r = .fetch) :
    s.stmt r = { s with
      pc := Function.update s.pc r (.update (s.kb.kbBuffer s.kb.kbTail))
      fetched := Function.update s.fetched r (s.stored s.kb.kbTail) } := by
  rw [ShareSys.stmt, h, getcharStep, if_pos rfl]
  simp only [Option.map_none, Option.toList_none, List.append_nil]

theorem ShareSys.stmt_update (h : s.pc r = .update c) :
    s.stmt r = { s with
      kb := { s.kb with kbTail := nextIndex s.kb.kbTail }
      pc := Function.update s.pc r (.ret c) } := by
  rw [ShareSys.stmt, h, getcharStep, if_neg fun hfetch => by cases hfetch]
  simp only [Option.map_none, Option.toList_none, List.append_nil]

theorem ShareSys.stmt_ret (h : s.pc r = .ret c) :
    s.stmt r = { s with
      pc := Function.update s.pc r .idle
      delivered := s.delivered ++ [(r, s.fetched r, c)] } := by
  rw [ShareSys.stmt, h, getcharStep, if_neg fun hfetch => by cases hfetch]
  rfl

theorem flight_of_not_ret (h : (s.pc r).inFlight = []) : s.flight r = [] := by
  rw [ShareSys.flight, h, List.map_nil]

/-- A reader at a place without a character in flight moves to another one. -/
theorem taken_move (hold : (s.pc r).inFlight = []) (hnew : p.inFlight = [])
    (fetched : Reader → Option Nat) (hf : ∀ r', r' ≠ r → fetched r' = s.fetched r') :
    ({ s with pc := Function.update s.pc r p, fetched := fetched } : ShareSys).taken
      = s.taken := by
  have hflight : ∀ r', ({ s with pc := Function.update s.pc r p, fetched := fetched } :
      ShareSys).flight r' = s.flight r' := fun r' => by
    by_cases hr : r' = r
    · rw [hr, flight_of_not_ret hold]
      refine flight_of_not_ret ?_
      dsimp only
      rw [Function.update_self, hnew]
    · simp only [ShareSys.flight, Function.update_of_ne hr, hf r' hr]
  rw [ShareSys.taken, ShareSys.taken, hflight, hflight]

theorem taken_update (h : s.pc r = .update c) :
    (s.stmt r).taken.Perm (s.taken ++ [(s.fetched r, c)]) := by
  rw [ShareSys.stmt_update h]
  cases r with
  | shell =>
      have hold : s.flight .shell = [] := flight_of_not_ret (by rw [h]; rfl)
      simp only [ShareSys.taken, hold, List.append_nil, List.append_assoc]
      have hswap : ([(s.fetched .shell, c)] ++ s.flight .user).Perm
          (s.flight .user ++ [(s.fetched .shell, c)]) := List.perm_append_comm
      exact hswap.append_left _
  | user =>
      have hold : s.flight .user = [] := flight_of_not_ret (by rw [h]; rfl)
      simp only [ShareSys.taken, hold, List.append_nil]
      exact .refl _

theorem taken_ret (h : s.pc r = .ret c) : (s.stmt r).taken.Perm s.taken := by
  have hold : s.flight r = [(s.fetched r, c)] := by
    rw [ShareSys.flight, h]
    rfl
  rw [ShareSys.stmt_ret h]
  cases r with
  | shell =>
      show (List.map Prod.snd (s.delivered ++ [(Reader.shell, s.fetched .shell, c)]) ++ [] ++
        s.flight .user).Perm _
      rw [ShareSys.taken, hold, List.map_append, List.append_nil]
      exact .refl _
  | user =>
      show (List.map Prod.snd (s.delivered ++ [(Reader.user, s.fetched .user, c)]) ++
        s.flight .shell ++ []).Perm _
      rw [ShareSys.taken, hold, List.map_append, List.append_nil, List.append_assoc,
        List.append_assoc]
      exact List.perm_append_comm.append_left _

theorem stmt_pc_other {r' : Reader} (h : r' ≠ r) : (s.stmt r).pc r' = s.pc r' :=
  Function.update_of_ne h _ s.pc

theorem fetch_pc (h : s.pc r = .fetch) :
    (s.stmt r).pc r = .update (s.kb.kbBuffer s.kb.kbTail) := by
  rw [ShareSys.stmt_fetch h]
  exact Function.update_self r _ s.pc

theorem read_pc (h : s.pc r = .fetch) :
    ((s.stmt r).stmt r).pc r = .ret (s.kb.kbBuffer s.kb.kbTail) := by
  rw [ShareSys.stmt_update (fetch_pc h)]
  exact Function.update_self r _ (s.stmt r).pc

/-- The read of the buffer and the update of `kb_tail` together. -/
theorem taken_read (h : s.pc r = .fetch) :
    ((s.stmt r).stmt r).taken.Perm
      (s.taken ++ [(s.stored s.kb.kbTail, s.kb.kbBuffer s.kb.kbTail)]) := by
  have hpc := fetch_pc h
  have hfetched : (s.stmt r).fetched r = s.stored s.kb.kbTail := by
    rw [ShareSys.stmt_fetch h]
    exact Function.update_self r _ s.fetched
  have htaken : (s.stmt r).taken = s.taken := by
    rw [ShareSys.stmt_fetch h]
    exact taken_move (by rw [h]; rfl) rfl _ fun r' hr => Function.update_of_ne hr ..
  have hupdate := taken_update hpc
  rwa [hfetched, htaken] at hupdate

theorem read_fetched_other {r' : Reader} (h : s.pc r = .fetch) (hne : r' ≠ r) :
    ((s.stmt r).stmt r).fetched r' = s.fetched r' := by
  rw [ShareSys.stmt_update (fetch_pc h), ShareSys.stmt_fetch h]
  exact Function.update_of_ne hne _ s.fetched

end Taken

/-! ## Steps keep the invariant -/

section Inv

variable {s : ShareSys} {lo : Nat} {r : Reader} {p : GetcharPc} {c : BitVec 8}

theorem shareInit_inv (kb : Keyboard) : ShareInv (shareInit kb) 0 :=
  ⟨keyboardInit_rep kb, (fun _ _ _ h => by cases h), nofun, .refl _, nofun, nofun, nofun⟩

/-- The slot filled last carries the last index. -/
theorem ShareInv.irq_stored (h : ShareInv s lo) (scancode : BitVec 8) :
    Window KB_BUFFER_SIZE (fun slot k => (s.irq scancode).stored slot = some k)
        (List.range (s.irq scancode).accepted.length) lo ∧
      ∀ slot k, (s.irq scancode).stored slot = some k → k < (s.irq scancode).accepted.length := by
  rw [ShareSys.irq]
  rcases keyAccepted_cases s.kb scancode with hnone | ⟨c, hsome, hroom⟩
  · simp only [hnone, if_true, List.append_nil]
    exact ⟨h.stored, h.old⟩
  · have hlt : s.accepted.length < lo + KB_BUFFER_SIZE := by
      have := h.rep.room
      rw [KB_BUFFER_SIZE]
      omega
    simp only [hsome, if_neg (List.cons_ne_nil c []), List.length_append, List.length_singleton]
    refine ⟨?_, fun slot k hk => ?_⟩
    · rw [List.range_succ]
      refine h.stored.push (by rwa [List.length_range]) (fun slot k hslot hk => ?_) ?_
      · rw [List.length_range, ← h.rep.head] at hslot
        rw [Function.update_of_ne hslot]
        exact hk
      · rw [List.length_range, ← h.rep.head, Function.update_self]
    · by_cases hslot : slot = s.kb.kbHead
      · rw [hslot, Function.update_self] at hk
        cases hk
        exact Nat.lt_succ_self _
      · rw [Function.update_of_ne hslot] at hk
        exact Nat.lt_succ_of_lt (h.old slot k hk)

theorem ShareInv.irq (h : ShareInv s lo) (scancode : BitVec 8) :
    ShareInv (s.irq scancode) lo := by
  obtain ⟨hstored, hold⟩ := h.irq_stored scancode
  refine ⟨h.rep.irq scancode, hstored, hold, ?_, fun r c hr => ?_, fun hu => ?_, h.alone⟩
  · show s.taken.Perm _
    rw [ShareSys.irq, List.take_append_of_le_length h.rep.lo_le]
    exact h.taken
  · obtain ⟨hf, hget⟩ := h.ready r c hr
    refine ⟨hf, ?_⟩
    rw [ShareSys.irq, List.getElem?_append_left (List.getElem?_eq_some_iff.mp hget).1]
    exact hget
  · rw [ShareSys.irq, List.length_append]
    exact Nat.lt_add_right _ (h.user hu)

/-- A reader moves to a place outside the two last statements. -/
theorem ShareInv.move (h : ShareInv s lo) (hold : (s.pc r).inFlight = []) (hnew : p.inFlight = [])
    (hup : ∀ c, p ≠ .update c)
    (huser : r = .user → p.inWindow = true → lo < s.accepted.length ∧
      ∀ c, s.pc .shell ≠ .update c) :
    ShareInv { s with pc := Function.update s.pc r p } lo := by
  refine ⟨h.rep, h.stored, h.old, ?_, fun r' c hr => ?_, fun hu => ?_, fun hw c hc => ?_⟩
  · rw [taken_move hold hnew s.fetched fun _ _ => rfl]
    exact h.taken
  · by_cases heq : r' = r
    · rw [heq] at hr
      exact absurd ((Function.update_self r p s.pc).symm.trans hr) (hup c)
    · exact h.ready r' c ((Function.update_of_ne heq p s.pc).symm.trans hr)
  · cases r with
    | user =>
        have hp : p = .fetch := (Function.update_self Reader.user p s.pc).symm.trans hu
        exact (huser rfl (by rw [hp]; rfl)).1
    | shell => exact h.user hu
  · cases r with
    | user => exact (huser rfl hw).2 c hc
    | shell => exact hup c hc

theorem ShareInv.stored_tail (h : ShareInv s lo) (hlt : lo < s.accepted.length) :
    s.stored s.kb.kbTail = some lo := by
  have := h.stored lo lo (Nat.le_refl _) (by rw [List.getElem?_range hlt])
  rwa [← h.rep.tail] at this

theorem ShareInv.fetch (h : ShareInv s lo) (hpc : s.pc r = .fetch) (hlt : lo < s.accepted.length)
    (hother : ∀ r' c, r' ≠ r → s.pc r' ≠ .update c)
    (hwin : r = .shell → (s.pc .user).inWindow = false) : ShareInv (s.stmt r) lo := by
  have hslot := h.stored_tail hlt
  rw [ShareSys.stmt_fetch hpc]
  refine ⟨h.rep, h.stored, h.old, ?_, fun r' c hr => ?_, fun hu => ?_, fun hw c hc => ?_⟩
  · rw [taken_move (by rw [hpc]; rfl) rfl _ fun r' hr => Function.update_of_ne hr ..]
    exact h.taken
  · by_cases heq : r' = r
    · subst heq
      obtain rfl : s.kb.kbBuffer s.kb.kbTail = c :=
        GetcharPc.update.inj ((Function.update_self r' _ s.pc).symm.trans hr)
      exact ⟨(Function.update_self r' _ s.fetched).trans hslot, h.rep.front hlt⟩
    · exact absurd ((Function.update_of_ne heq _ s.pc).symm.trans hr) (hother r' c heq)
  · exact hlt
  · cases r with
    | user => exact hother .shell c nofun hc
    | shell =>
        have hw' : (s.pc .user).inWindow = true := hw
        rw [hwin rfl] at hw'
        cases hw'

theorem ShareInv.update (h : ShareInv s lo) (hpc : s.pc r = .update c)
    (hother : ∀ r' c, r' ≠ r → s.pc r' ≠ .update c)
    (hwin : r = .shell → (s.pc .user).inWindow = false) : ShareInv (s.stmt r) (lo + 1) := by
  obtain ⟨hf, hget⟩ := h.ready r c hpc
  have hlt := (List.getElem?_eq_some_iff.mp hget).1
  have htaken : (s.stmt r).taken.Perm (numbered (s.accepted.take (lo + 1))) := by
    rw [List.take_add_one, hget, Option.toList_some, numbered_concat,
      List.length_take_of_le h.rep.lo_le, ← hf]
    exact (taken_update hpc).trans (h.taken.append_right _)
  rw [ShareSys.stmt_update hpc] at htaken ⊢
  refine ⟨h.rep.pop hlt, h.stored.pop, h.old, htaken, fun r' c hr => ?_, fun hu => ?_,
    fun hw c hc => ?_⟩
  · by_cases heq : r' = r
    · rw [heq] at hr
      cases (Function.update_self r _ s.pc).symm.trans hr
    · exact absurd ((Function.update_of_ne heq _ s.pc).symm.trans hr) (hother r' c heq)
  · cases r with
    | user => cases (Function.update_self Reader.user _ s.pc).symm.trans hu
    | shell =>
        have hu' : s.pc .user = .fetch := hu
        have := hwin rfl
        rw [hu'] at this
        cases this
  · cases r with
    | user => cases hw
    | shell => cases hc

theorem ShareInv.ret (h : ShareInv s lo) (hpc : s.pc r = .ret c) : ShareInv (s.stmt r) lo := by
  have htaken := (taken_ret hpc).trans h.taken
  rw [ShareSys.stmt_ret hpc] at htaken ⊢
  refine ⟨h.rep, h.stored, h.old, htaken, fun r' c hr => ?_, fun hu => ?_, fun hw c hc => ?_⟩
  · by_cases heq : r' = r
    · rw [heq] at hr
      cases (Function.update_self r _ s.pc).symm.trans hr
    · exact h.ready r' c ((Function.update_of_ne heq _ s.pc).symm.trans hr)
  · cases r with
    | user => cases hu
    | shell => exact h.user hu
  · cases r with
    | user => cases hw
    | shell => cases hc

theorem ShareInv.stmt (h : ShareInv s lo) (hen : s.Enabled (.stmt r))
    (hok : Careful s (.stmt r)) : ∃ lo', ShareInv (s.stmt r) lo' := by
  have hwin : r = .shell → (s.pc .user).inWindow = false := by
    rintro rfl
    exact hen
  -- in its window the user task is alone with the tail, and so is the shell
  have hother : (s.pc r).inWindow = true → ∀ r' c, r' ≠ r → s.pc r' ≠ .update c := by
    intro hr r' c hne hc
    cases r with
    | user =>
        cases r' with
        | user => exact hne rfl
        | shell => exact h.alone hr c hc
    | shell =>
        cases r' with
        | shell => exact hne rfl
        | user =>
            have := hwin rfl
            rw [hc] at this
            cases this
  rcases getchar_cases s.kb (s.pc r) with ⟨p, hq⟩ | hpc | ⟨c, hpc⟩ | ⟨c, hpc⟩
  · rw [ShareSys.stmt_move hq.not_fetch hq.step]
    refine ⟨lo, h.move hq.old hq.new hq.not_update ?_⟩
    rintro rfl hwindow
    cases p with
    | fetch =>
        obtain ⟨hpc, hne⟩ := hq.enters rfl
        have hinput : keyboardHasInput s.kb = true := decide_eq_true hne
        exact ⟨h.rep.hasInput_iff.mp hinput, hok hpc hinput⟩
    | update c => exact absurd rfl (hq.not_update c)
    | _ => cases hwindow
  · have hlt : lo < s.accepted.length := by
      cases r with
      | user => exact h.user hpc
      | shell => exact h.rep.hasInput_iff.mp (hok hpc)
    exact ⟨lo, h.fetch hpc hlt (hother (by rw [hpc]; rfl)) hwin⟩
  · exact ⟨lo + 1, h.update hpc (hother (by rw [hpc]; rfl)) hwin⟩
  · exact ⟨lo, h.ret hpc⟩

theorem shareReach_inv (h : ShareReach Careful s) : ∃ lo, ShareInv s lo := by
  induction h with
  | init kb => exact ⟨0, shareInit_inv kb⟩
  | @step s e _ hen hok ih =>
      obtain ⟨lo, hinv⟩ := ih
      cases e with
      | irq scancode => exact ⟨lo, hinv.irq scancode⟩
      | stmt r => exact hinv.stmt hen hok

theorem ShareInv.sound (h : ShareInv s lo) : s.Sound := by
  have hsub : (s.delivered.map Prod.snd).Sublist s.taken := by
    rw [ShareSys.taken, List.append_assoc]
    exact List.sublist_append_left ..
  constructor
  · intro d hd
    have hmem := h.taken.subset (hsub.subset (List.mem_map_of_mem hd))
    obtain ⟨k, hk, hget⟩ := mem_numbered hmem
    refine ⟨k, hk, ?_⟩
    have hlt := (List.getElem?_eq_some_iff.mp hget).1
    rw [List.length_take] at hlt
    rwa [List.getElem?_take_of_lt (by omega)] at hget
  · have hnodup : (s.taken.map Prod.fst).Nodup := by
      rw [(h.taken.map Prod.fst).nodup_iff, numbered_tags]
      exact List.Nodup.map (fun _ _ => Option.some.inj) List.nodup_range
    have := hnodup.sublist (hsub.map Prod.fst)
    rwa [List.map_map] at this

end Inv

/-! ## Either bad moment leads to a wrong delivery -/

section Wrong

variable {s : ShareSys} {lo : Nat} {c : BitVec 8}

theorem ShareSys.Runs.append {es es' : List ShareEvent} (h : s.Runs es)
    (h' : (es.foldl ShareSys.run s).Runs es') : s.Runs (es ++ es') := by
  induction es generalizing s with
  | nil => exact h'
  | cons e es ih => exact ⟨h.1, ih h.2 h'⟩

/-- A reader returns what it has in flight. -/
theorem exists_return {r : Reader} (hen : s.Enabled (.stmt r)) :
    ∃ es, s.Runs es ∧ (es.foldl ShareSys.run s).taken.Perm s.taken ∧
      (es.foldl ShareSys.run s).flight r = [] ∧
      ∀ r', r' ≠ r → (es.foldl ShareSys.run s).flight r' = s.flight r' := by
  by_cases hret : ∃ c, s.pc r = .ret c
  · obtain ⟨c, hpc⟩ := hret
    refine ⟨[.stmt r], ⟨hen, trivial⟩, taken_ret hpc, ?_, fun r' hr => ?_⟩
    · show (s.stmt r).flight r = []
      rw [ShareSys.stmt_ret hpc]
      refine flight_of_not_ret ?_
      dsimp only
      rw [Function.update_self]
      rfl
    · show (s.stmt r).flight r' = _
      rw [ShareSys.stmt_ret hpc]
      simp only [ShareSys.flight, Function.update_of_ne hr]
  · refine ⟨[], trivial, .refl _, ?_, fun _ _ => rfl⟩
    show s.flight r = []
    refine flight_of_not_ret ?_
    cases hpc : s.pc r with
    | ret c => exact absurd ⟨c, hpc⟩ hret
    | _ => rfl

/-- Both readers return what they have in flight. -/
theorem exists_drain (hwin : (s.pc .user).inWindow = false) :
    ∃ es, s.Runs es ∧ ((es.foldl ShareSys.run s).delivered.map Prod.snd).Perm s.taken := by
  obtain ⟨es, hruns, htaken, hshell, -⟩ := exists_return (s := s) (r := .shell) hwin
  obtain ⟨es', hruns', htaken', huser, hother⟩ :=
    exists_return (s := es.foldl ShareSys.run s) (r := .user) trivial
  refine ⟨es ++ es', hruns.append hruns', ?_⟩
  rw [List.foldl_append]
  have hshell' := (hother .shell nofun).trans hshell
  have hall := htaken'.trans htaken
  rwa [ShareSys.taken, hshell', huser, List.append_nil, List.append_nil] at hall

/-- A character in flight twice, or none at all, shows when it is returned. -/
theorem exists_unsound (hwin : (s.pc .user).inWindow = false)
    (hbad : (∃ x ∈ s.taken, x.1 = none) ∨ ¬(s.taken.map Prod.fst).Nodup) :
    ∃ es, s.Runs es ∧ ¬(es.foldl ShareSys.run s).Sound := by
  obtain ⟨es, hruns, hperm⟩ := exists_drain hwin
  refine ⟨es, hruns, fun hsound => ?_⟩
  rcases hbad with ⟨x, hx, hnone⟩ | hdup
  · obtain ⟨d, hd, rfl⟩ := List.mem_map.mp (hperm.symm.subset hx)
    obtain ⟨k, hk, -⟩ := hsound.1 d hd
    rw [hnone] at hk
    cases hk
  · refine hdup ((hperm.map Prod.fst).nodup_iff.mp ?_)
    rw [List.map_map]
    exact hsound.2

/-- The shell reads a buffer that is empty by now. -/
theorem stale_fetch (h : ShareInv s lo) (hen : s.Enabled (.stmt .shell))
    (hpc : s.pc .shell = .fetch) (hempty : keyboardHasInput s.kb = false) :
    ∃ es, (s.stmt .shell).Runs es ∧ ¬(es.foldl ShareSys.run (s.stmt .shell)).Sound := by
  have hlo : s.accepted.length = lo := by
    refine h.rep.empty_iff.mp ?_
    simpa [keyboardHasInput] using hempty
  have htaken := (taken_read hpc).trans (h.taken.append_right _)
  have huser : ∀ s' : ShareSys, (s'.stmt .shell).pc .user = s'.pc .user :=
    fun s' => stmt_pc_other (by decide)
  have hwin : ((s.stmt .shell).pc .user).inWindow = false := by
    rw [huser]
    exact hen
  have hbad : (∃ x ∈ ((s.stmt .shell).stmt .shell).taken, x.1 = none) ∨
      ¬(((s.stmt .shell).stmt .shell).taken.map Prod.fst).Nodup := by
    cases hk : s.stored s.kb.kbTail with
    | none =>
        exact Or.inl ⟨_, htaken.symm.subset (List.mem_append_right _ List.mem_cons_self), hk⟩
    | some k =>
        -- an index below `lo` was taken before
        refine Or.inr fun hnodup => ?_
        have hlt := h.old _ _ hk
        rw [(htaken.map Prod.fst).nodup_iff, List.map_append, numbered_tags, hk] at hnodup
        refine (List.nodup_append.mp hnodup).2.2 (some k) ?_ (some k) List.mem_cons_self rfl
        rw [List.length_take_of_le h.rep.lo_le]
        exact List.mem_map_of_mem (List.mem_range.mpr (hlo ▸ hlt))
  obtain ⟨es, hruns, hbad⟩ := exists_unsound (by rw [huser]; exact hwin) hbad
  exact ⟨.stmt .shell :: es, ⟨hwin, hruns⟩, hbad⟩

/-- The user task leaves its wait loop when the shell holds a character that is still in
the queue. -/
theorem double_fetch (h : ShareInv s lo) (hpc : s.pc .user = .test)
    (hinput : keyboardHasInput s.kb = true) (hshell : s.pc .shell = .update c) :
    ∃ es, (s.stmt .user).Runs es ∧ ¬(es.foldl ShareSys.run (s.stmt .user)).Sound := by
  have hne : s.kb.kbHead ≠ s.kb.kbTail := by simpa [keyboardHasInput] using hinput
  obtain ⟨hf, hget⟩ := h.ready .shell c hshell
  have hslot := h.stored_tail (List.getElem?_eq_some_iff.mp hget).1
  have hpcne : s.pc .user ≠ .fetch := by
    rw [hpc]
    intro hfetch
    cases hfetch
  rw [ShareSys.stmt_move hpcne (by rw [hpc, getcharStep, if_neg hne])]
  generalize hs : ({ s with pc := Function.update s.pc .user .fetch } : ShareSys) = s₁
  have hpc₁ : s₁.pc .user = .fetch := hs ▸ Function.update_self Reader.user _ s.pc
  have hshell₁ : s₁.pc .shell = .update c := hs ▸ hshell
  have hf₁ : s₁.fetched .shell = some lo := hs ▸ hf
  have hslot₁ : s₁.stored s₁.kb.kbTail = some lo := hs ▸ hslot
  have htaken := taken_read hpc₁
  have hshell₃ : ((s₁.stmt .user).stmt .user).pc .shell = .update c := by
    rw [stmt_pc_other (by decide), stmt_pc_other (by decide), hshell₁]
  have htaken' := (taken_update hshell₃).trans (htaken.append_right _)
  have hwin : (((s₁.stmt .user).stmt .user).pc .user).inWindow = false := by
    rw [read_pc hpc₁]
    rfl
  obtain ⟨es, hruns, hbad⟩ := exists_unsound (s := ((s₁.stmt .user).stmt .user).stmt .shell)
    (by rw [stmt_pc_other (by decide)]; exact hwin) (Or.inr fun hnodup => by
      rw [(htaken'.map Prod.fst).nodup_iff, read_fetched_other hpc₁ (by decide), hf₁, hslot₁,
        List.map_append, List.map_append] at hnodup
      exact (List.nodup_append.mp hnodup).2.2 (some lo)
        (List.mem_append_right _ List.mem_cons_self) (some lo) List.mem_cons_self rfl)
  exact ⟨.stmt .user :: .stmt .user :: .stmt .shell :: es, ⟨trivial, trivial, hwin, hruns⟩, hbad⟩

end Wrong

/-- **Two readers.** In runs without the two bad moments every delivery is sound; after
either of them some continuation makes a wrong one. -/
theorem shared_reads_sound {s : ShareSys} (h : ShareReach Careful s) :
    s.Sound ∧ ∀ e, s.Enabled e → ¬Careful s e →
      ∃ es, (s.run e).Runs es ∧ ¬(es.foldl ShareSys.run (s.run e)).Sound := by
  obtain ⟨lo, hinv⟩ := shareReach_inv h
  refine ⟨hinv.sound, fun e hen hbad => ?_⟩
  cases e with
  | irq scancode => exact absurd trivial hbad
  | stmt r =>
      cases r with
      | shell =>
          obtain ⟨hpc, hempty⟩ := Classical.not_imp.mp hbad
          exact stale_fetch hinv hen hpc (by simpa using hempty)
      | user =>
          obtain ⟨hpc, hbad⟩ := Classical.not_imp.mp hbad
          obtain ⟨hinput, hbad⟩ := Classical.not_imp.mp hbad
          obtain ⟨c, hc⟩ := Classical.not_forall.mp hbad
          exact double_fetch hinv hpc hinput (Classical.not_not.mp hc)

theorem shareReach_foldl {s : ShareSys} {es : List ShareEvent}
    (h : ShareReach (fun _ _ => True) s) (hruns : s.Runs es) :
    ShareReach (fun _ _ => True) (es.foldl ShareSys.run s) := by
  induction es generalizing s with
  | nil => exact h
  | cons e es ih => exact ih (h.step hruns.1 trivial) hruns.2

def idleReaders : ShareSys := shareInit ⟨0#8, false, fun _ => 0#8, 0, 0⟩

/-- One key is typed. The shell passes its emptiness test, the user task takes the
character, and the shell goes on. -/
def staleEvents : List ShareEvent :=
  [.irq 0x1E#8, .stmt .shell, .stmt .shell] ++ List.replicate 5 (.stmt .user) ++
    List.replicate 3 (.stmt .shell)

/-- The shell gets a byte that nobody typed, and the queue then looks almost full. -/
theorem stale_read_delivered :
    ShareReach (fun _ _ => True) (staleEvents.foldl ShareSys.run idleReaders)
      ∧ (staleEvents.foldl ShareSys.run idleReaders).accepted = [charByte 'a']
      ∧ (staleEvents.foldl ShareSys.run idleReaders).delivered
        = [(.user, some 0, charByte 'a'), (.shell, none, 0#8)]
      ∧ ¬(staleEvents.foldl ShareSys.run idleReaders).Sound
      ∧ (staleEvents.foldl ShareSys.run idleReaders).kb.kbHead = 1
      ∧ (staleEvents.foldl ShareSys.run idleReaders).kb.kbTail = 2 := by
  have hdel : (staleEvents.foldl ShareSys.run idleReaders).delivered
      = [(.user, some 0, charByte 'a'), (.shell, none, 0#8)] := by decide +kernel
  refine ⟨shareReach_foldl (.init _) ?_, by decide +kernel, hdel, fun hsound => ?_,
    by decide +kernel, by decide +kernel⟩
  · exact ⟨trivial, rfl, rfl, trivial, trivial, trivial, trivial, trivial, rfl, rfl, rfl, trivial⟩
  · obtain ⟨k, hk, -⟩ := hsound.1 (.shell, none, 0#8) (by rw [hdel]; decide)
    cases hk

/-- Nobody takes a step while the other reader is in its window, and the shell fetches only when
there is input. -/
def ShareSys.quiet (s : ShareSys) : ShareEvent → Bool
  | .irq _ => true
  | .stmt .shell =>
      !(s.pc .user).inWindow && (decide (s.pc .shell ≠ .fetch) || keyboardHasInput s.kb)
  | .stmt .user => !(s.pc .shell).inWindow

def ShareSys.quietRun : ShareSys → List ShareEvent → Bool
  | _, [] => true
  | s, e :: es => s.quiet e && (s.run e).quietRun es

theorem ShareSys.quiet_careful {s : ShareSys} {e : ShareEvent} (h : s.quiet e = true) :
    s.Enabled e ∧ Careful s e := by
  cases e with
  | irq scancode => exact ⟨trivial, trivial⟩
  | stmt r =>
      cases r with
      | shell =>
          simp only [quiet, Bool.and_eq_true, Bool.not_eq_true', Bool.or_eq_true,
            decide_eq_true_eq] at h
          exact ⟨h.1, fun hpc => h.2.resolve_left fun hne => hne hpc⟩
      | user =>
          refine ⟨trivial, fun _ _ c hc => ?_⟩
          rw [quiet, hc] at h
          cases h

theorem shareReach_quiet {s : ShareSys} {es : List ShareEvent} (h : ShareReach Careful s)
    (hquiet : s.quietRun es = true) : ShareReach Careful (es.foldl ShareSys.run s) := by
  induction es generalizing s with
  | nil => exact h
  | cons e es ih =>
      rw [ShareSys.quietRun, Bool.and_eq_true] at hquiet
      obtain ⟨hen, hcareful⟩ := ShareSys.quiet_careful hquiet.1
      exact ih (h.step hen hcareful) hquiet.2

/-- Two keys are typed. The shell starts to read, the user task takes the first key in between,
and the shell gets the second. -/
def turnEvents : List ShareEvent :=
  [.irq 0x1E#8, .irq 0x30#8, .stmt .shell] ++ List.replicate 5 (.stmt .user) ++
    List.replicate 4 (.stmt .shell)

theorem shared_reads_sound_turns :
    (turnEvents.foldl ShareSys.run idleReaders).delivered
        = [(.user, some 0, charByte 'a'), (.shell, some 1, charByte 'b')]
      ∧ (turnEvents.foldl ShareSys.run idleReaders).Sound :=
  ⟨by decide +kernel,
    (shared_reads_sound (shareReach_quiet (.init _) (by decide +kernel))).1⟩

end Matryoshka
