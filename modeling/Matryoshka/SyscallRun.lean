import Matryoshka.HeapClient
import Matryoshka.KeyboardQueue
import Matryoshka.Syscall

/-!
# Runs of system calls

User tasks execute `INT 0x80` with any registers, run, and write memory;
keys are pressed, the timer ticks and the scheduler switches in between. A
read that finds no character waits, with its frame on the kernel stack of
its task, and tries again any number of times. `log` lists the calls that
have come back: the registers and the memory of the caller, the result, the
context its frame restores, and the byte at its buffer.

Pointers are not checked, so the runs are those in which they are good
(`SysCallOk`): frames and buffers lie in blocks of the heap that are in use, or
outside the heap, and do not overlap. For all these runs `syscall_streams`
says what the calls return and where their bytes go, and `sbrk_blocks` what
becomes of the heap.
-/

namespace Matryoshka

open ByteMem

/-! ## State -/

/-- A byte that no header and no free block of the heap covers. -/
def Usable (h : Heap) (x : Nat) : Prop :=
  x < HEAP_START ∨ HEAP_START + HEAP_INITIAL ≤ x
    ∨ ∃ v ∈ h.blocks, v.isFree = false ∧ v.addr + 16 ≤ x ∧ x < v.addr + 16 + v.size

/-- A call whose frame is on the stack, and the memory it was made in. -/
structure OpenCall where
  frame : Nat
  cpu : Cpu
  mem : Mem

def OpenCall.Covers (w : OpenCall) (x : Nat) : Prop := w.frame ≤ x ∧ x < w.frame + 64

inductive SysEntry
  | exit
  | done (cpu : Cpu) (mem : Mem) (result : BitVec 32) (resumed : Ctx) (byte : BitVec 8)

/-- `typed` are all characters the keyboard driver has accepted. -/
structure SysRun where
  st : SysState
  waiting : List OpenCall
  typed : List (BitVec 8)
  log : List SysEntry

/-! ## Steps -/

/-- What comes of a try of the call `w`. -/
def SysRun.finish (r : SysRun) (w : OpenCall) (out : SysState × SysEnd) : SysRun :=
  match out.2 with
  | .ret v =>
      { r with
        st := out.1
        log := r.log ++ [.done w.cpu w.mem v (readCtx out.1.heap.mem w.frame)
          (out.1.heap.mem w.cpu.ecx.toNat)] }
  | .wait _ => { r with st := out.1, waiting := w :: r.waiting }
  | .gone => { r with st := out.1, log := r.log ++ [.exit] }

def SysRun.opened (r : SysRun) (c : Cpu) (esp0 : Nat) : OpenCall :=
  ⟨entryFrame c esp0, c, r.st.heap.mem⟩

def SysRun.call (r : SysRun) (c : Cpu) (esp0 : Nat) : SysRun :=
  r.finish (r.opened c esp0) (syscallHandler (sysEnter r.st c esp0) (entryFrame c esp0))

/-- The next try of a read that waits. -/
def SysRun.retry (r : SysRun) (w : OpenCall) (others : List OpenCall) : SysRun :=
  SysRun.finish { r with waiting := others } w
    (storeResult w.frame (sysReadTake r.st w.cpu.ecx.toNat))

/-- The frames of two calls and the buffer of a read do not overlap. -/
structure OpenCall.Apart (w w' : OpenCall) : Prop where
  frames : ∀ x, w.Covers x → ¬w'.Covers x
  buf : w.cpu.Reads → ¬w'.Covers w.cpu.ecx.toNat
  buf' : w'.cpu.Reads → ¬w.Covers w'.cpu.ecx.toNat

/-- A call from ring 3 with good pointers. -/
structure SysCallOk (r : SysRun) (c : Cpu) (esp0 : Nat) : Prop where
  ring : ring3 c.cs = true
  room : 64 ≤ esp0
  stack : ∀ x, (r.opened c esp0).Covers x → Usable r.st.heap x
  apart : ∀ w ∈ r.waiting, (r.opened c esp0).Apart w
  text : c.Prints ∨ c.Sends → ∀ i < c.edx.toNat,
    ¬(r.opened c esp0).Covers (u32 (c.ecx.toNat + i))
  buf : c.Reads → Usable r.st.heap c.ecx.toNat ∧ ¬(r.opened c esp0).Covers c.ecx.toNat

inductive SysStep (r : SysRun) : SysRun → Prop
  | call (c : Cpu) (esp0 : Nat) (hok : SysCallOk r c esp0) : SysStep r (r.call c esp0)
  | retry {w : OpenCall} {pre post : List OpenCall} (hw : r.waiting = pre ++ w :: post) :
      SysStep r (r.retry w (pre ++ post))
  | key (scancode : BitVec 8) :
      SysStep r { r with
        st := { r.st with kb := keyboardIrqHandler r.st.kb scancode }
        typed := r.typed ++ keyAccepted r.st.kb scancode }
  | tick : SysStep r { r with st := { r.st with timerTicks := r.st.timerTicks + 1 } }
  | switch (sched : Sched) : SysStep r { r with st := { r.st with sched := sched } }
  | user (m : Mem)
      (hm : ∀ x, m x ≠ r.st.heap.mem x → Usable r.st.heap x ∧ ∀ w ∈ r.waiting, ¬w.Covers x) :
      SysStep r { r with st := r.st.withMem m }

/-- Runs from a state with a sound heap and an empty keyboard buffer. -/
inductive SysReach (s₀ : SysState) : SysRun → Prop
  | init {live : List Nat} {kb : Keyboard} (hheap : HeapReach ⟨s₀.heap, live⟩)
      (hkb : s₀.kb = keyboardInit kb) : SysReach s₀ ⟨s₀, [], [], []⟩
  | step {r r' : SysRun} (h : SysReach s₀ r) (hs : SysStep r r') : SysReach s₀ r'

/-! ## What the log says -/

/-- What a call has put on the screen. -/
def SysEntry.screen : SysEntry → List (BitVec 8)
  | .exit => []
  | .done cpu mem _ _ _ => if cpu.Prints then cpu.text mem else []

def SysEntry.port : SysEntry → List (BitVec 8)
  | .exit => klogText sysExitMsg
  | .done cpu mem _ _ _ => if cpu.Sends then cpu.text mem else []

/-- The character a read has got. -/
def SysEntry.got : SysEntry → List (BitVec 8)
  | .exit => []
  | .done cpu _ _ _ byte => if cpu.Reads then [byte] else []

/-- The address and the size of what `sbrk` has given away. -/
def SysEntry.block : SysEntry → List (Nat × Nat)
  | .exit => []
  | .done cpu _ result _ _ =>
      if cpu.Sbrks ∧ result ≠ minusOne then [(result.toNat, cpu.ebx.toNat)] else []

/-- All registers but the one with the result are as before, writes return their length and
reads the number 1. -/
def SysEntry.Good : SysEntry → Prop
  | .exit => True
  | .done cpu _ result resumed _ =>
      resumed = { cpu.ctx with eax := result } ∧ (cpu.Prints ∨ cpu.Sends → result = cpu.edx)
        ∧ (cpu.Reads → result = 1#32)

/-! ## The heap -/

section Usable

variable {h : Heap} {bs bs' : List Tiling.Seg} {x : Nat} {m : Mem}

def UsableIn (bs : List Tiling.Seg) (x : Nat) : Prop :=
  x < HEAP_START ∨ HEAP_START + HEAP_INITIAL ≤ x
    ∨ ∃ b ∈ Tiling.used bs, b.addr + 16 ≤ x ∧ x < b.addr + 16 + b.size

theorem usable_iff (hwf : HeapWf h bs) : Usable h x ↔ UsableIn bs x := by
  rw [Usable, UsableIn]
  refine or_congr_right (or_congr_right ⟨?_, ?_⟩)
  · rintro ⟨v, hv, hfree, hlo, hhi⟩
    exact ⟨_, List.mem_filter.mpr ⟨hwf.mem_blocks hv, by simp [hfree]⟩, hlo, hhi⟩
  · rintro ⟨b, hb, hlo, hhi⟩
    obtain ⟨v, hv, rfl⟩ := hwf.exists_block (List.mem_filter.mp hb).1
    exact ⟨v, hv, by simpa using (List.mem_filter.mp hb).2, hlo, hhi⟩

/-- Bytes that can be used belong to no header. -/
theorem UsableIn.not_header (hwf : HeapWf h bs) (hx : UsableIn bs x) {c : Tiling.Seg}
    (hc : c ∈ bs) : x < c.addr ∨ c.addr + 16 ≤ x := by
  have hbounds := hwf.mem_bounds hc
  rcases hx with hx | hx | ⟨b, hb, hlo, hhi⟩
  · omega
  · omega
  · exact hwf.payload_not_header (List.mem_filter.mp hb).1 hc hlo hhi

theorem HeapWf.write_usable (hwf : HeapWf h bs) (hm : ∀ x, m x ≠ h.mem x → UsableIn bs x) :
    HeapWf { h with mem := m } bs := by
  refine hwf.of_headers fun c hc x hlo hhi => ?_
  by_contra hne
  have := (hm x hne).not_header hwf hc
  omega

theorem UsableIn.mono (hx : UsableIn bs x) (hused : ∀ b ∈ Tiling.used bs, b ∈ Tiling.used bs') :
    UsableIn bs' x := by
  rcases hx with hx | hx | ⟨b, hb, hin⟩
  · exact Or.inl hx
  · exact Or.inr (Or.inl hx)
  · exact Or.inr (Or.inr ⟨b, hused b hb, hin⟩)

/-- `kmalloc` writes to no byte in use. -/
theorem kmalloc_usable (hwf : HeapWf h bs) (hx : UsableIn bs x) (n : Nat) :
    (kmalloc h n).2.mem x = h.mem x := by
  rcases kmalloc_cases hwf n with hk | ⟨hn, p, bs', ha⟩
  · rw [hk]
  · rcases hx with hx | hx | ⟨b, hb, hlo, hhi⟩
    · obtain ⟨-, -, b, hb, -, rfl, hframe⟩ := kmalloc_refines hwf hn ha
      have hbounds := hwf.mem_bounds hb
      exact hframe x (by omega)
    · obtain ⟨-, -, b, hb, -, rfl, hframe⟩ := kmalloc_refines hwf hn ha
      have hbounds := hwf.mem_bounds hb
      exact hframe x (by omega)
    · exact kmalloc_payload hwf hb hlo hhi n

end Usable

/-! ## The invariant -/

/-- The frame of `w` restores its caller. -/
structure OpenOk (bs : List Tiling.Seg) (m : Mem) (w : OpenCall) : Prop where
  ring : ring3 w.cpu.cs = true
  ctx : readCtx m w.frame = w.cpu.ctx
  frame : ∀ x, w.Covers x → UsableIn bs x
  buf : w.cpu.Reads → UsableIn bs w.cpu.ecx.toNat ∧ ¬w.Covers w.cpu.ecx.toNat

structure SysInv (s₀ : SysState) (r : SysRun) (bs : List Tiling.Seg) : Prop where
  wf : HeapWf r.st.heap bs
  waiting : ∀ w ∈ r.waiting, w.cpu.Reads ∧ OpenOk bs r.st.heap.mem w
  apart : r.waiting.Pairwise OpenCall.Apart
  vga : r.st.vga = putChars s₀.vga (r.log.flatMap SysEntry.screen)
  serial : r.st.serial = s₀.serial ++ r.log.flatMap SysEntry.port
  kb : KbRep r.st.kb r.typed (r.log.flatMap SysEntry.got).length
  got : r.log.flatMap SysEntry.got <+: r.typed
  typed : 0#8 ∉ r.typed
  good : ∀ e ∈ r.log, e.Good
  blocks : ∀ p ∈ r.log.flatMap SysEntry.block, ∃ b ∈ Tiling.used bs, p.1 = b.addr + 16
    ∧ (p.2 + 7 < 2 ^ 32 → p.2 ≤ b.size)
  nodup : ((r.log.flatMap SysEntry.block).map Prod.fst).Nodup

section Memory

variable {s₀ : SysState} {r : SysRun} {bs bs' : List Tiling.Seg} {m m' : Mem} {w : OpenCall}

theorem OpenOk.congr (h : OpenOk bs m w) (hm : ∀ x, w.Covers x → m' x = m x)
    (hused : ∀ b ∈ Tiling.used bs, b ∈ Tiling.used bs') : OpenOk bs' m' w := by
  have hcs : frameWord m w.frame 12 = w.cpu.cs := congrArg Ctx.cs h.ctx
  refine ⟨h.ring, ?_, fun x hx => (h.frame x hx).mono hused,
    fun hr => ⟨(h.buf hr).1.mono hused, (h.buf hr).2⟩⟩
  rw [← h.ctx]
  refine readCtx_congr fun x hlo hhi => hm x ⟨hlo, ?_⟩
  rwa [hcs, frameBytes, if_pos h.ring] at hhi

/-- Writes to memory in use that spare the frames. -/
theorem SysInv.memory (h : SysInv s₀ r bs)
    (hm : ∀ x, m x ≠ r.st.heap.mem x → UsableIn bs x ∧ ∀ w ∈ r.waiting, ¬w.Covers x) :
    SysInv s₀ { r with st := r.st.withMem m } bs where
  wf := h.wf.write_usable fun x hx => (hm x hx).1
  waiting w hw := by
    refine ⟨(h.waiting w hw).1, (h.waiting w hw).2.congr (fun x hx => ?_) fun b hb => hb⟩
    by_contra hne
    exact (hm x hne).2 w hw hx
  apart := h.apart
  vga := h.vga
  serial := h.serial
  kb := h.kb
  got := h.got
  typed := h.typed
  good := h.good
  blocks := h.blocks
  nodup := h.nodup

end Memory

/-! ## Effects of a call that comes back -/

/-- What the call `w` has done when it returns `v`, before the result is stored. -/
structure Effect (r : SysRun) (w : OpenCall) (bs : List Tiling.Seg) (s' : SysState) (v : BitVec 32)
    (bs' : List Tiling.Seg) : Prop where
  wf : HeapWf s'.heap bs'
  used : ∀ b ∈ Tiling.used bs, b ∈ Tiling.used bs'
  mem : ∀ x, UsableIn bs x → (w.cpu.Reads → x ≠ w.cpu.ecx.toNat) → s'.heap.mem x = r.st.heap.mem x
  vga : s'.vga = putChars r.st.vga (if w.cpu.Prints then w.cpu.text w.mem else [])
  serial : s'.serial = r.st.serial ++ if w.cpu.Sends then w.cpu.text w.mem else []
  noKey : ¬w.cpu.Reads → s'.kb = r.st.kb
  key : w.cpu.Reads → keyboardGetchar r.st.kb = some (s'.heap.mem w.cpu.ecx.toNat, s'.kb)
  result : (w.cpu.Prints ∨ w.cpu.Sends → v = w.cpu.edx) ∧ (w.cpu.Reads → v = 1#32)
  block : w.cpu.Sbrks → v ≠ minusOne → ∃ b ∈ Tiling.used bs', v.toNat = b.addr + 16
    ∧ (w.cpu.ebx.toNat + 7 < 2 ^ 32 → w.cpu.ebx.toNat ≤ b.size)
    ∧ ∀ d ∈ Tiling.used bs, d.addr ≠ b.addr

section Effects

variable {s₀ s' : SysState} {r : SysRun} {bs bs' : List Tiling.Seg} {w : OpenCall} {v : BitVec 32}
  {c : Cpu}

theorem Cpu.Prints.not_sends (h : c.Prints) : ¬c.Sends := fun hs =>
  absurd (h.2.1.symm.trans hs.2.1) (by decide)

theorem Cpu.Reads.others (h : c.Reads) : ¬c.Prints ∧ ¬c.Sends ∧ ¬c.Sbrks :=
  ⟨fun hp => absurd (h.1.symm.trans hp.1) (by decide),
    fun hp => absurd (h.1.symm.trans hp.1) (by decide),
    fun hp => absurd (h.1.symm.trans hp) (by decide)⟩

theorem Cpu.Sbrks.others (h : c.Sbrks) : ¬c.Prints ∧ ¬c.Sends ∧ ¬c.Reads :=
  ⟨fun hp => absurd (h.symm.trans hp.1) (by decide),
    fun hp => absurd (h.symm.trans hp.1) (by decide),
    fun hr => absurd (h.symm.trans hr.1) (by decide)⟩

/-- A character that the driver hands out was typed, so it is not zero. -/
theorem SysInv.getchar (h : SysInv s₀ r bs) {b : BitVec 8} {kb : Keyboard}
    (hget : keyboardGetchar r.st.kb = some (b, kb)) :
    b ≠ 0#8 ∧ r.typed[(r.log.flatMap SysEntry.got).length]? = some b
      ∧ KbRep kb r.typed ((r.log.flatMap SysEntry.got).length + 1) := by
  rw [keyboardGetchar] at hget
  split at hget
  · cases hget
  · next hne =>
      cases hget
      have hlo : (r.log.flatMap SysEntry.got).length < r.typed.length := by
        refine Nat.lt_of_le_of_ne h.kb.lo_le fun heq => hne ?_
        rw [h.kb.head, h.kb.tail, heq]
      have hfront := h.kb.front hlo
      refine ⟨fun hz => h.typed ?_, hfront, h.kb.pop hlo⟩
      rw [← hz]
      exact List.mem_of_getElem? hfront

/-- The block that `sbrk` returns. -/
theorem kmalloc_block {h : Heap} (hwf : HeapWf h bs) (n : Nat) :
    ∃ bs', HeapWf (kmalloc h n).2 bs' ∧ (∀ b ∈ Tiling.used bs, b ∈ Tiling.used bs')
      ∧ ((kmalloc h n).1 ≠ 0 → ∃ b ∈ Tiling.used bs',
        (BitVec.ofNat 32 (kmalloc h n).1).toNat = b.addr + 16
        ∧ (n + 7 < 2 ^ 32 → n ≤ b.size) ∧ ∀ d ∈ Tiling.used bs, d.addr ≠ b.addr) := by
  rcases kmalloc_placed hwf n with hk | ⟨b, bs', hptr, hsize, hp⟩
  · refine ⟨bs, ?_, fun b hb => hb, fun hne => ?_⟩
    · rw [hk]
      exact hwf
    · rw [hk] at hne
      exact absurd rfl hne
  · have hb : b ∈ Tiling.used bs' := (hp.used b).mpr (Or.inr rfl)
    have hlt := hp.wf.lt (List.mem_filter.mp hb).1
    refine ⟨bs', hp.wf, fun d hd => (hp.used d).mpr (Or.inl hd), fun _ => ⟨b, hb, ?_, ?_, hp.fresh⟩⟩
    · rw [hptr, BitVec.toNat_ofNat, Nat.mod_eq_of_lt (by omega)]
    · intro hn
      exact Nat.le_trans (le_align8 hn) hsize

theorem CallDoes.effect {e : SysEnd} (h : SysInv s₀ r bs) (hw : OpenOk bs r.st.heap.mem w)
    (htext : w.cpu.Prints ∨ w.cpu.Sends → w.cpu.text r.st.heap.mem = w.cpu.text w.mem)
    (hdoes : CallDoes r.st w.cpu s' e) (he : e = .ret v) : ∃ bs', Effect r w bs s' v bs' := by
  cases hdoes with
  | exit hc => cases he
  | wait hc hnone => cases he
  | print hc =>
      cases he
      refine ⟨bs, h.wf, fun b hb => hb, fun x _ _ => rfl, ?_, ?_, fun _ => rfl, ?_, ?_, ?_⟩
      · rw [if_pos hc, ← htext (Or.inl hc)]
      · rw [if_neg hc.not_sends, List.append_nil]
      · exact fun hr => absurd hc hr.others.1
      · exact ⟨fun _ => rfl, fun hr => absurd hc hr.others.1⟩
      · exact fun hb => absurd hc hb.others.1
  | send hc =>
      cases he
      refine ⟨bs, h.wf, fun b hb => hb, fun x _ _ => rfl, ?_, ?_, fun _ => rfl, ?_, ?_, ?_⟩
      · rw [if_neg fun hp => hp.not_sends hc]
        rfl
      · rw [if_pos hc, ← htext (Or.inr hc)]
      · exact fun hr => absurd hc hr.others.2.1
      · exact ⟨fun _ => rfl, fun hr => absurd hc hr.others.2.1⟩
      · exact fun hb => absurd hc hb.others.2.1
  | @read b kb hc hsome hb =>
      cases he
      obtain ⟨hprints, hsends, hsbrks⟩ := hc.others
      refine ⟨bs, ?_, fun b hb => hb, ?_, ?_, ?_, fun hn => absurd hc hn, ?_, ?_, ?_⟩
      · refine h.wf.write_usable fun x hx => ?_
        have hxb : x = w.cpu.ecx.toNat := by
          by_contra hne
          exact hx (store8_of_ne hne)
        rw [hxb]
        exact (hw.buf hc).1
      · exact fun x _ hx => store8_of_ne (hx hc)
      · rw [if_neg hprints]
        rfl
      · rw [if_neg hsends, List.append_nil]
        rfl
      · intro _
        rw [hsome]
        exact congrArg (fun b => some (b, kb)) (store8_self r.st.heap.mem w.cpu.ecx.toNat b).symm
      · exact ⟨fun hc' => absurd hc' (not_or.mpr ⟨hprints, hsends⟩), fun _ => rfl⟩
      · exact fun hs => absurd hs hsbrks
  | @readZero kb hc hsome => exact absurd rfl (h.getchar hsome).1
  | sbrk hc =>
      obtain ⟨hprints, hsends, hreads⟩ := hc.others
      obtain ⟨bs', hwf', hused, hblock⟩ := kmalloc_block h.wf w.cpu.ebx.toNat
      refine ⟨bs', hwf', hused, fun x hx _ => kmalloc_usable h.wf hx _, ?_, ?_, fun _ => rfl, ?_,
        ?_, ?_⟩
      · rw [if_neg hprints]
        rfl
      · rw [if_neg hsends, List.append_nil]
      · exact fun hr => absurd hr hreads
      · exact ⟨fun hc' => absurd hc' (not_or.mpr ⟨hprints, hsends⟩), fun hr => absurd hr hreads⟩
      · intro _ hv
        cases he
        by_cases hp : (kmalloc r.st.heap w.cpu.ebx.toNat).1 = 0
        · rw [if_neg (not_not.mpr hp)] at hv
          exact absurd rfl hv
        · rw [if_pos hp]
          exact hblock hp
  | quiet hc sched =>
      obtain ⟨-, hprints, hsends, hreads, hsbrks⟩ := hc
      cases he
      refine ⟨bs, h.wf, fun b hb => hb, fun x _ _ => rfl, ?_, ?_, fun _ => rfl, ?_, ?_, ?_⟩
      · rw [if_neg hprints]
        rfl
      · rw [if_neg hsends, List.append_nil]
      · exact fun hr => absurd hr hreads
      · exact ⟨fun hc' => absurd hc' (not_or.mpr ⟨hprints, hsends⟩), fun hr => absurd hr hreads⟩
      · exact fun hs => absurd hs hsbrks

end Effects

/-! ## Steps keep the invariant -/

section Steps

variable {s₀ s' : SysState} {r r' : SysRun} {bs bs' : List Tiling.Seg} {w : OpenCall}
  {v : BitVec 32}

theorem putChars_append (vga : Vga) (a b : List (BitVec 8)) :
    putChars vga (a ++ b) = putChars (putChars vga a) b := List.foldl_append ..

theorem flatMap_concat {α β : Type} (f : α → List β) (l : List α) (a : α) :
    (l ++ [a]).flatMap f = l.flatMap f ++ f a := by
  rw [List.flatMap_append, List.flatMap_singleton]

/-- The result is stored inside the frame. -/
theorem setFrameEax_of_not_covers {m : Mem} {x : Nat} (hx : ¬w.Covers x) :
    setFrameEax m w.frame v x = m x := by
  rw [OpenCall.Covers, not_and] at hx
  exact setFrameEax_of_outside (by omega)

theorem Effect.frame (heff : Effect r w bs s' v bs') (hw : OpenOk bs r.st.heap.mem w) {x : Nat}
    (hx : w.Covers x) : s'.heap.mem x = r.st.heap.mem x := by
  refine heff.mem x (hw.frame x hx) fun hr heq => (hw.buf hr).2 ?_
  rwa [← heq]

/-- The frames of the others. -/
theorem Effect.other (heff : Effect r w bs s' v bs') {w' : OpenCall} (hapart : w.Apart w')
    (hw' : OpenOk bs r.st.heap.mem w') :
    OpenOk bs' (setFrameEax s'.heap.mem w.frame v) w' := by
  refine hw'.congr (fun x hx => ?_) heff.used
  rw [setFrameEax_of_not_covers fun hc => hapart.frames x hc hx]
  refine heff.mem x (hw'.frame x hx) fun hr heq => hapart.buf hr ?_
  rwa [← heq]

theorem Effect.resumed (heff : Effect r w bs s' v bs') (hw : OpenOk bs r.st.heap.mem w) :
    readCtx (setFrameEax s'.heap.mem w.frame v) w.frame = { w.cpu.ctx with eax := v } := by
  rw [readCtx_setFrameEax, (hw.congr (fun x hx => heff.frame hw hx) fun b hb => hb).ctx]

/-- The keyboard after the call. -/
theorem Effect.keyboard (heff : Effect r w bs s' v bs') (h : SysInv s₀ r bs)
    (hw : OpenOk bs r.st.heap.mem w) {ctx : Ctx} :
    let got := r.log.flatMap SysEntry.got ++ SysEntry.got (.done w.cpu w.mem v ctx
      (setFrameEax s'.heap.mem w.frame v w.cpu.ecx.toNat))
    KbRep s'.kb r.typed got.length ∧ got <+: r.typed := by
  intro got
  by_cases hr : w.cpu.Reads
  · obtain ⟨-, hnext, hrep⟩ := h.getchar (heff.key hr)
    have hgot : got = r.log.flatMap SysEntry.got ++ [s'.heap.mem w.cpu.ecx.toNat] := by
      show _ ++ SysEntry.got (.done _ _ _ _ _) = _
      rw [SysEntry.got, if_pos hr, setFrameEax_of_not_covers (hw.buf hr).2]
    rw [hgot]
    refine ⟨?_, ?_⟩
    · rw [List.length_append, List.length_singleton]
      exact hrep
    · obtain ⟨rest, hrest⟩ := h.got
      rw [← hrest, List.getElem?_append_right (Nat.le_refl _), Nat.sub_self] at hnext
      obtain ⟨b, rest', rfl⟩ := List.exists_cons_of_ne_nil (l := rest) fun hnil => by
        rw [hnil] at hnext
        cases hnext
      cases hnext
      exact ⟨rest', by rw [← hrest, List.append_assoc, List.singleton_append]⟩
  · have hgot : got = r.log.flatMap SysEntry.got := by
      show _ ++ SysEntry.got (.done _ _ _ _ _) = _
      rw [SysEntry.got, if_neg hr, List.append_nil]
    rw [hgot, heff.noKey hr]
    exact ⟨h.kb, h.got⟩

/-- The blocks given away after the call. -/
theorem Effect.given (heff : Effect r w bs s' v bs') (h : SysInv s₀ r bs) {ctx : Ctx}
    {b : BitVec 8} :
    let given := r.log.flatMap SysEntry.block ++ SysEntry.block (.done w.cpu w.mem v ctx b)
    (∀ p ∈ given, ∃ b ∈ Tiling.used bs', p.1 = b.addr + 16 ∧ (p.2 + 7 < 2 ^ 32 → p.2 ≤ b.size))
      ∧ (given.map Prod.fst).Nodup := by
  have hold : ∀ p ∈ r.log.flatMap SysEntry.block, ∃ b ∈ Tiling.used bs', p.1 = b.addr + 16
      ∧ (p.2 + 7 < 2 ^ 32 → p.2 ≤ b.size) := by
    intro p hp
    obtain ⟨b, hb, hin⟩ := h.blocks p hp
    exact ⟨b, heff.used b hb, hin⟩
  intro given
  by_cases hs : w.cpu.Sbrks ∧ v ≠ minusOne
  · obtain ⟨b, hb, hv, hsize, hfresh⟩ := heff.block hs.1 hs.2
    have hgiven : given = r.log.flatMap SysEntry.block ++ [(v.toNat, w.cpu.ebx.toNat)] := by
      show _ ++ SysEntry.block (.done _ _ _ _ _) = _
      rw [SysEntry.block, if_pos hs]
    rw [hgiven]
    refine ⟨fun p hp => ?_, ?_⟩
    · rcases List.mem_append.mp hp with hp | hp
      · exact hold p hp
      · rw [List.mem_singleton.mp hp]
        exact ⟨b, hb, hv, hsize⟩
    · rw [List.map_append, List.map_singleton, List.nodup_append]
      refine ⟨h.nodup, List.nodup_singleton _, ?_⟩
      intro a ha a' ha' heq
      obtain ⟨p, hp, rfl⟩ := List.mem_map.mp ha
      obtain ⟨d, hd, hpd, -⟩ := h.blocks p hp
      rw [List.mem_singleton.mp ha'] at heq
      refine hfresh d hd ?_
      dsimp only at heq
      omega
  · have hgiven : given = r.log.flatMap SysEntry.block := by
      show _ ++ SysEntry.block (.done _ _ _ _ _) = _
      rw [SysEntry.block, if_neg hs, List.append_nil]
    rw [hgiven]
    exact ⟨hold, h.nodup⟩

theorem Effect.inv (heff : Effect r w bs s' v bs') (h : SysInv s₀ r bs)
    (hw : OpenOk bs r.st.heap.mem w) (hapart : ∀ w' ∈ r.waiting, w.Apart w') :
    SysInv s₀ (r.finish w (storeResult w.frame (s', .ret v))) bs' where
  wf := by
    refine heff.wf.write_usable fun x hx => ?_
    have hc : w.Covers x := by
      by_contra hc
      exact hx (setFrameEax_of_not_covers hc)
    exact (hw.frame x hc).mono heff.used
  waiting w' hw' :=
    ⟨(h.waiting w' hw').1, heff.other (hapart w' hw') (h.waiting w' hw').2⟩
  apart := h.apart
  vga := by
    show s'.vga = putChars s₀.vga ((r.log ++ [_]).flatMap SysEntry.screen)
    rw [flatMap_concat, putChars_append, ← h.vga]
    exact heff.vga
  serial := by
    show s'.serial = s₀.serial ++ (r.log ++ [_]).flatMap SysEntry.port
    rw [flatMap_concat, ← List.append_assoc, ← h.serial]
    exact heff.serial
  kb := by
    show KbRep s'.kb r.typed ((r.log ++ [_]).flatMap SysEntry.got).length
    rw [flatMap_concat]
    exact (heff.keyboard h hw).1
  got := by
    show (r.log ++ [_]).flatMap SysEntry.got <+: r.typed
    rw [flatMap_concat]
    exact (heff.keyboard h hw).2
  typed := h.typed
  good := by
    intro e he
    rcases List.mem_append.mp he with he | he
    · exact h.good e he
    · rw [List.mem_singleton.mp he]
      exact ⟨heff.resumed hw, heff.result⟩
  blocks p hp := by
    change p ∈ (r.log ++ [_]).flatMap SysEntry.block at hp
    rw [flatMap_concat] at hp
    exact (heff.given h).1 p hp
  nodup := by
    show (((r.log ++ [_]).flatMap SysEntry.block).map Prod.fst).Nodup
    rw [flatMap_concat]
    exact (heff.given h).2

/-- A call that ends the task, waits or comes back. -/
theorem SysInv.finish {e : SysEnd} (h : SysInv s₀ r bs) (hw : OpenOk bs r.st.heap.mem w)
    (hapart : ∀ w' ∈ r.waiting, w.Apart w')
    (htext : w.cpu.Prints ∨ w.cpu.Sends → w.cpu.text r.st.heap.mem = w.cpu.text w.mem)
    (hdoes : CallDoes r.st w.cpu s' e) :
    ∃ bs', SysInv s₀ (r.finish w (storeResult w.frame (s', e))) bs' := by
  cases e with
  | ret v =>
      obtain ⟨bs', heff⟩ := hdoes.effect h hw htext rfl
      exact ⟨bs', heff.inv h hw hapart⟩
  | wait buf =>
      cases hdoes with
      | wait hr hnone =>
          refine ⟨bs, h.wf, fun w' hw' => ?_, List.pairwise_cons.mpr ⟨hapart, h.apart⟩, h.vga,
            h.serial, h.kb, h.got, h.typed, h.good, h.blocks, h.nodup⟩
          rcases List.mem_cons.mp hw' with rfl | hw'
          · exact ⟨hr, hw⟩
          · exact h.waiting w' hw'
  | gone =>
      cases hdoes with
      | exit hc =>
          have hnone : ∀ {β : Type} (f : SysEntry → List β), f .exit = [] →
              (r.log ++ [SysEntry.exit]).flatMap f = r.log.flatMap f := by
            intro β f hf
            rw [flatMap_concat, hf, List.append_nil]
          refine ⟨bs, h.wf, h.waiting, h.apart, ?_, ?_, ?_, ?_, h.typed, ?_, ?_, ?_⟩
          · exact h.vga.trans (congrArg _ (hnone SysEntry.screen rfl).symm)
          · show r.st.serial ++ klogText sysExitMsg
              = s₀.serial ++ (r.log ++ [SysEntry.exit]).flatMap SysEntry.port
            rw [flatMap_concat, ← List.append_assoc, ← h.serial]
            rfl
          · show KbRep r.st.kb r.typed ((r.log ++ [SysEntry.exit]).flatMap SysEntry.got).length
            rw [hnone SysEntry.got rfl]
            exact h.kb
          · show (r.log ++ [SysEntry.exit]).flatMap SysEntry.got <+: r.typed
            rw [hnone SysEntry.got rfl]
            exact h.got
          · intro e he
            rcases List.mem_append.mp he with he | he
            · exact h.good e he
            · rw [List.mem_singleton.mp he]
              trivial
          · intro p hp
            change p ∈ (r.log ++ [SysEntry.exit]).flatMap SysEntry.block at hp
            rw [hnone SysEntry.block rfl] at hp
            exact h.blocks p hp
          · show (((r.log ++ [SysEntry.exit]).flatMap SysEntry.block).map Prod.fst).Nodup
            rw [hnone SysEntry.block rfl]
            exact h.nodup

/-- Pushing the frame is a write to memory in use. -/
theorem SysInv.call (h : SysInv s₀ r bs) {c : Cpu} {esp0 : Nat} (hok : SysCallOk r c esp0) :
    ∃ bs', SysInv s₀ (r.call c esp0) bs' := by
  have hsize : frameBytes c.cs = 64 := if_pos hok.ring
  have hstack : entryStack c esp0 = esp0 := if_pos hok.ring
  have hroom : frameBytes c.cs ≤ entryStack c esp0 := by
    rw [hsize, hstack]
    exact hok.room
  have hframe : entryFrame c esp0 + 64 = esp0 := by
    rw [entryFrame, hsize, hstack]
    exact Nat.sub_add_cancel hok.room
  have houtside : ∀ x, ¬(r.opened c esp0).Covers x →
      (sysEnter r.st c esp0).heap.mem x = r.st.heap.mem x := by
    intro x hx
    refine isrEntry_of_outside hroom ?_
    rw [OpenCall.Covers, not_and] at hx
    change entryFrame c esp0 ≤ x → ¬x < entryFrame c esp0 + 64 at hx
    rw [hstack]
    omega
  have hpushed : SysInv s₀ { r with st := sysEnter r.st c esp0 } bs := by
    refine h.memory fun x hx => ?_
    have hc : (r.opened c esp0).Covers x := by
      by_contra hc
      exact hx (houtside x hc)
    exact ⟨(usable_iff h.wf).mp (hok.stack x hc), fun w' hw' => (hok.apart w' hw').frames x hc⟩
  have hopen : OpenOk bs (sysEnter r.st c esp0).heap.mem (r.opened c esp0) :=
    ⟨hok.ring, readCtx_sysEnter hroom, fun x hx => (usable_iff h.wf).mp (hok.stack x hx),
      fun hr => ⟨(usable_iff h.wf).mp (hok.buf hr).1, (hok.buf hr).2⟩⟩
  obtain ⟨s', e, hdoes, hrun⟩ := syscallHandler_does (argsAt_of_readCtx (readCtx_sysEnter hroom))
  rw [SysRun.call, hrun]
  refine hpushed.finish hopen hok.apart (fun ht => ?_) hdoes
  show textAt _ _ _ = textAt _ _ _
  rw [textAt, textAt]
  exact List.map_congr_left fun i hi => houtside _ (hok.text ht i (List.mem_range.mp hi))

theorem SysInv.retry (h : SysInv s₀ r bs) {pre post : List OpenCall}
    (hw : r.waiting = pre ++ w :: post) : ∃ bs', SysInv s₀ (r.retry w (pre ++ post)) bs' := by
  have hmem : w ∈ r.waiting := by
    rw [hw]
    exact List.mem_append_right pre (List.mem_cons_self ..)
  have hsub : ∀ w' ∈ pre ++ post, w' ∈ r.waiting := by
    intro w' hw'
    rw [hw, List.mem_append, List.mem_cons]
    rcases List.mem_append.mp hw' with h | h
    · exact Or.inl h
    · exact Or.inr (Or.inr h)
  have hpair := h.apart
  rw [hw, List.pairwise_append, List.pairwise_cons] at hpair
  obtain ⟨hpre, ⟨hpost, hpost'⟩, hcross⟩ := hpair
  have hothers : SysInv s₀ { r with waiting := pre ++ post } bs := by
    refine ⟨h.wf, fun w' hw' => h.waiting w' (hsub w' hw'), ?_, h.vga, h.serial, h.kb, h.got,
      h.typed, h.good, h.blocks, h.nodup⟩
    exact List.pairwise_append.mpr
      ⟨hpre, hpost', fun a ha b hb => hcross a ha b (List.mem_cons_of_mem w hb)⟩
  have hapart : ∀ w' ∈ pre ++ post, w.Apart w' := by
    intro w' hw'
    rcases List.mem_append.mp hw' with hp | hp
    · have hap := hcross w' hp w (List.mem_cons_self ..)
      exact ⟨fun x hx hx' => hap.frames x hx' hx, hap.buf', hap.buf⟩
    · exact hpost w' hp
  obtain ⟨hr, hok⟩ := h.waiting w hmem
  obtain ⟨hprints, hsends, -⟩ := hr.others
  exact hothers.finish hok hapart (fun ht => absurd ht (not_or.mpr ⟨hprints, hsends⟩))
    (sysReadTake_does hr)

/-- Only characters are accepted. -/
theorem keyAccepted_ne_zero (kb : Keyboard) (scancode : BitVec 8) :
    0#8 ∉ keyAccepted kb scancode := by
  have hkey : ∀ (kb : Keyboard) (released : Bool) (key : BitVec 8),
      (handleKey kb released key).2 ≠ some 0#8 := by
    intro kb released key heq
    rw [handleKey] at heq
    repeat' split at heq
    all_goals first
      | cases heq
      | (simp only [Option.some.injEq] at heq; contradiction)
  have hdecode : (decodeKey kb scancode).2 ≠ some 0#8 := by
    rw [decodeKey]
    split
    · exact Option.some_ne_none _ |>.symm
    · split
      · exact Option.some_ne_none _ |>.symm
      · exact hkey _ _ _
  rw [keyAccepted]
  split
  · exact List.not_mem_nil
  · intro hmem
    exact hdecode (Option.mem_toList.mp hmem)

theorem SysInv.key (h : SysInv s₀ r bs) (scancode : BitVec 8) :
    SysInv s₀ { r with
      st := { r.st with kb := keyboardIrqHandler r.st.kb scancode }
      typed := r.typed ++ keyAccepted r.st.kb scancode } bs := by
  refine ⟨h.wf, h.waiting, h.apart, h.vga, h.serial, h.kb.irq scancode,
    h.got.trans (List.prefix_append ..), ?_, h.good, h.blocks, h.nodup⟩
  rw [List.mem_append, not_or]
  exact ⟨h.typed, keyAccepted_ne_zero r.st.kb scancode⟩

theorem SysStep.inv (hs : SysStep r r') (h : SysInv s₀ r bs) : ∃ bs', SysInv s₀ r' bs' := by
  cases hs with
  | call c esp0 hok => exact h.call hok
  | retry hw => exact h.retry hw
  | key scancode => exact ⟨bs, h.key scancode⟩
  | tick =>
      exact ⟨bs, h.wf, h.waiting, h.apart, h.vga, h.serial, h.kb, h.got, h.typed, h.good, h.blocks,
        h.nodup⟩
  | switch sched =>
      exact ⟨bs, h.wf, h.waiting, h.apart, h.vga, h.serial, h.kb, h.got, h.typed, h.good, h.blocks,
        h.nodup⟩
  | user m hm =>
      exact ⟨bs, h.memory fun x hx => ⟨(usable_iff h.wf).mp (hm x hx).1, (hm x hx).2⟩⟩

theorem SysReach.inv (h : SysReach s₀ r) : ∃ bs, SysInv s₀ r bs := by
  induction h with
  | @init live kb hheap hkb =>
      obtain ⟨bs, hwf, -⟩ := heapReach_inv hheap
      refine ⟨bs, hwf, fun w hw => ?_, List.Pairwise.nil, rfl, (List.append_nil _).symm, ?_,
        List.prefix_refl _, List.not_mem_nil, fun e he => ?_, fun p hp => ?_, List.nodup_nil⟩
      · cases hw
      · show KbRep s₀.kb [] 0
        rw [hkb]
        exact keyboardInit_rep kb
      · cases he
      · cases hp
  | step _ hs ih =>
      obtain ⟨bs, hinv⟩ := ih
      exact hs.inv hinv

end Steps

/-- **What calls return and where their bytes go.** In every run with good pointers: a call
changes no register of its caller but the one with its result; the screen shows the texts
written to descriptor 1, one after the other, and the serial port gets those written to
descriptor 2 and the log lines of the tasks that exit; the characters read are the first
ones typed, in order, each of them read once. -/
theorem syscall_streams {s₀ : SysState} {r : SysRun} (h : SysReach s₀ r) :
    (∀ e ∈ r.log, e.Good)
      ∧ r.st.vga = putChars s₀.vga (r.log.flatMap SysEntry.screen)
      ∧ r.st.serial = s₀.serial ++ r.log.flatMap SysEntry.port
      ∧ r.log.flatMap SysEntry.got <+: r.typed := by
  obtain ⟨bs, hinv⟩ := h.inv
  exact ⟨hinv.good, hinv.vga, hinv.serial, hinv.got⟩

/-- A kernel with an empty heap and nothing typed. -/
def freshSys : SysState :=
  { backspaceTyped with kb := keyboardInit ⟨0#8, false, fun _ => 0#8, 0, 0⟩ }

theorem freshSys_reach : SysReach freshSys ⟨freshSys, [], [], []⟩ := .init (.init _) rfl

/-- A user task with its kernel stack and its buffer below the heap. -/
def lowCaller (eax ebx : BitVec 32) : Cpu :=
  { aimedRead with eax := eax, ebx := ebx, ecx := 0x00170000#32 }

theorem lowCaller_ok {r : SysRun} {eax ebx : BitVec 32} (hnone : r.waiting = []) :
    SysCallOk r (lowCaller eax ebx) 0x180000 := by
  have hring : ring3 (lowCaller eax ebx).cs = true := ring3_user
  have hframe : (r.opened (lowCaller eax ebx) 0x180000).frame = 0x17FFC0 := by
    show entryFrame (lowCaller eax ebx) 0x180000 = 0x17FFC0
    rw [entryFrame, entryStack, frameBytes, if_pos hring, if_pos hring]
  have hbuf : (lowCaller eax ebx).ecx.toNat = 0x170000 := (by decide : (0x00170000#32).toNat = _)
  have hout : ¬(r.opened (lowCaller eax ebx) 0x180000).Covers 0x170000 := by
    rw [OpenCall.Covers, hframe]
    decide
  refine ⟨hring, by decide, fun x hx => Or.inl ?_, fun w hw => ?_, fun _ i hi => ?_, fun _ => ?_⟩
  · have hhi := hx.2
    rw [hframe] at hhi
    exact Nat.lt_of_lt_of_le hhi (by decide)
  · rw [hnone] at hw
    cases hw
  · have hone : i < 1 := hi
    rw [hbuf, Nat.lt_one_iff.mp hone]
    exact hout
  · rw [hbuf]
    exact ⟨Or.inl (by decide), hout⟩

/-- The key `a` is pressed and read. -/
theorem syscall_streams_key :
    ∃ r, SysReach freshSys r ∧ r.log.flatMap SysEntry.got = [0x61#8]
      ∧ r.log.flatMap SysEntry.got <+: r.typed := by
  have hreach := ((freshSys_reach.step (.key 0x1E#8)).step
    (.call (lowCaller 2#32 0#32) 0x180000 (lowCaller_ok rfl)))
  exact ⟨_, hreach, by decide +kernel, (syscall_streams hreach).2.2.2⟩

/-- **Blocks of `sbrk`.** No system call gives memory back: in every run with good pointers
the blocks handed out so far start at different addresses of the heap and are at most as many
as headers fit into it. Those whose size rounds up without wrapping do not overlap, and they are
the ones that lie inside the heap. -/
theorem sbrk_blocks {s₀ : SysState} {r : SysRun} (h : SysReach s₀ r) :
    let given := r.log.flatMap SysEntry.block
    (∀ p ∈ given, ∀ q ∈ given, p.1 ≠ q.1 → p.2 + 7 < 2 ^ 32 → q.2 + 7 < 2 ^ 32 →
        p.1 + p.2 ≤ q.1 ∨ q.1 + q.2 ≤ p.1)
      ∧ (∀ p ∈ given, HEAP_START + 16 ≤ p.1 ∧ p.1 ≤ HEAP_START + HEAP_INITIAL
        ∧ (p.1 + p.2 ≤ HEAP_START + HEAP_INITIAL ↔ p.2 + 7 < 2 ^ 32))
      ∧ (given.map Prod.fst).Nodup ∧ 16 * given.length ≤ HEAP_INITIAL := by
  obtain ⟨bs, hinv⟩ := h.inv
  intro given
  refine ⟨?_, ?_, hinv.nodup, ?_⟩
  · intro p hp q hq hne hp7 hq7
    obtain ⟨b, hb, hpb, hsize⟩ := hinv.blocks p hp
    obtain ⟨c, hc, hqc, hsize'⟩ := hinv.blocks q hq
    have hle := hsize hp7
    have hle' := hsize' hq7
    rcases hinv.wf.canon.tiles.apart (List.mem_filter.mp hb).1 (List.mem_filter.mp hc).1 with
      rfl | hapart
    · exact absurd (hpb.trans hqc.symm) hne
    · rw [sizeofBlock] at hapart
      omega
  · intro p hp
    obtain ⟨b, hb, hpb, hsize⟩ := hinv.blocks p hp
    have hbounds := hinv.wf.mem_bounds (List.mem_filter.mp hb).1
    refine ⟨by omega, by omega, fun hin => ?_, fun hp7 => ?_⟩
    · unfold HEAP_START HEAP_INITIAL at hin
      omega
    · have hle := hsize hp7
      omega
  · have hsub : given.map Prod.fst ⊆ bs.map fun b => b.addr + 16 := by
      intro a ha
      obtain ⟨p, hp, rfl⟩ := List.mem_map.mp ha
      obtain ⟨b, hb, hpb, -⟩ := hinv.blocks p hp
      exact List.mem_map.mpr ⟨b, (List.mem_filter.mp hb).1, hpb.symm⟩
    have hlen := (hinv.nodup.subperm hsub).length_le
    have htiles := tiles_length hinv.wf.canon.tiles
    rw [List.length_map, List.length_map] at hlen
    calc 16 * given.length ≤ 16 * bs.length := Nat.mul_le_mul_left 16 hlen
      _ ≤ HEAP_INITIAL := Nat.le_of_add_le_add_left htiles

/-- After `sbrk(100)` and `sbrk(200)`. -/
def twoSbrks : SysRun :=
  (SysRun.call ⟨freshSys, [], [], []⟩ (lowCaller 5#32 100#32) 0x180000).call
    (lowCaller 5#32 200#32) 0x180000

theorem twoSbrks_reach : SysReach freshSys twoSbrks :=
  (freshSys_reach.step (.call (lowCaller 5#32 100#32) 0x180000 (lowCaller_ok rfl))).step
    (.call (lowCaller 5#32 200#32) 0x180000 (lowCaller_ok rfl))

/-- The two blocks stand next to each other, a header apart. -/
theorem sbrk_blocks_two :
    twoSbrks.log.flatMap SysEntry.block = [(HEAP_START + 16, 100), (HEAP_START + 136, 200)]
      ∧ (∀ p ∈ twoSbrks.log.flatMap SysEntry.block, p.1 + p.2 ≤ HEAP_START + HEAP_INITIAL)
      ∧ 16 * (twoSbrks.log.flatMap SysEntry.block).length ≤ HEAP_INITIAL := by
  obtain ⟨-, hinside, -, hcount⟩ := sbrk_blocks twoSbrks_reach
  have hgiven : twoSbrks.log.flatMap SysEntry.block =
      [(HEAP_START + 16, 100), (HEAP_START + 136, 200)] := by decide +kernel
  refine ⟨hgiven, fun p hp => (hinside p hp).2.2.mpr ?_, hcount⟩
  rw [hgiven] at hp
  rcases List.mem_cons.mp hp with rfl | hp
  · decide
  · cases List.mem_singleton.mp hp
    decide

end Matryoshka
