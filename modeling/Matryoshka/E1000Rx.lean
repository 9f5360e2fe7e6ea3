import Matryoshka.E1000
import Matryoshka.RingBuf
import Mathlib.Data.List.Forall2

/-!
# The receive ring

The NIC fills the descriptor at RDH while RDH and RDT differ; the driver
takes frames at `rx_cur`. A call of `e1000_receive` runs statement by
statement, the copy byte by byte, with NIC steps anywhere in between. The
frames placed and the frames returned are recorded, and the main result
compares the two records.
-/

namespace Matryoshka

open ByteMem RingBuf

/-! ## The two parties -/

/-- The NIC stores a frame in descriptor RDH. -/
def nicPlace (s : E1000) (f : List (BitVec 8)) : E1000 :=
  { s with
    rxBuffers := Function.update s.rxBuffers s.rdh
      fun i => f.getD i (s.rxBuffers s.rdh i)
    rxDescs := Function.update s.rxDescs s.rdh
      ⟨f.length, (s.rxDescs s.rdh).status ||| RDESC_STA_DD ||| RDESC_STA_EOP⟩
    rdh := (s.rdh + 1) % E1000_NUM_RX_DESC }

/-- The locals of a call that found a frame. -/
structure RxCall where
  bufSize : Nat
  len : Nat
  buf : Mem

/-- Where the driver is in `e1000_receive`. -/
inductive RxPc
  | idle
  | copy (c : RxCall) (i : Nat)
  | clear (c : RxCall)
  | advance (c : RxCall)
  | release (c : RxCall) (old : Nat)

/-- A frame as it was returned to the caller. -/
structure RxReturn where
  bufSize : Nat
  bytes : List (BitVec 8)

structure RxSys where
  dev : E1000
  pc : RxPc
  /-- Every frame the NIC stored so far, with its descriptor. -/
  placed : List (Nat × List (BitVec 8))
  returned : List RxReturn

inductive RxEvent
  | place
  | empty
  | start
  | work
  | ret

inductive RxStep (sys : RxSys) : RxEvent → RxSys → Prop
  | place (f : List (BitVec 8)) (h1 : 0 < f.length) (h2 : f.length ≤ E1000_RX_BUF_SIZE)
      (hne : sys.dev.rdh ≠ sys.dev.rdt) :
      RxStep sys .place
        { sys with dev := nicPlace sys.dev f, placed := sys.placed ++ [(sys.dev.rdh, f)] }
  | empty (bufSize : Nat) (h0 : 0 < bufSize) (hpc : sys.pc = .idle)
      (hdd : (sys.dev.rxDescs sys.dev.rxCur).done = false) : RxStep sys .empty sys
  | start (bufSize : Nat) (buf : Mem) (h0 : 0 < bufSize) (hpc : sys.pc = .idle)
      (hdd : (sys.dev.rxDescs sys.dev.rxCur).done = true) :
      RxStep sys .start
        { sys with pc := .copy ⟨bufSize, rxLen (sys.dev.rxDescs sys.dev.rxCur) bufSize, buf⟩ 0 }
  | byte {c : RxCall} {i : Nat} (hpc : sys.pc = .copy c i) (hi : i < c.len) :
      RxStep sys .work
        { sys with
          pc := .copy { c with buf := store8 c.buf i (sys.dev.rxBuffers sys.dev.rxCur i) } (i + 1) }
  | copied {c : RxCall} (hpc : sys.pc = .copy c c.len) :
      RxStep sys .work { sys with pc := .clear c }
  | clear {c : RxCall} (hpc : sys.pc = .clear c) :
      RxStep sys .work { sys with dev := clearRxDesc sys.dev, pc := .advance c }
  | advance {c : RxCall} (hpc : sys.pc = .advance c) :
      RxStep sys .work { sys with dev := advanceRx sys.dev, pc := .release c sys.dev.rxCur }
  | release {c : RxCall} {old : Nat} (hpc : sys.pc = .release c old) :
      RxStep sys .ret
        { sys with
          dev := releaseRx sys.dev old
          pc := .idle
          returned := sys.returned ++ [⟨c.bufSize, bytesAt c.buf 0 c.len⟩] }

/-- Runs from the end of `e1000_init`. -/
inductive RxRun : RxSys → Prop
  | init (s : E1000) : RxRun ⟨e1000Init s, .idle, [], []⟩
  | step {sys sys' : RxSys} {e : RxEvent} (h : RxRun sys) (hs : RxStep sys e sys') : RxRun sys'

/-! ## A call on its own -/

/-- Driver steps only. -/
inductive RxWork : RxSys → RxSys → Prop
  | refl (sys : RxSys) : RxWork sys sys
  | step {sys sys' sys'' : RxSys} (hs : RxStep sys .work sys') (h : RxWork sys' sys'') :
      RxWork sys sys''

theorem RxWork.trans {sys sys' sys'' : RxSys} (h : RxWork sys sys') (h' : RxWork sys' sys'') :
    RxWork sys sys'' := by
  induction h with
  | refl => exact h'
  | step hs _ ih => exact .step hs (ih h')

section Call

variable (dev : E1000) (placed : List (Nat × List (BitVec 8))) (returned : List RxReturn)
  (bufSize len : Nat) (buf : Mem)

theorem RxWork.copy :
    ∀ {n i : Nat}, i + n = len →
      RxWork ⟨dev, .copy ⟨bufSize, len, copyUp buf 0 (dev.rxBuffers dev.rxCur) 0 i⟩ i, placed,
          returned⟩
        ⟨dev, .clear ⟨bufSize, len, copyUp buf 0 (dev.rxBuffers dev.rxCur) 0 len⟩, placed, returned⟩
  | 0, i, h => by
      obtain rfl : i = len := h
      exact .step (.copied rfl) (.refl _)
  | n + 1, i, h => by
      have hnext : store8 (copyUp buf 0 (dev.rxBuffers dev.rxCur) 0 i) i
          (dev.rxBuffers dev.rxCur i) = copyUp buf 0 (dev.rxBuffers dev.rxCur) 0 (i + 1) := by
        rw [copyUp, Nat.zero_add]
      have hrest := RxWork.copy (i := i + 1) (n := n) (by omega)
      rw [← hnext] at hrest
      exact .step (.byte (c := ⟨bufSize, len, _⟩) rfl (show i < len by omega)) hrest

/-- The statements from the copy to the write of RDT. -/
theorem RxWork.call :
    RxWork ⟨dev, .copy ⟨bufSize, len, buf⟩ 0, placed, returned⟩
      ⟨advanceRx (clearRxDesc dev),
        .release ⟨bufSize, len, copyUp buf 0 (dev.rxBuffers dev.rxCur) 0 len⟩ dev.rxCur, placed,
        returned⟩ := by
  have hcopy := RxWork.copy dev placed returned bufSize len buf (Nat.zero_add len)
  exact hcopy.trans (.step (.clear rfl) (.step (.advance rfl) (.refl _)))

end Call

/-- Without NIC steps in between, the statements of a call that finds a frame do what
`e1000_receive` does. -/
theorem receive_steps {sys : RxSys} {bufSize : Nat} (buf : Mem) (h0 : 0 < bufSize)
    (hpc : sys.pc = .idle) (hinit : sys.dev.initialised = true)
    (hdd : (sys.dev.rxDescs sys.dev.rxCur).done = true) :
    ∃ sys₁ sys₂ sys₃, RxStep sys .start sys₁ ∧ RxWork sys₁ sys₂ ∧ RxStep sys₂ .ret sys₃
      ∧ sys₃.pc = .idle ∧ sys₃.dev = (e1000Receive sys.dev buf bufSize).2.1
      ∧ sys₃.returned = sys.returned ++ [⟨bufSize, bytesAt (e1000Receive sys.dev buf bufSize).2.2 0
          (e1000Receive sys.dev buf bufSize).1.toNat⟩] := by
  obtain ⟨dev, pc, placed, returned⟩ := sys
  simp only at hpc hinit hdd
  refine ⟨_, _, _, .start bufSize buf h0 hpc hdd, RxWork.call dev placed returned bufSize _ buf,
    .release rfl, rfl, ?_, ?_⟩
  · simp [e1000Receive, hinit, hdd]
  · simp [e1000Receive, hinit, hdd]

/-! ## The invariant

Frame `k` goes to slot `k % 32`. The driver has returned the frames below
`returned.length` and gives a slot back only when it returns the frame, so
the slots of one lap from there on are in use up to the last placed frame
and free from it on. -/

/-- The slot holds the frame. -/
def HoldsFrame (dev : E1000) (slot : Nat) (x : Nat × List (BitVec 8)) : Prop :=
  (dev.rxDescs slot).length = x.2.length ∧ bytesAt (dev.rxBuffers slot) 0 x.2.length = x.2

/-- The driver has cleared the status of the frame it is returning. -/
def RxPc.cleared : RxPc → Bool
  | .advance _ => true
  | .release _ _ => true
  | _ => false

/-- The locals hold the first `i` bytes of `f`, of the length to be returned. -/
structure CallOk (c : RxCall) (i : Nat) (f : List (BitVec 8)) : Prop where
  size : 0 < c.bufSize
  len : c.len = min c.bufSize f.length
  le : i ≤ c.len
  bytes : ∀ j < i, f[j]? = some (c.buf j)

/-- What the program counter says about `rx_cur` and the locals, with `n` frames
returned and `next` the frame after them. -/
def PcOk (dev : E1000) (n : Nat) (next : Option (Nat × List (BitVec 8))) : RxPc → Prop
  | .idle => dev.rxCur = n % 32
  | .copy c i => dev.rxCur = n % 32 ∧ ∃ x, next = some x ∧ CallOk c i x.2
  | .clear c => dev.rxCur = n % 32 ∧ ∃ x, next = some x ∧ CallOk c c.len x.2
  | .advance c => dev.rxCur = n % 32 ∧ ∃ x, next = some x ∧ CallOk c c.len x.2
  | .release c old => dev.rxCur = (n + 1) % 32 ∧ old = n % 32
      ∧ ∃ x, next = some x ∧ CallOk c c.len x.2

structure RxInv (sys : RxSys) : Prop where
  le : sys.returned.length ≤ sys.placed.length
  room : sys.placed.length ≤ sys.returned.length + 31
  head : sys.dev.rdh = sys.placed.length % 32
  tail : sys.dev.rdt = (sys.returned.length + 31) % 32
  slot : Numbered 32 sys.placed
  window : Window 32 (HoldsFrame sys.dev) sys.placed sys.returned.length
  full : ∀ k, sys.returned.length ≤ k → k < sys.placed.length →
    (k = sys.returned.length → sys.pc.cleared = false) → (sys.dev.rxDescs (k % 32)).done = true
  free : ∀ k, sys.placed.length ≤ k → k < sys.returned.length + 32 →
    (sys.dev.rxDescs (k % 32)).done = false
  gone : sys.pc.cleared = true → (sys.dev.rxDescs (sys.returned.length % 32)).done = false
  pc : PcOk sys.dev sys.returned.length sys.placed[sys.returned.length]? sys.pc
  fifo : List.Forall₂ (fun r x => r.bytes = x.2.take r.bufSize) sys.returned
    (sys.placed.take sys.returned.length)
  placed_pos : ∀ x ∈ sys.placed, 0 < x.2.length
  returned_pos : ∀ r ∈ sys.returned, 0 < r.bytes.length

section Steps

variable {sys : RxSys}

theorem rx_init_inv (s : E1000) : RxInv ⟨e1000Init s, .idle, [], []⟩ where
  le := Nat.le_refl 0
  room := Nat.zero_le _
  head := rfl
  tail := rfl
  slot := nofun
  window := nofun
  full := fun k _ hk => absurd hk (Nat.not_lt_zero k)
  free := fun _ _ _ => show ((0#8 &&& RDESC_STA_DD) != 0#8) = false by decide
  gone := nofun
  pc := rfl
  fifo := .nil
  placed_pos := nofun
  returned_pos := nofun

theorem PcOk.mono {dev dev' : E1000} {n : Nat} {next next' : Option (Nat × List (BitVec 8))}
    {pc : RxPc} (h : PcOk dev n next pc) (hcur : dev'.rxCur = dev.rxCur)
    (hnext : ∀ x, next = some x → next' = some x) : PcOk dev' n next' pc := by
  cases pc with
  | idle => exact hcur.trans h
  | copy c i =>
      obtain ⟨h1, x, hx, hc⟩ := h
      exact ⟨hcur.trans h1, x, hnext x hx, hc⟩
  | clear c =>
      obtain ⟨h1, x, hx, hc⟩ := h
      exact ⟨hcur.trans h1, x, hnext x hx, hc⟩
  | advance c =>
      obtain ⟨h1, x, hx, hc⟩ := h
      exact ⟨hcur.trans h1, x, hnext x hx, hc⟩
  | release c old =>
      obtain ⟨h1, h2, x, hx, hc⟩ := h
      exact ⟨hcur.trans h1, h2, x, hnext x hx, hc⟩

/-- While a frame is being returned it is there. -/
theorem RxInv.lt_of_cleared (h : RxInv sys) (hc : sys.pc.cleared = true) :
    sys.returned.length < sys.placed.length := by
  have hpc := h.pc
  cases hp : sys.pc with
  | advance c =>
      rw [hp] at hpc
      obtain ⟨-, x, hx, -⟩ := hpc
      exact (List.getElem?_eq_some_iff.mp hx).1
  | release c old =>
      rw [hp] at hpc
      obtain ⟨-, -, x, hx, -⟩ := hpc
      exact (List.getElem?_eq_some_iff.mp hx).1
  | idle => rw [hp] at hc; cases hc
  | copy c i => rw [hp] at hc; cases hc
  | clear c => rw [hp] at hc; cases hc

/-- Other slots are untouched by the NIC. -/
theorem nicPlace_of_ne {dev : E1000} {f : List (BitVec 8)} {slot : Nat} (h : slot ≠ dev.rdh) :
    (nicPlace dev f).rxDescs slot = dev.rxDescs slot
      ∧ (nicPlace dev f).rxBuffers slot = dev.rxBuffers slot :=
  ⟨Function.update_of_ne h .., Function.update_of_ne h ..⟩

theorem bytesAt_getD (f : List (BitVec 8)) (m : Mem) :
    bytesAt (fun i => f.getD i (m i)) 0 f.length = f := by
  refine List.ext_getElem? fun i => ?_
  by_cases hi : i < f.length
  · rw [bytesAt_getElem? _ _ hi]
    simp [hi]
  · rw [List.getElem?_eq_none (by simpa using hi), List.getElem?_eq_none (by simpa using hi)]

theorem nicPlace_holds (dev : E1000) (f : List (BitVec 8)) (i : Nat) :
    HoldsFrame (nicPlace dev f) dev.rdh (i, f)
      ∧ ((nicPlace dev f).rxDescs dev.rdh).done = true := by
  have hdesc : (nicPlace dev f).rxDescs dev.rdh
      = ⟨f.length, (dev.rxDescs dev.rdh).status ||| RDESC_STA_DD ||| RDESC_STA_EOP⟩ :=
    Function.update_self ..
  have hbuf : (nicPlace dev f).rxBuffers dev.rdh
      = fun i => f.getD i (dev.rxBuffers dev.rdh i) :=
    Function.update_self ..
  refine ⟨⟨by rw [hdesc], by rw [hbuf, bytesAt_getD]⟩, ?_⟩
  rw [hdesc, RxDesc.done]
  generalize (dev.rxDescs dev.rdh).status = st
  have : ∀ st : BitVec 8, ((st ||| RDESC_STA_DD ||| RDESC_STA_EOP) &&& RDESC_STA_DD) != 0#8 := by
    decide
  exact this st

/-- In the current lap the NIC writes the slot after the placed frames only. -/
theorem RxInv.nicPlace_desc (h : RxInv sys) (f : List (BitVec 8)) {k : Nat}
    (hroom : sys.placed.length < sys.returned.length + 32) (h1 : sys.returned.length ≤ k)
    (h2 : k < sys.returned.length + 32) (hk : k ≠ sys.placed.length) :
    (nicPlace sys.dev f).rxDescs (k % 32) = sys.dev.rxDescs (k % 32) := by
  refine (nicPlace_of_ne fun he => ?_).1
  rw [h.head] at he
  exact hk (slot_inj h1 h2 h.le hroom he)

/-- The NIC fills the slot after the placed frames, which is not the last of the lap. -/
theorem place_inv (h : RxInv sys) (f : List (BitVec 8)) (hf : 0 < f.length)
    (hne : sys.dev.rdh ≠ sys.dev.rdt) :
    RxInv { sys with dev := nicPlace sys.dev f, placed := sys.placed ++ [(sys.dev.rdh, f)] } := by
  have hle := h.le
  have hroom := h.room
  have hhead := h.head
  have hlt : sys.placed.length < sys.returned.length + 31 := by
    have htail := h.tail
    omega
  obtain ⟨hnew, hdone⟩ := nicPlace_holds sys.dev f sys.dev.rdh
  have hlen : (sys.placed ++ [(sys.dev.rdh, f)]).length = sys.placed.length + 1 := by simp
  have hnext : ∀ k x, sys.placed[k]? = some x →
      (sys.placed ++ [(sys.dev.rdh, f)])[k]? = some x := fun k x hx => by
    rw [List.getElem?_append_left (List.getElem?_eq_some_iff.mp hx).1, hx]
  refine ⟨by rw [hlen]; exact Nat.le_succ_of_le hle, by rw [hlen]; exact hlt, ?_, h.tail, ?_, ?_,
    ?_, ?_, ?_, ?_, ?_, ?_, h.returned_pos⟩
  · rw [hlen]
    change (sys.dev.rdh + 1) % 32 = _
    omega
  · exact h.slot.push hhead f
  · refine h.window.push (by omega) (fun slot x hs hx => ?_) (hhead ▸ hnew)
    obtain ⟨h1, h2⟩ := nicPlace_of_ne (f := f) (hhead ▸ hs : slot ≠ sys.dev.rdh)
    unfold HoldsFrame
    rw [h1, h2]
    exact hx
  · intro k h1 h2 hc
    rw [hlen] at h2
    by_cases hk : k = sys.placed.length
    · rw [hk, ← hhead]
      exact hdone
    · simp only
      rw [h.nicPlace_desc f (by omega) h1 (by omega) hk]
      exact h.full k h1 (by omega) hc
  · intro k h1 h2
    rw [hlen] at h1
    simp only
    rw [h.nicPlace_desc f (by omega) (by omega) h2 (by omega)]
    exact h.free k (by omega) h2
  · intro hc
    have := h.lt_of_cleared hc
    simp only
    rw [h.nicPlace_desc f (by omega) (Nat.le_refl _) (by omega) (by omega)]
    exact h.gone hc
  · exact h.pc.mono rfl fun x hx => hnext _ x hx
  · simp only
    rw [List.take_append_of_le_length hle]
    exact h.fifo
  · intro x hx
    rcases List.mem_append.mp hx with hx | hx
    · exact h.placed_pos x hx
    · cases List.mem_singleton.mp hx
      exact hf

/-- A driver step that writes no descriptor and returns nothing. -/
theorem RxInv.move (h : RxInv sys) {dev : E1000} {pc : RxPc}
    (hdescs : dev.rxDescs = sys.dev.rxDescs) (hbufs : dev.rxBuffers = sys.dev.rxBuffers)
    (hrdh : dev.rdh = sys.dev.rdh) (hrdt : dev.rdt = sys.dev.rdt)
    (hcl : pc.cleared = sys.pc.cleared)
    (hpc : PcOk dev sys.returned.length sys.placed[sys.returned.length]? pc) :
    RxInv { sys with dev := dev, pc := pc } := by
  have hholds : HoldsFrame dev = HoldsFrame sys.dev := by
    unfold HoldsFrame
    rw [hdescs, hbufs]
  refine ⟨h.le, h.room, hrdh.trans h.head, hrdt.trans h.tail, h.slot, ?_, ?_, ?_, ?_, hpc, h.fifo,
    h.placed_pos, h.returned_pos⟩
  · simp only [hholds]
    exact h.window
  · simp only [hdescs, hcl]
    exact h.full
  · simp only [hdescs]
    exact h.free
  · simp only [hdescs, hcl]
    exact h.gone

theorem rxLen_eq_min (d : RxDesc) (bufSize : Nat) : rxLen d bufSize = min bufSize d.length := by
  unfold rxLen
  split <;> omega

/-- A set status bit at `rx_cur` is that of the next frame. -/
theorem RxInv.next_of_done (h : RxInv sys) (hcur : sys.dev.rxCur = sys.returned.length % 32)
    (hdd : (sys.dev.rxDescs sys.dev.rxCur).done = true) :
    ∃ x, sys.placed[sys.returned.length]? = some x := by
  rcases Nat.lt_or_ge sys.returned.length sys.placed.length with hlt | hge
  · exact ⟨_, List.getElem?_eq_getElem hlt⟩
  · rw [hcur, h.free _ hge (by omega)] at hdd
    cases hdd

theorem start_inv (h : RxInv sys) {bufSize : Nat} (buf : Mem) (h0 : 0 < bufSize)
    (hpc : sys.pc = .idle) (hdd : (sys.dev.rxDescs sys.dev.rxCur).done = true) :
    RxInv { sys with
      pc := .copy ⟨bufSize, rxLen (sys.dev.rxDescs sys.dev.rxCur) bufSize, buf⟩ 0 } := by
  have hcur : sys.dev.rxCur = sys.returned.length % 32 := by
    have := h.pc
    rwa [hpc] at this
  obtain ⟨x, hx⟩ := h.next_of_done hcur hdd
  refine h.move rfl rfl rfl rfl (by rw [hpc]; rfl) ⟨hcur, x, hx, h0, ?_, Nat.zero_le _, ?_⟩
  · simp only
    rw [rxLen_eq_min, hcur, (h.window _ x (Nat.le_refl _) hx).1]
  · exact fun j hj => absurd hj (Nat.not_lt_zero j)

theorem byte_inv (h : RxInv sys) {c : RxCall} {i : Nat} (hpc : sys.pc = .copy c i)
    (hi : i < c.len) :
    RxInv { sys with
      pc := .copy { c with
        buf := store8 c.buf i (sys.dev.rxBuffers sys.dev.rxCur i) } (i + 1) } := by
  have hold := h.pc
  rw [hpc] at hold
  obtain ⟨hcur, x, hx, hc⟩ := hold
  refine h.move rfl rfl rfl rfl (by rw [hpc]; rfl)
    ⟨hcur, x, hx, hc.size, hc.len, hi, fun j hj => ?_⟩
  have hlen := hc.len
  rcases Nat.lt_succ_iff_lt_or_eq.mp hj with hj | rfl
  · simp only
    rw [store8_of_ne (by omega)]
    exact hc.bytes j hj
  · simp only
    rw [store8_self, hcur, ← (h.window _ x (Nat.le_refl _) hx).2,
      bytesAt_getElem? _ _ (by omega), Nat.zero_add]

theorem copied_inv (h : RxInv sys) {c : RxCall} (hpc : sys.pc = .copy c c.len) :
    RxInv { sys with pc := .clear c } := by
  have hold := h.pc
  rw [hpc] at hold
  exact h.move rfl rfl rfl rfl (by rw [hpc]; rfl) hold

/-- Only the status of the frame being returned is cleared. -/
theorem clear_inv (h : RxInv sys) {c : RxCall} (hpc : sys.pc = .clear c) :
    RxInv { sys with dev := clearRxDesc sys.dev, pc := .advance c } := by
  have hold := h.pc
  rw [hpc] at hold
  obtain ⟨hcur, x, hx, hc⟩ := hold
  have hlt := (List.getElem?_eq_some_iff.mp hx).1
  have hroom := h.room
  have hself : (clearRxDesc sys.dev).rxDescs (sys.returned.length % 32)
      = { sys.dev.rxDescs (sys.returned.length % 32) with status := 0#8 } := by
    rw [← hcur]
    exact Function.update_self ..
  have hother : ∀ k, sys.returned.length < k → k < sys.returned.length + 32 →
      (clearRxDesc sys.dev).rxDescs (k % 32) = sys.dev.rxDescs (k % 32) := by
    intro k h1 h2
    refine Function.update_of_ne (fun hk => ?_) ..
    rw [hcur] at hk
    have := slot_inj (by omega) h2 (Nat.le_refl _) (by omega) hk
    omega
  refine ⟨h.le, h.room, h.head, h.tail, h.slot, ?_, ?_, ?_, ?_, ⟨hcur, x, hx, hc⟩, h.fifo,
    h.placed_pos, h.returned_pos⟩ <;> dsimp only
  · intro k y hk hy
    have hw := h.window k y hk hy
    have hkl := (List.getElem?_eq_some_iff.mp hy).1
    by_cases hkr : k = sys.returned.length
    · subst hkr
      refine ⟨?_, hw.2⟩
      rw [hself]
      exact hw.1
    · refine ⟨?_, hw.2⟩
      rw [hother k (by omega) (by omega)]
      exact hw.1
  · intro k h1 h2 hcl
    have hkr : k ≠ sys.returned.length := fun hk => by cases hcl hk
    rw [hother k (by omega) (by omega)]
    exact h.full k h1 h2 fun hk => absurd hk hkr
  · intro k h1 h2
    rw [hother k (by omega) h2]
    exact h.free k h1 h2
  · intro _
    rw [hself]
    exact show ((0#8 &&& RDESC_STA_DD) != 0#8) = false by decide

theorem advance_inv (h : RxInv sys) {c : RxCall} (hpc : sys.pc = .advance c) :
    RxInv { sys with dev := advanceRx sys.dev, pc := .release c sys.dev.rxCur } := by
  have hold := h.pc
  rw [hpc] at hold
  obtain ⟨hcur, x, hx, hc⟩ := hold
  refine h.move rfl rfl rfl rfl (by rw [hpc]; rfl) ⟨?_, hcur, x, hx, hc⟩
  change (sys.dev.rxCur + 1) % 32 = _
  omega

/-- The bytes handed to the caller are those of the frame, truncated. -/
theorem CallOk.take {c : RxCall} {f : List (BitVec 8)} (h : CallOk c c.len f) :
    bytesAt c.buf 0 c.len = f.take c.bufSize := by
  refine List.ext_getElem? fun i => ?_
  have hlen := h.len
  rw [List.getElem?_take]
  by_cases hi : i < c.len
  · rw [bytesAt_getElem? _ _ hi, Nat.zero_add, if_pos (by omega), h.bytes i hi]
  · rw [List.getElem?_eq_none (by rw [bytesAt_length]; omega)]
    split
    · rw [List.getElem?_eq_none (by omega)]
    · rfl

theorem release_inv (h : RxInv sys) {c : RxCall} {old : Nat} (hpc : sys.pc = .release c old) :
    RxInv { sys with
      dev := releaseRx sys.dev old
      pc := .idle
      returned := sys.returned ++ [⟨c.bufSize, bytesAt c.buf 0 c.len⟩] } := by
  have hold := h.pc
  rw [hpc] at hold
  obtain ⟨hcur, hold, x, hx, hc⟩ := hold
  have hlt := (List.getElem?_eq_some_iff.mp hx).1
  have hroom := h.room
  have hlen : (sys.returned ++ [(⟨c.bufSize, bytesAt c.buf 0 c.len⟩ : RxReturn)]).length
      = sys.returned.length + 1 := by simp
  refine ⟨?_, ?_, h.head, ?_, h.slot, ?_, ?_, ?_, nofun, ?_, ?_, h.placed_pos,
    ?_⟩ <;> simp only [hlen]
  · exact hlt
  · omega
  · change old = _
    omega
  · exact h.window.pop
  · exact fun k h1 h2 _ => h.full k (by omega) h2 fun hk => by omega
  · intro k h1 h2
    have hk : k < sys.returned.length + 32 + 1 := by omega
    rcases Nat.lt_succ_iff_lt_or_eq.mp hk with hk | rfl
    · exact h.free k h1 hk
    · rw [Nat.add_mod_right]
      exact h.gone (by rw [hpc]; rfl)
  · exact hcur
  · rw [List.take_add_one, hx]
    exact List.rel_append h.fifo (.cons hc.take .nil)
  · intro r hr
    rcases List.mem_append.mp hr with hr | hr
    · exact h.returned_pos r hr
    · cases List.mem_singleton.mp hr
      have hpos := h.placed_pos x (List.mem_of_getElem? hx)
      have hsize := hc.size
      have hlen := hc.len
      rw [bytesAt_length]
      omega

theorem rxStep_inv {e : RxEvent} {sys' : RxSys} (h : RxInv sys) (hs : RxStep sys e sys') :
    RxInv sys' := by
  cases hs with
  | place f h1 h2 hne => exact place_inv h f h1 hne
  | empty bufSize h0 hpc hdd => exact h
  | start bufSize buf h0 hpc hdd => exact start_inv h buf h0 hpc hdd
  | byte hpc hi => exact byte_inv h hpc hi
  | copied hpc => exact copied_inv h hpc
  | clear hpc => exact clear_inv h hpc
  | advance hpc => exact advance_inv h hpc
  | release hpc => exact release_inv h hpc

theorem rxRun_inv (h : RxRun sys) : RxInv sys := by
  induction h with
  | init s => exact rx_init_inv s
  | step _ hs ih => exact rxStep_inv ih hs

end Steps

/-! ## The protocol -/

/-- The frames returned are the first frames placed, each once, in order and truncated to
the buffer of its call; the other placed frames are intact and the NIC is not about to
overwrite one; a call returns 0 bytes only through the early return, and then there is no
frame to return. -/
structure RxProtocol (sys : RxSys) : Prop where
  returned_le : sys.returned.length ≤ sys.placed.length
  fifo : List.Forall₂ (fun r x => r.bytes = x.2.take r.bufSize) sys.returned
    (sys.placed.take sys.returned.length)
  intact : ∀ k slot f, sys.returned.length ≤ k → sys.placed[k]? = some (slot, f) →
    (sys.dev.rxDescs slot).length = f.length ∧ bytesAt (sys.dev.rxBuffers slot) 0 f.length = f
  no_overwrite : ∀ k slot f sys', sys.returned.length ≤ k → sys.placed[k]? = some (slot, f) →
    RxStep sys .place sys' → slot ≠ sys.dev.rdh
  returned_pos : ∀ r ∈ sys.returned, 0 < r.bytes.length
  empty : ∀ sys', RxStep sys .empty sys' → sys.placed.length = sys.returned.length

theorem receive_ring_protocol {sys : RxSys} (h : RxRun sys) : RxProtocol sys := by
  have hinv := rxRun_inv h
  have hle := hinv.le
  refine ⟨hle, hinv.fifo, fun k slot f hk hx => ?_, fun k slot f sys' hk hx hs => ?_,
    hinv.returned_pos, fun sys' hs => ?_⟩
  · have := hinv.window k _ hk hx
    rwa [← hinv.slot k _ hx] at this
  · cases hs with
    | place f' _ _ hne =>
        have hkl := (List.getElem?_eq_some_iff.mp hx).1
        have hroom := hinv.room
        have hhead := hinv.head
        have hslot : slot = k % 32 := hinv.slot k _ hx
        rw [hslot, hhead]
        intro hs
        have := slot_inj hk (by omega) hle (by omega) hs
        omega
  · cases hs with
    | empty bufSize h0 hpc hdd =>
        have hcur := hinv.pc
        rw [hpc] at hcur
        by_contra hne
        rw [hcur, hinv.full _ (Nat.le_refl _) (by omega) fun _ => by rw [hpc]; rfl] at hdd
        cases hdd

theorem RxRun.work {sys sys' : RxSys} (h : RxRun sys) (hw : RxWork sys sys') : RxRun sys' := by
  induction hw with
  | refl => exact h
  | step hs _ ih => exact ih (h.step hs)

/-- The NIC has stored a frame of two bytes and one of one byte. -/
def samplePlaced : E1000 := nicPlace (nicPlace (e1000Init bootE1000) [7#8, 8#8]) [9#8]

/-- The driver returns the first byte of the first frame, then the second frame, and gives
both slots back. -/
theorem receive_ring_protocol_two :
    ∃ sys, RxProtocol sys ∧ sys.placed = [(0, [7#8, 8#8]), (1, [9#8])]
      ∧ sys.returned = [⟨1, [7#8]⟩, ⟨4, [9#8]⟩] ∧ sys.dev.rdt = 1 := by
  have hplaced : RxRun ⟨samplePlaced, .idle, [(0, [7#8, 8#8]), (1, [9#8])], []⟩ :=
    .step (.step (.init bootE1000) (.place [7#8, 8#8] (by decide) (by decide) (by decide)))
      (.place [9#8] (by decide) (by decide) (by decide))
  have hfirst := ((hplaced.step (.start 1 (fun _ => 0#8) (by decide) rfl (by decide))).work
    (RxWork.call ..)).step (.release rfl)
  have hsecond := ((hfirst.step (.start 4 (fun _ => 0#8) (by decide) rfl (by decide +kernel))).work
    (RxWork.call ..)).step (.release rfl)
  exact ⟨_, receive_ring_protocol hsecond, rfl, rfl, rfl⟩

end Matryoshka
