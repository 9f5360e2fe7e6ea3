import Matryoshka.E1000
import Matryoshka.RingBuf

/-!
# The transmit ring

The driver fills the descriptor at `tx_cur`, field by field, hands it over
by writing TDT and polls its status, at most 100000 times; the NIC
transmits the descriptor at TDH while TDH and TDT differ, at any time. A
call that times out leaves its descriptor with the NIC, and the next call
does not look whether the one it fills is free. The protocol holds in the
runs in which every call finds `(tx_cur + 1) % 8` different from TDH, and
eight calls to a slow NIC break it.
-/

namespace Matryoshka

open RingBuf

/-! ## The two parties -/

/-- The NIC transmits descriptor TDH. -/
def nicTransmit (s : E1000) : E1000 :=
  { s with
    txDescs := Function.update s.txDescs s.tdh
      { s.txDescs s.tdh with status := (s.txDescs s.tdh).status ||| TDESC_STA_DD }
    tdh := (s.tdh + 1) % E1000_NUM_TX_DESC }

/-- The arguments of a call and the saved `tx_cur`. -/
structure TxCall where
  data : BitVec 32
  len : Nat
  old : Nat

def TxCall.desc (c : TxCall) : TxDesc := sendDesc c.data c.len

/-- The fields of a descriptor in the order they are written. -/
inductive TxField
  | addrLo
  | addrHi
  | length
  | cmd
  | status

def txFields : List TxField := [.addrLo, .addrHi, .length, .cmd, .status]

def TxCall.write (c : TxCall) (d : TxDesc) : TxField → TxDesc
  | .addrLo => { d with addrLo := c.desc.addrLo }
  | .addrHi => { d with addrHi := c.desc.addrHi }
  | .length => { d with length := c.desc.length }
  | .cmd => { d with cmd := c.desc.cmd }
  | .status => { d with status := c.desc.status }

theorem foldl_write (c : TxCall) (d : TxDesc) : txFields.foldl c.write d = c.desc := rfl

/-- Where the driver is in `e1000_send`. -/
inductive TxPc
  | idle
  | fill (c : TxCall) (rest : List TxField)
  | advance (c : TxCall)
  | doorbell (c : TxCall)
  | wait (c : TxCall) (timeout : Nat)

structure TxSys where
  dev : E1000
  pc : TxPc
  /-- Every descriptor handed over so far, with its slot. -/
  handed : List (Nat × TxDesc)
  /-- The descriptors as the NIC transmitted them. -/
  wire : List TxDesc

/-- `Ok` is what the caller sees to before it calls `e1000_send`. -/
inductive TxStep (Ok : E1000 → Prop) (sys : TxSys) : TxSys → Prop
  | reject (len : Nat) (hlen : 1518 < len) (hpc : sys.pc = .idle) : TxStep Ok sys sys
  | start (data : BitVec 32) (len : Nat) (hlen : len ≤ 1518) (hpc : sys.pc = .idle)
      (hok : Ok sys.dev) :
      TxStep Ok sys { sys with pc := .fill ⟨data, len, sys.dev.txCur⟩ txFields }
  | field {c : TxCall} {st : TxField} {rest : List TxField} (hpc : sys.pc = .fill c (st :: rest)) :
      TxStep Ok sys
        { sys with
          dev := setTxDesc sys.dev (c.write (sys.dev.txDescs sys.dev.txCur) st)
          pc := .fill c rest }
  | filled {c : TxCall} (hpc : sys.pc = .fill c []) : TxStep Ok sys { sys with pc := .advance c }
  | advance {c : TxCall} (hpc : sys.pc = .advance c) :
      TxStep Ok sys { sys with dev := advanceTx sys.dev, pc := .doorbell c }
  | doorbell {c : TxCall} (hpc : sys.pc = .doorbell c) :
      TxStep Ok sys
        { sys with
          dev := ringTx sys.dev
          pc := .wait c 100000
          handed := sys.handed ++ [(c.old, c.desc)] }
  | spin {c : TxCall} {timeout : Nat} (hpc : sys.pc = .wait c (timeout + 1))
      (hdd : (sys.dev.txDescs c.old).done = false) (ht : 0 < timeout) :
      TxStep Ok sys { sys with pc := .wait c timeout }
  | timeout {c : TxCall} (hpc : sys.pc = .wait c 1)
      (hdd : (sys.dev.txDescs c.old).done = false) : TxStep Ok sys { sys with pc := .idle }
  | done {c : TxCall} {timeout : Nat} (hpc : sys.pc = .wait c timeout)
      (hdd : (sys.dev.txDescs c.old).done = true) :
      TxStep Ok sys
        { sys with dev := { sys.dev with statTx := u32 (sys.dev.statTx + 1) }, pc := .idle }
  | transmit (hne : sys.dev.tdh ≠ sys.dev.tdt) :
      TxStep Ok sys
        { sys with
          dev := nicTransmit sys.dev
          wire := sys.wire ++ [sys.dev.txDescs sys.dev.tdh] }

/-- Runs from the end of `e1000_init`. -/
inductive TxRun (Ok : E1000 → Prop) : TxSys → Prop
  | init (s : E1000) : TxRun Ok ⟨e1000Init s, .idle, [], []⟩
  | step {sys sys' : TxSys} (h : TxRun Ok sys) (hs : TxStep Ok sys sys') : TxRun Ok sys'

/-! ## The protocol -/

/-- The NIC transmits what was handed over, in order; a frame handed over and not yet
transmitted is intact in its slot and no field of it is about to be written; equal head
and tail registers mean that nothing is pending. -/
structure TxProtocol (sys : TxSys) : Prop where
  wire : sys.wire = (sys.handed.take sys.wire.length).map Prod.snd
  intact : ∀ k slot d, sys.wire.length ≤ k → sys.handed[k]? = some (slot, d) →
    sys.dev.txDescs slot = d
  no_overwrite : ∀ k slot d c rest, sys.wire.length ≤ k → sys.handed[k]? = some (slot, d) →
    sys.pc = .fill c rest → slot ≠ sys.dev.txCur
  pending : sys.dev.tdh = sys.dev.tdt → sys.wire.length = sys.handed.length

/-- The ring has a free descriptor besides the one that is filled next. -/
def TxRoom (s : E1000) : Prop := (s.txCur + 1) % E1000_NUM_TX_DESC ≠ s.tdh

/-! ## The invariant -/

/-- What the program counter says about `tx_cur` and the descriptor being filled, with
`n` descriptors handed over and `m` transmitted. -/
def TxPcOk (dev : E1000) (n m : Nat) : TxPc → Prop
  | .idle => dev.txCur = n % 8
  | .fill c rest => dev.txCur = n % 8 ∧ c.old = n % 8 ∧ n ≤ m + 6
      ∧ rest.foldl c.write (dev.txDescs (n % 8)) = c.desc
  | .advance c => dev.txCur = n % 8 ∧ c.old = n % 8 ∧ n ≤ m + 6 ∧ dev.txDescs (n % 8) = c.desc
  | .doorbell c => dev.txCur = (n + 1) % 8 ∧ c.old = n % 8 ∧ n ≤ m + 6
      ∧ dev.txDescs (n % 8) = c.desc
  | .wait _ _ => dev.txCur = n % 8

structure TxInv (sys : TxSys) : Prop where
  le : sys.wire.length ≤ sys.handed.length
  room : sys.handed.length ≤ sys.wire.length + 7
  head : sys.dev.tdh = sys.wire.length % 8
  tail : sys.dev.tdt = sys.handed.length % 8
  slot : Numbered 8 sys.handed
  window : Window 8 (fun slot x => sys.dev.txDescs slot = x.2) sys.handed sys.wire.length
  pc : TxPcOk sys.dev sys.handed.length sys.wire.length sys.pc
  wire : sys.wire = (sys.handed.take sys.wire.length).map Prod.snd

section Steps

variable {sys : TxSys}

theorem tx_init_inv (s : E1000) : TxInv ⟨e1000Init s, .idle, [], []⟩ where
  le := Nat.le_refl 0
  room := Nat.zero_le _
  head := rfl
  tail := rfl
  slot := nofun
  window := nofun
  pc := rfl
  wire := rfl

/-- A driver step that changes no descriptor and no register. -/
theorem TxInv.move (h : TxInv sys) {dev : E1000} {pc : TxPc}
    (hdescs : dev.txDescs = sys.dev.txDescs) (htdh : dev.tdh = sys.dev.tdh)
    (htdt : dev.tdt = sys.dev.tdt) (hpc : TxPcOk dev sys.handed.length sys.wire.length pc) :
    TxInv { sys with dev := dev, pc := pc } := by
  refine ⟨h.le, h.room, htdh.trans h.head, htdt.trans h.tail, h.slot, ?_, hpc, h.wire⟩
  simp only [hdescs]
  exact h.window

/-- With room in the ring fewer than seven frames are pending. -/
theorem tx_start_inv (h : TxInv sys) (data : BitVec 32) (len : Nat) (hpc : sys.pc = .idle)
    (hok : TxRoom sys.dev) :
    TxInv { sys with pc := .fill ⟨data, len, sys.dev.txCur⟩ txFields } := by
  have hcur : sys.dev.txCur = sys.handed.length % 8 := by
    have := h.pc
    rwa [hpc] at this
  refine h.move rfl rfl rfl ⟨hcur, hcur, ?_, foldl_write _ _⟩
  have hhead := h.head
  have hroom := h.room
  unfold TxRoom E1000_NUM_TX_DESC at hok
  omega

/-- The descriptor being filled is not one of the pending ones. -/
theorem field_inv (h : TxInv sys) {c : TxCall} {st : TxField} {rest : List TxField}
    (hpc : sys.pc = .fill c (st :: rest)) :
    TxInv { sys with
      dev := setTxDesc sys.dev (c.write (sys.dev.txDescs sys.dev.txCur) st)
      pc := .fill c rest } := by
  have hold := h.pc
  rw [hpc] at hold
  obtain ⟨hcur, hsaved, hfree, hfold⟩ := hold
  have hself : (setTxDesc sys.dev (c.write (sys.dev.txDescs sys.dev.txCur) st)).txDescs
      (sys.handed.length % 8) = c.write (sys.dev.txDescs (sys.handed.length % 8)) st := by
    rw [← hcur]
    exact Function.update_self ..
  refine ⟨h.le, h.room, h.head, h.tail, h.slot, ?_, ⟨hcur, hsaved, hfree, ?_⟩, h.wire⟩
  · refine h.window.write (Nat.le_refl _) (by omega) fun slot x hs hx => ?_
    rw [← hx]
    exact Function.update_of_ne (hcur ▸ hs) ..
  · rw [hself]
    exact hfold

theorem filled_inv (h : TxInv sys) {c : TxCall} (hpc : sys.pc = .fill c []) :
    TxInv { sys with pc := .advance c } := by
  have hold := h.pc
  rw [hpc] at hold
  exact h.move rfl rfl rfl hold

theorem tx_advance_inv (h : TxInv sys) {c : TxCall} (hpc : sys.pc = .advance c) :
    TxInv { sys with dev := advanceTx sys.dev, pc := .doorbell c } := by
  have hold := h.pc
  rw [hpc] at hold
  obtain ⟨hcur, hrest⟩ := hold
  refine h.move rfl rfl rfl ⟨?_, hrest⟩
  change (sys.dev.txCur + 1) % 8 = _
  omega

/-- Writing TDT adds the filled descriptor to the window. -/
theorem doorbell_inv (h : TxInv sys) {c : TxCall} (hpc : sys.pc = .doorbell c) :
    TxInv { sys with
      dev := ringTx sys.dev
      pc := .wait c 100000
      handed := sys.handed ++ [(c.old, c.desc)] } := by
  have hold := h.pc
  rw [hpc] at hold
  obtain ⟨hcur, hsaved, hfree, hdesc⟩ := hold
  have hle := h.le
  have hlen : (sys.handed ++ [(c.old, c.desc)]).length = sys.handed.length + 1 := by simp
  refine ⟨?_, ?_, h.head, ?_, ?_, ?_, ?_, ?_⟩ <;> dsimp only
  · omega
  · omega
  · rw [hlen]
    exact hcur
  · exact h.slot.push hsaved c.desc
  · exact h.window.push (by omega) (fun _ _ _ hx => hx) hdesc
  · rw [hlen]
    exact hcur
  · rw [List.take_append_of_le_length hle]
    exact h.wire

theorem TxInv.pending (h : TxInv sys) (hne : sys.dev.tdh ≠ sys.dev.tdt) :
    sys.wire.length < sys.handed.length := by
  rcases Nat.lt_or_ge sys.wire.length sys.handed.length with hlt | hge
  · exact hlt
  · exact absurd (by rw [h.head, h.tail, Nat.le_antisymm h.le hge]) hne

/-- The NIC writes back the oldest pending descriptor only. -/
theorem TxInv.nicTransmit_desc (h : TxInv sys) {k : Nat} (h1 : sys.wire.length < k)
    (h2 : k < sys.wire.length + 8) :
    (nicTransmit sys.dev).txDescs (k % 8) = sys.dev.txDescs (k % 8) := by
  refine Function.update_of_ne (fun hk => ?_) ..
  rw [h.head] at hk
  have := slot_inj (by omega) h2 (Nat.le_refl _) (by omega) hk
  omega

/-- What the driver is about to fill or has filled is not taken from it. -/
theorem TxInv.pc_transmit (h : TxInv sys) (hlt : sys.wire.length < sys.handed.length) :
    TxPcOk (nicTransmit sys.dev) sys.handed.length (sys.wire.length + 1) sys.pc := by
  have hpc := h.pc
  cases hp : sys.pc with
  | idle => rw [hp] at hpc; exact hpc
  | wait c t => rw [hp] at hpc; exact hpc
  | fill c rest =>
      rw [hp] at hpc
      obtain ⟨h1, h2, h3, h4⟩ := hpc
      refine ⟨h1, h2, by omega, ?_⟩
      rw [h.nicTransmit_desc hlt (by omega)]
      exact h4
  | advance c =>
      rw [hp] at hpc
      obtain ⟨h1, h2, h3, h4⟩ := hpc
      exact ⟨h1, h2, by omega, (h.nicTransmit_desc hlt (by omega)).trans h4⟩
  | doorbell c =>
      rw [hp] at hpc
      obtain ⟨h1, h2, h3, h4⟩ := hpc
      exact ⟨h1, h2, by omega, (h.nicTransmit_desc hlt (by omega)).trans h4⟩

/-- The NIC takes the oldest pending frame out of the window. -/
theorem transmit_inv (h : TxInv sys) (hne : sys.dev.tdh ≠ sys.dev.tdt) :
    TxInv { sys with
      dev := nicTransmit sys.dev
      wire := sys.wire ++ [sys.dev.txDescs sys.dev.tdh] } := by
  have hroom := h.room
  have hhead := h.head
  have hlt := h.pending hne
  have hx := List.getElem?_eq_getElem hlt
  have hlen : (sys.wire ++ [sys.dev.txDescs sys.dev.tdh]).length = sys.wire.length + 1 := by simp
  refine ⟨?_, ?_, ?_, h.tail, h.slot, ?_, ?_, ?_⟩ <;> dsimp only
  · rw [hlen]
    exact hlt
  · omega
  · rw [hlen]
    change (sys.dev.tdh + 1) % 8 = _
    omega
  · intro k x hk hkx
    have hkl := (List.getElem?_eq_some_iff.mp hkx).1
    rw [hlen] at hk
    rw [h.nicTransmit_desc (by omega) (by omega)]
    exact h.window k x (by omega) hkx
  · rw [hlen]
    exact h.pc_transmit hlt
  · have hslot := h.window _ _ (Nat.le_refl _) hx
    rw [hlen, List.take_add_one, hx, List.map_append, ← h.wire, hhead, hslot]
    rfl

theorem txStep_inv {sys' : TxSys} (h : TxInv sys) (hs : TxStep TxRoom sys sys') : TxInv sys' := by
  have hold := h.pc
  cases hs with
  | reject len hlen hpc => exact h
  | start data len hlen hpc hok => exact tx_start_inv h data len hpc hok
  | field hpc => exact field_inv h hpc
  | filled hpc => exact filled_inv h hpc
  | advance hpc => exact tx_advance_inv h hpc
  | doorbell hpc => exact doorbell_inv h hpc
  | spin hpc hdd ht =>
      rw [hpc] at hold
      exact h.move rfl rfl rfl hold
  | timeout hpc hdd =>
      rw [hpc] at hold
      exact h.move rfl rfl rfl hold
  | done hpc hdd =>
      rw [hpc] at hold
      exact h.move rfl rfl rfl hold
  | transmit hne => exact transmit_inv h hne

theorem txRun_inv (h : TxRun TxRoom sys) : TxInv sys := by
  induction h with
  | init s => exact tx_init_inv s
  | step _ hs ih => exact txStep_inv ih hs

end Steps

/-- In every run whose calls find room in the ring the protocol holds. -/
theorem transmit_ring_protocol {sys : TxSys} (h : TxRun TxRoom sys) : TxProtocol sys := by
  have hinv := txRun_inv h
  have hle := hinv.le
  have hroom := hinv.room
  refine ⟨hinv.wire, fun k slot d hk hx => ?_, fun k slot d c rest hk hx hpc => ?_, fun heq => ?_⟩
  · have hw := hinv.window k _ hk hx
    rwa [← hinv.slot k _ hx] at hw
  · have hkl := (List.getElem?_eq_some_iff.mp hx).1
    have hslot : slot = k % 8 := hinv.slot k _ hx
    have hold := hinv.pc
    rw [hpc] at hold
    obtain ⟨hcur, -, hfree, -⟩ := hold
    rw [hslot, hcur]
    intro hs
    have := slot_inj hk (by omega) hle (by omega) hs
    omega
  · rw [hinv.head, hinv.tail] at heq
    exact slot_inj (Nat.le_refl _) (by omega) hle (by omega) heq

/-! ## Calls that time out -/

section Timeout

variable {Ok : E1000 → Prop} {dev : E1000} {c : TxCall} {handed : List (Nat × TxDesc)}
  {wire : List TxDesc}

theorem setTxDesc_setTxDesc (d d' : TxDesc) : setTxDesc (setTxDesc dev d) d' = setTxDesc dev d' :=
  congrArg (fun t => { dev with txDescs := t }) (Function.update_idem ..)

theorem TxRun.fill :
    ∀ {rest : List TxField} {dev : E1000}, TxRun Ok ⟨dev, .fill c rest, handed, wire⟩ →
      TxRun Ok ⟨setTxDesc dev (rest.foldl c.write (dev.txDescs dev.txCur)), .fill c [],
        handed, wire⟩
  | [], dev, h => by
      have hsame : setTxDesc dev (dev.txDescs dev.txCur) = dev :=
        congrArg (fun t => { dev with txDescs := t }) (Function.update_eq_self ..)
      rw [List.foldl_nil, hsame]
      exact h
  | st :: rest, dev, h => by
      have hnext := TxRun.fill (h.step (.field rfl))
      have hread : (setTxDesc dev (c.write (dev.txDescs dev.txCur) st)).txDescs dev.txCur
          = c.write (dev.txDescs dev.txCur) st := Function.update_self ..
      rw [setTxDesc_setTxDesc] at hnext
      rw [List.foldl_cons, ← hread]
      exact hnext

theorem TxRun.wait (hdd : (dev.txDescs c.old).done = false) :
    ∀ {t : Nat}, TxRun Ok ⟨dev, .wait c (t + 1), handed, wire⟩ →
      TxRun Ok ⟨dev, .idle, handed, wire⟩
  | 0, h => h.step (.timeout rfl hdd)
  | t + 1, h => TxRun.wait hdd (h.step (.spin rfl hdd (Nat.succ_pos t)))

/-- With a silent NIC a call issues its descriptor and times out. -/
theorem TxRun.sendTimeout {sys : TxSys} (h : TxRun Ok sys) (hpc : sys.pc = .idle)
    (hok : Ok sys.dev) (data : BitVec 32) {len : Nat} (hlen : len ≤ 1518) :
    TxRun Ok ⟨e1000Issue sys.dev data len, .idle,
      sys.handed ++ [(sys.dev.txCur, sendDesc data len)], sys.wire⟩ := by
  have hfill := TxRun.fill (h.step (.start data len hlen hpc hok))
  rw [foldl_write] at hfill
  have hring := ((hfill.step (.filled rfl)).step (.advance rfl)).step (.doorbell rfl)
  refine TxRun.wait ?_ hring
  have hread : (e1000Issue sys.dev data len).txDescs sys.dev.txCur = sendDesc data len :=
    Function.update_self ..
  exact (congrArg TxDesc.done hread).trans (show ((0#8 &&& TDESC_STA_DD) != 0#8) = false by decide)

end Timeout

/-- `n` calls, for 60-byte frames in consecutive pages, to a NIC that does nothing. -/
def afterTimeouts : Nat → TxSys
  | 0 => ⟨e1000Init bootE1000, .idle, [], []⟩
  | n + 1 =>
      let sys := afterTimeouts n
      let data := BitVec.ofNat 32 (0x200000 + 0x1000 * n)
      ⟨e1000Issue sys.dev data 60, .idle, sys.handed ++ [(sys.dev.txCur, sendDesc data 60)],
        sys.wire⟩

theorem afterTimeouts_pc (n : Nat) : (afterTimeouts n).pc = .idle := by
  cases n with
  | zero => rfl
  | succ n => rfl

theorem afterTimeouts_run : ∀ n, TxRun (fun _ => True) (afterTimeouts n)
  | 0 => .init bootE1000
  | n + 1 => (afterTimeouts_run n).sendTimeout (afterTimeouts_pc n) trivial _ (by decide)

/-- The eighth call writes TDT onto TDH while eight frames are pending; the ninth
overwrites the descriptor of the first, which is still pending. -/
theorem eight_timeouts_lose_frames :
    (TxRun (fun _ => True) (afterTimeouts 8)
        ∧ (afterTimeouts 8).dev.tdh = (afterTimeouts 8).dev.tdt
        ∧ (afterTimeouts 8).handed.length = 8 ∧ (afterTimeouts 8).wire = []
        ∧ ¬TxProtocol (afterTimeouts 8))
      ∧ TxRun (fun _ => True) (afterTimeouts 9)
      ∧ (afterTimeouts 9).handed[0]? = some (0, sendDesc 0x200000#32 60)
      ∧ (afterTimeouts 9).dev.txDescs 0 = sendDesc 0x208000#32 60
      ∧ ¬TxProtocol (afterTimeouts 9) := by
  have hfirst : (afterTimeouts 9).handed[0]? = some (0, sendDesc 0x200000#32 60) := rfl
  have hdesc : (afterTimeouts 9).dev.txDescs 0 = sendDesc 0x208000#32 60 := rfl
  refine ⟨⟨afterTimeouts_run 8, rfl, rfl, rfl, fun h => ?_⟩, afterTimeouts_run 9, hfirst, hdesc,
    fun h => ?_⟩
  · exact absurd (h.pending rfl) (show ¬(0 = 8) by decide)
  · have := congrArg TxDesc.addrLo ((h.intact 0 _ _ (Nat.le_refl 0) hfirst).symm.trans hdesc)
    exact absurd this (show ¬(0x200000#32 = 0x208000#32) by decide)

/-- One call finds room and times out; the NIC transmits the frame later. -/
theorem transmit_ring_protocol_late :
    ∃ sys, TxProtocol sys ∧ sys.handed.length = 1 ∧ sys.wire = [sendDesc 0x200000#32 60]
      ∧ sys.dev.tdh = sys.dev.tdt := by
  have hinit : TxRun TxRoom ⟨e1000Init bootE1000, .idle, [], []⟩ := .init bootE1000
  have hsent := hinit.sendTimeout rfl (show (0 + 1) % 8 ≠ 0 by decide) 0x200000#32
    (show 60 ≤ 1518 by decide)
  exact ⟨_, transmit_ring_protocol (hsent.step (.transmit (show 0 ≠ 1 by decide))), rfl, rfl, rfl⟩

end Matryoshka
