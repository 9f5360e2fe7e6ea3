import Matryoshka.E1000Rx
import Matryoshka.E1000Tx
import Matryoshka.NetPoll

/-!
# The network stack between the rings

`net_poll` together with the two rings and the NIC, from the frames that
come in to the bytes on the wire. The driver runs statement by statement and
the NIC steps in anywhere. A descriptor holds the address of the reply, so
the NIC sends what is there at the time it transmits: the static array of
`handle_icmp`, or the part of the stack where `handle_arp` had its array.

The receive half and the transmit half of the NIC and of the driver share no
register and no variable; each has its own state here, the one of its ring.
`serve` says what the machine is for: it answers the frames one after the
other. As long as no call of `e1000_send` times out that is what happens on
the wire.
-/

namespace Matryoshka

open ByteMem RingBuf

/-! ## The system -/

/-- Where replies are built: in the local array of `handle_arp`, and in the static one of
`handle_icmp`. -/
structure Buffers where
  arp : BitVec 32
  icmp : BitVec 32
  ne : arp ≠ icmp

/-- Where `net_poll` is. Inside `e1000_receive` and `e1000_send` the rings say the rest. -/
inductive PollPc
  | idle
  | receive
  | reply (data : BitVec 32) (len : Nat)
  | send

structure NetSys where
  rx : RxSys
  tx : TxSys
  net : Net
  /-- The stack from the array of `handle_arp` on. -/
  stack : Mem
  pc : PollPc
  /-- The frames as they were sent. -/
  wire : List Frame
  /-- How many calls of `e1000_send` have given up so far. -/
  timeouts : Nat

/-- `e1000_receive(buf, sizeof(buf))` hands over at most 2048 bytes. -/
def toRx (f : Frame) : Rx := ⟨f.take 2048, List.length_take_le 2048 f⟩

/-- The bytes the NIC finds at the address in a descriptor. -/
def dma (B : Buffers) (net : Net) (stack : Mem) (d : TxDesc) : Frame :=
  if d.addrLo = B.arp then bytesAt stack 0 d.length else bytesAt net.reply 0 d.length

/-- `e1000_receive` gives its slot back and returns. -/
def NetSys.released (s : NetSys) (c : RxCall) (old : Nat) : NetSys :=
  { s with
    rx := { s.rx with
      dev := releaseRx s.rx.dev old
      pc := .idle
      returned := s.rx.returned ++ [⟨c.bufSize, bytesAt c.buf 0 c.len⟩] } }

/-- `net_poll` from the return of `e1000_receive` to the call of `e1000_send`. -/
def handleFrame (B : Buffers) (s : NetSys) (rx : Rx) : NetSys :=
  match netPoll s.net s.stack rx with
  | (net, []) => { s with net := net, pc := .idle }
  | (net, f :: _) =>
      if etherType net.buf = ETH_TYPE_ARP then
        { s with net := net, stack := arpReply net s.stack, pc := .reply B.arp f.length }
      else { s with net := net, pc := .reply B.icmp f.length }

inductive NetStep (B : Buffers) (s : NetSys) : NetSys → Prop
  | place {rx : RxSys} (hs : RxStep s.rx .place rx) : NetStep B s { s with rx := rx }
  | empty (hpc : s.pc = .idle) (hdd : (s.rx.dev.rxDescs s.rx.dev.rxCur).done = false) :
      NetStep B s s
  | start (hpc : s.pc = .idle) (hdd : (s.rx.dev.rxDescs s.rx.dev.rxCur).done = true) :
      NetStep B s
        { s with
          rx := { s.rx with
            pc := .copy ⟨2048, rxLen (s.rx.dev.rxDescs s.rx.dev.rxCur) 2048, s.net.buf⟩ 0 }
          pc := .receive }
  | work {rx : RxSys} (hpc : s.pc = .receive) (hs : RxStep s.rx .work rx) :
      NetStep B s { s with rx := rx }
  | handle {c : RxCall} {old : Nat} (hpc : s.pc = .receive) (hrx : s.rx.pc = .release c old) :
      NetStep B s (handleFrame B (s.released c old) (toRx (bytesAt c.buf 0 c.len)))
  | reject {data : BitVec 32} {len : Nat} (hpc : s.pc = .reply data len) (hlen : 1518 < len) :
      NetStep B s { s with pc := .idle }
  | send {data : BitVec 32} {len : Nat} (hpc : s.pc = .reply data len) (hlen : len ≤ 1518) :
      NetStep B s
        { s with
          tx := { s.tx with pc := .fill ⟨data, len, s.tx.dev.txCur⟩ txFields }
          pc := .send }
  /-- From the fields of the descriptor to a round of the wait. -/
  | sending {tx : TxSys} (hpc : s.pc = .send) (hs : TxStep (fun _ => False) s.tx tx)
      (hbusy : tx.pc ≠ .idle) (hwire : tx.wire = s.tx.wire) : NetStep B s { s with tx := tx }
  | sent {c : TxCall} {t : Nat} (hpc : s.pc = .send) (htx : s.tx.pc = .wait c t)
      (hdd : (s.tx.dev.txDescs c.old).done = true) :
      NetStep B s
        { s with
          tx := { s.tx with
            dev := { s.tx.dev with statTx := u32 (s.tx.dev.statTx + 1) }
            pc := .idle }
          pc := .idle }
  | timeout {c : TxCall} (hpc : s.pc = .send) (htx : s.tx.pc = .wait c 1)
      (hdd : (s.tx.dev.txDescs c.old).done = false) :
      NetStep B s
        { s with tx := { s.tx with pc := .idle }, pc := .idle, timeouts := s.timeouts + 1 }
  | transmit (hne : s.tx.dev.tdh ≠ s.tx.dev.tdt) :
      NetStep B s
        { s with
          tx := { s.tx with
            dev := nicTransmit s.tx.dev
            wire := s.tx.wire ++ [s.tx.dev.txDescs s.tx.dev.tdh] }
          wire := s.wire ++ [dma B s.net s.stack (s.tx.dev.txDescs s.tx.dev.tdh)] }
  /-- Between two polls the stack has other uses. -/
  | other (stack : Mem) (hpc : s.pc = .idle) : NetStep B s { s with stack := stack }

/-- Runs from the end of `e1000_init` and `net_init`. -/
inductive NetReach (B : Buffers) (net : Net) : NetSys → Prop
  | init (d : E1000) (stack : Mem) :
      NetReach B net
        ⟨⟨e1000Init d, .idle, [], []⟩, ⟨e1000Init d, .idle, [], []⟩, net, stack, .idle, [], 0⟩
  | step {s s' : NetSys} (h : NetReach B net s) (hs : NetStep B s s') : NetReach B net s'

/-! ## The service -/

/-- The frames are answered one after the other. -/
def serve (net : Net) : List Frame → Net × List Frame
  | [] => (net, [])
  | f :: rest =>
      let r := netPoll net (fun _ => 0#8) (toRx f)
      let q := serve r.1 rest
      (q.1, r.2 ++ q.2)

/-- The answers to the frames that `e1000_receive` returned so far. -/
def answers (net : Net) (s : NetSys) : List Frame :=
  (serve net ((s.rx.placed.take s.rx.returned.length).map Prod.snd)).2

/-- The wire carries the answers, in order, and all of them when nothing is under way. -/
def Serves (net : Net) (s : NetSys) : Prop :=
  s.wire <+: answers net s
    ∧ (s.pc = .idle → s.tx.dev.tdh = s.tx.dev.tdt → s.wire = answers net s)

section Serve

variable {net : Net} {stack : Mem} {rx : Rx}

theorem serve_concat (net : Net) (fs : List Frame) (f : Frame) :
    serve net (fs ++ [f]) =
      let r := serve net fs
      let q := netPoll r.1 (fun _ => 0#8) (toRx f)
      (q.1, r.2 ++ q.2) := by
  induction fs generalizing net with
  | nil => simp only [List.nil_append, serve, List.append_nil]
  | cons g fs ih => simp only [List.cons_append, serve, ih, List.append_assoc]

/-- Frames that `e1000_receive` hands over alike are answered alike. -/
theorem serve_congr {fs gs : List Frame} (h : fs.map toRx = gs.map toRx) :
    serve net fs = serve net gs := by
  induction fs generalizing net gs with
  | nil =>
      cases gs with
      | nil => rfl
      | cons g gs => cases h
  | cons f fs ih =>
      cases gs with
      | nil => cases h
      | cons g gs =>
          rw [List.map_cons, List.map_cons, List.cons.injEq] at h
          simp only [serve, h.1, ih h.2]

theorem handleArp_stack (net : Net) (stack stack' : Mem) (len : Nat) :
    handleArp net stack len = handleArp net stack' len := by
  rw [handleArp, handleArp, arpReply_agree rfl rfl (fun _ _ => rfl) stack stack']

/-- A poll does not depend on what the stack held. -/
theorem netPoll_stack (net : Net) (stack stack' : Mem) (rx : Rx) :
    netPoll net stack rx = netPoll net stack' rx := by
  simp only [netPoll, handleArp_stack _ stack stack']

theorem handleIcmp_result (net : Net) (len : Nat) :
    handleIcmp net len = (net, [])
      ∨ replyLen net.buf ≤ 1518 ∧ handleIcmp net len =
        ({ net with reply := icmpReply net }, [bytesAt (icmpReply net) 0 (replyLen net.buf)]) := by
  rw [handleIcmp]
  split
  · exact .inl rfl
  split
  · exact .inl rfl
  split
  · exact .inl rfl
  · next hle => exact .inr ⟨Nat.le_of_not_lt hle, rfl⟩

theorem handleIp_result (net : Net) (len : Nat) :
    handleIp net len = (net, [])
      ∨ replyLen net.buf ≤ 1518 ∧ handleIp net len =
        ({ net with reply := icmpReply net }, [bytesAt (icmpReply net) 0 (replyLen net.buf)]) := by
  rw [handleIp]
  split
  · exact .inl rfl
  split
  · exact .inl rfl
  split
  · exact .inl rfl
  split
  · exact handleIcmp_result net len
  · exact .inl rfl

/-- What a poll leaves behind, with the array its reply is in. -/
theorem netPoll_result (net : Net) (stack : Mem) (rx : Rx) :
    (∃ net', netPoll net stack rx = (net', []))
      ∨ (∃ net', etherType net'.buf = ETH_TYPE_ARP
        ∧ netPoll net stack rx = (net', [bytesAt (arpReply net' stack) 0 42]))
      ∨ ∃ net', etherType net'.buf ≠ ETH_TYPE_ARP ∧ replyLen net'.buf ≤ 1518
        ∧ netPoll net stack rx = (net', [bytesAt net'.reply 0 (replyLen net'.buf)]) := by
  simp only [netPoll]
  split
  · exact .inl ⟨_, rfl⟩
  split
  · exact .inl ⟨_, rfl⟩
  split
  · next htype =>
      rcases (handleArp_cases htype : (handleArp _ stack (u16 rx.bytes.length) = [] ∧ _) ∨ _) with
        ⟨h, -⟩ | ⟨-, h⟩
      · exact .inl ⟨_, by rw [h]⟩
      · exact .inr (.inl ⟨_, htype, by rw [h]⟩)
  split
  · next htype _ =>
      rcases handleIp_result (receive net rx) (u16 rx.bytes.length) with h | ⟨hle, h⟩
      · exact .inl ⟨_, h⟩
      · exact .inr (.inr ⟨{ receive net rx with reply := icmpReply (receive net rx) }, htype, hle,
          h⟩)
  · exact .inl ⟨_, rfl⟩

end Serve

/-! ## The invariant -/

/-- No call of `e1000_send` is under way, and the NIC has sent what it was given. -/
def Settled (tx : TxSys) : Prop := tx.pc = .idle ∧ tx.wire.length = tx.handed.length

/-- The call that is on its way to the write of TDT. -/
def TxPc.filling : TxPc → Option TxCall
  | .fill c _ => some c
  | .advance c => some c
  | .doorbell c => some c
  | _ => none

def TxPc.waiting : TxPc → Option TxCall
  | .wait c _ => some c
  | _ => none

/-- The call has handed its descriptor over and waits. -/
def Waiting (tx : TxSys) (c : TxCall) : Prop :=
  tx.pc.waiting = some c ∧ ∃ m, tx.handed.length = m + 1 ∧ tx.handed[m]? = some (c.old, c.desc)

/-- How the wire stands to the answers. -/
def Phase (B : Buffers) (s : NetSys) (ans : List Frame) : Prop :=
  match s.pc with
  | .idle => s.rx.pc = .idle ∧ Settled s.tx ∧ s.wire = ans
  | .receive => Settled s.tx ∧ s.wire = ans
  | .reply data len => s.rx.pc = .idle ∧ Settled s.tx ∧ len ≤ 1518
      ∧ s.wire ++ [dma B s.net s.stack (sendDesc data len)] = ans
  | .send => s.rx.pc = .idle ∧ ∃ c,
      (s.tx.pc.filling = some c ∧ s.tx.wire.length = s.tx.handed.length
          ∧ s.wire ++ [dma B s.net s.stack c.desc] = ans)
        ∨ (Waiting s.tx c ∧
          (s.tx.wire.length + 1 = s.tx.handed.length
              ∧ s.wire ++ [dma B s.net s.stack c.desc] = ans
            ∨ s.tx.wire.length = s.tx.handed.length ∧ s.wire = ans))

/-- Every call of `e1000_receive` has room for 2048 bytes. -/
def RxPc.Full : RxPc → Prop
  | .idle => True
  | .copy c _ => c.bufSize = 2048
  | .clear c => c.bufSize = 2048
  | .advance c => c.bufSize = 2048
  | .release c _ => c.bufSize = 2048

structure NetInv (B : Buffers) (net : Net) (s : NetSys) : Prop where
  rx : RxInv s.rx
  tx : TxInv s.tx
  size : ∀ r ∈ s.rx.returned, r.bufSize = 2048
  full : s.rx.pc.Full
  state : (serve net (s.rx.returned.map RxReturn.bytes)).1 = s.net
  phase : Phase B s (serve net (s.rx.returned.map RxReturn.bytes)).2

section Tx

variable {tx : TxSys} {c : TxCall}

/-- With nothing under way the next descriptor is free, and the one behind it. -/
theorem Settled.room (h : TxInv tx) (hs : Settled tx) : TxRoom tx.dev := by
  have hpc := h.pc
  rw [hs.1] at hpc
  have hcur : tx.dev.txCur = tx.handed.length % 8 := hpc
  rw [TxRoom, h.head, hs.2, hcur, E1000_NUM_TX_DESC]
  omega

/-- The oldest pending descriptor of a waiting call is its own. -/
theorem Waiting.pending_desc (h : TxInv tx) (hw : Waiting tx c)
    (hlen : tx.wire.length + 1 = tx.handed.length) :
    tx.dev.txDescs tx.dev.tdh = c.desc ∧ c.old = tx.dev.tdh := by
  obtain ⟨-, m, hm, hlast⟩ := hw
  obtain rfl : tx.wire.length = m := by omega
  rw [h.head]
  exact ⟨h.window _ _ (Nat.le_refl _) hlast, h.slot _ _ hlast⟩

theorem sendDesc_done (data : BitVec 32) (len : Nat) : (sendDesc data len).done = false :=
  show ((0#8 &&& TDESC_STA_DD) != 0#8) = false by decide

/-- A call that sees its descriptor done has been served. -/
theorem Waiting.sent (h : TxInv tx) (hw : Waiting tx c)
    (hdd : (tx.dev.txDescs c.old).done = true) : tx.wire.length + 1 ≠ tx.handed.length := by
  intro hlen
  obtain ⟨hdesc, hold⟩ := hw.pending_desc h hlen
  rw [hold, hdesc, TxCall.desc, sendDesc_done] at hdd
  exact Bool.false_ne_true hdd

theorem TxStep.mono {Ok Ok' : E1000 → Prop} {tx' : TxSys} (h : ∀ d, Ok d → Ok' d)
    (hs : TxStep Ok tx tx') : TxStep Ok' tx tx' := by
  cases hs with
  | reject len hlen hpc => exact .reject len hlen hpc
  | start data len hlen hpc hok => exact .start data len hlen hpc (h _ hok)
  | field hpc => exact .field hpc
  | filled hpc => exact .filled hpc
  | advance hpc => exact .advance hpc
  | doorbell hpc => exact .doorbell hpc
  | spin hpc hdd ht => exact .spin hpc hdd ht
  | timeout hpc hdd => exact .timeout hpc hdd
  | done hpc hdd => exact .done hpc hdd
  | transmit hne => exact .transmit hne

/-- The statements of `e1000_send` up to the doorbell, the doorbell, and the wait. -/
theorem sending_cases {tx' : TxSys} (hs : TxStep (fun _ => False) tx tx') (hbusy : tx'.pc ≠ .idle)
    (hwire : tx'.wire = tx.wire) :
    (∃ c, tx.pc.filling = some c ∧ tx'.pc.filling = some c ∧ tx'.handed = tx.handed)
      ∨ (∃ c, tx.pc.filling = some c ∧ tx'.pc.waiting = some c
        ∧ tx'.handed = tx.handed ++ [(c.old, c.desc)])
      ∨ ∃ c, tx.pc.waiting = some c ∧ tx'.pc.waiting = some c ∧ tx'.handed = tx.handed := by
  cases hs with
  | reject len hlen hpc => exact absurd hpc hbusy
  | start data len hlen hpc hok => exact hok.elim
  | @field c _ _ hpc => exact .inl ⟨c, by rw [hpc]; rfl, rfl, rfl⟩
  | @filled c hpc => exact .inl ⟨c, by rw [hpc]; rfl, rfl, rfl⟩
  | @advance c hpc => exact .inl ⟨c, by rw [hpc]; rfl, rfl, rfl⟩
  | @doorbell c hpc => exact .inr (.inl ⟨c, by rw [hpc]; rfl, rfl, rfl⟩)
  | @spin c _ hpc hdd ht => exact .inr (.inr ⟨c, by rw [hpc]; rfl, rfl, rfl⟩)
  | timeout hpc hdd => exact absurd rfl hbusy
  | done hpc hdd => exact absurd rfl hbusy
  | transmit hne => exact absurd hwire (by simp)

theorem filling_not_waiting {pc : TxPc} {c c' : TxCall} (hf : pc.filling = some c) :
    pc.waiting ≠ some c' := by
  intro hw
  cases pc with
  | idle => cases hf
  | fill c rest => cases hw
  | advance c => cases hw
  | doorbell c => cases hw
  | wait c t => cases hf

end Tx

/-! ## One step -/

section Step

variable {B : Buffers} {net : Net} {s s' : NetSys}

/-- A step of the receive half that returns nothing. -/
theorem NetInv.rx_step {e : RxEvent} {rx : RxSys} (h : NetInv B net s) (hs : RxStep s.rx e rx)
    (hret : rx.returned = s.rx.returned) (hfull : rx.pc.Full)
    (hphase : Phase B { s with rx := rx } (serve net (s.rx.returned.map RxReturn.bytes)).2) :
    NetInv B net { s with rx := rx } := by
  refine ⟨rxStep_inv h.rx hs, h.tx, ?_, hfull, ?_, ?_⟩
  · show ∀ r ∈ rx.returned, _
    rw [hret]
    exact h.size
  · show (serve net (rx.returned.map _)).1 = _
    rw [hret]
    exact h.state
  · show Phase B _ (serve net (rx.returned.map _)).2
    rw [hret]
    exact hphase

theorem NetInv.place {rx : RxSys} (h : NetInv B net s) (hs : RxStep s.rx .place rx) :
    NetInv B net { s with rx := rx } := by
  have hs' := hs
  cases hs with
  | place f h1 h2 hne => exact h.rx_step hs' rfl h.full h.phase

theorem NetInv.work {rx : RxSys} (h : NetInv B net s) (hpc : s.pc = .receive)
    (hs : RxStep s.rx .work rx) : NetInv B net { s with rx := rx } := by
  have hphase : Phase B { s with rx := rx } (serve net (s.rx.returned.map RxReturn.bytes)).2 := by
    have hold := h.phase
    simp only [Phase, hpc] at hold ⊢
    exact hold
  have hfull := h.full
  have hs' := hs
  cases hs with
  | byte hrx hi =>
      rw [hrx] at hfull
      exact h.rx_step hs' rfl hfull hphase
  | copied hrx =>
      rw [hrx] at hfull
      exact h.rx_step hs' rfl hfull hphase
  | clear hrx =>
      rw [hrx] at hfull
      exact h.rx_step hs' rfl hfull hphase
  | advance hrx =>
      rw [hrx] at hfull
      exact h.rx_step hs' rfl hfull hphase

theorem NetInv.start (h : NetInv B net s) (hpc : s.pc = .idle)
    (hdd : (s.rx.dev.rxDescs s.rx.dev.rxCur).done = true) :
    NetInv B net
      { s with
        rx := { s.rx with
          pc := .copy ⟨2048, rxLen (s.rx.dev.rxDescs s.rx.dev.rxCur) 2048, s.net.buf⟩ 0 }
        pc := .receive } := by
  have hold := h.phase
  simp only [Phase, hpc] at hold
  obtain ⟨hidle, hsettled, hwire⟩ := hold
  exact ⟨rxStep_inv h.rx (.start 2048 s.net.buf (by decide) hidle hdd), h.tx, h.size, rfl, h.state,
    hsettled, hwire⟩

/-- The reply of a poll is where its descriptor will point. -/
theorem handleFrame_phase (rx : Rx) (hidle : s.rx.pc = .idle) (hsettled : Settled s.tx) :
    (handleFrame B s rx).rx = s.rx ∧ (handleFrame B s rx).tx = s.tx
      ∧ (handleFrame B s rx).net = (netPoll s.net s.stack rx).1
      ∧ Phase B (handleFrame B s rx) (s.wire ++ (netPoll s.net s.stack rx).2) := by
  rw [handleFrame]
  rcases netPoll_result s.net s.stack rx with ⟨net', h⟩ | ⟨net', htype, h⟩ | ⟨net', htype, hle, h⟩
  · rw [h]
    exact ⟨rfl, rfl, rfl, hidle, hsettled, (List.append_nil _).symm⟩
  · rw [h]
    dsimp only
    rw [if_pos htype]
    refine ⟨rfl, rfl, rfl, hidle, hsettled, ?_, ?_⟩
    · rw [bytesAt_length]
      decide
    · rw [dma, sendDesc, if_pos rfl, bytesAt_length]
  · rw [h]
    dsimp only
    rw [if_neg htype]
    refine ⟨rfl, rfl, rfl, hidle, hsettled, ?_, ?_⟩
    · rw [bytesAt_length]
      exact hle
    · rw [dma, sendDesc, if_neg B.ne.symm, bytesAt_length]

/-- `e1000_receive` has returned, and the frame is handled as the service does it. -/
theorem NetInv.handle {c : RxCall} {old : Nat} (h : NetInv B net s) (hpc : s.pc = .receive)
    (hrx : s.rx.pc = .release c old) :
    NetInv B net (handleFrame B (s.released c old) (toRx (bytesAt c.buf 0 c.len))) := by
  have hold := h.phase
  simp only [Phase, hpc] at hold
  obtain ⟨hsettled, hwire⟩ := hold
  have hfull := h.full
  rw [hrx] at hfull
  have hserve : serve net ((s.released c old).rx.returned.map RxReturn.bytes) =
      ((netPoll s.net s.stack (toRx (bytesAt c.buf 0 c.len))).1,
        s.wire ++ (netPoll s.net s.stack (toRx (bytesAt c.buf 0 c.len))).2) := by
    rw [NetSys.released, List.map_append, List.map_singleton, serve_concat]
    dsimp only
    rw [h.state, hwire, netPoll_stack s.net s.stack fun _ => 0#8]
  obtain ⟨hrx', htx', hnet', hphase'⟩ := handleFrame_phase (B := B) (s := s.released c old)
    (toRx (bytesAt c.buf 0 c.len)) rfl hsettled
  refine ⟨?_, ?_, ?_, ?_, ?_, ?_⟩
  · rw [hrx']
    exact rxStep_inv h.rx (.release hrx)
  · rw [htx']
    exact h.tx
  · rw [hrx']
    intro r hr
    rcases List.mem_append.mp hr with hr | hr
    · exact h.size r hr
    · rw [List.mem_singleton.mp hr]
      exact hfull
  · rw [hrx']
    trivial
  · rw [hrx', hnet', hserve]
    rfl
  · rw [hrx', hserve]
    exact hphase'

theorem NetInv.send {data : BitVec 32} {len : Nat} (h : NetInv B net s)
    (hpc : s.pc = .reply data len) :
    NetInv B net
      { s with
        tx := { s.tx with pc := .fill ⟨data, len, s.tx.dev.txCur⟩ txFields }
        pc := .send } := by
  have hold := h.phase
  simp only [Phase, hpc] at hold
  obtain ⟨hidle, hsettled, hlen, hwire⟩ := hold
  exact ⟨h.rx, txStep_inv h.tx (.start data len hlen hsettled.1 (hsettled.room h.tx)), h.size,
    h.full, h.state, hidle, _, .inl ⟨rfl, hsettled.2, hwire⟩⟩

theorem NetInv.sending {tx : TxSys} (h : NetInv B net s) (hpc : s.pc = .send)
    (hs : TxStep (fun _ => False) s.tx tx) (hbusy : tx.pc ≠ .idle) (hwire : tx.wire = s.tx.wire) :
    NetInv B net { s with tx := tx } := by
  have hold := h.phase
  simp only [Phase, hpc] at hold
  obtain ⟨hidle, c, hcase⟩ := hold
  refine ⟨h.rx, txStep_inv h.tx (hs.mono fun _ => False.elim), h.size, h.full, h.state, ?_⟩
  simp only [Phase, hpc]
  refine ⟨hidle, c, ?_⟩
  rcases sending_cases hs hbusy hwire with
    ⟨c', hf, hf', hhanded⟩ | ⟨c', hf, hw', hhanded⟩ | ⟨c', hw, hw', hhanded⟩
  · rcases hcase with ⟨hf₀, hlen, hans⟩ | ⟨hw₀, -⟩
    · rw [hf, Option.some.injEq] at hf₀
      subst hf₀
      rw [hwire, hhanded]
      exact .inl ⟨hf', hlen, hans⟩
    · exact absurd hw₀.1 (filling_not_waiting hf)
  · rcases hcase with ⟨hf₀, hlen, hans⟩ | ⟨hw₀, -⟩
    · rw [hf, Option.some.injEq] at hf₀
      subst hf₀
      refine .inr ⟨⟨hw', s.tx.handed.length, ?_, ?_⟩, .inl ⟨?_, hans⟩⟩
      · rw [hhanded, List.length_append, List.length_singleton]
      · rw [hhanded, List.getElem?_concat_length]
      · rw [hwire, hhanded, List.length_append, List.length_singleton, hlen]
    · exact absurd hw₀.1 (filling_not_waiting hf)
  · rcases hcase with ⟨hf₀, -⟩ | ⟨⟨hw₀, hlast⟩, hans⟩
    · exact absurd hw (filling_not_waiting hf₀)
    · rw [hw, Option.some.injEq] at hw₀
      subst hw₀
      rw [hwire, hhanded]
      refine .inr ⟨⟨hw', ?_⟩, hans⟩
      rw [hhanded]
      exact hlast

theorem NetInv.sent {c : TxCall} {t : Nat} (h : NetInv B net s) (hpc : s.pc = .send)
    (htx : s.tx.pc = .wait c t) (hdd : (s.tx.dev.txDescs c.old).done = true) :
    NetInv B net
      { s with
        tx := { s.tx with
          dev := { s.tx.dev with statTx := u32 (s.tx.dev.statTx + 1) }
          pc := .idle }
        pc := .idle } := by
  have hold := h.phase
  simp only [Phase, hpc] at hold
  obtain ⟨hidle, c', hcase⟩ := hold
  have hinv := txStep_inv h.tx (.done htx hdd)
  refine ⟨h.rx, hinv, h.size, h.full, h.state, hidle, ?_⟩
  rcases hcase with ⟨hf, -⟩ | ⟨hw, ⟨hlen, -⟩ | ⟨hlen, hans⟩⟩
  · rw [htx] at hf
    cases hf
  · have hc := hw.1
    rw [htx] at hc
    cases hc
    exact absurd hlen (hw.sent h.tx hdd)
  · exact ⟨⟨rfl, hlen⟩, hans⟩

/-- Only a waiting call has something for the NIC to send, and its reply is still there. -/
theorem NetInv.transmit (h : NetInv B net s) (hne : s.tx.dev.tdh ≠ s.tx.dev.tdt) :
    NetInv B net
      { s with
        tx := { s.tx with
          dev := nicTransmit s.tx.dev
          wire := s.tx.wire ++ [s.tx.dev.txDescs s.tx.dev.tdh] }
        wire := s.wire ++ [dma B s.net s.stack (s.tx.dev.txDescs s.tx.dev.tdh)] } := by
  have hold := h.phase
  have hpending := h.tx.pending hne
  refine ⟨h.rx, transmit_inv h.tx hne, h.size, h.full, h.state, ?_⟩
  cases hpc : s.pc with
  | idle =>
      simp only [Phase, hpc] at hold
      exact absurd hold.2.1.2 (Nat.ne_of_lt hpending)
  | receive =>
      simp only [Phase, hpc] at hold
      exact absurd hold.1.2 (Nat.ne_of_lt hpending)
  | reply data len =>
      simp only [Phase, hpc] at hold
      exact absurd hold.2.1.2 (Nat.ne_of_lt hpending)
  | send =>
      simp only [Phase, hpc] at hold ⊢
      obtain ⟨hidle, c, ⟨-, hlen, -⟩ | ⟨hw, ⟨hlen, hans⟩ | ⟨hlen, -⟩⟩⟩ := hold
      · exact absurd hlen (Nat.ne_of_lt hpending)
      · obtain ⟨hdesc, -⟩ := hw.pending_desc h.tx hlen
        refine ⟨hidle, c, .inr ⟨hw, .inr ⟨?_, ?_⟩⟩⟩
        · rw [List.length_append, List.length_singleton, hlen]
        · rw [hdesc, hans]
      · exact absurd hlen (Nat.ne_of_lt hpending)

theorem NetInv.step (h : NetInv B net s) (hs : NetStep B s s') (hpatient : s'.timeouts = 0) :
    NetInv B net s' := by
  cases hs with
  | place hs => exact h.place hs
  | empty hpc hdd => exact h
  | start hpc hdd => exact h.start hpc hdd
  | work hpc hs => exact h.work hpc hs
  | handle hpc hrx => exact h.handle hpc hrx
  | reject hpc hlen =>
      have hold := h.phase
      simp only [Phase, hpc] at hold
      exact absurd hold.2.2.1 (Nat.not_le.mpr hlen)
  | send hpc hlen => exact h.send hpc
  | sending hpc hs hbusy hwire => exact h.sending hpc hs hbusy hwire
  | sent hpc htx hdd => exact h.sent hpc htx hdd
  | timeout hpc htx hdd => cases hpatient
  | transmit hne => exact h.transmit hne
  | other stack hpc =>
      have hold := h.phase
      refine ⟨h.rx, h.tx, h.size, h.full, h.state, ?_⟩
      simp only [Phase, hpc] at hold ⊢
      exact hold

end Step

/-! ## Whole runs -/

section Run

variable {B : Buffers} {net : Net} {s s' : NetSys}

theorem handleFrame_timeouts (rx : Rx) : (handleFrame B s rx).timeouts = s.timeouts := by
  rw [handleFrame]
  split
  · rfl
  · split
    · rfl
    · rfl

theorem NetStep.timeouts_le (hs : NetStep B s s') : s.timeouts ≤ s'.timeouts := by
  cases hs with
  | handle hpc hrx => exact Nat.le_of_eq (handleFrame_timeouts (s := s.released _ _) _).symm
  | timeout hpc htx hdd => exact Nat.le_succ _
  | place hs => exact Nat.le_refl _
  | empty hpc hdd => exact Nat.le_refl _
  | start hpc hdd => exact Nat.le_refl _
  | work hpc hs => exact Nat.le_refl _
  | reject hpc hlen => exact Nat.le_refl _
  | send hpc hlen => exact Nat.le_refl _
  | sending hpc hs hbusy hwire => exact Nat.le_refl _
  | sent hpc htx hdd => exact Nat.le_refl _
  | transmit hne => exact Nat.le_refl _
  | other stack hpc => exact Nat.le_refl _

theorem NetReach.inv (h : NetReach B net s) (hpatient : s.timeouts = 0) : NetInv B net s := by
  induction h with
  | init d stack =>
      exact ⟨rx_init_inv d, tx_init_inv d, fun r hr => absurd hr List.not_mem_nil, trivial, rfl,
        rfl, ⟨rfl, rfl⟩, rfl⟩
  | step _ hs ih =>
      refine (ih ?_).step hs hpatient
      exact Nat.eq_zero_of_le_zero (hpatient ▸ hs.timeouts_le)

theorem toRx_take (f : Frame) : toRx (f.take 2048) = toRx f := by
  rw [toRx, toRx, Rx.mk.injEq, List.take_take, Nat.min_self]

/-- The frames returned are handled as the first frames placed. -/
theorem map_toRx_of_fifo {rs : List RxReturn} {xs : List (Nat × Frame)}
    (hfifo : List.Forall₂ (fun r x => r.bytes = x.2.take r.bufSize) rs xs)
    (hsize : ∀ r ∈ rs, r.bufSize = 2048) :
    (rs.map RxReturn.bytes).map toRx = (xs.map Prod.snd).map toRx := by
  induction hfifo with
  | nil => rfl
  | cons hr _ ih =>
      rw [List.forall_mem_cons] at hsize
      simp only [List.map_cons, ih hsize.2]
      rw [hr, hsize.1, toRx_take]

theorem NetInv.answers_eq (h : NetInv B net s) :
    answers net s = (serve net (s.rx.returned.map RxReturn.bytes)).2 :=
  congrArg Prod.snd (serve_congr (map_toRx_of_fifo h.rx.fifo h.size)).symm

theorem NetInv.serves (h : NetInv B net s) : Serves net s := by
  have hold := h.phase
  rw [← h.answers_eq] at hold
  cases hpc : s.pc with
  | idle =>
      simp only [Phase, hpc] at hold
      rw [Serves, hold.2.2]
      exact ⟨List.prefix_rfl, fun _ _ => rfl⟩
  | receive =>
      simp only [Phase, hpc] at hold
      rw [Serves, hold.2]
      exact ⟨List.prefix_rfl, fun _ _ => rfl⟩
  | reply data len =>
      simp only [Phase, hpc] at hold
      refine ⟨⟨_, hold.2.2.2⟩, fun hidle => ?_⟩
      rw [hpc] at hidle
      cases hidle
  | send =>
      simp only [Phase, hpc] at hold
      refine ⟨?_, fun hidle => ?_⟩
      · obtain ⟨-, c, ⟨-, -, hans⟩ | ⟨-, ⟨-, hans⟩ | ⟨-, hans⟩⟩⟩ := hold
        · exact ⟨_, hans⟩
        · exact ⟨_, hans⟩
        · exact ⟨[], (List.append_nil _).trans hans⟩
      · rw [hpc] at hidle
        cases hidle

end Run

/-! ## A late reply -/

section Late

variable {B : Buffers} {net : Net} {s : NetSys} {c : TxCall} {handed : List (Nat × TxDesc)}
  {wire : List TxDesc} {dev : E1000}

/-- The NIC stores a frame. -/
def NetSys.placed (s : NetSys) (f : Frame) : NetSys :=
  { s with
    rx := { s.rx with
      dev := nicPlace s.rx.dev f
      placed := s.rx.placed ++ [(s.rx.dev.rdh, f)] } }

/-- A poll that finds a frame, with the NIC silent until the reply is built. -/
def NetSys.polled (B : Buffers) (s : NetSys) : NetSys :=
  let dev := s.rx.dev
  let len := rxLen (dev.rxDescs dev.rxCur) 2048
  let c : RxCall := ⟨2048, len, copyUp s.net.buf 0 (dev.rxBuffers dev.rxCur) 0 len⟩
  let rx : RxSys := ⟨advanceRx (clearRxDesc dev), .release c dev.rxCur, s.rx.placed, s.rx.returned⟩
  handleFrame B ({ s with rx := rx, pc := .receive }.released c dev.rxCur)
    (toRx (bytesAt c.buf 0 c.len))

/-- With the NIC still silent the call times out, its descriptor pending. -/
def NetSys.gaveUp (s : NetSys) (data : BitVec 32) (len : Nat) : NetSys :=
  { s with
    tx := ⟨e1000Issue s.tx.dev data len, .idle,
      s.tx.handed ++ [(s.tx.dev.txCur, sendDesc data len)], s.tx.wire⟩
    pc := .idle
    timeouts := s.timeouts + 1 }

theorem NetReach.polled (h : NetReach B net s) (hpc : s.pc = .idle)
    (hdd : (s.rx.dev.rxDescs s.rx.dev.rxCur).done = true) : NetReach B net (s.polled B) := by
  have hwork : ∀ {rx rx' : RxSys}, RxWork rx rx' →
      NetReach B net { s with rx := rx, pc := .receive } →
      NetReach B net { s with rx := rx', pc := .receive } := by
    intro rx rx' hw
    induction hw with
    | refl => exact id
    | step hs _ ih => exact fun hr => ih (hr.step (.work rfl hs))
  exact (hwork (RxWork.call ..) (h.step (.start hpc hdd))).step (.handle rfl rfl)

theorem NetReach.fill :
    ∀ {rest : List TxField} {dev : E1000},
      NetReach B net { s with tx := ⟨dev, .fill c rest, handed, wire⟩, pc := .send } →
      NetReach B net
        { s with
          tx := ⟨setTxDesc dev (rest.foldl c.write (dev.txDescs dev.txCur)), .fill c [], handed,
            wire⟩
          pc := .send }
  | [], dev, h => by
      have hsame : setTxDesc dev (dev.txDescs dev.txCur) = dev :=
        congrArg (fun t => { dev with txDescs := t }) (Function.update_eq_self ..)
      rw [List.foldl_nil, hsame]
      exact h
  | st :: rest, dev, h => by
      have hnext := NetReach.fill (h.step (.sending rfl (.field rfl) (by simp) rfl))
      have hread : (setTxDesc dev (c.write (dev.txDescs dev.txCur) st)).txDescs dev.txCur
          = c.write (dev.txDescs dev.txCur) st := Function.update_self ..
      rw [setTxDesc_setTxDesc] at hnext
      rw [List.foldl_cons, ← hread]
      exact hnext

theorem NetReach.giveUp (hdd : (dev.txDescs c.old).done = false) :
    ∀ {t : Nat},
      NetReach B net { s with tx := ⟨dev, .wait c (t + 1), handed, wire⟩, pc := .send } →
      NetReach B net
        { s with tx := ⟨dev, .idle, handed, wire⟩, pc := .idle, timeouts := s.timeouts + 1 }
  | 0, h => h.step (.timeout rfl rfl hdd)
  | t + 1, h =>
      NetReach.giveUp hdd (h.step (.sending rfl (.spin rfl hdd (Nat.succ_pos t)) (by simp) rfl))

theorem NetReach.gaveUp {data : BitVec 32} {len : Nat} (h : NetReach B net s)
    (hpc : s.pc = .reply data len) (hlen : len ≤ 1518) : NetReach B net (s.gaveUp data len) := by
  have hfill := NetReach.fill (h.step (.send hpc hlen))
  rw [foldl_write] at hfill
  have hring := ((hfill.step (.sending rfl (.filled rfl) (by simp) rfl)).step
    (.sending rfl (.advance rfl) (by simp) rfl)).step (.sending rfl (.doorbell rfl) (by simp) rfl)
  refine NetReach.giveUp ?_ hring
  have hread : (e1000Issue s.tx.dev data len).txDescs s.tx.dev.txCur = sendDesc data len :=
    Function.update_self ..
  exact (congrArg TxDesc.done hread).trans (sendDesc_done data len)

/-- An echo request of 42 bytes from the station whose address starts with `mac`. -/
def pingFrom (mac : BitVec 8) : Frame :=
  [0x52#8, 0x54#8, 0x00#8, 0x12#8, 0x34#8, 0x56#8, mac, 0x55#8, 0x0A#8, 0x00#8, 0x02#8, 0x02#8,
    0x08#8, 0x00#8, 0x45#8, 0x00#8, 0x00#8, 0x1C#8, 0x00#8, 0x01#8, 0x00#8, 0x00#8, 0xFF#8, 0x01#8,
    0x00#8, 0x00#8, 10#8, 0#8, 2#8, 2#8, 10#8, 0#8, 2#8, 15#8, 0x08#8, 0x00#8, 0xF7#8, 0xFD#8,
    0x00#8, 0x01#8, 0x00#8, 0x01#8]

def lateBuffers : Buffers := ⟨0x00300000#32, 0x00200000#32, by decide⟩

def lateNet : Net := ⟨sampleMac, sampleIp, fun _ => 0#8, fun _ => 0#8⟩

def quietNet : NetSys :=
  ⟨⟨e1000Init bootE1000, .idle, [], []⟩, ⟨e1000Init bootE1000, .idle, [], []⟩, lateNet,
    fun _ => 0#8, .idle, [], 0⟩

/-- One ping polled, its reply not sent in time, and a second one polled. -/
def lateSys : NetSys :=
  let first := (quietNet.placed (pingFrom 0x52#8)).polled lateBuffers
  ((first.gaveUp 0x00200000#32 42).placed (pingFrom 0x66#8)).polled lateBuffers

theorem lateSys_reach : NetReach lateBuffers lateNet lateSys := by
  have hping : ∀ mac, 0 < (pingFrom mac).length ∧ (pingFrom mac).length ≤ E1000_RX_BUF_SIZE :=
    fun mac => ⟨show 0 < 42 by decide, show 42 ≤ 2048 by decide⟩
  have hstart : NetReach lateBuffers lateNet quietNet := .init bootE1000 _
  have hplace := hstart.step (.place (.place (pingFrom 0x52#8) (hping _).1 (hping _).2 (by decide)))
  have hlate := (hplace.polled rfl (by decide)).gaveUp rfl (show 42 ≤ 1518 by decide)
  have hplace' := hlate.step
    (.place (.place (pingFrom 0x66#8) (hping _).1 (hping _).2 (by decide)))
  exact hplace'.polled rfl (by decide)

/-- The first descriptor still points to the array, which holds the second reply by now. -/
theorem late_reply_replaced :
    ∃ s, NetReach lateBuffers lateNet s ∧ s.timeouts = 1 ∧ ¬Serves lateNet s := by
  have hne : lateSys.tx.dev.tdh ≠ lateSys.tx.dev.tdt := by decide
  refine ⟨_, lateSys_reach.step (.transmit hne), rfl, ?_⟩
  rintro ⟨⟨rest, hprefix⟩, -⟩
  have hwire : (dma lateBuffers lateSys.net lateSys.stack
      (lateSys.tx.dev.txDescs lateSys.tx.dev.tdh)).head? = some 0x66#8 := by decide +kernel
  have hans : (answers lateNet lateSys).head?.bind List.head? = some 0x52#8 := by decide +kernel
  have hfirst := congrArg (fun l : List Frame => l.head?.bind List.head?) hprefix
  exact absurd (hwire.symm.trans (hfirst.trans hans)) (by decide)

end Late

/-- **Frames in, answers out.** Over every interleaving of arriving frames, polls and the NIC,
the wire carries the answers to the frames received, each once, unchanged and in order, and
nothing else, exactly as long as no call of `e1000_send` times out: a reply that is still
pending is replaced by the next one. -/
theorem net_serves_iff (n : Nat) :
    (∀ B net s, NetReach B net s → s.timeouts ≤ n → Serves net s) ↔ n = 0 := by
  constructor
  · intro h
    by_contra hn
    obtain ⟨s, hs, hlate, hnot⟩ := late_reply_replaced
    exact hnot (h _ _ s hs (by omega))
  · rintro rfl B net s hs hpatient
    exact (hs.inv (Nat.eq_zero_of_le_zero hpatient)).serves

end Matryoshka
