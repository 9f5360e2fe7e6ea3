import Matryoshka.ByteMem
import Matryoshka.Word
import Mathlib.Logic.Function.Basic

/-!
# The e1000 driver

`kernel/drivers/e1000.c`: the two descriptor rings, their set-up, the
receive path and the part of the send path before the busy-wait.
Descriptor `i` of the receive ring points to `rx_buffers[i]` for good. The
head and tail registers are part of the state; the other registers, PCI, the
MAC address and console output are not modelled.
-/

namespace Matryoshka

open ByteMem

def E1000_NUM_RX_DESC : Nat := 32

def E1000_NUM_TX_DESC : Nat := 8

def E1000_RX_BUF_SIZE : Nat := 2048

def RDESC_STA_DD : BitVec 8 := 1#8 <<< 0

def RDESC_STA_EOP : BitVec 8 := 1#8 <<< 1

def TDESC_CMD_EOP : BitVec 8 := 1#8 <<< 0

def TDESC_CMD_IFCS : BitVec 8 := 1#8 <<< 1

def TDESC_CMD_RS : BitVec 8 := 1#8 <<< 3

def TDESC_STA_DD : BitVec 8 := 1#8 <<< 0

/-! ## State -/

structure RxDesc where
  length : Nat
  status : BitVec 8

structure TxDesc where
  addrLo : BitVec 32
  addrHi : BitVec 32
  length : Nat
  cmd : BitVec 8
  status : BitVec 8

structure E1000 where
  initialised : Bool
  rxDescs : Nat → RxDesc
  rxBuffers : Nat → Mem
  rxCur : Nat
  rdh : Nat
  rdt : Nat
  txDescs : Nat → TxDesc
  txCur : Nat
  tdh : Nat
  tdt : Nat
  statRx : Nat
  statTx : Nat

/-- The static variables before `e1000_init`. -/
def bootE1000 : E1000 :=
  ⟨false, fun _ => ⟨0, 0#8⟩, fun _ _ => 0#8, 0, 0, 0, fun _ => ⟨0#32, 0#32, 0, 0#8, 0#8⟩, 0, 0, 0,
    0, 0⟩

/-- `desc->status & RDESC_STA_DD`. -/
def RxDesc.done (d : RxDesc) : Bool := (d.status &&& RDESC_STA_DD) != 0#8

def TxDesc.done (d : TxDesc) : Bool := (d.status &&& TDESC_STA_DD) != 0#8

/-! ## Ring set-up -/

def initRx (s : E1000) : E1000 :=
  { s with
    rxDescs := fun i => { s.rxDescs i with status := 0#8 }
    rdh := 0
    rdt := E1000_NUM_RX_DESC - 1
    rxCur := 0 }

def initTx (s : E1000) : E1000 :=
  { s with
    txDescs := fun _ => ⟨0#32, 0#32, 0, 0#8, 0#8⟩
    tdh := 0
    tdt := 0
    txCur := 0 }

/-- The end of `e1000_init`. -/
def e1000Init (s : E1000) : E1000 :=
  { initTx (initRx s) with initialised := true, statRx := 0, statTx := 0 }

/-! ## Receiving -/

/-- `uint16_t len = desc->length; if (len > buf_size) len = buf_size;` -/
def rxLen (d : RxDesc) (bufSize : Nat) : Nat := if bufSize < d.length then bufSize else d.length

/-- `desc->status = 0`. -/
def clearRxDesc (s : E1000) : E1000 :=
  { s with rxDescs := Function.update s.rxDescs s.rxCur { s.rxDescs s.rxCur with status := 0#8 } }

/-- `rx_cur = (rx_cur + 1) % E1000_NUM_RX_DESC`. -/
def advanceRx (s : E1000) : E1000 := { s with rxCur := (s.rxCur + 1) % E1000_NUM_RX_DESC }

/-- `e1000_write(REG_RDT, old); stat_rx++`. -/
def releaseRx (s : E1000) (old : Nat) : E1000 :=
  { s with rdt := old, statRx := u32 (s.statRx + 1) }

def e1000Receive (s : E1000) (buf : Mem) (bufSize : Nat) : Int × E1000 × Mem :=
  if !s.initialised then (-1, s, buf)
  else if !(s.rxDescs s.rxCur).done then (0, s, buf)
  else
    let len := rxLen (s.rxDescs s.rxCur) bufSize
    (len, releaseRx (advanceRx (clearRxDesc s)) s.rxCur,
      copyUp buf 0 (s.rxBuffers s.rxCur) 0 len)

/-! ## Sending -/

/-- The descriptor `e1000_send(data, len)` writes. -/
def sendDesc (data : BitVec 32) (len : Nat) : TxDesc :=
  ⟨data, 0#32, len, TDESC_CMD_EOP ||| TDESC_CMD_IFCS ||| TDESC_CMD_RS, 0#8⟩

def setTxDesc (s : E1000) (d : TxDesc) : E1000 :=
  { s with txDescs := Function.update s.txDescs s.txCur d }

/-- `tx_cur = (tx_cur + 1) % E1000_NUM_TX_DESC`. -/
def advanceTx (s : E1000) : E1000 := { s with txCur := (s.txCur + 1) % E1000_NUM_TX_DESC }

/-- `e1000_write(REG_TDT, tx_cur)`. -/
def ringTx (s : E1000) : E1000 := { s with tdt := s.txCur }

/-- `e1000_send` up to the busy-wait. -/
def e1000Issue (s : E1000) (data : BitVec 32) (len : Nat) : E1000 :=
  ringTx (advanceTx (setTxDesc s (sendDesc data len)))

end Matryoshka
