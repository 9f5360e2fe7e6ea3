import Matryoshka.Checksum

/-!
# The network stack

`kernel/net/net.c`: ARP replies and ICMP echo replies. Packed structures
are read and written at their byte offsets. The receive buffer and the
ICMP reply buffer are static arrays that keep the bytes of earlier
packets; the ARP reply is a local array with whatever the stack holds.
Bytes from offset 1518 of the reply buffer on are what lies behind it in
memory, which the checksum loop can reach. The frames passed to
`e1000_send` are recorded in order; `klog` output is not modelled.
-/

namespace Matryoshka

open ByteMem

/-! ## Byte order and comparison -/

def htons (v : BitVec 16) : BitVec 16 := (v >>> 8) ||| (v <<< 8)

def ntohs (v : BitVec 16) : BitVec 16 := htons v

def memcmp (a : Mem) (i : Nat) (b : Mem) (j : Nat) : Nat → Int
  | 0 => 0
  | n + 1 =>
      if a i ≠ b j then ((a i).toNat : Int) - (b j).toNat else memcmp a (i + 1) b (j + 1) n

theorem memcmp_congr {a a' : Mem} (b : Mem) (j : Nat) :
    ∀ {i n : Nat}, (∀ k, i ≤ k → k < i + n → a k = a' k) → memcmp a i b j n = memcmp a' i b j n
  | _, 0, _ => rfl
  | i, n + 1, h => by
      rw [memcmp, memcmp, h i (by omega) (by omega),
        memcmp_congr b (j + 1) fun k h1 h2 => h k (by omega) (by omega)]

def ipChecksum (data : Mem) (p len : Nat) : BitVec 16 := Checksum.checksum data p len

/-! ## Headers -/

def ETH_TYPE_ARP : BitVec 16 := 0x0806#16

def ETH_TYPE_IP : BitVec 16 := 0x0800#16

def ARP_OP_REQUEST : BitVec 16 := 1#16

def ARP_OP_REPLY : BitVec 16 := 2#16

def IP_PROTO_ICMP : BitVec 8 := 1#8

def ICMP_ECHO_REPLY : BitVec 8 := 0#8

def ICMP_ECHO_REQUEST : BitVec 8 := 8#8

/-- `ntohs(eth->ethertype)`. -/
def etherType (frame : Mem) : BitVec 16 := ntohs (load16 frame 12)

/-- `ntohs(arp->operation)`. -/
def arpOperation (frame : Mem) : BitVec 16 := ntohs (load16 frame (14 + 6))

/-- `(ip->ver_ihl & 0x0F) * 4`. -/
def ipHdrLen (frame : Mem) : Nat := (frame 14 &&& 0x0F#8).toNat * 4

/-- `ntohs(ip->total_length)`. -/
def ipTotal (frame : Mem) : Nat := (ntohs (load16 frame (14 + 2))).toNat

/-- `uint16_t reply_len = sizeof(eth_header_t) + ip_total`. -/
def replyLen (frame : Mem) : Nat := u16 (14 + ipTotal frame)

theorem ipHdrLen_le (frame : Mem) : ipHdrLen frame ≤ 60 := by
  have h : (frame 14 &&& 0x0F#8).toNat ≤ 15 := by
    rw [BitVec.toNat_and]
    exact Nat.and_le_right
  unfold ipHdrLen
  omega

theorem ipTotal_lt (frame : Mem) : ipTotal frame < 0x10000 := BitVec.isLt _

theorem replyLen_of_lt {frame : Mem} (h : 14 + ipTotal frame < 0x10000) :
    replyLen frame = 14 + ipTotal frame := u16_of_lt h

/-! ## State -/

structure Net where
  ourMac : Mem
  ourIp : Mem
  buf : Mem
  reply : Mem

/-- What `e1000_receive(buf, 2048)` returns; no bytes stand for the results 0 and -1. -/
structure Rx where
  bytes : List (BitVec 8)
  length_le : bytes.length ≤ 2048

abbrev Frame := List (BitVec 8)

/-! ## ARP -/

/-- The local array after all its fields are written, from what `stack` held. -/
def arpReply (net : Net) (stack : Mem) : Mem :=
  let reply := copyUp stack 0 net.buf (14 + 8) 6
  let reply := copyUp reply 6 net.ourMac 0 6
  let reply := store16 reply 12 (htons ETH_TYPE_ARP)
  let reply := store16 reply 14 (htons 1#16)
  let reply := store16 reply (14 + 2) (htons 0x0800#16)
  let reply := store8 reply (14 + 4) 6#8
  let reply := store8 reply (14 + 5) 4#8
  let reply := store16 reply (14 + 6) (htons ARP_OP_REPLY)
  let reply := copyUp reply (14 + 8) net.ourMac 0 6
  let reply := copyUp reply (14 + 14) net.ourIp 0 4
  let reply := copyUp reply (14 + 18) net.buf (14 + 8) 6
  copyUp reply (14 + 24) net.buf (14 + 14) 4

def handleArp (net : Net) (stack : Mem) (len : Nat) : List Frame :=
  if len < 14 + 28 then []
  else if arpOperation net.buf ≠ ARP_OP_REQUEST then []
  else if memcmp net.buf (14 + 24) net.ourIp 0 4 ≠ 0 then []
  else [bytesAt (arpReply net stack) 0 (14 + 28)]

/-! ## ICMP -/

/-- The reply up to `rip->checksum = 0`. -/
def replyHeaders (net : Net) : Mem :=
  let reply := copyUp net.reply 0 net.buf 0 (replyLen net.buf)
  let reply := copyUp reply 0 net.buf 6 6
  let reply := copyUp reply 6 net.ourMac 0 6
  let reply := copyUp reply (14 + 16) net.buf (14 + 12) 4
  let reply := copyUp reply (14 + 12) net.ourIp 0 4
  let reply := store8 reply (14 + 8) 64#8
  store16 reply (14 + 10) 0#16

/-- `rip->checksum = ip_checksum(rip, ip_hdr_len)`. -/
def sealIp (reply : Mem) (hdrLen : Nat) : Mem :=
  store16 reply (14 + 10) (ipChecksum reply 14 hdrLen)

/-- `ricmp->type = ICMP_ECHO_REPLY; ricmp->checksum = 0`. -/
def echoHeader (reply : Mem) (hdrLen : Nat) : Mem :=
  store16 (store8 reply (14 + hdrLen) ICMP_ECHO_REPLY) (14 + hdrLen + 2) 0#16

/-- `ricmp->checksum = ip_checksum(ricmp, icmp_len)`. -/
def sealIcmp (reply : Mem) (hdrLen icmpLen : Nat) : Mem :=
  store16 reply (14 + hdrLen + 2) (ipChecksum reply (14 + hdrLen) icmpLen)

/-- `uint16_t icmp_len = ip_total - ip_hdr_len`. -/
def icmpLen (frame : Mem) : Nat := u16 (ipTotal frame + 0x10000 - ipHdrLen frame)

theorem icmpLen_of_le {frame : Mem} (h : ipHdrLen frame ≤ ipTotal frame) :
    icmpLen frame = ipTotal frame - ipHdrLen frame := by
  have := ipTotal_lt frame
  unfold icmpLen u16
  omega

def icmpReply (net : Net) : Mem :=
  let reply := sealIp (replyHeaders net) (ipHdrLen net.buf)
  sealIcmp (echoHeader reply (ipHdrLen net.buf)) (ipHdrLen net.buf) (icmpLen net.buf)

def handleIcmp (net : Net) (len : Nat) : Net × List Frame :=
  if len < 14 + ipHdrLen net.buf + 8 then (net, [])
  else if net.buf (14 + ipHdrLen net.buf) ≠ ICMP_ECHO_REQUEST then (net, [])
  else if 1518 < replyLen net.buf then (net, [])
  else ({ net with reply := icmpReply net }, [bytesAt (icmpReply net) 0 (replyLen net.buf)])

/-! ## Dispatch -/

def handleIp (net : Net) (len : Nat) : Net × List Frame :=
  if len < 14 + 20 then (net, [])
  else if net.buf 14 >>> 4 ≠ 4#8 then (net, [])
  else if memcmp net.buf (14 + 16) net.ourIp 0 4 ≠ 0 then (net, [])
  else if net.buf (14 + 9) = IP_PROTO_ICMP then handleIcmp net len
  else (net, [])

/-- `e1000_receive` overwrites the first bytes of the buffer. -/
def receive (net : Net) (rx : Rx) : Net :=
  { net with buf := fun i => rx.bytes.getD i (net.buf i) }

def netPoll (net : Net) (stack : Mem) (rx : Rx) : Net × List Frame :=
  let net := receive net rx
  if rx.bytes.length = 0 then (net, [])
  else if u16 rx.bytes.length < 14 then (net, [])
  else if etherType net.buf = ETH_TYPE_ARP then
    (net, handleArp net stack (u16 rx.bytes.length))
  else if etherType net.buf = ETH_TYPE_IP then handleIp net (u16 rx.bytes.length)
  else (net, [])

/-! ## When a frame is sent -/

/-- An ARP request for address `ip`. -/
structure ArpAsked (ip frame : Mem) (len : Nat) : Prop where
  len_le : 42 ≤ len
  type : etherType frame = ETH_TYPE_ARP
  operation : arpOperation frame = ARP_OP_REQUEST
  target : memcmp frame 38 ip 0 4 = 0

/-- An ICMP echo request for address `ip` that is answered. -/
structure EchoAsked (ip frame : Mem) (len : Nat) : Prop where
  len_le : 34 ≤ len
  type : etherType frame = ETH_TYPE_IP
  version : frame 14 >>> 4 = 4#8
  target : memcmp frame 30 ip 0 4 = 0
  protocol : frame 23 = IP_PROTO_ICMP
  icmp_le : 14 + ipHdrLen frame + 8 ≤ len
  request : frame (14 + ipHdrLen frame) = ICMP_ECHO_REQUEST
  reply_le : replyLen frame ≤ 1518

section Handlers

variable {net : Net} {stack : Mem} {len : Nat}

theorem handleArp_cases (htype : etherType net.buf = ETH_TYPE_ARP) :
    (handleArp net stack len = [] ∧ ¬ArpAsked net.ourIp net.buf len)
      ∨ (ArpAsked net.ourIp net.buf len
        ∧ handleArp net stack len = [bytesAt (arpReply net stack) 0 42]) := by
  simp only [handleArp]
  split
  · exact Or.inl ⟨rfl, fun h => by have := h.len_le; omega⟩
  split
  · next hop => exact Or.inl ⟨rfl, fun h => hop h.operation⟩
  split
  · next htgt => exact Or.inl ⟨rfl, fun h => htgt h.target⟩
  · next hlen hop htgt =>
      exact Or.inr ⟨⟨by omega, htype, not_not.mp hop, not_not.mp htgt⟩, rfl⟩

theorem handleIcmp_cases (hlen : 34 ≤ len) (htype : etherType net.buf = ETH_TYPE_IP)
    (hver : net.buf 14 >>> 4 = 4#8) (htgt : memcmp net.buf 30 net.ourIp 0 4 = 0)
    (hproto : net.buf 23 = IP_PROTO_ICMP) :
    ((handleIcmp net len).2 = [] ∧ ¬EchoAsked net.ourIp net.buf len)
      ∨ (EchoAsked net.ourIp net.buf len
        ∧ (handleIcmp net len).2 = [bytesAt (icmpReply net) 0 (replyLen net.buf)]) := by
  simp only [handleIcmp]
  split
  · exact Or.inl ⟨rfl, fun h => by have := h.icmp_le; omega⟩
  split
  · next hreq => exact Or.inl ⟨rfl, fun h => hreq h.request⟩
  split
  · exact Or.inl ⟨rfl, fun h => by have := h.reply_le; omega⟩
  · next hicmp hreq hle =>
      exact Or.inr ⟨⟨hlen, htype, hver, htgt, hproto, by omega, not_not.mp hreq, by omega⟩, rfl⟩

theorem handleIp_cases (htype : etherType net.buf = ETH_TYPE_IP) :
    ((handleIp net len).2 = [] ∧ ¬EchoAsked net.ourIp net.buf len)
      ∨ (EchoAsked net.ourIp net.buf len
        ∧ (handleIp net len).2 = [bytesAt (icmpReply net) 0 (replyLen net.buf)]) := by
  simp only [handleIp]
  split
  · exact Or.inl ⟨rfl, fun h => by have := h.len_le; omega⟩
  split
  · next hver => exact Or.inl ⟨rfl, fun h => hver h.version⟩
  split
  · next htgt => exact Or.inl ⟨rfl, fun h => htgt h.target⟩
  split
  · next hlen hver htgt hproto =>
      exact handleIcmp_cases (by omega) htype (not_not.mp hver) (not_not.mp htgt) hproto
  · next hproto => exact Or.inl ⟨rfl, fun h => hproto h.protocol⟩

end Handlers

theorem netPoll_cases (net : Net) (stack : Mem) (rx : Rx) :
    ((netPoll net stack rx).2 = []
        ∧ ¬ArpAsked net.ourIp (receive net rx).buf rx.bytes.length
        ∧ ¬EchoAsked net.ourIp (receive net rx).buf rx.bytes.length)
      ∨ (ArpAsked net.ourIp (receive net rx).buf rx.bytes.length
        ∧ (netPoll net stack rx).2 = [bytesAt (arpReply (receive net rx) stack) 0 42])
      ∨ (EchoAsked net.ourIp (receive net rx).buf rx.bytes.length
        ∧ (netPoll net stack rx).2 =
          [bytesAt (icmpReply (receive net rx)) 0 (replyLen (receive net rx).buf)]) := by
  have hip : (receive net rx).ourIp = net.ourIp := rfl
  have hlen : u16 rx.bytes.length = rx.bytes.length :=
    u16_of_lt (Nat.lt_of_le_of_lt rx.length_le (by decide))
  have hne : ETH_TYPE_IP ≠ ETH_TYPE_ARP := by decide
  simp only [netPoll, hlen, ← hip]
  generalize receive net rx = net
  generalize rx.bytes.length = len
  have hshort : len < 14 → ¬ArpAsked net.ourIp net.buf len ∧ ¬EchoAsked net.ourIp net.buf len :=
    fun hlt => ⟨fun h => by have := h.len_le; omega, fun h => by have := h.len_le; omega⟩
  split
  · exact Or.inl ⟨rfl, hshort (by omega)⟩
  split
  · next hlt => exact Or.inl ⟨rfl, hshort hlt⟩
  split
  · next harp =>
      have hecho : ¬EchoAsked net.ourIp net.buf len := fun h => hne (h.type.symm.trans harp)
      rcases handleArp_cases harp with ⟨hsent, hasked⟩ | hasked
      · exact Or.inl ⟨hsent, hasked, hecho⟩
      · exact Or.inr (Or.inl hasked)
  · next harp =>
      have hnarp : ¬ArpAsked net.ourIp net.buf len := fun h => harp h.type
      split
      · next hip4 =>
          rcases handleIp_cases hip4 with ⟨hsent, hasked⟩ | hasked
          · exact Or.inl ⟨hsent, hnarp, hasked⟩
          · exact Or.inr (Or.inr hasked)
      · next hip4 => exact Or.inl ⟨rfl, hnarp, fun h => hip4 h.type⟩

end Matryoshka
