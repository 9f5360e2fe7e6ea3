import Matryoshka.NetPoll
import Matryoshka.Traced

/-!
# The bytes one poll touches

`net_poll` and its handlers again, with every access to the received frame,
to the two reply buffers and to the summed bytes recorded. Without the
record they are the functions of `Matryoshka.Net`. Three lengths of the
sender decide which bytes are touched: the length of the frame is checked
against the header length, the total length against nothing but the size
of the reply buffer.
-/

namespace Matryoshka

open ByteMem

/-! ## Recorded accesses -/

inductive Access where
  /-- A byte of the received frame is read. -/
  | frame (i : Nat)
  /-- A byte of the static reply buffer is read or written. -/
  | reply (i : Nat)
  /-- A byte of the static reply buffer is added to a checksum. -/
  | summed (i : Nat)
  /-- A byte of the local array of `handle_arp` is read or written. -/
  | arp (i : Nat)
deriving DecidableEq

open Access Traced

section Primitives

variable (buf : Nat → Access)

def frame8 (frame : Mem) (i : Nat) : Traced Access (BitVec 8) := ⟨frame i, [.frame i]⟩

def frame16 (frame : Mem) (i : Nat) : Traced Access (BitVec 16) :=
  ⟨load16 frame i, span .frame i 2⟩

/-- `memcmp` stops at the first difference. -/
def frameMemcmp (frame : Mem) (i : Nat) (b : Mem) (j : Nat) : Nat → Traced Access Int
  | 0 => pure 0
  | n + 1 => do
      let x ← frame8 frame i
      if x ≠ b j then pure ((x.toNat : Int) - (b j).toNat)
      else frameMemcmp frame (i + 1) b (j + 1) n

/-- `memcpy` from the frame into a reply. -/
def copyFrame (reply : Mem) (d : Nat) (frame : Mem) (s n : Nat) : Traced Access Mem :=
  ⟨copyUp reply d frame s n, span .frame s n ++ span buf d n⟩

/-- `memcpy` from one of our addresses into a reply. -/
def copyOwn (reply : Mem) (d : Nat) (own : Mem) (n : Nat) : Traced Access Mem :=
  ⟨copyUp reply d own 0 n, span buf d n⟩

def put8 (reply : Mem) (a : Nat) (v : BitVec 8) : Traced Access Mem :=
  ⟨store8 reply a v, span buf a 1⟩

def put16 (reply : Mem) (a : Nat) (v : BitVec 16) : Traced Access Mem :=
  ⟨store16 reply a v, span buf a 2⟩

def sumReply (reply : Mem) (p len : Nat) : Traced Access (BitVec 16) :=
  ⟨ipChecksum reply p len, span .summed p len⟩

/-- `e1000_send` copies the frame out of the reply. -/
def sendFrame (reply : Mem) (n : Nat) : Traced Access Frame :=
  ⟨bytesAt reply 0 n, span buf 0 n⟩

end Primitives

/-! ## The handlers -/

def arpReplyTraced (net : Net) (stack : Mem) : Traced Access Mem := do
  let reply ← copyFrame .arp stack 0 net.buf (14 + 8) 6
  let reply ← copyOwn .arp reply 6 net.ourMac 6
  let reply ← put16 .arp reply 12 (htons ETH_TYPE_ARP)
  let reply ← put16 .arp reply 14 (htons 1#16)
  let reply ← put16 .arp reply (14 + 2) (htons 0x0800#16)
  let reply ← put8 .arp reply (14 + 4) 6#8
  let reply ← put8 .arp reply (14 + 5) 4#8
  let reply ← put16 .arp reply (14 + 6) (htons ARP_OP_REPLY)
  let reply ← copyOwn .arp reply (14 + 8) net.ourMac 6
  let reply ← copyOwn .arp reply (14 + 14) net.ourIp 4
  let reply ← copyFrame .arp reply (14 + 18) net.buf (14 + 8) 6
  copyFrame .arp reply (14 + 24) net.buf (14 + 14) 4

def handleArpTraced (net : Net) (stack : Mem) (len : Nat) : Traced Access (List Frame) :=
  if len < 14 + 28 then pure []
  else do
    let operation ← frame16 net.buf (14 + 6)
    if ntohs operation ≠ ARP_OP_REQUEST then pure []
    else do
      let differ ← frameMemcmp net.buf (14 + 24) net.ourIp 0 4
      if differ ≠ 0 then pure []
      else do
        let reply ← arpReplyTraced net stack
        let sent ← sendFrame .arp reply (14 + 28)
        pure [sent]

/-- The reply of `handle_icmp`, from the lengths the handler has read. -/
def icmpReplyTraced (net : Net) (replyLen hdrLen icmpLen : Nat) : Traced Access Mem := do
  let reply ← copyFrame .reply net.reply 0 net.buf 0 replyLen
  let reply ← copyFrame .reply reply 0 net.buf 6 6
  let reply ← copyOwn .reply reply 6 net.ourMac 6
  let reply ← copyFrame .reply reply (14 + 16) net.buf (14 + 12) 4
  let reply ← copyOwn .reply reply (14 + 12) net.ourIp 4
  let reply ← put8 .reply reply (14 + 8) 64#8
  let reply ← put16 .reply reply (14 + 10) 0#16
  let sum ← sumReply reply 14 hdrLen
  let reply ← put16 .reply reply (14 + 10) sum
  let reply ← put8 .reply reply (14 + hdrLen) ICMP_ECHO_REPLY
  let reply ← put16 .reply reply (14 + hdrLen + 2) 0#16
  let sum ← sumReply reply (14 + hdrLen) icmpLen
  put16 .reply reply (14 + hdrLen + 2) sum

def handleIcmpTraced (net : Net) (len : Nat) : Traced Access (Net × List Frame) := do
  let verIhl ← frame8 net.buf 14
  let hdrLen := (verIhl &&& 0x0F#8).toNat * 4
  let totalLength ← frame16 net.buf (14 + 2)
  let total := (ntohs totalLength).toNat
  if len < 14 + hdrLen + 8 then pure (net, [])
  else do
    let type ← frame8 net.buf (14 + hdrLen)
    if type ≠ ICMP_ECHO_REQUEST then pure (net, [])
    else if 1518 < u16 (14 + total) then pure (net, [])
    else do
      let reply ← icmpReplyTraced net (u16 (14 + total)) hdrLen (u16 (total + 0x10000 - hdrLen))
      let sent ← sendFrame .reply reply (u16 (14 + total))
      pure ({ net with reply := reply }, [sent])

def handleIpTraced (net : Net) (len : Nat) : Traced Access (Net × List Frame) :=
  if len < 14 + 20 then pure (net, [])
  else do
    let verIhl ← frame8 net.buf 14
    if verIhl >>> 4 ≠ 4#8 then pure (net, [])
    else do
      let differ ← frameMemcmp net.buf (14 + 16) net.ourIp 0 4
      if differ ≠ 0 then pure (net, [])
      else do
        let protocol ← frame8 net.buf (14 + 9)
        if protocol = IP_PROTO_ICMP then handleIcmpTraced net len
        else pure (net, [])

def netPollTraced (net : Net) (stack : Mem) (rx : Rx) : Traced Access (Net × List Frame) :=
  let net := receive net rx
  if rx.bytes.length = 0 then pure (net, [])
  else if u16 rx.bytes.length < 14 then pure (net, [])
  else do
    let ethertype ← frame16 net.buf 12
    if ntohs ethertype = ETH_TYPE_ARP then do
      let sent ← handleArpTraced net stack (u16 rx.bytes.length)
      pure (net, sent)
    else if ntohs ethertype = ETH_TYPE_IP then handleIpTraced net (u16 rx.bytes.length)
    else pure (net, [])

/-! ## Erasing the record -/

section Erase

variable (net : Net) (stack : Mem) (len : Nat)

@[simp] theorem frame8_val (frame : Mem) (i : Nat) : (frame8 frame i).val = frame i := rfl

@[simp] theorem frame16_val (frame : Mem) (i : Nat) : (frame16 frame i).val = load16 frame i := rfl

theorem frameMemcmp_val (frame : Mem) (b : Mem) :
    ∀ n i j, (frameMemcmp frame i b j n).val = memcmp frame i b j n
  | 0, _, _ => rfl
  | n + 1, i, j => by
      rw [frameMemcmp, memcmp, val_bind, val_ite, frameMemcmp_val frame b n]
      rfl

theorem handleArpTraced_val : (handleArpTraced net stack len).val = handleArp net stack len := by
  simp only [handleArpTraced, val_ite, val_bind, val_pure, frameMemcmp_val]
  rfl

theorem handleIcmpTraced_val : (handleIcmpTraced net len).val = handleIcmp net len := by
  simp only [handleIcmpTraced, val_ite, val_bind, val_pure]
  rfl

theorem handleIpTraced_val : (handleIpTraced net len).val = handleIp net len := by
  simp only [handleIpTraced, val_ite, val_bind, val_pure, frameMemcmp_val, handleIcmpTraced_val]
  rfl

/-- Without the record, a recorded poll is a poll. -/
theorem netPollTraced_val (rx : Rx) : (netPollTraced net stack rx).val = netPoll net stack rx := by
  simp only [netPollTraced, val_ite, val_bind, val_pure, handleArpTraced_val, handleIpTraced_val]
  rfl

end Erase

/-! ## Bounds -/

/-- The access stays inside the `len` bytes of the frame, inside the buffers, and, for a
checksum, inside the `sent` bytes of the reply. -/
def InBounds (len sent : Nat) : Access → Prop
  | .frame i => i < len
  | .reply i => i < 1518
  | .summed i => i < 1518 ∧ i < sent
  | .arp i => i < 42

instance (len sent : Nat) : DecidablePred (InBounds len sent)
  | .frame i => inferInstanceAs (Decidable (i < len))
  | .reply i => inferInstanceAs (Decidable (i < 1518))
  | .summed i => inferInstanceAs (Decidable (i < 1518 ∧ i < sent))
  | .arp i => inferInstanceAs (Decidable (i < 42))

section Primitives

variable {P : Access → Prop} (buf : Nat → Access)

@[simp] theorem all_frame8 (frame : Mem) (i : Nat) : All P (frame8 frame i) ↔ P (.frame i) := by
  simp [All, frame8]

@[simp] theorem all_frame16 (frame : Mem) (i : Nat) :
    All P (frame16 frame i) ↔ ∀ k < 2, P (.frame (i + k)) :=
  forall_mem_span ..

@[simp] theorem all_copyFrame (reply : Mem) (d : Nat) (frame : Mem) (s n : Nat) :
    All P (copyFrame buf reply d frame s n)
      ↔ (∀ k < n, P (.frame (s + k))) ∧ ∀ k < n, P (buf (d + k)) := by
  simp only [All, copyFrame, List.forall_mem_append, forall_mem_span]

@[simp] theorem all_copyOwn (reply : Mem) (d : Nat) (own : Mem) (n : Nat) :
    All P (copyOwn buf reply d own n) ↔ ∀ k < n, P (buf (d + k)) :=
  forall_mem_span ..

@[simp] theorem all_put8 (reply : Mem) (a : Nat) (v : BitVec 8) :
    All P (put8 buf reply a v) ↔ ∀ k < 1, P (buf (a + k)) :=
  forall_mem_span ..

@[simp] theorem all_put16 (reply : Mem) (a : Nat) (v : BitVec 16) :
    All P (put16 buf reply a v) ↔ ∀ k < 2, P (buf (a + k)) :=
  forall_mem_span ..

@[simp] theorem all_sumReply (reply : Mem) (p len : Nat) :
    All P (sumReply reply p len) ↔ ∀ k < len, P (.summed (p + k)) :=
  forall_mem_span ..

@[simp] theorem all_sendFrame (reply : Mem) (n : Nat) :
    All P (sendFrame buf reply n) ↔ ∀ k < n, P (buf (0 + k)) :=
  forall_mem_span ..

theorem all_frameMemcmp (frame : Mem) (b : Mem) :
    ∀ {n i j : Nat}, (∀ k < n, P (.frame (i + k))) → All P (frameMemcmp frame i b j n)
  | 0, _, _, _ => all_pure _
  | n + 1, i, j, h => by
      rw [frameMemcmp, all_bind, all_frame8, all_ite]
      refine ⟨h 0 (by omega), fun _ => all_pure _, fun _ => all_frameMemcmp frame b fun k hk => ?_⟩
      rw [Nat.add_assoc, Nat.add_comm 1 k]
      exact h (k + 1) (by omega)

end Primitives

section Bounds

variable {net : Net} {stack : Mem} {len sent : Nat}

/-- ARP requests are answered within bounds. -/
theorem handleArp_inBounds : All (InBounds len sent) (handleArpTraced net stack len) := by
  rw [handleArpTraced, all_ite]
  refine ⟨fun _ => all_pure _, fun hlen => ?_⟩
  have hcmp : All (InBounds len sent) (frameMemcmp net.buf (14 + 24) net.ourIp 0 4) :=
    all_frameMemcmp _ _ fun k hk => show 14 + 24 + k < len by omega
  simp only [all_bind, all_ite, all_pure, all_frame16, hcmp, arpReplyTraced, all_copyFrame,
    all_copyOwn, all_put8, all_put16, all_sendFrame, InBounds, implies_true, true_and, and_true]
  refine ⟨fun k hk => by omega, fun _ _ => ?_⟩
  refine ⟨⟨⟨?_, ?_⟩, ?_, ?_, ?_, ?_, ?_, ?_, ?_, ?_, ?_, ⟨?_, ?_⟩, ?_, ?_⟩, ?_⟩
  all_goals exact fun k hk => by omega

/-- An echo reply is built within bounds when the total length covers the header and no
more than the frame, and only then. -/
theorem icmpReply_inBounds_iff {ip : Mem} (hmax : len ≤ 2048) (he : EchoAsked ip net.buf len) :
    All (InBounds len (replyLen net.buf))
        (icmpReplyTraced net (replyLen net.buf) (ipHdrLen net.buf) (icmpLen net.buf))
      ↔ ipHdrLen net.buf ≤ ipTotal net.buf ∧ 14 + ipTotal net.buf ≤ len := by
  have hlen := he.len_le
  have hle := he.reply_le
  have hge := he.hdrLen_ge
  have h60 := ipHdrLen_le net.buf
  have htotal := ipTotal_lt net.buf
  have hreply : replyLen net.buf = (14 + ipTotal net.buf) % 0x10000 := rfl
  simp only [icmpReplyTraced, all_bind, all_copyFrame, all_copyOwn, all_put8, all_put16,
    all_sumReply, InBounds]
  constructor
  · rintro ⟨⟨hcopy, -⟩, -, -, -, -, -, -, hsum, -⟩
    -- the header checksum ends inside the reply, so the length of the reply has not wrapped
    have hlast := (hsum (ipHdrLen net.buf - 1) (by omega)).2
    have hread := hcopy (replyLen net.buf - 1) (by omega)
    omega
  · rintro ⟨hhdr, hframe⟩
    have hil := icmpLen_of_le hhdr
    rw [Nat.mod_eq_of_lt (by omega)] at hreply
    refine ⟨⟨?_, ?_⟩, ⟨?_, ?_⟩, ?_, ⟨?_, ?_⟩, ?_, ?_, ?_, ?_, ?_, ?_, ?_, ?_, ?_⟩
    all_goals exact fun k hk => by omega

theorem handleIcmp_inBounds_iff (hlen : 34 ≤ len) :
    All (InBounds len sent) (handleIcmpTraced net len)
      ↔ (14 + ipHdrLen net.buf + 8 ≤ len →
          net.buf (14 + ipHdrLen net.buf) = ICMP_ECHO_REQUEST → replyLen net.buf ≤ 1518 →
            All (InBounds len sent) (icmpReplyTraced net (replyLen net.buf) (ipHdrLen net.buf)
              (icmpLen net.buf))) := by
  have hh : (net.buf 14 &&& 0x0F#8).toNat * 4 = ipHdrLen net.buf := rfl
  have ht : (ntohs (load16 net.buf 16)).toNat = ipTotal net.buf := rfl
  have hr : u16 (14 + ipTotal net.buf) = replyLen net.buf := rfl
  have hi : u16 (ipTotal net.buf + 0x10000 - ipHdrLen net.buf) = icmpLen net.buf := rfl
  simp only [handleIcmpTraced, all_bind, all_ite, all_pure, all_frame8, all_frame16, all_sendFrame]
  simp only [frame8_val, frame16_val, Nat.reduceAdd, hh, ht, hr, hi, InBounds, not_lt, not_not,
    implies_true, true_and, and_true]
  constructor
  · rintro ⟨-, -, h⟩ h1 h2 h3
    exact ((h h1).2 h2 h3).1
  · intro h
    exact ⟨by omega, fun k hk => by omega, fun h1 => ⟨by omega, fun h2 h3 =>
      ⟨h h1 h2 h3, fun k hk => by omega⟩⟩⟩

theorem handleIp_inBounds_iff :
    All (InBounds len sent) (handleIpTraced net len)
      ↔ (34 ≤ len → net.buf 14 >>> 4 = 4#8 → memcmp net.buf 30 net.ourIp 0 4 = 0 →
          net.buf 23 = IP_PROTO_ICMP → All (InBounds len sent) (handleIcmpTraced net len)) := by
  rw [handleIpTraced, all_ite, Nat.not_lt]
  have hcmp : 34 ≤ len → All (InBounds len sent) (frameMemcmp net.buf 30 net.ourIp 0 4) :=
    fun hlen => all_frameMemcmp _ _ fun k hk => show 30 + k < len by omega
  simp only [all_bind, all_ite, all_pure, all_frame8]
  simp only [frame8_val, frameMemcmp_val, Nat.reduceAdd, InBounds, not_not, implies_true, true_and,
    and_true]
  constructor
  · intro h hlen h1 h2 h3
    exact (((h hlen).2 h1).2 h2).2 h3
  · intro h hlen
    exact ⟨by omega, fun h1 => ⟨hcmp hlen, fun h2 => ⟨by omega, h hlen h1 h2⟩⟩⟩

/-- Only an answered echo request can lead out of bounds. -/
theorem netPoll_inBounds_iff (rx : Rx) :
    All (InBounds rx.bytes.length sent) (netPollTraced net stack rx)
      ↔ (EchoAsked net.ourIp (receive net rx).buf rx.bytes.length →
          All (InBounds rx.bytes.length sent) (icmpReplyTraced (receive net rx)
            (replyLen (receive net rx).buf) (ipHdrLen (receive net rx).buf)
            (icmpLen (receive net rx).buf))) := by
  have hlen : u16 rx.bytes.length = rx.bytes.length :=
    u16_of_lt (Nat.lt_of_le_of_lt rx.length_le (by decide))
  have hip : (receive net rx).ourIp = net.ourIp := rfl
  have hne : ETH_TYPE_IP ≠ ETH_TYPE_ARP := by decide
  simp only [netPollTraced, hlen, ← hip]
  generalize receive net rx = net
  generalize rx.bytes.length = len
  have htype : ntohs (load16 net.buf 12) = etherType net.buf := rfl
  simp only [all_bind, all_ite, all_pure, all_frame16, handleArp_inBounds, handleIp_inBounds_iff]
  simp only [frame16_val, htype, InBounds, not_lt, implies_true, true_and, and_true]
  constructor
  · intro h he
    have h34 := he.len_le
    have hicmp := (h (by omega) (by omega)).2 (fun harp => hne (he.type.symm.trans harp)) he.type
      h34 he.version he.target he.protocol
    exact (handleIcmp_inBounds_iff h34).mp hicmp he.icmp_le he.request he.reply_le
  · intro h _ h14
    refine ⟨fun k hk => by omega, fun _ htype h34 hver htgt hproto => ?_⟩
    exact (handleIcmp_inBounds_iff h34).mpr fun hicmp hreq hle =>
      h ⟨h34, htype, hver, htgt, hproto, hicmp, hreq, hle⟩

end Bounds

/-- **Bounds of a poll.** Whatever the buffers hold, every access of a poll is in bounds
exactly when an echo request that is answered announces a total length that covers its
header and ends within the frame. -/
theorem net_poll_in_bounds_iff (net : Net) (stack : Mem) (rx : Rx) :
    All (InBounds rx.bytes.length (replyLen (receive net rx).buf)) (netPollTraced net stack rx)
      ↔ (EchoAsked net.ourIp (receive net rx).buf rx.bytes.length →
          ipHdrLen (receive net rx).buf ≤ ipTotal (receive net rx).buf
            ∧ 14 + ipTotal (receive net rx).buf ≤ rx.bytes.length) := by
  rw [netPoll_inBounds_iff]
  exact forall_congr' fun he => icmpReply_inBounds_iff rx.length_le he

/-- The stack of the sample pings with cleared buffers. -/
def sampleNet : Net := ⟨sampleMac, sampleIp, fun _ => 0#8, fun _ => 0#8⟩

/-- A 42-byte ping that announces 100 bytes makes the stack read behind the frame; one
that announces 10 makes it sum bytes that it does not send. -/
theorem ping_leaves_bounds :
    ¬All (InBounds (pingRx 100#8).bytes.length (replyLen (receive sampleNet (pingRx 100#8)).buf))
        (netPollTraced sampleNet (fun _ => 0#8) (pingRx 100#8))
      ∧ ¬All (InBounds (pingRx 10#8).bytes.length (replyLen (receive sampleNet (pingRx 10#8)).buf))
        (netPollTraced sampleNet (fun _ => 0#8) (pingRx 10#8)) :=
  ⟨fun h => absurd (h (.frame 42) (by decide +kernel)) (by decide +kernel),
    fun h => absurd (h (.summed 24) (by decide +kernel)) (by decide +kernel)⟩

end Matryoshka
