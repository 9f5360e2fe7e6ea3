import Matryoshka.Net

/-!
# What one poll sends

`net_poll` sends at most one frame, and a stack that receives this frame
sends nothing. The frame depends only on the bytes received, unless an
echo request announces more bytes than it has, or a total length that
ends inside a header with options: then leftovers of earlier packets get
into the reply or into its checksum.
-/

namespace Matryoshka

open ByteMem

/-! ## The received bytes -/

section Received

variable {ip frame frame' : Mem} {len : Nat}

theorem ipHdrLen_congr (h : frame 14 = frame' 14) : ipHdrLen frame = ipHdrLen frame' := by
  rw [ipHdrLen, ipHdrLen, h]

theorem etherType_congr (h : ∀ i < 14, frame i = frame' i) : etherType frame = etherType frame' :=
  congrArg ntohs (load16_congr (h 12 (by decide)) (h 13 (by decide)))

theorem ipTotal_congr (h : ∀ i < 18, frame i = frame' i) : ipTotal frame = ipTotal frame' := by
  rw [ipTotal, ipTotal, load16_congr (h 16 (by decide)) (h 17 (by decide))]

theorem replyLen_congr (h : ∀ i < 18, frame i = frame' i) : replyLen frame = replyLen frame' := by
  rw [replyLen, replyLen, ipTotal_congr h]

theorem icmpLen_congr (h : ∀ i < 18, frame i = frame' i) : icmpLen frame = icmpLen frame' := by
  rw [icmpLen, icmpLen, ipTotal_congr h, ipHdrLen_congr (h 14 (by decide))]

/-- Whether an ARP request is answered is decided by the received bytes. -/
theorem ArpAsked.congr (h : ∀ i < len, frame i = frame' i) (ha : ArpAsked ip frame len) :
    ArpAsked ip frame' len := by
  have hlen := ha.len_le
  refine ⟨hlen, ?_, ?_, ?_⟩
  · rw [← etherType_congr fun i hi => h i (by omega), ha.type]
  · rw [arpOperation, ← load16_congr (h 20 (by omega)) (h 21 (by omega))]
    exact ha.operation
  · rw [← memcmp_congr ip 0 fun k _ hk => h k (by omega), ha.target]

/-- Whether an echo request is answered is decided by the received bytes. -/
theorem EchoAsked.congr (h : ∀ i < len, frame i = frame' i) (he : EchoAsked ip frame len) :
    EchoAsked ip frame' len := by
  have hlen := he.len_le
  have hicmp := he.icmp_le
  have hhdr : ipHdrLen frame = ipHdrLen frame' := ipHdrLen_congr (h 14 (by omega))
  refine ⟨hlen, ?_, ?_, ?_, ?_, hhdr ▸ hicmp, ?_, ?_⟩
  · rw [← etherType_congr fun i hi => h i (by omega), he.type]
  · rw [← h 14 (by omega), he.version]
  · rw [← memcmp_congr ip 0 fun k _ hk => h k (by omega), he.target]
  · rw [← h 23 (by omega), he.protocol]
  · rw [← hhdr, ← h _ (by omega), he.request]
  · rw [← replyLen_congr fun i hi => h i (by omega)]
    exact he.reply_le

/-- The header has at least one word: a request type in byte 14 is no version 4. -/
theorem EchoAsked.hdrLen_ge (he : EchoAsked ip frame len) : 4 ≤ ipHdrLen frame := by
  by_contra hlt
  have h0 : ipHdrLen frame = 0 := by
    unfold ipHdrLen at hlt ⊢
    omega
  have hreq := he.request
  have hver := he.version
  rw [h0] at hreq
  rw [hreq] at hver
  exact absurd hver (by decide)

end Received

theorem receive_of_lt (net : Net) (rx : Rx) {i : Nat} (h : i < rx.bytes.length) :
    (receive net rx).buf i = rx.bytes[i] := by
  simp [receive, h]

theorem receive_of_ge (net : Net) (rx : Rx) {i : Nat} (h : rx.bytes.length ≤ i) :
    (receive net rx).buf i = net.buf i := by
  simp [receive, h]

theorem receive_agree (net net' : Net) (rx : Rx) {i : Nat} (h : i < rx.bytes.length) :
    (receive net rx).buf i = (receive net' rx).buf i := by
  rw [receive_of_lt net rx h, receive_of_lt net' rx h]

/-! ## The bytes of a reply -/

/-- The bytes of the reply headers that are written field by field. -/
def Fixed (i : Nat) : Prop := i < 12 ∨ i = 22 ∨ 24 ≤ i ∧ i < 34

section Reply

variable {net net' : Net} {i : Nat}

/-- Outside the time to live and the checksum the last of the five copies counts. -/
theorem replyHeaders_copied (httl : i ≠ 22) (hsum : ¬(24 ≤ i ∧ i < 26)) :
    replyHeaders net i =
      if 26 ≤ i ∧ i < 30 then net.ourIp (i - 26)
      else if 30 ≤ i ∧ i < 34 then net.buf (26 + (i - 30))
      else if 6 ≤ i ∧ i < 12 then net.ourMac (i - 6)
      else if i < 6 then net.buf (6 + i)
      else if i < replyLen net.buf then net.buf i else net.reply i := by
  simp only [replyHeaders]
  rw [store16_of_outside (by omega), store8_of_ne httl]
  simp only [copyUp_apply, Nat.zero_add, Nat.sub_zero, Nat.zero_le, true_and, Nat.reduceAdd]

/-- The other bytes are copied from the frame, or left from an earlier reply. -/
theorem replyHeaders_other (h : ¬Fixed i) :
    replyHeaders net i = if i < replyLen net.buf then net.buf i else net.reply i := by
  unfold Fixed at h
  rw [replyHeaders_copied (by omega) (by omega), if_neg (by omega), if_neg (by omega),
    if_neg (by omega), if_neg (by omega)]

theorem replyHeaders_ttl : replyHeaders net 22 = 64#8 := by
  simp only [replyHeaders]
  rw [store16_of_outside (by omega), store8_self]

/-- The writes after the reply headers. -/
theorem icmpReply_of_outside (h : ¬(24 ≤ i ∧ i < 26)) (htype : i ≠ 14 + ipHdrLen net.buf)
    (hsum : ¬(16 + ipHdrLen net.buf ≤ i ∧ i < 18 + ipHdrLen net.buf)) :
    icmpReply net i = replyHeaders net i := by
  rw [icmpReply, sealIcmp, store16_of_outside (by omega), echoHeader,
    store16_of_outside (by omega), store8_of_ne htype, sealIp, store16_of_outside (by omega)]

/-- Below the ICMP header only the IP checksum is still to be written. -/
theorem icmpReply_of_lt (h : i < 14 + ipHdrLen net.buf) :
    icmpReply net i = sealIp (replyHeaders net) (ipHdrLen net.buf) i := by
  rw [icmpReply, sealIcmp, store16_of_outside (by omega), echoHeader,
    store16_of_outside (by omega), store8_of_ne (by omega)]

theorem icmpReply_type : icmpReply net (14 + ipHdrLen net.buf) = ICMP_ECHO_REPLY := by
  rw [icmpReply, sealIcmp, store16_of_outside (by omega), echoHeader,
    store16_of_outside (by omega), store8_self]

/-- Every byte of an ARP reply is written. -/
theorem arpReply_agree (hmac : net.ourMac = net'.ourMac) (hip : net.ourIp = net'.ourIp)
    (hbuf : ∀ i < 42, net.buf i = net'.buf i) (stack stack' : Mem) :
    bytesAt (arpReply net stack) 0 42 = bytesAt (arpReply net' stack') 0 42 := by
  have key : Agree (fun i => i < 42) (arpReply net stack) (arpReply net' stack') := by
    simp only [arpReply, hmac, hip]
    refine .copyUp (.copyUp (.copyUp (.copyUp (.store16 (.store8 (.store8 (.store16 (.store16
      (.store16 (.copyUp (.copyUp (fun i hi => ?_) ?_) ?_))))))) ?_) ?_) ?_) ?_
    · omega
    · exact fun k hk => hbuf _ (by omega)
    · exact fun _ _ => rfl
    · exact fun _ _ => rfl
    · exact fun _ _ => rfl
    · exact fun k hk => hbuf _ (by omega)
    · exact fun k hk => hbuf _ (by omega)
  exact bytesAt_congr fun i hi => key _ (by omega)

/-- Two replies to the same received bytes agree, up to the IP checksum, on the copied
part and on the fields. -/
theorem replyHeaders_agree {len : Nat} (hmac : net.ourMac = net'.ourMac)
    (hip : net.ourIp = net'.ourIp) (hbuf : ∀ i < len, net.buf i = net'.buf i) (hlen : 34 ≤ len)
    (hle : replyLen net.buf ≤ len) :
    Agree (fun i => i < replyLen net.buf ∨ Fixed i) (replyHeaders net) (replyHeaders net') := by
  have hreply : replyLen net'.buf = replyLen net.buf :=
    (replyLen_congr fun i hi => hbuf i (by omega)).symm
  simp only [replyHeaders, hmac, hip, hreply]
  refine .store16 (.store8 (.copyUp (.copyUp (.copyUp (.copyUp (.copyUp
    (fun i hi => ?_) ?_) ?_) ?_) ?_) ?_))
  · unfold Fixed at hi
    omega
  · exact fun k hk => hbuf _ (by omega)
  · exact fun k hk => hbuf _ (by omega)
  · exact fun _ _ => rfl
  · exact fun k hk => hbuf _ (by omega)
  · exact fun _ _ => rfl

/-- A byte behind the copied part that no field covers stays from the earlier reply. -/
theorem replyHeaders_bump (net : Net) (reply : Mem) {q : Nat} (hq : ¬Fixed q)
    (hle : replyLen net.buf ≤ q) (hne : ∀ i, i ≠ q → net.reply i = reply i) :
    replyHeaders net q = net.reply q ∧ replyHeaders { net with reply := reply } q = reply q
      ∧ ∀ i, i ≠ q → replyHeaders net i = replyHeaders { net with reply := reply } i := by
  refine ⟨?_, ?_, fun i hi => ?_⟩
  · rw [replyHeaders_other hq, if_neg (Nat.not_lt.mpr hle)]
  · rw [replyHeaders_other hq, if_neg (Nat.not_lt.mpr hle)]
  · have key : Agree (· ≠ q) (replyHeaders net) (replyHeaders { net with reply := reply }) := by
      simp only [replyHeaders]
      refine .store16 (.store8 (.copyUp (.copyUp (.copyUp (.copyUp (.copyUp
        (fun i hi => hne i ?_) ?_) ?_) ?_) ?_) ?_))
      · exact hi.1.1.1.1.1.1.1
      all_goals exact fun _ _ => rfl
    exact key i hi

section Seal

variable {P : Nat → Prop} {r r' : Mem} {hdrLen len : Nat}

theorem sealIp_agree (h : Agree P r r') (hP : ∀ i, 14 ≤ i → i < 14 + hdrLen → P i) :
    Agree P (sealIp r hdrLen) (sealIp r' hdrLen) := by
  have hsum : ipChecksum r' 14 hdrLen = ipChecksum r 14 hdrLen :=
    (Checksum.checksum_congr fun i h1 h2 => h i (hP i h1 h2)).symm
  rw [sealIp, sealIp, hsum]
  exact .store16 fun i hi => h i hi.1

theorem sealIcmp_agree (h : Agree P r r')
    (hP : ∀ i, 14 + hdrLen ≤ i → i < 14 + hdrLen + len → P i) :
    Agree P (sealIcmp (echoHeader r hdrLen) hdrLen len)
      (sealIcmp (echoHeader r' hdrLen) hdrLen len) := by
  have hecho : Agree P (echoHeader r hdrLen) (echoHeader r' hdrLen) :=
    .store16 (.store8 fun i hi => h i hi.1.1)
  have hsum : ipChecksum (echoHeader r' hdrLen) (14 + hdrLen) len
      = ipChecksum (echoHeader r hdrLen) (14 + hdrLen) len :=
    (Checksum.checksum_congr fun i h1 h2 => hecho i (hP i h1 h2)).symm
  rw [sealIcmp, sealIcmp, hsum]
  exact .store16 fun i hi => hecho i hi.1

end Seal

/-- The lengths in `frame` let earlier contents into the reply: it is longer than the
frame, or the header checksum covers bytes behind it and is still sent. -/
def Exposed (frame : Mem) (len : Nat) : Prop :=
  len < replyLen frame
    ∨ 20 < ipHdrLen frame ∧ 11 ≤ ipTotal frame ∧ ipTotal frame < ipHdrLen frame

theorem Exposed.congr {frame frame' : Mem} {len : Nat} (h : ∀ i < 18, frame i = frame' i)
    (hex : Exposed frame len) : Exposed frame' len := by
  unfold Exposed at hex ⊢
  rwa [← replyLen_congr h, ← ipTotal_congr h, ← ipHdrLen_congr (h 14 (by decide))]

/-- Without such lengths two replies to the same received bytes are equal. -/
theorem icmpReply_agree {ip : Mem} {len : Nat} (hmac : net.ourMac = net'.ourMac)
    (hip : net.ourIp = net'.ourIp) (hbuf : ∀ i < len, net.buf i = net'.buf i)
    (he : EchoAsked ip net.buf len) (hex : ¬Exposed net.buf len) :
    bytesAt (icmpReply net) 0 (replyLen net.buf)
      = bytesAt (icmpReply net') 0 (replyLen net'.buf) := by
  have hlen := he.len_le
  have hle : replyLen net.buf ≤ len := Nat.le_of_not_lt fun h => hex (Or.inl h)
  have hhdr : ipHdrLen net'.buf = ipHdrLen net.buf := (ipHdrLen_congr (hbuf 14 (by omega))).symm
  have hicmp : icmpLen net'.buf = icmpLen net.buf :=
    (icmpLen_congr fun i hi => hbuf i (by omega)).symm
  have hreply : replyLen net'.buf = replyLen net.buf :=
    (replyLen_congr fun i hi => hbuf i (by omega)).symm
  have hagree := replyHeaders_agree hmac hip hbuf hlen hle
  have htotal := ipTotal_lt net.buf
  have hh := ipHdrLen_le net.buf
  rw [hreply]
  refine bytesAt_congr fun i hi => ?_
  rw [Nat.zero_add]
  have hrep : replyLen net.buf = (14 + ipTotal net.buf) % 0x10000 := rfl
  by_cases hwrap : 14 + ipTotal net.buf < 0x10000
  · rw [Nat.mod_eq_of_lt hwrap] at hrep
    by_cases hshort : ipTotal net.buf < ipHdrLen net.buf
    · -- the reply ends inside the IP header
      rw [icmpReply_of_lt (by omega), icmpReply_of_lt (by omega), hhdr]
      by_cases h24 : ipTotal net.buf < 11
      · rw [sealIp, sealIp, store16_of_outside (by omega), store16_of_outside (by omega)]
        exact hagree i (Or.inl hi)
      · have hsmall : ipHdrLen net.buf ≤ 20 := by
          by_contra hbig
          exact hex (Or.inr ⟨by omega, by omega, hshort⟩)
        refine sealIp_agree hagree (fun k h1 h2 => ?_) i (Or.inl hi)
        unfold Fixed
        omega
    · -- both checksums cover bytes of the reply only
      have hil := icmpLen_of_le (Nat.le_of_not_lt hshort)
      rw [icmpReply, icmpReply, hhdr, hicmp]
      refine sealIcmp_agree (sealIp_agree hagree fun k h1 h2 => Or.inl ?_)
        (fun k h1 h2 => Or.inl ?_) i (Or.inl hi)
      · omega
      · omega
  · -- a wrapped length leaves less than an Ethernet header
    rw [icmpReply_of_outside (by omega) (by omega) (by omega),
      icmpReply_of_outside (by omega) (by omega) (by omega)]
    exact hagree i (Or.inl hi)

end Reply

/-! ## Leftovers of earlier packets -/

/-- The received bytes alone. -/
def Rx.mem (rx : Rx) : Mem := fun i => rx.bytes.getD i 0#8

theorem rx_mem_agree (net : Net) (rx : Rx) {i : Nat} (h : i < rx.bytes.length) :
    rx.mem i = (receive net rx).buf i := by
  rw [receive_of_lt net rx h]
  simp [Rx.mem, h]

/-- The lengths that a poll uses are those of the received bytes. -/
theorem receive_lengths (net : Net) {rx : Rx} (h : 18 ≤ rx.bytes.length) :
    ipHdrLen (receive net rx).buf = ipHdrLen rx.mem
      ∧ replyLen (receive net rx).buf = replyLen rx.mem :=
  ⟨(ipHdrLen_congr (rx_mem_agree net rx (by omega))).symm,
    (replyLen_congr fun i hi => rx_mem_agree net rx (by omega)).symm⟩

/-- Two polls that differ in the leftovers of the two buffers, and in the stack, send
the same frames. -/
def SameFrames (mac ip : Mem) (rx : Rx) : Prop :=
  ∀ buf buf' reply reply' stack stack' : Mem,
    (∀ i, 2048 ≤ i → buf i = buf' i) → (∀ i, 1518 ≤ i → reply i = reply' i) →
      (netPoll ⟨mac, ip, buf, reply⟩ stack rx).2 = (netPoll ⟨mac, ip, buf', reply'⟩ stack' rx).2

section Leftovers

variable {mac ip : Mem} {rx : Rx}

theorem netPoll_echo {net : Net} (stack : Mem) (he : EchoAsked net.ourIp rx.mem rx.bytes.length) :
    (netPoll net stack rx).2
      = [bytesAt (icmpReply (receive net rx)) 0 (replyLen (receive net rx).buf)] := by
  have he' := he.congr fun i hi => rx_mem_agree net rx hi
  rcases netPoll_cases net stack rx with ⟨-, -, h⟩ | ⟨h, -⟩ | ⟨-, h⟩
  · exact absurd he' h
  · exact absurd (he'.type.symm.trans h.type) (by decide)
  · exact h

/-- Bytes behind the received ones are sent when the reply is longer than the frame. -/
theorem long_reply_leaks (he : EchoAsked ip rx.mem rx.bytes.length)
    (hlong : rx.bytes.length < replyLen rx.mem) : ¬SameFrames mac ip rx := by
  intro hsame
  have hle := he.reply_le
  have hlen := he.len_le
  have hicmp := he.icmp_le
  have hsent := hsame (fun _ => 0#8) (store8 (fun _ => 0#8) rx.bytes.length 1#8) (fun _ => 0#8)
    (fun _ => 0#8) (fun _ => 0#8) (fun _ => 0#8)
    (fun i hi => (if_neg (show ¬i = rx.bytes.length by omega)).symm) fun _ _ => rfl
  rw [netPoll_echo _ he, netPoll_echo _ he] at hsent
  -- byte `len` of the reply is byte `len` of the buffer
  have hbyte : ∀ net : Net, (bytesAt (icmpReply (receive net rx)) 0
      (replyLen (receive net rx).buf))[rx.bytes.length]? = some (net.buf rx.bytes.length) := by
    intro net
    obtain ⟨hhdr, hreply⟩ := receive_lengths net (show 18 ≤ rx.bytes.length by omega)
    rw [bytesAt_getElem? _ _ (by omega), Nat.zero_add,
      icmpReply_of_outside (by omega) (by omega) (by omega),
      replyHeaders_other (by unfold Fixed; omega), if_pos (by omega), receive_of_ge net rx le_rfl]
  have := congrArg (·[rx.bytes.length]?) (List.cons.inj hsent).1
  simp only [hbyte, store8_self] at this
  cases this

/-- The last header byte behind a short reply that the checksum shows: in its half word it
has the place of a checksum byte that is sent. -/
theorem exists_summed_byte {hdr total : Nat} (h4 : hdr % 4 = 0) (hopt : 20 < hdr)
    (h11 : 11 ≤ total) (hshort : total < hdr) :
    ∃ q, 14 + total ≤ q ∧ q < 14 + hdr ∧ 34 ≤ q
      ∧ ((q - 14) % 2 = 0 ∨ (q - 14) % 2 ≠ 0 ∧ 12 ≤ total) := by
  by_cases h : total + 2 ≤ hdr
  · exact ⟨12 + hdr, by omega, by omega, by omega, by omega⟩
  · exact ⟨13 + hdr, by omega, by omega, by omega, by omega⟩

/-- Bytes left from an earlier reply are sent in the header checksum when the total
length ends inside the options. -/
theorem short_total_leaks (he : EchoAsked ip rx.mem rx.bytes.length)
    (hopt : 20 < ipHdrLen rx.mem) (h11 : 11 ≤ ipTotal rx.mem)
    (hshort : ipTotal rx.mem < ipHdrLen rx.mem) : ¬SameFrames mac ip rx := by
  intro hsame
  have hh := ipHdrLen_le rx.mem
  have hlen := he.len_le
  obtain ⟨q, hq1, hq2, hq, hq3⟩ :=
    exists_summed_byte (Nat.mul_mod_left _ _ : ipHdrLen rx.mem % 4 = 0) hopt h11 hshort
  have hsent := hsame (fun _ => 0#8) (fun _ => 0#8) (fun _ => 0#8) (store8 (fun _ => 0#8) q 1#8)
    (fun _ => 0#8) (fun _ => 0#8) (fun _ _ => rfl)
    fun i hi => (if_neg (show ¬i = q by omega)).symm
  rw [netPoll_echo _ he, netPoll_echo _ he] at hsent
  have hbytes := (List.cons.inj hsent).1
  -- from here on only the two headers matter
  have hhdr : ∀ net : Net, ipHdrLen (receive net rx).buf = ipHdrLen rx.mem := fun net =>
    (receive_lengths net (by omega)).1
  have hreply : ∀ net : Net, replyLen (receive net rx).buf = 14 + ipTotal rx.mem := fun net =>
    (receive_lengths net (by omega)).2.trans (replyLen_of_lt (by omega))
  have hsum : ∀ (net : Net) (i : Nat), i < 14 + ipTotal rx.mem →
      (bytesAt (icmpReply (receive net rx)) 0 (replyLen (receive net rx).buf))[i]?
        = some (sealIp (replyHeaders (receive net rx)) (ipHdrLen rx.mem) i) := by
    intro net i hi
    rw [bytesAt_getElem? _ _ (by rw [hreply]; exact hi), Nat.zero_add,
      icmpReply_of_lt (by rw [hhdr]; omega), hhdr]
  obtain ⟨h0, h1, hne⟩ := replyHeaders_bump
    (receive ⟨mac, ip, fun _ => 0#8, fun _ => 0#8⟩ rx) (store8 (fun _ => 0#8) q 1#8)
    (q := q) (by unfold Fixed; omega) (by rw [hreply]; omega)
    fun i hi => (if_neg hi).symm
  have hpos : 0 < Checksum.total
      (replyHeaders (receive ⟨mac, ip, fun _ => 0#8, fun _ => 0#8⟩ rx)) 14 (ipHdrLen rx.mem) :=
    Checksum.total_pos (i := 22) (by rw [replyHeaders_ttl]; decide) (by omega) (by omega)
  rcases hq3 with heven | ⟨hodd, h12⟩
  · have h24 := congrArg (·[24]?) hbytes
    simp only [hsum _ 24 (by omega), Option.some.injEq, sealIp] at h24
    exact Checksum.checksum_bump_low (by omega) hpos h0 (h1.trans (store8_self ..)) hne (by omega)
      hq2 heven h24
  · have h25 := congrArg (·[25]?) hbytes
    simp only [hsum _ 25 (by omega), Option.some.injEq, sealIp] at h25
    exact Checksum.checksum_bump_high (by omega) hpos h0 (h1.trans (store8_self ..)) hne
      (by omega) hq2 hodd h25

/-- Nothing but the received bytes is sent, exactly when the frame is no answered echo
request with exposing lengths. -/
theorem net_poll_leaks_nothing_iff (mac ip : Mem) (rx : Rx) :
    SameFrames mac ip rx ↔
      ¬(EchoAsked ip rx.mem rx.bytes.length ∧ Exposed rx.mem rx.bytes.length) := by
  constructor
  · rintro hsame ⟨he, hlong | ⟨hopt, h11, hshort⟩⟩
    · exact long_reply_leaks he hlong hsame
    · exact short_total_leaks he hopt h11 hshort hsame
  · intro hno buf buf' reply reply' stack stack' _ _
    generalize hn : (⟨mac, ip, buf, reply⟩ : Net) = net
    generalize hn' : (⟨mac, ip, buf', reply'⟩ : Net) = net'
    have hmac : (receive net rx).ourMac = (receive net' rx).ourMac := by rw [← hn, ← hn']; rfl
    have hip : net.ourIp = ip := by rw [← hn]
    have hip' : net'.ourIp = ip := by rw [← hn']
    have hbuf : ∀ i < rx.bytes.length, (receive net rx).buf i = (receive net' rx).buf i :=
      fun i hi => receive_agree net net' rx hi
    have hback : ∀ i < rx.bytes.length, (receive net' rx).buf i = (receive net rx).buf i :=
      fun i hi => (hbuf i hi).symm
    have hips : (receive net rx).ourIp = (receive net' rx).ourIp := hip.trans hip'.symm
    have hc := netPoll_cases net stack rx
    have hc' := netPoll_cases net' stack' rx
    rw [hip] at hc
    rw [hip'] at hc'
    rcases hc with ⟨h, harp, hecho⟩ | ⟨ha, h⟩ | ⟨he, h⟩
    · rcases hc' with ⟨h', -, -⟩ | ⟨ha', -⟩ | ⟨he', -⟩
      · rw [h, h']
      · exact absurd (ha'.congr hback) harp
      · exact absurd (he'.congr hback) hecho
    · rcases hc' with ⟨-, harp, -⟩ | ⟨-, h'⟩ | ⟨he', -⟩
      · exact absurd (ha.congr hbuf) harp
      · have hlen := ha.len_le
        rw [h, h', arpReply_agree hmac hips fun i hi => hbuf i (by omega)]
      · exact absurd ((ha.congr hbuf).type.symm.trans he'.type) (by decide)
    · rcases hc' with ⟨-, -, hecho⟩ | ⟨ha', -⟩ | ⟨-, h'⟩
      · exact absurd (he.congr hbuf) hecho
      · exact absurd ((he.congr hbuf).type.symm.trans ha'.type) (by decide)
      · have hmem : ∀ i < rx.bytes.length, (receive net rx).buf i = rx.mem i :=
          fun i hi => (rx_mem_agree net rx hi).symm
        have hlen := he.len_le
        have hex : ¬Exposed (receive net rx).buf rx.bytes.length := fun hex =>
          hno ⟨he.congr hmem, hex.congr fun i hi => hmem i (by omega)⟩
        rw [h, h', icmpReply_agree hmac hips hbuf he hex]

end Leftovers

/-! ## Replies are not answered -/

section Storm

variable {net : Net} {stack : Mem} {rx : Rx}

theorem rx_mem_bytesAt {m : Mem} {n : Nat} (h : (bytesAt m 0 n).length ≤ 2048) {i : Nat}
    (hi : i < n) : Rx.mem ⟨bytesAt m 0 n, h⟩ i = m i := by
  rw [Rx.mem, getD_bytesAt _ _ hi, Nat.zero_add]

theorem arpReply_type : etherType (arpReply net stack) = ETH_TYPE_ARP := by
  have h12 : arpReply net stack 12 = 0x08#8 := by
    simp [arpReply, copyUp_apply, store16, store8, htons, ETH_TYPE_ARP]
  have h13 : arpReply net stack 13 = 0x06#8 := by
    simp [arpReply, copyUp_apply, store16, store8, htons, ETH_TYPE_ARP]
  rw [etherType, load16, h12, h13]
  rfl

theorem arpReply_operation : arpOperation (arpReply net stack) = ARP_OP_REPLY := by
  have h20 : arpReply net stack 20 = 0x00#8 := by
    simp [arpReply, copyUp_apply, store16, store8, htons, ARP_OP_REPLY]
  have h21 : arpReply net stack 21 = 0x02#8 := by
    simp [arpReply, copyUp_apply, store16, store8, htons, ARP_OP_REPLY]
  rw [arpOperation, load16, h20, h21]
  rfl

/-- A frame that asks for nothing is not answered. -/
theorem netPoll_silent (harp : ¬ArpAsked net.ourIp rx.mem rx.bytes.length)
    (hecho : ¬EchoAsked net.ourIp rx.mem rx.bytes.length) : (netPoll net stack rx).2 = [] := by
  have hmem : ∀ i < rx.bytes.length, (receive net rx).buf i = rx.mem i :=
    fun i hi => (rx_mem_agree net rx hi).symm
  rcases netPoll_cases net stack rx with ⟨h, -⟩ | ⟨ha, -⟩ | ⟨he, -⟩
  · exact h
  · exact absurd (ha.congr hmem) harp
  · exact absurd (he.congr hmem) hecho

theorem arpReply_silent (ip : Mem) {n : Nat} :
    ¬ArpAsked ip (arpReply net stack) n ∧ ¬EchoAsked ip (arpReply net stack) n := by
  refine ⟨fun h => ?_, fun h => ?_⟩
  · exact absurd (h.operation.symm.trans arpReply_operation) (by decide)
  · exact absurd (h.type.symm.trans arpReply_type) (by decide)

/-- An echo reply keeps the type and the header length of the request, so the ICMP type
is read where it was cleared. -/
theorem icmpReply_silent {ip : Mem} {len : Nat} (he : EchoAsked ip net.buf len) (ip' : Mem) :
    ¬ArpAsked ip' (icmpReply net) (replyLen net.buf)
      ∧ ¬EchoAsked ip' (icmpReply net) (replyLen net.buf) := by
  have hhdr := he.hdrLen_ge
  have hcopy : ∀ i, 12 ≤ i → i < 15 → i < replyLen net.buf → icmpReply net i = net.buf i := by
    intro i h1 h2 h3
    rw [icmpReply_of_outside (by omega) (by omega) (by omega),
      replyHeaders_other (by unfold Fixed; omega), if_pos h3]
  have htype : 14 ≤ replyLen net.buf → etherType (icmpReply net) = ETH_TYPE_IP := by
    intro h14
    rw [← he.type]
    exact congrArg ntohs (load16_congr (hcopy 12 (by omega) (by omega) (by omega))
      (hcopy 13 (by omega) (by omega) (by omega)))
  refine ⟨fun h => ?_, fun h => ?_⟩
  · have hlen := h.len_le
    exact absurd (h.type.symm.trans (htype (by omega))) (by decide)
  · have hlen := h.len_le
    have hsame : ipHdrLen (icmpReply net) = ipHdrLen net.buf :=
      ipHdrLen_congr (hcopy 14 (by omega) (by omega) (by omega))
    have hreq := h.request
    rw [hsame, icmpReply_type] at hreq
    exact absurd hreq (by decide)

/-- Bytes of `m` received again ask for no more than `m` does. -/
theorem bytesAt_silent {ip m : Mem} {n : Nat} (h : (bytesAt m 0 n).length ≤ 2048)
    (hm : ¬ArpAsked ip m n ∧ ¬EchoAsked ip m n) :
    ¬ArpAsked ip (Rx.mem ⟨bytesAt m 0 n, h⟩) (bytesAt m 0 n).length
      ∧ ¬EchoAsked ip (Rx.mem ⟨bytesAt m 0 n, h⟩) (bytesAt m 0 n).length := by
  rw [bytesAt_length]
  exact ⟨fun ha => hm.1 (ha.congr fun i hi => rx_mem_bytesAt h hi),
    fun he => hm.2 (he.congr fun i hi => rx_mem_bytesAt h hi)⟩

/-- **No packet storms.** A poll sends at most one frame, and no stack that receives this
frame, whatever its addresses and buffers, sends anything. -/
theorem net_no_storm (net : Net) (stack : Mem) (rx : Rx) :
    (netPoll net stack rx).2.length ≤ 1
      ∧ ∀ f ∈ (netPoll net stack rx).2, ∃ h : f.length ≤ 2048,
          ∀ (net' : Net) (stack' : Mem), (netPoll net' stack' ⟨f, h⟩).2 = [] := by
  rcases netPoll_cases net stack rx with ⟨h, -⟩ | ⟨-, h⟩ | ⟨he, h⟩
  · rw [h]
    exact ⟨by decide, nofun⟩
  · rw [h]
    refine ⟨le_rfl, fun f hf => ?_⟩
    obtain rfl := List.mem_singleton.mp hf
    have hle : (bytesAt (arpReply (receive net rx) stack) 0 42).length ≤ 2048 := by
      rw [bytesAt_length]
      decide
    refine ⟨hle, fun net' stack' => ?_⟩
    obtain ⟨h1, h2⟩ := bytesAt_silent hle (arpReply_silent net'.ourIp)
    exact netPoll_silent h1 h2
  · rw [h]
    refine ⟨le_rfl, fun f hf => ?_⟩
    obtain rfl := List.mem_singleton.mp hf
    have hle : (bytesAt (icmpReply (receive net rx)) 0
        (replyLen (receive net rx).buf)).length ≤ 2048 := by
      rw [bytesAt_length]
      exact le_trans he.reply_le (by decide)
    refine ⟨hle, fun net' stack' => ?_⟩
    obtain ⟨h1, h2⟩ := bytesAt_silent hle (icmpReply_silent he net'.ourIp)
    exact netPoll_silent h1 h2

end Storm

/-! ## A ping -/

section Sample

/-- The default address 10.0.2.15. -/
def sampleIp : Mem := fun i => [10#8, 0#8, 2#8, 15#8].getD i 0#8

def sampleMac : Mem := fun i => [0x52#8, 0x54#8, 0x00#8, 0x12#8, 0x34#8, 0x56#8].getD i 0#8

/-- An echo request of 42 bytes from 10.0.2.2, with the given total length. -/
def pingRx (total : BitVec 8) : Rx :=
  ⟨[0x52#8, 0x54#8, 0x00#8, 0x12#8, 0x34#8, 0x56#8, 0x52#8, 0x55#8, 0x0A#8, 0x00#8, 0x02#8, 0x02#8,
    0x08#8, 0x00#8, 0x45#8, 0x00#8, 0x00#8, total, 0x00#8, 0x01#8, 0x00#8, 0x00#8, 0xFF#8, 0x01#8,
    0x00#8, 0x00#8, 10#8, 0#8, 2#8, 2#8, 10#8, 0#8, 2#8, 15#8, 0x08#8, 0x00#8, 0xF7#8, 0xFD#8,
    0x00#8, 0x01#8, 0x00#8, 0x01#8], by simp⟩

/-- A 42-byte ping that announces 100 bytes gets 72 bytes of the receive buffer back. -/
theorem long_ping_leaks : ¬SameFrames sampleMac sampleIp (pingRx 100#8) := by
  intro hsame
  have hsent := hsame (fun _ => 0#8) (fun i => if i < 2048 then 0xAA#8 else 0#8) (fun _ => 0#8)
    (fun _ => 0#8) (fun _ => 0#8) (fun _ => 0#8) (fun i hi => (if_neg (by omega)).symm)
    fun _ _ => rfl
  -- byte 42 of the reply is the first one behind the ping
  have hbyte := congrArg (fun sent : List Frame => sent.map fun f => f[42]?) hsent
  exact absurd hbyte (by decide +kernel)

/-- The ping is answered, and the answer is not. -/
theorem net_no_storm_ping :
    ∃ f, (netPoll ⟨sampleMac, sampleIp, fun _ => 0#8, fun _ => 0#8⟩ (fun _ => 0#8)
        (pingRx 28#8)).2 = [f]
      ∧ ∃ h : f.length ≤ 2048,
          ∀ (net' : Net) (stack' : Mem), (netPoll net' stack' ⟨f, h⟩).2 = [] := by
  have hne : (netPoll ⟨sampleMac, sampleIp, fun _ => 0#8, fun _ => 0#8⟩ (fun _ => 0#8)
      (pingRx 28#8)).2 ≠ [] := by decide +kernel
  obtain ⟨hone, hquiet⟩ := net_no_storm ⟨sampleMac, sampleIp, fun _ => 0#8, fun _ => 0#8⟩
    (fun _ => 0#8) (pingRx 28#8)
  obtain ⟨f, hf⟩ := List.length_eq_one_iff.mp
    (Nat.le_antisymm hone (List.length_pos_iff.mpr hne))
  exact ⟨f, hf, hquiet f (by rw [hf]; exact List.mem_singleton_self f)⟩

end Sample

end Matryoshka
