import Matryoshka.NetPoll

/-!
# Ping and ARP replies

What a host that sends a ping may rely on. The request and the reply are
described byte by byte in network order, without the accessors of the
stack: every well-formed echo request gets one reply, which goes back to
its sender, carries two valid checksums and is the request otherwise.

An ARP request is answered by the stations that have the address it asks
for, each with one reply that is given here in full.
-/

namespace Matryoshka

open ByteMem

/-! ## Packets in network order -/

/-- The half word at `a`, the high byte first. -/
def wire16 (m : Mem) (a : Nat) : Nat := 256 * (m a).toNat + (m (a + 1)).toNat

/-- The header length field, in words. -/
def ihl (frame : Mem) : Nat := (frame 14).toNat % 16

def totalLength (frame : Mem) : Nat := wire16 frame 16

/-- A well-formed echo request for address `ip` in a frame of `len` bytes. -/
structure EchoRequest (ip frame : Mem) (len : Nat) : Prop where
  type : wire16 frame 12 = 0x0800
  version : (frame 14).toNat / 16 = 4
  ihl_ge : 5 ≤ ihl frame
  icmp_le : ihl frame * 4 + 8 ≤ totalLength frame
  frame_le : 14 + totalLength frame ≤ min len 1518
  protocol : frame 23 = 1#8
  target : ∀ i < 4, frame (30 + i) = ip i
  request : frame (14 + ihl frame * 4) = 8#8

/-- The bytes of a sent frame. -/
def sentBytes (f : Frame) : Mem := fun i => f.getD i 0#8

/-- The bytes of a reply that need not be those of the request: addresses, time to live,
type and the two checksums. -/
def Rewritten (hdrLen i : Nat) : Prop :=
  Fixed i ∨ i = 14 + hdrLen ∨ 16 + hdrLen ≤ i ∧ i < 18 + hdrLen

/-- `f` is the reply of the station with addresses `mac` and `ip` to the request `frame`. -/
structure EchoReply (mac ip frame : Mem) (f : Frame) : Prop where
  length : f.length = 14 + totalLength frame
  dstMac : ∀ i < 6, sentBytes f i = frame (6 + i)
  srcMac : ∀ i < 6, sentBytes f (6 + i) = mac i
  srcIp : ∀ i < 4, sentBytes f (26 + i) = ip i
  dstIp : ∀ i < 4, sentBytes f (30 + i) = frame (26 + i)
  ttl : sentBytes f 22 = 64#8
  type : sentBytes f (14 + ihl frame * 4) = 0#8
  ipSum : Checksum.onesSum (sentBytes f) 14 (ihl frame * 4) = 0xFFFF
  icmpSum : Checksum.onesSum (sentBytes f) (14 + ihl frame * 4)
    (totalLength frame - ihl frame * 4) = 0xFFFF
  rest : ∀ i < 14 + totalLength frame, ¬Rewritten (ihl frame * 4) i → sentBytes f i = frame i

section Packets

variable {mac ip frame frame' : Mem} {len : Nat} {f : Frame}

theorem EchoRequest.len_ge (hr : EchoRequest ip frame len) : 42 ≤ len := by
  have h1 := hr.ihl_ge
  have h2 := hr.icmp_le
  have h3 := hr.frame_le
  omega

theorem totalLength_congr (h : ∀ i < 18, frame i = frame' i) :
    totalLength frame = totalLength frame' := by
  rw [totalLength, totalLength, wire16, wire16, h 16 (by decide), h 17 (by decide)]

theorem ihl_congr (h : frame 14 = frame' 14) : ihl frame = ihl frame' := by
  rw [ihl, ihl, h]

theorem EchoRequest.congr (h : ∀ i < len, frame i = frame' i) (hr : EchoRequest ip frame len) :
    EchoRequest ip frame' len := by
  have hlen := hr.len_ge
  have hicmp := hr.icmp_le
  have hle := hr.frame_le
  have htotal : totalLength frame = totalLength frame' :=
    totalLength_congr fun i hi => h i (by omega)
  have hihl : ihl frame = ihl frame' := ihl_congr (h 14 (by omega))
  refine ⟨?_, ?_, hihl ▸ hr.ihl_ge, hihl ▸ htotal ▸ hicmp, htotal ▸ hle, ?_, ?_, ?_⟩
  · rw [wire16, ← h 12 (by omega), ← h 13 (by omega)]
    exact hr.type
  · rw [← h 14 (by omega), hr.version]
  · rw [← h 23 (by omega), hr.protocol]
  · exact fun i hi => (h _ (by omega)).symm.trans (hr.target i hi)
  · rw [← hihl, ← h _ (by omega), hr.request]

/-- The reply refers to received bytes only. -/
theorem EchoReply.congr (h : ∀ i < len, frame i = frame' i) (hr : EchoRequest ip frame len)
    (hf : EchoReply mac ip frame f) : EchoReply mac ip frame' f := by
  have hlen := hr.len_ge
  have hle := hr.frame_le
  have htotal : totalLength frame' = totalLength frame :=
    (totalLength_congr fun i hi => h i (by omega)).symm
  have hihl : ihl frame' = ihl frame := (ihl_congr (h 14 (by omega))).symm
  constructor
  · rw [htotal, hf.length]
  · exact fun i hi => (hf.dstMac i hi).trans (h _ (by omega))
  · exact hf.srcMac
  · exact hf.srcIp
  · exact fun i hi => (hf.dstIp i hi).trans (h _ (by omega))
  · exact hf.ttl
  · rw [hihl, hf.type]
  · rw [hihl, hf.ipSum]
  · rw [hihl, htotal, hf.icmpSum]
  · rw [hihl, htotal]
    exact fun i hi hw => (hf.rest i hi hw).trans (h i (by omega))

end Packets

/-! ## What the stack reads -/

section Accessors

variable {ip frame : Mem} {len : Nat}

/-- `ntohs` of a half word in memory is its value in network order. -/
theorem ntohs_load16 (m : Mem) (a : Nat) : (ntohs (load16 m a)).toNat = wire16 m a := by
  have h0 := (m a).isLt
  have h1 := (m (a + 1)).isLt
  have hhigh : (load16 m a).toNat >>> 8 = (m (a + 1)).toNat := by
    rw [Checksum.load16_toNat, Nat.shiftRight_eq_div_pow]
    omega
  have hlow : (load16 m a).toNat <<< 8 % 2 ^ 16 = (m a).toNat <<< 8 := by
    rw [Checksum.load16_toNat, Nat.shiftLeft_eq, Nat.shiftLeft_eq]
    omega
  rw [ntohs, htons, BitVec.toNat_or, BitVec.toNat_ushiftRight, BitVec.toNat_shiftLeft, hhigh, hlow,
    Nat.or_comm, ← Nat.shiftLeft_add_eq_or_of_lt h1, Nat.shiftLeft_eq, wire16]
  omega

theorem ipTotal_eq (frame : Mem) : ipTotal frame = totalLength frame := ntohs_load16 frame 16

theorem ipHdrLen_eq (frame : Mem) : ipHdrLen frame = ihl frame * 4 := by
  have hmask : (frame 14 &&& 0x0F#8).toNat = (frame 14).toNat % 16 := by
    rw [BitVec.toNat_and]
    exact Nat.and_two_pow_sub_one_eq_mod _ 4
  rw [ipHdrLen, hmask, ihl]

theorem etherType_eq {type : BitVec 16} (h : wire16 frame 12 = type.toNat) :
    etherType frame = type :=
  BitVec.eq_of_toNat_eq ((ntohs_load16 frame 12).trans h)

theorem memcmp_eq_zero {a b : Mem} :
    ∀ {n i j : Nat}, (∀ k < n, a (i + k) = b (j + k)) → memcmp a i b j n = 0
  | 0, _, _, _ => rfl
  | n + 1, i, j, h => by
      have h0 : a i = b j := h 0 (by omega)
      rw [memcmp, if_neg (not_not.mpr h0)]
      refine memcmp_eq_zero fun k hk => ?_
      rw [Nat.add_assoc, Nat.add_assoc, Nat.add_comm 1 k]
      exact h (k + 1) (by omega)

/-- A well-formed request is answered. -/
theorem EchoRequest.asked (hr : EchoRequest ip frame len) : EchoAsked ip frame len := by
  have hlen := hr.len_ge
  have hicmp := hr.icmp_le
  have hle := hr.frame_le
  refine ⟨by omega, etherType_eq hr.type, ?_, memcmp_eq_zero fun k hk => ?_, hr.protocol,
    ?_, ?_, ?_⟩
  · apply BitVec.eq_of_toNat_eq
    rw [BitVec.toNat_ushiftRight, Nat.shiftRight_eq_div_pow]
    exact hr.version
  · rw [Nat.zero_add]
    exact hr.target k hk
  · rw [ipHdrLen_eq]
    omega
  · rw [ipHdrLen_eq]
    exact hr.request
  · have htotal := ipTotal_eq frame
    rw [replyLen_of_lt (by omega)]
    omega

end Accessors

/-! ## The checksum -/

/-- Summing a buffer of at most 65535 bytes stays within 32 bits, and folding ends. -/
theorem ipChecksum_runs (data : Mem) (p : Nat) {len : Nat} (hlen : len ≤ 65535) :
    Checksum.NoOverflow data p len 0
      ∧ Checksum.foldCarries 2 (Checksum.addWords data p len 0) / 0x10000 = 0 := by
  have hle := Checksum.total_le data p len
  have hlt : 0 + Checksum.total data p len < 2 ^ 32 := by omega
  refine ⟨Checksum.noOverflow_of_lt data hlt, Checksum.foldCarries_done ?_⟩
  rwa [Checksum.addWords_eq _ _ _ _ (by decide), u32_of_lt hlt]

/-- The buffer at `p` with the two bytes at offset `k` cleared, and the checksum of the
whole stored there. -/
def sealAt (buf : Mem) (p len k : Nat) : Mem :=
  let cleared := store16 buf (p + k) 0#16
  store16 cleared (p + k) (ipChecksum cleared p len)

/-- A buffer that holds its own checksum at an even offset has checksum zero. The sum never
leaves its 32 bits and two rounds fold it, for this buffer as for any other. -/
theorem ipChecksum_self_verifying (buf : Mem) (p len k : Nat) (hlen : len ≤ 65535)
    (heven : k % 2 = 0) (hk : k + 2 ≤ len) :
    ipChecksum (sealAt buf p len k) p len = 0#16
      ∧ ∀ data, Checksum.NoOverflow data p len 0
        ∧ Checksum.foldCarries 2 (Checksum.addWords data p len 0) / 0x10000 = 0 := by
  refine ⟨?_, fun data => ipChecksum_runs data p hlen⟩
  exact Checksum.checksum_sealed (store16_low ..) (store16_high ..) (by omega) (by omega)
    (by omega) (by omega)

/-- An odd length, with the checksum at offset 10. -/
theorem ipChecksum_self_verifying_odd :
    ipChecksum (sealAt (BitVec.ofNat 8) 14 21 10) 14 21 = 0#16 :=
  (ipChecksum_self_verifying (BitVec.ofNat 8) 14 21 10 (by decide) rfl (by decide)).1

/-! ## What the stack writes -/

section Writes

variable {net : Net} {i : Nat}

theorem replyHeaders_dstMac (hi : i < 6) : replyHeaders net i = net.buf (6 + i) := by
  rw [replyHeaders_copied (by omega) (by omega), if_neg (by omega), if_neg (by omega),
    if_neg (by omega), if_pos hi]

theorem replyHeaders_srcMac (hi : i < 6) : replyHeaders net (6 + i) = net.ourMac i := by
  rw [replyHeaders_copied (by omega) (by omega), if_neg (by omega), if_neg (by omega),
    if_pos (by omega), Nat.add_sub_cancel_left]

theorem replyHeaders_srcIp (hi : i < 4) : replyHeaders net (26 + i) = net.ourIp i := by
  rw [replyHeaders_copied (by omega) (by omega), if_pos (by omega), Nat.add_sub_cancel_left]

theorem replyHeaders_dstIp (hi : i < 4) : replyHeaders net (30 + i) = net.buf (26 + i) := by
  rw [replyHeaders_copied (by omega) (by omega), if_neg (by omega), if_pos (by omega),
    Nat.add_sub_cancel_left]

/-- The header checksum is valid. -/
theorem sealIp_sum {hdrLen : Nat} (hge : 12 ≤ hdrLen) (hle : hdrLen ≤ 60) :
    Checksum.onesSum (sealIp (replyHeaders net) hdrLen) 14 hdrLen = 0xFFFF :=
  Checksum.onesSum_sealed (store16_low ..) (store16_high ..) (by omega) (by omega) (by omega)
    (by omega)

/-- The checksum of the message is valid, for an odd length too. -/
theorem sealIcmp_sum (reply : Mem) {hdrLen len : Nat} (hge : 4 ≤ len) (hle : len < 0x10000) :
    Checksum.onesSum (sealIcmp (echoHeader reply hdrLen) hdrLen len) (14 + hdrLen) len = 0xFFFF :=
  Checksum.onesSum_sealed (store16_low ..) (store16_high ..) (by omega) (by omega) (by omega)
    (by omega)

theorem sentBytes_bytesAt {m : Mem} {n : Nat} (hi : i < n) : sentBytes (bytesAt m 0 n) i = m i := by
  rw [sentBytes, getD_bytesAt _ _ hi, Nat.zero_add]

theorem icmpReply_correct (net : Net) {len : Nat} (hr : EchoRequest net.ourIp net.buf len) :
    EchoReply net.ourMac net.ourIp net.buf (bytesAt (icmpReply net) 0 (replyLen net.buf)) := by
  have hge := hr.ihl_ge
  have hicmp := hr.icmp_le
  have hle := hr.frame_le
  have hhdr := ipHdrLen_eq net.buf
  have h60 := ipHdrLen_le net.buf
  have htotal := ipTotal_eq net.buf
  have hmsg : icmpLen net.buf = totalLength net.buf - ihl net.buf * 4 := by
    rw [icmpLen_of_le (by omega), htotal, hhdr]
  have hreply := replyLen_of_lt (show 14 + ipTotal net.buf < 0x10000 by omega)
  rw [htotal] at hreply
  rw [hreply]
  have hsent : ∀ i < 14 + totalLength net.buf,
      sentBytes (bytesAt (icmpReply net) 0 (14 + totalLength net.buf)) i = icmpReply net i :=
    fun i hi => sentBytes_bytesAt hi
  -- in front of the ICMP header only the header checksum is written after the headers
  have hhead : ∀ i < 34, ¬(24 ≤ i ∧ i < 26) →
      sentBytes (bytesAt (icmpReply net) 0 (14 + totalLength net.buf)) i = replyHeaders net i :=
    fun i hi hsum => by
      rw [hsent i (by omega), icmpReply_of_outside hsum (by omega) (by omega)]
  constructor
  · exact bytesAt_length ..
  · exact fun i hi => (hhead i (by omega) (by omega)).trans (replyHeaders_dstMac hi)
  · exact fun i hi => (hhead _ (by omega) (by omega)).trans (replyHeaders_srcMac hi)
  · exact fun i hi => (hhead _ (by omega) (by omega)).trans (replyHeaders_srcIp hi)
  · exact fun i hi => (hhead _ (by omega) (by omega)).trans (replyHeaders_dstIp hi)
  · exact (hhead 22 (by omega) (by omega)).trans replyHeaders_ttl
  · rw [hsent _ (by omega), ← hhdr]
    exact icmpReply_type
  · rw [Checksum.onesSum_congr fun i _ h2 =>
      (hsent i (by omega)).trans (icmpReply_of_lt (by omega)), ← hhdr]
    exact sealIp_sum (by omega) h60
  · rw [Checksum.onesSum_congr fun i _ h2 => hsent i (by omega), ← hmsg, ← hhdr]
    exact sealIcmp_sum _ (by omega) (by omega)
  · intro i hi hw
    unfold Rewritten at hw
    have hfixed : ¬Fixed i := fun h => hw (Or.inl h)
    have hsum : ¬(24 ≤ i ∧ i < 26) := fun h => hfixed (by unfold Fixed; omega)
    rw [hsent i hi, icmpReply_of_outside hsum (by omega) (by omega), replyHeaders_other hfixed,
      if_pos (by omega)]

end Writes

/-- **Ping replies are correct.** A well-formed echo request is answered with one frame,
the reply to it, whatever the buffers held before. -/
theorem ping_reply_correct (net : Net) (stack : Mem) (rx : Rx)
    (hr : EchoRequest net.ourIp rx.mem rx.bytes.length) :
    ∃ f, (netPoll net stack rx).2 = [f] ∧ EchoReply net.ourMac net.ourIp rx.mem f := by
  have hbuf : EchoRequest net.ourIp (receive net rx).buf rx.bytes.length :=
    hr.congr fun i hi => rx_mem_agree net rx hi
  refine ⟨_, netPoll_echo stack hr.asked, ?_⟩
  exact (icmpReply_correct (receive net rx) hbuf).congr
    (fun i hi => (rx_mem_agree net rx hi).symm) hbuf

/-- An echo request from 10.0.2.2 with the three bytes `abc`. -/
def oddPing : Rx :=
  ⟨[0x52#8, 0x54#8, 0x00#8, 0x12#8, 0x34#8, 0x56#8, 0x52#8, 0x55#8, 0x0A#8, 0x00#8, 0x02#8, 0x02#8,
    0x08#8, 0x00#8, 0x45#8, 0x00#8, 0x00#8, 0x1F#8, 0x00#8, 0x01#8, 0x00#8, 0x00#8, 0xFF#8, 0x01#8,
    0xA3#8, 0xCC#8, 10#8, 0#8, 2#8, 2#8, 10#8, 0#8, 2#8, 15#8, 0x08#8, 0x00#8, 0x33#8, 0x9B#8,
    0x00#8, 0x01#8, 0x00#8, 0x01#8, 0x61#8, 0x62#8, 0x63#8], by simp⟩

theorem ping_reply_correct_odd :
    EchoRequest sampleIp oddPing.mem 45
      ∧ ∃ f, (netPoll ⟨sampleMac, sampleIp, fun _ => 0#8, fun _ => 0#8⟩ (fun _ => 0#8)
          oddPing).2 = [f]
        ∧ EchoReply sampleMac sampleIp oddPing.mem f := by
  have hr : EchoRequest sampleIp oddPing.mem 45 :=
    ⟨by decide, by decide, by decide, by decide, by decide, by decide, by decide, by decide⟩
  exact ⟨hr, ping_reply_correct _ _ _ hr⟩

/-! ## ARP -/

/-- An ARP request for address `ip` in a frame of `len` bytes. The types and lengths of the
addresses in it are not looked at. -/
structure ArpRequest (ip frame : Mem) (len : Nat) : Prop where
  len_ge : 42 ≤ len
  type : wire16 frame 12 = 0x0806
  operation : wire16 frame 20 = 1
  target : ∀ i < 4, frame (38 + i) = ip i

/-- The reply of the station with addresses `mac` and `ip` to the request `frame`. -/
def arpAnswer (mac ip frame : Mem) : Frame :=
  bytesAt frame 22 6 ++ bytesAt mac 0 6 ++ [0x08#8, 0x06#8]
    ++ [0x00#8, 0x01#8, 0x08#8, 0x00#8, 6#8, 4#8, 0x00#8, 0x02#8]
    ++ bytesAt mac 0 6 ++ bytesAt ip 0 4
    ++ bytesAt frame 22 6 ++ bytesAt frame 28 4

section Arp

variable {ip frame : Mem} {len : Nat}

instance : Decidable (ArpRequest ip frame len) :=
  decidable_of_iff (42 ≤ len ∧ wire16 frame 12 = 0x0806 ∧ wire16 frame 20 = 1
      ∧ ∀ i < 4, frame (38 + i) = ip i)
    ⟨fun h => ⟨h.1, h.2.1, h.2.2.1, h.2.2.2⟩, fun h => ⟨h.len_ge, h.type, h.operation, h.target⟩⟩

theorem memcmp_eq_zero_iff {a b : Mem} {n i j : Nat} :
    memcmp a i b j n = 0 ↔ ∀ k < n, a (i + k) = b (j + k) := by
  refine ⟨fun h => ?_, memcmp_eq_zero⟩
  induction n generalizing i j with
  | zero => exact fun k hk => absurd hk (Nat.not_lt_zero k)
  | succ n ih =>
      rw [memcmp] at h
      by_cases hne : a i = b j
      · rw [if_neg (not_not.mpr hne)] at h
        intro k hk
        cases k with
        | zero => exact hne
        | succ k =>
            have hk := ih h k (by omega)
            rwa [Nat.add_assoc, Nat.add_assoc, Nat.add_comm 1 k] at hk
      · rw [if_pos hne] at h
        exact absurd (BitVec.eq_of_toNat_eq (by omega)) hne

theorem wire16_eq_iff {v : BitVec 16} {a : Nat} :
    ntohs (load16 frame a) = v ↔ wire16 frame a = v.toNat := by
  rw [← BitVec.toNat_inj, ntohs_load16]

theorem arpAsked_iff : ArpAsked ip frame len ↔ ArpRequest ip frame len := by
  constructor
  · intro h
    refine ⟨h.len_le, wire16_eq_iff.mp h.type, wire16_eq_iff.mp h.operation, fun i hi => ?_⟩
    rw [memcmp_eq_zero_iff.mp h.target i hi, Nat.zero_add]
  · intro h
    refine ⟨h.len_ge, wire16_eq_iff.mpr h.type, wire16_eq_iff.mpr h.operation, ?_⟩
    refine memcmp_eq_zero_iff.mpr fun i hi => ?_
    rw [h.target i hi, Nat.zero_add]

theorem arpReply_bytes (net : Net) (stack : Mem) :
    bytesAt (arpReply net stack) 0 42 = arpAnswer net.ourMac net.ourIp net.buf := rfl

theorem arpAnswer_congr {frame' : Mem} (mac ip : Mem) (h : ∀ i < 42, frame i = frame' i) :
    arpAnswer mac ip frame = arpAnswer mac ip frame' := by
  rw [arpAnswer, arpAnswer, bytesAt_congr fun i hi => h (22 + i) (by omega),
    bytesAt_congr fun i hi => h (28 + i) (by omega)]

/-- A station answers the requests for its own address. -/
theorem netPoll_arp (net : Net) (stack : Mem) (rx : Rx) (harp : wire16 rx.mem 12 = 0x0806) :
    (netPoll net stack rx).2 = if ArpRequest net.ourIp rx.mem rx.bytes.length then
      [arpAnswer net.ourMac net.ourIp rx.mem] else [] := by
  have hmem : ∀ i < rx.bytes.length, (receive net rx).buf i = rx.mem i :=
    fun i hi => (rx_mem_agree net rx hi).symm
  have hecho : ¬EchoAsked net.ourIp rx.mem rx.bytes.length := by
    intro h
    have htype := wire16_eq_iff.mp h.type
    rw [harp] at htype
    exact absurd htype (by decide)
  by_cases hreq : ArpRequest net.ourIp rx.mem rx.bytes.length
  · rw [if_pos hreq]
    have hlen := hreq.len_ge
    have hbuf : ArpAsked net.ourIp (receive net rx).buf rx.bytes.length :=
      (arpAsked_iff.mpr hreq).congr fun i hi => (hmem i hi).symm
    rcases netPoll_cases net stack rx with ⟨-, h, -⟩ | ⟨-, h⟩ | ⟨h, -⟩
    · exact absurd hbuf h
    · rw [h, arpReply_bytes]
      exact congrArg (fun f => [f]) (arpAnswer_congr _ _ fun i hi => hmem i (by omega))
    · exact absurd (h.congr hmem) hecho
  · rw [if_neg hreq]
    exact netPoll_silent (fun h => hreq (arpAsked_iff.mp h)) hecho

/-- Nobody answers a reply. -/
theorem netPoll_arpAnswer (net : Net) (stack mac ip frame : Mem)
    (h : (arpAnswer mac ip frame).length ≤ 2048) :
    (netPoll net stack ⟨arpAnswer mac ip frame, h⟩).2 = [] := by
  have htype : wire16 (Rx.mem ⟨arpAnswer mac ip frame, h⟩) 12 = 0x0806 := rfl
  have hop : wire16 (Rx.mem ⟨arpAnswer mac ip frame, h⟩) 20 = 2 := rfl
  rw [netPoll_arp net stack _ htype, if_neg]
  intro hreq
  rw [hreq.operation] at hop
  exact absurd hop (by decide)

/-- The frames that the stations of a segment send when a frame reaches all of them. -/
def segmentReplies (stations : List (Net × Mem)) (rx : Rx) : List Frame :=
  stations.flatMap fun p => (netPoll p.1 p.2 rx).2

theorem segmentReplies_arp (stations : List (Net × Mem)) (rx : Rx)
    (harp : wire16 rx.mem 12 = 0x0806) :
    segmentReplies stations rx =
      (stations.filter fun p => ArpRequest p.1.ourIp rx.mem rx.bytes.length).map
        fun p => arpAnswer p.1.ourMac p.1.ourIp rx.mem := by
  rw [segmentReplies]
  induction stations with
  | nil => rfl
  | cons p rest ih =>
      rw [List.flatMap_cons, ih, netPoll_arp p.1 p.2 rx harp, List.filter_cons]
      by_cases hreq : ArpRequest p.1.ourIp rx.mem rx.bytes.length
      · rw [if_pos hreq, if_pos (decide_eq_true hreq)]
        rfl
      · rw [if_neg hreq, if_neg (Bool.not_eq_true _ ▸ decide_eq_false hreq)]
        rfl

/-- **An ARP exchange.** However many stations with this stack receive an ARP frame, and
whatever their buffers and stacks hold: the frames they send are one reply for each station
that has the address asked for, with its own two addresses, to the sender of the request. The
replies reach the stations in turn, whatever these received meanwhile, and no station sends
anything: the exchange is over. -/
theorem arp_owners_answer (stations : List (Net × Mem)) (rx : Rx)
    (harp : wire16 rx.mem 12 = 0x0806) :
    segmentReplies stations rx =
        (stations.filter fun p => ArpRequest p.1.ourIp rx.mem rx.bytes.length).map
          (fun p => arpAnswer p.1.ourMac p.1.ourIp rx.mem)
      ∧ ∀ reply : Rx, reply.bytes ∈ segmentReplies stations rx →
        ∀ later : List (Net × Mem), segmentReplies later reply = [] := by
  have hreplies := segmentReplies_arp stations rx harp
  refine ⟨hreplies, ?_⟩
  rintro ⟨bytes, hlen⟩ hmem later
  rw [hreplies] at hmem
  obtain ⟨p, -, rfl⟩ := List.mem_map.mp hmem
  rw [segmentReplies, List.flatMap_eq_nil_iff]
  exact fun q _ => netPoll_arpAnswer q.1 q.2 _ _ _ hlen

/-- A request for 10.0.2.15 from 10.0.2.2. -/
def arpRx : Rx :=
  ⟨[0xFF#8, 0xFF#8, 0xFF#8, 0xFF#8, 0xFF#8, 0xFF#8, 0x52#8, 0x55#8, 0x0A#8, 0x00#8, 0x02#8, 0x02#8,
    0x08#8, 0x06#8, 0x00#8, 0x01#8, 0x08#8, 0x00#8, 6#8, 4#8, 0x00#8, 0x01#8, 0x52#8, 0x55#8,
    0x0A#8, 0x00#8, 0x02#8, 0x02#8, 10#8, 0#8, 2#8, 2#8, 0#8, 0#8, 0#8, 0#8, 0#8, 0#8, 10#8, 0#8,
    2#8, 15#8], by decide⟩

/-- The station with this address, and one without an address. -/
def twoStations : List (Net × Mem) :=
  [(⟨sampleMac, sampleIp, fun _ => 0#8, fun _ => 0#8⟩, fun _ => 0#8),
    (⟨fun _ => 0#8, fun _ => 0#8, fun _ => 0#8, fun _ => 0#8⟩, fun _ => 0#8)]

theorem arp_owners_answer_two :
    segmentReplies twoStations arpRx = [arpAnswer sampleMac sampleIp arpRx.mem]
      ∧ segmentReplies twoStations ⟨arpAnswer sampleMac sampleIp arpRx.mem, by decide⟩ = [] := by
  obtain ⟨hreplies, hover⟩ := arp_owners_answer twoStations arpRx (by decide)
  have hone : segmentReplies twoStations arpRx = [arpAnswer sampleMac sampleIp arpRx.mem] :=
    hreplies
  exact ⟨hone, hover _ (by rw [hone]; exact List.mem_cons_self) twoStations⟩

end Arp

end Matryoshka
