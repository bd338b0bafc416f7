/-
  MiddleboxSession/KernelPacket.lean
  ==================================
  **Packets as the hooks of the kernel modules see them**, and what the hooks do
  to their addresses.

  Header fields hold what stands in memory, so ports go through `ntohs` before
  they are compared, and checksums are sums of 16-bit words in that same byte
  order.  `rewriteDaddr` and `rewriteSaddr` are the rewriting that five of the
  six hooks do: the address, and both checksums with it.  They keep a valid
  packet valid; `setSaddr` changes the address alone and does not, unless the
  two addresses have the same sum.
-/
import MiddleboxSession.Wire
import MiddleboxSession.OnesComplement

namespace MiddleboxSession

open CBuffer OnesComplement

/-- `ntohs` on a little-endian machine, and `htons`. -/
def ntohs (h : BitVec 16) : BitVec 16 := bytesHalf (h.extractLsb' 8 8) (h.extractLsb' 0 8)

def IPPROTO_TCP : BitVec 8 := 6
def IPPROTO_UDP : BitVec 8 := 17

/-! ### Headers -/

structure Iphdr where
  version : BitVec 4
  ihl : BitVec 4
  tos : BitVec 8
  totLen : BitVec 16
  id : BitVec 16
  fragOff : BitVec 16
  ttl : BitVec 8
  protocol : BitVec 8
  check : BitVec 16
  saddr : Addr
  daddr : Addr
  options : List (BitVec 32)
deriving DecidableEq, Repr

/-- `tcphdr`; `flags` is the word with the data offset and the flags. -/
structure Tcphdr where
  source : BitVec 16
  dest : BitVec 16
  seq : BitVec 32
  ackSeq : BitVec 32
  flags : BitVec 16
  window : BitVec 16
  check : BitVec 16
  urgPtr : BitVec 16
deriving DecidableEq, Repr

/-- `sk_buff` at a netfilter hook: the two headers, and what follows the fixed
    part of the TCP header.  The TCP header means something only in a packet
    whose protocol is TCP. -/
structure SkBuff where
  iph : Iphdr
  tcph : Tcphdr
  data : List Byte
deriving DecidableEq, Repr

def halves (a : BitVec 32) : List (BitVec 16) := [a.extractLsb' 0 16, a.extractLsb' 16 16]

/-- Bytes as 16-bit words, the last odd one with a zero byte. -/
def dataWords : List Byte → List (BitVec 16)
  | b0 :: b1 :: rest => bytesHalf b0 b1 :: dataWords rest
  | [b0] => [bytesHalf b0 0]
  | [] => []

theorem dataWords_bytes_even (m : Buf) (off n : Nat) :
    dataWords (m.bytes off (2 * n)) = m.words off n := by
  induction n generalizing off with
  | zero => rfl
  | succ n ih => rw [Nat.mul_succ, Buf.bytes, Buf.bytes, dataWords, ih, Buf.words, Buf.half]

/-- The last word of an odd number of bytes has a zero byte. -/
theorem dataWords_bytes_odd (m : Buf) (off n : Nat) :
    dataWords (m.bytes off (2 * n + 1)) =
      m.words off n ++ [bytesHalf (m.byte (off + 2 * n)) 0] := by
  induction n generalizing off with
  | zero => rfl
  | succ n ih =>
    have hlen : 2 * (n + 1) + 1 = 2 * n + 1 + 2 := by omega
    have hoff : off + 1 + 1 + 2 * n = off + 2 * (n + 1) := by omega
    rw [hlen, Buf.bytes, Buf.bytes, dataWords, ih, hoff, Buf.words, Buf.half, List.cons_append]

theorem dataWords_halfBytes (h : BitVec 16) (bs : List Byte) :
    dataWords (halfBytes h ++ bs) = h :: dataWords bs := by
  rw [halfBytes, List.cons_append, List.cons_append, List.nil_append, dataWords,
    bytesHalf_halfBytes]

theorem dataWords_wordBytes (w : BitVec 32) (bs : List Byte) :
    dataWords (wordBytes w ++ bs) = halves w ++ dataWords bs := by
  have hhalf : ∀ i, bytesHalf (w.extractLsb' i 8) (w.extractLsb' (i + 8) 8) =
      w.extractLsb' i 16 := by
    intro i
    apply BitVec.eq_of_toNat_eq
    simp only [toNat_bytesHalf, BitVec.extractLsb'_toNat, Nat.shiftRight_eq_div_pow, Nat.pow_add,
      ← Nat.div_div_eq_div_mul]
    omega
  have hlow := hhalf 0
  have hhigh := hhalf 16
  simp only [wordBytes, List.cons_append, List.nil_append, dataWords, halves] at hlow hhigh ⊢
  rw [hlow, hhigh]

def Iphdr.words (h : Iphdr) : List (BitVec 16) :=
  [bytesHalf (h.version ++ h.ihl) h.tos, h.totLen, h.id, h.fragOff, bytesHalf h.ttl h.protocol,
    h.check] ++ halves h.saddr ++ halves h.daddr ++ h.options.flatMap halves

def Tcphdr.words (h : Tcphdr) : List (BitVec 16) :=
  [h.source, h.dest] ++ halves h.seq ++ halves h.ackSeq ++ [h.flags, h.window, h.check, h.urgPtr]

def SkBuff.pseudoHeader (skb : SkBuff) : List (BitVec 16) :=
  halves skb.iph.saddr ++ halves skb.iph.daddr ++
    [bytesHalf 0 skb.iph.protocol, ntohs (BitVec.ofNat 16 (20 + skb.data.length))]

def SkBuff.tcpWords (skb : SkBuff) : List (BitVec 16) :=
  skb.pseudoHeader ++ skb.tcph.words ++ dataWords skb.data

structure SkBuff.IsTcp (skb : SkBuff) : Prop where
  version : skb.iph.version = 4
  protocol : skb.iph.protocol = IPPROTO_TCP

/-- A segment without data; its checksums are not filled in. -/
def SkBuff.bare (saddr daddr : Addr) (source dest : BitVec 16) : SkBuff where
  iph := ⟨4, 5, 0, ntohs 40, 0, 0, 64, IPPROTO_TCP, 0, saddr, daddr, []⟩
  tcph := ⟨ntohs source, ntohs dest, 0, 0, ntohs 0x5010, 0, 0, 0⟩
  data := []

structure SkBuff.Valid (skb : SkBuff) : Prop where
  ip : ValidSum skb.iph.words
  tcp : ValidSum skb.tcpWords

instance (skb : SkBuff) : Decidable skb.Valid :=
  decidable_of_iff (ValidSum skb.iph.words ∧ ValidSum skb.tcpWords)
    ⟨fun h => ⟨h.1, h.2⟩, fun h => ⟨h.ip, h.tcp⟩⟩

/-! ### Rewriting an address -/

/-- The checksum helpers of the kernel: both do the standard incremental update
    of a check word (`inet_proto_csum_replace4` with a full checksum). -/
structure Csum where
  csumReplace4 : BitVec 16 → Addr → Addr → BitVec 16
  inetProtoCsumReplace4 : BitVec 16 → Addr → Addr → BitVec 16
  ip_eq : ∀ check old new,
    csumReplace4 check old new = updateSum check (halves old) (halves new)
  proto_eq : ∀ check old new,
    inetProtoCsumReplace4 check old new = updateSum check (halves old) (halves new)

def Csum.standard : Csum where
  csumReplace4 := fun check old new => updateSum check (halves old) (halves new)
  inetProtoCsumReplace4 := fun check old new => updateSum check (halves old) (halves new)
  ip_eq := fun _ _ _ => rfl
  proto_eq := fun _ _ _ => rfl

variable (cs : Csum)

/-- `iph->daddr = newIP`, with both checksums. -/
def SkBuff.rewriteDaddr (skb : SkBuff) (newIP : Addr) : SkBuff :=
  let oldIP := skb.iph.daddr
  { skb with
    iph := { skb.iph with daddr := newIP, check := cs.csumReplace4 skb.iph.check oldIP newIP }
    tcph := { skb.tcph with check := cs.inetProtoCsumReplace4 skb.tcph.check oldIP newIP } }

/-- `iph->saddr = newIP`, with both checksums. -/
def SkBuff.rewriteSaddr (skb : SkBuff) (newIP : Addr) : SkBuff :=
  let oldIP := skb.iph.saddr
  { skb with
    iph := { skb.iph with saddr := newIP, check := cs.csumReplace4 skb.iph.check oldIP newIP }
    tcph := { skb.tcph with check := cs.inetProtoCsumReplace4 skb.tcph.check oldIP newIP } }

/-- `iph->saddr = newIP`, and nothing else. -/
def SkBuff.setSaddr (skb : SkBuff) (newIP : Addr) : SkBuff :=
  { skb with iph := { skb.iph with saddr := newIP } }

theorem SkBuff.IsTcp.rewriteDaddr {skb : SkBuff} (h : skb.IsTcp) (a : Addr) :
    (skb.rewriteDaddr cs a).IsTcp := ⟨h.version, h.protocol⟩

theorem SkBuff.IsTcp.rewriteSaddr {skb : SkBuff} (h : skb.IsTcp) (a : Addr) :
    (skb.rewriteSaddr cs a).IsTcp := ⟨h.version, h.protocol⟩

section Fields

variable (skb : SkBuff) (a : Addr)

@[simp] theorem SkBuff.protocol_rewriteDaddr :
    (skb.rewriteDaddr cs a).iph.protocol = skb.iph.protocol := rfl
@[simp] theorem SkBuff.saddr_rewriteDaddr : (skb.rewriteDaddr cs a).iph.saddr = skb.iph.saddr := rfl
@[simp] theorem SkBuff.daddr_rewriteDaddr : (skb.rewriteDaddr cs a).iph.daddr = a := rfl
@[simp] theorem SkBuff.source_rewriteDaddr :
    (skb.rewriteDaddr cs a).tcph.source = skb.tcph.source := rfl
@[simp] theorem SkBuff.dest_rewriteDaddr :
    (skb.rewriteDaddr cs a).tcph.dest = skb.tcph.dest := rfl
@[simp] theorem SkBuff.protocol_rewriteSaddr :
    (skb.rewriteSaddr cs a).iph.protocol = skb.iph.protocol := rfl
@[simp] theorem SkBuff.saddr_rewriteSaddr : (skb.rewriteSaddr cs a).iph.saddr = a := rfl
@[simp] theorem SkBuff.daddr_rewriteSaddr : (skb.rewriteSaddr cs a).iph.daddr = skb.iph.daddr := rfl
@[simp] theorem SkBuff.source_rewriteSaddr :
    (skb.rewriteSaddr cs a).tcph.source = skb.tcph.source := rfl
@[simp] theorem SkBuff.dest_rewriteSaddr :
    (skb.rewriteSaddr cs a).tcph.dest = skb.tcph.dest := rfl

end Fields

/-! ### Checksums under rewriting -/

/-- The words of an IP header besides one address and the check word. -/
def Iphdr.others (h : Iphdr) (a : Addr) : List (BitVec 16) :=
  [bytesHalf (h.version ++ h.ihl) h.tos, h.totLen, h.id, h.fragOff,
    bytesHalf h.ttl h.protocol] ++ halves a ++ h.options.flatMap halves

/-- The words of the TCP checksum besides one address and the check word. -/
def SkBuff.others (skb : SkBuff) (a : Addr) : List (BitVec 16) :=
  [bytesHalf 0 skb.iph.protocol, ntohs (BitVec.ofNat 16 (20 + skb.data.length)), skb.tcph.source,
    skb.tcph.dest] ++ halves a ++ halves skb.tcph.seq ++ halves skb.tcph.ackSeq ++
    [skb.tcph.flags, skb.tcph.window, skb.tcph.urgPtr] ++ dataWords skb.data

theorem Iphdr.total_words (h : Iphdr) :
    total h.words = total (h.check :: (halves h.daddr ++ h.others h.saddr)) ∧
      total h.words = total (h.check :: (halves h.saddr ++ h.others h.daddr)) := by
  simp only [Iphdr.words, Iphdr.others, total_cons, total_append, List.cons_append,
    List.nil_append]
  constructor <;> omega

theorem SkBuff.total_tcpWords (skb : SkBuff) :
    total skb.tcpWords =
        total (skb.tcph.check :: (halves skb.iph.daddr ++ skb.others skb.iph.saddr)) ∧
      total skb.tcpWords =
        total (skb.tcph.check :: (halves skb.iph.saddr ++ skb.others skb.iph.daddr)) := by
  simp only [SkBuff.tcpWords, SkBuff.pseudoHeader, SkBuff.others, Tcphdr.words, total_cons,
    total_append, total_nil, List.cons_append, List.nil_append]
  constructor <;> omega

/-- The first word of an IPv4 header is not zero. -/
theorem SkBuff.IsTcp.others_ip {skb : SkBuff} (h : skb.IsTcp) (a : Addr) :
    ∃ x ∈ skb.iph.others a, x ≠ 0 := by
  refine ⟨_, List.mem_append_left _ (List.mem_append_left _ List.mem_cons_self), fun hz => ?_⟩
  rw [h.version, bytesHalf, BitVec.toNat_eq, BitVec.toNat_append, BitVec.toNat_append] at hz
  simp [Nat.shiftLeft_eq] at hz

theorem SkBuff.IsTcp.others_tcp {skb : SkBuff} (h : skb.IsTcp) (a : Addr) :
    ∃ x ∈ skb.others a, x ≠ 0 := by
  refine ⟨_, List.mem_cons_self, ?_⟩
  rw [h.protocol]
  decide

section Valid

variable {cs} {skb : SkBuff}

/-- **Rewriting the destination keeps both checksums.** -/
theorem SkBuff.Valid.rewriteDaddr (hv : skb.Valid) (htcp : skb.IsTcp) (a : Addr) :
    (skb.rewriteDaddr cs a).Valid := by
  have hip := (validSum_congr (by decide) skb.iph.total_words.1).mp hv.ip
  have htcpv := (validSum_congr (by decide) skb.total_tcpWords.1).mp hv.tcp
  constructor
  · rw [validSum_congr (by decide) (Iphdr.total_words _).1]
    dsimp only [SkBuff.rewriteDaddr]
    rw [cs.ip_eq]
    exact hip.updateSum (by decide) (htcp.others_ip _)
  · rw [validSum_congr (by decide) (SkBuff.total_tcpWords _).1]
    dsimp only [SkBuff.rewriteDaddr]
    rw [cs.proto_eq]
    exact htcpv.updateSum (by decide) (htcp.others_tcp _)

/-- **Rewriting the source keeps both checksums.** -/
theorem SkBuff.Valid.rewriteSaddr (hv : skb.Valid) (htcp : skb.IsTcp) (a : Addr) :
    (skb.rewriteSaddr cs a).Valid := by
  have hip := (validSum_congr (by decide) skb.iph.total_words.2).mp hv.ip
  have htcpv := (validSum_congr (by decide) skb.total_tcpWords.2).mp hv.tcp
  constructor
  · rw [validSum_congr (by decide) (Iphdr.total_words _).2]
    dsimp only [SkBuff.rewriteSaddr]
    rw [cs.ip_eq]
    exact hip.updateSum (by decide) (htcp.others_ip _)
  · rw [validSum_congr (by decide) (SkBuff.total_tcpWords _).2]
    dsimp only [SkBuff.rewriteSaddr]
    rw [cs.proto_eq]
    exact htcpv.updateSum (by decide) (htcp.others_tcp _)

/-- A source that is changed alone invalidates the IP checksum, unless the two
    addresses have the same sum. -/
theorem SkBuff.Valid.setSaddr (hv : skb.Valid) (htcp : skb.IsTcp) {a : Addr}
    (hne : ¬ total (halves skb.iph.saddr) ≡ total (halves a) [MOD 2 ^ 16 - 1]) :
    ¬ (skb.setSaddr a).Valid := by
  intro hv'
  have hip := (validSum_congr (by decide) skb.iph.total_words.2).mp hv.ip
  have hip' := (validSum_congr (by decide) (Iphdr.total_words _).2).mp hv'.ip
  -- the check word counts as one of the words that stay
  have hswap : ∀ (c : BitVec 16) (as bs : List (BitVec 16)),
      total (c :: (as ++ bs)) = total (as ++ c :: bs) := by
    intro c as bs
    simp only [total_cons, total_append]
    omega
  rw [validSum_congr (by decide) (hswap ..)] at hip hip'
  obtain ⟨x, hx, hx0⟩ := htcp.others_ip skb.iph.daddr
  exact hne ((hip.replace_iff (by decide) _ ⟨x, List.mem_cons_of_mem _ hx, hx0⟩).mp hip')

end Valid

end MiddleboxSession
