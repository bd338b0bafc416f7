/-
  MiddleboxSession/Wire.lean
  ==========================
  **The datagrams of the update handshake, byte by byte.**

  One `header` (20 bytes) opens every datagram of the user-space agent; a SYN
  (action 4) appends the addresses of the hops that are still to be visited
  and a zero word, a SYN-ACK (action 5) and an ACK (action 6) only the zero
  word.  The bytes are built in four places of the source:

    * `sync_packet` of updateNotify.c           — `syncPacket`
    * `updateForward`, the SYN for the next hop — `forwardMesg`
    * `updateBack`, the SYN-ACK                 — `responseMesg`
    * `settingAck`, the ACK                     — `settingAck`

  Each of them is translated with its own offsets and lengths over checked
  buffers, and has one specification lemma here in terms of `synBytes`,
  `synAckBytes` and `ackBytes`.  No other module looks at an offset again.
-/
import MiddleboxSession.CBuffer

namespace MiddleboxSession

open CBuffer

/-! ### Addresses, flow keys, headers -/

/-- `in_addr`: the 32-bit `s_addr` as it stands in memory. -/
abbrev Addr := BitVec 32

/-- `inet_aton` and `in_aton` on a dotted quad. -/
def inetAton (a b c d : Byte) : Addr := bytesWord a b c d

structure SockAddr where
  addr : Addr
  port : BitVec 16
deriving DecidableEq, Repr

def UDP_PORT : BitVec 16 := 1025

structure Packet where
  src : SockAddr
  dst : SockAddr
  payload : List Byte
deriving DecidableEq, Repr

structure FlowKey where
  srcIP : BitVec 32
  dstIP : BitVec 32
  srcPort : BitVec 16
  dstPort : BitVec 16
deriving DecidableEq, Repr

structure Header where
  action : BitVec 32
  sequenceNum : BitVec 32
  srcIP : BitVec 32
  dstIP : BitVec 32
  srcPort : BitVec 16
  dstPort : BitVec 16
deriving DecidableEq, Repr

def sizeofHeader : Nat := 20

def Header.key (h : Header) : FlowKey := ⟨h.srcIP, h.dstIP, h.srcPort, h.dstPort⟩

def Header.mk' (action seq : BitVec 32) (k : FlowKey) : Header :=
  ⟨action, seq, k.srcIP, k.dstIP, k.srcPort, k.dstPort⟩

@[simp] theorem Header.action_mk' (a s : BitVec 32) (k : FlowKey) :
    (Header.mk' a s k).action = a := rfl
@[simp] theorem Header.sequenceNum_mk' (a s : BitVec 32) (k : FlowKey) :
    (Header.mk' a s k).sequenceNum = s := rfl
@[simp] theorem Header.key_mk' (a s : BitVec 32) (k : FlowKey) : (Header.mk' a s k).key = k := rfl

def Header.tailBytes (h : Header) : List Byte :=
  wordBytes h.sequenceNum ++ wordBytes h.srcIP ++ wordBytes h.dstIP ++
    halfBytes h.srcPort ++ halfBytes h.dstPort

def Header.bytes (h : Header) : List Byte := wordBytes h.action ++ h.tailBytes

@[simp] theorem Header.length_tailBytes (h : Header) : h.tailBytes.length = 16 := rfl

@[simp] theorem Header.length_bytes (h : Header) : h.bytes.length = 20 := rfl

@[simp] theorem Header.tailBytes_mk' (a s : BitVec 32) (k : FlowKey) :
    (Header.mk' a s k).tailBytes = (Header.mk' 0 s k).tailBytes := rfl

/-- `(header *) b`. -/
def Header.read (b : Buf) : Header :=
  ⟨b.word 0, b.word 4, b.word 8, b.word 12, b.half 16, b.half 18⟩

theorem Header.read_of_holds {b : Buf} {h : Header} {rest : List Byte}
    (hb : b.Holds 0 (h.bytes ++ rest)) : Header.read b = h := by
  have hh := hb.left
  simp only [Header.bytes, Header.tailBytes, ← List.append_assoc] at hh
  have h5 := hh.right
  have h4 := hh.left.right
  have h3 := hh.left.left.right
  have h2 := hh.left.left.left.right
  have h1 := hh.left.left.left.left.right
  have h0 := hh.left.left.left.left.left
  simp only [List.length_append, length_wordBytes, length_halfBytes, Nat.zero_add,
    Nat.reduceAdd] at h1 h2 h3 h4 h5
  simp [Header.read, h0.word, h1.word, h2.word, h3.word, h4.half, h5.half]

theorem Header.holds_tail (b : Buf) : b.Holds 4 (Header.read b).tailBytes := by
  simp only [Header.tailBytes, Buf.holds_append, List.length_append, length_wordBytes,
    length_halfBytes, Nat.reduceAdd]
  exact ⟨⟨⟨⟨b.holds_word 4, b.holds_word 8⟩, b.holds_word 12⟩, b.holds_half 16⟩, b.holds_half 18⟩

/-! ### The three kinds of datagram -/

/-- The flow key that `settingAck` writes, 10.0.0.1:1 -> 10.0.0.5:1. -/
def ackKey : FlowKey := ⟨inetAton 10 0 0 1, inetAton 10 0 0 5, 1, 1⟩

def addrBytes (hops : List Addr) : List Byte := hops.flatMap wordBytes

@[simp] theorem length_addrBytes (hops : List Addr) : (addrBytes hops).length = 4 * hops.length := by
  induction hops with
  | nil => rfl
  | cons a hops ih => simp [addrBytes, List.flatMap_cons] at ih ⊢; omega

@[simp] theorem addrBytes_cons (a : Addr) (hops : List Addr) :
    addrBytes (a :: hops) = wordBytes a ++ addrBytes hops := rfl

/-- SYN: the header, the hops to visit, a zero word. -/
def synBytes (k : FlowKey) (seq : BitVec 32) (hops : List Addr) : List Byte :=
  (Header.mk' 4 seq k).bytes ++ (addrBytes hops ++ wordBytes 0)

/-- SYN-ACK: the header and a zero word. -/
def synAckBytes (k : FlowKey) (seq : BitVec 32) : List Byte :=
  (Header.mk' 5 seq k).bytes ++ wordBytes 0

/-- ACK: the header that `settingAck` fills in and a zero word. -/
def ackBytes (seq : BitVec 32) : List Byte := (Header.mk' 6 seq ackKey).bytes ++ wordBytes 0

@[simp] theorem length_synBytes (k : FlowKey) (seq : BitVec 32) (hops : List Addr) :
    (synBytes k seq hops).length = 24 + 4 * hops.length := by
  simp [synBytes]; omega

@[simp] theorem length_synAckBytes (k : FlowKey) (seq : BitVec 32) :
    (synAckBytes k seq).length = 24 := rfl

@[simp] theorem length_ackBytes (seq : BitVec 32) : (ackBytes seq).length = 24 := rfl

/-! ### Receiving -/

/-- What `recvfrom` leaves behind: the 1400-byte buffer, its return value and
    the sender's address. -/
structure Datagram where
  mesg : Nat → Byte
  n : Int
  src : SockAddr

def Datagram.buf (d : Datagram) : Buf := ⟨1400, d.mesg⟩

@[simp] theorem Datagram.size_buf (d : Datagram) : d.buf.size = 1400 := rfl

def Datagram.header (d : Datagram) : Header := Header.read d.buf

/-- `recvfrom(.., buf, 1400, ..)` of a packet into a buffer with the contents
    `old`: the first 1400 bytes at most, the rest of the buffer unchanged. -/
def recvfrom (p : Packet) (old : Nat → Byte) : Datagram where
  mesg := fun i => if i < min p.payload.length 1400 then p.payload.getD i 0 else old i
  n := min p.payload.length 1400
  src := p.src

theorem recvfrom_holds {p : Packet} (old : Nat → Byte) (h : p.payload.length ≤ 1400) :
    (recvfrom p old).buf.Holds 0 p.payload := by
  intro i hi
  have hlt : i < min p.payload.length 1400 := by omega
  simp only [recvfrom, Datagram.buf, Nat.zero_add, if_pos hlt]
  simp [hi]

theorem recvfrom_n {p : Packet} (old : Nat → Byte) (h : p.payload.length ≤ 1400) :
    (recvfrom p old).n = p.payload.length := by
  simp only [recvfrom]
  omega

theorem recvfrom_header {p : Packet} (old : Nat → Byte) {h : Header} {rest : List Byte}
    (hp : p.payload = h.bytes ++ rest) (hlen : p.payload.length ≤ 1400) :
    (recvfrom p old).header = h :=
  Header.read_of_holds (hp ▸ recvfrom_holds old hlen)

/-- `sendto(.., b, len, ..)`: the payload, none if the call fails. -/
def sendto (b : Buf) (len : Int) : Option (List Byte) := b.read 0 len

theorem sendto_recvfrom {p : Packet} (old : Nat → Byte) (h : p.payload.length ≤ 1400) :
    sendto (recvfrom p old).buf (recvfrom p old).n = some p.payload :=
  (recvfrom_holds old h).read _ (recvfrom_n old h) (by simpa using h)

/-- The datagram has exactly these bytes. -/
structure Datagram.Carries (d : Datagram) (bytes : List Byte) : Prop where
  holds : d.buf.Holds 0 bytes
  length : d.n = bytes.length

theorem recvfrom_carries {p : Packet} (old : Nat → Byte) (h : p.payload.length ≤ 1400) :
    (recvfrom p old).Carries p.payload :=
  ⟨recvfrom_holds old h, recvfrom_n old h⟩

theorem Datagram.Carries.header {d : Datagram} {h : Header} {rest : List Byte}
    (hd : d.Carries (h.bytes ++ rest)) : d.header = h := Header.read_of_holds hd.holds

theorem Datagram.Carries.sendto {d : Datagram} {bytes : List Byte} (hd : d.Carries bytes)
    (h : bytes.length ≤ 1400) : sendto d.buf d.n = some bytes :=
  hd.holds.read d.n hd.length (by simpa using h)

/-! ### `sync_packet` -/

/-- The loop that copies the middlebox addresses behind the header. -/
def copyAddrs (b : Buf) (i : Nat) : List Addr → Option Buf
  | [] => some b
  | addr :: mbox => do
    let b ← b.write (sizeofHeader + 4 * i) (wordBytes addr)
    copyAddrs b (i + 1) mbox

/-- `sync_packet`: the datagram it sends for a flow key, a sequence number and
    a list of middleboxes.  `writeBuffer` is the zeroed array `sendline[1400]`
    of `main`; a list that does not fit into it is undefined behaviour. -/
def syncPacket (k : FlowKey) (seq : BitVec 32) (mbox : List Addr) : Option (List Byte) := do
  let writeBuffer : Buf := ⟨1400, fun _ => 0⟩
  let byteStreamCount := sizeofHeader + 4 + 4 * mbox.length
  let writeBuffer ← writeBuffer.write 0 (Header.mk' 4 seq k).bytes
  let writeBuffer ← copyAddrs writeBuffer 0 mbox
  writeBuffer.read 0 byteStreamCount

/-- `syncPacket` with the action code of a SYN left open. -/
def syncPacketOf (action : BitVec 32) (k : FlowKey) (seq : BitVec 32) (mbox : List Addr) :
    Option (List Byte) := do
  let writeBuffer : Buf := ⟨1400, fun _ => 0⟩
  let byteStreamCount := sizeofHeader + 4 + 4 * mbox.length
  let writeBuffer ← writeBuffer.write 0 (Header.mk' action seq k).bytes
  let writeBuffer ← copyAddrs writeBuffer 0 mbox
  writeBuffer.read 0 byteStreamCount

theorem copyAddrs_spec (b : Buf) (i : Nat) (mbox : List Addr)
    (hsize : sizeofHeader + 4 * i + 4 * mbox.length ≤ b.size) :
    ∃ b', copyAddrs b i mbox = some b' ∧ b'.size = b.size ∧
      b'.Holds (sizeofHeader + 4 * i) (addrBytes mbox) ∧
      ∀ off cs, off + cs.length ≤ sizeofHeader + 4 * i ∨
          sizeofHeader + 4 * i + 4 * mbox.length ≤ off → b.Holds off cs → b'.Holds off cs := by
  induction mbox generalizing b i with
  | nil => exact ⟨b, rfl, rfl, Buf.holds_nil _ _, fun _ _ _ h => h⟩
  | cons addr mbox ih =>
    simp only [List.length_cons] at hsize
    obtain ⟨b₁, hw, hs₁, hh₁, hf₁⟩ := Buf.write_spec b (sizeofHeader + 4 * i)
      (wordBytes addr) (by simp; omega)
    obtain ⟨b₂, hc, hs₂, hh₂, hf₂⟩ := ih b₁ (i + 1) (by omega)
    refine ⟨b₂, by simp [copyAddrs, hw, hc], hs₂.trans hs₁, ?_, fun off cs hdisj h => ?_⟩
    · rw [addrBytes_cons, Buf.holds_append]
      refine ⟨hf₂ _ _ (Or.inl (by simp; omega)) hh₁, ?_⟩
      rw [length_wordBytes]
      exact hh₂
    · simp only [List.length_cons] at hdisj
      exact hf₂ _ _ (by omega) (hf₁ _ _ (by simp; omega) h)

theorem syncPacketOf_eq {action : BitVec 32} {k : FlowKey} {seq : BitVec 32} {mbox : List Addr}
    (hfit : 24 + 4 * mbox.length ≤ 1400) :
    syncPacketOf action k seq mbox =
      some ((Header.mk' action seq k).bytes ++ (addrBytes mbox ++ wordBytes 0)) := by
  obtain ⟨b₁, hw, hs₁, hh₁, hf₁⟩ := Buf.write_spec ⟨1400, fun _ => 0⟩ 0
    (Header.mk' action seq k).bytes (by simp)
  obtain ⟨b₂, hc, hs₂, hh₂, hf₂⟩ := copyAddrs_spec b₁ 0 mbox (by
    rw [hs₁, sizeofHeader]; dsimp only; omega)
  have hzero : b₂.Holds (sizeofHeader + 4 * mbox.length) (wordBytes 0) := by
    refine hf₂ _ _ (Or.inr (by omega)) (hf₁ _ _ (Or.inr ?_) fun i hi => ?_)
    · simp [sizeofHeader]
    · have : i = 0 ∨ i = 1 ∨ i = 2 ∨ i = 3 := by simp at hi; omega
      rcases this with rfl | rfl | rfl | rfl <;> rfl
  have hall : b₂.Holds 0 ((Header.mk' action seq k).bytes ++ (addrBytes mbox ++ wordBytes 0)) := by
    rw [Buf.holds_append, Buf.holds_append]
    refine ⟨hf₂ _ _ (Or.inl (by simp [sizeofHeader])) hh₁, ?_, ?_⟩
    · simpa [sizeofHeader] using hh₂
    · simpa [sizeofHeader] using hzero
  have hread := hall.read ↑(sizeofHeader + 4 + 4 * mbox.length) (by
    simp [sizeofHeader]; omega) (by rw [hs₂, hs₁]; simp; omega)
  simp only [syncPacketOf, hw, hc, hread, Option.bind_eq_bind, Option.bind_some]

/-- `sync_packet` sends a SYN that names exactly its middleboxes. -/
theorem syncPacket_eq {k : FlowKey} {seq : BitVec 32} {mbox : List Addr}
    (hfit : 24 + 4 * mbox.length ≤ 1400) :
    syncPacket k seq mbox = some (synBytes k seq mbox) := syncPacketOf_eq hfit

theorem copyAddrs_size {b b' : Buf} {i : Nat} {mbox : List Addr}
    (h : copyAddrs b i mbox = some b') : b'.size = b.size := by
  induction mbox generalizing b i with
  | nil => cases h; rfl
  | cons addr mbox ih =>
    obtain ⟨b₁, hw, hc⟩ := Option.bind_eq_some_iff.mp h
    exact (ih hc).trans (Buf.write_eq_some hw).2

/-- A longer list leaves `sendline`: where `sync_packet` is defined, its
    datagram fits into the 1400 bytes. -/
theorem syncPacketOf_fits {action : BitVec 32} {k : FlowKey} {seq : BitVec 32} {mbox : List Addr}
    {mesg : List Byte} (h : syncPacketOf action k seq mbox = some mesg) :
    24 + 4 * mbox.length ≤ 1400 := by
  simp only [syncPacketOf, Option.bind_eq_bind, Option.bind_eq_some_iff] at h
  obtain ⟨b₁, hw, b₂, hc, hread⟩ := h
  have hsize₁ := (Buf.write_eq_some hw).2
  have hsize₂ := copyAddrs_size hc
  have hbound := (Buf.read_eq_some hread).2.1
  rw [hsize₂, hsize₁] at hbound
  simp only [sizeofHeader] at hbound
  omega

theorem syncPacket_eq_some {k : FlowKey} {seq : BitVec 32} {mbox : List Addr} {mesg : List Byte}
    (h : syncPacket k seq mbox = some mesg) :
    24 + 4 * mbox.length ≤ 1400 ∧ mesg = synBytes k seq mbox := by
  have hfit := syncPacketOf_fits h
  rw [syncPacket_eq hfit, Option.some.injEq] at h
  exact ⟨hfit, h.symm⟩

/-! ### `updateForward` and `updateBack` -/

/-- The offsets that the printing loops read, `for (i=sizeof(header); i<n-4; i+=4)`. -/
def hopOffsets (n : Int) : List Nat :=
  List.range' sizeofHeader ((n - 4 - sizeofHeader + 3) / 4).toNat 4

def printHops (request : Buf) (n : Int) : Option Unit :=
  if ∀ i ∈ hopOffsets n, i + 4 ≤ request.size then some () else none

theorem printHops_spec (request : Buf) (n : Int) (h : n ≤ request.size) :
    printHops request n = some () := by
  refine if_pos fun i hi => ?_
  obtain ⟨j, hj, rfl⟩ := List.mem_range'.mp hi
  simp only [sizeofHeader] at hj ⊢
  omega

/-- `updateForward` up to its first `sendto`: the next hop, and the SYN for it. -/
def forwardMesg (request : Buf) (n : Int) : Option (Addr × List Byte) := do
  printHops request n
  let sendmsg ← Buf.alloca (n - 4)
  let sendmsg ← sendmsg.memcpy 4 request 4 16
  let sendmsg ← sendmsg.memcpy sizeofHeader request (sizeofHeader + 4) (n - sizeofHeader - 4)
  let sendmsg ← sendmsg.write 0 (wordBytes 4)
  let addr ← request.readWord (sizeofHeader + 4)
  let mesg ← sendto sendmsg (n - 4)
  return (addr, mesg)

/-- `forwardMesg` with the action code of a SYN left open. -/
def forwardMesgOf (action : BitVec 32) (request : Buf) (n : Int) : Option (Addr × List Byte) := do
  printHops request n
  let sendmsg ← Buf.alloca (n - 4)
  let sendmsg ← sendmsg.memcpy 4 request 4 16
  let sendmsg ← sendmsg.memcpy sizeofHeader request (sizeofHeader + 4) (n - sizeofHeader - 4)
  let sendmsg ← sendmsg.write 0 (wordBytes action)
  let addr ← request.readWord (sizeofHeader + 4)
  let mesg ← sendto sendmsg (n - 4)
  return (addr, mesg)

/-- `updateBack` up to its loop: the SYN-ACK. -/
def responseMesg (request : Buf) (n : Int) : Option (List Byte) := do
  printHops request n
  let response ← Buf.alloca (n - 4)
  let response ← response.memcpy 4 request 4 (sizeofHeader - 4)
  let response ← response.write 0 (wordBytes 5)
  let response ← response.write sizeofHeader (wordBytes 0)
  sendto response (n - 4)

theorem forwardMesgOf_eq {request : Buf} {action : BitVec 32} {k : FlowKey} {seq : BitVec 32}
    {rest : List Byte}
    (htail : request.Holds 4 (Header.mk' 0 seq k).tailBytes) (hrest : request.Holds 24 rest)
    (hsize : request.size = 1400) (hlo : 4 ≤ rest.length) (hhi : 24 + rest.length ≤ 1400) :
    forwardMesgOf action request (24 + rest.length : Nat) =
      some (request.word 24, (Header.mk' action seq k).bytes ++ rest) := by
  have hrest : request.Holds (sizeofHeader + 4) rest := hrest
  obtain ⟨s₀, halloc, hs₀⟩ := Buf.alloca_spec
    (n := ((24 + rest.length : Nat) : Int) - 4) (by omega)
  obtain ⟨s₁, hc₁, hs₁, hh₁, hf₁⟩ := Buf.memcpy_spec s₀ 4 16 htail
    (by simp) (by simp [hsize]) (by simp; omega)
  obtain ⟨s₂, hc₂, hs₂, hh₂, hf₂⟩ := Buf.memcpy_spec s₁ sizeofHeader
    (((24 + rest.length : Nat) : Int) - sizeofHeader - 4) hrest
    (by simp [sizeofHeader]; omega) (by simp [hsize, sizeofHeader]; omega)
    (by simp [sizeofHeader]; omega)
  obtain ⟨s₃, hw, hs₃, hh₃, hf₃⟩ := Buf.write_spec s₂ 0 (wordBytes action)
    (by simp; omega)
  have hall : s₃.Holds 0 ((Header.mk' action seq k).bytes ++ rest) := by
    rw [Header.bytes, Buf.holds_append, Buf.holds_append]
    refine ⟨⟨hh₃, ?_⟩, ?_⟩
    · refine hf₃ _ _ (Or.inr (by simp)) (hf₂ _ _ (Or.inl (by simp [sizeofHeader])) ?_)
      simpa using hh₁
    · refine hf₃ _ _ (Or.inr (by simp)) ?_
      simpa [sizeofHeader] using hh₂
  have hread := hall.read (((24 + rest.length : Nat) : Int) - 4)
    (by simp; omega) (by simp; omega)
  have haddr : request.readWord (sizeofHeader + 4) = some (request.word 24) :=
    (request.holds_word 24).readWord (by simp [hsize])
  simp only [forwardMesgOf, printHops_spec request ((24 + rest.length : Nat) : Int) (by omega),
    halloc, hc₁, hc₂, hw, haddr, sendto, hread, Option.bind_eq_bind, Option.bind_some,
    Option.pure_def]

/-- What `updateForward` sends on, whatever it has received: a SYN with the header
    fields of the request, and the bytes `rest` behind its first address. -/
theorem forwardMesg_eq {request : Buf} {k : FlowKey} {seq : BitVec 32} {rest : List Byte}
    (htail : request.Holds 4 (Header.mk' 0 seq k).tailBytes) (hrest : request.Holds 24 rest)
    (hsize : request.size = 1400) (hlo : 4 ≤ rest.length) (hhi : 24 + rest.length ≤ 1400) :
    forwardMesg request (24 + rest.length : Nat) =
      some (request.word 24, (Header.mk' 4 seq k).bytes ++ rest) :=
  forwardMesgOf_eq htail hrest hsize hlo hhi

theorem forwardMesgOf_syn {request : Buf} {action : BitVec 32} {k : FlowKey} {seq : BitVec 32}
    {a b : Addr} {hops : List Addr}
    (hreq : request.Holds 0
      ((Header.mk' action seq k).bytes ++ (addrBytes (a :: b :: hops) ++ wordBytes 0)))
    (hsize : request.size = 1400) (hfit : 24 + 4 * (hops.length + 2) ≤ 1400) :
    forwardMesgOf action request (24 + 4 * (hops.length + 2) : Nat) =
      some (b, (Header.mk' action seq k).bytes ++ (addrBytes (b :: hops) ++ wordBytes 0)) := by
  simp only [Header.bytes, addrBytes_cons, Buf.holds_append, List.length_append,
    length_wordBytes, Header.length_tailBytes, Nat.zero_add, Nat.reduceAdd] at hreq
  obtain ⟨⟨_, htail⟩, ⟨_, hb, hhops⟩, hzero⟩ := hreq
  simp only [length_addrBytes] at hzero
  have hrest : request.Holds 24 (addrBytes (b :: hops) ++ wordBytes 0) := by
    rw [Buf.holds_append, addrBytes_cons, Buf.holds_append]
    refine ⟨⟨hb, hhops⟩, ?_⟩
    convert hzero using 1
    simp; omega
  have hlen : (addrBytes (b :: hops) ++ wordBytes 0).length = 4 * (hops.length + 2) := by
    simp; omega
  have h := @forwardMesgOf_eq request action k seq _ htail hrest hsize (by omega) (by omega)
  rw [hlen, hb.word] at h
  exact h

/-- The branch test of both agents, `n > sizeof(header) + 8` with `n` as a `size_t`. -/
theorem sizeT_gt_iff {n : Int} (hlo : -1 ≤ n) (hhi : n ≤ 1400) :
    (BitVec.ofInt 64 n).toNat > sizeofHeader + 8 ↔ n = -1 ∨ 28 < n := by
  rw [BitVec.toNat_ofInt, sizeofHeader]
  omega

/-- Forwarding a SYN drops its first hop and keeps everything else. -/
theorem forwardMesg_syn {request : Buf} {k : FlowKey} {seq : BitVec 32} {a b : Addr}
    {hops : List Addr} (hreq : request.Holds 0 (synBytes k seq (a :: b :: hops)))
    (hsize : request.size = 1400) (hfit : 24 + 4 * (hops.length + 2) ≤ 1400) :
    forwardMesg request (24 + 4 * (hops.length + 2) : Nat) =
      some (b, synBytes k seq (b :: hops)) := forwardMesgOf_syn hreq hsize hfit

/-- What `updateBack` answers with: the SYN-ACK of the same update, whatever
    address the request names. -/
theorem responseMesg_eq {request : Buf} {k : FlowKey} {seq : BitVec 32}
    (htail : request.Holds 4 (Header.mk' 0 seq k).tailBytes) (hsize : request.size = 1400) :
    responseMesg request 28 = some (synAckBytes k seq) := by
  obtain ⟨s₀, halloc, hs₀⟩ := Buf.alloca_spec (n := 28 - 4) (by omega)
  obtain ⟨s₁, hc₁, hs₁, hh₁, hf₁⟩ := Buf.memcpy_spec s₀ 4
    ((sizeofHeader : Int) - 4) htail (by simp [sizeofHeader]) (by simp [hsize])
    (by simp; omega)
  obtain ⟨s₂, hw₂, hs₂, hh₂, hf₂⟩ := Buf.write_spec s₁ 0 (wordBytes 5)
    (by simp; omega)
  obtain ⟨s₃, hw₃, hs₃, hh₃, hf₃⟩ := Buf.write_spec s₂ sizeofHeader (wordBytes 0)
    (by simp [sizeofHeader]; omega)
  have hall : s₃.Holds 0 (synAckBytes k seq) := by
    rw [synAckBytes, Header.bytes, Buf.holds_append, Buf.holds_append]
    refine ⟨⟨?_, ?_⟩, hh₃⟩
    · exact hf₃ _ _ (Or.inl (by simp [sizeofHeader])) hh₂
    · refine hf₃ _ _ (Or.inl (by simp [sizeofHeader])) (hf₂ _ _ (Or.inr (by simp)) ?_)
      simpa using hh₁
  have hread := hall.read (28 - 4) (by simp) (by simp; omega)
  simp only [responseMesg, printHops_spec request 28 (by omega), halloc, hc₁,
    hw₂, hw₃, sendto, hread, Option.bind_eq_bind, Option.bind_some]

/-- The last hop answers a SYN with the SYN-ACK of the same update. -/
theorem responseMesg_syn {request : Buf} {k : FlowKey} {seq : BitVec 32} {a : Addr}
    (hreq : request.Holds 0 (synBytes k seq [a])) (hsize : request.size = 1400) :
    responseMesg request 28 = some (synAckBytes k seq) := by
  simp only [synBytes, Header.bytes, Buf.holds_append, length_wordBytes, Nat.zero_add] at hreq
  exact responseMesg_eq hreq.1.2 hsize

/-! ### `settingAck` -/

/-- `settingAck`: fill in an ACK for a sequence number. -/
def settingAck (ackMesg : Buf) (sequenceNumber : BitVec 32) : Option Buf := do
  let ackMesg ← ackMesg.write sizeofHeader (wordBytes 0)
  ackMesg.write 0 (Header.mk' 6 sequenceNumber ackKey).bytes

/-- The ACK datagram that `updateForward` sends, and the initiator. -/
def ackMesg (sequenceNumber : BitVec 32) : Option (List Byte) := do
  let headerLength : Int := sizeofHeader + 4
  let ackMesg ← Buf.alloca headerLength
  let ackMesg ← settingAck ackMesg sequenceNumber
  sendto ackMesg headerLength

/-- The ACK carries the sequence number it is given, and always `ackKey`. -/
theorem ackMesg_eq (seq : BitVec 32) : ackMesg seq = some (ackBytes seq) := by
  obtain ⟨s₀, halloc, hs₀⟩ := Buf.alloca_spec (n := (sizeofHeader : Int) + 4) (by
    simp [sizeofHeader])
  have hs₀' : s₀.size = 24 := by simp only [sizeofHeader] at hs₀; omega
  obtain ⟨s₁, hw₁, hs₁, hh₁, hf₁⟩ := Buf.write_spec s₀ sizeofHeader (wordBytes 0)
    (by simp [sizeofHeader, hs₀'])
  obtain ⟨s₂, hw₂, hs₂, hh₂, hf₂⟩ := Buf.write_spec s₁ 0 (Header.mk' 6 seq ackKey).bytes
    (by simp [hs₁, hs₀'])
  have hall : s₂.Holds 0 (ackBytes seq) := by
    rw [ackBytes, Buf.holds_append]
    exact ⟨hh₂, hf₂ _ _ (Or.inr (by simp)) (by simpa [sizeofHeader] using hh₁)⟩
  have hread := hall.read ((sizeofHeader : Int) + 4) (by simp [sizeofHeader])
    (by simp [hs₂, hs₁, hs₀'])
  simp only [ackMesg, settingAck, halloc, hw₁, hw₂, sendto, hread, Option.bind_eq_bind,
    Option.bind_some]

end MiddleboxSession
