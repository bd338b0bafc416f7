/-
  MiddleboxSession/Emulator/Wire.lean
  ===================================
  **The datagrams of the emulator** (clientUDP.c, serverUDP.c).

  The header is the one of the user-space agent and so is the SYN, under other
  action codes.  The last hop answers with all `n` bytes of its request, its
  `hashport` in the place of the first address.  An ACK and a keepalive are a
  header of which only the first two fields are written; the other bytes are
  what the array on the stack held.
-/
import MiddleboxSession.Wire

namespace MiddleboxSession.Emulator

open CBuffer

/-! ### The kinds of datagram -/

def synBytes (k : FlowKey) (seq : BitVec 32) (hops : List Addr) : List Byte :=
  (Header.mk' 1 seq k).bytes ++ (addrBytes hops ++ wordBytes 0)

def synAckBytes (k : FlowKey) (seq port : BitVec 32) : List Byte :=
  (Header.mk' 2 seq k).bytes ++ (wordBytes port ++ wordBytes 0)

@[simp] theorem length_synBytes (k : FlowKey) (seq : BitVec 32) (hops : List Addr) :
    (synBytes k seq hops).length = 24 + 4 * hops.length := by
  simp [synBytes]; omega

@[simp] theorem length_synAckBytes (k : FlowKey) (seq port : BitVec 32) :
    (synAckBytes k seq port).length = 28 := rfl

/-! ### clientUDP -/

/-- `sync_packet` of clientUDP.c. -/
def syncPacket (k : FlowKey) (seq : BitVec 32) (mbox : List Addr) : Option (List Byte) :=
  syncPacketOf 1 k seq mbox

theorem syncPacket_eq {k : FlowKey} {seq : BitVec 32} {mbox : List Addr}
    (hfit : 24 + 4 * mbox.length ≤ 1400) :
    syncPacket k seq mbox = some (synBytes k seq mbox) := syncPacketOf_eq hfit

theorem syncPacket_eq_some {k : FlowKey} {seq : BitVec 32} {mbox : List Addr} {mesg : List Byte}
    (h : syncPacket k seq mbox = some mesg) :
    24 + 4 * mbox.length ≤ 1400 ∧ mesg = synBytes k seq mbox := by
  have hfit := syncPacketOf_fits h
  rw [syncPacket_eq hfit, Option.some.injEq] at h
  exact ⟨hfit, h.symm⟩

/-- A bare header with its first two fields written over what `AckMesg` held. -/
def shortMesg (action seq : BitVec 32) (old : Nat → Byte) : Option (List Byte) := do
  let headerLength : Int := sizeofHeader
  let mesg : Buf := ⟨sizeofHeader, old⟩
  let mesg ← mesg.write 0 (wordBytes action)
  let mesg ← mesg.write 4 (wordBytes seq)
  sendto mesg headerLength

/-- The ACK, of clientUDP and of `sendForward`. -/
def ackMesg (seq : BitVec 32) (old : Nat → Byte) : Option (List Byte) := shortMesg 3 seq old

/-- `keepalive` of clientUDP.c. -/
def keepaliveMesg (seq : BitVec 32) (old : Nat → Byte) : Option (List Byte) := shortMesg 4 seq old

/-- The flow key that the rest of the array happens to spell. -/
def keyOf (old : Nat → Byte) : FlowKey := (Header.read ⟨sizeofHeader, old⟩).key

theorem shortMesg_eq (action seq : BitVec 32) (old : Nat → Byte) :
    shortMesg action seq old = some (Header.mk' action seq (keyOf old)).bytes := by
  obtain ⟨b₁, hw₁, hs₁, hh₁, hf₁⟩ := Buf.write_spec ⟨sizeofHeader, old⟩ 0 (wordBytes action)
    (by simp [sizeofHeader])
  obtain ⟨b₂, hw₂, hs₂, hh₂, hf₂⟩ := Buf.write_spec b₁ 4 (wordBytes seq)
    (by simp [hs₁, sizeofHeader])
  have hkeep : ∀ off cs, 8 ≤ off → Buf.Holds ⟨sizeofHeader, old⟩ off cs → b₂.Holds off cs := by
    intro off cs hoff hb
    exact hf₂ off cs (Or.inr hoff) (hf₁ off cs (Or.inr (by simp; omega)) hb)
  have hall : b₂.Holds 0 (Header.mk' action seq (keyOf old)).bytes := by
    simp only [Header.bytes, Header.tailBytes, Buf.holds_append, List.length_append,
      length_wordBytes, length_halfBytes, Nat.zero_add, Nat.reduceAdd]
    refine ⟨hf₂ 0 _ (Or.inl (by simp)) hh₁, ⟨⟨⟨hh₂, ?_⟩, ?_⟩, ?_⟩, ?_⟩
    · exact hkeep 8 _ (by omega) (Buf.holds_word _ 8)
    · exact hkeep 12 _ (by omega) (Buf.holds_word _ 12)
    · exact hkeep 16 _ (by omega) (Buf.holds_half _ 16)
    · exact hkeep 18 _ (by omega) (Buf.holds_half _ 18)
  have hread := hall.read (sizeofHeader : Int) (by simp [sizeofHeader])
    (by simp [hs₂, hs₁, sizeofHeader])
  simp only [shortMesg, hw₁, hw₂, sendto, hread, Option.bind_eq_bind, Option.bind_some]

/-! ### serverUDP -/

/-- `sendForward` up to its first `sendto`: the next hop, and the SYN for it. -/
def forwardMesg (request : Buf) (n : Int) : Option (Addr × List Byte) := forwardMesgOf 1 request n

theorem forwardMesg_syn {request : Buf} {k : FlowKey} {seq : BitVec 32} {a b : Addr}
    {hops : List Addr} (hreq : request.Holds 0 (synBytes k seq (a :: b :: hops)))
    (hsize : request.size = 1400) (hfit : 24 + 4 * (hops.length + 2) ≤ 1400) :
    forwardMesg request (24 + 4 * (hops.length + 2) : Nat) =
      some (b, synBytes k seq (b :: hops)) := forwardMesgOf_syn hreq hsize hfit

/-- `sendBack` up to its loop: the SYN-ACK, of the length of the request. -/
def responseMesg (request : Buf) (n : Int) (hashport : BitVec 32) : Option (List Byte) := do
  printHops request n
  let response ← Buf.alloca n
  let response ← response.memcpy 4 request 4 (n - 4)
  let response ← response.write 0 (wordBytes 2)
  let response ← response.write sizeofHeader (wordBytes hashport)
  sendto response n

/-- The last hop answers a SYN with the SYN-ACK of the same update. -/
theorem responseMesg_syn {request : Buf} {k : FlowKey} {seq : BitVec 32} {a : Addr}
    (hreq : request.Holds 0 (synBytes k seq [a])) (hsize : request.size = 1400)
    (hashport : BitVec 32) :
    responseMesg request 28 hashport = some (synAckBytes k seq hashport) := by
  have hbody : request.Holds 4 ((Header.mk' 0 seq k).tailBytes ++ (wordBytes a ++ wordBytes 0)) := by
    simp only [synBytes, Header.bytes, addrBytes_cons, Buf.holds_append, List.length_append,
      length_wordBytes, Header.length_tailBytes, Nat.zero_add, Nat.reduceAdd] at hreq ⊢
    exact ⟨hreq.1.2, hreq.2.1.1, hreq.2.2⟩
  obtain ⟨s₀, halloc, hs₀⟩ := Buf.alloca_spec (n := 28) (by omega)
  obtain ⟨s₁, hc₁, hs₁, hh₁, hf₁⟩ := Buf.memcpy_spec s₀ 4 (28 - 4) hbody (by simp)
    (by simp [hsize]) (by simp; omega)
  obtain ⟨s₂, hw₂, hs₂, hh₂, hf₂⟩ := Buf.write_spec s₁ 0 (wordBytes 2) (by simp; omega)
  obtain ⟨s₃, hw₃, hs₃, hh₃, hf₃⟩ := Buf.write_spec s₂ sizeofHeader (wordBytes hashport)
    (by simp [sizeofHeader]; omega)
  have hzero : s₁.Holds 24 (wordBytes 0) := hh₁.right.right
  have hall : s₃.Holds 0 (synAckBytes k seq hashport) := by
    rw [synAckBytes, Header.bytes, Buf.holds_append, Buf.holds_append, Buf.holds_append]
    refine ⟨⟨?_, ?_⟩, hh₃, ?_⟩
    · exact hf₃ 0 _ (Or.inl (by simp [sizeofHeader])) hh₂
    · refine hf₃ _ _ (Or.inl (by simp [sizeofHeader])) (hf₂ _ _ (Or.inr (by simp)) ?_)
      simpa using hh₁.left
    · refine hf₃ _ _ (Or.inr (by simp [sizeofHeader])) (hf₂ _ _ (Or.inr (by simp)) ?_)
      simpa using hzero
  have hread := hall.read 28 (by simp) (by simp; omega)
  simp only [responseMesg, printHops_spec request 28 (by omega), halloc, hc₁,
    hw₂, hw₃, sendto, hread, Option.bind_eq_bind, Option.bind_some]

end MiddleboxSession.Emulator
