/-
  MiddleboxSession/Bounds.lean
  ============================
  **The buffer accesses of update handling.**

  `handleUpdate` and `handleRequest` choose between forwarding and answering
  with `n > sizeof(header) + 8`, which converts `n` to a `size_t`, and nothing
  else looks at `n` before both branches make arrays and copies of sizes that
  depend on it.  An access outside an array, an array of a size that is not
  positive and a negative copy length are all `none` in the model, and end the
  handling as `undefined`.  The theorems say for which `n` that happens.
-/
import MiddleboxSession.Threads
import MiddleboxSession.Emulator.Server

namespace MiddleboxSession

open CBuffer

/-! ### The two messages -/

section Messages

variable {request : Buf} {n : Int}

/-- The SYN for the next hop can be built from 24 bytes on. -/
theorem forwardMesgOf_isSome (hsize : request.size = 1400) (hn : n ≤ 1400) (action : BitVec 32) :
    (forwardMesgOf action request n).isSome ↔ 24 ≤ n := by
  constructor
  · intro h
    obtain ⟨mesg, hmesg⟩ := Option.isSome_iff_exists.mp h
    simp only [forwardMesgOf, Option.bind_eq_bind, Option.bind_eq_some_iff] at hmesg
    obtain ⟨-, -, s₀, -, s₁, -, s₂, hc₂, -⟩ := hmesg
    obtain ⟨hlen, -⟩ := Buf.memcpy_eq_some hc₂
    simp only [sizeofHeader] at hlen
    omega
  · intro h
    obtain ⟨s₀, halloc, hs₀⟩ := Buf.alloca_spec (n := n - 4) (by omega)
    obtain ⟨s₁, hc₁, hs₁⟩ := Buf.memcpy_defined s₀ 4 request 4 (by omega : (0 : Int) ≤ 16)
      (by omega) (by omega)
    obtain ⟨s₂, hc₂, hs₂⟩ := Buf.memcpy_defined s₁ sizeofHeader request (sizeofHeader + 4)
      (by simp only [sizeofHeader]; omega : 0 ≤ n - sizeofHeader - 4)
      (by simp only [sizeofHeader]; omega) (by simp only [sizeofHeader]; omega)
    obtain ⟨s₃, hw, hs₃, -⟩ := Buf.write_spec s₂ 0 (wordBytes action) (by simp; omega)
    have haddr := (request.holds_word (sizeofHeader + 4)).readWord (by simp [hsize, sizeofHeader])
    obtain ⟨mesg, hread⟩ := s₃.read_defined 0 (by omega : 0 ≤ n - 4) (by omega)
    simp only [forwardMesgOf, printHops_spec request n (by omega), halloc, hc₁, hc₂, hw, haddr,
      sendto, hread, Option.bind_eq_bind, Option.bind_some, Option.pure_def, Option.isSome_some]

/-- `updateBack` and `sendBack` up to their loops: an answer of `size` bytes, of
    which `len` are copied from the request. -/
def responseOf (action port : BitVec 32) (size len : Int) (request : Buf) (n : Int) :
    Option (List Byte) := do
  printHops request n
  let response ← Buf.alloca size
  let response ← response.memcpy 4 request 4 len
  let response ← response.write 0 (wordBytes action)
  let response ← response.write sizeofHeader (wordBytes port)
  sendto response size

/-- An answer can be built where it holds what is copied, and the port, and the
    request holds what is copied. -/
theorem responseOf_isSome (hsize : request.size = 1400) (action port : BitVec 32)
    {size len : Int} (hn : len ≤ 1396 → n ≤ 1400) :
    (responseOf action port size len request n).isSome ↔
      24 ≤ size ∧ 0 ≤ len ∧ len ≤ 1396 ∧ len + 4 ≤ size := by
  constructor
  · intro h
    obtain ⟨mesg, hmesg⟩ := Option.isSome_iff_exists.mp h
    simp only [responseOf, Option.bind_eq_bind, Option.bind_eq_some_iff] at hmesg
    obtain ⟨-, -, s₀, halloc, s₁, hc, s₂, hw₁, s₃, hw₂, -⟩ := hmesg
    obtain ⟨-, hs₀⟩ := Buf.alloca_eq_some halloc
    obtain ⟨hpos, hsrc, hdst, hs₁⟩ := Buf.memcpy_eq_some hc
    obtain ⟨-, hs₂⟩ := Buf.write_eq_some hw₁
    obtain ⟨hend, -⟩ := Buf.write_eq_some hw₂
    simp only [sizeofHeader, length_wordBytes] at hend
    omega
  · rintro ⟨hlo, hpos, hhi, hfit⟩
    have hn := hn hhi
    obtain ⟨s₀, halloc, hs₀⟩ := Buf.alloca_spec (n := size) (by omega)
    obtain ⟨s₁, hc, hs₁⟩ := Buf.memcpy_defined s₀ 4 request 4 hpos (by omega) (by omega)
    obtain ⟨s₂, hw₁, hs₂, -⟩ := Buf.write_spec s₁ 0 (wordBytes action) (by simp; omega)
    obtain ⟨s₃, hw₂, hs₃, -⟩ := Buf.write_spec s₂ sizeofHeader (wordBytes port)
      (by simp only [sizeofHeader, length_wordBytes]; omega)
    obtain ⟨mesg, hread⟩ := s₃.read_defined 0 (by omega : 0 ≤ size) (by omega)
    simp only [responseOf, printHops_spec request n (by omega), halloc, hc, hw₁, hw₂, sendto,
      hread, Option.bind_eq_bind, Option.bind_some, Option.isSome_some]

/-- The SYN-ACK of `updateBack` can be built from 28 bytes on. -/
theorem responseMesg_isSome (hsize : request.size = 1400) (hn : n ≤ 1400) :
    (responseMesg request n).isSome ↔ 28 ≤ n := by
  have hof : responseMesg request n = responseOf 5 0 (n - 4) (sizeofHeader - 4) request n := rfl
  rw [hof, responseOf_isSome hsize 5 0 fun _ => hn, sizeofHeader]
  omega

/-- The SYN-ACK of `sendBack` can be built from 24 bytes on. -/
theorem Emulator.responseMesg_isSome (hsize : request.size = 1400) (hashport : BitVec 32) :
    (Emulator.responseMesg request n hashport).isSome ↔ 24 ≤ n ∧ n ≤ 1400 := by
  have hof : Emulator.responseMesg request n hashport =
      responseOf 2 hashport n (n - 4) request n := rfl
  rw [hof, responseOf_isSome hsize 2 hashport (by omega)]
  omega

end Messages

/-! ### The handlers -/

section Handlers

variable {request : Buf} {n : Int}

/-- The handling goes wrong where the message of its branch cannot be built. -/
theorem handleUpdate_eq_undefined : handleUpdate request n = .undefined ↔
    0 < (Header.read request).sequenceNum.toInt ∧
      if (BitVec.ofInt 64 n).toNat > sizeofHeader + 8 then forwardMesg request n = none
      else responseMesg request n = none := by
  unfold handleUpdate
  dsimp only
  rw [sequenceNumber]
  split
  · exact iff_of_false (by simp) fun h => absurd h.1 (not_lt.mpr ‹_›)
  rename_i hseq
  rw [and_iff_right (not_le.mp hseq)]
  split <;> split <;> simp [*]

theorem Emulator.handleRequest_eq_undefined {hashport : BitVec 32} :
    Emulator.handleRequest request n hashport = .undefined ↔
      0 < (Header.read request).sequenceNum.toInt ∧
        if (BitVec.ofInt 64 n).toNat > sizeofHeader + 8 then Emulator.forwardMesg request n = none
        else Emulator.responseMesg request n hashport = none := by
  unfold Emulator.handleRequest
  dsimp only
  rw [Emulator.sequenceNumber]
  split
  · exact iff_of_false (by simp) fun h => absurd h.1 (not_lt.mpr ‹_›)
  rename_i hseq
  rw [and_iff_right (not_le.mp hseq)]
  split <;> split <;> simp [*]

/-- Of two messages that can be built from 24 and from `k` bytes on, the branch
    test chooses one that cannot be built exactly below `k`. -/
theorem branch_eq_none_iff {α β : Type*} {forward : Option α} {back : Option β} {k : Int}
    (hlo : -1 ≤ n) (hhi : n ≤ 1400) (hk : 24 ≤ k) (hk' : k ≤ 28)
    (hforward : forward.isSome ↔ 24 ≤ n) (hback : back.isSome ↔ k ≤ n) :
    (if (BitVec.ofInt 64 n).toNat > sizeofHeader + 8 then forward = none else back = none) ↔
      n < k := by
  have hlong := sizeT_gt_iff hlo hhi
  have hnoForward : forward = none ↔ ¬ 24 ≤ n := by
    rw [← hforward, Option.not_isSome_iff_eq_none]
  have hnoBack : back = none ↔ ¬ k ≤ n := by
    rw [← hback, Option.not_isSome_iff_eq_none]
  split
  · rename_i hn
    have hn := hlong.mp hn
    rw [hnoForward]
    omega
  · rw [hnoBack, not_le]

theorem handleUpdate_undefined_iff (hsize : request.size = 1400) (hlo : -1 ≤ n) (hhi : n ≤ 1400) :
    handleUpdate request n = .undefined ↔
      0 < (Header.read request).sequenceNum.toInt ∧ n < 28 := by
  have hforward : (forwardMesg request n).isSome ↔ 24 ≤ n := forwardMesgOf_isSome hsize hhi 4
  have hback := responseMesg_isSome hsize hhi
  rw [handleUpdate_eq_undefined, branch_eq_none_iff hlo hhi (by omega) le_rfl hforward hback]

theorem Emulator.handleRequest_undefined_iff (hsize : request.size = 1400) (hlo : -1 ≤ n)
    (hhi : n ≤ 1400) (hashport : BitVec 32) :
    Emulator.handleRequest request n hashport = .undefined ↔
      0 < (Header.read request).sequenceNum.toInt ∧ n < 24 := by
  have hforward : (Emulator.forwardMesg request n).isSome ↔ 24 ≤ n :=
    forwardMesgOf_isSome hsize hhi 1
  have hback : (Emulator.responseMesg request n hashport).isSome ↔ 24 ≤ n :=
    (Emulator.responseMesg_isSome hsize hashport).trans (and_iff_left hhi)
  rw [Emulator.handleRequest_eq_undefined,
    branch_eq_none_iff hlo hhi le_rfl (by omega) hforward hback]

end Handlers

/-! ### The lengths that are safe -/

/-- No array of the handling has a size that is not positive, no copy has a
    negative length, and no access leaves its array. -/
def InBounds (d : Datagram) : Prop := handleUpdate d.buf d.n ≠ .undefined

def Emulator.InBounds (d : Datagram) : Prop :=
  ∀ hashport, Emulator.handleRequest d.buf d.n hashport ≠ .undefined

/-- **When update handling stays in bounds.**  Whatever the buffer holds: in
    `handleUpdate` if and only if the sequence number is not positive, so that
    nothing is built, or at least 28 bytes were received; in `handleRequest` 24
    bytes are enough. -/
theorem accesses_in_bounds_iff (d : Datagram) (hn : d.n = -1 ∨ 0 ≤ d.n ∧ d.n ≤ 1400) :
    (InBounds d ↔ d.header.sequenceNum.toInt ≤ 0 ∨ 28 ≤ d.n) ∧
    (Emulator.InBounds d ↔ d.header.sequenceNum.toInt ≤ 0 ∨ 24 ≤ d.n) := by
  have hlo : -1 ≤ d.n := by omega
  have hhi : d.n ≤ 1400 := by omega
  have hread : Header.read d.buf = d.header := rfl
  constructor
  · rw [InBounds, ne_eq, handleUpdate_undefined_iff d.size_buf hlo hhi, hread]
    omega
  · constructor
    · intro h
      have h0 := h 0
      rw [ne_eq, Emulator.handleRequest_undefined_iff d.size_buf hlo hhi, hread] at h0
      omega
    · intro h hashport
      rw [ne_eq, Emulator.handleRequest_undefined_iff d.size_buf hlo hhi, hread]
      omega

/-- The header of a SYN and nothing behind it. -/
def bareSyn (action : BitVec 32) : Datagram :=
  recvfrom ⟨⟨inetAton 10 0 0 1, 5000⟩, ⟨inetAton 10 0 0 2, UDP_PORT⟩,
    (Header.mk' action 100 ⟨inetAton 10 0 0 1, inetAton 10 0 0 5, 1, 1⟩).bytes⟩ 0

theorem accesses_in_bounds_bare : ¬ InBounds (bareSyn 4) ∧ ¬ Emulator.InBounds (bareSyn 1) := by
  obtain ⟨hupdate, -⟩ := accesses_in_bounds_iff (bareSyn 4) (by decide)
  obtain ⟨-, hrequest⟩ := accesses_in_bounds_iff (bareSyn 1) (by decide)
  rw [hupdate, hrequest]
  decide

/-- Both agents accept it and start a worker, which leaves its arrays. -/
theorem bare_syn_out_of_bounds :
    (¬ ∀ d : Datagram, dispatch FlowTable.empty d.header = .syn → InBounds d) ∧
    ¬ ∀ d : Datagram, Emulator.dispatch none d.header = .syn → Emulator.InBounds d := by
  constructor
  · intro h
    exact h (bareSyn 4) (by decide) (by decide)
  · intro h
    exact h (bareSyn 1) (by decide) 0 (by decide)

end MiddleboxSession
