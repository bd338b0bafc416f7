/-
  MiddleboxSession/Emulator/Acks.lean
  ===================================
  **The ACK of a hop matches the record of the next one.**

  All SYNs that a hop accepts from the socket of a worker are the one SYN this
  worker sent, so the record of the socket holds its number.  The SYN-ACK that
  the worker repeats has the same number, for the next hop copied it from that
  SYN, and it is evidence that the hops behind have accepted it too.
-/
import MiddleboxSession.Emulator.Invariant

namespace MiddleboxSession.Emulator

open CBuffer Runs

variable {sc : Scenario}

/-! ### The ACK -/

/-- Hop `m` of the list of update `u` has accepted the SYN of `u`. -/
def Accepted (s : System sc) (u : Fin sc.n) (m : Nat) : Prop :=
  ∃ x d, .syn d ∈ (s.servers x).log ∧ IsSyn (sc.update u) m x d

theorem NetInv.accepted_of_reached {s : System sc} (h : NetInv s) {x src : SockAddr}
    (hreached : Reached s x src) {u : Fin sc.n} {m : Nat}
    (hall : ∀ d, .syn d ∈ (s.servers x).log → d.src = src → IsSyn (sc.update u) m x d) :
    ∀ j, m ≤ j → j < (sc.update u).hops.length → Accepted s u j := by
  induction hreached generalizing m with
  | last x d hd hn =>
    intro j hle hlt
    have hsyn := hall d hd rfl
    have hlen := hsyn.carries.length
    simp only [hn, Update.syn, length_synBytes, List.length_map, List.length_drop] at hlen
    have hj : j = m := by omega
    exact ⟨x, d, hd, hj ▸ hsyn⟩
  | next x sock next d mesg hd howner hnext _ ih =>
    intro j hle hlt
    have hsyn := hall d hd rfl
    obtain ⟨hhop, hmesg⟩ := hsyn.forwardsTo hnext
    rcases Nat.eq_or_lt_of_le hle with rfl | hlater
    · exact ⟨x, d, hd, hsyn⟩
    · refine ih ?_ j hlater hlt
      rintro d' hd' rfl
      obtain ⟨-, hcarries⟩ := h.from_socket howner hnext hd'
      exact ⟨hhop, hmesg ▸ hcarries⟩

/-- An ACK from the socket of a worker goes to a hop that has accepted the SYN from
    there, with the same number, and so have the hops behind it. -/
theorem NetInv.ack_of_worker {s : System sc} (h : NetInv s) {p : Packet} (hp : p ∈ s.sent)
    {x : SockAddr} {e : Datagram} (howner : Owner s p.src x e) {old : Nat → Byte}
    (haction : (recvfrom p old).header.action = 3) :
    ∃ d, .syn d ∈ (s.servers p.dst).log ∧ d.src = p.src ∧
      (recvfrom p old).header.sequenceNum = d.header.sequenceNum ∧ Reached s p.dst p.src := by
  have hgenuine := h.genuine p hp
  have hcarries := recvfrom_carries old hgenuine.length_le
  have hfree := h.free p.src (h.opened p.src x e howner)
  cases hgenuine with
  | syn u m hhop hmesg _ =>
    rw [hmesg, Update.syn, synBytes] at hcarries
    rw [hcarries.header] at haction
    cases haction
  | synAck d k port hd _ _ _ =>
    obtain ⟨u, m, hsyn⟩ := h.isSyn hd
    exact absurd hfree.1 hsyn.served
  | ack d k hd hsrc hmesg hreached =>
    rw [hmesg, ← List.append_nil (Header.bytes _)] at hcarries
    refine ⟨d, hd, hsrc.symm, ?_, hsrc ▸ hreached⟩
    rw [hcarries.header, Header.sequenceNum_mk']
  | client u action stack hpu _ =>
    have hsrc : sc.sock u = p.src := by rw [hpu, System.clientPacket]
    exact absurd hsrc (hfree.2 u)

/-- The main loop accepts an ACK that matches the record of its sender. -/
theorem Server.mainRecv_ack {a : Server} {self : SockAddr} {d : Datagram} {r : Flow}
    (hr : findItem a.records (peerKey self d.src) = some r) (haction : d.header.action = 3)
    (hseq : r.sequenceNumber = d.header.sequenceNum) :
    findItem (a.mainRecv self d).records (peerKey self d.src) = some { r with acked := 1 } ∧
      (a.mainRecv self d).log = .ack d :: a.log := by
  have hd : dispatch (findItem a.records (peerKey self d.src)) d.header = .ack :=
    dispatch_eq_ack.mpr ⟨haction, r, hr, hseq⟩
  have hmain : a.mainRecv self d =
      { a with records := setAcked a.records (peerKey self d.src), log := .ack d :: a.log } := by
    simp only [mainRecv, hd]
  rw [hmain]
  refine ⟨?_, rfl⟩
  rw [findItem_setAcked hr, if_pos rfl]

/-- **ACKs between hops always match.**  Whatever the network does, an ACK that
    the `sendForward` of a hop `x` has sent finds at the next hop `y` a record
    for its socket with its sequence number, and is accepted; by then every hop
    behind `x` on the list of the update has accepted the SYN. -/
theorem acks_match {s s' : System sc} (hs : Reachable System.step (System.init sc) s)
    {y : SockAddr} {p : Packet} {old : Nat → Byte}
    (hstep : s.step (.mainRecv y p old) = some s')
    (haction : (recvfrom p old).header.action = 3) {x : SockAddr} {w : Worker}
    (hw : w ∈ (s.servers x).workers) (hsock : w.sock = some p.src) :
    (∃ r, findItem (s.servers y).records (peerKey y p.src) = some r ∧
      r.sequenceNumber = (recvfrom p old).header.sequenceNum ∧
      findItem (s'.servers y).records (peerKey y p.src) = some { r with acked := 1 }) ∧
    (s'.servers y).log = .ack (recvfrom p old) :: (s.servers y).log ∧
    (∃ u i, IsSyn (sc.update u) i x w.request) ∧
    ∀ u i, IsSyn (sc.update u) i x w.request → (sc.update u).hops[i + 1]? = some y ∧
      ∀ j, i < j → j < (sc.update u).hops.length → Accepted s u j := by
  have h := NetInv.reachable hs
  have howner : Owner s p.src x w.request := ⟨w, hw, hsock, rfl⟩
  obtain ⟨hp, rfl, hservers⟩ := System.mainRecv_spec hstep
  obtain ⟨d, hd, hsrc, hseq, hreached⟩ := h.ack_of_worker (h.net hp) howner haction
  rw [← hsrc] at howner hreached ⊢
  obtain ⟨mesg, hnext, -⟩ := h.forwarded howner hd
  obtain ⟨r, hr, hrseq⟩ : ∃ r, findItem (s.servers p.dst).records (peerKey p.dst d.src) = some r ∧
      r.sequenceNumber = (recvfrom p old).header.sequenceNum := by
    obtain ⟨d', hd', hsrc', hstored⟩ := h.record p.dst d hd
    obtain ⟨r, hr, hrseq⟩ := Option.map_eq_some_iff.mp hstored
    refine ⟨r, hr, ?_⟩
    calc r.sequenceNumber = d'.header.sequenceNum := hrseq
      _ = w.request.header.sequenceNum := h.seq_from_socket (hsrc' ▸ howner) hd'
      _ = d.header.sequenceNum := (h.seq_from_socket howner hd).symm
      _ = (recvfrom p old).header.sequenceNum := hseq.symm
  obtain ⟨hacked, hlog⟩ := Server.mainRecv_ack (hsrc ▸ hr) haction hrseq
  rw [hservers]
  refine ⟨⟨r, hr, hrseq, hsrc ▸ hacked⟩, hlog, h.isSyn (h.accepted howner), ?_⟩
  intro u i hsyn
  obtain ⟨hhop, hmesg⟩ := hsyn.forwardsTo hnext
  refine ⟨hhop, ?_⟩
  apply h.accepted_of_reached hreached
  intro d' hd' hsrc'
  have hcarries := (h.from_socket (hsrc' ▸ howner) hnext hd').2
  exact ⟨hhop, hmesg ▸ hcarries⟩

/-! ### Three hops -/

def clientSock : SockAddr := ⟨inetAton 10 0 0 1, 40000⟩
def hopA : SockAddr := ⟨inetAton 10 0 0 2, 1025⟩
def hopB : SockAddr := ⟨inetAton 10 0 0 3, 1025⟩
def hopC : SockAddr := ⟨inetAton 10 0 0 5, 1025⟩
def workerSock : SockAddr := ⟨inetAton 10 0 0 2, 40001⟩
def workerSock' : SockAddr := ⟨inetAton 10 0 0 3, 40001⟩

/-- All processes are started with `serverUDP 1025 1025`. -/
def chainPorts (x : SockAddr) : Option (BitVec 16) :=
  if x = hopA ∨ x = hopB ∨ x = hopC then some 1025 else none

def chainUpdate : Update chainPorts where
  key := ⟨inetAton 10 0 0 1, inetAton 10 0 0 5, 1, 1⟩
  seq := 100
  hops := [hopA, hopB, hopC]
  nonempty := by decide
  served := by decide
  chain := by decide

def chainScenario : Scenario where
  nextPort := chainPorts
  n := 1
  update := fun _ => chainUpdate
  sock := fun _ => clientSock
  client := fun _ => by decide

def chainOnly : Fin chainScenario.n := ⟨0, by decide⟩

/-- The SYN goes down the chain, the SYN-ACK comes back, the client's ACK makes
    the record of the first hop acked, and its worker acknowledges to the second. -/
def chainRun : List (SysAct chainScenario.n) :=
  let key := chainUpdate.key
  [.sync chainOnly, .mainRecv hopA ⟨clientSock, hopA, chainUpdate.syn 0⟩ 0,
    .workerStart hopA 0 workerSock, .mainRecv hopB ⟨workerSock, hopB, chainUpdate.syn 1⟩ 0,
    .workerStart hopB 0 workerSock', .mainRecv hopC ⟨workerSock', hopC, chainUpdate.syn 2⟩ 0,
    .workerStart hopC 0 ⟨inetAton 10 0 0 5, 40002⟩, .workerStep hopC 0 0,
    .workerRecv hopB 0 ⟨hopC, workerSock', synAckBytes key 100 1025⟩ 0, .workerStep hopB 0 0,
    .workerRecv hopA 0 ⟨hopB, workerSock, synAckBytes key 100 1025⟩ 0, .workerStep hopA 0 0,
    .clientRecv chainOnly ⟨hopA, clientSock, synAckBytes key 100 1025⟩ 0 0,
    .mainRecv hopA (System.clientPacket chainOnly 3 0) 0, .workerStep hopA 0 0]

/-- The ACK that the worker of the first hop has sent. -/
def chainAck : Packet := ⟨workerSock, hopB, (Header.mk' 3 100 (keyOf 0)).bytes⟩

theorem acks_match_chain :
    ∃ s s' : System chainScenario,
      run System.step (System.init chainScenario) chainRun = some s ∧
      s.step (.mainRecv hopB chainAck 0) = some s' ∧
      (s'.servers hopB).log = .ack (recvfrom chainAck 0) :: (s.servers hopB).log ∧
      (∃ r, findItem (s'.servers hopB).records (peerKey hopB workerSock) = some r ∧
        r.acked = 1) ∧
      Accepted s chainOnly 2 := by
  have hrun : ((run System.step (System.init chainScenario) chainRun).any fun s =>
      (s.step (.mainRecv hopB chainAck 0)).isSome ∧
        s.workerSock hopA 0 = some workerSock) = true := by
    decide +kernel
  obtain ⟨s, hs, hmem⟩ := (Option.any_eq_true _ _).mp hrun
  obtain ⟨hstep, hsock⟩ := of_decide_eq_true hmem
  obtain ⟨s', hs'⟩ := Option.isSome_iff_exists.mp hstep
  obtain ⟨w, hw, hwsock⟩ := Option.bind_eq_some_iff.mp hsock
  have hmatch := acks_match ⟨chainRun, hs⟩ hs' (by decide +kernel) (List.mem_of_getElem? hw) hwsock
  obtain ⟨⟨r, -, -, hr⟩, hlog, ⟨u, i, hsyn⟩, hnext⟩ := hmatch
  obtain rfl : u = chainOnly := Subsingleton.elim (α := Fin 1) u chainOnly
  obtain ⟨hhop, hall⟩ := hnext chainOnly i hsyn
  -- the ACK came to the second hop, so the third one has accepted the SYN
  have hi : i = 0 := by
    rcases i with _ | _ | i
    · rfl
    · exact absurd hhop (by decide)
    · cases hhop
  exact ⟨s, s', hs, hs', hlog, ⟨{ r with acked := 1 }, hr, rfl⟩, hall 2 (by omega) (by decide)⟩

end MiddleboxSession.Emulator
