/-
  MiddleboxSession/Emulator/Invariant.lean
  ========================================
  **What the datagrams of the emulator are evidence of.**

  `sendForward` never looks at the header of what it receives.  What makes it
  right is its socket: a socket belongs to one worker (`Owner`), sends one SYN,
  and can receive only what the hop that accepted this SYN sends back.
  `Reached y sock` says that the hop `y` has accepted the SYN from the socket
  `sock`, and so have the hops behind it, each from the socket of the worker
  before; every SYN-ACK for `sock` is evidence of it.

  The invariant `NetInv` says of every datagram ever sent which step of the
  protocol it belongs to (`Genuine`), and of every worker what it knows.
-/
import MiddleboxSession.Emulator.Network

namespace MiddleboxSession.Emulator

open CBuffer Runs

/-! ### The request of a worker -/

section Requests

variable {nextPort : SockAddr → Option (BitVec 16)} {u : Update nextPort}

/-- `d` is the SYN of update `u` for its hop `m`, and `x` is that hop. -/
structure IsSyn (u : Update nextPort) (m : Nat) (x : SockAddr) (d : Datagram) : Prop where
  hop : u.hops[m]? = some x
  carries : d.Carries (u.syn m)

/-- The worker of a request at `x` sends `mesg` on to `next`. -/
def ForwardsTo (nextPort : SockAddr → Option (BitVec 16)) (x : SockAddr) (request : Datagram)
    (next : SockAddr) (mesg : List Byte) : Prop :=
  nextPort x = some next.port ∧
    ∃ hashport, handleRequest request.buf request.n hashport = .forward next.addr mesg

theorem handleRequest_eq_forward {request : Buf} {n : Int} {hashport : BitVec 32} {next : Addr}
    {mesg : List Byte} (h : handleRequest request n hashport = .forward next mesg) :
    forwardMesg request n = some (next, mesg) := by
  unfold handleRequest at h
  dsimp only at h
  split at h
  · cases h
  · split at h
    · split at h
      · rename_i hmesg
        cases h
        exact hmesg
      · cases h
    · split at h <;> cases h

theorem ForwardsTo.unique {x : SockAddr} {request : Datagram} {next next' : SockAddr}
    {mesg mesg' : List Byte} (h : ForwardsTo nextPort x request next mesg)
    (h' : ForwardsTo nextPort x request next' mesg') : next = next' ∧ mesg = mesg' := by
  obtain ⟨hport, _, hh⟩ := h
  obtain ⟨hport', _, hh'⟩ := h'
  have heq := (handleRequest_eq_forward hh).symm.trans (handleRequest_eq_forward hh')
  have hp := hport.symm.trans hport'
  cases next
  cases next'
  simp only [Option.some.injEq, Prod.mk.injEq] at heq hp
  exact ⟨by rw [heq.1, hp], heq.2⟩

theorem IsSyn.header {m : Nat} {x : SockAddr} {d : Datagram} (h : IsSyn u m x d) :
    d.header = Header.mk' 1 u.seq u.key := h.carries.header

theorem Update.length_syn (u : Update nextPort) (m : Nat) :
    (u.syn m).length = 24 + 4 * (u.hops.length - m) := by
  rw [Update.syn, length_synBytes, List.length_map, List.length_drop]

/-- A worker that answers or forwards has copied its request out of the buffer. -/
theorem handleRequest_length {request : Buf} {n : Int} {hashport : BitVec 32}
    (hi : handleRequest request n hashport ≠ .ignored)
    (hu : handleRequest request n hashport ≠ .undefined) : n ≤ request.size := by
  unfold handleRequest at hi hu
  dsimp only at hi hu
  split at hi
  · exact absurd rfl hi
  · rename_i hseq
    rw [if_neg hseq] at hu
    split at hu
    · split at hu
      · rename_i next mesg hmesg
        simp only [forwardMesg, forwardMesgOf, Option.bind_eq_bind, Option.bind_eq_some_iff]
          at hmesg
        obtain ⟨-, -, b, -, b₁, -, b₂, hcopy, -⟩ := hmesg
        have hbound := (Buf.memcpy_eq_some hcopy).2.1
        simp only [sizeofHeader] at hbound
        omega
      · exact absurd rfl hu
    · split at hu
      · rename_i response hresponse
        simp only [responseMesg, Option.bind_eq_bind, Option.bind_eq_some_iff] at hresponse
        obtain ⟨-, -, b, -, b₁, hcopy, -⟩ := hresponse
        have hbound := (Buf.memcpy_eq_some hcopy).2.1
        omega
      · exact absurd rfl hu

theorem drop_of_hop {m : Nat} {x : SockAddr} (h : u.hops[m]? = some x) :
    u.hops.drop m = x :: u.hops.drop (m + 1) := by
  obtain ⟨hm, rfl⟩ := List.getElem?_eq_some_iff.mp h
  exact List.drop_eq_getElem_cons hm

/-- What the worker of a hop does with the SYN: nothing if its number is not
    positive, else the last hop answers and every other hop forwards it to the
    next one. -/
theorem IsSyn.handled {m : Nat} {x : SockAddr} {d : Datagram} (h : IsSyn u m x d)
    (hle : d.n ≤ 1400) (hashport : BitVec 32) :
    handleRequest d.buf d.n hashport = .ignored ∨
    (u.hops.drop (m + 1) = [] ∧ d.n = 28 ∧
      handleRequest d.buf d.n hashport = .back (synAckBytes u.key u.seq hashport)) ∨
    (∃ y, u.hops[m + 1]? = some y ∧ nextPort x = some y.port ∧
      handleRequest d.buf d.n hashport = .forward y.addr (u.syn (m + 1))) := by
  by_cases hseq : 0 < u.seq.toInt
  · right
    have hreq := h.carries.holds
    have hlen := h.carries.length
    have hdrop := drop_of_hop h.hop
    cases hrest : u.hops.drop (m + 1) with
    | nil =>
      rw [Update.syn, hdrop, hrest] at hreq hlen
      have hn : d.n = 28 := hlen
      rw [hn]
      exact Or.inl ⟨rfl, rfl, handleRequest_back hreq rfl hseq hashport⟩
    | cons y rest =>
      let addrs := rest.map SockAddr.addr
      have hsyn : u.syn m = synBytes u.key u.seq (x.addr :: y.addr :: addrs) := by
        rw [Update.syn, hdrop, hrest, List.map_cons, List.map_cons]
      have hnext : u.syn (m + 1) = synBytes u.key u.seq (y.addr :: addrs) := by
        rw [Update.syn, hrest, List.map_cons]
      have hport : nextPort x = some y.port := by
        have hchain := u.chain.drop m
        rw [hdrop, hrest] at hchain
        exact hchain.rel
      have hget : u.hops[m + 1]? = some y := by
        have hzero := congrArg (·[0]?) hrest
        simpa using hzero
      have hn : d.n = (24 + 4 * (addrs.length + 2) : Nat) := by
        rw [hlen, hsyn, length_synBytes, List.length_cons, List.length_cons]
      rw [hsyn] at hreq
      rw [hn, hnext]
      exact Or.inr ⟨y, hget, hport,
        handleRequest_forward hreq rfl (by omega) hseq hashport⟩
  · left
    apply handleRequest_ignored
    have hread : Header.read d.buf = Header.mk' 1 u.seq u.key := h.header
    rw [hread, Header.sequenceNum_mk']
    omega

theorem IsSyn.forwardsTo {m : Nat} {x next : SockAddr} {d : Datagram} {mesg : List Byte}
    (h : IsSyn u m x d) (hf : ForwardsTo nextPort x d next mesg) :
    u.hops[m + 1]? = some next ∧ mesg = u.syn (m + 1) := by
  obtain ⟨hport, hashport, hh⟩ := hf
  have hle : d.n ≤ 1400 := handleRequest_length (by rw [hh]; simp) (by rw [hh]; simp)
  rcases h.handled hle hashport with hi | ⟨-, -, hb⟩ | ⟨y, hget, hport', hf⟩
  · rw [hi] at hh
    cases hh
  · rw [hb] at hh
    cases hh
  · rw [hf, Handled.forward.injEq] at hh
    rw [hport, Option.some.injEq] at hport'
    have hy : y = next := by
      cases y
      cases next
      exact congrArg₂ SockAddr.mk hh.1 hport'.symm
    exact ⟨hy ▸ hget, hh.2.symm⟩

/-- What is forwarded is shorter than the request, which was received. -/
theorem IsSyn.forward_length {m : Nat} {x next : SockAddr} {d : Datagram} {mesg : List Byte}
    (h : IsSyn u m x d) (hf : ForwardsTo nextPort x d next mesg) : mesg.length ≤ 1400 := by
  obtain ⟨-, rfl⟩ := h.forwardsTo hf
  obtain ⟨-, hashport, hh⟩ := hf
  have hle : d.n ≤ 1400 := handleRequest_length (by rw [hh]; simp) (by rw [hh]; simp)
  rw [h.carries.length, Update.length_syn] at hle
  rw [Update.length_syn]
  omega

theorem IsSyn.answers {m : Nat} {x : SockAddr} {d : Datagram} {hashport : BitVec 32}
    {response : List Byte} (h : IsSyn u m x d)
    (hb : handleRequest d.buf d.n hashport = .back response) :
    d.n = 28 ∧ response = synAckBytes u.key u.seq hashport := by
  have hle : d.n ≤ 1400 := handleRequest_length (by rw [hb]; simp) (by rw [hb]; simp)
  rcases h.handled hle hashport with hi | ⟨-, hn, hb'⟩ | ⟨y, -, -, hf⟩
  · rw [hi] at hb
    cases hb
  · rw [hb', Handled.back.injEq] at hb
    exact ⟨hn, hb.symm⟩
  · rw [hf] at hb
    cases hb

end Requests

/-! ### What the histories show -/

variable {sc : Scenario}

/-- `sock` is the socket of the worker that `x` started for `request`. -/
def Owner (s : System sc) (sock x : SockAddr) (request : Datagram) : Prop :=
  ∃ w ∈ (s.servers x).workers, w.sock = some sock ∧ w.request = request

/-- The hop `x` and every hop behind it have accepted the SYN that `x` got from
    the socket `src`. -/
inductive Reached (s : System sc) : SockAddr → SockAddr → Prop
  | last (x : SockAddr) (d : Datagram) (hd : .syn d ∈ (s.servers x).log) (hn : d.n = 28) :
      Reached s x d.src
  | next (x sock next : SockAddr) (d : Datagram) (mesg : List Byte)
      (hd : .syn d ∈ (s.servers x).log) (howner : Owner s sock x d)
      (hnext : ForwardsTo sc.nextPort x d next mesg) (h : Reached s next sock) :
      Reached s x d.src

/-- What a party of the protocol may have sent. -/
inductive Genuine (s : System sc) (p : Packet) : Prop
  | syn (u : Fin sc.n) (m : Nat) (hhop : (sc.update u).hops[m]? = some p.dst)
      (hmesg : p.payload = (sc.update u).syn m) (hlen : p.payload.length ≤ 1400)
      (hsrc : (∃ v, sc.sock v = p.src) ∨
        ∃ x d, Owner s p.src x d ∧ ForwardsTo sc.nextPort x d p.dst p.payload)
  | synAck (d : Datagram) (k : FlowKey) (port : BitVec 32)
      (hd : .syn d ∈ (s.servers p.src).log) (hdst : p.dst = d.src)
      (hmesg : p.payload = synAckBytes k d.header.sequenceNum port)
      (hreached : Reached s p.src d.src)
  | ack (d : Datagram) (k : FlowKey) (hd : .syn d ∈ (s.servers p.dst).log) (hsrc : p.src = d.src)
      (hmesg : p.payload = (Header.mk' 3 d.header.sequenceNum k).bytes)
      (hreached : Reached s p.dst d.src)
  | client (u : Fin sc.n) (action : BitVec 32) (stack : Nat → Byte)
      (hp : p = System.clientPacket u action stack) (haction : action = 3 ∨ action = 4)

/-- Histories grow, and a socket stays with its worker. -/
structure Extends (s s' : System sc) : Prop where
  sent : s.sent ⊆ s'.sent
  log : ∀ x, (s.servers x).log ⊆ (s'.servers x).log
  owner : ∀ sock x d, Owner s sock x d → Owner s' sock x d

section Monotone

variable {s s' : System sc}

theorem Extends.of_servers (hservers : s'.servers = s.servers) (hsent : s.sent ⊆ s'.sent) :
    Extends s s' := by
  refine ⟨hsent, ?_, ?_⟩
  · intro x
    rw [hservers]
    exact List.Subset.refl _
  · intro sock x d ho
    rw [Owner, hservers]
    exact ho

theorem Extends.trans {s'' : System sc} (h : Extends s s') (h' : Extends s' s'') :
    Extends s s'' where
  sent := List.Subset.trans h.sent h'.sent
  log := fun x => List.Subset.trans (h.log x) (h'.log x)
  owner := fun sock x d ho => h'.owner sock x d (h.owner sock x d ho)

theorem Reached.mono (hx : Extends s s') {x src : SockAddr} (h : Reached s x src) :
    Reached s' x src := by
  induction h with
  | last x d hd hn => exact .last x d (hx.log x hd) hn
  | next x sock next d mesg hd howner hnext _ ih =>
    exact .next x sock next d mesg (hx.log x hd) (hx.owner sock x d howner) hnext ih

theorem Genuine.mono (hx : Extends s s') {p : Packet} (h : Genuine s p) : Genuine s' p := by
  cases h with
  | syn u m hhop hmesg hlen hsrc =>
    refine .syn u m hhop hmesg hlen (hsrc.imp_right ?_)
    rintro ⟨x, d, howner, hnext⟩
    exact ⟨x, d, hx.owner p.src x d howner, hnext⟩
  | synAck d k port hd hdst hmesg hreached =>
    exact .synAck d k port (hx.log p.src hd) hdst hmesg (hreached.mono hx)
  | ack d k hd hsrc hmesg hreached =>
    exact .ack d k (hx.log p.dst hd) hsrc hmesg (hreached.mono hx)
  | client u action stack hp haction => exact .client u action stack hp haction

/-- What a worker knows in its loop: the last hop repeats its own SYN-ACK, the
    others one that the next hop has sent. -/
def LoopOK (s : System sc) (x : SockAddr) (w : Worker) : Loop → Prop
  | .forward next recv => ∃ d mesg k port, w.sock = some d.src ∧
      ForwardsTo sc.nextPort x w.request next mesg ∧ .syn d ∈ (s.servers next).log ∧
      d.header.sequenceNum = w.request.header.sequenceNum ∧
      recv.Carries (synAckBytes k d.header.sequenceNum port) ∧ Reached s next d.src
  | .back response => w.request.n = 28 ∧
      ∃ k port, response = synAckBytes k w.request.header.sequenceNum port

def PcOK (s : System sc) (x : SockAddr) (w : Worker) : Prop :=
  match w.pc with
  | .start => w.sock = none
  | .ignored | .done => True
  | .recv next => ∃ sock mesg, w.sock = some sock ∧ ForwardsTo sc.nextPort x w.request next mesg
  | .send l _ | .poll l _ => LoopOK s x w l

structure WorkerOK (s : System sc) (x : SockAddr) (w : Worker) : Prop where
  request : .syn w.request ∈ (s.servers x).log
  pc : PcOK s x w

theorem LoopOK.mono (hx : Extends s s') {x : SockAddr} {w : Worker} {l : Loop}
    (h : LoopOK s x w l) : LoopOK s' x w l := by
  cases l with
  | forward next recv =>
    obtain ⟨d, mesg, k, port, hsock, hnext, hd, hseq, hrecv, hreached⟩ := h
    exact ⟨d, mesg, k, port, hsock, hnext, hx.log next hd, hseq, hrecv, hreached.mono hx⟩
  | back response => exact h

theorem WorkerOK.mono (hx : Extends s s') {x : SockAddr} {w : Worker} (h : WorkerOK s x w) :
    WorkerOK s' x w := by
  refine ⟨hx.log x h.request, ?_⟩
  have hpc := h.pc
  unfold PcOK at hpc ⊢
  split <;> rename_i heq <;> rw [heq] at hpc
  · exact hpc
  · trivial
  · trivial
  · exact hpc
  · exact hpc.mono hx
  · exact hpc.mono hx

end Monotone

/-! ### The invariant -/

/-- An accepted SYN came out of the network. -/
def Received (s : System sc) (x : SockAddr) (d : Datagram) : Prop :=
  d.header.action = 1 ∧ ∃ p ∈ s.sent, p.dst = x ∧ p.src = d.src ∧ d.Carries p.payload

theorem Received.mono {s s' : System sc} (hx : Extends s s') {x : SockAddr} {d : Datagram}
    (h : Received s x d) : Received s' x d := by
  obtain ⟨haction, p, hp, hrest⟩ := h
  exact ⟨haction, p, hx.sent hp, hrest⟩

/-- The record of a sender holds the number of a SYN accepted from it. -/
def RecordOK (x : SockAddr) (a : Server) : Prop :=
  ∀ d, .syn d ∈ a.log → ∃ d', .syn d' ∈ a.log ∧ d'.src = d.src ∧
    storedSeq a.records (peerKey x d.src) = some d'.header.sequenceNum

structure NetInv (s : System sc) : Prop where
  net : s.net ⊆ s.sent
  free : ∀ sock ∈ s.opened, sc.nextPort sock = none ∧ ∀ u, sc.sock u ≠ sock
  opened : ∀ sock x d, Owner s sock x d → sock ∈ s.opened
  owner : ∀ sock x d x' d', Owner s sock x d → Owner s sock x' d' → x = x' ∧ d = d'
  genuine : ∀ p ∈ s.sent, Genuine s p
  received : ∀ x d, .syn d ∈ (s.servers x).log → Received s x d
  record : ∀ x, RecordOK x (s.servers x)
  worker : ∀ x, ∀ w ∈ (s.servers x).workers, WorkerOK s x w

theorem NetInv.init : NetInv (System.init sc) where
  net := fun _ hp => hp
  free := fun _ h => absurd h (List.not_mem_nil)
  opened := by
    rintro _ _ _ ⟨w, hw, -⟩
    cases hw
  owner := by
    rintro _ _ _ _ _ ⟨w, hw, -⟩
    cases hw
  genuine := fun _ h => absurd h (List.not_mem_nil)
  received := fun _ _ h => absurd h (List.not_mem_nil)
  record := fun _ _ h => absurd h (List.not_mem_nil)
  worker := fun _ _ h => absurd h (List.not_mem_nil)

section Facts

variable {s : System sc}

theorem Genuine.length_le {p : Packet} (h : Genuine s p) : p.payload.length ≤ 1400 := by
  cases h with
  | syn u m _ _ hlen _ => exact hlen
  | synAck d k port _ _ hmesg _ => simp [hmesg]
  | ack d k _ _ hmesg _ => simp [hmesg]
  | client u action stack hp _ => simp [hp, System.clientPacket]

theorem action_of_clientPacket {u : Fin sc.n} {action : BitVec 32} {stack : Nat → Byte}
    {d : Datagram} (hd : d.Carries (System.clientPacket u action stack).payload) :
    d.header.action = action := by
  rw [System.clientPacket, ← List.append_nil (Header.bytes _)] at hd
  rw [hd.header, Header.action_mk']

/-- A SYN is one of an update, and from a client or forwarded. -/
theorem Genuine.isSyn {p : Packet} {d : Datagram} (h : Genuine s p) (hd : d.Carries p.payload)
    (haction : d.header.action = 1) :
    (∃ u m, IsSyn (sc.update u) m p.dst d) ∧ ((∃ v, sc.sock v = p.src) ∨
      ∃ x e, Owner s p.src x e ∧ ForwardsTo sc.nextPort x e p.dst p.payload) := by
  cases h with
  | syn u m hhop hmesg _ hsrc => exact ⟨⟨u, m, hhop, hmesg ▸ hd⟩, hsrc⟩
  | synAck e k port _ _ hmesg _ =>
    rw [hmesg, synAckBytes] at hd
    rw [hd.header] at haction
    cases haction
  | ack e k _ _ hmesg _ =>
    rw [hmesg, ← List.append_nil (Header.bytes _)] at hd
    rw [hd.header] at haction
    cases haction
  | client u action stack hp hor =>
    rw [hp] at hd
    rw [action_of_clientPacket hd] at haction
    rcases hor with rfl | rfl <;> cases haction

theorem Update.served_ne_none {nextPort : SockAddr → Option (BitVec 16)} (u : Update nextPort)
    {x : SockAddr} (h : x ∈ u.hops) : nextPort x ≠ none :=
  Option.isSome_iff_ne_none.mp (u.served x h)

theorem IsSyn.served {u : Fin sc.n} {m : Nat} {x : SockAddr} {d : Datagram}
    (h : IsSyn (sc.update u) m x d) : sc.nextPort x ≠ none :=
  (sc.update u).served_ne_none (List.mem_of_getElem? h.hop)

theorem NetInv.isSyn (h : NetInv s) {x : SockAddr} {d : Datagram}
    (hd : .syn d ∈ (s.servers x).log) : ∃ u m, IsSyn (sc.update u) m x d := by
  obtain ⟨haction, p, hp, rfl, -, hcarries⟩ := h.received x d hd
  exact ((h.genuine p hp).isSyn hcarries haction).1

theorem NetInv.accepted (h : NetInv s) {sock x : SockAddr} {e : Datagram}
    (howner : Owner s sock x e) : .syn e ∈ (s.servers x).log := by
  obtain ⟨w, hw, -, rfl⟩ := howner
  exact (h.worker x w hw).request

/-- What is accepted from the socket of a worker is the SYN that the worker has
    sent from it, at the hop it sent it to. -/
theorem NetInv.forwarded (h : NetInv s) {x y : SockAddr} {e d : Datagram}
    (howner : Owner s d.src x e) (hd : .syn d ∈ (s.servers y).log) :
    ∃ mesg, ForwardsTo sc.nextPort x e y mesg ∧ d.Carries mesg := by
  obtain ⟨haction, p, hp, rfl, hsrc, hcarries⟩ := h.received y d hd
  rcases ((h.genuine p hp).isSyn hcarries haction).2 with ⟨v, hv⟩ | ⟨x', e', howner', hnext⟩
  · exact absurd (hv.trans hsrc) ((h.free d.src (h.opened d.src x e howner)).2 v)
  · rw [hsrc] at howner'
    obtain ⟨rfl, rfl⟩ := h.owner d.src x e x' e' howner howner'
    exact ⟨p.payload, hnext, hcarries⟩

theorem NetInv.from_socket (h : NetInv s) {x next y : SockAddr} {e d : Datagram}
    {mesg : List Byte} (howner : Owner s d.src x e)
    (hnext : ForwardsTo sc.nextPort x e next mesg) (hd : .syn d ∈ (s.servers y).log) :
    y = next ∧ d.Carries mesg := by
  obtain ⟨mesg', hnext', hcarries⟩ := h.forwarded howner hd
  obtain ⟨rfl, rfl⟩ := hnext.unique hnext'
  exact ⟨rfl, hcarries⟩

/-- The next hop accepts the SYN with the sequence number of the request. -/
theorem NetInv.seq_from_socket (h : NetInv s) {x y : SockAddr} {e d : Datagram}
    (howner : Owner s d.src x e) (hd : .syn d ∈ (s.servers y).log) :
    d.header.sequenceNum = e.header.sequenceNum := by
  obtain ⟨u, m, hsyn⟩ := h.isSyn (h.accepted howner)
  obtain ⟨mesg, hnext, hcarries⟩ := h.forwarded howner hd
  obtain ⟨-, rfl⟩ := hsyn.forwardsTo hnext
  rw [hsyn.header, hcarries.header]

/-- What comes to the socket of a worker is the SYN-ACK of the next hop. -/
theorem NetInv.answer (h : NetInv s) {x next : SockAddr} {e : Datagram} {mesg : List Byte}
    {p : Packet} (hp : p ∈ s.sent) (howner : Owner s p.dst x e)
    (hnext : ForwardsTo sc.nextPort x e next mesg) :
    ∃ d k port, .syn d ∈ (s.servers next).log ∧ d.src = p.dst ∧
      p.payload = synAckBytes k d.header.sequenceNum port ∧ Reached s next d.src := by
  have hfree := (h.free p.dst (h.opened p.dst x e howner)).1
  cases h.genuine p hp with
  | syn u m hhop _ _ =>
    have hserved := (sc.update u).served p.dst (List.mem_of_getElem? hhop)
    rw [hfree] at hserved
    cases hserved
  | synAck d k port hd hdst hmesg hreached =>
    obtain ⟨heq, -⟩ := h.from_socket (hdst ▸ howner) hnext hd
    exact ⟨d, k, port, heq ▸ hd, hdst.symm, hmesg, heq ▸ hreached⟩
  | ack d k hd _ _ _ =>
    obtain ⟨u, m, hsyn⟩ := h.isSyn hd
    exact absurd hfree hsyn.served
  | client u action stack hpu _ =>
    have hserved := (sc.update u).served _ (List.head_mem (sc.update u).nonempty)
    have hdst : p.dst = (sc.update u).first := by rw [hpu, System.clientPacket]
    rw [hdst] at hfree
    rw [Update.first] at hfree
    rw [hfree] at hserved
    cases hserved

end Facts

/-! ### Steps of a server -/

section ServerSteps

variable {self : SockAddr} {destPort : BitVec 16} {a a' : Server} {act : Act} {ps : List Packet}

theorem WorkerMove.sock {i : Nat} {w : Worker} {e : Effect}
    (h : WorkerMove self destPort a i w act e) :
    e.worker.sock = w.sock ∨
      w.pc = .start ∧ ∃ sock, act = .workerStart i sock ∧ e.worker.sock = some sock := by
  cases h with
  | forward sock next mesg hpc hh => exact Or.inr ⟨hpc, sock, rfl, rfl⟩
  | _ => exact Or.inl rfl

theorem WorkerMove.syn_not_mem {i : Nat} {w : Worker} {e : Effect}
    (h : WorkerMove self destPort a i w act e) (d : Datagram) : .syn d ∉ e.events := by
  cases h <;> simp

theorem Server.Step.log_subset (h : a.Step self destPort act a' ps) : a.log ⊆ a'.log := by
  intro e he
  cases h with
  | syn | ack => exact List.mem_cons_of_mem _ he
  | worker => exact List.mem_append_right _ he
  | skip | exit | undefined => exact he

theorem Server.Step.syn_mem (h : a.Step self destPort act a' ps) {d : Datagram}
    (hd : .syn d ∈ a'.log) : .syn d ∈ a.log ∨ act = .mainRecv d ∧ d.header.action = 1 := by
  cases h with
  | syn d' hd' =>
    rcases List.mem_cons.mp hd with heq | hd
    · cases heq
      exact Or.inr ⟨rfl, (dispatch_eq_syn.mp hd').1⟩
    · exact Or.inl hd
  | ack d' _ =>
    rcases List.mem_cons.mp hd with heq | hd
    · cases heq
    · exact Or.inl hd
  | worker i w _ e _ hm =>
    rcases List.mem_append.mp hd with hd | hd
    · exact absurd hd (hm.syn_not_mem d)
    · exact Or.inl hd
  | skip | exit | undefined => exact Or.inl hd

/-- Where the workers of a server come from. -/
theorem Server.Step.workers (h : a.Step self destPort act a' ps) {w' : Worker}
    (hw' : w' ∈ a'.workers) : w' ∈ a.workers ∨
      (∃ d, act = .mainRecv d ∧ w' = ⟨d, none, .start⟩ ∧ .syn d ∈ a'.log) ∨
      ∃ i w e, a.workers[i]? = some w ∧ WorkerMove self destPort a i w act e ∧ w' = e.worker ∧
        a' = a.apply i e ∧ ps = e.packets := by
  cases h with
  | syn d hd =>
    rcases List.mem_append.mp hw' with hw' | hw'
    · exact Or.inl hw'
    · exact Or.inr (Or.inl ⟨d, rfl, List.mem_singleton.mp hw', List.mem_cons_self⟩)
  | worker i w _ e hw hm =>
    rcases List.mem_or_eq_of_mem_set hw' with hw' | rfl
    · exact Or.inl hw'
    · exact Or.inr (Or.inr ⟨i, w, e, hw, hm, rfl, rfl, rfl⟩)
  | ack | skip | exit | undefined => exact Or.inl hw'

/-- A worker keeps its request and, once it has one, its socket. -/
theorem Server.Step.kept (h : a.Step self destPort act a' ps)
    (hstart : ∀ w ∈ a.workers, w.pc = .start → w.sock = none) {w : Worker} {sock : SockAddr}
    (hw : w ∈ a.workers) (hsock : w.sock = some sock) :
    ∃ w' ∈ a'.workers, w'.sock = some sock ∧ w'.request = w.request := by
  cases h with
  | syn => exact ⟨w, List.mem_append_left _ hw, hsock, rfl⟩
  | worker i v _ e hv hm =>
    obtain ⟨j, hj, rfl⟩ := List.mem_iff_getElem.mp hw
    by_cases hij : i = j
    · subst hij
      have hvj : a.workers[i] = v := Option.some.inj ((List.getElem?_eq_getElem hj).symm.trans hv)
      rw [hvj] at hsock ⊢
      refine ⟨e.worker, List.mem_set hj _, ?_, hm.request⟩
      rcases hm.sock with heq | ⟨hpc, -⟩
      · rw [heq, hsock]
      · rw [hstart v (List.mem_of_getElem? hv) hpc] at hsock
        cases hsock
    · refine ⟨a.workers[j], ?_, hsock, rfl⟩
      rw [Server.apply, ← List.getElem_set_ne hij (a := e.worker) (by simpa using hj)]
      exact List.getElem_mem _
  | ack | skip | exit | undefined => exact ⟨w, hw, hsock, rfl⟩

theorem RecordOK.step (hrec : RecordOK self a) (h : a.Step self destPort act a' ps) :
    RecordOK self a' := by
  cases h with
  | syn d hd =>
    intro d₀ hd₀
    rw [storedSeq_addItem]
    by_cases hk : peerKey self d.src = peerKey self d₀.src
    · rw [if_pos hk]
      exact ⟨d, List.mem_cons_self, peerKey_injective self hk, rfl⟩
    · rw [if_neg hk]
      rcases List.mem_cons.mp hd₀ with heq | hd₀
      · cases heq
        exact absurd rfl hk
      · obtain ⟨d', hd', hsrc, hseq⟩ := hrec d₀ hd₀
        exact ⟨d', List.mem_cons_of_mem _ hd', hsrc, hseq⟩
  | ack d hd =>
    obtain ⟨-, r, hr, -⟩ := dispatch_eq_ack.mp hd
    intro d₀ hd₀
    rw [storedSeq_setAcked hr]
    rcases List.mem_cons.mp hd₀ with heq | hd₀
    · cases heq
    · obtain ⟨d', hd', hsrc, hseq⟩ := hrec d₀ hd₀
      exact ⟨d', List.mem_cons_of_mem _ hd', hsrc, hseq⟩
  | worker i w _ e hw hm =>
    intro d₀ hd₀
    rcases List.mem_append.mp hd₀ with hd₀ | hd₀
    · exact absurd hd₀ (hm.syn_not_mem d₀)
    · obtain ⟨d', hd', hsrc, hseq⟩ := hrec d₀ hd₀
      exact ⟨d', List.mem_append_right _ hd', hsrc, hseq⟩
  | skip | exit | undefined => exact hrec

end ServerSteps

/-! ### Steps of the system -/

section SystemSteps

variable {s s' s₁ : System sc}

/-- A step that leaves the servers alone. -/
theorem NetInv.of_servers (h : NetInv s) (hservers : s'.servers = s.servers)
    (hnet : s'.net ⊆ s'.sent) (hsent : s.sent ⊆ s'.sent)
    (hnew : ∀ p ∈ s'.sent, p ∈ s.sent ∨ Genuine s p) (hopened : s.opened ⊆ s'.opened)
    (hfree : ∀ sock ∈ s'.opened, sock ∈ s.opened ∨
      sc.nextPort sock = none ∧ ∀ u, sc.sock u ≠ sock) : NetInv s' := by
  have howner : ∀ sock x d, Owner s' sock x d ↔ Owner s sock x d := by
    intro sock x d
    rw [Owner, Owner, hservers]
  have hx : Extends s s' := .of_servers hservers hsent
  constructor
  · exact hnet
  · intro sock hsock
    exact (hfree sock hsock).elim (h.free sock) id
  · intro sock x d ho
    exact hopened (h.opened sock x d ((howner sock x d).mp ho))
  · intro sock x d x' d' ho ho'
    exact h.owner sock x d x' d' ((howner sock x d).mp ho) ((howner sock x' d').mp ho')
  · intro p hp
    exact ((hnew p hp).elim (h.genuine p) id).mono hx
  · intro x d hd
    rw [hservers] at hd
    exact (h.received x d hd).mono hx
  · intro x
    rw [hservers]
    exact h.record x
  · intro x w hw
    rw [hservers] at hw
    exact (h.worker x w hw).mono hx

theorem NetInv.feeds (h : NetInv s) {x : SockAddr} {act : SysAct sc.n} {act' : Act}
    (hf : s.Feeds x act act' s₁) : NetInv s₁ := by
  have hnet : s₁.net ⊆ s₁.sent := by
    rw [hf.sent]
    exact List.Subset.trans hf.net h.net
  have hsent : s₁.sent = s.sent := hf.sent
  apply h.of_servers hf.servers hnet
  · rw [hsent]
    exact List.Subset.refl _
  · intro p hp
    rw [hsent] at hp
    exact Or.inl hp
  · cases hf with
    | workerStart => exact List.subset_cons_self _ _
    | _ => exact List.Subset.refl _
  · intro sock hsock
    cases hf with
    | workerStart i sock' hfresh =>
      rcases List.mem_cons.mp hsock with rfl | hsock
      · simp only [System.fresh, decide_eq_true_eq] at hfresh
        exact Or.inr hfresh.2
      · exact Or.inl hsock
    | _ => exact Or.inl hsock

/-- What a server's step is fed with. -/
structure Fed (s : System sc) (x : SockAddr) (act : Act) : Prop where
  main : ∀ d, act = .mainRecv d →
    ∃ p ∈ s.sent, p.dst = x ∧ p.src = d.src ∧ d.Carries p.payload
  recv : ∀ i d, act = .workerRecv i d →
    ∃ p ∈ s.sent, s.workerSock x i = some p.dst ∧ d.Carries p.payload
  start : ∀ i sock, act = .workerStart i sock → sock ∈ s.opened ∧ ∀ y d, ¬ Owner s sock y d

theorem NetInv.fed (h : NetInv s) {x : SockAddr} {act : SysAct sc.n} {act' : Act}
    (hf : s.Feeds x act act' s₁) : Fed s₁ x act' := by
  constructor
  · rintro d rfl
    cases hf with
    | mainRecv p old hp hdst =>
      have hsent := h.net hp
      exact ⟨p, hsent, hdst, rfl, recvfrom_carries old (h.genuine p hsent).length_le⟩
  · rintro i d rfl
    cases hf with
    | workerRecv _ p old hp hsock =>
      have hsent := h.net hp
      exact ⟨p, hsent, hsock, recvfrom_carries old (h.genuine p hsent).length_le⟩
  · rintro i sock rfl
    cases hf with
    | workerStart _ _ hfresh =>
      simp only [System.fresh, decide_eq_true_eq] at hfresh
      exact ⟨List.mem_cons_self, fun y d ho => hfresh.1 (h.opened sock y d ho)⟩

variable {x : SockAddr} {port : BitVec 16} {act : Act} {a : Server} {ps : List Packet}

theorem NetInv.start (h : NetInv s) {w : Worker} (hw : w ∈ (s.servers x).workers)
    (hpc : w.pc = .start) : w.sock = none := by
  have hok := (h.worker x w hw).pc
  rw [PcOK, hpc] at hok
  exact hok

theorem NetInv.extends_put (h : NetInv s)
    (hstep : (s.servers x).Step x port act a ps) : Extends s (s.put x a ps) := by
  refine ⟨List.subset_append_right _ _, ?_, ?_⟩
  · apply System.forall_servers_put (P := fun y b => (s.servers y).log ⊆ b.log)
    · exact hstep.log_subset
    · exact fun y => List.Subset.refl _
  · intro sock y d
    refine System.forall_servers_put (P := fun y b => Owner s sock y d →
      ∃ w ∈ b.workers, w.sock = some sock ∧ w.request = d) _ _ _ _ ?_ ?_ y
    · rintro ⟨w, hw, hsock, rfl⟩
      exact hstep.kept (fun v hv => h.start hv) hw hsock
    · exact fun _ ho => ho

/-- A socket is new only where a worker opens it. -/
theorem NetInv.owner_put (hstep : (s.servers x).Step x port act a ps) {sock y : SockAddr}
    {d : Datagram} (ho : Owner (s.put x a ps) sock y d) : Owner s sock y d ∨
      y = x ∧ ∃ i w, act = .workerStart i sock ∧ (s.servers x).workers[i]? = some w ∧
        w.request = d := by
  refine System.forall_servers_put (P := fun y b =>
    (∃ w ∈ b.workers, w.sock = some sock ∧ w.request = d) → Owner s sock y d ∨
      y = x ∧ ∃ i w, act = .workerStart i sock ∧ (s.servers x).workers[i]? = some w ∧
        w.request = d) _ _ _ _ ?_ ?_ y ho
  · rintro ⟨w', hw', hsock, rfl⟩
    rcases hstep.workers hw' with hold | ⟨d, -, rfl, -⟩ | ⟨i, w, e, hw, hm, rfl, -, -⟩
    · exact Or.inl ⟨w', hold, hsock, rfl⟩
    · cases hsock
    · rcases hm.sock with heq | ⟨-, sock', rfl, hsock'⟩
      · exact Or.inl ⟨w, List.mem_of_getElem? hw, heq ▸ hsock, hm.request.symm⟩
      · have hs : sock' = sock := Option.some.inj (hsock'.symm.trans hsock)
        exact Or.inr ⟨rfl, i, w, hs ▸ rfl, hw, hm.request.symm⟩
  · exact fun _ ho => Or.inl ho

/-- The SYN-ACK that a hop repeats is backed by its own acceptance and by the
    hops behind it. -/
theorem NetInv.repeats (h : NetInv s) {w : Worker} (hw : w ∈ (s.servers x).workers) {l : Loop}
    (hl : LoopOK s x w l) {mesg : List Byte} (hmesg : l.mesg = some mesg) :
    Genuine s ⟨x, w.request.src, mesg⟩ := by
  have hrequest := (h.worker x w hw).request
  cases l with
  | forward next recv =>
    obtain ⟨d, mesg', k, port, hsock, hnext, hd, hseq, hrecv, hreached⟩ := hl
    have hmesg' : mesg = synAckBytes k d.header.sequenceNum port :=
      Option.some.inj (hmesg.symm.trans (hrecv.sendto (by simp)))
    refine .synAck w.request k port hrequest rfl (hseq ▸ hmesg') ?_
    exact .next x d.src next w.request mesg' hrequest ⟨w, hw, hsock, rfl⟩ hnext hreached
  | back response =>
    obtain ⟨hn, k, port, hresponse⟩ := hl
    have hmesg' : mesg = response := (Option.some.inj hmesg).symm
    exact .synAck w.request k port hrequest rfl (hmesg'.trans hresponse)
      (.last x w.request hrequest hn)

/-- What a `sendForward` receives is the answer of the next hop to its request. -/
theorem NetInv.receives (h : NetInv s) {w : Worker} (hw : w ∈ (s.servers x).workers)
    {next : SockAddr} {mesg : List Byte} (hnext : ForwardsTo sc.nextPort x w.request next mesg)
    {p : Packet} (hp : p ∈ s.sent) (hdst : w.sock = some p.dst) {d : Datagram}
    (hd : d.Carries p.payload) : LoopOK s x w (.forward next d) := by
  have howner : Owner s p.dst x w.request := ⟨w, hw, hdst, rfl⟩
  obtain ⟨e, k, port, he, hsrc, hpay, hreached⟩ := h.answer hp howner hnext
  have hseq := h.seq_from_socket (hsrc ▸ howner) he
  exact ⟨e, mesg, k, port, hsrc ▸ hdst, hnext, he, hseq, hpay ▸ hd, hreached⟩

theorem LoopOK.acks {w : Worker} {l : Loop} (hl : LoopOK s x w l) {old : Nat → Byte}
    {p : Packet} (hp : p ∈ (w.ackPacket old l).toList) : Genuine s p := by
  cases l with
  | forward next recv =>
    obtain ⟨d, mesg, k, port, hsock, hnext, hd, hseq, hrecv, hreached⟩ := hl
    have hheader : recv.header = Header.mk' 2 d.header.sequenceNum k := hrecv.header
    simp only [Worker.ackPacket, hsock, Option.bind_some, ackMesg, shortMesg_eq, hheader,
      Header.sequenceNum_mk', Option.map_some, Option.toList_some, List.mem_singleton] at hp
    rw [hp]
    exact .ack d _ hd rfl rfl hreached
  | back response => cases hp

theorem NetInv.workerMove (h : NetInv s) (hport : sc.nextPort x = some port)
    (hfed : Fed s x act) {i : Nat} {w : Worker} {e : Effect}
    (hw : (s.servers x).workers[i]? = some w)
    (hm : WorkerMove x port (s.servers x) i w act e)
    (hx : Extends s (s.put x ((s.servers x).apply i e) e.packets)) :
    WorkerOK (s.put x ((s.servers x).apply i e) e.packets) x e.worker ∧
      ∀ p ∈ e.packets, Genuine (s.put x ((s.servers x).apply i e) e.packets) p := by
  have hmem := List.mem_of_getElem? hw
  have hok := h.worker x w hmem
  have hrequest := hx.log x hok.request
  have hpc := hok.pc
  have hnone : ∀ p, p ∈ ([] : List Packet) →
      Genuine (s.put x ((s.servers x).apply i e) e.packets) p :=
    fun p hp => absurd hp List.not_mem_nil
  cases hm with
  | ignore sock hw₀ hh => exact ⟨⟨hrequest, trivial⟩, hnone⟩
  | forward sock next mesg hw₀ hh =>
    have hnext : ForwardsTo sc.nextPort x w.request ⟨next, port⟩ mesg := ⟨hport, _, hh⟩
    refine ⟨⟨hrequest, sock, mesg, rfl, hnext⟩, ?_⟩
    intro p hp
    rw [List.mem_singleton.mp hp]
    obtain ⟨u, m, hsyn⟩ := h.isSyn hok.request
    obtain ⟨hhop, hmesg⟩ := hsyn.forwardsTo hnext
    refine .syn u (m + 1) hhop hmesg (hsyn.forward_length hnext) (Or.inr ⟨x, w.request,
      ⟨{ w with sock := some sock, pc := .recv ⟨next, port⟩ }, ?_, rfl, rfl⟩, hnext⟩)
    rw [System.servers_put_self]
    obtain ⟨hi, -⟩ := List.getElem?_eq_some_iff.mp hw
    exact List.mem_set hi _
  | back sock response hw₀ hh =>
    obtain ⟨u, m, hsyn⟩ := h.isSyn hok.request
    obtain ⟨hn, hresponse⟩ := hsyn.answers hh
    refine ⟨⟨hrequest, hn, (sc.update u).key, (s.servers x).hashport, ?_⟩, hnone⟩
    dsimp only
    rw [hsyn.header]
    exact hresponse
  | recv next d hw₀ =>
    rw [PcOK, hw₀] at hpc
    obtain ⟨-, mesg, -, hnext⟩ := hpc
    obtain ⟨p, hp, hdst, hcarries⟩ := hfed.recv i d rfl
    rw [System.workerSock, hw, Option.bind_some] at hdst
    have hloop := h.receives hmem hnext hp hdst hcarries
    exact ⟨⟨hrequest, hloop.mono hx⟩, hnone⟩
  | send l count old sent hw₀ hsent =>
    rw [PcOK, hw₀] at hpc
    refine ⟨⟨hrequest, hpc.mono hx⟩, ?_⟩
    intro p hp
    obtain ⟨mesg, hmesg, rfl⟩ := hsent p hp
    exact (h.repeats hmem hpc hmesg).mono hx
  | acked l count old hw₀ hacked =>
    rw [PcOK, hw₀] at hpc
    exact ⟨⟨hrequest, trivial⟩, fun p hp => (hpc.acks hp).mono hx⟩
  | timeout l count old hw₀ hacked hcount => exact ⟨⟨hrequest, trivial⟩, hnone⟩
  | again l count old hw₀ hacked hcount =>
    rw [PcOK, hw₀] at hpc
    exact ⟨⟨hrequest, hpc.mono hx⟩, hnone⟩

theorem NetInv.server (h : NetInv s) (hport : sc.nextPort x = some port)
    (hfed : Fed s x act) (hstep : (s.servers x).Step x port act a ps) :
    NetInv (s.put x a ps) := by
  have hx := h.extends_put hstep
  have hself : (s.put x a ps).servers x = a := System.servers_put_self ..
  constructor
  · exact fun p hp => (List.mem_append.mp hp).elim (List.mem_append_left _)
      fun hp => List.mem_append_right _ (h.net hp)
  · exact h.free
  · intro sock y d ho
    rcases NetInv.owner_put hstep ho with ho | ⟨-, i, w, hact, -⟩
    · exact h.opened sock y d ho
    · exact (hfed.start i sock hact).1
  · intro sock y d y' d' ho ho'
    rcases NetInv.owner_put hstep ho with hold | ⟨rfl, i, w, hact, hw, rfl⟩ <;>
      rcases NetInv.owner_put hstep ho' with hold' | ⟨rfl, i', w', hact', hw', rfl⟩
    · exact h.owner sock y d y' d' hold hold'
    · exact absurd hold ((hfed.start i' sock hact').2 y d)
    · exact absurd hold' ((hfed.start i sock hact).2 y' d')
    · cases hact.symm.trans hact'
      exact ⟨rfl, by rw [Option.some.inj (hw.symm.trans hw')]⟩
  · intro p hp
    rw [System.sent_put] at hp
    rcases List.mem_append.mp hp with hp | hp
    · cases hstep with
      | worker i w _ e hw hm => exact (h.workerMove hport hfed hw hm hx).2 p hp
      | _ => cases hp
    · exact (h.genuine p hp).mono hx
  · apply System.forall_servers_put (P := fun y b => ∀ d, .syn d ∈ b.log → Received _ y d)
    · intro d hd
      rcases hstep.syn_mem hd with hold | ⟨hact, haction⟩
      · exact (h.received x d hold).mono hx
      · obtain ⟨p, hp, hrest⟩ := hfed.main d hact
        exact ⟨haction, p, hx.sent hp, hrest⟩
    · exact fun y d hd => (h.received y d hd).mono hx
  · exact System.forall_servers_put _ _ _ _ ((h.record x).step hstep) h.record
  · apply System.forall_servers_put (P := fun y b => ∀ w ∈ b.workers, WorkerOK _ y w)
    · intro w' hw'
      rcases hstep.workers hw' with hold | ⟨d, -, rfl, hd⟩ | ⟨i, w, e, hw, hm, rfl, rfl, rfl⟩
      · exact (h.worker x w' hold).mono hx
      · exact ⟨by rwa [hself], rfl⟩
      · exact (h.workerMove hport hfed hw hm hx).1
    · exact fun y w hw => (h.worker y w hw).mono hx

/-- The network loses or duplicates, and nothing else happens. -/
theorem NetInv.of_net (h : NetInv s) (hservers : s'.servers = s.servers)
    (hopened : s'.opened = s.opened) (hsent : s'.sent = s.sent) (hnet : s'.net ⊆ s.sent) :
    NetInv s' := by
  apply h.of_servers hservers
  · rw [hsent]
    exact hnet
  · rw [hsent]
    exact List.Subset.refl _
  · rw [hsent]
    exact fun _ hp => Or.inl hp
  · rw [hopened]
    exact List.Subset.refl _
  · rw [hopened]
    exact fun _ hsock => Or.inl hsock

/-- A client sends, and nothing else happens. -/
theorem NetInv.send (h : NetInv s) {p : Packet} (hp : Genuine s p)
    (hservers : s'.servers = s.servers) (hopened : s'.opened = s.opened)
    (hsent : s'.sent = p :: s.sent) (hnet : s'.net ⊆ p :: s.net) : NetInv s' := by
  apply h.of_servers hservers
  · rw [hsent]
    exact List.Subset.trans hnet (List.cons_subset_cons p h.net)
  · rw [hsent]
    exact List.subset_cons_self _ _
  · intro q hq
    rw [hsent] at hq
    rcases List.mem_cons.mp hq with rfl | hq
    · exact Or.inr hp
    · exact Or.inl hq
  · rw [hopened]
    exact List.Subset.refl _
  · rw [hopened]
    exact fun _ hsock => Or.inl hsock

theorem NetInv.step (h : NetInv s) {act : SysAct sc.n} (hstep : s.step act = some s') :
    NetInv s' := by
  cases System.step_sound hstep with
  | sync u hpc hfits =>
    have hlen : ((sc.update u).syn 0).length ≤ 1400 := by
      rw [Update.length_syn]
      exact hfits
    refine h.send (.syn u 0 ?_ rfl hlen (Or.inl ⟨u, rfl⟩)) rfl rfl rfl (List.Subset.refl _)
    rw [← List.head?_eq_getElem?]
    exact List.head?_eq_some_head (sc.update u).nonempty
  | clientRecv u p old stack hpc hp hdst =>
    exact h.send (.client u 3 stack rfl (Or.inl rfl)) rfl rfl rfl
      (List.cons_subset_cons _ List.erase_subset)
  | foreign u d stack hpc =>
    exact h.send (.client u 3 stack rfl (Or.inl rfl)) rfl rfl rfl (List.Subset.refl _)
  | keepalive u stack hpc =>
    exact h.send (.client u 4 stack rfl (Or.inr rfl)) rfl rfl rfl (List.Subset.refl _)
  | server x port _ act' s₁ a ps hfeeds hport halive hserver =>
    have hservers : s₁.servers = s.servers := hfeeds.servers
    rw [← hservers] at hserver
    exact (h.feeds hfeeds).server hport (h.fed hfeeds) hserver
  | lose p hp => exact h.of_net rfl rfl rfl (List.Subset.trans List.erase_subset h.net)
  | duplicate p hp => exact h.of_net rfl rfl rfl (List.cons_subset.mpr ⟨h.net hp, h.net⟩)

theorem NetInv.extends_step (h : NetInv s) {act : SysAct sc.n} (hstep : s.step act = some s') :
    Extends s s' := by
  cases System.step_sound hstep with
  | server x port _ act' s₁ a ps hfeeds hport halive hserver =>
    have hservers : s₁.servers = s.servers := hfeeds.servers
    have hsent : s.sent ⊆ s₁.sent := by
      rw [hfeeds.sent]
      exact List.Subset.refl _
    rw [← hservers] at hserver
    exact (Extends.of_servers hservers hsent).trans ((h.feeds hfeeds).extends_put hserver)
  | sync | clientRecv | foreign | keepalive =>
    exact .of_servers rfl (List.subset_cons_self _ _)
  | lose | duplicate => exact .of_servers rfl (List.Subset.refl _)

theorem NetInv.reachable (h : Reachable System.step (System.init sc) s) : NetInv s :=
  h.invariant NetInv.init fun _ _ _ _ hx hstep => hx.step hstep

end SystemSteps

end MiddleboxSession.Emulator
