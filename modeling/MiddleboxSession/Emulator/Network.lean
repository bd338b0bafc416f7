/-
  MiddleboxSession/Emulator/Network.lean
  ======================================
  **clientUDP, a chain of serverUDP processes, and the network between them.**

  A scenario fixes where a serverUDP process runs and which port of the next
  host it was started with, and any number of updates.  The next hop of a
  datagram is an address of its list at the sender's own port argument, so a
  list is a chain of sockets.  The network may lose, duplicate and reorder
  datagrams.  The socket of a `sendForward` is one that nobody has had before.

  clientUDP tests the datagram it receives for a SYN-ACK of its update, but the
  code behind the test is the label `confirmed` that the test jumps to.
  `foreign` is a datagram that no party of the protocol has sent to a client.
-/
import MiddleboxSession.Runs
import MiddleboxSession.Emulator.Server

namespace MiddleboxSession.Emulator

open CBuffer Runs

/-! ### Scenarios -/

/-- One update: what clientUDP is started with, and the sockets of the hops on
    its list. -/
structure Update (nextPort : SockAddr → Option (BitVec 16)) where
  key : FlowKey
  seq : BitVec 32
  hops : List SockAddr
  nonempty : hops ≠ []
  served : ∀ x ∈ hops, (nextPort x).isSome
  chain : hops.IsChain fun x y => nextPort x = some y.port

/-- The SYN fits into `sendline`; `sync_packet` is undefined for a longer list. -/
def Update.Fits {nextPort : SockAddr → Option (BitVec 16)} (u : Update nextPort) : Prop :=
  24 + 4 * u.hops.length ≤ 1400

/-- `nextPort x` is the second argument of the serverUDP process at the socket
    `x`, if one runs there. -/
structure Scenario where
  nextPort : SockAddr → Option (BitVec 16)
  n : Nat
  update : Fin n → Update nextPort
  sock : Fin n → SockAddr
  client : ∀ u, nextPort (sock u) = none

section Updates

variable {nextPort : SockAddr → Option (BitVec 16)} (u : Update nextPort)

def Update.first : SockAddr := u.hops.head u.nonempty

/-- The SYN of the update as it is sent to hop `m`. -/
def Update.syn (m : Nat) : List Byte :=
  synBytes u.key u.seq ((u.hops.drop m).map SockAddr.addr)

end Updates

/-! ### The system -/

inductive ClientPc where
  | idle
  | waiting
  | confirmed
deriving DecidableEq, Repr

/-- The agents, the clients, the network, and the sockets that a `sendForward`
    ever had.  `sent` and `lost` are histories. -/
structure System (sc : Scenario) where
  servers : SockAddr → Server
  clients : Fin sc.n → ClientPc
  net : List Packet
  sent : List Packet
  lost : List Packet
  opened : List SockAddr

variable {sc : Scenario}

def System.init (sc : Scenario) : System sc :=
  ⟨fun _ => Server.init, fun _ => .idle, [], [], [], []⟩

/-- The steps of the system.  `old` is what a receive buffer held before,
    `stack` what `AckMesg` did. -/
inductive SysAct (n : Nat) where
  | sync (u : Fin n)
  | clientRecv (u : Fin n) (p : Packet) (old stack : Nat → Byte)
  | foreign (u : Fin n) (d : Datagram) (stack : Nat → Byte)
  | keepalive (u : Fin n) (stack : Nat → Byte)
  | mainRecv (x : SockAddr) (p : Packet) (old : Nat → Byte)
  | mainExit (x : SockAddr)
  | workerStart (x : SockAddr) (i : Nat) (sock : SockAddr)
  | workerRecv (x : SockAddr) (i : Nat) (p : Packet) (old : Nat → Byte)
  | workerStep (x : SockAddr) (i : Nat) (stack : Nat → Byte)
  | lose (p : Packet)
  | duplicate (p : Packet)

namespace System

def send (s : System sc) (ps : List Packet) : System sc :=
  { s with net := ps ++ s.net, sent := ps ++ s.sent }

def take (s : System sc) (p : Packet) : System sc := { s with net := s.net.erase p }

def put (s : System sc) (x : SockAddr) (a : Server) (ps : List Packet) : System sc :=
  { s with servers := Function.update s.servers x a }.send ps

def setClient (s : System sc) (u : Fin sc.n) (pc : ClientPc) : System sc :=
  { s with clients := Function.update s.clients u pc }

/-- A datagram from client `u` to its `servaddr`. -/
def sendFirst (s : System sc) (u : Fin sc.n) (mesg : Option (List Byte)) : System sc :=
  s.send (mesg.map fun bytes => ⟨sc.sock u, (sc.update u).first, bytes⟩).toList

/-- A socket that the kernel may give to a `sendForward`. -/
def fresh (s : System sc) (sock : SockAddr) : Bool :=
  sock ∉ s.opened ∧ sc.nextPort sock = none ∧ ∀ u, sc.sock u ≠ sock

def stepServer (s : System sc) (x : SockAddr) (act : Act) : Option (System sc) :=
  (sc.nextPort x).bind fun port =>
    ((s.servers x).step x port act).map fun r => s.put x r.1 r.2

def workerSock (s : System sc) (x : SockAddr) (i : Nat) : Option SockAddr :=
  (s.servers x).workers[i]?.bind Worker.sock

/-- The label `confirmed` of clientUDP.c: the ACK. -/
def confirmed (s : System sc) (u : Fin sc.n) (stack : Nat → Byte) : System sc :=
  (s.setClient u .confirmed).sendFirst u (ackMesg (sc.update u).seq stack)

/-- clientUDP behind its `recvfrom`. -/
def clientTest (s : System sc) (u : Fin sc.n) (d : Datagram) (stack : Nat → Byte) : System sc :=
  if d.header.action = 2 ∧ d.header.sequenceNum = (sc.update u).seq ∧ d.n = 28 then
    s.confirmed u stack    -- `goto confirmed`
  else s.confirmed u stack -- the next statement

def step (s : System sc) : SysAct sc.n → Option (System sc)
  | .sync u =>
    match s.clients u with
    | .idle =>
      let up := sc.update u
      (syncPacket up.key up.seq (up.hops.map SockAddr.addr)).map fun mesg =>
        (s.setClient u .waiting).sendFirst u (some mesg)
    | _ => none
  | .clientRecv u p old stack =>
    if s.clients u = .waiting ∧ p ∈ s.net ∧ p.dst = sc.sock u then
      some ((s.take p).clientTest u (recvfrom p old) stack) else none
  | .foreign u d stack =>
    if s.clients u = .waiting then some (s.clientTest u d stack) else none
  | .keepalive u stack =>
    if s.clients u = .confirmed then
      some (s.sendFirst u (keepaliveMesg (sc.update u).seq stack)) else none
  | .mainRecv x p old =>
    if p ∈ s.net ∧ p.dst = x then (s.take p).stepServer x (.mainRecv (recvfrom p old)) else none
  | .mainExit x => s.stepServer x .mainExit
  | .workerStart x i sock =>
    if s.fresh sock then
      { s with opened := sock :: s.opened }.stepServer x (.workerStart i sock)
    else none
  | .workerRecv x i p old =>
    if p ∈ s.net ∧ s.workerSock x i = some p.dst then
      (s.take p).stepServer x (.workerRecv i (recvfrom p old)) else none
  | .workerStep x i stack => s.stepServer x (.workerStep i stack)
  | .lose p =>
    if p ∈ s.net then some { s.take p with lost := p :: s.lost } else none
  | .duplicate p =>
    if p ∈ s.net then some { s with net := p :: s.net } else none

section Fields

variable (s : System sc) (x : SockAddr) (a : Server) (ps : List Packet)

@[simp] theorem servers_put : (s.put x a ps).servers = Function.update s.servers x a := rfl
@[simp] theorem net_put : (s.put x a ps).net = ps ++ s.net := rfl
@[simp] theorem sent_put : (s.put x a ps).sent = ps ++ s.sent := rfl
@[simp] theorem opened_put : (s.put x a ps).opened = s.opened := rfl

theorem servers_put_self : (s.put x a ps).servers x = a := Function.update_self ..

theorem servers_put_ne {y : SockAddr} (h : y ≠ x) : (s.put x a ps).servers y = s.servers y :=
  Function.update_of_ne h ..

/-- What holds of the server that moves and of all servers before the step. -/
theorem forall_servers_put {P : SockAddr → Server → Prop} (hself : P x a)
    (hothers : ∀ y, P y (s.servers y)) (y : SockAddr) : P y ((s.put x a ps).servers y) := by
  by_cases hy : y = x
  · subst hy
    rw [servers_put_self]
    exact hself
  · rw [servers_put_ne _ _ _ _ hy]
    exact hothers y

end Fields

/-! ### What a step can do -/

/-- What a step of the agent at `x` takes out of the network, or opens. -/
inductive Feeds (s : System sc) (x : SockAddr) : SysAct sc.n → Act → System sc → Prop
  | mainRecv (p : Packet) (old : Nat → Byte) (hp : p ∈ s.net) (hdst : p.dst = x) :
      Feeds s x (.mainRecv x p old) (.mainRecv (recvfrom p old)) (s.take p)
  | mainExit : Feeds s x (.mainExit x) .mainExit s
  | workerStart (i : Nat) (sock : SockAddr) (hsock : s.fresh sock = true) :
      Feeds s x (.workerStart x i sock) (.workerStart i sock)
        { s with opened := sock :: s.opened }
  | workerRecv (i : Nat) (p : Packet) (old : Nat → Byte) (hp : p ∈ s.net)
      (hsock : s.workerSock x i = some p.dst) :
      Feeds s x (.workerRecv x i p old) (.workerRecv i (recvfrom p old)) (s.take p)
  | workerStep (i : Nat) (stack : Nat → Byte) :
      Feeds s x (.workerStep x i stack) (.workerStep i stack) s

/-- The header that a client sends after its SYN. -/
def clientPacket (u : Fin sc.n) (action : BitVec 32) (stack : Nat → Byte) : Packet :=
  ⟨sc.sock u, (sc.update u).first, (Header.mk' action (sc.update u).seq (keyOf stack)).bytes⟩

inductive Step (s : System sc) : SysAct sc.n → System sc → Prop
  | sync (u : Fin sc.n) (hpc : s.clients u = .idle) (hfits : (sc.update u).Fits) :
      Step s (.sync u) ((s.setClient u .waiting).send
        [⟨sc.sock u, (sc.update u).first, (sc.update u).syn 0⟩])
  | clientRecv (u : Fin sc.n) (p : Packet) (old stack : Nat → Byte)
      (hpc : s.clients u = .waiting) (hp : p ∈ s.net) (hdst : p.dst = sc.sock u) :
      Step s (.clientRecv u p old stack)
        (((s.take p).setClient u .confirmed).send [clientPacket u 3 stack])
  | foreign (u : Fin sc.n) (d : Datagram) (stack : Nat → Byte) (hpc : s.clients u = .waiting) :
      Step s (.foreign u d stack) ((s.setClient u .confirmed).send [clientPacket u 3 stack])
  | keepalive (u : Fin sc.n) (stack : Nat → Byte) (hpc : s.clients u = .confirmed) :
      Step s (.keepalive u stack) (s.send [clientPacket u 4 stack])
  | server (x : SockAddr) (port : BitVec 16) (act : SysAct sc.n) (act' : Act) (s₁ : System sc)
      (a : Server) (ps : List Packet) (hfeeds : s.Feeds x act act' s₁)
      (hport : sc.nextPort x = some port) (halive : (s.servers x).alive = true)
      (hstep : (s.servers x).Step x port act' a ps) : Step s act (s₁.put x a ps)
  | lose (p : Packet) (hp : p ∈ s.net) :
      Step s (.lose p) { s.take p with lost := p :: s.lost }
  | duplicate (p : Packet) (hp : p ∈ s.net) : Step s (.duplicate p) { s with net := p :: s.net }

theorem stepServer_sound {s s₁ s' : System sc} {x : SockAddr} {act : SysAct sc.n} {act' : Act}
    (hfeeds : s.Feeds x act act' s₁) (h : s₁.stepServer x act' = some s') : Step s act s' := by
  have hservers : s₁.servers = s.servers := by cases hfeeds <;> rfl
  obtain ⟨port, hport, h⟩ := Option.bind_eq_some_iff.mp h
  obtain ⟨⟨a, ps⟩, hstep, rfl⟩ := Option.map_eq_some_iff.mp h
  rw [hservers] at hstep
  obtain ⟨halive, hs⟩ := Server.step_sound hstep
  exact .server x port act act' s₁ a ps hfeeds hport halive hs

theorem sendFirst_short (s : System sc) (u : Fin sc.n) (action : BitVec 32)
    (stack : Nat → Byte) :
    s.sendFirst u (shortMesg action (sc.update u).seq stack) =
      s.send [clientPacket u action stack] := by
  rw [sendFirst, shortMesg_eq]
  rfl

/-- Both branches of the test end in the ACK. -/
theorem clientTest_eq (s : System sc) (u : Fin sc.n) (d : Datagram) (stack : Nat → Byte) :
    s.clientTest u d stack = (s.setClient u .confirmed).send [clientPacket u 3 stack] := by
  rw [clientTest, ite_self, confirmed, ackMesg, sendFirst_short]

/-- **The inversion of `System.step`.** -/
theorem step_sound {s s' : System sc} {act : SysAct sc.n} (h : s.step act = some s') :
    Step s act s' := by
  cases act with
  | sync u =>
    simp only [step] at h
    split at h
    · rename_i hpc
      obtain ⟨mesg, hmesg, rfl⟩ := Option.map_eq_some_iff.mp h
      obtain ⟨hfits, rfl⟩ := syncPacket_eq_some hmesg
      rw [List.length_map] at hfits
      exact .sync u hpc hfits
    · cases h
  | clientRecv u p old stack =>
    simp only [step, clientTest_eq] at h
    split at h <;> cases h
    rename_i hp
    exact .clientRecv u p old stack hp.1 hp.2.1 hp.2.2
  | foreign u d stack =>
    simp only [step, clientTest_eq] at h
    split at h <;> cases h
    exact .foreign u d stack ‹_›
  | keepalive u stack =>
    simp only [step, keepaliveMesg, sendFirst_short] at h
    split at h <;> cases h
    exact .keepalive u stack ‹_›
  | mainRecv x p old =>
    simp only [step] at h
    split at h
    · rename_i hp
      exact stepServer_sound (.mainRecv p old hp.1 hp.2) h
    · cases h
  | mainExit x => exact stepServer_sound .mainExit h
  | workerStart x i sock =>
    simp only [step] at h
    split at h
    · exact stepServer_sound (.workerStart i sock ‹_›) h
    · cases h
  | workerRecv x i p old =>
    simp only [step] at h
    split at h
    · rename_i hp
      exact stepServer_sound (.workerRecv i p old hp.1 hp.2) h
    · cases h
  | workerStep x i stack => exact stepServer_sound (.workerStep i stack) h
  | lose p =>
    simp only [step] at h
    split at h <;> cases h
    exact .lose p ‹_›
  | duplicate p =>
    simp only [step] at h
    split at h <;> cases h
    exact .duplicate p ‹_›

/-- What an iteration of a main loop takes, and what it leaves behind. -/
theorem mainRecv_spec {s s' : System sc} {y : SockAddr} {p : Packet} {old : Nat → Byte}
    (h : s.step (.mainRecv y p old) = some s') :
    p ∈ s.net ∧ p.dst = y ∧ s'.servers y = (s.servers y).mainRecv y (recvfrom p old) := by
  simp only [step] at h
  split at h
  · rename_i hp
    obtain ⟨port, -, h⟩ := Option.bind_eq_some_iff.mp h
    obtain ⟨⟨a, ps⟩, hstep, rfl⟩ := Option.map_eq_some_iff.mp h
    refine ⟨hp.1, hp.2, ?_⟩
    unfold Server.step at hstep
    split at hstep <;> cases hstep
    exact servers_put_self ..
  · cases h

theorem Feeds.servers {s s₁ : System sc} {x : SockAddr} {act : SysAct sc.n} {act' : Act}
    (h : s.Feeds x act act' s₁) : s₁.servers = s.servers := by
  cases h <;> rfl

theorem Feeds.sent {s s₁ : System sc} {x : SockAddr} {act : SysAct sc.n} {act' : Act}
    (h : s.Feeds x act act' s₁) : s₁.sent = s.sent := by
  cases h <;> rfl

theorem Feeds.net {s s₁ : System sc} {x : SockAddr} {act : SysAct sc.n} {act' : Act}
    (h : s.Feeds x act act' s₁) : s₁.net ⊆ s.net := by
  cases h <;> first | exact fun p hp => hp | exact List.erase_subset

end System

end MiddleboxSession.Emulator
