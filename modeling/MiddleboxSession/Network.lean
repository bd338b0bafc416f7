/-
  MiddleboxSession/Network.lean
  =============================
  **The update handshake over an unreliable network.**

  A scenario fixes any number of updates, each with its flow key, its
  sequence number, its list of hops and the socket of its initiator
  (updateNotify.c).  An agent runs at every address.  The network holds the
  datagrams in flight; it may deliver them in any order, lose and duplicate
  them.  A socket receives only what a party of the protocol has sent, and
  the rest of a receive buffer is arbitrary.

  `System.step` is the system, `System.Step` lists its transitions: those of
  the initiators, those of the network, and those of an agent, which take a
  datagram out of the network if they receive one (`Feeds`).
-/
import MiddleboxSession.Threads

namespace MiddleboxSession

open CBuffer Runs

/-! ### Scenarios -/

/-- One update: what updateNotify.c has compiled in. -/
structure Update where
  key : FlowKey
  seq : BitVec 32
  hops : List Addr
  positive : 0 < seq.toInt
  nonempty : hops ≠ []
  nodup : hops.Nodup

/-- The SYN fits into `sendline`; `sync_packet` is undefined for a longer list. -/
def Update.Fits (u : Update) : Prop := 24 + 4 * u.hops.length ≤ 1400

def Update.first (u : Update) : Addr := u.hops.head u.nonempty

def Update.last (u : Update) : Addr := u.hops.getLast u.nonempty

theorem Update.index_unique (u : Update) {i j : Nat} {a : Addr} (hi : u.hops[i]? = some a)
    (hj : u.hops[j]? = some a) : i = j := by
  obtain ⟨hi', hgi⟩ := List.getElem?_eq_some_iff.mp hi
  obtain ⟨hj', hgj⟩ := List.getElem?_eq_some_iff.mp hj
  exact (List.Nodup.getElem_inj_iff u.nodup).mp (hgi.trans hgj.symm)

/-- Any number of updates, no two with the same flow key and sequence number,
    and the sockets of their initiators. -/
structure Scenario where
  n : Nat
  update : Fin n → Update
  sock : Fin n → SockAddr
  own : ∀ i j, (update i).key = (update j).key → (update i).seq = (update j).seq → i = j
  sock_inj : ∀ i j, sock i = sock j → i = j
  sock_port : ∀ i, (sock i).port ≠ UDP_PORT

/-! ### The system -/

/-- Where updateNotify stands. -/
inductive NotifyPc where
  | idle
  | waiting
  | received (d : Datagram)

/-- `main` of updateNotify.c behind its `recvfrom`: the ACK it sends, if any. -/
def notifyAck (seq : BitVec 32) (d : Datagram) : Option (List Byte) :=
  if d.header.action = 5 ∧ d.header.sequenceNum = seq then ackMesg seq else none

/-- The agents, the initiators, and the network.  `sent` and `lost` are
    histories. -/
structure System (sc : Scenario) where
  agents : Addr → Agent
  notifiers : Fin sc.n → NotifyPc
  net : List Packet
  sent : List Packet
  lost : List Packet

variable {sc : Scenario}

/-- A process that has accepted nothing yet; its table and its flag may be left
    over from earlier updates. -/
structure Agent.Idle (a : Agent) : Prop where
  alive : a.alive = true
  main : a.main = .recv
  lock : a.lock = none
  workers : a.workers = []
  log : a.log = []

structure System.Idle (s : System sc) : Prop where
  agents : ∀ a, (s.agents a).Idle
  notifiers : ∀ u, s.notifiers u = .idle
  net : s.net = []
  sent : s.sent = []
  lost : s.lost = []

def System.init (sc : Scenario) : System sc := ⟨fun _ => Agent.init, fun _ => .idle, [], [], []⟩

theorem System.idle_init : (System.init sc).Idle :=
  ⟨fun _ => ⟨rfl, rfl, rfl, rfl, rfl⟩, fun _ => rfl, rfl, rfl, rfl⟩

/-- The steps of the system.  `old` is what a receive buffer held before. -/
inductive SysAct (n : Nat) where
  | notify (u : Fin n)
  | notifyRecv (u : Fin n) (p : Packet) (old : Nat → Byte)
  | mainRecv (a : Addr) (p : Packet) (old : Nat → Byte)
  | mainStep (a : Addr)
  | mainExit (a : Addr)
  | workerStart (a : Addr) (i : Nat) (port : BitVec 16)
  | workerRecv (a : Addr) (i : Nat) (p : Packet) (old : Nat → Byte)
  | workerStep (a : Addr) (i : Nat)
  | lose (p : Packet)
  | duplicate (p : Packet)

/-- Some packet for the socket `dst` with the given payload is among the packets. -/
def Among (ps : List Packet) (dst : SockAddr) (payload : List Byte) : Prop :=
  ∃ p ∈ ps, p.dst = dst ∧ p.payload = payload

theorem Among.mono {ps qs : List Packet} (h : ps ⊆ qs) {dst : SockAddr} {payload : List Byte}
    (hp : Among ps dst payload) : Among qs dst payload := by
  obtain ⟨p, hmem, hdst, hpay⟩ := hp
  exact ⟨p, h hmem, hdst, hpay⟩

theorem Among.erase {ps : List Packet} {p : Packet} {dst : SockAddr} {payload : List Byte}
    (h : Among ps dst payload) (hp : ¬ (p.dst = dst ∧ p.payload = payload)) :
    Among (ps.erase p) dst payload := by
  obtain ⟨p₀, hmem, hdst, hpay⟩ := h
  refine ⟨p₀, (List.mem_erase_of_ne ?_).mpr hmem, hdst, hpay⟩
  rintro rfl
  exact hp ⟨hdst, hpay⟩

namespace System

def send (s : System sc) (ps : List Packet) : System sc :=
  { s with net := ps ++ s.net, sent := ps ++ s.sent }

def take (s : System sc) (p : Packet) : System sc := { s with net := s.net.erase p }

def put (s : System sc) (a : Addr) (a' : Agent) (ps : List Packet) : System sc :=
  { s with agents := Function.update s.agents a a' }.send ps

def setNotifier (s : System sc) (u : Fin sc.n) (pc : NotifyPc) : System sc :=
  { s with notifiers := Function.update s.notifiers u pc }

def stepAgent (s : System sc) (a : Addr) (act : Act) : Option (System sc) :=
  ((s.agents a).step a act).map fun r => s.put a r.1 r.2

def workerPort (s : System sc) (a : Addr) (i : Nat) : Option (BitVec 16) :=
  (s.agents a).workers[i]?.bind Worker.port

def step (s : System sc) : SysAct sc.n → Option (System sc)
  | .notify u =>
    match s.notifiers u with
    | .idle =>
      let up := sc.update u
      (syncPacket up.key up.seq up.hops).map fun mesg =>
        (s.setNotifier u .waiting).send [⟨sc.sock u, mainSock up.first, mesg⟩]
    | _ => none
  | .notifyRecv u p old =>
    match s.notifiers u with
    | .waiting =>
      let up := sc.update u
      let d := recvfrom p old
      if p ∈ s.net ∧ p.dst = sc.sock u then
        some (((s.take p).setNotifier u (.received d)).send
          (packetOf (sc.sock u) (mainSock up.first) (notifyAck up.seq d)).toList)
      else none
    | _ => none
  | .mainRecv a p old =>
    if p ∈ s.net ∧ p.dst = mainSock a then
      (s.take p).stepAgent a (.mainRecv (recvfrom p old)) else none
  | .mainStep a => s.stepAgent a .mainStep
  | .mainExit a => s.stepAgent a .mainExit
  | .workerStart a i port =>
    if ∀ u, sc.sock u ≠ ⟨a, port⟩ then s.stepAgent a (.workerStart i port) else none
  | .workerRecv a i p old =>
    if p ∈ s.net ∧ p.dst.addr = a ∧ s.workerPort a i = some p.dst.port then
      (s.take p).stepAgent a (.workerRecv i (recvfrom p old)) else none
  | .workerStep a i => s.stepAgent a (.workerStep i)
  | .lose p =>
    if p ∈ s.net then some { s.take p with lost := p :: s.lost } else none
  | .duplicate p =>
    if p ∈ s.net then some { s with net := p :: s.net } else none

section Fields

variable (s : System sc) (a : Addr) (a' : Agent) (ps : List Packet)

@[simp] theorem agents_put : (s.put a a' ps).agents = Function.update s.agents a a' := rfl
@[simp] theorem notifiers_put : (s.put a a' ps).notifiers = s.notifiers := rfl
@[simp] theorem net_put : (s.put a a' ps).net = ps ++ s.net := rfl
@[simp] theorem sent_put : (s.put a a' ps).sent = ps ++ s.sent := rfl
@[simp] theorem lost_put : (s.put a a' ps).lost = s.lost := rfl

theorem agents_put_self : (s.put a a' ps).agents a = a' := Function.update_self ..

theorem agents_put_ne {b : Addr} (h : b ≠ a) : (s.put a a' ps).agents b = s.agents b :=
  Function.update_of_ne h ..

end Fields

/-! ### What a step can do -/

/-- What a step of the agent at `b` takes out of the network. -/
inductive Feeds (s : System sc) (b : Addr) : SysAct sc.n → Act → System sc → Prop
  | mainRecv (p : Packet) (old : Nat → Byte) (hp : p ∈ s.net) (hdst : p.dst = mainSock b) :
      Feeds s b (.mainRecv b p old) (.mainRecv (recvfrom p old)) (s.take p)
  | mainStep : Feeds s b (.mainStep b) .mainStep s
  | mainExit : Feeds s b (.mainExit b) .mainExit s
  | workerStart (i : Nat) (port : BitVec 16) (hport : ∀ u, sc.sock u ≠ ⟨b, port⟩) :
      Feeds s b (.workerStart b i port) (.workerStart i port) s
  | workerRecv (i : Nat) (p : Packet) (old : Nat → Byte) (hp : p ∈ s.net)
      (hdst : p.dst.addr = b) (hport : s.workerPort b i = some p.dst.port) :
      Feeds s b (.workerRecv b i p old) (.workerRecv i (recvfrom p old)) (s.take p)
  | workerStep (i : Nat) : Feeds s b (.workerStep b i) (.workerStep i) s

inductive Step (s : System sc) : SysAct sc.n → System sc → Prop
  | notify (u : Fin sc.n) (hpc : s.notifiers u = .idle) (hfits : (sc.update u).Fits) :
      Step s (.notify u) ((s.setNotifier u .waiting).send [⟨sc.sock u, mainSock (sc.update u).first,
        synBytes (sc.update u).key (sc.update u).seq (sc.update u).hops⟩])
  | notifyRecv (u : Fin sc.n) (p : Packet) (old : Nat → Byte) (hpc : s.notifiers u = .waiting)
      (hp : p ∈ s.net) (hdst : p.dst = sc.sock u) :
      Step s (.notifyRecv u p old) (((s.take p).setNotifier u (.received (recvfrom p old))).send
        (packetOf (sc.sock u) (mainSock (sc.update u).first)
          (notifyAck (sc.update u).seq (recvfrom p old))).toList)
  | agent (b : Addr) (act : SysAct sc.n) (act' : Act) (s₁ : System sc) (a' : Agent)
      (ps : List Packet) (hfeeds : s.Feeds b act act' s₁) (halive : (s.agents b).alive = true)
      (hstep : Agent.Step b (s.agents b) act' a' ps) : Step s act (s₁.put b a' ps)
  | lose (p : Packet) (hp : p ∈ s.net) :
      Step s (.lose p) { s.take p with lost := p :: s.lost }
  | duplicate (p : Packet) (hp : p ∈ s.net) : Step s (.duplicate p) { s with net := p :: s.net }

theorem stepAgent_sound {s s₁ s' : System sc} {b : Addr} {act : SysAct sc.n} {act' : Act}
    (hfeeds : s.Feeds b act act' s₁) (h : s₁.stepAgent b act' = some s') : Step s act s' := by
  have hagents : s₁.agents = s.agents := by cases hfeeds <;> rfl
  obtain ⟨⟨a', ps⟩, hstep, rfl⟩ := Option.map_eq_some_iff.mp h
  rw [hagents] at hstep
  obtain ⟨halive, hs⟩ := Agent.step_sound b hstep
  exact .agent b act act' s₁ a' ps hfeeds halive hs

/-- **The inversion of `System.step`.** -/
theorem step_sound {s s' : System sc} {act : SysAct sc.n} (h : s.step act = some s') :
    Step s act s' := by
  cases act with
  | notify u =>
    simp only [step] at h
    split at h
    · rename_i hpc
      obtain ⟨mesg, hmesg, rfl⟩ := Option.map_eq_some_iff.mp h
      obtain ⟨hfits, rfl⟩ := syncPacket_eq_some hmesg
      exact .notify u hpc hfits
    · cases h
  | notifyRecv u p old =>
    simp only [step] at h
    split at h
    · rename_i hpc
      split at h <;> cases h
      rename_i hp
      exact .notifyRecv u p old hpc hp.1 hp.2
    · cases h
  | mainRecv b p old =>
    simp only [step] at h
    split at h
    · rename_i hp
      exact stepAgent_sound (.mainRecv p old hp.1 hp.2) h
    · cases h
  | mainStep b => exact stepAgent_sound .mainStep h
  | mainExit b => exact stepAgent_sound .mainExit h
  | workerStart b i port =>
    simp only [step] at h
    split at h
    · exact stepAgent_sound (.workerStart i port ‹_›) h
    · cases h
  | workerRecv b i p old =>
    simp only [step] at h
    split at h
    · rename_i hp
      exact stepAgent_sound (.workerRecv i p old hp.1 hp.2.1 hp.2.2) h
    · cases h
  | workerStep b i => exact stepAgent_sound (.workerStep i) h
  | lose p =>
    simp only [step] at h
    split at h <;> cases h
    exact .lose p ‹_›
  | duplicate p =>
    simp only [step] at h
    split at h <;> cases h
    exact .duplicate p ‹_›

theorem Feeds.agents {s s₁ : System sc} {b : Addr} {act : SysAct sc.n} {act' : Act}
    (h : s.Feeds b act act' s₁) : s₁.agents = s.agents := by
  cases h <;> rfl

theorem Feeds.sent {s s₁ : System sc} {b : Addr} {act : SysAct sc.n} {act' : Act}
    (h : s.Feeds b act act' s₁) : s₁.sent = s.sent := by
  cases h <;> rfl

theorem Feeds.notifiers {s s₁ : System sc} {b : Addr} {act : SysAct sc.n} {act' : Act}
    (h : s.Feeds b act act' s₁) : s₁.notifiers = s.notifiers := by
  cases h <;> rfl

theorem Feeds.net {s s₁ : System sc} {b : Addr} {act : SysAct sc.n} {act' : Act}
    (h : s.Feeds b act act' s₁) : s₁.net ⊆ s.net := by
  cases h <;> first | exact fun p hp => hp | exact List.erase_subset

/-- An agent's step leaves the other agents alone. -/
theorem Feeds.agents_put {s s₁ : System sc} {b : Addr} {act : SysAct sc.n} {act' : Act}
    (h : s.Feeds b act act' s₁) {a : Addr} (ha : a ≠ b) (b' : Agent) (ps : List Packet) :
    (s₁.put b b' ps).agents a = s.agents a := by
  rw [agents_put_ne _ _ _ _ ha, h.agents]

theorem Feeds.sent_put {s s₁ : System sc} {b : Addr} {act : SysAct sc.n} {act' : Act}
    (h : s.Feeds b act act' s₁) (b' : Agent) (ps : List Packet) :
    (s₁.put b b' ps).sent = ps ++ s.sent := by
  rw [System.sent_put, h.sent]

end System

end MiddleboxSession
