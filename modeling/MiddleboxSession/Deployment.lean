/-
  MiddleboxSession/Deployment.lean
  ================================
  **The deployment as a whole**: the update handshake of Network.lean, the
  kernel modules of the two endpoints, the middleboxes on the two paths, and
  the packets of the session between them.

  What the agent on the host of an endpoint writes to its netlink socket is
  what the kernel module of that host receives.  An operator may send it
  anything besides (netlink_user.c) except an "ACK".  A packet is sent through
  the sender's outgoing hook, forwarded by the middlebox that it is then
  addressed to and received through the incoming hook of the other end, each
  at some time; until then it may be lost, duplicated and overtaken.
  A netlink message is handled in one step: no packet is looked up between
  `deleteHash` and `addHash` of a "RESET" (ClientRaces.lean has those states).

  The source address that a middlebox writes is compiled into its module.  The
  repository has the module of the old box; `Boxes` leaves open whether the new
  box runs this one or one with its own address.
-/
import MiddleboxSession.Handshake
import MiddleboxSession.Migration
import MiddleboxSession.Transparency

namespace MiddleboxSession

open CBuffer UTHash Runs

/-! ### The two ends -/

namespace Side

def host : Side → Addr
  | client => clientAddr
  | server => serverAddr

def other : Side → Side
  | client => server
  | server => client

/-- The netlink handler of the module. -/
def netlink : Side → KernelTable → String → KernelTable
  | client => Client.netlinkAgent
  | server => Server.helloNlRecvMsg

def pktMangleInit : Side → KernelTable
  | client => Client.pktMangleInit
  | server => Server.pktMangleInit

/-- A packet of the session as the application of an end sends it. -/
structure Sends (side : Side) (skb : SkBuff) : Prop where
  tcp : skb.IsTcp
  saddr : skb.iph.saddr = side.host
  daddr : skb.iph.daddr = side.peer
  port : side.outPort skb = 5001

instance (skb : SkBuff) : Decidable skb.IsTcp :=
  decidable_of_iff (skb.iph.version = 4 ∧ skb.iph.protocol = IPPROTO_TCP)
    ⟨fun h => ⟨h.1, h.2⟩, fun h => ⟨h.version, h.protocol⟩⟩

instance (side : Side) (skb : SkBuff) : Decidable (side.Sends skb) :=
  decidable_of_iff (skb.IsTcp ∧ skb.iph.saddr = side.host ∧ skb.iph.daddr = side.peer ∧
      side.outPort skb = 5001)
    ⟨fun h => ⟨h.1, h.2.1, h.2.2.1, h.2.2.2⟩, fun h => ⟨h.tcp, h.saddr, h.daddr, h.port⟩⟩

end Side

/-! ### The middleboxes -/

namespace Middlebox

/-- `pkt_mangle_init` of the module of a box that sends from `src`. -/
def tableFrom (src : Addr) : KernelTable :=
  hashAdd (hashAdd none { toServer with src := src }) { toClient with src := src }

/-- The repository's module is the one of the old box. -/
theorem tableFrom_oldBox : tableFrom oldBox = pktMangleInit := rfl

/-- The hooks of such a module, if `skb_linearize` leaves the head of a packet in
    place (Transparency.lean has the hooks behind a copy). -/
def hooksFrom (cs : Csum) (src : Addr) : List (SkBuff → Verdict × SkBuff) :=
  [incomingChangeBegin cs true (tableFrom src), outgoingChangeBegin cs (tableFrom src)]

theorem hooksFrom_oldBox (cs : Csum) : hooksFrom cs oldBox = middleboxHooks cs .inPlace := rfl

end Middlebox

/-- The addresses that the box on the old and the box on the new path send from:
    each its own, or the one in the repository's module. -/
structure Boxes where
  src : Bool → Addr
  own : ∀ b, src b = path b ∨ src b = oldBox

/-- Each box sends from its own address. -/
def Boxes.each : Boxes := ⟨path, fun _ => Or.inl rfl⟩

/-! ### The deployment -/

inductive Leg where
  | toBox
  | toPeer
deriving DecidableEq, Repr

/-- A packet on its way, and as the application at `side` sent it. -/
structure InFlight where
  side : Side
  sent : SkBuff
  leg : Leg
  skb : SkBuff
deriving DecidableEq, Repr

/-- A packet that has come through the incoming hook of the other end. -/
structure Delivery where
  side : Side
  sent : SkBuff
  got : SkBuff
deriving DecidableEq, Repr

structure Deployment (sc : Scenario) where
  sys : System sc
  table : Side → KernelTable
  flight : List InFlight
  delivered : List Delivery

inductive DeployAct (n : Nat) where
  | control (act : SysAct n)
  | operator (side : Side) (msg : String)
  | send (side : Side) (skb : SkBuff)
  | forward (b : Bool) (p : InFlight)          -- the box on the old or the new path
  | receive (p : InFlight)
  | lose (p : InFlight)
  | duplicate (p : InFlight)

variable {sc : Scenario}

/-- What the agent at `a` has written to its netlink socket from `s` to `s'`. -/
def emitted (s s' : System sc) (a : Addr) : List String :=
  (netlinks (s'.agents a).log).drop (netlinks (s.agents a).log).length

namespace Deployment

def init (sc : Scenario) : Deployment sc := ⟨System.init sc, Side.pktMangleInit, [], []⟩

/-- Modules that have just been loaded, and agents that have accepted nothing. -/
structure Fresh (d : Deployment sc) : Prop where
  sys : d.sys.Idle
  table : d.table = Side.pktMangleInit
  flight : d.flight = []
  delivered : d.delivered = []

theorem fresh_init : (init sc).Fresh := ⟨System.idle_init, rfl, rfl, rfl⟩

def put (d : Deployment sc) (p : InFlight) : Deployment sc :=
  { d with flight := p :: d.flight }

def take (d : Deployment sc) (p : InFlight) : Deployment sc :=
  { d with flight := d.flight.erase p }

def deliver (d : Deployment sc) (p : InFlight) (got : SkBuff) : Deployment sc :=
  { d.take p with delivered := ⟨p.side, p.sent, got⟩ :: d.delivered }

def step (cs : Csum) (boxes : Boxes) (d : Deployment sc) :
    DeployAct sc.n → Option (Deployment sc)
  | .control act => (d.sys.step act).map fun sys =>
      { d with
        sys := sys
        table := fun side => (emitted d.sys sys side.host).foldl side.netlink (d.table side) }
  | .operator side msg =>
    if msg ≠ "ACK" then
      some { d with
        table := Function.update d.table side (side.netlink (d.table side) msg) }
    else none
  | .send side skb =>
    if side.Sends skb then
      (passed (side.outgoingBegin cs (d.table side) skb)).map fun skb' =>
        d.put ⟨side, skb, .toBox, skb'⟩
    else none
  | .forward b p =>
    if p ∈ d.flight ∧ p.leg = .toBox ∧ p.skb.iph.daddr = path b then
      (through (Middlebox.hooksFrom cs (boxes.src b)) p.skb).map fun skb' =>
        (d.take p).put { p with leg := .toPeer, skb := skb' }
    else none
  | .receive p =>
    if p ∈ d.flight ∧ p.leg = .toPeer ∧ p.skb.iph.daddr = p.side.other.host then
      (passed (p.side.other.incomingBegin (d.table p.side.other) p.skb)).map (d.deliver p)
    else none
  | .lose p => if p ∈ d.flight then some (d.take p) else none
  | .duplicate p => if p ∈ d.flight then some (d.put p) else none

/-- The handshake of the deployment is the one of Network.lean. -/
theorem step_sys {cs : Csum} {boxes : Boxes} {d d' : Deployment sc} {act : DeployAct sc.n}
    (h : d.step cs boxes act = some d') :
    d'.sys = d.sys ∨ ∃ act', d.sys.step act' = some d'.sys := by
  cases act with
  | control act =>
    obtain ⟨sys, hsys, rfl⟩ := Option.map_eq_some_iff.mp h
    exact Or.inr ⟨act, hsys⟩
  | operator | lose | duplicate =>
    simp only [step] at h
    split at h <;> cases h
    exact Or.inl rfl
  | send | forward | receive =>
    simp only [step] at h
    split at h
    · obtain ⟨skb, -, rfl⟩ := Option.map_eq_some_iff.mp h
      exact Or.inl rfl
    · cases h

end Deployment

/-! ### Netlink messages -/

theorem Agent.Step.log_suffix {self : Addr} {a a' : Agent} {act : Act} {ps : List Packet}
    (h : Agent.Step self a act a' ps) : a.log <:+ a'.log := by
  cases h with
  | syn | worker => exact List.suffix_append _ _
  | setAck | netlinkAck => exact List.suffix_cons _ _
  | ack | nullDeref | skip | exit | lockAck | unlockAck | undefined => exact List.suffix_rfl

theorem System.Step.log_suffix {s s' : System sc} {act : SysAct sc.n} (h : System.Step s act s')
    (a : Addr) : (s.agents a).log <:+ (s'.agents a).log := by
  cases h with
  | agent b _ act' s₁ a' ps hfeeds halive hstep =>
    by_cases ha : a = b
    · subst ha
      rw [System.agents_put_self]
      exact hstep.log_suffix
    · rw [hfeeds.agents_put ha]
  | notify | notifyRecv | lose | duplicate => exact List.suffix_rfl

theorem netlinks_emitted {s s' : System sc} {a : Addr}
    (h : (s.agents a).log <:+ (s'.agents a).log) :
    netlinks (s'.agents a).log = netlinks (s.agents a).log ++ emitted s s' a := by
  obtain ⟨new, hnew⟩ := h
  have happend : netlinks (s'.agents a).log =
      netlinks (s.agents a).log ++ netlinks new := by
    rw [← hnew, netlinks, List.reverse_append, List.filterMap_append]
    rfl
  rw [emitted, happend, List.drop_left]

theorem mem_netlinks {log : List Event} {msg : String} :
    msg ∈ netlinks log ↔ ∃ k q, .sendNetlink msg k q ∈ log := by
  constructor
  · intro h
    obtain ⟨e, he, hmsg⟩ := List.mem_filterMap.mp h
    obtain ⟨k, q, rfl⟩ := Event.netlink_eq_some hmsg
    exact ⟨k, q, List.mem_reverse.mp he⟩
  · rintro ⟨k, q, h⟩
    exact List.mem_filterMap.mpr ⟨_, List.mem_reverse.mpr h, rfl⟩

/-- Both ends have been told of an update. -/
def Prepared (s : System sc) : Prop := ∀ side : Side, "SYN" ∈ netlinks (s.agents side.host).log

/-- The chain of every update goes through both ends. -/
def Scenario.Covers (sc : Scenario) : Prop := ∀ u, ∀ side : Side, side.host ∈ (sc.update u).hops

/-- No agent writes "ACK" before both ends have been told. -/
theorem NetInv.prepared {s : System sc} (hs : NetInv s) (hcov : sc.Covers) {a : Addr}
    (hack : "ACK" ∈ netlinks (s.agents a).log) : Prepared s := by
  obtain ⟨k, q, hmem⟩ := mem_netlinks.mp hack
  obtain ⟨-, u, -, hall⟩ := hs.acks a k q hmem
  intro side
  exact mem_netlinks.mpr ⟨_, _, (hall side.host (hcov u side)).2⟩

theorem Prepared.mono {s s' : System sc} (h : Prepared s)
    (hlog : ∀ a, (s.agents a).log <:+ (s'.agents a).log) : Prepared s' := by
  intro side
  rw [netlinks_emitted (hlog side.host)]
  exact List.mem_append_left _ (h side)

/-! ### The tables -/

/-- The table of an end: its outgoing record points to the new path only when
    both ends have been told, and there is a way back from the new path as soon
    as this end has been told. -/
def TableOk (s : System sc) (side : Side) (t : KernelTable) : Prop :=
  ∃ b n, Session t (side.out (path b)) (side.back oldBox) (side.back newBox) n ∧
    (b = true → Prepared s) ∧ ("SYN" ∈ netlinks (s.agents side.host).log → n ≠ 0)

/-- One message. -/
theorem Side.netlink_session {side : Side} {t : KernelTable} {b : Bool} {n : Nat}
    (h : Session t (side.out (path b)) (side.back oldBox) (side.back newBox) n) (msg : String) :
    ∃ b' n', Session (side.netlink t msg) (side.out (path b')) (side.back oldBox)
        (side.back newBox) n' ∧
      (b' = true → b = true ∨ msg = "ACK") ∧ (n ≠ 0 ∨ msg = "SYN" → n' ≠ 0) := by
  cases side with
  | client =>
    refine ⟨_, _, Client.session_step h msg, fun hb' => ?_, fun hn' => ?_⟩
    · split at hb'
      · exact Or.inr ‹_›
      split at hb'
      · cases hb'
      · exact Or.inl hb'
    · rcases hn' with hn | hsyn
      · omega
      · rw [if_pos hsyn]
        omega
  | server =>
    refine ⟨_, _, Server.session_step h msg, fun hb' => ?_, fun hn' => ?_⟩
    · split at hb'
      · exact Or.inr ‹_›
      · exact Or.inl hb'
    · rcases hn' with hn | hsyn
      · split
        · omega
        · exact hn
      · rw [if_pos hsyn]
        omega

/-- A sequence of messages. -/
theorem Side.netlinks_session {side : Side} {t : KernelTable} {b : Bool} {n : Nat}
    (h : Session t (side.out (path b)) (side.back oldBox) (side.back newBox) n)
    (msgs : List String) :
    ∃ b' n', Session (msgs.foldl side.netlink t) (side.out (path b')) (side.back oldBox)
        (side.back newBox) n' ∧
      (b' = true → b = true ∨ "ACK" ∈ msgs) ∧ (n ≠ 0 ∨ "SYN" ∈ msgs → n' ≠ 0) := by
  induction msgs generalizing t b n with
  | nil => exact ⟨b, n, h, Or.inl, fun hn => hn.elim id fun hmem => absurd hmem List.not_mem_nil⟩
  | cons msg msgs ih =>
    obtain ⟨b₁, n₁, h₁, hb₁, hn₁⟩ := Side.netlink_session h msg
    obtain ⟨b', n', h', hb', hn'⟩ := ih h₁
    refine ⟨b', n', h', fun hact => ?_, fun hsyn => ?_⟩
    · rcases hb' hact with hact₁ | hmem
      · rcases hb₁ hact₁ with hact₀ | rfl
        · exact Or.inl hact₀
        · exact Or.inr List.mem_cons_self
      · exact Or.inr (List.mem_cons_of_mem _ hmem)
    · rcases hsyn with hn | hmem
      · exact hn' (Or.inl (hn₁ (Or.inl hn)))
      · rcases List.mem_cons.mp hmem with rfl | hmem
        · exact hn' (Or.inl (hn₁ (Or.inr rfl)))
        · exact hn' (Or.inr hmem)

theorem TableOk.init (s : System sc) (hs : ∀ a, (s.agents a).log = []) (side : Side) :
    TableOk s side side.pktMangleInit := by
  have hsession : Session side.pktMangleInit (side.out (path false)) (side.back oldBox)
      (side.back newBox) 0 := by
    cases side with
    | client => exact Client.session_init
    | server => exact Server.session_init
  refine ⟨false, 0, hsession, fun h => (by cases h), fun hsyn => ?_⟩
  rw [hs] at hsyn
  cases hsyn

/-- What the agent of the host has written reaches the table. -/
theorem TableOk.control {s s' : System sc} {side : Side} {t : KernelTable}
    (h : TableOk s side t) (hcov : sc.Covers) (hs' : NetInv s')
    (hlog : ∀ a, (s.agents a).log <:+ (s'.agents a).log) :
    TableOk s' side ((emitted s s' side.host).foldl side.netlink t) := by
  obtain ⟨b, n, hsession, hb, hn⟩ := h
  obtain ⟨b', n', hsession', hb', hn'⟩ :=
    Side.netlinks_session hsession (emitted s s' side.host)
  have hmsgs := netlinks_emitted (hlog side.host)
  refine ⟨b', n', hsession', fun hact => ?_, fun hsyn => hn' ?_⟩
  · rcases hb' hact with hact | hack
    · exact (hb hact).mono hlog
    · refine hs'.prepared hcov (a := side.host) ?_
      rw [hmsgs]
      exact List.mem_append_right _ hack
  · rw [hmsgs, List.mem_append] at hsyn
    exact hsyn.imp hn id

/-- An operator's message. -/
theorem TableOk.operator {s : System sc} {side : Side} {t : KernelTable} (h : TableOk s side t)
    {msg : String} (hmsg : msg ≠ "ACK") : TableOk s side (side.netlink t msg) := by
  obtain ⟨b, n, hsession, hb, hn⟩ := h
  obtain ⟨b', n', hsession', hb', hn'⟩ := Side.netlink_session hsession msg
  exact ⟨b', n', hsession', fun hact => hb ((hb' hact).resolve_right hmsg),
    fun hsyn => hn' (Or.inl (hn hsyn))⟩

/-! ### The way of a packet -/

/-- The two packets differ in their checksums at most. -/
def SameButChecks (skb skb' : SkBuff) : Prop :=
  ∃ ipCheck tcpCheck, skb' = { skb with
    iph := { skb.iph with check := ipCheck }, tcph := { skb.tcph with check := tcpCheck } }

namespace Middlebox

variable {src : Addr}

theorem mem_bag_tableFrom {r : Record} : r ∈ bag (tableFrom src) ↔
    r = { toServer with src := src } ∨ r = { toClient with src := src } := by
  rw [tableFrom, bag_hashAdd, bag_hashAdd, Multiset.mem_cons, Multiset.mem_cons]
  simp [or_comm]

theorem find_tableFrom (k : RecordKey) : hashFind (tableFrom src) k =
    if k = toServer.key then some { toServer with src := src }
    else if k = toClient.key then some { toClient with src := src } else none := by
  have hne : toServer.key ≠ toClient.key := by decide
  split
  · rename_i hk
    refine hashFind_of_forall_eq (mem_bag_tableFrom.mpr (Or.inl rfl)) hk.symm fun r hr hrk => ?_
    rcases mem_bag_tableFrom.mp hr with rfl | rfl
    · rfl
    · exact absurd (hk.symm.trans hrk.symm) hne
  rename_i hs
  split
  · rename_i hk
    refine hashFind_of_forall_eq (mem_bag_tableFrom.mpr (Or.inr rfl)) hk.symm fun r hr hrk => ?_
    rcases mem_bag_tableFrom.mp hr with rfl | rfl
    · exact absurd hrk.symm hs
    · rfl
  · rename_i hc
    refine hashFind_eq_none.mpr fun r hr => ?_
    rcases mem_bag_tableFrom.mp hr with rfl | rfl
    · exact Ne.symm hs
    · exact Ne.symm hc

/-- Where both hooks find the record `r`, the packet leaves with its addresses. -/
theorem through_hooksFrom (cs : Csum) {skb : SkBuff} (htcp : skb.IsTcp) {r : Record}
    (hpre : preroutingRecord (tableFrom src) skb = some r)
    (hpost : postroutingRecord (tableFrom src) skb = some r) :
    through (hooksFrom cs src) skb =
      some ((skb.rewriteDaddr cs r.dst).rewriteSaddr cs r.src) := by
  have hin : incomingChangeBegin cs true (tableFrom src) skb = _ :=
    incomingChangeBegin_record htcp
  have hout : outgoingChangeBegin cs (tableFrom src) (skb.rewriteDaddr cs r.dst) = _ :=
    outgoingChangeBegin_record (htcp.rewriteDaddr cs r.dst)
  have hfwd : postroutingRecord (tableFrom src) (skb.rewriteDaddr cs r.dst) = some r := hpost
  rw [hpre] at hin
  rw [hfwd] at hout
  rw [hooksFrom, through_cons, hin, Option.map_some, Option.getD_some, passed_stolen,
    Option.bind_some, through_cons, hout]
  rfl

end Middlebox

section Way

variable (cs : Csum) {side : Side} {sent : SkBuff}

theorem Side.outgoing_eq {t : KernelTable} {b : Bool} {n : Nat}
    (h : Session t (side.out (path b)) (side.back oldBox) (side.back newBox) n)
    (hsent : side.Sends sent) :
    side.outgoingBegin cs t sent = (.accept, sent.rewriteDaddr cs (path b)) := by
  cases side with
  | client => exact Client.outgoingBegin_session cs h hsent.tcp hsent.daddr hsent.port
  | server => exact Server.outgoingBegin_session cs h hsent.tcp hsent.daddr hsent.port

/-- What a packet is behind the middlebox `box` that writes `src`. -/
def Side.behind (side : Side) (sent : SkBuff) (box src : Addr) : SkBuff :=
  ((sent.rewriteDaddr cs box).rewriteDaddr cs side.peer).rewriteSaddr cs src

/-- The middlebox sends a packet of the session on to the other end. -/
theorem Side.through_box (hsent : side.Sends sent) (box src : Addr) :
    through (Middlebox.hooksFrom cs src) (sent.rewriteDaddr cs box) =
      some (side.behind cs sent box src) := by
  have htcp := hsent.tcp.rewriteDaddr cs box
  cases side with
  | client =>
    have hsport : Middlebox.sportKey (sent.rewriteDaddr cs box) ≠ Middlebox.toServer.key ∧
        Middlebox.sportKey (sent.rewriteDaddr cs box) ≠ Middlebox.toClient.key := by
      constructor
      · intro hk
        exact absurd (congrArg RecordKey.dport hk) (by decide : (0 : BitVec 16) ≠ 5001)
      · intro hk
        have hsrc : clientAddr = serverAddr := hsent.saddr.symm.trans (congrArg RecordKey.src hk)
        exact absurd hsrc (by decide)
    have hdport : Middlebox.dportKey (sent.rewriteDaddr cs box) = Middlebox.toServer.key := by
      have hsrc : sent.iph.saddr = clientAddr := hsent.saddr
      have hport : ntohs sent.tcph.dest = 5001 := hsent.port
      rw [Middlebox.dportKey, SkBuff.saddr_rewriteDaddr, SkBuff.dest_rewriteDaddr, hsrc, hport]
      rfl
    have hpre : Middlebox.preroutingRecord (Middlebox.tableFrom src) (sent.rewriteDaddr cs box) =
        some { Middlebox.toServer with src := src } := by
      rw [Middlebox.preroutingRecord, Middlebox.find_tableFrom, if_neg hsport.1, if_neg hsport.2,
        Middlebox.find_tableFrom, if_pos hdport]
      rfl
    have hpost : Middlebox.postroutingRecord (Middlebox.tableFrom src)
        (sent.rewriteDaddr cs box) = some { Middlebox.toServer with src := src } := by
      rw [Middlebox.postroutingRecord, Middlebox.find_tableFrom, if_pos hdport]
      rfl
    exact Middlebox.through_hooksFrom cs htcp hpre hpost
  | server =>
    have hsport : Middlebox.sportKey (sent.rewriteDaddr cs box) = Middlebox.toClient.key := by
      have hsrc : sent.iph.saddr = serverAddr := hsent.saddr
      have hport : ntohs sent.tcph.source = 5001 := hsent.port
      rw [Middlebox.sportKey, SkBuff.saddr_rewriteDaddr, SkBuff.source_rewriteDaddr, hsrc, hport]
      rfl
    have hdport : Middlebox.dportKey (sent.rewriteDaddr cs box) ≠ Middlebox.toServer.key ∧
        Middlebox.dportKey (sent.rewriteDaddr cs box) ≠ Middlebox.toClient.key := by
      constructor
      · intro hk
        have hsrc : serverAddr = clientAddr := hsent.saddr.symm.trans (congrArg RecordKey.src hk)
        exact absurd hsrc (by decide)
      · intro hk
        exact absurd (congrArg RecordKey.sport hk) (by decide : (0 : BitVec 16) ≠ 5001)
    have hne : Middlebox.toClient.key ≠ Middlebox.toServer.key := by decide
    have hpre : Middlebox.preroutingRecord (Middlebox.tableFrom src) (sent.rewriteDaddr cs box) =
        some { Middlebox.toClient with src := src } := by
      rw [Middlebox.preroutingRecord, Middlebox.find_tableFrom, hsport, if_neg hne, if_pos rfl]
      rfl
    have hpost : Middlebox.postroutingRecord (Middlebox.tableFrom src)
        (sent.rewriteDaddr cs box) = some { Middlebox.toClient with src := src } := by
      rw [Middlebox.postroutingRecord, Middlebox.find_tableFrom, if_neg hdport.1, if_neg hdport.2,
        Middlebox.find_tableFrom, hsport, if_neg hne, if_pos rfl]
      rfl
    exact Middlebox.through_hooksFrom cs htcp hpre hpost

/-- The other end translates what comes from a box that it has a record for. -/
theorem Side.incoming_behind {t : KernelTable} {box src : Addr} (hsent : side.Sends sent)
    (hfind : hashFind t (side.other.back src).key = some (side.other.back src)) :
    side.other.incomingBegin t (side.behind cs sent box src) =
      (.accept, (side.behind cs sent box src).setSaddr side.host) := by
  have htcp : (side.behind cs sent box src).IsTcp :=
    ((hsent.tcp.rewriteDaddr cs box).rewriteDaddr cs side.peer).rewriteSaddr cs src
  have hport : side.other.inPort (side.behind cs sent box src) = 5001 := by
    cases side with
    | client => exact hsent.port
    | server => exact hsent.port
  have hpeer : side.other.peer = side.host := by cases side <;> rfl
  rw [← hpeer]
  exact Side.incoming_setSaddr hfind htcp rfl hport

theorem Side.sameButChecks (hsent : side.Sends sent) (box src : Addr) :
    SameButChecks sent ((side.behind cs sent box src).setSaddr side.host) := by
  have hs := hsent.saddr
  have hd := hsent.daddr
  obtain ⟨iph, tcph, data⟩ := sent
  obtain ⟨_, _, _, _, _, _, _, _, _, saddr, daddr, _⟩ := iph
  dsimp only at hs hd
  subst hs hd
  exact ⟨_, _, rfl⟩

end Way

end MiddleboxSession
