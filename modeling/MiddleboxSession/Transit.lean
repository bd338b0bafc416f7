/-
  MiddleboxSession/Transit.lean
  =============================
  **Packets across a migration, end to end.**

  An end sends to the new path only after both ends have a record for the way
  back from it (`activated_both_ready`): the agent that activates the new path
  has waited for an ACK, the ACK for the SYN-ACKs of the whole chain, and these
  for the SYN of every hop, which each hop tells its kernel at once.

  So whatever is in flight when the tables change still arrives: on every
  interleaving of the handshake, of operators' messages and of the packets'
  own ways the other end receives what was sent, up to the checksums
  (`session_loss_free`).
-/
import MiddleboxSession.Deployment
import MiddleboxSession.SessionTables

namespace MiddleboxSession

open CBuffer UTHash Runs

variable {sc : Scenario}

/-! ### The invariant -/

/-- A packet on its way: the box that it goes through was chosen by the sender's
    table, the new one only after both ends had been told. -/
def InFlight.Ok (cs : Csum) (boxes : Boxes) (s : System sc) (p : InFlight) : Prop :=
  p.side.Sends p.sent ∧ ∃ b, (b = true → Prepared s) ∧
    p.skb = match p.leg with
      | .toBox => p.sent.rewriteDaddr cs (path b)
      | .toPeer => p.side.behind cs p.sent (path b) (boxes.src b)

def Delivery.Ok (e : Delivery) : Prop := e.side.Sends e.sent ∧ SameButChecks e.sent e.got

theorem InFlight.Ok.mono {cs : Csum} {boxes : Boxes} {s s' : System sc} {p : InFlight}
    (h : p.Ok cs boxes s) (hlog : ∀ a, (s.agents a).log <:+ (s'.agents a).log) : p.Ok cs boxes s' := by
  obtain ⟨hsent, b, hb, hskb⟩ := h
  exact ⟨hsent, b, fun hact => (hb hact).mono hlog, hskb⟩

theorem TableOk.find_back {s : System sc} {side : Side} {t : KernelTable} (h : TableOk s side t)
    (boxes : Boxes) {b : Bool} (hb : b = true → Prepared s) :
    hashFind t (side.back (boxes.src b)).key = some (side.back (boxes.src b)) := by
  obtain ⟨_, n, hsession, -, hn⟩ := h
  rcases boxes.own b with hpath | hold
  · cases b with
    | false =>
      rw [hpath]
      exact hsession.find_back
    | true =>
      rw [hpath]
      exact hsession.find_back' (hn (hb rfl side))
  · rw [hold]
    exact hsession.find_back

namespace Deployment

structure Inv (cs : Csum) (boxes : Boxes) (d : Deployment sc) : Prop where
  net : NetInv d.sys
  table : ∀ side, TableOk d.sys side (d.table side)
  flight : ∀ p ∈ d.flight, p.Ok cs boxes d.sys
  delivered : ∀ e ∈ d.delivered, e.Ok

variable {cs : Csum} {boxes : Boxes} {d d' : Deployment sc}

theorem Inv.init (h : d.Fresh) : Inv cs boxes d where
  net := NetInv.init h.sys
  table := by
    intro side
    rw [h.table]
    exact TableOk.init d.sys (fun a => (h.sys.agents a).log) side
  flight := by
    intro p hp
    rw [h.flight] at hp
    cases hp
  delivered := by
    intro e he
    rw [h.delivered] at he
    cases he

/-- The handshake goes on. -/
theorem Inv.control (h : Inv cs boxes d) (hcov : sc.Covers) {act : SysAct sc.n} {sys : System sc}
    (hstep : d.sys.step act = some sys) : Inv cs boxes { d with
      sys := sys
      table := fun side => (emitted d.sys sys side.host).foldl side.netlink (d.table side) } := by
  have hsound := System.step_sound hstep
  have hnet : NetInv sys := h.net.step hsound
  refine ⟨hnet, fun side => ?_, fun p hp => ?_, h.delivered⟩
  · exact (h.table side).control hcov hnet hsound.log_suffix
  · exact (h.flight p hp).mono hsound.log_suffix

theorem Inv.operator (h : Inv cs boxes d) (side : Side) {msg : String} (hmsg : msg ≠ "ACK") :
    Inv cs boxes { d with
      table := Function.update d.table side (side.netlink (d.table side) msg) } := by
  refine ⟨h.net, fun side' => ?_, h.flight, h.delivered⟩
  dsimp only
  by_cases hside : side' = side
  · subst hside
    rw [Function.update_self]
    exact (h.table side').operator hmsg
  · rw [Function.update_of_ne hside]
    exact h.table side'

theorem Inv.put (h : Inv cs boxes d) {p : InFlight} (hp : p.Ok cs boxes d.sys) :
    Inv cs boxes (d.put p) := by
  refine ⟨h.net, h.table, fun q hq => ?_, h.delivered⟩
  rcases List.mem_cons.mp hq with rfl | hq
  · exact hp
  · exact h.flight q hq

theorem Inv.take (h : Inv cs boxes d) (p : InFlight) : Inv cs boxes (d.take p) :=
  ⟨h.net, h.table, fun q hq => h.flight q (List.mem_of_mem_erase hq), h.delivered⟩

/-! ### The three stations of a packet -/

theorem Inv.send_eq (h : Inv cs boxes d) {side : Side} {skb : SkBuff} (hsend : side.Sends skb) :
    ∃ b, (b = true → Prepared d.sys) ∧
      side.outgoingBegin cs (d.table side) skb = (.accept, skb.rewriteDaddr cs (path b)) := by
  obtain ⟨b, n, hsession, hb, -⟩ := h.table side
  exact ⟨b, hb, Side.outgoing_eq cs hsession hsend⟩

/-- A packet in front of a box: which box it is, and what the box makes of it. -/
theorem Inv.forward_eq (h : Inv cs boxes d) {p : InFlight} (hp : p ∈ d.flight)
    (hleg : p.leg = .toBox) : ∃ b, p.skb.iph.daddr = path b ∧
      through (Middlebox.hooksFrom cs (boxes.src b)) p.skb =
        some (p.side.behind cs p.sent (path b) (boxes.src b)) ∧
      InFlight.Ok cs boxes d.sys
        { p with leg := .toPeer, skb := p.side.behind cs p.sent (path b) (boxes.src b) } := by
  obtain ⟨hsend, b, hb, hskb⟩ := h.flight p hp
  rw [hleg] at hskb
  refine ⟨b, by rw [hskb]; rfl, ?_, hsend, b, hb, rfl⟩
  rw [hskb]
  exact Side.through_box cs hsend (path b) (boxes.src b)

/-- A packet in front of the other end: the table there translates it. -/
theorem Inv.receive_eq (h : Inv cs boxes d) {p : InFlight}
    (hp : p ∈ d.flight) (hleg : p.leg = .toPeer) : p.skb.iph.daddr = p.side.other.host ∧
      p.side.other.incomingBegin (d.table p.side.other) p.skb =
        (.accept, p.skb.setSaddr p.side.host) ∧
      Delivery.Ok ⟨p.side, p.sent, p.skb.setSaddr p.side.host⟩ := by
  obtain ⟨hsend, b, hb, hskb⟩ := h.flight p hp
  rw [hleg] at hskb
  have hpeer : p.side.peer = p.side.other.host := by cases p.side <;> rfl
  have hfind := (h.table p.side.other).find_back boxes hb
  rw [hskb]
  exact ⟨hpeer, Side.incoming_behind cs hsend hfind, hsend, Side.sameButChecks cs hsend _ _⟩

theorem Inv.step (h : Inv cs boxes d) (hcov : sc.Covers)
    {act : DeployAct sc.n} (hstep : d.step cs boxes act = some d') : Inv cs boxes d' := by
  cases act with
  | control act =>
    obtain ⟨sys, hsys, rfl⟩ := Option.map_eq_some_iff.mp hstep
    exact h.control hcov hsys
  | operator side msg =>
    simp only [Deployment.step] at hstep
    split at hstep <;> cases hstep
    exact h.operator side ‹_›
  | send side skb =>
    simp only [Deployment.step] at hstep
    split at hstep
    · rename_i hsend
      obtain ⟨b, hb, hout⟩ := h.send_eq hsend
      rw [hout, passed_accept, Option.map_some, Option.some_inj] at hstep
      subst hstep
      exact h.put ⟨hsend, b, hb, rfl⟩
    · cases hstep
  | forward b p =>
    simp only [Deployment.step] at hstep
    split at hstep
    · rename_i hp
      obtain ⟨hmem, hleg, hdaddr⟩ := hp
      obtain ⟨b', hdaddr', hthrough, hok⟩ := h.forward_eq hmem hleg
      obtain rfl : b = b' := path_injective (hdaddr.symm.trans hdaddr')
      rw [hthrough, Option.map_some, Option.some_inj] at hstep
      subst hstep
      exact (h.take p).put hok
    · cases hstep
  | receive p =>
    simp only [Deployment.step] at hstep
    split at hstep
    · rename_i hp
      obtain ⟨hmem, hleg, -⟩ := hp
      obtain ⟨-, hin, hok⟩ := h.receive_eq hmem hleg
      rw [hin, passed_accept, Option.map_some, Option.some_inj] at hstep
      subst hstep
      have htake := h.take p
      refine ⟨htake.net, htake.table, htake.flight, fun e he => ?_⟩
      rcases List.mem_cons.mp he with rfl | he
      · exact hok
      · exact h.delivered e he
    · cases hstep
  | lose p =>
    simp only [Deployment.step] at hstep
    split at hstep <;> cases hstep
    exact h.take p
  | duplicate p =>
    simp only [Deployment.step] at hstep
    split at hstep
    · rename_i hp
      cases hstep
      exact h.put (h.flight p hp)
    · cases hstep

theorem Inv.reachable {d₀ : Deployment sc} (h₀ : d₀.Fresh) (hcov : sc.Covers)
    (h : Reachable (Deployment.step cs boxes) d₀ d) : Inv cs boxes d :=
  h.invariant (Inv.init h₀) fun _ _ _ _ hI hstep => hI.step hcov hstep

theorem Inv.forwardable (h : Inv cs boxes d) {p : InFlight} (hp : p ∈ d.flight)
    (hleg : p.leg = .toBox) : ∃ b skb,
      d.step cs boxes (.forward b p) = some ((d.take p).put { p with leg := .toPeer, skb := skb }) ∧
        Inv cs boxes ((d.take p).put { p with leg := .toPeer, skb := skb }) := by
  obtain ⟨b, hdaddr, hthrough, hok⟩ := h.forward_eq hp hleg
  refine ⟨b, _, ?_, (h.take p).put hok⟩
  rw [Deployment.step, if_pos ⟨hp, hleg, hdaddr⟩, hthrough, Option.map_some]

theorem Inv.receivable (h : Inv cs boxes d) {p : InFlight} (hp : p ∈ d.flight)
    (hleg : p.leg = .toPeer) : ∃ got,
      d.step cs boxes (.receive p) = some (d.deliver p got) := by
  obtain ⟨hdaddr, hin, -⟩ := h.receive_eq hp hleg
  refine ⟨p.skb.setSaddr p.side.host, ?_⟩
  rw [Deployment.step, if_pos ⟨hp, hleg, hdaddr⟩, hin, passed_accept, Option.map_some]

/-- Two steps at most bring a packet to the other end. -/
theorem Inv.arrives (h : Inv cs boxes d) {p : InFlight} (hp : p ∈ d.flight) :
    ∃ acts d' got, acts.length ≤ 2 ∧ run (Deployment.step cs boxes) d acts = some d' ∧
      d'.delivered = ⟨p.side, p.sent, got⟩ :: d.delivered := by
  cases hleg : p.leg with
  | toPeer =>
    obtain ⟨got, hreceive⟩ := h.receivable hp hleg
    exact ⟨[.receive p], d.deliver p got, got, Nat.le_succ 1,
      run_cons_eq_some.mpr ⟨_, hreceive, rfl⟩, rfl⟩
  | toBox =>
    obtain ⟨b, skb, hforward, hI⟩ := h.forwardable hp hleg
    obtain ⟨got, hreceive⟩ := hI.receivable List.mem_cons_self rfl
    exact ⟨[.forward b p, .receive _], _, got, le_refl 2,
      run_cons_eq_some.mpr ⟨_, hforward, run_cons_eq_some.mpr ⟨_, hreceive, rfl⟩⟩, rfl⟩

end Deployment

/-! ### Migration, end to end -/

section EndToEnd

variable (cs : Csum) (boxes : Boxes) {d₀ d : Deployment sc}

/-- **No end turns to the new path before both ends can be reached from it.**
    Whatever the network does to the datagrams of the handshake and whatever
    operators send besides: the outgoing record of an end points to one of the
    two boxes, and if it is the new one, both ends hold the record for the way
    back from it. -/
theorem activated_both_ready (hcov : sc.Covers) (h₀ : d₀.Fresh)
    (h : Reachable (Deployment.step cs boxes) d₀ d) (side : Side) :
    ∃ b, hashFind (d.table side) (side.out 0).key = some (side.out (path b)) ∧
      (b = true → ∀ side' : Side,
        hashFind (d.table side') (side'.back newBox).key = some (side'.back newBox)) := by
  have hI := Deployment.Inv.reachable h₀ hcov h
  obtain ⟨b, n, hsession, hb, -⟩ := hI.table side
  have hkey : (side.out 0).key = (side.out (path b)).key := by cases side <;> rfl
  refine ⟨b, hkey ▸ hsession.find_out, fun hact side' => ?_⟩
  exact (hI.table side').find_back Boxes.each (b := true) fun _ => hb hact

/-- **No packet of the session is lost to the migration.**  In every state that
    the deployment can reach, an application can send; what is on its way, from
    whatever earlier state, can be brought to the other end in at most two steps;
    and all that has arrived there is what was sent, up to the checksums. -/
theorem session_loss_free (hcov : sc.Covers) (h₀ : d₀.Fresh)
    (h : Reachable (Deployment.step cs boxes) d₀ d) :
    (∀ side skb, Side.Sends side skb → ∃ skb',
      d.step cs boxes (.send side skb) = some (d.put ⟨side, skb, .toBox, skb'⟩)) ∧
    (∀ p ∈ d.flight, ∃ acts d' got, acts.length ≤ 2 ∧
      run (Deployment.step cs boxes) d acts = some d' ∧
        d'.delivered = ⟨p.side, p.sent, got⟩ :: d.delivered) ∧
    ∀ e ∈ d.delivered, e.side.Sends e.sent ∧ SameButChecks e.sent e.got := by
  have hI := Deployment.Inv.reachable h₀ hcov h
  refine ⟨fun side skb hsend => ?_, fun p hp => hI.arrives hp, hI.delivered⟩
  obtain ⟨b, -, hout⟩ := hI.send_eq hsend
  refine ⟨skb.rewriteDaddr cs (path b), ?_⟩
  rw [Deployment.step, if_pos hsend, hout, passed_accept, Option.map_some]

end EndToEnd

/-! ### A migration -/

/-- The update of updateNotify.c: the server, the new box, the client. -/
def migrationUpdate : Update where
  key := ackKey
  seq := 100
  hops := [serverAddr, newBox, clientAddr]
  positive := positive_100
  nonempty := by decide
  nodup := by decide

theorem migration_own (i j : Fin 1) (_ : migrationUpdate.key = migrationUpdate.key)
    (_ : migrationUpdate.seq = migrationUpdate.seq) : i = j := Subsingleton.elim i j

theorem migration_sock_inj (i j : Fin 1) (_ : chainSock = chainSock) : i = j :=
  Subsingleton.elim i j

theorem migration_sock_port (_ : Fin 1) : chainSock.port ≠ UDP_PORT := by decide

def migrationScenario : Scenario where
  n := 1
  update := fun _ => migrationUpdate
  sock := fun _ => chainSock
  own := migration_own
  sock_inj := migration_sock_inj
  sock_port := migration_sock_port

theorem migrationScenario_covers : migrationScenario.Covers := by
  intro u side
  have hall : ∀ side : Side, side.host ∈ [serverAddr, newBox, clientAddr] := by
    intro side
    cases side <;> decide
  exact hall side

/-- The handshake, up to the "ACK" of the server's agent. -/
def migrationHandshake : List (SysAct migrationScenario.n) := List.flatten
  [[.notify ⟨0, by decide⟩,
      .mainRecv serverAddr (synPacket ackKey chainSock serverAddr [serverAddr, newBox, clientAddr]) 0,
      .workerStart serverAddr 0 chainPort,
      .mainRecv newBox (synPacket ackKey ⟨serverAddr, chainPort⟩ newBox [newBox, clientAddr]) 0,
      .workerStart newBox 0 chainPort,
      .mainRecv clientAddr (synPacket ackKey ⟨newBox, chainPort⟩ clientAddr [clientAddr]) 0,
      .workerStart clientAddr 0 chainPort],
    List.replicate 4 (.workerStep clientAddr 0),
    [.workerRecv newBox 0 (synAckPacket ackKey clientAddr ⟨newBox, chainPort⟩) 0],
    List.replicate 3 (.workerStep newBox 0),
    [.workerRecv serverAddr 0 (synAckPacket ackKey newBox ⟨serverAddr, chainPort⟩) 0],
    List.replicate 3 (.workerStep serverAddr 0),
    [.notifyRecv ⟨0, by decide⟩ (synAckPacket ackKey serverAddr chainSock) 0,
      .mainRecv serverAddr (ackPacket chainSock serverAddr) 0],
    List.replicate 4 (.mainStep serverAddr)]

/-- A request that leaves on the old path before the migration arrives after it,
    and the reply takes the new path. -/
def migrationRun : List (DeployAct migrationScenario.n) :=
  let cs := Csum.standard
  [.send .client request] ++ migrationHandshake.map .control ++
    [.forward false ⟨.client, request, .toBox, request.rewriteDaddr cs oldBox⟩,
      .receive ⟨.client, request, .toPeer, Side.client.behind cs request oldBox oldBox⟩,
      .send .server reply,
      .forward true ⟨.server, reply, .toBox, reply.rewriteDaddr cs newBox⟩,
      .receive ⟨.server, reply, .toPeer, Side.server.behind cs reply newBox newBox⟩]

theorem migrationRun_some : ∃ d, run (Deployment.step Csum.standard Boxes.each)
    (Deployment.init migrationScenario) migrationRun = some d ∧
      (hashFind (d.table .server) (Side.server.out 0).key).map Record.dst = some newBox ∧
        d.delivered.map Delivery.sent = [reply, request] := by
  have hrun : ((run (Deployment.step Csum.standard Boxes.each)
      (Deployment.init migrationScenario) migrationRun).any fun d =>
        (hashFind (d.table .server) (Side.server.out 0).key).map Record.dst = some newBox ∧
          d.delivered.map Delivery.sent = [reply, request]) = true := by
    decide +kernel
  obtain ⟨d, hd, hmem⟩ := (Option.any_eq_true _ _).mp hrun
  exact ⟨d, hd, of_decide_eq_true hmem⟩

theorem activated_both_ready_migration : ∃ d, run (Deployment.step Csum.standard Boxes.each)
    (Deployment.init migrationScenario) migrationRun = some d ∧
      ∀ side : Side, hashFind (d.table side) (side.back newBox).key = some (side.back newBox) := by
  obtain ⟨d, hd, hdst, -⟩ := migrationRun_some
  obtain ⟨b, hfind, hready⟩ := activated_both_ready Csum.standard Boxes.each
    migrationScenario_covers Deployment.fresh_init ⟨migrationRun, hd⟩ .server
  rw [hfind, Option.map_some, Option.some_inj] at hdst
  have hb : b = true := path_injective hdst
  exact ⟨d, hd, hready hb⟩

theorem session_loss_free_migration : ∃ d, run (Deployment.step Csum.standard Boxes.each)
    (Deployment.init migrationScenario) migrationRun = some d ∧
      d.delivered.map Delivery.sent = [reply, request] ∧
        ∀ e ∈ d.delivered, SameButChecks e.sent e.got := by
  obtain ⟨d, hd, -, hsent⟩ := migrationRun_some
  have h := session_loss_free Csum.standard Boxes.each migrationScenario_covers
    Deployment.fresh_init ⟨migrationRun, hd⟩
  exact ⟨d, hd, hsent, fun e he => (h.2.2 e he).2⟩

end MiddleboxSession
