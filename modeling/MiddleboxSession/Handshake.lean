/-
  MiddleboxSession/Handshake.lean
  ===============================
  **Two-phase safety of the migration handshake.**

  The invariant `NetInv` relates every datagram ever sent to the histories of
  the agents:

    * a SYN for hop m comes from the socket that serves hop m, after all hops
      before m accepted the update;
    * a SYN-ACK goes to a socket that serves some hop of its update, after
      *all* hops accepted it, although no relay looks at the action field;
    * an ACK goes out only after all hops accepted the update whose number it
      carries, whatever the flag `update_ack` says.

  Everything it says about the past is kept by every step (`Extends`), so a
  step has to account only for what it adds.
-/
import MiddleboxSession.Network

namespace MiddleboxSession

open CBuffer Runs

variable {sc : Scenario}

/-! ### Ports -/

structure PortsOK (sc : Scenario) (b : Addr) (a : Agent) : Prop where
  start : ∀ w ∈ a.workers, w.pc = .start → w.port = none
  own : ∀ w ∈ a.workers, ∀ port, w.port = some port →
    port ≠ UDP_PORT ∧ ∀ u, sc.sock u ≠ ⟨b, port⟩
  unique : ∀ v ∈ a.workers, ∀ w ∈ a.workers, ∀ port, v.port = some port → w.port = some port →
    v.update = w.update

section AgentSteps

variable {self : Addr} {a a' : Agent} {act : Act} {ps : List Packet}

theorem Agent.Step.log_subset (h : Agent.Step self a act a' ps) : a.log ⊆ a'.log := by
  intro e he
  cases h with
  | syn | worker => exact List.mem_append_right _ he
  | setAck | netlinkAck => exact List.mem_cons_of_mem _ he
  | ack | nullDeref | skip | exit | lockAck | unlockAck | undefined => exact he

theorem WorkerMove.port {i : Nat} {w : Worker} {e : Effect} (h : WorkerMove self a i w act e) :
    e.worker.port = w.port ∨
      w.pc = .start ∧ ∃ port, act = .workerStart i port ∧ e.worker.port = some port ∧
        a.freshPort port = true := by
  cases h with
  | forward port next mesg hpc hh hport => exact Or.inr ⟨hpc, port, rfl, rfl, hport⟩
  | _ => exact Or.inl rfl

theorem Agent.mem_workers_apply {i : Nat} {w v : Worker} {e : Effect}
    (hw : a.workers[i]? = some w) (hv : v ∈ a.workers) :
    v = w ∨ v ∈ (a.apply i e).workers := by
  obtain ⟨j, hj, rfl⟩ := List.mem_iff_getElem.mp hv
  obtain ⟨hi, hget⟩ := List.getElem?_eq_some_iff.mp hw
  by_cases hij : i = j
  · subst hij
    exact Or.inl hget
  · right
    rw [Agent.apply, ← List.getElem_set_ne hij (a := e.worker) (by simpa using hj)]
    exact List.getElem_mem _

theorem Agent.worker_mem_apply {i : Nat} {w : Worker} {e : Effect}
    (hw : a.workers[i]? = some w) : e.worker ∈ (a.apply i e).workers := by
  obtain ⟨hi, -⟩ := List.getElem?_eq_some_iff.mp hw
  exact List.mem_set hi _

theorem Agent.Step.served (h : Agent.Step self a act a' ps) (hports : PortsOK sc self a)
    {w : Worker} {port : BitVec 16} (hw : w ∈ a.workers) (hport : w.port = some port) :
    ∃ w' ∈ a'.workers, w'.port = some port ∧ w'.update = w.update := by
  cases h with
  | syn => exact ⟨w, List.mem_append_left _ hw, hport, rfl⟩
  | worker i v _ e hv hm =>
    rcases Agent.mem_workers_apply (e := e) hv hw with rfl | hmem
    · refine ⟨e.worker, Agent.worker_mem_apply hv, ?_, hm.update⟩
      rcases hm.port with heq | ⟨hpc, -⟩
      · rw [heq, hport]
      · rw [hports.start w hw hpc] at hport
        cases hport
    · exact ⟨w, hmem, hport, rfl⟩
  | _ => exact ⟨w, hw, hport, rfl⟩

/-- No socket is opened: every worker stands for an old one. -/
theorem PortsOK.keep (hports : PortsOK sc self a)
    (hstart : ∀ w ∈ a'.workers, w.pc = .start → w.port = none)
    (hold : ∀ w ∈ a'.workers, w.port = none ∨
      ∃ w₀ ∈ a.workers, w₀.port = w.port ∧ w₀.update = w.update) : PortsOK sc self a' := by
  have hopen : ∀ w ∈ a'.workers, ∀ port, w.port = some port →
      ∃ w₀ ∈ a.workers, w₀.port = some port ∧ w₀.update = w.update := by
    intro w hw port hport
    rcases hold w hw with hnone | ⟨w₀, hw₀, hp, hu⟩
    · rw [hnone] at hport
      cases hport
    · exact ⟨w₀, hw₀, hp.trans hport, hu⟩
  constructor
  · exact hstart
  · intro w hw port hport
    obtain ⟨w₀, hw₀, hp, -⟩ := hopen w hw port hport
    exact hports.own w₀ hw₀ port hp
  · intro v hv w hw port hpv hpw
    obtain ⟨v₀, hv₀, hpv₀, huv⟩ := hopen v hv port hpv
    obtain ⟨w₀, hw₀, hpw₀, huw⟩ := hopen w hw port hpw
    rw [← huv, ← huw]
    exact hports.unique v₀ hv₀ w₀ hw₀ port hpv₀ hpw₀

/-- Worker `i` opens a socket of its own. -/
theorem PortsOK.open (hports : PortsOK sc self a) {i : Nat} {e : Effect} {port : BitVec 16}
    (hpc : e.worker.pc ≠ .start) (hport : e.worker.port = some port)
    (hfresh : a.freshPort port = true) (hfree : ∀ u, sc.sock u ≠ ⟨self, port⟩) :
    PortsOK sc self (a.apply i e) := by
  simp only [Agent.freshPort, decide_eq_true_eq] at hfresh
  have hne : ∀ w ∈ a.workers, ∀ port', w.port = some port' → e.worker.port = some port' → False := by
    intro w hw port' hp hp'
    have heq : port = port' := Option.some.inj (hport.symm.trans hp')
    exact hfresh.2 w hw (heq ▸ hp)
  constructor
  · intro w hw hpc'
    rcases List.mem_or_eq_of_mem_set hw with hw | rfl
    · exact hports.start w hw hpc'
    · exact absurd hpc' hpc
  · intro w hw port' hport'
    rcases List.mem_or_eq_of_mem_set hw with hw | rfl
    · exact hports.own w hw port' hport'
    · have heq : port = port' := Option.some.inj (hport.symm.trans hport')
      subst heq
      exact ⟨hfresh.1, hfree⟩
  · intro v hv w hw port' hpv hpw
    rcases List.mem_or_eq_of_mem_set hv with hv | rfl <;>
      rcases List.mem_or_eq_of_mem_set hw with hw | rfl
    · exact hports.unique v hv w hw port' hpv hpw
    · exact (hne v hv port' hpv hpw).elim
    · exact (hne w hw port' hpw hpv).elim
    · rfl

theorem PortsOK.step (hports : PortsOK sc self a) (h : Agent.Step self a act a' ps)
    (hfree : ∀ i port, act = .workerStart i port → ∀ u, sc.sock u ≠ ⟨self, port⟩) :
    PortsOK sc self a' := by
  cases h with
  | syn d hmain hd =>
    apply hports.keep
    · intro w hw hpc
      rcases List.mem_append.mp hw with hw | hw
      · exact hports.start w hw hpc
      · rw [List.mem_singleton.mp hw]
    · intro w hw
      rcases List.mem_append.mp hw with hw | hw
      · exact Or.inr ⟨w, hw, rfl, rfl⟩
      · exact Or.inl (by rw [List.mem_singleton.mp hw])
  | worker i v _ e hv hm =>
    rcases hm.port with heq | ⟨-, port, hact, hport, hfresh⟩
    · apply hports.keep
      · intro w hw hpc
        rcases List.mem_or_eq_of_mem_set hw with hw | rfl
        · exact hports.start w hw hpc
        · exact absurd hpc hm.pc_ne_start
      · intro w hw
        rcases List.mem_or_eq_of_mem_set hw with hw | rfl
        · exact Or.inr ⟨w, hw, rfl, rfl⟩
        · exact Or.inr ⟨v, List.mem_of_getElem? hv, heq.symm, hm.update.symm⟩
    · exact hports.open hm.pc_ne_start hport hfresh (hfree i port hact)
  | _ => exact ⟨hports.start, hports.own, hports.unique⟩

/-- What a step does to the records, and to their history. -/
theorem Agent.Step.records (h : Agent.Step self a act a' ps) :
    (a'.records = a.records ∧ ∀ k s, .addItem k s ∈ a'.log → .addItem k s ∈ a.log) ∨
      ∃ d, act = .mainRecv d ∧ dispatch a.records d.header = .syn ∧
        a'.records = addItem a.records d.header.key d.header.sequenceNum ∧
        ∀ k s, .addItem k s ∈ a'.log →
          k = d.header.key ∧ s = d.header.sequenceNum ∨ .addItem k s ∈ a.log := by
  cases h with
  | syn d hmain hd => exact Or.inr ⟨d, rfl, hd, rfl, fun k s hmem => by simpa [synEvents] using hmem⟩
  | setAck | netlinkAck => exact Or.inl ⟨rfl, fun k s hmem => by simpa using hmem⟩
  | worker i w _ e hw hm =>
    refine Or.inl ⟨rfl, ?_⟩
    intro k s hmem
    rcases List.mem_append.mp hmem with hmem | hmem
    · cases hm <;> simp at hmem
    · exact hmem
  | _ => exact Or.inl ⟨rfl, fun _ _ hmem => hmem⟩

/-- A key whose SYN was accepted has a record, with that number or a larger one. -/
def RecordsOK (a : Agent) : Prop :=
  ∀ k s, .addItem k s ∈ a.log → ∃ s', storedSeq a.records k = some s' ∧ s.toInt ≤ s'.toInt

theorem RecordsOK.step (hrec : RecordsOK a) (h : Agent.Step self a act a' ps) : RecordsOK a' := by
  intro k s hmem
  rcases h.records with ⟨heq, hlog⟩ | ⟨d, -, hd, heq, hlog⟩
  · rw [heq]
    exact hrec k s (hlog k s hmem)
  · have hnew := (dispatch_eq_syn.mp hd).2
    rw [heq, storedSeq_addItem]
    by_cases hk : d.header.key = k
    · subst hk
      rw [if_pos rfl]
      refine ⟨_, rfl, ?_⟩
      rcases hlog _ s hmem with ⟨-, rfl⟩ | hmem
      · exact le_refl _
      · obtain ⟨s', hs', hle⟩ := hrec _ _ hmem
        exact hle.trans (hnew s' hs').le
    · rw [if_neg hk]
      rcases hlog k s hmem with ⟨rfl, -⟩ | hmem
      · exact absurd rfl hk
      · exact hrec k s hmem

end AgentSteps

/-! ### What only grows -/

/-- Histories grow, and a socket once given to a worker keeps serving its update. -/
structure Extends (s s' : System sc) : Prop where
  sent : s.sent ⊆ s'.sent
  log : ∀ a, (s.agents a).log ⊆ (s'.agents a).log
  served : ∀ a w port, w ∈ (s.agents a).workers → w.port = some port →
    ∃ w' ∈ (s'.agents a).workers, w'.port = some port ∧ w'.update = w.update

theorem Extends.of_agents {s s' : System sc} (hsent : s.sent ⊆ s'.sent)
    (h : s'.agents = s.agents) : Extends s s' := by
  refine ⟨hsent, ?_, ?_⟩
  · intro a
    rw [h]
    exact List.Subset.refl _
  · intro a w port hw hp
    exact ⟨w, by rwa [h], hp, rfl⟩

/-- Hop `a` has accepted the SYN of update `u`: it has written its record and
    told its kernel. -/
def Accepted (s : System sc) (u : Fin sc.n) (a : Addr) : Prop :=
  .addItem (sc.update u).key (sc.update u).seq ∈ (s.agents a).log ∧
    .sendNetlink "SYN" (sc.update u).key (sc.update u).seq ∈ (s.agents a).log

def AcceptedUpTo (s : System sc) (u : Fin sc.n) (m : Nat) : Prop :=
  ∀ a ∈ (sc.update u).hops.take m, Accepted s u a

def AcceptedAll (s : System sc) (u : Fin sc.n) : Prop := ∀ a ∈ (sc.update u).hops, Accepted s u a

def Answered (s : System sc) (u : Fin sc.n) : Prop :=
  ∃ p ∈ s.sent, p.src = mainSock (sc.update u).last ∧
    p.payload = synAckBytes (sc.update u).key (sc.update u).seq

/-- The socket that the SYN of update `u` for hop `m` is sent from: the
    initiator's, then those of the workers along the chain. -/
def Serves (s : System sc) (u : Fin sc.n) : Nat → SockAddr → Prop
  | 0, x => x = sc.sock u
  | m + 1, x => ∃ a port, (sc.update u).hops[m]? = some a ∧ x = ⟨a, port⟩ ∧
      ∃ w ∈ (s.agents a).workers, w.port = some port ∧
        w.update = ((sc.update u).key, (sc.update u).seq)

/-- What a party of the protocol may have sent. -/
inductive Genuine (s : System sc) : Packet → Prop
  | syn (u : Fin sc.n) (m : Nat) (a : Addr) (rest : List Addr) (src : SockAddr)
      (hhop : (sc.update u).hops.drop m = a :: rest) (hsrc : Serves s u m src)
      (hup : AcceptedUpTo s u m) (hfits : (sc.update u).Fits) :
      Genuine s ⟨src, mainSock a, synBytes (sc.update u).key (sc.update u).seq (a :: rest)⟩
  | synAck (u : Fin sc.n) (m : Nat) (src dst : SockAddr) (hdst : Serves s u m dst)
      (hall : AcceptedAll s u) (hans : Answered s u) :
      Genuine s ⟨src, dst, synAckBytes (sc.update u).key (sc.update u).seq⟩
  | ack (u : Fin sc.n) (a : Addr) (src : SockAddr) (hall : AcceptedAll s u)
      (hans : Answered s u) :
      Genuine s ⟨src, mainSock a, ackBytes (sc.update u).seq⟩

section Monotone

variable {s s' : System sc} {u : Fin sc.n}

theorem Accepted.mono (hx : Extends s s') {a : Addr} (h : Accepted s u a) : Accepted s' u a :=
  ⟨hx.log a h.1, hx.log a h.2⟩

theorem AcceptedUpTo.mono (hx : Extends s s') {m : Nat} (h : AcceptedUpTo s u m) :
    AcceptedUpTo s' u m := fun a ha => (h a ha).mono hx

theorem AcceptedAll.mono (hx : Extends s s') (h : AcceptedAll s u) : AcceptedAll s' u :=
  fun a ha => (h a ha).mono hx

theorem Answered.mono (hx : Extends s s') (h : Answered s u) : Answered s' u := by
  obtain ⟨p, hp, hsrc, hpay⟩ := h
  exact ⟨p, hx.sent hp, hsrc, hpay⟩

theorem Serves.mono (hx : Extends s s') {m : Nat} {x : SockAddr} (h : Serves s u m x) :
    Serves s' u m x := by
  cases m with
  | zero => exact h
  | succ m =>
    obtain ⟨a, port, hhop, hxa, w, hw, hport, hupd⟩ := h
    obtain ⟨w', hw', hport', hupd'⟩ := hx.served a w port hw hport
    exact ⟨a, port, hhop, hxa, w', hw', hport', hupd'.trans hupd⟩

theorem Genuine.mono (hx : Extends s s') {p : Packet} (h : Genuine s p) : Genuine s' p := by
  cases h with
  | syn u m a rest src hhop hsrc hup hfits =>
    exact .syn u m a rest src hhop (hsrc.mono hx) (hup.mono hx) hfits
  | synAck u m src dst hdst hall hans =>
    exact .synAck u m src dst (hdst.mono hx) (hall.mono hx) (hans.mono hx)
  | ack u a src hall hans => exact .ack u a src (hall.mono hx) (hans.mono hx)

end Monotone

/-! ### The workers of the chain -/

def IsSynAck (u : Update) (d : Datagram) : Prop :=
  ∃ p old, d = recvfrom p old ∧ p.payload = synAckBytes u.key u.seq

theorem IsSynAck.header {u : Update} {d : Datagram} (h : IsSynAck u d) :
    d.header = Header.mk' 5 u.seq u.key := by
  obtain ⟨p, old, rfl, hp⟩ := h
  have hpay : p.payload = (Header.mk' 5 u.seq u.key).bytes ++ wordBytes 0 := hp
  exact recvfrom_header old hpay (by simp [hp])

theorem IsSynAck.sendto {u : Update} {d : Datagram} (h : IsSynAck u d) :
    sendto d.buf d.n = some (synAckBytes u.key u.seq) := by
  obtain ⟨p, old, rfl, hp⟩ := h
  rw [sendto_recvfrom old (by simp [hp]), hp]

/-- Where the worker of update `u` at hop `j` may stand. -/
def PcOK (s : System sc) (u : Fin sc.n) (j : Nat) : WorkerPc → Prop
  | .start | .ignored | .clear | .finalUnlock | .done => True
  | .fwdPoll next | .fwdUnlock next => (sc.update u).hops[j + 1]? = some next
  | .fwdLock next recv | .fwdTest next recv =>
    (sc.update u).hops[j + 1]? = some next ∧ IsSynAck (sc.update u) recv ∧ AcceptedAll s u ∧
      Answered s u
  | .backLock response _ | .backTest response _ | .backUnlock response _
  | .backSend response _ =>
    (sc.update u).hops.drop (j + 1) = [] ∧
      response = synAckBytes (sc.update u).key (sc.update u).seq ∧ AcceptedAll s u

structure WorkerOK (s : System sc) (a : Addr) (w : Worker) (u : Fin sc.n) (j : Nat) : Prop where
  hop : (sc.update u).hops[j]? = some a
  update : w.update = ((sc.update u).key, (sc.update u).seq)
  request : w.request.buf.Holds 0
    (synBytes (sc.update u).key (sc.update u).seq ((sc.update u).hops.drop j))
  length : w.request.n = (24 + 4 * ((sc.update u).hops.drop j).length : Nat)
  src : Serves s u j w.request.src
  fits : (sc.update u).Fits
  upto : AcceptedUpTo s u (j + 1)
  pc : PcOK s u j w.pc

theorem WorkerOK.mono {s s' : System sc} (hx : Extends s s') {a : Addr} {w : Worker}
    {u : Fin sc.n} {j : Nat} (h : WorkerOK s a w u j) : WorkerOK s' a w u j where
  hop := h.hop
  update := h.update
  request := h.request
  length := h.length
  src := h.src.mono hx
  fits := h.fits
  upto := h.upto.mono hx
  pc := by
    have hpc := h.pc
    cases hw : w.pc <;> rw [hw] at hpc <;> first
      | exact hpc
      | exact ⟨hpc.1, hpc.2.1, hpc.2.2.1.mono hx, hpc.2.2.2.mono hx⟩
      | exact ⟨hpc.1, hpc.2.1, hpc.2.2.mono hx⟩

theorem drop_of_getElem? {hops : List Addr} {j : Nat} {a : Addr} (h : hops[j]? = some a) :
    hops.drop j = a :: hops.drop (j + 1) := by
  obtain ⟨hj, rfl⟩ := List.getElem?_eq_some_iff.mp h
  exact List.drop_eq_getElem_cons hj

/-- What the worker of a hop does first: the last hop answers, every other hop
    forwards the SYN to the next one. -/
theorem WorkerOK.handleUpdate {s : System sc} {a : Addr} {w : Worker} {u : Fin sc.n} {j : Nat}
    (h : WorkerOK s a w u j) :
    (sc.update u).hops.drop (j + 1) = [] ∧
        handleUpdate w.request.buf w.request.n =
          .back (synAckBytes (sc.update u).key (sc.update u).seq) ∨
      ∃ b rest, (sc.update u).hops.drop (j + 1) = b :: rest ∧
        handleUpdate w.request.buf w.request.n =
          .forward b (synBytes (sc.update u).key (sc.update u).seq (b :: rest)) := by
  have hreq := h.request
  have hlen := h.length
  rw [drop_of_getElem? h.hop] at hreq hlen
  cases hrest : (sc.update u).hops.drop (j + 1) with
  | nil =>
    rw [hrest] at hreq hlen
    rw [hlen]
    exact Or.inl ⟨rfl, handleUpdate_back hreq rfl (sc.update u).positive⟩
  | cons b rest =>
    rw [hrest] at hreq hlen
    rw [hlen]
    have hfits : 24 + 4 * (sc.update u).hops.length ≤ 1400 := h.fits
    have hle : rest.length + 2 ≤ (sc.update u).hops.length := by
      have := congrArg List.length hrest
      simp only [List.length_drop, List.length_cons] at this
      omega
    refine Or.inr ⟨b, rest, rfl, ?_⟩
    exact handleUpdate_forward hreq rfl (by omega) (sc.update u).positive

theorem getElem?_of_drop {hops : List Addr} {j : Nat} {b : Addr} {rest : List Addr}
    (h : hops.drop j = b :: rest) : hops[j]? = some b := by
  have := congrArg (·[0]?) h
  simpa using this

theorem last_of_drop {u : Update} {j : Nat} {a : Addr} (ha : u.hops[j]? = some a)
    (h : u.hops.drop (j + 1) = []) : u.last = a := by
  obtain ⟨hj, hget⟩ := List.getElem?_eq_some_iff.mp ha
  have hlen := List.drop_eq_nil_iff.mp h
  rw [Update.last, List.getLast_eq_getElem, ← hget]
  congr 1
  omega

theorem AcceptedUpTo.all {s : System sc} {u : Fin sc.n} {m : Nat} (h : AcceptedUpTo s u m)
    (hlast : (sc.update u).hops.drop m = []) : AcceptedAll s u := by
  intro a ha
  rw [← List.take_append_drop m (sc.update u).hops, hlast, List.append_nil] at ha
  exact h a ha

/-! ### The invariant -/

structure IsSyn (s : System sc) (u : Fin sc.n) (m : Nat) (a : Addr) (d : Datagram) : Prop where
  hop : (sc.update u).hops[m]? = some a
  header : d.header = Header.mk' 4 (sc.update u).seq (sc.update u).key
  request : d.buf.Holds 0
    (synBytes (sc.update u).key (sc.update u).seq ((sc.update u).hops.drop m))
  length : d.n = (24 + 4 * ((sc.update u).hops.drop m).length : Nat)
  src : Serves s u m d.src
  fits : (sc.update u).Fits
  upto : AcceptedUpTo s u m

/-- No receive buffer cuts off a datagram of the protocol. -/
theorem Genuine.length_le {s : System sc} {p : Packet} (h : Genuine s p) :
    p.payload.length ≤ 1400 := by
  cases h with
  | syn u m a rest src hhop hsrc hup hfits =>
    have hfit : 24 + 4 * (sc.update u).hops.length ≤ 1400 := hfits
    have hlen := congrArg List.length hhop
    rw [List.length_drop] at hlen
    rw [length_synBytes]
    omega
  | synAck => simp
  | ack => simp

theorem Genuine.recv {s : System sc} {p : Packet} (h : Genuine s p) (old : Nat → Byte) :
    (∃ u m a, p.dst = mainSock a ∧ IsSyn s u m a (recvfrom p old)) ∨
    (∃ u m, Serves s u m p.dst ∧ IsSynAck (sc.update u) (recvfrom p old) ∧ AcceptedAll s u ∧
      Answered s u) ∨
    (∃ u a, p.dst = mainSock a ∧
      (recvfrom p old).header = Header.mk' 6 (sc.update u).seq ackKey ∧ AcceptedAll s u ∧
      Answered s u) := by
  have hlen := h.length_le
  cases h with
  | syn u m a rest src hhop hsrc hup hfits =>
    refine Or.inl ⟨u, m, a, rfl, getElem?_of_drop hhop, ?_, ?_, ?_, hsrc, hfits, hup⟩
    · exact recvfrom_header old rfl hlen
    · rw [hhop]
      exact recvfrom_holds old hlen
    · rw [hhop, recvfrom_n old hlen, length_synBytes]
  | synAck u m src dst hdst hall hans =>
    exact Or.inr (Or.inl ⟨u, m, hdst, ⟨_, old, rfl, rfl⟩, hall, hans⟩)
  | ack u a src hall hans =>
    exact Or.inr (Or.inr ⟨u, a, rfl, recvfrom_header old rfl (by simp), hall, hans⟩)

/-- The update whose ACK the main thread is handing over. -/
def MainPc.acking : MainPc → Option (FlowKey × BitVec 32)
  | .recv => none
  | .lockAck k s | .setAck k s | .unlockAck k s | .netlinkAck k s => some (k, s)

/-- An ACK for `(k, q)` was sent after all hops of an update with `q` accepted it. -/
def AckOK (s : System sc) (k : FlowKey) (q : BitVec 32) : Prop :=
  k = ackKey ∧ ∃ u, (sc.update u).seq = q ∧ AcceptedAll s u

/-- The worker of `(k, q)` at `a` left its loop with the ACK `p` to the next hop. -/
def LeftOK (s : System sc) (a : Addr) (k : FlowKey) (q : BitVec 32) (p : Packet) : Prop :=
  ∃ u j next, (sc.update u).key = k ∧ (sc.update u).seq = q ∧ (sc.update u).hops[j]? = some a ∧
    (sc.update u).hops[j + 1]? = some next ∧ p.dst = mainSock next ∧ p.payload = ackBytes q ∧
    AcceptedAll s u

structure NetInv (s : System sc) : Prop where
  sent : ∀ p ∈ s.sent, Genuine s p
  net : s.net ⊆ s.sent
  ports : ∀ a, PortsOK sc a (s.agents a)
  records : ∀ a, RecordsOK (s.agents a)
  workers : ∀ a, ∀ w ∈ (s.agents a).workers, ∃ u j, WorkerOK s a w u j
  main : ∀ a k q, (s.agents a).main.acking = some (k, q) → AckOK s k q
  acks : ∀ a k q, .sendNetlink "ACK" k q ∈ (s.agents a).log → AckOK s k q
  left : ∀ a k q p, .leaveAcked k q (some p) ∈ (s.agents a).log → LeftOK s a k q p
  notifiers : ∀ u d, s.notifiers u = .received d →
    IsSynAck (sc.update u) d ∧ AcceptedAll s u ∧ Answered s u

theorem NetInv.init {s : System sc} (h : s.Idle) : NetInv s where
  sent := by intro p hp; rw [h.sent] at hp; cases hp
  net := by rw [h.net]; exact List.nil_subset _
  ports := by
    intro a
    constructor <;> intro w hw <;> rw [(h.agents a).workers] at hw <;> cases hw
  records := by intro a k q hmem; rw [(h.agents a).log] at hmem; cases hmem
  workers := by intro a w hw; rw [(h.agents a).workers] at hw; cases hw
  main := by intro a k q hk; rw [(h.agents a).main] at hk; cases hk
  acks := by intro a k q hmem; rw [(h.agents a).log] at hmem; cases hmem
  left := by intro a k q p hmem; rw [(h.agents a).log] at hmem; cases hmem
  notifiers := by intro u d hd; rw [h.notifiers] at hd; cases hd

theorem AckOK.mono {s s' : System sc} (hx : Extends s s') {k : FlowKey} {q : BitVec 32}
    (h : AckOK s k q) : AckOK s' k q := by
  obtain ⟨hk, u, hu, hall⟩ := h
  exact ⟨hk, u, hu, hall.mono hx⟩

theorem LeftOK.mono {s s' : System sc} (hx : Extends s s') {a : Addr} {k : FlowKey}
    {q : BitVec 32} {p : Packet} (h : LeftOK s a k q p) : LeftOK s' a k q p := by
  obtain ⟨u, j, next, hk, hq, ha, hnext, hdst, hpay, hall⟩ := h
  exact ⟨u, j, next, hk, hq, ha, hnext, hdst, hpay, hall.mono hx⟩

/-- A datagram on the socket of a worker is a SYN-ACK of the update it serves. -/
theorem NetInv.workerRecv {s : System sc} (hs : NetInv s) {b : Addr} {i : Nat} {w : Worker}
    {u : Fin sc.n} {j : Nat} {p : Packet} (old : Nat → Byte) (hw : (s.agents b).workers[i]? = some w)
    (hok : WorkerOK s b w u j) (hp : p ∈ s.net) (hdst : p.dst.addr = b)
    (hport : s.workerPort b i = some p.dst.port) :
    IsSynAck (sc.update u) (recvfrom p old) ∧ AcceptedAll s u ∧ Answered s u := by
  have hwport : w.port = some p.dst.port := by
    simpa [System.workerPort, hw] using hport
  have hwmem := List.mem_of_getElem? hw
  obtain ⟨hne, hsock⟩ := (hs.ports b).own w hwmem _ hwport
  rcases (hs.sent p (hs.net hp)).recv old with ⟨v, m, a, hmain, -⟩ | ⟨v, m, hserves, hack⟩ |
    ⟨v, a, hmain, -⟩
  · exact absurd (by rw [hmain]; rfl) hne
  · cases m with
    | zero =>
      -- the initiators have sockets of their own
      have : sc.sock v = ⟨b, p.dst.port⟩ := by
        rw [← hdst]
        exact (show p.dst = sc.sock v from hserves).symm
      exact absurd this (hsock v)
    | succ m =>
      obtain ⟨a, port, -, hdst', w', hw', hport', hupd'⟩ := hserves
      have ha : a = b := by rw [← hdst, hdst']
      subst ha
      have hp' : port = p.dst.port := by rw [hdst']
      subst hp'
      have huv := (hs.ports a).unique w' hw' w hwmem _ hport' hwport
      rw [hupd', hok.update, Prod.mk.injEq] at huv
      have : v = u := sc.own v u huv.1 huv.2
      subst this
      exact hack
  · exact absurd (by rw [hmain]; rfl) hne

theorem NetInv.extends_put {s s₁ : System sc} (hs : NetInv s) {b : Addr} {act : SysAct sc.n}
    {act' : Act} {a' : Agent} {ps : List Packet} (hfeeds : s.Feeds b act act' s₁)
    (hstep : Agent.Step b (s.agents b) act' a' ps) : Extends s (s₁.put b a' ps) := by
  refine ⟨?_, ?_, ?_⟩
  · rw [hfeeds.sent_put]
    exact List.subset_append_right _ _
  · intro a
    by_cases ha : a = b
    · subst ha
      rw [System.agents_put_self]
      exact hstep.log_subset
    · rw [hfeeds.agents_put ha]
      exact List.Subset.refl _
  · intro a w port hw hport
    by_cases ha : a = b
    · subst ha
      rw [System.agents_put_self]
      exact hstep.served (hs.ports a) hw hport
    · rw [hfeeds.agents_put ha]
      exact ⟨w, hw, hport, rfl⟩

theorem WorkerOK.goto {s : System sc} {a : Addr} {w : Worker} {u : Fin sc.n} {j : Nat}
    (h : WorkerOK s a w u j) {w' : Worker} (hreq : w'.request = w.request)
    (hpc : PcOK s u j w'.pc) : WorkerOK s a w' u j where
  hop := h.hop
  update := by
    rw [← h.update, Worker.update, Worker.key, Worker.seq, hreq]
    rfl
  request := hreq ▸ h.request
  length := hreq ▸ h.length
  src := hreq ▸ h.src
  fits := h.fits
  upto := h.upto
  pc := hpc

/-- The SYN-ACKs that the worker of a hop sends, relayed or its own. -/
theorem WorkerOK.synAck {s : System sc} {a : Addr} {w : Worker} {u : Fin sc.n} {j : Nat}
    (h : WorkerOK s a w u j) (hall : AcceptedAll s u) (hans : Answered s u) :
    Genuine s ⟨mainSock a, w.request.src, synAckBytes (sc.update u).key (sc.update u).seq⟩ :=
  .synAck u j _ _ h.src hall hans

/-- The last hop's own SYN-ACK. -/
theorem WorkerOK.answer {s : System sc} {a : Addr} {w : Worker} {u : Fin sc.n} {j : Nat}
    (h : WorkerOK s a w u j) (hlast : (sc.update u).hops.drop (j + 1) = [])
    (hall : AcceptedAll s u) (hsent : ⟨mainSock a, w.request.src,
      synAckBytes (sc.update u).key (sc.update u).seq⟩ ∈ s.sent) :
    Genuine s ⟨mainSock a, w.request.src, synAckBytes (sc.update u).key (sc.update u).seq⟩ := by
  apply h.synAck hall
  refine ⟨_, hsent, ?_, rfl⟩
  rw [last_of_drop h.hop hlast]

/-- What a step of the worker of update `u` at hop `j` adds to the system. -/
theorem NetInv.workerMove {s s₁ s' : System sc} (hs : NetInv s) {b : Addr} {act : SysAct sc.n}
    {act' : Act} {i : Nat} {w : Worker} {e : Effect} {u : Fin sc.n} {j : Nat}
    (hfeeds : s.Feeds b act act' s₁) (hw : (s.agents b).workers[i]? = some w)
    (hm : WorkerMove b (s.agents b) i w act' e) (hok : WorkerOK s b w u j)
    (hx : Extends s s') (hself : s'.agents b = (s.agents b).apply i e)
    (hgrow : s'.sent = e.packets ++ s.sent) :
    PcOK s' u j e.worker.pc ∧ (∀ p ∈ e.packets, Genuine s' p) ∧
      ∀ k q p, .leaveAcked k q (some p) ∈ e.events → LeftOK s' b k q p := by
  have hpcok := (hok.mono hx).pc
  have hsent : ∀ p ∈ e.packets, p ∈ s'.sent := by
    intro p hp
    rw [hgrow]
    exact List.mem_append_left _ hp
  cases hm with
  | ignore | clear | finalUnlock => exact ⟨trivial, by simp, by simp⟩
  | forward port next mesg hpc hh hport =>
    rcases hok.handleUpdate with ⟨-, hback⟩ | ⟨c, rest, hrest, hfwd⟩
    · rw [hback] at hh
      cases hh
    · rw [hfwd, Handled.forward.injEq] at hh
      obtain ⟨rfl, rfl⟩ := hh
      refine ⟨getElem?_of_drop hrest, fun p hp => ?_, by simp⟩
      rw [List.mem_singleton] at hp
      subst hp
      refine .syn u (j + 1) c rest _ hrest ?_ (hok.upto.mono hx) hok.fits
      refine ⟨b, port, hok.hop, rfl, ⟨w.request, some port, .fwdPoll c⟩, ?_, rfl, hok.update⟩
      rw [hself]
      exact Agent.worker_mem_apply hw
  | back port response hpc hh =>
    rcases hok.handleUpdate with ⟨hlast, hback⟩ | ⟨c, rest, hrest, hfwd⟩
    · rw [hback] at hh
      cases hh
      exact ⟨⟨hlast, rfl, (hok.upto.all hlast).mono hx⟩, by simp, by simp⟩
    · rw [hfwd] at hh
      cases hh
  | recv next d hpc =>
    rw [hpc] at hpcok
    cases hfeeds with
    | workerRecv _ p old hp hdst hport =>
      obtain ⟨hack, hall, hans⟩ := hs.workerRecv old hw hok hp hdst hport
      exact ⟨⟨hpcok, hack, hall.mono hx, hans.mono hx⟩, by simp, by simp⟩
  | fwdLock next recv hpc hlock =>
    rw [hpc] at hpcok
    exact ⟨hpcok, by simp, by simp⟩
  | relay next recv hpc hflag =>
    rw [hpc] at hpcok
    obtain ⟨hnext, hack, hall, hans⟩ := hpcok
    refine ⟨hnext, fun p hp => ?_, by simp⟩
    rw [hack.sendto, packetOf, Option.map_some, Option.toList_some, List.mem_singleton] at hp
    rw [hp]
    exact (hok.mono hx).synAck hall hans
  | fwdAcked next recv sent hpc hflag heq =>
    rw [hpc] at hpcok
    obtain ⟨hnext, hack, hall, hans⟩ := hpcok
    have hseq : recv.header.sequenceNum = (sc.update u).seq := by rw [hack.header]; rfl
    rw [hseq] at heq
    refine ⟨trivial, fun p hp => ?_, fun k q p hp => ?_⟩
    · rw [List.mem_singleton] at hp
      rw [hp, heq]
      exact .ack u next _ hall hans
    · have hupd := hok.update
      simp only [Worker.update, Prod.mk.injEq] at hupd
      simp only [List.mem_cons, Event.leaveAcked.injEq, Option.some.injEq, reduceCtorEq,
        List.not_mem_nil, or_false] at hp
      obtain ⟨rfl, rfl, rfl⟩ := hp
      rw [hupd.1, hupd.2, heq]
      exact ⟨u, j, next, rfl, rfl, hok.hop, hnext, rfl, rfl, hall⟩
  | fwdUnlock next hpc =>
    rw [hpc] at hpcok
    exact ⟨hpcok, by simp, by simp⟩
  | backLock response count hpc | backTest response count hpc | backUnlock response count hpc =>
    rw [hpc] at hpcok
    exact ⟨hpcok, by simp, by simp⟩
  | backAcked => exact ⟨trivial, by simp, by simp⟩
  | backSend response count hpc hcount =>
    rw [hpc] at hpcok
    obtain ⟨hlast, rfl, hall⟩ := hpcok
    refine ⟨⟨hlast, rfl, hall⟩, fun p hp => ?_, by simp⟩
    have hp' := hsent p hp
    rw [List.mem_singleton.mp hp] at hp' ⊢
    exact (hok.mono hx).answer hlast hall hp'
  | timeout response count hpc hcount =>
    rw [hpc] at hpcok
    obtain ⟨hlast, rfl, hall⟩ := hpcok
    refine ⟨trivial, fun p hp => ?_, by simp⟩
    have hp' := hsent p hp
    rw [List.mem_singleton.mp hp] at hp' ⊢
    exact (hok.mono hx).answer hlast hall hp'

/-- What the invariant asks of one agent, and of what it just sent. -/
structure StepOK (s : System sc) (b : Addr) (a : Agent) (ps : List Packet) : Prop where
  sent : ∀ p ∈ ps, Genuine s p
  workers : ∀ w ∈ a.workers, ∃ u j, WorkerOK s b w u j
  main : ∀ k q, a.main.acking = some (k, q) → AckOK s k q
  acks : ∀ k q, .sendNetlink "ACK" k q ∈ a.log → AckOK s k q
  left : ∀ k q p, .leaveAcked k q (some p) ∈ a.log → LeftOK s b k q p

theorem NetInv.stepOK {s s' : System sc} (hs : NetInv s) (hx : Extends s s') (b : Addr) :
    StepOK s' b (s.agents b) [] where
  sent := by intro p hp; cases hp
  workers := by
    intro w hw
    obtain ⟨u, j, hok⟩ := hs.workers b w hw
    exact ⟨u, j, hok.mono hx⟩
  main := fun k q hk => (hs.main b k q hk).mono hx
  acks := fun k q hmem => (hs.acks b k q hmem).mono hx
  left := fun k q p hmem => (hs.left b k q p hmem).mono hx

/-- The main loop accepts a SYN only for its own hop, and one that is genuine. -/
theorem NetInv.acceptSyn {s : System sc} (hs : NetInv s) {b : Addr} {p : Packet}
    {old : Nat → Byte} (hp : p ∈ s.net) (hdst : p.dst = mainSock b)
    (hact : (recvfrom p old).header.action = 4) :
    ∃ u m, IsSyn s u m b (recvfrom p old) := by
  rcases (hs.sent p (hs.net hp)).recv old with ⟨u, m, a, ha, hsyn⟩ | ⟨u, m, -, hack, -⟩ |
    ⟨u, a, -, hh, -⟩
  · rw [hdst, mainSock, mainSock, SockAddr.mk.injEq] at ha
    rw [ha.1]
    exact ⟨u, m, hsyn⟩
  · rw [hack.header, Header.action_mk'] at hact
    exact absurd hact (by decide)
  · rw [hh, Header.action_mk'] at hact
    exact absurd hact (by decide)

theorem NetInv.acceptAck {s : System sc} (hs : NetInv s) {p : Packet} {old : Nat → Byte}
    (hp : p ∈ s.net) (hact : (recvfrom p old).header.action = 6) :
    AckOK s (recvfrom p old).header.key (recvfrom p old).header.sequenceNum ∧
      ∃ u, Answered s u := by
  rcases (hs.sent p (hs.net hp)).recv old with ⟨u, m, a, -, hsyn⟩ | ⟨u, m, -, hack, -⟩ |
    ⟨u, a, -, hh, hall, hans⟩
  · rw [hsyn.header, Header.action_mk'] at hact
    exact absurd hact (by decide)
  · rw [hack.header, Header.action_mk'] at hact
    exact absurd hact (by decide)
  · rw [hh, Header.key_mk', Header.sequenceNum_mk']
    exact ⟨⟨rfl, u, rfl, hall⟩, u, hans⟩

theorem NetInv.step_stepOK {s s₁ s' : System sc} (hs : NetInv s) {b : Addr} {act : SysAct sc.n}
    {act' : Act} {a' : Agent} {ps : List Packet} (hfeeds : s.Feeds b act act' s₁)
    (hstep : Agent.Step b (s.agents b) act' a' ps) (hx : Extends s s')
    (hself : s'.agents b = a') (hgrow : s'.sent = ps ++ s.sent) : StepOK s' b a' ps := by
  have hold := hs.stepOK hx b
  cases hstep with
  | syn d hmain hd =>
    cases hfeeds with
    | mainRecv p old hp hdst =>
      obtain ⟨u, m, hsyn⟩ := hs.acceptSyn hp hdst (dispatch_eq_syn.mp hd).1
      refine ⟨hold.sent, fun w hw => ?_, hold.main, fun k q hmem => ?_, fun k q p hmem => ?_⟩
      · rcases List.mem_append.mp hw with hw | hw
        · exact hold.workers w hw
        · -- the new worker serves the update whose SYN was accepted
          rw [List.mem_singleton] at hw
          subst hw
          refine ⟨u, m, hsyn.hop, ?_, hsyn.request, hsyn.length, hsyn.src.mono hx, hsyn.fits,
            ?_, trivial⟩
          · rw [Worker.update, Worker.key, Worker.seq, hsyn.header]
            rfl
          · intro c hc
            rw [List.take_add_one, hsyn.hop, Option.toList_some] at hc
            rcases List.mem_append.mp hc with hc | hc
            · exact (hsyn.upto.mono hx) c hc
            · rw [List.mem_singleton] at hc
              subst hc
              rw [Accepted, hself, hsyn.header, Header.key_mk', Header.sequenceNum_mk']
              exact ⟨by simp [synEvents], by simp [synEvents]⟩
      · exact hold.acks k q (by simpa [synEvents] using hmem)
      · exact hold.left k q p (by simpa [synEvents] using hmem)
  | ack d hmain hd =>
    cases hfeeds with
    | mainRecv p old hp hdst =>
      refine ⟨hold.sent, hold.workers, fun k q hk => ?_, hold.acks, hold.left⟩
      simp only [MainPc.acking, Option.some.injEq, Prod.mk.injEq] at hk
      rw [← hk.1, ← hk.2]
      exact (hs.acceptAck hp (dispatch_eq_ack.mp hd).1).1.mono hx
  | nullDeref d hmain hd => exact ⟨hold.sent, hold.workers, hold.main, hold.acks, hold.left⟩
  | skip d hmain hd => exact hold
  | exit hmain => exact ⟨hold.sent, hold.workers, hold.main, hold.acks, hold.left⟩
  | lockAck k q hmain hlock =>
    exact ⟨hold.sent, hold.workers, fun k' q' hk => hold.main k' q' (by rw [hmain]; exact hk),
      hold.acks, hold.left⟩
  | setAck k q hmain =>
    refine ⟨hold.sent, hold.workers, fun k' q' hk => hold.main k' q' (by rw [hmain]; exact hk),
      fun k' q' hmem => hold.acks k' q' (by simpa using hmem),
      fun k' q' p hmem => hold.left k' q' p (by simpa using hmem)⟩
  | unlockAck k q hmain =>
    exact ⟨hold.sent, hold.workers, fun k' q' hk => hold.main k' q' (by rw [hmain]; exact hk),
      hold.acks, hold.left⟩
  | netlinkAck k q hmain =>
    refine ⟨hold.sent, hold.workers, fun k' q' hk => (by cases hk), fun k' q' hmem => ?_,
      fun k' q' p hmem => hold.left k' q' p (by simpa using hmem)⟩
    rcases List.mem_cons.mp hmem with heq | hmem
    · cases heq
      exact hold.main k q (by rw [hmain]; rfl)
    · exact hold.acks k' q' hmem
  | undefined i w port hw hpc hh =>
    exact ⟨hold.sent, hold.workers, hold.main, hold.acks, hold.left⟩
  | worker i w _ e hw hm =>
    obtain ⟨u, j, hok⟩ := hs.workers b w (List.mem_of_getElem? hw)
    obtain ⟨hpc, hsent, hleft⟩ := hs.workerMove hfeeds hw hm hok hx hself hgrow
    refine ⟨hsent, fun v hv => ?_, hold.main, fun k q hmem => ?_, fun k q p hmem => ?_⟩
    · rcases List.mem_or_eq_of_mem_set hv with hv | rfl
      · exact hold.workers v hv
      · exact ⟨u, j, (hok.mono hx).goto hm.request hpc⟩
    · rcases List.mem_append.mp hmem with hmem | hmem
      · cases hm <;> simp at hmem
      · exact hold.acks k q hmem
    · rcases List.mem_append.mp hmem with hmem | hmem
      · exact hleft k q p hmem
      · exact hold.left k q p hmem

theorem NetInv.agent {s s₁ : System sc} (hs : NetInv s) {b : Addr} {act : SysAct sc.n}
    {act' : Act} {a' : Agent} {ps : List Packet} (hfeeds : s.Feeds b act act' s₁)
    (hstep : Agent.Step b (s.agents b) act' a' ps) : NetInv (s₁.put b a' ps) := by
  have hx := hs.extends_put hfeeds hstep
  have hself : (s₁.put b a' ps).agents b = a' := System.agents_put_self ..
  have hsent : (s₁.put b a' ps).sent = ps ++ s.sent := hfeeds.sent_put a' ps
  have hother : ∀ a, a ≠ b → (s₁.put b a' ps).agents a = s.agents a := by
    intro a ha
    exact hfeeds.agents_put ha a' ps
  have hok : ∀ a, StepOK (s₁.put b a' ps) a ((s₁.put b a' ps).agents a) [] := by
    intro a
    by_cases ha : a = b
    · subst ha
      rw [hself]
      exact { hs.step_stepOK hfeeds hstep hx hself hsent with sent := by simp }
    · rw [hother a ha]
      exact hs.stepOK hx a
  refine ⟨fun p hp => ?_, fun p hp => ?_, fun a => ?_, fun a => ?_, fun a => (hok a).workers,
    fun a => (hok a).main, fun a => (hok a).acks, fun a => (hok a).left, fun u d hd => ?_⟩
  · rw [hsent] at hp
    rcases List.mem_append.mp hp with hp | hp
    · exact (hs.step_stepOK hfeeds hstep hx hself hsent).sent p hp
    · exact (hs.sent p hp).mono hx
  · rw [System.net_put] at hp
    rw [hsent]
    rcases List.mem_append.mp hp with hp | hp
    · exact List.mem_append_left _ hp
    · exact List.mem_append_right _ (hs.net (hfeeds.net hp))
  · by_cases ha : a = b
    · subst ha
      rw [hself]
      refine (hs.ports a).step hstep fun i port hact => ?_
      subst hact
      cases hfeeds with
      | workerStart _ _ hport => exact hport
    · rw [hother a ha]
      exact hs.ports a
  · by_cases ha : a = b
    · subst ha
      rw [hself]
      exact (hs.records a).step hstep
    · rw [hother a ha]
      exact hs.records a
  · rw [System.notifiers_put, hfeeds.notifiers] at hd
    obtain ⟨hack, hall, hans⟩ := hs.notifiers u d hd
    exact ⟨hack, hall.mono hx, hans.mono hx⟩

/-- A datagram on the socket of an initiator is a SYN-ACK of its update. -/
theorem NetInv.notifyRecv {s : System sc} (hs : NetInv s) {u : Fin sc.n} {p : Packet}
    (old : Nat → Byte) (hp : p ∈ s.net) (hdst : p.dst = sc.sock u) :
    IsSynAck (sc.update u) (recvfrom p old) ∧ AcceptedAll s u ∧ Answered s u := by
  have hport : ∀ a, sc.sock u ≠ mainSock a := by
    intro a ha
    exact sc.sock_port u (by rw [ha]; rfl)
  rcases (hs.sent p (hs.net hp)).recv old with ⟨v, m, a, hmain, -⟩ | ⟨v, m, hserves, hack⟩ |
    ⟨v, a, hmain, -⟩
  · exact absurd (hdst.symm.trans hmain) (hport a)
  · cases m with
    | zero =>
      have huv : u = v := sc.sock_inj u v (hdst.symm.trans hserves)
      subst huv
      exact hack
    | succ m =>
      -- no worker has the socket of an initiator
      obtain ⟨a, port, -, hdst', w, hw, hwport, -⟩ := hserves
      exact absurd (hdst.symm.trans hdst') (((hs.ports a).own w hw port hwport).2 u)
  · exact absurd (hdst.symm.trans hmain) (hport a)

theorem NetInv.of_agents {s s' : System sc} (hs : NetInv s) (hagents : s'.agents = s.agents)
    (hgrow : s.sent ⊆ s'.sent) (hsent : ∀ p ∈ s'.sent, p ∈ s.sent ∨ Genuine s' p)
    (hnet : s'.net ⊆ s'.sent)
    (hnot : ∀ u d, s'.notifiers u = .received d → s.notifiers u = .received d ∨
      IsSynAck (sc.update u) d ∧ AcceptedAll s u ∧ Answered s u) : NetInv s' := by
  have hx : Extends s s' := Extends.of_agents hgrow hagents
  have hok : ∀ a, StepOK s' a (s'.agents a) [] := by
    intro a
    rw [hagents]
    exact hs.stepOK hx a
  refine ⟨fun p hp => ?_, hnet, fun a => ?_, fun a => ?_, fun a => (hok a).workers,
    fun a => (hok a).main, fun a => (hok a).acks, fun a => (hok a).left, fun u d hd => ?_⟩
  · rcases hsent p hp with hp | hp
    · exact (hs.sent p hp).mono hx
    · exact hp
  · rw [hagents]
    exact hs.ports a
  · rw [hagents]
    exact hs.records a
  · obtain ⟨hack, hall, hans⟩ : IsSynAck (sc.update u) d ∧ AcceptedAll s u ∧ Answered s u :=
      (hnot u d hd).elim (hs.notifiers u d) id
    exact ⟨hack, hall.mono hx, hans.mono hx⟩

theorem genuine_first (s : System sc) {u : Fin sc.n} (hfits : (sc.update u).Fits) :
    Genuine s ⟨sc.sock u, mainSock (sc.update u).first,
      synBytes (sc.update u).key (sc.update u).seq (sc.update u).hops⟩ := by
  obtain ⟨c, rest, hhops⟩ := List.exists_cons_of_ne_nil (sc.update u).nonempty
  have hfirst : (sc.update u).first = c := by simp [Update.first, hhops]
  have hnone : AcceptedUpTo s u 0 := by
    intro a ha
    rw [List.take_zero] at ha
    cases ha
  rw [hfirst, hhops]
  exact .syn u 0 c rest _ (by rw [List.drop_zero, hhops]) rfl hnone hfits

/-- **Every step keeps the invariant.** -/
theorem NetInv.step {s s' : System sc} {act : SysAct sc.n} (hs : NetInv s)
    (hstep : System.Step s act s') : NetInv s' := by
  cases hstep with
  | notify u hpc hfits =>
    refine hs.of_agents rfl (List.subset_cons_self _ _) (fun p hp => ?_)
      (List.cons_subset_cons _ hs.net) fun v d hd => ?_
    · rcases List.mem_cons.mp hp with rfl | hp
      · exact Or.inr (genuine_first _ hfits)
      · exact Or.inl hp
    · left
      by_cases hv : v = u
      · subst hv
        simp [System.send, System.setNotifier] at hd
      · simpa [System.send, System.setNotifier, hv] using hd
  | notifyRecv u p old hpc hp hdst =>
    obtain ⟨hack, hall, hans⟩ := hs.notifyRecv old hp hdst
    have hsent : notifyAck (sc.update u).seq (recvfrom p old) =
        some (ackBytes (sc.update u).seq) := by
      rw [notifyAck, if_pos (by rw [hack.header]; exact ⟨rfl, rfl⟩), ackMesg_eq]
    have hx : Extends s (((s.take p).setNotifier u (.received (recvfrom p old))).send
        (packetOf (sc.sock u) (mainSock (sc.update u).first)
          (notifyAck (sc.update u).seq (recvfrom p old))).toList) :=
      Extends.of_agents (List.subset_append_right _ _) rfl
    refine hs.of_agents rfl hx.sent (fun q hq => ?_) (fun q hq => ?_) fun v d hd => ?_
    · rcases List.mem_append.mp hq with hq | hq
      · rw [hsent, packetOf, Option.map_some, Option.toList_some, List.mem_singleton] at hq
        rw [hq]
        exact Or.inr (.ack u _ _ (hall.mono hx) (hans.mono hx))
      · exact Or.inl hq
    · rcases List.mem_append.mp hq with hq | hq
      · exact List.mem_append_left _ hq
      · exact List.mem_append_right _ (hs.net (List.erase_subset hq))
    · by_cases hv : v = u
      · subst hv
        have hd : recvfrom p old = d := by simpa [System.send, System.setNotifier] using hd
        exact Or.inr (hd ▸ ⟨hack, hall, hans⟩)
      · left
        simpa [System.send, System.setNotifier, System.take, hv] using hd
  | agent b _ act' s₁ a' ps hfeeds halive hstep => exact hs.agent hfeeds hstep
  | lose p hp =>
    exact hs.of_agents rfl (List.Subset.refl _) (fun q hq => Or.inl hq)
      (fun q hq => hs.net (List.erase_subset hq)) fun v d hd => Or.inl hd
  | duplicate p hp =>
    exact hs.of_agents rfl (List.Subset.refl _) (fun q hq => Or.inl hq)
      (List.cons_subset.mpr ⟨hs.net hp, hs.net⟩) fun v d hd => Or.inl hd

theorem NetInv.reachable {s₀ s : System sc} (h₀ : s₀.Idle)
    (h : Reachable System.step s₀ s) : NetInv s :=
  h.invariant (NetInv.init h₀) fun _ _ _ _ hs hstep => hs.step (System.step_sound hstep)

/-- No agent of the chain runs into undefined behaviour. -/
theorem NetInv.defined {s : System sc} (hs : NetInv s) (a : Addr) :
    ∀ w ∈ (s.agents a).workers, handleUpdate w.request.buf w.request.n ≠ .undefined := by
  intro w hw
  obtain ⟨u, j, hok⟩ := hs.workers a w hw
  rcases hok.handleUpdate with ⟨-, h⟩ | ⟨b, rest, -, h⟩ <;> rw [h] <;> intro h' <;> cases h'

theorem NetInv.among_length {s : System sc} (hs : NetInv s) {dst : SockAddr}
    {payload : List Byte} (h : Among s.net dst payload) : payload.length ≤ 1400 := by
  obtain ⟨p, hp, -, rfl⟩ := h
  exact (hs.sent p (hs.net hp)).length_le

/-- A packet for the main loop at `b` stays in the network until this loop
    receives it. -/
theorem NetInv.among_feeds {s s₁ : System sc} (hs : NetInv s) {b c : Addr} {act : SysAct sc.n}
    {act' : Act} {payload : List Byte} (hfeeds : s.Feeds c act act' s₁)
    (h : Among s.net (mainSock b) payload) :
    Among s₁.net (mainSock b) payload ∨
      b = c ∧ ∃ p old, act' = .mainRecv (recvfrom p old) ∧ p.payload = payload := by
  cases hfeeds with
  | mainRecv p old hp hdst =>
    by_cases hthis : p.dst = mainSock b ∧ p.payload = payload
    · have hbc := hthis.1.symm.trans hdst
      rw [mainSock, mainSock, SockAddr.mk.injEq] at hbc
      exact Or.inr ⟨hbc.1, p, old, rfl, hthis.2⟩
    · exact Or.inl (h.erase hthis)
  | workerRecv i p old hp hdst hport =>
    refine Or.inl (h.erase fun hmain => ?_)
    obtain ⟨w, hw, hwport⟩ := Option.bind_eq_some_iff.mp hport
    have hne := ((hs.ports c).own w (List.mem_of_getElem? hw) _ hwport).1
    exact hne (by rw [hmain.1]; rfl)
  | mainStep | mainExit | workerStart | workerStep => exact Or.inl h

/-! ### Two-phase safety -/

/-- **Two-phase safety.**  Whatever the network does: an initiator that has
    received a SYN-ACK knows that every hop of its update accepted the SYN; and
    when all updates are of the flow that `settingAck` writes, an agent hands
    "ACK" to its kernel only for a number whose update every hop has accepted. -/
theorem two_phase_safety {s₀ s : System sc} (h₀ : s₀.Idle) (h : Reachable System.step s₀ s) :
    (∀ u d, s.notifiers u = .received d →
      d.header = Header.mk' 5 (sc.update u).seq (sc.update u).key ∧
        ∀ a ∈ (sc.update u).hops, Accepted s u a) ∧
    ((∀ u, (sc.update u).key = ackKey) →
      ∀ a k q, .sendNetlink "ACK" k q ∈ (s.agents a).log →
        (∃ u, (sc.update u).seq = q) ∧
          ∀ u, (sc.update u).seq = q → ∀ b ∈ (sc.update u).hops, Accepted s u b) := by
  have hs := NetInv.reachable h₀ h
  constructor
  · intro u d hd
    obtain ⟨hack, hall, -⟩ := hs.notifiers u d hd
    exact ⟨hack.header, hall⟩
  · intro hkeys a k q hmem
    obtain ⟨-, v, hv, hall⟩ := hs.acks a k q hmem
    refine ⟨⟨v, hv⟩, fun u hu => ?_⟩
    have huv : u = v := sc.own u v ((hkeys u).trans (hkeys v).symm) (hu.trans hv.symm)
    rw [huv]
    exact hall

/-! ### A chain of two hops -/

def hopA : Addr := inetAton 128 112 93 108
def hopB : Addr := inetAton 128 112 93 109
def chainSock : SockAddr := ⟨inetAton 128 112 93 106, 5000⟩
def chainPort : BitVec 16 := 6000

theorem positive_100 : 0 < (100 : BitVec 32).toInt := by decide

def chainUpdate : Update where
  key := ackKey
  seq := 100
  hops := [hopA, hopB]
  positive := positive_100
  nonempty := by decide
  nodup := by decide

def chainScenario : Scenario where
  n := 1
  update := fun _ => chainUpdate
  sock := fun _ => chainSock
  own := fun i j _ _ => Subsingleton.elim i j
  sock_inj := fun i j _ => Subsingleton.elim i j
  sock_port := fun _ => by decide

def chainOnly : Fin chainScenario.n := ⟨0, by decide⟩

theorem chainScenario_one (u v : Fin chainScenario.n) : u = v := @Subsingleton.elim (Fin 1) _ u v

def synPacket (k : FlowKey) (src : SockAddr) (dst : Addr) (hops : List Addr) : Packet :=
  ⟨src, mainSock dst, synBytes k 100 hops⟩
def synAckPacket (k : FlowKey) (src : Addr) (dst : SockAddr) : Packet :=
  ⟨mainSock src, dst, synAckBytes k 100⟩
def ackPacket (src : SockAddr) (dst : Addr) : Packet := ⟨src, mainSock dst, ackBytes 100⟩

/-- The SYN goes down the chain, the SYN-ACK comes back, and the initiator's ACK
    releases the worker of the first hop at the second SYN-ACK. -/
def chainRun : List (SysAct chainScenario.n) := List.flatten
  [[.notify chainOnly, .mainRecv hopA (synPacket ackKey chainSock hopA [hopA, hopB]) 0,
      .workerStart hopA 0 chainPort, .mainRecv hopB (synPacket ackKey ⟨hopA, chainPort⟩ hopB [hopB]) 0,
      .workerStart hopB 0 chainPort],
    List.replicate 4 (.workerStep hopB 0),
    [.duplicate (synAckPacket ackKey hopB ⟨hopA, chainPort⟩),
      .workerRecv hopA 0 (synAckPacket ackKey hopB ⟨hopA, chainPort⟩) 0],
    List.replicate 3 (.workerStep hopA 0),
    [.notifyRecv chainOnly (synAckPacket ackKey hopA chainSock) 0,
      .mainRecv hopA (ackPacket chainSock hopA) 0],
    List.replicate 4 (.mainStep hopA),
    [.workerRecv hopA 0 (synAckPacket ackKey hopB ⟨hopA, chainPort⟩) 0],
    List.replicate 2 (.workerStep hopA 0)]

def NotifyPc.answered : NotifyPc → Bool
  | .received _ => true
  | _ => false

theorem NotifyPc.of_answered {pc : NotifyPc} (h : pc.answered = true) : ∃ d, pc = .received d := by
  cases pc with
  | received d => exact ⟨d, rfl⟩
  | idle => cases h
  | waiting => cases h

theorem two_phase_safety_chain :
    ∃ s : System chainScenario, run System.step (System.init chainScenario) chainRun = some s ∧
      (∃ d, s.notifiers chainOnly = .received d) ∧
      .sendNetlink "ACK" ackKey 100 ∈ (s.agents hopA).log ∧
      ∀ a ∈ (chainScenario.update chainOnly).hops, Accepted s chainOnly a := by
  have hrun : ((run System.step (System.init chainScenario) chainRun).any fun s =>
      (s.notifiers chainOnly).answered ∧
        .sendNetlink "ACK" ackKey 100 ∈ (s.agents hopA).log) = true := by
    decide +kernel
  obtain ⟨s, hs, hmem⟩ := (Option.any_eq_true _ _).mp hrun
  obtain ⟨hans, hack⟩ := of_decide_eq_true hmem
  obtain ⟨d, hd⟩ := NotifyPc.of_answered hans
  have hsafe := two_phase_safety System.idle_init ⟨chainRun, hs⟩
  exact ⟨s, hs, ⟨d, hd⟩, hack, (hsafe.1 chainOnly d hd).2⟩

end MiddleboxSession
