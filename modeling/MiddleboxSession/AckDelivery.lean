/-
  MiddleboxSession/AckDelivery.lean
  =================================
  **The ACK from one hop to the next: what it names, and whether it arrives.**

  A worker that leaves `updateForward` as acknowledged sends one ACK to the
  next hop, once, and never again.  Two things can be said about it in every
  run of the system:

    * it names the record that the next hop has for the update exactly when
      the flow key of the update is the one that `settingAck` writes, and the
      datagram that the worker had received carries the number of its SYN;
    * for one update with that key, the ACK is in flight, or was taken up by
      the main loop of the next hop, or was lost by the network.
-/
import MiddleboxSession.Handshake

namespace MiddleboxSession

open CBuffer Runs

variable {sc : Scenario}

/-! ### What the ACK names -/

section Relay

variable {self : Addr}

/-- The next hop of a worker in the loop of `updateForward`. -/
def WorkerPc.next : WorkerPc → Option Addr
  | .fwdPoll next | .fwdLock next _ | .fwdTest next _ | .fwdUnlock next => some next
  | _ => none

/-- In its loop a worker has forwarded its SYN to the next hop. -/
def ForwardedOK (a : Agent) : Prop :=
  ∀ w ∈ a.workers, ∀ next, w.pc.next = some next →
    ∃ mesg, handleUpdate w.request.buf w.request.n = .forward next mesg

theorem WorkerMove.forwardedOK {a : Agent} {i : Nat} {w : Worker} {act : Act} {e : Effect}
    (hm : WorkerMove self a i w act e)
    (hw : ∀ next, w.pc.next = some next →
      ∃ mesg, handleUpdate w.request.buf w.request.n = .forward next mesg) {next : Addr}
    (h : e.worker.pc.next = some next) :
    ∃ mesg, handleUpdate e.worker.request.buf e.worker.request.n = .forward next mesg := by
  cases hm with
  | forward port _ mesg _ hh =>
    cases h
    exact ⟨mesg, hh⟩
  | recv _ _ hpc | fwdLock _ _ hpc | relay _ _ hpc | fwdUnlock _ hpc =>
    refine hw next ?_
    rw [hpc]
    exact h
  | _ => cases h

theorem Agent.Step.forwardedOK {a a' : Agent} {act : Act} {ps : List Packet}
    (h : Agent.Step self a act a' ps) (ha : ForwardedOK a) : ForwardedOK a' := by
  cases h with
  | worker i w _ e hw hm =>
    intro v hv
    rcases List.mem_or_eq_of_mem_set hv with hv | rfl
    · exact ha v hv
    · exact fun _ => hm.forwardedOK (ha w (List.mem_of_getElem? hw))
  | syn d =>
    intro v hv
    rcases List.mem_append.mp hv with hv | hv
    · exact ha v hv
    · rw [List.mem_singleton.mp hv]
      intro next hnext
      cases hnext
  | _ => exact ha

theorem ForwardedOK.reachable {a₀ a : Agent} (h₀ : a₀.workers = [])
    (h : Reachable (Agent.next self) a₀ a) : ForwardedOK a := by
  refine h.invariant (fun w hw => ?_) fun x act x' _ hx hstep => ?_
  · rw [h₀] at hw
    cases hw
  · obtain ⟨-, ps, hs⟩ := Agent.next_sound self hstep
    exact hs.forwardedOK hx

/-- The ACK `p` has the flow key and the number of the SYN `mesg`, and `findItem`
    returns with it the record of this SYN in whatever table the SYN is put. -/
def Acknowledges (mesg : List Byte) (p : Packet) : Prop :=
  ∀ src old old', let syn := (recvfrom ⟨src, p.dst, mesg⟩ old).header
    let ack := (recvfrom p old').header
    ack.key = syn.key ∧ ack.sequenceNum = syn.sequenceNum ∧
      ∀ records, findItem (addItem records syn.key syn.sequenceNum) ack.key =
        some ⟨syn.key, syn.sequenceNum, 0⟩

theorem acknowledges_iff {d : Datagram} {next : Addr} {mesg : List Byte} {p : Packet}
    {q : BitVec 32} (hmesg : handleUpdate d.buf d.n = .forward next mesg)
    (hpay : p.payload = ackBytes q) :
    Acknowledges mesg p ↔ d.header.key = ackKey ∧ q = d.header.sequenceNum := by
  obtain ⟨⟨rest, rfl⟩, hlen⟩ := handleUpdate_eq_forward hmesg
  have hsyn : ∀ src old, (recvfrom ⟨src, p.dst, _⟩ old).header =
      Header.mk' 4 d.header.sequenceNum d.header.key :=
    fun src old => recvfrom_header old rfl hlen
  have hack : ∀ old, (recvfrom p old).header = Header.mk' 6 q ackKey :=
    fun old => recvfrom_header old hpay (by simp [hpay])
  constructor
  · intro h
    obtain ⟨hkey, hseq, -⟩ := h p.src 0 0
    rw [hsyn, hack] at hkey hseq
    exact ⟨hkey.symm, hseq⟩
  · rintro ⟨hkey, hseq⟩ src old old'
    dsimp only
    rw [hsyn, hack, Header.key_mk', Header.sequenceNum_mk', Header.key_mk',
      Header.sequenceNum_mk', hkey, hseq]
    exact ⟨rfl, rfl, fun records => by rw [findItem_addItem, if_pos rfl]⟩

end Relay

/-- The ACK `p` for update `(k, q)` carries its flow key and its number, and
    `findItem` of `next` finds with it the record of the SYN that this hop
    accepted. -/
def ReachesRecord (s : System sc) (next : Addr) (k : FlowKey) (q : BitVec 32) (p : Packet) :
    Prop :=
  ∀ old, (recvfrom p old).header.key = k ∧ (recvfrom p old).header.sequenceNum = q ∧
    .addItem k q ∈ (s.agents next).log ∧
    ∃ r, findItem (s.agents next).records (recvfrom p old).header.key = some r ∧ r.key = k

theorem NetInv.reachesRecord_iff {s : System sc} (hs : NetInv s) {next : Addr} {k : FlowKey}
    {q : BitVec 32} {p : Packet} (hpay : p.payload = ackBytes q)
    (hadd : .addItem k q ∈ (s.agents next).log) : ReachesRecord s next k q p ↔ k = ackKey := by
  have hheader : ∀ old, (recvfrom p old).header = Header.mk' 6 q ackKey :=
    fun old => recvfrom_header old hpay (by simp [hpay])
  constructor
  · intro hreach
    have hkey := (hreach 0).1
    rw [hheader] at hkey
    exact hkey.symm
  · intro hkey old
    rw [hheader, Header.key_mk', Header.sequenceNum_mk', ← hkey]
    obtain ⟨q', hq', -⟩ := hs.records next _ _ hadd
    obtain ⟨r, hr, -⟩ := Option.map_eq_some_iff.mp hq'
    exact ⟨rfl, rfl, hadd, r, hr, findItem_key hr⟩

/-- **When the ACK names the record of its update.**  In every process, whatever
    comes to its sockets, a worker that leaves its loop sends one ACK to the hop
    that it forwarded its SYN to; it acknowledges that SYN exactly when the flow
    key is the one of `settingAck` and the datagram in hand has the SYN's number.
    Where the sockets get only what the parties send, the number always agrees,
    and the ACK reaches the record at the next hop exactly for that flow key. -/
theorem ack_reaches_record_iff (self : Addr) :
    (∀ a₀ a : Agent, a₀.workers = [] → Reachable (Agent.next self) a₀ a →
      a.alive = true → a.updateAck = true → ∀ i w next recv, a.workers[i]? = some w →
        w.pc = .fwdTest next recv → ∃ mesg a' p,
          handleUpdate w.request.buf w.request.n = .forward next mesg ∧
          a.step self (.workerStep i) = some (a', [p]) ∧ p.dst = mainSock next ∧
          (Acknowledges mesg p ↔ w.key = ackKey ∧ recv.header.sequenceNum = w.seq)) ∧
    ∀ (sc : Scenario) (s₀ s : System sc), s₀.Idle → Reachable System.step s₀ s →
      ∀ k q p, .leaveAcked k q (some p) ∈ (s.agents self).log → ∃ u i next,
        (sc.update u).key = k ∧ (sc.update u).seq = q ∧ (sc.update u).hops[i]? = some self ∧
        (sc.update u).hops[i + 1]? = some next ∧ p.dst = mainSock next ∧
        (ReachesRecord s next k q p ↔ k = ackKey) := by
  constructor
  · intro a₀ a h₀ h halive hflag i w next recv hw hpc
    obtain ⟨mesg, hmesg⟩ := ForwardedOK.reachable h₀ h w (List.mem_of_getElem? hw) next
      (by rw [hpc]; rfl)
    let p : Packet :=
      ⟨⟨self, w.port.getD 0⟩, mainSock next, ackBytes recv.header.sequenceNum⟩
    let e : Effect := ⟨{ w with pc := .clear }, a.updateAck, a.lock,
      [.leaveAcked w.key w.seq (some p), .testAck w.key w.seq true], [p]⟩
    have hmove : a.workerStep self i w = some e := by
      simp only [Agent.workerStep, hpc, hflag, ne_eq, not_true_eq_false, if_false, ackMesg_eq,
        packetOf, Option.map_some, Option.toList_some, e]
      rfl
    have hstep : a.step self (.workerStep i) = some (a.apply i e, [p]) := by
      rw [Agent.step, if_pos halive]
      simp only [hw, Option.bind_some, hmove, Option.map_some]
      rfl
    have hpay : p.payload = ackBytes recv.header.sequenceNum := rfl
    exact ⟨mesg, _, p, hmesg, hstep, rfl, acknowledges_iff hmesg hpay⟩
  · intro sc s₀ s h₀ h k q p hleft
    have hs := NetInv.reachable h₀ h
    obtain ⟨u, j, next, hk, hq, ha, hnext, hdst, hpay, hall⟩ := hs.left self k q p hleft
    refine ⟨u, j, next, hk, hq, ha, hnext, hdst, hs.reachesRecord_iff hpay ?_⟩
    rw [← hk, ← hq]
    exact (hall next (List.mem_of_getElem? hnext)).1

/-- In the chain of two hops, the first one gets its ACK and sends its own. -/
theorem chainRun_leaveAcked :
    ∃ s : System chainScenario, run System.step (System.init chainScenario) chainRun = some s ∧
      .leaveAcked ackKey 100 (some (ackPacket ⟨hopA, chainPort⟩ hopB)) ∈ (s.agents hopA).log := by
  have hrun : ((run System.step (System.init chainScenario) chainRun).any fun s =>
      .leaveAcked ackKey 100 (some (ackPacket ⟨hopA, chainPort⟩ hopB)) ∈ (s.agents hopA).log) =
        true := by
    decide +kernel
  obtain ⟨s, hs, hmem⟩ := (Option.any_eq_true _ _).mp hrun
  have hleft := of_decide_eq_true hmem
  exact ⟨s, hs, hleft⟩

/-- Hop A up to the test of its worker, with the SYN-ACK in hand and the flag set. -/
def hopATest : List Act :=
  [.mainRecv (recvfrom (synPacket ackKey chainSock hopA [hopA, hopB]) 0),
    .workerStart 0 chainPort, .mainRecv (recvfrom (ackPacket chainSock hopA) 0), .mainStep,
    .mainStep, .mainStep, .mainStep,
    .workerRecv 0 (recvfrom (synAckPacket ackKey hopB ⟨hopA, chainPort⟩) 0), .workerStep 0]

/-- The worker tests the flag, for `ackKey` and with its own number in hand. -/
def Worker.tests (w : Worker) (next : Addr) : Bool :=
  match w.pc with
  | .fwdTest b recv => b = next && w.key = ackKey && recv.header.sequenceNum = w.seq
  | _ => false

theorem Worker.of_tests {w : Worker} {next : Addr} (h : w.tests next = true) :
    ∃ recv, w.pc = .fwdTest next recv ∧ w.key = ackKey ∧ recv.header.sequenceNum = w.seq := by
  unfold Worker.tests at h
  split at h
  · rename_i b recv hpc
    simp only [Bool.and_eq_true, decide_eq_true_eq] at h
    obtain ⟨⟨rfl, hkey⟩, hseq⟩ := h
    exact ⟨recv, hpc, hkey, hseq⟩
  · cases h

/-- The chain of two hops: the process at hop A, and the system. -/
theorem ack_reaches_record_chain :
    (∃ a a' mesg p, run (Agent.next hopA) Agent.init hopATest = some a ∧
      a.step hopA (.workerStep 0) = some (a', [p]) ∧ p.dst = mainSock hopB ∧
      Acknowledges mesg p) ∧
    ∃ s : System chainScenario, run System.step (System.init chainScenario) chainRun = some s ∧
      .leaveAcked ackKey 100 (some (ackPacket ⟨hopA, chainPort⟩ hopB)) ∈ (s.agents hopA).log ∧
      ReachesRecord s hopB ackKey 100 (ackPacket ⟨hopA, chainPort⟩ hopB) := by
  constructor
  · have hrun : ((run (Agent.next hopA) Agent.init hopATest).any fun a =>
        a.alive && a.updateAck && a.workers[0]?.any fun w => w.tests hopB) = true := by
      decide +kernel
    obtain ⟨a, ha, hend⟩ := (Option.any_eq_true _ _).mp hrun
    simp only [Bool.and_eq_true, Option.any_eq_true] at hend
    obtain ⟨⟨halive, hflag⟩, w, hw, htests⟩ := hend
    obtain ⟨recv, hpc, hkey, hseq⟩ := Worker.of_tests htests
    obtain ⟨mesg, a', p, -, hstep, hdst, hiff⟩ := (ack_reaches_record_iff hopA).1 Agent.init a rfl
      ⟨hopATest, ha⟩ halive hflag 0 w hopB recv hw hpc
    exact ⟨a, a', mesg, p, ha, hstep, hdst, hiff.mpr ⟨hkey, hseq⟩⟩
  · obtain ⟨s, hs, hleft⟩ := chainRun_leaveAcked
    obtain ⟨u, i, next, -, -, -, -, hdst, hiff⟩ := (ack_reaches_record_iff hopA).2
      chainScenario _ s System.idle_init ⟨chainRun, hs⟩ _ _ _ hleft
    have hnext : hopB = next := congrArg SockAddr.addr hdst
    exact ⟨s, hs, hleft, hnext ▸ hiff.mpr rfl⟩

def otherKey : FlowKey := ⟨inetAton 10 0 0 1, inetAton 10 0 0 5, 1, 2⟩
def otherSock : SockAddr := ⟨inetAton 128 112 93 106, 5001⟩

/-- Two updates: one of `ackKey` with the single hop A, one of another flow with
    the hops A and B. -/
def overlapUpdate (u : Fin 2) : Update where
  key := if u = 0 then ackKey else otherKey
  seq := 100
  hops := if u = 0 then [hopA] else [hopA, hopB]
  positive := positive_100
  nonempty := by split <;> simp
  nodup := by split <;> decide

def overlapScenario : Scenario where
  n := 2
  update := overlapUpdate
  sock := fun u => if u = 0 then chainSock else otherSock
  own := by decide +kernel
  sock_inj := by decide +kernel
  sock_port := by decide +kernel

def overlapIndex (i : Fin 2) : Fin overlapScenario.n := i

/-- The SYN-ACK of the other flow waits for its worker at hop A, while the update
    of `ackKey` runs to the ACK that sets the flag of hop A. -/
def overlapRun : List (SysAct overlapScenario.n) := List.flatten
  [[.notify (overlapIndex 1), .mainRecv hopA (synPacket otherKey otherSock hopA [hopA, hopB]) 0,
      .workerStart hopA 0 chainPort,
      .mainRecv hopB (synPacket otherKey ⟨hopA, chainPort⟩ hopB [hopB]) 0,
      .workerStart hopB 0 chainPort],
    List.replicate 4 (.workerStep hopB 0),
    [.notify (overlapIndex 0), .mainRecv hopA (synPacket ackKey chainSock hopA [hopA]) 0,
      .workerStart hopA 1 chainPort],
    List.replicate 4 (.workerStep hopA 1),
    [.notifyRecv (overlapIndex 0) (synAckPacket ackKey hopA chainSock) 0,
      .mainRecv hopA (ackPacket chainSock hopA) 0],
    List.replicate 3 (.mainStep hopA),
    [.workerRecv hopA 0 (synAckPacket otherKey hopB ⟨hopA, chainPort⟩) 0],
    List.replicate 2 (.workerStep hopA 0)]

theorem ack_misses_record :
    ¬ ∀ (sc : Scenario) (s₀ s : System sc), s₀.Idle → Reachable System.step s₀ s →
      ∀ a k q p next, .leaveAcked k q (some p) ∈ (s.agents a).log → p.dst = mainSock next →
        ReachesRecord s next k q p := by
  intro h
  have hrun : ((run System.step (System.init overlapScenario) overlapRun).any fun s =>
      .leaveAcked otherKey 100 (some (ackPacket ⟨hopA, chainPort⟩ hopB)) ∈
        (s.agents hopA).log) = true := by
    decide +kernel
  obtain ⟨s, hs, hmem⟩ := (Option.any_eq_true _ _).mp hrun
  have hreach := h overlapScenario _ s System.idle_init ⟨overlapRun, hs⟩ _ _ _ _ hopB
    (of_decide_eq_true hmem) rfl
  exact absurd (hreach 0).1 (by decide +kernel)

/-! ### Whether the ACK arrives -/

/-- The main loop at `b` has accepted the ACK `(k, q)`: it has handed "ACK" to
    its kernel, or is in the iteration that does. -/
def AckTaken (s : System sc) (b : Addr) (k : FlowKey) (q : BitVec 32) : Prop :=
  .sendNetlink "ACK" k q ∈ (s.agents b).log ∨
    ((s.agents b).alive = true ∧ (s.agents b).main.acking = some (k, q))

abbrev AckAmong (ps : List Packet) (b : Addr) (q : BitVec 32) : Prop :=
  Among ps (mainSock b) (ackBytes q)

/-- What can have become of an ACK that was sent to the main loop at `b`. -/
def AckOutcome (s : System sc) (b : Addr) (q : BitVec 32) : Prop :=
  AckAmong s.net b q ∨ AckTaken s b ackKey q ∨ AckAmong s.lost b q

section AgentSteps

variable {self : Addr} {a a' : Agent} {act : Act} {ps : List Packet} {k : FlowKey}
  {q : BitVec 32}

/-- An iteration that accepted an ACK goes on until "ACK" is with the kernel. -/
theorem Agent.Step.acking (h : Agent.Step self a act a' ps)
    (hdef : ∀ w ∈ a.workers, handleUpdate w.request.buf w.request.n ≠ .undefined)
    (halive : a.alive = true) (hk : a.main.acking = some (k, q)) :
    .sendNetlink "ACK" k q ∈ a'.log ∨ (a'.alive = true ∧ a'.main.acking = some (k, q)) := by
  have hrecv : a.main ≠ .recv := by
    intro hmain
    rw [hmain] at hk
    cases hk
  cases h with
  | syn d hmain | ack d hmain | nullDeref d hmain | skip d hmain => exact absurd hmain hrecv
  | exit hmain => exact absurd hmain hrecv
  | lockAck k' q' hmain | setAck k' q' hmain | unlockAck k' q' hmain =>
    rw [hmain] at hk
    exact Or.inr ⟨halive, hk⟩
  | netlinkAck k' q' hmain =>
    rw [hmain] at hk
    cases hk
    exact Or.inl List.mem_cons_self
  | undefined i w port hw hpc hh => exact absurd hh (hdef w (List.mem_of_getElem? hw))
  | worker => exact Or.inr ⟨halive, hk⟩

theorem Agent.Step.acceptAck {d : Datagram} (h : Agent.Step self a (.mainRecv d) a' ps)
    (halive : a.alive = true) (hd : dispatch a.records d.header = .ack) :
    a'.alive = true ∧ a'.main.acking = some (d.header.key, d.header.sequenceNum) := by
  cases h with
  | ack => exact ⟨halive, rfl⟩
  | syn _ _ hd' | nullDeref _ _ hd' =>
    rw [hd] at hd'
    cases hd'
  | skip _ _ hd' =>
    rw [hd] at hd'
    simp at hd'
  | worker i w _ e hw hm => cases hm

end AgentSteps

/-- With a single update, the record of every hop that accepted it holds its
    number, and every ACK that was sent is accounted for. -/
structure DeliveryInv (s : System sc) : Prop where
  stored : ∀ a u, .addItem (sc.update u).key (sc.update u).seq ∈ (s.agents a).log →
    storedSeq (s.agents a).records (sc.update u).key = some (sc.update u).seq
  left : ∀ a k q p, .leaveAcked k q (some p) ∈ (s.agents a).log →
    ∃ b, p.dst = mainSock b ∧ AckOutcome s b q

theorem DeliveryInv.init {s : System sc} (h : s.Idle) : DeliveryInv s where
  stored := by intro a u hmem; rw [(h.agents a).log] at hmem; cases hmem
  left := by intro a k q p hmem; rw [(h.agents a).log] at hmem; cases hmem

section OneUpdate

variable (hone : ∀ u v : Fin sc.n, u = v) (hkey : ∀ u, (sc.update u).key = ackKey)
include hone hkey

omit hone in
/-- The ACK of the update, received by the main loop at `b` that has accepted
    the SYN, is taken up. -/
theorem DeliveryInv.take {s : System sc} (hinv : DeliveryInv s) {b : Addr} {u : Fin sc.n}
    (hacc : Accepted s u b) {p : Packet} (old : Nat → Byte)
    (hpay : p.payload = ackBytes (sc.update u).seq) {a' : Agent} {ps : List Packet}
    (halive : (s.agents b).alive = true)
    (hstep : Agent.Step b (s.agents b) (.mainRecv (recvfrom p old)) a' ps) :
    a'.alive = true ∧ a'.main.acking = some (ackKey, (sc.update u).seq) := by
  have hheader : (recvfrom p old).header = Header.mk' 6 (sc.update u).seq ackKey :=
    recvfrom_header old hpay (by simp [hpay])
  have hstored := hinv.stored b u hacc.1
  rw [hkey] at hstored
  have hack : dispatch (s.agents b).records (recvfrom p old).header = .ack := by
    rw [dispatch_eq_ack, hheader, Header.action_mk', Header.key_mk', Header.sequenceNum_mk']
    exact ⟨rfl, hstored⟩
  have := hstep.acceptAck halive hack
  rwa [hheader] at this

omit hone in
theorem DeliveryInv.outcome {s s₁ : System sc} (hs : NetInv s) (hinv : DeliveryInv s) {c : Addr}
    {act : SysAct sc.n} {act' : Act} {a' : Agent} {ps : List Packet}
    (hfeeds : s.Feeds c act act' s₁) (halive : (s.agents c).alive = true)
    (hstep : Agent.Step c (s.agents c) act' a' ps) {b : Addr} {u : Fin sc.n}
    (hacc : Accepted s u b) (h : AckOutcome s b (sc.update u).seq) :
    AckOutcome (s₁.put c a' ps) b (sc.update u).seq := by
  rcases h with hnet | htaken | hlost
  · -- in flight: only the main loop at `b` can receive it
    rcases hs.among_feeds hfeeds hnet with hnet | ⟨rfl, p, old, rfl, hpay⟩
    · exact Or.inl (hnet.mono (List.subset_append_right _ _))
    · refine Or.inr (Or.inl (Or.inr ?_))
      rw [System.agents_put_self]
      exact hinv.take hkey hacc old hpay halive hstep
  · refine Or.inr (Or.inl ?_)
    unfold AckTaken at htaken ⊢
    by_cases hcb : b = c
    · subst hcb
      rw [System.agents_put_self]
      rcases htaken with hlog | ⟨-, hk⟩
      · exact Or.inl (hstep.log_subset hlog)
      · exact hstep.acking (hs.defined b) halive hk
    · rwa [hfeeds.agents_put hcb]
  · refine Or.inr (Or.inr ?_)
    have : (s₁.put c a' ps).lost = s.lost := by cases hfeeds <;> rfl
    rwa [this]

omit hone hkey in
/-- The step with which a worker leaves as acknowledged sends the ACK. -/
theorem NetInv.left_mem {s : System sc} (hs : NetInv s) {c : Addr} {act' : Act} {a' : Agent}
    {ps : List Packet} (hstep : Agent.Step c (s.agents c) act' a' ps) {k : FlowKey}
    {q : BitVec 32} {p : Packet} (hmem : .leaveAcked k q (some p) ∈ a'.log) :
    .leaveAcked k q (some p) ∈ (s.agents c).log ∨
      p ∈ ps ∧ (∃ b, p.dst = mainSock b) ∧ p.payload = ackBytes q := by
  cases hstep with
  | worker i w _ e hw hm =>
    rcases List.mem_append.mp hmem with hnew | hmem
    · cases hm with
      | fwdAcked next recv sent hpc hflag hsent =>
        simp only [List.mem_cons, Event.leaveAcked.injEq, Option.some.injEq, reduceCtorEq,
          List.not_mem_nil, or_false] at hnew
        obtain ⟨rfl, rfl, rfl⟩ := hnew
        obtain ⟨u, j, hok⟩ := hs.workers c w (List.mem_of_getElem? hw)
        have hpcok := hok.pc
        rw [hpc] at hpcok
        have hseq : recv.header.sequenceNum = w.seq := by
          have hupd := hok.update
          rw [Worker.update, Prod.mk.injEq] at hupd
          rw [hpcok.2.1.header, hupd.2]
          rfl
        refine Or.inr ⟨List.mem_singleton_self p, ⟨next, by rw [hsent]⟩, ?_⟩
        rw [hsent, hseq]
      | _ => simp at hnew
    · exact Or.inl hmem
  | syn => exact Or.inl (by simpa [synEvents] using hmem)
  | setAck | netlinkAck => exact Or.inl (by simpa using hmem)
  | _ => exact Or.inl hmem

omit hkey in
theorem DeliveryInv.stored_agent {s s₁ : System sc} (hs : NetInv s) (hinv : DeliveryInv s)
    {c : Addr} {act : SysAct sc.n} {act' : Act} {a' : Agent} {ps : List Packet}
    (hfeeds : s.Feeds c act act' s₁) (hstep : Agent.Step c (s.agents c) act' a' ps)
    {u : Fin sc.n} (hmem : .addItem (sc.update u).key (sc.update u).seq ∈ a'.log) :
    storedSeq a'.records (sc.update u).key = some (sc.update u).seq := by
  rcases hstep.records with ⟨heq, hlog⟩ | ⟨d, rfl, hd, heq, -⟩
  · rw [heq]
    exact hinv.stored c u (hlog _ _ hmem)
  · cases hfeeds with
    | mainRecv p old hp hdst =>
      obtain ⟨v, m, hsyn⟩ := hs.acceptSyn hp hdst (dispatch_eq_syn.mp hd).1
      rw [heq, storedSeq_addItem, hsyn.header, Header.key_mk', Header.sequenceNum_mk', hone v u,
        if_pos rfl]

theorem DeliveryInv.agent {s s₁ : System sc} (hs : NetInv s) (hinv : DeliveryInv s) {c : Addr}
    {act : SysAct sc.n} {act' : Act} {a' : Agent} {ps : List Packet}
    (hfeeds : s.Feeds c act act' s₁) (halive : (s.agents c).alive = true)
    (hstep : Agent.Step c (s.agents c) act' a' ps) : DeliveryInv (s₁.put c a' ps) := by
  have hleft : ∀ a k q p, .leaveAcked k q (some p) ∈ (s.agents a).log →
      ∃ b, p.dst = mainSock b ∧ AckOutcome (s₁.put c a' ps) b q := by
    intro a k q p hmem
    obtain ⟨b, hdst, hout⟩ := hinv.left a k q p hmem
    obtain ⟨u, j, next, -, rfl, -, hnext, hdst', -, hall⟩ := hs.left a k q p hmem
    have hb : b = next := by
      have := hdst.symm.trans hdst'
      rw [mainSock, mainSock, SockAddr.mk.injEq] at this
      exact this.1
    subst hb
    exact ⟨b, hdst, hinv.outcome hkey hs hfeeds halive hstep
      (hall b (List.mem_of_getElem? hnext)) hout⟩
  constructor
  · intro a u hmem
    by_cases ha : a = c
    · subst ha
      rw [System.agents_put_self] at hmem ⊢
      exact hinv.stored_agent hone hs hfeeds hstep hmem
    · rw [hfeeds.agents_put ha] at hmem ⊢
      exact hinv.stored a u hmem
  · intro a k q p hmem
    by_cases ha : a = c
    · subst ha
      rw [System.agents_put_self] at hmem
      rcases hs.left_mem hstep hmem with hmem | ⟨hp, ⟨b, hdst⟩, hpay⟩
      · exact hleft a k q p hmem
      · refine ⟨b, hdst, Or.inl ⟨p, ?_, hdst, hpay⟩⟩
        rw [System.net_put]
        exact List.mem_append_left _ hp
    · rw [hfeeds.agents_put ha] at hmem
      exact hleft a k q p hmem

omit hone hkey in
theorem DeliveryInv.of_agents {s s' : System sc} (hinv : DeliveryInv s)
    (hagents : s'.agents = s.agents)
    (hout : ∀ b q, AckOutcome s b q → AckOutcome s' b q) : DeliveryInv s' where
  stored := by rw [hagents]; exact hinv.stored
  left := by
    intro a k q p hmem
    rw [hagents] at hmem
    obtain ⟨b, hdst, h⟩ := hinv.left a k q p hmem
    exact ⟨b, hdst, hout b q h⟩

theorem DeliveryInv.step {s s' : System sc} {act : SysAct sc.n} (hs : NetInv s)
    (hinv : DeliveryInv s) (hstep : System.Step s act s') : DeliveryInv s' := by
  cases hstep with
  | notify u hpc =>
    refine hinv.of_agents rfl fun b q h => ?_
    exact h.imp (fun h => h.mono (List.subset_cons_self _ _)) id
  | notifyRecv u p old hpc hp hdst =>
    refine hinv.of_agents rfl fun b q h => ?_
    refine h.imp (fun h => ?_) id
    have hne : p.dst ≠ mainSock b := by
      rw [hdst]
      intro hmain
      exact sc.sock_port u (by rw [hmain]; rfl)
    exact (h.erase fun hthis => hne hthis.1).mono (List.subset_append_right _ _)
  | agent b _ act' s₁ a' ps hfeeds halive hstep =>
    exact hinv.agent hone hkey hs hfeeds halive hstep
  | lose p hp =>
    refine hinv.of_agents rfl fun b q h => ?_
    rcases h with hnet | htaken | hlost
    · by_cases hthis : p.dst = mainSock b ∧ p.payload = ackBytes q
      · exact Or.inr (Or.inr ⟨p, List.mem_cons_self, hthis.1, hthis.2⟩)
      · exact Or.inl (hnet.erase hthis)
    · exact Or.inr (Or.inl htaken)
    · exact Or.inr (Or.inr (hlost.mono (List.subset_cons_self _ _)))
  | duplicate p hp =>
    refine hinv.of_agents rfl fun b q h => ?_
    exact h.imp (fun h => h.mono (List.subset_cons_self _ _)) id

/-- **One update of the flow key of `settingAck`.**  When the worker of a hop
    has left its loop as acknowledged, the ACK to the next hop is in flight, or
    the main loop there has taken it up, or the network has lost it. -/
theorem ack_accounted {s₀ s : System sc} (h₀ : s₀.Idle) (h : Reachable System.step s₀ s)
    {u : Fin sc.n} {i : Nat} {a b : Addr} (ha : (sc.update u).hops[i]? = some a)
    (hb : (sc.update u).hops[i + 1]? = some b) {p : Packet}
    (hleft : .leaveAcked ackKey (sc.update u).seq (some p) ∈ (s.agents a).log) :
    AckOutcome s b (sc.update u).seq := by
  have hinv : DeliveryInv s := by
    apply h.invariant (DeliveryInv.init h₀)
    intro x act x' hreach hx hstep
    exact hx.step hone hkey (NetInv.reachable h₀ hreach) (System.step_sound hstep)
  obtain ⟨c, hdst, hout⟩ := hinv.left a _ _ p hleft
  obtain ⟨v, j, next, -, -, ha', hnext, hdst', -⟩ := (NetInv.reachable h₀ h).left a _ _ p hleft
  have hvu : v = u := hone v u
  subst hvu
  -- the addresses of the chain are distinct
  have hji : j = i := (sc.update v).index_unique ha' ha
  subst hji
  have hbn : b = next := Option.some.inj (hb.symm.trans hnext)
  have hcn : c = next := by
    have := hdst.symm.trans hdst'
    rw [mainSock, mainSock, SockAddr.mk.injEq] at this
    exact this.1
  rw [hbn, ← hcn]
  exact hout

end OneUpdate

theorem ack_accounted_chain :
    ∃ s : System chainScenario, run System.step (System.init chainScenario) chainRun = some s ∧
      .leaveAcked ackKey 100 (some (ackPacket ⟨hopA, chainPort⟩ hopB)) ∈ (s.agents hopA).log ∧
      AckOutcome s hopB (chainScenario.update chainOnly).seq := by
  obtain ⟨s, hs, hleft⟩ := chainRun_leaveAcked
  exact ⟨s, hs, hleft, ack_accounted chainScenario_one (fun _ => rfl) System.idle_init
    ⟨chainRun, hs⟩ (u := chainOnly) (i := 0) rfl rfl hleft⟩

/-- The network loses the one ACK from hop A to hop B. -/
def lostAckChainRun : List (SysAct chainScenario.n) :=
  List.append chainRun [.lose (ackPacket ⟨hopA, chainPort⟩ hopB)]

/-- Hop A is through and hop B will never hear of it.  The ACK must not be looked
    for in the log of hop B alone: while its main loop is between the `recvfrom`
    and "ACK", it is neither in flight nor handed to the kernel (`AckTaken`). -/
theorem partial_activation :
    ¬ ∀ (sc : Scenario) (s₀ s : System sc), (∀ u v : Fin sc.n, u = v) →
      (∀ u, (sc.update u).key = ackKey) → s₀.Idle → Reachable System.step s₀ s →
      ∀ u i a b p, (sc.update u).hops[i]? = some a → (sc.update u).hops[i + 1]? = some b →
        .leaveAcked ackKey (sc.update u).seq (some p) ∈ (s.agents a).log →
        AckAmong s.net b (sc.update u).seq ∨
          .sendNetlink "ACK" ackKey (sc.update u).seq ∈ (s.agents b).log := by
  intro h
  have hrun : ((run System.step (System.init chainScenario) lostAckChainRun).any fun s =>
      .leaveAcked ackKey 100 (some (ackPacket ⟨hopA, chainPort⟩ hopB)) ∈ (s.agents hopA).log ∧
        (∀ p ∈ s.net, p.payload ≠ ackBytes 100) ∧
        .sendNetlink "ACK" ackKey 100 ∉ (s.agents hopB).log) = true := by
    decide +kernel
  obtain ⟨s, hs, hmem⟩ := (Option.any_eq_true _ _).mp hrun
  obtain ⟨hleft, hnet, hlog⟩ := of_decide_eq_true hmem
  rcases h chainScenario _ s chainScenario_one (fun _ => rfl) System.idle_init
    ⟨lostAckChainRun, hs⟩ chainOnly 0 hopA hopB _ rfl rfl hleft with ⟨p, hp, -, hpay⟩ | hack
  · exact hnet p hp hpay
  · exact hlog hack

end MiddleboxSession
