/-
  MiddleboxSession/Emulator/Release.lean
  ======================================
  **What releases a worker from its loop.**

  The loops of `sendForward` and `sendBack` look at `acked` of the sender's
  record and not at its sequence number, so two updates of one flow that
  overlap in time share the bit: the ACK of the newer one releases both
  workers, and the SYN of the newer one takes away an ACK that the older worker
  has not seen yet.  `KeepsApart` is the condition on the main loop under which
  neither happens, and it is exact for what the bit says of the workers
  (`released_iff`).

  Each call of `findItem` and of `addItem` is one step, as in all of this model.
  serverUDP.c has no lock between its main loop and the workers, so nothing is
  said here of a poll that walks a bucket while the `addItem` of another flow
  moves the items of the table to twice as many buckets.
-/
import MiddleboxSession.Runs
import MiddleboxSession.Bounds

namespace MiddleboxSession.Emulator

open CBuffer Runs

/-! ### Workers that are going to poll -/

def Worker.seq (w : Worker) : BitVec 32 := w.request.header.sequenceNum

/-- The loop of `sendForward` or `sendBack`. -/
def WorkerPc.waits : WorkerPc → Bool
  | .send .. | .poll .. => true
  | .start | .ignored | .recv _ | .done => false

def WorkerPc.polls : WorkerPc → Bool
  | .poll .. => true
  | .start | .ignored | .recv _ | .send .. | .done => false

def Handled.enters : Handled → Bool
  | .forward .. | .back _ => true
  | .ignored | .undefined => false

/-- The worker is in its loop or may still get there. -/
def Worker.mayPoll (w : Worker) : Bool :=
  match w.pc with
  | .start => (handleRequest w.request.buf w.request.n 0).enters
  | .recv _ | .send .. | .poll .. => true
  | .ignored | .done => false

/-- Which branch `handleRequest` takes does not depend on `hashport`. -/
theorem enters_handleRequest (d : Datagram) (hashport hashport' : BitVec 32) :
    (handleRequest d.buf d.n hashport).enters = (handleRequest d.buf d.n hashport').enters := by
  have hresponse : (responseMesg d.buf d.n hashport).isSome =
      (responseMesg d.buf d.n hashport').isSome :=
    Bool.eq_iff_iff.mpr ((responseMesg_isSome d.size_buf hashport).trans
      (responseMesg_isSome d.size_buf hashport').symm)
  unfold handleRequest
  dsimp only
  split
  · rfl
  split
  · rfl
  revert hresponse
  rcases responseMesg d.buf d.n hashport with _ | _ <;>
    rcases responseMesg d.buf d.n hashport' with _ | _ <;> simp [Handled.enters]

/-! ### The flow record of a worker -/

section Acked

variable {self : SockAddr} {a a' : Server} {d request : Datagram}

theorem Server.acked_syn {s : BitVec 32}
    (h : a'.records = addItem a.records (peerKey self d.src) s) :
    a'.acked self request = (a.acked self request && d.src ≠ request.src) := by
  unfold acked
  rw [h, findItem_addItem]
  by_cases hsrc : d.src = request.src
  · simp [hsrc]
  · rw [if_neg fun hk => hsrc (peerKey_injective self hk)]
    simp [hsrc]

theorem Server.acked_ack {r : Flow} (hr : findItem a.records (peerKey self d.src) = some r)
    (h : a'.records = setAcked a.records (peerKey self d.src)) :
    a'.acked self request = (a.acked self request || d.src = request.src) := by
  unfold acked
  rw [h, findItem_setAcked hr]
  by_cases hsrc : d.src = request.src
  · simp [hsrc]
  · rw [if_neg fun hk => hsrc (peerKey_injective self hk)]
    simp [hsrc]

theorem Server.acked_congr (h : a'.records = a.records) :
    a'.acked self request = a.acked self request := by
  rw [acked, h, acked]

end Acked

/-! ### Releases that are owed -/

/-- An ACK from `src` with number `s`. -/
def Event.acks (src : SockAddr) (s : BitVec 32) : Event → Bool
  | .ack d => d.src = src ∧ d.header.sequenceNum = s
  | .syn _ | .leaveAcked _ | .leaveTimeout _ => false

/-- The main loop has accepted an ACK for the update of the worker. -/
def OwnAck (log : List Event) (request : Datagram) : Prop :=
  ∃ e ∈ log, e.acks request.src request.header.sequenceNum = true

instance (log : List Event) (request : Datagram) : Decidable (OwnAck log request) :=
  inferInstanceAs (Decidable (∃ e ∈ log, e.acks request.src request.header.sequenceNum = true))

/-- A process, and the workers whose ACK was accepted while they were in their
    loop and that have not polled since. -/
structure Watch where
  server : Server
  owed : List Nat

def Watch.init : Watch := ⟨Server.init, []⟩

section Steps

variable (self : SockAddr) (destPort : BitVec 16)

def Server.branch (a : Server) (d : Datagram) : Branch :=
  dispatch (findItem a.records (peerKey self d.src)) d.header

/-- The workers in their loop that an ACK is for. -/
def Server.waitingFor (a : Server) (d : Datagram) : List Nat :=
  (List.range a.workers.length).filter fun i => a.workers[i]?.any fun w =>
    w.pc.waits && w.request.src = d.src && w.seq = d.header.sequenceNum

def Server.polls (a : Server) (i : Nat) : Bool := a.workers[i]?.any fun w => w.pc.polls

def Watch.owedAfter (x : Watch) : Act → List Nat
  | .mainRecv d =>
    if x.server.branch self d = .ack then x.server.waitingFor d ++ x.owed else x.owed
  | .workerStep i _ => if x.server.polls i then x.owed.filter (· ≠ i) else x.owed
  | .mainExit | .workerStart .. | .workerRecv .. => x.owed

def Watch.step (x : Watch) (act : Act) : Option Watch :=
  (x.server.step self destPort act).map fun r => ⟨r.1, x.owedAfter self act⟩

/-- A worker left as acknowledged after an ACK of its own. -/
def AckedBefore : Event → List Event → Prop
  | .leaveAcked request, past => OwnAck past request
  | .syn _, _ | .ack _, _ | .leaveTimeout _, _ => True

instance : ∀ e past, Decidable (AckedBefore e past)
  | .leaveAcked request, past => inferInstanceAs (Decidable (OwnAck past request))
  | .syn _, _ | .ack _, _ | .leaveTimeout _, _ => isTrue trivial

/-- Whoever would leave as acknowledged if it polled now has had its ACK, and
    whoever is owed a release would leave. -/
structure Released (here : SockAddr) (x : Watch) : Prop where
  only : ∀ w ∈ x.server.workers, w.mayPoll = true → x.server.acked here w.request = true →
    OwnAck x.server.log w.request
  owed : ∀ i ∈ x.owed, ∃ w ∈ x.server.workers[i]?, x.server.acked here w.request = true
  left : Always AckedBefore x.server.log

/-- The main loop accepts an ACK only while every worker of the flow that may
    still poll has an ACK, this one included, and a SYN only while no worker of
    the flow is owed a release. -/
def KeepsApart (x : Watch) : Act → Prop
  | .mainRecv d =>
    (x.server.branch self d = .ack → ∀ w ∈ x.server.workers, w.request.src = d.src →
      w.mayPoll = true → w.seq = d.header.sequenceNum ∨ OwnAck x.server.log w.request) ∧
    (x.server.branch self d = .syn → ∀ i ∈ x.owed, ∀ w ∈ x.server.workers[i]?,
      w.request.src ≠ d.src)
  | .mainExit | .workerStart .. | .workerRecv .. | .workerStep .. => True

/-- A worker that is owed a release leaves as acknowledged when it polls. -/
def LeavesNext (x : Watch) : Act → Prop
  | .workerStep i old => i ∈ x.owed → x.server.polls i = true →
      ∀ r ∈ x.server.step self destPort (.workerStep i old),
        ∃ w ∈ x.server.workers[i]?, r.1.log = .leaveAcked w.request :: x.server.log
  | .mainRecv _ | .mainExit | .workerStart .. | .workerRecv .. => True

instance (x : Watch) : ∀ act, Decidable (KeepsApart self x act)
  | .mainRecv d => inferInstanceAs (Decidable ((x.server.branch self d = .ack →
      ∀ w ∈ x.server.workers, w.request.src = d.src → w.mayPoll = true →
        w.seq = d.header.sequenceNum ∨ OwnAck x.server.log w.request) ∧
      (x.server.branch self d = .syn → ∀ i ∈ x.owed, ∀ w ∈ x.server.workers[i]?,
        w.request.src ≠ d.src)))
  | .mainExit | .workerStart .. | .workerRecv .. | .workerStep .. => isTrue trivial

variable {self destPort}

/-! ### What the condition keeps -/

theorem WorkerMove.mayPoll {a : Server} {i : Nat} {w : Worker} {act : Act} {e : Effect}
    (h : WorkerMove self destPort a i w act e) (he : e.worker.mayPoll = true) :
    w.mayPoll = true := by
  cases h with
  | ignore sock hpc hh => cases he
  | forward sock next mesg hpc hh =>
    simp only [Worker.mayPoll, hpc]
    rw [enters_handleRequest w.request 0 a.hashport, hh]
    rfl
  | back sock response hpc hh =>
    simp only [Worker.mayPoll, hpc]
    rw [enters_handleRequest w.request 0 a.hashport, hh]
    rfl
  | recv next d hpc => simp [Worker.mayPoll, hpc]
  | send l count old sent hpc => simp [Worker.mayPoll, hpc]
  | acked l count old hpc => simp [Worker.mayPoll, hpc]
  | timeout l count old hpc => simp [Worker.mayPoll, hpc]
  | again l count old hpc => simp [Worker.mayPoll, hpc]

theorem OwnAck.mono {log log' : List Event} {request : Datagram} (h : OwnAck log request)
    (hsub : log ⊆ log') : OwnAck log' request := by
  obtain ⟨e, he, hacks⟩ := h
  exact ⟨e, hsub he, hacks⟩

theorem Released.init : Released self Watch.init where
  only := fun _ hw => absurd hw List.not_mem_nil
  owed := fun _ hi => absurd hi List.not_mem_nil
  left := always_nil _

theorem Watch.owedAfter_subset {x : Watch} {act : Act} (h : ∀ d, act ≠ .mainRecv d) :
    x.owedAfter self act ⊆ x.owed := by
  intro i hi
  unfold owedAfter at hi
  split at hi
  · exact absurd rfl (h _)
  · split at hi
    · exact (List.mem_filter.mp hi).1
    · exact hi
  all_goals exact hi

/-- A step of a worker leaves the table alone, and a worker that finds its
    record acked is one that may poll. -/
theorem Released.worker {x : Watch} (h : Released self x) {i : Nat} {w : Worker} {act : Act}
    {e : Effect} (hw : x.server.workers[i]? = some w)
    (hm : WorkerMove self destPort x.server i w act e) :
    Released self ⟨x.server.apply i e, x.owedAfter self act⟩ := by
  have hacked : ∀ request,
      (x.server.apply i e).acked self request = x.server.acked self request :=
    fun _ => Server.acked_congr rfl
  have hmem := List.mem_of_getElem? hw
  have hlog : x.server.log ⊆ (x.server.apply i e).log := List.subset_append_right _ _
  refine ⟨?_, ?_, ?_⟩
  · intro v hv hmay hflag
    rw [hacked] at hflag
    rcases List.mem_or_eq_of_mem_set hv with hv | rfl
    · exact (h.only v hv hmay hflag).mono hlog
    · rw [hm.request] at hflag ⊢
      exact (h.only w hmem (hm.mayPoll hmay) hflag).mono hlog
  · intro j hj
    have hne : ∀ d, act ≠ .mainRecv d := by
      intro d
      cases hm <;> simp
    obtain ⟨v, hv, hflag⟩ := h.owed j (Watch.owedAfter_subset hne hj)
    by_cases hij : i = j
    · subst hij
      obtain ⟨hi, -⟩ := List.getElem?_eq_some_iff.mp hw
      obtain rfl : v = w := Option.some.inj ((Option.mem_def.mp hv).symm.trans hw)
      refine ⟨e.worker, ?_, ?_⟩
      · rw [Server.apply, List.getElem?_set_self hi]
        rfl
      · rw [hacked, hm.request]
        exact hflag
    · refine ⟨v, ?_, ?_⟩
      · rw [Server.apply, List.getElem?_set_ne hij]
        exact hv
      · rw [hacked]
        exact hflag
  · cases hm with
    | acked l count old hpc hflag =>
      refine always_cons.mpr ⟨?_, h.left⟩
      exact h.only w hmem (by simp [Worker.mayPoll, hpc]) hflag
    | timeout => exact always_cons.mpr ⟨trivial, h.left⟩
    | _ => exact h.left

/-- An accepted SYN clears the bit of its flow, and nobody was owed it. -/
theorem Released.syn {x : Watch} (h : Released self x) {d : Datagram} {a' : Server}
    (hrecords : a'.records =
      addItem x.server.records (peerKey self d.src) d.header.sequenceNum)
    (hworkers : a'.workers = x.server.workers ++ [{ request := d, sock := none, pc := .start }])
    (hlog : a'.log = .syn d :: x.server.log)
    (hG : ∀ i ∈ x.owed, ∀ w ∈ x.server.workers[i]?, w.request.src ≠ d.src) :
    Released self ⟨a', x.owed⟩ := by
  refine ⟨?_, ?_, ?_⟩
  · intro v hv hmay hflag
    simp only [Server.acked_syn hrecords, ne_eq, decide_not, Bool.and_eq_true, Bool.not_eq_true',
      decide_eq_false_iff_not] at hflag
    simp only [hworkers, List.mem_append, List.mem_singleton] at hv
    rcases hv with hv | rfl
    · dsimp only
      rw [hlog]
      exact (h.only v hv hmay hflag.1).mono (List.subset_cons_self _ _)
    · exact absurd rfl hflag.2
  · intro i hi
    obtain ⟨v, hv, hflag⟩ := h.owed i hi
    refine ⟨v, ?_, ?_⟩
    · obtain ⟨hlt, -⟩ := List.getElem?_eq_some_iff.mp hv
      dsimp only
      rw [hworkers, List.getElem?_append_left hlt]
      exact hv
    · have hsrc : d.src ≠ v.request.src := fun heq => hG i hi v hv heq.symm
      rw [Server.acked_syn hrecords, hflag]
      simpa using hsrc
  · dsimp only
    rw [hlog]
    exact always_cons.mpr ⟨trivial, h.left⟩

/-- An accepted ACK sets the bit of its flow, for workers that have an ACK. -/
theorem Released.ack {x : Watch} (h : Released self x) {d : Datagram} {a' : Server} {r : Flow}
    (hr : findItem x.server.records (peerKey self d.src) = some r)
    (hrecords : a'.records = setAcked x.server.records (peerKey self d.src))
    (hworkers : a'.workers = x.server.workers) (hlog : a'.log = .ack d :: x.server.log)
    (hG : ∀ w ∈ x.server.workers, w.request.src = d.src → w.mayPoll = true →
      w.seq = d.header.sequenceNum ∨ OwnAck x.server.log w.request) :
    Released self ⟨a', x.server.waitingFor d ++ x.owed⟩ := by
  have hset : ∀ w : Worker, x.server.acked self w.request = true ∨ d.src = w.request.src →
      a'.acked self w.request = true := by
    intro w hw
    rw [Server.acked_ack hr hrecords]
    simpa using hw
  refine ⟨?_, ?_, ?_⟩
  · intro v hv hmay hflag
    dsimp only at hv hflag ⊢
    rw [hworkers] at hv
    simp only [Server.acked_ack hr hrecords, Bool.or_eq_true, decide_eq_true_eq] at hflag
    rw [hlog]
    by_cases hsrc : d.src = v.request.src
    · rcases hG v hv hsrc.symm hmay with hseq | hown
      · exact ⟨.ack d, List.mem_cons_self, by simp [Event.acks, hsrc, ← hseq, Worker.seq]⟩
      · exact hown.mono (List.subset_cons_self _ _)
    · have hold := hflag.resolve_right hsrc
      exact (h.only v hv hmay hold).mono (List.subset_cons_self _ _)
  · intro i hi
    dsimp only at hi ⊢
    rw [hworkers]
    rcases List.mem_append.mp hi with hi | hi
    · obtain ⟨w, hw, hfor⟩ := (Option.any_eq_true _ _).mp (List.mem_filter.mp hi).2
      simp only [Bool.and_eq_true, decide_eq_true_eq] at hfor
      exact ⟨w, hw, hset w (Or.inr hfor.1.2.symm)⟩
    · obtain ⟨w, hw, hflag⟩ := h.owed i hi
      exact ⟨w, hw, hset w (Or.inl hflag)⟩
  · dsimp only
    rw [hlog]
    exact always_cons.mpr ⟨trivial, h.left⟩

/-- The branches of an iteration keep what they should under the condition. -/
theorem Released.mainRecv {x : Watch} (h : Released self x) {d : Datagram}
    (hG : KeepsApart self x (.mainRecv d)) :
    Released self ⟨x.server.mainRecv self d, x.owedAfter self (.mainRecv d)⟩ := by
  obtain ⟨hack, hsyn⟩ := hG
  by_cases hd : x.server.branch self d = .ack
  · obtain ⟨-, r, hr, -⟩ := dispatch_eq_ack.mp hd
    rw [Watch.owedAfter, if_pos hd, Server.mainRecv_of_ack hd]
    exact h.ack hr rfl rfl rfl (hack hd)
  · rw [Watch.owedAfter, if_neg hd]
    by_cases hd' : x.server.branch self d = .syn
    · rw [Server.mainRecv_of_syn hd']
      exact h.syn rfl rfl rfl (hsyn hd')
    · rw [Server.mainRecv_of_skip hd' hd]
      exact h

theorem Watch.step_eq_some {x x' : Watch} {act : Act} (h : x.step self destPort act = some x') :
    ∃ a' ps, x.server.step self destPort act = some (a', ps) ∧
      x' = ⟨a', x.owedAfter self act⟩ := by
  obtain ⟨⟨a', ps⟩, hstep, rfl⟩ := Option.map_eq_some_iff.mp h
  exact ⟨a', ps, hstep, rfl⟩

theorem Server.step_mainRecv {a a' : Server} {d : Datagram} {ps : List Packet}
    (h : a.step self destPort (.mainRecv d) = some (a', ps)) : a' = a.mainRecv self d := by
  unfold step at h
  split at h <;> cases h
  rfl

theorem Released.step {x x' : Watch} {act : Act} (h : Released self x)
    (hG : KeepsApart self x act) (hstep : x.step self destPort act = some x') :
    Released self x' := by
  obtain ⟨a', ps, hserver, rfl⟩ := Watch.step_eq_some hstep
  by_cases hmain : ∃ d, act = .mainRecv d
  · obtain ⟨d, rfl⟩ := hmain
    rw [Server.step_mainRecv hserver]
    exact h.mainRecv hG
  · obtain ⟨-, hs⟩ := Server.step_sound hserver
    have hne : ∀ d, act ≠ .mainRecv d := fun d hd => hmain ⟨d, hd⟩
    cases hs with
    | syn d | ack d | skip d => exact absurd rfl (hne d)
    | exit => exact ⟨h.only, h.owed, h.left⟩
    | worker i w _ e hw hm => exact h.worker hw hm
    | undefined => exact ⟨h.only, h.owed, h.left⟩

/-- A step of the main loop against the condition takes a release from a worker
    that is owed one, or offers one to a worker that has had no ACK. -/
theorem Released.broken {x x' : Watch} {act : Act} (hG : ¬ KeepsApart self x act)
    (hstep : x.step self destPort act = some x') : ¬ Released self x' := by
  obtain ⟨a', ps, hserver, rfl⟩ := Watch.step_eq_some hstep
  intro h
  cases act with
  | mainRecv d =>
    obtain rfl := Server.step_mainRecv hserver
    refine hG ⟨?_, ?_⟩
    · intro hd w hw hsrc hmay
      obtain ⟨-, r, hr, -⟩ := dispatch_eq_ack.mp hd
      rw [Server.mainRecv_of_ack hd] at h
      obtain ⟨e, he, hacks⟩ := h.only w hw hmay (by
        rw [Server.acked_ack (a := x.server) hr rfl]
        simp [hsrc])
      rcases List.mem_cons.mp he with rfl | he
      · simp only [Event.acks, decide_eq_true_eq] at hacks
        exact Or.inl hacks.2.symm
      · exact Or.inr ⟨e, he, hacks⟩
    · intro hd i hi w hw hsrc
      have hne : x.server.branch self d ≠ .ack := by
        rw [hd]
        simp
      rw [Server.mainRecv_of_syn hd, Watch.owedAfter, if_neg hne] at h
      obtain ⟨v, hv, hflag⟩ := h.owed i hi
      obtain ⟨hlt, -⟩ := List.getElem?_eq_some_iff.mp hw
      dsimp only at hv
      rw [List.getElem?_append_left hlt] at hv
      obtain rfl : v = w := Option.some.inj ((Option.mem_def.mp hv).symm.trans hw)
      rw [Server.acked_syn (a := x.server) (d := d) rfl] at hflag
      simp [hsrc] at hflag
  | mainExit | workerStart | workerRecv | workerStep => exact hG trivial

theorem Released.leavesNext {x : Watch} (h : Released self x) (act : Act) :
    LeavesNext self destPort x act := by
  cases act with
  | workerStep i old =>
    intro howed hpolls ⟨a', ps⟩ hstep
    obtain ⟨v, hv, hflag⟩ := h.owed i howed
    obtain ⟨-, hs⟩ := Server.step_sound (Option.mem_def.mp hstep)
    cases hs with
    | worker _ w _ e hw hm =>
      cases hm with
      | send l count _ sent hpc => simp [Server.polls, hw, hpc, WorkerPc.polls] at hpolls
      | acked => exact ⟨w, hw, rfl⟩
      | timeout l count _ hpc hacked | again l count _ hpc hacked =>
        obtain rfl : v = w := Option.some.inj ((Option.mem_def.mp hv).symm.trans hw)
        rw [hacked] at hflag
        cases hflag
  | mainRecv | mainExit | workerStart | workerRecv => exact trivial

/-- **What a worker is released by.**  In every run of the process, under any
    schedule, in which the main loop keeps the updates of a flow apart in every
    step: a worker leaves as acknowledged only after an ACK of its own, and one
    whose ACK is accepted in its loop leaves at its next poll.  The condition is
    exact for the states of the run: in all of them every worker that would leave
    as acknowledged if it polled now has had its ACK, and every worker that is
    owed a release would leave. -/
theorem released_iff {acts : List Act} {x : Watch}
    (hrun : run (Watch.step self destPort) Watch.init acts = some x) :
    (Along (Watch.step self destPort) (KeepsApart self) Watch.init acts →
      Always AckedBefore x.server.log ∧
        Along (Watch.step self destPort) (LeavesNext self destPort) Watch.init acts) ∧
    (Throughout (Watch.step self destPort) (Released self) Watch.init acts ↔
      Along (Watch.step self destPort) (KeepsApart self) Watch.init acts) := by
  have hiff : Throughout (Watch.step self destPort) (Released self) Watch.init acts ↔
      Along (Watch.step self destPort) (KeepsApart self) Watch.init acts :=
    throughout_iff_along hrun Released.init (fun _ h => h) (fun _ _ _ h hG hs => h.step hG hs)
      fun _ _ _ _ hG hs => Released.broken hG hs
  refine ⟨fun hG => ?_, hiff⟩
  have hthroughout := hiff.mpr hG
  exact ⟨(hthroughout.last hrun).left, hthroughout.along fun _ act h => h.leavesNext act⟩

end Steps

/-! ### One hop -/

def lastHop : SockAddr := ⟨inetAton 10 0 0 5, 1025⟩
def lastSender : SockAddr := ⟨inetAton 10 0 0 1, 40000⟩

/-- The SYN number `s` of the sender, and its ACK. -/
def synFrom (s : BitVec 32) : Datagram :=
  recvfrom ⟨lastSender, lastHop,
    synBytes ⟨inetAton 10 0 0 1, inetAton 10 0 0 5, 1, 1⟩ s [inetAton 10 0 0 5]⟩ 0
def ackFrom (s : BitVec 32) : Datagram :=
  recvfrom ⟨lastSender, lastHop, (Header.mk' 3 s (keyOf 0)).bytes⟩ 0

/-- One update after the other: each worker is owed a release, and leaves. -/
theorem released_single :
    let acts : List Act := [.mainRecv (synFrom 1), .workerStart 0 lastHop, .workerStep 0 0,
      .mainRecv (ackFrom 1), .workerStep 0 0, .mainRecv (synFrom 2), .workerStart 1 lastHop,
      .workerStep 1 0, .mainRecv (ackFrom 2)]
    ∃ x, run (Watch.step lastHop 1025) Watch.init acts = some x ∧ x.owed = [1] ∧
      Always AckedBefore x.server.log ∧
      Along (Watch.step lastHop 1025) (LeavesNext lastHop 1025) Watch.init acts ∧
      Throughout (Watch.step lastHop 1025) (Released lastHop) Watch.init acts := by
  intro acts
  have hrun : ((run (Watch.step lastHop 1025) Watch.init acts).any fun x =>
      x.owed = [1]) = true := by
    decide +kernel
  obtain ⟨x, hx, howed⟩ := (Option.any_eq_true _ _).mp hrun
  have hG : Along (Watch.step lastHop 1025) (KeepsApart lastHop) Watch.init acts := by
    decide +kernel
  obtain ⟨halways, halong⟩ := (released_iff hx).1 hG
  exact ⟨x, hx, of_decide_eq_true howed, halways, halong, (released_iff hx).2.mpr hG⟩

/-- Two updates of one flow overlap.  The ACK of the second one releases the
    worker of the first one, which has had none; and the SYN of the second one
    keeps the worker of the first one, whose ACK has been accepted. -/
theorem released_overlap :
    (¬ ∀ acts x, run (Watch.step lastHop 1025) Watch.init acts = some x →
      Always AckedBefore x.server.log) ∧
    ¬ ∀ acts x, run (Watch.step lastHop 1025) Watch.init acts = some x →
      Along (Watch.step lastHop 1025) (LeavesNext lastHop 1025) Watch.init acts := by
  constructor
  · intro h
    let acts : List Act := [.mainRecv (synFrom 1), .workerStart 0 lastHop, .workerStep 0 0,
      .mainRecv (synFrom 2), .mainRecv (ackFrom 2), .workerStep 0 0]
    have hrun : ((run (Watch.step lastHop 1025) Watch.init acts).any fun x =>
        x.server.log.head?.any fun e => ¬ AckedBefore e x.server.log.tail) = true := by
      decide +kernel
    obtain ⟨x, hx, hlog⟩ := (Option.any_eq_true _ _).mp hrun
    obtain ⟨e, he, hbefore⟩ := (Option.any_eq_true _ _).mp hlog
    obtain ⟨past, hpast⟩ := List.head?_eq_some_iff.mp he
    have hall := h acts x hx
    rw [hpast] at hall hbefore
    exact of_decide_eq_true hbefore (always_cons.mp hall).1
  · intro h
    let acts : List Act := [.mainRecv (synFrom 1), .workerStart 0 lastHop, .workerStep 0 0,
      .mainRecv (ackFrom 1), .mainRecv (synFrom 2)]
    have hrun : ((run (Watch.step lastHop 1025) Watch.init acts).any fun x =>
        x.owed.contains 0 && x.server.polls 0 &&
          (x.server.step lastHop 1025 (.workerStep 0 0)).any fun r =>
            r.1.log.length = x.server.log.length) = true := by
      decide +kernel
    obtain ⟨x, hx, hpoll⟩ := (Option.any_eq_true _ _).mp hrun
    simp only [Bool.and_eq_true, List.contains_iff_mem, Option.any_eq_true,
      decide_eq_true_eq] at hpoll
    obtain ⟨⟨howed, hpolls⟩, r, hr, hlength⟩ := hpoll
    have hstep : x.step lastHop 1025 (.workerStep 0 0) =
        some ⟨r.1, x.owedAfter lastHop (.workerStep 0 0)⟩ := by
      rw [Watch.step, hr]
      rfl
    obtain ⟨w, -, hlog⟩ := (h _ _ (run_concat hx hstep)).last hx howed hpolls r hr
    rw [hlog, List.length_cons] at hlength
    omega

end MiddleboxSession.Emulator
