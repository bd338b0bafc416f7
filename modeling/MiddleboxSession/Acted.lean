/-
  MiddleboxSession/Acted.lean
  ===========================
  **Whether an accepted update is acted on.**

  Two gates decide about a SYN.  The main loop compares its sequence number with
  the record of its flow; `handleUpdate`, in the worker, compares it with the
  global `sequenceNumber`, which stays 0.  An update that the first gate lets
  through and the second does not has changed the kernel and the table, and
  nothing else happens.

  `accepted_acted_iff` says exactly when the worker acts, in every run: when the
  sequence number is positive, and at the last hop only if the flag `update_ack`
  is clear at the worker's first test.
-/
import MiddleboxSession.AckFlag

namespace MiddleboxSession

open CBuffer Runs

/-! ### The gate of `handleUpdate` -/

theorem handleUpdate_ignored {d : Datagram} (hseq : d.header.sequenceNum.toInt ≤ 0) :
    handleUpdate d.buf d.n = .ignored := handleUpdate_eq_ignored.mpr hseq

/-! ### The packets of one worker -/

/-- The worker that takes a step. -/
def Act.worker : Act → Option Nat
  | .workerStart i _ | .workerRecv i _ | .workerStep i => some i
  | .mainRecv _ | .mainStep | .mainExit => none

/-- A process, and what one of its workers has sent. -/
structure Trace where
  agent : Agent
  sent : List Packet

def Trace.step (self : Addr) (i : Nat) (t : Trace) (act : Act) : Option Trace :=
  (t.agent.step self act).map fun (agent, packets) =>
    ⟨agent, if act.worker = some i then t.sent ++ packets else t.sent⟩

/-- The worker has sent the SYN on to the next hop, or has answered it. -/
def Acted (self : Addr) (d : Datagram) (sent : List Packet) : Prop :=
  ∃ p ∈ sent, p.dst = mainSock (d.buf.word 24) ∧
      (∃ rest, p.payload = (Header.mk' 4 d.header.sequenceNum d.header.key).bytes ++ rest) ∨
    p = ⟨mainSock self, d.src, synAckBytes d.header.key d.header.sequenceNum⟩

/-- Still to start, or in the first round of `updateBack`. -/
def WorkerPc.pending : WorkerPc → Bool
  | .start => true
  | .backLock _ count | .backTest _ count | .backUnlock _ count | .backSend _ count => count = 1
  | .ignored | .fwdPoll _ | .fwdLock .. | .fwdTest .. | .fwdUnlock _ | .clear | .finalUnlock
  | .done => false

def WorkerPc.firstTest : WorkerPc → Bool
  | .backTest _ count => count = 1
  | _ => false

/-- Behind its loop. -/
def WorkerPc.left : WorkerPc → Bool
  | .clear | .finalUnlock | .done => true
  | _ => false

theorem WorkerPc.eq_of_firstTest {pc : WorkerPc} (h : pc.firstTest = true) :
    ∃ response, pc = .backTest response 1 := by
  cases pc with
  | backTest response count => exact ⟨response, by rw [of_decide_eq_true h]⟩
  | _ => cases h

/-- The flag is clear when worker `i` tests it for the first time. -/
def FirstTestClear (i : Nat) (t : Trace) : Act → Prop
  | .workerStep j => j = i → ∀ w ∈ t.agent.workers[i]?, w.pc.firstTest = true →
    t.agent.updateAck = false
  | .mainRecv _ | .mainStep | .mainExit | .workerStart .. | .workerRecv .. => True

instance (i : Nat) (t : Trace) : ∀ act, Decidable (FirstTestClear i t act)
  | .workerStep j => inferInstanceAs (Decidable (j = i → ∀ w ∈ t.agent.workers[i]?,
      w.pc.firstTest = true → t.agent.updateAck = false))
  | .mainRecv _ | .mainStep | .mainExit | .workerStart .. | .workerRecv .. =>
    inferInstanceAs (Decidable True)

section Worker

variable {self : Addr} {i : Nat} {d : Datagram} {t t' : Trace} {w : Worker} {act : Act} {e : Effect}

theorem WorkerMove.act_worker {a : Agent} (h : WorkerMove self a i w act e) :
    act.worker = some i := by
  cases h <;> rfl

/-- What a step is for worker `i`: one of its own moves, or nothing. -/
theorem Trace.step_cases (hw : t.agent.workers[i]? = some w) (h : t.step self i act = some t') :
    (∃ e, WorkerMove self t.agent i w act e ∧ t'.agent.workers[i]? = some e.worker ∧
        t'.sent = t.sent ++ e.packets) ∨
      t'.agent.workers[i]? = some w ∧ t'.sent = t.sent := by
  have hi : i < t.agent.workers.length := (List.getElem?_eq_some_iff.mp hw).1
  obtain ⟨⟨a', ps⟩, hstep, rfl⟩ := Option.map_eq_some_iff.mp h
  obtain ⟨-, hs⟩ := Agent.step_sound self hstep
  cases hs with
  | syn d' hmain hd =>
    refine Or.inr ⟨?_, rfl⟩
    exact (List.getElem?_append_left hi).trans hw
  | ack | nullDeref | skip | exit | lockAck | setAck | unlockAck | netlinkAck =>
    exact Or.inr ⟨hw, rfl⟩
  | undefined j v port hv hpc hh => exact Or.inr ⟨hw, by simp⟩
  | worker j v _ e hv hm =>
    by_cases hij : j = i
    · subst hij
      obtain rfl := Option.some.inj (hw.symm.trans hv)
      exact Or.inl ⟨e, hm, by simp [Agent.apply, hi], by simp [hm.act_worker]⟩
    · refine Or.inr ⟨?_, ?_⟩
      · simp only [Agent.apply]
        rw [List.getElem?_set_ne hij, hw]
      · have hne : ¬ act.worker = some i := by
          rw [hm.act_worker, Option.some_inj]
          exact hij
        simp [hne]

/-! ### Where the worker of an accepted update can be -/

/-- In front of its first SYN-ACK, or behind it. -/
def Answering (self : Addr) (d : Datagram) (sent : List Packet) (response : List Byte)
    (count : Nat) : Prop :=
  response = synAckBytes d.header.key d.header.sequenceNum ∧
    (count = 1 ∧ sent = [] ∨ 1 < count ∧ Acted self d sent)

def Stage (self : Addr) (d : Datagram) (sent : List Packet) : WorkerPc → Prop
  | .start => sent = []
  | .ignored => False
  | .fwdPoll _ | .fwdLock .. | .fwdTest .. | .fwdUnlock _ | .clear | .finalUnlock | .done =>
    Acted self d sent
  | .backLock response count | .backTest response count | .backUnlock response count
  | .backSend response count => Answering self d sent response count

theorem Acted.append {sent : List Packet} (h : Acted self d sent) (ps : List Packet) :
    Acted self d (sent ++ ps) := by
  obtain ⟨p, hp, hwhat⟩ := h
  exact ⟨p, List.mem_append_left ps hp, hwhat⟩

theorem Answering.send {sent : List Packet} {response : List Byte} {count : Nat}
    (h : Answering self d sent response count) :
    Acted self d (sent ++ [⟨mainSock self, d.src, response⟩]) :=
  ⟨_, List.mem_append_right sent (List.mem_singleton_self _), Or.inr (by rw [h.1])⟩

/-- What `handleUpdate` decides for an accepted update with a positive number. -/
def Decided (d : Datagram) : Prop :=
  (∃ rest, handleUpdate d.buf d.n = .forward (d.buf.word 24)
      ((Header.mk' 4 d.header.sequenceNum d.header.key).bytes ++ rest)) ∨
    handleUpdate d.buf d.n = .back (synAckBytes d.header.key d.header.sequenceNum)

theorem decided (hseq : 0 < d.header.sequenceNum.toInt) (hlo : 28 ≤ d.n) (hhi : d.n ≤ 1400) :
    Decided d := by
  rcases hlo.lt_or_eq with hlt | heq
  · exact Or.inl (handleUpdate_forwards hseq hlt hhi)
  · exact Or.inr (handleUpdate_answers hseq heq.symm)

/-- **One move of the worker**, when its first test finds the flag clear. -/
theorem Stage.move {a : Agent} {sent : List Packet} (hdec : Decided w.request)
    (h : Stage self w.request sent w.pc) (hm : WorkerMove self a i w act e)
    (hfirst : w.pc.firstTest = true → a.updateAck = false) :
    Stage self w.request (sent ++ e.packets) e.worker.pc := by
  cases hm with
  | ignore port hpc hh =>
    rcases hdec with ⟨rest, hdec⟩ | hdec
    · rw [hdec] at hh
      cases hh
    · rw [hdec] at hh
      cases hh
  | forward port next mesg hpc hh =>
    rcases hdec with ⟨rest, hdec⟩ | hdec
    · rw [hdec] at hh
      cases hh
      exact ⟨_, List.mem_append_right sent (List.mem_singleton_self _), Or.inl ⟨rfl, rest, rfl⟩⟩
    · rw [hdec] at hh
      cases hh
  | back port response hpc hh =>
    rw [hpc] at h
    rcases hdec with ⟨rest, hdec⟩ | hdec
    · rw [hdec] at hh
      cases hh
    · rw [hdec] at hh
      cases hh
      exact ⟨rfl, Or.inl ⟨rfl, by rw [h]; rfl⟩⟩
  | recv _ _ hpc | fwdLock _ _ hpc | relay _ _ hpc | fwdAcked _ _ _ hpc | fwdUnlock _ hpc
  | clear hpc | finalUnlock hpc =>
    rw [hpc] at h
    exact Acted.append h _
  | backLock _ _ hpc | backTest _ _ hpc | backUnlock _ _ hpc =>
    rw [hpc] at h
    rw [List.append_nil]
    exact h
  | backAcked response count hpc hflag =>
    rw [hpc] at h hfirst
    rcases h.2 with ⟨hcount, -⟩ | ⟨-, hacted⟩
    · rw [hfirst (decide_eq_true hcount)] at hflag
      cases hflag
    · exact hacted.append _
  | backSend response count hpc hcount =>
    rw [hpc] at h
    refine ⟨h.1, Or.inr ⟨?_, h.send⟩⟩
    rcases h.2 with ⟨hone, -⟩ | ⟨hlt, -⟩
    · omega
    · omega
  | timeout response count hpc hcount =>
    rw [hpc] at h
    exact h.send

/-- A worker that is past its first round has acted. -/
theorem Stage.acted {sent : List Packet} {pc : WorkerPc} (h : Stage self d sent pc)
    (hpc : pc.pending = false) : Acted self d sent := by
  cases pc with
  | start => cases hpc
  | ignored => exact h.elim
  | fwdPoll | fwdLock | fwdTest | fwdUnlock | clear | finalUnlock | done => exact h
  | backLock _ count | backTest _ count | backUnlock _ count | backSend _ count =>
    have hne : count ≠ 1 := of_decide_eq_false hpc
    rcases h.2 with ⟨hone, -⟩ | ⟨-, hacted⟩
    · exact absurd hone hne
    · exact hacted

/-! ### Runs from the acceptance on -/

def InStage (self : Addr) (i : Nat) (d : Datagram) (t : Trace) : Prop :=
  ∃ w, t.agent.workers[i]? = some w ∧ w.request = d ∧ Stage self d t.sent w.pc

/-- Behind the loop without having sent anything. -/
def Lost (i : Nat) (t : Trace) : Prop :=
  ∃ w, t.agent.workers[i]? = some w ∧ w.pc.left = true ∧ t.sent = []

theorem not_acted_nil : ¬ Acted self d [] := by
  rintro ⟨p, hp, -⟩
  cases hp

theorem InStage.not_lost (h : InStage self i d t) : ¬ Lost i t := by
  obtain ⟨w, hw, -, hstage⟩ := h
  rintro ⟨v, hv, hleft, hsent⟩
  obtain rfl := Option.some.inj (hw.symm.trans hv)
  have hacted : Acted self d t.sent := by
    apply hstage.acted
    cases hpc : w.pc with
    | clear | finalUnlock | done => rfl
    | _ =>
      rw [hpc] at hleft
      cases hleft
  rw [hsent] at hacted
  exact not_acted_nil hacted

/-- A worker that has left its loop sends nothing any more. -/
theorem Lost.step (h : Lost i t) (hstep : t.step self i act = some t') : Lost i t' := by
  obtain ⟨w, hw, hleft, hsent⟩ := h
  rcases Trace.step_cases hw hstep with ⟨e, hm, hw', hsent'⟩ | ⟨hw', hsent'⟩
  · cases hm with
    | clear hpc | finalUnlock hpc => exact ⟨_, hw', rfl, by rw [hsent', hsent]; rfl⟩
    | ignore _ hpc | forward _ _ _ hpc | back _ _ hpc | recv _ _ hpc | fwdLock _ _ hpc
    | relay _ _ hpc | fwdAcked _ _ _ hpc | fwdUnlock _ hpc | backLock _ _ hpc | backTest _ _ hpc
    | backAcked _ _ hpc | backUnlock _ _ hpc | backSend _ _ hpc | timeout _ _ hpc =>
      rw [hpc] at hleft
      cases hleft
  · exact ⟨w, hw', hleft, by rw [hsent', hsent]⟩

theorem InStage.step (hdec : Decided d) (h : InStage self i d t)
    (hG : FirstTestClear i t act) (hstep : t.step self i act = some t') :
    InStage self i d t' := by
  obtain ⟨w, hw, rfl, hstage⟩ := h
  rcases Trace.step_cases hw hstep with ⟨e, hm, hw', hsent'⟩ | ⟨hw', hsent'⟩
  · refine ⟨e.worker, hw', hm.request, ?_⟩
    rw [hsent']
    refine hstage.move hdec hm fun hfirst => ?_
    cases hm with
    | ignore _ hpc | forward _ _ _ hpc | back _ _ hpc | recv _ _ hpc =>
      rw [hpc] at hfirst
      cases hfirst
    | _ => exact hG rfl w hw hfirst
  · exact ⟨w, hw', rfl, hsent' ▸ hstage⟩

/-- A first test that finds the flag set ends the update. -/
theorem InStage.lost (h : InStage self i d t) (hG : ¬ FirstTestClear i t act)
    (hstep : t.step self i act = some t') : Lost i t' := by
  cases act with
  | mainRecv | mainStep | mainExit | workerStart | workerRecv => exact absurd trivial hG
  | workerStep j =>
    simp only [FirstTestClear, not_forall] at hG
    obtain ⟨hj, v, hv, hfirst, hflag⟩ := hG
    subst hj
    obtain ⟨w, hw, rfl, hstage⟩ := h
    obtain rfl := Option.some.inj (hw.symm.trans (Option.mem_def.mp hv))
    obtain ⟨response, hpc⟩ := WorkerPc.eq_of_firstTest hfirst
    rw [hpc] at hstage
    have hsent : t.sent = [] := by
      rcases hstage.2 with ⟨-, hsent⟩ | ⟨hlt, -⟩
      · exact hsent
      · exact absurd hlt (Nat.lt_irrefl 1)
    obtain ⟨⟨a', ps⟩, hs, rfl⟩ := Option.map_eq_some_iff.mp hstep
    obtain ⟨-, hs⟩ := Agent.step_sound self hs
    cases hs with
    | worker k v' _ e hv' hm =>
      obtain rfl := Option.some.inj (hm.act_worker : some j = some k)
      obtain rfl := Option.some.inj (hw.symm.trans hv')
      have hi : j < t.agent.workers.length := (List.getElem?_eq_some_iff.mp hw).1
      cases hm with
      | backAcked =>
        refine ⟨{ w with pc := .clear }, ?_, rfl, ?_⟩
        · simp [Agent.apply, hi]
        · simp [hsent]
      | backTest _ _ _ hclear => exact absurd hclear hflag
      | fwdLock _ _ hpc' | relay _ _ hpc' | fwdAcked _ _ _ hpc' | fwdUnlock _ hpc'
      | backLock _ _ hpc' | backUnlock _ _ hpc' | backSend _ _ hpc' | timeout _ _ hpc'
      | clear hpc' | finalUnlock hpc' =>
        rw [hpc] at hpc'
        cases hpc'

/-- A worker that `handleUpdate` ends does nothing. -/
theorem ignored_sent (hign : handleUpdate d.buf d.n = .ignored)
    (h : ∃ w, t.agent.workers[i]? = some w ∧ w.request = d ∧
      (w.pc = .start ∨ w.pc = .ignored) ∧ t.sent = [])
    (hstep : t.step self i act = some t') :
    ∃ w, t'.agent.workers[i]? = some w ∧ w.request = d ∧
      (w.pc = .start ∨ w.pc = .ignored) ∧ t'.sent = [] := by
  obtain ⟨w, hw, rfl, hpc, hsent⟩ := h
  rcases Trace.step_cases hw hstep with ⟨e, hm, hw', hsent'⟩ | ⟨hw', hsent'⟩
  · cases hm with
    | ignore => exact ⟨_, hw', rfl, Or.inr rfl, by rw [hsent', hsent]; rfl⟩
    | forward _ _ _ _ hh | back _ _ _ hh =>
      rw [hign] at hh
      cases hh
    | recv _ _ hpc' | fwdLock _ _ hpc' | relay _ _ hpc' | fwdAcked _ _ _ hpc' | fwdUnlock _ hpc'
    | backLock _ _ hpc' | backTest _ _ hpc' | backAcked _ _ hpc' | backUnlock _ _ hpc'
    | backSend _ _ hpc' | timeout _ _ hpc' | clear hpc' | finalUnlock hpc' =>
      rw [hpc'] at hpc
      rcases hpc with hpc | hpc <;> cases hpc
  · exact ⟨w, hw', rfl, hpc, by rw [hsent', hsent]⟩

end Worker

/-! ### The worker gets there -/

/-- How many steps of its own a worker has left until it is past its first round. -/
def WorkerPc.rank : WorkerPc → Nat
  | .start => 5
  | .backLock _ count => if count = 1 then 4 else 0
  | .backTest _ count => if count = 1 then 3 else 0
  | .backUnlock _ count => if count = 1 then 2 else 0
  | .backSend _ count => if count = 1 then 1 else 0
  | .ignored | .fwdPoll _ | .fwdLock .. | .fwdTest .. | .fwdUnlock _ | .clear | .finalUnlock
  | .done => 0

theorem WorkerPc.rank_le (pc : WorkerPc) : pc.rank ≤ 5 := by
  cases pc <;> simp only [WorkerPc.rank] <;> (try split) <;> omega

/-- Nothing outside the worker keeps it from its next step: the process runs, the
    mutex is free if the worker waits for it, and there is a port left. -/
structure Agent.Lets (a : Agent) (pc : WorkerPc) : Prop where
  alive : a.alive = true
  lock : ∀ response count, pc = .backLock response count → a.lock = none
  port : ∃ port, a.freshPort port = true

section Progress

variable {self : Addr} {i : Nat} {a : Agent} {w : Worker}

theorem Agent.start_progress (hw : a.workers[i]? = some w) (hpc : w.pc = .start)
    (hdef : handleUpdate w.request.buf w.request.n ≠ .undefined) (hlets : a.Lets w.pc) :
    ∃ act a' ps w', act.worker = some i ∧ a.step self act = some (a', ps) ∧
      a'.workers[i]? = some w' ∧ w'.pc.rank < 5 := by
  have hi : i < a.workers.length := (List.getElem?_eq_some_iff.mp hw).1
  obtain ⟨port, hport⟩ := hlets.port
  have hstep : ∃ e : Effect, a.workerStart self i w port = some (a.apply i e, e.packets) ∧
      e.worker.pc.rank < 5 := by
    cases hh : handleUpdate w.request.buf w.request.n with
    | ignored =>
      refine ⟨⟨{ w with pc := .ignored }, a.updateAck, a.lock, [], []⟩, ?_, ?_⟩
      · simp [Agent.workerStart, hpc, hh]
      · exact Nat.succ_pos 4
    | forward next mesg =>
      refine ⟨⟨{ w with port := some port, pc := .fwdPoll next }, a.updateAck, a.lock,
        [.enterLoop w.key w.seq], [⟨⟨self, port⟩, mainSock next, mesg⟩]⟩, ?_, ?_⟩
      · simp [Agent.workerStart, hpc, hh, hport]
        rfl
      · exact Nat.succ_pos 4
    | back response =>
      refine ⟨⟨{ w with pc := .backLock response 1 }, a.updateAck, a.lock,
        [.enterLoop w.key w.seq], []⟩, ?_, ?_⟩
      · simp [Agent.workerStart, hpc, hh]
      · exact Nat.lt_succ_self 4
    | undefined => exact absurd hh hdef
  obtain ⟨e, he, hrank⟩ := hstep
  refine ⟨.workerStart i port, a.apply i e, e.packets, e.worker, rfl, ?_, ?_, hrank⟩
  · simp [Agent.step, hlets.alive, hw, he]
  · simp [Agent.apply, hi]

theorem Agent.round_progress (hw : a.workers[i]? = some w) (hpc : w.pc ≠ .start)
    (hpending : w.pc.pending = true) (hlets : a.Lets w.pc) :
    ∃ act a' ps w', act.worker = some i ∧ a.step self act = some (a', ps) ∧
      a'.workers[i]? = some w' ∧ w'.pc.rank < w.pc.rank := by
  have hi : i < a.workers.length := (List.getElem?_eq_some_iff.mp hw).1
  have hstep : ∃ e : Effect, a.workerStep self i w = some e ∧
      e.worker.pc.rank < w.pc.rank := by
    cases hcase : w.pc with
    | start => exact absurd hcase hpc
    | backLock response count =>
      rw [hcase] at hpending
      obtain rfl : count = 1 := of_decide_eq_true hpending
      refine ⟨⟨{ w with pc := .backTest response 1 }, a.updateAck, some (.worker i), [], []⟩, ?_, ?_⟩
      · simp only [Agent.workerStep, hcase]
        exact if_pos (hlets.lock response 1 hcase)
      · exact Nat.lt_succ_self 3
    | backTest response count =>
      rw [hcase] at hpending
      obtain rfl : count = 1 := of_decide_eq_true hpending
      by_cases hflag : a.updateAck = true
      · refine ⟨⟨{ w with pc := .clear }, a.updateAck, a.lock,
          [.leaveAcked w.key w.seq none, .testAck w.key w.seq true], []⟩, ?_, ?_⟩
        · simp only [Agent.workerStep, hcase]
          exact if_pos hflag
        · exact Nat.succ_pos 2
      · refine ⟨⟨{ w with pc := .backUnlock response 1 }, a.updateAck, a.lock,
          [.testAck w.key w.seq false], []⟩, ?_, ?_⟩
        · simp only [Agent.workerStep, hcase]
          exact if_neg hflag
        · exact Nat.lt_succ_self 2
    | backUnlock response count =>
      rw [hcase] at hpending
      obtain rfl : count = 1 := of_decide_eq_true hpending
      refine ⟨⟨{ w with pc := .backSend response 1 }, a.updateAck, none, [], []⟩, ?_, ?_⟩
      · simp only [Agent.workerStep, hcase]
      · exact Nat.lt_succ_self 1
    | backSend response count =>
      rw [hcase] at hpending
      obtain rfl : count = 1 := of_decide_eq_true hpending
      refine ⟨⟨{ w with pc := .backLock response 2 }, a.updateAck, a.lock, [],
        [⟨mainSock self, w.request.src, response⟩]⟩, ?_, ?_⟩
      · simp only [Agent.workerStep, hcase]
        exact if_neg (by decide)
      · exact Nat.lt_succ_self 0
    | ignored | fwdPoll | fwdLock | fwdTest | fwdUnlock | clear | finalUnlock | done =>
      rw [hcase] at hpending
      cases hpending
  obtain ⟨e, he, hrank⟩ := hstep
  refine ⟨.workerStep i, a.apply i e, e.packets, e.worker, rfl, ?_, ?_, hrank⟩
  · simp [Agent.step, hlets.alive, hw, he]
  · simp [Agent.apply, hi]

/-- A pending worker has a step, and few of them are left. -/
theorem Agent.progress (hw : a.workers[i]? = some w)
    (hdef : handleUpdate w.request.buf w.request.n ≠ .undefined)
    (hpending : w.pc.pending = true) (hlets : a.Lets w.pc) :
    ∃ act a' ps w', act.worker = some i ∧ a.step self act = some (a', ps) ∧
      a'.workers[i]? = some w' ∧ w'.pc.rank < w.pc.rank := by
  by_cases hpc : w.pc = .start
  · rw [hpc]
    exact Agent.start_progress hw hpc hdef hlets
  · exact Agent.round_progress hw hpc hpending hlets

end Progress

theorem Trace.request {self : Addr} {i : Nat} {d : Datagram} {t₀ t : Trace}
    (hreach : Reachable (Trace.step self i) t₀ t)
    (h₀ : ∃ w, t₀.agent.workers[i]? = some w ∧ w.request = d) :
    ∃ w, t.agent.workers[i]? = some w ∧ w.request = d := by
  refine hreach.invariant (P := fun t => ∃ w, t.agent.workers[i]? = some w ∧ w.request = d) h₀ ?_
  rintro x act x' - ⟨w, hw, hreq⟩ hstep
  rcases Trace.step_cases hw hstep with ⟨e, hm, hw', -⟩ | ⟨hw', -⟩
  · exact ⟨e.worker, hw', hm.request.trans hreq⟩
  · exact ⟨w, hw', hreq⟩

theorem handleUpdate_defined {d : Datagram} (hlo : 28 ≤ d.n) (hhi : d.n ≤ 1400) :
    handleUpdate d.buf d.n ≠ .undefined := by
  by_cases hseq : 0 < d.header.sequenceNum.toInt
  · rcases decided hseq hlo hhi with ⟨rest, hdec⟩ | hdec
    · rw [hdec]
      simp
    · rw [hdec]
      simp
  · rw [handleUpdate_ignored (not_lt.mp hseq)]
    simp

section Accepted

variable {self : Addr} {a : Agent} {d : Datagram}

theorem Agent.mainRecv_worker (hd : dispatch a.records d.header = .syn) :
    (a.mainRecv d).workers[a.workers.length]? =
      some { request := d, port := none, pc := .start } := by
  simp [Agent.mainRecv, hd]

theorem acted_iff_of_past (hd : dispatch a.records d.header = .syn) (hlo : 28 ≤ d.n)
    (hhi : d.n ≤ 1400) {acts : List Act} {t : Trace} {w : Worker}
    (hrun : run (Trace.step self a.workers.length) ⟨a.mainRecv d, []⟩ acts = some t)
    (hw : t.agent.workers[a.workers.length]? = some w) (hpast : w.pc.pending = false) :
    Acted self d t.sent ↔ 0 < d.header.sequenceNum.toInt ∧
      Along (Trace.step self a.workers.length) (FirstTestClear a.workers.length)
        ⟨a.mainRecv d, []⟩ acts := by
  have hnew := Agent.mainRecv_worker hd
  by_cases hseq : 0 < d.header.sequenceNum.toInt
  · have hdec := decided hseq hlo hhi
    have hinit : InStage self a.workers.length d ⟨a.mainRecv d, []⟩ := ⟨_, hnew, rfl, rfl⟩
    have hexact := throughout_iff_along (P := fun t => ¬ Lost a.workers.length t) hrun hinit
      (fun _ h => h.not_lost) (fun _ _ _ h hG hstep => h.step hdec hG hstep)
      fun _ _ _ h hG hstep hlost => hlost (h.lost hG hstep)
    rw [and_iff_right hseq, ← hexact]
    constructor
    · intro hacted
      refine throughout_of_last hrun ?_ fun _ _ _ hstep hkept hlost => hkept (hlost.step hstep)
      rintro ⟨-, -, -, hsent⟩
      rw [hsent] at hacted
      exact not_acted_nil hacted
    · intro hkept
      have hstage : InStage self a.workers.length d t :=
        (hexact.mp hkept).invariant hrun hinit fun _ _ _ _ h hG hstep => h.step hdec hG hstep
      obtain ⟨v, hv, -, hstage⟩ := hstage
      obtain rfl := Option.some.inj (hw.symm.trans hv)
      exact hstage.acted hpast
  · have hign := handleUpdate_ignored (not_lt.mp hseq)
    have hreach : Reachable (Trace.step self a.workers.length) ⟨a.mainRecv d, []⟩ t :=
      ⟨acts, hrun⟩
    have hidle := hreach.invariant (P := fun t => ∃ w, t.agent.workers[a.workers.length]? = some w ∧
        w.request = d ∧ (w.pc = .start ∨ w.pc = .ignored) ∧ t.sent = [])
      ⟨_, hnew, rfl, Or.inl rfl, rfl⟩ fun _ _ _ _ h hstep => ignored_sent hign h hstep
    obtain ⟨-, -, -, -, hsent⟩ := hidle
    refine iff_of_false ?_ fun h => hseq h.1
    rw [hsent]
    exact not_acted_nil

/-- **When an accepted update is acted on.**  The main loop accepts a SYN of 28 to
    1400 bytes, in any state of the process, and the process goes on in any way.
    While the new worker is in its first round it has a next step, of at most
    five; once it is past it, it has forwarded the SYN or answered it if and only
    if the sequence number is positive and the flag was clear when the worker, at
    the last hop, tested it for the first time. -/
theorem accepted_acted_iff (hd : dispatch a.records d.header = .syn) (hlo : 28 ≤ d.n)
    (hhi : d.n ≤ 1400) {acts : List Act} {t : Trace} {w : Worker}
    (hrun : run (Trace.step self a.workers.length) ⟨a.mainRecv d, []⟩ acts = some t)
    (hw : t.agent.workers[a.workers.length]? = some w) :
    (w.pc.pending = true → t.agent.Lets w.pc → ∃ act a' ps w', act.worker = some a.workers.length ∧
      t.agent.step self act = some (a', ps) ∧ a'.workers[a.workers.length]? = some w' ∧
      w'.pc.rank < w.pc.rank) ∧ w.pc.rank ≤ 5 ∧
    (w.pc.pending = false → (Acted self d t.sent ↔ 0 < d.header.sequenceNum.toInt ∧
      Along (Trace.step self a.workers.length) (FirstTestClear a.workers.length)
        ⟨a.mainRecv d, []⟩ acts)) := by
  refine ⟨fun hpending hlets => ?_, w.pc.rank_le, acted_iff_of_past hd hlo hhi hrun hw⟩
  obtain ⟨v, hv, hreq⟩ := Trace.request ⟨acts, hrun⟩ ⟨_, Agent.mainRecv_worker hd, rfl⟩
  obtain rfl := Option.some.inj (hw.symm.trans hv)
  subst hreq
  exact Agent.progress hw (handleUpdate_defined hlo hhi) hpending hlets

end Accepted

/-- A SYN for the last hop with any sequence number. -/
def numberedSyn (seq : BitVec 32) : Datagram :=
  recvfrom ⟨exampleSock 1, mainSock exampleAgent, synBytes (exampleKey 1) seq [exampleAgent]⟩ 0

/-- The last hop of an update answers it. -/
theorem accepted_acted_single :
    ∃ t, run (Trace.step exampleAgent 0) ⟨Agent.init.mainRecv (exampleSyn 1), []⟩
        (.workerStart 0 5000 :: List.replicate 4 (.workerStep 0)) = some t ∧
      Acted exampleAgent (exampleSyn 1) t.sent := by
  have hrun : ((run (Trace.step exampleAgent 0) ⟨Agent.init.mainRecv (exampleSyn 1), []⟩
      (.workerStart 0 5000 :: List.replicate 4 (.workerStep 0))).any fun t =>
        t.agent.workers[0]?.map (fun w => w.pc.pending) = some false) = true := by
    decide +kernel
  obtain ⟨t, ht, hpending⟩ := (Option.any_eq_true _ _).mp hrun
  obtain ⟨w, hw, hpast⟩ := Option.map_eq_some_iff.mp (of_decide_eq_true hpending)
  have hd : dispatch Agent.init.records (exampleSyn 1).header = .syn := by decide +kernel
  refine ⟨t, ht, ((accepted_acted_iff hd (by decide) (by decide) ht hw).2.2 hpast).mpr ⟨?_, ?_⟩⟩
  · decide +kernel
  · decide +kernel

/-- A first update with the sequence number 0: it is accepted, and its worker is
    done without having sent anything. -/
theorem accepted_zero_ignored :
    dispatch Agent.init.records (numberedSyn 0).header = .syn ∧
      ∃ t, run (Trace.step exampleAgent 0) ⟨Agent.init.mainRecv (numberedSyn 0), []⟩
          [.workerStart 0 5000] = some t ∧
        t.agent.workers.map (fun w => w.pc.pending) = [false] ∧
        ¬ Acted exampleAgent (numberedSyn 0) t.sent := by
  refine ⟨by decide +kernel, ?_⟩
  have hrun : ((run (Trace.step exampleAgent 0) ⟨Agent.init.mainRecv (numberedSyn 0), []⟩
      [.workerStart 0 5000]).any fun t =>
        t.agent.workers.map (fun w => w.pc.pending) = [false] ∧ t.sent = []) = true := by
    decide +kernel
  obtain ⟨t, ht, hstate⟩ := (Option.any_eq_true _ _).mp hrun
  obtain ⟨hpending, hsent⟩ := of_decide_eq_true hstate
  refine ⟨t, ht, hpending, ?_⟩
  rw [hsent]
  exact not_acted_nil

end MiddleboxSession
