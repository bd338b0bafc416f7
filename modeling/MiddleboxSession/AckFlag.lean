/-
  MiddleboxSession/AckFlag.lean
  =============================
  **What the single flag `update_ack` guarantees, and when.**

  The main loop sets `update_ack` for every ACK that it accepts; every worker
  tests it in its loop and clears it when it leaves.  Nothing in the flag says
  whose ACK it was.  Two properties are at stake, over every interleaving:

    * a worker that leaves its loop as acknowledged has had its own ACK
      (`AckedBefore`);
    * a worker whose ACK was accepted finds the flag set at its next test
      (`FoundSet`).

  Both fail when two updates overlap.  They hold in every run whose main loop
  never puts the flag in front of a worker that it is not meant for: the
  guards `SetInPrivate` and `SetLast` say so for one step of the main loop,
  and leave the schedule of the workers free.
-/
import MiddleboxSession.Threads

namespace MiddleboxSession

open CBuffer Runs

/-! ### Where a worker can still go -/

/-- A worker that has not started yet and will enter one of the two loops. -/
def Worker.enters (w : Worker) : Bool :=
  match w.pc with
  | .start =>
    match handleUpdate w.request.buf w.request.n with
    | .forward .. | .back .. => true
    | .ignored | .undefined => false
  | _ => false

/-- Inside a loop, with a test of `update_ack` still ahead. -/
def WorkerPc.willTest : WorkerPc → Bool
  | .fwdPoll _ | .fwdLock .. | .fwdTest .. | .fwdUnlock _ | .backLock .. | .backTest .. => true
  | .backUnlock _ count | .backSend _ count => count < 1000
  | .start | .ignored | .clear | .finalUnlock | .done => false

/-- Inside a loop or right behind it, with `update_ack = 0` still ahead. -/
def WorkerPc.willClear : WorkerPc → Bool
  | .fwdPoll _ | .fwdLock .. | .fwdTest .. | .fwdUnlock _ | .backLock .. | .backTest ..
  | .backUnlock .. | .backSend .. | .clear => true
  | .start | .ignored | .finalUnlock | .done => false

def Worker.mayTest (w : Worker) : Bool := w.enters || w.pc.willTest
def Worker.mayClear (w : Worker) : Bool := w.enters || w.pc.willClear

/-- The update whose ACK the main thread is about to put into the flag. -/
def MainPc.setting : MainPc → Option (FlowKey × BitVec 32)
  | .setAck k s => some (k, s)
  | _ => none

def Worker.fresh (d : Datagram) : Worker := { request := d, port := none, pc := .start }

section Moves

variable {self : Addr} {a : Agent} {i : Nat} {w : Worker} {act : Act} {e : Effect}

theorem WorkerMove.updateAck (h : WorkerMove self a i w act e) (he : e.updateAck = true) :
    a.updateAck = true := by
  cases h <;> first | exact he | cases he

theorem WorkerMove.mayTest (h : WorkerMove self a i w act e) (he : e.worker.mayTest = true) :
    w.mayTest = true := by
  cases h <;> simp_all [Worker.mayTest, Worker.enters, WorkerPc.willTest]

theorem WorkerMove.not_mayClear (h : WorkerMove self a i w act e) (hw : w.mayClear = false) :
    e.worker.mayClear = false ∧ e.updateAck = a.updateAck := by
  cases h <;> simp_all [Worker.mayClear, Worker.enters, WorkerPc.willClear]

/-- A worker steps to a state that can still test the flag inside its loop: it
    just entered the loop, or it was there before and found the flag clear if
    it looked. -/
theorem WorkerMove.willTest (h : WorkerMove self a i w act e)
    (he : e.worker.pc.willTest = true) :
    w.enters = true ∧ e.events = [.enterLoop w.key w.seq] ∨
      w.pc.willTest = true ∧ e.updateAck = a.updateAck ∧
        (e.events = [] ∨ e.events = [.testAck w.key w.seq false]) := by
  cases h <;> simp_all [Worker.enters, WorkerPc.willTest]

theorem Agent.mem_apply {v : Worker} (hv : v ∈ (a.apply i e).workers) :
    v ∈ a.workers ∨ v = e.worker := List.mem_or_eq_of_mem_set hv

end Moves

/-! ### Two updates of one agent

The agent is the only hop of two updates, for two flows. -/

def exampleAgent : Addr := inetAton 128 112 93 107
def exampleSock (i : Byte) : SockAddr := ⟨inetAton 128 112 93 106, 5000 + i.setWidth 16⟩
def exampleKey (i : Byte) : FlowKey := ⟨inetAton 10 0 0 1, inetAton 10 0 0 5, 1, i.setWidth 16⟩

/-- The SYN of update `i`, and an ACK for it, as `recvfrom` delivers them. -/
def exampleSyn (i : Byte) : Datagram :=
  recvfrom ⟨exampleSock i, mainSock exampleAgent, synBytes (exampleKey i) 100 [exampleAgent]⟩ 0
def exampleAck (i : Byte) : Datagram :=
  recvfrom ⟨exampleSock i, mainSock exampleAgent,
    (Header.mk' 6 100 (exampleKey i)).bytes ++ wordBytes 0⟩ 0

/-- Accept the SYN of update `i`, whose worker is number `n`, and start the worker. -/
def acceptSyn (n : Nat) (i : Byte) : List Act := [.mainRecv (exampleSyn i), .workerStart n 5000]

def acceptAck (i : Byte) : List Act := .mainRecv (exampleAck i) :: List.replicate 3 .mainStep

/-! ### No false acknowledgement -/

/-- A worker leaves as acknowledged only after the main loop accepted an ACK
    for its update, and that after it had accepted the SYN. -/
def AckedBefore : Event → List Event → Prop
  | .leaveAcked k s _, past => ∃ pre, (.setAck k s :: pre) <:+ past ∧ .addItem k s ∈ pre
  | _, _ => True

/-- The main loop sets the flag only when every worker that can still test it
    has its ACK, this one included, and accepts a SYN for a worker that will
    test it only while it is clear. -/
def SetInPrivate (a : Agent) : Act → Prop
  | .mainStep => ∀ u ∈ a.main.setting, ∀ w ∈ a.workers, w.mayTest = true →
      w.update = u ∨ .setAck w.key w.seq ∈ a.log
  | .mainRecv d => dispatch a.records d.header = .syn → (Worker.fresh d).mayTest = true →
      a.updateAck = false
  | _ => True

instance (a : Agent) : ∀ act, Decidable (SetInPrivate a act)
  | .mainStep => inferInstanceAs (Decidable (∀ u ∈ a.main.setting, ∀ w ∈ a.workers,
      w.mayTest = true → w.update = u ∨ .setAck w.key w.seq ∈ a.log))
  | .mainRecv d => inferInstanceAs (Decidable (dispatch a.records d.header = .syn →
      (Worker.fresh d).mayTest = true → a.updateAck = false))
  | .mainExit | .workerStart .. | .workerRecv .. | .workerStep _ => isTrue trivial

/-- What the guard keeps: whoever can still find the flag set has its ACK. -/
structure FlagPrivate (a : Agent) : Prop where
  acked : ∀ w ∈ a.workers, w.mayTest = true → a.updateAck = true → .setAck w.key w.seq ∈ a.log
  coming : ∀ k s, a.main = .lockAck k s ∨ a.main = .setAck k s → .addItem k s ∈ a.log
  since : ∀ k s pre, (.setAck k s :: pre) <:+ a.log → .addItem k s ∈ pre
  leave : Always AckedBefore a.log

theorem FlagPrivate.init : FlagPrivate Agent.init where
  acked := by intro w hw; cases hw
  coming := by intro k s h; simp [Agent.init] at h
  since := by intro k s pre h; simp [Agent.init] at h
  leave := always_nil _

/-- Events that say nothing about acknowledgements keep the history in order. -/
theorem FlagPrivate.since_append {log : List Event} (es : List Event) (hes : ∀ k s, .setAck k s ∉ es)
    (h : ∀ k s pre, (.setAck k s :: pre) <:+ log → .addItem k s ∈ pre) :
    ∀ k s pre, (.setAck k s :: pre) <:+ es ++ log → .addItem k s ∈ pre := by
  induction es with
  | nil => exact h
  | cons e es ih =>
    intro k s pre hs
    rcases List.suffix_cons_iff.mp hs with heq | hs
    · cases heq
      exact absurd (List.mem_cons_self) (hes k s)
    · exact ih (fun k s hmem => hes k s (List.mem_cons_of_mem _ hmem)) k s pre hs

theorem mem_split_setAck {k : FlowKey} {s : BitVec 32} {log : List Event}
    (h : .setAck k s ∈ log) : ∃ pre, (.setAck k s :: pre) <:+ log := by
  obtain ⟨post, pre, rfl⟩ := List.append_of_mem h
  exact ⟨pre, List.suffix_append _ _⟩

theorem FlagPrivate.worker {self : Addr} {a : Agent} {i : Nat} {w : Worker} {act : Act}
    {e : Effect} (h : FlagPrivate a) (hw : a.workers[i]? = some w)
    (hm : WorkerMove self a i w act e) : FlagPrivate (a.apply i e) where
  acked := by
    intro v hv hmay hflag
    have hflag := hm.updateAck hflag
    refine List.mem_append_right _ ?_
    rcases Agent.mem_apply hv with hv | rfl
    · exact h.acked v hv hmay hflag
    · rw [hm.key, hm.seq]
      exact h.acked w (List.mem_of_getElem? hw) (hm.mayTest hmay) hflag
  coming := by
    intro k s hmain
    exact List.mem_append_right _ (h.coming k s hmain)
  since := by
    have hnone : ∀ k s, .setAck k s ∉ e.events := by
      intro k s
      cases hm <;> simp
    exact FlagPrivate.since_append _ hnone h.since
  leave := by
    -- the worker that finds the flag set can test it, so it has its ACK
    have hacked : a.updateAck = true → w.mayTest = true →
        ∃ pre, (.setAck w.key w.seq :: pre) <:+ a.log ∧ .addItem w.key w.seq ∈ pre := by
      intro hflag hmay
      obtain ⟨pre, hpre⟩ := mem_split_setAck (h.acked w (List.mem_of_getElem? hw) hmay hflag)
      exact ⟨pre, hpre, h.since _ _ pre hpre⟩
    cases hm with
    | fwdAcked _ _ _ hpc hflag | backAcked _ _ hpc hflag =>
      obtain ⟨pre, hpre, hadd⟩ := hacked hflag (by simp [Worker.mayTest, WorkerPc.willTest, hpc])
      exact always_cons.mpr ⟨⟨pre, hpre.trans (List.suffix_cons _ _), hadd⟩,
        always_cons.mpr ⟨trivial, h.leave⟩⟩
    | forward | back | relay | backTest | timeout =>
      exact always_cons.mpr ⟨trivial, h.leave⟩
    | ignore | recv | fwdLock | fwdUnlock | backLock | backUnlock | backSend | clear
    | finalUnlock => exact h.leave

theorem FlagPrivate.step {self : Addr} {a a' : Agent} {act : Act} {ps : List Packet}
    {ds : List Datagram} (h : FlagPrivate a) (hsim : Simulates a (mainLoop MainState.init ds))
    (hG : SetInPrivate a act) (hstep : Agent.Step self a act a' ps) : FlagPrivate a' := by
  cases hstep with
  | syn d hmain hd =>
    refine ⟨fun v hv hmay hflag => ?_, fun k s hk => ?_, ?_, ?_⟩
    · rcases List.mem_append.mp hv with hv | hv
      · exact List.mem_append_right _ (h.acked v hv hmay hflag)
      · -- the new worker will not test a flag that is set
        rw [List.mem_singleton] at hv
        subst hv
        have hclear : a.updateAck = false := hG hd hmay
        rw [hclear] at hflag
        cases hflag
    · exact List.mem_append_right _ (h.coming k s hk)
    · exact FlagPrivate.since_append _ (by simp [synEvents]) h.since
    · exact always_cons.mpr ⟨trivial, always_cons.mpr ⟨trivial,
        always_cons.mpr ⟨trivial, h.leave⟩⟩⟩
  | ack d hmain hd =>
    refine ⟨h.acked, fun k s hk => ?_, h.since, h.leave⟩
    have hk : d.header.key = k ∧ d.header.sequenceNum = s := by simpa using hk
    obtain ⟨rfl, rfl⟩ := hk
    exact hsim.addItem_mem (dispatch_eq_ack.mp hd).2
  | nullDeref | exit | undefined => exact ⟨h.acked, h.coming, h.since, h.leave⟩
  | skip d hmain hd => exact h
  | lockAck k s hmain hlock =>
    refine ⟨h.acked, fun k' s' hk => h.coming k' s' (Or.inl ?_), h.since, h.leave⟩
    simpa [hmain] using hk
  | setAck k s hmain =>
    have hG : ∀ w ∈ a.workers, w.mayTest = true →
        w.update = (k, s) ∨ .setAck w.key w.seq ∈ a.log := hG (k, s) (by simp [MainPc.setting, hmain])
    refine ⟨fun v hv hmay _ => ?_, fun k' s' hk => by simp at hk, ?_, ?_⟩
    · rcases hG v hv hmay with hupd | hmem
      · simp only [Worker.update, Prod.mk.injEq] at hupd
        rw [hupd.1, hupd.2]
        exact List.mem_cons_self
      · exact List.mem_cons_of_mem _ hmem
    · intro k' s' pre hs
      rcases List.suffix_cons_iff.mp hs with heq | hs
      · cases heq
        exact h.coming k s (Or.inr hmain)
      · exact h.since k' s' pre hs
    · exact always_cons.mpr ⟨trivial, h.leave⟩
  | unlockAck k s hmain =>
    exact ⟨h.acked, fun k' s' hk => by simp at hk, h.since, h.leave⟩
  | netlinkAck k s hmain =>
    refine ⟨fun v hv hmay hflag => List.mem_cons_of_mem _ (h.acked v hv hmay hflag),
      fun k' s' hk => by simp at hk, ?_, always_cons.mpr ⟨trivial, h.leave⟩⟩
    exact FlagPrivate.since_append [_] (by simp) h.since
  | worker i w _ e hw hm => exact h.worker hw hm

/-- **No false acknowledgement**, in every run in which the main loop sets the
    flag in private. -/
theorem no_false_ack {self : Addr} {acts : List Act} {a : Agent}
    (hG : Along (Agent.next self) SetInPrivate Agent.init acts)
    (hrun : run (Agent.next self) Agent.init acts = some a) : Always AckedBefore a.log := by
  have hinv : FlagPrivate a := by
    apply hG.invariant hrun FlagPrivate.init
    intro x act x' hreach hx hg hnext
    obtain ⟨ds, hsim⟩ := Agent.simulates hreach
    obtain ⟨-, ps, hstep⟩ := Agent.next_sound self hnext
    exact hx.step hsim hg hstep
  exact hinv.leave

/-- One update at a time: the worker leaves as acknowledged, after its ACK. -/
theorem no_false_ack_single :
    ∃ a, run (Agent.next exampleAgent) Agent.init
        (acceptSyn 0 1 ++ acceptAck 1 ++ List.replicate 4 (.workerStep 0)) = some a ∧
      .leaveAcked (exampleKey 1) 100 none ∈ a.log ∧ Always AckedBefore a.log := by
  have hrun : ((run (Agent.next exampleAgent) Agent.init
      (acceptSyn 0 1 ++ acceptAck 1 ++ List.replicate 4 (.workerStep 0))).any
        fun a => .leaveAcked (exampleKey 1) 100 none ∈ a.log) = true := by decide +kernel
  obtain ⟨a, ha, hmem⟩ := (Option.any_eq_true _ _).mp hrun
  exact ⟨a, ha, of_decide_eq_true hmem, no_false_ack (by decide +kernel) ha⟩

/-- Two updates overlap: the ACK of the first one releases the worker of the
    second one, which has had none. -/
theorem false_ack_overlap :
    ¬ ∀ acts a, run (Agent.next exampleAgent) Agent.init acts = some a →
      Always AckedBefore a.log := by
  intro h
  have hrun : ((run (Agent.next exampleAgent) Agent.init
      (acceptSyn 0 1 ++ acceptSyn 1 2 ++ acceptAck 1 ++ List.replicate 2 (.workerStep 1))).any
        fun a => .leaveAcked (exampleKey 2) 100 none ∈ a.log ∧
          .setAck (exampleKey 2) 100 ∉ a.log) = true := by decide +kernel
  obtain ⟨a, ha, hmem⟩ := (Option.any_eq_true _ _).mp hrun
  obtain ⟨hleave, hset⟩ := of_decide_eq_true hmem
  obtain ⟨post, past, hlog⟩ := List.append_of_mem hleave
  obtain ⟨pre, hpre, -⟩ := h _ a ha _ past (hlog ▸ List.suffix_append _ _)
  refine hset ?_
  rw [hlog]
  exact List.mem_append_right _ (List.mem_cons_of_mem _ (hpre.mem List.mem_cons_self))

/-! ### No lost acknowledgement -/

def Event.leaves (k : FlowKey) (s : BitVec 32) : Event → Bool
  | .leaveAcked k' s' _ | .leaveTimeout k' s' => k' = k ∧ s' = s
  | _ => false

/-- The worker of an update has entered its loop and not left it. -/
def inLoop (k : FlowKey) (s : BitVec 32) (log : List Event) : Bool :=
  .enterLoop k s ∈ log ∧ ∀ e ∈ log, e.leaves k s = false

/-- The main loop accepted an ACK for an update whose worker was in its loop,
    and the worker has not tested the flag since. -/
def untested (k : FlowKey) (s : BitVec 32) : List Event → Bool
  | [] => false
  | .setAck k' s' :: past => (k' = k ∧ s' = s) ∧ inLoop k s past || untested k s past
  | .testAck k' s' _ :: past => ¬ (k' = k ∧ s' = s) && untested k s past
  | _ :: past => untested k s past

/-- A worker whose ACK was accepted finds the flag set at its next test. -/
def FoundSet : Event → List Event → Prop
  | .testAck k s updateAck, past => untested k s past = true → updateAck = true
  | _, _ => True

/-- The main loop sets the flag for a worker that will test it only when every
    other worker is done with the flag, and accepts a SYN for a worker that
    will use the flag only while nobody has an ACK waiting in it. -/
def SetUndisturbed (a : Agent) : Act → Prop
  | .mainStep => ∀ u ∈ a.main.setting, ∀ w ∈ a.workers, w.update = u → w.pc.willTest = true →
      ∀ v ∈ a.workers, v.update ≠ u → v.mayClear = false
  | .mainRecv d => dispatch a.records d.header = .syn → (Worker.fresh d).mayTest = true →
      ∀ w ∈ a.workers, w.pc.willTest = true → untested w.key w.seq a.log = false
  | _ => True

instance (a : Agent) : ∀ act, Decidable (SetUndisturbed a act)
  | .mainStep => inferInstanceAs (Decidable (∀ u ∈ a.main.setting, ∀ w ∈ a.workers,
      w.update = u → w.pc.willTest = true → ∀ v ∈ a.workers, v.update ≠ u → v.mayClear = false))
  | .mainRecv d => inferInstanceAs (Decidable (dispatch a.records d.header = .syn →
      (Worker.fresh d).mayTest = true →
      ∀ w ∈ a.workers, w.pc.willTest = true → untested w.key w.seq a.log = false))
  | .mainExit | .workerStart .. | .workerRecv .. | .workerStep _ => isTrue trivial

theorem untested_enterLoop {k : FlowKey} {s : BitVec 32} {log : List Event}
    (h : untested k s log = true) : .enterLoop k s ∈ log := by
  fun_induction untested k s log with
  | case1 => cases h
  | case2 k' s' past ih =>
    refine List.mem_cons_of_mem _ ?_
    simp only [Bool.or_eq_true, decide_eq_true_eq] at h
    rcases h with ⟨-, hin⟩ | h
    · simp only [inLoop, decide_eq_true_eq] at hin
      exact hin.1
    · exact ih h
  | case3 k' s' b past ih =>
    simp only [Bool.and_eq_true] at h
    exact List.mem_cons_of_mem _ (ih h.2)
  | case4 e past _ _ ih => exact List.mem_cons_of_mem _ (ih h)

section Moves

variable {self : Addr} {a : Agent} {i : Nat} {w : Worker} {act : Act} {e : Effect}

/-- A step of a worker is no test by another worker, and sets no ACK. -/
theorem WorkerMove.untested_append (h : WorkerMove self a i w act e) {k : FlowKey}
    {s : BitVec 32} (hne : (k, s) ≠ w.update) (log : List Event) :
    untested k s (e.events ++ log) = untested k s log := by
  have hne' : ¬ (w.key = k ∧ w.seq = s) := fun heq => hne (by rw [Worker.update, heq.1, heq.2])
  cases h <;> simp [untested, hne']

theorem WorkerMove.enterLoop_mem (h : WorkerMove self a i w act e) {k : FlowKey}
    {s : BitVec 32} (hmem : .enterLoop k s ∈ e.events) : (k, s) = w.update := by
  cases h <;> simp_all [Worker.update]

/-- With one worker per update, the workers after a step of worker `i` are the
    moved one and the others. -/
theorem Agent.mem_apply_update (hnd : (a.workers.map Worker.update).Nodup)
    (hw : a.workers[i]? = some w) {v : Worker} (hv : v ∈ (a.apply i e).workers) :
    v = e.worker ∨ v ∈ a.workers ∧ v.update ≠ w.update := by
  obtain ⟨j, hj, rfl⟩ := List.mem_iff_getElem.mp hv
  simp only [Agent.apply, List.length_set] at hj ⊢
  obtain ⟨hi, hget⟩ := List.getElem?_eq_some_iff.mp hw
  by_cases hij : i = j
  · subst hij
    left
    simp
  · right
    rw [List.getElem_set_ne hij]
    refine ⟨List.getElem_mem hj, fun heq => hij ?_⟩
    have hj' : j < (a.workers.map Worker.update).length := by simpa using hj
    have hi' : i < (a.workers.map Worker.update).length := by simpa using hi
    have hval : (a.workers.map Worker.update)[i] = (a.workers.map Worker.update)[j] := by
      simpa [hget] using heq.symm
    exact (List.Nodup.getElem_inj_iff hnd).mp hval

end Moves

/-- What the guard keeps: a worker with an ACK it has not tested finds the flag
    set, and nobody else is going to clear it. -/
structure FlagKept (a : Agent) : Prop where
  kept : ∀ w ∈ a.workers, w.pc.willTest = true → untested w.key w.seq a.log = true →
    a.updateAck = true ∧ ∀ v ∈ a.workers, v.update ≠ w.update → v.mayClear = false
  fresh : ∀ w ∈ a.workers, w.pc = .start → .enterLoop w.key w.seq ∉ a.log
  known : ∀ k s, .enterLoop k s ∈ a.log → (k, s) ∈ a.workers.map Worker.update
  found : Always FoundSet a.log

theorem FlagKept.init : FlagKept Agent.init where
  kept := by intro w hw; cases hw
  fresh := by intro w hw; cases hw
  known := by intro k s h; cases h
  found := always_nil _

theorem Worker.pc_of_enters {w : Worker} (h : w.enters = true) : w.pc = .start := by
  unfold Worker.enters at h
  split at h
  · assumption
  · cases h

/-- The worker that moves keeps an ACK that it has not tested. -/
theorem FlagKept.kept_moved {self : Addr} {a : Agent} {i : Nat} {w : Worker} {act : Act}
    {e : Effect} (h : FlagKept a) (hnd : (a.workers.map Worker.update).Nodup)
    (hw : a.workers[i]? = some w) (hm : WorkerMove self a i w act e)
    (hwill : e.worker.pc.willTest = true)
    (hun : untested w.key w.seq (e.events ++ a.log) = true) :
    e.updateAck = true ∧
      ∀ v ∈ (a.apply i e).workers, v.update ≠ e.worker.update → v.mayClear = false := by
  rcases hm.willTest hwill with ⟨henters, hevents⟩ | ⟨hwill, hflag, hevents | hevents⟩
  · -- it has just entered its loop, so no ACK was accepted for it there
    simp only [hevents, List.cons_append, List.nil_append, untested] at hun
    exact absurd (untested_enterLoop hun)
      (h.fresh w (List.mem_of_getElem? hw) (Worker.pc_of_enters henters))
  · rw [hevents, List.nil_append] at hun
    obtain ⟨hset, hothers⟩ := h.kept w (List.mem_of_getElem? hw) hwill hun
    refine ⟨hflag.trans hset, ?_⟩
    intro v hv hne
    rw [hm.update] at hne
    rcases Agent.mem_apply_update hnd hw hv with rfl | ⟨hv, -⟩
    · exact absurd hm.update hne
    · exact hothers v hv hne
  · -- it has just tested the flag
    simp [hevents, untested] at hun

/-- So does every other worker: the one that moves is done with the flag. -/
theorem FlagKept.kept_other {self : Addr} {a : Agent} {i : Nat} {w v : Worker} {act : Act}
    {e : Effect} (h : FlagKept a) (hnd : (a.workers.map Worker.update).Nodup)
    (hw : a.workers[i]? = some w) (hm : WorkerMove self a i w act e) (hv : v ∈ a.workers)
    (hne : v.update ≠ w.update) (hwill : v.pc.willTest = true)
    (hun : untested v.key v.seq (e.events ++ a.log) = true) :
    e.updateAck = true ∧
      ∀ u ∈ (a.apply i e).workers, u.update ≠ v.update → u.mayClear = false := by
  rw [hm.untested_append hne] at hun
  obtain ⟨hset, hothers⟩ := h.kept v hv hwill hun
  obtain ⟨hclear, hflag⟩ := hm.not_mayClear (hothers w (List.mem_of_getElem? hw) hne.symm)
  refine ⟨hflag.trans hset, ?_⟩
  intro u hu hne'
  rcases Agent.mem_apply_update hnd hw hu with rfl | ⟨hu, -⟩
  · exact hclear
  · exact hothers u hu hne'

theorem FlagKept.worker {self : Addr} {a : Agent} {i : Nat} {w : Worker} {act : Act}
    {e : Effect} (h : FlagKept a) (hnd : (a.workers.map Worker.update).Nodup)
    (hw : a.workers[i]? = some w) (hm : WorkerMove self a i w act e) :
    FlagKept (a.apply i e) where
  kept := by
    intro v hv hwill hun
    rcases Agent.mem_apply_update hnd hw hv with rfl | ⟨hv, hne⟩
    · rw [hm.key, hm.seq] at hun
      exact h.kept_moved hnd hw hm hwill hun
    · exact h.kept_other hnd hw hm hv hne hwill hun
  fresh := by
    intro v hv hpc hmem
    rcases Agent.mem_apply_update hnd hw hv with rfl | ⟨hv, hne⟩
    · exact hm.pc_ne_start hpc
    · rcases List.mem_append.mp hmem with hmem | hmem
      · exact hne (hm.enterLoop_mem hmem)
      · exact h.fresh v hv hpc hmem
  known := by
    intro k s hmem
    rw [Agent.map_update_apply hw hm]
    rcases List.mem_append.mp hmem with hmem | hmem
    · rw [hm.enterLoop_mem hmem]
      exact List.mem_map_of_mem (List.mem_of_getElem? hw)
    · exact h.known k s hmem
  found := by
    -- a worker that finds the flag clear had no ACK waiting
    have hclear : a.updateAck = false → w.pc.willTest = true →
        untested w.key w.seq a.log = true → false = true := by
      intro hflag hwill hun
      rw [← hflag]
      exact (h.kept w (List.mem_of_getElem? hw) hwill hun).1
    cases hm with
    | relay _ _ hpc hflag | backTest _ _ hpc hflag =>
      exact always_cons.mpr ⟨hclear hflag (by rw [hpc]; rfl), h.found⟩
    | fwdAcked | backAcked =>
      exact always_cons.mpr ⟨trivial, always_cons.mpr ⟨fun _ => rfl, h.found⟩⟩
    | forward | back | timeout => exact always_cons.mpr ⟨trivial, h.found⟩
    | ignore | recv | fwdLock | fwdUnlock | backLock | backUnlock | backSend | clear
    | finalUnlock => exact h.found

/-- The main loop accepts a SYN: the new worker will not use the flag, or
    nobody has an ACK in it. -/
theorem FlagKept.syn {a a' : Agent} {d : Datagram} (h : FlagKept a)
    (hnd' : (a'.workers.map Worker.update).Nodup) (hG : SetUndisturbed a (.mainRecv d))
    (hd : dispatch a.records d.header = .syn)
    (ha' : a' = { a with
      records := addItem a.records d.header.key d.header.sequenceNum
      workers := a.workers ++ [Worker.fresh d]
      log := synEvents d.header.key d.header.sequenceNum ++ a.log }) : FlagKept a' := by
  subst ha'
  have hnew : ∀ w ∈ a.workers ++ [Worker.fresh d], w ∈ a.workers ∨ w = Worker.fresh d := by
    intro w hw
    simpa using hw
  constructor
  · intro w hw hwill hun
    rcases hnew w hw with hw | rfl
    · obtain ⟨hset, hothers⟩ := h.kept w hw hwill hun
      refine ⟨hset, ?_⟩
      intro v hv hne
      rcases hnew v hv with hv | rfl
      · exact hothers v hv hne
      · by_contra hclear
        have henters : (Worker.fresh d).mayTest = true := by
          simpa [Worker.mayClear, Worker.mayTest, Worker.fresh, WorkerPc.willClear,
            WorkerPc.willTest] using hclear
        have hnone : untested w.key w.seq a.log = false := hG hd henters w hw hwill
        rw [show untested w.key w.seq a.log = true from hun] at hnone
        cases hnone
    · cases hwill
  · intro w hw hpc hmem
    have hmem : .enterLoop w.key w.seq ∈ a.log := by simpa [synEvents] using hmem
    rcases hnew w hw with hw | rfl
    · exact h.fresh w hw hpc hmem
    · -- an earlier worker of the same update would be a second one
      rw [List.map_append, List.nodup_append] at hnd'
      exact hnd'.2.2 _ (h.known _ _ hmem) _ (List.mem_singleton_self _) rfl
  · intro k s hmem
    have hmem : .enterLoop k s ∈ a.log := by simpa [synEvents] using hmem
    rw [List.map_append]
    exact List.mem_append_left _ (h.known k s hmem)
  · exact always_cons.mpr ⟨trivial, always_cons.mpr ⟨trivial,
      always_cons.mpr ⟨trivial, h.found⟩⟩⟩

theorem FlagKept.step {self : Addr} {a a' : Agent} {act : Act} {ps : List Packet}
    (h : FlagKept a) (hnd : (a.workers.map Worker.update).Nodup)
    (hnd' : (a'.workers.map Worker.update).Nodup) (hG : SetUndisturbed a act)
    (hstep : Agent.Step self a act a' ps) : FlagKept a' := by
  cases hstep with
  | syn d hmain hd => exact h.syn hnd' hG hd rfl
  | ack | nullDeref | exit | lockAck | unlockAck | undefined =>
    exact ⟨h.kept, h.fresh, h.known, h.found⟩
  | skip d hmain hd => exact h
  | setAck k s hmain =>
    have hG : ∀ w ∈ a.workers, w.update = (k, s) → w.pc.willTest = true →
        ∀ v ∈ a.workers, v.update ≠ (k, s) → v.mayClear = false :=
      hG (k, s) (by simp [MainPc.setting, hmain])
    refine ⟨fun w hw hwill hun => ⟨rfl, fun v hv hne => ?_⟩, fun w hw hpc hmem => ?_,
      fun k' s' hmem => ?_, always_cons.mpr ⟨trivial, h.found⟩⟩
    · by_cases heq : w.update = (k, s)
      · exact hG w hw heq hwill v hv (heq ▸ hne)
      · -- an ACK for another update: the one that waits is older
        have hne' : ¬ (k = w.key ∧ s = w.seq) := fun h => heq (by rw [Worker.update, h.1, h.2])
        simp only [untested, hne', false_and, decide_false, Bool.false_or] at hun
        exact (h.kept w hw hwill hun).2 v hv hne
    · exact h.fresh w hw hpc (by simpa using hmem)
    · exact h.known k' s' (by simpa using hmem)
  | netlinkAck k s hmain =>
    exact ⟨h.kept, fun w hw hpc hmem => h.fresh w hw hpc (by simpa using hmem),
      fun k' s' hmem => h.known k' s' (by simpa using hmem), always_cons.mpr ⟨trivial, h.found⟩⟩
  | worker i w _ e hw hm => exact h.worker hnd hw hm

/-- **No lost acknowledgement**, in every run in which the main loop sets the
    flag undisturbed. -/
theorem no_lost_ack {self : Addr} {acts : List Act} {a : Agent}
    (hG : Along (Agent.next self) SetUndisturbed Agent.init acts)
    (hrun : run (Agent.next self) Agent.init acts = some a) : Always FoundSet a.log := by
  have hinv : FlagKept a := by
    apply hG.invariant hrun FlagKept.init
    intro x act x' hreach hx hg hnext
    obtain ⟨ds, hsim⟩ := Agent.simulates hreach
    obtain ⟨ds', hsim'⟩ := Agent.simulates (hreach.tail hnext)
    obtain ⟨-, ps, hstep⟩ := Agent.next_sound self hnext
    exact hx.step hsim.nodup hsim'.nodup hg hstep
  exact hinv.found

/-- The run of two updates that overlap, up to the point where the first worker
    tests the flag: the second one has left and cleared it. -/
def lostAckRun : List Act :=
  acceptSyn 0 1 ++ acceptSyn 1 2 ++ acceptAck 1 ++ List.replicate 4 (.workerStep 1) ++
    List.replicate 2 (.workerStep 0)

theorem no_lost_ack_single :
    ∃ a, run (Agent.next exampleAgent) Agent.init
        (acceptSyn 0 1 ++ acceptAck 1 ++ List.replicate 2 (.workerStep 0)) = some a ∧
      .testAck (exampleKey 1) 100 true ∈ a.log ∧ Always FoundSet a.log := by
  have hrun : ((run (Agent.next exampleAgent) Agent.init
      (acceptSyn 0 1 ++ acceptAck 1 ++ List.replicate 2 (.workerStep 0))).any
        fun a => .testAck (exampleKey 1) 100 true ∈ a.log) = true := by decide +kernel
  obtain ⟨a, ha, hmem⟩ := (Option.any_eq_true _ _).mp hrun
  exact ⟨a, ha, of_decide_eq_true hmem, no_lost_ack (by decide +kernel) ha⟩

theorem lost_ack_overlap :
    ¬ ∀ acts a, run (Agent.next exampleAgent) Agent.init acts = some a →
      Always FoundSet a.log := by
  intro h
  have hrun : ((run (Agent.next exampleAgent) Agent.init lostAckRun).any
      fun a => a.log.head? = some (.testAck (exampleKey 1) 100 false) ∧
        untested (exampleKey 1) 100 a.log.tail = true) = true := by decide +kernel
  obtain ⟨a, ha, hmem⟩ := (Option.any_eq_true _ _).mp hrun
  obtain ⟨hhead, hun⟩ := of_decide_eq_true hmem
  obtain ⟨past, hlog⟩ := List.head?_eq_some_iff.mp hhead
  have hfound := h _ a ha
  rw [hlog, always_cons] at hfound
  rw [hlog, List.tail_cons] at hun
  cases hfound.1 hun

end MiddleboxSession
