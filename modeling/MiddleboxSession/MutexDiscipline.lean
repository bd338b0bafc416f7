/-
  MiddleboxSession/MutexDiscipline.lean
  =====================================
  **The mutex around `update_ack`.**

  The loops of the two workers leave with the mutex held when they find the
  flag set, and what follows them clears the flag and unlocks.  `updateBack`
  also leaves after 1000 rounds, behind its unlock: it then clears the flag and
  unlocks a mutex that is free or another thread's.

  `Disciplined` says that no thread is about to unlock or write without owning
  the mutex, and that no worker that has returned owns it.  It holds throughout
  a run exactly as long as no worker times out.
-/
import MiddleboxSession.AckFlag
import MiddleboxSession.Mutex

namespace MiddleboxSession

open CBuffer Runs Mutex

/-! ### What a thread does next -/

inductive Operation where
  | unlock
  | write       -- of `update_ack`
  | other
deriving DecidableEq, Repr

def MainPc.operation : MainPc → Operation
  | .setAck .. => .write
  | .unlockAck .. => .unlock
  | .recv | .lockAck .. | .netlinkAck .. => .other

def WorkerPc.operation : WorkerPc → Operation
  | .fwdUnlock _ | .backUnlock .. | .finalUnlock => .unlock
  | .clear => .write
  | .start | .ignored | .fwdPoll _ | .fwdLock .. | .fwdTest .. | .backLock .. | .backTest ..
  | .backSend .. | .done => .other

def WorkerPc.returned : WorkerPc → Bool
  | .ignored | .done => true
  | _ => false

/-- Between a lock and the unlock that belongs to it. -/
def MainPc.holds : MainPc → Bool
  | .setAck .. | .unlockAck .. => true
  | .recv | .lockAck .. | .netlinkAck .. => false

def WorkerPc.holds : WorkerPc → Bool
  | .fwdTest .. | .fwdUnlock _ | .backTest .. | .backUnlock .. | .clear | .finalUnlock => true
  | .start | .ignored | .fwdPoll _ | .fwdLock .. | .backLock .. | .backSend .. | .done => false

/-- The operation that thread `t` executes next is `op`. -/
def Agent.Next (a : Agent) (op : Operation) : Tid → Prop
  | .main => a.main.operation = op
  | .worker i => ∃ w, a.workers[i]? = some w ∧ w.pc.operation = op

def Agent.Returned (a : Agent) : Tid → Prop
  | .main => False
  | .worker i => ∃ w, a.workers[i]? = some w ∧ w.pc.returned = true

def Agent.Holds (a : Agent) : Tid → Prop
  | .main => a.main.holds = true
  | .worker i => ∃ w, a.workers[i]? = some w ∧ w.pc.holds = true

structure Disciplined (a : Agent) : Prop where
  unlock : ∀ t, a.Next .unlock t → a.lock = some t
  write : ∀ t, a.Next .write t → a.lock = some t
  returned : ∀ t, a.Returned t → a.lock ≠ some t

/-! ### The guard -/

/-- The last round of `updateBack`: it leaves its loop behind the unlock. -/
def WorkerPc.timesOut : WorkerPc → Bool
  | .backSend _ count => count ≥ 1000
  | _ => false

def NoTimeout (a : Agent) : Act → Prop
  | .workerStep i => ∀ w ∈ a.workers[i]?, w.pc.timesOut = false
  | .mainRecv _ | .mainStep | .mainExit | .workerStart .. | .workerRecv .. => True

instance (a : Agent) : ∀ act, Decidable (NoTimeout a act)
  | .workerStep i =>
    inferInstanceAs (Decidable (∀ w ∈ a.workers[i]?, w.pc.timesOut = false))
  | .mainRecv _ | .mainStep | .mainExit | .workerStart .. | .workerRecv .. =>
    inferInstanceAs (Decidable True)

/-! ### Ownership -/

theorem MainPc.holds_of_operation {pc : MainPc} (h : pc.operation ≠ .other) :
    pc.holds = true := by
  cases pc with
  | setAck | unlockAck => rfl
  | recv | lockAck | netlinkAck => exact absurd rfl h

theorem WorkerPc.holds_of_operation {pc : WorkerPc} (h : pc.operation ≠ .other) :
    pc.holds = true := by
  cases pc with
  | fwdUnlock | backUnlock | clear | finalUnlock => rfl
  | _ => exact absurd rfl h

theorem WorkerPc.holds_of_returned {pc : WorkerPc} (h : pc.returned = true) :
    pc.holds = false := by
  cases pc with
  | ignored | done => rfl
  | _ => cases h

theorem Agent.holds_of_next {a : Agent} {op : Operation} {t : Tid} (hop : op ≠ .other)
    (h : a.Next op t) : a.Holds t := by
  cases t with
  | main => exact MainPc.holds_of_operation (h.symm ▸ hop)
  | worker i =>
    obtain ⟨w, hw, rfl⟩ := h
    exact ⟨w, hw, WorkerPc.holds_of_operation hop⟩

theorem Agent.not_holds_of_returned {a : Agent} {t : Tid} (h : a.Returned t) :
    ¬ a.Holds t := by
  cases t with
  | main => exact h.elim
  | worker i =>
    obtain ⟨w, hw, hret⟩ := h
    rintro ⟨w', hw', hholds⟩
    obtain rfl := Option.some.inj (hw.symm.trans hw')
    rw [WorkerPc.holds_of_returned hret] at hholds
    cases hholds

/-- **Discipline from ownership**: who unlocks or writes is between a lock and
    its unlock, and who has returned is not. -/
theorem Agent.disciplined {a : Agent} (h : OwnedBy a.lock a.Holds) : Disciplined a where
  unlock t ht := (h t).mp (Agent.holds_of_next (by decide) ht)
  write t ht := (h t).mp (Agent.holds_of_next (by decide) ht)
  returned t ht hlock := Agent.not_holds_of_returned ht ((h t).mpr hlock)

theorem Agent.ownedBy_init : OwnedBy Agent.init.lock Agent.init.Holds := by
  intro t
  cases t with
  | main =>
    refine iff_of_false ?_ ?_
    · exact Bool.false_ne_true
    · simp [Agent.init]
  | worker i =>
    refine iff_of_false ?_ ?_
    · simp [Agent.Holds, Agent.init]
    · simp [Agent.init]

section Steps

variable {self : Addr} {a a' : Agent}

theorem Agent.holds_apply {i : Nat} {w : Worker} {e : Effect} (hw : a.workers[i]? = some w) :
    (a.apply i e).Holds (.worker i) ↔ e.worker.pc.holds = true := by
  have hi : i < a.workers.length := (List.getElem?_eq_some_iff.mp hw).1
  simp [Agent.Holds, Agent.apply, hi]

theorem Agent.holds_apply_of_ne {i : Nat} {e : Effect} {t : Tid} (ht : t ≠ .worker i) :
    (a.apply i e).Holds t ↔ a.Holds t := by
  cases t with
  | main => rfl
  | worker j =>
    have hij : i ≠ j := fun h => ht (by rw [h])
    simp [Agent.Holds, Agent.apply, List.getElem?_set_ne hij]

/-- A move of the main thread. -/
theorem Agent.ownedBy_main (ho : OwnedBy a.lock a.Holds) (hworkers : a'.workers = a.workers)
    (hmove : Move .main a.lock a.Holds a'.lock a'.Holds) : OwnedBy a'.lock a'.Holds := by
  refine ho.move hmove fun t ht => ?_
  cases t with
  | main => exact absurd rfl ht
  | worker i => rw [Agent.Holds, Agent.Holds, hworkers]

/-- A worker that has not started holds nothing. -/
theorem Agent.holds_append {ws : List Worker} {w : Worker} (hpc : w.pc = .start) (i : Nat) :
    (∃ v, (ws ++ [w])[i]? = some v ∧ v.pc.holds = true) ↔
      ∃ v, ws[i]? = some v ∧ v.pc.holds = true := by
  constructor
  · rintro ⟨v, hv, hholds⟩
    rcases Nat.lt_or_ge i ws.length with hi | hi
    · rw [List.getElem?_append_left hi] at hv
      exact ⟨v, hv, hholds⟩
    · rw [List.getElem?_append_right hi] at hv
      obtain rfl := List.mem_singleton.mp (List.mem_of_getElem? hv)
      rw [hpc] at hholds
      cases hholds
  · rintro ⟨v, hv, hholds⟩
    have hi : i < ws.length := (List.getElem?_eq_some_iff.mp hv).1
    exact ⟨v, by rwa [List.getElem?_append_left hi], hholds⟩

/-- Every move of a worker keeps to the mutex, unless it times out. -/
theorem WorkerMove.mutex {i : Nat} {w : Worker} {act : Act} {e : Effect}
    (h : WorkerMove self a i w act e) (hw : a.workers[i]? = some w) (hG : NoTimeout a act) :
    Move (.worker i) a.lock a.Holds (a.apply i e).lock (a.apply i e).Holds := by
  have hholds : a.Holds (.worker i) ↔ w.pc.holds = true := by
    simp [Agent.Holds, hw]
  have hholds' := Agent.holds_apply (e := e) hw
  cases h with
  | ignore _ hpc | forward _ _ _ hpc | back _ _ hpc | recv _ _ hpc | relay _ _ hpc
  | fwdAcked _ _ _ hpc | backTest _ _ hpc | backAcked _ _ hpc | backSend _ _ hpc | clear hpc =>
    refine .keep rfl ?_
    rw [hholds, hholds', hpc]
    rfl
  | fwdLock _ _ hpc hfree | backLock _ _ hpc hfree => exact .acquire hfree rfl (hholds'.mpr rfl)
  | fwdUnlock _ hpc | backUnlock _ _ hpc | finalUnlock hpc =>
    refine .release (hholds.mpr (by rw [hpc]; rfl)) rfl ?_
    rw [hholds']
    simp [WorkerPc.holds]
  | timeout response count hpc hcount =>
    have hno : w.pc.timesOut = false := hG w hw
    rw [hpc] at hno
    exact absurd hcount (of_decide_eq_false hno)

/-- **Every step but a timeout keeps the ownership.** -/
theorem Agent.Step.ownedBy {act : Act} {ps : List Packet} (h : Agent.Step self a act a' ps)
    (hG : NoTimeout a act) (ho : OwnedBy a.lock a.Holds) : OwnedBy a'.lock a'.Holds := by
  cases h with
  | syn d hmain hd =>
    refine ho.move (t := .main) (.keep rfl Iff.rfl) fun t ht => ?_
    cases t with
    | main => exact absurd rfl ht
    | worker i => exact Agent.holds_append rfl i
  | nullDeref | skip | exit | undefined => exact ho
  | ack _ hmain | setAck _ _ hmain | netlinkAck _ _ hmain =>
    refine Agent.ownedBy_main ho ?_ (.keep rfl ?_)
    · rfl
    · simp [Agent.Holds, MainPc.holds, hmain]
  | lockAck k s hmain hfree =>
    refine Agent.ownedBy_main ho ?_ (.acquire hfree rfl ?_)
    · rfl
    · rfl
  | unlockAck k s hmain =>
    refine Agent.ownedBy_main ho ?_ (.release ?_ rfl ?_)
    · rfl
    · simp [Agent.Holds, MainPc.holds, hmain]
    · simp [Agent.Holds, MainPc.holds]
  | worker i w _ e hw hm =>
    exact ho.move (hm.mutex hw hG) fun t ht => Agent.holds_apply_of_ne ht

/-- **A timeout breaks the discipline**: the worker goes on to clear the flag, and
    the mutex is not its own. -/
theorem Agent.Step.not_disciplined {act : Act} {ps : List Packet}
    (h : Agent.Step self a act a' ps) (hG : ¬ NoTimeout a act)
    (ho : OwnedBy a.lock a.Holds) : ¬ Disciplined a' := by
  cases h with
  | worker i w _ e hw hm =>
    have hself : ∀ b, w.pc.timesOut = b → ∀ v ∈ a.workers[i]?, v.pc.timesOut = b := by
      intro b hb v hv
      obtain rfl := Option.some.inj (hw.symm.trans (Option.mem_def.mp hv))
      exact hb
    cases hm with
    | ignore | forward | back | recv => exact absurd trivial hG
    | fwdLock _ _ hpc | relay _ _ hpc | fwdAcked _ _ _ hpc | fwdUnlock _ hpc | backLock _ _ hpc
    | backTest _ _ hpc | backAcked _ _ hpc | backUnlock _ _ hpc | clear hpc | finalUnlock hpc =>
      exact absurd (hself false (by rw [hpc]; rfl)) hG
    | backSend _ _ hpc hcount =>
      refine absurd (hself false ?_) hG
      rw [hpc]
      exact decide_eq_false (not_le.mpr hcount)
    | timeout _ _ hpc hcount =>
      intro hd
      have hi : i < a.workers.length := (List.getElem?_eq_some_iff.mp hw).1
      have hlock : a.lock = some (.worker i) := by
        refine hd.write (.worker i) ⟨{ w with pc := .clear }, ?_, rfl⟩
        simp [Agent.apply, hi]
      obtain ⟨v, hv, hholds⟩ := (ho (.worker i)).mpr hlock
      obtain rfl := Option.some.inj (hw.symm.trans hv)
      rw [hpc] at hholds
      cases hholds
  | _ => exact absurd trivial hG

end Steps

/-- **When the mutex discipline is kept.**  Every thread that is about to unlock
    the mutex or to write `update_ack` owns the mutex, and no worker that has
    returned owns it, in every state of a run: if and only if no worker of the
    run leaves `updateBack`'s loop by its timeout. -/
theorem mutex_discipline {self : Addr} {acts : List Act} {a : Agent}
    (hrun : run (Agent.next self) Agent.init acts = some a) :
    Throughout (Agent.next self) Disciplined Agent.init acts ↔
      Along (Agent.next self) NoTimeout Agent.init acts := by
  refine throughout_iff_along (I := fun a => OwnedBy a.lock a.Holds) hrun Agent.ownedBy_init
    (fun _ ho => Agent.disciplined ho) ?_ ?_
  · intro a act a' ho hG hnext
    obtain ⟨-, ps, hstep⟩ := Agent.next_sound self hnext
    exact hstep.ownedBy hG ho
  · intro a act a' ho hG hnext
    obtain ⟨-, ps, hstep⟩ := Agent.next_sound self hnext
    exact hstep.not_disciplined hG ho

/-- The ACK arrives in the first round, and the mutex is in order all the way. -/
theorem mutex_discipline_single :
    ∃ a, run (Agent.next exampleAgent) Agent.init
        (acceptSyn 0 1 ++ acceptAck 1 ++ List.replicate 4 (.workerStep 0)) = some a ∧
      Throughout (Agent.next exampleAgent) Disciplined Agent.init
        (acceptSyn 0 1 ++ acceptAck 1 ++ List.replicate 4 (.workerStep 0)) := by
  have hrun : (run (Agent.next exampleAgent) Agent.init
      (acceptSyn 0 1 ++ acceptAck 1 ++ List.replicate 4 (.workerStep 0))).isSome = true := by
    decide +kernel
  obtain ⟨a, ha⟩ := Option.isSome_iff_exists.mp hrun
  exact ⟨a, ha, (mutex_discipline ha).mpr (by decide +kernel)⟩

/-! ### A worker that nobody answers -/

/-- One worker, and nothing else goes on. -/
structure Alone (lock : Option Tid) (pc : WorkerPc) (a : Agent) : Prop where
  alive : a.alive = true
  flag : a.updateAck = false
  lock : a.lock = lock
  worker : ∃ w, a.workers = [w] ∧ w.pc = pc

section Alone

variable (self : Addr) {lock lock' : Option Tid} {pc pc' : WorkerPc} {a : Agent}

theorem Alone.next (h : Alone lock pc a)
    (hstep : ∀ w, w.pc = pc → ∃ e, a.workerStep self 0 w = some e ∧ e.worker.pc = pc' ∧
      e.lock = lock' ∧ e.updateAck = false) :
    ∃ a', Agent.next self a (.workerStep 0) = some a' ∧ Alone lock' pc' a' := by
  obtain ⟨w, hw, hpc⟩ := h.worker
  obtain ⟨e, he, hpc', hlock', hflag'⟩ := hstep w hpc
  refine ⟨a.apply 0 e, ?_, h.alive, hflag', hlock', e.worker, ?_, hpc'⟩
  · simp [Agent.next, Agent.step, h.alive, hw, he]
  · simp [Agent.apply, hw]

/-- The steps of one round, up to its SYN-ACK. -/
theorem Alone.round {response : List Byte} {count : Nat}
    (h : Alone none (.backLock response count) a) :
    ∃ a', Reachable (Agent.next self) a a' ∧ Alone none (.backSend response count) a' := by
  obtain ⟨a₁, h₁, hlocked⟩ : ∃ a₁, Agent.next self a (.workerStep 0) = some a₁ ∧
      Alone (some (.worker 0)) (.backTest response count) a₁ := by
    refine h.next self fun w hw => ⟨⟨{ w with pc := .backTest response count }, a.updateAck,
      some (.worker 0), [], []⟩, ?_, rfl, rfl, h.flag⟩
    simp only [Agent.workerStep, hw]
    exact if_pos h.lock
  obtain ⟨a₂, h₂, htested⟩ : ∃ a₂, Agent.next self a₁ (.workerStep 0) = some a₂ ∧
      Alone (some (.worker 0)) (.backUnlock response count) a₂ := by
    refine hlocked.next self fun w hw => ⟨⟨{ w with pc := .backUnlock response count },
      a₁.updateAck, a₁.lock, [.testAck w.key w.seq false], []⟩, ?_, rfl, hlocked.lock,
      hlocked.flag⟩
    simp only [Agent.workerStep, hw]
    exact if_neg (by simp [hlocked.flag])
  obtain ⟨a₃, h₃, hunlocked⟩ : ∃ a₃, Agent.next self a₂ (.workerStep 0) = some a₃ ∧
      Alone none (.backSend response count) a₃ := by
    refine htested.next self fun w hw => ⟨⟨{ w with pc := .backSend response count },
      a₂.updateAck, none, [], []⟩, ?_, rfl, rfl, htested.flag⟩
    simp only [Agent.workerStep, hw]
  exact ⟨a₃, (((Reachable.refl _ a).tail h₁).tail h₂).tail h₃, hunlocked⟩

theorem Alone.again {response : List Byte} {count : Nat}
    (h : Alone none (.backSend response count) a) (hcount : count < 1000) :
    ∃ a', Agent.next self a (.workerStep 0) = some a' ∧
      Alone none (.backLock response (count + 1)) a' := by
  refine h.next self fun w hw => ⟨⟨{ w with pc := .backLock response (count + 1) }, a.updateAck,
    a.lock, [], [⟨mainSock self, w.request.src, response⟩]⟩, ?_, rfl, h.lock, h.flag⟩
  simp only [Agent.workerStep, hw]
  exact if_neg (by omega)

/-- After 1000 rounds the worker leaves without the mutex. -/
theorem Alone.timesOut {response : List Byte} (h : Alone none (.backSend response 1000) a) :
    ∃ a', Agent.next self a (.workerStep 0) = some a' ∧ Alone none .clear a' := by
  refine h.next self fun w hw => ⟨⟨{ w with pc := .clear }, a.updateAck, a.lock,
    [.leaveTimeout w.key w.seq], [⟨mainSock self, w.request.src, response⟩]⟩, ?_, rfl, h.lock,
    h.flag⟩
  simp only [Agent.workerStep, hw]
  exact if_pos (by omega)

theorem Alone.rounds {response : List Byte} (h : Alone none (.backLock response 1) a) {n : Nat}
    (hn : n < 1000) :
    ∃ a', Reachable (Agent.next self) a a' ∧ Alone none (.backSend response (n + 1)) a' := by
  induction n with
  | zero => exact h.round self
  | succ n ih =>
    obtain ⟨a₁, hreach, hsend⟩ := ih (by omega)
    obtain ⟨a₂, h₂, hlock⟩ := hsend.again self (by omega)
    obtain ⟨a₃, hreach', hsend'⟩ := hlock.round self
    exact ⟨a₃, (hreach.tail h₂).trans hreach', hsend'⟩

theorem Alone.not_disciplined (h : Alone none .clear a) : ¬ Disciplined a := by
  obtain ⟨w, hw, hpc⟩ := h.worker
  intro hd
  have hlock := hd.write (.worker 0) ⟨w, by rw [hw]; rfl, by rw [hpc]; rfl⟩
  rw [h.lock] at hlock
  cases hlock

end Alone

def WorkerPc.firstRound : WorkerPc → Bool
  | .backLock _ count => count = 1
  | _ => false

theorem WorkerPc.eq_of_firstRound {pc : WorkerPc} (h : pc.firstRound = true) :
    ∃ response, pc = .backLock response 1 := by
  cases pc with
  | backLock response count => exact ⟨response, by rw [of_decide_eq_true h]⟩
  | _ => cases h

/-- An update that is never acknowledged: its worker times out, and is about to
    clear the flag and to unlock a mutex that it does not own. -/
theorem mutex_not_owned :
    ¬ ∀ acts a, run (Agent.next exampleAgent) Agent.init acts = some a → Disciplined a := by
  intro hall
  have hrun : ((run (Agent.next exampleAgent) Agent.init (acceptSyn 0 1)).any fun a =>
      a.alive = true ∧ a.updateAck = false ∧ a.lock = none ∧
        a.workers.map (fun w => w.pc.firstRound) = [true]) = true := by
    decide +kernel
  obtain ⟨a, ha, hstate⟩ := (Option.any_eq_true _ _).mp hrun
  obtain ⟨halive, hflag, hlock, hpcs⟩ := of_decide_eq_true hstate
  obtain ⟨w, hw, hpc⟩ := List.map_eq_singleton_iff.mp hpcs
  obtain ⟨response, hpc⟩ := WorkerPc.eq_of_firstRound hpc
  have halone : Alone none (.backLock response 1) a := ⟨halive, hflag, hlock, w, hw, hpc⟩
  obtain ⟨a', hreach, hsend⟩ := halone.rounds exampleAgent (n := 999) (by omega)
  obtain ⟨a'', hnext, hclear⟩ := hsend.timesOut exampleAgent
  obtain ⟨acts, hacts⟩ := (Reachable.trans ⟨_, ha⟩ hreach).tail hnext
  exact hclear.not_disciplined (hall acts a'' hacts)

end MiddleboxSession
