/-
  MiddleboxSession/Buffers.lean
  =============================
  **Who frees the receive buffers.**

  Every iteration of MiddleboxAgent's main loop allocates a buffer and an
  address for `recvfrom`.  A SYN that is out of date is freed in its branch; an
  accepted one is handed to its worker, which frees it together with its
  parameter block at the end of `handleUpdate`.  The loop ends once more than
  60 s have passed since the last accepted SYN, and then `mesg` and
  `clientAddressPtr` are freed once more, whatever the last iteration did with
  them.  `freed_once` says after which datagrams that is right.
-/
import MiddleboxSession.Threads

namespace MiddleboxSession

open CBuffer Runs

/-! ### The process and its buffers -/

/-- What is allocated in iteration `j` of the main loop. -/
inductive Buffer where
  | mesg (j : Nat)
  | clientAddressPtr (j : Nat)
  | para (j : Nat)
deriving DecidableEq, Repr

def Buffer.iteration : Buffer → Nat
  | .mesg j | .clientAddressPtr j | .para j => j

/-- A buffer that a worker is to free. -/
structure Owned where
  worker : Nat
  buffer : Buffer
deriving DecidableEq, Repr

/-- Where the main thread stands, as far as its buffers are concerned. -/
inductive LoopPhase where
  | loop                                               -- before the two `malloc`
  | iterate (j : Nat) (d : Datagram) (b : Branch)      -- up to the test of the time
  | leave (rest : List Buffer)                         -- behind the loop: the `free` to come

/-- The process with its buffers.  Times are the seconds of `gettimeofday`;
    `freed` is the history of all calls of `free`. -/
structure Heap where
  agent : Agent
  phase : LoopPhase
  count : Nat
  clock : Int
  t1 : Int
  owned : List Owned
  freed : List Buffer

def Heap.init (t : Int) : Heap where
  agent := Agent.init
  phase := .loop
  count := 0
  clock := t
  t1 := t
  owned := []
  freed := []

/-- The steps of the process; `t` is what the clock shows. -/
inductive HeapAct where
  | recv (d : Datagram) (t : Int)
  | mainStep
  | checkTime (t : Int)
  | mainFree
  | mainReturn
  | worker (act : Act)
  | workerFree (i : Nat)

def Act.ofWorker : Act → Bool
  | .mainRecv _ | .mainStep | .mainExit => false
  | .workerStart .. | .workerRecv .. | .workerStep _ => true

/-- The worker is behind `updateForward` or `updateBack`. -/
def Worker.isDone (w : Worker) : Bool :=
  match w.pc with
  | .done => true
  | _ => false

namespace Heap

/-- An iteration that receives `d`: `a` is the agent after its branch. -/
def recv (s : Heap) (d : Datagram) (t : Int) (a : Agent) : Heap :=
  let j := s.count
  let i := s.agent.workers.length
  let b := dispatch s.agent.records d.header
  { agent := a
    phase := .iterate j d b
    count := j + 1
    clock := t
    t1 := if b = .syn then t else s.t1
    owned := if b = .syn then
        s.owned ++ [⟨i, .mesg j⟩, ⟨i, .clientAddressPtr j⟩, ⟨i, .para j⟩]
      else s.owned
    freed := if b = .outOfDate then [.clientAddressPtr j, .mesg j] ++ s.freed else s.freed }

section Steps

variable (self : Addr)

def step (s : Heap) : HeapAct → Option Heap
  | .recv d t =>
    match s.phase with
    | .loop =>
      if s.clock ≤ t then (s.agent.next self (.mainRecv d)).map (s.recv d t) else none
    | .iterate .. | .leave _ => none
  | .mainStep => (s.agent.next self .mainStep).map fun a => { s with agent := a }
  | .checkTime t =>
    match s.phase with
    | .iterate j _ _ =>
      if s.agent.alive ∧ s.agent.main = .recv ∧ s.clock ≤ t then
        if t - s.t1 > 60 then
          some { s with clock := t, phase := .leave [.mesg j, .clientAddressPtr j] }
        else some { s with clock := t, phase := .loop }
      else none
    | .loop | .leave _ => none
  | .mainFree =>
    match s.phase with
    | .leave (b :: rest) =>
      if s.agent.alive then some { s with phase := .leave rest, freed := b :: s.freed } else none
    | .loop | .iterate .. | .leave [] => none
  | .mainReturn =>
    match s.phase with
    | .leave [] => (s.agent.next self .mainExit).map fun a => { s with agent := a }
    | .loop | .iterate .. | .leave (_ :: _) => none
  | .worker act =>
    if act.ofWorker then (s.agent.next self act).map fun a => { s with agent := a } else none
  | .workerFree i =>
    if s.agent.alive ∧ s.agent.workers[i]?.any Worker.isDone then
      (s.owned.find? fun o => o.worker = i).map fun o =>
        { s with owned := s.owned.erase o, freed := o.buffer :: s.freed }
    else none

/-! ### What a step can do -/

inductive Step (s : Heap) : HeapAct → Heap → Prop
  | recv (d : Datagram) (t : Int) (a : Agent) (hphase : s.phase = .loop) (ht : s.clock ≤ t)
      (ha : s.agent.next self (.mainRecv d) = some a) : Step s (.recv d t) (s.recv d t a)
  | thread (act : HeapAct) (act' : Act) (a : Agent) (hact : ∀ d, act' ≠ .mainRecv d)
      (hact' : ∀ t, act ≠ .checkTime t)
      (ha : s.agent.next self act' = some a) : Step s act { s with agent := a }
  | stay (t : Int) (j : Nat) (d : Datagram) (b : Branch) (hphase : s.phase = .iterate j d b)
      (ht : t - s.t1 ≤ 60) : Step s (.checkTime t) { s with clock := t, phase := .loop }
  | leave (t : Int) (j : Nat) (d : Datagram) (b : Branch) (hphase : s.phase = .iterate j d b)
      (ht : t - s.t1 > 60) :
      Step s (.checkTime t)
        { s with clock := t, phase := .leave [.mesg j, .clientAddressPtr j] }
  | mainFree (b : Buffer) (rest : List Buffer) (hphase : s.phase = .leave (b :: rest)) :
      Step s .mainFree { s with phase := .leave rest, freed := b :: s.freed }
  | workerFree (w : Worker) (o : Owned) (hw : s.agent.workers[o.worker]? = some w)
      (hdone : w.isDone = true) (ho : o ∈ s.owned) :
      Step s (.workerFree o.worker)
        { s with owned := s.owned.erase o, freed := o.buffer :: s.freed }

variable {self}

theorem step_sound {s s' : Heap} {act : HeapAct} (h : s.step self act = some s') :
    Step self s act s' := by
  cases act with
  | recv d t =>
    simp only [step] at h
    split at h
    · split at h
      · obtain ⟨a, ha, rfl⟩ := Option.map_eq_some_iff.mp h
        exact .recv d t a ‹_› ‹_› ha
      · cases h
    · cases h
    · cases h
  | mainStep =>
    obtain ⟨a, ha, rfl⟩ := Option.map_eq_some_iff.mp h
    exact .thread _ .mainStep a (by simp) (by simp) ha
  | checkTime t =>
    simp only [step] at h
    split at h
    · split at h
      · split at h <;> cases h
        · exact .leave t _ _ _ ‹_› ‹_›
        · exact .stay t _ _ _ ‹_› (not_lt.mp ‹_›)
      · cases h
    · cases h
    · cases h
  | mainFree =>
    simp only [step] at h
    split at h
    · split at h <;> cases h
      exact .mainFree _ _ ‹_›
    all_goals cases h
  | mainReturn =>
    simp only [step] at h
    split at h
    · obtain ⟨a, ha, rfl⟩ := Option.map_eq_some_iff.mp h
      exact .thread _ .mainExit a (by simp) (by simp) ha
    all_goals cases h
  | worker act =>
    simp only [step] at h
    split at h
    · rename_i hworker
      obtain ⟨a, ha, rfl⟩ := Option.map_eq_some_iff.mp h
      refine .thread _ act a ?_ (by simp) ha
      rintro d rfl
      cases hworker
    · cases h
  | workerFree i =>
    simp only [step] at h
    split at h
    · rename_i hdone
      obtain ⟨w, hw, hwdone⟩ := (Option.any_eq_true _ _).mp hdone.2
      obtain ⟨o, ho, rfl⟩ := Option.map_eq_some_iff.mp h
      have hfound := List.find?_some ho
      obtain rfl := of_decide_eq_true hfound
      exact .workerFree w o hw hwdone (List.mem_of_find?_eq_some ho)
    · cases h

end Steps

end Heap

/-! ### Lists of buffers -/

/-- Different buffers, of the first `n` iterations. -/
def Once (n : Nat) (l : List Buffer) : Prop := l.Nodup ∧ ∀ b ∈ l, b.iteration < n

theorem Once.perm {n : Nat} {l l' : List Buffer} (h : Once n l) (hp : l.Perm l') : Once n l' :=
  ⟨hp.nodup_iff.mp h.1, fun b hb => h.2 b (hp.mem_iff.mpr hb)⟩

/-- The buffers of the next iteration are new. -/
theorem Once.fresh {n : Nat} {l new : List Buffer} (h : Once n l) (hnew : new.Nodup)
    (hiter : ∀ b ∈ new, b.iteration = n) : Once (n + 1) (new ++ l) := by
  refine ⟨List.nodup_append'.mpr ⟨hnew, h.1, ?_⟩, ?_⟩
  · intro b hb hb'
    have hlt := h.2 b hb'
    rw [hiter b hb] at hlt
    exact absurd hlt (lt_irrefl n)
  · intro b hb
    rcases List.mem_append.mp hb with hb | hb
    · rw [hiter b hb]
      exact Nat.lt_succ_self n
    · exact (h.2 b hb).trans (Nat.lt_succ_self n)

/-! ### The workers -/

/-- The worker is one that comes to the end of `handleUpdate`. -/
def Agent.frees (a : Agent) (o : Owned) : Bool :=
  a.workers[o.worker]?.any fun w => handleUpdate w.request.buf w.request.n ≠ .ignored

/-- A worker in or behind a loop is one that does not ignore its request. -/
def WorkerHandles (w : Worker) : Prop :=
  w.pc = .start ∨ w.pc = .ignored ∨ handleUpdate w.request.buf w.request.n ≠ .ignored

section Workers

variable {self : Addr} {a a' : Agent}

theorem WorkerMove.handles {i : Nat} {w : Worker} {act : Act} {e : Effect}
    (h : WorkerMove self a i w act e) (hw : WorkerHandles w) : WorkerHandles e.worker := by
  have hkeep : ∀ pc, w.pc = pc → pc ≠ .start → pc ≠ .ignored →
      handleUpdate w.request.buf w.request.n ≠ .ignored := by
    rintro pc rfl hstart hign
    exact (hw.resolve_left hstart).resolve_left hign
  cases h with
  | ignore port hpc hh => exact Or.inr (Or.inl rfl)
  | forward port next mesg hpc hh | back port response hpc hh =>
    refine Or.inr (Or.inr ?_)
    rw [hh]
    exact Handled.noConfusion
  | recv _ _ hpc | fwdLock _ _ hpc _ | relay _ _ hpc _ | fwdAcked _ _ _ hpc _ _ | fwdUnlock _ hpc
  | backLock _ _ hpc _ | backTest _ _ hpc _ | backAcked _ _ hpc _ | backUnlock _ _ hpc
  | backSend _ _ hpc _ | timeout _ _ hpc _ | clear hpc | finalUnlock hpc =>
    exact Or.inr (Or.inr (hkeep _ hpc WorkerPc.noConfusion WorkerPc.noConfusion))

/-- A step other than a receive of the main loop: the workers keep their requests. -/
theorem Agent.next_workers {act : Act} (h : a.next self act = some a')
    (hact : ∀ d, act ≠ .mainRecv d) :
    a'.frees = a.frees ∧ a'.workers.length = a.workers.length ∧
      ((∀ w ∈ a.workers, WorkerHandles w) → ∀ w ∈ a'.workers, WorkerHandles w) := by
  obtain ⟨-, ps, hstep⟩ := Agent.next_sound self h
  cases hstep with
  | worker i w _ e hw hm =>
    refine ⟨?_, ?_, ?_⟩
    · funext o
      obtain ⟨hi, hwi⟩ := List.getElem?_eq_some_iff.mp hw
      simp only [Agent.frees, Agent.apply, List.getElem?_set]
      by_cases ho : i = o.worker
      · rw [if_pos ho, ← ho, if_pos hi, hw, Option.any_some, Option.any_some, hm.request]
      · rw [if_neg ho]
    · simp [Agent.apply]
    · intro hall v hv
      rcases List.mem_or_eq_of_mem_set hv with hv | rfl
      · exact hall v hv
      · exact hm.handles (hall w (List.mem_of_getElem? hw))
  | syn d | ack d | nullDeref d | skip d => exact absurd rfl (hact d)
  | exit | lockAck | setAck | unlockAck | netlinkAck | undefined => exact ⟨rfl, rfl, id⟩

/-- What an iteration does to the list of workers. -/
theorem Agent.next_mainRecv {d : Datagram} (h : a.next self (.mainRecv d) = some a') :
    a'.workers = if dispatch a.records d.header = .syn then
      a.workers ++ [{ request := d, port := none, pc := .start }] else a.workers := by
  obtain ⟨-, ps, hstep⟩ := Agent.next_sound self h
  cases hstep with
  | syn _ _ hd => rw [if_pos hd]
  | ack _ _ hd | nullDeref _ _ hd => rw [if_neg (by rw [hd]; exact Branch.noConfusion)]
  | skip _ _ hd =>
    rw [if_neg]
    intro hsyn
    rw [hsyn] at hd
    simp at hd
  | worker i w _ e hw hm => cases hm

end Workers

/-! ### The invariant -/

namespace Heap

/-- What the workers will free. -/
def owed (s : Heap) : List Buffer := (s.owned.filter s.agent.frees).map Owned.buffer

/-- What the main thread has still to free behind its loop. -/
def pending (s : Heap) : List Buffer :=
  match s.phase with
  | .leave rest => rest
  | .loop | .iterate .. => []

def held (s : Heap) : List Buffer := s.owed ++ (s.pending ++ s.freed)

end Heap

/-- Nobody but the main thread frees the buffers of an iteration that took `d`:
    it was no SYN, or a SYN that was accepted with a number that is not positive,
    so that its worker returns at once. -/
def Kept (d : Datagram) (b : Branch) : Prop :=
  b ≠ .outOfDate ∧ (b = .syn → d.header.sequenceNum.toInt ≤ 0)

instance (d : Datagram) (b : Branch) : Decidable (Kept d b) :=
  inferInstanceAs (Decidable (_ ∧ _))

structure HeapInv (s : Heap) : Prop where
  once : Once s.count s.held
  last : ∀ j d b, s.phase = .iterate j d b → s.count = j + 1 ∧ (Kept d b → Once j s.held)
  owners : ∀ o ∈ s.owned, o.worker < s.agent.workers.length
  handles : ∀ w ∈ s.agent.workers, WorkerHandles w

theorem HeapInv.init (t : Int) : HeapInv (Heap.init t) where
  once := ⟨List.nodup_nil, fun _ hb => absurd hb List.not_mem_nil⟩
  last := fun _ _ _ h => by cases h
  owners := fun _ h => absurd h List.not_mem_nil
  handles := fun _ h => absurd h List.not_mem_nil

/-- The buffers of iteration `j` that its branch frees, or hands to a worker that does. -/
def claimed (j : Nat) (d : Datagram) (b : Branch) : List Buffer :=
  match b with
  | .outOfDate => [.clientAddressPtr j, .mesg j]
  | .syn =>
    if handleUpdate d.buf d.n = .ignored then []
    else [.mesg j, .clientAddressPtr j, .para j]
  | .ack | .outOfOrder | .nullDeref | .other => []

theorem claimed_nodup (j : Nat) (d : Datagram) (b : Branch) : (claimed j d b).Nodup := by
  unfold claimed
  split
  · simp
  · split <;> simp
  all_goals exact List.nodup_nil

theorem iteration_of_claimed {j : Nat} {d : Datagram} {b : Branch} {x : Buffer}
    (h : x ∈ claimed j d b) : x.iteration = j := by
  unfold claimed at h
  split at h
  · simp only [List.mem_cons, List.not_mem_nil, or_false] at h
    rcases h with rfl | rfl <;> rfl
  · split at h
    · cases h
    · simp only [List.mem_cons, List.not_mem_nil, or_false] at h
      rcases h with rfl | rfl | rfl <;> rfl
  all_goals cases h

theorem Kept.claimed_eq_nil {j : Nat} {d : Datagram} {b : Branch} (h : Kept d b) :
    claimed j d b = [] := by
  unfold claimed
  split
  · exact absurd rfl h.1
  · exact if_pos (handleUpdate_eq_ignored.mpr (h.2 rfl))
  all_goals rfl

section HeapSteps

variable {self : Addr} {s s' : Heap} {d : Datagram} {t : Int} {a : Agent}

/-- The old workers keep their answers when a worker is added. -/
theorem Agent.frees_append {a a' : Agent} {ws : List Worker} (h : a'.workers = a.workers ++ ws)
    {o : Owned} (ho : o.worker < a.workers.length) : a'.frees o = a.frees o := by
  rw [Agent.frees, Agent.frees, h, List.getElem?_append_left ho]

theorem HeapInv.owed_syn (h : HeapInv s) (ha : s.agent.next self (.mainRecv d) = some a)
    (hsyn : dispatch s.agent.records d.header = .syn) :
    (s.recv d t a).owed = s.owed ++ claimed s.count d .syn := by
  have hworkers := Agent.next_mainRecv ha
  rw [if_pos hsyn] at hworkers
  have hold : s.owned.filter a.frees = s.owned.filter s.agent.frees :=
    List.filter_congr fun o ho => Agent.frees_append hworkers (h.owners o ho)
  have hnew : ∀ b, a.frees ⟨s.agent.workers.length, b⟩ =
      decide (handleUpdate d.buf d.n ≠ .ignored) := by
    intro b
    simp only [Agent.frees, hworkers, List.getElem?_concat_length, Option.any_some]
  simp only [Heap.owed, Heap.recv, if_pos hsyn, List.filter_append, hold, List.map_append, claimed]
  congr 1
  by_cases hign : handleUpdate d.buf d.n = .ignored
  · simp [hnew, hign]
  · simp [hnew, hign]

theorem HeapInv.owed_not_syn (ha : s.agent.next self (.mainRecv d) = some a)
    (hsyn : dispatch s.agent.records d.header ≠ .syn) : (s.recv d t a).owed = s.owed := by
  have hworkers := Agent.next_mainRecv ha
  rw [if_neg hsyn] at hworkers
  have hfrees : a.frees = s.agent.frees := by
    funext o
    rw [Agent.frees, Agent.frees, hworkers]
  simp only [Heap.owed, Heap.recv, if_neg hsyn, hfrees]

/-- An iteration adds the buffers that its branch claims. -/
theorem HeapInv.held_recv (h : HeapInv s) (hphase : s.phase = .loop)
    (ha : s.agent.next self (.mainRecv d) = some a) :
    (s.recv d t a).held.Perm
      (claimed s.count d (dispatch s.agent.records d.header) ++ s.held) := by
  have hheld : s.held = s.owed ++ s.freed := by
    rw [Heap.held, Heap.pending, hphase, List.nil_append]
  have hheld' : (s.recv d t a).held = (s.recv d t a).owed ++ (s.recv d t a).freed := rfl
  rw [hheld, hheld']
  cases hb : dispatch s.agent.records d.header with
  | syn =>
    have hfreed : (s.recv d t a).freed = s.freed := by
      simp only [Heap.recv, hb, reduceCtorEq, if_false]
    rw [h.owed_syn ha hb, hfreed, List.append_assoc]
    exact List.perm_append_comm_assoc _ _ _
  | outOfDate =>
    have hfreed : (s.recv d t a).freed = claimed s.count d .outOfDate ++ s.freed := by
      simp only [Heap.recv, hb, if_true, claimed]
    rw [owed_not_syn ha (by rw [hb]; exact Branch.noConfusion), hfreed]
    exact List.perm_append_comm_assoc _ _ _
  | ack | outOfOrder | nullDeref | other =>
    have hfreed : (s.recv d t a).freed = s.freed := by
      simp only [Heap.recv, hb, reduceCtorEq, if_false]
    rw [owed_not_syn ha (by rw [hb]; exact Branch.noConfusion), hfreed]
    exact List.Perm.refl _

theorem HeapInv.recv (h : HeapInv s) (hphase : s.phase = .loop)
    (ha : s.agent.next self (.mainRecv d) = some a) : HeapInv (s.recv d t a) := by
  have hheld := h.held_recv (t := t) hphase ha
  have hworkers := Agent.next_mainRecv ha
  refine ⟨?_, ?_, ?_, ?_⟩
  · have hnew := claimed_nodup s.count d (dispatch s.agent.records d.header)
    exact (h.once.fresh hnew fun x hx => iteration_of_claimed hx).perm hheld.symm
  · rintro j d' b hiter
    cases hiter
    refine ⟨rfl, ?_⟩
    intro hkept
    rw [hkept.claimed_eq_nil, List.nil_append] at hheld
    exact h.once.perm hheld.symm
  · intro o ho
    simp only [Heap.recv] at ho ⊢
    split at ho <;> rename_i hsyn
    · rw [hworkers, if_pos hsyn, List.length_append]
      rcases List.mem_append.mp ho with ho | ho
      · have hlt := h.owners o ho
        exact Nat.lt_add_right _ hlt
      · simp only [List.mem_cons, List.not_mem_nil, or_false] at ho
        rcases ho with rfl | rfl | rfl <;> exact Nat.lt_succ_self _
    · rw [hworkers, if_neg hsyn]
      exact h.owners o ho
  · intro w hw
    simp only [Heap.recv, hworkers] at hw
    split at hw
    · rcases List.mem_append.mp hw with hw | hw
      · exact h.handles w hw
      · rw [List.mem_singleton.mp hw]
        exact Or.inl rfl
    · exact h.handles w hw

/-- The loop is left only with buffers that nobody else frees. -/
def LeavesKept (s : Heap) : HeapAct → Prop
  | .checkTime t =>
    match s.phase with
    | .iterate _ d b => t - s.t1 > 60 → Kept d b
    | .loop | .leave _ => True
  | .recv .. | .mainStep | .mainFree | .mainReturn | .worker _ | .workerFree _ => True

/-- The other threads go on, and no buffer changes its owner. -/
theorem HeapInv.thread (h : HeapInv s) {act : Act} (hact : ∀ d, act ≠ .mainRecv d)
    (ha : s.agent.next self act = some a) : HeapInv { s with agent := a } := by
  obtain ⟨hfrees, hlength, hhandles⟩ := Agent.next_workers ha hact
  have hheld : Heap.held { s with agent := a } = s.held := by
    simp only [Heap.held, Heap.owed, Heap.pending, hfrees]
  refine ⟨?_, ?_, ?_, hhandles h.handles⟩
  · rw [hheld]
    exact h.once
  · intro j d b hiter
    rw [hheld]
    exact h.last j d b hiter
  · intro o ho
    rw [hlength]
    exact h.owners o ho

theorem HeapInv.step (h : HeapInv s) {act : HeapAct} (hG : LeavesKept s act)
    (hstep : s.step self act = some s') : HeapInv s' := by
  cases Heap.step_sound hstep with
  | recv d t a hphase ht ha => exact h.recv hphase ha
  | thread _ act' a hact hact' ha => exact h.thread hact ha
  | stay t j d b hphase ht =>
    have hheld : Heap.held { s with clock := t, phase := .loop } = s.held := by
      rw [Heap.held, Heap.held, Heap.pending, Heap.pending, hphase]
      rfl
    refine ⟨?_, (fun _ _ _ hiter => by cases hiter), h.owners, h.handles⟩
    rw [hheld]
    exact h.once
  | leave t j d b hphase ht =>
    obtain ⟨hcount, hlast⟩ := h.last j d b hphase
    have hkept : Kept d b := by
      simp only [LeavesKept, hphase] at hG
      exact hG ht
    have hheld : s.held = s.owed ++ s.freed := by
      rw [Heap.held, Heap.pending, hphase, List.nil_append]
    have hnew : Once (j + 1) ([.mesg j, .clientAddressPtr j] ++ s.held) := by
      refine (hlast hkept).fresh (by simp) ?_
      intro x hx
      simp only [List.mem_cons, List.not_mem_nil, or_false] at hx
      rcases hx with rfl | rfl <;> rfl
    refine ⟨?_, (fun _ _ _ hiter => by cases hiter), h.owners, h.handles⟩
    rw [hheld] at hnew
    rw [← hcount] at hnew
    exact hnew.perm (List.perm_append_comm_assoc _ _ _)
  | mainFree b rest hphase =>
    refine ⟨?_, (fun _ _ _ hiter => by cases hiter), h.owners, h.handles⟩
    have hheld : s.held = s.owed ++ (b :: rest ++ s.freed) := by
      rw [Heap.held, Heap.pending, hphase]
    have honce := h.once
    rw [hheld] at honce
    exact honce.perm (List.Perm.append_left _ List.perm_middle.symm)
  | workerFree w o hw hdone ho =>
    have hhandles := h.handles w (List.mem_of_getElem? hw)
    have hpc : w.pc = .done := by
      unfold Worker.isDone at hdone
      split at hdone
      · assumption
      · cases hdone
    have hfrees : s.agent.frees o = true := by
      rw [Agent.frees, hw, Option.any_some, decide_eq_true_eq]
      exact (hhandles.resolve_left (by rw [hpc]; exact WorkerPc.noConfusion)).resolve_left
        (by rw [hpc]; exact WorkerPc.noConfusion)
    let rest := ((s.owned.erase o).filter s.agent.frees).map Owned.buffer
    have howed : s.owed.Perm (o.buffer :: rest) := by
      have hperm := ((List.perm_cons_erase ho).filter s.agent.frees).map Owned.buffer
      rw [List.filter_cons_of_pos hfrees] at hperm
      exact hperm
    let s₁ : Heap := { s with owned := s.owned.erase o, freed := o.buffer :: s.freed }
    have hheld : s.held.Perm s₁.held := calc
      s.held.Perm (o.buffer :: (rest ++ (s.pending ++ s.freed))) := howed.append_right _
      List.Perm _ (rest ++ (o.buffer :: (s.pending ++ s.freed))) := List.perm_middle.symm
      List.Perm _ (rest ++ (s.pending ++ (o.buffer :: s.freed))) :=
        List.perm_middle.symm.append_left _
    refine ⟨h.once.perm hheld, ?_, ?_, h.handles⟩
    · intro j d b hiter
      obtain ⟨hcount, hlast⟩ := h.last j d b hiter
      exact ⟨hcount, fun hkept => (hlast hkept).perm hheld⟩
    · exact fun o' ho' => h.owners o' (List.mem_of_mem_erase ho')

/-- **When every buffer is freed at most once.**  In every run in which the main
    thread leaves its loop only after an iteration that took no SYN, or one that
    it accepted with a number that is not positive, no buffer is ever freed
    twice, whatever else arrives, the clock shows and the workers do. -/
theorem freed_once {t₀ : Int} {acts : List HeapAct}
    (hG : Along (Heap.step self) LeavesKept (Heap.init t₀) acts) :
    Throughout (Heap.step self) (fun s => s.freed.Nodup) (Heap.init t₀) acts := by
  have hinv : Throughout (Heap.step self) HeapInv (Heap.init t₀) acts :=
    hG.throughout (HeapInv.init t₀) fun s act s' h hact hstep => h.step hact hstep
  refine hinv.mono fun s h => ?_
  exact ((List.nodup_append'.mp ((List.nodup_append'.mp h.once.1).2.1)).2.1)

end HeapSteps

/-! ### One flow -/

/-- A datagram at the agent. -/
def arrives (payload : List Byte) : Datagram := recvfrom ⟨⟨0, 5000⟩, ⟨0, UDP_PORT⟩, payload⟩ 0

instance : ∀ (s : Heap) (act : HeapAct), Decidable (LeavesKept s act)
  | s, .checkTime t =>
    match h : s.phase with
    | .iterate _ d b => decidable_of_iff (t - s.t1 > 60 → Kept d b) (by simp only [LeavesKept, h])
    | .loop => isTrue (by simp only [LeavesKept, h])
    | .leave _ => isTrue (by simp only [LeavesKept, h])
  | _, .recv .. | _, .mainStep | _, .mainFree | _, .mainReturn | _, .worker _ | _, .workerFree _ =>
    isTrue trivial

/-- An update is accepted and acknowledged, its worker frees what it was given,
    and a SYN-ACK that arrives after 61 s ends the loop. -/
theorem freed_once_session :
    let acts : List HeapAct := [.recv (arrives (synBytes ackKey 100 [0])) 0, .checkTime 0,
      .worker (.workerStart 0 5000), .recv (arrives (ackBytes 100)) 0, .mainStep, .mainStep,
      .mainStep, .mainStep, .checkTime 0, .worker (.workerStep 0), .worker (.workerStep 0),
      .worker (.workerStep 0), .worker (.workerStep 0), .workerFree 0, .workerFree 0,
      .workerFree 0, .recv (arrives (synAckBytes ackKey 100)) 61, .checkTime 61, .mainFree,
      .mainFree, .mainReturn]
    ∃ s, run (Heap.step 0) (Heap.init 0) acts = some s ∧ s.freed.length = 5 ∧ s.freed.Nodup := by
  intro acts
  have hrun : ((run (Heap.step 0) (Heap.init 0) acts).any fun s => s.freed.length = 5) = true := by
    decide +kernel
  have hG : Along (Heap.step 0) LeavesKept (Heap.init 0) acts := by
    decide +kernel
  obtain ⟨s, hs, hlength⟩ := (Option.any_eq_true _ _).mp hrun
  exact ⟨s, hs, of_decide_eq_true hlength, (freed_once hG).last hs⟩

/-- The SYN arrives once more after 61 s: its branch frees the buffers, which
    ends the loop, and they are freed again behind it. -/
theorem freed_twice :
    ¬ ∀ acts s, run (Heap.step 0) (Heap.init 0) acts = some s → s.freed.Nodup := by
  intro h
  let acts : List HeapAct := [.recv (arrives (synBytes ackKey 100 [0])) 0, .checkTime 0,
    .recv (arrives (synBytes ackKey 100 [0])) 61, .checkTime 61, .mainFree]
  have hrun : ((run (Heap.step 0) (Heap.init 0) acts).any fun s => ¬ s.freed.Nodup) = true := by
    decide +kernel
  obtain ⟨s, hs, htwice⟩ := (Option.any_eq_true _ _).mp hrun
  exact of_decide_eq_true htwice (h acts s hs)

end MiddleboxSession
