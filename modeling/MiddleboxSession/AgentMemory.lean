/-
  MiddleboxSession/AgentMemory.lean
  =================================
  **The handshake with every agent's flow table in memory.**

  The processes of Threads.lean keep their flow table in a `FlowTable`.  Here
  the main loop of a process works on memory, with `findItem` and `addItem` of
  FlowMemory.lean; the rest of the process is the one of Threads.lean, whose own
  field `records` stays empty.  No other thread reads or writes the table.

  `SystemMem.step` has no result when memory is touched that is not allocated.
  This never happens, and the system goes in lockstep with the one of
  Network.lean (`SystemMem.lockstep`).
-/
import MiddleboxSession.FlowMemory
import MiddleboxSession.Handshake

namespace MiddleboxSession

open CBuffer UTHash Runs

/-! ### The main loop -/

/-- What an iteration does with the element that `findItem` returned. -/
def dispatchOn (retv : Option Flow) (msgheader : Header) : Branch :=
  if msgheader.action = 4 then
    match retv with
    | some r => if r.sequenceNumber.toInt ≥ msgheader.sequenceNum.toInt then .outOfDate else .syn
    | none => .syn
  else if msgheader.action = 6 then
    match retv with
    | some r => if r.sequenceNumber = msgheader.sequenceNum then .ack else .outOfOrder
    | none => .nullDeref
  else .other

theorem dispatch_eq_dispatchOn (records : FlowTable) (h : Header) :
    dispatch records h = dispatchOn (findItem records h.key) h := rfl

/-- The process without its flow table. -/
def Agent.erase (a : Agent) : Agent := { a with records := FlowTable.empty }

section Process

variable {ι : Type} [DecidableEq ι] (malloc : Nat → List ι → ι)

/-- `recvfrom` in the main loop and what follows it. -/
def Agent.mainRecvMem (a : Agent) (flows : FlowMem ι) (d : Datagram) :
    Option (FlowMem ι × Agent) := do
  let h := d.header
  let retv ← FlowMem.findItem flows h.key
  match dispatchOn retv h with
  | .syn => do
    let flows ← FlowMem.addItem malloc flows h.key h.sequenceNum
    pure (flows, { a with
      workers := a.workers ++ [{ request := d, port := none, pc := .start }]
      log := synEvents h.key h.sequenceNum ++ a.log })
  | .ack => pure (flows, { a with main := .lockAck h.key h.sequenceNum })
  | .nullDeref => pure (flows, { a with alive := false })
  | .outOfDate | .outOfOrder | .other => pure (flows, a)

variable {malloc} {a : Agent}

theorem Agent.refines_mainRecv (hfresh : ∀ n live, malloc n live ∉ live) {flows : FlowMem ι}
    (h : HashMem.Refines flows a.records.head) (d : Datagram) :
    ∃ flows', a.erase.mainRecvMem malloc flows d = some (flows', (a.mainRecv d).erase) ∧
      HashMem.Refines flows' (a.mainRecv d).records.head := by
  have hfind : FlowMem.findItem flows d.header.key =
      some (MiddleboxSession.findItem a.records d.header.key) := h.lookup _
  obtain ⟨flows', hadd, hr⟩ :=
    FlowMem.refines_addItem hfresh h d.header.key d.header.sequenceNum
  unfold Agent.mainRecvMem Agent.mainRecv
  simp only [hfind, Option.bind_eq_bind, Option.bind_some, ← dispatch_eq_dispatchOn]
  cases dispatch a.records d.header with
  | syn =>
    simp only [hadd, Option.bind_some]
    exact ⟨flows', rfl, hr⟩
  | ack | nullDeref | outOfDate | outOfOrder | other => exact ⟨flows, rfl, h⟩

/-- The other steps do not look at the flow table. -/
theorem Agent.step_erase (self : Addr) {act : Act} (hact : ∀ d, act ≠ .mainRecv d) :
    a.erase.step self act = (a.step self act).map fun r => (r.1.erase, r.2) := by
  unfold Agent.step
  by_cases halive : a.alive = true
  · rw [if_pos halive, if_pos (show a.erase.alive = true from halive)]
    cases act with
    | mainRecv d => exact absurd rfl (hact d)
    | mainStep =>
      unfold Agent.mainStep Agent.erase
      cases hmain : a.main with
      | lockAck k s => by_cases hlock : a.lock = none <;> simp [hlock]
      | _ => rfl
    | mainExit =>
      unfold Agent.erase
      by_cases hmain : a.main = .recv <;> simp [hmain]
    | workerStart i port =>
      have hworkers : a.erase.workers = a.workers := rfl
      have hport : a.erase.freshPort port = a.freshPort port := rfl
      simp only [hworkers]
      cases a.workers[i]? with
      | none => rfl
      | some w =>
        simp only [Option.bind_some, Agent.workerStart, hport]
        cases w.pc with
        | start =>
          cases handleUpdate w.request.buf w.request.n with
          | forward next mesg =>
            dsimp only
            split <;> rfl
          | _ => rfl
        | _ => rfl
    | workerRecv i d =>
      have hworkers : a.erase.workers = a.workers := rfl
      simp only [hworkers]
      cases a.workers[i]? with
      | none => rfl
      | some w =>
        simp only [Option.bind_some]
        cases w.pc <;> rfl
    | workerStep i =>
      have hworkers : a.erase.workers = a.workers := rfl
      have hstep : ∀ w, a.erase.workerStep self i w = a.workerStep self i w := fun _ => rfl
      simp only [hworkers]
      cases a.workers[i]? with
      | none => rfl
      | some w =>
        simp only [Option.bind_some, hstep, Option.map_map]
        rfl
  · rw [if_neg halive, if_neg (show ¬ a.erase.alive = true from halive)]
    rfl

end Process

/-! ### The system -/

variable {sc : Scenario}

def System.erase (s : System sc) : System sc := { s with agents := fun a => (s.agents a).erase }

theorem System.put_erase (s : System sc) (a : Addr) (a' : Agent) (ps : List Packet) :
    (s.put a a' ps).erase = s.erase.put a a'.erase ps := by
  have hagents : (fun b => (Function.update s.agents a a' b).erase) =
      Function.update (fun b => (s.agents b).erase) a a'.erase :=
    Function.comp_update Agent.erase s.agents a a'
  unfold System.put System.erase System.send
  simp only [hagents]

theorem System.stepAgent_erase (s : System sc) (a : Addr) {act : Act}
    (hact : ∀ d, act ≠ .mainRecv d) :
    s.erase.stepAgent a act = (s.stepAgent a act).map System.erase := by
  have hagent : s.erase.agents a = (s.agents a).erase := rfl
  unfold System.stepAgent
  rw [hagent, Agent.step_erase a hact, Option.map_map, Option.map_map]
  congr 1
  funext r
  exact (System.put_erase s a r.1 r.2).symm

/-- The datagram that a step hands to a main loop. -/
def SysAct.isMainRecv {n : Nat} : SysAct n → Bool
  | .mainRecv .. => true
  | _ => false

theorem System.step_erase (s : System sc) {act : SysAct sc.n} (hact : act.isMainRecv = false) :
    s.erase.step act = (s.step act).map System.erase := by
  cases act with
  | mainRecv => cases hact
  | notify u =>
    have hnot : s.erase.notifiers u = s.notifiers u := rfl
    simp only [System.step, hnot]
    cases s.notifiers u with
    | idle =>
      simp only [Option.map_map]
      rfl
    | _ => rfl
  | notifyRecv u p old =>
    have hnot : s.erase.notifiers u = s.notifiers u := rfl
    have hnet : s.erase.net = s.net := rfl
    simp only [System.step, hnot, hnet]
    cases s.notifiers u with
    | waiting =>
      dsimp only
      split <;> rfl
    | _ => rfl
  | mainStep a | mainExit a | workerStep a i =>
    exact System.stepAgent_erase s a fun d h => by cases h
  | workerStart a i port =>
    simp only [System.step]
    split
    · exact System.stepAgent_erase s a fun d h => by cases h
    · rfl
  | workerRecv a i p old =>
    have hguard : (p ∈ s.erase.net ∧ p.dst.addr = a ∧ s.erase.workerPort a i = some p.dst.port) =
        (p ∈ s.net ∧ p.dst.addr = a ∧ s.workerPort a i = some p.dst.port) := rfl
    simp only [System.step, hguard]
    split
    · exact System.stepAgent_erase (s.take p) a fun d h => by cases h
    · rfl
  | lose p | duplicate p =>
    have hnet : s.erase.net = s.net := rfl
    simp only [System.step, hnet]
    split <;> rfl

theorem System.Step.records {s s' : System sc} {act : SysAct sc.n} (h : System.Step s act s')
    (hact : act.isMainRecv = false) (a : Addr) : (s'.agents a).records = (s.agents a).records := by
  cases h with
  | agent b _ act' s₁ b' ps hfeeds halive hstep =>
    by_cases hab : a = b
    · subst hab
      rw [System.agents_put_self]
      rcases hstep.records with ⟨heq, -⟩ | ⟨d, rfl, -⟩
      · exact heq
      · cases hfeeds
        cases hact
    · rw [hfeeds.agents_put hab]
  | notify | notifyRecv | lose | duplicate => rfl

/-- The counters of every flow table. -/
def System.Counts (s : System sc) : Prop := ∀ a, Head.Counts (s.agents a).records.head

theorem System.Step.counts {s s' : System sc} {act : SysAct sc.n} (h : System.Step s act s')
    (hs : s.Counts) : s'.Counts := by
  intro a
  cases h with
  | agent b _ act' s₁ b' ps hfeeds halive hstep =>
    by_cases hab : a = b
    · subst hab
      rw [System.agents_put_self]
      rcases hstep.records with ⟨heq, -⟩ | ⟨d, -, -, heq, -⟩
      · rw [heq]
        exact hs a
      · rw [heq]
        exact FlowMem.counts_apply (hs a) (.addItem d.header.key d.header.sequenceNum)
    · rw [hfeeds.agents_put hab]
      exact hs a
  | notify | notifyRecv | lose | duplicate => exact hs a

/-- The agents, the initiators and the network, and the memory of every agent. -/
structure SystemMem (sc : Scenario) (ι : Type) where
  sys : System sc
  flows : Addr → FlowMem ι

namespace SystemMem

variable {ι : Type} [DecidableEq ι] (malloc : Addr → Nat → List ι → ι)

def step (m : SystemMem sc ι) : SysAct sc.n → Option (Option (SystemMem sc ι))
  | .mainRecv a p old =>
    if (p ∈ m.sys.net ∧ p.dst = mainSock a) ∧
        (m.sys.agents a).alive = true ∧ (m.sys.agents a).main = .recv then
      ((m.sys.agents a).mainRecvMem (malloc a) (m.flows a) (recvfrom p old)).map fun r =>
        some ⟨(m.sys.take p).put a r.2 [], Function.update m.flows a r.1⟩
    else some none
  | act => some ((m.sys.step act).map fun sys => { m with sys := sys })

/-- The memory of every agent holds its flow table. -/
structure Holds (s : System sc) (m : SystemMem sc ι) : Prop where
  sys : m.sys = s.erase
  flows : ∀ a, HashMem.Refines (m.flows a) (s.agents a).records.head

variable {malloc}

/-- **The agents' memory is safe, and makes no difference.** -/
theorem lockstep (hfresh : ∀ a n live, malloc a n live ∉ live) :
    Lockstep (@Holds sc ι) System.step (step malloc) := by
  rintro s ⟨sys, flows⟩ act ⟨rfl, hflows⟩
  by_cases hact : act.isMainRecv = false
  · -- the tables are left alone
    have hstep : step malloc ⟨s.erase, flows⟩ act =
        some ((s.erase.step act).map fun sys => ⟨sys, flows⟩) := by
      cases act <;> first | rfl | cases hact
    refine ⟨_, hstep, ?_⟩
    rw [System.step_erase s hact]
    cases hs' : s.step act with
    | none => exact .none
    | some s' =>
      refine .some ⟨rfl, fun a => ?_⟩
      rw [(System.step_sound hs').records hact a]
      exact hflows a
  · cases act with
    | mainRecv a p old =>
      simp only [step, System.step, System.stepAgent, Agent.step]
      by_cases hp : p ∈ s.net ∧ p.dst = mainSock a
      · by_cases ha : (s.agents a).alive = true ∧ (s.agents a).main = .recv
        · have hagent : (s.take p).agents a = s.agents a := rfl
          obtain ⟨flows', hrecv, hr⟩ :=
            Agent.refines_mainRecv (hfresh a) (hflows a) (recvfrom p old)
          rw [if_pos (show (p ∈ s.erase.net ∧ p.dst = mainSock a) ∧
            (s.erase.agents a).alive = true ∧ (s.erase.agents a).main = .recv from ⟨hp, ha⟩)]
          have herase : s.erase.agents a = (s.agents a).erase := rfl
          rw [herase, hrecv]
          refine ⟨_, rfl, ?_⟩
          rw [if_pos hp, hagent, if_pos ha.1, if_pos ha.2, Option.map_some]
          refine .some ⟨(System.put_erase (s.take p) a _ []).symm, fun b => ?_⟩
          dsimp only
          by_cases hb : b = a
          · subst hb
            rw [Function.update_self, System.agents_put_self]
            exact hr
          · rw [Function.update_of_ne hb, System.agents_put_ne _ _ _ _ hb]
            exact hflows b
        · refine ⟨none, if_neg fun h => ha h.2, ?_⟩
          have hagent : (s.take p).agents a = s.agents a := rfl
          rw [if_pos hp, hagent]
          by_cases halive : (s.agents a).alive = true
          · rw [if_pos halive, if_neg fun h => ha ⟨halive, h⟩]
            exact .none
          · rw [if_neg halive]
            exact .none
      · refine ⟨none, if_neg fun h => hp h.1, ?_⟩
        rw [if_neg hp]
        exact .none
    | _ => exact absurd rfl hact

end SystemMem

end MiddleboxSession
