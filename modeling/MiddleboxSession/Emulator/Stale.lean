/-
  MiddleboxSession/Emulator/Stale.lean
  ====================================
  **Stale updates of a session.**

  A session is named by the flow key in the header of its SYNs, but serverUDP
  keys its records by the socket that a datagram comes from, and every
  `sendForward` sends from a socket of its own.  So the gate orders the updates
  of a session only as long as they come from one socket: from the second hop
  on an older update that arrives late is accepted.  `CoveredBySender` is the
  condition on the arriving SYNs under which the gate does what it should, and
  it is exact (`newest_accepted_iff`).
-/
import MiddleboxSession.Emulator.Acks

namespace MiddleboxSession.Emulator

open CBuffer Runs

/-! ### The record of a sender -/

/-- The record of a sender holds the largest number accepted from it. -/
structure GateOK (x : SockAddr) (a : Server) : Prop where
  stored : ∀ d, .syn d ∈ a.log → ∃ s, storedSeq a.records (peerKey x d.src) = some s ∧
    d.header.sequenceNum.toInt ≤ s.toInt
  accepted : ∀ src s, storedSeq a.records (peerKey x src) = some s →
    ∃ d, .syn d ∈ a.log ∧ d.src = src ∧ d.header.sequenceNum = s

theorem GateOK.init (x : SockAddr) : GateOK x Server.init where
  stored := fun _ h => absurd h List.not_mem_nil
  accepted := fun _ _ h => absurd h (by simp [Server.init])

section Gate

variable {x : SockAddr} {port : BitVec 16} {a a' : Server} {act : Act} {ps : List Packet}

theorem storedSeq_of_find {records : FlowTable} {k : FlowKey} {r : Flow}
    (h : findItem records k = some r) : storedSeq records k = some r.sequenceNumber := by
  rw [storedSeq, h]
  rfl

/-- The gate is open exactly for a SYN that is newer than all accepted from its
    sender. -/
theorem GateOK.dispatch_eq_syn (h : GateOK x a) {d : Datagram} :
    dispatch (findItem a.records (peerKey x d.src)) d.header = .syn ↔ d.header.action = 1 ∧
      ∀ d', .syn d' ∈ a.log → d'.src = d.src →
        d'.header.sequenceNum.toInt < d.header.sequenceNum.toInt := by
  rw [Emulator.dispatch_eq_syn]
  refine and_congr_right fun _ => ⟨?_, ?_⟩
  · intro hgate d' hd' hsrc
    obtain ⟨s, hs, hle⟩ := h.stored d' hd'
    obtain ⟨r, hr, rfl⟩ := Option.map_eq_some_iff.mp hs
    exact lt_of_le_of_lt hle (hgate r (hsrc ▸ hr))
  · intro hall r hr
    obtain ⟨d', hd', hsrc, hseq⟩ := h.accepted d.src _ (storedSeq_of_find hr)
    rw [← hseq]
    exact hall d' hd' hsrc

theorem GateOK.step (h : GateOK x a) (hstep : a.Step x port act a' ps) : GateOK x a' := by
  cases hstep with
  | syn d hd =>
    have hnew := (h.dispatch_eq_syn.mp hd).2
    refine ⟨?_, ?_⟩
    · intro e he
      rw [storedSeq_addItem]
      by_cases hk : peerKey x d.src = peerKey x e.src
      · rw [if_pos hk]
        refine ⟨_, rfl, ?_⟩
        rcases List.mem_cons.mp he with heq | he
        · cases heq
          exact le_refl _
        · exact (hnew e he (peerKey_injective x hk).symm).le
      · rw [if_neg hk]
        rcases List.mem_cons.mp he with heq | he
        · cases heq
          exact absurd rfl hk
        · exact h.stored e he
    · intro src s hs
      rw [storedSeq_addItem] at hs
      by_cases hk : peerKey x d.src = peerKey x src
      · rw [if_pos hk, Option.some.injEq] at hs
        exact ⟨d, List.mem_cons_self, peerKey_injective x hk, hs⟩
      · rw [if_neg hk] at hs
        obtain ⟨e, he, hrest⟩ := h.accepted src s hs
        exact ⟨e, List.mem_cons_of_mem _ he, hrest⟩
  | ack d hd =>
    obtain ⟨-, r, hr, -⟩ := dispatch_eq_ack.mp hd
    refine ⟨?_, ?_⟩
    · intro e he
      rw [storedSeq_setAcked hr]
      rcases List.mem_cons.mp he with heq | he
      · cases heq
      · exact h.stored e he
    · intro src s hs
      rw [storedSeq_setAcked hr] at hs
      obtain ⟨e, he, hrest⟩ := h.accepted src s hs
      exact ⟨e, List.mem_cons_of_mem _ he, hrest⟩
  | worker i w _ e hw hm =>
    refine ⟨?_, ?_⟩
    · intro d hd
      rcases List.mem_append.mp hd with hd | hd
      · exact absurd hd (hm.syn_not_mem d)
      · exact h.stored d hd
    · intro src s hs
      obtain ⟨d, hd, hrest⟩ := h.accepted src s hs
      exact ⟨d, List.mem_append_right _ hd, hrest⟩
  | skip | exit | undefined => exact ⟨h.stored, h.accepted⟩

/-! ### The order of a session -/

def Event.syn? : Event → Option Datagram
  | .syn d => some d
  | .ack _ | .leaveAcked _ | .leaveTimeout _ => none

/-- An accepted SYN is newer than all SYNs of its session accepted before. -/
def Newest : Event → List Event → Prop
  | .syn d, past => ∀ d', .syn d' ∈ past → d'.header.key = d.header.key →
      d'.header.sequenceNum.toInt < d.header.sequenceNum.toInt
  | .ack _, _ | .leaveAcked _, _ | .leaveTimeout _, _ => True

theorem Server.Step.newest (hstep : a.Step x port act a' ps) (h : Always Newest a.log)
    (hsyn : ∀ d, act = .mainRecv d →
      dispatch (findItem a.records (peerKey x d.src)) d.header = .syn → Newest (.syn d) a.log) :
    Always Newest a'.log := by
  cases hstep with
  | syn d hd => exact always_cons.mpr ⟨hsyn d rfl hd, h⟩
  | ack d hd => exact always_cons.mpr ⟨trivial, h⟩
  | worker i w _ e hw hm =>
    cases hm with
    | acked | timeout => exact always_cons.mpr ⟨trivial, h⟩
    | _ => exact h
  | skip | exit | undefined => exact h

end Gate

/-! ### Runs of the system -/

variable {sc : Scenario}

/-- Every hop has accepted the updates of every session in increasing order. -/
def InOrder (s : System sc) : Prop := ∀ x, Always Newest (s.servers x).log

/-- A SYN that arrives where an equally new or newer SYN of its session has been
    accepted finds that one such SYN came from its own sender. -/
def CoveredBySender (s : System sc) : SysAct sc.n → Prop
  | .mainRecv x p old =>
    let d := recvfrom p old
    d.header.action = 1 →
    (∃ d', .syn d' ∈ (s.servers x).log ∧ d'.header.key = d.header.key ∧
      d.header.sequenceNum.toInt ≤ d'.header.sequenceNum.toInt) →
    ∃ d', .syn d' ∈ (s.servers x).log ∧ d'.src = d.src ∧
      d.header.sequenceNum.toInt ≤ d'.header.sequenceNum.toInt
  | _ => True

instance decidableExistsSyn (log : List Event) (P : Datagram → Prop) [DecidablePred P] :
    Decidable (∃ d, .syn d ∈ log ∧ P d) :=
  decidable_of_iff (∃ e ∈ log, e.syn?.any (P ·)) (by
    constructor
    · rintro ⟨e, he, hP⟩
      cases e with
      | syn d => exact ⟨d, he, of_decide_eq_true hP⟩
      | ack | leaveAcked | leaveTimeout => cases hP
    · rintro ⟨d, hd, hP⟩
      exact ⟨.syn d, hd, decide_eq_true hP⟩)

instance : ∀ (s : System sc) (act : SysAct sc.n), Decidable (CoveredBySender s act)
  | s, .mainRecv x p old =>
    inferInstanceAs (Decidable ((recvfrom p old).header.action = 1 →
      (∃ d', .syn d' ∈ (s.servers x).log ∧ d'.header.key = (recvfrom p old).header.key ∧
        (recvfrom p old).header.sequenceNum.toInt ≤ d'.header.sequenceNum.toInt) →
      ∃ d', .syn d' ∈ (s.servers x).log ∧ d'.src = (recvfrom p old).src ∧
        (recvfrom p old).header.sequenceNum.toInt ≤ d'.header.sequenceNum.toInt))
  | _, .sync _ | _, .clientRecv .. | _, .foreign .. | _, .keepalive .. | _, .mainExit _
  | _, .workerStart .. | _, .workerRecv .. | _, .workerStep .. | _, .lose _ | _, .duplicate _ =>
    isTrue trivial

/-- What the condition keeps. -/
structure Ordered (s : System sc) : Prop where
  gate : ∀ x, GateOK x (s.servers x)
  order : InOrder s

theorem Ordered.init : Ordered (System.init sc) where
  gate := fun x => GateOK.init x
  order := fun _ => always_nil _

theorem Ordered.step {s s' : System sc} {act : SysAct sc.n} (h : Ordered s)
    (hG : CoveredBySender s act) (hstep : s.step act = some s') : Ordered s' := by
  cases System.step_sound hstep with
  | server x port _ act' s₁ a ps hfeeds hport halive hserver =>
    have hservers : s₁.servers = s.servers := hfeeds.servers
    have hgate : ∀ y, GateOK y (s₁.servers y) := by
      intro y
      rw [hservers]
      exact h.gate y
    have horder : ∀ y, Always Newest (s₁.servers y).log := by
      intro y
      rw [hservers]
      exact h.order y
    refine ⟨?_, ?_⟩
    · exact System.forall_servers_put _ _ _ _ ((h.gate x).step hserver) hgate
    · refine System.forall_servers_put (P := fun _ b => Always Newest b.log) _ _ _ _ ?_ horder
      apply hserver.newest (h.order x)
      rintro d rfl hd d' hd' hkey
      obtain ⟨haction, hnew⟩ := (h.gate x).dispatch_eq_syn.mp hd
      by_contra hold
      -- an accepted SYN of the session is not older, so the sender's record is not either
      cases hfeeds with
      | mainRecv p old hp hdst =>
        obtain ⟨e, he, hsrc, hle⟩ := hG haction ⟨d', hd', hkey, not_lt.mp hold⟩
        exact absurd (hnew e he hsrc) (not_lt.mpr hle)
  | sync | clientRecv | foreign | keepalive | lose | duplicate => exact ⟨h.gate, h.order⟩

/-- A SYN against the condition is accepted, and is not the newest one. -/
theorem Ordered.broken {s s' : System sc} {act : SysAct sc.n} (h : Ordered s)
    (hG : ¬ CoveredBySender s act) (hstep : s.step act = some s') : ¬ InOrder s' := by
  intro horder
  cases act with
  | mainRecv x p old =>
    simp only [CoveredBySender, not_forall] at hG
    obtain ⟨haction, ⟨d', hd', hkey, hle⟩, hcover⟩ := hG
    obtain ⟨-, -, hx⟩ := System.mainRecv_spec hstep
    have hgate : dispatch (findItem (s.servers x).records (peerKey x (recvfrom p old).src))
        (recvfrom p old).header = .syn := by
      refine (h.gate x).dispatch_eq_syn.mpr ⟨haction, ?_⟩
      intro e he hsrc
      by_contra hlt
      exact hcover ⟨e, he, hsrc, not_lt.mp hlt⟩
    have hlog := horder x
    rw [hx, Server.mainRecv_of_syn hgate] at hlog
    exact absurd ((always_cons.mp hlog).1 d' hd' hkey) (not_lt.mpr hle)
  | _ => exact hG trivial

/-- **When stale updates are ignored.**  In every run of the system all hops
    accept the updates of all sessions in increasing order exactly if every SYN
    that arrives not newer than its session meets a record of its own sender
    that is not older. -/
theorem newest_accepted_iff {acts : List (SysAct sc.n)} {s : System sc}
    (hrun : run System.step (System.init sc) acts = some s) :
    Throughout System.step InOrder (System.init sc) acts ↔
      Along System.step CoveredBySender (System.init sc) acts :=
  throughout_iff_along hrun Ordered.init (fun _ h => h.order) (fun _ _ _ h hG hs => h.step hG hs)
    fun _ _ _ h hG hs => h.broken hG hs

/-! ### Two updates of a session -/

def sessionUpdate (s : BitVec 32) : Update chainPorts := { chainUpdate with seq := s }

/-- One client sends the updates 100 and 101 of a session over the three hops. -/
def sessionScenario : Scenario where
  nextPort := chainPorts
  n := 2
  update := fun u => sessionUpdate (if u.val = 0 then 100 else 101)
  sock := fun _ => clientSock
  client := fun _ => by decide

def olderUpdate : Fin sessionScenario.n := ⟨0, by decide⟩
def newerUpdate : Fin sessionScenario.n := ⟨1, by decide⟩

def olderSock : SockAddr := ⟨inetAton 10 0 0 2, 40001⟩
def newerSock : SockAddr := ⟨inetAton 10 0 0 2, 40002⟩

/-- Both updates pass the first hop in order. -/
def sessionRun : List (SysAct sessionScenario.n) :=
  [.sync olderUpdate, .mainRecv hopA ⟨clientSock, hopA, (sessionUpdate 100).syn 0⟩ 0,
    .workerStart hopA 0 olderSock, .sync newerUpdate,
    .mainRecv hopA ⟨clientSock, hopA, (sessionUpdate 101).syn 0⟩ 0,
    .workerStart hopA 1 newerSock]

def olderArrives : SysAct sessionScenario.n :=
  .mainRecv hopB ⟨olderSock, hopB, (sessionUpdate 100).syn 1⟩ 0
def newerArrives : SysAct sessionScenario.n :=
  .mainRecv hopB ⟨newerSock, hopB, (sessionUpdate 101).syn 1⟩ 0

/-- The updates arrive in order, and the older one once more behind the newer one. -/
theorem newest_accepted_session :
    let acts := sessionRun ++ [.duplicate ⟨olderSock, hopB, (sessionUpdate 100).syn 1⟩,
      olderArrives, newerArrives, olderArrives]
    ∃ s, run System.step (System.init sessionScenario) acts = some s ∧
      Throughout System.step InOrder (System.init sessionScenario) acts := by
  intro acts
  have hrun : (run System.step (System.init sessionScenario) acts).isSome = true := by
    decide +kernel
  obtain ⟨s, hs⟩ := Option.isSome_iff_exists.mp hrun
  exact ⟨s, hs, (newest_accepted_iff hs).mpr (by decide +kernel)⟩

/-- The second hop accepts update 100 after update 101: it comes from another socket. -/
theorem stale_update_accepted :
    ¬ ∀ acts s, run System.step (System.init sessionScenario) acts = some s →
      Throughout System.step InOrder (System.init sessionScenario) acts := by
  intro h
  let acts := sessionRun ++ [newerArrives]
  have hrun : ((run System.step (System.init sessionScenario) acts).any fun s =>
      ¬ CoveredBySender s olderArrives ∧ (s.step olderArrives).isSome) = true := by
    decide +kernel
  have hG : Along System.step CoveredBySender (System.init sessionScenario) acts := by
    decide +kernel
  obtain ⟨s, hs, hmem⟩ := (Option.any_eq_true _ _).mp hrun
  obtain ⟨hstale, hsome⟩ := of_decide_eq_true hmem
  obtain ⟨s', hs'⟩ := Option.isSome_iff_exists.mp hsome
  have hordered : Ordered s :=
    (hG.throughout Ordered.init fun _ _ _ ho hG hs => ho.step hG hs).last hs
  exact hordered.broken hstale hs' ((h _ s' (run_concat hs hs')).last (run_concat hs hs'))

end MiddleboxSession.Emulator
