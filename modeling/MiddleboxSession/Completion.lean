/-
  MiddleboxSession/Completion.lean
  ================================
  **What the handshake has achieved when it has come to rest.**

  A state is at rest when no party can take a step by itself: the network may
  still lose or duplicate datagrams, a process may end, and a worker may poll a
  socket on which nothing arrives.  Every state can be run to rest
  (`runs_to_rest`), and no run takes more steps than Traffic.lean allows it.

  A thread that waits for the mutex is no obstacle.  A worker that times out
  unlocks a mutex that is not its own, but the owner that the mutex has is always
  on its way to an unlock (`OwnerHolds`), so at rest the mutex is free.

  A SYN that was sent is in flight, or lost, or its hop has a record that is at
  least as new (`Arrived`).  So when nothing of an update was lost and it is the
  newest of its flow, every hop has accepted it at rest.
-/
import MiddleboxSession.MutexDiscipline
import MiddleboxSession.Traffic

namespace MiddleboxSession

open CBuffer Runs

/-! ### The owner of the mutex -/

section Owner

variable {self : Addr} {a a' : Agent} {act : Act} {ps : List Packet}

/-- The owner that the mutex has is between a lock and an unlock. -/
def Agent.OwnerHolds (a : Agent) : Prop := ∀ t, a.lock = some t → a.Holds t

theorem WorkerMove.lock_cases {i : Nat} {w : Worker} {e : Effect}
    (h : WorkerMove self a i w act e) :
    e.lock = none ∨ e.lock = some (.worker i) ∧ e.worker.pc.holds = true ∨
      e.lock = a.lock ∧ (w.pc.holds = true → e.worker.pc.holds = true) := by
  cases h with
  | fwdUnlock | backUnlock | finalUnlock => exact Or.inl rfl
  | fwdLock | backLock => exact Or.inr (Or.inl ⟨rfl, rfl⟩)
  | relay | fwdAcked | backTest | backAcked | clear => exact Or.inr (Or.inr ⟨rfl, fun _ => rfl⟩)
  | ignore _ hpc | forward _ _ _ hpc | back _ _ hpc | recv _ _ hpc | backSend _ _ hpc
  | timeout _ _ hpc =>
    refine Or.inr (Or.inr ⟨rfl, fun hholds => ?_⟩)
    rw [hpc] at hholds
    cases hholds

/-- **Every step leaves the owner on its way to an unlock**, whoever unlocks. -/
theorem Agent.Step.ownerHolds (h : Agent.Step self a act a' ps) (ho : a.OwnerHolds) :
    a'.OwnerHolds := by
  intro t ht
  cases h with
  | syn d hmain hd =>
    have hold := ho t ht
    cases t with
    | main => exact hold
    | worker i => exact (Agent.holds_append rfl i).mpr hold
  | nullDeref | skip | exit | undefined => exact ho t ht
  | ack d hmain | netlinkAck _ _ hmain =>
    have hold := ho t ht
    cases t with
    | main =>
      rw [Agent.Holds, hmain] at hold
      cases hold
    | worker i => exact hold
  | lockAck k s hmain hfree =>
    obtain rfl := Option.some.inj ht
    exact rfl
  | setAck k s hmain =>
    have hold := ho t ht
    cases t with
    | main => exact rfl
    | worker i => exact hold
  | unlockAck k s hmain => cases ht
  | worker i w _ e hw hm =>
    rcases hm.lock_cases with hnone | ⟨hself, hholds⟩ | ⟨hkeep, hholds⟩
    · cases hnone.symm.trans ht
    · obtain rfl := Option.some.inj (hself.symm.trans ht)
      exact (Agent.holds_apply hw).mpr hholds
    · have hold := ho t (hkeep.symm.trans ht)
      by_cases hti : t = .worker i
      · subst hti
        obtain ⟨v, hv, hvholds⟩ := hold
        obtain rfl := Option.some.inj (hw.symm.trans hv)
        exact (Agent.holds_apply hw).mpr (hholds hvholds)
      · exact (Agent.holds_apply_of_ne hti).mpr hold

/-- The places of a worker that waits for nothing but the network, or not at all. -/
def WorkerPc.waits : WorkerPc → Bool
  | .start | .ignored | .fwdPoll _ | .done => true
  | _ => false

theorem WorkerPc.holds_of_waits {pc : WorkerPc} (h : pc.waits = true) : pc.holds = false := by
  cases pc with
  | start | ignored | fwdPoll | done => rfl
  | _ => cases h

/-- A worker that can take no step by itself waits for the mutex or the network. -/
theorem Agent.workerStep_eq_none {i : Nat} {w : Worker} (h : a.workerStep self i w = none) :
    w.pc.waits = true ∨ a.lock ≠ none ∧ w.pc.holds = false := by
  unfold Agent.workerStep at h
  cases hpc : w.pc with
  | start | ignored | fwdPoll | done => exact Or.inl rfl
  | fwdLock next recv =>
    simp only [hpc] at h
    split at h
    · cases h
    · exact Or.inr ⟨‹_›, rfl⟩
  | backLock response count =>
    simp only [hpc] at h
    split at h
    · cases h
    · exact Or.inr ⟨‹_›, rfl⟩
  | fwdTest | backTest | backSend =>
    simp only [hpc] at h
    split at h <;> cases h
  | fwdUnlock | backUnlock | clear | finalUnlock =>
    simp only [hpc] at h
    cases h

/-- **A process whose threads can take no step by themselves waits for the
    network**: the mutex is free, and the main thread is at its `recvfrom`. -/
theorem Agent.waits_of_stuck (halive : a.alive = true) (ho : a.OwnerHolds)
    (hmain : a.step self .mainStep = none) (hworker : ∀ i, a.step self (.workerStep i) = none) :
    a.lock = none ∧ a.main = .recv ∧ ∀ w ∈ a.workers, w.pc.waits = true := by
  have hstuck : ∀ i w, a.workers[i]? = some w → a.workerStep self i w = none := by
    intro i w hw
    have h := hworker i
    rw [Agent.step, if_pos halive] at h
    simpa [hw] using h
  have hmainStep : a.mainStep = none := by
    rw [Agent.step, if_pos halive] at hmain
    simpa using hmain
  have hfree : a.lock = none := by
    by_contra hne
    obtain ⟨t, ht⟩ := Option.ne_none_iff_exists'.mp hne
    have hholds := ho t ht
    cases t with
    | main =>
      unfold Agent.mainStep at hmainStep
      cases hpc : a.main with
      | setAck | unlockAck =>
        rw [hpc] at hmainStep
        cases hmainStep
      | recv | lockAck | netlinkAck =>
        rw [Agent.Holds, hpc] at hholds
        cases hholds
    | worker i =>
      obtain ⟨w, hw, hpc⟩ := hholds
      have hnot : w.pc.holds = false :=
        (Agent.workerStep_eq_none (hstuck i w hw)).elim WorkerPc.holds_of_waits And.right
      rw [hpc] at hnot
      cases hnot
  refine ⟨hfree, ?_, ?_⟩
  · unfold Agent.mainStep at hmainStep
    cases hpc : a.main with
    | recv => rfl
    | lockAck =>
      rw [hpc] at hmainStep
      simp only [if_pos hfree] at hmainStep
      cases hmainStep
    | setAck | unlockAck | netlinkAck =>
      rw [hpc] at hmainStep
      cases hmainStep
  · intro w hw
    obtain ⟨i, hi⟩ := List.mem_iff_getElem?.mp hw
    rcases Agent.workerStep_eq_none (hstuck i w hi) with hwaits | ⟨hne, -⟩
    · exact hwaits
    · exact absurd hfree hne

end Owner

/-! ### Rest -/

variable {sc : Scenario}

/-- The steps that the parties take by themselves, with the datagrams they receive. -/
def SysAct.byParty {n : Nat} : SysAct n → Bool
  | .mainExit _ | .lose _ | .duplicate _ => false
  | _ => true

def System.AtRest (s : System sc) : Prop := ∀ act, act.byParty = true → s.step act = none

/-- A step of the parties is paid with what is left of the updates. -/
theorem System.byParty_pays {s s' : System sc} {act : SysAct sc.n} (hs : NetInv s)
    (hparty : act.byParty = true) (hstep : System.Step s act s') :
    s'.potential ⟨1, 0⟩ < s.potential ⟨1, 0⟩ := by
  have hpay := System.pays (c := ⟨1, 0⟩) hs hstep
  have hcost : Prices.cost ⟨1, 0⟩ act = 1 := by
    cases act <;> first | rfl | cases hparty
  have hgain : Prices.gain ⟨1, 0⟩ sc act = 0 := by
    cases act <;> first | rfl | cases hparty
  rw [hcost, hgain] at hpay
  omega

/-! ### What becomes of a SYN -/

section Records

variable {self : Addr} {a a' : Agent} {act : Act} {ps : List Packet} {k : FlowKey}
  {q : BitVec 32}

/-- A record only ever gets newer. -/
theorem Agent.Step.stored_le (h : Agent.Step self a act a' ps)
    (hq : storedSeq a.records k = some q) :
    ∃ q', storedSeq a'.records k = some q' ∧ q.toInt ≤ q'.toInt := by
  rcases h.records with ⟨heq, -⟩ | ⟨d, -, hd, heq, -⟩
  · exact ⟨q, by rw [heq, hq], le_refl _⟩
  · rw [heq, storedSeq_addItem]
    by_cases hk : d.header.key = k
    · subst hk
      exact ⟨_, if_pos rfl, ((dispatch_eq_syn.mp hd).2 q hq).le⟩
    · exact ⟨q, by rw [if_neg hk, hq], le_refl _⟩

/-- After a SYN there is a record that is at least as new. -/
theorem Agent.Step.stored_syn {d : Datagram} (h : Agent.Step self a (.mainRecv d) a' ps)
    (hd : d.header = Header.mk' 4 q k) :
    ∃ q', storedSeq a'.records k = some q' ∧ q.toInt ≤ q'.toInt := by
  by_cases hnew : ∀ s, storedSeq a.records k = some s → s.toInt < q.toInt
  · have hsyn : dispatch a.records d.header = .syn := by
      rw [dispatch_eq_syn, hd, Header.action_mk', Header.key_mk', Header.sequenceNum_mk']
      exact ⟨rfl, hnew⟩
    refine ⟨q, ?_, le_refl _⟩
    cases h with
    | syn => rw [hd, Header.key_mk', Header.sequenceNum_mk', storedSeq_addItem, if_pos rfl]
    | ack _ _ hb | nullDeref _ _ hb => cases hsyn.symm.trans hb
    | skip _ _ hb =>
      rw [hsyn] at hb
      simp at hb
    | worker _ _ _ _ _ hm => cases hm
  · simp only [not_forall, exists_prop, not_lt] at hnew
    obtain ⟨s, hs, hle⟩ := hnew
    obtain ⟨q', hq', hle'⟩ := h.stored_le hs
    exact ⟨q', hq', hle.trans hle'⟩

/-- The updates of the workers only get more, and every new record has a worker. -/
theorem Agent.Step.stored_worker (h : Agent.Step self a act a' ps)
    (hq : storedSeq a'.records k = some q) :
    storedSeq a.records k = some q ∨ (k, q) ∈ a'.workers.map Worker.update := by
  cases h with
  | syn d hmain hd =>
    rw [storedSeq_addItem] at hq
    by_cases hk : d.header.key = k
    · rw [if_pos hk] at hq
      refine Or.inr (List.mem_map.mpr ⟨_, List.mem_append_right _ (List.mem_singleton_self _), ?_⟩)
      exact Prod.ext hk (Option.some.inj hq)
    · rw [if_neg hk] at hq
      exact Or.inl hq
  | _ => exact Or.inl hq

theorem Agent.Step.updates_subset (h : Agent.Step self a act a' ps) :
    a.workers.map Worker.update ⊆ a'.workers.map Worker.update := by
  cases h with
  | syn d hmain hd =>
    rw [List.map_append]
    exact List.subset_append_left _ _
  | worker i w _ e hw hm =>
    rw [Agent.map_update_apply hw hm]
    exact List.Subset.refl _
  | _ => exact List.Subset.refl _

end Records

/-- The SYN of an update as it is sent to hop `m`. -/
abbrev Scenario.syn (sc : Scenario) (u : Fin sc.n) (m : Nat) : List Byte :=
  synBytes (sc.update u).key (sc.update u).seq ((sc.update u).hops.drop m)

/-- What can have become of the SYN of update `u` for its hop `m` at `a`. -/
def Arrived (s : System sc) (u : Fin sc.n) (m : Nat) (a : Addr) : Prop :=
  Among s.net (mainSock a) (sc.syn u m) ∨ Among s.lost (mainSock a) (sc.syn u m) ∨
    ∃ q, storedSeq (s.agents a).records (sc.update u).key = some q ∧
      (sc.update u).seq.toInt ≤ q.toInt

theorem Arrived.agent {s s₁ : System sc} (hs : NetInv s) {u : Fin sc.n} {m : Nat} {a b : Addr}
    {act : SysAct sc.n} {act' : Act} {a' : Agent} {ps : List Packet}
    (hfeeds : s.Feeds b act act' s₁) (hstep : Agent.Step b (s.agents b) act' a' ps)
    (h : Arrived s u m a) : Arrived (s₁.put b a' ps) u m a := by
  rcases h with hnet | hlost | ⟨q, hq, hle⟩
  · -- in flight: only the main loop at `a` can receive it
    have hlen := hs.among_length hnet
    rcases hs.among_feeds hfeeds hnet with hnet | ⟨rfl, p, old, rfl, hpay⟩
    · exact Or.inl (hnet.mono (List.subset_append_right _ _))
    · have hheader : (recvfrom p old).header =
          Header.mk' 4 (sc.update u).seq (sc.update u).key :=
        recvfrom_header old hpay (hpay ▸ hlen)
      refine Or.inr (Or.inr ?_)
      rw [System.agents_put_self]
      exact hstep.stored_syn hheader
  · refine Or.inr (Or.inl ?_)
    have hsame : (s₁.put b a' ps).lost = s.lost := by cases hfeeds <;> rfl
    rwa [hsame]
  · refine Or.inr (Or.inr ?_)
    by_cases hab : a = b
    · subst hab
      rw [System.agents_put_self]
      obtain ⟨q', hq', hle'⟩ := hstep.stored_le hq
      exact ⟨q', hq', hle.trans hle'⟩
    · rw [hfeeds.agents_put hab]
      exact ⟨q, hq, hle⟩

/-- A step outside the agents that drops nothing for a main loop, or records it as lost. -/
theorem Arrived.of_agents {s s' : System sc} (hagents : s'.agents = s.agents)
    (hnet : ∀ a payload, Among s.net (mainSock a) payload →
      Among s'.net (mainSock a) payload ∨ Among s'.lost (mainSock a) payload)
    (hlost : s.lost ⊆ s'.lost) {u : Fin sc.n} {m : Nat} {a : Addr} (h : Arrived s u m a) :
    Arrived s' u m a := by
  rcases h with h | h | h
  · exact (hnet a _ h).imp_right Or.inl
  · exact Or.inr (Or.inl (h.mono hlost))
  · refine Or.inr (Or.inr ?_)
    rwa [hagents]

/-- The invariant: a hop's worker that has started has sent the SYN on, and every
    record that the run has written belongs to a worker. -/
structure SynInv (s₀ s : System sc) : Prop where
  owner : ∀ a, (s.agents a).OwnerHolds
  records : ∀ a k q, storedSeq (s.agents a).records k = some q →
    storedSeq (s₀.agents a).records k = some q ∨ (k, q) ∈ (s.agents a).workers.map Worker.update
  first : ∀ u, s.notifiers u ≠ .idle → Arrived s u 0 (sc.update u).first
  next : ∀ a, ∀ w ∈ (s.agents a).workers, w.pc ≠ .start → ∀ u j b,
    (sc.update u).hops[j]? = some a → w.update = ((sc.update u).key, (sc.update u).seq) →
    (sc.update u).hops[j + 1]? = some b → Arrived s u (j + 1) b

theorem SynInv.init {s : System sc} (h : s.Idle) : SynInv s s where
  owner := by
    intro a t ht
    rw [(h.agents a).lock] at ht
    cases ht
  records := fun a k q hq => Or.inl hq
  first := fun u hu => absurd (h.notifiers u) hu
  next := by
    intro a w hw
    rw [(h.agents a).workers] at hw
    cases hw

/-- The worker that starts at a hop sends the SYN to the next one. -/
theorem NetInv.sends_on {s s₁ : System sc} (hs : NetInv s) {b : Addr} {act' : Act} {i : Nat}
    {w : Worker} {e : Effect} (hw : (s.agents b).workers[i]? = some w)
    (hm : WorkerMove b (s.agents b) i w act' e) (hpc : w.pc = .start) {u : Fin sc.n} {j : Nat}
    {c : Addr} (hhop : (sc.update u).hops[j]? = some b)
    (hupd : w.update = ((sc.update u).key, (sc.update u).seq))
    (hnext : (sc.update u).hops[j + 1]? = some c) :
    Arrived (s₁.put b ((s.agents b).apply i e) e.packets) u (j + 1) c := by
  obtain ⟨v, l, hok⟩ := hs.workers b w (List.mem_of_getElem? hw)
  obtain ⟨hkey, hseq⟩ := Prod.mk.injEq .. ▸ (hupd.symm.trans hok.update)
  obtain rfl := sc.own u v hkey hseq
  obtain rfl := (sc.update u).index_unique hhop hok.hop
  rcases hok.handleUpdate with ⟨hlast, -⟩ | ⟨b', rest, hrest, hfwd⟩
  · rw [drop_of_getElem? hnext] at hlast
    cases hlast
  · obtain rfl := Option.some.inj ((getElem?_of_drop hrest).symm.trans hnext)
    obtain ⟨port, -, rfl⟩ := hm.of_forward hpc hfwd
    refine Or.inl ⟨_, List.mem_append_left _ (List.mem_singleton_self _), rfl, ?_⟩
    rw [Scenario.syn, hrest]

theorem SynInv.agent {s₀ s s₁ : System sc} (hs : NetInv s) (hinv : SynInv s₀ s) {b : Addr}
    {act : SysAct sc.n} {act' : Act} {a' : Agent} {ps : List Packet}
    (hfeeds : s.Feeds b act act' s₁) (hstep : Agent.Step b (s.agents b) act' a' ps) :
    SynInv s₀ (s₁.put b a' ps) where
  owner := by
    intro a
    by_cases ha : a = b
    · subst ha
      rw [System.agents_put_self]
      exact hstep.ownerHolds (hinv.owner a)
    · rw [hfeeds.agents_put ha]
      exact hinv.owner a
  records := by
    intro a k q hq
    by_cases ha : a = b
    · subst ha
      rw [System.agents_put_self] at hq ⊢
      rcases hstep.stored_worker hq with hold | hnew
      · exact (hinv.records a k q hold).imp_right fun hmem => hstep.updates_subset hmem
      · exact Or.inr hnew
    · rw [hfeeds.agents_put ha] at hq ⊢
      exact hinv.records a k q hq
  first := by
    intro u hu
    rw [System.notifiers_put, hfeeds.notifiers] at hu
    exact (hinv.first u hu).agent hs hfeeds hstep
  next := by
    intro a w hw hpc u j c hhop hupd hnext
    by_cases ha : a = b
    · subst ha
      rw [System.agents_put_self] at hw
      have hold : w ∈ (s.agents a).workers → Arrived (s₁.put a a' ps) u (j + 1) c := fun hmem =>
        (hinv.next a w hmem hpc u j c hhop hupd hnext).agent hs hfeeds hstep
      cases hstep with
      | syn d hmain hd =>
        rcases List.mem_append.mp hw with hw | hw
        · exact hold hw
        · rw [List.mem_singleton.mp hw] at hpc
          exact absurd rfl hpc
      | worker i v _ e hv hm =>
        rcases List.mem_or_eq_of_mem_set hw with hw | rfl
        · exact hold hw
        · rw [hm.update] at hupd
          by_cases hstart : v.pc = .start
          · exact hs.sends_on hv hm hstart hhop hupd hnext
          · exact (hinv.next a v (List.mem_of_getElem? hv) hstart u j c hhop hupd hnext).agent
              hs hfeeds (.worker i v _ e hv hm)
      | _ => exact hold hw
    · rw [hfeeds.agents_put ha] at hw
      exact (hinv.next a w hw hpc u j c hhop hupd hnext).agent hs hfeeds hstep

theorem SynInv.of_agents {s₀ s s' : System sc} (hinv : SynInv s₀ s)
    (hagents : s'.agents = s.agents)
    (hnet : ∀ a payload, Among s.net (mainSock a) payload →
      Among s'.net (mainSock a) payload ∨ Among s'.lost (mainSock a) payload)
    (hlost : s.lost ⊆ s'.lost)
    (hfirst : ∀ u, s'.notifiers u ≠ .idle → s.notifiers u ≠ .idle ∨
      Arrived s' u 0 (sc.update u).first) : SynInv s₀ s' where
  owner := by rw [hagents]; exact hinv.owner
  records := by rw [hagents]; exact hinv.records
  first := fun u hu =>
    (hfirst u hu).elim (fun h => (hinv.first u h).of_agents hagents hnet hlost) id
  next := by
    intro a w hw hpc u j b hhop hupd hnext
    rw [hagents] at hw
    exact (hinv.next a w hw hpc u j b hhop hupd hnext).of_agents hagents hnet hlost

theorem SynInv.step {s₀ s s' : System sc} {act : SysAct sc.n} (hs : NetInv s)
    (hinv : SynInv s₀ s) (hstep : System.Step s act s') : SynInv s₀ s' := by
  cases hstep with
  | agent b _ act' s₁ a' ps hfeeds halive hstep => exact hinv.agent hs hfeeds hstep
  | notify u hpc =>
    refine hinv.of_agents rfl (fun a payload h => Or.inl (h.mono (List.subset_cons_self _ _)))
      (List.Subset.refl _) fun v hv => ?_
    by_cases hvu : v = u
    · subst hvu
      exact Or.inr (Or.inl ⟨_, List.mem_cons_self, rfl, by rw [Scenario.syn, List.drop_zero]⟩)
    · left
      simpa [System.send, System.setNotifier, hvu] using hv
  | notifyRecv u p old hpc hp hdst =>
    have hne : ∀ a, p.dst ≠ mainSock a := by
      intro a hmain
      exact sc.sock_port u (by rw [← hdst, hmain]; rfl)
    refine hinv.of_agents rfl (fun a payload h => Or.inl ?_) (List.Subset.refl _) fun v hv => ?_
    · exact (h.erase fun hthis => hne a hthis.1).mono (List.subset_append_right _ _)
    · left
      by_cases hvu : v = u
      · subst hvu
        rw [hpc]
        exact fun h => by cases h
      · simpa [System.send, System.setNotifier, System.take, hvu] using hv
  | lose p hp =>
    refine hinv.of_agents rfl (fun a payload h => ?_) (List.subset_cons_self _ _)
      fun v hv => Or.inl hv
    by_cases hthis : p.dst = mainSock a ∧ p.payload = payload
    · exact Or.inr ⟨p, List.mem_cons_self, hthis.1, hthis.2⟩
    · exact Or.inl (h.erase hthis)
  | duplicate p hp =>
    exact hinv.of_agents rfl (fun a payload h => Or.inl (h.mono (List.subset_cons_self _ _)))
      (List.Subset.refl _) fun v hv => Or.inl hv

theorem SynInv.reachable {s₀ s : System sc} (h₀ : s₀.Idle) (h : Reachable System.step s₀ s) :
    SynInv s₀ s := by
  apply h.invariant (SynInv.init h₀)
  intro x act x' hreach hx hstep
  exact hx.step (NetInv.reachable h₀ hreach) (System.step_sound hstep)

/-! ### At rest -/

namespace System.AtRest

variable {s₀ s : System sc}

theorem agent (hrest : s.AtRest) {a : Addr} (act : Act) (hact : act = .mainStep ∨
    ∃ i, act = .workerStep i) : (s.agents a).step a act = none := by
  rcases hact with rfl | ⟨i, rfl⟩
  · exact Option.map_eq_none_iff.mp (hrest (.mainStep a) rfl)
  · exact Option.map_eq_none_iff.mp (hrest (.workerStep a i) rfl)

theorem waits (hrest : s.AtRest) (hinv : SynInv s₀ s) {a : Addr}
    (halive : (s.agents a).alive = true) :
    (s.agents a).lock = none ∧ (s.agents a).main = .recv ∧
      ∀ w ∈ (s.agents a).workers, w.pc.waits = true :=
  Agent.waits_of_stuck halive (hinv.owner a) (hrest.agent .mainStep (Or.inl rfl)) fun i =>
    hrest.agent (.workerStep i) (Or.inr ⟨i, rfl⟩)

/-- No datagram for a main loop is left. -/
theorem no_mail (hrest : s.AtRest) (hinv : SynInv s₀ s) {a : Addr}
    (halive : (s.agents a).alive = true) (payload : List Byte) :
    ¬ Among s.net (mainSock a) payload := by
  rintro ⟨p, hp, hdst, -⟩
  have hstep := hrest (.mainRecv a p fun _ => 0) rfl
  simp only [System.step] at hstep
  rw [if_pos ⟨hp, hdst⟩] at hstep
  have hnone := Option.map_eq_none_iff.mp hstep
  have hagents : (s.take p).agents = s.agents := rfl
  rw [hagents, Agent.step, if_pos halive] at hnone
  simp [(hrest.waits hinv halive).2.1] at hnone

theorem notified (hrest : s.AtRest) {u : Fin sc.n} (hfits : (sc.update u).Fits) :
    s.notifiers u ≠ .idle := by
  intro hpc
  have hstep := hrest (.notify u) rfl
  simp only [System.step, hpc, syncPacket_eq hfits] at hstep
  cases hstep

/-- Every worker has started, unless no port is left for its socket. -/
theorem started (hrest : s.AtRest) (hs : NetInv s) {a : Addr}
    (halive : (s.agents a).alive = true)
    (hport : ∃ port, (s.agents a).freshPort port = true ∧ ∀ v, sc.sock v ≠ ⟨a, port⟩)
    {w : Worker} (hw : w ∈ (s.agents a).workers) : w.pc ≠ .start := by
  intro hpc
  obtain ⟨port, hfresh, hfree⟩ := hport
  obtain ⟨i, hi⟩ := List.mem_iff_getElem?.mp hw
  obtain ⟨u, j, hok⟩ := hs.workers a w hw
  have hstep := hrest (.workerStart a i port) rfl
  simp only [System.step] at hstep
  rw [if_pos hfree] at hstep
  have hnone := Option.map_eq_none_iff.mp hstep
  rw [Agent.step, if_pos halive] at hnone
  simp only [hi, Option.bind_some, Agent.workerStart, hpc] at hnone
  rcases hok.handleUpdate with ⟨-, hback⟩ | ⟨b, rest, -, hfwd⟩
  · rw [hback] at hnone
    cases hnone
  · simp only [hfwd, if_pos hfresh] at hnone
    cases hnone

end System.AtRest

/-- The parties' steps come to an end, for each of them is paid for. -/
theorem SynInv.exists_rest {s₀ s : System sc} (hs : NetInv s) (hinv : SynInv s₀ s) :
    ∃ t, Leads System.step (fun _ act => act.byParty = true) s t ∧ SynInv s₀ t ∧ t.AtRest := by
  obtain ⟨t, hleads, ⟨-, hinv⟩, hrest⟩ := Leads.exists_rest (System.potential ⟨1, 0⟩)
    (I := fun s => NetInv s ∧ SynInv s₀ s)
    (fun x a x' hx _ hstep => ⟨hx.1.step (System.step_sound hstep),
      hx.2.step hx.1 (System.step_sound hstep)⟩)
    (fun x a x' hx hparty hstep => System.byParty_pays hx.1 hparty (System.step_sound hstep))
    ⟨hs, hinv⟩
  exact ⟨t, hleads, hinv, hrest⟩

/-- **The handshake cannot get stuck half way**: from every reachable state the
    parties alone can run to rest, and there every process that is left holds no
    mutex and waits for the network. -/
theorem runs_to_rest {s₀ s : System sc} (h₀ : s₀.Idle) (h : Reachable System.step s₀ s) :
    ∃ t, Leads System.step (fun _ act => act.byParty = true) s t ∧ t.AtRest ∧
      ∀ a, (t.agents a).alive = true → (t.agents a).lock = none ∧ (t.agents a).main = .recv ∧
        ∀ w ∈ (t.agents a).workers, w.pc.waits = true := by
  obtain ⟨t, hleads, hinv, hrest⟩ :=
    SynInv.exists_rest (NetInv.reachable h₀ h) (SynInv.reachable h₀ h)
  exact ⟨t, hleads, hrest, fun a halive => System.AtRest.waits hrest hinv halive⟩

/-- From the middle of the chain of two hops. -/
theorem runs_to_rest_chain :
    ∃ s : System chainScenario, run System.step (System.init chainScenario) chainRun = some s ∧
      ∃ t, Leads System.step (fun _ act => act.byParty = true) s t ∧ t.AtRest ∧
        ∀ a, (t.agents a).alive = true → (t.agents a).lock = none ∧ (t.agents a).main = .recv ∧
          ∀ w ∈ (t.agents a).workers, w.pc.waits = true := by
  have hrun : (run System.step (System.init chainScenario) chainRun).isSome := by decide +kernel
  obtain ⟨s, hs⟩ := Option.isSome_iff_exists.mp hrun
  exact ⟨s, hs, runs_to_rest System.idle_init ⟨chainRun, hs⟩⟩

/-- No update of the flow that visits one of its hops is newer, and no hop has a
    record of it from before that is as new. -/
structure Newest (s₀ : System sc) (u : Fin sc.n) : Prop where
  updates : ∀ v, (sc.update v).key = (sc.update u).key → ∀ a ∈ (sc.update u).hops,
    a ∈ (sc.update v).hops → (sc.update v).seq.toInt ≤ (sc.update u).seq.toInt
  records : ∀ a ∈ (sc.update u).hops, ∀ q,
    storedSeq (s₀.agents a).records (sc.update u).key = some q →
      q.toInt < (sc.update u).seq.toInt

/-! ### A chain of two hops at rest -/

/-- The host at which a step happens, if it is one of an agent. -/
def SysAct.host {n : Nat} : SysAct n → Option Addr
  | .mainRecv a .. | .mainStep a | .mainExit a | .workerStart a .. | .workerRecv a ..
  | .workerStep a _ => some a
  | .notify _ | .notifyRecv .. | .lose _ | .duplicate _ => none

/-- A run leaves the hosts alone at which nothing happens. -/
theorem System.run_agents {s s' : System sc} {as : List (SysAct sc.n)}
    (hrun : run System.step s as = some s') {a : Addr} (ha : ∀ act ∈ as, act.host ≠ some a) :
    s'.agents a = s.agents a := by
  induction as generalizing s with
  | nil =>
    cases hrun
    rfl
  | cons act as ih =>
    obtain ⟨s₁, hstep, hrun⟩ := Option.bind_eq_some_iff.mp hrun
    rw [ih hrun fun act hact => ha act (List.mem_cons_of_mem _ hact)]
    cases System.step_sound hstep with
    | agent b _ act' _ a' ps hfeeds =>
      have hhost : act.host = some b := by cases hfeeds <;> rfl
      refine hfeeds.agents_put ?_ a' ps
      rintro rfl
      exact ha act List.mem_cons_self hhost
    | notify | notifyRecv | lose | duplicate => rfl

/-- A worker that only a datagram can move. -/
def WorkerPc.rests : WorkerPc → Bool
  | .ignored | .fwdPoll _ | .done => true
  | _ => false

def NotifyPc.started : NotifyPc → Bool
  | .idle => false
  | _ => true

theorem System.AtRest.of_quiet {s : System sc} (hnet : s.net = [])
    (hnotifiers : ∀ u, (s.notifiers u).started = true)
    (hagents : ∀ a, (s.agents a).main = .recv ∧
      ∀ w ∈ (s.agents a).workers, w.pc.rests = true) : s.AtRest := by
  have hno : ∀ (p : Packet) (P : Prop), ¬ (p ∈ s.net ∧ P) := by
    rintro p P ⟨hp, -⟩
    rw [hnet] at hp
    cases hp
  have hworker : ∀ (a : Addr) (i : Nat) (w : Worker), (s.agents a).workers[i]? = some w →
      w.pc = .ignored ∨ (∃ next, w.pc = .fwdPoll next) ∨ w.pc = .done := by
    intro a i w hw
    have h := (hagents a).2 w (List.mem_of_getElem? hw)
    cases hpc : w.pc with
    | ignored => exact Or.inl rfl
    | fwdPoll next => exact Or.inr (Or.inl ⟨next, rfl⟩)
    | done => exact Or.inr (Or.inr rfl)
    | _ =>
      rw [hpc] at h
      cases h
  intro act hact
  cases act with
  | mainExit | lose | duplicate => cases hact
  | notify u =>
    have hstarted := hnotifiers u
    cases hpc : s.notifiers u with
    | idle =>
      rw [hpc] at hstarted
      cases hstarted
    | waiting | received d => simp only [System.step, hpc]
  | notifyRecv u p old =>
    cases hpc : s.notifiers u with
    | idle | received d => simp only [System.step, hpc]
    | waiting =>
      simp only [System.step, hpc]
      rw [if_neg (hno _ _)]
  | mainRecv a p old | workerRecv a i p old =>
    simp only [System.step]
    rw [if_neg (hno _ _)]
  | mainStep a =>
    simp [System.step, System.stepAgent, Agent.step, Agent.mainStep, (hagents a).1]
  | workerStart a i port =>
    cases hw : (s.agents a).workers[i]? with
    | none => simp [System.step, System.stepAgent, Agent.step, hw]
    | some w =>
      rcases hworker a i w hw with hpc | ⟨next, hpc⟩ | hpc <;>
        simp [System.step, System.stepAgent, Agent.step, Agent.workerStart, hw, hpc]
  | workerStep a i =>
    cases hw : (s.agents a).workers[i]? with
    | none => simp [System.step, System.stepAgent, Agent.step, hw]
    | some w =>
      rcases hworker a i w hw with hpc | ⟨next, hpc⟩ | hpc <;>
        simp [System.step, System.stepAgent, Agent.step, Agent.workerStep, hw, hpc]

/-- Only a datagram can move a thread of the process, and a port is left. -/
def Agent.settled (a : Agent) (port : BitVec 16) : Bool :=
  a.alive && a.main = .recv && a.workers.all (fun w => w.pc.rests) && a.freshPort port

theorem Agent.settled_iff {a : Agent} {port : BitVec 16} : a.settled port = true ↔
    a.alive = true ∧ a.main = .recv ∧ (∀ w ∈ a.workers, w.pc.rests = true) ∧
      a.freshPort port = true := by
  simp [Agent.settled, and_assoc]

/-- Nothing is in flight, nothing was lost, every initiator has started and every
    one of the hosts has settled. -/
def System.settled (s : System sc) (hosts : List Addr) (port : BitVec 16) : Bool :=
  s.net.isEmpty && s.lost.isEmpty && (List.finRange sc.n).all (fun u => (s.notifiers u).started) &&
    hosts.all fun a => (s.agents a).settled port

/-- A run of these hosts that ends so ends at rest. -/
theorem System.settled_rests {s₀ s : System sc} {as : List (SysAct sc.n)} {hosts : List Addr}
    {port : BitVec 16} (h₀ : s₀.Idle) (hrun : run System.step s₀ as = some s)
    (hhosts : (as.all fun act => act.host.all hosts.contains) = true)
    (h : s.settled hosts port = true) :
    s.AtRest ∧ (∀ p, p ∉ s.lost) ∧ ∀ a ∈ hosts, (s.agents a).alive = true ∧
      (s.agents a).freshPort port = true := by
  simp only [System.settled, Bool.and_eq_true, List.isEmpty_iff, List.all_eq_true] at h
  obtain ⟨⟨⟨hnet, hlost⟩, hstarted⟩, hsettled⟩ := h
  refine ⟨System.AtRest.of_quiet hnet ?_ fun a => ?_, fun p hp => ?_, fun a ha => ?_⟩
  · exact fun u => hstarted u (List.mem_finRange u)
  · by_cases ha : a ∈ hosts
    · obtain ⟨-, hmain, hworkers, -⟩ := Agent.settled_iff.mp (hsettled a ha)
      exact ⟨hmain, hworkers⟩
    · have hidle : s.agents a = s₀.agents a := by
        refine System.run_agents hrun fun act hact hhost => ha ?_
        have hhere := List.all_eq_true.mp hhosts act hact
        rwa [hhost, Option.all_some, List.contains_iff_mem] at hhere
      rw [hidle]
      refine ⟨(h₀.agents a).main, fun w hw => ?_⟩
      rw [(h₀.agents a).workers] at hw
      cases hw
  · rw [hlost] at hp
    cases hp
  · obtain ⟨halive, -, -, hfresh⟩ := Agent.settled_iff.mp (hsettled a ha)
    exact ⟨halive, hfresh⟩

/-- The rest of `chainRun`: the ACK of the first hop releases the second one. -/
def restRun : List (SysAct chainScenario.n) := List.flatten
  [chainRun, List.replicate 2 (.workerStep hopA 0),
    [.mainRecv hopB (ackPacket ⟨hopA, chainPort⟩ hopB) 0], List.replicate 4 (.mainStep hopB),
    List.replicate 4 (.workerStep hopB 0)]

theorem chainSock_ne (a : Addr) : chainSock ≠ ⟨a, 6001⟩ := by
  intro h
  have hport : (5000 : BitVec 16) = 6001 := congrArg SockAddr.port h
  exact absurd hport (by decide)

theorem restRun_rests :
    ∃ s : System chainScenario, run System.step (System.init chainScenario) restRun = some s ∧
      s.AtRest ∧ (∀ p, p ∉ s.lost) ∧ ∀ a ∈ chainUpdate.hops, (s.agents a).alive = true ∧
        (s.agents a).freshPort 6001 = true := by
  have hrun : ((run System.step (System.init chainScenario) restRun).any fun s =>
      s.settled chainUpdate.hops 6001) = true := by
    decide +kernel
  obtain ⟨s, hs, hend⟩ := (Option.any_eq_true _ _).mp hrun
  exact ⟨s, hs, System.settled_rests System.idle_init hs (by decide +kernel) hend⟩

theorem chain_fits : (chainScenario.update chainOnly).Fits := by
  show 24 + 4 * [hopA, hopB].length ≤ 1400
  decide

theorem chain_newest : Newest (System.init chainScenario) chainOnly where
  updates := fun _ _ _ _ _ => le_refl _
  records := by
    intro a _ q hq
    cases hq

/-- A record as new as the newest update is the one of this update. -/
theorem SynInv.worker {s₀ s : System sc} (hs : NetInv s) (hinv : SynInv s₀ s) {u : Fin sc.n}
    (hnew : Newest s₀ u) {a : Addr} (ha : a ∈ (sc.update u).hops) {q : BitVec 32}
    (hq : storedSeq (s.agents a).records (sc.update u).key = some q)
    (hle : (sc.update u).seq.toInt ≤ q.toInt) :
    q = (sc.update u).seq ∧ ∃ w ∈ (s.agents a).workers, ∃ j, WorkerOK s a w u j := by
  rcases hinv.records a _ q hq with hold | hmem
  · exact absurd (hnew.records a ha q hold) (not_lt.mpr hle)
  · obtain ⟨w, hw, hupd⟩ := List.mem_map.mp hmem
    obtain ⟨v, j, hok⟩ := hs.workers a w hw
    obtain ⟨hkey, hseq⟩ := Prod.mk.injEq .. ▸ (hok.update.symm.trans hupd)
    have hge := hnew.updates v hkey a ha (List.mem_of_getElem? hok.hop)
    rw [hseq] at hge
    have heq : q = (sc.update u).seq := BitVec.eq_of_toInt_eq (le_antisymm hge hle)
    obtain rfl := sc.own v u hkey (hseq.trans heq)
    exact ⟨heq, w, hw, j, hok⟩

/-- At rest every hop of the newest update has a worker of it, which has started. -/
theorem System.AtRest.worker_started {s₀ s : System sc} (hrest : s.AtRest) (hs : NetInv s)
    (hinv : SynInv s₀ s) {u : Fin sc.n} (hfits : (sc.update u).Fits) (hnew : Newest s₀ u)
    (halive : ∀ a ∈ (sc.update u).hops, (s.agents a).alive = true)
    (hport : ∀ a ∈ (sc.update u).hops, ∃ port, (s.agents a).freshPort port = true ∧
      ∀ v, sc.sock v ≠ ⟨a, port⟩)
    (hlost : ∀ p ∈ s.lost, ∀ m, p.payload ≠ sc.syn u m) {m : Nat} {a : Addr}
    (hm : (sc.update u).hops[m]? = some a) :
    ∃ w ∈ (s.agents a).workers, w.pc ≠ .start ∧ WorkerOK s a w u m := by
  -- a hop that the SYN has arrived at has accepted it, and its worker has started
  have hhop : ∀ m a, (sc.update u).hops[m]? = some a → Arrived s u m a →
      ∃ w ∈ (s.agents a).workers, w.pc ≠ .start ∧ WorkerOK s a w u m := by
    intro m a hm harrived
    have ha := List.mem_of_getElem? hm
    rcases harrived with hnet | ⟨p, hp, -, hpay⟩ | ⟨q, hq, hle⟩
    · exact absurd hnet (hrest.no_mail hinv (halive a ha) _)
    · exact absurd hpay (hlost p hp m)
    · obtain ⟨-, w, hw, j, hok⟩ := hinv.worker hs hnew ha hq hle
      obtain rfl := (sc.update u).index_unique hok.hop hm
      exact ⟨w, hw, hrest.started hs (halive a ha) (hport a ha) hw, hok⟩
  suffices hall : ∀ m a, (sc.update u).hops[m]? = some a → Arrived s u m a from
    hhop m a hm (hall m a hm)
  clear hm
  intro m
  induction m with
  | zero =>
    intro a hm
    have hfirst : (sc.update u).first = a := by
      rw [Update.first, List.head_eq_getElem]
      exact (List.getElem?_eq_some_iff.mp hm).2
    exact hfirst ▸ hinv.first u (hrest.notified hfits)
  | succ m ih =>
    intro b hm
    have hlt : m < (sc.update u).hops.length :=
      Nat.lt_of_succ_lt (List.getElem?_eq_some_iff.mp hm).1
    have hm' := List.getElem?_eq_getElem hlt
    obtain ⟨w, hw, hpc, hok⟩ := hhop m _ hm' (ih _ hm')
    exact hinv.next _ w hw hpc u m b hm' hok.update hm

/-- **The newest update of a flow is accepted by every hop**, in every state at
    rest, if its SYNs were not lost, its hops run, and their hosts have a port
    left. -/
theorem accepted_at_rest {s₀ s : System sc} (h₀ : s₀.Idle) (h : Reachable System.step s₀ s)
    (hrest : s.AtRest) {u : Fin sc.n} (hfits : (sc.update u).Fits) (hnew : Newest s₀ u)
    (halive : ∀ a ∈ (sc.update u).hops, (s.agents a).alive = true)
    (hport : ∀ a ∈ (sc.update u).hops, ∃ port, (s.agents a).freshPort port = true ∧
      ∀ v, sc.sock v ≠ ⟨a, port⟩)
    (hlost : ∀ p ∈ s.lost, ∀ m, p.payload ≠ sc.syn u m) :
    ∀ a ∈ (sc.update u).hops, Accepted s u a := by
  intro a ha
  have hs := NetInv.reachable h₀ h
  obtain ⟨m, hm⟩ := List.mem_iff_getElem?.mp ha
  obtain ⟨w, -, -, hok⟩ :=
    hrest.worker_started hs (SynInv.reachable h₀ h) hfits hnew halive hport hlost hm
  refine hok.upto a ?_
  rw [List.take_add_one, hm]
  exact List.mem_append_right _ (List.mem_singleton_self a)

/-- The chain of two hops. -/
theorem accepted_at_rest_chain :
    ∃ s : System chainScenario, run System.step (System.init chainScenario) restRun = some s ∧
      ∀ a ∈ (chainScenario.update chainOnly).hops, Accepted s chainOnly a := by
  obtain ⟨s, hs, hrest, hlost, hhops⟩ := restRun_rests
  exact ⟨s, hs, accepted_at_rest System.idle_init ⟨restRun, hs⟩ hrest chain_fits chain_newest
    (fun a ha => (hhops a ha).1) (fun a ha => ⟨6001, (hhops a ha).2, fun _ => chainSock_ne a⟩)
    fun p hp => absurd hp (hlost p)⟩

/-! ### What becomes of the answer -/

/-- The SYN-ACK of an update. -/
abbrev Scenario.synAck (sc : Scenario) (u : Fin sc.n) : List Byte :=
  synAckBytes (sc.update u).key (sc.update u).seq

/-- In the loop of `updateForward`. -/
def WorkerPc.relays : WorkerPc → Bool
  | .fwdPoll _ | .fwdLock .. | .fwdTest .. | .fwdUnlock _ => true
  | _ => false

/-- With a SYN-ACK received and not yet relayed. -/
def WorkerPc.carries : WorkerPc → Bool
  | .fwdLock .. | .fwdTest .. => true
  | _ => false

/-- Behind the first SYN-ACK of `updateBack`, or behind the worker's loop. -/
def WorkerPc.answered : WorkerPc → Bool
  | .backLock _ n | .backTest _ n | .backUnlock _ n | .backSend _ n => 2 ≤ n
  | .ignored | .clear | .finalUnlock | .done => true
  | _ => false

/-- A SYN-ACK of the update is on its way to the initiator, or was lost there. -/
def Returning (s : System sc) (u : Fin sc.n) : Prop :=
  (∃ m x, Serves s u m x ∧ (Among s.net x (sc.synAck u) ∨ Among s.lost x (sc.synAck u))) ∨
    ∃ a ∈ (sc.update u).hops, ∃ w ∈ (s.agents a).workers, w.pc.carries = true

/-- No other update visits the hops of update `u`. -/
def Separate (sc : Scenario) (u : Fin sc.n) : Prop :=
  ∀ v, ∀ a ∈ (sc.update u).hops, a ∈ (sc.update v).hops → v = u

/-- As long as the initiator waits, no hop has heard of an ACK, and once the last
    hop has answered, an answer is on its way. -/
structure ReplyInv (s : System sc) (u : Fin sc.n) : Prop where
  flag : ∀ a ∈ (sc.update u).hops, (s.agents a).updateAck = false
  main : ∀ a ∈ (sc.update u).hops, (s.agents a).main = .recv
  acks : ∀ a ∈ (sc.update u).hops, ∀ q, ¬ Among s.sent (mainSock a) (ackBytes q)
  relays : ∀ a ∈ (sc.update u).hops, ∀ w ∈ (s.agents a).workers, ∀ port, w.port = some port →
    w.pc.relays = true
  answered : ∀ a ∈ (sc.update u).hops, ∀ w ∈ (s.agents a).workers, w.pc.answered = true →
    Returning s u

theorem ReplyInv.init {s : System sc} (h : s.Idle) {u : Fin sc.n}
    (hflag : ∀ a ∈ (sc.update u).hops, (s.agents a).updateAck = false) : ReplyInv s u where
  flag := hflag
  main := fun a _ => (h.agents a).main
  acks := by
    rintro a - q ⟨p, hp, -⟩
    rw [h.sent] at hp
    cases hp
  relays := by
    intro a _ w hw
    rw [(h.agents a).workers] at hw
    cases hw
  answered := by
    intro a _ w hw
    rw [(h.agents a).workers] at hw
    cases hw

section Quiet

variable {self : Addr} {a : Agent} {act : Act} {i : Nat} {w : Worker} {e : Effect}

/-- While the flag is clear, a worker with a socket of its own keeps relaying. -/
theorem WorkerMove.relays_quiet (h : WorkerMove self a i w act e) (hflag : a.updateAck = false)
    (hdec : handleUpdate w.request.buf w.request.n ≠ .ignored)
    (hstart : w.pc = .start → w.port = none)
    (hrelays : ∀ port, w.port = some port → w.pc.relays = true) :
    ∀ port, e.worker.port = some port → e.worker.pc.relays = true := by
  intro port hport
  cases h with
  | ignore _ _ hh => exact absurd hh hdec
  | forward => rfl
  | back _ _ hpc =>
    rw [hstart hpc] at hport
    cases hport
  | recv | fwdLock | relay | fwdUnlock => rfl
  | fwdAcked _ _ _ _ hset | backAcked _ _ _ hset => cases hflag.symm.trans hset
  | backLock _ _ hpc | backTest _ _ hpc | backUnlock _ _ hpc | backSend _ _ hpc
  | timeout _ _ hpc | clear hpc | finalUnlock hpc =>
    have hrelay := hrelays port hport
    rw [hpc] at hrelay
    cases hrelay

/-- While the flag is clear, a SYN-ACK that a worker carries is relayed. -/
theorem WorkerMove.carries_quiet (h : WorkerMove self a i w act e) (hflag : a.updateAck = false)
    (hcarries : w.pc.carries = true) :
    e.worker.pc.carries = true ∨ ∃ next recv, w.pc = .fwdTest next recv ∧
      e.packets = (packetOf (mainSock self) w.request.src (sendto recv.buf recv.n)).toList := by
  cases h with
  | fwdLock => exact Or.inl rfl
  | relay next recv hpc => exact Or.inr ⟨next, recv, hpc, rfl⟩
  | fwdAcked _ _ _ _ hset => cases hflag.symm.trans hset
  | ignore _ hpc | forward _ _ _ hpc | back _ _ hpc | recv _ _ hpc | fwdUnlock _ hpc
  | backLock _ _ hpc | backTest _ _ hpc | backAcked _ _ hpc | backUnlock _ _ hpc
  | backSend _ _ hpc | timeout _ _ hpc | clear hpc | finalUnlock hpc =>
    rw [hpc] at hcarries
    cases hcarries

/-- While the flag is clear, a worker gets behind its first SYN-ACK by sending it. -/
theorem WorkerMove.answered_quiet (h : WorkerMove self a i w act e) (hflag : a.updateAck = false)
    (hdec : handleUpdate w.request.buf w.request.n ≠ .ignored)
    (hanswered : e.worker.pc.answered = true) :
    w.pc.answered = true ∨ ∃ response count, w.pc = .backSend response count ∧
      e.packets = [⟨mainSock self, w.request.src, response⟩] := by
  cases h with
  | ignore _ _ hh => exact absurd hh hdec
  | forward | back | recv | fwdLock | relay | fwdUnlock => cases hanswered
  | fwdAcked _ _ _ _ hset | backAcked _ _ _ hset => cases hflag.symm.trans hset
  | backLock _ _ hpc | backTest _ _ hpc | backUnlock _ _ hpc =>
    rw [hpc]
    exact Or.inl hanswered
  | clear hpc | finalUnlock hpc =>
    rw [hpc]
    exact Or.inl rfl
  | backSend response count hpc | timeout response count hpc =>
    exact Or.inr ⟨response, count, hpc, rfl⟩

end Quiet

section Reply

variable {s s₁ : System sc} {u : Fin sc.n} {b : Addr} {act : SysAct sc.n} {act' : Act}
  {a' : Agent} {ps : List Packet}

/-- Every worker at a hop of the update is one of the update. -/
theorem NetInv.worker_of_hop (hs : NetInv s) (hsep : Separate sc u)
    (hb : b ∈ (sc.update u).hops) {w : Worker} (hw : w ∈ (s.agents b).workers) :
    ∃ j, WorkerOK s b w u j := by
  obtain ⟨v, j, hok⟩ := hs.workers b w hw
  obtain rfl := hsep v b hb (List.mem_of_getElem? hok.hop)
  exact ⟨j, hok⟩

theorem WorkerOK.not_ignored {w : Worker} {j : Nat} (h : WorkerOK s b w u j) :
    MiddleboxSession.handleUpdate w.request.buf w.request.n ≠ .ignored := by
  rcases h.handleUpdate with ⟨-, hh⟩ | ⟨c, rest, -, hh⟩ <;> rw [hh] <;> intro h' <;> cases h'

/-- A datagram for a socket that serves a hop is left alone, or the worker of this
    hop receives it. -/
theorem NetInv.serves_feeds (hs : NetInv s) (hfeeds : s.Feeds b act act' s₁) {m : Nat}
    {x : SockAddr} (hserves : Serves s u m x) {payload : List Byte} (h : Among s.net x payload) :
    Among s₁.net x payload ∨ b ∈ (sc.update u).hops ∧ ∃ i d, act' = .workerRecv i d := by
  cases hfeeds with
  | mainRecv p old hp hdst =>
    refine Or.inl (h.erase fun hthis => System.serves_port hs hserves ?_)
    rw [← hthis.1, hdst]
    rfl
  | workerRecv i p old hp hdst hport =>
    by_cases hthis : p.dst = x ∧ p.payload = payload
    · refine Or.inr ⟨?_, i, _, rfl⟩
      obtain ⟨w, hw, hwport⟩ := Option.bind_eq_some_iff.mp hport
      cases m with
      | zero =>
        -- no worker has the socket of an initiator
        refine absurd ?_ (((hs.ports b).own w (List.mem_of_getElem? hw) _ hwport).2 u)
        rw [← show x = sc.sock u from hserves, ← hthis.1, ← hdst]
      | succ m =>
        obtain ⟨a, port, hhop, hx, -⟩ := hserves
        have hab : a = b := by rw [← hdst, hthis.1, hx]
        exact hab ▸ List.mem_of_getElem? hhop
    · exact Or.inl (h.erase hthis)
  | mainStep | mainExit | workerStart | workerStep => exact Or.inl h

/-- **An answer on its way stays on its way.** -/
theorem Returning.agent (hs : NetInv s) (hsep : Separate sc u) (hinv : ReplyInv s u)
    (hfeeds : s.Feeds b act act' s₁) (hstep : Agent.Step b (s.agents b) act' a' ps)
    (h : Returning s u) : Returning (s₁.put b a' ps) u := by
  have hx := hs.extends_put hfeeds hstep
  rcases h with ⟨m, x, hserves, hnet | hlost⟩ | ⟨a, ha, w, hw, hcarries⟩
  · rcases hs.serves_feeds hfeeds hserves hnet with hnet | ⟨hb, i, d, rfl⟩
    · exact Or.inl ⟨m, x, hserves.mono hx, Or.inl (hnet.mono (List.subset_append_right _ _))⟩
    · -- the worker of the hop receives it
      refine Or.inr ⟨b, hb, ?_⟩
      rw [System.agents_put_self]
      cases hstep with
      | worker i' w _ e hw hm =>
        cases hm with
        | recv next _ hpc => exact ⟨_, Agent.worker_mem_apply hw, rfl⟩
  · refine Or.inl ⟨m, x, hserves.mono hx, Or.inr ?_⟩
    have hsame : (s₁.put b a' ps).lost = s.lost := by cases hfeeds <;> rfl
    rwa [hsame]
  · by_cases hab : a = b
    · subst hab
      have hkept : w ∈ a'.workers → Returning (s₁.put a a' ps) u := fun hmem =>
        Or.inr ⟨a, ha, w, by rwa [System.agents_put_self], hcarries⟩
      cases hstep with
      | syn d hmain hd => exact hkept (List.mem_append_left _ hw)
      | worker i v _ e hv hm =>
        rcases Agent.mem_workers_apply (e := e) hv hw with rfl | hmem
        · rcases hm.carries_quiet (hinv.flag a ha) hcarries with hc | ⟨next, recv, hpc, hps⟩
          · refine Or.inr ⟨a, ha, e.worker, ?_, hc⟩
            rw [System.agents_put_self]
            exact Agent.worker_mem_apply hv
          · -- it is relayed to the socket that the SYN came from
            obtain ⟨j, hok⟩ := hs.worker_of_hop hsep ha hw
            have hpcok := hok.pc
            rw [hpc] at hpcok
            refine Or.inl ⟨j, w.request.src, hok.src.mono hx, Or.inl
              ⟨⟨mainSock a, w.request.src, sc.synAck u⟩, List.mem_append_left _ ?_, rfl, rfl⟩⟩
            rw [hps, hpcok.2.1.sendto, packetOf, Option.map_some, Option.toList_some]
            exact List.mem_singleton_self _
        · exact hkept hmem
      | _ => exact hkept hw
    · refine Or.inr ⟨a, ha, w, ?_, hcarries⟩
      rwa [hfeeds.agents_put hab]

theorem NetInv.ack_payload (hs : NetInv s) {p : Packet} {old : Nat → Byte} (hp : p ∈ s.net)
    (hact : (recvfrom p old).header.action = 6) : ∃ q, p.payload = ackBytes q := by
  have hgenuine := hs.sent p (hs.net hp)
  rcases hgenuine.recv old with ⟨v, m, a, -, hsyn⟩ | ⟨v, m, -, hack, -⟩ | -
  · rw [hsyn.header, Header.action_mk'] at hact
    exact absurd hact (by decide)
  · rw [hack.header, Header.action_mk'] at hact
    exact absurd hact (by decide)
  · have hlen := hgenuine.length_le
    cases hgenuine with
    | ack v a src => exact ⟨_, rfl⟩
    | syn v m a rest src hhop =>
      rw [recvfrom_header (h := Header.mk' 4 (sc.update v).seq (sc.update v).key) old rfl hlen,
        Header.action_mk'] at hact
      exact absurd hact (by decide)
    | synAck v m src dst =>
      rw [recvfrom_header (h := Header.mk' 5 (sc.update v).seq (sc.update v).key) old rfl
        (by simp), Header.action_mk'] at hact
      exact absurd hact (by decide)

/-- A hop that has not heard of an ACK does not hear of one by itself. -/
theorem ReplyInv.quiet (hs : NetInv s) (hinv : ReplyInv s u) (hb : b ∈ (sc.update u).hops)
    (hfeeds : s.Feeds b act act' s₁) (hstep : Agent.Step b (s.agents b) act' a' ps) :
    a'.updateAck = false ∧ a'.main = .recv := by
  have hflag := hinv.flag b hb
  have hmain := hinv.main b hb
  cases hstep with
  | ack d _ hd =>
    cases hfeeds with
    | mainRecv p old hp hdst =>
      obtain ⟨q, hpay⟩ := hs.ack_payload hp (dispatch_eq_ack.mp hd).1
      exact absurd ⟨p, hs.net hp, hdst, hpay⟩ (hinv.acks b hb q)
  | syn | nullDeref | skip | exit | undefined => exact ⟨hflag, hmain⟩
  | lockAck _ _ h | setAck _ _ h | unlockAck _ _ h | netlinkAck _ _ h => cases hmain.symm.trans h
  | worker i w _ e hw hm => cases hm <;> first | exact ⟨hflag, hmain⟩ | exact ⟨rfl, hmain⟩

/-- No agent sends an ACK to a hop that has not heard of one. -/
theorem ReplyInv.no_ack (hs : NetInv s) (hsep : Separate sc u) (hinv : ReplyInv s u)
    (hstep : Agent.Step b (s.agents b) act' a' ps) {a : Addr} (ha : a ∈ (sc.update u).hops)
    (q : BitVec 32) : ¬ Among ps (mainSock a) (ackBytes q) := by
  rintro ⟨p, hp, hdst, hpay⟩
  cases hstep with
  | worker i w _ e hw hm =>
    obtain ⟨v, j, hok⟩ := hs.workers b w (List.mem_of_getElem? hw)
    have hsrc : w.request.src ≠ mainSock a := by
      intro h
      exact System.serves_port hs hok.src (h ▸ rfl)
    cases hm with
    | forward port next mesg hpc hh =>
      rw [List.mem_singleton.mp hp] at hpay
      rcases hok.handleUpdate with ⟨-, hback⟩ | ⟨c, rest, -, hfwd⟩
      · rw [hback] at hh
        cases hh
      · rw [hfwd, Handled.forward.injEq] at hh
        have hlen := congrArg List.length (hh.2.trans hpay)
        simp at hlen
    | relay next recv hpc =>
      obtain ⟨bytes, -, rfl⟩ := Option.map_eq_some_iff.mp (Option.mem_toList.mp hp)
      exact hsrc hdst
    | fwdAcked next recv sent hpc hset heq =>
      have hpcok := hok.pc
      rw [hpc] at hpcok
      rw [List.mem_singleton.mp hp, heq] at hdst
      have hnext : next = a := congrArg SockAddr.addr hdst
      obtain rfl := hsep v a ha (hnext ▸ List.mem_of_getElem? hpcok.1)
      cases (hinv.flag b (List.mem_of_getElem? hok.hop)).symm.trans hset
    | backSend | timeout =>
      rw [List.mem_singleton.mp hp] at hdst
      exact hsrc hdst
    | _ => cases hp
  | _ => cases hp

theorem ReplyInv.agent (hs : NetInv s) (hsep : Separate sc u) (hinv : ReplyInv s u)
    (hfeeds : s.Feeds b act act' s₁) (hstep : Agent.Step b (s.agents b) act' a' ps) :
    ReplyInv (s₁.put b a' ps) u := by
  have hx := hs.extends_put hfeeds hstep
  have hreturn : Returning s u → Returning (s₁.put b a' ps) u :=
    Returning.agent hs hsep hinv hfeeds hstep
  constructor
  · intro a ha
    by_cases hab : a = b
    · subst hab
      rw [System.agents_put_self]
      exact (hinv.quiet hs ha hfeeds hstep).1
    · rw [hfeeds.agents_put hab]
      exact hinv.flag a ha
  · intro a ha
    by_cases hab : a = b
    · subst hab
      rw [System.agents_put_self]
      exact (hinv.quiet hs ha hfeeds hstep).2
    · rw [hfeeds.agents_put hab]
      exact hinv.main a ha
  · rintro a ha q ⟨p, hp, hdst, hpay⟩
    rw [hfeeds.sent_put] at hp
    rcases List.mem_append.mp hp with hp | hp
    · exact hinv.no_ack hs hsep hstep ha q ⟨p, hp, hdst, hpay⟩
    · exact hinv.acks a ha q ⟨p, hp, hdst, hpay⟩
  · intro a ha w hw
    by_cases hab : a = b
    · subst hab
      rw [System.agents_put_self] at hw
      cases hstep with
      | syn d hmain hd =>
        rcases List.mem_append.mp hw with hw | hw
        · exact hinv.relays a ha w hw
        · rw [List.mem_singleton.mp hw]
          intro port hport
          cases hport
      | worker i v _ e hv hm =>
        rcases List.mem_or_eq_of_mem_set hw with hw | rfl
        · exact hinv.relays a ha w hw
        · have hmem := List.mem_of_getElem? hv
          obtain ⟨j, hok⟩ := hs.worker_of_hop hsep ha hmem
          exact hm.relays_quiet (hinv.flag a ha) hok.not_ignored ((hs.ports a).start v hmem)
            (hinv.relays a ha v hmem)
      | _ => exact hinv.relays a ha w hw
    · rw [hfeeds.agents_put hab] at hw
      exact hinv.relays a ha w hw
  · intro a ha w hw hans
    by_cases hab : a = b
    · subst hab
      rw [System.agents_put_self] at hw
      cases hstep with
      | syn d hmain hd =>
        rcases List.mem_append.mp hw with hw | hw
        · exact hreturn (hinv.answered a ha w hw hans)
        · rw [List.mem_singleton.mp hw] at hans
          cases hans
      | worker i v _ e hv hm =>
        rcases List.mem_or_eq_of_mem_set hw with hw | rfl
        · exact hreturn (hinv.answered a ha w hw hans)
        · have hmem := List.mem_of_getElem? hv
          obtain ⟨j, hok⟩ := hs.worker_of_hop hsep ha hmem
          rcases hm.answered_quiet (hinv.flag a ha) hok.not_ignored hans with
            hans | ⟨response, count, hpc, hps⟩
          · exact hreturn (hinv.answered a ha v hmem hans)
          · -- the answer goes to the socket that the SYN came from
            have hpcok := hok.pc
            rw [hpc] at hpcok
            refine Or.inl ⟨j, v.request.src, hok.src.mono hx, Or.inl
              ⟨⟨mainSock a, v.request.src, sc.synAck u⟩, List.mem_append_left _ ?_, rfl, rfl⟩⟩
            rw [hps, hpcok.2.1]
            exact List.mem_singleton_self _
      | _ => exact hreturn (hinv.answered a ha w hw hans)
    · rw [hfeeds.agents_put hab] at hw
      exact hreturn (hinv.answered a ha w hw hans)

/-- A step outside the agents that leaves the sockets of the update alone. -/
theorem ReplyInv.of_agents {s' : System sc} (hinv : ReplyInv s u)
    (hagents : s'.agents = s.agents) (hsent : s.sent ⊆ s'.sent)
    (hacks : ∀ a ∈ (sc.update u).hops, ∀ q, Among s'.sent (mainSock a) (ackBytes q) →
      Among s.sent (mainSock a) (ackBytes q))
    (hnet : ∀ m x, Serves s u m x → Among s.net x (sc.synAck u) →
      Among s'.net x (sc.synAck u) ∨ Among s'.lost x (sc.synAck u))
    (hlost : s.lost ⊆ s'.lost) : ReplyInv s' u where
  flag := by rw [hagents]; exact hinv.flag
  main := by rw [hagents]; exact hinv.main
  acks := fun a ha q h => hinv.acks a ha q (hacks a ha q h)
  relays := by rw [hagents]; exact hinv.relays
  answered := by
    intro a ha w hw hans
    rw [hagents] at hw
    have hx : Extends s s' := Extends.of_agents hsent hagents
    rcases hinv.answered a ha w hw hans with ⟨m, x, hserves, hnet' | hlost'⟩ | hcarries
    · exact Or.inl ⟨m, x, hserves.mono hx, hnet m x hserves hnet'⟩
    · exact Or.inl ⟨m, x, hserves.mono hx, Or.inr (hlost'.mono hlost)⟩
    · refine Or.inr ?_
      rwa [hagents]

/-- The initiator of another update has a socket and a first hop of its own. -/
theorem ReplyInv.notifyRecv (hs : NetInv s) (hsep : Separate sc u) (hinv : ReplyInv s u)
    {v : Fin sc.n} (hvu : v ≠ u) {p : Packet} {pc : NotifyPc} {mesg : Option (List Byte)}
    (hdst : p.dst = sc.sock v) :
    ReplyInv (((s.take p).setNotifier v pc).send
      (packetOf (sc.sock v) (mainSock (sc.update v).first) mesg).toList) u := by
  refine hinv.of_agents rfl (List.subset_append_right _ _) ?_ ?_ (List.Subset.refl _)
  · rintro a ha q ⟨r, hr, hrdst, hpay⟩
    rcases List.mem_append.mp hr with hr | hr
    · obtain ⟨bytes, -, rfl⟩ := Option.map_eq_some_iff.mp (Option.mem_toList.mp hr)
      have hfirst : (sc.update v).first = a := congrArg SockAddr.addr hrdst
      exact absurd (hsep v a ha (hfirst ▸ List.head_mem _)) hvu
    · exact ⟨r, hr, hrdst, hpay⟩
  · intro m x hserves h
    refine Or.inl ((h.erase fun hthis => ?_).mono (List.subset_append_right _ _))
    rw [← hthis.1, hdst] at hserves
    cases m with
    | zero => exact hvu (sc.sock_inj v u hserves)
    | succ m =>
      obtain ⟨a, port, -, hx, w, hw, hport, -⟩ := hserves
      exact ((hs.ports a).own w hw port hport).2 v hx

end Reply

theorem ReplyInv.step {s s' : System sc} {u : Fin sc.n} {act : SysAct sc.n} (hs : NetInv s)
    (hsep : Separate sc u) (hinv : ReplyInv s u) (hstep : System.Step s act s')
    (hwait : ∀ d, s'.notifiers u ≠ .received d) : ReplyInv s' u := by
  cases hstep with
  | agent b _ act' s₁ a' ps hfeeds halive hstep => exact hinv.agent hs hsep hfeeds hstep
  | notify v hpc =>
    refine hinv.of_agents rfl (List.subset_cons_self _ _) ?_
      (fun m x _ h => Or.inl (h.mono (List.subset_cons_self _ _))) (List.Subset.refl _)
    rintro a ha q ⟨p, hp, hdst, hpay⟩
    rcases List.mem_cons.mp hp with rfl | hp
    · have hlen := congrArg List.length hpay
      have hpos := List.length_pos_of_ne_nil (sc.update v).nonempty
      simp only [length_synBytes, length_ackBytes] at hlen
      omega
    · exact ⟨p, hp, hdst, hpay⟩
  | notifyRecv v p old hpc hp hdst =>
    by_cases hvu : v = u
    · subst hvu
      exact absurd (Function.update_self ..) (hwait (recvfrom p old))
    · exact hinv.notifyRecv hs hsep hvu hdst
  | lose p hp =>
    refine hinv.of_agents rfl (List.Subset.refl _) (fun _ _ _ h => h) (fun m x _ h => ?_)
      (List.subset_cons_self _ _)
    by_cases hthis : p.dst = x ∧ p.payload = sc.synAck u
    · exact Or.inr ⟨p, List.mem_cons_self, hthis.1, hthis.2⟩
    · exact Or.inl (h.erase hthis)
  | duplicate p hp =>
    exact hinv.of_agents rfl (List.Subset.refl _) (fun _ _ _ h => h)
      (fun m x _ h => Or.inl (h.mono (List.subset_cons_self _ _))) (List.Subset.refl _)

/-- An initiator that has its answer keeps it. -/
theorem System.Step.received {s s' : System sc} {act : SysAct sc.n} (h : System.Step s act s')
    {u : Fin sc.n} {d : Datagram} (hd : s.notifiers u = .received d) :
    s'.notifiers u = .received d := by
  cases h with
  | notify v hpc | notifyRecv v _ _ hpc =>
    have hvu : u ≠ v := by
      rintro rfl
      cases hpc.symm.trans hd
    exact (Function.update_of_ne hvu ..).trans hd
  | agent b _ act' s₁ a' ps hfeeds => rwa [System.notifiers_put, hfeeds.notifiers]
  | lose | duplicate => exact hd

theorem ReplyInv.reachable {s₀ s : System sc} {u : Fin sc.n} (h₀ : s₀.Idle)
    (h : Reachable System.step s₀ s) (hsep : Separate sc u)
    (hflag : ∀ a ∈ (sc.update u).hops, (s₀.agents a).updateAck = false)
    (hwait : ∀ d, s.notifiers u ≠ .received d) : ReplyInv s u := by
  suffices hall : (∃ d, s.notifiers u = .received d) ∨ ReplyInv s u from
    hall.resolve_left fun ⟨d, hd⟩ => hwait d hd
  refine h.invariant (P := fun s => (∃ d, s.notifiers u = .received d) ∨ ReplyInv s u)
    (Or.inr (ReplyInv.init h₀ hflag)) fun x act x' hreach hx hstep => ?_
  have hstep' := System.step_sound hstep
  by_cases hd : ∃ d, x'.notifiers u = .received d
  · exact Or.inl hd
  · rcases hx with ⟨d, hx⟩ | hx
    · exact Or.inl ⟨d, hstep'.received hx⟩
    · exact Or.inr (hx.step (NetInv.reachable h₀ hreach) hsep hstep' fun d h => hd ⟨d, h⟩)

/-- No datagram for an initiator that waits is left. -/
theorem System.AtRest.no_answer {s : System sc} (hrest : s.AtRest) {u : Fin sc.n}
    (hpc : s.notifiers u = .waiting) (payload : List Byte) :
    ¬ Among s.net (sc.sock u) payload := by
  rintro ⟨p, hp, hdst, -⟩
  have hstep := hrest (.notifyRecv u p fun _ => 0) rfl
  simp only [System.step, hpc] at hstep
  rw [if_pos ⟨hp, hdst⟩] at hstep
  cases hstep

/-- No datagram for a worker that waits is left. -/
theorem System.AtRest.no_reply {s : System sc} (hrest : s.AtRest) {a : Addr}
    (halive : (s.agents a).alive = true) {w : Worker} (hw : w ∈ (s.agents a).workers)
    {next : Addr} (hpc : w.pc = .fwdPoll next) {port : BitVec 16} (hport : w.port = some port)
    (payload : List Byte) : ¬ Among s.net ⟨a, port⟩ payload := by
  rintro ⟨p, hp, hdst, -⟩
  obtain ⟨i, hi⟩ := List.mem_iff_getElem?.mp hw
  have hstep := hrest (.workerRecv a i p fun _ => 0) rfl
  have hguard : p ∈ s.net ∧ p.dst.addr = a ∧ s.workerPort a i = some p.dst.port := by
    rw [System.workerPort, hi, hdst]
    exact ⟨hp, rfl, hport⟩
  simp only [System.step] at hstep
  rw [if_pos hguard] at hstep
  have hnone := Option.map_eq_none_iff.mp hstep
  have hagents : (s.take p).agents = s.agents := rfl
  rw [hagents, Agent.step, if_pos halive] at hnone
  simp [hi, hpc] at hnone

/-- At rest the answer is with the initiator, for it can be nowhere else. -/
theorem System.AtRest.answered {s₀ s : System sc} (hrest : s.AtRest) (hs : NetInv s)
    (hinv : SynInv s₀ s) {u : Fin sc.n} (hfits : (sc.update u).Fits)
    (hreply : (∀ d, s.notifiers u ≠ .received d) → ReplyInv s u) (hnew : Newest s₀ u)
    (halive : ∀ a ∈ (sc.update u).hops, (s.agents a).alive = true)
    (hport : ∀ a ∈ (sc.update u).hops, ∃ port, (s.agents a).freshPort port = true ∧
      ∀ v, sc.sock v ≠ ⟨a, port⟩)
    (hsyn : ∀ p ∈ s.lost, ∀ m, p.payload ≠ sc.syn u m)
    (hsynAck : ∀ p ∈ s.lost, p.payload ≠ sc.synAck u) :
    ∃ d, s.notifiers u = .received d := by
  have hwaits : ∀ a ∈ (sc.update u).hops, ∀ w ∈ (s.agents a).workers, w.pc.waits = true :=
    fun a ha => (hrest.waits hinv (halive a ha)).2.2
  by_contra hnone
  have hpc : s.notifiers u = .waiting := by
    cases hnot : s.notifiers u with
    | idle => exact absurd hnot (hrest.notified hfits)
    | waiting => rfl
    | received d => exact absurd ⟨d, hnot⟩ hnone
  have hreply := hreply fun d hd => hnone ⟨d, hd⟩
  -- the worker of the last hop has answered
  have hlen := List.length_pos_of_ne_nil (sc.update u).nonempty
  have hlast := List.getElem?_eq_getElem (Nat.sub_lt hlen Nat.one_pos)
  have hmem := List.mem_of_getElem? hlast
  obtain ⟨w, hw, hstart, hok⟩ := hrest.worker_started hs hinv hfits hnew halive hport hsyn hlast
  have hanswered : w.pc.answered = true := by
    have hwait := hwaits _ hmem w hw
    have hpcok := hok.pc
    cases hwpc : w.pc with
    | start => exact absurd hwpc hstart
    | ignored | done => rfl
    | fwdPoll next =>
      rw [hwpc, PcOK, Nat.sub_add_cancel hlen, List.getElem?_eq_none (le_refl _)] at hpcok
      cases hpcok
    | _ =>
      rw [hwpc] at hwait
      cases hwait
  -- the answer is nowhere
  rcases hreply.answered _ hmem w hw hanswered with
    ⟨m, x, hserves, hnet | ⟨p, hp, -, hpay⟩⟩ | ⟨a, ha, v, hv, hcarries⟩
  · cases m with
    | zero =>
      obtain rfl : x = sc.sock u := hserves
      exact hrest.no_answer hpc _ hnet
    | succ m =>
      obtain ⟨a, port, hhop, rfl, v, hv, hvport, -⟩ := hserves
      have ha := List.mem_of_getElem? hhop
      have hrelays := hreply.relays a ha v hv port hvport
      have hwait := hwaits a ha v hv
      cases hvpc : v.pc with
      | fwdPoll next => exact hrest.no_reply (halive a ha) hv hvpc hvport _ hnet
      | start | ignored | done =>
        rw [hvpc] at hrelays
        cases hrelays
      | _ =>
        rw [hvpc] at hwait
        cases hwait
  · exact hsynAck p hp hpay
  · have hwait := hwaits a ha v hv
    cases hvpc : v.pc with
    | fwdLock | fwdTest =>
      rw [hvpc] at hwait
      cases hwait
    | _ =>
      rw [hvpc] at hcarries
      cases hcarries

/-- **The initiator of the newest update of a flow has its answer**, in every
    state at rest, if no other update visits its hops, none of its datagrams was
    lost, its hops run, and their hosts have a port left. -/
theorem answered_at_rest {s₀ s : System sc} (h₀ : s₀.Idle) (h : Reachable System.step s₀ s)
    (hrest : s.AtRest) {u : Fin sc.n} (hfits : (sc.update u).Fits) (hnew : Newest s₀ u)
    (hsep : Separate sc u)
    (hflag : ∀ a ∈ (sc.update u).hops, (s₀.agents a).updateAck = false)
    (halive : ∀ a ∈ (sc.update u).hops, (s.agents a).alive = true)
    (hport : ∀ a ∈ (sc.update u).hops, ∃ port, (s.agents a).freshPort port = true ∧
      ∀ v, sc.sock v ≠ ⟨a, port⟩)
    (hsyn : ∀ p ∈ s.lost, ∀ m, p.payload ≠ sc.syn u m)
    (hsynAck : ∀ p ∈ s.lost, p.payload ≠ sc.synAck u) :
    ∃ d, s.notifiers u = .received d :=
  hrest.answered (NetInv.reachable h₀ h) (SynInv.reachable h₀ h) hfits
    (ReplyInv.reachable h₀ h hsep hflag) hnew halive hport hsyn hsynAck

/-- The chain of two hops. -/
theorem answered_at_rest_chain :
    ∃ s : System chainScenario, run System.step (System.init chainScenario) restRun = some s ∧
      ∃ d, s.notifiers chainOnly = .received d := by
  obtain ⟨s, hs, hrest, hlost, hhops⟩ := restRun_rests
  exact ⟨s, hs, answered_at_rest System.idle_init ⟨restRun, hs⟩ hrest chain_fits chain_newest
    (fun v _ _ _ => chainScenario_one v chainOnly) (fun _ _ => rfl)
    (fun a ha => (hhops a ha).1) (fun a ha => ⟨6001, (hhops a ha).2, fun _ => chainSock_ne a⟩)
    (fun p hp => absurd hp (hlost p)) fun p hp => absurd hp (hlost p)⟩

end MiddleboxSession
