/-
  MiddleboxSession/Survival.lean
  ==============================
  **Which datagrams the main loop survives.**

  The branches of MiddleboxAgent's main loop treat a missing record in different
  ways: the one for SYNs tests the pointer of `findItem`, the one for ACKs reads
  through it.  A record exists exactly for the flows of which a SYN has arrived,
  so the agent survives exactly the sequences in which no ACK is the first
  datagram of its flow that counts.  serverUDP has the test in both branches.
-/
import MiddleboxSession.MainLoop
import MiddleboxSession.Emulator.Server

namespace MiddleboxSession

open CBuffer

/-! ### One datagram -/

theorem dispatch_eq_nullDeref_iff {records : FlowTable} {h : Header} :
    dispatch records h = .nullDeref ↔ h.action = 6 ∧ findItem records h.key = none := by
  constructor
  · intro hd
    have h6 := dispatch_eq_nullDeref hd
    refine ⟨h6, ?_⟩
    by_contra hne
    obtain ⟨r, hr⟩ := Option.ne_none_iff_exists'.mp hne
    have h4 : h.action ≠ 4 := by
      rw [h6]
      decide
    simp only [dispatch, if_neg h4, if_pos h6, hr] at hd
    split at hd <;> cases hd
  · rintro ⟨h6, hnone⟩
    have h4 : h.action ≠ 4 := by
      rw [h6]
      decide
    simp only [dispatch, if_neg h4, if_pos h6, hnone]

theorem alive_mainIteration_iff {st : MainState} {d : Datagram} :
    (mainIteration st d).alive = true ↔
      st.alive = true ∧ ¬ (d.header.action = 6 ∧ findItem st.records d.header.key = none) := by
  rw [← dispatch_eq_nullDeref_iff]
  by_cases halive : st.alive
  · unfold mainIteration
    rw [if_pos halive]
    dsimp only
    split <;> simp [*]
  · simp [mainIteration, halive]

theorem dispatch_eq_syn_of_none {records : FlowTable} {h : Header} (haction : h.action = 4)
    (hnone : findItem records h.key = none) : dispatch records h = .syn := by
  refine dispatch_eq_syn.mpr ⟨haction, ?_⟩
  intro s hs
  rw [storedSeq, hnone] at hs
  cases hs

/-- An iteration adds a record for the flow of a SYN and for no other flow. -/
theorem findItem_mainIteration_ne_none {st : MainState} {d : Datagram} (halive : st.alive = true)
    {k : FlowKey} : findItem (mainIteration st d).records k ≠ none ↔
      findItem st.records k ≠ none ∨ d.header.action = 4 ∧ d.header.key = k := by
  by_cases hsyn : dispatch st.records d.header = .syn
  · have haction := (dispatch_eq_syn.mp hsyn).1
    have hrecords : (mainIteration st d).records =
        addItem st.records d.header.key d.header.sequenceNum := by
      simp only [mainIteration, halive, hsyn, if_true]
    rw [hrecords, findItem_addItem]
    by_cases hk : d.header.key = k
    · simp [hk, haction]
    · simp [hk]
  · have hrecords : (mainIteration st d).records = st.records := by
      simp only [mainIteration, halive, if_true]
      split
      · exact absurd ‹_› hsyn
      all_goals rfl
    rw [hrecords]
    refine ⟨Or.inl, ?_⟩
    rintro (hold | ⟨haction, rfl⟩)
    · exact hold
    · intro hnone
      exact hsyn (dispatch_eq_syn_of_none haction hnone)

/-- A record exists for the flows of which a SYN has arrived. -/
theorem findItem_mainLoop_ne_none {st : MainState} {ds : List Datagram}
    (halive : (mainLoop st ds).alive = true) {k : FlowKey} :
    findItem (mainLoop st ds).records k ≠ none ↔
      findItem st.records k ≠ none ∨ ∃ d ∈ ds, d.header.action = 4 ∧ d.header.key = k := by
  induction ds using List.reverseRecOn with
  | nil => simp [mainLoop]
  | append_singleton ds d ih =>
    rw [mainLoop_append] at halive ⊢
    have hbefore : (mainLoop st ds).alive = true := (alive_mainIteration_iff.mp halive).1
    have hlast : findItem (mainLoop (mainLoop st ds) [d]).records k ≠ none ↔
        findItem (mainLoop st ds).records k ≠ none ∨ d.header.action = 4 ∧ d.header.key = k :=
      findItem_mainIteration_ne_none hbefore
    rw [hlast, ih hbefore]
    simp only [List.mem_append, List.mem_singleton, or_and_right, exists_or, exists_eq_left,
      or_assoc]

/-! ### Sequences of datagrams -/

/-- The iteration does not end the process, and an ACK for a flow without a
    record has no effect. -/
def Survives (st : MainState) (d : Datagram) : Prop :=
  (mainIteration st d).alive = true ∧
    (d.header.action = 6 → findItem st.records d.header.key = none → mainIteration st d = st)

/-- Every ACK comes after a SYN of its flow. -/
def AcksKnown (ds : List Datagram) : Prop :=
  ∀ pre d post, ds = pre ++ d :: post → d.header.action = 6 →
    ∃ e ∈ pre, e.header.action = 4 ∧ e.header.key = d.header.key

theorem AcksKnown.alive {ds : List Datagram} (h : AcksKnown ds) :
    (mainLoop MainState.init ds).alive = true := by
  induction ds using List.reverseRecOn with
  | nil => rfl
  | append_singleton ds d ih =>
    have hbefore : (mainLoop MainState.init ds).alive = true := by
      apply ih
      intro pre e post heq
      exact h pre e (post ++ [d]) (by rw [heq, List.append_assoc, List.cons_append])
    rw [mainLoop_append]
    refine alive_mainIteration_iff.mpr ⟨hbefore, ?_⟩
    rintro ⟨haction, hnone⟩
    have hknown := (findItem_mainLoop_ne_none hbefore).mpr (Or.inr (h ds d [] rfl haction))
    exact hknown hnone

/-- **What the main loop survives.**  Every datagram of a sequence is survived
    exactly if every ACK of it comes after a SYN of its flow. -/
theorem mainLoop_survives_iff (ds : List Datagram) :
    (∀ pre d post, ds = pre ++ d :: post → Survives (mainLoop MainState.init pre) d) ↔
      AcksKnown ds := by
  constructor
  · intro h pre d post hds haction
    obtain ⟨halive, -⟩ := h pre d post hds
    obtain ⟨hbefore, hok⟩ := alive_mainIteration_iff.mp halive
    have hknown : findItem (mainLoop MainState.init pre).records d.header.key ≠ none :=
      fun hnone => hok ⟨haction, hnone⟩
    refine ((findItem_mainLoop_ne_none hbefore).mp hknown).resolve_left ?_
    exact fun hinit => hinit rfl
  · intro h pre d post hds
    have hprefix : AcksKnown (pre ++ [d]) := by
      intro pre' e post' heq
      exact h pre' e (post' ++ post) (by
        rw [hds, List.append_cons, heq, List.append_assoc, List.cons_append])
    have halive := hprefix.alive
    rw [mainLoop_append] at halive
    refine ⟨halive, ?_⟩
    intro haction hnone
    exact absurd ⟨haction, hnone⟩ (alive_mainIteration_iff.mp halive).2

/-- An ACK that no SYN has come before. -/
theorem unknown_ack_not_survived : ¬ ∀ ds d, Survives (mainLoop MainState.init ds) d := by
  intro h
  obtain ⟨halive, -⟩ := h [] (recvfrom ⟨⟨inetAton 10 0 0 1, 5000⟩, ⟨inetAton 10 0 0 2, UDP_PORT⟩,
    ackBytes 100⟩ 0)
  exact absurd halive (by decide +kernel)

/-- serverUDP leaves its state alone in the same case. -/
theorem Emulator.Server.mainRecv_unknown_ack {self : SockAddr} {a : Server} {d : Datagram}
    (haction : d.header.action = 3) (hnone : findItem a.records (peerKey self d.src) = none) :
    a.mainRecv self d = a := by
  apply Server.mainRecv_of_skip
  · intro hd
    have hsyn := (dispatch_eq_syn.mp hd).1
    rw [haction] at hsyn
    cases hsyn
  · intro hd
    rw [hnone] at hd
    obtain ⟨-, r, hr, -⟩ := dispatch_eq_ack.mp hd
    cases hr

end MiddleboxSession
