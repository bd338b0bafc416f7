/-
  MiddleboxSession/MainLoop.lean
  ==============================
  **The main loop of MiddleboxAgent, one datagram at a time.**

  `dispatch` is the gate: what the loop does with a datagram depends only on
  its header and on the record that `findItem` returns for its flow key.
  `mainIteration` runs one iteration to its end, and `mainLoop` a finite
  sequence of datagrams.  A history of events is kept beside the table; it is
  never read by the code, the properties speak about it.

  The gate and `addItem` agree over every run, whatever datagrams arrive, with
  any contents: the stored sequence number is the largest one of the SYNs
  accepted for the key, and an ACK gets through only for that number
  (`Gated`, kept by every iteration, and `mainLoop_gated`).
-/
import MiddleboxSession.FlowTable

namespace MiddleboxSession

open CBuffer UTHash

/-! ### The gate -/

/-- What one iteration of the main loop does with a datagram. -/
inductive Branch where
  | outOfDate    -- a SYN that is not newer than the record
  | syn          -- a SYN that is accepted
  | ack          -- an ACK that is accepted
  | outOfOrder   -- an ACK for another sequence number
  | nullDeref    -- an ACK for a key without a record: `retv->sequenceNumber`, `retv == NULL`
  | other        -- any other action
deriving DecidableEq, Repr

def dispatch (records : FlowTable) (msgheader : Header) : Branch :=
  let retv := findItem records msgheader.key
  if msgheader.action = 4 then
    match retv with
    | some r => if r.sequenceNumber.toInt ≥ msgheader.sequenceNum.toInt then .outOfDate else .syn
    | none => .syn
  else if msgheader.action = 6 then
    match retv with
    | some r => if r.sequenceNumber = msgheader.sequenceNum then .ack else .outOfOrder
    | none => .nullDeref
  else .other

theorem dispatch_eq_syn {records : FlowTable} {h : Header} :
    dispatch records h = .syn ↔
      h.action = 4 ∧ ∀ s, storedSeq records h.key = some s → s.toInt < h.sequenceNum.toInt := by
  unfold dispatch storedSeq
  by_cases h4 : h.action = 4
  · rw [if_pos h4, and_iff_right h4]
    cases findItem records h.key with
    | none => simp
    | some r =>
      by_cases hge : r.sequenceNumber.toInt ≥ h.sequenceNum.toInt
      · simp [hge]
      · simp only [if_neg hge, Option.map_some, Option.some.injEq, true_iff]
        rintro s rfl
        omega
  · rw [if_neg h4]
    simp only [h4, false_and, iff_false]
    by_cases h6 : h.action = 6
    · rw [if_pos h6]
      cases findItem records h.key with
      | none => simp
      | some r => dsimp only; split <;> simp
    · rw [if_neg h6]
      simp

theorem dispatch_eq_ack {records : FlowTable} {h : Header} :
    dispatch records h = .ack ↔
      h.action = 6 ∧ storedSeq records h.key = some h.sequenceNum := by
  unfold dispatch storedSeq
  by_cases h4 : h.action = 4
  · have h6 : h.action ≠ 6 := by rw [h4]; decide
    rw [if_pos h4]
    simp only [h6, false_and, iff_false]
    cases findItem records h.key with
    | none => simp
    | some r => dsimp only; split <;> simp
  · rw [if_neg h4]
    by_cases h6 : h.action = 6
    · rw [if_pos h6, and_iff_right h6]
      cases findItem records h.key with
      | none => simp
      | some r => by_cases heq : r.sequenceNumber = h.sequenceNum <;> simp [heq]
    · rw [if_neg h6]
      exact iff_of_false (by simp) fun h' => h6 h'.1

/-- Only an ACK can run into the null dereference. -/
theorem dispatch_eq_nullDeref {records : FlowTable} {h : Header}
    (hd : dispatch records h = .nullDeref) : h.action = 6 := by
  unfold dispatch at hd
  by_cases h4 : h.action = 4
  · rw [if_pos h4] at hd
    cases hr : findItem records h.key with
    | none => rw [hr] at hd; cases hd
    | some r => rw [hr] at hd; dsimp only at hd; split at hd <;> cases hd
  · rw [if_neg h4] at hd
    by_contra h6
    rw [if_neg h6] at hd
    cases hd

/-! ### Events -/

/-- What the threads of an agent do, as far as the properties speak of it.
    Every event names the flow key and the sequence number it is about. -/
inductive Event where
  | sendNetlink (msg : String) (k : FlowKey) (s : BitVec 32)
  | addItem (k : FlowKey) (s : BitVec 32)
  | startWorker (k : FlowKey) (s : BitVec 32)
  | setAck (k : FlowKey) (s : BitVec 32)
  | enterLoop (k : FlowKey) (s : BitVec 32)
  | testAck (k : FlowKey) (s : BitVec 32) (updateAck : Bool)
  | leaveAcked (k : FlowKey) (s : BitVec 32) (sent : Option Packet)
  | leaveTimeout (k : FlowKey) (s : BitVec 32)
deriving DecidableEq, Repr

def synEvents (k : FlowKey) (s : BitVec 32) : List Event :=
  [.startWorker k s, .addItem k s, .sendNetlink "SYN" k s]

def ackEvents (k : FlowKey) (s : BitVec 32) : List Event :=
  [.sendNetlink "ACK" k s, .setAck k s]

/-! ### Whole iterations -/

/-- The main thread between two iterations; the history has the latest event
    first. -/
structure MainState where
  records : FlowTable
  alive : Bool
  log : List Event

def MainState.init : MainState := ⟨FlowTable.empty, true, []⟩

/-- One iteration of the main loop.  After the null dereference the process is
    gone. -/
def mainIteration (st : MainState) (d : Datagram) : MainState :=
  if st.alive then
    let h := d.header
    match dispatch st.records h with
    | .syn => { st with
        records := addItem st.records h.key h.sequenceNum
        log := synEvents h.key h.sequenceNum ++ st.log }
    | .ack => { st with log := ackEvents h.key h.sequenceNum ++ st.log }
    | .nullDeref => { st with alive := false }
    | .outOfDate | .outOfOrder | .other => st
  else st

def mainLoop (st : MainState) (ds : List Datagram) : MainState := ds.foldl mainIteration st

theorem mainLoop_append (st : MainState) (ds es : List Datagram) :
    mainLoop st (ds ++ es) = mainLoop (mainLoop st ds) es := by
  simp [mainLoop, List.foldl_append]

theorem mainIteration_cases (st : MainState) (d : Datagram) :
    (mainIteration st d).records = st.records ∧ (mainIteration st d).log = st.log ∨
    (∃ k s, (∀ s', storedSeq st.records k = some s' → s'.toInt < s.toInt) ∧
      mainIteration st d =
        { st with records := addItem st.records k s, log := synEvents k s ++ st.log }) ∨
    (∃ k s, storedSeq st.records k = some s ∧
      mainIteration st d = { st with log := ackEvents k s ++ st.log }) := by
  by_cases halive : st.alive
  · cases hb : dispatch st.records d.header with
    | syn =>
      refine Or.inr (Or.inl ⟨d.header.key, d.header.sequenceNum, (dispatch_eq_syn.mp hb).2, ?_⟩)
      simp [mainIteration, halive, hb]
    | ack =>
      refine Or.inr (Or.inr ⟨d.header.key, d.header.sequenceNum, (dispatch_eq_ack.mp hb).2, ?_⟩)
      simp [mainIteration, halive, hb]
    | outOfDate => exact Or.inl (by simp [mainIteration, halive, hb])
    | outOfOrder => exact Or.inl (by simp [mainIteration, halive, hb])
    | nullDeref => exact Or.inl (by simp [mainIteration, halive, hb])
    | other => exact Or.inl (by simp [mainIteration, halive, hb])
  · exact Or.inl (by simp [mainIteration, halive])

/-! ### Sequence gating -/

/-- `s` is the largest sequence number of the SYNs accepted for `k`. -/
def IsLargest (k : FlowKey) (s : BitVec 32) (log : List Event) : Prop :=
  .addItem k s ∈ log ∧ ∀ s', .addItem k s' ∈ log → s'.toInt ≤ s.toInt

theorem IsLargest.cons_of_ne {k : FlowKey} {s : BitVec 32} {log : List Event} {e : Event}
    (he : ∀ s', e ≠ .addItem k s') : IsLargest k s (e :: log) ↔ IsLargest k s log := by
  have hmem : ∀ s', .addItem k s' ∈ e :: log ↔ .addItem k s' ∈ log := by
    intro s'
    simp [(he s').symm]
  simp only [IsLargest, hmem]

/-- Accepting a SYN that is newer than everything accepted for its key makes it
    the largest one, and changes nothing for the other keys. -/
theorem isLargest_synEvents {k k' : FlowKey} {s s' : BitVec 32} {log : List Event}
    (hnew : ∀ s', .addItem k s' ∈ log → s'.toInt < s.toInt) :
    IsLargest k' s' (synEvents k s ++ log) ↔
      if k = k' then s = s' else IsLargest k' s' log := by
  rw [synEvents, List.cons_append, IsLargest.cons_of_ne (by simp), List.cons_append]
  split
  · rename_i hk
    subst hk
    have hbelow : ∀ t, .addItem k t ∈ .addItem k s :: .sendNetlink "SYN" k s :: log →
        t = s ∨ t.toInt < s.toInt := by
      intro t ht
      simp only [List.mem_cons, Event.addItem.injEq, true_and, reduceCtorEq, false_or] at ht
      exact ht.imp id (hnew t)
    constructor
    · rintro ⟨hmem, hmax⟩
      rcases hbelow s' hmem with rfl | hlt
      · rfl
      · exact absurd (hmax s (by simp)) (by omega)
    · rintro rfl
      refine ⟨by simp, fun t ht => ?_⟩
      rcases hbelow t ht with rfl | hlt
      · exact le_refl _
      · exact hlt.le
  · rename_i hk
    rw [IsLargest.cons_of_ne (by simp [hk]), List.cons_append, List.nil_append,
      IsLargest.cons_of_ne (by simp)]

/-- The table and the history of the main loop agree. -/
structure Gated (st : MainState) : Prop where
  /-- The table stores the largest accepted number, for every key. -/
  stored : ∀ k s, storedSeq st.records k = some s ↔ IsLargest k s st.log
  /-- Every accepted SYN leads to one record update, one worker, one "SYN". -/
  workers : ∀ k s, st.log.count (.startWorker k s) = st.log.count (.addItem k s)
  syns : ∀ k s, st.log.count (.sendNetlink "SYN" k s) = st.log.count (.addItem k s)
  once : ∀ k s, st.log.count (.addItem k s) ≤ 1
  /-- An "ACK" was for the largest number at its time. -/
  acks : ∀ k s pre post, st.log = post ++ .sendNetlink "ACK" k s :: pre →
    IsLargest k s pre ∧ .sendNetlink "SYN" k s ∈ pre

theorem Gated.init : Gated MainState.init where
  stored := by intro k s; simp [MainState.init, IsLargest]
  workers := by intro k s; rfl
  syns := by intro k s; rfl
  once := by intro k s; simp [MainState.init]
  acks := by intro k s pre post h; simp [MainState.init] at h

theorem Gated.below {st : MainState} (hG : Gated st) {k : FlowKey} {s : BitVec 32}
    (hnew : ∀ s', storedSeq st.records k = some s' → s'.toInt < s.toInt) :
    ∀ s', .addItem k s' ∈ st.log → s'.toInt < s.toInt := by
  intro s' hmem
  obtain ⟨m, hm⟩ : ∃ m, storedSeq st.records k = some m := by
    -- the accepted numbers of a key have a largest one
    have hfin : {t | .addItem k t ∈ st.log}.Finite :=
      (List.finite_toSet st.log).preimage fun t _ u _ h => (Event.addItem.inj h).2
    obtain ⟨m, hm, hmax⟩ := hfin.exists_maximalFor BitVec.toInt _ ⟨s', hmem⟩
    refine ⟨m, (hG.stored k m).mpr ⟨hm, fun t ht => ?_⟩⟩
    rcases le_total t.toInt m.toInt with h | h
    · exact h
    · exact hmax ht h
  have := ((hG.stored k m).mp hm).2 s' hmem
  have := hnew m hm
  omega

/-- An "ACK" in a history that starts with other events is one of the rest. -/
theorem split_of_not_mem {e : Event} {pre post log : List Event} (es : List Event) (hne : e ∉ es)
    (h : es ++ log = post ++ e :: pre) : ∃ post', log = post' ++ e :: pre := by
  rcases List.append_eq_append_iff.mp h with ⟨as, hpost, hlog⟩ | ⟨bs, hes, hbs⟩
  · exact ⟨as, hlog⟩
  · cases bs with
    | nil => exact ⟨[], hbs.symm⟩
    | cons b bs =>
      obtain ⟨rfl, -⟩ := List.cons.inj hbs
      exact absurd (hes ▸ List.mem_append_right _ (by simp)) hne

theorem Gated.syn {st : MainState} (hG : Gated st) {k : FlowKey} {s : BitVec 32}
    (hnew : ∀ s', storedSeq st.records k = some s' → s'.toInt < s.toInt) :
    Gated { st with records := addItem st.records k s, log := synEvents k s ++ st.log } where
  stored := by
    intro k' s'
    rw [storedSeq_addItem, isLargest_synEvents (hG.below hnew)]
    split
    · exact Option.some_inj
    · exact hG.stored k' s'
  workers := by
    intro k' s'
    have := hG.workers k' s'
    simp only [synEvents, List.cons_append, List.nil_append, List.count_cons]
    simp [this]
  syns := by
    intro k' s'
    have := hG.syns k' s'
    simp only [synEvents, List.cons_append, List.nil_append, List.count_cons]
    simp [this]
  once := by
    intro k' s'
    simp only [synEvents, List.cons_append, List.nil_append, List.count_cons]
    by_cases heq : k = k' ∧ s = s'
    · obtain ⟨rfl, rfl⟩ := heq
      have hnot : .addItem k s ∉ st.log := fun hmem => (hG.below hnew s hmem).false
      simp [List.count_eq_zero_of_not_mem hnot]
    · have := hG.once k' s'
      simp [heq, this]
  acks := by
    intro k' s' pre post h
    obtain ⟨post', hlog⟩ := split_of_not_mem _ (by simp [synEvents]) h
    exact hG.acks k' s' pre post' hlog

theorem Gated.ack {st : MainState} (hG : Gated st) {k : FlowKey} {s : BitVec 32}
    (hs : storedSeq st.records k = some s) :
    Gated { st with log := ackEvents k s ++ st.log } where
  stored := by
    intro k' s'
    simp only [ackEvents, List.cons_append, List.nil_append]
    rw [IsLargest.cons_of_ne (by simp), IsLargest.cons_of_ne (by simp)]
    exact hG.stored k' s'
  workers := by
    intro k' s'
    simpa [ackEvents, List.count_cons] using hG.workers k' s'
  syns := by
    intro k' s'
    simpa [ackEvents, List.count_cons] using hG.syns k' s'
  once := by
    intro k' s'
    simpa [ackEvents, List.count_cons] using hG.once k' s'
  acks := by
    intro k' s' pre post h
    cases post with
    | nil =>
      -- the "ACK" of this iteration: the record holds its number
      simp only [ackEvents, List.cons_append, List.nil_append, List.cons.injEq,
        Event.sendNetlink.injEq, true_and] at h
      obtain ⟨⟨rfl, rfl⟩, rfl⟩ := h
      have hl := (hG.stored k s).mp hs
      have hsyn : 0 < st.log.count (.sendNetlink "SYN" k s) := by
        rw [hG.syns]
        exact List.count_pos_iff.mpr hl.1
      exact ⟨(IsLargest.cons_of_ne (by simp)).mpr hl,
        List.mem_cons_of_mem _ (List.count_pos_iff.mp hsyn)⟩
    | cons e post =>
      simp only [ackEvents, List.cons_append, List.nil_append, List.cons.injEq] at h
      obtain ⟨post', hlog⟩ := split_of_not_mem [.setAck k s] (by simp) h.2
      exact hG.acks k' s' pre post' hlog

/-- One iteration keeps table and history in agreement. -/
theorem Gated.mainIteration {st : MainState} (hG : Gated st) (d : Datagram) :
    Gated (mainIteration st d) := by
  rcases mainIteration_cases st d with ⟨hrec, hlog⟩ | ⟨k, s, hnew, heq⟩ | ⟨k, s, hs, heq⟩
  · exact ⟨by rw [hrec, hlog]; exact hG.stored, by rw [hlog]; exact hG.workers,
      by rw [hlog]; exact hG.syns, by rw [hlog]; exact hG.once, by rw [hlog]; exact hG.acks⟩
  · rw [heq]
    exact hG.syn hnew
  · rw [heq]
    exact hG.ack hs

theorem Gated.mainLoop {st : MainState} (hG : Gated st) (ds : List Datagram) :
    Gated (mainLoop st ds) := by
  induction ds generalizing st with
  | nil => exact hG
  | cons d ds ih => exact ih (hG.mainIteration d)

/-- A record that an iteration changes gets a larger number; none disappears. -/
theorem storedSeq_mainIteration (st : MainState) (d : Datagram) {k : FlowKey} {s : BitVec 32}
    (hs : storedSeq st.records k = some s) :
    ∃ s', storedSeq (mainIteration st d).records k = some s' ∧ (s' = s ∨ s.toInt < s'.toInt) := by
  rcases mainIteration_cases st d with ⟨hrec, -⟩ | ⟨k', s', hnew, heq⟩ | ⟨k', s', -, heq⟩
  · exact ⟨s, by rw [hrec, hs], Or.inl rfl⟩
  · simp only [heq, storedSeq_addItem]
    by_cases hk : k' = k
    · subst hk
      exact ⟨s', if_pos rfl, Or.inr (hnew s hs)⟩
    · exact ⟨s, by rw [if_neg hk, hs], Or.inl rfl⟩
  · exact ⟨s, by rw [heq, hs], Or.inl rfl⟩

/-- **Sequence gating.**  After any sequence of datagrams: the record of a key
    holds the largest accepted number and only ever grows; every update gets at
    most one worker and at most one "SYN"; no key has two records; and "ACK"
    goes to the kernel only for the largest number accepted so far, after the
    "SYN" of that update. -/
theorem mainLoop_gated (ds : List Datagram) :
    let st := mainLoop MainState.init ds
    (∀ k s, storedSeq st.records k = some s ↔ IsLargest k s st.log) ∧
    (∀ d k s, storedSeq st.records k = some s →
      ∃ s', storedSeq (mainIteration st d).records k = some s' ∧
        (s' = s ∨ s.toInt < s'.toInt)) ∧
    (∀ k s, st.log.count (.startWorker k s) ≤ 1 ∧
      st.log.count (.sendNetlink "SYN" k s) ≤ 1) ∧
    ((bag st.records.head).map Flow.key).Nodup ∧
    (∀ k s pre post, st.log = post ++ .sendNetlink "ACK" k s :: pre →
      IsLargest k s pre ∧ .sendNetlink "SYN" k s ∈ pre) := by
  intro st
  have hG : Gated st := Gated.init.mainLoop ds
  refine ⟨hG.stored, fun d k s => storedSeq_mainIteration st d, fun k s => ⟨?_, ?_⟩,
    st.records.unique, hG.acks⟩
  · rw [hG.workers]
    exact hG.once k s
  · rw [hG.syns]
    exact hG.once k s

end MiddleboxSession
