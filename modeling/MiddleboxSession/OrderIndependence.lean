/-
  MiddleboxSession/OrderIndependence.lean
  =======================================
  **The order of SYNs does not matter.**

  The gate and `addItem` together make the record of a flow a maximum.  A record
  stands above another one if its sequence number is larger, or if the numbers
  are equal and it has the larger `acked` (`standing`); a SYN joins a record with
  its number and `acked = 0`.  So the main loop of MiddleboxAgent is a machine
  of joins, and two agents that have received the same SYNs have the same
  records, in whatever orders and how often the SYNs arrived.
-/
import Mathlib.Data.Prod.Lex
import Mathlib.Order.WithBot
import MiddleboxSession.Joins
import MiddleboxSession.MainLoop

namespace MiddleboxSession

open CBuffer Joins

/-! ### Where a record stands -/

/-- Where a flow stands in a table; ⊥ is no record. -/
def standing (records : FlowTable) (k : FlowKey) : WithBot (ℤ ×ₗ ℕ) :=
  match findItem records k with
  | some r => ((toLex (r.sequenceNumber.toInt, r.acked.toNat) : ℤ ×ₗ ℕ) : WithBot (ℤ ×ₗ ℕ))
  | none => ⊥

/-- What a SYN joins to the standing of the flows. -/
def synStanding (h : Header) (k : FlowKey) : WithBot (ℤ ×ₗ ℕ) :=
  if h.key = k then ((toLex (h.sequenceNum.toInt, 0) : ℤ ×ₗ ℕ) : WithBot (ℤ ×ₗ ℕ)) else ⊥

theorem standing_some {records : FlowTable} {k : FlowKey} {r : Flow}
    (h : findItem records k = some r) :
    standing records k =
      ((toLex (r.sequenceNumber.toInt, r.acked.toNat) : ℤ ×ₗ ℕ) : WithBot (ℤ ×ₗ ℕ)) := by
  rw [standing, h]

theorem standing_none {records : FlowTable} {k : FlowKey} (h : findItem records k = none) :
    standing records k = ⊥ := by
  rw [standing, h]

/-- A flow with the same standing in two tables has the same record. -/
theorem findItem_eq_of_standing_eq {records records' : FlowTable} {k : FlowKey}
    (h : standing records k = standing records' k) : findItem records k = findItem records' k := by
  cases hr : findItem records k with
  | none =>
    cases hr' : findItem records' k with
    | none => rfl
    | some r' =>
      rw [standing_none hr, standing_some hr'] at h
      exact absurd h WithBot.bot_ne_coe
  | some r =>
    cases hr' : findItem records' k with
    | none =>
      rw [standing_some hr, standing_none hr'] at h
      exact absurd h WithBot.coe_ne_bot
    | some r' =>
      rw [standing_some hr, standing_some hr', WithBot.coe_inj, toLex_inj, Prod.mk.injEq] at h
      have hkey : r.key = r'.key := (findItem_key hr).trans (findItem_key hr').symm
      have hseq : r.sequenceNumber = r'.sequenceNumber := BitVec.toInt_inj.mp h.1
      have hacked : r.acked = r'.acked := BitVec.toNat_inj.mp h.2
      cases r
      cases r'
      simp only at hkey hseq hacked
      rw [hkey, hseq, hacked]

/-! ### One SYN -/

/-- The gate compares the SYN with the standing of its flow. -/
theorem dispatch_eq_ite (records : FlowTable) {h : Header} (haction : h.action = 4) :
    dispatch records h =
      if synStanding h h.key ≤ standing records h.key then .outOfDate else .syn := by
  rw [synStanding, if_pos rfl]
  cases hr : findItem records h.key with
  | none =>
    have hbot := WithBot.not_coe_le_bot (toLex (h.sequenceNum.toInt, 0) : ℤ ×ₗ ℕ)
    rw [standing_none hr, if_neg hbot]
    simp only [dispatch, if_pos haction, hr]
  | some r =>
    have hle : (toLex (h.sequenceNum.toInt, 0) : ℤ ×ₗ ℕ) ≤
        toLex (r.sequenceNumber.toInt, r.acked.toNat) ↔
        r.sequenceNumber.toInt ≥ h.sequenceNum.toInt := by
      rw [Prod.Lex.toLex_le_toLex]
      simp only [Nat.zero_le, and_true]
      exact le_iff_lt_or_eq.symm
    simp only [dispatch, if_pos haction, hr, standing_some hr, WithBot.coe_le_coe, hle]

theorem standing_addItem (records : FlowTable) (h : Header) (k : FlowKey) :
    standing (addItem records h.key h.sequenceNum) k =
      if h.key = k then synStanding h k else standing records k := by
  by_cases hk : h.key = k
  · subst hk
    rw [if_pos rfl, synStanding, if_pos rfl, standing, findItem_addItem, if_pos rfl]
    rfl
  · rw [if_neg hk, standing, findItem_addItem, if_neg hk, standing]

/-- A SYN joins its own standing to those of the flows. -/
theorem standing_mainIteration {st : MainState} {d : Datagram} (halive : st.alive = true)
    (haction : d.header.action = 4) :
    standing (mainIteration st d).records = standing st.records ⊔ synStanding d.header := by
  funext k
  have hother : d.header.key ≠ k → synStanding d.header k = ⊥ := fun hk => if_neg hk
  have hgate := dispatch_eq_ite st.records haction
  rw [Pi.sup_apply]
  by_cases hle : synStanding d.header d.header.key ≤ standing st.records d.header.key
  · rw [if_pos hle] at hgate
    have hrecords : (mainIteration st d).records = st.records := by
      simp only [mainIteration, halive, hgate, if_true]
    rw [hrecords]
    by_cases hk : d.header.key = k
    · rw [← hk, sup_eq_left.mpr hle]
    · rw [hother hk, sup_bot_eq]
  · rw [if_neg hle] at hgate
    have hrecords : (mainIteration st d).records =
        addItem st.records d.header.key d.header.sequenceNum := by
      simp only [mainIteration, halive, hgate, if_true]
    rw [hrecords, standing_addItem]
    by_cases hk : d.header.key = k
    · rw [if_pos hk, ← hk, sup_eq_right.mpr (le_of_not_ge hle)]
    · rw [if_neg hk, hother hk, sup_bot_eq]

theorem alive_mainIteration {st : MainState} {d : Datagram} (halive : st.alive = true)
    (haction : d.header.action = 4) : (mainIteration st d).alive = true := by
  have hgate := dispatch_eq_ite st.records haction
  split at hgate <;> simp only [mainIteration, halive, hgate, if_true]

/-! ### Sequences of SYNs -/

/-- The main loop as a machine of joins. -/
theorem joining_mainIteration :
    Joining mainIteration (fun st => st.alive = true) (fun d => d.header.action = 4)
      (fun st => standing st.records) (fun d => synStanding d.header) where
  keeps := fun _ _ => alive_mainIteration
  join := fun _ _ => standing_mainIteration

/-- **The order of SYNs does not matter.**  Two sequences with the same SYNs, in
    any orders and with any repetitions, lead from one flow table to the same
    records; and an agent that has processed one sequence takes every SYN of the
    other for out of date: it changes no record, starts no worker and sends no
    command. -/
theorem mainLoop_order_independent {st : MainState} (halive : st.alive = true)
    {ds es : List Datagram} (hds : ∀ d ∈ ds, d.header.action = 4)
    (hes : ∀ e ∈ es, e.header.action = 4)
    (hsame : ∀ k s, (∃ d ∈ ds, d.header.key = k ∧ d.header.sequenceNum = s) ↔
      ∃ e ∈ es, e.header.key = k ∧ e.header.sequenceNum = s) :
    (∀ k, findItem (mainLoop st ds).records k = findItem (mainLoop st es).records k) ∧
    (∀ e ∈ es, dispatch (mainLoop st ds).records e.header = .outOfDate) ∧
    mainLoop (mainLoop st ds) es = mainLoop st ds := by
  have hJ := joining_mainIteration
  have hvalue : ∀ xs ys : List Datagram,
      (∀ k s, (∃ d ∈ xs, d.header.key = k ∧ d.header.sequenceNum = s) →
        ∃ e ∈ ys, e.header.key = k ∧ e.header.sequenceNum = s) →
      ∀ d ∈ xs, ∃ e ∈ ys, synStanding e.header = synStanding d.header := by
    intro xs ys hsub d hd
    obtain ⟨e, he, hkey, hseq⟩ := hsub _ _ ⟨d, hd, rfl, rfl⟩
    refine ⟨e, he, ?_⟩
    funext k
    rw [synStanding, synStanding, hkey, hseq]
  have hview : standing (mainLoop st ds).records = standing (mainLoop st es).records := by
    refine hJ.foldl_congr halive hds hes fun l => ⟨?_, ?_⟩
    · rintro ⟨d, hd, rfl⟩
      exact hvalue ds es (fun k s => (hsame k s).mp) d hd
    · rintro ⟨e, he, rfl⟩
      exact hvalue es ds (fun k s => (hsame k s).mpr) e he
  have hold : ∀ e ∈ es, dispatch (mainLoop st ds).records e.header = .outOfDate := by
    intro e he
    have hle : synStanding e.header ≤ standing (mainLoop st es).records :=
      hJ.le_foldl halive hes he
    rw [dispatch_eq_ite _ (hes e he), hview, if_pos (hle _)]
  have hdone : (mainLoop st ds).alive = true := hJ.foldl_keeps halive hds
  refine ⟨fun k => findItem_eq_of_standing_eq (congrFun hview k), hold, ?_⟩
  apply foldl_eq_self
  intro e he
  simp only [mainIteration, hdone, hold e he, if_true]

/-- The SYN number `s` of one flow. -/
def flowSyn (s : BitVec 32) : Datagram :=
  recvfrom ⟨⟨inetAton 10 0 0 1, 5000⟩, ⟨inetAton 10 0 0 2, UDP_PORT⟩,
    synBytes ⟨inetAton 10 0 0 1, inetAton 10 0 0 5, 1, 1⟩ s [inetAton 10 0 0 2]⟩ 0

theorem action_flowSyn (s : BitVec 32) : (flowSyn s).header.action = 4 := by
  have hcarries := recvfrom_carries (p := ⟨⟨inetAton 10 0 0 1, 5000⟩, ⟨inetAton 10 0 0 2, UDP_PORT⟩,
    synBytes ⟨inetAton 10 0 0 1, inetAton 10 0 0 5, 1, 1⟩ s [inetAton 10 0 0 2]⟩) 0 (by simp)
  rw [flowSyn, hcarries.header, Header.action_mk']

/-- Numbers 7 and -1 in order, and reordered with repetitions. -/
theorem mainLoop_order_independent_flow :
    let ds := [-1, 7].map flowSyn
    let es := [7, -1, 7, -1].map flowSyn
    (∀ k, findItem (mainLoop MainState.init ds).records k =
      findItem (mainLoop MainState.init es).records k) ∧
    mainLoop (mainLoop MainState.init ds) es = mainLoop MainState.init ds := by
  intro ds es
  have hsyn : ∀ ss : List (BitVec 32), ∀ d ∈ ss.map flowSyn, d.header.action = 4 := by
    intro ss d hd
    obtain ⟨s, -, rfl⟩ := List.mem_map.mp hd
    exact action_flowSyn s
  have hmem : ∀ d, d ∈ ds ↔ d ∈ es := by
    intro d
    simp only [ds, es, List.map_cons, List.map_nil, List.mem_cons, List.not_mem_nil, or_false]
    tauto
  have halive : MainState.init.alive = true := rfl
  obtain ⟨hrecords, -, hdone⟩ := mainLoop_order_independent halive
    (hsyn [-1, 7]) (hsyn [7, -1, 7, -1]) fun k s => exists_congr fun d => and_congr_left fun _ => hmem d
  exact ⟨hrecords, hdone⟩

end MiddleboxSession
