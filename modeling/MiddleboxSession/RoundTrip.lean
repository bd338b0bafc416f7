/-
  MiddleboxSession/RoundTrip.lean
  ===============================
  **The way of one update down the chain and back.**

  With one update and without a loss, `RouteInv` holds under every schedule: the
  SYN follows the route (`RoutedSoFar`).  Such a run can always go on to rest,
  and there the SYN has reached every hop: the next hop of an unfinished route
  would have a SYN to receive or a worker to start.

  From clear flags the answer has come back as well.  As long as the initiator
  waits, no hop has heard of an ACK, so no process has dereferenced NULL, every
  worker relays, and what the last hop has sent is with the initiator.  A flag
  that is left over from an earlier update lets the last hop return before it
  has sent its first SYN-ACK (`answer_missing`).
-/
import MiddleboxSession.Completion
import MiddleboxSession.Routing

namespace MiddleboxSession

open CBuffer Runs

variable {sc : Scenario} {u : Fin sc.n}

/-! ### The state of the route -/

/-- How far the SYN of update `u` has got after `m` SYNs: these are the first `m`
    of its route, the next one will be sent; every worker has the SYN of its
    hop and does what belongs to it; and the initiator gets the answer of the
    last hop, when all SYNs have been sent. -/
structure RoutedSoFar (s : System sc) (u : Fin sc.n) (m : Nat) : Prop where
  order : synsSent s = (route (sc.update u).key (sc.update u).seq (sc.update u).hops).take m
  front : m = 0 ∧ s.notifiers u = .idle ∨ m = (sc.update u).hops.length ∨
    ∃ i a, i + 1 = m ∧ (sc.update u).hops[i]? = some a ∧ (s.agents a).alive = true ∧
      (SynInFlight s u a i ∨ AtStart s u a)
  roles : ∀ a, ∀ w ∈ (s.agents a).workers, ∃ i, (sc.update u).hops[i]? = some a ∧
    w.request.buf.Holds 0
      (synBytes (sc.update u).key (sc.update u).seq ((sc.update u).hops.drop i)) ∧
    (i + 1 = (sc.update u).hops.length ∧ handleUpdate w.request.buf w.request.n =
        .back (synAckBytes (sc.update u).key (sc.update u).seq) ∨
      ∃ b, (sc.update u).hops[i + 1]? = some b ∧ handleUpdate w.request.buf w.request.n =
        .forward b
          (synBytes (sc.update u).key (sc.update u).seq ((sc.update u).hops.drop (i + 1))))
  answer : ∀ d, s.notifiers u = .received d → m = (sc.update u).hops.length ∧
    d.n = 24 ∧ IsSynAck (sc.update u) d ∧ Answered s u

/-- Nobody answers before all SYNs have been sent. -/
theorem RouteInv.all_sent {s : System sc} {m : Nat} (h : RouteInv s u m) (hans : Answered s u) :
    m = (sc.update u).hops.length := by
  by_contra hne
  have hlt : m < (sc.update u).hops.length := Nat.lt_of_le_of_ne h.le hne
  -- the hop behind the front has no worker yet
  obtain ⟨⟨w, hw, -⟩, -⟩ := h.answered hans _ (List.getElem_mem hlt)
  rcases h.phase m _ (List.getElem?_eq_getElem hlt) with ⟨-, hwait⟩ | ⟨hi, -⟩ | ⟨hi, -⟩
  · rw [hwait.1] at hw
    cases hw
  · omega
  · omega

theorem RouteInv.routedSoFar (hone : ∀ u v : Fin sc.n, u = v) {s : System sc} {m : Nat}
    (hs : NetInv s) (h : RouteInv s u m) : RoutedSoFar s u m where
  order := h.sent
  front := by
    by_cases hm : m = 0
    · exact Or.inl ⟨hm, h.idle.mp hm⟩
    by_cases hlen : m = (sc.update u).hops.length
    · exact Or.inr (Or.inl hlen)
    have hle := h.le
    have hi : m - 1 < (sc.update u).hops.length := by omega
    have hnot : ¬ Answered s u := fun hans => hlen (h.all_sent hans)
    refine Or.inr (Or.inr ⟨m - 1, _, by omega, List.getElem?_eq_getElem hi,
      h.alive.resolve_right hnot _, ?_⟩)
    rcases h.phase (m - 1) _ (List.getElem?_eq_getElem hi) with ⟨hge, -⟩ | ⟨-, hfront⟩ |
      ⟨-, hlast, -⟩
    · omega
    · exact hfront.imp And.right id
    · exact absurd (hlast (by omega)) hlen
  roles := by
    intro a w hw
    obtain ⟨v, i, hok⟩ := hs.workers a w hw
    rw [hone v u] at hok
    have hlt := (List.getElem?_eq_some_iff.mp hok.hop).1
    refine ⟨i, hok.hop, hok.request, ?_⟩
    rcases hok.handleUpdate with ⟨hnil, hback⟩ | ⟨b, rest, hrest, hfwd⟩
    · have := List.drop_eq_nil_iff.mp hnil
      exact Or.inl ⟨by omega, hback⟩
    · rw [← hrest] at hfwd
      exact Or.inr ⟨b, getElem?_of_drop hrest, hfwd⟩
  answer := by
    intro d hd
    obtain ⟨hack, -, hans⟩ := hs.notifiers u d hd
    refine ⟨h.all_sent hans, ?_, hack, hans⟩
    obtain ⟨p, old, rfl, hp⟩ := hack
    rw [recvfrom_n old (by simp [hp]), hp]
    rfl

/-! ### While the initiator waits -/

/-- A hop that has not heard of an ACK goes on running. -/
theorem ReplyInv.alive {s s₁ : System sc} (hs : NetInv s) (hinv : ReplyInv s u) {b : Addr}
    (hb : b ∈ (sc.update u).hops) {act : SysAct sc.n} {act' : Act} {a' : Agent}
    {ps : List Packet} (hgood : Lossless s act) (hfeeds : s.Feeds b act act' s₁)
    (halive : (s.agents b).alive = true) (hstep : Agent.Step b (s.agents b) act' a' ps) :
    a'.alive = true := by
  cases hstep with
  | nullDeref d _ hd =>
    cases hfeeds with
    | mainRecv p old hp hdst =>
      obtain ⟨q, hpay⟩ := hs.ack_payload hp (dispatch_eq_nullDeref hd)
      exact absurd ⟨p, hs.net hp, hdst, hpay⟩ (hinv.acks b hb q)
  | exit hmain =>
    cases hfeeds with
    | mainExit => exact hgood.elim
  | undefined i w port hw hpc hh => exact absurd hh (hs.defined b w (List.mem_of_getElem? hw))
  | syn | ack | skip | lockAck | setAck | unlockAck | netlinkAck | worker => exact halive

/-- The update while its initiator waits, in a run without a loss. -/
structure Awaited (s : System sc) (u : Fin sc.n) : Prop where
  reply : ReplyInv s u
  alive : ∀ a ∈ (sc.update u).hops, (s.agents a).alive = true

theorem Awaited.step {s s' : System sc} {act : SysAct sc.n} (hs : NetInv s)
    (hsep : Separate sc u) (h : Awaited s u) (hgood : Lossless s act)
    (hstep : System.Step s act s') (hwait : ∀ d, s'.notifiers u ≠ .received d) :
    Awaited s' u := by
  refine ⟨h.reply.step hs hsep hstep hwait, ?_⟩
  cases hstep with
  | agent b _ act' s₁ a' ps hfeeds halive hstep =>
    intro a ha
    by_cases hab : a = b
    · subst hab
      rw [System.agents_put_self]
      exact h.reply.alive hs ha hgood hfeeds halive hstep
    · rw [hfeeds.agents_put hab]
      exact h.alive a ha
  | notify | notifyRecv | lose | duplicate => exact h.alive

theorem Awaited.reachable {s₀ s : System sc} (h₀ : s₀.Idle) (h : Leads System.step Lossless s₀ s)
    (hsep : Separate sc u) (hflag : ∀ a ∈ (sc.update u).hops, (s₀.agents a).updateAck = false)
    (hwait : ∀ d, s.notifiers u ≠ .received d) : Awaited s u := by
  suffices hall : (∃ d, s.notifiers u = .received d) ∨ Awaited s u from
    hall.resolve_left fun ⟨d, hd⟩ => hwait d hd
  obtain ⟨acts, halong, hrun⟩ := h
  apply halong.invariant (P := fun s => (∃ d, s.notifiers u = .received d) ∨ Awaited s u) hrun
    (Or.inr ⟨ReplyInv.init h₀ hflag, fun a _ => (h₀.agents a).alive⟩)
  intro x act x' hreach hx hgood hstep
  have hstep' := System.step_sound hstep
  by_cases hd : ∃ d, x'.notifiers u = .received d
  · exact Or.inl hd
  · rcases hx with ⟨d, hx⟩ | hx
    · exact Or.inl ⟨d, hstep'.received hx⟩
    · exact Or.inr (hx.step (NetInv.reachable h₀ hreach) hsep hgood hstep' fun d h => hd ⟨d, h⟩)

/-! ### Rest -/

/-- A host with one worker has a port left. -/
theorem exists_port (hone : ∀ u v : Fin sc.n, u = v) (u : Fin sc.n) {s : System sc} {a : Addr}
    (hlen : (s.agents a).workers.length ≤ 1) :
    ∃ port, (s.agents a).freshPort port = true ∧ ∀ v, sc.sock v ≠ ⟨a, port⟩ := by
  let used := (s.agents a).workers.filterMap Worker.port ++ [(sc.sock u).port]
  have hused : used.length ≤ 2 := by
    have hle := List.length_filterMap_le Worker.port (s.agents a).workers
    simp only [used, List.length_append, List.length_singleton]
    omega
  obtain ⟨port, hmem, hnot⟩ : ∃ port ∈ ([0, 1, 2] : List (BitVec 16)), port ∉ used := by
    by_contra hall
    push Not at hall
    have hnodup : ([0, 1, 2] : List (BitVec 16)).Nodup := by decide
    have hle := (hnodup.subperm hall).length_le
    simp only [List.length_cons, List.length_nil] at hle
    omega
  have hmain : port ≠ UDP_PORT := by
    rintro rfl
    exact absurd hmem (by decide)
  refine ⟨port, ?_, fun v hv => ?_⟩
  · rw [Agent.freshPort, decide_eq_true_eq]
    refine ⟨hmain, fun w hw hport => hnot ?_⟩
    exact List.mem_append_left _ (List.mem_filterMap.mpr ⟨w, hw, hport⟩)
  · rw [hone v u] at hv
    exact hnot (List.mem_append_right _ (by simp [hv]))

theorem Phase.workers {s : System sc} {a : Addr} {m i : Nat} (h : Phase s u a m i) :
    (s.agents a).workers.length ≤ 1 := by
  rcases h with ⟨-, hwait⟩ | ⟨-, ⟨hwait, -⟩ | ⟨⟨w, hw, -⟩, -⟩⟩ | ⟨-, -, ⟨w, hw, -⟩, -⟩
  · simp [hwait.1]
  · simp [hwait.1]
  · simp [hw]
  · simp [hw]

/-- At rest all SYNs have been sent. -/
theorem RouteInv.rests (hone : ∀ u v : Fin sc.n, u = v) {s₀ s : System sc} {m : Nat}
    (hs : NetInv s) (hinv : SynInv s₀ s) (h : RouteInv s u m) (hrest : s.AtRest)
    (hfits : (sc.update u).Fits) : m = (sc.update u).hops.length := by
  rcases (h.routedSoFar hone hs).front with ⟨-, hidle⟩ | hlen | ⟨i, a, -, hi, halive, hfront⟩
  · exact absurd hidle (hrest.notified hfits)
  · exact hlen
  · rcases hfront with hnet | ⟨⟨w, hw, hpc⟩, -⟩
    · exact absurd hnet (hrest.no_mail hinv halive _)
    · have hport := exists_port hone u (h.phase i a hi).workers
      exact absurd hpc (hrest.started hs halive hport (hw ▸ List.mem_singleton_self w))

/-! ### Source routing -/

instance (s : System sc) (act : SysAct sc.n) : Decidable (Lossless s act) :=
  match act with
  | .lose _ | .mainExit _ => isFalse id
  | .notify _ | .notifyRecv .. | .mainRecv .. | .mainStep _ | .workerStart .. | .workerRecv ..
  | .workerStep .. | .duplicate _ => isTrue trivial

end MiddleboxSession
