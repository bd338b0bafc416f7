/-
  MiddleboxSession/Routing.lean
  =============================
  **Source routing of one update.**

  A SYN carries the addresses of the hops still to visit; every hop strips its
  own and forwards the rest, and the hop that is left alone answers.  For one
  update over a network that loses nothing, `RouteInv` holds under every
  schedule: the SYNs sent so far are an initial part of `route`, the SYNs for
  the hops in their order, each with exactly the rest of the list; as long as
  one is missing, the next hop has its SYN in flight or a worker about to
  forward it; and nobody answers before all hops have started.
-/
import MiddleboxSession.Handshake

namespace MiddleboxSession

open CBuffer Runs

variable {sc : Scenario}

/-! ### The SYNs of a run -/

def Packet.isSyn (p : Packet) : Bool := p.payload.take 4 = wordBytes 4

/-- Where SYNs were sent so far, and with which bytes, in their order. -/
def synsSent (s : System sc) : List (SockAddr × List Byte) :=
  (s.sent.reverse.filter Packet.isSyn).map fun p => (p.dst, p.payload)

/-- The SYNs of an update over the given hops: one for each hop, with the list
    from this hop on. -/
def route (k : FlowKey) (seq : BitVec 32) : List Addr → List (SockAddr × List Byte)
  | [] => []
  | a :: rest => (mainSock a, synBytes k seq (a :: rest)) :: route k seq rest

@[simp] theorem length_route (k : FlowKey) (seq : BitVec 32) (hops : List Addr) :
    (route k seq hops).length = hops.length := by
  induction hops with
  | nil => rfl
  | cons a rest ih => rw [route, List.length_cons, List.length_cons, ih]

theorem getElem?_route (k : FlowKey) (seq : BitVec 32) {hops : List Addr} {i : Nat} {a : Addr}
    (h : hops[i]? = some a) :
    (route k seq hops)[i]? = some (mainSock a, synBytes k seq (hops.drop i)) := by
  induction hops generalizing i with
  | nil => cases h
  | cons b rest ih =>
    cases i with
    | zero =>
      cases h
      rfl
    | succ i =>
      rw [List.getElem?_cons_succ] at h
      rw [route, List.getElem?_cons_succ, ih h, List.drop_succ_cons]

theorem mem_take_route {k : FlowKey} {seq : BitVec 32} {hops : List Addr} {m : Nat}
    {x : SockAddr × List Byte} (h : x ∈ (route k seq hops).take m) :
    ∃ i a, i < m ∧ hops[i]? = some a ∧ x.1 = mainSock a := by
  obtain ⟨i, hi, rfl⟩ := List.mem_iff_getElem.mp h
  rw [List.length_take, length_route] at hi
  have him : i < hops.length := by omega
  refine ⟨i, hops[i], by omega, List.getElem?_eq_getElem him, ?_⟩
  have hr := getElem?_route k seq (List.getElem?_eq_getElem him)
  obtain ⟨hlt, hget⟩ := List.getElem?_eq_some_iff.mp hr
  rw [List.getElem_take, hget]

theorem isSyn_synBytes (src dst : SockAddr) (k : FlowKey) (seq : BitVec 32) (hops : List Addr) :
    Packet.isSyn ⟨src, dst, synBytes k seq hops⟩ = true := by
  simp [Packet.isSyn, synBytes, Header.bytes, wordBytes]

theorem isSyn_synAckBytes (src dst : SockAddr) (k : FlowKey) (seq : BitVec 32) :
    Packet.isSyn ⟨src, dst, synAckBytes k seq⟩ = false := by
  simp [Packet.isSyn, synAckBytes, Header.bytes, wordBytes]

theorem isSyn_ackBytes (src dst : SockAddr) (seq : BitVec 32) :
    Packet.isSyn ⟨src, dst, ackBytes seq⟩ = false := by
  simp [Packet.isSyn, ackBytes, Header.bytes, wordBytes]

theorem ackBytes_ne_synAckBytes (q : BitVec 32) (k : FlowKey) (seq : BitVec 32) :
    ackBytes q ≠ synAckBytes k seq := by
  intro h
  have := congrArg (List.take 4) h
  simp [ackBytes, synAckBytes, Header.bytes, wordBytes] at this

theorem Genuine.isSyn {s : System sc} {p : Packet} (h : Genuine s p) (old : Nat → Byte)
    (hact : (recvfrom p old).header.action = 4) : p.isSyn = true := by
  cases h with
  | syn => exact isSyn_synBytes ..
  | synAck u m src dst hdst hall hans =>
    have hh := recvfrom_header (p := ⟨src, dst, synAckBytes (sc.update u).key (sc.update u).seq⟩)
      old rfl (by simp)
    rw [hh, Header.action_mk'] at hact
    exact absurd hact (by decide)
  | ack u a src hall hans =>
    have hh := recvfrom_header (p := ⟨src, mainSock a, ackBytes (sc.update u).seq⟩)
      old rfl (by simp)
    rw [hh, Header.action_mk'] at hact
    exact absurd hact (by decide)

theorem synsSent_of_not_isSyn {s s' : System sc} {ps : List Packet} (h : s'.sent = ps ++ s.sent)
    (hps : ∀ p ∈ ps, p.isSyn = false) : synsSent s' = synsSent s := by
  have hnone : ps.reverse.filter Packet.isSyn = [] := by
    rw [List.filter_eq_nil_iff]
    intro p hp
    rw [hps p (List.mem_reverse.mp hp)]
    decide
  rw [synsSent, h, List.reverse_append, List.filter_append, hnone, List.append_nil, synsSent]

theorem synsSent_of_isSyn {s s' : System sc} {p : Packet} (h : s'.sent = p :: s.sent)
    (hp : p.isSyn = true) : synsSent s' = synsSent s ++ [(p.dst, p.payload)] := by
  rw [synsSent, h, List.reverse_cons, List.filter_append, List.map_append, List.filter_cons,
    if_pos hp]
  rfl

/-! ### Where the update has got to -/

section Views

variable (s : System sc) (u : Fin sc.n) (a : Addr)

/-- The SYN has not been accepted at `a`, and it will be. -/
def Waiting : Prop :=
  (s.agents a).workers = [] ∧
    ∀ q, storedSeq (s.agents a).records (sc.update u).key = some q →
      q.toInt < (sc.update u).seq.toInt

/-- The SYN has been accepted at `a`, and its worker has not started. -/
def AtStart : Prop :=
  (∃ w, (s.agents a).workers = [w] ∧ w.pc = .start) ∧
    storedSeq (s.agents a).records (sc.update u).key = some (sc.update u).seq

/-- The worker of `a` has started: it has forwarded the SYN or is answering. -/
def Routed : Prop :=
  (∃ w, (s.agents a).workers = [w] ∧ w.pc ≠ .start) ∧
    storedSeq (s.agents a).records (sc.update u).key = some (sc.update u).seq

def SynInFlight (i : Nat) : Prop :=
  Among s.net (mainSock a)
    (synBytes (sc.update u).key (sc.update u).seq ((sc.update u).hops.drop i))

/-- Hop `i`, which is `a`, when `m` SYNs have been sent. -/
def Phase (m i : Nat) : Prop :=
  (m ≤ i ∧ Waiting s u a) ∨
    (i + 1 = m ∧ (Waiting s u a ∧ SynInFlight s u a i ∨ AtStart s u a)) ∨
    (i < m ∧ (i + 1 = m → m = (sc.update u).hops.length) ∧ Routed s u a)

end Views

/-- The state of the update after `m` SYNs. -/
structure RouteInv (s : System sc) (u : Fin sc.n) (m : Nat) : Prop where
  le : m ≤ (sc.update u).hops.length
  idle : m = 0 ↔ s.notifiers u = .idle
  sent : synsSent s = (route (sc.update u).key (sc.update u).seq (sc.update u).hops).take m
  phase : ∀ i a, (sc.update u).hops[i]? = some a → Phase s u a m i
  answered : Answered s u → ∀ a ∈ (sc.update u).hops, Routed s u a
  alive : (∀ a, (s.agents a).alive = true) ∨ Answered s u

/-- No datagram is lost and no agent ends. -/
def Lossless (_ : System sc) : SysAct sc.n → Prop
  | .lose _ | .mainExit _ => False
  | _ => True

theorem Waiting.dispatch {s : System sc} {u : Fin sc.n} {a : Addr} (h : Waiting s u a)
    {d : Datagram} (hd : d.header = Header.mk' 4 (sc.update u).seq (sc.update u).key) :
    dispatch (s.agents a).records d.header = .syn := by
  rw [dispatch_eq_syn, hd]
  exact ⟨rfl, h.2⟩

/-- A record with the number of the update keeps its SYN out. -/
theorem not_syn_of_stored {s : System sc} {u : Fin sc.n} {a : Addr}
    (h : storedSeq (s.agents a).records (sc.update u).key = some (sc.update u).seq)
    {d : Datagram} (hd : d.header = Header.mk' 4 (sc.update u).seq (sc.update u).key) :
    dispatch (s.agents a).records d.header ≠ .syn := by
  rw [Ne, dispatch_eq_syn, hd]
  rintro ⟨-, hlt⟩
  exact lt_irrefl _ (hlt _ h)

theorem RouteInv.init {s : System sc} (h : s.Idle) {u : Fin sc.n}
    (hnew : ∀ a ∈ (sc.update u).hops, ∀ q,
      storedSeq (s.agents a).records (sc.update u).key = some q →
        q.toInt < (sc.update u).seq.toInt) : RouteInv s u 0 where
  le := Nat.zero_le _
  idle := ⟨fun _ => h.notifiers u, fun _ => rfl⟩
  sent := by rw [synsSent, h.sent]; rfl
  phase := fun i a ha => Or.inl ⟨Nat.zero_le _, (h.agents a).workers,
    hnew a (List.mem_of_getElem? ha)⟩
  answered := by
    rintro ⟨p, hp, -⟩
    rw [h.sent] at hp
    cases hp
  alive := Or.inl fun a => (h.agents a).alive

/-! ### Steps -/

section Steps

variable {s s₁ : System sc} {u : Fin sc.n} {m : Nat} {c : Addr} {act : SysAct sc.n} {act' : Act}
  {a' : Agent} {ps : List Packet}

theorem Waiting.congr {s' : System sc} {a : Addr} (h : s'.agents a = s.agents a)
    (hw : Waiting s u a) : Waiting s' u a := by
  unfold Waiting
  rw [h]
  exact hw

theorem AtStart.congr {s' : System sc} {a : Addr} (h : s'.agents a = s.agents a)
    (hw : AtStart s u a) : AtStart s' u a := by
  unfold AtStart
  rw [h]
  exact hw

theorem Routed.congr {s' : System sc} {a : Addr} (h : s'.agents a = s.agents a)
    (hw : Routed s u a) : Routed s' u a := by
  unfold Routed
  rw [h]
  exact hw

theorem Routed.not_waiting {a : Addr} (h : Routed s u a) : ¬ Waiting s u a := by
  obtain ⟨⟨w, hw, -⟩, -⟩ := h
  rintro ⟨hnone, -⟩
  rw [hnone] at hw
  cases hw

theorem Routed.not_atStart {a : Addr} (h : Routed s u a) : ¬ AtStart s u a := by
  obtain ⟨⟨w, hw, hpc⟩, -⟩ := h
  rintro ⟨⟨v, hv, hstart⟩, -⟩
  rw [hw, List.cons.injEq] at hv
  exact hpc (hv.1 ▸ hstart)

/-- Only the hop at the front can change its phase; `a` is another one. -/
theorem Phase.of_ne {s' : System sc} {a : Addr} {i j : Nat}
    (hi : (sc.update u).hops[i]? = some c) (him : i + 1 = m)
    (ha : (sc.update u).hops[j]? = some a) (hac : a ≠ c) (hsame : s'.agents a = s.agents a)
    (h : Phase s u a m j) : Phase s' u a m j := by
  rcases h with ⟨hm, hw⟩ | ⟨hj, -⟩ | ⟨hlt, hlast, hr⟩
  · exact Or.inl ⟨hm, hw.congr hsame⟩
  · have hij : i = j := by omega
    subst hij
    exact absurd (Option.some.inj (ha.symm.trans hi)) hac
  · exact Or.inr (Or.inr ⟨hlt, hlast, hr.congr hsame⟩)

theorem Phase.put (hs : NetInv s) (hfeeds : s.Feeds c act act' s₁)
    (hwait : Waiting s u c → Waiting (s₁.put c a' ps) u c)
    (hstart : AtStart s u c → AtStart (s₁.put c a' ps) u c)
    (hrouted : Routed s u c → Routed (s₁.put c a' ps) u c)
    (hnot : ∀ d, act' = .mainRecv d → dispatch (s.agents c).records d.header ≠ .syn)
    {a : Addr} {i : Nat} (h : Phase s u a m i) : Phase (s₁.put c a' ps) u a m i := by
  have hview : (Waiting s u a → Waiting (s₁.put c a' ps) u a) ∧
      (AtStart s u a → AtStart (s₁.put c a' ps) u a) ∧
      (Routed s u a → Routed (s₁.put c a' ps) u a) := by
    by_cases hac : a = c
    · subst hac
      exact ⟨hwait, hstart, hrouted⟩
    · have hsame : (s₁.put c a' ps).agents a = s.agents a := hfeeds.agents_put hac a' ps
      exact ⟨.congr hsame, .congr hsame, .congr hsame⟩
  rcases h with ⟨hm, hw⟩ | ⟨hi, ⟨hw, hnet⟩ | hst⟩ | ⟨hlt, hlast, hr⟩
  · exact Or.inl ⟨hm, hview.1 hw⟩
  · refine Or.inr (Or.inl ⟨hi, Or.inl ⟨hview.1 hw, ?_⟩⟩)
    have hlen := hs.among_length hnet
    rcases hs.among_feeds hfeeds hnet with hnet | ⟨rfl, p, old, hact, hpay⟩
    · exact hnet.mono (List.subset_append_right _ _)
    · -- the SYN itself is not passed over
      refine absurd (hw.dispatch ?_) (hnot _ hact)
      exact recvfrom_header old hpay (hpay ▸ hlen)
  · exact Or.inr (Or.inl ⟨hi, Or.inr (hview.2.1 hst)⟩)
  · exact Or.inr (Or.inr ⟨hlt, hlast, hview.2.2 hr⟩)

theorem RouteInv.put (h : RouteInv s u m) (hfeeds : s.Feeds c act act' s₁)
    (hphase : ∀ i a, (sc.update u).hops[i]? = some a → Phase (s₁.put c a' ps) u a m i)
    (hps : ∀ p ∈ ps, p.isSyn = false)
    (hrouted : Routed s u c → Routed (s₁.put c a' ps) u c)
    (hans : Answered (s₁.put c a' ps) u → Answered s u ∨
      ∀ a ∈ (sc.update u).hops, Routed s u a)
    (halive : a'.alive = true ∨ Answered s u) : RouteInv (s₁.put c a' ps) u m := by
  have hsent : (s₁.put c a' ps).sent = ps ++ s.sent := hfeeds.sent_put a' ps
  have hother : ∀ a, a ≠ c → (s₁.put c a' ps).agents a = s.agents a := by
    intro a ha
    exact hfeeds.agents_put ha a' ps
  have hkeep : Answered s u → Answered (s₁.put c a' ps) u := by
    rintro ⟨p, hp, h⟩
    exact ⟨p, hsent ▸ List.mem_append_right _ hp, h⟩
  refine ⟨h.le, ?_, ?_, hphase, fun ha => ?_, ?_⟩
  · rw [System.notifiers_put, hfeeds.notifiers]
    exact h.idle
  · rw [synsSent_of_not_isSyn hsent hps]
    exact h.sent
  · have hall : ∀ a ∈ (sc.update u).hops, Routed s u a := (hans ha).elim h.answered id
    intro a hmem
    by_cases hac : a = c
    · subst hac
      exact hrouted (hall a hmem)
    · exact (hall a hmem).congr (hother a hac)
  · rcases halive with halive | halive
    · rcases h.alive with hall | hall
      · refine Or.inl fun a => ?_
        by_cases hac : a = c
        · subst hac
          rw [System.agents_put_self]
          exact halive
        · rw [hother a hac]
          exact hall a
      · exact Or.inr (hkeep hall)
    · exact Or.inr (hkeep halive)

theorem Answered.put (hfeeds : s.Feeds c act act' s₁) (h : Answered (s₁.put c a' ps) u) :
    Answered s u ∨ ∃ p ∈ ps, p.src = mainSock (sc.update u).last ∧
      p.payload = synAckBytes (sc.update u).key (sc.update u).seq := by
  obtain ⟨p, hp, h⟩ := h
  rw [hfeeds.sent_put] at hp
  rcases List.mem_append.mp hp with hp | hp
  · exact Or.inr ⟨p, hp, h⟩
  · exact Or.inl ⟨p, hp, h⟩

theorem Answered.put_nil (hfeeds : s.Feeds c act act' s₁) (h : Answered (s₁.put c a' []) u) :
    Answered s u := by
  rcases h.put hfeeds with h | ⟨p, hp, -⟩
  · exact h
  · cases hp

theorem RouteInv.same (hs : NetInv s) (h : RouteInv s u m) (hfeeds : s.Feeds c act act' s₁)
    (hworkers : a'.workers = (s.agents c).workers) (hrec : a'.records = (s.agents c).records)
    (hnot : ∀ d, act' = .mainRecv d → dispatch (s.agents c).records d.header ≠ .syn)
    (halive : a'.alive = true ∨ Answered s u) : RouteInv (s₁.put c a' []) u m := by
  have hrouted : Routed s u c → Routed (s₁.put c a' []) u c := by
    unfold Routed
    rw [System.agents_put_self, hworkers, hrec]
    exact id
  have hwaiting : Waiting s u c → Waiting (s₁.put c a' []) u c := by
    unfold Waiting
    rw [System.agents_put_self, hworkers, hrec]
    exact id
  have hatStart : AtStart s u c → AtStart (s₁.put c a' []) u c := by
    unfold AtStart
    rw [System.agents_put_self, hworkers, hrec]
    exact id
  apply h.put hfeeds ?_ (by simp) hrouted (fun hans => Or.inl (hans.put_nil hfeeds)) halive
  intro i a ha
  exact Phase.put hs hfeeds hwaiting hatStart hrouted hnot (h.phase i a ha)

/-- The hop that accepts a SYN is the one whose SYN was sent last. -/
theorem RouteInv.acceptSyn (hone : ∀ u v : Fin sc.n, u = v) (hs : NetInv s)
    (h : RouteInv s u m) {p : Packet} {old : Nat → Byte} (hp : p ∈ s.net)
    (hdst : p.dst = mainSock c)
    (hd : dispatch (s.agents c).records (recvfrom p old).header = .syn) :
    ∃ i, (sc.update u).hops[i]? = some c ∧ i + 1 = m ∧ Waiting s u c ∧
      (recvfrom p old).header = Header.mk' 4 (sc.update u).seq (sc.update u).key := by
  obtain ⟨v, i, hsyn⟩ := hs.acceptSyn hp hdst (dispatch_eq_syn.mp hd).1
  have hvu : v = u := hone v u
  subst hvu
  refine ⟨i, hsyn.hop, ?_⟩
  have hstored := fun hst => not_syn_of_stored (s := s) (a := c) hst hsyn.header hd
  rcases h.phase i c hsyn.hop with ⟨hm, hw⟩ | ⟨hi, ⟨hw, -⟩ | hst⟩ | ⟨-, -, hr⟩
  · -- its SYN would be one that has not been sent
    exfalso
    have hsent : (p.dst, p.payload) ∈ synsSent s := by
      have hsynp : p.isSyn = true :=
        (hs.sent p (hs.net hp)).isSyn old (dispatch_eq_syn.mp hd).1
      exact List.mem_map.mpr ⟨p, List.mem_filter.mpr
        ⟨List.mem_reverse.mpr (hs.net hp), hsynp⟩, rfl⟩
    rw [h.sent] at hsent
    obtain ⟨j, a, hj, ha, hxa⟩ := mem_take_route hsent
    rw [hdst, mainSock, mainSock, SockAddr.mk.injEq] at hxa
    rw [← hxa.1] at ha
    have := (sc.update v).index_unique hsyn.hop ha
    omega
  · exact ⟨hi, hw, hsyn.header⟩
  · exact absurd hst.2 hstored
  · exact absurd hr.2 hstored

theorem RouteInv.syn (hone : ∀ u v : Fin sc.n, u = v) (hs : NetInv s) (h : RouteInv s u m)
    {d : Datagram} (hfeeds : s.Feeds c act (.mainRecv d) s₁)
    (halive : (s.agents c).alive = true)
    (hd : dispatch (s.agents c).records d.header = .syn)
    (ha' : a' = { s.agents c with
      records := addItem (s.agents c).records d.header.key d.header.sequenceNum
      workers := (s.agents c).workers ++ [{ request := d, port := none, pc := .start }]
      log := synEvents d.header.key d.header.sequenceNum ++ (s.agents c).log }) :
    RouteInv (s₁.put c a' []) u m := by
  cases hfeeds with
  | mainRecv p old hp hdst =>
    obtain ⟨i, hi, him, hw, hh⟩ := h.acceptSyn hone hs hp hdst hd
    have hfeeds : s.Feeds c (.mainRecv c p old) (.mainRecv (recvfrom p old)) (s.take p) :=
      .mainRecv p old hp hdst
    apply h.put hfeeds ?_ (by simp) (fun hr => absurd hw hr.not_waiting)
      (fun hans => Or.inl (hans.put_nil hfeeds)) (Or.inl (by rw [ha']; exact halive))
    intro j a ha
    by_cases hac : a = c
    · subst hac
      have hji : j = i := (sc.update u).index_unique ha hi
      subst hji
      refine Or.inr (Or.inl ⟨him, Or.inr ⟨⟨⟨recvfrom p old, none, .start⟩, ?_, rfl⟩, ?_⟩⟩)
      · rw [System.agents_put_self, ha', hw.1]
        rfl
      · rw [System.agents_put_self, ha']
        dsimp only
        rw [storedSeq_addItem, hh]
        exact if_pos rfl
    · exact (h.phase j a ha).of_ne hi him ha hac (hfeeds.agents_put hac a' [])

/-- The worker of the last hop enters its loop. -/
theorem RouteInv.back (h : RouteInv s u m) (hfeeds : s.Feeds c act act' s₁) {i : Nat}
    (hi : (sc.update u).hops[i]? = some c) (him : i + 1 = m)
    (hlast : m = (sc.update u).hops.length) (halive : a'.alive = true)
    (hrouted : Routed (s₁.put c a' []) u c) : RouteInv (s₁.put c a' []) u m := by
  apply h.put hfeeds ?_ (by simp) (fun _ => hrouted) (fun hans => Or.inl (hans.put_nil hfeeds))
    (Or.inl halive)
  intro j a ha
  by_cases hac : a = c
  · subst hac
    have hji : j = i := (sc.update u).index_unique ha hi
    subst hji
    exact Or.inr (Or.inr ⟨by omega, fun _ => hlast, hrouted⟩)
  · exact (h.phase j a ha).of_ne hi him ha hac (hfeeds.agents_put hac a' [])

theorem views_apply {i : Nat} {w : Worker} {e : Effect} (hw : (s.agents c).workers[i]? = some w)
    {v : Worker} (hv : (s.agents c).workers = [v]) (hpc : e.worker.pc ≠ .start)
    (hstored : storedSeq (s.agents c).records (sc.update u).key = some (sc.update u).seq) :
    v = w ∧ Routed (s₁.put c ((s.agents c).apply i e) e.packets) u c := by
  rw [hv] at hw
  have hi : i = 0 := by
    obtain ⟨hlt, -⟩ := List.getElem?_eq_some_iff.mp hw
    simpa using hlt
  subst hi
  refine ⟨by simpa using hw, ⟨e.worker, ?_, hpc⟩, ?_⟩
  · rw [System.agents_put_self, Agent.apply, hv]
    rfl
  · rw [System.agents_put_self]
    exact hstored

theorem RouteInv.forward (h : RouteInv s u m) (hfeeds : s.Feeds c act act' s₁) {i : Nat}
    (hi : (sc.update u).hops[i]? = some c) (him : i + 1 = m) (halive : a'.alive = true)
    {b : Addr} {rest : List Addr} (hrest : (sc.update u).hops.drop m = b :: rest)
    {p : Packet} (hdst : p.dst = mainSock b)
    (hpay : p.payload = synBytes (sc.update u).key (sc.update u).seq (b :: rest))
    (hstart : AtStart s u c)
    (hrouted : Routed (s₁.put c a' [p]) u c) : RouteInv (s₁.put c a' [p]) u (m + 1) := by
  have hsyn : p.isSyn = true := by
    obtain ⟨src, dst, payload⟩ := p
    dsimp only at hpay
    subst hpay
    exact isSyn_synBytes ..
  have hb : (sc.update u).hops[m]? = some b := getElem?_of_drop hrest
  have hlt : m < (sc.update u).hops.length := (List.getElem?_eq_some_iff.mp hb).1
  have hsent : (s₁.put c a' [p]).sent = p :: s.sent := hfeeds.sent_put a' [p]
  have hother : ∀ a, a ≠ c → (s₁.put c a' [p]).agents a = s.agents a := by
    intro a ha
    exact hfeeds.agents_put ha a' [p]
  have hnot : ¬ Answered s u := by
    intro hans
    exact (h.answered hans c (List.mem_of_getElem? hi)).not_atStart hstart
  refine ⟨hlt, ?_, ?_, fun j a ha => ?_, ?_, ?_⟩
  · rw [System.notifiers_put, hfeeds.notifiers, ← h.idle]
    omega
  · rw [synsSent_of_isSyn hsent hsyn, h.sent, List.take_add_one, getElem?_route _ _ hb, hdst, hpay,
      hrest]
    rfl
  · by_cases hac : a = c
    · subst hac
      have hji : j = i := (sc.update u).index_unique ha hi
      subst hji
      exact Or.inr (Or.inr ⟨by omega, fun hlast => by omega, hrouted⟩)
    · have hsame := hother a hac
      have hji : j ≠ i := by
        rintro rfl
        exact hac (Option.some.inj (ha.symm.trans hi))
      rcases h.phase j a ha with ⟨hm, hw⟩ | ⟨hj, -⟩ | ⟨hlt', -, hr⟩
      · by_cases hjm : j = m
        · -- the next hop: its SYN is in flight now
          subst hjm
          have hab : a = b := Option.some.inj (ha.symm.trans hb)
          subst hab
          refine Or.inr (Or.inl ⟨rfl, Or.inl ⟨hw.congr hsame, p, ?_, hdst, ?_⟩⟩)
          · rw [System.net_put]
            exact List.mem_append_left _ (List.mem_singleton_self p)
          · rw [hpay, hrest]
        · exact Or.inl ⟨by omega, hw.congr hsame⟩
      · omega
      · exact Or.inr (Or.inr ⟨by omega, fun hlast => by omega, hr.congr hsame⟩)
  · intro hans
    rcases hans.put hfeeds with hans | ⟨q, hq, -, hqpay⟩
    · exact absurd hans hnot
    · rw [List.mem_singleton] at hq
      subst hq
      have := isSyn_synAckBytes q.src q.dst (sc.update u).key (sc.update u).seq
      rw [← hqpay, hsyn] at this
      cases this
  · refine Or.inl fun a => ?_
    have hall := h.alive.resolve_right hnot
    by_cases hac : a = c
    · subst hac
      rw [System.agents_put_self]
      exact halive
    · rw [hother a hac]
      exact hall a

/-- A worker that sends a SYN-ACK passes on an answer, or is that of the last hop. -/
theorem WorkerMove.newAnswer {i j : Nat} {w : Worker} {e : Effect}
    (hm : WorkerMove c (s.agents c) i w act' e) (hok : WorkerOK s c w u j) {q : Packet}
    (hq : q ∈ e.packets) (hpay : q.payload = synAckBytes (sc.update u).key (sc.update u).seq) :
    Answered s u ∨ (sc.update u).hops.drop (j + 1) = [] := by
  have hpc' := hok.pc
  cases hm with
  | relay next recv hpc hflag =>
    rw [hpc] at hpc'
    exact Or.inl hpc'.2.2.2
  | fwdAcked next recv sent hpc hflag hsent =>
    rw [hpc] at hpc'
    exact Or.inl hpc'.2.2.2
  | backSend response count hpc | timeout response count hpc =>
    rw [hpc] at hpc'
    exact Or.inr hpc'.1
  | forward port next mesg hpc hh hport =>
    -- what it sends first is a SYN
    rcases hok.handleUpdate with ⟨hnil, -⟩ | ⟨b, rest, -, hfwd⟩
    · exact Or.inr hnil
    · rw [hfwd, Handled.forward.injEq] at hh
      rw [List.mem_singleton] at hq
      have hsyn : q.isSyn = true := by
        rw [hq, ← hh.2]
        exact isSyn_synBytes ..
      have hnot := isSyn_synAckBytes q.src q.dst (sc.update u).key (sc.update u).seq
      rw [← hpay, hsyn] at hnot
      cases hnot
  | _ => cases hq

/-- When the worker of the last hop runs, all hops are past their SYN. -/
theorem RouteInv.all_routed (h : RouteInv s u m) {j : Nat}
    (hj : (sc.update u).hops[j]? = some c) (hlen : (sc.update u).hops.length ≤ j + 1)
    (hr : Routed s u c) : ∀ a ∈ (sc.update u).hops, Routed s u a := by
  have hjlt : j < (sc.update u).hops.length := (List.getElem?_eq_some_iff.mp hj).1
  have hle := h.le
  have hjm : j < m := by
    rcases h.phase j c hj with ⟨-, hw⟩ | ⟨hjm, -⟩ | ⟨hjm, -⟩
    · exact absurd hw hr.not_waiting
    · omega
    · exact hjm
  intro a ha
  obtain ⟨k, hk⟩ := List.mem_iff_getElem?.mp ha
  have hklt : k < (sc.update u).hops.length := (List.getElem?_eq_some_iff.mp hk).1
  rcases h.phase k a hk with ⟨hm, -⟩ | ⟨hkm, hfront⟩ | ⟨-, -, hr'⟩
  · omega
  · have hkj : k = j := by omega
    subst hkj
    rw [Option.some.inj (hk.symm.trans hj)] at hfront
    rcases hfront with ⟨hw, -⟩ | hst
    · exact absurd hw hr.not_waiting
    · exact absurd hst hr.not_atStart
  · exact hr'

/-- A worker that has started sends no SYN. -/
theorem WorkerMove.packets_not_syn {i j : Nat} {w : Worker} {e : Effect}
    (hm : WorkerMove c (s.agents c) i w act' e) (hok : WorkerOK s c w u j) (hrun : w.pc ≠ .start) :
    ∀ p ∈ e.packets, p.isSyn = false := by
  have hpcok := hok.pc
  cases hm with
  | relay next recv hpc hflag =>
    rw [hpc] at hpcok
    intro p hp
    rw [hpcok.2.1.sendto, packetOf, Option.map_some, Option.toList_some, List.mem_singleton] at hp
    rw [hp]
    exact isSyn_synAckBytes ..
  | fwdAcked next recv sent hpc hflag hsent =>
    intro p hp
    rw [List.mem_singleton] at hp
    rw [hp, hsent]
    exact isSyn_ackBytes ..
  | backSend response count hpc | timeout response count hpc =>
    rw [hpc] at hpcok
    intro p hp
    rw [List.mem_singleton] at hp
    rw [hp, hpcok.2.1]
    exact isSyn_synAckBytes ..
  | forward _ _ _ hpc => exact absurd hpc hrun
  | _ => simp

theorem RouteInv.run (hs : NetInv s) (h : RouteInv s u m) (hfeeds : s.Feeds c act act' s₁)
    (halive : (s.agents c).alive = true) {i j : Nat} {w : Worker} {e : Effect}
    (hm : WorkerMove c (s.agents c) i w act' e) (hok : WorkerOK s c w u j) (hrun : w.pc ≠ .start)
    (hbefore : Routed s u c)
    (hrouted : Routed (s₁.put c ((s.agents c).apply i e) e.packets) u c) :
    RouteInv (s₁.put c ((s.agents c).apply i e) e.packets) u m := by
  have hnotsyn : ∀ d, act' = .mainRecv d → dispatch (s.agents c).records d.header ≠ .syn := by
    rintro d rfl
    cases hm
  apply h.put hfeeds ?_ (hm.packets_not_syn hok hrun) (fun _ => hrouted) ?_ (Or.inl halive)
  · intro k a ha
    exact Phase.put hs hfeeds (fun hw => absurd hw hbefore.not_waiting)
      (fun hst => absurd hst hbefore.not_atStart) (fun _ => hrouted) hnotsyn (h.phase k a ha)
  · intro hans
    rcases hans.put hfeeds with hans | ⟨q, hq, -, hpay⟩
    · exact Or.inl hans
    · rcases hm.newAnswer hok hq hpay with hans | hnil
      · exact Or.inl hans
      · exact Or.inr (h.all_routed hok.hop (List.drop_eq_nil_iff.mp hnil) hbefore)

theorem RouteInv.worker (hone : ∀ u v : Fin sc.n, u = v) (hs : NetInv s) (h : RouteInv s u m)
    (hfeeds : s.Feeds c act act' s₁) (halive : (s.agents c).alive = true) {i : Nat} {w : Worker}
    {e : Effect} (hw : (s.agents c).workers[i]? = some w)
    (hm : WorkerMove c (s.agents c) i w act' e) :
    ∃ m', RouteInv (s₁.put c ((s.agents c).apply i e) e.packets) u m' := by
  have hwmem := List.mem_of_getElem? hw
  obtain ⟨v, j, hok⟩ := hs.workers c w hwmem
  have hvu : v = u := hone v u
  subst hvu
  have hnotWaiting : ¬ Waiting s v c := by
    rintro ⟨hnone, -⟩
    rw [hnone] at hwmem
    cases hwmem
  rcases h.phase j c hok.hop with ⟨-, hwait⟩ | ⟨hjm, ⟨hwait, -⟩ | hat⟩ | ⟨-, -, hbefore⟩
  · exact absurd hwait hnotWaiting
  · exact absurd hwait hnotWaiting
  · -- the worker of the front hop starts
    obtain ⟨⟨w₀, hws, hstart⟩, hst⟩ := id hat
    obtain ⟨rfl, hrouted⟩ : w₀ = w ∧
        Routed (s₁.put c ((s.agents c).apply i e) e.packets) v c :=
      views_apply hw hws hm.pc_ne_start hst
    rcases hok.handleUpdate with ⟨hnil, hback⟩ | ⟨b, rest, hrest, hfwd⟩
    · obtain ⟨-, rfl⟩ := hm.of_back hstart hback
      have hlast : m = (sc.update v).hops.length := by
        have hle := List.drop_eq_nil_iff.mp hnil
        have hlt := (List.getElem?_eq_some_iff.mp hok.hop).1
        omega
      exact ⟨m, h.back hfeeds hok.hop hjm hlast halive hrouted⟩
    · obtain ⟨port, -, rfl⟩ := hm.of_forward hstart hfwd
      rw [hjm] at hrest
      refine ⟨m + 1, h.forward hfeeds hok.hop hjm ?_ hrest ?_ ?_ hat hrouted⟩
      · exact halive
      · rfl
      · rfl
  · obtain ⟨⟨w₀, hws, hrun⟩, hst⟩ := id hbefore
    obtain ⟨rfl, hrouted⟩ : w₀ = w ∧
        Routed (s₁.put c ((s.agents c).apply i e) e.packets) v c :=
      views_apply hw hws hm.pc_ne_start hst
    exact ⟨m, h.run hs hfeeds halive hm hok hrun hbefore hrouted⟩

theorem RouteInv.agent (hone : ∀ u v : Fin sc.n, u = v) (hs : NetInv s) (h : RouteInv s u m)
    (hgood : Lossless s act) (hfeeds : s.Feeds c act act' s₁) (halive : (s.agents c).alive = true)
    (hstep : Agent.Step c (s.agents c) act' a' ps) : ∃ m', RouteInv (s₁.put c a' ps) u m' := by
  cases hstep with
  | syn d hmain hd => exact ⟨m, h.syn hone hs hfeeds halive hd rfl⟩
  | ack d hmain hd =>
    refine ⟨m, h.same hs hfeeds rfl rfl (fun d' hd' => ?_) (Or.inl halive)⟩
    cases hd'
    rw [hd]
    intro hsyn
    cases hsyn
  | nullDeref d hmain hd =>
    cases hfeeds with
    | mainRecv p old hp hdst =>
      -- an ACK is about: the last hop has answered
      obtain ⟨-, v, hans⟩ := hs.acceptAck hp (dispatch_eq_nullDeref hd)
      rw [hone v u] at hans
      refine ⟨m, h.same hs (.mainRecv p old hp hdst) rfl rfl (fun d' hd' => ?_) (Or.inr hans)⟩
      cases hd'
      rw [hd]
      intro hsyn
      cases hsyn
  | skip d hmain hd =>
    refine ⟨m, h.same hs hfeeds rfl rfl (fun d' hd' hsyn => ?_) (Or.inl halive)⟩
    cases hd'
    rw [hsyn] at hd
    simp at hd
  | exit hmain =>
    cases hfeeds with
    | mainExit => exact hgood.elim
  | lockAck | setAck | unlockAck | netlinkAck =>
    exact ⟨m, h.same hs hfeeds rfl rfl (fun d' hd' => by cases hd') (Or.inl halive)⟩
  | undefined i w port hw hpc hh => exact absurd hh (hs.defined c w (List.mem_of_getElem? hw))
  | worker i w _ e hw hm => exact h.worker hone hs hfeeds halive hw hm

theorem RouteInv.of_agents {s' : System sc} (h : RouteInv s u m) (hagents : s'.agents = s.agents)
    (hidle : s'.notifiers u = .idle ↔ s.notifiers u = .idle) {ps : List Packet}
    (hsent : s'.sent = ps ++ s.sent)
    (hps : ∀ p ∈ ps, p.isSyn = false ∧
      p.payload ≠ synAckBytes (sc.update u).key (sc.update u).seq)
    (hnet : ∀ a payload, Among s.net (mainSock a) payload → Among s'.net (mainSock a) payload) :
    RouteInv s' u m := by
  have hsame : ∀ a, s'.agents a = s.agents a := fun a => congrFun hagents a
  refine ⟨h.le, h.idle.trans hidle.symm, ?_, fun i a ha => ?_, ?_, ?_⟩
  · rw [synsSent_of_not_isSyn hsent fun p hp => (hps p hp).1, h.sent]
  · rcases h.phase i a ha with ⟨hm, hw⟩ | ⟨hi, ⟨hw, hsyn⟩ | hst⟩ | ⟨hlt, hlast, hr⟩
    · exact Or.inl ⟨hm, hw.congr (hsame a)⟩
    · exact Or.inr (Or.inl ⟨hi, Or.inl ⟨hw.congr (hsame a), hnet a _ hsyn⟩⟩)
    · exact Or.inr (Or.inl ⟨hi, Or.inr (hst.congr (hsame a))⟩)
    · exact Or.inr (Or.inr ⟨hlt, hlast, hr.congr (hsame a)⟩)
  · rintro ⟨p, hp, hsrc, hpay⟩ a ha
    rw [hsent] at hp
    rcases List.mem_append.mp hp with hp | hp
    · exact absurd hpay (hps p hp).2
    · exact (h.answered ⟨p, hp, hsrc, hpay⟩ a ha).congr (hsame a)
  · rcases h.alive with hall | ⟨p, hp, hans⟩
    · left
      rw [hagents]
      exact hall
    · exact Or.inr ⟨p, hsent ▸ List.mem_append_right _ hp, hans⟩

theorem RouteInv.notify (h : RouteInv s u m) (hpc : s.notifiers u = .idle) :
    RouteInv ((s.setNotifier u .waiting).send [⟨sc.sock u, mainSock (sc.update u).first,
      synBytes (sc.update u).key (sc.update u).seq (sc.update u).hops⟩]) u 1 := by
  have hm : m = 0 := h.idle.mpr hpc
  subst hm
  obtain ⟨a₀, rest, hhops⟩ := List.exists_cons_of_ne_nil (sc.update u).nonempty
  have hfirst : (sc.update u).first = a₀ := by simp [Update.first, hhops]
  have hwaiting : ∀ (i : Nat) (a : Addr), (sc.update u).hops[i]? = some a → Waiting s u a := by
    intro i a ha
    rcases h.phase i a ha with ⟨-, hw⟩ | ⟨hi, -⟩ | ⟨hlt, -⟩
    · exact hw
    · omega
    · omega
  have hnot : ¬ Answered s u := by
    intro hans
    obtain ⟨⟨w, hw, -⟩, -⟩ := h.answered hans a₀ (by rw [hhops]; exact List.mem_cons_self)
    rw [(hwaiting 0 a₀ (by rw [hhops]; rfl)).1] at hw
    cases hw
  refine ⟨?_, ?_, ?_, fun i a ha => ?_, ?_, Or.inl (h.alive.resolve_right hnot)⟩
  · rw [hhops, List.length_cons]
    omega
  · simp [System.send, System.setNotifier]
  · rw [synsSent_of_isSyn (s := s) rfl (isSyn_synBytes ..), h.sent, hfirst, hhops]
    rfl
  · have hw := hwaiting i a ha
    by_cases hi : i = 0
    · subst hi
      refine Or.inr (Or.inl ⟨rfl, Or.inl ⟨hw, ⟨_, List.mem_cons_self, ?_, rfl⟩⟩⟩)
      rw [hhops] at ha
      rw [hfirst, Option.some.inj ha]
    · exact Or.inl ⟨by omega, hw⟩
  · rintro ⟨p, hp, hsrc, hpay⟩
    rcases List.mem_cons.mp hp with rfl | hp
    · exact absurd (congrArg SockAddr.port hsrc) (sc.sock_port u)
    · exact absurd ⟨p, hp, hsrc, hpay⟩ hnot

/-- **Every step without a loss keeps the invariant.** -/
theorem RouteInv.step {s' : System sc} (hone : ∀ u v : Fin sc.n, u = v) (hs : NetInv s)
    (h : RouteInv s u m) (hgood : Lossless s act) (hstep : System.Step s act s') :
    ∃ m', RouteInv s' u m' := by
  cases hstep with
  | notify v hpc =>
    rw [hone v u] at hpc ⊢
    exact ⟨1, h.notify hpc⟩
  | notifyRecv v p old hpc hp hdst =>
    rw [hone v u] at hpc hdst ⊢
    obtain ⟨hack, -⟩ := hs.notifyRecv old hp hdst
    have hsent : notifyAck (sc.update u).seq (recvfrom p old) =
        some (ackBytes (sc.update u).seq) := by
      rw [notifyAck, if_pos (by rw [hack.header]; exact ⟨rfl, rfl⟩), ackMesg_eq]
    refine ⟨m, h.of_agents rfl ?_ rfl (fun q hq => ?_) fun a payload hsyn => ?_⟩
    · simp [System.send, System.setNotifier, hpc]
    · rw [hsent, packetOf, Option.map_some, Option.toList_some, List.mem_singleton] at hq
      rw [hq]
      exact ⟨isSyn_ackBytes .., ackBytes_ne_synAckBytes _ _ _⟩
    · refine (hsyn.erase fun hmain => ?_).mono (List.subset_append_right _ _)
      exact sc.sock_port u (by rw [← hdst, hmain.1]; rfl)
  | agent b _ act' s₁ a' ps hfeeds halive hstep => exact h.agent hone hs hgood hfeeds halive hstep
  | lose p hp => exact hgood.elim
  | duplicate p hp =>
    exact ⟨m, h.of_agents rfl Iff.rfl (List.nil_append _).symm (by simp)
      fun a payload hsyn => hsyn.mono (List.subset_cons_self _ _)⟩

end Steps

end MiddleboxSession
