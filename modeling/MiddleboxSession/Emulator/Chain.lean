/-
  MiddleboxSession/Emulator/Chain.lean
  ====================================
  **What the ACK of a client is evidence of.**

  clientUDP waits for one datagram and tests it for a SYN-ACK of its update, but
  the test falls through into the code that it guards: whatever arrives first,
  the first hop is acknowledged.  What the network brings from the first hop is
  evidence that all hops have accepted the SYN and that the last one has
  answered it (`AnswerInv`), so the ACK is right in every run in which no
  foreign datagram comes to the client (`chain_accepted_of_acked`), and only
  such a datagram makes it wrong (`foreign_confirms`).
-/
import MiddleboxSession.Emulator.Acks

namespace MiddleboxSession.Emulator

open CBuffer Runs

variable {sc : Scenario}

/-! ### The answer of the last hop -/

/-- The last hop of update `u` has sent a SYN-ACK of it, to where it had the SYN from. -/
def Answered (s : System sc) (u : Fin sc.n) : Prop :=
  ∃ p ∈ s.sent, ∃ d port, .syn d ∈ (s.servers p.src).log ∧
    IsSyn (sc.update u) ((sc.update u).hops.length - 1) p.src d ∧ p.dst = d.src ∧
    p.payload = synAckBytes (sc.update u).key (sc.update u).seq port

/-- The last hop of every update that `d` may be the SYN of has answered. -/
def Answers (s : System sc) (x : SockAddr) (d : Datagram) : Prop :=
  ∀ u m, IsSyn (sc.update u) m x d → Answered s u

def LoopAnswers (s : System sc) (x : SockAddr) (w : Worker) : Loop → Prop
  | .forward _ _ => Answers s x w.request
  | .back response => ∀ u m, IsSyn (sc.update u) m x w.request →
      ∃ port, response = synAckBytes (sc.update u).key (sc.update u).seq port

def PcAnswers (s : System sc) (x : SockAddr) (w : Worker) : Prop :=
  match w.pc with
  | .start | .ignored | .recv _ | .done => True
  | .send l _ | .poll l _ => LoopAnswers s x w l

/-- What is sent to a socket without a server is a SYN-ACK, and the last hop has
    answered before. -/
def AnswerTo (s : System sc) (p : Packet) : Prop :=
  sc.nextPort p.dst = none →
    ∃ d, .syn d ∈ (s.servers p.src).log ∧ d.src = p.dst ∧ Answers s p.src d

structure AnswerInv (s : System sc) : Prop where
  sent : ∀ p ∈ s.sent, AnswerTo s p
  worker : ∀ x, ∀ w ∈ (s.servers x).workers, PcAnswers s x w

theorem AnswerInv.init : AnswerInv (System.init sc) where
  sent := fun _ hp => absurd hp List.not_mem_nil
  worker := fun _ _ hw => absurd hw List.not_mem_nil

section Monotone

variable {s s' : System sc}

theorem Answered.mono (hx : Extends s s') {u : Fin sc.n} (h : Answered s u) : Answered s' u := by
  obtain ⟨p, hp, d, port, hd, hrest⟩ := h
  exact ⟨p, hx.sent hp, d, port, hx.log p.src hd, hrest⟩

theorem Answers.mono (hx : Extends s s') {x : SockAddr} {d : Datagram} (h : Answers s x d) :
    Answers s' x d :=
  fun u m hsyn => (h u m hsyn).mono hx

theorem LoopAnswers.mono (hx : Extends s s') {x : SockAddr} {w : Worker} {l : Loop}
    (h : LoopAnswers s x w l) : LoopAnswers s' x w l := by
  cases l with
  | forward next recv => exact Answers.mono hx h
  | back response => exact h

theorem PcAnswers.mono (hx : Extends s s') {x : SockAddr} {w : Worker} (h : PcAnswers s x w) :
    PcAnswers s' x w := by
  unfold PcAnswers at h ⊢
  split <;> rename_i heq <;> rw [heq] at h
  all_goals first | trivial | exact LoopAnswers.mono hx h

theorem AnswerTo.mono (hx : Extends s s') {p : Packet} (h : AnswerTo s p) : AnswerTo s' p := by
  intro hdst
  obtain ⟨d, hd, hsrc, hanswers⟩ := h hdst
  exact ⟨d, hx.log p.src hd, hsrc, hanswers.mono hx⟩

theorem AnswerTo.of_served {p : Packet} (h : sc.nextPort p.dst ≠ none) : AnswerTo s p :=
  fun hdst => absurd hdst h

end Monotone

/-! ### Steps of a server -/

section ServerSteps

variable {s : System sc} {x : SockAddr} {port : BitVec 16} {act : Act} {a : Server}
  {ps : List Packet}

theorem IsSyn.last {u : Fin sc.n} {m : Nat} {d : Datagram} (h : IsSyn (sc.update u) m x d)
    (hn : d.n = 28) : IsSyn (sc.update u) ((sc.update u).hops.length - 1) x d := by
  have hlen := h.carries.length
  obtain ⟨hm, -⟩ := List.getElem?_eq_some_iff.mp h.hop
  simp only [hn, Update.syn, length_synBytes, List.length_map, List.length_drop] at hlen
  have hlast : (sc.update u).hops.length - 1 = m := by omega
  rw [hlast]
  exact h

/-- What a worker receives comes from its next hop, whose answer is one to the
    request of the worker. -/
theorem AnswerInv.receives (h : AnswerInv s) (hn : NetInv s) {w : Worker}
    (hw : w ∈ (s.servers x).workers) {next : SockAddr} {mesg : List Byte}
    (hnext : ForwardsTo sc.nextPort x w.request next mesg) {p : Packet} (hp : p ∈ s.sent)
    (hdst : w.sock = some p.dst) : Answers s x w.request := by
  intro u m hsyn
  have howner : Owner s p.dst x w.request := ⟨w, hw, hdst, rfl⟩
  have hfree := hn.free p.dst (hn.opened p.dst x w.request howner)
  obtain ⟨d, hd, hsrc, hanswers⟩ := h.sent p hp hfree.1
  obtain ⟨heq, hcarries⟩ := hn.from_socket (hsrc ▸ howner) hnext hd
  obtain ⟨hhop, hmesg⟩ := hsyn.forwardsTo hnext
  refine hanswers u (m + 1) ⟨?_, ?_⟩
  · rw [heq]
    exact hhop
  · rw [← hmesg]
    exact hcarries

theorem AnswerInv.workerMove (h : AnswerInv s) (hn : NetInv s) (hport : sc.nextPort x = some port)
    (hfed : Fed s x act) {i : Nat} {w : Worker} {e : Effect}
    (hw : (s.servers x).workers[i]? = some w)
    (hm : WorkerMove x port (s.servers x) i w act e)
    (hx : Extends s (s.put x ((s.servers x).apply i e) e.packets)) :
    PcAnswers (s.put x ((s.servers x).apply i e) e.packets) x e.worker ∧
      ∀ p ∈ e.packets, AnswerTo (s.put x ((s.servers x).apply i e) e.packets) p := by
  have hmem := List.mem_of_getElem? hw
  have hok := hn.worker x w hmem
  have hpcOK := hok.pc
  have hpc := h.worker x w hmem
  obtain ⟨v, k, hrequest⟩ := hn.isSyn hok.request
  have hnone : ∀ p, p ∈ ([] : List Packet) →
      AnswerTo (s.put x ((s.servers x).apply i e) e.packets) p :=
    fun p hp => absurd hp List.not_mem_nil
  cases hm with
  | ignore sock hw₀ hh => exact ⟨trivial, hnone⟩
  | forward sock next mesg hw₀ hh =>
    refine ⟨trivial, ?_⟩
    intro p hp
    have hforwards : ForwardsTo sc.nextPort x w.request ⟨next, port⟩ mesg := ⟨hport, _, hh⟩
    rw [List.mem_singleton.mp hp]
    obtain ⟨hhop, -⟩ := hrequest.forwardsTo hforwards
    exact .of_served ((sc.update v).served_ne_none (List.mem_of_getElem? hhop))
  | back sock response hw₀ hh =>
    refine ⟨?_, hnone⟩
    intro u m hsyn
    exact ⟨_, (hsyn.answers hh).2⟩
  | recv next d hw₀ =>
    refine ⟨?_, hnone⟩
    rw [PcOK, hw₀] at hpcOK
    obtain ⟨-, mesg, -, hnext⟩ := hpcOK
    obtain ⟨p, hp, hdst, -⟩ := hfed.recv i d rfl
    rw [System.workerSock, hw, Option.bind_some] at hdst
    exact (h.receives hn hmem hnext hp hdst).mono hx
  | send l count old sent hw₀ hsent =>
    rw [PcAnswers, hw₀] at hpc
    rw [PcOK, hw₀] at hpcOK
    refine ⟨LoopAnswers.mono hx hpc, ?_⟩
    intro p hp hdst
    obtain ⟨mesg, hmesg, rfl⟩ := hsent p hp
    have hlog := hx.log x hok.request
    refine ⟨w.request, hlog, rfl, ?_⟩
    cases l with
    | forward next recv => exact Answers.mono hx hpc
    | back response =>
      intro u m hsyn
      obtain ⟨port', hresponse⟩ := hpc u m hsyn
      have hpayload : mesg = synAckBytes (sc.update u).key (sc.update u).seq port' :=
        (Option.some.inj hmesg).symm.trans hresponse
      exact ⟨_, List.mem_append_left _ hp, w.request, port', hlog, hsyn.last hpcOK.1, rfl, hpayload⟩
  | acked l count old hw₀ hacked =>
    refine ⟨trivial, ?_⟩
    intro p hp
    rw [PcOK, hw₀] at hpcOK
    cases l with
    | forward next recv =>
      obtain ⟨d, -, -, -, hsock, -, hd, -⟩ := hpcOK
      have hdst : p.dst = next := by
        simp only [Worker.ackPacket, hsock, Option.bind_some, ackMesg, shortMesg_eq,
          Option.map_some, Option.toList_some, List.mem_singleton] at hp
        rw [hp]
      obtain ⟨u, m, hsyn⟩ := hn.isSyn hd
      exact .of_served (hdst ▸ hsyn.served)
    | back response => cases hp
  | timeout l count old hw₀ hacked hcount => exact ⟨trivial, hnone⟩
  | again l count old hw₀ hacked hcount =>
    rw [PcAnswers, hw₀] at hpc
    exact ⟨LoopAnswers.mono hx hpc, hnone⟩

theorem AnswerInv.server (h : AnswerInv s) (hn : NetInv s) (hport : sc.nextPort x = some port)
    (hfed : Fed s x act) (hstep : (s.servers x).Step x port act a ps) :
    AnswerInv (s.put x a ps) := by
  have hx := hn.extends_put hstep
  refine ⟨?_, ?_⟩
  · intro p hp
    rw [System.sent_put] at hp
    rcases List.mem_append.mp hp with hp | hp
    · cases hstep with
      | worker i w _ e hw hm => exact (h.workerMove hn hport hfed hw hm hx).2 p hp
      | _ => cases hp
    · exact (h.sent p hp).mono hx
  · apply System.forall_servers_put (P := fun y b => ∀ w ∈ b.workers, PcAnswers _ y w)
    · intro w' hw'
      rcases hstep.workers hw' with hold | ⟨d, -, rfl, hd⟩ | ⟨i, w, e, hw, hm, rfl, rfl, rfl⟩
      · exact (h.worker x w' hold).mono hx
      · trivial
      · exact (h.workerMove hn hport hfed hw hm hx).1
    · exact fun y w hw => (h.worker y w hw).mono hx

end ServerSteps

/-! ### Steps of the system -/

section SystemSteps

variable {s s' : System sc}

theorem AnswerInv.of_servers (h : AnswerInv s) (hservers : s'.servers = s.servers)
    (hsent : s.sent ⊆ s'.sent) (hnew : ∀ p ∈ s'.sent, p ∈ s.sent ∨ AnswerTo s p) :
    AnswerInv s' := by
  have hx : Extends s s' := .of_servers hservers hsent
  refine ⟨?_, ?_⟩
  · intro p hp
    exact ((hnew p hp).elim (h.sent p) id).mono hx
  · intro x w hw
    rw [hservers] at hw
    exact (h.worker x w hw).mono hx

theorem Update.first_served (u : Fin sc.n) : sc.nextPort (sc.update u).first ≠ none :=
  (sc.update u).served_ne_none (List.head_mem _)

theorem AnswerInv.step (h : AnswerInv s) (hn : NetInv s) {act : SysAct sc.n}
    (hstep : s.step act = some s') : AnswerInv s' := by
  cases System.step_sound hstep with
  | server x port _ act' s₁ a ps hfeeds hport halive hserver =>
    have hservers : s₁.servers = s.servers := hfeeds.servers
    have hsent : s₁.sent = s.sent := hfeeds.sent
    have h₁ : AnswerInv s₁ := by
      apply h.of_servers hservers
      · rw [hsent]
        exact List.Subset.refl _
      · intro p hp
        rw [hsent] at hp
        exact Or.inl hp
    rw [← hservers] at hserver
    exact h₁.server (hn.feeds hfeeds) hport (hn.fed hfeeds) hserver
  | sync u | clientRecv u | foreign u | keepalive u =>
    refine h.of_servers rfl (List.subset_cons_self _ _) ?_
    intro p hp
    rcases List.mem_cons.mp hp with rfl | hp
    · exact Or.inr (.of_served (Update.first_served u))
    · exact Or.inl hp
  | lose | duplicate => exact h.of_servers rfl (List.Subset.refl _) fun _ hp => Or.inl hp

end SystemSteps

/-! ### The client -/

section Client

variable {s s' : System sc} {u : Fin sc.n}

/-- The record that the SYN of client `u` creates at its first hop is acked. -/
def FirstAcked (s : System sc) (u : Fin sc.n) : Prop :=
  let first := (sc.update u).first
  ∃ r, findItem (s.servers first).records (peerKey first (sc.sock u)) = some r ∧ r.acked = 1

/-- What has left the socket of the client: its SYN, and headers after `confirmed`. -/
def FromClient (s : System sc) (u : Fin sc.n) (p : Packet) : Prop :=
  p = ⟨sc.sock u, (sc.update u).first, (sc.update u).syn 0⟩ ∨
    s.clients u = .confirmed ∧ ∃ action stack, action ≠ 1 ∧ p = System.clientPacket u action stack

structure ClientInv (s : System sc) (u : Fin sc.n) : Prop where
  sent : ∀ p ∈ s.sent, p.src = sc.sock u → FromClient s u p
  acked : FirstAcked s u → s.clients u = .confirmed
  confirmed : s.clients u = .confirmed →
    Reached s (sc.update u).first (sc.sock u) ∧ Answered s u

theorem ClientInv.init : ClientInv (System.init sc) u where
  sent := fun _ hp => absurd hp List.not_mem_nil
  acked := by
    rintro ⟨r, hr, -⟩
    cases hr
  confirmed := fun h => by cases h

/-- What a hop accepts from the socket of the client is the SYN of the client for
    its first hop. -/
theorem ClientInv.isSyn (h : ClientInv s u) (hn : NetInv s) {x : SockAddr} {d : Datagram}
    (hd : .syn d ∈ (s.servers x).log) (hsrc : d.src = sc.sock u) :
    IsSyn (sc.update u) 0 x d := by
  obtain ⟨haction, p, hp, rfl, hpsrc, hcarries⟩ := hn.received x d hd
  rcases h.sent p hp (hpsrc.trans hsrc) with rfl | ⟨-, action, stack, hne, rfl⟩
  · refine ⟨?_, hcarries⟩
    rw [← List.head?_eq_getElem?]
    exact List.head?_eq_some_head (sc.update u).nonempty
  · rw [action_of_clientPacket hcarries] at haction
    exact absurd haction hne

theorem IsSyn.hop_zero {x : SockAddr} {d : Datagram} (h : IsSyn (sc.update u) 0 x d) :
    x = (sc.update u).first := by
  have hhead := h.hop
  rw [← List.head?_eq_getElem?, List.head?_eq_some_head (sc.update u).nonempty] at hhead
  exact (Option.some.inj hhead).symm

/-- What the network brings to the client is evidence that the chain has accepted
    the SYN. -/
theorem ClientInv.hears (h : ClientInv s u) (hn : NetInv s) (ha : AnswerInv s) {p : Packet}
    (hp : p ∈ s.sent) (hdst : p.dst = sc.sock u) :
    Reached s (sc.update u).first (sc.sock u) ∧ Answered s u := by
  have hfree : sc.nextPort p.dst = none := by
    rw [hdst]
    exact sc.client u
  cases hn.genuine p hp with
  | syn v m hhop =>
    exact absurd hfree ((sc.update v).served_ne_none (List.mem_of_getElem? hhop))
  | synAck d k port hd hdst' hmesg hreached =>
    have hsrc : d.src = sc.sock u := hdst'.symm.trans hdst
    have hsyn := h.isSyn hn hd hsrc
    refine ⟨?_, ?_⟩
    · rw [← hsyn.hop_zero, ← hsrc]
      exact hreached
    · obtain ⟨d', hd', hsrc', hanswers⟩ := ha.sent p hp hfree
      exact hanswers u 0 (h.isSyn hn hd' (hsrc'.trans hdst))
  | ack d k hd _ _ _ =>
    obtain ⟨v, m, hsyn⟩ := hn.isSyn hd
    exact absurd hfree hsyn.served
  | client v action stack hpv _ =>
    rw [hpv] at hfree
    exact absurd hfree (Update.first_served v)

/-- A record becomes acked by an ACK from its sender only. -/
theorem Server.Step.acked_record {x : SockAddr} {port : BitVec 16} {a a' : Server} {act : Act}
    {ps : List Packet} (hstep : a.Step x port act a' ps) {src : SockAddr}
    (h : ∃ r, findItem a'.records (peerKey x src) = some r ∧ r.acked = 1) :
    (∃ r, findItem a.records (peerKey x src) = some r ∧ r.acked = 1) ∨
      ∃ d, act = .mainRecv d ∧ d.src = src ∧ d.header.action = 3 := by
  cases hstep with
  | syn d hd =>
    obtain ⟨r, hr, hacked⟩ := h
    rw [findItem_addItem] at hr
    split at hr
    · cases hr
      cases hacked
    · exact Or.inl ⟨r, hr, hacked⟩
  | ack d hd =>
    obtain ⟨haction, r₀, hr₀, -⟩ := dispatch_eq_ack.mp hd
    obtain ⟨r, hr, hacked⟩ := h
    rw [findItem_setAcked hr₀] at hr
    split at hr
    · rename_i hk
      exact Or.inr ⟨d, rfl, peerKey_injective x hk, haction⟩
    · exact Or.inl ⟨r, hr, hacked⟩
  | skip | exit | worker | undefined => exact Or.inl h

/-- A server sends from its own socket and from those of its workers. -/
theorem NetInv.not_from_client {x : SockAddr} {port : BitVec 16} {act : Act} {a : Server}
    {ps : List Packet} (hn : NetInv s) (hport : sc.nextPort x = some port) (hfed : Fed s x act)
    (hstep : (s.servers x).Step x port act a ps) (u : Fin sc.n) :
    ∀ p ∈ ps, p.src ≠ sc.sock u := by
  intro p hp
  cases hstep with
  | worker i w _ e hw hm =>
    have hmem := List.mem_of_getElem? hw
    have hopened : ∀ sock, w.sock = some sock → sock ∈ s.opened :=
      fun sock hsock => hn.opened sock x w.request ⟨w, hmem, hsock, rfl⟩
    cases hm with
    | forward sock next mesg hw₀ hh =>
      rw [List.mem_singleton.mp hp]
      exact ((hn.free sock (hfed.start i sock rfl).1).2 u).symm
    | send l count old sent hw₀ hsent =>
      obtain ⟨mesg, -, rfl⟩ := hsent p hp
      intro hsrc
      have hself : x = sc.sock u := hsrc
      rw [hself, sc.client u] at hport
      cases hport
    | acked l count old hw₀ hacked =>
      cases l with
      | forward next recv =>
        obtain ⟨sock, hsock, hp⟩ := Option.bind_eq_some_iff.mp (Option.mem_toList.mp hp)
        obtain ⟨mesg, -, rfl⟩ := Option.map_eq_some_iff.mp hp
        exact ((hn.free sock (hopened sock hsock)).2 u).symm
      | back response => cases hp
    | ignore | back | recv | timeout | again => cases hp
  | syn | ack | skip | exit | undefined => cases hp

/-- Some client has sent, and nothing else happens to client `u`. -/
theorem ClientInv.of_client (h : ClientInv s u) {q : Packet} (hservers : s'.servers = s.servers)
    (hsent : s'.sent = q :: s.sent) (hq : q.src = sc.sock u → FromClient s' u q)
    (hkeep : s.clients u = .confirmed → s'.clients u = .confirmed)
    (hnew : s'.clients u = .confirmed → s.clients u = .confirmed ∨
      Reached s (sc.update u).first (sc.sock u) ∧ Answered s u) : ClientInv s' u := by
  have hx : Extends s s' := by
    apply Extends.of_servers hservers
    rw [hsent]
    exact List.subset_cons_self _ _
  refine ⟨?_, ?_, ?_⟩
  · intro p hp hsrc
    rw [hsent] at hp
    rcases List.mem_cons.mp hp with rfl | hp
    · exact hq hsrc
    · exact (h.sent p hp hsrc).imp_right fun hafter => ⟨hkeep hafter.1, hafter.2⟩
  · intro hacked
    rw [FirstAcked, hservers] at hacked
    exact hkeep (h.acked hacked)
  · intro hconf
    obtain ⟨hreached, hanswered⟩ := (hnew hconf).elim h.confirmed id
    exact ⟨hreached.mono hx, hanswered.mono hx⟩

theorem ClientInv.server {x : SockAddr} {port : BitVec 16} {act : SysAct sc.n} {act' : Act}
    {s₁ : System sc} {a : Server} {ps : List Packet} (h : ClientInv s u) (hn : NetInv s)
    (hfeeds : s.Feeds x act act' s₁) (hport : sc.nextPort x = some port)
    (hstep : (s.servers x).Step x port act' a ps) (hx : Extends s (s₁.put x a ps)) :
    ClientInv (s₁.put x a ps) u := by
  have hservers : s₁.servers = s.servers := hfeeds.servers
  have hclients : (s₁.put x a ps).clients = s.clients := by
    cases hfeeds <;> rfl
  refine ⟨?_, ?_, ?_⟩
  · intro p hp hsrc
    rw [System.sent_put, hfeeds.sent] at hp
    rw [FromClient, hclients]
    rcases List.mem_append.mp hp with hp | hp
    · rw [← hservers] at hstep
      exact absurd hsrc ((hn.feeds hfeeds).not_from_client hport (hn.fed hfeeds) hstep u p hp)
    · exact h.sent p hp hsrc
  · intro hacked
    rw [hclients]
    by_cases hfirst : (sc.update u).first = x
    · subst hfirst
      rw [FirstAcked, System.servers_put_self] at hacked
      rcases hstep.acked_record hacked with hold | ⟨d, rfl, hsrc, haction⟩
      · exact h.acked hold
      · cases hfeeds with
        | mainRecv p old hp hdst =>
          have hsent := hn.net hp
          have hcarries := recvfrom_carries old (hn.genuine p hsent).length_le
          rcases h.sent p hsent hsrc with rfl | ⟨hconf, -⟩
          · -- the SYN is no ACK
            rw [hcarries.header] at haction
            cases haction
          · exact hconf
    · rw [FirstAcked, System.servers_put_ne _ _ _ _ hfirst, hservers] at hacked
      exact h.acked hacked
  · intro hconf
    rw [hclients] at hconf
    obtain ⟨hreached, hanswered⟩ := h.confirmed hconf
    exact ⟨hreached.mono hx, hanswered.mono hx⟩

/-- The steps keep the invariant of a client that hears nothing foreign. -/
theorem ClientInv.step (h : ClientInv s u) (hn : NetInv s) (ha : AnswerInv s)
    (hown : ∀ v, sc.sock v = sc.sock u → v = u) {act : SysAct sc.n}
    (hforeign : ∀ d stack, act ≠ .foreign u d stack) (hstep : s.step act = some s') :
    ClientInv s' u := by
  have hx := hn.extends_step hstep
  have hother : ∀ {v : Fin sc.n} {pc : ClientPc}, v ≠ u →
      Function.update s.clients v pc u = s.clients u :=
    fun hv => Function.update_of_ne hv.symm ..
  cases System.step_sound hstep with
  | sync v hpc =>
    refine h.of_client rfl rfl ?_ ?_ ?_
    · intro hsrc
      obtain rfl := hown v hsrc
      exact Or.inl rfl
    · intro hconf
      have hv : v ≠ u := by
        rintro rfl
        rw [hpc] at hconf
        cases hconf
      exact (hother hv).trans hconf
    · intro hconf
      have hv : v ≠ u := by
        rintro rfl
        cases (Function.update_self ..).symm.trans hconf
      exact Or.inl ((hother hv).symm.trans hconf)
  | clientRecv v p old stack hpc hp hdst =>
    by_cases hv : v = u
    · subst hv
      have hconf : Function.update s.clients v ClientPc.confirmed v = .confirmed :=
        Function.update_self ..
      refine h.of_client rfl rfl ?_ ?_ ?_
      · exact fun _ => Or.inr ⟨hconf, 3, stack, by decide, rfl⟩
      · exact fun _ => hconf
      · exact fun _ => Or.inr (h.hears hn ha (hn.net hp) hdst)
    · refine h.of_client rfl rfl ?_ ?_ ?_
      · exact fun hsrc => absurd (hown v hsrc) hv
      · exact (hother hv).trans
      · exact fun hconf => Or.inl ((hother hv).symm.trans hconf)
  | foreign v d stack hpc =>
    have hv : v ≠ u := by
      rintro rfl
      exact hforeign d stack rfl
    refine h.of_client rfl rfl ?_ ?_ ?_
    · exact fun hsrc => absurd (hown v hsrc) hv
    · exact (hother hv).trans
    · exact fun hconf => Or.inl ((hother hv).symm.trans hconf)
  | keepalive v stack hpc =>
    refine h.of_client rfl rfl ?_ ?_ ?_
    · intro hsrc
      obtain rfl := hown v hsrc
      exact Or.inr ⟨hpc, 4, stack, by decide, rfl⟩
    · exact id
    · exact Or.inl
  | server x port _ act' s₁ a ps hfeeds hport halive hserver =>
    exact h.server hn hfeeds hport hserver hx
  | lose p hp =>
    exact ⟨h.sent, h.acked, fun hconf => (h.confirmed hconf).imp (.mono hx) (.mono hx)⟩
  | duplicate p hp =>
    exact ⟨h.sent, h.acked, fun hconf => (h.confirmed hconf).imp (.mono hx) (.mono hx)⟩

/-- All hops have accepted the SYN, and the last one has answered it, by the time
    the first one is acknowledged. -/
def ChainFirst (u : Fin sc.n) (s : System sc) : Prop :=
  FirstAcked s u → (∀ j < (sc.update u).hops.length, Accepted s u j) ∧ Answered s u

theorem ClientInv.chainFirst (h : ClientInv s u) (hn : NetInv s) : ChainFirst u s := by
  intro hacked
  obtain ⟨hreached, hanswered⟩ := h.confirmed (h.acked hacked)
  refine ⟨?_, hanswered⟩
  have haccepted := hn.accepted_of_reached hreached fun d hd hsrc => h.isSyn hn hd hsrc
  exact fun j hj => haccepted j (Nat.zero_le j) hj

/-- **When an acknowledged first hop means an accepted update.**  In every run in
    which no foreign datagram comes to the client `u` while it waits, in all
    states: if the record of its SYN at the first hop is acked, every hop on its
    list has accepted the SYN and the last hop has sent a SYN-ACK for it. -/
theorem chain_accepted_of_acked (hown : ∀ v, sc.sock v = sc.sock u → v = u)
    {acts : List (SysAct sc.n)} (hforeign : ∀ d stack, .foreign u d stack ∉ acts) :
    Throughout System.step (ChainFirst u) (System.init sc) acts := by
  let Inv (s : System sc) : Prop := NetInv s ∧ AnswerInv s ∧ ClientInv s u
  let Quiet (_ : System sc) (act : SysAct sc.n) : Prop := ∀ d stack, act ≠ .foreign u d stack
  have hquiet : Along System.step Quiet (System.init sc) acts := by
    apply along_of_forall
    rintro _ act hact d stack rfl
    exact hforeign d stack hact
  have hinv : Throughout System.step Inv (System.init sc) acts := by
    refine hquiet.throughout ⟨NetInv.init, AnswerInv.init, ClientInv.init⟩ ?_
    rintro s act s' ⟨hn, ha, hc⟩ hact hstep
    exact ⟨hn.step hstep, ha.step hn hstep, hc.step hn ha hown hact hstep⟩
  exact hinv.mono fun s hs => hs.2.2.chainFirst hs.1

end Client

/-! ### Three hops -/

theorem chain_accepted_chain :
    ∃ s, run System.step (System.init chainScenario) chainRun = some s ∧
      FirstAcked s chainOnly ∧ (∀ i < 3, Accepted s chainOnly i) ∧ Answered s chainOnly := by
  have hrun : ((run System.step (System.init chainScenario) chainRun).any fun s =>
      (findItem (s.servers hopA).records (peerKey hopA clientSock)).any (·.acked = 1)) = true := by
    decide +kernel
  obtain ⟨s, hs, hacked⟩ := (Option.any_eq_true _ _).mp hrun
  obtain ⟨r, hr, hr1⟩ := (Option.any_eq_true _ _).mp hacked
  have hfirst : FirstAcked s chainOnly := ⟨r, hr, of_decide_eq_true hr1⟩
  have hchain : ChainFirst chainOnly s := by
    refine (chain_accepted_of_acked ?_ ?_).last hs
    · exact fun v _ => Subsingleton.elim (α := Fin 1) v chainOnly
    · simp [chainRun]
  obtain ⟨haccepted, hanswered⟩ := hchain hfirst
  exact ⟨s, hs, hfirst, haccepted, hanswered⟩

/-- Eight bytes that nobody in the protocol has sent. -/
def strayDatagram : Datagram := recvfrom ⟨hopB, clientSock, List.replicate 8 0⟩ 0

/-- The client confirms on a stray datagram, which fails its test: the record of
    the first hop is acked while the second hop has seen nothing. -/
theorem foreign_confirms :
    ¬ ∀ acts : List (SysAct chainScenario.n),
      (∀ d stack, .foreign chainOnly d stack ∈ acts → ¬ (d.header.action = 2 ∧
        d.header.sequenceNum = chainUpdate.seq ∧ d.n = 28)) →
      Throughout System.step (ChainFirst chainOnly) (System.init chainScenario) acts := by
  intro h
  let acts : List (SysAct chainScenario.n) :=
    [.sync chainOnly, .mainRecv hopA ⟨clientSock, hopA, chainUpdate.syn 0⟩ 0,
      .foreign chainOnly strayDatagram 0, .mainRecv hopA (System.clientPacket chainOnly 3 0) 0]
  have hrun : ((run System.step (System.init chainScenario) acts).any fun s =>
      (findItem (s.servers hopA).records (peerKey hopA clientSock)).any (·.acked = 1) ∧
        (s.servers hopB).log.isEmpty) = true := by
    decide +kernel
  obtain ⟨s, hs, hend⟩ := (Option.any_eq_true _ _).mp hrun
  obtain ⟨hacked, hempty⟩ := of_decide_eq_true hend
  obtain ⟨r, hr, hr1⟩ := (Option.any_eq_true _ _).mp hacked
  have hchain : ChainFirst chainOnly s := by
    refine (h acts ?_).last hs
    intro d stack hmem
    simp only [acts, List.mem_cons, reduceCtorEq, SysAct.foreign.injEq, List.not_mem_nil,
      true_and, false_or, or_false] at hmem
    rw [hmem.1]
    decide
  obtain ⟨x, d, hd, hsyn⟩ := (hchain ⟨r, hr, of_decide_eq_true hr1⟩).1 1 (by decide)
  have hx : x = hopB := (Option.some.inj hsyn.hop).symm
  rw [hx, List.isEmpty_iff.mp hempty] at hd
  cases hd

end MiddleboxSession.Emulator
