/-
  MiddleboxSession/Traffic.lean
  =============================
  **How much the update handshake can send, and how many steps it can take.**

  The last hop of an update repeats its SYN-ACK up to 1000 times, and every
  other hop relays whatever arrives on its socket, as often as it arrives.  So
  what a datagram costs depends on how far it still has to go: a SYN-ACK for the
  socket that serves hop m is relayed by m workers.

  The potential of a state holds what is still to be paid: by every datagram in
  flight, by the main thread of every agent, by every initiator, and by the
  worker of every hop of every update, started or not.  A hop accepts an update
  once, so a datagram that the network duplicates does not start a second
  worker; a duplicated SYN-ACK costs its relays.  With a price for a step and
  another for a datagram, one potential bounds both the steps of a run and what
  it sends.
-/
import MiddleboxSession.Handshake
import Mathlib.Algebra.BigOperators.Group.List.Basic
import Mathlib.Data.FinEnum
import Mathlib.Order.ConditionallyCompleteLattice.Basic
import Mathlib.Algebra.Order.BigOperators.Group.Finset

namespace MiddleboxSession

open CBuffer Runs

variable {sc : Scenario}

def SysAct.isExit {n : Nat} : SysAct n → Bool
  | .mainExit _ => true
  | _ => false

def SysAct.isDuplicate {n : Nat} : SysAct n → Bool
  | .duplicate _ => true
  | _ => false

/-- The length of the longest path. -/
def Scenario.longest (sc : Scenario) : Nat := Finset.univ.sup fun u => (sc.update u).hops.length

/-! ### Prices -/

/-- The price of a step of the system, and of a datagram that is sent. -/
structure Prices where
  step : Nat
  send : Nat

namespace Prices

variable (c : Prices)

/-- What a datagram for a main loop costs at most: the step that receives it, and
    the four of the branch that accepts an ACK. -/
def toMain : Nat := 5 * c.step

/-- What a SYN-ACK for the socket that serves hop `m` costs: four steps and a
    datagram for each relay, and the step that receives it at the end. -/
def synAck (m : Nat) : Nat := (4 * c.step + c.send) * m + c.step

theorem synAck_succ (m : Nat) : c.synAck (m + 1) = 4 * c.step + c.send + c.synAck m := by
  rw [synAck, synAck]
  ring

def main : MainPc → Nat
  | .recv => 0
  | .lockAck _ _ => 4 * c.step
  | .setAck _ _ => 3 * c.step
  | .unlockAck _ _ => 2 * c.step
  | .netlinkAck _ _ => c.step

/-- The end of `updateForward`, behind its test: the ACK and two steps. -/
def forwardEnd : Nat := c.send + c.toMain + 2 * c.step

/-- What the worker of hop `j` of an update with `k` hops has still to pay. -/
def worker (k j : Nat) : WorkerPc → Nat
  | .start =>
    if j + 1 = k then c.step + 1000 * c.synAck (j + 1) + 2 * c.step
    else c.step + c.send + c.toMain + c.forwardEnd
  | .ignored | .done => 0
  | .fwdPoll _ => c.forwardEnd
  | .fwdLock _ _ => c.forwardEnd + (3 * c.step + c.send + c.synAck j)
  | .fwdTest _ _ => c.forwardEnd + (2 * c.step + c.send + c.synAck j)
  | .fwdUnlock _ => c.forwardEnd + c.step
  | .backLock _ n => (1000 - n) * c.synAck (j + 1) + (4 * c.step + c.send + c.synAck j) + 2 * c.step
  | .backTest _ n => (1000 - n) * c.synAck (j + 1) + (3 * c.step + c.send + c.synAck j) + 2 * c.step
  | .backUnlock _ n => (1000 - n) * c.synAck (j + 1) + (2 * c.step + c.send + c.synAck j) + 2 * c.step
  | .backSend _ n => (1000 - n) * c.synAck (j + 1) + (c.step + c.send + c.synAck j) + 2 * c.step
  | .clear => 2 * c.step
  | .finalUnlock => c.step

/-- A process may end at any time, at no price. -/
def cost {n : Nat} (act : SysAct n) : Nat := if !act.isExit then c.step else 0

theorem cost_le {n : Nat} (act : SysAct n) : c.cost act ≤ c.step := by
  unfold cost
  split
  · exact Nat.le_refl _
  · exact Nat.zero_le _

/-- What a duplicate of a datagram adds at most. -/
def gain (sc : Scenario) (act : SysAct sc.n) : Nat :=
  if act.isDuplicate then 6 * c.step + (4 * c.step + c.send) * sc.longest else 0

/-- What an update over `k` hops costs at most: its initiator, a worker that
    forwards at every hop but the last, and the worker that answers. -/
def update (k : Nat) : Nat :=
  2 * (c.send + c.toMain) + c.step + (k - 1) * (c.step + c.send + c.toMain + c.forwardEnd)
    + (c.step + 1000 * c.synAck k + 2 * c.step)

def notifier : NotifyPc → Nat
  | .idle => c.step + c.send + c.toMain + (c.send + c.toMain)
  | .waiting => c.send + c.toMain
  | .received _ => 0

end Prices

/-! ### The potential -/

/-- A hop of an update. -/
abbrev Scenario.Hop (sc : Scenario) : Type := (u : Fin sc.n) × Fin (sc.update u).hops.length

def Scenario.Hop.addr (h : sc.Hop) : Addr := (sc.update h.1).hops[h.2]

def Scenario.Hop.id (h : sc.Hop) : FlowKey × BitVec 32 :=
  ((sc.update h.1).key, (sc.update h.1).seq)

namespace System

variable (c : Prices) (s : System sc)

/-- How many workers relay a datagram for the socket `x`. -/
noncomputable def relays (x : SockAddr) : Nat := sInf {m | ∃ u, Serves s u m x}

noncomputable def price (p : Packet) : Nat :=
  if p.dst.port = UDP_PORT then c.toMain else c.synAck (s.relays p.dst)

/-- What a worker of hop `h` that stands at `pc` has still to pay. -/
def pcPrice (h : sc.Hop) (pc : WorkerPc) : Nat := c.worker (sc.update h.1).hops.length h.2 pc

def workerPrice (h : sc.Hop) (w : Worker) : Nat :=
  if w.update = h.id then pcPrice c h w.pc else 0

/-- What is still to be paid for hop `h`, by its worker or before there is one. -/
def hopPrice (h : sc.Hop) (ws : List Worker) : Nat :=
  if h.id ∈ ws.map Worker.update then (ws.map (workerPrice c h)).sum else pcPrice c h .start

noncomputable def potential : Nat :=
  c.send * s.sent.length + (s.net.map (s.price c)).sum
    + ∑ a, c.main (s.agents a).main
    + ∑ u, c.notifier (s.notifiers u)
    + ∑ h : sc.Hop, hopPrice c h (s.agents h.addr).workers

end System

/-! ### Sums -/

/-- Two sums whose terms are equal but at one index. -/
theorem sum_add_eq {ι : Type*} [Fintype ι] {f g : ι → Nat} {x y : Nat} (i : ι)
    (hi : f i + x = g i + y) (hoff : ∀ j, j ≠ i → f j = g j) :
    ∑ j, f j + x = ∑ j, g j + y := by
  classical
  have hrest : ∑ j ∈ Finset.univ.erase i, f j = ∑ j ∈ Finset.univ.erase i, g j :=
    Finset.sum_congr rfl fun j hj => hoff j (Finset.ne_of_mem_erase hj)
  rw [← Finset.add_sum_erase _ f (Finset.mem_univ i),
    ← Finset.add_sum_erase _ g (Finset.mem_univ i), hrest]
  omega

theorem sum_map_set {α : Type*} (f : α → Nat) {l : List α} {i : Nat} {x : α} (y : α)
    (hx : l[i]? = some x) : ((l.set i y).map f).sum + f x = (l.map f).sum + f y := by
  induction l generalizing i with
  | nil => cases hx
  | cons z l ih =>
    cases i with
    | zero =>
      cases hx
      rw [List.set_cons_zero, List.map_cons, List.sum_cons, List.map_cons, List.sum_cons]
      omega
    | succ i =>
      have htail := ih hx
      rw [List.set_cons_succ, List.map_cons, List.sum_cons, List.map_cons, List.sum_cons]
      omega

namespace System

variable {c : Prices}

/-! ### The hops -/

theorem Hop.ext_of {g h : sc.Hop} (hid : g.id = h.id) (haddr : g.addr = h.addr) : g = h := by
  obtain ⟨u, i⟩ := g
  obtain ⟨v, j⟩ := h
  obtain ⟨hkey, hseq⟩ := Prod.mk.injEq .. ▸ hid
  obtain rfl : u = v := sc.own u v hkey hseq
  have hij : i = j := (List.Nodup.get_inj_iff (sc.update u).nodup).mp haddr
  rw [hij]

theorem hopPrice_append {h : sc.Hop} {ws : List Worker} {w : Worker}
    (hnew : w.update = h.id → h.id ∉ ws.map Worker.update ∧ w.pc = .start) :
    hopPrice c h (ws ++ [w]) = hopPrice c h ws := by
  have hmem : h.id ∈ (ws ++ [w]).map Worker.update ↔
      h.id ∈ ws.map Worker.update ∨ h.id = w.update := by
    rw [List.map_append, List.mem_append, List.map_singleton, List.mem_singleton]
  have hsum : ((ws ++ [w]).map (workerPrice c h)).sum =
      (ws.map (workerPrice c h)).sum + workerPrice c h w := by
    rw [List.map_append, List.sum_append, List.map_singleton, List.sum_singleton]
  unfold hopPrice
  rw [hsum]
  by_cases hw : w.update = h.id
  · obtain ⟨hnone, hpc⟩ := hnew hw
    have hzero : (ws.map (workerPrice c h)).sum = 0 := by
      refine List.sum_eq_zero fun x hx => ?_
      obtain ⟨v, hv, rfl⟩ := List.mem_map.mp hx
      exact if_neg fun hid => hnone (List.mem_map.mpr ⟨v, hv, hid⟩)
    rw [if_pos (hmem.mpr (Or.inr hw.symm)), if_neg hnone, hzero, Nat.zero_add, workerPrice,
      if_pos hw, hpc]
  · rw [workerPrice, if_neg hw, Nat.add_zero]
    by_cases hin : h.id ∈ ws.map Worker.update
    · rw [if_pos hin, if_pos (hmem.mpr (Or.inl hin))]
    · rw [if_neg hin, if_neg fun hin' => (hmem.mp hin').elim hin (Ne.symm hw)]

theorem hopPrice_set_ne {h : sc.Hop} {ws : List Worker} {i : Nat} {w w' : Worker}
    (hw : ws[i]? = some w) (hupd : w'.update = w.update) (hne : w.update ≠ h.id) :
    hopPrice c h (ws.set i w') = hopPrice c h ws := by
  have hids : (ws.set i w').map Worker.update = ws.map Worker.update := by
    obtain ⟨hi, hget⟩ := List.getElem?_eq_some_iff.mp hw
    rw [List.map_set, hupd, ← hget, ← List.map_set, List.set_getElem_self]
  have hsum := sum_map_set (workerPrice c h) w' hw
  rw [workerPrice, if_neg hne, workerPrice, if_neg (hupd ▸ hne), Nat.add_zero,
    Nat.add_zero] at hsum
  rw [hopPrice, hopPrice, hids, hsum]

theorem hopPrice_set {h : sc.Hop} {ws : List Worker} {i : Nat} {w w' : Worker}
    (hw : ws[i]? = some w) (hupd : w'.update = w.update) (hid : w.update = h.id) :
    hopPrice c h (ws.set i w') + pcPrice c h w.pc = hopPrice c h ws + pcPrice c h w'.pc := by
  have hmem : h.id ∈ ws.map Worker.update := List.mem_map.mpr ⟨w, List.mem_of_getElem? hw, hid⟩
  have hmem' : h.id ∈ (ws.set i w').map Worker.update := by
    obtain ⟨hi, -⟩ := List.getElem?_eq_some_iff.mp hw
    exact List.mem_map.mpr ⟨w', List.mem_set hi _, hupd.trans hid⟩
  have hsum := sum_map_set (workerPrice c h) w' hw
  rw [workerPrice, if_pos hid, workerPrice, if_pos (hupd.trans hid)] at hsum
  rw [hopPrice, if_pos hmem', hopPrice, if_pos hmem, hsum]

/-! ### The datagrams -/

theorem serves_port {s : System sc} (hs : NetInv s) {u : Fin sc.n} {m : Nat} {x : SockAddr}
    (h : Serves s u m x) : x.port ≠ UDP_PORT := by
  cases m with
  | zero =>
    rw [show x = sc.sock u from h]
    exact sc.sock_port u
  | succ m =>
    obtain ⟨a, port, -, rfl, w, hw, hport, -⟩ := h
    exact ((hs.ports a).own w hw port hport).1

/-- A socket serves one hop of one update. -/
theorem serves_unique {s : System sc} (hs : NetInv s) {u v : Fin sc.n} {m k : Nat} {x : SockAddr}
    (hu : Serves s u m x) (hv : Serves s v k x) : m = k := by
  cases m with
  | zero =>
    cases k with
    | zero => rfl
    | succ k =>
      obtain ⟨a, port, -, hx, w, hw, hport, -⟩ := hv
      exact absurd (show sc.sock u = ⟨a, port⟩ from hu.symm.trans hx)
        (((hs.ports a).own w hw port hport).2 u)
  | succ m =>
    obtain ⟨a, port, hhop, rfl, w, hw, hport, hupd⟩ := hu
    cases k with
    | zero =>
      exact absurd (show ⟨a, port⟩ = sc.sock v from hv).symm
        (((hs.ports a).own w hw port hport).2 v)
    | succ k =>
      obtain ⟨b, port', hhop', hx, w', hw', hport', hupd'⟩ := hv
      obtain ⟨rfl, rfl⟩ := SockAddr.mk.injEq .. ▸ hx
      have heq := (hs.ports a).unique w hw w' hw' port hport hport'
      rw [hupd, hupd', Prod.mk.injEq] at heq
      obtain rfl := sc.own u v heq.1 heq.2
      rw [(sc.update u).index_unique hhop hhop']

theorem relays_eq {s : System sc} (hs : NetInv s) {u : Fin sc.n} {m : Nat} {x : SockAddr}
    (h : Serves s u m x) : s.relays x = m := by
  have hset : {m | ∃ u, Serves s u m x} = {m} := by
    ext k
    exact ⟨fun ⟨v, hv⟩ => serves_unique hs hv h, fun hk => ⟨u, hk ▸ h⟩⟩
  rw [relays, hset, csInf_singleton]

theorem price_serves {s : System sc} (hs : NetInv s) {u : Fin sc.n} {m : Nat} {p : Packet}
    (h : Serves s u m p.dst) : s.price c p = c.synAck m := by
  rw [price, if_neg (serves_port hs h), relays_eq hs h]

theorem price_toMain (s : System sc) {p : Packet} {a : Addr} (h : p.dst = mainSock a) :
    s.price c p = c.toMain := by
  rw [price, h]
  exact if_pos rfl

/-- What a datagram costs does not change while it is on its way. -/
theorem price_extends {s s' : System sc} (hs : NetInv s) (hs' : NetInv s') (hx : Extends s s')
    {p : Packet} (hp : p ∈ s.sent) : s'.price c p = s.price c p := by
  cases hs.sent p hp with
  | syn u m a rest src hhop hsrc hup => rw [price_toMain _ rfl, price_toMain _ rfl]
  | synAck u m src dst hdst hall hans => rw [price_serves hs hdst, price_serves hs' (hdst.mono hx)]
  | ack u a src hall hans => rw [price_toMain _ rfl, price_toMain _ rfl]

/-! ### Payments -/

/-- What an agent takes out of the network pays for the step that takes it. -/
theorem Feeds.paid {s s₁ : System sc} (hs : NetInv s) {b : Addr} {act : SysAct sc.n} {act' : Act}
    (hfeeds : s.Feeds b act act' s₁) :
    ∃ q, (s₁.net.map (s.price c)).sum + q = (s.net.map (s.price c)).sum ∧
      (∀ d, act' = .mainRecv d → q = c.toMain) ∧
      ∀ i d w u j, act' = .workerRecv i d → (s.agents b).workers[i]? = some w →
        WorkerOK s b w u j → q = c.synAck (j + 1) := by
  cases hfeeds with
  | mainRecv p old hp hdst =>
    refine ⟨s.price c p, ?_, fun d _ => price_toMain s hdst, fun i d w u j h => by cases h⟩
    rw [Nat.add_comm]
    exact List.sum_map_erase _ hp
  | workerRecv i p old hp hdst hport =>
    refine ⟨s.price c p, ?_, fun d h => (by cases h), fun i' d w u j h hw hok => ?_⟩
    · rw [Nat.add_comm]
      exact List.sum_map_erase _ hp
    · cases h
      rw [workerPort, hw] at hport
      exact price_serves hs ⟨b, p.dst.port, hok.hop, by rw [← hdst], w, List.mem_of_getElem? hw,
        hport, hok.update⟩
  | mainStep | mainExit | workerStart | workerStep =>
    exact ⟨0, rfl, fun d h => (by cases h), fun i d w u j h => by cases h⟩

/-- A worker pays for its step, for what it sends and for what this costs. -/
theorem worker_pays {s s' : System sc} (hs' : NetInv s') (hx : Extends s s') {b : Addr}
    {act' : Act} {i : Nat} {w : Worker} {e : Effect} {h : sc.Hop} {q : Nat}
    (hm : WorkerMove b (s.agents b) i w act' e) (hok : WorkerOK s b w h.1 h.2)
    (hq : ∀ d, act' = .workerRecv i d → q = c.synAck (h.2 + 1)) :
    pcPrice c h e.worker.pc + c.step +
        (c.send * e.packets.length + (e.packets.map (s'.price c)).sum) ≤
      pcPrice c h w.pc + q := by
  have hround := c.synAck_succ h.2
  have hback : ∀ p : Packet, p.dst = w.request.src → s'.price c p = c.synAck h.2 :=
    fun p hp => price_serves hs' (hp ▸ hok.src.mono hx)
  have hpcok := hok.pc
  unfold pcPrice
  cases hm with
  | ignore port hpc hh =>
    rcases hok.handleUpdate with ⟨-, hback⟩ | ⟨b', rest, -, hfwd⟩
    · rw [hback] at hh
      cases hh
    · rw [hfwd] at hh
      cases hh
  | forward port next mesg hpc hh hport =>
    rcases hok.handleUpdate with ⟨-, hback⟩ | ⟨b', rest, hrest, -⟩
    · rw [hback] at hh
      cases hh
    · have hlast : (h.2 : Nat) + 1 ≠ (sc.update h.1).hops.length := by
        intro hlast
        rw [hlast, List.drop_length] at hrest
        cases hrest
      rw [hpc, Prices.worker, Prices.worker, if_neg hlast, List.map_singleton, List.sum_singleton,
        price_toMain s' rfl, List.length_singleton]
      omega
  | back port response hpc hh =>
    rcases hok.handleUpdate with ⟨hlast, -⟩ | ⟨b', rest, -, hfwd⟩
    · have hlast : (h.2 : Nat) + 1 = (sc.update h.1).hops.length :=
        Nat.le_antisymm h.2.isLt (List.drop_eq_nil_iff.mp hlast)
      rw [hpc, Prices.worker, Prices.worker, if_pos hlast, ← hround]
      simp only [List.map_nil, List.sum_nil, List.length_nil]
      omega
    · rw [hfwd] at hh
      cases hh
  | recv next d hpc =>
    rw [hpc, hq d rfl, hround, Prices.worker, Prices.worker]
    simp only [List.map_nil, List.sum_nil, List.length_nil]
    omega
  | fwdLock _ _ hpc | backLock _ _ hpc | backTest _ _ hpc | backAcked _ _ hpc
  | backUnlock _ _ hpc =>
    rw [hpc, Prices.worker, Prices.worker]
    simp only [List.map_nil, List.sum_nil, List.length_nil]
    omega
  | relay next recv hpc hflag =>
    rw [hpc] at hpcok
    obtain ⟨-, hack, -, -⟩ := hpcok
    rw [hpc, Prices.worker, Prices.worker, hack.sendto, packetOf, Option.map_some,
      Option.toList_some, List.map_singleton, List.sum_singleton, List.length_singleton,
      hback _ rfl]
    omega
  | fwdAcked next recv sent hpc hflag heq =>
    subst heq
    rw [hpc, Prices.worker, Prices.worker, List.map_singleton, List.sum_singleton,
      List.length_singleton, price_toMain s' rfl, Prices.forwardEnd]
    omega
  | fwdUnlock next hpc =>
    rw [hpc, Prices.worker, Prices.worker]
    simp only [List.map_nil, List.sum_nil, List.length_nil]
    omega
  | backSend response count hpc hcount =>
    have hcount' : 1000 - count = 1000 - (count + 1) + 1 := by omega
    rw [hpc, Prices.worker, Prices.worker, List.map_singleton, List.sum_singleton,
      List.length_singleton, hback _ rfl, hcount', Nat.add_mul, hround]
    omega
  | timeout response count hpc hcount =>
    rw [hpc, Prices.worker, Prices.worker, List.map_singleton, List.sum_singleton,
      List.length_singleton, hback _ rfl]
    omega
  | clear hpc | finalUnlock hpc =>
    rw [hpc, Prices.worker, Prices.worker]
    simp only [List.map_nil, List.sum_nil, List.length_nil]
    omega

/-- An agent that accepts a SYN has no worker for it yet. -/
theorem fresh_of_syn {s : System sc} (hs : NetInv s) {b : Addr} {d : Datagram}
    (hd : dispatch (s.agents b).records d.header = .syn) :
    (d.header.key, d.header.sequenceNum) ∉ (s.agents b).workers.map Worker.update := by
  intro hmem
  obtain ⟨w, hw, hupd⟩ := List.mem_map.mp hmem
  obtain ⟨u, j, hok⟩ := hs.workers b w hw
  have hb : b ∈ (sc.update u).hops.take (j + 1) := by
    rw [List.take_add_one, hok.hop]
    exact List.mem_append_right _ (List.mem_singleton_self b)
  obtain ⟨hkey, hseq⟩ := Prod.mk.injEq .. ▸ (hupd.symm.trans hok.update)
  obtain ⟨q, hq, hle⟩ := hs.records b _ _ (hok.upto b hb).1
  rw [← hkey] at hq
  have hlt := (dispatch_eq_syn.mp hd).2 q hq
  rw [hseq] at hlt
  omega

theorem hops_append {s s' : System sc} {b : Addr} {w : Worker}
    (hself : (s'.agents b).workers = (s.agents b).workers ++ [w])
    (hother : ∀ a, a ≠ b → s'.agents a = s.agents a) (hpc : w.pc = .start)
    (hnew : w.update ∉ (s.agents b).workers.map Worker.update) :
    ∑ h : sc.Hop, hopPrice c h (s'.agents h.addr).workers =
      ∑ h : sc.Hop, hopPrice c h (s.agents h.addr).workers := by
  refine Finset.sum_congr rfl fun h _ => ?_
  by_cases hb : h.addr = b
  · rw [hb, hself]
    exact hopPrice_append fun hid => ⟨hid ▸ hnew, hpc⟩
  · rw [hother _ hb]

theorem hops_set {s s' : System sc} {b : Addr} {i : Nat} {w w' : Worker} {h : sc.Hop}
    (hw : (s.agents b).workers[i]? = some w) (hok : WorkerOK s b w h.1 h.2)
    (hupd : w'.update = w.update) (hself : (s'.agents b).workers = (s.agents b).workers.set i w')
    (hother : ∀ a, a ≠ b → s'.agents a = s.agents a) :
    ∑ g : sc.Hop, hopPrice c g (s'.agents g.addr).workers + pcPrice c h w.pc =
      ∑ g : sc.Hop, hopPrice c g (s.agents g.addr).workers + pcPrice c h w'.pc := by
  have hid : w.update = h.id := hok.update
  have haddr : h.addr = b := (List.getElem?_eq_some_iff.mp hok.hop).2
  refine sum_add_eq h ?_ fun g hg => ?_
  · rw [haddr, hself]
    exact hopPrice_set hw hupd hid
  · by_cases hb : g.addr = b
    · rw [hb, hself]
      exact hopPrice_set_ne hw hupd fun hgid =>
        hg (Hop.ext_of (hgid.symm.trans hid) (hb.trans haddr.symm))
    · rw [hother _ hb]

/-- Apart from the datagram it takes, an agent pays for its step by itself. -/
theorem agent_local {s s' s₁ : System sc} (hs : NetInv s) (hs' : NetInv s') (hx : Extends s s')
    {b : Addr} {act : SysAct sc.n} {act' : Act} {a' : Agent} {ps : List Packet} {q : Nat}
    (hfeeds : s.Feeds b act act' s₁) (hstep : Agent.Step b (s.agents b) act' a' ps)
    (hself : s'.agents b = a') (hother : ∀ a, a ≠ b → s'.agents a = s.agents a)
    (hqmain : ∀ d, act' = .mainRecv d → q = c.toMain)
    (hqworker : ∀ i d w u j, act' = .workerRecv i d → (s.agents b).workers[i]? = some w →
      WorkerOK s b w u j → q = c.synAck (j + 1)) :
    ∑ h : sc.Hop, hopPrice c h (s'.agents h.addr).workers + c.main a'.main + c.cost act +
        (c.send * ps.length + (ps.map (s'.price c)).sum) ≤
      ∑ h : sc.Hop, hopPrice c h (s.agents h.addr).workers + c.main (s.agents b).main + q := by
  have hcost := c.cost_le act
  have hkept : a'.workers = (s.agents b).workers →
      ∑ h : sc.Hop, hopPrice c h (s'.agents h.addr).workers =
        ∑ h : sc.Hop, hopPrice c h (s.agents h.addr).workers := by
    intro hws
    refine Finset.sum_congr rfl fun h _ => ?_
    by_cases hb : h.addr = b
    · rw [hb, hself, hws]
    · rw [hother _ hb]
  have htoMain : c.toMain = 5 * c.step := rfl
  cases hstep with
  | syn d hmain hd =>
    have hsum := @hops_append sc c s s' b ⟨d, none, .start⟩ (congrArg Agent.workers hself) hother
      rfl (fresh_of_syn hs hd)
    rw [hsum, hqmain d rfl, hmain]
    simp only [Prices.main, List.map_nil, List.sum_nil, List.length_nil]
    omega
  | ack d hmain hd | nullDeref d hmain hd | skip d hmain hd =>
    rw [hkept rfl, hqmain d rfl, hmain]
    simp only [Prices.main, List.map_nil, List.sum_nil, List.length_nil]
    omega
  | exit hmain =>
    cases hfeeds with
    | mainExit =>
      rw [hkept rfl]
      have hfree : c.cost (SysAct.mainExit b : SysAct sc.n) = 0 := rfl
      simp only [hfree, List.map_nil, List.sum_nil, List.length_nil]
      omega
  | lockAck k n hmain | setAck k n hmain | unlockAck k n hmain | netlinkAck k n hmain =>
    rw [hkept rfl, hmain]
    simp only [Prices.main, List.map_nil, List.sum_nil, List.length_nil]
    omega
  | undefined i w port hw hpc hh =>
    exact absurd hh (hs.defined b w (List.mem_of_getElem? hw))
  | worker i w _ e hw hm =>
    obtain ⟨u, j, hok⟩ := hs.workers b w (List.mem_of_getElem? hw)
    obtain ⟨hj, -⟩ := List.getElem?_eq_some_iff.mp hok.hop
    have hpay := @worker_pays sc c s s' hs' hx b act' i w e ⟨u, j, hj⟩ q hm hok
      fun d hd => hqworker i d w u j hd hw hok
    have hsum := @hops_set sc c s s' b i w e.worker ⟨u, j, hj⟩ hw hok hm.update
      (by rw [hself]; rfl) hother
    have hmain : ((s.agents b).apply i e).main = (s.agents b).main := rfl
    rw [hmain]
    omega

theorem agent_pays {s s₁ : System sc} (hs : NetInv s) {b : Addr} {act : SysAct sc.n}
    {act' : Act} {a' : Agent} {ps : List Packet} (hfeeds : s.Feeds b act act' s₁)
    (hstep : Agent.Step b (s.agents b) act' a' ps) :
    (s₁.put b a' ps).potential c + c.cost act ≤ s.potential c := by
  have hs' := hs.agent hfeeds hstep
  have hx := hs.extends_put hfeeds hstep
  have hself : (s₁.put b a' ps).agents b = a' := agents_put_self ..
  have hother : ∀ a, a ≠ b → (s₁.put b a' ps).agents a = s.agents a :=
    fun a ha => hfeeds.agents_put ha a' ps
  obtain ⟨q, hq, hqmain, hqworker⟩ := @Feeds.paid sc c s s₁ hs b act act' hfeeds
  have hlocal := @agent_local sc c s _ s₁ hs hs' hx b act act' a' ps q hfeeds hstep hself hother
    hqmain hqworker
  have hmain : ∑ a, c.main ((s₁.put b a' ps).agents a).main + c.main (s.agents b).main =
      ∑ a, c.main (s.agents a).main + c.main a'.main := by
    refine sum_add_eq b ?_ fun a ha => by rw [hother a ha]
    rw [hself]
    exact Nat.add_comm _ _
  have hnet : ((s₁.put b a' ps).net.map ((s₁.put b a' ps).price c)).sum =
      (ps.map ((s₁.put b a' ps).price c)).sum + (s₁.net.map (s.price c)).sum := by
    rw [net_put, List.map_append, List.sum_append]
    congr 2
    refine List.map_congr_left fun p hp => ?_
    exact price_extends hs hs' hx (hs.net (hfeeds.net hp))
  have hsent : c.send * (s₁.put b a' ps).sent.length =
      c.send * ps.length + c.send * s.sent.length := by
    rw [hfeeds.sent_put, List.length_append, Nat.mul_add]
  have hnot : (s₁.put b a' ps).notifiers = s.notifiers := hfeeds.notifiers
  unfold potential
  rw [hnot]
  omega

theorem price_le {s : System sc} (hs : NetInv s) {p : Packet} (hp : p ∈ s.sent) :
    s.price c p ≤ 5 * c.step + (4 * c.step + c.send) * sc.longest := by
  cases hs.sent p hp with
  | syn u m a rest src hhop hsrc hup =>
    rw [price_toMain s rfl]
    exact Nat.le_add_right _ _
  | ack u a src hall hans =>
    rw [price_toMain s rfl]
    exact Nat.le_add_right _ _
  | synAck u m src dst hdst hall hans =>
    have hm : m ≤ (sc.update u).hops.length := by
      cases m with
      | zero => exact Nat.zero_le _
      | succ m =>
        obtain ⟨a, port, hhop, -⟩ := hdst
        exact (List.getElem?_eq_some_iff.mp hhop).1
    have hlong : (sc.update u).hops.length ≤ sc.longest :=
      Finset.le_sup (f := fun u => (sc.update u).hops.length) (Finset.mem_univ u)
    have hmul := Nat.mul_le_mul_left (4 * c.step + c.send) (hm.trans hlong)
    rw [price_serves hs hdst, Prices.synAck]
    omega

/-- A step outside the agents changes the price of no datagram. -/
theorem price_of_agents {s s' : System sc} (h : s'.agents = s.agents) (p : Packet) :
    s'.price c p = s.price c p := by
  have hserves : ∀ u m x, Serves s' u m x ↔ Serves s u m x := by
    intro u m x
    cases m with
    | zero => exact Iff.rfl
    | succ m =>
      unfold Serves
      rw [h]
  rw [price, price, relays, relays]
  simp only [hserves]

theorem potential_of_agents {s s' : System sc} (h : s'.agents = s.agents) :
    s'.potential c = c.send * s'.sent.length + (s'.net.map (s.price c)).sum
      + ∑ a, c.main (s.agents a).main + ∑ u, c.notifier (s'.notifiers u)
      + ∑ h : sc.Hop, hopPrice c h (s.agents h.addr).workers := by
  unfold potential
  rw [funext (price_of_agents h), h]

theorem notifiers_set (s : System sc) (u : Fin sc.n) (pc : NotifyPc) :
    ∑ v, c.notifier (Function.update s.notifiers u pc v) + c.notifier (s.notifiers u) =
      ∑ v, c.notifier (s.notifiers v) + c.notifier pc := by
  refine sum_add_eq u ?_ fun v hv => by rw [Function.update_of_ne hv]
  rw [Function.update_self]
  exact Nat.add_comm _ _

theorem price_erase (s : System sc) {p : Packet} (hp : p ∈ s.net) :
    s.price c p + ((s.net.erase p).map (s.price c)).sum = (s.net.map (s.price c)).sum :=
  List.sum_map_erase _ hp

/-- **Every step pays its price.** -/
theorem pays {s s' : System sc} {act : SysAct sc.n} (hs : NetInv s) (hstep : Step s act s') :
    s'.potential c + c.cost act ≤ s.potential c + c.gain sc act := by
  have hcost := c.cost_le act
  have htoMain : c.toMain = 5 * c.step := rfl
  cases hstep with
  | agent b _ act' s₁ a' ps hfeeds halive hstep =>
    exact (agent_pays hs hfeeds hstep).trans (Nat.le_add_right _ _)
  | notify u hpc =>
    have hnot := @notifiers_set sc c s u .waiting
    rw [hpc, Prices.notifier, Prices.notifier] at hnot
    have hsyn := @price_toMain sc c s ⟨sc.sock u, mainSock (sc.update u).first,
      synBytes (sc.update u).key (sc.update u).seq (sc.update u).hops⟩ _ rfl
    rw [potential_of_agents (s := s) (by rfl), potential]
    simp only [send, setNotifier, List.singleton_append, List.length_cons, List.map_cons,
      List.sum_cons, Nat.mul_add, Nat.mul_one, hsyn]
    omega
  | notifyRecv u p old hpc hp hdst =>
    have hnot := @notifiers_set sc c s u (.received (recvfrom p old))
    rw [hpc, Prices.notifier, Prices.notifier] at hnot
    -- the initiator's ACK
    obtain ⟨hack, -, -⟩ := hs.notifyRecv old hp hdst
    have hpaid : s.price c p = c.synAck 0 := price_serves hs (m := 0) (u := u) hdst
    have hnet := @price_erase sc c s p hp
    have hsent : notifyAck (sc.update u).seq (recvfrom p old) =
        some (ackBytes (sc.update u).seq) := by
      rw [notifyAck, if_pos (by rw [hack.header]; exact ⟨rfl, rfl⟩), ackMesg_eq]
    have hmesg := @price_toMain sc c s ⟨sc.sock u, mainSock (sc.update u).first,
      ackBytes (sc.update u).seq⟩ _ rfl
    rw [hpaid, Prices.synAck] at hnet
    rw [hsent, packetOf, Option.map_some, Option.toList_some,
      potential_of_agents (s := s) (by rfl), potential]
    simp only [send, setNotifier, take, List.singleton_append, List.length_cons, List.map_cons,
      List.sum_cons, Nat.mul_add, Nat.mul_one, hmesg]
    omega
  | lose p hp =>
    have hnet := @price_erase sc c s p hp
    have hpaid : c.step ≤ s.price c p := by
      rw [price, Prices.toMain, Prices.synAck]
      split <;> omega
    rw [potential_of_agents (s := s) (by rfl), potential]
    simp only [take]
    omega
  | duplicate p hp =>
    have hle := @price_le sc c s hs p (hs.net hp)
    rw [potential_of_agents (s := s) (by rfl), potential, Prices.gain, SysAct.isDuplicate,
      if_pos rfl]
    simp only [List.map_cons, List.sum_cons]
    omega

/-! ### Whole runs -/

/-- Before an update has started, all of it is still to be paid. -/
theorem sum_start (k : Nat) (hk : 0 < k) :
    c.notifier .idle + ∑ j : Fin k, c.worker k j .start = c.update k := by
  obtain ⟨n, rfl⟩ : ∃ n, k = n + 1 := Nat.exists_eq_succ_of_ne_zero hk.ne'
  have hforward : ∀ j : Fin n, c.worker (n + 1) j.castSucc .start =
      c.step + c.send + c.toMain + c.forwardEnd := by
    intro j
    have hj : (j.castSucc : Nat) + 1 ≠ n + 1 := Nat.ne_of_lt (Nat.succ_lt_succ j.isLt)
    rw [Prices.worker, if_neg hj]
  have hlast : c.worker (n + 1) (Fin.last n) .start =
      c.step + 1000 * c.synAck (n + 1) + 2 * c.step := by
    rw [Prices.worker, Fin.val_last, if_pos rfl]
  rw [Fin.sum_univ_castSucc, Finset.sum_congr rfl fun j _ => hforward j, hlast, Finset.sum_const,
    Finset.card_univ, Fintype.card_fin, smul_eq_mul, Prices.notifier, Prices.update,
    Nat.add_sub_cancel]
  omega

theorem potential_idle {s : System sc} (h : s.Idle) :
    s.potential c = ∑ u, c.update (sc.update u).hops.length := by
  have hmain : ∑ a, c.main (s.agents a).main = 0 :=
    Finset.sum_eq_zero fun a _ => by rw [(h.agents a).main, Prices.main]
  have hhops : ∀ g : sc.Hop, hopPrice c g (s.agents g.addr).workers =
      c.worker (sc.update g.1).hops.length g.2 .start := by
    intro g
    rw [hopPrice, (h.agents _).workers, List.map_nil, if_neg List.not_mem_nil, pcPrice]
  rw [potential, h.sent, h.net, hmain, Finset.sum_congr rfl fun g _ => hhops g, Fintype.sum_sigma,
    List.map_nil, List.sum_nil, List.length_nil, Nat.mul_zero, Nat.zero_add, Nat.zero_add,
    ← Finset.sum_add_distrib]
  refine Finset.sum_congr rfl fun u _ => ?_
  rw [h.notifiers, sum_start _ (List.length_pos_of_ne_nil (sc.update u).nonempty)]

/-- What a run sends and does is paid by its updates and its duplicates. -/
theorem run_pays {s₀ s : System sc} {as : List (SysAct sc.n)} (h₀ : s₀.Idle)
    (hrun : run System.step s₀ as = some s) :
    c.send * s.sent.length + (as.map c.cost).sum ≤
      ∑ u, c.update (sc.update u).hops.length + (as.map (c.gain sc)).sum := by
  have hpay : s.potential c + (as.map c.cost).sum ≤ s₀.potential c + (as.map (c.gain sc)).sum :=
    run_potential hrun (NetInv.init h₀) (fun _ _ _ hs hstep => hs.step (step_sound hstep))
      fun _ _ _ hs hstep => pays hs (step_sound hstep)
  rw [potential_idle h₀] at hpay
  have hsent : c.send * s.sent.length ≤ s.potential c := by
    rw [potential]
    omega
  omega

theorem sum_map_count {α : Type*} {p : α → Bool} {x : Nat} (l : List α) :
    (l.map fun a => if p a then x else 0).sum = x * l.countP p := by
  induction l with
  | nil => rfl
  | cons a l ih =>
    rw [List.map_cons, List.sum_cons, ih, List.countP_cons]
    split
    · rw [Nat.mul_add, Nat.mul_one, Nat.add_comm]
    · rw [Nat.zero_add, Nat.add_zero]

/-- **The traffic of the handshake is bounded, and so are its steps.**  An update
    over `k` hops causes at most `1002 * k` datagrams, and a datagram that the
    network duplicates at most one more for each hop.  Apart from processes that
    end and from polls that find nothing, a run takes a bounded number of steps. -/
theorem traffic_bounded {s₀ s : System sc} {as : List (SysAct sc.n)} (h₀ : s₀.Idle)
    (hrun : run System.step s₀ as = some s) :
    s.sent.length ≤ ∑ u, 1002 * (sc.update u).hops.length
        + sc.longest * as.countP SysAct.isDuplicate ∧
      as.countP (fun act => !act.isExit) ≤ ∑ u, (4013 * (sc.update u).hops.length + 1001)
        + (4 * sc.longest + 6) * as.countP SysAct.isDuplicate := by
  have hpos : ∀ u, 0 < (sc.update u).hops.length :=
    fun u => List.length_pos_of_ne_nil (sc.update u).nonempty
  constructor
  · have hpay := run_pays (c := ⟨0, 1⟩) h₀ hrun
    have hupd : ∀ u, Prices.update ⟨0, 1⟩ (sc.update u).hops.length =
        1002 * (sc.update u).hops.length := by
      intro u
      have := hpos u
      simp only [Prices.update, Prices.toMain, Prices.forwardEnd, Prices.synAck]
      omega
    unfold Prices.gain Prices.cost at hpay
    have hgain : 6 * 0 + (4 * 0 + 1) * sc.longest = sc.longest := by omega
    rw [Finset.sum_congr rfl fun u _ => hupd u, sum_map_count, sum_map_count, hgain] at hpay
    dsimp only at hpay
    omega
  · have hpay := run_pays (c := ⟨1, 0⟩) h₀ hrun
    have hupd : ∀ u, Prices.update ⟨1, 0⟩ (sc.update u).hops.length =
        4013 * (sc.update u).hops.length + 1001 := by
      intro u
      have := hpos u
      simp only [Prices.update, Prices.toMain, Prices.forwardEnd, Prices.synAck]
      omega
    unfold Prices.gain Prices.cost at hpay
    have hgain : 6 * 1 + (4 * 1 + 0) * sc.longest = 4 * sc.longest + 6 := by omega
    rw [Finset.sum_congr rfl fun u _ => hupd u, sum_map_count, sum_map_count, hgain] at hpay
    dsimp only at hpay
    omega

theorem chain_duplicates : chainRun.countP SysAct.isDuplicate = 1 := by decide

theorem chain_longest : chainScenario.longest = 2 := by decide

/-- The chain of two hops, with one SYN-ACK duplicated. -/
theorem traffic_bounded_chain :
    ∃ s, run System.step (System.init chainScenario) chainRun = some s ∧
      s.sent.length ≤ 2006 ∧ chainRun.countP (fun act => !act.isExit) ≤ 9041 := by
  have hrun : (run System.step (System.init chainScenario) chainRun).isSome := by decide +kernel
  obtain ⟨s, hs⟩ := Option.isSome_iff_exists.mp hrun
  have hbound := traffic_bounded System.idle_init hs
  rw [chain_duplicates, chain_longest] at hbound
  exact ⟨s, hs, hbound⟩

end System

end MiddleboxSession
