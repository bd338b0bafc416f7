/-
  MiddleboxSession/DeploymentMemory.lean
  ======================================
  **The deployment with every table in memory**: the flow tables of the agents,
  the tables of the kernel modules of the two ends, and those of the two boxes.

  The hooks look their records up in memory and the netlink handlers change it;
  everything else is as in Deployment.lean.  Memory is never touched that is not
  allocated, and the deployment goes in lockstep with the one of that file
  (`DeploymentMem.lockstep`), so what Transit.lean says of its packets holds of
  the packets that the pointers in memory lead through it
  (`memory_loss_free`).
-/
import MiddleboxSession.AgentMemory
import MiddleboxSession.KernelMemory
import MiddleboxSession.Transit

namespace MiddleboxSession

open CBuffer UTHash Runs

/-! ### The hooks -/

section Hooks

variable {ι : Type} [DecidableEq ι]

namespace KernelMem

/-- `outgoing_begin`, with the key that the module looks up. -/
def outgoingHook (cs : Csum) (key : SkBuff → RecordKey) (k : KernelMem ι) (skb : SkBuff) :
    Option (Verdict × SkBuff) :=
  if skb.iph.protocol ≠ 0 ∧
      (skb.iph.protocol ≠ IPPROTO_UDP ∧ skb.iph.protocol ≠ IPPROTO_TCP) then some (.accept, skb)
  else if skb.iph.protocol = IPPROTO_TCP then do
    match ← lookup k (key skb) with
    | some p => pure (.accept, skb.rewriteDaddr cs p.dst)
    | none => pure (.accept, skb)
  else some (.accept, skb)

/-- `tcp_header_write_prerouting` of an endpoint. -/
def tcpHeaderWritePrerouting (key : SkBuff → RecordKey) (k : KernelMem ι) (skb : SkBuff) :
    Option SkBuff := do
  match ← lookup k (key skb) with
  | some p => pure (skb.setSaddr p.src)
  | none => pure skb

/-- `incoming_begin`, with the key that the module looks up. -/
def incomingHook (key : SkBuff → RecordKey) (k : KernelMem ι) (skb : SkBuff) :
    Option (Verdict × SkBuff) :=
  if skb.iph.protocol ≠ 0 ∧
      (skb.iph.protocol ≠ IPPROTO_UDP ∧ skb.iph.protocol ≠ IPPROTO_TCP) then some (.accept, skb)
  else if skb.iph.protocol = IPPROTO_TCP then
    (tcpHeaderWritePrerouting key k skb).map fun skb => (.accept, skb)
  else some (.accept, skb)

/-- `tcp_header_write_prerouting` of a middlebox. -/
def boxWritePrerouting (cs : Csum) (linearize : Bool) (k : KernelMem ι) (skb : SkBuff) :
    Option SkBuff := do
  match ← lookup k (Middlebox.sportKey skb) with
  | some p => pure (skb.rewriteDaddr cs p.dst)
  | none => do
    match ← lookup k (Middlebox.dportKey skb) with
    | some p => pure (if linearize then skb.rewriteDaddr cs p.dst else skb)
    | none => pure skb

/-- `incoming_change_begin`. -/
def incomingChangeBegin (cs : Csum) (linearize : Bool) (k : KernelMem ι) (skb : SkBuff) :
    Option (Verdict × SkBuff) :=
  if skb.iph.protocol ≠ 0 ∧
      (skb.iph.protocol ≠ IPPROTO_UDP ∧ skb.iph.protocol ≠ IPPROTO_TCP) then some (.accept, skb)
  else if skb.iph.protocol = IPPROTO_TCP then
    (boxWritePrerouting cs linearize k skb).map fun skb => (.stolen, skb)
  else some (.accept, skb)

/-- `tcp_header_rewrite`. -/
def tcpHeaderRewrite (cs : Csum) (k : KernelMem ι) (skb : SkBuff) : Option (Option SkBuff) := do
  match ← lookup k (Middlebox.dportKey skb) with
  | some p => pure (some (skb.rewriteSaddr cs p.src))
  | none => do
    match ← lookup k (Middlebox.sportKey skb) with
    | some p => pure (some (skb.rewriteSaddr cs p.src))
    | none => pure (some skb)

/-- `outgoing_change_begin`. -/
def outgoingChangeBegin (cs : Csum) (k : KernelMem ι) (skb : SkBuff) :
    Option (Verdict × SkBuff) :=
  if skb.iph.protocol ≠ 0 ∧
      (skb.iph.protocol ≠ IPPROTO_UDP ∧ skb.iph.protocol ≠ IPPROTO_TCP) then some (.accept, skb)
  else if skb.iph.protocol = IPPROTO_TCP then do
    match ← tcpHeaderRewrite cs k skb with
    | none => pure (.drop, skb)
    | some skb => pure (.stolen, skb)
  else some (.accept, skb)

variable {k : KernelMem ι} {t : KernelTable} (h : HashMem.Refines k t)

include h

theorem lookup_eq (key : RecordKey) : lookup k key = some (hashFind t key) := h.lookup key

theorem outgoingHook_eq (cs : Csum) (key : SkBuff → RecordKey) (skb : SkBuff) :
    outgoingHook cs key k skb = some (MiddleboxSession.outgoingHook cs key t skb) := by
  unfold outgoingHook MiddleboxSession.outgoingHook
  split
  · rfl
  split
  · rw [lookup_eq h]
    cases hashFind t (key skb) <;> rfl
  · rfl

theorem incomingHook_eq (key : SkBuff → RecordKey) (skb : SkBuff) :
    incomingHook key k skb = some (MiddleboxSession.incomingHook key t skb) := by
  unfold incomingHook MiddleboxSession.incomingHook tcpHeaderWritePrerouting
    MiddleboxSession.tcpHeaderWritePrerouting
  split
  · rfl
  split
  · rw [lookup_eq h]
    cases hashFind t (key skb) <;> rfl
  · rfl

theorem incomingChangeBegin_eq (cs : Csum) (linearize : Bool) (skb : SkBuff) :
    incomingChangeBegin cs linearize k skb =
      some (Middlebox.incomingChangeBegin cs linearize t skb) := by
  unfold incomingChangeBegin Middlebox.incomingChangeBegin boxWritePrerouting
    Middlebox.tcpHeaderWritePrerouting
  split
  · rfl
  split
  · rw [lookup_eq h, lookup_eq h]
    cases hashFind t (Middlebox.sportKey skb) with
    | some p => rfl
    | none => cases hashFind t (Middlebox.dportKey skb) <;> rfl
  · rfl

theorem outgoingChangeBegin_eq (cs : Csum) (skb : SkBuff) :
    outgoingChangeBegin cs k skb = some (Middlebox.outgoingChangeBegin cs t skb) := by
  unfold outgoingChangeBegin Middlebox.outgoingChangeBegin tcpHeaderRewrite
    Middlebox.tcpHeaderRewrite
  split
  · rfl
  split
  · rw [lookup_eq h, lookup_eq h]
    cases hashFind t (Middlebox.dportKey skb) with
    | some p => rfl
    | none => cases hashFind t (Middlebox.sportKey skb) <;> rfl
  · rfl

end KernelMem

/-- The hooks that a packet passes, one after the other. -/
def throughMem (hooks : List (SkBuff → Option (Verdict × SkBuff))) (skb : SkBuff) :
    Option (Option SkBuff) :=
  match hooks with
  | [] => some (some skb)
  | hook :: hooks => do
    match passed (← hook skb) with
    | none => pure none
    | some skb => throughMem hooks skb

theorem throughMem_eq {hooks : List (SkBuff → Option (Verdict × SkBuff))}
    {hooks' : List (SkBuff → Verdict × SkBuff)}
    (h : List.Forall₂ (fun hook hook' => ∀ skb, hook skb = some (hook' skb)) hooks hooks')
    (skb : SkBuff) : throughMem hooks skb = some (through hooks' skb) := by
  induction h generalizing skb with
  | nil => rfl
  | cons hhook _ ih =>
    rw [throughMem, hhook, through_cons]
    simp only [Option.bind_eq_bind, Option.bind_some]
    cases passed _ with
    | none => rfl
    | some skb' => exact ih skb'

namespace Middlebox

/-- `pkt_mangle_init` of the module of a box that sends from `src`. -/
def loadFrom (kmalloc : Nat → List ι → ι) (src : Addr) (k : KernelMem ι) : Option (KernelMem ι) := do
  let k ← KernelMem.insert kmalloc k { toServer with src := src }
  KernelMem.insert kmalloc k { toClient with src := src }

def hooksMem (cs : Csum) (k : KernelMem ι) : List (SkBuff → Option (Verdict × SkBuff)) :=
  [KernelMem.incomingChangeBegin cs true k, KernelMem.outgoingChangeBegin cs k]

theorem refines_loadFrom {kmalloc : Nat → List ι → ι} (hfresh : ∀ n live, kmalloc n live ∉ live)
    (src : Addr) {k : KernelMem ι} (hk : k.Empty) :
    ∃ k', loadFrom kmalloc src k = some k' ∧ HashMem.Refines k' (tableFrom src) := by
  obtain ⟨k₁, h₁, hr₁⟩ :=
    KernelMem.refines_insert hfresh hk.refines { toServer with src := src }
  obtain ⟨k₂, h₂, hr₂⟩ := KernelMem.refines_insert hfresh hr₁ { toClient with src := src }
  refine ⟨k₂, ?_, hr₂⟩
  simp only [loadFrom, h₁, h₂, Option.bind_eq_bind, Option.bind_some]

theorem throughMem_hooksMem {k : KernelMem ι} {src : Addr}
    (h : HashMem.Refines k (tableFrom src)) (cs : Csum) (skb : SkBuff) :
    throughMem (hooksMem cs k) skb = some (through (hooksFrom cs src) skb) :=
  throughMem_eq (.cons (KernelMem.incomingChangeBegin_eq h cs true)
    (.cons (KernelMem.outgoingChangeBegin_eq h cs) .nil)) skb

end Middlebox

namespace Side

def kernelModule : Side → KernelModule
  | client => .client
  | server => .server

def outKey : Side → SkBuff → RecordKey
  | client => Client.outKey
  | server => Server.outKey

def inKey : Side → SkBuff → RecordKey
  | client => Client.inKey
  | server => Server.inKey

theorem outgoingBegin_eq (side : Side) (cs : Csum) (t : KernelTable) (skb : SkBuff) :
    side.outgoingBegin cs t skb = outgoingHook cs side.outKey t skb := by cases side <;> rfl

theorem incomingBegin_eq (side : Side) (t : KernelTable) (skb : SkBuff) :
    side.incomingBegin t skb = incomingHook side.inKey t skb := by cases side <;> rfl

theorem refines_load {kmalloc : Nat → List ι → ι} (hfresh : ∀ n live, kmalloc n live ∉ live)
    (side : Side) {k : KernelMem ι} (hk : k.Empty) :
    ∃ k', side.kernelModule.loadMem kmalloc k = some k' ∧
      HashMem.Refines k' side.pktMangleInit := by
  obtain ⟨k', hk', hr⟩ := KernelModule.refines_loadMem hfresh side.kernelModule hk
  refine ⟨k', hk', ?_⟩
  cases side <;> exact hr

theorem refines_netlink {kmalloc : Nat → List ι → ι} (hfresh : ∀ n live, kmalloc n live ∉ live)
    (side : Side) {k : KernelMem ι} {t : KernelTable} (h : HashMem.Refines k t) (msg : String) :
    ∃ k', side.kernelModule.netlinkMem kmalloc k msg = some k' ∧
      HashMem.Refines k' (side.netlink t msg) := by
  cases side with
  | client => exact KernelModule.refines_clientNetlink hfresh h msg
  | server => exact KernelModule.refines_serverNetlink hfresh h msg

theorem refines_netlinks {kmalloc : Nat → List ι → ι} (hfresh : ∀ n live, kmalloc n live ∉ live)
    (side : Side) {k : KernelMem ι} {t : KernelTable} (h : HashMem.Refines k t)
    (msgs : List String) :
    ∃ k', msgs.foldlM (side.kernelModule.netlinkMem kmalloc) k = some k' ∧
      HashMem.Refines k' (msgs.foldl side.netlink t) := by
  induction msgs generalizing k t with
  | nil => exact ⟨k, rfl, h⟩
  | cons msg msgs ih =>
    obtain ⟨k₁, h₁, hr₁⟩ := side.refines_netlink hfresh h msg
    obtain ⟨k', hk', hr'⟩ := ih hr₁
    refine ⟨k', ?_, hr'⟩
    rw [List.foldlM_cons, h₁]
    exact hk'

end Side

end Hooks

/-! ### The deployment -/

/-- The module of the client's host, then the one of the server's. -/
def Side.sequence {α : Type} (f : Side → Option α) : Option (Side → α) := do
  let c ← f .client
  let s ← f .server
  pure fun
    | .client => c
    | .server => s

theorem Side.sequence_some {α : Type} {f : Side → Option α} {g : Side → α}
    (h : ∀ side, f side = some (g side)) : Side.sequence f = some g := by
  simp only [Side.sequence, h, Option.bind_eq_bind, Option.bind_some]
  exact congrArg some (funext fun side => by cases side <;> rfl)

structure DeploymentMem (sc : Scenario) (ι : Type) where
  sys : SystemMem sc ι
  table : Side → KernelMem ι
  box : Bool → KernelMem ι
  flight : List InFlight
  delivered : List Delivery

namespace DeploymentMem

variable {sc : Scenario} {ι : Type}

def put (m : DeploymentMem sc ι) (p : InFlight) : DeploymentMem sc ι :=
  { m with flight := p :: m.flight }

def take (m : DeploymentMem sc ι) (p : InFlight) : DeploymentMem sc ι :=
  { m with flight := m.flight.erase p }

def deliver (m : DeploymentMem sc ι) (p : InFlight) (got : SkBuff) : DeploymentMem sc ι :=
  { m.take p with delivered := ⟨p.side, p.sent, got⟩ :: m.delivered }

variable [DecidableEq ι] (malloc kmalloc : Addr → Nat → List ι → ι)

/-- The netlink handler of the module of an end. -/
def netlink (side : Side) : KernelMem ι → String → Option (KernelMem ι) :=
  side.kernelModule.netlinkMem (kmalloc side.host)

def step (cs : Csum) (m : DeploymentMem sc ι) :
    DeployAct sc.n → Option (Option (DeploymentMem sc ι))
  | .control act => do
    match ← m.sys.step malloc act with
    | none => pure none
    | some sys => do
      let table ← Side.sequence fun side =>
        (emitted m.sys.sys sys.sys side.host).foldlM (netlink kmalloc side) (m.table side)
      pure (some { m with sys := sys, table := table })
  | .operator side msg =>
    if msg ≠ "ACK" then do
      let k ← netlink kmalloc side (m.table side) msg
      pure (some { m with table := Function.update m.table side k })
    else some none
  | .send side skb =>
    if side.Sends skb then do
      let r ← KernelMem.outgoingHook cs side.outKey (m.table side) skb
      pure ((passed r).map fun skb' => m.put ⟨side, skb, .toBox, skb'⟩)
    else some none
  | .forward b p =>
    if p ∈ m.flight ∧ p.leg = .toBox ∧ p.skb.iph.daddr = path b then do
      let r ← throughMem (Middlebox.hooksMem cs (m.box b)) p.skb
      pure (r.map fun skb' => (m.take p).put { p with leg := .toPeer, skb := skb' })
    else some none
  | .receive p =>
    if p ∈ m.flight ∧ p.leg = .toPeer ∧ p.skb.iph.daddr = p.side.other.host then do
      let r ← KernelMem.incomingHook p.side.other.inKey (m.table p.side.other) p.skb
      pure ((passed r).map (m.deliver p))
    else some none
  | .lose p => some (if p ∈ m.flight then some (m.take p) else none)
  | .duplicate p => some (if p ∈ m.flight then some (m.put p) else none)

/-- The memory of every process and every module holds its table. -/
structure Holds (boxes : Boxes) (d : Deployment sc) (m : DeploymentMem sc ι) : Prop where
  sys : SystemMem.Holds d.sys m.sys
  table : ∀ side, HashMem.Refines (m.table side) (d.table side)
  box : ∀ b, HashMem.Refines (m.box b) (Middlebox.tableFrom (boxes.src b))
  flight : m.flight = d.flight
  delivered : m.delivered = d.delivered

section Holds

variable {boxes : Boxes} {d : Deployment sc} {m : DeploymentMem sc ι}

omit [DecidableEq ι]

theorem Holds.put (h : Holds boxes d m) (p : InFlight) : Holds boxes (d.put p) (m.put p) :=
  ⟨h.sys, h.table, h.box, congrArg (List.cons p) h.flight, h.delivered⟩

theorem Holds.take (h : Holds boxes d m) (p : InFlight) : Holds boxes (d.take p) (m.take p) :=
  ⟨h.sys, h.table, h.box, congrArg (List.erase · p) h.flight, h.delivered⟩

theorem Holds.deliver (h : Holds boxes d m) (p : InFlight) (got : SkBuff) :
    Holds boxes (d.deliver p got) (m.deliver p got) :=
  ⟨h.sys, h.table, h.box, congrArg (List.erase · p) h.flight,
    by rw [DeploymentMem.deliver, Deployment.deliver, h.delivered]⟩

/-- A hook on a packet: both machines do the same with what it passes on. -/
theorem Holds.map {o : Option SkBuff} {f : SkBuff → Deployment sc}
    {g : SkBuff → DeploymentMem sc ι} (h : ∀ skb, Holds boxes (f skb) (g skb)) :
    Option.Rel (Holds boxes) (o.map f) (o.map g) := by
  cases o with
  | none => exact .none
  | some skb => exact .some (h skb)

end Holds

section Lockstep

variable {malloc kmalloc} (hfresh : ∀ a n live, malloc a n live ∉ live)
  (hkfresh : ∀ a n live, kmalloc a n live ∉ live) {boxes : Boxes} {d : Deployment sc}
  {m : DeploymentMem sc ι}

include hkfresh in
/-- The handshake goes on, and the modules of the two ends handle what it has
    written to their netlink sockets. -/
theorem Holds.control (h : Holds boxes d m) {sys : System sc} {sys' : SystemMem sc ι}
    (hsys : SystemMem.Holds sys sys') :
    ∃ table, Side.sequence (fun side => (emitted m.sys.sys sys'.sys side.host).foldlM
        (netlink kmalloc side) (m.table side)) = some table ∧
      ∀ side, HashMem.Refines (table side)
        ((emitted d.sys sys side.host).foldl side.netlink (d.table side)) := by
  have hemitted : ∀ a, emitted m.sys.sys sys'.sys a = emitted d.sys sys a := by
    intro a
    rw [h.sys.sys, hsys.sys]
    rfl
  choose table htable hr using fun side =>
    Side.refines_netlinks (hkfresh side.host) side (h.table side) (emitted d.sys sys side.host)
  refine ⟨table, Side.sequence_some fun side => ?_, hr⟩
  rw [hemitted]
  exact htable side

include hfresh hkfresh

/-- **The memory of the deployment is safe, and makes no difference.** -/
theorem lockstep (cs : Csum) (boxes : Boxes) : Lockstep (@Holds sc ι boxes)
    (Deployment.step cs boxes) (step malloc kmalloc cs) := by
  intro d m act h
  cases act with
  | control act =>
    obtain ⟨r, hr, hrel⟩ := SystemMem.lockstep hfresh d.sys m.sys act h.sys
    simp only [step, Deployment.step, hr, Option.bind_eq_bind, Option.bind_some]
    generalize d.sys.step act = o at hrel
    cases hrel with
    | none => exact ⟨none, rfl, .none⟩
    | @some sys sys' hsys =>
      obtain ⟨table, htable, hrefines⟩ := h.control hkfresh hsys
      simp only [htable, Option.bind_some]
      exact ⟨_, rfl, .some ⟨hsys, hrefines, h.box, h.flight, h.delivered⟩⟩
  | operator side msg =>
    simp only [step, Deployment.step]
    split
    · obtain ⟨k', hk', hr⟩ := side.refines_netlink (hkfresh side.host) (h.table side) msg
      simp only [netlink, hk', Option.bind_eq_bind, Option.bind_some]
      refine ⟨_, rfl, .some ⟨h.sys, fun side' => ?_, h.box, h.flight, h.delivered⟩⟩
      dsimp only
      by_cases hside : side' = side
      · subst hside
        rw [Function.update_self, Function.update_self]
        exact hr
      · rw [Function.update_of_ne hside, Function.update_of_ne hside]
        exact h.table side'
    · exact ⟨none, rfl, .none⟩
  | send side skb =>
    simp only [step, Deployment.step, Side.outgoingBegin_eq]
    split
    · rw [KernelMem.outgoingHook_eq (h.table side)]
      exact ⟨_, rfl, Holds.map fun skb' => h.put _⟩
    · exact ⟨none, rfl, .none⟩
  | forward b p =>
    simp only [step, Deployment.step, h.flight]
    split
    · rw [Middlebox.throughMem_hooksMem (h.box b)]
      exact ⟨_, rfl, Holds.map fun skb' => (h.take p).put _⟩
    · exact ⟨none, rfl, .none⟩
  | receive p =>
    simp only [step, Deployment.step, h.flight, Side.incomingBegin_eq]
    split
    · rw [KernelMem.incomingHook_eq (h.table p.side.other)]
      exact ⟨_, rfl, Holds.map fun got => h.deliver p got⟩
    · exact ⟨none, rfl, .none⟩
  | lose p =>
    simp only [step, Deployment.step, h.flight]
    refine ⟨_, rfl, ?_⟩
    split
    · exact .some (h.take p)
    · exact .none
  | duplicate p =>
    simp only [step, Deployment.step, h.flight]
    refine ⟨_, rfl, ?_⟩
    split
    · exact .some (h.put p)
    · exact .none

end Lockstep

/-! ### Modules that have just been loaded -/

/-- The modules loaded into memory that holds nothing, and agents that have
    accepted nothing. -/
structure Fresh (boxes : Boxes) (m : DeploymentMem sc ι) : Prop where
  sys : m.sys.sys.Idle
  records : ∀ a, (m.sys.sys.agents a).records = FlowTable.empty
  flows : ∀ a, (m.sys.flows a).Empty
  table : ∀ side : Side, ∃ k : KernelMem ι, k.Empty ∧
    side.kernelModule.loadMem (kmalloc side.host) k = some (m.table side)
  box : ∀ b, ∃ k : KernelMem ι, k.Empty ∧
    Middlebox.loadFrom (kmalloc (path b)) (boxes.src b) k = some (m.box b)
  flight : m.flight = []
  delivered : m.delivered = []

variable {kmalloc} {boxes : Boxes} {m : DeploymentMem sc ι}

/-- The same with tables instead of memory. -/
def start (m : DeploymentMem sc ι) : Deployment sc := ⟨m.sys.sys, Side.pktMangleInit, [], []⟩

omit [DecidableEq ι] in
theorem fresh_start (h : m.sys.sys.Idle) : m.start.Fresh := ⟨h, rfl, rfl, rfl⟩

theorem Fresh.holds (hkfresh : ∀ a n live, kmalloc a n live ∉ live) (h : Fresh kmalloc boxes m) :
    Holds boxes m.start m := by
  refine ⟨⟨?_, ?_⟩, ?_, ?_, h.flight, h.delivered⟩
  · have hagents : m.sys.sys.agents = fun a => (m.sys.sys.agents a).erase := by
      funext a
      rw [Agent.erase, ← h.records a]
    rw [System.erase, start, ← hagents]
  · intro a
    rw [start, h.records a]
    exact (h.flows a).refines
  · intro side
    obtain ⟨k, hempty, hload⟩ := h.table side
    obtain ⟨k', hk', hr⟩ := side.refines_load (hkfresh side.host) hempty
    obtain rfl := Option.some.inj (hload.symm.trans hk')
    exact hr
  · intro b
    obtain ⟨k, hempty, hload⟩ := h.box b
    obtain ⟨k', hk', hr⟩ := Middlebox.refines_loadFrom (hkfresh (path b)) (boxes.src b) hempty
    obtain rfl := Option.some.inj (hload.symm.trans hk')
    exact hr

end DeploymentMem

theorem Deployment.counts {sc : Scenario} {cs : Csum} {boxes : Boxes} {d₀ d : Deployment sc}
    (h₀ : d₀.sys.Counts) (h : Reachable (Deployment.step cs boxes) d₀ d) : d.sys.Counts := by
  refine h.invariant (P := fun d => d.sys.Counts) h₀ fun x act x' _ hx hstep => ?_
  rcases Deployment.step_sys hstep with heq | ⟨act', hsys⟩
  · rw [heq]
    exact hx
  · exact (System.step_sound hsys).counts hx

/-! ### Migration, on memory -/

section Memory

variable {sc : Scenario} {ι : Type} [DecidableEq ι] {malloc kmalloc : Addr → Nat → List ι → ι}
  (cs : Csum) (boxes : Boxes) {m₀ m : DeploymentMem sc ι}

/-- The deployment on memory; a run ends where memory is touched that is not allocated. -/
def DeploymentMem.machine (malloc kmalloc : Addr → Nat → List ι → ι) (cs : Csum) :
    DeploymentMem sc ι → DeployAct sc.n → Option (DeploymentMem sc ι) :=
  unfaulted (DeploymentMem.step malloc kmalloc cs)

/-- **Migration on memory.**  Whatever addresses the allocators of the hosts hand
    out and whatever the memory held before: in every state that the deployment
    can reach no step touches memory that is not allocated; no outgoing record
    that a lookup reads points to the new box before both ends can be reached
    from it; no packet of the session is lost to the migration; and the counters
    of an agent's flow table have not wrapped if it is small. -/
theorem memory_loss_free (hfresh : ∀ a n live, malloc a n live ∉ live)
    (hkfresh : ∀ a n live, kmalloc a n live ∉ live) (hcov : sc.Covers)
    (h₀ : DeploymentMem.Fresh kmalloc boxes m₀)
    (h : Reachable (DeploymentMem.machine malloc kmalloc cs) m₀ m) :
    (∀ act, m.step malloc kmalloc cs act ≠ none) ∧
    (∀ side : Side, ∃ b,
      KernelMem.lookup (m.table side) (side.out 0).key = some (some (side.out (path b))) ∧
        (b = true → ∀ side' : Side, KernelMem.lookup (m.table side') (side'.back newBox).key =
          some (some (side'.back newBox)))) ∧
    (∀ side skb, Side.Sends side skb → ∃ skb', DeploymentMem.machine malloc kmalloc cs m
      (.send side skb) = some (m.put ⟨side, skb, .toBox, skb'⟩)) ∧
    (∀ p ∈ m.flight, ∃ acts m' got, acts.length ≤ 2 ∧
      run (DeploymentMem.machine malloc kmalloc cs) m acts = some m' ∧
        m'.delivered = ⟨p.side, p.sent, got⟩ :: m.delivered) ∧
    (∀ e ∈ m.delivered, e.side.Sends e.sent ∧ SameButChecks e.sent e.got) ∧
    ∀ a, (m.sys.flows a).Small → (m.sys.flows a).Unsigned := by
  have hlock : Lockstep (@DeploymentMem.Holds sc ι boxes) (Deployment.step cs boxes)
      (DeploymentMem.step malloc kmalloc cs) := DeploymentMem.lockstep hfresh hkfresh cs boxes
  obtain ⟨d, hd, hholds⟩ := hlock.back (h₀.holds hkfresh) h
  have hI : Deployment.Inv cs boxes d :=
    Deployment.Inv.reachable (DeploymentMem.fresh_start h₀.sys) hcov hd
  refine ⟨fun act => ?_, fun side => ?_, fun side skb hsend => ?_, fun p hp => ?_, ?_,
    fun a hsmall => ?_⟩
  · obtain ⟨r, hr, -⟩ := hlock d m act hholds
    rw [hr]
    exact Option.some_ne_none r
  · obtain ⟨b, n, hsession, hb, -⟩ := hI.table side
    have hkey : (side.out 0).key = (side.out (path b)).key := by cases side <;> rfl
    refine ⟨b, ?_, fun hact side' => ?_⟩
    · rw [KernelMem.lookup_eq (hholds.table side), hkey, hsession.find_out]
    · rw [KernelMem.lookup_eq (hholds.table side')]
      exact congrArg some ((hI.table side').find_back Boxes.each (b := true) fun _ => hb hact)
  · obtain ⟨b, -, hout⟩ := hI.send_eq hsend
    refine ⟨skb.rewriteDaddr cs (path b), ?_⟩
    rw [Side.outgoingBegin_eq] at hout
    simp only [DeploymentMem.machine, unfaulted, DeploymentMem.step, if_pos hsend,
      KernelMem.outgoingHook_eq (hholds.table side), hout]
    rfl
  · rw [hholds.flight] at hp
    obtain ⟨acts, d', got, hlen, hrun, hdelivered⟩ := hI.arrives hp
    obtain ⟨m', hrun', hholds'⟩ := hlock.forth hholds hrun
    refine ⟨acts, m', got, hlen, hrun', ?_⟩
    rw [hholds'.delivered, hdelivered, hholds.delivered]
  · rw [hholds.delivered]
    exact hI.delivered
  · have hcounts : d.sys.Counts := by
      refine Deployment.counts (fun b => ?_) hd
      rw [DeploymentMem.start, h₀.records b]
      exact Head.counts_none
    exact (hholds.sys.flows a).unsigned (hcounts a) hsmall

theorem DeploymentMem.exists_fresh (hkfresh : ∀ a n live, kmalloc a n live ∉ live)
    {flows : FlowMem ι} (hflows : flows.Empty) {k : KernelMem ι} (hk : k.Empty) :
    ∃ m₀ : DeploymentMem sc ι, DeploymentMem.Fresh kmalloc boxes m₀ ∧
      m₀.sys.sys = System.init sc := by
  choose table htable _ using fun side : Side => side.refines_load (hkfresh side.host) hk
  choose box hbox _ using fun b =>
    Middlebox.refines_loadFrom (hkfresh (path b)) (boxes.src b) hk
  exact ⟨⟨⟨System.init sc, fun _ => flows⟩, table, box, [], []⟩, ⟨System.idle_init, fun _ => rfl,
    fun _ => hflows, fun side => ⟨k, hk, htable side⟩, fun b => ⟨k, hk, hbox b⟩, rfl, rfl⟩, rfl⟩

end Memory

/-- The request and the reply of a migration, in memory that held garbage. -/
theorem memory_loss_free_migration : ∃ m₀ m : DeploymentMem migrationScenario Nat,
    run (DeploymentMem.machine (fun _ => HashMem.bump) (fun _ => HashMem.bump) Csum.standard) m₀
      migrationRun = some m ∧
    m.delivered.map Delivery.sent = [reply, request] ∧
    (∀ e ∈ m.delivered, SameButChecks e.sent e.got) ∧
    ∀ side : Side, KernelMem.lookup (m.table side) (side.back newBox).key =
      some (some (side.back newBox)) := by
  have hfresh : ∀ (_ : Addr) n live, HashMem.bump n live ∉ live := fun _ => HashMem.bump_notMem
  obtain ⟨m₀, h₀, hinit⟩ : ∃ m₀ : DeploymentMem migrationScenario Nat,
      DeploymentMem.Fresh (fun _ => HashMem.bump) Boxes.each m₀ ∧ m₀.sys.sys = System.init _ :=
    DeploymentMem.exists_fresh Boxes.each hfresh
      (HashMem.empty_fresh ⟨⟨⟨0, 0, 0, 0⟩, 7, 7⟩, ⟨some 3, some 1, some 2, some 1, none, 9⟩⟩)
      (HashMem.empty_fresh ⟨Server.back newBox, ⟨some 3, some 1, some 2, some 1, none, 9⟩⟩)
  have hstart : m₀.start = Deployment.init migrationScenario := by
    rw [DeploymentMem.start, hinit]
    rfl
  obtain ⟨d, hd, hdst, hsent⟩ := migrationRun_some
  obtain ⟨m, hm, hholds⟩ := (DeploymentMem.lockstep hfresh hfresh Csum.standard Boxes.each).forth
    (h₀.holds hfresh) (hstart ▸ hd)
  obtain ⟨-, hready, -, -, hdelivered, -⟩ := memory_loss_free Csum.standard Boxes.each hfresh hfresh
    migrationScenario_covers h₀ ⟨migrationRun, hm⟩
  obtain ⟨b, hlookup, hback⟩ := hready .server
  have hb : b = true := by
    rw [KernelMem.lookup_eq (hholds.table .server), Option.some_inj] at hlookup
    rw [hlookup, Option.map_some, Option.some_inj] at hdst
    exact path_injective hdst
  refine ⟨m₀, m, hm, ?_, fun e he => (hdelivered e he).2, hback hb⟩
  rw [hholds.delivered]
  exact hsent

end MiddleboxSession
