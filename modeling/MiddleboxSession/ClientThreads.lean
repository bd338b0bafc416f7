/-
  MiddleboxSession/ClientThreads.lean
  ===================================
  **The client module with its hooks running beside `netlink_agent`.**

  Every critical section of `my_rwlock` is one step: the four that a "RESET"
  consists of, the one of "ACK", the one of "SYN", and the lookup of a hook.
  A hook reads the record that it has found after it has released the lock, in
  a step of its own.  Messages are processed one at a time; any number of hooks
  run beside them.

  Records are known by the number of their allocation, which `kfree` does not
  give back.  A hook that reads a record that is no longer in the table reads
  freed memory: `undefined`.

  When no message is being processed the table is the one of `Client.table`
  (`ClientState.bag_idle`).
-/
import MiddleboxSession.ClientKernel
import MiddleboxSession.Runs

namespace MiddleboxSession

open CBuffer UTHash Runs

/-! ### The table in memory -/

/-- A record, and the allocation that it is in. -/
structure Cell where
  addr : Nat
  record : Record
deriving DecidableEq, Repr

def Cell.key (c : Cell) : RecordKey := c.record.key

abbrev CellTable := Head Cell.key recordHash

/-- What a pointer to a record reads. -/
def deref (records : CellTable) (p : Nat) : Option Record :=
  match records with
  | none => none
  | some t => ((UTHash.records t.buckets).find? fun c => c.addr = p).map Cell.record

/-! ### Critical sections -/

namespace Cells

/-- The section of `deleteHash`, which also frees the record. -/
def deleteHash (records : CellTable) (item : Record) : CellTable :=
  match hashFind records item.key with
  | some _ => hashDelete records item.key
  | none => records

/-- The section of `addHash`; it allocates the record when it adds it. -/
def addHash (records : CellTable) (allocs : Nat) (item : Record) : CellTable × Nat :=
  match hashFind records item.key with
  | none => (hashAdd records ⟨allocs, item⟩, allocs + 1)
  | some _ => (records, allocs)

/-- The section of "ACK". -/
def assignDst (records : CellTable) (key : RecordKey) (dst : Addr) : CellTable :=
  match hashFind records key with
  | some _ =>
    let write (c : Cell) : Cell := { c with record := { c.record with dst := dst } }
    hashUpdate records key write fun _ => rfl
  | none => records

end Cells

/-! ### The threads -/

/-- Where `netlink_agent` stands: in front of the section of its message, or of
    one of the four of "RESET". -/
inductive NetlinkPc where
  | idle
  | ack
  | syn
  | deleteOut
  | addOut
  | deleteBack
  | addBack
deriving DecidableEq, Repr

inductive Direction where
  | outgoing
  | incoming
deriving DecidableEq, Repr

/-- The key that the hook of a direction looks up. -/
def Direction.key : Direction → SkBuff → RecordKey
  | .outgoing => Client.outKey
  | .incoming => Client.inKey

/-- What the hook of a direction does with the record that it has found. -/
def Direction.rewrite (cs : Csum) : Direction → SkBuff → Record → SkBuff
  | .outgoing, skb, p => skb.rewriteDaddr cs p.dst
  | .incoming, skb, p => skb.setSaddr p.src

/-- Where a hook stands behind its lookup. -/
inductive HookPc where
  | holds (p : Nat)
  | missed
  | passed (skb : SkBuff)
  | undefined
deriving DecidableEq, Repr

/-- A hook that runs for a packet. -/
structure HookRun where
  direction : Direction
  skb : SkBuff
  pc : HookPc
deriving DecidableEq, Repr

def HookRun.key (h : HookRun) : RecordKey := h.direction.key h.skb

/-- The module: `allocs` is the number of allocations so far, `handled` the
    messages that have been processed. -/
structure ClientState where
  records : CellTable
  allocs : Nat
  netlink : NetlinkPc
  hooks : List HookRun
  handled : List String

/-- `pkt_mangle_init`. -/
def ClientState.loaded : ClientState where
  records := hashAdd (hashAdd none ⟨0, Client.out oldBox⟩) ⟨1, Client.back oldBox⟩
  allocs := 2
  netlink := .idle
  hooks := []
  handled := []

/-! ### Steps -/

inductive ClientAct where
  | message (msg : String)                      -- a message arrives
  | netlink                                     -- the next section of its processing
  | lookup (direction : Direction) (skb : SkBuff)
  | use (i : Nat)                               -- hook `i` goes on behind its lookup
deriving DecidableEq, Repr

namespace ClientState

def message (s : ClientState) (msg : String) : ClientState :=
  if msg = "ACK" then { s with netlink := .ack }
  else if msg = "SYN" then { s with netlink := .syn }
  else if msg = "RESET" then { s with netlink := .deleteOut }
  else { s with handled := s.handled ++ [msg] }

def finish (s : ClientState) (msg : String) : ClientState :=
  { s with netlink := .idle, handled := s.handled ++ [msg] }

/-- The next critical section of `netlink_agent`. -/
def netlinkStep (s : ClientState) : Option ClientState :=
  match s.netlink with
  | .idle => none
  | .ack => some ({ s with
      records := Cells.assignDst s.records (Client.out 0).key newBox }.finish "ACK")
  | .syn => some ({ s with
      records := hashAdd s.records ⟨s.allocs, Client.back newBox⟩
      allocs := s.allocs + 1 }.finish "SYN")
  | .deleteOut => some { s with
      records := Cells.deleteHash s.records (Client.out oldBox)
      netlink := .addOut }
  | .addOut =>
    let added := Cells.addHash s.records s.allocs (Client.out oldBox)
    some { s with records := added.1, allocs := added.2, netlink := .deleteBack }
  | .deleteBack => some { s with
      records := Cells.deleteHash s.records (Client.back oldBox)
      netlink := .addBack }
  | .addBack =>
    let added := Cells.addHash s.records s.allocs (Client.back oldBox)
    some ({ s with records := added.1, allocs := added.2 }.finish "RESET")

/-- The lookup of a hook, for a TCP packet. -/
def lookup (s : ClientState) (direction : Direction) (skb : SkBuff) : HookRun where
  direction := direction
  skb := skb
  pc := match hashFind s.records (direction.key skb) with
    | some c => .holds c.addr
    | none => .missed

/-- The rest of a hook, behind its lookup. -/
def finishHook (cs : Csum) (s : ClientState) (h : HookRun) : Option HookRun :=
  match h.pc with
  | .holds p =>
    match deref s.records p with
    | some r => some { h with pc := .passed (h.direction.rewrite cs h.skb r) }
    | none => some { h with pc := .undefined }
  | .missed => some { h with pc := .passed h.skb }
  | .passed _ | .undefined => none

def step (cs : Csum) (s : ClientState) : ClientAct → Option ClientState
  | .message msg => if s.netlink = .idle then some (s.message msg) else none
  | .netlink => s.netlinkStep
  | .lookup direction skb =>
    if skb.iph.protocol = IPPROTO_TCP then
      some { s with hooks := s.hooks ++ [s.lookup direction skb] }
    else none
  | .use i => s.hooks[i]?.bind fun h => (s.finishHook cs h).map fun h' =>
      { s with hooks := s.hooks.set i h' }

end ClientState

/-! ### Pointers -/

theorem deref_eq_some {records : CellTable} {p : Nat} {r : Record}
    (h : deref records p = some r) : ∃ c ∈ bag records, c.addr = p ∧ c.record = r := by
  cases records with
  | none => cases h
  | some t =>
    obtain ⟨c, hc, hr⟩ := Option.map_eq_some_iff.mp h
    exact ⟨c, List.mem_of_find?_eq_some hc, by simpa using List.find?_some hc, hr⟩

theorem deref_eq_none {records : CellTable} {p : Nat} :
    deref records p = none ↔ ∀ c ∈ bag records, c.addr ≠ p := by
  cases records with
  | none => simp [deref]
  | some t => simp [deref, bag]

/-! ### What the table holds -/

/-- The key of the record that the next section deletes. -/
def NetlinkPc.deletes : NetlinkPc → Option RecordKey
  | .deleteOut => some (Client.out oldBox).key
  | .deleteBack => some (Client.back oldBox).key
  | .idle | .ack | .syn | .addOut | .addBack => none

/-- The key of the record that is deleted and not yet added again. -/
def NetlinkPc.missing : NetlinkPc → Option RecordKey
  | .addOut => some (Client.out oldBox).key
  | .addBack => some (Client.back oldBox).key
  | .idle | .ack | .syn | .deleteOut | .deleteBack => none

def NetlinkPc.contents (pc : NetlinkPc) (b : Bool) (n : Nat) : Multiset Record :=
  match pc with
  | .addOut => Client.back oldBox ::ₘ Multiset.replicate n (Client.back newBox)
  | .addBack => Client.out (path b) ::ₘ Multiset.replicate n (Client.back newBox)
  | .idle | .ack | .syn | .deleteOut | .deleteBack =>
    Client.out (path b) ::ₘ Client.back oldBox ::ₘ Multiset.replicate n (Client.back newBox)

namespace Cells

variable {records : CellTable} {item r : Record} {rest : Multiset Record}

/-- Where one record has the key, the cell that is found holds it. -/
theorem find_cell (hR : (bag records).map Cell.record = r ::ₘ rest) (hr : r.key = item.key)
    (hrest : ∀ r' ∈ rest, r'.key ≠ item.key) :
    ∃ c, hashFind records item.key = some c ∧ c.record = r := by
  have hmem : r ∈ (bag records).map Cell.record := hR ▸ Multiset.mem_cons_self r rest
  obtain ⟨c₀, hc₀, hrec₀⟩ := Multiset.mem_map.mp hmem
  cases hfind : hashFind records item.key with
  | none =>
    have hkey : c₀.key = item.key := by rw [Cell.key, hrec₀, hr]
    exact absurd hkey (hashFind_eq_none.mp hfind c₀ hc₀)
  | some c =>
    obtain ⟨hc, hkey⟩ := hashFind_eq_some hfind
    have hcr : c.record ∈ r ::ₘ rest := hR ▸ Multiset.mem_map_of_mem _ hc
    refine ⟨c, rfl, ?_⟩
    rcases Multiset.mem_cons.mp hcr with hcr | hcr
    · exact hcr
    · exact absurd hkey (hrest _ hcr)

theorem deleteHash_spec (hR : (bag records).map Cell.record = r ::ₘ rest)
    (hr : r.key = item.key) (hrest : ∀ r' ∈ rest, r'.key ≠ item.key) :
    ∃ c, c.record = r ∧ bag records = c ::ₘ bag (deleteHash records item) ∧
      (bag (deleteHash records item)).map Cell.record = rest := by
  obtain ⟨c, hfind, hc⟩ := find_cell hR hr hrest
  have hbag : bag records = c ::ₘ bag (deleteHash records item) := by
    rw [deleteHash, hfind]
    exact bag_hashDelete hfind
  refine ⟨c, hc, hbag, ?_⟩
  rw [hbag, Multiset.map_cons, hc] at hR
  exact (Multiset.cons_inj_right r).mp hR

theorem addHash_spec (allocs : Nat)
    (hR : ∀ r ∈ (bag records).map Cell.record, r.key ≠ item.key) :
    addHash records allocs item = (hashAdd records ⟨allocs, item⟩, allocs + 1) := by
  have hnone : hashFind records item.key = none := by
    refine hashFind_eq_none.mpr fun c hc => ?_
    exact hR c.record (Multiset.mem_map_of_mem _ hc)
  rw [addHash, hnone]

theorem assignDst_spec (dst : Addr) (hR : (bag records).map Cell.record = r ::ₘ rest)
    (hrest : ∀ r' ∈ rest, r'.key ≠ r.key) :
    ∃ c cs, c.record = r ∧ bag records = c ::ₘ cs ∧ cs.map Cell.record = rest ∧
      bag (assignDst records r.key dst) = ⟨c.addr, { r with dst := dst }⟩ ::ₘ cs := by
  obtain ⟨c, hfind, hc⟩ := find_cell hR rfl hrest
  obtain ⟨cs, hold, hnew⟩ := bag_hashUpdate hfind
    (fun c => { c with record := { c.record with dst := dst } }) fun _ => rfl
  subst hc
  refine ⟨c, cs, rfl, hold, ?_, ?_⟩
  · rw [hold, Multiset.map_cons] at hR
    exact (Multiset.cons_inj_right c.record).mp hR
  · rw [assignDst, hfind]
    exact hnew

end Cells

namespace ClientState

/-- Whether the outgoing record points to the new path: a "RESET" takes effect
    with its second section. -/
def activated (s : ClientState) : Bool :=
  match s.netlink with
  | .deleteBack | .addBack => false
  | .idle | .ack | .syn | .deleteOut | .addOut => Client.activated s.handled

def Contents (s : ClientState) : Prop :=
  (bag s.records).map Cell.record =
    s.netlink.contents s.activated (s.handled.count "SYN")

/-- What a section does to the table. -/
inductive TableMove (s s' : ClientState) : Prop
  | insert (item : Record) (hpc : s.netlink.deletes = none)
      (hbag : bag s'.records = ⟨s.allocs, item⟩ ::ₘ bag s.records)
      (hallocs : s'.allocs = s.allocs + 1)
  | assign (c c' : Cell) (rest : Multiset Cell) (hpc : s.netlink.deletes = none)
      (hold : bag s.records = c ::ₘ rest) (hnew : bag s'.records = c' ::ₘ rest)
      (haddr : c'.addr = c.addr) (hkey : c'.key = c.key) (hallocs : s'.allocs = s.allocs)
  | remove (c : Cell) (hpc : s.netlink.deletes = some c.key)
      (hbag : bag s.records = c ::ₘ bag s'.records)
      (honly : ∀ c' ∈ bag s'.records, c'.key ≠ c.key) (hallocs : s'.allocs = s.allocs)

section Sections

variable {s s' : ClientState}

/-- The copies of the record back from the new path have a key of their own. -/
theorem copies_key {n : Nat} {k : RecordKey} (hk : k ≠ (Client.back newBox).key) {r : Record}
    (hr : r ∈ Multiset.replicate n (Client.back newBox)) : r.key ≠ k := by
  rw [Multiset.eq_of_mem_replicate hr]
  exact hk.symm

theorem others_key {n : Nat} {k : RecordKey} {r₀ : Record} (hk₀ : k ≠ r₀.key)
    (hk : k ≠ (Client.back newBox).key) {r : Record}
    (hr : r ∈ r₀ ::ₘ Multiset.replicate n (Client.back newBox)) : r.key ≠ k := by
  rcases Multiset.mem_cons.mp hr with rfl | hr
  · exact hk₀.symm
  · exact copies_key hk hr

theorem ack_sound (hC : s.Contents) (hpc : s.netlink = .ack) (h : s.netlinkStep = some s') :
    s'.Contents ∧ s'.hooks = s.hooks ∧ TableMove s s' := by
  simp only [netlinkStep, hpc, Option.some_inj] at h
  subst h
  simp only [Contents, hpc, NetlinkPc.contents] at hC
  obtain ⟨c, cs, hc, hold, hcs, hnew⟩ := Cells.assignDst_spec newBox hC fun r hr =>
    others_key (by decide : (Client.out 0).key ≠ _) (by decide) hr
  refine ⟨?_, rfl, .assign c _ cs (by rw [hpc]; rfl) hold hnew rfl ?_ rfl⟩
  · have hact : Client.activated (s.handled ++ ["ACK"]) = true := Client.activated_concat _ _
    have hcount : (s.handled ++ ["ACK"]).count "SYN" = s.handled.count "SYN" := by
      simp [List.count_append]
    simp only [Contents, finish, NetlinkPc.contents, activated, hact, hcount]
    exact (congrArg _ hnew).trans (by rw [Multiset.map_cons, hcs]; rfl)
  · rw [Cell.key, Cell.key, hc]

theorem syn_sound (hC : s.Contents) (hpc : s.netlink = .syn) (h : s.netlinkStep = some s') :
    s'.Contents ∧ s'.hooks = s.hooks ∧ TableMove s s' := by
  simp only [netlinkStep, hpc, Option.some_inj] at h
  subst h
  simp only [Contents, hpc, NetlinkPc.contents, activated] at hC
  have hbag := bag_hashAdd s.records ⟨s.allocs, Client.back newBox⟩
  refine ⟨?_, rfl, .insert _ (by rw [hpc]; rfl) hbag rfl⟩
  have hact : Client.activated (s.handled ++ ["SYN"]) = Client.activated s.handled :=
    Client.activated_concat _ _
  have hcount : (s.handled ++ ["SYN"]).count "SYN" = s.handled.count "SYN" + 1 := by
    simp [List.count_append]
  simp only [Contents, finish, NetlinkPc.contents, activated, hact, hcount]
  rw [hbag, Multiset.map_cons, hC, Multiset.replicate_succ, Multiset.cons_swap,
    Multiset.cons_swap (Client.back newBox)]

theorem deleteOut_sound (hC : s.Contents) (hpc : s.netlink = .deleteOut)
    (h : s.netlinkStep = some s') : s'.Contents ∧ s'.hooks = s.hooks ∧ TableMove s s' := by
  simp only [netlinkStep, hpc, Option.some_inj] at h
  subst h
  simp only [Contents, hpc, NetlinkPc.contents] at hC
  have hothers : ∀ r ∈ Client.back oldBox ::ₘ
      Multiset.replicate (s.handled.count "SYN") (Client.back newBox),
      r.key ≠ (Client.out oldBox).key :=
    fun r hr => others_key (by decide) (by decide) hr
  obtain ⟨c, hc, hbag, hrest⟩ := Cells.deleteHash_spec hC rfl hothers
  have hkey : c.key = (Client.out oldBox).key := by rw [Cell.key, hc]; rfl
  refine ⟨hrest, rfl, .remove c (by rw [hpc, hkey]; rfl) hbag (fun c' hc' => ?_) rfl⟩
  rw [hkey]
  exact hothers _ (hrest ▸ Multiset.mem_map_of_mem _ hc')

theorem addOut_sound (hC : s.Contents) (hpc : s.netlink = .addOut)
    (h : s.netlinkStep = some s') : s'.Contents ∧ s'.hooks = s.hooks ∧ TableMove s s' := by
  simp only [netlinkStep, hpc, Option.some_inj] at h
  simp only [Contents, hpc, NetlinkPc.contents] at hC
  rw [Cells.addHash_spec s.allocs fun r hr =>
    others_key (by decide) (by decide) (hC ▸ hr)] at h
  subst h
  have hbag := bag_hashAdd s.records ⟨s.allocs, Client.out oldBox⟩
  refine ⟨?_, rfl, .insert _ (by rw [hpc]; rfl) hbag rfl⟩
  simp only [Contents, NetlinkPc.contents, activated]
  rw [hbag, Multiset.map_cons, hC]
  rfl

theorem deleteBack_sound (hC : s.Contents) (hpc : s.netlink = .deleteBack)
    (h : s.netlinkStep = some s') : s'.Contents ∧ s'.hooks = s.hooks ∧ TableMove s s' := by
  simp only [netlinkStep, hpc, Option.some_inj] at h
  subst h
  simp only [Contents, hpc, NetlinkPc.contents, activated] at hC
  rw [Multiset.cons_swap] at hC
  have hothers : ∀ r ∈ Client.out (path false) ::ₘ
      Multiset.replicate (s.handled.count "SYN") (Client.back newBox),
      r.key ≠ (Client.back oldBox).key :=
    fun r hr => others_key (by decide) (by decide) hr
  obtain ⟨c, hc, hbag, hrest⟩ := Cells.deleteHash_spec hC rfl hothers
  have hkey : c.key = (Client.back oldBox).key := by rw [Cell.key, hc]
  refine ⟨hrest, rfl, .remove c (by rw [hpc, hkey]; rfl) hbag (fun c' hc' => ?_) rfl⟩
  rw [hkey]
  exact hothers _ (hrest ▸ Multiset.mem_map_of_mem _ hc')

theorem addBack_sound (hC : s.Contents) (hpc : s.netlink = .addBack)
    (h : s.netlinkStep = some s') : s'.Contents ∧ s'.hooks = s.hooks ∧ TableMove s s' := by
  simp only [netlinkStep, hpc, Option.some_inj] at h
  simp only [Contents, hpc, NetlinkPc.contents, activated] at hC
  rw [Cells.addHash_spec s.allocs fun r hr =>
    others_key (by decide) (by decide) (hC ▸ hr)] at h
  subst h
  have hbag := bag_hashAdd s.records ⟨s.allocs, Client.back oldBox⟩
  refine ⟨?_, rfl, .insert _ (by rw [hpc]; rfl) hbag rfl⟩
  have hact : Client.activated (s.handled ++ ["RESET"]) = false := Client.activated_concat _ _
  have hcount : (s.handled ++ ["RESET"]).count "SYN" = s.handled.count "SYN" := by
    simp [List.count_append]
  simp only [Contents, finish, NetlinkPc.contents, activated, hact, hcount]
  rw [hbag, Multiset.map_cons, hC, Multiset.cons_swap]

/-- **What a section of `netlink_agent` does**: it takes a table of the session to
    the next one, and adds, changes or removes one record. -/
theorem netlinkStep_sound (hC : s.Contents) (h : s.netlinkStep = some s') :
    s'.Contents ∧ s'.hooks = s.hooks ∧ TableMove s s' := by
  cases hpc : s.netlink with
  | idle =>
    rw [netlinkStep, hpc] at h
    cases h
  | ack => exact ack_sound hC hpc h
  | syn => exact syn_sound hC hpc h
  | deleteOut => exact deleteOut_sound hC hpc h
  | addOut => exact addOut_sound hC hpc h
  | deleteBack => exact deleteBack_sound hC hpc h
  | addBack => exact addBack_sound hC hpc h

end Sections

/-! ### What a step can do -/

inductive Step (cs : Csum) (s : ClientState) : ClientAct → ClientState → Prop
  | message (msg : String) (hidle : s.netlink = .idle) :
      Step cs s (.message msg) (s.message msg)
  | netlink (s' : ClientState) (h : s.netlinkStep = some s') : Step cs s .netlink s'
  | lookup (direction : Direction) (skb : SkBuff) (htcp : skb.iph.protocol = IPPROTO_TCP) :
      Step cs s (.lookup direction skb)
        { s with hooks := s.hooks ++ [s.lookup direction skb] }
  | use (i : Nat) (h h' : HookRun) (hi : s.hooks[i]? = some h)
      (hfinish : s.finishHook cs h = some h') :
      Step cs s (.use i) { s with hooks := s.hooks.set i h' }

theorem step_sound {cs : Csum} {s s' : ClientState} {act : ClientAct}
    (h : s.step cs act = some s') : Step cs s act s' := by
  cases act with
  | message msg =>
    simp only [step] at h
    split at h <;> cases h
    exact .message msg ‹_›
  | netlink => exact .netlink s' h
  | lookup direction skb =>
    simp only [step] at h
    split at h <;> cases h
    exact .lookup direction skb ‹_›
  | use i =>
    obtain ⟨hook, hi, hmap⟩ := Option.bind_eq_some_iff.mp h
    obtain ⟨hook', hfinish, rfl⟩ := Option.map_eq_some_iff.mp hmap
    exact .use i hook hook' hi hfinish

/-- A message that arrives changes no record. -/
theorem Contents.message {s : ClientState} (hC : s.Contents) (hidle : s.netlink = .idle)
    (msg : String) : (s.message msg).Contents := by
  simp only [Contents, hidle, NetlinkPc.contents, activated] at hC
  unfold ClientState.message
  split
  · exact hC
  rename_i hack
  split
  · exact hC
  rename_i hsyn
  split
  · exact hC
  rename_i hreset
  have hact : Client.activated (s.handled ++ [msg]) = Client.activated s.handled := by
    rw [Client.activated_concat, if_neg hack, if_neg hreset]
  have hcount : (s.handled ++ [msg]).count "SYN" = s.handled.count "SYN" := by
    simp [List.count_append, hsyn]
  simp only [Contents, hidle, NetlinkPc.contents, activated, hact, hcount]
  exact hC

/-! ### Allocations -/

/-- Allocations have numbers of their own, and the address of a record that a hook
    has found holds that key or nothing. -/
structure MemOk (s : ClientState) : Prop where
  contents : s.Contents
  addrs : ((bag s.records).map Cell.addr).Nodup
  bound : ∀ c ∈ bag s.records, c.addr < s.allocs
  heldBound : ∀ h ∈ s.hooks, ∀ p, h.pc = .holds p → p < s.allocs
  heldKey : ∀ h ∈ s.hooks, ∀ p, h.pc = .holds p → ∀ c ∈ bag s.records, c.addr = p →
    c.key = h.key

theorem MemOk.loaded : MemOk loaded := by
  have hbag : bag ClientState.loaded.records = ⟨1, Client.back oldBox⟩ ::ₘ {⟨0, Client.out oldBox⟩} := by
    rw [ClientState.loaded, bag_hashAdd, bag_hashAdd]
    rfl
  refine ⟨?_, ?_, ?_, ?_, ?_⟩
  · rw [Contents, hbag, Multiset.map_cons, Multiset.map_singleton]
    exact Multiset.cons_swap (Client.back oldBox) (Client.out oldBox) 0
  · rw [hbag]
    decide
  · rw [hbag]
    decide
  · intro h hh
    cases hh
  · intro h hh
    cases hh

/-- Records that are added, changed or removed leave the others where they are. -/
theorem MemOk.section {s s' : ClientState} (h : MemOk s) (hC : s'.Contents)
    (hhooks : s'.hooks = s.hooks) (hmove : TableMove s s') : MemOk s' := by
  have haddrs := h.addrs
  cases hmove with
  | insert item hpc hbag hallocs =>
    refine ⟨hC, ?_, fun c hc => ?_, fun hook hh p hp => ?_, fun hook hh p hp c hc hcp => ?_⟩
    · rw [hbag, Multiset.map_cons, Multiset.nodup_cons]
      refine ⟨fun hmem => ?_, haddrs⟩
      obtain ⟨c, hc, haddr⟩ := Multiset.mem_map.mp hmem
      exact absurd haddr (h.bound c hc).ne
    · rw [hbag, Multiset.mem_cons] at hc
      rw [hallocs]
      rcases hc with rfl | hc
      · exact Nat.lt_succ_self _
      · exact Nat.lt_succ_of_lt (h.bound c hc)
    · rw [hallocs]
      exact Nat.lt_succ_of_lt (h.heldBound hook (hhooks ▸ hh) p hp)
    · rw [hbag, Multiset.mem_cons] at hc
      rcases hc with rfl | hc
      · -- a number that no hook knows yet
        exact absurd hcp (h.heldBound hook (hhooks ▸ hh) p hp).ne'
      · exact h.heldKey hook (hhooks ▸ hh) p hp c hc hcp
  | assign c c' rest hpc hold hnew haddr hkey hallocs =>
    have hmem : ∀ d ∈ bag s'.records, ∃ d' ∈ bag s.records, d'.addr = d.addr ∧ d'.key = d.key := by
      intro d hd
      rw [hnew, Multiset.mem_cons] at hd
      rw [hold]
      rcases hd with rfl | hd
      · exact ⟨c, Multiset.mem_cons_self c rest, haddr.symm, hkey.symm⟩
      · exact ⟨d, Multiset.mem_cons_of_mem hd, rfl, rfl⟩
    refine ⟨hC, ?_, fun d hd => ?_, fun hook hh p hp => ?_, fun hook hh p hp d hd hdp => ?_⟩
    · rw [hnew, Multiset.map_cons, haddr]
      rwa [hold, Multiset.map_cons] at haddrs
    · obtain ⟨d', hd', heq, -⟩ := hmem d hd
      rw [hallocs, ← heq]
      exact h.bound d' hd'
    · rw [hallocs]
      exact h.heldBound hook (hhooks ▸ hh) p hp
    · obtain ⟨d', hd', heq, hkey'⟩ := hmem d hd
      rw [← hkey']
      exact h.heldKey hook (hhooks ▸ hh) p hp d' hd' (heq.trans hdp)
  | remove c hpc hbag honly hallocs =>
    have hmem : ∀ d ∈ bag s'.records, d ∈ bag s.records := by
      intro d hd
      rw [hbag]
      exact Multiset.mem_cons_of_mem hd
    refine ⟨hC, ?_, fun d hd => ?_, fun hook hh p hp => ?_, fun hook hh p hp d hd hdp => ?_⟩
    · rw [hbag, Multiset.map_cons, Multiset.nodup_cons] at haddrs
      exact haddrs.2
    · rw [hallocs]
      exact h.bound d (hmem d hd)
    · rw [hallocs]
      exact h.heldBound hook (hhooks ▸ hh) p hp
    · exact h.heldKey hook (hhooks ▸ hh) p hp d (hmem d hd) hdp

/-- A hook that goes on from its lookup holds nothing any more. -/
theorem finishHook_pc {cs : Csum} {s : ClientState} {h h' : HookRun}
    (hfinish : s.finishHook cs h = some h') : ∀ p, h'.pc ≠ .holds p := by
  intro p
  unfold finishHook at hfinish
  split at hfinish
  · split at hfinish <;> cases hfinish <;> simp
  · cases hfinish
    simp
  · cases hfinish
  · cases hfinish

theorem message_frame (s : ClientState) (msg : String) :
    (s.message msg).records = s.records ∧ (s.message msg).allocs = s.allocs ∧
      (s.message msg).hooks = s.hooks := by
  unfold ClientState.message
  split
  · exact ⟨rfl, rfl, rfl⟩
  split
  · exact ⟨rfl, rfl, rfl⟩
  split
  · exact ⟨rfl, rfl, rfl⟩
  · exact ⟨rfl, rfl, rfl⟩

theorem MemOk.step {cs : Csum} {s s' : ClientState} {act : ClientAct} (h : MemOk s)
    (hstep : s.step cs act = some s') : MemOk s' := by
  cases step_sound hstep with
  | message msg hidle =>
    obtain ⟨hrecords, hallocs, hhooks⟩ := message_frame s msg
    refine ⟨h.contents.message hidle msg, ?_, ?_, ?_, ?_⟩
    · rw [hrecords]
      exact h.addrs
    · rw [hrecords, hallocs]
      exact h.bound
    · rw [hhooks, hallocs]
      exact h.heldBound
    · rw [hhooks, hrecords]
      exact h.heldKey
  | netlink s' hnetlink =>
    obtain ⟨hC, hhooks, hmove⟩ := netlinkStep_sound h.contents hnetlink
    exact h.section hC hhooks hmove
  | lookup direction skb htcp =>
    have hnew : ∀ p, (s.lookup direction skb).pc = .holds p →
        ∃ c ∈ bag s.records, c.addr = p ∧ c.key = direction.key skb := by
      intro p hp
      unfold ClientState.lookup at hp
      dsimp only at hp
      split at hp
      · rename_i c hfind
        cases hp
        obtain ⟨hc, hkey⟩ := hashFind_eq_some hfind
        exact ⟨c, hc, rfl, hkey⟩
      · cases hp
    refine ⟨h.contents, h.addrs, h.bound, fun hook hh p hp => ?_, fun hook hh p hp c hc hcp => ?_⟩
    · rcases List.mem_append.mp hh with hh | hh
      · exact h.heldBound hook hh p hp
      · obtain rfl := List.mem_singleton.mp hh
        obtain ⟨c, hc, rfl, -⟩ := hnew p hp
        exact h.bound c hc
    · rcases List.mem_append.mp hh with hh | hh
      · exact h.heldKey hook hh p hp c hc hcp
      · obtain rfl := List.mem_singleton.mp hh
        obtain ⟨c', hc', haddr, hkey⟩ := hnew p hp
        obtain rfl := Multiset.inj_on_of_nodup_map h.addrs c hc c' hc' (hcp.trans haddr.symm)
        exact hkey
  | use i hook hook' hi hfinish =>
    have hother : ∀ g ∈ s.hooks.set i hook', ∀ p, g.pc = .holds p → g ∈ s.hooks := by
      intro g hg p hp
      rcases List.mem_or_eq_of_mem_set hg with hg | rfl
      · exact hg
      · exact absurd hp (finishHook_pc hfinish p)
    exact ⟨h.contents, h.addrs, h.bound,
      fun g hg p hp => h.heldBound g (hother g hg p hp) p hp,
      fun g hg p hp => h.heldKey g (hother g hg p hp) p hp⟩

theorem memOk {cs : Csum} {s : ClientState} (h : Reachable (step cs) loaded s) : MemOk s :=
  h.invariant MemOk.loaded fun _ _ _ _ hx hstep => hx.step hstep

/-- **Between two messages** the module holds the records of `Client.table`. -/
theorem bag_idle {cs : Csum} {s : ClientState} (h : Reachable (step cs) loaded s)
    (hidle : s.netlink = .idle) :
    (bag s.records).map Cell.record = bag (Client.table s.handled) := by
  have hC := (memOk h).contents
  simp only [Contents, hidle, NetlinkPc.contents, activated] at hC
  rw [hC, (Client.session s.handled).bag]

end ClientState

end MiddleboxSession
