/-
  MiddleboxSession/KernelMemory.lean
  ==================================
  **The three kernel modules and their memory**: what `pkt_mangle_init`, the
  netlink handlers and `pkt_mangle_exit` allocate, link and free.

  The modules of the other files keep their table in a `KernelTable`.  Here the
  same functions run on memory, through the macros of UTMemory.lean.  They never
  touch what is not allocated, the table they build is the one of those files,
  and unloading a module leaves nothing behind.
-/
import MiddleboxSession.ClientKernel
import MiddleboxSession.ServerKernel
import MiddleboxSession.MiddleboxKernel
import MiddleboxSession.UTHeap

namespace MiddleboxSession

open CBuffer UTHash

/-- The memory of a kernel module, with its global `records`. -/
abbrev KernelMem (ι : Type) := HashMem ι Record

namespace KernelMem

variable {ι : Type} [DecidableEq ι] (kmalloc : Nat → List ι → ι)

/-- `kmalloc`, `memset` and assignments, or `memcpy` of an item that was filled in
    this way, and `HASH_ADD`. -/
def insert (k : KernelMem ι) (item : Record) : Option (KernelMem ι) :=
  HashMem.insert Record.key recordHash kmalloc k fun _ => ⟨item, Handle.zero⟩

def lookup (k : KernelMem ι) (key : RecordKey) : Option (Option Record) :=
  HashMem.lookup Record.key recordHash k key

def deleteHash (k : KernelMem ι) (item : Record) : Option (KernelMem ι) :=
  HashMem.remove Record.key recordHash k item.key

def addHash (k : KernelMem ι) (item : Record) : Option (KernelMem ι) := do
  match ← memFind Record.key recordHash k.mem k.head item.key with
  | none => insert kmalloc k item
  | some _ => pure k

def assignDst (k : KernelMem ι) (key : RecordKey) (dst : Addr) : Option (KernelMem ι) :=
  HashMem.assign Record.key recordHash k key fun p => { p with dst := dst }

variable {kmalloc}
variable {k : KernelMem ι} {t : KernelTable}

theorem refines_insert (hfresh : ∀ n live, kmalloc n live ∉ live) (h : HashMem.Refines k t)
    (item : Record) : ∃ k', insert kmalloc k item = some k' ∧ HashMem.Refines k' (hashAdd t item) :=
  h.insert hfresh fun _ => rfl

theorem refines_deleteHash (h : HashMem.Refines k t) (item : Record) :
    ∃ k', deleteHash k item = some k' ∧
      HashMem.Refines k' (MiddleboxSession.deleteHash t item) := by
  obtain ⟨k', hk', hr⟩ := h.remove item.key
  refine ⟨k', hk', ?_⟩
  unfold MiddleboxSession.deleteHash
  cases hfind : hashFind t item.key with
  | some p => exact hr
  | none =>
    rw [hashDelete_of_none hfind] at hr
    exact hr

theorem owns_addHash (hfresh : ∀ n live, kmalloc n live ∉ live)
    {hd : SlotHead ι Record.key recordHash} (h : HashMem.Owns k hd) (item : Record) :
    ∃ k' hd', addHash kmalloc k item = some k' ∧ HashMem.Owns k' hd' ∧
      HashMem.records hd' = MiddleboxSession.addHash (HashMem.records hd) item ∧
      HashMem.Kept hd hd' := by
  unfold MiddleboxSession.addHash addHash
  rw [h.find, HashMem.find_records]
  cases hfind : hashFind hd item.key with
  | none =>
    obtain ⟨k', a, hk', ho'⟩ : ∃ k' a, insert kmalloc k item = some k' ∧
        HashMem.Owns k' (hashAdd hd ⟨a, item⟩) := h.insert hfresh fun _ => rfl
    exact ⟨k', _, hk', ho', HashMem.records_hashAdd hd ⟨a, item⟩, HashMem.kept_hashAdd hd _⟩
  | some s => exact ⟨k, hd, rfl, h, rfl, HashMem.Kept.refl hd⟩

theorem refines_addHash (hfresh : ∀ n live, kmalloc n live ∉ live) (h : HashMem.Refines k t)
    (item : Record) : ∃ k', addHash kmalloc k item = some k' ∧
      HashMem.Refines k' (MiddleboxSession.addHash t item) := by
  obtain ⟨hd, ho, rfl⟩ := h
  obtain ⟨k', hd', hk', ho', hrec, -⟩ := owns_addHash hfresh ho item
  exact ⟨k', hk', hd', ho', hrec⟩

theorem owns_assignDst {hd : SlotHead ι Record.key recordHash} (h : HashMem.Owns k hd)
    (key : RecordKey) (dst : Addr) :
    ∃ k' hd', assignDst k key dst = some k' ∧ HashMem.Owns k' hd' ∧
      HashMem.records hd' = MiddleboxSession.assignDst (HashMem.records hd) key dst ∧
      HashMem.Kept hd hd' := by
  have hf : ∀ p : Record, ({ p with dst := dst } : Record).key = p.key := fun _ => rfl
  obtain ⟨k', hk', ho'⟩ := h.assign key hf
  refine ⟨k', _, hk', ho', ?_, HashMem.kept_hashUpdate hd key hf⟩
  rw [HashMem.records_hashUpdate hd key hf]
  unfold MiddleboxSession.assignDst
  cases hfind : hashFind (HashMem.records hd) key with
  | some p => rfl
  | none => exact hashUpdate_of_none hfind _ _

theorem refines_assignDst (h : HashMem.Refines k t) (key : RecordKey) (dst : Addr) :
    ∃ k', assignDst k key dst = some k' ∧
      HashMem.Refines k' (MiddleboxSession.assignDst t key dst) := by
  obtain ⟨hd, ho, rfl⟩ := h
  obtain ⟨k', hd', hk', ho', hrec, -⟩ := owns_assignDst ho key dst
  exact ⟨k', hk', hd', ho', hrec⟩

end KernelMem

/-! ### The modules -/

/-- The three modules that the repository builds. -/
inductive KernelModule where
  | client
  | server
  | middlebox
deriving DecidableEq, Repr

namespace KernelModule

/-- The two records of `pkt_mangle_init`, in the order in which it adds them. -/
def loaded : KernelModule → Record × Record
  | client => (Client.out oldBox, Client.back oldBox)
  | server => (Server.out oldBox, Server.back oldBox)
  | middlebox => (Middlebox.toServer, Middlebox.toClient)

def table : KernelModule → List String → KernelTable
  | client, msgs => Client.table msgs
  | server, msgs => Server.table msgs
  | middlebox, _ => Middlebox.pktMangleInit

section Memory

variable {ι : Type} [DecidableEq ι] (kmalloc : Nat → List ι → ι)

/-- `netlink_agent` of the client. -/
def clientNetlink (k : KernelMem ι) (msg : String) : Option (KernelMem ι) :=
  if msg = "ACK" then KernelMem.assignDst k (Client.out 0).key newBox
  else if msg = "SYN" then KernelMem.insert kmalloc k (Client.back newBox)
  else if msg = "RESET" then do
    let k ← KernelMem.deleteHash k (Client.out oldBox)
    let k ← KernelMem.addHash kmalloc k (Client.out oldBox)
    let k ← KernelMem.deleteHash k (Client.back oldBox)
    KernelMem.addHash kmalloc k (Client.back oldBox)
  else some k

/-- `hello_nl_recv_msg` of the server. -/
def serverNetlink (k : KernelMem ι) (msg : String) : Option (KernelMem ι) :=
  let acked :=
    if msg = "ACK" then KernelMem.assignDst k (Server.out 0).key newBox else some k
  acked.bind fun k =>
    if msg = "SYN" then KernelMem.addHash kmalloc k (Server.back newBox)
    else if msg = "RESET" then KernelMem.addHash kmalloc k (Server.out oldBox)
    else some k

/-- The netlink handler; the one of the middlebox only answers. -/
def netlinkMem (M : KernelModule) (k : KernelMem ι) (msg : String) : Option (KernelMem ι) :=
  match M with
  | client => clientNetlink kmalloc k msg
  | server => serverNetlink kmalloc k msg
  | middlebox => some k

/-- `pkt_mangle_init`. -/
def loadMem (M : KernelModule) (k : KernelMem ι) : Option (KernelMem ι) := do
  let k ← KernelMem.insert kmalloc k M.loaded.1
  KernelMem.insert kmalloc k M.loaded.2

/-- `pkt_mangle_init` and a number of messages. -/
def runMem (M : KernelModule) (k : KernelMem ι) (msgs : List String) : Option (KernelMem ι) := do
  let k ← M.loadMem kmalloc k
  msgs.foldlM (M.netlinkMem kmalloc) k

/-- `pkt_mangle_exit`, with the `int` that it prints, the number of records. -/
def unloadMem (k : KernelMem ι) : Option (KernelMem ι × BitVec 32) := do
  let (k, freed) ← HashMem.clear k
  pure (k, BitVec.ofNat 32 freed)

/-- The module loaded and unloaded any number of times, with what it prints. -/
def cyclesMem (M : KernelModule) (k : KernelMem ι) :
    List (List String) → Option (KernelMem ι × List (BitVec 32))
  | [] => some (k, [])
  | msgs :: rest => do
    let k ← M.runMem kmalloc k msgs
    let (k, counter) ← unloadMem k
    let (k, counters) ← cyclesMem M k rest
    pure (k, counter :: counters)

variable {kmalloc} (hfresh : ∀ n live, kmalloc n live ∉ live)

include hfresh

theorem refines_loadMem (M : KernelModule) {k : KernelMem ι} (hk : k.Empty) :
    ∃ k', M.loadMem kmalloc k = some k' ∧ HashMem.Refines k' (M.table []) := by
  obtain ⟨k₁, h₁, hr₁⟩ := KernelMem.refines_insert hfresh hk.refines M.loaded.1
  obtain ⟨k₂, h₂, hr₂⟩ := KernelMem.refines_insert hfresh hr₁ M.loaded.2
  refine ⟨k₂, ?_, ?_⟩
  · simp only [loadMem, h₁, h₂, Option.bind_eq_bind, Option.bind_some]
  · cases M <;> exact hr₂

theorem refines_clientNetlink {k : KernelMem ι} {t : KernelTable} (h : HashMem.Refines k t)
    (msg : String) : ∃ k', clientNetlink kmalloc k msg = some k' ∧
      HashMem.Refines k' (Client.netlinkAgent t msg) := by
  unfold clientNetlink Client.netlinkAgent
  by_cases hack : msg = "ACK"
  · rw [if_pos hack, if_pos hack]
    exact KernelMem.refines_assignDst h _ _
  rw [if_neg hack, if_neg hack]
  by_cases hsyn : msg = "SYN"
  · rw [if_pos hsyn, if_pos hsyn]
    exact KernelMem.refines_insert hfresh h _
  rw [if_neg hsyn, if_neg hsyn]
  by_cases hreset : msg = "RESET"
  · rw [if_pos hreset, if_pos hreset]
    obtain ⟨k₁, h₁, hr₁⟩ := KernelMem.refines_deleteHash h (Client.out oldBox)
    obtain ⟨k₂, h₂, hr₂⟩ := KernelMem.refines_addHash hfresh hr₁ (Client.out oldBox)
    obtain ⟨k₃, h₃, hr₃⟩ := KernelMem.refines_deleteHash hr₂ (Client.back oldBox)
    obtain ⟨k₄, h₄, hr₄⟩ := KernelMem.refines_addHash hfresh hr₃ (Client.back oldBox)
    refine ⟨k₄, ?_, hr₄⟩
    simp only [h₁, h₂, h₃, h₄, Option.bind_eq_bind, Option.bind_some]
  · rw [if_neg hreset, if_neg hreset]
    exact ⟨k, rfl, h⟩

theorem owns_serverNetlink {k : KernelMem ι} {hd : SlotHead ι Record.key recordHash}
    (h : HashMem.Owns k hd) (msg : String) :
    ∃ k' hd', serverNetlink kmalloc k msg = some k' ∧ HashMem.Owns k' hd' ∧
      HashMem.records hd' = Server.helloNlRecvMsg (HashMem.records hd) msg ∧
      HashMem.Kept hd hd' := by
  have hack : ∃ k₁ hd₁, (if msg = "ACK" then
        KernelMem.assignDst k (Server.out 0).key newBox else some k) = some k₁ ∧
      HashMem.Owns k₁ hd₁ ∧ HashMem.records hd₁ = (if msg = "ACK" then
        assignDst (HashMem.records hd) (Server.out 0).key newBox else HashMem.records hd) ∧
      HashMem.Kept hd hd₁ := by
    by_cases hack : msg = "ACK"
    · rw [if_pos hack, if_pos hack]
      exact KernelMem.owns_assignDst h _ _
    · rw [if_neg hack, if_neg hack]
      exact ⟨k, hd, rfl, h, rfl, HashMem.Kept.refl hd⟩
  obtain ⟨k₁, hd₁, h₁, ho₁, hrec₁, hkept₁⟩ := hack
  unfold serverNetlink Server.helloNlRecvMsg
  simp only [h₁, Option.bind_some, ← hrec₁]
  by_cases hsyn : msg = "SYN"
  · rw [if_pos hsyn, if_pos hsyn]
    obtain ⟨k₂, hd₂, h₂, ho₂, hrec₂, hkept₂⟩ := KernelMem.owns_addHash hfresh ho₁ (Server.back newBox)
    exact ⟨k₂, hd₂, h₂, ho₂, hrec₂, hkept₁.trans hkept₂⟩
  rw [if_neg hsyn, if_neg hsyn]
  by_cases hreset : msg = "RESET"
  · rw [if_pos hreset, if_pos hreset]
    obtain ⟨k₂, hd₂, h₂, ho₂, hrec₂, hkept₂⟩ := KernelMem.owns_addHash hfresh ho₁ (Server.out oldBox)
    exact ⟨k₂, hd₂, h₂, ho₂, hrec₂, hkept₁.trans hkept₂⟩
  · rw [if_neg hreset, if_neg hreset]
    exact ⟨k₁, hd₁, rfl, ho₁, rfl, hkept₁⟩

theorem refines_serverNetlink {k : KernelMem ι} {t : KernelTable} (h : HashMem.Refines k t)
    (msg : String) : ∃ k', serverNetlink kmalloc k msg = some k' ∧
      HashMem.Refines k' (Server.helloNlRecvMsg t msg) := by
  obtain ⟨hd, ho, rfl⟩ := h
  obtain ⟨k', hd', hk', ho', hrec, -⟩ := owns_serverNetlink hfresh ho msg
  exact ⟨k', hk', hd', ho', hrec⟩

theorem refines_netlinkMem (M : KernelModule) {k : KernelMem ι} {msgs : List String}
    (h : HashMem.Refines k (M.table msgs)) (msg : String) :
    ∃ k', M.netlinkMem kmalloc k msg = some k' ∧ HashMem.Refines k' (M.table (msgs ++ [msg])) := by
  cases M with
  | client =>
    have hstep := refines_clientNetlink hfresh h msg
    rw [table, Client.table, List.foldl_append]
    exact hstep
  | server =>
    have hstep := refines_serverNetlink hfresh h msg
    rw [table, Server.table, List.foldl_append]
    exact hstep
  | middlebox => exact ⟨k, rfl, h⟩

theorem refines_runMem (M : KernelModule) {k : KernelMem ι} (hk : k.Empty) (msgs : List String) :
    ∃ k', M.runMem kmalloc k msgs = some k' ∧ HashMem.Refines k' (M.table msgs) := by
  obtain ⟨k₀, hload, hr₀⟩ := refines_loadMem hfresh M hk
  have hfold : ∃ k', msgs.foldlM (M.netlinkMem kmalloc) k₀ = some k' ∧
      HashMem.Refines k' (M.table msgs) := by
    induction msgs using List.reverseRecOn with
    | nil => exact ⟨k₀, rfl, hr₀⟩
    | append_singleton msgs msg ih =>
      obtain ⟨k₁, h₁, hr₁⟩ := ih
      obtain ⟨k₂, h₂, hr₂⟩ := refines_netlinkMem hfresh M hr₁ msg
      refine ⟨k₂, ?_, hr₂⟩
      simp only [List.foldlM_append, h₁, List.foldlM_cons, h₂, List.foldlM_nil,
        Option.bind_eq_bind, Option.bind_some]
      rfl
  obtain ⟨k', hk', hr'⟩ := hfold
  refine ⟨k', ?_, hr'⟩
  simp only [runMem, hload, hk', Option.bind_eq_bind, Option.bind_some]

/-- **The modules are memory-safe.**  Whatever addresses `kmalloc` hands out and
    whatever the memory holds at first, `pkt_mangle_init` and any messages after
    it have a result; the memory then holds the table of the module, every lookup
    of the hooks reads the record that it finds there, and no check of
    `HASH_FSCK` fails. -/
theorem runMem_refines (M : KernelModule) {k₀ : KernelMem ι} (h₀ : k₀.Empty)
    (msgs : List String) :
    ∃ k, M.runMem kmalloc k₀ msgs = some k ∧ fsck k.mem k.head = some () ∧
      ∀ key, KernelMem.lookup k key = some (hashFind (M.table msgs) key) := by
  obtain ⟨k, hk, hr⟩ := refines_runMem hfresh M h₀ msgs
  exact ⟨k, hk, hr.fsck, hr.lookup⟩

omit [DecidableEq ι] hfresh in
/-- A migration of the client and a reset, in a memory that holds garbage. -/
theorem runMem_refines_client : ∃ k, client.runMem HashMem.bump
      (HashMem.fresh ⟨Server.back newBox, ⟨some 3, some 1, some 2, some 1, none, 9⟩⟩)
      ["SYN", "ACK", "RESET"] = some k ∧
    fsck k.mem k.head = some () ∧
    ∀ key, KernelMem.lookup k key =
      some (hashFind (Client.table ["SYN", "ACK", "RESET"]) key) :=
  runMem_refines HashMem.bump_notMem client (HashMem.empty_fresh _) ["SYN", "ACK", "RESET"]

/-- **The modules do not leak.**  A module can be loaded and unloaded again any
    number of times, with any messages in between.  Each `pkt_mangle_exit` frees
    every record that is still allocated once, and the table with its buckets; it
    prints how many records there were. -/
theorem cyclesMem_empty (M : KernelModule) {k₀ : KernelMem ι} (h₀ : k₀.Empty)
    (cycles : List (List String)) :
    ∃ k, M.cyclesMem kmalloc k₀ cycles =
        some (k, cycles.map fun msgs => BitVec.ofNat 32 (bag (M.table msgs)).card) ∧ k.Empty := by
  induction cycles generalizing k₀ with
  | nil => exact ⟨k₀, rfl, h₀⟩
  | cons msgs rest ih =>
    obtain ⟨k₁, h₁, hr₁⟩ := refines_runMem hfresh M h₀ msgs
    obtain ⟨k₂, h₂, hempty₂⟩ := hr₁.clear
    have hunload : unloadMem k₁ = some (k₂, BitVec.ofNat 32 (bag (M.table msgs)).card) := by
      rw [unloadMem, h₂]
      rfl
    obtain ⟨k₃, h₃, hempty₃⟩ := ih hempty₂
    refine ⟨k₃, ?_, hempty₃⟩
    simp only [cyclesMem, h₁, hunload, h₃, Option.bind_eq_bind, Option.bind_some, List.map_cons]
    rfl

omit [DecidableEq ι] hfresh in
theorem cyclesMem_empty_client : ∃ k, client.cyclesMem HashMem.bump
      (HashMem.fresh ⟨Server.back newBox, ⟨some 3, some 1, some 2, some 1, none, 9⟩⟩)
      [["SYN", "ACK"], [], ["SYN", "SYN"]] = some (k,
        [["SYN", "ACK"], [], ["SYN", "SYN"]].map fun msgs =>
          BitVec.ofNat 32 (bag (client.table msgs)).card) ∧
    k.Empty :=
  cyclesMem_empty HashMem.bump_notMem client (HashMem.empty_fresh _) _

end Memory

end KernelModule

end MiddleboxSession
