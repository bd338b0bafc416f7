/-
  MiddleboxSession/ServerThreads.lean
  ===================================
  **The server module with its hooks running beside `hello_nl_recv_msg`**, on
  memory.

  A message has one critical section of `my_rwlock` at most, so it is one step.
  A hook looks its record up in one step, under the lock, and reads through the
  pointer in another, after it has released the lock.  Any number of hooks run
  at a time.

  Unlike the client's, the server's handler frees nothing and adds a record only
  where there is none with its key.  So a pointer stays good, and what a hook
  does is what it would do at one moment between its two steps.
-/
import MiddleboxSession.ClientThreads
import MiddleboxSession.KernelMemory
import MiddleboxSession.Transparency

namespace MiddleboxSession

open CBuffer UTHash Runs

namespace Direction

/-- The key that the server's hook of a direction looks up. -/
def serverKey : Direction → SkBuff → RecordKey
  | outgoing => Server.outKey
  | incoming => Server.inKey

/-- The server's hook of a direction, as one step. -/
def serverHook (cs : Csum) : Direction → KernelTable → SkBuff → Verdict × SkBuff
  | outgoing => Server.outgoingBegin cs
  | incoming => Server.incomingBegin

end Direction

/-- Where a hook stands behind its lookup. -/
inductive ServerHookPc (ι : Type) where
  | holds (p : ι)
  | missed
  | passed (skb : SkBuff)
  | undefined
deriving DecidableEq

/-- A hook that runs for a packet; `seen` are the messages that had been handled
    at its lookup. -/
structure ServerHook (ι : Type) where
  direction : Direction
  skb : SkBuff
  seen : List String
  pc : ServerHookPc ι

/-- `broken`: a macro of `uthash.h` had no result. -/
structure ServerState (ι : Type) where
  kernel : KernelMem ι
  hooks : List (ServerHook ι)
  handled : List String
  broken : Bool

inductive ServerAct where
  | message (msg : String)
  | lookup (direction : Direction) (skb : SkBuff)
  | use (i : Nat)                               -- hook `i` goes on behind its lookup

namespace ServerState

section Steps

variable {ι : Type} [DecidableEq ι] (cs : Csum) (kmalloc : Nat → List ι → ι)

/-- The module when it has been loaded. -/
def loaded (k : KernelMem ι) : ServerState ι := ⟨k, [], [], false⟩

def message (s : ServerState ι) (msg : String) : ServerState ι :=
  match KernelModule.serverNetlink kmalloc s.kernel msg with
  | some k => { s with kernel := k, handled := s.handled ++ [msg] }
  | none => { s with broken := true }

/-- The lookup of a hook, for a TCP packet. -/
def lookup (s : ServerState ι) (direction : Direction) (skb : SkBuff) : ServerState ι :=
  match memFind Record.key recordHash s.kernel.mem s.kernel.head (direction.serverKey skb) with
  | some (some p) => { s with hooks := s.hooks ++ [⟨direction, skb, s.handled, .holds p⟩] }
  | some none => { s with hooks := s.hooks ++ [⟨direction, skb, s.handled, .missed⟩] }
  | none => { s with broken := true }

/-- The rest of a hook, behind its lookup. -/
def finishHook (s : ServerState ι) (h : ServerHook ι) : Option (ServerHook ι) :=
  match h.pc with
  | .holds p =>
    match s.kernel.mem.read p with
    | some e => some { h with pc := .passed (h.direction.rewrite cs h.skb e.record) }
    | none => some { h with pc := .undefined }
  | .missed => some { h with pc := .passed h.skb }
  | .passed _ | .undefined => none

def step (s : ServerState ι) : ServerAct → Option (ServerState ι)
  | .message msg => some (s.message kmalloc msg)
  | .lookup direction skb =>
    if skb.iph.protocol = IPPROTO_TCP then some (s.lookup direction skb) else none
  | .use i => s.hooks[i]?.bind fun h => (s.finishHook cs h).map fun h' =>
      { s with hooks := s.hooks.set i h' }

end Steps

/-! ### The hooks as one step -/

theorem serverHook_tcp (cs : Csum) (direction : Direction) (t : KernelTable) {skb : SkBuff}
    (h : skb.iph.protocol = IPPROTO_TCP) : direction.serverHook cs t skb =
      (.accept, match hashFind t (direction.serverKey skb) with
        | some p => direction.rewrite cs skb p
        | none => skb) := by
  have hother : ¬ (skb.iph.protocol ≠ 0 ∧
      (skb.iph.protocol ≠ IPPROTO_UDP ∧ skb.iph.protocol ≠ IPPROTO_TCP)) := fun hne => hne.2.2 h
  cases direction with
  | outgoing =>
    rw [Direction.serverHook, Server.outgoingBegin, outgoingHook, if_neg hother, if_pos h,
      Direction.serverKey]
    cases hashFind t (Server.outKey skb) <;> rfl
  | incoming =>
    rw [Direction.serverHook, Server.incomingBegin, incomingHook, if_neg hother, if_pos h]
    rfl

/-! ### The invariant -/

variable {ι : Type} {cs : Csum}

/-- A hook that has passed a packet on did what it does in one step, after some of
    the messages between its two steps. -/
structure HookOk (cs : Csum) (hd : SlotHead ι Record.key recordHash) (handled : List String)
    (h : ServerHook ι) : Prop where
  seen : h.seen <+: handled
  tcp : h.skb.iph.protocol = IPPROTO_TCP
  holds : ∀ p, h.pc = .holds p →
    ∃ s ∈ bag hd, s.addr = p ∧ s.record.key = h.direction.serverKey h.skb
  missed : h.pc = .missed → hashFind (Server.table h.seen) (h.direction.serverKey h.skb) = none
  passed : ∀ skb, h.pc = .passed skb → ∃ msgs, h.seen <+: msgs ∧ msgs <+: handled ∧
    h.direction.serverHook cs (Server.table msgs) h.skb = (.accept, skb)
  defined : h.pc ≠ .undefined

structure Inv (cs : Csum) (s : ServerState ι) : Prop where
  whole : s.broken = false
  kernel : ∃ hd : SlotHead ι Record.key recordHash, HashMem.Owns s.kernel hd ∧
    HashMem.records hd = Server.table s.handled ∧ ∀ h ∈ s.hooks, HookOk cs hd s.handled h

/-- The server holds no record twice. -/
theorem uniqueKeys_table (msgs : List String) : UniqueKeys (Server.table msgs) := by
  have hsession := Server.session msgs
  have hkeys := hsession.back_back'
  rw [UniqueKeys, hsession.bag, Multiset.map_cons, Multiset.map_cons, Multiset.map_replicate,
    Multiset.nodup_cons, Multiset.nodup_cons]
  refine ⟨fun hmem => ?_, fun hmem => ?_, ?_⟩
  · rcases Multiset.mem_cons.mp hmem with heq | hmem
    · exact hsession.out_back heq
    · exact hsession.out_back' (Multiset.eq_of_mem_replicate hmem)
  · exact hkeys (Multiset.eq_of_mem_replicate hmem)
  · split
    · exact Multiset.nodup_singleton _
    · exact Multiset.nodup_zero

/-- What a pointer reads is what a lookup finds. -/
theorem find_of_slot {hd : SlotHead ι Record.key recordHash} {msgs : List String}
    (hrec : HashMem.records hd = Server.table msgs) {s : Slot ι Record} (hs : s ∈ bag hd) :
    hashFind (Server.table msgs) s.record.key = some s.record := by
  refine (hashFind_iff (uniqueKeys_table msgs)).mpr ⟨?_, rfl⟩
  rw [← hrec, HashMem.bag_records]
  exact Multiset.mem_map_of_mem _ hs

variable [DecidableEq ι] {kmalloc : Nat → List ι → ι} {s s' : ServerState ι}

omit [DecidableEq ι] in
theorem HookOk.message {hd hd' : SlotHead ι Record.key recordHash} {handled : List String}
    {h : ServerHook ι} (hok : HookOk cs hd handled h) (hkept : HashMem.Kept hd hd') (msg : String) :
    HookOk cs hd' (handled ++ [msg]) h := by
  have hprefix : handled <+: handled ++ [msg] := List.prefix_append _ _
  refine { hok with seen := hok.seen.trans hprefix, holds := ?_, passed := ?_ }
  · intro p hp
    obtain ⟨slot, hslot, haddr, hkey⟩ := hok.holds p hp
    obtain ⟨slot', hslot', haddr', hkey'⟩ := hkept slot hslot
    exact ⟨slot', hslot', haddr'.trans haddr, hkey'.trans hkey⟩
  · intro skb hskb
    obtain ⟨msgs, hseen, hmsgs, hhook⟩ := hok.passed skb hskb
    exact ⟨msgs, hseen, hmsgs.trans hprefix, hhook⟩

theorem Inv.message (hfresh : ∀ n live, kmalloc n live ∉ live) (hI : Inv cs s) (msg : String) :
    Inv cs (s.message kmalloc msg) := by
  obtain ⟨hd, ho, hrec, hhooks⟩ := hI.kernel
  obtain ⟨k', hd', hk', ho', hrec', hkept⟩ := KernelModule.owns_serverNetlink hfresh ho msg
  unfold ServerState.message
  rw [hk']
  refine ⟨hI.whole, hd', ho', ?_, fun h hh => (hhooks h hh).message hkept msg⟩
  rw [hrec', hrec, Server.table, Server.table, List.foldl_append]
  rfl

theorem Inv.lookup (hI : Inv cs s) (direction : Direction) {skb : SkBuff}
    (htcp : skb.iph.protocol = IPPROTO_TCP) : Inv cs (s.lookup direction skb) := by
  obtain ⟨hd, ho, hrec, hhooks⟩ := hI.kernel
  have hfindMem := ho.find (direction.serverKey skb)
  have hfindRec := HashMem.find_records hd (direction.serverKey skb)
  unfold ServerState.lookup
  rw [hfindMem]
  cases hfind : hashFind hd (direction.serverKey skb) with
  | none =>
    refine ⟨hI.whole, hd, ho, hrec, fun h hh => ?_⟩
    rcases List.mem_append.mp hh with hh | hh
    · exact hhooks h hh
    · obtain rfl := List.mem_singleton.mp hh
      refine ⟨List.prefix_rfl, htcp, fun p hp => (by cases hp), fun _ => ?_,
        fun skb hskb => (by cases hskb), fun hundef => (by cases hundef)⟩
      rw [← hrec, hfindRec, hfind]
      rfl
  | some slot =>
    obtain ⟨hslot, hkey⟩ := hashFind_eq_some hfind
    refine ⟨hI.whole, hd, ho, hrec, fun h hh => ?_⟩
    rcases List.mem_append.mp hh with hh | hh
    · exact hhooks h hh
    · obtain rfl := List.mem_singleton.mp hh
      refine ⟨List.prefix_rfl, htcp, fun p hp => ?_, fun hmiss => (by cases hmiss),
        fun skb hskb => (by cases hskb), fun hundef => (by cases hundef)⟩
      cases hp
      exact ⟨slot, hslot, rfl, hkey⟩

/-- The second step of a hook. -/
theorem HookOk.finish {hd : SlotHead ι Record.key recordHash} {h h' : ServerHook ι}
    (ho : HashMem.Owns s.kernel hd) (hrec : HashMem.records hd = Server.table s.handled)
    (hok : HookOk cs hd s.handled h) (hfinish : s.finishHook cs h = some h') :
    HookOk cs hd s.handled h' := by
  have htcp := fun t => serverHook_tcp cs h.direction t hok.tcp
  unfold ServerState.finishHook at hfinish
  cases hpc : h.pc with
  | holds p =>
    -- the moment of the hook is the one of its read
    obtain ⟨slot, hslot, rfl, hkey⟩ := hok.holds p hpc
    obtain ⟨e, he, herec⟩ := Option.map_eq_some_iff.mp (ho.read hslot)
    rw [hpc] at hfinish
    simp only [he] at hfinish
    obtain rfl := Option.some.inj hfinish
    refine ⟨hok.seen, hok.tcp, fun p hp => (by cases hp), fun hmiss => (by cases hmiss),
      fun skb hskb => ?_, fun hundef => (by cases hundef)⟩
    cases hskb
    refine ⟨s.handled, hok.seen, List.prefix_rfl, ?_⟩
    rw [htcp, ← hkey, find_of_slot hrec hslot, herec]
  | missed =>
    -- the moment of the hook is the one of its lookup
    rw [hpc] at hfinish
    obtain rfl := Option.some.inj hfinish
    refine ⟨hok.seen, hok.tcp, fun p hp => (by cases hp), fun hmiss => (by cases hmiss),
      fun skb hskb => ?_, fun hundef => (by cases hundef)⟩
    cases hskb
    refine ⟨h.seen, List.prefix_rfl, hok.seen, ?_⟩
    rw [htcp, hok.missed hpc]
  | passed skb =>
    rw [hpc] at hfinish
    cases hfinish
  | undefined => exact absurd hpc hok.defined

theorem Inv.step (hfresh : ∀ n live, kmalloc n live ∉ live) (hI : Inv cs s) {act : ServerAct}
    (hstep : s.step cs kmalloc act = some s') : Inv cs s' := by
  cases act with
  | message msg =>
    obtain rfl := Option.some.inj hstep
    exact hI.message hfresh msg
  | lookup direction skb =>
    by_cases htcp : skb.iph.protocol = IPPROTO_TCP
    · rw [ServerState.step, if_pos htcp] at hstep
      obtain rfl := Option.some.inj hstep
      exact hI.lookup direction htcp
    · rw [ServerState.step, if_neg htcp] at hstep
      cases hstep
  | use i =>
    obtain ⟨h, hget, hstep⟩ := Option.bind_eq_some_iff.mp hstep
    obtain ⟨h', hfinish, rfl⟩ := Option.map_eq_some_iff.mp hstep
    obtain ⟨hd, ho, hrec, hhooks⟩ := hI.kernel
    refine ⟨hI.whole, hd, ho, hrec, fun g hg => ?_⟩
    rcases List.mem_or_eq_of_mem_set hg with hold | rfl
    · exact hhooks g hold
    · exact (hhooks h (List.mem_of_getElem? hget)).finish ho hrec hfinish

omit [DecidableEq ι] in
theorem Inv.loaded {k : KernelMem ι} (h : HashMem.Refines k (Server.table [])) :
    Inv cs (loaded k) := by
  obtain ⟨hd, ho, hrec⟩ := h
  exact ⟨rfl, hd, ho, hrec, fun h hh => absurd hh List.not_mem_nil⟩

/-- **The hooks of the server are linearizable.**  However hooks and messages
    interleave, no macro and no hook touches freed memory, and a hook that has
    passed its packet on did what the hook does in one step at one moment: after
    all messages that were handled before its lookup, and before any that are
    still to come. -/
theorem hooks_linearize (cs : Csum) (hfresh : ∀ n live, kmalloc n live ∉ live)
    {k₀ k : KernelMem ι} (h₀ : k₀.Empty)
    (hload : KernelModule.server.loadMem kmalloc k₀ = some k)
    (h : Reachable (step cs kmalloc) (loaded k) s) :
    s.broken = false ∧ ∀ hook ∈ s.hooks, hook.pc ≠ .undefined ∧
      ∀ skb, hook.pc = .passed skb → ∃ msgs, hook.seen <+: msgs ∧ msgs <+: s.handled ∧
        hook.direction.serverHook cs (Server.table msgs) hook.skb = (.accept, skb) := by
  obtain ⟨k', hk', hr⟩ := KernelModule.refines_loadMem hfresh .server h₀
  obtain rfl := Option.some.inj (hload.symm.trans hk')
  have hI : Inv cs s := h.invariant (Inv.loaded hr) fun _ _ _ _ hI hstep => hI.step hfresh hstep
  obtain ⟨hd, -, -, hhooks⟩ := hI.kernel
  exact ⟨hI.whole, fun hook hh => ⟨(hhooks hook hh).defined, (hhooks hook hh).passed⟩⟩

/-- A reply looks its record up, an update of the path is handled, and the reply
    takes the new path. -/
def overtaken : List ServerAct :=
  [.lookup .outgoing reply, .message "SYN", .message "ACK", .use 0]

theorem overtaken_some : ∃ k s, KernelModule.server.loadMem HashMem.bump
      (HashMem.fresh ⟨Server.back newBox, Handle.zero⟩) = some k ∧
    run (step Csum.standard HashMem.bump) (loaded k) overtaken = some s ∧
    s.hooks.map ServerHook.pc = [.passed (reply.rewriteDaddr Csum.standard newBox)] := by
  have hrun : ((KernelModule.server.loadMem HashMem.bump
      (HashMem.fresh ⟨Server.back newBox, Handle.zero⟩)).any fun k =>
        (run (step Csum.standard HashMem.bump) (loaded k) overtaken).any fun s =>
          s.hooks.map ServerHook.pc = [.passed (reply.rewriteDaddr Csum.standard newBox)]) =
      true := by
    decide +kernel
  obtain ⟨k, hk, hrest⟩ := (Option.any_eq_true _ _).mp hrun
  obtain ⟨s, hs, hpc⟩ := (Option.any_eq_true _ _).mp hrest
  exact ⟨k, s, hk, hs, of_decide_eq_true hpc⟩

theorem hooks_linearize_overtaken : ∃ k s, KernelModule.server.loadMem HashMem.bump
      (HashMem.fresh ⟨Server.back newBox, Handle.zero⟩) = some k ∧
    run (step Csum.standard HashMem.bump) (loaded k) overtaken = some s ∧
    ∃ hook ∈ s.hooks, hook.pc = .passed (reply.rewriteDaddr Csum.standard newBox) ∧
      ∃ msgs, hook.seen <+: msgs ∧ msgs <+: s.handled ∧
        hook.direction.serverHook Csum.standard (Server.table msgs) hook.skb =
          (.accept, reply.rewriteDaddr Csum.standard newBox) := by
  obtain ⟨k, s, hk, hs, hpc⟩ := overtaken_some
  have hall := (hooks_linearize Csum.standard HashMem.bump_notMem (HashMem.empty_fresh _) hk
    ⟨overtaken, hs⟩).2
  obtain ⟨hook, hmem, hpassed⟩ := List.mem_map.mp
    (hpc ▸ List.mem_singleton_self (ServerHookPc.passed (reply.rewriteDaddr Csum.standard newBox)))
  exact ⟨k, s, hk, hs, hook, hmem, hpassed, (hall hook hmem).2 _ hpassed⟩

end ServerState

end MiddleboxSession
