/-
  MiddleboxSession/Endpoint.lean
  ==============================
  **What the kernel modules of the two endpoints share**: the translation table,
  `addHash` and `deleteHash`, and the bodies of the two hooks, which differ
  between the client and the server in the key they look up.

  `HASH_ADD` does not look for an equal key, and the client's "SYN" uses it
  directly, so a table may hold a record several times.  `Session` says which
  records an endpoint has: the outgoing one, the one back from the old path,
  and some copies of the one back from the new path.  It determines every
  lookup, and every command of the endpoints keeps it.
-/
import MiddleboxSession.UTHash
import MiddleboxSession.KernelPacket

namespace MiddleboxSession

open CBuffer UTHash

/-! ### The translation table -/

structure RecordKey where
  src : Addr
  dst : Addr
  sport : BitVec 16
  dport : BitVec 16
deriving DecidableEq, Repr

structure Record where
  key : RecordKey
  src : Addr
  dst : Addr
  sport : BitVec 16
  dport : BitVec 16
deriving DecidableEq, Repr

def RecordKey.bytes (k : RecordKey) : List Byte :=
  wordBytes k.src ++ wordBytes k.dst ++ halfBytes k.sport ++ halfBytes k.dport

def recordHash (k : RecordKey) : BitVec 32 := hashJen k.bytes

/-- The global `records` of a kernel module. -/
abbrev KernelTable := Head Record.key recordHash

def deleteHash (records : KernelTable) (item : Record) : KernelTable :=
  match hashFind records item.key with
  | some _ => hashDelete records item.key
  | none => records

def addHash (records : KernelTable) (item : Record) : KernelTable :=
  match hashFind records item.key with
  | none => hashAdd records item
  | some _ => records

/-- What both endpoints do at an "ACK": `if (p) p->dst = ..`. -/
def assignDst (records : KernelTable) (key : RecordKey) (dst : Addr) : KernelTable :=
  match hashFind records key with
  | some _ => hashUpdate records key (fun p => { p with dst := dst }) fun _ => rfl
  | none => records

/-! ### The hooks -/

/-- What a hook returns; with `NF_STOLEN` it has passed the packet on itself. -/
inductive Verdict where
  | accept
  | drop
  | stolen
deriving DecidableEq, Repr

def passed : Verdict × SkBuff → Option SkBuff
  | (.drop, _) => none
  | (_, skb) => some skb

@[simp] theorem passed_accept (skb : SkBuff) : passed (.accept, skb) = some skb := rfl
@[simp] theorem passed_stolen (skb : SkBuff) : passed (.stolen, skb) = some skb := rfl

/-- `outgoing_begin`, with the key that the module looks up. -/
def outgoingHook (cs : Csum) (key : SkBuff → RecordKey) (records : KernelTable) (skb : SkBuff) :
    Verdict × SkBuff :=
  if skb.iph.protocol ≠ 0 ∧
      (skb.iph.protocol ≠ IPPROTO_UDP ∧ skb.iph.protocol ≠ IPPROTO_TCP) then (.accept, skb)
  else if skb.iph.protocol = IPPROTO_TCP then
    match hashFind records (key skb) with
    | some p => (.accept, skb.rewriteDaddr cs p.dst)
    | none => (.accept, skb)
  else (.accept, skb)

/-- `tcp_header_write_prerouting` of an endpoint: no checksum is touched. -/
def tcpHeaderWritePrerouting (key : SkBuff → RecordKey) (records : KernelTable) (skb : SkBuff) :
    SkBuff :=
  match hashFind records (key skb) with
  | some p => skb.setSaddr p.src
  | none => skb

/-- `incoming_begin`, with the key that the module looks up. -/
def incomingHook (key : SkBuff → RecordKey) (records : KernelTable) (skb : SkBuff) :
    Verdict × SkBuff :=
  if skb.iph.protocol ≠ 0 ∧
      (skb.iph.protocol ≠ IPPROTO_UDP ∧ skb.iph.protocol ≠ IPPROTO_TCP) then (.accept, skb)
  else if skb.iph.protocol = IPPROTO_TCP then
    (.accept, tcpHeaderWritePrerouting key records skb)
  else (.accept, skb)

section Hooks

variable {cs : Csum} {key : SkBuff → RecordKey} {records : KernelTable} {skb : SkBuff}

theorem outgoingHook_tcp (h : skb.IsTcp) : outgoingHook cs key records skb =
    (.accept, match hashFind records (key skb) with
      | some p => skb.rewriteDaddr cs p.dst
      | none => skb) := by
  unfold outgoingHook
  rw [if_neg (by rw [h.protocol]; decide), if_pos h.protocol]
  split <;> rfl

theorem incomingHook_tcp (h : skb.IsTcp) : incomingHook key records skb =
    (.accept, match hashFind records (key skb) with
      | some p => skb.setSaddr p.src
      | none => skb) := by
  unfold incomingHook
  rw [if_neg (by rw [h.protocol]; decide), if_pos h.protocol]
  rfl

end Hooks

/-! ### The records of an endpoint -/

/-- The addresses of the session: the two endpoints and the two middleboxes. -/
def serverAddr : Addr := inetAton 128 112 93 108
def clientAddr : Addr := inetAton 128 112 93 107
def oldBox : Addr := inetAton 128 112 93 106
def newBox : Addr := inetAton 128 112 93 109

def path (activated : Bool) : Addr := if activated then newBox else oldBox

/-- The outgoing record, the record back from the old path, and `n` copies of the
    record back from the new path. -/
structure Session (records : KernelTable) (out back back' : Record) (n : Nat) : Prop where
  bag : bag records = out ::ₘ back ::ₘ Multiset.replicate n back'
  out_back : out.key ≠ back.key
  out_back' : out.key ≠ back'.key
  back_back' : back.key ≠ back'.key

namespace Session

variable {records : KernelTable} {out back back' : Record} {n : Nat}

theorem init (h : out.key ≠ back.key) (h' : out.key ≠ back'.key) (hback : back.key ≠ back'.key) :
    Session (hashAdd (hashAdd none out) back) out back back' 0 where
  bag := by
    rw [bag_hashAdd, bag_hashAdd, Multiset.cons_swap]
    rfl
  out_back := h
  out_back' := h'
  back_back' := hback

theorem mem_bag (h : Session records out back back' n) {r : Record} :
    r ∈ UTHash.bag records ↔ r = out ∨ r = back ∨ n ≠ 0 ∧ r = back' := by
  rw [h.bag, Multiset.mem_cons, Multiset.mem_cons, Multiset.mem_replicate]

theorem find_out (h : Session records out back back' n) :
    hashFind records out.key = some out := by
  refine hashFind_of_forall_eq (h.mem_bag.mpr (Or.inl rfl)) rfl fun r hr hk => ?_
  rcases h.mem_bag.mp hr with rfl | rfl | ⟨-, rfl⟩
  · rfl
  · exact absurd hk.symm h.out_back
  · exact absurd hk.symm h.out_back'

theorem find_back (h : Session records out back back' n) :
    hashFind records back.key = some back := by
  refine hashFind_of_forall_eq (h.mem_bag.mpr (Or.inr (Or.inl rfl))) rfl fun r hr hk => ?_
  rcases h.mem_bag.mp hr with rfl | rfl | ⟨-, rfl⟩
  · exact absurd hk h.out_back
  · rfl
  · exact absurd hk.symm h.back_back'

/-- However many copies there are, the same record is found. -/
theorem find_back' (h : Session records out back back' n) (hn : n ≠ 0) :
    hashFind records back'.key = some back' := by
  refine hashFind_of_forall_eq (h.mem_bag.mpr (Or.inr (Or.inr ⟨hn, rfl⟩))) rfl fun r hr hk => ?_
  rcases h.mem_bag.mp hr with rfl | rfl | ⟨-, rfl⟩
  · exact absurd hk h.out_back'
  · exact absurd hk h.back_back'
  · rfl

theorem find_back'_none (h : Session records out back back' 0) :
    hashFind records back'.key = none := by
  refine hashFind_eq_none.mpr fun r hr => ?_
  rcases h.mem_bag.mp hr with rfl | rfl | ⟨hn, -⟩
  · exact h.out_back'
  · exact h.back_back'
  · exact absurd rfl hn

/-- Every lookup in the table of an endpoint. -/
theorem find (h : Session records out back back' n) (k : RecordKey) :
    hashFind records k =
      if k = out.key then some out
      else if k = back.key then some back
      else if k = back'.key ∧ n ≠ 0 then some back'
      else none := by
  split
  · rename_i hk
    rw [hk]
    exact h.find_out
  rename_i hout
  split
  · rename_i hk
    rw [hk]
    exact h.find_back
  rename_i hback
  split
  · rename_i hk
    rw [hk.1]
    exact h.find_back' hk.2
  · rename_i hback'
    refine hashFind_eq_none.mpr fun r hr => ?_
    rcases h.mem_bag.mp hr with rfl | rfl | ⟨hn, rfl⟩
    · exact Ne.symm hout
    · exact Ne.symm hback
    · exact fun hk => hback' ⟨hk.symm, hn⟩

theorem assignDst (h : Session records out back back' n) (dst : Addr) :
    Session (assignDst records out.key dst) { out with dst := dst } back back' n where
  bag := by
    obtain ⟨rest, hold, hnew⟩ :=
      bag_hashUpdate h.find_out (fun p => { p with dst := dst }) fun _ => rfl
    rw [h.bag, Multiset.cons_inj_right] at hold
    simp only [MiddleboxSession.assignDst, h.find_out]
    rw [hnew, hold]
  out_back := h.out_back
  out_back' := h.out_back'
  back_back' := h.back_back'

theorem add (h : Session records out back back' n) :
    Session (hashAdd records back') out back back' (n + 1) where
  bag := by
    rw [bag_hashAdd, h.bag, Multiset.cons_swap, Multiset.cons_swap back' back,
      Multiset.replicate_succ]
  out_back := h.out_back
  out_back' := h.out_back'
  back_back' := h.back_back'

/-- Deleting the outgoing record and adding it again, with another address. -/
theorem replace_out (h : Session records out back back' n) (item : Record)
    (hkey : item.key = out.key) :
    Session (addHash (deleteHash records item) item) item back back' n := by
  have hdel : out ::ₘ UTHash.bag (hashDelete records out.key) =
      out ::ₘ back ::ₘ Multiset.replicate n back' :=
    (bag_hashDelete h.find_out).symm.trans h.bag
  rw [Multiset.cons_inj_right] at hdel
  have hnone : hashFind (hashDelete records out.key) out.key = none := by
    refine hashFind_eq_none.mpr fun r hr => ?_
    rw [hdel, Multiset.mem_cons, Multiset.mem_replicate] at hr
    rcases hr with rfl | ⟨-, rfl⟩
    · exact h.out_back.symm
    · exact h.out_back'.symm
  refine ⟨?_, hkey ▸ h.out_back, hkey ▸ h.out_back', h.back_back'⟩
  simp only [deleteHash, addHash, hkey, h.find_out, hnone, bag_hashAdd, hdel]

theorem replace_back (h : Session records out back back' n) :
    Session (addHash (deleteHash records back) back) out back back' n := by
  have hdel : back ::ₘ UTHash.bag (hashDelete records back.key) =
      back ::ₘ out ::ₘ Multiset.replicate n back' := by
    rw [← bag_hashDelete h.find_back, h.bag, Multiset.cons_swap]
  rw [Multiset.cons_inj_right] at hdel
  have hnone : hashFind (hashDelete records back.key) back.key = none := by
    refine hashFind_eq_none.mpr fun r hr => ?_
    rw [hdel, Multiset.mem_cons, Multiset.mem_replicate] at hr
    rcases hr with rfl | ⟨-, rfl⟩
    · exact h.out_back
    · exact h.back_back'.symm
  refine ⟨?_, h.out_back, h.out_back', h.back_back'⟩
  simp only [deleteHash, addHash, h.find_back, hnone, bag_hashAdd, hdel]
  exact Multiset.cons_swap _ _ _

theorem addHash_out (h : Session records out back back' n) (item : Record)
    (hkey : item.key = out.key) : addHash records item = records := by
  simp only [addHash, hkey, h.find_out]

theorem addHash_back' (h : Session records out back back' n) :
    Session (addHash records back') out back back' (max n 1) := by
  cases n with
  | zero =>
    simp only [addHash, h.find_back'_none]
    exact h.add
  | succ n =>
    simp only [addHash, h.find_back' (Nat.succ_ne_zero n)]
    rwa [Nat.max_eq_left (by omega)]

end Session

end MiddleboxSession
