/-
  MiddleboxSession/MiddleboxKernel.lean
  =====================================
  **The kernel module of a middlebox.**

  Its table never changes after loading: the netlink handler only answers.  The
  prerouting hook rewrites the destination and looks the source port up first,
  the postrouting hook rewrites the source and looks the destination port up
  first.
-/
import MiddleboxSession.Endpoint

namespace MiddleboxSession

open CBuffer UTHash

namespace Middlebox

def toServer : Record := ⟨⟨clientAddr, 0, 0, 5001⟩, oldBox, serverAddr, 0, 0⟩

def toClient : Record := ⟨⟨serverAddr, 0, 5001, 0⟩, oldBox, clientAddr, 0, 0⟩

def pktMangleInit : KernelTable := hashAdd (hashAdd none toServer) toClient

def sportKey (skb : SkBuff) : RecordKey := ⟨skb.iph.saddr, 0, ntohs skb.tcph.source, 0⟩

def dportKey (skb : SkBuff) : RecordKey := ⟨skb.iph.saddr, 0, 0, ntohs skb.tcph.dest⟩

/-- `tcp_header_write_prerouting`.  It returns `NULL` when `skb_linearize` fails,
    but its caller does not look: the packet goes on as it is. -/
def tcpHeaderWritePrerouting (cs : Csum) (linearize : Bool) (records : KernelTable)
    (skb : SkBuff) : SkBuff :=
  match hashFind records (sportKey skb) with
  | some p => skb.rewriteDaddr cs p.dst
  | none =>
    match hashFind records (dportKey skb) with
    | some p => if linearize then skb.rewriteDaddr cs p.dst else skb
    | none => skb

def incomingChangeBegin (cs : Csum) (linearize : Bool) (records : KernelTable) (skb : SkBuff) :
    Verdict × SkBuff :=
  if skb.iph.protocol ≠ 0 ∧
      (skb.iph.protocol ≠ IPPROTO_UDP ∧ skb.iph.protocol ≠ IPPROTO_TCP) then (.accept, skb)
  else if skb.iph.protocol = IPPROTO_TCP then
    (.stolen, tcpHeaderWritePrerouting cs linearize records skb)
  else (.accept, skb)

def tcpHeaderRewrite (cs : Csum) (records : KernelTable) (skb : SkBuff) : Option SkBuff :=
  match hashFind records (dportKey skb) with
  | some p => some (skb.rewriteSaddr cs p.src)
  | none =>
    match hashFind records (sportKey skb) with
    | some p => some (skb.rewriteSaddr cs p.src)
    | none => some skb

def outgoingChangeBegin (cs : Csum) (records : KernelTable) (skb : SkBuff) :
    Verdict × SkBuff :=
  if skb.iph.protocol ≠ 0 ∧
      (skb.iph.protocol ≠ IPPROTO_UDP ∧ skb.iph.protocol ≠ IPPROTO_TCP) then (.accept, skb)
  else if skb.iph.protocol = IPPROTO_TCP then
    match tcpHeaderRewrite cs records skb with
    | none => (.drop, skb)
    | some skb => (.stolen, skb)
  else (.accept, skb)

/-- The record that the prerouting hook finds. -/
def preroutingRecord (records : KernelTable) (skb : SkBuff) : Option Record :=
  (hashFind records (sportKey skb)).or (hashFind records (dportKey skb))

/-- The record that the postrouting hook finds. -/
def postroutingRecord (records : KernelTable) (skb : SkBuff) : Option Record :=
  (hashFind records (dportKey skb)).or (hashFind records (sportKey skb))

section Hooks

variable {cs : Csum} {linearize : Bool} {records : KernelTable} {skb : SkBuff}

theorem incomingChangeBegin_tcp (h : skb.IsTcp) : incomingChangeBegin cs linearize records skb =
    (.stolen, tcpHeaderWritePrerouting cs linearize records skb) := by
  unfold incomingChangeBegin
  rw [if_neg (by rw [h.protocol]; decide), if_pos h.protocol]

theorem outgoingChangeBegin_tcp (h : skb.IsTcp) : outgoingChangeBegin cs records skb =
    (.stolen, match hashFind records (dportKey skb) with
      | some p => skb.rewriteSaddr cs p.src
      | none => match hashFind records (sportKey skb) with
        | some p => skb.rewriteSaddr cs p.src
        | none => skb) := by
  unfold outgoingChangeBegin tcpHeaderRewrite
  rw [if_neg (by rw [h.protocol]; decide), if_pos h.protocol]
  cases hashFind records (dportKey skb) with
  | some p => rfl
  | none => cases hashFind records (sportKey skb) <;> rfl

theorem incomingChangeBegin_record (h : skb.IsTcp) : incomingChangeBegin cs true records skb =
    (.stolen, ((preroutingRecord records skb).map fun p => skb.rewriteDaddr cs p.dst).getD skb) := by
  rw [incomingChangeBegin_tcp h, tcpHeaderWritePrerouting, preroutingRecord]
  cases hashFind records (sportKey skb) with
  | some p => rfl
  | none => cases hashFind records (dportKey skb) <;> rfl

theorem outgoingChangeBegin_record (h : skb.IsTcp) : outgoingChangeBegin cs records skb =
    (.stolen, ((postroutingRecord records skb).map fun p => skb.rewriteSaddr cs p.src).getD skb) := by
  rw [outgoingChangeBegin_tcp h, postroutingRecord]
  cases hashFind records (dportKey skb) with
  | some p => rfl
  | none => cases hashFind records (sportKey skb) <;> rfl

end Hooks

/-! ### Lookups -/

theorem mem_bag {r : Record} : r ∈ bag pktMangleInit ↔ r = toServer ∨ r = toClient := by
  rw [pktMangleInit, bag_hashAdd, bag_hashAdd, Multiset.mem_cons, Multiset.mem_cons]
  simp [or_comm]

theorem find_toServer : hashFind pktMangleInit toServer.key = some toServer := by
  refine hashFind_of_forall_eq (mem_bag.mpr (Or.inl rfl)) rfl fun r hr hk => ?_
  rcases mem_bag.mp hr with rfl | rfl
  · rfl
  · exact absurd hk (by decide)

theorem find_toClient : hashFind pktMangleInit toClient.key = some toClient := by
  refine hashFind_of_forall_eq (mem_bag.mpr (Or.inr rfl)) rfl fun r hr hk => ?_
  rcases mem_bag.mp hr with rfl | rfl
  · exact absurd hk (by decide)
  · rfl

theorem find_none {k : RecordKey} (hs : k ≠ toServer.key) (hc : k ≠ toClient.key) :
    hashFind pktMangleInit k = none := by
  refine hashFind_eq_none.mpr fun r hr => ?_
  rcases mem_bag.mp hr with rfl | rfl
  · exact hs.symm
  · exact hc.symm

section Packets

variable (skb : SkBuff)

theorem find_sportKey : hashFind pktMangleInit (sportKey skb) =
    if skb.iph.saddr = serverAddr ∧ ntohs skb.tcph.source = 5001 then some toClient else none := by
  split
  · rename_i h
    have hkey : sportKey skb = toClient.key := by
      rw [sportKey, h.1, h.2]
      rfl
    rw [hkey, find_toClient]
  · rename_i h
    refine find_none (fun hk => ?_) fun hk => ?_
    · exact absurd (congrArg RecordKey.dport hk) (by decide : (0 : BitVec 16) ≠ 5001)
    · exact h ⟨congrArg RecordKey.src hk, congrArg RecordKey.sport hk⟩

theorem find_dportKey : hashFind pktMangleInit (dportKey skb) =
    if skb.iph.saddr = clientAddr ∧ ntohs skb.tcph.dest = 5001 then some toServer else none := by
  split
  · rename_i h
    have hkey : dportKey skb = toServer.key := by
      rw [dportKey, h.1, h.2]
      rfl
    rw [hkey, find_toServer]
  · rename_i h
    refine find_none (fun hk => ?_) fun hk => ?_
    · exact h ⟨congrArg RecordKey.src hk, congrArg RecordKey.dport hk⟩
    · exact absurd (congrArg RecordKey.sport hk) (by decide : (0 : BitVec 16) ≠ 5001)

/-- No packet matches by both ports, so the order of the lookups does not matter. -/
theorem postroutingRecord_eq :
    postroutingRecord pktMangleInit skb = preroutingRecord pktMangleInit skb := by
  rw [postroutingRecord, preroutingRecord, find_sportKey, find_dportKey]
  split
  · rename_i hc
    rw [if_neg]
    · rfl
    · rintro ⟨hs, -⟩
      exact absurd (hs.symm.trans hc.1) (by decide)
  · split <;> rfl

end Packets

end Middlebox

end MiddleboxSession
