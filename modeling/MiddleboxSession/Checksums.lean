/-
  MiddleboxSession/Checksums.lean
  ===============================
  **Checksums behind the packet hooks.**

  Five of the six hooks rewrite an address together with both checksums.  The
  incoming hooks of the two endpoints assign `iph->saddr` and nothing else:
  whenever they find a record they leave both checksums wrong, since no record
  of a reachable table maps an address to one with the same sum.
-/
import MiddleboxSession.ClientKernel
import MiddleboxSession.ServerKernel
import MiddleboxSession.MiddleboxKernel

namespace MiddleboxSession

open CBuffer OnesComplement UTHash

/-- The packet hooks of the three kernel modules. -/
inductive Hook where
  | clientOutgoing
  | clientIncoming
  | serverOutgoing
  | serverIncoming
  | middleboxIncoming
  | middleboxOutgoing
deriving DecidableEq, Repr

namespace Hook

def run (cs : Csum) (linearize : Bool) : Hook → KernelTable → SkBuff → Verdict × SkBuff
  | clientOutgoing => Client.outgoingBegin cs
  | clientIncoming => Client.incomingBegin
  | serverOutgoing => Server.outgoingBegin cs
  | serverIncoming => Server.incomingBegin
  | middleboxIncoming => Middlebox.incomingChangeBegin cs linearize
  | middleboxOutgoing => Middlebox.outgoingChangeBegin cs

def Reachable : Hook → KernelTable → Prop
  | clientOutgoing, records | clientIncoming, records => ∃ msgs, records = Client.table msgs
  | serverOutgoing, records | serverIncoming, records => ∃ msgs, records = Server.table msgs
  | middleboxIncoming, records | middleboxOutgoing, records =>
    records = Middlebox.pktMangleInit

/-- The key that a hook without checksum updates looks up. -/
def plainKey (skb : SkBuff) : Hook → Option RecordKey
  | clientIncoming => some (Client.inKey skb)
  | serverIncoming => some (Server.inKey skb)
  | _ => none

end Hook

section Valid

variable {cs : Csum} {records : KernelTable} {skb : SkBuff}

theorem outgoingHook_valid (key : SkBuff → RecordKey) (htcp : skb.IsTcp) (hv : skb.Valid) :
    (outgoingHook cs key records skb).2.Valid := by
  rw [outgoingHook_tcp htcp]
  cases hashFind records (key skb) with
  | some p => exact hv.rewriteDaddr htcp p.dst
  | none => exact hv

/-- An incoming hook whose records all change the sum of the address. -/
theorem incomingHook_valid_iff (key : SkBuff → RecordKey) (htcp : skb.IsTcp) (hv : skb.Valid)
    (hne : ∀ r ∈ bag records, r.key = key skb →
      ¬ total (halves skb.iph.saddr) ≡ total (halves r.src) [MOD 2 ^ 16 - 1]) :
    (incomingHook key records skb).2.Valid ↔ ∀ r ∈ bag records, r.key ≠ key skb := by
  rw [incomingHook_tcp htcp]
  cases hfind : hashFind records (key skb) with
  | some p =>
    obtain ⟨hmem, hkey⟩ := hashFind_eq_some hfind
    constructor
    · intro h
      exact absurd h (hv.setSaddr htcp (hne p hmem hkey))
    · intro h
      exact absurd hkey (h p hmem)
  | none => exact ⟨fun _ => hashFind_eq_none.mp hfind, fun _ => hv⟩

theorem incomingChangeBegin_valid (htcp : skb.IsTcp) (hv : skb.Valid) (linearize : Bool) :
    (Middlebox.incomingChangeBegin cs linearize records skb).2.Valid := by
  rw [Middlebox.incomingChangeBegin_tcp htcp]
  unfold Middlebox.tcpHeaderWritePrerouting
  cases hashFind records (Middlebox.sportKey skb) with
  | some p => exact hv.rewriteDaddr htcp p.dst
  | none =>
    cases hashFind records (Middlebox.dportKey skb) with
    | some p =>
      cases linearize with
      | true => exact hv.rewriteDaddr htcp p.dst
      | false => exact hv
    | none => exact hv

theorem outgoingChangeBegin_valid (htcp : skb.IsTcp) (hv : skb.Valid) :
    (Middlebox.outgoingChangeBegin cs records skb).2.Valid := by
  rw [Middlebox.outgoingChangeBegin_tcp htcp]
  cases hashFind records (Middlebox.dportKey skb) with
  | some p => exact hv.rewriteSaddr htcp p.src
  | none =>
    cases hashFind records (Middlebox.sportKey skb) with
    | some p => exact hv.rewriteSaddr htcp p.src
    | none => exact hv

end Valid

/-- The records of the client change the sum of the address they are found by. -/
theorem Client.sum_ne (msgs : List String) (skb : SkBuff) {r : Record}
    (hr : r ∈ bag (Client.table msgs)) (hk : r.key = Client.inKey skb) :
    ¬ total (halves skb.iph.saddr) ≡ total (halves r.src) [MOD 2 ^ 16 - 1] := by
  have hsrc : r.key.src = skb.iph.saddr := congrArg RecordKey.src hk
  have hdport : r.key.dport = 0 := congrArg RecordKey.dport hk
  rw [← hsrc]
  rcases (Client.session msgs).mem_bag.mp hr with rfl | rfl | ⟨-, rfl⟩
  · exact absurd hdport (by decide : (5001 : BitVec 16) ≠ 0)
  · decide
  · decide

theorem Server.sum_ne (msgs : List String) (skb : SkBuff) {r : Record}
    (hr : r ∈ bag (Server.table msgs)) (hk : r.key = Server.inKey skb) :
    ¬ total (halves skb.iph.saddr) ≡ total (halves r.src) [MOD 2 ^ 16 - 1] := by
  have hsrc : r.key.src = skb.iph.saddr := congrArg RecordKey.src hk
  have hsport : r.key.sport = 0 := congrArg RecordKey.sport hk
  rw [← hsrc]
  rcases (Server.session msgs).mem_bag.mp hr with rfl | rfl | ⟨-, rfl⟩
  · exact absurd hsport (by decide : (5001 : BitVec 16) ≠ 0)
  · decide
  · decide

/-- **Which hooks keep the checksums valid.**  A valid TCP packet is valid behind
    a hook if and only if the hook is not an endpoint's incoming one, or no
    record of the table has the key that it looks up. -/
theorem checksums_valid_iff (cs : Csum) (linearize : Bool) (hook : Hook) {records : KernelTable}
    (hrec : hook.Reachable records) {skb : SkBuff} (htcp : skb.IsTcp) (hv : skb.Valid) :
    (hook.run cs linearize records skb).2.Valid ↔
      ∀ k ∈ hook.plainKey skb, ∀ r ∈ bag records, r.key ≠ k := by
  have hnone : ∀ {P : RecordKey → Prop}, ∀ k ∈ (none : Option RecordKey), P k := by
    intro P k hk
    cases hk
  cases hook with
  | clientOutgoing => exact iff_of_true (outgoingHook_valid _ htcp hv) hnone
  | serverOutgoing => exact iff_of_true (outgoingHook_valid _ htcp hv) hnone
  | middleboxIncoming => exact iff_of_true (incomingChangeBegin_valid htcp hv linearize) hnone
  | middleboxOutgoing => exact iff_of_true (outgoingChangeBegin_valid htcp hv) hnone
  | clientIncoming =>
    obtain ⟨msgs, rfl⟩ := hrec
    refine (incomingHook_valid_iff Client.inKey htcp hv fun r hr hk =>
      Client.sum_ne msgs skb hr hk).trans ?_
    simp [Hook.plainKey]
  | serverIncoming =>
    obtain ⟨msgs, rfl⟩ := hrec
    refine (incomingHook_valid_iff Server.inKey htcp hv fun r hr hk =>
      Server.sum_ne msgs skb hr hk).trans ?_
    simp [Hook.plainKey]

/-- A packet of the session as it comes from the old middlebox to the client. -/
def fromBox : SkBuff where
  iph := ⟨4, 5, 0, 0x2800, 0, 0, 64, IPPROTO_TCP, 6847, oldBox, clientAddr, []⟩
  tcph := ⟨0x8913, 0x5000, 0, 0, 0x1050, 0, 17888, 0⟩
  data := []

theorem checksums_valid_session :
    (Hook.clientOutgoing.run Csum.standard true (Client.table []) fromBox).2.Valid ∧
      ¬ (Hook.clientIncoming.run Csum.standard true (Client.table []) fromBox).2.Valid := by
  have hv : fromBox.Valid := by decide
  constructor
  · exact (checksums_valid_iff Csum.standard true .clientOutgoing ⟨[], rfl⟩ ⟨rfl, rfl⟩
      hv).mpr (by intro k hk; cases hk)
  · intro h
    exact (checksums_valid_iff Csum.standard true .clientIncoming ⟨[], rfl⟩ ⟨rfl, rfl⟩
      hv).mp h _ rfl (Client.back oldBox) ((Client.session []).mem_bag.mpr (Or.inr (Or.inl rfl)))
      (by decide)

/-- The client hands a valid packet on with wrong checksums. -/
theorem incoming_checksums_wrong :
    ¬ ∀ (cs : Csum) (linearize : Bool) (hook : Hook) (records : KernelTable) (skb : SkBuff),
      hook.Reachable records → skb.IsTcp → skb.Valid →
        (hook.run cs linearize records skb).2.Valid := by
  intro h
  have hv : fromBox.Valid := by decide
  have hout := h Csum.standard true .clientIncoming (Client.table []) fromBox ⟨[], rfl⟩
    ⟨rfl, rfl⟩ hv
  refine (incomingHook_valid_iff Client.inKey ⟨rfl, rfl⟩ hv fun r hr hk =>
    Client.sum_ne [] fromBox hr hk).mp hout (Client.back oldBox) ?_ (by decide)
  exact (Client.session []).mem_bag.mpr (Or.inr (Or.inl rfl))

end MiddleboxSession
