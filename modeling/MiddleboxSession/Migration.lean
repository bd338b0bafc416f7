/-
  MiddleboxSession/Migration.lean
  ===============================
  **Loss-free translation across a migration.**

  An endpoint's kernel module receives the netlink commands of its agent in
  order, with "RESET" from an operator in between.  Once its outgoing hook has
  sent a packet of the session to an address, its incoming hook translates what
  comes back from that address, then and ever after: the record back from the
  old path is never taken out for longer than one command, and the record back
  from the new path is there before the new path is taken, since the agent
  hands over no "ACK" before the "SYN" of the same update.
-/
import MiddleboxSession.MainLoop
import MiddleboxSession.ClientKernel
import MiddleboxSession.ServerKernel

namespace MiddleboxSession

open CBuffer UTHash

/-! ### What the agent tells its kernel -/

def Event.netlink : Event → Option String
  | .sendNetlink msg _ _ => some msg
  | _ => none

def netlinks (log : List Event) : List String := log.reverse.filterMap Event.netlink

theorem Event.netlink_eq_some {e : Event} {msg : String} (h : e.netlink = some msg) :
    ∃ k s, e = .sendNetlink msg k s := by
  cases e with
  | sendNetlink msg' k s =>
    cases h
    exact ⟨k, s, rfl⟩
  | _ => cases h

/-- Whenever the agent has sent "ACK" it has sent "SYN" before. -/
theorem Gated.syn_before_ack {st : MainState} (hG : Gated st) {cmds rest : List String}
    (h : netlinks st.log = cmds ++ rest) (hack : "ACK" ∈ cmds) : "SYN" ∈ cmds := by
  obtain ⟨l₁, l₂, hl, rfl, -⟩ := List.filterMap_eq_append_iff.mp h
  obtain ⟨e, he, hmsg⟩ := List.mem_filterMap.mp hack
  obtain ⟨k, s, rfl⟩ := Event.netlink_eq_some hmsg
  obtain ⟨as, bs, rfl⟩ := List.append_of_mem he
  have hlog : st.log = (l₂.reverse ++ bs.reverse) ++ .sendNetlink "ACK" k s :: as.reverse := by
    rw [← List.reverse_reverse st.log, hl]
    simp
  have hsyn := (hG.acks k s _ _ hlog).2
  exact List.mem_filterMap.mpr ⟨.sendNetlink "SYN" k s,
    List.mem_append_left _ (List.mem_reverse.mp hsyn), rfl⟩

/-! ### The two endpoints -/

inductive Side where
  | client
  | server
deriving DecidableEq, Repr

namespace Side

def table : Side → List String → KernelTable
  | client => Client.table
  | server => Server.table

def outgoingBegin (cs : Csum) : Side → KernelTable → SkBuff → Verdict × SkBuff
  | client => Client.outgoingBegin cs
  | server => Server.outgoingBegin cs

def incomingBegin : Side → KernelTable → SkBuff → Verdict × SkBuff
  | client => Client.incomingBegin
  | server => Server.incomingBegin

def peer : Side → Addr
  | client => serverAddr
  | server => clientAddr

def outPort : Side → SkBuff → BitVec 16
  | client, skb => ntohs skb.tcph.dest
  | server, skb => ntohs skb.tcph.source

def inPort : Side → SkBuff → BitVec 16
  | client, skb => ntohs skb.tcph.source
  | server, skb => ntohs skb.tcph.dest

def out : Side → Addr → Record
  | client => Client.out
  | server => Server.out

def back : Side → Addr → Record
  | client => Client.back
  | server => Server.back

/-- The table of an endpoint: the new path is taken only after an "ACK", and
    there is a way back from it after a "SYN". -/
theorem session (side : Side) (msgs : List String) : ∃ b n,
    Session (side.table msgs) (side.out (path b)) (side.back oldBox) (side.back newBox) n ∧
      (b = true → "ACK" ∈ msgs) ∧ ("SYN" ∈ msgs → n ≠ 0) := by
  cases side with
  | client =>
    refine ⟨_, _, Client.session msgs, Client.ack_mem_of_activated, fun hsyn => ?_⟩
    exact (List.count_pos_iff.mpr hsyn).ne'
  | server =>
    refine ⟨_, _, Server.session msgs, of_decide_eq_true, fun hsyn => ?_⟩
    rw [if_pos hsyn]
    decide

variable {cs : Csum} {side : Side} {records : KernelTable} {skb : SkBuff}

theorem outgoing_daddr {b : Bool} {n : Nat}
    (h : Session records (side.out (path b)) (side.back oldBox) (side.back newBox) n)
    (htcp : skb.IsTcp) (hdst : skb.iph.daddr = side.peer) (hport : side.outPort skb = 5001) :
    (side.outgoingBegin cs records skb).2.iph.daddr = path b := by
  cases side with
  | client => exact congrArg (·.2.iph.daddr) (Client.outgoingBegin_session cs h htcp hdst hport)
  | server => exact congrArg (·.2.iph.daddr) (Server.outgoingBegin_session cs h htcp hdst hport)

theorem incoming_setSaddr {box : Addr}
    (hfind : hashFind records (side.back box).key = some (side.back box))
    (htcp : skb.IsTcp) (hsrc : skb.iph.saddr = box) (hport : side.inPort skb = 5001) :
    side.incomingBegin records skb = (.accept, skb.setSaddr side.peer) := by
  cases side with
  | client => exact Client.incomingBegin_session hfind htcp hsrc hport
  | server => exact Server.incomingBegin_session hfind htcp hsrc hport

end Side

/-! ### Migration -/

/-- **Loss-free translation across a migration.**  `cmds` are the commands of an
    agent's main loop with "RESET"s anywhere in between, received up to some
    point (`pre`) and up to a later one (`pre ++ mid`).  If the outgoing hook
    sends a packet of the session to `box` at the first point, the incoming hook
    gives every packet from `box` the address of the session at the second. -/
theorem loss_free_translation (cs : Csum) (side : Side) (ds : List Datagram)
    {pre mid post : List String}
    (hcmds : (pre ++ mid ++ post).filter (· ≠ "RESET") =
      netlinks (mainLoop MainState.init ds).log)
    {skb skb' : SkBuff} (htcp : skb.IsTcp) (hdst : skb.iph.daddr = side.peer)
    (hport : side.outPort skb = 5001) (htcp' : skb'.IsTcp)
    (hbox : skb'.iph.saddr =
      (side.outgoingBegin cs (side.table pre) skb).2.iph.daddr)
    (hport' : side.inPort skb' = 5001) :
    side.incomingBegin (side.table (pre ++ mid)) skb' = (.accept, skb'.setSaddr side.peer) := by
  obtain ⟨b, n, hpre, hack, -⟩ := side.session pre
  obtain ⟨b', n', hmid, -, hsyn⟩ := side.session (pre ++ mid)
  rw [Side.outgoing_daddr hpre htcp hdst hport] at hbox
  cases b with
  | false => exact Side.incoming_setSaddr hmid.find_back htcp' hbox hport'
  | true =>
    -- the new path: an "ACK" has come, and the "SYN" before it
    have hG : Gated (mainLoop MainState.init ds) := Gated.init.mainLoop ds
    rw [List.append_assoc, List.filter_append] at hcmds
    have hackMem : "ACK" ∈ pre.filter (· ≠ "RESET") :=
      List.mem_filter.mpr ⟨hack rfl, by decide⟩
    have hsynMem := (List.mem_filter.mp (hG.syn_before_ack hcmds.symm hackMem)).1
    have hn := hsyn (List.mem_append_left _ hsynMem)
    exact Side.incoming_setSaddr (hmid.find_back' hn) htcp' hbox hport'

/-- An update is accepted and activated; the operator resets the client, and a
    packet from the new path is still translated. -/
theorem loss_free_translation_session :
    Client.incomingBegin (Client.table ["SYN", "ACK", "RESET"])
        (.bare newBox clientAddr 5001 40000) =
      (.accept, (SkBuff.bare newBox clientAddr 5001 40000).setSaddr serverAddr) := by
  have hcmds : (["SYN", "ACK"] ++ ["RESET"] ++ []).filter (· ≠ "RESET") =
      netlinks (mainLoop MainState.init
        [recvfrom ⟨⟨0, 0⟩, ⟨0, UDP_PORT⟩, synBytes ackKey 100 [0]⟩ 0,
          recvfrom ⟨⟨0, 0⟩, ⟨0, UDP_PORT⟩, ackBytes 100⟩ 0]).log := by
    decide +kernel
  have htcp : (SkBuff.bare clientAddr serverAddr 40000 5001).IsTcp := ⟨rfl, rfl⟩
  exact loss_free_translation Csum.standard .client _ hcmds htcp rfl (by decide) ⟨rfl, rfl⟩
    (by decide +kernel) (by decide)

end MiddleboxSession
