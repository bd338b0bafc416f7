/-
  MiddleboxSession/ServerKernel.lean
  ==================================
  **The kernel module of the server**: its table after loading,
  `hello_nl_recv_msg` and the two hooks.

  It adds records only through `addHash`, so it never holds one twice; but its
  "RESET" adds the outgoing record where there is one already, so an "ACK" is
  never taken back.
-/
import MiddleboxSession.Endpoint

namespace MiddleboxSession

open CBuffer UTHash

namespace Server

def out (dst : Addr) : Record := ⟨⟨0, clientAddr, 5001, 0⟩, 0, dst, 0, 0⟩

def back (src : Addr) : Record := ⟨⟨src, 0, 0, 5001⟩, clientAddr, 0, 0, 0⟩

def pktMangleInit : KernelTable := hashAdd (hashAdd none (out oldBox)) (back oldBox)

/-- `hello_nl_recv_msg`, as far as the table is concerned. -/
def helloNlRecvMsg (records : KernelTable) (msg : String) : KernelTable :=
  let records := if msg = "ACK" then assignDst records (out 0).key newBox else records
  if msg = "SYN" then addHash records (back newBox)
  else if msg = "RESET" then addHash records (out oldBox)
  else records

def table (msgs : List String) : KernelTable := msgs.foldl helloNlRecvMsg pktMangleInit

def outKey (skb : SkBuff) : RecordKey := ⟨0, skb.iph.daddr, ntohs skb.tcph.source, 0⟩

def inKey (skb : SkBuff) : RecordKey := ⟨skb.iph.saddr, 0, 0, ntohs skb.tcph.dest⟩

def outgoingBegin (cs : Csum) : KernelTable → SkBuff → Verdict × SkBuff := outgoingHook cs outKey

def incomingBegin : KernelTable → SkBuff → Verdict × SkBuff := incomingHook inKey

/-! ### The table after any messages -/

theorem session_init : Session pktMangleInit (out oldBox) (back oldBox) (back newBox) 0 :=
  .init (by decide) (by decide) (by decide)

theorem session_step {records : KernelTable} {b : Bool} {n : Nat}
    (h : Session records (out (path b)) (back oldBox) (back newBox) n) (msg : String) :
    Session (helloNlRecvMsg records msg) (out (path (if msg = "ACK" then true else b)))
      (back oldBox) (back newBox) (if msg = "SYN" then max n 1 else n) := by
  unfold helloNlRecvMsg
  by_cases hack : msg = "ACK"
  · subst hack
    exact h.assignDst newBox
  simp only [if_neg hack]
  by_cases hsyn : msg = "SYN"
  · subst hsyn
    exact h.addHash_back'
  rw [if_neg hsyn, if_neg hsyn]
  by_cases hreset : msg = "RESET"
  · rw [if_pos hreset, h.addHash_out (out oldBox) rfl]
    exact h
  · rw [if_neg hreset]
    exact h

/-- **The server's table.** -/
theorem session (msgs : List String) :
    Session (table msgs) (out (path ("ACK" ∈ msgs))) (back oldBox) (back newBox)
      (if "SYN" ∈ msgs then 1 else 0) := by
  induction msgs using List.reverseRecOn with
  | nil => exact session_init
  | append_singleton msgs msg ih =>
    have h := session_step ih msg
    rw [table, List.foldl_append]
    have hb : decide ("ACK" ∈ msgs ++ [msg]) =
        if msg = "ACK" then true else decide ("ACK" ∈ msgs) := by
      by_cases hack : msg = "ACK"
      · simp [hack]
      · simp [hack, Ne.symm hack]
    have hn : (if "SYN" ∈ msgs ++ [msg] then 1 else 0) =
        if msg = "SYN" then max (if "SYN" ∈ msgs then 1 else 0) 1
        else if "SYN" ∈ msgs then 1 else 0 := by
      by_cases hsyn : msg = "SYN"
      · by_cases hmem : "SYN" ∈ msgs <;> simp [hsyn, hmem]
      · simp [hsyn, Ne.symm hsyn]
    rw [hb, hn]
    exact h

/-! ### Packets of the session -/

section Packets

variable (cs : Csum) {records : KernelTable} {skb : SkBuff}

theorem outgoingBegin_session {b : Bool} {n : Nat}
    (h : Session records (out (path b)) (back oldBox) (back newBox) n) (htcp : skb.IsTcp)
    (hdst : skb.iph.daddr = clientAddr) (hport : ntohs skb.tcph.source = 5001) :
    outgoingBegin cs records skb = (.accept, skb.rewriteDaddr cs (path b)) := by
  have hkey : outKey skb = (out (path b)).key := by
    rw [outKey, hdst, hport]
    rfl
  rw [outgoingBegin, outgoingHook_tcp htcp, hkey, h.find_out]
  rfl

theorem incomingBegin_session {box : Addr} (hfind : hashFind records (back box).key = some (back box))
    (htcp : skb.IsTcp) (hsrc : skb.iph.saddr = box) (hport : ntohs skb.tcph.dest = 5001) :
    incomingBegin records skb = (.accept, skb.setSaddr clientAddr) := by
  have hkey : inKey skb = (back box).key := by
    rw [inKey, hsrc, hport]
    rfl
  rw [incomingBegin, incomingHook_tcp htcp, hkey, hfind]
  rfl

end Packets

end Server

end MiddleboxSession
