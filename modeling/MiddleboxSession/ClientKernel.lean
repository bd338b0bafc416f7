/-
  MiddleboxSession/ClientKernel.lean
  ==================================
  **The kernel module of the client**: its table after loading, `netlink_agent`
  and the two hooks.

  `clientSession` says what the table is after any sequence of messages: two
  things matter, whether an "ACK" came since the last "RESET", and how many
  "SYN"s came.
-/
import MiddleboxSession.Endpoint

namespace MiddleboxSession

open CBuffer UTHash

namespace Client

def out (dst : Addr) : Record := ⟨⟨0, serverAddr, 0, 5001⟩, 0, dst, 0, 0⟩

def back (src : Addr) : Record := ⟨⟨src, 0, 5001, 0⟩, serverAddr, 0, 0, 0⟩

def pktMangleInit : KernelTable := hashAdd (hashAdd none (out oldBox)) (back oldBox)

/-- `netlink_agent`, as far as the table is concerned. -/
def netlinkAgent (records : KernelTable) (msg : String) : KernelTable :=
  if msg = "ACK" then assignDst records (out 0).key newBox
  else if msg = "SYN" then hashAdd records (back newBox)
  else if msg = "RESET" then
    let records := addHash (deleteHash records (out oldBox)) (out oldBox)
    addHash (deleteHash records (back oldBox)) (back oldBox)
  else records

def table (msgs : List String) : KernelTable := msgs.foldl netlinkAgent pktMangleInit

def outKey (skb : SkBuff) : RecordKey := ⟨0, skb.iph.daddr, 0, ntohs skb.tcph.dest⟩

def inKey (skb : SkBuff) : RecordKey := ⟨skb.iph.saddr, 0, ntohs skb.tcph.source, 0⟩

def outgoingBegin (cs : Csum) : KernelTable → SkBuff → Verdict × SkBuff := outgoingHook cs outKey

def incomingBegin : KernelTable → SkBuff → Verdict × SkBuff := incomingHook inKey

/-! ### The table after any messages -/

/-- Whether an "ACK" has arrived since the last "RESET". -/
def activated (msgs : List String) : Bool :=
  msgs.foldl (fun b msg => if msg = "ACK" then true else if msg = "RESET" then false else b) false

theorem activated_concat (msgs : List String) (msg : String) : activated (msgs ++ [msg]) =
    if msg = "ACK" then true else if msg = "RESET" then false else activated msgs := by
  rw [activated, List.foldl_append]
  rfl

theorem session_init : Session pktMangleInit (out oldBox) (back oldBox) (back newBox) 0 :=
  .init (by decide) (by decide) (by decide)

theorem session_step {records : KernelTable} {b : Bool} {n : Nat}
    (h : Session records (out (path b)) (back oldBox) (back newBox) n) (msg : String) :
    Session (netlinkAgent records msg)
      (out (path (if msg = "ACK" then true else if msg = "RESET" then false else b)))
      (back oldBox) (back newBox) (n + if msg = "SYN" then 1 else 0) := by
  unfold netlinkAgent
  by_cases hack : msg = "ACK"
  · subst hack
    exact h.assignDst newBox
  rw [if_neg hack, if_neg hack]
  by_cases hsyn : msg = "SYN"
  · subst hsyn
    exact h.add
  rw [if_neg hsyn, if_neg hsyn]
  by_cases hreset : msg = "RESET"
  · rw [if_pos hreset, if_pos hreset]
    exact (h.replace_out (out oldBox) rfl).replace_back
  · rw [if_neg hreset, if_neg hreset]
    exact h

/-- **The client's table.** -/
theorem session (msgs : List String) :
    Session (table msgs) (out (path (activated msgs))) (back oldBox) (back newBox)
      (msgs.count "SYN") := by
  induction msgs using List.reverseRecOn with
  | nil => exact session_init
  | append_singleton msgs msg ih =>
    have h := session_step ih msg
    rw [table, activated_concat, List.foldl_append, List.count_append, List.count_singleton]
    simp only [beq_iff_eq]
    exact h

/-- The new path is taken only after an "ACK". -/
theorem ack_mem_of_activated {msgs : List String} (h : activated msgs = true) :
    "ACK" ∈ msgs := by
  induction msgs using List.reverseRecOn with
  | nil => cases h
  | append_singleton msgs msg ih =>
    rw [activated_concat] at h
    split at h
    · rename_i hack
      rw [hack]
      exact List.mem_append_right _ (List.mem_singleton_self _)
    · split at h
      · cases h
      · exact List.mem_append_left _ (ih h)

/-! ### Packets of the session -/

section Packets

variable (cs : Csum) {records : KernelTable} {skb : SkBuff}

/-- A packet of the session goes where the outgoing record points. -/
theorem outgoingBegin_session {b : Bool} {n : Nat}
    (h : Session records (out (path b)) (back oldBox) (back newBox) n) (htcp : skb.IsTcp)
    (hdst : skb.iph.daddr = serverAddr) (hport : ntohs skb.tcph.dest = 5001) :
    outgoingBegin cs records skb = (.accept, skb.rewriteDaddr cs (path b)) := by
  have hkey : outKey skb = (out (path b)).key := by
    rw [outKey, hdst, hport]
    rfl
  rw [outgoingBegin, outgoingHook_tcp htcp, hkey, h.find_out]
  rfl

/-- A packet from an address with a record back gets the address of the session. -/
theorem incomingBegin_session {box : Addr} (hfind : hashFind records (back box).key = some (back box))
    (htcp : skb.IsTcp) (hsrc : skb.iph.saddr = box) (hport : ntohs skb.tcph.source = 5001) :
    incomingBegin records skb = (.accept, skb.setSaddr serverAddr) := by
  have hkey : inKey skb = (back box).key := by
    rw [inKey, hsrc, hport]
    rfl
  rw [incomingBegin, incomingHook_tcp htcp, hkey, hfind]
  rfl

end Packets

end Client

end MiddleboxSession
