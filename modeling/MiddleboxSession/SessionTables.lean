/-
  MiddleboxSession/SessionTables.lean
  ===================================
  **What the messages to an endpoint amount to.**

  To the client they amount to two bits, although its table grows with every
  "SYN".  Its lookups are those of a machine that holds nothing else, the table
  holds every record once as long as at most one "SYN" has come, and packets of
  other connections are left alone, unless the other end is a middlebox that
  the table has a record back from.

  The server adds records only where there are none.  It holds each of them
  once, but its "RESET" does nothing, and an "ACK" is never taken back.
-/
import MiddleboxSession.Migration

namespace MiddleboxSession

open CBuffer UTHash

namespace Client

/-! ### Two bits -/

/-- What the client's table is about: whether the session is on the new path, and
    whether there is a way back from it. -/
structure Bits where
  activated : Bool
  synSeen : Bool
deriving DecidableEq, Repr

namespace Bits

def loaded : Bits := ⟨false, false⟩

def step (b : Bits) (msg : String) : Bits :=
  if msg = "ACK" then { b with activated := true }
  else if msg = "SYN" then { b with synSeen := true }
  else if msg = "RESET" then { b with activated := false }
  else b

def run (msgs : List String) : Bits := msgs.foldl step loaded

def lookup (b : Bits) (k : RecordKey) : Option Record :=
  if k = ⟨0, serverAddr, 0, 5001⟩ then some (out (path b.activated))
  else if k = ⟨oldBox, 0, 5001, 0⟩ then some (back oldBox)
  else if k = ⟨newBox, 0, 5001, 0⟩ ∧ b.synSeen then some (back newBox)
  else none

theorem run_eq (msgs : List String) :
    run msgs = ⟨Client.activated msgs, decide ("SYN" ∈ msgs)⟩ := by
  induction msgs using List.reverseRecOn with
  | nil => rfl
  | append_singleton msgs msg ih =>
    have hrun : run (msgs ++ [msg]) = (run msgs).step msg := by
      rw [run, List.foldl_append]
      rfl
    rw [hrun, ih, activated_concat, step]
    split
    · rename_i hack
      simp [hack]
    split
    · rename_i hsyn
      simp [hsyn]
    rename_i hsyn
    split <;> simp [Ne.symm hsyn]

end Bits

theorem activated_iff {msgs : List String} : activated msgs = true ↔
    ∃ pre post, msgs = pre ++ "ACK" :: post ∧ "RESET" ∉ post := by
  induction msgs using List.reverseRecOn with
  | nil => simp [activated]
  | append_singleton msgs msg ih =>
    rw [activated_concat]
    constructor
    · intro h
      split at h
      · rename_i hack
        exact ⟨msgs, [], by rw [hack], List.not_mem_nil⟩
      split at h
      · cases h
      · rename_i hreset
        obtain ⟨pre, post, rfl, hpost⟩ := ih.mp h
        refine ⟨pre, post ++ [msg], by simp, fun hmem => ?_⟩
        rcases List.mem_append.mp hmem with hmem | hmem
        · exact hpost hmem
        · exact hreset (List.mem_singleton.mp hmem).symm
    · rintro ⟨pre, post, heq, hpost⟩
      rcases List.eq_nil_or_concat post with rfl | ⟨post', last, rfl⟩
      · have hmsg := (List.append_inj' heq rfl).2
        rw [if_pos (List.cons.inj hmsg).1]
      · -- the last message is neither the "ACK" nor a "RESET"
        have heq' : msgs ++ [msg] = (pre ++ "ACK" :: post') ++ [last] := by
          rw [heq]
          simp
        obtain ⟨hmsgs, hmsg⟩ := List.append_inj' heq' rfl
        rw [List.concat_eq_append, List.mem_append, not_or] at hpost
        have hreset : msg ≠ "RESET" := by
          rintro rfl
          exact hpost.2 (hmsg ▸ List.mem_singleton_self _)
        rw [if_neg hreset, ih.mpr ⟨pre, post', hmsgs, hpost.1⟩, ite_self]

theorem find_table (msgs : List String) (k : RecordKey) :
    hashFind (table msgs) k = (Bits.run msgs).lookup k := by
  have hsyn : msgs.count "SYN" ≠ 0 ↔ decide ("SYN" ∈ msgs) = true := by
    rw [decide_eq_true_iff, ← Nat.pos_iff_ne_zero, List.count_pos_iff]
  refine ((session msgs).find k).trans ?_
  rw [Bits.run_eq]
  simp only [hsyn]
  rfl

/-- **The client's table refines the two bits**: whatever messages it has
    received, every lookup has the result that the bits give, and the bits say
    whether an "ACK" came after the last "RESET" and whether a "SYN" came. -/
theorem table_refines_bits (msgs : List String) :
    (∀ k, hashFind (table msgs) k = (Bits.run msgs).lookup k) ∧
      ((Bits.run msgs).activated = true ↔
        ∃ pre post, msgs = pre ++ "ACK" :: post ∧ "RESET" ∉ post) ∧
      ((Bits.run msgs).synSeen = true ↔ "SYN" ∈ msgs) := by
  refine ⟨find_table msgs, ?_, ?_⟩
  · rw [Bits.run_eq]
    exact activated_iff
  · rw [Bits.run_eq]
    exact decide_eq_true_iff

end Client

/-! ### "RESET" on the server -/

/-- A packet of the server application to the client. -/
structure Server.Outgoing (skb : SkBuff) : Prop where
  tcp : skb.IsTcp
  daddr : skb.iph.daddr = clientAddr
  port : ntohs skb.tcph.source = 5001

/-- The outgoing mapping follows the "ACK"s and "RESET"s as it does on the client,
    and right after a "RESET" every packet goes to the old middlebox. -/
structure Server.ResetRestores (msgs : List String) : Prop where
  mapping : (hashFind (Server.table msgs) ⟨0, clientAddr, 5001, 0⟩).map Record.dst =
    some (path (Client.activated msgs))
  packets : ∀ pre, msgs = pre ++ ["RESET"] → ∀ cs skb, Server.Outgoing skb →
    Server.outgoingBegin cs (Server.table msgs) skb = (.accept, skb.rewriteDaddr cs oldBox)

theorem path_injective : Function.Injective path := by decide

theorem Server.find_out (msgs : List String) :
    hashFind (Server.table msgs) ⟨0, clientAddr, 5001, 0⟩ =
      some (Server.out (path ("ACK" ∈ msgs))) :=
  (Server.session msgs).find_out

/-- **When "RESET" restores the old path on the server**: as long as no "ACK" came,
    or one came after the last "RESET". -/
theorem server_reset_restores_iff (msgs : List String) :
    Server.ResetRestores msgs ↔ ("ACK" ∈ msgs → Client.activated msgs = true) := by
  constructor
  · intro h hack
    have hmap := h.mapping
    rw [Server.find_out, Option.map_some, Option.some_inj] at hmap
    rw [← path_injective hmap]
    exact decide_eq_true hack
  · intro h
    have hbit : decide ("ACK" ∈ msgs) = Client.activated msgs := by
      rw [Bool.eq_iff_iff, decide_eq_true_iff]
      exact ⟨h, Client.ack_mem_of_activated⟩
    have hsession := Server.session msgs
    rw [hbit] at hsession
    constructor
    · rw [Server.find_out, hbit]
      rfl
    · rintro pre rfl cs skb hskb
      have hact : Client.activated (pre ++ ["RESET"]) = false := Client.activated_concat pre _
      rw [hact] at hsession
      exact Server.outgoingBegin_session cs hsession hskb.tcp hskb.daddr hskb.port

/-- An "ACK" and then a "RESET": the server stays on the new path. -/
theorem server_reset_without_effect : ¬ Server.ResetRestores ["ACK", "RESET"] := by
  intro h
  have hmap := h.mapping
  rw [Server.find_out] at hmap
  exact absurd hmap (by decide)

/-! ### How often a table holds a record -/

theorem Session.uniqueKeys_iff {records : KernelTable} {out back back' : Record} {n : Nat}
    (h : Session records out back back' n) : UniqueKeys records ↔ n ≤ 1 := by
  have hout : out.key ∉ Multiset.replicate n back'.key :=
    fun hmem => h.out_back' (Multiset.eq_of_mem_replicate hmem)
  have hback : back.key ∉ Multiset.replicate n back'.key :=
    fun hmem => h.back_back' (Multiset.eq_of_mem_replicate hmem)
  rw [UniqueKeys, h.bag, Multiset.map_cons, Multiset.map_cons, Multiset.map_replicate,
    Multiset.nodup_cons, Multiset.nodup_cons, Multiset.mem_cons, not_or]
  constructor
  · intro hu
    exact List.nodup_replicate.mp (Multiset.coe_nodup.mp hu.2.2)
  · intro hn
    exact ⟨⟨h.out_back, hout⟩, hback, Multiset.coe_nodup.mpr (List.nodup_replicate.mpr hn)⟩

theorem Session.unique_card_iff {records : KernelTable} {out back back' : Record} {n : Nat}
    (h : Session records out back back' n) :
    UniqueKeys records ∧ (UTHash.bag records).card ≤ 3 ↔ n ≤ 1 := by
  have hcard : (UTHash.bag records).card = n + 2 := by
    rw [h.bag, Multiset.card_cons, Multiset.card_cons, Multiset.card_replicate]
  rw [hcard, h.uniqueKeys_iff]
  exact and_iff_left_of_imp fun hn => Nat.add_le_add_right hn 2

/-- **When a table holds at most one record per key**, and so at most three: on
    the server always, on the client as long as at most one "SYN" has come. -/
theorem unique_keys_iff (side : Side) (msgs : List String) :
    UniqueKeys (side.table msgs) ∧ (bag (side.table msgs)).card ≤ 3 ↔
      side = .server ∨ msgs.count "SYN" ≤ 1 := by
  cases side with
  | client =>
    rw [or_iff_right (by decide)]
    exact (Client.session msgs).unique_card_iff
  | server =>
    refine iff_of_true ((Server.session msgs).unique_card_iff.mpr ?_) (Or.inl rfl)
    split
    · exact Nat.le_refl 1
    · exact Nat.zero_le 1

/-- Two updates: the client holds the record back from the new path twice. -/
theorem client_syn_twice : ¬ UniqueKeys (Client.table ["SYN", "SYN"]) := by
  rw [(Client.session _).uniqueKeys_iff]
  decide

/-! ### Other connections of the client -/

/-- The ends whose packets to the client pass for packets of the session. -/
def Client.Translated (msgs : List String) (remote : Addr) (port : BitVec 16) : Prop :=
  port = 5001 ∧ (remote = oldBox ∨ remote = newBox ∧ "SYN" ∈ msgs)

section Other

variable {msgs : List String} {skb : SkBuff}

theorem Client.find_outKey_none
    (h : (skb.iph.daddr, ntohs skb.tcph.dest) ≠ (serverAddr, 5001)) :
    hashFind (Client.table msgs) (Client.outKey skb) = none := by
  have hout : Client.outKey skb ≠ ⟨0, serverAddr, 0, 5001⟩ := by
    intro hk
    exact h (Prod.ext (congrArg RecordKey.dst hk) (congrArg RecordKey.dport hk))
  have hback : ∀ box, Client.outKey skb ≠ ⟨box, 0, 5001, 0⟩ := by
    intro box hk
    exact absurd (congrArg RecordKey.sport hk) (by decide : (0 : BitVec 16) ≠ 5001)
  rw [Client.find_table, Client.Bits.lookup, if_neg hout, if_neg (hback oldBox),
    if_neg fun hk => hback newBox hk.1]

theorem Client.find_inKey_none
    (h : ¬ Client.Translated msgs skb.iph.saddr (ntohs skb.tcph.source)) :
    hashFind (Client.table msgs) (Client.inKey skb) = none := by
  have hout : Client.inKey skb ≠ ⟨0, serverAddr, 0, 5001⟩ := by
    intro hk
    exact absurd (congrArg RecordKey.dport hk) (by decide : (0 : BitVec 16) ≠ 5001)
  have hold : Client.inKey skb ≠ ⟨oldBox, 0, 5001, 0⟩ := by
    intro hk
    exact h ⟨congrArg RecordKey.sport hk, Or.inl (congrArg RecordKey.src hk)⟩
  have hnew : ¬ (Client.inKey skb = ⟨newBox, 0, 5001, 0⟩ ∧
      (Client.Bits.run msgs).synSeen = true) := by
    rintro ⟨hk, hsyn⟩
    rw [Client.Bits.run_eq, decide_eq_true_iff] at hsyn
    exact h ⟨congrArg RecordKey.sport hk, Or.inr ⟨congrArg RecordKey.src hk, hsyn⟩⟩
  rw [Client.find_table, Client.Bits.lookup, if_neg hout, if_neg hold, if_neg hnew]

theorem Client.incomingBegin_translated (htcp : skb.IsTcp)
    (h : Client.Translated msgs skb.iph.saddr (ntohs skb.tcph.source)) :
    Client.incomingBegin (Client.table msgs) skb = (.accept, skb.setSaddr serverAddr) := by
  rcases h with ⟨hport, hold | ⟨hnew, hsyn⟩⟩
  · exact Client.incomingBegin_session (Client.session msgs).find_back htcp hold hport
  · have hn := (List.count_pos_iff.mpr hsyn).ne'
    exact Client.incomingBegin_session ((Client.session msgs).find_back' hn) htcp hnew hport

theorem Client.Translated.ne_server {remote : Addr} {port : BitVec 16}
    (h : Client.Translated msgs remote port) : remote ≠ serverAddr := by
  rcases h with ⟨-, rfl | ⟨rfl, -⟩⟩
  · decide
  · decide

end Other

/-- **Traffic outside the session**: a connection of the client with any other end
    than the session's goes out unchanged, and what comes back is unchanged
    unless that end is a middlebox that the table has a record back from. -/
theorem other_traffic (cs : Csum) (msgs : List String) (remote : Addr) (port : BitVec 16)
    (h : (remote, port) ≠ (serverAddr, 5001)) :
    (∀ skb : SkBuff, skb.IsTcp → skb.iph.daddr = remote → ntohs skb.tcph.dest = port →
      Client.outgoingBegin cs (Client.table msgs) skb = (.accept, skb)) ∧
    (∀ skb : SkBuff, skb.IsTcp → skb.iph.saddr = remote → ntohs skb.tcph.source = port →
      (Client.incomingBegin (Client.table msgs) skb = (.accept, skb) ↔
        ¬ Client.Translated msgs remote port)) := by
  constructor
  · rintro skb htcp rfl rfl
    rw [Client.outgoingBegin, outgoingHook_tcp htcp, Client.find_outKey_none h]
  · rintro skb htcp rfl rfl
    constructor
    · intro hin htrans
      rw [Client.incomingBegin_translated htcp htrans] at hin
      have hsaddr : serverAddr = skb.iph.saddr := congrArg (·.2.iph.saddr) hin
      exact htrans.ne_server hsaddr.symm
    · intro htrans
      rw [Client.incomingBegin, incomingHook_tcp htcp, Client.find_inKey_none htrans]

/-- A connection to a web server. -/
theorem other_traffic_web :
    Client.outgoingBegin Csum.standard (Client.table ["SYN", "ACK"])
        (.bare clientAddr (inetAton 8 8 8 8) 40000 80) =
      (.accept, .bare clientAddr (inetAton 8 8 8 8) 40000 80) ∧
    Client.incomingBegin (Client.table ["SYN", "ACK"])
        (.bare (inetAton 8 8 8 8) clientAddr 80 40000) =
      (.accept, .bare (inetAton 8 8 8 8) clientAddr 80 40000) := by
  have h := other_traffic Csum.standard ["SYN", "ACK"] (inetAton 8 8 8 8) 80 (by decide)
  constructor
  · exact h.1 _ ⟨rfl, rfl⟩ rfl (by decide)
  · refine (h.2 _ ⟨rfl, rfl⟩ rfl (by decide)).mpr ?_
    rintro ⟨hport, -⟩
    exact absurd hport (by decide)

/-- The client connects to the old middlebox itself, and its answers seem to come
    from the server. -/
theorem other_traffic_middlebox :
    (oldBox, (5001 : BitVec 16)) ≠ (serverAddr, 5001) ∧
      (Client.incomingBegin (Client.table []) (.bare oldBox clientAddr 5001 40000)).2.iph.saddr ≠
        oldBox := by
  refine ⟨by decide, ?_⟩
  have htrans : Client.Translated [] oldBox 5001 := ⟨rfl, Or.inl rfl⟩
  rw [Client.incomingBegin_translated ⟨rfl, rfl⟩ htrans]
  decide

end MiddleboxSession
