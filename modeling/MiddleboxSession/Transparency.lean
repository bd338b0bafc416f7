/-
  MiddleboxSession/Transparency.lean
  ==================================
  **End-to-end transparency of the address translation.**

  A packet of the session passes four hooks: the sender's outgoing one, the two
  of the middlebox that its new destination names, and the receiver's incoming
  one.  Whatever messages the two endpoints have received, on the old or on the
  new path, the four compose to the identity on addresses and ports, if
  `skb_linearize` leaves the head of the packet where it is.  Behind a copy the
  prerouting hook rewrites the old head, and a packet of the client goes on with
  the address of the middlebox; a reply is rewritten before `skb_linearize`.
-/
import MiddleboxSession.ClientKernel
import MiddleboxSession.ServerKernel
import MiddleboxSession.Linearize

namespace MiddleboxSession

open CBuffer UTHash

def through (hooks : List (SkBuff → Verdict × SkBuff)) (skb : SkBuff) : Option SkBuff :=
  hooks.foldlM (fun skb hook => passed (hook skb)) skb

/-- The hooks of the middlebox, and what `skb_linearize` does if it is called. -/
def middleboxHooks (cs : Csum) (o : Middlebox.Linearize) : List (SkBuff → Verdict × SkBuff) :=
  [Middlebox.incomingChangeBegin cs o.rewrites Middlebox.pktMangleInit,
    Middlebox.outgoingChangeBegin cs Middlebox.pktMangleInit]

def clientToServer (cs : Csum) (o : Middlebox.Linearize) (client server : KernelTable) :
    SkBuff → Option SkBuff :=
  through (Client.outgoingBegin cs client ::
    (middleboxHooks cs o ++ [Server.incomingBegin server]))

def serverToClient (cs : Csum) (o : Middlebox.Linearize) (client server : KernelTable) :
    SkBuff → Option SkBuff :=
  through (Server.outgoingBegin cs server ::
    (middleboxHooks cs o ++ [Client.incomingBegin client]))

/-- A packet of the client application to the server. -/
structure FromClient (skb : SkBuff) : Prop where
  tcp : skb.IsTcp
  saddr : skb.iph.saddr = clientAddr
  daddr : skb.iph.daddr = serverAddr
  port : ntohs skb.tcph.dest = 5001

/-- A reply of the server application to the client. -/
structure FromServer (skb : SkBuff) : Prop where
  tcp : skb.IsTcp
  saddr : skb.iph.saddr = serverAddr
  daddr : skb.iph.daddr = clientAddr
  port : ntohs skb.tcph.source = 5001

structure SameTuple (skb skb' : SkBuff) : Prop where
  saddr : skb'.iph.saddr = skb.iph.saddr
  daddr : skb'.iph.daddr = skb.iph.daddr
  source : skb'.tcph.source = skb.tcph.source
  dest : skb'.tcph.dest = skb.tcph.dest

section Hops

variable (cs : Csum) (o : Middlebox.Linearize) {skb : SkBuff}

/-! ### The middlebox -/

namespace Middlebox

/-- The packet behind the prerouting hook. -/
def prerouted (skb : SkBuff) : SkBuff :=
  (incomingChangeBegin cs o.rewrites pktMangleInit skb).2

theorem prerouted_sport (htcp : skb.IsTcp) {r : Record}
    (hs : hashFind pktMangleInit (sportKey skb) = some r) :
    prerouted cs o skb = skb.rewriteDaddr cs r.dst := by
  rw [prerouted, incoming_sport cs htcp hs]

theorem prerouted_dport (htcp : skb.IsTcp) {r : Record}
    (hs : hashFind pktMangleInit (sportKey skb) = none)
    (hd : hashFind pktMangleInit (dportKey skb) = some r) :
    prerouted cs o skb = if o.rewrites then skb.rewriteDaddr cs r.dst else skb := by
  rw [prerouted, incoming_dport cs htcp hs hd]

theorem prerouted_none (htcp : skb.IsTcp) (h : preroutingRecord pktMangleInit skb = none) :
    prerouted cs o skb = skb := by
  obtain ⟨hs, hd⟩ := Option.or_eq_none_iff.mp h
  rw [prerouted, incomingChangeBegin_tcp htcp, tcpHeaderWritePrerouting, hs, hd]

/-- The hook changes nothing but the destination, and the checksums with it. -/
theorem prerouted_cases (htcp : skb.IsTcp) :
    prerouted cs o skb = skb ∨ ∃ a, prerouted cs o skb = skb.rewriteDaddr cs a := by
  cases hs : hashFind pktMangleInit (sportKey skb) with
  | some r => exact Or.inr ⟨r.dst, prerouted_sport cs o htcp hs⟩
  | none =>
    cases hd : hashFind pktMangleInit (dportKey skb) with
    | some r =>
      rw [prerouted_dport cs o htcp hs hd]
      split
      · exact Or.inr ⟨r.dst, rfl⟩
      · exact Or.inl rfl
    | none => exact Or.inl (prerouted_none cs o htcp (by rw [preroutingRecord, hs, hd]; rfl))

theorem prerouted_tcp (htcp : skb.IsTcp) : (prerouted cs o skb).IsTcp := by
  rcases prerouted_cases cs o htcp with h | ⟨a, h⟩ <;> rw [h]
  · exact htcp
  · exact htcp.rewriteDaddr cs a

theorem prerouted_valid (htcp : skb.IsTcp) (hv : skb.Valid) : (prerouted cs o skb).Valid := by
  rcases prerouted_cases cs o htcp with h | ⟨a, h⟩ <;> rw [h]
  · exact hv
  · exact hv.rewriteDaddr htcp a

/-- The postrouting hook finds the same record again. -/
theorem postroutingRecord_prerouted (htcp : skb.IsTcp) :
    postroutingRecord pktMangleInit (prerouted cs o skb) = preroutingRecord pktMangleInit skb := by
  have hsame : postroutingRecord pktMangleInit (prerouted cs o skb) =
      postroutingRecord pktMangleInit skb := by
    rcases prerouted_cases cs o htcp with h | ⟨a, h⟩ <;> rw [h]
    rfl
  rw [hsame, postroutingRecord_eq]

end Middlebox

open Middlebox

/-- The record that the prerouting hook finds decides what leaves the middlebox. -/
theorem middleboxHooks_record (htcp : skb.IsTcp) : through (middleboxHooks cs o) skb =
    some (((preroutingRecord pktMangleInit skb).map fun r =>
      (prerouted cs o skb).rewriteSaddr cs r.src).getD (prerouted cs o skb)) := by
  have hin : passed (incomingChangeBegin cs o.rewrites pktMangleInit skb) =
      some (prerouted cs o skb) := by
    rw [prerouted, incomingChangeBegin_tcp htcp]
    rfl
  have hout := @outgoingChangeBegin_record cs pktMangleInit _ (prerouted_tcp cs o htcp)
  rw [postroutingRecord_prerouted cs o htcp] at hout
  simp only [through, middleboxHooks, List.foldlM_cons, List.foldlM_nil, hin,
    Option.bind_eq_bind, Option.bind_some, hout, passed_stolen]
  rfl

/-- The lookup of the source port misses packets of the client. -/
theorem Middlebox.find_sportKey_client (hsrc : skb.iph.saddr = clientAddr) :
    hashFind pktMangleInit (sportKey skb) = none := by
  rw [find_sportKey, if_neg]
  rintro ⟨h, -⟩
  exact absurd (hsrc.symm.trans h) (by decide)

theorem Middlebox.find_dportKey_client (hsrc : skb.iph.saddr = clientAddr)
    (hport : ntohs skb.tcph.dest = 5001) :
    hashFind pktMangleInit (dportKey skb) = some toServer := by
  rw [find_dportKey, if_pos ⟨hsrc, hport⟩]

/-- The middlebox sends packets of the client on, whatever their source port: to
    the server, if the rewriting reaches the packet. -/
theorem middleboxHooks_client (htcp : skb.IsTcp) (hsrc : skb.iph.saddr = clientAddr)
    (hport : ntohs skb.tcph.dest = 5001) : through (middleboxHooks cs o) skb =
      some ((if o.rewrites then skb.rewriteDaddr cs serverAddr else skb).rewriteSaddr cs
        oldBox) := by
  have hs := find_sportKey_client hsrc
  have hd := find_dportKey_client hsrc hport
  rw [middleboxHooks_record cs o htcp, prerouted_dport cs o htcp hs hd, preroutingRecord, hs, hd]
  rfl

/-- And packets of the server on to the client, whatever their destination port. -/
theorem middleboxHooks_server (htcp : skb.IsTcp) (hsrc : skb.iph.saddr = serverAddr)
    (hport : ntohs skb.tcph.source = 5001) : through (middleboxHooks cs o) skb =
      some ((skb.rewriteDaddr cs clientAddr).rewriteSaddr cs oldBox) := by
  have hs : hashFind pktMangleInit (sportKey skb) = some toClient := by
    rw [find_sportKey, if_pos ⟨hsrc, hport⟩]
  rw [middleboxHooks_record cs o htcp, prerouted_sport cs o htcp hs, preroutingRecord, hs]
  rfl

/-! ### The two hooks -/

/-- The two hooks find the same record, and the packet leaves with the addresses
    of the record and valid checksums; where no record matches it leaves as it
    came. -/
structure HooksAgree (skb : SkBuff) : Prop where
  same : postroutingRecord pktMangleInit
    (incomingChangeBegin cs o.rewrites pktMangleInit skb).2 = preroutingRecord pktMangleInit skb
  record : ∀ r, preroutingRecord pktMangleInit skb = some r →
    ∃ skb', through (middleboxHooks cs o) skb = some skb' ∧
      skb'.iph.daddr = r.dst ∧ skb'.iph.saddr = r.src ∧ skb'.Valid
  unmatched : preroutingRecord pktMangleInit skb = none →
    through (middleboxHooks cs o) skb = some skb

/-- **When the two hooks of the middlebox agree.**  For a valid TCP packet:
    exactly if `skb_linearize` leaves the head where it is, or the packet matches
    no record, or one by the source port, or already has the destination of the
    record. -/
theorem middlebox_hooks_agree (htcp : skb.IsTcp) (hv : skb.Valid) :
    HooksAgree cs o skb ↔ o = .inPlace ∨
      ∀ r, preroutingRecord pktMangleInit skb = some r →
        hashFind pktMangleInit (sportKey skb) = some r ∨ skb.iph.daddr = r.dst := by
  have hleaves : ∀ r, preroutingRecord pktMangleInit skb = some r →
      through (middleboxHooks cs o) skb = some ((prerouted cs o skb).rewriteSaddr cs r.src) := by
    intro r hr
    rw [middleboxHooks_record cs o htcp, hr]
    rfl
  constructor
  · intro h
    by_cases ho : o = .inPlace
    · exact Or.inl ho
    · refine Or.inr fun r hr => ?_
      obtain ⟨skb', hskb', hdst, -⟩ := h.record r hr
      rw [hleaves r hr, Option.some.injEq] at hskb'
      subst hskb'
      rcases Option.or_eq_some_iff.mp hr with hs | ⟨hs, hd⟩
      · exact Or.inl hs
      · have hrewrites : ¬ o.rewrites = true := by cases o <;> simp_all [Linearize.rewrites]
        rw [prerouted_dport cs o htcp hs hd, if_neg hrewrites] at hdst
        exact Or.inr hdst
  · intro h
    refine ⟨postroutingRecord_prerouted cs o htcp, fun r hr => ?_, fun hnone => ?_⟩
    · refine ⟨_, hleaves r hr, ?_, rfl,
        (prerouted_valid cs o htcp hv).rewriteSaddr (prerouted_tcp cs o htcp) _⟩
      rcases Option.or_eq_some_iff.mp hr with hs | ⟨hs, hd⟩
      · rw [prerouted_sport cs o htcp hs]
        rfl
      · rw [prerouted_dport cs o htcp hs hd]
        rcases h with rfl | h
        · rfl
        · have hdst : skb.iph.daddr = r.dst := by
            refine (h r hr).resolve_left fun hs' => ?_
            rw [hs] at hs'
            cases hs'
          split
          · rfl
          · exact hdst
    · rw [middleboxHooks_record cs o htcp, hnone, prerouted_none cs o htcp hnone]
      rfl

end Hops

/-- A valid packet of the session as the client's hook sends it. -/
def toOldBox : SkBuff where
  iph := ⟨4, 5, 0, 0x2800, 0, 0, 64, IPPROTO_TCP, 6847, clientAddr, oldBox, []⟩
  tcph := ⟨0x409c, 0x8913, 0, 0, 0x1050, 0, 21828, 0⟩
  data := []

theorem middlebox_hooks_agree_session : HooksAgree Csum.standard .inPlace toOldBox :=
  (middlebox_hooks_agree Csum.standard .inPlace ⟨rfl, rfl⟩ (by decide)).mpr (Or.inl rfl)

/-- Behind a copy of the head the packet leaves with the address of the middlebox. -/
theorem middlebox_hooks_disagree :
    ¬ ∀ (cs : Csum) (o : Middlebox.Linearize) (skb : SkBuff), o ≠ .failed → skb.IsTcp →
      skb.Valid → HooksAgree cs o skb := by
  intro h
  have hagree := h Csum.standard .moved toOldBox (by decide) ⟨rfl, rfl⟩ (by decide)
  have hrec : Middlebox.preroutingRecord Middlebox.pktMangleInit toOldBox =
      some Middlebox.toServer := by decide +kernel
  obtain ⟨skb', hskb', hdst, -⟩ := hagree.record _ hrec
  rw [middleboxHooks_client Csum.standard .moved ⟨rfl, rfl⟩ rfl (by decide),
    Option.some.injEq] at hskb'
  rw [← hskb'] at hdst
  exact absurd hdst (by decide)

/-! ### The whole way -/

theorem through_append (hooks hooks' : List (SkBuff → Verdict × SkBuff)) (skb : SkBuff) :
    through (hooks ++ hooks') skb = (through hooks skb).bind (through hooks') := by
  rw [through, List.foldlM_append]
  rfl

theorem through_cons (hook : SkBuff → Verdict × SkBuff)
    (hooks : List (SkBuff → Verdict × SkBuff)) (skb : SkBuff) :
    through (hook :: hooks) skb = (passed (hook skb)).bind (through hooks) := by
  rw [through, List.foldlM_cons]
  rfl

section Way

variable (cs : Csum) (o : Middlebox.Linearize) (clientMsgs serverMsgs : List String)
  {skb : SkBuff}

/-- What the server's hook delivers, and for whom. -/
theorem clientToServer_eq (h : FromClient skb) :
    ∃ skb', clientToServer cs o (Client.table clientMsgs) (Server.table serverMsgs) skb =
        some skb' ∧ skb'.iph.saddr = clientAddr ∧
      skb'.iph.daddr = (if o.rewrites then serverAddr else path (Client.activated clientMsgs)) ∧
      skb'.tcph.source = skb.tcph.source ∧ skb'.tcph.dest = skb.tcph.dest := by
  have hout := Client.outgoingBegin_session cs (Client.session clientMsgs) h.tcp h.daddr h.port
  have htcp := h.tcp.rewriteDaddr cs (path (Client.activated clientMsgs))
  have hbox := middleboxHooks_client cs o htcp h.saddr h.port
  obtain ⟨fwd, hfwd, hfwdTcp, hdst, hports⟩ : ∃ fwd : SkBuff, through (middleboxHooks cs o)
      (skb.rewriteDaddr cs (path (Client.activated clientMsgs))) =
        some (fwd.rewriteSaddr cs oldBox) ∧ fwd.IsTcp ∧
      fwd.iph.daddr = (if o.rewrites then serverAddr else path (Client.activated clientMsgs)) ∧
      fwd.tcph.source = skb.tcph.source ∧ fwd.tcph.dest = skb.tcph.dest := by
    refine ⟨_, hbox, ?_⟩
    split
    · exact ⟨htcp.rewriteDaddr cs serverAddr, rfl, rfl, rfl⟩
    · exact ⟨htcp, rfl, rfl, rfl⟩
  have hin := Server.incomingBegin_session (Server.session serverMsgs).find_back
    (hfwdTcp.rewriteSaddr cs oldBox) rfl (hports.2 ▸ h.port)
  refine ⟨(fwd.rewriteSaddr cs oldBox).setSaddr clientAddr, ?_, rfl, hdst, hports⟩
  rw [clientToServer, through_cons, hout, passed_accept, Option.bind_some, through_append, hfwd,
    Option.bind_some, through_cons, hin]
  rfl

/-- **End-to-end address transparency**, for all tables that messages can lead to.
    The sender's hook addresses a middlebox.  What comes out at the server has
    the addresses and ports that went in exactly if `skb_linearize` leaves the
    head where it is; what comes out at the client always has them. -/
theorem address_transparency :
    (∀ skb, FromClient skb →
      (Client.outgoingBegin cs (Client.table clientMsgs) skb).2.iph.daddr ∈ [oldBox, newBox] ∧
      ((∃ skb', clientToServer cs o (Client.table clientMsgs) (Server.table serverMsgs) skb =
        some skb' ∧ SameTuple skb skb') ↔ o = .inPlace)) ∧
    (∀ skb, FromServer skb →
      (Server.outgoingBegin cs (Server.table serverMsgs) skb).2.iph.daddr ∈ [oldBox, newBox] ∧
      ∃ skb', serverToClient cs o (Client.table clientMsgs) (Server.table serverMsgs) skb =
        some skb' ∧ SameTuple skb skb') := by
  have hpath : ∀ b, path b ∈ [oldBox, newBox] := by decide
  constructor
  · intro skb h
    have hout := Client.outgoingBegin_session cs (Client.session clientMsgs) h.tcp h.daddr h.port
    refine ⟨by rw [hout]; exact hpath _, ?_⟩
    obtain ⟨skb', hway, hsaddr, hdaddr, hsource, hdest⟩ :=
      clientToServer_eq cs o clientMsgs serverMsgs h
    constructor
    · rintro ⟨skb'', hway', hsame⟩
      obtain rfl := Option.some.inj (hway.symm.trans hway')
      -- no middlebox has the server's address
      have hserver : skb'.iph.daddr = serverAddr := hsame.daddr.trans h.daddr
      rw [hdaddr] at hserver
      cases o with
      | inPlace => rfl
      | failed | moved =>
        have hne : ∀ b, path b ≠ serverAddr := by decide
        exact absurd hserver (hne _)
    · rintro rfl
      exact ⟨skb', hway, hsaddr.trans h.saddr.symm, hdaddr.trans h.daddr.symm, hsource, hdest⟩
  · intro skb h
    have hout := Server.outgoingBegin_session cs (Server.session serverMsgs) h.tcp h.daddr h.port
    refine ⟨by rw [hout]; exact hpath _, ?_⟩
    have htcp := h.tcp.rewriteDaddr cs (path ("ACK" ∈ serverMsgs))
    have hbox := middleboxHooks_server cs o htcp h.saddr h.port
    have hin := Client.incomingBegin_session (Client.session clientMsgs).find_back
      ((htcp.rewriteDaddr cs clientAddr).rewriteSaddr cs oldBox) rfl h.port
    refine ⟨((((skb.rewriteDaddr cs (path ("ACK" ∈ serverMsgs))).rewriteDaddr cs
      clientAddr).rewriteSaddr cs oldBox).setSaddr serverAddr), ?_,
      h.saddr.symm, h.daddr.symm, rfl, rfl⟩
    rw [serverToClient, through_cons, hout, passed_accept, Option.bind_some, through_append, hbox,
      Option.bind_some, through_cons, hin]
    rfl

end Way

def request : SkBuff := .bare clientAddr serverAddr 40000 5001
def reply : SkBuff := .bare serverAddr clientAddr 5001 40000

theorem fromClient_request : FromClient request := ⟨⟨rfl, rfl⟩, rfl, rfl, by decide⟩

/-- The client has moved to the new path and the server has not. -/
theorem address_transparency_session :
    (∃ skb', clientToServer Csum.standard .inPlace (Client.table ["SYN", "ACK"])
      (Server.table ["SYN"]) request = some skb' ∧ SameTuple request skb') ∧
    ∃ skb', serverToClient Csum.standard .inPlace (Client.table ["SYN", "ACK"])
      (Server.table ["SYN"]) reply = some skb' ∧ SameTuple reply skb' := by
  have h := address_transparency Csum.standard .inPlace ["SYN", "ACK"] ["SYN"]
  exact ⟨(h.1 request fromClient_request).2.mpr rfl,
    (h.2 reply ⟨⟨rfl, rfl⟩, rfl, rfl, by decide⟩).2⟩

/-- Behind a copy of the head the request keeps the address of the middlebox. -/
theorem address_not_transparent :
    ¬ ∀ (cs : Csum) (o : Middlebox.Linearize) (clientMsgs serverMsgs : List String)
      (skb : SkBuff), o ≠ .failed → FromClient skb →
        ∃ skb', clientToServer cs o (Client.table clientMsgs) (Server.table serverMsgs) skb =
          some skb' ∧ SameTuple skb skb' := by
  intro h
  obtain ⟨skb', hway, hsame⟩ :=
    h Csum.standard .moved [] [] request (by decide) fromClient_request
  obtain ⟨skb'', hway', -, hdaddr, -⟩ :=
    clientToServer_eq Csum.standard .moved [] [] fromClient_request
  obtain rfl := Option.some.inj (hway.symm.trans hway')
  exact absurd (hdaddr.symm.trans hsame.daddr) (by decide)

end MiddleboxSession
