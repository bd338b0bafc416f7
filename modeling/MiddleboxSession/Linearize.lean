/-
  MiddleboxSession/Linearize.lean
  ===============================
  **Packets that the middlebox fails to translate.**

  Only one of the four rewriting branches of the middlebox calls
  `skb_linearize`: the one of `tcp_header_write_prerouting` for a record with
  the destination port.  It answers a failure with `NULL`.  The postrouting hook
  drops a packet at a `NULL` of its own helper, which never returns one; the
  prerouting hook ignores what its helper returns and passes the packet on.
  And the helper has read `iph` and `tcph` before the call, so behind a
  reallocation of the head it writes to the old one.
-/
import MiddleboxSession.MiddleboxKernel

namespace MiddleboxSession

open CBuffer UTHash

namespace Middlebox

/-- The outcomes of `skb_linearize`.  With 0 it may have copied the headers to a
    new place and released the old one. -/
inductive Linearize where
  | failed      -- -ENOMEM
  | moved       -- 0, but `iph` and `tcph` point into the old head
  | inPlace     -- 0
deriving DecidableEq, Repr

/-- The rewriting behind `skb_linearize` reaches the packet. -/
def Linearize.rewrites : Linearize → Bool
  | .failed | .moved => false
  | .inPlace => true

section Hooks

variable (cs : Csum) (o : Linearize) (records : KernelTable) (skb : SkBuff)

/-- The source address matches a record together with one of the ports. -/
def Matched : Prop :=
  hashFind records (sportKey skb) ≠ none ∨ hashFind records (dportKey skb) ≠ none

/-- The hook drops the packet, or passes it on as a record of it says. -/
def DropsOrTranslates (rewrite : Record → SkBuff) (res : Verdict × SkBuff) : Prop :=
  res.1 = .drop ∨ ∃ p, (hashFind records (sportKey skb) = some p ∨
    hashFind records (dportKey skb) = some p) ∧ res = (.stolen, rewrite p)

/-- The prerouting hook calls `skb_linearize`. -/
def CallsLinearize : Prop :=
  hashFind records (sportKey skb) = none ∧ hashFind records (dportKey skb) ≠ none

/-- Both hooks translate or drop the packet, and drop it when `skb_linearize` fails. -/
structure NeverUntranslated : Prop where
  incoming : DropsOrTranslates records skb (fun p => skb.rewriteDaddr cs p.dst)
    (incomingChangeBegin cs o.rewrites records skb)
  outgoing : DropsOrTranslates records skb (fun p => skb.rewriteSaddr cs p.src)
    (outgoingChangeBegin cs records skb)
  failure : CallsLinearize records skb → o = .failed →
    (incomingChangeBegin cs o.rewrites records skb).1 = .drop

variable {o records skb}

theorem outgoing_translates (htcp : skb.IsTcp) (hmatch : Matched records skb) :
    DropsOrTranslates records skb (fun p => skb.rewriteSaddr cs p.src)
      (outgoingChangeBegin cs records skb) := by
  rw [outgoingChangeBegin_tcp htcp]
  right
  cases hd : hashFind records (dportKey skb) with
  | some p => exact ⟨p, Or.inr rfl, rfl⟩
  | none =>
    cases hs : hashFind records (sportKey skb) with
    | some p => exact ⟨p, Or.inl rfl, rfl⟩
    | none => exact absurd hmatch (by simp [Matched, hd, hs])

/-- A record with the source port is applied without `skb_linearize`. -/
theorem incoming_sport (htcp : skb.IsTcp) {p : Record}
    (hs : hashFind records (sportKey skb) = some p) (linearize : Bool) :
    incomingChangeBegin cs linearize records skb = (.stolen, skb.rewriteDaddr cs p.dst) := by
  rw [incomingChangeBegin_tcp htcp, tcpHeaderWritePrerouting, hs]

theorem incoming_dport (htcp : skb.IsTcp) {p : Record}
    (hs : hashFind records (sportKey skb) = none)
    (hd : hashFind records (dportKey skb) = some p) (linearize : Bool) :
    incomingChangeBegin cs linearize records skb =
      (.stolen, if linearize then skb.rewriteDaddr cs p.dst else skb) := by
  rw [incomingChangeBegin_tcp htcp, tcpHeaderWritePrerouting, hs, hd]

/-- **When a matched packet is not forwarded untranslated.**  For every table
    and every matched TCP packet: exactly if a record matches by the source
    port, or `skb_linearize` leaves the head where it is, or it moves the head
    of a packet that the rewriting would not change anyway. -/
theorem never_untranslated_iff (o : Linearize) (htcp : skb.IsTcp)
    (hmatch : Matched records skb) :
    NeverUntranslated cs o records skb ↔
      hashFind records (sportKey skb) ≠ none ∨ o = .inPlace ∨
        o = .moved ∧ ∃ p, hashFind records (dportKey skb) = some p ∧
          skb.rewriteDaddr cs p.dst = skb := by
  cases hs : hashFind records (sportKey skb) with
  | some p =>
    refine iff_of_true ⟨?_, outgoing_translates cs htcp hmatch, ?_⟩ (Or.inl (Option.some_ne_none p))
    · rw [incoming_sport cs htcp hs]
      exact Or.inr ⟨p, Or.inl hs, rfl⟩
    · rintro ⟨hnone, -⟩
      rw [hs] at hnone
      cases hnone
  | none =>
    obtain ⟨p, hd⟩ := Option.ne_none_iff_exists'.mp (hmatch.resolve_left fun h => h hs)
    have hincoming := incoming_dport cs htcp hs hd o.rewrites
    have houtgoing := outgoing_translates cs htcp hmatch
    have hcalls : CallsLinearize records skb := ⟨hs, by rw [hd]; exact Option.some_ne_none p⟩
    simp only [ne_eq, not_true_eq_false, false_or]
    cases o with
    | failed =>
      refine iff_of_false ?_ (by simp)
      intro h
      have hdrop := h.failure hcalls rfl
      rw [hincoming] at hdrop
      cases hdrop
    | moved =>
      have hpassed : incomingChangeBegin cs Linearize.moved.rewrites records skb = (.stolen, skb) :=
        hincoming
      simp only [reduceCtorEq, true_and, false_or]
      constructor
      · intro h
        rcases h.incoming with hdrop | ⟨p', hfind, heq⟩
        · rw [hpassed] at hdrop
          cases hdrop
        · rw [hpassed, Prod.mk.injEq] at heq
          rw [hs] at hfind
          exact ⟨p', hfind.resolve_left (by simp), heq.2.symm⟩
      · rintro ⟨p', hd', heq⟩
        refine ⟨Or.inr ⟨p', Or.inr hd', ?_⟩, houtgoing, fun _ hfailed => by cases hfailed⟩
        rw [hpassed]
        exact congrArg (Prod.mk Verdict.stolen) heq.symm
    | inPlace =>
      refine iff_of_true ⟨Or.inr ⟨p, Or.inr hd, ?_⟩, houtgoing, fun _ hfailed => by cases hfailed⟩
        (Or.inl rfl)
      rw [hincoming]
      rfl

end Hooks

/-! ### A packet of the client -/

/-- A segment of the client to the server, as it comes to the middlebox. -/
def fromClient : SkBuff := .bare clientAddr oldBox 40000 5001

/-- A segment of the server to the client. -/
def fromServer : SkBuff := .bare serverAddr oldBox 5001 40000

theorem never_untranslated_session :
    NeverUntranslated Csum.standard .inPlace pktMangleInit fromClient ∧
      NeverUntranslated Csum.standard .failed pktMangleInit fromServer := by
  have hclient : hashFind pktMangleInit (dportKey fromClient) ≠ none := by
    rw [find_dportKey]
    decide
  have hserver : hashFind pktMangleInit (sportKey fromServer) ≠ none := by
    rw [find_sportKey]
    decide
  exact ⟨(never_untranslated_iff Csum.standard .inPlace ⟨rfl, rfl⟩ (Or.inr hclient)).mpr
      (Or.inr (Or.inl rfl)),
    (never_untranslated_iff Csum.standard .failed ⟨rfl, rfl⟩ (Or.inl hserver)).mpr
      (Or.inl hserver)⟩

/-- There is no memory for the copy: the client's packet goes on to the
    middlebox's own address. -/
theorem linearize_failure_ignored :
    ¬ ∀ o records skb, skb.IsTcp → Matched records skb →
      NeverUntranslated Csum.standard o records skb := by
  intro h
  have hs : hashFind pktMangleInit (sportKey fromClient) = none := by
    rw [find_sportKey]
    decide
  have hd : hashFind pktMangleInit (dportKey fromClient) = some toServer := by
    rw [find_dportKey]
    decide
  have hsome : hashFind pktMangleInit (dportKey fromClient) ≠ none := by
    rw [hd]
    exact Option.some_ne_none toServer
  have hnever := h .failed pktMangleInit fromClient ⟨rfl, rfl⟩ (Or.inr hsome)
  have hdrop := hnever.failure ⟨hs, hsome⟩ rfl
  rw [incoming_dport _ ⟨rfl, rfl⟩ hs hd] at hdrop
  cases hdrop

end Middlebox

end MiddleboxSession
