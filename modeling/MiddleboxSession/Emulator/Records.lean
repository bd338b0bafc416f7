/-
  MiddleboxSession/Emulator/Records.lean
  ======================================
  **What a flow record means.**

  The main loop of serverUDP over a finite sequence of datagrams, from an empty
  table.  What the datagrams of a key have been determines its record: the
  stored number is the newest one of the SYNs, and `acked` says that an ACK for
  this number has come since.  `Meaning` states this of the table, the workers
  and the datagrams so far; every iteration keeps it.
-/
import MiddleboxSession.Emulator.Server

namespace MiddleboxSession.Emulator

open CBuffer

/-! ### The main loop -/

section MainLoop

variable (self : SockAddr)

/-- The iterations of the main loop for a sequence of datagrams. -/
def mainLoop (a : Server) (ds : List Datagram) : Server := ds.foldl (Server.mainRecv self) a

theorem mainLoop_concat (a : Server) (ds : List Datagram) (d : Datagram) :
    mainLoop self a (ds ++ [d]) = (mainLoop self a ds).mainRecv self d :=
  List.foldl_concat ..

/-! ### Messages of a key -/

/-- A SYN with number `s` from the sender with key `k`. -/
def SynOf (k : FlowKey) (s : BitVec 32) (d : Datagram) : Prop :=
  d.header.action = 1 ∧ peerKey self d.src = k ∧ d.header.sequenceNum = s

def AckOf (k : FlowKey) (s : BitVec 32) (d : Datagram) : Prop :=
  d.header.action = 3 ∧ peerKey self d.src = k ∧ d.header.sequenceNum = s

/-- `s` is the largest number of the SYNs of `k`, as signed integers. -/
def IsNewest (k : FlowKey) (s : BitVec 32) (ds : List Datagram) : Prop :=
  (∃ d ∈ ds, SynOf self k s d) ∧ ∀ d ∈ ds, ∀ s', SynOf self k s' d → s'.toInt ≤ s.toInt

/-- An ACK with number `s` came after a SYN with this number. -/
def AckedSince (k : FlowKey) (s : BitVec 32) (ds : List Datagram) : Prop :=
  ∃ pre d post, ds = pre ++ d :: post ∧ AckOf self k s d ∧ ∃ d' ∈ pre, SynOf self k s d'

/-- The key and the number that a worker was started for. -/
def Worker.update (w : Worker) : FlowKey × BitVec 32 :=
  (peerKey self w.request.src, w.request.header.sequenceNum)

variable {self}

theorem SynOf.not_ack {k k' : FlowKey} {s s' : BitVec 32} {d : Datagram} (h : SynOf self k s d) :
    ¬ AckOf self k' s' d := by
  intro h'
  exact absurd (h.1.symm.trans h'.1) (by decide)

theorem isNewest_concat {k : FlowKey} {s : BitVec 32} {ds : List Datagram} {d : Datagram}
    (h : IsNewest self k s ds) (hd : ∀ s', SynOf self k s' d → s'.toInt ≤ s.toInt) :
    IsNewest self k s (ds ++ [d]) := by
  obtain ⟨⟨d', hd', hsyn⟩, hmax⟩ := h
  refine ⟨⟨d', List.mem_append_left _ hd', hsyn⟩, ?_⟩
  intro e he s' hs'
  rcases List.mem_append.mp he with he | he
  · exact hmax e he s' hs'
  · rw [List.mem_singleton] at he
    exact hd s' (he ▸ hs')

theorem IsNewest.unique {k : FlowKey} {s s' : BitVec 32} {ds : List Datagram}
    (h : IsNewest self k s ds) (h' : IsNewest self k s' ds) : s = s' := by
  obtain ⟨d, hd, hsyn⟩ := h.1
  obtain ⟨d', hd', hsyn'⟩ := h'.1
  exact BitVec.eq_of_toInt_eq (le_antisymm (h'.2 d hd s hsyn) (h.2 d' hd' s' hsyn'))

theorem ackedSince_concat {k : FlowKey} {s : BitVec 32} {ds : List Datagram} {d : Datagram} :
    AckedSince self k s (ds ++ [d]) ↔
      AckedSince self k s ds ∨ AckOf self k s d ∧ ∃ d' ∈ ds, SynOf self k s d' := by
  constructor
  · rintro ⟨pre, e, post, hds, hack, hsyn⟩
    rcases List.eq_nil_or_concat post with rfl | ⟨post', e', rfl⟩
    · obtain ⟨rfl, rfl⟩ := List.append_singleton_inj.mp hds
      exact Or.inr ⟨hack, hsyn⟩
    · refine Or.inl ⟨pre, e, post', ?_, hack, hsyn⟩
      rw [List.concat_eq_append, ← List.cons_append, ← List.append_assoc] at hds
      exact (List.append_singleton_inj.mp hds).1
  · rintro (⟨pre, e, post, rfl, hack, hsyn⟩ | ⟨hack, hsyn⟩)
    · exact ⟨pre, e, post ++ [d], by simp, hack, hsyn⟩
    · exact ⟨ds, d, [], rfl, hack, hsyn⟩

/-- No ACK can come after a SYN that has not come. -/
theorem AckedSince.syn {k : FlowKey} {s : BitVec 32} {ds : List Datagram}
    (h : AckedSince self k s ds) : ∃ d ∈ ds, SynOf self k s d := by
  obtain ⟨pre, e, post, rfl, -, d, hd, hsyn⟩ := h
  exact ⟨d, List.mem_append_left _ hd, hsyn⟩

end MainLoop

/-! ### The record of a key -/

section Records

variable {self : SockAddr}

/-- What the datagrams of a key say about its record. -/
def RecordMeans (self : SockAddr) (k : FlowKey) (ds : List Datagram) : Option Flow → Prop
  | none => ∀ d ∈ ds, ∀ s, ¬ SynOf self k s d
  | some r => IsNewest self k r.sequenceNumber ds ∧
      (r.acked = 1 ↔ AckedSince self k r.sequenceNumber ds)

/-- A datagram that is not for the key, or does not get past the gate, changes
    nothing about its record. -/
theorem RecordMeans.skip {k : FlowKey} {ds : List Datagram} {retv : Option Flow} {d : Datagram}
    (h : RecordMeans self k ds retv)
    (hsyn : ∀ s, SynOf self k s d → ∃ r, retv = some r ∧ s.toInt ≤ r.sequenceNumber.toInt)
    (hack : ∀ r, retv = some r → ¬ AckOf self k r.sequenceNumber d) :
    RecordMeans self k (ds ++ [d]) retv := by
  rcases retv with _ | r
  · intro e he s hs
    rcases List.mem_append.mp he with he | he
    · exact h e he s hs
    · rw [List.mem_singleton] at he
      obtain ⟨r, hr, -⟩ := hsyn s (he ▸ hs)
      cases hr
  · obtain ⟨hnewest, hacked⟩ := h
    constructor
    · apply isNewest_concat hnewest
      intro s hs
      obtain ⟨_, hr, hle⟩ := hsyn s hs
      cases hr
      exact hle
    · rw [hacked, ackedSince_concat, or_iff_left]
      rintro ⟨hd, -⟩
      exact hack r rfl hd

/-- What is newer than the record is newer than all SYNs of the key so far. -/
theorem RecordMeans.below {k : FlowKey} {ds : List Datagram} {retv : Option Flow} {s : BitVec 32}
    (h : RecordMeans self k ds retv)
    (hnew : ∀ r, retv = some r → r.sequenceNumber.toInt < s.toInt) :
    ∀ e ∈ ds, ∀ s', SynOf self k s' e → s'.toInt < s.toInt := by
  intro e he s' hs'
  rcases retv with _ | r
  · exact absurd hs' (h e he s')
  · exact lt_of_le_of_lt (h.1.2 e he s' hs') (hnew r rfl)

/-- A SYN that is newer than the record is stored with a clear `acked`. -/
theorem RecordMeans.syn {k : FlowKey} {ds : List Datagram} {retv : Option Flow} {d : Datagram}
    {s : BitVec 32} (h : RecordMeans self k ds retv) (hd : SynOf self k s d)
    (hnew : ∀ r, retv = some r → r.sequenceNumber.toInt < s.toInt) :
    RecordMeans self k (ds ++ [d]) (some ⟨k, s, 0⟩) := by
  have hbelow := h.below hnew
  refine ⟨⟨⟨d, by simp, hd⟩, ?_⟩, ?_⟩
  · intro e he s' hs'
    rcases List.mem_append.mp he with he | he
    · exact (hbelow e he s' hs').le
    · rw [List.mem_singleton] at he
      subst he
      rw [← hd.2.2, ← hs'.2.2]
  · refine iff_of_false (by simp) ?_
    rw [ackedSince_concat]
    rintro (hacked | ⟨hack, -⟩)
    · obtain ⟨e, he, hs⟩ := hacked.syn
      exact (hbelow e he s hs).false
    · exact hd.not_ack hack

/-- An ACK for the stored number sets `acked`. -/
theorem RecordMeans.ack {k : FlowKey} {ds : List Datagram} {r : Flow} {d : Datagram}
    (h : RecordMeans self k ds (some r)) (hd : AckOf self k r.sequenceNumber d) :
    RecordMeans self k (ds ++ [d]) (some { r with acked := 1 }) := by
  refine ⟨isNewest_concat h.1 ?_, ?_⟩
  · intro s hs
    exact absurd hd hs.not_ack
  · refine iff_of_true rfl ?_
    exact ackedSince_concat.mpr (Or.inr ⟨hd, h.1.1⟩)

/-! ### The main loop keeps the meaning -/

structure Meaning (x : SockAddr) (ds : List Datagram) (a : Server) : Prop where
  record : ∀ k, RecordMeans x k ds (findItem a.records k)
  started : ∀ w ∈ a.workers, SynOf x (w.update x).1 (w.update x).2 w.request ∧ w.request ∈ ds
  once : (a.workers.map (Worker.update x)).Nodup

theorem Meaning.init : Meaning self [] Server.init where
  record := fun _ _ hd => absurd hd List.not_mem_nil
  started := fun _ hw => absurd hw List.not_mem_nil
  once := List.nodup_nil

theorem Meaning.mainRecv {ds : List Datagram} {a : Server} (h : Meaning self ds a)
    (d : Datagram) : Meaning self (ds ++ [d]) (a.mainRecv self d) := by
  have hstarted : ∀ w ∈ a.workers, SynOf self (w.update self).1 (w.update self).2 w.request ∧
      w.request ∈ ds ++ [d] := by
    intro w hw
    exact ⟨(h.started w hw).1, List.mem_append_left _ (h.started w hw).2⟩
  -- what a datagram does to the records of the other keys
  have hother : ∀ k, peerKey self d.src ≠ k →
      RecordMeans self k (ds ++ [d]) (findItem a.records k) := by
    intro k hk
    exact (h.record k).skip (fun s hs => absurd hs.2.1 hk) fun r _ hack => hk hack.2.1
  by_cases hd : dispatch (findItem a.records (peerKey self d.src)) d.header = .syn
  · obtain ⟨haction, hnew⟩ := dispatch_eq_syn.mp hd
    have hsyn : SynOf self (peerKey self d.src) d.header.sequenceNum d := ⟨haction, rfl, rfl⟩
    rw [Server.mainRecv_of_syn hd]
    refine ⟨?_, ?_, ?_⟩
    · intro k
      rw [findItem_addItem]
      split
      · rename_i hk
        subst hk
        exact (h.record _).syn hsyn hnew
      · exact hother k ‹_›
    · intro w hw
      rcases List.mem_append.mp hw with hw | hw
      · exact hstarted w hw
      · rw [List.mem_singleton] at hw
        subst hw
        exact ⟨hsyn, by simp⟩
    · rw [List.map_append, List.map_singleton, List.nodup_append]
      refine ⟨h.once, List.nodup_singleton _, ?_⟩
      intro u hu v hv huv
      obtain ⟨w, hw, rfl⟩ := List.mem_map.mp hu
      rw [List.mem_singleton] at hv
      -- a worker with this number would have a SYN that is not older than itself
      obtain ⟨hwsyn, hmem⟩ := h.started w hw
      rw [huv, hv] at hwsyn
      exact ((h.record _).below hnew _ hmem _ hwsyn).false
  by_cases hd' : dispatch (findItem a.records (peerKey self d.src)) d.header = .ack
  · obtain ⟨haction, r, hr, hseq⟩ := dispatch_eq_ack.mp hd'
    rw [Server.mainRecv_of_ack hd']
    refine ⟨?_, hstarted, h.once⟩
    intro k
    rw [findItem_setAcked hr]
    split
    · rename_i hk
      subst hk
      have hrec := h.record (peerKey self d.src)
      rw [hr] at hrec
      exact hrec.ack ⟨haction, rfl, hseq.symm⟩
    · exact hother k ‹_›
  · rw [Server.mainRecv_of_skip hd hd']
    refine ⟨?_, hstarted, h.once⟩
    intro k
    refine (h.record k).skip ?_ ?_
    · rintro s ⟨haction, rfl, rfl⟩
      -- the gate was closed: there is a record, and it is not older
      by_contra hno
      refine hd (dispatch_eq_syn.mpr ⟨haction, ?_⟩)
      intro r hr
      by_contra hlt
      exact hno ⟨r, hr, by omega⟩
    · rintro r hr ⟨haction, rfl, hseq⟩
      exact hd' (dispatch_eq_ack.mpr ⟨haction, r, hr, hseq.symm⟩)

theorem Meaning.mainLoop (ds : List Datagram) :
    Meaning self ds (mainLoop self Server.init ds) := by
  induction ds using List.reverseRecOn with
  | nil => exact Meaning.init
  | append_singleton ds d ih =>
    rw [mainLoop_concat]
    exact ih.mainRecv d

/-- **The meaning of the flow record.**  After any sequence of datagrams the
    record of a key holds the largest number of the SYNs received for it, no
    key and number have got two workers, and `acked` is 1 exactly if an ACK for
    the stored number has been received since that number was. -/
theorem flow_record_meaning (self : SockAddr) (ds : List Datagram) :
    let a := mainLoop self Server.init ds
    (∀ k s, storedSeq a.records k = some s ↔ IsNewest self k s ds) ∧
    (∀ k s, (a.workers.map (Worker.update self)).count (k, s) ≤ 1) ∧
    ∀ k r, findItem a.records k = some r →
      (r.acked = 1 ↔ AckedSince self k r.sequenceNumber ds) := by
  intro a
  have h : Meaning self ds a := Meaning.mainLoop ds
  refine ⟨?_, ?_, ?_⟩
  · intro k s
    have hrec := h.record k
    rw [storedSeq]
    cases hr : findItem a.records k with
    | none =>
      rw [hr] at hrec
      refine iff_of_false (by simp) ?_
      rintro ⟨⟨d, hd, hsyn⟩, -⟩
      exact hrec d hd s hsyn
    | some r =>
      rw [hr] at hrec
      rw [Option.map_some, Option.some.injEq]
      constructor
      · rintro rfl
        exact hrec.1
      · exact hrec.1.unique
  · intro k s
    exact List.nodup_iff_count_le_one.mp h.once (k, s)
  · intro k r hr
    have hrec := h.record k
    rw [hr] at hrec
    exact hrec.2

end Records

end MiddleboxSession.Emulator
