/-
  MiddleboxSession/FlowMemory.lean
  ================================
  **The flow table and its memory**: `findItem`, `addItem` and `clearHash` of
  flowhash.h, and the assignment `retv->acked = 1` of the emulator's agent.

  `addItem` fills in the record of a new item but not its handle; `HASH_ADD`
  writes every field of the handle before it is read.

  The table is one of natural numbers, and its 32-bit counters do not wrap while
  it is small.  Nothing in flowhash.h keeps it so: nothing bounds the keys that a
  sender can make, and bucket after bucket can be filled until 2³¹ of them are
  doubled.
-/
import MiddleboxSession.FlowTable
import MiddleboxSession.UTCounters

namespace MiddleboxSession

open CBuffer UTHash

/-- The memory of an agent, with its global `records`. -/
abbrev FlowMem (ι : Type) := HashMem ι Flow

/-- What an agent does to its flow table. -/
inductive FlowOp where
  | addItem (key : FlowKey) (sequenceNumber : BitVec 32)
  | setAcked (key : FlowKey)
  | clearHash

def FlowTable.apply (records : FlowTable) : FlowOp → FlowTable
  | .addItem key s => MiddleboxSession.addItem records key s
  | .setAcked key => MiddleboxSession.setAcked records key
  | .clearHash => FlowTable.empty

namespace FlowMem

variable {ι : Type} [DecidableEq ι] (malloc : Nat → List ι → ι)

def findItem (k : FlowMem ι) (key : FlowKey) : Option (Option Flow) :=
  HashMem.lookup Flow.key flowHash k key

def addItem (k : FlowMem ι) (key : FlowKey) (sequenceNumber : BitVec 32) : Option (FlowMem ι) := do
  match ← memFind Flow.key flowHash k.mem k.head key with
  | none =>
    HashMem.insert Flow.key flowHash malloc k fun e =>
      { e with record := { key := key, sequenceNumber := sequenceNumber, acked := 0 } }
  | some retPtr => do
    let m ← k.mem.write retPtr fun e =>
      { e with record := { e.record with acked := 0, sequenceNumber := sequenceNumber } }
    pure { k with mem := m }

def setAcked (k : FlowMem ι) (key : FlowKey) : Option (FlowMem ι) :=
  HashMem.assign Flow.key flowHash k key fun r => { r with acked := 1 }

def clearHash (k : FlowMem ι) : Option (FlowMem ι) := (HashMem.clear k).map Prod.fst

def apply (k : FlowMem ι) : FlowOp → Option (FlowMem ι)
  | .addItem key s => addItem malloc k key s
  | .setAcked key => setAcked k key
  | .clearHash => clearHash k

variable {malloc} {k : FlowMem ι} {records : FlowTable}

theorem refines_addItem (hfresh : ∀ n live, malloc n live ∉ live)
    (h : HashMem.Refines k records.head) (key : FlowKey) (s : BitVec 32) :
    ∃ k', addItem malloc k key s = some k' ∧
      HashMem.Refines k' (MiddleboxSession.addItem records key s).head := by
  have hassign := h.assign key (f := fun r => { r with acked := 0, sequenceNumber := s })
    fun _ => rfl
  obtain ⟨hd, ho, hrec⟩ := h
  have hitem : MiddleboxSession.findItem records key = (hashFind hd key).map Slot.record := by
    rw [MiddleboxSession.findItem, ← hrec, HashMem.find_records]
  unfold MiddleboxSession.addItem addItem
  rw [ho.find]
  cases hfind : hashFind hd key with
  | none =>
    rw [hfind] at hitem
    split
    · exact HashMem.Refines.insert hfresh ⟨hd, ho, hrec⟩ fun _ => rfl
    · rename_i r hr
      cases hitem.symm.trans hr
  | some slot =>
    rw [hfind] at hitem
    split
    · rename_i hr
      cases hitem.symm.trans hr
    · obtain ⟨k', hk', hr'⟩ := hassign
      refine ⟨k', ?_, hr'⟩
      rw [HashMem.assign, ho.find, hfind] at hk'
      exact hk'

theorem refines_apply (hfresh : ∀ n live, malloc n live ∉ live)
    (h : HashMem.Refines k records.head) (op : FlowOp) :
    ∃ k', apply malloc k op = some k' ∧ HashMem.Refines k' (records.apply op).head := by
  cases op with
  | addItem key s => exact refines_addItem hfresh h key s
  | setAcked key =>
    obtain ⟨k', hk', hr⟩ := h.assign key (f := fun r => { r with acked := 1 }) fun _ => rfl
    refine ⟨k', hk', ?_⟩
    change HashMem.Refines k' (MiddleboxSession.setAcked records key).head
    unfold MiddleboxSession.setAcked
    cases hfind : MiddleboxSession.findItem records key with
    | some r => exact hr
    | none =>
      rw [hashUpdate_of_none hfind] at hr
      exact hr
  | clearHash =>
    obtain ⟨k', hk', hempty⟩ := h.clear
    refine ⟨k', ?_, hempty.refines⟩
    rw [apply, clearHash, hk']
    rfl

omit [DecidableEq ι] in
theorem counts_apply (h : Head.Counts records.head) (op : FlowOp) :
    Head.Counts (records.apply op).head := by
  cases op with
  | addItem key s =>
    change Head.Counts (MiddleboxSession.addItem records key s).head
    unfold MiddleboxSession.addItem
    split
    · exact h.hashAdd _
    · exact h.hashUpdate key (f := fun r => { r with acked := 0, sequenceNumber := s }) fun _ => rfl
  | setAcked key =>
    change Head.Counts (MiddleboxSession.setAcked records key).head
    unfold MiddleboxSession.setAcked
    split
    · exact h
    · exact h.hashUpdate key (f := fun r => { r with acked := 1 }) fun _ => rfl
  | clearHash => exact Head.counts_none

/-- **The flow table is memory-safe.**  Whatever addresses `malloc` hands out and
    whatever the memory holds at first: if the table has at most 2³¹ buckets and
    fewer than 2²⁸ items after each operation, then every operation has a result,
    after which no counter has wrapped, no check of `HASH_FSCK` fails, and every
    `findItem` reads the record of the table. -/
theorem foldlM_refines (hfresh : ∀ n live, malloc n live ∉ live) {k₀ : FlowMem ι} (h₀ : k₀.Empty)
    (ops : List FlowOp)
    (hsmall : ∀ n, Head.Small ((ops.take n).foldl FlowTable.apply FlowTable.empty).head) (n : Nat) :
    ∃ k, (ops.take n).foldlM (apply malloc) k₀ = some k ∧ k.Unsigned ∧
      fsck k.mem k.head = some () ∧ ∀ key, findItem k key = some (MiddleboxSession.findItem
        ((ops.take n).foldl FlowTable.apply FlowTable.empty) key) := by
  have hfold : ∀ ops : List FlowOp, ∃ k, ops.foldlM (apply malloc) k₀ = some k ∧
      HashMem.Refines k (ops.foldl FlowTable.apply FlowTable.empty).head ∧
      Head.Counts (ops.foldl FlowTable.apply FlowTable.empty).head := by
    intro ops
    induction ops using List.reverseRecOn with
    | nil => exact ⟨k₀, rfl, h₀.refines, Head.counts_none⟩
    | append_singleton ops op ih =>
      obtain ⟨k₁, h₁, hr₁, hc₁⟩ := ih
      obtain ⟨k₂, h₂, hr₂⟩ := refines_apply hfresh hr₁ op
      refine ⟨k₂, ?_, ?_, ?_⟩
      · simp only [List.foldlM_append, h₁, List.foldlM_cons, h₂, List.foldlM_nil,
          Option.bind_eq_bind, Option.bind_some]
        rfl
      · rw [List.foldl_append]
        exact hr₂
      · rw [List.foldl_append]
        exact counts_apply hc₁ op
  obtain ⟨k, hk, hr, hc⟩ := hfold (ops.take n)
  exact ⟨k, hk, hr.unsigned hc (hr.small (hsmall n)), hr.fsck, hr.lookup⟩

/-- Two updates of a flow, an ACK for it, and the table emptied. -/
theorem foldlM_refines_flow : ∃ k, [FlowOp.addItem ⟨1, 2, 3, 4⟩ 5, .addItem ⟨1, 2, 3, 4⟩ 6,
      .setAcked ⟨1, 2, 3, 4⟩, .clearHash].foldlM (apply HashMem.bump)
        (HashMem.fresh ⟨⟨⟨0, 0, 0, 0⟩, 7, 7⟩, ⟨some 3, some 1, some 2, some 1, none, 9⟩⟩) = some k ∧
    k.Unsigned ∧ fsck k.mem k.head = some () ∧ ∀ key, findItem k key = some none := by
  have hsmall : ∀ n < 5, Head.Small (([FlowOp.addItem ⟨1, 2, 3, 4⟩ 5, .addItem ⟨1, 2, 3, 4⟩ 6,
      .setAcked ⟨1, 2, 3, 4⟩, .clearHash].take n).foldl FlowTable.apply FlowTable.empty).head := by
    decide +kernel
  refine foldlM_refines HashMem.bump_notMem (HashMem.empty_fresh _) [.addItem ⟨1, 2, 3, 4⟩ 5,
    .addItem ⟨1, 2, 3, 4⟩ 6, .setAcked ⟨1, 2, 3, 4⟩, .clearHash] (fun n => ?_) 4
  rw [List.take_eq_take_min]
  exact hsmall _ (Nat.lt_succ_of_le (Nat.min_le_right _ _))

end FlowMem

end MiddleboxSession
