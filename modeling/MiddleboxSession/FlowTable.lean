/-
  MiddleboxSession/FlowTable.lean
  ===============================
  **The flow table of the user-space agent** (flowhash.h).

  `addItem` looks a key up before it adds a record, so the table never holds
  two records with one key; `FlowTable` carries that fact, and `findItem` and
  `addItem` have the equations of a finite map from the 12 key bytes.  The
  emulator's agent has the same file, and sets `acked` through the pointer.
-/
import MiddleboxSession.UTHash
import MiddleboxSession.Wire

namespace MiddleboxSession

open CBuffer UTHash

structure Flow where
  key : FlowKey
  sequenceNumber : BitVec 32
  acked : BitVec 32
deriving DecidableEq, Repr

def FlowKey.bytes (k : FlowKey) : List Byte :=
  wordBytes k.srcIP ++ wordBytes k.dstIP ++ halfBytes k.srcPort ++ halfBytes k.dstPort

def flowHash (k : FlowKey) : BitVec 32 := hashJen k.bytes

/-- The global `records` of flowhash.h, with at most one record per key. -/
structure FlowTable where
  head : Head Flow.key flowHash
  unique : UniqueKeys head

def FlowTable.empty : FlowTable := ⟨none, uniqueKeys_none⟩

def findItem (records : FlowTable) (k : FlowKey) : Option Flow := hashFind records.head k

/-- `addItem`: a new record, or an update of the record with the key. -/
def addItem (records : FlowTable) (k : FlowKey) (sequenceNumber : BitVec 32) : FlowTable :=
  match h : findItem records k with
  | none =>
    { head := hashAdd records.head { key := k, sequenceNumber := sequenceNumber, acked := 0 }
      unique := uniqueKeys_hashAdd records.unique h }
  | some _ =>
    { head := hashUpdate records.head k
        (fun r => { r with acked := 0, sequenceNumber := sequenceNumber }) fun _ => rfl
      unique := uniqueKeys_hashUpdate records.unique k _ _ }

theorem findItem_key {records : FlowTable} {k : FlowKey} {r : Flow}
    (h : findItem records k = some r) : r.key = k := (hashFind_eq_some h).2

/-- `addItem` stores the sequence number with a cleared `acked`, and touches no
    other key. -/
theorem findItem_addItem (records : FlowTable) (k k' : FlowKey) (s : BitVec 32) :
    findItem (addItem records k s) k' = if k = k' then some ⟨k, s, 0⟩ else findItem records k' := by
  unfold addItem
  split
  · rename_i h
    have h' : hashFind records.head (Flow.key ⟨k, s, 0⟩) = none := h
    exact hashFind_hashAdd records.unique h' k'
  · rename_i r h
    have := hashFind_hashUpdate records.unique h
      (fun r => { r with acked := 0, sequenceNumber := s }) (fun _ => rfl) k'
    rw [findItem, this, findItem_key h]
    rfl

/-- `retv->acked = 1` through the pointer that `findItem` returned. -/
def setAcked (records : FlowTable) (k : FlowKey) : FlowTable :=
  match findItem records k with
  | none => records
  | some _ =>
    { head := hashUpdate records.head k (fun r => { r with acked := 1 }) fun _ => rfl
      unique := uniqueKeys_hashUpdate records.unique k _ _ }

theorem findItem_setAcked {records : FlowTable} {k : FlowKey} {r : Flow}
    (h : findItem records k = some r) (k' : FlowKey) :
    findItem (setAcked records k) k' =
      if k = k' then some { r with acked := 1 } else findItem records k' := by
  rw [setAcked, h]
  exact hashFind_hashUpdate records.unique h (fun r => { r with acked := 1 }) (fun _ => rfl) k'

def storedSeq (records : FlowTable) (k : FlowKey) : Option (BitVec 32) :=
  (findItem records k).map Flow.sequenceNumber

@[simp] theorem storedSeq_empty (k : FlowKey) : storedSeq FlowTable.empty k = none := rfl

theorem storedSeq_addItem (records : FlowTable) (k k' : FlowKey) (s : BitVec 32) :
    storedSeq (addItem records k s) k' = if k = k' then some s else storedSeq records k' := by
  rw [storedSeq, findItem_addItem]
  split <;> rfl

theorem storedSeq_setAcked {records : FlowTable} {k : FlowKey} {r : Flow}
    (h : findItem records k = some r) (k' : FlowKey) :
    storedSeq (setAcked records k) k' = storedSeq records k' := by
  rw [storedSeq, findItem_setAcked h]
  split
  · rename_i hk
    rw [← hk, storedSeq, h]
    rfl
  · rfl

end MiddleboxSession
