/-
  MiddleboxSession/OutOfMemory.lean
  =================================
  **Insertions that run out of memory.**

  `addHash` of the client module allocates the record, and `HASH_ADD` the table
  and the bucket arrays, with `kmalloc(.., GFP_ATOMIC)`, which may fail.  The
  record is written without a test.  The macros do test, but `uthash_fatal` is
  defined as `return -1`, and since they are expanded in `addHash` this leaves
  `addHash` itself, in the middle of the insertion and before `write_unlock`.
  The earlier modules take all allocations to succeed; `hashAddKmalloc_all` and
  `addHashKmalloc_all` say that the definitions here are the same then.
-/
import MiddleboxSession.ClientKernel

namespace UTHash

variable {κ ρ : Type*} {keyOf : ρ → κ} {hash : κ → BitVec 32}

/-! ### `HASH_ADD` -/

/-- Which calls of `kmalloc` succeed: for the record, for the table and its
    first bucket array in `HASH_MAKE_TABLE`, for the array of
    `HASH_EXPAND_BUCKETS`. -/
structure Kmalloc where
  record : Bool
  table : Bool
  buckets : Bool
  expand : Bool
deriving DecidableEq, Repr

/-- What the head of a hash may point to after a `uthash_fatal`. -/
inductive RawHead (keyOf : ρ → κ) (hash : κ → BitVec 32) where
  | table (head : Head keyOf hash)
  | noTable (r : ρ)        -- a record whose `hh.tbl` is NULL
  | noBuckets (r : ρ)      -- a table whose `buckets` is NULL

/-- `HASH_ADD_TO_BKT`, behind the link into the bucket of `r`. -/
def expandKmalloc (m : Kmalloc) (t : Table keyOf hash) (r : ρ) :
    Except (RawHead keyOf hash) (Head keyOf hash) :=
  if t.buckets[t.bkt (keyOf r)]?.any Bucket.full && t.noexpand != 1 then
    if m.expand then .ok (some (hashExpandBuckets t)) else .error (.table (some t))
  else .ok (some t)

/-- `HASH_ADD`; the error is what it leaves when an allocation fails. -/
def hashAddKmalloc (m : Kmalloc) (head : Head keyOf hash) (r : ρ) :
    Except (RawHead keyOf hash) (Head keyOf hash) :=
  match head with
  | none =>
    if m.table then
      if m.buckets then expandKmalloc m ((hashMakeTable keyOf hash).push r) r
      else .error (.noBuckets r)
    else .error (.noTable r)
  | some t => expandKmalloc m (t.push r) r

/-- One more record makes the bucket of `k` too long. -/
def expansionDue (head : Head keyOf hash) (k : κ) : Bool :=
  match head with
  | none => false
  | some t =>
    t.buckets[t.bkt k]?.any (fun b =>
      decide ((b.expandMult + 1) * HASH_BKT_CAPACITY_THRESH ≤ b.count + 1)) && t.noexpand != 1

/-- The allocations that `HASH_ADD` needs. -/
def Kmalloc.Suffices (m : Kmalloc) (head : Head keyOf hash) (k : κ) : Prop :=
  (head = none → m.table = true ∧ m.buckets = true) ∧ (expansionDue head k = true → m.expand = true)

theorem full_push (t : Table keyOf hash) (r : ρ) :
    ((t.push r).buckets[(t.push r).bkt (keyOf r)]?.any Bucket.full && (t.push r).noexpand != 1) =
      expansionDue (some t) (keyOf r) := by
  have hbkt : (t.push r).bkt (keyOf r) = t.bkt (keyOf r) := by
    simp [Table.bkt, Table.push]
  rw [hbkt]
  simp only [Table.push, expansionDue, List.getElem?_modify_eq]
  cases t.buckets[t.bkt (keyOf r)]? <;> rfl

theorem expansionDue_makeTable (k : κ) :
    expansionDue (some (hashMakeTable keyOf hash)) k = false := by
  have hlt := (hashMakeTable keyOf hash).bkt_lt k
  have hget : (hashMakeTable keyOf hash).buckets[(hashMakeTable keyOf hash).bkt k]? =
      some ⟨[], 0, 0⟩ := by
    rw [List.getElem?_eq_getElem hlt]
    simp [hashMakeTable, emptyBuckets]
  simp only [expansionDue, hget, Option.any_some, HASH_BKT_CAPACITY_THRESH]
  rfl

theorem expandKmalloc_eq_ok {m : Kmalloc} {t : Table keyOf hash} {r : ρ} {h : Head keyOf hash} :
    expandKmalloc m (t.push r) r = .ok h ↔
      (expansionDue (some t) (keyOf r) = true → m.expand = true) ∧ h = hashAdd (some t) r := by
  have hfull := full_push t r
  simp only [expandKmalloc, hashAdd, Option.getD_some]
  rw [hfull]
  by_cases hdue : expansionDue (some t) (keyOf r) = true
  · rw [if_pos hdue, if_pos hdue]
    by_cases hexpand : m.expand = true
    · rw [if_pos hexpand, Except.ok.injEq, eq_comm]
      exact (and_iff_right fun _ => hexpand).symm
    · rw [if_neg hexpand]
      exact iff_of_false (fun herr => by cases herr) fun hok => hexpand (hok.1 hdue)
  · rw [if_neg hdue, if_neg hdue, Except.ok.injEq, eq_comm]
    exact (and_iff_right fun h => absurd h hdue).symm

/-- `HASH_ADD` comes to its end exactly if the allocations that it needs
    succeed, and then it does what it always does. -/
theorem hashAddKmalloc_eq_ok {m : Kmalloc} {head : Head keyOf hash} {r : ρ}
    {h : Head keyOf hash} :
    hashAddKmalloc m head r = .ok h ↔ m.Suffices head (keyOf r) ∧ h = hashAdd head r := by
  cases head with
  | some t =>
    rw [hashAddKmalloc, expandKmalloc_eq_ok, Kmalloc.Suffices]
    simp
  | none =>
    have hadd : hashAdd none r = hashAdd (some (hashMakeTable keyOf hash)) r := rfl
    have hdue : expansionDue (none : Head keyOf hash) (keyOf r) = false := rfl
    simp only [hashAddKmalloc, Kmalloc.Suffices, hdue, hadd]
    by_cases htable : m.table = true
    · by_cases hbuckets : m.buckets = true
      · rw [if_pos htable, if_pos hbuckets, expandKmalloc_eq_ok, expansionDue_makeTable]
        simp [htable, hbuckets]
      · simp [htable, hbuckets]
    · simp [htable]

theorem hashAddKmalloc_all (head : Head keyOf hash) (r : ρ) :
    hashAddKmalloc ⟨true, true, true, true⟩ head r = .ok (hashAdd head r) :=
  hashAddKmalloc_eq_ok.mpr ⟨⟨fun _ => ⟨rfl, rfl⟩, fun _ => rfl⟩, rfl⟩

/-- With one record more, a lookup of an old record finds an old record. -/
theorem hashFind_of_bag_cons [DecidableEq κ] {head head' : Head keyOf hash} {item : ρ}
    (hbag : bag head' = item ::ₘ bag head) (hnone : hashFind head (keyOf item) = none) {k : κ}
    {r : ρ} (h : hashFind head k = some r) :
    ∃ r' ∈ bag head, keyOf r' = k ∧ hashFind head' k = some r' := by
  obtain ⟨hr, hk⟩ := hashFind_eq_some h
  cases hfind : hashFind head' k with
  | none =>
    have hmem : r ∈ bag head' := by
      rw [hbag]
      exact Multiset.mem_cons_of_mem hr
    exact absurd hk (hashFind_eq_none.mp hfind r hmem)
  | some r' =>
    obtain ⟨hr', hk'⟩ := hashFind_eq_some hfind
    rw [hbag] at hr'
    rcases Multiset.mem_cons.mp hr' with rfl | hold
    · rw [hk', h] at hnone
      cases hnone
    · exact ⟨r', hold, hk', rfl⟩

end UTHash

namespace MiddleboxSession

open UTHash

namespace Client

/-- How a call of `addHash` ends. -/
inductive Ended where
  | oops                                                -- `memcpy` to NULL
  | returned (my_rwlock : Bool) (records : RawHead Record.key recordHash)

/-- `addHash` of the client module; `my_rwlock` says whether the lock is still
    held after the return. -/
def addHashKmalloc (m : Kmalloc) (records : KernelTable) (item : Record) : Ended :=
  match hashFind records item.key with
  | some _ => .returned false (.table records)
  | none =>
    if m.record then
      match hashAddKmalloc m records item with
      | .ok records => .returned false (.table records)
      | .error records => .returned true records     -- `return -1`
    else .oops

theorem addHashKmalloc_all (records : KernelTable) (item : Record) :
    addHashKmalloc ⟨true, true, true, true⟩ records item =
      .returned false (.table (addHash records item)) := by
  unfold addHashKmalloc addHash
  cases hashFind records item.key with
  | some p => rfl
  | none =>
    dsimp only
    rw [hashAddKmalloc_all, if_pos rfl]

/-- The call has returned without the lock, the table has its old records and at
    most the new one in addition, and the old ones are still found. -/
def Intact (records : KernelTable) (item : Record) (e : Ended) : Prop :=
  ∃ head, e = .returned false (.table head) ∧
    (bag head = bag records ∨ bag head = item ::ₘ bag records) ∧
    ∀ k r, hashFind records k = some r →
      ∃ r' ∈ bag records, r'.key = k ∧ hashFind head k = some r'

/-- **When an insertion leaves the module intact.**  For all tables, records and
    failures: exactly if there is a record with the key already, or all
    allocations that the insertion needs succeed. -/
theorem addHash_intact_iff (m : Kmalloc) (records : KernelTable) (item : Record) :
    Intact records item (addHashKmalloc m records item) ↔
      hashFind records item.key ≠ none ∨
        m.record = true ∧ m.Suffices records item.key := by
  unfold addHashKmalloc
  cases hfind : hashFind records item.key with
  | some p =>
    refine iff_of_true ⟨records, rfl, Or.inl rfl, ?_⟩ (Or.inl (Option.some_ne_none p))
    intro k r hr
    obtain ⟨hmem, hk⟩ := hashFind_eq_some hr
    exact ⟨r, hmem, hk, hr⟩
  | none =>
    simp only [ne_eq, not_true_eq_false, false_or]
    by_cases hrecord : m.record = true
    · rw [if_pos hrecord]
      simp only [hrecord, true_and]
      cases hadd : hashAddKmalloc m records item with
      | ok head =>
        obtain ⟨hsuffices, rfl⟩ := hashAddKmalloc_eq_ok.mp hadd
        have hbag : bag (hashAdd records item) = item ::ₘ bag records := bag_hashAdd records item
        refine iff_of_true ⟨_, rfl, Or.inr hbag, ?_⟩ hsuffices
        exact fun k r hr => hashFind_of_bag_cons hbag hfind hr
      | error raw =>
        refine iff_of_false ?_ ?_
        · rintro ⟨head, heq, -⟩
          cases heq
        · intro hsuffices
          rw [hashAddKmalloc_eq_ok.mpr ⟨hsuffices, rfl⟩] at hadd
          cases hadd
    · rw [if_neg hrecord]
      refine iff_of_false ?_ fun h => hrecord h.1
      rintro ⟨head, heq, -⟩
      cases heq

/-- "RESET": the old record is deleted, and there is no memory for the new one. -/
theorem reset_out_of_memory :
    ¬ ∀ m records item, Intact records item (addHashKmalloc m records item) := by
  intro h
  have hnone : hashFind (deleteHash pktMangleInit (out oldBox)) (out oldBox).key = none := by
    decide +kernel
  obtain ⟨head, heq, -⟩ := h ⟨false, true, true, true⟩ (deleteHash pktMangleInit (out oldBox))
    (out oldBox)
  simp only [addHashKmalloc, hnone] at heq
  cases heq

end Client

end MiddleboxSession
