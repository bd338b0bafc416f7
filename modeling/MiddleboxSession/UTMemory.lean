/-
  MiddleboxSession/UTMemory.lean
  ==============================
  **The uthash macros on memory.**

  Here the macros of `uthash.h` are what they expand to: reads and writes
  through pointers, in the order of the source.  A pointer is an `Option`,
  `none` is `NULL`.  An element is a record with its `UT_hash_handle`; a table
  lives in memory of its own, and every handle points to it.

  A macro that reads or writes what is not allocated, that frees it twice, that
  divides by zero or that does not come to the end of a list has no result.
  Memory does not lose what is in it when it is freed, and new memory holds
  what it held before.
-/
import MiddleboxSession.UTSlots

namespace UTHash

/-! ### Memory -/

/-- `UT_hash_handle`.  The key it points to is the one in its own element. -/
structure Handle (ι : Type) where
  tbl : Option Nat
  prev : Option ι
  next : Option ι
  hhPrev : Option ι
  hhNext : Option ι
  hashv : BitVec 32
deriving DecidableEq

/-- A handle after `memset`. -/
def Handle.zero {ι : Type} : Handle ι := ⟨none, none, none, none, none, 0⟩

/-- An element: a record and its `hh`. -/
structure Elmt (ι ρ : Type) where
  record : ρ
  hh : Handle ι
deriving DecidableEq

/-- `UT_hash_bucket`. -/
structure BucketMem (ι : Type) where
  hhHead : Option ι
  count : Nat
  expandMult : Nat
deriving DecidableEq

/-- `UT_hash_table` with its array of buckets. -/
structure TableMem (ι : Type) where
  buckets : List (BucketMem ι)
  log2NumBuckets : Nat
  numItems : Nat
  tail : Option ι
  idealChainMaxlen : Nat
  nonidealItems : Nat
  ineffExpands : Nat
  noexpand : Nat
deriving DecidableEq

/-- What is allocated, and what is in it.  `made` numbers the tables. -/
structure Memory (ι ρ : Type) where
  live : List ι
  elmt : ι → Elmt ι ρ
  made : Nat
  table : Nat → Option (TableMem ι)

section Macros

variable {ι κ ρ : Type} [DecidableEq ι]

def Memory.read (m : Memory ι ρ) (a : ι) : Option (Elmt ι ρ) :=
  if a ∈ m.live then some (m.elmt a) else none

def Memory.set (m : Memory ι ρ) (a : ι) (e : Elmt ι ρ) : Memory ι ρ :=
  { m with elmt := Function.update m.elmt a e }

def Memory.write (m : Memory ι ρ) (a : ι) (f : Elmt ι ρ → Elmt ι ρ) : Option (Memory ι ρ) :=
  if a ∈ m.live then some (m.set a (f (m.elmt a))) else none

/-- An assignment to a field of a handle. -/
def Memory.writeHh (m : Memory ι ρ) (a : ι) (f : Handle ι → Handle ι) : Option (Memory ι ρ) :=
  m.write a fun e => { e with hh := f e.hh }

/-- An assignment behind a test for `NULL`. -/
def Memory.writeIf (m : Memory ι ρ) (p : Option ι) (f : Handle ι → Handle ι) :
    Option (Memory ι ρ) :=
  match p with
  | none => some m
  | some a => m.writeHh a f

def Memory.setTable (m : Memory ι ρ) (i : Nat) (t : Option (TableMem ι)) : Memory ι ρ :=
  { m with table := Function.update m.table i t }

/-- `(head)->hh.tbl`, and the table there. -/
def Memory.tblOf (m : Memory ι ρ) (head : ι) : Option (Nat × TableMem ι) := do
  let e ← m.read head
  let i ← e.hh.tbl
  let t ← m.table i
  pure (i, t)

/-- `kmalloc`, which returns `a`. -/
def Memory.alloc (m : Memory ι ρ) (a : ι) : Memory ι ρ := { m with live := a :: m.live }

/-- `kfree`. -/
def Memory.free (m : Memory ι ρ) (a : ι) : Option (Memory ι ρ) :=
  if a ∈ m.live then some { m with live := m.live.erase a } else none

variable (keyOf : ρ → κ) (hash : κ → BitVec 32)

/-! ### `HASH_FIND` -/

/-- The loop of `HASH_FIND_IN_BKT`. -/
def hashFindInBkt [DecidableEq κ] (m : Memory ι ρ) (k : κ) :
    Nat → Option ι → Option (Option ι)
  | _, none => some none
  | 0, some _ => none
  | fuel + 1, some out => do
    let e ← m.read out
    if keyOf e.record = k then pure (some out)
    else hashFindInBkt m k fuel e.hh.hhNext

/-- `HASH_FIND`: what `out` points to afterwards. -/
def memFind [DecidableEq κ] (m : Memory ι ρ) (head : Option ι) (k : κ) : Option (Option ι) :=
  match head with
  | none => some none
  | some head => do
    let (_, t) ← m.tblOf head
    let b ← t.buckets[hashToBkt (hash k) t.buckets.length]?
    hashFindInBkt keyOf m k m.live.length b.hhHead

/-! ### `HASH_ADD` -/

/-- `HASH_MAKE_TABLE`. -/
def makeTable (head : ι) : TableMem ι where
  buckets := List.replicate HASH_INITIAL_NUM_BUCKETS ⟨none, 0, 0⟩
  log2NumBuckets := HASH_INITIAL_NUM_BUCKETS_LOG2
  numItems := 0
  tail := some head
  idealChainMaxlen := 0
  nonidealItems := 0
  ineffExpands := 0
  noexpand := 0

/-- A handle linked in front of a chain, in `HASH_ADD_TO_BKT` and in
    `HASH_EXPAND_BUCKETS`. -/
def linkFront (m : Memory ι ρ) (hhHead : Option ι) (hh : ι) : Option (Memory ι ρ) := do
  let m ← m.writeHh hh fun h => { h with hhPrev := none, hhNext := hhHead }
  m.writeIf hhHead fun h => { h with hhPrev := some hh }

/-- The new bucket that takes `hh` in `HASH_EXPAND_BUCKETS`. -/
def BucketMem.rehashed (ideal : Nat) (hh : ι) (b : BucketMem ι) : Option (BucketMem ι) :=
  if b.count + 1 > ideal then
    -- `expand_mult = count / ideal_chain_maxlen`
    if ideal = 0 then none else some ⟨some hh, b.count + 1, (b.count + 1) / ideal⟩
  else some ⟨some hh, b.count + 1, b.expandMult⟩

/-- The `while (_he_thh)` loop of `HASH_EXPAND_BUCKETS`, with the new buckets and
    `nonideal_items`. -/
def rehashChain (ideal : Nat) : Nat → Memory ι ρ → List (BucketMem ι) × Nat → Option ι →
    Option (Memory ι ρ × (List (BucketMem ι) × Nat))
  | _, m, acc, none => some (m, acc)
  | 0, _, _, some _ => none
  | fuel + 1, m, (newBuckets, nonideal), some thh => do
    let e ← m.read thh
    let hhNxt := e.hh.hhNext
    let bkt := hashToBkt e.hh.hashv newBuckets.length
    let newbkt ← newBuckets[bkt]?
    let newbkt' ← newbkt.rehashed ideal thh
    let nonideal := if newbkt.count + 1 > ideal then nonideal + 1 else nonideal
    let m ← linkFront m newbkt.hhHead thh
    rehashChain ideal fuel m (newBuckets.set bkt newbkt', nonideal) hhNxt

/-- The `for` loop of `HASH_EXPAND_BUCKETS` over the old buckets. -/
def rehashBuckets (ideal : Nat) : List (BucketMem ι) → Memory ι ρ → List (BucketMem ι) × Nat →
    Option (Memory ι ρ × (List (BucketMem ι) × Nat))
  | [], m, acc => some (m, acc)
  | b :: bs, m, acc => do
    let (m, acc) ← rehashChain ideal m.live.length m acc b.hhHead
    rehashBuckets ideal bs m acc

/-- `HASH_EXPAND_BUCKETS` of the table `t`. -/
def expandBuckets (m : Memory ι ρ) (t : TableMem ι) : Option (Memory ι ρ × TableMem ι) := do
  let n := 2 * t.buckets.length
  let ideal := (t.numItems >>> (t.log2NumBuckets + 1)) +
    if t.numItems &&& (n - 1) = 0 then 0 else 1
  let (m, newBuckets, nonideal) ←
    rehashBuckets ideal t.buckets m (List.replicate n ⟨none, 0, 0⟩, 0)
  let ineffExpands := if nonideal > t.numItems >>> 1 then t.ineffExpands + 1 else 0
  pure (m, { t with
    buckets := newBuckets
    log2NumBuckets := t.log2NumBuckets + 1
    idealChainMaxlen := ideal
    nonidealItems := nonideal
    ineffExpands := ineffExpands
    noexpand := if ineffExpands > 1 then 1 else t.noexpand })

def BucketMem.full (b : BucketMem ι) : Bool :=
  (b.expandMult + 1) * HASH_BKT_CAPACITY_THRESH ≤ b.count

/-- `HASH_ADD_TO_BKT`. -/
def addToBkt (m : Memory ι ρ) (i : Nat) (t : TableMem ι) (bkt : Nat) (addhh : ι) :
    Option (Memory ι ρ) := do
  let b ← t.buckets[bkt]?
  let m ← linkFront m b.hhHead addhh
  let b : BucketMem ι := ⟨some addhh, b.count + 1, b.expandMult⟩
  let t := { t with buckets := t.buckets.set bkt b }
  if b.full && t.noexpand != 1 then
    let (m, t) ← expandBuckets m t
    pure (m.setTable i (some t))
  else pure (m.setTable i (some t))

/-- The part of `HASH_ADD_KEYPTR` on the list in the order of insertion: the head
    afterwards, with the table. -/
def appendApp (m : Memory ι ρ) (head : Option ι) (add : ι) : Option (Memory ι ρ × ι) := do
  let m ← m.writeHh add fun h => { h with next := none }
  match head with
  | none => do
    let m ← m.writeHh add fun h => { h with prev := none, tbl := some m.made }
    pure ({ m.setTable m.made (some (makeTable add)) with made := m.made + 1 }, add)
  | some head => do
    let (i, t) ← m.tblOf head
    let tail ← t.tail
    let m ← m.writeHh tail fun h => { h with next := some add }
    let m ← m.writeHh add fun h => { h with prev := some tail }
    pure (m.setTable i (some { t with tail := some add }), head)

/-- `HASH_ADD_KEYPTR`: the head afterwards. -/
def memAdd (m : Memory ι ρ) (head : Option ι) (add : ι) : Option (Memory ι ρ × ι) := do
  let (m, head) ← appendApp m head add
  let (i, t) ← m.tblOf head
  let e ← m.read add
  let hashv := hash (keyOf e.record)
  let m ← m.writeHh add fun h => { h with tbl := some i, hashv := hashv }
  let m ← addToBkt m i { t with numItems := t.numItems + 1 }
    (hashToBkt hashv t.buckets.length) add
  pure (m, head)

/-! ### `HASH_DELETE` -/

/-- `HASH_DEL_IN_BKT`. -/
def delInBkt (m : Memory ι ρ) (b : BucketMem ι) (hhDel : ι) :
    Option (Memory ι ρ × BucketMem ι) := do
  let h := (← m.read hhDel).hh
  let hhHead := if b.hhHead = some hhDel then h.hhNext else b.hhHead
  let m ← m.writeIf h.hhPrev fun p => { p with hhNext := h.hhNext }
  let m ← m.writeIf h.hhNext fun n => { n with hhPrev := h.hhPrev }
  pure (m, { b with count := b.count - 1, hhHead := hhHead })

/-- The part of `HASH_DELETE` on the list in the order of insertion: the head and
    the tail afterwards. -/
def unlinkApp (m : Memory ι ρ) (head tail : Option ι) (del : ι) :
    Option (Memory ι ρ × Option ι × Option ι) := do
  let h := (← m.read del).hh
  let tail := if tail = some del then h.prev else tail
  let head := if h.prev = none then h.next else head
  let m ← m.writeIf h.prev fun p => { p with next := h.next }
  let m ← m.writeIf h.next fun n => { n with prev := h.prev }
  pure (m, head, tail)

/-- `HASH_DELETE`: the head afterwards. -/
def memDelete (m : Memory ι ρ) (head : Option ι) (del : ι) :
    Option (Memory ι ρ × Option ι) := do
  let h := (← m.read del).hh
  let (i, t) ← m.tblOf (← head)
  if h.prev = none ∧ h.next = none then pure (m.setTable i none, none)
  else
    let (m, head, tail) ← unlinkApp m head t.tail del
    let m := m.setTable i (some { t with tail := tail })
    -- from here on the table is read through the new head
    let (i, t) ← m.tblOf (← head)
    let bkt := hashToBkt h.hashv t.buckets.length
    let b ← t.buckets[bkt]?
    let (m, b) ← delInBkt m b del
    pure (m.setTable i (some { t with
      buckets := t.buckets.set bkt b
      numItems := t.numItems - 1 }), head)

/-! ### `HASH_ITER` with `HASH_DEL` and `kfree` -/

/-- `p ? p->hh.next : NULL`. -/
def appNext (m : Memory ι ρ) (p : Option ι) : Option (Option ι) :=
  match p with
  | none => some none
  | some p => (m.read p).map fun e => e.hh.next

/-- The loop that empties a hash: the elements it frees, in turn. -/
def clearLoop : Nat → Memory ι ρ → Option ι → Option ι → Option ι →
    Option (Memory ι ρ × Option ι × List ι)
  | _, m, head, none, _ => some (m, head, [])
  | 0, _, _, some _, _ => none
  | fuel + 1, m, head, some p, tmp => do
    let (m, head) ← memDelete m head p
    let m ← m.free p
    let (m, head, freed) ← clearLoop fuel m head tmp (← appNext m tmp)
    pure (m, head, p :: freed)

def clear (m : Memory ι ρ) (head : Option ι) : Option (Memory ι ρ × Option ι × List ι) := do
  clearLoop m.live.length m head head (← appNext m head)

/-! ### `HASH_FSCK` -/

/-- A list of handles from `thh` on with every back link right: its length.  The
    source exits at a wrong one. -/
def fsckList (m : Memory ι ρ) (back next : Handle ι → Option ι) :
    Nat → Option ι → Option ι → Option Nat
  | _, _, none => some 0
  | 0, _, some _ => none
  | fuel + 1, prev, some thh => do
    let e ← m.read thh
    if back e.hh = prev then
      let count ← fsckList m back next fuel (some thh) (next e.hh)
      pure (count + 1)
    else none

/-- The chains of all buckets, each with the right count: the number of handles. -/
def fsckBuckets (m : Memory ι ρ) : List (BucketMem ι) → Option Nat
  | [] => some 0
  | b :: bs => do
    let bktCount ← fsckList m Handle.hhPrev Handle.hhNext m.live.length none b.hhHead
    if b.count = bktCount then
      let count ← fsckBuckets m bs
      pure (bktCount + count)
    else none

/-- `HASH_FSCK`: `some ()` when no check fails. -/
def fsck (m : Memory ι ρ) (head : Option ι) : Option Unit :=
  match head with
  | none => some ()
  | some head => do
    let (_, t) ← m.tblOf head
    let count ← fsckBuckets m t.buckets
    let appCount ← fsckList m Handle.prev Handle.next m.live.length none (some head)
    if count = t.numItems ∧ appCount = t.numItems then pure () else none

end Macros

end UTHash
