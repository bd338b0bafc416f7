/-
  MiddleboxSession/UTHash.lean
  ============================
  **The uthash table**, generic in the record type.

  The definitions follow the macros of `uthash.h` by name: a table is an array
  of buckets, each a chain of records with its own counters; `HASH_ADD` puts a
  record at the head of its chain *without looking for an equal key* and
  doubles the buckets when a chain grows too long; `HASH_FIND` returns the
  first record of the key's chain whose key is equal.

  A table carries the facts that every macro relies on: it has a bucket, every
  record is in the bucket that its hash names, and `num_items` counts the
  records.  Over it stands the abstract view that all other modules use:
  `bag`, the multiset of the records in the table.  Each macro is one equation
  about `bag`, and `HASH_FIND` returns a member of `bag` with the key if there
  is one.  Nothing is promised about *which* one when a key occurs twice
  (bucket expansion reverses the chains).

  The record's place in the insertion-order list is not modelled; the only
  test on it, in `HASH_DELETE`, asks whether the record is the last one.
-/
import MiddleboxSession.CBuffer
import Mathlib.Data.Multiset.AddSub
import Mathlib.Data.Multiset.MapFold
import Mathlib.Tactic

namespace UTHash

open CBuffer

/-! ### The hash function -/

def hashJenMix (a b c : BitVec 32) : BitVec 32 × BitVec 32 × BitVec 32 :=
  let a := (a - b - c) ^^^ (c >>> 13)
  let b := (b - c - a) ^^^ (a <<< 8)
  let c := (c - a - b) ^^^ (b >>> 13)
  let a := (a - b - c) ^^^ (c >>> 12)
  let b := (b - c - a) ^^^ (a <<< 16)
  let c := (c - a - b) ^^^ (b >>> 5)
  let a := (a - b - c) ^^^ (c >>> 3)
  let b := (b - c - a) ^^^ (a <<< 10)
  let c := (c - a - b) ^^^ (b >>> 15)
  (a, b, c)

/-- The twelve-byte rounds of `HASH_JEN`, and the bytes that are left. -/
def hashJenRounds (i j hashv : BitVec 32) :
    List Byte → (BitVec 32 × BitVec 32 × BitVec 32) × List Byte
  | k0 :: k1 :: k2 :: k3 :: k4 :: k5 :: k6 :: k7 :: k8 :: k9 :: k10 :: k11 :: rest =>
    let (i, j, hashv) := hashJenMix (i + bytesWord k0 k1 k2 k3) (j + bytesWord k4 k5 k6 k7)
      (hashv + bytesWord k8 k9 k10 k11)
    hashJenRounds i j hashv rest
  | rest => ((i, j, hashv), rest)

/-- `HASH_JEN`, the default `HASH_FCN`. -/
def hashJen (key : List Byte) : BitVec 32 :=
  let ((i, j, hashv), rest) := hashJenRounds 0x9e3779b9 0x9e3779b9 0xfeedbeef key
  let k (n : Nat) : Byte := rest.getD n 0
  let hashv := hashv + BitVec.ofNat 32 key.length
  -- the `switch` falls through: each byte that is there is added at its place
  let hashv := hashv + bytesWord 0 (k 8) (k 9) (k 10)
  let j := j + bytesWord (k 4) (k 5) (k 6) (k 7)
  let i := i + bytesWord (k 0) (k 1) (k 2) (k 3)
  (hashJenMix i j hashv).2.2

/-! ### Buckets -/

/-- `UT_hash_bucket`: the records of the chain from `hh_head` on. -/
structure Bucket (ρ : Type*) where
  hhChain : List ρ
  count : Nat
  expandMult : Nat

def HASH_INITIAL_NUM_BUCKETS : Nat := 32
def HASH_INITIAL_NUM_BUCKETS_LOG2 : Nat := 5
def HASH_BKT_CAPACITY_THRESH : Nat := 10

def hashToBkt (hashv : BitVec 32) (numBkts : Nat) : Nat := hashv.toNat &&& (numBkts - 1)

theorem hashToBkt_lt (hashv : BitVec 32) {n : Nat} (h : 0 < n) : hashToBkt hashv n < n := by
  have : hashv.toNat &&& (n - 1) ≤ n - 1 := Nat.and_le_right
  rw [hashToBkt]
  omega

section Macros

variable {κ ρ : Type*} (keyOf : ρ → κ) (hash : κ → BitVec 32)

def chainAt (bs : List (Bucket ρ)) (i : Nat) : List ρ :=
  match bs[i]? with
  | some b => b.hhChain
  | none => []

def records (bs : List (Bucket ρ)) : List ρ := bs.flatMap Bucket.hhChain

/-- Every record is in the bucket that its hash names. -/
def Placed (bs : List (Bucket ρ)) : Prop :=
  ∀ i, ∀ r ∈ chainAt bs i, hashToBkt (hash (keyOf r)) bs.length = i

theorem chainAt_modify (bs : List (Bucket ρ)) (g : Bucket ρ → Bucket ρ) {i : Nat}
    (hi : i < bs.length) (j : Nat) :
    chainAt (bs.modify i g) j = if i = j then (g bs[i]).hhChain else chainAt bs j := by
  unfold chainAt
  by_cases hij : i = j
  · subst hij
    simp [List.getElem?_modify_eq, List.getElem?_eq_getElem hi]
  · simp [List.getElem?_modify_ne _ _ hij, hij]

/-- The records of a bucket array split around one bucket. -/
theorem records_modify (bs : List (Bucket ρ)) (g : Bucket ρ → Bucket ρ) {i : Nat}
    (hi : i < bs.length) :
    ∃ rest : Multiset ρ, (records bs : Multiset ρ) = ↑(chainAt bs i) + rest ∧
      (records (bs.modify i g) : Multiset ρ) = ↑(g bs[i]).hhChain + rest := by
  refine ⟨↑(records (bs.take i)) + ↑(records (bs.drop (i + 1))), ?_, ?_⟩
  · have hsplit : bs = bs.take i ++ bs[i] :: bs.drop (i + 1) := by simp
    have hchain : chainAt bs i = bs[i].hhChain := by
      simp [chainAt, List.getElem?_eq_getElem hi]
    rw [hchain]
    conv_lhs => rw [hsplit]
    simp only [records, List.flatMap_append, List.flatMap_cons, ← Multiset.coe_add]
    exact add_left_comm _ _ _
  · rw [List.modify_eq_take_cons_drop hi]
    simp only [records, List.flatMap_append, List.flatMap_cons, ← Multiset.coe_add]
    exact add_left_comm _ _ _

theorem mem_chainAt_of_mem_records {bs : List (Bucket ρ)} (hp : Placed keyOf hash bs) {r : ρ}
    (hr : r ∈ records bs) : r ∈ chainAt bs (hashToBkt (hash (keyOf r)) bs.length) := by
  obtain ⟨b, hb, hrb⟩ := List.mem_flatMap.mp hr
  obtain ⟨i, hi, rfl⟩ := List.mem_iff_getElem.mp hb
  have hchain : r ∈ chainAt bs i := by simpa [chainAt, List.getElem?_eq_getElem hi] using hrb
  rwa [hp i r hchain]

theorem mem_records_of_mem_chainAt {bs : List (Bucket ρ)} {i : Nat} {r : ρ}
    (hr : r ∈ chainAt bs i) : r ∈ records bs := by
  unfold chainAt at hr
  split at hr
  · rename_i b hb
    exact List.mem_flatMap.mpr ⟨b, List.mem_of_getElem? hb, hr⟩
  · exact absurd hr (by simp)

/-- Rewriting one chain keeps every record in its bucket if the records that
    come in belong there. -/
theorem Placed.modify {bs : List (Bucket ρ)} (hp : Placed keyOf hash bs)
    {g : Bucket ρ → Bucket ρ} {i : Nat} (hi : i < bs.length)
    (hg : ∀ r ∈ (g bs[i]).hhChain, hashToBkt (hash (keyOf r)) bs.length = i) :
    Placed keyOf hash (bs.modify i g) := by
  intro j r hr
  rw [List.length_modify]
  rw [chainAt_modify bs g hi j] at hr
  by_cases hij : i = j
  · rw [if_pos hij] at hr
    rw [← hij]
    exact hg r hr
  · rw [if_neg hij] at hr
    exact hp j r hr

/-! ### The table -/

structure Table where
  buckets : List (Bucket ρ)
  log2NumBuckets : Nat
  numItems : Nat
  idealChainMaxlen : Nat
  nonidealItems : Nat
  ineffExpands : Nat
  noexpand : Nat
  nonempty : 0 < buckets.length
  placed : Placed keyOf hash buckets
  counted : numItems = (records buckets).length

/-- The head pointer of a hash: `none` is `NULL`, the empty hash. -/
abbrev Head := Option (Table keyOf hash)

variable {keyOf hash}

def bag : Head keyOf hash → Multiset ρ
  | none => 0
  | some t => ↑(records t.buckets)

@[simp] theorem bag_none : bag (none : Head keyOf hash) = 0 := rfl

def Table.bkt (t : Table keyOf hash) (k : κ) : Nat := hashToBkt (hash k) t.buckets.length

theorem Table.bkt_lt (t : Table keyOf hash) (k : κ) : t.bkt k < t.buckets.length :=
  hashToBkt_lt _ t.nonempty

/-! ### `HASH_FIND` -/

/-- `HASH_FIND`: the first record of the key's chain with an equal key
    (`HASH_FIND_IN_BKT`). -/
def hashFind [DecidableEq κ] (head : Head keyOf hash) (k : κ) : Option ρ :=
  match head with
  | none => none
  | some t => (chainAt t.buckets (t.bkt k)).find? fun r => keyOf r = k

theorem hashFind_eq_some [DecidableEq κ] {head : Head keyOf hash} {k : κ} {r : ρ}
    (h : hashFind head k = some r) : r ∈ bag head ∧ keyOf r = k := by
  cases head with
  | none => exact absurd h (by simp [hashFind])
  | some t =>
    exact ⟨mem_records_of_mem_chainAt (List.mem_of_find?_eq_some h), by
      simpa using List.find?_some h⟩

/-- `HASH_FIND` misses exactly the keys that no record has. -/
theorem hashFind_eq_none [DecidableEq κ] {head : Head keyOf hash} {k : κ} :
    hashFind head k = none ↔ ∀ r ∈ bag head, keyOf r ≠ k := by
  cases head with
  | none => simp [hashFind]
  | some t =>
    simp only [hashFind, List.find?_eq_none, decide_eq_true_eq, bag, Multiset.mem_coe]
    constructor
    · intro h r hr hk
      have hmem := mem_chainAt_of_mem_records keyOf hash t.placed hr
      rw [hk] at hmem
      exact h r hmem hk
    · exact fun h r hr => h r (mem_records_of_mem_chainAt hr)

/-- A key whose records are all equal to `r` is found as `r`. -/
theorem hashFind_of_forall_eq [DecidableEq κ] {head : Head keyOf hash} {k : κ} {r : ρ}
    (hr : r ∈ bag head) (hk : keyOf r = k) (huniq : ∀ r' ∈ bag head, keyOf r' = k → r' = r) :
    hashFind head k = some r := by
  cases h : hashFind head k with
  | none => exact absurd hk (hashFind_eq_none.mp h r hr)
  | some r' =>
    obtain ⟨hmem, hkey⟩ := hashFind_eq_some h
    rw [huniq r' hmem hkey]

/-! ### `HASH_ADD` -/

/-- The bucket part of `HASH_ADD_TO_BKT`. -/
def Bucket.addToBkt (b : Bucket ρ) (r : ρ) : Bucket ρ :=
  { b with count := b.count + 1, hhChain := r :: b.hhChain }

/-- What `HASH_EXPAND_BUCKETS` does to the new bucket of a record. -/
def Bucket.rehashed (ideal : Nat) (r : ρ) (b : Bucket ρ) : Bucket ρ :=
  let b := b.addToBkt r
  if b.count > ideal then { b with expandMult := b.count / ideal } else b

@[simp] theorem Bucket.hhChain_rehashed (ideal : Nat) (r : ρ) (b : Bucket ρ) :
    (b.rehashed ideal r).hhChain = r :: b.hhChain := by
  unfold Bucket.rehashed
  dsimp only
  split <;> rfl

/-- One round of the redistribution loop of `HASH_EXPAND_BUCKETS`: the new
    buckets and the number of items past the ideal chain length. -/
def rehash (keyOf : ρ → κ) (hash : κ → BitVec 32) (ideal : Nat) (acc : List (Bucket ρ) × Nat)
    (r : ρ) : List (Bucket ρ) × Nat :=
  let i := hashToBkt (hash (keyOf r)) acc.1.length
  let count := match acc.1[i]? with
    | some b => b.count
    | none => 0
  (acc.1.modify i (Bucket.rehashed ideal r), if count + 1 > ideal then acc.2 + 1 else acc.2)

theorem records_push {bs : List (Bucket ρ)} {g : Bucket ρ → Bucket ρ} {r : ρ}
    (hg : ∀ b, (g b).hhChain = r :: b.hhChain) (hne : 0 < bs.length)
    (hp : Placed keyOf hash bs) :
    Placed keyOf hash (bs.modify (hashToBkt (hash (keyOf r)) bs.length) g) ∧
      (records (bs.modify (hashToBkt (hash (keyOf r)) bs.length) g) : Multiset ρ) =
        r ::ₘ ↑(records bs) := by
  have hi : hashToBkt (hash (keyOf r)) bs.length < bs.length := hashToBkt_lt _ hne
  have hchain : chainAt bs (hashToBkt (hash (keyOf r)) bs.length) =
      bs[hashToBkt (hash (keyOf r)) bs.length].hhChain := by
    simp [chainAt, List.getElem?_eq_getElem hi]
  constructor
  · refine hp.modify keyOf hash hi fun r' hr' => ?_
    rw [hg] at hr'
    rcases List.mem_cons.mp hr' with rfl | hmem
    · rfl
    · exact hp _ r' (hchain ▸ hmem)
  · obtain ⟨rest, hbs, hmod⟩ := records_modify bs g hi
    rw [hmod, hbs, hg, hchain, ← Multiset.cons_coe, Multiset.cons_add]

theorem foldl_rehash (ideal : Nat) (rs : List ρ) (acc : List (Bucket ρ) × Nat)
    (hne : 0 < acc.1.length) (hp : Placed keyOf hash acc.1) :
    (rs.foldl (rehash keyOf hash ideal) acc).1.length = acc.1.length ∧
      Placed keyOf hash (rs.foldl (rehash keyOf hash ideal) acc).1 ∧
      (records (rs.foldl (rehash keyOf hash ideal) acc).1 : Multiset ρ) =
        ↑rs + ↑(records acc.1) := by
  induction rs generalizing acc with
  | nil => exact ⟨rfl, hp, by simp⟩
  | cons r rs ih =>
    obtain ⟨hp', hrec⟩ := records_push (Bucket.hhChain_rehashed ideal r) hne hp
    have hlen : (rehash keyOf hash ideal acc r).1.length = acc.1.length := by simp [rehash]
    obtain ⟨h1, h2, h3⟩ := ih (rehash keyOf hash ideal acc r) (by omega) hp'
    refine ⟨h1.trans hlen, h2, h3.trans ?_⟩
    rw [show (rehash keyOf hash ideal acc r).1 = acc.1.modify _ _ from rfl, hrec,
      ← Multiset.cons_coe, Multiset.cons_add, Multiset.add_cons]

def emptyBuckets (ρ : Type*) (n : Nat) : List (Bucket ρ) :=
  List.replicate n { hhChain := [], count := 0, expandMult := 0 }

@[simp] theorem records_emptyBuckets (n : Nat) : records (emptyBuckets ρ n) = [] := by
  simp [records, emptyBuckets, List.flatMap_replicate]

theorem placed_emptyBuckets (n : Nat) : Placed keyOf hash (emptyBuckets ρ n) := by
  intro i r hr
  have := mem_records_of_mem_chainAt hr
  simp at this

theorem length_eq_of_coe_eq {as bs : List ρ} (h : (as : Multiset ρ) = ↑bs) :
    as.length = bs.length := by
  have := congrArg Multiset.card h
  simpa using this

/-- `HASH_EXPAND_BUCKETS`, the allocation of the new array succeeding. -/
def hashExpandBuckets (t : Table keyOf hash) : Table keyOf hash :=
  let n := 2 * t.buckets.length
  let ideal := (t.numItems >>> (t.log2NumBuckets + 1)) +
    if t.numItems &&& (n - 1) = 0 then 0 else 1
  let moved := (records t.buckets).foldl (rehash keyOf hash ideal) (emptyBuckets ρ n, 0)
  let ineffExpands := if moved.2 > t.numItems >>> 1 then t.ineffExpands + 1 else 0
  have hpos : 0 < (emptyBuckets ρ n).length := by
    have := t.nonempty
    simp only [emptyBuckets, List.length_replicate]
    omega
  have hmoved := foldl_rehash ideal (records t.buckets) (emptyBuckets ρ n, 0) hpos
    (placed_emptyBuckets n)
  { buckets := moved.1
    log2NumBuckets := t.log2NumBuckets + 1
    numItems := t.numItems
    idealChainMaxlen := ideal
    nonidealItems := moved.2
    ineffExpands := ineffExpands
    noexpand := if ineffExpands > 1 then 1 else t.noexpand
    nonempty := hmoved.1 ▸ hpos
    placed := hmoved.2.1
    counted := t.counted.trans (length_eq_of_coe_eq (by rw [hmoved.2.2]; simp)) }

theorem records_hashExpandBuckets (t : Table keyOf hash) :
    (records (hashExpandBuckets t).buckets : Multiset ρ) = ↑(records t.buckets) := by
  have hpos : 0 < (emptyBuckets ρ (2 * t.buckets.length)).length := by
    have := t.nonempty
    simp only [emptyBuckets, List.length_replicate]
    omega
  refine (foldl_rehash _ (records t.buckets) _ hpos (placed_emptyBuckets _)).2.2.trans ?_
  simp

/-- `HASH_MAKE_TABLE`, the two allocations succeeding. -/
def hashMakeTable (keyOf : ρ → κ) (hash : κ → BitVec 32) : Table keyOf hash where
  buckets := emptyBuckets ρ HASH_INITIAL_NUM_BUCKETS
  log2NumBuckets := HASH_INITIAL_NUM_BUCKETS_LOG2
  numItems := 0
  idealChainMaxlen := 0
  nonidealItems := 0
  ineffExpands := 0
  noexpand := 0
  nonempty := by simp [emptyBuckets, HASH_INITIAL_NUM_BUCKETS]
  placed := placed_emptyBuckets _
  counted := by simp

/-- `num_items++` and the bucket part of `HASH_ADD_TO_BKT`. -/
def Table.push (t : Table keyOf hash) (r : ρ) : Table keyOf hash :=
  have h := records_push (g := (Bucket.addToBkt · r)) (fun _ => rfl) t.nonempty t.placed
  { t with
    buckets := t.buckets.modify (t.bkt (keyOf r)) (Bucket.addToBkt · r)
    numItems := t.numItems + 1
    nonempty := by simpa using t.nonempty
    placed := h.1
    counted := by
      have hcard : (records (t.buckets.modify (t.bkt (keyOf r)) (Bucket.addToBkt · r))).length =
          (r :: records t.buckets).length := length_eq_of_coe_eq h.2
      rw [hcard, List.length_cons, t.counted] }

theorem records_push_table (t : Table keyOf hash) (r : ρ) :
    (records (t.push r).buckets : Multiset ρ) = r ::ₘ ↑(records t.buckets) :=
  (records_push (g := (Bucket.addToBkt · r)) (fun _ => rfl) t.nonempty t.placed).2

def Bucket.full (b : Bucket ρ) : Bool :=
  (b.expandMult + 1) * HASH_BKT_CAPACITY_THRESH ≤ b.count

/-- `HASH_ADD`: no search for an equal key; the new record goes to the head of
    its chain, and a chain that reached its limit doubles the buckets. -/
def hashAdd (head : Head keyOf hash) (r : ρ) : Head keyOf hash :=
  let t := (head.getD (hashMakeTable keyOf hash)).push r
  if t.buckets[t.bkt (keyOf r)]?.any Bucket.full && t.noexpand != 1 then
    some (hashExpandBuckets t)
  else some t

@[simp] theorem bag_hashAdd (head : Head keyOf hash) (r : ρ) :
    bag (hashAdd head r) = r ::ₘ bag head := by
  have hbase : (records (head.getD (hashMakeTable keyOf hash)).buckets : Multiset ρ) =
      bag head := by
    cases head with
    | none => simp [hashMakeTable]
    | some t => rfl
  unfold hashAdd
  dsimp only
  split
  · rw [bag, records_hashExpandBuckets, records_push_table, hbase]
  · rw [bag, records_push_table, hbase]

/-! ### `HASH_DELETE` -/

variable [DecidableEq κ]

theorem Table.chain_split {t : Table keyOf hash} {k : κ} {r : ρ}
    (h : hashFind (some t) k = some r) :
    keyOf r = k ∧ ∃ as bs, chainAt t.buckets (t.bkt k) = as ++ r :: bs ∧ ∀ a ∈ as, keyOf a ≠ k := by
  rw [hashFind, List.find?_eq_some_iff_append] at h
  obtain ⟨hk, as, bs, heq, has⟩ := h
  exact ⟨by simpa using hk, as, bs, heq, fun a ha => by simpa using has a ha⟩

theorem records_eraseP {t : Table keyOf hash} {k : κ} {r : ρ}
    (h : hashFind (some t) k = some r) {g : Bucket ρ → Bucket ρ}
    (hg : ∀ b, (g b).hhChain = b.hhChain.eraseP fun r => keyOf r = k) :
    Placed keyOf hash (t.buckets.modify (t.bkt k) g) ∧
      (records t.buckets : Multiset ρ) = r ::ₘ ↑(records (t.buckets.modify (t.bkt k) g)) := by
  have hi : t.bkt k < t.buckets.length := t.bkt_lt k
  have hchain : chainAt t.buckets (t.bkt k) = t.buckets[t.bkt k].hhChain := by
    simp [chainAt, List.getElem?_eq_getElem hi]
  constructor
  · refine t.placed.modify keyOf hash hi fun r' hr' => ?_
    rw [hg, ← hchain] at hr'
    exact t.placed _ r' (List.mem_of_mem_eraseP hr')
  · obtain ⟨hk, as, bs, heq, has⟩ := Table.chain_split h
    obtain ⟨rest, hbs, hmod⟩ := records_modify t.buckets g hi
    rw [hmod, hbs, hg, ← hchain, heq, List.eraseP_append_right _ (by simpa using has),
      List.eraseP_cons_of_pos (by simpa using hk)]
    simp only [← Multiset.coe_add, ← Multiset.cons_coe, Multiset.add_cons, Multiset.cons_add]

/-- Unlink the record that `HASH_FIND` returns for a key that is there. -/
def Table.unlink (t : Table keyOf hash) (k : κ) (h : (hashFind (some t) k).isSome) :
    Table keyOf hash :=
  let g (b : Bucket ρ) : Bucket ρ :=
    { b with count := b.count - 1, hhChain := b.hhChain.eraseP fun r => keyOf r = k }
  have hrec := records_eraseP (Option.eq_some_of_isSome h) (g := g) fun _ => rfl
  { t with
    buckets := t.buckets.modify (t.bkt k) g
    numItems := t.numItems - 1
    nonempty := by simpa using t.nonempty
    placed := hrec.1
    counted := by
      have hlen := length_eq_of_coe_eq (hrec.2.trans (Multiset.cons_coe _ _))
      rw [t.counted, hlen, List.length_cons, Nat.add_sub_cancel] }

/-- `HASH_DELETE` of the record that `HASH_FIND` returned for `k`: the last
    record takes the table with it. -/
def hashDelete (head : Head keyOf hash) (k : κ) : Head keyOf hash :=
  match head with
  | none => none
  | some t =>
    if h : (hashFind (some t) k).isSome then
      if t.numItems = 1 then none else some (t.unlink k h)
    else some t

theorem bag_hashDelete {head : Head keyOf hash} {k : κ} {r : ρ} (h : hashFind head k = some r) :
    bag head = r ::ₘ bag (hashDelete head k) := by
  cases head with
  | none => exact absurd h (by simp [hashFind])
  | some t =>
    have hrec := (records_eraseP h (g := fun b : Bucket ρ =>
      { b with count := b.count - 1, hhChain := b.hhChain.eraseP fun r => keyOf r = k })
      fun _ => rfl).2
    have hsome : (hashFind (some t) k).isSome := by rw [h]; rfl
    simp only [hashDelete, hsome, dif_pos]
    split
    · rename_i hone
      have hcard := congrArg Multiset.card hrec
      rw [Multiset.coe_card, ← t.counted, hone, Multiset.card_cons] at hcard
      have hzero := Multiset.card_eq_zero.mp (Nat.succ.inj hcard).symm
      exact hrec.trans (by rw [hzero, bag_none])
    · exact hrec

/-! ### Writing through a found record -/

def updateFirst (p : ρ → Bool) (f : ρ → ρ) : List ρ → List ρ
  | [] => []
  | r :: rs => if p r then f r :: rs else r :: updateFirst p f rs

theorem updateFirst_append {p : ρ → Bool} {f : ρ → ρ} {as bs : List ρ} {r : ρ}
    (has : ∀ a ∈ as, ¬ p a = true) (hr : p r = true) :
    updateFirst p f (as ++ r :: bs) = as ++ f r :: bs := by
  induction as with
  | nil => simp [updateFirst, hr]
  | cons a as ih =>
    have ha : ¬ p a = true := has a (by simp)
    simp only [List.cons_append, updateFirst, ha]
    rw [ih fun a' ha' => has a' (by simp [ha'])]
    rfl

theorem records_updateFirst {t : Table keyOf hash} {k : κ} {r : ρ}
    (h : hashFind (some t) k = some r) {f : ρ → ρ} (hf : ∀ r, keyOf (f r) = keyOf r)
    {g : Bucket ρ → Bucket ρ}
    (hg : ∀ b, (g b).hhChain = updateFirst (fun r => keyOf r = k) f b.hhChain) :
    Placed keyOf hash (t.buckets.modify (t.bkt k) g) ∧
      ∃ rest : Multiset ρ, (records t.buckets : Multiset ρ) = r ::ₘ rest ∧
        (records (t.buckets.modify (t.bkt k) g) : Multiset ρ) = f r ::ₘ rest := by
  have hi : t.bkt k < t.buckets.length := t.bkt_lt k
  have hchain : chainAt t.buckets (t.bkt k) = t.buckets[t.bkt k].hhChain := by
    simp [chainAt, List.getElem?_eq_getElem hi]
  obtain ⟨hk, as, bs, heq, has⟩ := Table.chain_split h
  have hnew : (g t.buckets[t.bkt k]).hhChain = as ++ f r :: bs := by
    rw [hg, ← hchain, heq]
    exact updateFirst_append (by simpa using has) (by simpa using hk)
  constructor
  · refine t.placed.modify keyOf hash hi fun r' hr' => ?_
    rw [hnew] at hr'
    have hold : ∀ r' ∈ as ++ r :: bs, hashToBkt (hash (keyOf r')) t.buckets.length = t.bkt k :=
      fun r' hr' => t.placed _ r' (heq ▸ hr')
    rcases List.mem_append.mp hr' with hmem | hmem
    · exact hold r' (List.mem_append_left _ hmem)
    · rcases List.mem_cons.mp hmem with rfl | hmem
      · rw [hf]; exact hold r (by simp)
      · exact hold r' (by simp [hmem])
  · obtain ⟨rest, hbs, hmod⟩ := records_modify t.buckets g hi
    refine ⟨↑as + ↑bs + rest, ?_, ?_⟩
    · rw [hbs, heq]
      simp only [← Multiset.coe_add, ← Multiset.cons_coe, Multiset.add_cons, Multiset.cons_add]
    · rw [hmod, hnew]
      simp only [← Multiset.coe_add, ← Multiset.cons_coe, Multiset.add_cons, Multiset.cons_add]

/-- Assignments through the pointer that `HASH_FIND` returned for `k`; they
    leave the key alone. -/
def hashUpdate (head : Head keyOf hash) (k : κ) (f : ρ → ρ) (hf : ∀ r, keyOf (f r) = keyOf r) :
    Head keyOf hash :=
  match head with
  | none => none
  | some t =>
    if h : (hashFind (some t) k).isSome then
      let g (b : Bucket ρ) : Bucket ρ :=
        { b with hhChain := updateFirst (fun r => keyOf r = k) f b.hhChain }
      have hrec := records_updateFirst (Option.eq_some_of_isSome h) hf (g := g) fun _ => rfl
      some { t with
        buckets := t.buckets.modify (t.bkt k) g
        nonempty := by simpa using t.nonempty
        placed := hrec.1
        counted := by
          obtain ⟨rest, hold, hnew⟩ := hrec.2
          have hold := congrArg Multiset.card hold
          have hnew := congrArg Multiset.card hnew
          rw [Multiset.coe_card, Multiset.card_cons] at hold hnew
          rw [t.counted, hold, hnew] }
    else some t

theorem bag_hashUpdate {head : Head keyOf hash} {k : κ} {r : ρ} (h : hashFind head k = some r)
    (f : ρ → ρ) (hf : ∀ r, keyOf (f r) = keyOf r) :
    ∃ rest, bag head = r ::ₘ rest ∧ bag (hashUpdate head k f hf) = f r ::ₘ rest := by
  cases head with
  | none => exact absurd h (by simp [hashFind])
  | some t =>
    have hsome : (hashFind (some t) k).isSome := by rw [h]; rfl
    simp only [hashUpdate, hsome, dif_pos, bag]
    exact (records_updateFirst h hf fun _ => rfl).2

theorem hashUpdate_of_none {head : Head keyOf hash} {k : κ} (h : hashFind head k = none)
    (f : ρ → ρ) (hf : ∀ r, keyOf (f r) = keyOf r) : hashUpdate head k f hf = head := by
  cases head with
  | none => rfl
  | some t => simp [hashUpdate, h]

/-! ### Tables without equal keys

With at most one record per key a hash is a finite map: the macros then have
their usual equations, and `HASH_FIND` is determined by `bag`. -/

def UniqueKeys (head : Head keyOf hash) : Prop := ((bag head).map keyOf).Nodup

omit [DecidableEq κ] in
theorem uniqueKeys_none : UniqueKeys (none : Head keyOf hash) := by
  simp [UniqueKeys]

theorem hashFind_iff {head : Head keyOf hash} (hu : UniqueKeys head) {k : κ} {r : ρ} :
    hashFind head k = some r ↔ r ∈ bag head ∧ keyOf r = k := by
  constructor
  · exact hashFind_eq_some
  · rintro ⟨hr, hk⟩
    refine hashFind_of_forall_eq hr hk fun r' hr' hk' => ?_
    exact Multiset.inj_on_of_nodup_map hu r' hr' r hr (hk'.trans hk.symm)

theorem uniqueKeys_hashAdd {head : Head keyOf hash} {r : ρ} (hu : UniqueKeys head)
    (hnone : hashFind head (keyOf r) = none) : UniqueKeys (hashAdd head r) := by
  rw [UniqueKeys, bag_hashAdd, Multiset.map_cons, Multiset.nodup_cons]
  refine ⟨fun hmem => ?_, hu⟩
  obtain ⟨r', hr', hk⟩ := Multiset.mem_map.mp hmem
  exact hashFind_eq_none.mp hnone r' hr' hk

theorem hashFind_hashAdd {head : Head keyOf hash} {r : ρ} (hu : UniqueKeys head)
    (hnone : hashFind head (keyOf r) = none) (k : κ) :
    hashFind (hashAdd head r) k = if keyOf r = k then some r else hashFind head k := by
  have hu' := uniqueKeys_hashAdd hu hnone
  split
  · rename_i hk
    exact (hashFind_iff hu').mpr ⟨by simp, hk⟩
  · rename_i hk
    ext r'
    rw [hashFind_iff hu', hashFind_iff hu, bag_hashAdd, Multiset.mem_cons]
    constructor
    · rintro ⟨rfl | hr', hk'⟩
      · exact absurd hk' hk
      · exact ⟨hr', hk'⟩
    · rintro ⟨hr', hk'⟩
      exact ⟨Or.inr hr', hk'⟩

theorem uniqueKeys_hashUpdate {head : Head keyOf hash} (hu : UniqueKeys head) (k : κ) (f : ρ → ρ)
    (hf : ∀ r, keyOf (f r) = keyOf r) : UniqueKeys (hashUpdate head k f hf) := by
  cases h : hashFind head k with
  | none => rwa [hashUpdate_of_none h]
  | some r =>
    obtain ⟨rest, hold, hnew⟩ := bag_hashUpdate h f hf
    rw [UniqueKeys, hold, Multiset.map_cons] at hu
    rw [UniqueKeys, hnew, Multiset.map_cons, hf]
    exact hu

theorem hashFind_hashUpdate {head : Head keyOf hash} (hu : UniqueKeys head) {k : κ} {r : ρ}
    (h : hashFind head k = some r) (f : ρ → ρ) (hf : ∀ r, keyOf (f r) = keyOf r) (k' : κ) :
    hashFind (hashUpdate head k f hf) k' = if k = k' then some (f r) else hashFind head k' := by
  have hu' := uniqueKeys_hashUpdate hu k f hf
  obtain ⟨rest, hold, hnew⟩ := bag_hashUpdate h f hf
  have hk : keyOf r = k := (hashFind_eq_some h).2
  split
  · rename_i hkk
    exact (hashFind_iff hu').mpr ⟨by rw [hnew]; simp, by rw [hf, hk, hkk]⟩
  · rename_i hkk
    ext r'
    rw [hashFind_iff hu', hashFind_iff hu, hnew, hold, Multiset.mem_cons, Multiset.mem_cons]
    constructor
    · rintro ⟨rfl | hr', hk'⟩
      · exact absurd (hk.symm.trans ((hf r).symm.trans hk')) hkk
      · exact ⟨Or.inr hr', hk'⟩
    · rintro ⟨rfl | hr', hk'⟩
      · exact absurd (hk.symm.trans hk') hkk
      · exact ⟨Or.inr hr', hk'⟩

end Macros

end UTHash
