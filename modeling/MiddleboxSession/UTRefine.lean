/-
  MiddleboxSession/UTRefine.lean
  ==============================
  **The macros on memory refine the table.**

  `HashOf m head order h` says that the memory `m` holds the table of slots `h`:
  each bucket is a list of handles linked both ways, each element knows its
  table and its hash value, and the list in the order of insertion, which
  starts at the head pointer, is `order`.

  Under it every macro has a result, and the result is that of the macro of the
  same name on the table of slots.
-/
import MiddleboxSession.Links
import MiddleboxSession.UTMemory

namespace UTHash

/-- An element of a table: where it is, and its record. -/
@[ext] structure Slot (ι ρ : Type) where
  addr : ι
  record : ρ
deriving DecidableEq

def Memory.app {ι ρ : Type} (m : Memory ι ρ) : Links.Fields ι :=
  ⟨fun a => (m.elmt a).hh.prev, fun a => (m.elmt a).hh.next⟩

def Memory.bkt {ι ρ : Type} (m : Memory ι ρ) : Links.Fields ι :=
  ⟨fun a => (m.elmt a).hh.hhPrev, fun a => (m.elmt a).hh.hhNext⟩

section Represent

variable {ι κ ρ : Type} {keyOf : ρ → κ} {hash : κ → BitVec 32}

def slotKey (keyOf : ρ → κ) (s : Slot ι ρ) : κ := keyOf s.record

theorem keyOf_record (s : Slot ι ρ) : keyOf s.record = slotKey keyOf s := rfl

/-- An assignment to the record of a slot that leaves the key alone. -/
theorem slotKey_update {f : ρ → ρ} (hf : ∀ r, keyOf (f r) = keyOf r) (s : Slot ι ρ) :
    slotKey keyOf { s with record := f s.record } = slotKey keyOf s := hf s.record

abbrev SlotTable (ι : Type) (keyOf : ρ → κ) (hash : κ → BitVec 32) :=
  Table (slotKey keyOf : Slot ι ρ → κ) hash

abbrev SlotHead (ι : Type) (keyOf : ρ → κ) (hash : κ → BitVec 32) :=
  Head (slotKey keyOf : Slot ι ρ → κ) hash

def addrs (ss : List (Slot ι ρ)) : List ι := ss.map Slot.addr

@[simp] theorem addrs_cons (s : Slot ι ρ) (ss : List (Slot ι ρ)) :
    addrs (s :: ss) = s.addr :: addrs ss := rfl

theorem mem_addrs {s : Slot ι ρ} {ss : List (Slot ι ρ)} (h : s ∈ ss) : s.addr ∈ addrs ss :=
  List.mem_map_of_mem h

/-- The element of the slot `s`. -/
structure Holds (keyOf : ρ → κ) (hash : κ → BitVec 32) (m : Memory ι ρ) (s : Slot ι ρ) :
    Prop where
  live : s.addr ∈ m.live
  record : (m.elmt s.addr).record = s.record
  hashv : (m.elmt s.addr).hh.hashv = hash (keyOf s.record)

structure BucketOf (m : Memory ι ρ) (b : BucketMem ι) (b' : Bucket (Slot ι ρ)) : Prop where
  chain : Links.Chain m.bkt b.hhHead (addrs b'.hhChain)
  count : b.count = b'.count
  length : b'.count = b'.hhChain.length
  expandMult : b.expandMult = b'.expandMult

structure BucketsOf (keyOf : ρ → κ) (hash : κ → BitVec 32) (m : Memory ι ρ)
    (bs : List (BucketMem ι)) (bs' : List (Bucket (Slot ι ρ))) : Prop where
  length : bs.length = bs'.length
  bucket : ∀ (j : Nat) b b', bs[j]? = some b → bs'[j]? = some b' → BucketOf m b b'
  holds : ∀ s ∈ records bs', Holds keyOf hash m s

/-- The list in the order of insertion. -/
structure AppOf (m : Memory ι ρ) (head tail : Option ι) (order : List ι) : Prop where
  chain : Links.Chain m.app head order
  tail : tail = order.getLast?
  nodup : order.Nodup
  live : ∀ a ∈ order, a ∈ m.live

/-- The table `tm` in memory and the table of slots `t`. -/
structure TableOf (m : Memory ι ρ) (tm : TableMem ι) (t : SlotTable ι keyOf hash) :
    Prop where
  buckets : BucketsOf keyOf hash m tm.buckets t.buckets
  log2NumBuckets : tm.log2NumBuckets = t.log2NumBuckets
  numItems : tm.numItems = t.numItems
  idealChainMaxlen : tm.idealChainMaxlen = t.idealChainMaxlen
  nonidealItems : tm.nonidealItems = t.nonidealItems
  ineffExpands : tm.ineffExpands = t.ineffExpands
  noexpand : tm.noexpand = t.noexpand
  pow : t.buckets.length = 2 ^ t.log2NumBuckets

/-- The hash with the table `tm`, the only one in memory. -/
structure FullOf (m : Memory ι ρ) (i : Nat) (tm : TableMem ι) (head : Option ι) (order : List ι)
    (t : SlotTable ι keyOf hash) : Prop where
  mem : m.table i = some tm
  only : ∀ j, j ≠ i → m.table j = none
  tbl : ∀ a ∈ order, (m.elmt a).hh.tbl = some i
  table : TableOf m tm t
  app : AppOf m head tm.tail order
  order : (order : Multiset ι) = ↑(addrs (records t.buckets))

def HashOf (m : Memory ι ρ) (head : Option ι) (order : List ι) :
    SlotHead ι keyOf hash → Prop
  | none => head = none ∧ order = [] ∧ ∀ j, m.table j = none
  | some t => order ≠ [] ∧ ∃ i tm, FullOf m i tm head order t

/-! ### What each part depends on -/

variable {m m' : Memory ι ρ} {head tail : Option ι} {order : List ι}

theorem Holds.congr {s : Slot ι ρ} (h : Holds keyOf hash m s) (hlive : s.addr ∈ m'.live)
    (hrecord : (m'.elmt s.addr).record = (m.elmt s.addr).record)
    (hhashv : (m'.elmt s.addr).hh.hashv = (m.elmt s.addr).hh.hashv) : Holds keyOf hash m' s :=
  ⟨hlive, hrecord.trans h.record, hhashv.trans h.hashv⟩

theorem BucketOf.congr {b : BucketMem ι} {b' : Bucket (Slot ι ρ)} (h : BucketOf m b b')
    (hprev : ∀ s ∈ b'.hhChain, m'.bkt.prev s.addr = m.bkt.prev s.addr)
    (hnext : ∀ s ∈ b'.hhChain, m'.bkt.next s.addr = m.bkt.next s.addr) : BucketOf m' b b' := by
  refine ⟨h.chain.congr (fun a ha => ?_) (fun a ha => ?_), h.count, h.length, h.expandMult⟩
  · obtain ⟨s, hs, rfl⟩ := List.mem_map.mp ha
    exact hprev s hs
  · obtain ⟨s, hs, rfl⟩ := List.mem_map.mp ha
    exact hnext s hs

theorem BucketsOf.congr {bs : List (BucketMem ι)} {bs' : List (Bucket (Slot ι ρ))}
    (h : BucketsOf keyOf hash m bs bs')
    (hlive : ∀ a ∈ addrs (records bs'), a ∈ m.live → a ∈ m'.live)
    (hrecord : ∀ a ∈ addrs (records bs'), (m'.elmt a).record = (m.elmt a).record)
    (hhashv : ∀ a ∈ addrs (records bs'), (m'.elmt a).hh.hashv = (m.elmt a).hh.hashv)
    (hprev : ∀ a ∈ addrs (records bs'), m'.bkt.prev a = m.bkt.prev a)
    (hnext : ∀ a ∈ addrs (records bs'), m'.bkt.next a = m.bkt.next a) :
    BucketsOf keyOf hash m' bs bs' := by
  refine ⟨h.length, fun j b b' hb hb' => ?_, fun s hs => ?_⟩
  · have hmem : ∀ s ∈ b'.hhChain, s.addr ∈ addrs (records bs') := fun s hs =>
      mem_addrs (List.mem_flatMap.mpr ⟨b', List.mem_of_getElem? hb', hs⟩)
    exact (h.bucket j b b' hb hb').congr (fun s hs => hprev _ (hmem s hs))
      fun s hs => hnext _ (hmem s hs)
  · have ha := mem_addrs hs
    exact (h.holds s hs).congr (hlive _ ha (h.holds s hs).live) (hrecord _ ha) (hhashv _ ha)

theorem TableOf.congr {tm tm' : TableMem ι} {t : SlotTable ι keyOf hash}
    (h : TableOf m tm t) (tail : Option ι) (htm : tm' = { tm with tail := tail })
    (hlive : ∀ a ∈ addrs (records t.buckets), a ∈ m.live → a ∈ m'.live)
    (hrecord : ∀ a ∈ addrs (records t.buckets), (m'.elmt a).record = (m.elmt a).record)
    (hhashv : ∀ a ∈ addrs (records t.buckets), (m'.elmt a).hh.hashv = (m.elmt a).hh.hashv)
    (hprev : ∀ a ∈ addrs (records t.buckets), m'.bkt.prev a = m.bkt.prev a)
    (hnext : ∀ a ∈ addrs (records t.buckets), m'.bkt.next a = m.bkt.next a) :
    TableOf m' tm' t := by
  subst htm
  exact { h with buckets := h.buckets.congr hlive hrecord hhashv hprev hnext }

theorem AppOf.congr (h : AppOf m head tail order) (hlive : ∀ a ∈ order, a ∈ m'.live)
    (hprev : ∀ a ∈ order, m'.app.prev a = m.app.prev a)
    (hnext : ∀ a ∈ order, m'.app.next a = m.app.next a) : AppOf m' head tail order :=
  ⟨h.chain.congr hprev hnext, h.tail, h.nodup, hlive⟩

theorem FullOf.mem_order {i : Nat} {tm : TableMem ι} {t : SlotTable ι keyOf hash}
    (h : FullOf m i tm head order t) {a : ι} : a ∈ order ↔ a ∈ addrs (records t.buckets) := by
  rw [← Multiset.mem_coe, h.order, Multiset.mem_coe]

/-- A hash stays while its elements and its table do. -/
theorem HashOf.congr {hd : SlotHead ι keyOf hash} (h : HashOf m head order hd)
    (hlive : ∀ a ∈ order, a ∈ m'.live) (helmt : ∀ a ∈ order, m'.elmt a = m.elmt a)
    (htable : m'.table = m.table) : HashOf m' head order hd := by
  cases hd with
  | none => exact ⟨h.1, h.2.1, fun j => by rw [htable]; exact h.2.2 j⟩
  | some t =>
    obtain ⟨hne, i, tm, hfull⟩ := h
    have hord := fun {a} => hfull.mem_order (a := a)
    refine ⟨hne, i, tm, ?_, ?_, ?_, ?_, ?_, hfull.order⟩
    · rw [htable]
      exact hfull.mem
    · rw [htable]
      exact hfull.only
    · intro a ha
      rw [helmt a ha]
      exact hfull.tbl a ha
    · refine hfull.table.congr tm.tail rfl ?_ ?_ ?_ ?_ ?_
      · exact fun a ha _ => hlive a (hord.mpr ha)
      · exact fun a ha => by rw [helmt a (hord.mpr ha)]
      · exact fun a ha => by rw [helmt a (hord.mpr ha)]
      · exact fun a ha => by simp only [Memory.bkt, helmt a (hord.mpr ha)]
      · exact fun a ha => by simp only [Memory.bkt, helmt a (hord.mpr ha)]
    · refine hfull.app.congr hlive ?_ ?_
      · exact fun a ha => by simp only [Memory.app, helmt a ha]
      · exact fun a ha => by simp only [Memory.app, helmt a ha]

/-- The list in the order of insertion has every element of the hash once. -/
theorem HashOf.order_eq {hd : SlotHead ι keyOf hash} (h : HashOf m head order hd) :
    (order : Multiset ι) = (bag hd).map Slot.addr := by
  cases hd with
  | none =>
    rw [h.2.1]
    rfl
  | some t =>
    obtain ⟨-, i, tm, hfull⟩ := h
    exact hfull.order

theorem HashOf.app {hd : SlotHead ι keyOf hash} (h : HashOf m head order hd) :
    AppOf m head order.getLast? order := by
  cases hd with
  | none =>
    obtain ⟨rfl, rfl, -⟩ := h
    exact ⟨rfl, rfl, List.nodup_nil, fun a ha => absurd ha List.not_mem_nil⟩
  | some t =>
    obtain ⟨-, i, tm, hfull⟩ := h
    exact hfull.app.tail ▸ hfull.app

theorem HashOf.holds {hd : SlotHead ι keyOf hash} (h : HashOf m head order hd)
    {s : Slot ι ρ} (hs : s ∈ bag hd) : Holds keyOf hash m s := by
  cases hd with
  | none => exact absurd hs (Multiset.notMem_zero s)
  | some t =>
    obtain ⟨-, i, tm, hfull⟩ := h
    exact hfull.table.buckets.holds s hs

/-! ### Elements of a table -/

theorem BucketsOf.slot_eq {bs : List (BucketMem ι)} {bs' : List (Bucket (Slot ι ρ))}
    (h : BucketsOf keyOf hash m bs bs') {s s' : Slot ι ρ} (hs : s ∈ records bs')
    (hs' : s' ∈ records bs') (haddr : s.addr = s'.addr) : s = s' := by
  have hrecord : s.record = s'.record := by
    rw [← (h.holds s hs).record, ← (h.holds s' hs').record, haddr]
  exact Slot.ext haddr hrecord

/-- Two buckets have no element in common. -/
theorem BucketsOf.bucket_eq {bs : List (BucketMem ι)} {bs' : List (Bucket (Slot ι ρ))}
    (h : BucketsOf keyOf hash m bs bs') (hplaced : Placed (slotKey keyOf) hash bs') {j j' : Nat}
    {b b' : Bucket (Slot ι ρ)} (hb : bs'[j]? = some b) (hb' : bs'[j']? = some b')
    {s s' : Slot ι ρ} (hs : s ∈ b.hhChain) (hs' : s' ∈ b'.hhChain) (haddr : s.addr = s'.addr) :
    j = j' := by
  have hsj : s ∈ chainAt bs' j := by
    rw [chainAt, hb]
    exact hs
  have hsj' : s' ∈ chainAt bs' j' := by
    rw [chainAt, hb']
    exact hs'
  have heq := h.slot_eq (mem_records_of_mem_chainAt hsj) (mem_records_of_mem_chainAt hsj') haddr
  rw [← hplaced j s hsj, heq, hplaced j' s' hsj']

/-- Lists of allocated elements are no longer than what is allocated. -/
theorem length_le_live {as : List ι} (hnodup : as.Nodup) (hlive : ∀ a ∈ as, a ∈ m.live) :
    as.length ≤ m.live.length :=
  (hnodup.subperm hlive).length_le

theorem FullOf.head_mem {i : Nat} {tm : TableMem ι} {t : SlotTable ι keyOf hash}
    (h : FullOf m i tm head order t) (hne : order ≠ []) : ∃ a as, order = a :: as ∧ head = some a := by
  cases order with
  | nil => exact absurd rfl hne
  | cons a as => exact ⟨a, as, rfl, h.app.chain.1⟩

/-- A bucket in memory with its chain of slots. -/
theorem BucketsOf.get {bs : List (BucketMem ι)} {bs' : List (Bucket (Slot ι ρ))}
    (h : BucketsOf keyOf hash m bs bs') {j : Nat} (hj : j < bs'.length) :
    ∃ b b', bs[j]? = some b ∧ bs'[j]? = some b' ∧ BucketOf m b b' := by
  have hj' : j < bs.length := by rw [h.length]; exact hj
  exact ⟨bs[j], bs'[j], List.getElem?_eq_getElem hj', List.getElem?_eq_getElem hj,
    h.bucket j _ _ (List.getElem?_eq_getElem hj') (List.getElem?_eq_getElem hj)⟩

theorem FullOf.chain_le {i : Nat} {tm : TableMem ι} {t : SlotTable ι keyOf hash}
    (h : FullOf m i tm head order t) {j : Nat} {b : Bucket (Slot ι ρ)}
    (hb : t.buckets[j]? = some b) : b.hhChain.length ≤ m.live.length := by
  have hsub : b.hhChain.Sublist (records t.buckets) :=
    List.sublist_flatten_of_mem (List.mem_map_of_mem (List.mem_of_getElem? hb))
  have hnodup : (addrs (records t.buckets)).Nodup := by
    rw [← Multiset.coe_nodup, ← h.order]
    exact h.app.nodup
  have hle := length_le_live (m := m) (hnodup.sublist (hsub.map Slot.addr)) fun a ha =>
    h.app.live a (h.mem_order.mpr ((hsub.map Slot.addr).subset ha))
  simpa using hle

end Represent

/-! ### `HASH_FIND` -/

section Find

variable {ι κ ρ : Type} [DecidableEq ι] {keyOf : ρ → κ} {hash : κ → BitVec 32}
  {m : Memory ι ρ} {head : Option ι} {order : List ι}

theorem Memory.read_of_mem {a : ι} (h : a ∈ m.live) : m.read a = some (m.elmt a) := if_pos h

theorem FullOf.tblOf {i : Nat} {tm : TableMem ι} {t : SlotTable ι keyOf hash}
    (h : FullOf m i tm head order t) {a : ι} (ha : a ∈ order) : m.tblOf a = some (i, tm) := by
  simp only [Memory.tblOf, Memory.read_of_mem (h.app.live a ha), Option.bind_eq_bind,
    Option.bind_some, h.tbl a ha, h.mem]
  rfl

variable [DecidableEq κ]

theorem hashFindInBkt_spec (k : κ) (ss : List (Slot ι ρ)) {fuel : Nat} {p out : Option ι}
    (hfuel : ss.length ≤ fuel) (hseg : Links.Seg m.bkt p out (addrs ss) none)
    (hholds : ∀ s ∈ ss, Holds keyOf hash m s) :
    hashFindInBkt keyOf m k fuel out =
      some ((ss.find? fun s => slotKey keyOf s = k).map Slot.addr) := by
  induction ss generalizing fuel p out with
  | nil =>
    obtain rfl : out = none := hseg
    cases fuel <;> rfl
  | cons s ss ih =>
    obtain ⟨rfl, -, hrest⟩ := hseg
    have hs := hholds s List.mem_cons_self
    cases fuel with
    | zero => exact absurd hfuel (Nat.not_succ_le_zero _)
    | succ fuel =>
      rw [hashFindInBkt, Memory.read_of_mem hs.live]
      simp only [Option.bind_eq_bind, Option.bind_some, hs.record]
      by_cases hk : keyOf s.record = k
      · have hkey : decide (slotKey keyOf s = k) = true := decide_eq_true hk
        simp only [if_pos hk, List.find?_cons, hkey]
        rfl
      · have hkey : decide (slotKey keyOf s = k) = false := decide_eq_false hk
        simp only [if_neg hk, List.find?_cons, hkey]
        exact ih (Nat.le_of_succ_le_succ hfuel) hrest fun s' hs' =>
          hholds s' (List.mem_cons_of_mem _ hs')

/-- `HASH_FIND` returns the address of the slot that it finds in the table. -/
theorem HashOf.find {hd : SlotHead ι keyOf hash} (h : HashOf m head order hd) (k : κ) :
    memFind keyOf hash m head k = some ((hashFind hd k).map Slot.addr) := by
  cases hd with
  | none =>
    rw [h.1]
    rfl
  | some t =>
    obtain ⟨hne, i, tm, hfull⟩ := h
    obtain ⟨a, as, rfl, rfl⟩ := hfull.head_mem hne
    obtain ⟨b, b', hb, hb', hbucket⟩ := hfull.table.buckets.get (t.bkt_lt k)
    have hholds : ∀ s ∈ b'.hhChain, Holds keyOf hash m s := fun s hs =>
      hfull.table.buckets.holds s (List.mem_flatMap.mpr ⟨b', List.mem_of_getElem? hb', hs⟩)
    simp only [memFind, hfull.tblOf List.mem_cons_self, Option.bind_eq_bind, Option.bind_some,
      hfull.table.buckets.length]
    rw [show hashToBkt (hash k) t.buckets.length = t.bkt k from rfl, hb, Option.bind_some,
      hashFindInBkt_spec k b'.hhChain (hfull.chain_le hb') hbucket.chain hholds, hashFind, chainAt,
      hb']

end Find

/-! ### `HASH_FSCK` -/

section Fsck

variable {ι κ ρ : Type} [DecidableEq ι] {keyOf : ρ → κ} {hash : κ → BitVec 32}
  {m : Memory ι ρ} {head : Option ι} {order : List ι}

theorem fsckList_spec {back next : Handle ι → Option ι} (as : List ι) {fuel : Nat}
    {p thh : Option ι} (hfuel : as.length ≤ fuel)
    (hseg : Links.Seg ⟨fun a => back (m.elmt a).hh, fun a => next (m.elmt a).hh⟩ p thh as none)
    (hlive : ∀ a ∈ as, a ∈ m.live) : fsckList m back next fuel p thh = some as.length := by
  induction as generalizing fuel p thh with
  | nil =>
    obtain rfl : thh = none := hseg
    cases fuel <;> rfl
  | cons a as ih =>
    obtain ⟨rfl, hback, hrest⟩ := hseg
    cases fuel with
    | zero => exact absurd hfuel (Nat.not_succ_le_zero _)
    | succ fuel =>
      have hlist := ih (Nat.le_of_succ_le_succ hfuel) hrest fun b hb =>
        hlive b (List.mem_cons_of_mem _ hb)
      rw [fsckList, Memory.read_of_mem (hlive a List.mem_cons_self)]
      simp only [Option.bind_eq_bind, Option.bind_some]
      rw [if_pos hback, hlist]
      rfl

theorem fsckBuckets_spec (bs : List (BucketMem ι)) {bs' : List (Bucket (Slot ι ρ))}
    (h : BucketsOf keyOf hash m bs bs') (hle : ∀ b ∈ bs', b.hhChain.length ≤ m.live.length) :
    fsckBuckets m bs = some (records bs').length := by
  induction bs generalizing bs' with
  | nil =>
    obtain rfl : bs' = [] := List.eq_nil_of_length_eq_zero h.length.symm
    rfl
  | cons b bs ih =>
    cases bs' with
    | nil => exact absurd h.length (Nat.succ_ne_zero _)
    | cons b' bs' =>
      have hbucket := h.bucket 0 b b' rfl rfl
      have hrecords : records (b' :: bs') = b'.hhChain ++ records bs' := List.flatMap_cons
      have hrest : BucketsOf keyOf hash m bs bs' :=
        ⟨Nat.succ.inj h.length, fun j c c' hc hc' => h.bucket (j + 1) c c' hc hc',
          fun s hs => h.holds s (hrecords ▸ List.mem_append_right _ hs)⟩
      have hlist : fsckList m Handle.hhPrev Handle.hhNext m.live.length none b.hhHead =
          some (addrs b'.hhChain).length := by
        refine fsckList_spec _ (by simpa [addrs] using hle b' List.mem_cons_self) hbucket.chain ?_
        intro a ha
        obtain ⟨s, hs, rfl⟩ := List.mem_map.mp ha
        exact (h.holds s (hrecords ▸ List.mem_append_left _ hs)).live
      have hcount : b.count = (addrs b'.hhChain).length := by
        rw [hbucket.count, hbucket.length, addrs, List.length_map]
      simp only [fsckBuckets, hlist, Option.bind_eq_bind, Option.bind_some]
      rw [if_pos hcount, ih hrest fun c hc => hle c (List.mem_cons_of_mem _ hc), hrecords,
        List.length_append, addrs, List.length_map]
      rfl

omit [DecidableEq ι] in
theorem FullOf.length_order {i : Nat} {tm : TableMem ι} {t : SlotTable ι keyOf hash}
    (h : FullOf m i tm head order t) : order.length = t.numItems := by
  have hlen := congrArg Multiset.card h.order
  rw [t.counted]
  simpa [addrs] using hlen

/-- No check of `HASH_FSCK` fails. -/
theorem HashOf.fsck {hd : SlotHead ι keyOf hash} (h : HashOf m head order hd) :
    fsck m head = some () := by
  cases hd with
  | none =>
    rw [h.1]
    rfl
  | some t =>
    obtain ⟨hne, i, tm, hfull⟩ := h
    obtain ⟨a, as, rfl, rfl⟩ := hfull.head_mem hne
    have hbuckets := fsckBuckets_spec tm.buckets hfull.table.buckets fun b hb => by
      obtain ⟨j, hj⟩ := List.mem_iff_getElem?.mp hb
      exact hfull.chain_le hj
    have happ : fsckList m Handle.prev Handle.next m.live.length none (some a) =
        some (a :: as).length :=
      fsckList_spec _ (length_le_live hfull.app.nodup hfull.app.live) hfull.app.chain hfull.app.live
    have hitems : (records t.buckets).length = tm.numItems := by
      rw [hfull.table.numItems, t.counted]
    have hlen : (a :: as).length = tm.numItems := by
      rw [hfull.length_order, hfull.table.numItems]
    simp only [UTHash.fsck, hfull.tblOf List.mem_cons_self, hbuckets, happ, Option.bind_eq_bind,
      Option.bind_some]
    rw [if_pos ⟨hitems, hlen⟩]
    rfl

end Fsck

end UTHash
