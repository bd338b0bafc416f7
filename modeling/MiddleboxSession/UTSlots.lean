/-
  MiddleboxSession/UTSlots.lean
  =============================
  **Tables of slots.**

  A slot is a record together with the address of its element, so that two
  elements with equal contents can be told apart.  `hashDeleteOf` is
  `HASH_DELETE` of a given element, whichever its place in the chain of its
  key; for the element that `HASH_FIND` returns it is `hashDelete`.

  Forgetting the addresses (`Head.map`) commutes with every macro: what a table
  of slots does, the table of its records does.
-/
import MiddleboxSession.UTHash

namespace UTHash

variable {κ ρ ρ' : Type*} {keyOf : ρ → κ} {keyOf' : ρ' → κ} {hash : κ → BitVec 32}

theorem Table.ext_data {t t' : Table keyOf hash} (hbuckets : t.buckets = t'.buckets)
    (hlog : t.log2NumBuckets = t'.log2NumBuckets) (hitems : t.numItems = t'.numItems)
    (hideal : t.idealChainMaxlen = t'.idealChainMaxlen)
    (hnonideal : t.nonidealItems = t'.nonidealItems) (hineff : t.ineffExpands = t'.ineffExpands)
    (hnoexpand : t.noexpand = t'.noexpand) : t = t' := by
  obtain ⟨_, _, _, _, _, _, _, _, _, _⟩ := t
  obtain ⟨_, _, _, _, _, _, _, _, _, _⟩ := t'
  dsimp only at *
  subst hbuckets hlog hitems hideal hnonideal hineff hnoexpand
  rfl

/-! ### Deleting a given record -/

section Delete

variable [DecidableEq ρ]

theorem records_erase {t : Table keyOf hash} {r : ρ} (hr : r ∈ records t.buckets)
    {g : Bucket ρ → Bucket ρ} (hg : ∀ b, (g b).hhChain = b.hhChain.erase r) :
    Placed keyOf hash (t.buckets.modify (t.bkt (keyOf r)) g) ∧
      (records t.buckets : Multiset ρ) =
        r ::ₘ ↑(records (t.buckets.modify (t.bkt (keyOf r)) g)) := by
  have hi : t.bkt (keyOf r) < t.buckets.length := t.bkt_lt _
  have hchain : chainAt t.buckets (t.bkt (keyOf r)) = t.buckets[t.bkt (keyOf r)].hhChain := by
    simp [chainAt, List.getElem?_eq_getElem hi]
  have hmem : r ∈ chainAt t.buckets (t.bkt (keyOf r)) :=
    mem_chainAt_of_mem_records keyOf hash t.placed hr
  constructor
  · refine t.placed.modify keyOf hash hi fun r' hr' => ?_
    rw [hg, ← hchain] at hr'
    exact t.placed _ r' (List.mem_of_mem_erase hr')
  · obtain ⟨rest, hbs, hmod⟩ := records_modify t.buckets g hi
    rw [hmod, hbs, hg, ← hchain, ← Multiset.coe_erase, ← Multiset.cons_add,
      Multiset.cons_erase (Multiset.mem_coe.mpr hmem)]

def Table.unlinkOf (t : Table keyOf hash) (r : ρ) (h : r ∈ records t.buckets) :
    Table keyOf hash :=
  let g (b : Bucket ρ) : Bucket ρ :=
    { b with count := b.count - 1, hhChain := b.hhChain.erase r }
  have hrec := records_erase h (g := g) fun _ => rfl
  { t with
    buckets := t.buckets.modify (t.bkt (keyOf r)) g
    numItems := t.numItems - 1
    nonempty := by simpa using t.nonempty
    placed := hrec.1
    counted := by
      have hlen := length_eq_of_coe_eq (hrec.2.trans (Multiset.cons_coe _ _))
      rw [t.counted, hlen, List.length_cons, Nat.add_sub_cancel] }

/-- `HASH_DELETE` of the record `r`. -/
def hashDeleteOf (head : Head keyOf hash) (r : ρ) : Head keyOf hash :=
  match head with
  | none => none
  | some t =>
    if h : r ∈ records t.buckets then
      if t.numItems = 1 then none else some (t.unlinkOf r h)
    else some t

theorem bag_hashDeleteOf {head : Head keyOf hash} {r : ρ} (hr : r ∈ bag head) :
    bag head = r ::ₘ bag (hashDeleteOf head r) := by
  cases head with
  | none => exact absurd hr (Multiset.notMem_zero r)
  | some t =>
    have hmem : r ∈ records t.buckets := hr
    have hrec := (records_erase hmem (g := fun b : Bucket ρ =>
      { b with count := b.count - 1, hhChain := b.hhChain.erase r }) fun _ => rfl).2
    simp only [hashDeleteOf, hmem, dif_pos]
    split
    · rename_i hone
      have hcard := congrArg Multiset.card hrec
      rw [Multiset.coe_card, ← t.counted, hone, Multiset.card_cons] at hcard
      have hzero := Multiset.card_eq_zero.mp (Nat.succ.inj hcard).symm
      exact hrec.trans (by rw [hzero, bag_none])
    · exact hrec

/-- The record that `HASH_FIND` returns is the one that is deleted for its key. -/
theorem hashDeleteOf_find [DecidableEq κ] {head : Head keyOf hash} {k : κ} {r : ρ}
    (h : hashFind head k = some r) : hashDeleteOf head r = hashDelete head k := by
  cases head with
  | none => rfl
  | some t =>
    have hmem : r ∈ records t.buckets := (hashFind_eq_some h).1
    obtain ⟨hk, as, bs, hsplit, has⟩ := Table.chain_split h
    have hsome : (hashFind (some t) k).isSome := by
      rw [h]
      rfl
    have hi : t.bkt k < t.buckets.length := t.bkt_lt k
    have hchain : chainAt t.buckets (t.bkt k) = t.buckets[t.bkt k].hhChain := by
      simp [chainAt, List.getElem?_eq_getElem hi]
    have hras : r ∉ as := fun hr => has r hr hk
    -- the first record with the key is the first occurrence of `r`
    have herase : t.buckets[t.bkt k].hhChain.erase r =
        t.buckets[t.bkt k].hhChain.eraseP fun r' => keyOf r' = k := by
      rw [← hchain, hsplit, List.erase_append_right _ hras, List.erase_cons_head,
        List.eraseP_append_right _ (by simpa using has), List.eraseP_cons_of_pos (by simpa using hk)]
    simp only [hashDeleteOf, hmem, dif_pos, hashDelete, hsome]
    split
    · rfl
    · refine congrArg some (Table.ext_data ?_ rfl rfl rfl rfl rfl rfl)
      simp only [Table.unlinkOf, Table.unlink, hk]
      rw [List.modify_eq_take_cons_drop hi, List.modify_eq_take_cons_drop hi, herase]

omit [DecidableEq ρ] in
theorem hashDelete_of_none [DecidableEq κ] {head : Head keyOf hash} {k : κ}
    (h : hashFind head k = none) : hashDelete head k = head := by
  cases head with
  | none => rfl
  | some t => simp [hashDelete, h]

end Delete

/-! ### Forgetting what is not in the key -/

section Map

def Bucket.map (f : ρ → ρ') (b : Bucket ρ) : Bucket ρ' where
  hhChain := b.hhChain.map f
  count := b.count
  expandMult := b.expandMult

theorem records_map (f : ρ → ρ') (bs : List (Bucket ρ)) :
    records (bs.map (Bucket.map f)) = (records bs).map f := by
  simp only [records, List.flatMap_map, List.map_flatMap]
  rfl

theorem chainAt_map (f : ρ → ρ') (bs : List (Bucket ρ)) (i : Nat) :
    chainAt (bs.map (Bucket.map f)) i = (chainAt bs i).map f := by
  unfold chainAt
  rw [List.getElem?_map]
  cases bs[i]? <;> rfl

theorem map_modify {f : ρ → ρ'} {g : Bucket ρ → Bucket ρ} {g' : Bucket ρ' → Bucket ρ'}
    (bs : List (Bucket ρ)) (i : Nat)
    (hg : ∀ b ∈ bs[i]?, g' (b.map f) = (g b).map f) :
    (bs.map (Bucket.map f)).modify i g' = (bs.modify i g).map (Bucket.map f) := by
  ext1 j
  rw [List.getElem?_map, List.getElem?_modify, List.getElem?_modify, List.getElem?_map]
  by_cases hij : i = j
  · subst hij
    cases hb : bs[i]? with
    | none => rfl
    | some b => simp [hg b hb]
  · cases bs[j]? <;> simp [hij]

variable (f : ρ → ρ') (hf : ∀ r, keyOf' (f r) = keyOf r)

def Table.map (t : Table keyOf hash) : Table keyOf' hash where
  buckets := t.buckets.map (Bucket.map f)
  log2NumBuckets := t.log2NumBuckets
  numItems := t.numItems
  idealChainMaxlen := t.idealChainMaxlen
  nonidealItems := t.nonidealItems
  ineffExpands := t.ineffExpands
  noexpand := t.noexpand
  nonempty := by simpa using t.nonempty
  placed := by
    intro i r hr
    rw [chainAt_map] at hr
    obtain ⟨r₀, hr₀, rfl⟩ := List.mem_map.mp hr
    rw [List.length_map, hf]
    exact t.placed i r₀ hr₀
  counted := by rw [records_map, List.length_map, t.counted]

def Head.map (head : Head keyOf hash) : Head keyOf' hash := Option.map (Table.map f hf) head

theorem bag_map (head : Head keyOf hash) : bag (Head.map f hf head) = (bag head).map f := by
  cases head with
  | none => rfl
  | some t => exact congrArg _ (records_map f t.buckets)

theorem Table.bkt_map (t : Table keyOf hash) (k : κ) : (t.map f hf).bkt k = t.bkt k := by
  rw [Table.bkt, Table.bkt, Table.map, List.length_map]

theorem hashFind_map [DecidableEq κ] (head : Head keyOf hash) (k : κ) :
    hashFind (Head.map f hf head) k = (hashFind head k).map f := by
  cases head with
  | none => rfl
  | some t =>
    simp only [Head.map, Option.map_some, hashFind, Table.bkt_map]
    rw [Table.map, chainAt_map, List.find?_map]
    simp only [Function.comp_def, hf]

theorem Table.push_map (t : Table keyOf hash) (r : ρ) :
    (t.map f hf).push (f r) = (t.push r).map f hf := by
  refine Table.ext_data ?_ rfl rfl rfl rfl rfl rfl
  simp only [Table.push, Table.bkt_map, hf]
  exact map_modify t.buckets _ fun b _ => rfl

include hf in
theorem rehash_map (ideal : Nat) (acc : List (Bucket ρ) × Nat) (r : ρ) :
    rehash keyOf' hash ideal (acc.1.map (Bucket.map f), acc.2) (f r) =
      ((rehash keyOf hash ideal acc r).1.map (Bucket.map f), (rehash keyOf hash ideal acc r).2) := by
  simp only [rehash, hf, List.length_map, List.getElem?_map]
  refine Prod.ext ?_ ?_
  · refine map_modify acc.1 _ fun b _ => ?_
    simp only [Bucket.rehashed, Bucket.addToBkt, Bucket.map]
    by_cases hcount : b.count + 1 > ideal
    · simp only [hcount, if_true, List.map_cons]
    · simp only [hcount, if_false, List.map_cons]
  · cases acc.1[hashToBkt (hash (keyOf r)) acc.1.length]? <;> rfl

include hf in
theorem foldl_rehash_map (ideal : Nat) (rs : List ρ) (acc : List (Bucket ρ) × Nat) :
    (rs.map f).foldl (rehash keyOf' hash ideal) (acc.1.map (Bucket.map f), acc.2) =
      ((rs.foldl (rehash keyOf hash ideal) acc).1.map (Bucket.map f),
        (rs.foldl (rehash keyOf hash ideal) acc).2) := by
  induction rs generalizing acc with
  | nil => rfl
  | cons r rs ih => rw [List.map_cons, List.foldl_cons, List.foldl_cons, rehash_map f hf, ih]

theorem map_emptyBuckets (n : Nat) :
    (emptyBuckets ρ n).map (Bucket.map f) = emptyBuckets ρ' n := by
  rw [emptyBuckets, emptyBuckets, List.map_replicate]
  rfl

theorem hashExpandBuckets_map (t : Table keyOf hash) :
    hashExpandBuckets (t.map f hf) = (hashExpandBuckets t).map f hf := by
  have hfold := fun ideal => @foldl_rehash_map _ _ _ keyOf keyOf' hash f hf ideal
    (records t.buckets) (emptyBuckets ρ (2 * t.buckets.length), 0)
  simp only [map_emptyBuckets] at hfold
  have hlen : (t.buckets.map (Bucket.map f)).length = t.buckets.length := List.length_map _
  refine Table.ext_data ?_ rfl rfl ?_ ?_ ?_ ?_ <;>
    simp only [hashExpandBuckets, Table.map, records_map, hlen, hfold]

theorem hashMakeTable_map : (hashMakeTable keyOf hash).map f hf = hashMakeTable keyOf' hash :=
  Table.ext_data (map_emptyBuckets f _) rfl rfl rfl rfl rfl rfl

theorem full_map (t : Table keyOf hash) (k : κ) :
    (t.map f hf).buckets[(t.map f hf).bkt k]?.any Bucket.full =
      t.buckets[t.bkt k]?.any Bucket.full := by
  rw [Table.bkt_map, Table.map, List.getElem?_map]
  cases t.buckets[t.bkt k]? <;> rfl

theorem hashAdd_map (head : Head keyOf hash) (r : ρ) :
    hashAdd (Head.map f hf head) (f r) = Head.map f hf (hashAdd head r) := by
  have hbase : (Head.map f hf head).getD (hashMakeTable keyOf' hash) =
      (head.getD (hashMakeTable keyOf hash)).map f hf := by
    cases head with
    | none => exact (hashMakeTable_map f hf).symm
    | some t => rfl
  unfold hashAdd
  dsimp only
  rw [hbase, Table.push_map, hf, full_map]
  have hnoexpand : ∀ t : Table keyOf hash, (t.map f hf).noexpand = t.noexpand := fun _ => rfl
  rw [hnoexpand, hashExpandBuckets_map, apply_ite (Head.map f hf)]
  rfl

theorem hashDelete_map [DecidableEq κ] (head : Head keyOf hash) (k : κ) :
    hashDelete (Head.map f hf head) k = Head.map f hf (hashDelete head k) := by
  cases head with
  | none => rfl
  | some t =>
    have hfind := hashFind_map f hf (some t) k
    simp only [Head.map, Option.map_some] at hfind ⊢
    by_cases hsome : (hashFind (some t) k).isSome
    · have hsome' : (hashFind (some (t.map f hf)) k).isSome := by
        rw [hfind, Option.isSome_map]
        exact hsome
      have hitems : (t.map f hf).numItems = t.numItems := rfl
      simp only [hashDelete, hsome, hsome', dif_pos, hitems]
      split
      · rfl
      · refine congrArg some (Table.ext_data ?_ rfl rfl rfl rfl rfl rfl)
        simp only [Table.unlink, Table.bkt_map]
        refine map_modify t.buckets _ fun b _ => ?_
        simp only [Bucket.map, List.eraseP_map, Function.comp_def, hf]
    · have hsome' : ¬ (hashFind (some (t.map f hf)) k).isSome := by
        rw [hfind, Option.isSome_map]
        exact hsome
      simp only [hashDelete, hsome, hsome']
      rfl

theorem updateFirst_map {p : ρ → Bool} {p' : ρ' → Bool} {g : ρ → ρ} {g' : ρ' → ρ'}
    (hp : ∀ r, p' (f r) = p r) (hg : ∀ r, g' (f r) = f (g r)) (rs : List ρ) :
    updateFirst p' g' (rs.map f) = (updateFirst p g rs).map f := by
  induction rs with
  | nil => rfl
  | cons r rs ih =>
    simp only [List.map_cons, updateFirst, hp]
    split
    · rw [List.map_cons, hg]
    · rw [List.map_cons, ih]

theorem hashUpdate_map [DecidableEq κ] (head : Head keyOf hash) (k : κ) {g : ρ → ρ} {g' : ρ' → ρ'}
    (hk : ∀ r, keyOf (g r) = keyOf r) (hk' : ∀ r, keyOf' (g' r) = keyOf' r)
    (hg : ∀ r, g' (f r) = f (g r)) :
    hashUpdate (Head.map f hf head) k g' hk' = Head.map f hf (hashUpdate head k g hk) := by
  cases head with
  | none => rfl
  | some t =>
    have hfind := hashFind_map f hf (some t) k
    simp only [Head.map, Option.map_some] at hfind ⊢
    by_cases hsome : (hashFind (some t) k).isSome
    · have hsome' : (hashFind (some (t.map f hf)) k).isSome := by
        rw [hfind, Option.isSome_map]
        exact hsome
      simp only [hashUpdate, hsome, hsome', dif_pos]
      refine congrArg some (Table.ext_data ?_ rfl rfl rfl rfl rfl rfl)
      simp only [Table.bkt_map]
      refine map_modify t.buckets _ fun b _ => ?_
      simp only [Bucket.map]
      rw [updateFirst_map f (p := fun r => decide (keyOf r = k)) (fun r => by rw [hf]) hg]
    · have hsome' : ¬ (hashFind (some (t.map f hf)) k).isSome := by
        rw [hfind, Option.isSome_map]
        exact hsome
      simp only [hashUpdate, hsome, hsome']
      rfl

end Map

end UTHash
