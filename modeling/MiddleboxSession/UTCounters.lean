/-
  MiddleboxSession/UTCounters.lean
  ================================
  **The counters of uthash.**

  The counters of `uthash.h` are `unsigned`; those of UTHash.lean and of
  UTMemory.lean are natural numbers.  The two agree as long as nothing leaves its
  32 bits, and for that two numbers are enough, those of the buckets and of the
  items: a chain is not longer than the table, `expand_mult` is the length of a
  chain divided, and an expansion that was of no use is an expansion.

  This is about tables that records are added to, and that are emptied as a
  whole: `HASH_DELETE` makes a chain shorter and leaves its `expand_mult`.
-/
import MiddleboxSession.UTHeap

namespace UTHash

/-! ### The counters of a table -/

section Counters

variable {κ ρ : Type*} {keyOf : ρ → κ} {hash : κ → BitVec 32}

structure Bucket.Counts (b : Bucket ρ) : Prop where
  count : b.count = b.hhChain.length
  expandMult : b.expandMult ≤ b.count

structure Table.Counts (t : Table keyOf hash) : Prop where
  bucket : ∀ b ∈ t.buckets, b.Counts
  idealChainMaxlen : t.idealChainMaxlen ≤ t.numItems + 1
  nonidealItems : t.nonidealItems ≤ t.numItems
  ineffExpands : t.ineffExpands ≤ t.log2NumBuckets
  noexpand : t.noexpand ≤ 1

def Head.Counts (head : Head keyOf hash) : Prop := ∀ t ∈ head, t.Counts

/-- At most 2³¹ buckets, and fewer than 2²⁸ items. -/
def Head.Small (head : Head keyOf hash) : Prop :=
  ∀ t ∈ head, t.buckets.length ≤ 2 ^ 31 ∧ t.numItems < 2 ^ 28

instance (head : Head keyOf hash) : Decidable (Head.Small head) :=
  inferInstanceAs (Decidable (∀ t ∈ head, t.buckets.length ≤ 2 ^ 31 ∧ t.numItems < 2 ^ 28))

theorem Head.counts_none : Head.Counts (none : Head keyOf hash) := fun _ ht => by cases ht

theorem Table.Counts.count_le {t : Table keyOf hash} (h : t.Counts) {b : Bucket ρ}
    (hb : b ∈ t.buckets) : b.count ≤ t.numItems := by
  have hsub : b.hhChain.Sublist (records t.buckets) :=
    List.sublist_flatten_of_mem (List.mem_map_of_mem hb)
  rw [(h.bucket b hb).count, t.counted]
  exact hsub.length_le

/-! ### `HASH_ADD` -/

theorem Bucket.Counts.addToBkt {b : Bucket ρ} (h : b.Counts) (r : ρ) : (b.addToBkt r).Counts :=
  ⟨congrArg (· + 1) h.count, Nat.le_succ_of_le h.expandMult⟩

theorem Bucket.Counts.rehashed {b : Bucket ρ} (h : b.Counts) (ideal : Nat) (r : ρ) :
    (b.rehashed ideal r).Counts := by
  have hadd := h.addToBkt r
  unfold Bucket.rehashed
  dsimp only
  split
  · exact ⟨hadd.count, Nat.div_le_self _ _⟩
  · exact hadd

theorem counts_modify {bs : List (Bucket ρ)} (h : ∀ b ∈ bs, b.Counts) {g : Bucket ρ → Bucket ρ}
    (hg : ∀ b, b.Counts → (g b).Counts) (i : Nat) : ∀ b ∈ bs.modify i g, b.Counts := by
  intro b hb
  obtain ⟨j, hj⟩ := List.mem_iff_getElem?.mp hb
  rw [List.getElem?_modify] at hj
  obtain ⟨b₀, hb₀, rfl⟩ := Option.map_eq_some_iff.mp hj
  have hold := h b₀ (List.mem_of_getElem? hb₀)
  split
  · exact hg b₀ hold
  · exact hold

variable (keyOf hash) in
/-- The redistribution loop of `HASH_EXPAND_BUCKETS`. -/
theorem counts_rehash (ideal : Nat) (rs : List ρ) (acc : List (Bucket ρ) × Nat)
    (h : ∀ b ∈ acc.1, b.Counts) :
    (∀ b ∈ (rs.foldl (rehash keyOf hash ideal) acc).1, b.Counts) ∧
      (rs.foldl (rehash keyOf hash ideal) acc).2 ≤ acc.2 + rs.length := by
  induction rs generalizing acc with
  | nil => exact ⟨h, Nat.le_refl _⟩
  | cons r rs ih =>
    have hone : (rehash keyOf hash ideal acc r).2 ≤ acc.2 + 1 := by
      rw [rehash]
      split_ifs <;> omega
    obtain ⟨hbucket, hnonideal⟩ := ih (rehash keyOf hash ideal acc r)
      (counts_modify h (fun b hb => hb.rehashed ideal r) _)
    refine ⟨hbucket, hnonideal.trans ?_⟩
    rw [List.length_cons]
    omega

theorem counts_emptyBuckets (n : Nat) : ∀ b ∈ emptyBuckets ρ n, b.Counts := by
  intro b hb
  rw [List.eq_of_mem_replicate hb]
  exact ⟨rfl, Nat.le_refl 0⟩

theorem Table.counts_make : (hashMakeTable keyOf hash).Counts where
  bucket := counts_emptyBuckets _
  idealChainMaxlen := Nat.zero_le _
  nonidealItems := Nat.zero_le _
  ineffExpands := Nat.zero_le _
  noexpand := Nat.zero_le _

theorem Table.Counts.push {t : Table keyOf hash} (h : t.Counts) (r : ρ) : (t.push r).Counts where
  bucket := counts_modify h.bucket (fun _ hb => hb.addToBkt r) _
  idealChainMaxlen := Nat.le_succ_of_le h.idealChainMaxlen
  nonidealItems := Nat.le_succ_of_le h.nonidealItems
  ineffExpands := h.ineffExpands
  noexpand := h.noexpand

theorem Table.Counts.expand {t : Table keyOf hash} (h : t.Counts) :
    (hashExpandBuckets t).Counts := by
  obtain ⟨hbucket, hnonideal⟩ := counts_rehash keyOf hash
    ((t.numItems >>> (t.log2NumBuckets + 1)) +
      if t.numItems &&& (2 * t.buckets.length - 1) = 0 then 0 else 1)
    (records t.buckets) (emptyBuckets ρ (2 * t.buckets.length), 0) (counts_emptyBuckets _)
  refine ⟨hbucket, ?_, ?_, ?_, ?_⟩
  · have hshift := Nat.shiftRight_le t.numItems (t.log2NumBuckets + 1)
    dsimp only [hashExpandBuckets]
    split <;> omega
  · rw [Nat.zero_add, ← t.counted] at hnonideal
    exact hnonideal
  · have hle : ∀ p : Prop, [Decidable p] →
        (if p then t.ineffExpands + 1 else 0) ≤ t.log2NumBuckets + 1 := by
      intro p _
      have hold := h.ineffExpands
      split <;> omega
    exact hle _
  · have hle : ∀ p : Prop, [Decidable p] → (if p then 1 else t.noexpand) ≤ 1 := by
      intro p _
      have hold := h.noexpand
      split <;> omega
    exact hle _

theorem Head.Counts.hashAdd {head : Head keyOf hash} (h : Head.Counts head) (r : ρ) :
    Head.Counts (hashAdd head r) := by
  have hbase : (head.getD (hashMakeTable keyOf hash)).Counts := by
    cases head with
    | none => exact Table.counts_make
    | some t => exact h t rfl
  intro t ht
  unfold UTHash.hashAdd at ht
  dsimp only at ht
  split at ht <;> cases ht
  · exact (hbase.push r).expand
  · exact hbase.push r

theorem length_updateFirst (p : ρ → Bool) (f : ρ → ρ) (rs : List ρ) :
    (updateFirst p f rs).length = rs.length := by
  induction rs with
  | nil => rfl
  | cons r rs ih =>
    rw [updateFirst]
    split
    · rfl
    · exact congrArg (· + 1) ih

theorem Head.Counts.hashUpdate [DecidableEq κ] {head : Head keyOf hash} (h : Head.Counts head)
    (k : κ) {f : ρ → ρ} (hf : ∀ r, keyOf (f r) = keyOf r) :
    Head.Counts (hashUpdate head k f hf) := by
  cases head with
  | none => exact Head.counts_none
  | some t =>
    have ht := h t rfl
    intro t' ht'
    unfold UTHash.hashUpdate at ht'
    dsimp only at ht'
    split at ht' <;> cases ht'
    · have hbucket : ∀ b : Bucket ρ, b.Counts →
          Bucket.Counts { b with hhChain := updateFirst (fun r => keyOf r = k) f b.hhChain } :=
        fun b hb => ⟨hb.count.trans (length_updateFirst _ f _).symm, hb.expandMult⟩
      exact ⟨counts_modify ht.bucket hbucket _, ht.idealChainMaxlen, ht.nonidealItems,
        ht.ineffExpands, ht.noexpand⟩
    · exact ht

end Counters

/-! ### The counters in memory -/

section Memory

variable {ι κ ρ : Type} {keyOf : ρ → κ} {hash : κ → BitVec 32}

/-- The counters of a table, and the limit that `HASH_ADD_TO_BKT` computes for a
    chain, are `unsigned` numbers; `log2_num_buckets` is a shift of one. -/
structure TableMem.Unsigned (t : TableMem ι) : Prop where
  numBuckets : t.buckets.length < 2 ^ 32
  log2NumBuckets : t.log2NumBuckets < 32
  numItems : t.numItems < 2 ^ 32
  idealChainMaxlen : t.idealChainMaxlen < 2 ^ 32
  nonidealItems : t.nonidealItems < 2 ^ 32
  ineffExpands : t.ineffExpands < 2 ^ 32
  noexpand : t.noexpand < 2 ^ 32
  count : ∀ b ∈ t.buckets, b.count < 2 ^ 32
  limit : ∀ b ∈ t.buckets, (b.expandMult + 1) * HASH_BKT_CAPACITY_THRESH < 2 ^ 32

namespace HashMem

def Unsigned (h : HashMem ι ρ) : Prop := ∀ i, ∀ t ∈ h.mem.table i, t.Unsigned

/-- At most 2³¹ buckets, and fewer than 2²⁸ items. -/
def Small (h : HashMem ι ρ) : Prop :=
  ∀ i, ∀ t ∈ h.mem.table i, t.buckets.length ≤ 2 ^ 31 ∧ t.numItems < 2 ^ 28

/-- The table that is in memory. -/
theorem Refines.tableOf {h : HashMem ι ρ} {t : Head keyOf hash} (hr : h.Refines t) {i : Nat}
    {tm : TableMem ι} (htm : tm ∈ h.mem.table i) : ∃ st : SlotTable ι keyOf hash,
      TableOf h.mem tm st ∧ st.map Slot.record keyOf_record ∈ t := by
  obtain ⟨hd, ⟨order, hof, -⟩, rfl⟩ := hr
  cases hd with
  | none =>
    obtain ⟨-, -, hnone⟩ := hof
    rw [hnone] at htm
    cases htm
  | some st =>
    obtain ⟨-, j, tm', hfull⟩ := hof
    have hij : i = j := by
      by_contra hij
      rw [hfull.only i hij] at htm
      cases htm
    subst hij
    obtain rfl : tm' = tm := Option.some.inj (hfull.mem.symm.trans htm)
    exact ⟨st, hfull.table, rfl⟩

theorem Refines.small {h : HashMem ι ρ} {t : Head keyOf hash} (hr : h.Refines t)
    (hsmall : Head.Small t) : h.Small := by
  intro i tm htm
  obtain ⟨st, htable, hmem⟩ := hr.tableOf htm
  obtain ⟨hbuckets, hitems⟩ := hsmall _ hmem
  rw [htable.buckets.length, htable.numItems]
  refine ⟨?_, hitems⟩
  rw [Table.map, List.length_map] at hbuckets
  exact hbuckets

/-- **No counter wraps** while the table is small. -/
theorem Refines.unsigned {h : HashMem ι ρ} {t : Head keyOf hash} (hr : h.Refines t)
    (hcounts : Head.Counts t) (hsmall : h.Small) : h.Unsigned := by
  intro i tm htm
  obtain ⟨hbuckets, hitems⟩ := hsmall i tm htm
  obtain ⟨st, htable, hmem⟩ := hr.tableOf htm
  have hc : (st.map Slot.record keyOf_record).Counts := hcounts _ hmem
  have hnum : tm.numItems = (st.map Slot.record keyOf_record).numItems := htable.numItems
  -- a bucket in memory has the counters of one of the table
  have hbucket : ∀ b ∈ tm.buckets, b.count ≤ tm.numItems ∧ b.expandMult ≤ tm.numItems := by
    intro b hb
    obtain ⟨k, hk⟩ := List.mem_iff_getElem?.mp hb
    have hlt : k < st.buckets.length := by
      rw [← htable.buckets.length]
      exact (List.getElem?_eq_some_iff.mp hk).1
    obtain ⟨b₁, b', hb₁, hb', hof⟩ := htable.buckets.get hlt
    obtain rfl : b = b₁ := Option.some.inj (hk.symm.trans hb₁)
    have hmap : b'.map Slot.record ∈ (st.map Slot.record keyOf_record).buckets :=
      List.mem_map_of_mem (List.mem_of_getElem? hb')
    have hle := hc.count_le hmap
    have hmult := (hc.bucket _ hmap).expandMult
    rw [hof.count, hof.expandMult, hnum]
    exact ⟨hle, hmult.trans hle⟩
  have hlog : tm.log2NumBuckets ≤ 31 := by
    rw [htable.buckets.length, htable.pow] at hbuckets
    exact htable.log2NumBuckets.trans_le ((Nat.pow_le_pow_iff_right (by decide)).mp hbuckets)
  have hideal : tm.idealChainMaxlen ≤ tm.numItems + 1 := by
    rw [htable.idealChainMaxlen, hnum]
    exact hc.idealChainMaxlen
  have hnonideal : tm.nonidealItems ≤ tm.numItems := by
    rw [htable.nonidealItems, hnum]
    exact hc.nonidealItems
  have hineff : tm.ineffExpands ≤ tm.log2NumBuckets := by
    rw [htable.ineffExpands, htable.log2NumBuckets]
    exact hc.ineffExpands
  have hnoexpand : tm.noexpand ≤ 1 := by
    rw [htable.noexpand]
    exact hc.noexpand
  refine ⟨by omega, by omega, by omega, by omega, by omega, by omega, by omega, ?_, ?_⟩
  · intro b hb
    obtain ⟨hcount, -⟩ := hbucket b hb
    omega
  · intro b hb
    obtain ⟨-, hmult⟩ := hbucket b hb
    rw [HASH_BKT_CAPACITY_THRESH]
    omega

end HashMem

end Memory

end UTHash
