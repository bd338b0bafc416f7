/-
  MiddleboxSession/UTInsert.lean
  ==============================
  **`HASH_ADD` on memory**, with `HASH_MAKE_TABLE` and `HASH_EXPAND_BUCKETS`.

  The redistribution loop reads the next handle of the old chain before it links
  the present one into its new bucket.  Its invariant: the new buckets hold what
  `rehash` makes of the elements that were moved, the elements of the rest are
  still linked among themselves, and no element is in both.
-/
import MiddleboxSession.UTRefine

namespace UTHash

section Insert

variable {ι κ ρ : Type} {keyOf : ρ → κ} {hash : κ → BitVec 32} {m m' : Memory ι ρ}

/-! ### Bucket links -/

/-- `m'` is `m` but for the bucket links of the elements `as`. -/
structure Relinked (as : List ι) (m m' : Memory ι ρ) : Prop where
  live : m'.live = m.live
  made : m'.made = m.made
  table : m'.table = m.table
  record : ∀ a, (m'.elmt a).record = (m.elmt a).record
  hashv : ∀ a, (m'.elmt a).hh.hashv = (m.elmt a).hh.hashv
  tbl : ∀ a, (m'.elmt a).hh.tbl = (m.elmt a).hh.tbl
  app : m'.app = m.app
  same : ∀ a, a ∉ as → m'.elmt a = m.elmt a

namespace Relinked

theorem refl (as : List ι) (m : Memory ι ρ) : Relinked as m m :=
  ⟨rfl, rfl, rfl, fun _ => rfl, fun _ => rfl, fun _ => rfl, rfl, fun _ _ => rfl⟩

theorem trans {as : List ι} {m'' : Memory ι ρ} (h : Relinked as m m') (h' : Relinked as m' m'') :
    Relinked as m m'' where
  live := h'.live.trans h.live
  made := h'.made.trans h.made
  table := h'.table.trans h.table
  record a := (h'.record a).trans (h.record a)
  hashv a := (h'.hashv a).trans (h.hashv a)
  tbl a := (h'.tbl a).trans (h.tbl a)
  app := h'.app.trans h.app
  same a ha := (h'.same a ha).trans (h.same a ha)

theorem mono {as as' : List ι} (h : Relinked as m m') (hsub : ∀ a ∈ as, a ∈ as') :
    Relinked as' m m' :=
  { h with same := fun a ha => h.same a fun hmem => ha (hsub a hmem) }

theorem holds {as : List ι} (h : Relinked as m m') {s : Slot ι ρ} (hs : Holds keyOf hash m s) :
    Holds keyOf hash m' s :=
  hs.congr (h.live ▸ hs.live) (h.record _) (h.hashv _)

theorem prev {as : List ι} (h : Relinked as m m') {a : ι} (ha : a ∉ as) :
    m'.bkt.prev a = m.bkt.prev a := by
  simp only [Memory.bkt, h.same a ha]

theorem next {as : List ι} (h : Relinked as m m') {a : ι} (ha : a ∉ as) :
    m'.bkt.next a = m.bkt.next a := by
  simp only [Memory.bkt, h.same a ha]

end Relinked

variable [DecidableEq ι]

@[simp] theorem Memory.set_elmt (m : Memory ι ρ) (a b : ι) (e : Elmt ι ρ) :
    (m.set a e).elmt b = if b = a then e else m.elmt b := by
  simp only [Memory.set, Function.update_apply]

@[simp] theorem Memory.set_live (m : Memory ι ρ) (a : ι) (e : Elmt ι ρ) :
    (m.set a e).live = m.live := rfl

@[simp] theorem Memory.set_made (m : Memory ι ρ) (a : ι) (e : Elmt ι ρ) :
    (m.set a e).made = m.made := rfl

@[simp] theorem Memory.set_table (m : Memory ι ρ) (a : ι) (e : Elmt ι ρ) :
    (m.set a e).table = m.table := rfl

theorem Memory.writeHh_of_mem {a : ι} (h : a ∈ m.live) (f : Handle ι → Handle ι) :
    m.writeHh a f = some (m.set a { m.elmt a with hh := f (m.elmt a).hh }) := if_pos h

/-- An assignment to a field of the handle of `a`. -/
structure Wrote (a : ι) (f : Handle ι → Handle ι) (m m' : Memory ι ρ) : Prop where
  live : m'.live = m.live
  made : m'.made = m.made
  table : m'.table = m.table
  self : m'.elmt a = { m.elmt a with hh := f (m.elmt a).hh }
  other : ∀ b, b ≠ a → m'.elmt b = m.elmt b

theorem writeHh_spec {a : ι} (h : a ∈ m.live) (f : Handle ι → Handle ι) :
    ∃ m', m.writeHh a f = some m' ∧ Wrote a f m m' :=
  ⟨_, m.writeHh_of_mem h f, rfl, rfl, rfl, by simp, fun b hb => by simp [hb]⟩

/-- An assignment to the bucket links of one element. -/
theorem relinked_set {a : ι} {f : Handle ι → Handle ι} (htbl : ∀ h, (f h).tbl = h.tbl)
    (hhashv : ∀ h, (f h).hashv = h.hashv) (hprev : ∀ h, (f h).prev = h.prev)
    (hnext : ∀ h, (f h).next = h.next) :
    Relinked [a] m (m.set a { m.elmt a with hh := f (m.elmt a).hh }) where
  live := rfl
  made := rfl
  table := rfl
  record b := by
    rw [Memory.set_elmt]
    split
    · rename_i hb
      rw [hb]
    · rfl
  hashv b := by
    rw [Memory.set_elmt]
    split
    · rename_i hb
      rw [hb]
      exact hhashv _
    · rfl
  tbl b := by
    rw [Memory.set_elmt]
    split
    · rename_i hb
      rw [hb]
      exact htbl _
    · rfl
  app := by
    simp only [Memory.app, Memory.set_elmt]
    congr 1
    · ext1 b
      split
      · rename_i hb
        rw [hb]
        exact hprev _
      · rfl
    · ext1 b
      split
      · rename_i hb
        rw [hb]
        exact hnext _
      · rfl
  same b hb := by
    rw [Memory.set_elmt, if_neg fun h => hb (List.mem_singleton.mpr h)]

/-- What is linked in front of a chain. -/
theorem linkFront_spec (hhHead : Option ι) {hh : ι} (hlive : hh ∈ m.live)
    (hhead : ∀ y ∈ hhHead, y ∈ m.live ∧ y ≠ hh) :
    ∃ m', linkFront m hhHead hh = some m' ∧ Relinked (hh :: hhHead.toList) m m' ∧
      (m'.bkt.prev hh = none ∧ m'.bkt.next hh = hhHead) ∧
      ∀ y ∈ hhHead, m'.bkt.prev y = some hh ∧ m'.bkt.next y = m.bkt.next y := by
  have hfirst := relinked_set (m := m) (a := hh)
    (f := fun h => { h with hhPrev := none, hhNext := hhHead })
    (fun _ => rfl) (fun _ => rfl) (fun _ => rfl) fun _ => rfl
  simp only [linkFront, Memory.writeHh_of_mem hlive, Option.bind_eq_bind, Option.bind_some]
  cases hhHead with
  | none =>
    refine ⟨_, rfl, hfirst, ⟨?_, ?_⟩, fun y hy => ?_⟩
    · simp [Memory.bkt]
    · simp [Memory.bkt]
    · cases hy
  | some y =>
    obtain ⟨hy, hne⟩ := hhead y rfl
    have hsecond := fun m' : Memory ι ρ => relinked_set (m := m') (a := y)
      (f := fun h => { h with hhPrev := some hh }) (fun _ => rfl) (fun _ => rfl) (fun _ => rfl)
      fun _ => rfl
    rw [Memory.writeIf, Memory.writeHh_of_mem (by simpa using hy)]
    refine ⟨_, rfl, (hfirst.mono ?_).trans ((hsecond _).mono ?_), ⟨?_, ?_⟩, fun z hz => ?_⟩
    · simp
    · simp
    · simp [Memory.bkt, Ne.symm hne]
    · simp [Memory.bkt, Ne.symm hne]
    · obtain rfl : y = z := Option.some.inj hz
      simp [Memory.bkt, hne]

/-! ### An element put into its bucket -/

omit [DecidableEq ι] in
theorem mem_addrs_of_bucket {bs : List (Bucket (Slot ι ρ))} {j : Nat} {b : Bucket (Slot ι ρ)}
    (hb : bs[j]? = some b) {a : ι} (ha : a ∈ addrs b.hhChain) : a ∈ addrs (records bs) := by
  obtain ⟨s, hs, rfl⟩ := List.mem_map.mp ha
  exact mem_addrs (List.mem_flatMap.mpr ⟨b, List.mem_of_getElem? hb, hs⟩)

omit [DecidableEq ι] in
theorem head_notMem_tail {as : List ι} (h : as.Nodup) {a : ι} (ha : as.head? = some a) :
    a ∉ as.tail := by
  cases as with
  | nil => cases ha
  | cons b bs =>
    obtain rfl : b = a := Option.some.inj ha
    exact (List.nodup_cons.mp h).1

/-- The new bucket `b₂` is `g` of the old one, with the slot `s` in front. -/
structure Pushed (s : Slot ι ρ) (b b₂ : BucketMem ι) (g : Bucket (Slot ι ρ) → Bucket (Slot ι ρ)) :
    Prop where
  hhHead : b₂.hhHead = some s.addr
  hhChain : ∀ b', (g b').hhChain = s :: b'.hhChain
  count : b₂.count = b.count + 1 ∧ ∀ b', (g b').count = b'.count + 1
  expandMult : ∀ b', b.count = b'.count → b.expandMult = b'.expandMult →
    b₂.expandMult = (g b').expandMult

theorem BucketsOf.push {bs : List (BucketMem ι)} {bs' : List (Bucket (Slot ι ρ))}
    (h : BucketsOf keyOf hash m bs bs') (hplaced : Placed (slotKey keyOf) hash bs')
    (hnodup : (addrs (records bs')).Nodup) (hpos : 0 < bs'.length) {s : Slot ι ρ}
    (hs : Holds keyOf hash m s) (hnew : s.addr ∉ addrs (records bs')) {b b₂ : BucketMem ι}
    {g : Bucket (Slot ι ρ) → Bucket (Slot ι ρ)}
    (hb : bs[hashToBkt (hash (keyOf s.record)) bs'.length]? = some b) (hg : Pushed s b b₂ g) :
    ∃ m', linkFront m b.hhHead s.addr = some m' ∧
      Relinked (s.addr :: addrs (records bs')) m m' ∧
      BucketsOf keyOf hash m' (bs.set (hashToBkt (hash (keyOf s.record)) bs'.length) b₂)
        (bs'.modify (hashToBkt (hash (keyOf s.record)) bs'.length) g) := by
  have hj : hashToBkt (hash (keyOf s.record)) bs'.length < bs'.length := hashToBkt_lt _ hpos
  have hrec := (records_push (r := s) hg.hhChain hpos hplaced).2
  rw [show hash (slotKey keyOf s) = hash (keyOf s.record) from rfl] at hrec
  generalize hashToBkt (hash (keyOf s.record)) bs'.length = j at hb hj hrec ⊢
  obtain ⟨b₀, b', hb₀, hb', hbucket⟩ := h.get hj
  obtain rfl : b = b₀ := Option.some.inj (hb.symm.trans hb₀)
  have hhead : b.hhHead = (addrs b'.hhChain).head? := hbucket.chain.head
  have hmem : ∀ a ∈ addrs b'.hhChain, a ∈ addrs (records bs') := fun a ha =>
    mem_addrs_of_bucket hb' ha
  have hlive : ∀ a ∈ addrs (records bs'), a ∈ m.live := by
    intro a ha
    obtain ⟨s', hs', rfl⟩ := List.mem_map.mp ha
    exact (h.holds s' hs').live
  obtain ⟨m', hlink, hrel, hs', hy⟩ := linkFront_spec b.hhHead hs.live
    (by
      intro y hy
      rw [hhead] at hy
      have hyrec := hmem y (List.mem_of_mem_head? hy)
      exact ⟨hlive y hyrec, fun heq => hnew (heq ▸ hyrec)⟩)
  -- outside the bucket no link is written
  have hout : ∀ a, a ≠ s.addr → b.hhHead ≠ some a → m'.elmt a = m.elmt a := by
    intro a hne hhd
    refine hrel.same a fun hmem => ?_
    rcases List.mem_cons.mp hmem with heq | hmem
    · exact hne heq
    · exact hhd (Option.mem_toList.mp hmem)
  refine ⟨m', hlink, hrel.mono fun a ha => ?_, ?_, ?_, ?_⟩
  · rcases List.mem_cons.mp ha with rfl | ha
    · exact List.mem_cons_self
    · have hhd := Option.mem_toList.mp ha
      rw [hhead] at hhd
      exact List.mem_cons_of_mem _ (hmem a (List.mem_of_mem_head? hhd))
  · simp [h.length]
  · intro k c c' hc hc'
    rw [List.getElem?_set] at hc
    rw [List.getElem?_modify] at hc'
    by_cases hjk : j = k
    · -- the bucket of the slot
      subst hjk
      have hlen : j < bs.length := h.length ▸ hj
      simp only [if_true, hlen] at hc
      simp only [hb', if_true, Option.map_eq_map, Option.map_some, Option.some.injEq] at hc'
      obtain rfl := Option.some.inj hc
      subst hc'
      refine ⟨?_, ?_, ?_, ?_⟩
      · rw [hg.hhHead, hg.hhChain, addrs_cons]
        have hchain := (hnodup.sublist (List.Sublist.map _ (List.sublist_flatten_of_mem
          (List.mem_map_of_mem (List.mem_of_getElem? hb')))) : (addrs b'.hhChain).Nodup)
        refine hbucket.chain.push hs' (fun y hmemy => ?_) (fun y hmemy => ?_) fun y hmemy => ?_
        · exact (hy y (by rw [hhead]; exact hmemy)).1
        · have hne : y ≠ s.addr := fun heq => hnew (heq ▸ hmem y (List.mem_of_mem_tail hmemy))
          have hnhead : b.hhHead ≠ some y := by
            intro hhd
            rw [hhead] at hhd
            exact head_notMem_tail hchain hhd hmemy
          simp only [Memory.bkt, hout y hne hnhead]
        · by_cases hhd : b.hhHead = some y
          · exact (hy y hhd).2
          · have hne : y ≠ s.addr := fun heq => hnew (heq ▸ hmem y hmemy)
            simp only [Memory.bkt, hout y hne hhd]
      · rw [hg.count.1, hg.count.2, hbucket.count]
      · rw [hg.count.2, hg.hhChain, hbucket.length, List.length_cons]
      · exact hg.expandMult b' hbucket.count hbucket.expandMult
    · -- another one
      simp only [if_neg hjk] at hc
      simp only [if_neg hjk, Option.map_eq_map, Option.map_id'] at hc'
      have hsame : ∀ s' ∈ c'.hhChain, m'.elmt s'.addr = m.elmt s'.addr := by
        intro s' hs'mem
        refine hout _ (fun heq => hnew ?_) fun hhd => ?_
        · rw [← heq]
          exact mem_addrs_of_bucket hc' (mem_addrs hs'mem)
        · rw [hhead] at hhd
          obtain ⟨s'', hs'', haddr⟩ := List.mem_map.mp (List.mem_of_mem_head? hhd)
          exact hjk (h.bucket_eq hplaced hb' hc' hs'' hs'mem haddr)
      exact (h.bucket k c c' hc hc').congr
        (fun s' hs' => by simp only [Memory.bkt, hsame s' hs'])
        fun s' hs' => by simp only [Memory.bkt, hsame s' hs']
  · intro s' hs'mem
    have hcons : s' ∈ s ::ₘ (records bs' : Multiset (Slot ι ρ)) := by
      rw [← hrec]
      exact hs'mem
    rcases Multiset.mem_cons.mp hcons with rfl | hold
    · exact hrel.holds hs
    · exact hrel.holds (h.holds s' hold)

/-! ### `HASH_EXPAND_BUCKETS` -/

omit [DecidableEq ι] in
theorem rehashed_pushed {ideal : Nat} (hideal : 0 < ideal) (s : Slot ι ρ) (b : BucketMem ι) :
    ∃ b₂, b.rehashed ideal s.addr = some b₂ ∧ Pushed s b b₂ (Bucket.rehashed ideal s) := by
  have hcount : ∀ b' : Bucket (Slot ι ρ), (b'.rehashed ideal s).count = b'.count + 1 := by
    intro b'
    unfold Bucket.rehashed
    dsimp only
    split <;> rfl
  by_cases hover : b.count + 1 > ideal
  · refine ⟨⟨some s.addr, b.count + 1, (b.count + 1) / ideal⟩, ?_, rfl,
      Bucket.hhChain_rehashed ideal s, ⟨rfl, hcount⟩, fun b' hc he => ?_⟩
    · rw [BucketMem.rehashed, if_pos hover, if_neg (Nat.pos_iff_ne_zero.mp hideal)]
    · have hover' : (b'.addToBkt s).count > ideal := by
        rw [hc] at hover
        exact hover
      simp only [Bucket.rehashed, if_pos hover', hc]
      rfl
  · refine ⟨⟨some s.addr, b.count + 1, b.expandMult⟩, ?_, rfl,
      Bucket.hhChain_rehashed ideal s, ⟨rfl, hcount⟩, fun b' hc he => ?_⟩
    · rw [BucketMem.rehashed, if_neg hover]
    · have hover' : ¬ (b'.addToBkt s).count > ideal := by
        rw [hc] at hover
        exact hover
      simp only [Bucket.rehashed, if_neg hover']
      exact he

omit [DecidableEq ι] in
theorem addrs_append (ss ss' : List (Slot ι ρ)) : addrs (ss ++ ss') = addrs ss ++ addrs ss' :=
  List.map_append

omit [DecidableEq ι] in
theorem addrs_perm {ss ss' : List (Slot ι ρ)} (h : ss.Perm ss') : (addrs ss).Perm (addrs ss') :=
  h.map Slot.addr

/-- One chain of an old bucket. -/
theorem rehashChain_spec {ideal : Nat} (hideal : 0 < ideal) (rest : List (Slot ι ρ))
    {fuel : Nat} {m : Memory ι ρ} {bs : List (BucketMem ι)}
    {acc : List (Bucket (Slot ι ρ)) × Nat} {p thh : Option ι} (hfuel : rest.length ≤ fuel)
    (h : BucketsOf keyOf hash m bs acc.1) (hplaced : Placed (slotKey keyOf) hash acc.1)
    (hpos : 0 < acc.1.length) (hseg : Links.Seg m.bkt p thh (addrs rest) none)
    (hholds : ∀ s ∈ rest, Holds keyOf hash m s)
    (hnodup : (addrs (rest ++ records acc.1)).Nodup) :
    ∃ m' bs₂, rehashChain ideal fuel m (bs, acc.2) thh =
        some (m', bs₂, (rest.foldl (rehash (slotKey keyOf) hash ideal) acc).2) ∧
      BucketsOf keyOf hash m' bs₂ (rest.foldl (rehash (slotKey keyOf) hash ideal) acc).1 ∧
      Relinked (addrs (rest ++ records acc.1)) m m' := by
  induction rest generalizing fuel m bs acc p thh with
  | nil =>
    obtain rfl : thh = none := hseg
    exact ⟨m, bs, by cases fuel <;> rfl, h, Relinked.refl _ m⟩
  | cons s rest ih =>
    obtain ⟨rfl, -, hrest⟩ := hseg
    have hs := hholds s List.mem_cons_self
    cases fuel with
    | zero => exact absurd hfuel (Nat.not_succ_le_zero _)
    | succ fuel =>
      rw [List.cons_append, addrs_cons, List.nodup_cons] at hnodup
      have hj := hashToBkt_lt (hash (keyOf s.record)) hpos
      obtain ⟨b, b', hb, hb', hbucket⟩ := h.get hj
      obtain ⟨b₂, hb₂, hpushed⟩ := rehashed_pushed hideal s b
      have hnotin : ∀ ss : List (Slot ι ρ), ss.Sublist (rest ++ records acc.1) →
          s.addr ∉ addrs ss := fun ss hsub hmem => hnodup.1 ((hsub.map Slot.addr).subset hmem)
      obtain ⟨m₁, hlink, hrel, hbuckets⟩ := h.push hplaced
        (hnodup.2.sublist ((List.sublist_append_right rest _).map Slot.addr)) hpos hs
        (hnotin _ (List.sublist_append_right _ _)) hb hpushed
      -- what the model makes of the slot
      have hacc : rehash (slotKey keyOf) hash ideal acc s =
          (acc.1.modify (hashToBkt (hash (keyOf s.record)) acc.1.length) (Bucket.rehashed ideal s),
            if b.count + 1 > ideal then acc.2 + 1 else acc.2) := by
        simp only [rehash, slotKey, hb', hbucket.count]
      have hrec : (records (rehash (slotKey keyOf) hash ideal acc s).1).Perm
          (s :: records acc.1) := by
        rw [hacc]
        exact Multiset.coe_eq_coe.mp
          (records_push (r := s) (Bucket.hhChain_rehashed ideal s) hpos hplaced).2
      have hperm : (rest ++ records (rehash (slotKey keyOf) hash ideal acc s).1).Perm
          (s :: rest ++ records acc.1) := (hrec.append_left rest).trans List.perm_middle
      have hne : ∀ a ∈ addrs rest, a ∉ s.addr :: addrs (records acc.1) := by
        intro a ha hmem
        rcases List.mem_cons.mp hmem with rfl | hmem
        · exact hnotin rest (List.sublist_append_left _ _) ha
        · rw [addrs_append] at hnodup
          exact (List.nodup_append.mp hnodup.2).2.2 a ha a hmem rfl
      obtain ⟨m₂, bs₂, hloop, hbuckets₂, hrel₂⟩ := @ih fuel m₁
        (bs.set (hashToBkt (hash (keyOf s.record)) acc.1.length) b₂)
        (rehash (slotKey keyOf) hash ideal acc s) (some s.addr)
        (m.bkt.next s.addr) (Nat.le_of_succ_le_succ hfuel)
        (by rw [hacc]; exact hbuckets)
        (by
          rw [hacc]
          exact (records_push (r := s) (Bucket.hhChain_rehashed ideal s) hpos hplaced).1)
        (by rw [hacc, List.length_modify]; exact hpos)
        (hrest.congr (fun a ha => hrel.prev (hne a ha)) fun a ha => hrel.next (hne a ha))
        (fun s' hs' => hrel.holds (hholds s' (List.mem_cons_of_mem _ hs')))
        ((addrs_perm hperm).nodup_iff.mpr (by
          rw [List.cons_append, addrs_cons, List.nodup_cons]
          exact hnodup))
      refine ⟨m₂, bs₂, ?_, hbuckets₂, ?_⟩
      · rw [rehashChain, Memory.read_of_mem hs.live]
        simp only [Option.bind_eq_bind, Option.bind_some, hs.hashv, h.length, hb, hb₂, hlink]
        rw [hacc] at hloop
        rw [List.foldl_cons, hacc]
        exact hloop
      · refine (hrel.mono fun a ha => ?_).trans (hrel₂.mono fun a ha => ?_)
        · rcases List.mem_cons.mp ha with rfl | ha
          · exact List.mem_cons_self
          · rw [addrs_append]
            exact List.mem_append_right _ ha
        · exact (addrs_perm hperm).mem_iff.mp ha

/-- All old buckets. -/
theorem rehashBuckets_spec {ideal : Nat} (hideal : 0 < ideal) (olds : List (BucketMem ι))
    {olds' : List (Bucket (Slot ι ρ))} {m : Memory ι ρ} {bs : List (BucketMem ι)}
    (acc : List (Bucket (Slot ι ρ)) × Nat) (holds : BucketsOf keyOf hash m olds olds')
    (h : BucketsOf keyOf hash m bs acc.1) (hplaced : Placed (slotKey keyOf) hash acc.1)
    (hpos : 0 < acc.1.length) (hnodup : (addrs (records olds' ++ records acc.1)).Nodup) :
    ∃ m' bs₂, rehashBuckets ideal olds m (bs, acc.2) =
        some (m', bs₂, ((records olds').foldl (rehash (slotKey keyOf) hash ideal) acc).2) ∧
      BucketsOf keyOf hash m' bs₂
        ((records olds').foldl (rehash (slotKey keyOf) hash ideal) acc).1 ∧
      Relinked (addrs (records olds' ++ records acc.1)) m m' := by
  induction olds generalizing olds' m bs acc with
  | nil =>
    obtain rfl : olds' = [] := List.eq_nil_of_length_eq_zero holds.length.symm
    exact ⟨m, bs, rfl, h, Relinked.refl _ m⟩
  | cons b olds ih =>
    cases olds' with
    | nil => exact absurd holds.length (Nat.succ_ne_zero _)
    | cons b' olds' =>
      have hbucket := holds.bucket 0 b b' rfl rfl
      have hrecords : records (b' :: olds') = b'.hhChain ++ records olds' := List.flatMap_cons
      rw [hrecords] at hnodup ⊢
      have hheld : ∀ s ∈ b'.hhChain ++ records olds', Holds keyOf hash m s := fun s hs =>
        holds.holds s (hrecords ▸ hs)
      have hchain : (b'.hhChain ++ records acc.1).Sublist
          (b'.hhChain ++ records olds' ++ records acc.1) := by
        rw [List.append_assoc]
        exact (List.Sublist.refl _).append (List.sublist_append_right _ _)
      have hfuel : b'.hhChain.length ≤ m.live.length := by
        have hsub := (List.sublist_append_left b'.hhChain (records acc.1)).trans hchain
        have hle := length_le_live (m := m) (hnodup.sublist (hsub.map Slot.addr)) fun a ha => by
          obtain ⟨s, hs, rfl⟩ := List.mem_map.mp ha
          exact (hheld s (List.mem_append_left _ hs)).live
        simpa using hle
      obtain ⟨m₁, bs₁, hloop, hbuckets, hrel⟩ := rehashChain_spec hideal b'.hhChain hfuel h hplaced
        hpos hbucket.chain (fun s hs => hheld s (List.mem_append_left _ hs))
        (hnodup.sublist (hchain.map Slot.addr))
      obtain ⟨hlen₁, hplaced₁, hrec₁⟩ := foldl_rehash ideal b'.hhChain acc hpos hplaced
      have hperm₁ : (records (b'.hhChain.foldl (rehash (slotKey keyOf) hash ideal) acc).1).Perm
          (b'.hhChain ++ records acc.1) := Multiset.coe_eq_coe.mp hrec₁
      have hperm : (records olds' ++
          records (b'.hhChain.foldl (rehash (slotKey keyOf) hash ideal) acc).1).Perm
          (b'.hhChain ++ records olds' ++ records acc.1) := by
        refine (hperm₁.append_left _).trans ?_
        rw [List.append_assoc]
        exact List.perm_append_comm_assoc _ _ _
      -- the other old chains are still there
      have hout : ∀ a ∈ addrs (records olds'), a ∉ addrs (b'.hhChain ++ records acc.1) := by
        intro a ha hmem
        have hsplit : (addrs (records olds' ++ (b'.hhChain ++ records acc.1))).Nodup := by
          refine (addrs_perm ?_).nodup_iff.mpr hnodup
          rw [List.append_assoc]
          exact List.perm_append_comm_assoc _ _ _
        rw [addrs_append] at hsplit
        exact (List.nodup_append.mp hsplit).2.2 a ha a hmem rfl
      have holds₁ : BucketsOf keyOf hash m olds olds' :=
        ⟨Nat.succ.inj holds.length, fun j c c' hc hc' => holds.bucket (j + 1) c c' hc hc',
          fun s hs => hheld s (List.mem_append_right _ hs)⟩
      obtain ⟨m₂, bs₂, hloop₂, hbuckets₂, hrel₂⟩ := ih _
        (holds₁.congr (fun a _ ha => hrel.live.symm ▸ ha) (fun a _ => hrel.record a)
          (fun a _ => hrel.hashv a) (fun a ha => hrel.prev (hout a ha))
          fun a ha => hrel.next (hout a ha))
        hbuckets hplaced₁ (hlen₁ ▸ hpos) ((addrs_perm hperm).nodup_iff.mpr hnodup)
      refine ⟨m₂, bs₂, ?_, ?_, ?_⟩
      · simp only [rehashBuckets, hloop, Option.bind_eq_bind, Option.bind_some, hloop₂,
          List.foldl_append]
      · rw [List.foldl_append]
        exact hbuckets₂
      · refine (hrel.mono fun a ha => ?_).trans (hrel₂.mono fun a ha => ?_)
        · exact (hchain.map Slot.addr).subset ha
        · exact (addrs_perm hperm).mem_iff.mp ha

omit [DecidableEq ι] in
theorem bucketsOf_empty (m : Memory ι ρ) (n : Nat) :
    BucketsOf keyOf hash m (List.replicate n ⟨none, 0, 0⟩) (emptyBuckets (Slot ι ρ) n) where
  length := by rw [List.length_replicate, emptyBuckets, List.length_replicate]
  bucket j b b' hb hb' := by
    obtain rfl := (List.mem_replicate.mp (List.mem_of_getElem? hb)).2
    obtain rfl := (List.mem_replicate.mp (List.mem_of_getElem? hb')).2
    exact ⟨rfl, rfl, rfl, rfl⟩
  holds s hs := by
    rw [records_emptyBuckets] at hs
    cases hs

/-- The ideal chain length of a table that is not empty. -/
theorem ideal_pos {n k : Nat} (hn : 0 < n) :
    0 < (n >>> (k + 1)) + if n &&& (2 * 2 ^ k - 1) = 0 then 0 else 1 := by
  rw [← Nat.pow_succ', Nat.and_two_pow_sub_one_eq_mod, Nat.shiftRight_eq_div_pow]
  split
  · rename_i hmod
    have hle : 2 ^ (k + 1) ≤ n := Nat.le_of_dvd hn (Nat.dvd_of_mod_eq_zero hmod)
    exact Nat.add_pos_left (Nat.div_pos hle (Nat.two_pow_pos _)) 0
  · exact Nat.succ_pos _

theorem expandBuckets_spec {tm : TableMem ι} {t : SlotTable ι keyOf hash}
    (h : TableOf m tm t) (hitems : 0 < t.numItems) (hnodup : (addrs (records t.buckets)).Nodup) :
    ∃ m' tm', expandBuckets m tm = some (m', tm') ∧ tm'.tail = tm.tail ∧
      TableOf m' tm' (hashExpandBuckets t) ∧ Relinked (addrs (records t.buckets)) m m' := by
  have hideal := ideal_pos (k := t.log2NumBuckets) hitems
  rw [← h.pow] at hideal
  have hpos : 0 < (emptyBuckets (Slot ι ρ) (2 * t.buckets.length)).length := by
    rw [emptyBuckets, List.length_replicate]
    exact Nat.mul_pos Nat.two_pos t.nonempty
  have hempty : records (emptyBuckets (Slot ι ρ) (2 * t.buckets.length)) = [] :=
    records_emptyBuckets _
  obtain ⟨m', bs₂, hloop, hbuckets, hrel⟩ := rehashBuckets_spec hideal tm.buckets
    (emptyBuckets (Slot ι ρ) (2 * t.buckets.length), 0) h.buckets
    (bucketsOf_empty m _) (placed_emptyBuckets _) hpos
    (by rw [hempty, List.append_nil]; exact hnodup)
  rw [hempty, List.append_nil] at hrel
  have hlen := (@foldl_rehash _ (Slot ι ρ) (slotKey keyOf) hash
    ((t.numItems >>> (t.log2NumBuckets + 1)) +
      if t.numItems &&& (2 * t.buckets.length - 1) = 0 then 0 else 1)
    (records t.buckets) (emptyBuckets (Slot ι ρ) (2 * t.buckets.length), 0) hpos
    (placed_emptyBuckets _)).1
  simp only [expandBuckets, h.buckets.length, h.numItems, h.log2NumBuckets, hloop,
    Option.bind_eq_bind, Option.bind_some]
  refine ⟨m', _, rfl, rfl, ?_, hrel⟩
  refine ⟨hbuckets, rfl, rfl, rfl, rfl, ?_, ?_, ?_⟩
  · simp only [hashExpandBuckets, h.ineffExpands]
  · simp only [hashExpandBuckets, h.ineffExpands, h.noexpand]
  · have htwo : (emptyBuckets (Slot ι ρ) (2 * t.buckets.length)).length =
        2 ^ (t.log2NumBuckets + 1) := by
      rw [emptyBuckets, List.length_replicate, h.pow, ← Nat.pow_succ']
    exact hlen.trans htwo

/-! ### `HASH_ADD` -/

omit [DecidableEq ι] in
theorem BucketOf.full {b : BucketMem ι} {b' : Bucket (Slot ι ρ)} (h : BucketOf m b b') :
    b.full = b'.full := by
  rw [BucketMem.full, Bucket.full, h.count, h.expandMult]

omit [DecidableEq ι] in
theorem addToBkt_pushed (s : Slot ι ρ) (b : BucketMem ι) :
    Pushed s b ⟨some s.addr, b.count + 1, b.expandMult⟩ (Bucket.addToBkt · s) :=
  ⟨rfl, fun _ => rfl, ⟨rfl, fun _ => rfl⟩, fun _ _ he => he⟩

theorem addToBkt_spec {hd : SlotHead ι keyOf hash} {tm : TableMem ι} (i : Nat)
    (h : TableOf m tm (hd.getD (hashMakeTable (slotKey keyOf) hash))) {s : Slot ι ρ}
    (hs : Holds keyOf hash m s)
    (hnodup : (addrs (s :: records (hd.getD (hashMakeTable (slotKey keyOf) hash)).buckets)).Nodup) :
    ∃ m' tm' t', addToBkt m i { tm with numItems := tm.numItems + 1 }
        (hashToBkt (hash (keyOf s.record)) tm.buckets.length) s.addr =
          some (m'.setTable i (some tm')) ∧
      tm'.tail = tm.tail ∧ hashAdd hd s = some t' ∧ TableOf m' tm' t' ∧
      Relinked (addrs (s :: records (hd.getD (hashMakeTable (slotKey keyOf) hash)).buckets)) m m' := by
  unfold hashAdd
  generalize hd.getD (hashMakeTable (slotKey keyOf) hash) = t at h hnodup ⊢
  rw [addrs_cons, List.nodup_cons] at hnodup
  have hj := hashToBkt_lt (hash (keyOf s.record)) t.nonempty
  obtain ⟨b, b', hb, -, -⟩ := h.buckets.get hj
  obtain ⟨m₁, hlink, hrel, hbuckets⟩ := h.buckets.push t.placed hnodup.2 t.nonempty hs hnodup.1 hb
    (addToBkt_pushed s b)
  have hpush : TableOf m₁ { tm with
      numItems := tm.numItems + 1
      buckets := tm.buckets.set (hashToBkt (hash (keyOf s.record)) t.buckets.length)
        ⟨some s.addr, b.count + 1, b.expandMult⟩ } (t.push s) :=
    ⟨hbuckets, h.log2NumBuckets, congrArg (· + 1) h.numItems, h.idealChainMaxlen, h.nonidealItems,
      h.ineffExpands, h.noexpand, (List.length_modify _ _ _).trans h.pow⟩
  -- the test for a full bucket
  have hfull : (BucketMem.full ⟨some s.addr, b.count + 1, b.expandMult⟩ && tm.noexpand != 1) =
      ((t.push s).buckets[(t.push s).bkt (slotKey keyOf s)]?.any Bucket.full &&
        (t.push s).noexpand != 1) := by
    have hlen : (t.push s).buckets.length = t.buckets.length := List.length_modify _ _ _
    obtain ⟨c, c', hc, hc', hbucket⟩ := hpush.buckets.get (hj.trans_eq hlen.symm)
    have hset := List.getElem?_set_self (a := (⟨some s.addr, b.count + 1, b.expandMult⟩ :
      BucketMem ι)) (hj.trans_eq h.buckets.length.symm)
    obtain rfl := Option.some.inj (hset.symm.trans hc)
    have hbkt : (t.push s).bkt (slotKey keyOf s) =
        hashToBkt (hash (keyOf s.record)) t.buckets.length := by
      rw [Table.bkt, hlen]
      rfl
    rw [hbkt, hc', Option.any_some, hbucket.full, h.noexpand]
    rfl
  simp only [addToBkt, h.buckets.length, hb, hlink, Option.bind_eq_bind, Option.bind_some, hfull]
  split
  · -- the buckets are doubled
    have hrec : (records (t.push s).buckets).Perm (s :: records t.buckets) :=
      Multiset.coe_eq_coe.mp (records_push_table t s)
    have hnodup' : (addrs (records (t.push s).buckets)).Nodup := by
      rw [(addrs_perm hrec).nodup_iff, addrs_cons, List.nodup_cons]
      exact hnodup
    obtain ⟨m₂, tm₂, hexpand, htail, htable, hrel₂⟩ :=
      expandBuckets_spec hpush (Nat.succ_pos _) hnodup'
    refine ⟨m₂, tm₂, _, ?_, htail, rfl, htable, hrel.trans (hrel₂.mono fun a ha => ?_)⟩
    · rw [hexpand]
      rfl
    · exact (addrs_perm hrec).mem_iff.mp ha
  · exact ⟨m₁, _, _, rfl, rfl, rfl, hpush, hrel⟩

omit [DecidableEq ι] in
theorem records_getD (hd : SlotHead ι keyOf hash) :
    (records (hd.getD (hashMakeTable (slotKey keyOf) hash)).buckets : Multiset (Slot ι ρ)) =
      bag hd := by
  cases hd with
  | none => simp [hashMakeTable]
  | some t => rfl

/-- `HASH_ADD_KEYPTR` up to the bucket: the element is the last one of the list. -/
theorem appendApp_spec {head : Option ι} {order : List ι}
    {hd : SlotHead ι keyOf hash} (h : HashOf m head order hd) {a : ι}
    (hlive : a ∈ m.live) (hnew : a ∉ order) :
    ∃ m₁ h₁ i tm₁, appendApp m head a = some (m₁, h₁) ∧ m₁.live = m.live ∧
      (m₁.elmt a).record = (m.elmt a).record ∧ m₁.table i = some tm₁ ∧
      (∀ j, j ≠ i → m₁.table j = none) ∧ AppOf m₁ (some h₁) tm₁.tail (order ++ [a]) ∧
      TableOf m₁ tm₁ (hd.getD (hashMakeTable (slotKey keyOf) hash)) ∧
      (∀ b ∈ order, (m₁.elmt b).hh.tbl = some i) ∧ (m₁.elmt h₁).hh.tbl = some i := by
  obtain ⟨m₁, hw₁, h₁⟩ := writeHh_spec hlive fun h : Handle ι => { h with next := none }
  have hlive₁ : a ∈ m₁.live := h₁.live.symm ▸ hlive
  cases hd with
  | none =>
    obtain ⟨rfl, rfl, hnone⟩ := h
    obtain ⟨m₂, hw₂, h₂⟩ := writeHh_spec hlive₁
      fun h : Handle ι => { h with prev := none, tbl := some m₁.made }
    have ha := h₂.self
    rw [h₁.self] at ha
    simp only [appendApp, hw₁, hw₂, Option.bind_eq_bind, Option.bind_some]
    refine ⟨_, a, m₁.made, makeTable a, rfl, h₂.live.trans h₁.live, ?_, ?_, ?_, ?_, ?_, ?_, ?_⟩
    · simp only [Memory.setTable, ha]
    · simp only [Memory.setTable, h₂.made, Function.update_self]
    · intro j hj
      simp only [Memory.setTable, h₂.made, Function.update_of_ne hj, h₂.table, h₁.table, hnone]
    · refine ⟨⟨rfl, ?_, ?_⟩, rfl, List.nodup_singleton a, fun b hb => ?_⟩
      · simp only [Memory.app, Memory.setTable, ha]
      · simp only [Memory.app, Memory.setTable, ha, Links.Seg]
      · obtain rfl := List.mem_singleton.mp hb
        simpa [Memory.setTable, h₂.live] using hlive₁
    · exact ⟨bucketsOf_empty _ _, rfl, rfl, rfl, rfl, rfl, rfl, rfl⟩
    · exact fun b hb => absurd hb List.not_mem_nil
    · simp only [Memory.setTable, ha]
  | some t =>
    obtain ⟨hne, i, tm, hfull⟩ := h
    obtain ⟨x, xs, rfl, rfl⟩ := hfull.head_mem hne
    obtain ⟨y, hy⟩ : ∃ y, (x :: xs).getLast? = some y := ⟨_, List.getLast?_eq_some_getLast hne⟩
    obtain ⟨zs, hzs⟩ := List.getLast?_eq_some_iff.mp hy
    have htail : tm.tail = some y := hfull.app.tail.trans hy
    have hold : ∀ b ∈ x :: xs, b ≠ a := fun b hb heq => hnew (heq ▸ hb)
    have hymem : y ∈ x :: xs := List.mem_of_getLast? hy
    have htbl : m₁.tblOf x = some (i, tm) := by
      have hx := hfull.tblOf (List.mem_cons_self (a := x) (l := xs))
      rw [← hx]
      simp only [Memory.tblOf, Memory.read, h₁.live, h₁.other x (hold x List.mem_cons_self),
        h₁.table]
    obtain ⟨m₂, hw₂, h₂⟩ := writeHh_spec (m := m₁) (h₁.live.symm ▸ hfull.app.live y hymem)
      fun h : Handle ι => { h with next := some a }
    obtain ⟨m₃, hw₃, h₃⟩ := writeHh_spec (m := m₂) (h₂.live.symm ▸ hlive₁)
      fun h : Handle ι => { h with prev := some y }
    -- the elements afterwards
    have hlive₃ : m₃.live = m.live := h₃.live.trans (h₂.live.trans h₁.live)
    have ha : m₃.elmt a = { m.elmt a with hh := { (m.elmt a).hh with
        next := none, prev := some y } } := by
      rw [h₃.self, h₂.other a (hold y hymem).symm, h₁.self]
    have hlast : m₃.elmt y = { m.elmt y with hh := { (m.elmt y).hh with next := some a } } := by
      rw [h₃.other y (hold y hymem), h₂.self, h₁.other y (hold y hymem)]
    have hother : ∀ b ∈ x :: xs, b ≠ y → m₃.elmt b = m.elmt b := fun b hb hby => by
      rw [h₃.other b (hold b hb), h₂.other b hby, h₁.other b (hold b hb)]
    have hsame : ∀ b ∈ x :: xs, m₃.elmt b =
        { m.elmt b with hh := { (m.elmt b).hh with next := (m₃.elmt b).hh.next } } := by
      intro b hb
      by_cases hby : b = y
      · rw [hby, hlast]
      · rw [hother b hb hby]
    have hrec : ∀ b ∈ addrs (records t.buckets), b ∈ x :: xs := fun b hb =>
      hfull.mem_order.mpr hb
    simp only [appendApp, hw₁, htbl, htail, hw₂, hw₃, Option.bind_eq_bind, Option.bind_some]
    refine ⟨m₃.setTable i (some { tm with tail := some a }), x, i, { tm with tail := some a }, rfl,
      hlive₃, ?_, ?_, ?_, ?_, ?_, ?_, ?_⟩
    · simp only [Memory.setTable, ha]
    · simp only [Memory.setTable, Function.update_self]
    · intro j hj
      simp only [Memory.setTable, Function.update_of_ne hj, h₃.table, h₂.table, h₁.table,
        hfull.only j hj]
    · refine ⟨?_, ?_, ?_, ?_⟩
      · have hchain := hfull.app.chain
        rw [hzs] at hchain ⊢
        refine hchain.append ⟨?_, ?_⟩ (fun b hb => ?_) (fun b hb => ?_) ?_
        · simp only [Memory.app, Memory.setTable, ha]
        · simp only [Memory.app, Memory.setTable, ha]
        · simp only [Memory.app, Memory.setTable]
          rw [hsame b (hzs ▸ hb)]
        · have hnodup := hfull.app.nodup
          rw [hzs] at hnodup
          have hby : b ≠ y := (List.nodup_append.mp hnodup).2.2 b hb y (List.mem_singleton_self y)
          simp only [Memory.app, Memory.setTable]
          rw [hother b (hzs ▸ List.mem_append_left _ hb) hby]
        · simp only [Memory.app, Memory.setTable, hlast]
      · rw [List.getLast?_concat]
      · refine List.nodup_append.mpr ⟨hfull.app.nodup, List.nodup_singleton a, fun b hb c hc => ?_⟩
        obtain rfl := List.mem_singleton.mp hc
        exact hold b hb
      · intro b hb
        rcases List.mem_append.mp hb with hb | hb
        · exact hlive₃.symm ▸ hfull.app.live b hb
        · obtain rfl := List.mem_singleton.mp hb
          exact hlive₃.symm ▸ hlive
    · refine hfull.table.congr (some a) rfl ?_ ?_ ?_ ?_ ?_
      · exact fun b _ hb => hlive₃.symm ▸ hb
      · exact fun b hb => by simp only [Memory.setTable]; rw [hsame b (hrec b hb)]
      · exact fun b hb => by simp only [Memory.setTable]; rw [hsame b (hrec b hb)]
      · exact fun b hb => by simp only [Memory.bkt, Memory.setTable]; rw [hsame b (hrec b hb)]
      · exact fun b hb => by simp only [Memory.bkt, Memory.setTable]; rw [hsame b (hrec b hb)]
    · intro b hb
      simp only [Memory.setTable]
      rw [hsame b hb]
      exact hfull.tbl b hb
    · simp only [Memory.setTable]
      rw [hsame x List.mem_cons_self]
      exact hfull.tbl x List.mem_cons_self

/-- **`HASH_ADD` on memory** adds the slot of the element to the table, at the end
    of the order of insertion. -/
theorem HashOf.add {head : Option ι} {order : List ι} {hd : SlotHead ι keyOf hash}
    (h : HashOf m head order hd) {a : ι} (hlive : a ∈ m.live) (hnew : a ∉ order) :
    ∃ m' h', memAdd keyOf hash m head a = some (m', h') ∧ m'.live = m.live ∧
      HashOf m' (some h') (order ++ [a]) (hashAdd hd ⟨a, (m.elmt a).record⟩) := by
  have hbag := h.order_eq
  obtain ⟨m₁, h₁, i, tm₁, happend, hlive₁, hrecord₁, hmem₁, honly₁, happ₁, htable₁, htbl₁, hhead₁⟩ :=
    appendApp_spec h hlive hnew
  have hbase : (addrs (records (hd.getD (hashMakeTable (slotKey keyOf) hash)).buckets)).Perm order :=
    Multiset.coe_eq_coe.mp (hbag ▸ congrArg (Multiset.map Slot.addr) (records_getD hd))
  have hanew : a ∉ addrs (records (hd.getD (hashMakeTable (slotKey keyOf) hash)).buckets) :=
    fun hmem => hnew (hbase.mem_iff.mp hmem)
  have halive : a ∈ m₁.live := hlive₁.symm ▸ hlive
  have htblOf : m₁.tblOf h₁ = some (i, tm₁) := by
    have hh₁ : h₁ ∈ m₁.live :=
      happ₁.live h₁ (List.mem_of_mem_head? (happ₁.chain.head.symm ▸ rfl))
    simp only [Memory.tblOf, Memory.read_of_mem hh₁, hhead₁, hmem₁, Option.bind_eq_bind,
      Option.bind_some]
    rfl
  obtain ⟨m₂, hw₂, h₂⟩ := writeHh_spec halive fun h : Handle ι =>
    { h with tbl := some i, hashv := hash (keyOf (m.elmt a).record) }
  have hself : m₂.elmt a = { m₁.elmt a with hh := { (m₁.elmt a).hh with
      tbl := some i, hashv := hash (keyOf (m.elmt a).record) } } := h₂.self
  -- the other parts of the hash stay as they are
  have htable₂ : TableOf m₂ tm₁ (hd.getD (hashMakeTable (slotKey keyOf) hash)) := by
    have hne : ∀ b ∈ addrs (records (hd.getD (hashMakeTable (slotKey keyOf) hash)).buckets),
        m₂.elmt b = m₁.elmt b := fun b hb => h₂.other b fun heq => hanew (heq ▸ hb)
    refine htable₁.congr tm₁.tail rfl ?_ ?_ ?_ ?_ ?_
    · exact fun b _ hb => h₂.live.symm ▸ hb
    · exact fun b hb => by rw [hne b hb]
    · exact fun b hb => by rw [hne b hb]
    · exact fun b hb => by simp only [Memory.bkt, hne b hb]
    · exact fun b hb => by simp only [Memory.bkt, hne b hb]
  have happ₂ : m₂.app = m₁.app := by
    have hfields : ∀ b, (m₂.elmt b).hh.prev = (m₁.elmt b).hh.prev ∧
        (m₂.elmt b).hh.next = (m₁.elmt b).hh.next := by
      intro b
      by_cases hb : b = a
      · rw [hb, hself]
        exact ⟨rfl, rfl⟩
      · rw [h₂.other b hb]
        exact ⟨rfl, rfl⟩
    simp only [Memory.app, hfields]
  have hs : Holds keyOf hash m₂ (⟨a, (m.elmt a).record⟩ : Slot ι ρ) := by
    refine ⟨h₂.live.symm ▸ halive, ?_, ?_⟩
    · rw [hself]
      exact hrecord₁
    · rw [hself]
  obtain ⟨m₃, tm₃, t', hadd, htail₃, hhashAdd, htable₃, hrel₃⟩ := addToBkt_spec i htable₂ hs (by
    rw [addrs_cons, List.nodup_cons, hbase.nodup_iff]
    exact ⟨hanew, (List.nodup_append.mp happ₁.nodup).1⟩)
  have hrecords : (records t'.buckets : Multiset (Slot ι ρ)) = ⟨a, (m.elmt a).record⟩ ::ₘ bag hd := by
    rw [← bag_hashAdd, hhashAdd]
    rfl
  refine ⟨m₃.setTable i (some tm₃), h₁, ?_, hrel₃.live.trans (h₂.live.trans hlive₁), ?_⟩
  · simp only [memAdd, happend, htblOf, Memory.read_of_mem halive, hrecord₁, hw₂,
      Option.bind_eq_bind, Option.bind_some]
    rw [hadd]
    rfl
  · rw [hhashAdd]
    refine ⟨by simp, i, tm₃, ?_, ?_, ?_, ?_, ?_, ?_⟩
    · simp only [Memory.setTable, Function.update_self]
    · intro j hj
      simp only [Memory.setTable, Function.update_of_ne hj, hrel₃.table, h₂.table, honly₁ j hj]
    · intro b hb
      change (m₃.elmt b).hh.tbl = some i
      rw [hrel₃.tbl]
      rcases List.mem_append.mp hb with hb | hb
      · rw [h₂.other b fun heq => hnew (heq ▸ hb)]
        exact htbl₁ b hb
      · rw [List.mem_singleton.mp hb, hself]
    · exact htable₃.congr tm₃.tail rfl (fun _ _ hb => hb) (fun _ _ => rfl)
        (fun _ _ => rfl) (fun _ _ => rfl) fun _ _ => rfl
    · rw [htail₃]
      refine ⟨?_, happ₁.tail, happ₁.nodup, fun b hb => ?_⟩
      · change Links.Chain m₃.app _ _
        rw [hrel₃.app, happ₂]
        exact happ₁.chain
      · change b ∈ m₃.live
        rw [hrel₃.live, h₂.live]
        exact happ₁.live b hb
    · change _ = Multiset.map Slot.addr (records t'.buckets : Multiset (Slot ι ρ))
      rw [hrecords, Multiset.map_cons, ← hbag, Multiset.cons_coe]
      exact Multiset.coe_eq_coe.mpr (List.perm_append_singleton a order)

end Insert

end UTHash
