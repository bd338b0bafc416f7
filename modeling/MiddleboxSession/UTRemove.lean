/-
  MiddleboxSession/UTRemove.lean
  ==============================
  **`HASH_DELETE` and `HASH_ITER` on memory**, and what is written through a
  pointer that `HASH_FIND` returned.

  A deleted element leaves two lists, the chain of its bucket and the list in
  the order of insertion; it stays allocated, and its own links are not
  written.  The loop that empties a hash has read the next element before it
  frees the present one, so it visits the elements in the order of insertion.
-/
import MiddleboxSession.UTInsert

namespace UTHash

section Remove

variable {ι κ ρ : Type} [DecidableEq ι] {keyOf : ρ → κ} {hash : κ → BitVec 32} {m m' : Memory ι ρ}

/-- An assignment behind a test for `NULL`. -/
structure WroteIf (p : Option ι) (f : Handle ι → Handle ι) (m m' : Memory ι ρ) : Prop where
  live : m'.live = m.live
  made : m'.made = m.made
  table : m'.table = m.table
  elmt : ∀ b, m'.elmt b =
    { m.elmt b with hh := if p = some b then f (m.elmt b).hh else (m.elmt b).hh }

theorem writeIf_spec {p : Option ι} (hlive : ∀ a ∈ p, a ∈ m.live) (f : Handle ι → Handle ι) :
    ∃ m', m.writeIf p f = some m' ∧ WroteIf p f m m' := by
  cases p with
  | none => exact ⟨m, rfl, rfl, rfl, rfl, fun _ => rfl⟩
  | some a =>
    obtain ⟨m', hw, h⟩ := writeHh_spec (hlive a rfl) f
    refine ⟨m', hw, h.live, h.made, h.table, fun b => ?_⟩
    by_cases hb : b = a
    · rw [hb, h.self, if_pos rfl]
    · rw [h.other b hb, if_neg fun heq => hb (Option.some.inj heq).symm]

theorem WroteIf.relinked {p : Option ι} {f : Handle ι → Handle ι} (h : WroteIf p f m m')
    (htbl : ∀ h, (f h).tbl = h.tbl) (hhashv : ∀ h, (f h).hashv = h.hashv)
    (hprev : ∀ h, (f h).prev = h.prev) (hnext : ∀ h, (f h).next = h.next) :
    Relinked p.toList m m' where
  live := h.live
  made := h.made
  table := h.table
  record b := by rw [h.elmt]
  hashv b := by
    rw [h.elmt]
    dsimp only
    split
    · exact hhashv _
    · rfl
  tbl b := by
    rw [h.elmt]
    dsimp only
    split
    · exact htbl _
    · rfl
  app := by
    have hfields : ∀ b, (m'.elmt b).hh.prev = (m.elmt b).hh.prev ∧
        (m'.elmt b).hh.next = (m.elmt b).hh.next := by
      intro b
      rw [h.elmt]
      dsimp only
      split
      · exact ⟨hprev _, hnext _⟩
      · exact ⟨rfl, rfl⟩
    simp only [Memory.app, hfields]
  same b hb := by
    rw [h.elmt, if_neg fun hp => hb (Option.mem_toList.mpr hp)]

/-! ### An element taken out of its bucket -/

theorem BucketsOf.unlink [DecidableEq ρ] {bs : List (BucketMem ι)} {bs' : List (Bucket (Slot ι ρ))}
    (h : BucketsOf keyOf hash m bs bs') (hplaced : Placed (slotKey keyOf) hash bs')
    (hnodup : (addrs (records bs')).Nodup) {s : Slot ι ρ} (hs : s ∈ records bs')
    {b : BucketMem ι} (hb : bs[hashToBkt (hash (keyOf s.record)) bs'.length]? = some b) :
    ∃ m' b₂, delInBkt m b s.addr = some (m', b₂) ∧ Relinked (addrs (records bs')) m m' ∧
      BucketsOf keyOf hash m' (bs.set (hashToBkt (hash (keyOf s.record)) bs'.length) b₂)
        (bs'.modify (hashToBkt (hash (keyOf s.record)) bs'.length)
          fun b => { b with count := b.count - 1, hhChain := b.hhChain.erase s }) := by
  have hmemChain : s ∈ chainAt bs' (hashToBkt (hash (keyOf s.record)) bs'.length) :=
    mem_chainAt_of_mem_records _ _ hplaced hs
  generalize hashToBkt (hash (keyOf s.record)) bs'.length = j at hb hmemChain ⊢
  obtain ⟨b', hb', hsb⟩ : ∃ b', bs'[j]? = some b' ∧ s ∈ b'.hhChain := by
    unfold chainAt at hmemChain
    split at hmemChain
    · rename_i b' hb'
      exact ⟨b', hb', hmemChain⟩
    · cases hmemChain
  have hj : j < bs'.length := (List.getElem?_eq_some_iff.mp hb').1
  have hbucket := h.bucket j b b' hb hb'
  have hchainNodup : (addrs b'.hhChain).Nodup := hnodup.sublist (List.Sublist.map _
    (List.sublist_flatten_of_mem (List.mem_map_of_mem (List.mem_of_getElem? hb'))))
  have hmem : ∀ a ∈ addrs b'.hhChain, a ∈ addrs (records bs') := fun a ha =>
    mem_addrs_of_bucket hb' ha
  have hlive : ∀ a ∈ addrs (records bs'), a ∈ m.live := by
    intro a ha
    obtain ⟨s', hs', rfl⟩ := List.mem_map.mp ha
    exact (h.holds s' hs').live
  -- the neighbours of the element
  obtain ⟨as, cs, hsplit⟩ := List.append_of_mem hsb
  have haddrs : addrs b'.hhChain = addrs as ++ s.addr :: addrs cs := by
    rw [hsplit, addrs_append, addrs_cons]
  have hchain := hbucket.chain
  rw [haddrs] at hchain hchainNodup
  obtain ⟨hprev, hnext⟩ := hchain.links
  have hprevMem : ∀ a ∈ m.bkt.prev s.addr, a ∈ addrs b'.hhChain := by
    intro a ha
    rw [hprev, Links.lastOr_none] at ha
    rw [haddrs]
    exact List.mem_append_left _ (List.mem_of_getLast? ha)
  have hnextMem : ∀ a ∈ m.bkt.next s.addr, a ∈ addrs b'.hhChain := by
    intro a ha
    rw [hnext] at ha
    rw [haddrs]
    exact List.mem_append_right _ (List.mem_cons_of_mem _ (List.mem_of_mem_head? ha))
  obtain ⟨m₁, hw₁, h₁⟩ := writeIf_spec (m := m) (p := (m.elmt s.addr).hh.hhPrev)
    (fun a ha => hlive a (hmem a (hprevMem a ha)))
    fun p : Handle ι => { p with hhNext := (m.elmt s.addr).hh.hhNext }
  obtain ⟨m₂, hw₂, h₂⟩ := writeIf_spec (m := m₁) (p := (m.elmt s.addr).hh.hhNext)
    (fun a ha => h₁.live.symm ▸ hlive a (hmem a (hnextMem a ha)))
    fun n : Handle ι => { n with hhPrev := (m.elmt s.addr).hh.hhPrev }
  have hrel : Relinked (addrs b'.hhChain) m m₂ :=
    ((h₁.relinked (fun _ => rfl) (fun _ => rfl) (fun _ => rfl) fun _ => rfl).mono fun a ha =>
        hprevMem a (Option.mem_toList.mp ha)).trans
      ((h₂.relinked (fun _ => rfl) (fun _ => rfl) (fun _ => rfl) fun _ => rfl).mono fun a ha =>
        hnextMem a (Option.mem_toList.mp ha))
  refine ⟨m₂, { b with
    count := b.count - 1
    hhHead := if b.hhHead = some s.addr then (m.elmt s.addr).hh.hhNext else b.hhHead },
    ?_, hrel.mono hmem, ?_, ?_, ?_⟩
  · have hread := Memory.read_of_mem (h.holds s hs).live
    simp only [delInBkt, hread, hw₁, hw₂, Option.bind_eq_bind, Option.bind_some]
    rfl
  · simp [h.length]
  · intro k c c' hc hc'
    rw [List.getElem?_set] at hc
    rw [List.getElem?_modify] at hc'
    by_cases hjk : j = k
    · -- the bucket of the slot
      subst hjk
      have hlen : j < bs.length := h.length ▸ hj
      simp only [if_true, hlen] at hc
      simp only [hb', if_true, Option.map_eq_map, Option.map_some, Option.some.injEq] at hc'
      obtain rfl := Option.some.inj hc
      subst hc'
      refine ⟨?_, ?_, ?_, hbucket.expandMult⟩
      · have hnotin : s ∉ as := fun hmem =>
          (List.nodup_append.mp hchainNodup).2.2 _ (mem_addrs hmem) _ List.mem_cons_self rfl
        have herase : addrs (b'.hhChain.erase s) = addrs as ++ addrs cs := by
          rw [hsplit, List.erase_append_right _ hnotin, List.erase_cons_head, addrs_append]
        have hhead : (if b.hhHead = some s.addr then (m.elmt s.addr).hh.hhNext else b.hhHead) =
            if m.bkt.prev s.addr = none then m.bkt.next s.addr else b.hhHead := by
          simp only [hchain.head_iff hchainNodup]
          rfl
        rw [herase, hhead]
        refine hchain.unlink hchainNodup (fun z hz => ?_) fun z hz => ?_
        · simp only [Memory.bkt, h₂.elmt z, h₁.elmt z, apply_ite Handle.hhNext, ite_self]
          rfl
        · simp only [Memory.bkt, h₂.elmt z, h₁.elmt z, apply_ite Handle.hhPrev, ite_self]
          rfl
      · exact congrArg (· - 1) hbucket.count
      · rw [hbucket.length, List.length_erase_of_mem hsb]
    · -- another one
      simp only [if_neg hjk] at hc
      simp only [if_neg hjk, Option.map_eq_map, Option.map_id'] at hc'
      have hout : ∀ s' ∈ c'.hhChain, s'.addr ∉ addrs b'.hhChain := by
        intro s' hs' hmem'
        obtain ⟨s'', hs'', haddr⟩ := List.mem_map.mp hmem'
        exact hjk (h.bucket_eq hplaced hb' hc' hs'' hs' haddr)
      exact (h.bucket k c c' hc hc').congr (fun s' hs' => hrel.prev (hout s' hs'))
        fun s' hs' => hrel.next (hout s' hs')
  · intro s' hs'
    obtain ⟨rest, hrec, hrec'⟩ := records_modify bs'
      (fun b => { b with count := b.count - 1, hhChain := b.hhChain.erase s }) hj
    have hchainAt : chainAt bs' j = bs'[j].hhChain := by
      simp [chainAt, List.getElem?_eq_getElem hj]
    have hold : s' ∈ (records bs' : Multiset (Slot ι ρ)) := by
      have hmod : s' ∈ (bs'[j].hhChain.erase s : Multiset (Slot ι ρ)) + rest := hrec' ▸ hs'
      rw [hrec, hchainAt]
      rcases Multiset.mem_add.mp hmod with hmod | hmod
      · exact Multiset.mem_add.mpr (Or.inl (List.mem_of_mem_erase hmod))
      · exact Multiset.mem_add.mpr (Or.inr hmod)
    exact hrel.holds (h.holds s' hold)

/-! ### An element taken out of the order of insertion -/

/-- `m'` is `m` but for the links in the order of insertion. -/
structure Reordered (m m' : Memory ι ρ) : Prop where
  live : m'.live = m.live
  table : m'.table = m.table
  record : ∀ b, (m'.elmt b).record = (m.elmt b).record
  hashv : ∀ b, (m'.elmt b).hh.hashv = (m.elmt b).hh.hashv
  tbl : ∀ b, (m'.elmt b).hh.tbl = (m.elmt b).hh.tbl
  bkt : m'.bkt = m.bkt

theorem AppOf.unlink {head tail : Option ι} {order : List ι} (h : AppOf m head tail order) {x : ι}
    (hx : x ∈ order) :
    ∃ m' head' tail', unlinkApp m head tail x = some (m', head', tail') ∧ Reordered m m' ∧
      AppOf m' head' tail' (order.erase x) := by
  obtain ⟨xs, ys, rfl⟩ := List.append_of_mem hx
  have hchain := h.chain
  obtain ⟨hprev, hnext⟩ := hchain.links
  have hnotin : x ∉ xs := fun hmem =>
    (List.nodup_append.mp h.nodup).2.2 x hmem x List.mem_cons_self rfl
  have herase : (xs ++ x :: ys).erase x = xs ++ ys := by
    rw [List.erase_append_right _ hnotin, List.erase_cons_head]
  obtain ⟨m₁, hw₁, h₁⟩ := writeIf_spec (m := m) (p := (m.elmt x).hh.prev)
    (fun a ha => by
      have hmem : a ∈ (Links.lastOr none xs) := hprev ▸ ha
      rw [Links.lastOr_none] at hmem
      exact h.live a (List.mem_append_left _ (List.mem_of_getLast? hmem)))
    fun p : Handle ι => { p with next := (m.elmt x).hh.next }
  obtain ⟨m₂, hw₂, h₂⟩ := writeIf_spec (m := m₁) (p := (m.elmt x).hh.next)
    (fun a ha => by
      have hmem : a ∈ ys.head? := hnext ▸ ha
      rw [h₁.live]
      exact h.live a (List.mem_append_right _ (List.mem_cons_of_mem _ (List.mem_of_mem_head? hmem))))
    fun n : Handle ι => { n with prev := (m.elmt x).hh.prev }
  have hlive : m₂.live = m.live := h₂.live.trans h₁.live
  refine ⟨m₂, if (m.elmt x).hh.prev = none then (m.elmt x).hh.next else head,
    if tail = some x then (m.elmt x).hh.prev else tail, ?_, ?_, ?_⟩
  · simp only [unlinkApp, Memory.read_of_mem (h.live x hx), hw₁, hw₂, Option.bind_eq_bind,
      Option.bind_some]
    rfl
  · refine ⟨hlive, h₂.table.trans h₁.table, fun b => ?_, fun b => ?_, fun b => ?_, ?_⟩
    · rw [h₂.elmt b, h₁.elmt b]
    · simp only [h₂.elmt b, h₁.elmt b, apply_ite Handle.hashv, ite_self]
    · simp only [h₂.elmt b, h₁.elmt b, apply_ite Handle.tbl, ite_self]
    · simp only [Memory.bkt, h₂.elmt, h₁.elmt, apply_ite Handle.hhPrev, apply_ite Handle.hhNext,
        ite_self]
  · rw [herase]
    refine ⟨?_, ?_, ?_, ?_⟩
    · refine hchain.unlink h.nodup (fun z hz => ?_) fun z hz => ?_
      · simp only [Memory.app, h₂.elmt z, h₁.elmt z, apply_ite Handle.next, ite_self]
        rfl
      · simp only [Memory.app, h₂.elmt z, h₁.elmt z, apply_ite Handle.prev, ite_self]
        rfl
    · have hprev' : (m.elmt x).hh.prev = xs.getLast? := by
        rw [← Links.lastOr_none]
        exact hprev
      rw [h.tail, hprev']
      rcases List.eq_nil_or_concat ys with rfl | ⟨zs, z, rfl⟩
      · rw [List.getLast?_concat, if_pos rfl, List.append_nil]
      · have hne : z ≠ x := by
          rintro rfl
          have hnodup := (List.nodup_append.mp h.nodup).2.1
          exact (List.nodup_cons.mp hnodup).1 (by simp)
        have hlast : ∀ ws : List ι, (ws ++ zs.concat z).getLast? = some z := fun ws => by
          rw [List.concat_eq_append, ← List.append_assoc, List.getLast?_concat]
        have hlast' := hlast (xs ++ [x])
        rw [List.append_assoc, List.singleton_append] at hlast'
        rw [hlast', if_neg fun heq => hne (Option.some.inj heq), hlast]
    · rw [← herase]
      exact h.nodup.erase x
    · intro a ha
      rw [hlive]
      rw [← herase] at ha
      exact h.live a (List.mem_of_mem_erase ha)

/-! ### `HASH_DELETE` -/

omit [DecidableEq ι] in
/-- The test in `HASH_DELETE` for the last element. -/
theorem AppOf.last_iff {head tail : Option ι} {order : List ι} (h : AppOf m head tail order) {x : ι}
    (hx : x ∈ order) :
    ((m.elmt x).hh.prev = none ∧ (m.elmt x).hh.next = none) ↔ order.length = 1 := by
  obtain ⟨xs, ys, rfl⟩ := List.append_of_mem hx
  obtain ⟨hprev, hnext⟩ := h.chain.links
  change m.app.prev x = none ∧ m.app.next x = none ↔ _
  rw [hprev, hnext, Links.lastOr_none_eq_none, List.head?_eq_none_iff, List.length_append,
    List.length_cons]
  constructor
  · rintro ⟨rfl, rfl⟩
    rfl
  · intro hlen
    exact ⟨List.eq_nil_of_length_eq_zero (by omega), List.eq_nil_of_length_eq_zero (by omega)⟩

/-- **`HASH_DELETE` on memory** takes the slot out of the table. -/
theorem HashOf.delete [DecidableEq ρ] {head : Option ι} {order : List ι}
    {hd : SlotHead ι keyOf hash} (h : HashOf m head order hd) {s : Slot ι ρ}
    (hs : s ∈ bag hd) :
    ∃ m' head', memDelete m head s.addr = some (m', head') ∧ m'.live = m.live ∧
      HashOf m' head' (order.erase s.addr) (hashDeleteOf hd s) := by
  cases hd with
  | none => exact absurd hs (Multiset.notMem_zero s)
  | some t =>
    obtain ⟨hne, i, tm, hfull⟩ := h
    have hrec : s ∈ records t.buckets := hs
    have hmem : s.addr ∈ order := hfull.mem_order.mpr (mem_addrs hrec)
    obtain ⟨x, xs, hcons, rfl⟩ := hfull.head_mem hne
    have htbl : m.tblOf x = some (i, tm) := hfull.tblOf (hcons ▸ List.mem_cons_self)
    have hread := Memory.read_of_mem (hfull.app.live _ hmem)
    have hlast := hfull.app.last_iff hmem
    rw [hfull.length_order] at hlast
    simp only [memDelete, hread, htbl, Option.bind_eq_bind, Option.bind_some, hashDeleteOf, hrec,
      dif_pos, hlast]
    by_cases hone : t.numItems = 1
    · rw [if_pos hone, if_pos hone]
      refine ⟨m.setTable i none, none, rfl, rfl, rfl, ?_, fun j => ?_⟩
      · apply List.eq_nil_of_length_eq_zero
        rw [List.length_erase_of_mem hmem, hfull.length_order, hone]
      · by_cases hj : j = i
        · simp only [Memory.setTable, hj, Function.update_self]
        · simp only [Memory.setTable, Function.update_of_ne hj, hfull.only j hj]
    · rw [if_neg hone, if_neg hone]
      obtain ⟨m₁, head₁, tail₁, hunlink, hreord, happ₁⟩ := hfull.app.unlink hmem
      have hne₁ : order.erase s.addr ≠ [] := by
        intro hnil
        have hlen := congrArg List.length hnil
        rw [List.length_erase_of_mem hmem, hfull.length_order, List.length_nil] at hlen
        have hpos := List.length_pos_of_mem hmem
        rw [hfull.length_order] at hpos
        omega
      obtain ⟨y, ys, herase⟩ := List.exists_cons_of_ne_nil hne₁
      have hhead₁ : head₁ = some y := by rw [happ₁.chain.head, herase, List.head?_cons]
      have hy : y ∈ order := List.mem_of_mem_erase (herase ▸ List.mem_cons_self)
      -- the table with its new tail
      have htable₁ : TableOf (m₁.setTable i (some { tm with tail := tail₁ }))
          { tm with tail := tail₁ } t :=
        hfull.table.congr tail₁ rfl (fun a _ ha => hreord.live.symm ▸ ha) (fun a _ => hreord.record a)
          (fun a _ => hreord.hashv a) (fun a _ => congrArg (fun f => f.prev a) hreord.bkt)
          fun a _ => congrArg (fun f => f.next a) hreord.bkt
      have htbl₁ : (m₁.setTable i (some { tm with tail := tail₁ })).tblOf y =
          some (i, { tm with tail := tail₁ }) := by
        have hlive : y ∈ m₁.live := hreord.live.symm ▸ hfull.app.live y hy
        have htbl : (m₁.elmt y).hh.tbl = some i := (hreord.tbl y).trans (hfull.tbl y hy)
        simp only [Memory.tblOf, Memory.read, Memory.setTable, hlive, if_true, Option.bind_eq_bind,
          Option.bind_some, htbl, Function.update_self]
        rfl
      have hholds := hfull.table.buckets.holds s hrec
      obtain ⟨b, b', hb, -, -⟩ :=
        htable₁.buckets.get (hashToBkt_lt (hash (keyOf s.record)) t.nonempty)
      have hnodup : (addrs (records t.buckets)).Nodup := by
        rw [← Multiset.coe_nodup, ← hfull.order]
        exact hfull.app.nodup
      obtain ⟨m₂, b₂, hdel, hrel, hbuckets⟩ :=
        htable₁.buckets.unlink t.placed hnodup hrec hb
      simp only [hunlink, hhead₁, htbl₁, hholds.hashv, htable₁.buckets.length, hb, hdel,
        Option.bind_some]
      refine ⟨_, some y, rfl, hrel.live.trans hreord.live, hne₁, i, { tm with
        buckets := tm.buckets.set (hashToBkt (hash (keyOf s.record)) t.buckets.length) b₂
        numItems := tm.numItems - 1
        tail := tail₁ }, ?_, ?_, ?_, ?_, ?_, ?_⟩
      · simp only [Memory.setTable, Function.update_self]
      · intro j hj
        simp only [Memory.setTable, Function.update_of_ne hj, hrel.table, hreord.table,
          hfull.only j hj]
      · intro a ha
        change (m₂.elmt a).hh.tbl = some i
        rw [hrel.tbl]
        exact (hreord.tbl a).trans (hfull.tbl a (List.mem_of_mem_erase ha))
      · refine ⟨?_, hfull.table.log2NumBuckets, congrArg (· - 1) hfull.table.numItems,
          hfull.table.idealChainMaxlen, hfull.table.nonidealItems, hfull.table.ineffExpands,
          hfull.table.noexpand, (List.length_modify _ _ _).trans hfull.table.pow⟩
        exact hbuckets.congr (fun _ _ ha => ha) (fun _ _ => rfl) (fun _ _ => rfl) (fun _ _ => rfl)
          fun _ _ => rfl
      · rw [← hhead₁]
        refine happ₁.congr (fun a ha => ?_) (fun a _ => ?_) fun a _ => ?_
        · change a ∈ m₂.live
          rw [hrel.live]
          exact happ₁.live a ha
        · change m₂.app.prev a = _
          rw [hrel.app]
          rfl
        · change m₂.app.next a = _
          rw [hrel.app]
          rfl
      · have hbag : bag (some t) = s ::ₘ bag (hashDeleteOf (some t) s) := bag_hashDeleteOf hs
        simp only [hashDeleteOf, hrec, dif_pos, if_neg hone] at hbag
        have horder := hfull.order
        change _ = Multiset.map Slot.addr (bag (some t)) at horder
        rw [hbag, Multiset.map_cons] at horder
        rw [← Multiset.coe_erase, horder, Multiset.erase_cons_head]
        rfl

/-! ### Writing through a found element -/

omit [DecidableEq ι] in
theorem addrs_updateFirst (p : Slot ι ρ → Bool) (f : ρ → ρ) (ss : List (Slot ι ρ)) :
    addrs (updateFirst p (fun s => { s with record := f s.record }) ss) = addrs ss := by
  induction ss with
  | nil => rfl
  | cons s ss ih =>
    rw [updateFirst]
    split
    · rfl
    · rw [addrs_cons, ih, addrs_cons]

/-- An assignment to a field of a record that is not in its key. -/
theorem HashOf.update [DecidableEq κ] {head : Option ι} {order : List ι}
    {hd : SlotHead ι keyOf hash} (h : HashOf m head order hd) {k : κ} {s : Slot ι ρ}
    (hfind : hashFind hd k = some s) (f : ρ → ρ) (hf : ∀ r, keyOf (f r) = keyOf r) :
    ∃ m', m.write s.addr (fun e => { e with record := f e.record }) = some m' ∧
      m'.live = m.live ∧
      HashOf m' head order
        (hashUpdate hd k (fun s => { s with record := f s.record }) (slotKey_update hf)) := by
  cases hd with
  | none => exact absurd hfind (by simp [hashFind])
  | some t =>
    obtain ⟨hne, i, tm, hfull⟩ := h
    have hrec : s ∈ records t.buckets := (hashFind_eq_some hfind).1
    have hholds := hfull.table.buckets.holds s hrec
    have hsome : (hashFind (some t) k).isSome := by
      rw [hfind]
      rfl
    refine ⟨m.set s.addr { m.elmt s.addr with record := f (m.elmt s.addr).record },
      if_pos hholds.live, rfl, ?_⟩
    -- only the record of the element is written
    have hhh : ∀ b, ((m.set s.addr
        { m.elmt s.addr with record := f (m.elmt s.addr).record }).elmt b).hh = (m.elmt b).hh := by
      intro b
      rw [Memory.set_elmt]
      split
      · rename_i hb
        rw [hb]
      · rfl
    obtain ⟨hplaced, rest, hold, hnew⟩ := records_updateFirst hfind
      (f := fun s => { s with record := f s.record }) (slotKey_update hf)
      (g := fun b => { b with
        hhChain := updateFirst (fun r => slotKey keyOf r = k)
          (fun s => { s with record := f s.record }) b.hhChain }) fun _ => rfl
    have hne' : ∀ s' ∈ rest, s'.addr ≠ s.addr := by
      intro s' hs' heq
      have hnodup : ((s ::ₘ rest).map Slot.addr).Nodup := by
        have horder : (order : Multiset ι) =
            Multiset.map Slot.addr (records t.buckets : Multiset (Slot ι ρ)) := hfull.order
        rw [← hold, ← horder]
        exact Multiset.coe_nodup.mpr hfull.app.nodup
      rw [Multiset.map_cons, Multiset.nodup_cons] at hnodup
      exact hnodup.1 (heq ▸ Multiset.mem_map_of_mem _ hs')
    simp only [hashUpdate, hsome, dif_pos]
    refine ⟨hne, i, tm, hfull.mem, hfull.only, fun a ha => ?_, ?_, ?_, ?_⟩
    · rw [hhh]
      exact hfull.tbl a ha
    · refine ⟨⟨?_, fun j b b' hb hb' => ?_, fun s' hs' => ?_⟩, hfull.table.log2NumBuckets,
        hfull.table.numItems, hfull.table.idealChainMaxlen, hfull.table.nonidealItems,
        hfull.table.ineffExpands, hfull.table.noexpand, ?_⟩
      · rw [List.length_modify]
        exact hfull.table.buckets.length
      · rw [List.getElem?_modify] at hb'
        obtain ⟨c, hc, rfl⟩ := Option.map_eq_some_iff.mp hb'
        have hbucket := hfull.table.buckets.bucket j b c hb hc
        have hlinks : BucketOf (m.set s.addr
            { m.elmt s.addr with record := f (m.elmt s.addr).record }) b c :=
          hbucket.congr (fun s' _ => by simp only [Memory.bkt, hhh])
            fun s' _ => by simp only [Memory.bkt, hhh]
        split
        · have haddrs := addrs_updateFirst (fun r => decide (slotKey keyOf r = k)) f c.hhChain
          refine ⟨?_, hlinks.count, ?_, hlinks.expandMult⟩
          · rw [haddrs]
            exact hlinks.chain
          · have hlen := congrArg List.length haddrs
            rw [addrs, addrs, List.length_map, List.length_map] at hlen
            exact hlinks.length.trans hlen.symm
        · exact hlinks
      · have hmem : s' ∈ ({ s with record := f s.record } : Slot ι ρ) ::ₘ rest := hnew ▸ hs'
        rcases Multiset.mem_cons.mp hmem with rfl | hrest
        · refine ⟨hholds.live, ?_, ?_⟩
          · rw [Memory.set_elmt, if_pos rfl, hholds.record]
          · rw [hhh, hf]
            exact hholds.hashv
        · have hs'rec : s' ∈ (records t.buckets : Multiset (Slot ι ρ)) :=
            hold ▸ Multiset.mem_cons_of_mem hrest
          refine (hfull.table.buckets.holds s' hs'rec).congr
            (hfull.table.buckets.holds s' hs'rec).live ?_ ?_
          · rw [Memory.set_elmt, if_neg (hne' s' hrest)]
          · rw [hhh]
      · rw [List.length_modify]
        exact hfull.table.pow
    · refine hfull.app.congr hfull.app.live (fun a _ => ?_) fun a _ => ?_
      · simp only [Memory.app, hhh]
      · simp only [Memory.app, hhh]
    · have horder : (order : Multiset ι) =
          Multiset.map Slot.addr (records t.buckets : Multiset (Slot ι ρ)) := hfull.order
      rw [horder, hold, Multiset.map_cons]
      exact ((congrArg (Multiset.map Slot.addr) hnew).trans (Multiset.map_cons _ _ _)).symm

/-! ### `HASH_ITER` -/

theorem HashOf.free {head : Option ι} {order : List ι} {hd : SlotHead ι keyOf hash}
    (h : HashOf m head order hd) {a : ι} (hlive : a ∈ m.live) (ha : a ∉ order) :
    ∃ m', m.free a = some m' ∧ m'.live = m.live.erase a ∧ HashOf m' head order hd := by
  refine ⟨_, if_pos hlive, rfl, h.congr (fun b hb => ?_) (fun _ _ => rfl) rfl⟩
  have hne : b ≠ a := fun heq => ha (heq ▸ hb)
  exact (List.mem_erase_of_ne hne).mpr (h.app.live b hb)

theorem AppOf.appNext {head tail : Option ι} {order : List ι} (h : AppOf m head tail order) :
    appNext m order.head? = some order.tail.head? := by
  cases order with
  | nil => rfl
  | cons p ps =>
    rw [List.head?_cons, UTHash.appNext, Memory.read_of_mem (h.live p List.mem_cons_self)]
    exact congrArg some h.chain.2.2.head

/-- The loop frees the elements in the order of insertion, each once, and with
    the last one the table. -/
theorem clearLoop_spec [DecidableEq ρ] (order : List ι) {fuel : Nat} {m : Memory ι ρ}
    {head : Option ι} {hd : SlotHead ι keyOf hash} (h : HashOf m head order hd)
    (hfuel : order.length ≤ fuel) :
    ∃ m', clearLoop fuel m head order.head? order.tail.head? = some (m', none, order) ∧
      m'.live = m.live.diff order ∧ ∀ j, m'.table j = none := by
  induction order generalizing fuel m head hd with
  | nil =>
    cases hd with
    | none =>
      obtain ⟨rfl, -, hnone⟩ := h
      exact ⟨m, by cases fuel <;> rfl, rfl, hnone⟩
    | some t => exact absurd rfl h.1
  | cons p rest ih =>
    cases fuel with
    | zero => exact absurd hfuel (Nat.not_succ_le_zero _)
    | succ fuel =>
      have hp : p ∈ (bag hd).map Slot.addr := h.order_eq ▸ List.mem_cons_self
      obtain ⟨s, hs, rfl⟩ := Multiset.mem_map.mp hp
      have hnotin : s.addr ∉ rest := (List.nodup_cons.mp h.app.nodup).1
      obtain ⟨m₁, head₁, hdel, hlive₁, h₁⟩ := h.delete hs
      rw [List.erase_cons_head] at h₁
      obtain ⟨m₂, hfree, hlive₂, h₂⟩ :=
        h₁.free (hlive₁.symm ▸ h.app.live _ List.mem_cons_self) hnotin
      obtain ⟨m₃, hloop, hlive₃, hnone⟩ := ih h₂ (Nat.le_of_succ_le_succ hfuel)
      refine ⟨m₃, ?_, ?_, hnone⟩
      · -- `tmp` was read before the element was freed, its successor is read now
        simp only [List.head?_cons, List.tail_cons, clearLoop, hdel, hfree, Option.bind_eq_bind,
          Option.bind_some, h₂.app.appNext, hloop]
        rfl
      · rw [hlive₃, hlive₂, hlive₁, List.diff_cons]

/-- **Emptying a hash**: every element is freed once, in the order of insertion. -/
theorem HashOf.clear [DecidableEq ρ] {head : Option ι} {order : List ι}
    {hd : SlotHead ι keyOf hash} (h : HashOf m head order hd) :
    ∃ m', clear m head = some (m', none, order) ∧ m'.live = m.live.diff order ∧
      ∀ j, m'.table j = none := by
  have happ := h.app
  obtain ⟨m', hloop, hlive, hnone⟩ := clearLoop_spec order h (length_le_live happ.nodup happ.live)
  refine ⟨m', ?_, hlive, hnone⟩
  have hhead : head = order.head? := happ.chain.head
  rw [← hhead] at hloop
  have hnext := happ.appNext
  rw [← hhead] at hnext
  simp only [UTHash.clear, hnext, Option.bind_eq_bind, Option.bind_some, hloop]

end Remove

end UTHash
