/-
  MiddleboxSession/UTHeap.lean
  ============================
  **A program with one hash**: the head pointer, the memory, and the allocator.

  The operations are those that every user of `uthash.h` here writes around the
  macros: allocate an element, fill it in and add it; find an element and read
  it, assign to it, or delete and free it; free all of them.  The allocator may
  return any address that is not in use, an old one as well.

  `Owns h hd`: the memory holds the table of slots `hd`, and nothing else is
  allocated.  `Refines h t` forgets where the records are.
-/
import MiddleboxSession.UTRemove

namespace UTHash

structure HashMem (ι ρ : Type) where
  mem : Memory ι ρ
  head : Option ι
  allocs : Nat

namespace HashMem

/-- An allocator: the address after all those in use. -/
def bump (_ : Nat) (live : List Nat) : Nat := live.sum + 1

theorem bump_notMem (n : Nat) (live : List Nat) : bump n live ∉ live := by
  intro hmem
  have hle : bump n live ≤ live.sum := List.single_le_sum (fun _ _ => Nat.zero_le _) _ hmem
  exact Nat.not_succ_le_self _ hle

section Operations

variable {ι κ ρ : Type} [DecidableEq ι] [DecidableEq κ] (keyOf : ρ → κ) (hash : κ → BitVec 32)
  (addr : Nat → List ι → ι)

/-- Allocate an element, fill it in, `HASH_ADD`. -/
def insert (h : HashMem ι ρ) (fill : Elmt ι ρ → Elmt ι ρ) : Option (HashMem ι ρ) := do
  let a := addr h.allocs h.mem.live
  let m ← (h.mem.alloc a).write a fill
  let (m, head) ← memAdd keyOf hash m h.head a
  pure ⟨m, some head, h.allocs + 1⟩

/-- `HASH_FIND`, and the record it points to. -/
def lookup (h : HashMem ι ρ) (k : κ) : Option (Option ρ) := do
  match ← memFind keyOf hash h.mem h.head k with
  | none => pure none
  | some p => do
    let e ← h.mem.read p
    pure (some e.record)

/-- `HASH_FIND`, and an assignment if there is an element. -/
def assign (h : HashMem ι ρ) (k : κ) (f : ρ → ρ) : Option (HashMem ι ρ) := do
  match ← memFind keyOf hash h.mem h.head k with
  | none => pure h
  | some p => do
    let m ← h.mem.write p fun e => { e with record := f e.record }
    pure { h with mem := m }

/-- `HASH_FIND`, and `HASH_DEL` and a `free` if there is an element. -/
def remove (h : HashMem ι ρ) (k : κ) : Option (HashMem ι ρ) := do
  match ← memFind keyOf hash h.mem h.head k with
  | none => pure h
  | some p => do
    let (m, head) ← memDelete h.mem h.head p
    let m ← m.free p
    pure { h with mem := m, head := head }

/-- Free all elements; how many there were. -/
def clear (h : HashMem ι ρ) : Option (HashMem ι ρ × Nat) := do
  let (m, head, freed) ← UTHash.clear h.mem h.head
  pure ({ h with mem := m, head := head }, freed.length)

end Operations

section Refine

variable {ι κ ρ : Type} {keyOf : ρ → κ} {hash : κ → BitVec 32}

def records (hd : SlotHead ι keyOf hash) : Head keyOf hash :=
  Head.map Slot.record keyOf_record hd

theorem records_hashAdd (hd : SlotHead ι keyOf hash) (s : Slot ι ρ) :
    records (hashAdd hd s) = hashAdd (records hd) s.record :=
  (hashAdd_map Slot.record keyOf_record hd s).symm

theorem find_records [DecidableEq κ] (hd : SlotHead ι keyOf hash) (k : κ) :
    hashFind (records hd) k = (hashFind hd k).map Slot.record :=
  hashFind_map Slot.record keyOf_record hd k

theorem records_hashUpdate [DecidableEq κ] (hd : SlotHead ι keyOf hash) (k : κ) {f : ρ → ρ}
    (hf : ∀ r, keyOf (f r) = keyOf r) :
    records (hashUpdate hd k (fun s => { s with record := f s.record }) (slotKey_update hf)) =
      hashUpdate (records hd) k f hf :=
  (hashUpdate_map Slot.record keyOf_record hd k (slotKey_update hf) hf fun _ => rfl).symm

theorem records_hashDelete [DecidableEq κ] (hd : SlotHead ι keyOf hash) (k : κ) :
    records (hashDelete hd k) = hashDelete (records hd) k :=
  (hashDelete_map Slot.record keyOf_record hd k).symm

theorem bag_records (hd : SlotHead ι keyOf hash) :
    bag (records hd) = (bag hd).map Slot.record := bag_map Slot.record keyOf_record hd

/-- The memory holds the table of slots, and nothing else is allocated. -/
def Owns (h : HashMem ι ρ) (hd : SlotHead ι keyOf hash) : Prop :=
  ∃ order, HashOf h.mem h.head order hd ∧ h.mem.live.Perm order

def Refines (h : HashMem ι ρ) (t : Head keyOf hash) : Prop :=
  ∃ hd : SlotHead ι keyOf hash, h.Owns hd ∧ records hd = t

/-- Nothing is allocated. -/
structure Empty (h : HashMem ι ρ) : Prop where
  live : h.mem.live = []
  table : ∀ j, h.mem.table j = none
  head : h.head = none

/-- A program that has not allocated anything, in a memory that holds `e` everywhere. -/
def fresh (e : Elmt ι ρ) : HashMem ι ρ := ⟨⟨[], fun _ => e, 0, fun _ => none⟩, none, 0⟩

theorem empty_fresh (e : Elmt ι ρ) : (fresh e).Empty := ⟨rfl, fun _ => rfl, rfl⟩

variable {h : HashMem ι ρ} {hd : SlotHead ι keyOf hash} {t : Head keyOf hash}

theorem Empty.refines (he : h.Empty) : h.Refines (none : Head keyOf hash) :=
  ⟨none, ⟨[], ⟨he.head, rfl, he.table⟩, he.live ▸ List.Perm.refl _⟩, rfl⟩

variable [DecidableEq ι]

/-- What a pointer to an element reads. -/
theorem Owns.read (ho : h.Owns hd) {s : Slot ι ρ} (hs : s ∈ bag hd) :
    (h.mem.read s.addr).map Elmt.record = some s.record := by
  obtain ⟨order, hof, -⟩ := ho
  have hholds := hof.holds hs
  rw [Memory.read_of_mem hholds.live, Option.map_some, hholds.record]

theorem Owns.insert {addr : Nat → List ι → ι} (hfresh : ∀ n live, addr n live ∉ live)
    (ho : h.Owns hd) {fill : Elmt ι ρ → Elmt ι ρ} {item : ρ} (hfill : ∀ e, (fill e).record = item) :
    ∃ h' a, h.insert keyOf hash addr fill = some h' ∧ h'.Owns (hashAdd hd ⟨a, item⟩) := by
  obtain ⟨order, hof, hperm⟩ := ho
  have hnew : addr h.allocs h.mem.live ∉ h.mem.live := hfresh _ _
  generalize haddr : addr h.allocs h.mem.live = a at hnew
  have hnotin : a ∉ order := fun hmem => hnew (hperm.mem_iff.mpr hmem)
  have hlive : a ∈ (h.mem.alloc a).live := List.mem_cons_self
  have hof₁ : HashOf ((h.mem.alloc a).set a (fill ((h.mem.alloc a).elmt a))) h.head order hd := by
    refine hof.congr (fun b hb => ?_) (fun b hb => ?_) rfl
    · exact List.mem_cons_of_mem _ (hperm.mem_iff.mpr hb)
    · have hne : b ≠ a := fun heq => hnotin (heq ▸ hb)
      rw [Memory.set_elmt, if_neg hne]
      rfl
  have hrecord : (((h.mem.alloc a).set a (fill ((h.mem.alloc a).elmt a))).elmt a).record = item := by
    rw [Memory.set_elmt, if_pos rfl, hfill]
  obtain ⟨m', head', hadd, hlive', hof'⟩ := hof₁.add hlive hnotin
  rw [hrecord] at hof'
  refine ⟨⟨m', some head', h.allocs + 1⟩, a, ?_, order ++ [a], hof', ?_⟩
  · have hwrite : (h.mem.alloc a).write a fill =
        some ((h.mem.alloc a).set a (fill ((h.mem.alloc a).elmt a))) := if_pos hlive
    simp only [HashMem.insert, haddr, hwrite, hadd, Option.bind_eq_bind, Option.bind_some]
    rfl
  · rw [hlive']
    exact (hperm.cons a).trans (List.perm_append_singleton a order).symm

variable [DecidableEq κ]

theorem Owns.find (ho : h.Owns hd) (k : κ) :
    memFind keyOf hash h.mem h.head k = some ((hashFind hd k).map Slot.addr) := by
  obtain ⟨order, hof, -⟩ := ho
  exact hof.find k

theorem Owns.assign (ho : h.Owns hd) (k : κ) {f : ρ → ρ} (hf : ∀ r, keyOf (f r) = keyOf r) :
    ∃ h', h.assign keyOf hash k f = some h' ∧
      h'.Owns (hashUpdate hd k (fun s => { s with record := f s.record }) (slotKey_update hf)) := by
  have hfindMem := ho.find k
  cases hfind : hashFind hd k with
  | none =>
    refine ⟨h, ?_, ?_⟩
    · rw [HashMem.assign, hfindMem, hfind]
      rfl
    · rw [hashUpdate_of_none hfind]
      exact ho
  | some s =>
    obtain ⟨order, hof, hperm⟩ := ho
    obtain ⟨m', hwrite, hlive, hof'⟩ := hof.update hfind f hf
    refine ⟨{ h with mem := m' }, ?_, order, hof', hlive.symm ▸ hperm⟩
    rw [HashMem.assign, hfindMem, hfind]
    simp only [Option.map_some, Option.bind_eq_bind, Option.bind_some, hwrite]
    rfl

theorem Owns.remove [DecidableEq ρ] (ho : h.Owns hd) (k : κ) :
    ∃ h', h.remove keyOf hash k = some h' ∧ h'.Owns (hashDelete hd k) := by
  have hfindMem := ho.find k
  cases hfind : hashFind hd k with
  | none =>
    refine ⟨h, ?_, ?_⟩
    · rw [HashMem.remove, hfindMem, hfind]
      rfl
    · rw [hashDelete_of_none hfind]
      exact ho
  | some s =>
    obtain ⟨order, hof, hperm⟩ := ho
    have hs : s ∈ bag hd := (hashFind_eq_some hfind).1
    have hmem : s.addr ∈ order := by
      rw [← Multiset.mem_coe, hof.order_eq]
      exact Multiset.mem_map_of_mem _ hs
    obtain ⟨m₁, head₁, hdel, hlive₁, hof₁⟩ := hof.delete hs
    obtain ⟨m₂, hfree, hlive₂, hof₂⟩ := hof₁.free (hlive₁.symm ▸ hof.app.live _ hmem)
      fun hin => (List.Nodup.mem_erase_iff hof.app.nodup).mp hin |>.1 rfl
    refine ⟨{ h with mem := m₂, head := head₁ }, ?_, order.erase s.addr, ?_, ?_⟩
    · rw [HashMem.remove, hfindMem, hfind]
      simp only [Option.map_some, Option.bind_eq_bind, Option.bind_some, hdel, hfree]
      rfl
    · rw [hashDeleteOf_find hfind] at hof₂
      exact hof₂
    · rw [hlive₂, hlive₁]
      exact hperm.erase s.addr

/-! ### Elements that stay -/

/-- Every element of `hd` is still one of `hd'`, with the same key. -/
def Kept (hd hd' : SlotHead ι keyOf hash) : Prop :=
  ∀ s ∈ bag hd, ∃ s' ∈ bag hd', s'.addr = s.addr ∧ slotKey keyOf s' = slotKey keyOf s

omit [DecidableEq ι] [DecidableEq κ] in
theorem Kept.refl (hd : SlotHead ι keyOf hash) : Kept hd hd := fun s hs => ⟨s, hs, rfl, rfl⟩

omit [DecidableEq ι] [DecidableEq κ] in
theorem Kept.trans {hd₁ hd₂ hd₃ : SlotHead ι keyOf hash} (h : Kept hd₁ hd₂) (h' : Kept hd₂ hd₃) :
    Kept hd₁ hd₃ := by
  intro s hs
  obtain ⟨s', hs', haddr, hkey⟩ := h s hs
  obtain ⟨s'', hs'', haddr', hkey'⟩ := h' s' hs'
  exact ⟨s'', hs'', haddr'.trans haddr, hkey'.trans hkey⟩

omit [DecidableEq ι] [DecidableEq κ] in
theorem kept_hashAdd (hd : SlotHead ι keyOf hash) (s : Slot ι ρ) : Kept hd (hashAdd hd s) := by
  intro s' hs'
  exact ⟨s', by rw [bag_hashAdd]; exact Multiset.mem_cons_of_mem hs', rfl, rfl⟩

omit [DecidableEq ι] in
theorem kept_hashUpdate (hd : SlotHead ι keyOf hash) (k : κ) {f : ρ → ρ}
    (hf : ∀ r, keyOf (f r) = keyOf r) :
    Kept hd (hashUpdate hd k (fun s => { s with record := f s.record }) (slotKey_update hf)) := by
  cases hfind : hashFind hd k with
  | none =>
    rw [hashUpdate_of_none hfind]
    exact Kept.refl hd
  | some s =>
    obtain ⟨rest, hold, hnew⟩ := bag_hashUpdate hfind
      (fun s => { s with record := f s.record }) (slotKey_update hf)
    intro s' hs'
    rw [hold] at hs'
    rcases Multiset.mem_cons.mp hs' with rfl | hmem
    · refine ⟨{ s' with record := f s'.record }, ?_, rfl, hf s'.record⟩
      rw [hnew]
      exact Multiset.mem_cons_self _ _
    · exact ⟨s', by rw [hnew]; exact Multiset.mem_cons_of_mem hmem, rfl, rfl⟩

/-! ### The same for the records -/

omit [DecidableEq κ] in
theorem Refines.fsck (hr : h.Refines t) : fsck h.mem h.head = some () := by
  obtain ⟨hd, ⟨order, hof, -⟩, -⟩ := hr
  exact hof.fsck

omit [DecidableEq κ] in
theorem Refines.insert {addr : Nat → List ι → ι} (hfresh : ∀ n live, addr n live ∉ live)
    (hr : h.Refines t) {fill : Elmt ι ρ → Elmt ι ρ} {item : ρ} (hfill : ∀ e, (fill e).record = item) :
    ∃ h', h.insert keyOf hash addr fill = some h' ∧ h'.Refines (hashAdd t item) := by
  obtain ⟨hd, ho, rfl⟩ := hr
  obtain ⟨h', a, hh', ho'⟩ := ho.insert hfresh hfill
  exact ⟨h', hh', _, ho', records_hashAdd hd ⟨a, item⟩⟩

theorem Refines.lookup (hr : h.Refines t) (k : κ) :
    h.lookup keyOf hash k = some (hashFind t k) := by
  obtain ⟨hd, ho, rfl⟩ := hr
  rw [find_records, HashMem.lookup, ho.find k]
  cases hfind : hashFind hd k with
  | none => rfl
  | some s =>
    obtain ⟨e, he, hrec⟩ := Option.map_eq_some_iff.mp (ho.read (hashFind_eq_some hfind).1)
    simp only [Option.map_some, Option.bind_eq_bind, Option.bind_some, he, hrec]
    rfl

theorem Refines.assign (hr : h.Refines t) (k : κ) {f : ρ → ρ} (hf : ∀ r, keyOf (f r) = keyOf r) :
    ∃ h', h.assign keyOf hash k f = some h' ∧ h'.Refines (hashUpdate t k f hf) := by
  obtain ⟨hd, ho, rfl⟩ := hr
  obtain ⟨h', hh', ho'⟩ := ho.assign k hf
  exact ⟨h', hh', _, ho', records_hashUpdate hd k hf⟩

variable [DecidableEq ρ]

theorem Refines.remove (hr : h.Refines t) (k : κ) :
    ∃ h', h.remove keyOf hash k = some h' ∧ h'.Refines (hashDelete t k) := by
  obtain ⟨hd, ho, rfl⟩ := hr
  obtain ⟨h', hh', ho'⟩ := ho.remove k
  exact ⟨h', hh', _, ho', records_hashDelete hd k⟩

omit [DecidableEq κ] in
/-- All elements are freed, and with the last one the table. -/
theorem Refines.clear (hr : h.Refines t) :
    ∃ h', h.clear = some (h', (bag t).card) ∧ h'.Empty := by
  obtain ⟨hd, ⟨order, hof, hperm⟩, rfl⟩ := hr
  obtain ⟨m', hclear, hlive, hnone⟩ := hof.clear
  refine ⟨{ h with mem := m', head := none }, ?_, ?_, hnone, rfl⟩
  · have hcard := congrArg Multiset.card hof.order_eq
    rw [Multiset.coe_card, Multiset.card_map] at hcard
    rw [bag_records, Multiset.card_map, ← hcard]
    simp only [HashMem.clear, hclear, Option.bind_eq_bind, Option.bind_some]
    rfl
  · rw [hlive]
    apply (Multiset.coe_eq_zero _).mp
    rw [← Multiset.coe_sub, Multiset.coe_eq_coe.mpr hperm, tsub_self]

end Refine

end HashMem

end UTHash
