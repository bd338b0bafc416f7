/-
  MiddleboxSession/Links.lean
  ===========================
  **Doubly linked lists in a store**, over any type of nodes.

  The two link fields of all nodes are functions (`Fields`); a store may thread
  any number of lists through the same fields.  `Seg f p h xs e` says that from
  `h` on the nodes `xs` are linked in this order, `p` in front of them and `e`
  behind them; a whole list is a `Chain`.

  Each operation of such lists is a lemma about fields that agree with the old
  ones but for the links that it writes: a node pushed in front
  (`Chain.push`), one put behind the last (`Chain.append`), one taken out
  (`Chain.unlink`).  Lists without the written nodes stay (`Seg.congr`).
-/
import Mathlib.Data.List.Basic
import Mathlib.Data.List.Nodup
import Mathlib.Tactic

namespace Links

variable {ι : Type*}

/-- The link fields of all nodes. -/
structure Fields (ι : Type*) where
  prev : ι → Option ι
  next : ι → Option ι

/-- The last of the nodes, or what is in front of them. -/
def lastOr : Option ι → List ι → Option ι
  | p, [] => p
  | _, x :: xs => lastOr (some x) xs

@[simp] theorem lastOr_nil (p : Option ι) : lastOr p [] = p := rfl

@[simp] theorem lastOr_concat (p : Option ι) (xs : List ι) (x : ι) :
    lastOr p (xs ++ [x]) = some x := by
  induction xs generalizing p with
  | nil => rfl
  | cons y ys ih => exact ih (some y)

theorem lastOr_none (xs : List ι) : lastOr none xs = xs.getLast? := by
  rcases List.eq_nil_or_concat xs with rfl | ⟨ys, y, rfl⟩
  · rfl
  · rw [List.concat_eq_append, lastOr_concat, List.getLast?_concat]

theorem lastOr_none_eq_none {xs : List ι} : lastOr none xs = none ↔ xs = [] := by
  rw [lastOr_none, List.getLast?_eq_none_iff]

/-- From `h` on the nodes `xs` are linked, `p` in front of them, `e` behind them. -/
def Seg (f : Fields ι) : Option ι → Option ι → List ι → Option ι → Prop
  | _, h, [], e => h = e
  | p, h, x :: xs, e => h = some x ∧ f.prev x = p ∧ Seg f (some x) (f.next x) xs e

/-- A whole list. -/
abbrev Chain (f : Fields ι) (h : Option ι) (xs : List ι) : Prop := Seg f none h xs none

variable {f g : Fields ι} {p h e : Option ι} {xs ys : List ι} {x y : ι}

theorem Seg.congr (hf : Seg f p h xs e) (hprev : ∀ x ∈ xs, g.prev x = f.prev x)
    (hnext : ∀ x ∈ xs, g.next x = f.next x) : Seg g p h xs e := by
  induction xs generalizing p h with
  | nil => exact hf
  | cons x xs ih =>
    obtain ⟨hh, hp, hrest⟩ := hf
    refine ⟨hh, (hprev x List.mem_cons_self).trans hp, ?_⟩
    rw [hnext x List.mem_cons_self]
    exact ih hrest (fun y hy => hprev y (List.mem_cons_of_mem _ hy))
      fun y hy => hnext y (List.mem_cons_of_mem _ hy)

theorem seg_append : Seg f p h (xs ++ ys) e ↔
    ∃ m, Seg f p h xs m ∧ Seg f (lastOr p xs) m ys e := by
  induction xs generalizing p h with
  | nil => simp [Seg]
  | cons x xs ih =>
    simp only [List.cons_append, Seg, ih, lastOr]
    constructor
    · rintro ⟨hh, hp, m, hxs, hys⟩
      exact ⟨m, ⟨hh, hp, hxs⟩, hys⟩
    · rintro ⟨m, ⟨hh, hp, hxs⟩, hys⟩
      exact ⟨hh, hp, m, hxs, hys⟩

theorem Seg.head (hf : Seg f p h xs none) : h = xs.head? := by
  cases xs with
  | nil => exact hf
  | cons x xs => exact hf.1

/-- The links of a node in the middle of a list. -/
theorem Seg.links (hf : Seg f p h (xs ++ x :: ys) none) :
    f.prev x = lastOr p xs ∧ f.next x = ys.head? := by
  obtain ⟨m, -, -, hprev, hys⟩ := seg_append.mp hf
  exact ⟨hprev, hys.head⟩

/-- The head is the node with nothing in front of it. -/
theorem Chain.head_iff (hf : Chain f h (xs ++ x :: ys)) (hnodup : (xs ++ x :: ys).Nodup) :
    h = some x ↔ f.prev x = none := by
  rw [hf.head, hf.links.1, lastOr_none_eq_none]
  cases xs with
  | nil => simp
  | cons y ys =>
    have hne : y ≠ x := fun heq => (List.nodup_cons.mp hnodup).1 (heq ▸ by simp)
    simp [hne]

/-- Another node in front of a segment. -/
theorem Seg.reprev (hf : Seg f p h xs e) {q : Option ι}
    (hhead : ∀ x ∈ xs.head?, g.prev x = q) (hprev : ∀ x ∈ xs.tail, g.prev x = f.prev x)
    (hnext : ∀ x ∈ xs, g.next x = f.next x) : Seg g q h xs e := by
  cases xs with
  | nil => exact hf
  | cons x xs =>
    obtain ⟨hh, -, hrest⟩ := hf
    refine ⟨hh, hhead x rfl, ?_⟩
    rw [hnext x List.mem_cons_self]
    exact hrest.congr hprev fun y hy => hnext y (List.mem_cons_of_mem _ hy)

/-- Another node behind a segment. -/
theorem Seg.reend (hf : Seg f p h (xs ++ [x]) e) {e' : Option ι}
    (hprev : ∀ y ∈ xs ++ [x], g.prev y = f.prev y) (hnext : ∀ y ∈ xs, g.next y = f.next y)
    (hlast : g.next x = e') : Seg g p h (xs ++ [x]) e' := by
  obtain ⟨m, hxs, hm, hp, -⟩ := seg_append.mp hf
  refine seg_append.mpr ⟨m, ?_, hm, ?_, hlast⟩
  · exact hxs.congr (fun y hy => hprev y (List.mem_append_left _ hy)) hnext
  · exact (hprev x (by simp)).trans hp

/-! ### Operations -/

/-- A node pushed in front of a list. -/
theorem Chain.push (hf : Chain f h xs) (hx : g.prev x = none ∧ g.next x = h)
    (hhead : ∀ y ∈ xs.head?, g.prev y = some x) (hprev : ∀ y ∈ xs.tail, g.prev y = f.prev y)
    (hnext : ∀ y ∈ xs, g.next y = f.next y) : Chain g (some x) (x :: xs) := by
  refine ⟨rfl, hx.1, ?_⟩
  rw [hx.2]
  exact hf.reprev hhead hprev hnext

/-- A node put behind the last one of a list. -/
theorem Chain.append (hf : Chain f h (xs ++ [y])) (hx : g.prev x = some y ∧ g.next x = none)
    (hprev : ∀ z ∈ xs ++ [y], g.prev z = f.prev z) (hnext : ∀ z ∈ xs, g.next z = f.next z)
    (hlast : g.next y = some x) : Chain g h (xs ++ [y] ++ [x]) := by
  refine seg_append.mpr ⟨some x, hf.reend hprev hnext hlast, rfl, ?_, hx.2⟩
  rw [hx.1, lastOr_concat]

/-- A node taken out of a list: its neighbours, or the head, get its links. -/
theorem Chain.unlink [DecidableEq ι] (hf : Chain f h (xs ++ x :: ys))
    (hnodup : (xs ++ x :: ys).Nodup)
    (hnext : ∀ z ∈ xs ++ ys, g.next z = if f.prev x = some z then f.next x else f.next z)
    (hprev : ∀ z ∈ xs ++ ys, g.prev z = if f.next x = some z then f.prev x else f.prev z) :
    Chain g (if f.prev x = none then f.next x else h) (xs ++ ys) := by
  obtain ⟨hpx, hnx⟩ := hf.links
  obtain ⟨m, hxs, hm, -, hys⟩ := seg_append.mp hf
  have hdisj : ∀ z ∈ xs, ∀ w ∈ ys, z ≠ w := by
    intro z hz w hw
    exact (List.nodup_append.mp hnodup).2.2 z hz w (List.mem_cons_of_mem _ hw)
  have hysNodup : ys.Nodup := ((List.nodup_append.mp hnodup).2.1).of_cons
  have hxsNodup : xs.Nodup := (List.nodup_append.mp hnodup).1
  -- behind the node
  have htail : Seg g (lastOr none xs) ys.head? ys none := by
    rw [hnx] at hys
    refine hys.reprev (fun z hz => ?_) (fun z hz => ?_) fun z hz => ?_
    · rw [hprev z (List.mem_append_right _ (List.mem_of_mem_head? hz)), hnx,
        if_pos (Option.mem_def.mp hz), hpx]
    · have hmem := List.mem_of_mem_tail hz
      rw [hprev z (List.mem_append_right _ hmem), hnx, if_neg]
      intro hhead
      cases ys with
      | nil => cases hz
      | cons w ws =>
        obtain rfl : w = z := Option.some.inj hhead
        exact (List.nodup_cons.mp hysNodup).1 hz
    · rw [hnext z (List.mem_append_right _ hz), hpx, if_neg]
      intro hlast
      rcases List.eq_nil_or_concat xs with rfl | ⟨zs, w, rfl⟩
      · cases hlast
      · rw [List.concat_eq_append, lastOr_concat] at hlast
        exact hdisj w (by simp) z hz (Option.some.inj hlast)
  rw [hnx, hpx]
  rcases List.eq_nil_or_concat xs with rfl | ⟨zs, w, rfl⟩
  · exact htail
  · -- in front of the node
    rw [List.concat_eq_append] at *
    rw [lastOr_concat, if_neg (by simp)]
    refine seg_append.mpr ⟨ys.head?, ?_, htail⟩
    refine hxs.reend (fun z hz => ?_) (fun z hz => ?_) ?_
    · rw [hprev z (List.mem_append_left _ hz), hnx, if_neg]
      intro hhead
      exact hdisj z hz z (List.mem_of_mem_head? hhead) rfl
    · rw [hnext z (List.mem_append_left _ (List.mem_append_left _ hz)), hpx, lastOr_concat, if_neg]
      intro hw
      have hne := (List.nodup_append.mp hxsNodup).2.2 z hz w (List.mem_singleton_self w)
      exact hne (Option.some.inj hw).symm
    · rw [hnext w (List.mem_append_left _ (by simp)), hpx, lastOr_concat, if_pos rfl, hnx]

end Links
