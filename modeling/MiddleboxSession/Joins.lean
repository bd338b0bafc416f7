/-
  MiddleboxSession/Joins.lean
  ===========================
  **Machines whose inputs are joins.**

  A machine with a total step function whose state can be seen in a semilattice
  so that every input joins a value of its own to it (`Joining`).  What it has
  come to after a sequence of inputs is the least upper bound of where it began
  and of the values of the inputs.  So the order and the repetitions of the
  inputs do not matter (`Joining.foldl_congr`), and what has been an input once
  adds nothing later (`Joining.le_foldl`).
-/
import Mathlib.Order.Lattice

namespace Joins

variable {σ α L : Type*} [SemilatticeSup L]

/-- In the states of `I` the inputs of `P` are joins, as far as `view` shows. -/
structure Joining (step : σ → α → σ) (I : σ → Prop) (P : α → Prop) (view : σ → L)
    (val : α → L) : Prop where
  keeps : ∀ s a, I s → P a → I (step s a)
  join : ∀ s a, I s → P a → view (step s a) = view s ⊔ val a

section Folds

variable {step : σ → α → σ} {I : σ → Prop} {P : α → Prop} {view : σ → L} {val : α → L} {s : σ}
  {xs ys : List α}

theorem Joining.foldl_keeps (h : Joining step I P view val) (hs : I s) (hxs : ∀ a ∈ xs, P a) :
    I (xs.foldl step s) := by
  induction xs generalizing s with
  | nil => exact hs
  | cons a xs ih =>
    rw [List.forall_mem_cons] at hxs
    exact ih (h.keeps s a hs hxs.1) hxs.2

/-- A sequence of inputs leads to a least upper bound. -/
theorem Joining.foldl_le_iff (h : Joining step I P view val) (hs : I s) (hxs : ∀ a ∈ xs, P a)
    {b : L} : view (xs.foldl step s) ≤ b ↔ view s ≤ b ∧ ∀ a ∈ xs, val a ≤ b := by
  induction xs generalizing s with
  | nil => simp
  | cons a xs ih =>
    rw [List.forall_mem_cons] at hxs
    rw [List.foldl_cons, ih (h.keeps s a hs hxs.1) hxs.2, h.join s a hs hxs.1, sup_le_iff,
      List.forall_mem_cons, and_assoc]

/-- Sequences of inputs with the same values lead to the same view. -/
theorem Joining.foldl_congr (h : Joining step I P view val) (hs : I s) (hxs : ∀ a ∈ xs, P a)
    (hys : ∀ a ∈ ys, P a) (hsame : ∀ l, (∃ a ∈ xs, val a = l) ↔ ∃ a ∈ ys, val a = l) :
    view (xs.foldl step s) = view (ys.foldl step s) := by
  apply eq_of_forall_ge_iff
  intro b
  have hall : (∀ a ∈ xs, val a ≤ b) ↔ ∀ a ∈ ys, val a ≤ b := by
    constructor
    · intro hx a ha
      obtain ⟨a', ha', heq⟩ := (hsame (val a)).mpr ⟨a, ha, rfl⟩
      exact heq ▸ hx a' ha'
    · intro hy a ha
      obtain ⟨a', ha', heq⟩ := (hsame (val a)).mp ⟨a, ha, rfl⟩
      exact heq ▸ hy a' ha'
  rw [h.foldl_le_iff hs hxs, h.foldl_le_iff hs hys, hall]

theorem Joining.le_foldl (h : Joining step I P view val) (hs : I s) (hxs : ∀ a ∈ xs, P a)
    {a : α} (ha : a ∈ xs) : val a ≤ view (xs.foldl step s) :=
  ((h.foldl_le_iff hs hxs).mp le_rfl).2 a ha

end Folds

/-- Inputs that each leave a state alone leave it alone together. -/
theorem foldl_eq_self {step : σ → α → σ} {s : σ} {xs : List α} (h : ∀ a ∈ xs, step s a = s) :
    xs.foldl step s = s := by
  induction xs with
  | nil => rfl
  | cons a xs ih =>
    rw [List.forall_mem_cons] at h
    rw [List.foldl_cons, h.1, ih h.2]

end Joins
