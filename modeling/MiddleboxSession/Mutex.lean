/-
  MiddleboxSession/Mutex.lean
  ===========================
  **A mutex and the threads that hold it.**

  `lock` is the owner that the mutex has; `holds t` says that thread `t` is
  between its lock and its unlock operation.  While every step is a `Move`, the
  two agree: a thread that holds the mutex is its owner, and nobody else is.
-/
import Mathlib.Logic.Basic

namespace Mutex

variable {τ : Type*}

def OwnedBy (lock : Option τ) (holds : τ → Prop) : Prop :=
  ∀ t, holds t ↔ lock = some t

/-- What a step of thread `t` may do to the mutex. -/
inductive Move (t : τ) (lock : Option τ) (holds : τ → Prop) (lock' : Option τ)
    (holds' : τ → Prop) : Prop
  | keep (hlock : lock' = lock) (hholds : holds' t ↔ holds t)
  | acquire (hfree : lock = none) (hlock : lock' = some t) (hholds : holds' t)
  | release (hheld : holds t) (hlock : lock' = none) (hholds : ¬ holds' t)

variable {lock lock' : Option τ} {holds holds' : τ → Prop} {t u : τ}

theorem OwnedBy.exclusive (h : OwnedBy lock holds) (ht : holds t) (hu : holds u) : t = u :=
  Option.some.inj (((h t).mp ht).symm.trans ((h u).mp hu))

/-- **Ownership is kept** by every move of one thread that leaves the others where
    they are. -/
theorem OwnedBy.move (h : OwnedBy lock holds) (hmove : Move t lock holds lock' holds')
    (hframe : ∀ u, u ≠ t → (holds' u ↔ holds u)) : OwnedBy lock' holds' := by
  intro u
  cases hmove with
  | keep hlock hholds =>
    rw [hlock, ← h u]
    by_cases hu : u = t
    · rw [hu]
      exact hholds
    · exact hframe u hu
  | acquire hfree hlock hholds =>
    rw [hlock, Option.some_inj]
    by_cases hu : u = t
    · exact iff_of_true (hu ▸ hholds) hu.symm
    · rw [hframe u hu, h u, hfree]
      exact iff_of_false (by simp) (Ne.symm hu)
  | release hheld hlock hholds =>
    rw [hlock]
    by_cases hu : u = t
    · exact iff_of_false (hu ▸ hholds) (by simp)
    · rw [hframe u hu]
      exact iff_of_false (fun hholds => hu (h.exclusive hholds hheld)) (by simp)

end Mutex
