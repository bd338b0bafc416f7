/-
  MiddleboxSession/Runs.lean
  ==========================
  **Runs of a labelled machine.**

  A machine is a partial step function `step : σ → α → Option σ`: the label
  names everything that the environment chooses, and `none` says that the
  label is not enabled.  A run is a list of labels.  The file packages the
  inductions that the proofs over such a machine need, once each:

    * `Reachable.invariant`: what holds initially and is kept by every step
      holds in every reachable state;
    * `Along.invariant`: the same for the runs whose every step meets a
      guard on the state before it;
    * `throughout_iff_along`: a property holds throughout a run exactly when
      all its steps meet a guard, if the steps that do not meet it break the
      property;
    * `run_potential`: what the steps of a run cost is paid by a potential;
    * `Leads.exists_rest`: steps that make a measure smaller come to rest;
    * `Lockstep`: a machine that might fault and does not, because it is related
      to one that cannot.

  A history is a list of events, the latest first; `Always Q` says that every
  event of it is in order with respect to its past.
-/
import Mathlib.Algebra.GroupWithZero.Nat
import Mathlib.Data.List.Basic

namespace Runs

variable {σ α : Type*}

/-! ### Runs -/

def run (step : σ → α → Option σ) (s : σ) : List α → Option σ
  | [] => some s
  | a :: as => (step s a).bind fun s' => run step s' as

@[simp] theorem run_nil (step : σ → α → Option σ) (s : σ) : run step s [] = some s := rfl

theorem run_cons_eq_some {step : σ → α → Option σ} {s t : σ} {a : α} {as : List α} :
    run step s (a :: as) = some t ↔ ∃ s', step s a = some s' ∧ run step s' as = some t := by
  simp [run, Option.bind_eq_some_iff]

theorem run_append (step : σ → α → Option σ) (s : σ) (as bs : List α) :
    run step s (as ++ bs) = (run step s as).bind fun s' => run step s' bs := by
  induction as generalizing s with
  | nil => rfl
  | cons a as ih =>
    simp only [List.cons_append, run, ih]
    cases step s a <;> rfl

theorem run_concat {step : σ → α → Option σ} {s t u : σ} {as : List α} {a : α}
    (has : run step s as = some t) (hstep : step t a = some u) :
    run step s (as ++ [a]) = some u := by
  rw [run_append, has, Option.bind_some, run, hstep]
  rfl

def Reachable (step : σ → α → Option σ) (s t : σ) : Prop :=
  ∃ as, run step s as = some t

theorem Reachable.refl (step : σ → α → Option σ) (s : σ) : Reachable step s s :=
  ⟨[], rfl⟩

theorem Reachable.tail {step : σ → α → Option σ} {s t u : σ} {a : α}
    (h : Reachable step s t) (hstep : step t a = some u) : Reachable step s u := by
  obtain ⟨as, has⟩ := h
  exact ⟨as ++ [a], run_concat has hstep⟩

theorem Reachable.trans {step : σ → α → Option σ} {s t u : σ} (h : Reachable step s t)
    (h' : Reachable step t u) : Reachable step s u := by
  obtain ⟨as, has⟩ := h
  obtain ⟨bs, hbs⟩ := h'
  exact ⟨as ++ bs, by rw [run_append, has, Option.bind_some, hbs]⟩

/-- **Invariance.**  A property of the initial state that every step out of a
    reachable state keeps holds in every reachable state. -/
theorem Reachable.invariant {step : σ → α → Option σ} {P : σ → Prop} {s t : σ}
    (h : Reachable step s t) (h0 : P s)
    (hstep : ∀ x a x', Reachable step s x → P x → step x a = some x' → P x') : P t := by
  obtain ⟨as, has⟩ := h
  have hrun : ∀ x, Reachable step s x → P x → run step x as = some t → P t := by
    clear has
    induction as with
    | nil =>
      intro x _ hx has
      cases has
      exact hx
    | cons a as ih =>
      intro x hreach hx has
      obtain ⟨x', hx', hrun⟩ := run_cons_eq_some.mp has
      exact ih x' (hreach.tail hx') (hstep x a x' hreach hx hx') hrun
  exact hrun s (Reachable.refl step s) h0 has

/-- **Potentials.**  When every step pays its cost out of a potential, and what
    it gains is put in, a whole run costs at most the potential it starts with
    and what it gains. -/
theorem run_potential {step : σ → α → Option σ} {I : σ → Prop} {Φ : σ → Nat}
    {cost gain : α → Nat} {s t : σ} {as : List α} (has : run step s as = some t) (h0 : I s)
    (hkeep : ∀ x a x', I x → step x a = some x' → I x')
    (hpay : ∀ x a x', I x → step x a = some x' → Φ x' + cost a ≤ Φ x + gain a) :
    Φ t + (as.map cost).sum ≤ Φ s + (as.map gain).sum := by
  induction as generalizing s with
  | nil =>
    cases has
    exact Nat.le_refl _
  | cons a as ih =>
    obtain ⟨s', hs', hrun⟩ := run_cons_eq_some.mp has
    have hfirst := hpay s a s' h0 hs'
    have hrest := ih hrun (hkeep s a s' h0 hs')
    rw [List.map_cons, List.sum_cons, List.map_cons, List.sum_cons]
    omega

/-! ### Guarded runs -/

/-- Every step of the run is taken in a state that meets the guard `G`. -/
def Along (step : σ → α → Option σ) (G : σ → α → Prop) (s : σ) : List α → Prop
  | [] => True
  | a :: as => G s a ∧ ∀ s' ∈ step s a, Along step G s' as

instance decidableAlong {step : σ → α → Option σ} {G : σ → α → Prop}
    [∀ s a, Decidable (G s a)] : ∀ s as, Decidable (Along step G s as)
  | _, [] => isTrue trivial
  | s, a :: as =>
    have (s' : σ) : Decidable (Along step G s' as) := decidableAlong s' as
    inferInstanceAs (Decidable (G s a ∧ ∀ s' ∈ step s a, Along step G s' as))

theorem along_of_forall {step : σ → α → Option σ} {G : σ → α → Prop} {s : σ} {as : List α}
    (h : ∀ x, ∀ a ∈ as, G x a) : Along step G s as := by
  induction as generalizing s with
  | nil => trivial
  | cons a as ih =>
    refine ⟨h s a List.mem_cons_self, ?_⟩
    intro s' _
    exact ih fun x b hb => h x b (List.mem_cons_of_mem _ hb)

theorem Along.mono {step : σ → α → Option σ} {G H : σ → α → Prop} {s : σ} {as : List α}
    (h : Along step G s as) (hGH : ∀ x a, G x a → H x a) : Along step H s as := by
  induction as generalizing s with
  | nil => trivial
  | cons a as ih => exact ⟨hGH s a h.1, fun s' hs' => ih (h.2 s' hs')⟩

theorem Along.last {step : σ → α → Option σ} {G : σ → α → Prop} {s t : σ} {as : List α} {a : α}
    (h : Along step G s (as ++ [a])) (has : run step s as = some t) : G t a := by
  induction as generalizing s with
  | nil =>
    cases has
    exact h.1
  | cons b as ih =>
    obtain ⟨s', hs', hrun⟩ := run_cons_eq_some.mp has
    exact ih (h.2 s' hs') hrun

/-- **Invariance along a guarded run.** -/
theorem Along.invariant {step : σ → α → Option σ} {G : σ → α → Prop} {P : σ → Prop}
    {s t : σ} {as : List α} (hG : Along step G s as) (has : run step s as = some t) (h0 : P s)
    (hstep : ∀ x a x', Reachable step s x → P x → G x a → step x a = some x' → P x') : P t := by
  have hrun : ∀ x, Reachable step s x → P x → Along step G x as → run step x as = some t → P t := by
    clear has hG
    induction as with
    | nil =>
      intro x _ hx _ has
      cases has
      exact hx
    | cons a as ih =>
      intro x hreach hx hG has
      obtain ⟨x', hx', hrun⟩ := run_cons_eq_some.mp has
      exact ih x' (hreach.tail hx') (hstep x a x' hreach hx hG.1 hx') (hG.2 x' hx') hrun
  exact hrun s (Reachable.refl step s) h0 hG has

/-- A guard may be exchanged for one that reachable states do not tell from it. -/
theorem along_congr {step : σ → α → Option σ} {G H : σ → α → Prop} {s : σ} {as : List α}
    (hGH : ∀ x a, Reachable step s x → (G x a ↔ H x a)) :
    Along step G s as ↔ Along step H s as := by
  have hfrom : ∀ x, Reachable step s x → (Along step G x as ↔ Along step H x as) := by
    induction as with
    | nil => exact fun _ _ => Iff.rfl
    | cons a as ih =>
      intro x hx
      refine and_congr (hGH x a hx) (forall₂_congr fun x' hx' => ?_)
      exact ih x' (hx.tail hx')
  exact hfrom s (Reachable.refl step s)

/-- `P` holds in `s` and in every state that the run comes through. -/
def Throughout (step : σ → α → Option σ) (P : σ → Prop) (s : σ) : List α → Prop
  | [] => P s
  | a :: as => P s ∧ ∀ s' ∈ step s a, Throughout step P s' as

theorem Throughout.head {step : σ → α → Option σ} {P : σ → Prop} {s : σ} {as : List α}
    (h : Throughout step P s as) : P s := by
  cases as with
  | nil => exact h
  | cons a as => exact h.1

theorem Throughout.last {step : σ → α → Option σ} {P : σ → Prop} {s t : σ} {as : List α}
    (h : Throughout step P s as) (has : run step s as = some t) : P t := by
  induction as generalizing s with
  | nil =>
    cases has
    exact h
  | cons a as ih =>
    obtain ⟨s', hs', hrun⟩ := run_cons_eq_some.mp has
    exact ih (h.2 s' hs') hrun

theorem Throughout.mono {step : σ → α → Option σ} {P Q : σ → Prop} {s : σ} {as : List α}
    (h : Throughout step P s as) (hPQ : ∀ x, P x → Q x) : Throughout step Q s as := by
  induction as generalizing s with
  | nil => exact hPQ s h
  | cons a as ih => exact ⟨hPQ s h.1, fun s' hs' => ih (h.2 s' hs')⟩

/-- A guard that the property implies is met by every step of the run. -/
theorem Throughout.along {step : σ → α → Option σ} {G : σ → α → Prop} {P : σ → Prop} {s : σ}
    {as : List α} (h : Throughout step P s as) (hG : ∀ x a, P x → G x a) : Along step G s as := by
  induction as generalizing s with
  | nil => trivial
  | cons a as ih => exact ⟨hG s a h.1, fun s' hs' => ih (h.2 s' hs')⟩

/-- What guarded steps keep holds throughout a guarded run. -/
theorem Along.throughout {step : σ → α → Option σ} {G : σ → α → Prop} {P : σ → Prop} {s : σ}
    {as : List α} (hG : Along step G s as) (h0 : P s)
    (hkeep : ∀ x a x', P x → G x a → step x a = some x' → P x') : Throughout step P s as := by
  induction as generalizing s with
  | nil => exact h0
  | cons a as ih =>
    exact ⟨h0, fun s' hs' => ih (hG.2 s' hs') (hkeep s a s' h0 hG.1 hs')⟩

/-- A property that no step brings back holds throughout a run at whose end it holds. -/
theorem throughout_of_last {step : σ → α → Option σ} {P : σ → Prop} {s t : σ} {as : List α}
    (has : run step s as = some t) (ht : P t)
    (hback : ∀ x a x', step x a = some x' → P x' → P x) : Throughout step P s as := by
  induction as generalizing s with
  | nil =>
    cases has
    exact ht
  | cons a as ih =>
    obtain ⟨s', hs', hrun⟩ := run_cons_eq_some.mp has
    have htail := ih hrun
    refine ⟨hback s a s' hs' htail.head, fun s'' hs'' => ?_⟩
    obtain rfl := Option.mem_unique hs' hs''
    exact htail

/-- **A guard is exact** for a property when guarded steps keep an invariant that
    implies the property, and a step that does not meet the guard leads from the
    invariant to a state without the property. -/
theorem throughout_iff_along {step : σ → α → Option σ} {G : σ → α → Prop} {I P : σ → Prop}
    {s t : σ} {as : List α} (has : run step s as = some t) (h0 : I s) (hP : ∀ x, I x → P x)
    (hkeep : ∀ x a x', I x → G x a → step x a = some x' → I x')
    (hbreak : ∀ x a x', I x → ¬ G x a → step x a = some x' → ¬ P x') :
    Throughout step P s as ↔ Along step G s as := by
  refine ⟨fun h => ?_, fun hG => (hG.throughout h0 hkeep).mono hP⟩
  induction as generalizing s with
  | nil => exact trivial
  | cons a as ih =>
    obtain ⟨s', hs', hrun⟩ := run_cons_eq_some.mp has
    by_cases hG : G s a
    · refine ⟨hG, fun s'' hs'' => ?_⟩
      obtain rfl := Option.mem_unique hs' hs''
      exact ih hrun (hkeep s a _ h0 hG hs') (h.2 _ hs')
    · exact absurd (h.2 s' hs').head (hbreak s a s' h0 hG hs')

/-- Some run whose steps all meet the guard leads from `s` to `t`. -/
def Leads (step : σ → α → Option σ) (G : σ → α → Prop) (s t : σ) : Prop :=
  ∃ as, Along step G s as ∧ run step s as = some t

theorem Leads.refl (step : σ → α → Option σ) (G : σ → α → Prop) (s : σ) : Leads step G s s :=
  ⟨[], trivial, rfl⟩

theorem Leads.reachable {step : σ → α → Option σ} {G : σ → α → Prop} {s t : σ}
    (h : Leads step G s t) : Reachable step s t := h.imp fun _ has => has.2

theorem Leads.mono {step : σ → α → Option σ} {G H : σ → α → Prop} {s t : σ}
    (h : Leads step G s t) (hGH : ∀ x a, G x a → H x a) : Leads step H s t :=
  h.imp fun _ has => ⟨has.1.mono hGH, has.2⟩

theorem Leads.head {step : σ → α → Option σ} {G : σ → α → Prop} {s s' t : σ} {a : α}
    (hstep : step s a = some s') (hG : G s a) (h : Leads step G s' t) : Leads step G s t := by
  obtain ⟨as, halong, has⟩ := h
  refine ⟨a :: as, ⟨hG, fun s'' hs'' => ?_⟩, run_cons_eq_some.mpr ⟨s', hstep, has⟩⟩
  have heq : s'' = s' := Option.some.inj ((Option.mem_def.mp hs'').symm.trans hstep)
  rw [heq]
  exact halong

/-- If every step that meets the guard makes a measure smaller, some run of such
    steps leads to a state in which there is none left. -/
theorem Leads.exists_rest {step : σ → α → Option σ} {G : σ → α → Prop} {I : σ → Prop}
    (μ : σ → Nat) (hkeep : ∀ x a x', I x → G x a → step x a = some x' → I x')
    (hless : ∀ x a x', I x → G x a → step x a = some x' → μ x' < μ x) {s : σ} (h0 : I s) :
    ∃ t, Leads step G s t ∧ I t ∧ ∀ a, G t a → step t a = none := by
  generalize hn : μ s = n
  induction n using Nat.strongRecOn generalizing s with
  | _ n ih =>
    by_cases hrest : ∀ a, G s a → step s a = none
    · exact ⟨s, Leads.refl _ _ _, h0, hrest⟩
    · simp only [not_forall, exists_prop] at hrest
      obtain ⟨a, hG, hsome⟩ := hrest
      obtain ⟨s', hs'⟩ := Option.ne_none_iff_exists'.mp hsome
      have hlt := hless s a s' h0 hG hs'
      obtain ⟨t, hleads, ht⟩ := ih _ (hn ▸ hlt) (hkeep s a s' h0 hG hs') rfl
      exact ⟨t, hleads.head hs' hG, ht⟩

/-! ### Lockstep

A step function that can fault returns nothing then, and otherwise what a step
function returns. -/

section Lockstep

variable {τ : Type*} {R : σ → τ → Prop} {step : σ → α → Option σ}
  {step' : τ → α → Option (Option τ)}

/-- The machine of a step function that can fault. -/
def unfaulted (step' : τ → α → Option (Option τ)) (t : τ) (a : α) : Option τ := (step' t a).join

/-- From related states the second machine does not fault, has the same labels
    enabled as the first, and their steps lead to related states. -/
def Lockstep (R : σ → τ → Prop) (step : σ → α → Option σ) (step' : τ → α → Option (Option τ)) :
    Prop :=
  ∀ s t a, R s t → ∃ r, step' t a = some r ∧ Option.Rel R (step s a) r

theorem Lockstep.unfaulted (h : Lockstep R step step') {s : σ} {t : τ} (hst : R s t) (a : α) :
    Option.Rel R (step s a) (unfaulted step' t a) := by
  obtain ⟨r, hr, hrel⟩ := h s t a hst
  rwa [Runs.unfaulted, hr]

theorem Lockstep.forth (h : Lockstep R step step') {s s' : σ} {t : τ} {as : List α} (hst : R s t)
    (hrun : run step s as = some s') :
    ∃ t', run (Runs.unfaulted step') t as = some t' ∧ R s' t' := by
  induction as generalizing s t with
  | nil =>
    cases hrun
    exact ⟨t, rfl, hst⟩
  | cons a as ih =>
    obtain ⟨s₁, hs₁, hrun⟩ := run_cons_eq_some.mp hrun
    have hstep := h.unfaulted hst a
    rw [hs₁] at hstep
    generalize ht : Runs.unfaulted step' t a = o at hstep
    cases hstep with
    | some hrel =>
      obtain ⟨t', ht', hrel'⟩ := ih hrel hrun
      exact ⟨t', run_cons_eq_some.mpr ⟨_, ht, ht'⟩, hrel'⟩

theorem Lockstep.back (h : Lockstep R step step') {s : σ} {t t' : τ} (hst : R s t)
    (hreach : Reachable (Runs.unfaulted step') t t') : ∃ s', Reachable step s s' ∧ R s' t' := by
  refine hreach.invariant (P := fun t' => ∃ s', Reachable step s s' ∧ R s' t')
    ⟨s, Reachable.refl step s, hst⟩ fun x a x' _ ⟨y, hy, hrel⟩ hx => ?_
  have hstep := h.unfaulted hrel a
  rw [hx] at hstep
  generalize hy' : step y a = o at hstep
  cases hstep with
  | some hrel' => exact ⟨_, hy.tail hy', hrel'⟩

end Lockstep

/-! ### Histories -/

/-- Every event of a history stands in the relation `Q` to what was before it. -/
def Always {ε : Type*} (Q : ε → List ε → Prop) (log : List ε) : Prop :=
  ∀ e past, (e :: past) <:+ log → Q e past

theorem always_nil {ε : Type*} (Q : ε → List ε → Prop) : Always Q [] := by
  intro e past h
  cases List.suffix_nil.mp h

theorem always_cons {ε : Type*} {Q : ε → List ε → Prop} {e : ε} {log : List ε} :
    Always Q (e :: log) ↔ Q e log ∧ Always Q log := by
  constructor
  · intro h
    exact ⟨h e log List.suffix_rfl, fun e' past hs => h e' past (hs.trans (List.suffix_cons e log))⟩
  · rintro ⟨he, hlog⟩ e' past hs
    rcases List.suffix_cons_iff.mp hs with heq | hs
    · cases heq
      exact he
    · exact hlog e' past hs

end Runs
