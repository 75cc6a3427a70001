import Mathlib.Data.List.Basic

/-!
# Runs of a partial step function

A system is a step function `σ → α → Option σ` on an explicit state; an action
without a successor ends the run. The induction over a run is packaged once, as
an invariant rule, a rule for runs whose actions all meet a condition, and a
simulation rule between two systems that share their actions.
-/

namespace Transition

variable {σ τ α : Type*}

/-- Execute the actions in order, failing at the first one that has no successor. -/
def run (step : σ → α → Option σ) (s : σ) : List α → Option σ
  | [] => some s
  | a :: as => (step s a).bind fun t => run step t as

/-- The empty run stays. -/
@[simp] theorem run_nil (step : σ → α → Option σ) (s : σ) : run step s [] = some s := rfl

/-- A run takes its first step and goes on. -/
@[simp] theorem run_cons (step : σ → α → Option σ) (s : σ) (a : α) (as : List α) :
    run step s (a :: as) = (step s a).bind fun t => run step t as := rfl

/-- A run of a concatenation is a run of its first part continued by the second. -/
theorem run_append (step : σ → α → Option σ) (s : σ) (as bs : List α) :
    run step s (as ++ bs) = (run step s as).bind fun t => run step t bs := by
  induction as generalizing s with
  | nil => rfl
  | cons a as ih =>
    simp only [List.cons_append, run_cons]
    cases step s a with
    | none => rfl
    | some t => exact ih t

/-- A nonempty run exposes its first step. -/
theorem run_cons_eq_some {step : σ → α → Option σ} {s t : σ} {a : α} {as : List α} :
    run step s (a :: as) = some t ↔ ∃ u, step s a = some u ∧ run step u as = some t :=
  Option.bind_eq_some_iff

/-- What every step preserves, every run preserves. -/
theorem run_invariant {step : σ → α → Option σ} {P : σ → Prop}
    (hstep : ∀ s a t, P s → step s a = some t → P t) {s t : σ} {as : List α}
    (hs : P s) (h : run step s as = some t) : P t := by
  induction as generalizing s with
  | nil => exact Option.some.inj h ▸ hs
  | cons a as ih =>
    obtain ⟨u, hu, hrun⟩ := run_cons_eq_some.mp h
    exact ih (hstep s a u hs hu) hrun

/-- A step that succeeds under an invariant that it keeps never ends a run. -/
theorem run_total {step : σ → α → Option σ} {f : σ → α → σ} {P : σ → Prop} {s : σ} {as : List α}
    (hstep : ∀ s, ∀ a ∈ as, P s → step s a = some (f s a) ∧ P (f s a)) (hs : P s) :
    run step s as = some (as.foldl f s) ∧ P (as.foldl f s) := by
  induction as generalizing s with
  | nil => exact ⟨rfl, hs⟩
  | cons a as ih =>
    obtain ⟨ha, hP⟩ := hstep s a List.mem_cons_self hs
    rw [run_cons, ha]
    exact ih (fun t b hb => hstep t b (List.mem_cons_of_mem a hb)) hP

/-- Every action of a run that succeeds has succeeded. -/
theorem run_step {step : σ → α → Option σ} {s t : σ} {as : List α} (h : run step s as = some t)
    {a : α} (ha : a ∈ as) : ∃ u v, step u a = some v := by
  obtain ⟨pre, post, rfl⟩ := List.append_of_mem ha
  rw [run_append] at h
  obtain ⟨u, -, hrest⟩ := Option.bind_eq_some_iff.mp h
  obtain ⟨v, hv, -⟩ := run_cons_eq_some.mp hrest
  exact ⟨u, v, hv⟩

/-- Every action of the run meets `ok` in the state in which it is taken. -/
def Obeys (step : σ → α → Option σ) (ok : σ → α → Prop) (s : σ) : List α → Prop
  | [] => True
  | a :: as => ok s a ∧ ∀ t, step s a = some t → Obeys step ok t as

/-- Where the condition can be decided, it can be decided of a run. -/
instance decidableObeys (step : σ → α → Option σ) (ok : σ → α → Prop)
    [∀ s a, Decidable (ok s a)] : ∀ s as, Decidable (Obeys step ok s as)
  | _, [] => isTrue trivial
  | s, a :: as =>
    have : DecidablePred fun t => Obeys step ok t as := fun t => decidableObeys step ok t as
    inferInstanceAs (Decidable (ok s a ∧ ∀ t ∈ step s a, Obeys step ok t as))

/-- A concatenation obeys when its parts do. -/
theorem obeys_append {step : σ → α → Option σ} {ok : σ → α → Prop} {s : σ} {as bs : List α}
    (has : Obeys step ok s as) (hbs : ∀ t, run step s as = some t → Obeys step ok t bs) :
    Obeys step ok s (as ++ bs) := by
  induction as generalizing s with
  | nil => exact hbs s rfl
  | cons a as ih =>
    refine ⟨has.1, fun t ht => ih (has.2 t ht) fun u hu => hbs u ?_⟩
    exact run_cons_eq_some.mpr ⟨t, ht, hu⟩

/-- What every step that meets `ok` preserves, every run obeying `ok` preserves. -/
theorem Obeys.invariant {step : σ → α → Option σ} {ok : σ → α → Prop} {P : σ → Prop}
    (hstep : ∀ s a t, P s → ok s a → step s a = some t → P t) {s t : σ} {as : List α}
    (hobeys : Obeys step ok s as) (hs : P s) (h : run step s as = some t) : P t := by
  induction as generalizing s with
  | nil => exact Option.some.inj h ▸ hs
  | cons a as ih =>
    obtain ⟨u, hu, hrun⟩ := run_cons_eq_some.mp h
    exact ih (hobeys.2 u hu) (hstep s a u hs hobeys.1 hu) hrun

/-- The parts of a concatenation that obeys. -/
theorem Obeys.of_append {step : σ → α → Option σ} {ok : σ → α → Prop} {s : σ} {as bs : List α}
    (h : Obeys step ok s (as ++ bs)) :
    Obeys step ok s as ∧ ∀ t, run step s as = some t → Obeys step ok t bs := by
  induction as generalizing s with
  | nil => exact ⟨trivial, fun t ht => Option.some.inj ht ▸ h⟩
  | cons a as ih =>
    refine ⟨⟨h.1, fun t ht => (ih (h.2 t ht)).1⟩, fun u hu => ?_⟩
    obtain ⟨t, ht, hrun⟩ := run_cons_eq_some.mp hu
    exact (ih (h.2 t ht)).2 u hrun

/-- Two conditions that a run obeys, it obeys together. -/
theorem Obeys.and {step : σ → α → Option σ} {ok ok' : σ → α → Prop} {s : σ} {as : List α}
    (h : Obeys step ok s as) (h' : Obeys step ok' s as) :
    Obeys step (fun s a => ok s a ∧ ok' s a) s as := by
  induction as generalizing s with
  | nil => trivial
  | cons a as ih => exact ⟨⟨h.1, h'.1⟩, fun t ht => ih (h.2 t ht) (h'.2 t ht)⟩

/-- Where every step that meets `ok` succeeds and preserves an invariant, a run obeying `ok`
succeeds and preserves it. -/
theorem Obeys.exists_run {step : σ → α → Option σ} {ok : σ → α → Prop} {P : σ → Prop}
    (hstep : ∀ s a, P s → ok s a → ∃ t, step s a = some t ∧ P t) {s : σ} {as : List α}
    (hobeys : Obeys step ok s as) (hs : P s) : ∃ t, run step s as = some t ∧ P t := by
  induction as generalizing s with
  | nil => exact ⟨s, rfl, hs⟩
  | cons a as ih =>
    obtain ⟨t, ht, hP⟩ := hstep s a hs hobeys.1
    obtain ⟨u, hrun, hu⟩ := ih (hobeys.2 t ht) hP
    exact ⟨u, run_cons_eq_some.mpr ⟨t, ht, hrun⟩, hu⟩

/-- Where a step from a good state leads to a good state exactly if it meets `ok`, all states
of a run are good exactly if the run obeys `ok`. -/
theorem obeys_iff {step : σ → α → Option σ} {ok : σ → α → Prop} {I P : σ → Prop}
    (hI : ∀ s a t, I s → step s a = some t → I t)
    (hstep : ∀ s a t, I s → P s → step s a = some t → (P t ↔ ok s a)) {s t : σ} {as : List α}
    (hs : I s) (hP : P s) (h : run step s as = some t) :
    (∀ bs, bs <+: as → ∀ u, run step s bs = some u → P u) ↔ Obeys step ok s as := by
  induction as generalizing s with
  | nil =>
    refine iff_of_true (fun bs hbs u hu => ?_) trivial
    obtain rfl := List.prefix_nil.mp hbs
    exact Option.some.inj hu ▸ hP
  | cons a as ih =>
    obtain ⟨v, hv, hrun⟩ := run_cons_eq_some.mp h
    have hok := hstep s a v hs hP hv
    constructor
    · intro hall
      have hPv : P v := hall [a] ⟨as, rfl⟩ v (run_cons_eq_some.mpr ⟨v, hv, rfl⟩)
      refine ⟨hok.mp hPv, fun w hw => ?_⟩
      obtain rfl := Option.some.inj (hv.symm.trans hw)
      refine (ih (hI s a v hs hv) hPv hrun).mp fun bs hbs u hu => ?_
      exact hall (a :: bs) (List.cons_prefix_cons.mpr ⟨rfl, hbs⟩) u
        (run_cons_eq_some.mpr ⟨v, hv, hu⟩)
    · rintro ⟨hoka, hrest⟩ bs hbs u hu
      cases bs with
      | nil => exact Option.some.inj hu ▸ hP
      | cons b bs =>
        obtain ⟨rfl, hpre⟩ := List.cons_prefix_cons.mp hbs
        obtain ⟨w, hw, hrunb⟩ := run_cons_eq_some.mp hu
        obtain rfl := Option.some.inj (hv.symm.trans hw)
        exact (ih (hI s b v hs hv) (hok.mpr hoka) hrun).mpr (hrest v hv) bs hpre u hrunb

/-- A relation that every step can follow is followed by every run. -/
theorem run_simulation {stepC : σ → α → Option σ} {stepA : τ → α → Option τ}
    {R : σ → τ → Prop}
    (hstep : ∀ c a x c', R c a → stepC c x = some c' → ∃ a', stepA a x = some a' ∧ R c' a')
    {c c' : σ} {a : τ} {xs : List α} (hR : R c a) (h : run stepC c xs = some c') :
    ∃ a', run stepA a xs = some a' ∧ R c' a' := by
  induction xs generalizing c a with
  | nil => exact ⟨a, rfl, Option.some.inj h ▸ hR⟩
  | cons x xs ih =>
    obtain ⟨d, hd, hrun⟩ := run_cons_eq_some.mp h
    obtain ⟨b, hb, hR'⟩ := hstep c a x d hR hd
    obtain ⟨a', ha', hfin⟩ := ih hR' hrun
    exact ⟨a', run_cons_eq_some.mpr ⟨b, hb, ha'⟩, hfin⟩

end Transition
