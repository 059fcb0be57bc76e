/-
# Runs of interleaved events, and the components they touch.

`run` folds a step that may fail over a list of events and collects what each of them reports.
Where the state is a family of components and every event touches the one it is tagged with
(`stepAt`), the events of a component decide alone what becomes of it and what is reported for it:
`run_stepAt` puts the runs of the components together to a run of any interleaving.
-/
import Mathlib.Logic.Function.Basic
import Mathlib.Data.List.Basic

namespace Interleave

variable {ι α ε σ ρ κ : Type*}

/-! ## Runs of a step that may fail -/

/-- Run a step over the events, in order; the reports come out in the same order. -/
def run (step : σ → ε → Except κ (σ × ρ)) : σ → List ε → Except κ (σ × List ρ)
  | s, [] => .ok (s, [])
  | s, e :: es =>
      match step s e with
      | .error k => .error k
      | .ok (s', r) =>
          match run step s' es with
          | .error k => .error k
          | .ok (s'', rs) => .ok (s'', r :: rs)

variable {step : σ → ε → Except κ (σ × ρ)} {s s' s'' : σ} {e : ε} {es es' : List ε} {r : ρ}
  {rs rs' : List ρ}

theorem run_cons (hstep : step s e = .ok (s', r)) (hrun : run step s' es = .ok (s'', rs)) :
    run step s (e :: es) = .ok (s'', r :: rs) := by
  simp only [run, hstep, hrun]

/-- **Inversion.** A run of one more event did that event and ran the others. -/
theorem run_cons_cases (h : run step s (e :: es) = .ok (s'', rs)) :
    ∃ s' r rs', step s e = .ok (s', r) ∧ run step s' es = .ok (s'', rs') ∧ rs = r :: rs' := by
  simp only [run] at h
  cases hstep : step s e with
  | error k =>
      rw [hstep] at h
      exact absurd h (by simp)
  | ok x =>
      obtain ⟨s', r⟩ := x
      rw [hstep] at h
      simp only at h
      cases hrun : run step s' es with
      | error k =>
          rw [hrun] at h
          exact absurd h (by simp)
      | ok y =>
          obtain ⟨s₂, rs'⟩ := y
          rw [hrun] at h
          obtain ⟨rfl, rfl⟩ := Prod.mk.inj (Except.ok.inj h)
          exact ⟨s', r, rs', rfl, hrun, rfl⟩

theorem run_append (hrun : run step s es = .ok (s', rs))
    (hrun' : run step s' es' = .ok (s'', rs')) :
    run step s (es ++ es') = .ok (s'', rs ++ rs') := by
  induction es generalizing s rs with
  | nil =>
      obtain ⟨rfl, rfl⟩ := Prod.mk.inj (Except.ok.inj hrun)
      exact hrun'
  | cons e es ih =>
      obtain ⟨s₁, r, rs₁, hstep, hrest, rfl⟩ := run_cons_cases hrun
      exact run_cons hstep (ih hrest)

/-- Every event has its report. -/
theorem length_run (h : run step s es = .ok (s', rs)) : rs.length = es.length := by
  induction es generalizing s rs with
  | nil =>
      obtain ⟨rfl, rfl⟩ := Prod.mk.inj (Except.ok.inj h)
      rfl
  | cons e es ih =>
      obtain ⟨s₁, r, rs₁, -, hrest, rfl⟩ := run_cons_cases h
      rw [List.length_cons, List.length_cons, ih hrest]

/-! ## The events of one component -/

section Own

variable [DecidableEq ι]

/-- The entries tagged with `i`, in order. -/
def own (i : ι) (xs : List (ι × α)) : List α :=
  xs.filterMap fun x => if x.1 = i then some x.2 else none

@[simp]
theorem own_nil (i : ι) : own i ([] : List (ι × α)) = [] := rfl

@[simp]
theorem own_cons_self (i : ι) (a : α) (xs : List (ι × α)) :
    own i ((i, a) :: xs) = a :: own i xs := by
  simp [own]

theorem own_cons_of_ne {i j : ι} (h : j ≠ i) (a : α) (xs : List (ι × α)) :
    own i ((j, a) :: xs) = own i xs := by
  simp [own, h]

theorem mem_of_mem_own {i : ι} {a : α} {xs : List (ι × α)} (h : (i, a) ∈ xs) : a ∈ own i xs :=
  List.mem_filterMap.mpr ⟨(i, a), h, by simp⟩

end Own

/-! ## Events that touch one component -/

section Components

variable [DecidableEq ι] {lstep : σ → ε → Except κ (σ × ρ)}

/-- A tagged event does its step on the component it is tagged with. -/
def stepAt (lstep : σ → ε → Except κ (σ × ρ)) (s : ι → σ) (e : ι × ε) :
    Except κ ((ι → σ) × (ι × ρ)) :=
  match lstep (s e.1) e.2 with
  | .error k => .error k
  | .ok (x, r) => .ok (Function.update s e.1 x, (e.1, r))

variable {s s' : ι → σ} {evs : List (ι × ε)} {rs : List (ι × ρ)}

theorem stepAt_ok {i : ι} {e : ε} {x : σ} {r : ρ} (h : lstep (s i) e = .ok (x, r)) :
    stepAt lstep s (i, e) = .ok (Function.update s i x, (i, r)) := by
  simp only [stepAt, h]

/-- **Putting a run together.** Where every component can run its own events, any interleaving of
them runs, and leaves every component as its own run does. -/
theorem run_stepAt {f : ι → σ} {out : ι → List ρ}
    (h : ∀ i, run lstep (s i) (own i evs) = .ok (f i, out i)) :
    ∃ rs, run (stepAt lstep) s evs = .ok (f, rs) ∧ ∀ i, own i rs = out i := by
  induction evs generalizing s out with
  | nil =>
      have hf : f = s := funext fun i => (Prod.mk.inj (Except.ok.inj (h i))).1.symm
      refine ⟨[], by rw [hf]; rfl, fun i => ?_⟩
      exact (Prod.mk.inj (Except.ok.inj (h i))).2
  | cons e evs ih =>
      obtain ⟨j, e⟩ := e
      have hj := h j
      rw [own_cons_self] at hj
      obtain ⟨x, r, out', hlocal, hrest, hout⟩ := run_cons_cases hj
      have hnext : ∀ i, run lstep (Function.update s j x i) (own i evs) =
          .ok (f i, Function.update out j out' i) := by
        intro i
        by_cases hij : i = j
        · subst hij
          rw [Function.update_self, Function.update_self]
          exact hrest
        · have hi := h i
          rw [own_cons_of_ne (Ne.symm hij)] at hi
          rw [Function.update_of_ne hij, Function.update_of_ne hij]
          exact hi
      obtain ⟨rs, hrun, hown⟩ := ih hnext
      refine ⟨(j, r) :: rs, run_cons (stepAt_ok hlocal) hrun, fun i => ?_⟩
      by_cases hij : i = j
      · subst hij
        rw [own_cons_self, hown, Function.update_self, hout]
      · rw [own_cons_of_ne (Ne.symm hij), hown, Function.update_of_ne hij]

end Components

end Interleave
