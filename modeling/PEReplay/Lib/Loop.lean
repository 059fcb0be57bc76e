/-
# Loops that may run for ever, and the rules to reason about them.

A C loop is a body iterated until it leaves.  `whileLoop body n` runs the body at most `n` times and
answers `none` when that was not enough, so a loop that never leaves answers `none` for every `n`
and nothing has to be assumed to write it down.  Four rules carry every proof about such a loop:

* `whileLoop_rule` — an invariant of the body holds when the loop leaves (partial correctness),
* `exists_halts` — when no chain of passes goes on for ever the loop leaves (termination), and
  `whileLoop_none` — when an invariant makes every pass go round, it never does,
* `total_rule` — both at once, for an invariant under which a number goes down (total correctness),
* `whileLoop_mono` — more fuel never changes an answer, so the answer is a fact about the loop.

A body may itself run out of fuel (it may contain a loop); then it answers `none` as well.
-/
import Mathlib.Logic.Relation
import Mathlib.Data.Fintype.Card

namespace Loop

/-- What one pass through a loop body decides: go round again, or leave with a result. -/
inductive LoopStep (σ ρ : Type*) where
  | next (s : σ)
  | exit (r : ρ)
  deriving Repr, DecidableEq

variable {σ ρ : Type*}

/-- Run `body` from `s` until it leaves, for at most `n` passes. -/
def whileLoop (body : σ → Option (LoopStep σ ρ)) : Nat → σ → Option ρ
  | 0, _ => none
  | n + 1, s =>
      match body s with
      | none => none
      | some (.exit r) => some r
      | some (.next s') => whileLoop body n s'

variable {body : σ → Option (LoopStep σ ρ)} {n m : Nat} {s s' : σ} {r : ρ}

theorem whileLoop_exit (h : body s = some (.exit r)) : whileLoop body (n + 1) s = some r := by
  simp only [whileLoop, h]

theorem whileLoop_next (h : body s = some (.next s')) :
    whileLoop body (n + 1) s = whileLoop body n s' := by
  simp only [whileLoop, h]

/-- **Inversion.** A loop that answers did one pass, which left or went round. -/
theorem whileLoop_cases (h : whileLoop body n s = some r) :
    ∃ k, n = k + 1 ∧ (body s = some (.exit r) ∨
      ∃ s', body s = some (.next s') ∧ whileLoop body k s' = some r) := by
  cases n with
  | zero => simp [whileLoop] at h
  | succ k =>
      refine ⟨k, rfl, ?_⟩
      simp only [whileLoop] at h
      split at h
      · exact absurd h (by simp)
      · rename_i r' hb
        rw [hb, ← Option.some.inj h]
        exact Or.inl rfl
      · rename_i s' hb
        exact Or.inr ⟨s', hb, h⟩

/-- **Partial correctness.** An invariant that every pass keeps, and that gives `Q` at the pass
that leaves, gives `Q` of the answer. -/
theorem whileLoop_rule (I : σ → Prop) (Q : ρ → Prop)
    (hnext : ∀ s s', I s → body s = some (.next s') → I s')
    (hexit : ∀ s r, I s → body s = some (.exit r) → Q r)
    (hI : I s) (h : whileLoop body n s = some r) : Q r := by
  induction n generalizing s with
  | zero => simp [whileLoop] at h
  | succ n ih =>
      obtain ⟨k, hk, hb | ⟨s', hb, hrest⟩⟩ := whileLoop_cases h
      · exact hexit s r hI hb
      · obtain rfl : n = k := by omega
        exact ih (hnext s s' hI hb) hrest

/-- **Paths.** When every pass goes along a path of `R`, so does a loop that answers, up to the
state it leaves from. -/
theorem whileLoop_path {α : Type*} {R : α → α → Prop} (place : σ → α)
    (hpass : ∀ s s', body s = some (.next s') → Relation.ReflTransGen R (place s) (place s'))
    (h : whileLoop body n s = some r) :
    ∃ s', Relation.ReflTransGen R (place s) (place s') ∧ body s' = some (.exit r) := by
  apply whileLoop_rule (fun s' => Relation.ReflTransGen R (place s) (place s')) _ _ _ .refl h
  · intro s₁ s₂ hs₁ hbody
    exact hs₁.trans (hpass s₁ s₂ hbody)
  · intro s₁ r₁ hs₁ hbody
    exact ⟨s₁, hs₁, hbody⟩

/-- An answer stays the answer under more fuel, for the loop and for what its body calls. -/
theorem whileLoop_mono {body' : σ → Option (LoopStep σ ρ)}
    (hbody : ∀ s x, body s = some x → body' s = some x) (hle : n ≤ m)
    (h : whileLoop body n s = some r) : whileLoop body' m s = some r := by
  induction n generalizing s m with
  | zero => simp [whileLoop] at h
  | succ n ih =>
      obtain ⟨m, rfl⟩ : ∃ k, m = k + 1 := ⟨m - 1, by omega⟩
      obtain ⟨k, hk, hb | ⟨s', hb, hrest⟩⟩ := whileLoop_cases h
      · exact whileLoop_exit (hbody s _ hb)
      · obtain rfl : n = k := by omega
        rw [whileLoop_next (hbody s _ hb)]
        exact ih (by omega) hrest

/-- **Non-termination.** A loop whose every pass, under an invariant it keeps, goes round or gets
stuck itself never answers. -/
theorem whileLoop_none (I : σ → Prop)
    (hstep : ∀ s, I s → body s = none ∨ ∃ s', body s = some (.next s') ∧ I s')
    (hI : I s) (n : Nat) : whileLoop body n s = none := by
  induction n generalizing s with
  | zero => rfl
  | succ n ih =>
      obtain hnone | ⟨s', hnext, hI'⟩ := hstep s hI
      · simp only [whileLoop, hnone]
      · rw [whileLoop_next hnext]
        exact ih hI'

/-! ## Answers, whatever the fuel -/

/-- `f` computes `r`: with enough fuel it answers `r`, and it answers nothing else. -/
def Computes (f : Nat → Option ρ) (r : ρ) : Prop :=
  ∃ n, ∀ m, n ≤ m → f m = some r

/-- More fuel never changes an answer of `f`. -/
def FuelMono (f : Nat → Option ρ) : Prop :=
  ∀ n m r, n ≤ m → f n = some r → f m = some r

theorem Computes.unique {f : Nat → Option ρ} {r r' : ρ} (h : Computes f r) (h' : Computes f r') :
    r = r' := by
  obtain ⟨n, hn⟩ := h
  obtain ⟨m, hm⟩ := h'
  have e := hn (max n m) (Nat.le_max_left _ _)
  rw [hm (max n m) (Nat.le_max_right _ _)] at e
  exact (Option.some.inj e).symm

/-- What needs no fuel is computed. -/
theorem computes_some (r : ρ) : Computes (fun _ => some r) r := ⟨0, fun _ _ => rfl⟩

theorem Computes.map {α : Type*} {f : Nat → Option ρ} (h : Computes f r) (g : ρ → α) :
    Computes (fun n => (f n).map g) (g r) := by
  obtain ⟨n, hn⟩ := h
  refine ⟨n, fun m hle => ?_⟩
  show (f m).map g = _
  rw [hn m hle]
  rfl

/-- One computation after another, with one fuel for both. -/
theorem Computes.bind {α : Type*} {f : Nat → Option ρ} (h : Computes f r)
    {g : Nat → ρ → Option α} {a : α} (hg : Computes (fun n => g n r) a) :
    Computes (fun n => (f n).bind (g n)) a := by
  obtain ⟨n, hn⟩ := h
  obtain ⟨m, hm⟩ := hg
  refine ⟨max n m, fun k hle => ?_⟩
  show (f k).bind (g k) = some a
  rw [hn k (le_trans (Nat.le_max_left n m) hle), Option.bind_some]
  exact hm k (le_trans (Nat.le_max_right n m) hle)

theorem FuelMono.computes {f : Nat → Option ρ} (hf : FuelMono f) (h : f n = some r) :
    Computes f r :=
  ⟨n, fun m hle => hf n m r hle h⟩

theorem FuelMono.unique {f : Nat → Option ρ} (hf : FuelMono f) {r' : ρ}
    (h : f n = some r) (h' : f m = some r') : r = r' := by
  have e := hf n (max n m) r (Nat.le_max_left _ _) h
  have e' := hf m (max n m) r' (Nat.le_max_right _ _) h'
  exact Option.some.inj (e.symm.trans e')

/-! ## Loops whose body is fuelled too -/

section Nested

variable {body : Nat → σ → Option (LoopStep σ ρ)} {s s' : σ} {r : ρ}

/-- From `s` the loop leaves with `r`, each pass having fuel enough for itself. -/
inductive Halts (body : Nat → σ → Option (LoopStep σ ρ)) : σ → ρ → Prop where
  | exit {s : σ} {r : ρ} : Computes (fun n => body n s) (.exit r) → Halts body s r
  | next {s s' : σ} {r : ρ} : Computes (fun n => body n s) (.next s') → Halts body s' r →
      Halts body s r

/-- **A loop that halts computes its result**, with one fuel for the loop and for its body. -/
theorem Halts.computes (h : Halts body s r) : Computes (fun n => whileLoop (body n) n s) r := by
  suffices hboth : ∃ N, ∀ n m, N ≤ n → N ≤ m → whileLoop (body n) m s = some r by
    obtain ⟨N, hN⟩ := hboth
    exact ⟨N, fun n hn => hN n n hn hn⟩
  induction h with
  | exit hbody =>
      obtain ⟨N, hN⟩ := hbody
      refine ⟨N + 1, fun n m hn hm => ?_⟩
      obtain ⟨m, rfl⟩ : ∃ k, m = k + 1 := ⟨m - 1, by omega⟩
      exact whileLoop_exit (hN n (by omega))
  | next hbody _ ih =>
      obtain ⟨N, hN⟩ := hbody
      obtain ⟨M, hM⟩ := ih
      refine ⟨max N M + 1, fun n m hn hm => ?_⟩
      obtain ⟨m, rfl⟩ : ∃ k, m = k + 1 := ⟨m - 1, by omega⟩
      rw [whileLoop_next (hN n (by omega))]
      exact hM n m (by omega) (by omega)

/-- **Termination.** A loop halts from a state under which every chain of passes is finite, when an
invariant of the passes makes each pass possible. -/
theorem exists_halts {R : σ → σ → Prop} (I : σ → Prop) (hacc : Acc (flip R) s) (hI : I s)
    (hstep : ∀ s, I s → (∃ r, Computes (fun n => body n s) (.exit r)) ∨
      ∃ s', Computes (fun n => body n s) (.next s') ∧ R s s' ∧ I s') : ∃ r, Halts body s r := by
  induction hacc with
  | intro s _ ih =>
      obtain ⟨r, hexit⟩ | ⟨s', hnext, hR, hI'⟩ := hstep s hI
      · exact ⟨r, .exit hexit⟩
      · obtain ⟨r, hr⟩ := ih s' hR hI'
        exact ⟨r, .next hnext hr⟩

/-- **Total correctness.** A loop whose every pass keeps an invariant and brings a number down
computes a result, and the invariant gives `Q` of it at the pass that leaves. -/
theorem total_rule (μ : σ → Nat) (I : σ → Prop) (Q : ρ → Prop)
    (hstep : ∀ s, I s → (∃ r, Computes (fun n => body n s) (.exit r) ∧ Q r) ∨
      ∃ s', Computes (fun n => body n s) (.next s') ∧ μ s' < μ s ∧ I s') (hI : I s) :
    ∃ r, Computes (fun n => whileLoop (body n) n s) r ∧ Q r := by
  suffices hhalts : ∃ r, Halts body s r ∧ Q r by
    obtain ⟨r, hr, hQ⟩ := hhalts
    exact ⟨r, hr.computes, hQ⟩
  generalize hk : μ s = k
  induction k using Nat.strong_induction_on generalizing s with
  | _ k ih =>
      obtain ⟨r, hexit, hQ⟩ | ⟨s', hnext, hlt, hI'⟩ := hstep s hI
      · exact ⟨r, .exit hexit, hQ⟩
      · obtain ⟨r, hr, hQ⟩ := ih (μ s') (hk ▸ hlt) hI' rfl
        exact ⟨r, .next hnext hr, hQ⟩

/-- Where every pass moves a finite `key` along `R`, and `R` has no cycle, the loop halts. -/
theorem exists_halts_of_acyclic {κ : Type*} [Finite κ] {R : κ → κ → Prop} (key : σ → κ)
    (I : σ → Prop) (hacyclic : ∀ k, ¬ Relation.TransGen R k k) (hI : I s)
    (hstep : ∀ s, I s → (∃ r, Computes (fun n => body n s) (.exit r)) ∨
      ∃ s', Computes (fun n => body n s) (.next s') ∧ R (key s) (key s') ∧ I s') :
    ∃ r, Halts body s r := by
  have : Std.Irrefl (Relation.TransGen (flip R)) :=
    ⟨fun k h => hacyclic k (Relation.transGen_swap.mp h)⟩
  have hwf : WellFounded (flip R) :=
    Subrelation.wf (fun h => Relation.TransGen.single h)
      (Finite.wellFounded_of_trans_of_irrefl (Relation.TransGen (flip R)))
  exact exists_halts (R := fun s s' => R (key s) (key s')) I
    ((InvImage.wf key hwf).apply s) hI hstep

end Nested

end Loop
