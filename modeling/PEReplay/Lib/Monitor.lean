/-
# An object behind one mutex.

Any number of threads call an operation on a shared object; a call takes the mutex, performs the
operation and gives the mutex back.  Between two steps of one thread any other thread may take a
step.  The object and its operation are parameters: `apply x op` is the object after the operation,
or `none` when the operation throws.

`Reachable` are the states of all runs in which no operation throws.  Whatever the interleaving,
the operations take effect one after the other, in the order in which the mutex was acquired
(`done_prefix`, `done_eq_acquired`), so an invariant of the object alone, relative to the sequence
of operations performed, holds in every reachable state (`Reachable.rule`).  Conversely operations
that the object admits one after the other are those of a run (`exists_reachable`).
-/
import Mathlib.Logic.Function.Basic
import Mathlib.Data.List.Induction

namespace Monitor

/-- Where a thread is in its call. -/
inductive Phase (ω : Type*) where
  | idle
  | waiting (op : ω)
  | holding (op : ω)
  | leaving
  deriving Repr, DecidableEq

/-- The object, the owner of the mutex, the threads, and two records of the past: the operations in
the order in which their calls acquired the mutex, and those already performed. -/
structure State (α ω : Type*) where
  object : α
  owner : Option Nat
  threads : Nat → Phase ω
  acquired : List ω
  done : List ω

/-- What a thread does next. -/
inductive Event (ω : Type*) where
  | call (t : Nat) (op : ω)
  | acquire (t : Nat)
  | perform (t : Nat)
  | release (t : Nat)
  deriving Repr, DecidableEq

variable {α ω : Type*}

def State.init (x : α) : State α ω := ⟨x, none, fun _ => .idle, [], []⟩

/-- One step; `none` when the thread is not there, is blocked, or its operation throws. -/
def step (apply : α → ω → Option α) (s : State α ω) : Event ω → Option (State α ω)
  | .call t op =>
      match s.threads t with
      | .idle => some { s with threads := Function.update s.threads t (.waiting op) }
      | _ => none
  | .acquire t =>
      match s.owner, s.threads t with
      | none, .waiting op =>
          some { s with
            owner := some t
            threads := Function.update s.threads t (.holding op)
            acquired := s.acquired ++ [op] }
      | _, _ => none
  | .perform t =>
      match s.threads t with
      | .holding op => (apply s.object op).map fun x =>
          { s with
            object := x
            threads := Function.update s.threads t .leaving
            done := s.done ++ [op] }
      | _ => none
  | .release t =>
      match s.threads t with
      | .leaving =>
          some { s with owner := none, threads := Function.update s.threads t .idle }
      | _ => none

/-- A thread about to perform an operation finds the object in a state that admits it. -/
def Admits (admits : α → ω → Prop) (s : State α ω) : Event ω → Prop
  | .perform t => ∀ op, s.threads t = .holding op → admits s.object op
  | _ => True

/-- The states of all runs from the object `x₀` in which no operation throws and every operation is
performed on an object that admits it. -/
inductive Reachable (apply : α → ω → Option α) (admits : α → ω → Prop) (x₀ : α) :
    State α ω → Prop where
  | init : Reachable apply admits x₀ (State.init x₀)
  | step {s s' : State α ω} (ev : Event ω) : Reachable apply admits x₀ s → Admits admits s ev →
      step apply s ev = some s' → Reachable apply admits x₀ s'

variable {apply : α → ω → Option α} {admits : α → ω → Prop} {x₀ : α} {s s' : State α ω}

/-- **What one step can do.** -/
theorem step_cases {ev : Event ω} (h : step apply s ev = some s') :
    (∃ t op, s.threads t = .idle ∧
      s' = { s with threads := Function.update s.threads t (.waiting op) }) ∨
    (∃ t op, s.threads t = .waiting op ∧ s.owner = none ∧
      s' = { s with
        owner := some t
        threads := Function.update s.threads t (.holding op)
        acquired := s.acquired ++ [op] }) ∨
    (∃ t op x, ev = .perform t ∧ s.threads t = .holding op ∧ apply s.object op = some x ∧
      s' = { s with
        object := x
        threads := Function.update s.threads t .leaving
        done := s.done ++ [op] }) ∨
    ∃ t, s.threads t = .leaving ∧
      s' = { s with owner := none, threads := Function.update s.threads t .idle } := by
  cases ev with
  | call t op =>
      simp only [step] at h
      split at h
      · exact Or.inl ⟨t, op, ‹_›, (Option.some.inj h).symm⟩
      · exact absurd h (by simp)
  | acquire t =>
      simp only [step] at h
      split at h
      · exact Or.inr (Or.inl ⟨t, _, ‹_›, ‹_›, (Option.some.inj h).symm⟩)
      · exact absurd h (by simp)
  | perform t =>
      simp only [step] at h
      split at h
      · obtain ⟨x, hx, rfl⟩ := Option.map_eq_some_iff.mp h
        exact Or.inr (Or.inr (Or.inl ⟨t, _, x, rfl, ‹_›, hx, rfl⟩))
      · exact absurd h (by simp)
  | release t =>
      simp only [step] at h
      split at h
      · exact Or.inr (Or.inr (Or.inr ⟨t, ‹_›, (Option.some.inj h).symm⟩))
      · exact absurd h (by simp)

/-! ## Mutual exclusion -/

/-- A thread is between acquiring and releasing the mutex. -/
def Phase.Inside : Phase ω → Prop
  | .holding _ | .leaving => True
  | _ => False

/-- The operation acquired but not yet performed, if there is one. -/
def State.pending (s : State α ω) : List ω :=
  match s.owner with
  | none => []
  | some t =>
      match s.threads t with
      | .holding op => [op]
      | _ => []

/-- Only the owner is inside, and what was acquired is what was done and the owner's operation. -/
structure Exclusive (s : State α ω) : Prop where
  inside : ∀ t, (s.threads t).Inside → s.owner = some t
  acquired : s.acquired = s.done ++ s.pending

theorem exclusive_init (x : α) : Exclusive (State.init x : State α ω) where
  inside := fun _ h => h.elim
  acquired := rfl

/-- **Step.** Every step keeps mutual exclusion. -/
theorem Exclusive.step (he : Exclusive s) {ev : Event ω}
    (h : Monitor.step apply s ev = some s') : Exclusive s' := by
  obtain ⟨hinside, hacquired⟩ := he
  obtain ⟨t, op, ht, rfl⟩ | ⟨t, op, ht, hfree, rfl⟩ | ⟨t, op, x, -, ht, -, rfl⟩ | ⟨t, ht, rfl⟩ :=
    step_cases h
  · -- a thread that starts to wait is not the owner
    refine ⟨fun u hu => ?_, ?_⟩
    · rcases eq_or_ne u t with rfl | hne
      · simp [Phase.Inside] at hu
      · exact hinside u (by simpa [Function.update_of_ne hne] using hu)
    · rw [hacquired]
      unfold State.pending
      cases hown : s.owner with
      | none => rfl
      | some u =>
          rcases eq_or_ne u t with rfl | hne
          · simp [ht]
          · simp [Function.update_of_ne hne]
  · have hnone : ∀ u, ¬ (s.threads u).Inside := by
      intro u hu
      rw [hinside u hu] at hfree
      exact absurd hfree (by simp)
    refine ⟨fun u hu => ?_, ?_⟩
    · rcases eq_or_ne u t with rfl | hne
      · rfl
      · exact absurd (by simpa [Function.update_of_ne hne] using hu) (hnone u)
    · rw [hacquired]
      simp [State.pending, hfree]
  · have hown : s.owner = some t := hinside t (by rw [ht]; trivial)
    refine ⟨fun u hu => ?_, ?_⟩
    · rcases eq_or_ne u t with rfl | hne
      · exact hown
      · exact hinside u (by simpa [Function.update_of_ne hne] using hu)
    · rw [hacquired]
      simp [State.pending, hown, ht]
  · have hown : s.owner = some t := hinside t (by rw [ht]; trivial)
    refine ⟨fun u hu => ?_, ?_⟩
    · rcases eq_or_ne u t with rfl | hne
      · simp [Phase.Inside] at hu
      · have hu' : s.owner = some u :=
          hinside u (by simpa [Function.update_of_ne hne] using hu)
        rw [hown] at hu'
        exact absurd (Option.some.inj hu').symm hne
    · rw [hacquired]
      simp [State.pending, hown, ht]

theorem Reachable.exclusive (h : Reachable apply admits x₀ s) : Exclusive s := by
  induction h with
  | init => exact exclusive_init x₀
  | step ev _ _ hstep ih => exact ih.step hstep

/-- **Operations take effect in the order in which the mutex was acquired.** -/
theorem Reachable.done_prefix (h : Reachable apply admits x₀ s) : s.done <+: s.acquired :=
  ⟨s.pending, h.exclusive.acquired.symm⟩

theorem Reachable.done_eq_acquired (h : Reachable apply admits x₀ s) (hfree : s.owner = none) :
    s.done = s.acquired := by
  rw [h.exclusive.acquired, State.pending, hfree, List.append_nil]

/-- **The rule.** What holds of the object at the start, and is kept by every operation performed on
an object that admits it, holds of the object in every reachable state. -/
theorem Reachable.rule (I : α → List ω → Prop) (hinit : I x₀ [])
    (hop : ∀ x ops op x', I x ops → admits x op → apply x op = some x' → I x' (ops ++ [op]))
    (h : Reachable apply admits x₀ s) : I s.object s.done := by
  induction h with
  | init => exact hinit
  | step ev _ hadm hstep ih =>
      obtain ⟨t, op, -, rfl⟩ | ⟨t, op, -, -, rfl⟩ | ⟨t, op, x, rfl, ht, hx, rfl⟩ | ⟨t, -, rfl⟩ :=
        step_cases hstep
      · exact ih
      · exact ih
      · exact hop _ _ _ _ ih (hadm op ht) hx
      · exact ih

/-! ## Runs -/

/-- Nobody is in a call. -/
structure State.Quiet (s : State α ω) : Prop where
  owner : s.owner = none
  threads : ∀ t, s.threads t = .idle

theorem State.quiet_init (x : α) : (State.init x : State α ω).Quiet := ⟨rfl, fun _ => rfl⟩

/-- **A call from beginning to end**, of any thread. -/
theorem Reachable.call (h : Reachable apply admits x₀ s) (hquiet : s.Quiet) (t : Nat) {op : ω}
    {x : α} (hadmits : admits s.object op) (happly : apply s.object op = some x) :
    ∃ s', Reachable apply admits x₀ s' ∧ s'.Quiet ∧ s'.object = x ∧ s'.done = s.done ++ [op] := by
  obtain ⟨object, owner, threads, acquired, done⟩ := s
  obtain ⟨rfl, hidle⟩ : owner = none ∧ ∀ u, threads u = .idle := ⟨hquiet.owner, hquiet.threads⟩
  have hcall : Monitor.step apply ⟨object, none, threads, acquired, done⟩ (.call t op) =
      some ⟨object, none, Function.update threads t (.waiting op), acquired, done⟩ := by
    simp only [Monitor.step, hidle t]
  have hacquire : Monitor.step apply
      ⟨object, none, Function.update threads t (.waiting op), acquired, done⟩ (.acquire t) =
      some ⟨object, some t, Function.update threads t (.holding op), acquired ++ [op], done⟩ := by
    simp only [Monitor.step, Function.update_self, Function.update_idem]
  have hperform : Monitor.step apply
      ⟨object, some t, Function.update threads t (.holding op), acquired ++ [op], done⟩
        (.perform t) =
      some ⟨x, some t, Function.update threads t .leaving, acquired ++ [op], done ++ [op]⟩ := by
    simp only [Monitor.step, Function.update_self, Function.update_idem]
    rw [show apply object op = some x from happly]
    rfl
  have hrelease : Monitor.step apply
      ⟨x, some t, Function.update threads t .leaving, acquired ++ [op], done ++ [op]⟩
        (.release t) =
      some ⟨x, none, Function.update threads t .idle, acquired ++ [op], done ++ [op]⟩ := by
    simp only [Monitor.step, Function.update_self, Function.update_idem]
  have hheld : Admits admits
      (⟨object, some t, Function.update threads t (.holding op), acquired ++ [op], done⟩ :
        State α ω) (.perform t) := by
    intro op' hop'
    simp only [Function.update_self] at hop'
    exact Phase.holding.inj hop' ▸ hadmits
  have h₁ := h.step (.call t op) trivial hcall
  have h₂ := h₁.step (.acquire t) trivial hacquire
  have h₃ := h₂.step (.perform t) hheld hperform
  refine ⟨_, h₃.step (.release t) trivial hrelease, ⟨rfl, fun u => ?_⟩, rfl, rfl⟩
  rcases eq_or_ne u t with rfl | hne
  · exact Function.update_self ..
  · exact (Function.update_of_ne hne ..).trans (hidle u)

/-- **Existence.** When every operation is admitted, and does not throw, where an invariant holds of
the object and the operations before, and keeps that invariant, some run performs them all. -/
theorem exists_reachable (I : α → List ω → Prop) (hinit : I x₀ []) (ops : List ω)
    (hop : ∀ x pre op, I x pre → pre ++ [op] <+: ops →
      admits x op ∧ ∃ x', apply x op = some x' ∧ I x' (pre ++ [op])) :
    ∃ s, Reachable apply admits x₀ s ∧ s.Quiet ∧ s.done = ops ∧ I s.object ops := by
  induction ops using List.reverseRecOn with
  | nil => exact ⟨_, .init, State.quiet_init x₀, rfl, hinit⟩
  | append_singleton ops op ih =>
      obtain ⟨s, hs, hquiet, hdone, hI⟩ := ih fun x pre op' hx hpre =>
        hop x pre op' hx (hpre.trans (List.prefix_append ops [op]))
      obtain ⟨hadmits, x, hx, hI'⟩ := hop s.object ops op hI List.prefix_rfl
      obtain ⟨s', hs', hquiet', rfl, hdone'⟩ := hs.call hquiet 0 hadmits hx
      exact ⟨s', hs', hquiet', by rw [hdone', hdone], hI'⟩

end Monitor
