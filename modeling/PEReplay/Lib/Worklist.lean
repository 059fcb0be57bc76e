/-
# Worklists: what a pop-and-expand loop reaches.

A worklist algorithm keeps a set of pending items and a set of visited ones.  It pops a pending
item, drops it when it lies outside the domain or was visited before, and otherwise visits it and
adds its successors.  Nothing is said about which item is popped.

`Reach` is the least set that contains the pending items of the domain and is closed under the
successors that stay in it.  The two results are that no run goes on for ever (`wf_of_pops`) and
that every run that has nothing left to pop has visited exactly `Reach` (`visited_eq_reach`), so the
order of the pops cannot be observed in the answer.
-/
import Mathlib.Data.Finset.Card
import Mathlib.Data.Fintype.Card
import Mathlib.Logic.Relation
import Mathlib.Order.RelClasses

namespace Worklist

variable {α : Type*}

/-- Pending and visited items. -/
structure State (α : Type*) where
  pending : Finset α
  visited : Finset α

section Definitions

variable (dom : α → Prop) (succ : α → Finset α)

/-- The state after popping `t`. -/
def pop [DecidableEq α] [DecidablePred dom] (s : State α) (t : α) : State α :=
  if dom t ∧ t ∉ s.visited then ⟨s.pending.erase t ∪ succ t, insert t s.visited⟩
  else ⟨s.pending.erase t, s.visited⟩

/-- The least set with the roots of the domain that is closed under successors in the domain. -/
inductive Reach (roots : α → Prop) : α → Prop where
  | root {a : α} : roots a → dom a → Reach roots a
  | succ {a b : α} : Reach roots a → b ∈ succ a → dom b → Reach roots b

end Definitions

variable {dom : α → Prop} {succ : α → Finset α}

/-- `Reach` is below every set with its two closure properties. -/
theorem Reach.least {roots : α → Prop} {S : α → Prop} (hroot : ∀ a, roots a → dom a → S a)
    (hsucc : ∀ a b, S a → b ∈ succ a → dom b → S b) {a : α} (h : Reach dom succ roots a) : S a := by
  induction h with
  | root hr hd => exact hroot _ hr hd
  | succ _ hb hd ih => exact hsucc _ _ ih hb hd

/-- What a run has established so far: everything visited is reachable, everything pending in the
domain is, no root is lost, and the successors of visited items are visited or pending. -/
structure Inv (dom : α → Prop) (succ : α → Finset α) (roots : α → Prop) (s : State α) : Prop where
  visited_reach : ∀ a ∈ s.visited, Reach dom succ roots a
  pending_reach : ∀ a ∈ s.pending, dom a → Reach dom succ roots a
  roots_kept : ∀ a, roots a → dom a → a ∈ s.visited ∨ a ∈ s.pending
  closed : ∀ a ∈ s.visited, ∀ b ∈ succ a, dom b → b ∈ s.visited ∨ b ∈ s.pending

theorem Inv.init (P : Finset α) : Inv dom succ (· ∈ P) ⟨P, ∅⟩ where
  visited_reach := fun _ h => absurd h (Finset.notMem_empty _)
  pending_reach := fun _ h hd => .root h hd
  roots_kept := fun _ h _ => Or.inr h
  closed := fun _ h => absurd h (Finset.notMem_empty _)

/-- Popping keeps the invariant. -/
theorem Inv.pop [DecidableEq α] [DecidablePred dom] {roots : α → Prop} {s : State α}
    (h : Inv dom succ roots s) {t : α} (ht : t ∈ s.pending) :
    Inv dom succ roots (pop dom succ s t) := by
  -- whatever was pending and is not `t` is still there
  have keep : ∀ a, a ∈ s.visited ∨ a ∈ s.pending → a ≠ t → a ∈ s.visited ∨ a ∈ s.pending.erase t :=
    fun a ha hne => ha.imp id fun hp => Finset.mem_erase.mpr ⟨hne, hp⟩
  unfold Worklist.pop
  split_ifs with hcond
  · obtain ⟨hdom, hnew⟩ := hcond
    have hreach : Reach dom succ roots t := h.pending_reach t ht hdom
    have widen : ∀ a, a ∈ s.visited ∨ a ∈ s.pending →
        a ∈ insert t s.visited ∨ a ∈ s.pending.erase t ∪ succ t := by
      intro a ha
      by_cases hat : a = t
      · exact Or.inl (hat ▸ Finset.mem_insert_self a s.visited)
      · exact (keep a ha hat).imp Finset.mem_insert_of_mem (Finset.mem_union_left _)
    refine ⟨?_, ?_, ?_, ?_⟩
    · intro a ha
      rcases Finset.mem_insert.mp ha with rfl | ha
      · exact hreach
      · exact h.visited_reach a ha
    · intro a ha hd
      rcases Finset.mem_union.mp ha with ha | ha
      · exact h.pending_reach a (Finset.mem_of_mem_erase ha) hd
      · exact .succ hreach ha hd
    · exact fun a hr hd => widen a (h.roots_kept a hr hd)
    · intro a ha b hb hd
      rcases Finset.mem_insert.mp ha with rfl | ha
      · exact Or.inr (Finset.mem_union_right _ hb)
      · exact widen b (h.closed a ha b hb hd)
  · -- a dropped item is outside the domain or visited already
    have drop : ∀ a, dom a → a ∈ s.visited ∨ a ∈ s.pending →
        a ∈ s.visited ∨ a ∈ s.pending.erase t := by
      intro a hd ha
      by_cases hat : a = t
      · subst hat
        exact Or.inl (by_contra fun hv => hcond ⟨hd, hv⟩)
      · exact keep a ha hat
    exact ⟨h.visited_reach, fun a ha hd => h.pending_reach a (Finset.mem_of_mem_erase ha) hd,
      fun a hr hd => drop a hd (h.roots_kept a hr hd),
      fun a ha b hb hd => drop b hd (h.closed a ha b hb hd)⟩

/-- **Exactness.** A run with nothing left to pop has visited exactly the reachable items. -/
theorem visited_eq_reach {roots : α → Prop} {s : State α} (h : Inv dom succ roots s)
    (hdone : s.pending = ∅) (a : α) : a ∈ s.visited ↔ Reach dom succ roots a := by
  have settled : ∀ b, b ∈ s.visited ∨ b ∈ s.pending → b ∈ s.visited := by
    intro b hb
    rcases hb with hb | hb
    · exact hb
    · exact absurd (hdone ▸ hb) (Finset.notMem_empty b)
  refine ⟨h.visited_reach a, fun hr => ?_⟩
  induction hr with
  | root hr hd => exact settled _ (h.roots_kept _ hr hd)
  | succ _ hb hd ih => exact settled _ (h.closed _ ih _ hb hd)

/-! ## Roots that come later -/

theorem Reach.mono {roots roots' : α → Prop} (hroots : ∀ a, roots a → roots' a) {a : α}
    (h : Reach dom succ roots a) : Reach dom succ roots' a :=
  h.least (fun _ hr hd => .root (hroots _ hr) hd) fun _ _ ha hb hd => .succ ha hb hd

/-- More roots, all of them pending when they are in the domain. -/
theorem Inv.add {roots roots' : α → Prop} {s s' : State α} (h : Inv dom succ roots s)
    (hroots : ∀ a, roots a → roots' a) (hvisited : s'.visited = s.visited)
    (hold : ∀ a ∈ s.pending, a ∈ s'.pending)
    (hnew : ∀ a ∈ s'.pending, a ∈ s.pending ∨ roots' a)
    (hpend : ∀ a, roots' a → dom a → roots a ∨ a ∈ s'.pending) : Inv dom succ roots' s' where
  visited_reach := by
    intro a ha
    rw [hvisited] at ha
    exact (h.visited_reach a ha).mono hroots
  pending_reach := by
    intro a ha hd
    rcases hnew a ha with ha | hr
    · exact (h.pending_reach a ha hd).mono hroots
    · exact .root hr hd
  roots_kept := by
    intro a hr hd
    rw [hvisited]
    rcases hpend a hr hd with hr | ha
    · exact (h.roots_kept a hr hd).imp_right (hold a)
    · exact Or.inr ha
  closed := by
    intro a ha b hb hd
    rw [hvisited] at ha ⊢
    exact (h.closed a ha b hb hd).imp_right (hold b)

/-- **A root may come at any time.** -/
theorem Inv.insert [DecidableEq α] {roots : α → Prop} {s : State α} (h : Inv dom succ roots s)
    (t : α) : Inv dom succ (fun a => roots a ∨ a = t) ⟨insert t s.pending, s.visited⟩ := by
  refine h.add (fun a ha => Or.inl ha) rfl (fun a ha => Finset.mem_insert_of_mem ha) ?_ ?_
  · intro a ha
    rcases Finset.mem_insert.mp ha with rfl | ha
    · exact Or.inr (Or.inr rfl)
    · exact Or.inl ha
  · rintro a (ha | rfl) _
    · exact Or.inl ha
    · exact Or.inr (Finset.mem_insert_self a s.pending)

/-- A root outside the domain may be left out. -/
theorem Inv.ignore {roots : α → Prop} {s : State α} (h : Inv dom succ roots s) {t : α}
    (ht : ¬dom t) : Inv dom succ (fun a => roots a ∨ a = t) s := by
  refine h.add (fun a ha => Or.inl ha) rfl (fun a ha => ha) (fun a ha => Or.inl ha) ?_
  rintro a (ha | rfl) hd
  · exact Or.inl ha
  · exact absurd hd ht

/-! ## Starting with visited items -/

/-- What a run has visited besides `old`. -/
def since [DecidableEq α] (old : Finset α) (s : State α) : State α := ⟨s.pending, s.visited \ old⟩

/-- **Items visited before the run** are as good as outside the domain: apart from them, a pop is a
pop in the smaller domain. -/
theorem since_pop [DecidableEq α] [DecidablePred dom] {old : Finset α} {s : State α}
    (hold : old ⊆ s.visited) (t : α) :
    since old (pop dom succ s t) = pop (fun a => dom a ∧ a ∉ old) succ (since old s) t := by
  have hcond : (dom t ∧ t ∉ s.visited) ↔ ((dom t ∧ t ∉ old) ∧ t ∉ (since old s).visited) := by
    show _ ↔ (_ ∧ t ∉ s.visited \ old)
    rw [Finset.mem_sdiff]
    constructor
    · exact fun ⟨hd, hv⟩ => ⟨⟨hd, fun ho => hv (hold ho)⟩, fun hmem => hv hmem.1⟩
    · exact fun ⟨⟨hd, ho⟩, hmem⟩ => ⟨hd, fun hv => hmem ⟨hv, ho⟩⟩
  unfold pop
  by_cases h : dom t ∧ t ∉ s.visited
  · rw [if_pos h, if_pos (hcond.mp h)]
    unfold since
    congr 1
    exact Finset.insert_sdiff_of_notMem _ fun ho => h.2 (hold ho)
  · rw [if_neg h, if_neg (mt hcond.mpr h)]
    rfl

/-! ## Termination -/

variable [DecidableEq α] [DecidablePred dom] [Fintype α]

/-- The unvisited items, then the pending ones: every pop makes the pair smaller. -/
def measure (s : State α) : Nat :=
  (Fintype.card α - s.visited.card) * (Fintype.card α + 1) + s.pending.card

theorem measure_pop_lt (s : State α) {t : α} (ht : t ∈ s.pending) :
    measure (pop dom succ s t) < measure s := by
  have herase : (s.pending.erase t).card + 1 = s.pending.card :=
    Finset.card_erase_add_one ht
  unfold pop measure
  split_ifs with hcond
  · -- one more visited item outweighs any number of new pending ones
    have hins : (insert t s.visited).card = s.visited.card + 1 :=
      Finset.card_insert_of_notMem hcond.2
    have hle : (insert t s.visited).card ≤ Fintype.card α := Finset.card_le_univ _
    have hpend : (s.pending.erase t ∪ succ t).card ≤ Fintype.card α := Finset.card_le_univ _
    rw [hins] at hle ⊢
    obtain ⟨d, hd⟩ : ∃ d, Fintype.card α - s.visited.card = d + 1 :=
      ⟨Fintype.card α - s.visited.card - 1, by omega⟩
    have hd' : Fintype.card α - (s.visited.card + 1) = d := by omega
    have hmul : (d + 1) * (Fintype.card α + 1) = d * (Fintype.card α + 1) + (Fintype.card α + 1) :=
      Nat.succ_mul d _
    rw [hd, hd', hmul]
    change d * (Fintype.card α + 1) + (s.pending.erase t ∪ succ t).card < _
    omega
  · change (Fintype.card α - s.visited.card) * (Fintype.card α + 1) + (s.pending.erase t).card < _
    omega

/-- **Termination.** Whatever takes steps that are pops of its worklist, of any pending item and
even with a domain that depends on the state, does not go on for ever. -/
theorem wf_of_pops {σ : Type*} (abs : σ → State α) {step : σ → σ → Prop}
    (hstep : ∀ s s', step s s' → ∃ (dom : α → Prop) (_ : DecidablePred dom) (succ : α → Finset α),
      ∃ t ∈ (abs s).pending, abs s' = pop dom succ (abs s) t) : WellFounded (flip step) := by
  refine Subrelation.wf ?_ (InvImage.wf (fun s => measure (abs s)) Nat.lt_wfRel.wf)
  intro s' s h
  obtain ⟨dom, _, succ, t, ht, habs⟩ := hstep s s' h
  show measure (abs s') < measure (abs s)
  rw [habs]
  exact measure_pop_lt (abs s) ht

end Worklist
