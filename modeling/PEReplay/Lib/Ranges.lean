/-
# Ranges: merging half-open ranges, and the gaps between them.

A range is a pair, `[first, second)`.  `gaps e g rs` lists what lies between `g` and `e` around the
ranges `rs`: when the ranges are in order it is exactly what they leave uncovered (`covered_gaps`),
and they are in order as soon as no gap is reversed (`ordered_iff_gaps`).

`complete now rs` and `current now rs` run through `rs` with a current range `now`, extend it while
the next range touches it, and else close it and go on with the next one.  Together they cover what
the ranges cover (`covered_complete`), and of disjoint ranges the one left at the end is disjoint
from those completed (`disjoint_current`).
-/
import Mathlib.Data.List.Basic
import Mathlib.Order.Interval.Set.Disjoint
import Mathlib.Order.Interval.Set.LinearOrder
import Mathlib.Order.CompletePartialOrder

namespace Ranges

variable {α : Type*} [LinearOrder α]

/-- The points in some range. -/
def covered (rs : List (α × α)) : Set α := {x | ∃ r ∈ rs, x ∈ Set.Ico r.1 r.2}

theorem covered_nil : covered ([] : List (α × α)) = ∅ :=
  Set.eq_empty_iff_forall_notMem.mpr fun _ ⟨_, hr, _⟩ => absurd hr List.not_mem_nil

theorem covered_cons (r : α × α) (rs : List (α × α)) :
    covered (r :: rs) = Set.Ico r.1 r.2 ∪ covered rs := by
  ext x
  exact List.exists_mem_cons_iff ..

/-! ## Gaps -/

/-- What lies around the ranges, from `g` to `e`. -/
def gaps (e : α) : α → List (α × α) → List (α × α)
  | g, [] => [(g, e)]
  | g, r :: rs => (g, r.1) :: gaps e r.2 rs

/-- The ranges are in order between `g` and `e`. -/
def Ordered (e : α) : α → List (α × α) → Prop
  | g, [] => g ≤ e
  | g, r :: rs => g ≤ r.1 ∧ r.1 ≤ r.2 ∧ Ordered e r.2 rs

variable {e g : α} {rs : List (α × α)}

/-- Ranges are in order when no gap around them is reversed. -/
theorem ordered_iff_gaps (h : ∀ r ∈ rs, r.1 ≤ r.2) :
    Ordered e g rs ↔ ∀ p ∈ gaps e g rs, p.1 ≤ p.2 := by
  induction rs generalizing g with
  | nil =>
      rw [gaps, List.forall_mem_singleton]
      rfl
  | cons r rs ih =>
      rw [Ordered, gaps, List.forall_mem_cons, ih fun s hs => h s (List.mem_cons_of_mem _ hs)]
      exact and_congr_right fun _ => and_iff_right (h r List.mem_cons_self)

theorem Ordered.le (h : Ordered e g rs) : g ≤ e := by
  induction rs generalizing g with
  | nil => exact h
  | cons r rs ih => exact h.1.trans (h.2.1.trans (ih h.2.2))

/-- Ordered ranges lie between `g` and `e`. -/
theorem Ordered.covered_subset (h : Ordered e g rs) : covered rs ⊆ Set.Ico g e := by
  induction rs generalizing g with
  | nil =>
      rw [covered_nil]
      exact Set.empty_subset _
  | cons r rs ih =>
      obtain ⟨hgr, hr, hrest⟩ := h
      rw [covered_cons]
      apply Set.union_subset
      · exact Set.Ico_subset_Ico hgr hrest.le
      · exact (ih hrest).trans (Set.Ico_subset_Ico_left (hgr.trans hr))

/-- **The gaps of ordered ranges are what the ranges leave uncovered.** -/
theorem covered_gaps (h : Ordered e g rs) : covered (gaps e g rs) = Set.Ico g e \ covered rs := by
  induction rs generalizing g with
  | nil =>
      rw [gaps, covered_cons, covered_nil, Set.union_empty, Set.sdiff_empty]
  | cons r rs ih =>
      obtain ⟨hgr, hr, hrest⟩ := h
      have hbehind : ∀ x ∈ covered rs, r.2 ≤ x := fun x hx => (hrest.covered_subset hx).1
      have hre := hrest.le
      rw [gaps, covered_cons, covered_cons, ih hrest]
      ext x
      simp only [Set.mem_union, Set.mem_sdiff, Set.mem_Ico, not_or, not_and, not_lt]
      constructor
      · rintro (⟨hgx, hxr⟩ | ⟨⟨hrx, hxe⟩, hx⟩)
        · refine ⟨⟨hgx, hxr.trans_le (hr.trans hre)⟩, fun hrx => ?_, fun hx => ?_⟩
          · exact absurd hrx (not_le.mpr hxr)
          · exact absurd (hr.trans (hbehind x hx)) (not_le.mpr hxr)
        · exact ⟨⟨hgr.trans (hr.trans hrx), hxe⟩, fun _ => hrx, hx⟩
      · rintro ⟨⟨hgx, hxe⟩, hnot, hx⟩
        by_cases hxr : x < r.1
        · exact Or.inl ⟨hgx, hxr⟩
        · exact Or.inr ⟨⟨hnot (not_lt.mp hxr), hxe⟩, hx⟩

/-! ## Merging -/

/-- The ranges completed on the way. -/
def complete : α × α → List (α × α) → List (α × α)
  | _, [] => []
  | now, r :: rs => if r.1 = now.2 then complete (now.1, r.2) rs else now :: complete r rs

/-- The range that is left at the end. -/
def current : α × α → List (α × α) → α × α
  | now, [] => now
  | now, r :: rs => if r.1 = now.2 then current (now.1, r.2) rs else current r rs

variable {now : α × α}

/-- Merging turns no range round. -/
theorem le_complete (hnow : now.1 ≤ now.2) (h : ∀ r ∈ rs, r.1 ≤ r.2) :
    (∀ r ∈ complete now rs, r.1 ≤ r.2) ∧ (current now rs).1 ≤ (current now rs).2 := by
  induction rs generalizing now with
  | nil => exact ⟨fun r hr => absurd hr List.not_mem_nil, hnow⟩
  | cons r rs ih =>
      obtain ⟨hr, hrs⟩ := List.forall_mem_cons.mp h
      unfold complete current
      split_ifs with htouch
      · exact ih (hnow.trans (htouch ▸ hr)) hrs
      · exact ⟨List.forall_mem_cons.mpr ⟨hnow, (ih hr hrs).1⟩, (ih hr hrs).2⟩

/-- **Merging covers what was covered.** -/
theorem covered_complete (hnow : now.1 ≤ now.2) (h : ∀ r ∈ rs, r.1 ≤ r.2) :
    covered (complete now rs) ∪ Set.Ico (current now rs).1 (current now rs).2 =
      covered (now :: rs) := by
  induction rs generalizing now with
  | nil => rw [complete, current, covered_cons, covered_nil, Set.empty_union, Set.union_empty]
  | cons r rs ih =>
      obtain ⟨hr, hrs⟩ := List.forall_mem_cons.mp h
      unfold complete current
      split_ifs with htouch
      · have hjoin := hnow.trans (htouch.symm.le.trans hr)
        rw [ih hjoin hrs, covered_cons, covered_cons, covered_cons,
          ← Set.union_assoc, htouch, Set.Ico_union_Ico_eq_Ico hnow (htouch ▸ hr)]
      · rw [covered_cons, Set.union_assoc, ih hr hrs, ← covered_cons]

/-- Ranges that share no point. -/
abbrev Apart (r s : α × α) : Prop := Disjoint (Set.Ico r.1 r.2) (Set.Ico s.1 s.2)

/-- **Of disjoint ranges, the one left at the end is disjoint from those completed.** -/
theorem disjoint_current (hnow : now.1 ≤ now.2) (h : ∀ r ∈ rs, r.1 ≤ r.2)
    (hapart : (now :: rs).Pairwise Apart) :
    Disjoint (covered (complete now rs)) (Set.Ico (current now rs).1 (current now rs).2) := by
  induction rs generalizing now with
  | nil =>
      rw [complete, covered_nil]
      exact Set.empty_disjoint _
  | cons r rs ih =>
      obtain ⟨hr, hrs⟩ := List.forall_mem_cons.mp h
      obtain ⟨hfirst, hrest⟩ := List.pairwise_cons.mp hapart
      unfold complete current
      split_ifs with htouch
      · -- the merged range meets what one of its two parts meets
        refine ih (hnow.trans (htouch ▸ hr)) hrs (List.pairwise_cons.mpr ⟨?_, hrest.of_cons⟩)
        intro s hs
        have hunion := Set.Ico_union_Ico_eq_Ico hnow (htouch ▸ hr)
        show Disjoint (Set.Ico now.1 r.2) (Set.Ico s.1 s.2)
        rw [← hunion, ← htouch, Set.disjoint_union_left]
        refine ⟨?_, List.rel_of_pairwise_cons hrest hs⟩
        rw [htouch]
        exact hfirst s (List.mem_cons_of_mem _ hs)
      · rw [covered_cons, Set.disjoint_union_left]
        refine ⟨?_, ih hr hrs hrest⟩
        -- what is left at the end is covered by the ranges behind
        have hsub : Set.Ico (current r rs).1 (current r rs).2 ⊆ covered (r :: rs) := by
          rw [← covered_complete hr hrs]
          exact Set.subset_union_right
        refine Set.disjoint_left.mpr fun x hx hcur => ?_
        obtain ⟨s, hs, hxs⟩ := hsub hcur
        exact Set.disjoint_left.mp (hfirst s hs) hx hxs

end Ranges
