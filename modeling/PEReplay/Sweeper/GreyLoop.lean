/-
# PEReplay.Sweeper.GreyLoop — which bytes `spotGaps` sweeps when there are grey areas.

The loop over `vec_gaps` trims each gap, subtracts the grey areas from what is left, sweeps the rest
and comes back later to the ranges that the subtraction has pushed.  Of those only one is a range at
all, the one from the end of the first area that starts in the gap; the others are reversed, and
nothing becomes of them.  So what the loop comes to from one gap is a chain of trimmed ranges
(`SubGaps`), and the run of the loop is known: how many ranges it pushes, and which bytes it gives
to `linearSweepGap` (`halts_gaps`).

`sparesGreyAreas_iff` says when none of these bytes has been marked grey and the vector never had to
move.
-/
import PEReplay.Sweeper.GreyAreas
import PEReplay.Sweeper.Trim
import PEReplay.Sweeper.LinearSweep

namespace PEReplay

open Loop StaticTrace

/-- The address lies in the range. -/
def InRange (range : AddrRange) (x : Nat) : Prop := range.1.toNat ≤ x ∧ x < range.2.toNat

/-- How many areas lie in the range and do not cover it; each of them pushes a range. -/
def insideCount (grey : TraceSet) (range : AddrRange) : Nat :=
  if badRange range.1 range.2 then 0
  else grey.elems.countP fun area =>
    !area.contains range.1 (range.2 - range.1) && area.pertains range.1 (range.2 - range.1)

/-- The range that is given to `linearSweepGap`, when a trimmed gap is the range. -/
def sweptRange (grey : TraceSet) (range : AddrRange) : Option AddrRange :=
  if (isRangeIntersectedWithGreyArea grey range.1 range.2).bResult then none
  else some (leftRange grey range)

/-! ## What is pushed -/

section Pushed

variable {grey : TraceSet} {areas : List StaticTrace} {start stop : U32}

theorem length_pushed_foldl (st : GreyState) :
    (areas.foldl (greyStep start stop) st).pushed.length = st.pushed.length +
      areas.countP fun area => !area.contains start (stop - start) &&
        area.pertains start (stop - start) := by
  induction areas generalizing st with
  | nil => rfl
  | cons area areas ih =>
      rw [List.foldl_cons, ih, List.countP_cons]
      unfold greyStep
      split_ifs with hcontains hpertains
      all_goals simp_all
      omega

/-- Every area inside the range pushes one. -/
theorem length_pushedRanges (grey : TraceSet) (range : AddrRange) :
    (pushedRanges grey range).length = insideCount grey range := by
  unfold pushedRanges isRangeIntersectedWithGreyArea insideCount
  split_ifs
  · rfl
  · rw [length_pushed_foldl]
    exact Nat.zero_add _

/-- Where no area starts in the range, nothing is pushed. -/
theorem pushed_foldl_of_not_startsIn (hlt : start.toNat < stop.toNat)
    (hproper : ∀ a ∈ areas, a.Proper) (hnone : ∀ a ∈ areas, ¬ a.StartsIn start stop)
    (st : GreyState) : (areas.foldl (greyStep start stop) st).pushed = st.pushed := by
  induction areas generalizing st with
  | nil => rfl
  | cons area areas ih =>
      rw [List.foldl_cons, ih (fun a ha => hproper a (List.mem_cons_of_mem _ ha))
        fun a ha => hnone a (List.mem_cons_of_mem _ ha)]
      have hnot := hnone area List.mem_cons_self
      rcases greyStep_cases hlt st (hproper area List.mem_cons_self) with ⟨-, -, heq⟩ |
        ⟨-, -, heq⟩ | ⟨hin, -⟩ | ⟨hin, -⟩ | ⟨-, -, heq⟩
      · rw [heq]
      · rw [heq]
      · exact absurd hin hnot
      · exact absurd hin hnot
      · rw [heq]

/-- **What is pushed** for a range: where the first area that starts in it ends in it, the range
behind that area comes first; all others are reversed. -/
def PushedShape (areas : List StaticTrace) (start stop : U32) (pushed : List AddrRange) : Prop :=
  (∃ area rest, FirstWith (StartsIn start stop) areas area ∧ area.getEnd.toNat ≤ stop.toNat ∧
      pushed = (area.getEnd, stop) :: rest ∧ ∀ gap ∈ rest, gap.2.toNat < gap.1.toNat) ∨
    ((∀ area, FirstWith (StartsIn start stop) areas area → stop.toNat < area.getEnd.toNat) ∧
      ∀ gap ∈ pushed, gap.2.toNat < gap.1.toNat)

/-- An area behind all others that does not start in the range pushes nothing. -/
theorem PushedShape.snoc {pushed : List AddrRange} (h : PushedShape areas start stop pushed)
    {area : StaticTrace} (hlast : ∀ a ∈ areas, a.start.toNat < area.start.toNat)
    (hnot : ¬ (area.StartsIn start stop ∧ area.getEnd.toNat ≤ stop.toNat)) :
    PushedShape (areas ++ [area]) start stop pushed := by
  rcases h with ⟨first, rest, hfirst, hspec⟩ | ⟨hnone, hrev⟩
  · exact Or.inl ⟨first, rest, hfirst.snoc hlast, hspec⟩
  · refine Or.inr ⟨fun a ha => ?_, hrev⟩
    rcases firstWith_snoc_cases ha with ha | ⟨hin, rfl⟩
    · exact hnone a ha
    · exact not_le.mp fun hle => hnot ⟨hin, hle⟩

/-- A later area that starts in the range pushes a reversed one. -/
theorem PushedShape.snoc_reversed {pushed : List AddrRange}
    (h : PushedShape areas start stop pushed) {area : StaticTrace} {gap : AddrRange}
    (hlast : ∀ a ∈ areas, a.start.toNat < area.start.toNat)
    (hearlier : ∃ a ∈ areas, a.StartsIn start stop) (hrev : gap.2.toNat < gap.1.toNat) :
    PushedShape (areas ++ [area]) start stop (pushed ++ [gap]) := by
  have hsnoc : ∀ {l : List AddrRange}, (∀ g ∈ l, g.2.toNat < g.1.toNat) →
      ∀ g ∈ l ++ [gap], g.2.toNat < g.1.toNat := by
    intro l hl g hg
    rcases List.mem_append.mp hg with hg | hg
    · exact hl g hg
    · rw [List.mem_singleton.mp hg]
      exact hrev
  rcases h with ⟨first, rest, hfirst, hle, hpushed, hrest⟩ | ⟨hnone, hrest⟩
  · refine Or.inl ⟨first, rest ++ [gap], hfirst.snoc hlast, hle, ?_, hsnoc hrest⟩
    rw [hpushed]
    rfl
  · refine Or.inr ⟨fun b hb => ?_, hsnoc hrest⟩
    rcases firstWith_snoc_cases hb with hb | ⟨-, rfl⟩
    · exact hnone b hb
    · -- it is not the first
      obtain ⟨a, ha, hin⟩ := hearlier
      have h₁ := hb.2.2 a (List.mem_append_left _ ha) hin
      have h₂ := hlast a ha
      omega

/-- **Run.** By induction on the areas from the left; the first that starts in the range finds the
end where it was, every other one finds the start of the one before it. -/
theorem pushedShape_foldl (hlt : start.toNat < stop.toNat) (hproper : ∀ a ∈ areas, a.Proper)
    (hasc : areas.Pairwise fun a b => a.start.toNat < b.start.toNat) :
    PushedShape areas start stop
      (areas.foldl (greyStep start stop) ⟨start, stop, false, []⟩).pushed := by
  induction areas using List.reverseRecOn with
  | nil => exact Or.inr ⟨fun a ha => absurd ha.1 List.not_mem_nil,
      fun gap hgap => absurd hgap List.not_mem_nil⟩
  | append_singleton areas area ih =>
      obtain ⟨hasc', -, hlast⟩ := List.pairwise_append.mp hasc
      have hproper' : ∀ a ∈ areas, a.Proper := fun a ha => hproper a (List.mem_append_left _ ha)
      have hlast' : ∀ a ∈ areas, a.start.toNat < area.start.toNat := fun a ha =>
        hlast a ha area List.mem_cons_self
      have harea : area.Proper := hproper area (List.mem_append_right _ List.mem_cons_self)
      have hshape := ih hproper' hasc'
      have hend := harea.lt_getEnd
      rw [List.foldl_append]
      have hfollows := follows_foldl hlt hproper' hasc'
      generalize hst : areas.foldl (greyStep start stop) ⟨start, stop, false, []⟩ = st
        at hshape hfollows
      show PushedShape _ start stop (greyStep start stop st area).pushed
      rcases greyStep_cases hlt st harea with ⟨hreach, -, heq⟩ | ⟨hreach, -, heq⟩ |
        ⟨hin, hfits, heq⟩ | ⟨hin, hover, heq⟩ | ⟨-, hnot, heq⟩
      · rw [heq]
        exact hshape.snoc hlast' fun h => not_startsIn_of_reachesIn hreach h.1
      · rw [heq]
        exact hshape.snoc hlast' fun h => not_startsIn_of_reachesIn hreach h.1
      · rw [heq]
        show PushedShape _ start stop (st.pushed ++ [(area.getEnd, st.stop)])
        rcases hfollows.stop_eq with ⟨hnone, hstop⟩ | ⟨a, ha, hstop⟩
        · -- nothing has started here before, so nothing has been pushed
          rw [← hst, pushed_foldl_of_not_startsIn hlt hproper' hnone, hst, hstop]
          exact Or.inl ⟨area, [], firstWith_snoc hnone hin, hfits, rfl,
            fun gap hgap => absurd hgap List.not_mem_nil⟩
        · refine hshape.snoc_reversed hlast' ⟨a, ha.1, ha.2.1⟩ ?_
          show st.stop.toNat < area.getEnd.toNat
          rw [hstop]
          exact (hlast' a ha.1).trans hend
      · rw [heq]
        exact hshape.snoc hlast' fun h => absurd h.2 (not_le.mpr hover)
      · rw [heq]
        exact hshape.snoc hlast' fun h => hnot h.1

theorem pushedShape_pushedRanges (hproper : ∀ a ∈ grey, a.Proper) (hguard : ¬ badRange start stop)
    (hlt : start.toNat < stop.toNat) :
    PushedShape grey.elems start stop (pushedRanges grey (start, stop)) := by
  unfold pushedRanges isRangeIntersectedWithGreyArea
  rw [if_neg hguard]
  exact pushedShape_foldl hlt hproper grey.sorted_elems

/-! ## What is swept -/

/-- The result is true when an area covers the range. -/
theorem bResult_foldl (hlt : start.toNat < stop.toNat) (hproper : ∀ a ∈ areas, a.Proper)
    (st : GreyState) : (areas.foldl (greyStep start stop) st).bResult = true ↔
      st.bResult = true ∨
        ∃ a ∈ areas, a.start.toNat ≤ start.toNat ∧ stop.toNat ≤ a.getEnd.toNat := by
  induction areas generalizing st with
  | nil => simp
  | cons area areas ih =>
      rw [List.foldl_cons, ih fun a ha => hproper a (List.mem_cons_of_mem _ ha)]
      simp only [List.exists_mem_cons_iff, ← or_assoc]
      apply or_congr_left
      rcases greyStep_cases hlt st (hproper area List.mem_cons_self) with ⟨hreach, hcov, heq⟩ |
        ⟨-, hshort, heq⟩ | ⟨hin, -, heq⟩ | ⟨hin, -, heq⟩ | ⟨hnot, -, heq⟩
      · rw [heq]
        unfold ReachesIn at hreach
        exact iff_of_true rfl (Or.inr ⟨by omega, hcov⟩)
      · rw [heq]
        exact ⟨Or.inl, fun h => h.resolve_right fun hcov => absurd hcov.2 (not_le.mpr hshort)⟩
      · rw [heq]
        exact ⟨Or.inl, fun h => h.resolve_right hin.2.2⟩
      · rw [heq]
        exact ⟨Or.inl, fun h => h.resolve_right hin.2.2⟩
      · rw [heq]
        exact ⟨Or.inl, fun h => h.resolve_right fun hcov => hnot (Or.inl hcov)⟩

/-- An area covers the range. -/
def Covered (grey : TraceSet) (range : AddrRange) : Prop :=
  ∃ a ∈ grey, a.start.toNat ≤ range.1.toNat ∧ range.2.toNat ≤ a.getEnd.toNat

theorem sweptRange_of_covered (hproper : ∀ a ∈ grey, a.Proper) (hguard : ¬ badRange start stop)
    (hlt : start.toNat < stop.toNat) (h : Covered grey (start, stop)) :
    sweptRange grey (start, stop) = none := by
  unfold sweptRange isRangeIntersectedWithGreyArea
  rw [if_neg hguard]
  exact if_pos ((bResult_foldl hlt hproper _).mpr (Or.inr h))

theorem sweptRange_of_not_covered (hproper : ∀ a ∈ grey, a.Proper)
    (hguard : ¬ badRange start stop) (hlt : start.toNat < stop.toNat)
    (h : ¬ Covered grey (start, stop)) :
    sweptRange grey (start, stop) = some (leftRange grey (start, stop)) := by
  unfold sweptRange
  apply if_neg
  unfold isRangeIntersectedWithGreyArea
  rw [if_neg hguard]
  intro hresult
  rcases (bResult_foldl hlt hproper _).mp hresult with hfalse | hcov
  · exact absurd hfalse (by simp)
  · exact h hcov

theorem sweptRange_of_badRange {range : AddrRange} (h : badRange range.1 range.2) :
    sweptRange grey range = some range := by
  unfold sweptRange
  rw [(leftRange_of_badRange h).1]
  unfold isRangeIntersectedWithGreyArea
  rw [if_pos h]
  rfl

/-- Of a reversed range an area takes everything or nothing: only one that covers it meets it. -/
theorem greyStep_of_reversed (hrev : stop.toNat < start.toNat) (st : GreyState)
    {area : StaticTrace} (harea : area.Proper) :
    greyStep start stop st area = { st with start := st.stop, bResult := true } ∨
      greyStep start stop st area = st := by
  have hend := harea.lt_getEnd
  unfold greyStep StaticTrace.contains StaticTrace.pertains StaticTrace.intersect
  rw [range_add_sub, show area.start + area.size = area.getEnd from rfl]
  simp only [Bool.and_eq_true, decide_eq_true_eq, Bool.not_eq_true', Bool.or_eq_false_iff,
    decide_eq_false_iff_not, BitVec.le_def, BitVec.lt_def, ge_iff_le]
  split_ifs with hcovers hinside hmeets
  · exact Or.inl rfl
  · omega
  · omega
  · omega
  · exact Or.inr rfl

/-- A reversed range pushes nothing, and no address is left of it. -/
theorem grey_of_reversed (hproper : ∀ a ∈ grey, a.Proper) (hrev : stop.toNat < start.toNat) :
    pushedRanges grey (start, stop) = [] ∧
      (leftRange grey (start, stop)).2.toNat ≤ (leftRange grey (start, stop)).1.toNat := by
  have hfold : ∀ (areas : List StaticTrace) (st : GreyState), (∀ a ∈ areas, a.Proper) →
      st.pushed = [] ∧ st.stop.toNat ≤ st.start.toNat →
        (areas.foldl (greyStep start stop) st).pushed = [] ∧
        (areas.foldl (greyStep start stop) st).stop.toNat ≤
          (areas.foldl (greyStep start stop) st).start.toNat := by
    intro areas
    induction areas with
    | nil => exact fun st _ hst => hst
    | cons area areas ih =>
        intro st hall hst
        rw [List.foldl_cons]
        apply ih _ fun a ha => hall a (List.mem_cons_of_mem _ ha)
        rcases greyStep_of_reversed hrev st (hall area List.mem_cons_self) with heq | heq
        · rw [heq]
          exact ⟨hst.1, le_rfl⟩
        · rw [heq]
          exact hst
  unfold pushedRanges leftRange isRangeIntersectedWithGreyArea
  split_ifs
  · exact ⟨rfl, hrev.le⟩
  · exact hfold _ _ hproper ⟨rfl, hrev.le⟩

theorem sweptRange_of_reversed (hproper : ∀ a ∈ grey, a.Proper) {range : AddrRange}
    (hrev : range.2.toNat < range.1.toNat) {left : AddrRange} (h : left ∈ sweptRange grey range)
    (x : Nat) : ¬ InRange left x := by
  unfold sweptRange at h
  split_ifs at h
  · exact absurd h (by simp)
  · obtain rfl := Option.some.inj h
    have hempty : (leftRange grey range).2.toNat ≤ (leftRange grey range).1.toNat :=
      (grey_of_reversed hproper hrev).2
    unfold InRange
    omega

end Pushed

/-! ## Reversed ranges -/

section Reversed

variable {code : Code} {sec : CodeSection} {start stop : U32}

/-- Trampolines only move the start of a reversed range up. -/
theorem exists_comboTrampoline_of_reversed (hroom : sec.top + 5 < 2 ^ 32)
    (code : Code) (start stop : U32) :
    ∃ c : U32 × Bool × List SweepEvent,
      Computes (fun n => isRangeComboTrampoline n code sec start stop) c ∧
        start.toNat ≤ c.1.toNat := by
  show ∃ c : U32 × Bool × List SweepEvent,
    Computes (fun n => whileLoop (fun st => some (comboTrampolineBody code sec stop st)) n
      (start, false, [])) c ∧ start.toNat ≤ c.1.toNat
  refine total_rule
    (fun st : U32 × Bool × List SweepEvent => 2 ^ 32 - st.1.toNat)
    (fun st => start.toNat ≤ st.1.toNat)
    (fun c : U32 × Bool × List SweepEvent => start.toNat ≤ c.1.toNat) ?_ le_rfl
  intro st hst
  unfold comboTrampolineBody
  cases hsingle : isRangeSingleTrampoline code sec st.1 stop with
  | none => exact Or.inl ⟨st, computes_some _, hst⟩
  | some r =>
      unfold isRangeSingleTrampoline at hsingle
      split_ifs at hsingle with hcond
      obtain rfl := Option.some.inj hsingle
      have hlt := CodeSection.lt_top hcond.2.2.1
      have hnext : (st.1 + 5).toNat = st.1.toNat + 5 := by bv_omega
      refine Or.inr ⟨_, computes_some _, ?_, ?_⟩
      · show 2 ^ 32 - (st.1 + 5).toNat < _
        omega
      · show _ ≤ (st.1 + 5).toNat
        omega

/-- Padding goes from a reversed range on the outside only. -/
theorem trimPadding_of_reversed (code : Code) (sec : CodeSection) {st : TrimState}
    (hrev : st.stop.toNat < st.start.toNat) :
    (trimPadding code sec st).2.stop.toNat < (trimPadding code sec st).2.start.toNat := by
  have hpad := isRangeAlignPaddingStart_bounds code sec st.start st.stop
  have hdown := isRangeAlignPaddingEnd_le code sec st.start st.stop
  unfold trimPadding
  dsimp only
  split_ifs with hpadStart
  · rcases hpad with heq | ⟨-, hlt, -⟩
    · rw [heq] at hpadStart
      exact absurd hpadStart (by simp)
    · show st.stop.toNat < (isRangeAlignPaddingStart code sec st.start st.stop).2.toNat
      omega
  · show (isRangeAlignPaddingEnd code sec st.start st.stop).2.toNat < st.start.toNat
    omega

/-- The pass that meets a reversed range is the last one. -/
theorem afterTrampolines_of_reversed (code : Code) (sec : CodeSection)
    {c : U32 × Bool × List SweepEvent} (hrev : stop.toNat < c.1.toNat) :
    ∃ st : TrimState, st.stop.toNat < st.start.toNat ∧
      CodeSectionSweeper.afterTrampolines code sec ⟨start, stop, []⟩ c = .exit st := by
  have hpadded := @trimPadding_of_reversed code sec ⟨c.1, stop, [] ++ c.2.2⟩ hrev
  unfold CodeSectionSweeper.afterTrampolines
  dsimp only
  split_ifs with hcombo hagain hagain
  · exact absurd hagain.2 (by show ¬ c.1 < stop; rw [BitVec.lt_def]; omega)
  · exact ⟨_, by show stop.toNat < c.1.toNat; omega, rfl⟩
  · exact absurd hagain.2 (by rw [BitVec.lt_def]; omega)
  · exact ⟨_, hpadded, rfl⟩

/-- `TrimGap` leaves a reversed range in one pass, and leaves a reversed range. -/
theorem exists_trimGap_of_reversed (hroom : sec.top + 5 < 2 ^ 32)
    (code : Code) (hrev : stop.toNat < start.toNat) :
    ∃ st : TrimState, Computes (fun n => trimGap n code sec start stop) (false, st) ∧
      st.stop.toNat < st.start.toNat := by
  obtain ⟨c, hcombo, hup⟩ := exists_comboTrampoline_of_reversed hroom code start stop
  obtain ⟨st, hst, heq⟩ := afterTrampolines_of_reversed code sec (lt_of_lt_of_le hrev hup)
  have hbody : Computes (fun n => trimBody n code sec ⟨start, stop, []⟩) (.exit st) := by
    rw [← heq]
    simp only [CodeSectionSweeper.trimBody_eq]
    exact hcombo.map _
  have hloop : Computes (fun n => whileLoop (trimBody n code sec) n ⟨start, stop, []⟩) st :=
    (Halts.exit hbody).computes
  have htrim : Computes (fun n => trimGap n code sec start stop) (st.start == st.stop, st) :=
    hloop.map fun st => (st.start == st.stop, st)
  have hne : (st.start == st.stop) = false := by
    apply beq_false_of_ne
    intro heq
    rw [heq] at hst
    exact lt_irrefl _ hst
  rw [hne] at htrim
  exact ⟨st, htrim, hst⟩

end Reversed

/-! ## What the loop comes to from one gap -/

/-- The ranges that the loop over `vec_gaps` comes to from a gap, as `TrimGap` leaves them: the gap
and, as long as the first area that starts in a trimmed range ends in it, the range behind that
area. -/
inductive SubGaps (code : Code) (sec : CodeSection) (grey : TraceSet) :
    AddrRange → List AddrRange → Prop
  | nothing {gap : AddrRange} {st : TrimState} :
      Computes (fun n => trimGap n code sec gap.1 gap.2) (true, st) → SubGaps code sec grey gap []
  | last {gap : AddrRange} {st : TrimState} :
      Computes (fun n => trimGap n code sec gap.1 gap.2) (false, st) →
      (¬ badRange st.start st.stop → ∀ area, FirstWith (StartsIn st.start st.stop) grey.elems area →
        st.stop.toNat < area.getEnd.toNat) →
      SubGaps code sec grey gap [(st.start, st.stop)]
  | next {gap : AddrRange} {st : TrimState} {area : StaticTrace} {ranges : List AddrRange} :
      Computes (fun n => trimGap n code sec gap.1 gap.2) (false, st) →
      ¬ badRange st.start st.stop → FirstWith (StartsIn st.start st.stop) grey.elems area →
      area.getEnd.toNat ≤ st.stop.toNat →
      SubGaps code sec grey (area.getEnd, st.stop) ranges →
      SubGaps code sec grey gap ((st.start, st.stop) :: ranges)

theorem FirstWith.unique {P : StaticTrace → Prop} {grey : TraceSet} {a b : StaticTrace}
    (ha : FirstWith P grey.elems a) (hb : FirstWith P grey.elems b) : a = b :=
  grey.eq_of_key_eq ha.1 hb.1 (le_antisymm (ha.2.2 b hb.1 hb.2.1) (hb.2.2 a ha.1 ha.2.1))

section SubGaps

variable {code : Code} {sec : CodeSection} {grey : TraceSet} {gap : AddrRange}
  {ranges : List AddrRange}

/-- What `TrimGap` leaves of a gap that is not reversed. -/
theorem trimGap_inside {trimmed : Bool} {st : TrimState} (hle : gap.1.toNat ≤ gap.2.toNat)
    (h : Computes (fun n => trimGap n code sec gap.1 gap.2) (trimmed, st)) :
    gap.1.toNat ≤ st.start.toNat ∧ st.start.toNat ≤ st.stop.toNat ∧
      st.stop.toNat ≤ gap.2.toNat ∧ (trimmed = false → st.start.toNat < st.stop.toNat) := by
  obtain ⟨st', hst', htrims, -⟩ := exists_trimGap code sec hle
  obtain ⟨rfl, rfl⟩ := Prod.mk.inj (h.unique hst')
  refine ⟨htrims.lower, htrims.le, htrims.upper, fun hne => lt_of_le_of_ne htrims.le fun heq => ?_⟩
  exact ne_of_beq_false hne (BitVec.eq_of_toNat_eq heq)

/-- They lie in the gap, and none is empty. -/
theorem SubGaps.inside (hproper : ∀ a ∈ grey, a.Proper) (h : SubGaps code sec grey gap ranges)
    (hle : gap.1.toNat ≤ gap.2.toNat) : ∀ range ∈ ranges, gap.1.toNat ≤ range.1.toNat ∧
      range.1.toNat < range.2.toNat ∧ range.2.toNat ≤ gap.2.toNat := by
  induction h with
  | nothing => exact fun range hrange => absurd hrange List.not_mem_nil
  | last htrim =>
      intro range hrange
      obtain ⟨hlo, -, hhi, hlt⟩ := trimGap_inside hle htrim
      rw [List.mem_singleton.mp hrange]
      exact ⟨hlo, hlt rfl, hhi⟩
  | @next gap st area ranges htrim _ hfirst hend _ ih =>
      intro range hrange
      obtain ⟨hlo, -, hhi, hlt⟩ := trimGap_inside hle htrim
      rcases List.mem_cons.mp hrange with rfl | hrange
      · exact ⟨hlo, hlt rfl, hhi⟩
      · obtain ⟨hlo', hlt', hhi'⟩ := ih hend range hrange
        have hpos := (hproper area hfirst.1).lt_getEnd
        have hin : st.start.toNat ≤ area.start.toNat := hfirst.2.1.1
        dsimp only at hlo' hhi'
        exact ⟨by omega, hlt', hhi'.trans hhi⟩

/-- Every gap has such ranges: the next one begins behind an area of the gap. -/
theorem exists_subGaps (code : Code) (sec : CodeSection) (hproper : ∀ a ∈ grey, a.Proper)
    (hle : gap.1.toNat ≤ gap.2.toNat) : ∃ ranges, SubGaps code sec grey gap ranges := by
  generalize hk : gap.2.toNat - gap.1.toNat = k
  induction k using Nat.strong_induction_on generalizing gap with
  | _ k ih =>
      obtain ⟨st, htrim, -⟩ := exists_trimGap code sec hle
      generalize (st.start == st.stop) = trimmed at htrim
      obtain ⟨hlo, -, hhi, -⟩ := trimGap_inside hle htrim
      cases trimmed with
      | true => exact ⟨[], .nothing htrim⟩
      | false =>
          by_cases hnext : ¬ badRange st.start st.stop ∧
              ∃ area, FirstWith (StartsIn st.start st.stop) grey.elems area ∧
                area.getEnd.toNat ≤ st.stop.toNat
          · obtain ⟨hguard, area, hfirst, hend⟩ := hnext
            have hpos := (hproper area hfirst.1).lt_getEnd
            obtain ⟨hin, hlt, -⟩ := hfirst.2.1
            obtain ⟨ranges, hranges⟩ := @ih (st.stop.toNat - area.getEnd.toNat) (by omega)
              (area.getEnd, st.stop) hend rfl
            exact ⟨_, .next htrim hguard hfirst hend hranges⟩
          · exact ⟨_, .last htrim fun hguard area hfirst =>
              not_le.mp fun hend => hnext ⟨hguard, area, hfirst, hend⟩⟩

end SubGaps

/-! ## The run of the loop -/

/-- An element of `vec_gaps`, and the trimmed ranges that the loop comes to from it. -/
inductive Task (code : Code) (sec : CodeSection) (grey : TraceSet) :
    AddrRange → List AddrRange → Prop
  | gap {gap : AddrRange} {ranges : List AddrRange} : gap.1.toNat ≤ gap.2.toNat →
      SubGaps code sec grey gap ranges → Task code sec grey gap ranges
  | reversed {gap : AddrRange} : gap.2.toNat < gap.1.toNat → Task code sec grey gap []

/-- The addresses swept in trimmed ranges. -/
def SweptIn (grey : TraceSet) (ranges : List AddrRange) (x : Nat) : Prop :=
  ∃ range ∈ ranges, ∃ left ∈ sweptRange grey range, InRange left x

/-- How many ranges are pushed for trimmed ranges. -/
def pushCount (grey : TraceSet) (ranges : List AddrRange) : Nat :=
  (ranges.map (insideCount grey)).sum

/-- The passes that an element takes are at most these. -/
def weight (grey : TraceSet) (ranges : List AddrRange) : Nat :=
  1 + ranges.length + pushCount grey ranges

section Run

variable {code : Code} {sec : CodeSection} {grey : TraceSet} {longest : Nat} {gap : AddrRange}
  {ranges ranges' : List AddrRange}

theorem sweptIn_append (x : Nat) :
    SweptIn grey (ranges ++ ranges') x ↔ SweptIn grey ranges x ∨ SweptIn grey ranges' x := by
  unfold SweptIn
  simp only [List.mem_append, or_and_right, exists_or]

theorem pushCount_append :
    pushCount grey (ranges ++ ranges') = pushCount grey ranges + pushCount grey ranges' := by
  unfold pushCount
  rw [List.map_append, List.sum_append]

theorem pushCount_cons (range : AddrRange) :
    pushCount grey (range :: ranges) = insideCount grey range + pushCount grey ranges := rfl

/-- Reversed ranges wait for one pass each, and nothing comes of it. -/
theorem exists_tasks_of_reversed {gaps : List AddrRange}
    (hrev : ∀ gap ∈ gaps, gap.2.toNat < gap.1.toNat) :
    ∃ rangess, List.Forall₂ (Task code sec grey) gaps rangess ∧ rangess.flatten = [] ∧
      (rangess.map (weight grey)).sum = gaps.length := by
  induction gaps with
  | nil => exact ⟨[], .nil, rfl, rfl⟩
  | cons gap gaps ih =>
      obtain ⟨rangess, htasks, hnil, hsum⟩ := ih fun g hg => hrev g (List.mem_cons_of_mem _ hg)
      refine ⟨[] :: rangess, .cons (.reversed (hrev gap List.mem_cons_self)) htasks, hnil, ?_⟩
      rw [List.map_cons, List.sum_cons, hsum, List.length_cons]
      exact Nat.add_comm 1 _

/-- The body of the loop, `TrimGap` having left something. -/
theorem exists_sweepGap (grey : TraceSet) (hb : sec.Below code longest) {st : TrimState}
    (htrim : Computes (fun n => trimGap n code sec gap.1 gap.2) (false, st)) :
    ∃ pass, Computes (fun n => sweepGap n code sec grey gap) pass ∧
      pass.swept = sweptRange grey (st.start, st.stop) ∧
      pass.pushed = pushedRanges grey (st.start, st.stop) := by
  obtain ⟨n, hn⟩ := htrim
  unfold sweptRange
  cases hresult : (isRangeIntersectedWithGreyArea grey st.start st.stop).bResult with
  | true =>
      refine ⟨⟨st.events, none, _⟩, ⟨n, fun m hm => ?_⟩, rfl, rfl⟩
      show sweepGap m code sec grey gap = _
      unfold sweepGap
      rw [show trimGap m code sec gap.1 gap.2 = _ from hn m hm]
      exact if_pos hresult
  | false =>
      obtain ⟨events, ⟨k, hk⟩, -⟩ := exists_linearSweepGap hb
        (isRangeIntersectedWithGreyArea grey st.start st.stop).start
        (isRangeIntersectedWithGreyArea grey st.start st.stop).stop
      refine ⟨⟨st.events ++ events, some (leftRange grey (st.start, st.stop)), _⟩,
        ⟨max n k, fun m hm => ?_⟩, rfl, rfl⟩
      show sweepGap m code sec grey gap = _
      unfold sweepGap
      rw [show trimGap m code sec gap.1 gap.2 = _ from hn m (le_trans (le_max_left n k) hm)]
      dsimp only
      rw [hresult, if_neg (by simp), show linearSweepGap m code sec
        (isRangeIntersectedWithGreyArea grey st.start st.stop).start
        (isRangeIntersectedWithGreyArea grey st.start st.stop).stop = _ from
        hk m (le_trans (le_max_right n k) hm)]
      rfl

theorem computes_sweepGap_nothing {st : TrimState}
    (htrim : Computes (fun n => trimGap n code sec gap.1 gap.2) (true, st)) :
    Computes (fun n => sweepGap n code sec grey gap) ⟨st.events, none, []⟩ := by
  obtain ⟨n, hn⟩ := htrim
  refine ⟨n, fun m hm => ?_⟩
  show sweepGap m code sec grey gap = _
  unfold sweepGap
  rw [show trimGap m code sec gap.1 gap.2 = _ from hn m hm]

/-- The pass over an element has swept the first of its trimmed ranges, and pushed elements from
which the loop comes to the others, `rangess`. -/
structure Serves (code : Code) (sec : CodeSection) (grey : TraceSet) (ranges : List AddrRange)
    (pass : GapPass) (rangess : List (List AddrRange)) : Prop where
  tasks : List.Forall₂ (Task code sec grey) pass.pushed rangess
  swept : ∀ x, SweptIn grey ranges x ↔
    (∃ left ∈ pass.swept, InRange left x) ∨ SweptIn grey rangess.flatten x
  count : pushCount grey ranges = pass.pushed.length + pushCount grey rangess.flatten
  less : (rangess.map (weight grey)).sum < weight grey ranges

theorem Serves.nothing {pass : GapPass} (hpushed : pass.pushed = [])
    (hswept : ∀ left ∈ pass.swept, ∀ x, ¬ InRange left x) :
    Serves code sec grey [] pass [] where
  tasks := by
    rw [hpushed]
    exact .nil
  swept := by
    have hnone : ∀ x, ¬ SweptIn grey [] x := fun x ⟨_, hmem, _⟩ => List.not_mem_nil hmem
    intro x
    refine iff_of_false (hnone x) ?_
    rintro (⟨left, hleft, hx⟩ | hx)
    · exact hswept left hleft x hx
    · exact hnone x hx
  count := by
    rw [hpushed]
    rfl
  less := Nat.succ_pos _

/-- Only reversed ranges have been pushed. -/
theorem exists_serves_last {pass : GapPass} {range : AddrRange}
    (hswept : pass.swept = sweptRange grey range)
    (hcount : pass.pushed.length = insideCount grey range)
    (hrev : ∀ g ∈ pass.pushed, g.2.toNat < g.1.toNat) :
    ∃ rangess, Serves code sec grey [range] pass rangess := by
  obtain ⟨rangess, htasks, hnil, hsum⟩ := exists_tasks_of_reversed hrev
  refine ⟨rangess, htasks, fun x => ?_, ?_, ?_⟩
  · rw [hnil, hswept]
    unfold SweptIn
    simp
  · rw [hnil, hcount]
    rfl
  · rw [hsum, hcount]
    show _ < 1 + 1 + (_ + 0)
    omega

/-- A range that is none of these has been pushed before them. -/
theorem exists_serves_next {pass : GapPass} {range next : AddrRange} {rest : List AddrRange}
    (hswept : pass.swept = sweptRange grey range)
    (hcount : pass.pushed.length = insideCount grey range) (hcons : pass.pushed = next :: rest)
    (hrev : ∀ g ∈ rest, g.2.toNat < g.1.toNat) (htask : Task code sec grey next ranges) :
    ∃ rangess, Serves code sec grey (range :: ranges) pass rangess := by
  obtain ⟨rangess, htasks, hnil, hsum⟩ := exists_tasks_of_reversed hrev
  refine ⟨ranges :: rangess, ?_, fun x => ?_, ?_, ?_⟩
  · rw [hcons]
    exact .cons htask htasks
  · rw [List.flatten_cons, hnil, List.append_nil, hswept]
    unfold SweptIn
    simp
  · rw [List.flatten_cons, hnil, List.append_nil, hcount]
    rfl
  · rw [hcons, List.length_cons] at hcount
    rw [List.map_cons, List.sum_cons, hsum]
    unfold weight
    rw [pushCount_cons, List.length_cons]
    omega

/-- **Step.** The body of the loop ends, and has served the element. -/
theorem exists_sweepGap_task (hb : sec.Below code longest) (hlongest : 5 ≤ longest)
    (hproper : ∀ a ∈ grey, a.Proper) (h : Task code sec grey gap ranges) :
    ∃ pass rangess, Computes (fun n => sweepGap n code sec grey gap) pass ∧
      Serves code sec grey ranges pass rangess := by
  have hroom : sec.top + 5 < 2 ^ 32 := lt_of_le_of_lt (Nat.add_le_add_left hlongest _) hb.room
  cases h with
  | reversed hrev =>
      obtain ⟨st, htrim, hrev'⟩ := exists_trimGap_of_reversed hroom code hrev
      obtain ⟨pass, hpass, hswept, hpushed⟩ := exists_sweepGap grey hb htrim
      rw [(grey_of_reversed hproper hrev').1] at hpushed
      refine ⟨pass, [], hpass, .nothing hpushed fun left hleft => ?_⟩
      exact sweptRange_of_reversed hproper hrev' (hswept ▸ hleft)
  | gap hle hsub =>
      cases hsub with
      | nothing htrim =>
          exact ⟨_, [], computes_sweepGap_nothing htrim,
            .nothing rfl fun left hleft => absurd hleft (by simp)⟩
      | @last _ st htrim hbeyond =>
          obtain ⟨-, -, -, hlt⟩ := trimGap_inside hle htrim
          obtain ⟨pass, hpass, hswept, hpushed⟩ := exists_sweepGap grey hb htrim
          have hrev : ∀ g ∈ pass.pushed, g.2.toNat < g.1.toNat := by
            rw [hpushed]
            by_cases hguard : badRange st.start st.stop
            · rw [(leftRange_of_badRange hguard).2]
              exact fun g hg => absurd hg List.not_mem_nil
            · rcases pushedShape_pushedRanges hproper hguard (hlt rfl) with
                ⟨area, _, hfirst, hend, -⟩ | ⟨-, hrev⟩
              · exact absurd (hbeyond hguard area hfirst) (not_lt.mpr hend)
              · exact hrev
          obtain ⟨rangess, hserves⟩ := exists_serves_last hswept
            (by rw [hpushed, length_pushedRanges]) hrev
          exact ⟨pass, rangess, hpass, hserves⟩
      | @next _ st area ranges htrim hguard hfirst hend hrest =>
          obtain ⟨-, -, -, hlt⟩ := trimGap_inside hle htrim
          obtain ⟨pass, hpass, hswept, hpushed⟩ := exists_sweepGap grey hb htrim
          obtain ⟨rest, hcons, hrev⟩ : ∃ rest, pass.pushed = (area.getEnd, st.stop) :: rest ∧
              ∀ g ∈ rest, g.2.toNat < g.1.toNat := by
            rw [hpushed]
            rcases pushedShape_pushedRanges hproper hguard (hlt rfl) with
              ⟨area', rest, hfirst', -, hcons, hrev⟩ | ⟨hbeyond, -⟩
            · obtain rfl := hfirst.unique hfirst'
              exact ⟨rest, hcons, hrev⟩
            · exact absurd (hbeyond area hfirst) (not_lt.mpr hend)
          obtain ⟨rangess, hserves⟩ := exists_serves_next hswept
            (by rw [hpushed, length_pushedRanges]) hcons hrev (.gap hend hrest)
          exact ⟨pass, rangess, hpass, hserves⟩

/-- **Run.** The loop over `vec_gaps` ends, and what it pushes and sweeps is known from what it
comes to from each of its elements. -/
theorem halts_gaps (hb : sec.Below code longest) (hlongest : 5 ≤ longest)
    (hproper : ∀ a ∈ grey, a.Proper) (st : GapsState) {rangess : List (List AddrRange)}
    (h : List.Forall₂ (Task code sec grey) st.gaps rangess) :
    ∃ st', Halts (fun n => gapsBody n code sec grey) st st' ∧
      st'.grown = st.grown + pushCount grey rangess.flatten ∧
      ∀ x, (∃ range ∈ st'.swept, InRange range x) ↔
        (∃ range ∈ st.swept, InRange range x) ∨ SweptIn grey rangess.flatten x := by
  generalize hk : (rangess.map (weight grey)).sum = k
  induction k using Nat.strong_induction_on generalizing st rangess with
  | _ k ih =>
      generalize hgaps : st.gaps = gaps at h
      cases h with
      | nil =>
          refine ⟨st, .exit ?_, rfl, fun x => ?_⟩
          · unfold gapsBody
            rw [hgaps]
            exact computes_some _
          · exact ⟨Or.inl, fun hx => hx.resolve_right fun ⟨_, hmem, _⟩ => List.not_mem_nil hmem⟩
      | @cons gap ranges gaps rangess htask htasks =>
          obtain ⟨pass, rangess', hpass, htasks', hswept, hcount, hless⟩ :=
            exists_sweepGap_task hb hlongest hproper htask
          have hbody : Computes (fun n => gapsBody n code sec grey st)
              (.next (st.advance gaps pass)) := by
            unfold gapsBody
            rw [hgaps]
            exact hpass.map fun r => LoopStep.next (st.advance gaps r)
          rw [List.map_cons, List.sum_cons] at hk
          have hsum : ((rangess ++ rangess').map (weight grey)).sum < k := by
            rw [List.map_append, List.sum_append]
            omega
          have hqueue : List.Forall₂ (Task code sec grey) (st.advance gaps pass).gaps
              (rangess ++ rangess') := List.rel_append htasks htasks'
          obtain ⟨st', hhalts, hgrown, hfinal⟩ := ih _ hsum _ hqueue rfl
          refine ⟨st', .next hbody hhalts, ?_, fun x => ?_⟩
          · rw [hgrown, List.flatten_append, List.flatten_cons, pushCount_append, pushCount_append,
              hcount]
            show st.grown + pass.pushed.length + _ = _
            omega
          · rw [hfinal, List.flatten_append, List.flatten_cons, sweptIn_append, sweptIn_append,
              hswept]
            have hadvance : (∃ range ∈ (st.advance gaps pass).swept, InRange range x) ↔
                (∃ range ∈ st.swept, InRange range x) ∨ ∃ left ∈ pass.swept, InRange left x := by
              unfold GapsState.advance
              simp only [List.mem_append, Option.mem_toList, or_and_right, exists_or,
                Option.mem_def]
            rw [hadvance, or_assoc, or_assoc]
            exact or_congr_right (or_congr_right or_comm)

end Run

/-! ## When nothing marked is swept -/

/-- In a trimmed range: a range that the guard stops has no grey byte, and any other is covered by
an area or clean. -/
structure CleanRange (grey : TraceSet) (range : AddrRange) : Prop where
  guarded : badRange range.1 range.2 → ∀ area ∈ grey, ∀ x ∈ area.bytes, ¬ InRange range x
  clean : ¬ badRange range.1 range.2 → Covered grey range ∨ CleanAt grey range.1 range.2

/-- The grey areas are subtracted exactly from every gap; and the loop over `vec_gaps` ends without
having advanced an iterator of a vector that has moved, and without having given a marked byte to
`linearSweepGap`. -/
structure SparesGreyAreas (code : Code) (sec : CodeSection) (grey : TraceSet)
    (marks : List (U32 × U32)) (gaps : List AddrRange) (room : Nat) : Prop where
  exact : ∀ gap ∈ gaps, SubtractsExactly grey marks gap
  spared : ∃ st, Computes (fun n => gapsLoop n code sec grey gaps) st ∧
    st.dangles room = false ∧ ∀ range ∈ st.swept, ∀ x, InRange range x → ¬ Marked marks x

/-- Every gap is clean; and the trimmed ranges that the loop comes to are clean, and have no more
areas inside than `vec_gaps` has room for. -/
structure CleanGaps (code : Code) (sec : CodeSection) (grey : TraceSet)
    (marks : List (U32 × U32)) (gaps : List AddrRange) (room : Nat) : Prop where
  untrimmed : ∀ gap ∈ gaps, CleanGap grey marks gap
  trimmed : ∃ rangess, List.Forall₂ (SubGaps code sec grey) gaps rangess ∧
    (∀ range ∈ rangess.flatten, CleanRange grey range) ∧ pushCount grey rangess.flatten ≤ room

section Clean

variable {code : Code} {sec : CodeSection} {grey : TraceSet} {marks : List (U32 × U32)}
  {gaps : List AddrRange} {longest : Nat}

/-- What is swept of one trimmed range. -/
theorem not_marked_iff_cleanRange (hproper : ∀ a ∈ grey, a.Proper)
    (hmarked : ∀ a ∈ grey, ∀ x ∈ a.bytes, Marked marks x) {range : AddrRange}
    (hlt : range.1.toNat < range.2.toNat)
    (hstored : ∀ x, InRange range x → Marked marks x → ∃ area ∈ grey, x ∈ area.bytes) :
    (∀ left ∈ sweptRange grey range, ∀ x, InRange left x → ¬ Marked marks x) ↔
      CleanRange grey range := by
  obtain ⟨start, stop⟩ := range
  by_cases hguard : badRange start stop
  · rw [sweptRange_of_badRange hguard]
    constructor
    · intro hfree
      refine ⟨fun _ area harea x hx hin => ?_, fun hnot => absurd hguard hnot⟩
      exact hfree (start, stop) rfl x hin (hmarked area harea x hx)
    · rintro ⟨hfree, -⟩ left hleft x hin hm
      obtain rfl := Option.some.inj hleft
      obtain ⟨area, harea, hx⟩ := hstored x hin hm
      exact hfree hguard area harea x hx hin
  · by_cases hcov : Covered grey (start, stop)
    · rw [sweptRange_of_covered hproper hguard hlt hcov]
      exact iff_of_true (fun left hleft => absurd hleft (by simp))
        ⟨fun h => absurd h hguard, fun _ => Or.inl hcov⟩
    · rw [sweptRange_of_not_covered hproper hguard hlt hcov]
      have hmem : ∀ {x : Nat}, start.toNat ≤ x → x < stop.toNat →
          (InRange (leftRange grey (start, stop)) x ↔
            (∀ a, LastWith (ReachesIn start stop) grey.elems a → a.getEnd.toNat ≤ x) ∧
              ∀ a, LastWith (StartsIn start stop) grey.elems a → x < a.start.toNat) :=
        fun hx hx' => mem_leftRange_iff hproper hguard hlt hx hx'
      constructor
      · intro hfree
        refine ⟨fun h => absurd h hguard, fun _ => Or.inr fun area harea x hxa hx hx' => ?_⟩
        by_contra hnot
        rw [not_or] at hnot
        refine hfree _ rfl x ((hmem hx hx').mpr ⟨fun b hb => ?_, fun b hb => ?_⟩)
          (hmarked area harea x hxa)
        · exact not_lt.mp fun hin => hnot.1 ⟨b, hb, hin⟩
        · exact not_le.mp fun hin => hnot.2 ⟨b, hb, hin⟩
      · rintro ⟨-, hclean⟩ left hleft x hin hm
        obtain rfl := Option.some.inj hleft
        obtain ⟨hlo, hhi⟩ := leftRange_inside hproper hguard hlt
        have hx : start.toNat ≤ x := hlo.trans hin.1
        have hx' : x < stop.toNat := lt_of_lt_of_le hin.2 hhi
        obtain ⟨area, harea, hxa⟩ := hstored x ⟨hx, hx'⟩ hm
        obtain ⟨hbehind, hbefore⟩ := (hmem hx hx').mp hin
        rcases (hclean hguard).resolve_left hcov area harea x hxa hx hx' with
          ⟨b, hb, hxb⟩ | ⟨b, hb, hxb⟩
        · exact absurd hxb (not_lt.mpr (hbehind b hb))
        · exact absurd hxb (not_le.mpr (hbefore b hb))

/-- What the loop does with gaps, as its run says. -/
theorem spared_iff_of_subGaps (hb : sec.Below code longest) (hlongest : 5 ≤ longest)
    (hproper : ∀ a ∈ grey, a.Proper) (hgaps : ∀ gap ∈ gaps, gap.1.toNat ≤ gap.2.toNat)
    {rangess : List (List AddrRange)} (h : List.Forall₂ (SubGaps code sec grey) gaps rangess)
    (room : Nat) :
    (∃ st, Computes (fun n => gapsLoop n code sec grey gaps) st ∧ st.dangles room = false ∧
      ∀ range ∈ st.swept, ∀ x, InRange range x → ¬ Marked marks x) ↔
    (∀ range ∈ rangess.flatten, ∀ left ∈ sweptRange grey range, ∀ x, InRange left x →
      ¬ Marked marks x) ∧ pushCount grey rangess.flatten ≤ room := by
  have htasks : List.Forall₂ (Task code sec grey) gaps rangess := by
    refine List.forall₂_iff_get.mpr ⟨h.length_eq, fun i hi hi' => ?_⟩
    exact .gap (hgaps _ (List.get_mem _ _)) (h.get hi hi')
  obtain ⟨st, hhalts, hgrown, hswept⟩ := halts_gaps hb hlongest hproper
    ⟨gaps, [], [], 0⟩ htasks
  have hloop : Computes (fun n => gapsLoop n code sec grey gaps) st := hhalts.computes
  have hdangles : st.dangles room = false ↔ pushCount grey rangess.flatten ≤ room := by
    unfold GapsState.dangles
    rw [decide_eq_false_iff_not, not_lt, hgrown]
    exact iff_of_eq (congrArg (· ≤ room) (Nat.zero_add _))
  rw [← hdangles]
  constructor
  · rintro ⟨st', hst', hroom, hfree⟩
    obtain rfl := hloop.unique hst'
    refine ⟨fun range hrange left hleft x hx => ?_, hroom⟩
    obtain ⟨range', hrange', hx'⟩ := (hswept x).mpr (Or.inr ⟨range, hrange, left, hleft, hx⟩)
    exact hfree range' hrange' x hx'
  · rintro ⟨hfree, hroom⟩
    refine ⟨st, hloop, hroom, fun range hrange x hx => ?_⟩
    rcases (hswept x).mp ⟨range, hrange, hx⟩ with ⟨_, hmem, -⟩ | ⟨range', hrange', left, hleft, hx'⟩
    · exact absurd hmem List.not_mem_nil
    · exact hfree range' hrange' left hleft x hx'

theorem exists_forall₂_subGaps (code : Code) (sec : CodeSection) (hproper : ∀ a ∈ grey, a.Proper)
    (hgaps : ∀ gap ∈ gaps, gap.1.toNat ≤ gap.2.toNat) :
    ∃ rangess, List.Forall₂ (SubGaps code sec grey) gaps rangess := by
  induction gaps with
  | nil => exact ⟨[], .nil⟩
  | cons gap gaps ih =>
      obtain ⟨ranges, hranges⟩ :=
        exists_subGaps code sec hproper (hgaps gap List.mem_cons_self)
      obtain ⟨rangess, hrangess⟩ := ih fun g hg => hgaps g (List.mem_cons_of_mem _ hg)
      exact ⟨ranges :: rangess, .cons hranges hrangess⟩

/-- A trimmed range lies in one of the gaps. -/
theorem exists_gap_of_mem_flatten (hproper : ∀ a ∈ grey, a.Proper)
    (hgaps : ∀ gap ∈ gaps, gap.1.toNat ≤ gap.2.toNat) {rangess : List (List AddrRange)}
    (h : List.Forall₂ (SubGaps code sec grey) gaps rangess) :
    ∀ range ∈ rangess.flatten, range.1.toNat < range.2.toNat ∧
      ∃ gap ∈ gaps, ∀ x, InRange range x → InRange gap x := by
  induction h with
  | nil => exact fun range hrange => absurd hrange List.not_mem_nil
  | @cons gap ranges gaps rangess hsub _ ih =>
      intro range hrange
      rcases List.mem_append.mp hrange with hrange | hrange
      · obtain ⟨hlo, hlt, hhi⟩ :=
          hsub.inside hproper (hgaps gap List.mem_cons_self) range hrange
        exact ⟨hlt, gap, List.mem_cons_self, fun x hx => ⟨hlo.trans hx.1, hx.2.trans_le hhi⟩⟩
      · obtain ⟨hlt, g, hg, hin⟩ :=
          ih (fun g hg => hgaps g (List.mem_cons_of_mem _ hg)) range hrange
        exact ⟨hlt, g, List.mem_cons_of_mem _ hg, hin⟩

end Clean

/-- **When grey areas are spared**, for every list of gaps, all marks of areas that are not empty
and do not wrap, and whatever room the vector has. -/
theorem sparesGreyAreas_iff (code : Code) (longest : Nat) (hlongest : 5 ≤ longest)
    (s : CodeSectionSweeper) (hb : s.codeSection.Below code longest) (hempty : s.greyAreas = ∅)
    (marks : List (U32 × U32))
    (hmarks : ∀ m ∈ marks, 0 < m.2.toNat ∧ m.1.toNat + m.2.toNat < 2 ^ 32)
    (gaps : List AddrRange) (hgaps : ∀ gap ∈ gaps, gap.1.toNat ≤ gap.2.toNat) (room : Nat) :
    SparesGreyAreas code s.codeSection (s.markGreyAreas marks).greyAreas marks gaps room ↔
      CleanGaps code s.codeSection (s.markGreyAreas marks).greyAreas marks gaps room := by
  have hproper := s.proper_markGreyAreas hempty hmarks
  have hmarked := s.marked_of_mem_markGreyAreas hempty marks
  have hexact : (∀ gap ∈ gaps, SubtractsExactly (s.markGreyAreas marks).greyAreas marks gap) ↔
      ∀ gap ∈ gaps, CleanGap (s.markGreyAreas marks).greyAreas marks gap :=
    forall₂_congr fun gap hgap => subtractsExactly_iff s hempty marks hmarks gap (hgaps gap hgap)
  -- where the gaps are clean, what is swept of their ranges is unmarked when these are clean
  have hranges : (∀ gap ∈ gaps, CleanGap (s.markGreyAreas marks).greyAreas marks gap) →
      ∀ {rangess : List (List AddrRange)},
        List.Forall₂ (SubGaps code s.codeSection (s.markGreyAreas marks).greyAreas) gaps rangess →
        ∀ range ∈ rangess.flatten,
          ((∀ left ∈ sweptRange (s.markGreyAreas marks).greyAreas range, ∀ x, InRange left x →
            ¬ Marked marks x) ↔ CleanRange (s.markGreyAreas marks).greyAreas range) := by
    intro hclean rangess hsub range hrange
    obtain ⟨hlt, gap, hgap, hin⟩ := exists_gap_of_mem_flatten hproper hgaps hsub range hrange
    exact not_marked_iff_cleanRange hproper hmarked hlt fun x hx hm =>
      (hclean gap hgap).stored x (hin x hx).1 (hin x hx).2 hm
  constructor
  · rintro ⟨hsubtracts, hspared⟩
    have hclean := hexact.mp hsubtracts
    obtain ⟨rangess, hsub⟩ := exists_forall₂_subGaps code s.codeSection hproper hgaps
    obtain ⟨hfree, hroom⟩ :=
      (spared_iff_of_subGaps hb hlongest hproper hgaps hsub room).mp hspared
    exact ⟨hclean, rangess, hsub,
      fun range hrange => (hranges hclean hsub range hrange).mp (hfree range hrange), hroom⟩
  · rintro ⟨hclean, rangess, hsub, htrimmed, hroom⟩
    refine ⟨hexact.mpr hclean, ?_⟩
    apply (spared_iff_of_subGaps hb hlongest hproper hgaps hsub room).mpr
    exact ⟨fun range hrange => (hranges hclean hsub range hrange).mpr (htrimmed range hrange),
      hroom⟩

section Samples

/-- A section of 256 bytes, none of which is decoded. -/
def greySweeper : CodeSectionSweeper := CodeSectionSweeper.init ⟨0x1000, 0x100, by decide⟩

def blankCode : Code where
  mem := fun _ => 0x90
  getInstruction := fun _ => none

theorem below_blankCode : greySweeper.codeSection.Below blankCode 5 where
  length_le := fun _ _ h => absurd h (by simp [blankCode])
  room := by decide

/-- `[0x1010, 0x1020)` and `[0x1040, 0x1050)` -/
def greyMarks : List (U32 × U32) := [(0x1010, 0x10), (0x1040, 0x10)]

/-- With both areas in the gap, `[0x1000, 0x1040)` is left over: the first one is still in it. -/
theorem first_area_left_over :
    ¬ SparesGreyAreas blankCode greySweeper.codeSection
      (greySweeper.markGreyAreas greyMarks).greyAreas greyMarks [(0x1000, 0x1100)] 2 := by
  intro hspares
  have hleft : leftRange (greySweeper.markGreyAreas greyMarks).greyAreas (0x1000, 0x1100) =
      (0x1000, 0x1040) := by
    decide
  have hexact := hspares.exact (0x1000, 0x1100) List.mem_cons_self
  exact ((hexact 0x1010).mp ⟨_, .self, by rw [hleft]; decide⟩).2 ⟨(0x1010, 0x10), by decide,
    by decide⟩

/-- `[0x1002, 0x1004)` -/
def insideMarks : List (U32 × U32) := [(0x1002, 2)]

def insideGrey : TraceSet := (greySweeper.markGreyAreas insideMarks).greyAreas

def insideArea : StaticTrace := ⟨0, 0x1002, 2, greySweeper.codeSection⟩

theorem mem_insideGrey {area : StaticTrace} : area ∈ insideGrey ↔ area = insideArea :=
  List.mem_singleton

theorem mem_bytes_insideArea {x : Nat} : x ∈ insideArea.bytes ↔ 0x1002 ≤ x ∧ x < 0x1004 :=
  StaticTrace.mem_bytes

/-- The area is all that starts in `[0x1000, 0x1008)`. -/
theorem firstWith_insideArea :
    FirstWith (StartsIn 0x1000 0x1008) insideGrey.elems insideArea := by
  refine ⟨mem_insideGrey.mpr rfl, ?_, fun other hother _ => by rw [mem_insideGrey.mp hother]⟩
  unfold StartsIn
  decide

/-- In front of the area and behind it, the rest of `[0x1000, 0x1008)` is clean. -/
theorem cleanAt_inside {now : U32} (hnow : now = 0x1000 ∨ 0x1004 ≤ now.toNat) :
    CleanAt insideGrey now 0x1008 := by
  intro area harea x hx hle _
  obtain rfl := mem_insideGrey.mp harea
  obtain ⟨hlo, hhi⟩ := mem_bytes_insideArea.mp hx
  rcases hnow with rfl | hnow
  · exact Or.inr ⟨insideArea, ⟨firstWith_insideArea.1, firstWith_insideArea.2.1,
      fun other hother _ => by rw [mem_insideGrey.mp hother]⟩, hlo⟩
  · omega

theorem cleanGap_inside : CleanGap insideGrey insideMarks (0x1000, 0x1008) where
  stored := by
    rintro x - - ⟨m, hm, hx⟩
    obtain rfl := List.mem_singleton.mp hm
    exact ⟨insideArea, firstWith_insideArea.1, mem_bytes_insideArea.mpr hx⟩
  guarded := fun h => absurd h (by decide)
  clean := by
    intro _ now hnow
    apply cleanAt_inside
    cases hnow with
    | self => exact Or.inl rfl
    | next _ hfirst _ =>
        rw [mem_insideGrey.mp hfirst.1]
        exact Or.inr (by decide)

theorem subGaps_inside : SubGaps blankCode greySweeper.codeSection insideGrey (0x1000, 0x1008)
    [(0x1000, 0x1008), (0x1004, 0x1008)] := by
  have htrim : ∀ a : U32, a = 0x1000 ∨ a = 0x1004 → Computes
      (fun n => trimGap n blankCode greySweeper.codeSection a 0x1008) (false, ⟨a, 0x1008, []⟩) := by
    rintro a (rfl | rfl)
    · exact (fuelMono_trimGap _ _).computes
        (show trimGap 2 blankCode greySweeper.codeSection 0x1000 0x1008 = _ from rfl)
    · exact (fuelMono_trimGap _ _).computes
        (show trimGap 2 blankCode greySweeper.codeSection 0x1004 0x1008 = _ from rfl)
  have hbehind : SubGaps blankCode greySweeper.codeSection insideGrey
      (insideArea.getEnd, 0x1008) [(0x1004, 0x1008)] := by
    refine @SubGaps.last _ _ _ (insideArea.getEnd, 0x1008) ⟨0x1004, 0x1008, []⟩
      (htrim 0x1004 (Or.inr rfl)) fun _ area hfirst => ?_
    rw [mem_insideGrey.mp hfirst.1] at hfirst
    exact absurd hfirst.2.1.1 (by decide)
  exact @SubGaps.next _ _ _ (0x1000, 0x1008) ⟨0x1000, 0x1008, []⟩ insideArea _
    (htrim 0x1000 (Or.inl rfl)) (by decide) firstWith_insideArea (by decide) hbehind

/-- One area inside one gap is spared when the vector has room for the range behind it, and not when
it has none: then it moves under the iterator. -/
theorem sparesGreyAreas_iff_sample :
    SparesGreyAreas blankCode greySweeper.codeSection insideGrey insideMarks [(0x1000, 0x1008)] 1 ∧
      ¬ SparesGreyAreas blankCode greySweeper.codeSection insideGrey insideMarks
        [(0x1000, 0x1008)] 0 := by
  have hmarks : ∀ m ∈ insideMarks, 0 < m.2.toNat ∧ m.1.toNat + m.2.toNat < 2 ^ 32 := by
    intro m hm
    obtain rfl := List.mem_singleton.mp hm
    exact ⟨by decide, by decide⟩
  have hiff := sparesGreyAreas_iff blankCode 5 le_rfl greySweeper below_blankCode rfl insideMarks
    hmarks [(0x1000, 0x1008)] (fun gap hgap => by rw [List.mem_singleton.mp hgap]; decide)
  refine ⟨(hiff 1).mpr ⟨fun gap hgap => ?_, _, .cons subGaps_inside .nil, fun range hrange => ?_,
    by decide⟩, fun hspares => ?_⟩
  · rw [List.mem_singleton.mp hgap]
    exact cleanGap_inside
  · simp only [List.flatten_cons, List.flatten_nil, List.append_nil, List.mem_cons,
      List.not_mem_nil, or_false] at hrange
    rcases hrange with rfl | rfl
    · exact ⟨fun h => absurd h (by decide), fun _ => Or.inr (cleanAt_inside (Or.inl rfl))⟩
    · exact ⟨fun h => absurd h (by decide), fun _ => Or.inr (cleanAt_inside (Or.inr (by decide)))⟩
  · obtain ⟨st, hst, hroom, -⟩ := hspares.spared
    have hrun : Computes (fun n => gapsLoop n blankCode greySweeper.codeSection insideGrey
        [(0x1000, 0x1008)]) _ := (fuelMono_gapsLoop _ _).computes
      (show gapsLoop 9 blankCode greySweeper.codeSection insideGrey [(0x1000, 0x1008)] =
        some ⟨[], [], [(0x1000, 0x1002), (0x1004, 0x1008)], 1⟩ from rfl)
    rw [hst.unique hrun] at hroom
    exact absurd hroom (by decide)

end Samples

end PEReplay
