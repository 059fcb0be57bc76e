/-
# PEReplay.Sweeper.Bounds — no trace wraps.

When the section's end and the longest instruction stay below the top of the address space, every
trace that `process` and `spotGaps` create ends at most one instruction behind the section, so no
trace end wraps.  Each function of `spotGaps` gets one lemma about the bounds of what it returns.
-/
import PEReplay.Sweeper.Gaps
import PEReplay.Sweeper.Split

namespace PEReplay

open Loop

/-- The end of the section as a number. -/
def CodeSection.top (sec : CodeSection) : Nat := sec.start.toNat + sec.size.toNat

theorem CodeSection.lt_top {sec : CodeSection} {a : U32} (h : sec.isAddrCode a = true) :
    a.toNat < sec.top := ((sec.isAddrCode_iff a).mp h).2

/-- An assembled trace ends at or before `bound`. -/
def SweepEvent.EndsBy (bound : Nat) : SweepEvent → Prop
  | .pend _ => True
  | .assemble _ start size => start.toNat + size.toNat ≤ bound

/-- A gap starts at or before `bound` and ends at or before the section's end. -/
def GapBounded (sec : CodeSection) (bound : Nat) (gap : AddrRange) : Prop :=
  gap.1.toNat ≤ bound ∧ gap.2.toNat ≤ sec.top

section Bounds

variable {code : Code} {sec : CodeSection} {bound : Nat}

/-! ## Padding and trampolines -/

theorem paddingStartLoop_bounds (k : Nat) (start : U32) (b : Bool) :
    paddingStartLoop code sec k start start b = (b, start) ∨
      ((paddingStartLoop code sec k start start b).1 = true ∧
        start.toNat < (paddingStartLoop code sec k start start b).2.toNat ∧
        (paddingStartLoop code sec k start start b).2.toNat ≤ sec.top) := by
  induction k generalizing start b with
  | zero => exact Or.inl rfl
  | succ k ih =>
      unfold paddingStartLoop
      split_ifs with hcode hpad
      · -- one byte of padding, and whatever follows it
        have hlt := CodeSection.lt_top hcode
        have hfits := sec.fits
        have hnext : (start + 1).toNat = start.toNat + 1 := by
          unfold CodeSection.top at hlt
          bv_omega
        refine Or.inr ?_
        rcases ih (start + 1) true with heq | ⟨hb, hlo, hhi⟩
        · rw [heq]
          refine ⟨rfl, ?_, ?_⟩
          · show start.toNat < (start + 1).toNat
            omega
          · show (start + 1).toNat ≤ sec.top
            omega
        · exact ⟨hb, by omega, hhi⟩
      · exact Or.inl rfl
      · exact Or.inl rfl

/-- `IsRangeAlignPaddingStart` moves the start up, inside the section, or not at all. -/
theorem isRangeAlignPaddingStart_bounds (code : Code) (sec : CodeSection) (start stop : U32) :
    isRangeAlignPaddingStart code sec start stop = (false, start) ∨
      ((isRangeAlignPaddingStart code sec start stop).1 = true ∧
        start.toNat < (isRangeAlignPaddingStart code sec start stop).2.toNat ∧
        (isRangeAlignPaddingStart code sec start stop).2.toNat ≤ sec.top) := by
  unfold isRangeAlignPaddingStart
  split_ifs
  · exact Or.inl rfl
  · exact paddingStartLoop_bounds _ start false

theorem paddingEndLoop_le (k : Nat) (stop : U32) (b : Bool) :
    (paddingEndLoop code sec k (stop - 1) stop b).2.toNat ≤ stop.toNat := by
  induction k generalizing stop b with
  | zero => exact le_rfl
  | succ k ih =>
      unfold paddingEndLoop
      split_ifs with hcode hpad
      · have hlt := CodeSection.lt_top hcode
        have hfits := sec.fits
        have hprev : (stop - 1).toNat < stop.toNat := by
          unfold CodeSection.top at hlt
          bv_omega
        have := ih (stop - 1) true
        omega
      · exact le_rfl
      · exact le_rfl

/-- `IsRangeAlignPaddingEnd` never moves the end up. -/
theorem isRangeAlignPaddingEnd_le (code : Code) (sec : CodeSection) (start stop : U32) :
    (isRangeAlignPaddingEnd code sec start stop).2.toNat ≤ stop.toNat := by
  unfold isRangeAlignPaddingEnd
  split_ifs
  · exact le_rfl
  · exact paddingEndLoop_le _ stop false

/-- A chain of trampolines stays within five bytes of the section. -/
theorem isRangeComboTrampoline_bounds {n : Nat} {start stop : U32}
    {r : U32 × Bool × List SweepEvent} (hbound : sec.top + 5 ≤ bound) (hstart : start.toNat ≤ bound)
    (h : isRangeComboTrampoline n code sec start stop = some r) :
    r.1.toNat ≤ bound ∧ ∀ ev ∈ r.2.2, ev.EndsBy bound := by
  refine whileLoop_rule (fun st => st.1.toNat ≤ bound ∧ ∀ ev ∈ st.2.2, ev.EndsBy bound)
    (fun r => r.1.toNat ≤ bound ∧ ∀ ev ∈ r.2.2, ev.EndsBy bound) ?_ ?_
    ⟨hstart, fun ev hev => absurd hev List.not_mem_nil⟩ h
  · rintro ⟨a, b, events⟩ st' ⟨ha, hevents⟩ hbody
    have hbody' := Option.some.inj hbody
    unfold comboTrampolineBody at hbody'
    split at hbody'
    · rename_i a' events' hsingle
      unfold isRangeSingleTrampoline at hsingle
      split_ifs at hsingle with hcond
      · obtain ⟨rfl, rfl⟩ := Prod.mk.inj (Option.some.inj hsingle)
        obtain rfl := LoopStep.next.inj hbody'
        have hlt : a.toNat < sec.top := CodeSection.lt_top hcond.2.2.1
        have hnext : (a + 5).toNat ≤ a.toNat + 5 := by
          rw [BitVec.toNat_add]
          exact Nat.mod_le _ _
        refine ⟨by show (a + 5).toNat ≤ bound; omega, fun ev hev => ?_⟩
        rcases List.mem_append.mp hev with hev | hev
        · exact hevents ev hev
        · simp only [List.mem_cons, List.not_mem_nil, or_false] at hev
          rcases hev with rfl | rfl
          · trivial
          · show a.toNat + 5 ≤ bound
            omega
    · exact absurd hbody' (by simp)
  · rintro st r' hst hbody
    have hbody' := Option.some.inj hbody
    unfold comboTrampolineBody at hbody'
    split at hbody'
    · exact absurd hbody' (by simp)
    · rw [← LoopStep.exit.inj hbody']
      exact hst

/-! ## `TrimGap` -/

/-- The bounds of the variables of `TrimGap`. -/
structure TrimState.Bounded (sec : CodeSection) (bound : Nat) (st : TrimState) : Prop where
  start : st.start.toNat ≤ bound
  stop : st.stop.toNat ≤ sec.top
  events : ∀ ev ∈ st.events, ev.EndsBy bound

theorem trimPadding_bounds {st : TrimState} (hbound : sec.top ≤ bound)
    (hst : st.Bounded sec bound) : (trimPadding code sec st).2.Bounded sec bound := by
  unfold trimPadding
  dsimp only
  split_ifs with hpadded
  · refine ⟨?_, hst.stop, hst.events⟩
    rcases isRangeAlignPaddingStart_bounds code sec st.start st.stop with heq | ⟨-, -, hle⟩
    · rw [heq] at hpadded
      exact absurd hpadded (by simp)
    · exact le_trans hle hbound
  · exact ⟨hst.start, le_trans (isRangeAlignPaddingEnd_le code sec st.start st.stop) hst.stop,
      hst.events⟩

/-- What one pass of `TrimGap` leaves. -/
theorem trimBody_bounds {n : Nat} {st : TrimState} {r : LoopStep TrimState TrimState}
    (hbound : sec.top + 5 ≤ bound) (hst : st.Bounded sec bound)
    (h : trimBody n code sec st = some r) :
    ∃ st', st'.Bounded sec bound ∧ (r = .next st' ∨ r = .exit st') := by
  unfold trimBody at h
  split at h
  · exact absurd h (by simp)
  · rename_i start combo events hcombo
    obtain ⟨hstart, hevents⟩ := isRangeComboTrampoline_bounds hbound hst.start hcombo
    have hst₁ : TrimState.Bounded sec bound
        { st with start := start, events := st.events ++ events } := by
      refine ⟨hstart, hst.stop, fun ev hev => ?_⟩
      rcases List.mem_append.mp hev with hev | hev
      · exact hst.events ev hev
      · exact hevents ev hev
    dsimp only at h
    generalize htrimmed : (if combo = true then
      (true, ({ st with start := start, events := st.events ++ events } : TrimState))
      else trimPadding code sec { st with start := start, events := st.events ++ events }) =
        trimmed at h
    have hst₂ : trimmed.2.Bounded sec bound := by
      rw [← htrimmed]
      split_ifs
      · exact hst₁
      · exact trimPadding_bounds (by omega) hst₁
    split_ifs at h
    · exact ⟨trimmed.2, hst₂, Or.inl (Option.some.inj h).symm⟩
    · exact ⟨trimmed.2, hst₂, Or.inr (Option.some.inj h).symm⟩

theorem trimGap_bounds {n : Nat} {start stop : U32} {r : Bool × TrimState}
    (hbound : sec.top + 5 ≤ bound) (hgap : GapBounded sec bound (start, stop))
    (h : trimGap n code sec start stop = some r) : r.2.Bounded sec bound := by
  obtain ⟨st, hloop, rfl⟩ := Option.map_eq_some_iff.mp h
  refine whileLoop_rule (TrimState.Bounded sec bound) (TrimState.Bounded sec bound) ?_ ?_
    ⟨hgap.1, hgap.2, fun ev hev => absurd hev List.not_mem_nil⟩ hloop
  · intro st st' hst hbody
    obtain ⟨st₁, hst₁, heq | heq⟩ := trimBody_bounds hbound hst hbody
    · rw [LoopStep.next.inj heq]
      exact hst₁
    · exact absurd heq (by simp)
  · intro st st' hst hbody
    obtain ⟨st₁, hst₁, heq | heq⟩ := trimBody_bounds hbound hst hbody
    · exact absurd heq (by simp)
    · rw [LoopStep.exit.inj heq]
      exact hst₁

/-! ## Grey areas -/

theorem range_add_sub (a b : U32) : a + (b - a) = b := by bv_omega

/-- Subtracting grey areas that do not wrap keeps the bounds. -/
theorem grey_bounds {greyAreas : TraceSet} {start stop : U32}
    (hbound : sec.top ≤ bound) (hgrey : ∀ area ∈ greyAreas, area.NoWrap)
    (hgap : GapBounded sec bound (start, stop)) :
    GapBounded sec bound ((isRangeIntersectedWithGreyArea greyAreas start stop).start,
        (isRangeIntersectedWithGreyArea greyAreas start stop).stop) ∧
      ∀ gap ∈ (isRangeIntersectedWithGreyArea greyAreas start stop).pushed,
        GapBounded sec bound gap := by
  unfold isRangeIntersectedWithGreyArea
  split_ifs
  · exact ⟨hgap, fun gap hg => absurd hg List.not_mem_nil⟩
  · -- over the areas, for any state within the bounds
    suffices hfold : ∀ (areas : List StaticTrace) (st : GreyState), (∀ area ∈ areas, area.NoWrap) →
        (GapBounded sec bound (st.start, st.stop) ∧ ∀ gap ∈ st.pushed, GapBounded sec bound gap) →
        (GapBounded sec bound ((areas.foldl (greyStep start stop) st).start,
          (areas.foldl (greyStep start stop) st).stop) ∧
          ∀ gap ∈ (areas.foldl (greyStep start stop) st).pushed, GapBounded sec bound gap) from
      hfold _ _ hgrey ⟨hgap, fun gap hg => absurd hg List.not_mem_nil⟩
    intro areas
    induction areas with
    | nil => exact fun st _ hst => hst
    | cons area areas ih =>
        intro st hwrap hst
        rw [List.foldl_cons]
        refine ih _ (fun a ha => hwrap a (List.mem_cons_of_mem _ ha)) ?_
        obtain ⟨⟨hstart, hstop⟩, hpushed⟩ := hst
        have hend := StaticTrace.toNat_getEnd (hwrap area List.mem_cons_self)
        have hend' : (area.start + area.size).toNat = area.start.toNat + area.size.toNat := hend
        have hstop' : stop.toNat ≤ sec.top := hgap.2
        dsimp only at hstart hstop
        unfold greyStep StaticTrace.contains StaticTrace.pertains StaticTrace.intersect
        rw [range_add_sub]
        simp only [Bool.and_eq_true, decide_eq_true_eq, Bool.not_eq_true', Bool.or_eq_false_iff,
          decide_eq_false_iff_not, BitVec.le_def, BitVec.lt_def, ge_iff_le, hend']
        split_ifs with hcontains hpertains hintersect hbefore
        · exact ⟨⟨le_trans hstop hbound, hstop⟩, hpushed⟩
        · refine ⟨⟨hstart, by show area.start.toNat ≤ _; omega⟩, fun gap hg => ?_⟩
          rcases List.mem_append.mp hg with hg | hg
          · exact hpushed gap hg
          · rw [List.mem_singleton.mp hg]
            exact ⟨by show area.getEnd.toNat ≤ _; omega, hstop⟩
        · exact ⟨⟨by show area.getEnd.toNat ≤ _; omega, hstop⟩, hpushed⟩
        · exact ⟨⟨hstart, by show area.start.toNat ≤ _; omega⟩, hpushed⟩
        · exact ⟨⟨hstart, hstop⟩, hpushed⟩

/-! ## `linearSweepGap` -/

/-- The bounds of the variables of `linearSweepGap` at the head of its loop. -/
structure SweepState.Bounded (bound : Nat) (st : SweepState) : Prop where
  le : st.traceStart.toNat ≤ st.instPost.toNat
  same : st.instPre = st.instPost
  instPost : st.instPost.toNat ≤ bound
  events : ∀ ev ∈ st.events, ev.EndsBy bound

/-- Assembling the trace up to `inst_post` stays within the bound. -/
theorem endsBy_assemble (st : SweepState) (hle : st.traceStart.toNat ≤ st.instPost.toNat)
    (hpost : st.instPost.toNat ≤ bound) (hevents : ∀ ev ∈ st.events, ev.EndsBy bound)
    (cause : AssembleCause) : ∀ ev ∈ (st.assemble cause).events, ev.EndsBy bound := by
  intro ev hev
  rcases List.mem_append.mp hev with hev | hev
  · exact hevents ev hev
  · rw [List.mem_singleton.mp hev]
    show st.traceStart.toNat + (st.instPost - st.traceStart).toNat ≤ bound
    bv_omega

theorem endsBy_pend (st : SweepState) (hevents : ∀ ev ∈ st.events, ev.EndsBy bound)
    (targets : List U32) : ∀ ev ∈ (st.pend targets).events, ev.EndsBy bound := by
  intro ev hev
  rcases List.mem_append.mp hev with hev | hev
  · exact hevents ev hev
  · obtain ⟨target, -, rfl⟩ := List.mem_map.mp hev
    trivial

theorem sweepPadding_bounds (code : Code) (gapEnd : U32) {st : SweepState}
    (hbound : sec.top ≤ bound) (hst : st.Bounded bound) (hpre : st.instPre.toNat ≤ sec.top) :
    (sweepPadding code sec gapEnd st).Bounded bound ∧
      (sweepPadding code sec gapEnd st).instPre.toNat ≤ sec.top := by
  unfold sweepPadding
  rcases isRangeAlignPaddingStart_bounds code sec st.instPre gapEnd with heq | ⟨hpadded, -, hle⟩
  · rw [heq]
    exact ⟨hst, hpre⟩
  · dsimp only
    rw [if_pos hpadded]
    exact ⟨⟨le_rfl, rfl, le_trans hle hbound,
      endsBy_assemble st hst.le hst.instPost hst.events .padding⟩, hle⟩

/-- The rest of the loop body, for an instruction that decodes. -/
theorem sweepInstruction_bounds {longest : Nat} (hb : sec.Below code longest)
    (hlongest : 0 < longest) {st : SweepState} (hst : st.Bounded (sec.top + longest))
    (hpre : st.instPre.toNat ≤ sec.top) :
    (sweepInstruction code sec st).Bounded (sec.top + longest) := by
  have hroom : sec.top + longest < 2 ^ 32 := hb.room
  obtain ⟨hle, hsame, -, hevents⟩ := hst
  rw [hsame] at hpre
  cases hins : instructionAt code sec st.instPre with
  | none =>
      -- nothing decodes: one byte is skipped
      have hnext : (st.instPost + 1).toNat = st.instPost.toNat + 1 := by bv_omega
      rw [sweepInstruction_of_none hins]
      exact ⟨le_rfl, rfl, by show (st.instPost + 1).toNat ≤ _; omega, hevents⟩
  | some ins =>
      obtain ⟨hadd, hlt⟩ := hb.toNat_add hins
      rw [hsame] at hadd hlt
      have hpost : (st.instPre + ins.length).toNat ≤ sec.top + longest := by
        unfold CodeSection.top
        rw [hsame]
        omega
      have hle' : st.traceStart.toNat ≤ (st.instPre + ins.length).toNat := by
        rw [hsame]
        omega
      have hmid := endsBy_pend st hevents (ins.sweepTargets st.instPre)
      rw [sweepInstruction_of_some hins]
      split_ifs
      · exact ⟨le_rfl, rfl, hpost, endsBy_assemble ⟨st.traceStart, st.instPre,
          st.instPre + ins.length, _⟩ hle' hpost hmid ins.endCause⟩
      · exact ⟨hle', rfl, hpost, hmid⟩

theorem linearSweepGap_bounds {longest n : Nat} (hb : sec.Below code longest)
    (hlongest : 0 < longest) {gapStart gapEnd : U32} {events : List SweepEvent}
    (hgap : GapBounded sec (sec.top + longest) (gapStart, gapEnd))
    (h : linearSweepGap n code sec gapStart gapEnd = some events) :
    ∀ ev ∈ events, ev.EndsBy (sec.top + longest) := by
  obtain ⟨st, hloop, rfl⟩ := Option.map_eq_some_iff.mp h
  refine (whileLoop_rule (SweepState.Bounded (sec.top + longest))
    (SweepState.Bounded (sec.top + longest)) ?_ ?_
    ⟨le_rfl, rfl, hgap.1, fun ev hev => absurd hev List.not_mem_nil⟩ hloop).events
  · intro st st' hst hbody
    have hbody' := Option.some.inj hbody
    unfold sweepBody at hbody'
    split_ifs at hbody' with hlt
    · rw [← LoopStep.next.inj hbody']
      have hgapEnd : gapEnd.toNat ≤ sec.top := hgap.2
      have hpre : st.instPre.toNat ≤ sec.top := by bv_omega
      obtain ⟨hst₁, hpre₁⟩ := sweepPadding_bounds code gapEnd
        (Nat.le_add_right sec.top longest) hst hpre
      exact sweepInstruction_bounds hb hlongest hst₁ hpre₁
  · intro st st' hst hbody
    have hbody' := Option.some.inj hbody
    unfold sweepBody at hbody'
    split_ifs at hbody'
    rw [← LoopStep.exit.inj hbody']
    exact hst

/-! ## `spotGaps` -/

theorem sweepGap_bounds {longest n : Nat} (hb : sec.Below code longest) (hlongest : 5 ≤ longest)
    {greyAreas : TraceSet} (hgrey : ∀ area ∈ greyAreas, area.NoWrap) {gap : AddrRange}
    (hgap : GapBounded sec (sec.top + longest) gap) {r : GapPass}
    (h : sweepGap n code sec greyAreas gap = some r) :
    (∀ ev ∈ r.events, ev.EndsBy (sec.top + longest)) ∧
      ∀ g ∈ r.pushed, GapBounded sec (sec.top + longest) g := by
  unfold sweepGap at h
  split at h
  · exact absurd h (by simp)
  · rename_i st htrim
    rw [← Option.some.inj h]
    exact ⟨(trimGap_bounds (by omega) hgap htrim).events, fun g hg => absurd hg List.not_mem_nil⟩
  · rename_i st htrim
    have hst := trimGap_bounds (by omega) hgap htrim
    obtain ⟨hleft, hpushed⟩ := grey_bounds (Nat.le_add_right sec.top longest) hgrey
      ⟨hst.start, hst.stop⟩
    dsimp only at h
    split_ifs at h
    · rw [← Option.some.inj h]
      exact ⟨hst.events, hpushed⟩
    · obtain ⟨events, hsweep, rfl⟩ := Option.map_eq_some_iff.mp h
      refine ⟨fun ev hev => ?_, hpushed⟩
      rcases List.mem_append.mp hev with hev | hev
      · exact hst.events ev hev
      · exact linearSweepGap_bounds hb (by omega) hleft hsweep ev hev

/-- The ranges of such traces, with their two ends swapped, are within the bounds. -/
theorem vecRanges_bounds {l : List StaticTrace} {st : RangeState}
    (hl : ∀ t ∈ l, t.start.toNat ≤ sec.top ∧ t.getEnd.toNat ≤ bound)
    (hnow : GapBounded sec bound st.rangeNow.swap)
    (hst : ∀ r ∈ st.vecRanges, GapBounded sec bound r.swap) :
    ∀ r ∈ (l.foldl rangeStep st).vecRanges, GapBounded sec bound r.swap := by
  induction l generalizing st with
  | nil => exact hst
  | cons t l ih =>
      obtain ⟨hstart, hend⟩ := hl t List.mem_cons_self
      rw [List.foldl_cons]
      apply ih (fun u hu => hl u (List.mem_cons_of_mem _ hu))
      · unfold rangeStep
        split_ifs
        · exact ⟨hend, hstart⟩
        · exact ⟨hend, hnow.2⟩
        · exact ⟨hend, hstart⟩
      · unfold rangeStep
        split_ifs
        · exact hst
        · exact hst
        · intro r hr
          rcases List.mem_append.mp hr with hr | hr
          · exact hst r hr
          · rw [List.mem_singleton.mp hr]
            exact hnow

/-- The gaps between such ranges are within the bounds. -/
theorem gapSteps_bounds {rs : List AddrRange} {st : GapState}
    (hrs : ∀ r ∈ rs, GapBounded sec bound r.swap) (hstart : st.gapStart.toNat ≤ bound)
    (hst : ∀ g ∈ st.vecGaps, GapBounded sec bound g) :
    (rs.foldl gapStep st).gapStart.toNat ≤ bound ∧
      ∀ g ∈ (rs.foldl gapStep st).vecGaps, GapBounded sec bound g := by
  induction rs generalizing st with
  | nil => exact ⟨hstart, hst⟩
  | cons r rs ih =>
      have hr := hrs r List.mem_cons_self
      rw [List.foldl_cons]
      apply ih (fun r' hr' => hrs r' (List.mem_cons_of_mem _ hr')) hr.1
      intro g hg
      rcases List.mem_append.mp hg with hg | hg
      · exact hst g hg
      · rw [List.mem_singleton.mp hg]
        exact ⟨hstart, hr.2⟩

/-- The gaps between traces of the section are within the bounds. -/
theorem vecGaps_bounds {traces : List StaticTrace}
    (htraces : ∀ t ∈ traces, t.start.toNat ≤ sec.top ∧ t.getEnd.toNat ≤ bound)
    (hbound : sec.top ≤ bound) : ∀ gap ∈ vecGaps sec traces, GapBounded sec bound gap := by
  have hzero : GapBounded sec bound ((0, 0) : AddrRange).swap := ⟨Nat.zero_le _, Nat.zero_le _⟩
  have hranges : ∀ r ∈ vecRanges traces, GapBounded sec bound r.swap :=
    vecRanges_bounds htraces hzero fun r hr => absurd hr List.not_mem_nil
  have hsec : sec.start.toNat ≤ bound := le_trans (Nat.le_add_right _ _) hbound
  obtain ⟨hstart, hall⟩ := gapSteps_bounds hranges (show (GapState.mk sec.start []).gapStart.toNat ≤
    bound from hsec) fun g hg => absurd hg List.not_mem_nil
  have htop : (sec.start + sec.size).toNat = sec.top := sec.toNat_stop
  intro gap hgap
  rcases List.mem_append.mp hgap with hgap | hgap
  · exact hall gap hgap
  · rw [List.mem_singleton.mp hgap]
    exact ⟨hstart, htop.le⟩

end Bounds

end PEReplay
