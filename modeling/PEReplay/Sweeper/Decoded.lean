/-
# PEReplay.Sweeper.Decoded — the sweeper covers only what it has decoded.

A trace comes from the worklist, from the linear sweep of a gap or from a trampoline; later its end
may be moved down, and the trace may be taken out again.  `Decoded` is what is true of a trace all
the while: it lies in the straight-line run from its start, or in a five-byte jump.  `calls_decoded`
says it of every trace after every list of calls.

What the gaps are, how they were trimmed and which grey areas were taken off does not matter:
`gapEvents_rule` asks only what trampolines and linear sweeps add.
-/
import PEReplay.Sweeper.Batches
import PEReplay.Sweeper.LinearSweep

namespace PEReplay

open Loop

/-! ## What the loop over the gaps adds -/

section Rule

variable {code : Code} {sec : CodeSection} {P : SweepEvent → Prop}

/-- Whatever is true of the events of single trampolines is true of a chain's. -/
theorem isRangeComboTrampoline_rule
    (hone : ∀ {start stop : U32} {r : U32 × List SweepEvent},
      isRangeSingleTrampoline code sec start stop = some r → ∀ ev ∈ r.2, P ev)
    {n : Nat} {start stop : U32} {r : U32 × Bool × List SweepEvent}
    (h : isRangeComboTrampoline n code sec start stop = some r) : ∀ ev ∈ r.2.2, P ev := by
  refine whileLoop_rule (fun st => ∀ ev ∈ st.2.2, P ev) (fun r => ∀ ev ∈ r.2.2, P ev) ?_ ?_
    (fun ev hev => absurd hev List.not_mem_nil) h
  · intro st st' hst hbody
    have hbody' := Option.some.inj hbody
    unfold comboTrampolineBody at hbody'
    split at hbody'
    · rename_i start' added hsingle
      obtain rfl := LoopStep.next.inj hbody'
      intro ev hev
      rcases List.mem_append.mp hev with hev | hev
      · exact hst ev hev
      · exact hone hsingle ev hev
    · exact absurd hbody' (by simp)
  · intro st r' hst hbody
    have hbody' := Option.some.inj hbody
    unfold comboTrampolineBody at hbody'
    split at hbody'
    · exact absurd hbody' (by simp)
    · rw [← LoopStep.exit.inj hbody']
      exact hst

/-- A pass of `TrimGap` adds what its chain of trampolines adds. -/
theorem trimBody_events {n : Nat} {st : TrimState} {r : LoopStep TrimState TrimState}
    (h : trimBody n code sec st = some r) :
    ∃ c st', isRangeComboTrampoline n code sec st.start st.stop = some c ∧
      st'.events = st.events ++ c.2.2 ∧ (r = .next st' ∨ r = .exit st') := by
  unfold trimBody at h
  split at h
  · exact absurd h (by simp)
  · rename_i start combo events hcombo
    dsimp only at h
    generalize htrimmed : (if combo = true then
      (true, ({ st with start := start, events := st.events ++ events } : TrimState))
      else trimPadding code sec { st with start := start, events := st.events ++ events }) =
        trimmed at h
    have hevents : trimmed.2.events = st.events ++ events := by
      rw [← htrimmed]
      unfold trimPadding
      dsimp only
      split_ifs
      · rfl
      · rfl
      · rfl
    refine ⟨_, trimmed.2, hcombo, hevents, ?_⟩
    split_ifs at h
    · exact Or.inl (Option.some.inj h).symm
    · exact Or.inr (Option.some.inj h).symm

/-- `TrimGap` adds what its trampolines add. -/
theorem trimGap_rule
    (hone : ∀ {start stop : U32} {r : U32 × List SweepEvent},
      isRangeSingleTrampoline code sec start stop = some r → ∀ ev ∈ r.2, P ev)
    {n : Nat} {start stop : U32} {r : Bool × TrimState}
    (h : trimGap n code sec start stop = some r) : ∀ ev ∈ r.2.events, P ev := by
  obtain ⟨st, hloop, rfl⟩ := Option.map_eq_some_iff.mp h
  have hpass : ∀ {st st' : TrimState} {c : U32 × Bool × List SweepEvent},
      (∀ ev ∈ st.events, P ev) → isRangeComboTrampoline n code sec st.start st.stop = some c →
      st'.events = st.events ++ c.2.2 → ∀ ev ∈ st'.events, P ev := by
    intro st st' c hst hcombo hevents
    rw [hevents]
    exact List.forall_mem_append.mpr ⟨hst, isRangeComboTrampoline_rule hone hcombo⟩
  refine whileLoop_rule (fun st : TrimState => ∀ ev ∈ st.events, P ev)
    (fun st => ∀ ev ∈ st.events, P ev) ?_ ?_ (fun ev hev => absurd hev List.not_mem_nil) hloop
  · intro st st' hst hbody
    obtain ⟨c, st₁, hcombo, hevents, heq | heq⟩ := trimBody_events hbody
    · rw [LoopStep.next.inj heq]
      exact hpass hst hcombo hevents
    · exact absurd heq (by simp)
  · intro st st' hst hbody
    obtain ⟨c, st₁, hcombo, hevents, heq | heq⟩ := trimBody_events hbody
    · exact absurd heq (by simp)
    · rw [LoopStep.exit.inj heq]
      exact hpass hst hcombo hevents

/-- One gap adds what its trampolines and its linear sweep add. -/
theorem sweepGap_rule {n : Nat} {greyAreas : TraceSet}
    (hone : ∀ {start stop : U32} {r : U32 × List SweepEvent},
      isRangeSingleTrampoline code sec start stop = some r → ∀ ev ∈ r.2, P ev)
    (hsweep : ∀ {start stop : U32} {events : List SweepEvent},
      linearSweepGap n code sec start stop = some events → ∀ ev ∈ events, P ev)
    {gap : AddrRange} {r : GapPass}
    (h : sweepGap n code sec greyAreas gap = some r) : ∀ ev ∈ r.events, P ev := by
  unfold sweepGap at h
  split at h
  · exact absurd h (by simp)
  · rename_i st htrim
    rw [← Option.some.inj h]
    exact trimGap_rule hone htrim
  · rename_i st htrim
    have htrimmed : ∀ ev ∈ st.events, P ev := trimGap_rule hone htrim
    dsimp only at h
    split_ifs at h
    · rw [← Option.some.inj h]
      exact htrimmed
    · obtain ⟨added, hadded, rfl⟩ := Option.map_eq_some_iff.mp h
      exact List.forall_mem_append.mpr ⟨htrimmed, hsweep hadded⟩

/-- **What the loop over the gaps adds** comes from single trampolines and from linear sweeps,
whatever the gaps are. -/
theorem gapEvents_rule {s : CodeSectionSweeper}
    (hone : ∀ {start stop : U32} {r : U32 × List SweepEvent},
      isRangeSingleTrampoline code s.codeSection start stop = some r → ∀ ev ∈ r.2, P ev)
    (hsweep : ∀ {n : Nat} {start stop : U32} {events : List SweepEvent},
      linearSweepGap n code s.codeSection start stop = some events → ∀ ev ∈ events, P ev)
    {n : Nat} {events : List SweepEvent} (h : s.gapEvents n code = some events) :
    ∀ ev ∈ events, P ev := by
  obtain ⟨st, hloop, rfl⟩ := Option.map_eq_some_iff.mp h
  refine whileLoop_rule (fun st : GapsState => ∀ ev ∈ st.events, P ev)
    (fun st => ∀ ev ∈ st.events, P ev) ?_ ?_ (fun ev hev => absurd hev List.not_mem_nil) hloop
  · intro st st' hst hbody
    rcases gapsBody_cases hbody with ⟨-, heq⟩ | ⟨_, _, r, -, hr, heq⟩
    · exact absurd heq (by simp)
    · rw [LoopStep.next.inj heq]
      exact List.forall_mem_append.mpr ⟨hst, sweepGap_rule hone hsweep hr⟩
  · intro st r hst hbody
    rcases gapsBody_cases hbody with ⟨-, heq⟩ | ⟨_, _, _, _, _, heq⟩
    · rw [LoopStep.exit.inj heq]
      exact hst
    · exact absurd heq (by simp)

end Rule

/-! ## Decoded ranges -/

section Decoded

variable {code : Code} {sec : CodeSection} {longest : Nat}

/-- The range starts in the section, and lies in the straight-line run from there or in a five-byte
jump. -/
structure Decoded (code : Code) (sec : CodeSection) (start size : U32) : Prop where
  inside : sec.isAddrCode start = true
  bytes : (∃ run, StraightLine code sec start run ∧ size.toNat ≤ runSize run) ∨
    (code.mem start = 0xE9 ∧ size.toNat ≤ 5)

/-- The end of a range may be moved down. -/
theorem Decoded.shrink {start size size' : U32} (h : Decoded code sec start size)
    (hle : size'.toNat ≤ size.toNat) : Decoded code sec start size' := by
  refine ⟨h.inside, h.bytes.imp ?_ ?_⟩
  · rintro ⟨run, hrun, hsize⟩
    exact ⟨run, hrun, hle.trans hsize⟩
  · rintro ⟨hjmp, hsize⟩
    exact ⟨hjmp, hle.trans hsize⟩

/-- A range with the size of its run. -/
theorem decoded_of_run {start : U32} {run rest : List (U32 × Instruction)}
    (hinside : sec.isAddrCode start = true) (h : StraightLine code sec start (run ++ rest)) :
    Decoded code sec start (BitVec.ofNat 32 (runSize run)) := by
  refine ⟨hinside, Or.inl ⟨run ++ rest, h, ?_⟩⟩
  rw [runSize_append, BitVec.toNat_ofNat]
  exact (Nat.mod_le _ _).trans (Nat.le_add_right _ _)

/-- It ends below the top of the address space. -/
theorem Decoded.noWrap (hb : sec.Below code longest) (hjump : 5 ≤ longest) {start size : U32}
    (h : Decoded code sec start size) : start.toNat + size.toNat < 2 ^ 32 := by
  have hroom := hb.room
  rcases h.bytes with ⟨run, hrun, hsize⟩ | ⟨-, hsize⟩
  · have hle := (CodeSectionSweeper.toNat_size_of_run hb h.inside hrun).2
    omega
  · have hlt := (sec.isAddrCode_iff start).mp h.inside
    omega

/-- What is assembled is decoded. -/
def SweepEvent.Decoded (code : Code) (sec : CodeSection) : SweepEvent → Prop
  | .pend _ => True
  | .assemble _ start size => PEReplay.Decoded code sec start size

theorem decoded_singleTrampoline {start stop : U32} {r : U32 × List SweepEvent}
    (h : isRangeSingleTrampoline code sec start stop = some r) :
    ∀ ev ∈ r.2, ev.Decoded code sec := by
  unfold isRangeSingleTrampoline at h
  split_ifs at h with hcond
  rw [← Option.some.inj h]
  intro ev hev
  simp only [List.mem_cons, List.not_mem_nil, or_false] at hev
  rcases hev with rfl | rfl
  · trivial
  · exact ⟨hcond.2.2.1, Or.inr ⟨hcond.2.2.2, by decide⟩⟩

/-! ## The linear sweep -/

/-- What is decoded up to an address of the section starts in the section. -/
theorem Decodes.inside {a b : U32} {run : List (U32 × Instruction)} (h : Decodes code sec a run b)
    (hinside : sec.isAddrCode b = true) : sec.isAddrCode a = true := by
  induction h with
  | nil => exact hinside
  | snoc _ hins _ ih => exact ih (isAddrCode_of_instructionAt hins).1

/-- Padding that is skipped begins in the section. -/
theorem inside_of_padding {start stop : U32}
    (h : (isRangeAlignPaddingStart code sec start stop).1 = true) :
    sec.isAddrCode start = true := by
  unfold isRangeAlignPaddingStart at h
  split_ifs at h
  cases hk : (stop.toInt - start.toInt).toNat with
  | zero =>
    rw [hk] at h
    exact absurd h (by simp [paddingStartLoop])
  | succ k =>
    rw [hk, paddingStartLoop] at h
    by_contra hout
    rw [if_neg hout] at h
    exact absurd h (by simp)

/-- The invariant of the sweep: the open trace is decoded up to the instruction, and every trace
assembled so far is decoded. -/
structure SweepState.Covers (code : Code) (sec : CodeSection) (st : SweepState) : Prop where
  same : st.instPost = st.instPre
  opened : ∃ run, Decodes code sec st.traceStart run st.instPre
  assembled : ∀ ev ∈ st.events, ev.Decoded code sec

theorem SweepState.covers_at {a : U32} {events : List SweepEvent}
    (h : ∀ ev ∈ events, ev.Decoded code sec) : SweepState.Covers code sec ⟨a, a, a, events⟩ :=
  ⟨rfl, ⟨[], .nil⟩, h⟩

/-- The size between the cursors is that of the run between them. -/
theorem Decodes.size_eq {a b : U32} {run : List (U32 × Instruction)}
    (h : Decodes code sec a run b) : b - a = BitVec.ofNat 32 (runSize run) := by
  have hstop := h.stop_eq
  generalize BitVec.ofNat 32 (runSize run) = size at hstop ⊢
  rw [hstop]
  bv_omega

/-- Padding closes the open trace. -/
theorem covers_sweepPadding (hb : sec.Below code longest) (gapEnd : U32) {st : SweepState}
    (h : st.Covers code sec) : (sweepPadding code sec gapEnd st).Covers code sec := by
  rcases sweepPadding_cases code sec gapEnd st with ⟨-, heq⟩ | ⟨hpad, heq⟩
  · rw [heq]
    exact h
  · rw [heq]
    apply SweepState.covers_at
    refine List.forall_mem_append.mpr ⟨h.assembled, List.forall_mem_singleton.mpr ?_⟩
    obtain ⟨run, hrun⟩ := h.opened
    obtain ⟨rest, hrest, -⟩ := exists_straightLine hb st.instPre
    have hinside : sec.isAddrCode st.traceStart = true := hrun.inside (inside_of_padding hpad)
    show PEReplay.Decoded code sec st.traceStart (st.instPost - st.traceStart)
    rw [h.same, hrun.size_eq]
    exact decoded_of_run hinside (hrun.straightLine hrest)

/-- **Step.** An instruction extends the open trace, or ends it. -/
theorem covers_sweepInstruction {st : SweepState} (h : st.Covers code sec) :
    (sweepInstruction code sec st).Covers code sec := by
  obtain ⟨run, hrun⟩ := h.opened
  cases hins : instructionAt code sec st.instPre with
  | none =>
    rw [sweepInstruction_of_none hins]
    exact SweepState.covers_at h.assembled
  | some ins =>
    have hpended : ∀ ev ∈ st.events ++ (ins.sweepTargets st.instPre).map .pend,
        ev.Decoded code sec := by
      refine List.forall_mem_append.mpr ⟨h.assembled, fun ev hev => ?_⟩
      obtain ⟨target, -, rfl⟩ := List.mem_map.mp hev
      trivial
    rw [sweepInstruction_of_some hins]
    split_ifs with hends
    · apply SweepState.covers_at
      refine List.forall_mem_append.mpr ⟨hpended, List.forall_mem_singleton.mpr ?_⟩
      have hwhole : StraightLine code sec st.traceStart (run ++ [(st.instPre, ins)]) :=
        hrun.straightLine (.last hins hends)
      have hinside : sec.isAddrCode st.traceStart = true :=
        hrun.inside (isAddrCode_of_instructionAt hins).1
      have hsize : st.instPre + ins.length - st.traceStart =
          BitVec.ofNat 32 (runSize (run ++ [(st.instPre, ins)])) := by
        have hlast : runSize [(st.instPre, ins)] = ins.length.toNat := rfl
        rw [runSize_append, hlast, BitVec.ofNat_add, BitVec.ofNat_toNat, BitVec.setWidth_eq,
          ← hrun.size_eq]
        bv_omega
      show PEReplay.Decoded code sec st.traceStart (st.instPre + ins.length - st.traceStart)
      rw [hsize]
      exact decoded_of_run hinside (by rwa [List.append_nil])
    · exact ⟨rfl, ⟨_, hrun.snoc hins (Bool.eq_false_iff.mpr hends)⟩, hpended⟩

/-- **A sweep assembles what it has decoded.** -/
theorem decoded_linearSweepGap (hb : sec.Below code longest) {n : Nat} {gapStart gapEnd : U32}
    {events : List SweepEvent} (h : linearSweepGap n code sec gapStart gapEnd = some events) :
    ∀ ev ∈ events, ev.Decoded code sec := by
  obtain ⟨st, hloop, rfl⟩ := Option.map_eq_some_iff.mp h
  refine whileLoop_rule (SweepState.Covers code sec)
    (fun st : SweepState => ∀ ev ∈ st.events, ev.Decoded code sec) ?_ ?_
    (SweepState.covers_at fun ev hev => absurd hev List.not_mem_nil) hloop
  · intro st st' hst hbody
    have hbody' := Option.some.inj hbody
    unfold sweepBody at hbody'
    split_ifs at hbody'
    rw [← LoopStep.next.inj hbody']
    exact covers_sweepInstruction (covers_sweepPadding hb gapEnd hst)
  · intro st st' hst hbody
    have hbody' := Option.some.inj hbody
    unfold sweepBody at hbody'
    split_ifs at hbody'
    rw [← LoopStep.exit.inj hbody']
    exact hst.assembled

end Decoded

/-! ## Whole runs -/

namespace CodeSectionSweeper

variable {code : Code} {longest : Nat} {sec : CodeSection}

/-- The sweeper has the section, and covers only what is decoded. -/
structure AllDecoded (code : Code) (sec : CodeSection) (s : CodeSectionSweeper) : Prop where
  codeSection : s.codeSection = sec
  traces : ∀ t ∈ s.traces, Decoded code sec t.start t.size

theorem AllDecoded.process (hb : sec.Below code longest) (hjump : 5 ≤ longest) {n : Nat}
    {s s' : CodeSectionSweeper} (h : AllDecoded code sec s) (hs' : s.process n code = some s') :
    AllDecoded code sec s' := by
  obtain ⟨s₁, hworklist, rfl⟩ := Option.map_eq_some_iff.mp hs'
  have hgrown := (popSteps_spec (popSteps_of_worklist hworklist).1).1
  have hall : ∀ t ∈ s₁.traces, Decoded code sec t.start t.size := by
    intro t ht
    rcases hgrown.follows t ht with ht | ⟨hcode, run, hrun, hsize⟩
    · exact h.traces t ht
    · rw [h.codeSection] at hcode hrun
      rw [hsize]
      exact decoded_of_run hcode (by rwa [List.append_nil])
  refine ⟨hgrown.codeSection.trans h.codeSection, fun t ht => ?_⟩
  -- the split pass moves ends down only
  obtain ⟨u, hu, hstart, hsize⟩ := mem_splitPass (fun t ht => (hall t ht).noWrap hb hjump) ht
  rw [hstart]
  exact (hall u hu).shrink hsize

theorem AllDecoded.applyEvents {events : List SweepEvent} {s : CodeSectionSweeper}
    (h : AllDecoded code sec s) (hevents : ∀ ev ∈ events, ev.Decoded code sec) :
    AllDecoded code sec (events.foldl applyEvent s) := by
  induction events generalizing s with
  | nil => exact h
  | cons ev events ih =>
    apply ih _ fun e he => hevents e (List.mem_cons_of_mem ev he)
    have hev := hevents ev List.mem_cons_self
    cases ev with
    | pend target => exact ⟨h.codeSection, h.traces⟩
    | assemble cause start size =>
      refine ⟨h.codeSection, fun t ht => ?_⟩
      rcases KeyedSet.mem_insert.mp ht with ht | ⟨rfl, -⟩
      · exact h.traces t ht
      · exact hev

theorem AllDecoded.spotGaps (hb : sec.Below code longest) (hjump : 5 ≤ longest) {n : Nat}
    {s s' : CodeSectionSweeper} (h : AllDecoded code sec s) (hs' : s.spotGaps n code = some s') :
    AllDecoded code sec s' := by
  unfold CodeSectionSweeper.spotGaps at hs'
  split at hs'
  · exact absurd hs' (by simp)
  · rename_i s₁ hsweep
    obtain ⟨events, hevents, rfl⟩ := Option.map_eq_some_iff.mp hsweep
    obtain rfl := h.codeSection
    have hadded : ∀ ev ∈ events, ev.Decoded code s.codeSection :=
      gapEvents_rule decoded_singleTrampoline (decoded_linearSweepGap hb) hevents
    exact (h.applyEvents hadded).process hb hjump hs'

theorem AllDecoded.appendTarget {s : CodeSectionSweeper} (h : AllDecoded code sec s)
    (target : U32) : AllDecoded code sec (s.appendTarget target) := by
  obtain ⟨pending, heq⟩ := appendTarget_eq s target
  rw [heq]
  exact ⟨h.codeSection, h.traces⟩

theorem AllDecoded.appendTargets {s : CodeSectionSweeper} (h : AllDecoded code sec s)
    (targets : List U32) :
    AllDecoded code sec (targets.foldl CodeSectionSweeper.appendTarget s) := by
  induction targets generalizing s with
  | nil => exact h
  | cons target targets ih => exact ih (h.appendTarget target)

/-- **Step.** No call covers anything that is not decoded. -/
theorem AllDecoded.call (hb : sec.Below code longest) (hjump : 5 ≤ longest) {n : Nat}
    {s s' : CodeSectionSweeper} {c : Call} (h : AllDecoded code sec s)
    (hs' : s.runCall n code c = some s') : AllDecoded code sec s' := by
  cases c with
  | appendTarget target =>
    rw [← Option.some.inj hs']
    exact h.appendTarget target
  | markGreyArea start size =>
    rw [← Option.some.inj hs']
    exact ⟨h.codeSection, h.traces⟩
  | op op =>
    cases op with
    | process => exact h.process hb hjump hs'
    | spotGaps => exact h.spotGaps hb hjump hs'
    | postProcess =>
      obtain ⟨r, hr, rfl⟩ := Option.map_eq_some_iff.mp hs'
      obtain ⟨st, hloop, rfl⟩ := Option.map_eq_some_iff.mp hr
      exact ⟨h.codeSection, fun t ht => h.traces t ((mem_postProcessLoop hloop).mp ht).1⟩

/-- **Run.** -/
theorem AllDecoded.calls (hb : sec.Below code longest) (hjump : 5 ≤ longest) {n : Nat}
    {calls : List Call} {s s' : CodeSectionSweeper} (h : AllDecoded code sec s)
    (hs' : runCalls n code calls s = some s') : AllDecoded code sec s' := by
  induction calls generalizing s with
  | nil =>
    rw [← Option.some.inj hs']
    exact h
  | cons c calls ih =>
    obtain ⟨s₁, hcall, hrest⟩ := Option.bind_eq_some_iff.mp hs'
    exact ih (h.call hb hjump hcall) hrest

/-- **The sweeper covers only what it has decoded.**  After every list of calls on a new sweeper, in
whatever order it explores, sweeps gaps and invalidates traces: every trace starts in the section
and lies in the straight-line run from its start, or it is at most the five bytes of a jump. -/
theorem calls_decoded (code : Code) {longest : Nat} {sec : CodeSection}
    (hb : sec.Below code longest) (hjump : 5 ≤ longest) (entryPoint : U32)
    (relocTargets : TargetSet) (rtns : List U32) {calls : List Call} {n : Nat}
    {s : CodeSectionSweeper}
    (h : runCalls n code calls (construct sec entryPoint relocTargets rtns) = some s) :
    ∀ t ∈ s.traces, Decoded code sec t.start t.size := by
  have hnew : AllDecoded code sec (init sec) :=
    ⟨rfl, fun t ht => absurd ht (KeyedSet.not_mem_empty t)⟩
  exact ((((hnew.appendTarget entryPoint).appendTargets relocTargets.elems).appendTargets
    rtns).calls hb hjump h).traces

section Samples

theorem calls_decoded_sample : ∃ s, runCalls 9 retCode
    [.op .process, .op .spotGaps, .op .postProcess] (construct sampleSection 0x1001 ∅ []) = some s ∧
    ∀ t ∈ s.traces, Decoded retCode sampleSection t.start t.size := by
  have hsome : (runCalls 9 retCode [.op .process, .op .spotGaps, .op .postProcess]
      (construct sampleSection 0x1001 ∅ [])).isSome = true := by decide
  obtain ⟨s, hs⟩ := Option.isSome_iff_exists.mp hsome
  exact ⟨s, hs, calls_decoded retCode below_sample le_rfl 0x1001 ∅ [] hs⟩

end Samples

end CodeSectionSweeper

end PEReplay
