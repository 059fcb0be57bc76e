/-
# PEReplay.Sweeper.LinearSweep — the linear sweep agrees with `StaticTrace::process`.

`linearSweepGap` decodes a gap from its start and assembles a trace whenever it meets a JMP, a CALL
or a RET.  What lies between `trace_start` and the instruction is decoded straight through
(`Decodes`), whatever padding, undecodable bytes or finished traces have moved the cursors before.
So such a trace is the straight-line run from its start, and the jumps of the run have been added
to the pending targets by then (`linearSweepGap_agrees`).
-/
import PEReplay.Sweeper.Bounds
import PEReplay.Sweeper.Padding
import PEReplay.Sweeper.Explore

namespace PEReplay

open Loop

/-- The trace was assembled because a JMP, a CALL or a RET was met. -/
def AssembleCause.IsEnd (cause : AssembleCause) : Prop :=
  cause = .jmp ∨ cause = .call ∨ cause = .ret

/-! ## The open trace -/

/-- From `a` the instructions of `run` are decoded one behind the other, none of which ends a trace,
and the next one is at `b`. -/
inductive Decodes (code : Code) (sec : CodeSection) (a : U32) :
    List (U32 × Instruction) → U32 → Prop where
  | nil : Decodes code sec a [] a
  | snoc {run : List (U32 × Instruction)} {b : U32} {ins : Instruction} :
      Decodes code sec a run b → instructionAt code sec b = some ins → ins.endsTrace = false →
        Decodes code sec a (run ++ [(b, ins)]) (b + ins.length)

section Decodes

variable {code : Code} {sec : CodeSection} {a b : U32} {run rest : List (U32 × Instruction)}

/-- What is decoded straight through begins the run from `a`. -/
theorem Decodes.straightLine (h : Decodes code sec a run b)
    (hrest : StraightLine code sec b rest) : StraightLine code sec a (run ++ rest) := by
  induction h generalizing rest with
  | nil => exact hrest
  | snoc _ hins hgoes ih =>
      rw [List.append_assoc]
      exact ih (.cons hins hgoes hrest)

theorem runSize_append (run rest : List (U32 × Instruction)) :
    runSize (run ++ rest) = runSize run + runSize rest := by
  unfold runSize
  rw [List.map_append, List.sum_append]

theorem Decodes.stop_eq (h : Decodes code sec a run b) : b = a + BitVec.ofNat 32 (runSize run) := by
  induction h with
  | nil => exact (BitVec.add_zero a).symm
  | @snoc run b ins _ _ _ ih =>
      have hsize : runSize [(b, ins)] = ins.length.toNat := rfl
      rw [runSize_append, hsize, BitVec.ofNat_add, BitVec.ofNat_toNat, BitVec.setWidth_eq,
        ← BitVec.add_assoc, ← ih]

end Decodes

/-! ## The events -/

/-- Every event satisfies `P` with the events before it. -/
def EachAfter (P : List SweepEvent → SweepEvent → Prop) (events : List SweepEvent) : Prop :=
  ∀ pre ev post, events = pre ++ ev :: post → P pre ev

section EachAfter

variable {P : List SweepEvent → SweepEvent → Prop} {events : List SweepEvent}

theorem eachAfter_nil : EachAfter P [] := by
  intro pre ev post h
  exact absurd h.symm (by simp)

theorem EachAfter.snoc {ev : SweepEvent} (h : EachAfter P events) (hev : P events ev) :
    EachAfter P (events ++ [ev]) := by
  intro pre ev' post heq
  rcases List.eq_nil_or_concat post with rfl | ⟨post, last, rfl⟩
  · obtain ⟨rfl, hlast⟩ := List.append_inj' heq rfl
    rw [← (List.cons.inj hlast).1]
    exact hev
  · rw [List.concat_eq_append, ← List.cons_append, ← List.append_assoc] at heq
    exact h pre ev' post (List.append_inj' heq rfl).1

/-- Pending targets go by, where `P` asks nothing of them. -/
theorem EachAfter.pends (h : EachAfter P events) (hpend : ∀ pre target, P pre (.pend target))
    (targets : List U32) : EachAfter P (events ++ targets.map .pend) := by
  induction targets generalizing events with
  | nil =>
      rw [List.map_nil, List.append_nil]
      exact h
  | cons target targets ih =>
      have := ih (h.snoc (hpend events target))
      rwa [List.append_assoc] at this

end EachAfter

section Agreement

variable {code : Code} {sec : CodeSection}

/-- The targets that the sweep adds for a run have been added. -/
def Pended (run : List (U32 × Instruction)) (events : List SweepEvent) : Prop :=
  ∀ p ∈ run, ∀ target ∈ p.2.sweepTargets p.1, SweepEvent.pend target ∈ events

theorem Pended.append_events {run : List (U32 × Instruction)} {events : List SweepEvent}
    (h : Pended run events) (added : List SweepEvent) : Pended run (events ++ added) :=
  fun p hp target htarget => List.mem_append_left _ (h p hp target htarget)

/-- **What a trace owes** that was assembled because of the instruction that ends it: it is the
straight-line run from its start, and the targets of the run were added before. -/
def FollowsRun (code : Code) (sec : CodeSection) (before : List SweepEvent) : SweepEvent → Prop
  | .pend _ => True
  | .assemble cause start size => cause.IsEnd → ∃ run, StraightLine code sec start run ∧
      BitVec.ofNat 32 (runSize run) = size ∧ Pended run before

/-- The invariant of the sweep: the open trace is decoded straight through up to the instruction,
with its targets added, and every trace assembled so far follows its run. -/
structure SweepState.Sweeps (code : Code) (sec : CodeSection) (st : SweepState) : Prop where
  same : st.instPost = st.instPre
  opened : ∃ run, Decodes code sec st.traceStart run st.instPre ∧ Pended run st.events
  assembled : EachAfter (FollowsRun code sec) st.events

/-- Where a new trace is opened nothing is decoded yet. -/
theorem SweepState.sweeps_at {a : U32} {events : List SweepEvent}
    (h : EachAfter (FollowsRun code sec) events) : SweepState.Sweeps code sec ⟨a, a, a, events⟩ :=
  ⟨rfl, ⟨[], .nil, fun _ hp => absurd hp List.not_mem_nil⟩, h⟩

/-- Padding closes the open trace, whatever it is, as padding. -/
theorem sweeps_sweepPadding (gapEnd : U32) {st : SweepState} (h : st.Sweeps code sec) :
    (sweepPadding code sec gapEnd st).Sweeps code sec := by
  rcases sweepPadding_cases code sec gapEnd st with ⟨-, heq⟩ | ⟨-, heq⟩
  · rw [heq]
    exact h
  · rw [heq]
    apply SweepState.sweeps_at (h.assembled.snoc _)
    rintro (hcause | hcause | hcause) <;> exact absurd hcause (by simp)

/-- **Step.** An instruction extends the open trace, or ends it as its straight-line run. -/
theorem sweeps_sweepInstruction {st : SweepState} (h : st.Sweeps code sec) :
    (sweepInstruction code sec st).Sweeps code sec := by
  obtain ⟨run, hrun, hpended⟩ := h.opened
  cases hins : instructionAt code sec st.instPre with
  | none =>
      rw [sweepInstruction_of_none hins]
      exact SweepState.sweeps_at h.assembled
  | some ins =>
      have hevents := h.assembled.pends (fun _ _ => trivial) (ins.sweepTargets st.instPre)
      have hpended' : Pended (run ++ [(st.instPre, ins)])
          (st.events ++ (ins.sweepTargets st.instPre).map .pend) := by
        intro p hp
        rcases List.mem_append.mp hp with hp | hp
        · exact hpended.append_events _ p hp
        · rw [List.mem_singleton.mp hp]
          intro target htarget
          exact List.mem_append_right _ (List.mem_map_of_mem htarget)
      rw [sweepInstruction_of_some hins]
      split_ifs with hends
      · apply SweepState.sweeps_at (hevents.snoc _)
        intro _
        refine ⟨run ++ [(st.instPre, ins)], hrun.straightLine (.last hins hends), ?_, hpended'⟩
        -- the instruction begins where the open trace ends
        have hsize : runSize [(st.instPre, ins)] = ins.length.toNat := rfl
        rw [runSize_append, hsize, BitVec.ofNat_add, BitVec.ofNat_toNat, BitVec.setWidth_eq]
        have hstop := hrun.stop_eq
        generalize BitVec.ofNat 32 (runSize run) = size at hstop ⊢
        rw [hstop]
        bv_omega
      · exact ⟨rfl, ⟨_, hrun.snoc hins (Bool.eq_false_iff.mpr hends), hpended'⟩, hevents⟩

end Agreement

/-! ## Termination -/

section Termination

variable {code : Code} {sec : CodeSection}

/-- Skipping padding moves the instruction up, and not to the last address. -/
theorem sweepPadding_forward (code : Code) (sec : CodeSection) {gapEnd : U32} {st : SweepState}
    (hlt : st.instPre < gapEnd) :
    st.instPre.toNat ≤ (sweepPadding code sec gapEnd st).instPre.toNat ∧
      (sweepPadding code sec gapEnd st).instPre.toNat + 1 < 2 ^ 32 := by
  have hlt' : st.instPre.toNat < gapEnd.toNat := hlt
  rcases sweepPadding_cases code sec gapEnd st with ⟨-, heq⟩ | ⟨hpad, heq⟩
  · rw [heq]
    exact ⟨le_rfl, by omega⟩
  · obtain ⟨j, hj, hspec, -, -, hbad⟩ := paddingStart_spec code sec hlt'.le
    rw [hspec, decide_eq_true_eq] at hpad
    have hnot : gapEnd.toInt ≠ -1 := by
      intro hend
      have := hbad (Or.inr (Or.inl hend))
      omega
    -- the padding ends at the end of the gap at the latest, which is not `-1`
    have hend : gapEnd.toNat + 1 < 2 ^ 32 := by
      by_contra hmax
      apply hnot
      rw [show gapEnd = 0xFFFFFFFF by bv_omega]
      decide
    have hadd : (st.instPre + BitVec.ofNat 32 j).toNat = st.instPre.toNat + j := by bv_omega
    rw [heq, hspec]
    show _ ≤ (st.instPre + BitVec.ofNat 32 j).toNat ∧ (st.instPre + BitVec.ofNat 32 j).toNat + 1 < _
    omega

/-- The rest of a pass moves it further. -/
theorem sweepInstruction_forward {longest : Nat} (hb : sec.Below code longest) {st : SweepState}
    (hsame : st.instPost = st.instPre) (hmax : st.instPre.toNat + 1 < 2 ^ 32) :
    st.instPre.toNat < (sweepInstruction code sec st).instPre.toNat := by
  cases hins : instructionAt code sec st.instPre with
  | none =>
      rw [sweepInstruction_of_none hins]
      show st.instPre.toNat < (st.instPost + 1).toNat
      rw [hsame]
      bv_omega
  | some ins =>
      have hadd := (hb.toNat_add hins).1
      have hpos := ins.length_pos
      rw [sweepInstruction_of_some hins]
      split_ifs
      · show st.instPre.toNat < (st.instPre + ins.length).toNat
        omega
      · show st.instPre.toNat < (st.instPre + ins.length).toNat
        omega

/-- **The sweep of a gap terminates**, and what it assembles follows the runs. -/
theorem exists_linearSweepGap {longest : Nat} (hb : sec.Below code longest)
    (gapStart gapEnd : U32) :
    ∃ events, Computes (fun n => linearSweepGap n code sec gapStart gapEnd) events ∧
      EachAfter (FollowsRun code sec) events := by
  have htotal : ∃ st : SweepState, Computes (fun n =>
      whileLoop (fun st => some (sweepBody code sec gapEnd st)) n ⟨gapStart, gapStart, gapStart, []⟩)
        st ∧ EachAfter (FollowsRun code sec) st.events := by
    apply total_rule (fun st => gapEnd.toNat - st.instPre.toNat) (SweepState.Sweeps code sec)
      (fun st : SweepState => EachAfter (FollowsRun code sec) st.events) _
      (SweepState.sweeps_at eachAfter_nil)
    intro st hst
    unfold sweepBody
    split_ifs with hlt
    · obtain ⟨hle, hmax⟩ := sweepPadding_forward code sec hlt
      have hpadded := sweeps_sweepPadding gapEnd hst
      have hmoved := sweepInstruction_forward hb hpadded.same hmax
      have hlt' : st.instPre.toNat < gapEnd.toNat := hlt
      exact Or.inr ⟨_, computes_some _, by omega, sweeps_sweepInstruction hpadded⟩
    · exact Or.inl ⟨st, computes_some _, hst.assembled⟩
  obtain ⟨st, hst, hassembled⟩ := htotal
  exact ⟨st.events, hst.map SweepState.events, hassembled⟩

end Termination

namespace CodeSectionSweeper

variable {code : Code}

/-- What has been added to the pending targets stays there. -/
theorem mem_pendingTargets_applyEvents {events : List SweepEvent} {s : CodeSectionSweeper}
    {target : U32} (h : target ∈ s.pendingTargets ∨ SweepEvent.pend target ∈ events) :
    target ∈ (events.foldl applyEvent s).pendingTargets := by
  induction events generalizing s with
  | nil => exact h.resolve_right List.not_mem_nil
  | cons ev events ih =>
      rw [List.foldl_cons]
      apply ih
      rcases h with h | h
      · cases ev with
        | pend other =>
            exact Or.inl (mem_insert_target.mpr (Or.inr h))
        | assemble _ _ _ => exact Or.inl h
      · rcases List.mem_cons.mp h with rfl | h
        · exact Or.inl (mem_insert_target.mpr (Or.inl rfl))
        · exact Or.inr h

/-- **The sweep agrees with `StaticTrace::process`.**  Below the top of the address space the sweep
of a gap terminates, and a trace that it assembles because of a JMP, a CALL or a RET has the size
that `process` computes from its start; by then the direct destinations of the JMP and JMPC
instructions in it, which `process` generates, are pending. -/
theorem linearSweepGap_agrees (code : Code) (longest : Nat) (sec : CodeSection)
    (hb : sec.Below code longest) (gapStart gapEnd : U32) :
    ∃ events, Computes (fun n => linearSweepGap n code sec gapStart gapEnd) events ∧
      ∀ before cause start size after,
        events = before ++ .assemble cause start size :: after → cause.IsEnd →
        ∃ run, StraightLine code sec start run ∧ ∀ id lea, ∃ r,
          Computes (fun n => (StaticTrace.new id start sec).process n code [] lea) r ∧
            r.1.size = size ∧
            ∀ p ∈ run, p.2.type = .jmp ∨ p.2.type = .jmpc → ∀ dest ∈ p.2.genTargets p.1,
              dest ∈ r.2.1 ∧
                ∀ s : CodeSectionSweeper, dest ∈ (before.foldl applyEvent s).pendingTargets := by
  obtain ⟨events, hevents, hfollows⟩ := exists_linearSweepGap hb gapStart gapEnd
  refine ⟨events, hevents, fun before cause start size after heq hend => ?_⟩
  obtain ⟨run, hrun, hsize, hpended⟩ := hfollows before _ after heq hend
  refine ⟨run, hrun, fun id lea => ?_⟩
  have hprocess : Computes (fun n => (StaticTrace.new id start sec).process n code [] lea)
      (StaticTrace.ofRun id start sec run, runTargets run, runLea run lea) :=
    ⟨run.length + 1, fun n hn => StaticTrace.process_of_straightLine hrun (by omega) id lea⟩
  refine ⟨_, hprocess, hsize, fun p hp htype dest hdest => ⟨?_, fun s => ?_⟩⟩
  · exact List.mem_flatMap.mpr ⟨p, hp, hdest⟩
  · apply mem_pendingTargets_applyEvents
    apply Or.inr (hpended p hp dest _)
    -- of a jump both add the same targets
    rcases htype with htype | htype
    · simpa [Instruction.sweepTargets, Instruction.genTargets, htype] using hdest
    · simpa [Instruction.sweepTargets, Instruction.genTargets, htype] using hdest

section Samples

/-- The sweep of the four bytes assembles `jnz; ret` with the size of the trace that `process`
finds, and its destination is pending then. -/
theorem linearSweepGap_agrees_sample :
    (∃ r, Computes (fun n => (StaticTrace.new 0 0x1000 sampleSection).process n jnzCode [] ∅) r ∧
      r.1.size = 3) ∧
    0x1003 ∈ (([.pend 0x1003] : List SweepEvent).foldl applyEvent
      (init sampleSection)).pendingTargets := by
  obtain ⟨events, hevents, hagrees⟩ :=
    linearSweepGap_agrees jnzCode 5 sampleSection below_jnzCode 0x1000 0x1004
  have hsweep : Computes (fun n => linearSweepGap n jnzCode sampleSection 0x1000 0x1004)
      [.pend 0x1003, .assemble .ret 0x1000 3, .assemble .ret 0x1003 1] :=
    (fuelMono_linearSweepGap 0x1000 0x1004).computes
      (show linearSweepGap 9 jnzCode sampleSection 0x1000 0x1004 = _ by decide)
  obtain ⟨run, hrun, hall⟩ := hagrees [.pend 0x1003] .ret 0x1000 3 [.assemble .ret 0x1003 1]
    (hevents.unique hsweep) (Or.inr (Or.inr rfl))
  obtain ⟨r, hr, hsize, hjumps⟩ := hall 0 ∅
  refine ⟨⟨r, hr, hsize⟩, (hjumps (0x1000, jnzInstruction) ?_ (Or.inr rfl) 0x1003 ?_).2 _⟩
  · rw [hrun.unique straightLine_jnzCode]
    exact List.mem_cons_self
  · decide

end Samples

end CodeSectionSweeper

end PEReplay
