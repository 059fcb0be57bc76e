/-
# PEReplay.Sweeper.Inside — when every trace is a nonempty range of the section.

A trace is inserted at four kinds of points: where a pending target is popped, at a trampoline,
where the linear sweep meets padding and where it meets an instruction that ends a trace.
`Point.Safe` says of the state at the point, and of the code there, what the insertion needs.  From
traces inside the section a step leads to traces inside the section exactly when the point it leaves
is safe (`Step.inside`, `Step.safe`), so along a path they stay inside as long as every point is
safe (`points_inside`).  Nothing in the source makes a point safe: `traces_outside` has a target
that does not decode, an instruction that crosses the end of the section, and padding behind a
`ret`.
-/
import PEReplay.Sweeper.Points
import PEReplay.Sweeper.Bounds
import PEReplay.Sweeper.LinearSweep

namespace PEReplay

open Loop

/-! ## Ranges of the section -/

/-- `[start, start + size)` is not empty and lies in the section. -/
def CodeSection.Holds (sec : CodeSection) (start size : U32) : Prop :=
  0 < size.toNat ∧ sec.start.toNat ≤ start.toNat ∧ start.toNat + size.toNat ≤ sec.top

instance (sec : CodeSection) (start size : U32) : Decidable (sec.Holds start size) :=
  inferInstanceAs (Decidable (_ ∧ _ ∧ _))

/-- The instruction at `a` ends in the section. -/
def Instruction.EndsInside (ins : Instruction) (sec : CodeSection) (a : U32) : Prop :=
  a.toNat + ins.length.toNat ≤ sec.top

/-- No instruction of the section leads round the address space back into the section.  It holds
whenever instructions have at most 15 bytes and the section does not begin in the first 15 bytes of
the address space. -/
def CodeSection.NoReentry (sec : CodeSection) (code : Code) : Prop :=
  ∀ a ins, instructionAt code sec a = some ins → sec.isAddrCode (a + ins.length) = true →
    a.toNat + ins.length.toNat < 2 ^ 32

section Ranges

variable {code : Code} {sec : CodeSection}

theorem CodeSection.isAddrCode_bounds {a : U32} (h : sec.isAddrCode a = true) :
    sec.start.toNat ≤ a.toNat ∧ a.toNat < sec.top := (sec.isAddrCode_iff a).mp h

theorem CodeSection.top_lt (sec : CodeSection) : sec.top < 2 ^ 32 := sec.fits

/-- Between two addresses of the section there is a range unless they are equal. -/
theorem holds_between_iff {a b : U32} (ha : sec.isAddrCode a = true) (hle : a.toNat ≤ b.toNat)
    (hb : b.toNat ≤ sec.top) : sec.Holds a (b - a) ↔ a ≠ b := by
  have hsize : (b - a).toNat = b.toNat - a.toNat := by bv_omega
  have hstart := (CodeSection.isAddrCode_bounds ha).1
  unfold CodeSection.Holds
  rw [hsize]
  constructor
  · rintro ⟨hpos, -⟩ rfl
    omega
  · intro hne
    have hlt : a.toNat ≠ b.toNat := fun heq => hne (BitVec.eq_of_toNat_eq heq)
    exact ⟨by omega, hstart, by omega⟩

/-- A range up to the end of an instruction that ends inside. -/
theorem holds_of_endsInside {start a : U32} {ins : Instruction}
    (hstart : sec.isAddrCode start = true) (hle : start.toNat ≤ a.toNat)
    (h : ins.EndsInside sec a) : sec.Holds start (a + ins.length - start) := by
  have hpos := ins.length_pos
  have htop := sec.top_lt
  have hadd : (a + ins.length).toNat = a.toNat + ins.length.toNat := by
    rw [BitVec.toNat_add, Nat.mod_eq_of_lt (lt_of_le_of_lt h htop)]
  have hend : (a + ins.length).toNat ≤ sec.top := hadd.trans_le h
  apply (holds_between_iff hstart (by omega) hend).mpr
  rintro rfl
  omega

/-- An instruction that does not end inside makes no range, as it does not lead back into the
section. -/
theorem endsInside_of_holds {start a : U32} {ins : Instruction} (hreentry : sec.NoReentry code)
    (hins : instructionAt code sec a = some ins) (hstart : sec.start.toNat ≤ start.toNat)
    (hle : start.toNat ≤ a.toNat) (size : U32)
    (hsize : size.toNat = (a.toNat + ins.length.toNat - start.toNat) % 2 ^ 32)
    (h : sec.Holds start size) : ins.EndsInside sec a := by
  obtain ⟨-, -, hend⟩ := h
  have ha := CodeSection.isAddrCode_bounds (isAddrCode_of_instructionAt hins).1
  have htop := sec.top_lt
  have hlen := ins.length.isLt
  unfold Instruction.EndsInside
  by_cases hwrap : a.toNat + ins.length.toNat < 2 ^ 32
  · omega
  · -- the end wraps to an address before the section, so the range would wrap too
    have hnot : ¬ sec.isAddrCode (a + ins.length) = true := fun hcode =>
      hwrap (hreentry a ins hins hcode)
    rw [CodeSection.isAddrCode_iff] at hnot
    have hadd : (a + ins.length).toNat = a.toNat + ins.length.toNat - 2 ^ 32 := by bv_omega
    unfold CodeSection.top at ha hend htop
    omega

/-! ## Straight-line runs -/

/-- A run that has instructions ends where its last one does; the others end before the section
does. -/
theorem StraightLine.exists_last {a : U32} {run : List (U32 × Instruction)}
    (hreentry : ∀ p ∈ run, sec.isAddrCode (p.1 + p.2.length) = true →
      p.1.toNat + p.2.length.toNat < 2 ^ 32)
    (h : StraightLine code sec a run) (hne : run ≠ []) :
    ∃ p ∈ run, instructionAt code sec p.1 = some p.2 ∧ a.toNat ≤ p.1.toNat ∧
      a.toNat + runSize run = p.1.toNat + p.2.length.toNat ∧
      ∀ q ∈ run, q = p ∨ q.2.EndsInside sec q.1 := by
  induction h with
  | stop _ => exact absurd rfl hne
  | @last a ins hins _ =>
      refine ⟨(a, ins), List.mem_cons_self, hins, le_rfl, rfl, fun q hq => ?_⟩
      exact Or.inl (List.mem_singleton.mp hq)
  | @cons a ins run hins hgoes hrun ih =>
      cases run with
      | nil =>
          refine ⟨(a, ins), List.mem_cons_self, hins, le_rfl, rfl, fun q hq => ?_⟩
          exact Or.inl (List.mem_singleton.mp hq)
      | cons next run =>
          obtain ⟨p, hp, hinsp, hle, hsum, hothers⟩ :=
            ih (fun p hp => hreentry p (List.mem_cons_of_mem _ hp)) (List.cons_ne_nil _ _)
          -- what follows is in the section
          have hcode : sec.isAddrCode (a + ins.length) = true := by
            cases hrun with
            | last hnext _ => exact (isAddrCode_of_instructionAt hnext).1
            | cons hnext _ _ => exact (isAddrCode_of_instructionAt hnext).1
          have hwrap := hreentry (a, ins) List.mem_cons_self hcode
          have hadd : (a + ins.length).toNat = a.toNat + ins.length.toNat := by
            rw [BitVec.toNat_add, Nat.mod_eq_of_lt hwrap]
          have hlt := (CodeSection.isAddrCode_bounds hcode).2
          refine ⟨p, List.mem_cons_of_mem _ hp, hinsp, by omega, ?_, fun q hq => ?_⟩
          · rw [runSize_cons, ← hsum, hadd]
            exact (Nat.add_assoc _ _ _).symm
          · rcases List.mem_cons.mp hq with rfl | hq
            · exact Or.inr (hadd.symm.trans_le hlt.le)
            · exact hothers q hq

/-- The trace of a run lies in the section when its first address decodes and its instructions end
inside. -/
theorem holds_of_run {a : U32} {run : List (U32 × Instruction)} (hcode : sec.isAddrCode a = true)
    (hrun : StraightLine code sec a run) (hdecodes : instructionAt code sec a ≠ none)
    (hends : ∀ p ∈ run, p.2.EndsInside sec p.1) :
    sec.Holds a (BitVec.ofNat 32 (runSize run)) := by
  have htop := sec.top_lt
  have hne : run ≠ [] := by
    rintro rfl
    cases hrun with
    | stop hnone => exact hdecodes hnone
  obtain ⟨p, hp, -, hle, hsum, -⟩ := StraightLine.exists_last
    (fun p hp _ => lt_of_le_of_lt (hends p hp) htop) hrun hne
  have hend : p.1.toNat + p.2.length.toNat ≤ sec.top := hends p hp
  have hpos := p.2.length_pos
  have hstart := (CodeSection.isAddrCode_bounds hcode).1
  unfold CodeSection.Holds
  rw [BitVec.toNat_ofNat, Nat.mod_eq_of_lt (by omega)]
  exact ⟨by omega, hstart, by omega⟩

/-- Conversely, when no instruction leads back into the section. -/
theorem run_endsInside_of_holds {a : U32} {run : List (U32 × Instruction)}
    (hreentry : sec.NoReentry code) (hrun : StraightLine code sec a run)
    (h : sec.Holds a (BitVec.ofNat 32 (runSize run))) :
    instructionAt code sec a ≠ none ∧ ∀ p ∈ run, p.2.EndsInside sec p.1 := by
  have hne : run ≠ [] := by
    rintro rfl
    exact absurd h.1 (by decide)
  have hmem := hrun.instructionAt_of_mem
  obtain ⟨p, hp, hins, hle, hsum, hothers⟩ := StraightLine.exists_last
    (fun q hq hcode => hreentry q.1 q.2 (hmem q hq) hcode) hrun hne
  have hlast : p.2.EndsInside sec p.1 := by
    refine endsInside_of_holds hreentry hins h.2.1 hle _ ?_ h
    rw [BitVec.toNat_ofNat, ← hsum, Nat.add_sub_cancel_left]
  constructor
  · intro hnone
    cases hrun with
    | stop _ => exact hne rfl
    | last hins _ => exact absurd (hnone.symm.trans hins) (by simp)
    | cons hins _ _ => exact absurd (hnone.symm.trans hins) (by simp)
  · intro q hq
    rcases hothers q hq with rfl | hinside
    · exact hlast
    · exact hinside

end Ranges

namespace CodeSectionSweeper

/-! ## Safe points -/

/-- Every trace is a nonempty range inside the section. -/
def Inside (s : CodeSectionSweeper) : Prop :=
  ∀ t ∈ s.traces, s.codeSection.Holds t.start t.size

/-- **What the insertion at a point needs.**  Where a trace is assembled, an address that already
starts a trace will do, as the set refuses the new one. -/
def Point.Safe (code : Code) : Point → Prop
  -- the target decodes, and no instruction of the run from it crosses the end of the section
  | .worklist s => ∀ target rest, s.pendingTargets.elems = target :: rest → s.Fresh target →
      ∀ run, StraightLine code s.codeSection target run →
        instructionAt code s.codeSection target ≠ none ∧
        ∀ p ∈ run, p.2.EndsInside s.codeSection p.1
  -- the five bytes of a trampoline are in the section
  | .trampolines g st c =>
      (isRangeSingleTrampoline code g.before.codeSection c.1 st.stop).isSome = true →
        c.1.toNat + 5 ≤ g.before.codeSection.top ∨
        (Point.trampolines g st c).sweeper.hasTraceAt c.1 = true
  -- padding does not begin where the trace would
  | .sweep g gapEnd st => st.instPre < gapEnd →
      (isRangeAlignPaddingStart code g.before.codeSection st.instPre gapEnd).1 = true →
        st.traceStart ≠ st.instPost ∨
        (Point.sweep g gapEnd st).sweeper.hasTraceAt st.traceStart = true
  -- an instruction that ends the trace ends in the section
  | .instruction g gapEnd st => ∀ ins,
      instructionAt code g.before.codeSection st.instPre = some ins →
      (ins.endsTrace = true → ins.EndsInside g.before.codeSection st.instPre ∨
        (Point.instruction g gapEnd st).sweeper.hasTraceAt st.traceStart = true) ∧
      (g.before.codeSection.isAddrCode (st.instPre + ins.length) = true →
        st.instPre.toNat + ins.length.toNat < 2 ^ 32)
  | _ => True

/-- Every point of a path that is left is safe. -/
def SafeAll (code : Code) : Point → List Point → Prop
  | _, [] => True
  | p, p' :: path => p.Safe code ∧ SafeAll code p' path

/-! ## Insertions -/

variable {code : Code}

theorem codeSection_applyEvents (events : List SweepEvent) (s : CodeSectionSweeper) :
    (events.foldl applyEvent s).codeSection = s.codeSection := by
  induction events generalizing s with
  | nil => rfl
  | cons ev events ih =>
      rw [List.foldl_cons, ih]
      cases ev <;> rfl

@[simp] theorem GapLoop.codeSection_sweeper (g : GapLoop) (events : List SweepEvent) :
    (g.sweeper events).codeSection = g.before.codeSection := codeSection_applyEvents _ _

theorem GapLoop.sweeper_append (g : GapLoop) (events added : List SweepEvent) :
    g.sweeper (events ++ added) = added.foldl applyEvent (g.sweeper events) := by
  unfold GapLoop.sweeper
  rw [← List.append_assoc, List.foldl_append]

theorem GapLoop.sweeper_moved (g : GapLoop) (gaps : List AddrRange) (events : List SweepEvent) :
    GapLoop.sweeper { g with gaps := gaps, events := g.events ++ events } [] =
      g.sweeper events := by
  unfold GapLoop.sweeper
  rw [List.append_nil]

/-- Pending targets are no traces. -/
theorem traces_applyPends (targets : List U32) (s : CodeSectionSweeper) :
    ((targets.map SweepEvent.pend).foldl applyEvent s).traces = s.traces := by
  induction targets generalizing s with
  | nil => rfl
  | cons target targets ih =>
      rw [List.map_cons, List.foldl_cons, ih]
      rfl

/-- Whether the traces are inside depends on them and on the section. -/
theorem Inside.congr {s s' : CodeSectionSweeper} (h : s.Inside) (htraces : s'.traces = s.traces)
    (hsec : s'.codeSection = s.codeSection) : s'.Inside := by
  unfold Inside
  rw [htraces, hsec]
  exact h

/-- **An assembled trace** keeps the traces inside exactly when it is inside itself, or refused. -/
theorem inside_assemble_iff {s : CodeSectionSweeper} (h : s.Inside) (cause : AssembleCause)
    (start size : U32) : (s.applyEvent (.assemble cause start size)).Inside ↔
      s.codeSection.Holds start size ∨ s.hasTraceAt start = true := by
  cases hat : s.hasTraceAt start with
  | true =>
      have hkey := (hasTraceAt_iff_hasKey s start).mp hat
      exact iff_of_true (h.congr (KeyedSet.insert_of_hasKey hkey) rfl) (Or.inr rfl)
  | false =>
      have hmem : ∀ t, t ∈ (s.applyEvent (.assemble cause start size)).traces ↔
          t = StaticTrace.assembleTrace s.nextId start size s.codeSection ∨ t ∈ s.traces :=
        fun t => mem_addTrace_of_free hat
      constructor
      · intro hin
        exact Or.inl (hin _ ((hmem _).mpr (Or.inl rfl)))
      · rintro (hholds | hfalse)
        · intro t ht
          rcases (hmem t).mp ht with rfl | ht
          · exact hholds
          · exact h t ht
        · exact absurd hfalse (by simp)

/-- **A visited target** keeps the traces inside exactly when the trace of its run is inside. -/
theorem inside_visited_iff {s : CodeSectionSweeper} (h : s.Inside) {target : U32}
    (hfresh : s.Fresh target) (run : List (U32 × Instruction)) :
    (s.visited target run).Inside ↔
      s.codeSection.Holds target (BitVec.ofNat 32 (runSize run)) := by
  constructor
  · intro hin
    exact hin _ ((mem_traces_visited hfresh).mpr (Or.inl rfl))
  · intro hholds t ht
    rcases (mem_traces_visited hfresh).mp ht with rfl | ht
    · exact hholds
    · exact h t ht

/-- The split pass shortens traces but never to nothing. -/
theorem inside_splitUpTo {s : CodeSectionSweeper} (h : s.Inside) (k : Nat) :
    (s.splitUpTo k).Inside := by
  have hwrap : ∀ t ∈ s.traces.elems, t.NoWrap := fun t ht =>
    lt_of_le_of_lt (h t ht).2.2 s.codeSection.top_lt
  intro t ht
  rcases List.mem_append.mp ht with ht | ht
  · have hpairs := splitLoop_forall₂ s.traces.sorted_elems hwrap
    obtain ⟨i, hi, rfl⟩ := List.getElem_of_mem (List.mem_of_mem_take ht)
    have hi' : i < s.traces.elems.length := hpairs.length_eq ▸ hi
    obtain ⟨hstart, -, hpos, hsize⟩ := hpairs.get hi hi'
    obtain ⟨hpos', hlo, hhi⟩ := h _ (List.getElem_mem hi')
    simp only [List.get_eq_getElem] at hstart hpos hsize
    refine ⟨hpos.mpr hpos', ?_, ?_⟩
    · rw [hstart]
      exact hlo
    · rw [hstart]
      exact le_trans (Nat.add_le_add_left hsize _) hhi
  · exact h t (List.mem_of_mem_drop ht)

/-! ## The linear sweep -/

end CodeSectionSweeper

section Sweep

variable {code : Code} {sec : CodeSection}

/-- What holds of the variables of the linear sweep: inside the section `trace_start` is at or
before the instruction, and in the section too. -/
structure SweepState.Follows (sec : CodeSection) (st : SweepState) : Prop where
  same : st.instPost = st.instPre
  start : sec.isAddrCode st.instPre = true →
    sec.isAddrCode st.traceStart = true ∧ st.traceStart.toNat ≤ st.instPre.toNat

/-- Where a new trace starts at the instruction there is nothing to show. -/
theorem SweepState.follows_at (a : U32) (events : List SweepEvent) :
    SweepState.Follows sec ⟨a, a, a, events⟩ :=
  ⟨rfl, fun hcode => ⟨hcode, le_rfl⟩⟩

/-- Both parts of a pass keep the order of the variables. -/
theorem follows_sweepPadding (gapEnd : U32) {st : SweepState} (h : st.Follows sec) :
    (sweepPadding code sec gapEnd st).Follows sec := by
  rcases sweepPadding_cases code sec gapEnd st with ⟨-, heq⟩ | ⟨-, heq⟩
  · rw [heq]
    exact h
  · rw [heq]
    exact SweepState.follows_at _ _

theorem follows_sweepInstruction {st : SweepState} (h : st.Follows sec)
    (hwrap : ∀ ins, instructionAt code sec st.instPre = some ins →
      sec.isAddrCode (st.instPre + ins.length) = true →
        st.instPre.toNat + ins.length.toNat < 2 ^ 32) :
    (sweepInstruction code sec st).Follows sec := by
  cases hins : instructionAt code sec st.instPre with
  | none =>
      rw [sweepInstruction_of_none hins]
      exact SweepState.follows_at _ _
  | some ins =>
      rw [sweepInstruction_of_some hins]
      split_ifs
      · exact SweepState.follows_at _ _
      · refine ⟨rfl, fun hcode => ?_⟩
        obtain ⟨hstart, hle⟩ := h.start (isAddrCode_of_instructionAt hins).1
        have hadd : (st.instPre + ins.length).toNat = st.instPre.toNat + ins.length.toNat := by
          rw [BitVec.toNat_add, Nat.mod_eq_of_lt (hwrap ins hins hcode)]
        refine ⟨hstart, ?_⟩
        show st.traceStart.toNat ≤ (st.instPre + ins.length).toNat
        omega

end Sweep

namespace CodeSectionSweeper

variable {code : Code}

/-! ## One step -/

/-- What holds of the variables at a point, besides its traces being inside. -/
def Point.Sound : Point → Prop
  | .split s _ => s.Inside
  | .sweep g _ st | .instruction g _ st => st.Follows g.before.codeSection
  | _ => True

/-- **A pop** keeps the traces inside exactly when the run of a fresh target is inside. -/
theorem inside_pop_iff {n : Nat} {s s' : CodeSectionSweeper} (h : s.Inside)
    (hbody : worklistBody n code s = some (.next s')) :
    s'.Inside ↔ ∀ target rest, s.pendingTargets.elems = target :: rest → s.Fresh target →
      ∀ run, StraightLine code s.codeSection target run →
        s.codeSection.Holds target (BitVec.ofNat 32 (runSize run)) := by
  unfold worklistBody at hbody
  cases helems : s.pendingTargets.elems with
  | nil =>
      rw [helems] at hbody
      exact absurd hbody (by simp)
  | cons target rest =>
      rw [helems] at hbody
      obtain ⟨s₁, hpop, hnext⟩ := Option.map_eq_some_iff.mp hbody
      obtain rfl := LoopStep.next.inj hnext
      rcases popTarget_cases hpop with ⟨hstale, rfl⟩ | ⟨hfresh, run, hrun, rfl⟩
      · refine iff_of_true (h.congr rfl rfl) fun target' rest' heq hfresh => ?_
        rw [← (List.cons.inj heq).1] at hfresh
        exact absurd hfresh hstale
      · rw [inside_visited_iff h hfresh]
        constructor
        · intro hholds target' rest' heq _ run' hrun'
          obtain ⟨rfl, -⟩ := List.cons.inj heq
          rw [← hrun.unique hrun']
          exact hholds
        · intro hall
          exact hall target rest rfl hfresh run hrun

/-- The loop over trampolines leaves with what it has, where there is none. -/
theorem eq_of_trampolines_exit {sec : CodeSection} {stop : U32}
    {c c' : U32 × Bool × List SweepEvent}
    (h : comboTrampolineBody code sec stop c = .exit c') :
    isRangeSingleTrampoline code sec c.1 stop = none ∧ c = c' := by
  unfold comboTrampolineBody at h
  split at h
  · exact absurd h (by simp)
  · rename_i hnone
    exact ⟨hnone, LoopStep.exit.inj h⟩

/-- **A trampoline**: where it is, and what the pass adds. -/
theorem trampolines_next {sec : CodeSection} {stop : U32} {c c' : U32 × Bool × List SweepEvent}
    (h : comboTrampolineBody code sec stop c = .next c') :
    (isRangeSingleTrampoline code sec c.1 stop).isSome = true ∧ sec.isAddrCode c.1 = true ∧
      ∃ target, c'.2.2 = c.2.2 ++ [.pend target, .assemble .trampoline c.1 5] := by
  unfold comboTrampolineBody at h
  split at h
  · rename_i start events hsingle
    refine ⟨by rw [hsingle]; rfl, ?_⟩
    rw [← LoopStep.next.inj h]
    unfold isRangeSingleTrampoline at hsingle
    split_ifs at hsingle with hcond
    · obtain ⟨-, rfl⟩ := Prod.mk.inj (Option.some.inj hsingle)
      exact ⟨hcond.2.2.1, trampolineAddr code c.1, rfl⟩
  · exact absurd h (by simp)

theorem inside_trampoline_iff {g : GapLoop} {events : List SweepEvent} {start target : U32}
    (h : (g.sweeper events).Inside) (hcode : g.before.codeSection.isAddrCode start = true) :
    (g.sweeper (events ++ [.pend target, .assemble .trampoline start 5])).Inside ↔
      start.toNat + 5 ≤ g.before.codeSection.top ∨
        (g.sweeper events).hasTraceAt start = true := by
  have hpend : ((g.sweeper events).applyEvent (.pend target)).Inside := h.congr rfl rfl
  have hholds : g.before.codeSection.Holds start 5 ↔
      start.toNat + 5 ≤ g.before.codeSection.top := by
    have hstart := (CodeSection.isAddrCode_bounds hcode).1
    exact ⟨fun hholds => hholds.2.2, fun hle => ⟨by decide, hstart, hle⟩⟩
  rw [g.sweeper_append, List.foldl_cons, List.foldl_cons, List.foldl_nil,
    inside_assemble_iff hpend, ← hholds]
  show (g.sweeper events).codeSection.Holds start 5 ∨ _ ↔ _
  rw [g.codeSection_sweeper]
  rfl

theorem inside_padding_iff {g : GapLoop} {gapEnd : U32} {st : SweepState}
    (h : (g.sweeper st.events).Inside) (hst : st.Follows g.before.codeSection)
    (hpad : (isRangeAlignPaddingStart code g.before.codeSection st.instPre gapEnd).1 = true) :
    (g.sweeper (sweepPadding code g.before.codeSection gapEnd st).events).Inside ↔
      st.traceStart ≠ st.instPost ∨ (g.sweeper st.events).hasTraceAt st.traceStart = true := by
  rcases sweepPadding_cases code g.before.codeSection gapEnd st with ⟨hnot, -⟩ | ⟨-, heq⟩
  · rw [hpad] at hnot
    exact absurd hnot (by simp)
  · -- the padding begins in the section, at `inst_post`
    have hcode := (padding_begins hpad).1
    obtain ⟨hstart, hle⟩ := hst.start hcode
    have hlt := (CodeSection.isAddrCode_bounds hcode).2
    rw [← hst.same] at hle hlt
    rw [heq, g.sweeper_append, List.foldl_cons, List.foldl_nil, inside_assemble_iff h,
      g.codeSection_sweeper, holds_between_iff hstart hle hlt.le]

theorem inside_instruction_iff {g : GapLoop} {st : SweepState} {ins : Instruction}
    (h : (g.sweeper st.events).Inside)
    (hins : instructionAt code g.before.codeSection st.instPre = some ins) :
    (g.sweeper (sweepInstruction code g.before.codeSection st).events).Inside ↔
      (ins.endsTrace = true →
        g.before.codeSection.Holds st.traceStart (st.instPre + ins.length - st.traceStart) ∨
        (g.sweeper st.events).hasTraceAt st.traceStart = true) := by
  have hpends : (g.sweeper (st.events ++ (ins.sweepTargets st.instPre).map .pend)).traces =
      (g.sweeper st.events).traces := by
    rw [g.sweeper_append, traces_applyPends]
  have hpended : (g.sweeper (st.events ++ (ins.sweepTargets st.instPre).map .pend)).Inside :=
    h.congr hpends (by rw [g.codeSection_sweeper, g.codeSection_sweeper])
  rw [sweepInstruction_of_some hins]
  split_ifs with hends
  · have hat : (g.sweeper (st.events ++ (ins.sweepTargets st.instPre).map .pend)).hasTraceAt
        st.traceStart = (g.sweeper st.events).hasTraceAt st.traceStart := by
      unfold hasTraceAt
      rw [hpends]
    rw [g.sweeper_append, List.foldl_cons, List.foldl_nil, inside_assemble_iff hpended,
      g.codeSection_sweeper, hat]
    exact ⟨fun hor _ => hor, fun himp => himp hends⟩
  · exact iff_of_true hpended fun himp => absurd himp hends

theorem inside_sweepInstruction_of_none {g : GapLoop} {st : SweepState}
    (h : (g.sweeper st.events).Inside)
    (hins : instructionAt code g.before.codeSection st.instPre = none) :
    (g.sweeper (sweepInstruction code g.before.codeSection st).events).Inside := by
  rw [sweepInstruction_of_none hins]
  exact h

/-- The events of `TrimGap` come from the loop over trampolines alone. -/
theorem afterTrampolines_events {sec : CodeSection} {st st' : TrimState}
    {c : U32 × Bool × List SweepEvent} (h : afterTrampolines code sec st c = .next st' ∨
      afterTrampolines code sec st c = .exit st') : st'.events = st.events ++ c.2.2 := by
  have hpadding : ∀ st : TrimState, (trimPadding code sec st).2.events = st.events := by
    intro st
    unfold trimPadding
    dsimp only
    split_ifs <;> rfl
  unfold afterTrampolines at h
  dsimp only at h
  generalize htrimmed : (if c.2.1 = true then
    (true, ({ st with start := c.1, events := st.events ++ c.2.2 } : TrimState))
    else trimPadding code sec { st with start := c.1, events := st.events ++ c.2.2 }) =
      trimmed at h
  have hevents : trimmed.2.events = st.events ++ c.2.2 := by
    rw [← htrimmed]
    split_ifs
    · rfl
    · exact hpadding _
  by_cases hagain : trimmed.1 = true ∧ trimmed.2.start < trimmed.2.stop
  · rw [if_pos hagain] at h
    rcases h with h | h
    · rw [← LoopStep.next.inj h]
      exact hevents
    · exact absurd h (by simp)
  · rw [if_neg hagain] at h
    rcases h with h | h
    · exact absurd h (by simp)
    · rw [← LoopStep.exit.inj h]
      exact hevents

theorem sweeper_afterTrim (g : GapLoop) (st : TrimState) :
    (Point.afterTrim g st).sweeper = g.sweeper st.events := by
  unfold Point.afterTrim
  dsimp only
  split_ifs
  · exact g.sweeper_moved g.gaps st.events
  · exact g.sweeper_moved _ st.events
  · exact g.sweeper_moved _ st.events

theorem sound_afterTrim (g : GapLoop) (st : TrimState) : (Point.afterTrim g st).Sound := by
  unfold Point.afterTrim
  dsimp only
  split_ifs
  · trivial
  · trivial
  · exact SweepState.follows_at _ _

/-- A step does not change the section. -/
theorem Step.codeSection {p p' : Point} (h : Step code p p') :
    p'.sweeper.codeSection = p.sweeper.codeSection := by
  cases h with
  | process | spotGaps | split _ | done _ => rfl
  | postProcess hpost =>
      obtain ⟨r, -, rfl⟩ := Option.map_eq_some_iff.mp hpost
      rfl
  | @appendTarget s target =>
      show (s.appendTarget target).codeSection = s.codeSection
      unfold CodeSectionSweeper.appendTarget
      split_ifs <;> rfl
  | markGreyArea => rfl
  | pop hbody => exact (popStep_spec (popStep_of_worklistBody_next hbody)).1.codeSection
  | popped hbody =>
      rw [(eq_of_worklistBody_exit hbody).1]
      rfl
  | gap _ | processGaps _ | trim | trampoline _ | trimAgain _ _ | padding _ | instruction
  | swept _ => simp only [Point.sweeper, GapLoop.codeSection_sweeper]
  | @trimmed g st st' c c' _ _ =>
      rw [sweeper_afterTrim]
      simp only [Point.sweeper, GapLoop.codeSection_sweeper]

/-- A step from a safe point keeps what holds of the variables. -/
theorem Step.sound {p p' : Point} (h : Step code p p') (hsound : p.Sound) (hin : p.sweeper.Inside)
    (hsafe : p.Safe code) : p'.Sound := by
  cases h with
  | process | spotGaps | postProcess _ | appendTarget | markGreyArea | pop _ | done _ | gap _
  | processGaps _ | trim | trampoline _ | trimAgain _ _ | swept _ => trivial
  | popped hbody =>
      obtain ⟨rfl, -⟩ := eq_of_worklistBody_exit hbody
      exact hin
  | split _ => exact hsound
  | trimmed _ _ => exact sound_afterTrim _ _
  | padding _ => exact follows_sweepPadding _ hsound
  | instruction => exact follows_sweepInstruction hsound fun ins hins => (hsafe ins hins).2

/-- **Step.** From a safe point a step leads to traces inside the section. -/
theorem Step.inside {p p' : Point} (h : Step code p p') (hsound : p.Sound) (hin : p.sweeper.Inside)
    (hsafe : p.Safe code) : p'.sweeper.Inside := by
  cases h with
  | process | markGreyArea => exact hin
  | spotGaps => exact hin
  | @trim g st =>
      show (g.sweeper (st.events ++ [])).Inside
      rw [List.append_nil]
      exact hin
  | @postProcess s n r hpost =>
      obtain ⟨st, hloop, rfl⟩ := Option.map_eq_some_iff.mp hpost
      exact fun t ht => hin t ((mem_postProcessLoop hloop).mp ht).1
  | @appendTarget s target =>
      show (s.appendTarget target).Inside
      unfold CodeSectionSweeper.appendTarget
      split_ifs
      · exact hin
      · exact hin
  | pop hbody =>
      refine (inside_pop_iff hin hbody).mpr fun target rest helems hfresh run hrun => ?_
      obtain ⟨hdecodes, hends⟩ := hsafe target rest helems hfresh run hrun
      exact holds_of_run hfresh.1 hrun hdecodes hends
  | popped hbody =>
      obtain ⟨rfl, -⟩ := eq_of_worklistBody_exit hbody
      exact inside_splitUpTo hin 0
  | split _ => exact inside_splitUpTo hsound _
  | done _ => exact hin
  | gap _ => exact hin
  | processGaps _ => exact hin
  | @trampoline g st c c' hbody =>
      obtain ⟨hsingle, hcode, target, hevents⟩ := trampolines_next hbody
      show (g.sweeper (st.events ++ c'.2.2)).Inside
      rw [hevents, ← List.append_assoc]
      exact (inside_trampoline_iff hin hcode).mpr (hsafe hsingle)
  | @trimAgain g st st' c c' hbody hagain =>
      obtain ⟨-, rfl⟩ := eq_of_trampolines_exit hbody
      show (g.sweeper st'.events).Inside
      rw [afterTrampolines_events (Or.inl hagain)]
      exact hin
  | @trimmed g st st' c c' hbody hdone =>
      obtain ⟨-, rfl⟩ := eq_of_trampolines_exit hbody
      rw [sweeper_afterTrim, afterTrampolines_events (Or.inr hdone)]
      exact hin
  | @padding g gapEnd st hlt =>
      show (g.sweeper (sweepPadding code g.before.codeSection gapEnd st).events).Inside
      cases hpad : (isRangeAlignPaddingStart code g.before.codeSection st.instPre gapEnd).1 with
      | true => exact (inside_padding_iff hin hsound hpad).mpr (hsafe hlt hpad)
      | false =>
          rcases sweepPadding_cases code g.before.codeSection gapEnd st with ⟨-, heq⟩ | ⟨hyes, -⟩
          · rw [heq]
            exact hin
          · exact absurd (hpad.symm.trans hyes) (by simp)
  | @instruction g gapEnd st =>
      show (g.sweeper (sweepInstruction code g.before.codeSection st).events).Inside
      cases hins : instructionAt code g.before.codeSection st.instPre with
      | none => exact inside_sweepInstruction_of_none hin hins
      | some ins =>
          refine (inside_instruction_iff hin hins).mpr fun hends => ?_
          obtain ⟨hstart, hle⟩ := hsound.start (isAddrCode_of_instructionAt hins).1
          rcases (hsafe ins hins).1 hends with hinside | hat
          · exact Or.inl (holds_of_endsInside hstart hle hinside)
          · exact Or.inr hat
  | @swept g gapEnd st _ =>
      show (GapLoop.sweeper { g with gaps := g.gaps, events := g.events ++ st.events } []).Inside
      rw [g.sweeper_moved]
      exact hin

/-- Conversely, a step that leads to traces inside the section leaves a safe point, when no
instruction leads back into the section. -/
theorem Step.safe {p p' : Point} (h : Step code p p')
    (hreentry : p.sweeper.codeSection.NoReentry code) (hsound : p.Sound) (hin : p.sweeper.Inside)
    (hin' : p'.sweeper.Inside) : p.Safe code := by
  cases h with
  | process | spotGaps | postProcess _ | appendTarget | markGreyArea | split _ | done _ | gap _
  | processGaps _ | trim => trivial
  | pop hbody =>
      intro target rest helems hfresh run hrun
      have hholds := (inside_pop_iff hin hbody).mp hin' target rest helems hfresh run hrun
      exact run_endsInside_of_holds hreentry hrun hholds
  | popped hbody =>
      intro target rest helems
      rw [(eq_of_worklistBody_exit hbody).2] at helems
      exact absurd helems (List.cons_ne_nil target rest).symm
  | @trampoline g st c c' hbody =>
      obtain ⟨-, hcode, target, hevents⟩ := trampolines_next hbody
      have hin₂ : (g.sweeper (st.events ++ c'.2.2)).Inside := hin'
      rw [hevents, ← List.append_assoc] at hin₂
      exact fun _ => (inside_trampoline_iff hin hcode).mp hin₂
  | trimAgain hbody _ | trimmed hbody _ =>
      intro hsingle
      rw [(eq_of_trampolines_exit hbody).1] at hsingle
      exact absurd hsingle (by simp)
  | padding _ => exact fun _ hpad => (inside_padding_iff hin hsound hpad).mp hin'
  | @instruction g gapEnd st =>
      rw [Point.sweeper, g.codeSection_sweeper] at hreentry
      intro ins hins
      obtain ⟨hstart, hle⟩ := hsound.start (isAddrCode_of_instructionAt hins).1
      refine ⟨fun hends => ?_, hreentry st.instPre ins hins⟩
      rcases (inside_instruction_iff hin hins).mp hin' hends with hholds | hat
      · have hlo := (CodeSection.isAddrCode_bounds hstart).1
        exact Or.inl (endsInside_of_holds hreentry hins hlo hle _ (by bv_omega) hholds)
      · exact Or.inr hat
  | swept hlt => exact fun hlt' => absurd hlt' hlt

/-! ## Paths -/

/-- **Path**, as long as every point that is left is safe. -/
theorem inside_of_safeAll {p : Point} {path : List Point}
    (hpath : List.IsChain (Step code) (p :: path)) (hsound : p.Sound) (hin : p.sweeper.Inside)
    (hsafe : SafeAll code p path) : ∀ q ∈ path, q.sweeper.Inside := by
  induction path generalizing p with
  | nil => exact fun q hq => absurd hq List.not_mem_nil
  | cons p' path ih =>
      obtain ⟨hstep, hrest⟩ := List.isChain_cons_cons.mp hpath
      have hin' := hstep.inside hsound hin hsafe.1
      have hsound' := hstep.sound hsound hin hsafe.1
      exact List.forall_mem_cons.mpr ⟨hin', ih hrest hsound' hin' hsafe.2⟩

/-- **Path**, conversely. -/
theorem safeAll_of_inside {p : Point} {path : List Point}
    (hpath : List.IsChain (Step code) (p :: path))
    (hreentry : p.sweeper.codeSection.NoReentry code) (hsound : p.Sound) (hin : p.sweeper.Inside)
    (hall : ∀ q ∈ path, q.sweeper.Inside) : SafeAll code p path := by
  induction path generalizing p with
  | nil => trivial
  | cons p' path ih =>
      obtain ⟨hstep, hrest⟩ := List.isChain_cons_cons.mp hpath
      obtain ⟨hin', hall'⟩ := List.forall_mem_cons.mp hall
      have hsafe := hstep.safe hreentry hsound hin hin'
      have hsound' := hstep.sound hsound hin hsafe
      exact ⟨hsafe, ih hrest (hstep.codeSection ▸ hreentry) hsound' hin' hall'⟩

/-- **When every trace is a nonempty range inside the section.**  For every code and every section,
along every path from a sweeper without traces, whatever its targets: as long as the points that are
left are safe, the traces are inside at every point; and where no instruction leads back into the
section, they are inside at every point only then. -/
theorem points_inside (code : Code) (s : CodeSectionSweeper) (path : List Point)
    (hempty : s.traces = ∅) (hpath : List.IsChain (Step code) (.idle s :: path)) :
    (SafeAll code (.idle s) path → ∀ p ∈ path, p.sweeper.Inside) ∧
    (s.codeSection.NoReentry code → (∀ p ∈ path, p.sweeper.Inside) →
      SafeAll code (.idle s) path) := by
  have hin : (Point.idle s).sweeper.Inside := by
    intro t ht
    have ht' : t ∈ s.traces := ht
    rw [hempty] at ht'
    exact absurd ht' (KeyedSet.not_mem_empty t)
  constructor
  · intro hsafe
    exact inside_of_safeAll hpath trivial hin hsafe
  · intro hreentry hall
    exact safeAll_of_inside hpath hreentry trivial hin hall

section Samples

/-- Where everything is `ret`, every point is safe. -/
theorem safe_retCode (p : Point) : p.Safe retCode := by
  have hins : ∀ {sec : CodeSection} {a : U32} {ins : Instruction},
      instructionAt retCode sec a = some ins → ins = retInstruction ∧ ins.EndsInside sec a := by
    intro sec a ins h
    obtain ⟨hcode, hret⟩ := isAddrCode_of_instructionAt h
    obtain rfl : retInstruction = ins := Option.some.inj hret
    exact ⟨rfl, (CodeSection.isAddrCode_bounds hcode).2⟩
  cases p with
  | worklist s =>
      intro target rest _ hfresh run hrun
      have hsome : instructionAt retCode s.codeSection target = some retInstruction :=
        if_pos hfresh.1
      refine ⟨by rw [hsome]; simp, fun p hp => ?_⟩
      cases hrun with
      | stop hnone => exact absurd hp List.not_mem_nil
      | last hlast _ =>
          rw [List.mem_singleton.mp hp]
          exact (hins hlast).2
      | cons hnext hgoes _ =>
          rw [(hins hnext).1] at hgoes
          exact absurd hgoes (by decide)
  | trampolines g st c =>
      intro hsingle
      unfold isRangeSingleTrampoline at hsingle
      split_ifs at hsingle with hcond
      · exact absurd (show (0xC3 : U8) = 0xE9 from hcond.2.2.2) (by decide)
      · exact absurd hsingle (by simp)
  | sweep g gapEnd st =>
      intro _ hpad
      exact absurd (show (0xC3 : U8) = 0xCC from (padding_begins hpad).2) (by decide)
  | instruction g gapEnd st =>
      intro ins hsome
      refine ⟨fun _ => Or.inl (hins hsome).2, fun _ => ?_⟩
      exact lt_of_le_of_lt (hins hsome).2 g.before.codeSection.top_lt
  | idle _ | split _ _ | gaps _ | trim _ _ => trivial

theorem safeAll_retCode (p : Point) (path : List Point) : SafeAll retCode p path := by
  induction path generalizing p with
  | nil => trivial
  | cons p' path ih => exact ⟨safe_retCode p, ih p'⟩

theorem points_inside_sample : ∃ p₁ p₂ path,
    sampleSweeper.process 9 retCode = some p₁ ∧ p₁.spotGaps 9 retCode = some p₂ ∧
      List.IsChain (Step retCode) (.idle sampleSweeper :: path) ∧
      (Point.idle sampleSweeper :: path).getLast (List.cons_ne_nil _ _) = .idle p₂ ∧
      ∀ p ∈ path, p.sweeper.Inside := by
  have hruns : ((sampleSweeper.process 9 retCode).bind (spotGaps 9 retCode)).isSome = true := by
    decide
  obtain ⟨p₂, hp₂⟩ := Option.isSome_iff_exists.mp hruns
  obtain ⟨p₁, h₁, h₂⟩ := Option.bind_eq_some_iff.mp hp₂
  have hsteps : Steps retCode (.idle sampleSweeper) (.idle p₂) :=
    .head .process ((steps_of_process h₁).trans (steps_of_spotGaps h₂))
  obtain ⟨path, hpath, hlast⟩ := List.exists_isChain_cons_of_relationReflTransGen hsteps
  exact ⟨p₁, p₂, path, h₁, h₂, hpath, hlast,
    (points_inside retCode sampleSweeper path rfl hpath).1 (safeAll_retCode _ path)⟩

/-- `FF FF FF FF`, which does not decode. -/
def undecodableCode : Code := ⟨fun _ => 0xFF, fun _ => none⟩

/-- A `push` of one byte. -/
def pushInstruction : Instruction where
  length := 2
  type := .other
  op1 := ⟨.immediate, libdasmRegisterNop, libdasmRegisterNop, 0, 1, 0, 0⟩
  op2 := noOperand

/-- `C3 C3 C3 6A`: the operand of the `push` is behind the section. -/
def crossingCode : Code where
  mem := fun a => if a = 0x1003 then 0x6A else if a < 0x1003 then 0xC3 else 0
  getInstruction := fun a => some (if a = 0x1003 then pushInstruction else retInstruction)

/-- `int3`, of one byte like `ret`. -/
def int3Instruction : Instruction := { retInstruction with type := .other }

/-- `C3 CC CC C3`: padding between two `ret`. -/
def paddedCode : Code where
  mem := fun a => if a = 0x1001 ∨ a = 0x1002 then int3 else 0xC3
  getInstruction := fun a =>
    some (if a = 0x1001 ∨ a = 0x1002 then int3Instruction else retInstruction)

/-- A fresh sweeper of the four bytes with one target. -/
def oneTarget (target : U32) : CodeSectionSweeper := (init sampleSection).appendTarget target

/-- A trace that is not inside. -/
theorem not_inside_of_mem {s : CodeSectionSweeper} {l : List (U32 × U32)} {sec : CodeSection}
    (h : (s.codeSection, s.traces.elems.map fun t => (t.start, t.size)) = (sec, l))
    (hbad : ∃ r ∈ l, ¬ sec.Holds r.1 r.2) : ¬ s.Inside := by
  obtain ⟨hsec, hl⟩ := Prod.mk.inj h
  obtain ⟨r, hr, hnot⟩ := hbad
  rw [← hl] at hr
  obtain ⟨t, ht, rfl⟩ := List.mem_map.mp hr
  intro hin
  rw [← hsec] at hnot
  exact hnot (hin t ht)

/-- Three traces that are not inside: an empty one at a target that does not decode, one over the
end of the section, and an empty one where padding follows a `ret`. -/
theorem traces_outside :
    (∃ p, Steps undecodableCode (.idle (oneTarget 0x1000)) p ∧ ¬ p.sweeper.Inside) ∧
      (∃ p, Steps crossingCode (.idle (oneTarget 0x1003)) p ∧ ¬ p.sweeper.Inside) ∧
      ∃ p, Steps paddedCode (.idle (oneTarget 0x1000)) p ∧ ¬ p.sweeper.Inside := by
  refine ⟨?_, ?_, ?_⟩
  · have hruns : ((oneTarget 0x1000).process 9 undecodableCode).map
        (fun p => (p.codeSection, p.traces.elems.map fun t => (t.start, t.size))) =
          some (sampleSection, [(0x1000, 0)]) := by
      decide
    obtain ⟨p, hp, htraces⟩ := Option.map_eq_some_iff.mp hruns
    exact ⟨.idle p, .head .process (steps_of_process hp), not_inside_of_mem htraces (by decide)⟩
  · have hruns : ((oneTarget 0x1003).process 9 crossingCode).map
        (fun p => (p.codeSection, p.traces.elems.map fun t => (t.start, t.size))) =
          some (sampleSection, [(0x1003, 2)]) := by
      decide
    obtain ⟨p, hp, htraces⟩ := Option.map_eq_some_iff.mp hruns
    exact ⟨.idle p, .head .process (steps_of_process hp), not_inside_of_mem htraces (by decide)⟩
  · have hruns : (((oneTarget 0x1000).process 9 paddedCode).bind (spotGaps 9 paddedCode)).map
        (fun p => (p.codeSection, p.traces.elems.map fun t => (t.start, t.size))) =
          some (sampleSection, [(0x1000, 1), (0x1001, 0), (0x1003, 1)]) := by
      decide
    obtain ⟨p₂, hp₂, htraces⟩ := Option.map_eq_some_iff.mp hruns
    obtain ⟨p₁, h₁, h₂⟩ := Option.bind_eq_some_iff.mp hp₂
    have hsteps : Steps paddedCode (.idle (oneTarget 0x1000)) (.idle p₂) :=
      .head .process ((steps_of_process h₁).trans (steps_of_spotGaps h₂))
    exact ⟨.idle p₂, hsteps, not_inside_of_mem htraces (by decide)⟩

end Samples

end CodeSectionSweeper

end PEReplay
