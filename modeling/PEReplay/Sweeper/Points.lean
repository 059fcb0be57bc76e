/-
# PEReplay.Sweeper.Points — the points of a run.

What the sweeper does is a sequence of small steps, each one pass of a loop or one round of the
split pass.  A `Point` says at the head of which loop the code stands, with its variables;
`Point.sweeper` is the sweeper as it is there.  `Step` says how the code goes on, in the words of
the loop bodies, and `steps_of_runOp` that every operation is a sequence of such steps, so a run of
the program visits the points of a path.
-/
import PEReplay.Sweeper.Indexes

namespace PEReplay

open Loop

namespace CodeSectionSweeper

/-! ## Points -/

theorem map_start_splitUpTo (l : List StaticTrace) (k : Nat) :
    ((splitLoop l).take k ++ l.drop k).map (fun t => t.start.toNat) =
      l.map fun t => t.start.toNat := by
  rw [List.map_append, List.map_take, List.map_drop, map_start_splitLoop, List.take_append_drop]

/-- The sweeper after `k` rounds of the split pass: the first `k` traces have been compared with
their successors. -/
def splitUpTo (s : CodeSectionSweeper) (k : Nat) : CodeSectionSweeper :=
  { s with
    traces := s.traces.withElems ((splitLoop s.traces.elems).take k ++ s.traces.elems.drop k)
      (map_start_splitUpTo s.traces.elems k) }

/-- The variables of the loop over `vec_gaps`: the sweeper when `spotGaps` was called, the gaps
still to come and what has been added. -/
structure GapLoop where
  before : CodeSectionSweeper
  gaps : List AddrRange
  events : List SweepEvent

/-- The sweeper in the loop over `vec_gaps`, with `events` added by the functions it has called. -/
def GapLoop.sweeper (g : GapLoop) (events : List SweepEvent) : CodeSectionSweeper :=
  (g.events ++ events).foldl applyEvent g.before

/-- Where the code stands: between two operations, at the head of a loop of `process`, or at the
head of a loop of `spotGaps` or of a function that it calls. -/
inductive Point where
  | idle (s : CodeSectionSweeper)
  | worklist (s : CodeSectionSweeper)
  | split (s : CodeSectionSweeper) (k : Nat)
  | gaps (g : GapLoop)
  | trim (g : GapLoop) (st : TrimState)
  | trampolines (g : GapLoop) (st : TrimState) (c : U32 × Bool × List SweepEvent)
  | sweep (g : GapLoop) (gapEnd : U32) (st : SweepState)
  /-- behind the part of the loop body that skips padding -/
  | instruction (g : GapLoop) (gapEnd : U32) (st : SweepState)

/-- The sweeper at a point. -/
def Point.sweeper : Point → CodeSectionSweeper
  | .idle s | .worklist s => s
  | .split s k => s.splitUpTo k
  | .gaps g => g.sweeper []
  | .trim g st => g.sweeper st.events
  | .trampolines g st c => g.sweeper (st.events ++ c.2.2)
  | .sweep g _ st | .instruction g _ st => g.sweeper st.events

/-! ## Steps -/

/-- What a pass of the loop of `TrimGap` does behind the loop over trampolines, which left with
`c`. -/
def afterTrampolines (code : Code) (sec : CodeSection) (st : TrimState)
    (c : U32 × Bool × List SweepEvent) : LoopStep TrimState TrimState :=
  let st := { st with start := c.1, events := st.events ++ c.2.2 }
  let trimmed := if c.2.1 then (true, st) else trimPadding code sec st
  if trimmed.1 ∧ trimmed.2.start < trimmed.2.stop then .next trimmed.2 else .exit trimmed.2

/-- What is done for a gap that `TrimGap` has left with `st`. -/
def Point.afterTrim (g : GapLoop) (st : TrimState) : Point :=
  if st.start == st.stop then .gaps { g with events := g.events ++ st.events }
  else
    let grey := isRangeIntersectedWithGreyArea g.before.greyAreas st.start st.stop
    let g := { g with gaps := g.gaps ++ grey.pushed, events := g.events ++ st.events }
    if grey.bResult then .gaps g
    else .sweep g grey.stop ⟨grey.start, grey.start, grey.start, []⟩

variable {code : Code}

/-- How the code goes on. -/
inductive Step (code : Code) : Point → Point → Prop
  -- the operations, and the two functions that only add to the setup
  | process {s : CodeSectionSweeper} : Step code (.idle s) (.worklist s)
  | spotGaps {s : CodeSectionSweeper} :
      Step code (.idle s) (.gaps ⟨s, vecGaps s.codeSection s.traces.elems, []⟩)
  | postProcess {s : CodeSectionSweeper} {n : Nat} {r : CodeSectionSweeper × Bool} :
      s.postProcess n code = some r → Step code (.idle s) (.idle r.1)
  | appendTarget {s : CodeSectionSweeper} {target : U32} :
      Step code (.idle s) (.idle (s.appendTarget target))
  | markGreyArea {s : CodeSectionSweeper} {start size : U32} :
      Step code (.idle s) (.idle (s.markGreyArea start size))
  -- `process`
  | pop {s s' : CodeSectionSweeper} {n : Nat} :
      worklistBody n code s = some (.next s') → Step code (.worklist s) (.worklist s')
  | popped {s s' : CodeSectionSweeper} {n : Nat} :
      worklistBody n code s = some (.exit s') → Step code (.worklist s) (.split s' 0)
  | split {s : CodeSectionSweeper} {k : Nat} :
      k + 1 < s.traces.elems.length → Step code (.split s k) (.split s (k + 1))
  | done {s : CodeSectionSweeper} {k : Nat} :
      ¬ k + 1 < s.traces.elems.length → Step code (.split s k) (.idle (s.splitUpTo k))
  -- the loop over `vec_gaps`, and the call of `process` behind it
  | gap {g : GapLoop} {gap : AddrRange} {rest : List AddrRange} : g.gaps = gap :: rest →
      Step code (.gaps g) (.trim { g with gaps := rest } ⟨gap.1, gap.2, []⟩)
  | processGaps {g : GapLoop} : g.gaps = [] → Step code (.gaps g) (.worklist (g.sweeper []))
  -- `TrimGap`
  | trim {g : GapLoop} {st : TrimState} :
      Step code (.trim g st) (.trampolines g st (st.start, false, []))
  | trampoline {g : GapLoop} {st : TrimState} {c c' : U32 × Bool × List SweepEvent} :
      comboTrampolineBody code g.before.codeSection st.stop c = .next c' →
      Step code (.trampolines g st c) (.trampolines g st c')
  | trimAgain {g : GapLoop} {st st' : TrimState} {c c' : U32 × Bool × List SweepEvent} :
      comboTrampolineBody code g.before.codeSection st.stop c = .exit c' →
      afterTrampolines code g.before.codeSection st c' = .next st' →
      Step code (.trampolines g st c) (.trim g st')
  | trimmed {g : GapLoop} {st st' : TrimState} {c c' : U32 × Bool × List SweepEvent} :
      comboTrampolineBody code g.before.codeSection st.stop c = .exit c' →
      afterTrampolines code g.before.codeSection st c' = .exit st' →
      Step code (.trampolines g st c) (.afterTrim g st')
  -- `linearSweepGap`
  | padding {g : GapLoop} {gapEnd : U32} {st : SweepState} : st.instPre < gapEnd →
      Step code (.sweep g gapEnd st)
        (.instruction g gapEnd (sweepPadding code g.before.codeSection gapEnd st))
  | instruction {g : GapLoop} {gapEnd : U32} {st : SweepState} :
      Step code (.instruction g gapEnd st)
        (.sweep g gapEnd (sweepInstruction code g.before.codeSection st))
  | swept {g : GapLoop} {gapEnd : U32} {st : SweepState} : ¬ st.instPre < gapEnd →
      Step code (.sweep g gapEnd st) (.gaps { g with events := g.events ++ st.events })

/-- A sequence of steps. -/
abbrev Steps (code : Code) : Point → Point → Prop := Relation.ReflTransGen (Step code)

/-! ## Operations are sequences of steps -/

theorem steps_of_worklist {n : Nat} {s w : CodeSectionSweeper} (h : s.worklist n code = some w) :
    Steps code (.worklist s) (.split w 0) := by
  obtain ⟨s', hsteps, hexit⟩ := whileLoop_path (R := Step code) Point.worklist
    (fun s₁ s₂ hbody => .single (.pop hbody)) h
  exact hsteps.tail (.popped hexit)

/-- After the last round the pass has been made. -/
theorem splitUpTo_eq_splitPass {s : CodeSectionSweeper} {k : Nat}
    (h : s.traces.elems.length ≤ k + 1) : s.splitUpTo k = s.splitPass := by
  have hlist : ∀ (l : List StaticTrace) (k : Nat), l.length ≤ k + 1 →
      (splitLoop l).take k ++ l.drop k = splitLoop l := by
    intro l
    induction l with
    | nil => intro k _; rw [List.drop_nil, List.append_nil]; exact List.take_nil
    | cons t l ih =>
        intro k hk
        rw [splitLoop_cons]
        cases k with
        | zero =>
            -- the only trace has no successor
            obtain rfl : l = [] := List.length_eq_zero_iff.mp (by simpa using hk)
            rfl
        | succ k =>
            have hrest := ih k (by simpa using hk)
            rw [List.take_succ_cons, List.drop_succ_cons, List.cons_append, hrest]
  unfold splitUpTo splitPass KeyedSet.withElems
  simp only [hlist s.traces.elems k h]

theorem steps_of_split (s : CodeSectionSweeper) :
    Steps code (.split s 0) (.idle s.splitPass) := by
  have hrounds : ∀ k, k ≤ s.traces.elems.length - 1 → Steps code (.split s 0) (.split s k) := by
    intro k
    induction k with
    | zero => exact fun _ => .refl
    | succ k ih => exact fun hk => (ih (by omega)).tail (.split (by omega))
  have hdone : Step code (.split s (s.traces.elems.length - 1))
      (.idle (s.splitUpTo (s.traces.elems.length - 1))) := .done (by omega)
  rw [splitUpTo_eq_splitPass (by omega)] at hdone
  exact (hrounds _ le_rfl).tail hdone

theorem steps_of_process {n : Nat} {s s' : CodeSectionSweeper} (h : s.process n code = some s') :
    Steps code (.worklist s) (.idle s') := by
  obtain ⟨w, hw, rfl⟩ := Option.map_eq_some_iff.mp h
  exact (steps_of_worklist hw).trans (steps_of_split w)

theorem trimBody_eq (n : Nat) (sec : CodeSection) (st : TrimState) :
    trimBody n code sec st =
      (isRangeComboTrampoline n code sec st.start st.stop).map (afterTrampolines code sec st) := by
  unfold trimBody afterTrampolines
  cases isRangeComboTrampoline n code sec st.start st.stop with
  | none => rfl
  | some c =>
      dsimp only [Option.map_some]
      split_ifs <;> rfl

/-- The loop over trampolines of one pass of `TrimGap`. -/
theorem steps_of_trampolines {n : Nat} {g : GapLoop} {st : TrimState}
    {c : U32 × Bool × List SweepEvent}
    (h : isRangeComboTrampoline n code g.before.codeSection st.start st.stop = some c) :
    ∃ c', Steps code (.trim g st) (.trampolines g st c') ∧
      comboTrampolineBody code g.before.codeSection st.stop c' = .exit c := by
  obtain ⟨c', hsteps, hexit⟩ := whileLoop_path (R := Step code) (Point.trampolines g st)
    (fun c₁ c₂ hbody => .single (.trampoline (Option.some.inj hbody))) h
  exact ⟨c', .head .trim hsteps, Option.some.inj hexit⟩

theorem steps_of_trimGap {n : Nat} {g : GapLoop} {start stop : U32} {r : Bool × TrimState}
    (h : trimGap n code g.before.codeSection start stop = some r) :
    r.1 = (r.2.start == r.2.stop) ∧ Steps code (.trim g ⟨start, stop, []⟩) (.afterTrim g r.2) := by
  obtain ⟨st, hloop, rfl⟩ := Option.map_eq_some_iff.mp h
  refine ⟨rfl, ?_⟩
  have hpass : ∀ st₁ st₂, trimBody n code g.before.codeSection st₁ = some (.next st₂) →
      Steps code (.trim g st₁) (.trim g st₂) := by
    intro st₁ st₂ hbody
    rw [trimBody_eq] at hbody
    obtain ⟨c, hcombo, hnext⟩ := Option.map_eq_some_iff.mp hbody
    obtain ⟨c', hsteps, hexit⟩ := steps_of_trampolines (g := g) hcombo
    exact hsteps.tail (.trimAgain hexit hnext)
  obtain ⟨st', hsteps, hexit⟩ := whileLoop_path (R := Step code) (Point.trim g) hpass hloop
  rw [trimBody_eq] at hexit
  obtain ⟨c, hcombo, hdone⟩ := Option.map_eq_some_iff.mp hexit
  obtain ⟨c', hsteps', hexit'⟩ := steps_of_trampolines (g := g) hcombo
  exact (hsteps.trans hsteps').tail (.trimmed hexit' hdone)

theorem steps_of_linearSweepGap {n : Nat} {g : GapLoop} {gapStart gapEnd : U32}
    {events : List SweepEvent}
    (h : linearSweepGap n code g.before.codeSection gapStart gapEnd = some events) :
    Steps code (.sweep g gapEnd ⟨gapStart, gapStart, gapStart, []⟩)
      (.gaps { g with events := g.events ++ events }) := by
  obtain ⟨st, hloop, rfl⟩ := Option.map_eq_some_iff.mp h
  have hpass : ∀ st₁ st₂, some (sweepBody code g.before.codeSection gapEnd st₁) =
      some (LoopStep.next st₂) → Steps code (.sweep g gapEnd st₁) (.sweep g gapEnd st₂) := by
    intro st₁ st₂ hbody
    have hbody' := Option.some.inj hbody
    unfold sweepBody at hbody'
    split_ifs at hbody' with hlt
    rw [← LoopStep.next.inj hbody']
    exact .head (.padding hlt) (.single .instruction)
  obtain ⟨st', hsteps, hexit⟩ := whileLoop_path (R := Step code) (Point.sweep g gapEnd) hpass hloop
  have hexit' := Option.some.inj hexit
  unfold sweepBody at hexit'
  split_ifs at hexit' with hlt
  rw [← LoopStep.exit.inj hexit']
  exact hsteps.tail (.swept hlt)

theorem steps_of_sweepGap {n : Nat} {g : GapLoop} {gap : AddrRange} {rest : List AddrRange}
    (hgaps : g.gaps = gap :: rest) {r : GapPass}
    (h : sweepGap n code g.before.codeSection g.before.greyAreas gap = some r) :
    Steps code (.gaps g)
      (.gaps { g with gaps := rest ++ r.pushed, events := g.events ++ r.events }) := by
  have hgap : Step code (.gaps g) (.trim { g with gaps := rest } ⟨gap.1, gap.2, []⟩) := .gap hgaps
  unfold sweepGap at h
  cases htrim : trimGap n code g.before.codeSection gap.1 gap.2 with
  | none =>
      rw [htrim] at h
      exact absurd h (by simp)
  | some trimmed =>
      obtain ⟨gone, st⟩ := trimmed
      obtain ⟨hgone, hsteps⟩ := steps_of_trimGap (g := { g with gaps := rest }) htrim
      dsimp only at hgone hsteps
      rw [htrim, hgone] at h
      unfold Point.afterTrim at hsteps
      cases hbeq : (st.start == st.stop) with
      | true =>
          rw [hbeq] at h hsteps
          rw [← Option.some.inj h, List.append_nil]
          exact .head hgap hsteps
      | false =>
          rw [hbeq] at h hsteps
          dsimp only at h hsteps
          rw [if_neg (by simp)] at hsteps
          split_ifs at h hsteps with hgrey
          · rw [← Option.some.inj h]
            exact .head hgap hsteps
          · obtain ⟨events, hsweep, rfl⟩ := Option.map_eq_some_iff.mp h
            dsimp only
            rw [← List.append_assoc]
            exact .head hgap (hsteps.trans (steps_of_linearSweepGap hsweep))

theorem steps_of_spotGaps {n : Nat} {s s' : CodeSectionSweeper} (h : s.spotGaps n code = some s') :
    Steps code (.idle s) (.idle s') := by
  unfold spotGaps sweepGaps at h
  cases hevents : s.gapEvents n code with
  | none =>
      rw [hevents] at h
      exact absurd h (by simp)
  | some events =>
      rw [hevents] at h
      obtain ⟨⟨_, added, _, _⟩, hloop, rfl⟩ := Option.map_eq_some_iff.mp hevents
      have hpass : ∀ st st', gapsBody n code s.codeSection s.greyAreas st = some (.next st') →
          Steps code (.gaps ⟨s, st.gaps, st.events⟩) (.gaps ⟨s, st'.gaps, st'.events⟩) := by
        intro st st' hbody
        rcases gapsBody_cases hbody with ⟨-, heq⟩ | ⟨gap, rest, r, hgaps, hsweep, heq⟩
        · exact absurd heq (by simp)
        · rw [LoopStep.next.inj heq]
          exact steps_of_sweepGap (g := ⟨s, st.gaps, st.events⟩) hgaps hsweep
      obtain ⟨st, hsteps, hexit⟩ := whileLoop_path (R := Step code)
        (fun st : GapsState => .gaps ⟨s, st.gaps, st.events⟩) hpass hloop
      rcases gapsBody_cases hexit with ⟨hgaps, heq⟩ | ⟨_, _, _, _, _, heq⟩
      · obtain rfl := LoopStep.exit.inj heq
        obtain rfl : _ = [] := hgaps
        have hprocess : Step code (.gaps ⟨s, [], added⟩)
            (.worklist (added.foldl applyEvent s)) := by
          have hstep : Step code (.gaps ⟨s, [], added⟩) _ := .processGaps rfl
          rw [GapLoop.sweeper, List.append_nil] at hstep
          exact hstep
        exact .head .spotGaps ((hsteps.tail hprocess).trans (steps_of_process h))
      · exact absurd heq (by simp)

/-- **An operation is a sequence of steps.** -/
theorem steps_of_runOp {n : Nat} {s s' : CodeSectionSweeper} {op : Op}
    (h : s.runOp n code op = some s') : Steps code (.idle s) (.idle s') := by
  cases op with
  | process => exact .head .process (steps_of_process h)
  | spotGaps => exact steps_of_spotGaps h
  | postProcess =>
      obtain ⟨r, hr, rfl⟩ := Option.map_eq_some_iff.mp h
      exact .single (.postProcess hr)

end CodeSectionSweeper

end PEReplay
