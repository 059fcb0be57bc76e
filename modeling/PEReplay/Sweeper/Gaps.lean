/-
# PEReplay.Sweeper.Gaps — `spotGaps` and everything it calls.

`spotGaps` lists the gaps between the traces, trims trampolines and padding off each gap, subtracts
the grey areas, sweeps the rest linearly and runs `process` again.  Trimming and sweeping add to
`m_pending_targets`, `m_traces` and `m_map_traces` but never read them, so the functions below
return what they add, in order, as a list of events that `apply` performs.

`vec_gaps` grows while it is iterated over.  A `push_back` moves the vector once it outgrows what
has been reserved for it, and the iterator that the loop then advances points to freed memory.  How
much is reserved is up to the standard library, so the loop below goes on to the new elements and
counts them; `GapsState.dangles` says whether it has advanced such an iterator.
-/
import PEReplay.Sweeper.Sweeper
import PEReplay.Sweeper.StraightLine

namespace PEReplay

open Loop

/-- A pair of addresses, `[first, second)`. -/
abbrev AddrRange := U32 × U32

/-! ## The list of gaps -/

/-- `range_now` and `vec_ranges`. -/
structure RangeState where
  rangeNow : AddrRange
  vecRanges : List AddrRange

/-- The body of the loop over the traces. -/
def rangeStep (st : RangeState) (t : StaticTrace) : RangeState :=
  -- a completely new range
  if st.rangeNow.1 = 0 ∧ st.rangeNow.2 = 0 then { st with rangeNow := (t.start, t.getEnd) }
  -- merged with the former one
  else if t.start = st.rangeNow.2 then { st with rangeNow := (st.rangeNow.1, t.getEnd) }
  else ⟨(t.start, t.getEnd), st.vecRanges ++ [st.rangeNow]⟩

/-- `vec_ranges` after the loop. -/
def vecRanges (traces : List StaticTrace) : List AddrRange :=
  (traces.foldl rangeStep ⟨(0, 0), []⟩).vecRanges

/-- `gap_start` and `vec_gaps`. -/
structure GapState where
  gapStart : U32
  vecGaps : List AddrRange

/-- The body of the loop over the ranges. -/
def gapStep (st : GapState) (range : AddrRange) : GapState :=
  ⟨range.2, st.vecGaps ++ [(st.gapStart, range.1)]⟩

/-- `vec_gaps` when the loop over it begins. -/
def vecGaps (sec : CodeSection) (traces : List StaticTrace) : List AddrRange :=
  let st := (vecRanges traces).foldl gapStep ⟨sec.start, []⟩
  st.vecGaps ++ [(st.gapStart, sec.start + sec.size)]

/-! ## Events -/

/-- Why a trace is assembled. -/
inductive AssembleCause where
  | trampoline | padding | jmp | call | ret
  deriving Repr, DecidableEq

/-- What trimming and sweeping add: a pending target, or an assembled trace. -/
inductive SweepEvent where
  | pend (target : U32)
  | assemble (cause : AssembleCause) (start size : U32)
  deriving Repr, DecidableEq

namespace CodeSectionSweeper

/-- `m_pending_targets.insert`, or `AssembleTrace` with the two insertions that follow it. -/
def applyEvent (s : CodeSectionSweeper) : SweepEvent → CodeSectionSweeper
  | .pend target => { s with pendingTargets := s.pendingTargets.insert target }
  | .assemble _ start size =>
      s.addTrace (StaticTrace.assembleTrace s.nextId start size s.codeSection)

end CodeSectionSweeper

/-! ## Padding -/

/-- `int3` -/
def int3 : U8 := 0xCC

/-- `start_offset == -1 || end_offset == -1 || start_offset >= end_offset`, on `int32_t`. -/
def badRange (start stop : U32) : Prop :=
  start.toInt = -1 ∨ stop.toInt = -1 ∨ start.toInt ≥ stop.toInt

instance (start stop : U32) : Decidable (badRange start stop) :=
  inferInstanceAs (Decidable (_ ∨ _ ∨ _))

/-- The `for` loop of `IsRangeAlignPaddingStart`: the index, `start` and `bResult`. -/
def paddingStartLoop (code : Code) (sec : CodeSection) : Nat → U32 → U32 → Bool → Bool × U32
  | 0, _, start, bResult => (bResult, start)
  | k + 1, i, start, bResult =>
      if sec.isAddrCode i then
        if code.mem i = int3 then paddingStartLoop code sec k (i + 1) (start + 1) true
        else (bResult, start)
      else (bResult, start)

/-- `IsRangeAlignPaddingStart`: the result and `start` after it. -/
def isRangeAlignPaddingStart (code : Code) (sec : CodeSection) (start stop : U32) : Bool × U32 :=
  if badRange start stop then (false, start)
  else paddingStartLoop code sec (stop.toInt - start.toInt).toNat start start false

/-- The `for` loop of `IsRangeAlignPaddingEnd`, from `end_offset - 1` downwards. -/
def paddingEndLoop (code : Code) (sec : CodeSection) : Nat → U32 → U32 → Bool → Bool × U32
  | 0, _, stop, bResult => (bResult, stop)
  | k + 1, i, stop, bResult =>
      if sec.isAddrCode i then
        if code.mem i = int3 then paddingEndLoop code sec k (i - 1) (stop - 1) true
        else (bResult, stop)
      else (bResult, stop)

/-- `IsRangeAlignPaddingEnd`: the result and `end` after it. -/
def isRangeAlignPaddingEnd (code : Code) (sec : CodeSection) (start stop : U32) : Bool × U32 :=
  if badRange start stop then (false, stop)
  else paddingEndLoop code sec (stop.toInt - start.toInt).toNat (stop - 1) stop false

/-! ## Trampolines -/

/-- The four bytes behind the opcode, added up as the source does. -/
def trampolineAddr (code : Code) (start : U32) : U32 :=
  (code.mem (start + 1)).setWidth 32 + (code.mem (start + 2)).setWidth 32 <<< 8 +
    (code.mem (start + 3)).setWidth 32 <<< 16 + (code.mem (start + 4)).setWidth 32 <<< 24

/-- `IsRangeSingleTrampoline`: when it returns true, `start` after it and what it adds. -/
def isRangeSingleTrampoline (code : Code) (sec : CodeSection) (start stop : U32) :
    Option (U32 × List SweepEvent) :=
  if stop - start ≥ 5 ∧ start.toInt ≠ -1 ∧ sec.isAddrCode start = true ∧
      code.mem start = 0xE9 then
    some (start + 5, [.pend (trampolineAddr code start), .assemble .trampoline start 5])
  else none

/-- One pass of the loop of `IsRangeComboTrampoline`: `start`, `bResult` and the events. -/
def comboTrampolineBody (code : Code) (sec : CodeSection) (stop : U32)
    (st : U32 × Bool × List SweepEvent) :
    LoopStep (U32 × Bool × List SweepEvent) (U32 × Bool × List SweepEvent) :=
  match isRangeSingleTrampoline code sec st.1 stop with
  | some (start, events) => .next (start, true, st.2.2 ++ events)
  | none => .exit st

/-- `IsRangeComboTrampoline` -/
def isRangeComboTrampoline (n : Nat) (code : Code) (sec : CodeSection) (start stop : U32) :
    Option (U32 × Bool × List SweepEvent) :=
  whileLoop (fun st => some (comboTrampolineBody code sec stop st)) n (start, false, [])

/-! ## `TrimGap` -/

/-- The variables of `TrimGap`. -/
structure TrimState where
  start : U32
  stop : U32
  events : List SweepEvent

/-- `IsRangeAlignPaddingStart(start, end) || IsRangeAlignPaddingEnd(start, end)` -/
def trimPadding (code : Code) (sec : CodeSection) (st : TrimState) : Bool × TrimState :=
  let padStart := isRangeAlignPaddingStart code sec st.start st.stop
  let padEnd := isRangeAlignPaddingEnd code sec st.start st.stop
  if padStart.1 then (true, { st with start := padStart.2 })
  else (padEnd.1, { st with stop := padEnd.2 })

/-- The condition of the loop of `TrimGap`, which does all its work: the state after it, and whether
to go round again. -/
def trimBody (n : Nat) (code : Code) (sec : CodeSection) (st : TrimState) :
    Option (LoopStep TrimState TrimState) :=
  match isRangeComboTrampoline n code sec st.start st.stop with
  | none => none
  | some (start, combo, events) =>
    let st := { st with start := start, events := st.events ++ events }
    let trimmed := if combo then (true, st) else trimPadding code sec st
    if trimmed.1 ∧ trimmed.2.start < trimmed.2.stop then some (.next trimmed.2)
    else some (.exit trimmed.2)

/-- `TrimGap`; it returns true when the gap is trimmed to nothing. -/
def trimGap (n : Nat) (code : Code) (sec : CodeSection) (start stop : U32) :
    Option (Bool × TrimState) :=
  (whileLoop (trimBody n code sec) n ⟨start, stop, []⟩).map fun st =>
    (st.start == st.stop, st)

/-! ## Grey areas -/

/-- `start`, `end`, `bResult` and what is pushed onto `vec_gaps`. -/
structure GreyState where
  start : U32
  stop : U32
  bResult : Bool
  pushed : List AddrRange
  deriving Repr, DecidableEq

/-- The body of the loop over the grey areas.  The area is compared with `start_offset` and
`end_offset`, the bounds the range came in with. -/
def greyStep (startOffset endOffset : U32) (st : GreyState) (area : StaticTrace) : GreyState :=
  -- trimmed to zero
  if area.contains startOffset (endOffset - startOffset) then
    { st with start := st.stop, bResult := true }
  -- one range becomes two
  else if area.pertains startOffset (endOffset - startOffset) then
    { st with stop := area.start, pushed := st.pushed ++ [(area.getEnd, st.stop)] }
  -- trimmed at one end
  else if area.intersect startOffset (endOffset - startOffset) then
    if area.start < startOffset then { st with start := area.getEnd }
    else { st with stop := area.start }
  else st

/-- `IsRangeIntersectedWithGreyArea` -/
def isRangeIntersectedWithGreyArea (greyAreas : TraceSet) (start stop : U32) : GreyState :=
  if badRange start stop then ⟨start, stop, false, []⟩
  else greyAreas.elems.foldl (greyStep start stop) ⟨start, stop, false, []⟩

/-! ## `linearSweepGap` -/

/-- The variables of `linearSweepGap`. -/
structure SweepState where
  traceStart : U32
  instPre : U32
  instPost : U32
  events : List SweepEvent

namespace SweepState

/-- `AssembleTrace(trace_start, inst_post - trace_start, …)` with its insertions. -/
def assemble (st : SweepState) (cause : AssembleCause) : SweepState :=
  { st with
    events := st.events ++ [.assemble cause st.traceStart (st.instPost - st.traceStart)] }

def pend (st : SweepState) (targets : List U32) : SweepState :=
  { st with events := st.events ++ targets.map .pend }

/-- `inst_post++; trace_start = inst_post; inst_pre = inst_post;` -/
def skipByte (st : SweepState) : SweepState :=
  { st with traceStart := st.instPost + 1, instPre := st.instPost + 1, instPost := st.instPost + 1 }

end SweepState

/-- The part of the loop body that skips align padding. -/
def sweepPadding (code : Code) (sec : CodeSection) (gapEnd : U32) (st : SweepState) : SweepState :=
  let pad := isRangeAlignPaddingStart code sec st.instPre gapEnd
  if pad.1 then
    { st.assemble .padding with traceStart := pad.2, instPre := pad.2, instPost := pad.2 }
  else st

/-- The rest of the loop body. -/
def sweepInstruction (code : Code) (sec : CodeSection) (st : SweepState) : SweepState :=
  match (if sec.isAddrCode st.instPre then code.getInstruction st.instPre else none) with
  | none => st.skipByte
  | some ins =>
    -- a sweep does not follow calls: only jumps add targets here
    let st := { st with instPost := st.instPre + ins.length }
    let st :=
      match ins.type with
      | .jmp =>
        let st := (st.pend (ins.directTarget st.instPre)).assemble .jmp
        { st with traceStart := st.instPost }
      | .jmpc => st.pend (ins.directTarget st.instPre)
      | .call =>
        let st := st.assemble .call
        { st with traceStart := st.instPost }
      | .ret =>
        let st := st.assemble .ret
        { st with traceStart := st.instPost }
      | .jecxz | .loop | .lea | .other => st
    { st with instPre := st.instPost }

/-- One pass of `while (inst_pre < gap_end)`. -/
def sweepBody (code : Code) (sec : CodeSection) (gapEnd : U32) (st : SweepState) :
    LoopStep SweepState SweepState :=
  if st.instPre < gapEnd then .next (sweepInstruction code sec (sweepPadding code sec gapEnd st))
  else .exit st

/-- `CodeSectionSweeper::linearSweepGap`: what it adds. -/
def linearSweepGap (n : Nat) (code : Code) (sec : CodeSection) (gapStart gapEnd : U32) :
    Option (List SweepEvent) :=
  (whileLoop (fun st => some (sweepBody code sec gapEnd st)) n
    ⟨gapStart, gapStart, gapStart, []⟩).map SweepState.events

/-! ## A pass of the sweep -/

namespace Instruction

/-- What the sweep adds to the pending targets at an instruction. -/
def sweepTargets (ins : Instruction) (instVa : U32) : List U32 :=
  match ins.type with
  | .jmp | .jmpc => ins.directTarget instVa
  | _ => []

/-- Why the sweep assembles a trace at an instruction that ends it. -/
def endCause (ins : Instruction) : AssembleCause :=
  match ins.type with
  | .jmp => .jmp
  | .call => .call
  | _ => .ret

end Instruction

section Pass

variable {code : Code} {sec : CodeSection}

/-- **What the padding part of a pass does**: nothing, or it assembles the trace up to the padding
and goes on behind it. -/
theorem sweepPadding_cases (code : Code) (sec : CodeSection) (gapEnd : U32) (st : SweepState) :
    ((isRangeAlignPaddingStart code sec st.instPre gapEnd).1 = false ∧
      sweepPadding code sec gapEnd st = st) ∨
    ((isRangeAlignPaddingStart code sec st.instPre gapEnd).1 = true ∧
      sweepPadding code sec gapEnd st =
        ⟨(isRangeAlignPaddingStart code sec st.instPre gapEnd).2,
          (isRangeAlignPaddingStart code sec st.instPre gapEnd).2,
          (isRangeAlignPaddingStart code sec st.instPre gapEnd).2, st.events ++
            [.assemble .padding st.traceStart (st.instPost - st.traceStart)]⟩) := by
  cases hpad : (isRangeAlignPaddingStart code sec st.instPre gapEnd).1 with
  | false =>
      refine Or.inl ⟨rfl, if_neg ?_⟩
      rw [hpad]
      simp
  | true => exact Or.inr ⟨rfl, if_pos hpad⟩

/-- **What the rest of a pass does** with an instruction: it adds the targets, and assembles the
trace when the instruction ends it. -/
theorem sweepInstruction_of_some {st : SweepState} {ins : Instruction}
    (hins : instructionAt code sec st.instPre = some ins) :
    sweepInstruction code sec st =
      if ins.endsTrace then
        ⟨st.instPre + ins.length, st.instPre + ins.length, st.instPre + ins.length,
          st.events ++ (ins.sweepTargets st.instPre).map .pend ++
            [.assemble ins.endCause st.traceStart (st.instPre + ins.length - st.traceStart)]⟩
      else
        ⟨st.traceStart, st.instPre + ins.length, st.instPre + ins.length,
          st.events ++ (ins.sweepTargets st.instPre).map .pend⟩ := by
  unfold sweepInstruction
  rw [show (if sec.isAddrCode st.instPre = true then code.getInstruction st.instPre else none) =
    some ins from hins]
  dsimp only
  cases htype : ins.type <;>
    simp [Instruction.endsTrace, Instruction.sweepTargets, Instruction.endCause, htype,
      SweepState.pend, SweepState.assemble]

theorem sweepInstruction_of_none {st : SweepState}
    (hins : instructionAt code sec st.instPre = none) :
    sweepInstruction code sec st = st.skipByte := by
  unfold sweepInstruction
  rw [show (if sec.isAddrCode st.instPre = true then code.getInstruction st.instPre else none) =
    none from hins]

end Pass

/-! ## `spotGaps` -/

/-- What is done for one gap. -/
structure GapPass where
  /-- What it adds. -/
  events : List SweepEvent
  /-- The range given to `linearSweepGap`. -/
  swept : Option AddrRange
  /-- The ranges pushed onto `vec_gaps`. -/
  pushed : List AddrRange
  deriving Repr, DecidableEq

/-- The body of the loop over `vec_gaps`. -/
def sweepGap (n : Nat) (code : Code) (sec : CodeSection) (greyAreas : TraceSet)
    (gap : AddrRange) : Option GapPass :=
  match trimGap n code sec gap.1 gap.2 with
  | none => none
  | some (true, st) => some ⟨st.events, none, []⟩
  | some (false, st) =>
    let grey := isRangeIntersectedWithGreyArea greyAreas st.start st.stop
    if grey.bResult then some ⟨st.events, none, grey.pushed⟩
    else
      (linearSweepGap n code sec grey.start grey.stop).map fun events =>
        ⟨st.events ++ events, some (grey.start, grey.stop), grey.pushed⟩

/-- The loop over `vec_gaps`: the gaps still to come, and what has happened. -/
structure GapsState where
  gaps : List AddrRange
  events : List SweepEvent
  /-- The ranges given to `linearSweepGap`. -/
  swept : List AddrRange
  /-- How many ranges have been pushed. -/
  grown : Nat
  deriving Repr, DecidableEq

/-- One gap more is done, `rest` are still to come. -/
def GapsState.advance (st : GapsState) (rest : List AddrRange) (r : GapPass) : GapsState where
  gaps := rest ++ r.pushed
  events := st.events ++ r.events
  swept := st.swept ++ r.swept.toList
  grown := st.grown + r.pushed.length

/-- The loop has advanced an iterator that a `push_back` had made invalid, when `vec_gaps` had room
for `room` more elements. -/
def GapsState.dangles (room : Nat) (st : GapsState) : Bool := decide (room < st.grown)

/-- One pass of the loop over `vec_gaps`. -/
def gapsBody (n : Nat) (code : Code) (sec : CodeSection) (greyAreas : TraceSet)
    (st : GapsState) : Option (LoopStep GapsState GapsState) :=
  match st.gaps with
  | [] => some (.exit st)
  | gap :: rest =>
      (sweepGap n code sec greyAreas gap).map fun r => .next (st.advance rest r)

/-- The loop over `vec_gaps`. -/
def gapsLoop (n : Nat) (code : Code) (sec : CodeSection) (greyAreas : TraceSet)
    (gaps : List AddrRange) : Option GapsState :=
  whileLoop (gapsBody n code sec greyAreas) n ⟨gaps, [], [], 0⟩

/-- **A pass of the loop over `vec_gaps`** takes the first gap, or leaves. -/
theorem gapsBody_cases {n : Nat} {code : Code} {sec : CodeSection} {greyAreas : TraceSet}
    {st : GapsState} {r : LoopStep GapsState GapsState}
    (h : gapsBody n code sec greyAreas st = some r) :
    (st.gaps = [] ∧ r = .exit st) ∨
      ∃ gap rest pass, st.gaps = gap :: rest ∧ sweepGap n code sec greyAreas gap = some pass ∧
        r = .next (st.advance rest pass) := by
  unfold gapsBody at h
  split at h
  · rename_i hgaps
    exact Or.inl ⟨hgaps, (Option.some.inj h).symm⟩
  · rename_i gap rest hgaps
    obtain ⟨pass, hpass, heq⟩ := Option.map_eq_some_iff.mp h
    exact Or.inr ⟨gap, rest, pass, hgaps, hpass, heq.symm⟩

namespace CodeSectionSweeper

/-- Everything the loop over `vec_gaps` adds. -/
def gapEvents (n : Nat) (code : Code) (s : CodeSectionSweeper) : Option (List SweepEvent) :=
  (gapsLoop n code s.codeSection s.greyAreas (vecGaps s.codeSection s.traces.elems)).map
    GapsState.events

/-- `spotGaps` up to its call of `process`. -/
def sweepGaps (n : Nat) (code : Code) (s : CodeSectionSweeper) : Option CodeSectionSweeper :=
  (s.gapEvents n code).map fun events => events.foldl applyEvent s

/-- `CodeSectionSweeper::spotGaps` -/
def spotGaps (n : Nat) (code : Code) (s : CodeSectionSweeper) : Option CodeSectionSweeper :=
  match s.sweepGaps n code with
  | none => none
  | some s => s.process n code

/-! ## `postProcess` -/

/-- `MAX_LEA_PADDING_SEARCH_RANGE` -/
def maxLeaPaddingSearchRange : U32 := 4 * 1024

/-- One pass of the padding scan: `lea_target_end` and `num_int3`. -/
def paddingScanBody (code : Code) (leaTarget : U32) (st : U32 × U32) :
    LoopStep (U32 × U32) U32 :=
  let (leaTargetEnd, numInt3) := st
  let next := leaTargetEnd + 1
  if leaTargetEnd < leaTarget + maxLeaPaddingSearchRange then
    if code.mem next = int3 then .next (next, numInt3 + 1)
    -- padding ends at a multiple of 16
    else if next &&& 0xF = 0 ∧ numInt3 > 4 then .exit next
    else .next (next, 0)
  else .exit next

/-- The padding scan from a `lea` target: `lea_target_end` after it. -/
def paddingScan (n : Nat) (code : Code) (leaTarget : U32) : Option U32 :=
  whileLoop (fun st => some (paddingScanBody code leaTarget st)) n (leaTarget, 0)

/-- The loop over the traces: those that stay, and whether the iterator was advanced after its
element had been erased. -/
def invalidateLoop (leaTarget leaTargetEnd : U32) : List StaticTrace → List StaticTrace × Bool
  | [] => ([], false)
  | t :: ts =>
      if t.intersect leaTarget (leaTargetEnd - leaTarget) then
        ((invalidateLoop leaTarget leaTargetEnd ts).1, true)
      else if t.biggerThan leaTargetEnd then (t :: ts, false)
      else
        let (kept, advanced) := invalidateLoop leaTarget leaTargetEnd ts
        (t :: kept, advanced)

theorem sublist_invalidateLoop (leaTarget leaTargetEnd : U32) (l : List StaticTrace) :
    (invalidateLoop leaTarget leaTargetEnd l).1.Sublist l := by
  induction l with
  | nil => exact List.Sublist.slnil
  | cons t ts ih =>
      unfold invalidateLoop
      split_ifs
      · exact ih.cons t
      · exact List.Sublist.refl _
      · exact ih.cons_cons t

/-- The traces after one `lea` target, and whether an erased element was stepped over. -/
def invalidate (traces : TraceSet) (leaTarget leaTargetEnd : U32) : TraceSet × Bool :=
  let kept := invalidateLoop leaTarget leaTargetEnd traces.elems
  (⟨kept.1, traces.sorted.sublist ((sublist_invalidateLoop _ _ _).map _)⟩, kept.2)

/-- The loop over `m_lea_targets`. -/
def postProcessLoop (n : Nat) (code : Code) : List U32 → TraceSet × Bool → Option (TraceSet × Bool)
  | [], st => some st
  | leaTarget :: rest, (traces, advanced) =>
      match paddingScan n code leaTarget with
      | none => none
      | some leaTargetEnd =>
        if leaTargetEnd < leaTarget + maxLeaPaddingSearchRange then
          let (traces, advanced') := invalidate traces leaTarget leaTargetEnd
          postProcessLoop n code rest (traces, advanced || advanced')
        else postProcessLoop n code rest (traces, advanced)

/-- `CodeSectionSweeper::postProcess`: the sweeper, and whether the traversal of `m_traces` was
advanced through an element it had erased. -/
def postProcess (n : Nat) (code : Code) (s : CodeSectionSweeper) :
    Option (CodeSectionSweeper × Bool) :=
  (postProcessLoop n code s.leaTargets.elems (s.traces, false)).map fun r =>
    ({ s with traces := r.1 }, r.2)

end CodeSectionSweeper

/-! ## More fuel -/

section Fuel

variable {code : Code} {sec : CodeSection}

theorem fuelMono_isRangeComboTrampoline (start stop : U32) :
    FuelMono (fun n => isRangeComboTrampoline n code sec start stop) :=
  fun _ _ _ hle h => whileLoop_mono (fun _ _ hb => hb) hle h

theorem fuelMono_trimGap (start stop : U32) :
    FuelMono (fun n => trimGap n code sec start stop) := by
  intro n m r hle h
  obtain ⟨st, hloop, rfl⟩ := Option.map_eq_some_iff.mp h
  refine Option.map_eq_some_iff.mpr ⟨st, whileLoop_mono (fun st r hb => ?_) hle hloop, rfl⟩
  -- the body calls the loop over trampolines with the same fuel
  unfold trimBody at hb ⊢
  split at hb
  · exact absurd hb (by simp)
  · rename_i hcombo
    rw [show isRangeComboTrampoline m code sec st.start st.stop = _ from
      fuelMono_isRangeComboTrampoline st.start st.stop n m _ hle hcombo]
    exact hb

theorem fuelMono_linearSweepGap (gapStart gapEnd : U32) :
    FuelMono (fun n => linearSweepGap n code sec gapStart gapEnd) := by
  intro n m r hle h
  obtain ⟨st, hloop, rfl⟩ := Option.map_eq_some_iff.mp h
  exact Option.map_eq_some_iff.mpr ⟨st, whileLoop_mono (fun _ _ hb => hb) hle hloop, rfl⟩

theorem fuelMono_sweepGap (greyAreas : TraceSet) (gap : AddrRange) :
    FuelMono (fun n => sweepGap n code sec greyAreas gap) := by
  intro n m r hle (h : sweepGap n code sec greyAreas gap = some r)
  show sweepGap m code sec greyAreas gap = some r
  unfold sweepGap at h ⊢
  split at h
  · exact absurd h (by simp)
  · rename_i htrim
    rw [show trimGap m code sec gap.1 gap.2 = _ from fuelMono_trimGap gap.1 gap.2 n m _ hle htrim]
    exact h
  · rename_i htrim
    rw [show trimGap m code sec gap.1 gap.2 = _ from fuelMono_trimGap gap.1 gap.2 n m _ hle htrim]
    dsimp only at h ⊢
    split_ifs at h ⊢
    · exact h
    · obtain ⟨events, hsweep, rfl⟩ := Option.map_eq_some_iff.mp h
      exact Option.map_eq_some_iff.mpr ⟨events, fuelMono_linearSweepGap _ _ n m _ hle hsweep, rfl⟩

theorem fuelMono_gapsLoop (greyAreas : TraceSet) (gaps : List AddrRange) :
    FuelMono (fun n => gapsLoop n code sec greyAreas gaps) := by
  intro n m r hle h
  refine whileLoop_mono (fun st r hb => ?_) hle h
  unfold gapsBody at hb ⊢
  split at hb
  · exact hb
  · obtain ⟨added, hsweep, rfl⟩ := Option.map_eq_some_iff.mp hb
    exact Option.map_eq_some_iff.mpr ⟨added, fuelMono_sweepGap _ _ n m _ hle hsweep, rfl⟩

/-- More fuel does not change what the loop over the gaps adds. -/
theorem CodeSectionSweeper.fuelMono_gapEvents (s : CodeSectionSweeper) :
    FuelMono (fun n => s.gapEvents n code) := by
  intro n m r hle h
  obtain ⟨st, hloop, rfl⟩ := Option.map_eq_some_iff.mp h
  exact Option.map_eq_some_iff.mpr ⟨st, fuelMono_gapsLoop _ _ n m _ hle hloop, rfl⟩

/-- Nor where the padding scan ends. -/
theorem CodeSectionSweeper.fuelMono_paddingScan (leaTarget : U32) :
    FuelMono (fun n => paddingScan n code leaTarget) :=
  fun _ _ _ hle h => whileLoop_mono (fun _ _ hb => hb) hle h

end Fuel

end PEReplay
