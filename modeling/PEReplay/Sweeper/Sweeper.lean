/-
# PEReplay.Sweeper.Sweeper — `CodeSectionSweeper` and its worklist.

`process` pops pending targets, builds a trace at each one that has none, and adds the targets the
trace generates; then the split pass shortens every trace that ends where its successor does.

`m_traces` holds pointers ordered by the start of what they point to, `m_map_traces` maps starts to
pointers; a pointer is the `id` of the object, and `nextId` counts the objects created.
-/
import PEReplay.Sweeper.Trace

namespace PEReplay

open Loop

/-- `CodeSectionSweeper` -/
structure CodeSectionSweeper where
  traces : TraceSet
  mapTraces : U32 → Option Nat
  pendingTargets : TargetSet
  codeSection : CodeSection
  leaTargets : TargetSet
  greyAreas : TraceSet
  nextId : Nat

namespace CodeSectionSweeper

/-- The containers before any target is appended. -/
def init (codeSection : CodeSection) : CodeSectionSweeper where
  traces := ∅
  mapTraces := fun _ => none
  pendingTargets := ∅
  codeSection := codeSection
  leaTargets := ∅
  greyAreas := ∅
  nextId := 0

/-- `CodeSectionSweeper::IsAddrCode` -/
def isAddrCode (s : CodeSectionSweeper) (addr : U32) : Bool := s.codeSection.isAddrCode addr

/-- `CodeSectionSweeper::appendTarget` -/
def appendTarget (s : CodeSectionSweeper) (target : U32) : CodeSectionSweeper :=
  if s.isAddrCode target then { s with pendingTargets := s.pendingTargets.insert target } else s

/-- `CodeSectionSweeper::markGreyArea` -/
def markGreyArea (s : CodeSectionSweeper) (start size : U32) : CodeSectionSweeper :=
  { s with
    greyAreas := s.greyAreas.insert (StaticTrace.assembleTrace s.nextId start size s.codeSection)
    nextId := s.nextId + 1 }

/-- `CodeSectionSweeper::HasTraceStart` -/
def hasTraceStart (s : CodeSectionSweeper) (addr : U32) : Bool := (s.mapTraces addr).isSome

/-- The backward loop of `HasTraceAt`. -/
def hasTraceAtLoop (target : U32) : List StaticTrace → Bool
  | [] => false
  | t :: ts =>
      if t.equals target then true
      else if t.smallerThan target then false
      else hasTraceAtLoop target ts

/-- `CodeSectionSweeper::HasTraceAt` -/
def hasTraceAt (s : CodeSectionSweeper) (target : U32) : Bool :=
  hasTraceAtLoop target s.traces.elems.reverse

/-- `m_traces.insert(trace); m_map_traces[trace->GetStart()] = trace;` for a new object. -/
def addTrace (s : CodeSectionSweeper) (trace : StaticTrace) : CodeSectionSweeper :=
  { s with
    traces := s.traces.insert trace
    mapTraces := Function.update s.mapTraces trace.start (some trace.id)
    nextId := s.nextId + 1 }

/-- The loop body of `process` once `target` has been chosen: erase it, and build its trace unless
it is outside the section or has one. -/
def popTarget (n : Nat) (code : Code) (s : CodeSectionSweeper) (target : U32) :
    Option CodeSectionSweeper :=
  let s := { s with pendingTargets := s.pendingTargets.erase target }
  if s.isAddrCode target && !s.hasTraceAt target then
    match (StaticTrace.new s.nextId target s.codeSection).process n code [] s.leaTargets with
    | none => none
    | some (trace, tmpTarget, leaTargets) =>
      some { s.addTrace trace with
        pendingTargets := tmpTarget.foldl (fun p t => p.insert t) s.pendingTargets
        leaTargets := leaTargets }
  else some s

/-- One pass of `while (!m_pending_targets.empty())`: the first pending target is popped. -/
def worklistBody (n : Nat) (code : Code) (s : CodeSectionSweeper) :
    Option (LoopStep CodeSectionSweeper CodeSectionSweeper) :=
  match s.pendingTargets.elems with
  | [] => some (.exit s)
  | target :: _ => (s.popTarget n code target).map .next

/-- The worklist loop of `process`. -/
def worklist (n : Nat) (code : Code) (s : CodeSectionSweeper) : Option CodeSectionSweeper :=
  whileLoop (worklistBody n code) n s

/-! ## The split pass -/

/-- The loop over neighbours: `former` is shortened when it ends where `latter` does. -/
def splitLoop : List StaticTrace → List StaticTrace
  | former :: latter :: rest =>
      (if former.getEnd = latter.getEnd then former.adjustEnd latter.start else former) ::
        splitLoop (latter :: rest)
  | l => l

/-- The pass keeps whatever does not depend on the sizes. -/
theorem map_splitLoop {β : Type} (f : StaticTrace → β)
    (hf : ∀ t stop, f (StaticTrace.adjustEnd t stop) = f t) (l : List StaticTrace) :
    (splitLoop l).map f = l.map f := by
  induction l with
  | nil => rfl
  | cons former rest ih =>
      cases rest with
      | nil => rfl
      | cons latter rest =>
          rw [splitLoop, List.map_cons, ih, List.map_cons]
          congr 1
          split_ifs
          · exact hf former latter.start
          · rfl

theorem map_start_splitLoop (l : List StaticTrace) :
    (splitLoop l).map (fun t => t.start.toNat) = l.map fun t => t.start.toNat :=
  map_splitLoop _ (fun _ _ => rfl) l

/-- The split pass of `process`.  On an empty set the source increments `end()`, and what it does
then is undefined; `processChecked` tells that case apart. -/
def splitPass (s : CodeSectionSweeper) : CodeSectionSweeper :=
  { s with traces :=
      s.traces.withElems (splitLoop s.traces.elems) (map_start_splitLoop s.traces.elems) }

/-- The split pass moves no start. -/
theorem starts_splitPass (s : CodeSectionSweeper) :
    s.splitPass.traces.elems.map StaticTrace.start = s.traces.elems.map StaticTrace.start :=
  map_splitLoop _ (fun _ _ => rfl) _

/-- `CodeSectionSweeper::process` -/
def process (n : Nat) (code : Code) (s : CodeSectionSweeper) : Option CodeSectionSweeper :=
  (s.worklist n code).map splitPass

/-- What the source does not define. -/
inductive SweepError where
  /-- `++m_traces.begin()` when `m_traces` is empty -/
  | endIncremented
  deriving Repr, DecidableEq

/-- `CodeSectionSweeper::process`, which fails when it comes to the split pass without traces. -/
def processChecked (n : Nat) (code : Code) (s : CodeSectionSweeper) :
    Option (Except SweepError CodeSectionSweeper) :=
  (s.worklist n code).map fun s =>
    if s.traces.elems.isEmpty then .error .endIncremented else .ok s.splitPass

/-- `CodeSectionSweeper::calculateCoverage`: the sum that is printed. -/
def staticTraceSize (s : CodeSectionSweeper) : U32 :=
  s.traces.elems.foldl (fun sum t => sum + t.size) 0

end CodeSectionSweeper

end PEReplay
