/-
# PEReplay.Sweeper.DirectTargets — are the destinations of direct transfers explored?

The worklist of `process` is closed under the targets that `StaticTrace::process` generates.  These
are not all destinations of direct relative transfers: the walk goes past JECXZ and LOOP as if they
were no transfers, and the decoder leaves the offset of a 16-bit operand without its sign.  So after
`process` every such destination in the section has a trace exactly when the missed ones are trace
starts for another reason (`process_closed_iff`).
-/
import PEReplay.Sweeper.Explore

namespace PEReplay

open Loop

/-! ## Destinations -/

/-- The offset of a relative operand: its bytes, sign-extended. -/
def Operand.relativeOffset (op : Operand) : U32 :=
  match op.immbytes with
  | 1 => (op.immediate.setWidth 8).signExtend 32
  | 2 => (op.immediate.setWidth 16).signExtend 32
  | _ => op.immediate

/-- The operand is relative: an immediate with bytes of its own, unlike the pointer of a far
transfer. -/
def Operand.IsRelative (op : Operand) : Prop := op.type = .immediate ∧ op.immbytes ≠ 0

instance (op : Operand) : Decidable op.IsRelative := inferInstanceAs (Decidable (_ ∧ _))

namespace Instruction

/-- **The destination of a direct relative transfer** at `a`, of any of the kinds of transfers. -/
def destination (ins : Instruction) (a : U32) : Option U32 :=
  match ins.type with
  | .jmp | .jmpc | .jecxz | .loop | .call =>
      if ins.op1.IsRelative then some (a + ins.length + ins.op1.relativeOffset) else none
  | .ret | .lea | .other => none

/-- A transfer whose destination is not generated: one of the two kinds the walk does not know, or
one whose offset has lost its sign. -/
def Missed (ins : Instruction) : Prop :=
  ins.type = .jecxz ∨ ins.type = .loop ∨ ins.op1.immediate ≠ ins.op1.relativeOffset

instance (ins : Instruction) : Decidable ins.Missed := inferInstanceAs (Decidable (_ ∨ _ ∨ _))

/-- The other destinations are generated. -/
theorem mem_genTargets_of_destination {ins : Instruction} {a dest : U32}
    (h : ins.destination a = some dest) (hmissed : ¬ ins.Missed) : dest ∈ ins.genTargets a := by
  unfold Missed at hmissed
  rw [not_or, not_or, not_not] at hmissed
  obtain ⟨hjecxz, hloop, himm⟩ := hmissed
  have hdirect : ins.op1.IsRelative → a + ins.length + ins.op1.relativeOffset = dest →
      dest ∈ ins.directTarget a := by
    rintro ⟨htype, hbytes⟩ rfl
    unfold directTarget Operand.getImmediate
    rw [if_pos htype, if_pos hbytes, himm]
    exact List.mem_singleton_self _
  unfold destination at h
  unfold genTargets
  cases htype : ins.type with
  | jmp | jmpc =>
      rw [htype] at h
      dsimp only at h ⊢
      split_ifs at h with hrel
      exact hdirect hrel (Option.some.inj h)
  | call =>
      rw [htype] at h
      dsimp only at h ⊢
      split_ifs at h with hrel
      exact List.mem_append_left _ (hdirect hrel (Option.some.inj h))
  | jecxz => exact absurd htype hjecxz
  | loop => exact absurd htype hloop
  | ret | lea | other =>
      rw [htype] at h
      exact absurd h (by simp)

end Instruction

namespace CodeSectionSweeper

/-! ## Closure -/

/-- Every destination in the section of a direct relative transfer that occurs in a trace is itself
the start of a trace. -/
def DirectClosed (code : Code) (s : CodeSectionSweeper) : Prop :=
  ∀ t ∈ s.traces, ∀ run, StraightLine code s.codeSection t.start run → ∀ p ∈ run,
    ∀ dest, p.2.destination p.1 = some dest → s.codeSection.isAddrCode dest = true →
      ∃ u ∈ s.traces, u.start = dest

/-- The destinations in the section that are missed are trace starts all the same. -/
def MissedAreStarts (code : Code) (sec : CodeSection) (targets : TargetSet) : Prop :=
  ∀ a, TraceStart code sec targets a → ∀ run, StraightLine code sec a run → ∀ p ∈ run,
    p.2.Missed → ∀ dest, p.2.destination p.1 = some dest → sec.isAddrCode dest = true →
      TraceStart code sec targets dest

variable {code : Code}

/-- What a trace start generates in the section is a trace start. -/
theorem TraceStart.gen {sec : CodeSection} {targets : TargetSet} {a dest : U32}
    {run : List (U32 × Instruction)} (h : TraceStart code sec targets a)
    (hrun : StraightLine code sec a run) {p : U32 × Instruction} (hp : p ∈ run)
    (hgen : dest ∈ p.2.genTargets p.1) (hcode : sec.isAddrCode dest = true) :
    TraceStart code sec targets dest := by
  refine Worklist.Reach.succ h ?_ hcode
  rw [genSet_eq hrun, List.mem_toFinset]
  exact List.mem_flatMap.mpr ⟨p, hp, hgen⟩

theorem exists_start_iff {traces : TraceSet} {a : U32} :
    (∃ t ∈ traces, t.start = a) ↔ a ∈ traces.elems.map StaticTrace.start := List.mem_map.symm

/-- The starts of the traces after `process` are the trace starts. -/
theorem starts_of_process {n : Nat} {s s' : CodeSectionSweeper} (hempty : s.traces = ∅)
    (h : s.process n code = some s') : s'.codeSection = s.codeSection ∧
      ∀ a, (∃ t ∈ s'.traces, t.start = a) ↔ TraceStart code s.codeSection s.pendingTargets a := by
  obtain ⟨w, hw, rfl⟩ := Option.map_eq_some_iff.mp h
  obtain ⟨hsteps, hdone⟩ := popSteps_of_worklist hw
  refine ⟨(popSteps_spec hsteps).1.codeSection, fun a => ?_⟩
  rw [← starts_of_popSteps hempty hsteps hdone a, exists_start_iff, exists_start_iff,
    starts_splitPass]

/-- **When `process` explores every direct destination**: for every section content, and every set
of targets to begin with, exactly when those it misses are trace starts for another reason. -/
theorem process_closed_iff (code : Code) (n : Nat) (s s' : CodeSectionSweeper)
    (hempty : s.traces = ∅) (h : s.process n code = some s') :
    s'.DirectClosed code ↔ MissedAreStarts code s.codeSection s.pendingTargets := by
  obtain ⟨hsec, hstarts⟩ := starts_of_process hempty h
  unfold DirectClosed
  rw [hsec]
  constructor
  · intro hclosed a ha run hrun p hp _ dest hdest hcode
    obtain ⟨t, ht, rfl⟩ := (hstarts a).mpr ha
    exact (hstarts dest).mp (hclosed t ht run hrun p hp dest hdest hcode)
  · intro hmissed t ht run hrun p hp dest hdest hcode
    have ha := (hstarts t.start).mp ⟨t, ht, rfl⟩
    refine (hstarts dest).mpr ?_
    by_cases hmiss : p.2.Missed
    · exact hmissed t.start ha run hrun p hp hmiss dest hdest hcode
    · exact ha.gen hrun hp (Instruction.mem_genTargets_of_destination hdest hmiss) hcode

section Samples

/-- A fresh sweeper of the five bytes at `0x1000` with one target. -/
def transferSweeper (target : U32) : CodeSectionSweeper :=
  (init ⟨0x1000, 5, by decide⟩).appendTarget target

/-- A two-byte transfer. -/
def shortTransfer (type : InstructionType) (offset : U32) : Instruction where
  length := 2
  type := type
  op1 := ⟨.immediate, libdasmRegisterNop, libdasmRegisterNop, 0, 1, 0, offset⟩
  op2 := noOperand
  length_pos := Nat.two_pos

/-- `E3 02 EB 00 C3`: both transfers lead to the `ret`. -/
def twoTransfersCode : Code where
  mem := fun a =>
    if a = 0x1000 then 0xE3 else if a = 0x1001 then 0x02
    else if a = 0x1002 then 0xEB else if a = 0x1003 then 0x00 else 0xC3
  getInstruction := fun a => some (
    if a = 0x1000 then shortTransfer .jecxz 2
    else if a = 0x1002 then shortTransfer .jmp 0 else retInstruction)

/-- The destination of the `jecxz` is missed, but the `jmp` has the same one. -/
theorem process_closed_iff_sample : ∃ s', (transferSweeper 0x1000).process 9 twoTransfersCode =
    some s' ∧ s'.DirectClosed twoTransfersCode := by
  have hruns : ((transferSweeper 0x1000).process 9 twoTransfersCode).isSome = true := by decide
  obtain ⟨s', hs'⟩ := Option.isSome_iff_exists.mp hruns
  refine ⟨s', hs', (process_closed_iff twoTransfersCode 9 _ s' rfl hs').mpr ?_⟩
  intro a _ run hrun p hp hmissed dest hdest _
  have hins : some (if p.1 = 0x1000 then shortTransfer .jecxz 2
      else if p.1 = 0x1002 then shortTransfer .jmp 0 else retInstruction) = some p.2 :=
    (isAddrCode_of_instructionAt (hrun.instructionAt_of_mem p hp)).2
  have hp2 := (Option.some.inj hins).symm
  split_ifs at hp2 with hjecxz hjmp
  · -- the `jecxz`: its destination is a start because of the `jmp`
    rw [hp2, hjecxz] at hdest
    obtain rfl : (0x1004 : U32) = dest := Option.some.inj hdest
    have hfirst : StraightLine twoTransfersCode ⟨0x1000, 5, by decide⟩ 0x1000
        [(0x1000, shortTransfer .jecxz 2), (0x1002, shortTransfer .jmp 0)] :=
      .cons rfl rfl (.last rfl rfl)
    have hstart : TraceStart twoTransfersCode ⟨0x1000, 5, by decide⟩
        (transferSweeper 0x1000).pendingTargets 0x1000 :=
      .root (List.mem_toFinset.mpr List.mem_cons_self) (by decide)
    exact hstart.gen hfirst (List.mem_cons_of_mem _ List.mem_cons_self) (by decide) (by decide)
  · rw [hp2] at hmissed
    exact absurd hmissed (by decide)
  · rw [hp2] at hmissed
    exact absurd hmissed (by decide)

/-- `E3 01 C3 C3`: the `jecxz` leads to the second `ret`. -/
def jecxzCode : Code where
  mem := fun a => if a = 0x1000 then 0xE3 else if a = 0x1001 then 0x01 else 0xC3
  getInstruction := fun a => some (if a = 0x1000 then shortTransfer .jecxz 1 else retInstruction)

/-- `jmp` with the 16-bit offset -5, as the decoder gives it. -/
def shortJmpInstruction : Instruction where
  length := 4
  type := .jmp
  op1 := ⟨.immediate, libdasmRegisterNop, libdasmRegisterNop, 0, 2, 0, 0xFFFB⟩
  op2 := noOperand

/-- `C3 66 E9 FB FF`: the `jmp` leads to the `ret`. -/
def shortJmpCode : Code where
  mem := fun a =>
    if a = 0x1001 then 0x66 else if a = 0x1002 then 0xE9
    else if a = 0x1003 then 0xFB else if a = 0x1004 then 0xFF else 0xC3
  getInstruction := fun a => some (if a = 0x1001 then shortJmpInstruction else retInstruction)

/-- A destination without a trace: the first instruction of the trace that starts at `a` leads to
it. -/
theorem not_directClosed {n : Nat} {s : CodeSectionSweeper} {sec : CodeSection} {a : U32}
    {ins : Instruction} {run : List (U32 × Instruction)} (dest : U32)
    (h : (s.process n code).map
      (fun s' => (s'.codeSection, s'.traces.elems.map StaticTrace.start)) = some (sec, [a]))
    (hrun : StraightLine code sec a ((a, ins) :: run))
    (hdest : ins.destination a = some dest) (hcode : sec.isAddrCode dest = true) (hne : a ≠ dest) :
    ∃ s', s.process n code = some s' ∧ ¬ s'.DirectClosed code := by
  obtain ⟨s', hs', heq⟩ := Option.map_eq_some_iff.mp h
  obtain ⟨rfl, hstarts⟩ := Prod.mk.inj heq
  have hmem : ∀ b, (∃ t ∈ s'.traces, t.start = b) ↔ b = a := by
    intro b
    rw [exists_start_iff, hstarts, List.mem_singleton]
  refine ⟨s', hs', fun hclosed => ?_⟩
  obtain ⟨t, ht, rfl⟩ := (hmem a).mpr rfl
  have hstart := hclosed t ht _ hrun _ List.mem_cons_self dest hdest hcode
  exact hne ((hmem dest).mp hstart).symm

/-- After `process` the destination of the `jecxz` has no trace, nor has that of the 16-bit
`jmp`. -/
theorem destinations_missed :
    (∃ s', (transferSweeper 0x1000).process 9 jecxzCode = some s' ∧
      ¬ s'.DirectClosed jecxzCode) ∧
    ∃ s', (transferSweeper 0x1001).process 9 shortJmpCode = some s' ∧
      ¬ s'.DirectClosed shortJmpCode := by
  have hjecxz : StraightLine jecxzCode ⟨0x1000, 5, by decide⟩ 0x1000
      [(0x1000, shortTransfer .jecxz 1), (0x1002, retInstruction)] :=
    .cons rfl rfl (.last rfl rfl)
  have hjmp : StraightLine shortJmpCode ⟨0x1000, 5, by decide⟩ 0x1001
      [(0x1001, shortJmpInstruction)] := .last rfl rfl
  exact ⟨not_directClosed 0x1003 (by decide) hjecxz (by decide) (by decide) (by decide),
    not_directClosed 0x1000 (by decide) hjmp (by decide) (by decide) (by decide)⟩

end Samples

end CodeSectionSweeper

end PEReplay
