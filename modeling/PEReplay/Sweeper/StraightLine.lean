/-
# PEReplay.Sweeper.StraightLine — what `StaticTrace::process` computes.

`StraightLine code sec a run` says that `run` is the straight-line run from `a`: consecutive
instructions up to and including the first JMP, CALL or RET, or up to the first address that is
outside the section or does not decode.  There is at most one (`StraightLine.unique`), below the top
of the address space there is one (`exists_straightLine`), and `StaticTrace::process` computes its
size and its targets (`process_of_straightLine`, `straightLine_of_process`).
-/
import PEReplay.Sweeper.Trace

namespace PEReplay

open Loop

/-! ## Runs -/

namespace Instruction

/-- JMP, CALL and RET end a trace. -/
def endsTrace (ins : Instruction) : Bool :=
  match ins.type with
  | .jmp | .call | .ret => true
  | _ => false

/-- What an instruction at `instVa` adds to `gen_targets`. -/
def genTargets (ins : Instruction) (instVa : U32) : List U32 :=
  match ins.type with
  | .jmp | .jmpc => ins.directTarget instVa
  | .call => ins.directTarget instVa ++ [instVa + ins.length]
  | _ => []

/-- What an instruction adds to `lea_targets`. -/
def addLea (ins : Instruction) (leaTargets : TargetSet) : TargetSet :=
  match ins.type, ins.leaTarget with
  | .lea, some disp => leaTargets.insert disp
  | _, _ => leaTargets

end Instruction

/-- The instruction the tool sees at an address. -/
def instructionAt (code : Code) (sec : CodeSection) (a : U32) : Option Instruction :=
  if sec.isAddrCode a then code.getInstruction a else none

/-- The straight-line run from an address. -/
inductive StraightLine (code : Code) (sec : CodeSection) :
    U32 → List (U32 × Instruction) → Prop where
  | stop {a : U32} : instructionAt code sec a = none → StraightLine code sec a []
  | last {a : U32} {ins : Instruction} : instructionAt code sec a = some ins →
      ins.endsTrace = true → StraightLine code sec a [(a, ins)]
  | cons {a : U32} {ins : Instruction} {run : List (U32 × Instruction)} :
      instructionAt code sec a = some ins → ins.endsTrace = false →
      StraightLine code sec (a + ins.length) run → StraightLine code sec a ((a, ins) :: run)

/-- The sum of the instruction lengths. -/
def runSize (run : List (U32 × Instruction)) : Nat := (run.map fun p => p.2.length.toNat).sum

/-- The targets generated, in order. -/
def runTargets (run : List (U32 × Instruction)) : List U32 :=
  run.flatMap fun p => p.2.genTargets p.1

/-- The set of `lea` targets after the run. -/
def runLea (run : List (U32 × Instruction)) (leaTargets : TargetSet) : TargetSet :=
  run.foldl (fun lea p => p.2.addLea lea) leaTargets

theorem runSize_cons (p : U32 × Instruction) (run : List (U32 × Instruction)) :
    runSize (p :: run) = p.2.length.toNat + runSize run := by
  rw [runSize, List.map_cons, List.sum_cons, runSize]

section

variable {code : Code} {sec : CodeSection}

/-- **One run from each address.** -/
theorem StraightLine.unique {a : U32} {run run' : List (U32 × Instruction)}
    (h : StraightLine code sec a run) (h' : StraightLine code sec a run') : run = run' := by
  induction h generalizing run' with
  | stop hnone =>
      cases h' with
      | stop _ => rfl
      | last hins _ => rw [hnone] at hins; exact absurd hins (by simp)
      | cons hins _ _ => rw [hnone] at hins; exact absurd hins (by simp)
  | last hins hends =>
      cases h' with
      | stop hnone => rw [hnone] at hins; exact absurd hins (by simp)
      | last hins' _ =>
          rw [hins'] at hins
          rw [Option.some.inj hins]
      | cons hins' hgoes _ =>
          rw [hins'] at hins
          rw [Option.some.inj hins] at hgoes
          exact absurd (hgoes.symm.trans hends) (by simp)
  | cons hins hgoes _ ih =>
      cases h' with
      | stop hnone => rw [hnone] at hins; exact absurd hins (by simp)
      | last hins' hends =>
          rw [hins'] at hins
          rw [Option.some.inj hins] at hends
          exact absurd (hgoes.symm.trans hends) (by simp)
      | cons hins' _ hrun =>
          rw [hins'] at hins
          obtain rfl := Option.some.inj hins
          rw [ih hrun]

/-- What a run consists of are instructions of the section. -/
theorem StraightLine.instructionAt_of_mem {a : U32} {run : List (U32 × Instruction)}
    (h : StraightLine code sec a run) : ∀ p ∈ run, instructionAt code sec p.1 = some p.2 := by
  induction h with
  | stop _ => exact fun p hp => absurd hp List.not_mem_nil
  | last hins _ =>
      intro p hp
      rw [List.mem_singleton.mp hp]
      exact hins
  | cons hins _ _ ih =>
      intro p hp
      rcases List.mem_cons.mp hp with rfl | hp
      · exact hins
      · exact ih p hp

/-! ## Sections below the top of the address space -/

/-- The section's end and the longest instruction stay below 2^32. -/
structure CodeSection.Below (sec : CodeSection) (code : Code) (longest : Nat) : Prop where
  length_le : ∀ a ins, code.getInstruction a = some ins → ins.length.toNat ≤ longest
  room : sec.start.toNat + sec.size.toNat + longest < 2 ^ 32

theorem CodeSection.toNat_stop (sec : CodeSection) :
    sec.stop.toNat = sec.start.toNat + sec.size.toNat := by
  have := sec.fits
  unfold CodeSection.stop
  bv_omega

theorem CodeSection.isAddrCode_iff (sec : CodeSection) (a : U32) :
    sec.isAddrCode a = true ↔
      sec.start.toNat ≤ a.toNat ∧ a.toNat < sec.start.toNat + sec.size.toNat := by
  have := sec.fits
  simp only [CodeSection.isAddrCode, Bool.and_eq_true, decide_eq_true_eq]
  bv_omega

theorem isAddrCode_of_instructionAt {a : U32} {ins : Instruction}
    (h : instructionAt code sec a = some ins) :
    sec.isAddrCode a = true ∧ code.getInstruction a = some ins := by
  unfold instructionAt at h
  split_ifs at h with hcode
  · exact ⟨hcode, h⟩

/-- The address behind an instruction of the section does not wrap. -/
theorem CodeSection.Below.toNat_add {longest : Nat} (hb : sec.Below code longest) {a : U32}
    {ins : Instruction} (h : instructionAt code sec a = some ins) :
    (a + ins.length).toNat = a.toNat + ins.length.toNat ∧
      a.toNat + ins.length.toNat < sec.start.toNat + sec.size.toNat + longest := by
  obtain ⟨hcode, hins⟩ := isAddrCode_of_instructionAt h
  have hle := hb.length_le a ins hins
  have hroom := hb.room
  have hlt := ((sec.isAddrCode_iff a).mp hcode).2
  refine ⟨?_, by omega⟩
  rw [BitVec.toNat_add, Nat.mod_eq_of_lt (by omega)]

/-- **There is a run from every address**, and it ends less than one instruction behind the
section. -/
theorem exists_straightLine {longest : Nat} (hb : sec.Below code longest) (a : U32) :
    ∃ run, StraightLine code sec a run ∧
      (sec.isAddrCode a = true →
        a.toNat + runSize run ≤ sec.start.toNat + sec.size.toNat + longest) := by
  -- on the distance to the end of the section
  generalize hk : sec.start.toNat + sec.size.toNat - a.toNat = k
  induction k using Nat.strong_induction_on generalizing a with
  | _ k ih =>
      cases hins : instructionAt code sec a with
      | none =>
          refine ⟨[], .stop hins, fun hcode => ?_⟩
          have hlt := ((sec.isAddrCode_iff a).mp hcode).2
          show a.toNat + 0 ≤ _
          omega
      | some ins =>
          obtain ⟨hadd, hbound⟩ := hb.toNat_add hins
          have hpos := ins.length_pos
          have hlt := ((sec.isAddrCode_iff a).mp (isAddrCode_of_instructionAt hins).1).2
          cases hends : ins.endsTrace with
          | true =>
              refine ⟨[(a, ins)], .last hins hends, fun _ => ?_⟩
              rw [runSize_cons]
              show a.toNat + (ins.length.toNat + 0) ≤ _
              omega
          | false =>
              obtain ⟨run, hrun, hsize⟩ := ih _ (by omega) (a + ins.length) rfl
              refine ⟨(a, ins) :: run, .cons hins hends hrun, fun _ => ?_⟩
              rw [runSize_cons]
              show a.toNat + (ins.length.toNat + runSize run) ≤ _
              cases hcode : sec.isAddrCode (a + ins.length) with
              | true =>
                  have := hsize hcode
                  omega
              | false =>
                  -- behind the section nothing follows
                  have hnone : instructionAt code sec (a + ins.length) = none := by
                    rw [instructionAt, hcode]
                    rfl
                  rw [hrun.unique (.stop hnone)]
                  show a.toNat + (ins.length.toNat + 0) ≤ _
                  omega

/-! ## `StaticTrace::process` -/

namespace StaticTrace

/-- **One pass** of the loop: stop, or take in one instruction. -/
theorem processBody_eq (st : ProcessState) :
    processBody code sec st =
      match instructionAt code sec st.instVa with
      | none => .exit st
      | some ins =>
        if ins.endsTrace then
          .exit ⟨st.instVa, st.size + ins.length, st.genTargets ++ ins.genTargets st.instVa,
            ins.addLea st.leaTargets⟩
        else
          .next ⟨st.instVa + ins.length, st.size + ins.length,
            st.genTargets ++ ins.genTargets st.instVa, ins.addLea st.leaTargets⟩ := by
  unfold processBody
  rw [show (if sec.isAddrCode st.instVa = true then code.getInstruction st.instVa else none) =
    instructionAt code sec st.instVa from rfl]
  cases instructionAt code sec st.instVa with
  | none => rfl
  | some ins =>
      dsimp only
      cases htype : ins.type <;>
        simp [Instruction.endsTrace, Instruction.genTargets, Instruction.addLea, htype]
      -- only `lea` looks at its second operand
      cases ins.leaTarget <;> rfl

/-- The loop from any of its states. -/
theorem whileLoop_of_straightLine {a : U32} {run : List (U32 × Instruction)}
    (h : StraightLine code sec a run) {n : Nat} (hn : run.length < n) (size : U32)
    (gen : List U32) (lea : TargetSet) :
    ∃ a', whileLoop (fun st => some (processBody code sec st)) n ⟨a, size, gen, lea⟩ =
      some ⟨a', size + BitVec.ofNat 32 (runSize run), gen ++ runTargets run, runLea run lea⟩ := by
  induction h generalizing n size gen lea with
  | @stop a hnone =>
      obtain ⟨n, rfl⟩ : ∃ k, n = k + 1 := ⟨n - 1, by simp at hn; omega⟩
      refine ⟨a, whileLoop_exit ?_⟩
      rw [processBody_eq, hnone]
      simp [runSize, runTargets, runLea]
  | @last a ins hins hends =>
      obtain ⟨n, rfl⟩ : ∃ k, n = k + 1 := ⟨n - 1, by simp at hn; omega⟩
      refine ⟨a, whileLoop_exit ?_⟩
      rw [processBody_eq, hins]
      simp [hends, runSize, runTargets, runLea]
  | @cons a ins run hins hgoes _ ih =>
      obtain ⟨n, rfl⟩ : ∃ k, n = k + 1 := ⟨n - 1, by simp at hn; omega⟩
      have hbody : some (processBody code sec ⟨a, size, gen, lea⟩) =
          some (.next ⟨a + ins.length, size + ins.length, gen ++ ins.genTargets a,
            ins.addLea lea⟩) := by
        rw [processBody_eq, hins]
        simp [hgoes]
      obtain ⟨a', hrest⟩ := ih (n := n) (by simp at hn; omega) (size + ins.length)
        (gen ++ ins.genTargets a) (ins.addLea lea)
      refine ⟨a', ?_⟩
      rw [whileLoop_next hbody, hrest, runSize_cons]
      simp [runTargets, runLea, List.append_assoc, BitVec.ofNat_add, BitVec.add_assoc]

/-- A trace with the size of a run. -/
def ofRun (id : Nat) (a : U32) (sec : CodeSection) (run : List (U32 × Instruction)) : StaticTrace :=
  ⟨id, a, BitVec.ofNat 32 (runSize run), sec⟩

/-- **`process` computes the run** when it has fuel for it. -/
theorem process_of_straightLine {a : U32} {run : List (U32 × Instruction)}
    (h : StraightLine code sec a run) {n : Nat} (hn : run.length < n) (id : Nat)
    (lea : TargetSet) :
    (new id a sec).process n code [] lea =
      some (ofRun id a sec run, runTargets run, runLea run lea) := by
  obtain ⟨a', hloop⟩ := whileLoop_of_straightLine h hn 0 [] lea
  unfold process
  show Option.map _ (whileLoop (fun st => some (processBody code sec st)) n ⟨a, 0, [], lea⟩) = _
  rw [hloop]
  simp [ofRun, new]

/-- Conversely, a loop that answers has followed a run. -/
theorem straightLine_of_whileLoop {n : Nat} {st st' : ProcessState}
    (h : whileLoop (fun st => some (processBody code sec st)) n st = some st') :
    ∃ run, StraightLine code sec st.instVa run := by
  induction n generalizing st with
  | zero => simp [whileLoop] at h
  | succ n ih =>
      cases hins : instructionAt code sec st.instVa with
      | none => exact ⟨[], .stop hins⟩
      | some ins =>
          cases hends : ins.endsTrace with
          | true => exact ⟨[(st.instVa, ins)], .last hins hends⟩
          | false =>
              have hbody : some (processBody code sec st) = some (.next
                  ⟨st.instVa + ins.length, st.size + ins.length,
                    st.genTargets ++ ins.genTargets st.instVa, ins.addLea st.leaTargets⟩) := by
                rw [processBody_eq, hins]
                simp [hends]
              rw [whileLoop_next hbody] at h
              obtain ⟨run, hrun⟩ := ih h
              exact ⟨(st.instVa, ins) :: run, .cons hins hends hrun⟩

/-- More fuel does not change what `process` answers. -/
theorem fuelMono_process (t : StaticTrace) (gen : List U32) (lea : TargetSet) :
    FuelMono (fun n => t.process n code gen lea) := by
  intro n m r hle h
  obtain ⟨st, hloop, rfl⟩ := Option.map_eq_some_iff.mp h
  show t.process m code gen lea = _
  unfold process
  rw [whileLoop_mono (fun _ _ hb => hb) hle hloop]
  rfl

/-- **`process` answers only with a run.** -/
theorem straightLine_of_process {n id : Nat} {a : U32} {lea : TargetSet}
    {r : StaticTrace × List U32 × TargetSet} (h : (new id a sec).process n code [] lea = some r) :
    ∃ run, StraightLine code sec a run ∧
      r = (ofRun id a sec run, runTargets run, runLea run lea) := by
  obtain ⟨st, hloop, -⟩ := Option.map_eq_some_iff.mp h
  obtain ⟨run, hrun⟩ : ∃ run, StraightLine code sec a run := straightLine_of_whileLoop hloop
  have hmono : FuelMono (fun n => (new id a sec).process n code [] lea) :=
    fuelMono_process (new id a sec) [] lea
  have hanswer := process_of_straightLine hrun (Nat.lt_succ_self run.length) id lea
  exact ⟨run, hrun, hmono.unique h hanswer⟩

end StaticTrace

end

end PEReplay
