/-
# PEReplay.Sweeper.Justify — the verdict on a trace.

`justifyTrace` decodes a range from its start and takes the trace for valid when nothing stops it
before the end: no padding, nothing that does not decode, no JMP, CALL or RET.  The cursor is an
address, but the loop compares it with the size of the range.  So it sees only the cursors below
that number (`StoppedBelow`), and where sections are mapped there are none (`justifyTrace_of_le`).
-/
import PEReplay.Sweeper.Padding
import PEReplay.Sweeper.Explore

namespace PEReplay

open Loop

namespace CodeSectionSweeper

/-! ## `justifyTrace` -/

/-- One pass of the loop, with the cursor `inst_pre`. -/
def justifyBody (code : Code) (sec : CodeSection) (traceSize traceEnd instPre : U32) :
    LoopStep U32 Bool :=
  if instPre < traceSize then
    let (padding, instPre) := isRangeAlignPaddingStart code sec instPre traceEnd
    if padding then .exit false
    else
      match (if sec.isAddrCode instPre then code.getInstruction instPre else none) with
      | none => .exit false
      | some ins =>
        let instPost := instPre + ins.length
        match ins.type with
        | .jmp | .call | .ret => .exit false
        | .jmpc | .jecxz | .loop | .lea | .other => .next instPost
  else .exit true

/-- `CodeSectionSweeper::justifyTrace`, with at most `n` passes. -/
def justifyTrace (n : Nat) (code : Code) (s : CodeSectionSweeper) (traceStart traceSize : U32) :
    Option Bool :=
  whileLoop (fun instPre => some
    (justifyBody code s.codeSection traceSize (traceStart + traceSize) instPre)) n traceStart

end CodeSectionSweeper

/-! ## What it should say -/

/-- Decoding goes on at `c`, with an instruction of the section that is neither padding nor a
JMP, CALL or RET. -/
structure GoesOn (code : Code) (sec : CodeSection) (c : U32) (ins : Instruction) : Prop where
  decodes : instructionAt code sec c = some ins
  noPadding : code.mem c ≠ int3
  noTransfer : ins.endsTrace = false

/-- Decoding goes on from `c` until the cursor reaches or passes `stop`. -/
inductive Proceeds (code : Code) (sec : CodeSection) (stop : U32) : U32 → Prop where
  | done {c : U32} : stop ≤ c → Proceeds code sec stop c
  | step {c : U32} {ins : Instruction} : c < stop → GoesOn code sec c ins →
      Proceeds code sec stop (c + ins.length) → Proceeds code sec stop c

/-- What makes the loop reject the trace at a cursor: padding that the guard of
`IsRangeAlignPaddingStart` lets through, or no instruction, or one that ends a trace. -/
def StopsAt (code : Code) (sec : CodeSection) (stop c : U32) : Prop :=
  (IsPad code sec c ∧ ¬ badRange c stop) ∨
    ∀ ins, instructionAt code sec c = some ins → ins.endsTrace = true

/-- Decoding from `c` is stopped, and all cursors up to that one are below `bound`. -/
inductive StoppedBelow (code : Code) (sec : CodeSection) (bound stop : U32) : U32 → Prop where
  | here {c : U32} : c < bound → StopsAt code sec stop c → StoppedBelow code sec bound stop c
  | next {c : U32} {ins : Instruction} : c < bound → instructionAt code sec c = some ins →
      ins.endsTrace = false → StoppedBelow code sec bound stop (c + ins.length) →
      StoppedBelow code sec bound stop c

section Justify

variable {code : Code} {sec : CodeSection} {bound stop c : U32}

theorem GoesOn.not_stopsAt {ins : Instruction} (h : GoesOn code sec c ins) :
    ¬ StopsAt code sec stop c := by
  rintro (⟨hpad, -⟩ | hends)
  · exact h.noPadding hpad.2
  · have hend := hends ins h.decodes
    rw [h.noTransfer] at hend
    exact absurd hend (by simp)

/-- The helper finds padding at the cursor, unless its guard refuses the range. -/
theorem paddingStart_iff (hlt : c.toNat < stop.toNat) :
    (isRangeAlignPaddingStart code sec c stop).1 = true ↔ IsPad code sec c ∧ ¬ badRange c stop := by
  obtain ⟨j, -, heq, hall, hmax, hbad⟩ := paddingStart_spec code sec (le_of_lt hlt)
  rw [heq, decide_eq_true_eq]
  constructor
  · intro hpos
    have hpad := hall 0 hpos
    rw [BitVec.add_zero] at hpad
    exact ⟨hpad, fun h => absurd (hbad h) (Nat.pos_iff_ne_zero.mp hpos)⟩
  · rintro ⟨hpad, hnot⟩
    by_contra hzero
    obtain rfl : j = 0 := by omega
    have hnopad := hmax hnot (by omega)
    rw [BitVec.add_zero] at hnopad
    exact hnopad hpad

/-- Where it finds none the cursor stays. -/
theorem paddingStart_of_false (hle : c.toNat ≤ stop.toNat)
    (h : (isRangeAlignPaddingStart code sec c stop).1 = false) :
    isRangeAlignPaddingStart code sec c stop = (false, c) := by
  obtain ⟨j, -, heq, -⟩ := paddingStart_spec code sec hle
  rw [heq] at h ⊢
  have hzero : j = 0 := by
    have hnot := of_decide_eq_false h
    omega
  rw [hzero, BitVec.add_zero]
  rfl

namespace CodeSectionSweeper

theorem justifyBody_done (h : ¬ c < bound) : justifyBody code sec bound stop c = .exit true :=
  if_neg h

theorem justifyBody_stops (hc : c < bound) (hbound : bound.toNat ≤ stop.toNat)
    (h : StopsAt code sec stop c) : justifyBody code sec bound stop c = .exit false := by
  have hlt : c.toNat < stop.toNat := lt_of_lt_of_le hc hbound
  unfold justifyBody
  rw [if_pos hc]
  cases hpad : (isRangeAlignPaddingStart code sec c stop).1 with
  | true => simp only [hpad, if_true]
  | false =>
      -- no padding is found, so no instruction is, or one that ends a trace
      have hends := h.resolve_left fun hstop => by
        rw [(paddingStart_iff hlt).mpr hstop] at hpad
        exact absurd hpad (by simp)
      rw [paddingStart_of_false hlt.le hpad]
      simp only [Bool.false_eq_true, if_false]
      rw [show (if sec.isAddrCode c = true then code.getInstruction c else none) =
        instructionAt code sec c from rfl]
      cases hins : instructionAt code sec c with
      | none => rfl
      | some ins =>
          have hend := hends ins hins
          cases htype : ins.type <;> simp [Instruction.endsTrace, htype] at hend ⊢

theorem justifyBody_next {ins : Instruction} (hc : c < bound) (hbound : bound.toNat ≤ stop.toNat)
    (hins : instructionAt code sec c = some ins) (hgoes : ins.endsTrace = false)
    (h : ¬ StopsAt code sec stop c) :
    justifyBody code sec bound stop c = .next (c + ins.length) := by
  have hlt : c.toNat < stop.toNat := lt_of_lt_of_le hc hbound
  have hpad : (isRangeAlignPaddingStart code sec c stop).1 = false := by
    rw [← Bool.not_eq_true, paddingStart_iff hlt]
    exact fun hstop => h (Or.inl hstop)
  unfold justifyBody
  rw [if_pos hc, paddingStart_of_false hlt.le hpad]
  simp only [Bool.false_eq_true, if_false]
  rw [show (if sec.isAddrCode c = true then code.getInstruction c else none) =
    instructionAt code sec c from rfl, hins]
  cases htype : ins.type <;> simp [Instruction.endsTrace, htype] at hgoes ⊢

/-! ## Runs -/

/-- The loop from a cursor, with any fuel. -/
def JustifiesFrom (code : Code) (sec : CodeSection) (bound stop c : U32) (b : Bool) : Prop :=
  Computes (fun n => whileLoop (fun c => some (justifyBody code sec bound stop c)) n c) b

theorem justifiesFrom_exit {b : Bool} (h : justifyBody code sec bound stop c = .exit b) :
    JustifiesFrom code sec bound stop c b := by
  refine ⟨1, fun m hm => ?_⟩
  obtain ⟨m, rfl⟩ : ∃ k, m = k + 1 := ⟨m - 1, by omega⟩
  apply whileLoop_exit
  rw [h]

theorem justifiesFrom_next {b : Bool} {c' : U32} (h : justifyBody code sec bound stop c = .next c')
    (hrest : JustifiesFrom code sec bound stop c' b) : JustifiesFrom code sec bound stop c b := by
  obtain ⟨n, hn⟩ := hrest
  refine ⟨n + 1, fun m hm => ?_⟩
  obtain ⟨m, rfl⟩ : ∃ k, m = k + 1 := ⟨m - 1, by omega⟩
  have hbody : (fun c => some (justifyBody code sec bound stop c)) c = some (.next c') := by
    dsimp only
    rw [h]
  exact (whileLoop_next hbody).trans (hn m (by omega))

/-- **A decode that proceeds is accepted**, at the first cursor that is not below the bound. -/
theorem justifiesFrom_of_proceeds (hbound : bound.toNat ≤ stop.toNat)
    (h : Proceeds code sec stop c) : JustifiesFrom code sec bound stop c true := by
  induction h with
  | @done c hdone =>
      apply justifiesFrom_exit
      apply justifyBody_done
      exact not_lt.mpr (le_trans hbound hdone)
  | @step c ins _ hgoes _ ih =>
      by_cases hc : c < bound
      · exact justifiesFrom_next
          (justifyBody_next hc hbound hgoes.decodes hgoes.noTransfer hgoes.not_stopsAt) ih
      · exact justifiesFrom_exit (justifyBody_done hc)

/-- **A decode that is stopped below the bound is rejected.** -/
theorem justifiesFrom_of_stoppedBelow (hbound : bound.toNat ≤ stop.toNat)
    (h : StoppedBelow code sec bound stop c) : JustifiesFrom code sec bound stop c false := by
  induction h with
  | here hc hstops => exact justifiesFrom_exit (justifyBody_stops hc hbound hstops)
  | @next c ins hc hins hgoes _ ih =>
      by_cases hstops : StopsAt code sec stop c
      · exact justifiesFrom_exit (justifyBody_stops hc hbound hstops)
      · exact justifiesFrom_next (justifyBody_next hc hbound hins hgoes hstops) ih

/-- Nothing else is rejected. -/
theorem stoppedBelow_of_whileLoop (hbound : bound.toNat ≤ stop.toNat) {n : Nat}
    (h : whileLoop (fun c => some (justifyBody code sec bound stop c)) n c = some false) :
    StoppedBelow code sec bound stop c := by
  induction n generalizing c with
  | zero => exact absurd h (by simp [whileLoop])
  | succ n ih =>
      by_cases hc : c < bound
      · by_cases hstops : StopsAt code sec stop c
        · exact .here hc hstops
        · obtain ⟨ins, hins, hends⟩ : ∃ ins, instructionAt code sec c = some ins ∧
              ¬ ins.endsTrace = true := by
            by_contra hnone
            refine hstops (Or.inr fun ins hins => ?_)
            by_contra hends
            exact hnone ⟨ins, hins, hends⟩
          have hgoes : ins.endsTrace = false := Bool.eq_false_iff.mpr hends
          have hbody : (fun c => some (justifyBody code sec bound stop c)) c =
              some (.next (c + ins.length)) := by
            dsimp only
            rw [justifyBody_next hc hbound hins hgoes hstops]
          exact .next hc hins hgoes (ih ((whileLoop_next hbody).symm.trans h))
      · have hbody : (fun c => some (justifyBody code sec bound stop c)) c = some (.exit true) := by
          dsimp only
          rw [justifyBody_done hc]
        rw [whileLoop_exit hbody] at h
        exact absurd h (by simp)

/-- **When the verdict is right.**  On a range that does not wrap, `justifyTrace` returns whether
decoding proceeds to its end exactly when it does, or is stopped below the size of the range. -/
theorem justifyTrace_iff (code : Code) (s : CodeSectionSweeper) (traceStart traceSize : U32)
    (hfits : traceStart.toNat + traceSize.toNat < 2 ^ 32) :
    (∃ b, Computes (fun n => s.justifyTrace n code traceStart traceSize) b ∧
      (b = true ↔ Proceeds code s.codeSection (traceStart + traceSize) traceStart)) ↔
    Proceeds code s.codeSection (traceStart + traceSize) traceStart ∨
      StoppedBelow code s.codeSection traceSize (traceStart + traceSize) traceStart := by
  have hbound : traceSize.toNat ≤ (traceStart + traceSize).toNat := by bv_omega
  constructor
  · rintro ⟨b, ⟨n, hn⟩, hiff⟩
    cases b with
    | true => exact Or.inl (hiff.mp rfl)
    | false => exact Or.inr (stoppedBelow_of_whileLoop hbound (hn n le_rfl))
  · rintro (hproceeds | hstopped)
    · exact ⟨true, justifiesFrom_of_proceeds hbound hproceeds, iff_of_true rfl hproceeds⟩
    · have hfalse := justifiesFrom_of_stoppedBelow hbound hstopped
      refine ⟨false, hfalse, iff_of_false (by simp) fun hproceeds => ?_⟩
      exact absurd (hfalse.unique (justifiesFrom_of_proceeds hbound hproceeds)) (by simp)

/-- **A range whose size is not above its start is accepted unseen**, as every range of a mapped
section is. -/
theorem justifyTrace_of_le (code : Code) (s : CodeSectionSweeper) {traceStart traceSize : U32}
    (hle : traceSize ≤ traceStart) :
    Computes (fun n => s.justifyTrace n code traceStart traceSize) true :=
  justifiesFrom_exit (justifyBody_done (BitVec.not_lt.mpr hle))

theorem justifyTrace_iff_sample :
    (∃ b, Computes (fun n => sampleSweeper.justifyTrace n retCode 0x1000 4) b ∧
      (b = true ↔ Proceeds retCode sampleSweeper.codeSection (0x1000 + 4) 0x1000)) ↔
    Proceeds retCode sampleSweeper.codeSection (0x1000 + 4) 0x1000 ∨
      StoppedBelow retCode sampleSweeper.codeSection 4 (0x1000 + 4) 0x1000 :=
  justifyTrace_iff retCode sampleSweeper 0x1000 4 (by decide)

/-- A `ret` is taken for a consecutive trace. -/
theorem ret_justified : Computes (fun n => sampleSweeper.justifyTrace n retCode 0x1000 4) true ∧
    ¬ Proceeds retCode sampleSweeper.codeSection (0x1000 + 4) 0x1000 ∧
    ¬ ∃ b, Computes (fun n => sampleSweeper.justifyTrace n retCode 0x1000 4) b ∧
      (b = true ↔ Proceeds retCode sampleSweeper.codeSection (0x1000 + 4) 0x1000) := by
  have htrue : Computes (fun n => sampleSweeper.justifyTrace n retCode 0x1000 4) true :=
    justifyTrace_of_le retCode sampleSweeper (by decide)
  have hnot : ¬ Proceeds retCode sampleSweeper.codeSection (0x1000 + 4) 0x1000 := by
    intro h
    cases h with
    | done hdone => exact absurd hdone (by decide)
    | step _ hgoes _ =>
        have hret := hgoes.decodes
        obtain rfl := Option.some.inj hret
        exact absurd hgoes.noTransfer (by decide)
  refine ⟨htrue, hnot, ?_⟩
  rintro ⟨b, hb, hiff⟩
  obtain rfl := hb.unique htrue
  exact hnot (hiff.mp rfl)

end CodeSectionSweeper

end Justify

end PEReplay
