/-
# PEReplay.Sweeper.Trampolines — the fast path for trampolines against the decoding paths.

`IsRangeComboTrampoline` takes the jumps `E9 rel32` off the front of a gap without decoding them
(`comboTrampoline_spec`).  What it adds to the pending targets is the displacement itself
(`trampolineAddr_eq`), where `StaticTrace::process` and `linearSweepGap` add it to the address
behind the jump (`decodedDestination_of_jmp`).  These are never equal in a gap, so no trampoline
gets the destination of its jump (`trampolines_disagree`).
-/
import PEReplay.Sweeper.LinearSweep

namespace PEReplay

open Loop

/-! ## The chain -/

/-- What the first `k` trampolines from `start` add. -/
def trampolineEvents (code : Code) (start : U32) (k : Nat) : List SweepEvent :=
  (List.range k).flatMap fun i =>
    [.pend (trampolineAddr code (start + BitVec.ofNat 32 (5 * i))),
      .assemble .trampoline (start + BitVec.ofNat 32 (5 * i)) 5]

/-- An opcode `E9` in the section. -/
def IsTrampoline (code : Code) (sec : CodeSection) (a : U32) : Prop :=
  sec.isAddrCode a = true ∧ code.mem a = 0xE9

section Chain

variable {code : Code} {sec : CodeSection}

theorem trampolineEvents_succ (start : U32) (k : Nat) : trampolineEvents code start (k + 1) =
    trampolineEvents code start k ++
      [.pend (trampolineAddr code (start + BitVec.ofNat 32 (5 * k))),
        .assemble .trampoline (start + BitVec.ofNat 32 (5 * k)) 5] := by
  unfold trampolineEvents
  rw [List.range_succ, List.flatMap_append, List.flatMap_cons, List.flatMap_nil, List.append_nil]

/-- `IsRangeSingleTrampoline` on a range. -/
theorem isRangeSingleTrampoline_of_le (code : Code) (sec : CodeSection) {start stop : U32}
    (hle : start.toNat ≤ stop.toNat) :
    (start.toNat + 5 ≤ stop.toNat ∧ IsTrampoline code sec start ∧
      isRangeSingleTrampoline code sec start stop = some (start + 5,
        [.pend (trampolineAddr code start), .assemble .trampoline start 5])) ∨
    (¬ (start.toNat + 5 ≤ stop.toNat ∧ IsTrampoline code sec start) ∧
      isRangeSingleTrampoline code sec start stop = none) := by
  unfold isRangeSingleTrampoline
  have hlen : stop - start ≥ 5 ↔ start.toNat + 5 ≤ stop.toNat := by bv_omega
  have hmax : start.toNat + 5 ≤ stop.toNat → start.toInt ≠ -1 := by
    intro hroom hneg
    have hstop := stop.isLt
    rw [BitVec.toInt_eq_toNat_cond] at hneg
    split_ifs at hneg
    omega
  split_ifs with h
  · exact Or.inl ⟨hlen.mp h.1, h.2.2, rfl⟩
  · refine Or.inr ⟨fun hall => h ?_, rfl⟩
    exact ⟨hlen.mpr hall.1, hmax hall.1, hall.2⟩

/-- The variables of `IsRangeComboTrampoline` after `k` trampolines. -/
def takenOff (code : Code) (start : U32) (k : Nat) : U32 × Bool × List SweepEvent :=
  (start + BitVec.ofNat 32 (5 * k), decide (0 < k), trampolineEvents code start k)

/-- The next trampoline is at `start + 5 * k`. -/
def NextTrampoline (code : Code) (sec : CodeSection) (start stop : U32) (k : Nat) : Prop :=
  start.toNat + 5 * k + 5 ≤ stop.toNat ∧ IsTrampoline code sec (start + BitVec.ofNat 32 (5 * k))

theorem toNat_add_five_mul {start stop : U32} {k : Nat} (h : start.toNat + 5 * k ≤ stop.toNat) :
    (start + BitVec.ofNat 32 (5 * k)).toNat = start.toNat + 5 * k := by
  have hstop := stop.isLt
  bv_omega

/-- **Step.** One more trampoline is taken off, or there is none. -/
theorem comboTrampolineBody_takenOff (code : Code) (sec : CodeSection) {start stop : U32} {k : Nat}
    (hk : start.toNat + 5 * k ≤ stop.toNat) :
    (NextTrampoline code sec start stop k ∧ comboTrampolineBody code sec stop
      (takenOff code start k) = .next (takenOff code start (k + 1))) ∨
    (¬ NextTrampoline code sec start stop k ∧ comboTrampolineBody code sec stop
      (takenOff code start k) = .exit (takenOff code start k)) := by
  have hat := toNat_add_five_mul hk
  unfold NextTrampoline comboTrampolineBody takenOff
  rw [← hat]
  rcases isRangeSingleTrampoline_of_le code sec (hat.trans_le hk) with
    ⟨hroom, htramp, hsingle⟩ | ⟨hnot, hsingle⟩
  · refine Or.inl ⟨⟨hroom, htramp⟩, ?_⟩
    have hadd : start + BitVec.ofNat 32 (5 * k) + 5 = start + BitVec.ofNat 32 (5 * (k + 1)) := by
      bv_omega
    rw [hsingle, hadd, trampolineEvents_succ]
    simp
  · exact Or.inr ⟨hnot, by rw [hsingle]⟩

/-- **`IsRangeComboTrampoline`** takes off all trampolines at the front of a range. -/
theorem comboTrampoline_spec (code : Code) (sec : CodeSection) {start stop : U32}
    (hle : start.toNat ≤ stop.toNat) : ∃ k, start.toNat + 5 * k ≤ stop.toNat ∧
      Computes (fun n => isRangeComboTrampoline n code sec start stop) (takenOff code start k) ∧
      (∀ i < k, NextTrampoline code sec start stop i) ∧ ¬ NextTrampoline code sec start stop k := by
  have htotal : ∃ r : U32 × Bool × List SweepEvent,
      Computes (fun n => whileLoop (fun st => some (comboTrampolineBody code sec stop st)) n
        (start, false, [])) r ∧
      ∃ k, start.toNat + 5 * k ≤ stop.toNat ∧ r = takenOff code start k ∧
        (∀ i < k, NextTrampoline code sec start stop i) ∧
          ¬ NextTrampoline code sec start stop k := by
    apply total_rule (fun st => stop.toNat - st.1.toNat)
      (fun st => ∃ k, start.toNat + 5 * k ≤ stop.toNat ∧ st = takenOff code start k ∧
        ∀ i < k, NextTrampoline code sec start stop i)
    · rintro _ ⟨k, hk, rfl, hall⟩
      rcases comboTrampolineBody_takenOff code sec hk with ⟨hnext, hbody⟩ | ⟨hnone, hbody⟩
      · rw [hbody]
        have hroom : start.toNat + 5 * (k + 1) ≤ stop.toNat := hnext.1
        refine Or.inr ⟨_, computes_some _, ?_, k + 1, hroom, rfl, fun i hi => ?_⟩
        · have hat := toNat_add_five_mul hk
          have hat' := toNat_add_five_mul hroom
          unfold takenOff
          dsimp only
          omega
        · rcases Nat.lt_succ_iff_lt_or_eq.mp hi with hi | rfl
          · exact hall i hi
          · exact hnext
      · rw [hbody]
        exact Or.inl ⟨_, computes_some _, k, hk, rfl, hall, hnone⟩
    · refine ⟨0, hle, ?_, fun i hi => absurd hi (Nat.not_lt_zero i)⟩
      simp [takenOff, trampolineEvents]
  obtain ⟨r, hr, k, hk, rfl, hall, hmax⟩ := htotal
  exact ⟨k, hk, hr, hall, hmax⟩

end Chain

/-! ## The destination of the jump -/

/-- What the decoder makes of `E9 rel32`: a `jmp` of five bytes whose immediate operand is the
displacement. -/
def DecodesJmp (code : Code) (a : U32) : Prop :=
  ∃ ins, code.getInstruction a = some ins ∧ ins.length = 5 ∧ ins.type = .jmp ∧
    ins.op1.type = .immediate ∧ ins.op1.immbytes = 4 ∧ ins.op1.immediate = code.mem.read32 (a + 1)

/-- **Both decoding paths compute `dest`** as the destination of the jump at `a`:
`StaticTrace::process` generates it, and a pass of the linear sweep adds it before the trace. -/
def DecodedDestination (code : Code) (sec : CodeSection) (a dest : U32) : Prop :=
  (∀ id lea, ∃ r, Computes (fun n => (StaticTrace.new id a sec).process n code [] lea) r ∧
    r.2.1 = [dest]) ∧
  ∀ st : SweepState, st.instPre = a → (sweepInstruction code sec st).events =
    st.events ++ [.pend dest, .assemble .jmp st.traceStart (a + 5 - st.traceStart)]

/-- The address behind the jump, plus its displacement. -/
def jmpDestination (code : Code) (a : U32) : U32 := a + 5 + code.mem.read32 (a + 1)

section Destination

variable {code : Code} {sec : CodeSection}

/-- The four bytes are the displacement. -/
theorem trampolineAddr_eq (code : Code) (a : U32) :
    trampolineAddr code a = code.mem.read32 (a + 1) := by
  apply BitVec.eq_of_toNat_eq
  have h0 := (code.mem (a + 1)).isLt
  have h1 := (code.mem (a + 2)).isLt
  have h2 := (code.mem (a + 3)).isLt
  have h3 := (code.mem (a + 4)).isLt
  have e1 : a + 1 + 1 = a + 2 := by bv_omega
  have e2 : a + 1 + 2 = a + 3 := by bv_omega
  have e3 : a + 1 + 3 = a + 4 := by bv_omega
  rw [Memory.toNat_read32, e1, e2, e3]
  unfold trampolineAddr
  simp only [BitVec.toNat_add, BitVec.toNat_shiftLeft, BitVec.toNat_setWidth, Nat.shiftLeft_eq]
  omega

/-- The decoding paths add the displacement to the address behind the jump. -/
theorem decodedDestination_of_jmp {a : U32} (hcode : sec.isAddrCode a = true)
    (hjmp : DecodesJmp code a) :
    DecodedDestination code sec a (jmpDestination code a) := by
  obtain ⟨ins, hget, hlen, htype, himm, hbytes, hdisp⟩ := hjmp
  have hins : instructionAt code sec a = some ins := by
    unfold instructionAt
    rw [if_pos hcode, hget]
  have hends : ins.endsTrace = true := by
    rw [Instruction.endsTrace, htype]
  have hdirect : ins.directTarget a = [jmpDestination code a] := by
    unfold Instruction.directTarget Operand.getImmediate jmpDestination
    rw [if_pos himm, hbytes, if_pos (by decide), hlen, hdisp]
  constructor
  · intro id lea
    have hrun : StraightLine code sec a [(a, ins)] := .last hins hends
    refine ⟨_, ⟨2, fun n hn => StaticTrace.process_of_straightLine hrun hn id lea⟩, ?_⟩
    simp [runTargets, Instruction.genTargets, htype, hdirect]
  · rintro st rfl
    rw [sweepInstruction_of_some hins, if_pos hends]
    simp [Instruction.sweepTargets, Instruction.endCause, htype, hdirect, hlen]

/-- In a gap the address behind the jump is not zero. -/
theorem trampolineAddr_ne {a stop : U32} (hroom : a.toNat + 5 ≤ stop.toNat) :
    trampolineAddr code a ≠ jmpDestination code a := by
  intro heq
  have hstop := stop.isLt
  rw [trampolineAddr_eq, jmpDestination] at heq
  generalize code.mem.read32 (a + 1) = disp at heq
  bv_omega

/-- **No trampoline gets the destination of its jump.**  In a gap of at least five bytes whose first
byte is `E9` a chain of trampolines is taken off; at each of them both decoding paths compute the
address behind the jump plus the displacement, and the fast path adds another address. -/
theorem trampolines_disagree (code : Code) (sec : CodeSection) (start stop : U32)
    (hcode : sec.isAddrCode start = true) (hroom : start.toNat + 5 ≤ stop.toNat)
    (hopcode : code.mem start = 0xE9)
    (hdecodes : ∀ a, IsTrampoline code sec a → DecodesJmp code a) :
    isRangeSingleTrampoline code sec start stop = some (start + 5,
      [.pend (trampolineAddr code start), .assemble .trampoline start 5]) ∧
    ∃ k, 0 < k ∧
      Computes (fun n => isRangeComboTrampoline n code sec start stop) (takenOff code start k) ∧
      ∀ i < k, ∀ a, a = start + BitVec.ofNat 32 (5 * i) →
        DecodedDestination code sec a (jmpDestination code a) ∧
          trampolineAddr code a ≠ jmpDestination code a := by
  have hle : start.toNat ≤ stop.toNat := by omega
  have hfirst : IsTrampoline code sec start := ⟨hcode, hopcode⟩
  constructor
  · rcases isRangeSingleTrampoline_of_le code sec hle with ⟨-, -, hsingle⟩ | ⟨hnot, -⟩
    · exact hsingle
    · exact absurd ⟨hroom, hfirst⟩ hnot
  · obtain ⟨k, -, hcombo, hall, hmax⟩ := comboTrampoline_spec code sec hle
    refine ⟨k, Nat.pos_of_ne_zero ?_, hcombo, ?_⟩
    · rintro rfl
      apply hmax
      exact ⟨hroom, by simpa using hfirst⟩
    · rintro i hi a rfl
      obtain ⟨hroom', htramp⟩ := hall i hi
      have hat := toNat_add_five_mul (Nat.le_of_add_right_le hroom')
      rw [← hat] at hroom'
      exact ⟨decodedDestination_of_jmp htramp.1 (hdecodes _ htramp), trampolineAddr_ne hroom'⟩

end Destination

section Samples

theorem trampoline_length_pos : 0 < (5 : U32).toNat := Nat.succ_pos 4

/-- `jmp` with the offset 5. -/
def trampolineInstruction : Instruction where
  length := 5
  type := .jmp
  op1 := ⟨.immediate, libdasmRegisterNop, libdasmRegisterNop, 0, 4, 0, 5⟩
  op2 := CodeSectionSweeper.noOperand
  length_pos := trampoline_length_pos

/-- `E9 05 00 00 00`, and nothing but `ret` behind it. -/
def trampolineCode : Code where
  mem := fun a =>
    if a = 0x1000 then 0xE9 else if a = 0x1001 then 0x05 else if a < 0x1005 then 0 else 0xC3
  getInstruction := fun a =>
    some (if a = 0x1000 then trampolineInstruction else CodeSectionSweeper.retInstruction)

/-- Sixteen bytes at `0x1000`. -/
def trampolineSection : CodeSection := ⟨0x1000, 16, by decide⟩

theorem trampolines_disagree_sample : ∃ k, 0 < k ∧
    Computes (fun n => isRangeComboTrampoline n trampolineCode trampolineSection 0x1000 0x1010)
      (takenOff trampolineCode 0x1000 k) ∧
    trampolineAddr trampolineCode 0x1000 ≠ jmpDestination trampolineCode 0x1000 := by
  have hdecodes : ∀ a, IsTrampoline trampolineCode trampolineSection a →
      DecodesJmp trampolineCode a := by
    intro a ha
    have hopcode : trampolineCode.mem a = 0xE9 := ha.2
    by_cases hat : a = 0x1000
    · subst hat
      exact ⟨trampolineInstruction, rfl, rfl, rfl, rfl, rfl, rfl⟩
    · unfold trampolineCode at hopcode
      dsimp only at hopcode
      rw [if_neg hat] at hopcode
      split_ifs at hopcode <;> exact absurd hopcode (by decide)
  obtain ⟨-, k, hk, hcombo, hall⟩ := trampolines_disagree trampolineCode trampolineSection 0x1000
    0x1010 (by decide) (by decide) (by decide) hdecodes
  exact ⟨k, hk, hcombo, (hall 0 hk 0x1000 rfl).2⟩

/-- The fast path adds the address 5, the decoding paths add `0x100A`. -/
theorem trampoline_pends_displacement :
    isRangeSingleTrampoline trampolineCode trampolineSection 0x1000 0x1010 =
      some (0x1005, [.pend 5, .assemble .trampoline 0x1000 5]) ∧
    ((StaticTrace.new 0 0x1000 trampolineSection).process 9 trampolineCode [] ∅).map
      (fun r => r.2.1) = some [0x100A] ∧
    ∃ after, linearSweepGap 9 trampolineCode trampolineSection 0x1000 0x1006 =
      some (.pend 0x100A :: after) := by
  refine ⟨by decide, by decide, [.assemble .jmp 0x1000 5, .assemble .ret 0x1005 1], ?_⟩
  decide

end Samples

end PEReplay
