/-
# PEReplay.Libdasm.Address — a memory operand means the address that the processor computes.

`get_operand` leaves a base, an index, a scale and a displacement.  `Operand.address` adds them up
as libdasm prints them; it is the address of the processor's own forms, for every ModRM, SIB and
displacement, in both address sizes and whatever is in the registers.
-/
import Mathlib.Tactic.IntervalCases
import PEReplay.Lib.X86Address
import PEReplay.Libdasm.Layout

namespace PEReplay
namespace Libdasm

open Decoder

/-! ## Fields -/

set_option maxRecDepth 4000 in
theorem maskModrmMod_eq (x : U8) : maskModrmMod x = X86.modField x := by
  revert x
  decide

set_option maxRecDepth 4000 in
theorem maskModrmReg_eq (x : U8) : maskModrmReg x = X86.regField x := by
  revert x
  decide

set_option maxRecDepth 4000 in
theorem maskModrmRm_eq (x : U8) : maskModrmRm x = X86.rmField x := by
  revert x
  decide

/-! ## The address of an operand -/

/-- A register of an operand: `LIBDASM_REG_NOP` adds nothing. -/
def regVal (regs : Nat → U32) (r : Nat) : U32 := if r = libdasmRegisterNop then 0 else regs r

/-- No scale is a scale of one. -/
def scaleVal (scale : Nat) : U32 := if scale = 0 then 1 else BitVec.ofNat 32 scale

/-- `[basereg+indexreg*scale+displacement]` -/
def Operand.address (regs : Nat → U32) (op : Operand) : U32 :=
  regVal regs op.basereg + regVal regs op.indexreg * scaleVal op.scale +
    if op.dispbytes ≠ 0 then op.displacement else 0

/-- The bytes of a buffer. -/
def cells (l : List U8) (i : Nat) : U8 := l.getD i 0

theorem cells_eq {l : List U8} {i : Nat} {b : U8} (h : l[i]? = some b) : cells l i = b := by
  simp [cells, List.getD, h]

theorem fetch16_cells {l : List U8} {i n : Nat} {x : U16} (h : (fetch16 i).Accepts l x n) :
    x = X86.disp16 (cells l) i := by
  simp only [fetch16, accepts_bind, accepts_fetch, accepts_pure] at h
  obtain ⟨lo, _, _, ⟨hlo, rfl⟩, ⟨hi, _, _, ⟨hhi, rfl⟩, ⟨rfl, rfl⟩, rfl⟩, rfl⟩ := h
  rw [X86.disp16, cells_eq hlo, cells_eq hhi]

theorem fetch32_cells {l : List U8} {i n : Nat} {x : U32} (h : (fetch32 i).Accepts l x n) :
    x = X86.disp32 (cells l) i := by
  simp only [fetch32, accepts_bind, accepts_pure] at h
  obtain ⟨lo, _, _, hlo, ⟨hi, _, _, hhi, ⟨rfl, rfl⟩, rfl⟩, rfl⟩ := h
  rw [fetch16_cells hlo, fetch16_cells hhi]
  rfl

/-- A displacement of so many bytes. -/
def displacementAt (l : List U8) (d i : Nat) : U32 :=
  match d with
  | 1 => X86.disp8 (cells l) i
  | 2 => (X86.disp16 (cells l) i).setWidth 32
  | 4 => X86.disp32 (cells l) i
  | _ => 0

theorem fetchDisplacement_cells {l : List U8} {d i n : Nat} {x : U32}
    (h : (fetchDisplacement d i).Accepts l x n) : x = displacementAt l d i := by
  unfold fetchDisplacement at h
  split at h
  · simp only [accepts_bind, accepts_fetch, accepts_pure] at h
    obtain ⟨b, _, _, ⟨hb, rfl⟩, ⟨rfl, rfl⟩, rfl⟩ := h
    simp only [signExtendByte_setWidth, displacementAt, X86.disp8, cells_eq hb]
  · simp only [accepts_bind, accepts_pure] at h
    obtain ⟨w, _, _, hw, ⟨rfl, rfl⟩, rfl⟩ := h
    simp only [fetch16_cells hw, displacementAt]
  · exact fetch32_cells h
  · rename_i h1 h2 h4
    obtain ⟨rfl, -⟩ := accepts_pure.mp h
    unfold displacementAt
    split
    · exact absurd rfl h1
    · exact absurd rfl h2
    · exact absurd rfl h4
    · rfl

/-! ## Memory operands -/

/-- The memory operand of a form. -/
structure Form.Shown (l : List U8) (offset : Nat) (form : Form) (op : Operand) : Prop where
  basereg : op.basereg = form.basereg
  indexreg : op.indexreg = form.indexreg
  scale : op.scale = form.scale
  dispbytes : op.dispbytes = form.dispbytes
  displacement : op.displacement = displacementAt l form.dispbytes (offset + form.header)
  memory : form.basereg ≠ libdasmRegisterNop →
    ∀ addr, l[offset]? = some addr → maskModrmMod addr ≠ 3

theorem accepts_modrmOperand_memory {form : Form} {ins ins' : Instruction} {op op' : Operand}
    {offset : Nat} {l : List U8} {n : Nat}
    (h : (modrmOperand form ins op offset).Accepts l (ins', op') n) (hmem : op'.type = .memory) :
    form.Shown l offset op' := by
  simp only [modrmOperand, accepts_bind] at h
  obtain ⟨x, m, k, hx, h, rfl⟩ := h
  have hstart : offset + 1 + (if form.sib then 1 else 0) = offset + form.header := by
    unfold Form.header
    split <;> omega
  rw [hstart] at hx
  have hx := fetchDisplacement_cells hx
  split at h
  · simp only [accepts_bind, accepts_fetch] at h
    obtain ⟨addr, _, _, ⟨haddr, rfl⟩, h, rfl⟩ := h
    split at h
    · simp only [accepts_pure, Prod.mk.injEq] at h
      obtain ⟨⟨rfl, rfl⟩, rfl⟩ := h
      cases hmem
    · rename_i hmod
      simp only [accepts_pure, Prod.mk.injEq] at h
      obtain ⟨⟨rfl, rfl⟩, rfl⟩ := h
      refine ⟨rfl, rfl, rfl, rfl, hx, fun _ addr' haddr' => ?_⟩
      obtain rfl := Option.some.inj (haddr.symm.trans haddr')
      exact hmod
  · rename_i hbase
    simp only [accepts_pure, Prod.mk.injEq] at h
    obtain ⟨⟨rfl, rfl⟩, rfl⟩ := h
    exact ⟨rfl, rfl, rfl, rfl, hx, fun hne => absurd hne hbase⟩

theorem modrmOperand_flags {form : Form} {ins ins' : Instruction} {op op' : Operand}
    {offset : Nat} {l : List U8} {n : Nat}
    (h : (modrmOperand form ins op offset).Accepts l (ins', op') n) : op'.flags = op.flags := by
  simp only [modrmOperand, accepts_bind] at h
  obtain ⟨x, m, k, hx, h, rfl⟩ := h
  split at h
  · simp only [accepts_bind, accepts_fetch] at h
    obtain ⟨addr, _, _, ⟨haddr, rfl⟩, h, rfl⟩ := h
    split at h <;>
    · simp only [accepts_pure, Prod.mk.injEq] at h
      obtain ⟨⟨rfl, rfl⟩, rfl⟩ := h
      rfl
  · simp only [accepts_pure, Prod.mk.injEq] at h
    obtain ⟨⟨rfl, rfl⟩, rfl⟩ := h
    rfl

/-- The operand keeps the flags it was parsed by, and a memory operand in the ModRM byte shows the
form of that byte. -/
theorem accepts_operandBy_memory {inst : Inst} {oflags : U32} {form : Form}
    {ins ins' : Instruction} {op op' : Operand} {offset : Nat} {mode : Mode} {iflags : U32}
    {l : List U8} {n : Nat} (hflags : op.flags = oflags)
    (h : (operandBy inst oflags form ins op offset mode iflags).Accepts l (ins', op') n) :
    op'.flags = oflags ∧
      ((maskAm oflags).usesModrm → op'.type = .memory → form.Shown l offset op') := by
  unfold operandBy at h
  generalize maskAm oflags = am at *
  cases am with
  | e | q | w =>
    exact ⟨(modrmOperand_flags h).trans hflags, fun _ => accepts_modrmOperand_memory h⟩
  | m | r =>
    simp only [accepts_bind, accepts_fetch] at h
    obtain ⟨addr, _, k, ⟨-, rfl⟩, h, rfl⟩ := h
    split at h
    · exact absurd h not_accepts_refuse
    · exact ⟨(modrmOperand_flags h).trans hflags, fun _ => accepts_modrmOperand_memory h⟩
  | i | j =>
    simp only [immediateOperand, accepts_bind, accepts_pure, Prod.mk.injEq] at h
    obtain ⟨x, _, _, -, ⟨⟨rfl, rfl⟩, rfl⟩, rfl⟩ := h
    exact ⟨hflags, fun hu => by cases hu⟩
  | a =>
    simp only [farOperand, accepts_bind, accepts_pure, Prod.mk.injEq] at h
    obtain ⟨x, _, _, -, ⟨seg, _, _, -, ⟨⟨rfl, rfl⟩, rfl⟩, rfl⟩, rfl⟩ := h
    exact ⟨hflags, fun hu => by cases hu⟩
  | o =>
    simp only [plainOperand, accepts_bind, accepts_pure, Prod.mk.injEq] at h
    obtain ⟨x, _, _, -, ⟨⟨rfl, rfl⟩, rfl⟩, rfl⟩ := h
    exact ⟨hflags, fun hu => by cases hu⟩
  | c | d | g | p | s | t | v =>
    simp only [accepts_pure, Prod.mk.injEq] at h
    obtain ⟨⟨rfl, rfl⟩, rfl⟩ := h
    exact ⟨hflags, fun _ hmem => by cases hmem⟩
  | i1 | reg | ind | unlisted =>
    simp only [accepts_pure, Prod.mk.injEq] at h
    obtain ⟨⟨rfl, rfl⟩, rfl⟩ := h
    exact ⟨hflags, fun hu => by cases hu⟩

/-- The ModRM byte at the offset has a form, and the operand shows it. -/
def ShowsForm (l : List U8) (offset : Nat) (pmode : Mode) (op : Operand) : Prop :=
  op.type = .memory → (maskAm op.flags).usesModrm →
    ∃ form, FormAt l offset pmode form ∧ form.Shown l offset op

theorem accepts_getOperand_memory {inst : Inst} {oflags : U32} {ins ins' : Instruction}
    {op : Operand} {offset : Nat} {mode : Mode} {iflags : U32} {l : List U8} {n : Nat}
    (hfits : ∀ am ∈ methodOf oflags, Fits inst am)
    (h : (getOperand inst oflags ins offset mode iflags).Accepts l (ins', op) n) :
    ShowsForm l (if inst.modrm then offset else 0) (modeCheckAddr mode iflags) op := by
  intro hmem hu
  unfold getOperand at h
  split at h
  · simp only [accepts_pure, Prod.mk.injEq] at h
    obtain ⟨⟨rfl, rfl⟩, rfl⟩ := h
    cases hmem
  · rename_i hflags
    simp only [accepts_bind] at h
    obtain ⟨⟨ins₁, form⟩, m, k, hm, hk, rfl⟩ := h
    obtain ⟨hop, hshown⟩ := accepts_operandBy_memory (by rfl) hk
    rw [hop] at hu
    have hmethod : methodOf oflags = [maskAm oflags] := if_neg hflags
    have hmodrm := (hfits (maskAm oflags) (by simp [hmethod])).needs hu
    rw [parseForm, if_pos hmodrm] at hm
    rw [if_pos hmodrm]
    exact ⟨form, (accepts_parseModrm hm).1, hshown hu hmem⟩

theorem accepts_getInstruction_memory {T : OpcodeTables} {mode : Mode} {l : List U8}
    {ins : Instruction} {n : Nat} (h : (getInstruction T mode).Accepts l ins n) {op : Operand}
    (hop : op ∈ [ins.op1, ins.op2, ins.op3]) :
    ShowsForm l ins.modrmOffset (modeCheckAddr ins.mode ins.flags) op := by
  simp only [getInstruction, accepts_bind] at h
  obtain ⟨⟨index, flags⟩, m, _, -, ⟨sel, k, j, hsel, h, rfl⟩, rfl⟩ := h
  obtain ⟨⟨hlisted, -⟩, -⟩ := accepts_selectInst hsel
  split at h
  · exact absurd h not_accepts_refuse
  · have hvalid := hlisted ‹_›
    obtain ⟨-, hptr, header, hlayout⟩ := accepts_parseOperands hvalid h
    have hoff := hlayout.modrmOffset
    simp only [parseOperands, accepts_bind, accepts_pure] at h
    obtain ⟨⟨ins₁, op1⟩, n₁, _, h₁, ⟨⟨ins₂, op2⟩, n₂, _, h₂, ⟨⟨ins₃, op3⟩, n₃, _, h₃, ⟨rfl, rfl⟩,
      rfl⟩, rfl⟩, rfl⟩ := h
    obtain ⟨hnext₁, hnext₂, hnext₃⟩ := hvalid.next
    rw [hoff, hptr]
    simp only [List.mem_cons, List.not_mem_nil, or_false] at hop
    obtain rfl | rfl | rfl := hop
    · exact accepts_getOperand_memory hnext₁.fits h₁
    · exact accepts_getOperand_memory hnext₂.fits h₂
    · exact accepts_getOperand_memory hnext₃.fits h₃

/-! ## The processor's forms -/

theorem scaleVal_eq (sib : U8) : scaleVal (if maskSibScale sib * 2 = 6 then 8 else
    maskSibScale sib * 2) = BitVec.ofNat 32 (2 ^ X86.modField sib) := by
  have hlt : X86.modField sib < 4 := by
    unfold X86.modField
    omega
  rw [maskSibScale, maskModrmMod_eq]
  generalize X86.modField sib = ss at *
  interval_cases ss <;> rfl

theorem rmField_lt (x : U8) : X86.rmField x < 8 := Nat.mod_lt _ (by omega)

theorem regField_lt (x : U8) : X86.regField x < 8 := Nat.mod_lt _ (by omega)

theorem regVal_of_lt {regs : Nat → U32} {r : Nat} (h : r < 8) : regVal regs r = regs r :=
  if_neg (by unfold libdasmRegisterNop; omega)

theorem regVal_nop (regs : Nat → U32) : regVal regs libdasmRegisterNop = 0 := if_pos rfl

theorem modField_lt (x : U8) : X86.modField x < 4 := by
  unfold X86.modField
  omega

theorem displacementAt_modrmDisp32 {l : List U8} {addr : U8} (i : Nat)
    (hmod : X86.modField addr ≠ 3) :
    displacementAt l (Form.modrmDisp addr .mode32) i =
      if X86.rmField addr = 5 ∧ X86.modField addr = 0 then X86.disp32 (cells l) i
      else X86.dispBy32 (cells l) (X86.modField addr) i := by
  have hlt := modField_lt addr
  unfold Form.modrmDisp
  rw [maskModrmMod_eq, maskModrmRm_eq]
  generalize X86.modField addr = mod at *
  by_cases hrm : X86.rmField addr = 5
  · interval_cases mod <;> simp [hrm, regEbp, displacementAt, X86.dispBy32] at *
  · interval_cases mod <;> simp [hrm, regEbp, displacementAt, X86.dispBy32] at *

set_option maxRecDepth 4000 in
theorem setWidth_signExtend (b : U8) : (b.signExtend 32).setWidth 16 = b.signExtend 16 := by
  revert b
  decide

theorem displacementAt_modrmDisp16 {l : List U8} {addr : U8} (i : Nat)
    (hmod : X86.modField addr ≠ 3) :
    (displacementAt l (Form.modrmDisp addr .mode16) i).setWidth 16 =
      X86.dispBy16 (cells l) addr i := by
  have hlt := modField_lt addr
  unfold Form.modrmDisp X86.dispBy16
  rw [maskModrmMod_eq, maskModrmRm_eq]
  generalize X86.modField addr = mod at *
  by_cases hrm : X86.rmField addr = 6
  · interval_cases mod <;> simp [hrm, regEsi, displacementAt, X86.disp8, setWidth_signExtend] at *
  · interval_cases mod <;> simp [hrm, regEsi, displacementAt, X86.disp8, setWidth_signExtend] at *

/-- No displacement bytes are a displacement of zero. -/
theorem displacementAt_if (l : List U8) (d i : Nat) :
    (if d ≠ 0 then displacementAt l d i else 0) = displacementAt l d i := by
  split
  · rfl
  · have hd : d = 0 := by omega
    rw [hd]
    rfl

theorem Form.Shown.address32 {l : List U8} {offset : Nat} {form : Form} {op : Operand}
    (regs : Nat → U32) (hform : FormAt l offset .mode32 form) (h : form.Shown l offset op) :
    op.address regs = X86.address32 (cells l) regs offset := by
  have hmem := h.memory
  unfold Operand.address
  rw [h.basereg, h.indexreg, h.scale, h.dispbytes, h.displacement, displacementAt_if]
  unfold X86.address32
  cases hform with
  | @sib addr sib haddr hsib hs =>
    obtain ⟨hrm, hmod⟩ : X86.rmField addr = 4 ∧ X86.modField addr ≠ 3 := by
      simpa [Form.hasSib, maskModrmRm_eq, maskModrmMod_eq, regEsp] using hsib
    have hindex : regVal regs (Form.ofSib addr sib).indexreg * scaleVal (Form.ofSib addr sib).scale
        = X86.scaledIndex regs sib := by
      simp only [Form.ofSib, X86.scaledIndex, maskSibIndex, maskModrmReg_eq, regEsp]
      split
      · rw [regVal_nop, zero_mul]
      · rw [regVal_of_lt (regField_lt sib), scaleVal_eq]
    have hheader : (Form.ofSib addr sib).header = 2 := rfl
    simp only [cells_eq haddr, cells_eq hs, hrm, if_true]
    rw [hindex, hheader]
    simp only [Form.ofSib, maskSibBase, maskModrmMod_eq, maskModrmRm_eq, regEbp]
    split
    · rw [regVal_nop, zero_add]
      rfl
    · rw [regVal_of_lt (rmField_lt sib), displacementAt_modrmDisp32 _ hmod, if_neg (by omega)]
  | @modrm32 addr haddr hsib _ =>
    have hheader : (Form.ofModrm32 addr).header = 1 := rfl
    have hmod4 : X86.rmField addr = 4 → X86.modField addr = 3 := by
      intro hrm
      simpa [Form.hasSib, maskModrmRm_eq, maskModrmMod_eq, hrm, regEsp] using hsib
    have hmod3 : ¬(X86.modField addr = 0 ∧ X86.rmField addr = 5) → X86.modField addr ≠ 3 := by
      intro hbase
      have := hmem (by
        simp only [Form.ofModrm32, maskModrmMod_eq, maskModrmRm_eq, regEbp, if_neg hbase]
        have := rmField_lt addr
        unfold libdasmRegisterNop
        omega) addr haddr
      rwa [maskModrmMod_eq] at this
    have hmod : X86.modField addr ≠ 3 := by
      by_cases hbase : X86.modField addr = 0 ∧ X86.rmField addr = 5
      · omega
      · exact hmod3 hbase
    simp only [cells_eq haddr]
    rw [hheader, if_neg fun hrm => hmod (hmod4 hrm)]
    have hindex : regVal regs (Form.ofModrm32 addr).indexreg = 0 := regVal_nop regs
    rw [hindex, zero_mul, add_zero]
    have hdisp := displacementAt_modrmDisp32 (l := l) (offset + 1) hmod
    simp only [Form.ofModrm32, maskModrmMod_eq, maskModrmRm_eq, regEbp]
    rw [hdisp]
    by_cases hbase : X86.modField addr = 0 ∧ X86.rmField addr = 5
    · rw [if_pos hbase, if_pos hbase.symm, if_pos hbase.symm, regVal_nop, zero_add]
    · rw [if_neg hbase, if_neg fun hb => hbase hb.symm, if_neg fun hb => hbase hb.symm,
        regVal_of_lt (rmField_lt addr)]
  | modrm16 _ hmode => cases hmode

theorem registers16_eq (regs : Nat → U32) (addr : U8) :
    (regVal regs (Form.registers16 addr).1 + regVal regs (Form.registers16 addr).2).setWidth 16 =
      X86.base16 regs addr := by
  have hlt := rmField_lt addr
  have hadd (x y : U32) : (x + y).setWidth 16 = x.setWidth 16 + y.setWidth 16 :=
    BitVec.setWidth_add x y (by omega)
  unfold Form.registers16 X86.base16
  rw [maskModrmRm_eq, maskModrmMod_eq]
  generalize X86.rmField addr = rm at *
  interval_cases rm <;>
    simp [regVal, libdasmRegisterNop, regEbx, regEbp, regEsi, regEdi, X86.low, hadd]
  split <;> simp

theorem Form.Shown.address16 {l : List U8} {offset : Nat} {form : Form} {op : Operand}
    (regs : Nat → U32) (hform : FormAt l offset .mode16 form) (h : form.Shown l offset op) :
    (op.address regs).setWidth 16 = X86.address16 (cells l) regs offset := by
  have hmem := h.memory
  unfold Operand.address
  rw [h.basereg, h.indexreg, h.scale, h.dispbytes, h.displacement, displacementAt_if]
  cases hform with
  | sib _ hsib _ => simp [Form.hasSib] at hsib
  | modrm32 _ _ hmode => cases hmode
  | @modrm16 addr haddr _ =>
    have hmod : X86.modField addr ≠ 3 := by
      intro h3
      refine hmem ?_ addr haddr (by rw [maskModrmMod_eq, h3])
      have := rmField_lt addr
      simp only [Form.ofModrm16, maskModrmMod_eq, maskModrmRm_eq, h3, if_true]
      unfold libdasmRegisterNop
      omega
    have hheader : (Form.ofModrm16 addr).header = 1 := rfl
    have hscale : scaleVal (Form.ofModrm16 addr).scale = 1 := rfl
    have hbase : (Form.ofModrm16 addr).basereg = (Form.registers16 addr).1 :=
      if_neg (by rwa [maskModrmMod_eq])
    have hindex : (Form.ofModrm16 addr).indexreg = (Form.registers16 addr).2 :=
      if_neg (by rwa [maskModrmMod_eq])
    have hdisp : (Form.ofModrm16 addr).dispbytes = Form.modrmDisp addr .mode16 := rfl
    rw [hheader, hscale, hbase, hindex, hdisp, mul_one, BitVec.setWidth_add _ _ (by omega),
      registers16_eq, displacementAt_modrmDisp16 _ hmod, X86.address16, cells_eq haddr]

/-- **A memory operand means the processor's address.** -/
theorem memory_operand_address (T : OpcodeTables) (mode : Mode) {l : List U8} {ins : Instruction}
    {n : Nat} (h : (getInstruction T mode).Accepts l ins n) {op : Operand}
    (hop : op ∈ [ins.op1, ins.op2, ins.op3]) (hmem : op.type = .memory)
    (hmodrm : (maskAm op.flags).usesModrm) (regs : Nat → U32) :
    (modeCheckAddr ins.mode ins.flags = .mode32 →
      op.address regs = X86.address32 (cells l) regs ins.modrmOffset) ∧
    (modeCheckAddr ins.mode ins.flags = .mode16 →
      (op.address regs).setWidth 16 = X86.address16 (cells l) regs ins.modrmOffset) := by
  obtain ⟨form, hform, hshown⟩ := accepts_getInstruction_memory h hop hmem hmodrm
  constructor
  · intro hmode
    rw [hmode] at hform
    exact hshown.address32 regs hform
  · intro hmode
    rw [hmode] at hform
    exact hshown.address16 regs hform

theorem memory_operand_address_mov :
    movInstruction.op1.address (BitVec.ofNat 32) =
      X86.address32 (cells movBytes) (BitVec.ofNat 32) 1 :=
  (memory_operand_address fewTables .mode32 accepts_movBytes (by simp) rfl rfl _).1 rfl

end Libdasm
end PEReplay
