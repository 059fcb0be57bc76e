/-
# PEReplay.Libdasm.Decode — `get_instruction` and what it is made of.

The decoder reads `addr[i]` by the index of the byte from the start of the instruction.  Prefixes
are skipped by a recursion over the bytes; the opcode, and for some opcodes the byte behind it,
select a row of the tables; the three operands of the row are parsed one after the other and leave
the sizes they found in the instruction, where the next one looks.
-/
import PEReplay.Lib.Decoder
import PEReplay.Libdasm.Tables

namespace PEReplay
namespace Libdasm

open Decoder

/-! ## Instruction flags -/

/-- `MASK_PREFIX_G1` -/
def maskPrefixG1 (x : U32) : U32 := (x &&& 0xff000000) >>> 24

/-- `MASK_PREFIX_OPERAND` -/
def maskPrefixOperand (x : U32) : U32 := (x &&& 0x00000f00) >>> 8

/-- `MASK_PREFIX_ADDR` -/
def maskPrefixAddr (x : U32) : U32 := (x &&& 0x0000f000) >>> 12

/-- `MASK_EXT` -/
def maskExt (x : U32) : Nat := (x &&& 0x000000ff).toNat

/-- `EXT_T2` -/
def extT2 : Nat := 0x20

/-- `EXT_CP` -/
def extCp : Nat := 0x30

/-- `MODE_CHECK_ADDR` -/
def modeCheckAddr (mode : Mode) (flags : U32) : Mode :=
  if (mode = .mode32 ∧ maskPrefixAddr flags = 0) ∨ (mode = .mode16 ∧ maskPrefixAddr flags = 1) then
    .mode32
  else .mode16

/-- `MODE_CHECK_OPERAND` -/
def modeCheckOperand (mode : Mode) (flags : U32) : Mode :=
  if (mode = .mode32 ∧ maskPrefixOperand flags = 0) ∨
      (mode = .mode16 ∧ maskPrefixOperand flags = 1) then
    .mode32
  else .mode16

/-! ## Prefixes and opcodes -/

/-- `get_real_instruction2` -/
def getRealInstruction2 (addr : U8) (flags : U32) : U32 :=
  match addr.toNat with
  | 0x00 => flags &&& 0xffffff00 ||| 0x0e
  | 0x01 => flags &&& 0xffffff00 ||| 0x0f
  | 0x71 => flags &&& 0xffffff00 ||| 0x14
  | 0x72 => flags &&& 0xffffff00 ||| 0x15
  | 0x73 => flags &&& 0xffffff00 ||| 0x16
  | 0xae => flags &&& 0xffffff00 ||| 0x17
  | 0xba => flags &&& 0xffffff00 ||| 0x10
  | 0xc7 => flags &&& 0xffffff00 ||| 0x11
  | _ => flags

/-- One call of `get_real_instruction`: the index and flags it leaves, on the left where it calls
itself for the next byte. -/
def getRealInstruction (index : Nat) (flags : U32) (addr : U8) : Nat × U32 ⊕ Nat × U32 :=
  match addr.toNat with
  -- 2-byte opcode
  | 0x0f => .inr (index + 1, flags ||| 0x20)
  -- prefix group 2: the flags of an earlier one are cleared
  | 0x2e => .inl (index + 1, flags &&& 0xff00ffff ||| 0x00020000)
  | 0x36 => .inl (index + 1, flags &&& 0xff00ffff ||| 0x00030000)
  | 0x3e => .inl (index + 1, flags &&& 0xff00ffff ||| 0x00040000)
  | 0x26 => .inl (index + 1, flags &&& 0xff00ffff ||| 0x00010000)
  | 0x64 => .inl (index + 1, flags &&& 0xff00ffff ||| 0x00050000)
  | 0x65 => .inl (index + 1, flags &&& 0xff00ffff ||| 0x00060000)
  -- prefix groups 3 and 4
  | 0x66 => .inl (index + 1, flags ||| 0x00000100)
  | 0x67 => .inl (index + 1, flags ||| 0x00001000)
  -- extension group 1
  | 0x80 => .inr (index, flags ||| 0x01)
  | 0x81 => .inr (index, flags ||| 0x02)
  | 0x82 => .inr (index, flags ||| 0x01)
  | 0x83 => .inr (index, flags ||| 0x03)
  -- extension group 2
  | 0xc0 => .inr (index, flags ||| 0x04)
  | 0xc1 => .inr (index, flags ||| 0x05)
  | 0xd0 => .inr (index, flags ||| 0x06)
  | 0xd1 => .inr (index, flags ||| 0x07)
  | 0xd2 => .inr (index, flags ||| 0x08)
  | 0xd3 => .inr (index, flags ||| 0x09)
  -- escape to the co-processor
  | 0xd8 | 0xd9 | 0xda | 0xdb | 0xdc | 0xdd | 0xde | 0xdf => .inr (index + 1, flags ||| 0x30)
  -- prefix group 1: all flags but the lower groups' are cleared
  | 0xf0 => .inl (index + 1, flags &&& 0x00ffffff ||| 0x01000000)
  | 0xf2 => .inl (index + 1, flags &&& 0x00ffffff ||| 0x02000000)
  | 0xf3 => .inl (index + 1, flags &&& 0x00ffffff ||| 0x03000000)
  -- extension groups 3 to 5
  | 0xf6 => .inr (index, flags ||| 0x0a)
  | 0xf7 => .inr (index, flags ||| 0x0b)
  | 0xfe => .inr (index, flags ||| 0x0c)
  | 0xff => .inr (index, flags ||| 0x0d)
  | _ => .inr (index, flags)

/-! ## Operands -/

/-- `OPERAND` -/
structure Operand where
  type : OperandType := .none
  reg : Nat := 0
  basereg : Nat := 0
  indexreg : Nat := 0
  scale : Nat := 0
  dispbytes : Nat := 0
  dispoffset : Nat := 0
  immbytes : Nat := 0
  immoffset : Nat := 0
  «section» : U16 := 0
  displacement : U32 := 0
  immediate : U32 := 0
  flags : U32 := 0
  deriving Repr, DecidableEq

/-- `INSTRUCTION`.  While the operands are parsed, `length` counts the ModRM and SIB bytes. -/
structure Instruction where
  length : Nat := 0
  mode : Mode := .mode32
  opcode : U8 := 0
  modrm : U8 := 0
  sib : U8 := 0
  modrmOffset : Nat := 0
  extindex : Nat := 0
  fpuindex : Nat := 0
  dispbytes : Nat := 0
  immbytes : Nat := 0
  sectionbytes : Nat := 0
  op1 : Operand := {}
  op2 : Operand := {}
  op3 : Operand := {}
  ptr : Inst
  flags : U32 := 0
  deriving Repr, DecidableEq

namespace Instruction

/-- `type`, copied from the row. -/
def type (inst : Instruction) : InstructionType := inst.ptr.type

end Instruction

/-- `LIBDASM_REG_EAX` to `LIBDASM_REG_EDI` that the addressing forms name. -/
def regEbx : Nat := 3
def regEsp : Nat := 4
def regEbp : Nat := 5
def regEsi : Nat := 6
def regEdi : Nat := 7

/-- `FETCH16` -/
def fetch16 (i : Nat) : Decoder U8 U16 := do
  let lo ← fetch i
  let hi ← fetch (i + 1)
  pure (hi ++ lo)

/-- `FETCH32` -/
def fetch32 (i : Nat) : Decoder U8 U32 := do
  let lo ← fetch16 i
  let hi ← fetch16 (i + 2)
  pure (hi ++ lo)

/-- `if (x >= 0x80) x |= 0xffffff00` -/
def signExtendByte (x : U32) : U32 := if x ≥ 0x80 then x ||| 0xffffff00 else x

/-- The locals of `get_operand` once the ModRM and SIB bytes are parsed. -/
structure Form where
  reg : Nat := libdasmRegisterNop
  basereg : Nat := libdasmRegisterNop
  indexreg : Nat := libdasmRegisterNop
  scale : Nat := 0
  sib : Bool := false
  dispbytes : Nat := 0
  deriving Repr, DecidableEq

namespace Form

/-- The displacement bytes that the ModRM byte calls for. -/
def modrmDisp (addr : U8) (pmode : Mode) : Nat :=
  if maskModrmMod addr = 0 then
    if pmode = .mode32 ∧ maskModrmRm addr = regEbp then 4
    else if pmode = .mode16 ∧ maskModrmRm addr = regEsi then 2
    else 0
  else if maskModrmMod addr = 1 then 1
  else if maskModrmMod addr = 2 then
    if pmode = .mode32 then 4 else 2
  else 0

/-- The SIB byte is there. -/
def hasSib (addr : U8) (pmode : Mode) : Bool :=
  pmode = .mode32 ∧ maskModrmRm addr = regEsp ∧ maskModrmMod addr ≠ 3

/-- 32-bit mode with a SIB byte. -/
def ofSib (addr sib : U8) : Form where
  reg := maskModrmReg addr
  basereg :=
    if maskSibBase sib = regEbp ∧ maskModrmMod addr = 0 then libdasmRegisterNop else maskSibBase sib
  indexreg := if maskSibIndex sib = regEsp then libdasmRegisterNop else maskSibIndex sib
  scale := if maskSibScale sib * 2 = 6 then 8 else maskSibScale sib * 2
  sib := true
  dispbytes :=
    if maskSibBase sib = regEbp ∧ maskModrmMod addr = 0 then 4 else modrmDisp addr .mode32

/-- 32-bit mode without a SIB byte. -/
def ofModrm32 (addr : U8) : Form where
  reg := maskModrmReg addr
  basereg :=
    if maskModrmMod addr = 0 ∧ maskModrmRm addr = regEbp then libdasmRegisterNop
    else maskModrmRm addr
  dispbytes := modrmDisp addr .mode32

/-- The registers of the 16-bit forms. -/
def registers16 (addr : U8) : Nat × Nat :=
  match maskModrmRm addr with
  | 0 => (regEbx, regEsi)
  | 1 => (regEbx, regEdi)
  | 2 => (regEbp, regEsi)
  | 3 => (regEbp, regEdi)
  | 4 => (regEsi, libdasmRegisterNop)
  | 5 => (regEdi, libdasmRegisterNop)
  | 6 => (if maskModrmMod addr = 0 then libdasmRegisterNop else regEbp, libdasmRegisterNop)
  | _ => (regEbx, libdasmRegisterNop)

/-- 16-bit mode. -/
def ofModrm16 (addr : U8) : Form where
  reg := maskModrmReg addr
  basereg := if maskModrmMod addr = 3 then maskModrmRm addr else (registers16 addr).1
  indexreg := if maskModrmMod addr = 3 then libdasmRegisterNop else (registers16 addr).2
  dispbytes := modrmDisp addr .mode16

end Form

/-- The part of `get_operand` that parses ModRM and SIB.  The length is updated only once. -/
def parseModrm (instruction : Instruction) (offset : Nat) (pmode : Mode) :
    Decoder U8 (Instruction × Form) := do
  let addr ← fetch offset
  let instruction :=
    if instruction.length = 0 then { instruction with modrm := addr, length := 1 } else instruction
  if Form.hasSib addr pmode then
    let sib ← fetch (offset + 1)
    let instruction := { instruction with
      sib := sib
      length := if instruction.length = 1 then 2 else instruction.length }
    pure (instruction, Form.ofSib addr sib)
  else if pmode = .mode32 then
    pure (instruction, Form.ofModrm32 addr)
  else
    pure (instruction, Form.ofModrm16 addr)

/-- ModRM and SIB, for a row that has them. -/
def parseForm (inst : Inst) (instruction : Instruction) (offset : Nat) (pmode : Mode) :
    Decoder U8 (Instruction × Form) :=
  if inst.modrm then parseModrm instruction offset pmode else pure (instruction, {})

/-- The displacement behind ModRM and SIB: a byte is always sign-extended. -/
def fetchDisplacement (dispbytes i : Nat) : Decoder U8 U32 :=
  match dispbytes with
  | 1 => do
    let x ← fetch i
    pure (signExtendByte (x.setWidth 32))
  | 2 => do
    let x ← fetch16 i
    pure (x.setWidth 32)
  | 4 => fetch32 i
  | _ => pure 0

/-- `AM_Q`, `AM_W` and `AM_E`: register or memory, as the ModRM byte has it. -/
def modrmOperand (form : Form) (instruction : Instruction) (op : Operand) (offset : Nat) :
    Decoder U8 (Instruction × Operand) := do
  let index := if form.sib then 1 else 0
  let displacement ← fetchDisplacement form.dispbytes (offset + 1 + index)
  let op := { op with
    type := .memory
    dispbytes := form.dispbytes
    basereg := form.basereg
    indexreg := form.indexreg
    scale := form.scale
    dispoffset := if form.dispbytes ≠ 0 then index + 1 + offset else op.dispoffset
    displacement := displacement }
  let instruction := { instruction with dispbytes := form.dispbytes }
  if form.basereg ≠ libdasmRegisterNop then
    let addr ← fetch offset
    if maskModrmMod addr = 3 then
      pure (instruction, { op with type := .register, reg := form.basereg })
    else pure (instruction, op)
  else pure (instruction, op)

/-- The bytes of an immediate and its value; `oflags` with `F_s` for `AM_J`. -/
def fetchImmediate (oflags : U32) (mode : Mode) (i : Nat) : Decoder U8 (Nat × U32) :=
  match maskOt oflags with
  | .b => do
    let x ← fetch i
    let x := x.setWidth 32
    pure (1, if maskFlags oflags = flagSigned then signExtendByte x else x)
  | .v =>
    match mode with
    | .mode32 => do
      let x ← fetch32 i
      pure (4, x)
    | .mode16 => do
      let x ← fetch16 i
      pure (2, x.setWidth 32)
  | .w => do
    let x ← fetch16 i
    pure (2, x.setWidth 32)
  | .unlisted => pure (0, 0)

/-- `AM_I` and `AM_J`: the immediate follows ModRM, SIB, the displacement and earlier immediates. -/
def immediateOperand (inst : Inst) (oflags : U32) (form : Form) (instruction : Instruction)
    (op : Operand) (offset : Nat) (mode : Mode) (iflags : U32) :
    Decoder U8 (Instruction × Operand) := do
  let index := (if inst.modrm then 1 else 0) + (if form.sib then 1 else 0) + instruction.immbytes +
    instruction.dispbytes
  let (immbytes, immediate) ← fetchImmediate oflags (modeCheckOperand mode iflags) (offset + index)
  pure ({ instruction with immbytes := instruction.immbytes + immbytes },
    { op with
      type := .immediate
      immoffset := index + offset
      immbytes := immbytes
      immediate := immediate })

/-- The offset of a far pointer, with the size of the whole. -/
def fetchFar (mode : Mode) (i : Nat) : Decoder U8 (Nat × U32) :=
  match mode with
  | .mode32 => do
    let x ← fetch32 i
    pure (6, x)
  | .mode16 => do
    let x ← fetch16 i
    pure (4, x.setWidth 32)

/-- `AM_A`: a far pointer, an offset and a segment. -/
def farOperand (instruction : Instruction) (op : Operand) (offset : Nat) (mode : Mode)
    (iflags : U32) : Decoder U8 (Instruction × Operand) := do
  let (dispbytes, displacement) ← fetchFar (modeCheckOperand mode iflags) offset
  let segment ← fetch16 (offset + dispbytes - 2)
  pure ({ instruction with dispbytes := dispbytes, sectionbytes := 2 },
    { op with
      type := .immediate
      dispbytes := dispbytes
      displacement := displacement
      «section» := segment })

/-- The bytes of a plain displacement and its value: the size goes by the mode and not by the
address prefix. -/
def fetchPlain (oflags : U32) (mode : Mode) (i : Nat) : Decoder U8 (Nat × U32) :=
  match maskOt oflags with
  | .b => do
    let x ← fetch i
    pure (1, x.setWidth 32)
  | .v =>
    match mode with
    | .mode32 => do
      let x ← fetch32 i
      pure (4, x)
    | .mode16 => do
      let x ← fetch16 i
      pure (2, x.setWidth 32)
  | _ => pure (0, 0)

/-- `AM_O`: a plain displacement. -/
def plainOperand (oflags : U32) (instruction : Instruction) (op : Operand) (offset : Nat)
    (mode : Mode) : Decoder U8 (Instruction × Operand) := do
  let (dispbytes, displacement) ← fetchPlain oflags mode offset
  pure ({ instruction with dispbytes := dispbytes },
    { op with
      type := .memory
      dispbytes := dispbytes
      displacement := displacement
      dispoffset := offset })

/-- The switch of `get_operand` over the addressing method. -/
def operandBy (inst : Inst) (oflags : U32) (form : Form) (instruction : Instruction) (op : Operand)
    (offset : Nat) (mode : Mode) (iflags : U32) : Decoder U8 (Instruction × Operand) :=
  match maskAm oflags with
  | .reg => pure (instruction, { op with type := .register, reg := maskReg oflags })
  | .ind => pure (instruction, { op with type := .memory, basereg := maskReg oflags })
  | .m => do
    let addr ← fetch offset
    if maskModrmMod addr = 3 then refuse else modrmOperand form instruction op offset
  | .r => do
    let addr ← fetch offset
    if maskModrmMod addr ≠ 3 then refuse else modrmOperand form instruction op offset
  | .q | .w | .e => modrmOperand form instruction op offset
  | .i1 => pure (instruction, { op with type := .immediate, immbytes := 1, immediate := 1 })
  | .j => immediateOperand inst (oflags ||| flagSigned) form instruction op offset mode iflags
  | .i => immediateOperand inst oflags form instruction op offset mode iflags
  | .a => farOperand instruction op offset mode iflags
  | .o => plainOperand oflags instruction op offset mode
  | .g => pure (instruction, { op with type := .register, reg := form.reg })
  | .c | .d | .s | .t | .p | .v =>
    pure (instruction, { op with type := .register, reg := maskModrmReg instruction.modrm })
  | .unlisted => pure (instruction, op)

/-- `get_operand`; `op` is all zero before. -/
def getOperand (inst : Inst) (oflags : U32) (instruction : Instruction) (offset : Nat) (mode : Mode)
    (iflags : U32) : Decoder U8 (Instruction × Operand) :=
  if oflags = 0 then pure (instruction, {})
  else do
    let op : Operand := {
      flags := oflags
      reg := libdasmRegisterNop
      basereg := libdasmRegisterNop
      indexreg := libdasmRegisterNop }
    let (instruction, form) ← parseForm inst instruction offset (modeCheckAddr mode iflags)
    operandBy inst oflags form instruction op offset mode iflags

/-! ## Instructions -/

/-- The row that the opcode selects, with the index of the opcode's last byte. -/
structure Selected where
  ptr : Inst
  index : Nat
  flags : U32
  opcode : U8
  extindex : Nat := 0
  fpuindex : Nat := 0
  deriving Repr, DecidableEq

variable (T : OpcodeTables)

/-- A group's second table is for the prefix 66. -/
def by66 (flags : U32) (table66 table : Nat → Inst) (i : Nat) : Inst :=
  if maskPrefixOperand flags = 1 then table66 i else table i

/-- The opcode extension tables.  In group 7 a ModRM byte without memory stands for an opcode. -/
def selectExtension (index : Nat) (flags : U32) : Decoder U8 Selected := do
  let opcode ← fetch index
  let addr ← fetch (index + 1)
  let i := maskModrmReg addr
  let row (ptr : Inst) (index : Nat) : Selected := { ptr, index, flags, opcode, extindex := i }
  match maskExt flags with
  | 0x14 => pure (row (by66 flags T.instTableExt12_66 T.instTableExt12 i) index)
  | 0x15 => pure (row (by66 flags T.instTableExt13_66 T.instTableExt13 i) index)
  | 0x16 => pure (row (by66 flags T.instTableExt14_66 T.instTableExt14 i) index)
  | 0x0f =>
    if maskModrmMod addr = 3 then
      if i ≠ 1 then refuse
      else if maskModrmRm addr = 0 then pure (row T.instMonitor (index + 1))
      else if maskModrmRm addr = 1 then pure (row T.instMwait (index + 1))
      else refuse
    else pure (row (T.instTableExt7 i) index)
  | ext => pure (row (T.instTableExt (ext - 1) i) index)

/-- The co-processor's opcodes.  Below 0xc0 the ModRM byte completes the escape byte. -/
def selectEscape (index : Nat) (flags : U32) : Decoder U8 Selected := do
  let opcode ← fetch index
  let escape ← fetch (index - 1)
  let fpuindex := (escape - 0xd8).toNat
  if opcode < 0xc0 then
    let ptr := T.instTable4 fpuindex (maskModrmReg opcode)
    pure { ptr, index := index - 1, flags, opcode, fpuindex }
  else
    pure { ptr := T.instTable4 fpuindex (opcode - 0xb8).toNat, index, flags, opcode, fpuindex }

/-- The row of a two-byte or three-byte opcode. -/
def rowOf2 (opcode : U8) (flags : U32) : Inst :=
  if (T.instTable2 opcode).type3 then
    if maskPrefixOperand flags = 1 then T.instTable3_66 opcode
    else if maskPrefixG1 flags = 2 then T.instTable3_f2 opcode
    else if maskPrefixG1 flags = 3 then T.instTable3_f3 opcode
    else T.instTable2 opcode
  else T.instTable2 opcode

/-- Select the instruction table. -/
def selectInst (index : Nat) (flags : U32) : Decoder U8 Selected :=
  if maskExt flags = 0 then do
    let opcode ← fetch index
    pure { ptr := T.instTable1 opcode, index, flags, opcode }
  else if maskExt flags = extCp then selectEscape T index flags
  else if maskExt flags = extT2 then do
    let opcode ← fetch index
    let flags := getRealInstruction2 opcode flags
    if maskExt flags ≠ 0 ∧ maskExt flags < extT2 then selectExtension T index flags
    else pure { ptr := rowOf2 T opcode flags, index, flags, opcode }
  else selectExtension T index flags

/-- The operands of the selected row and the length of the whole. -/
def parseOperands (mode : Mode) (sel : Selected) : Decoder U8 Instruction := do
  let index := sel.index + 1
  let inst : Instruction := {
    ptr := sel.ptr
    opcode := sel.opcode
    extindex := sel.extindex
    fpuindex := sel.fpuindex
    modrmOffset := if sel.ptr.modrm then index else 0 }
  let (inst, op1) ← getOperand sel.ptr sel.ptr.flags1 inst index mode sel.flags
  let (inst, op2) ← getOperand sel.ptr sel.ptr.flags2 inst index mode sel.flags
  let (inst, op3) ← getOperand sel.ptr sel.ptr.flags3 inst index mode sel.flags
  pure { inst with
    op1 := op1
    op2 := op2
    op3 := op3
    mode := mode
    length := inst.length + (index + inst.immbytes + inst.dispbytes)
    flags := sel.flags }

/-- `get_instruction` -/
def getInstruction (mode : Mode) : Decoder U8 Instruction := do
  let (index, flags) ← scan (fun s b => getRealInstruction s.1 s.2 b) ((0, 0) : Nat × U32)
  let sel ← selectInst T index flags
  -- illegal instruction
  if sel.ptr.mnemonic = none then refuse else parseOperands mode sel

end Libdasm
end PEReplay
