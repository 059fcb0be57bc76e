/-
# PEReplay.Libdasm.Tables — the rows of libdasm's opcode tables.

A row names the type of an instruction and says how its operands are encoded.  The rows themselves
are data: `OpcodeTables` is a parameter, and it carries what every row of the tables satisfies and
the decoder relies on without a check.
-/
import PEReplay.Sweeper.Trace

namespace PEReplay
namespace Libdasm

/-- `enum Mode` -/
inductive Mode where
  | mode32 | mode16
  deriving Repr, DecidableEq

/-! ## Operand flags -/

/-- `AM_*`, the addressing methods of the processor's manual and three of libdasm's own. -/
inductive AddressingMethod where
  | a | c | d | e | g | i | j | m | o | p | q | r | s | t | v | w | i1 | reg | ind | unlisted
  deriving Repr, DecidableEq

/-- `MASK_AM` -/
def maskAm (oflags : U32) : AddressingMethod :=
  match ((oflags &&& 0x00ff0000) >>> 16).toNat with
  | 0x01 => .a
  | 0x02 => .c
  | 0x03 => .d
  | 0x04 => .e
  | 0x05 => .g
  | 0x06 => .i
  | 0x07 => .j
  | 0x08 => .m
  | 0x09 => .o
  | 0x0a => .p
  | 0x0b => .q
  | 0x0c => .r
  | 0x0d => .s
  | 0x0e => .t
  | 0x0f => .v
  | 0x10 => .w
  | 0x20 => .i1
  | 0x21 => .reg
  | 0x22 => .ind
  | _ => .unlisted

namespace AddressingMethod

/-- The operand is in the ModRM byte, or where that byte points. -/
def usesModrm : AddressingMethod → Bool
  | .c | .d | .e | .g | .m | .p | .q | .r | .s | .t | .v | .w => true
  | _ => false

/-- The operand may be at a displacement. -/
def displaces : AddressingMethod → Bool
  | .e | .m | .r | .q | .w | .a | .o => true
  | _ => false

/-- The operand is in the bytes behind the displacement. -/
def isImmediate : AddressingMethod → Bool
  | .i | .j => true
  | _ => false

end AddressingMethod

/-- `OT_*`, as far as the sizes of immediates and addresses depend on it. -/
inductive OperandSize where
  | b | v | w | unlisted
  deriving Repr, DecidableEq

/-- `MASK_OT` -/
def maskOt (oflags : U32) : OperandSize :=
  match ((oflags &&& 0xff000000) >>> 24).toNat with
  | 0x02 => .b
  | 0x07 => .v
  | 0x08 => .w
  | _ => .unlisted

/-- The addressing method of an operand, if there is one: `FLAGS_NONE` is none. -/
def methodOf (oflags : U32) : List AddressingMethod := if oflags = 0 then [] else [maskAm oflags]

/-- `MASK_FLAGS` -/
def maskFlags (oflags : U32) : U32 := oflags &&& 0x00000f00

/-- `F_s`, sign-extend a 1-byte immediate -/
def flagSigned : U32 := 0x00000100

/-- A relative operand has no additional flags. -/
def PlainRelative (oflags : U32) : Prop := maskAm oflags = .j → maskFlags oflags = 0

instance (oflags : U32) : Decidable (PlainRelative oflags) := inferInstanceAs (Decidable (_ → _))

/-- `MASK_LIBDASM_REG` -/
def maskReg (oflags : U32) : Nat := (oflags &&& 0x0000000f).toNat

/-! ## ModRM and SIB -/

/-- `MASK_MODRM_MOD` -/
def maskModrmMod (x : U8) : Nat := ((x &&& 0xc0) >>> 6).toNat

/-- `MASK_MODRM_LIBDASM_REG` -/
def maskModrmReg (x : U8) : Nat := ((x &&& 0x38) >>> 3).toNat

/-- `MASK_MODRM_RM` -/
def maskModrmRm (x : U8) : Nat := (x &&& 0x7).toNat

/-- `MASK_SIB_SCALE` -/
def maskSibScale (x : U8) : Nat := maskModrmMod x

/-- `MASK_SIB_INDEX` -/
def maskSibIndex (x : U8) : Nat := maskModrmReg x

/-- `MASK_SIB_BASE` -/
def maskSibBase (x : U8) : Nat := maskModrmRm x

/-! ## Rows -/

/-- `INST`: the type and its `TYPE_3` flag apart, without the columns that no decision reads. -/
structure Inst where
  type : InstructionType
  type3 : Bool
  mnemonic : Option String
  flags1 : U32
  flags2 : U32
  flags3 : U32
  modrm : Bool
  deriving Repr, DecidableEq

namespace Inst

/-- The addressing methods of the operands that are there. -/
def methods (ptr : Inst) : List AddressingMethod :=
  methodOf ptr.flags1 ++ (methodOf ptr.flags2 ++ methodOf ptr.flags3)

/-- What the rows of the tables satisfy: an operand in the ModRM byte has one, a ModRM byte has an
operand, far pointers and plain addresses come without, a displacement has no other operand's bytes
before it, and a relative operand has no additional flags. -/
structure Valid (ptr : Inst) : Prop where
  needs : ∀ am ∈ ptr.methods, am.usesModrm → ptr.modrm
  counted : ptr.modrm → ptr.methods ≠ []
  direct : ∀ am ∈ ptr.methods, am = .a ∨ am = .o → ptr.modrm = false
  ordered : ptr.methods.Pairwise fun am am' => am'.displaces → ¬am.displaces ∧ ¬am.isImmediate
  relative : PlainRelative ptr.flags1 ∧ PlainRelative ptr.flags2 ∧ PlainRelative ptr.flags3

instance (ptr : Inst) : Decidable ptr.Valid :=
  decidable_of_iff ((∀ am ∈ ptr.methods, am.usesModrm → ptr.modrm) ∧
      (ptr.modrm → ptr.methods ≠ []) ∧
      (∀ am ∈ ptr.methods, am = .a ∨ am = .o → ptr.modrm = false) ∧
      (ptr.methods.Pairwise fun am am' => am'.displaces → ¬am.displaces ∧ ¬am.isImmediate) ∧
      PlainRelative ptr.flags1 ∧ PlainRelative ptr.flags2 ∧ PlainRelative ptr.flags3)
    ⟨fun ⟨h₁, h₂, h₃, h₄, h₅⟩ => ⟨h₁, h₂, h₃, h₄, h₅⟩,
      fun ⟨h₁, h₂, h₃, h₄, h₅⟩ => ⟨h₁, h₂, h₃, h₄, h₅⟩⟩

/-- The row of an opcode that is no instruction, or a valid one. -/
def Listed (ptr : Inst) : Prop := ptr.mnemonic ≠ none → ptr.Valid

/-- The row belongs to an opcode that the ModRM byte completes. -/
def Extends (ptr : Inst) : Prop := ptr.mnemonic ≠ none → ptr.modrm

instance (ptr : Inst) : Decidable ptr.Listed := inferInstanceAs (Decidable (_ → _))

instance (ptr : Inst) : Decidable ptr.Extends := inferInstanceAs (Decidable (_ → _))

end Inst

/-- `inst_table1`, `inst_table2` and the others: one-byte, two-byte and three-byte opcodes, the
co-processor's by escape byte, the extension groups by number.  Group 7 has two rows of its own,
groups 12 to 14 have a second table each for the prefix 66. -/
structure OpcodeTables where
  instTable1 : U8 → Inst
  instTable2 : U8 → Inst
  instTable3_66 : U8 → Inst
  instTable3_f2 : U8 → Inst
  instTable3_f3 : U8 → Inst
  instTable4 : Nat → Nat → Inst
  instTableExt : Nat → Nat → Inst
  instTableExt7 : Nat → Inst
  instMonitor : Inst
  instMwait : Inst
  instTableExt12 : Nat → Inst
  instTableExt12_66 : Nat → Inst
  instTableExt13 : Nat → Inst
  instTableExt13_66 : Nat → Inst
  instTableExt14 : Nat → Inst
  instTableExt14_66 : Nat → Inst
  plain : ∀ opcode, (instTable1 opcode).Listed ∧ (instTable2 opcode).Listed ∧
    (instTable3_66 opcode).Listed ∧ (instTable3_f2 opcode).Listed ∧ (instTable3_f3 opcode).Listed
  escapes : ∀ fpuindex i, (instTable4 fpuindex i).Listed
  escapesExtend : ∀ fpuindex i, i < 8 → (instTable4 fpuindex i).Extends
  groups : ∀ ext i, (instTableExt ext i).Listed ∧ (instTableExt ext i).Extends
  group7 : ∀ i, (instTableExt7 i).Listed ∧ (instTableExt7 i).Extends
  monitor : instMonitor.Listed ∧ instMwait.Listed
  group12 : ∀ i, (instTableExt12 i).Listed ∧ (instTableExt12 i).Extends ∧
    (instTableExt12_66 i).Listed ∧ (instTableExt12_66 i).Extends
  group13 : ∀ i, (instTableExt13 i).Listed ∧ (instTableExt13 i).Extends ∧
    (instTableExt13_66 i).Listed ∧ (instTableExt13_66 i).Extends
  group14 : ∀ i, (instTableExt14 i).Listed ∧ (instTableExt14 i).Extends ∧
    (instTableExt14_66 i).Listed ∧ (instTableExt14_66 i).Extends

/-! ## A few rows -/

/-- The row of an opcode that is no instruction. -/
def illegal : Inst where
  type := .other
  type3 := false
  mnemonic := none
  flags1 := 0
  flags2 := 0
  flags3 := 0
  modrm := false

/-- Nine rows of `inst_table1`. -/
def fewRows (opcode : U8) : Inst :=
  match opcode.toNat with
  | 0x74 => { illegal with type := .jmpc, mnemonic := some "jz", flags1 := 0x02071000 }
  | 0x8b =>
    { illegal with mnemonic := some "mov", flags1 := 0x07052000, flags2 := 0x07044000, modrm := true }
  | 0x8d =>
    { illegal with
      type := .lea, mnemonic := some "lea", flags1 := 0x07052000, flags2 := 0x07084000
      modrm := true }
  | 0x90 => { illegal with mnemonic := some "nop" }
  | 0x9a => { illegal with type := .call, mnemonic := some "callf", flags1 := 0x07011000 }
  | 0xc3 => { illegal with type := .ret, mnemonic := some "ret", flags1 := 0x00004000 }
  | 0xc7 =>
    { illegal with mnemonic := some "mov", flags1 := 0x07042000, flags2 := 0x07064000, modrm := true }
  | 0xe8 => { illegal with type := .call, mnemonic := some "call", flags1 := 0x07071000 }
  | 0xeb => { illegal with type := .jmp, mnemonic := some "jmp", flags1 := 0x02071000 }
  | _ => illegal

theorem fewRows_listed (opcode : U8) : (fewRows opcode).Listed := by
  unfold fewRows
  split <;> decide

theorem illegal_listed : illegal.Listed := fun h => absurd rfl h

theorem illegal_extends : illegal.Extends := fun h => absurd rfl h

/-- Tables with these rows and no others. -/
def fewTables : OpcodeTables where
  instTable1 := fewRows
  instTable2 _ := illegal
  instTable3_66 _ := illegal
  instTable3_f2 _ := illegal
  instTable3_f3 _ := illegal
  instTable4 _ _ := illegal
  instTableExt _ _ := illegal
  instTableExt7 _ := illegal
  instMonitor := illegal
  instMwait := illegal
  instTableExt12 _ := illegal
  instTableExt12_66 _ := illegal
  instTableExt13 _ := illegal
  instTableExt13_66 _ := illegal
  instTableExt14 _ := illegal
  instTableExt14_66 _ := illegal
  plain opcode := ⟨fewRows_listed opcode, illegal_listed, illegal_listed, illegal_listed,
    illegal_listed⟩
  escapes _ _ := illegal_listed
  escapesExtend _ _ _ := illegal_extends
  groups _ _ := ⟨illegal_listed, illegal_extends⟩
  group7 _ := ⟨illegal_listed, illegal_extends⟩
  monitor := ⟨illegal_listed, illegal_listed⟩
  group12 _ := ⟨illegal_listed, illegal_extends, illegal_listed, illegal_extends⟩
  group13 _ := ⟨illegal_listed, illegal_extends, illegal_listed, illegal_extends⟩
  group14 _ := ⟨illegal_listed, illegal_extends, illegal_listed, illegal_extends⟩

end Libdasm
end PEReplay
