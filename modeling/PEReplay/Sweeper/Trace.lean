/-
# PEReplay.Sweeper.Trace — code sections, instructions and `StaticTrace`.

A `StaticTrace` is a range of addresses found by static analysis.  `StaticTrace::process` walks from
its start over consecutive instructions until control leaves unconditionally, an instruction does
not decode or the section ends; on the way it collects the destinations of direct transfers and the
addresses taken by `lea`.

The disassembler `get_instruction` is a parameter: at each address it fails or yields an instruction
of positive length.
-/
import PEReplay.Machine
import PEReplay.Lib.Loop
import PEReplay.Lib.KeyedSet

namespace PEReplay

open Loop

/-! ## Sections and instructions -/

/-- `m_code_section_start` and `m_code_section_size`: a section mapped below the top of the address
space. -/
structure CodeSection where
  start : U32
  size : U32
  fits : start.toNat + size.toNat < 2 ^ 32
  deriving DecidableEq

namespace CodeSection

/-- `m_code_section_start + m_code_section_size` -/
def stop (sec : CodeSection) : U32 := sec.start + sec.size

/-- `IsAddrCode` -/
def isAddrCode (sec : CodeSection) (addr : U32) : Bool :=
  addr ≥ sec.start && addr < sec.start + sec.size

end CodeSection

/-- The `INSTRUCTION_TYPE_*` that the tool distinguishes. -/
inductive InstructionType where
  | jmp | jmpc | jecxz | loop | call | ret | lea | other
  deriving Repr, DecidableEq

/-- `OPERAND_TYPE_*` -/
inductive OperandType where
  | none | memory | register | immediate
  deriving Repr, DecidableEq

/-- `LIBDASM_REGISTER_NOP` -/
def libdasmRegisterNop : Nat := 8

/-- The fields of an `OPERAND` that the tool reads. -/
structure Operand where
  type : OperandType
  basereg : Nat
  indexreg : Nat
  dispbytes : Nat
  immbytes : Nat
  displacement : U32
  immediate : U32
  deriving Repr, DecidableEq

namespace Operand

/-- `get_operand_immediate` into a variable that is zero: it stays zero without immediate bytes. -/
def getImmediate (op : Operand) : U32 := if op.immbytes ≠ 0 then op.immediate else 0

/-- `get_operand_displacement` -/
def getDisplacement (op : Operand) : Option U32 :=
  if op.dispbytes ≠ 0 then some op.displacement else none

end Operand

/-- The fields of an `INSTRUCTION` that the tool reads. -/
structure Instruction where
  length : U32
  type : InstructionType
  op1 : Operand
  op2 : Operand
  length_pos : 0 < length.toNat := by decide
  deriving DecidableEq

/-- The bytes of the address space and what `get_instruction` makes of them at each address. -/
structure Code where
  mem : Memory
  getInstruction : U32 → Option Instruction

namespace Instruction

/-- The destination of a direct transfer: `inst_va + instruction.length + offset`, when the first
operand is an immediate. -/
def directTarget (ins : Instruction) (instVa : U32) : List U32 :=
  if ins.op1.type = .immediate then [instVa + ins.length + ins.op1.getImmediate] else []

/-- The address of `lea reg, [disp]`, a memory operand without registers. -/
def leaTarget (ins : Instruction) : Option U32 :=
  if ins.op2.type = .memory ∧ ins.op2.basereg = libdasmRegisterNop ∧
      ins.op2.indexreg = libdasmRegisterNop then ins.op2.getDisplacement
  else none

end Instruction

/-! ## `StaticTrace` -/

/-- `std::set<boost::uint32_t>` -/
abbrev TargetSet := KeyedSet (BitVec.toNat : U32 → Nat)

/-- An address is its own key, so none is refused. -/
theorem mem_insert_target {targets : TargetSet} {a b : U32} :
    b ∈ targets.insert a ↔ b = a ∨ b ∈ targets :=
  KeyedSet.mem_insert_of_injective fun _ _ => BitVec.eq_of_toNat_eq

/-- `StaticTrace`.  The `id` is the identity of the object, for the containers of pointers. -/
structure StaticTrace where
  id : Nat
  start : U32
  size : U32
  codeSection : CodeSection
  deriving DecidableEq

namespace StaticTrace

/-- The constructor. -/
def new (id : Nat) (start : U32) (codeSection : CodeSection) : StaticTrace :=
  ⟨id, start, 0, codeSection⟩

/-- `StaticTrace::AssembleTrace` -/
def assembleTrace (id : Nat) (start size : U32) (codeSection : CodeSection) : StaticTrace :=
  { new id start codeSection with size := size }

def getEnd (t : StaticTrace) : U32 := t.start + t.size

def equals (t : StaticTrace) (start : U32) : Bool := t.start == start

def biggerThan (t : StaticTrace) (start : U32) : Bool := t.start > start

def smallerThan (t : StaticTrace) (start : U32) : Bool := t.start < start

def intersect (t : StaticTrace) (start size : U32) : Bool :=
  !(t.start + t.size ≤ start || t.start ≥ start + size)

def contains (t : StaticTrace) (start size : U32) : Bool :=
  t.start ≤ start && t.start + t.size ≥ start + size

def pertains (t : StaticTrace) (start size : U32) : Bool :=
  start ≤ t.start && start + size ≥ t.start + t.size

def adjustEnd (t : StaticTrace) (stop : U32) : StaticTrace := { t with size := stop - t.start }

/-- The variables of `StaticTrace::process`. -/
structure ProcessState where
  instVa : U32
  size : U32
  genTargets : List U32
  leaTargets : TargetSet

/-- One pass of the `while (true)` loop. -/
def processBody (code : Code) (sec : CodeSection) (st : ProcessState) :
    LoopStep ProcessState ProcessState :=
  match (if sec.isAddrCode st.instVa then code.getInstruction st.instVa else none) with
  | none => .exit st
  | some ins =>
    let st := { st with size := st.size + ins.length }
    let direct := ins.directTarget st.instVa
    let after := st.instVa + ins.length
    match ins.type with
    -- `jmp` ends the trace, a conditional jump does not
    | .jmp => .exit { st with genTargets := st.genTargets ++ direct }
    | .jmpc => .next { st with genTargets := st.genTargets ++ direct, instVa := after }
    -- `call` ends it too, and the address it returns to is a target
    | .call => .exit { st with genTargets := st.genTargets ++ direct ++ [after] }
    | .ret => .exit st
    | .lea =>
      match ins.leaTarget with
      | some disp => .next { st with leaTargets := st.leaTargets.insert disp, instVa := after }
      | none => .next { st with instVa := after }
    | .jecxz | .loop | .other => .next { st with instVa := after }

/-- `StaticTrace::process`, with at most `n` passes: the trace with its size, `gen_targets` and
`lea_targets`. -/
def process (n : Nat) (code : Code) (t : StaticTrace) (genTargets : List U32)
    (leaTargets : TargetSet) : Option (StaticTrace × List U32 × TargetSet) :=
  (whileLoop (fun st => some (processBody code t.codeSection st)) n
    ⟨t.start, t.size, genTargets, leaTargets⟩).map fun st =>
      ({ t with size := st.size }, st.genTargets, st.leaTargets)

end StaticTrace

/-- `std::set<StaticTrace*, StaticTrace_Comparator>`: ordered by start, one trace per start. -/
abbrev TraceSet := KeyedSet (fun t : StaticTrace => t.start.toNat)

end PEReplay
