/-
# PEReplay.Replay.Block — `Block` and `Process_Encounter_Trace`.

Pin hands the tool a trace once, before its code first runs.  For every basic block of a trace in
the main module the tool builds a `Block` (disassembly and raw bytes of each instruction), inserts
one call of `Instrument_BBL` at the first of them, and writes the block to `blocks.csv`.  The id of
the first block doubles as the id of the trace, with 0 as "no block yet".
-/
import PEReplay.Replay.Frame

namespace PEReplay

open Printf

/-! ## What Pin hands over -/

/-- An `INS`: an x86 instruction is one to fifteen bytes long, and its disassembly is taken as the C
string `INS_Disassemble(ins).c_str()`. -/
structure Ins where
  address : U32
  size : Nat
  disassemble : List Char
  size_pos : 1 ≤ size := by decide
  size_le : size ≤ 15 := by decide
  noNul : '\x00' ∉ disassemble := by decide

/-- A `BBL`; `BBL_InsHead` and `BBL_InsTail` are valid, so it has an instruction. -/
structure BBL where
  address : U32
  insns : List Ins
  nonempty : insns ≠ [] := by decide

/-- A `TRACE` -/
structure Trace where
  address : U32
  bbls : List BBL

/-- The bytes of an instruction, read from memory at the encounter. -/
def Ins.rawBytes (mem : Memory) (ins : Ins) : List U8 :=
  (List.range ins.size).map fun i => mem (ins.address + BitVec.ofNat 32 i)

/-! ## `Block` -/

/-- `Block`; the disassembly and raw texts are what has been appended so far. -/
structure Block where
  disasm : List Char
  raw : List Char
  id : U32
  tid : U32
  eip : U32
  deriving Repr, DecidableEq

/-- `" _|_ "` -/
def separator : List Char := [' ', '_', '|', '_', ' ']

namespace Block

/-- `Block::Block`, given `s_last_id`: the block and the counter after it. -/
def new (eip lastId : U32) : Block × U32 :=
  (⟨[], [], lastId + 1, lastId + 1, eip⟩, lastId + 1)

def addDisasmLine (b : Block) (disasmLine : List Char) : Block :=
  { b with disasm := b.disasm ++ disasmLine ++ separator }

def addRawLine (b : Block) (rawLine : List Char) : Block :=
  { b with raw := b.raw ++ rawLine ++ separator }

def setTid (b : Block) (tid : U32) : Block := { b with tid := tid }

/-- `Block::Serialize`: `%d,%d,0x%08x,"%s","%s"\n` -/
def serialize (b : Block) : List Char :=
  intWord b.id ++ ',' :: (intWord b.tid ++ ',' :: (hexWord b.eip ++ ',' :: '\x22' ::
    (b.raw ++ '\x22' :: ',' :: '\x22' :: (b.disasm ++ ['\x22', '\n']))))

end Block

/-- `"%02X "` -/
def rawByte (x : U8) : List Char := zeroPad 2 (hexUpper x.toNat) ++ [' ']

/-- The `raw_bytes` text built by the `sprintf` loop: at most 45 of its 64 characters. -/
def rawLine (bytes : List U8) : List Char := bytes.flatMap rawByte

/-- Append the two lines of one instruction. -/
def Block.addIns (mem : Memory) (b : Block) (ins : Ins) : Block :=
  (b.addDisasmLine ins.disassemble).addRawLine (rawLine (ins.rawBytes mem))

/-- The loop from `BBL_InsHead` while `ins != BBL_InsTail`. -/
def Block.addHead (mem : Memory) (b : Block) : List Ins → Block
  | [] => b
  | [_] => b
  | ins :: rest => (b.addIns mem ins).addHead mem rest

/-- The head loop and the separate tail code. -/
def Block.fill (mem : Memory) (b : Block) (bbl : BBL) : Block :=
  (b.addHead mem bbl.insns).addIns mem (bbl.insns.getLast bbl.nonempty)

/-! ## `Process_Encounter_Trace` -/

/-- `Block::s_last_id`, the main module's range, the inserted calls of `Instrument_BBL` (each with
the `bid` argument it carries) and the blocks written to `blocks.csv`. -/
structure BlockGlobals where
  lastId : U32
  mainModuleStart : U32
  mainModuleSize : U32
  inserted : List U32
  blocksCsv : List Block
  deriving Repr, DecidableEq

namespace BlockGlobals

/-- The statics at start, once the main module is known. -/
def init (mainModuleStart mainModuleSize : U32) : BlockGlobals :=
  ⟨0, mainModuleStart, mainModuleSize, [], []⟩

/-- `ImageInfo::IsAddrWithinMainModule` -/
def isAddrWithinMainModule (g : BlockGlobals) (addr : U32) : Bool :=
  if g.mainModuleStart = 0 ∨ g.mainModuleSize = 0 then true
  else g.mainModuleStart ≤ addr && addr < g.mainModuleStart + g.mainModuleSize

/-- The loop body for one basic block; the second component is the local `tid`. -/
def encounterBbl (mem : Memory) (s : BlockGlobals × U32) (bbl : BBL) : BlockGlobals × U32 :=
  let (g, tid) := s
  let (block, lastId) := Block.new bbl.address g.lastId
  let (inserted, tid) :=
    if tid = 0 then (g.inserted ++ [block.id], block.id) else (g.inserted, tid)
  let block := (block.fill mem bbl).setTid tid
  ({ g with lastId := lastId, inserted := inserted, blocksCsv := g.blocksCsv ++ [block] }, tid)

/-- `REProgramInfo::Process_Encounter_Trace` -/
def processEncounterTrace (g : BlockGlobals) (mem : Memory) (trace : Trace) : BlockGlobals :=
  if trace.bbls.length ≠ 0 && g.isAddrWithinMainModule trace.address then
    (trace.bbls.foldl (encounterBbl mem) (g, 0)).1
  else g

end BlockGlobals

/-! ## The block of a basic block -/

/-- The block built for a basic block under a given block and trace id. -/
def blockOf (mem : Memory) (id tid : U32) (bbl : BBL) : Block :=
  ((⟨[], [], id, id, bbl.address⟩ : Block).fill mem bbl).setTid tid

namespace Block

/-- The head loop and the tail code together append one line pair per instruction, in order. -/
theorem addHead_addIns_getLast (mem : Memory) (b : Block) (insns : List Ins) (h : insns ≠ []) :
    (b.addHead mem insns).addIns mem (insns.getLast h) = insns.foldl (addIns mem) b := by
  induction insns generalizing b with
  | nil => exact absurd rfl h
  | cons ins rest ih =>
      cases rest with
      | nil => rfl
      | cons ins' rest =>
          rw [List.getLast_cons (List.cons_ne_nil _ _), List.foldl_cons]
          exact ih (b.addIns mem ins) (List.cons_ne_nil _ _)

theorem foldl_addIns (mem : Memory) (b : Block) (insns : List Ins) :
    insns.foldl (addIns mem) b =
      { b with
        disasm := b.disasm ++ insns.flatMap (fun ins => ins.disassemble ++ separator)
        raw := b.raw ++ insns.flatMap fun ins => rawLine (ins.rawBytes mem) ++ separator } := by
  induction insns generalizing b with
  | nil => simp
  | cons ins rest ih =>
      rw [List.foldl_cons, ih]
      simp [addIns, addDisasmLine, addRawLine, List.append_assoc]

end Block

/-- **What a block holds**: its ids, its address, and one separated line per instruction. -/
theorem blockOf_eq (mem : Memory) (id tid : U32) (bbl : BBL) :
    blockOf mem id tid bbl =
      { disasm := bbl.insns.flatMap fun ins => ins.disassemble ++ separator
        raw := bbl.insns.flatMap fun ins => rawLine (ins.rawBytes mem) ++ separator
        id := id
        tid := tid
        eip := bbl.address } := by
  rw [blockOf, Block.fill, Block.addHead_addIns_getLast, Block.foldl_addIns]
  simp [Block.setTid]

end PEReplay
