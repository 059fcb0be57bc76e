/-
# PEReplay.Replay.Frame — `Frame` and the rows of `frames.csv`.

A `Frame` is the register context and the top stack slots at the entry of a trace.  Its id counts
every frame constructed, kept or not; its serial id counts the frames written.  Both counters are
`boost::uint32_t` statics.
-/
import PEReplay.Machine
import PEReplay.Lib.Printf

namespace PEReplay

open Printf

/-- `RE_CONTEXT` -/
structure REContext where
  eip : U32
  esp : U32
  ebp : U32
  eax : U32
  ebx : U32
  ecx : U32
  edx : U32
  esi : U32
  edi : U32
  deriving Repr, DecidableEq

/-- The `memset(&m_context, 0, …)` of the constructor. -/
def REContext.zero : REContext := ⟨0, 0, 0, 0, 0, 0, 0, 0, 0⟩

/-- `RE_STACK_SLOTS_NUM` -/
abbrev reStackSlotsNum : Nat := 8

/-- `RE_STACK` -/
abbrev REStack := Vector U32 reStackSlotsNum

/-- `Frame` -/
structure Frame where
  context : REContext
  stack : REStack
  id : U32
  bid : U32
  deriving Repr, DecidableEq

/-- `Frame::Frame`, given `s_last_id`: the zeroed frame and the counter after it. -/
def Frame.new (bid lastId : U32) : Frame × U32 :=
  (⟨REContext.zero, Vector.replicate reStackSlotsNum 0, lastId + 1, bid⟩, lastId + 1)

/-- The arguments `Frame::Serialize` hands to the `frames.csv` format. -/
structure FrameRow where
  serial : U32
  id : U32
  bid : U32
  context : REContext
  stack : REStack
  deriving Repr, DecidableEq

/-- `Frame::Serialize`, given `s_last_serialized_id`: the row written and the counter after it. -/
def Frame.serialize (frame : Frame) (lastSerializedId : U32) : FrameRow × U32 :=
  (⟨lastSerializedId + 1, frame.id, frame.bid, frame.context, frame.stack⟩, lastSerializedId + 1)

/-- `"0x%08x"` -/
def hexWord (x : U32) : List Char := '0' :: 'x' :: zeroPad 8 (hex x.toNat)

/-- `"%d"` of an unsigned word: the conversion reads it as an `int`. -/
def intWord (x : U32) : List Char := signed x.toInt

/-- The registers in the order of the format. -/
def REContext.registers (c : REContext) : List U32 :=
  [c.eip, c.esp, c.ebp, c.eax, c.ebx, c.ecx, c.edx, c.esi, c.edi]

/-- The text of a row: three `%d`, then every register and slot as `0x%08x`, comma separated. -/
def FrameRow.text (r : FrameRow) : List Char :=
  [',' ].intercalate
    ([intWord r.serial, intWord r.id, intWord r.bid]
      ++ (r.context.registers ++ r.stack.toList).map hexWord) ++ ['\n']

end PEReplay
