/-
# PEReplay.Libdasm.Relative — where the sweeper looks for the destination of a direct transfer.

The sweeper adds the immediate of the first operand to the address behind the instruction.  For a
relative operand that is where the processor goes, except that nothing is cut off for 16-bit
operands; a far pointer is no immediate to `get_operand_immediate`, and the address behind the
instruction is taken for its destination.
-/
import PEReplay.Libdasm.Address
import PEReplay.Libdasm.Code

namespace PEReplay
namespace Libdasm

open Decoder

/-- The sign extension that `AM_J` asks for leaves the size alone. -/
theorem maskOt_signed (oflags : U32) : maskOt (oflags ||| flagSigned) = maskOt oflags := by
  have hbits : (oflags ||| flagSigned) &&& 0xff000000 = oflags &&& 0xff000000 := by
    rw [BitVec.and_or_distrib_right]
    simp [flagSigned]
  unfold maskOt
  rw [hbits]

theorem maskFlags_signed {oflags : U32} (h : maskFlags oflags = 0) :
    maskFlags (oflags ||| flagSigned) = flagSigned := by
  unfold maskFlags at *
  rw [BitVec.and_or_distrib_right, h]
  rfl

/-- What the operand of a transfer holds: a relative one the displacement, a far pointer no
immediate. -/
structure Operand.Transfers (l : List U8) (mode : Mode) (iflags : U32) (op : Operand) : Prop where
  immediate : maskAm op.flags = .j ∨ maskAm op.flags = .a → op.type = .immediate
  byte : maskAm op.flags = .j → maskOt op.flags = .b →
    op.immbytes = 1 ∧ op.immediate = X86.disp8 (cells l) op.immoffset
  dword : maskAm op.flags = .j → maskOt op.flags = .v → modeCheckOperand mode iflags = .mode32 →
    op.immbytes = 4 ∧ op.immediate = X86.disp32 (cells l) op.immoffset
  word : maskAm op.flags = .j → maskOt op.flags = .v → modeCheckOperand mode iflags = .mode16 →
    op.immbytes = 2 ∧ op.immediate = (X86.disp16 (cells l) op.immoffset).setWidth 32
  far : maskAm op.flags = .a → op.immbytes = 0

theorem accepts_relative {inst : Inst} {oflags : U32} {form : Form} {ins ins' : Instruction}
    {op op' : Operand} {offset : Nat} {mode : Mode} {iflags : U32} {l : List U8} {n : Nat}
    (h : (immediateOperand inst (oflags ||| flagSigned) form ins op offset mode iflags).Accepts l
      (ins', op') n) (hflags : op.flags = oflags) (ham : maskAm oflags = .j)
    (hplain : PlainRelative oflags) : op'.Transfers l mode iflags := by
  subst hflags
  simp only [immediateOperand, accepts_bind, accepts_pure, Prod.mk.injEq] at h
  obtain ⟨⟨k, x⟩, _, _, hx, ⟨⟨rfl, rfl⟩, rfl⟩, rfl⟩ := h
  rw [Nat.add_comm _ offset]
  unfold fetchImmediate at hx
  rw [maskOt_signed] at hx
  constructor
  · exact fun _ => rfl
  · intro _ hb
    simp only [hb, accepts_bind, accepts_fetch, accepts_pure, Prod.mk.injEq] at hx
    obtain ⟨b, _, _, ⟨hcell, rfl⟩, ⟨⟨rfl, rfl⟩, rfl⟩, rfl⟩ := hx
    rw [if_pos (maskFlags_signed (hplain ham)), signExtendByte_setWidth, X86.disp8, cells_eq hcell]
    exact ⟨rfl, rfl⟩
  · intro _ hv hmode
    simp only [hv, hmode, accepts_bind, accepts_pure, Prod.mk.injEq] at hx
    obtain ⟨w, _, _, hw, ⟨⟨rfl, rfl⟩, rfl⟩, rfl⟩ := hx
    exact ⟨rfl, fetch32_cells hw⟩
  · intro _ hv hmode
    simp only [hv, hmode, accepts_bind, accepts_pure, Prod.mk.injEq] at hx
    obtain ⟨w, _, _, hw, ⟨⟨rfl, rfl⟩, rfl⟩, rfl⟩ := hx
    rw [fetch16_cells hw]
    exact ⟨rfl, rfl⟩
  · intro ha
    rw [ham] at ha
    cases ha

/-- An operand of another kind. -/
theorem Operand.Transfers.of_other {l : List U8} {mode : Mode} {iflags : U32} {op : Operand}
    (hj : maskAm op.flags ≠ .j) (ha : maskAm op.flags ≠ .a) : op.Transfers l mode iflags where
  immediate := fun h => (h.elim hj ha).elim
  byte := fun h => absurd h hj
  dword := fun h => absurd h hj
  word := fun h => absurd h hj
  far := fun h => absurd h ha

theorem accepts_getOperand_transfers {inst : Inst} {oflags : U32} {ins ins' : Instruction}
    {op : Operand} {offset : Nat} {mode : Mode} {iflags : U32} {l : List U8} {n : Nat}
    (hplain : PlainRelative oflags)
    (h : (getOperand inst oflags ins offset mode iflags).Accepts l (ins', op) n) :
    op.Transfers l mode iflags := by
  unfold getOperand at h
  split at h
  · simp only [accepts_pure, Prod.mk.injEq] at h
    obtain ⟨⟨rfl, rfl⟩, rfl⟩ := h
    exact .of_other (by decide) (by decide)
  · simp only [accepts_bind] at h
    obtain ⟨⟨ins₁, form⟩, m, k, hm, hk, rfl⟩ := h
    have hflags : op.flags = oflags := (accepts_operandBy_memory (by rfl) hk).1
    by_cases hj : maskAm oflags = .j
    · unfold operandBy at hk
      rw [hj] at hk
      exact accepts_relative hk rfl hj hplain
    by_cases ha : maskAm oflags = .a
    · unfold operandBy at hk
      rw [ha] at hk
      simp only [farOperand, accepts_bind, accepts_pure, Prod.mk.injEq] at hk
      obtain ⟨x, _, _, -, ⟨seg, _, _, -, ⟨⟨rfl, rfl⟩, rfl⟩, rfl⟩, rfl⟩ := hk
      refine ⟨fun _ => rfl, fun h => absurd h hj, fun h => absurd h hj, fun h => absurd h hj,
        fun _ => rfl⟩
    · exact .of_other (hflags ▸ hj) (hflags ▸ ha)

theorem accepts_getInstruction_transfers {T : OpcodeTables} {mode : Mode} {l : List U8}
    {ins : Instruction} {n : Nat} (h : (getInstruction T mode).Accepts l ins n) :
    ins.op1.Transfers l ins.mode ins.flags := by
  simp only [getInstruction, accepts_bind] at h
  obtain ⟨⟨index, flags⟩, m, _, -, ⟨sel, k, j, hsel, h, rfl⟩, rfl⟩ := h
  obtain ⟨⟨hlisted, -⟩, -⟩ := accepts_selectInst hsel
  split at h
  · exact absurd h not_accepts_refuse
  · have hvalid := hlisted ‹_›
    simp only [parseOperands, accepts_bind, accepts_pure] at h
    obtain ⟨⟨ins₁, op1⟩, n₁, _, h₁, ⟨⟨ins₂, op2⟩, n₂, _, h₂, ⟨⟨ins₃, op3⟩, n₃, _, h₃, ⟨rfl, rfl⟩,
      rfl⟩, rfl⟩, rfl⟩ := h
    exact accepts_getOperand_transfers hvalid.relative.1 h₁

/-- **The destination of a direct transfer.**  With a relative operand it is where the processor
goes; with 16-bit operands it agrees with that in its lower half, for nothing is cut off; with a far
pointer it is the address behind the instruction, whatever the pointer is. -/
theorem direct_target (T : OpcodeTables) {l : List U8} {ins : Instruction} {n : Nat}
    (h : (getInstruction T .mode32).Accepts l ins n) {v : PEReplay.Instruction}
    (hview : ins.view = some v) (va : U32) :
    (maskAm ins.op1.flags = .j → maskOt ins.op1.flags = .b → v.directTarget va =
      [va + v.length + X86.disp8 (cells l) ins.op1.immoffset]) ∧
    (maskAm ins.op1.flags = .j → maskOt ins.op1.flags = .b →
      modeCheckOperand ins.mode ins.flags = .mode32 → v.directTarget va =
        [X86.relative8 (cells l) (va + v.length) ins.op1.immoffset]) ∧
    (maskAm ins.op1.flags = .j → maskOt ins.op1.flags = .b →
      modeCheckOperand ins.mode ins.flags = .mode16 → (v.directTarget va).map (·.setWidth 16) =
        [X86.relative8In16 (cells l) (va + v.length) ins.op1.immoffset]) ∧
    (maskAm ins.op1.flags = .j → maskOt ins.op1.flags = .v →
      modeCheckOperand ins.mode ins.flags = .mode32 → v.directTarget va =
        [X86.relative32 (cells l) (va + v.length) ins.op1.immoffset]) ∧
    (maskAm ins.op1.flags = .j → maskOt ins.op1.flags = .v →
      modeCheckOperand ins.mode ins.flags = .mode16 → (v.directTarget va).map (·.setWidth 16) =
        [X86.relative16 (cells l) (va + v.length) ins.op1.immoffset]) ∧
    (maskAm ins.op1.flags = .a → v.directTarget va = [va + v.length]) := by
  have htransfers := accepts_getInstruction_transfers h
  have hop1 : v.op1 = ins.op1.view := by
    unfold Instruction.view at hview
    split at hview
    · cases hview
      rfl
    · cases hview
  unfold PEReplay.Instruction.directTarget
  rw [hop1]
  have htype (hop : maskAm ins.op1.flags = .j ∨ maskAm ins.op1.flags = .a) :
      ins.op1.view.type = .immediate := htransfers.immediate hop
  have hbyte (hj : maskAm ins.op1.flags = .j) (hb : maskOt ins.op1.flags = .b) :
      ins.op1.view.getImmediate = X86.disp8 (cells l) ins.op1.immoffset := by
    obtain ⟨hbytes, himm⟩ := htransfers.byte hj hb
    simp [PEReplay.Operand.getImmediate, Operand.view, hbytes, himm]
  refine ⟨fun hj hb => ?_, fun hj hb _ => ?_, fun hj hb _ => ?_, fun hj hv hmode => ?_,
    fun hj hv hmode => ?_, fun ha => ?_⟩
  · rw [if_pos (htype (.inl hj)), hbyte hj hb]
  · rw [if_pos (htype (.inl hj)), hbyte hj hb, X86.relative8]
  · rw [if_pos (htype (.inl hj)), hbyte hj hb, ← X86.setWidth_relative8, X86.relative8]
    rfl
  · obtain ⟨hbytes, himm⟩ := htransfers.dword hj hv hmode
    rw [if_pos (htype (.inl hj))]
    simp [PEReplay.Operand.getImmediate, Operand.view, hbytes, himm, X86.relative32]
  · obtain ⟨hbytes, himm⟩ := htransfers.word hj hv hmode
    rw [if_pos (htype (.inl hj))]
    simp [PEReplay.Operand.getImmediate, Operand.view, hbytes, himm, X86.relative16,
      BitVec.setWidth_add]
  · rw [if_pos (htype (.inr ha))]
    simp [PEReplay.Operand.getImmediate, Operand.view, htransfers.far ha]

/-- Where the sweeper looks for the destination of these bytes at `0x1000`. -/
def targetOf (e : List U8) : Option (List U32) :=
  (decoded e).view.map (·.directTarget 0x1000)

theorem targetOf_eq {e : List U8} (hview : (decoded e).view.isSome) :
    targetOf e = some (((decoded e).view.get hview).directTarget 0x1000) := by
  obtain ⟨v, hv⟩ := Option.isSome_iff_exists.mp hview
  simp [targetOf, hv]

/-- A short `jmp` to itself, the same with a prefix, a `call` with four and one with two bytes of
displacement, and a far `call`. -/
theorem direct_target_sample :
    targetOf [0xeb, 0xfe] = some [X86.relative8 (cells [0xeb, 0xfe]) 0x1002 1] ∧
    (targetOf [0x66, 0xeb, 0xfe]).map (List.map (·.setWidth 16)) =
      some [X86.relative8In16 (cells [0x66, 0xeb, 0xfe]) 0x1003 2] ∧
    targetOf [0xe8, 0xfb, 0xff, 0xff, 0xff] =
      some [X86.relative32 (cells [0xe8, 0xfb, 0xff, 0xff, 0xff]) 0x1005 1] ∧
    (targetOf [0x66, 0xe8, 0xfb, 0xff]).map (List.map (·.setWidth 16)) =
      some [X86.relative16 (cells [0x66, 0xe8, 0xfb, 0xff]) 0x1004 2] ∧
    targetOf [0x9a, 0, 0x20, 0, 0, 0x1b, 0] = some [0x1007] := by
  have htarget (e : List U8) (hview : (decoded e).view.isSome)
      (h : (getInstruction fewTables .mode32).Accepts e (decoded e) e.length) :=
    direct_target fewTables h (Option.some_get hview).symm 0x1000
  refine ⟨?_, ?_, ?_, ?_, ?_⟩
  · rw [targetOf_eq (by decide), (htarget [0xeb, 0xfe] (by decide) (by decide)).2.1 (by decide)
      (by decide) (by decide)]
    rfl
  · rw [targetOf_eq (by decide), Option.map_some, (htarget [0x66, 0xeb, 0xfe] (by decide)
      (by decide)).2.2.1 (by decide) (by decide) (by decide)]
    rfl
  · rw [targetOf_eq (by decide), (htarget [0xe8, 0xfb, 0xff, 0xff, 0xff] (by decide)
      (by decide)).2.2.2.1 (by decide) (by decide) (by decide)]
    rfl
  · rw [targetOf_eq (by decide), Option.map_some, (htarget [0x66, 0xe8, 0xfb, 0xff] (by decide)
      (by decide)).2.2.2.2.1 (by decide) (by decide) (by decide)]
    rfl
  · rw [targetOf_eq (by decide), (htarget [0x9a, 0, 0x20, 0, 0, 0x1b, 0] (by decide)
      (by decide)).2.2.2.2.2 (by decide)]
    rfl

end Libdasm
end PEReplay
