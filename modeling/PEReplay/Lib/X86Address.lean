/-
# PEReplay.Lib.X86Address — the addresses that the bytes of an instruction stand for.

The processor's own account, from the fields of the bytes.  For memory: a base register, an index
register times a power of two, and a displacement, added modulo the address size.  For a relative
transfer: the address of the next instruction and a signed displacement.  The bytes of the
instruction are a function of their offset; segments are not accounted for.
-/
import Mathlib.Data.BitVec

namespace PEReplay
namespace X86

/-! ## Fields -/

/-- Bits 7 and 6 of a ModRM byte, or the scale of a SIB byte. -/
def modField (b : BitVec 8) : Nat := b.toNat / 64

/-- Bits 5 to 3 of a ModRM byte, or the index of a SIB byte. -/
def regField (b : BitVec 8) : Nat := b.toNat / 8 % 8

/-- Bits 2 to 0 of a ModRM byte, or the base of a SIB byte. -/
def rmField (b : BitVec 8) : Nat := b.toNat % 8

variable (bytes : Nat → BitVec 8) (regs : Nat → BitVec 32)

/-! ## Displacements -/

def disp8 (i : Nat) : BitVec 32 := (bytes i).signExtend 32

def disp16 (i : Nat) : BitVec 16 := bytes (i + 1) ++ bytes i

def disp32 (i : Nat) : BitVec 32 :=
  (bytes (i + 3) ++ bytes (i + 2) : BitVec 16) ++ (bytes (i + 1) ++ bytes i : BitVec 16)

/-- The displacement of the 32-bit forms that have a base register. -/
def dispBy32 (mod i : Nat) : BitVec 32 :=
  match mod with
  | 0 => 0
  | 1 => disp8 bytes i
  | _ => disp32 bytes i

/-! ## Addresses -/

/-- The index register of a SIB byte, scaled; the stack pointer is none. -/
def scaledIndex (sib : BitVec 8) : BitVec 32 :=
  if regField sib = 4 then 0 else regs (regField sib) * BitVec.ofNat 32 (2 ^ modField sib)

/-- The 32-bit forms, with the ModRM byte at `i`. -/
def address32 (i : Nat) : BitVec 32 :=
  let modrm := bytes i
  if rmField modrm = 4 then
    let sib := bytes (i + 1)
    if rmField sib = 5 ∧ modField modrm = 0 then scaledIndex regs sib + disp32 bytes (i + 2)
    else regs (rmField sib) + scaledIndex regs sib + dispBy32 bytes (modField modrm) (i + 2)
  else if rmField modrm = 5 ∧ modField modrm = 0 then disp32 bytes (i + 1)
  else regs (rmField modrm) + dispBy32 bytes (modField modrm) (i + 1)

/-- The lower half of a register. -/
def low (r : Nat) : BitVec 16 := (regs r).setWidth 16

/-- The registers of the 16-bit forms: BX is 3, BP 5, SI 6 and DI 7. -/
def base16 (modrm : BitVec 8) : BitVec 16 :=
  match rmField modrm with
  | 0 => low regs 3 + low regs 6
  | 1 => low regs 3 + low regs 7
  | 2 => low regs 5 + low regs 6
  | 3 => low regs 5 + low regs 7
  | 4 => low regs 6
  | 5 => low regs 7
  | 6 => if modField modrm = 0 then 0 else low regs 5
  | _ => low regs 3

/-- The displacement of the 16-bit forms. -/
def dispBy16 (modrm : BitVec 8) (i : Nat) : BitVec 16 :=
  match modField modrm with
  | 0 => if rmField modrm = 6 then disp16 bytes i else 0
  | 1 => (bytes i).signExtend 16
  | _ => disp16 bytes i

/-- The 16-bit forms, with the ModRM byte at `i`. -/
def address16 (i : Nat) : BitVec 16 :=
  base16 regs (bytes i) + dispBy16 bytes (bytes i) (i + 1)

/-! ## Relative transfers -/

/-- Behind an instruction that ends at `next`, with the displacement at `i`. -/
def relative8 (next : BitVec 32) (i : Nat) : BitVec 32 := next + disp8 bytes i

def relative32 (next : BitVec 32) (i : Nat) : BitVec 32 := next + disp32 bytes i

/-- With 16-bit operands the sum is cut off, whatever the size of the displacement. -/
def relative16 (next : BitVec 32) (i : Nat) : BitVec 16 := next.setWidth 16 + disp16 bytes i

def relative8In16 (next : BitVec 32) (i : Nat) : BitVec 16 :=
  next.setWidth 16 + (bytes i).signExtend 16

theorem setWidth_relative8 (next : BitVec 32) (i : Nat) :
    (relative8 bytes next i).setWidth 16 = relative8In16 bytes next i := by
  have hdisp : (disp8 bytes i).setWidth 16 = (bytes i).signExtend 16 := by
    refine BitVec.eq_of_getElem_eq fun k hk => ?_
    have hk' : k < 32 := by omega
    rw [BitVec.getElem_setWidth, BitVec.getLsbD_eq_getElem hk', disp8, BitVec.getElem_signExtend,
      BitVec.getElem_signExtend]
  rw [relative8, relative8In16, BitVec.setWidth_add _ _ (by decide), hdisp]

end X86
end PEReplay
