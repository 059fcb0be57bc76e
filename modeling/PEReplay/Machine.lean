/-
# PEReplay.Machine — the 32-bit machine the tool runs on and looks at.

`boost::uint8_t`, `uint16_t` and `uint32_t` are bit vectors, so every sum wraps as it does in the
source.  Memory is a total function on addresses: whether an address may be read is the business of
the code that reads it, not of the memory.
-/
import Mathlib.Data.BitVec

namespace PEReplay

/-- `boost::uint8_t` -/
abbrev U8 := BitVec 8

/-- `boost::uint16_t` -/
abbrev U16 := BitVec 16

/-- `boost::uint32_t`, the type of addresses and sizes -/
abbrev U32 := BitVec 32

/-- The bytes of the address space. -/
abbrev Memory := U32 → U8

namespace Memory

/-- `*(boost::uint16_t*)addr`, little endian. -/
def read16 (mem : Memory) (addr : U32) : U16 := mem (addr + 1) ++ mem addr

/-- `*(boost::uint32_t*)addr`, little endian. -/
def read32 (mem : Memory) (addr : U32) : U32 :=
  mem (addr + 3) ++ mem (addr + 2) ++ mem (addr + 1) ++ mem addr

theorem toNat_append_byte {n : Nat} (x : BitVec n) (y : U8) :
    (x ++ y).toNat = x.toNat * 256 + y.toNat := by
  rw [BitVec.toNat_append, ← Nat.shiftLeft_add_eq_or_of_lt y.isLt, Nat.shiftLeft_eq]

theorem toNat_read32 (mem : Memory) (a : U32) : (mem.read32 a).toNat =
    (((mem (a + 3)).toNat * 256 + (mem (a + 2)).toNat) * 256 + (mem (a + 1)).toNat) * 256 +
      (mem a).toNat := by
  rw [← toNat_append_byte, ← toNat_append_byte, ← toNat_append_byte]
  rfl

end Memory

/-! ## Multiples of sixteen -/

theorem toNat_and_fifteen (x : U32) : (x &&& 0xF).toNat = x.toNat % 16 := by
  rw [BitVec.toNat_and]
  exact Nat.and_two_pow_sub_one_eq_mod x.toNat 4

/-- The mask rounds down. -/
theorem toNat_and_mask (x : U32) : (x &&& 0xFFFFFFF0).toNat = x.toNat / 16 * 16 := by
  have hsplit : (x &&& 0xFFFFFFF0) + (x &&& 0xF) = x := by
    rw [BitVec.add_eq_or_of_and_eq_zero, ← BitVec.and_or_distrib_left]
    · exact BitVec.and_allOnes
    · rw [BitVec.and_assoc, BitVec.and_comm x 0xF, ← BitVec.and_assoc 0xFFFFFFF0]
      simp
  have hand := toNat_and_fifteen x
  have hle : (x &&& 0xFFFFFFF0).toNat ≤ x.toNat := by
    rw [BitVec.toNat_and]
    exact Nat.and_le_left
  bv_omega

/-- The registers of a Pin `CONTEXT` that the tool reads. -/
inductive Reg where
  | eip | esp | ebp | eax | ebx | ecx | edx | esi | edi
  deriving Repr, DecidableEq

/-- A `LEVEL_VM::CONTEXT`, read with `PIN_GetContextReg`. -/
abbrev PinContext := Reg → U32

end PEReplay
