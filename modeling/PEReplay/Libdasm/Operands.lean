/-
# PEReplay.Libdasm.Operands — what the parse of one operand does.

An operand is parsed behind what the operands before it have taken.  `Took` says it once: the sizes
that the parse leaves in the instruction, how far it has looked, and which bytes of the buffer the
displacement and the immediate are.
-/
import Mathlib.Data.Nat.Digits.Defs
import PEReplay.Libdasm.Decode

namespace PEReplay
namespace Libdasm

open Decoder

/-! ## Values in the buffer -/

/-- The bytes from an offset. -/
def bytesAt (l : List U8) (off k : Nat) : List U8 := (l.drop off).take k

/-- A little-endian value. -/
def littleEndian (bytes : List U8) : Nat := Nat.ofDigits 256 (bytes.map BitVec.toNat)

/-- The low `k` bytes of `x` are the bytes at `off`. -/
def Carries (l : List U8) (off k : Nat) (x : U32) : Prop :=
  off + k ≤ l.length ∧ x.toNat % 256 ^ k = littleEndian (bytesAt l off k)

theorem bytesAt_succ {l : List U8} {off : Nat} {b : U8} (h : l[off]? = some b) (k : Nat) :
    bytesAt l off (k + 1) = b :: bytesAt l (off + 1) k := by
  obtain ⟨hlt, rfl⟩ := List.getElem?_eq_some_iff.mp h
  unfold bytesAt
  rw [List.drop_eq_getElem_cons hlt, List.take_succ_cons]

theorem bytesAt_zero (l : List U8) (off : Nat) : bytesAt l off 0 = [] := rfl

theorem bytesAt_append (l : List U8) (off j k : Nat) :
    bytesAt l off (j + k) = bytesAt l off j ++ bytesAt l (off + j) k := by
  unfold bytesAt
  rw [List.take_add, List.drop_drop]

theorem length_bytesAt {l : List U8} {off k : Nat} (h : off + k ≤ l.length) :
    (bytesAt l off k).length = k := by
  simp [bytesAt]
  omega

theorem littleEndian_nil : littleEndian [] = 0 := rfl

theorem littleEndian_cons (b : U8) (bytes : List U8) :
    littleEndian (b :: bytes) = b.toNat + 256 * littleEndian bytes :=
  Nat.ofDigits_cons

theorem littleEndian_append (low high : List U8) :
    littleEndian (low ++ high) = littleEndian low + 256 ^ low.length * littleEndian high := by
  unfold littleEndian
  rw [List.map_append, Nat.ofDigits_append, List.length_map]

theorem littleEndian_byte {l : List U8} {off : Nat} {b : U8} (h : l[off]? = some b) :
    littleEndian (bytesAt l off 1) = b.toNat := by
  rw [bytesAt_succ h, bytesAt_zero, littleEndian_cons, littleEndian_nil]
  rfl

theorem accepts_fetch16 {i : Nat} {l : List U8} {x : U16} {n : Nat}
    (h : (fetch16 i).Accepts l x n) :
    n = i + 2 ∧ i + 2 ≤ l.length ∧ x.toNat = littleEndian (bytesAt l i 2) := by
  simp only [fetch16, accepts_bind, accepts_fetch, accepts_pure] at h
  obtain ⟨lo, _, _, ⟨hlo, rfl⟩, ⟨hi, _, _, ⟨hhi, rfl⟩, ⟨rfl, rfl⟩, rfl⟩, rfl⟩ := h
  have hlt := (List.getElem?_eq_some_iff.mp hhi).1
  rw [bytesAt_succ hlo, littleEndian_cons, littleEndian_byte hhi, Memory.toNat_append_byte]
  omega

theorem accepts_fetch32 {i : Nat} {l : List U8} {x : U32} {n : Nat}
    (h : (fetch32 i).Accepts l x n) :
    n = i + 4 ∧ i + 4 ≤ l.length ∧ x.toNat = littleEndian (bytesAt l i 4) := by
  simp only [fetch32, accepts_bind, accepts_pure] at h
  obtain ⟨lo, _, _, hlo, ⟨hi, _, _, hhi, ⟨rfl, rfl⟩, rfl⟩, rfl⟩ := h
  obtain ⟨rfl, hle, elo⟩ := accepts_fetch16 hlo
  obtain ⟨rfl, hle', ehi⟩ := accepts_fetch16 hhi
  have hval : (hi ++ lo : U32).toNat = lo.toNat + 256 ^ 2 * hi.toNat := by
    rw [BitVec.toNat_append, ← Nat.shiftLeft_add_eq_or_of_lt lo.isLt, Nat.shiftLeft_eq]
    omega
  refine ⟨by omega, by omega, ?_⟩
  rw [bytesAt_append l i 2 2, littleEndian_append, length_bytesAt hle, ← elo, ← ehi, hval]

theorem littleEndian_lt (bytes : List U8) : littleEndian bytes < 256 ^ bytes.length := by
  have hdigits : ∀ x ∈ bytes.map BitVec.toNat, x < 256 := by
    intro x hx
    obtain ⟨b, -, rfl⟩ := List.mem_map.mp hx
    exact b.isLt
  have hlt := Nat.ofDigits_lt_base_pow_length (by omega) hdigits
  rwa [List.length_map] at hlt

theorem Carries.of_eq {l : List U8} {off k : Nat} {x : U32} (hle : off + k ≤ l.length)
    (h : x.toNat = littleEndian (bytesAt l off k)) : Carries l off k x := by
  have hlt := littleEndian_lt (bytesAt l off k)
  rw [length_bytesAt hle] at hlt
  exact ⟨hle, by rw [h, Nat.mod_eq_of_lt hlt]⟩

set_option maxRecDepth 4000 in
theorem signExtendByte_setWidth (b : U8) : signExtendByte (b.setWidth 32) = b.signExtend 32 := by
  revert b
  decide

set_option maxRecDepth 4000 in
theorem signExtend_mod (b : U8) : (b.signExtend 32).toNat % 256 = b.toNat := by
  revert b
  decide

theorem Carries.byte {l : List U8} {off : Nat} {b : U8} (h : l[off]? = some b) :
    Carries l off 1 (b.setWidth 32) := by
  have hlt := (List.getElem?_eq_some_iff.mp h).1
  refine .of_eq (by omega) ?_
  rw [littleEndian_byte h, BitVec.toNat_setWidth, Nat.mod_eq_of_lt (by omega)]

theorem Carries.signedByte {l : List U8} {off : Nat} {b : U8} (h : l[off]? = some b) :
    Carries l off 1 (signExtendByte (b.setWidth 32)) := by
  have hlt := (List.getElem?_eq_some_iff.mp h).1
  refine ⟨by omega, ?_⟩
  rw [littleEndian_byte h, signExtendByte_setWidth, pow_one, signExtend_mod]

theorem Carries.word {l : List U8} {off n : Nat} {x : U16} (h : (fetch16 off).Accepts l x n) :
    n = off + 2 ∧ Carries l off 2 (x.setWidth 32) := by
  obtain ⟨rfl, hle, hx⟩ := accepts_fetch16 h
  refine ⟨rfl, .of_eq hle ?_⟩
  rw [← hx, BitVec.toNat_setWidth, Nat.mod_eq_of_lt (by omega)]

theorem Carries.dword {l : List U8} {off n : Nat} {x : U32} (h : (fetch32 off).Accepts l x n) :
    n = off + 4 ∧ Carries l off 4 x := by
  obtain ⟨rfl, hle, hx⟩ := accepts_fetch32 h
  exact ⟨rfl, .of_eq hle hx⟩

/-- A value of no bytes. -/
theorem Carries.zero {l : List U8} {off : Nat} (h : off ≤ l.length) (x : U32) :
    Carries l off 0 x := by
  refine ⟨h, ?_⟩
  rw [bytesAt_zero, littleEndian_nil, pow_zero, Nat.mod_one]

/-! ## ModRM and SIB -/

/-- The form that the bytes at an offset stand for. -/
inductive FormAt (l : List U8) (offset : Nat) (pmode : Mode) : Form → Prop where
  | sib {addr sib : U8} : l[offset]? = some addr → Form.hasSib addr pmode →
      l[offset + 1]? = some sib → FormAt l offset pmode (Form.ofSib addr sib)
  | modrm32 {addr : U8} : l[offset]? = some addr → Form.hasSib addr pmode = false →
      pmode = .mode32 → FormAt l offset pmode (Form.ofModrm32 addr)
  | modrm16 {addr : U8} : l[offset]? = some addr → pmode = .mode16 →
      FormAt l offset pmode (Form.ofModrm16 addr)

/-- The ModRM and SIB bytes. -/
def Form.header (form : Form) : Nat := if form.sib then 2 else 1

theorem Form.hasSib_mode16 (addr : U8) : Form.hasSib addr .mode16 = false := by
  simp [Form.hasSib]

theorem FormAt.unique {l : List U8} {offset : Nat} {pmode : Mode} {form form' : Form}
    (h : FormAt l offset pmode form) (h' : FormAt l offset pmode form') : form = form' := by
  cases h <;> cases h' <;> simp_all [Form.hasSib_mode16]

theorem FormAt.dispbytes {l : List U8} {offset : Nat} {pmode : Mode} {form : Form}
    (h : FormAt l offset pmode form) : form.dispbytes ∈ [0, 1, 2, 4] := by
  have hmodrm (addr : U8) (pmode : Mode) : Form.modrmDisp addr pmode ∈ [0, 1, 2, 4] := by
    unfold Form.modrmDisp
    split_ifs <;> simp
  cases h with
  | sib => 
    unfold Form.ofSib
    dsimp only
    split_ifs
    · simp
    · exact hmodrm _ _
  | modrm32 => exact hmodrm _ _
  | modrm16 => exact hmodrm _ _

/-- What no operand changes. -/
def SameRow (ins ins' : Instruction) : Prop :=
  ins'.ptr = ins.ptr ∧ ins'.modrmOffset = ins.modrmOffset

/-- The parse of ModRM and SIB counts them once, whichever operand comes first. -/
theorem accepts_parseModrm {ins ins' : Instruction} {form : Form} {offset : Nat} {pmode : Mode}
    {l : List U8} {n : Nat} (h : (parseModrm ins offset pmode).Accepts l (ins', form) n) :
    FormAt l offset pmode form ∧ n = offset + form.header ∧
      (ins.length = 0 ∨ ins.length = form.header → ins'.length = form.header) ∧
      ins'.dispbytes = ins.dispbytes ∧ ins'.immbytes = ins.immbytes ∧ SameRow ins ins' := by
  simp only [parseModrm, accepts_bind, accepts_fetch] at h
  obtain ⟨addr, _, k, ⟨haddr, rfl⟩, h, rfl⟩ := h
  split at h
  · rename_i hsib
    simp only [accepts_bind, accepts_fetch, accepts_pure, Prod.mk.injEq] at h
    obtain ⟨sib, _, _, ⟨hs, rfl⟩, ⟨⟨rfl, rfl⟩, rfl⟩, rfl⟩ := h
    have hheader : (Form.ofSib addr sib).header = 2 := rfl
    rw [hheader]
    refine ⟨.sib haddr hsib hs, by omega, ?_, ?_, ?_, ?_, ?_⟩
    · intro hlen
      by_cases h0 : ins.length = 0
      · simp [h0]
      · have h2 := hlen.resolve_left h0
        simp [h2]
    all_goals split <;> rfl
  · rename_i hsib
    have hsib : Form.hasSib addr pmode = false := by simpa using hsib
    have hcount (hlen : ins.length = 0 ∨ ins.length = 1) :
        (if ins.length = 0 then { ins with modrm := addr, length := 1 } else ins).length = 1 := by
      split
      · rfl
      · exact hlen.resolve_left ‹_›
    split at h
    · rename_i hmode
      simp only [accepts_pure, Prod.mk.injEq] at h
      obtain ⟨⟨rfl, rfl⟩, rfl⟩ := h
      refine ⟨.modrm32 haddr hsib hmode, by simp [Form.header, Form.ofModrm32], hcount,
        ?_, ?_, ?_, ?_⟩
      all_goals split <;> rfl
    · rename_i hmode
      simp only [accepts_pure, Prod.mk.injEq] at h
      obtain ⟨⟨rfl, rfl⟩, rfl⟩ := h
      have hmode : pmode = .mode16 := by
        cases pmode with
        | mode32 => exact absurd rfl hmode
        | mode16 => rfl
      refine ⟨.modrm16 haddr hmode, by simp [Form.header, Form.ofModrm16], hcount, ?_, ?_, ?_, ?_⟩
      all_goals split <;> rfl

/-! ## One operand -/

/-- What the parse of an operand does behind a header that ends at `start`: the sizes it leaves in
the instruction, how far it looks, and where its displacement and its immediate are. -/
structure Took (l : List U8) (start : Nat) (am : AddressingMethod) (ins ins' : Instruction)
    (op : Operand) (n : Nat) : Prop where
  row : SameRow ins ins'
  length : ins'.length = ins.length
  dispbytes : ins'.dispbytes = if am.displaces then op.dispbytes else ins.dispbytes
  immbytes : ins'.immbytes = if am.isImmediate then ins.immbytes + op.immbytes else ins.immbytes
  reach : max start n = start +
    if am.displaces then op.dispbytes
    else if am.isImmediate ∧ op.immbytes ≠ 0 then ins.immbytes + ins.dispbytes + op.immbytes else 0
  disp : op.dispoffset ≠ 0 → am.displaces ∧ op.dispoffset = start ∧
    (op.dispbytes ≠ 0 → Carries l op.dispoffset op.dispbytes op.displacement)
  imm : op.immoffset ≠ 0 → am.isImmediate ∧ op.immoffset = start + ins.immbytes + ins.dispbytes ∧
    (op.immbytes ≠ 0 → Carries l op.immoffset op.immbytes op.immediate)

theorem accepts_fetchDisplacement {d i : Nat} {l : List U8} {x : U32} {n : Nat}
    (hd : d ∈ [0, 1, 2, 4]) (h : (fetchDisplacement d i).Accepts l x n) :
    n = (if d = 0 then 0 else i + d) ∧ (d ≠ 0 → Carries l i d x) := by
  simp only [List.mem_cons, List.not_mem_nil, or_false] at hd
  obtain rfl | rfl | rfl | rfl := hd
  · simp only [fetchDisplacement, accepts_pure] at h
    exact ⟨h.2, fun h0 => absurd rfl h0⟩
  · simp only [fetchDisplacement, accepts_bind, accepts_fetch, accepts_pure] at h
    obtain ⟨b, _, _, ⟨hb, rfl⟩, ⟨rfl, rfl⟩, rfl⟩ := h
    exact ⟨rfl, fun _ => .signedByte hb⟩
  · simp only [fetchDisplacement, accepts_bind, accepts_pure] at h
    obtain ⟨w, _, _, hw, ⟨rfl, rfl⟩, rfl⟩ := h
    obtain ⟨rfl, hcarries⟩ := Carries.word hw
    exact ⟨rfl, fun _ => hcarries⟩
  · obtain ⟨rfl, hcarries⟩ := Carries.dword h
    exact ⟨rfl, fun _ => hcarries⟩

theorem accepts_fetchImmediate {oflags : U32} {mode : Mode} {i : Nat} {l : List U8} {k : Nat}
    {x : U32} {n : Nat} (h : (fetchImmediate oflags mode i).Accepts l (k, x) n) :
    n = (if k = 0 then 0 else i + k) ∧ (k ≠ 0 → Carries l i k x) := by
  unfold fetchImmediate at h
  split at h
  · simp only [accepts_bind, accepts_fetch, accepts_pure, Prod.mk.injEq] at h
    obtain ⟨b, _, _, ⟨hb, rfl⟩, ⟨⟨rfl, rfl⟩, rfl⟩, rfl⟩ := h
    refine ⟨rfl, fun _ => ?_⟩
    split
    · exact .signedByte hb
    · exact .byte hb
  · split at h
    · simp only [accepts_bind, accepts_pure, Prod.mk.injEq] at h
      obtain ⟨w, _, _, hw, ⟨⟨rfl, rfl⟩, rfl⟩, rfl⟩ := h
      obtain ⟨rfl, hcarries⟩ := Carries.dword hw
      exact ⟨rfl, fun _ => hcarries⟩
    · simp only [accepts_bind, accepts_pure, Prod.mk.injEq] at h
      obtain ⟨w, _, _, hw, ⟨⟨rfl, rfl⟩, rfl⟩, rfl⟩ := h
      obtain ⟨rfl, hcarries⟩ := Carries.word hw
      exact ⟨rfl, fun _ => hcarries⟩
  · simp only [accepts_bind, accepts_pure, Prod.mk.injEq] at h
    obtain ⟨w, _, _, hw, ⟨⟨rfl, rfl⟩, rfl⟩, rfl⟩ := h
    obtain ⟨rfl, hcarries⟩ := Carries.word hw
    exact ⟨rfl, fun _ => hcarries⟩
  · simp only [accepts_pure, Prod.mk.injEq] at h
    obtain ⟨⟨rfl, rfl⟩, rfl⟩ := h
    exact ⟨rfl, fun h0 => absurd rfl h0⟩

theorem accepts_modrmOperand {form : Form} {ins ins' : Instruction} {op op' : Operand}
    {offset : Nat} {l : List U8} {n : Nat} {am : AddressingMethod} (ham : am.displaces)
    (hd : form.dispbytes ∈ [0, 1, 2, 4]) (hop : op.dispoffset = 0) (hop' : op.immoffset = 0)
    (h : (modrmOperand form ins op offset).Accepts l (ins', op') n) :
    Took l (offset + form.header) am ins ins' op' n := by
  simp only [modrmOperand, accepts_bind] at h
  obtain ⟨x, m, k, hx, h, rfl⟩ := h
  have hstart : offset + 1 + (if form.sib then 1 else 0) = offset + form.header := by
    unfold Form.header
    split <;> omega
  obtain ⟨rfl, hcarries⟩ := accepts_fetchDisplacement hd hx
  rw [hstart] at hcarries ⊢
  have himm : am.isImmediate = false := by cases am <;> simp_all [AddressingMethod.displaces,
    AddressingMethod.isImmediate]
  have hpos : 0 < form.header := by
    unfold Form.header
    split <;> omega
  obtain ⟨reg, type, rfl, rfl, hk⟩ : ∃ reg type, op' = { op with
      type := type
      reg := reg
      dispbytes := form.dispbytes
      basereg := form.basereg
      indexreg := form.indexreg
      scale := form.scale
      dispoffset := if form.dispbytes ≠ 0 then offset + form.header else 0
      displacement := x } ∧ ins' = { ins with dispbytes := form.dispbytes } ∧ k ≤ offset + 1 := by
    have hoff : (if form.sib then 1 else 0) + 1 + offset = offset + form.header := by omega
    rw [hoff, hop] at h
    split at h
    · simp only [accepts_bind, accepts_fetch] at h
      obtain ⟨addr, _, _, ⟨-, rfl⟩, h, rfl⟩ := h
      split at h <;>
      · simp only [accepts_pure, Prod.mk.injEq] at h
        obtain ⟨⟨rfl, rfl⟩, rfl⟩ := h
        exact ⟨_, _, rfl, rfl, by omega⟩
    · simp only [accepts_pure, Prod.mk.injEq] at h
      obtain ⟨⟨rfl, rfl⟩, rfl⟩ := h
      exact ⟨_, _, rfl, rfl, by omega⟩
  constructor
  · exact ⟨rfl, rfl⟩
  · rfl
  · simp [ham]
  · simp [himm]
  · simp only [ham, if_true]
    split <;> omega
  · intro hne
    dsimp only at hne ⊢
    split at hne
    · rename_i hne0
      rw [if_pos hne0]
      exact ⟨ham, rfl, hcarries⟩
    · exact absurd rfl hne
  · intro hne
    exact absurd hop' hne

theorem accepts_immediateOperand {inst : Inst} {oflags : U32} {form : Form}
    {ins ins' : Instruction} {op op' : Operand} {offset : Nat} {mode : Mode} {iflags : U32}
    {l : List U8} {n start : Nat} {am : AddressingMethod} (ham : am.isImmediate)
    (hstart : start = offset + ((if inst.modrm then 1 else 0) + (if form.sib then 1 else 0)))
    (hop : op.dispoffset = 0)
    (h : (immediateOperand inst oflags form ins op offset mode iflags).Accepts l (ins', op') n) :
    Took l start am ins ins' op' n := by
  simp only [immediateOperand, accepts_bind, accepts_pure, Prod.mk.injEq] at h
  obtain ⟨⟨k, x⟩, _, _, hx, ⟨⟨rfl, rfl⟩, rfl⟩, rfl⟩ := h
  obtain ⟨rfl, hcarries⟩ := accepts_fetchImmediate hx
  have hdisp : am.displaces = false := by cases am <;> simp_all [AddressingMethod.displaces,
    AddressingMethod.isImmediate]
  constructor
  · exact ⟨rfl, rfl⟩
  · rfl
  · simp [hdisp]
  · simp [ham]
  · simp only [hdisp, ham, true_and, Bool.false_eq_true, if_false]
    by_cases hk : k = 0
    · simp [hk]
    · simp only [hk, if_false, ne_eq, not_false_eq_true, if_true]
      omega
  · intro hne
    exact absurd hop hne
  · intro hne
    dsimp only at hne ⊢
    refine ⟨ham, by omega, fun hk => ?_⟩
    have hcarries := hcarries hk
    rwa [Nat.add_comm offset] at hcarries

theorem accepts_fetchFar {mode : Mode} {i : Nat} {l : List U8} {d : Nat} {x : U32} {n : Nat}
    (h : (fetchFar mode i).Accepts l (d, x) n) : n + 2 = i + d ∧ 2 ≤ d := by
  unfold fetchFar at h
  split at h
  · simp only [accepts_bind, accepts_pure, Prod.mk.injEq] at h
    obtain ⟨w, _, _, hw, ⟨⟨rfl, rfl⟩, rfl⟩, rfl⟩ := h
    obtain ⟨rfl, -, -⟩ := accepts_fetch32 hw
    omega
  · simp only [accepts_bind, accepts_pure, Prod.mk.injEq] at h
    obtain ⟨w, _, _, hw, ⟨⟨rfl, rfl⟩, rfl⟩, rfl⟩ := h
    obtain ⟨rfl, -, -⟩ := accepts_fetch16 hw
    omega

theorem accepts_farOperand {ins ins' : Instruction} {op op' : Operand} {offset : Nat} {mode : Mode}
    {iflags : U32} {l : List U8} {n : Nat} (hop : op.dispoffset = 0) (hop' : op.immoffset = 0)
    (h : (farOperand ins op offset mode iflags).Accepts l (ins', op') n) :
    Took l offset .a ins ins' op' n := by
  simp only [farOperand, accepts_bind, accepts_pure, Prod.mk.injEq] at h
  obtain ⟨⟨d, x⟩, m, _, hx, ⟨seg, _, _, hseg, ⟨⟨rfl, rfl⟩, rfl⟩, rfl⟩, rfl⟩ := h
  obtain ⟨rfl, -, -⟩ := accepts_fetch16 hseg
  obtain ⟨hm, hd⟩ := accepts_fetchFar hx
  constructor
  · exact ⟨rfl, rfl⟩
  · rfl
  · rfl
  · rfl
  · simp only [AddressingMethod.displaces, if_true]
    omega
  · intro hne
    exact absurd hop hne
  · intro hne
    exact absurd hop' hne

theorem accepts_fetchPlain {oflags : U32} {mode : Mode} {i : Nat} {l : List U8} {d : Nat} {x : U32}
    {n : Nat} (h : (fetchPlain oflags mode i).Accepts l (d, x) n) :
    n = (if d = 0 then 0 else i + d) ∧ (d ≠ 0 → Carries l i d x) := by
  unfold fetchPlain at h
  split at h
  · simp only [accepts_bind, accepts_fetch, accepts_pure, Prod.mk.injEq] at h
    obtain ⟨b, _, _, ⟨hb, rfl⟩, ⟨⟨rfl, rfl⟩, rfl⟩, rfl⟩ := h
    exact ⟨rfl, fun _ => .byte hb⟩
  · split at h
    · simp only [accepts_bind, accepts_pure, Prod.mk.injEq] at h
      obtain ⟨w, _, _, hw, ⟨⟨rfl, rfl⟩, rfl⟩, rfl⟩ := h
      obtain ⟨rfl, hcarries⟩ := Carries.dword hw
      exact ⟨rfl, fun _ => hcarries⟩
    · simp only [accepts_bind, accepts_pure, Prod.mk.injEq] at h
      obtain ⟨w, _, _, hw, ⟨⟨rfl, rfl⟩, rfl⟩, rfl⟩ := h
      obtain ⟨rfl, hcarries⟩ := Carries.word hw
      exact ⟨rfl, fun _ => hcarries⟩
  · simp only [accepts_pure, Prod.mk.injEq] at h
    obtain ⟨⟨rfl, rfl⟩, rfl⟩ := h
    exact ⟨rfl, fun h0 => absurd rfl h0⟩

theorem accepts_plainOperand {oflags : U32} {ins ins' : Instruction} {op op' : Operand}
    {offset : Nat} {mode : Mode} {l : List U8} {n : Nat} (hop' : op.immoffset = 0)
    (h : (plainOperand oflags ins op offset mode).Accepts l (ins', op') n) :
    Took l offset .o ins ins' op' n := by
  simp only [plainOperand, accepts_bind, accepts_pure, Prod.mk.injEq] at h
  obtain ⟨⟨d, x⟩, m, _, hx, ⟨⟨rfl, rfl⟩, rfl⟩, rfl⟩ := h
  obtain ⟨rfl, hcarries⟩ := accepts_fetchPlain hx
  constructor
  · exact ⟨rfl, rfl⟩
  · rfl
  · rfl
  · rfl
  · simp only [AddressingMethod.displaces, if_true]
    split <;> omega
  · intro _
    exact ⟨rfl, rfl, hcarries⟩
  · intro hne
    exact absurd hop' hne

/-- An operand that takes no bytes of its own. -/
theorem Took.quiet {l : List U8} {start : Nat} {am : AddressingMethod} {ins : Instruction}
    {op : Operand} (hdisp : am.displaces = false) (himm : am.isImmediate = false)
    (hop : op.dispoffset = 0) (hop' : op.immoffset = 0) : Took l start am ins ins op 0 where
  row := ⟨rfl, rfl⟩
  length := rfl
  dispbytes := by simp [hdisp]
  immbytes := by simp [himm]
  reach := by simp [hdisp, himm]
  disp := fun hne => absurd hop hne
  imm := fun hne => absurd hop' hne

/-- A look at the header changes nothing. -/
theorem Took.look {l : List U8} {start : Nat} {am : AddressingMethod} {ins ins' : Instruction}
    {op : Operand} {j n : Nat} (h : Took l start am ins ins' op n) (hj : j ≤ start) :
    Took l start am ins ins' op (max j n) where
  row := h.row
  length := h.length
  dispbytes := h.dispbytes
  immbytes := h.immbytes
  reach := by rw [← max_assoc, max_eq_left hj, h.reach]
  disp := h.disp
  imm := h.imm

/-- The number of ModRM and SIB bytes. -/
def HeaderAt (l : List U8) (offset : Nat) (pmode : Mode) (inst : Inst) (header : Nat) : Prop :=
  if inst.modrm then ∃ form, FormAt l offset pmode form ∧ header = form.header else header = 0

theorem HeaderAt.unique {l : List U8} {offset : Nat} {pmode : Mode} {inst : Inst} {h h' : Nat}
    (hh : HeaderAt l offset pmode inst h) (hh' : HeaderAt l offset pmode inst h') : h = h' := by
  unfold HeaderAt at hh hh'
  by_cases hm : inst.modrm
  · rw [if_pos hm] at hh hh'
    obtain ⟨form, hf, rfl⟩ := hh
    obtain ⟨form', hf', rfl⟩ := hh'
    rw [hf.unique hf']
  · rw [if_neg hm] at hh hh'
    rw [hh, hh']

/-- The demands of a valid row on one of its operands. -/
structure Fits (inst : Inst) (am : AddressingMethod) : Prop where
  needs : am.usesModrm → inst.modrm
  direct : am = .a ∨ am = .o → inst.modrm = false

theorem accepts_operandBy {inst : Inst} {oflags : U32} {form : Form} {ins ins' : Instruction}
    {op op' : Operand} {offset : Nat} {mode : Mode} {iflags : U32} {l : List U8} {n : Nat}
    (hfits : Fits inst (maskAm oflags)) (hd : form.dispbytes ∈ [0, 1, 2, 4])
    (hform : inst.modrm = false → form = {}) (hop : op.dispoffset = 0) (hop' : op.immoffset = 0)
    (h : (operandBy inst oflags form ins op offset mode iflags).Accepts l (ins', op') n) :
    Took l (offset + if inst.modrm then form.header else 0) (maskAm oflags) ins ins' op' n := by
  have hstart : offset + (if inst.modrm then form.header else 0) =
      offset + ((if inst.modrm then 1 else 0) + (if form.sib then 1 else 0)) := by
    cases hm : inst.modrm with
    | false => simp [hform hm]
    | true =>
      unfold Form.header
      simp only [if_true]
      split <;> omega
  generalize ham : maskAm oflags = am at *
  unfold operandBy at h
  rw [ham] at h
  have hmodrm (hu : am.usesModrm) : (if inst.modrm then form.header else 0) = form.header :=
    if_pos (hfits.needs hu)
  cases am with
  | a =>
    rw [if_neg (by simp [hfits.direct (.inl rfl)])]
    exact accepts_farOperand hop hop' h
  | o =>
    rw [if_neg (by simp [hfits.direct (.inr rfl)])]
    exact accepts_plainOperand hop' h
  | i => exact accepts_immediateOperand rfl hstart hop h
  | j => exact accepts_immediateOperand rfl hstart hop h
  | e | q | w =>
    rw [hmodrm rfl]
    exact accepts_modrmOperand rfl hd hop hop' h
  | m | r =>
    rw [hmodrm rfl]
    have hle : offset + 1 ≤ offset + form.header := by
      unfold Form.header
      split <;> omega
    simp only [accepts_bind, accepts_fetch] at h
    obtain ⟨addr, _, k, ⟨-, rfl⟩, h, rfl⟩ := h
    split at h
    · exact absurd h not_accepts_refuse
    · exact (accepts_modrmOperand rfl hd hop hop' h).look hle
  | _ =>
    simp only [accepts_pure, Prod.mk.injEq] at h
    obtain ⟨⟨rfl, rfl⟩, rfl⟩ := h
    exact .quiet rfl rfl hop hop'

theorem accepts_getOperand {inst : Inst} {oflags : U32} {ins ins' : Instruction} {op : Operand}
    {offset : Nat} {mode : Mode} {iflags : U32} {l : List U8} {n : Nat} (hflags : oflags ≠ 0)
    (hfits : Fits inst (maskAm oflags))
    (hlen : ins.length = 0 ∨ HeaderAt l offset (modeCheckAddr mode iflags) inst ins.length)
    (h : (getOperand inst oflags ins offset mode iflags).Accepts l (ins', op) n) :
    ∃ ins₁ : Instruction, ins₁.dispbytes = ins.dispbytes ∧ ins₁.immbytes = ins.immbytes ∧
      SameRow ins ins₁ ∧ HeaderAt l offset (modeCheckAddr mode iflags) inst ins₁.length ∧
      ∃ m k, n = max m k ∧ max offset m = offset + ins₁.length ∧
        Took l (offset + ins₁.length) (maskAm oflags) ins₁ ins' op k := by
  unfold getOperand at h
  rw [if_neg hflags] at h
  simp only [accepts_bind] at h
  obtain ⟨⟨ins₁, form⟩, m, k, hm, hk, rfl⟩ := h
  by_cases hmodrm : inst.modrm
  · rw [parseForm, if_pos hmodrm] at hm
    obtain ⟨hform, rfl, hcount, hdisp, himm, hrow⟩ := accepts_parseModrm hm
    have hlen₁ : ins₁.length = form.header := by
      refine hcount (hlen.imp_right fun hh => ?_)
      unfold HeaderAt at hh
      rw [if_pos hmodrm] at hh
      obtain ⟨form', hform', hh⟩ := hh
      rw [hh, hform'.unique hform]
    have htook := accepts_operandBy hfits hform.dispbytes (fun hf => absurd hmodrm (by simp [hf]))
      rfl rfl hk
    rw [if_pos hmodrm, ← hlen₁] at htook
    refine ⟨ins₁, hdisp, himm, hrow, ?_, _, k, rfl, by omega, htook⟩
    unfold HeaderAt
    rw [if_pos hmodrm]
    exact ⟨form, hform, hlen₁⟩
  · rw [parseForm, if_neg hmodrm, accepts_pure, Prod.mk.injEq] at hm
    obtain ⟨⟨rfl, rfl⟩, rfl⟩ := hm
    have hlen₁ : ins.length = 0 := by
      refine hlen.elim id fun hh => ?_
      unfold HeaderAt at hh
      rwa [if_neg hmodrm] at hh
    have htook := accepts_operandBy hfits (by simp) (fun _ => rfl) rfl rfl hk
    rw [if_neg hmodrm, ← hlen₁] at htook
    refine ⟨ins, rfl, rfl, ⟨rfl, rfl⟩, ?_, 0, k, rfl, by omega, htook⟩
    unfold HeaderAt
    rwa [if_neg hmodrm]

end Libdasm
end PEReplay
