/-
# PEReplay.Libdasm.Layout — the bytes of an instruction, and that no others are looked at.

`Parsed` is the invariant over the three operands: the opcode, the ModRM and SIB bytes, the
displacement and the immediates follow each other, the operands say where theirs are, and what was
looked at is what the sizes add up to.  So the length that `get_instruction` returns is how far it
has looked, and libdasm is a sized decoder.
-/
import PEReplay.Libdasm.Operands

namespace PEReplay
namespace Libdasm

open Decoder

/-! ## The operands so far -/

/-- Where an operand's displacement and immediate are, in an instruction whose displacement starts
at `start`. -/
structure Operand.Placed (l : List U8) (start : Nat) (ins : Instruction) (op : Operand) : Prop where
  disp : op.dispoffset ≠ 0 → op.dispoffset = start ∧ op.dispbytes = ins.dispbytes ∧
    (op.dispbytes ≠ 0 → Carries l op.dispoffset op.dispbytes op.displacement)
  imm : op.immoffset ≠ 0 → start + ins.dispbytes ≤ op.immoffset ∧
    op.immoffset + op.immbytes ≤ start + ins.dispbytes + ins.immbytes ∧
    (op.immbytes ≠ 0 → Carries l op.immoffset op.immbytes op.immediate)

/-- The immediate of the one is before that of the other. -/
def Operand.Before (op op' : Operand) : Prop :=
  op.immoffset ≠ 0 → op'.immoffset ≠ 0 → op.immoffset + op.immbytes ≤ op'.immoffset

/-- The state after some operands, with the methods of those that are there and how far was
looked. -/
structure Parsed (l : List U8) (offset : Nat) (pmode : Mode) (inst : Inst)
    (done : List AddressingMethod) (ops : List Operand) (ins : Instruction) (m : Nat) : Prop where
  ptr : ins.ptr = inst
  modrmOffset : ins.modrmOffset = if inst.modrm then offset else 0
  fresh : done = [] → ins.length = 0
  header : done ≠ [] → HeaderAt l offset pmode inst ins.length
  disp : ins.dispbytes ≠ 0 → ∃ am ∈ done, am.displaces
  imm : ins.immbytes ≠ 0 → ∃ am ∈ done, am.isImmediate
  dispOf : ∀ op ∈ ops, op.dispoffset ≠ 0 → ∃ am ∈ done, am.displaces
  immOf : ∀ op ∈ ops, op.immoffset ≠ 0 → ∃ am ∈ done, am.isImmediate
  placed : ∀ op ∈ ops, op.Placed l (offset + ins.length) ins
  order : ops.Pairwise Operand.Before
  reach : max offset m = offset + ins.length + ins.dispbytes + ins.immbytes

theorem Parsed.start (l : List U8) (offset : Nat) (pmode : Mode) (ins : Instruction)
    (hlen : ins.length = 0) (hdisp : ins.dispbytes = 0) (himm : ins.immbytes = 0)
    (hoff : ins.modrmOffset = if ins.ptr.modrm then offset else 0) :
    Parsed l offset pmode ins.ptr [] [] ins 0 where
  ptr := rfl
  modrmOffset := hoff
  fresh := fun _ => hlen
  header := fun h => absurd rfl h
  disp := fun h => absurd hdisp h
  imm := fun h => absurd himm h
  dispOf := by simp
  immOf := by simp
  placed := by simp
  order := .nil
  reach := by omega

/-- What a valid row says of an operand behind those of `done`. -/
structure Next (inst : Inst) (done : List AddressingMethod) (oflags : U32) : Prop where
  fits : ∀ am ∈ methodOf oflags, Fits inst am
  ordered : ∀ am ∈ methodOf oflags, am.displaces →
    ∀ before ∈ done, ¬before.displaces ∧ ¬before.isImmediate

/-- No operand: nothing changes. -/
theorem Parsed.none {l : List U8} {offset : Nat} {pmode : Mode} {inst : Inst}
    {done : List AddressingMethod} {ops : List Operand} {ins : Instruction} {m : Nat}
    (h : Parsed l offset pmode inst done ops ins m) :
    Parsed l offset pmode inst done (ops ++ [({} : Operand)]) ins m where
  ptr := h.ptr
  modrmOffset := h.modrmOffset
  fresh := h.fresh
  header := h.header
  disp := h.disp
  imm := h.imm
  dispOf := by
    intro op hop hne
    obtain hop | rfl := by simpa using hop
    · exact h.dispOf op hop hne
    · exact absurd rfl hne
  immOf := by
    intro op hop hne
    obtain hop | rfl := by simpa using hop
    · exact h.immOf op hop hne
    · exact absurd rfl hne
  placed := by
    intro op hop
    obtain hop | rfl := by simpa using hop
    · exact h.placed op hop
    · exact ⟨fun hne => absurd rfl hne, fun hne => absurd rfl hne⟩
  order := by
    refine List.pairwise_append.mpr ⟨h.order, by simp, ?_⟩
    intro op _ op' hop' _ hne
    obtain rfl := by simpa using hop'
    exact absurd rfl hne
  reach := h.reach

theorem AddressingMethod.not_both {am : AddressingMethod} (h : am.displaces) :
    am.isImmediate = false := by
  cases am <;> simp_all [AddressingMethod.displaces, AddressingMethod.isImmediate]

/-- How far was looked, from what was looked at before, for the header and behind it. -/
theorem max_reach {offset sum m base m' taken k : Nat} (hm : max offset m = offset + sum)
    (hm' : max offset m' = offset + base) (hk : max (offset + base) k = offset + base + taken) :
    max offset (max m (max m' k)) = offset + max sum (base + taken) := by
  calc max offset (max m (max m' k))
      = max (max offset m) (max (max offset m') k) := by
        clear hm hm' hk
        omega
    _ = max (offset + sum) (offset + (base + taken)) := by rw [hm, hm', hk, Nat.add_assoc]
    _ = offset + max sum (base + taken) := Nat.add_max_add_left ..

/-- Nothing is counted before the first operand. -/
theorem Parsed.sizes_zero {l : List U8} {offset : Nat} {pmode : Mode} {inst : Inst}
    {ops : List Operand} {ins : Instruction} {m : Nat}
    (h : Parsed l offset pmode inst [] ops ins m) :
    ins.dispbytes = 0 ∧ ins.immbytes = 0 := by
  constructor
  · by_contra hne
    obtain ⟨_, hmem, _⟩ := h.disp hne
    cases hmem
  · by_contra hne
    obtain ⟨_, hmem, _⟩ := h.imm hne
    cases hmem

/-- An operand that is there, behind those of `done`: `ins₁` is the instruction with its header
counted. -/
structure Behind (l : List U8) (offset : Nat) (pmode : Mode) (inst : Inst)
    (done : List AddressingMethod) (ops : List Operand) (ins : Instruction) (m : Nat)
    (am : AddressingMethod) (ins₁ ins' : Instruction) (op : Operand) (m' k : Nat) : Prop where
  parsed : Parsed l offset pmode inst done ops ins m
  ordered : am.displaces → ∀ before ∈ done, ¬before.displaces ∧ ¬before.isImmediate
  dispbytes : ins₁.dispbytes = ins.dispbytes
  immbytes : ins₁.immbytes = ins.immbytes
  row : SameRow ins ins₁
  header : HeaderAt l offset pmode inst ins₁.length
  looked : max offset m' = offset + ins₁.length
  took : Took l (offset + ins₁.length) am ins₁ ins' op k

namespace Behind

variable {l : List U8} {offset : Nat} {pmode : Mode} {inst : Inst} {done : List AddressingMethod}
  {ops : List Operand} {ins : Instruction} {m : Nat} {am : AddressingMethod}
  {ins₁ ins' : Instruction} {op : Operand} {m' k : Nat}

/-- The header is counted once. -/
theorem length_eq (b : Behind l offset pmode inst done ops ins m am ins₁ ins' op m' k)
    (hdone : done ≠ []) : ins.length = ins₁.length :=
  (b.parsed.header hdone).unique b.header

/-- A displacement comes first. -/
theorem sizes_zero (b : Behind l offset pmode inst done ops ins m am ins₁ ins' op m' k)
    (ham : am.displaces) : ins.dispbytes = 0 ∧ ins.immbytes = 0 := by
  constructor
  · by_contra hne
    obtain ⟨before, hmem, hb⟩ := b.parsed.disp hne
    exact (b.ordered ham before hmem).1 hb
  · by_contra hne
    obtain ⟨before, hmem, hb⟩ := b.parsed.imm hne
    exact (b.ordered ham before hmem).2 hb

theorem dispbytes_eq (b : Behind l offset pmode inst done ops ins m am ins₁ ins' op m' k) :
    ins'.dispbytes = if am.displaces then op.dispbytes else ins.dispbytes :=
  b.dispbytes ▸ b.took.dispbytes

theorem immbytes_eq (b : Behind l offset pmode inst done ops ins m am ins₁ ins' op m' k) :
    ins'.immbytes = if am.isImmediate then ins.immbytes + op.immbytes else ins.immbytes :=
  b.immbytes ▸ b.took.immbytes

/-- The operands before stay where they are. -/
theorem placed_of_mem (b : Behind l offset pmode inst done ops ins m am ins₁ ins' op m' k)
    {o : Operand} (ho : o ∈ ops) : o.Placed l (offset + ins'.length) ins' := by
  have hplaced := b.parsed.placed o ho
  have hlen := b.took.length
  have hdisp := b.dispbytes_eq
  have himm := b.immbytes_eq
  constructor
  · intro hne
    obtain ⟨before, hmem, hb⟩ := b.parsed.dispOf o ho hne
    have ham : ¬am.displaces := fun ham => (b.ordered ham before hmem).1 hb
    obtain ⟨hoff, hbytes, hcarries⟩ := hplaced.disp hne
    rw [if_neg ham] at hdisp
    have := b.length_eq (List.ne_nil_of_mem hmem)
    exact ⟨by omega, by omega, hcarries⟩
  · intro hne
    obtain ⟨before, hmem, hb⟩ := b.parsed.immOf o ho hne
    have ham : ¬am.displaces := fun ham => (b.ordered ham before hmem).2 hb
    obtain ⟨hlow, hhigh, hcarries⟩ := hplaced.imm hne
    rw [if_neg ham] at hdisp
    have := b.length_eq (List.ne_nil_of_mem hmem)
    refine ⟨by omega, ?_, hcarries⟩
    split at himm <;> omega

/-- The operand itself. -/
theorem placed_self (b : Behind l offset pmode inst done ops ins m am ins₁ ins' op m' k) :
    op.Placed l (offset + ins'.length) ins' := by
  have hlen := b.took.length
  have hdisp := b.dispbytes_eq
  have himm := b.immbytes_eq
  have hdisp₁ := b.dispbytes
  have himm₁ := b.immbytes
  constructor
  · intro hne
    obtain ⟨ham, hoff, hcarries⟩ := b.took.disp hne
    rw [if_pos ham] at hdisp
    exact ⟨by omega, hdisp.symm, hcarries⟩
  · intro hne
    obtain ⟨ham, hoff, hcarries⟩ := b.took.imm hne
    have hnot : ¬am.displaces := fun hd => by simp [AddressingMethod.not_both hd] at ham
    rw [if_neg hnot] at hdisp
    rw [if_pos ham] at himm
    exact ⟨by omega, by omega, hcarries⟩

/-- Its immediate is behind theirs. -/
theorem before_of_mem (b : Behind l offset pmode inst done ops ins m am ins₁ ins' op m' k)
    {o : Operand} (ho : o ∈ ops) : o.Before op := by
  intro hne hne'
  obtain ⟨before, hmem, hb⟩ := b.parsed.immOf o ho hne
  have hsame := b.length_eq (List.ne_nil_of_mem hmem)
  obtain ⟨-, hhigh, -⟩ := (b.parsed.placed o ho).imm hne
  obtain ⟨-, hoff, -⟩ := b.took.imm hne'
  have hdisp₁ := b.dispbytes
  have himm₁ := b.immbytes
  omega

/-- How far was looked is what the sizes add up to. -/
theorem reach (b : Behind l offset pmode inst done ops ins m am ins₁ ins' op m' k) :
    max offset (max m (max m' k)) = offset + ins'.length + ins'.dispbytes + ins'.immbytes := by
  have hlen := b.took.length
  have hdisp := b.dispbytes_eq
  have himm := b.immbytes_eq
  have hdisp₁ := b.dispbytes
  have himm₁ := b.immbytes
  have hcases : ins.length = ins₁.length ∨
      ins.length = 0 ∧ ins.dispbytes = 0 ∧ ins.immbytes = 0 := by
    by_cases hdone : done = []
    · subst hdone
      exact .inr ⟨b.parsed.fresh rfl, b.parsed.sizes_zero⟩
    · exact .inl (b.length_eq hdone)
  have hreach := b.parsed.reach
  rw [Nat.add_assoc, Nat.add_assoc] at hreach
  rw [max_reach hreach b.looked b.took.reach]
  clear hreach
  by_cases ham : am.displaces
  · have hnot := AddressingMethod.not_both ham
    obtain ⟨hd0, hi0⟩ := b.sizes_zero ham
    simp only [ham, hnot, if_true, Bool.false_eq_true, if_false] at hdisp himm ⊢
    omega
  · rw [if_neg ham] at hdisp ⊢
    by_cases himmediate : am.isImmediate
    · rw [if_pos himmediate] at himm
      split
      · omega
      · rename_i hboth
        have hbytes : op.immbytes = 0 := by
          by_contra hne
          exact hboth ⟨himmediate, hne⟩
        omega
    · rw [if_neg himmediate] at himm
      rw [if_neg fun hboth => himmediate hboth.1]
      omega

/-- **One operand.** -/
theorem next (b : Behind l offset pmode inst done ops ins m am ins₁ ins' op m' k) :
    Parsed l offset pmode inst (done ++ [am]) (ops ++ [op]) ins' (max m (max m' k)) := by
  have hdisp := b.dispbytes_eq
  have himm := b.immbytes_eq
  constructor
  · rw [b.took.row.1, b.row.1, b.parsed.ptr]
  · rw [b.took.row.2, b.row.2, b.parsed.modrmOffset]
  · simp
  · intro _
    rw [b.took.length]
    exact b.header
  · intro hne
    by_cases ham : am.displaces
    · exact ⟨am, by simp, ham⟩
    · rw [hdisp, if_neg ham] at hne
      obtain ⟨before, hmem, hb⟩ := b.parsed.disp hne
      exact ⟨before, by simp [hmem], hb⟩
  · intro hne
    by_cases ham : am.isImmediate
    · exact ⟨am, by simp, ham⟩
    · rw [himm, if_neg ham] at hne
      obtain ⟨before, hmem, hb⟩ := b.parsed.imm hne
      exact ⟨before, by simp [hmem], hb⟩
  · intro o ho hne
    obtain ho | rfl := by simpa using ho
    · obtain ⟨before, hmem, hb⟩ := b.parsed.dispOf o ho hne
      exact ⟨before, by simp [hmem], hb⟩
    · exact ⟨am, by simp, (b.took.disp hne).1⟩
  · intro o ho hne
    obtain ho | rfl := by simpa using ho
    · obtain ⟨before, hmem, hb⟩ := b.parsed.immOf o ho hne
      exact ⟨before, by simp [hmem], hb⟩
    · exact ⟨am, by simp, (b.took.imm hne).1⟩
  · intro o ho
    obtain ho | rfl := by simpa using ho
    · exact b.placed_of_mem ho
    · exact b.placed_self
  · refine List.pairwise_append.mpr ⟨b.parsed.order, by simp, ?_⟩
    intro o ho o' ho'
    obtain rfl : o' = op := by simpa using ho'
    exact b.before_of_mem ho
  · exact b.reach

end Behind

theorem Parsed.step {l : List U8} {offset : Nat} {mode : Mode} {iflags : U32} {inst : Inst}
    {done : List AddressingMethod} {ops : List Operand} {ins ins' : Instruction} {op : Operand}
    {m n : Nat} {oflags : U32}
    (h : Parsed l offset (modeCheckAddr mode iflags) inst done ops ins m)
    (hnext : Next inst done oflags)
    (hop : (getOperand inst oflags ins offset mode iflags).Accepts l (ins', op) n) :
    Parsed l offset (modeCheckAddr mode iflags) inst (done ++ methodOf oflags) (ops ++ [op]) ins'
      (max m n) := by
  by_cases hflags : oflags = 0
  · unfold getOperand at hop
    rw [if_pos hflags, accepts_pure, Prod.mk.injEq] at hop
    obtain ⟨⟨rfl, rfl⟩, rfl⟩ := hop
    rw [methodOf, if_pos hflags, List.append_nil, max_eq_left (Nat.zero_le m)]
    exact h.none
  have hmethod : methodOf oflags = [maskAm oflags] := if_neg hflags
  have hlen : ins.length = 0 ∨ HeaderAt l offset (modeCheckAddr mode iflags) inst ins.length := by
    by_cases hdone : done = []
    · exact .inl (h.fresh hdone)
    · exact .inr (h.header hdone)
  obtain ⟨ins₁, hd₁, hi₁, hrow, hheader, m', k, rfl, hm', htook⟩ :=
    accepts_getOperand hflags (hnext.fits _ (by simp [hmethod])) hlen hop
  rw [hmethod]
  exact Behind.next ⟨h, hnext.ordered _ (by simp [hmethod]), hd₁, hi₁, hrow, hheader, hm', htook⟩

/-! ## The instruction -/

/-- What a row has to satisfy for the three operands to be parsed one behind the other. -/
theorem Inst.Valid.next {ptr : Inst} (h : ptr.Valid) :
    Next ptr [] ptr.flags1 ∧ Next ptr (methodOf ptr.flags1) ptr.flags2 ∧
      Next ptr (methodOf ptr.flags1 ++ methodOf ptr.flags2) ptr.flags3 := by
  have hfits (am : AddressingMethod) (ham : am ∈ ptr.methods) : Fits ptr am :=
    ⟨h.needs am ham, h.direct am ham⟩
  obtain ⟨-, h₂₃, h₁⟩ := List.pairwise_append.mp h.ordered
  obtain ⟨-, -, h₂⟩ := List.pairwise_append.mp h₂₃
  refine ⟨⟨?_, by simp⟩, ⟨?_, ?_⟩, ⟨?_, ?_⟩⟩
  · exact fun am ham => hfits am (by simp [Inst.methods, ham])
  · exact fun am ham => hfits am (by simp [Inst.methods, ham])
  · exact fun am ham hd before hb => h₁ before hb am (by simp [ham]) hd
  · exact fun am ham => hfits am (by simp [Inst.methods, ham])
  · intro am ham hd before hb
    obtain hb | hb := List.mem_append.mp hb
    · exact h₁ before hb am (by simp [ham]) hd
    · exact h₂ before hb am ham hd

/-- The parts of an instruction: `code` bytes of prefixes and opcode, the ModRM and SIB bytes, the
displacement and the immediates. -/
structure Layout (l : List U8) (code header : Nat) (ins : Instruction) : Prop where
  length : ins.length = code + header + ins.dispbytes + ins.immbytes
  modrmOffset : ins.modrmOffset = if ins.ptr.modrm then code else 0
  modrm : HeaderAt l code (modeCheckAddr ins.mode ins.flags) ins.ptr header
  placed : ∀ op ∈ [ins.op1, ins.op2, ins.op3], op.Placed l (code + header) ins
  order : [ins.op1, ins.op2, ins.op3].Pairwise Operand.Before

theorem accepts_parseOperands {mode : Mode} {sel : Selected} {l : List U8} {ins : Instruction}
    {n : Nat} (hvalid : sel.ptr.Valid) (h : (parseOperands mode sel).Accepts l ins n) :
    max (sel.index + 1) n = ins.length ∧ ins.ptr = sel.ptr ∧
      ∃ header, Layout l (sel.index + 1) header ins := by
  simp only [parseOperands, accepts_bind, accepts_pure] at h
  obtain ⟨⟨ins₁, op1⟩, n₁, _, h₁, ⟨⟨ins₂, op2⟩, n₂, _, h₂, ⟨⟨ins₃, op3⟩, n₃, _, h₃, ⟨rfl, rfl⟩,
    rfl⟩, rfl⟩, rfl⟩ := h
  obtain ⟨hnext₁, hnext₂, hnext₃⟩ := hvalid.next
  have hparsed := (((Parsed.start l (sel.index + 1) (modeCheckAddr mode sel.flags) _ rfl rfl
    rfl rfl).step hnext₁ h₁).step hnext₂ h₂).step hnext₃ h₃
  have hreach := hparsed.reach
  have hheader : HeaderAt l (sel.index + 1) (modeCheckAddr mode sel.flags) sel.ptr ins₃.length := by
    have hdone : [] ++ methodOf sel.ptr.flags1 ++ methodOf sel.ptr.flags2 ++
        methodOf sel.ptr.flags3 = sel.ptr.methods := by
      simp [Inst.methods]
    by_cases hempty : sel.ptr.methods = []
    · have hmodrm : ¬sel.ptr.modrm := fun hm => hvalid.counted hm hempty
      unfold HeaderAt
      rw [if_neg hmodrm]
      exact hparsed.fresh (hdone.trans hempty)
    · exact hparsed.header (hdone ▸ hempty)
  refine ⟨?_, hparsed.ptr, ins₃.length, ?_⟩
  · dsimp only
    omega
  · constructor
    · dsimp only
      omega
    · exact hparsed.ptr ▸ hparsed.modrmOffset
    · exact hparsed.ptr ▸ hheader
    · intro op hop
      have hplaced := hparsed.placed op (by simpa using hop)
      exact ⟨hplaced.disp, hplaced.imm⟩
    · simpa using hparsed.order

/-! ## The opcode -/

/-- The row is in the tables, and the opcode ends where the selection has looked, or one byte before
where the row has a ModRM byte. -/
structure Selects (sel : Selected) (n : Nat) : Prop where
  listed : sel.ptr.Listed
  reach : n = sel.index + 1 ∨ n = sel.index + 2 ∧ sel.ptr.Extends

variable {T : OpcodeTables}

theorem maskModrmReg_lt (x : U8) : maskModrmReg x < 8 := by
  revert x
  decide

theorem accepts_selectExtension {index : Nat} {flags : U32} {l : List U8} {sel : Selected} {n : Nat}
    (h : (selectExtension T index flags).Accepts l sel n) : Selects sel n ∧ index + 1 ≤ n := by
  simp only [selectExtension, accepts_bind, accepts_fetch] at h
  obtain ⟨opcode, _, _, ⟨-, rfl⟩, ⟨addr, _, k, ⟨-, rfl⟩, h, rfl⟩, rfl⟩ := h
  have hby66 (table66 table : Nat → Inst) (i : Nat) (P : Inst → Prop) (h66 : P (table66 i))
      (hno : P (table i)) : P (by66 flags table66 table i) := by
    unfold by66
    split
    · exact h66
    · exact hno
  split at h
  · obtain ⟨rfl, rfl⟩ := accepts_pure.mp h
    obtain ⟨hl, hx, hl66, hx66⟩ := T.group12 (maskModrmReg addr)
    exact ⟨⟨hby66 _ _ _ _ hl66 hl, .inr ⟨by simp, hby66 _ _ _ _ hx66 hx⟩⟩, by omega⟩
  · obtain ⟨rfl, rfl⟩ := accepts_pure.mp h
    obtain ⟨hl, hx, hl66, hx66⟩ := T.group13 (maskModrmReg addr)
    exact ⟨⟨hby66 _ _ _ _ hl66 hl, .inr ⟨by simp, hby66 _ _ _ _ hx66 hx⟩⟩, by omega⟩
  · obtain ⟨rfl, rfl⟩ := accepts_pure.mp h
    obtain ⟨hl, hx, hl66, hx66⟩ := T.group14 (maskModrmReg addr)
    exact ⟨⟨hby66 _ _ _ _ hl66 hl, .inr ⟨by simp, hby66 _ _ _ _ hx66 hx⟩⟩, by omega⟩
  · split at h
    · split at h
      · exact absurd h not_accepts_refuse
      · split at h
        · obtain ⟨rfl, rfl⟩ := accepts_pure.mp h
          exact ⟨⟨T.monitor.1, .inl (by simp)⟩, by omega⟩
        · split at h
          · obtain ⟨rfl, rfl⟩ := accepts_pure.mp h
            exact ⟨⟨T.monitor.2, .inl (by simp)⟩, by omega⟩
          · exact absurd h not_accepts_refuse
    · obtain ⟨rfl, rfl⟩ := accepts_pure.mp h
      obtain ⟨hl, hx⟩ := T.group7 (maskModrmReg addr)
      exact ⟨⟨hl, .inr ⟨by simp, hx⟩⟩, by omega⟩
  · obtain ⟨rfl, rfl⟩ := accepts_pure.mp h
    obtain ⟨hl, hx⟩ := T.groups (maskExt flags - 1) (maskModrmReg addr)
    exact ⟨⟨hl, .inr ⟨by simp, hx⟩⟩, by omega⟩

theorem accepts_selectEscape {index : Nat} {flags : U32} {l : List U8} {sel : Selected} {n : Nat}
    (h : (selectEscape T index flags).Accepts l sel n) : Selects sel n ∧ index + 1 ≤ n := by
  simp only [selectEscape, accepts_bind, accepts_fetch] at h
  obtain ⟨opcode, _, _, ⟨-, rfl⟩, ⟨addr, _, k, ⟨-, rfl⟩, h, rfl⟩, rfl⟩ := h
  split at h
  · obtain ⟨rfl, rfl⟩ := accepts_pure.mp h
    refine ⟨⟨T.escapes _ _, ?_⟩, by omega⟩
    dsimp only
    by_cases hindex : index = 0
    · exact .inl (by omega)
    · exact .inr ⟨by omega, T.escapesExtend _ _ (maskModrmReg_lt opcode)⟩
  · obtain ⟨rfl, rfl⟩ := accepts_pure.mp h
    exact ⟨⟨T.escapes _ _, .inl (by dsimp only; omega)⟩, by omega⟩

theorem rowOf2_listed (opcode : U8) (flags : U32) : (rowOf2 T opcode flags).Listed := by
  obtain ⟨-, h₂, h66, hf2, hf3⟩ := T.plain opcode
  unfold rowOf2
  split_ifs <;> assumption

theorem accepts_selectInst {index : Nat} {flags : U32} {l : List U8} {sel : Selected} {n : Nat}
    (h : (selectInst T index flags).Accepts l sel n) : Selects sel n ∧ index + 1 ≤ n := by
  unfold selectInst at h
  split at h
  · simp only [accepts_bind, accepts_fetch, accepts_pure] at h
    obtain ⟨opcode, _, _, ⟨-, rfl⟩, ⟨rfl, rfl⟩, rfl⟩ := h
    exact ⟨⟨(T.plain opcode).1, .inl rfl⟩, by omega⟩
  · split at h
    · exact accepts_selectEscape h
    · split at h
      · simp only [accepts_bind, accepts_fetch] at h
        obtain ⟨opcode, _, k, ⟨-, rfl⟩, h, rfl⟩ := h
        split at h
        · obtain ⟨hsel, hle⟩ := accepts_selectExtension h
          rw [max_eq_right hle]
          exact ⟨hsel, hle⟩
        · obtain ⟨rfl, rfl⟩ := accepts_pure.mp h
          exact ⟨⟨rowOf2_listed _ _, .inl (by simp)⟩, by omega⟩
      · exact accepts_selectExtension h

theorem getRealInstruction_inl {index index' : Nat} {flags flags' : U32} {addr : U8}
    (h : getRealInstruction index flags addr = .inl (index', flags')) : index' = index + 1 := by
  unfold getRealInstruction at h
  split at h <;> cases h <;> rfl

theorem getRealInstruction_inr {index index' : Nat} {flags flags' : U32} {addr : U8}
    (h : getRealInstruction index flags addr = .inr (index', flags')) : index ≤ index' := by
  unfold getRealInstruction at h
  split at h <;> cases h <;> omega

/-! ## The sized decoder -/

/-- How far `get_instruction` looks is the length that it returns. -/
theorem accepts_getInstruction {mode : Mode} {l : List U8} {ins : Instruction} {n : Nat}
    (h : (getInstruction T mode).Accepts l ins n) :
    n = ins.length ∧ 0 < n ∧ ∃ code header, Layout l code header ins := by
  simp only [getInstruction, accepts_bind] at h
  obtain ⟨⟨index, flags⟩, m, _, hscan, ⟨sel, k, j, hsel, h, rfl⟩, rfl⟩ := h
  have hm : m ≤ index + 1 := by
    refine accepts_scan (R := fun s i => s.1 = i) (Q := fun a n => n ≤ a.1 + 1) ?_ ?_ rfl hscan
    · intro s b s' i hs hb
      rw [getRealInstruction_inl hb, hs]
    · intro s b a i hs hb
      have := getRealInstruction_inr hb
      omega
  obtain ⟨⟨hlisted, hreach⟩, hk⟩ := accepts_selectInst hsel
  split at h
  · exact absurd h not_accepts_refuse
  · rename_i hmnemonic
    have hvalid := hlisted hmnemonic
    obtain ⟨hlen, hptr, header, hlayout⟩ := accepts_parseOperands hvalid h
    -- a byte that completes the opcode is the ModRM byte of the operands
    have hextends : k ≤ ins.length := by
      obtain rfl | ⟨rfl, hx⟩ := hreach
      · omega
      · have hmodrm := hlayout.modrm
        unfold HeaderAt at hmodrm
        rw [hptr, if_pos (hx hmnemonic)] at hmodrm
        obtain ⟨form, -, hheader⟩ := hmodrm
        have hpos : 0 < form.header := by
          unfold Form.header
          split <;> omega
        have := hlayout.length
        omega
    exact ⟨by omega, by omega, _, header, hlayout⟩

/-- libdasm as a sized decoder. -/
def libdasm (T : OpcodeTables) (mode : Mode) : Sized U8 Instruction where
  toDecoder := getInstruction T mode
  size := Instruction.length
  reach := fun h => (accepts_getInstruction h).1
  progress := fun h => (accepts_getInstruction h).2.1

/-- **An instruction is its own bytes.**  Any buffer that starts with them gives the same
instruction, no shorter one gives any, and the fields of the instruction are where it says. -/
theorem getInstruction_bytes (T : OpcodeTables) (mode : Mode) {l : List U8} {ins : Instruction}
    {n : Nat} (h : (getInstruction T mode).Accepts l ins n) :
    n = ins.length ∧
      (∀ rest, (getInstruction T mode).Accepts (l.take ins.length ++ rest) ins n) ∧
      (∀ k < ins.length, ∀ ins' m, ¬(getInstruction T mode).Accepts (l.take k) ins' m) ∧
      ∃ code header, Layout l code header ins := by
  obtain ⟨rfl, -, hlayout⟩ := accepts_getInstruction h
  refine ⟨rfl, fun rest => ?_, fun k hk ins' m h' => ?_, hlayout⟩
  · exact (getInstruction T mode).run_append ((getInstruction T mode).run_take h) rest
  · have hsame := (getInstruction T mode).run_unique h' h (List.take_prefix k l)
    have hle := (getInstruction T mode).within h'
    rw [List.length_take] at hle
    omega

/-- `mov [eax+ecx*4+16], 0x04030201`, with a byte behind it. -/
def movBytes : List U8 := [0xc7, 0x44, 0x88, 0x10, 0x01, 0x02, 0x03, 0x04, 0x90]

/-- What libdasm makes of it. -/
def movInstruction : Instruction where
  length := 8
  opcode := 0xc7
  modrm := 0x44
  sib := 0x88
  modrmOffset := 1
  dispbytes := 1
  immbytes := 4
  op1 := {
    type := .memory
    reg := 8
    basereg := 0
    indexreg := 1
    scale := 4
    dispbytes := 1
    dispoffset := 3
    displacement := 16
    flags := 0x07042000 }
  op2 := {
    type := .immediate
    reg := 8
    basereg := 8
    indexreg := 8
    immbytes := 4
    immoffset := 4
    immediate := 0x04030201
    flags := 0x07064000 }
  ptr := fewRows 0xc7

theorem accepts_movBytes :
    (getInstruction fewTables .mode32).Accepts movBytes movInstruction 8 := by
  decide

theorem getInstruction_bytes_mov :
    (getInstruction fewTables .mode32).Accepts movBytes movInstruction 8 ∧
      ∃ code header, Layout movBytes code header movInstruction :=
  ⟨accepts_movBytes, (getInstruction_bytes fewTables .mode32 accepts_movBytes).2.2.2⟩

end Libdasm
end PEReplay
