/-
# PEReplay.Replay.FramesCsv — reading `frames.csv` back.

A row is twenty comma-separated fields and a newline: three counters as `%d`, nine registers and
eight stack slots as `0x%08x`.  `readFrame` takes one row apart, and `decodeFrames` the whole file;
`decodeFrames_text` says that the rows of any list come back exactly.  The counters are printed as
`int`s, so from 2^31 on they are negative in the file, and are read back all the same.
-/
import PEReplay.Replay.BlocksCsv

namespace PEReplay

open Printf

/-! ## The reader -/

/-- A `%d` field. -/
def readIntWord (field : List Char) : U32 := BitVec.ofInt 32 (readSigned field)

/-- A `0x%08x` field. -/
def readHexWord (field : List Char) : U32 := BitVec.ofNat 32 (readHex (field.drop 2))

/-- The registers and the stack slots, in the order of the format. -/
def readSnapshot : List U32 → Option (REContext × REStack)
  | eip :: esp :: ebp :: eax :: ebx :: ecx :: edx :: esi :: edi :: slots =>
      if h : slots.length = reStackSlotsNum then
        some (⟨eip, esp, ebp, eax, ebx, ecx, edx, esi, edi⟩, ⟨slots.toArray, h⟩)
      else none
  | _ => none

/-- The fields of one row. -/
def readFields : List (List Char) → Option FrameRow
  | serial :: id :: bid :: words => do
      let (context, stack) ← readSnapshot (words.map readHexWord)
      return ⟨readIntWord serial, readIntWord id, readIntWord bid, context, stack⟩
  | _ => none

/-- One row, and what stands behind it. -/
def readFrame (l : List Char) : Option (FrameRow × List Char) := do
  let (row, rest) ← cutAt '\n' l
  let frame ← readFields (row.splitOn ',')
  return (frame, rest)

/-- The whole file. -/
def decodeFrames (l : List Char) : Option (List FrameRow) := readMany readFrame l.length l

/-! ## Fields -/

theorem readIntWord_intWord (x : U32) : readIntWord (intWord x) = x := ofInt_readSigned_intWord x

theorem readHexWord_hexWord (x : U32) : readHexWord (hexWord x) = x := readHex_drop_hexWord x

/-- A field holds letters, digits and a sign. -/
theorem notMem_hexWord {c : Char} (h : c.isAlphanum = false) (x : U32) : c ∉ hexWord x := by
  have hne : ∀ a : Char, a.isAlphanum = true → c ≠ a := by
    rintro a ha rfl
    exact absurd (h.symm.trans ha) (by decide)
  rw [hexWord, List.mem_cons, List.mem_cons, not_or, not_or]
  refine ⟨hne _ (by decide), hne _ (by decide), ?_⟩
  refine notMem_zeroPad_hex (hne _ (by decide)) fun d hd => hne _ ?_
  interval_cases d <;> decide

theorem notMem_intWord {c : Char} (h : c.isAlphanum = false) (hminus : c ≠ '-') (x : U32) :
    c ∉ intWord x := by
  intro hmem
  rcases isDigit_or_minus_of_mem_signed hmem with hdigit | heq
  · rw [Char.isAlphanum, hdigit, Bool.or_true] at h
    exact absurd h (by decide)
  · exact hminus heq

theorem length_hexWord (x : U32) : (hexWord x).length = 10 := by
  have hlen : (hex x.toNat).length ≤ 8 :=
    (Nat.length_toDigits_le_iff (by decide) (by decide)).mpr x.isLt
  rw [hexWord, List.length_cons, List.length_cons, length_zeroPad hlen]

theorem length_intWord_le (x : U32) : (intWord x).length ≤ 11 := by
  refine length_signed_le (d := 10) (by decide) ?_
  have hlow := BitVec.le_toInt x
  have hhigh := BitVec.toInt_lt (x := x)
  omega

/-- The registers and the slots of a row come back. -/
theorem readSnapshot_registers (c : REContext) (s : REStack) :
    readSnapshot (c.registers ++ s.toList) = some (c, s) := by
  have hlen : s.toList.length = reStackSlotsNum := s.length_toList
  simp only [REContext.registers, List.cons_append, List.nil_append, readSnapshot, hlen,
    dif_pos, Vector.toArray_toList]

/-! ## Rows -/

/-- The fields of a row, as they are printed. -/
def FrameRow.fields (r : FrameRow) : List (List Char) :=
  [intWord r.serial, intWord r.id, intWord r.bid]
    ++ (r.context.registers ++ r.stack.toList).map hexWord

theorem FrameRow.text_eq (r : FrameRow) : r.text = [','].intercalate r.fields ++ ['\n'] := rfl

theorem FrameRow.mem_fields {r : FrameRow} {field : List Char} (h : field ∈ r.fields) :
    ∃ x, field = intWord x ∨ field = hexWord x := by
  rcases List.mem_append.mp h with h | h
  · simp only [List.mem_cons, List.not_mem_nil, or_false] at h
    rcases h with rfl | rfl | rfl
    · exact ⟨r.serial, Or.inl rfl⟩
    · exact ⟨r.id, Or.inl rfl⟩
    · exact ⟨r.bid, Or.inl rfl⟩
  · obtain ⟨x, -, rfl⟩ := List.mem_map.mp h
    exact ⟨x, Or.inr rfl⟩

/-- A row without its newline holds fields and commas. -/
theorem FrameRow.notMem_fields {c : Char} (h : c.isAlphanum = false) (hminus : c ≠ '-')
    (hcomma : c ≠ ',') (r : FrameRow) : c ∉ [','].intercalate r.fields := by
  refine notMem_intercalate hcomma fun field hfield => ?_
  obtain ⟨x, rfl | rfl⟩ := FrameRow.mem_fields hfield
  · exact notMem_intWord h hminus x
  · exact notMem_hexWord h x

/-- A row is short. -/
theorem FrameRow.length_text_le (r : FrameRow) : r.text.length ≤ 241 := by
  have hfields : r.fields.length = 20 := by
    simp [FrameRow.fields, REContext.registers, reStackSlotsNum]
  have hlen : ∀ field ∈ r.fields, field.length ≤ 11 := by
    intro field hfield
    obtain ⟨x, rfl | rfl⟩ := FrameRow.mem_fields hfield
    · exact length_intWord_le x
    · exact (length_hexWord x).le.trans (by decide)
  have hle : ([','].intercalate r.fields).length ≤ _ := length_intercalate_le hlen
  rw [hfields] at hle
  rw [FrameRow.text_eq, List.length_append, List.length_singleton]
  omega

theorem readFields_fields (r : FrameRow) : readFields r.fields = some r := by
  have hwords : ((r.context.registers ++ r.stack.toList).map hexWord).map readHexWord =
      r.context.registers ++ r.stack.toList := by
    rw [List.map_map]
    exact List.map_id'' readHexWord_hexWord _
  simp only [FrameRow.fields, List.cons_append, List.nil_append, readFields, hwords,
    readSnapshot_registers, readIntWord_intWord]
  rfl

/-- **A row is read back**, whatever stands behind it. -/
theorem readFrame_text (r : FrameRow) (rest : List Char) :
    readFrame (r.text ++ rest) = some (r, rest) := by
  have hcomma : ∀ field ∈ r.fields, ',' ∉ field := by
    intro field hfield
    obtain ⟨x, rfl | rfl⟩ := FrameRow.mem_fields hfield
    · exact comma_notMem_signed _
    · exact comma_notMem_hexWord x
  have hsplit : ([','].intercalate r.fields).splitOn ',' = r.fields :=
    List.splitOn_intercalate ',' hcomma (List.cons_ne_nil _ _)
  have hcut : cutAt '\n' (r.text ++ rest) = some ([','].intercalate r.fields, rest) := by
    rw [FrameRow.text_eq, List.append_assoc, List.singleton_append]
    exact cutAt_append (r.notMem_fields (by decide) (by decide) (by decide)) rest
  simp only [readFrame, Option.bind_eq_bind, hcut, Option.bind_some, hsplit, readFields_fields]
  rfl

theorem FrameRow.text_ne_nil (r : FrameRow) : r.text ≠ [] := by
  simp [FrameRow.text_eq]

/-- **`frames.csv` is uniquely decodable**: one decoder recovers every list of rows. -/
theorem decodeFrames_text (rows : List FrameRow) :
    decodeFrames (rows.flatMap FrameRow.text) = some rows := by
  have hne : ∀ r ∈ rows, r.text ≠ [] := fun r _ => r.text_ne_nil
  have hread : ∀ r ∈ rows, ∀ rest, readFrame (r.text ++ rest) = some (id r, rest) :=
    fun r _ rest => readFrame_text r rest
  have h := readMany_flatMap hread hne (length_le_length_flatMap hne)
  rwa [List.map_id] at h

end PEReplay
