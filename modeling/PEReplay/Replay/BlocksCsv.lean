/-
# PEReplay.Replay.BlocksCsv — reading `blocks.csv` back.

A row nests three kinds of delimiters: the newline, the quoted and comma-separated fields, and the
` _|_ ` appended after every line of the two text fields.  `readBlock` takes one row apart, and
`decode` the whole file.  `decode_serialize` says that the rows of any list of blocks come back
exactly: nothing of the file is ambiguous as long as the disassembly texts stay clear of the
delimiters.
-/
import PEReplay.Replay.Run

namespace PEReplay

open Printf

/-! ## The reader -/

/-- One line of a text field and what stands behind its separator: the line ends two characters
before the `|`, the rest starts two characters behind it. -/
def readLine {β : Type} (read : List Char → Option β) (l : List Char) :
    Option (β × List Char) := do
  let (line, rest) ← cutAt '|' l
  let x ← read (line.take (line.length - 2))
  return (x, rest.drop 2)

/-- All lines of a text field. -/
def readLines {β : Type} (read : List Char → Option β) (l : List Char) : Option (List β) :=
  readMany (readLine read) l.length l

/-- One raw byte: two digits and a blank. -/
def readRawByte (l : List Char) : Option (U8 × List Char) :=
  if l.length < 3 then none else some (BitVec.ofNat 8 (readHex (l.take 2)), l.drop 3)

/-- The bytes of a raw line. -/
def readRawLine (l : List Char) : Option (List U8) := readMany readRawByte l.length l

/-- What a row says. -/
structure BlockRecord where
  id : U32
  tid : U32
  eip : U32
  raw : List (List U8)
  disasm : List (List Char)
  deriving Repr, DecidableEq

/-- One row, and what stands behind it. -/
def readBlock (l : List Char) : Option (BlockRecord × List Char) := do
  let (id, l) ← cutAt ',' l
  let (tid, l) ← cutAt ',' l
  let (eip, l) ← cutAt ',' l
  let (raw, l) ← cutAt '\x22' (l.drop 1)
  let (disasm, l) ← cutAt '\x22' (l.drop 2)
  let raw ← readLines readRawLine raw
  let disasm ← readLines some disasm
  return (⟨BitVec.ofInt 32 (readSigned id), BitVec.ofInt 32 (readSigned tid),
    BitVec.ofNat 32 (readHex (eip.drop 2)), raw, disasm⟩, l.drop 1)

/-- The whole file. -/
def decode (l : List Char) : Option (List BlockRecord) := readMany readBlock l.length l

/-! ## Numbers -/

theorem ofInt_readSigned_intWord (x : U32) : BitVec.ofInt 32 (readSigned (intWord x)) = x := by
  rw [intWord, readSigned_signed, BitVec.ofInt_toInt]

theorem comma_notMem_hexWord (x : U32) : ',' ∉ hexWord x := by
  rw [hexWord, List.mem_cons, List.mem_cons, not_or, not_or]
  refine ⟨by decide, by decide, notMem_zeroPad_hex (by decide) fun d hd => ?_⟩
  interval_cases d <;> decide

theorem readHex_drop_hexWord (x : U32) :
    BitVec.ofNat 32 (readHex ((hexWord x).drop 2)) = x := by
  rw [hexWord, List.drop_succ_cons, List.drop_succ_cons, List.drop_zero, readHex_zeroPad,
    readHex_hex, BitVec.ofNat_toNat, BitVec.setWidth_eq]

/-! ## Raw lines -/

theorem length_rawByte (x : U8) : (rawByte x).length = 3 := by
  rw [rawByte, List.length_append, length_zeroPad_hexUpper (by decide) x.isLt]
  rfl

theorem readRawByte_rawByte (x : U8) (rest : List Char) :
    readRawByte (rawByte x ++ rest) = some (x, rest) := by
  have hlen : (zeroPad 2 (hexUpper x.toNat)).length = 2 :=
    length_zeroPad_hexUpper (by decide) x.isLt
  have hshort : ¬ (rawByte x ++ rest).length < 3 := by
    rw [List.length_append, length_rawByte]
    omega
  have htake : (rawByte x ++ rest).take 2 = zeroPad 2 (hexUpper x.toNat) := by
    rw [rawByte, List.append_assoc, List.take_left' hlen]
  rw [readRawByte, if_neg hshort, htake, List.drop_left' (length_rawByte x), readHex_zeroPad,
    readHex_hexUpper, BitVec.ofNat_toNat, BitVec.setWidth_eq]

/-- **A raw line is read back.** -/
theorem readRawLine_rawLine (bytes : List U8) : readRawLine (rawLine bytes) = some bytes := by
  have hne : ∀ x ∈ bytes, rawByte x ≠ [] := by
    intro x _ h
    have hlen := length_rawByte x
    rw [h] at hlen
    exact absurd hlen (by decide)
  have hread : ∀ x ∈ bytes, ∀ rest, readRawByte (rawByte x ++ rest) = some (id x, rest) :=
    fun x _ => readRawByte_rawByte x
  have h := readMany_flatMap hread hne (length_le_length_flatMap hne)
  rwa [List.map_id] at h

/-- A raw line is made of digits and blanks. -/
theorem notMem_rawLine {c : Char} (h0 : c ≠ '0') (hblank : c ≠ ' ')
    (h : ∀ d, d < 16 → c ≠ d.digitChar.toUpper) (bytes : List U8) : c ∉ rawLine bytes := by
  intro hc
  obtain ⟨x, _, hx⟩ := List.mem_flatMap.mp hc
  rcases List.mem_append.mp hx with hx | hx
  · exact notMem_zeroPad_hexUpper h0 h hx
  · exact hblank (List.mem_singleton.mp hx)

theorem bar_notMem_rawLine (bytes : List U8) : '|' ∉ rawLine bytes :=
  notMem_rawLine (by decide) (by decide) (fun d hd => by interval_cases d <;> decide) bytes

theorem quote_notMem_rawLine (bytes : List U8) : '\x22' ∉ rawLine bytes :=
  notMem_rawLine (by decide) (by decide) (fun d hd => by interval_cases d <;> decide) bytes

/-! ## Separated lines -/

/-- A line without `|` is cut off whole, also when it ends like the separator begins. -/
theorem readLine_separator {β : Type} {read : List Char → Option β} {line : List Char} {x : β}
    (hbar : '|' ∉ line) (hread : read line = some x) (rest : List Char) :
    readLine read (line ++ separator ++ rest) = some (x, rest) := by
  have hsplit : line ++ separator ++ rest =
      (line ++ [' ', '_']) ++ '|' :: ('_' :: ' ' :: rest) := by simp [separator]
  have hbar' : '|' ∉ line ++ [' ', '_'] := by simp [hbar]
  have htake : (line ++ [' ', '_']).take ((line ++ [' ', '_']).length - 2) = line := by
    rw [List.length_append]
    exact List.take_left
  rw [readLine, hsplit, cutAt_append hbar']
  simp only [Option.bind_eq_bind, Option.bind_some, htake, hread]
  rfl

/-- **A text field is read back**, line by line. -/
theorem readLines_separated {α β : Type} {read : List Char → Option β} {print : α → List Char}
    {value : α → β} {xs : List α} (hbar : ∀ x ∈ xs, '|' ∉ print x)
    (hread : ∀ x ∈ xs, read (print x) = some (value x)) :
    readLines read (xs.flatMap fun x => print x ++ separator) = some (xs.map value) := by
  have hne : ∀ x ∈ xs, print x ++ separator ≠ [] := fun x _ => by simp [separator]
  exact readMany_flatMap (fun x hx rest => readLine_separator (hbar x hx) (hread x hx) rest) hne
    (length_le_length_flatMap hne)

/-! ## Rows -/

/-- Where a block comes from: the basic block, the memory it was read from, and its two ids. -/
structure BlockSource where
  mem : Memory
  id : U32
  tid : U32
  bbl : BBL

namespace BlockSource

/-- The block `Process_Encounter_Trace` builds. -/
def block (s : BlockSource) : Block := blockOf s.mem s.id s.tid s.bbl

/-- What its row says: the `i`-th raw line and the `i`-th disassembly line are those of the `i`-th
instruction. -/
def record (s : BlockSource) : BlockRecord where
  id := s.id
  tid := s.tid
  eip := s.bbl.address
  raw := s.bbl.insns.map fun ins => ins.rawBytes s.mem
  disasm := s.bbl.insns.map Ins.disassemble

/-- The disassembly texts are clear of quotes, newlines and bars. -/
def Clean (s : BlockSource) : Prop :=
  ∀ ins ∈ s.bbl.insns, '\x22' ∉ ins.disassemble ∧ '\n' ∉ ins.disassemble ∧ '|' ∉ ins.disassemble

end BlockSource

/-- **Every block of an encounter has a source**: the rows a trace adds are built from its basic
blocks, in order. -/
theorem exists_sources_encounterBbl (mem : Memory) (bbls : List BBL)
    (s : BlockGlobals × U32) :
    ∃ sources : List BlockSource, sources.map BlockSource.bbl = bbls ∧
      (bbls.foldl (BlockGlobals.encounterBbl mem) s).1.blocksCsv =
        s.1.blocksCsv ++ sources.map BlockSource.block := by
  induction bbls generalizing s with
  | nil => exact ⟨[], rfl, (List.append_nil _).symm⟩
  | cons bbl bbls ih =>
      obtain ⟨sources, hbbls, hrows⟩ := ih (BlockGlobals.encounterBbl mem s bbl)
      have hrow : ∃ tid, (BlockGlobals.encounterBbl mem s bbl).1.blocksCsv =
          s.1.blocksCsv ++ [blockOf mem (s.1.lastId + 1) tid bbl] :=
        ⟨(BlockGlobals.encounterBbl mem s bbl).2, rfl⟩
      obtain ⟨tid, hrow⟩ := hrow
      refine ⟨⟨mem, s.1.lastId + 1, tid, bbl⟩ :: sources, by rw [List.map_cons, hbbls], ?_⟩
      rw [List.foldl_cons, hrows, hrow, List.map_cons, List.append_assoc, List.singleton_append]
      rfl

theorem exists_sources (g : BlockGlobals) (mem : Memory) (trace : Trace) :
    ∃ sources : List BlockSource, (g.processEncounterTrace mem trace).blocksCsv =
      g.blocksCsv ++ sources.map BlockSource.block := by
  rw [BlockGlobals.processEncounterTrace]
  split_ifs
  · obtain ⟨sources, _, hrows⟩ := exists_sources_encounterBbl mem trace.bbls (g, 0)
    exact ⟨sources, hrows⟩
  · exact ⟨[], (List.append_nil _).symm⟩

theorem notMem_separated {α : Type} {print : α → List Char} {xs : List α} {c : Char}
    (hsep : c ∉ separator) (h : ∀ x ∈ xs, c ∉ print x) :
    c ∉ xs.flatMap fun x => print x ++ separator := by
  intro hc
  obtain ⟨x, hx, hc⟩ := List.mem_flatMap.mp hc
  rcases List.mem_append.mp hc with hc | hc
  · exact h x hx hc
  · exact hsep hc

/-- **A row is read back**, whatever stands behind it. -/
theorem readBlock_serialize {s : BlockSource} (h : s.Clean) (rest : List Char) :
    readBlock (s.block.serialize ++ rest) = some (s.record, rest) := by
  have hraw : '\x22' ∉ s.bbl.insns.flatMap fun ins => rawLine (ins.rawBytes s.mem) ++ separator :=
    notMem_separated (by decide) fun ins _ => quote_notMem_rawLine _
  have hdisasm : '\x22' ∉ s.bbl.insns.flatMap fun ins => ins.disassemble ++ separator :=
    notMem_separated (by decide) fun ins hins => (h ins hins).1
  have hrawLines : readLines readRawLine
      (s.bbl.insns.flatMap fun ins => rawLine (ins.rawBytes s.mem) ++ separator) =
        some (s.bbl.insns.map fun ins => ins.rawBytes s.mem) :=
    readLines_separated (fun ins _ => bar_notMem_rawLine (ins.rawBytes s.mem))
      fun ins _ => readRawLine_rawLine (ins.rawBytes s.mem)
  have hdisasmLines : readLines some
      (s.bbl.insns.flatMap fun ins => ins.disassemble ++ separator) =
        some (s.bbl.insns.map Ins.disassemble) :=
    readLines_separated (fun ins hins => (h ins hins).2.2) fun _ _ => rfl
  rw [BlockSource.block, blockOf_eq]
  simp only [Block.serialize, List.append_assoc, List.cons_append, List.nil_append]
  simp only [readBlock, Option.bind_eq_bind, cutAt_append (comma_notMem_signed _),
    cutAt_append (comma_notMem_hexWord _), Option.bind_some, List.drop_succ_cons, List.drop_zero,
    intWord, cutAt_append hraw, cutAt_append hdisasm, hrawLines, hdisasmLines]
  rw [← intWord, ← intWord, ofInt_readSigned_intWord, ofInt_readSigned_intWord,
    readHex_drop_hexWord]
  rfl

theorem serialize_ne_nil (b : Block) : b.serialize ≠ [] := by
  simp [Block.serialize]

/-- **The file is uniquely decodable**: one decoder recovers every list of blocks. -/
theorem decode_serialize (sources : List BlockSource) (h : ∀ s ∈ sources, s.Clean) :
    decode (sources.flatMap fun s => s.block.serialize) =
      some (sources.map BlockSource.record) := by
  have hne : ∀ s ∈ sources, s.block.serialize ≠ [] := fun s _ => serialize_ne_nil s.block
  exact readMany_flatMap (fun s hs rest => readBlock_serialize (h s hs) rest) hne
    (length_le_length_flatMap hne)

section Samples

/-- A `nop` and a `ret` in one basic block. -/
def sampleSource : BlockSource where
  mem := fun addr => if addr = 0x1000 then 0x90 else 0xC3
  id := 1
  tid := 1
  bbl :=
    { address := 0x1000
      insns := [{ sampleIns 0x1000 with
          disassemble := ['n', 'o', 'p', ' ', '_'], noNul := by decide },
        sampleIns 0x1001]
      nonempty := List.cons_ne_nil _ _ }

/-- The second instruction alone, on another thread. -/
def retSource : BlockSource :=
  { sampleSource with id := 2, tid := 2, bbl := sampleBbl 0x1001 }

/-- The rows of these two blocks; the first line of the first one ends like a separator begins. -/
theorem decode_serialize_sample :
    decode ([sampleSource, retSource].flatMap fun s => s.block.serialize) =
      some [⟨1, 1, 0x1000, [[0x90], [0xC3]], [['n', 'o', 'p', ' ', '_'], ['r', 'e', 't']]⟩,
        ⟨2, 2, 0x1001, [[0xC3]], [['r', 'e', 't']]⟩] :=
  decode_serialize [sampleSource, retSource] (by
    simp only [List.mem_cons, List.not_mem_nil, or_false, forall_eq_or_imp, forall_eq]
    constructor
    · intro ins hins
      simp only [sampleSource, List.mem_cons, List.not_mem_nil, or_false] at hins
      rcases hins with rfl | rfl <;> decide
    · intro ins hins
      obtain rfl := List.mem_singleton.mp hins
      decide)

end Samples

end PEReplay
