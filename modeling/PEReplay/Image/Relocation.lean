/-
# PEReplay.Image.Relocation — `ImageInfo::AnalyzeRelocationEntry`.

The `.reloc` section of a mapped image is a sequence of blocks: a page address, the block's size in
bytes and sixteen-bit entries.  The tool collects the words that the entries of type 3 address, as
candidate code addresses.  Every read of the image goes through `SecureDereference`, which throws
when the address is outside the module.

The state carries, next to `m_reloc_targets`, the addresses that were read as entries.
-/
import PEReplay.Machine
import PEReplay.Lib.Loop
import Mathlib.Data.Finset.Basic

namespace PEReplay

open Loop

/-- A `SEC` of a loaded image. -/
structure Sec where
  name : List Char
  address : U32
  size : U32

/-- The fields of `ImageInfo` that relocation analysis reads, with the memory it is mapped in. -/
structure ImageInfo where
  address : U32
  size : U32
  sections : List Sec
  mem : Memory

/-- `std::exception("Insecure Dereference Within Image")`, with the address. -/
structure InsecureDereference where
  addr : U32
  deriving Repr, DecidableEq

/-- `m_reloc_targets`, and the addresses read as entries so far. -/
structure RelocState where
  targets : Finset U32
  items : List U32

namespace ImageInfo

/-- `ImageInfo::IsAddrMapped_Imp` -/
def isAddrMappedImp (im : ImageInfo) (addr : U32) : Bool :=
  addr ≥ im.address && addr < im.address + im.size

/-- `ImageInfo::IsAddrWithinModule` -/
def isAddrWithinModule (im : ImageInfo) (addr : U32) : Bool := im.isAddrMappedImp addr

/-- `ImageInfo::SecureDereference<T>`: only the first byte is checked. -/
def secureDereference {T : Type} (im : ImageInfo) (read : Memory → U32 → T) (addr : U32) :
    Except InsecureDereference T :=
  if im.isAddrMappedImp addr then .ok (read im.mem addr) else .error ⟨addr⟩

/-- `boost::iequals(SEC_Name(sec), ".reloc")` -/
def isRelocName (name : List Char) : Bool :=
  name.map Char.toUpper == ['.', 'R', 'E', 'L', 'O', 'C']

/-- Start and size of the last section with that name, zeros when there is none. -/
def relocSection (im : ImageInfo) : U32 × U32 :=
  im.sections.foldl (fun found sec =>
    if isRelocName sec.name then (sec.address, sec.size) else found) (0, 0)

/-- `(reloc_item & 0xF000) == 0x3000` -/
def isHighLow (item : U16) : Bool := item &&& 0xF000 == 0x3000

/-- `m_address + (reloc_item & 0x0FFF) + block_base_addr` -/
def itemAddress (im : ImageInfo) (blockBaseAddr : U32) (item : U16) : U32 :=
  im.address + (item &&& 0x0FFF).setWidth 32 + blockBaseAddr

/-- The body of the `for` loop, for the entry at `itemAddr`. -/
def relocItem (im : ImageInfo) (blockBaseAddr itemAddr : U32) (s : RelocState) :
    Except InsecureDereference RelocState := do
  let item ← im.secureDereference Memory.read16 itemAddr
  let s := { s with items := s.items ++ [itemAddr] }
  if isHighLow item then
    let target ← im.secureDereference Memory.read32 (im.itemAddress blockBaseAddr item)
    if im.isAddrWithinModule target then
      return { s with targets := insert target s.targets }
    else return s
  else return s

/-- One pass of `for (i = 0; i < block_len; i += 2)`. -/
def forBody (im : ImageInfo) (blockAddr blockBaseAddr blockLen : U32) (st : U32 × RelocState) :
    Option (LoopStep (U32 × RelocState) (Except InsecureDereference RelocState)) :=
  let (i, s) := st
  if i < blockLen then
    match im.relocItem blockBaseAddr (blockAddr + i + 8) s with
    | .error e => some (.exit (.error e))
    | .ok s => some (.next (i + 2, s))
  else some (.exit (.ok s))

/-- One pass of `while (reloc_block_addr < reloc_section_start + reloc_section_size)`. -/
def whileBody (im : ImageInfo) (n : Nat) (sectionEnd : U32) (st : U32 × RelocState) :
    Option (LoopStep (U32 × RelocState) (Except InsecureDereference RelocState)) :=
  let (blockAddr, s) := st
  if blockAddr < sectionEnd then
    match im.secureDereference Memory.read32 blockAddr with
    | .error e => some (.exit (.error e))
    | .ok blockBaseAddr =>
      match im.secureDereference Memory.read32 (blockAddr + 4) with
      | .error e => some (.exit (.error e))
      | .ok blockLen =>
        if blockBaseAddr = 0 ∧ blockLen = 0 then some (.exit (.ok s))
        else
          match whileLoop (im.forBody blockAddr blockBaseAddr blockLen) n (0, s) with
          | none => none
          | some (.error e) => some (.exit (.error e))
          | some (.ok s) => some (.next (blockAddr + blockLen, s))
  else some (.exit (.ok s))

/-- `ImageInfo::AnalyzeRelocationEntry`, with at most `n` passes of each loop. -/
def analyzeRelocationEntry (im : ImageInfo) (n : Nat) :
    Option (Except InsecureDereference RelocState) :=
  let (start, size) := im.relocSection
  if start ≠ 0 ∧ size ≠ 0 then whileLoop (im.whileBody n (start + size)) n (start, ⟨∅, []⟩)
  else some (.ok ⟨∅, []⟩)

end ImageInfo

/-! ## What the section means -/

/-- A relocation block: where it stands and what its header says. -/
structure RelocBlock where
  addr : U32
  pageRva : U32
  blockSize : U32

namespace RelocBlock

/-- The addresses of the block's own `(BlockSize - 8) / 2` entries. -/
def entryAddrs (b : RelocBlock) : List U32 :=
  (List.range ((b.blockSize.toNat - 8) / 2)).map fun j => b.addr + 8 + BitVec.ofNat 32 (2 * j)

/-- The addresses of the four words behind the block. -/
def trailingAddrs (b : RelocBlock) : List U32 :=
  (List.range 4).map fun j => b.addr + b.blockSize + BitVec.ofNat 32 (2 * j)

end RelocBlock

namespace ImageInfo

/-- Where the word at `addr`, read as an entry of a block, makes the tool look. -/
def entryTargetAddress (im : ImageInfo) (pageRva addr : U32) : U32 :=
  im.itemAddress pageRva (im.mem.read16 addr)

/-- The word is an entry of type 3. -/
def IsHighLowAt (im : ImageInfo) (addr : U32) : Prop := isHighLow (im.mem.read16 addr) = true

instance (im : ImageInfo) (addr : U32) : Decidable (im.IsHighLowAt addr) :=
  inferInstanceAs (Decidable (_ = _))

/-- The relocation target that the word at `addr` stands for, if it points inside the module. -/
def entryTargets (im : ImageInfo) (pageRva addr : U32) : List U32 :=
  if im.IsHighLowAt addr then
    let target := im.mem.read32 (im.entryTargetAddress pageRva addr)
    if im.isAddrWithinModule target then [target] else []
  else []

/-- The relocation targets of the section: those of the blocks' own entries. -/
def sectionTargets (im : ImageInfo) (blocks : List RelocBlock) : Finset U32 :=
  (blocks.flatMap fun b => b.entryAddrs.flatMap (im.entryTargets b.pageRva)).toFinset

/-- A block as the format wants it, ending at or before `sectionEnd`. -/
structure WellFormedBlock (im : ImageInfo) (sectionEnd : U32) (b : RelocBlock) : Prop where
  pageRva : b.pageRva = im.mem.read32 b.addr
  blockSize : b.blockSize = im.mem.read32 (b.addr + 4)
  header : 8 ≤ b.blockSize.toNat
  aligned : b.blockSize.toNat % 4 = 0
  fits : b.addr.toNat + b.blockSize.toNat ≤ sectionEnd.toNat
  /-- every entry of type 3 addresses four bytes inside the image -/
  entries : ∀ a ∈ b.entryAddrs, im.IsHighLowAt a →
    im.address.toNat ≤ (im.entryTargetAddress b.pageRva a).toNat ∧
    (im.entryTargetAddress b.pageRva a).toNat + 4 ≤ im.address.toNat + im.size.toNat

/-- The blocks stand one behind the other from `addr` on, up to the section's end or an all-zero
header. -/
def Consecutive (im : ImageInfo) (sectionEnd : U32) : U32 → List RelocBlock → Prop
  | addr, [] => addr = sectionEnd ∨
      (addr.toNat + 8 ≤ sectionEnd.toNat ∧ im.mem.read32 addr = 0 ∧ im.mem.read32 (addr + 4) = 0)
  | addr, b :: blocks => b.addr = addr ∧ im.WellFormedBlock sectionEnd b ∧
      im.Consecutive sectionEnd (addr + b.blockSize) blocks

/-- The image is mapped, has a `.reloc` section, and the section consists of `blocks`. -/
structure WellFormed (im : ImageInfo) (blocks : List RelocBlock) : Prop where
  mapped : im.address.toNat + im.size.toNat < 2 ^ 32
  start_ne_zero : im.relocSection.1 ≠ 0
  start_ge : im.address.toNat ≤ im.relocSection.1.toNat
  end_le : im.relocSection.1.toNat + im.relocSection.2.toNat ≤ im.address.toNat + im.size.toNat
  blocks : im.Consecutive (im.relocSection.1 + im.relocSection.2) im.relocSection.1 blocks

end ImageInfo

end PEReplay
