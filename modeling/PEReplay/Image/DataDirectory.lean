/-
# PEReplay.Image.DataDirectory — `ImageInfo::AnalyzeDataDirectory`.

The headers of a mapped image name its data directories; the second of them is the import table, an
array of descriptors, each with two arrays of thunks and the name of a DLL.  The analysis collects
the directories and the thunk arrays as grey areas.  It reads the image through plain pointers, with
no `SecureDereference`, so it is written here as a program that records what it looks at: the bytes
it reads, and the indexes it takes into `data_dir_names`.  Each of its walks goes on until it finds
a zero, which may be never.

The constructor calls it on an empty `grey_areas`; the call is commented out.
-/
import PEReplay.Image.Relocation
import PEReplay.Lib.Traced

namespace PEReplay

open Loop Traced

/-! ## What it looks at -/

/-- `*(boost::uint64_t*)addr`, little endian. -/
def Memory.read64 (mem : Memory) (addr : U32) : BitVec 64 :=
  mem.read32 (addr + 4) ++ mem.read32 addr

/-- What the analysis looks at: so many bytes from an address on, or `data_dir_names[i]`. -/
inductive DirAccess where
  | read (addr : U32) (width : Nat)
  | name (i : U32)
  deriving Repr, DecidableEq

/-- `data_dir_names` -/
def dataDirNames : List String :=
  ["export table", "import table", "resource table", "exception table", "certificate table",
    "relocation table", "debug table", "architecture table", "global pointer", "tls table",
    "load config table", "bound import", "iat table", "delay import table", "clr runtime header",
    "", "", "", ""]

/-- `opt_header->Magic`, where it is one of the two that are known. -/
inductive OptMagic where
  | hdr32
  | hdr64
  deriving Repr, DecidableEq

namespace OptMagic

/-- `IMAGE_NT_OPTIONAL_HDR32_MAGIC`, `IMAGE_NT_OPTIONAL_HDR64_MAGIC` -/
def ofWord (magic : U16) : Option OptMagic :=
  if magic = 0x10B then some .hdr32 else if magic = 0x20B then some .hdr64 else none

/-- The offset of `DataDirectory` in the optional header. -/
def dataDirectory : OptMagic → U32
  | .hdr32 => 96
  | .hdr64 => 112

/-- `sizeof(*ilt_entry)` -/
def thunkSize : OptMagic → Nat
  | .hdr32 => 4
  | .hdr64 => 8

/-- `*ilt_entry` -/
def thunk (mem : Memory) (addr : U32) : OptMagic → BitVec 64
  | .hdr32 => (mem.read32 addr).setWidth 64
  | .hdr64 => mem.read64 addr

/-- The flag of an import by ordinal. -/
def ordinalFlag : OptMagic → BitVec 64
  | .hdr32 => 0x80000000
  | .hdr64 => 0x8000000000000000

/-- `(*ilt_entry) & 0x7FFFFFFF`, `(*ilt_entry) & 0x7FFFFFFFFFFFFFFF`, as it is added to an
address. -/
def nameRva (entry : BitVec 64) : OptMagic → U32
  | .hdr32 => (entry &&& 0x7FFFFFFF).setWidth 32
  | .hdr64 => (entry &&& 0x7FFFFFFFFFFFFFFF).setWidth 32

end OptMagic

namespace ImageInfo

/-! ## Reading -/

def look8 (im : ImageInfo) (addr : U32) : Program DirAccess U8 :=
  .emit (.read addr 1) (im.mem addr)

def look16 (im : ImageInfo) (addr : U32) : Program DirAccess U16 :=
  .emit (.read addr 2) (im.mem.read16 addr)

def look32 (im : ImageInfo) (addr : U32) : Program DirAccess U32 :=
  .emit (.read addr 4) (im.mem.read32 addr)

def lookThunk (im : ImageInfo) (magic : OptMagic) (addr : U32) : Program DirAccess (BitVec 64) :=
  .emit (.read addr magic.thunkSize) (magic.thunk im.mem addr)

/-- The next character of a text. -/
def textBody (im : ImageInfo) (addr : U32) : Program DirAccess (LoopStep U32 Unit) := do
  let c ← im.look8 addr
  return if c = 0 then .exit () else .next (addr + 1)

/-- What a `const char*` makes its user read: everything up to the zero. -/
def readText (im : ImageInfo) (addr : U32) : Program DirAccess Unit := .loop im.textBody addr

/-- `LOQ(CONFIG_IMG_STATIC, "… %s\n", addr)`: the text is read when the entry is enabled and has a
file. -/
def logText (im : ImageInfo) (enabled : Bool) (addr : U32) : Program DirAccess Unit :=
  if enabled then im.readText addr else pure ()

/-! ## The data directories -/

/-- A directory is a grey area, unless both of its fields are zero. -/
def directoryArea (im : ImageInfo) (virtualAddress size : U32) : List (U32 × U32) :=
  if virtualAddress = 0 ∧ size = 0 then [] else [(im.address + virtualAddress, size)]

/-- One pass of `for (i = 0; i < opt_header->NumberOfRvaAndSizes; i++)`.  Both branches log the name
of the directory, and arguments are evaluated whether or not the entry is enabled. -/
def directoryBody (im : ImageInfo) (optHeader dataDirs : U32) : U32 × List (U32 × U32) →
    Program DirAccess (LoopStep (U32 × List (U32 × U32)) (List (U32 × U32)))
  | (i, greyAreas) => do
    -- `opt_header` is an `IMAGE_OPTIONAL_HEADER32`, whatever `Magic` says
    let numberOfRvaAndSizes ← im.look32 (optHeader + 92)
    if i < numberOfRvaAndSizes then do
      let virtualAddress ← im.look32 (dataDirs + 8 * i)
      let size ← im.look32 (dataDirs + 8 * i + 4)
      Program.emit (.name i) ()
      return .next (i + 1, greyAreas ++ im.directoryArea virtualAddress size)
    else return .exit greyAreas

/-! ## The thunk arrays -/

/-- An entry of the import lookup table: the text of an import by name is copied. -/
def iltEntry (im : ImageInfo) (magic : OptMagic) (entry : BitVec 64) : Program DirAccess Unit :=
  if entry &&& magic.ordinalFlag = 0 ∧
      im.isAddrWithinModule (im.address + magic.nameRva entry) ∧
      im.isAddrWithinModule (im.address + magic.nameRva entry + 2) then
    im.readText (im.address + magic.nameRva entry + 2)
  else pure ()

/-- An entry of the import address table. -/
def iatEntry (_ : BitVec 64) : Program DirAccess Unit := pure ()

/-- One pass of `while (*ilt_entry != 0)` and of `while (*iat_entry != 0)`. -/
def thunkBody (im : ImageInfo) (magic : OptMagic) (visit : BitVec 64 → Program DirAccess Unit) :
    U32 × U32 → Program DirAccess (LoopStep (U32 × U32) U32)
  | (addr, size) => do
    let entry ← im.lookThunk magic addr
    if entry = 0 then return .exit size
    else do
      visit entry
      return .next (addr + .ofNat 32 magic.thunkSize, size + .ofNat 32 magic.thunkSize)

/-- `ilt_size`, `iat_size`: the size of the array, if it begins in the module. -/
def thunkArray (im : ImageInfo) (magic : OptMagic) (visit : BitVec 64 → Program DirAccess Unit)
    (addr : U32) : Program DirAccess U32 :=
  if im.isAddrWithinModule addr then .loop (im.thunkBody magic visit) (addr, 0) else pure 0

/-! ## The import table -/

/-- One pass of `while (import_directory_entry->Characteristics != 0)`. -/
def importBody (im : ImageInfo) (magic : OptMagic) (enabled : Bool) : U32 × List (U32 × U32) →
    Program DirAccess (LoopStep (U32 × List (U32 × U32)) (List (U32 × U32)))
  | (entry, greyAreas) => do
    let characteristics ← im.look32 entry
    if characteristics = 0 then return .exit greyAreas
    else do
      -- `Characteristics` and `OriginalFirstThunk` are one field
      let originalFirstThunk ← im.look32 entry
      let firstThunk ← im.look32 (entry + 16)
      let name ← im.look32 (entry + 12)
      im.logText enabled (im.address + name)
      let iltAddr := im.address + originalFirstThunk
      let iatAddr := im.address + firstThunk
      let iltSize ← im.thunkArray magic (im.iltEntry magic) iltAddr
      let iatSize ← im.thunkArray magic iatEntry iatAddr
      return .next (entry + 20, greyAreas ++ [(iltAddr, iltSize), (iatAddr, iatSize)])

/-- The import table, if it begins in the module. -/
def importTable (im : ImageInfo) (magic : OptMagic) (enabled : Bool) (addr : U32)
    (greyAreas : List (U32 × U32)) : Program DirAccess (List (U32 × U32)) :=
  if im.isAddrWithinModule addr then .loop (im.importBody magic enabled) (addr, greyAreas)
  else pure greyAreas

/-- `if (m_data_dirs != NULL)`: the directories, and then the import table. -/
def analyzeTables (im : ImageInfo) (magic : OptMagic) (enabled : Bool) (optHeader dataDirs : U32) :
    Program DirAccess (List (U32 × U32)) :=
  if dataDirs = 0 then pure []
  else do
    let greyAreas ← .loop (im.directoryBody optHeader dataDirs) (0, [])
    -- `IMAGE_DATA_DIRECTORY import_data_dir`, a copy of both fields
    let virtualAddress ← .emit (.read (dataDirs + 8) 8) (im.mem.read32 (dataDirs + 8))
    im.importTable magic enabled (im.address + virtualAddress) greyAreas

/-- `ImageInfo::AnalyzeDataDirectory`: what is in `grey_areas` at the end.  `m_data_dirs` is `NULL`
from the constructor on when `Magic` is neither of the two. -/
def analyzeDataDirectory (im : ImageInfo) (enabled : Bool) :
    Program DirAccess (List (U32 × U32)) := do
  let e_lfanew ← im.look32 (im.address + 0x3C)
  let optHeader := im.address + e_lfanew + 24
  let magic ← im.look16 optHeader
  match OptMagic.ofWord magic with
  | none => return []
  | some magic => im.analyzeTables magic enabled optHeader (optHeader + magic.dataDirectory)

/-! ## What the headers say -/

/-- `opt_header` -/
def optHeader (im : ImageInfo) : U32 := im.address + im.mem.read32 (im.address + 0x3C) + 24

/-- `opt_header->NumberOfRvaAndSizes` -/
def numberOfRvaAndSizes (im : ImageInfo) : U32 := im.mem.read32 (im.optHeader + 92)

/-! ## What a pass comes to -/

variable {im : ImageInfo}

@[simp] theorem returns_look32 {addr x : U32} :
    (im.look32 addr).Returns x ↔ x = im.mem.read32 addr :=
  Program.returns_emit

theorem returns_textBody {addr : U32} {x : LoopStep U32 Unit} :
    (im.textBody addr).Returns x ↔
      x = if im.mem addr = 0 then .exit () else .next (addr + 1) := by
  simp only [textBody, look8, Program.returns_bind, Program.returns_emit, Program.returns_pure,
    exists_eq_left]

theorem returns_directoryBody {optHeader dataDirs i : U32} {greyAreas : List (U32 × U32)}
    {x : LoopStep (U32 × List (U32 × U32)) (List (U32 × U32))} :
    (im.directoryBody optHeader dataDirs (i, greyAreas)).Returns x ↔
      x = if i < im.mem.read32 (optHeader + 92) then
          .next (i + 1, greyAreas ++ im.directoryArea (im.mem.read32 (dataDirs + 8 * i))
            (im.mem.read32 (dataDirs + 8 * i + 4)))
        else .exit greyAreas := by
  simp only [directoryBody, Program.returns_bind, returns_look32, exists_eq_left]
  split_ifs
  · simp only [Program.returns_bind, returns_look32, Program.returns_emit, Program.returns_pure,
      exists_eq_left, Unique.exists_iff, true_and]
  · exact Program.returns_pure

theorem returns_thunkBody {magic : OptMagic} {visit : BitVec 64 → Program DirAccess Unit}
    {addr size : U32} {x : LoopStep (U32 × U32) U32} :
    (im.thunkBody magic visit (addr, size)).Returns x ↔
      if magic.thunk im.mem addr = 0 then x = .exit size
      else (visit (magic.thunk im.mem addr)).Returns () ∧
        x = .next (addr + .ofNat 32 magic.thunkSize, size + .ofNat 32 magic.thunkSize) := by
  simp only [thunkBody, lookThunk, Program.returns_bind, Program.returns_emit, exists_eq_left]
  split_ifs
  · exact Program.returns_pure
  · simp only [Program.returns_bind, Program.returns_pure, Unique.exists_iff,
      PUnit.default_eq_unit]

theorem returns_importBody {magic : OptMagic} {enabled : Bool} {entry : U32}
    {greyAreas : List (U32 × U32)}
    {x : LoopStep (U32 × List (U32 × U32)) (List (U32 × U32))} :
    (im.importBody magic enabled (entry, greyAreas)).Returns x ↔
      if im.mem.read32 entry = 0 then x = .exit greyAreas
      else (im.logText enabled (im.address + im.mem.read32 (entry + 12))).Returns () ∧
        ∃ iltSize iatSize,
          (im.thunkArray magic (im.iltEntry magic) (im.address + im.mem.read32 entry)).Returns
            iltSize ∧
          (im.thunkArray magic iatEntry (im.address + im.mem.read32 (entry + 16))).Returns iatSize ∧
          x = .next (entry + 20, greyAreas ++
            [(im.address + im.mem.read32 entry, iltSize),
              (im.address + im.mem.read32 (entry + 16), iatSize)]) := by
  simp only [importBody, Program.returns_bind, returns_look32, exists_eq_left]
  split_ifs
  · exact Program.returns_pure
  · simp only [Program.returns_bind, returns_look32, Program.returns_pure, exists_eq_left,
      Unique.exists_iff, PUnit.default_eq_unit, exists_and_left]

end ImageInfo

end PEReplay
