/-
# PEReplay.Image.Imports — the grey areas that `AnalyzeDataDirectory` collects.

The comment in the source gives the format: the import table has one descriptor for each DLL, and
the last is all zeroed.  A descriptor may do without its lookup table, and its first field is zero
then.  The walk takes a zero in the first field for the end of the table.  So what it collects is
what the table says exactly when the descriptors that have both of their arrays come first, and
those after them have neither (`collects_iff`).
-/
import PEReplay.Image.DataDirectory
import PEReplay.Image.Accesses

namespace PEReplay

open Loop Traced Program

/-! ## What the import table says -/

/-- `IMAGE_IMPORT_DESCRIPTOR` -/
structure ImportDescriptor where
  originalFirstThunk : U32
  timeDateStamp : U32
  forwarderChain : U32
  name : U32
  firstThunk : U32
  deriving Repr, DecidableEq

namespace ImportDescriptor

/-- The last descriptor. -/
def allZero : ImportDescriptor := ⟨0, 0, 0, 0, 0⟩

/-- A lookup table and an address table. -/
def HasBoth (d : ImportDescriptor) : Prop := d.originalFirstThunk ≠ 0 ∧ d.firstThunk ≠ 0

def HasNeither (d : ImportDescriptor) : Prop := d.originalFirstThunk = 0 ∧ d.firstThunk = 0

instance (d : ImportDescriptor) : Decidable d.HasBoth := inferInstanceAs (Decidable (_ ∧ _))

instance (d : ImportDescriptor) : Decidable d.HasNeither := inferInstanceAs (Decidable (_ ∧ _))

end ImportDescriptor

/-- First come descriptors with both of their arrays, and then such as have none. -/
def BothThenNeither (ds : List ImportDescriptor) : Prop :=
  ∃ both neither, ds = both ++ neither ∧ (∀ d ∈ both, d.HasBoth) ∧ ∀ d ∈ neither, d.HasNeither

namespace ImageInfo

/-- The descriptor at an address. -/
def descriptorAt (im : ImageInfo) (addr : U32) : ImportDescriptor where
  originalFirstThunk := im.mem.read32 addr
  timeDateStamp := im.mem.read32 (addr + 4)
  forwarderChain := im.mem.read32 (addr + 8)
  name := im.mem.read32 (addr + 12)
  firstThunk := im.mem.read32 (addr + 16)

/-- The descriptors at `addr`, up to the one that is all zeroed, are `ds`. -/
def DescriptorsAt (im : ImageInfo) : U32 → List ImportDescriptor → Prop
  | addr, [] => im.descriptorAt addr = .allZero
  | addr, d :: ds => im.descriptorAt addr = d ∧ d ≠ .allZero ∧ im.DescriptorsAt (addr + 20) ds

instance instDecidableDescriptorsAt (im : ImageInfo) :
    ∀ addr ds, Decidable (im.DescriptorsAt addr ds)
  | addr, [] => inferInstanceAs (Decidable (im.descriptorAt addr = .allZero))
  | addr, d :: ds =>
      have := instDecidableDescriptorsAt im (addr + 20) ds
      inferInstanceAs (Decidable (im.descriptorAt addr = d ∧ d ≠ .allZero ∧ _))

/-- There are `k` entries at `addr`, and a zero behind them. -/
def ThunksAt (im : ImageInfo) (addr : U32) (k : Nat) : Prop :=
  (∀ j < k, im.mem.read32 (addr + .ofNat 32 (4 * j)) ≠ 0) ∧
    im.mem.read32 (addr + .ofNat 32 (4 * k)) = 0

instance (im : ImageInfo) (addr : U32) (k : Nat) : Decidable (im.ThunksAt addr k) :=
  inferInstanceAs (Decidable (_ ∧ _))

/-- Every thunk array that there is begins in the module and has its zero. -/
def ArraysEnd (im : ImageInfo) (entries : U32 → Nat) (d : ImportDescriptor) : Prop :=
  ∀ rva ∈ [d.originalFirstThunk, d.firstThunk], rva ≠ 0 →
    im.isAddrWithinModule (im.address + rva) = true ∧ im.ThunksAt (im.address + rva) (entries rva)

/-- A PE32 image with the descriptors `ds` in its import table, and so many entries in the thunk
arrays that there are. -/
structure ImportsFrom (im : ImageInfo) (ds : List ImportDescriptor) (entries : U32 → Nat) :
    Prop where
  mapped : im.address.toNat + im.size.toNat < 2 ^ 32
  header : im.Covers im.optHeader 96
  magic : im.mem.read16 im.optHeader = 0x10B
  inside : im.isAddrWithinModule (im.address + im.mem.read32 (im.optHeader + 96 + 8)) = true
  table : im.DescriptorsAt (im.address + im.mem.read32 (im.optHeader + 96 + 8)) ds
  arrays : ∀ d ∈ ds, im.ArraysEnd entries d

/-- `VirtualAddress` and `Size` of a data directory. -/
def directory (im : ImageInfo) (i : Nat) : U32 × U32 :=
  (im.mem.read32 (im.optHeader + 96 + 8 * .ofNat 32 i),
    im.mem.read32 (im.optHeader + 96 + 8 * .ofNat 32 i + 4))

/-- One area for each directory that is not empty. -/
def areasOf (im : ImageInfo) (dirs : List (U32 × U32)) : List (U32 × U32) :=
  (dirs.filter (· ≠ (0, 0))).map fun dir => (im.address + dir.1, dir.2)

/-- The areas of the data directories. -/
def directoryAreas (im : ImageInfo) : List (U32 × U32) :=
  im.areasOf ((List.range im.numberOfRvaAndSizes.toNat).map im.directory)

/-- The area of a thunk array, if there is one. -/
def arrayArea (im : ImageInfo) (entries : U32 → Nat) (rva : U32) : List (U32 × U32) :=
  if rva = 0 then [] else [(im.address + rva, .ofNat 32 (4 * entries rva))]

/-- The areas of the lookup tables and address tables. -/
def importAreas (im : ImageInfo) (entries : U32 → Nat) (ds : List ImportDescriptor) :
    List (U32 × U32) :=
  ds.flatMap fun d => im.arrayArea entries d.originalFirstThunk ++ im.arrayArea entries d.firstThunk

variable {im : ImageInfo} {ds : List ImportDescriptor} {d : ImportDescriptor} {entries : U32 → Nat}

/-! ## Texts and thunks -/

/-- A field is zero only where its first byte is. -/
theorem byte_of_read32 {a : U32} (h : im.mem.read32 a = 0) : im.mem a = 0 := by
  have hsum := im.mem.toNat_read32 a
  rw [h] at hsum
  bv_omega

/-- A text ends, for there is a zero to come to. -/
theorem returns_readText {z : U32} (hz : im.mem z = 0) (a : U32) : (im.readText a).Returns () := by
  generalize hk : (z - a).toNat = k
  induction k using Nat.strong_induction_on generalizing a with
  | _ k ih =>
      by_cases ha : im.mem a = 0
      · have hpass : (im.textBody a).Returns (.exit ()) := by
          rw [returns_textBody, if_pos ha]
        exact (returns_loop_of_exit hpass).mpr rfl
      · have hne : a ≠ z := by
          rintro rfl
          exact ha hz
        have hpass : (im.textBody a).Returns (.next (a + 1)) := by
          rw [returns_textBody, if_neg ha]
        refine (returns_loop_of_next hpass).mpr ?_
        exact ih _ (by bv_omega) (a + 1) rfl

theorem returns_logText {z : U32} (hz : im.mem z = 0) (enabled : Bool) (a : U32) :
    (im.logText enabled a).Returns () := by
  cases enabled with
  | false => exact returns_pure.mpr rfl
  | true => exact returns_readText hz a

theorem returns_iltEntry {z : U32} (hz : im.mem z = 0) (magic : OptMagic) (entry : BitVec 64) :
    (im.iltEntry magic entry).Returns () := by
  unfold iltEntry
  split_ifs
  · exact returns_readText hz _
  · exact returns_pure.mpr rfl

theorem thunk_hdr32_eq_zero (mem : Memory) (a : U32) :
    OptMagic.thunk mem a .hdr32 = 0 ↔ mem.read32 a = 0 := by
  show (mem.read32 a).setWidth 64 = 0 ↔ _
  constructor
  · intro h
    bv_omega
  · intro h
    rw [h]
    rfl

theorem add_four_add (a : U32) (j : Nat) :
    a + 4 + BitVec.ofNat 32 (4 * j) = a + BitVec.ofNat 32 (4 * (j + 1)) := by
  rw [Nat.mul_add, BitVec.ofNat_add, BitVec.add_comm (BitVec.ofNat 32 (4 * j)), ← BitVec.add_assoc]
  rfl

/-- **A thunk array** is walked to its zero. -/
theorem returns_thunks {visit : BitVec 64 → Program DirAccess Unit}
    (hvisit : ∀ entry, (visit entry).Returns ()) {addr : U32} {k : Nat} (h : im.ThunksAt addr k)
    (size : U32) :
    (loop (im.thunkBody .hdr32 visit) (addr, size)).Returns (size + .ofNat 32 (4 * k)) := by
  induction k generalizing addr size with
  | zero =>
      have hzero : im.mem.read32 addr = 0 := by simpa using h.2
      have hpass : (im.thunkBody .hdr32 visit (addr, size)).Returns (.exit size) := by
        rw [returns_thunkBody, if_pos ((thunk_hdr32_eq_zero _ _).mpr hzero)]
      exact (returns_loop_of_exit hpass).mpr (BitVec.add_zero size)
  | succ k ih =>
      have hfirst : im.mem.read32 addr ≠ 0 := by simpa using h.1 0 (Nat.succ_pos k)
      have hrest : im.ThunksAt (addr + 4) k := by
        constructor
        · intro j hj
          rw [add_four_add]
          exact h.1 (j + 1) (by omega)
        · rw [add_four_add]
          exact h.2
      have hpass : (im.thunkBody .hdr32 visit (addr, size)).Returns
          (.next (addr + 4, size + 4)) := by
        rw [returns_thunkBody, if_neg (mt (thunk_hdr32_eq_zero _ _).mp hfirst)]
        exact ⟨hvisit _, rfl⟩
      rw [returns_loop_of_next hpass, ← add_four_add]
      exact ih hrest (size + 4)

theorem returns_thunkArray {visit : BitVec 64 → Program DirAccess Unit}
    (hvisit : ∀ entry, (visit entry).Returns ()) {addr : U32} {k : Nat}
    (hinside : im.isAddrWithinModule addr = true) (h : im.ThunksAt addr k) :
    (im.thunkArray .hdr32 visit addr).Returns (.ofNat 32 (4 * k)) := by
  have hsum : (0 : U32) + BitVec.ofNat 32 (4 * k) = BitVec.ofNat 32 (4 * k) := BitVec.zero_add _
  unfold thunkArray
  rw [if_pos hinside, ← hsum]
  exact returns_thunks hvisit h 0

/-! ## The import table -/

/-- There is a zero in the last descriptor. -/
theorem exists_zero_of_descriptorsAt {addr : U32} (h : im.DescriptorsAt addr ds) :
    ∃ z, im.mem z = 0 := by
  induction ds generalizing addr with
  | nil => exact ⟨addr, byte_of_read32 (congrArg ImportDescriptor.originalFirstThunk h)⟩
  | cons d ds ih => exact ih h.2.2

theorem importAreas_cons : im.importAreas entries (d :: ds) =
    im.arrayArea entries d.originalFirstThunk ++ im.arrayArea entries d.firstThunk ++
      im.importAreas entries ds :=
  List.flatMap_cons

/-- No array begins where the image does. -/
theorem ne_address_of_mem {area : U32 × U32} (h : area ∈ im.importAreas entries ds) :
    area.1 ≠ im.address := by
  have harray : ∀ rva, area ∈ im.arrayArea entries rva → area.1 ≠ im.address := by
    intro rva harea
    unfold arrayArea at harea
    split_ifs at harea with hrva
    · exact absurd harea List.not_mem_nil
    · rw [List.mem_singleton.mp harea]
      bv_omega
  obtain ⟨d, -, hd⟩ := List.mem_flatMap.mp h
  rcases List.mem_append.mp hd with hd | hd
  · exact harray _ hd
  · exact harray _ hd

/-- There is nothing to collect where no descriptor has an array. -/
theorem importAreas_eq_nil_iff :
    im.importAreas entries ds = [] ↔ ∀ d ∈ ds, d.HasNeither := by
  have harray : ∀ rva, im.arrayArea entries rva = [] ↔ rva = 0 := by
    intro rva
    unfold arrayArea
    by_cases hrva : rva = 0
    · rw [if_pos hrva]
      exact iff_of_true rfl hrva
    · rw [if_neg hrva]
      exact iff_of_false (List.cons_ne_nil _ _) hrva
  unfold importAreas
  rw [List.flatMap_eq_nil_iff]
  simp only [List.append_eq_nil_iff, harray, ImportDescriptor.HasNeither]

theorem bothThenNeither_cons_iff : BothThenNeither (d :: ds) ↔
    d.HasBoth ∧ BothThenNeither ds ∨ ∀ d' ∈ d :: ds, d'.HasNeither := by
  constructor
  · rintro ⟨_ | ⟨d', both⟩, neither, heq, hboth, hneither⟩
    · rw [List.nil_append] at heq
      rw [heq]
      exact Or.inr hneither
    · obtain ⟨rfl, rfl⟩ := List.cons.inj heq
      obtain ⟨hd, hrest⟩ := List.forall_mem_cons.mp hboth
      exact Or.inl ⟨hd, both, neither, rfl, hrest, hneither⟩
  · rintro (⟨hd, both, neither, rfl, hboth, hneither⟩ | hneither)
    · exact ⟨d :: both, neither, rfl, List.forall_mem_cons.mpr ⟨hd, hboth⟩, hneither⟩
    · exact ⟨[], d :: ds, rfl, by simp, hneither⟩

/-- What has been collected stays in front. -/
theorem imports_grow {magic : OptMagic} {enabled : Bool} {addr : U32}
    {greyAreas areas : List (U32 × U32)}
    (h : (loop (im.importBody magic enabled) (addr, greyAreas)).Returns areas) :
    greyAreas <+: areas := by
  refine loop_rule (fun s => greyAreas <+: s.2) ?_ ?_ h List.prefix_rfl
  · rintro ⟨entry, before⟩ s' hbefore hpass
    rw [returns_importBody] at hpass
    split_ifs at hpass
    obtain ⟨-, _, _, -, -, heq⟩ := hpass
    rw [LoopStep.next.inj heq]
    exact hbefore.trans (List.prefix_append _ _)
  · rintro ⟨entry, before⟩ r hbefore hpass
    rw [returns_importBody] at hpass
    split_ifs at hpass
    · rw [LoopStep.exit.inj hpass]
      exact hbefore
    · obtain ⟨-, _, _, -, -, heq⟩ := hpass
      exact absurd heq (by simp)

/-- **A descriptor without a lookup table** is taken for the last. -/
theorem returns_imports_of_no_ilt {enabled : Bool} {addr : U32}
    {greyAreas areas : List (U32 × U32)} (hilt : im.mem.read32 addr = 0) :
    (loop (im.importBody .hdr32 enabled) (addr, greyAreas)).Returns areas ↔ areas = greyAreas := by
  apply returns_loop_of_exit
  rw [returns_importBody, if_pos hilt]

/-- **A descriptor with both arrays** adds the two. -/
theorem returns_imports_of_both {enabled : Bool} {addr z : U32}
    {greyAreas areas : List (U32 × U32)} (hz : im.mem z = 0)
    (harrays : im.ArraysEnd entries (im.descriptorAt addr))
    (hboth : (im.descriptorAt addr).HasBoth) :
    (loop (im.importBody .hdr32 enabled) (addr, greyAreas)).Returns areas ↔
      (loop (im.importBody .hdr32 enabled) (addr + 20, greyAreas ++
        (im.arrayArea entries (im.descriptorAt addr).originalFirstThunk ++
          im.arrayArea entries (im.descriptorAt addr).firstThunk))).Returns areas := by
  obtain ⟨hilt, hiat⟩ := hboth
  obtain ⟨hilt_inside, hilt_thunks⟩ := harrays _ (by simp) hilt
  obtain ⟨hiat_inside, hiat_thunks⟩ := harrays _ (by simp) hiat
  apply returns_loop_of_next
  rw [returns_importBody, if_neg (show im.mem.read32 addr ≠ 0 from hilt), arrayArea, if_neg hilt,
    arrayArea, if_neg hiat]
  exact ⟨returns_logText hz enabled _, _, _,
    returns_thunkArray (returns_iltEntry hz .hdr32) hilt_inside hilt_thunks,
    returns_thunkArray (fun _ => returns_pure.mpr rfl) hiat_inside hiat_thunks, rfl⟩

/-- **A descriptor without an address table** adds the image's own beginning. -/
theorem address_area_of_no_iat {enabled : Bool} {addr : U32} {greyAreas areas : List (U32 × U32)}
    (hilt : im.mem.read32 addr ≠ 0) (hiat : im.mem.read32 (addr + 16) = 0)
    (h : (loop (im.importBody .hdr32 enabled) (addr, greyAreas)).Returns areas) :
    ∃ iltSize iatSize, greyAreas ++ [(im.address + im.mem.read32 addr, iltSize),
      (im.address, iatSize)] <+: areas := by
  rcases returns_loop_iff.mp h with hexit | ⟨s', hpass, hrest⟩
  · rw [returns_importBody, if_neg hilt] at hexit
    obtain ⟨-, _, _, -, -, heq⟩ := hexit
    exact absurd heq (by simp)
  · rw [returns_importBody, if_neg hilt] at hpass
    obtain ⟨-, iltSize, iatSize, -, -, heq⟩ := hpass
    rw [LoopStep.next.inj heq, hiat] at hrest
    refine ⟨iltSize, iatSize, ?_⟩
    have hgrow := imports_grow hrest
    rw [show im.address + 0 = im.address from BitVec.add_zero _] at hgrow
    exact hgrow

/-- That is none of the areas that the table says. -/
theorem not_returns_of_no_iat {enabled : Bool} {addr : U32} {greyAreas : List (U32 × U32)}
    (hilt : im.mem.read32 addr ≠ 0) (hiat : im.mem.read32 (addr + 16) = 0) :
    ¬ (loop (im.importBody .hdr32 enabled) (addr, greyAreas)).Returns
      (greyAreas ++ im.importAreas entries (im.descriptorAt addr :: ds)) := by
  intro h
  obtain ⟨iltSize, iatSize, hareas⟩ := address_area_of_no_iat hilt hiat h
  have hfirst : im.arrayArea entries (im.descriptorAt addr).originalFirstThunk =
      [(im.address + im.mem.read32 addr, .ofNat 32 (4 * entries (im.mem.read32 addr)))] :=
    if_neg hilt
  have hsecond : im.arrayArea entries (im.descriptorAt addr).firstThunk = [] := if_pos hiat
  rw [importAreas_cons, hfirst, hsecond, List.append_nil, List.prefix_append_right_inj,
    List.singleton_append, List.cons_prefix_cons] at hareas
  exact ne_address_of_mem (hareas.2.subset List.mem_cons_self) rfl

/-- **The walk over the table.** -/
theorem returns_imports_iff {enabled : Bool} {addr : U32} {greyAreas : List (U32 × U32)}
    (htable : im.DescriptorsAt addr ds) (harrays : ∀ d ∈ ds, im.ArraysEnd entries d) :
    (loop (im.importBody .hdr32 enabled) (addr, greyAreas)).Returns
      (greyAreas ++ im.importAreas entries ds) ↔ BothThenNeither ds := by
  obtain ⟨z, hz⟩ := exists_zero_of_descriptorsAt htable
  induction ds generalizing addr greyAreas with
  | nil =>
      have hlast : im.mem.read32 addr = 0 := congrArg ImportDescriptor.originalFirstThunk htable
      rw [returns_imports_of_no_ilt hlast]
      exact iff_of_true (List.append_nil _) ⟨[], [], rfl, by simp, by simp⟩
  | cons d ds ih =>
      obtain ⟨rfl, -, hrest⟩ := htable
      obtain ⟨hd, hds⟩ := List.forall_mem_cons.mp harrays
      rw [bothThenNeither_cons_iff]
      by_cases hilt : im.mem.read32 addr = 0
      · -- nothing more is collected
        have hnot : ¬ (im.descriptorAt addr).HasBoth := fun hboth => hboth.1 hilt
        rw [returns_imports_of_no_ilt hilt, List.append_right_eq_self, importAreas_eq_nil_iff]
        exact ⟨Or.inr, fun h => h.resolve_left fun hboth => hnot hboth.1⟩
      · have hsome : ¬ ∀ d' ∈ im.descriptorAt addr :: ds, d'.HasNeither := fun hnone =>
          hilt (hnone _ List.mem_cons_self).1
        by_cases hiat : im.mem.read32 (addr + 16) = 0
        · refine iff_of_false (not_returns_of_no_iat hilt hiat) ?_
          · rintro (⟨hboth, -⟩ | hnone)
            · exact hboth.2 hiat
            · exact hsome hnone
        · rw [returns_imports_of_both hz hd ⟨hilt, hiat⟩, importAreas_cons,
            ← List.append_assoc greyAreas (_ ++ _), ih hrest hds]
          exact ⟨fun h => Or.inl ⟨⟨hilt, hiat⟩, h⟩, fun h => (h.resolve_right hsome).2⟩

/-! ## The directories -/

theorem areasOf_cons (dir : U32 × U32) (dirs : List (U32 × U32)) :
    im.areasOf (dir :: dirs) = im.directoryArea dir.1 dir.2 ++ im.areasOf dirs := by
  obtain ⟨virtualAddress, size⟩ := dir
  unfold areasOf directoryArea
  by_cases hempty : virtualAddress = 0 ∧ size = 0
  · rw [if_pos hempty, hempty.1, hempty.2]
    rfl
  · have hne : (virtualAddress, size) ≠ (0, 0) := fun heq => hempty (Prod.mk.inj heq)
    rw [if_neg hempty, List.filter_cons_of_pos (by rw [decide_eq_true_eq]; exact hne)]
    rfl

/-- The rest of the loop over the directories. -/
theorem returns_directories {i : U32} {k : Nat} (hk : i.toNat + k = im.numberOfRvaAndSizes.toNat)
    (greyAreas : List (U32 × U32)) :
    (loop (im.directoryBody im.optHeader (im.optHeader + 96)) (i, greyAreas)).Returns
      (greyAreas ++ im.areasOf ((List.range' i.toNat k).map im.directory)) := by
  induction k generalizing i greyAreas with
  | zero =>
      have hlast : ¬ i < im.numberOfRvaAndSizes := by bv_omega
      have hpass : (im.directoryBody im.optHeader (im.optHeader + 96) (i, greyAreas)).Returns
          (.exit greyAreas) := returns_directoryBody.mpr (if_neg hlast).symm
      exact (returns_loop_of_exit hpass).mpr (List.append_nil _)
  | succ k ih =>
      have hlt : i < im.numberOfRvaAndSizes := by bv_omega
      have hnext : (i + 1).toNat = i.toNat + 1 := by bv_omega
      have hdir : im.directory i.toNat = (im.mem.read32 (im.optHeader + 96 + 8 * i),
          im.mem.read32 (im.optHeader + 96 + 8 * i + 4)) := by
        unfold directory
        rw [BitVec.ofNat_toNat, BitVec.setWidth_eq]
      refine (returns_loop_of_next (returns_directoryBody.mpr (if_pos hlt).symm)).mpr ?_
      rw [List.range'_succ, List.map_cons, areasOf_cons, hdir, ← List.append_assoc, ← hnext]
      exact ih (by omega) _

/-! ## The analysis -/

/-- **Where the analysis comes to the import table.** -/
theorem returns_analyzeDataDirectory (h : im.ImportsFrom ds entries) {enabled : Bool}
    {areas : List (U32 × U32)} : (im.analyzeDataDirectory enabled).Returns areas ↔
      (loop (im.importBody .hdr32 enabled)
        (im.address + im.mem.read32 (im.optHeader + 96 + 8), im.directoryAreas)).Returns areas := by
  have hdirs : im.optHeader + 96 ≠ 0 := by
    have hend := h.header.2
    have hmapped := h.mapped
    bv_omega
  have hwalk : (loop (im.directoryBody im.optHeader (im.optHeader + 96)) (0, [])).Returns
      im.directoryAreas := by
    unfold directoryAreas
    rw [List.range_eq_range']
    exact returns_directories (Nat.zero_add _) []
  simp only [analyzeDataDirectory, returns_bind, returns_look32, look16, returns_emit,
    exists_eq_left]
  rw [← optHeader, h.magic]
  show (im.analyzeTables .hdr32 enabled im.optHeader (im.optHeader + 96)).Returns areas ↔ _
  unfold analyzeTables
  rw [if_neg hdirs]
  simp only [returns_bind, returns_emit, exists_eq_left, importTable, if_pos h.inside]
  constructor
  · rintro ⟨greyAreas, hgrey, hareas⟩
    rw [← hgrey.unique hwalk]
    exact hareas
  · intro hareas
    exact ⟨_, hwalk, hareas⟩

/-- **What the analysis collects** is what the directories and the import table say, when no array
comes behind a descriptor that lacks one. -/
theorem collects_iff (h : im.ImportsFrom ds entries) (enabled : Bool) :
    (im.analyzeDataDirectory enabled).Returns (im.directoryAreas ++ im.importAreas entries ds) ↔
      BothThenNeither ds := by
  rw [returns_analyzeDataDirectory h]
  exact returns_imports_iff h.table h.arrays

section Samples

/-- A descriptor with the address table at offset `0x250`, and with the lookup table at `0x240` or
without. -/
def sampleDescriptor (hasIlt : Bool) : ImportDescriptor :=
  ⟨if hasIlt then 0x240 else 0, 0, 0, 0, 0x250⟩

/-- A page at `0x10000` with `IMAGE_NT_HEADERS32` at `0x40` and the import table at offset `0x200`:
one descriptor, and one entry in either table. -/
def importImage (hasIlt : Bool) : ImageInfo where
  address := 0x10000
  size := 0x1000
  sections := []
  mem := fun a =>
    if a = 0x1003C then 0x40
    else if a = 0x10058 then 0x0B
    else if a = 0x10059 then 0x01
    else if a = 0x100B4 then 2
    else if a = 0x100C1 then 0x02
    else if a = 0x100C4 then 40
    else if a = 0x10200 then if hasIlt then 0x40 else 0
    else if a = 0x10201 then if hasIlt then 0x02 else 0
    else if a = 0x10210 then 0x50
    else if a = 0x10211 then 0x02
    else if a = 0x10243 then 0x80
    else if a = 0x10253 then 0x80
    else 0

theorem importsFrom_importImage (hasIlt : Bool) :
    (importImage hasIlt).ImportsFrom [sampleDescriptor hasIlt] fun _ => 1 := by
  have harrays : (importImage hasIlt).ArraysEnd (fun _ => 1) (sampleDescriptor hasIlt) := by
    intro rva hrva hne
    rcases List.mem_cons.mp hrva with rfl | hrva
    · cases hasIlt with
      | false => exact absurd rfl hne
      | true => exact ⟨by decide, by decide⟩
    · rw [List.mem_singleton.mp hrva]
      cases hasIlt
      all_goals exact ⟨by decide, by decide⟩
  cases hasIlt
  all_goals exact ⟨by decide, by decide, by decide, by decide, by decide,
    List.forall_mem_singleton.mpr harrays⟩

/-- The directory and both arrays. -/
theorem collects_importImage :
    ((importImage true).analyzeDataDirectory false).Returns
      [(0x10200, 40), (0x10240, 4), (0x10250, 4)] :=
  (collects_iff (importsFrom_importImage true) false).mpr
    ⟨[sampleDescriptor true], [], rfl, by decide, by decide⟩

/-- Without the lookup table the address table of the DLL is not collected. -/
theorem loses_address_table :
    (importImage false).ImportsFrom [sampleDescriptor false] (fun _ => 1) ∧
    ¬ ((importImage false).analyzeDataDirectory false).Returns
      ((importImage false).directoryAreas ++
        (importImage false).importAreas (fun _ => 1) [sampleDescriptor false]) := by
  have himports := importsFrom_importImage false
  refine ⟨himports, fun hcollects => ?_⟩
  rw [returns_analyzeDataDirectory himports, returns_imports_of_no_ilt (by decide)] at hcollects
  exact absurd hcollects (by decide)

end Samples

end ImageInfo

end PEReplay
