/-
# PEReplay.Image.DirectoryReads — what `AnalyzeDataDirectory` looks at.

Only where the import table, a thunk array or a name begins is compared with the range of the
module, so whether the analysis stays inside is a matter of what the image contains: the headers and
the directories have to be there, at most as many of them as there are names, and every array and
every text that the import table leads to has to have its zero inside the image.  `DirectoryEnds`
says this of an image, and `looksInside_iff` that it is exactly what is needed.
-/
import PEReplay.Image.DataDirectory
import PEReplay.Image.Accesses

namespace PEReplay

open Loop Traced Program

namespace ImageInfo

/-- What may be looked at: bytes of the image, and names that there are. -/
def MayLook (im : ImageInfo) : DirAccess → Prop
  | .read addr width => im.Covers addr width
  | .name i => i.toNat < dataDirNames.length

/-! ## What the image has to contain -/

/-- The text at `addr` ends inside the image. -/
def TextEnds (im : ImageInfo) (addr : U32) : Prop :=
  Ends (· + 1) (fun a => im.mem a = 0) (fun a => im.Covers a 1) addr

/-- The text that an entry of a lookup table names, if any, ends inside the image. -/
def NameEnds (im : ImageInfo) (magic : OptMagic) (entry : BitVec 64) : Prop :=
  entry &&& magic.ordinalFlag = 0 ∧
      im.isAddrWithinModule (im.address + magic.nameRva entry) = true ∧
      im.isAddrWithinModule (im.address + magic.nameRva entry + 2) = true →
    im.TextEnds (im.address + magic.nameRva entry + 2)

/-- The thunks at `addr` end inside the image, and what each of them leads to is `inside`. -/
def ThunksEnd (im : ImageInfo) (magic : OptMagic) (inside : BitVec 64 → Prop) (addr : U32) : Prop :=
  Ends (· + .ofNat 32 magic.thunkSize) (fun a => magic.thunk im.mem a = 0)
    (fun a => im.Covers a magic.thunkSize ∧
      (magic.thunk im.mem a ≠ 0 → inside (magic.thunk im.mem a))) addr

/-- The descriptor at `entry` is inside the image, and unless it is the last, the name of its DLL,
when it is logged, and its thunk arrays, when they begin in the module, end there. -/
def DescriptorEnds (im : ImageInfo) (magic : OptMagic) (enabled : Bool) (entry : U32) : Prop :=
  im.Covers entry 4 ∧ (im.mem.read32 entry ≠ 0 →
    im.Covers (entry + 16) 4 ∧ im.Covers (entry + 12) 4 ∧
    (enabled = true → im.TextEnds (im.address + im.mem.read32 (entry + 12))) ∧
    (im.isAddrWithinModule (im.address + im.mem.read32 entry) = true →
      im.ThunksEnd magic (im.NameEnds magic) (im.address + im.mem.read32 entry)) ∧
    (im.isAddrWithinModule (im.address + im.mem.read32 (entry + 16)) = true →
      im.ThunksEnd magic (fun _ => True) (im.address + im.mem.read32 (entry + 16))))

/-- The import table at `addr` ends inside the image. -/
def ImportsEnd (im : ImageInfo) (magic : OptMagic) (enabled : Bool) (addr : U32) : Prop :=
  Ends (· + 20) (fun entry => im.mem.read32 entry = 0) (im.DescriptorEnds magic enabled) addr

/-- The directories at `dataDirs` are inside the image, and each of them has a name. -/
structure DirectoriesInside (im : ImageInfo) (dataDirs : U32) : Prop where
  count : im.Covers (im.optHeader + 92) 4
  named : im.numberOfRvaAndSizes.toNat ≤ dataDirNames.length
  directory : ∀ i < im.numberOfRvaAndSizes, im.Covers (dataDirs + 8 * i) 8
  importDirectory : im.Covers (dataDirs + 8) 8

/-- The directories at `dataDirs`, and the import table if it begins in the module, end inside the
image. -/
def TablesEnd (im : ImageInfo) (magic : OptMagic) (enabled : Bool) (dataDirs : U32) : Prop :=
  dataDirs ≠ 0 → im.DirectoriesInside dataDirs ∧
    (im.isAddrWithinModule (im.address + im.mem.read32 (dataDirs + 8)) = true →
      im.ImportsEnd magic enabled (im.address + im.mem.read32 (dataDirs + 8)))

/-- Everything that the headers lead to ends inside the image. -/
structure DirectoryEnds (im : ImageInfo) (enabled : Bool) : Prop where
  e_lfanew : im.Covers (im.address + 0x3C) 4
  magic : im.Covers im.optHeader 2
  tables : ∀ magic, OptMagic.ofWord (im.mem.read16 im.optHeader) = some magic →
    im.TablesEnd magic enabled (im.optHeader + magic.dataDirectory)

/-! ## Where a walk can go -/

variable {im : ImageInfo} {a : U32} {w : Nat}

/-- How many bytes of the image lie behind `a`. -/
def room (im : ImageInfo) (a : U32) : Nat := im.address.toNat + im.size.toNat - a.toNat

/-- Twenty by twenty, the last four bytes of the address space are reached from everywhere. -/
theorem exists_at_top (a : U32) : ∃ n : Nat, 2 ^ 32 - 4 ≤ (a + 20 * BitVec.ofNat 32 n).toNat := by
  -- four by four they are, and steps of four are multiples of steps of twenty
  obtain ⟨m, hm⟩ : ∃ m : U32, 2 ^ 32 - 4 ≤ (a + 4 * m).toNat := by
    refine ⟨BitVec.ofNat 32 ((2 ^ 32 - 1 - a.toNat) / 4), ?_⟩
    have hlt := a.isLt
    rw [BitVec.toNat_add, BitVec.toNat_mul, BitVec.toNat_ofNat,
      Nat.mod_eq_of_lt (a := (2 ^ 32 - 1 - a.toNat) / 4) (by omega)]
    show 2 ^ 32 - 4 ≤ (a.toNat + 4 * ((2 ^ 32 - 1 - a.toNat) / 4) % 2 ^ 32) % 2 ^ 32
    omega
  refine ⟨(m * 0xCCCCCCCD).toNat, ?_⟩
  have hinv : (20 : U32) * (m * 0xCCCCCCCD) = 4 * m := by
    rw [← BitVec.mul_assoc, BitVec.mul_comm 20 m, BitVec.mul_assoc,
      show (20 : U32) * 0xCCCCCCCD = 4 from rfl, BitVec.mul_comm]
  rw [BitVec.ofNat_toNat, BitVec.setWidth_eq, hinv]
  exact hm

/-- In how many steps of twenty. -/
def stepsToTop (a : U32) : Nat := Nat.find (exists_at_top a)

/-- A walk in steps of twenty may pass the end of the address space, but not for ever. -/
theorem stepsToTop_add {a : U32} (ha : a.toNat + 4 < 2 ^ 32) :
    stepsToTop (a + 20) < stepsToTop a := by
  have htop := Nat.find_spec (exists_at_top a)
  obtain ⟨n, hn⟩ : ∃ n, stepsToTop a = n + 1 := by
    refine Nat.exists_eq_succ_of_ne_zero fun hzero => ?_
    rw [show Nat.find (exists_at_top a) = 0 from hzero, BitVec.ofNat_eq_ofNat, BitVec.mul_zero,
      BitVec.add_zero] at htop
    omega
  rw [hn]
  apply Nat.lt_succ_of_le
  apply Nat.find_min'
  rw [show Nat.find (exists_at_top a) = n + 1 from hn] at htop
  have hnext : a + 20 + 20 * BitVec.ofNat 32 n = a + 20 * BitVec.ofNat 32 (n + 1) := by
    rw [BitVec.ofNat_add, BitVec.mul_add, BitVec.add_comm (20 * _), ← BitVec.add_assoc]
    rfl
  rw [hnext]
  exact htop

/-- Counting up to `n`. -/
theorem ends_count_iff {ok : U32 → Prop} {n i : U32} (hi : i ≤ n) :
    Ends (· + 1) (fun i => ¬ i < n) ok i ↔ ∀ j, i ≤ j → j ≤ n → ok j := by
  constructor
  · intro hends
    induction hends with
    | here hhalt hok =>
        intro j hij hjn
        rw [BitVec.le_antisymm (by bv_omega) hij]
        exact hok
    | step hgo hok _ ih =>
        rename_i i _
        intro j hij hjn
        by_cases hji : j = i
        · rw [hji]
          exact hok
        · exact ih (by bv_omega) j (by bv_omega) hjn
  · -- on how far it is to `n`
    generalize hk : n.toNat - i.toNat = k
    induction k generalizing i with
    | zero =>
        intro hall
        exact .here (by bv_omega) (hall i (BitVec.le_refl i) hi)
    | succ k ih =>
        intro hall
        have hlt : i < n := by bv_omega
        refine .step (fun hn => hn hlt) (hall i (BitVec.le_refl i) hi) ?_
        refine ih (by bv_omega) (by bv_omega) fun j hij hjn => hall j ?_ hjn
        bv_omega

/-- What a pass over the directories needs. -/
def DirectoryInside (im : ImageInfo) (dataDirs i : U32) : Prop :=
  im.Covers (im.optHeader + 92) 4 ∧ (i < im.numberOfRvaAndSizes →
    im.Covers (dataDirs + 8 * i) 8 ∧ i.toNat < dataDirNames.length)

/-- All passes over the directories. -/
theorem ends_directories_iff (im : ImageInfo) (dataDirs : U32) :
    Ends (· + 1) (fun i => ¬ i < im.numberOfRvaAndSizes) (im.DirectoryInside dataDirs) 0 ∧
      im.Covers (dataDirs + 8) 8 ↔ im.DirectoriesInside dataDirs := by
  have hfirst : ∀ i : U32, 0 ≤ i := fun i => by bv_omega
  rw [ends_count_iff (hfirst _)]
  constructor
  · rintro ⟨hall, himport⟩
    have hcount := (hall _ (hfirst _) (BitVec.le_refl _)).1
    have hdir : ∀ i < im.numberOfRvaAndSizes, im.Covers (dataDirs + 8 * i) 8 ∧
        i.toNat < dataDirNames.length := fun i hi =>
      (hall i (hfirst _) (BitVec.le_of_lt hi)).2 hi
    refine ⟨hcount, ?_, fun i hi => (hdir i hi).1, himport⟩
    -- the last index
    by_cases hzero : im.numberOfRvaAndSizes = 0
    · rw [hzero]
      exact Nat.zero_le _
    · have hlast := (hdir (im.numberOfRvaAndSizes - 1) (by bv_omega)).2
      bv_omega
  · intro h
    refine ⟨fun i _ _ => ⟨h.count, fun hi => ⟨h.directory i hi, ?_⟩⟩, h.importDirectory⟩
    exact lt_of_lt_of_le hi h.named

section Mapped

variable (hmapped : im.address.toNat + im.size.toNat < 2 ^ 32)

include hmapped

/-- Behind a field inside the image there is less room. -/
theorem room_add (hw : 0 < w) (ha : im.Covers a w) :
    im.room (a + .ofNat 32 w) < im.room a := by
  obtain ⟨-, hend⟩ := ha
  have hnext : (a + BitVec.ofNat 32 w).toNat = a.toNat + w := by
    rw [BitVec.toNat_add, BitVec.toNat_ofNat, Nat.mod_eq_of_lt (a := w) (by omega)]
    exact Nat.mod_eq_of_lt (by omega)
  unfold room
  omega

/-- Two fields next to each other. -/
theorem covers_eight : im.Covers a 4 ∧ im.Covers (a + 4) 4 ↔ im.Covers a 8 := by
  unfold Covers
  constructor
  · rintro ⟨⟨hle, hend⟩, -, hend'⟩
    have hnext : (a + 4).toNat = a.toNat + 4 := by bv_omega
    exact ⟨hle, by omega⟩
  · rintro ⟨hle, hend⟩
    have hnext : (a + 4).toNat = a.toNat + 4 := by bv_omega
    exact ⟨⟨hle, by omega⟩, by omega, by omega⟩

/-! ## Texts and thunks -/

theorem walks_text :
    Walks im.MayLook im.textBody id (· + 1) (fun a => im.mem a = 0) (fun a => im.Covers a 1)
      im.room where
  pass _ := SafeWhen.emit.bind_pure
  leaves a a' hzero := by
    rw [returns_textBody, if_pos (show im.mem a = 0 from hzero)]
    exact fun h => absurd h (by simp)
  goes a x hchar hx := by
    rw [returns_textBody, if_neg (show ¬ im.mem a = 0 from hchar)] at hx
    exact ⟨a + 1, hx, rfl⟩
  nearer a ha _ := room_add hmapped Nat.one_pos ha

theorem safeWhen_readText (a : U32) : SafeWhen im.MayLook (im.readText a) (im.TextEnds a) :=
  (walks_text hmapped).safeWhen a

theorem safeWhen_logText (enabled : Bool) (a : U32) :
    SafeWhen im.MayLook (im.logText enabled a) (enabled = true → im.TextEnds a) :=
  .ite_pure (safeWhen_readText hmapped a)

theorem safeWhen_iltEntry (magic : OptMagic) (entry : BitVec 64) :
    SafeWhen im.MayLook (im.iltEntry magic entry) (im.NameEnds magic entry) :=
  .ite_pure (safeWhen_readText hmapped _)

/-- **A thunk array**, whatever is done with an entry. -/
theorem walks_thunks (magic : OptMagic) {visit : BitVec 64 → Program DirAccess Unit}
    {inside : BitVec 64 → Prop}
    (hvisit : ∀ entry, SafeWhen im.MayLook (visit entry) (inside entry)) :
    Walks im.MayLook (im.thunkBody magic visit) Prod.fst (· + .ofNat 32 magic.thunkSize)
      (fun a => magic.thunk im.mem a = 0)
      (fun a => im.Covers a magic.thunkSize ∧
        (magic.thunk im.mem a ≠ 0 → inside (magic.thunk im.mem a))) im.room where
  pass := by
    rintro ⟨a, size⟩
    apply SafeWhen.emit_bind
    apply SafeWhen.pure_ite
    exact (hvisit _).bind_pure
  leaves := by
    rintro ⟨a, size⟩ s' hzero
    rw [returns_thunkBody, if_pos hzero]
    exact fun h => absurd h (by simp)
  goes := by
    rintro ⟨a, size⟩ x hentry hx
    rw [returns_thunkBody, if_neg hentry] at hx
    exact ⟨_, hx.2, rfl⟩
  nearer a ha _ := room_add hmapped (by cases magic <;> decide) ha.1

theorem safeWhen_thunkArray (magic : OptMagic) {visit : BitVec 64 → Program DirAccess Unit}
    {inside : BitVec 64 → Prop}
    (hvisit : ∀ entry, SafeWhen im.MayLook (visit entry) (inside entry)) (a : U32) :
    SafeWhen im.MayLook (im.thunkArray magic visit a)
      (im.isAddrWithinModule a = true → im.ThunksEnd magic inside a) :=
  .ite_pure ((walks_thunks hmapped magic hvisit).safeWhen (a, 0))

/-! ## The import table -/

/-- One descriptor: its first field is read as the terminator, and again as a thunk array. -/
theorem safeWhen_importBody (magic : OptMagic) (enabled : Bool) (entry : U32)
    (greyAreas : List (U32 × U32)) :
    SafeWhen im.MayLook (im.importBody magic enabled (entry, greyAreas))
      (im.DescriptorEnds magic enabled entry) := by
  have hilt := safeWhen_thunkArray hmapped magic (safeWhen_iltEntry hmapped magic)
  have hvisit : ∀ entry, SafeWhen im.MayLook (iatEntry entry) True := fun _ => SafeWhen.pure
  have hiat := safeWhen_thunkArray hmapped magic hvisit
  apply SafeWhen.of_iff
  · apply SafeWhen.emit_bind
    apply SafeWhen.pure_ite
    apply SafeWhen.emit_bind
    apply SafeWhen.emit_bind
    apply SafeWhen.emit_bind
    apply (safeWhen_logText hmapped enabled _).bind
    intro _ _
    apply (hilt _).bind
    intro _ _
    exact (hiat _).bind_pure
  · unfold DescriptorEnds
    constructor
    · rintro ⟨hentry, hrest⟩
      exact ⟨hentry, fun hgo => (hrest hgo).2⟩
    · rintro ⟨hentry, hrest⟩
      exact ⟨hentry, fun hgo => ⟨hentry, hrest hgo⟩⟩

theorem walks_imports (magic : OptMagic) (enabled : Bool) :
    Walks im.MayLook (im.importBody magic enabled) Prod.fst (· + 20)
      (fun entry => im.mem.read32 entry = 0) (im.DescriptorEnds magic enabled) stepsToTop
      where
  pass s := safeWhen_importBody hmapped magic enabled s.1 s.2
  leaves := by
    rintro ⟨entry, greyAreas⟩ s' hlast
    rw [returns_importBody, if_pos hlast]
    exact fun h => absurd h (by simp)
  goes := by
    rintro ⟨entry, greyAreas⟩ x hgo hx
    rw [returns_importBody, if_neg hgo] at hx
    obtain ⟨-, _, _, -, -, hnext⟩ := hx
    exact ⟨_, hnext, rfl⟩
  nearer entry hends _ := by
    have hend : entry.toNat + 4 ≤ im.address.toNat + im.size.toNat := hends.1.2
    exact stepsToTop_add (by omega)

theorem safeWhen_importTable (magic : OptMagic) (enabled : Bool) (addr : U32)
    (greyAreas : List (U32 × U32)) :
    SafeWhen im.MayLook (im.importTable magic enabled addr greyAreas)
      (im.isAddrWithinModule addr = true → im.ImportsEnd magic enabled addr) :=
  .ite_pure ((walks_imports hmapped magic enabled).safeWhen (addr, greyAreas))

/-! ## The directories -/

theorem walks_directories (dataDirs : U32) :
    Walks im.MayLook (im.directoryBody im.optHeader dataDirs) Prod.fst (· + 1)
      (fun i => ¬ i < im.numberOfRvaAndSizes) (im.DirectoryInside dataDirs)
      (fun i => im.numberOfRvaAndSizes.toNat - i.toNat) where
  pass := by
    rintro ⟨i, greyAreas⟩
    apply SafeWhen.of_iff
    · apply SafeWhen.emit_bind
      apply SafeWhen.ite_pure
      apply SafeWhen.emit_bind
      apply SafeWhen.emit_bind
      exact SafeWhen.emit_bind SafeWhen.pure
    · unfold DirectoryInside
      rw [← covers_eight hmapped]
      simp only [MayLook, and_true, and_assoc]
      rfl
  leaves := by
    rintro ⟨i, greyAreas⟩ s' hlast
    rw [returns_directoryBody, ← numberOfRvaAndSizes,
      if_neg (show ¬ i < im.numberOfRvaAndSizes from hlast)]
    exact fun h => absurd h (by simp)
  goes := by
    rintro ⟨i, greyAreas⟩ x hgo hx
    rw [returns_directoryBody, ← numberOfRvaAndSizes,
      if_pos (show i < im.numberOfRvaAndSizes from not_not.mp hgo)] at hx
    exact ⟨_, hx, rfl⟩
  nearer i _ hgo := by
    have hlt := not_not.mp hgo
    bv_omega

/-! ## The analysis -/

theorem safeWhen_analyzeTables (magic : OptMagic) (enabled : Bool) (dataDirs : U32) :
    SafeWhen im.MayLook (im.analyzeTables magic enabled im.optHeader dataDirs)
      (im.TablesEnd magic enabled dataDirs) := by
  apply SafeWhen.of_iff
  · apply SafeWhen.pure_ite
    apply ((walks_directories hmapped dataDirs).safeWhen (0, [])).bind
    intro greyAreas _
    apply SafeWhen.emit_bind
    exact safeWhen_importTable hmapped magic enabled _ greyAreas
  · unfold TablesEnd
    rw [← ends_directories_iff, and_assoc]
    rfl

/-- **The analysis stays inside** exactly when everything ends that it walks along, and then it
comes to a result. -/
theorem safeWhen_analyzeDataDirectory (enabled : Bool) :
    SafeWhen im.MayLook (im.analyzeDataDirectory enabled) (im.DirectoryEnds enabled) := by
  apply SafeWhen.of_iff
  · apply SafeWhen.emit_bind
    apply SafeWhen.emit_bind (d := ∀ magic,
      OptMagic.ofWord (im.mem.read16 im.optHeader) = some magic →
        im.TablesEnd magic enabled (im.optHeader + magic.dataDirectory))
    rw [← optHeader]
    cases OptMagic.ofWord (im.mem.read16 im.optHeader) with
    | none => exact SafeWhen.pure.of_iff (iff_of_true trivial fun magic h => absurd h (by simp))
    | some magic =>
        refine (safeWhen_analyzeTables hmapped magic enabled _).of_iff ⟨?_, fun h => h magic rfl⟩
        intro hends magic' heq
        rw [← Option.some.inj heq]
        exact hends
  · constructor
    · rintro ⟨he_lfanew, hmagic, htables⟩
      exact ⟨he_lfanew, hmagic, htables⟩
    · intro h
      exact ⟨h.e_lfanew, h.magic, h.tables⟩

end Mapped

/-- **When the analysis stays inside** the image and the table of names. -/
theorem looksInside_iff (hmapped : im.address.toNat + im.size.toNat < 2 ^ 32) (enabled : Bool) :
    Safe im.MayLook (im.analyzeDataDirectory enabled) ↔ im.DirectoryEnds enabled :=
  (safeWhen_analyzeDataDirectory hmapped enabled).safe_iff

section Samples

/-- A page at `0x10000` with `IMAGE_NT_HEADERS32` at `0x40`, so many directories, and nothing in any
of them. -/
def headerImage (numberOfRvaAndSizes : U8) : ImageInfo where
  address := 0x10000
  size := 0x1000
  sections := []
  mem := fun a =>
    if a = 0x1003C then 0x40
    else if a = 0x10058 then 0x0B
    else if a = 0x10059 then 0x01
    else if a = 0x100B4 then numberOfRvaAndSizes
    else 0

/-- The sixteen directories that Windows knows. -/
theorem looksInside_header :
    Safe (headerImage 16).MayLook ((headerImage 16).analyzeDataDirectory true) := by
  refine (looksInside_iff (by decide) true).mpr ⟨by decide, by decide, ?_⟩
  intro magic hmagic _
  obtain rfl : OptMagic.hdr32 = magic := Option.some.inj hmagic
  refine ⟨⟨by decide, by decide, fun i hi => ?_, by decide⟩, fun _ => ?_⟩
  · have hi : i < 16 := hi
    show 0x10000 ≤ (0x100B8 + 8 * i : U32).toNat ∧ (0x100B8 + 8 * i : U32).toNat + 8 ≤ 0x11000
    bv_omega
  · -- the directory of the import table is empty, so the image itself is taken for the table
    exact .here (by decide) ⟨by decide, fun hgo => absurd (by decide) hgo⟩

/-- Twenty directories: the last of them has no name. -/
theorem directory_without_name :
    (headerImage 20).address.toNat + (headerImage 20).size.toNat < 2 ^ 32 ∧
    ¬ Safe (headerImage 20).MayLook ((headerImage 20).analyzeDataDirectory false) := by
  refine ⟨by decide, fun hsafe => ?_⟩
  have hends := (safeWhen_analyzeDataDirectory (by decide) false).safe_iff.mp hsafe
  have htables := hends.tables .hdr32 rfl (by decide)
  exact absurd htables.1.named (by decide)

end Samples

end ImageInfo

end PEReplay
