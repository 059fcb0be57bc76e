/-
# PEReplay.Image.Modules — the loaded images, and what the tool answers about an address.

Pin reports every image that is loaded; the tool makes an `ImageInfo` object of it and asks the
objects whether an address is code, and whether control may flow there.  The constructor returns
before its loop over the sections, so no object ever knows a section, and both answers are always
no.  `answers_iff` says when that is right.  `answers_of_recorded` says what the loop behind the
`return` would give: the queries themselves, and the constructor of `ImageSection`, are as they
should be.
-/
import PEReplay.Image.RelocTargets
import Mathlib.Logic.Function.Basic

namespace PEReplay

open Loop

/-! ## What Pin tells about an image -/

/-- An `RTN`. -/
structure Rtn where
  address : U32
  size : U32
  name : List Char

/-- A `SEC` with the fields that `ImageSection` reads. -/
structure PinSection extends Sec where
  executable : Bool
  routines : List Rtn

/-- An `IMG`, with the memory it is mapped in. -/
structure PinImage where
  address : U32
  size : U32
  mainExecutable : Bool
  sections : List PinSection
  mem : Memory

/-- What relocation analysis reads of an image. -/
def PinImage.info (img : PinImage) : ImageInfo where
  address := img.address
  size := img.size
  sections := img.sections.map PinSection.toSec
  mem := img.mem

/-! ## `ImageSection` -/

/-- The fields of `ImageSection` that its queries read; `addrRtns` is `m_addr_rtns`, name and end of
the routine that starts at an address. -/
structure ImageSection where
  address : U32
  size : U32
  executable : Bool
  addrRtns : U32 → Option (List Char × U32)

namespace ImageSection

/-- `boost::iequals(m_name, ".text")` -/
def isTextName (name : List Char) : Bool :=
  name.map Char.toUpper == ['.', 'T', 'E', 'X', 'T']

/-- `m_addr_rtns[RTN_Address(rtn)] = std::make_pair(RTN_Name(rtn), …)` -/
def insertRtn (rtns : U32 → Option (List Char × U32)) (rtn : Rtn) :
    U32 → Option (List Char × U32) :=
  Function.update rtns rtn.address (some (rtn.name, rtn.address + rtn.size))

/-- `ImageSection::ImageSection` -/
def construct (sec : PinSection) : ImageSection where
  address := sec.address
  size := sec.size
  executable := sec.executable
  addrRtns :=
    if isTextName sec.name then sec.routines.foldl insertRtn fun _ => none else fun _ => none

/-- `ImageSection::Contains` -/
def contains (s : ImageSection) (addr : U32) : Bool :=
  s.address ≤ addr && s.address + s.size > addr

/-- `ImageSection::HasRtn` -/
def hasRtn (s : ImageSection) (addr : U32) : Bool := (s.addrRtns addr).isSome

end ImageSection

/-! ## `ImageInfo` -/

/-- The fields of an `ImageInfo` object that the two queries read. -/
structure LoadedImage where
  relocTargets : Finset U32
  sections : List ImageSection

namespace LoadedImage

/-- `ImageInfo::IsAddrCode_Imp` -/
def isAddrCodeImp (o : LoadedImage) (addr : U32) : Bool :=
  o.sections.any fun s => s.executable && s.contains addr

/-- `ImageInfo::HasRtn` -/
def hasRtn (o : LoadedImage) (addr : U32) : Bool := o.sections.any fun s => s.hasRtn addr

/-- `ImageInfo::verifyControlFlowTraget_Imp`; what it does for the main executable is commented
out. -/
def verifyControlFlowTargetImp (o : LoadedImage) (addr : U32) : Bool :=
  if o.isAddrCodeImp addr then
    if addr ∈ o.relocTargets then true
    else if o.hasRtn addr then true
    else false
  else false

end LoadedImage

/-- `s_images`, `s_main_module_start` and `s_main_module_size`. -/
structure Images where
  images : List LoadedImage
  mainModuleStart : U32
  mainModuleSize : U32

namespace Images

/-- The static members before any image is loaded. -/
def empty : Images := ⟨[], 0, 0⟩

/-- `ImageInfo::ImageInfo`, with at most `n` passes of each loop of the relocation analysis.  It
returns before it has looked at the sections. -/
def construct (n : Nat) (img : PinImage) (st : Images) :
    Option (Except InsecureDereference (LoadedImage × Images)) :=
  let st :=
    if img.mainExecutable then
      { st with mainModuleStart := img.address, mainModuleSize := img.size }
    else st
  match img.info.analyzeRelocationEntry n with
  | none => none
  | some (.error e) => some (.error e)
  | some (.ok s) => some (.ok (⟨s.targets, []⟩, st))

/-- `ImageInfo::AppendImage` -/
def appendImage (n : Nat) (img : PinImage) (st : Images) :
    Option (Except InsecureDereference Images) :=
  match construct n img st with
  | none => none
  | some (.error e) => some (.error e)
  | some (.ok (o, st)) => some (.ok { st with images := st.images ++ [o] })

/-- `ImageInfo::IsAddrCode` -/
def isAddrCode (st : Images) (addr : U32) : Bool :=
  st.images.any fun o => o.isAddrCodeImp addr

/-- `ImageInfo::verifyControlFlowTarget` -/
def verifyControlFlowTarget (st : Images) (addr : U32) : Bool :=
  st.images.any fun o => o.verifyControlFlowTargetImp addr

/-- The static members after the images were appended, in this order, none of them throwing. -/
inductive Loaded : List PinImage → Images → Prop where
  | nil : Loaded [] empty
  | append {imgs : List PinImage} {st st' : Images} {img : PinImage} : Loaded imgs st →
      Computes (fun n => appendImage n img st) (.ok st') → Loaded (imgs ++ [img]) st'

end Images

/-! ## What the answers should be -/

/-- The section contains the address. -/
def PinSection.Contains (sec : PinSection) (t : U32) : Prop :=
  sec.address.toNat ≤ t.toNat ∧ t.toNat < sec.address.toNat + sec.size.toNat

namespace PinImage

/-- An executable section of the image contains the address. -/
def HasCodeAt (img : PinImage) (t : U32) : Prop :=
  ∃ sec ∈ img.sections, sec.executable = true ∧ sec.Contains t

/-- Relocation analysis finds the address in the image. -/
def IsRelocTarget (img : PinImage) (t : U32) : Prop :=
  ∃ s, Computes img.info.analyzeRelocationEntry (.ok s) ∧ t ∈ s.targets

/-- A routine of the image's `.text` sections starts at the address. -/
def IsRoutineStart (img : PinImage) (t : U32) : Prop :=
  ∃ sec ∈ img.sections, ImageSection.isTextName sec.name = true ∧
    ∃ rtn ∈ sec.routines, rtn.address = t

end PinImage

/-- The two answers about `t` are right for the images `imgs`. -/
def AnswersRight (imgs : List PinImage) (st : Images) (t : U32) : Prop :=
  (st.isAddrCode t = true ↔ ∃ img ∈ imgs, img.HasCodeAt t) ∧
  (st.verifyControlFlowTarget t = true ↔
    ∃ img ∈ imgs, img.HasCodeAt t ∧ (img.IsRelocTarget t ∨ img.IsRoutineStart t))

/-! ## The queries -/

theorem LoadedImage.isAddrCodeImp_iff {o : LoadedImage} {t : U32} : o.isAddrCodeImp t = true ↔
    ∃ s ∈ o.sections, s.executable = true ∧ s.contains t = true := by
  simp only [isAddrCodeImp, List.any_eq_true, Bool.and_eq_true]

theorem LoadedImage.verifyControlFlowTargetImp_iff {o : LoadedImage} {t : U32} :
    o.verifyControlFlowTargetImp t = true ↔ o.isAddrCodeImp t = true ∧
      (t ∈ o.relocTargets ∨ ∃ s ∈ o.sections, s.hasRtn t = true) := by
  unfold verifyControlFlowTargetImp hasRtn
  by_cases hcode : o.isAddrCodeImp t = true
  · by_cases htarget : t ∈ o.relocTargets
    · simp [hcode, htarget]
    · simp [hcode, htarget]
  · simp [hcode]

theorem Images.isAddrCode_iff {st : Images} {t : U32} :
    st.isAddrCode t = true ↔ ∃ o ∈ st.images, o.isAddrCodeImp t = true :=
  List.any_eq_true

theorem Images.verifyControlFlowTarget_iff {st : Images} {t : U32} :
    st.verifyControlFlowTarget t = true ↔
      ∃ o ∈ st.images, o.verifyControlFlowTargetImp t = true :=
  List.any_eq_true

/-! ## What the constructor records -/

/-- **One load.** The new object has the targets that relocation analysis finds, and no section. -/
theorem Images.appendImage_ok {img : PinImage} {st st' : Images}
    (h : Computes (fun n => appendImage n img st) (.ok st')) :
    ∃ s, Computes img.info.analyzeRelocationEntry (.ok s) ∧
      st'.images = st.images ++ [⟨s.targets, []⟩] := by
  obtain ⟨N, hN⟩ := h
  have hN := hN N le_rfl
  simp only [appendImage, construct] at hN
  cases hanalyze : img.info.analyzeRelocationEntry N with
  | none =>
      simp only [hanalyze] at hN
      exact absurd hN (by simp)
  | some r =>
      simp only [hanalyze] at hN
      cases r with
      | error e => exact absurd hN (by simp)
      | ok s =>
          refine ⟨s, img.info.analyzeRelocationEntry_fuelMono.computes hanalyze, ?_⟩
          obtain rfl := Except.ok.inj (Option.some.inj hN)
          by_cases hmain : img.mainExecutable = true
          · simp only [if_pos hmain]
          · simp only [if_neg hmain]

/-- The object has the image's relocation targets, and no section. -/
def PinImage.Analysed (img : PinImage) (o : LoadedImage) : Prop :=
  ∃ s, Computes img.info.analyzeRelocationEntry (.ok s) ∧ o = ⟨s.targets, []⟩

/-- **Any sequence of loads** records the images in order, without their sections. -/
theorem Images.Loaded.analysed {imgs : List PinImage} {st : Images} (h : Loaded imgs st) :
    List.Forall₂ PinImage.Analysed imgs st.images := by
  induction h with
  | nil => exact .nil
  | append _ hstep ih =>
      obtain ⟨s, hcomputes, himages⟩ := appendImage_ok hstep
      rw [himages]
      exact List.rel_append ih (.cons ⟨s, hcomputes, rfl⟩ .nil)

theorem Images.Loaded.sections_nil {imgs : List PinImage} {st : Images} (h : Loaded imgs st) :
    ∀ o ∈ st.images, o.sections = [] := by
  have hanalysed := h.analysed
  generalize st.images = os at hanalysed ⊢
  clear h
  induction hanalysed with
  | nil => exact fun o ho => absurd ho List.not_mem_nil
  | cons hone _ ih =>
      obtain ⟨s, -, rfl⟩ := hone
      intro o ho
      rcases List.mem_cons.mp ho with rfl | ho
      · rfl
      · exact ih o ho

/-- Without sections every answer is no. -/
theorem Images.answers_of_sections_nil {st : Images} (h : ∀ o ∈ st.images, o.sections = [])
    (t : U32) : st.isAddrCode t = false ∧ st.verifyControlFlowTarget t = false := by
  have hcode : ∀ o ∈ st.images, ¬ o.isAddrCodeImp t = true := by
    intro o ho hcode
    obtain ⟨s, hs, -⟩ := LoadedImage.isAddrCodeImp_iff.mp hcode
    rw [h o ho] at hs
    exact absurd hs List.not_mem_nil
  constructor
  · refine Bool.eq_false_iff.mpr fun htrue => ?_
    obtain ⟨o, ho, hyes⟩ := isAddrCode_iff.mp htrue
    exact hcode o ho hyes
  · refine Bool.eq_false_iff.mpr fun htrue => ?_
    obtain ⟨o, ho, hyes⟩ := verifyControlFlowTarget_iff.mp htrue
    exact hcode o ho (LoadedImage.verifyControlFlowTargetImp_iff.mp hyes).1

theorem Images.Loaded.answers {imgs : List PinImage} {st : Images} (h : Loaded imgs st) (t : U32) :
    st.isAddrCode t = false ∧ st.verifyControlFlowTarget t = false :=
  answers_of_sections_nil h.sections_nil t

/-- **When the answers are right.** After any sequence of loads, the two answers about an address
are right exactly when no loaded image has an executable section that contains it. -/
theorem answers_iff (imgs : List PinImage) (st : Images) (h : Images.Loaded imgs st) (t : U32) :
    AnswersRight imgs st t ↔ ∀ img ∈ imgs, ¬ img.HasCodeAt t := by
  obtain ⟨hcode, hflow⟩ := h.answers t
  unfold AnswersRight
  rw [hcode, hflow]
  constructor
  · rintro ⟨hiff, -⟩ img himg hhas
    exact absurd (hiff.mpr ⟨img, himg, hhas⟩) (by simp)
  · intro hnone
    refine ⟨⟨fun hfalse => absurd hfalse (by simp), ?_⟩,
      ⟨fun hfalse => absurd hfalse (by simp), ?_⟩⟩
    · rintro ⟨img, himg, hhas⟩
      exact absurd hhas (hnone img himg)
    · rintro ⟨img, himg, hhas, -⟩
      exact absurd hhas (hnone img himg)

/-! ## The loop behind the `return` -/

/-- `m_sections.push_back(new ImageSection(sec))`, for every section. -/
def LoadedImage.pushSections (o : LoadedImage) (secs : List PinSection) : LoadedImage :=
  { o with sections := o.sections ++ secs.map ImageSection.construct }

/-- The static members, had every constructor run its loop. -/
def Images.recorded (st : Images) (imgs : List PinImage) : Images :=
  { st with images := List.zipWith (fun o img => o.pushSections img.sections) st.images imgs }

/-- No section wraps round the address space. -/
def PinImage.SectionsFit (img : PinImage) : Prop :=
  ∀ sec ∈ img.sections, sec.address.toNat + sec.size.toNat < 2 ^ 32

theorem ImageSection.contains_iff {sec : PinSection} {t : U32}
    (hfit : sec.address.toNat + sec.size.toNat < 2 ^ 32) :
    (construct sec).contains t = true ↔ sec.Contains t := by
  have hend : (sec.address + sec.size).toNat = sec.address.toNat + sec.size.toNat := by bv_omega
  unfold contains
  rw [Bool.and_eq_true, decide_eq_true_eq, decide_eq_true_eq, gt_iff_lt, BitVec.lt_def,
    BitVec.le_def, PinSection.Contains, ← hend]
  exact Iff.rfl

theorem ImageSection.foldl_insertRtn_isSome (rtns : List Rtn)
    (known : U32 → Option (List Char × U32)) (t : U32) :
    (rtns.foldl insertRtn known t).isSome = true ↔
      (known t).isSome = true ∨ ∃ rtn ∈ rtns, rtn.address = t := by
  induction rtns generalizing known with
  | nil => simp
  | cons rtn rtns ih =>
      rw [List.foldl_cons, ih]
      by_cases heq : t = rtn.address
      · subst heq
        simp [insertRtn]
      · have hne : ¬ rtn.address = t := fun h => heq h.symm
        simp [insertRtn, Function.update_of_ne heq, hne]

theorem ImageSection.hasRtn_iff {sec : PinSection} {t : U32} :
    (construct sec).hasRtn t = true ↔
      isTextName sec.name = true ∧ ∃ rtn ∈ sec.routines, rtn.address = t := by
  have hrtns : (construct sec).addrRtns =
      if isTextName sec.name then sec.routines.foldl insertRtn fun _ => none else fun _ => none :=
    rfl
  by_cases htext : isTextName sec.name = true
  · rw [hasRtn, hrtns, if_pos htext, foldl_insertRtn_isSome]
    simp [htext]
  · rw [hasRtn, hrtns, if_neg htext]
    simp [htext]

/-- **One image**: an object with its sections recorded answers as it should. -/
theorem PinImage.Analysed.answers {img : PinImage} {o : LoadedImage} (h : img.Analysed o)
    (hfit : img.SectionsFit) (t : U32) :
    ((o.pushSections img.sections).isAddrCodeImp t = true ↔ img.HasCodeAt t) ∧
    ((o.pushSections img.sections).verifyControlFlowTargetImp t = true ↔
      img.HasCodeAt t ∧ (img.IsRelocTarget t ∨ img.IsRoutineStart t)) := by
  obtain ⟨s, hs, rfl⟩ := h
  have hcode : (LoadedImage.pushSections ⟨s.targets, []⟩ img.sections).isAddrCodeImp t = true ↔
      img.HasCodeAt t := by
    rw [LoadedImage.isAddrCodeImp_iff]
    simp only [LoadedImage.pushSections, List.nil_append, List.mem_map, exists_exists_and_eq_and,
      HasCodeAt]
    refine exists_congr fun sec => and_congr_right fun hsec => and_congr_right fun _ => ?_
    exact ImageSection.contains_iff (hfit sec hsec)
  refine ⟨hcode, ?_⟩
  rw [LoadedImage.verifyControlFlowTargetImp_iff, hcode]
  refine and_congr_right fun _ => or_congr ?_ ?_
  · constructor
    · intro ht
      exact ⟨s, hs, ht⟩
    · rintro ⟨s', hs', ht⟩
      obtain rfl := Except.ok.inj (hs.unique hs')
      exact ht
  · simp only [LoadedImage.pushSections, List.nil_append, List.mem_map, exists_exists_and_eq_and,
      ImageSection.hasRtn_iff, IsRoutineStart]

/-- **The queries are right** once the sections are recorded, for every sequence of loads. -/
theorem answers_of_recorded {imgs : List PinImage} {st : Images} (h : Images.Loaded imgs st)
    (hfit : ∀ img ∈ imgs, img.SectionsFit) (t : U32) :
    AnswersRight imgs (st.recorded imgs) t := by
  have hall : ∀ {imgs : List PinImage} {os : List LoadedImage},
      List.Forall₂ PinImage.Analysed imgs os → (∀ img ∈ imgs, img.SectionsFit) →
      ∀ P : LoadedImage → Prop, ∀ Q : PinImage → Prop,
      (∀ img o, img.Analysed o → img.SectionsFit → (P (o.pushSections img.sections) ↔ Q img)) →
      ((∃ o ∈ List.zipWith (fun o img => o.pushSections img.sections) os imgs, P o) ↔
        ∃ img ∈ imgs, Q img) := by
    intro imgs os hrel hfit P Q hPQ
    induction hrel with
    | nil => simp
    | cons hone hrest ih =>
        simp only [List.zipWith_cons_cons, List.exists_mem_cons_iff]
        refine or_congr ?_ ?_
        · exact hPQ _ _ hone (hfit _ List.mem_cons_self)
        · exact ih fun img himg => hfit img (List.mem_cons_of_mem _ himg)
  refine ⟨?_, ?_⟩
  · rw [Images.isAddrCode_iff]
    exact hall h.analysed hfit _ _ fun img o ho hf => (ho.answers hf t).1
  · rw [Images.verifyControlFlowTarget_iff]
    exact hall h.analysed hfit _ _ fun img o ho hf => (ho.answers hf t).2

section Samples

/-- An image of one page of code at `0x11000`, with a routine at its start. -/
def textImage : PinImage where
  address := 0x10000
  size := 0x4000
  mainExecutable := true
  sections := [⟨⟨['.', 't', 'e', 'x', 't'], 0x11000, 0x1000⟩, true,
    [⟨0x11000, 16, ['m', 'a', 'i', 'n']⟩]⟩]
  mem := fun _ => 0x90

theorem loaded_textImage : Images.Loaded [textImage] ⟨[⟨∅, []⟩], 0x10000, 0x4000⟩ :=
  .append .nil ⟨0, fun _ _ => rfl⟩

/-- The image's own entry is not recognised as code. -/
theorem textImage_not_code : Images.Loaded [textImage] ⟨[⟨∅, []⟩], 0x10000, 0x4000⟩ ∧
    textImage.HasCodeAt 0x11000 ∧ textImage.IsRoutineStart 0x11000 ∧
    ¬ AnswersRight [textImage] ⟨[⟨∅, []⟩], 0x10000, 0x4000⟩ 0x11000 := by
  have hcode : textImage.HasCodeAt 0x11000 := ⟨_, List.mem_cons_self, rfl, by decide, by decide⟩
  refine ⟨loaded_textImage, hcode, ⟨_, List.mem_cons_self, by decide, _, List.mem_cons_self, rfl⟩,
    fun h => ?_⟩
  exact absurd (h.1.mpr ⟨textImage, List.mem_cons_self, hcode⟩) (by decide)

theorem answers_iff_sample :
    AnswersRight [textImage] ⟨[⟨∅, []⟩], 0x10000, 0x4000⟩ 0x10000 ↔
      ∀ img ∈ [textImage], ¬ img.HasCodeAt 0x10000 :=
  answers_iff [textImage] _ (.append .nil ⟨0, fun _ _ => rfl⟩) 0x10000

end Samples

end PEReplay
