/-
# PEReplay.Image.Routines — the name of the routine at an address.

An image has sections, and a section has a map from the start of a routine to its name and end.
`GetRtnName` looks an address up in the maps and takes the first name that is not empty;
`GetAddrLocationHint` goes from the image that contains the address to its section and from there to
the routine.  Where images, sections and routines do not overlap there is one routine for both to
find (`Records.unique`), and both searches find it.  But `GetRtnName` takes its address as a byte:
what it looks up is the address modulo 256 (`lookups_agree_iff`).
-/
import PEReplay.Image.Modules
import PEReplay.Lib.KeyedSet
import PEReplay.Lib.Printf

namespace PEReplay

open Printf

/-! ## Sections with their routines -/

/-- An element of `m_addr_rtns`: the start of a routine, its name and its end. -/
structure RtnEntry where
  start : U32
  name : List Char
  stop : U32

/-- An `ImageSection` with its name, and with `m_addr_rtns` in the order of its keys. -/
structure NamedSection extends ImageSection where
  name : List Char
  entries : KeyedSet fun e : RtnEntry => e.start.toNat
  entries_eq : ∀ addr, addrRtns addr =
    (entries.elems.find? fun e => e.start == addr).map fun e => (e.name, e.stop)

namespace NamedSection

/-- `"_0x%08x"` -/
def offsetText (offset : U32) : List Char := ['_', '0', 'x'] ++ zeroPad 8 (hex offset.toNat)

/-- `ImageSection::WithinRtn` -/
def withinRtn (s : NamedSection) (addr : U32) : List Char :=
  match s.entries.elems.find? fun e => e.start ≤ addr && e.stop > addr with
  | some e => if addr - e.start = 0 then e.name else e.name ++ offsetText (addr - e.start)
  | none => []

/-- `ImageSection::GetRtnName` -/
def getRtnName (s : NamedSection) (addr : U32) : List Char :=
  ((s.addrRtns addr).map Prod.fst).getD []

end NamedSection

/-- The fields of an `ImageInfo` object that the lookups read; `objects` is `m_sections`. -/
structure NamedImage extends ImageInfo where
  name : List Char
  objects : List NamedSection

namespace NamedImage

/-- `m_name.substr(m_name.find_last_of("\\/") + 1)` -/
def baseName (name : List Char) : List Char :=
  (name.reverse.takeWhile fun c => c ≠ '\\' && c ≠ '/').reverse

/-- `ImageInfo::GetRtnName_Imp` -/
def getRtnNameImp (im : NamedImage) (addr : U32) : List Char :=
  match im.objects.find? fun s => s.hasRtn addr with
  | some s => s.getRtnName addr
  | none => []

/-- What a section that contains the address adds to the hint. -/
def sectionHint (s : NamedSection) (addr : U32) : List Char :=
  ['.', '['] ++ s.name ++ [']'] ++ ['.'] ++ s.withinRtn addr

/-- `ImageInfo::GetAddrLocationHint_Imp` -/
def getAddrLocationHintImp (im : NamedImage) (addr : U32) : List Char :=
  im.objects.foldl (fun hint s => if s.contains addr then hint ++ sectionHint s addr else hint)
    (baseName im.name)

end NamedImage

/-- `ImageInfo::GetRtnName`, which is declared for a `boost::uint8_t`. -/
def getRtnName (images : List NamedImage) (addr : U8) : List Char :=
  ((images.map fun im => im.getRtnNameImp (addr.setWidth 32)).find? fun name => name ≠ []).getD []

/-- `ImageInfo::GetAddrLocationHint` -/
def getAddrLocationHint (images : List NamedImage) (addr : U32) : List Char :=
  match images.find? fun im => im.isAddrMappedImp addr with
  | some im => im.getAddrLocationHintImp addr
  | none => []

/-! ## Disjoint images, sections and routines -/

/-- The section is in the image, and the routine is recorded in the section. -/
structure Records (images : List NamedImage) (im : NamedImage) (s : NamedSection) (e : RtnEntry) :
    Prop where
  image : im ∈ images
  object : s ∈ im.objects
  entry : e ∈ s.entries

/-- One of two ranges ends before the other begins. -/
def LiesApart (start size start' size' : U32) : Prop :=
  start.toNat + size.toNat ≤ start'.toNat ∨ start'.toNat + size'.toNat ≤ start.toNat

/-- The images lie apart from each other, as do the sections of an image and the routines of a
section; sections lie inside their images and routines, which have names, inside their sections. -/
structure DisjointImages (images : List NamedImage) : Prop where
  fits : ∀ im ∈ images, im.address.toNat + im.size.toNat < 2 ^ 32
  imagesApart : images.Pairwise fun im im' => LiesApart im.address im.size im'.address im'.size
  inImage : ∀ im ∈ images, ∀ s ∈ im.objects, im.address.toNat ≤ s.address.toNat ∧
    s.address.toNat + s.size.toNat ≤ im.address.toNat + im.size.toNat
  sectionsApart : ∀ im ∈ images,
    im.objects.Pairwise fun s s' => LiesApart s.address s.size s'.address s'.size
  inSection : ∀ im s e, Records images im s e → s.address.toNat ≤ e.start.toNat ∧
    e.start.toNat < s.address.toNat + s.size.toNat ∧ e.start.toNat ≤ e.stop.toNat
  routinesApart : ∀ im s e e', Records images im s e → Records images im s e' →
    e.start.toNat < e'.start.toNat → e.stop.toNat ≤ e'.start.toNat
  named : ∀ im s e, Records images im s e → e.name ≠ []

/-! ## At most one -/

/-- Where no two elements of a list have a property, one that has it is the only one. -/
theorem filter_eq_singleton {α : Type*} {p : α → Bool} {l : List α} {a : α}
    (h : l.Pairwise fun x y => p x = true → p y = false) (ha : a ∈ l) (hp : p a = true) :
    l.filter p = [a] := by
  induction h with
  | nil => exact absurd ha List.not_mem_nil
  | @cons x l hx _ ih =>
      rcases List.mem_cons.mp ha with rfl | ha
      · rw [List.filter_cons_of_pos hp, List.filter_eq_nil_iff.mpr]
        intro y hy
        rw [hx y hy hp]
        exact Bool.false_ne_true
      · have hnot : ¬ p x = true := by
          intro hpx
          rw [hx a ha hpx] at hp
          exact absurd hp (by simp)
        rw [List.filter_cons_of_neg hnot, ih ha]

theorem eq_of_filter_eq_singleton {α : Type*} {p : α → Bool} {l : List α} {a b : α}
    (h : l.filter p = [a]) (hb : b ∈ l) (hp : p b = true) : b = a := by
  have hmem := List.mem_filter.mpr ⟨hb, hp⟩
  rw [h] at hmem
  exact List.mem_singleton.mp hmem

section Lookups

variable {images : List NamedImage} {im im' : NamedImage} {s s' : NamedSection} {e e' : RtnEntry}
  {addr : U32}

theorem DisjointImages.isAddrMappedImp_iff (h : DisjointImages images) (him : im ∈ images)
    (addr : U32) : im.isAddrMappedImp addr = true ↔
      im.address.toNat ≤ addr.toNat ∧ addr.toNat < im.address.toNat + im.size.toNat := by
  have hfits := h.fits im him
  have hend : (im.address + im.size).toNat = im.address.toNat + im.size.toNat := by bv_omega
  rw [ImageInfo.isAddrMappedImp, Bool.and_eq_true, decide_eq_true_eq, decide_eq_true_eq, ge_iff_le,
    BitVec.le_def, BitVec.lt_def, hend]

theorem DisjointImages.contains_iff (h : DisjointImages images) (him : im ∈ images)
    (hs : s ∈ im.objects) (addr : U32) : s.contains addr = true ↔
      s.address.toNat ≤ addr.toNat ∧ addr.toNat < s.address.toNat + s.size.toNat := by
  have hfits := h.fits im him
  have hinside := h.inImage im him s hs
  have hend : (s.address + s.size).toNat = s.address.toNat + s.size.toNat := by bv_omega
  rw [ImageSection.contains, Bool.and_eq_true, decide_eq_true_eq, decide_eq_true_eq, gt_iff_lt,
    BitVec.le_def, BitVec.lt_def, hend]

/-- A recorded routine starts in its section, and so in its image. -/
theorem DisjointImages.contains_start (h : DisjointImages images) (hr : Records images im s e) :
    im.isAddrMappedImp e.start = true ∧ s.contains e.start = true := by
  obtain ⟨hlo, hhi, -⟩ := h.inSection im s e hr
  have hinside := h.inImage im hr.image s hr.object
  constructor
  · rw [h.isAddrMappedImp_iff hr.image]
    omega
  · rw [h.contains_iff hr.image hr.object]
    exact ⟨hlo, hhi⟩

/-- **One image** contains an address, -/
theorem DisjointImages.filter_images (h : DisjointImages images) (him : im ∈ images)
    (haddr : im.isAddrMappedImp addr = true) :
    images.filter (fun im => im.isAddrMappedImp addr) = [im] := by
  refine filter_eq_singleton ?_ him haddr
  refine h.imagesApart.imp_of_mem ?_
  intro x y hx hy hapart hxaddr
  rw [← Bool.not_eq_true]
  intro hyaddr
  rw [h.isAddrMappedImp_iff hx] at hxaddr
  rw [h.isAddrMappedImp_iff hy] at hyaddr
  unfold LiesApart at hapart
  omega

/-- and one section of it. -/
theorem DisjointImages.filter_sections (h : DisjointImages images) (him : im ∈ images)
    (hs : s ∈ im.objects) (haddr : s.contains addr = true) :
    im.objects.filter (fun s => s.contains addr) = [s] := by
  refine filter_eq_singleton ?_ hs haddr
  refine (h.sectionsApart im him).imp_of_mem ?_
  intro x y hx hy hapart hxaddr
  rw [← Bool.not_eq_true]
  intro hyaddr
  rw [h.contains_iff him hx] at hxaddr
  rw [h.contains_iff him hy] at hyaddr
  unfold LiesApart at hapart
  omega

/-- **One routine starts at an address.** -/
theorem Records.unique (h : DisjointImages images) (hr : Records images im s e)
    (hr' : Records images im' s' e') (heq : e'.start = e.start) : e' = e := by
  obtain ⟨himage, hsection⟩ := h.contains_start hr
  obtain ⟨himage', hsection'⟩ := h.contains_start hr'
  rw [heq] at himage' hsection'
  obtain rfl : im' = im :=
    eq_of_filter_eq_singleton (h.filter_images hr.image himage) hr'.image himage'
  obtain rfl : s' = s := eq_of_filter_eq_singleton
    (h.filter_sections hr.image hr.object hsection) hr'.object hsection'
  exact s'.entries.eq_of_key_eq hr'.entry hr.entry (congrArg BitVec.toNat heq)

/-! ## `GetRtnName` -/

/-- A section has a routine at an address when one of its entries starts there. -/
theorem NamedSection.hasRtn_iff (s : NamedSection) (addr : U32) :
    s.hasRtn addr = true ↔ ∃ e ∈ s.entries, e.start = addr := by
  rw [ImageSection.hasRtn, s.entries_eq, Option.isSome_map, List.find?_isSome]
  simp only [beq_iff_eq, KeyedSet.mem_def]

/-- And then its name is the one that is looked up. -/
theorem NamedSection.exists_getRtnName (h : s.hasRtn addr = true) :
    ∃ e ∈ s.entries, e.start = addr ∧ s.getRtnName addr = e.name := by
  rw [ImageSection.hasRtn, s.entries_eq, Option.isSome_map] at h
  obtain ⟨e, he⟩ := Option.isSome_iff_exists.mp h
  refine ⟨e, List.mem_of_find?_eq_some he, by simpa using List.find?_some he, ?_⟩
  rw [NamedSection.getRtnName, s.entries_eq, he]
  rfl

/-- What an image answers is the name of a routine that starts there. -/
theorem NamedImage.getRtnNameImp_cases (im : NamedImage) (addr : U32) :
    (∃ s ∈ im.objects, ∃ e ∈ s.entries, e.start = addr ∧ im.getRtnNameImp addr = e.name) ∨
      (im.getRtnNameImp addr = [] ∧ ∀ s ∈ im.objects, ∀ e ∈ s.entries, e.start ≠ addr) := by
  unfold NamedImage.getRtnNameImp
  cases hfind : im.objects.find? fun s => s.hasRtn addr with
  | none =>
      refine Or.inr ⟨rfl, fun s hs e he heq => ?_⟩
      exact List.find?_eq_none.mp hfind s hs ((s.hasRtn_iff addr).mpr ⟨e, he, heq⟩)
  | some s =>
      have hhas : s.hasRtn addr = true := by simpa using List.find?_some hfind
      obtain ⟨e, he, heq, hname⟩ := NamedSection.exists_getRtnName hhas
      exact Or.inl ⟨s, List.mem_of_find?_eq_some hfind, e, he, heq, hname⟩

/-- **A routine starts at the address that is looked up**: its name is found. -/
theorem getRtnName_of_records (h : DisjointImages images) (hr : Records images im s e) {byte : U8}
    (heq : e.start = byte.setWidth 32) : getRtnName images byte = e.name := by
  unfold getRtnName
  cases hfind : (images.map fun im => im.getRtnNameImp (byte.setWidth 32)).find?
      (fun name => name ≠ []) with
  | none =>
      -- the routine's own image has an answer
      have hempty := List.find?_eq_none.mp hfind _ (List.mem_map_of_mem hr.image)
      rcases im.getRtnNameImp_cases (byte.setWidth 32) with
        ⟨s', hs', e', he', -, hname⟩ | ⟨-, hnone⟩
      · have hnil : e'.name = [] := by simpa [hname] using hempty
        exact absurd hnil (h.named im s' e' ⟨hr.image, hs', he'⟩)
      · exact absurd heq (hnone s hr.object e hr.entry)
  | some name =>
      obtain ⟨im', him', hname⟩ := List.mem_map.mp (List.mem_of_find?_eq_some hfind)
      have hne : name ≠ [] := by simpa using List.find?_some hfind
      rcases im'.getRtnNameImp_cases (byte.setWidth 32) with
        ⟨s', hs', e', he', heq', hname'⟩ | ⟨hempty, -⟩
      · have hsame := Records.unique h hr ⟨him', hs', he'⟩ (heq'.trans heq.symm)
        rw [hname', hsame] at hname
        exact hname.symm
      · exact absurd (hname.symm.trans hempty) hne

/-- **None does**: nothing is found. -/
theorem getRtnName_of_none {byte : U8}
    (h : ∀ im s e, Records images im s e → e.start ≠ byte.setWidth 32) :
    getRtnName images byte = [] := by
  unfold getRtnName
  rw [List.find?_eq_none.mpr]
  · rfl
  · intro name hmem
    obtain ⟨im, him, rfl⟩ := List.mem_map.mp hmem
    rcases im.getRtnNameImp_cases (byte.setWidth 32) with
      ⟨s, hs, e, he, heq, -⟩ | ⟨hempty, -⟩
    · exact absurd heq (h im s e ⟨him, hs, he⟩)
    · simpa using hempty

/-! ## `GetAddrLocationHint` -/

/-- The hint for an address in a section: image, section, and what the section says. -/
theorem getAddrLocationHint_of_contains (h : DisjointImages images) (him : im ∈ images)
    (hs : s ∈ im.objects) (haddr : s.contains addr = true) :
    getAddrLocationHint images addr =
      NamedImage.baseName im.name ++ NamedImage.sectionHint s addr := by
  have hsection := (h.contains_iff him hs addr).mp haddr
  have hinside := h.inImage im him s hs
  have himage : im.isAddrMappedImp addr = true := by
    rw [h.isAddrMappedImp_iff him]
    omega
  unfold getAddrLocationHint
  rw [← List.head?_filter, h.filter_images him himage]
  show NamedImage.getAddrLocationHintImp im addr = _
  rw [NamedImage.getAddrLocationHintImp, ← List.foldl_filter, h.filter_sections him hs haddr]
  rfl

/-- **A routine of some length** is found at its start, -/
theorem withinRtn_of_lt (h : DisjointImages images) (hr : Records images im s e)
    (hlt : e.start.toNat < e.stop.toNat) : s.withinRtn e.start = e.name := by
  have hone : s.entries.elems.filter (fun x => x.start ≤ e.start && x.stop > e.start) = [e] := by
    refine filter_eq_singleton ?_ hr.entry ?_
    · refine s.entries.sorted_elems.imp_of_mem ?_
      intro x y hx hy hxy hxin
      rw [← Bool.not_eq_true]
      intro hyin
      rw [Bool.and_eq_true, decide_eq_true_eq, decide_eq_true_eq] at hxin hyin
      have hends := h.routinesApart im s x y ⟨hr.image, hr.object, hx⟩ ⟨hr.image, hr.object, hy⟩ hxy
      have hxend : e.start.toNat < x.stop.toNat := hxin.2
      have hystart : y.start.toNat ≤ e.start.toNat := hyin.1
      omega
    · rw [Bool.and_eq_true, decide_eq_true_eq, decide_eq_true_eq]
      exact ⟨BitVec.le_refl _, hlt⟩
  unfold NamedSection.withinRtn
  rw [← List.head?_filter, hone]
  exact if_pos (BitVec.sub_self e.start)

/-- and an empty one is not, nor is any other there. -/
theorem withinRtn_of_empty (h : DisjointImages images) (hr : Records images im s e)
    (hempty : ¬ e.start.toNat < e.stop.toNat) : s.withinRtn e.start = [] := by
  unfold NamedSection.withinRtn
  rw [List.find?_eq_none.mpr]
  intro x hx hxin
  rw [Bool.and_eq_true, decide_eq_true_eq, decide_eq_true_eq] at hxin
  have hrx : Records images im s x := ⟨hr.image, hr.object, hx⟩
  have hstart : x.start.toNat ≤ e.start.toNat := hxin.1
  have hstop : e.start.toNat < x.stop.toNat := hxin.2
  rcases Nat.lt_or_eq_of_le hstart with hlt | heq
  · have hends := h.routinesApart im s x e hrx hr hlt
    omega
  · obtain rfl := Records.unique h hr hrx (BitVec.toNat_inj.mp heq)
    exact hempty hstop

/-- **The hint for the start of a routine** names it exactly when the routine is not empty. -/
theorem getAddrLocationHint_start_iff (h : DisjointImages images) (hr : Records images im s e) :
    getAddrLocationHint images e.start =
        NamedImage.baseName im.name ++ (['.', '['] ++ s.name ++ [']'] ++ ['.'] ++ e.name) ↔
      e.start.toNat < e.stop.toNat := by
  rw [getAddrLocationHint_of_contains h hr.image hr.object (h.contains_start hr).2,
    NamedImage.sectionHint]
  constructor
  · intro hhint
    by_contra hempty
    rw [withinRtn_of_empty h hr hempty] at hhint
    have hnil := List.append_cancel_left (List.append_cancel_left hhint)
    exact h.named im s e hr hnil.symm
  · intro hlt
    rw [withinRtn_of_lt h hr hlt]

/-! ## Both -/

/-- Both lookups name the routine that starts at `addr`, and `GetRtnName` names none when none
does. -/
structure LookupsAgree (images : List NamedImage) (addr : U32) : Prop where
  starts : ∀ im s e, Records images im s e → e.start = addr →
    getRtnName images (addr.setWidth 8) = e.name ∧
      getAddrLocationHint images addr =
        NamedImage.baseName im.name ++ (['.', '['] ++ s.name ++ [']'] ++ ['.'] ++ e.name)
  none : (∀ im s e, Records images im s e → e.start ≠ addr) →
    getRtnName images (addr.setWidth 8) = []

/-- The low byte of an address, as `GetRtnName` looks it up. -/
def lowByte (addr : U32) : U32 := (addr.setWidth 8).setWidth 32

/-- A routine starts at the address. -/
theorem lookupsAgree_iff_of_start (h : DisjointImages images) (hr : Records images im s e) :
    LookupsAgree images e.start ↔ e.start.toNat < e.stop.toNat ∧
      ∃ im' s' e', Records images im' s' e' ∧ e'.start = lowByte e.start ∧ e'.name = e.name := by
  constructor
  · rintro ⟨hagree, -⟩
    obtain ⟨hname, hhint⟩ := hagree im s e hr rfl
    refine ⟨(getAddrLocationHint_start_iff h hr).mp hhint, ?_⟩
    by_contra hnone
    have hnil : getRtnName images (e.start.setWidth 8) = [] := by
      apply getRtnName_of_none
      intro im' s' e' hr' heq
      apply hnone
      refine ⟨im', s', e', hr', heq, ?_⟩
      rw [← hname]
      exact (getRtnName_of_records h hr' heq).symm
    exact h.named im s e hr (hname.symm.trans hnil)
  · rintro ⟨hlt, im', s', e', hr', heq', hname'⟩
    refine ⟨fun im₂ s₂ e₂ hr₂ heq₂ => ?_, fun hnone => absurd rfl (hnone im s e hr)⟩
    obtain rfl := Records.unique h hr hr₂ heq₂
    constructor
    · rw [getRtnName_of_records h hr' heq', hname']
    · exact (getAddrLocationHint_start_iff h hr₂).mpr hlt

/-- No routine starts there. -/
theorem lookupsAgree_iff_of_none (h : DisjointImages images)
    (hnone : ∀ im s e, Records images im s e → e.start ≠ addr) :
    LookupsAgree images addr ↔ ∀ im s e, Records images im s e → e.start ≠ lowByte addr := by
  constructor
  · rintro ⟨-, hempty⟩ im s e hr heq
    have hname := getRtnName_of_records h hr heq
    exact h.named im s e hr (hname.symm.trans (hempty hnone))
  · intro hlow
    exact ⟨fun im s e hr heq => absurd heq (hnone im s e hr), fun _ => getRtnName_of_none hlow⟩

/-- **When the lookups agree.**  A routine that starts at the address is not empty, and one of the
same name starts at the low byte of the address; or none starts at either. -/
theorem lookups_agree_iff (images : List NamedImage) (h : DisjointImages images) (addr : U32) :
    LookupsAgree images addr ↔
      (∃ im s e, Records images im s e ∧ e.start = addr ∧ e.start.toNat < e.stop.toNat ∧
        ∃ im' s' e', Records images im' s' e' ∧ e'.start = lowByte addr ∧ e'.name = e.name) ∨
      ((∀ im s e, Records images im s e → e.start ≠ addr) ∧
        ∀ im s e, Records images im s e → e.start ≠ lowByte addr) := by
  by_cases hstarts : ∃ im s e, Records images im s e ∧ e.start = addr
  · obtain ⟨im, s, e, hr, rfl⟩ := hstarts
    rw [lookupsAgree_iff_of_start h hr]
    constructor
    · rintro ⟨hlt, hlow⟩
      exact Or.inl ⟨im, s, e, hr, rfl, hlt, hlow⟩
    · rintro (⟨im', s', e', hr', heq', hlt, hlow⟩ | ⟨hnone, -⟩)
      · obtain rfl := Records.unique h hr hr' heq'
        exact ⟨hlt, hlow⟩
      · exact absurd rfl (hnone im s e hr)
  · have hnone : ∀ im s e, Records images im s e → e.start ≠ addr :=
      fun im s e hr heq => hstarts ⟨im, s, e, hr, heq⟩
    rw [lookupsAgree_iff_of_none h hnone]
    constructor
    · exact fun hlow => Or.inr ⟨hnone, hlow⟩
    · rintro (⟨im, s, e, hr, heq, -⟩ | ⟨-, hlow⟩)
      · exact absurd heq (hnone im s e hr)
      · exact hlow

end Lookups

section Samples

/-- The entry of `main`, at the start of the code of an image. -/
def mainEntry : RtnEntry := ⟨0x11000, ['m', 'a', 'i', 'n'], 0x11010⟩

/-- The section with the entry recorded. -/
def mainSection : NamedSection where
  address := 0x11000
  size := 0x1000
  executable := true
  addrRtns := fun addr =>
    ([mainEntry].find? fun e => e.start == addr).map fun e => (e.name, e.stop)
  name := ['.', 't', 'e', 'x', 't']
  entries := ⟨[mainEntry], List.pairwise_singleton _ _⟩
  entries_eq := fun _ => rfl

/-- The image. -/
def mainImage : NamedImage where
  address := 0x10000
  size := 0x4000
  sections := []
  mem := fun _ => 0x90
  name := ['C', ':', '\\', 'a', '.', 'e', 'x', 'e']
  objects := [mainSection]

theorem records_mainImage : Records [mainImage] mainImage mainSection mainEntry :=
  ⟨List.mem_cons_self, List.mem_cons_self, List.mem_cons_self⟩

theorem eq_of_records_mainImage {im : NamedImage} {s : NamedSection} {e : RtnEntry}
    (h : Records [mainImage] im s e) : im = mainImage ∧ s = mainSection ∧ e = mainEntry := by
  obtain ⟨him, hs, he⟩ := h
  obtain rfl := List.mem_singleton.mp him
  obtain rfl := List.mem_singleton.mp hs
  exact ⟨rfl, rfl, List.mem_singleton.mp he⟩

theorem disjointImages_mainImage : DisjointImages [mainImage] where
  fits := by
    intro im him
    rw [List.mem_singleton.mp him]
    decide
  imagesApart := List.pairwise_singleton _ _
  inImage := by
    intro im him s hs
    obtain rfl := List.mem_singleton.mp him
    rw [List.mem_singleton.mp hs]
    decide
  sectionsApart := by
    intro im him
    rw [List.mem_singleton.mp him]
    exact List.pairwise_singleton _ _
  inSection := by
    intro im s e h
    obtain ⟨-, rfl, rfl⟩ := eq_of_records_mainImage h
    decide
  routinesApart := by
    intro im s e e' h h' hlt
    rw [(eq_of_records_mainImage h).2.2, (eq_of_records_mainImage h').2.2] at hlt
    exact absurd hlt (lt_irrefl _)
  named := by
    intro im s e h
    rw [(eq_of_records_mainImage h).2.2]
    exact List.cons_ne_nil _ _

theorem lookups_agree_iff_sample : LookupsAgree [mainImage] 0x11000 ↔
    (∃ im s e, Records [mainImage] im s e ∧ e.start = 0x11000 ∧ e.start.toNat < e.stop.toNat ∧
      ∃ im' s' e', Records [mainImage] im' s' e' ∧ e'.start = lowByte 0x11000 ∧
        e'.name = e.name) ∨
    ((∀ im s e, Records [mainImage] im s e → e.start ≠ 0x11000) ∧
      ∀ im s e, Records [mainImage] im s e → e.start ≠ lowByte 0x11000) :=
  lookups_agree_iff [mainImage] disjointImages_mainImage 0x11000

/-- `main` is looked up at address zero. -/
theorem main_not_found : Records [mainImage] mainImage mainSection mainEntry ∧
    getRtnName [mainImage] (mainEntry.start.setWidth 8) = [] ∧
    ¬ LookupsAgree [mainImage] 0x11000 := by
  have hempty : getRtnName [mainImage] (mainEntry.start.setWidth 8) = [] := by
    apply getRtnName_of_none
    intro im s e h
    rw [(eq_of_records_mainImage h).2.2]
    decide
  refine ⟨records_mainImage, hempty, fun h => ?_⟩
  have hname := (h.starts mainImage mainSection mainEntry records_mainImage rfl).1
  rw [show (0x11000 : U32) = mainEntry.start from rfl, hempty] at hname
  exact absurd hname (by decide)

end Samples

end PEReplay
