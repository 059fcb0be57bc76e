/-
# PEReplay.Image.Progress — when `AnalyzeRelocationEntry` comes to an end.

The outer loop moves on by the length the block's header gives, and stops at a header whose two
words are both zero.  A header with a page address and no length is neither the end nor a step: the
loop stays at it for ever.  `terminates_iff_not_loopsBack` says when the analysis ends for every
image at all, `analyzeRelocationEntry_terminates_iff` that such a header is the only obstacle in an
image that leaves eight bytes of the address space free, where no sum of an address and a length can
wrap without a read that throws.
-/
import PEReplay.Image.RelocTargets

namespace PEReplay

namespace ImageInfo

open Loop Relation

/-! ## The walk over the headers -/

/-- `reloc_section_start + reloc_section_size` -/
def sectionEnd (im : ImageInfo) : U32 := im.relocSection.1 + im.relocSection.2

/-- The block whose header stands at `addr`. -/
def blockAt (im : ImageInfo) (addr : U32) : RelocBlock :=
  ⟨addr, im.mem.read32 addr, im.mem.read32 (addr + 4)⟩

/-- The addresses of the words the inner loop interprets as that block's entries. -/
def wordAddrs (im : ImageInfo) (addr : U32) : List U32 :=
  loopAddrs addr 0 (((im.blockAt addr).blockSize.toNat + 1) / 2)

/-- The outer loop finds a header at `addr` that is not the last, and nothing it reads for that
block throws. -/
structure Passes (im : ImageInfo) (addr : U32) : Prop where
  below : addr < im.sectionEnd
  pageMapped : im.isAddrMappedImp addr = true
  sizeMapped : im.isAddrMappedImp (addr + 4) = true
  header : ¬ ((im.blockAt addr).pageRva = 0 ∧ (im.blockAt addr).blockSize = 0)
  words : ∀ a ∈ im.wordAddrs addr, im.Readable (im.blockAt addr).pageRva a

/-- From one header to the next. -/
def NextBlock (im : ImageInfo) (addr addr' : U32) : Prop :=
  im.Passes addr ∧ addr' = addr + (im.blockAt addr).blockSize

/-- The headers the analysis comes to. -/
def Reached (im : ImageInfo) (addr : U32) : Prop :=
  im.relocSection.1 ≠ 0 ∧ im.relocSection.2 ≠ 0 ∧
    ReflTransGen im.NextBlock im.relocSection.1 addr

/-- The analysis never gets beyond the block at `addr`: the inner loop's index wraps, or the walk
leads back to the block. -/
def LoopsBack (im : ImageInfo) (addr : U32) : Prop :=
  im.Passes addr ∧
    ((im.blockAt addr).blockSize = 0xFFFFFFFF ∨ TransGen im.NextBlock addr addr)

theorem mem_wordAddrs {im : ImageInfo} {addr a : U32} : a ∈ im.wordAddrs addr ↔
    ∃ j < ((im.blockAt addr).blockSize.toNat + 1) / 2, addr + 8 + BitVec.ofNat 32 (2 * j) = a := by
  unfold wordAddrs
  rw [loopAddrs_eq_map, List.mem_map]
  constructor
  · rintro ⟨j, hj, rfl⟩
    exact ⟨j, List.mem_range.mp hj, by simp⟩
  · rintro ⟨j, hj, rfl⟩
    exact ⟨j, List.mem_range.mpr hj, by simp⟩

/-! ## One pass of the outer loop -/

theorem whileBody_of_header {im : ImageInfo} {addr : U32} (hbelow : addr < im.sectionEnd)
    (hpage : im.isAddrMappedImp addr = true) (hsize : im.isAddrMappedImp (addr + 4) = true)
    (hheader : ¬ ((im.blockAt addr).pageRva = 0 ∧ (im.blockAt addr).blockSize = 0))
    (n : Nat) (s : RelocState) :
    im.whileBody n im.sectionEnd (addr, s) =
      match whileLoop (im.forBody addr (im.blockAt addr).pageRva (im.blockAt addr).blockSize) n
          (0, s) with
      | none => none
      | some (.error e) => some (.exit (.error e))
      | some (.ok s') => some (.next (addr + (im.blockAt addr).blockSize, s')) :=
  whileBody_eq hbelow hpage hsize hheader n s

/-- The pass leaves the loop when the header is the last or a read throws. -/
theorem exit_of_not_passes {im : ImageInfo} {addr : U32} (h : ¬ im.Passes addr)
    (s : RelocState) :
    ∃ r, Computes (fun n => im.whileBody n im.sectionEnd (addr, s)) (.exit r) := by
  by_cases hbelow : addr < im.sectionEnd
  · by_cases hpage : im.isAddrMappedImp addr = true
    · by_cases hsize : im.isAddrMappedImp (addr + 4) = true
      · by_cases hheader : (im.blockAt addr).pageRva = 0 ∧ (im.blockAt addr).blockSize = 0
        · refine ⟨.ok s, 0, fun n _ => ?_⟩
          simp only [blockAt] at hheader
          simp only [whileBody, secureDereference, hbelow, hpage, hsize, if_true, hheader,
            and_self]
        · cases hitems : im.relocItems ((im.wordAddrs addr).map
              fun a => ((im.blockAt addr).pageRva, a)) s with
          | error e =>
              refine ⟨.error e, ((im.blockAt addr).blockSize.toNat + 1) / 2, fun n hn => ?_⟩
              obtain ⟨m, rfl⟩ : ∃ m, n = m + ((im.blockAt addr).blockSize.toNat + 1) / 2 :=
                ⟨n - ((im.blockAt addr).blockSize.toNat + 1) / 2, by omega⟩
              have hloop := forLoop_items im addr (im.blockAt addr).pageRva
                (im.blockAt addr).blockSize _ m 0 s
                (show (0 : U32).toNat + 2 * (((im.blockAt addr).blockSize.toNat + 1) / 2) ≤ _ by
                  simp; omega)
              rw [wordAddrs] at hitems
              rw [hitems] at hloop
              simp only [whileBody_of_header hbelow hpage hsize hheader, hloop]
          | ok s' =>
              -- every word was read, so the block passes
              obtain ⟨hread, -⟩ := (relocItems_eq_ok im _ _ _).mp hitems
              refine absurd ⟨hbelow, hpage, hsize, hheader, fun a ha => ?_⟩ h
              exact hread (_, a) (List.mem_map.mpr ⟨a, ha, rfl⟩)
      · refine ⟨.error ⟨addr + 4⟩, 0, fun n _ => ?_⟩
        simp only [whileBody, secureDereference, hbelow, hpage, if_true, if_neg hsize]
    · refine ⟨.error ⟨addr⟩, 0, fun n _ => ?_⟩
      simp only [whileBody, secureDereference, hbelow, if_true, if_neg hpage]
  · refine ⟨.ok s, 0, fun n _ => ?_⟩
    simp only [whileBody, if_neg hbelow]

/-- The words of a block that passes are interpreted without a throw. -/
theorem Passes.relocItems {im : ImageInfo} {addr : U32} (h : im.Passes addr) (s : RelocState) :
    ∃ s', im.relocItems ((im.wordAddrs addr).map fun a => ((im.blockAt addr).pageRva, a)) s =
      .ok s' := by
  refine ⟨_, (relocItems_eq_ok im _ _ _).mpr ⟨?_, rfl⟩⟩
  intro item hitem
  obtain ⟨a, ha, rfl⟩ := List.mem_map.mp hitem
  exact h.words a ha

/-- The inner loop comes to the end of a block that passes, unless its length is the largest
word. -/
theorem Passes.forLoop {im : ImageInfo} {addr : U32} (h : im.Passes addr)
    (hmax : (im.blockAt addr).blockSize ≠ 0xFFFFFFFF) (s : RelocState) :
    ∃ s', Computes (fun n => whileLoop
      (im.forBody addr (im.blockAt addr).pageRva (im.blockAt addr).blockSize) n (0, s))
      (.ok s') := by
  obtain ⟨s', hitems⟩ := h.relocItems s
  refine ⟨s', ((im.blockAt addr).blockSize.toNat + 1) / 2 + 1, fun n hn => ?_⟩
  have hlt := (im.blockAt addr).blockSize.isLt
  have hne : (im.blockAt addr).blockSize.toNat ≠ 2 ^ 32 - 1 := fun heq =>
    hmax (BitVec.eq_of_toNat_eq heq)
  have hloop := forLoop_eq_ceil im addr (im.blockAt addr).pageRva (im.blockAt addr).blockSize
    (((im.blockAt addr).blockSize.toNat + 1) / 2) n 0 s (by simp; omega) (by simp; omega)
    (by simp; omega) (by omega)
  rw [wordAddrs] at hitems
  simp only [hloop, hitems]

/-- **What a pass does at a block that passes**: with fuel enough it moves on by the length the
header gives, and with less it does nothing else. -/
theorem Passes.next {im : ImageInfo} {addr : U32} (h : im.Passes addr)
    (hmax : (im.blockAt addr).blockSize ≠ 0xFFFFFFFF) (s : RelocState) :
    ∃ s', Computes (fun n => im.whileBody n im.sectionEnd (addr, s))
        (.next (addr + (im.blockAt addr).blockSize, s')) ∧
      ∀ n, im.whileBody n im.sectionEnd (addr, s) = none ∨
        im.whileBody n im.sectionEnd (addr, s) =
          some (.next (addr + (im.blockAt addr).blockSize, s')) := by
  obtain ⟨s', hloop⟩ := h.forLoop hmax s
  have hbody := whileBody_of_header h.below h.pageMapped h.sizeMapped h.header
  refine ⟨s', ?_, fun n => ?_⟩
  · obtain ⟨N, hN⟩ := hloop
    refine ⟨N, fun n hn => ?_⟩
    simp only [hbody, hN n hn]
  · cases hn : whileLoop
        (im.forBody addr (im.blockAt addr).pageRva (im.blockAt addr).blockSize) n (0, s) with
    | none =>
        refine Or.inl ?_
        simp only [hbody, hn]
    | some r =>
        have hmono : FuelMono fun n => whileLoop
            (im.forBody addr (im.blockAt addr).pageRva (im.blockAt addr).blockSize) n (0, s) :=
          fun _ _ _ hle hr => whileLoop_mono (fun _ _ hb => hb) hle hr
        obtain rfl : r = .ok s' := (hmono.computes hn).unique hloop
        refine Or.inr ?_
        simp only [hbody, hn]

/-- With the largest length the inner loop's index wraps from `0xFFFFFFFE` to zero, and the pass
never ends. -/
theorem Passes.stays {im : ImageInfo} {addr : U32} (h : im.Passes addr)
    (hmax : (im.blockAt addr).blockSize = 0xFFFFFFFF) (s : RelocState) (n : Nat) :
    im.whileBody n im.sectionEnd (addr, s) = none := by
  have hloop : whileLoop (im.forBody addr (im.blockAt addr).pageRva (im.blockAt addr).blockSize) n
      (0, s) = none := by
    refine whileLoop_none (fun st => st.1.toNat % 2 = 0) (fun st hst => Or.inr ?_) rfl n
    obtain ⟨i, s⟩ := st
    have heven : i.toNat % 2 = 0 := hst
    have hi := i.isLt
    have hlt : i < (im.blockAt addr).blockSize := by
      rw [hmax]
      bv_omega
    have hread : im.Readable (im.blockAt addr).pageRva (addr + i + 8) := by
      refine h.words _ (mem_wordAddrs.mpr ⟨i.toNat / 2, ?_, ?_⟩)
      · rw [hmax]
        have : (0xFFFFFFFF : U32).toNat = 2 ^ 32 - 1 := rfl
        omega
      · have hdouble : 2 * (i.toNat / 2) = i.toNat := by omega
        rw [hdouble]
        bv_omega
    obtain ⟨s₁, hitem⟩ : ∃ s₁,
        im.relocItem (im.blockAt addr).pageRva (addr + i + 8) s = .ok s₁ :=
      ⟨_, (relocItem_eq_ok im _ _ s _).mpr ⟨hread, rfl⟩⟩
    refine ⟨(i + 2, s₁), ?_, ?_⟩
    · simp only [forBody, if_pos hlt, hitem]
    · show (i + 2).toNat % 2 = 0
      bv_omega
  simp only [whileBody_of_header h.below h.pageMapped h.sizeMapped h.header, hloop]

/-! ## The whole walk -/

/-- The analysis ends, with or without a throw. -/
def Terminates (im : ImageInfo) : Prop := ∃ r, Computes im.analyzeRelocationEntry r

theorem analyzeRelocationEntry_eq {im : ImageInfo} (hstart : im.relocSection.1 ≠ 0)
    (hsize : im.relocSection.2 ≠ 0) : im.analyzeRelocationEntry = fun n =>
      whileLoop (im.whileBody n im.sectionEnd) n (im.relocSection.1, ⟨∅, []⟩) := by
  funext n
  unfold analyzeRelocationEntry sectionEnd
  simp only [hstart, hsize, ne_eq, not_false_eq_true, and_self, if_true]

/-- Without a `.reloc` section there is nothing to do. -/
theorem terminates_of_no_section {im : ImageInfo}
    (h : ¬ (im.relocSection.1 ≠ 0 ∧ im.relocSection.2 ≠ 0)) : im.Terminates := by
  refine ⟨.ok ⟨∅, []⟩, 0, fun n _ => ?_⟩
  unfold analyzeRelocationEntry
  simp only [if_neg h]

/-- A walk that leads to a block it never gets beyond does not end. -/
theorem not_terminates_of_loopsBack {im : ImageInfo} {addr : U32} (hreached : im.Reached addr)
    (hloops : im.LoopsBack addr) : ¬ im.Terminates := by
  rintro ⟨r, N, hN⟩
  obtain ⟨hstart, hsize, hwalk⟩ := hreached
  have hnone : whileLoop (im.whileBody N im.sectionEnd) N (im.relocSection.1, ⟨∅, []⟩) = none := by
    refine whileLoop_none (fun st => ReflTransGen im.NextBlock st.1 addr) (fun st hst => ?_)
      hwalk N
    obtain ⟨a, s⟩ := st
    -- the block at `a` passes, and if its pass ends the walk still leads to `addr`
    have hcases : ReflTransGen im.NextBlock a addr → im.Passes a ∧
        ((im.blockAt a).blockSize = 0xFFFFFFFF ∨
          ReflTransGen im.NextBlock (a + (im.blockAt a).blockSize) addr) := by
      intro h
      rcases ReflTransGen.cases_head h with rfl | ⟨b, ⟨hpasses, rfl⟩, hrest⟩
      · obtain ⟨hpasses, hmax | hcycle⟩ := hloops
        · exact ⟨hpasses, Or.inl hmax⟩
        · obtain ⟨b, ⟨-, rfl⟩, hrest⟩ := TransGen.head'_iff.mp hcycle
          exact ⟨hpasses, Or.inr hrest⟩
      · exact ⟨hpasses, Or.inr hrest⟩
    obtain ⟨hpasses, hnext⟩ := hcases hst
    by_cases hmax : (im.blockAt a).blockSize = 0xFFFFFFFF
    · exact Or.inl (hpasses.stays hmax s N)
    · obtain ⟨s', -, hbody⟩ := hpasses.next hmax s
      rcases hbody N with hbody | hbody
      · exact Or.inl hbody
      · exact Or.inr ⟨_, hbody, hnext.resolve_left hmax⟩
  have hr := hN N le_rfl
  simp only [analyzeRelocationEntry_eq hstart hsize, hnone] at hr
  exact absurd hr (by simp)

/-- A walk that gets beyond every block ends, there being finitely many addresses. -/
theorem terminates_of_not_loopsBack {im : ImageInfo}
    (h : ∀ addr, im.Reached addr → ¬ im.LoopsBack addr) : im.Terminates := by
  by_cases hsection : im.relocSection.1 ≠ 0 ∧ im.relocSection.2 ≠ 0
  · obtain ⟨hstart, hsize⟩ := hsection
    have hreached : ∀ {addr}, im.Reached addr → ∀ {addr'}, ReflTransGen im.NextBlock addr addr' →
        im.Reached addr' := fun ha _ hrest => ⟨ha.1, ha.2.1, ha.2.2.trans hrest⟩
    have : Finite U32 := Finite.of_injective BitVec.toFin fun _ _ heq => BitVec.eq_of_toFin_eq heq
    have hhalts : ∃ r, Halts (fun n => im.whileBody n im.sectionEnd)
        (im.relocSection.1, (⟨∅, []⟩ : RelocState)) r := by
      refine exists_halts_of_acyclic (R := fun a b => im.Reached a ∧ im.NextBlock a b) Prod.fst
        (fun st => im.Reached st.1) (fun addr hcycle => ?_) ⟨hstart, hsize, .refl⟩
        (fun st hst => ?_)
      · obtain ⟨b, ⟨haddr, hpasses, -⟩, -⟩ := TransGen.head'_iff.mp hcycle
        exact h addr haddr ⟨hpasses, Or.inr (TransGen.mono (fun _ _ hab => hab.2) _ _ hcycle)⟩
      · obtain ⟨addr, s⟩ := st
        by_cases hpasses : im.Passes addr
        · have hmax : (im.blockAt addr).blockSize ≠ 0xFFFFFFFF := fun hmax =>
            h addr hst ⟨hpasses, Or.inl hmax⟩
          obtain ⟨s', hcomputes, -⟩ := hpasses.next hmax s
          have hstep : im.NextBlock addr (addr + (im.blockAt addr).blockSize) := ⟨hpasses, rfl⟩
          exact Or.inr ⟨_, hcomputes, ⟨hst, hstep⟩, hreached hst (.single hstep)⟩
        · exact Or.inl (exit_of_not_passes hpasses s)
    obtain ⟨r, hr⟩ := hhalts
    refine ⟨r, ?_⟩
    rw [analyzeRelocationEntry_eq hstart hsize]
    exact hr.computes
  · exact terminates_of_no_section hsection

/-- **When the analysis ends**, for every image: exactly when the walk gets beyond every block it
comes to. -/
theorem terminates_iff_not_loopsBack (im : ImageInfo) :
    im.Terminates ↔ ∀ addr, im.Reached addr → ¬ im.LoopsBack addr :=
  ⟨fun hends _ hreached hloops => not_terminates_of_loopsBack hreached hloops hends,
    terminates_of_not_loopsBack⟩

/-! ## Images that leave room -/

/-- The image leaves eight bytes of the address space free. -/
def LeavesRoom (im : ImageInfo) : Prop := im.size.toNat + 8 ≤ 2 ^ 32

theorem isAddrMappedImp_iff {im : ImageInfo} {addr : U32} : im.isAddrMappedImp addr = true ↔
    im.address.toNat ≤ addr.toNat ∧ addr.toNat < (im.address + im.size).toNat := by
  simp only [isAddrMappedImp, Bool.and_eq_true, decide_eq_true_eq]
  exact Iff.rfl

/-- A step of at most eight bytes between two mapped addresses does not wrap. -/
theorem LeavesRoom.toNat_add {im : ImageInfo} (hroom : im.LeavesRoom) {a d : U32}
    (hd : d.toNat ≤ 8) (ha : im.isAddrMappedImp a = true)
    (had : im.isAddrMappedImp (a + d) = true) : (a + d).toNat = a.toNat + d.toNat := by
  obtain ⟨-, hlt⟩ := isAddrMappedImp_iff.mp ha
  obtain ⟨hle, -⟩ := isAddrMappedImp_iff.mp had
  unfold LeavesRoom at hroom
  bv_omega

/-- The words of a block that passes stand in order behind its header. -/
theorem Passes.toNat_word {im : ImageInfo} (hroom : im.LeavesRoom) {addr : U32}
    (h : im.Passes addr) (j : Nat) (hj : j < ((im.blockAt addr).blockSize.toNat + 1) / 2) :
    (addr + 8 + BitVec.ofNat 32 (2 * j)).toNat = addr.toNat + 8 + 2 * j := by
  have hmapped : ∀ i < ((im.blockAt addr).blockSize.toNat + 1) / 2,
      im.isAddrMappedImp (addr + 8 + BitVec.ofNat 32 (2 * i)) = true := fun i hi =>
    (h.words _ (mem_wordAddrs.mpr ⟨i, hi, rfl⟩)).1
  induction j with
  | zero =>
      have hfirst : addr + 8 + BitVec.ofNat 32 (2 * 0) = addr + 8 := by simp
      have h8 := hmapped 0 hj
      rw [hfirst] at h8 ⊢
      exact hroom.toNat_add (by decide) h.pageMapped h8
  | succ j ih =>
      have hnext : addr + 8 + BitVec.ofNat 32 (2 * (j + 1)) =
          addr + 8 + BitVec.ofNat 32 (2 * j) + 2 := by bv_omega
      have hlast := hmapped (j + 1) hj
      rw [hnext] at hlast ⊢
      rw [hroom.toNat_add (by decide) (hmapped j (by omega)) hlast, ih (by omega)]
      rfl

/-- **Progress.** A block that passes and has a length is followed by one behind it. -/
theorem Passes.progress {im : ImageInfo} (hroom : im.LeavesRoom) {addr : U32}
    (h : im.Passes addr) (hne : (im.blockAt addr).blockSize ≠ 0) :
    (addr + (im.blockAt addr).blockSize).toNat =
      addr.toNat + (im.blockAt addr).blockSize.toNat ∧
    (im.blockAt addr).blockSize ≠ 0xFFFFFFFF := by
  have hpos : 0 < (im.blockAt addr).blockSize.toNat := by
    refine Nat.pos_of_ne_zero fun hzero => hne (BitVec.eq_of_toNat_eq hzero)
  have hword := h.toNat_word hroom (((im.blockAt addr).blockSize.toNat + 1) / 2 - 1) (by omega)
  have hlt := (addr + 8 +
    BitVec.ofNat 32 (2 * (((im.blockAt addr).blockSize.toNat + 1) / 2 - 1))).isLt
  have hsum : addr.toNat + (im.blockAt addr).blockSize.toNat + 6 < 2 ^ 32 := by omega
  refine ⟨by bv_omega, fun hmax => ?_⟩
  rw [hmax] at hsum
  have : (0xFFFFFFFF : U32).toNat = 2 ^ 32 - 1 := rfl
  omega

/-- **The only obstacle** in an image that leaves room is a header with a page address and no
length. -/
theorem not_loopsBack_iff_blockSize_ne_zero {im : ImageInfo} (hroom : im.LeavesRoom) :
    (∀ addr, im.Reached addr → ¬ im.LoopsBack addr) ↔
      ∀ addr, im.Reached addr → im.Passes addr → (im.blockAt addr).blockSize ≠ 0 := by
  constructor
  · intro h addr hreached hpasses hzero
    refine h addr hreached ⟨hpasses, Or.inr (.single ⟨hpasses, ?_⟩)⟩
    rw [hzero]
    simp
  · rintro h addr hreached ⟨hpasses, hmax | hcycle⟩
    · exact (hpasses.progress hroom (h addr hreached hpasses)).2 hmax
    · have hmono : ∀ a, TransGen im.NextBlock addr a → im.Reached a ∧ addr.toNat < a.toNat := by
        intro a hwalk
        have hstep : ∀ b, im.Reached b → ∀ c, im.NextBlock b c →
            im.Reached c ∧ b.toNat < c.toNat := by
          rintro b hb c ⟨hpass, rfl⟩
          have hne := h b hb hpass
          obtain ⟨hsum, -⟩ := hpass.progress hroom hne
          refine ⟨⟨hb.1, hb.2.1, hb.2.2.tail ⟨hpass, rfl⟩⟩, ?_⟩
          have hpos : (im.blockAt b).blockSize.toNat ≠ 0 := fun hzero =>
            hne (BitVec.eq_of_toNat_eq hzero)
          omega
        induction hwalk with
        | single hab => exact hstep addr hreached _ hab
        | tail _ hbc ih =>
            obtain ⟨hb, hlt⟩ := ih
            obtain ⟨hc, hlt'⟩ := hstep _ hb _ hbc
            exact ⟨hc, by omega⟩
      exact absurd (hmono addr hcycle).2 (lt_irrefl _)

/-- **When the analysis ends.** For every image it ends exactly when the walk gets beyond every
block it comes to.  In an image that leaves eight bytes of the address space free that is so exactly
when no header it comes to, with every word of its block readable, has the length zero; a block with
another length is always followed by one behind it. -/
theorem analyzeRelocationEntry_terminates_iff (im : ImageInfo) :
    (im.Terminates ↔ ∀ addr, im.Reached addr → ¬ im.LoopsBack addr) ∧
    (im.LeavesRoom →
      (im.Terminates ↔
        ∀ addr, im.Reached addr → im.Passes addr → (im.blockAt addr).blockSize ≠ 0) ∧
      ∀ addr addr', im.NextBlock addr addr' →
        (addr < addr' ↔ (im.blockAt addr).blockSize ≠ 0)) := by
  refine ⟨terminates_iff_not_loopsBack im, fun hroom => ⟨?_, ?_⟩⟩
  · exact (terminates_iff_not_loopsBack im).trans (not_loopsBack_iff_blockSize_ne_zero hroom)
  · rintro addr _ ⟨hpasses, rfl⟩
    constructor
    · intro hlt hzero
      rw [hzero] at hlt
      exact absurd hlt (by simp)
    · intro hne
      obtain ⟨hsum, -⟩ := hpasses.progress hroom hne
      have hpos : (im.blockAt addr).blockSize.toNat ≠ 0 := fun hzero =>
        hne (BitVec.eq_of_toNat_eq hzero)
      rw [BitVec.lt_def]
      omega

section Samples

/-- The sample image with another relocation section: a header for page `0x1000` that gives no
length. -/
def lengthlessImage : ImageInfo :=
  { sampleImage with mem := fun a => if a = 0x13801 then 0x10 else 0 }

/-- The analysis of that image does not end. -/
theorem lengthless_not_terminates :
    lengthlessImage.LeavesRoom ∧ ¬ lengthlessImage.Terminates := by
  have hroom : lengthlessImage.LeavesRoom := by
    show (0x4000 : U32).toNat + 8 ≤ 2 ^ 32
    decide
  refine ⟨hroom, ?_⟩
  have hwords : lengthlessImage.wordAddrs 0x13800 = [] := by decide
  have hpasses : lengthlessImage.Passes 0x13800 := by
    refine ⟨by decide, by decide, by decide, by decide, ?_⟩
    rw [hwords]
    exact fun a ha => absurd ha List.not_mem_nil
  have hreached : lengthlessImage.Reached 0x13800 := by
    refine ⟨by decide, by decide, ?_⟩
    have hstart : lengthlessImage.relocSection.1 = 0x13800 := by decide
    rw [hstart]
  apply not_terminates_of_loopsBack hreached
  exact ⟨hpasses, Or.inr (.single ⟨hpasses, by decide⟩)⟩

theorem analyzeRelocationEntry_terminates_iff_sample : sampleImage.Terminates ↔
    ∀ addr, sampleImage.Reached addr → sampleImage.Passes addr →
      (sampleImage.blockAt addr).blockSize ≠ 0 := by
  have hroom : sampleImage.LeavesRoom := by
    show (0x4000 : U32).toNat + 8 ≤ 2 ^ 32
    decide
  exact ((analyzeRelocationEntry_terminates_iff sampleImage).2 hroom).1

end Samples

end ImageInfo

end PEReplay
