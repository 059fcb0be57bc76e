/-
# PEReplay.Image.Accesses — what `AnalyzeRelocationEntry` reads.

`SecureDereference<T>` compares the first byte of the access with the range of the image and then
reads `sizeof(T)` bytes.  Here the analysis goes from one dereference to the next, so that every
access is one of a `RelocPoint`, whether or not the analysis comes to an end; `steps_of_analysis`
ties this to the function.  `LooksAt` says which accesses these are, in terms of the blocks
(`exists_access_iff`), and `readsInside_iff` that all of them stay inside the image exactly when
none begins in the image's last bytes.
-/
import PEReplay.Image.Progress

namespace PEReplay

open Loop Relation

/-! ## Points -/

/-- Where the analysis stands: at the head of the loop over the blocks, before it reads the length
of a block, at the head of the loop over the entries, before it reads what an entry addresses, or at
its end. -/
inductive RelocPoint where
  | block (addr : U32) (s : RelocState)
  | length (addr base : U32) (s : RelocState)
  | entry (addr base len i : U32) (s : RelocState)
  | target (addr base len i : U32) (item : U16) (s : RelocState)
  | done (r : Except InsecureDereference RelocState)

/-- Where the analysis stands after a step that throws or yields a state. -/
def RelocPoint.orThrow (next : RelocState → RelocPoint) :
    Except InsecureDereference RelocState → RelocPoint
  | .error e => .done (.error e)
  | .ok s => next s

/-- Where it stands after a pass of the loop over the blocks. -/
def RelocPoint.afterPass :
    LoopStep (U32 × RelocState) (Except InsecureDereference RelocState) → RelocPoint
  | .next st => .block st.1 st.2
  | .exit r => .done r

namespace ImageInfo

/-- The dereference at a point: its address and `sizeof(T)`. -/
def access (im : ImageInfo) : RelocPoint → Option (U32 × Nat)
  | .block addr _ => if addr < im.sectionEnd then some (addr, 4) else none
  | .length addr _ _ => some (addr + 4, 4)
  | .entry addr _ len i _ => if i < len then some (addr + i + 8, 2) else none
  | .target _ base _ _ item _ => some (im.itemAddress base item, 4)
  | .done _ => none

/-- The analysis up to the next dereference. -/
def goOn (im : ImageInfo) : RelocPoint → RelocPoint
  | .block addr s =>
      if addr < im.sectionEnd then
        match im.secureDereference Memory.read32 addr with
        | .error e => .done (.error e)
        | .ok base => .length addr base s
      else .done (.ok s)
  | .length addr base s =>
      match im.secureDereference Memory.read32 (addr + 4) with
      | .error e => .done (.error e)
      | .ok len => if base = 0 ∧ len = 0 then .done (.ok s) else .entry addr base len 0 s
  | .entry addr base len i s =>
      if i < len then
        match im.secureDereference Memory.read16 (addr + i + 8) with
        | .error e => .done (.error e)
        | .ok item =>
          let s := { s with items := s.items ++ [addr + i + 8] }
          if isHighLow item then .target addr base len i item s
          else .entry addr base len (i + 2) s
      else .block (addr + len) s
  | .target addr base len i item s =>
      match im.secureDereference Memory.read32 (im.itemAddress base item) with
      | .error e => .done (.error e)
      | .ok target =>
        .entry addr base len (i + 2)
          (if im.isAddrWithinModule target then { s with targets := insert target s.targets }
            else s)
  | .done r => .done r

/-- Where the analysis begins. -/
def begin (im : ImageInfo) : RelocPoint :=
  if im.relocSection.1 ≠ 0 ∧ im.relocSection.2 ≠ 0 then .block im.relocSection.1 ⟨∅, []⟩
  else .done (.ok ⟨∅, []⟩)

/-- A sequence of steps. -/
abbrev GoesTo (im : ImageInfo) : RelocPoint → RelocPoint → Prop :=
  ReflTransGen fun p p' => im.goOn p = p'

/-! ## The function goes through these points -/

variable {im : ImageInfo}

/-- One entry: it throws, or the loop comes to the next one. -/
theorem goesTo_of_relocItem (im : ImageInfo) (addr base : U32) {len i : U32} (s : RelocState)
    (hi : i < len) :
    im.GoesTo (.entry addr base len i s)
      (.orThrow (.entry addr base len (i + 2)) (im.relocItem base (addr + i + 8) s)) := by
  unfold relocItem
  cases hitem : im.secureDereference Memory.read16 (addr + i + 8) with
  | error e =>
      refine .single ?_
      simp only [goOn, if_pos hi, hitem]
      rfl
  | ok item =>
      simp only [bind, Except.bind]
      by_cases hhigh : isHighLow item = true
      · have hgo : im.goOn (.entry addr base len i s) = .target addr base len i item
            { s with items := s.items ++ [addr + i + 8] } := by
          simp only [goOn, if_pos hi, hitem, if_pos hhigh]
        refine .head hgo (.single ?_)
        simp only [goOn, if_pos hhigh]
        cases im.secureDereference Memory.read32 (im.itemAddress base item) with
        | error e => rfl
        | ok target =>
            dsimp only
            split_ifs
            · rfl
            · rfl
      · refine .single ?_
        simp only [goOn, if_pos hi, hitem, if_neg hhigh]
        rfl

/-- The loop over the entries. -/
theorem goesTo_of_forLoop {addr base len : U32} {n : Nat} {s : RelocState}
    {r : Except InsecureDereference RelocState}
    (h : whileLoop (im.forBody addr base len) n (0, s) = some r) :
    im.GoesTo (.entry addr base len 0 s) (.orThrow (.block (addr + len)) r) := by
  have hpass : ∀ st st', im.forBody addr base len st = some (.next st') →
      im.GoesTo (.entry addr base len st.1 st.2) (.entry addr base len st'.1 st'.2) := by
    rintro ⟨i, s₁⟩ st' hbody
    unfold forBody at hbody
    dsimp only at hbody
    split_ifs at hbody with hi
    · have hstep := goesTo_of_relocItem im addr base s₁ hi
      cases hitem : im.relocItem base (addr + i + 8) s₁ with
      | error e =>
          rw [hitem] at hbody
          exact absurd hbody (by simp)
      | ok s₂ =>
          rw [hitem] at hbody hstep
          rw [← LoopStep.next.inj (Option.some.inj hbody)]
          exact hstep
    · exact absurd hbody (by simp)
  obtain ⟨⟨i, s₁⟩, hsteps, hexit⟩ := whileLoop_path
    (fun st : U32 × RelocState => RelocPoint.entry addr base len st.1 st.2) hpass h
  unfold forBody at hexit
  dsimp only at hexit
  split_ifs at hexit with hi
  · have hstep := goesTo_of_relocItem im addr base s₁ hi
    cases hitem : im.relocItem base (addr + i + 8) s₁ with
    | error e =>
        rw [hitem] at hexit hstep
        rw [← LoopStep.exit.inj (Option.some.inj hexit)]
        exact hsteps.trans hstep
    | ok s₂ =>
        rw [hitem] at hexit
        exact absurd hexit (by simp)
  · rw [← LoopStep.exit.inj (Option.some.inj hexit)]
    refine hsteps.tail ?_
    simp only [goOn, if_neg hi]
    rfl

/-- One pass of the loop over the blocks. -/
theorem goesTo_of_whileBody {addr : U32} {n : Nat} {s : RelocState}
    {r : LoopStep (U32 × RelocState) (Except InsecureDereference RelocState)}
    (h : im.whileBody n im.sectionEnd (addr, s) = some r) :
    im.GoesTo (.block addr s) (.afterPass r) := by
  unfold whileBody at h
  dsimp only at h
  split_ifs at h with hbelow
  · cases hbase : im.secureDereference Memory.read32 addr with
    | error e =>
        rw [hbase] at h
        rw [← Option.some.inj h]
        refine .single ?_
        simp only [goOn, if_pos hbelow, hbase]
        rfl
    | ok base =>
        rw [hbase] at h
        have hfirst : im.goOn (.block addr s) = .length addr base s := by
          simp only [goOn, if_pos hbelow, hbase]
        dsimp only at h
        cases hlen : im.secureDereference Memory.read32 (addr + 4) with
        | error e =>
            rw [hlen] at h
            rw [← Option.some.inj h]
            refine .head hfirst (.single ?_)
            simp only [goOn, hlen]
            rfl
        | ok len =>
            rw [hlen] at h
            dsimp only at h
            by_cases hlast : base = 0 ∧ len = 0
            · rw [if_pos hlast] at h
              rw [← Option.some.inj h]
              refine .head hfirst (.single ?_)
              simp only [goOn, hlen, if_pos hlast]
              rfl
            · rw [if_neg hlast] at h
              have hsecond : im.goOn (.length addr base s) = .entry addr base len 0 s := by
                simp only [goOn, hlen, if_neg hlast]
              refine .head hfirst (.head hsecond ?_)
              cases hloop : whileLoop (im.forBody addr base len) n (0, s) with
              | none =>
                  rw [hloop] at h
                  exact absurd h (by simp)
              | some r' =>
                  rw [hloop] at h
                  have hentries := goesTo_of_forLoop hloop
                  cases r' with
                  | error e =>
                      rw [← Option.some.inj h]
                      exact hentries
                  | ok s' =>
                      rw [← Option.some.inj h]
                      exact hentries
  · rw [← Option.some.inj h]
    refine .single ?_
    simp only [goOn, if_neg hbelow]
    rfl

/-- **The analysis is a sequence of these steps.** -/
theorem steps_of_analysis {n : Nat} {r : Except InsecureDereference RelocState}
    (h : im.analyzeRelocationEntry n = some r) : im.GoesTo im.begin (.done r) := by
  unfold begin
  by_cases hsection : im.relocSection.1 ≠ 0 ∧ im.relocSection.2 ≠ 0
  · rw [if_pos hsection]
    simp only [analyzeRelocationEntry_eq hsection.1 hsection.2] at h
    obtain ⟨⟨addr, s⟩, hsteps, hexit⟩ := whileLoop_path
      (fun st : U32 × RelocState => RelocPoint.block st.1 st.2)
      (fun st st' hbody => goesTo_of_whileBody hbody) h
    exact hsteps.trans (goesTo_of_whileBody hexit)
  · rw [if_neg hsection]
    unfold analyzeRelocationEntry at h
    simp only [if_neg hsection] at h
    rw [← Option.some.inj h]

/-! ## Which dereferences these are -/

/-- The blocks the analysis comes to.  From a block of the length `0xFFFFFFFF` it goes on nowhere:
the index of the loop over the entries wraps before it gets there. -/
inductive ComesTo (im : ImageInfo) : U32 → Prop where
  | first : im.relocSection.1 ≠ 0 → im.relocSection.2 ≠ 0 → ComesTo im im.relocSection.1
  | next {addr : U32} : ComesTo im addr → im.Passes addr →
      (im.blockAt addr).blockSize ≠ 0xFFFFFFFF → ComesTo im (addr + (im.blockAt addr).blockSize)

/-- The analysis comes to a block and reads its header, and the header is not the last. -/
structure ReadsEntries (im : ImageInfo) (addr : U32) : Prop where
  comes : im.ComesTo addr
  below : addr < im.sectionEnd
  pageMapped : im.isAddrMappedImp addr = true
  sizeMapped : im.isAddrMappedImp (addr + 4) = true
  header : ¬ ((im.blockAt addr).pageRva = 0 ∧ (im.blockAt addr).blockSize = 0)

/-- The address of the word with number `j` behind the header. -/
def wordAt (addr : U32) (j : Nat) : U32 := addr + 8 + BitVec.ofNat 32 (2 * j)

/-- The analysis comes to the word with number `j` of a block. -/
structure ReadsWord (im : ImageInfo) (addr : U32) (j : Nat) : Prop where
  entries : im.ReadsEntries addr
  lt : j < ((im.blockAt addr).blockSize.toNat + 1) / 2
  before : ∀ k < j, im.Readable (im.blockAt addr).pageRva (wordAt addr k)

/-- **What the analysis looks at**, and how many bytes of it: the two words of a header, the words
behind it, and what those of type 3 address. -/
inductive LooksAt (im : ImageInfo) : U32 → Nat → Prop where
  | pageRva {addr : U32} : im.ComesTo addr → addr < im.sectionEnd → LooksAt im addr 4
  | blockSize {addr : U32} : im.ComesTo addr → addr < im.sectionEnd →
      im.isAddrMappedImp addr = true → LooksAt im (addr + 4) 4
  | entry {addr : U32} {j : Nat} : im.ReadsWord addr j → LooksAt im (wordAt addr j) 2
  | target {addr : U32} {j : Nat} : im.ReadsWord addr j →
      im.isAddrMappedImp (wordAt addr j) = true → im.IsHighLowAt (wordAt addr j) →
      LooksAt im (im.entryTargetAddress (im.blockAt addr).pageRva (wordAt addr j)) 4

theorem secureDereference_of_mapped {T : Type} {addr : U32}
    (h : im.isAddrMappedImp addr = true) (read : Memory → U32 → T) :
    im.secureDereference read addr = .ok (read im.mem addr) := if_pos h

theorem secureDereference_of_not_mapped {T : Type} {addr : U32}
    (h : ¬ im.isAddrMappedImp addr = true) (read : Memory → U32 → T) :
    im.secureDereference read addr = .error ⟨addr⟩ := if_neg h

/-! ### Every dereference is one of these -/

/-- The index `i` stands at a word that the analysis comes to when `i` is below the length. -/
structure AtIndex (im : ImageInfo) (addr base len i : U32) : Prop where
  entries : im.ReadsEntries addr
  base : base = (im.blockAt addr).pageRva
  len : len = (im.blockAt addr).blockSize
  even : i.toNat % 2 = 0
  before : ∀ k, 2 * k < i.toNat → im.Readable (im.blockAt addr).pageRva (wordAt addr k)

/-- What holds of the variables at a point. -/
def SoundAt (im : ImageInfo) : RelocPoint → Prop
  | .block addr _ => im.ComesTo addr
  | .length addr base _ => im.ComesTo addr ∧ addr < im.sectionEnd ∧
      im.isAddrMappedImp addr = true ∧ base = (im.blockAt addr).pageRva
  | .entry addr base len i _ => im.AtIndex addr base len i
  | .target addr base len i item _ => im.AtIndex addr base len i ∧ i < len ∧
      im.isAddrMappedImp (addr + i + 8) = true ∧ item = im.mem.read16 (addr + i + 8) ∧
      isHighLow item = true
  | .done _ => True

theorem wordAt_half {addr i : U32} (heven : i.toNat % 2 = 0) :
    wordAt addr (i.toNat / 2) = addr + i + 8 := by
  have hdouble : 2 * (i.toNat / 2) = i.toNat := by omega
  unfold wordAt
  rw [hdouble]
  bv_omega

theorem AtIndex.readsWord {addr base len i : U32} (h : im.AtIndex addr base len i) (hi : i < len) :
    im.ReadsWord addr (i.toNat / 2) := by
  have heven := h.even
  have hlt : i.toNat < (im.blockAt addr).blockSize.toNat := by
    rw [← h.len]
    exact hi
  exact ⟨h.entries, by omega, fun k hk => h.before k (by omega)⟩

/-- The loop over the entries goes on behind a word that does not throw. -/
theorem AtIndex.next {addr base len i : U32} (h : im.AtIndex addr base len i)
    (hread : im.Readable base (addr + i + 8)) : im.AtIndex addr base len (i + 2) := by
  have heven := h.even
  refine ⟨h.entries, h.base, h.len, by bv_omega, fun k hk => ?_⟩
  by_cases hbefore : 2 * k < i.toNat
  · exact h.before k hbefore
  · obtain rfl : k = i.toNat / 2 := by bv_omega
    rw [wordAt_half heven, ← h.base]
    exact hread

/-- Behind its last word the block has passed. -/
theorem AtIndex.passes {addr base len i : U32} (h : im.AtIndex addr base len i)
    (hi : ¬ i < len) : im.Passes addr ∧ (im.blockAt addr).blockSize ≠ 0xFFFFFFFF := by
  obtain ⟨hentries, -, rfl, heven, hbefore⟩ := h
  have hle : (im.blockAt addr).blockSize.toNat ≤ i.toNat := BitVec.not_lt.mp hi
  refine ⟨⟨hentries.below, hentries.pageMapped, hentries.sizeMapped, hentries.header, ?_⟩, ?_⟩
  · intro a ha
    obtain ⟨j, hj, rfl⟩ := mem_wordAddrs.mp ha
    exact hbefore j (by omega)
  · intro hmax
    have hmax' : (im.blockAt addr).blockSize.toNat = 2 ^ 32 - 1 := congrArg BitVec.toNat hmax
    have := i.isLt
    omega

theorem soundAt_begin : im.SoundAt im.begin := by
  unfold begin
  split_ifs with hsection
  · exact .first hsection.1 hsection.2
  · trivial

/-- **Step.** -/
theorem SoundAt.goOn {p : RelocPoint} (h : im.SoundAt p) : im.SoundAt (im.goOn p) := by
  cases p with
  | block addr s =>
      simp only [ImageInfo.goOn]
      split_ifs with hbelow
      · by_cases hmapped : im.isAddrMappedImp addr = true
        · rw [secureDereference_of_mapped hmapped]
          exact ⟨h, hbelow, hmapped, rfl⟩
        · rw [secureDereference_of_not_mapped hmapped]
          trivial
      · trivial
  | length addr base s =>
      obtain ⟨hcomes, hbelow, hpage, hbase⟩ := h
      simp only [ImageInfo.goOn]
      by_cases hmapped : im.isAddrMappedImp (addr + 4) = true
      · rw [secureDereference_of_mapped hmapped]
        dsimp only
        split_ifs with hlast
        · trivial
        · rw [hbase] at hlast
          exact ⟨⟨hcomes, hbelow, hpage, hmapped, hlast⟩, hbase, rfl, rfl,
            fun k hk => absurd hk (Nat.not_lt_zero _)⟩
      · rw [secureDereference_of_not_mapped hmapped]
        trivial
  | entry addr base len i s =>
      simp only [ImageInfo.goOn]
      split_ifs with hi
      · by_cases hmapped : im.isAddrMappedImp (addr + i + 8) = true
        · rw [secureDereference_of_mapped hmapped]
          dsimp only
          split_ifs with hhigh
          · exact ⟨h, hi, hmapped, rfl, hhigh⟩
          · exact h.next ⟨hmapped, fun hhigh' => absurd hhigh' hhigh⟩
        · rw [secureDereference_of_not_mapped hmapped]
          trivial
      · obtain ⟨hpasses, hmax⟩ := h.passes hi
        rw [h.len]
        exact .next h.entries.comes hpasses hmax
  | target addr base len i item s =>
      obtain ⟨hat, -, hmapped, rfl, -⟩ := h
      simp only [ImageInfo.goOn]
      by_cases htarget :
          im.isAddrMappedImp (im.itemAddress base (im.mem.read16 (addr + i + 8))) = true
      · rw [secureDereference_of_mapped htarget]
        exact hat.next ⟨hmapped, fun _ => htarget⟩
      · rw [secureDereference_of_not_mapped htarget]
        trivial
  | done r => trivial

/-- **Run.** -/
theorem SoundAt.goesTo {p p' : RelocPoint} (h : im.SoundAt p) (hgoes : im.GoesTo p p') :
    im.SoundAt p' := by
  induction hgoes with
  | refl => exact h
  | tail _ hstep ih =>
      rw [← hstep]
      exact ih.goOn

theorem SoundAt.looksAt {p : RelocPoint} (h : im.SoundAt p) {a : U32} {width : Nat}
    (haccess : im.access p = some (a, width)) : im.LooksAt a width := by
  cases p with
  | block addr s =>
      simp only [access] at haccess
      split_ifs at haccess with hbelow
      obtain ⟨rfl, rfl⟩ := Prod.mk.inj (Option.some.inj haccess)
      exact .pageRva h hbelow
  | length addr base s =>
      obtain ⟨rfl, rfl⟩ := Prod.mk.inj (Option.some.inj haccess)
      exact .blockSize h.1 h.2.1 h.2.2.1
  | entry addr base len i s =>
      simp only [access] at haccess
      split_ifs at haccess with hi
      obtain ⟨rfl, rfl⟩ := Prod.mk.inj (Option.some.inj haccess)
      rw [← wordAt_half h.even]
      exact .entry (h.readsWord hi)
  | target addr base len i item s =>
      obtain ⟨hat, hi, hmapped, rfl, hhigh⟩ := h
      obtain ⟨rfl, rfl⟩ := Prod.mk.inj (Option.some.inj haccess)
      rw [← wordAt_half hat.even] at hmapped hhigh ⊢
      rw [hat.base]
      exact .target (hat.readsWord hi) hmapped hhigh
  | done r => exact absurd haccess (by simp [access])

/-! ### Each of these is a dereference -/

theorem ComesTo.visited {addr : U32} (h : im.ComesTo addr) :
    ∃ s, im.GoesTo im.begin (.block addr s) := by
  induction h with
  | first hstart hsize =>
      refine ⟨⟨∅, []⟩, ?_⟩
      rw [begin, if_pos ⟨hstart, hsize⟩]
  | @next addr _ hpasses hmax ih =>
      obtain ⟨s, hsteps⟩ := ih
      obtain ⟨s', ⟨N, hN⟩, -⟩ := hpasses.next hmax s
      exact ⟨s', hsteps.trans (goesTo_of_whileBody (hN N le_rfl))⟩

theorem ReadsEntries.visited {addr : U32} (h : im.ReadsEntries addr) : ∃ s,
    im.GoesTo im.begin (.entry addr (im.blockAt addr).pageRva (im.blockAt addr).blockSize 0 s) := by
  obtain ⟨s, hsteps⟩ := h.comes.visited
  have hfirst : im.goOn (.block addr s) = .length addr (im.blockAt addr).pageRva s := by
    simp only [goOn, if_pos h.below, secureDereference_of_mapped h.pageMapped]
    rfl
  have hsecond : im.goOn (.length addr (im.blockAt addr).pageRva s) =
      .entry addr (im.blockAt addr).pageRva (im.blockAt addr).blockSize 0 s := by
    simp only [goOn, secureDereference_of_mapped h.sizeMapped]
    exact if_neg h.header
  exact ⟨s, (hsteps.tail hfirst).tail hsecond⟩

/-- The index of a word is below the length of its block. -/
theorem ReadsWord.index_lt {addr : U32} {j : Nat} (h : im.ReadsWord addr j) :
    BitVec.ofNat 32 (2 * j) < (im.blockAt addr).blockSize := by
  have hlt := h.lt
  have := (im.blockAt addr).blockSize.isLt
  show (BitVec.ofNat 32 (2 * j)).toNat < _
  rw [BitVec.toNat_ofNat, Nat.mod_eq_of_lt (by omega)]
  omega

theorem wordAt_eq (addr : U32) (j : Nat) : wordAt addr j = addr + BitVec.ofNat 32 (2 * j) + 8 := by
  unfold wordAt
  bv_omega

theorem ReadsWord.visited {addr : U32} {j : Nat} (h : im.ReadsWord addr j) : ∃ s,
    im.GoesTo im.begin (.entry addr (im.blockAt addr).pageRva (im.blockAt addr).blockSize
      (BitVec.ofNat 32 (2 * j)) s) := by
  induction j with
  | zero => exact h.entries.visited
  | succ j ih =>
      have hword : im.ReadsWord addr j :=
        ⟨h.entries, Nat.lt_of_succ_lt h.lt, fun k hk => h.before k (Nat.lt_succ_of_lt hk)⟩
      obtain ⟨s, hsteps⟩ := ih hword
      have hread := h.before j (Nat.lt_succ_self j)
      rw [wordAt_eq] at hread
      have hitem := (relocItem_eq_ok im _ _ s _).mpr ⟨hread, rfl⟩
      have hpass := goesTo_of_relocItem im addr (im.blockAt addr).pageRva s hword.index_lt
      rw [hitem] at hpass
      have hindex : BitVec.ofNat 32 (2 * (j + 1)) = BitVec.ofNat 32 (2 * j) + 2 := by bv_omega
      rw [hindex]
      exact ⟨_, hsteps.trans hpass⟩

/-- **The dereferences of the analysis are those of what it looks at.** -/
theorem exists_access_iff (im : ImageInfo) (a : U32) (width : Nat) :
    (∃ p, im.GoesTo im.begin p ∧ im.access p = some (a, width)) ↔ im.LooksAt a width := by
  constructor
  · rintro ⟨p, hsteps, haccess⟩
    exact (soundAt_begin.goesTo hsteps).looksAt haccess
  · intro hlooks
    cases hlooks with
    | @pageRva addr hcomes hbelow =>
        obtain ⟨s, hsteps⟩ := hcomes.visited
        exact ⟨_, hsteps, if_pos hbelow⟩
    | @blockSize addr hcomes hbelow hmapped =>
        obtain ⟨s, hsteps⟩ := hcomes.visited
        have hgo : im.goOn (.block addr s) = .length addr (im.blockAt addr).pageRva s := by
          simp only [goOn, if_pos hbelow, secureDereference_of_mapped hmapped]
          rfl
        exact ⟨_, hsteps.tail hgo, rfl⟩
    | @entry addr j hword =>
        obtain ⟨s, hsteps⟩ := hword.visited
        refine ⟨_, hsteps, ?_⟩
        rw [wordAt_eq]
        exact if_pos hword.index_lt
    | @target addr j hword hmapped hhigh =>
        obtain ⟨s, hsteps⟩ := hword.visited
        rw [wordAt_eq] at hmapped hhigh ⊢
        have hgo : im.goOn (.entry addr (im.blockAt addr).pageRva (im.blockAt addr).blockSize
            (BitVec.ofNat 32 (2 * j)) s) = .target addr (im.blockAt addr).pageRva
            (im.blockAt addr).blockSize (BitVec.ofNat 32 (2 * j))
            (im.mem.read16 (addr + BitVec.ofNat 32 (2 * j) + 8))
            { s with items := s.items ++ [addr + BitVec.ofNat 32 (2 * j) + 8] } := by
          simp only [goOn, if_pos hword.index_lt, secureDereference_of_mapped hmapped]
          exact if_pos hhigh
        exact ⟨_, hsteps.tail hgo, rfl⟩

/-! ## When every read stays inside -/

/-- All `width` bytes from `addr` on lie in `[m_address, m_address + m_size)`. -/
def Covers (im : ImageInfo) (addr : U32) (width : Nat) : Prop :=
  im.address.toNat ≤ addr.toNat ∧ addr.toNat + width ≤ im.address.toNat + im.size.toNat

/-- A dereference of the analysis throws when not all of its bytes are inside the image. -/
def ReadsInside (im : ImageInfo) : Prop :=
  ∀ p, im.GoesTo im.begin p → ∀ a width, im.access p = some (a, width) →
    ¬ im.Covers a width → im.goOn p = .done (.error ⟨a⟩)

/-- `width` bytes that begin inside the image and end behind it. -/
def Straddles (im : ImageInfo) (addr : U32) (width : Nat) : Prop :=
  im.isAddrMappedImp addr = true ∧
    im.address.toNat + im.size.toNat < addr.toNat + width

instance (im : ImageInfo) (addr : U32) (width : Nat) : Decidable (im.Covers addr width) :=
  inferInstanceAs (Decidable (_ ∧ _))

instance (im : ImageInfo) (addr : U32) (width : Nat) : Decidable (im.Straddles addr width) :=
  inferInstanceAs (Decidable (_ ∧ _))

/-- An access that begins inside the image does not throw, -/
theorem goOn_ne_of_mapped {p : RelocPoint} {a : U32} {width : Nat}
    (haccess : im.access p = some (a, width)) (hmapped : im.isAddrMappedImp a = true) :
    im.goOn p ≠ .done (.error ⟨a⟩) := by
  intro hthrows
  cases p with
  | block addr s =>
      simp only [access] at haccess
      split_ifs at haccess with hbelow
      obtain ⟨rfl, -⟩ := Prod.mk.inj (Option.some.inj haccess)
      simp only [goOn, if_pos hbelow, secureDereference_of_mapped hmapped] at hthrows
      exact absurd hthrows (by simp)
  | length addr base s =>
      obtain ⟨rfl, -⟩ := Prod.mk.inj (Option.some.inj haccess)
      simp only [goOn, secureDereference_of_mapped hmapped] at hthrows
      split_ifs at hthrows
      exact absurd hthrows (by simp)
  | entry addr base len i s =>
      simp only [access] at haccess
      split_ifs at haccess with hi
      obtain ⟨rfl, -⟩ := Prod.mk.inj (Option.some.inj haccess)
      simp only [goOn, if_pos hi, secureDereference_of_mapped hmapped] at hthrows
      split_ifs at hthrows
  | target addr base len i item s =>
      obtain ⟨rfl, -⟩ := Prod.mk.inj (Option.some.inj haccess)
      simp only [goOn, secureDereference_of_mapped hmapped] at hthrows
      exact absurd hthrows (by simp)
  | done r => exact absurd haccess (by simp [access])

/-- and one that begins outside does. -/
theorem goOn_of_not_mapped {p : RelocPoint} {a : U32} {width : Nat}
    (haccess : im.access p = some (a, width)) (hmapped : ¬ im.isAddrMappedImp a = true) :
    im.goOn p = .done (.error ⟨a⟩) := by
  cases p with
  | block addr s =>
      simp only [access] at haccess
      split_ifs at haccess with hbelow
      obtain ⟨rfl, -⟩ := Prod.mk.inj (Option.some.inj haccess)
      simp only [goOn, if_pos hbelow, secureDereference_of_not_mapped hmapped]
  | length addr base s =>
      obtain ⟨rfl, -⟩ := Prod.mk.inj (Option.some.inj haccess)
      simp only [goOn, secureDereference_of_not_mapped hmapped]
  | entry addr base len i s =>
      simp only [access] at haccess
      split_ifs at haccess with hi
      obtain ⟨rfl, -⟩ := Prod.mk.inj (Option.some.inj haccess)
      simp only [goOn, if_pos hi, secureDereference_of_not_mapped hmapped]
  | target addr base len i item s =>
      obtain ⟨rfl, -⟩ := Prod.mk.inj (Option.some.inj haccess)
      simp only [goOn, secureDereference_of_not_mapped hmapped]
  | done r => exact absurd haccess (by simp [access])

/-- **What `SecureDereference` checks** is the first byte. -/
theorem throws_iff {p : RelocPoint} {a : U32} {width : Nat}
    (haccess : im.access p = some (a, width)) :
    im.goOn p = .done (.error ⟨a⟩) ↔ ¬ im.isAddrMappedImp a = true :=
  ⟨fun hthrows hmapped => goOn_ne_of_mapped haccess hmapped hthrows, goOn_of_not_mapped haccess⟩

/-- An image whose range wraps has no address inside. -/
theorem covers_iff_of_mapped {a : U32} (hmapped : im.isAddrMappedImp a = true) (width : Nat) :
    im.Covers a width ↔ ¬ im.Straddles a width := by
  have hle := (isAddrMappedImp_iff.mp hmapped).1
  unfold Covers Straddles
  constructor
  · rintro ⟨-, hend⟩ ⟨-, hlt⟩
    omega
  · intro hnot
    have hend : ¬ im.address.toNat + im.size.toNat < a.toNat + width := fun hlt =>
      hnot ⟨hmapped, hlt⟩
    exact ⟨hle, by omega⟩

/-- **When every byte read is inside the image**: exactly when nothing the analysis looks at begins
inside the image and ends behind it. -/
theorem readsInside_iff (im : ImageInfo) :
    im.ReadsInside ↔ ∀ a width, im.LooksAt a width → ¬ im.Straddles a width := by
  constructor
  · intro hinside a width hlooks hstraddles
    obtain ⟨p, hsteps, haccess⟩ := (exists_access_iff im a width).mpr hlooks
    have hnot : ¬ im.Covers a width := fun hcovers =>
      (covers_iff_of_mapped hstraddles.1 width).mp hcovers hstraddles
    exact (throws_iff haccess).mp (hinside p hsteps a width haccess hnot) hstraddles.1
  · intro hnone p hsteps a width haccess hnot
    refine (throws_iff haccess).mpr fun hmapped => ?_
    have hlooks := (exists_access_iff im a width).mp ⟨p, hsteps, haccess⟩
    exact hnot ((covers_iff_of_mapped hmapped width).mpr (hnone a width hlooks))

section Samples

/-- Two pages at `0x10000`; the `.reloc` section at `0x11000` is one block for the page at offset
`0x1000`, with an entry of type 3 for its byte `0xFFE`, and one of type 0. -/
def lastWordImage : ImageInfo where
  address := 0x10000
  size := 0x2000
  sections := [⟨['.', 'r', 'e', 'l', 'o', 'c'], 0x11000, 12⟩]
  mem := fun a =>
    if a = 0x11001 then 0x10
    else if a = 0x11004 then 12
    else if a = 0x11008 then 0xFE
    else if a = 0x11009 then 0x3F
    else 0

/-- The entry addresses the last two bytes of the image, and four bytes are read. -/
theorem reads_behind_image : ¬ lastWordImage.ReadsInside := by
  intro hinside
  have hentries : lastWordImage.ReadsEntries 0x11000 :=
    ⟨.first (by decide) (by decide), by decide, by decide, by decide, by decide⟩
  have hword : lastWordImage.ReadsWord 0x11000 0 :=
    ⟨hentries, by decide, fun k hk => absurd hk (Nat.not_lt_zero k)⟩
  have hlooks : lastWordImage.LooksAt 0x11FFE 4 := .target hword (by decide) (by decide)
  obtain ⟨p, hsteps, haccess⟩ := (exists_access_iff lastWordImage 0x11FFE 4).mpr hlooks
  have hthrows := hinside p hsteps 0x11FFE 4 haccess (by decide)
  exact (throws_iff haccess).mp hthrows (by decide)

end Samples

end ImageInfo

end PEReplay
