/-
# PEReplay.Sweeper.Split — what the split pass achieves.

The pass looks at neighbours in start order and shortens the first when both end at the same
address.  It never moves a start and it keeps the set of covered addresses, but it separates two
traces only when the end of the first is also the end of its successor.  `SplitsApart` says that of
every overlap; it is exactly the condition under which the traces are disjoint afterwards
(`disjoint_splitLoop_iff`).  Where decodes merge it holds (`splitPass_separates`), and then the
printed coverage counts every covered byte once (`countsOnce_splitPass_iff`).
-/
import PEReplay.Sweeper.Sweeper
import Mathlib.Order.Interval.Finset.Nat
import Mathlib.Data.Finset.Card

namespace PEReplay

/-! ## Covered bytes -/

namespace StaticTrace

/-- The trace ends below the top of the address space. -/
def NoWrap (t : StaticTrace) : Prop := t.start.toNat + t.size.toNat < 2 ^ 32

/-- The addresses a trace covers. -/
def bytes (t : StaticTrace) : Finset Nat :=
  Finset.Ico t.start.toNat (t.start.toNat + t.size.toNat)

theorem mem_bytes {t : StaticTrace} {a : Nat} :
    a ∈ t.bytes ↔ t.start.toNat ≤ a ∧ a < t.start.toNat + t.size.toNat := Finset.mem_Ico

theorem toNat_getEnd {t : StaticTrace} (h : t.NoWrap) :
    t.getEnd.toNat = t.start.toNat + t.size.toNat := by
  unfold NoWrap at h
  unfold getEnd
  bv_omega

/-- Of two traces in start order the bytes are disjoint when the second is empty or starts behind
the first. -/
theorem disjoint_bytes_iff {t u : StaticTrace} (h : t.start.toNat < u.start.toNat) :
    Disjoint t.bytes u.bytes ↔
      (0 < u.size.toNat → t.start.toNat + t.size.toNat ≤ u.start.toNat) := by
  rw [Finset.disjoint_left]
  constructor
  · intro hdisj hpos
    by_contra hlt
    refine hdisj (a := u.start.toNat) (mem_bytes.mpr ?_) (mem_bytes.mpr ?_)
    · omega
    · omega
  · intro hle a ha hb
    rw [mem_bytes] at ha hb
    have := hle (by omega)
    omega

end StaticTrace

/-- The addresses covered by a list of traces. -/
def bytesOf : List StaticTrace → Finset Nat
  | [] => ∅
  | t :: l => t.bytes ∪ bytesOf l

theorem mem_bytesOf {l : List StaticTrace} {a : Nat} : a ∈ bytesOf l ↔ ∃ t ∈ l, a ∈ t.bytes := by
  induction l with
  | nil => simp [bytesOf]
  | cons t l ih => rw [bytesOf, Finset.mem_union, ih, List.exists_mem_cons_iff]

/-- Traces that are disjoint cover as many bytes as their sizes add up to. -/
theorem card_bytesOf {l : List StaticTrace}
    (h : l.Pairwise fun t u => Disjoint t.bytes u.bytes) :
    (bytesOf l).card = (l.map fun t => t.size.toNat).sum := by
  induction h with
  | nil => rfl
  | @cons t l ht _ ih =>
      have hdisj : Disjoint t.bytes (bytesOf l) := by
        rw [Finset.disjoint_left]
        intro a ha hb
        obtain ⟨u, hu, hau⟩ := mem_bytesOf.mp hb
        exact Finset.disjoint_left.mp (ht u hu) ha hau
      rw [bytesOf, Finset.card_union_of_disjoint hdisj, ih, List.map_cons, List.sum_cons,
        StaticTrace.bytes, Nat.card_Ico]
      omega

namespace CodeSectionSweeper

/-! ## One pass over the neighbours -/

/-- Ascending starts. -/
abbrev Ascending (l : List StaticTrace) : Prop :=
  l.Pairwise fun t u => t.start.toNat < u.start.toNat

/-- The first trace of an ascending list starts first. -/
theorem Ascending.head_le {l : List StaticTrace} (h : Ascending l) {v u : StaticTrace}
    (hv : v ∈ l.head?) (hu : u ∈ l) : v.start.toNat ≤ u.start.toNat := by
  cases l with
  | nil => exact absurd hu List.not_mem_nil
  | cons w l =>
      obtain rfl : w = v := by simpa using hv
      rcases List.mem_cons.mp hu with rfl | hu
      · exact le_rfl
      · exact (List.rel_of_pairwise_cons h hu).le

/-- What the pass makes of a trace, given the one behind it. -/
def splitHead (t : StaticTrace) : List StaticTrace → StaticTrace
  | [] => t
  | u :: _ => if t.getEnd = u.getEnd then t.adjustEnd u.start else t

theorem splitHead_cons (t u : StaticTrace) (l : List StaticTrace) :
    splitHead t (u :: l) = if t.getEnd = u.getEnd then t.adjustEnd u.start else t := rfl

theorem splitLoop_cons (t : StaticTrace) (l : List StaticTrace) :
    splitLoop (t :: l) = splitHead t l :: splitLoop l := by
  cases l with
  | nil => rfl
  | cons u l => rfl

/-- A trace that is shortened ends where its successor starts, and its successor ends where it
did. -/
theorem splitHead_cases {t : StaticTrace} {l : List StaticTrace} (h : Ascending (t :: l))
    (hwrap : ∀ u ∈ t :: l, u.NoWrap) :
    (splitHead t l = t ∧ ∀ u ∈ l.head?, u.getEnd ≠ t.getEnd) ∨
      ∃ u ∈ l.head?, u.getEnd = t.getEnd ∧ (splitHead t l).start = t.start ∧
        (splitHead t l).size.toNat = u.start.toNat - t.start.toNat ∧
        u.start.toNat + u.size.toNat = t.start.toNat + t.size.toNat := by
  cases l with
  | nil => exact Or.inl ⟨rfl, fun u hu => by simp at hu⟩
  | cons u l =>
      have hlt : t.start.toNat < u.start.toNat :=
        List.rel_of_pairwise_cons h List.mem_cons_self
      rw [splitHead_cons]
      by_cases hend : t.getEnd = u.getEnd
      · refine Or.inr ⟨u, rfl, hend.symm, ?_, ?_, ?_⟩
        · rw [if_pos hend]
          rfl
        · rw [if_pos hend]
          show (u.start - t.start).toNat = _
          bv_omega
        · rw [← StaticTrace.toNat_getEnd (hwrap u (by simp)), ← hend,
            StaticTrace.toNat_getEnd (hwrap t (by simp))]
      · refine Or.inl ⟨if_neg hend, fun v hv => ?_⟩
        obtain rfl : u = v := by simpa using hv
        exact fun he => hend he.symm

/-- The pass keeps starts, keeps which traces are empty, and never moves an end up. -/
theorem splitLoop_forall₂ {l : List StaticTrace} (h : Ascending l)
    (hwrap : ∀ t ∈ l, t.NoWrap) :
    List.Forall₂ (fun t' t => t'.start = t.start ∧ t'.id = t.id ∧
      (0 < t'.size.toNat ↔ 0 < t.size.toNat) ∧ t'.size.toNat ≤ t.size.toNat) (splitLoop l) l := by
  induction l with
  | nil => exact List.Forall₂.nil
  | cons t l ih =>
      rw [splitLoop_cons]
      refine List.Forall₂.cons ?_ (ih h.of_cons fun u hu => hwrap u (List.mem_cons_of_mem _ hu))
      have hid : (splitHead t l).id = t.id := by
        cases l with
        | nil => rfl
        | cons u l =>
            rw [splitHead_cons]
            split_ifs
            · rfl
            · rfl
      obtain ⟨heq, -⟩ | ⟨u, hu, -, hstart, hsize, hends⟩ := splitHead_cases h hwrap
      · rw [heq]
        exact ⟨rfl, rfl, Iff.rfl, le_rfl⟩
      · have hlt : t.start.toNat < u.start.toNat :=
          List.rel_of_pairwise_cons h (List.mem_of_mem_head? hu)
        refine ⟨hstart, hid, ?_, ?_⟩
        · rw [hsize]
          omega
        · rw [hsize]
          omega

/-- A trace after the pass is a trace before it, with its start and its identity and no larger. -/
theorem exists_mem_of_mem_splitLoop {l : List StaticTrace} (h : Ascending l)
    (hwrap : ∀ t ∈ l, t.NoWrap) {t' : StaticTrace} (ht' : t' ∈ splitLoop l) :
    ∃ t ∈ l, t'.start = t.start ∧ t'.id = t.id ∧ t'.size.toNat ≤ t.size.toNat := by
  have hpairs := splitLoop_forall₂ h hwrap
  clear h hwrap
  generalize splitLoop l = l' at hpairs ht'
  induction hpairs with
  | nil => exact absurd ht' List.not_mem_nil
  | @cons u' u l' l hu _ ih =>
      rcases List.mem_cons.mp ht' with rfl | ht'
      · exact ⟨u, List.mem_cons_self, hu.1, hu.2.1, hu.2.2.2⟩
      · obtain ⟨t, ht, hspec⟩ := ih ht'
        exact ⟨t, List.mem_cons_of_mem _ ht, hspec⟩

/-! ## When the traces are disjoint afterwards -/

/-- Every nonempty trace that starts strictly inside another one meets a trace whose end its
successor shares. -/
def SplitsApart : List StaticTrace → Prop
  | [] => True
  | t :: l =>
      (∀ u ∈ l, 0 < u.size.toNat → u.start.toNat < t.start.toNat + t.size.toNat →
        ∃ v ∈ l.head?, v.getEnd = t.getEnd) ∧ SplitsApart l

/-- One trace is separated from all behind it. -/
theorem disjoint_splitHead_iff {t : StaticTrace} {l : List StaticTrace}
    (h : Ascending (t :: l)) (hwrap : ∀ u ∈ t :: l, u.NoWrap) :
    (∀ u' ∈ splitLoop l, Disjoint (splitHead t l).bytes u'.bytes) ↔
      ∀ u ∈ l, 0 < u.size.toNat → u.start.toNat < t.start.toNat + t.size.toNat →
        ∃ v ∈ l.head?, v.getEnd = t.getEnd := by
  have hafter : ∀ u ∈ l, t.start.toNat < u.start.toNat := fun u hu =>
    List.rel_of_pairwise_cons h hu
  have hpairs := splitLoop_forall₂ h.of_cons fun u hu => hwrap u (List.mem_cons_of_mem _ hu)
  have hstart : (splitHead t l).start = t.start := by
    obtain ⟨heq, -⟩ | ⟨_, -, -, hstart, -⟩ := splitHead_cases h hwrap
    · rw [heq]
    · exact hstart
  -- the traces behind are where they were, and as empty as they were
  have hbehind : (∀ u' ∈ splitLoop l, Disjoint (splitHead t l).bytes u'.bytes) ↔
      ∀ u ∈ l, 0 < u.size.toNat →
        t.start.toNat + (splitHead t l).size.toNat ≤ u.start.toNat := by
    have hone : ∀ u' u : StaticTrace, u'.start = u.start →
        (0 < u'.size.toNat ↔ 0 < u.size.toNat) → t.start.toNat < u.start.toNat →
        (Disjoint (splitHead t l).bytes u'.bytes ↔ (0 < u.size.toNat →
          t.start.toNat + (splitHead t l).size.toNat ≤ u.start.toNat)) := by
      intro u' u hs hpos hlt
      rw [StaticTrace.disjoint_bytes_iff (by rw [hstart, hs]; exact hlt), hpos, hstart, hs]
    clear h hwrap hstart
    generalize splitHead t l = t' at hone ⊢
    generalize splitLoop l = l' at hpairs ⊢
    induction hpairs with
    | nil => simp
    | @cons u' u l' l hu _ ih =>
        rw [List.forall_mem_cons, List.forall_mem_cons]
        exact and_congr (hone u' u hu.1 hu.2.2.1 (hafter u List.mem_cons_self))
          (ih fun v hv => hafter v (List.mem_cons_of_mem _ hv))
  rw [hbehind]
  obtain ⟨heq, hne⟩ | ⟨v, hv, hend, -, hsize, -⟩ := splitHead_cases h hwrap
  · -- not shortened: nothing that is not empty may start inside
    rw [heq]
    constructor
    · intro hle u hu hpos hlt
      exact absurd (hle u hu hpos) (by omega)
    · intro hshared u hu hpos
      by_contra hlt
      obtain ⟨v, hv, hend⟩ := hshared u hu hpos (by omega)
      exact hne v hv hend
  · -- shortened to the successor's start: nothing starts before that
    refine ⟨fun _ u hu hpos hlt => ⟨v, hv, hend⟩, fun _ u hu hpos => ?_⟩
    have hvt := hafter v (List.mem_of_mem_head? hv)
    have hvu : v.start.toNat ≤ u.start.toNat := Ascending.head_le h.of_cons hv hu
    rw [hsize]
    omega

/-- **When the split pass separates.** -/
theorem disjoint_splitLoop_iff {l : List StaticTrace} (h : Ascending l)
    (hwrap : ∀ t ∈ l, t.NoWrap) :
    (splitLoop l).Pairwise (fun t u => Disjoint t.bytes u.bytes) ↔ SplitsApart l := by
  induction l with
  | nil => exact ⟨fun _ => trivial, fun _ => List.Pairwise.nil⟩
  | cons t l ih =>
      rw [splitLoop_cons, List.pairwise_cons, disjoint_splitHead_iff h hwrap,
        ih h.of_cons fun u hu => hwrap u (List.mem_cons_of_mem _ hu)]
      rfl

/-- **The pass covers what was covered.** -/
theorem bytesOf_splitLoop {l : List StaticTrace} (h : Ascending l)
    (hwrap : ∀ t ∈ l, t.NoWrap) : bytesOf (splitLoop l) = bytesOf l := by
  induction l with
  | nil => rfl
  | cons t l ih =>
      rw [splitLoop_cons, bytesOf, bytesOf,
        ih h.of_cons fun u hu => hwrap u (List.mem_cons_of_mem _ hu)]
      obtain ⟨heq, -⟩ | ⟨u, hu, -, hstart, hsize, hends⟩ := splitHead_cases h hwrap
      · rw [heq]
      · -- what is cut off is covered by the successor
        have hlt := List.rel_of_pairwise_cons h (List.mem_of_mem_head? hu)
        have hmem := List.mem_of_mem_head? hu
        ext a
        simp only [Finset.mem_union, StaticTrace.mem_bytes, hstart, hsize]
        constructor
        · rintro (ha | ha)
          · exact Or.inl (by omega)
          · exact Or.inr ha
        · rintro (ha | ha)
          · by_cases hcut : a < u.start.toNat
            · exact Or.inl (by omega)
            · exact Or.inr (mem_bytesOf.mpr ⟨u, hmem, StaticTrace.mem_bytes.mpr (by omega)⟩)
          · exact Or.inr ha

/-- Decodes merge: a trace that starts inside another one ends where that one does. -/
def Merges (l : List StaticTrace) : Prop :=
  ∀ t ∈ l, ∀ u ∈ l, u ≠ t → u.start.toNat ∈ t.bytes → u.getEnd = t.getEnd

/-- Where decodes merge, the successor of a trace that is started into is started into as well. -/
theorem splitsApart_of_merges {l : List StaticTrace} (h : Ascending l) (hmerges : Merges l) :
    SplitsApart l := by
  induction l with
  | nil => trivial
  | cons t l ih =>
      have hrest : Merges l := fun v hv w hw =>
        hmerges v (List.mem_cons_of_mem _ hv) w (List.mem_cons_of_mem _ hw)
      refine ⟨fun u hu _ hlt => ?_, ih h.of_cons hrest⟩
      cases l with
      | nil => exact absurd hu List.not_mem_nil
      | cons v l =>
          have htv : t.start.toNat < v.start.toNat := List.rel_of_pairwise_cons h List.mem_cons_self
          have hvu : v.start.toNat ≤ u.start.toNat := Ascending.head_le h.of_cons rfl hu
          have hne : v ≠ t := fun heq => absurd htv (by rw [heq]; exact lt_irrefl _)
          have hin : v.start.toNat ∈ t.bytes := StaticTrace.mem_bytes.mpr (by omega)
          exact ⟨v, rfl, hmerges t List.mem_cons_self v
            (List.mem_cons_of_mem _ List.mem_cons_self) hne hin⟩

/-- **What the split pass keeps, and when it separates.**  It keeps the number of the traces, every
start and the covered addresses, and where decodes merge it leaves pairwise disjoint traces. -/
theorem splitPass_separates (s : CodeSectionSweeper) (hwrap : ∀ t ∈ s.traces, t.NoWrap) :
    s.splitPass.traces.elems.length = s.traces.elems.length ∧
    s.splitPass.traces.elems.map StaticTrace.start = s.traces.elems.map StaticTrace.start ∧
    bytesOf s.splitPass.traces.elems = bytesOf s.traces.elems ∧
    (Merges s.traces.elems →
      s.splitPass.traces.elems.Pairwise fun t u => Disjoint t.bytes u.bytes) := by
  have hsorted : Ascending s.traces.elems := s.traces.sorted_elems
  refine ⟨?_, s.starts_splitPass, bytesOf_splitLoop hsorted hwrap, fun hmerges => ?_⟩
  · have hlength := congrArg List.length s.starts_splitPass
    rwa [List.length_map, List.length_map] at hlength
  · exact (disjoint_splitLoop_iff hsorted hwrap).mpr (splitsApart_of_merges hsorted hmerges)

section Samples

/-- The code section of the sample. -/
def chainSection : CodeSection := ⟨0x1000, 8, by decide⟩

/-- Three traces that end at `0x1004`, each started into by the next. -/
def chainTraces : List StaticTrace :=
  [⟨0, 0x1000, 4, chainSection⟩, ⟨1, 0x1001, 3, chainSection⟩, ⟨2, 0x1003, 1, chainSection⟩]

/-- A sweeper with these traces. -/
def chainSweeper : CodeSectionSweeper :=
  { init chainSection with traces := ⟨chainTraces, by decide⟩ }

theorem splitPass_separates_sample :
    chainSweeper.splitPass.traces.elems.Pairwise fun t u => Disjoint t.bytes u.bytes := by
  have hwrap : ∀ t ∈ chainTraces, t.start.toNat + t.size.toNat < 2 ^ 32 := by decide
  have hmerges : ∀ t ∈ chainTraces, ∀ u ∈ chainTraces, u ≠ t →
      u.start.toNat ∈ Finset.Ico t.start.toNat (t.start.toNat + t.size.toNat) →
        u.getEnd = t.getEnd := by
    simp only [Finset.mem_Ico]
    decide
  exact (splitPass_separates chainSweeper hwrap).2.2.2 hmerges

end Samples

/-! ## Coverage -/

/-- The traces are pairwise disjoint, and the coverage that is printed counts every covered byte
once and is at most the size of the section. -/
structure CountsOnce (s : CodeSectionSweeper) : Prop where
  disjoint : s.traces.elems.Pairwise fun t u => Disjoint t.bytes u.bytes
  counts : s.staticTraceSize.toNat = (bytesOf s.traces.elems).card
  size_le : s.staticTraceSize.toNat ≤ s.codeSection.size.toNat

theorem toNat_foldl_size (l : List StaticTrace) (sum : U32) :
    (l.foldl (fun sum t => sum + t.size) sum).toNat =
      (sum.toNat + (l.map fun t => t.size.toNat).sum) % 2 ^ 32 := by
  induction l generalizing sum with
  | nil => exact (Nat.mod_eq_of_lt sum.isLt).symm
  | cons t l ih =>
      rw [List.foldl_cons, ih, List.map_cons, List.sum_cons, BitVec.toNat_add]
      omega

/-- Disjoint traces below the top of the address space are counted exactly. -/
theorem toNat_staticTraceSize {s : CodeSectionSweeper}
    (hdisj : s.traces.elems.Pairwise fun t u => Disjoint t.bytes u.bytes)
    (hwrap : ∀ t ∈ s.traces.elems, t.NoWrap) :
    s.staticTraceSize.toNat = (bytesOf s.traces.elems).card := by
  have hsub : bytesOf s.traces.elems ⊆ Finset.range (2 ^ 32 - 1) := by
    intro a ha
    obtain ⟨t, ht, hat⟩ := mem_bytesOf.mp ha
    have hend := hwrap t ht
    unfold StaticTrace.NoWrap at hend
    rw [StaticTrace.mem_bytes] at hat
    rw [Finset.mem_range]
    omega
  have hcard := Finset.card_le_card hsub
  rw [Finset.card_range] at hcard
  have hsum := card_bytesOf hdisj
  unfold staticTraceSize
  rw [toNat_foldl_size, ← hsum]
  show (0 + _) % 2 ^ 32 = _
  omega

theorem noWrap_splitLoop {l : List StaticTrace} (h : Ascending l) (hwrap : ∀ t ∈ l, t.NoWrap) :
    ∀ t ∈ splitLoop l, t.NoWrap := by
  intro t' ht'
  obtain ⟨t, ht, hstart, -, hsize⟩ := exists_mem_of_mem_splitLoop h hwrap ht'
  have htw := hwrap t ht
  unfold StaticTrace.NoWrap at htw ⊢
  rw [hstart]
  omega

/-- **When the coverage after the split pass is right**: every overlap ends where the successor
ends, and no more bytes are covered than the section has. -/
theorem countsOnce_splitPass_iff (s : CodeSectionSweeper) (hwrap : ∀ t ∈ s.traces, t.NoWrap) :
    s.splitPass.CountsOnce ↔ SplitsApart s.traces.elems ∧
      (bytesOf s.traces.elems).card ≤ s.codeSection.size.toNat := by
  have hsorted : Ascending s.traces.elems := s.traces.sorted_elems
  have hdisj := disjoint_splitLoop_iff hsorted hwrap
  have hbytes := bytesOf_splitLoop hsorted hwrap
  have hcount : s.splitPass.traces.elems.Pairwise (fun t u => Disjoint t.bytes u.bytes) →
      s.splitPass.staticTraceSize.toNat = (bytesOf s.traces.elems).card := by
    intro h
    rw [← hbytes]
    exact toNat_staticTraceSize h (noWrap_splitLoop hsorted hwrap)
  constructor
  · rintro ⟨hd, -, hle⟩
    rw [hcount hd] at hle
    exact ⟨hdisj.mp hd, hle⟩
  · rintro ⟨hsplits, hle⟩
    have hd := hdisj.mpr hsplits
    refine ⟨hd, ?_, ?_⟩
    · rw [hcount hd, ← hbytes]
      rfl
    · rw [hcount hd]
      exact hle

end CodeSectionSweeper

end PEReplay
