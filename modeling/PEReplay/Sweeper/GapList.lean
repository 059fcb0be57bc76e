/-
# PEReplay.Sweeper.GapList — the gaps that `spotGaps` lists.

The loop over the traces merges touching traces into ranges, and the loop over the ranges lists the
gaps around them.  The range that is current when the first loop ends is never saved, so the last
gap runs over it.  `exactGaps_iff` says when the list is the complement of the traces all the same:
when that range is a single empty trace, and no empty trace before it starts inside another one.
-/
import PEReplay.Sweeper.Bounds
import PEReplay.Sweeper.Explore
import PEReplay.Lib.Ranges

namespace PEReplay

open Ranges Loop

/-- A range of addresses, as numbers. -/
def natRange (r : AddrRange) : Nat × Nat := (r.1.toNat, r.2.toNat)

/-- The addresses from the start of a trace to its end, as numbers. -/
def StaticTrace.range (t : StaticTrace) : Nat × Nat :=
  (t.start.toNat, t.start.toNat + t.size.toNat)

theorem natRange_trace {t : StaticTrace} (h : t.NoWrap) :
    natRange (t.start, t.getEnd) = t.range := by
  show (t.start.toNat, t.getEnd.toNat) = _
  rw [StaticTrace.toNat_getEnd h]
  rfl

theorem covered_range (l : List StaticTrace) :
    covered (l.map StaticTrace.range) = ↑(bytesOf l) := by
  induction l with
  | nil =>
      rw [bytesOf, Finset.coe_empty]
      exact covered_nil
  | cons t l ih =>
      rw [List.map_cons, covered_cons, ih, bytesOf, Finset.coe_union, StaticTrace.bytes,
        Finset.coe_Ico]
      rfl

theorem apart_range {t u : StaticTrace} (h : Disjoint t.bytes u.bytes) : Apart t.range u.range := by
  rw [← Finset.disjoint_coe, StaticTrace.bytes, StaticTrace.bytes, Finset.coe_Ico,
    Finset.coe_Ico] at h
  exact h

/-! ## The two loops -/

/-- **The second loop** lists the gaps around the ranges. -/
theorem natRange_vecGaps (sec : CodeSection) (traces : List StaticTrace) :
    (vecGaps sec traces).map natRange =
      gaps sec.top sec.start.toNat ((vecRanges traces).map natRange) := by
  -- from any state of the loop
  have hloop : ∀ (rs : List AddrRange) (st : GapState),
      ((rs.foldl gapStep st).vecGaps ++ [((rs.foldl gapStep st).gapStart, sec.stop)]).map natRange =
        st.vecGaps.map natRange ++ gaps sec.top st.gapStart.toNat (rs.map natRange) := by
    intro rs
    induction rs with
    | nil =>
        intro st
        rw [List.map_append]
        show _ ++ [(st.gapStart.toNat, sec.stop.toNat)] = _ ++ [(st.gapStart.toNat, sec.top)]
        rw [sec.toNat_stop]
        rfl
    | cons r rs ih =>
        intro st
        rw [List.foldl_cons, ih]
        show (st.vecGaps ++ [(st.gapStart, r.1)]).map natRange ++ _ = _
        rw [List.map_append, List.append_assoc]
        rfl
  exact hloop (vecRanges traces) ⟨sec.start, []⟩

/-- **The first loop** saves the ranges that merging completes. -/
theorem natRange_foldl_rangeStep {l : List StaticTrace} (hwrap : ∀ t ∈ l, t.NoWrap)
    (hpos : ∀ t ∈ l, 0 < t.start.toNat) (st : RangeState)
    (hnow : ¬ (st.rangeNow.1 = 0 ∧ st.rangeNow.2 = 0)) :
    (l.foldl rangeStep st).vecRanges.map natRange =
      st.vecRanges.map natRange ++ complete (natRange st.rangeNow) (l.map StaticTrace.range) := by
  induction l generalizing st with
  | nil => exact (List.append_nil _).symm
  | cons t l ih =>
      have htw := hwrap t List.mem_cons_self
      have htpos := hpos t List.mem_cons_self
      have hend := StaticTrace.toNat_getEnd htw
      have hrest := ih (fun u hu => hwrap u (List.mem_cons_of_mem _ hu))
        fun u hu => hpos u (List.mem_cons_of_mem _ hu)
      have htouch : t.range.1 = (natRange st.rangeNow).2 ↔ t.start = st.rangeNow.2 :=
        BitVec.toNat_inj
      rw [List.foldl_cons, List.map_cons, complete, rangeStep, if_neg hnow]
      by_cases hmerge : t.start = st.rangeNow.2
      · rw [if_pos hmerge, if_pos (htouch.mpr hmerge), hrest]
        · show _ ++ complete (st.rangeNow.1.toNat, t.getEnd.toNat) _ = _
          rw [hend]
          rfl
        · rintro ⟨-, hzero⟩
          have hsum : t.getEnd.toNat = 0 := congrArg BitVec.toNat hzero
          omega
      · rw [if_neg hmerge, if_neg (mt htouch.mp hmerge), hrest]
        · rw [List.map_append, List.append_assoc, natRange_trace htw]
          rfl
        · rintro ⟨hzero, -⟩
          have hstart : t.start.toNat = 0 := congrArg BitVec.toNat hzero
          omega

/-- A first trace that is not empty at address 0 becomes the current range. -/
theorem natRange_vecRanges_cons {t : StaticTrace} {l : List StaticTrace}
    (hwrap : ∀ u ∈ t :: l, u.NoWrap) (hpos : ∀ u ∈ l, 0 < u.start.toNat)
    (ht : ¬ (t.start = 0 ∧ t.getEnd = 0)) :
    (vecRanges (t :: l)).map natRange = complete t.range (l.map StaticTrace.range) := by
  show ((l.foldl rangeStep ⟨(t.start, t.getEnd), []⟩).vecRanges).map natRange = _
  rw [natRange_foldl_rangeStep (fun u hu => hwrap u (List.mem_cons_of_mem _ hu)) hpos _ ht,
    natRange_trace (hwrap t List.mem_cons_self)]
  rfl

/-- An empty trace at address 0 looks like no range at all. -/
theorem vecRanges_cons_zero {t : StaticTrace} (l : List StaticTrace)
    (ht : t.start = 0 ∧ t.getEnd = 0) : vecRanges (t :: l) = vecRanges l := by
  show ((l.foldl rangeStep ⟨(t.start, t.getEnd), []⟩).vecRanges) = _
  rw [ht.1, ht.2]
  rfl

/-! ## When the list is exact -/

/-- The gaps are the complement of the traces within the section, and none is reversed. -/
structure ExactGaps (sec : CodeSection) (traces : List StaticTrace) : Prop where
  covers : ∀ a, (∃ gap ∈ vecGaps sec traces, gap.1.toNat ≤ a ∧ a < gap.2.toNat) ↔
    (sec.start.toNat ≤ a ∧ a < sec.top) ∧ a ∉ bytesOf traces
  forward : ∀ gap ∈ vecGaps sec traces, gap.1.toNat ≤ gap.2.toNat

/-- The last trace is empty and does not start where the one before it ends, and every other trace
starts at or behind the end of the one before it. -/
def LastRangeEmpty : List StaticTrace → Prop
  | [] => True
  | [t] => t.size = 0
  | [t, u] => u.size = 0 ∧ u.start ≠ t.getEnd
  | t :: u :: v :: l => t.getEnd.toNat ≤ u.start.toNat ∧ LastRangeEmpty (u :: v :: l)

/-- Exactness in terms of the ranges saved. -/
theorem exactGaps_iff_ranges {sec : CodeSection} {traces : List StaticTrace}
    {ranges : List (Nat × Nat)} (hranges : (vecRanges traces).map natRange = ranges)
    (hle : ∀ r ∈ ranges, r.1 ≤ r.2) :
    ExactGaps sec traces ↔ Ordered sec.top sec.start.toNat ranges ∧
      Set.Ico sec.start.toNat sec.top \ covered ranges =
        Set.Ico sec.start.toNat sec.top \ ↑(bytesOf traces) := by
  have hgaps := natRange_vecGaps sec traces
  rw [hranges] at hgaps
  have hforward : (∀ gap ∈ vecGaps sec traces, gap.1.toNat ≤ gap.2.toNat) ↔
      Ordered sec.top sec.start.toNat ranges := by
    rw [ordered_iff_gaps hle, ← hgaps, List.forall_mem_map]
    rfl
  have hcovered : ∀ a, (∃ gap ∈ vecGaps sec traces, gap.1.toNat ≤ a ∧ a < gap.2.toNat) ↔
      a ∈ covered (gaps sec.top sec.start.toNat ranges) := by
    intro a
    rw [← hgaps]
    constructor
    · rintro ⟨gap, hgap, ha⟩
      exact ⟨natRange gap, List.mem_map_of_mem hgap, ha⟩
    · rintro ⟨_, hr, ha⟩
      obtain ⟨gap, hgap, rfl⟩ := List.mem_map.mp hr
      exact ⟨gap, hgap, ha⟩
  constructor
  · rintro ⟨hcovers, hfwd⟩
    have hord := hforward.mp hfwd
    refine ⟨hord, ?_⟩
    rw [← covered_gaps hord]
    ext a
    rw [← hcovered, hcovers]
    rfl
  · rintro ⟨hord, hsets⟩
    refine ⟨fun a => ?_, hforward.mpr hord⟩
    rw [hcovered, covered_gaps hord, hsets]
    rfl

/-- **The range left over.** The gaps are exact when the ranges are in order and the one that is
current at the end is empty. -/
theorem exactGaps_cons_iff {sec : CodeSection} {t : StaticTrace} {l : List StaticTrace}
    (hinside : ∀ u ∈ t :: l, sec.start.toNat ≤ u.start.toNat ∧
      u.start.toNat + u.size.toNat ≤ sec.top)
    (hpos : ∀ u ∈ l, 0 < u.start.toNat)
    (hdisj : (t :: l).Pairwise fun t u => Disjoint t.bytes u.bytes)
    (ht : ¬ (t.start = 0 ∧ t.getEnd = 0)) :
    ExactGaps sec (t :: l) ↔
      Ordered sec.top sec.start.toNat (complete t.range (l.map StaticTrace.range)) ∧
        (current t.range (l.map StaticTrace.range)).1 =
          (current t.range (l.map StaticTrace.range)).2 := by
  have hfits : sec.top < 2 ^ 32 := sec.fits
  have hwrap : ∀ u ∈ t :: l, u.NoWrap := fun u hu => lt_of_le_of_lt (hinside u hu).2 hfits
  have hle : ∀ r ∈ l.map StaticTrace.range, r.1 ≤ r.2 := by
    rw [List.forall_mem_map]
    exact fun u _ => Nat.le_add_right _ _
  have htle : t.range.1 ≤ t.range.2 := Nat.le_add_right _ _
  obtain ⟨hcomplete, hcurrent⟩ := le_complete htle hle
  rw [exactGaps_iff_ranges (natRange_vecRanges_cons hwrap hpos ht) hcomplete]
  have hunion := covered_complete htle hle
  have hapart := disjoint_current htle hle
    (List.Pairwise.map StaticTrace.range (fun _ _ => apart_range) hdisj)
  rw [← List.map_cons, covered_range] at hunion
  generalize complete t.range (l.map StaticTrace.range) = rs at *
  generalize current t.range (l.map StaticTrace.range) = cur at *
  rw [← hunion]
  refine and_congr_right fun hord => ⟨fun hsets => ?_, fun hempty => ?_⟩
  · -- a first address of the current range would be in a gap
    by_contra hne
    have hlt : cur.1 < cur.2 := lt_of_le_of_ne hcurrent hne
    have hmem : cur.1 ∈ Set.Ico cur.1 cur.2 := ⟨le_rfl, hlt⟩
    have hbytes : cur.1 ∈ (↑(bytesOf (t :: l)) : Set Nat) := hunion ▸ Or.inr hmem
    obtain ⟨u, hu, hau⟩ := mem_bytesOf.mp (Finset.mem_coe.mp hbytes)
    rw [StaticTrace.mem_bytes] at hau
    have hin := hinside u hu
    have hgap : cur.1 ∈ Set.Ico sec.start.toNat sec.top \ covered rs :=
      ⟨⟨by omega, by omega⟩, fun hrs => Set.disjoint_left.mp hapart hrs hmem⟩
    rw [hsets] at hgap
    exact hgap.2 (Or.inr hmem)
  · rw [hempty, Set.Ico_self, Set.union_empty]

theorem lastRangeEmpty_pair {t u : StaticTrace} (ht : t.NoWrap) : LastRangeEmpty [t, u] ↔
    u.size.toNat = 0 ∧ u.start.toNat ≠ t.start.toNat + t.size.toNat := by
  show u.size = 0 ∧ u.start ≠ t.getEnd ↔ _
  rw [← StaticTrace.toNat_getEnd ht, ne_eq, ne_eq, BitVec.toNat_inj]
  exact and_congr_left fun _ => BitVec.toNat_inj.symm

theorem lastRangeEmpty_cons {t u v : StaticTrace} {l : List StaticTrace} (ht : t.NoWrap) :
    LastRangeEmpty (t :: u :: v :: l) ↔
      t.start.toNat + t.size.toNat ≤ u.start.toNat ∧ LastRangeEmpty (u :: v :: l) := by
  rw [← StaticTrace.toNat_getEnd ht]
  rfl

/-- The last range is that of the rest, unless `t` is the last trace. -/
theorem lastRangeEmpty_cons_iff {p t : StaticTrace} (hp : p.NoWrap) {b : Nat}
    (hone : b = t.start.toNat + t.size.toNat ↔ LastRangeEmpty [p, t])
    (hpt : p.start.toNat + p.size.toNat ≤ t.start.toNat) (l : List StaticTrace) :
    (if l = [] then b = t.start.toNat + t.size.toNat else LastRangeEmpty (t :: l)) ↔
      LastRangeEmpty (p :: t :: l) := by
  cases l with
  | nil =>
      rw [if_pos rfl]
      exact hone
  | cons u l =>
      rw [if_neg (List.cons_ne_nil u l), lastRangeEmpty_cons hp]
      exact (and_iff_right hpt).symm

/-- An empty trace inside the current range: the gap before it is reversed. -/
theorem ordered_complete_of_inside {top e : Nat} {p t : StaticTrace} {l : List StaticTrace}
    (hp : p.NoWrap) (he : e = p.start.toNat + p.size.toNat) (hetop : e ≤ top)
    (hempty : t.size.toNat = 0) (hlt : t.start.toNat < e)
    (hasc : CodeSectionSweeper.Ascending (t :: l)) :
    (Ordered top e (complete t.range (l.map StaticTrace.range)) ∧
      (current t.range (l.map StaticTrace.range)).1 =
        (current t.range (l.map StaticTrace.range)).2) ↔ LastRangeEmpty (p :: t :: l) := by
  cases l with
  | nil =>
      rw [lastRangeEmpty_pair hp]
      show (e ≤ top ∧ t.start.toNat = t.start.toNat + t.size.toNat) ↔ _
      omega
  | cons u l =>
      have htu : t.start.toNat < u.start.toNat := List.rel_of_pairwise_cons hasc List.mem_cons_self
      have hnext : ¬ u.range.1 = t.range.2 := by
        show ¬ u.start.toNat = t.start.toNat + t.size.toNat
        omega
      rw [lastRangeEmpty_cons hp, List.map_cons, complete, if_neg hnext, Ordered]
      constructor
      · rintro ⟨⟨hrev, -⟩, -⟩
        exact absurd hrev (Nat.not_le.mpr hlt)
      · rintro ⟨hrev, -⟩
        omega

/-- **The order of the ranges**, along the list: `(b, e)` is the current range and `p` the last
trace in it. -/
theorem ordered_complete_iff {top g b e : Nat} {p : StaticTrace} {l : List StaticTrace}
    (hgb : g ≤ b) (hbp : b ≤ p.start.toNat) (he : e = p.start.toNat + p.size.toNat)
    (hinside : ∀ t ∈ p :: l, t.start.toNat + t.size.toNat ≤ top) (htop : top < 2 ^ 32)
    (hasc : CodeSectionSweeper.Ascending (p :: l))
    (hapart : (p :: l).Pairwise fun t u =>
      0 < u.size.toNat → t.start.toNat + t.size.toNat ≤ u.start.toNat) :
    (Ordered top g (complete (b, e) (l.map StaticTrace.range)) ∧
      (current (b, e) (l.map StaticTrace.range)).1 =
        (current (b, e) (l.map StaticTrace.range)).2) ↔
      if l = [] then b = e else LastRangeEmpty (p :: l) := by
  have hptop := hinside p List.mem_cons_self
  have hpwrap : p.NoWrap := lt_of_le_of_lt hptop htop
  induction l generalizing g b e p with
  | nil =>
      rw [if_pos rfl]
      exact and_iff_right (show g ≤ top by omega)
  | cons t l ih =>
      have hpt : p.start.toNat < t.start.toNat := List.rel_of_pairwise_cons hasc List.mem_cons_self
      have hsep := List.rel_of_pairwise_cons hapart List.mem_cons_self
      have httop := hinside t (List.mem_cons_of_mem _ List.mem_cons_self)
      have htwrap : t.NoWrap := lt_of_le_of_lt httop htop
      -- the rest of the list, with `t` as the last trace of the current range
      have hrest : ∀ g' b', g' ≤ b' → b' ≤ t.start.toNat → _ := fun g' b' hg' hb' =>
        ih (g := g') (b := b') hg' hb' rfl (fun u hu => hinside u (List.mem_cons_of_mem _ hu))
          hasc.of_cons hapart.of_cons httop htwrap
      rw [if_neg (List.cons_ne_nil t l), List.map_cons, complete, current]
      by_cases htouch : t.start.toNat = e
      · -- `t` is merged, so the current range is longer than an empty trace
        rw [if_pos (show t.range.1 = (b, e).2 from htouch),
          if_pos (show t.range.1 = (b, e).2 from htouch)]
        refine (hrest g b hgb (by omega)).trans
          (lastRangeEmpty_cons_iff hpwrap ?_ (by omega) l)
        rw [lastRangeEmpty_pair hpwrap]
        omega
      · rw [if_neg (show ¬ t.range.1 = (b, e).2 from htouch),
          if_neg (show ¬ t.range.1 = (b, e).2 from htouch), Ordered,
          and_iff_right hgb, and_iff_right (show b ≤ e by omega)]
        by_cases hle : e ≤ t.start.toNat
        · -- the current range is saved, and `t` opens the next one behind it
          refine (hrest e t.start.toNat hle le_rfl).trans
            (lastRangeEmpty_cons_iff hpwrap ?_ (by omega) l)
          rw [lastRangeEmpty_pair hpwrap]
          omega
        · have hempty : t.size.toNat = 0 := by
            by_contra hpos
            have := hsep (by omega)
            omega
          exact ordered_complete_of_inside hpwrap he (by omega) hempty (by omega) hasc.of_cons

theorem lastRangeEmpty_cons_zero {t : StaticTrace} {l : List StaticTrace}
    (ht : t.start = 0 ∧ t.getEnd = 0) (hpos : ∀ u ∈ l, 0 < u.start.toNat) :
    LastRangeEmpty (t :: l) ↔ LastRangeEmpty l := by
  obtain ⟨hstart, hend⟩ := ht
  match l with
  | [] =>
      show t.size = 0 ↔ True
      unfold StaticTrace.getEnd at hend
      rw [hstart] at hend
      simpa using hend
  | [u] =>
      show u.size = 0 ∧ u.start ≠ t.getEnd ↔ u.size = 0
      refine and_iff_left fun he => ?_
      have hu := hpos u List.mem_cons_self
      rw [he, hend] at hu
      exact absurd hu (by decide)
  | u :: v :: l =>
      show t.getEnd.toNat ≤ u.start.toNat ∧ _ ↔ _
      rw [hend]
      exact and_iff_right (Nat.zero_le _)

/-- Without traces there is one gap, the section. -/
theorem exactGaps_nil (sec : CodeSection) : ExactGaps sec [] := by
  have hnone : (vecRanges []).map natRange = [] := rfl
  refine (exactGaps_iff_ranges hnone fun r hr => absurd hr List.not_mem_nil).mpr ⟨?_, ?_⟩
  · show sec.start.toNat ≤ sec.top
    exact Nat.le_add_right _ _
  · rw [covered_nil, bytesOf, Finset.coe_empty]

/-- An empty trace at address 0 changes nothing. -/
theorem exactGaps_cons_zero {sec : CodeSection} {t : StaticTrace} {l : List StaticTrace}
    (ht : t.start = 0 ∧ t.getEnd = 0) (hwrap : t.NoWrap) :
    ExactGaps sec (t :: l) ↔ ExactGaps sec l := by
  have hbytes : bytesOf (t :: l) = bytesOf l := by
    rw [bytesOf, StaticTrace.bytes, ← StaticTrace.toNat_getEnd hwrap, ht.2]
    show Finset.Ico t.start.toNat 0 ∪ bytesOf l = bytesOf l
    rw [Finset.Ico_eq_empty (Nat.not_lt_zero _), Finset.empty_union]
  have hgaps : vecGaps sec (t :: l) = vecGaps sec l := by
    unfold vecGaps
    rw [vecRanges_cons_zero l ht]
  constructor
  · rintro ⟨hcovers, hforward⟩
    rw [hgaps, hbytes] at hcovers
    rw [hgaps] at hforward
    exact ⟨hcovers, hforward⟩
  · rintro ⟨hcovers, hforward⟩
    rw [← hgaps, ← hbytes] at hcovers
    rw [← hgaps] at hforward
    exact ⟨hcovers, hforward⟩

/-- A list whose first trace is not empty at address 0. -/
theorem exactGaps_iff_of_cons {sec : CodeSection} {t : StaticTrace} {l : List StaticTrace}
    (hinside : ∀ u ∈ t :: l, sec.start.toNat ≤ u.start.toNat ∧
      u.start.toNat + u.size.toNat ≤ sec.top)
    (hasc : CodeSectionSweeper.Ascending (t :: l))
    (hdisj : (t :: l).Pairwise fun t u => Disjoint t.bytes u.bytes)
    (ht : ¬ (t.start = 0 ∧ t.getEnd = 0)) :
    ExactGaps sec (t :: l) ↔ LastRangeEmpty (t :: l) := by
  have hpos : ∀ u ∈ l, 0 < u.start.toNat := fun u hu =>
    lt_of_le_of_lt (Nat.zero_le _) (List.rel_of_pairwise_cons hasc hu)
  have hapart : (t :: l).Pairwise fun t u =>
      0 < u.size.toNat → t.start.toNat + t.size.toNat ≤ u.start.toNat :=
    (hasc.and hdisj).imp fun h => (StaticTrace.disjoint_bytes_iff h.1).mp h.2
  rw [exactGaps_cons_iff hinside hpos hdisj ht]
  refine (ordered_complete_iff (hinside t List.mem_cons_self).1 le_rfl rfl
    (fun u hu => (hinside u hu).2) sec.fits hasc hapart).trans ?_
  split_ifs with hl
  · subst hl
    show t.start.toNat = t.start.toNat + t.size.toNat ↔ t.size = 0
    rw [← BitVec.toNat_inj]
    show _ ↔ t.size.toNat = 0
    omega
  · rfl

/-- **When the gap list is the complement of the traces**, for disjoint traces inside the section:
exactly when there are none, or the last one is empty and does not start where the one before it
ends, and every other one starts at or behind the end of the one before it. -/
theorem exactGaps_iff (s : CodeSectionSweeper)
    (hinside : ∀ t ∈ s.traces, s.codeSection.start.toNat ≤ t.start.toNat ∧
      t.start.toNat + t.size.toNat ≤ s.codeSection.top)
    (hdisj : s.traces.elems.Pairwise fun t u => Disjoint t.bytes u.bytes) :
    ExactGaps s.codeSection s.traces.elems ↔ LastRangeEmpty s.traces.elems := by
  have hasc : CodeSectionSweeper.Ascending s.traces.elems := s.traces.sorted_elems
  have hin : ∀ t ∈ s.traces.elems, s.codeSection.start.toNat ≤ t.start.toNat ∧
      t.start.toNat + t.size.toNat ≤ s.codeSection.top := hinside
  generalize s.traces.elems = l at hasc hdisj hin
  cases l with
  | nil => exact iff_of_true (exactGaps_nil _) trivial
  | cons t l =>
      by_cases ht : t.start = 0 ∧ t.getEnd = 0
      · have hpos : ∀ u ∈ l, 0 < u.start.toNat := fun u hu =>
          lt_of_le_of_lt (Nat.zero_le _) (List.rel_of_pairwise_cons hasc hu)
        rw [exactGaps_cons_zero ht
          (lt_of_le_of_lt (hin t List.mem_cons_self).2 s.codeSection.fits),
          lastRangeEmpty_cons_zero ht hpos]
        cases l with
        | nil => exact iff_of_true (exactGaps_nil _) trivial
        | cons u l =>
            refine exactGaps_iff_of_cons (fun v hv => hin v (List.mem_cons_of_mem _ hv))
              hasc.of_cons hdisj.of_cons fun hu => ?_
            have hzero : u.start.toNat = 0 := congrArg BitVec.toNat hu.1
            have := hpos u List.mem_cons_self
            omega
      · exact exactGaps_iff_of_cons hin hasc hdisj ht

section Samples

open CodeSectionSweeper

/-- One `ret`, and behind it a trace of bytes that do not decode. -/
def gapSweeper : CodeSectionSweeper :=
  { init sampleSection with
    traces := ((∅ : TraceSet).insert ⟨0, 0x1000, 1, sampleSection⟩).insert
      ⟨1, 0x1002, 0, sampleSection⟩ }

theorem exactGaps_iff_sample : ExactGaps gapSweeper.codeSection gapSweeper.traces.elems := by
  refine (exactGaps_iff gapSweeper ?_ ?_).mpr ⟨rfl, ?_⟩
  · show ∀ t ∈ gapSweeper.traces.elems, _
    decide
  · decide
  · decide

/-- The last trace lies in the last gap. -/
theorem last_range_in_gap : ∃ p, sampleSweeper.process 9 retCode = some p ∧
    (∀ t ∈ p.traces, p.codeSection.start.toNat ≤ t.start.toNat ∧
      t.start.toNat + t.size.toNat ≤ p.codeSection.top) ∧
    p.traces.elems.Pairwise (fun t u => Disjoint t.bytes u.bytes) ∧
    ¬ ExactGaps p.codeSection p.traces.elems := by
  have htraces : (sampleSweeper.process 9 retCode).map (fun p => (p.codeSection, p.traces.elems)) =
      some (sampleSection, [⟨0, 0x1000, 1, sampleSection⟩, ⟨1, 0x1002, 1, sampleSection⟩]) := by
    decide
  obtain ⟨p, hp, heq⟩ := Option.map_eq_some_iff.mp htraces
  obtain ⟨hsec, helems⟩ := Prod.mk.inj heq
  refine ⟨p, hp, fun t ht => ?_, ?_, fun hexact => ?_⟩
  · rw [KeyedSet.mem_def, helems] at ht
    rw [hsec]
    revert t
    decide
  · rw [helems]
    decide
  · -- 0x1002 is in the gap [0x1001, 0x1004)
    rw [hsec, helems] at hexact
    have hgap := (hexact.covers 0x1002).mp ⟨(0x1001, 0x1004), by decide, by decide, by decide⟩
    exact absurd hgap.2 (by decide)

end Samples

end PEReplay
