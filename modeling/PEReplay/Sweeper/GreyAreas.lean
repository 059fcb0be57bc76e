/-
# PEReplay.Sweeper.GreyAreas — what `IsRangeIntersectedWithGreyArea` subtracts.

The loop compares every grey area with the bounds the range came in with, in the order of the
starts, and each area overwrites what the one before it did to `start` or `end`.  So the range left
over begins at the end of the last area that reaches in from before it, and ends at the start of the
last area that starts in it; and the only range it pushes that is not reversed goes from the end of
the first area that starts in it to the old end (`follows_greyAreas`).

No byte outside the grey areas is lost that way (`exists_treated`), but grey bytes may stay;
`subtractsExactly_iff` says when none does, of a gap as it is.  The loop that trims the gap first is
in `PEReplay.Sweeper.GreyLoop`.
-/
import PEReplay.Sweeper.Gaps
import PEReplay.Sweeper.Split

namespace PEReplay

/-! ## One area -/

namespace StaticTrace

/-- The area reaches into `[start, stop)` from before it, or covers it. -/
def ReachesIn (start stop : U32) (area : StaticTrace) : Prop :=
  area.start.toNat ≤ start.toNat ∧ stop.toNat ≤ area.getEnd.toNat ∨
    area.start.toNat < start.toNat ∧ start.toNat < area.getEnd.toNat

/-- The area starts in `[start, stop)` and does not cover it. -/
def StartsIn (start stop : U32) (area : StaticTrace) : Prop :=
  start.toNat ≤ area.start.toNat ∧ area.start.toNat < stop.toNat ∧
    ¬ (area.start.toNat ≤ start.toNat ∧ stop.toNat ≤ area.getEnd.toNat)

/-- A grey area that does not wrap and is not empty. -/
structure Proper (area : StaticTrace) : Prop where
  noWrap : area.NoWrap
  size_pos : 0 < area.size.toNat

theorem Proper.lt_getEnd {area : StaticTrace} (h : area.Proper) :
    area.start.toNat < area.getEnd.toNat := by
  rw [toNat_getEnd h.noWrap]
  exact Nat.lt_add_of_pos_right h.size_pos

theorem Proper.mem_bytes {area : StaticTrace} (h : area.Proper) {x : Nat} :
    x ∈ area.bytes ↔ area.start.toNat ≤ x ∧ x < area.getEnd.toNat := by
  rw [StaticTrace.mem_bytes, toNat_getEnd h.noWrap]

end StaticTrace

open StaticTrace

/-- **Step.** What the loop body does with one area. -/
theorem greyStep_cases {start stop : U32} (hlt : start.toNat < stop.toNat) (st : GreyState)
    {area : StaticTrace} (harea : area.Proper) :
    (area.ReachesIn start stop ∧ stop.toNat ≤ area.getEnd.toNat ∧
        greyStep start stop st area = { st with start := st.stop, bResult := true }) ∨
      (area.ReachesIn start stop ∧ area.getEnd.toNat < stop.toNat ∧
        greyStep start stop st area = { st with start := area.getEnd }) ∨
      (area.StartsIn start stop ∧ area.getEnd.toNat ≤ stop.toNat ∧
        greyStep start stop st area =
          { st with stop := area.start, pushed := st.pushed ++ [(area.getEnd, st.stop)] }) ∨
      (area.StartsIn start stop ∧ stop.toNat < area.getEnd.toNat ∧
        greyStep start stop st area = { st with stop := area.start }) ∨
      (¬ area.ReachesIn start stop ∧ ¬ area.StartsIn start stop ∧
        greyStep start stop st area = st) := by
  have hend := harea.lt_getEnd
  have hrange : start + (stop - start) = stop := by bv_omega
  have hgetEnd : area.start + area.size = area.getEnd := rfl
  unfold greyStep StaticTrace.contains StaticTrace.pertains StaticTrace.intersect
    ReachesIn StartsIn
  simp only [hrange, hgetEnd, Bool.and_eq_true, decide_eq_true_eq, Bool.not_eq_true',
    Bool.or_eq_false_iff, decide_eq_false_iff_not, BitVec.le_def, BitVec.lt_def, ge_iff_le]
  split_ifs with hcovers hinside hmeets hbefore
  · exact Or.inl ⟨Or.inl hcovers, hcovers.2, rfl⟩
  · exact Or.inr (Or.inr (Or.inl ⟨⟨hinside.1, by omega, hcovers⟩, hinside.2, rfl⟩))
  · exact Or.inr (Or.inl ⟨by omega, by omega, rfl⟩)
  · exact Or.inr (Or.inr (Or.inr (Or.inl ⟨by omega, by omega, rfl⟩)))
  · exact Or.inr (Or.inr (Or.inr (Or.inr ⟨by omega, by omega, rfl⟩)))

/-! ## All areas -/

/-- The area with `P` that starts last. -/
def LastWith (P : StaticTrace → Prop) (areas : List StaticTrace) (area : StaticTrace) : Prop :=
  area ∈ areas ∧ P area ∧ ∀ other ∈ areas, P other → other.start.toNat ≤ area.start.toNat

/-- The area with `P` that starts first. -/
def FirstWith (P : StaticTrace → Prop) (areas : List StaticTrace) (area : StaticTrace) : Prop :=
  area ∈ areas ∧ P area ∧ ∀ other ∈ areas, P other → area.start.toNat ≤ other.start.toNat

section Snoc

variable {P : StaticTrace → Prop} {areas : List StaticTrace} {area other : StaticTrace}

theorem forall_snoc_not (h : ∀ a ∈ areas, ¬ P a) (harea : ¬ P area) :
    ∀ a ∈ areas ++ [area], ¬ P a := by
  intro a ha
  rcases List.mem_append.mp ha with ha | ha
  · exact h a ha
  · rw [List.mem_singleton.mp ha]
    exact harea

theorem lastWith_snoc (hlast : ∀ a ∈ areas, a.start.toNat < area.start.toNat) (harea : P area) :
    LastWith P (areas ++ [area]) area := by
  refine ⟨List.mem_append_right _ List.mem_cons_self, harea, fun a ha _ => ?_⟩
  rcases List.mem_append.mp ha with ha | ha
  · exact (hlast a ha).le
  · rw [List.mem_singleton.mp ha]

theorem LastWith.snoc (h : LastWith P areas other) (harea : ¬ P area) :
    LastWith P (areas ++ [area]) other := by
  refine ⟨List.mem_append_left _ h.1, h.2.1, fun a ha hPa => ?_⟩
  rcases List.mem_append.mp ha with ha | ha
  · exact h.2.2 a ha hPa
  · rw [List.mem_singleton.mp ha] at hPa
    exact absurd hPa harea

theorem FirstWith.snoc (hlast : ∀ a ∈ areas, a.start.toNat < area.start.toNat)
    (h : FirstWith P areas other) : FirstWith P (areas ++ [area]) other := by
  refine ⟨List.mem_append_left _ h.1, h.2.1, fun a ha hPa => ?_⟩
  rcases List.mem_append.mp ha with ha | ha
  · exact h.2.2 a ha hPa
  · rw [List.mem_singleton.mp ha]
    exact (hlast other h.1).le

/-- The first area with `P` at all. -/
theorem firstWith_snoc (hnone : ∀ a ∈ areas, ¬ P a) (harea : P area) :
    FirstWith P (areas ++ [area]) area := by
  refine ⟨List.mem_append_right _ List.mem_cons_self, harea, fun a ha hPa => ?_⟩
  rcases List.mem_append.mp ha with ha | ha
  · exact absurd hPa (hnone a ha)
  · rw [List.mem_singleton.mp ha]

/-- The first of one more area is the first so far, or there was none. -/
theorem firstWith_snoc_cases (h : FirstWith P (areas ++ [area]) other) :
    FirstWith P areas other ∨ (P area ∧ other = area) := by
  obtain ⟨hmem, hP, hfirst⟩ := h
  rcases List.mem_append.mp hmem with hmem | hmem
  · exact Or.inl ⟨hmem, hP, fun a ha => hfirst a (List.mem_append_left _ ha)⟩
  · obtain rfl := List.mem_singleton.mp hmem
    exact Or.inr ⟨hP, rfl⟩

theorem exists_firstWith (h : ∃ a ∈ areas, P a) : ∃ a, FirstWith P areas a := by
  classical
  have hex : ∃ k, ∃ a ∈ areas, P a ∧ a.start.toNat = k := by
    obtain ⟨a, ha, hP⟩ := h
    exact ⟨_, a, ha, hP, rfl⟩
  obtain ⟨a, ha, hP, hk⟩ := Nat.find_spec hex
  refine ⟨a, ha, hP, fun b hb hPb => ?_⟩
  rw [hk]
  exact Nat.find_min' hex ⟨b, hb, hPb, rfl⟩

end Snoc

/-- What the loop has made of `[start, stop)` after some areas. -/
structure GreyState.Follows (areas : List StaticTrace) (start stop : U32) (st : GreyState) :
    Prop where
  start_eq : (∀ a ∈ areas, ¬ a.ReachesIn start stop) ∧ st.start = start ∨
    ∃ a, LastWith (ReachesIn start stop) areas a ∧
      st.start.toNat = min a.getEnd.toNat stop.toNat
  stop_eq : (∀ a ∈ areas, ¬ a.StartsIn start stop) ∧ st.stop = stop ∨
    ∃ a, LastWith (StartsIn start stop) areas a ∧ st.stop = a.start
  pushed_cases : ∀ gap ∈ st.pushed,
    (∃ a, FirstWith (StartsIn start stop) areas a ∧ a.getEnd.toNat ≤ stop.toNat ∧
      gap = (a.getEnd, stop)) ∨
    (start.toNat ≤ gap.2.toNat ∧ gap.2.toNat < gap.1.toNat ∧ gap.1.toNat ≤ stop.toNat)
  pushed_first : ∀ a, FirstWith (StartsIn start stop) areas a → a.getEnd.toNat ≤ stop.toNat →
    (a.getEnd, stop) ∈ st.pushed

variable {areas : List StaticTrace} {start stop : U32}

/-- Reaching in and starting in exclude each other. -/
theorem not_startsIn_of_reachesIn {area : StaticTrace} (h : area.ReachesIn start stop) :
    ¬ area.StartsIn start stop := by
  rintro ⟨hle, -, hnot⟩
  rcases h with hcovers | hreach
  · exact hnot hcovers
  · omega

/-- An area that does not reach in leaves `start` what it is made of, -/
theorem GreyState.Follows.start_snoc {st : GreyState} (h : st.Follows areas start stop)
    {area : StaticTrace} (hnot : ¬ area.ReachesIn start stop) :
    (∀ a ∈ areas ++ [area], ¬ a.ReachesIn start stop) ∧ st.start = start ∨
      ∃ a, LastWith (ReachesIn start stop) (areas ++ [area]) a ∧
        st.start.toNat = min a.getEnd.toNat stop.toNat := by
  rcases h.start_eq with ⟨hnone, heq⟩ | ⟨a, ha, heq⟩
  · exact Or.inl ⟨forall_snoc_not hnone hnot, heq⟩
  · exact Or.inr ⟨a, ha.snoc hnot, heq⟩

/-- and one that does not start in the range leaves `stop` and what is pushed. -/
theorem GreyState.Follows.snoc_of_not_startsIn {st st' : GreyState}
    (h : st.Follows areas start stop) {area : StaticTrace}
    (hlast : ∀ a ∈ areas, a.start.toNat < area.start.toNat) (hnot : ¬ area.StartsIn start stop)
    (hstop : st'.stop = st.stop) (hpushed : st'.pushed = st.pushed)
    (hstart : (∀ a ∈ areas ++ [area], ¬ a.ReachesIn start stop) ∧ st'.start = start ∨
      ∃ a, LastWith (ReachesIn start stop) (areas ++ [area]) a ∧
        st'.start.toNat = min a.getEnd.toNat stop.toNat) :
    st'.Follows (areas ++ [area]) start stop := by
  refine ⟨hstart, ?_, fun gap hgap => ?_, fun a ha hle => ?_⟩
  · rw [hstop]
    rcases h.stop_eq with ⟨hnone, heq⟩ | ⟨a, ha, heq⟩
    · exact Or.inl ⟨forall_snoc_not hnone hnot, heq⟩
    · exact Or.inr ⟨a, ha.snoc hnot, heq⟩
  · rw [hpushed] at hgap
    exact (h.pushed_cases gap hgap).imp_left fun ⟨a, ha, hrest⟩ => ⟨a, ha.snoc hlast, hrest⟩
  · rw [hpushed]
    rcases firstWith_snoc_cases ha with ha | ⟨hin, -⟩
    · exact h.pushed_first a ha hle
    · exact absurd hin hnot

/-- One more area, behind all others. -/
theorem GreyState.Follows.snoc {st : GreyState} (h : st.Follows areas start stop)
    (hlt : start.toNat < stop.toNat) {area : StaticTrace} (harea : area.Proper)
    (hlast : ∀ a ∈ areas, a.start.toNat < area.start.toNat) :
    (greyStep start stop st area).Follows (areas ++ [area]) start stop := by
  have hend := harea.lt_getEnd
  rcases greyStep_cases hlt st harea with ⟨hreach, hcov, heq⟩ | ⟨hreach, hshort, heq⟩ |
    ⟨hin, hfits, heq⟩ | ⟨hin, hover, heq⟩ | ⟨hnoreach, hnoin, heq⟩
  · -- covered: `start` becomes the end, which no area has changed yet
    rw [heq]
    refine h.snoc_of_not_startsIn hlast (not_startsIn_of_reachesIn hreach) rfl rfl
      (Or.inr ⟨area, lastWith_snoc hlast hreach, ?_⟩)
    have hbefore : area.start.toNat ≤ start.toNat := by
      rcases hreach with hcovers | hreach
      · exact hcovers.1
      · exact hreach.1.le
    rcases h.stop_eq with ⟨-, heq'⟩ | ⟨a, ha, -⟩
    · show st.stop.toNat = _
      rw [heq', min_eq_right hcov]
    · have := hlast a ha.1
      have := ha.2.1.1
      omega
  · -- partly covered from before
    rw [heq]
    refine h.snoc_of_not_startsIn hlast (not_startsIn_of_reachesIn hreach) rfl rfl
      (Or.inr ⟨area, lastWith_snoc hlast hreach, ?_⟩)
    show area.getEnd.toNat = _
    rw [min_eq_left hshort.le]
  · -- inside: what is pushed is reversed unless this is the first area that starts here
    rw [heq]
    refine ⟨h.start_snoc fun hreach => not_startsIn_of_reachesIn hreach hin,
      Or.inr ⟨area, lastWith_snoc hlast hin, rfl⟩, fun gap hgap => ?_, fun a ha hle => ?_⟩
    · rcases List.mem_append.mp hgap with hgap | hgap
      · exact (h.pushed_cases gap hgap).imp_left fun ⟨a, ha, hrest⟩ => ⟨a, ha.snoc hlast, hrest⟩
      · obtain rfl := List.mem_singleton.mp hgap
        rcases h.stop_eq with ⟨hnone, heq'⟩ | ⟨a, ha, heq'⟩
        · exact Or.inl ⟨area, firstWith_snoc hnone hin, hfits, by rw [heq']⟩
        · refine Or.inr ⟨?_, ?_, hfits⟩
          · show start.toNat ≤ st.stop.toNat
            rw [heq']
            exact ha.2.1.1
          · show st.stop.toNat < area.getEnd.toNat
            rw [heq']
            exact (hlast a ha.1).trans hend
    · rcases firstWith_snoc_cases ha with ha | ⟨-, rfl⟩
      · exact List.mem_append_left _ (h.pushed_first a ha hle)
      · -- nothing started here before, so the end is the old one
        rcases h.stop_eq with ⟨-, heq'⟩ | ⟨b, hb, -⟩
        · rw [heq']
          exact List.mem_append_right _ List.mem_cons_self
        · have h₁ := ha.2.2 b (List.mem_append_left _ hb.1) hb.2.1
          have h₂ := hlast b hb.1
          omega
  · -- beyond the end: nothing is pushed
    rw [heq]
    refine ⟨h.start_snoc fun hreach => not_startsIn_of_reachesIn hreach hin,
      Or.inr ⟨area, lastWith_snoc hlast hin, rfl⟩, fun gap hgap => ?_, fun a ha hle => ?_⟩
    · exact (h.pushed_cases gap hgap).imp_left fun ⟨a, ha, hrest⟩ => ⟨a, ha.snoc hlast, hrest⟩
    · rcases firstWith_snoc_cases ha with ha | ⟨-, rfl⟩
      · exact h.pushed_first a ha hle
      · omega
  · -- the area does not meet the range
    rw [heq]
    exact h.snoc_of_not_startsIn hlast hnoin rfl rfl (h.start_snoc hnoreach)

/-- **Run.** What the loop makes of a range, by induction on the areas from the left. -/
theorem follows_foldl (hlt : start.toNat < stop.toNat) (hproper : ∀ a ∈ areas, a.Proper)
    (hasc : areas.Pairwise fun a b => a.start.toNat < b.start.toNat) :
    (areas.foldl (greyStep start stop) ⟨start, stop, false, []⟩).Follows areas start stop := by
  induction areas using List.reverseRecOn with
  | nil =>
      refine ⟨Or.inl ⟨fun a ha => absurd ha List.not_mem_nil, rfl⟩,
        Or.inl ⟨fun a ha => absurd ha List.not_mem_nil, rfl⟩,
        fun gap hgap => absurd hgap List.not_mem_nil, fun a ha => absurd ha.1 List.not_mem_nil⟩
  | append_singleton areas area ih =>
      obtain ⟨hasc', -, hlast⟩ := List.pairwise_append.mp hasc
      rw [List.foldl_append]
      exact (ih (fun a ha => hproper a (List.mem_append_left _ ha)) hasc').snoc hlt
        (hproper area (List.mem_append_right _ List.mem_cons_self))
        fun a ha => hlast a ha area List.mem_cons_self

theorem LastWith.unique {P : StaticTrace → Prop} {grey : TraceSet} {a b : StaticTrace}
    (ha : LastWith P grey.elems a) (hb : LastWith P grey.elems b) : a = b :=
  grey.eq_of_key_eq ha.1 hb.1 (le_antisymm (hb.2.2 a ha.1 ha.2.1) (ha.2.2 b hb.1 hb.2.1))

/-! ## The guard -/

theorem toInt_cases (a : U32) : (a.toNat < 2 ^ 31 ∧ a.toInt = a.toNat) ∨
    (2 ^ 31 ≤ a.toNat ∧ a.toInt = (a.toNat : Int) - 2 ^ 32) := by
  rw [BitVec.toInt_eq_toNat_cond]
  split_ifs
  · exact Or.inl ⟨by omega, rfl⟩
  · exact Or.inr ⟨by omega, by omega⟩

/-- The guard compares signed numbers.  Where it lets a range pass, it lets every range inside pass
too, and stops the reversed ones. -/
theorem badRange_inside {a b : U32} (hguard : ¬ badRange start stop)
    (hlt : start.toNat < stop.toNat) (ha : start.toNat ≤ a.toNat) (ha' : a.toNat ≤ stop.toNat)
    (hb : start.toNat ≤ b.toNat) (hb' : b.toNat ≤ stop.toNat) :
    badRange a b ↔ b.toNat ≤ a.toNat := by
  unfold badRange at hguard ⊢
  have h₁ := toInt_cases start
  have h₂ := toInt_cases stop
  have h₃ := toInt_cases a
  have h₄ := toInt_cases b
  omega

/-! ## One call -/

/-- The range left over. -/
def leftRange (grey : TraceSet) (gap : AddrRange) : AddrRange :=
  let left := isRangeIntersectedWithGreyArea grey gap.1 gap.2
  (left.start, left.stop)

/-- The ranges pushed onto `vec_gaps`. -/
def pushedRanges (grey : TraceSet) (gap : AddrRange) : List AddrRange :=
  (isRangeIntersectedWithGreyArea grey gap.1 gap.2).pushed

variable {grey : TraceSet}

/-- A range that the guard stops stays as it is. -/
theorem leftRange_of_badRange {gap : AddrRange} (h : badRange gap.1 gap.2) :
    leftRange grey gap = gap ∧ pushedRanges grey gap = [] := by
  unfold leftRange pushedRanges isRangeIntersectedWithGreyArea
  rw [if_pos h]
  exact ⟨rfl, rfl⟩

theorem follows_greyAreas (hproper : ∀ a ∈ grey, a.Proper) (hguard : ¬ badRange start stop)
    (hlt : start.toNat < stop.toNat) :
    (isRangeIntersectedWithGreyArea grey start stop).Follows grey.elems start stop := by
  unfold isRangeIntersectedWithGreyArea
  rw [if_neg hguard]
  exact follows_foldl hlt hproper grey.sorted_elems

/-- **What is left over**: the addresses behind the end of the last area that reaches in from before
the range, and before the start of the last area that starts in it. -/
theorem mem_leftRange_iff (hproper : ∀ a ∈ grey, a.Proper) (hguard : ¬ badRange start stop)
    (hlt : start.toNat < stop.toNat) {x : Nat} (hx : start.toNat ≤ x) (hx' : x < stop.toNat) :
    ((leftRange grey (start, stop)).1.toNat ≤ x ∧ x < (leftRange grey (start, stop)).2.toNat) ↔
      (∀ a, LastWith (ReachesIn start stop) grey.elems a → a.getEnd.toNat ≤ x) ∧
        ∀ a, LastWith (StartsIn start stop) grey.elems a → x < a.start.toNat := by
  obtain ⟨hstart, hstop, -, -⟩ := follows_greyAreas hproper hguard hlt
  apply and_congr
  · show (isRangeIntersectedWithGreyArea grey start stop).start.toNat ≤ x ↔ _
    rcases hstart with ⟨hnone, heq⟩ | ⟨a, ha, heq⟩
    · rw [heq]
      exact iff_of_true hx fun a ha => absurd ha.2.1 (hnone a ha.1)
    · rw [heq]
      constructor
      · intro hle b hb
        rw [hb.unique ha]
        omega
      · intro hall
        have := hall a ha
        omega
  · show x < (isRangeIntersectedWithGreyArea grey start stop).stop.toNat ↔ _
    rcases hstop with ⟨hnone, heq⟩ | ⟨a, ha, heq⟩
    · rw [heq]
      exact iff_of_true hx' fun a ha => absurd ha.2.1 (hnone a ha.1)
    · rw [heq]
      exact ⟨fun hlt b hb => hb.unique ha ▸ hlt, fun hall => hall a ha⟩

/-- The range left over lies in the range. -/
theorem leftRange_inside (hproper : ∀ a ∈ grey, a.Proper) (hguard : ¬ badRange start stop)
    (hlt : start.toNat < stop.toNat) : start.toNat ≤ (leftRange grey (start, stop)).1.toNat ∧
      (leftRange grey (start, stop)).2.toNat ≤ stop.toNat := by
  obtain ⟨hstart, hstop, -, -⟩ := follows_greyAreas hproper hguard hlt
  constructor
  · show start.toNat ≤ (isRangeIntersectedWithGreyArea grey start stop).start.toNat
    rcases hstart with ⟨-, heq⟩ | ⟨a, ha, heq⟩
    · rw [heq]
    · have hreach := ha.2.1
      unfold ReachesIn at hreach
      omega
  · show (isRangeIntersectedWithGreyArea grey start stop).stop.toNat ≤ stop.toNat
    rcases hstop with ⟨-, heq⟩ | ⟨a, ha, heq⟩
    · rw [heq]
    · rw [heq]
      exact ha.2.1.2.1.le

/-! ## The ranges treated in turn -/

/-- The gap, and every range pushed while one of them is treated. -/
inductive Treated (grey : TraceSet) (gap : AddrRange) : AddrRange → Prop
  | self : Treated grey gap gap
  | pushed {range range' : AddrRange} : Treated grey gap range →
      range' ∈ pushedRanges grey range → Treated grey gap range'

/-- The starts of the sub-gaps of `[start, stop)`: its own, and from each of them the end of the
first area that starts behind it, as long as that area ends in the gap. -/
inductive SubGap (grey : TraceSet) (start stop : U32) : U32 → Prop
  | self : SubGap grey start stop start
  | next {now : U32} {area : StaticTrace} : SubGap grey start stop now →
      FirstWith (StartsIn now stop) grey.elems area → area.getEnd.toNat ≤ stop.toNat →
        SubGap grey start stop area.getEnd

theorem SubGap.inside (hproper : ∀ a ∈ grey, a.Proper) (hle : start.toNat ≤ stop.toNat) {now : U32}
    (h : SubGap grey start stop now) : start.toNat ≤ now.toNat ∧ now.toNat ≤ stop.toNat := by
  induction h with
  | self => exact ⟨le_rfl, hle⟩
  | @next now area _ hfirst hend ih =>
      have hpos := (hproper area hfirst.1).lt_getEnd
      have hin : now.toNat ≤ area.start.toNat := hfirst.2.1.1
      exact ⟨by omega, hend⟩

/-- The ranges that are treated are the sub-gaps, and ranges without an address. -/
theorem treated_cases (hproper : ∀ a ∈ grey, a.Proper) (hguard : ¬ badRange start stop)
    (hlt : start.toNat < stop.toNat) {range : AddrRange}
    (h : Treated grey (start, stop) range) :
    (∃ now, SubGap grey start stop now ∧ range = (now, stop)) ∨
      (start.toNat ≤ range.2.toNat ∧ range.2.toNat ≤ range.1.toNat ∧
        range.1.toNat ≤ stop.toNat) := by
  induction h with
  | self => exact Or.inl ⟨start, .self, rfl⟩
  | @pushed range range' _ hpushed ih =>
      rcases ih with ⟨now, hnow, rfl⟩ | ⟨hlo, hrev, hhi⟩
      · obtain ⟨hlo, hhi⟩ := hnow.inside hproper hlt.le
        have hiff := badRange_inside hguard hlt hlo hhi hlt.le le_rfl
        by_cases hempty : stop.toNat ≤ now.toNat
        · rw [(leftRange_of_badRange (hiff.mpr hempty)).2] at hpushed
          exact absurd hpushed List.not_mem_nil
        · rcases (follows_greyAreas hproper (mt hiff.mp hempty) (not_le.mp hempty)).pushed_cases
            range' hpushed with ⟨a, ha, hend, rfl⟩ | ⟨hlo', hrev, hhi'⟩
          · exact Or.inl ⟨a.getEnd, hnow.next ha hend, rfl⟩
          · exact Or.inr ⟨by omega, by omega, hhi'⟩
      · have hbad : badRange range.1 range.2 :=
          (badRange_inside hguard hlt (by omega) hhi hlo (by omega)).mpr hrev
        rw [(leftRange_of_badRange hbad).2] at hpushed
        exact absurd hpushed List.not_mem_nil

/-- Every sub-gap is treated. -/
theorem SubGap.treated (hproper : ∀ a ∈ grey, a.Proper) (hguard : ¬ badRange start stop)
    (hlt : start.toNat < stop.toNat) {now : U32} (h : SubGap grey start stop now) :
    Treated grey (start, stop) (now, stop) := by
  induction h with
  | self => exact .self
  | @next now area hnow hfirst hend ih =>
      obtain ⟨hlo, hhi⟩ := hnow.inside hproper hlt.le
      have hin : now.toNat ≤ area.start.toNat ∧ area.start.toNat < stop.toNat :=
        ⟨hfirst.2.1.1, hfirst.2.1.2.1⟩
      have hiff := badRange_inside hguard hlt hlo hhi hlt.le le_rfl
      exact ih.pushed ((follows_greyAreas hproper (mt hiff.mp (by omega)) (by omega)).pushed_first
        area hfirst hend)

/-- **No free byte is lost.** -/
theorem exists_treated (hproper : ∀ a ∈ grey, a.Proper) (hguard : ¬ badRange start stop)
    (hlt : start.toNat < stop.toNat) {x : Nat} (hx : start.toNat ≤ x) (hx' : x < stop.toNat)
    (hfree : ∀ a ∈ grey, x ∉ a.bytes) :
    ∃ range, Treated grey (start, stop) range ∧ (leftRange grey range).1.toNat ≤ x ∧
      x < (leftRange grey range).2.toNat := by
  -- for every sub-gap that `x` lies in, on its length
  suffices hsub : ∀ k (now : U32), SubGap grey start stop now → stop.toNat - now.toNat = k →
      now.toNat ≤ x → ∃ range, Treated grey (start, stop) range ∧
        (leftRange grey range).1.toNat ≤ x ∧ x < (leftRange grey range).2.toNat from
    hsub _ start .self rfl hx
  intro k
  induction k using Nat.strong_induction_on with
  | _ k ih =>
      intro now hnow hk hle
      obtain ⟨hlo, hhi⟩ := hnow.inside hproper hlt.le
      have hguard' := mt (badRange_inside hguard hlt hlo hhi hlt.le le_rfl).mp
        (show ¬ stop.toNat ≤ now.toNat by omega)
      have hoff : ∀ a ∈ grey, ¬ (a.start.toNat ≤ x ∧ x < a.getEnd.toNat) := fun a ha =>
        mt (hproper a ha).mem_bytes.mpr (hfree a ha)
      by_cases hbehind : ∃ a, LastWith (StartsIn now stop) grey.elems a ∧ a.start.toNat ≤ x
      · -- then `x` is behind the first area that starts here
        obtain ⟨a, ha, hax⟩ := hbehind
        obtain ⟨first, hfirst⟩ := exists_firstWith ⟨a, ha.1, ha.2.1⟩
        have hfa := hfirst.2.2 a ha.1 ha.2.1
        have hend : first.getEnd.toNat ≤ x := by
          by_contra hin
          exact hoff first hfirst.1 ⟨by omega, by omega⟩
        have hpos := (hproper first hfirst.1).lt_getEnd
        have hfrom := hfirst.2.1.1
        exact ih _ (by omega) first.getEnd (hnow.next hfirst (by omega)) rfl hend
      · refine ⟨(now, stop), hnow.treated hproper hguard hlt,
          (mem_leftRange_iff hproper hguard' (by omega) hle hx').mpr ⟨fun a ha => ?_, fun a ha => ?_⟩⟩
        · by_contra hin
          have hreach := ha.2.1
          unfold ReachesIn at hreach
          exact hoff a ha.1 ⟨by omega, by omega⟩
        · by_contra hge
          exact hbehind ⟨a, ha, by omega⟩

/-! ## When the subtraction is exact -/

namespace CodeSectionSweeper

/-- A sequence of `markGreyArea` calls. -/
def markGreyAreas (s : CodeSectionSweeper) (marks : List (U32 × U32)) : CodeSectionSweeper :=
  marks.foldl (fun s m => s.markGreyArea m.1 m.2) s

theorem greyAreas_markGreyAreas_snoc (s : CodeSectionSweeper) (marks : List (U32 × U32))
    (m : U32 × U32) : ∃ id sec, (s.markGreyAreas (marks ++ [m])).greyAreas =
      (s.markGreyAreas marks).greyAreas.insert ⟨id, m.1, m.2, sec⟩ := by
  refine ⟨(s.markGreyAreas marks).nextId, (s.markGreyAreas marks).codeSection, ?_⟩
  unfold markGreyAreas
  rw [List.foldl_append]
  rfl

/-- **What is stored**: of the marks with one start, the first. -/
theorem hasArea_iff {s : CodeSectionSweeper} (hempty : s.greyAreas = ∅) (marks : List (U32 × U32))
    (a k : U32) : (∃ area ∈ (s.markGreyAreas marks).greyAreas, area.start = a ∧ area.size = k) ↔
      marks.find? (fun m => m.1 == a) = some (a, k) := by
  induction marks using List.reverseRecOn generalizing a k with
  | nil =>
      refine ⟨fun ⟨area, harea, _⟩ => ?_, fun h => absurd h (by simp)⟩
      rw [show (s.markGreyAreas []).greyAreas = ∅ from hempty] at harea
      exact absurd harea (KeyedSet.not_mem_empty area)
  | append_singleton marks m ih =>
      obtain ⟨id, sec, hinsert⟩ := greyAreas_markGreyAreas_snoc s marks m
      -- a start is taken when an earlier mark has it
      have htaken : (s.markGreyAreas marks).greyAreas.HasKey m.1.toNat ↔
          marks.find? (fun m' => m'.1 == m.1) ≠ none := by
        constructor
        · rintro ⟨area, harea, hkey⟩ hnone
          have hfound := (ih m.1 area.size).mp ⟨area, harea, BitVec.eq_of_toNat_eq hkey, rfl⟩
          rw [hnone] at hfound
          exact absurd hfound (by simp)
        · intro hne
          obtain ⟨⟨b, j⟩, hfound⟩ := Option.ne_none_iff_exists'.mp hne
          obtain rfl : b = m.1 := by simpa using List.find?_some hfound
          obtain ⟨area, harea, hstart, -⟩ := (ih m.1 j).mpr hfound
          exact ⟨area, harea, congrArg BitVec.toNat hstart⟩
      rw [hinsert, List.find?_append]
      constructor
      · rintro ⟨area, harea, rfl, rfl⟩
        rcases KeyedSet.mem_insert.mp harea with harea | ⟨rfl, hfree⟩
        · rw [(ih area.start area.size).mp ⟨area, harea, rfl, rfl⟩]
          rfl
        · rw [not_not.mp (mt htaken.mpr hfree)]
          show [m].find? (fun m' => m'.1 == m.1) = some m
          simp
      · intro hfound
        cases hold : marks.find? (fun m' => m'.1 == a) with
        | some m' =>
            rw [hold] at hfound
            obtain ⟨area, harea, hspec⟩ := (ih a k).mpr (hold.trans hfound)
            exact ⟨area, KeyedSet.mem_insert.mpr (Or.inl harea), hspec⟩
        | none =>
            rw [hold] at hfound
            obtain rfl : m = (a, k) := by
              have hm := List.mem_of_find?_eq_some hfound
              exact (List.mem_singleton.mp hm).symm
            exact ⟨_, KeyedSet.mem_insert.mpr (Or.inr ⟨rfl, fun hkey => htaken.mp hkey hold⟩),
              rfl, rfl⟩

end CodeSectionSweeper

/-- The byte `x` was marked. -/
def Marked (marks : List (U32 × U32)) (x : Nat) : Prop :=
  ∃ m ∈ marks, m.1.toNat ≤ x ∧ x < m.1.toNat + m.2.toNat

namespace CodeSectionSweeper

variable {marks : List (U32 × U32)}

theorem mem_marks_of_mem_markGreyAreas (s : CodeSectionSweeper) (hempty : s.greyAreas = ∅)
    {area : StaticTrace} (h : area ∈ (s.markGreyAreas marks).greyAreas) :
    (area.start, area.size) ∈ marks :=
  List.mem_of_find?_eq_some ((hasArea_iff hempty marks area.start area.size).mp ⟨area, h, rfl, rfl⟩)

theorem proper_markGreyAreas (s : CodeSectionSweeper) (hempty : s.greyAreas = ∅)
    (hmarks : ∀ m ∈ marks, 0 < m.2.toNat ∧ m.1.toNat + m.2.toNat < 2 ^ 32) :
    ∀ area ∈ (s.markGreyAreas marks).greyAreas, area.Proper := by
  intro area harea
  obtain ⟨hpos, hwrap⟩ := hmarks _ (s.mem_marks_of_mem_markGreyAreas hempty harea)
  exact ⟨hwrap, hpos⟩

/-- What is stored has been marked. -/
theorem marked_of_mem_markGreyAreas (s : CodeSectionSweeper) (hempty : s.greyAreas = ∅)
    (marks : List (U32 × U32)) :
    ∀ area ∈ (s.markGreyAreas marks).greyAreas, ∀ x ∈ area.bytes, Marked marks x :=
  fun _ harea _ hx =>
    ⟨_, s.mem_marks_of_mem_markGreyAreas hempty harea, StaticTrace.mem_bytes.mp hx⟩

end CodeSectionSweeper

/-- What is left over of the gap and of the ranges pushed, each treated in turn, covers exactly the
bytes of the gap that were not marked. -/
def SubtractsExactly (grey : TraceSet) (marks : List (U32 × U32)) (gap : AddrRange) : Prop :=
  ∀ x, (∃ range, Treated grey gap range ∧ (leftRange grey range).1.toNat ≤ x ∧
      x < (leftRange grey range).2.toNat) ↔
    (gap.1.toNat ≤ x ∧ x < gap.2.toNat) ∧ ¬ Marked marks x

/-- Every grey byte of `[start, stop)` lies before the end of the last area that reaches in from
before, or behind the start of the last area that starts in it. -/
def CleanAt (grey : TraceSet) (start stop : U32) : Prop :=
  ∀ area ∈ grey, ∀ x ∈ area.bytes, start.toNat ≤ x → x < stop.toNat →
    (∃ a, LastWith (ReachesIn start stop) grey.elems a ∧ x < a.getEnd.toNat) ∨
      ∃ a, LastWith (StartsIn start stop) grey.elems a ∧ a.start.toNat ≤ x

/-- Every marked byte of the gap lies in an area that is stored; a gap that the guard stops has no
grey byte; and the sub-gaps of any other gap are clean. -/
structure CleanGap (grey : TraceSet) (marks : List (U32 × U32)) (gap : AddrRange) : Prop where
  stored : ∀ x, gap.1.toNat ≤ x → x < gap.2.toNat → Marked marks x → ∃ area ∈ grey, x ∈ area.bytes
  guarded : badRange gap.1 gap.2 → ∀ area ∈ grey, ∀ x ∈ area.bytes,
    gap.1.toNat ≤ x → ¬ x < gap.2.toNat
  clean : ¬ badRange gap.1 gap.2 → ∀ now, SubGap grey gap.1 gap.2 now → CleanAt grey now gap.2

section Exact

variable {marks : List (U32 × U32)}

/-- A gap that the guard stops is left over as a whole. -/
theorem subtractsExactly_iff_of_badRange {gap : AddrRange} (hguard : badRange gap.1 gap.2)
    (hmarked : ∀ a ∈ grey, ∀ x ∈ a.bytes, Marked marks x) :
    SubtractsExactly grey marks gap ↔ CleanGap grey marks gap := by
  obtain ⟨hleft, hnone⟩ : leftRange grey gap = gap ∧ pushedRanges grey gap = [] :=
    leftRange_of_badRange hguard
  have htreated : ∀ range, Treated grey gap range → range = gap := by
    intro range h
    induction h with
    | self => rfl
    | pushed _ hpushed ih =>
        rw [ih, hnone] at hpushed
        exact absurd hpushed List.not_mem_nil
  constructor
  · intro hexact
    have hfree : ∀ x, gap.1.toNat ≤ x → x < gap.2.toNat → ¬ Marked marks x := fun x hx hx' =>
      ((hexact x).mp ⟨gap, .self, by rw [hleft]; exact ⟨hx, hx'⟩⟩).2
    exact ⟨fun x hx hx' hm => absurd hm (hfree x hx hx'),
      fun _ a ha x hxa hx hx' => hfree x hx hx' (hmarked a ha x hxa),
      fun hnot => absurd hguard hnot⟩
  · rintro ⟨hkept, hfree, -⟩ x
    constructor
    · rintro ⟨range, hrange, hx⟩
      rw [htreated range hrange, hleft] at hx
      refine ⟨hx, fun hm => ?_⟩
      obtain ⟨a, ha, hxa⟩ := hkept x hx.1 hx.2 hm
      exact hfree hguard a ha x hxa hx.1 hx.2
    · rintro ⟨hx, -⟩
      exact ⟨gap, .self, by rw [hleft]; exact hx⟩

/-- Where a sub-gap is not clean, a grey byte is left over. -/
theorem cleanGap_of_subtractsExactly (hproper : ∀ a ∈ grey, a.Proper)
    (hmarked : ∀ a ∈ grey, ∀ x ∈ a.bytes, Marked marks x) (hguard : ¬ badRange start stop)
    (hlt : start.toNat < stop.toNat) (hexact : SubtractsExactly grey marks (start, stop)) :
    CleanGap grey marks (start, stop) := by
  refine ⟨fun x hx hx' hm => ?_, fun h => absurd h hguard, fun _ now hnow a ha x hxa hx hx' => ?_⟩
  · -- a marked byte that no stored area has is covered, though it was marked
    by_contra hnone
    exact ((hexact x).mp (exists_treated hproper hguard hlt hx hx'
      fun a ha hxa => hnone ⟨a, ha, hxa⟩)).2 hm
  · obtain ⟨hlo, hhi⟩ := hnow.inside hproper hlt.le
    have hlt' : now.toNat < stop.toNat := lt_of_le_of_lt hx hx'
    have hguard' := mt (badRange_inside hguard hlt hlo hhi hlt.le le_rfl).mp (not_le.mpr hlt')
    by_contra hnot
    rw [not_or] at hnot
    refine ((hexact x).mp ⟨(now, stop), hnow.treated hproper hguard hlt,
      (mem_leftRange_iff hproper hguard' hlt' hx hx').mpr ⟨fun b hb => ?_, fun b hb => ?_⟩⟩).2
        (hmarked a ha x hxa)
    · by_contra hin
      exact hnot.1 ⟨b, hb, not_le.mp hin⟩
    · by_contra hin
      exact hnot.2 ⟨b, hb, not_lt.mp hin⟩

/-- Where every sub-gap is clean, nothing grey is left over. -/
theorem not_marked_of_clean (hproper : ∀ a ∈ grey, a.Proper) (hguard : ¬ badRange start stop)
    (hlt : start.toNat < stop.toNat) (hclean : CleanGap grey marks (start, stop))
    {range : AddrRange} (hrange : Treated grey (start, stop) range) {x : Nat}
    (hx : (leftRange grey range).1.toNat ≤ x ∧ x < (leftRange grey range).2.toNat) :
    (start.toNat ≤ x ∧ x < stop.toNat) ∧ ¬ Marked marks x := by
  -- ranges without an address leave nothing over
  have hempty : ∀ range : AddrRange, badRange range.1 range.2 → range.2.toNat ≤ range.1.toNat →
      ¬ ((leftRange grey range).1.toNat ≤ x ∧ x < (leftRange grey range).2.toNat) := by
    intro range hbad hle
    rw [(leftRange_of_badRange hbad).1]
    omega
  rcases treated_cases hproper hguard hlt hrange with ⟨now, hnow, rfl⟩ | ⟨hlo, hrev, hhi⟩
  · obtain ⟨hlo, hhi⟩ := hnow.inside hproper hlt.le
    have hiff := badRange_inside hguard hlt hlo hhi hlt.le le_rfl
    have hlt' : now.toNat < stop.toNat := by
      by_contra hge
      exact hempty (now, stop) (hiff.mpr (not_lt.mp hge)) (not_lt.mp hge) hx
    have hguard' := mt hiff.mp (not_le.mpr hlt')
    obtain ⟨hin, hin'⟩ := leftRange_inside hproper hguard' hlt'
    have hxlo : now.toNat ≤ x := hin.trans hx.1
    have hxhi : x < stop.toNat := lt_of_lt_of_le hx.2 hin'
    refine ⟨⟨hlo.trans hxlo, hxhi⟩, fun hm => ?_⟩
    obtain ⟨a, ha, hxa⟩ := hclean.stored x (hlo.trans hxlo) hxhi hm
    obtain ⟨hbehind, hbefore⟩ := (mem_leftRange_iff hproper hguard' hlt' hxlo hxhi).mp hx
    rcases hclean.clean hguard now hnow a ha x hxa hxlo hxhi with ⟨b, hb, hxb⟩ | ⟨b, hb, hxb⟩
    · exact absurd hxb (not_lt.mpr (hbehind b hb))
    · exact absurd hxb (not_le.mpr (hbefore b hb))
  · exact absurd hx (hempty range ((badRange_inside hguard hlt (by omega) hhi hlo (by omega)).mpr
      hrev) hrev)

end Exact

/-- **When grey areas are subtracted exactly**, for every gap and all marks of areas that are not
empty and do not wrap. -/
theorem subtractsExactly_iff (s : CodeSectionSweeper) (hempty : s.greyAreas = ∅)
    (marks : List (U32 × U32))
    (hmarks : ∀ m ∈ marks, 0 < m.2.toNat ∧ m.1.toNat + m.2.toNat < 2 ^ 32)
    (gap : AddrRange) (hgap : gap.1.toNat ≤ gap.2.toNat) :
    SubtractsExactly (s.markGreyAreas marks).greyAreas marks gap ↔
      CleanGap (s.markGreyAreas marks).greyAreas marks gap := by
  have hproper := s.proper_markGreyAreas hempty hmarks
  have hmarked := s.marked_of_mem_markGreyAreas hempty marks
  obtain ⟨start, stop⟩ := gap
  by_cases hguard : badRange start stop
  · exact subtractsExactly_iff_of_badRange hguard hmarked
  · have hlt : start.toNat < stop.toNat := by
      refine lt_of_le_of_ne hgap fun heq => hguard ?_
      rw [BitVec.eq_of_toNat_eq heq]
      exact Or.inr (Or.inr le_rfl)
    refine ⟨cleanGap_of_subtractsExactly hproper hmarked hguard hlt, fun hclean x => ⟨?_, ?_⟩⟩
    · rintro ⟨range, hrange, hx⟩
      exact not_marked_of_clean hproper hguard hlt hclean hrange hx
    · rintro ⟨⟨hx, hx'⟩, hm⟩
      exact exists_treated hproper hguard hlt hx hx' fun a ha hxa => hm (hmarked a ha x hxa)

end PEReplay
