/-
# PEReplay.Sweeper.Coverage — the coverage after `process` and after `spotGaps`.

Both end with the split pass.  By the bounds of `Sweeper.Bounds` no trace wraps before either of
them, so `countsOnce_splitPass_iff` applies twice: at each of the two points the coverage is right
exactly when the traces before the split pass overlap only where the pass separates them.
-/
import PEReplay.Sweeper.Bounds
import PEReplay.Sweeper.Explore
import Mathlib.Data.Set.Card

namespace PEReplay

open Loop

namespace CodeSectionSweeper

/-! ## Bounds of the traces of a sweeper -/

/-- Every trace ends at or before `bound`. -/
def EndsBy (bound : Nat) (s : CodeSectionSweeper) : Prop :=
  ∀ t ∈ s.traces, t.start.toNat + t.size.toNat ≤ bound

/-- Every trace starts in the section. -/
def StartsInside (s : CodeSectionSweeper) : Prop :=
  ∀ t ∈ s.traces, s.codeSection.isAddrCode t.start = true

variable {code : Code} {longest : Nat}

/-- A visited trace ends at most one instruction behind the section. -/
theorem Grown.endsBy {s s' : CodeSectionSweeper} (h : Grown code s s')
    (hb : s.codeSection.Below code longest) (hs : s.EndsBy (s.codeSection.top + longest)) :
    s'.EndsBy (s.codeSection.top + longest) := by
  intro t ht
  rcases h.follows t ht with ht | ⟨hcode, run, hrun, hsize⟩
  · exact hs t ht
  · obtain ⟨hexact, hle⟩ := toNat_size_of_run hb hcode hrun
    rw [hsize, hexact]
    exact hle

theorem Grown.startsInside {s s' : CodeSectionSweeper} (h : Grown code s s')
    (hs : s.StartsInside) : s'.StartsInside := by
  intro t ht
  rw [h.codeSection]
  rcases h.follows t ht with ht | ⟨hcode, -⟩
  · exact hs t ht
  · exact hcode

/-- **The split pass** moves no start, and no end up. -/
theorem mem_splitPass {s : CodeSectionSweeper} (hwrap : ∀ t ∈ s.traces, t.NoWrap)
    {t' : StaticTrace} (ht' : t' ∈ s.splitPass.traces) :
    ∃ t ∈ s.traces, t'.start = t.start ∧ t'.size.toNat ≤ t.size.toNat := by
  obtain ⟨t, ht, hstart, -, hsize⟩ :=
    exists_mem_of_mem_splitLoop s.traces.sorted_elems hwrap ht'
  exact ⟨t, ht, hstart, hsize⟩

theorem EndsBy.noWrap {s : CodeSectionSweeper} {bound : Nat} (h : s.EndsBy bound)
    (hbound : bound < 2 ^ 32) : ∀ t ∈ s.traces, t.NoWrap :=
  fun t ht => lt_of_le_of_lt (h t ht) hbound

/-! ## Sweeping the gaps -/

/-- What the loop over the gaps adds ends at most one instruction behind the section. -/
theorem gapEvents_bounds {n : Nat} {s : CodeSectionSweeper} {events : List SweepEvent}
    (hb : s.codeSection.Below code longest) (hlongest : 5 ≤ longest)
    (hgrey : ∀ area ∈ s.greyAreas, area.NoWrap) (hstarts : s.StartsInside)
    (hends : s.EndsBy (s.codeSection.top + longest)) (h : s.gapEvents n code = some events) :
    ∀ ev ∈ events, ev.EndsBy (s.codeSection.top + longest) := by
  have hroom : s.codeSection.top + longest < 2 ^ 32 := hb.room
  have htraces : ∀ t ∈ s.traces.elems, t.start.toNat ≤ s.codeSection.top ∧
      t.getEnd.toNat ≤ s.codeSection.top + longest := by
    intro t ht
    have hend := hends t ht
    rw [StaticTrace.toNat_getEnd (hends.noWrap hroom t ht)]
    exact ⟨(CodeSection.lt_top (hstarts t ht)).le, hend⟩
  obtain ⟨st, hloop, rfl⟩ := Option.map_eq_some_iff.mp h
  refine whileLoop_rule
    (fun st : GapsState =>
      (∀ g ∈ st.gaps, GapBounded s.codeSection (s.codeSection.top + longest) g) ∧
        ∀ ev ∈ st.events, ev.EndsBy (s.codeSection.top + longest))
    (fun st => ∀ ev ∈ st.events, ev.EndsBy (s.codeSection.top + longest)) ?_ ?_
    ⟨vecGaps_bounds htraces (Nat.le_add_right _ _), fun ev hev => absurd hev List.not_mem_nil⟩ hloop
  · intro st st' ⟨hgaps, hevents⟩ hbody
    rcases gapsBody_cases hbody with ⟨-, heq⟩ | ⟨gap, rest, r, hqueue, hsweep, heq⟩
    · exact absurd heq (by simp)
    · rw [hqueue] at hgaps
      obtain ⟨hadded, hpushed⟩ :=
        sweepGap_bounds hb hlongest hgrey (hgaps gap List.mem_cons_self) hsweep
      rw [LoopStep.next.inj heq]
      refine ⟨fun g hg => ?_, fun ev hev => ?_⟩
      · rcases List.mem_append.mp hg with hg | hg
        · exact hgaps g (List.mem_cons_of_mem _ hg)
        · exact hpushed g hg
      · rcases List.mem_append.mp hev with hev | hev
        · exact hevents ev hev
        · exact hadded ev hev
  · rintro st r ⟨-, hevents⟩ hbody
    rcases gapsBody_cases hbody with ⟨-, heq⟩ | ⟨_, _, _, _, _, heq⟩
    · rw [LoopStep.exit.inj heq]
      exact hevents
    · exact absurd heq (by simp)

theorem applyEvents_endsBy {bound : Nat} {events : List SweepEvent} {s : CodeSectionSweeper}
    (hs : s.EndsBy bound) (hevents : ∀ ev ∈ events, ev.EndsBy bound) :
    (events.foldl applyEvent s).EndsBy bound ∧
      (events.foldl applyEvent s).codeSection = s.codeSection := by
  induction events generalizing s with
  | nil => exact ⟨hs, rfl⟩
  | cons ev events ih =>
      have hev := hevents ev List.mem_cons_self
      have hone : (s.applyEvent ev).EndsBy bound ∧
          (s.applyEvent ev).codeSection = s.codeSection := by
        cases ev with
        | pend target => exact ⟨hs, rfl⟩
        | assemble cause start size =>
            refine ⟨fun t ht => ?_, rfl⟩
            rcases KeyedSet.mem_insert.mp ht with ht | ⟨rfl, -⟩
            · exact hs t ht
            · exact hev
      obtain ⟨hends, hsec⟩ := ih hone.1 fun e he => hevents e (List.mem_cons_of_mem _ he)
      exact ⟨hends, hsec.trans hone.2⟩

/-! ## When the coverage is right -/

/-- A trace of the sweeper, as its start and its size. -/
def HasTrace (s : CodeSectionSweeper) (a : U32) (k : Nat) : Prop :=
  ∃ t ∈ s.traces, t.start = a ∧ t.size.toNat = k

/-- Wherever a nonempty range starts strictly inside another one, the other ends where its
successor does. -/
def SharesEnds (range : U32 → Nat → Prop) : Prop :=
  ∀ a k b m, range a k → range b m → 0 < m → a.toNat < b.toNat → b.toNat < a.toNat + k →
    ∃ c j, range c j ∧ a.toNat < c.toNat ∧
      (∀ d i, range d i → a.toNat < d.toNat → c.toNat ≤ d.toNat) ∧ c.toNat + j = a.toNat + k

/-- The addresses in some range. -/
def covered (range : U32 → Nat → Prop) : Set Nat :=
  {x | ∃ a k, range a k ∧ a.toNat ≤ x ∧ x < a.toNat + k}

/-- Overlapping ranges share their ends, and together they cover no more addresses than the section
has. -/
structure SplitsCleanly (sec : CodeSection) (range : U32 → Nat → Prop) : Prop where
  sharesEnds : SharesEnds range
  fits : (covered range).ncard ≤ sec.size.toNat

/-- `v` is the first of the traces that start behind `t`. -/
structure FirstAfter (l : List StaticTrace) (t v : StaticTrace) : Prop where
  mem : v ∈ l
  after : t.start.toNat < v.start.toNat
  least : ∀ w ∈ l, t.start.toNat < w.start.toNat → v.start.toNat ≤ w.start.toNat

/-- Behind the first trace it is the next one. -/
theorem firstAfter_head_iff {l : List StaticTrace} {t v : StaticTrace} (h : Ascending (t :: l)) :
    FirstAfter (t :: l) t v ↔ v ∈ l.head? := by
  have hafter : ∀ u ∈ l, t.start.toNat < u.start.toNat := fun u hu =>
    List.rel_of_pairwise_cons h hu
  constructor
  · rintro ⟨hv, hlt, hleast⟩
    obtain rfl | hv := List.mem_cons.mp hv
    · exact absurd hlt (lt_irrefl _)
    · cases l with
      | nil => exact absurd hv List.not_mem_nil
      | cons x l =>
          obtain rfl | hv := List.mem_cons.mp hv
          · rfl
          · have hxv := List.rel_of_pairwise_cons h.of_cons hv
            have hvx := hleast x (by simp) (hafter x List.mem_cons_self)
            omega
  · intro hv
    have hmem := List.mem_of_mem_head? hv
    refine ⟨List.mem_cons_of_mem _ hmem, hafter v hmem, fun w hw hlt => ?_⟩
    obtain rfl | hw := List.mem_cons.mp hw
    · exact absurd hlt (lt_irrefl _)
    · exact Ascending.head_le h.of_cons hv hw

/-- Behind a later trace the first one does not count. -/
theorem firstAfter_cons_iff {l : List StaticTrace} {t t' v : StaticTrace}
    (hlt : t.start.toNat < t'.start.toNat) : FirstAfter (t :: l) t' v ↔ FirstAfter l t' v := by
  constructor
  · rintro ⟨hv, hafter, hleast⟩
    obtain rfl | hv := List.mem_cons.mp hv
    · omega
    · exact ⟨hv, hafter, fun w hw => hleast w (List.mem_cons_of_mem _ hw)⟩
  · rintro ⟨hv, hafter, hleast⟩
    refine ⟨List.mem_cons_of_mem _ hv, hafter, fun w hw hw' => ?_⟩
    obtain rfl | hw := List.mem_cons.mp hw
    · omega
    · exact hleast w hw hw'

/-- `SplitsApart` does not depend on the list. -/
theorem splitsApart_iff {l : List StaticTrace} (h : Ascending l) :
    SplitsApart l ↔ ∀ t ∈ l, ∀ u ∈ l, 0 < u.size.toNat → t.start.toNat < u.start.toNat →
      u.start.toNat < t.start.toNat + t.size.toNat →
        ∃ v, FirstAfter l t v ∧ v.getEnd = t.getEnd := by
  induction l with
  | nil => exact ⟨fun _ t ht => absurd ht List.not_mem_nil, fun _ => trivial⟩
  | cons t l ih =>
      have hafter : ∀ u ∈ l, t.start.toNat < u.start.toNat := fun u hu =>
        List.rel_of_pairwise_cons h hu
      rw [SplitsApart, ih h.of_cons]
      constructor
      · rintro ⟨hfirst, hrest⟩ t' ht' u hu hpos hlt hinside
        rcases List.mem_cons.mp ht' with rfl | ht'
        · obtain rfl | hu := List.mem_cons.mp hu
          · exact absurd hlt (lt_irrefl _)
          · obtain ⟨v, hv, hend⟩ := hfirst u hu hpos hinside
            exact ⟨v, (firstAfter_head_iff h).mpr hv, hend⟩
        · have htt' := hafter t' ht'
          obtain rfl | hu := List.mem_cons.mp hu
          · omega
          · obtain ⟨v, hv, hend⟩ := hrest t' ht' u hu hpos hlt hinside
            exact ⟨v, (firstAfter_cons_iff htt').mpr hv, hend⟩
      · intro hall
        refine ⟨fun u hu hpos hinside => ?_, fun t' ht' u hu hpos hlt hinside => ?_⟩
        · obtain ⟨v, hv, hend⟩ := hall t List.mem_cons_self u (List.mem_cons_of_mem _ hu) hpos
            (hafter u hu) hinside
          exact ⟨v, (firstAfter_head_iff h).mp hv, hend⟩
        · obtain ⟨v, hv, hend⟩ := hall t' (List.mem_cons_of_mem _ ht') u
            (List.mem_cons_of_mem _ hu) hpos hlt hinside
          exact ⟨v, (firstAfter_cons_iff (hafter t' ht')).mp hv, hend⟩

theorem splitsApart_iff_sharesEnds {s : CodeSectionSweeper} (hwrap : ∀ t ∈ s.traces, t.NoWrap) :
    SplitsApart s.traces.elems ↔ SharesEnds s.HasTrace := by
  have hends : ∀ t ∈ s.traces, ∀ v ∈ s.traces, (v.getEnd = t.getEnd ↔
      v.start.toNat + v.size.toNat = t.start.toNat + t.size.toNat) := by
    intro t ht v hv
    rw [← BitVec.toNat_inj, StaticTrace.toNat_getEnd (hwrap v hv),
      StaticTrace.toNat_getEnd (hwrap t ht)]
  rw [splitsApart_iff s.traces.sorted_elems]
  constructor
  · -- from traces to ranges, and back
    rintro h a k b m ⟨t, ht, rfl, rfl⟩ ⟨u, hu, rfl, rfl⟩ hpos hlt hinside
    obtain ⟨v, ⟨hv, hlt', hleast⟩, hend⟩ := h t ht u hu hpos hlt hinside
    refine ⟨v.start, v.size.toNat, ⟨v, hv, rfl, rfl⟩, hlt', ?_, (hends t ht v hv).mp hend⟩
    rintro d i ⟨w, hw, rfl, rfl⟩ hw'
    exact hleast w hw hw'
  · intro h t ht u hu hpos hlt hinside
    obtain ⟨c, j, ⟨v, hv, rfl, rfl⟩, hlt', hleast, hend⟩ :=
      h _ _ _ _ ⟨t, ht, rfl, rfl⟩ ⟨u, hu, rfl, rfl⟩ hpos hlt hinside
    refine ⟨v, ⟨hv, hlt', fun w hw hw' => ?_⟩, (hends t ht v hv).mpr hend⟩
    exact hleast _ _ ⟨w, hw, rfl, rfl⟩ hw'

theorem covered_hasTrace (s : CodeSectionSweeper) :
    covered s.HasTrace = ↑(bytesOf s.traces.elems) := by
  ext x
  rw [Finset.mem_coe, mem_bytesOf]
  constructor
  · rintro ⟨a, k, ⟨t, ht, rfl, rfl⟩, hlo, hhi⟩
    exact ⟨t, ht, StaticTrace.mem_bytes.mpr ⟨hlo, hhi⟩⟩
  · rintro ⟨t, ht, hx⟩
    obtain ⟨hlo, hhi⟩ := StaticTrace.mem_bytes.mp hx
    exact ⟨t.start, t.size.toNat, ⟨t, ht, rfl, rfl⟩, hlo, hhi⟩

/-- **When `process` counts right**: from a sweeper whose traces stay within an instruction of the
section, exactly when what the worklist finds splits cleanly. -/
theorem countsOnce_process_iff {n : Nat} {s p : CodeSectionSweeper}
    (hb : s.codeSection.Below code longest) (hends : s.EndsBy (s.codeSection.top + longest))
    (h : s.process n code = some p) :
    p.CountsOnce ↔ SplitsCleanly s.codeSection (s.Traced code) := by
  obtain ⟨w, hw, rfl⟩ := Option.map_eq_some_iff.mp h
  obtain ⟨hsteps, hdone⟩ := popSteps_of_worklist hw
  have hgrown := (popSteps_spec hsteps).1
  have hwrap := (hgrown.endsBy hb hends).noWrap hb.room
  have htraced : w.HasTrace = s.Traced code :=
    funext fun a => funext fun k => propext (traced_of_popSteps hb hsteps hdone a k)
  rw [countsOnce_splitPass_iff w hwrap, splitsApart_iff_sharesEnds hwrap, ← Set.ncard_coe_finset,
    ← covered_hasTrace, htraced, hgrown.codeSection]
  exact ⟨fun ⟨hshares, hfits⟩ => ⟨hshares, hfits⟩, fun ⟨hshares, hfits⟩ => ⟨hshares, hfits⟩⟩

/-- The traces after `process` stay where those before it and the section are. -/
theorem process_bounds {n : Nat} {s p : CodeSectionSweeper}
    (hb : s.codeSection.Below code longest) (hends : s.EndsBy (s.codeSection.top + longest))
    (hstarts : s.StartsInside) (h : s.process n code = some p) :
    p.codeSection = s.codeSection ∧ p.greyAreas = s.greyAreas ∧
      p.EndsBy (s.codeSection.top + longest) ∧ p.StartsInside := by
  obtain ⟨w, hw, rfl⟩ := Option.map_eq_some_iff.mp h
  have hgrown := (popSteps_spec (popSteps_of_worklist hw).1).1
  have hendsW := hgrown.endsBy hb hends
  have hwrap := hendsW.noWrap hb.room
  refine ⟨hgrown.codeSection, hgrown.greyAreas, fun t' ht' => ?_, fun t' ht' => ?_⟩
  · obtain ⟨t, ht, hstart, hsize⟩ := mem_splitPass hwrap ht'
    have := hendsW t ht
    rw [hstart]
    omega
  · obtain ⟨t, ht, hstart, -⟩ := mem_splitPass hwrap ht'
    rw [hstart]
    exact hgrown.startsInside hstarts t ht

/-- **When the coverage is right.** From a sweeper without traces, below the top of the address
space and with grey areas that do not wrap: the coverage after `process` is right exactly when the
straight-line runs from the trace starts split cleanly, and the coverage after `spotGaps` exactly
when what its `process` finds, from the sweeper with the gaps swept, does. -/
theorem countsOnce_process_spotGaps_iff (code : Code) (longest : Nat) (hlongest : 5 ≤ longest)
    (s₀ p₁ p₂ : CodeSectionSweeper) (hb : s₀.codeSection.Below code longest)
    (hempty : s₀.traces = ∅) (hgrey : ∀ area ∈ s₀.greyAreas, area.NoWrap) (n m : Nat)
    (h₁ : s₀.process n code = some p₁) (h₂ : p₁.spotGaps m code = some p₂) :
    (p₁.CountsOnce ↔ SplitsCleanly s₀.codeSection (s₀.Traced code)) ∧
      ∃ g, p₁.sweepGaps m code = some g ∧
        (p₂.CountsOnce ↔ SplitsCleanly s₀.codeSection (g.Traced code)) := by
  have hnone : ∀ t, t ∉ s₀.traces := fun t => by
    rw [hempty]
    exact KeyedSet.not_mem_empty t
  have hends₀ : s₀.EndsBy (s₀.codeSection.top + longest) := fun t ht => absurd ht (hnone t)
  obtain ⟨hsec₁, hgrey₁, hends₁, hstarts₁⟩ :=
    process_bounds hb hends₀ (fun t ht => absurd ht (hnone t)) h₁
  refine ⟨countsOnce_process_iff hb hends₀ h₁, ?_⟩
  unfold spotGaps at h₂
  split at h₂
  · exact absurd h₂ (by simp)
  · rename_i g hg
    refine ⟨g, hg, ?_⟩
    obtain ⟨events, hevents, rfl⟩ := Option.map_eq_some_iff.mp hg
    -- the traces that the gaps add stay within the bounds too
    rw [← hsec₁] at hb hends₁
    obtain ⟨hends, hsec⟩ := applyEvents_endsBy hends₁
      (gapEvents_bounds hb hlongest (hgrey₁ ▸ hgrey) hstarts₁ hends₁ hevents)
    rw [← hsec] at hb hends
    rw [countsOnce_process_iff hb hends h₂, hsec, hsec₁]

section Samples

theorem countsOnce_process_spotGaps_iff_sample :
    ∃ p₁ p₂, sampleSweeper.process 9 retCode = some p₁ ∧ p₁.spotGaps 9 retCode = some p₂ ∧
      (p₁.CountsOnce ↔ SplitsCleanly sampleSection (sampleSweeper.Traced retCode)) ∧
        ∃ g, p₁.sweepGaps 9 retCode = some g ∧
          (p₂.CountsOnce ↔ SplitsCleanly sampleSection (g.Traced retCode)) := by
  have hruns : ((sampleSweeper.process 9 retCode).bind (spotGaps 9 retCode)).isSome = true := by
    decide
  obtain ⟨p₂, hp₂⟩ := Option.isSome_iff_exists.mp hruns
  obtain ⟨p₁, h₁, h₂⟩ := Option.bind_eq_some_iff.mp hp₂
  exact ⟨p₁, p₂, h₁, h₂, countsOnce_process_spotGaps_iff retCode 5 le_rfl sampleSweeper p₁ p₂
    below_sample rfl (fun t ht => absurd ht (KeyedSet.not_mem_empty t)) 9 9 h₁ h₂⟩

/-- `mov eax, 0xC3C3C3C3` -/
def movInstruction : Instruction where
  length := 5
  type := .other
  op1 := ⟨.register, libdasmRegisterNop, libdasmRegisterNop, 0, 0, 0, 0⟩
  op2 := ⟨.immediate, libdasmRegisterNop, libdasmRegisterNop, 0, 4, 0, 0xC3C3C3C3⟩

/-- `B8 C3 C3 C3 C3 C3`: a `mov` whose immediate is made of `ret`, and a `ret`. -/
def movCode : Code where
  mem := fun a => if a = 0x1000 then 0xB8 else 0xC3
  getInstruction := fun a => some (if a = 0x1000 then movInstruction else retInstruction)

/-- The six bytes of `movCode`, with a target at the `mov` and one at its immediate. -/
def overlapSweeper : CodeSectionSweeper :=
  ((init ⟨0x1000, 6, by decide⟩).appendTarget 0x1000).appendTarget 0x1001

/-- The trace in the immediate lies inside the trace of the `mov`, and ends before it. -/
theorem overlap_stays : ∃ p, overlapSweeper.process 5 movCode = some p ∧ ¬ p.CountsOnce := by
  have htraces : (overlapSweeper.process 5 movCode).map (fun p => p.traces.elems) =
      some [⟨0, 0x1000, 6, ⟨0x1000, 6, by decide⟩⟩, ⟨1, 0x1001, 1, ⟨0x1000, 6, by decide⟩⟩] := by
    decide
  obtain ⟨p, hp, helems⟩ := Option.map_eq_some_iff.mp htraces
  refine ⟨p, hp, fun hcounts => ?_⟩
  have hdisj := hcounts.disjoint
  rw [helems] at hdisj
  have hfirst := List.rel_of_pairwise_cons hdisj (List.mem_singleton.mpr rfl)
  exact absurd hfirst (by decide)

end Samples

end CodeSectionSweeper

end PEReplay
