/-
# PEReplay.Sweeper.Indexes — `m_traces` and `m_map_traces`.

Every trace is inserted into both.  They agree when `m_map_traces` maps exactly the starts of the
traces, each to the very trace that `m_traces` holds there.  A new trace at an address that has one
breaks this for good (`Clash`): the set refuses it, the map takes it.  So does erasing a trace from
the set alone.

`process` never does either (`process_indexes`); `spotGaps` and `postProcess` keep the agreement
exactly when the traces they assemble start at new addresses and when no trace is invalidated
(`spotGaps_agree_iff`, `postProcess_agree_iff`).  `runs_agree_iff` says it of every sequence of the
three operations.
-/
import PEReplay.Sweeper.Explore
import PEReplay.Sweeper.PaddingScan
import PEReplay.Sweeper.Split

namespace PEReplay

open Loop

namespace CodeSectionSweeper

/-! ## The two indexes -/

/-- `HasTraceStart` reports exactly the starts of the traces in `m_traces`, and `m_map_traces` maps
each of them to that very trace. -/
structure Agree (s : CodeSectionSweeper) : Prop where
  starts : ∀ a, s.hasTraceStart a = true ↔ ∃ t ∈ s.traces, t.start = a
  same : ∀ t ∈ s.traces, s.mapTraces t.start = some t.id

/-- A trace of `m_traces` whose start is mapped to another object. -/
def Clash (s : CodeSectionSweeper) : Prop :=
  ∃ t ∈ s.traces, s.mapTraces t.start ≠ some t.id

/-- Objects created later have other identities. -/
def IdsFresh (s : CodeSectionSweeper) : Prop := ∀ t ∈ s.traces, t.id < s.nextId

theorem Clash.not_agree {s : CodeSectionSweeper} (h : s.Clash) : ¬ s.Agree := by
  obtain ⟨t, ht, hne⟩ := h
  exact fun hagree => hne (hagree.same t ht)

/-- Agreement is about the two indexes alone. -/
theorem Agree.congr {s s' : CodeSectionSweeper} (h : s.Agree) (htraces : s'.traces = s.traces)
    (hmap : s'.mapTraces = s.mapTraces) : s'.Agree := by
  constructor
  · intro a
    unfold hasTraceStart
    rw [hmap, htraces]
    exact h.starts a
  · rw [hmap, htraces]
    exact h.same

theorem hasTraceStart_eq_true {s : CodeSectionSweeper} {a : U32} :
    s.hasTraceStart a = true ↔ ∃ id, s.mapTraces a = some id := Option.isSome_iff_exists

/-! ## Adding a trace -/

section AddTrace

variable {s : CodeSectionSweeper} {trace : StaticTrace}

theorem mem_addTrace_of_free (hfree : s.hasTraceAt trace.start = false) {t : StaticTrace} :
    t ∈ (s.addTrace trace).traces ↔ t = trace ∨ t ∈ s.traces := by
  refine KeyedSet.mem_insert_of_not_hasKey fun hkey => ?_
  rw [(hasTraceAt_iff_hasKey s trace.start).mpr hkey] at hfree
  exact absurd hfree (by simp)

theorem mapTraces_addTrace (a : U32) : (s.addTrace trace).mapTraces a =
    if a = trace.start then some trace.id else s.mapTraces a := Function.update_apply ..

theorem not_start_of_free (hfree : s.hasTraceAt trace.start = false) :
    ∀ t ∈ s.traces, t.start ≠ trace.start := by
  intro t ht heq
  rw [(hasTraceAt_iff s trace.start).mpr ⟨t, ht, heq⟩] at hfree
  exact absurd hfree (by simp)

/-- From then on the start is taken. -/
theorem hasTraceAt_addTrace (hfree : s.hasTraceAt trace.start = false) (a : U32) :
    (s.addTrace trace).hasTraceAt a = false ↔ a ≠ trace.start ∧ s.hasTraceAt a = false := by
  rw [← Bool.not_eq_true, ← Bool.not_eq_true, hasTraceAt_iff, hasTraceAt_iff, ne_eq, ← not_or]
  refine not_congr ⟨?_, ?_⟩
  · rintro ⟨t, ht, rfl⟩
    rcases (mem_addTrace_of_free hfree).mp ht with rfl | ht
    · exact Or.inl rfl
    · exact Or.inr ⟨t, ht, rfl⟩
  · rintro (rfl | ⟨t, ht, rfl⟩)
    · exact ⟨trace, (mem_addTrace_of_free hfree).mpr (Or.inl rfl), rfl⟩
    · exact ⟨t, (mem_addTrace_of_free hfree).mpr (Or.inr ht), rfl⟩

/-- A trace at an address without one keeps the agreement. -/
theorem Agree.addTrace (h : s.Agree) (hfree : s.hasTraceAt trace.start = false) :
    (s.addTrace trace).Agree := by
  have hother := not_start_of_free hfree
  constructor
  · intro a
    rw [hasTraceStart_eq_true, mapTraces_addTrace]
    by_cases ha : a = trace.start
    · rw [if_pos ha]
      exact iff_of_true ⟨_, rfl⟩
        ⟨trace, (mem_addTrace_of_free hfree).mpr (Or.inl rfl), ha.symm⟩
    · rw [if_neg ha, ← hasTraceStart_eq_true, h.starts a]
      constructor
      · rintro ⟨t, ht, rfl⟩
        exact ⟨t, (mem_addTrace_of_free hfree).mpr (Or.inr ht), rfl⟩
      · rintro ⟨t, ht, rfl⟩
        rcases (mem_addTrace_of_free hfree).mp ht with rfl | ht
        · exact absurd rfl ha
        · exact ⟨t, ht, rfl⟩
  · intro t ht
    rw [mapTraces_addTrace]
    rcases (mem_addTrace_of_free hfree).mp ht with rfl | ht
    · exact if_pos rfl
    · rw [if_neg (hother t ht)]
      exact h.same t ht

theorem IdsFresh.addTrace (h : s.IdsFresh) (hid : trace.id = s.nextId) :
    (s.addTrace trace).IdsFresh := by
  intro t ht
  show t.id < s.nextId + 1
  rcases KeyedSet.mem_insert.mp ht with ht | ⟨rfl, -⟩
  · have := h t ht
    omega
  · omega

/-- **A clash is for good**: the trace stays where it is, and its start is never mapped to it
again. -/
theorem Clash.addTrace (h : s.Clash) (hfresh : s.IdsFresh) (hid : trace.id = s.nextId) :
    (s.addTrace trace).Clash := by
  obtain ⟨t, ht, hne⟩ := h
  refine ⟨t, KeyedSet.mem_insert.mpr (Or.inl ht), ?_⟩
  rw [mapTraces_addTrace]
  split_ifs
  · intro heq
    have := hfresh t ht
    rw [← Option.some.inj heq, hid] at this
    exact lt_irrefl _ this
  · exact hne

/-- A trace at an address that has one makes a clash. -/
theorem clash_addTrace (hfresh : s.IdsFresh) (hid : trace.id = s.nextId)
    (htaken : s.hasTraceAt trace.start = true) : (s.addTrace trace).Clash := by
  obtain ⟨t, ht, heq⟩ := (hasTraceAt_iff s trace.start).mp htaken
  refine ⟨t, KeyedSet.mem_insert.mpr (Or.inl ht), ?_⟩
  rw [mapTraces_addTrace, if_pos heq]
  intro hsame
  have := hfresh t ht
  rw [← Option.some.inj hsame, hid] at this
  exact lt_irrefl _ this

end AddTrace

/-! ## `process` -/

variable {code : Code}

/-- What a sequence of pops keeps: fresh identities, agreement and clashes. -/
theorem popSteps_indexes {s₀ s : CodeSectionSweeper} (hfresh : s₀.IdsFresh)
    (h : Relation.ReflTransGen (PopStep code) s₀ s) :
    s.IdsFresh ∧ (s₀.Agree → s.Agree) ∧ (s₀.Clash → s.Clash) := by
  induction h with
  | refl => exact ⟨hfresh, id, id⟩
  | @tail s s' _ hstep ih =>
      obtain ⟨hfresh', hagree, hclash⟩ := ih
      obtain ⟨target, -, n, hn⟩ := hstep
      rcases popTarget_cases (hn n le_rfl) with ⟨-, rfl⟩ | ⟨hnew, run, -, rfl⟩
      · exact ⟨hfresh', fun h => (hagree h).congr rfl rfl, hclash⟩
      · -- what is visited has no trace yet
        have hfree : (s.dropped target).hasTraceAt target = false := hnew.2
        refine ⟨IdsFresh.addTrace (s := s.dropped target) hfresh' rfl, fun h => ?_,
          fun h => Clash.addTrace (s := s.dropped target) (hclash h) hfresh' rfl⟩
        have hdropped : (s.dropped target).Agree := (hagree h).congr rfl rfl
        exact (hdropped.addTrace hfree).congr rfl rfl

/-- The traces after the split pass are those before it, up to their sizes. -/
theorem mem_splitPass_object {s : CodeSectionSweeper} (a : U32) (k : Nat) :
    (∃ t ∈ s.splitPass.traces, t.start = a ∧ t.id = k) ↔
      ∃ t ∈ s.traces, t.start = a ∧ t.id = k := by
  have hmap : ∀ l : List StaticTrace, (∃ t ∈ l, t.start = a ∧ t.id = k) ↔
      (a, k) ∈ l.map fun t => (t.start, t.id) := by
    intro l
    simp only [List.mem_map, Prod.mk.injEq]
  have hsplit := hmap (splitLoop s.traces.elems)
  rw [map_splitLoop _ fun _ _ => rfl] at hsplit
  exact hsplit.trans (hmap s.traces.elems).symm

/-- The split pass keeps fresh identities, agreement and clashes. -/
theorem splitPass_indexes {s : CodeSectionSweeper} (hfresh : s.IdsFresh) :
    s.splitPass.IdsFresh ∧ (s.Agree → s.splitPass.Agree) ∧ (s.Clash → s.splitPass.Clash) := by
  refine ⟨fun t ht => ?_, fun h => ⟨fun a => ?_, fun t ht => ?_⟩, ?_⟩
  · obtain ⟨u, hu, -, hid⟩ := (mem_splitPass_object t.start t.id).mp ⟨t, ht, rfl, rfl⟩
    show t.id < s.nextId
    rw [← hid]
    exact hfresh u hu
  · refine (h.starts a).trans ⟨?_, ?_⟩
    · rintro ⟨t, ht, rfl⟩
      obtain ⟨u, hu, hstart, -⟩ := (mem_splitPass_object t.start t.id).mpr ⟨t, ht, rfl, rfl⟩
      exact ⟨u, hu, hstart⟩
    · rintro ⟨t, ht, rfl⟩
      obtain ⟨u, hu, hstart, -⟩ := (mem_splitPass_object t.start t.id).mp ⟨t, ht, rfl, rfl⟩
      exact ⟨u, hu, hstart⟩
  · obtain ⟨u, hu, hstart, hid⟩ := (mem_splitPass_object t.start t.id).mp ⟨t, ht, rfl, rfl⟩
    show s.mapTraces t.start = some t.id
    rw [← hstart, ← hid]
    exact h.same u hu
  · rintro ⟨t, ht, hne⟩
    obtain ⟨u, hu, hstart, hid⟩ := (mem_splitPass_object t.start t.id).mpr ⟨t, ht, rfl, rfl⟩
    refine ⟨u, hu, ?_⟩
    show s.mapTraces u.start ≠ some u.id
    rw [hstart, hid]
    exact hne

/-- **`process`** keeps fresh identities, agreement and clashes. -/
theorem process_indexes {n : Nat} {s s' : CodeSectionSweeper} (hfresh : s.IdsFresh)
    (h : s.process n code = some s') :
    s'.IdsFresh ∧ (s.Agree → s'.Agree) ∧ (s.Clash → s'.Clash) := by
  obtain ⟨w, hw, rfl⟩ := Option.map_eq_some_iff.mp h
  obtain ⟨hfresh₁, hagree₁, hclash₁⟩ := popSteps_indexes hfresh (popSteps_of_worklist hw).1
  obtain ⟨hfresh₂, hagree₂, hclash₂⟩ := splitPass_indexes hfresh₁
  exact ⟨hfresh₂, fun h => hagree₂ (hagree₁ h), fun h => hclash₂ (hclash₁ h)⟩

/-! ## `spotGaps` -/

/-- The starts of the traces assembled, in order. -/
def assembledStarts (events : List SweepEvent) : List U32 :=
  events.filterMap fun
    | .pend _ => none
    | .assemble _ start _ => some start

/-- The traces assembled start at addresses without a trace, each at another one. -/
def AssemblesFresh (s : CodeSectionSweeper) (events : List SweepEvent) : Prop :=
  (assembledStarts events).Nodup ∧ ∀ a ∈ assembledStarts events, s.hasTraceAt a = false

theorem assemblesFresh_pend (s : CodeSectionSweeper) (target : U32) (events : List SweepEvent) :
    s.AssemblesFresh (.pend target :: events) ↔
      (s.applyEvent (.pend target)).AssemblesFresh events := Iff.rfl

theorem assemblesFresh_assemble {s : CodeSectionSweeper} (cause : AssembleCause) {start : U32}
    (size : U32) (events : List SweepEvent) (hfree : s.hasTraceAt start = false) :
    s.AssemblesFresh (.assemble cause start size :: events) ↔
      (s.applyEvent (.assemble cause start size)).AssemblesFresh events := by
  have hat : ∀ a, (s.applyEvent (.assemble cause start size)).hasTraceAt a = false ↔
      a ≠ start ∧ s.hasTraceAt a = false := hasTraceAt_addTrace hfree
  constructor
  · rintro ⟨hnodup, hall⟩
    obtain ⟨hnot, hnodup⟩ := List.nodup_cons.mp hnodup
    refine ⟨hnodup, fun a ha => (hat a).mpr ⟨fun heq => hnot ?_, ?_⟩⟩
    · rw [← show a = start from heq]
      exact ha
    · exact hall a (List.mem_cons_of_mem _ ha)
  · rintro ⟨hnodup, hall⟩
    refine ⟨List.nodup_cons.mpr ⟨fun hmem => ((hat start).mp (hall start hmem)).1 rfl, hnodup⟩, ?_⟩
    exact List.forall_mem_cons.mpr ⟨hfree, fun a ha => ((hat a).mp (hall a ha)).2⟩

theorem applyEvents_idsFresh {events : List SweepEvent} {s : CodeSectionSweeper}
    (hfresh : s.IdsFresh) : (events.foldl applyEvent s).IdsFresh := by
  induction events generalizing s with
  | nil => exact hfresh
  | cons ev events ih =>
      cases ev with
      | pend target => exact ih hfresh
      | assemble cause start size => exact ih (hfresh.addTrace rfl)

theorem Clash.applyEvents {events : List SweepEvent} {s : CodeSectionSweeper}
    (h : s.Clash) (hfresh : s.IdsFresh) : (events.foldl applyEvent s).Clash := by
  induction events generalizing s with
  | nil => exact h
  | cons ev events ih =>
      cases ev with
      | pend target => exact ih h hfresh
      | assemble cause start size => exact ih (h.addTrace hfresh rfl) (hfresh.addTrace rfl)

/-- **What the events do to the indexes**: they keep the agreement, or make a clash. -/
theorem applyEvents_agree_or_clash {events : List SweepEvent} {s : CodeSectionSweeper}
    (hagree : s.Agree) (hfresh : s.IdsFresh) :
    (s.AssemblesFresh events ∧ (events.foldl applyEvent s).Agree) ∨
      (¬ s.AssemblesFresh events ∧ (events.foldl applyEvent s).Clash) := by
  induction events generalizing s with
  | nil => exact Or.inl ⟨⟨List.nodup_nil, fun a ha => absurd ha List.not_mem_nil⟩, hagree⟩
  | cons ev events ih =>
      rw [List.foldl_cons]
      cases ev with
      | pend target =>
          rw [assemblesFresh_pend]
          exact ih (hagree.congr rfl rfl) hfresh
      | assemble cause start size =>
          have hfresh' : (s.applyEvent (.assemble cause start size)).IdsFresh :=
            hfresh.addTrace rfl
          -- the set takes the new trace exactly when it has none at this start
          cases hat : s.hasTraceAt start with
          | false =>
              rw [assemblesFresh_assemble cause size events hat]
              exact ih (hagree.addTrace hat) hfresh'
          | true =>
              have hclash : (s.applyEvent (.assemble cause start size)).Clash :=
                clash_addTrace hfresh rfl hat
              refine Or.inr ⟨fun h => ?_, hclash.applyEvents hfresh'⟩
              rw [h.2 start List.mem_cons_self] at hat
              exact absurd hat (by simp)

/-- **`spotGaps`** keeps the agreement exactly when the traces it assembles in the gaps start at
new addresses. -/
theorem spotGaps_agree_iff {n : Nat} {s s' : CodeSectionSweeper} {events : List SweepEvent}
    (hagree : s.Agree) (hfresh : s.IdsFresh) (hevents : s.gapEvents n code = some events)
    (h : s.spotGaps n code = some s') :
    s'.IdsFresh ∧ (s'.Agree ↔ s.AssemblesFresh events) := by
  have hsweep : s.sweepGaps n code = some (events.foldl applyEvent s) := by
    unfold sweepGaps
    rw [hevents]
    rfl
  unfold spotGaps at h
  rw [hsweep] at h
  obtain ⟨hfresh', hkeeps, hclashes⟩ := process_indexes (applyEvents_idsFresh hfresh) h
  refine ⟨hfresh', ?_⟩
  rcases applyEvents_agree_or_clash hagree hfresh with ⟨hnew, hagree'⟩ | ⟨hnew, hclash⟩
  · exact iff_of_true (hkeeps hagree') hnew
  · exact iff_of_false (hclashes hclash).not_agree hnew

/-! ## `postProcess` -/

/-- The area of a `lea` target reaches up to `stop`: the padding scan ends there, within 4 KiB. -/
def LeaArea (code : Code) (leaTarget stop : U32) : Prop :=
  Computes (fun n => paddingScan n code leaTarget) stop ∧
    stop < leaTarget + maxLeaPaddingSearchRange

/-- No trace meets the area of a `lea` target. -/
def SparesTraces (code : Code) (s : CodeSectionSweeper) : Prop :=
  ∀ leaTarget ∈ s.leaTargets, ∀ stop, LeaArea code leaTarget stop →
    ∀ t ∈ s.traces, t.intersect leaTarget (stop - leaTarget) = false

theorem intersect_eq_false_of_le {t : StaticTrace} {leaTarget stop : U32}
    (h : stop.toNat ≤ t.start.toNat) : t.intersect leaTarget (stop - leaTarget) = false := by
  have hstop : leaTarget + (stop - leaTarget) = stop := by bv_omega
  unfold StaticTrace.intersect
  rw [hstop, Bool.not_eq_false', Bool.or_eq_true]
  exact Or.inr (decide_eq_true h)

/-- The early exit of the loop over the traces misses nothing. -/
theorem mem_invalidateLoop {leaTarget stop : U32} {l : List StaticTrace} (hasc : Ascending l)
    {t : StaticTrace} : t ∈ (invalidateLoop leaTarget stop l).1 ↔
      t ∈ l ∧ t.intersect leaTarget (stop - leaTarget) = false := by
  induction l with
  | nil => exact iff_of_false List.not_mem_nil fun h => absurd h.1 List.not_mem_nil
  | cons u l ih =>
      unfold invalidateLoop
      split_ifs with hmeets hbigger
      · refine (ih hasc.of_cons).trans ⟨fun h => ⟨List.mem_cons_of_mem _ h.1, h.2⟩, ?_⟩
        rintro ⟨ht, hnot⟩
        rcases List.mem_cons.mp ht with rfl | ht
        · rw [hmeets] at hnot
          exact absurd hnot (by simp)
        · exact ⟨ht, hnot⟩
      · -- what follows starts behind the area
        refine ⟨fun ht => ⟨ht, intersect_eq_false_of_le ?_⟩, And.left⟩
        have hu : stop.toNat < u.start.toNat := of_decide_eq_true hbigger
        rcases List.mem_cons.mp ht with rfl | ht
        · exact hu.le
        · exact (hu.trans (List.rel_of_pairwise_cons hasc ht)).le
      · have hstays : u.intersect leaTarget (stop - leaTarget) = false := by simpa using hmeets
        show t ∈ u :: (invalidateLoop leaTarget stop l).1 ↔ _
        rw [List.mem_cons, List.mem_cons, ih hasc.of_cons]
        constructor
        · rintro (rfl | ⟨ht, hnot⟩)
          · exact ⟨Or.inl rfl, hstays⟩
          · exact ⟨Or.inr ht, hnot⟩
        · rintro ⟨rfl | ht, hnot⟩
          · exact Or.inl rfl
          · exact Or.inr ⟨ht, hnot⟩

theorem mem_invalidate {traces : TraceSet} {leaTarget stop : U32} {t : StaticTrace} :
    t ∈ (invalidate traces leaTarget stop).1 ↔
      t ∈ traces ∧ t.intersect leaTarget (stop - leaTarget) = false :=
  mem_invalidateLoop traces.sorted_elems

/-- **The traces that stay** are those that meet no area. -/
theorem mem_postProcessLoop {n : Nat} {leaTargets : List U32} {st st' : TraceSet × Bool}
    (h : postProcessLoop n code leaTargets st = some st') {t : StaticTrace} :
    t ∈ st'.1 ↔ t ∈ st.1 ∧ ∀ leaTarget ∈ leaTargets, ∀ stop, LeaArea code leaTarget stop →
      t.intersect leaTarget (stop - leaTarget) = false := by
  induction leaTargets generalizing st with
  | nil =>
      rw [Option.some.inj h]
      exact ⟨fun ht => ⟨ht, fun a ha => absurd ha List.not_mem_nil⟩, And.left⟩
  | cons leaTarget rest ih =>
      rw [postProcessLoop] at h
      split at h
      · exact absurd h (by simp)
      · rename_i stop hscan
        have hcomputes : Computes (fun n => paddingScan n code leaTarget) stop :=
          (fuelMono_paddingScan leaTarget).computes hscan
        rw [List.forall_mem_cons]
        split_ifs at h with hnear
        · -- the area counts
          rw [ih h]
          show t ∈ (invalidate st.1 leaTarget stop).1 ∧ _ ↔ _
          rw [mem_invalidate, and_assoc]
          refine and_congr_right fun _ => and_congr_left fun _ =>
            ⟨fun hnot stop' harea => ?_, fun hall => ?_⟩
          · rw [harea.1.unique hcomputes]
            exact hnot
          · exact hall stop ⟨hcomputes, hnear⟩
        · rw [ih h]
          refine and_congr_right fun _ => ⟨fun hall => ⟨fun stop' harea => ?_, hall⟩, And.right⟩
          have hsame := harea.1.unique hcomputes
          exact absurd (hsame ▸ harea.2) hnear

/-- **`postProcess`** keeps the agreement exactly when it invalidates no trace. -/
theorem postProcess_agree_iff {n : Nat} {s : CodeSectionSweeper} {r : CodeSectionSweeper × Bool}
    (hagree : s.Agree) (hfresh : s.IdsFresh) (h : s.postProcess n code = some r) :
    r.1.IdsFresh ∧ (r.1.Agree ↔ s.SparesTraces code) := by
  obtain ⟨st, hloop, rfl⟩ := Option.map_eq_some_iff.mp h
  have hmem : ∀ t, t ∈ st.1 ↔ t ∈ s.traces ∧ ∀ leaTarget ∈ s.leaTargets.elems, ∀ stop,
      LeaArea code leaTarget stop → t.intersect leaTarget (stop - leaTarget) = false :=
    fun t => mem_postProcessLoop hloop
  refine ⟨fun t ht => hfresh t ((hmem t).mp ht).1, fun hagree' => ?_, fun hspares => ?_⟩
  · -- the start of a trace that is gone is still mapped
    intro leaTarget hlea stop harea t ht
    have hmapped : s.hasTraceStart t.start = true := (hagree.starts t.start).mpr ⟨t, ht, rfl⟩
    obtain ⟨u, hu, hstart⟩ := (hagree'.starts t.start).mp hmapped
    obtain ⟨hu', hstays⟩ := (hmem u).mp hu
    rw [← s.traces.eq_of_key_eq hu' ht (congrArg BitVec.toNat hstart)]
    exact hstays leaTarget hlea stop harea
  · have hsame : st.1 = s.traces := KeyedSet.ext fun t => (hmem t).trans
      ⟨And.left, fun ht => ⟨ht, fun a ha stop harea => hspares a ha stop harea t ht⟩⟩
    exact hagree.congr hsame rfl

/-! ## Runs -/

/-- The operations. -/
inductive Op where
  | process | spotGaps | postProcess
  deriving Repr, DecidableEq

/-- The state after an operation. -/
def runOp (n : Nat) (code : Code) (s : CodeSectionSweeper) : Op → Option CodeSectionSweeper
  | .process => s.process n code
  | .spotGaps => s.spotGaps n code
  | .postProcess => (s.postProcess n code).map Prod.fst

/-- A sequence of operations from `s`, each with the state after it. -/
inductive Runs (code : Code) : CodeSectionSweeper → List (Op × CodeSectionSweeper) → Prop
  | nil {s : CodeSectionSweeper} : Runs code s []
  | cons {s s' : CodeSectionSweeper} {op : Op} {n : Nat} {run : List (Op × CodeSectionSweeper)} :
      s.runOp n code op = some s' → Runs code s' run → Runs code s ((op, s') :: run)

/-- What an operation needs of the state before it: `spotGaps` assembles traces at new addresses
only, `postProcess` finds no trace to invalidate. -/
def Meets (code : Code) (s : CodeSectionSweeper) : Op → Prop
  | .process => True
  | .spotGaps => ∀ events, Computes (fun n => s.gapEvents n code) events → s.AssemblesFresh events
  | .postProcess => s.SparesTraces code

/-- Every operation of a run finds what it needs. -/
def MeetsAll (code : Code) : CodeSectionSweeper → List (Op × CodeSectionSweeper) → Prop
  | _, [] => True
  | s, (op, s') :: run => s.Meets code op ∧ MeetsAll code s' run

/-- **Step.** From indexes that agree, an operation keeps the agreement exactly when it finds what
it needs. -/
theorem runOp_agree_iff {n : Nat} {s s' : CodeSectionSweeper} {op : Op} (hagree : s.Agree)
    (hfresh : s.IdsFresh) (h : s.runOp n code op = some s') :
    s'.IdsFresh ∧ (s'.Agree ↔ s.Meets code op) := by
  cases op with
  | process =>
      obtain ⟨hfresh', hkeeps, -⟩ := process_indexes hfresh h
      exact ⟨hfresh', iff_of_true (hkeeps hagree) trivial⟩
  | spotGaps =>
      have hsome : ∃ events, s.gapEvents n code = some events := by
        cases hevents : s.gapEvents n code with
        | some events => exact ⟨events, rfl⟩
        | none =>
            have hnone : s.spotGaps n code = none := by
              unfold spotGaps sweepGaps
              rw [hevents]
              rfl
            exact absurd (hnone.symm.trans h) (by simp)
      obtain ⟨events, hevents⟩ := hsome
      obtain ⟨hfresh', hiff⟩ := spotGaps_agree_iff hagree hfresh hevents h
      have hcomputes := s.fuelMono_gapEvents.computes hevents
      refine ⟨hfresh', hiff.trans ⟨fun hnew events' hevents' => ?_, fun hall => ?_⟩⟩
      · rw [hevents'.unique hcomputes]
        exact hnew
      · exact hall events hcomputes
  | postProcess =>
      obtain ⟨r, hr, rfl⟩ := Option.map_eq_some_iff.mp h
      exact postProcess_agree_iff hagree hfresh hr

/-- **Run**, from indexes that agree. -/
theorem runs_agree_iff_of_agree {s : CodeSectionSweeper} {run : List (Op × CodeSectionSweeper)}
    (hagree : s.Agree) (hfresh : s.IdsFresh) (h : Runs code s run) :
    (∀ p ∈ run, p.2.Agree) ↔ MeetsAll code s run := by
  induction h with
  | nil => exact iff_of_true (fun p hp => absurd hp List.not_mem_nil) trivial
  | @cons s s' op n run hop _ ih =>
      obtain ⟨hfresh', hiff⟩ := runOp_agree_iff hagree hfresh hop
      rw [List.forall_mem_cons, MeetsAll, ← hiff]
      exact and_congr_right fun hagree' => ih hagree' hfresh'

/-- **When the indexes agree all along.** From any targets and no traces, after every operation of
a run exactly when every `spotGaps` assembles traces at new addresses only and every `postProcess`
invalidates none. -/
theorem runs_agree_iff {s : CodeSectionSweeper} (htraces : s.traces = ∅)
    (hmap : ∀ a, s.mapTraces a = none) {run : List (Op × CodeSectionSweeper)}
    (h : Runs code s run) : (∀ p ∈ run, p.2.Agree) ↔ MeetsAll code s run := by
  have hnone : ∀ t, t ∉ s.traces := fun t => by
    rw [htraces]
    exact KeyedSet.not_mem_empty t
  refine runs_agree_iff_of_agree ⟨fun a => ?_, fun t ht => absurd ht (hnone t)⟩
    (fun t ht => absurd ht (hnone t)) h
  rw [hasTraceStart_eq_true, hmap a]
  exact iff_of_false (by simp) fun ⟨t, ht, _⟩ => hnone t ht

section Samples

/-- The section of `leaCode`, with targets at the `lea` and at the address it takes. -/
def leaSweeper : CodeSectionSweeper :=
  ((init ⟨0x1000, 0x21, by decide⟩).appendTarget 0x1000).appendTarget 0x1010

theorem runs_agree_iff_sample : ∃ p₁ p₂ p₃,
    Runs leaCode leaSweeper [(.process, p₁), (.spotGaps, p₂), (.postProcess, p₃)] ∧
      p₂.leaTargets.elems = [0x1010] ∧
      ((∀ p ∈ [(Op.process, p₁), (Op.spotGaps, p₂), (Op.postProcess, p₃)], p.2.Agree) ↔
        MeetsAll leaCode leaSweeper [(.process, p₁), (.spotGaps, p₂), (.postProcess, p₃)]) := by
  have hsome : (((leaSweeper.process 40 leaCode).bind
      fun p₁ => runOp 40 leaCode p₁ .spotGaps).bind fun p₂ =>
        (runOp 40 leaCode p₂ .postProcess).map fun _ => p₂.leaTargets.elems) = some [0x1010] := by
    decide
  obtain ⟨p₂, hp₂, hlea⟩ := Option.bind_eq_some_iff.mp hsome
  obtain ⟨p₁, h₁, h₂⟩ := Option.bind_eq_some_iff.mp hp₂
  obtain ⟨p₃, h₃, hlea⟩ := Option.map_eq_some_iff.mp hlea
  have hrun : Runs leaCode leaSweeper [(.process, p₁), (.spotGaps, p₂), (.postProcess, p₃)] :=
    .cons (n := 40) h₁ (.cons (n := 40) h₂ (.cons (n := 40) h₃ .nil))
  exact ⟨p₁, p₂, p₃, hrun, hlea, runs_agree_iff rfl (fun _ => rfl) hrun⟩

/-- `spotGaps` sweeps the last trace once more: the set keeps the old object, the map the new
one. -/
theorem resweep_replaces_trace : ∃ p₁ p₂,
    Runs retCode sampleSweeper [(.process, p₁), (.spotGaps, p₂)] ∧ p₂.Clash := by
  have hruns : ((sampleSweeper.process 9 retCode).bind fun p₁ => runOp 9 retCode p₁ .spotGaps).map
      (fun p₂ => p₂.traces.elems.map fun t => (t.start, t.id, p₂.mapTraces t.start)) =
        some [(0x1000, 0, some 0), (0x1001, 2, some 2), (0x1002, 1, some 3),
          (0x1003, 4, some 4)] := by
    decide
  obtain ⟨p₂, hp₂, hresult⟩ := Option.map_eq_some_iff.mp hruns
  obtain ⟨p₁, h₁, h₂⟩ := Option.bind_eq_some_iff.mp hp₂
  refine ⟨p₁, p₂, .cons (n := 9) h₁ (.cons (n := 9) h₂ .nil), ?_⟩
  have hmem : ((0x1002 : U32), 1, some 3) ∈
      p₂.traces.elems.map fun t => (t.start, t.id, p₂.mapTraces t.start) := by
    rw [hresult]
    decide
  obtain ⟨t, ht, heq⟩ := List.mem_map.mp hmem
  obtain ⟨-, hid, hmapped⟩ : t.start = 0x1002 ∧ t.id = 1 ∧ p₂.mapTraces t.start = some 3 := by
    simpa using heq
  refine ⟨t, ht, ?_⟩
  rw [hmapped, hid]
  decide

/-- `postProcess` erases the trace at `0x1010`, and `HasTraceStart` still reports it. -/
theorem invalidated_still_reported : ∃ p₁ p₂,
    Runs leaCode leaSweeper [(.process, p₁), (.postProcess, p₂)] ∧
      p₂.hasTraceStart 0x1010 = true ∧ ¬ ∃ t ∈ p₂.traces, t.start = 0x1010 := by
  have hruns : ((leaSweeper.process 24 leaCode).bind fun p₁ => runOp 24 leaCode p₁ .postProcess).map
      (fun p₂ => (p₂.hasTraceStart 0x1010, p₂.traces.elems.map StaticTrace.start)) =
        some (true, [0x1000]) := by
    decide
  obtain ⟨p₂, hp₂, hresult⟩ := Option.map_eq_some_iff.mp hruns
  obtain ⟨p₁, h₁, h₂⟩ := Option.bind_eq_some_iff.mp hp₂
  obtain ⟨hmapped, hstarts⟩ := Prod.mk.inj hresult
  refine ⟨p₁, p₂, .cons (n := 24) h₁ (.cons (n := 24) h₂ .nil), hmapped, ?_⟩
  rintro ⟨t, ht, heq⟩
  have hmem : t.start ∈ p₂.traces.elems.map StaticTrace.start := List.mem_map_of_mem ht
  rw [hstarts, heq] at hmem
  exact absurd hmem (by decide)

/-- Neither index follows the other. -/
theorem indexes_disagree :
    (∃ p₁ p₂, Runs retCode sampleSweeper [(.process, p₁), (.spotGaps, p₂)] ∧ ¬ p₂.Agree) ∧
      ∃ p₁ p₂, Runs leaCode leaSweeper [(.process, p₁), (.postProcess, p₂)] ∧ ¬ p₂.Agree := by
  constructor
  · obtain ⟨p₁, p₂, hrun, hclash⟩ := resweep_replaces_trace
    exact ⟨p₁, p₂, hrun, hclash.not_agree⟩
  · obtain ⟨p₁, p₂, hrun, hmapped, hgone⟩ := invalidated_still_reported
    exact ⟨p₁, p₂, hrun, fun hagree => hgone ((hagree.starts 0x1010).mp hmapped)⟩

end Samples

end CodeSectionSweeper

end PEReplay
