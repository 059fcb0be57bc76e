/-
# PEReplay.Sweeper.Explore — the worklist of `process` explores exactly what is reachable.

A state of the sweeper is seen as a worklist state: its pending targets, and the starts of its
traces as what has been visited (`abs`).  Popping any pending target is then a step of the abstract
worklist (`popStep_spec`), so every order of pops ends, and every run that has nothing left to pop
has a trace at exactly the reachable starts.  `worklist_explores` adds the sizes, and that the loop
of the source, which pops the smallest target first, is one of these runs and terminates.
-/
import PEReplay.Sweeper.Sweeper
import PEReplay.Sweeper.StraightLine
import PEReplay.Lib.Worklist

namespace PEReplay

open Loop

namespace CodeSectionSweeper

/-! ## `HasTraceAt` -/

theorem hasTraceAtLoop_eq (target : U32) (l : List StaticTrace) :
    hasTraceAtLoop target l =
      (KeyedSet.findUntil (fun t => t.equals target) (fun t => t.smallerThan target) l).isSome := by
  induction l with
  | nil => rfl
  | cons t l ih =>
      rw [hasTraceAtLoop, KeyedSet.findUntil, ih]
      split_ifs
      · rfl
      · rfl
      · rfl

/-- On starts in descending order the early exit of the backward loop misses nothing. -/
theorem hasTraceAtLoop_iff {l : List StaticTrace}
    (h : l.Pairwise fun t u => u.start.toNat < t.start.toNat) (target : U32) :
    hasTraceAtLoop target l = true ↔ ∃ t ∈ l, t.start = target := by
  have hexit : l.Pairwise fun t u => t.smallerThan target = true → u.equals target = false := by
    apply h.imp
    intro t u hlt hsmall
    have hsmall : t.start < target := of_decide_eq_true hsmall
    refine beq_eq_false_iff_ne.mpr fun heq => ?_
    rw [heq] at hlt
    exact absurd hsmall (by bv_omega)
  rw [hasTraceAtLoop_eq, KeyedSet.findUntil_eq_find? hexit, List.find?_isSome]
  simp only [StaticTrace.equals, beq_iff_eq]

/-- **`HasTraceAt` is exact.** -/
theorem hasTraceAt_iff (s : CodeSectionSweeper) (target : U32) :
    s.hasTraceAt target = true ↔ ∃ t ∈ s.traces, t.start = target := by
  unfold hasTraceAt
  rw [hasTraceAtLoop_iff (List.pairwise_reverse.mpr s.traces.sorted_elems)]
  simp only [List.mem_reverse, KeyedSet.mem_def]

theorem hasTraceAt_iff_hasKey (s : CodeSectionSweeper) (target : U32) :
    s.hasTraceAt target = true ↔ s.traces.HasKey target.toNat := by
  rw [hasTraceAt_iff]
  exact exists_congr fun t => and_congr_right fun _ => BitVec.toNat_inj.symm

/-! ## One pop -/

/-- The target is to be visited: inside the section and without a trace. -/
def Fresh (s : CodeSectionSweeper) (target : U32) : Prop :=
  s.isAddrCode target = true ∧ s.hasTraceAt target = false

instance (s : CodeSectionSweeper) (target : U32) : Decidable (s.Fresh target) :=
  inferInstanceAs (Decidable (_ ∧ _))

/-- The state after a target is dropped. -/
def dropped (s : CodeSectionSweeper) (target : U32) : CodeSectionSweeper :=
  { s with pendingTargets := s.pendingTargets.erase target }

/-- The state after a target is visited along its straight-line run. -/
def visited (s : CodeSectionSweeper) (target : U32) (run : List (U32 × Instruction)) :
    CodeSectionSweeper :=
  { (s.dropped target).addTrace (StaticTrace.ofRun s.nextId target s.codeSection run) with
    pendingTargets := (runTargets run).foldl (fun p t => p.insert t) (s.pendingTargets.erase target)
    leaTargets := runLea run s.leaTargets }

/-- The state after a target is popped. -/
def popped (s : CodeSectionSweeper) (target : U32) (run : List (U32 × Instruction)) :
    CodeSectionSweeper :=
  if s.Fresh target then s.visited target run else s.dropped target

variable {code : Code}

/-- The state after a target is visited, from what `StaticTrace::process` returns for it. -/
def visitedWith (s : CodeSectionSweeper) (target : U32)
    (r : StaticTrace × List U32 × TargetSet) : CodeSectionSweeper :=
  { (s.dropped target).addTrace r.1 with
    pendingTargets := r.2.1.foldl (fun p t => p.insert t) (s.pendingTargets.erase target)
    leaTargets := r.2.2 }

theorem popTarget_eq (n : Nat) (s : CodeSectionSweeper) (target : U32) :
    s.popTarget n code target =
      if s.Fresh target then
        ((StaticTrace.new s.nextId target s.codeSection).process n code [] s.leaTargets).map
          (s.visitedWith target)
      else some (s.dropped target) := by
  have hcond : (s.isAddrCode target && !s.hasTraceAt target) = true ↔ s.Fresh target := by
    unfold Fresh
    rw [Bool.and_eq_true, Bool.not_eq_true']
  unfold popTarget
  by_cases hfresh : s.Fresh target
  · rw [if_pos hfresh]
    refine (if_pos (hcond.mpr hfresh)).trans ?_
    dsimp only
    cases (StaticTrace.new s.nextId target s.codeSection).process n code [] s.leaTargets <;> rfl
  · rw [if_neg hfresh]
    exact if_neg (mt hcond.mp hfresh)

/-- **Popping computes `popped`** when there is fuel for the run. -/
theorem popTarget_of_straightLine (s : CodeSectionSweeper) {target : U32}
    {run : List (U32 × Instruction)} (h : StraightLine code s.codeSection target run) {n : Nat}
    (hn : run.length < n) : s.popTarget n code target = some (s.popped target run) := by
  rw [popTarget_eq, popped, StaticTrace.process_of_straightLine h hn s.nextId s.leaTargets]
  split_ifs
  · rfl
  · rfl

/-- **What one pop can do.** -/
theorem popTarget_cases {n : Nat} {s s' : CodeSectionSweeper} {target : U32}
    (h : s.popTarget n code target = some s') :
    (¬ s.Fresh target ∧ s' = s.dropped target) ∨
      (s.Fresh target ∧ ∃ run, StraightLine code s.codeSection target run ∧
        s' = s.visited target run) := by
  rw [popTarget_eq] at h
  split_ifs at h with hfresh
  · obtain ⟨r, hprocess, rfl⟩ := Option.map_eq_some_iff.mp h
    obtain ⟨run, hrun, rfl⟩ := StaticTrace.straightLine_of_process hprocess
    exact Or.inr ⟨hfresh, run, hrun, rfl⟩
  · exact Or.inl ⟨hfresh, (Option.some.inj h).symm⟩

/-- One pop of an arbitrary pending target. -/
def PopStep (code : Code) (s s' : CodeSectionSweeper) : Prop :=
  ∃ target ∈ s.pendingTargets, Computes (fun n => s.popTarget n code target) s'

/-! ## The abstract worklist -/

/-- The targets `StaticTrace::process` generates from a start. -/
noncomputable def genSet (code : Code) (sec : CodeSection) (a : U32) : Finset U32 :=
  haveI := Classical.propDecidable (∃ r, Computes
    (fun n => (StaticTrace.new 0 a sec).process n code [] ∅) r)
  if h : ∃ r, Computes (fun n => (StaticTrace.new 0 a sec).process n code [] ∅) r then
    h.choose.2.1.toFinset
  else ∅

theorem genSet_eq {sec : CodeSection} {a : U32} {run : List (U32 × Instruction)}
    (h : StraightLine code sec a run) : genSet code sec a = (runTargets run).toFinset := by
  have hrun : Computes (fun n => (StaticTrace.new 0 a sec).process n code [] ∅)
      (StaticTrace.ofRun 0 a sec run, runTargets run, runLea run ∅) :=
    ⟨run.length + 1, fun n hn => StaticTrace.process_of_straightLine h (by omega) 0 ∅⟩
  have hex : ∃ r, Computes (fun n => (StaticTrace.new 0 a sec).process n code [] ∅) r := ⟨_, hrun⟩
  unfold genSet
  rw [dif_pos hex, hex.choose_spec.unique hrun]

/-- **The trace starts**: the least set that contains the targets of the section and, with a start,
every address of the section that `StaticTrace::process` generates from it. -/
def TraceStart (code : Code) (sec : CodeSection) (targets : TargetSet) : U32 → Prop :=
  Worklist.Reach (fun a => sec.isAddrCode a = true) (genSet code sec) (· ∈ targets.elems.toFinset)

/-- No smaller set has these two properties. -/
theorem TraceStart.least {code : Code} {sec : CodeSection} {targets : TargetSet} {S : U32 → Prop}
    (htarget : ∀ a ∈ targets, sec.isAddrCode a = true → S a)
    (hgen : ∀ a b, S a → b ∈ genSet code sec a → sec.isAddrCode b = true → S b) {a : U32}
    (h : TraceStart code sec targets a) : S a :=
  Worklist.Reach.least (fun a ha => htarget a (List.mem_toFinset.mp ha)) hgen h

/-- The sweeper as a worklist. -/
def abs (s : CodeSectionSweeper) : Worklist.State U32 :=
  ⟨s.pendingTargets.elems.toFinset, (s.traces.elems.map StaticTrace.start).toFinset⟩

theorem mem_visited_abs {s : CodeSectionSweeper} {a : U32} :
    a ∈ s.abs.visited ↔ ∃ t ∈ s.traces, t.start = a := by
  simp only [abs, List.mem_toFinset, List.mem_map, KeyedSet.mem_def]

theorem mem_pending_abs {s : CodeSectionSweeper} {a : U32} :
    a ∈ s.abs.pending ↔ a ∈ s.pendingTargets := by
  simp only [abs, List.mem_toFinset, KeyedSet.mem_def]

theorem notMem_visited_of_fresh {s : CodeSectionSweeper} {target : U32} :
    s.hasTraceAt target = false ↔ target ∉ s.abs.visited := by
  rw [mem_visited_abs, ← hasTraceAt_iff, Bool.not_eq_true]

theorem mem_erase_targets {p : TargetSet} {a b : U32} : b ∈ p.erase a ↔ b ≠ a ∧ b ∈ p := by
  rw [KeyedSet.mem_erase, and_comm, Ne, BitVec.toNat_inj]

theorem mem_traces_visited {s : CodeSectionSweeper} {target : U32}
    {run : List (U32 × Instruction)} (hfresh : s.Fresh target) {t : StaticTrace} :
    t ∈ (s.visited target run).traces ↔
      t = StaticTrace.ofRun s.nextId target s.codeSection run ∨ t ∈ s.traces := by
  refine KeyedSet.mem_insert_of_not_hasKey fun hkey => ?_
  have hhas : s.hasTraceAt target = true := (hasTraceAt_iff_hasKey s target).mpr hkey
  rw [hfresh.2] at hhas
  exact absurd hhas (by simp)

theorem fresh_iff (s : CodeSectionSweeper) (target : U32) : s.Fresh target ↔
    s.codeSection.isAddrCode target = true ∧ target ∉ s.abs.visited := by
  unfold Fresh isAddrCode
  rw [notMem_visited_of_fresh]

theorem pending_abs_dropped (s : CodeSectionSweeper) (target : U32) :
    (s.dropped target).abs.pending = s.abs.pending.erase target := by
  ext a
  rw [mem_pending_abs, Finset.mem_erase, mem_pending_abs]
  exact mem_erase_targets

/-- Dropping a target is a step of the abstract worklist. -/
theorem abs_dropped {s : CodeSectionSweeper} {target : U32} (h : ¬ s.Fresh target) :
    (s.dropped target).abs = Worklist.pop (fun a => s.codeSection.isAddrCode a = true)
      (genSet code s.codeSection) s.abs target := by
  unfold Worklist.pop
  rw [if_neg (mt (fresh_iff s target).mpr h), ← pending_abs_dropped]
  rfl

/-- Visiting a target is a step of the abstract worklist. -/
theorem abs_visited {s : CodeSectionSweeper} {target : U32} {run : List (U32 × Instruction)}
    (hfresh : s.Fresh target) (hrun : StraightLine code s.codeSection target run) :
    (s.visited target run).abs = Worklist.pop (fun a => s.codeSection.isAddrCode a = true)
      (genSet code s.codeSection) s.abs target := by
  unfold Worklist.pop
  have hpending : (s.visited target run).abs.pending =
      s.abs.pending.erase target ∪ genSet code s.codeSection target := by
    ext a
    rw [genSet_eq hrun, mem_pending_abs, Finset.mem_union, List.mem_toFinset,
      ← pending_abs_dropped, mem_pending_abs, or_comm]
    exact KeyedSet.mem_foldl_insert fun a b => BitVec.eq_of_toNat_eq
  have hvisited : (s.visited target run).abs.visited = insert target s.abs.visited := by
    ext a
    rw [mem_visited_abs, Finset.mem_insert, mem_visited_abs]
    constructor
    · rintro ⟨t, ht, rfl⟩
      rcases (mem_traces_visited hfresh).mp ht with rfl | ht
      · exact Or.inl rfl
      · exact Or.inr ⟨t, ht, rfl⟩
    · rintro (rfl | ⟨t, ht, rfl⟩)
      · exact ⟨_, (mem_traces_visited hfresh).mpr (Or.inl rfl), rfl⟩
      · exact ⟨t, (mem_traces_visited hfresh).mpr (Or.inr ht), rfl⟩
  rw [if_pos ((fresh_iff s target).mp hfresh), ← hpending, ← hvisited]

/-! ## Runs of pops -/

/-- What pops have made of a sweeper: its setup is the same, its traces are still there, and every
other trace is the straight-line run from its start, which lies in the section. -/
structure Grown (code : Code) (s₀ s : CodeSectionSweeper) : Prop where
  codeSection : s.codeSection = s₀.codeSection
  greyAreas : s.greyAreas = s₀.greyAreas
  kept : ∀ t ∈ s₀.traces, t ∈ s.traces
  follows : ∀ t ∈ s.traces, t ∈ s₀.traces ∨ (s₀.codeSection.isAddrCode t.start = true ∧
    ∃ run, StraightLine code s₀.codeSection t.start run ∧ t.size = BitVec.ofNat 32 (runSize run))

theorem Grown.refl (code : Code) (s : CodeSectionSweeper) : Grown code s s :=
  ⟨rfl, rfl, fun _ ht => ht, fun _ ht => Or.inl ht⟩

theorem Grown.trans {s₀ s s' : CodeSectionSweeper} (h : Grown code s₀ s) (h' : Grown code s s') :
    Grown code s₀ s' where
  codeSection := h'.codeSection.trans h.codeSection
  greyAreas := h'.greyAreas.trans h.greyAreas
  kept := fun t ht => h'.kept t (h.kept t ht)
  follows := fun t ht => by
    rcases h'.follows t ht with ht | hnew
    · exact h.follows t ht
    · rw [h.codeSection] at hnew
      exact Or.inr hnew

theorem Grown.visited {s : CodeSectionSweeper} {target : U32} {run : List (U32 × Instruction)}
    (hfresh : s.Fresh target) (hrun : StraightLine code s.codeSection target run) :
    Grown code s (s.visited target run) := by
  refine ⟨rfl, rfl, fun t ht => (mem_traces_visited hfresh).mpr (Or.inr ht), fun t ht => ?_⟩
  rcases (mem_traces_visited hfresh).mp ht with rfl | ht
  · exact Or.inr ⟨hfresh.1, run, hrun, rfl⟩
  · exact Or.inl ht

/-- **Step.** A pop grows the sweeper, and it is a step of the abstract worklist. -/
theorem popStep_spec {s s' : CodeSectionSweeper} (h : PopStep code s s') :
    Grown code s s' ∧ ∃ target ∈ s.abs.pending, s'.abs =
      Worklist.pop (fun a => s.codeSection.isAddrCode a = true) (genSet code s.codeSection)
        s.abs target := by
  obtain ⟨target, htarget, n, hn⟩ := h
  have hpending : target ∈ s.abs.pending := mem_pending_abs.mpr htarget
  rcases popTarget_cases (hn n le_rfl) with ⟨hstale, rfl⟩ | ⟨hfresh, run, hrun, rfl⟩
  · exact ⟨⟨rfl, rfl, fun _ ht => ht, fun _ ht => Or.inl ht⟩, target, hpending, abs_dropped hstale⟩
  · exact ⟨Grown.visited hfresh hrun, target, hpending, abs_visited hfresh hrun⟩

/-- **No order of pops goes on for ever.** -/
theorem popStep_wf (code : Code) : WellFounded (flip (PopStep code)) := by
  have : Fintype U32 := Fintype.ofEquiv _ (BitVec.equivFin (m := 32)).symm.toEquiv
  refine Worklist.wf_of_pops abs fun s s' h => ?_
  obtain ⟨-, target, htarget, habs⟩ := popStep_spec h
  exact ⟨_, inferInstance, _, target, htarget, habs⟩

theorem Grown.visited_subset {s₀ s : CodeSectionSweeper} (h : Grown code s₀ s) :
    s₀.abs.visited ⊆ s.abs.visited := by
  intro a ha
  obtain ⟨t, ht, rfl⟩ := mem_visited_abs.mp ha
  exact mem_visited_abs.mpr ⟨t, h.kept t ht, rfl⟩

/-- **Run.** What any sequence of pops has established: apart from the starts that were there, it
has visited along the generated targets. -/
theorem popSteps_spec {s₀ s : CodeSectionSweeper} (h : Relation.ReflTransGen (PopStep code) s₀ s) :
    Grown code s₀ s ∧
      Worklist.Inv (fun a => s₀.codeSection.isAddrCode a = true ∧ a ∉ s₀.abs.visited)
        (genSet code s₀.codeSection) (· ∈ s₀.pendingTargets.elems.toFinset)
        (Worklist.since s₀.abs.visited s.abs) := by
  induction h with
  | refl =>
      refine ⟨Grown.refl code s₀, ?_⟩
      unfold Worklist.since
      rw [Finset.sdiff_self]
      exact Worklist.Inv.init _
  | tail _ hstep ih =>
      obtain ⟨hgrown, hinv⟩ := ih
      obtain ⟨hgrown', target, htarget, habs⟩ := popStep_spec hstep
      refine ⟨hgrown.trans hgrown', ?_⟩
      rw [habs, Worklist.since_pop hgrown.visited_subset, hgrown.codeSection]
      exact hinv.pop htarget

/-- Every pop of a pending target has an outcome. -/
theorem exists_popStep {longest : Nat} {s : CodeSectionSweeper}
    (hb : s.codeSection.Below code longest) (target : U32) :
    ∃ s', Computes (fun n => s.popTarget n code target) s' := by
  obtain ⟨run, hrun, -⟩ := exists_straightLine hb target
  exact ⟨s.popped target run, run.length + 1, fun n hn =>
    popTarget_of_straightLine s hrun (by omega)⟩

/-! ## What has been explored -/

/-- Starts and sizes of the traces, without the identity of the objects. -/
def outline (s : CodeSectionSweeper) : KeyedSet (fun p : U32 × U32 => p.1.toNat) where
  elems := s.traces.elems.map fun t => (t.start, t.size)
  sorted := by
    rw [List.map_map]
    exact s.traces.sorted

/-- There is a trace at exactly the trace starts, and each is as long as the straight-line run from
its start. -/
structure Explored (code : Code) (targets : TargetSet) (s : CodeSectionSweeper) : Prop where
  starts : ∀ a, (∃ t ∈ s.traces, t.start = a) ↔ TraceStart code s.codeSection targets a
  sizes : ∀ t ∈ s.traces, ∃ run, StraightLine code s.codeSection t.start run ∧
    t.size.toNat = runSize run

/-- **What the worklist finds from a sweeper**: the traces it has, and the straight-line runs from
the starts that are reachable from the pending targets through addresses without a trace. -/
def Traced (code : Code) (s : CodeSectionSweeper) (a : U32) (k : Nat) : Prop :=
  (∃ t ∈ s.traces, t.start = a ∧ t.size.toNat = k) ∨
    (Worklist.Reach (fun a => s.codeSection.isAddrCode a = true ∧ a ∉ s.abs.visited)
      (genSet code s.codeSection) (· ∈ s.pendingTargets.elems.toFinset) a ∧
      ∃ run, StraightLine code s.codeSection a run ∧ runSize run = k)

/-- The size of a trace that follows a run is the size of the run. -/
theorem toNat_size_of_run {longest : Nat} {sec : CodeSection} (hb : sec.Below code longest)
    {a : U32} (hcode : sec.isAddrCode a = true) {run : List (U32 × Instruction)}
    (hrun : StraightLine code sec a run) :
    (BitVec.ofNat 32 (runSize run)).toNat = runSize run ∧
      a.toNat + runSize run ≤ sec.start.toNat + sec.size.toNat + longest := by
  obtain ⟨run', hrun', hbound⟩ := exists_straightLine hb a
  obtain rfl := hrun.unique hrun'
  have hle := hbound hcode
  have hroom := hb.room
  refine ⟨?_, hle⟩
  rw [BitVec.toNat_ofNat, Nat.mod_eq_of_lt (by omega)]

/-- When nothing is pending, the traces are what the worklist finds. -/
theorem traced_of_popSteps {longest : Nat} {s₀ s : CodeSectionSweeper}
    (hb : s₀.codeSection.Below code longest) (h : Relation.ReflTransGen (PopStep code) s₀ s)
    (hdone : s.pendingTargets = ∅) (a : U32) (k : Nat) :
    (∃ t ∈ s.traces, t.start = a ∧ t.size.toNat = k) ↔ s₀.Traced code a k := by
  obtain ⟨hgrown, hinv⟩ := popSteps_spec h
  have hpending : (Worklist.since s₀.abs.visited s.abs).pending = ∅ := by
    show s.pendingTargets.elems.toFinset = ∅
    rw [hdone]
    rfl
  have hreach := Worklist.visited_eq_reach hinv hpending
  have hnew : ∀ a, a ∈ (Worklist.since s₀.abs.visited s.abs).visited ↔
      (∃ t ∈ s.traces, t.start = a) ∧ a ∉ s₀.abs.visited := fun a => by
    rw [← mem_visited_abs]
    exact Finset.mem_sdiff
  constructor
  · rintro ⟨t, ht, rfl, rfl⟩
    by_cases hold : t.start ∈ s₀.abs.visited
    · -- one trace per start, so it is the one that was there
      obtain ⟨t₀, ht₀, hstart⟩ := mem_visited_abs.mp hold
      have heq := s.traces.eq_of_key_eq (hgrown.kept t₀ ht₀) ht (congrArg BitVec.toNat hstart)
      exact Or.inl ⟨t, heq ▸ ht₀, rfl, rfl⟩
    · rcases hgrown.follows t ht with ht₀ | ⟨hcode, run, hrun, hsize⟩
      · exact absurd (mem_visited_abs.mpr ⟨t, ht₀, rfl⟩) hold
      · refine Or.inr ⟨(hreach t.start).mp ((hnew t.start).mpr ⟨⟨t, ht, rfl⟩, hold⟩), run, hrun, ?_⟩
        rw [hsize, (toNat_size_of_run hb hcode hrun).1]
  · rintro (⟨t, ht, rfl, rfl⟩ | ⟨ha, run, hrun, rfl⟩)
    · exact ⟨t, hgrown.kept t ht, rfl, rfl⟩
    · -- what is reachable has been visited, along its own run
      obtain ⟨⟨t, ht, rfl⟩, hold⟩ := (hnew a).mp ((hreach a).mpr ha)
      rcases hgrown.follows t ht with ht₀ | ⟨hcode, run', hrun', hsize⟩
      · exact absurd (mem_visited_abs.mpr ⟨t, ht₀, rfl⟩) hold
      · obtain rfl := hrun.unique hrun'
        exact ⟨t, ht, rfl, by rw [hsize, (toNat_size_of_run hb hcode hrun).1]⟩

/-- From a sweeper without traces, when nothing is pending, there is a trace at exactly the trace
starts. -/
theorem starts_of_popSteps {s₀ s : CodeSectionSweeper} (hempty : s₀.traces = ∅)
    (h : Relation.ReflTransGen (PopStep code) s₀ s) (hdone : s.pendingTargets = ∅) (a : U32) :
    (∃ t ∈ s.traces, t.start = a) ↔ TraceStart code s₀.codeSection s₀.pendingTargets a := by
  have hinv := (popSteps_spec h).2
  have hpending : (Worklist.since s₀.abs.visited s.abs).pending = ∅ := by
    show s.pendingTargets.elems.toFinset = ∅
    rw [hdone]
    rfl
  have hold : s₀.abs.visited = ∅ := by
    unfold abs
    rw [hempty]
    rfl
  have hdom : (fun a => s₀.codeSection.isAddrCode a = true ∧ a ∉ s₀.abs.visited) =
      fun a => s₀.codeSection.isAddrCode a = true := by
    funext a
    rw [hold]
    simp
  have hreach := Worklist.visited_eq_reach hinv hpending a
  rw [hdom] at hreach
  unfold TraceStart
  rw [← hreach, ← mem_visited_abs, hold]
  unfold Worklist.since
  rw [Finset.sdiff_empty]

theorem explored_of_popSteps {longest : Nat} {s₀ s : CodeSectionSweeper}
    (hb : s₀.codeSection.Below code longest) (hempty : s₀.traces = ∅)
    (h : Relation.ReflTransGen (PopStep code) s₀ s) (hdone : s.pendingTargets = ∅) :
    Explored code s₀.pendingTargets s := by
  have hgrown := (popSteps_spec h).1
  constructor
  · intro a
    rw [hgrown.codeSection]
    exact starts_of_popSteps hempty h hdone a
  · intro t ht
    rcases hgrown.follows t ht with ht₀ | ⟨hcode, run, hrun, hsize⟩
    · rw [hempty] at ht₀
      exact absurd ht₀ (KeyedSet.not_mem_empty t)
    · rw [hgrown.codeSection]
      refine ⟨run, hrun, ?_⟩
      rw [hsize, (toNat_size_of_run hb hcode hrun).1]

/-- What is explored determines the traces. -/
theorem Explored.outline_eq {targets : TargetSet} {s s' : CodeSectionSweeper}
    (h : Explored code targets s) (h' : Explored code targets s')
    (hsec : s'.codeSection = s.codeSection) : s.outline = s'.outline := by
  -- a trace of the one has a trace of the other at its start, with the same run
  have sub : ∀ {s s' : CodeSectionSweeper}, Explored code targets s → Explored code targets s' →
      s'.codeSection = s.codeSection → ∀ p, p ∈ s.outline → p ∈ s'.outline := by
    intro s s' h h' hsec p hp
    obtain ⟨t, ht, rfl⟩ := List.mem_map.mp hp
    have hstart := (h.starts t.start).mp ⟨t, ht, rfl⟩
    rw [← hsec] at hstart
    obtain ⟨t', ht', heq⟩ := (h'.starts t.start).mpr hstart
    obtain ⟨run, hrun, hsize⟩ := h.sizes t ht
    obtain ⟨run', hrun', hsize'⟩ := h'.sizes t' ht'
    rw [hsec, heq] at hrun'
    rw [← hrun.unique hrun'] at hsize'
    refine List.mem_map.mpr ⟨t', ht', ?_⟩
    rw [heq, BitVec.eq_of_toNat_eq (hsize'.trans hsize.symm)]
  refine KeyedSet.ext fun p => ⟨sub h h' hsec p, sub h' h hsec.symm p⟩

/-- **One pass** of the loop: nothing is pending and it leaves, or a pending target is popped. -/
theorem worklistBody_cases {n : Nat} {s : CodeSectionSweeper}
    {r : LoopStep CodeSectionSweeper CodeSectionSweeper} (h : worklistBody n code s = some r) :
    (r = .exit s ∧ s.pendingTargets = ∅) ∨
      ∃ target ∈ s.pendingTargets, ∃ s', s.popTarget n code target = some s' ∧ r = .next s' := by
  unfold worklistBody at h
  split at h
  · rename_i helems
    refine Or.inl ⟨(Option.some.inj h).symm, KeyedSet.ext fun a => ?_⟩
    rw [KeyedSet.mem_def, helems]
    rfl
  · rename_i target rest helems
    obtain ⟨s', hpop, heq⟩ := Option.map_eq_some_iff.mp h
    refine Or.inr ⟨target, ?_, s', hpop, heq.symm⟩
    rw [KeyedSet.mem_def, helems]
    exact List.mem_cons_self

/-- The loop leaves with the sweeper as it is, when nothing is pending. -/
theorem eq_of_worklistBody_exit {n : Nat} {s s' : CodeSectionSweeper}
    (h : worklistBody n code s = some (.exit s')) : s = s' ∧ s.pendingTargets = ∅ := by
  rcases worklistBody_cases h with ⟨heq, hdone⟩ | ⟨_, _, _, _, heq⟩
  · exact ⟨(LoopStep.exit.inj heq).symm, hdone⟩
  · exact absurd heq (by simp)

theorem popStep_of_popTarget {n : Nat} {s s' : CodeSectionSweeper} {target : U32}
    (htarget : target ∈ s.pendingTargets) (h : s.popTarget n code target = some s') :
    PopStep code s s' := by
  rcases popTarget_cases h with ⟨hstale, rfl⟩ | ⟨hfresh, run, hrun, rfl⟩
  · refine ⟨target, htarget, 0, fun n _ => ?_⟩
    show s.popTarget n code target = _
    rw [popTarget_eq, if_neg hstale]
  · refine ⟨target, htarget, run.length + 1, fun n hn => ?_⟩
    show s.popTarget n code target = _
    rw [popTarget_of_straightLine s hrun (by omega), popped, if_pos hfresh]

/-- A pass that goes round has popped a target. -/
theorem popStep_of_worklistBody_next {n : Nat} {s s' : CodeSectionSweeper}
    (h : worklistBody n code s = some (.next s')) : PopStep code s s' := by
  rcases worklistBody_cases h with ⟨heq, -⟩ | ⟨target, htarget, s₁, hpop, heq⟩
  · exact absurd heq (by simp)
  · rw [LoopStep.next.inj heq]
    exact popStep_of_popTarget htarget hpop

/-- The worklist loop answers with a state that pops lead to and that has nothing left to pop. -/
theorem popSteps_of_worklist {n : Nat} {s₀ s : CodeSectionSweeper}
    (h : s₀.worklist n code = some s) :
    Relation.ReflTransGen (PopStep code) s₀ s ∧ s.pendingTargets = ∅ := by
  obtain ⟨s', hsteps, hexit⟩ := whileLoop_path (R := PopStep code) id
    (fun s₁ s₂ hbody => .single (popStep_of_worklistBody_next hbody)) h
  obtain ⟨rfl, hdone⟩ := eq_of_worklistBody_exit hexit
  exact ⟨hsteps, hdone⟩

/-- The loop of the source terminates, and is one of the orders of pops. -/
theorem exists_worklist {longest : Nat} {s₀ : CodeSectionSweeper}
    (hb : s₀.codeSection.Below code longest) :
    ∃ s, Computes (fun n => s₀.worklist n code) s ∧
      Relation.ReflTransGen (PopStep code) s₀ s ∧ s.pendingTargets = ∅ := by
  -- a pass pops the first pending target
  have hpass : ∀ s : CodeSectionSweeper, s.codeSection = s₀.codeSection →
      (∃ r, Computes (fun n => worklistBody n code s) (.exit r)) ∨
        ∃ s', Computes (fun n => worklistBody n code s) (.next s') ∧ PopStep code s s' ∧
          s'.codeSection = s₀.codeSection := by
    intro s hsec
    unfold worklistBody
    cases helems : s.pendingTargets.elems with
    | nil => exact Or.inl ⟨s, 0, fun n _ => rfl⟩
    | cons target rest =>
        obtain ⟨s', N, hN⟩ : ∃ s', Computes (fun n => s.popTarget n code target) s' :=
          exists_popStep (hsec ▸ hb) target
        have hmem : target ∈ s.pendingTargets := by
          rw [KeyedSet.mem_def, helems]
          exact List.mem_cons_self
        have hstep : PopStep code s s' := ⟨target, hmem, N, hN⟩
        have hsec' := (popStep_spec hstep).1.codeSection.trans hsec
        refine Or.inr ⟨s', ⟨N, fun n hn => ?_⟩, hstep, hsec'⟩
        show Option.map _ (s.popTarget n code target) = _
        rw [show s.popTarget n code target = some s' from hN n hn]
        rfl
  obtain ⟨r, hr⟩ := exists_halts (fun s => s.codeSection = s₀.codeSection)
    ((popStep_wf code).apply s₀) rfl hpass
  refine ⟨r, hr.computes, ?_⟩
  -- the passes of a loop that halts are a sequence of pops
  clear hpass hb
  induction hr with
  | exit hexit =>
      obtain ⟨N, hN⟩ := hexit
      obtain ⟨rfl, hdone⟩ := eq_of_worklistBody_exit (hN N le_rfl)
      exact ⟨.refl, hdone⟩
  | next hnext _ ih =>
      obtain ⟨N, hN⟩ := hnext
      exact ⟨.head (popStep_of_worklistBody_next (hN N le_rfl)) ih.1, ih.2⟩

/-- **The worklist explores exactly what is reachable.** Below the top of the address space and from
a sweeper without traces: no order of pops goes on for ever, a pop never gets stuck, and whenever
nothing is pending there is a trace at exactly the trace starts, each as long as its straight-line
run, so the traces do not depend on the order.  The loop of the source terminates as one of these
orders. -/
theorem worklist_explores (code : Code) (longest : Nat) (s₀ : CodeSectionSweeper)
    (hb : s₀.codeSection.Below code longest) (hempty : s₀.traces = ∅) :
    WellFounded (flip (PopStep code)) ∧
    (∀ s, Relation.ReflTransGen (PopStep code) s₀ s → ∀ target ∈ s.pendingTargets,
      ∃ s', Computes (fun n => s.popTarget n code target) s') ∧
    (∀ s, Relation.ReflTransGen (PopStep code) s₀ s → s.pendingTargets = ∅ →
      Explored code s₀.pendingTargets s) ∧
    (∀ s s', Relation.ReflTransGen (PopStep code) s₀ s → s.pendingTargets = ∅ →
      Relation.ReflTransGen (PopStep code) s₀ s' → s'.pendingTargets = ∅ →
        s.outline = s'.outline) ∧
    ∃ s, Computes (fun n => s₀.worklist n code) s ∧
      Relation.ReflTransGen (PopStep code) s₀ s ∧ s.pendingTargets = ∅ := by
  refine ⟨popStep_wf code, ?_, ?_, ?_, exists_worklist hb⟩
  · intro s hs target _
    exact exists_popStep ((popSteps_spec hs).1.codeSection ▸ hb) target
  · intro s hs hdone
    exact explored_of_popSteps hb hempty hs hdone
  · intro s s' hs hdone hs' hdone'
    have hsec := (popSteps_spec hs).1.codeSection
    have hsec' := (popSteps_spec hs').1.codeSection
    exact (explored_of_popSteps hb hempty hs hdone).outline_eq
      (explored_of_popSteps hb hempty hs' hdone') (hsec'.trans hsec.symm)

section Samples

/-- An operand that is not there. -/
def noOperand : Operand := ⟨.none, libdasmRegisterNop, libdasmRegisterNop, 0, 0, 0, 0⟩

/-- A one-byte `ret`. -/
def retInstruction : Instruction where
  length := 1
  type := .ret
  op1 := noOperand
  op2 := noOperand

/-- Nothing but `ret`. -/
def retCode : Code := ⟨fun _ => 0xC3, fun _ => some retInstruction⟩

/-- Four bytes of code at `0x1000`. -/
def sampleSection : CodeSection := ⟨0x1000, 4, by decide⟩

/-- A fresh sweeper of that section with two targets. -/
def sampleSweeper : CodeSectionSweeper :=
  ((init sampleSection).appendTarget 0x1000).appendTarget 0x1002

theorem below_sample : sampleSection.Below retCode 5 where
  length_le := by
    intro a ins h
    rw [← Option.some.inj h]
    decide
  room := by decide

/-- `jnz` with the offset 1. -/
def jnzInstruction : Instruction where
  length := 2
  type := .jmpc
  op1 := ⟨.immediate, libdasmRegisterNop, libdasmRegisterNop, 0, 1, 0, 1⟩
  op2 := noOperand
  length_pos := Nat.two_pos

/-- `75 01 C3 C3` -/
def jnzCode : Code where
  mem := fun a => if a = 0x1000 then 0x75 else if a = 0x1001 then 0x01 else 0xC3
  getInstruction := fun a => some (if a = 0x1000 then jnzInstruction else retInstruction)

theorem below_jnzCode : sampleSection.Below jnzCode 5 where
  length_le := by
    intro a ins h
    rw [← Option.some.inj h]
    split_ifs <;> decide
  room := by decide

theorem straightLine_jnzCode : StraightLine jnzCode sampleSection 0x1000
    [(0x1000, jnzInstruction), (0x1002, retInstruction)] :=
  .cons rfl rfl (.last rfl rfl)

/-- The jump leads from the first byte to the last one. -/
theorem traceStart_jnzCode {targets : TargetSet} (h : 0x1000 ∈ targets) :
    TraceStart jnzCode sampleSection targets 0x1003 := by
  have hfirst : TraceStart jnzCode sampleSection targets 0x1000 :=
    .root (List.mem_toFinset.mpr h) (by decide)
  refine .succ hfirst ?_ (by decide)
  rw [genSet_eq straightLine_jnzCode, List.mem_toFinset]
  decide

/-- A fresh sweeper with the jump as its only target. -/
def jnzSweeper : CodeSectionSweeper := (init sampleSection).appendTarget 0x1000

theorem worklist_explores_sample :
    ∃ s, Computes (fun n => jnzSweeper.worklist n jnzCode) s ∧
      Explored jnzCode jnzSweeper.pendingTargets s ∧ ∃ t ∈ s.traces, t.start = 0x1003 := by
  obtain ⟨-, -, hexplored, -, s, hs, hsteps, hdone⟩ :=
    worklist_explores jnzCode 5 jnzSweeper below_jnzCode rfl
  have hex := hexplored s hsteps hdone
  have hsec : s.codeSection = sampleSection := (popSteps_spec hsteps).1.codeSection
  refine ⟨s, hs, hex, (hex.starts 0x1003).mpr ?_⟩
  rw [hsec]
  exact traceStart_jnzCode List.mem_cons_self

end Samples

end CodeSectionSweeper

end PEReplay
