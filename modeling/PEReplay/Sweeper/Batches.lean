/-
# PEReplay.Sweeper.Batches — targets that come in batches.

The constructor appends the entry point, the relocation targets and the routines of the section;
more targets may be appended later, and `process` may be called again, as `spotGaps` does.  A
second call finds traces that the first one left and that the split pass has shortened.  What is
found is nevertheless a function of the set of all targets: the starts, the `lea` targets and the
covered bytes do not show in which order and in how many batches the targets came.

A `process` that finds no trace increments the end of the set.  That happens exactly when none of
the targets given so far lies in the section (`Starved`), and the calls end with an error there.
-/
import PEReplay.Sweeper.Coverage
import PEReplay.Sweeper.Indexes

namespace PEReplay

open Loop

namespace CodeSectionSweeper

/-- `CodeSectionSweeper::CodeSectionSweeper`: `entryPoint` is `IMG_Entry`, and `rtns` are the
addresses of the routines of the section. -/
def construct (codeSection : CodeSection) (entryPoint : U32) (relocTargets : TargetSet)
    (rtns : List U32) : CodeSectionSweeper :=
  let s := (init codeSection).appendTarget entryPoint
  let s := relocTargets.elems.foldl appendTarget s
  rtns.foldl appendTarget s

/-- What the owner of a sweeper calls. -/
inductive Call where
  | appendTarget (target : U32)
  | markGreyArea (start size : U32)
  | op (op : Op)
  deriving Repr, DecidableEq

/-- The call neither sweeps the gaps nor invalidates traces. -/
def Call.Explores (c : Call) : Prop := c ≠ .op .spotGaps ∧ c ≠ .op .postProcess

/-- The sweeper after a call. -/
def runCall (n : Nat) (code : Code) (s : CodeSectionSweeper) : Call → Option CodeSectionSweeper
  | .appendTarget target => some (s.appendTarget target)
  | .markGreyArea start size => some (s.markGreyArea start size)
  | .op op => s.runOp n code op

/-- The sweeper after a list of calls. -/
def runCalls (n : Nat) (code : Code) : List Call → CodeSectionSweeper → Option CodeSectionSweeper
  | [], s => some s
  | c :: calls, s => (s.runCall n code c).bind (runCalls n code calls)

/-- A call, as far as the source defines it. -/
def checkedCall (n : Nat) (code : Code) (s : CodeSectionSweeper) :
    Call → Option (Except SweepError CodeSectionSweeper)
  | .op .process => s.processChecked n code
  | .op .spotGaps => (s.sweepGaps n code).bind (processChecked n code)
  | c => (s.runCall n code c).map .ok

/-- A list of calls, up to the first that the source does not define. -/
def runChecked (n : Nat) (code : Code) :
    List Call → CodeSectionSweeper → Option (Except SweepError CodeSectionSweeper)
  | [], s => some (.ok s)
  | c :: calls, s => (s.checkedCall n code c).bind fun r =>
      match r with
      | .error e => some (.error e)
      | .ok s => runChecked n code calls s

/-- Some `process` among the calls finds no target of the section among those given before it. -/
def Starved (sec : CodeSection) : List Call → (U32 → Prop) → Prop
  | [], _ => False
  | c :: calls, given =>
      (c = .op .process ∧ ∀ a, given a → sec.isAddrCode a = false) ∨
        Starved sec calls fun a => given a ∨ c = .appendTarget a

/-- A target of the section that is given from the start is there for every `process`. -/
theorem not_starved_of_given {sec : CodeSection} {given : U32 → Prop} {a : U32} (ha : given a)
    (hcode : sec.isAddrCode a = true) (calls : List Call) : ¬ Starved sec calls given := by
  induction calls generalizing given with
  | nil => exact id
  | cons c calls ih =>
    rintro (⟨-, hnone⟩ | hrest)
    · exact absurd (hnone a ha) (by simp [hcode])
    · exact ih (Or.inl ha) hrest

/-! ## What a trace start accounts for -/

variable {code : Code} {longest : Nat} {sec : CodeSection}

/-- The byte is covered by the straight-line run from `a`. -/
def Covers (code : Code) (sec : CodeSection) (a : U32) (x : Nat) : Prop :=
  ∃ run, StraightLine code sec a run ∧ a.toNat ≤ x ∧ x < a.toNat + runSize run

/-- A `lea` of the straight-line run from `a` has the target. -/
def Loads (code : Code) (sec : CodeSection) (a b : U32) : Prop :=
  ∃ run, StraightLine code sec a run ∧ b ∈ runLea run ∅

theorem covers_iff {a : U32} {run : List (U32 × Instruction)} (h : StraightLine code sec a run)
    {x : Nat} : Covers code sec a x ↔ a.toNat ≤ x ∧ x < a.toNat + runSize run := by
  constructor
  · rintro ⟨run', hrun', hx⟩
    rwa [h.unique hrun']
  · intro hx
    exact ⟨run, h, hx⟩

theorem loads_iff {a b : U32} {run : List (U32 × Instruction)} (h : StraightLine code sec a run) :
    Loads code sec a b ↔ b ∈ runLea run ∅ := by
  constructor
  · rintro ⟨run', hrun', hb⟩
    rwa [h.unique hrun']
  · intro hb
    exact ⟨run, h, hb⟩

theorem mem_addLea {ins : Instruction} {leaTargets : TargetSet} {b : U32} :
    b ∈ ins.addLea leaTargets ↔ b ∈ leaTargets ∨ b ∈ ins.addLea ∅ := by
  unfold Instruction.addLea
  split
  · rw [mem_insert_target, mem_insert_target]
    simp [or_comm]
  · simp

/-- A run adds its own `lea` targets to those that were there. -/
theorem mem_runLea {run : List (U32 × Instruction)} {leaTargets : TargetSet} {b : U32} :
    b ∈ runLea run leaTargets ↔ b ∈ leaTargets ∨ b ∈ runLea run ∅ := by
  induction run generalizing leaTargets with
  | nil => simp [runLea]
  | cons p run ih =>
    show b ∈ runLea run (p.2.addLea leaTargets) ↔ b ∈ leaTargets ∨ b ∈ runLea run (p.2.addLea ∅)
    rw [ih, @ih (p.2.addLea ∅), mem_addLea, or_assoc]

/-! ## The invariant -/

/-- What has been found so far, for the targets given so far: the worklist invariant with these as
its roots, and the `lea` targets and the covered bytes are those of the runs from the starts. -/
structure Tracks (code : Code) (longest : Nat) (sec : CodeSection) (given : U32 → Prop)
    (s : CodeSectionSweeper) : Prop where
  codeSection : s.codeSection = sec
  inv : Worklist.Inv (fun a => sec.isAddrCode a = true) (genSet code sec) given s.abs
  endsBy : s.EndsBy (sec.top + longest)
  lea : ∀ b, b ∈ s.leaTargets ↔ ∃ a ∈ s.abs.visited, Loads code sec a b
  bytes : ∀ x, x ∈ bytesOf s.traces.elems ↔ ∃ a ∈ s.abs.visited, Covers code sec a x

theorem Tracks.init (sec : CodeSection) : Tracks code longest sec (fun _ => False) (init sec) where
  codeSection := rfl
  inv := by
    refine (Worklist.Inv.init ∅).add ?_ rfl (fun a ha => ha) (fun a ha => Or.inl ha) ?_
    · intro a ha
      exact absurd ha (Finset.notMem_empty a)
    · exact fun a ha => ha.elim
  endsBy := fun t ht => absurd ht (KeyedSet.not_mem_empty t)
  lea := by
    intro b
    constructor
    · exact fun hb => absurd hb (KeyedSet.not_mem_empty b)
    · rintro ⟨a, ha, -⟩
      exact absurd ha (Finset.notMem_empty a)
  bytes := by
    intro x
    constructor
    · exact fun hx => absurd hx (Finset.notMem_empty x)
    · rintro ⟨a, ha, -⟩
      exact absurd ha (Finset.notMem_empty a)

/-- An appended target of the section is pending. -/
theorem abs_appendTarget {s : CodeSectionSweeper} {target : U32}
    (hcode : s.codeSection.isAddrCode target = true) :
    (s.appendTarget target).abs = ⟨insert target s.abs.pending, s.abs.visited⟩ := by
  unfold CodeSectionSweeper.appendTarget isAddrCode
  rw [if_pos hcode]
  unfold abs
  congr 1
  ext a
  rw [Finset.mem_insert, List.mem_toFinset, List.mem_toFinset, ← KeyedSet.mem_def,
    ← KeyedSet.mem_def, mem_insert_target]

/-- Appending leaves everything but the pending targets. -/
theorem appendTarget_eq (s : CodeSectionSweeper) (target : U32) :
    ∃ pending, s.appendTarget target = { s with pendingTargets := pending } := by
  unfold CodeSectionSweeper.appendTarget
  split_ifs
  · exact ⟨_, rfl⟩
  · exact ⟨_, rfl⟩

/-- **A target appended** is one more root. -/
theorem Tracks.appendTarget {given : U32 → Prop} {s : CodeSectionSweeper}
    (h : Tracks code longest sec given s) (target : U32) :
    Tracks code longest sec (fun a => given a ∨ a = target) (s.appendTarget target) := by
  have hinv : Worklist.Inv (fun a => sec.isAddrCode a = true) (genSet code sec)
      (fun a => given a ∨ a = target) (s.appendTarget target).abs := by
    by_cases hcode : sec.isAddrCode target = true
    · rw [abs_appendTarget (h.codeSection ▸ hcode)]
      exact h.inv.insert target
    · have hsame : s.appendTarget target = s := by
        unfold CodeSectionSweeper.appendTarget isAddrCode
        rw [h.codeSection, if_neg hcode]
      rw [hsame]
      exact h.inv.ignore hcode
  obtain ⟨pending, heq⟩ := appendTarget_eq s target
  rw [heq] at hinv ⊢
  exact ⟨h.codeSection, hinv, h.endsBy, h.lea, h.bytes⟩

theorem Tracks.appendTargets {given : U32 → Prop} {s : CodeSectionSweeper}
    (h : Tracks code longest sec given s) (targets : List U32) :
    Tracks code longest sec (fun a => given a ∨ a ∈ targets)
      (targets.foldl CodeSectionSweeper.appendTarget s) := by
  induction targets generalizing given s with
  | nil => simpa using h
  | cons target targets ih =>
    have hrest := ih (h.appendTarget target)
    simpa only [List.mem_cons, or_assoc, List.foldl_cons] using hrest

theorem mem_visited_visited {s : CodeSectionSweeper} {target : U32}
    {run : List (U32 × Instruction)} (hfresh : s.Fresh target)
    (hrun : StraightLine code s.codeSection target run) {a : U32} :
    a ∈ (s.visited target run).abs.visited ↔ a = target ∨ a ∈ s.abs.visited := by
  rw [abs_visited hfresh hrun, Worklist.pop, if_pos ((fresh_iff s target).mp hfresh)]
  exact Finset.mem_insert

/-- **A pop** explores the run from its target. -/
theorem Tracks.popStep {given : U32 → Prop} {s s' : CodeSectionSweeper}
    (hb : sec.Below code longest) (h : Tracks code longest sec given s)
    (hstep : PopStep code s s') : Tracks code longest sec given s' := by
  obtain rfl := h.codeSection
  have hends := (popStep_spec hstep).1.endsBy hb h.endsBy
  obtain ⟨target, htarget, n, hn⟩ := hstep
  have hpop := h.inv.pop (mem_pending_abs.mpr htarget)
  rcases popTarget_cases (hn n le_rfl) with ⟨hstale, rfl⟩ | ⟨hfresh, run, hrun, rfl⟩
  · rw [← abs_dropped hstale] at hpop
    exact ⟨rfl, hpop, hends, h.lea, h.bytes⟩
  · rw [← abs_visited hfresh hrun] at hpop
    refine ⟨rfl, hpop, hends, ?_, ?_⟩
    · intro b
      show b ∈ runLea run s.leaTargets ↔ _
      simp only [mem_visited_visited hfresh hrun, exists_eq_or_imp]
      rw [mem_runLea, h.lea, loads_iff hrun, or_comm]
    · intro x
      have hsize := (toNat_size_of_run hb hfresh.1 hrun).1
      simp only [mem_visited_visited hfresh hrun, exists_eq_or_imp]
      rw [← h.bytes, mem_bytesOf, mem_bytesOf, covers_iff hrun]
      simp only [← KeyedSet.mem_def, mem_traces_visited hfresh, exists_eq_or_imp]
      rw [StaticTrace.mem_bytes, StaticTrace.ofRun, hsize]

theorem Tracks.popSteps {given : U32 → Prop} {s s' : CodeSectionSweeper}
    (hb : sec.Below code longest) (h : Tracks code longest sec given s)
    (hsteps : Relation.ReflTransGen (PopStep code) s s') : Tracks code longest sec given s' := by
  induction hsteps with
  | refl => exact h
  | tail _ hstep ih => exact ih.popStep hb hstep

/-- **The split pass** moves no start and covers what was covered. -/
theorem Tracks.splitPass {given : U32 → Prop} {s : CodeSectionSweeper}
    (hb : sec.Below code longest) (h : Tracks code longest sec given s) :
    Tracks code longest sec given s.splitPass := by
  have hwrap : ∀ t ∈ s.traces, t.NoWrap := h.endsBy.noWrap hb.room
  have habs : s.splitPass.abs = s.abs := by
    unfold abs
    rw [starts_splitPass]
    rfl
  refine ⟨h.codeSection, habs ▸ h.inv, ?_, ?_, ?_⟩
  · intro t ht
    obtain ⟨u, hu, hstart, hsize⟩ := mem_splitPass hwrap ht
    have := h.endsBy u hu
    rw [hstart]
    omega
  · rw [habs]
    exact h.lea
  · rw [habs]
    have hbytes : bytesOf s.splitPass.traces.elems = bytesOf s.traces.elems :=
      bytesOf_splitLoop s.traces.sorted_elems hwrap
    rw [hbytes]
    exact h.bytes

/-! ## Calls -/

/-- With nothing pending, there is no trace exactly when no target given lies in the section. -/
theorem Tracks.isEmpty_iff {given : U32 → Prop} {s : CodeSectionSweeper}
    (h : Tracks code longest sec given s) (hdone : s.pendingTargets = ∅) :
    s.traces.elems.isEmpty = true ↔ ∀ a, given a → sec.isAddrCode a = false := by
  have hpending : s.abs.pending = ∅ := by
    unfold abs
    rw [hdone]
    rfl
  have hreach := Worklist.visited_eq_reach h.inv hpending
  have hvisited : ∀ a, a ∈ s.abs.visited ↔ ∃ t ∈ s.traces, t.start = a := fun _ => mem_visited_abs
  rw [List.isEmpty_iff]
  constructor
  · intro hempty a ha
    by_contra hcode
    obtain ⟨t, ht, -⟩ := (hvisited a).mp
      ((hreach a).mpr (.root ha (Bool.eq_true_of_not_eq_false hcode)))
    rw [KeyedSet.mem_def, hempty] at ht
    exact List.not_mem_nil ht
  · intro hnone
    refine List.eq_nil_iff_forall_not_mem.mpr fun t ht => ?_
    have hstart := (hreach t.start).mp ((hvisited t.start).mpr ⟨t, ht, rfl⟩)
    refine hstart.least (S := fun _ => False) (fun a ha hcode => ?_) fun _ _ hfalse _ _ => hfalse
    rw [hnone a ha] at hcode
    exact absurd hcode (by simp)

/-- `process` ends, with nothing pending, unless no target given lies in the section. -/
theorem Tracks.processChecked {given : U32 → Prop} {s : CodeSectionSweeper}
    (hb : sec.Below code longest) (h : Tracks code longest sec given s) :
    ∃ r, Computes (fun n => s.processChecked n code) r ∧
      (r = .error .endIncremented ↔ ∀ a, given a → sec.isAddrCode a = false) ∧
      ∀ s', r = .ok s' → Tracks code longest sec given s' ∧ s'.pendingTargets = ∅ := by
  obtain ⟨w, hcomputes, hsteps, hdone⟩ := exists_worklist (h.codeSection ▸ hb)
  have hw := h.popSteps hb hsteps
  have hempty := hw.isEmpty_iff hdone
  refine ⟨_, hcomputes.map _, ?_, ?_⟩
  · rw [← hempty]
    split_ifs with htraces
    · exact iff_of_true rfl htraces
    · exact iff_of_false (by simp) htraces
  · intro s' hs'
    split_ifs at hs'
    obtain rfl := Except.ok.inj hs'
    exact ⟨hw.splitPass hb, hdone⟩

/-- **Step.** A call that explores ends and keeps track of the targets given. -/
theorem Tracks.checkedCall {given : U32 → Prop} {s : CodeSectionSweeper}
    (hb : sec.Below code longest) (h : Tracks code longest sec given s) {c : Call}
    (hc : c.Explores) :
    ∃ r, Computes (fun n => s.checkedCall n code c) r ∧
      (r = .error .endIncremented ↔
        c = .op .process ∧ ∀ a, given a → sec.isAddrCode a = false) ∧
      ∀ s', r = .ok s' → Tracks code longest sec (fun a => given a ∨ c = .appendTarget a) s' ∧
        (c = .op .process → s'.pendingTargets = ∅) := by
  cases c with
  | appendTarget target =>
    refine ⟨.ok (s.appendTarget target), computes_some _, by simp, fun s' hs' => ⟨?_, by simp⟩⟩
    obtain rfl := Except.ok.inj hs'
    simpa only [Call.appendTarget.injEq, eq_comm] using h.appendTarget target
  | markGreyArea start size =>
    refine ⟨.ok (s.markGreyArea start size), computes_some _, by simp,
      fun s' hs' => ⟨?_, by simp⟩⟩
    obtain rfl := Except.ok.inj hs'
    have hmarked : Tracks code longest sec given (s.markGreyArea start size) :=
      ⟨h.codeSection, h.inv, h.endsBy, h.lea, h.bytes⟩
    simpa using hmarked
  | op op =>
    cases op with
    | process =>
      obtain ⟨r, hcomputes, herror, hok⟩ := h.processChecked hb
      refine ⟨r, hcomputes, by simpa using herror, fun s' hs' => ?_⟩
      obtain ⟨htracks, hdone⟩ := hok s' hs'
      exact ⟨by simpa using htracks, fun _ => hdone⟩
    | spotGaps => exact absurd rfl hc.1
    | postProcess => exact absurd rfl hc.2

/-- **Run.** So does every list of such calls that ends with `process`. -/
theorem Tracks.checkedCalls {given : U32 → Prop} {s : CodeSectionSweeper}
    (hb : sec.Below code longest) (h : Tracks code longest sec given s) {calls : List Call}
    (hcalls : ∀ c ∈ calls, c.Explores) :
    ∃ r, Computes (fun n => runChecked n code (calls ++ [.op .process]) s) r ∧
      (r = .error .endIncremented ↔ Starved sec (calls ++ [.op .process]) given) ∧
      ∀ s', r = .ok s' →
        Tracks code longest sec (fun a => given a ∨ .appendTarget a ∈ calls) s' ∧
          s'.pendingTargets = ∅ := by
  induction calls generalizing given s with
  | nil =>
    obtain ⟨r, hcomputes, herror, hok⟩ :=
      h.checkedCall hb (c := .op .process) ⟨by decide, by decide⟩
    cases r with
    | error e =>
      refine ⟨.error e, hcomputes.bind (computes_some _), ?_, fun s' hs' => absurd hs' (by simp)⟩
      rw [herror]
      exact ⟨Or.inl, fun hstarved => hstarved.resolve_right id⟩
    | ok s' =>
      refine ⟨.ok s', hcomputes.bind (computes_some _), ?_, fun s'' hs'' => ?_⟩
      · rw [herror]
        exact ⟨Or.inl, fun hstarved => hstarved.resolve_right id⟩
      · obtain ⟨htracks, hdone⟩ := hok s'' hs''
        exact ⟨by simpa using htracks, hdone rfl⟩
  | cons c calls ih =>
    obtain ⟨r, hcomputes, herror, hok⟩ := h.checkedCall hb (hcalls c List.mem_cons_self)
    cases r with
    | error e =>
      cases e with
      | endIncremented =>
        refine ⟨.error .endIncremented, hcomputes.bind (computes_some _), ?_,
          fun s' hs' => absurd hs' (by simp)⟩
        exact iff_of_true rfl (Or.inl (herror.mp rfl))
    | ok s₁ =>
      obtain ⟨h₁, -⟩ := hok s₁ rfl
      obtain ⟨r, hrest, herror', hok'⟩ := ih h₁ fun c' hc' => hcalls c' (List.mem_cons_of_mem c hc')
      refine ⟨r, hcomputes.bind hrest, ?_, fun s' hs' => ?_⟩
      · rw [herror']
        have hnot := mt herror.mpr (by simp)
        exact ⟨Or.inr, fun hstarved => hstarved.resolve_left hnot⟩
      · obtain ⟨htracks, hdone⟩ := hok' s' hs'
        exact ⟨by simpa only [List.mem_cons, or_assoc, eq_comm] using htracks, hdone⟩

/-- The constructor's targets are the entry point, the relocation targets and the routines. -/
theorem Tracks.construct (sec : CodeSection) (entryPoint : U32) (relocTargets : TargetSet)
    (rtns : List U32) :
    Tracks code longest sec (fun a => a = entryPoint ∨ a ∈ relocTargets ∨ a ∈ rtns)
      (construct sec entryPoint relocTargets rtns) := by
  have h₀ : Tracks code longest sec (fun _ => False) (CodeSectionSweeper.init sec) := .init sec
  have h := ((h₀.appendTarget entryPoint).appendTargets relocTargets.elems).appendTargets rtns
  simp only [false_or, or_assoc] at h
  exact h

/-- **The batches do not show.**  Whatever calls that explore come between the constructor and the
last `process`, they end: with an error exactly when some `process` has been given no target of the
section, and otherwise with nothing pending, and then the set of all targets given determines the
trace starts, the `lea` targets and the covered bytes.  They are those of the least set that
contains the targets of the section and is closed under the targets that its straight-line runs
generate. -/
theorem calls_explore (code : Code) {longest : Nat} {sec : CodeSection}
    (hb : sec.Below code longest) (entryPoint : U32) (relocTargets : TargetSet) (rtns : List U32)
    {calls : List Call} (hcalls : ∀ c ∈ calls, c.Explores) {targets : TargetSet}
    (htargets : ∀ a, a ∈ targets ↔
      (a = entryPoint ∨ a ∈ relocTargets ∨ a ∈ rtns) ∨ .appendTarget a ∈ calls) :
    ∃ r, Computes (fun n => runChecked n code (calls ++ [.op .process])
        (construct sec entryPoint relocTargets rtns)) r ∧
      (r = .error .endIncremented ↔ Starved sec (calls ++ [.op .process])
        fun a => a = entryPoint ∨ a ∈ relocTargets ∨ a ∈ rtns) ∧
      ∀ s, r = .ok s →
        s.pendingTargets = ∅ ∧
        (∀ a, (∃ t ∈ s.traces, t.start = a) ↔ TraceStart code sec targets a) ∧
        (∀ b, b ∈ s.leaTargets ↔ ∃ a, TraceStart code sec targets a ∧ Loads code sec a b) ∧
        ∀ x, x ∈ bytesOf s.traces.elems ↔
          ∃ a, TraceStart code sec targets a ∧ Covers code sec a x := by
  obtain ⟨r, hrun, hstarved, hok⟩ :=
    (Tracks.construct sec entryPoint relocTargets rtns).checkedCalls hb hcalls
  refine ⟨r, hrun, hstarved, fun s hs => ?_⟩
  obtain ⟨h, hdone⟩ := hok s hs
  have hgiven : (fun a => (a = entryPoint ∨ a ∈ relocTargets ∨ a ∈ rtns) ∨
      Call.appendTarget a ∈ calls) = (· ∈ targets.elems.toFinset) := by
    funext a
    rw [List.mem_toFinset, ← KeyedSet.mem_def, htargets a]
  have hstart : ∀ a, a ∈ s.abs.visited ↔ TraceStart code sec targets a := by
    have hpending : s.abs.pending = ∅ := by
      unfold abs
      rw [hdone]
      rfl
    have hinv := h.inv
    rw [hgiven] at hinv
    exact Worklist.visited_eq_reach hinv hpending
  refine ⟨hdone, fun a => ?_, fun b => ?_, fun x => ?_⟩
  · rw [← hstart, mem_visited_abs]
  · rw [h.lea]
    simp only [hstart]
  · rw [h.bytes]
    simp only [hstart]

section Samples

/-- The calls between the constructor and the last `process`. -/
def sampleCalls : List Call := [.op .process, .appendTarget 0x1001]

/-- The targets of the sample, in one set. -/
def sampleTargets : TargetSet := (KeyedSet.insert 0x1000 ∅).insert 0x1001

theorem explores_of_mem_sampleCalls : ∀ c ∈ sampleCalls, c.Explores := by
  intro c hc
  simp only [sampleCalls, List.mem_cons, List.not_mem_nil, or_false] at hc
  rcases hc with rfl | rfl
  · exact ⟨by decide, by decide⟩
  · exact ⟨by decide, by decide⟩

theorem mem_sampleTargets (a : U32) : a ∈ sampleTargets ↔
    (a = 0x1000 ∨ a ∈ (∅ : TargetSet) ∨ a ∈ []) ∨ .appendTarget a ∈ sampleCalls := by
  rw [sampleTargets, mem_insert_target, mem_insert_target]
  simp [sampleCalls, or_comm]

/-- Two batches on the section of the jump; the trace that it leads to is found.  A constructor that
is given no target of the section leaves an error for `process`. -/
theorem calls_explore_sample :
    (∃ s, Computes (fun n => runChecked n jnzCode (sampleCalls ++ [.op .process])
        (construct sampleSection 0x1000 ∅ [])) (.ok s) ∧
      (∀ a, (∃ t ∈ s.traces, t.start = a) ↔ TraceStart jnzCode sampleSection sampleTargets a) ∧
      ∃ t ∈ s.traces, t.start = 0x1003) ∧
    Computes (fun n => runChecked n jnzCode ([] ++ [.op .process])
      (construct sampleSection 0x2000 ∅ [])) (.error .endIncremented) := by
  constructor
  · obtain ⟨r, hr, hstarved, hok⟩ := calls_explore jnzCode below_jnzCode 0x1000 ∅ []
      explores_of_mem_sampleCalls mem_sampleTargets
    cases r with
    | error e =>
      cases e with
      | endIncremented =>
        exact absurd (hstarved.mp rfl) (not_starved_of_given (Or.inl rfl) (by decide) _)
    | ok s =>
      obtain ⟨-, hstarts, -⟩ := hok s rfl
      refine ⟨s, hr, hstarts, (hstarts 0x1003).mpr (traceStart_jnzCode ?_)⟩
      exact (mem_sampleTargets 0x1000).mpr (Or.inl (Or.inl rfl))
  · have htargets : ∀ a, a ∈ (KeyedSet.insert 0x2000 ∅ : TargetSet) ↔
        (a = 0x2000 ∨ a ∈ (∅ : TargetSet) ∨ a ∈ []) ∨ Call.appendTarget a ∈ ([] : List Call) := by
      intro a
      rw [mem_insert_target]
      simp
    obtain ⟨r, hr, hstarved, -⟩ := calls_explore jnzCode below_jnzCode 0x2000 ∅ []
      (fun c hc => absurd hc List.not_mem_nil) htargets
    have herror : r = .error .endIncremented := by
      refine hstarved.mpr (Or.inl ⟨rfl, fun a ha => ?_⟩)
      rcases ha with rfl | ha | ha
      · decide
      · exact absurd ha (KeyedSet.not_mem_empty a)
      · exact absurd ha List.not_mem_nil
    rw [← herror]
    exact hr

end Samples

end CodeSectionSweeper

end PEReplay
