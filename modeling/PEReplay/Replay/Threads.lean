/-
# PEReplay.Replay.Threads — key frames of several threads.

`Process_Instrument_BBL` is told the thread it runs on and does not use it: the two rings and
`last_ebp` are shared by all threads.  A frame of one thread may then be dropped because of a block
that another thread has just run, or kept because another thread ran in between.
`dependsOnOwn_iff` says when the frames of a thread are those it has when it runs alone: when at
each of its events what all threads have run before and what the thread has run before select it
alike.
-/
import PEReplay.Replay.KeyFrames

namespace PEReplay

open ShiftRing

/-! ## The frames of one thread -/

/-- The events of one thread, in order. -/
def ownEvents (tid : U32) (evs : List BBLEvent) : List BBLEvent := evs.filter fun e => e.tid = tid

/-- The rows that one callback writes. -/
def FrameGlobals.written (g : FrameGlobals) (e : BBLEvent) : List FrameRow :=
  (g.processInstrumentBBL e).framesCsv.drop g.framesCsv.length

/-- Block id, registers and stack slots of a row: everything but the two ids. -/
def FrameRow.content (r : FrameRow) : U32 × REContext × REStack := (r.bid, r.context, r.stack)

/-- One more event of a run: the globals, and the content of the rows of thread `tid` so far. -/
def framesStep (tid : U32) (s : FrameGlobals × List (U32 × REContext × REStack)) (e : BBLEvent) :
    FrameGlobals × List (U32 × REContext × REStack) :=
  (s.1.processInstrumentBBL e,
    if e.tid = tid then s.2 ++ (s.1.written e).map FrameRow.content else s.2)

/-- The content of the rows that are written for the events of thread `tid`, in order. -/
def framesOf (tid : U32) (evs : List BBLEvent) : List (U32 × REContext × REStack) :=
  (evs.foldl (framesStep tid) (FrameGlobals.init, [])).2

/-- What is written for thread `tid` in this interleaving is what is written for it alone: the same
events are kept, and the same frames written for them. -/
def DependsOnOwn (tid : U32) (evs : List BBLEvent) : Prop :=
  (∀ pre e post, evs = pre ++ e :: post → e.tid = tid →
    ((runBBL pre).written e = [] ↔ (runBBL (ownEvents tid pre)).written e = [])) ∧
  framesOf tid evs = framesOf tid (ownEvents tid evs)

/-- At every event of thread `tid` the skip rules answer the same on the globals that all threads
have left behind as on those that this thread alone would have left behind. -/
def SameWindows (tid : U32) (evs : List BBLEvent) : Prop :=
  ∀ pre e post, evs = pre ++ e :: post → e.tid = tid →
    ((runBBL pre).skips e ↔ (runBBL (ownEvents tid pre)).skips e)

/-! ## What one callback writes -/

theorem written_content (g : FrameGlobals) (e : BBLEvent) :
    (g.written e).map FrameRow.content =
      if g.skips e then [] else [(e.bid, e.reContext, e.reStack)] := by
  rw [FrameGlobals.written, framesCsv_process_eq, List.drop_left]
  split
  · rfl
  · rfl

/-- A callback writes nothing exactly when a skip rule fires. -/
theorem written_eq_nil_iff (g : FrameGlobals) (e : BBLEvent) : g.written e = [] ↔ g.skips e := by
  rw [FrameGlobals.written, framesCsv_process_eq, List.drop_left]
  split
  · rename_i hskip
    exact ⟨fun _ => hskip, fun _ => rfl⟩
  · rename_i hkeep
    exact ⟨fun h => absurd h (List.cons_ne_nil _ _), fun h => absurd h hkeep⟩

/-! ## Runs -/

theorem framesStep_fst (tid : U32) (evs : List BBLEvent) :
    (evs.foldl (framesStep tid) (FrameGlobals.init, [])).1 = runBBL evs := by
  induction evs using List.reverseRecOn with
  | nil => rfl
  | append_singleton evs e ih =>
      rw [List.foldl_append, runBBL, List.foldl_append, ← runBBL, ← ih]
      rfl

theorem framesOf_append_singleton (tid : U32) (evs : List BBLEvent) (e : BBLEvent) :
    framesOf tid (evs ++ [e]) =
      if e.tid = tid then
        framesOf tid evs ++ if (runBBL evs).skips e then [] else [(e.bid, e.reContext, e.reStack)]
      else framesOf tid evs := by
  rw [framesOf, List.foldl_append, List.foldl_cons, List.foldl_nil, framesStep, framesStep_fst,
    written_content, ← framesOf]

theorem ownEvents_append_singleton (tid : U32) (evs : List BBLEvent) (e : BBLEvent) :
    ownEvents tid (evs ++ [e]) =
      if e.tid = tid then ownEvents tid evs ++ [e] else ownEvents tid evs := by
  rw [ownEvents, List.filter_append, ← ownEvents]
  by_cases h : e.tid = tid
  · simp [h]
  · simp [h]

/-- **Run.** Where the windows agree, so do the frames. -/
theorem SameWindows.framesOf_eq {tid : U32} {evs : List BBLEvent} (h : SameWindows tid evs) :
    framesOf tid evs = framesOf tid (ownEvents tid evs) := by
  induction evs using List.reverseRecOn with
  | nil => rfl
  | append_singleton evs e ih =>
      have hbefore : SameWindows tid evs := by
        rintro pre e' post rfl htid
        exact h pre e' (post ++ [e]) (by simp) htid
      rw [framesOf_append_singleton, ownEvents_append_singleton]
      by_cases htid : e.tid = tid
      · have hskip := h evs e [] rfl htid
        rw [if_pos htid, if_pos htid, framesOf_append_singleton, if_pos htid, ih hbefore]
        congr 1
        exact if_congr hskip rfl rfl
      · rw [if_neg htid, if_neg htid]
        exact ih hbefore

/-- A thread keeps its frames exactly when the windows agree. -/
theorem dependsOnOwn_iff_sameWindows (tid : U32) (evs : List BBLEvent) :
    DependsOnOwn tid evs ↔ SameWindows tid evs := by
  constructor
  · rintro ⟨hkept, -⟩ pre e post heq htid
    have hiff := hkept pre e post heq htid
    rw [written_eq_nil_iff, written_eq_nil_iff] at hiff
    exact hiff
  · intro h
    refine ⟨fun pre e post heq htid => ?_, h.framesOf_eq⟩
    rw [written_eq_nil_iff, written_eq_nil_iff]
    exact h pre e post heq htid

/-- The condition on the events themselves: at every event of thread `tid` the instruction pointers
of the last ten events, those of the last five written ones and the base pointer of the event before
select it among the events of all threads if and only if they do among those of its own. -/
def SameHistories (tid : U32) (evs : List BBLEvent) : Prop :=
  ∀ pre e post, evs = pre ++ e :: post → e.tid = tid →
    ((history pre).Selects e ↔ (history (ownEvents tid pre)).Selects e)

theorem sameWindows_iff_sameHistories {tid : U32} {evs : List BBLEvent}
    (heip : ∀ e ∈ evs, e.eip ≠ 0) : SameWindows tid evs ↔ SameHistories tid evs := by
  have hskips : ∀ pre e post, evs = pre ++ e :: post →
      ((runBBL pre).skips e ↔ ¬ (history pre).Selects e) ∧
      ((runBBL (ownEvents tid pre)).skips e ↔ ¬ (history (ownEvents tid pre)).Selects e) := by
    rintro pre e post rfl
    have hpre : ∀ e' ∈ pre, e'.eip ≠ 0 := fun e' he' => heip e' (List.mem_append_left _ he')
    have hown : ∀ e' ∈ ownEvents tid pre, e'.eip ≠ 0 := fun e' he' =>
      hpre e' (List.mem_filter.mp he').1
    have he : e.eip ≠ 0 := heip e (List.mem_append_right _ List.mem_cons_self)
    exact ⟨(tracks_run pre hpre).skips_iff he, (tracks_run _ hown).skips_iff he⟩
  refine forall_congr' fun pre => forall_congr' fun e => forall_congr' fun post => ?_
  refine forall_congr' fun heq => forall_congr' fun _ => ?_
  obtain ⟨hall, hown⟩ := hskips pre e post heq
  rw [hall, hown, not_iff_not]

/-- **When the frames of a thread depend on that thread only**, for every interleaving of the events
of any number of threads: exactly when, at each of its events, the last ten events, the last five
written ones and the last base pointer of all threads decide as those of the thread do.  The pointer
zero is no event to the rings; in general the skip rules have to answer the same on the shared state
as on the state of the thread alone. -/
theorem dependsOnOwn_iff (tid : U32) (evs : List BBLEvent) :
    ((∀ e ∈ evs, e.eip ≠ 0) → (DependsOnOwn tid evs ↔ SameHistories tid evs)) ∧
    (DependsOnOwn tid evs ↔ SameWindows tid evs) :=
  ⟨fun heip => (dependsOnOwn_iff_sameWindows tid evs).trans (sameWindows_iff_sameHistories heip),
    dependsOnOwn_iff_sameWindows tid evs⟩

section Samples

/-- Two threads that come to the same block, one after the other. -/
def sharedBlock : List BBLEvent :=
  [sampleEvent 0x401000 0x19FF00, { sampleEvent 0x401000 0x29FF00 with tid := 1 }]

theorem dependsOnOwn_iff_sample : DependsOnOwn 1 sharedBlock ↔ SameHistories 1 sharedBlock :=
  (dependsOnOwn_iff 1 sharedBlock).1 (by decide)

/-- The second thread's frame is dropped, which alone it would have. -/
theorem shared_block_dropped : framesOf 1 sharedBlock = [] ∧
    framesOf 1 (ownEvents 1 sharedBlock) ≠ [] := by
  have hskip : (runBBL [sampleEvent 0x401000 0x19FF00]).skips
      { sampleEvent 0x401000 0x29FF00 with tid := 1 } := by
    refine ((tracks_run [sampleEvent 0x401000 0x19FF00] (by decide)).skips_iff ?_).mpr ?_
    · decide
    · decide
  have hkeep : ¬ (runBBL []).skips { sampleEvent 0x401000 0x29FF00 with tid := 1 } := by decide
  constructor
  · have hsplit := framesOf_append_singleton 1 [sampleEvent 0x401000 0x19FF00]
      { sampleEvent 0x401000 0x29FF00 with tid := 1 }
    rw [if_pos rfl, if_pos hskip] at hsplit
    exact hsplit
  · have hsplit := framesOf_append_singleton 1 [] { sampleEvent 0x401000 0x29FF00 with tid := 1 }
    rw [if_pos rfl, if_neg hkeep] at hsplit
    have hown : ownEvents 1 sharedBlock = [{ sampleEvent 0x401000 0x29FF00 with tid := 1 }] := rfl
    rw [hown]
    intro hnil
    rw [List.nil_append] at hsplit
    rw [hsplit] at hnil
    exact absurd (List.append_eq_nil_iff.mp hnil).2 (List.cons_ne_nil _ _)

end Samples

end PEReplay
