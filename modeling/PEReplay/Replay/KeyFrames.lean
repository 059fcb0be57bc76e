/-
# PEReplay.Replay.KeyFrames — which frames `Process_Instrument_BBL` keeps.

The callback runs at the entry of every instrumented trace and writes the frame unless one of its
skip rules fires: the instruction pointer is in the ring of the last ten, it is in the ring of the
last five *written* ones, or the base pointer is that of the event before.  The state behind it is
two in-place rings, `last_ebp` and the two counters of `Frame`.

`History` states the purpose without rings: an event is selected by looking at the whole past.
`Tracks` ties the globals to a history, `tracks_process` is the step and `tracks_run` the run, and
`framesCsv_selects_history` reads the file off.  The counters are 32 bits wide, so the numbering is
the history's modulo 2^32; `counters_wrap` is the first sequence where this shows.
-/
import PEReplay.Replay.Frame
import PEReplay.Lib.ShiftRing

namespace PEReplay

open ShiftRing

/-! ## The callback -/

/-- `CIRCULAR_LENGTH` -/
abbrev circularLength : Nat := 10

/-- `CIRCULAR_LENGTH/2` -/
abbrev squareCircularLength : Nat := 5

/-- `ESP_JUMP_RANGE` -/
def espJumpRange : U32 := 128

/-- One execution of an inserted block callback: the block id it was inserted with, the context and
memory it finds, and the thread it runs on. -/
structure BBLEvent where
  bid : U32
  context : PinContext
  mem : Memory
  tid : U32

def BBLEvent.eip (e : BBLEvent) : U32 := e.context .eip

def BBLEvent.ebp (e : BBLEvent) : U32 := e.context .ebp

/-- The register context copied into a kept frame. -/
def BBLEvent.reContext (e : BBLEvent) : REContext where
  eip := e.context .eip
  esp := e.context .esp
  ebp := e.context .ebp
  eax := e.context .eax
  ebx := e.context .ebx
  ecx := e.context .ecx
  edx := e.context .edx
  esi := e.context .esi
  edi := e.context .edi

/-- `m_slots[i] = *(stack + i)` with `stack` the stack pointer as a `uint32_t*`. -/
def BBLEvent.reStack (e : BBLEvent) : REStack :=
  Vector.ofFn fun i => e.mem.read32 (e.context .esp + 4 * BitVec.ofNat 32 i)

/-- The statics of `Frame`, the globals above `Process_Instrument_BBL`, and the rows written. -/
structure FrameGlobals where
  lastId : U32
  lastSerializedId : U32
  circular : Vector U32 circularLength
  squareCircular : Vector U32 squareCircularLength
  lastEbp : U32
  framesCsv : List FrameRow

/-- The zero-initialised globals. -/
def FrameGlobals.init : FrameGlobals where
  lastId := 0
  lastSerializedId := 0
  circular := Vector.replicate circularLength 0
  squareCircular := Vector.replicate squareCircularLength 0
  lastEbp := 0
  framesCsv := []

/-- `REProgramInfo::Process_Instrument_BBL` -/
def FrameGlobals.processInstrumentBBL (g : FrameGlobals) (e : BBLEvent) : FrameGlobals :=
  let (frame, lastId) := Frame.new e.bid g.lastId
  let eip := e.eip
  let ebp := e.ebp
  -- skip circular: the ring is compared and shifted in one loop
  let (circular, bSkip) := scan eip g.circular
  let circular := circular.set (circularLength - 1) eip
  let bSkip := if !bSkip then g.squareCircular.toList.any (· == eip) else bSkip
  -- skip replicate stack frame
  let bSkip := if g.lastEbp = ebp ∧ g.lastEbp - ebp < espJumpRange then true else bSkip
  let g := { g with lastId := lastId, circular := circular, lastEbp := ebp }
  if !bSkip then
    let square := if eip ≠ 0 then shift g.squareCircular else g.squareCircular
    let square := square.set (squareCircularLength - 1) eip
    let frame := { frame with context := e.reContext, stack := e.reStack }
    let (row, lastSerializedId) := frame.serialize g.lastSerializedId
    { g with
      squareCircular := square
      lastSerializedId := lastSerializedId
      framesCsv := g.framesCsv ++ [row] }
  else g

/-- The callbacks of a whole run, in the order they execute. -/
def runBBL (evs : List BBLEvent) : FrameGlobals :=
  evs.foldl FrameGlobals.processInstrumentBBL FrameGlobals.init

/-! ## The selection, over the whole past -/

/-- What has happened: every event so far, and the selected ones with their ordinals. -/
structure History where
  past : List BBLEvent
  written : List (Nat × BBLEvent)

namespace History

/-- The base pointer of the event before, zero before the first event. -/
def lastEbp (h : History) : U32 := (h.past.getLast?.map BBLEvent.ebp).getD 0

/-- An event is selected when its instruction pointer is neither among those of the last ten events
nor among those of the last five written ones, and its base pointer is new. -/
def Selects (h : History) (e : BBLEvent) : Prop :=
  e.eip ∉ (h.past.map BBLEvent.eip).rtake 10 ∧
  e.eip ∉ (h.written.map fun w => w.2.eip).rtake 5 ∧
  e.ebp ≠ h.lastEbp

instance (h : History) (e : BBLEvent) : Decidable (h.Selects e) :=
  inferInstanceAs (Decidable (_ ∧ _ ∧ _))

/-- One more event. -/
def push (h : History) (e : BBLEvent) : History where
  past := h.past ++ [e]
  written := if h.Selects e then h.written ++ [(h.past.length + 1, e)] else h.written

def init : History := ⟨[], []⟩

end History

/-- The history of a sequence of events. -/
def history (evs : List BBLEvent) : History := evs.foldl History.push History.init

/-- The selected events of a sequence, each with its ordinal (counted from one). -/
def selected (evs : List BBLEvent) : List (Nat × BBLEvent) := (history evs).written

theorem history_append_singleton (evs : List BBLEvent) (e : BBLEvent) :
    history (evs ++ [e]) = (history evs).push e := by
  simp only [history, List.foldl_append, List.foldl_cons, List.foldl_nil]

theorem past_history (evs : List BBLEvent) : (history evs).past = evs := by
  induction evs using List.reverseRecOn with
  | nil => rfl
  | append_singleton evs e ih => rw [history_append_singleton, History.push, ih]

/-- Ordinals are at most the number of events. -/
theorem ordinal_le_length (evs : List BBLEvent) : ∀ w ∈ selected evs, w.1 ≤ evs.length := by
  induction evs using List.reverseRecOn with
  | nil => exact fun w hw => absurd hw List.not_mem_nil
  | append_singleton evs e ih =>
      intro w hw
      rw [selected, history_append_singleton, History.push] at hw
      simp only [past_history] at hw
      rw [List.length_append, List.length_singleton]
      split_ifs at hw
      · rcases List.mem_append.mp hw with hw | hw
        · exact Nat.le_succ_of_le (ih w hw)
        · rw [List.mem_singleton.mp hw]
      · exact Nat.le_succ_of_le (ih w hw)

/-- Ordinals come in strictly increasing order and start above zero. -/
theorem ordinals_increasing (evs : List BBLEvent) :
    ((selected evs).map Prod.fst).Pairwise (· < ·) := by
  induction evs using List.reverseRecOn with
  | nil => exact List.Pairwise.nil
  | append_singleton evs e ih =>
      rw [selected, history_append_singleton, History.push]
      simp only [past_history]
      split_ifs
      · rw [List.map_append, List.pairwise_append]
        refine ⟨ih, List.pairwise_singleton _ _, ?_⟩
        rintro k hk k' hk'
        obtain ⟨w, hw, rfl⟩ := List.mem_map.mp hk
        rw [List.mem_singleton.mp hk']
        exact Nat.lt_succ_of_le (ordinal_le_length evs w hw)
      · exact ih

theorem length_selected_le (evs : List BBLEvent) : (selected evs).length ≤ evs.length := by
  induction evs using List.reverseRecOn with
  | nil => exact le_rfl
  | append_singleton evs e ih =>
      rw [selected, history_append_singleton, History.push]
      rw [List.length_append, List.length_singleton]
      split_ifs
      · rw [List.length_append, List.length_singleton]
        exact Nat.succ_le_succ ih
      · exact Nat.le_succ_of_le ih

/-! ## The globals track the history -/

/-- The row of the `j`-th written event, with the counters as the 32-bit words they are. -/
def rowOf (j : Nat) (w : Nat × BBLEvent) : FrameRow where
  serial := BitVec.ofNat 32 (j + 1)
  id := BitVec.ofNat 32 w.1
  bid := w.2.bid
  context := w.2.reContext
  stack := w.2.reStack

/-- The rows of a list of written events. -/
def rowsOf (ws : List (Nat × BBLEvent)) : List FrameRow := ws.mapIdx rowOf

/-- The globals are what the history says: counters, rings, last base pointer and file. -/
structure Tracks (g : FrameGlobals) (h : History) : Prop where
  lastId : g.lastId = BitVec.ofNat 32 h.past.length
  lastSerializedId : g.lastSerializedId = BitVec.ofNat 32 h.written.length
  circular : Holds g.circular 0 (h.past.map BBLEvent.eip)
  squareCircular : Holds g.squareCircular 0 (h.written.map fun w => w.2.eip)
  lastEbp : g.lastEbp = h.lastEbp
  framesCsv : g.framesCsv = rowsOf h.written

theorem tracks_init : Tracks FrameGlobals.init History.init where
  lastId := rfl
  lastSerializedId := rfl
  circular := holds_replicate 0
  squareCircular := holds_replicate 0
  lastEbp := rfl
  framesCsv := rfl

/-- The skip flag computed by the callback. -/
def FrameGlobals.skips (g : FrameGlobals) (e : BBLEvent) : Prop :=
  e.eip ∈ g.circular.toList ∨ e.eip ∈ g.squareCircular.toList ∨ g.lastEbp = e.ebp

instance (g : FrameGlobals) (e : BBLEvent) : Decidable (g.skips e) :=
  inferInstanceAs (Decidable (_ ∨ _ ∨ _))

/-- The second ring is compared with all of its entries. -/
theorem any_squareCircular (g : FrameGlobals) (eip : U32) :
    g.squareCircular.toList.any (· == eip) = decide (eip ∈ g.squareCircular.toList) := by
  rw [Bool.eq_iff_iff, List.any_eq_true, decide_eq_true_iff]
  simp

/-- The range test of the base pointers adds nothing to their equality. -/
theorem espJumpRange_iff (a b : U32) : a = b ∧ a - b < espJumpRange ↔ a = b := by
  refine and_iff_left_of_imp fun h => ?_
  rw [h, BitVec.sub_self]
  decide

/-- **What one callback can do**, with the loops replaced by their effect: a skipped event moves the
first ring, `last_ebp` and the frame counter; a kept one also moves the second ring, the serial
counter and the file. -/
theorem process_eq (g : FrameGlobals) (e : BBLEvent) (heip : e.eip ≠ 0) :
    g.processInstrumentBBL e =
      if g.skips e then
        { g with lastId := g.lastId + 1, circular := push g.circular e.eip, lastEbp := e.ebp }
      else
        { lastId := g.lastId + 1
          lastSerializedId := g.lastSerializedId + 1
          circular := push g.circular e.eip
          squareCircular := push g.squareCircular e.eip
          lastEbp := e.ebp
          framesCsv := g.framesCsv ++
            [⟨g.lastSerializedId + 1, g.lastId + 1, e.bid, e.reContext, e.reStack⟩] } := by
  simp only [FrameGlobals.processInstrumentBBL, FrameGlobals.skips, Frame.new, Frame.serialize,
    scan_eq, any_squareCircular, espJumpRange_iff, heip, push, ne_eq, not_false_eq_true, if_true]
  by_cases h₁ : e.eip ∈ g.circular.toList <;> by_cases h₂ : e.eip ∈ g.squareCircular.toList <;>
    by_cases h₃ : g.lastEbp = e.ebp <;> simp [h₁, h₂, h₃]

/-- The file after one callback, whatever the instruction pointer. -/
theorem framesCsv_process_eq (g : FrameGlobals) (e : BBLEvent) :
    (g.processInstrumentBBL e).framesCsv = g.framesCsv ++
      if g.skips e then []
      else [⟨g.lastSerializedId + 1, g.lastId + 1, e.bid, e.reContext, e.reStack⟩] := by
  simp only [FrameGlobals.processInstrumentBBL, FrameGlobals.skips, Frame.new, Frame.serialize,
    scan_eq, any_squareCircular, espJumpRange_iff]
  by_cases h₁ : e.eip ∈ g.circular.toList <;> by_cases h₂ : e.eip ∈ g.squareCircular.toList <;>
    by_cases h₃ : g.lastEbp = e.ebp <;> simp [h₁, h₂, h₃]

/-- The callback's flag is the negation of the history's selection. -/
theorem Tracks.skips_iff {g : FrameGlobals} {h : History} (ht : Tracks g h) {e : BBLEvent}
    (heip : e.eip ≠ 0) : g.skips e ↔ ¬ h.Selects e := by
  unfold FrameGlobals.skips History.Selects
  rw [ht.circular.mem_iff heip, ht.squareCircular.mem_iff heip, ht.lastEbp]
  change _ ∈ (h.past.map BBLEvent.eip).rtake 10 ∨
    _ ∈ (h.written.map fun w => w.2.eip).rtake 5 ∨ _ ↔ _
  rw [not_and_or, not_and_or, not_not, not_not, not_not, eq_comm]

theorem lastEbp_push (h : History) (e : BBLEvent) : (h.push e).lastEbp = e.ebp := by
  simp [History.lastEbp, History.push]

theorem ofNat_succ (n : Nat) : BitVec.ofNat 32 n + 1 = BitVec.ofNat 32 (n + 1) := by
  rw [BitVec.ofNat_add]
  rfl

/-- **Step.** One callback keeps the globals in step with the history. -/
theorem tracks_process {g : FrameGlobals} {h : History} (ht : Tracks g h) {e : BBLEvent}
    (heip : e.eip ≠ 0) : Tracks (g.processInstrumentBBL e) (h.push e) := by
  have hid : g.lastId + 1 = BitVec.ofNat 32 (h.past.length + 1) := by
    rw [ht.lastId, ofNat_succ]
  have hring : Holds (push g.circular e.eip) 0 ((h.push e).past.map BBLEvent.eip) := by
    simpa [History.push] using ht.circular.push e.eip
  have hpast : (h.push e).past.length = h.past.length + 1 := by simp [History.push]
  rw [process_eq g e heip]
  by_cases hs : g.skips e
  · have hsel : ¬ h.Selects e := (ht.skips_iff heip).mp hs
    have hwritten : (h.push e).written = h.written := by simp [History.push, hsel]
    rw [if_pos hs]
    exact {
      lastId := by rw [hpast]; exact hid
      lastSerializedId := by rw [hwritten]; exact ht.lastSerializedId
      circular := hring
      squareCircular := by rw [hwritten]; exact ht.squareCircular
      lastEbp := (lastEbp_push h e).symm
      framesCsv := by rw [hwritten]; exact ht.framesCsv }
  · have hsel : h.Selects e := by
      by_contra hn
      exact hs ((ht.skips_iff heip).mpr hn)
    have hwritten : (h.push e).written = h.written ++ [(h.past.length + 1, e)] := by
      simp [History.push, hsel]
    have hserial : g.lastSerializedId + 1 = BitVec.ofNat 32 (h.written.length + 1) := by
      rw [ht.lastSerializedId, ofNat_succ]
    rw [if_neg hs]
    exact {
      lastId := by rw [hpast]; exact hid
      lastSerializedId := by
        rw [hwritten, List.length_append, List.length_singleton]
        exact hserial
      circular := hring
      squareCircular := by
        rw [hwritten, List.map_append]
        exact ht.squareCircular.push e.eip
      lastEbp := (lastEbp_push h e).symm
      framesCsv := by
        rw [hwritten, rowsOf, List.mapIdx_append, ht.framesCsv]
        simp only [rowsOf, List.mapIdx_cons, List.mapIdx_nil, rowOf, Nat.zero_add, hserial, hid] }

/-- **Run.** After any sequence of callbacks the globals are in step with its history. -/
theorem tracks_run (evs : List BBLEvent) (h : ∀ e ∈ evs, e.eip ≠ 0) :
    Tracks (runBBL evs) (history evs) := by
  induction evs using List.reverseRecOn with
  | nil => exact tracks_init
  | append_singleton evs e ih =>
      rw [history_append_singleton]
      simp only [runBBL, List.foldl_append, List.foldl_cons, List.foldl_nil]
      exact tracks_process (ih fun e' he' => h e' (List.mem_append_left _ he'))
        (h e (List.mem_append_right _ (List.mem_singleton_self e)))

/-! ## The file is the selection -/

/-- What the file is meant to be: serial ids `1, 2, 3, …`, frame ids the ordinals of the selected
events and strictly increasing, and block id, registers and stack those of the event. -/
def SerialisesHistory (evs : List BBLEvent) : Prop :=
  let rows := (runBBL evs).framesCsv
  rows.map (fun r => r.serial.toNat) = List.range' 1 rows.length ∧
  rows.map (fun r => r.id.toNat) = (selected evs).map Prod.fst ∧
  (rows.map fun r => r.id.toNat).Pairwise (· < ·) ∧
  rows.map (fun r => (r.bid, r.context, r.stack)) =
    (selected evs).map fun w => (w.2.bid, w.2.reContext, w.2.reStack)

theorem length_rowsOf (ws : List (Nat × BBLEvent)) : (rowsOf ws).length = ws.length := by
  simp [rowsOf]

theorem rowsOf_content (ws : List (Nat × BBLEvent)) :
    (rowsOf ws).map (fun r => (r.bid, r.context, r.stack)) =
      ws.map fun w => (w.2.bid, w.2.reContext, w.2.reStack) := by
  refine List.ext_getElem (by simp [rowsOf]) fun j h₁ h₂ => ?_
  simp [rowsOf, rowOf]

/-- Below 2^32 the serial counter is exact. -/
theorem rowsOf_serials {ws : List (Nat × BBLEvent)} (h : ws.length < 2 ^ 32) :
    (rowsOf ws).map (fun r => r.serial.toNat) = List.range' 1 ws.length := by
  refine List.ext_getElem (by simp [rowsOf]) fun j h₁ h₂ => ?_
  have hj : j < ws.length := by simpa [rowsOf] using h₁
  simp only [rowsOf, rowOf, List.getElem_map, List.getElem_mapIdx, BitVec.toNat_ofNat,
    List.getElem_range']
  rw [Nat.mod_eq_of_lt (by omega)]
  omega

/-- Below 2^32 the frame counter is exact. -/
theorem rowsOf_ids {ws : List (Nat × BBLEvent)} (h : ∀ w ∈ ws, w.1 < 2 ^ 32) :
    (rowsOf ws).map (fun r => r.id.toNat) = ws.map Prod.fst := by
  refine List.ext_getElem (by simp [rowsOf]) fun j h₁ h₂ => ?_
  have hj : j < ws.length := by simpa [rowsOf] using h₁
  simp only [rowsOf, rowOf, List.getElem_map, List.getElem_mapIdx, BitVec.toNat_ofNat]
  exact Nat.mod_eq_of_lt (h _ (List.getElem_mem hj))

theorem serialisesHistory_of_short {evs : List BBLEvent} (h : ∀ e ∈ evs, e.eip ≠ 0)
    (hlen : evs.length < 2 ^ 32) : SerialisesHistory evs := by
  have hrows : (runBBL evs).framesCsv = rowsOf (selected evs) := (tracks_run evs h).framesCsv
  have hids : (rowsOf (selected evs)).map (fun r => r.id.toNat) = (selected evs).map Prod.fst :=
    rowsOf_ids fun w hw => lt_of_le_of_lt (ordinal_le_length evs w hw) hlen
  simp only [SerialisesHistory, hrows]
  refine ⟨?_, hids, ?_, rowsOf_content _⟩
  · rw [length_rowsOf]
    exact rowsOf_serials (lt_of_le_of_lt (length_selected_le evs) hlen)
  · rw [hids]
    exact ordinals_increasing evs

/-- **The file is the selection.** For every sequence of events with nonzero instruction pointers
the rows are the selected events in order, numbered by the two 32-bit counters; the ordinals are
strictly increasing, and while fewer than 2^32 events ran the counters are exact. -/
theorem framesCsv_selects_history (evs : List BBLEvent) (h : ∀ e ∈ evs, e.eip ≠ 0) :
    (runBBL evs).framesCsv = rowsOf (selected evs) ∧
    ((selected evs).map Prod.fst).Pairwise (· < ·) ∧
    (evs.length < 2 ^ 32 → SerialisesHistory evs) :=
  ⟨(tracks_run evs h).framesCsv, ordinals_increasing evs, serialisesHistory_of_short h⟩

section Samples

/-- An event with the given instruction and base pointer. -/
def sampleEvent (eip ebp : U32) : BBLEvent where
  bid := 1
  context := fun r => match r with
    | .eip => eip
    | .ebp => ebp
    | _ => 0
  mem := fun _ => 0
  tid := 0

/-- A repeated block is skipped and the next one is written under its own ordinal. -/
theorem framesCsv_selects_history_sample :
    (runBBL [sampleEvent 1 1, sampleEvent 1 1, sampleEvent 2 2]).framesCsv =
      rowsOf [(1, sampleEvent 1 1), (3, sampleEvent 2 2)] :=
  (framesCsv_selects_history [sampleEvent 1 1, sampleEvent 1 1, sampleEvent 2 2]
    (by decide)).1

/-- The same block executed `n + 1` times is written once, the first time. -/
theorem history_replicate (n : Nat) :
    history (List.replicate (n + 1) (sampleEvent 1 1)) =
      ⟨List.replicate (n + 1) (sampleEvent 1 1), [(1, sampleEvent 1 1)]⟩ := by
  induction n with
  | zero => rfl
  | succ n ih =>
      rw [List.replicate_succ', history_append_singleton, ih]
      have hwritten : (sampleEvent 1 1).eip ∈
          ([(1, sampleEvent 1 1)].map fun w : Nat × BBLEvent => w.2.eip).rtake 5 := by decide
      simp only [History.push, History.Selects, hwritten, not_true_eq_false, false_and, and_false,
        if_false]

/-- One block `n + 1` times over, then a new one. -/
def repeatThenNew (n : Nat) : List BBLEvent :=
  List.replicate (n + 1) (sampleEvent 1 1) ++ [sampleEvent 2 2]

theorem selected_repeatThenNew (n : Nat) :
    selected (repeatThenNew n) = [(1, sampleEvent 1 1), (n + 2, sampleEvent 2 2)] := by
  have hring : (sampleEvent 2 2).eip ∉
      ((List.replicate (n + 1) (sampleEvent 1 1)).map BBLEvent.eip).rtake 10 := by
    intro hmem
    obtain ⟨e, he, heq⟩ := List.mem_map.mp (List.mem_of_mem_drop hmem)
    rw [List.eq_of_mem_replicate he] at heq
    exact absurd heq (by decide)
  have hsquare : (sampleEvent 2 2).eip ∉
      ([(1, sampleEvent 1 1)].map fun w : Nat × BBLEvent => w.2.eip).rtake 5 := by decide
  have hebp : (sampleEvent 2 2).ebp ≠
      ((List.replicate (n + 1) (sampleEvent 1 1)).getLast?.map BBLEvent.ebp).getD 0 := by
    simp only [List.getLast?_replicate, Nat.add_one_ne_zero, if_false]
    decide
  rw [selected, repeatThenNew, history_append_singleton, history_replicate, History.push,
    if_pos ⟨hring, hsquare, hebp⟩, List.length_replicate]
  rfl

theorem eip_ne_zero_repeatThenNew (n : Nat) : ∀ e ∈ repeatThenNew n, e.eip ≠ 0 := by
  intro e he
  rcases List.mem_append.mp he with he | he
  · rw [List.eq_of_mem_replicate he]
    decide
  · rw [List.mem_singleton.mp he]
    decide

/-- The ids of such a run are exact only as long as the counter does not wrap. -/
theorem lt_of_serialisesHistory_repeatThenNew {n : Nat}
    (h : SerialisesHistory (repeatThenNew n)) : n + 2 < 2 ^ 32 := by
  have hrows : (runBBL (repeatThenNew n)).framesCsv = rowsOf (selected (repeatThenNew n)) :=
    (tracks_run _ (eip_ne_zero_repeatThenNew n)).framesCsv
  have hids := h.2.1
  rw [hrows, selected_repeatThenNew] at hids
  have hlast : (n + 2) % 2 ^ 32 = n + 2 := by simpa [rowsOf, rowOf] using hids
  rw [← hlast]
  exact Nat.mod_lt _ (by decide)

/-- After 2^32 frames the 32-bit frame counter is back at zero: the second row written carries the
frame id 0, so the ids neither are the ordinals nor increase. -/
theorem counters_wrap :
    (∀ e ∈ repeatThenNew (2 ^ 32 - 2), e.eip ≠ 0) ∧
    ¬ SerialisesHistory (repeatThenNew (2 ^ 32 - 2)) :=
  ⟨eip_ne_zero_repeatThenNew _, fun h =>
    absurd (lt_of_serialisesHistory_repeatThenNew h) (by decide)⟩

end Samples

end PEReplay
