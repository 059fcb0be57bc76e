/-
# PEReplay.Replay.Run — trace encounters and block callbacks, interleaved.

Pin encounters traces and executes the callbacks those encounters inserted, in any order and each
callback any number of times.  The first writes `blocks.csv`, the second `frames.csv`; what ties the
two files together is the block id a callback was inserted with.

`Linked` is the invariant over both files: `Linked.encounter` and `Linked.execute` are its steps,
`linked_run` is the run, and `run_links_files` reads the relation between the files off.
-/
import PEReplay.Replay.Block
import PEReplay.Replay.KeyFrames

namespace PEReplay

/-! ## The interleaving -/

/-- The statics behind the two files. -/
structure RunState where
  blocks : BlockGlobals
  frames : FrameGlobals

/-- What Pin does next: hand over a trace, or execute one of the inserted callbacks. -/
inductive RunEvent where
  | encounter (mem : Memory) (trace : Trace)
  | execute (callback : Nat) (context : PinContext) (mem : Memory) (tid : U32)

namespace RunState

def init (mainModuleStart mainModuleSize : U32) : RunState :=
  ⟨BlockGlobals.init mainModuleStart mainModuleSize, FrameGlobals.init⟩

/-- One event.  Only a callback that has been inserted can execute. -/
def step (s : RunState) : RunEvent → Option RunState
  | .encounter mem trace => some { s with blocks := s.blocks.processEncounterTrace mem trace }
  | .execute callback context mem tid =>
      s.blocks.inserted[callback]?.map fun bid =>
        { s with frames := s.frames.processInstrumentBBL ⟨bid, context, mem, tid⟩ }

/-- A whole run. -/
def run (s : RunState) (evs : List RunEvent) : Option RunState := evs.foldlM step s

end RunState

/-- The traces encountered in a run, each with the memory it was read from. -/
def encounters (evs : List RunEvent) : List (Memory × Trace) :=
  evs.filterMap fun
    | .encounter mem trace => some (mem, trace)
    | .execute .. => none

/-- The number of basic blocks in a list of encounters. -/
def blockCount (encs : List (Memory × Trace)) : Nat :=
  (encs.map fun enc => enc.2.bbls.length).sum

/-! ## The rows of one trace -/

/-- The rows written for basic blocks whose ids follow on `n`, all under the trace id `tid`. -/
def bblRows (mem : Memory) (tid : U32) : Nat → List BBL → List Block
  | _, [] => []
  | n, bbl :: bbls => blockOf mem (BitVec.ofNat 32 (n + 1)) tid bbl :: bblRows mem tid (n + 1) bbls

/-- The rows of a trace whose ids follow on `n`: the first id is the trace id. -/
def traceRows (n : Nat) (enc : Memory × Trace) : List Block :=
  bblRows enc.1 (BitVec.ofNat 32 (n + 1)) n enc.2.bbls

/-- The rows of a list of encounters whose ids follow on `n`, trace by trace. -/
def traceGroups : Nat → List (Memory × Trace) → List (List Block)
  | _, [] => []
  | n, enc :: encs => traceRows n enc :: traceGroups (n + enc.2.bbls.length) encs

theorem traceGroups_append (n : Nat) (encs encs' : List (Memory × Trace)) :
    traceGroups n (encs ++ encs') =
      traceGroups n encs ++ traceGroups (n + blockCount encs) encs' := by
  induction encs generalizing n with
  | nil => rfl
  | cons enc encs ih =>
      simp only [List.cons_append, traceGroups, ih, blockCount, List.map_cons, List.sum_cons,
        Nat.add_assoc]

theorem tid_bblRows {mem : Memory} {tid : U32} {n : Nat} {bbls : List BBL} {b : Block}
    (h : b ∈ bblRows mem tid n bbls) : b.tid = tid := by
  induction bbls generalizing n with
  | nil => exact absurd h List.not_mem_nil
  | cons bbl bbls ih =>
      rcases List.mem_cons.mp h with rfl | h
      · rw [blockOf_eq]
      · exact ih h

theorem eips_bblRows (mem : Memory) (tid : U32) (n : Nat) (bbls : List BBL) :
    (bblRows mem tid n bbls).map Block.eip = bbls.map BBL.address := by
  induction bbls generalizing n with
  | nil => rfl
  | cons bbl bbls ih => simp only [bblRows, List.map_cons, ih, blockOf_eq]

/-- Below 2^32 the ids of a trace's rows follow on one another. -/
theorem ids_bblRows {mem : Memory} {tid : U32} {n : Nat} {bbls : List BBL}
    (h : n + bbls.length < 2 ^ 32) :
    (bblRows mem tid n bbls).map (fun b => b.id.toNat) = List.range' (n + 1) bbls.length := by
  induction bbls generalizing n with
  | nil => rfl
  | cons bbl bbls ih =>
      rw [List.length_cons] at h
      have hid : (BitVec.ofNat 32 (n + 1)).toNat = n + 1 := by
        rw [BitVec.toNat_ofNat, Nat.mod_eq_of_lt (by omega)]
      simp only [bblRows, List.map_cons, List.length_cons, List.range'_succ, blockOf_eq, hid]
      rw [ih (by omega)]

theorem ids_traceGroups {n : Nat} {encs : List (Memory × Trace)}
    (h : n + blockCount encs < 2 ^ 32) :
    (traceGroups n encs).flatten.map (fun b => b.id.toNat) =
      List.range' (n + 1) (blockCount encs) := by
  induction encs generalizing n with
  | nil => rfl
  | cons enc encs ih =>
      have hcount : blockCount (enc :: encs) = enc.2.bbls.length + blockCount encs := by
        simp only [blockCount, List.map_cons, List.sum_cons]
      rw [hcount] at h ⊢
      rw [traceGroups, List.flatten_cons, List.map_append, traceRows, ids_bblRows (by omega),
        ih (by omega), ← List.range'_append_1]
      congr 2
      omega

/-! ## One encounter -/

/-- A later basic block of a trace: a new id, the trace's `tid`, no callback. -/
theorem encounterBbl_later (mem : Memory) (g : BlockGlobals) {tid : U32} (h : tid ≠ 0)
    (bbl : BBL) :
    BlockGlobals.encounterBbl mem (g, tid) bbl =
      ({ g with
          lastId := g.lastId + 1
          blocksCsv := g.blocksCsv ++ [blockOf mem (g.lastId + 1) tid bbl] }, tid) := by
  simp only [BlockGlobals.encounterBbl, Block.new, if_neg h, blockOf]

/-- The first basic block of a trace: its new id becomes the trace's `tid` and the callback's. -/
theorem encounterBbl_first (mem : Memory) (g : BlockGlobals) (bbl : BBL) :
    BlockGlobals.encounterBbl mem (g, 0) bbl =
      ({ g with
          lastId := g.lastId + 1
          inserted := g.inserted ++ [g.lastId + 1]
          blocksCsv := g.blocksCsv ++ [blockOf mem (g.lastId + 1) (g.lastId + 1) bbl] },
        g.lastId + 1) := by
  simp only [BlockGlobals.encounterBbl, Block.new, if_true, blockOf]

/-- The basic blocks after the first. -/
theorem foldl_encounterBbl (mem : Memory) (g : BlockGlobals) {tid : U32} (h : tid ≠ 0) {n : Nat}
    (hn : g.lastId = BitVec.ofNat 32 n) (bbls : List BBL) :
    (bbls.foldl (BlockGlobals.encounterBbl mem) (g, tid)).1 =
      { g with
        lastId := BitVec.ofNat 32 (n + bbls.length)
        blocksCsv := g.blocksCsv ++ bblRows mem tid n bbls } := by
  induction bbls generalizing g n with
  | nil => simp [bblRows, ← hn]
  | cons bbl bbls ih =>
      have hnext : g.lastId + 1 = BitVec.ofNat 32 (n + 1) := by rw [hn, ofNat_succ]
      rw [List.foldl_cons, encounterBbl_later mem g h bbl, ih _ hnext]
      simp only [bblRows, hnext, List.append_assoc, List.singleton_append, List.length_cons]
      congr 2
      omega

/-- **What one encounter can do**: the rows of the trace are appended under consecutive ids, and
one callback is inserted, carrying the first of them. -/
theorem processEncounterTrace_eq {g : BlockGlobals} {n : Nat} (hn : g.lastId = BitVec.ofNat 32 n)
    (mem : Memory) (trace : Trace) (hne : trace.bbls ≠ [])
    (hmain : g.isAddrWithinMainModule trace.address = true)
    (hlt : n + trace.bbls.length < 2 ^ 32) :
    g.processEncounterTrace mem trace =
      { g with
        lastId := BitVec.ofNat 32 (n + trace.bbls.length)
        inserted := g.inserted ++ [BitVec.ofNat 32 (n + 1)]
        blocksCsv := g.blocksCsv ++ traceRows n (mem, trace) } := by
  obtain ⟨bbl, bbls, hbbls⟩ := List.exists_cons_of_ne_nil hne
  have hnext : g.lastId + 1 = BitVec.ofNat 32 (n + 1) := by rw [hn, ofNat_succ]
  rw [hbbls, List.length_cons] at hlt
  have htid : BitVec.ofNat 32 (n + 1) ≠ 0 := by
    intro h
    have := congrArg BitVec.toNat h
    rw [BitVec.toNat_ofNat, Nat.mod_eq_of_lt (by omega)] at this
    exact absurd this (Nat.succ_ne_zero n)
  have hguard : (trace.bbls.length ≠ 0 && g.isAddrWithinMainModule trace.address) = true := by
    simp [hmain, hne]
  rw [BlockGlobals.processEncounterTrace, if_pos hguard, hbbls, List.foldl_cons,
    encounterBbl_first, hnext, foldl_encounterBbl mem _ htid rfl]
  simp only [traceRows, hbbls, bblRows, List.append_assoc, List.singleton_append,
    List.length_cons]
  congr 2
  omega

/-! ## The invariant over both files -/

/-- The ids the callbacks carry: one per trace, the first id of its rows. -/
def firstIds : Nat → List (Memory × Trace) → List U32
  | _, [] => []
  | n, enc :: encs => BitVec.ofNat 32 (n + 1) :: firstIds (n + enc.2.bbls.length) encs

theorem firstIds_append (n : Nat) (encs encs' : List (Memory × Trace)) :
    firstIds n (encs ++ encs') = firstIds n encs ++ firstIds (n + blockCount encs) encs' := by
  induction encs generalizing n with
  | nil => rfl
  | cons enc encs ih =>
      simp only [List.cons_append, firstIds, ih, blockCount, List.map_cons, List.sum_cons,
        Nat.add_assoc]

/-- Both files are what the traces encountered so far make them. -/
structure Linked (s : RunState) (mainModuleStart mainModuleSize : U32)
    (encs : List (Memory × Trace)) : Prop where
  mainModuleStart : s.blocks.mainModuleStart = mainModuleStart
  mainModuleSize : s.blocks.mainModuleSize = mainModuleSize
  lastId : s.blocks.lastId = BitVec.ofNat 32 (blockCount encs)
  blocksCsv : s.blocks.blocksCsv = (traceGroups 0 encs).flatten
  inserted : s.blocks.inserted = firstIds 0 encs
  framesCsv : ∀ row ∈ s.frames.framesCsv, row.bid ∈ s.blocks.inserted

theorem linked_init (mainModuleStart mainModuleSize : U32) :
    Linked (RunState.init mainModuleStart mainModuleSize) mainModuleStart mainModuleSize [] where
  mainModuleStart := rfl
  mainModuleSize := rfl
  lastId := rfl
  blocksCsv := rfl
  inserted := rfl
  framesCsv := fun _ h => absurd h List.not_mem_nil

/-- A callback appends at most one row, under the block id it was inserted with. -/
theorem framesCsv_process (g : FrameGlobals) (e : BBLEvent) :
    (g.processInstrumentBBL e).framesCsv = g.framesCsv ∨
      ∃ row : FrameRow, row.bid = e.bid ∧
        (g.processInstrumentBBL e).framesCsv = g.framesCsv ++ [row] := by
  rw [framesCsv_process_eq]
  by_cases hskip : g.skips e
  · rw [if_pos hskip]
    exact Or.inl (List.append_nil _)
  · rw [if_neg hskip]
    exact Or.inr ⟨_, rfl, rfl⟩

section Run

variable {mainModuleStart mainModuleSize : U32}

/-- A trace the tool records: in the main module and not empty. -/
def Recorded (mainModuleStart mainModuleSize : U32) (enc : Memory × Trace) : Prop :=
  enc.2.bbls ≠ [] ∧
    (BlockGlobals.init mainModuleStart mainModuleSize).isAddrWithinMainModule enc.2.address = true

/-- **Step, encounter.** -/
theorem Linked.encounter {s : RunState} {encs : List (Memory × Trace)}
    (hl : Linked s mainModuleStart mainModuleSize encs) {mem : Memory} {trace : Trace}
    (hrec : Recorded mainModuleStart mainModuleSize (mem, trace))
    (hlt : blockCount (encs ++ [(mem, trace)]) < 2 ^ 32) :
    Linked { s with blocks := s.blocks.processEncounterTrace mem trace }
      mainModuleStart mainModuleSize (encs ++ [(mem, trace)]) := by
  have hcount : blockCount (encs ++ [(mem, trace)]) = blockCount encs + trace.bbls.length := by
    simp [blockCount]
  have hmain : s.blocks.isAddrWithinMainModule trace.address = true := by
    rw [BlockGlobals.isAddrWithinMainModule, hl.mainModuleStart, hl.mainModuleSize]
    exact hrec.2
  rw [hcount] at hlt
  have heq := processEncounterTrace_eq hl.lastId mem trace hrec.1 hmain hlt
  exact {
    mainModuleStart := by rw [heq]; exact hl.mainModuleStart
    mainModuleSize := by rw [heq]; exact hl.mainModuleSize
    lastId := by rw [heq, hcount]
    blocksCsv := by
      rw [heq, traceGroups_append, List.flatten_append, ← hl.blocksCsv, Nat.zero_add]
      simp only [traceGroups, List.flatten_cons, List.flatten_nil, List.append_nil]
    inserted := by
      rw [heq, firstIds_append, ← hl.inserted, Nat.zero_add]
      rfl
    framesCsv := by
      intro row hrow
      rw [heq]
      exact List.mem_append_left _ (hl.framesCsv row hrow) }

/-- **Step, callback.** -/
theorem Linked.execute {s : RunState} {encs : List (Memory × Trace)}
    (hl : Linked s mainModuleStart mainModuleSize encs) {e : BBLEvent}
    (hbid : e.bid ∈ s.blocks.inserted) :
    Linked { s with frames := s.frames.processInstrumentBBL e }
      mainModuleStart mainModuleSize encs where
  mainModuleStart := hl.mainModuleStart
  mainModuleSize := hl.mainModuleSize
  lastId := hl.lastId
  blocksCsv := hl.blocksCsv
  inserted := hl.inserted
  framesCsv := by
    intro row hrow
    rcases framesCsv_process s.frames e with heq | ⟨row', hbid', heq⟩
    · exact hl.framesCsv row (heq ▸ hrow)
    · have hrow' : row ∈ s.frames.framesCsv ++ [row'] := heq ▸ hrow
      rcases List.mem_append.mp hrow' with hrow' | hrow'
      · exact hl.framesCsv row hrow'
      · rw [List.mem_singleton.mp hrow', hbid']
        exact hbid

theorem blockCount_append (encs encs' : List (Memory × Trace)) :
    blockCount (encs ++ encs') = blockCount encs + blockCount encs' := by
  simp [blockCount]

/-- **Run.** Every interleaving keeps the two files linked. -/
theorem linked_run {s s' : RunState} {encs : List (Memory × Trace)} {evs : List RunEvent}
    (hl : Linked s mainModuleStart mainModuleSize encs) (hrun : s.run evs = some s')
    (hrec : ∀ enc ∈ encounters evs, Recorded mainModuleStart mainModuleSize enc)
    (hlt : blockCount (encs ++ encounters evs) < 2 ^ 32) :
    Linked s' mainModuleStart mainModuleSize (encs ++ encounters evs) := by
  induction evs generalizing s encs with
  | nil =>
      obtain rfl : s = s' := Option.some.inj hrun
      rw [encounters, List.filterMap_nil, List.append_nil]
      exact hl
  | cons ev evs ih =>
      rw [RunState.run, List.foldlM_cons] at hrun
      obtain ⟨s₁, hstep, hrest⟩ := Option.bind_eq_some_iff.mp hrun
      cases ev with
      | encounter mem trace =>
          obtain rfl := Option.some.inj hstep
          have henc : encounters (.encounter mem trace :: evs) = (mem, trace) :: encounters evs :=
            rfl
          rw [henc] at hrec hlt ⊢
          rw [List.append_cons] at hlt ⊢
          have hlt₁ : blockCount (encs ++ [(mem, trace)]) < 2 ^ 32 := by
            rw [blockCount_append] at hlt
            exact lt_of_le_of_lt (Nat.le_add_right _ _) hlt
          exact ih (hl.encounter (hrec _ List.mem_cons_self) hlt₁) hrest
            (fun enc h => hrec enc (List.mem_cons_of_mem _ h)) hlt
      | execute callback context mem tid =>
          obtain ⟨bid, hbid, rfl⟩ := Option.map_eq_some_iff.mp hstep
          exact ih (hl.execute (e := ⟨bid, context, mem, tid⟩) (List.mem_of_getElem? hbid)) hrest
            hrec hlt

end Run

/-! ## What the files say -/

/-- The rows of one trace: one per basic block, all under the id of the first, which is the id its
callback carries. -/
structure TraceRows (enc : Memory × Trace) (bid : U32) (rows : List Block) : Prop where
  eips : rows.map Block.eip = enc.2.bbls.map BBL.address
  first : rows.head?.map Block.id = some bid
  tids : ∀ b ∈ rows, b.tid = bid

theorem traceRows_traceRows {n : Nat} {enc : Memory × Trace} (h : enc.2.bbls ≠ []) :
    TraceRows enc (BitVec.ofNat 32 (n + 1)) (traceRows n enc) where
  eips := eips_bblRows _ _ _ _
  first := by
    obtain ⟨bbl, bbls, hbbls⟩ := List.exists_cons_of_ne_nil h
    simp only [traceRows, hbbls, bblRows, List.head?_cons, Option.map_some, blockOf_eq]
  tids := fun _ => tid_bblRows

theorem length_firstIds (n : Nat) (encs : List (Memory × Trace)) :
    (firstIds n encs).length = encs.length := by
  induction encs generalizing n with
  | nil => rfl
  | cons enc encs ih => simp only [firstIds, List.length_cons, ih]

theorem length_traceGroups (n : Nat) (encs : List (Memory × Trace)) :
    (traceGroups n encs).length = encs.length := by
  induction encs generalizing n with
  | nil => rfl
  | cons enc encs ih => simp only [traceGroups, List.length_cons, ih]

/-- Trace by trace: its encounter, the id its callback carries, its rows. -/
theorem traceRows_of_traceGroups {n : Nat} {encs : List (Memory × Trace)}
    (h : ∀ enc ∈ encs, enc.2.bbls ≠ []) {k : Nat} {enc : Memory × Trace} {bid : U32}
    {rows : List Block} (henc : encs[k]? = some enc) (hbid : (firstIds n encs)[k]? = some bid)
    (hrows : (traceGroups n encs)[k]? = some rows) : TraceRows enc bid rows := by
  induction encs generalizing n k with
  | nil => exact absurd henc (by simp)
  | cons enc' encs ih =>
      cases k with
      | zero =>
          obtain rfl : enc' = enc := by simpa using henc
          obtain rfl : BitVec.ofNat 32 (n + 1) = bid := by simpa [firstIds] using hbid
          obtain rfl : traceRows n enc' = rows := by simpa [traceGroups] using hrows
          exact traceRows_traceRows (h enc' List.mem_cons_self)
      | succ k =>
          exact ih (fun enc henc => h enc (List.mem_cons_of_mem _ henc)) (by simpa using henc)
            (by simpa [firstIds] using hbid) (by simpa [traceGroups] using hrows)

/-- The relation between the two files and the traces encountered. -/
structure FilesLinked (s : RunState) (encs : List (Memory × Trace)) : Prop where
  /-- ids `1, 2, 3, …` in file order -/
  ids : s.blocks.blocksCsv.map (fun b => b.id.toNat) = List.range' 1 (blockCount encs)
  /-- one callback per trace, and the rows of the traces one after the other -/
  traces : s.blocks.inserted.length = encs.length ∧
    ∃ groups : List (List Block), s.blocks.blocksCsv = groups.flatten ∧
      groups.length = encs.length ∧
      ∀ (k : Nat) (enc : Memory × Trace) (bid : U32) (rows : List Block),
        encs[k]? = some enc → s.blocks.inserted[k]? = some bid → groups[k]? = some rows →
          TraceRows enc bid rows
  /-- every frame carries the id of a written block that heads its trace -/
  frames : ∀ row ∈ s.frames.framesCsv, ∃ b ∈ s.blocks.blocksCsv, b.id = row.bid ∧ b.tid = b.id

/-- A callback's id is the id of a written row that is its own trace id. -/
theorem exists_row_of_mem_firstIds {n : Nat} {encs : List (Memory × Trace)}
    (h : ∀ enc ∈ encs, enc.2.bbls ≠ []) {bid : U32} (hbid : bid ∈ firstIds n encs) :
    ∃ b ∈ (traceGroups n encs).flatten, b.id = bid ∧ b.tid = b.id := by
  induction encs generalizing n with
  | nil => exact absurd hbid List.not_mem_nil
  | cons enc encs ih =>
      rcases List.mem_cons.mp hbid with rfl | hbid
      · have hrows := traceRows_traceRows (n := n) (h enc List.mem_cons_self)
        obtain ⟨b, hb, hid⟩ := Option.map_eq_some_iff.mp hrows.first
        have hmem : b ∈ traceRows n enc := List.mem_of_mem_head? hb
        exact ⟨b, List.mem_append_left _ hmem, hid, by rw [hrows.tids b hmem, hid]⟩
      · obtain ⟨b, hb, hid⟩ := ih (fun enc' henc => h enc' (List.mem_cons_of_mem _ henc)) hbid
        exact ⟨b, List.mem_append_right _ hb, hid⟩

theorem Linked.filesLinked {s : RunState} {mainModuleStart mainModuleSize : U32}
    {encs : List (Memory × Trace)} (hl : Linked s mainModuleStart mainModuleSize encs)
    (hne : ∀ enc ∈ encs, enc.2.bbls ≠ []) (hlt : blockCount encs < 2 ^ 32) :
    FilesLinked s encs where
  ids := by
    rw [hl.blocksCsv]
    exact ids_traceGroups (by rwa [Nat.zero_add])
  traces := by
    rw [hl.inserted, hl.blocksCsv]
    refine ⟨length_firstIds 0 encs, traceGroups 0 encs, rfl, length_traceGroups 0 encs, ?_⟩
    intro k enc bid rows henc hbid hrows
    exact traceRows_of_traceGroups hne henc hbid hrows
  frames := by
    intro row hrow
    have hbid : row.bid ∈ firstIds 0 encs := hl.inserted ▸ hl.framesCsv row hrow
    rw [hl.blocksCsv]
    exact exists_row_of_mem_firstIds hne hbid

/-- **Every run links the two files.** Whatever the order in which traces are encountered and
inserted callbacks execute, the files are related as `FilesLinked` says after every event: every
prefix of a run is a run. -/
theorem run_links_files (mainModuleStart mainModuleSize : U32) (evs : List RunEvent)
    (s : RunState) (hrun : (RunState.init mainModuleStart mainModuleSize).run evs = some s)
    (hrec : ∀ enc ∈ encounters evs, Recorded mainModuleStart mainModuleSize enc)
    (hlt : blockCount (encounters evs) < 2 ^ 32) : FilesLinked s (encounters evs) :=
  (linked_run (linked_init mainModuleStart mainModuleSize) hrun hrec hlt).filesLinked
    (fun enc henc => (hrec enc henc).1) hlt

section Samples

/-- A one-byte `ret` at an address. -/
def sampleIns (address : U32) : Ins where
  address := address
  size := 1
  disassemble := ['r', 'e', 't']

/-- A one-instruction basic block. -/
def sampleBbl (address : U32) : BBL where
  address := address
  insns := [sampleIns address]
  nonempty := List.cons_ne_nil _ _

/-- A trace of two blocks, its callback twice, then a trace of one block and its callback. -/
def sampleRun : List RunEvent :=
  [.encounter (fun _ => 0xC3) ⟨0x1000, [sampleBbl 0x1000, sampleBbl 0x1010]⟩,
   .execute 0 (sampleEvent 0x1000 1).context (fun _ => 0) 0,
   .execute 0 (sampleEvent 0x1000 2).context (fun _ => 0) 0,
   .encounter (fun _ => 0xC3) ⟨0x1020, [sampleBbl 0x1020]⟩,
   .execute 1 (sampleEvent 0x1020 3).context (fun _ => 0) 0]

/-- The last frame carries block 3, the head of the second trace. -/
theorem run_links_files_sample :
    ∃ s, (RunState.init 0x1000 0x100).run sampleRun = some s ∧
      FilesLinked s (encounters sampleRun) ∧
      s.frames.framesCsv.map FrameRow.bid = [1, 3] := by
  refine ⟨_, rfl, run_links_files 0x1000 0x100 sampleRun _ rfl ?_ (by decide), by decide⟩
  intro enc henc
  simp only [encounters, sampleRun, List.filterMap_cons, List.filterMap_nil, List.mem_cons,
    List.not_mem_nil, or_false] at henc
  rcases henc with rfl | rfl <;> exact ⟨by simp, by decide⟩

end Samples

end PEReplay
