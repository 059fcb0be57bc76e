/-
# PEReplay.Replay.Rejoin — a run, read back from its two files.

`frames.csv` says which executions were kept, with registers and stack; `blocks.csv` says what code
there is.  They meet in the block id: a frame carries the id of the first block of its trace, which
every block of that trace has as its trace id.  `replay` reads both files and puts the code of its
trace next to every frame.

`executions` reads a run without files and without ids: every execution with the trace it enters.
`replay_run` says that the files give the kept executions back, each with its own code.
-/
import PEReplay.Replay.FramesCsv

namespace PEReplay

open Printf

/-! ## Reading both files -/

/-- The code of a basic block. -/
structure BlockCode where
  eip : U32
  raw : List (List U8)
  disasm : List (List Char)
  deriving Repr, DecidableEq

/-- What a row says of the code. -/
def BlockRecord.code (b : BlockRecord) : BlockCode := ⟨b.eip, b.raw, b.disasm⟩

/-- The frames of `frames.csv`, each with the code that `blocks.csv` has for its trace. -/
def replay (blocksCsv framesCsv : List Char) : Option (List (FrameRow × List BlockCode)) := do
  let records ← decode blocksCsv
  let rows ← decodeFrames framesCsv
  return rows.map fun row => (row, (records.filter fun b => b.tid = row.bid).map BlockRecord.code)

/-! ## What was run -/

/-- The code of a trace, in the memory in which it was encountered. -/
def traceCode (enc : Memory × Trace) : List BlockCode :=
  enc.2.bbls.map fun bbl =>
    ⟨bbl.address, bbl.insns.map fun ins => ins.rawBytes enc.1, bbl.insns.map Ins.disassemble⟩

/-- Traces with the number of blocks before each. -/
def numbered : Nat → List (Memory × Trace) → List (Nat × (Memory × Trace))
  | _, [] => []
  | n, enc :: encs => (n, enc) :: numbered (n + enc.2.bbls.length) encs

/-- The id of the first block of a trace. -/
def firstId (p : Nat × (Memory × Trace)) : U32 := BitVec.ofNat 32 (p.1 + 1)

/-- The executions of a run that begins with `encs` encountered, each with the trace it enters. -/
def executions : List (Memory × Trace) → List RunEvent → List (BBLEvent × (Memory × Trace))
  | _, [] => []
  | encs, .encounter mem trace :: evs => executions (encs ++ [(mem, trace)]) evs
  | encs, .execute callback context mem tid :: evs =>
      ((numbered 0 encs)[callback]?.map fun p =>
        ((⟨firstId p, context, mem, tid⟩ : BBLEvent), p.2)).toList ++ executions encs evs

/-- The code entered by the `n`-th execution, counted from one. -/
def codeOf (xs : List (BBLEvent × (Memory × Trace))) (n : Nat) : List BlockCode :=
  (xs[n - 1]?.map fun x => traceCode x.2).getD []

/-- The kept executions: what their frames say, and the code they entered. -/
def keyFrames (xs : List (BBLEvent × (Memory × Trace))) : List (FrameRow × List BlockCode) :=
  (selected (xs.map Prod.fst)).mapIdx fun j w => (rowOf j w, codeOf xs w.1)

/-! ## The numbering -/

theorem numbered_append (n : Nat) (encs encs' : List (Memory × Trace)) :
    numbered n (encs ++ encs') = numbered n encs ++ numbered (n + blockCount encs) encs' := by
  induction encs generalizing n with
  | nil => rfl
  | cons enc encs ih =>
      simp only [List.cons_append, numbered, ih, blockCount, List.map_cons, List.sum_cons,
        Nat.add_assoc]

theorem firstIds_eq_numbered (n : Nat) (encs : List (Memory × Trace)) :
    firstIds n encs = (numbered n encs).map firstId := by
  induction encs generalizing n with
  | nil => rfl
  | cons enc encs ih =>
      simp only [firstIds, numbered, List.map_cons, ih]
      rfl

theorem traceGroups_eq_numbered (n : Nat) (encs : List (Memory × Trace)) :
    traceGroups n encs = (numbered n encs).map fun p => traceRows p.1 p.2 := by
  induction encs generalizing n with
  | nil => rfl
  | cons enc encs ih => simp only [traceGroups, numbered, List.map_cons, ih]

theorem mem_of_mem_numbered {n : Nat} {encs : List (Memory × Trace)} {p : Nat × (Memory × Trace)}
    (h : p ∈ numbered n encs) : p.2 ∈ encs ∧ n ≤ p.1 ∧
      p.1 + p.2.2.bbls.length ≤ n + blockCount encs := by
  induction encs generalizing n with
  | nil => exact absurd h List.not_mem_nil
  | cons enc encs ih =>
      have hcount : blockCount (enc :: encs) = enc.2.bbls.length + blockCount encs := by
        simp only [blockCount, List.map_cons, List.sum_cons]
      rw [hcount]
      rcases List.mem_cons.mp h with rfl | h
      · exact ⟨List.mem_cons_self, le_rfl, by rw [← Nat.add_assoc]; exact Nat.le_add_right _ _⟩
      · obtain ⟨hmem, hle, htop⟩ := ih h
        exact ⟨List.mem_cons_of_mem _ hmem, by omega, by omega⟩

/-- Traces that are not empty get different first ids, below 2^32. -/
theorem nodup_firstIds {n : Nat} {encs : List (Memory × Trace)} (hne : ∀ enc ∈ encs, enc.2.bbls ≠ [])
    (hlt : n + blockCount encs < 2 ^ 32) : ((numbered n encs).map firstId).Nodup := by
  induction encs generalizing n with
  | nil => exact List.nodup_nil
  | cons enc encs ih =>
      have hcount : blockCount (enc :: encs) = enc.2.bbls.length + blockCount encs := by
        simp only [blockCount, List.map_cons, List.sum_cons]
      have hpos : 0 < enc.2.bbls.length := List.length_pos_of_ne_nil (hne enc List.mem_cons_self)
      rw [hcount] at hlt
      rw [numbered, List.map_cons, List.nodup_cons]
      refine ⟨fun hmem => ?_, ih (fun e he => hne e (List.mem_cons_of_mem _ he)) (by omega)⟩
      obtain ⟨p, hp, heq⟩ := List.mem_map.mp hmem
      obtain ⟨hp2, hle, htop⟩ := mem_of_mem_numbered hp
      have hpos' := List.length_pos_of_ne_nil (hne p.2 (List.mem_cons_of_mem _ hp2))
      have hnat := congrArg BitVec.toNat heq
      simp only [firstId, BitVec.toNat_ofNat] at hnat
      omega

/-! ## The blocks of a trace -/

/-- Where the rows of a trace come from. -/
def bblSources (mem : Memory) (tid : U32) : Nat → List BBL → List BlockSource
  | _, [] => []
  | n, bbl :: bbls => ⟨mem, BitVec.ofNat 32 (n + 1), tid, bbl⟩ :: bblSources mem tid (n + 1) bbls

def traceSources (p : Nat × (Memory × Trace)) : List BlockSource :=
  bblSources p.2.1 (firstId p) p.1 p.2.2.bbls

theorem map_block_bblSources (mem : Memory) (tid : U32) (n : Nat) (bbls : List BBL) :
    (bblSources mem tid n bbls).map BlockSource.block = bblRows mem tid n bbls := by
  induction bbls generalizing n with
  | nil => rfl
  | cons bbl bbls ih =>
      simp only [bblSources, bblRows, List.map_cons, ih]
      rfl

theorem map_code_bblSources (mem : Memory) (tid : U32) (n : Nat) (bbls : List BBL) :
    (bblSources mem tid n bbls).map (fun s => s.record.code) = bbls.map fun bbl =>
      ⟨bbl.address, bbl.insns.map fun ins => ins.rawBytes mem, bbl.insns.map Ins.disassemble⟩ := by
  induction bbls generalizing n with
  | nil => rfl
  | cons bbl bbls ih =>
      simp only [bblSources, List.map_cons, ih]
      rfl

theorem mem_bblSources {mem : Memory} {tid : U32} {n : Nat} {bbls : List BBL} {s : BlockSource}
    (h : s ∈ bblSources mem tid n bbls) : s.tid = tid ∧ s.bbl ∈ bbls := by
  induction bbls generalizing n with
  | nil => exact absurd h List.not_mem_nil
  | cons bbl bbls ih =>
      rcases List.mem_cons.mp h with rfl | h
      · exact ⟨rfl, List.mem_cons_self⟩
      · exact ⟨(ih h).1, List.mem_cons_of_mem _ (ih h).2⟩

/-- **One group is found by its key**, where no two groups share one. -/
theorem filter_flatMap_key {α β κ : Type*} [DecidableEq κ] {items : List α} {keyOf : α → κ}
    {group : α → List β} {key : β → κ} (hkey : ∀ a ∈ items, ∀ b ∈ group a, key b = keyOf a)
    (hnodup : (items.map keyOf).Nodup) {a : α} (ha : a ∈ items) :
    (items.flatMap group).filter (fun b => key b = keyOf a) = group a := by
  induction items with
  | nil => exact absurd ha List.not_mem_nil
  | cons x items ih =>
      rw [List.map_cons, List.nodup_cons] at hnodup
      have hrest : ∀ y ∈ items, ∀ b ∈ group y, key b = keyOf y := fun y hy =>
        hkey y (List.mem_cons_of_mem x hy)
      rw [List.flatMap_cons, List.filter_append]
      rcases List.mem_cons.mp ha with rfl | ha
      · have hself : (group a).filter (fun b => key b = keyOf a) = group a :=
          List.filter_eq_self.mpr fun b hb => decide_eq_true (hkey a List.mem_cons_self b hb)
        have hnone : (items.flatMap group).filter (fun b => key b = keyOf a) = [] := by
          refine List.filter_eq_nil_iff.mpr fun b hb => ?_
          obtain ⟨y, hy, hb⟩ := List.mem_flatMap.mp hb
          rw [hrest y hy b hb, decide_eq_true_eq]
          exact fun heq => hnodup.1 (heq ▸ List.mem_map_of_mem hy)
        rw [hself, hnone, List.append_nil]
      · have hnone : (group x).filter (fun b => key b = keyOf a) = [] := by
          refine List.filter_eq_nil_iff.mpr fun b hb => ?_
          rw [hkey x List.mem_cons_self b hb, decide_eq_true_eq]
          exact fun heq => hnodup.1 (heq ▸ List.mem_map_of_mem ha)
        rw [hnone, List.nil_append]
        exact ih hrest hnodup.2 ha

/-- The records of a trace, found by its id among those of all traces. -/
theorem code_of_firstId {encs : List (Memory × Trace)} (hne : ∀ enc ∈ encs, enc.2.bbls ≠ [])
    (hlt : blockCount encs < 2 ^ 32) {p : Nat × (Memory × Trace)} (hp : p ∈ numbered 0 encs) :
    ((((numbered 0 encs).flatMap traceSources).map BlockSource.record).filter
      fun b => b.tid = firstId p).map BlockRecord.code = traceCode p.2 := by
  have hkey : ∀ q ∈ numbered 0 encs, ∀ s ∈ traceSources q, s.tid = firstId q :=
    fun q _ s hs => (mem_bblSources hs).1
  have hfilter := filter_flatMap_key hkey (nodup_firstIds hne (by omega)) hp
  rw [List.filter_map, List.map_map]
  calc (((numbered 0 encs).flatMap traceSources).filter fun s => s.tid = firstId p).map
        (fun s => s.record.code)
      = (traceSources p).map fun s => s.record.code := by rw [hfilter]
    _ = traceCode p.2 := map_code_bblSources _ _ _ _

/-! ## Ordinals -/

/-- The written events of a history carry their own positions. -/
theorem getElem_of_mem_selected (evs : List BBLEvent) :
    ∀ w ∈ selected evs, 0 < w.1 ∧ evs[w.1 - 1]? = some w.2 := by
  induction evs using List.reverseRecOn with
  | nil => exact fun w hw => absurd hw List.not_mem_nil
  | append_singleton evs e ih =>
      intro w hw
      have hold : ∀ v ∈ selected evs, 0 < v.1 ∧ (evs ++ [e])[v.1 - 1]? = some v.2 := by
        intro v hv
        obtain ⟨hpos, hget⟩ := ih v hv
        have hlt : v.1 - 1 < evs.length := (List.getElem?_eq_some_iff.mp hget).1
        exact ⟨hpos, by rw [List.getElem?_append_left hlt, hget]⟩
      rw [selected, history_append_singleton, History.push] at hw
      split_ifs at hw
      · rcases List.mem_append.mp hw with hw | hw
        · exact hold w hw
        · obtain rfl := List.mem_singleton.mp hw
          simp only [past_history, Nat.add_sub_cancel, List.getElem?_concat_length]
          exact ⟨Nat.succ_pos _, trivial⟩
      · exact hold w hw

/-! ## Runs -/

theorem decode_sources {sources : List BlockSource} (h : ∀ s ∈ sources, s.Clean) :
    decode (sources.flatMap fun s => s.block.serialize) =
      some (sources.map BlockSource.record) := by
  have hne : ∀ s ∈ sources, s.block.serialize ≠ [] := fun s _ => serialize_ne_nil s.block
  exact readMany_flatMap (fun s hs rest => readBlock_serialize (h s hs) rest) hne
    (length_le_length_flatMap hne)

section Run

variable {mainModuleStart mainModuleSize : U32}

/-- **Run.** The frames of a run are those of its executions. -/
theorem frames_run {s s' : RunState} {encs : List (Memory × Trace)} {evs : List RunEvent}
    (hl : Linked s mainModuleStart mainModuleSize encs) (hrun : s.run evs = some s')
    (hrec : ∀ enc ∈ encounters evs, Recorded mainModuleStart mainModuleSize enc)
    (hlt : blockCount (encs ++ encounters evs) < 2 ^ 32) :
    s'.frames = ((executions encs evs).map Prod.fst).foldl
      FrameGlobals.processInstrumentBBL s.frames := by
  induction evs generalizing s encs with
  | nil =>
      obtain rfl : s = s' := Option.some.inj hrun
      rfl
  | cons ev evs ih =>
      rw [RunState.run, List.foldlM_cons] at hrun
      obtain ⟨s₁, hstep, hrest⟩ := Option.bind_eq_some_iff.mp hrun
      cases ev with
      | encounter mem trace =>
          obtain rfl := Option.some.inj hstep
          have henc : encounters (.encounter mem trace :: evs) = (mem, trace) :: encounters evs :=
            rfl
          rw [henc] at hrec hlt
          rw [List.append_cons] at hlt
          have hlt₁ : blockCount (encs ++ [(mem, trace)]) < 2 ^ 32 := by
            rw [blockCount_append] at hlt
            exact lt_of_le_of_lt (Nat.le_add_right _ _) hlt
          have hnext := hl.encounter (hrec _ List.mem_cons_self) hlt₁
          have hframes := ih hnext hrest (fun enc h => hrec enc (List.mem_cons_of_mem _ h)) hlt
          exact hframes
      | execute callback context mem tid =>
          obtain ⟨bid, hbid, rfl⟩ := Option.map_eq_some_iff.mp hstep
          have hids : (numbered 0 encs)[callback]?.map firstId = some bid := by
            rw [← List.getElem?_map, ← firstIds_eq_numbered, ← hl.inserted]
            exact hbid
          obtain ⟨p, hp, rfl⟩ := Option.map_eq_some_iff.mp hids
          rw [ih (hl.execute (e := ⟨firstId p, context, mem, tid⟩) (List.mem_of_getElem? hbid)) hrest
            hrec hlt]
          simp only [executions, hp, Option.map_some, Option.toList_some, List.singleton_append,
            List.map_cons, List.foldl_cons]

/-- The rows of `blocks.csv` come from the blocks of the traces. -/
theorem Linked.blocks_eq {s : RunState} {encs : List (Memory × Trace)}
    (hl : Linked s mainModuleStart mainModuleSize encs) :
    s.blocks.blocksCsv = ((numbered 0 encs).flatMap traceSources).map BlockSource.block := by
  rw [hl.blocksCsv, traceGroups_eq_numbered, List.map_flatMap, List.flatMap_def]
  congr 1
  exact List.map_congr_left fun p _ => (map_block_bblSources _ _ _ _).symm

/-- Every execution enters a trace of the run, under the id of its first block. -/
theorem mem_executions {encs : List (Memory × Trace)} {evs : List RunEvent}
    {x : BBLEvent × (Memory × Trace)} (h : x ∈ executions encs evs) :
    ∃ p ∈ numbered 0 (encs ++ encounters evs), x.1.bid = firstId p ∧ x.2 = p.2 := by
  induction evs generalizing encs with
  | nil => exact absurd h List.not_mem_nil
  | cons ev evs ih =>
      cases ev with
      | encounter mem trace =>
          have henc : encounters (.encounter mem trace :: evs) = (mem, trace) :: encounters evs :=
            rfl
          rw [henc, List.append_cons]
          exact ih h
      | execute callback context mem tid =>
          rcases List.mem_append.mp h with h | h
          · obtain ⟨p, hp, rfl⟩ := Option.map_eq_some_iff.mp (Option.mem_toList.mp h)
            refine ⟨p, ?_, rfl, rfl⟩
            show p ∈ numbered 0 (encs ++ encounters evs)
            rw [numbered_append]
            exact List.mem_append_left _ (List.mem_of_getElem? hp)
          · exact ih h

end Run

/-- The disassembly texts of a trace are clear of quotes, newlines and bars. -/
def CleanTrace (enc : Memory × Trace) : Prop :=
  ∀ bbl ∈ enc.2.bbls, ∀ ins ∈ bbl.insns,
    '\x22' ∉ ins.disassemble ∧ '\n' ∉ ins.disassemble ∧ '|' ∉ ins.disassemble

/-- The texts of the two files. -/
def RunState.blocksText (s : RunState) : List Char := s.blocks.blocksCsv.flatMap Block.serialize

def RunState.framesText (s : RunState) : List Char := s.frames.framesCsv.flatMap FrameRow.text

/-- The two files of a run in which every trace is recorded. -/
theorem replay_of_recorded {mainModuleStart mainModuleSize : U32} {evs : List RunEvent}
    {s : RunState} (hrun : (RunState.init mainModuleStart mainModuleSize).run evs = some s)
    (hrec : ∀ enc ∈ encounters evs, Recorded mainModuleStart mainModuleSize enc)
    (hlt : blockCount (encounters evs) < 2 ^ 32)
    (hclean : ∀ enc ∈ encounters evs, CleanTrace enc)
    (heip : ∀ x ∈ executions [] evs, x.1.eip ≠ 0) :
    replay s.blocksText s.framesText = some (keyFrames (executions [] evs)) := by
  have hlinked := linked_run (linked_init mainModuleStart mainModuleSize) hrun hrec hlt
  have hne : ∀ enc ∈ encounters evs, enc.2.bbls ≠ [] := fun enc henc => (hrec enc henc).1
  -- `blocks.csv`
  have hblocks : decode s.blocksText = some
      (((numbered 0 (encounters evs)).flatMap traceSources).map BlockSource.record) := by
    rw [RunState.blocksText, hlinked.blocks_eq, List.nil_append, List.flatMap_map]
    refine decode_sources fun src hsrc => ?_
    obtain ⟨p, hp, hsrc⟩ := List.mem_flatMap.mp hsrc
    exact hclean p.2 (mem_of_mem_numbered hp).1 src.bbl (mem_bblSources hsrc).2
  -- `frames.csv`
  have hframes : decodeFrames s.framesText =
      some (rowsOf (selected ((executions [] evs).map Prod.fst))) := by
    have hrows : s.frames.framesCsv = rowsOf (selected ((executions [] evs).map Prod.fst)) := by
      rw [frames_run (linked_init mainModuleStart mainModuleSize) hrun hrec hlt]
      refine (tracks_run _ fun e he => ?_).framesCsv
      obtain ⟨x, hx, rfl⟩ := List.mem_map.mp he
      exact heip x hx
    rw [RunState.framesText, hrows]
    exact decodeFrames_text _
  simp only [replay, Option.bind_eq_bind, hblocks, hframes, Option.bind_some]
  refine congrArg some (List.ext_getElem (by simp [rowsOf, keyFrames]) fun j h₁ h₂ => ?_)
  simp only [rowsOf, keyFrames, List.getElem_map, List.getElem_mapIdx]
  refine Prod.ext rfl ?_
  -- the trace of the `j`-th frame
  have hj : j < (selected ((executions [] evs).map Prod.fst)).length := by
    simpa [keyFrames] using h₂
  obtain ⟨hpos, hget⟩ := getElem_of_mem_selected _ _ (List.getElem_mem hj)
  rw [List.getElem?_map] at hget
  obtain ⟨x, hx, hevent⟩ := Option.map_eq_some_iff.mp hget
  obtain ⟨p, hp, hbid, hcode⟩ := mem_executions (List.mem_of_getElem? hx)
  rw [codeOf, hx, Option.map_some, Option.getD_some, hcode]
  rw [List.nil_append] at hp
  have hfirst : (selected ((executions [] evs).map Prod.fst))[j].2.bid = firstId p := by
    rw [← hbid, hevent]
  simp only [rowOf, hfirst]
  exact code_of_firstId hne hlt hp

/-! ## Traces that are not recorded -/

instance (mainModuleStart mainModuleSize : U32) (enc : Memory × Trace) :
    Decidable (Recorded mainModuleStart mainModuleSize enc) :=
  inferInstanceAs (Decidable (_ ∧ _))

/-- An encounter that is recorded, or an execution. -/
def RunEvent.isRecorded (mainModuleStart mainModuleSize : U32) : RunEvent → Bool
  | .encounter mem trace => decide (Recorded mainModuleStart mainModuleSize (mem, trace))
  | .execute .. => true

/-- The events without the encounters that the tool passes over. -/
def recordedEvents (mainModuleStart mainModuleSize : U32) (evs : List RunEvent) : List RunEvent :=
  evs.filter (RunEvent.isRecorded mainModuleStart mainModuleSize)

theorem mainModule_encounterBbl (mem : Memory) (bbls : List BBL) (s : BlockGlobals × U32) :
    (bbls.foldl (BlockGlobals.encounterBbl mem) s).1.mainModuleStart = s.1.mainModuleStart ∧
      (bbls.foldl (BlockGlobals.encounterBbl mem) s).1.mainModuleSize = s.1.mainModuleSize := by
  induction bbls generalizing s with
  | nil => exact ⟨rfl, rfl⟩
  | cons bbl bbls ih => exact ih (BlockGlobals.encounterBbl mem s bbl)

/-- No event moves the main module. -/
theorem mainModule_step {s s' : RunState} {ev : RunEvent} (h : s.step ev = some s') :
    s'.blocks.mainModuleStart = s.blocks.mainModuleStart ∧
      s'.blocks.mainModuleSize = s.blocks.mainModuleSize := by
  cases ev with
  | encounter mem trace =>
      obtain rfl := Option.some.inj h
      simp only [BlockGlobals.processEncounterTrace]
      split_ifs
      · exact mainModule_encounterBbl mem trace.bbls _
      · exact ⟨rfl, rfl⟩
  | execute callback context mem tid =>
      obtain ⟨bid, -, rfl⟩ := Option.map_eq_some_iff.mp h
      exact ⟨rfl, rfl⟩

/-- A trace outside the main module, or without blocks, leaves no mark. -/
theorem processEncounterTrace_of_not_recorded {g : BlockGlobals} {mem : Memory} {trace : Trace}
    (h : ¬ Recorded g.mainModuleStart g.mainModuleSize (mem, trace)) :
    g.processEncounterTrace mem trace = g := by
  refine if_neg fun hguard => h ?_
  rw [Bool.and_eq_true, decide_eq_true_eq] at hguard
  exact ⟨fun hnil => hguard.1 (List.length_eq_zero_iff.mpr hnil), hguard.2⟩

theorem run_recordedEvents (s : RunState) (evs : List RunEvent) :
    s.run (recordedEvents s.blocks.mainModuleStart s.blocks.mainModuleSize evs) = s.run evs := by
  induction evs generalizing s with
  | nil => rfl
  | cons ev evs ih =>
      have hkeep : s.run (ev :: recordedEvents s.blocks.mainModuleStart s.blocks.mainModuleSize evs)
          = s.run (ev :: evs) := by
        simp only [RunState.run, List.foldlM_cons, Option.bind_eq_bind]
        cases hstep : s.step ev with
        | none => rfl
        | some s₁ =>
            obtain ⟨hstart, hsize⟩ := mainModule_step hstep
            rw [Option.bind_some, Option.bind_some, ← hstart, ← hsize]
            exact ih s₁
      cases ev with
      | execute callback context mem tid => exact hkeep
      | encounter mem trace =>
          by_cases hrec : Recorded s.blocks.mainModuleStart s.blocks.mainModuleSize (mem, trace)
          · rw [recordedEvents, List.filter_cons_of_pos (by simpa [RunEvent.isRecorded] using hrec)]
            exact hkeep
          · rw [recordedEvents, List.filter_cons_of_neg (by simpa [RunEvent.isRecorded] using hrec)]
            have hstep : s.step (.encounter mem trace) = some s := by
              simp only [RunState.step, processEncounterTrace_of_not_recorded hrec]
            rw [RunState.run, RunState.run, List.foldlM_cons, hstep]
            exact ih s

theorem recorded_of_mem {mainModuleStart mainModuleSize : U32} {evs : List RunEvent}
    {enc : Memory × Trace}
    (h : enc ∈ encounters (recordedEvents mainModuleStart mainModuleSize evs)) :
    Recorded mainModuleStart mainModuleSize enc := by
  obtain ⟨ev, hev, henc⟩ := List.mem_filterMap.mp h
  cases ev with
  | encounter mem trace =>
      obtain rfl := Option.some.inj henc
      exact of_decide_eq_true (List.mem_filter.mp hev).2
  | execute callback context mem tid => exact absurd henc (by simp)

/-- **A run is read back from its files.** However trace encounters and executions interleave, and
whatever else the process runs outside the main module, the two files give exactly the executions
that the history selects, in order, each with its ordinal, its registers, its stack and the code of
the trace that it entered. -/
theorem replay_run (mainModuleStart mainModuleSize : U32) (evs : List RunEvent) (s : RunState)
    (hrun : (RunState.init mainModuleStart mainModuleSize).run evs = some s)
    (hlt : blockCount (encounters (recordedEvents mainModuleStart mainModuleSize evs)) < 2 ^ 32)
    (hclean : ∀ enc ∈ encounters (recordedEvents mainModuleStart mainModuleSize evs),
      CleanTrace enc)
    (heip : ∀ x ∈ executions [] (recordedEvents mainModuleStart mainModuleSize evs),
      x.1.eip ≠ 0) :
    replay s.blocksText s.framesText =
      some (keyFrames (executions [] (recordedEvents mainModuleStart mainModuleSize evs))) := by
  rw [← run_recordedEvents] at hrun
  exact replay_of_recorded hrun (fun enc => recorded_of_mem) hlt hclean heip

end PEReplay
