/-
# PEReplay.Replay.Tool — the whole tool, from `Config::Initialize` to `Logger::Finalize`.

Pin's events reach `Block` and `Frame`, their `Serialize` logs one line through `LOF`, other code
tries to log through `LOQ`, and the fini callback deletes the loggers.  `toolRun` is all of that, on
one disk.

`tool_replay` says what is on the disk at the end: the part files of `blocks.csv` and `frames.csv`,
put together and read back, are the kept executions of the run with the code they entered.  It puts
the layers together: `replay_of_recorded` for the texts, `logged_run` and `Logged.finalize` for the
files.
-/
import PEReplay.Log.Config
import PEReplay.Replay.Rejoin

namespace PEReplay

open Loop Printf

/-! ## The tool -/

/-- What happens while the process runs under the tool. -/
inductive ToolEvent where
  | pin (ev : RunEvent)
  | loq (config : List Char) (vsnprintf : Vsnprintf)

/-- Pin's events alone. -/
def pinEvents (evs : List ToolEvent) : List RunEvent :=
  evs.filterMap fun
    | .pin ev => some ev
    | .loq .. => none

/-- `BLOCK_SERIAL_FILE` -/
def blockSerialFile : List Char := ['b', 'l', 'o', 'c', 'k', 's', '.', 'c', 's', 'v']

/-- `FRAME_SERIAL_FILE` -/
def frameSerialFile : List Char := ['f', 'r', 'a', 'm', 'e', 's', '.', 'c', 's', 'v']

structure ToolState where
  run : RunState
  registry : Registry

/-- What an event serializes: the file and the text of each row that it adds. -/
def serialized (s s' : RunState) : List (List Char × List Char) :=
  (s'.blocks.blocksCsv.drop s.blocks.blocksCsv.length).map (fun b =>
    (blockSerialFile, b.serialize)) ++
  (s'.frames.framesCsv.drop s.frames.framesCsv.length).map fun row => (frameSerialFile, row.text)

section Tool

/-! The settings, `vsnprintf` for the arguments that print as a given text, and fuel for the loop of
`LoglineF`. -/

variable (cfg : Config) (vsnprintf : CString → Vsnprintf) (n : Nat)

/-- `LOF` with arguments that print as a given text. -/
def lof (reg : Registry) (row : List Char × List Char) : Registry :=
  reg.logToFull cfg n row.1 (vsnprintf (cStr row.2))

def ToolState.step (t : ToolState) : ToolEvent → Option ToolState
  | .pin ev => (t.run.step ev).map fun s =>
      ⟨s, (serialized t.run s).foldl (lof cfg vsnprintf n) t.registry⟩
  | .loq config args => some { t with registry := t.registry.logAsConfig cfg n config args }

/-- The name under which `LOF` finds the log of a file. -/
def logFile (file : List Char) : CString := cStr (cfg.getFullFilename file)

/-- The names of the two logs, in the order of the map. -/
def toolFiles : List CString := [logFile cfg blockSerialFile, logFile cfg frameSerialFile]

/-- `Process_Encounter_Finalize` -/
def ToolState.fini (t : ToolState) : Option (EStateM.Result LogError Registry Unit) :=
  t.registry.finalize ((toolFiles cfg).filter fun f => (t.registry.loggers f).isSome)

/-- A whole run, on a disk. -/
def toolRun (filename samplename : List Char) (mainModuleStart mainModuleSize : U32) (disk : Disk)
    (evs : List ToolEvent) : Option (EStateM.Result LogError Registry Unit) :=
  let (cfg, disk) := Config.configInitialize filename samplename disk
  (evs.foldlM (ToolState.step cfg vsnprintf n)
    ⟨RunState.init mainModuleStart mainModuleSize, Registry.start disk⟩).bind (ToolState.fini cfg)

end Tool

/-! ## Texts without NULs -/

theorem chars_cStr {s : List Char} (h : '\x00' ∉ s) : (cStr s).chars = s :=
  List.takeWhile_eq_self_iff.mpr fun _ hc => decide_eq_true fun heq => h (heq ▸ hc)

theorem nul_notMem_text (r : FrameRow) : '\x00' ∉ r.text := by
  rw [FrameRow.text_eq, List.mem_append, not_or]
  exact ⟨r.notMem_fields (by decide) (by decide) (by decide), by decide⟩

theorem nul_notMem_serialize (src : BlockSource) : '\x00' ∉ src.block.serialize := by
  have hint : ∀ x, '\x00' ∉ intWord x := notMem_intWord (by decide) (by decide)
  have hhex : ∀ x, '\x00' ∉ hexWord x := notMem_hexWord (by decide)
  have hraw : '\x00' ∉ src.bbl.insns.flatMap fun ins =>
      rawLine (ins.rawBytes src.mem) ++ separator :=
    notMem_separated (by decide) fun ins _ =>
      notMem_rawLine (by decide) (by decide) (fun d hd => by interval_cases d <;> decide) _
  have hdisasm : '\x00' ∉ src.bbl.insns.flatMap fun ins => ins.disassemble ++ separator :=
    notMem_separated (by decide) fun ins _ => ins.noNul
  rw [BlockSource.block, blockOf_eq]
  simp only [Block.serialize, List.mem_append, List.mem_cons, not_or]
  exact ⟨hint _, by decide, hint _, by decide, hhex _, by decide, by decide, hraw, by decide,
    by decide, by decide, hdisasm, by decide, by decide, List.not_mem_nil⟩

theorem logText_map_cStr {texts : List (List Char)} (h : ∀ text ∈ texts, '\x00' ∉ text) :
    logText (texts.map cStr) = texts.flatten := by
  rw [logText, List.flatMap_map, List.flatMap_def]
  congr 1
  exact (List.map_congr_left fun text htext => chars_cStr (h text htext)).trans (List.map_id _)

/-! ## The rows of a run -/

/-- Everything that a run serializes, in order. -/
def runRows : RunState → List RunEvent → List (List Char × List Char)
  | _, [] => []
  | s, ev :: evs =>
      match s.step ev with
      | none => []
      | some s' => serialized s s' ++ runRows s' evs

/-- The texts that go to a file. -/
def textsOf (file : List Char) (rows : List (List Char × List Char)) : List (List Char) :=
  (rows.filter fun row => row.1 = file).map Prod.snd

theorem textsOf_append (file : List Char) (rows rows' : List (List Char × List Char)) :
    textsOf file (rows ++ rows') = textsOf file rows ++ textsOf file rows' := by
  simp only [textsOf, List.filter_append, List.map_append]

/-- Every event adds rows behind the others. -/
theorem exists_rows_step {s s' : RunState} {ev : RunEvent} (h : s.step ev = some s') :
    ∃ blocks rows, s'.blocks.blocksCsv = s.blocks.blocksCsv ++ blocks ∧
      s'.frames.framesCsv = s.frames.framesCsv ++ rows := by
  cases ev with
  | encounter mem trace =>
      obtain rfl := Option.some.inj h
      obtain ⟨sources, hblocks⟩ := exists_sources s.blocks mem trace
      exact ⟨_, [], hblocks, (List.append_nil _).symm⟩
  | execute callback context mem tid =>
      obtain ⟨bid, -, rfl⟩ := Option.map_eq_some_iff.mp h
      rcases framesCsv_process s.frames ⟨bid, context, mem, tid⟩ with heq | ⟨row, -, heq⟩
      · exact ⟨[], [], (List.append_nil _).symm, by rw [heq, List.append_nil]⟩
      · exact ⟨[], [row], (List.append_nil _).symm, heq⟩

theorem textsOf_map_same (file : List Char) (texts : List (List Char)) :
    textsOf file (texts.map fun text => (file, text)) = texts := by
  simp [textsOf, List.filter_map, Function.comp_def]

theorem textsOf_map_other {file file' : List Char} (h : file' ≠ file)
    (texts : List (List Char)) : textsOf file (texts.map fun text => (file', text)) = [] := by
  simp [textsOf, List.filter_map, Function.comp_def, h]

theorem serialFiles_ne : blockSerialFile ≠ frameSerialFile := by decide

/-- **Run.** The texts of a run are the rows that it adds. -/
theorem texts_run {s s' : RunState} {evs : List RunEvent} (h : s.run evs = some s') :
    s'.blocks.blocksCsv.map Block.serialize =
        s.blocks.blocksCsv.map Block.serialize ++ textsOf blockSerialFile (runRows s evs) ∧
      s'.frames.framesCsv.map FrameRow.text =
        s.frames.framesCsv.map FrameRow.text ++ textsOf frameSerialFile (runRows s evs) := by
  induction evs generalizing s with
  | nil =>
      obtain rfl : s = s' := Option.some.inj h
      exact ⟨(List.append_nil _).symm, (List.append_nil _).symm⟩
  | cons ev evs ih =>
      rw [RunState.run, List.foldlM_cons] at h
      obtain ⟨s₁, hstep, hrest⟩ := Option.bind_eq_some_iff.mp h
      obtain ⟨hblocks, hframes⟩ := ih hrest
      obtain ⟨blocks, rows, hb, hf⟩ := exists_rows_step hstep
      have hrows : runRows s (ev :: evs) =
          (blocks.map Block.serialize).map (fun text => (blockSerialFile, text)) ++
          (rows.map FrameRow.text).map (fun text => (frameSerialFile, text)) ++
            runRows s₁ evs := by
        simp only [runRows, hstep, serialized, hb, hf, List.drop_left, List.map_map,
          Function.comp_def]
      rw [hrows, textsOf_append, textsOf_append, textsOf_append, textsOf_append, textsOf_map_same,
        textsOf_map_same, textsOf_map_other serialFiles_ne,
        textsOf_map_other serialFiles_ne.symm, hblocks, hframes, hb, hf]
      simp

theorem file_of_mem_runRows {s : RunState} {evs : List RunEvent} {row : List Char × List Char}
    (h : row ∈ runRows s evs) : row.1 = blockSerialFile ∨ row.1 = frameSerialFile := by
  induction evs generalizing s with
  | nil => exact absurd h List.not_mem_nil
  | cons ev evs ih =>
      simp only [runRows] at h
      split at h
      · exact absurd h List.not_mem_nil
      · rcases List.mem_append.mp h with h | h
        · rcases List.mem_append.mp h with h | h
          · obtain ⟨b, -, rfl⟩ := List.mem_map.mp h
            exact Or.inl rfl
          · obtain ⟨r, -, rfl⟩ := List.mem_map.mp h
            exact Or.inr rfl
        · exact ih h

/-! ## The calls of a run -/

section Calls

variable {cfg : Config} {vsnprintf : CString → Vsnprintf}

/-- The call of a row, and what it logs. -/
def lofCall (cfg : Config) (vsnprintf : CString → Vsnprintf) (row : List Char × List Char) :
    LogCall × CString :=
  (.logToF (logFile cfg row.1) (vsnprintf (cStr row.2)), cStr row.2)

/-- A report folder: a name without NUL that leaves room for the names in it. -/
structure Config.Folder (cfg : Config) : Prop where
  ne_nil : cfg.reportFolder ≠ []
  noNul : '\x00' ∉ cfg.reportFolder
  fits : cfg.reportFolder.length + 14 < partialFileNameSize

theorem foldl_lof (hfolder : cfg.Folder) (n : Nat) (rows : List (List Char × List Char))
    (reg : Registry) : rows.foldl (lof cfg vsnprintf n) reg =
      reg.run n ((rows.map (lofCall cfg vsnprintf)).map Prod.fst) := by
  have hne : ∀ name, cfg.getFullFilename name ≠ [] := fun name h =>
    hfolder.ne_nil (List.append_eq_nil_iff.mp h).1
  rw [Registry.run, List.map_map, List.foldl_map]
  congr 1
  funext reg row
  exact if_pos (hne row.1)

/-- **Run.** The tool is Pin's run and the calls of its rows: nothing comes of `LOQ`. -/
theorem foldlM_step (hfolder : cfg.Folder) (hentries : ∀ name, cfg.mapEntries name = none) (n : Nat)
    {evs : List ToolEvent} {s s' : RunState} {reg : Registry}
    (h : s.run (pinEvents evs) = some s') :
    evs.foldlM (ToolState.step cfg vsnprintf n) ⟨s, reg⟩ =
      some ⟨s', reg.run n
        (((runRows s (pinEvents evs)).map (lofCall cfg vsnprintf)).map Prod.fst)⟩ := by
  induction evs generalizing s reg with
  | nil =>
      obtain rfl : s = s' := Option.some.inj h
      rfl
  | cons ev evs ih =>
      cases ev with
      | loq config args =>
          rw [List.foldlM_cons, ToolState.step,
            Registry.logAsConfig_of_none (hentries config) n args reg]
          exact ih h
      | pin ev =>
          have hpin : pinEvents (.pin ev :: evs) = ev :: pinEvents evs := rfl
          rw [hpin] at h ⊢
          rw [RunState.run, List.foldlM_cons] at h
          obtain ⟨s₁, hstep, hrest⟩ := Option.bind_eq_some_iff.mp h
          simp only [List.foldlM_cons, ToolState.step, hstep, Option.map_some,
            Option.bind_eq_bind, Option.bind_some, ih hrest, foldl_lof hfolder, runRows,
            List.map_append, Registry.run, List.foldl_append]

theorem chars_logFile (hfolder : cfg.Folder) {file : List Char} (h : '\x00' ∉ file) :
    (logFile cfg file).chars = cfg.reportFolder ++ file := by
  refine chars_cStr fun hmem => ?_
  rcases List.mem_append.mp hmem with hmem | hmem
  · exact hfolder.noNul hmem
  · exact h hmem

theorem logFile_inj (hfolder : cfg.Folder) {file file' : List Char} (h : '\x00' ∉ file)
    (h' : '\x00' ∉ file') : logFile cfg file = logFile cfg file' ↔ file = file' := by
  constructor
  · intro heq
    have hchars := congrArg CString.chars heq
    rw [chars_logFile hfolder h, chars_logFile hfolder h'] at hchars
    exact List.append_cancel_left hchars
  · exact congrArg _

/-- The stem of a log of the folder. -/
theorem stem_logFile (hfolder : cfg.Folder) {file : List Char} (h : '\x00' ∉ file)
    (hlen : 4 ≤ file.length) :
    (logFile cfg file).stem = cfg.reportFolder ++ file.take (file.length - 4) := by
  rw [CString.stem, chars_logFile hfolder h, List.length_append, Nat.add_sub_assoc hlen,
    List.take_length_add_append]

theorem nul_notMem_serialFile {file : List Char}
    (h : file = blockSerialFile ∨ file = frameSerialFile) : '\x00' ∉ file := by
  rcases h with rfl | rfl <;> decide

/-- The two stems differ. -/
theorem serialFile_of_stem (hfolder : cfg.Folder) {file file' : List Char}
    (h : file = blockSerialFile ∨ file = frameSerialFile)
    (h' : file' = blockSerialFile ∨ file' = frameSerialFile)
    (heq : (logFile cfg file).stem = (logFile cfg file').stem) : file = file' := by
  have hlen : ∀ {file}, file = blockSerialFile ∨ file = frameSerialFile → 4 ≤ file.length := by
    rintro file (rfl | rfl) <;> decide
  rw [stem_logFile hfolder (nul_notMem_serialFile h) (hlen h),
    stem_logFile hfolder (nul_notMem_serialFile h') (hlen h')] at heq
  have htake := List.append_cancel_left heq
  rcases h with rfl | rfl <;> rcases h' with rfl | rfl
  · rfl
  · exact absurd htake (by decide)
  · exact absurd htake (by decide)
  · rfl

/-- The lines of a file are its texts. -/
theorem linesOf_lofCalls (hfolder : cfg.Folder) {rows : List (List Char × List Char)}
    (hrows : ∀ row ∈ rows, row.1 = blockSerialFile ∨ row.1 = frameSerialFile) {file : List Char}
    (hfile : file = blockSerialFile ∨ file = frameSerialFile) :
    linesOf (rows.map (lofCall cfg vsnprintf)) (logFile cfg file) =
      (textsOf file rows).map cStr := by
  rw [linesOf, textsOf, List.filter_map, List.map_map, List.map_map]
  have hfilter : rows.filter ((fun c : LogCall × CString =>
      decide (c.1.filename = logFile cfg file)) ∘ lofCall cfg vsnprintf) =
        rows.filter fun row => row.1 = file := by
    refine List.filter_congr fun row hrow => decide_eq_decide.mpr ?_
    exact logFile_inj hfolder (nul_notMem_serialFile (hrows row hrow)) (nul_notMem_serialFile hfile)
  rw [hfilter]
  rfl

/-- The texts of a run are lines that the loggers take. -/
theorem loggable_lofCalls (hfolder : cfg.Folder)
    (hformats : ∀ text, text.chars ≠ [] → Formats (vsnprintf text) text)
    {rows : List (List Char × List Char)}
    (hrows : ∀ row ∈ rows, row.1 = blockSerialFile ∨ row.1 = frameSerialFile)
    (htext : ∀ row ∈ rows, row.2 ≠ [] ∧ '\x00' ∉ row.2 ∧ row.2.length < 2 ^ 30)
    (hcapacity : ∀ file, file = blockSerialFile ∨ file = frameSerialFile →
      (textsOf file rows).flatten.length < logCapacity) :
    Registry.Loggable (rows.map (lofCall cfg vsnprintf)) where
  logs := by
    intro c hc
    obtain ⟨row, hrow, rfl⟩ := List.mem_map.mp hc
    obtain ⟨hne, hnul, hlen⟩ := htext row hrow
    have hchars := chars_cStr hnul
    exact ⟨hformats _ (by rwa [hchars]), by rwa [lofCall, hchars], by rwa [lofCall, hchars]⟩
  fits := by
    intro c hc
    obtain ⟨row, hrow, rfl⟩ := List.mem_map.mp hc
    have hlen : row.1.length = 10 := by rcases hrows row hrow with h | h <;> rw [h] <;> rfl
    have hfits := hfolder.fits
    rw [CString.NameFits, lofCall, LogCall.filename,
      chars_logFile hfolder (nul_notMem_serialFile (hrows row hrow)), List.length_append, hlen]
    omega
  stems := by
    intro c hc d hd hne heq
    obtain ⟨row, hrow, rfl⟩ := List.mem_map.mp hc
    obtain ⟨row', hrow', rfl⟩ := List.mem_map.mp hd
    refine hne (congrArg (logFile cfg) ?_)
    exact serialFile_of_stem hfolder (hrows row hrow) (hrows row' hrow') heq
  capacity := by
    intro f
    by_cases hf : ∃ file, (file = blockSerialFile ∨ file = frameSerialFile) ∧ f = logFile cfg file
    · obtain ⟨file, hfile, rfl⟩ := hf
      rw [linesOf_lofCalls hfolder hrows hfile, logText_map_cStr]
      · exact hcapacity file hfile
      · intro text htext'
        obtain ⟨row, hrow, rfl⟩ := List.mem_map.mp htext'
        exact (htext row (List.mem_of_mem_filter hrow)).2.1
    · have hnil : linesOf (rows.map (lofCall cfg vsnprintf)) f = [] := by
        refine List.map_eq_nil_iff.mpr (List.filter_eq_nil_iff.mpr fun c hc hname => ?_)
        obtain ⟨row, hrow, rfl⟩ := List.mem_map.mp hc
        exact hf ⟨row.1, hrows row hrow, (of_decide_eq_true hname).symm⟩
      rw [hnil]
      decide

end Calls

/-! ## The files at the end -/

/-- A disk on which the parts behind the written ones are empty holds the log in all its parts. -/
theorem WrittenOut.partTexts_eq {disk disk' : Disk} {f : CString} {lines : List CString}
    (h : WrittenOut disk disk' f lines) (hempty : ∀ k, disk (partialFileName f.stem k) = [])
    (hlt : (logText lines).length < logCapacity) : partTexts f.stem disk' 21 = logText lines := by
  obtain ⟨n, -, hn, htext, hlater⟩ := h
  have hle : n ≤ 21 := by
    have hdiv : (logText lines).length / biggestFileSize.toNat < 21 :=
      Nat.div_lt_of_lt_mul (by rwa [Nat.mul_comm])
    omega
  have hbehind : ∀ k, n < k → k < 22 →
      disk' (partialFileName f.stem (BitVec.ofNat 32 k)) = [] := by
    intro k hk hk'
    rw [hlater _ (by rw [BitVec.toNat_ofNat, Nat.mod_eq_of_lt (by omega)]; exact hk), hempty]
  have hsplit : List.range' 1 21 = List.range' 1 n ++ List.range' (1 + n) (21 - n) := by
    rw [List.range'_append_1, Nat.add_sub_cancel' hle]
  rw [← htext, partTexts, hsplit, List.flatMap_append, ← partTexts]
  have hrest : (List.range' (1 + n) (21 - n)).flatMap (fun k =>
      disk' (partialFileName f.stem (BitVec.ofNat 32 k))) = [] := by
    refine List.flatMap_eq_nil_iff.mpr fun k hk => ?_
    rw [List.mem_range'_1] at hk
    exact hbehind k (by omega) (by omega)
  rw [hrest, List.append_nil]

/-- `Config::Initialize` has removed all parts of a log of the folder. -/
theorem parts_removed {filename samplename base : List Char} (hbase : '\\' ∉ base) (disk : Disk)
    (k : U32) : (Config.configInitialize filename samplename disk).2
      (partialFileName (filename ++ samplename ++ ['\\'] ++ base) k) = [] := by
  have hpart : partialFileName (filename ++ samplename ++ ['\\'] ++ base) k =
      filename ++ samplename ++ ['\\'] ++ partialFileName base k := by
    simp [partialFileName]
  have hclean : '\\' ∉ partialFileName base k := by
    rw [partialFileName, List.mem_append, List.mem_cons, List.mem_append, not_or, not_or, not_or]
    refine ⟨hbase, by decide, fun hmem => ?_, by decide⟩
    rcases isDigit_or_minus_of_mem_signedPad hmem with h | h <;> exact absurd h (by decide)
  have hfile : Config.isFileOf (filename ++ samplename ++ ['\\'])
      (filename ++ samplename ++ ['\\'] ++ partialFileName base k) = true := by
    rw [Config.isFileOf, Bool.and_eq_true, List.isPrefixOf_iff_prefix, List.drop_left,
      List.all_eq_true]
    refine ⟨List.prefix_append _ _, fun c hc => decide_eq_true ?_⟩
    rintro rfl
    exact hclean hc
  rw [hpart]
  exact if_pos hfile

section Final

variable {cfg : Config} {vsnprintf : CString → Vsnprintf} {disk disk' : Disk}
  {rows : List (List Char × List Char)} {names : List CString}

/-- A log of the folder, in all its parts: its texts, whether its logger was ever made or not. -/
theorem partTexts_logFile (hfolder : cfg.Folder)
    (hrows : ∀ row ∈ rows, row.1 = blockSerialFile ∨ row.1 = frameSerialFile)
    (hnul : ∀ row ∈ rows, '\x00' ∉ row.2)
    (hloggable : Registry.Loggable (rows.map (lofCall cfg vsnprintf)))
    (hnames : ∀ f, f ∈ names ↔ ∃ c ∈ rows.map (lofCall cfg vsnprintf), c.1.filename = f)
    (hwritten : ∀ f ∈ names,
      WrittenOut disk disk' f (linesOf (rows.map (lofCall cfg vsnprintf)) f))
    (hframe : ∀ x, (∀ f ∈ names, ∀ k, x ≠ partialFileName f.stem k) → disk' x = disk x)
    {file : List Char} (hfile : file = blockSerialFile ∨ file = frameSerialFile)
    (hempty : ∀ k, disk (partialFileName (logFile cfg file).stem k) = []) :
    partTexts (logFile cfg file).stem disk' 21 = (textsOf file rows).flatten := by
  have hnames' : ∀ f ∈ names, ∃ row ∈ rows, f = logFile cfg row.1 := by
    intro f hf
    obtain ⟨c, hc, rfl⟩ := (hnames f).mp hf
    obtain ⟨row, hrow, rfl⟩ := List.mem_map.mp hc
    exact ⟨row, hrow, rfl⟩
  by_cases hmem : logFile cfg file ∈ names
  · rw [(hwritten _ hmem).partTexts_eq hempty (hloggable.capacity _),
      linesOf_lofCalls hfolder hrows hfile, logText_map_cStr]
    intro text htext
    obtain ⟨row, hrow, rfl⟩ := List.mem_map.mp htext
    exact hnul row (List.mem_of_mem_filter hrow)
  · -- no row goes to the file
    have hother : ∀ row ∈ rows, row.1 ≠ file := by
      rintro row hrow rfl
      exact hmem ((hnames _).mpr ⟨_, List.mem_map_of_mem hrow, rfl⟩)
    have htexts : textsOf file rows = [] :=
      List.map_eq_nil_iff.mpr (List.filter_eq_nil_iff.mpr fun row hrow => by
        simpa using hother row hrow)
    rw [htexts, partTexts]
    refine List.flatMap_eq_nil_iff.mpr fun k _ => ?_
    rw [hframe, hempty]
    intro f hf i heq
    obtain ⟨row, hrow, rfl⟩ := hnames' f hf
    exact hother row hrow
      (serialFile_of_stem hfolder hfile (hrows row hrow) (partialFileName_inj heq)).symm

end Final

/-- The rows of a run are texts that can be logged. -/
theorem runRows_texts {mainModuleStart mainModuleSize : U32} {evs : List RunEvent} {s : RunState}
    (hrun : (RunState.init mainModuleStart mainModuleSize).run evs = some s)
    (hlt : blockCount (encounters (recordedEvents mainModuleStart mainModuleSize evs)) < 2 ^ 32)
    (hrow : ∀ b ∈ s.blocks.blocksCsv, b.serialize.length < 2 ^ 30) :
    ∀ row ∈ runRows (RunState.init mainModuleStart mainModuleSize) evs,
      row.2 ≠ [] ∧ '\x00' ∉ row.2 ∧ row.2.length < 2 ^ 30 := by
  obtain ⟨hblocks, hframes⟩ := texts_run hrun
  have hlinked : Linked s mainModuleStart mainModuleSize
      ([] ++ encounters (recordedEvents mainModuleStart mainModuleSize evs)) := by
    rw [← run_recordedEvents] at hrun
    exact linked_run (linked_init _ _) hrun (fun enc => recorded_of_mem) hlt
  intro row hmem
  rcases file_of_mem_runRows hmem with hfile | hfile
  · have htext : row.2 ∈ textsOf blockSerialFile
        (runRows (RunState.init mainModuleStart mainModuleSize) evs) :=
      List.mem_map_of_mem (List.mem_filter.mpr ⟨hmem, decide_eq_true hfile⟩)
    rw [← List.nil_append (textsOf _ _)] at htext
    obtain ⟨b, hb, hserialize⟩ := List.mem_map.mp (hblocks.symm ▸ htext)
    have hsource := hb
    rw [hlinked.blocks_eq] at hsource
    obtain ⟨src, -, rfl⟩ := List.mem_map.mp hsource
    rw [← hserialize]
    exact ⟨serialize_ne_nil _, nul_notMem_serialize src, hrow _ hb⟩
  · have htext : row.2 ∈ textsOf frameSerialFile
        (runRows (RunState.init mainModuleStart mainModuleSize) evs) :=
      List.mem_map_of_mem (List.mem_filter.mpr ⟨hmem, decide_eq_true hfile⟩)
    rw [← List.nil_append (textsOf _ _)] at htext
    obtain ⟨r, -, hserialize⟩ := List.mem_map.mp (hframes.symm ▸ htext)
    rw [← hserialize]
    exact ⟨r.text_ne_nil, nul_notMem_text r,
      lt_of_le_of_lt r.length_text_le (by decide)⟩

/-- Some nine million frames fit into `frames.csv`. -/
theorem length_framesText_le (s : RunState) :
    s.framesText.length ≤ 241 * s.frames.framesCsv.length := by
  rw [RunState.framesText]
  induction s.frames.framesCsv with
  | nil => exact Nat.zero_le _
  | cons r rows ih =>
      have hrow := r.length_text_le
      rw [List.flatMap_cons, List.length_append, List.length_cons]
      omega

theorem nodup_toolFiles {cfg : Config} (hfolder : cfg.Folder) : (toolFiles cfg).Nodup := by
  have hne : logFile cfg blockSerialFile ≠ logFile cfg frameSerialFile := fun heq =>
    serialFiles_ne ((logFile_inj hfolder (by decide) (by decide)).mp heq)
  simp [toolFiles, hne]

/-- The loggers that there are, from the two files that the tool may have opened. -/
theorem mem_toolFiles_filter {cfg : Config} {vsnprintf : CString → Vsnprintf}
    {rows : List (List Char × List Char)} {disk : Disk} {reg : Registry}
    (hrows : ∀ row ∈ rows, row.1 = blockSerialFile ∨ row.1 = frameSerialFile)
    (hlogged : Registry.Logged (rows.map (lofCall cfg vsnprintf)) disk reg) (f : CString) :
    f ∈ (toolFiles cfg).filter (fun f => (reg.loggers f).isSome) ↔
      ∃ c ∈ rows.map (lofCall cfg vsnprintf), c.1.filename = f := by
  rw [List.mem_filter, ← hlogged.names, Option.isSome_iff_ne_none]
  refine and_iff_right_of_imp fun hf => ?_
  obtain ⟨c, hc, rfl⟩ := (hlogged.names f).mp hf
  obtain ⟨row, hrow, rfl⟩ := List.mem_map.mp hc
  rcases hrows row hrow with h | h <;> simp [toolFiles, lofCall, LogCall.filename, h]

/-- **What the tool leaves on the disk.**  The tool runs to its end, whatever was in the report
folder before and however Pin's events and `LOQ` calls interleave; the parts of `blocks.csv` and of
`frames.csv` then give back the kept executions of the process, each with its ordinal, its
registers, its stack and the code that it entered. -/
theorem tool_replay (filename samplename : List Char) (vsnprintf : CString → Vsnprintf)
    (mainModuleStart mainModuleSize : U32) (disk : Disk) (evs : List ToolEvent) (s : RunState)
    (hfolder : (Config.configInitialize filename samplename disk).1.Folder)
    (hformats : ∀ text, text.chars ≠ [] → Formats (vsnprintf text) text)
    (hrun : (RunState.init mainModuleStart mainModuleSize).run (pinEvents evs) = some s)
    (hlt : blockCount (encounters
      (recordedEvents mainModuleStart mainModuleSize (pinEvents evs))) < 2 ^ 32)
    (hclean : ∀ enc ∈ encounters
      (recordedEvents mainModuleStart mainModuleSize (pinEvents evs)), CleanTrace enc)
    (heip : ∀ x ∈ executions []
      (recordedEvents mainModuleStart mainModuleSize (pinEvents evs)), x.1.eip ≠ 0)
    (hrow : ∀ b ∈ s.blocks.blocksCsv, b.serialize.length < 2 ^ 30)
    (hblocks : s.blocksText.length < logCapacity) (hframes : s.framesText.length < logCapacity) :
    ∃ disk', Computes (fun n => toolRun vsnprintf n filename samplename mainModuleStart
        mainModuleSize disk evs) (.ok () (Registry.start disk')) ∧
      replay (partTexts (filename ++ samplename ++ ['\\', 'b', 'l', 'o', 'c', 'k', 's']) disk' 21)
        (partTexts (filename ++ samplename ++ ['\\', 'f', 'r', 'a', 'm', 'e', 's']) disk' 21) =
        some (keyFrames (executions []
          (recordedEvents mainModuleStart mainModuleSize (pinEvents evs)))) := by
  generalize hcfg : (Config.configInitialize filename samplename disk).1 = cfg at hfolder
  generalize hdisk : (Config.configInitialize filename samplename disk).2 = disk₀
  generalize hrowsOf : runRows (RunState.init mainModuleStart mainModuleSize) (pinEvents evs) = rows
  have hrows : ∀ row ∈ rows, row.1 = blockSerialFile ∨ row.1 = frameSerialFile := by
    rw [← hrowsOf]
    exact fun row => file_of_mem_runRows
  have htexts := runRows_texts hrun hlt hrow
  rw [hrowsOf] at htexts
  -- the texts of the two files
  obtain ⟨hblockTexts, hframeTexts⟩ := texts_run hrun
  rw [hrowsOf] at hblockTexts hframeTexts
  have hblocksText : (textsOf blockSerialFile rows).flatten = s.blocksText := by
    rw [RunState.blocksText, List.flatMap_def, hblockTexts]
    rfl
  have hframesText : (textsOf frameSerialFile rows).flatten = s.framesText := by
    rw [RunState.framesText, List.flatMap_def, hframeTexts]
    rfl
  have hloggable : Registry.Loggable (rows.map (lofCall cfg vsnprintf)) := by
    refine loggable_lofCalls hfolder hformats hrows htexts ?_
    rintro file (rfl | rfl)
    · rwa [hblocksText]
    · rwa [hframesText]
  -- the loggers at the end, and their deletion
  obtain ⟨reg, hlogged, n, hn⟩ := Registry.logged_run hloggable disk₀
  have hmem := mem_toolFiles_filter hrows hlogged
  have hnodup : ((toolFiles cfg).filter fun f => (reg.loggers f).isSome).Nodup :=
    (nodup_toolFiles hfolder).filter _
  obtain ⟨disk', hfinalize, hwritten, hframe⟩ := hlogged.finalize hloggable hnodup hmem
  refine ⟨disk', ⟨n, fun m hle => ?_⟩, ?_⟩
  · have hentries : ∀ name, cfg.mapEntries name = none := by
      rw [← hcfg]
      exact fun _ => rfl
    have hreg := Option.some.inj (hn m hle)
    have hsteps : evs.foldlM (ToolState.step cfg vsnprintf m)
        ⟨RunState.init mainModuleStart mainModuleSize, Registry.start disk₀⟩ =
          some ⟨s, reg⟩ := by
      rw [foldlM_step hfolder hentries m hrun, hrowsOf, hreg]
    show toolRun vsnprintf m filename samplename _ _ disk evs = _
    rw [toolRun]
    simp only [hcfg, hdisk, hsteps, Option.bind_some, ToolState.fini, hfinalize]
  · have hbase : ∀ file, file = blockSerialFile ∨ file = frameSerialFile →
        (logFile cfg file).stem = filename ++ samplename ++ ['\\'] ++ file.take 6 := by
      rintro file (rfl | rfl) <;>
        rw [stem_logFile hfolder (by decide) (by decide), ← hcfg] <;> rfl
    have hfiles : ∀ file, file = blockSerialFile ∨ file = frameSerialFile →
        partTexts (filename ++ samplename ++ ['\\'] ++ file.take 6) disk' 21 =
          (textsOf file rows).flatten := by
      intro file hfile
      have hparts := partTexts_logFile hfolder hrows (fun row hrow => (htexts row hrow).2.1)
        hloggable hmem hwritten hframe hfile fun k => by
          rw [hbase file hfile, ← hdisk]
          exact parts_removed (by rcases hfile with rfl | rfl <;> decide) disk k
      rwa [hbase file hfile] at hparts
    have hblocksFile := hfiles blockSerialFile (Or.inl rfl)
    have hframesFile := hfiles frameSerialFile (Or.inr rfl)
    rw [List.append_assoc, hblocksText] at hblocksFile
    rw [List.append_assoc, hframesText] at hframesFile
    rw [← replay_run mainModuleStart mainModuleSize _ s hrun hlt hclean heip]
    exact congrArg₂ replay hblocksFile hframesFile

section Samples

/-- The sample run, with a `LOQ` call before it. -/
def sampleEvents : List ToolEvent :=
  .loq ['c', 'a', 'l', 'l'] (vsnprintfOf okText.chars) :: sampleRun.map .pin

theorem recordedEvents_sampleRun : recordedEvents 0x1000 0x100 sampleRun = sampleRun := rfl

theorem pinEvents_sampleEvents : pinEvents sampleEvents = sampleRun := rfl

/-- The two frames of the sample run come back with the code of their traces. -/
theorem tool_replay_sample : ∃ disk',
    Computes (fun n => toolRun (fun text => vsnprintfOf text.chars) n ['r', '\\'] ['s'] 0x1000 0x100
      (fun _ => ['o', 'l', 'd']) sampleEvents) (.ok () (Registry.start disk')) ∧
    replay (partTexts (['r', '\\'] ++ ['s'] ++ ['\\', 'b', 'l', 'o', 'c', 'k', 's']) disk' 21)
      (partTexts (['r', '\\'] ++ ['s'] ++ ['\\', 'f', 'r', 'a', 'm', 'e', 's']) disk' 21) =
      some (keyFrames (executions [] (recordedEvents 0x1000 0x100 (pinEvents sampleEvents)))) := by
  refine tool_replay ['r', '\\'] ['s'] (fun text => vsnprintfOf text.chars) 0x1000 0x100
    (fun _ => ['o', 'l', 'd']) sampleEvents _ ⟨by decide, by decide, by decide⟩
    (fun text _ => formats_vsnprintfOf text) rfl (by decide) ?_ ?_ (by decide) (by decide)
    (lt_of_le_of_lt (length_framesText_le _) (by decide))
  · rw [pinEvents_sampleEvents, recordedEvents_sampleRun]
    intro enc henc
    simp only [encounters, sampleRun, List.filterMap_cons, List.filterMap_nil, List.mem_cons,
      List.not_mem_nil, or_false] at henc
    rcases henc with rfl | rfl <;> simp [CleanTrace, sampleBbl, sampleIns]
  · rw [pinEvents_sampleEvents, recordedEvents_sampleRun]
    simp [executions, sampleRun, numbered, BBLEvent.eip, sampleEvent]

end Samples

end PEReplay
