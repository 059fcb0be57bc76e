/-
# PEReplay.Replay.Instrument — the instruction callbacks and the control-flow monitor.

When Pin first meets an instruction, `Process_Encounter_Insn` decides from the configuration which
callbacks run at it.  Those before a call and before a branch ask `verifyControlFlowTarget` whether
control may flow to the target; where it may not, they log, dump the memory around both ends and end
the process.  The runs here are those with `Process_Encounter_Insn` registered; `main` has the
registration commented out.

No loaded image knows its sections, so no target is ever verified, and no access is ever seen to be
one to code: `monitor_run` says what is left of the monitor in a whole run.
-/
import PEReplay.Image.Dump
import PEReplay.Image.Modules
import PEReplay.Log.Config
import PEReplay.Replay.Block
import PEReplay.Replay.Frame
import PEReplay.Replay.Writes

namespace PEReplay

open Printf Loop

/-! ## Entries -/

def configMemRdBefore : List Char := "mem_rd_before".toList

def configMemWrBefore : List Char := "mem_wr_before".toList

def configMemWrAfter : List Char := "mem_wr_after".toList

def configBranch : List Char := "branch".toList

def configCall : List Char := "call".toList

def configReturn : List Char := "return".toList

def configXimgBoundary : List Char := "cross_img_boundary".toList

def configInsnNormal : List Char := "insn_normal".toList

def configAbnormalCf : List Char := "abnormal_control_flow".toList

def configDump : List Char := "dump".toList

/-- The entries of the memory accesses. -/
def memoryEntries : List (List Char) := [configMemRdBefore, configMemWrBefore, configMemWrAfter]

/-! ## What is instrumented -/

/-- An instruction, with what the tool asks Pin about it. -/
structure PinIns extends Ins where
  isMemoryRead : Bool
  hasMemoryRead2 : Bool
  isMemoryWrite : Bool
  isPrefetch : Bool
  hasFallThrough : Bool
  isBranch : Bool
  isCall : Bool
  isRet : Bool
  isSyscall : Bool

/-- A callback that was inserted: the second of two read operands, or behind a taken branch, is
marked. -/
inductive Callback where
  | readBefore (second : Bool)
  | writeBefore
  | writeAfter (takenBranch : Bool)
  | branch
  | call
  | ret
  | syscall
  | normalInstruction
  deriving Repr, DecidableEq

/-- The entries that switch a callback on. -/
def Callback.entries : Callback → List (List Char)
  | .readBefore _ => [configMemRdBefore]
  | .writeBefore => [configMemWrBefore]
  | .writeAfter _ => [configMemWrAfter]
  | .branch => [configBranch]
  | .call => [configCall, configXimgBoundary]
  | .ret => [configReturn, configXimgBoundary]
  | .syscall => []
  | .normalInstruction => [configInsnNormal]

/-- `ImageInfo::IsAddrWithinMainModule` -/
def Images.isAddrWithinMainModule (st : Images) (addr : U32) : Bool :=
  (BlockGlobals.init st.mainModuleStart st.mainModuleSize).isAddrWithinMainModule addr

section Filter

variable (cfg : Config) (st : Images)

/-- `FILTER_CONFIG` -/
def filterConfig (entry : List Char) (addr : U32) : Bool :=
  cfg.isEntryEnabled entry &&
    ((!cfg.withinMainModule entry || st.isAddrWithinMainModule addr) &&
      (!cfg.withinCodeSection entry || st.isAddrCode addr))

/-- The callbacks around memory reads and writes. -/
def memoryCallbacks (ins : PinIns) : List Callback :=
  (if filterConfig cfg st configMemRdBefore ins.address && ins.isMemoryRead then
    (if ins.hasMemoryRead2 then [.readBefore true] else []) ++ [.readBefore false]
  else []) ++
  if ins.isMemoryWrite then
    (if filterConfig cfg st configMemWrBefore ins.address then [.writeBefore] else []) ++
    if filterConfig cfg st configMemWrAfter ins.address then
      (if ins.hasFallThrough then [.writeAfter false] else []) ++
        if ins.isBranch || ins.isCall then [.writeAfter true] else []
    else []
  else []

/-- The callback for the control flow. -/
def flowCallbacks (ins : PinIns) : List Callback :=
  if ins.isBranch then
    if filterConfig cfg st configBranch ins.address then [.branch] else []
  else if ins.isCall then
    if filterConfig cfg st configCall ins.address ||
      filterConfig cfg st configXimgBoundary ins.address then [.call] else []
  else if ins.isRet then
    if filterConfig cfg st configReturn ins.address ||
      filterConfig cfg st configXimgBoundary ins.address then [.ret] else []
  else if ins.isSyscall then [.syscall]
  else []

/-- `REProgramInfo::Process_Encounter_Insn`: what it inserts, in order. -/
def processEncounterInsn (ins : PinIns) : List Callback :=
  memoryCallbacks cfg st ins ++ flowCallbacks cfg st ins ++
    if filterConfig cfg st configInsnNormal ins.address then [.normalInstruction] else []

end Filter

/-! ## The callbacks -/

/-- What Pin hands to a callback: the branch target or the effective address, the size of the access
and whether a branch is taken; and the memory at that time. -/
structure CallbackArgs where
  target : U32
  size : U32
  taken : Bool
  mem : Memory

/-- What the callbacks work on; `exited` is `PIN_IsProcessExiting`, and the log has entries and
texts. -/
structure Instrumented where
  images : Images
  mapped : ImageList
  write : PendingWrite
  inserted : List (PinIns × Callback)
  log : List (List Char × List Char)
  exited : Bool

namespace Instrumented

/-- The program before anything is loaded. -/
def start : Instrumented := ⟨Images.empty, [], ⟨0, 0, 0⟩, [], [], false⟩

variable (cfg : Config)

/-- `LOQ` -/
def loq (entry text : List Char) (s : Instrumented) : Instrumented :=
  if cfg.isEntryEnabled entry && cfg.getEntryFilename entry ≠ [] then
    { s with log := s.log ++ [(entry, text)] }
  else s

/-- `ImageInfo::DumpBinaryAround`, which logs under its own entry. -/
def dump (mem : Memory) (addr size : U32) (s : Instrumented) : Instrumented :=
  (loggedTexts (dumpBinaryAround s.mapped mem addr size)).foldl
    (fun s text => s.loq cfg configDump text) s

/-- `%16s` and the like. -/
def padLeft (width : Nat) (text : List Char) : List Char :=
  List.replicate (width - text.length) ' ' ++ text

/-- `[0x%08x]` -/
def bracketed (x : U32) : List Char := "[0x".toList ++ zeroPad 8 (hex x.toNat) ++ [']']

/-- `"[0x%08x]: %16s [0x%08x] %d bytes "` -/
def accessText (line : WriteLine) : List Char :=
  bracketed line.instAddr ++ ": ".toList ++ padLeft 16 line.tag ++ [' '] ++
    bracketed line.target ++ [' '] ++ intWord line.size ++ " bytes ".toList

/-- The line of an access to code: with a value `rest` closes it; without one `restDumped` does, and
the bytes are dumped. -/
def logAccess (entry : List Char) (mem : Memory) (rest restDumped : List Char)
    (s : Instrumented) : Option WriteLine → Instrumented
  | none => s
  | some line =>
      match line.value with
      | some value => s.loq cfg entry (accessText line ++ bracketed value ++ rest)
      | none => (s.loq cfg entry (accessText line ++ restDumped)).dump cfg mem line.target line.size

/-- What the callbacks of an access find. -/
def env (s : Instrumented) (mem : Memory) : WriteEnv := ⟨s.images.isAddrCode, mem⟩

/-- `REProgramInfo::Process_Instrument_Read_Before`, unless the access is a prefetch. -/
def readBefore (ins : PinIns) (args : CallbackArgs) (s : Instrumented) : Instrumented :=
  if ins.isPrefetch then s
  else
    logAccess cfg configMemRdBefore args.mem (", ".toList ++ ins.disassemble ++ ['\n'])
      ("-- ".toList ++ ins.disassemble ++ ['\n']) s
      (writeLine "Read from".toList (s.env args.mem) ⟨ins.address, args.target, args.size⟩)

/-- `REProgramInfo::Process_Instrument_Write_Before`, unless the access is a prefetch. -/
def writeBefore (ins : PinIns) (args : CallbackArgs) (s : Instrumented) : Instrumented :=
  if ins.isPrefetch then s
  else
    let (write, report) := processInstrumentWriteBefore (s.env args.mem)
      ⟨ins.address, args.target, args.size⟩ s.write
    logAccess cfg configMemWrBefore args.mem ['\n'] "--\n".toList { s with write := write }
      report.line

/-- `REProgramInfo::Process_Instrument_Write_After` -/
def writeAfter (args : CallbackArgs) (s : Instrumented) : Instrumented :=
  let (write, report) := processInstrumentWriteAfter (s.env args.mem) s.write
  logAccess cfg configMemWrAfter args.mem ['\n'] "--\n".toList { s with write := write } report.line

/-- `"Invalid Call from [0x%08x] to [0x%08x]\n"` and its sibling. -/
def invalidText (kind : List Char) (insAddr target : U32) : List Char :=
  "Invalid ".toList ++ kind ++ " from ".toList ++ bracketed insAddr ++ " to ".toList ++
    bracketed target ++ ['\n']

/-- The check of a transfer from the main module: where the target is not verified, it is reported,
both ends are dumped, and `ExitProcess` ends the process. -/
def checkTransfer (kind : List Char) (ins : PinIns) (args : CallbackArgs) (s : Instrumented) :
    Instrumented :=
  if s.images.isAddrWithinMainModule ins.address &&
      !s.images.verifyControlFlowTarget args.target then
    let s := s.loq cfg configAbnormalCf (invalidText kind ins.address args.target)
    let s := (s.dump cfg args.mem ins.address 0x80).dump cfg args.mem args.target 0x80
    { s with exited := true }
  else s

/-- `REProgramInfo::Process_Instrument_Call` -/
def instrumentCall (ins : PinIns) (args : CallbackArgs) (s : Instrumented) : Instrumented :=
  s.checkTransfer cfg "Call".toList ins args

/-- `"[0x%08x]: %10s loc_0x%08x\n"` -/
def branchText (insAddr target : U32) : List Char :=
  bracketed insAddr ++ ": ".toList ++ padLeft 10 "branch".toList ++ " loc_0x".toList ++
    zeroPad 8 (hex target.toNat) ++ ['\n']

/-- `REProgramInfo::Process_Instrument_Branch` -/
def instrumentBranch (ins : PinIns) (args : CallbackArgs) (s : Instrumented) : Instrumented :=
  let s :=
    if args.taken && cfg.isEntryEnabled configBranch then
      s.loq cfg configBranch (branchText ins.address args.target)
    else s
  if args.taken then s.checkTransfer cfg "Branch".toList ins args else s

/-- `"0x%08x : %30s\t\t%s\n"`, with the bytes of the instruction. -/
def normalText (ins : PinIns) (mem : Memory) : List Char :=
  "0x".toList ++ zeroPad 8 (hex ins.address.toNat) ++ " : ".toList ++
    padLeft 30 (rawLine (ins.rawBytes mem)) ++ ['\t', '\t'] ++ ins.disassemble ++ ['\n']

/-- One callback; the bodies of those at returns and system calls are commented out. -/
def runCallback (ins : PinIns) (args : CallbackArgs) (s : Instrumented) : Callback → Instrumented
  | .readBefore _ => s.readBefore cfg ins args
  | .writeBefore => s.writeBefore cfg ins args
  | .writeAfter _ => s.writeAfter cfg args
  | .branch => s.instrumentBranch cfg ins args
  | .call => s.instrumentCall cfg ins args
  | .ret | .syscall => s
  | .normalInstruction => s.loq cfg configInsnNormal (normalText ins args.mem)

end Instrumented

/-! ## Runs -/

/-- What Pin reports: an image that is loaded, an instruction that is met, or a callback that is
due. -/
inductive PinEvent where
  | image (img : PinImage)
  | encounter (ins : PinIns)
  | callback (ins : PinIns) (cb : Callback) (args : CallbackArgs)

section Runs

variable (cfg : Config)

/-- One event, while the process is still there; only callbacks that were inserted are due. -/
inductive Instrumented.Step : Instrumented → PinEvent → Instrumented → Prop where
  | image {s : Instrumented} {img : PinImage} {st : Images} (running : s.exited = false)
      (appended : Computes (fun n => Images.appendImage n img s.images) (.ok st)) :
      Step s (.image img) { s with images := st, mapped := s.mapped ++ [img.info] }
  | encounter {s : Instrumented} {ins : PinIns} (running : s.exited = false) :
      Step s (.encounter ins)
        { s with inserted := s.inserted ++
            (processEncounterInsn cfg s.images ins).map fun cb => (ins, cb) }
  | callback {s : Instrumented} {ins : PinIns} {cb : Callback} {args : CallbackArgs}
      (running : s.exited = false) (due : (ins, cb) ∈ s.inserted) :
      Step s (.callback ins cb args) (s.runCallback cfg ins args cb)

/-- The states that a sequence of events leads to. -/
inductive Instrumented.Runs : List PinEvent → Instrumented → Prop where
  | start : Runs [] start
  | step {evs : List PinEvent} {s s' : Instrumented} {ev : PinEvent} : Runs evs s →
      s.Step cfg ev s' → Runs (evs ++ [ev]) s'

end Runs

/-- Control is transferred where the callback runs. -/
def Callback.transfers (args : CallbackArgs) : Callback → Bool
  | .call => true
  | .branch => args.taken
  | _ => false

/-! ## The filter -/

section Filter

variable {cfg : Config} {st : Images} {ins : PinIns} {cb : Callback}

theorem exists_entry_of_mem_memoryCallbacks (h : cb ∈ memoryCallbacks cfg st ins) :
    ∃ entry ∈ cb.entries, filterConfig cfg st entry ins.address = true := by
  simp only [memoryCallbacks, List.mem_append, List.mem_ite_nil_right, List.mem_singleton,
    Bool.and_eq_true] at h
  rcases h with ⟨⟨hfilter, -⟩, ⟨-, rfl⟩ | rfl⟩ |
    ⟨-, ⟨hfilter, rfl⟩ | ⟨hfilter, ⟨-, rfl⟩ | ⟨-, rfl⟩⟩⟩
  all_goals exact ⟨_, List.mem_singleton_self _, hfilter⟩

theorem exists_entry_of_mem_flowCallbacks (h : cb ∈ flowCallbacks cfg st ins)
    (hcb : cb ≠ .syscall) :
    ∃ entry ∈ cb.entries, filterConfig cfg st entry ins.address = true := by
  unfold flowCallbacks at h
  split_ifs at h with hbranch hfilter hcall hfilter hret hfilter hsyscall
  · obtain rfl := List.mem_singleton.mp h
    exact ⟨_, List.mem_singleton_self _, hfilter⟩
  · exact absurd h List.not_mem_nil
  · obtain rfl := List.mem_singleton.mp h
    rcases Bool.or_eq_true_iff.mp hfilter with hfilter | hfilter
    · exact ⟨_, List.mem_cons_self, hfilter⟩
    · exact ⟨_, List.mem_cons_of_mem _ List.mem_cons_self, hfilter⟩
  · exact absurd h List.not_mem_nil
  · obtain rfl := List.mem_singleton.mp h
    rcases Bool.or_eq_true_iff.mp hfilter with hfilter | hfilter
    · exact ⟨_, List.mem_cons_self, hfilter⟩
    · exact ⟨_, List.mem_cons_of_mem _ List.mem_cons_self, hfilter⟩
  · exact absurd h List.not_mem_nil
  · exact absurd (List.mem_singleton.mp h) hcb
  · exact absurd h List.not_mem_nil

/-- Every callback but that of a system call was let through by one of its entries. -/
theorem exists_entry_of_mem (h : cb ∈ processEncounterInsn cfg st ins) (hcb : cb ≠ .syscall) :
    ∃ entry ∈ cb.entries, filterConfig cfg st entry ins.address = true := by
  unfold processEncounterInsn at h
  rcases List.mem_append.mp h with h | hnormal
  · rcases List.mem_append.mp h with hmemory | hflow
    · exact exists_entry_of_mem_memoryCallbacks hmemory
    · exact exists_entry_of_mem_flowCallbacks hflow hcb
  · obtain ⟨hfilter, hnormal⟩ := List.mem_ite_nil_right.mp hnormal
    obtain rfl := List.mem_singleton.mp hnormal
    exact ⟨_, List.mem_singleton_self _, hfilter⟩

end Filter

/-! ## What a callback does -/

/-- Lines of enabled entries, none of them on a memory access. -/
def FlowLines (cfg : Config) (lines : List (List Char × List Char)) : Prop :=
  ∀ line ∈ lines, cfg.isEntryEnabled line.1 = true ∧ line.1 ∉ memoryEntries

theorem FlowLines.nil (cfg : Config) : FlowLines cfg [] :=
  fun _ h => absurd h List.not_mem_nil

theorem FlowLines.append {cfg : Config} {lines lines' : List (List Char × List Char)}
    (h : FlowLines cfg lines) (h' : FlowLines cfg lines') : FlowLines cfg (lines ++ lines') :=
  List.forall_mem_append.mpr ⟨h, h'⟩

namespace Instrumented

variable {cfg : Config} {s s' s'' : Instrumented}

/-- Nothing but such lines was added. -/
def Logs (cfg : Config) (s s' : Instrumented) : Prop :=
  ∃ lines, s' = { s with log := s.log ++ lines } ∧ FlowLines cfg lines

theorem Logs.refl (s : Instrumented) : Logs cfg s s :=
  ⟨[], by rw [List.append_nil], .nil cfg⟩

theorem Logs.trans (h : Logs cfg s s') (h' : Logs cfg s' s'') : Logs cfg s s'' := by
  obtain ⟨lines, rfl, hlines⟩ := h
  obtain ⟨lines', rfl, hlines'⟩ := h'
  exact ⟨lines ++ lines', by rw [List.append_assoc], hlines.append hlines'⟩

theorem logs_loq {entry : List Char} (hentry : entry ∉ memoryEntries) (text : List Char)
    (s : Instrumented) : Logs cfg s (s.loq cfg entry text) := by
  unfold loq
  split_ifs with h
  · refine ⟨[(entry, text)], rfl, fun line hline => ?_⟩
    obtain rfl := List.mem_singleton.mp hline
    exact ⟨(Bool.and_eq_true_iff.mp h).1, hentry⟩
  · exact .refl s

theorem logs_dump (mem : Memory) (addr size : U32) (s : Instrumented) :
    Logs cfg s (s.dump cfg mem addr size) := by
  unfold dump
  induction loggedTexts (dumpBinaryAround s.mapped mem addr size) generalizing s with
  | nil => exact .refl s
  | cons text texts ih => exact (logs_loq (by decide) text s).trans (ih _)

/-- Such lines and the pending write are all that changed, but for the end of the process. -/
def Does (cfg : Config) (ends : Bool) (s s' : Instrumented) : Prop :=
  ∃ lines write, FlowLines cfg lines ∧
    s' = { s with write := write, log := s.log ++ lines, exited := s.exited || ends }

theorem does_write (cfg : Config) (s : Instrumented) (write : PendingWrite) :
    Does cfg false s { s with write := write } :=
  ⟨[], write, .nil cfg, by rw [List.append_nil, Bool.or_false]⟩

theorem does_exit (cfg : Config) (s : Instrumented) : Does cfg true s { s with exited := true } :=
  ⟨[], s.write, .nil cfg, by rw [List.append_nil, Bool.or_true]⟩

theorem Logs.does (h : Logs cfg s s') : Does cfg false s s' := by
  obtain ⟨lines, rfl, hlines⟩ := h
  exact ⟨lines, s.write, hlines, by rw [Bool.or_false]⟩

theorem Logs.does_trans {ends : Bool} (h : Logs cfg s s') (h' : Does cfg ends s' s'') :
    Does cfg ends s s'' := by
  obtain ⟨lines, rfl, hlines⟩ := h
  obtain ⟨lines', write, hlines', rfl⟩ := h'
  exact ⟨lines ++ lines', write, hlines.append hlines', by rw [List.append_assoc]⟩

theorem Does.images_eq {ends : Bool} (h : Does cfg ends s s') : s'.images = s.images := by
  obtain ⟨lines, write, -, rfl⟩ := h
  rfl

theorem Logs.images_eq (h : Logs cfg s s') : s'.images = s.images := h.does.images_eq

/-- No image knows its sections. -/
def NoSections (s : Instrumented) : Prop := ∀ o ∈ s.images.images, o.sections = []

theorem Logs.noSections (h : Logs cfg s s') (hno : s.NoSections) : s'.NoSections := by
  obtain ⟨lines, rfl, -⟩ := h
  exact hno

theorem NoSections.writeLine_eq_none (h : s.NoSections) (mem : Memory) (tag : List Char)
    (w : PendingWrite) : writeLine tag (s.env mem) w = none := by
  have hcode : (s.env mem).isAddrCode w.target = false :=
    (Images.answers_of_sections_nil h w.target).1
  rw [writeLine, hcode]
  rfl

theorem NoSections.checkTransfer (h : s.NoSections) (cfg : Config) (kind : List Char) (ins : PinIns)
    (args : CallbackArgs) : Does cfg (s.images.isAddrWithinMainModule ins.address) s
      (s.checkTransfer cfg kind ins args) := by
  unfold Instrumented.checkTransfer
  rw [(Images.answers_of_sections_nil h args.target).2]
  cases hmain : s.images.isAddrWithinMainModule ins.address with
  | false => exact (Logs.refl s).does
  | true =>
      have hline : Logs cfg s (s.loq cfg configAbnormalCf
          (invalidText kind ins.address args.target)) := logs_loq (by decide) _ s
      have hdumps := (hline.trans (logs_dump args.mem ins.address 0x80 _)).trans
        (logs_dump args.mem args.target 0x80 _)
      exact hdumps.does_trans (does_exit cfg _)

/-- **One callback**, while no image knows its sections: it logs nothing on memory accesses, and it
ends the process exactly where control is transferred in the main module. -/
theorem NoSections.runCallback (h : s.NoSections) (cfg : Config) (ins : PinIns)
    (args : CallbackArgs) (cb : Callback) :
    Does cfg (cb.transfers args && s.images.isAddrWithinMainModule ins.address) s
      (s.runCallback cfg ins args cb) := by
  cases cb with
  | readBefore second =>
      show Does cfg false s (s.readBefore cfg ins args)
      rw [readBefore, h.writeLine_eq_none]
      split_ifs <;> exact (Logs.refl s).does
  | writeBefore =>
      show Does cfg false s (s.writeBefore cfg ins args)
      rw [writeBefore]
      split_ifs with hprefetch
      · exact (Logs.refl s).does
      · rw [processInstrumentWriteBefore, h.writeLine_eq_none]
        exact does_write cfg s _
  | writeAfter takenBranch =>
      show Does cfg false s (s.writeAfter cfg args)
      rw [writeAfter, processInstrumentWriteAfter, h.writeLine_eq_none]
      exact does_write cfg s _
  | branch =>
      show Does cfg (args.taken && _) s (s.instrumentBranch cfg ins args)
      unfold instrumentBranch
      cases args.taken with
      | false => exact (Logs.refl s).does
      | true =>
          have hline : Logs cfg s (if true && cfg.isEntryEnabled configBranch then
              s.loq cfg configBranch (branchText ins.address args.target) else s) := by
            split_ifs
            · exact logs_loq (by decide) _ s
            · exact .refl s
          have hcheck := (hline.noSections h).checkTransfer cfg "Branch".toList ins args
          rw [hline.images_eq] at hcheck
          exact hline.does_trans hcheck
  | call => exact h.checkTransfer cfg _ ins args
  | ret => exact (Logs.refl s).does
  | syscall => exact (Logs.refl s).does
  | normalInstruction => exact (logs_loq (by decide) _ s).does

/-! ## Whole runs -/

theorem NoSections.filterConfig_iff (h : s.NoSections) {entry : List Char} {addr : U32} :
    filterConfig cfg s.images entry addr = true ↔ cfg.isEntryEnabled entry = true ∧
      (cfg.withinMainModule entry = true → s.images.isAddrWithinMainModule addr = true) ∧
        cfg.withinCodeSection entry = false := by
  rw [filterConfig, (Images.answers_of_sections_nil h addr).1]
  simp only [Bool.or_false, Bool.and_eq_true, Bool.not_eq_true', Bool.or_eq_true]
  cases cfg.withinMainModule entry <;> simp

/-- What holds in every run: no image knows its sections, no callback but that of a system call was
inserted unless an entry is on that is not confined to code, and no line is about an access. -/
structure Blind (cfg : Config) (s : Instrumented) : Prop where
  noSections : s.NoSections
  inserted : ∀ p ∈ s.inserted, p.2 ≠ .syscall → ∃ entry ∈ p.2.entries,
    cfg.isEntryEnabled entry = true ∧ cfg.withinCodeSection entry = false
  lines : FlowLines cfg s.log

theorem blind_start (cfg : Config) : Blind cfg start where
  noSections := fun _ h => absurd h List.not_mem_nil
  inserted := fun _ h => absurd h List.not_mem_nil
  lines := .nil cfg

theorem Does.blind {ends : Bool} (h : Does cfg ends s s') (hs : Blind cfg s) : Blind cfg s' := by
  obtain ⟨lines, write, hlines, rfl⟩ := h
  exact ⟨hs.noSections, hs.inserted, hs.lines.append hlines⟩

/-- **One event.** -/
theorem Step.blind {ev : PinEvent} (hstep : s.Step cfg ev s') (hs : Blind cfg s) :
    Blind cfg s' := by
  cases hstep with
  | image _ happended =>
      obtain ⟨r, -, himages⟩ := Images.appendImage_ok happended
      refine ⟨fun o ho => ?_, hs.inserted, hs.lines⟩
      rw [himages] at ho
      rcases List.mem_append.mp ho with hold | hnew
      · exact hs.noSections o hold
      · obtain rfl := List.mem_singleton.mp hnew
        rfl
  | encounter _ =>
      refine ⟨hs.noSections, fun p hp hsyscall => ?_, hs.lines⟩
      rcases List.mem_append.mp hp with hold | hnew
      · exact hs.inserted p hold hsyscall
      · obtain ⟨cb, hcb, rfl⟩ := List.mem_map.mp hnew
        obtain ⟨entry, hentry, hfilter⟩ := exists_entry_of_mem hcb hsyscall
        obtain ⟨henabled, -, hcode⟩ := hs.noSections.filterConfig_iff.mp hfilter
        exact ⟨entry, hentry, henabled, hcode⟩
  | callback _ _ => exact (hs.noSections.runCallback cfg _ _ _).blind hs

/-- Only a callback at a transfer in the main module ends the process, and it always does. -/
theorem Step.exited_iff {ev : PinEvent} (hstep : s.Step cfg ev s') (hs : Blind cfg s) :
    s'.exited = true ↔ ∃ ins cb args, ev = .callback ins cb args ∧
      cb.transfers args = true ∧ s'.images.isAddrWithinMainModule ins.address = true := by
  cases hstep with
  | image hrunning _ => simp [hrunning]
  | encounter hrunning => simp [hrunning]
  | @callback ins cb args hrunning _ =>
      obtain ⟨lines, write, -, heq⟩ := hs.noSections.runCallback cfg ins args cb
      rw [heq, hrunning]
      simp

/-- **Any run.** -/
theorem Runs.blind {evs : List PinEvent} (h : Runs cfg evs s) : Blind cfg s := by
  induction h with
  | start => exact blind_start cfg
  | step _ hstep ih => exact hstep.blind ih

theorem Blind.syscall_of_disabled (hs : Blind cfg s)
    (hcfg : ∀ entry, cfg.isEntryEnabled entry = false) : ∀ p ∈ s.inserted, p.2 = .syscall := by
  intro p hp
  by_contra hsyscall
  obtain ⟨entry, -, henabled, -⟩ := hs.inserted p hp hsyscall
  exact absurd henabled (by rw [hcfg]; decide)

/-- With the configuration that `Config::Initialize` leaves, only system calls are instrumented,
nothing is logged, and the process never ends. -/
theorem Runs.quiet {filename samplename : List Char} {disk : Disk} {evs : List PinEvent}
    (h : Runs (Config.configInitialize filename samplename disk).1 evs s) :
    (∀ p ∈ s.inserted, p.2 = .syscall) ∧ s.log = [] ∧ s.exited = false := by
  have hcfg : ∀ entry, (Config.configInitialize filename samplename disk).1.isEntryEnabled entry =
      false := fun _ => rfl
  refine ⟨h.blind.syscall_of_disabled hcfg, ?_, ?_⟩
  · refine List.eq_nil_iff_forall_not_mem.mpr fun line hline => ?_
    exact absurd (h.blind.lines line hline).1 (by rw [hcfg]; decide)
  · cases h with
    | start => rfl
    | step hruns hstep =>
        refine Bool.eq_false_iff.mpr fun hexited => ?_
        obtain ⟨ins, cb, args, rfl, htransfers, -⟩ := (hstep.exited_iff hruns.blind).mp hexited
        cases hstep with
        | callback _ hdue =>
            obtain rfl : cb = .syscall := hruns.blind.syscall_of_disabled hcfg _ hdue
            exact Bool.false_ne_true htransfers

end Instrumented

/-- **The monitor in a whole run**, whatever the configuration: the first transfer of the main
module at which a callback runs ends the process, wherever it goes, and no access is ever
reported. -/
theorem monitor_run (cfg : Config) (evs : List PinEvent) (s : Instrumented)
    (h : Instrumented.Runs cfg evs s) :
    (s.exited = true ↔ ∃ before ins cb args, evs = before ++ [.callback ins cb args] ∧
      cb.transfers args = true ∧ s.images.isAddrWithinMainModule ins.address = true) ∧
    (∀ line ∈ s.log, cfg.isEntryEnabled line.1 = true ∧ line.1 ∉ memoryEntries) ∧
    ∀ p ∈ s.inserted, p.2 ≠ .syscall → ∃ entry ∈ p.2.entries,
      cfg.isEntryEnabled entry = true ∧ cfg.withinCodeSection entry = false := by
  refine ⟨?_, h.blind.lines, h.blind.inserted⟩
  cases h with
  | start => simp [Instrumented.start]
  | step hruns hstep =>
      rw [hstep.exited_iff hruns.blind]
      simp

section Samples

/-- Calls of the main module are watched, and nothing else. -/
def callConfig : Config where
  reportFolder := []
  mapEntries := fun name => if name = configCall then some ⟨true, true, false, []⟩ else none

/-- A call at the start of the sample image. -/
def callIns : PinIns where
  address := 0x11000
  size := 5
  disassemble := "call 0x11000".toList
  isMemoryRead := false
  hasMemoryRead2 := false
  isMemoryWrite := false
  isPrefetch := false
  hasFallThrough := false
  isBranch := false
  isCall := true
  isRet := false
  isSyscall := false

/-- The call has the image's own routine as its target, and ends the process. -/
theorem monitor_run_call : ∃ s, Instrumented.Runs callConfig [.image textImage,
    .encounter callIns, .callback callIns .call ⟨0x11000, 4, true, textImage.mem⟩] s ∧
    s.exited = true := by
  have hloaded : Instrumented.Runs callConfig ([] ++ [.image textImage]) _ :=
    .step .start (.image rfl ⟨0, fun _ _ => rfl⟩)
  have hmet : Instrumented.Runs callConfig ([.image textImage] ++ [.encounter callIns]) _ :=
    .step hloaded (.encounter rfl)
  have hdue : Instrumented.Runs callConfig ([.image textImage, .encounter callIns] ++
      [.callback callIns .call ⟨0x11000, 4, true, textImage.mem⟩]) _ :=
    .step hmet (.callback rfl (List.mem_map.mpr ⟨.call, by decide, rfl⟩))
  have hcall := hmet.blind.noSections.runCallback callConfig callIns
    ⟨0x11000, 4, true, textImage.mem⟩ .call
  refine ⟨_, hdue, (monitor_run callConfig _ _ hdue).1.mpr ⟨_, _, _, _, rfl, rfl, ?_⟩⟩
  rw [hcall.images_eq]
  rfl

end Samples

end PEReplay
