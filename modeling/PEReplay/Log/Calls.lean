/-
# PEReplay.Log.Calls — a `Logger` with its mutex, and what a throw leaves behind.

`Logger.flush` and its callers say what a call returns.  Here the same functions run on the object
itself, so that a throw leaves it as it is at that point, three calls deep: the buffer is written
and emptied, the counters are changed, and `m_log_mutex` is still held, as nothing unlocks it on the
way out.  `logline_outcome` ties the two readings of `Logline` together.

`call_cases` says what one call on a sound object can do; what is said about runs of calls rests on
it alone.
-/
import PEReplay.Log.Parts

namespace PEReplay

open Printf

/-- A `Logger` object: its fields, the disk, whether `m_log_mutex` is held, and the names of the
files it has opened. -/
structure LogObject where
  logger : Logger
  disk : Disk
  locked : Bool
  opened : List (List Char)

/-- A member function of the object: it returns or throws, and the object is left as it is then. -/
abbrev LogM := EStateM LogError LogObject

namespace LogObject

/-- `PIN_MutexUnlock(&m_log_mutex)` -/
def mutexUnlock : LogM Unit := fun o => .ok () { o with locked := false }

/-- `m_out = new std::ofstream(name, std::ofstream::out | std::ofstream::trunc)` -/
def openPart (name : List Char) : LogM Unit := fun o =>
  .ok () { o with
    logger := { o.logger with out := name }
    disk := o.disk.trunc name
    opened := o.opened ++ [name] }

/-- `sprintf_s(partial_file_name, 1024, "%s_%03d.clg", …, m_file_nums)` -/
def sprintfName : LogM (List Char) := fun o =>
  match sprintfPartialFileName o.logger.originalFilename o.logger.fileNums with
  | .ok name => .ok name o
  | .error e => .error e o

/-- Assign to fields of the logger. -/
def assign (f : Logger → Logger) : LogM Unit := fun o => .ok () { o with logger := f o.logger }

/-- `Logger::SplitFile` -/
def splitFile : LogM Unit := do
  if (← get).logger.fileNums > biggestFileNums then throw .tooManyLogs
  else do
    assign fun l => { l with fileNums := l.fileNums + 1 }
    let name ← sprintfName
    openPart name
    assign fun l => { l with fileSize := 0 }

/-- `m_out->write(m_buffer.c_str(), m_size)` -/
def writeBuffer : LogM Unit := fun o =>
  .ok () { o with disk := o.disk.write o.logger.out (o.logger.buffer.take o.logger.size.toNat) }

/-- `Logger::Flush` -/
def flush : LogM Unit := do
  writeBuffer
  assign fun l => { l with buffer := [] }
  assign fun l => { l with fileSize := l.fileSize + l.size }
  assign fun l => { l with size := 0 }
  if (← get).logger.fileSize ≥ biggestFileSize then splitFile else pure ()

/-- `m_buffer.replace(m_size, len, line)` -/
def replace (len : U32) (line : List Char) : LogM Unit := fun o =>
  match o.logger.replace len line with
  | .ok l => .ok () { o with logger := l }
  | .error e => .error e o

/-- `Logger::Logline` behind its `PIN_MutexLock`. -/
def loglineLocked (line : CString) : LogM Unit := do
  let len := BitVec.ofNat 32 line.chars.length
  if len + (← get).logger.size ≥ BitVec.ofNat 32 bufSize then flush else pure ()
  replace len line.chars
  assign fun l => { l with size := l.size + len }
  mutexUnlock

/-- How a call ends. -/
abbrev Outcome := EStateM.Result LogError LogObject Unit

/-- `PIN_MutexLock(&m_log_mutex)` and what follows; `none` when the mutex is held, as nobody will
give it back. -/
def lockThen (body : LogM Unit) (o : LogObject) : Option Outcome :=
  if o.locked then none else some (body { o with locked := true })

/-- `Logger::Logline` -/
def logline (line : CString) : LogObject → Option Outcome := lockThen (loglineLocked line)

/-- `Logger::~Logger` -/
def destroy : LogObject → Option Outcome := lockThen (do flush; mutexUnlock)

/-- `Logger::Logger` -/
def construct (filename : CString) (disk : Disk) : Except LogError LogObject := do
  let (l, disk) ← Logger.construct filename disk
  return { logger := l, disk := disk, locked := false, opened := [l.out] }

/-- The object a finished call leaves behind. -/
def after : Outcome → LogObject
  | .ok _ o => o
  | .error _ o => o

/-- What a finished call returns or throws, and the logger and disk when it returns. -/
def returned : Outcome → Except LogError (Logger × Disk)
  | .ok _ o => .ok (o.logger, o.disk)
  | .error e _ => .error e

/-- Calls of `Logline`, one after the other, whether they return or throw; `none` when one of them
never finishes. -/
def loglines : List CString → LogObject → Option LogObject
  | [], o => some o
  | line :: lines, o => (o.logline line).bind fun r => loglines lines (after r)

/-! ## What a flush does to the object -/

/-- `Logline` has to flush before it can take the line. -/
def FlushDue (o : LogObject) (line : CString) : Prop :=
  BitVec.ofNat 32 line.chars.length + o.logger.size ≥ BitVec.ofNat 32 bufSize

/-- A flush takes the open part to `BIGGEST_FILE_SIZE`. -/
def SplitDue (o : LogObject) : Prop := o.logger.fileSize + o.logger.size ≥ biggestFileSize

instance (o : LogObject) (line : CString) : Decidable (o.FlushDue line) :=
  inferInstanceAs (Decidable (_ ≥ _))

instance (o : LogObject) : Decidable o.SplitDue := inferInstanceAs (Decidable (_ ≥ _))

/-- The object once the buffer is written and emptied. -/
def written (o : LogObject) : LogObject :=
  { o with
    logger := { o.logger with
      buffer := []
      fileSize := o.logger.fileSize + o.logger.size
      size := 0 }
    disk := o.disk.write o.logger.out (o.logger.buffer.take o.logger.size.toNat) }

/-- The name of the next part. -/
def nextName (o : LogObject) : List Char :=
  partialFileName o.logger.originalFilename (o.logger.fileNums + 1)

/-- The object once the next part is open. -/
def rotated (o : LogObject) : LogObject :=
  { o with
    logger := { o.logger with fileNums := o.logger.fileNums + 1, out := o.nextName, fileSize := 0 }
    disk := o.disk.trunc o.nextName
    opened := o.opened ++ [o.nextName] }

/-- The object once the line is in the buffer. -/
def stored (line : CString) (o : LogObject) : LogObject :=
  { o with logger := { o.logger with
      buffer := o.logger.buffer.take o.logger.size.toNat ++ line.chars ++
        o.logger.buffer.drop (o.logger.size.toNat + (BitVec.ofNat 32 line.chars.length).toNat)
      size := o.logger.size + BitVec.ofNat 32 line.chars.length } }

theorem get_apply (o : LogObject) : (get : LogM LogObject) o = .ok o o := rfl

theorem flush_of_not_splitDue {o : LogObject} (h : ¬ o.SplitDue) : flush o = .ok () o.written := by
  have hsmall : ¬ o.written.logger.fileSize ≥ biggestFileSize := h
  simp only [written] at hsmall
  simp only [flush, writeBuffer, assign, bind, EStateM.bind, get_apply, pure,
    EStateM.pure, if_neg hsmall]
  rfl

theorem flush_of_splitDue {o : LogObject} (h : o.SplitDue) : flush o = splitFile o.written := by
  have hfull : o.written.logger.fileSize ≥ biggestFileSize := h
  simp only [written] at hfull
  simp only [flush, writeBuffer, assign, bind, EStateM.bind, get_apply, if_pos hfull]
  rfl

theorem splitFile_of_le {o : LogObject} (hnums : ¬ o.logger.fileNums > biggestFileNums)
    (hname : o.nextName.length < partialFileNameSize) : splitFile o = .ok () o.rotated := by
  have hsprintf : sprintfPartialFileName o.logger.originalFilename (o.logger.fileNums + 1) =
      .ok o.nextName := if_pos hname
  simp only [splitFile, sprintfName, openPart, assign, bind, EStateM.bind, get_apply,
    if_neg hnums, hsprintf]
  rfl

theorem splitFile_of_gt {o : LogObject} (hnums : o.logger.fileNums > biggestFileNums) :
    splitFile o = .error .tooManyLogs o := by
  simp only [splitFile, bind, EStateM.bind, get_apply, if_pos hnums]
  rfl

theorem splitFile_of_long {o : LogObject} (hnums : ¬ o.logger.fileNums > biggestFileNums)
    (hname : ¬ o.nextName.length < partialFileNameSize) :
    splitFile o = .error .invalidParameter
      { o with logger := { o.logger with fileNums := o.logger.fileNums + 1 } } := by
  have hsprintf : sprintfPartialFileName o.logger.originalFilename (o.logger.fileNums + 1) =
      .error .invalidParameter := if_neg hname
  simp only [splitFile, sprintfName, assign, bind, EStateM.bind, get_apply, if_neg hnums,
    hsprintf]

/-- **What a flush can do.** -/
theorem flush_cases (o : LogObject) :
    (¬ o.SplitDue ∧ flush o = .ok () o.written) ∨
    (o.SplitDue ∧ ¬ o.logger.fileNums > biggestFileNums ∧
      flush o = .ok () o.written.rotated) ∨
    (o.SplitDue ∧ ∃ e o', flush o = .error e o') := by
  by_cases hsplit : o.SplitDue
  · rw [flush_of_splitDue hsplit]
    by_cases hnums : o.logger.fileNums > biggestFileNums
    · exact Or.inr (Or.inr ⟨hsplit, _, _, splitFile_of_gt (o := o.written) hnums⟩)
    · by_cases hname : o.nextName.length < partialFileNameSize
      · exact Or.inr (Or.inl ⟨hsplit, hnums, splitFile_of_le (o := o.written) hnums hname⟩)
      · exact Or.inr (Or.inr ⟨hsplit, _, _, splitFile_of_long (o := o.written) hnums hname⟩)
  · exact Or.inl ⟨hsplit, flush_of_not_splitDue hsplit⟩

/-- A flush that returns leaves the buffer empty. -/
theorem size_eq_zero_of_flush {o o' : LogObject} {u : Unit} (h : flush o = .ok u o') :
    o'.logger.size = 0 := by
  obtain ⟨-, hflush⟩ | ⟨-, -, hflush⟩ | ⟨-, e, o₁, hflush⟩ := flush_cases o
  · rw [hflush] at h
    obtain rfl := (EStateM.Result.ok.inj h).2
    rfl
  · rw [hflush] at h
    obtain rfl := (EStateM.Result.ok.inj h).2
    rfl
  · rw [hflush] at h
    exact absurd h (by simp)

/-! ## The two readings of a call -/

theorem splitFile_returned (o : LogObject) :
    returned (splitFile o) = o.logger.splitFile o.disk := by
  by_cases hnums : o.logger.fileNums > biggestFileNums
  · simp only [splitFile_of_gt hnums, Logger.splitFile, if_pos hnums]
    rfl
  · by_cases hname : o.nextName.length < partialFileNameSize
    · have hsprintf : sprintfPartialFileName o.logger.originalFilename (o.logger.fileNums + 1) =
          .ok o.nextName := if_pos hname
      simp only [splitFile_of_le hnums hname, Logger.splitFile, if_neg hnums, hsprintf]
      rfl
    · have hsprintf : sprintfPartialFileName o.logger.originalFilename (o.logger.fileNums + 1) =
          .error .invalidParameter := if_neg hname
      simp only [splitFile_of_long hnums hname, Logger.splitFile, if_neg hnums, hsprintf]
      rfl

theorem flush_returned (o : LogObject) : returned (flush o) = o.logger.flush o.disk := by
  by_cases hsplit : o.SplitDue
  · have hfull : o.logger.fileSize + o.logger.size ≥ biggestFileSize := hsplit
    simp only [flush_of_splitDue hsplit, splitFile_returned, Logger.flush, if_pos hfull]
    rfl
  · have hsmall : ¬ o.logger.fileSize + o.logger.size ≥ biggestFileSize := hsplit
    simp only [flush_of_not_splitDue hsplit, Logger.flush, if_neg hsmall]
    rfl

/-- A call that need not flush stores the line. -/
theorem loglineLocked_of_not_flushDue {o : LogObject} {line : CString} (h : ¬ o.FlushDue line)
    (hsize : o.logger.size.toNat ≤ o.logger.buffer.length) :
    loglineLocked line o = .ok () { o.stored line with locked := false } := by
  have hdue : ¬ BitVec.ofNat 32 line.chars.length + o.logger.size ≥ BitVec.ofNat 32 bufSize := h
  simp only [loglineLocked, replace, Logger.replace, assign, mutexUnlock, bind, EStateM.bind,
    get_apply, if_neg hdue, if_neg (not_lt.mpr hsize)]
  rfl

/-- A call that flushes stores the line when the flush returns. -/
theorem loglineLocked_of_flush {o o₁ : LogObject} {line : CString} (h : o.FlushDue line)
    (hflush : flush o = .ok () o₁) (hsize : o₁.logger.size.toNat ≤ o₁.logger.buffer.length) :
    loglineLocked line o = .ok () { o₁.stored line with locked := false } := by
  have hdue : BitVec.ofNat 32 line.chars.length + o.logger.size ≥ BitVec.ofNat 32 bufSize := h
  simp only [loglineLocked, replace, Logger.replace, assign, mutexUnlock, bind, EStateM.bind,
    get_apply, if_pos hdue, hflush, if_neg (not_lt.mpr hsize)]
  rfl

/-- A flush that throws ends the call, at once. -/
theorem loglineLocked_of_throw {o o₁ : LogObject} {line : CString} {e : LogError}
    (h : o.FlushDue line) (hflush : flush o = .error e o₁) :
    loglineLocked line o = .error e o₁ := by
  have hdue : BitVec.ofNat 32 line.chars.length + o.logger.size ≥ BitVec.ofNat 32 bufSize := h
  simp only [loglineLocked, bind, EStateM.bind, get_apply, if_pos hdue, hflush]

theorem logline_of_free {o : LogObject} (hfree : o.locked = false) (line : CString) :
    o.logline line = some (loglineLocked line { o with locked := true }) := by
  simp [logline, lockThen, hfree]

/-- A call waits for ever on a mutex that is held. -/
theorem logline_of_locked {o : LogObject} (hlocked : o.locked = true) (line : CString) :
    o.logline line = none := by
  simp [logline, lockThen, hlocked]

/-- **The two readings agree**: on a free mutex `Logline` returns or throws what the function on the
logger and the disk says. -/
theorem logline_outcome {o : LogObject} {line : CString} (hfree : o.locked = false)
    (hsize : o.logger.size.toNat ≤ o.logger.buffer.length) :
    ∃ r, o.logline line = some r ∧ returned r = o.logger.logline o.disk line := by
  refine ⟨loglineLocked line { o with locked := true }, logline_of_free hfree line, ?_⟩
  by_cases h : FlushDue { o with locked := true } line
  · have hdue : BitVec.ofNat 32 line.chars.length + o.logger.size ≥ BitVec.ofNat 32 bufSize := h
    have hreturned := flush_returned { o with locked := true }
    simp only [Logger.logline, if_pos hdue]
    cases hflush : flush { o with locked := true } with
    | error e o₁ =>
        rw [hflush] at hreturned
        rw [loglineLocked_of_throw h hflush, ← hreturned]
        rfl
    | ok u o₁ =>
        rw [hflush] at hreturned
        have hle : o₁.logger.size.toNat ≤ o₁.logger.buffer.length := by
          rw [size_eq_zero_of_flush hflush]
          exact Nat.zero_le _
        rw [loglineLocked_of_flush h hflush hle, ← hreturned]
        simp only [returned, bind, Except.bind, Logger.replace, if_neg (not_lt.mpr hle)]
        rfl
  · have hdue : ¬ BitVec.ofNat 32 line.chars.length + o.logger.size ≥ BitVec.ofNat 32 bufSize := h
    rw [loglineLocked_of_not_flushDue h hsize]
    simp only [Logger.logline, if_neg hdue, Logger.replace, bind, Except.bind,
      if_neg (not_lt.mpr hsize)]
    rfl

/-! ## What one call can do -/

/-- The object between two calls that returned. -/
structure Sound (o : LogObject) : Prop where
  free : o.locked = false
  size_le : o.logger.size.toNat ≤ o.logger.buffer.length
  opened : o.opened.length = o.logger.fileNums.toNat
  fileNums_pos : 0 < o.logger.fileNums.toNat
  fileNums_le : o.logger.fileNums.toNat ≤ 21
  name_lt : o.logger.originalFilename.length + 8 < partialFileNameSize

theorem length_signedPad_of_le {n : U32} (h : n.toNat ≤ 22) : (signedPad 3 n.toInt).length = 3 := by
  have hall : ∀ k < 23, (signedPad 3 (BitVec.ofNat 32 k).toInt).length = 3 := by decide
  have hn := hall n.toNat (by omega)
  rwa [BitVec.ofNat_toNat, BitVec.setWidth_eq] at hn

theorem length_partialFileName {originalFilename : List Char} {n : U32} (h : n.toNat ≤ 22) :
    (partialFileName originalFilename n).length = originalFilename.length + 8 := by
  simp only [partialFileName, List.length_append, List.length_cons, length_signedPad_of_le h,
    List.length_nil]

theorem sound_construct {filename : CString} {disk : Disk} {o : LogObject}
    (h : construct filename disk = .ok o) : o.Sound ∧ o.logger.fileNums = 1 := by
  obtain ⟨⟨l, disk₀⟩, hnew, h⟩ := exceptBind_ok h
  obtain rfl := Except.ok.inj h
  have hstores := stores_construct hnew
  unfold Logger.construct at hnew
  split at hnew
  · exact absurd hnew (by simp)
  · obtain ⟨name, hname, hnew⟩ := exceptBind_ok hnew
    obtain ⟨rfl, rfl⟩ := Prod.mk.inj (Except.ok.inj hnew)
    have hlt : (partialFileName (filename.chars.take (filename.chars.length - 4)) 1).length <
        partialFileNameSize := by
      simp only [sprintfPartialFileName] at hname
      split at hname
      · assumption
      · exact absurd hname (by simp)
    rw [length_partialFileName (by decide)] at hlt
    exact ⟨⟨rfl, hstores.size_le, rfl, Nat.one_pos, Nat.one_le_of_lt (by decide : 1 < 21),
      hlt⟩, rfl⟩

/-- The object after a call that returned. -/
def next (line : CString) (o : LogObject) : LogObject :=
  if o.FlushDue line then
    if o.SplitDue then o.written.rotated.stored line else o.written.stored line
  else o.stored line

theorem size_le_stored {o : LogObject} (line : CString)
    (hsize : o.logger.size.toNat ≤ o.logger.buffer.length) :
    (o.stored line).logger.size.toNat ≤ (o.stored line).logger.buffer.length := by
  show (o.logger.size + BitVec.ofNat 32 line.chars.length).toNat ≤ _
  have hused : (o.logger.buffer.take o.logger.size.toNat ++ line.chars).length =
      o.logger.size.toNat + line.chars.length := by
    rw [List.length_append, List.length_take_of_le hsize]
  have hle : (o.logger.size + BitVec.ofNat 32 line.chars.length).toNat ≤
      o.logger.size.toNat + line.chars.length := by
    rw [BitVec.toNat_add, BitVec.toNat_ofNat]
    omega
  refine hle.trans ?_
  show _ ≤ (_ ++ _ : List Char).length
  rw [List.length_append, hused]
  exact Nat.le_add_right _ _

/-- The call needs one part more than there may be. -/
def SplitsAt (n : Nat) (o : LogObject) (line : CString) : Prop :=
  o.FlushDue line ∧ o.SplitDue ∧ o.logger.fileNums.toNat = n

instance (n : Nat) (o : LogObject) (line : CString) : Decidable (SplitsAt n o line) :=
  inferInstanceAs (Decidable (_ ∧ _))

/-- A stored line keeps the object sound, -/
theorem Sound.stored {o : LogObject} (hs : o.Sound) (line : CString) : (o.stored line).Sound where
  free := hs.free
  size_le := size_le_stored line hs.size_le
  opened := hs.opened
  fileNums_pos := hs.fileNums_pos
  fileNums_le := hs.fileNums_le
  name_lt := hs.name_lt

/-- a written buffer does, -/
theorem Sound.written {o : LogObject} (hs : o.Sound) : o.written.Sound where
  free := hs.free
  size_le := Nat.zero_le _
  opened := hs.opened
  fileNums_pos := hs.fileNums_pos
  fileNums_le := hs.fileNums_le
  name_lt := hs.name_lt

/-- and a new part does, up to part 21. -/
theorem Sound.rotated {o : LogObject} (hs : o.Sound) (hlt : o.logger.fileNums.toNat < 21) :
    o.rotated.Sound := by
  have hsucc : (o.logger.fileNums + 1).toNat = o.logger.fileNums.toNat + 1 := by bv_omega
  refine ⟨hs.free, hs.size_le, ?_, ?_, ?_, hs.name_lt⟩
  · show (o.opened ++ [_]).length = (o.logger.fileNums + 1).toNat
    rw [List.length_append, List.length_singleton, hs.opened, hsucc]
  · show 0 < (o.logger.fileNums + 1).toNat
    omega
  · show (o.logger.fileNums + 1).toNat ≤ 21
    omega

/-- Part 22 is not opened: the call throws with the buffer written and the mutex held. -/
theorem logline_of_splitsAt {o : LogObject} {line : CString} (hs : o.Sound)
    (h : SplitsAt 21 o line) : o.logline line =
      some (.error .tooManyLogs ({ o with locked := true } : LogObject).written) := by
  obtain ⟨hdue, hsplit, hlast⟩ := h
  have hnums : o.logger.fileNums > biggestFileNums := by
    show (20 : Nat) < _
    omega
  rw [logline_of_free hs.free, loglineLocked_of_throw (o := { o with locked := true }) hdue]
  rw [flush_of_splitDue (o := { o with locked := true }) hsplit]
  exact splitFile_of_gt (o := ({ o with locked := true } : LogObject).written) hnums

/-- **One call.** On a sound object `Logline` either returns, leaving a sound object, or, when it
would have to open part 22, throws and leaves the mutex held. -/
theorem call_cases {o : LogObject} (hs : o.Sound) (line : CString) :
    (¬ SplitsAt 21 o line ∧ o.logline line = some (.ok () (o.next line)) ∧ (o.next line).Sound) ∨
    (SplitsAt 21 o line ∧ ∃ o', o.logline line = some (.error .tooManyLogs o') ∧
      o'.locked = true ∧ o'.opened = o.opened) := by
  have hcall := logline_of_free hs.free line
  by_cases hdue : o.FlushDue line
  · by_cases hsplit : o.SplitDue
    · by_cases hlast : o.logger.fileNums.toNat = 21
      · have hsplits : SplitsAt 21 o line := ⟨hdue, hsplit, hlast⟩
        exact Or.inr ⟨hsplits, _, logline_of_splitsAt hs hsplits, rfl, rfl⟩
      · have hlt : o.logger.fileNums.toNat < 21 := lt_of_le_of_ne hs.fileNums_le hlast
        have hnums : ¬ o.logger.fileNums > biggestFileNums := by
          show ¬ (20 : Nat) < _
          omega
        have hsucc : (o.logger.fileNums + 1).toNat = o.logger.fileNums.toNat + 1 := by bv_omega
        have hname : o.nextName.length < partialFileNameSize := by
          rw [nextName, length_partialFileName (by omega)]
          exact hs.name_lt
        have hflush : flush { o with locked := true } =
            .ok () ({ o with locked := true } : LogObject).written.rotated := by
          rw [flush_of_splitDue (o := { o with locked := true }) hsplit]
          exact splitFile_of_le (o := ({ o with locked := true } : LogObject).written) hnums hname
        have hstored : o.next line = o.written.rotated.stored line := by
          rw [next, if_pos hdue, if_pos hsplit]
        rw [hstored]
        refine Or.inl ⟨fun h => hlast h.2.2, ?_, (hs.written.rotated hlt).stored line⟩
        rw [hcall, loglineLocked_of_flush (o := { o with locked := true }) hdue hflush
          (Nat.zero_le _), ← hs.free]
        rfl
    · have hstored : o.next line = o.written.stored line := by
        rw [next, if_pos hdue, if_neg hsplit]
      rw [hstored]
      refine Or.inl ⟨fun h => hsplit h.2.1, ?_, hs.written.stored line⟩
      rw [hcall, loglineLocked_of_flush (o := { o with locked := true }) hdue
        (flush_of_not_splitDue (o := { o with locked := true }) hsplit) (Nat.zero_le _), ← hs.free]
      rfl
  · have hstored : o.next line = o.stored line := by rw [next, if_neg hdue]
    rw [hstored]
    refine Or.inl ⟨fun h => hdue h.1, ?_, hs.stored line⟩
    rw [hcall, loglineLocked_of_not_flushDue (o := { o with locked := true }) hdue hs.size_le,
      ← hs.free]
    rfl

end LogObject

end PEReplay
