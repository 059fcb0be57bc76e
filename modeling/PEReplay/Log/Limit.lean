/-
# PEReplay.Log.Limit — how many parts a log has, and what happens at the limit.

`SplitFile` compares `m_file_nums`, the number of the open part, with `BIGGEST_FILE_NUMS` before it
opens the next one, and only throws when the open part is already number 21.  So the log may have 21
parts (`opened_le_iff`), and the flush that would open the 22nd throws with `m_log_mutex` held, so
that no later call on the logger finishes (`mutex_released_iff`).
-/
import PEReplay.Log.Calls

namespace PEReplay

namespace LogObject

/-! ## Runs -/

/-- `P` holds of the object and the line at every call of the run. -/
def Along (P : LogObject → CString → Prop) : List CString → LogObject → Prop
  | [], _ => True
  | line :: lines, o => P o line ∧ ∀ r, o.logline line = some r → Along P lines (after r)

theorem along_of_initial {P : LogObject → CString → Prop} {pre lines : List CString} {o : LogObject}
    (hpre : pre <+: lines) (h : Along P lines o) : Along P pre o := by
  induction pre generalizing lines o with
  | nil => trivial
  | cons line pre ih =>
      obtain ⟨rest, rfl⟩ := hpre
      obtain ⟨hline, hrest⟩ := h
      exact ⟨hline, fun r hr => ih ⟨rest, rfl⟩ (hrest r hr)⟩

theorem loglines_cons {line : CString} {lines : List CString} {o : LogObject} {r : Outcome}
    (h : o.logline line = some r) : loglines (line :: lines) o = loglines lines (after r) := by
  rw [loglines, h, Option.bind_some]

theorem loglines_append (lines lines' : List CString) (o : LogObject) :
    loglines (lines ++ lines') o = (loglines lines o).bind (loglines lines') := by
  induction lines generalizing o with
  | nil => rfl
  | cons line lines ih =>
      rw [List.cons_append, loglines, loglines]
      cases o.logline line with
      | none => rfl
      | some r => exact ih (after r)

theorem loglines_of_locked {line : CString} {lines : List CString} {o : LogObject}
    (h : o.locked = true) : loglines (line :: lines) o = none := by
  rw [loglines, logline_of_locked h, Option.bind_none]

/-! ## The mutex -/

/-- Every call of the run finishes, the mutex is free after the last of them, and the next `Logline`
and the destructor get it. -/
def ReleasesMutex (lines : List CString) (o : LogObject) : Prop :=
  ∃ o', loglines lines o = some o' ∧ o'.locked = false ∧
    (∀ line, o'.logline line ≠ none) ∧ o'.destroy ≠ none

theorem Sound.releases {o : LogObject} (hs : o.Sound) : o.ReleasesMutex [] := by
  refine ⟨o, rfl, hs.free, fun line => ?_, ?_⟩
  · rw [logline_of_free hs.free]
    exact Option.some_ne_none _
  · rw [destroy, lockThen, if_neg (by simp [hs.free])]
    exact Option.some_ne_none _

/-- **Run**, from any sound object. -/
theorem Sound.releasesMutex_iff {o : LogObject} (hs : o.Sound) (lines : List CString) :
    ReleasesMutex lines o ↔ Along (fun o line => ¬ SplitsAt 21 o line) lines o := by
  induction lines generalizing o with
  | nil => exact ⟨fun _ => trivial, fun _ => hs.releases⟩
  | cons line lines ih =>
      obtain ⟨hsplits, hcall, hnext⟩ | ⟨hsplits, o', hcall, hlocked, -⟩ := call_cases hs line
      · have hrest := ih hnext
        simp only [ReleasesMutex, loglines_cons hcall, Along, hcall, Option.some.injEq] at hrest ⊢
        constructor
        · intro h
          refine ⟨hsplits, ?_⟩
          rintro r rfl
          exact hrest.mp h
        · rintro ⟨-, h⟩
          exact hrest.mpr (h _ rfl)
      · -- the call throws, and whatever comes next finds the mutex held
        refine ⟨fun ⟨o₂, hrun, hfree, _⟩ => ?_, fun h => absurd hsplits h.1⟩
        rw [loglines_cons hcall] at hrun
        cases lines with
        | nil =>
            obtain rfl := Option.some.inj hrun
            exact absurd (hlocked.symm.trans hfree) (by decide)
        | cons line' lines =>
            have hnone : loglines (line' :: lines) o' = none := loglines_of_locked hlocked
            exact absurd (hnone.symm.trans hrun) (by simp)

/-- **When `Logline` gives the mutex back.** In a run of calls on a new logger the mutex is released
after every call, however it ends, exactly when no call has to flush, to a part that thereby reaches
`BIGGEST_FILE_SIZE`, with part 21 open. -/
theorem mutex_released_iff (filename : CString) (disk : Disk) (o : LogObject)
    (hnew : construct filename disk = .ok o) (lines : List CString) :
    (∀ pre, pre <+: lines → ReleasesMutex pre o) ↔
      Along (fun o line => ¬ SplitsAt 21 o line) lines o := by
  have hs := (sound_construct hnew).1
  constructor
  · intro h
    exact (hs.releasesMutex_iff lines).mp (h lines List.prefix_rfl)
  · intro h pre hpre
    exact (hs.releasesMutex_iff pre).mpr (along_of_initial hpre h)

/-! ## The number of parts -/

theorem next_fileNums {o : LogObject} (hs : o.Sound) (line : CString) :
    (o.next line).logger.fileNums.toNat =
      if o.FlushDue line ∧ o.SplitDue then o.logger.fileNums.toNat + 1
      else o.logger.fileNums.toNat := by
  have hle := hs.fileNums_le
  have hsucc : (o.logger.fileNums + 1).toNat = o.logger.fileNums.toNat + 1 := by bv_omega
  by_cases hdue : o.FlushDue line
  · by_cases hsplit : o.SplitDue
    · rw [next, if_pos hdue, if_pos hsplit, if_pos ⟨hdue, hsplit⟩, ← hsucc]
      rfl
    · rw [next, if_pos hdue, if_neg hsplit, if_neg (fun h => hsplit h.2)]
      rfl
  · rw [next, if_neg hdue, if_neg (fun h => hdue h.1)]
    rfl

/-- **Run**, from any sound object with at most twenty parts. -/
theorem Sound.along_opened_iff {o : LogObject} (hs : o.Sound) (hle : o.logger.fileNums.toNat ≤ 20)
    (lines : List CString) :
    (∀ pre, pre <+: lines → ∀ o', loglines pre o = some o' → o'.opened.length ≤ 20) ↔
      Along (fun o line => ¬ SplitsAt 20 o line) lines o := by
  induction lines generalizing o with
  | nil =>
      refine ⟨fun _ => trivial, fun _ pre hpre o' hrun => ?_⟩
      obtain rfl := List.prefix_nil.mp hpre
      obtain rfl := Option.some.inj hrun
      rw [hs.opened]
      exact hle
  | cons line lines ih =>
      obtain ⟨-, hcall, hnext⟩ | ⟨⟨-, -, hnums⟩, -⟩ := call_cases hs line
      · have hnums := next_fileNums hs line
        by_cases hsplits : SplitsAt 20 o line
        · -- the twenty-first part is opened
          refine ⟨fun h => ?_, fun h => absurd hsplits h.1⟩
          have hone := h [line] ⟨lines, rfl⟩ (o.next line) (loglines_cons hcall)
          rw [hnext.opened, hnums, if_pos ⟨hsplits.1, hsplits.2.1⟩, hsplits.2.2] at hone
          omega
        · have hle' : (o.next line).logger.fileNums.toNat ≤ 20 := by
            rw [hnums]
            split
            · rename_i hboth
              have : o.logger.fileNums.toNat ≠ 20 := fun h => hsplits ⟨hboth.1, hboth.2, h⟩
              omega
            · exact hle
          constructor
          · intro h
            refine ⟨hsplits, fun r hr => ?_⟩
            rw [hcall] at hr
            obtain rfl := Option.some.inj hr
            refine (ih hnext hle').mp fun pre hpre o' hrun => ?_
            refine h (line :: pre) (List.cons_prefix_cons.mpr ⟨rfl, hpre⟩) o' ?_
            rw [loglines_cons hcall]
            exact hrun
          · rintro ⟨-, hrest⟩ pre hpre o' hrun
            cases pre with
            | nil =>
                obtain rfl := Option.some.inj hrun
                rw [hs.opened]
                exact hle
            | cons line' pre =>
                obtain ⟨rfl, htail⟩ := List.cons_prefix_cons.mp hpre
                rw [loglines_cons hcall] at hrun
                exact (ih hnext hle').mpr (hrest _ hcall) pre htail o' hrun
      · omega

/-- **How many parts there are.** A run of calls on a new logger never has more than
`BIGGEST_FILE_NUMS` files opened exactly when no call has to flush, to a part that thereby reaches
`BIGGEST_FILE_SIZE`, with part 20 open. -/
theorem opened_le_iff (filename : CString) (disk : Disk) (o : LogObject)
    (hnew : construct filename disk = .ok o) (lines : List CString) :
    (∀ pre, pre <+: lines → ∀ o', loglines pre o = some o' →
        o'.opened.length ≤ biggestFileNums.toNat) ↔
      Along (fun o line => ¬ SplitsAt 20 o line) lines o := by
  obtain ⟨hs, hone⟩ := sound_construct hnew
  refine hs.along_opened_iff ?_ lines
  rw [hone]
  decide

section Samples

/-! A run of lines of 100 MB closes a part with every line but the first. -/

/-- Part `k` is open and empty, and the buffer holds 100 MB. -/
structure Loaded (k : Nat) (o : LogObject) : Prop where
  sound : o.Sound
  size : o.logger.size = biggestFileSize
  fileSize : o.logger.fileSize = 0
  fileNums : o.logger.fileNums.toNat = k

variable {line : CString}

theorem Loaded.splitsAt (hline : BitVec.ofNat 32 line.chars.length = biggestFileSize) {k : Nat}
    {o : LogObject} (h : Loaded k o) : SplitsAt k o line := by
  refine ⟨?_, ?_, h.fileNums⟩
  · rw [FlushDue, hline, h.size]
    decide
  · rw [SplitDue, h.size, h.fileSize]
    decide

/-- The buffer and the open part after a call that flushed. -/
theorem loaded_of_flushDue (hline : BitVec.ofNat 32 line.chars.length = biggestFileSize)
    {o : LogObject} (hdue : o.FlushDue line)
    (hsize : o.SplitDue ∨ o.logger.fileSize + o.logger.size = 0) :
    (o.next line).logger.size = biggestFileSize ∧ (o.next line).logger.fileSize = 0 := by
  have hzero : 0 + BitVec.ofNat 32 line.chars.length = biggestFileSize := by
    rw [hline]
    decide
  by_cases hsplit : o.SplitDue
  · rw [next, if_pos hdue, if_pos hsplit]
    exact ⟨hzero, rfl⟩
  · rw [next, if_pos hdue, if_neg hsplit]
    exact ⟨hzero, hsize.resolve_left hsplit⟩

/-- Up to part 20, one more such line closes the part that the last one goes to. -/
theorem Loaded.next (hline : BitVec.ofNat 32 line.chars.length = biggestFileSize) {k : Nat}
    {o : LogObject} (h : Loaded k o) (hk : k ≤ 20) :
    o.logline line = some (.ok () (o.next line)) ∧ Loaded (k + 1) (o.next line) := by
  obtain ⟨hdue, hsplit, -⟩ := h.splitsAt hline
  obtain ⟨-, hcall, hnext⟩ | ⟨⟨-, -, hnums⟩, -⟩ := call_cases h.sound line
  · obtain ⟨hsize, hfile⟩ := loaded_of_flushDue hline hdue (Or.inl hsplit)
    refine ⟨hcall, hnext, hsize, hfile, ?_⟩
    rw [next_fileNums h.sound, if_pos ⟨hdue, hsplit⟩, h.fileNums]
  · have := h.fileNums
    omega

theorem Loaded.loglines (hline : BitVec.ofNat 32 line.chars.length = biggestFileSize) {k n : Nat}
    {o : LogObject} (h : Loaded k o) (hn : k + n ≤ 21) :
    ∃ o', loglines (List.replicate n line) o = some o' ∧ Loaded (k + n) o' := by
  induction n generalizing k o with
  | zero => exact ⟨o, rfl, h⟩
  | succ n ih =>
      obtain ⟨hcall, hnext⟩ := h.next hline (by omega)
      obtain ⟨o', hrun, hloaded⟩ := ih hnext (by omega)
      refine ⟨o', ?_, ?_⟩
      · rw [List.replicate_succ, loglines_cons hcall]
        exact hrun
      · rw [show k + (n + 1) = k + 1 + n from by omega]
        exact hloaded

/-- The object behind a new `a_001.clg`. -/
def sampleObject : LogObject :=
  ⟨sampleLogger, Disk.trunc (fun _ => []) sampleLogger.out, false, [sampleLogger.out]⟩

theorem construct_sampleObject : construct sampleFilename (fun _ => []) = .ok sampleObject := rfl

/-- After `k` such lines on the new object part `k` is open, -/
theorem exists_loaded (hline : BitVec.ofNat 32 line.chars.length = biggestFileSize) {n : Nat}
    (hn : n ≤ 20) :
    ∃ o, loglines (List.replicate (1 + n) line) sampleObject = some o ∧ Loaded (1 + n) o := by
  have hs := (sound_construct construct_sampleObject).1
  have hdue : sampleObject.FlushDue line := by
    rw [FlushDue, hline]
    decide
  have hsplit : ¬ sampleObject.SplitDue := by
    rw [SplitDue]
    decide
  obtain ⟨-, hcall, hnext⟩ | ⟨⟨-, hsplit', -⟩, -⟩ := call_cases hs line
  · obtain ⟨hsize, hfile⟩ := loaded_of_flushDue hline hdue (Or.inr rfl)
    have hone : Loaded 1 (sampleObject.next line) := by
      refine ⟨hnext, hsize, hfile, ?_⟩
      rw [next_fileNums hs, if_neg fun h => hsplit h.2]
      rfl
    obtain ⟨o, hrun, hlast⟩ := hone.loglines hline (n := n) (by omega)
    refine ⟨o, ?_, hlast⟩
    rw [Nat.add_comm, List.replicate_succ, loglines_cons hcall]
    exact hrun
  · exact absurd hsplit' hsplit

/-- and `k` files have been opened. -/
theorem Loaded.length_opened {k : Nat} {o : LogObject} (h : Loaded k o) : o.opened.length = k := by
  rw [h.sound.opened, h.fileNums]

/-- Twenty-one lines of 100 MB each open twenty-one files. -/
theorem twenty_one_opened : construct sampleFilename (fun _ => []) = .ok sampleObject ∧
    ∃ lines o, LogObject.loglines lines sampleObject = some o ∧
      ¬ o.opened.length ≤ biggestFileNums.toNat := by
  refine ⟨construct_sampleObject, ?_⟩
  obtain ⟨o, hrun, hlast⟩ := exists_loaded longLine_length (n := 20) le_rfl
  refine ⟨_, o, hrun, ?_⟩
  rw [hlast.length_opened]
  decide

/-- Two such lines, of which the second closes part 1. -/
theorem opened_le_iff_sample :
    (∃ o, loglines [longLine, longLine] sampleObject = some o ∧ o.opened.length = 2) ∧
    ((∀ pre, pre <+: [longLine, longLine] → ∀ o', LogObject.loglines pre sampleObject = some o' →
        o'.opened.length ≤ biggestFileNums.toNat) ↔
      Along (fun o line => ¬ SplitsAt 20 o line) [longLine, longLine] sampleObject) := by
  obtain ⟨o, hrun, hlast⟩ := exists_loaded longLine_length (n := 1) (by decide)
  exact ⟨⟨o, hrun, hlast.length_opened⟩,
    opened_le_iff sampleFilename (fun _ => []) sampleObject rfl [longLine, longLine]⟩

/-- The twenty-second throws, and neither a further call nor the destructor finishes. -/
theorem mutex_kept : construct sampleFilename (fun _ => []) = .ok sampleObject ∧
    ∃ lines o, LogObject.loglines lines sampleObject = some o ∧ o.locked = true ∧
      (∀ line, o.logline line = none) ∧ o.destroy = none := by
  refine ⟨construct_sampleObject, ?_⟩
  obtain ⟨o, hrun, hlast⟩ := exists_loaded longLine_length (n := 20) le_rfl
  obtain ⟨hno, -⟩ | ⟨-, o', hcall, hlocked, -⟩ := call_cases hlast.sound longLine
  · exact absurd (hlast.splitsAt longLine_length) hno
  · refine ⟨List.replicate 21 longLine ++ [longLine], o', ?_, hlocked,
      fun line => logline_of_locked hlocked line, ?_⟩
    · rw [loglines_append, hrun, Option.bind_some, loglines_cons hcall]
      rfl
    · rw [destroy, lockThen, if_pos hlocked]

theorem mutex_released_iff_sample :
    (∃ o, loglines [longLine, longLine] sampleObject = some o ∧ o.opened.length = 2) ∧
    ((∀ pre, pre <+: [longLine, longLine] → ReleasesMutex pre sampleObject) ↔
      Along (fun o line => ¬ SplitsAt 21 o line) [longLine, longLine] sampleObject) := by
  obtain ⟨o, hrun, hlast⟩ := exists_loaded longLine_length (n := 1) (by decide)
  exact ⟨⟨o, hrun, hlast.length_opened⟩,
    mutex_released_iff sampleFilename (fun _ => []) sampleObject rfl [longLine, longLine]⟩

end Samples

end LogObject

end PEReplay
