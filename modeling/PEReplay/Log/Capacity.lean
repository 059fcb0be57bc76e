/-
# PEReplay.Log.Capacity — how much a log takes before it throws.

A part is closed when it has reached `BIGGEST_FILE_SIZE`, and part 21 is the last.  So a log takes
21 times 100 MB, however the text is cut into lines and whichever thread brings them: below that no
call throws, the destructor does not either, and the parts hold all of the text.

`Holds` adds to `Stores` and `Sound` what ties the counters to the text: every part but the open one
is full.  `Holds.next` is the step, `never_throws` reads the runs off.
-/
import PEReplay.Log.Calls

namespace PEReplay

/-- What twenty-one parts take. -/
def logCapacity : Nat := 21 * biggestFileSize.toNat

namespace LogObject

/-- The object after a flush that returned. -/
def flushed (o : LogObject) : LogObject := if o.SplitDue then o.written.rotated else o.written

/-- Every part but the open one is full: how much text the counters stand for, at least. -/
def counted (l : Logger) : Nat :=
  (l.fileNums.toNat - 1) * biggestFileSize.toNat + l.fileSize.toNat + l.size.toNat

/-! ## The invariant -/

/-- A sound object that stores the lines, with every part but the open one full. -/
structure Holds (o : LogObject) (lines : List CString) : Prop where
  sound : o.Sound
  stores : Stores o.logger o.disk lines
  full : counted o.logger ≤ (logText lines).length

theorem toNat_biggestFileSize : biggestFileSize.toNat = 104857600 := rfl

theorem holds_construct {filename : CString} {disk : Disk} {o : LogObject}
    (h : construct filename disk = .ok o) : o.Holds [] := by
  obtain ⟨hs, hone⟩ := sound_construct h
  obtain ⟨⟨l, disk₀⟩, hnew, h⟩ := exceptBind_ok h
  obtain rfl := Except.ok.inj h
  have hstores := stores_construct hnew
  unfold Logger.construct at hnew
  split at hnew
  · exact absurd hnew (by simp)
  · obtain ⟨name, -, hnew⟩ := exceptBind_ok hnew
    obtain ⟨rfl, rfl⟩ := Prod.mk.inj (Except.ok.inj hnew)
    exact ⟨hs, hstores, by simp [counted, logText]⟩

section Step

variable {o : LogObject} {lines : List CString}

/-- The two counters of a part do not wrap. -/
theorem Holds.toNat_fileSize_add (h : o.Holds lines) (hlt : (logText lines).length < logCapacity) :
    (o.logger.fileSize + o.logger.size).toNat =
      o.logger.fileSize.toNat + o.logger.size.toNat := by
  have hfull := h.full
  rw [counted] at hfull
  rw [logCapacity, toNat_biggestFileSize] at hlt
  rw [BitVec.toNat_add, Nat.mod_eq_of_lt (by omega)]

theorem Holds.splitDue_iff (h : o.Holds lines) (hlt : (logText lines).length < logCapacity) :
    o.SplitDue ↔ biggestFileSize.toNat ≤ o.logger.fileSize.toNat + o.logger.size.toNat := by
  rw [← h.toNat_fileSize_add hlt]
  exact BitVec.le_def

/-- Below the capacity a part that is closed is not the last. -/
theorem Holds.fileNums_le_of_splitDue (h : o.Holds lines)
    (hlt : (logText lines).length < logCapacity) (hsplit : o.SplitDue) :
    o.logger.fileNums.toNat ≤ 20 := by
  have hfull := h.full
  have hpos := h.sound.fileNums_pos
  have hdue := (h.splitDue_iff hlt).mp hsplit
  rw [logCapacity, toNat_biggestFileSize] at hlt
  rw [toNat_biggestFileSize] at hdue
  rw [counted, toNat_biggestFileSize] at hfull
  omega

theorem toNat_fileNums_succ (hs : o.Sound) :
    (o.logger.fileNums + 1).toNat = o.logger.fileNums.toNat + 1 := by
  have := hs.fileNums_le
  bv_omega

/-- Closing a part that is full leaves every part but the open one full. -/
theorem Holds.full_flushed (h : o.Holds lines) (hlt : (logText lines).length < logCapacity) :
    counted o.flushed.logger ≤ (logText lines).length := by
  have hfull := h.full
  have hpos := h.sound.fileNums_pos
  have hsum := h.toNat_fileSize_add hlt
  rw [counted] at hfull
  by_cases hsplit : o.SplitDue
  · have hdue := (h.splitDue_iff hlt).mp hsplit
    have hcounted : counted o.flushed.logger =
        ((o.logger.fileNums + 1).toNat - 1) * biggestFileSize.toNat := by
      rw [flushed, if_pos hsplit]
      simp [counted, rotated, written]
    have hone : o.logger.fileNums.toNat * biggestFileSize.toNat =
        (o.logger.fileNums.toNat - 1) * biggestFileSize.toNat + biggestFileSize.toNat := by
      rw [← Nat.succ_mul, Nat.succ_eq_add_one, Nat.sub_add_cancel hpos]
    rw [hcounted, toNat_fileNums_succ h.sound, Nat.add_sub_cancel, hone]
    omega
  · have hcounted : counted o.flushed.logger = (o.logger.fileNums.toNat - 1) *
        biggestFileSize.toNat + (o.logger.fileSize + o.logger.size).toNat := by
      rw [flushed, if_neg hsplit]
      simp only [counted, written]
      exact Nat.add_zero _
    rw [hcounted, hsum]
    omega

/-- A line adds its length at most. -/
theorem counted_stored (o : LogObject) (line : CString) :
    counted (o.stored line).logger ≤ counted o.logger + line.chars.length := by
  have hle : (o.logger.size + BitVec.ofNat 32 line.chars.length).toNat ≤
      o.logger.size.toNat + line.chars.length := by
    rw [BitVec.toNat_add, BitVec.toNat_ofNat]
    omega
  simp only [counted, stored]
  omega

theorem next_eq (o : LogObject) (line : CString) :
    o.next line = (if o.FlushDue line then o.flushed else o).stored line := by
  unfold next flushed
  split_ifs <;> rfl

theorem Holds.full_next (h : o.Holds lines) (hlt : (logText lines).length < logCapacity)
    (line : CString) :
    counted (o.next line).logger ≤ (logText (lines ++ [line])).length := by
  rw [logText_append_singleton, List.length_append, next_eq]
  refine (counted_stored _ line).trans (Nat.add_le_add_right ?_ _)
  split_ifs
  · exact h.full_flushed hlt
  · exact h.full

/-- Below the capacity `Logline` returns. -/
theorem Holds.logline_ok (h : o.Holds lines) (hlt : (logText lines).length < logCapacity)
    (line : CString) : o.logline line = some (.ok () (o.next line)) ∧ (o.next line).Sound := by
  obtain ⟨-, hcall, hsound⟩ | ⟨⟨-, hsplit, hlast⟩, -⟩ := call_cases h.sound line
  · exact ⟨hcall, hsound⟩
  · have hle := h.fileNums_le_of_splitDue hlt hsplit
    omega

theorem Holds.logline_eq (h : o.Holds lines) (hlt : (logText lines).length < logCapacity)
    (line : CString) :
    o.logger.logline o.disk line = .ok ((o.next line).logger, (o.next line).disk) := by
  obtain ⟨hcall, -⟩ := h.logline_ok hlt line
  obtain ⟨r, hr, hreturned⟩ := logline_outcome h.sound.free h.sound.size_le
  obtain rfl := Option.some.inj (hcall.symm.trans hr)
  exact hreturned.symm

/-- **Step.** Below the capacity `Logline` returns, and its line is stored with the others. -/
theorem Holds.next (h : o.Holds lines) {line : CString}
    (hlt : (logText (lines ++ [line])).length < logCapacity) :
    (o.next line).Holds (lines ++ [line]) := by
  have hlen : (logText (lines ++ [line])).length = (logText lines).length + line.chars.length := by
    rw [logText_append_singleton, List.length_append]
  have hlt₀ : (logText lines).length < logCapacity := by omega
  have hfit : FitsSum o.logger line := by
    have hfull := h.full
    rw [counted] at hfull
    rw [logCapacity, toNat_biggestFileSize] at hlt
    unfold FitsSum
    omega
  exact ⟨(h.logline_ok hlt₀ line).2, h.stores.logline hfit (h.logline_eq hlt₀ line),
    h.full_next hlt₀ line⟩

/-- Below the capacity a flush returns. -/
theorem Holds.flush_ok (h : o.Holds lines) (hlt : (logText lines).length < logCapacity)
    (b : Bool) : flush { o with locked := b } = .ok () { o.flushed with locked := b } := by
  by_cases hsplit : o.SplitDue
  · have hle := h.fileNums_le_of_splitDue hlt hsplit
    have hnums : ¬ o.logger.fileNums > biggestFileNums := by
      show ¬ (20 : Nat) < _
      omega
    have hname : o.nextName.length < partialFileNameSize := by
      rw [nextName, length_partialFileName (by rw [toNat_fileNums_succ h.sound]; omega)]
      exact h.sound.name_lt
    rw [flushed, if_pos hsplit, flush_of_splitDue (o := { o with locked := b }) hsplit]
    exact splitFile_of_le (o := ({ o with locked := b } : LogObject).written) hnums hname
  · rw [flushed, if_neg hsplit]
    exact flush_of_not_splitDue (o := { o with locked := b }) hsplit

/-- Below the capacity the destructor returns, -/
theorem Holds.destroy_ok (h : o.Holds lines) (hlt : (logText lines).length < logCapacity) :
    o.destroy = some (.ok () { o.flushed with locked := false }) := by
  have hflush := h.flush_ok hlt true
  simp only [destroy, lockThen, h.sound.free, bind, EStateM.bind, hflush, mutexUnlock]
  rfl

theorem Holds.destroy_eq (h : o.Holds lines) (hlt : (logText lines).length < logCapacity) :
    o.logger.destroy o.disk = .ok (o.flushed.logger, o.flushed.disk) := by
  have hreturned := flush_returned { o with locked := true }
  rw [h.flush_ok hlt true] at hreturned
  exact hreturned.symm

theorem Holds.stores_flushed (h : o.Holds lines) (hlt : (logText lines).length < logCapacity) :
    Stores o.flushed.logger o.flushed.disk lines ∧ o.flushed.logger.size = 0 := by
  obtain ⟨hstores, hsize, -⟩ := h.stores.flush (h.destroy_eq hlt)
  exact ⟨hstores, hsize⟩

/-- the parts are then the text, -/
theorem Holds.parts_flushed (h : o.Holds lines) (hlt : (logText lines).length < logCapacity) :
    o.flushed.logger.parts o.flushed.disk = logText lines := by
  obtain ⟨hstores, hsize⟩ := h.stores_flushed hlt
  have htext := hstores.text
  rw [hsize] at htext
  simpa using htext

/-- and there is one of them for each full 100 MB and one more. -/
theorem Holds.fileNums_flushed (h : o.Holds lines) (hlt : (logText lines).length < logCapacity) :
    o.flushed.logger.fileNums.toNat ≤ (logText lines).length / biggestFileSize.toNat + 1 := by
  have hfull := h.full_flushed hlt
  rw [counted] at hfull
  rw [← Nat.sub_le_iff_le_add, Nat.le_div_iff_mul_le (by decide)]
  omega

end Step

end LogObject

/-! ## Any number of threads -/

open LogObject in
/-- **Run.** As long as the text is below the capacity, the logger is that of an object that holds
the lines. -/
theorem exists_holds_of_reachable {filename : CString} {disk disk₀ : Disk} {l₀ : Logger}
    {s : Monitor.State (Logger × Disk) CString}
    (hnew : Logger.construct filename disk = .ok (l₀, disk₀))
    (h : Monitor.Reachable loglineStep (fun _ _ => True) (l₀, disk₀) s)
    (hlt : (logText s.done).length < logCapacity) :
    ∃ o : LogObject, o.logger = s.object.1 ∧ o.disk = s.object.2 ∧ o.Holds s.done := by
  revert hlt
  refine h.rule (fun x lines => (logText lines).length < logCapacity →
    ∃ o : LogObject, o.logger = x.1 ∧ o.disk = x.2 ∧ o.Holds lines) ?_ ?_
  · intro _
    have hconstruct : LogObject.construct filename disk =
        .ok ⟨l₀, disk₀, false, [l₀.out]⟩ := by
      simp only [LogObject.construct, hnew, bind, Except.bind, pure, Except.pure]
    exact ⟨_, rfl, rfl, holds_construct hconstruct⟩
  · intro x lines line x' ih _ hstep hlt
    have hle : (logText lines).length ≤ (logText (lines ++ [line])).length := by
      rw [logText_append_singleton, List.length_append]
      exact Nat.le_add_right _ _
    obtain ⟨o, hl, hd, ho⟩ := ih (lt_of_le_of_lt hle hlt)
    have hcall := ho.logline_eq (lt_of_le_of_lt hle hlt) line
    rw [hl, hd, loglineStep_eq_some hstep] at hcall
    obtain rfl := Except.ok.inj hcall
    exact ⟨o.next line, rfl, rfl, ho.next hlt⟩

open LogObject in
/-- Conversely every list of lines below the capacity is logged by some run. -/
theorem exists_run {filename : CString} {disk disk₀ : Disk} {l₀ : Logger}
    (admits : Logger × Disk → CString → Prop) (lines : List CString)
    (hnew : Logger.construct filename disk = .ok (l₀, disk₀))
    (hadmits : ∀ x, ∀ line ∈ lines, admits x line) (hlt : (logText lines).length < logCapacity) :
    ∃ s, Monitor.Reachable loglineStep admits (l₀, disk₀) s ∧ s.done = lines := by
  have hconstruct : LogObject.construct filename disk = .ok ⟨l₀, disk₀, false, [l₀.out]⟩ := by
    simp only [LogObject.construct, hnew, bind, Except.bind, pure, Except.pure]
  have hinit : ∃ o : LogObject, o.logger = (l₀, disk₀).1 ∧ o.disk = (l₀, disk₀).2 ∧ o.Holds [] :=
    ⟨_, rfl, rfl, holds_construct hconstruct⟩
  have hop : ∀ (x : Logger × Disk) (pre : List CString) (line : CString),
      (∃ o : LogObject, o.logger = x.1 ∧ o.disk = x.2 ∧ o.Holds pre) → pre ++ [line] <+: lines →
      admits x line ∧ ∃ x', loglineStep x line = some x' ∧
        ∃ o : LogObject, o.logger = x'.1 ∧ o.disk = x'.2 ∧ o.Holds (pre ++ [line]) := by
    rintro x pre line ⟨o, hl, hd, ho⟩ ⟨rest, hrest⟩
    have hline : line ∈ lines := by
      rw [← hrest]
      simp
    have hlt' : (logText (pre ++ [line])).length < logCapacity := by
      refine lt_of_le_of_lt ?_ hlt
      rw [← hrest, logText_append (pre ++ [line]), List.length_append]
      exact Nat.le_add_right _ _
    have hlt₀ : (logText pre).length < logCapacity := by
      refine lt_of_le_of_lt ?_ hlt'
      rw [logText_append_singleton, List.length_append]
      exact Nat.le_add_right _ _
    refine ⟨hadmits x line hline, ((o.next line).logger, (o.next line).disk), ?_,
      o.next line, rfl, rfl, ho.next hlt'⟩
    unfold loglineStep
    rw [← hl, ← hd, ho.logline_eq hlt₀ line]
    rfl
  obtain ⟨s, hs, -, hdone, -⟩ := Monitor.exists_reachable
    (fun (x : Logger × Disk) pre => ∃ o : LogObject, o.logger = x.1 ∧ o.disk = x.2 ∧ o.Holds pre)
    hinit lines hop
  exact ⟨s, hs, hdone⟩

/-- **A log takes 21 times 100 MB.** In every interleaving of the threads that log on a new logger,
while the lines logged so far have less text than that, no call of `Logline` throws, whatever its
line, and the destructor leaves parts that are these lines, no more than one part for each full 100
MB and one more. -/
theorem never_throws (filename : CString) (disk disk₀ : Disk) (l₀ : Logger)
    (s : Monitor.State (Logger × Disk) CString)
    (hnew : Logger.construct filename disk = .ok (l₀, disk₀))
    (h : Monitor.Reachable loglineStep (fun _ _ => True) (l₀, disk₀) s)
    (hlt : (logText s.done).length < logCapacity) :
    (∀ line, ∃ x, s.object.1.logline s.object.2 line = .ok x) ∧
    ∃ l' disk', s.object.1.destroy s.object.2 = .ok (l', disk') ∧
      l'.parts disk' = logText s.done ∧
      l'.fileNums.toNat ≤ (logText s.done).length / biggestFileSize.toNat + 1 := by
  obtain ⟨o, hl, hd, ho⟩ := exists_holds_of_reachable hnew h hlt
  rw [← hl, ← hd]
  constructor
  · exact fun line => ⟨_, ho.logline_eq hlt line⟩
  · exact ⟨_, _, ho.destroy_eq hlt, ho.parts_flushed hlt, ho.fileNums_flushed hlt⟩

section Samples

/-- A line of 100 MB and another one on a new log, which close part 1. -/
theorem never_throws_sample :
    ∃ s, Monitor.Reachable loglineStep (fun _ _ => True)
        (sampleLogger, Disk.trunc (fun _ => []) sampleLogger.out) s ∧
      s.done = [longLine, sampleLine] ∧ s.object.1.fileNums = 2 ∧
      (∀ line, ∃ x, s.object.1.logline s.object.2 line = .ok x) ∧
      ∃ l' disk', s.object.1.destroy s.object.2 = .ok (l', disk') ∧
        l'.parts disk' = logText s.done ∧
        l'.fileNums.toNat ≤ (logText s.done).length / biggestFileSize.toNat + 1 := by
  obtain ⟨s, hs, -, hdone, hnums⟩ :=
    exists_rotated_run (fun _ _ => True) fun _ _ _ => trivial
  have hlt : (logText s.done).length < logCapacity := by
    rw [hdone, logText, List.flatMap_cons, List.length_append, length_longLine]
    decide
  exact ⟨s, hs, hdone, hnums,
    never_throws sampleFilename (fun _ => []) _ _ _ construct_sampleLogger hs hlt⟩

end Samples

end PEReplay
