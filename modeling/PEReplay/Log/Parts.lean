/-
# PEReplay.Log.Parts — nothing logged is lost.

`Stores l disk lines` ties a logger and its part files to the lines logged so far: the parts in
number order, followed by the used piece of the buffer, are those lines.  Opening a part, flushing
and logging each keep it (`Stores.splitFile`, `Stores.flush`, `Stores.logline`).  `Logline` runs
under `m_log_mutex`, so by the monitor rule it holds in every interleaving of the calling threads,
and `parts_eq_logged` reads the files off.
-/
import PEReplay.Log.Logger
import PEReplay.Lib.Monitor

namespace PEReplay

open Printf

/-! ## Part files -/

/-- Two parts of one log never share a name. -/
theorem partialFileName_injective (originalFilename : List Char) :
    Function.Injective (partialFileName originalFilename) := by
  intro m n h
  have hpad : signedPad 3 m.toInt ++ ['.', 'c', 'l', 'g'] =
      signedPad 3 n.toInt ++ ['.', 'c', 'l', 'g'] := by
    have h' := List.append_cancel_left h
    exact (List.cons.inj h').2
  exact BitVec.eq_of_toInt_eq (signedPad_injective 3 (List.append_cancel_right hpad))

/-- The parts numbered `1` to `n`, in order. -/
def partTexts (originalFilename : List Char) (disk : Disk) (n : Nat) : List Char :=
  (List.range' 1 n).flatMap fun k => disk (partialFileName originalFilename (BitVec.ofNat 32 k))

theorem Logger.parts_eq (l : Logger) (disk : Disk) :
    l.parts disk = partTexts l.originalFilename disk l.fileNums.toNat := rfl

theorem partTexts_succ (originalFilename : List Char) (disk : Disk) (n : Nat) :
    partTexts originalFilename disk (n + 1) = partTexts originalFilename disk n ++
      disk (partialFileName originalFilename (BitVec.ofNat 32 (n + 1))) := by
  rw [partTexts, List.range'_concat, List.flatMap_append, List.flatMap_singleton, partTexts]
  congr 4
  omega

/-- A later part does not touch the earlier ones. -/
theorem partTexts_update {originalFilename : List Char} {disk : Disk} {m n : Nat} (hmn : m < n)
    (hn : n < 2 ^ 32) (text : List Char) :
    partTexts originalFilename (Function.update disk
      (partialFileName originalFilename (BitVec.ofNat 32 n)) text) m =
    partTexts originalFilename disk m := by
  unfold partTexts
  refine List.flatMap_congr fun k hk => Function.update_of_ne (fun h => ?_) _ _
  have hkn : k ≤ m := by
    rw [List.mem_range'_1] at hk
    omega
  have heq := congrArg BitVec.toNat (partialFileName_injective originalFilename h)
  rw [BitVec.toNat_ofNat, BitVec.toNat_ofNat, Nat.mod_eq_of_lt (by omega),
    Nat.mod_eq_of_lt hn] at heq
  omega

/-- Writing to the last part extends the concatenation. -/
theorem partTexts_write {originalFilename : List Char} {disk : Disk} {n : Nat} (hpos : 0 < n)
    (hn : n < 2 ^ 32) (text : List Char) :
    partTexts originalFilename
      (disk.write (partialFileName originalFilename (BitVec.ofNat 32 n)) text) n =
    partTexts originalFilename disk n ++ text := by
  obtain ⟨n, rfl⟩ : ∃ k, n = k + 1 := ⟨n - 1, by omega⟩
  rw [partTexts_succ, partTexts_succ, Disk.write, partTexts_update (Nat.lt_succ_self n) hn,
    Function.update_self, List.append_assoc]

/-- Opening the next part adds an empty text. -/
theorem partTexts_trunc {originalFilename : List Char} {disk : Disk} {n : Nat}
    (hn : n + 1 < 2 ^ 32) :
    partTexts originalFilename
      (disk.trunc (partialFileName originalFilename (BitVec.ofNat 32 (n + 1)))) (n + 1) =
    partTexts originalFilename disk n := by
  rw [partTexts_succ, Disk.trunc, partTexts_update (Nat.lt_succ_self n) hn, Function.update_self,
    List.append_nil]

/-! ## The invariant -/

/-- The lines of a log, one after the other. -/
def logText (lines : List CString) : List Char := lines.flatMap CString.chars

theorem logText_append (lines lines' : List CString) :
    logText (lines ++ lines') = logText lines ++ logText lines' :=
  List.flatMap_append

theorem logText_append_singleton (lines : List CString) (line : CString) :
    logText (lines ++ [line]) = logText lines ++ line.chars := by
  rw [logText, List.flatMap_append, List.flatMap_singleton]
  rfl

/-- The open part is the last one, the buffer holds at least `m_size` characters, and the parts
followed by those characters are the lines logged so far. -/
structure Stores (l : Logger) (disk : Disk) (lines : List CString) : Prop where
  out : l.out = partialFileName l.originalFilename l.fileNums
  fileNums_pos : 0 < l.fileNums.toNat
  size_le : l.size.toNat ≤ l.buffer.length
  text : l.parts disk ++ l.buffer.take l.size.toNat = logText lines

theorem sprintfPartialFileName_ok {originalFilename name : List Char} {fileNums : U32}
    (h : sprintfPartialFileName originalFilename fileNums = .ok name) :
    name = partialFileName originalFilename fileNums := by
  simp only [sprintfPartialFileName] at h
  split at h
  · exact (Except.ok.inj h).symm
  · exact absurd h (by simp)

/-- A freshly constructed logger has logged nothing. -/
theorem stores_construct {filename : CString} {disk disk' : Disk} {l : Logger}
    (h : Logger.construct filename disk = .ok (l, disk')) : Stores l disk' [] := by
  unfold Logger.construct at h
  split at h
  · exact absurd h (by simp)
  · obtain ⟨name, hname, h⟩ := exceptBind_ok h
    obtain ⟨rfl, rfl⟩ := Prod.mk.inj (Except.ok.inj h)
    have hout := sprintfPartialFileName_ok hname
    refine ⟨hout, by simp, by simp, ?_⟩
    show partTexts _ (disk.trunc name) 1 ++ List.take 0 _ = []
    rw [hout, List.take_zero, List.append_nil]
    exact partTexts_trunc (n := 0) (by decide)

/-- **Splitting keeps what is stored**: the new part starts empty behind the others. -/
theorem Stores.splitFile {l l' : Logger} {disk disk' : Disk} {lines : List CString}
    (hs : Stores l disk lines) (h : l.splitFile disk = .ok (l', disk')) :
    Stores l' disk' lines ∧ l'.size = l.size ∧ l'.buffer = l.buffer := by
  unfold Logger.splitFile at h
  split at h
  · exact absurd h (by simp)
  · rename_i hnums
    obtain ⟨name, hname, h⟩ := exceptBind_ok h
    obtain ⟨rfl, rfl⟩ := Prod.mk.inj (Except.ok.inj h)
    have hout := sprintfPartialFileName_ok hname
    have hle : l.fileNums.toNat ≤ 20 := by
      rw [gt_iff_lt, BitVec.lt_def, not_lt] at hnums
      exact hnums
    have hsucc : (l.fileNums + 1).toNat = l.fileNums.toNat + 1 := by bv_omega
    have hnext : l.fileNums + 1 = BitVec.ofNat 32 (l.fileNums.toNat + 1) := by bv_omega
    refine ⟨⟨hout, ?_, hs.size_le, ?_⟩, rfl, rfl⟩
    · show 0 < (l.fileNums + 1).toNat
      omega
    · rw [← hs.text, Logger.parts_eq, Logger.parts_eq]
      show partTexts _ _ (l.fileNums + 1).toNat ++ _ = _
      rw [hsucc, hout, hnext, partTexts_trunc (by omega)]

/-- **Flushing keeps what is stored**: the used piece of the buffer moves to the open part. -/
theorem Stores.flush {l l' : Logger} {disk disk' : Disk} {lines : List CString}
    (hs : Stores l disk lines) (h : l.flush disk = .ok (l', disk')) :
    Stores l' disk' lines ∧ l'.size = 0 ∧ l'.buffer = [] := by
  have hmid : Stores { l with buffer := [], fileSize := l.fileSize + l.size, size := 0 }
      (disk.write l.out (l.buffer.take l.size.toNat)) lines := by
    refine ⟨hs.out, hs.fileNums_pos, Nat.zero_le _, ?_⟩
    have hnums : l.fileNums = BitVec.ofNat 32 l.fileNums.toNat := by bv_omega
    rw [← hs.text, Logger.parts_eq, Logger.parts_eq, hs.out]
    show partTexts _ _ l.fileNums.toNat ++ List.take 0 [] = _
    rw [List.take_zero, List.append_nil, hnums, BitVec.toNat_ofNat,
      Nat.mod_eq_of_lt l.fileNums.isLt, partTexts_write hs.fileNums_pos l.fileNums.isLt]
  unfold Logger.flush at h
  simp only at h
  split at h
  · exact hmid.splitFile h
  · obtain ⟨rfl, rfl⟩ := Prod.mk.inj (Except.ok.inj h)
    exact ⟨hmid, rfl, rfl⟩

/-- The optional flush at the start of `Logline`. -/
theorem Stores.flush_if {l l' : Logger} {disk disk' : Disk} {lines : List CString} {c : Prop}
    [Decidable c] (hs : Stores l disk lines)
    (h : (if c then l.flush disk else .ok (l, disk)) = .ok (l', disk')) :
    Stores l' disk' lines ∧ (l'.size = 0 ∨ l'.size = l.size) := by
  split at h
  · obtain ⟨hs', hsize, -⟩ := hs.flush h
    exact ⟨hs', Or.inl hsize⟩
  · obtain ⟨rfl, rfl⟩ := Prod.mk.inj (Except.ok.inj h)
    exact ⟨hs, Or.inr rfl⟩

/-- Logging a line on this logger does not wrap the 32-bit sum `len + m_size`. -/
def FitsSum (l : Logger) (line : CString) : Prop :=
  line.chars.length + l.size.toNat < 2 ^ 32

/-- **Logging stores the line**, whether it overwrites the buffer or extends it. -/
theorem Stores.logline {l l' : Logger} {disk disk' : Disk} {lines : List CString} {line : CString}
    (hs : Stores l disk lines) (hfit : FitsSum l line)
    (h : l.logline disk line = .ok (l', disk')) : Stores l' disk' (lines ++ [line]) := by
  unfold FitsSum at hfit
  unfold Logger.logline at h
  obtain ⟨⟨l₁, disk₁⟩, hflush, h⟩ := exceptBind_ok h
  obtain ⟨hs₁, hsize⟩ := hs.flush_if hflush
  obtain ⟨l₂, hreplace, h⟩ := exceptBind_ok h
  unfold Logger.replace at hreplace
  rw [if_neg (not_lt.mpr hs₁.size_le)] at hreplace
  obtain rfl := Except.ok.inj hreplace
  obtain ⟨rfl, rfl⟩ := Prod.mk.inj (Except.ok.inj h)
  have hlen : (BitVec.ofNat 32 line.chars.length).toNat = line.chars.length := by
    rw [BitVec.toNat_ofNat, Nat.mod_eq_of_lt (by omega)]
  have hsum : (l₁.size + BitVec.ofNat 32 line.chars.length).toNat =
      l₁.size.toNat + line.chars.length := by
    have hle : l₁.size.toNat ≤ l.size.toNat := by
      rcases hsize with hsize | hsize <;> rw [hsize]
      exact Nat.zero_le _
    rw [BitVec.toNat_add, hlen, Nat.mod_eq_of_lt (by omega)]
  have hused : (l₁.buffer.take l₁.size.toNat ++ line.chars).length =
      l₁.size.toNat + line.chars.length := by
    rw [List.length_append, List.length_take_of_le hs₁.size_le]
  refine ⟨hs₁.out, hs₁.fileNums_pos, ?_, ?_⟩
  · show (l₁.size + _).toNat ≤ _
    rw [hsum, List.length_append, hused]
    exact Nat.le_add_right _ _
  · show l₁.parts disk₁ ++ List.take (l₁.size + _).toNat _ = _
    rw [hsum, List.take_left' hused, logText_append_singleton, ← hs₁.text, List.append_assoc]

theorem splitFile_ne_outOfRange (l : Logger) (disk : Disk) :
    l.splitFile disk ≠ .error .outOfRange := by
  intro h
  unfold Logger.splitFile at h
  split at h
  · exact absurd h (by simp)
  · rcases exceptBind_error h with h | ⟨name, -, h⟩
    · simp only [sprintfPartialFileName] at h
      split at h <;> simp at h
    · exact absurd h (by simp [pure, Except.pure])

theorem flush_ne_outOfRange (l : Logger) (disk : Disk) : l.flush disk ≠ .error .outOfRange := by
  intro h
  simp only [Logger.flush] at h
  split at h
  · exact splitFile_ne_outOfRange _ _ h
  · exact absurd h (by simp)

/-- `replace` is always in range: that error is never thrown. -/
theorem Stores.logline_ne_outOfRange {l : Logger} {disk : Disk} {lines : List CString}
    (hs : Stores l disk lines) (line : CString) : l.logline disk line ≠ .error .outOfRange := by
  intro h
  unfold Logger.logline at h
  rcases exceptBind_error h with hflush | ⟨⟨l₁, disk₁⟩, hflush, h⟩
  · split at hflush
    · exact flush_ne_outOfRange l disk hflush
    · exact absurd hflush (by simp)
  · obtain ⟨hs₁, -⟩ := hs.flush_if hflush
    rcases exceptBind_error h with h | ⟨l₂, -, h⟩
    · unfold Logger.replace at h
      rw [if_neg (not_lt.mpr hs₁.size_le)] at h
      exact absurd h (by simp)
    · exact absurd h (by simp [pure, Except.pure])

/-! ## Any number of threads -/

/-- `Logline` on the logger and its files; `none` when it throws. -/
def loglineStep (x : Logger × Disk) (line : CString) : Option (Logger × Disk) :=
  (x.1.logline x.2 line).toOption

/-- The states of all runs on a freshly constructed logger: any number of threads call `Logline`,
no call throws and no sum `len + m_size` wraps. -/
abbrev LogReachable (l : Logger) (disk : Disk) : Monitor.State (Logger × Disk) CString → Prop :=
  Monitor.Reachable loglineStep (fun x line => FitsSum x.1 line) (l, disk)

theorem loglineStep_eq_some {x x' : Logger × Disk} {line : CString}
    (h : loglineStep x line = some x') : x.1.logline x.2 line = .ok x' := by
  unfold loglineStep at h
  cases hlog : x.1.logline x.2 line with
  | error e => rw [hlog] at h; exact absurd h (by simp [Except.toOption])
  | ok y => rw [hlog] at h; rw [Option.some.inj h]

/-- **Run.** In every interleaving the logger stores the lines logged so far. -/
theorem stores_reachable {filename : CString} {disk disk₀ : Disk} {l₀ : Logger}
    {s : Monitor.State (Logger × Disk) CString}
    (hnew : Logger.construct filename disk = .ok (l₀, disk₀)) (h : LogReachable l₀ disk₀ s) :
    Stores s.object.1 s.object.2 s.done := by
  refine h.rule (fun x lines => Stores x.1 x.2 lines) (stores_construct hnew) ?_
  intro x lines line x' hs hfit hstep
  exact hs.logline hfit (loglineStep_eq_some hstep)

/-- What the log files are meant to be, relative to the lines logged so far (in the order in which
the threads acquired the mutex). -/
structure LogFaithful (s : Monitor.State (Logger × Disk) CString) : Prop where
  /-- lines are logged in acquisition order, and all of them when no thread is inside -/
  order : s.done <+: s.acquired ∧ (s.owner = none → s.done = s.acquired)
  /-- the parts and the used piece of the buffer are the lines logged so far -/
  text : s.object.1.parts s.object.2 ++ s.object.1.buffer.take s.object.1.size.toNat =
    logText s.done
  /-- the used piece lies within the buffer, and `replace` never throws -/
  size_le : s.object.1.size.toNat ≤ s.object.1.buffer.length ∧
    ∀ line, s.object.1.logline s.object.2 line ≠ .error .outOfRange
  /-- after the destructor the parts alone are the lines -/
  destroyed : ∀ l' disk', s.object.1.destroy s.object.2 = .ok (l', disk') →
    l'.parts disk' = logText s.done

/-- **Nothing logged is lost, duplicated or reordered.** On a freshly constructed logger, in every
interleaving of the calling threads, at every point. -/
theorem parts_eq_logged (filename : CString) (disk disk₀ : Disk) (l₀ : Logger)
    (s : Monitor.State (Logger × Disk) CString)
    (hnew : Logger.construct filename disk = .ok (l₀, disk₀)) (h : LogReachable l₀ disk₀ s) :
    LogFaithful s := by
  have hs := stores_reachable hnew h
  refine ⟨⟨h.done_prefix, h.done_eq_acquired⟩, hs.text, ⟨hs.size_le, hs.logline_ne_outOfRange⟩, ?_⟩
  intro l' disk' hdestroy
  obtain ⟨hs', hsize, -⟩ := hs.flush hdestroy
  have htext := hs'.text
  rw [hsize] at htext
  simpa using htext

section Samples

/-- A log named `a.clg`. -/
def sampleFilename : CString := ⟨['a', '.', 'c', 'l', 'g'], by decide⟩

def sampleLine : CString := ⟨['h', 'i', '\n'], by decide⟩

/-- The logger behind `a_001.clg`. -/
def sampleLogger : Logger :=
  ⟨['a', '_', '0', '0', '1', '.', 'c', 'l', 'g'], 0, 0, ['a'], 1, List.replicate bufSize '\x00'⟩

theorem construct_sampleLogger : Logger.construct sampleFilename (fun _ => []) =
    .ok (sampleLogger, Disk.trunc (fun _ => []) sampleLogger.out) := rfl

/-- A line of 100 MB. -/
def longLine : CString :=
  ⟨List.replicate 104857600 'a', fun h => absurd (List.eq_of_mem_replicate h) (by decide)⟩

theorem length_longLine : longLine.chars.length = 104857600 := List.length_replicate

theorem longLine_length : BitVec.ofNat 32 longLine.chars.length = biggestFileSize := by
  rw [length_longLine]
  rfl

/-- The new log with a line of 100 MB in its buffer. -/
def loadedLogger (line : CString) : Logger :=
  { sampleLogger with size := biggestFileSize, buffer := line.chars }

variable {line : CString}

/-- Such a line empties the buffer first. -/
theorem logline_sampleLogger (hline : BitVec.ofNat 32 line.chars.length = biggestFileSize)
    (disk : Disk) : sampleLogger.logline disk line =
      .ok (loadedLogger line, disk.write sampleLogger.out []) := by
  have hflush : biggestFileSize + sampleLogger.size ≥ BitVec.ofNat 32 bufSize := by decide
  have hsplit : ¬ sampleLogger.fileSize + sampleLogger.size ≥ biggestFileSize := by decide
  unfold Logger.logline Logger.flush Logger.replace
  rw [hline]
  simp only [if_pos hflush, if_neg hsplit, bind, Except.bind, pure, Except.pure]
  simp [loadedLogger, sampleLogger]

/-- The next call closes the part with it. -/
theorem logline_loadedLogger (line : CString) (disk : Disk) :
    ∃ l disk', (loadedLogger line).logline disk sampleLine = .ok (l, disk') ∧
      l.fileNums = 2 := by
  have hflush : BitVec.ofNat 32 sampleLine.chars.length + biggestFileSize ≥
      BitVec.ofNat 32 bufSize := by decide
  have hsplit : (0 : U32) + biggestFileSize ≥ biggestFileSize := by decide
  have hname : sprintfPartialFileName ['a'] (1 + 1) =
      .ok ['a', '_', '0', '0', '2', '.', 'c', 'l', 'g'] := by decide
  have hnums : ¬ (1 : U32) > biggestFileNums := by decide
  unfold Logger.logline Logger.flush Logger.splitFile Logger.replace loadedLogger sampleLogger
  simp only [if_pos hflush, if_pos hsplit, if_neg hnums, hname, bind, Except.bind, pure,
    Except.pure]
  exact ⟨_, _, rfl, rfl⟩

/-- Two calls on a new log, by two threads: the second closes the part that the first has filled. -/
theorem exists_rotated_run (admits : Logger × Disk → CString → Prop)
    (hadmits : ∀ x line, x.1 = sampleLogger ∧ line = longLine ∨
      x.1 = loadedLogger longLine ∧ line = sampleLine → admits x line) :
    ∃ s, Monitor.Reachable loglineStep admits
        (sampleLogger, Disk.trunc (fun _ => []) sampleLogger.out) s ∧ s.Quiet ∧
      s.done = [longLine, sampleLine] ∧ s.object.1.fileNums = 2 := by
  have hstep : ∀ {x x' : Logger × Disk} {line : CString}, x.1.logline x.2 line = .ok x' →
      loglineStep x line = some x' := by
    intro x x' line h
    unfold loglineStep
    rw [h]
    rfl
  have hfirst := logline_sampleLogger longLine_length (Disk.trunc (fun _ => []) sampleLogger.out)
  have hinit : Monitor.Reachable loglineStep admits
      (sampleLogger, Disk.trunc (fun _ => []) sampleLogger.out) (Monitor.State.init _) := .init
  obtain ⟨s₁, h₁, hquiet₁, hobject₁, hdone₁⟩ := hinit.call
    (Monitor.State.quiet_init (sampleLogger, Disk.trunc (fun _ => []) sampleLogger.out)) 0
    (hadmits _ _ (Or.inl ⟨rfl, rfl⟩)) (hstep hfirst)
  obtain ⟨l, disk, hsecond, hnums⟩ := logline_loadedLogger longLine s₁.object.2
  have hloaded : s₁.object.1 = loadedLogger longLine := congrArg Prod.fst hobject₁
  rw [← hloaded] at hsecond
  obtain ⟨s₂, h₂, hquiet₂, hobject₂, hdone₂⟩ := h₁.call hquiet₁ 1
    (hadmits _ _ (Or.inr ⟨hloaded, rfl⟩)) (hstep hsecond)
  refine ⟨s₂, h₂, hquiet₂, ?_, ?_⟩
  · rw [hdone₂, hdone₁]
    rfl
  · rw [hobject₂]
    exact hnums

/-- Part 1 has been closed, and a third thread waits. -/
theorem parts_eq_logged_sample :
    ∃ s, LogReachable sampleLogger (Disk.trunc (fun _ => []) sampleLogger.out) s ∧
      s.done = [longLine, sampleLine] ∧ s.object.1.fileNums = 2 ∧
      s.threads 2 = .waiting sampleLine ∧ LogFaithful s := by
  obtain ⟨s, hs, hquiet, hdone, hnums⟩ :=
    exists_rotated_run (fun x line => FitsSum x.1 line) (by
      rintro x line (⟨hx, rfl⟩ | ⟨hx, rfl⟩)
      · rw [hx, FitsSum, length_longLine]
        decide
      · have hsize : (loadedLogger longLine).size = biggestFileSize := rfl
        rw [hx, FitsSum, hsize]
        decide)
  have hcall : Monitor.step loglineStep s (.call 2 sampleLine) =
      some { s with threads := Function.update s.threads 2 (.waiting sampleLine) } := by
    simp only [Monitor.step, hquiet.threads 2]
  have hwaits := hs.step (.call 2 sampleLine) trivial hcall
  refine ⟨_, hwaits, hdone, hnums, ?_,
    parts_eq_logged sampleFilename (fun _ => []) _ _ _ construct_sampleLogger hwaits⟩
  simp only [Function.update_self]

end Samples

end PEReplay
