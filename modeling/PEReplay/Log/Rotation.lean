/-
# PEReplay.Log.Rotation — where one part file ends and the next begins.

A flush runs in the middle of `Logline`, before the line that caused it is in the buffer, and only a
flush opens the next part.  `Rotated l disk closed current buffered` says what that gives: the lines
logged so far are those of the closed parts, one group a part, then those of the open part, then
those still in the buffer.  No group is split, and as the buffer never holds `BUF_SIZE` characters a
part is closed less than `BUF_SIZE` beyond `BIGGEST_FILE_SIZE`.

That counts the text handed to the stream, as `m_file_size` does.  The part file holds every newline
of it as CR LF, so it is longer by the newlines of the text, and lines that are nothing but newlines
make a closed part twice as long as it is meant to be (`newlines_oversize`).
-/
import PEReplay.Log.Capacity

namespace PEReplay

open Printf

/-! ## The invariant -/

/-- The text of part number `k` of the log. -/
def Logger.part (l : Logger) (disk : Disk) (k : Nat) : List Char :=
  disk (partialFileName l.originalFilename (BitVec.ofNat 32 k))

/-- What the file of part number `k` holds. -/
def Logger.storedPart (l : Logger) (disk : Disk) (k : Nat) : List Char :=
  disk.stored (partialFileName l.originalFilename (BitVec.ofNat 32 k))

theorem Logger.length_storedPart (l : Logger) (disk : Disk) (k : Nat) :
    (l.storedPart disk k).length = (l.part disk k).length + (l.part disk k).count '\n' :=
  length_textMode _

/-- Part number `k` consists of `lines`, and was closed at the first flush at which it had
`BIGGEST_FILE_SIZE` characters or more. -/
structure ClosedPart (l : Logger) (disk : Disk) (k : Nat) (lines : List CString) : Prop where
  text : l.part disk k = logText lines
  ge : biggestFileSize.toNat ≤ (l.part disk k).length
  lt : (l.part disk k).length < biggestFileSize.toNat + bufSize

/-- The lines logged so far, split where the parts are split. -/
structure Rotated (l : Logger) (disk : Disk) (closed : List (List CString))
    (current buffered : List CString) : Prop where
  out : l.out = partialFileName l.originalFilename l.fileNums
  fileNums : l.fileNums.toNat = closed.length + 1
  fileNums_le : l.fileNums.toNat ≤ 21
  closedParts : ∀ k (hk : k < closed.length), ClosedPart l disk (k + 1) closed[k]
  currentText : l.part disk (closed.length + 1) = logText current
  fileSize : l.fileSize.toNat = (logText current).length
  fileSize_lt : l.fileSize.toNat < biggestFileSize.toNat
  bufferedText : l.buffer.take l.size.toNat = logText buffered
  size_le : l.size.toNat ≤ l.buffer.length
  size_lt : l.size.toNat < bufSize

theorem biggestFileSize_toNat : biggestFileSize.toNat = 104857600 := rfl

theorem bufSize_eq : bufSize = 16384 := rfl

theorem zero_lt_biggestFileSize : (0 : U32).toNat < biggestFileSize.toNat := by decide

theorem zero_lt_bufSize : (0 : U32).toNat < bufSize := by decide

/-- Writing one part leaves the other parts alone. -/
theorem part_update {l : Logger} {disk : Disk} {k n : Nat} (hne : k ≠ n) (hk : k < 2 ^ 32)
    (hn : n < 2 ^ 32) (text : List Char) :
    l.part (Function.update disk (partialFileName l.originalFilename (BitVec.ofNat 32 n)) text) k =
      l.part disk k := by
  refine Function.update_of_ne (fun h => hne ?_) _ _
  have heq := congrArg BitVec.toNat (partialFileName_injective l.originalFilename h)
  rwa [BitVec.toNat_ofNat, BitVec.toNat_ofNat, Nat.mod_eq_of_lt hk, Nat.mod_eq_of_lt hn] at heq

theorem part_update_self {l : Logger} {disk : Disk} {n : Nat} (text : List Char) :
    l.part (Function.update disk (partialFileName l.originalFilename (BitVec.ofNat 32 n)) text) n =
      text :=
  Function.update_self _ _ _

theorem ClosedPart.congr {l l' : Logger} {disk disk' : Disk} {k : Nat} {lines : List CString}
    (h : ClosedPart l disk k lines) (hpart : l'.part disk' k = l.part disk k) :
    ClosedPart l' disk' k lines :=
  ⟨hpart ▸ h.text, hpart ▸ h.ge, hpart ▸ h.lt⟩

variable {l l' : Logger} {disk disk' : Disk} {closed : List (List CString)}
  {current buffered : List CString} {line : CString}

/-- A constructed logger has one part, which is empty. -/
theorem rotated_construct {filename : CString}
    (h : Logger.construct filename disk = .ok (l, disk')) : Rotated l disk' [] [] [] := by
  have hstores := stores_construct h
  unfold Logger.construct at h
  split at h
  · exact absurd h (by simp)
  · obtain ⟨name, hname, h⟩ := exceptBind_ok h
    obtain ⟨rfl, rfl⟩ := Prod.mk.inj (Except.ok.inj h)
    have hout := sprintfPartialFileName_ok hname
    refine ⟨hstores.out, rfl, Nat.one_le_of_lt (by decide : 1 < 21),
      fun k hk => absurd hk (Nat.not_lt_zero k), ?_, rfl, zero_lt_biggestFileSize, rfl,
      hstores.size_le, zero_lt_bufSize⟩
    rw [hout]
    exact part_update_self []

/-! ## One call -/

theorem Rotated.size_eq (hr : Rotated l disk closed current buffered) :
    l.size.toNat = (logText buffered).length := by
  rw [← hr.bufferedText, List.length_take_of_le hr.size_le]

/-- What the open part has after a flush, as `m_file_size` counts it. -/
theorem Rotated.toNat_flushed (hr : Rotated l disk closed current buffered) :
    (l.fileSize + l.size).toNat = (logText (current ++ buffered)).length := by
  have hsize := hr.size_lt
  have hfile := hr.fileSize_lt
  rw [biggestFileSize_toNat] at hfile
  rw [bufSize_eq] at hsize
  have hsum : (l.fileSize + l.size).toNat = l.fileSize.toNat + l.size.toNat := by bv_omega
  rw [hsum, logText_append, List.length_append, ← hr.fileSize, ← hr.size_eq]

/-- The part that a flush writes to, with the buffer moved into it. -/
theorem Rotated.write (hr : Rotated l disk closed current buffered) :
    Logger.part l (disk.write l.out (l.buffer.take l.size.toNat)) (closed.length + 1) =
      logText (current ++ buffered) ∧
    ∀ k < closed.length, Logger.part l (disk.write l.out (l.buffer.take l.size.toNat)) (k + 1) =
      l.part disk (k + 1) := by
  have hlast : l.fileNums = BitVec.ofNat 32 (closed.length + 1) := by
    rw [← hr.fileNums, BitVec.ofNat_toNat, BitVec.setWidth_eq]
  have hlen := hr.fileNums
  have hle := hr.fileNums_le
  rw [hr.out, hlast, Disk.write]
  refine ⟨?_, fun k hk => part_update (by omega) (by omega) (by omega) _⟩
  rw [part_update_self, hr.bufferedText, logText_append, ← hr.currentText]
  rfl

/-- **Closing a part.** A flush that takes the open part to `BIGGEST_FILE_SIZE` closes it with the
buffered lines in it. -/
theorem Rotated.flush_split (hr : Rotated l disk closed current buffered)
    (hfull : l.fileSize + l.size ≥ biggestFileSize) (h : l.flush disk = .ok (l', disk')) :
    Rotated l' disk' (closed ++ [current ++ buffered]) [] [] := by
  simp only [Logger.flush, hfull, if_true, Logger.splitFile] at h
  split at h
  · exact absurd h (by simp)
  · rename_i hnums
    obtain ⟨name, hname, h⟩ := exceptBind_ok h
    obtain ⟨rfl, rfl⟩ := Prod.mk.inj (Except.ok.inj h)
    have hout := sprintfPartialFileName_ok hname
    have hle : l.fileNums.toNat ≤ 20 := by
      rw [gt_iff_lt, BitVec.lt_def, not_lt] at hnums
      exact hnums
    have hlen := hr.fileNums
    obtain ⟨hwritten, hothers⟩ := hr.write
    have hsize := hr.size_lt
    have hfile := hr.fileSize_lt
    rw [biggestFileSize_toNat] at hfile
    rw [bufSize_eq] at hsize
    have hlength : (logText (current ++ buffered)).length = l.fileSize.toNat + l.size.toNat := by
      rw [logText_append, List.length_append, ← hr.fileSize, ← hr.size_eq]
    have hnext : l.fileNums + 1 = BitVec.ofNat 32 (closed.length + 1 + 1) := by bv_omega
    have hge : biggestFileSize.toNat ≤ (logText (current ++ buffered)).length := by
      rw [← hr.toNat_flushed]
      exact hfull
    -- opening part `closed.length + 2` leaves the parts up to `closed.length + 1` alone
    have hkept : ∀ k, k ≤ closed.length → ∀ disk₁ : Disk,
        Logger.part l (disk₁.trunc name) (k + 1) = l.part disk₁ (k + 1) := by
      intro k hk disk₁
      rw [hout, hnext]
      exact part_update (by omega) (by omega) (by omega) _
    refine ⟨hout, ?_, ?_, ?_, ?_, rfl, zero_lt_biggestFileSize, rfl, Nat.zero_le _,
      zero_lt_bufSize⟩
    · show (l.fileNums + 1).toNat = _
      rw [List.length_append, List.length_singleton]
      bv_omega
    · show (l.fileNums + 1).toNat ≤ 21
      bv_omega
    · intro k hk
      rw [List.length_append, List.length_singleton] at hk
      rcases Nat.lt_succ_iff_lt_or_eq.mp hk with hlt | rfl
      · rw [List.getElem_append_left hlt]
        refine (hr.closedParts k hlt).congr ?_
        exact (hkept k (by omega) _).trans (hothers k hlt)
      · have hpart := (hkept closed.length le_rfl _).trans hwritten
        rw [List.getElem_concat_length rfl]
        refine ⟨hpart, ?_, ?_⟩
        · exact hge.trans_eq (congrArg List.length hpart).symm
        · refine (congrArg List.length hpart).trans_lt ?_
          rw [hlength, biggestFileSize_toNat, bufSize_eq]
          omega
    · show Logger.part l _ _ = []
      rw [hout, hnext, List.length_append, List.length_singleton]
      exact part_update_self []

/-- A flush that leaves the open part below `BIGGEST_FILE_SIZE` moves the buffered lines into it. -/
theorem Rotated.flush_write (hr : Rotated l disk closed current buffered)
    (hsmall : ¬ l.fileSize + l.size ≥ biggestFileSize) (h : l.flush disk = .ok (l', disk')) :
    Rotated l' disk' closed (current ++ buffered) [] := by
  simp only [Logger.flush, if_neg hsmall] at h
  obtain ⟨rfl, rfl⟩ := Prod.mk.inj (Except.ok.inj h)
  obtain ⟨hwritten, hothers⟩ := hr.write
  exact ⟨hr.out, hr.fileNums, hr.fileNums_le,
    fun k hk => (hr.closedParts k hk).congr (hothers k hk), hwritten, hr.toNat_flushed,
    not_le.mp hsmall, rfl, Nat.zero_le _, zero_lt_bufSize⟩

/-- Whatever a flush does, it puts the buffered lines behind the open part's as a whole. -/
theorem Rotated.flush (hr : Rotated l disk closed current buffered)
    (h : l.flush disk = .ok (l', disk')) : ∃ closed' current',
      Rotated l' disk' closed' current' [] ∧
      closed'.flatten ++ current' = closed.flatten ++ current ++ buffered := by
  by_cases hfull : l.fileSize + l.size ≥ biggestFileSize
  · exact ⟨_, _, hr.flush_split hfull h, by simp⟩
  · exact ⟨_, _, hr.flush_write hfull h, by simp⟩

/-- `replace` puts a short line behind the buffered ones, when the buffer still has room for it. -/
theorem Rotated.replace {l₂ : Logger} (hr : Rotated l disk closed current buffered)
    (hroom : line.chars.length + l.size.toNat < bufSize)
    (h : l.replace (BitVec.ofNat 32 line.chars.length) line.chars = .ok l₂) :
    Rotated { l₂ with size := l₂.size + BitVec.ofNat 32 line.chars.length } disk closed current
      (buffered ++ [line]) := by
  unfold Logger.replace at h
  rw [if_neg (not_lt.mpr hr.size_le)] at h
  obtain rfl := Except.ok.inj h
  rw [bufSize_eq] at hroom
  have hlen : (BitVec.ofNat 32 line.chars.length).toNat = line.chars.length := by
    rw [BitVec.toNat_ofNat, Nat.mod_eq_of_lt (by omega)]
  have hsum : (l.size + BitVec.ofNat 32 line.chars.length).toNat =
      l.size.toNat + line.chars.length := by
    rw [BitVec.toNat_add, hlen, Nat.mod_eq_of_lt (by omega)]
  have hused : (l.buffer.take l.size.toNat ++ line.chars).length =
      l.size.toNat + line.chars.length := by
    rw [List.length_append, List.length_take_of_le hr.size_le]
  refine ⟨hr.out, hr.fileNums, hr.fileNums_le, fun k hk => (hr.closedParts k hk).congr rfl,
    hr.currentText, hr.fileSize, hr.fileSize_lt, ?_, ?_, ?_⟩
  · show List.take (l.size + _).toNat _ = _
    rw [hsum, List.take_left' hused, logText_append_singleton, hr.bufferedText]
  · show (l.size + _).toNat ≤ _
    rw [hsum, List.length_append, hused]
    exact Nat.le_add_right _ _
  · show (l.size + _).toNat < bufSize
    rw [hsum, bufSize_eq]
    omega

/-- **One call.** A short line is logged behind the others, whole. -/
theorem Rotated.logline (hr : Rotated l disk closed current buffered)
    (hshort : line.chars.length < bufSize) (h : l.logline disk line = .ok (l', disk')) :
    ∃ closed' current' buffered', Rotated l' disk' closed' current' buffered' ∧
      closed'.flatten ++ current' ++ buffered' =
        closed.flatten ++ current ++ buffered ++ [line] := by
  unfold Logger.logline at h
  obtain ⟨⟨l₁, disk₁⟩, hflush, h⟩ := exceptBind_ok h
  obtain ⟨l₂, hreplace, h⟩ := exceptBind_ok h
  obtain ⟨rfl, rfl⟩ := Prod.mk.inj (Except.ok.inj h)
  by_cases hfull : BitVec.ofNat 32 line.chars.length + l.size ≥ BitVec.ofNat 32 bufSize
  · rw [if_pos hfull] at hflush
    obtain ⟨closed', current', hr₁, hlines⟩ := hr.flush hflush
    have hsize : l₁.size.toNat = 0 := hr₁.size_eq
    refine ⟨closed', current', [] ++ [line], hr₁.replace ?_ hreplace, ?_⟩
    · rw [hsize]
      exact hshort
    · rw [← hlines]
      rfl
  · rw [if_neg hfull] at hflush
    obtain ⟨rfl, rfl⟩ := Prod.mk.inj (Except.ok.inj hflush)
    refine ⟨closed, current, buffered ++ [line], hr.replace ?_ hreplace, by simp⟩
    have hsize := hr.size_lt
    rw [bufSize_eq] at hshort hsize hfull ⊢
    bv_omega

/-! ## Any number of threads -/

/-- The states of all runs on a freshly constructed logger in which every line is shorter than
`BUF_SIZE` and no call throws. -/
abbrev ShortLogReachable (l : Logger) (disk : Disk) :
    Monitor.State (Logger × Disk) CString → Prop :=
  Monitor.Reachable loglineStep (fun _ line => line.chars.length < bufSize) (l, disk)

/-- **Run.** In every interleaving the lines logged so far are split where the parts are. -/
theorem rotated_reachable {filename : CString} {l₀ : Logger} {disk₀ : Disk}
    {s : Monitor.State (Logger × Disk) CString}
    (hnew : Logger.construct filename disk = .ok (l₀, disk₀)) (h : ShortLogReachable l₀ disk₀ s) :
    ∃ closed current buffered, Rotated s.object.1 s.object.2 closed current buffered ∧
      closed.flatten ++ current ++ buffered = s.done := by
  refine h.rule (fun x lines => ∃ closed current buffered,
    Rotated x.1 x.2 closed current buffered ∧ closed.flatten ++ current ++ buffered = lines)
    ⟨[], [], [], rotated_construct hnew, rfl⟩ ?_
  rintro x lines line x' ⟨closed, current, buffered, hr, rfl⟩ hshort hstep
  exact hr.logline hshort (loglineStep_eq_some hstep)

/-- `lines` are, in order, one group for every part but the highest-numbered, which is the text of
that part, then the lines of the highest-numbered part, then those in the buffer.  The text of every
part but the highest-numbered has from `BIGGEST_FILE_SIZE` to below `BIGGEST_FILE_SIZE + BUF_SIZE`
characters, and its file has one more for each newline. -/
def HoldsWholeLines (l : Logger) (disk : Disk) (lines : List CString) : Prop :=
  ∃ (closed : List (List CString)) (current buffered : List CString),
    lines = closed.flatten ++ current ++ buffered ∧
    l.fileNums.toNat = closed.length + 1 ∧
    (∀ k (hk : k < closed.length),
      l.part disk (k + 1) = logText closed[k] ∧
      biggestFileSize.toNat ≤ (l.part disk (k + 1)).length ∧
      (l.part disk (k + 1)).length < biggestFileSize.toNat + bufSize ∧
      (l.storedPart disk (k + 1)).length =
        (l.part disk (k + 1)).length + (l.part disk (k + 1)).count '\n') ∧
    l.part disk l.fileNums.toNat = logText current ∧
    l.buffer.take l.size.toNat = logText buffered

/-- **Parts hold whole lines**, in every interleaving of the calling threads, at every point. -/
theorem parts_hold_whole_lines (filename : CString) (disk disk₀ : Disk) (l₀ : Logger)
    (s : Monitor.State (Logger × Disk) CString)
    (hnew : Logger.construct filename disk = .ok (l₀, disk₀)) (h : ShortLogReachable l₀ disk₀ s) :
    HoldsWholeLines s.object.1 s.object.2 s.done := by
  obtain ⟨closed, current, buffered, hr, hlines⟩ := rotated_reachable hnew h
  refine ⟨closed, current, buffered, hlines.symm, hr.fileNums, fun k hk => ?_, ?_,
    hr.bufferedText⟩
  · obtain ⟨htext, hge, hlt⟩ := hr.closedParts k hk
    exact ⟨htext, hge, hlt, Logger.length_storedPart _ _ _⟩
  · rw [hr.fileNums]
    exact hr.currentText

section Samples

/-- The longest short line that is nothing but newlines. -/
def newlines : CString :=
  ⟨List.replicate 16383 '\n', fun h => absurd (List.eq_of_mem_replicate h) (by decide)⟩

theorem length_newlines : newlines.chars.length = 16383 := List.length_replicate

theorem length_logText_replicate (n : Nat) (line : CString) :
    (logText (List.replicate n line)).length = n * line.chars.length := by
  induction n with
  | zero => simp [logText]
  | succ n ih =>
      rw [List.replicate_succ', logText_append_singleton, List.length_append, ih, Nat.succ_mul]

/-- A run that logs such lines, 6402 of them; that is more than the first part and the buffer take,
so the first part is closed. -/
theorem exists_newlines_run :
    ∃ s, ShortLogReachable sampleLogger (Disk.trunc (fun _ => []) sampleLogger.out) s ∧
      s.done = List.replicate 6402 newlines ∧ 1 < s.object.1.fileNums.toNat := by
  have hlength : (logText (List.replicate 6402 newlines)).length = 104883966 := by
    rw [length_logText_replicate, length_newlines]
  obtain ⟨s, hs, hdone⟩ := exists_run (fun _ line => line.chars.length < bufSize)
    (List.replicate 6402 newlines) construct_sampleLogger (fun x line hline => by
      rw [List.eq_of_mem_replicate hline, length_newlines]
      decide) (by rw [hlength]; decide)
  refine ⟨s, hs, hdone, ?_⟩
  obtain ⟨closed, current, buffered, hr, hlines⟩ := rotated_reachable construct_sampleLogger hs
  by_contra hone
  obtain rfl : closed = [] := by
    have hnums := hr.fileNums
    exact List.length_eq_zero_iff.mp (by omega)
  have hsum := congrArg (fun lines => (logText lines).length) (hlines.trans hdone)
  simp only [List.flatten_nil, List.nil_append, logText_append, List.length_append] at hsum
  have hfile := hr.fileSize_lt
  have hsize := hr.size_lt
  rw [hr.fileSize, biggestFileSize_toNat] at hfile
  rw [hr.size_eq, bufSize_eq] at hsize
  omega

theorem parts_hold_whole_lines_sample :
    ∃ s, ShortLogReachable sampleLogger (Disk.trunc (fun _ => []) sampleLogger.out) s ∧
      s.done = List.replicate 6402 newlines ∧ 1 < s.object.1.fileNums.toNat ∧
      HoldsWholeLines s.object.1 s.object.2 s.done := by
  obtain ⟨s, hs, hdone, hclosed⟩ := exists_newlines_run
  exact ⟨s, hs, hdone, hclosed,
    parts_hold_whole_lines sampleFilename (fun _ => []) _ _ s construct_sampleLogger hs⟩

/-- The file of part 1 of that log is longer than a closed part is meant to be. -/
theorem newlines_oversize :
    ∃ s, ShortLogReachable sampleLogger (Disk.trunc (fun _ => []) sampleLogger.out) s ∧
      1 < s.object.1.fileNums.toNat ∧
      biggestFileSize.toNat + bufSize ≤ (s.object.1.storedPart s.object.2 1).length := by
  obtain ⟨s, hs, hdone, hclosed⟩ := exists_newlines_run
  refine ⟨s, hs, hclosed, ?_⟩
  obtain ⟨closed, current, buffered, hr, hlines⟩ := rotated_reachable construct_sampleLogger hs
  have hpos : 0 < closed.length := by
    have hnums := hr.fileNums
    omega
  obtain ⟨htext, hge, -⟩ := hr.closedParts 0 hpos
  -- all characters of the part are newlines
  have hall : ∀ c ∈ s.object.1.part s.object.2 1, c = '\n' := by
    intro c hc
    obtain ⟨line, hline, hc⟩ := List.mem_flatMap.mp (htext ▸ hc)
    have hmem : line ∈ s.done := by
      rw [← hlines]
      refine List.mem_append_left _ (List.mem_append_left _ ?_)
      exact List.mem_flatten.mpr ⟨_, List.getElem_mem hpos, hline⟩
    rw [hdone] at hmem
    rw [List.eq_of_mem_replicate hmem] at hc
    exact List.eq_of_mem_replicate hc
  have hcount : (s.object.1.part s.object.2 1).count '\n' =
      (s.object.1.part s.object.2 1).length := List.count_eq_length.mpr fun c hc => (hall c hc).symm
  rw [Nat.zero_add, biggestFileSize_toNat] at hge
  rw [Logger.length_storedPart, hcount, biggestFileSize_toNat, bufSize_eq]
  omega

end Samples

end PEReplay
