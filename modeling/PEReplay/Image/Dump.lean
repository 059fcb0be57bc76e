/-
# PEReplay.Image.Dump — the hex dump around an address.

`DumpBinaryAround` rounds the address down and the size up to multiples of sixteen, asks whether
both ends are mapped, and prints rows of sixteen bytes.  A row's summary is collected while the row
is printed and comes out when the next row begins, or behind the loop for the last one; the rows are
as they should be all the same (`foldl_dumpStep`).

What was asked for need not be in them: the size is rounded up without what the address lost
(`dump_shows_iff`).  And the question whether an address is mapped has one answer, so the dump reads
whatever lies between the two ends (`dump_mapped_iff`).
-/
import PEReplay.Image.Relocation
import PEReplay.Lib.Printf

namespace PEReplay

open Printf

/-! ## `IsAddrMapped` -/

/-- `s_images` -/
abbrev ImageList := List ImageInfo

/-- `ImageInfo::IsAddrMapped`: both ways out of it return true. -/
def isAddrMapped (images : ImageList) (addr : U32) : Bool :=
  if images.any fun im => im.isAddrMappedImp addr then true else true

/-- The address lies inside a loaded image. -/
def ImageList.Maps (images : ImageList) (addr : U32) : Prop :=
  ∃ im ∈ images, im.address.toNat ≤ addr.toNat ∧ addr.toNat < im.address.toNat + im.size.toNat

theorem isAddrMapped_eq_true (images : ImageList) (addr : U32) : isAddrMapped images addr = true :=
  ite_self true

/-! ## `DumpBinaryAround` -/

/-- What the dump does: it logs a text, or reads a byte. -/
inductive DumpEvent where
  | loq (text : List Char)
  | read (addr : U32)
  deriving Repr, DecidableEq

/-- The texts logged, in order. -/
def loggedTexts (events : List DumpEvent) : List (List Char) :=
  events.filterMap fun
    | .loq text => some text
    | .read _ => none

/-- The addresses read, in order. -/
def bytesRead (events : List DumpEvent) : List U32 :=
  events.filterMap fun
    | .loq _ => none
    | .read addr => some addr

/-- `"Dump Binary Around [0x%08x - 0x%08x]\n"` -/
def aroundText (addr size : U32) : List Char :=
  "Dump Binary Around [0x".toList ++ zeroPad 8 (hex addr.toNat) ++ " - 0x".toList ++
    zeroPad 8 (hex size.toNat) ++ "]\n".toList

/-- `"%4X"` -/
def columnText (i : Nat) : List Char :=
  List.replicate (4 - (hexUpper i).length) ' ' ++ hexUpper i

/-- `"%4s"` for `"__"` -/
def underlineText : List Char := [' ', ' ', '_', '_']

/-- `"  %02X"` -/
def byteText (byte : U8) : List Char := [' ', ' '] ++ zeroPad 2 (hexUpper byte.toNat)

/-- `" ---- %s\n"`, the array up to its first NUL. -/
def summaryText (lineSummary : List Char) : List Char :=
  " ---- ".toList ++ lineSummary.takeWhile (· ≠ '\x00') ++ ['\n']

/-- What stands for a byte in the summary. -/
def summaryChar (byte : U8) : Char :=
  if byte ≥ 0x20 ∧ byte ≤ 0x7E then Char.ofNat byte.toNat else ' '

/-- `char lineSummary[17] = {0,}` -/
def emptySummary : List Char := List.replicate 17 '\x00'

/-- What is logged so far, and `lineSummary`. -/
abbrev DumpState := List DumpEvent × List Char

/-- `if ((pos = i % 16) == 0)`: a row begins, and the row before it is summed up. -/
def dumpOpen (st : DumpState) (i : Nat) : DumpState :=
  if i % 16 = 0 then
    if i ≠ 0 then (st.1 ++ [.loq (summaryText st.2)], emptySummary)
    else (st.1 ++ [.loq ['\n']], st.2)
  else st

/-- The rest of the body: the byte is printed and goes into the summary. -/
def dumpByte (mem : Memory) (addr : U32) (st : DumpState) (i : Nat) : DumpState :=
  let byte := mem (addr + BitVec.ofNat 32 i)
  (st.1 ++ [.read (addr + BitVec.ofNat 32 i), .loq (byteText byte)],
    st.2.set (i % 16) (summaryChar byte))

/-- The body of `for (i=0;i<size;i++)`. -/
def dumpStep (mem : Memory) (addr : U32) (st : DumpState) (i : Nat) : DumpState :=
  dumpByte mem addr (dumpOpen st i) i

/-- The header: the bounds, the columns and a line under them. -/
def dumpHead (addr size : U32) : List DumpEvent :=
  .loq (aroundText addr size) :: (List.range 16).map (fun i => .loq (columnText i)) ++
    [.loq ['\n']] ++ List.replicate 16 (.loq underlineText)

/-- `addr & 0xFFFFFFF0` -/
def dumpStart (addr : U32) : U32 := addr &&& 0xFFFFFFF0

/-- `(size + 0xF) & 0xFFFFFFF0` -/
def dumpSize (size : U32) : U32 := (size + 0xF) &&& 0xFFFFFFF0

/-- `ImageInfo::DumpBinaryAround` -/
def dumpBinaryAround (images : ImageList) (mem : Memory) (addr size : U32) : List DumpEvent :=
  let addr := dumpStart addr
  let size := dumpSize size
  if isAddrMapped images addr && isAddrMapped images (addr + size) then
    let (rows, lineSummary) :=
      (List.range size.toNat).foldl (dumpStep mem addr) ([], emptySummary)
    -- the rounded size has no rest, so no last row is filled up
    let fill :=
      if size.toNat % 16 ≠ 0 then
        List.replicate (16 - size.toNat % 16) (.loq [' ', ' ', ' ', ' '])
      else []
    dumpHead addr size ++ rows ++ fill ++ [.loq (summaryText lineSummary), .loq ['\n']]
  else []

/-! ## Rows -/

section Rows

variable (mem : Memory) (addr : U32)

/-- Byte `j` of row `k`. -/
def rowByte (k j : Nat) : U8 := mem (addr + BitVec.ofNat 32 (16 * k + j))

/-- The first `p` bytes of row `k`. -/
def rowEvents (k p : Nat) : List DumpEvent :=
  (List.range p).flatMap fun j =>
    [.read (addr + BitVec.ofNat 32 (16 * k + j)), .loq (byteText (rowByte mem addr k j))]

/-- The summary of the first `p` bytes of row `k`. -/
def rowSummary (k p : Nat) : List Char :=
  (List.range p).map (fun j => summaryChar (rowByte mem addr k j)) ++
    List.replicate (17 - p) '\x00'

/-- Row `k` with its summary. -/
def fullRow (k : Nat) : List DumpEvent :=
  rowEvents mem addr k 16 ++ [.loq (summaryText (rowSummary mem addr k 16))]

variable {mem addr}

theorem rowSummary_set {k p : Nat} (hp : p < 17) :
    (rowSummary mem addr k p).set p (summaryChar (rowByte mem addr k p)) =
      rowSummary mem addr k (p + 1) := by
  have hlen : ((List.range p).map fun j => summaryChar (rowByte mem addr k j)).length = p := by
    rw [List.length_map, List.length_range]
  have hfill : 17 - p = 17 - (p + 1) + 1 := by omega
  unfold rowSummary
  rw [List.set_append_right _ _ (le_of_eq hlen), hlen, Nat.sub_self, hfill, List.replicate_succ,
    List.set_cons_zero, List.range_succ, List.map_append, List.append_assoc]
  rfl

/-- One byte more in a row that has begun. -/
theorem dumpByte_row {k p : Nat} (hp : p < 16) (events : List DumpEvent) :
    dumpByte mem addr (events ++ rowEvents mem addr k p, rowSummary mem addr k p) (16 * k + p) =
      (events ++ rowEvents mem addr k (p + 1), rowSummary mem addr k (p + 1)) := by
  have hpos : (16 * k + p) % 16 = p := by omega
  unfold dumpByte
  dsimp only
  rw [hpos]
  refine Prod.ext ?_ ?_
  · rw [List.append_assoc, rowEvents, rowEvents, List.range_succ, List.flatMap_append]
    rfl
  · exact rowSummary_set (by omega)

/-- **One row**, from the point where it begins. -/
theorem foldl_row {k p : Nat} (hp : p < 16) {st : DumpState} {events : List DumpEvent}
    (hopen : dumpOpen st (16 * k) = (events, emptySummary)) :
    ((List.range (p + 1)).map (16 * k + ·)).foldl (dumpStep mem addr) st =
      (events ++ rowEvents mem addr k (p + 1), rowSummary mem addr k (p + 1)) := by
  induction p with
  | zero =>
      show dumpByte mem addr (dumpOpen st (16 * k)) (16 * k) = _
      rw [hopen, ← dumpByte_row hp, rowEvents, List.range_zero, List.flatMap_nil, List.append_nil]
      rfl
  | succ p ih =>
      have hmid : ¬ (16 * k + (p + 1)) % 16 = 0 := by omega
      rw [List.range_succ, List.map_append, List.foldl_append, ih (by omega)]
      show dumpByte mem addr (dumpOpen _ (16 * k + (p + 1))) (16 * k + (p + 1)) = _
      rw [dumpOpen, if_neg hmid, dumpByte_row hp]

/-- **All rows**: the last one is not summed up yet. -/
theorem foldl_dumpStep (m : Nat) :
    (List.range (16 * (m + 1))).foldl (dumpStep mem addr) ([], emptySummary) =
      (.loq ['\n'] :: (List.range m).flatMap (fullRow mem addr) ++ rowEvents mem addr m 16,
        rowSummary mem addr m 16) := by
  induction m with
  | zero =>
      have hmap : List.range (16 * (0 + 1)) = (List.range (15 + 1)).map (16 * 0 + ·) := by
        simp
      have hopen : dumpOpen ([], emptySummary) (16 * 0) = ([.loq ['\n']], emptySummary) := rfl
      rw [hmap, foldl_row (by omega) hopen]
      rfl
  | succ m ih =>
      -- the row before is summed up when the next one begins
      have hopen : dumpOpen (.loq ['\n'] :: (List.range m).flatMap (fullRow mem addr) ++
            rowEvents mem addr m 16, rowSummary mem addr m 16) (16 * (m + 1)) =
          (.loq ['\n'] :: (List.range (m + 1)).flatMap (fullRow mem addr), emptySummary) := by
        unfold dumpOpen
        rw [if_pos (by omega), if_pos (by omega), List.range_succ, List.flatMap_append]
        simp [fullRow]
      rw [Nat.mul_succ 16 (m + 1), List.range_add, List.foldl_append, ih,
        foldl_row (by omega) hopen]

end Rows

/-! ## The whole dump -/

section Whole

variable {images : ImageList} {mem : Memory} {addr size : U32}

theorem toNat_dumpStart (addr : U32) : (dumpStart addr).toNat = addr.toNat / 16 * 16 :=
  toNat_and_mask addr

/-- The rounded size is a whole number of rows. -/
theorem toNat_dumpSize (size : U32) : (dumpSize size).toNat = 16 * ((size + 0xF).toNat / 16) := by
  rw [dumpSize, toNat_and_mask, Nat.mul_comm]

/-- The rows of the dump and what follows them. -/
def dumpBody (mem : Memory) (addr size : U32) : List DumpEvent :=
  if size = 0 then [.loq (summaryText []), .loq ['\n']]
  else
    .loq ['\n'] :: (List.range (size.toNat / 16)).flatMap (fullRow mem addr) ++ [.loq ['\n']]

/-- **The dump**: the header and the rows, each with its own summary. -/
theorem dumpBinaryAround_eq (images : ImageList) (mem : Memory) (addr size : U32) :
    dumpBinaryAround images mem addr size =
      dumpHead (dumpStart addr) (dumpSize size) ++
        dumpBody mem (dumpStart addr) (dumpSize size) := by
  have hsize := toNat_dumpSize size
  have hrest : ¬ (dumpSize size).toNat % 16 ≠ 0 := by
    rw [hsize, Nat.mul_mod_right]
    exact not_ne_iff.mpr rfl
  unfold dumpBinaryAround dumpBody
  simp only [isAddrMapped_eq_true, Bool.and_self, if_true, if_neg hrest, List.append_nil]
  generalize (size + 0xF).toNat / 16 = m at hsize
  cases m with
  | zero =>
      have hzero : dumpSize size = 0 := BitVec.toNat_inj.mp hsize
      rw [hzero, if_pos rfl]
      rfl
  | succ m =>
      have hne : dumpSize size ≠ 0 := by
        intro hzero
        rw [hzero] at hsize
        exact absurd hsize (by simp)
      rw [if_neg hne, hsize, foldl_dumpStep, Nat.mul_div_cancel_left (m + 1) (by omega),
        List.range_succ, List.flatMap_append]
      simp [fullRow]

theorem bytesRead_append (es es' : List DumpEvent) :
    bytesRead (es ++ es') = bytesRead es ++ bytesRead es' :=
  List.filterMap_append

theorem loggedTexts_append (es es' : List DumpEvent) :
    loggedTexts (es ++ es') = loggedTexts es ++ loggedTexts es' :=
  List.filterMap_append

theorem bytesRead_dumpHead (addr size : U32) : bytesRead (dumpHead addr size) = [] := rfl

theorem bytesRead_flatMap_fullRow (mem : Memory) (addr : U32) (m : Nat) :
    bytesRead ((List.range m).flatMap (fullRow mem addr)) =
      (List.range (16 * m)).map fun i => addr + BitVec.ofNat 32 i := by
  induction m with
  | zero => rfl
  | succ m ih =>
      rw [List.range_succ, List.flatMap_append, bytesRead_append, ih, List.flatMap_singleton,
        Nat.mul_succ, List.range_add, List.map_append, List.map_map]
      rfl

/-- **Every byte is read once, in address order.** -/
theorem bytesRead_dumpBinaryAround (images : ImageList) (mem : Memory) (addr size : U32) :
    bytesRead (dumpBinaryAround images mem addr size) =
      (List.range (dumpSize size).toNat).map fun i => dumpStart addr + BitVec.ofNat 32 i := by
  have hsize := toNat_dumpSize size
  rw [dumpBinaryAround_eq, bytesRead_append, bytesRead_dumpHead, List.nil_append, dumpBody]
  split_ifs with hzero
  · rw [hzero]
    rfl
  · rw [bytesRead_append, hsize, Nat.mul_div_cancel_left _ (by omega), ← bytesRead_flatMap_fullRow]
    exact List.append_nil _

theorem summaryChar_ne_nul (byte : U8) : summaryChar byte ≠ '\x00' := by
  unfold summaryChar
  split_ifs with hprint
  · intro hnul
    have hvalid : byte.toNat.isValidChar := Or.inl (by omega)
    have hcode : (Char.ofNat byte.toNat).toNat = byte.toNat := by
      rw [Char.ofNat, dif_pos hvalid]
      rfl
    have hzero : byte.toNat = 0 := by
      rw [← hcode, hnul]
      rfl
    have hlow := hprint.1
    bv_omega
  · decide

/-- The texts of row `k`: its sixteen bytes, and the summary of the same bytes. -/
def rowTexts (mem : Memory) (addr : U32) (k : Nat) : List (List Char) :=
  (List.range 16).map (fun j => byteText (rowByte mem addr k j)) ++
    [" ---- ".toList ++ (List.range 16).map (fun j => summaryChar (rowByte mem addr k j)) ++ ['\n']]

theorem loggedTexts_fullRow (mem : Memory) (addr : U32) (k : Nat) :
    loggedTexts (fullRow mem addr k) = rowTexts mem addr k := by
  have hsummary : (rowSummary mem addr k 16).takeWhile (· ≠ '\x00') =
      (List.range 16).map fun j => summaryChar (rowByte mem addr k j) := by
    unfold rowSummary
    rw [List.takeWhile_append_of_pos]
    · simp
    · intro c hc
      obtain ⟨j, -, rfl⟩ := List.mem_map.mp hc
      simpa using summaryChar_ne_nul (rowByte mem addr k j)
  rw [fullRow, loggedTexts_append, rowTexts]
  congr 1
  rw [← hsummary]
  rfl

/-- What the rows of a dump and the line behind them should read. -/
def bodyTexts (mem : Memory) (addr size : U32) : List (List Char) :=
  if size = 0 then [summaryText [], ['\n']]
  else ['\n'] :: (List.range (size.toNat / 16)).flatMap (rowTexts mem addr) ++ [['\n']]

/-- **Sixteen bytes a row, each row with its own summary.** -/
theorem loggedTexts_dumpBinaryAround (images : ImageList) (mem : Memory) (addr size : U32) :
    loggedTexts (dumpBinaryAround images mem addr size) =
      loggedTexts (dumpHead (dumpStart addr) (dumpSize size)) ++
        bodyTexts mem (dumpStart addr) (dumpSize size) := by
  rw [dumpBinaryAround_eq, loggedTexts_append, dumpBody, bodyTexts]
  congr 1
  split_ifs
  · rfl
  · have hrows : loggedTexts ((List.range ((dumpSize size).toNat / 16)).flatMap
          (fullRow mem (dumpStart addr))) =
        (List.range ((dumpSize size).toNat / 16)).flatMap (rowTexts mem (dumpStart addr)) := by
      rw [loggedTexts, List.filterMap_flatMap]
      exact List.flatMap_congr fun k _ => loggedTexts_fullRow mem (dumpStart addr) k
    rw [← hrows, loggedTexts_append]
    rfl

end Whole

/-! ## What was asked for -/

/-- The dump shows all of `[addr, addr + size)`, every byte of the range it prints once and in
order, in rows of sixteen with the summary of the same sixteen. -/
structure DumpShows (images : ImageList) (mem : Memory) (addr size : U32) : Prop where
  covers : ∀ x : U32, addr.toNat ≤ x.toNat → x.toNat < addr.toNat + size.toNat →
    x ∈ bytesRead (dumpBinaryAround images mem addr size)
  once : bytesRead (dumpBinaryAround images mem addr size) =
    (List.range (dumpSize size).toNat).map fun i => dumpStart addr + BitVec.ofNat 32 i
  rows : loggedTexts (dumpBinaryAround images mem addr size) =
    loggedTexts (dumpHead (dumpStart addr) (dumpSize size)) ++
      bodyTexts mem (dumpStart addr) (dumpSize size)

/-- Below the top of the address space a byte is read when it is in the rounded range. -/
theorem mem_bytesRead_iff {images : ImageList} {mem : Memory} {addr size : U32}
    (hfits : addr.toNat + size.toNat + 16 < 2 ^ 32) (x : U32) :
    x ∈ bytesRead (dumpBinaryAround images mem addr size) ↔ (dumpStart addr).toNat ≤ x.toNat ∧
      x.toNat < (dumpStart addr).toNat + (dumpSize size).toNat := by
  have hstart := toNat_dumpStart addr
  have hsize := toNat_dumpSize size
  have hround : (size + 0xF).toNat = size.toNat + 15 := by bv_omega
  rw [bytesRead_dumpBinaryAround, List.mem_map]
  constructor
  · rintro ⟨i, hi, rfl⟩
    rw [List.mem_range] at hi
    have hadd : (dumpStart addr + BitVec.ofNat 32 i).toNat = (dumpStart addr).toNat + i := by
      bv_omega
    omega
  · rintro ⟨hlo, hhi⟩
    refine ⟨x.toNat - (dumpStart addr).toNat, List.mem_range.mpr (by omega), ?_⟩
    bv_omega

/-- **When the dump shows what was asked for**: when what the address loses by rounding and what the
last byte lacks to a whole row fit into one row. -/
theorem dump_shows_iff (images : ImageList) (mem : Memory) (addr size : U32)
    (hfits : addr.toNat + size.toNat + 16 < 2 ^ 32) :
    DumpShows images mem addr size ↔
      (0 < size.toNat → addr.toNat % 16 + (size.toNat - 1) % 16 < 16) := by
  have hstart := toNat_dumpStart addr
  have hsize := toNat_dumpSize size
  have hround : (size + 0xF).toNat = size.toNat + 15 := by bv_omega
  rw [hround] at hsize
  constructor
  · rintro ⟨hcovers, -, -⟩ hpos
    -- the last byte that was asked for
    have hlast : (addr + (size - 1)).toNat = addr.toNat + (size.toNat - 1) := by bv_omega
    have hread := hcovers (addr + (size - 1)) (by omega) (by omega)
    have hin := ((mem_bytesRead_iff hfits _).mp hread).2
    omega
  · intro hcond
    refine ⟨fun x hlo hhi => ?_, bytesRead_dumpBinaryAround images mem addr size,
      loggedTexts_dumpBinaryAround images mem addr size⟩
    have hroom := hcond (by omega)
    exact (mem_bytesRead_iff hfits x).mpr ⟨by omega, by omega⟩

/-- Every byte that is read lies inside a loaded image, and the two questions that are asked before
have the right answer. -/
structure DumpMapped (images : ImageList) (mem : Memory) (addr size : U32) : Prop where
  inside : ∀ a ∈ bytesRead (dumpBinaryAround images mem addr size), images.Maps a
  first : isAddrMapped images (dumpStart addr) = true ↔ images.Maps (dumpStart addr)
  last : isAddrMapped images (dumpStart addr + dumpSize size) = true ↔
    images.Maps (dumpStart addr + dumpSize size)

/-- The bytes that are read are mapped when the whole rounded range is. -/
theorem bytesRead_mapped_iff (images : ImageList) (mem : Memory) (addr size : U32) :
    (∀ a ∈ bytesRead (dumpBinaryAround images mem addr size), images.Maps a) ↔
      ∀ k < (dumpSize size).toNat, images.Maps (dumpStart addr + BitVec.ofNat 32 k) := by
  rw [bytesRead_dumpBinaryAround, List.forall_mem_map]
  simp only [List.mem_range]

/-- **When the dump reads mapped bytes only**, behind questions that are answered right: when all of
the rounded range is mapped, with the address behind it. -/
theorem dump_mapped_iff (images : ImageList) (mem : Memory) (addr size : U32) :
    DumpMapped images mem addr size ↔
      ∀ k ≤ (dumpSize size).toNat, images.Maps (dumpStart addr + BitVec.ofNat 32 k) := by
  have hstop : dumpStart addr + BitVec.ofNat 32 (dumpSize size).toNat =
      dumpStart addr + dumpSize size := by
    rw [BitVec.ofNat_toNat, BitVec.setWidth_eq]
  constructor
  · rintro ⟨hinside, -, hlast⟩ k hk
    rcases Nat.lt_or_eq_of_le hk with hlt | rfl
    · exact (bytesRead_mapped_iff images mem addr size).mp hinside k hlt
    · rw [hstop]
      exact hlast.mp (isAddrMapped_eq_true images _)
  · intro hall
    have hfirst := hall 0 (Nat.zero_le _)
    have hlast := hall _ le_rfl
    rw [BitVec.add_zero] at hfirst
    rw [hstop] at hlast
    refine ⟨?_, iff_of_true (isAddrMapped_eq_true images _) hfirst,
      iff_of_true (isAddrMapped_eq_true images _) hlast⟩
    exact (bytesRead_mapped_iff images mem addr size).mpr fun k hk => hall k hk.le

section Samples

/-- An image of four pages. -/
def fourPages : ImageInfo := ⟨0x10000, 0x4000, [], fun _ => 0x90⟩

theorem dump_shows_iff_sample : DumpShows [fourPages] fourPages.mem 0x10008 8 ↔
    (0 < (8 : U32).toNat → (0x10008 : U32).toNat % 16 + ((8 : U32).toNat - 1) % 16 < 16) :=
  dump_shows_iff [fourPages] fourPages.mem 0x10008 8 (by decide)

/-- Of the sixteen bytes from `0x10008` the last eight are not shown. -/
theorem half_row_missing : bytesRead (dumpBinaryAround [fourPages] fourPages.mem 0x10008 16) =
      (List.range 16).map (fun i => 0x10000 + BitVec.ofNat 32 i) ∧
    ¬ DumpShows [fourPages] fourPages.mem 0x10008 16 := by
  refine ⟨bytesRead_dumpBinaryAround [fourPages] fourPages.mem 0x10008 16, fun h => ?_⟩
  have hread := h.covers 0x10017 (by decide) (by decide)
  rw [h.once] at hread
  exact absurd hread (by decide)

/-- Nothing is mapped at `0x20000`, and sixteen bytes are read there. -/
theorem unmapped_row_read : (0x20000 : U32) ∈
      bytesRead (dumpBinaryAround [fourPages] fourPages.mem 0x20000 16) ∧
    ¬ DumpMapped [fourPages] fourPages.mem 0x20000 16 := by
  have hread : (0x20000 : U32) ∈
      bytesRead (dumpBinaryAround [fourPages] fourPages.mem 0x20000 16) := by
    rw [bytesRead_dumpBinaryAround]
    exact List.mem_map.mpr ⟨0, by decide, rfl⟩
  refine ⟨hread, fun h => ?_⟩
  obtain ⟨im, him, -, hlt⟩ := h.inside _ hread
  rw [List.mem_singleton.mp him] at hlt
  exact absurd hlt (by decide)

end Samples

end PEReplay
