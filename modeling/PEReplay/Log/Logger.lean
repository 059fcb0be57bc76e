/-
# PEReplay.Log.Logger — the buffered, split log file.

A `Logger` collects lines in `m_buffer` and writes them to a part file when the buffer would
overflow; when a part has grown beyond 100 MB the next part is opened.  The buffer starts as 16384
NULs and is emptied by every flush, so a line first overwrites and later extends it.

A `Disk` is the text that has been handed to the stream of each name.  Opening with `trunc` empties
it, writing extends it; the streams themselves are assumed to work.  They are opened without
`std::ofstream::binary`, so on Windows the file itself holds every newline as CR LF (`Disk.stored`):
`m_file_size` counts the text, and the file is longer than that.
-/
import PEReplay.Machine
import PEReplay.Lib.Printf
import Mathlib.Logic.Function.Basic

namespace PEReplay

open Printf

/-- A `const char*` text: what stands before the terminating NUL. -/
structure CString where
  chars : List Char
  noNul : '\x00' ∉ chars
  deriving DecidableEq

/-- `BUF_SIZE` -/
def bufSize : Nat := 4096 * 4

/-- `BIGGEST_FILE_SIZE` -/
def biggestFileSize : U32 := BitVec.ofNat 32 (100 * 1024 * 1024)

/-- `BIGGEST_FILE_NUMS` -/
def biggestFileNums : U32 := 20

/-- The size of the `partial_file_name` arrays. -/
def partialFileNameSize : Nat := 1024

/-- The text handed to the stream of each file name. -/
abbrev Disk := List Char → List Char

namespace Disk

/-- Open with `std::ofstream::trunc`. -/
def trunc (disk : Disk) (name : List Char) : Disk := Function.update disk name []

/-- `write` on an open stream. -/
def write (disk : Disk) (name text : List Char) : Disk :=
  Function.update disk name (disk name ++ text)

end Disk

/-- What a stream in text mode stores of a text: every newline becomes CR LF. -/
def textMode (text : List Char) : List Char :=
  text.flatMap fun c => if c = '\n' then ['\r', '\n'] else [c]

theorem textMode_append (text text' : List Char) :
    textMode (text ++ text') = textMode text ++ textMode text' := List.flatMap_append

/-- Every newline makes the file one byte longer than the text. -/
theorem length_textMode (text : List Char) :
    (textMode text).length = text.length + text.count '\n' := by
  induction text with
  | nil => rfl
  | cons c text ih =>
      rw [← List.singleton_append, textMode_append, List.length_append, ih, List.length_append,
        List.count_append]
      have hone : (textMode [c]).length = [c].length + [c].count '\n' := by
        by_cases hc : c = '\n'
        · subst hc
          rfl
        · simp [textMode, hc]
      omega

namespace Disk

/-- What the file holds. -/
def stored (disk : Disk) (name : List Char) : List Char := textMode (disk name)

end Disk

/-- How a call can throw. -/
inductive LogError where
  /-- `std::length_error` of `resize` with a negative length -/
  | lengthError
  /-- `sprintf_s` into an array that is too small -/
  | invalidParameter
  /-- `std::out_of_range` of `replace` -/
  | outOfRange
  /-- `exception("Too many logs")` -/
  | tooManyLogs
  deriving Repr, DecidableEq

/-- `Logger`; `out` is the name of the part that `m_out` writes. -/
structure Logger where
  out : List Char
  size : U32
  fileSize : U32
  originalFilename : List Char
  fileNums : U32
  buffer : List Char
  deriving Repr, DecidableEq

/-- A sequence of two calls returns when both do. -/
theorem exceptBind_ok {ε α β : Type} {x : Except ε α} {f : α → Except ε β} {r : β}
    (h : x >>= f = .ok r) : ∃ a, x = .ok a ∧ f a = .ok r := by
  cases x with
  | error e => exact absurd h (by simp [bind, Except.bind])
  | ok a => exact ⟨a, rfl, h⟩

/-- A sequence of two calls throws when one of them does. -/
theorem exceptBind_error {ε α β : Type} {x : Except ε α} {f : α → Except ε β} {e : ε}
    (h : x >>= f = .error e) : x = .error e ∨ ∃ a, x = .ok a ∧ f a = .error e := by
  cases x with
  | error e' => exact Or.inl (congrArg _ (Except.error.inj h))
  | ok a => exact Or.inr ⟨a, rfl, h⟩

/-- `"%s_%03d.clg"` -/
def partialFileName (originalFilename : List Char) (fileNums : U32) : List Char :=
  originalFilename ++ '_' :: (signedPad 3 fileNums.toInt ++ ['.', 'c', 'l', 'g'])

/-- `sprintf_s(partial_file_name, 1024, …)`: the text and its NUL have to fit. -/
def sprintfPartialFileName (originalFilename : List Char) (fileNums : U32) :
    Except LogError (List Char) :=
  let name := partialFileName originalFilename fileNums
  if name.length < partialFileNameSize then .ok name else .error .invalidParameter

namespace Logger

/-- `Logger::Logger` -/
def construct (filename : CString) (disk : Disk) : Except LogError (Logger × Disk) :=
  if filename.chars.length < 4 then .error .lengthError
  else do
    let originalFilename := filename.chars.take (filename.chars.length - 4)
    let name ← sprintfPartialFileName originalFilename 1
    return ({
      out := name
      size := 0
      fileSize := 0
      originalFilename := originalFilename
      fileNums := 1
      buffer := List.replicate bufSize '\x00' }, disk.trunc name)

/-- `Logger::SplitFile` -/
def splitFile (l : Logger) (disk : Disk) : Except LogError (Logger × Disk) :=
  if l.fileNums > biggestFileNums then .error .tooManyLogs
  else do
    let fileNums := l.fileNums + 1
    let name ← sprintfPartialFileName l.originalFilename fileNums
    return ({ l with fileNums := fileNums, out := name, fileSize := 0 }, disk.trunc name)

/-- `Logger::Flush` -/
def flush (l : Logger) (disk : Disk) : Except LogError (Logger × Disk) :=
  let disk := disk.write l.out (l.buffer.take l.size.toNat)
  let l := { l with buffer := [], fileSize := l.fileSize + l.size, size := 0 }
  if l.fileSize ≥ biggestFileSize then l.splitFile disk else .ok (l, disk)

/-- `m_buffer.replace(m_size, len, line)` -/
def replace (l : Logger) (len : U32) (line : List Char) : Except LogError Logger :=
  if l.buffer.length < l.size.toNat then .error .outOfRange
  else .ok { l with
    buffer := l.buffer.take l.size.toNat ++ line ++ l.buffer.drop (l.size.toNat + len.toNat) }

/-- `Logger::Logline` between its lock and its unlock. -/
def logline (l : Logger) (disk : Disk) (line : CString) : Except LogError (Logger × Disk) := do
  let len := BitVec.ofNat 32 line.chars.length
  let flushed := if len + l.size ≥ BitVec.ofNat 32 bufSize then l.flush disk else .ok (l, disk)
  let (l, disk) ← flushed
  let l ← l.replace len line.chars
  return ({ l with size := l.size + len }, disk)

/-- `Logger::~Logger` between its lock and its unlock. -/
def destroy (l : Logger) (disk : Disk) : Except LogError (Logger × Disk) := l.flush disk

/-- The part files `_001`, `_002`, …, concatenated in number order. -/
def parts (l : Logger) (disk : Disk) : List Char :=
  (List.range' 1 l.fileNums.toNat).flatMap fun k =>
    disk (partialFileName l.originalFilename (BitVec.ofNat 32 k))

end Logger

end PEReplay
