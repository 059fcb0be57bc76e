/-
# PEReplay.Log.Format — the grow-and-retry loop of `LoglineF`.

`LoglineF` formats into a string that starts at 100 characters and is doubled until `vsnprintf`
reports a length that is positive and below the size.  A text that is not empty is reached that way
long before the `int` overflows (`formatLine_of_ne_nil`).  The length of the empty text is never
positive, so the size is doubled until it overflows (`formatLine_nil`).

`vsnprintf` is a parameter; `Formats` is what its documentation says.
-/
import PEReplay.Log.Logger
import PEReplay.Lib.Loop
import Mathlib.Data.List.TakeWhile

namespace PEReplay

open Loop

/-- `vsnprintf` for one format and its arguments: from the string it writes to and the size, what it
returns and the string after it. -/
abbrev Vsnprintf := List Char → Int → Int × List Char

/-- `INT_MAX` -/
def intMax : Int := 2 ^ 31 - 1

/-- `std::string::resize` -/
def resize (s : List Char) (n : Nat) : List Char :=
  s.take n ++ List.replicate (n - s.length) '\x00'

/-- `std::string::c_str()`, as it is read: up to the first NUL. -/
def cStr (s : List Char) : CString where
  chars := s.takeWhile (· ≠ '\x00')
  noNul := fun h => by simpa using List.mem_takeWhile_imp h

/-- What ends the loop other than a text: `size *= 2` overflows. -/
inductive FormatError where
  | sizeOverflow
  deriving Repr, DecidableEq

/-- `dest` and `size`. -/
structure FormatState where
  dest : List Char
  size : Int

/-- One pass of `while (!b)`. -/
def formatBody (vsnprintf : Vsnprintf) (st : FormatState) :
    LoopStep FormatState (Except FormatError CString) :=
  let dest := resize st.dest st.size.toNat
  let (n, dest) := vsnprintf dest st.size
  if n > 0 ∧ n < st.size then .exit (.ok (cStr (resize dest n.toNat)))
  else if st.size * 2 > intMax then .exit (.error .sizeOverflow)
  else .next ⟨dest, st.size * 2⟩

/-- The loop of `LoglineF`: what it passes to `Logline`. -/
def formatLine (n : Nat) (vsnprintf : Vsnprintf) : Option (Except FormatError CString) :=
  whileLoop (fun st => some (formatBody vsnprintf st)) n ⟨[], 100⟩

/-- **What `vsnprintf` does with a text**: where the text fits it is written, with its length
returned; else the length or a negative value is returned. -/
def Formats (vsnprintf : Vsnprintf) (text : CString) : Prop :=
  ∀ dest size, 0 < size →
    ((text.chars.length : Int) < size → (vsnprintf dest size).1 = text.chars.length ∧
      (vsnprintf dest size).2.take text.chars.length = text.chars) ∧
    (size ≤ text.chars.length → (vsnprintf dest size).1 = text.chars.length ∨
      (vsnprintf dest size).1 < 0)

section Format

variable {vsnprintf : Vsnprintf} {text : CString}

/-- Cut to its length, the string is the text. -/
theorem cStr_resize {dest : List Char} (h : dest.take text.chars.length = text.chars) :
    cStr (resize dest text.chars.length) = text := by
  have hlen : text.chars.length ≤ dest.length := by
    rw [← h, List.length_take]
    exact Nat.min_le_right _ _
  have hsame : resize dest text.chars.length = text.chars := by
    unfold resize
    rw [h, Nat.sub_eq_zero_of_le hlen, List.replicate_zero, List.append_nil]
  have hall : ∀ c ∈ text.chars, c ≠ '\x00' := fun c hc heq => text.noNul (heq ▸ hc)
  unfold cStr
  rw [hsame]
  cases text with
  | mk chars noNul =>
      congr 1
      exact List.takeWhile_eq_self_iff.mpr fun c hc => by simpa using hall c hc

/-- A size the loop can have. -/
def FormatState.Valid (st : FormatState) : Prop := 100 ≤ st.size ∧ st.size ≤ intMax

/-- **Run.** A loop whose every pass leaves with `r`, or doubles a size that can be doubled,
computes `r`. -/
theorem formatLine_of_passes {r : Except FormatError CString}
    (hpass : ∀ st : FormatState, st.Valid → formatBody vsnprintf st = .exit r ∨
      ∃ dest, formatBody vsnprintf st = .next ⟨dest, st.size * 2⟩ ∧ st.size * 2 ≤ intMax) :
    Computes (fun n => formatLine n vsnprintf) r := by
  have htotal : ∃ r', Computes (fun n => whileLoop
      (fun st => some (formatBody vsnprintf st)) n ⟨[], 100⟩) r' ∧ r' = r := by
    apply total_rule (fun st : FormatState => (intMax - st.size).toNat) FormatState.Valid
      (fun r' => r' = r)
    · intro st hst
      have hlow := hst.1
      rcases hpass st hst with hbody | ⟨dest, hbody, hmax⟩
      · rw [hbody]
        exact Or.inl ⟨r, computes_some _, rfl⟩
      · rw [hbody]
        refine Or.inr ⟨_, computes_some _, ?_, ?_, hmax⟩
        · show (intMax - st.size * 2).toNat < (intMax - st.size).toNat
          omega
        · show 100 ≤ st.size * 2
          omega
    · exact ⟨le_rfl, by decide⟩
  obtain ⟨r', hr, rfl⟩ := htotal
  exact hr

/-- **A text that is not empty** is passed on: it fits, or the size can be doubled. -/
theorem formatLine_of_ne_nil (h : Formats vsnprintf text) (hlen : text.chars.length < 2 ^ 30)
    (hne : text.chars ≠ []) : Computes (fun n => formatLine n vsnprintf) (.ok text) := by
  apply formatLine_of_passes
  intro st hst
  have hpos : 0 < text.chars.length := List.length_pos_of_ne_nil hne
  have hlow := hst.1
  obtain ⟨hfits, hover⟩ := h (resize st.dest st.size.toNat) st.size (by omega)
  unfold formatBody
  dsimp only
  by_cases hroom : (text.chars.length : Int) < st.size
  · obtain ⟨hn, hdest⟩ := hfits hroom
    rw [hn, if_pos ⟨by omega, hroom⟩, Int.toNat_natCast, cStr_resize hdest]
    exact Or.inl rfl
  · -- what is returned is too long, or negative
    have hretry : ¬ ((vsnprintf (resize st.dest st.size.toNat) st.size).1 > 0 ∧
        (vsnprintf (resize st.dest st.size.toNat) st.size).1 < st.size) := by
      rintro ⟨hn, hlt⟩
      rcases hover (not_lt.mp hroom) with heq | hneg
      · omega
      · omega
    have hmax : st.size * 2 ≤ intMax := by
      unfold intMax
      omega
    rw [if_neg hretry, if_neg (not_lt.mpr hmax)]
    exact Or.inr ⟨_, rfl, hmax⟩

/-- **The empty text** is never accepted: its length is zero at every size. -/
theorem formatLine_nil (h : Formats vsnprintf text) (hnil : text.chars = []) :
    Computes (fun n => formatLine n vsnprintf) (.error .sizeOverflow) := by
  apply formatLine_of_passes
  intro st hst
  have hlow := hst.1
  obtain ⟨hfits, -⟩ := h (resize st.dest st.size.toNat) st.size (by omega)
  rw [hnil] at hfits
  have hzero := (hfits (by show (0 : Int) < st.size; omega)).1
  unfold formatBody
  dsimp only
  rw [hzero, if_neg (by simp)]
  split_ifs with hover
  · exact Or.inl rfl
  · exact Or.inr ⟨_, rfl, not_lt.mp hover⟩

/-- **When `LoglineF` passes its text on.**  The loop ends without an overflow, with exactly the
text, when the text is not empty. -/
theorem formatLine_iff (vsnprintf : Vsnprintf) (text : CString) (hlen : text.chars.length < 2 ^ 30)
    (h : Formats vsnprintf text) :
    Computes (fun n => formatLine n vsnprintf) (.ok text) ↔ text.chars ≠ [] := by
  constructor
  · intro hok hnil
    exact absurd (hok.unique (formatLine_nil h hnil)) (by simp)
  · intro hne
    exact formatLine_of_ne_nil h hlen hne

end Format

section Samples

/-- The `vsnprintf` of the C standard, for a fixed text: what fits of it and a NUL, and its length
in any case. -/
def vsnprintfOf (text : List Char) : Vsnprintf := fun dest size =>
  let written := text.take (size.toNat - 1) ++ ['\x00']
  (text.length, written ++ dest.drop written.length)

theorem formats_vsnprintfOf (text : CString) : Formats (vsnprintfOf text.chars) text := by
  intro dest size hsize
  refine ⟨fun hroom => ⟨rfl, ?_⟩, fun _ => Or.inl rfl⟩
  have hall : text.chars.take (size.toNat - 1) = text.chars := List.take_of_length_le (by omega)
  unfold vsnprintfOf
  dsimp only
  rw [hall, List.append_assoc, List.take_left']
  rfl

/-- The line `"ok"`. -/
def okText : CString := ⟨['o', 'k'], by decide⟩

/-- The empty line. -/
def emptyText : CString := ⟨[], by decide⟩

theorem formatLine_iff_sample :
    Computes (fun n => formatLine n (vsnprintfOf okText.chars)) (.ok okText) :=
  (formatLine_iff (vsnprintfOf okText.chars) okText (by decide) (formats_vsnprintfOf okText)).mpr
    (by decide)

/-- The empty line is not passed on: the size overflows. -/
theorem empty_line_overflows :
    Computes (fun n => formatLine n (vsnprintfOf emptyText.chars)) (.error .sizeOverflow) ∧
      ¬ Computes (fun n => formatLine n (vsnprintfOf emptyText.chars)) (.ok emptyText) := by
  have hover := formatLine_nil (formats_vsnprintfOf emptyText) rfl
  refine ⟨hover, fun hok => ?_⟩
  exact absurd (hok.unique hover) (by simp)

end Samples

end PEReplay
