/-
# The `printf` conversions `%d`, `%03d`, `%08x`, `%02X`, and reading them back.

Texts are lists of characters.  `signed` prints an integer, `zeroPad` fills a text with zeros to a
field width, `hex` and `hexUpper` print a number to base 16.  Each conversion comes with a reader
that recovers the printed value (`readSigned_signed`, `readHex_hex`, ...), so a text put together
from conversions and separators can be taken apart again: `cutAt` splits a text at the first
occurrence of a separator that the printed part does not contain.
-/
import Mathlib.Data.List.Basic
import Mathlib.Algebra.Order.Group.Nat
import Mathlib.Tactic.IntervalCases

namespace Printf

/-! ## Decimal conversions -/

/-- `%u`: a natural number to base ten. -/
def decimal (n : Nat) : List Char := Nat.toDigits 10 n

/-- `%d` -/
def signed (z : Int) : List Char :=
  if z < 0 then '-' :: decimal z.natAbs else decimal z.natAbs

/-- Zeros in front of a text up to the field width. -/
def zeroPad (width : Nat) (l : List Char) : List Char :=
  List.replicate (width - l.length) '0' ++ l

/-- `%0<width>d`: the sign comes in front of the zeros and counts for the width. -/
def signedPad (width : Nat) (z : Int) : List Char :=
  if z < 0 then '-' :: zeroPad (width - 1) (decimal z.natAbs) else zeroPad width (decimal z.natAbs)

/-- Read a decimal text. -/
def readDecimal (l : List Char) : Nat := Nat.ofDigitChars 10 l 0

/-- Read a decimal text with an optional sign. -/
def readSigned : List Char → Int
  | '-' :: l => -(readDecimal l : Int)
  | l => (readDecimal l : Int)

theorem readDecimal_decimal (n : Nat) : readDecimal (decimal n) = n :=
  Nat.ofDigitChars_ten_toDigits

theorem readDecimal_zeroPad (width : Nat) (l : List Char) :
    readDecimal (zeroPad width l) = readDecimal l := by
  simp only [readDecimal, zeroPad, Nat.ofDigitChars_append, Nat.ofDigitChars_replicate_zero,
    Nat.mul_zero]

theorem isDigit_of_mem_decimal {n : Nat} {c : Char} (h : c ∈ decimal n) : c.isDigit = true :=
  Nat.isDigit_of_mem_toDigits (by decide) (by decide) h

theorem isDigit_of_mem_zeroPad {width n : Nat} {c : Char} (h : c ∈ zeroPad width (decimal n)) :
    c.isDigit = true := by
  rcases List.mem_append.mp h with h | h
  · rw [List.eq_of_mem_replicate h]
    rfl
  · exact isDigit_of_mem_decimal h

/-- Digits and the sign are the only characters a decimal conversion prints. -/
theorem isDigit_or_minus_of_mem_signed {z : Int} {c : Char} (h : c ∈ signed z) :
    c.isDigit = true ∨ c = '-' := by
  unfold signed at h
  split_ifs at h
  · rcases List.mem_cons.mp h with rfl | h
    · exact Or.inr rfl
    · exact Or.inl (isDigit_of_mem_decimal h)
  · exact Or.inl (isDigit_of_mem_decimal h)

theorem isDigit_or_minus_of_mem_signedPad {width : Nat} {z : Int} {c : Char}
    (h : c ∈ signedPad width z) : c.isDigit = true ∨ c = '-' := by
  unfold signedPad at h
  split_ifs at h
  · rcases List.mem_cons.mp h with rfl | h
    · exact Or.inr rfl
    · exact Or.inl (isDigit_of_mem_zeroPad h)
  · exact Or.inl (isDigit_of_mem_zeroPad h)

theorem readSigned_of_isDigit {l : List Char} (h : ∀ c ∈ l, c.isDigit = true) :
    readSigned l = (readDecimal l : Int) := by
  unfold readSigned
  split
  · exact absurd (h '-' List.mem_cons_self) (by decide)
  · rfl

/-- **`%d` is read back.** -/
theorem readSigned_signed (z : Int) : readSigned (signed z) = z := by
  unfold signed
  split_ifs with hneg
  · change -(readDecimal (decimal z.natAbs) : Int) = z
    rw [readDecimal_decimal]
    omega
  · rw [readSigned_of_isDigit fun c hc => isDigit_of_mem_decimal hc, readDecimal_decimal]
    omega

/-- **`%0<width>d` is read back.** -/
theorem readSigned_signedPad (width : Nat) (z : Int) : readSigned (signedPad width z) = z := by
  unfold signedPad
  split_ifs with hneg
  · change -(readDecimal (zeroPad (width - 1) (decimal z.natAbs)) : Int) = z
    rw [readDecimal_zeroPad, readDecimal_decimal]
    omega
  · rw [readSigned_of_isDigit fun c hc => isDigit_of_mem_zeroPad hc, readDecimal_zeroPad,
      readDecimal_decimal]
    omega

theorem signedPad_injective (width : Nat) : Function.Injective (signedPad width) :=
  Function.LeftInverse.injective (readSigned_signedPad width)

/-! ## Hexadecimal conversions -/

/-- `%x` -/
def hex (n : Nat) : List Char := Nat.toDigits 16 n

/-- `%X` -/
def hexUpper (n : Nat) : List Char := (hex n).map Char.toUpper

/-- The value of a hexadecimal digit of either case. -/
def hexValue (c : Char) : Nat :=
  if c.isDigit then c.toNat - '0'.toNat else c.toLower.toNat - 'a'.toNat + 10

/-- Read a hexadecimal text. -/
def readHex (l : List Char) : Nat := l.foldl (fun n c => 16 * n + hexValue c) 0

theorem hexValue_digitChar {d : Nat} (h : d < 16) : hexValue d.digitChar = d := by
  interval_cases d <;> decide

theorem hexValue_toUpper_digitChar {d : Nat} (h : d < 16) :
    hexValue d.digitChar.toUpper = d := by
  interval_cases d <;> decide

theorem readHex_append_singleton (l : List Char) (c : Char) :
    readHex (l ++ [c]) = 16 * readHex l + hexValue c := by
  simp only [readHex, List.foldl_append, List.foldl_cons, List.foldl_nil]

/-- **`%x` is read back.** -/
theorem readHex_hex (n : Nat) : readHex (hex n) = n := by
  induction n using Nat.strong_induction_on with
  | _ n ih =>
      rw [hex, Nat.toDigits_eq_if (by decide)]
      split_ifs with hlt
      · simp [readHex, hexValue_digitChar hlt]
      · rw [readHex_append_singleton, ← hex, ih (n / 16) (by omega),
          hexValue_digitChar (Nat.mod_lt n (by decide))]
        omega

theorem readHex_hexUpper (n : Nat) : readHex (hexUpper n) = n := by
  induction n using Nat.strong_induction_on with
  | _ n ih =>
      rw [hexUpper, hex, Nat.toDigits_eq_if (by decide)]
      split_ifs with hlt
      · simp [readHex, hexValue_toUpper_digitChar hlt]
      · rw [List.map_append, List.map_singleton, readHex_append_singleton, ← hex, ← hexUpper,
          ih (n / 16) (by omega), hexValue_toUpper_digitChar (Nat.mod_lt n (by decide))]
        omega

theorem readHex_zeroPad (width : Nat) (l : List Char) : readHex (zeroPad width l) = readHex l := by
  have hzero : ∀ k : Nat, (List.replicate k '0').foldl (fun n c => 16 * n + hexValue c) 0 = 0 := by
    intro k
    induction k with
    | zero => rfl
    | succ k ih => simpa [List.replicate_succ', hexValue] using ih
  simp only [readHex, zeroPad, List.foldl_append, hzero]

theorem length_zeroPad {width : Nat} {l : List Char} (h : l.length ≤ width) :
    (zeroPad width l).length = width := by
  simp only [zeroPad, List.length_append, List.length_replicate]
  omega

theorem length_zeroPad_hexUpper {width n : Nat} (hw : 0 < width) (h : n < 16 ^ width) :
    (zeroPad width (hexUpper n)).length = width :=
  length_zeroPad (by
    rw [hexUpper, List.length_map]
    exact (Nat.length_toDigits_le_iff (by decide) hw).mpr h)

/-- Only hexadecimal digits are printed. -/
theorem digitChar_of_mem_hex {n : Nat} {c : Char} (h : c ∈ hex n) :
    ∃ d, d < 16 ∧ c = d.digitChar := by
  induction n using Nat.strong_induction_on with
  | _ n ih =>
      rw [hex, Nat.toDigits_eq_if (by decide)] at h
      split_ifs at h with hlt
      · exact ⟨n, hlt, List.mem_singleton.mp h⟩
      · rcases List.mem_append.mp h with h | h
        · exact ih (n / 16) (by omega) h
        · exact ⟨n % 16, Nat.mod_lt n (by decide), List.mem_singleton.mp h⟩

/-- A character that is no hexadecimal digit is not in a padded hexadecimal number. -/
theorem notMem_zeroPad_hex {width n : Nat} {c : Char} (h0 : c ≠ '0')
    (h : ∀ d, d < 16 → c ≠ d.digitChar) : c ∉ zeroPad width (hex n) := by
  intro hc
  rcases List.mem_append.mp hc with hc | hc
  · exact h0 (List.eq_of_mem_replicate hc)
  · obtain ⟨d, hd, e⟩ := digitChar_of_mem_hex hc
    exact h d hd e

theorem notMem_zeroPad_hexUpper {width n : Nat} {c : Char} (h0 : c ≠ '0')
    (h : ∀ d, d < 16 → c ≠ d.digitChar.toUpper) : c ∉ zeroPad width (hexUpper n) := by
  intro hc
  rcases List.mem_append.mp hc with hc | hc
  · exact h0 (List.eq_of_mem_replicate hc)
  · obtain ⟨c', hc', rfl⟩ := List.mem_map.mp hc
    obtain ⟨d, hd, rfl⟩ := digitChar_of_mem_hex hc'
    exact h d hd rfl

/-! ## Taking texts apart -/

/-- The text before the first `sep` and the text behind it. -/
def cutAt (sep : Char) : List Char → Option (List Char × List Char)
  | [] => none
  | c :: l => if c = sep then some ([], l) else (cutAt sep l).map fun p => (c :: p.1, p.2)

/-- A part without the separator is cut off whole. -/
theorem cutAt_append {sep : Char} {l : List Char} (h : sep ∉ l) (r : List Char) :
    cutAt sep (l ++ sep :: r) = some (l, r) := by
  induction l with
  | nil => simp [cutAt]
  | cons c l ih =>
      rw [List.mem_cons, not_or] at h
      simp [cutAt, Ne.symm h.1, ih h.2]

/-- The last separator of a text takes it apart in one way. -/
theorem append_cons_inj {sep : Char} {l l' r r' : List Char} (hr : sep ∉ r) (hr' : sep ∉ r')
    (h : l ++ sep :: r = l' ++ sep :: r') : l = l' ∧ r = r' := by
  have hcut : ∀ {a b : List Char}, sep ∉ b →
      cutAt sep (a ++ sep :: b).reverse = some (b.reverse, a.reverse) := by
    intro a b hb
    rw [List.reverse_append, List.reverse_cons, List.append_assoc]
    exact cutAt_append (fun hmem => hb (List.mem_reverse.mp hmem)) _
  have heq := Option.some.inj ((hcut hr).symm.trans ((congrArg _ (congrArg _ h)).trans (hcut hr')))
  obtain ⟨hrr, hll⟩ := Prod.mk.inj heq
  exact ⟨List.reverse_injective hll, List.reverse_injective hrr⟩

/-- A character of no field is not in the fields with their separators. -/
theorem notMem_intercalate {sep c : Char} {fields : List (List Char)} (hsep : c ≠ sep)
    (h : ∀ field ∈ fields, c ∉ field) : c ∉ [sep].intercalate fields := by
  induction fields with
  | nil => exact List.not_mem_nil
  | cons field fields ih =>
      have hfield := h field List.mem_cons_self
      have hrest := ih fun f hf => h f (List.mem_cons_of_mem field hf)
      cases fields with
      | nil => rwa [List.intercalate_singleton]
      | cons field' fields =>
          rw [List.intercalate_cons_cons]
          simp only [List.mem_append, List.mem_singleton]
          tauto

/-- Fields of bounded length, each with a separator or the end behind it. -/
theorem length_intercalate_le {sep : Char} {fields : List (List Char)} {b : Nat}
    (h : ∀ field ∈ fields, field.length ≤ b) :
    ([sep].intercalate fields).length ≤ fields.length * (b + 1) := by
  induction fields with
  | nil => exact Nat.zero_le _
  | cons field fields ih =>
      have hfield := h field List.mem_cons_self
      have hrest := ih fun f hf => h f (List.mem_cons_of_mem field hf)
      cases fields with
      | nil =>
          rw [List.intercalate_singleton, List.length_singleton, Nat.one_mul]
          exact Nat.le_succ_of_le hfield
      | cons field' fields =>
          rw [List.intercalate_cons_cons, List.length_cons, Nat.succ_mul]
          simp only [List.length_append, List.length_singleton] at hrest ⊢
          omega

/-- Read items from the front until the text is used up; `n` bounds their number. -/
def readMany {β : Type*} (read : List Char → Option (β × List Char)) :
    Nat → List Char → Option (List β)
  | _, [] => some []
  | 0, _ => none
  | n + 1, l =>
      match read l with
      | none => none
      | some (x, rest) => (readMany read n rest).map (x :: ·)

/-- **A sequence of items is read back** when each item is, whatever stands behind it. -/
theorem readMany_flatMap {α β : Type*} {read : List Char → Option (β × List Char)}
    {print : α → List Char} {value : α → β} {xs : List α} {n : Nat}
    (hread : ∀ x ∈ xs, ∀ rest, read (print x ++ rest) = some (value x, rest))
    (hne : ∀ x ∈ xs, print x ≠ []) (hn : xs.length ≤ n) :
    readMany read n (xs.flatMap print) = some (xs.map value) := by
  induction xs generalizing n with
  | nil => cases n <;> rfl
  | cons x xs ih =>
      obtain ⟨n, rfl⟩ : ∃ k, n = k + 1 := ⟨n - 1, by rw [List.length_cons] at hn; omega⟩
      have hrest := ih (fun y hy => hread y (List.mem_cons_of_mem x hy))
        (fun y hy => hne y (List.mem_cons_of_mem x hy)) (n := n) (by simpa using hn)
      have hx := hread x List.mem_cons_self (xs.flatMap print)
      rw [List.flatMap_cons]
      cases hl : print x ++ xs.flatMap print with
      | nil => exact absurd (List.append_eq_nil_iff.mp hl).1 (hne x List.mem_cons_self)
      | cons c l =>
          rw [hl] at hx
          simp only [readMany, hx, hrest, Option.map_some, List.map_cons]

/-- Every item takes at least one character, so the text is long enough to count them. -/
theorem length_le_length_flatMap {α : Type*} {print : α → List Char} {xs : List α}
    (hne : ∀ x ∈ xs, print x ≠ []) : xs.length ≤ (xs.flatMap print).length := by
  induction xs with
  | nil => exact Nat.zero_le _
  | cons x xs ih =>
      have hx : 0 < (print x).length := List.length_pos_of_ne_nil (hne x List.mem_cons_self)
      have hxs := ih fun y hy => hne y (List.mem_cons_of_mem x hy)
      rw [List.flatMap_cons, List.length_append, List.length_cons]
      omega

/-- A number of at most `d` digits takes one character more for its sign. -/
theorem length_signed_le {z : Int} {d : Nat} (hd : 0 < d) (h : z.natAbs < 10 ^ d) :
    (signed z).length ≤ d + 1 := by
  have hlen : (decimal z.natAbs).length ≤ d :=
    (Nat.length_toDigits_le_iff (by decide) hd).mpr h
  unfold signed
  split_ifs
  · exact Nat.succ_le_succ hlen
  · exact Nat.le_succ_of_le hlen

theorem comma_notMem_signed (z : Int) : ',' ∉ signed z := by
  intro h
  rcases isDigit_or_minus_of_mem_signed h with h | h <;> exact absurd h (by decide)

end Printf
