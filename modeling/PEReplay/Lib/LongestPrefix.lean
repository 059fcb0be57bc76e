/-
# Longest prefixes, and the loop that looks for one from the back.

`IsLongest P s p` says that `p` is the longest of the nonempty prefixes of `s` with property `P`.
There is at most one, and there is one as soon as a nonempty prefix has the property.

A loop that takes off the last element until `P` holds finds it, and `shrinkBody` is its body as it
is written when the loop must not come to the empty list: it gives up at length one.  What it
answers then need not have the property, and nothing in the answer says so.  `shrink_computes` is
what the answer is in every case, `shrink_of_isLongest` what it is when there is a longest prefix.
-/
import PEReplay.Lib.Loop
import Mathlib.Data.List.Infix

namespace LongestPrefix

open Loop

variable {α : Type*}

/-- `p` is the longest nonempty prefix of `s` with the property. -/
structure IsLongest (P : List α → Prop) (s p : List α) : Prop where
  ne_nil : p ≠ []
  isPrefix : p <+: s
  holds : P p
  longest : ∀ q, q <+: s → P q → q.length ≤ p.length

variable {P : List α → Prop} {s p q : List α}

theorem IsLongest.unique (hp : IsLongest P s p) (hq : IsLongest P s q) : p = q := by
  have hlen : p.length = q.length :=
    le_antisymm (hq.longest p hp.isPrefix hp.holds) (hp.longest q hq.isPrefix hq.holds)
  exact (List.prefix_of_prefix_length_le hp.isPrefix hq.isPrefix (le_of_eq hlen)).eq_of_length hlen

/-! ## The loop -/

variable (P) [DecidablePred P]

/-- One pass: leave where the property holds, and at length one. -/
def shrinkBody (s : List α) : LoopStep (List α) (List α) :=
  if P s then .exit s
  else if s.length > 1 then .next s.dropLast
  else .exit s

/-- The loop, with at most `n` passes. -/
def shrink (n : Nat) (s : List α) : Option (List α) :=
  whileLoop (fun s => some (shrinkBody P s)) n s

variable {P}

/-- Where the loop leaves: the property holds or the length is one, and it fails of every longer
prefix. -/
structure Left (P : List α → Prop) (s r : List α) : Prop where
  ne_nil : r ≠ []
  isPrefix : r <+: s
  stops : P r ∨ r.length ≤ 1
  fails : ∀ q, q <+: s → r.length < q.length → ¬ P q

/-- **The loop always leaves**, with the longest prefix tried that has the property, or with the
shortest. -/
theorem shrink_computes (P : List α → Prop) [DecidablePred P] (hs : s ≠ []) :
    ∃ r, Computes (fun n => shrink P n s) r ∧ Left P s r := by
  apply total_rule List.length
    (fun t => t ≠ [] ∧ t <+: s ∧ ∀ q, q <+: s → t.length < q.length → ¬ P q)
  · rintro t ⟨hne, ht, hfails⟩
    by_cases hP : P t
    · refine Or.inl ⟨t, ?_, hne, ht, Or.inl hP, hfails⟩
      simp only [shrinkBody, if_pos hP]
      exact computes_some _
    · by_cases hlen : t.length > 1
      · refine Or.inr ⟨t.dropLast, ?_, ?_, ?_, ?_, ?_⟩
        · simp only [shrinkBody, if_neg hP, if_pos hlen]
          exact computes_some _
        · rw [List.length_dropLast]
          omega
        · apply List.ne_nil_of_length_pos
          rw [List.length_dropLast]
          omega
        · exact t.dropLast_prefix.trans ht
        · intro q hq hlt
          rw [List.length_dropLast] at hlt
          -- the prefix longer than `t.dropLast` is `t` itself, or longer than it
          rcases lt_or_eq_of_le (show t.length ≤ q.length by omega) with hlt | heq
          · exact hfails q hq hlt
          · have htq := (List.prefix_of_prefix_length_le ht hq (le_of_eq heq)).eq_of_length heq
            rw [← htq]
            exact hP
      · refine Or.inl ⟨t, ?_, hne, ht, Or.inr (not_lt.mp hlen), hfails⟩
        simp only [shrinkBody, if_neg hP, if_neg hlen]
        exact computes_some _
  · refine ⟨hs, List.prefix_rfl, fun q hq hlt => ?_⟩
    exact absurd hq.length_le (not_le.mpr hlt)

/-- **There is a longest prefix**: the loop finds it. -/
theorem shrink_of_isLongest (hs : s ≠ []) (h : IsLongest P s p) :
    Computes (fun n => shrink P n s) p := by
  obtain ⟨r, hr, hne, hprefix, hstops, hfails⟩ := shrink_computes P hs
  have hle : p.length ≤ r.length := by
    by_contra hlt
    exact hfails p h.isPrefix (not_le.mp hlt) h.holds
  have hP : P r := by
    rcases hstops with hP | hone
    · exact hP
    · have hpos := List.length_pos_of_ne_nil h.ne_nil
      have hlen : p.length = r.length := by omega
      have heq := (List.prefix_of_prefix_length_le h.isPrefix hprefix hle).eq_of_length hlen
      rw [← heq]
      exact h.holds
  rw [h.unique ⟨hne, hprefix, hP, fun q hq hPq => not_lt.mp fun hlt => hfails q hq hlt hPq⟩]
  exact hr

/-- A longest prefix exists as soon as some nonempty prefix has the property. -/
theorem exists_isLongest_iff : (∃ p, IsLongest P s p) ↔ ∃ q, q ≠ [] ∧ q <+: s ∧ P q := by
  constructor
  · rintro ⟨p, h⟩
    exact ⟨p, h.ne_nil, h.isPrefix, h.holds⟩
  · rintro ⟨q, hne, hq, hPq⟩
    have hs : s ≠ [] := fun hnil => hne (List.prefix_nil.mp (hnil ▸ hq))
    obtain ⟨r, -, hrne, hprefix, hstops, hfails⟩ := shrink_computes P hs
    have hlongest : ∀ q, q <+: s → P q → q.length ≤ r.length := fun q hq hPq =>
      not_lt.mp fun hlt => hfails q hq hlt hPq
    refine ⟨r, hrne, hprefix, ?_, hlongest⟩
    rcases hstops with hP | hone
    · exact hP
    · have hle := hlongest q hq hPq
      have hpos := List.length_pos_of_ne_nil hne
      have hlen : q.length = r.length := by omega
      rw [← (List.prefix_of_prefix_length_le hq hprefix hle).eq_of_length hlen]
      exact hPq

end LongestPrefix
