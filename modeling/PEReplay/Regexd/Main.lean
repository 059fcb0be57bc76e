/-
# PEReplay.Regexd.Main — the regular expression explainer.

`regexd` is given a pattern and a content that do not fit.  It takes characters off the back of the
pattern until a search succeeds, then off the back of the content until the pattern matches, and
shows how far both went.  Both loops stop at one character, and what is asked afterwards is whether
anything is left: something always is, so a pattern that fails down to its first character is never
called wrong, and a final match is reported whether there is one or not.

`search` and `match` compile the pattern and ask the engine; what they answer is arbitrary here.
-/
import PEReplay.Lib.LongestPrefix

namespace PEReplay

namespace Regexd

open Loop LongestPrefix

/-- What is printed, apart from what `search` and `match` print themselves. -/
inductive Report where
  /-- `Usage: regexd pattern content` -/
  | usage
  /-- `##Phase 0: Initialize`, with the two arguments -/
  | phase0 (pattern content : List Char)
  /-- `##Phase 1: Search` -/
  | phase1
  /-- `Definitely Wrong Pattern!` -/
  | definitelyWrongPattern
  /-- `##Phase 2: Match` -/
  | phase2
  /-- `##Final Match`, both strings with what was taken off them -/
  | finalMatch (pattern patternRest content contentRest : List Char)
  deriving Repr, DecidableEq

section Main

variable (regexSearch regexMatch : List Char → List Char → Bool)

/-- `while (!search(pattern, content))` -/
def searchLoop (n : Nat) (pattern content : List Char) : Option (List Char) :=
  shrink (fun pattern => regexSearch pattern content = true) n pattern

/-- `while (!match(pattern, content))` -/
def matchLoop (n : Nat) (pattern content : List Char) : Option (List Char) :=
  shrink (fun content => regexMatch pattern content = true) n content

/-- `main`, with at most `n` passes of each loop. -/
def main (n : Nat) (argv : List (List Char)) : Option (List Report) :=
  match argv with
  | [_, initPattern, initContent] =>
    let head := [.phase0 initPattern initContent, .phase1]
    (searchLoop regexSearch n initPattern initContent).bind fun pattern =>
      if pattern.length = 0 then some (head ++ [.definitelyWrongPattern])
      else
        (matchLoop regexMatch n pattern initContent).bind fun content =>
          if content.length ≠ 0 then
            some (head ++ [.phase2, .finalMatch pattern (initPattern.drop pattern.length)
              content (initContent.drop content.length)])
          else some (head ++ [.phase2])
  | _ => some [.usage]

/-- The reports say how far the pattern and the content fit. -/
structure ReportsRight (pattern content : List Char) (reports : List Report) : Prop where
  /-- the pattern is called wrong when no prefix of it can be found -/
  wrong : .definitelyWrongPattern ∈ reports ↔
    ¬ ∃ p, p ≠ [] ∧ p <+: pattern ∧ regexSearch p content = true
  /-- a final match is that of the longest prefix that can be found -/
  final : ∀ p pRest c cRest, .finalMatch p pRest c cRest ∈ reports ↔
    IsLongest (fun p => regexSearch p content = true) pattern p ∧
    IsLongest (fun c => regexMatch p c = true) content c ∧
    pRest = pattern.drop p.length ∧ cRest = content.drop c.length

variable {regexSearch regexMatch} {pattern content : List Char}

/-- **Both loops leave with something**, and the final match is reported. -/
theorem main_computes {p c : List Char} (argv0 : List Char)
    (hp : Computes (fun n => searchLoop regexSearch n pattern content) p) (hpne : p ≠ [])
    (hc : Computes (fun n => matchLoop regexMatch n p content) c) (hcne : c ≠ []) :
    Computes (fun n => main regexSearch regexMatch n [argv0, pattern, content])
      [.phase0 pattern content, .phase1, .phase2,
        .finalMatch p (pattern.drop p.length) c (content.drop c.length)] := by
  have hpl : ¬ p.length = 0 := mt List.length_eq_zero_iff.mp hpne
  have hcl : c.length ≠ 0 := mt List.length_eq_zero_iff.mp hcne
  refine hp.bind ?_
  simp only [if_neg hpl]
  refine hc.bind ?_
  simp only [if_pos hcl]
  exact computes_some _

/-- **Termination**, whatever the engine answers. -/
theorem exists_main_computes (argv0 : List Char) (hpattern : pattern ≠ [])
    (hcontent : content ≠ []) :
    ∃ p c, Left (fun p => regexSearch p content = true) pattern p ∧
      Left (fun c => regexMatch p c = true) content c ∧
      Computes (fun n => main regexSearch regexMatch n [argv0, pattern, content])
        [.phase0 pattern content, .phase1, .phase2,
          .finalMatch p (pattern.drop p.length) c (content.drop c.length)] := by
  obtain ⟨p, hp, hpleft⟩ := shrink_computes (fun p => regexSearch p content = true) hpattern
  obtain ⟨c, hc, hcleft⟩ := shrink_computes (fun c => regexMatch p c = true) hcontent
  exact ⟨p, c, hpleft, hcleft, main_computes argv0 hp hpleft.ne_nil hc hcleft.ne_nil⟩

/-- **When the reports are right.**  The loops always terminate; what is reported is right exactly
when a prefix of the pattern can be found and the longest one matches a prefix of the content. -/
theorem main_right_iff (regexSearch regexMatch : List Char → List Char → Bool)
    (argv0 pattern content : List Char) (hpattern : pattern ≠ []) (hcontent : content ≠ []) :
    (∃ reports,
      Computes (fun n => main regexSearch regexMatch n [argv0, pattern, content]) reports ∧
      ReportsRight regexSearch regexMatch pattern content reports) ↔
    ∃ p, IsLongest (fun p => regexSearch p content = true) pattern p ∧
      ∃ c, c ≠ [] ∧ c <+: content ∧ regexMatch p c = true := by
  constructor
  · rintro ⟨reports, hreports, hright⟩
    obtain ⟨p, c, -, -, hmain⟩ := exists_main_computes argv0 hpattern hcontent
    obtain rfl := hreports.unique hmain
    have hfinal := hright.final p (pattern.drop p.length) c (content.drop c.length)
    obtain ⟨hp, hc, -, -⟩ := hfinal.mp (by simp)
    exact ⟨p, hp, c, hc.ne_nil, hc.isPrefix, hc.holds⟩
  · rintro ⟨p, hp, hmatch⟩
    obtain ⟨c, hc⟩ := exists_isLongest_iff.mpr hmatch
    have hmain := main_computes argv0 (shrink_of_isLongest hpattern hp) hp.ne_nil
      (shrink_of_isLongest hcontent hc) hc.ne_nil
    refine ⟨_, hmain, ?_, ?_⟩
    · have hexists : ∃ p, p ≠ [] ∧ p <+: pattern ∧ regexSearch p content = true :=
        ⟨p, hp.ne_nil, hp.isPrefix, hp.holds⟩
      simp [hexists]
    · intro p' pRest c' cRest
      constructor
      · intro hmem
        have heq : p' = p ∧ pRest = pattern.drop p.length ∧ c' = c ∧
            cRest = content.drop c.length := by simpa using hmem
        obtain ⟨rfl, rfl, rfl, rfl⟩ := heq
        exact ⟨hp, hc, rfl, rfl⟩
      · rintro ⟨hp', hc', rfl, rfl⟩
        obtain rfl := hp'.unique hp
        obtain rfl := hc'.unique hc
        simp

end Main

section Samples

/-- An engine for patterns that are plain text, at the front of the content. -/
def plainEngine (pattern content : List Char) : Bool := pattern.isPrefixOf content

theorem main_right_iff_sample :
    (∃ reports, Computes (fun n => main plainEngine plainEngine n [[], ['a', 'x'], ['a', 'b']])
      reports ∧ ReportsRight plainEngine plainEngine ['a', 'x'] ['a', 'b'] reports) ↔
    ∃ p, IsLongest (fun p => plainEngine p ['a', 'b'] = true) ['a', 'x'] p ∧
      ∃ c, c ≠ [] ∧ c <+: ['a', 'b'] ∧ plainEngine p c = true :=
  main_right_iff plainEngine plainEngine [] ['a', 'x'] ['a', 'b'] (List.cons_ne_nil _ _)
    (List.cons_ne_nil _ _)

/-- Nothing of the pattern is in the content, and a final match is reported. -/
theorem wrong_pattern_not_reported :
    Computes (fun n => main plainEngine plainEngine n [[], ['x'], ['a']])
      [.phase0 ['x'] ['a'], .phase1, .phase2, .finalMatch ['x'] [] ['a'] []] ∧
    (¬ ∃ p, p ≠ [] ∧ p <+: ['x'] ∧ plainEngine p ['a'] = true) ∧
    ¬ ∃ reports, Computes (fun n => main plainEngine plainEngine n [[], ['x'], ['a']]) reports ∧
      ReportsRight plainEngine plainEngine ['x'] ['a'] reports := by
  have hmain : Computes (fun n => main plainEngine plainEngine n [[], ['x'], ['a']])
      [.phase0 ['x'] ['a'], .phase1, .phase2, .finalMatch ['x'] [] ['a'] []] := by
    refine ⟨1, fun m hm => ?_⟩
    obtain ⟨m, rfl⟩ : ∃ k, m = k + 1 := ⟨m - 1, by omega⟩
    rfl
  have hnone : ¬ ∃ p, p ≠ [] ∧ p <+: ['x'] ∧ plainEngine p ['a'] = true := by
    rintro ⟨p, hne, hprefix, hsearch⟩
    have hlen := hprefix.length_le
    have hpos := List.length_pos_of_ne_nil hne
    obtain rfl : p = ['x'] := hprefix.eq_of_length (le_antisymm hlen hpos)
    exact absurd hsearch (by decide)
  refine ⟨hmain, hnone, ?_⟩
  rintro ⟨reports, hreports, hright⟩
  obtain rfl := hreports.unique hmain
  exact absurd (hright.wrong.mpr hnone) (by simp)

end Samples

end Regexd

end PEReplay
