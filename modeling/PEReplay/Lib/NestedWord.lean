/-
# Nested words.

A word of calls and returns is nested when every call is followed by its return, with a nested word
in between: words of unbounded depth, in which `Matches c r` says which return may end which call.
A machine that a call takes from `s` to `push c s`, and that the matching return takes back, is
after a nested word where it was before (`NestedWord.run_ok`), whatever it does elsewhere.
-/
import PEReplay.Lib.Interleave

namespace Interleave

variable {γ δ σ ρ κ : Type*}

/-- A word of calls `.inl c` and returns `.inr r`, properly nested. -/
inductive NestedWord (Matches : γ → δ → Prop) : List (γ ⊕ δ) → Prop where
  | nil : NestedWord Matches []
  | nest {c : γ} {r : δ} {inner rest : List (γ ⊕ δ)} : Matches c r → NestedWord Matches inner →
      NestedWord Matches rest → NestedWord Matches (.inl c :: (inner ++ .inr r :: rest))

variable {Matches : γ → δ → Prop} {step : σ → γ ⊕ δ → Except κ (σ × ρ)}

/-- A call, a nested word and the return. -/
theorem NestedWord.wrap {c : γ} {r : δ} {w : List (γ ⊕ δ)} (h : Matches c r)
    (hw : NestedWord Matches w) : NestedWord Matches (.inl c :: (w ++ [.inr r])) :=
  .nest h hw .nil

/-- **The stack rule.** In a machine where a call moves the state under an invariant and the
matching return moves it back, a nested word leaves the state as it was, and all that is reported is
what calls and matched returns report. -/
theorem NestedWord.run_ok {w : List (γ ⊕ δ)} (hw : NestedWord Matches w) (I : σ → Prop)
    (Q : ρ → Prop) (push : γ → σ → σ)
    (hcall : ∀ s c, I s → I (push c s) ∧ ∃ q, step s (.inl c) = .ok (push c s, q) ∧ Q q)
    (hret : ∀ s c r, I s → Matches c r →
      ∃ q, step (push c s) (.inr r) = .ok (s, q) ∧ Q q) {s : σ} (hs : I s) :
    ∃ rs, run step s w = .ok (s, rs) ∧ ∀ q ∈ rs, Q q := by
  induction hw generalizing s with
  | nil => exact ⟨[], rfl, fun q hq => absurd hq List.not_mem_nil⟩
  | @nest c r inner rest hmatches _ _ ihinner ihrest =>
      obtain ⟨hpushed, q, hstep, hq⟩ := hcall s c hs
      obtain ⟨q', hstep', hq'⟩ := hret s c r hs hmatches
      obtain ⟨rs, hrun, hall⟩ := ihinner hpushed
      obtain ⟨rs', hrun', hall'⟩ := ihrest hs
      refine ⟨q :: (rs ++ q' :: rs'), run_cons hstep (run_append hrun (run_cons hstep' hrun')),
        fun p hp => ?_⟩
      rcases List.mem_cons.mp hp with rfl | hp
      · exact hq
      · rcases List.mem_append.mp hp with hp | hp
        · exact hall p hp
        · rcases List.mem_cons.mp hp with rfl | hp
          · exact hq'
          · exact hall' p hp

end Interleave
