/-
# Programs that may run for ever and leave a trace.

A `Program ε α` does things that are recorded as events `ε` and may come to a result `α`.  It is run
for a bounded number of passes of its loops; with a higher bound it does the same and goes on, which
is the field `grows`.  So "it does something bad" and "it comes to a result" are facts about the
program and not about the bound: `Safe P p` says that every event it ever records satisfies `P`, and
`Returns p a` that it comes to the result `a`.

Both are computed along the program: `safe_bind`, `returns_bind` for one thing after another,
`safe_loop_iff`, `returns_loop_iff` for a pass of a loop, `loop_rule` for an invariant of all of
them.  `SafeWhen P p c` says that `p` is safe exactly when `c`, and has rules that put such
conditions together.  `Ends next halt ok a` is the condition of a loop that goes from place to
place: from `a` on, up to the first place that halts it, all of them are `ok` (`Walks.safeWhen`).
-/
import PEReplay.Lib.Loop

namespace Traced

open Loop

universe u

/-! ## Traces -/

/-- What a program did under some bound: the events, and the result if it came to one. -/
structure Trace (ε α : Type u) where
  events : List ε
  result : Option α

namespace Trace

variable {ε α β : Type u}

/-- `y` is what `x` is, or goes on where the bound stopped `x`. -/
def Extends (x y : Trace ε α) : Prop := x = y ∨ (x.result = none ∧ x.events <+: y.events)

theorem Extends.refl (x : Trace ε α) : x.Extends x := Or.inl rfl

theorem Extends.events_le {x y : Trace ε α} (h : x.Extends y) : x.events <+: y.events := by
  rcases h with rfl | ⟨-, hpre⟩
  · exact List.prefix_rfl
  · exact hpre

/-- What came to a result is not extended. -/
theorem Extends.eq {x y : Trace ε α} {a : α} (h : x.Extends y) (ha : x.result = some a) :
    x = y := by
  rcases h with rfl | ⟨hnone, -⟩
  · rfl
  · rw [hnone] at ha
    exact absurd ha (by simp)

/-- One after the other. -/
def bind (x : Trace ε α) (f : α → Trace ε β) : Trace ε β :=
  match x.result with
  | none => ⟨x.events, none⟩
  | some a => ⟨x.events ++ (f a).events, (f a).result⟩

theorem bind_none {x : Trace ε α} {f : α → Trace ε β} (h : x.result = none) :
    x.bind f = ⟨x.events, none⟩ := by
  simp only [bind, h]

theorem bind_some {x : Trace ε α} {f : α → Trace ε β} {a : α} (h : x.result = some a) :
    x.bind f = ⟨x.events ++ (f a).events, (f a).result⟩ := by
  simp only [bind, h]

theorem events_bind (x : Trace ε α) (f : α → Trace ε β) : x.events <+: (x.bind f).events := by
  cases hx : x.result with
  | none =>
      rw [bind_none hx]
  | some a =>
      rw [bind_some hx]
      exact List.prefix_append _ _

theorem Extends.bind {x y : Trace ε α} {f g : α → Trace ε β} (h : x.Extends y)
    (hfg : ∀ a, (f a).Extends (g a)) : (x.bind f).Extends (y.bind g) := by
  rcases h with rfl | ⟨hnone, hpre⟩
  · cases hx : x.result with
    | none =>
        rw [bind_none hx, bind_none hx]
        exact .refl _
    | some a =>
        rw [bind_some hx, bind_some hx]
        rcases hfg a with heq | ⟨hfnone, hfpre⟩
        · rw [heq]
          exact .refl _
        · exact Or.inr ⟨hfnone, List.prefix_append_right_inj x.events |>.mpr hfpre⟩
  · rw [bind_none hnone]
    exact Or.inr ⟨rfl, hpre.trans (events_bind y g)⟩

end Trace

/-! ## Programs -/

/-- A program, run under any bound. -/
structure Program (ε α : Type u) where
  run : Nat → Trace ε α
  grows : ∀ n m, n ≤ m → (run n).Extends (run m)

namespace Program

variable {ε α β σ ρ : Type u}

/-- Do nothing. -/
def done (a : α) : Program ε α := ⟨fun _ => ⟨[], some a⟩, fun _ _ _ => .refl _⟩

/-- Record an event, with its result. -/
def emit (e : ε) (a : α) : Program ε α := ⟨fun _ => ⟨[e], some a⟩, fun _ _ _ => .refl _⟩

/-- One program after another. -/
def bind (p : Program ε α) (f : α → Program ε β) : Program ε β where
  run n := (p.run n).bind fun a => (f a).run n
  grows n m hle := (p.grows n m hle).bind fun a => (f a).grows n m hle

instance : Monad (Program ε) where
  pure := done
  bind := bind

/-- At most `k` passes of a loop, each under the bound `n`. -/
def passes (body : σ → Program ε (LoopStep σ ρ)) (n : Nat) : Nat → σ → Trace ε ρ
  | 0, _ => ⟨[], none⟩
  | k + 1, s => ((body s).run n).bind fun
      | .exit r => ⟨[], some r⟩
      | .next s' => passes body n k s'

theorem passes_extends (body : σ → Program ε (LoopStep σ ρ)) {n m k l : Nat} (hn : n ≤ m)
    (hk : k ≤ l) (s : σ) : (passes body n k s).Extends (passes body m l s) := by
  induction k generalizing l s with
  | zero => exact Or.inr ⟨rfl, List.nil_prefix⟩
  | succ k ih =>
      obtain ⟨l, rfl⟩ : ∃ j, l = j + 1 := ⟨l - 1, by omega⟩
      refine ((body s).grows n m hn).bind ?_
      rintro (s' | r)
      · exact ih (by omega) s'
      · exact .refl _

/-- Run `body` from `s` until it leaves. -/
def loop (body : σ → Program ε (LoopStep σ ρ)) (s : σ) : Program ε ρ where
  run n := passes body n n s
  grows _ _ hle := passes_extends body hle hle s

/-! ## Results -/

/-- The program comes to the result `a`. -/
def Returns (p : Program ε α) (a : α) : Prop := ∃ n, (p.run n).result = some a

variable {p : Program ε α} {f : α → Program ε β} {a b : α} {P : ε → Prop}

/-- A result stays the result under a higher bound. -/
theorem run_of_le {n m : Nat} (hle : n ≤ m) (h : (p.run n).result = some a) :
    (p.run m).result = some a := by
  rw [← (p.grows n m hle).eq h]
  exact h

theorem Returns.unique (ha : p.Returns a) (hb : p.Returns b) : a = b := by
  obtain ⟨n, hn⟩ := ha
  obtain ⟨m, hm⟩ := hb
  have hn' := run_of_le (Nat.le_max_left n m) hn
  rw [run_of_le (Nat.le_max_right n m) hm] at hn'
  exact (Option.some.inj hn').symm

@[simp] theorem returns_pure : (pure a : Program ε α).Returns b ↔ b = a := by
  constructor
  · rintro ⟨n, hn⟩
    exact (Option.some.inj hn).symm
  · rintro rfl
    exact ⟨0, rfl⟩

@[simp] theorem returns_emit {e : ε} : (emit e a).Returns b ↔ b = a := by
  constructor
  · rintro ⟨n, hn⟩
    exact (Option.some.inj hn).symm
  · rintro rfl
    exact ⟨0, rfl⟩

@[simp] theorem returns_bind {c : β} :
    (p >>= f).Returns c ↔ ∃ a, p.Returns a ∧ (f a).Returns c := by
  constructor
  · rintro ⟨n, hn⟩
    have hrun : ((p.run n).bind fun a => (f a).run n).result = some c := hn
    cases hp : (p.run n).result with
    | none =>
        rw [Trace.bind_none hp] at hrun
        exact absurd hrun (by simp)
    | some a =>
        rw [Trace.bind_some hp] at hrun
        exact ⟨a, ⟨n, hp⟩, n, hrun⟩
  · rintro ⟨a, ⟨n, hn⟩, m, hm⟩
    refine ⟨max n m, ?_⟩
    show ((p.run (max n m)).bind fun a => (f a).run (max n m)).result = some c
    rw [Trace.bind_some (run_of_le (Nat.le_max_left n m) hn)]
    exact run_of_le (Nat.le_max_right n m) hm

/-! ## Events -/

/-- Every event the program ever records satisfies `P`. -/
def Safe (P : ε → Prop) (p : Program ε α) : Prop := ∀ n, ∀ e ∈ (p.run n).events, P e

@[simp] theorem safe_pure : Safe P (pure a : Program ε α) :=
  fun _ _ he => absurd he List.not_mem_nil

@[simp] theorem safe_emit {e : ε} : Safe P (emit e a) ↔ P e := by
  constructor
  · intro h
    exact h 0 e List.mem_cons_self
  · intro he n e' he'
    rw [List.mem_singleton.mp he']
    exact he

/-- **One after the other**: the second program counts when the first comes to a result. -/
@[simp] theorem safe_bind :
    Safe P (p >>= f) ↔ Safe P p ∧ ∀ a, p.Returns a → Safe P (f a) := by
  constructor
  · intro h
    refine ⟨fun n e he => h n e ((Trace.events_bind _ _).subset he), ?_⟩
    rintro a ⟨n, hn⟩ m e he
    -- under a bound that is enough for both
    have hrun := run_of_le (Nat.le_max_left n m) hn
    apply h (max n m) e
    show e ∈ ((p.run (max n m)).bind fun a => (f a).run (max n m)).events
    rw [Trace.bind_some hrun]
    apply List.mem_append_right
    exact ((f a).grows m (max n m) (Nat.le_max_right n m)).events_le.subset he
  · rintro ⟨hp, hf⟩ n e he
    have he : e ∈ ((p.run n).bind fun a => (f a).run n).events := he
    cases hrun : (p.run n).result with
    | none =>
        rw [Trace.bind_none hrun] at he
        exact hp n e he
    | some a =>
        rw [Trace.bind_some hrun] at he
        rcases List.mem_append.mp he with he | he
        · exact hp n e he
        · exact hf a ⟨n, hrun⟩ n e he

/-! ## Loops -/

section Loops

variable {body : σ → Program ε (LoopStep σ ρ)} {s s' : σ} {r : ρ}

/-- The passes of a loop after one that goes round. -/
theorem passes_next {n k : Nat} (h : ((body s).run n).result = some (.next s')) :
    passes body n (k + 1) s =
      ⟨((body s).run n).events ++ (passes body n k s').events, (passes body n k s').result⟩ := by
  rw [passes, Trace.bind_some h]

/-- **Pass by pass**, what a loop returns. -/
theorem returns_loop_iff : (loop body s).Returns r ↔ (body s).Returns (.exit r) ∨
    ∃ s', (body s).Returns (.next s') ∧ (loop body s').Returns r := by
  constructor
  · rintro ⟨n, hn⟩
    have hn : (passes body n n s).result = some r := hn
    cases n with
    | zero => exact absurd hn (by simp [passes])
    | succ n =>
        rw [passes] at hn
        cases hrun : ((body s).run (n + 1)).result with
        | none =>
            rw [Trace.bind_none hrun] at hn
            exact absurd hn (by simp)
        | some x =>
            rw [Trace.bind_some hrun] at hn
            cases x with
            | exit r' =>
                obtain rfl := Option.some.inj hn
                exact Or.inl ⟨n + 1, hrun⟩
            | next s' =>
                refine Or.inr ⟨s', ⟨n + 1, hrun⟩, n + 1, ?_⟩
                have hmore := passes_extends body le_rfl (Nat.le_succ n) s' (n := n + 1)
                show (passes body (n + 1) (n + 1) s').result = some r
                rw [← hmore.eq hn]
                exact hn
  · rintro (⟨n, hn⟩ | ⟨s', ⟨n, hn⟩, m, hm⟩)
    · refine ⟨n + 1, ?_⟩
      show (passes body (n + 1) (n + 1) s).result = some r
      rw [passes, Trace.bind_some (run_of_le (Nat.le_succ n) hn)]
    · refine ⟨max n m + 1, ?_⟩
      have hbody := run_of_le (le_trans (Nat.le_max_left n m) (Nat.le_succ _)) hn
      have hmore := passes_extends body (le_trans (Nat.le_max_right n m) (Nat.le_succ _))
        (Nat.le_max_right n m) s'
      show (passes body (max n m + 1) (max n m + 1) s).result = some r
      rw [passes_next hbody, ← hmore.eq hm]
      exact hm

/-- **Pass by pass**, what a loop records. -/
theorem safe_loop_iff : Safe P (loop body s) ↔ Safe P (body s) ∧
    ∀ s', (body s).Returns (.next s') → Safe P (loop body s') := by
  constructor
  · intro h
    constructor
    · intro n e he
      refine h (n + 1) e ?_
      show e ∈ (passes body (n + 1) (n + 1) s).events
      rw [passes]
      apply (Trace.events_bind _ _).subset
      exact ((body s).grows n (n + 1) (Nat.le_succ n)).events_le.subset he
    · rintro s' ⟨n, hn⟩ m e he
      have hbody := run_of_le (le_trans (Nat.le_max_left n m) (Nat.le_succ _)) hn
      have hmore := passes_extends body (le_trans (Nat.le_max_right n m) (Nat.le_succ _))
        (Nat.le_max_right n m) s'
      refine h (max n m + 1) e ?_
      show e ∈ (passes body (max n m + 1) (max n m + 1) s).events
      rw [passes_next hbody]
      exact List.mem_append_right _ (hmore.events_le.subset he)
  · rintro ⟨hbody, hrest⟩ n e he
    have he : e ∈ (passes body n n s).events := he
    cases n with
    | zero => exact absurd he List.not_mem_nil
    | succ n =>
        cases hrun : ((body s).run (n + 1)).result with
        | none =>
            rw [passes, Trace.bind_none hrun] at he
            exact hbody (n + 1) e he
        | some x =>
            cases x with
            | exit r =>
                rw [passes, Trace.bind_some hrun, List.append_nil] at he
                exact hbody (n + 1) e he
            | next s' =>
                rw [passes_next hrun] at he
                rcases List.mem_append.mp he with he | he
                · exact hbody (n + 1) e he
                · refine hrest s' ⟨n + 1, hrun⟩ (n + 1) e ?_
                  exact (passes_extends body le_rfl (Nat.le_succ n) s').events_le.subset he

/-- After a pass that goes round, the loop is what it is from there. -/
theorem returns_loop_of_next (h : (body s).Returns (.next s')) :
    (loop body s).Returns r ↔ (loop body s').Returns r := by
  rw [returns_loop_iff]
  constructor
  · rintro (hexit | ⟨s'', hs'', hr⟩)
    · exact absurd (h.unique hexit) (by simp)
    · obtain rfl := LoopStep.next.inj (h.unique hs'')
      exact hr
  · intro hr
    exact Or.inr ⟨s', h, hr⟩

/-- After a pass that leaves, the loop has come to its result. -/
theorem returns_loop_of_exit {r' : ρ} (h : (body s).Returns (.exit r')) :
    (loop body s).Returns r ↔ r = r' := by
  rw [returns_loop_iff]
  constructor
  · rintro (hexit | ⟨s'', hs'', -⟩)
    · exact LoopStep.exit.inj (hexit.unique h)
    · exact absurd (h.unique hs'') (by simp)
  · rintro rfl
    exact Or.inl h

/-- **Partial correctness.** What every pass keeps holds when the loop leaves. -/
theorem loop_rule (I : σ → Prop) {Q : ρ → Prop}
    (hnext : ∀ s s', I s → (body s).Returns (.next s') → I s')
    (hexit : ∀ s r, I s → (body s).Returns (.exit r) → Q r)
    (h : (loop body s).Returns r) (hs : I s) : Q r := by
  obtain ⟨n, hn⟩ := h
  have hn : (passes body n n s).result = some r := hn
  -- on the passes that are left; the bound their bodies run under stays
  suffices hpasses : ∀ k s, I s → (passes body n k s).result = some r → Q r from hpasses n s hs hn
  intro k
  induction k with
  | zero =>
      intro s _ hk
      exact absurd hk (by simp [passes])
  | succ k ih =>
      intro s hs hk
      rw [passes] at hk
      cases hrun : ((body s).run n).result with
      | none =>
          rw [Trace.bind_none hrun] at hk
          exact absurd hk (by simp)
      | some x =>
          rw [Trace.bind_some hrun] at hk
          cases x with
          | exit r' =>
              obtain rfl := Option.some.inj hk
              exact hexit s _ hs ⟨n, hrun⟩
          | next s' => exact ih s' (hnext s s' hs ⟨n, hrun⟩) hk

end Loops

/-! ## Safe, and on what condition -/

/-- The program is safe exactly when `c`, and then it comes to a result. -/
structure SafeWhen (P : ε → Prop) (p : Program ε α) (c : Prop) : Prop where
  safe_iff : Safe P p ↔ c
  returns : c → ∃ a, p.Returns a

namespace SafeWhen

variable {c d : Prop}

theorem of_iff (h : SafeWhen P p c) (hcd : c ↔ d) : SafeWhen P p d :=
  ⟨h.safe_iff.trans hcd, fun hd => h.returns (hcd.mpr hd)⟩

protected theorem pure : SafeWhen P (pure a : Program ε α) True :=
  ⟨iff_of_true safe_pure trivial, fun _ => ⟨a, returns_pure.mpr rfl⟩⟩

protected theorem emit {e : ε} : SafeWhen P (emit e a) (P e) :=
  ⟨safe_emit, fun _ => ⟨a, returns_emit.mpr rfl⟩⟩

/-- **One after the other.** -/
protected theorem bind (hp : SafeWhen P p c) (hf : ∀ a, p.Returns a → SafeWhen P (f a) d) :
    SafeWhen P (p >>= f) (c ∧ d) := by
  constructor
  · rw [safe_bind, hp.safe_iff]
    constructor
    · rintro ⟨hc, hsafe⟩
      obtain ⟨a, ha⟩ := hp.returns hc
      exact ⟨hc, (hf a ha).safe_iff.mp (hsafe a ha)⟩
    · rintro ⟨hc, hd⟩
      exact ⟨hc, fun a ha => (hf a ha).safe_iff.mpr hd⟩
  · rintro ⟨hc, hd⟩
    obtain ⟨a, ha⟩ := hp.returns hc
    obtain ⟨b, hb⟩ := (hf a ha).returns hd
    exact ⟨b, returns_bind.mpr ⟨a, ha, hb⟩⟩

/-- An event, and then the rest. -/
theorem emit_bind {e : ε} (hf : SafeWhen P (f a) d) : SafeWhen P (emit e a >>= f) (P e ∧ d) := by
  refine SafeWhen.emit.bind fun a' ha' => ?_
  rw [returns_emit.mp ha']
  exact hf

/-- A last step that only puts results together. -/
theorem bind_pure {g : α → β} (hp : SafeWhen P p c) :
    SafeWhen P (p >>= fun a => pure (g a)) c :=
  (hp.bind fun _ _ => SafeWhen.pure).of_iff ⟨And.left, fun hc => ⟨hc, trivial⟩⟩

/-- One thing or the other. -/
protected theorem ite {b : Prop} [Decidable b] {q : Program ε α} (hp : b → SafeWhen P p c)
    (hq : ¬ b → SafeWhen P q d) : SafeWhen P (if b then p else q) ((b → c) ∧ (¬ b → d)) := by
  by_cases hb : b
  · rw [if_pos hb]
    exact (hp hb).of_iff ⟨fun hc => ⟨fun _ => hc, fun hn => absurd hb hn⟩, fun h => h.1 hb⟩
  · rw [if_neg hb]
    exact (hq hb).of_iff ⟨fun hd => ⟨fun hb' => absurd hb' hb, fun _ => hd⟩, fun h => h.2 hb⟩

/-- Something is done under a condition only. -/
theorem ite_pure {b : Prop} [Decidable b] (hp : SafeWhen P p c) :
    SafeWhen P (if b then p else pure a) (b → c) :=
  (SafeWhen.ite (fun _ => hp) fun _ => SafeWhen.pure).of_iff
    ⟨fun h => h.1, fun h => ⟨h, fun _ => trivial⟩⟩

/-- Something is done unless a condition holds. -/
theorem pure_ite {b : Prop} [Decidable b] (hp : SafeWhen P p c) :
    SafeWhen P (if b then pure a else p) (¬ b → c) :=
  (SafeWhen.ite (fun _ => SafeWhen.pure) fun _ => hp).of_iff
    ⟨fun h => h.2, fun h => ⟨fun _ => trivial, h⟩⟩

end SafeWhen

end Program

/-! ## Walks -/

/-- From `a` along `next` up to the first place that halts, everything is `ok`. -/
inductive Ends {κ : Type u} (next : κ → κ) (halt ok : κ → Prop) : κ → Prop where
  | here {a : κ} : halt a → ok a → Ends next halt ok a
  | step {a : κ} : ¬ halt a → ok a → Ends next halt ok (next a) → Ends next halt ok a

open Program

/-- The loop goes from place to place: a pass is safe when its place is `ok`; it leaves where the
place halts it, and else goes to the next, nearer to some end. -/
structure Walks {ε σ ρ κ : Type u} (P : ε → Prop) (body : σ → Program ε (LoopStep σ ρ))
    (place : σ → κ) (next : κ → κ) (halt ok : κ → Prop) (left : κ → Nat) : Prop where
  pass : ∀ s, SafeWhen P (body s) (ok (place s))
  leaves : ∀ s s', halt (place s) → ¬ (body s).Returns (.next s')
  goes : ∀ s x, ¬ halt (place s) → (body s).Returns x →
    ∃ s', x = .next s' ∧ place s' = next (place s)
  nearer : ∀ a, ok a → ¬ halt a → left (next a) < left a

section Walk

variable {ε σ ρ κ : Type u} {P : ε → Prop} {body : σ → Program ε (LoopStep σ ρ)} {place : σ → κ}
  {next : κ → κ} {halt ok : κ → Prop} {left : κ → Nat} {s : σ}

/-- A pass at a place that does not halt the loop goes to the next place. -/
theorem Walks.exists_next (h : Walks P body place next halt ok left) (hok : ok (place s))
    (hgo : ¬ halt (place s)) : ∃ s', (body s).Returns (.next s') ∧ place s' = next (place s) := by
  obtain ⟨x, hx⟩ := (h.pass s).returns hok
  obtain ⟨s', rfl, hplace⟩ := h.goes s x hgo hx
  exact ⟨s', hx, hplace⟩

/-- **A walk that ends** is safe and comes to a result. -/
theorem Walks.of_ends (h : Walks P body place next halt ok left)
    (hends : Ends next halt ok (place s)) :
    Safe P (loop body s) ∧ ∃ r, (loop body s).Returns r := by
  generalize ha : place s = a at hends
  induction hends generalizing s with
  | here hhalt hok =>
      subst ha
      have hsafe := (h.pass s).safe_iff.mpr hok
      obtain ⟨x, hx⟩ := (h.pass s).returns hok
      cases x with
      | next s' => exact absurd hx (h.leaves s s' hhalt)
      | exit r =>
          refine ⟨safe_loop_iff.mpr ⟨hsafe, fun s' hs' => ?_⟩, r, returns_loop_iff.mpr (Or.inl hx)⟩
          exact absurd hs' (h.leaves s s' hhalt)
  | step hgo hok _ ih =>
      subst ha
      have hsafe := (h.pass s).safe_iff.mpr hok
      obtain ⟨s', hs', hplace⟩ := h.exists_next hok hgo
      obtain ⟨hrest, r, hr⟩ := ih hplace
      refine ⟨safe_loop_iff.mpr ⟨hsafe, fun s'' hs'' => ?_⟩, r, (returns_loop_of_next hs').mpr hr⟩
      obtain rfl := LoopStep.next.inj (hs'.unique hs'')
      exact hrest

/-- **A safe walk ends**: there is only so much left to go. -/
theorem Walks.ends (h : Walks P body place next halt ok left) (hsafe : Safe P (loop body s)) :
    Ends next halt ok (place s) := by
  generalize hk : left (place s) = k
  induction k using Nat.strong_induction_on generalizing s with
  | _ k ih =>
      obtain ⟨hbody, hrest⟩ := safe_loop_iff.mp hsafe
      have hok := (h.pass s).safe_iff.mp hbody
      by_cases hhalt : halt (place s)
      · exact .here hhalt hok
      · obtain ⟨s', hs', hplace⟩ := h.exists_next hok hhalt
        refine .step hhalt hok ?_
        rw [← hplace]
        apply ih _ _ (hrest s' hs') rfl
        rw [hplace, ← hk]
        exact h.nearer _ hok hhalt

/-- **A walk is safe exactly when it ends.** -/
theorem Walks.safeWhen (h : Walks P body place next halt ok left) (s : σ) :
    SafeWhen P (loop body s) (Ends next halt ok (place s)) :=
  ⟨⟨h.ends, fun hends => (h.of_ends hends).1⟩, fun hends => (h.of_ends hends).2⟩

end Walk

end Traced
