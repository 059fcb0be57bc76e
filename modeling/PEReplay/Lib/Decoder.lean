/-
# PEReplay.Lib.Decoder — decoders that index their input.

A `Decoder` looks at the cells of a buffer by their index, in any order and as often as it likes.
It accepts or refuses, reports how many cells, from the first, it has looked at, and carries the
proof that its verdict depends on these cells alone.  There is no verdict where a cell that it wants
is missing.

A `Sized` decoder knows the length of what it accepts and looks at exactly that many cells.  Its
encodings are a prefix code, a buffer is a concatenation of encodings in at most one way, and the
linear sweep finds that way.
-/
import Mathlib.Data.List.Infix

namespace PEReplay

universe u v w

/-- A verdict from the first cells of a buffer: a value, or a refusal, and the number of cells that
were looked at. -/
structure Decoder (β : Type u) (α : Type v) where
  run : List β → Option (Option α × Nat)
  within : ∀ {l a n}, run l = some (a, n) → n ≤ l.length
  looks : ∀ {l a n}, run l = some (a, n) → ∀ {l'}, l.take n <+: l' → run l' = some (a, n)

namespace Decoder

variable {β : Type u} {α γ : Type v}

/-! ## The monad -/

/-- A verdict without a look. -/
def verdict (a : Option α) : Decoder β α where
  run _ := some (a, 0)
  within := by
    intro l b n h
    cases h
    exact Nat.zero_le _
  looks := by
    intro l b n h l' _
    exact h

def refuse : Decoder β α := verdict none

/-- What a look at one cell reports. -/
def peek (i : Nat) (l : List β) : Option (Option β × Nat) := l[i]?.map fun b => (some b, i + 1)

theorem peek_eq_some {i : Nat} {l : List β} {b : Option β} {n : Nat} :
    peek i l = some (b, n) ↔ ∃ c, l[i]? = some c ∧ b = some c ∧ n = i + 1 := by
  rw [peek, Option.map_eq_some_iff]
  simp only [Prod.mk.injEq, eq_comm]

theorem peek_within {i : Nat} {l : List β} {b : Option β} {n : Nat} (h : peek i l = some (b, n)) :
    n ≤ l.length := by
  obtain ⟨c, hc, rfl, rfl⟩ := peek_eq_some.mp h
  exact (List.getElem?_eq_some_iff.mp hc).1

theorem peek_looks {i : Nat} {l : List β} {b : Option β} {n : Nat} (h : peek i l = some (b, n))
    {l' : List β} (hpre : l.take n <+: l') : peek i l' = some (b, n) := by
  obtain ⟨c, hc, rfl, rfl⟩ := peek_eq_some.mp h
  obtain ⟨r, rfl⟩ := hpre
  have hi := (List.getElem?_eq_some_iff.mp hc).1
  refine peek_eq_some.mpr ⟨c, ?_, rfl, rfl⟩
  rw [List.getElem?_append_left (by simp; omega), List.getElem?_take_of_lt (by omega), hc]

/-- The cell at an index. -/
def fetch (i : Nat) : Decoder β β := ⟨peek i, peek_within, peek_looks⟩

/-- Go on after a verdict: a refusal stands, a value is handed over. -/
def proceed (f : α → Decoder β γ) (l : List β) : Option α × Nat → Option (Option γ × Nat)
  | (none, m) => some (none, m)
  | (some a, m) => ((f a).run l).map fun y => (y.1, max m y.2)

/-- One decoder after the other: the cells that either looks at. -/
def andThen (d : Decoder β α) (f : α → Decoder β γ) : Decoder β γ where
  run l := (d.run l).bind (proceed f l)
  within := by
    intro l c n h
    obtain ⟨⟨a, m⟩, hd, h⟩ := Option.bind_eq_some_iff.mp h
    cases a with
    | none =>
      cases h
      exact d.within hd
    | some a =>
      obtain ⟨⟨c', k⟩, hf, he⟩ := Option.map_eq_some_iff.mp h
      cases he
      exact Nat.max_le.mpr ⟨d.within hd, (f a).within hf⟩
  looks := by
    intro l c n h l' hpre
    obtain ⟨⟨a, m⟩, hd, h⟩ := Option.bind_eq_some_iff.mp h
    cases a with
    | none =>
      cases h
      simp [d.looks hd hpre, proceed]
    | some a =>
      obtain ⟨⟨c', k⟩, hf, he⟩ := Option.map_eq_some_iff.mp h
      cases he
      have hm : l.take m <+: l' :=
        (List.take_prefix_take_left (Nat.le_max_left m k)).trans hpre
      have hk : l.take k <+: l' :=
        (List.take_prefix_take_left (Nat.le_max_right m k)).trans hpre
      simp [d.looks hd hm, (f a).looks hf hk, proceed]

instance : Monad (Decoder β) where
  pure a := verdict (some a)
  bind := andThen

/-- The value is accepted, after a look at `n` cells. -/
def Accepts (d : Decoder β α) (l : List β) (a : α) (n : Nat) : Prop := d.run l = some (some a, n)

instance [DecidableEq α] (d : Decoder β α) (l : List β) (a : α) (n : Nat) :
    Decidable (d.Accepts l a n) :=
  inferInstanceAs (Decidable (d.run l = some (some a, n)))

@[simp]
theorem accepts_pure {a b : α} {l : List β} {n : Nat} :
    (pure a : Decoder β α).Accepts l b n ↔ a = b ∧ n = 0 := by
  change some (some a, 0) = some (some b, n) ↔ _
  simp [eq_comm]

@[simp]
theorem not_accepts_refuse {b : α} {l : List β} {n : Nat} :
    ¬(refuse : Decoder β α).Accepts l b n := by
  intro h
  cases h

@[simp]
theorem accepts_fetch {i : Nat} {b : β} {l : List β} {n : Nat} :
    (fetch i : Decoder β β).Accepts l b n ↔ l[i]? = some b ∧ n = i + 1 := by
  change peek i l = some (some b, n) ↔ _
  simp [peek_eq_some]

theorem accepts_bind {d : Decoder β α} {f : α → Decoder β γ} {l : List β} {c : γ} {n : Nat} :
    (d >>= f).Accepts l c n ↔
      ∃ a m k, d.Accepts l a m ∧ (f a).Accepts l c k ∧ n = max m k := by
  change (d.run l).bind (proceed f l) = some (some c, n) ↔ _
  constructor
  · intro h
    obtain ⟨⟨a, m⟩, hd, h⟩ := Option.bind_eq_some_iff.mp h
    cases a with
    | none => cases h
    | some a =>
      obtain ⟨⟨c', k⟩, hf, he⟩ := Option.map_eq_some_iff.mp h
      cases he
      exact ⟨a, m, k, hd, hf, rfl⟩
  · rintro ⟨a, m, k, hd, hf, rfl⟩
    unfold Accepts at hd hf
    simp [hd, hf, proceed]

/-! ## A verdict and the buffers it holds of -/

/-- A verdict stands whatever follows in the buffer. -/
theorem run_append (d : Decoder β α) {l : List β} {a : Option α} {n : Nat}
    (h : d.run l = some (a, n)) (r : List β) : d.run (l ++ r) = some (a, n) :=
  d.looks h ((List.take_prefix n l).trans (List.prefix_append l r))

/-- A verdict needs no more than the cells it was made from. -/
theorem run_take (d : Decoder β α) {l : List β} {a : Option α} {n : Nat}
    (h : d.run l = some (a, n)) : d.run (l.take n) = some (a, n) :=
  d.looks h List.prefix_rfl

/-- Two buffers of which one continues the other get one verdict, when both get any. -/
theorem run_unique (d : Decoder β α) {l l' : List β} {a a' : Option α} {n n' : Nat}
    (h : d.run l = some (a, n)) (h' : d.run l' = some (a', n')) (hpre : l <+: l') :
    a = a' ∧ n = n' := by
  obtain ⟨r, rfl⟩ := hpre
  simpa [d.run_append h r] using h'

/-! ## Scanning -/

/-- Look at the cells one by one, from the first, until the step stops. -/
def scanList {σ : Type w} (step : σ → β → σ ⊕ α) : σ → List β → Option (Option α × Nat)
  | _, [] => none
  | s, b :: l =>
    match step s b with
    | .inl s' => (scanList step s' l).map fun x => (x.1, x.2 + 1)
    | .inr a => some (some a, 1)

def scan {σ : Type w} (step : σ → β → σ ⊕ α) (s : σ) : Decoder β α where
  run := scanList step s
  within := by
    intro l
    induction l generalizing s with
    | nil => intro a n h; cases h
    | cons b l ih =>
      intro a n h
      unfold scanList at h
      split at h
      · obtain ⟨⟨a', m⟩, hs, he⟩ := Option.map_eq_some_iff.mp h
        cases he
        exact Nat.succ_le_succ (ih _ hs)
      · cases h
        exact Nat.succ_le_succ (Nat.zero_le _)
  looks := by
    intro l
    induction l generalizing s with
    | nil => intro a n h; cases h
    | cons b l ih =>
      intro a n h l' hpre
      unfold scanList at h
      split at h
      · rename_i s' hstep
        obtain ⟨⟨a', m⟩, hs, he⟩ := Option.map_eq_some_iff.mp h
        cases he
        obtain ⟨r, rfl⟩ := hpre
        have hrest := ih s' hs (List.prefix_append (l.take m) r)
        simp [scanList, hstep, hrest]
      · rename_i a' hstep
        cases h
        obtain ⟨r, rfl⟩ := hpre
        simp [scanList, hstep]

theorem accepts_scanList {σ : Type w} {step : σ → β → σ ⊕ α} {R : σ → Nat → Prop}
    {Q : α → Nat → Prop}
    (hstep : ∀ s b s' i, R s i → step s b = .inl s' → R s' (i + 1))
    (hstop : ∀ s b a i, R s i → step s b = .inr a → Q a (i + 1))
    {s : σ} {l : List β} {a : α} {i n : Nat} (hs : R s i)
    (h : scanList step s l = some (some a, n)) : Q a (i + n) := by
  induction l generalizing s i n with
  | nil => cases h
  | cons b l ih =>
    unfold scanList at h
    split at h
    · rename_i s' hb
      obtain ⟨⟨a', m⟩, hl, he⟩ := Option.map_eq_some_iff.mp h
      cases he
      have := ih (hstep s b s' i hs hb) hl
      rwa [Nat.add_right_comm, Nat.add_assoc] at this
    · rename_i a' hb
      cases h
      exact hstop s b a i hs hb

/-- The rule of a scan: an invariant of the state and the number of cells, kept by the step. -/
theorem accepts_scan {σ : Type w} {step : σ → β → σ ⊕ α} {R : σ → Nat → Prop} {Q : α → Nat → Prop}
    (hstep : ∀ s b s' i, R s i → step s b = .inl s' → R s' (i + 1))
    (hstop : ∀ s b a i, R s i → step s b = .inr a → Q a (i + 1))
    {s : σ} {l : List β} {a : α} {n : Nat} (hs : R s 0) (h : (scan step s).Accepts l a n) :
    Q a n := by
  have := accepts_scanList hstep hstop hs h
  rwa [Nat.zero_add] at this

end Decoder

/-! ## Decoders that know how much they accept -/

/-- A decoder that accepts or refuses, and looks at exactly the cells of what it accepts. -/
structure Sized (β : Type u) (α : Type v) extends Decoder β α where
  size : α → Nat
  reach : ∀ {l a n}, toDecoder.Accepts l a n → n = size a
  progress : ∀ {l a n}, toDecoder.Accepts l a n → 0 < n

namespace Sized

variable {β : Type u} {α : Type v} (d : Sized β α)

/-- The cells are an encoding of the value: accepted, and nothing is left over. -/
def Encodes (a : α) (e : List β) : Prop := d.Accepts e a e.length

instance [DecidableEq α] (a : α) (e : List β) : Decidable (d.Encodes a e) :=
  inferInstanceAs (Decidable (d.Accepts e a e.length))

variable {d}

theorem Encodes.length_eq {a : α} {e : List β} (h : d.Encodes a e) : e.length = d.size a :=
  d.reach h

theorem Encodes.ne_nil {a : α} {e : List β} (h : d.Encodes a e) : e ≠ [] := by
  rintro rfl
  exact Nat.lt_irrefl 0 (d.progress h)

theorem Encodes.run_append {a : α} {e : List β} (h : d.Encodes a e) (r : List β) :
    d.run (e ++ r) = some (some a, d.size a) := by
  rw [← h.length_eq]
  exact d.toDecoder.run_append h r

/-- What is accepted starts with its encoding. -/
theorem encodes_take {l : List β} {a : α} {n : Nat} (h : d.run l = some (some a, n)) :
    d.Encodes a (l.take (d.size a)) := by
  obtain rfl := d.reach h
  have hlen : (l.take (d.size a)).length = d.size a :=
    List.length_take_of_le (d.within h)
  unfold Encodes
  rw [hlen]
  exact d.toDecoder.run_take h

/-- One encoding and what follows it, found again. -/
theorem Encodes.append_inj {a b : α} {e f r s : List β} (he : d.Encodes a e) (hf : d.Encodes b f)
    (h : e ++ r = f ++ s) : a = b ∧ e = f ∧ r = s := by
  have hruns := (he.run_append r).symm.trans (h ▸ hf.run_append s)
  obtain rfl : a = b := by
    have := congrArg (Option.map Prod.fst) hruns
    simpa using this
  have hlen : e.length = f.length := he.length_eq.trans hf.length_eq.symm
  obtain ⟨hef, hrs⟩ := List.append_inj h hlen
  exact ⟨rfl, hef, hrs⟩

/-! ## The linear sweep -/

variable (d)

/-- Decode from the front until nothing is left, at most `fuel` times. -/
def sweepFuel : Nat → List β → Option (List α)
  | _, [] => some []
  | 0, _ :: _ => none
  | fuel + 1, b :: l =>
    match d.run (b :: l) with
    | some (some a, n) => (sweepFuel fuel ((b :: l).drop n)).map (a :: ·)
    | _ => none

/-- Decode from the front until nothing is left: every pass takes at least one cell. -/
def sweep (l : List β) : Option (List α) := d.sweepFuel l.length l

/-- A buffer cut into the encodings of a list of values. -/
inductive Cut : List α → List (List β) → Prop where
  | nil : Cut [] []
  | cons {a : α} {e : List β} {as : List α} {es : List (List β)} :
      d.Encodes a e → Cut as es → Cut (a :: as) (e :: es)

variable {d}

theorem Cut.unique {as bs : List α} {es fs : List (List β)} (he : d.Cut as es) (hf : d.Cut bs fs)
    (h : es.flatten = fs.flatten) : as = bs ∧ es = fs := by
  induction he generalizing bs fs with
  | nil =>
    cases hf with
    | nil => exact ⟨rfl, rfl⟩
    | cons hb _ => exact absurd (List.append_eq_nil_iff.mp h.symm).1 hb.ne_nil
  | cons ha _ ih =>
    cases hf with
    | nil => exact absurd (List.append_eq_nil_iff.mp h).1 ha.ne_nil
    | cons hb hf =>
      obtain ⟨rfl, rfl, hrest⟩ := ha.append_inj hb h
      obtain ⟨rfl, rfl⟩ := ih hf hrest
      exact ⟨rfl, rfl⟩

/-- A sweep that comes to the end has cut the buffer into encodings. -/
theorem cut_of_sweepFuel {fuel : Nat} {l : List β} {as : List α}
    (h : d.sweepFuel fuel l = some as) : ∃ es, d.Cut as es ∧ es.flatten = l := by
  fun_induction sweepFuel d fuel l generalizing as with
  | case1 =>
    cases h
    exact ⟨[], .nil, rfl⟩
  | case2 => cases h
  | case3 fuel b l a n hrun ih =>
    obtain ⟨as', has, rfl⟩ := Option.map_eq_some_iff.mp h
    obtain ⟨es, hcut, hflat⟩ := ih has
    refine ⟨(b :: l).take (d.size a) :: es, .cons (encodes_take hrun) hcut, ?_⟩
    obtain rfl := d.reach hrun
    rw [List.flatten_cons, hflat, List.take_append_drop]
  | case4 => cases h

theorem Cut.sweepFuel {as : List α} {es : List (List β)} (hcut : d.Cut as es) {fuel : Nat}
    (hfuel : es.flatten.length ≤ fuel) : d.sweepFuel fuel es.flatten = some as := by
  induction hcut generalizing fuel with
  | nil => unfold Sized.sweepFuel; rfl
  | @cons a e as es ha hcut ih =>
    have hpos : 0 < e.length := List.length_pos_iff.mpr ha.ne_nil
    rw [List.flatten_cons, List.length_append] at hfuel
    obtain ⟨b, t, rfl⟩ := List.exists_cons_of_ne_nil ha.ne_nil
    cases fuel with
    | zero => simp at hfuel
    | succ fuel =>
      have hrun := ha.run_append es.flatten
      rw [← ha.length_eq] at hrun
      rw [List.flatten_cons, List.cons_append] at *
      unfold Sized.sweepFuel
      rw [hrun]
      have hdrop : (b :: (t ++ es.flatten)).drop (b :: t).length = es.flatten := by
        rw [← List.cons_append, List.drop_left]
      simp only [hdrop]
      rw [ih (by omega)]
      rfl

/-- The sweep succeeds on the concatenations of encodings and on nothing else. -/
theorem sweep_eq_some {l : List β} {as : List α} :
    d.sweep l = some as ↔ ∃ es, d.Cut as es ∧ es.flatten = l := by
  constructor
  · exact cut_of_sweepFuel
  · rintro ⟨es, hcut, rfl⟩
    exact hcut.sweepFuel le_rfl

end Sized

end PEReplay
