/-
# PEReplay.Sweeper.Trim — what `TrimGap` leaves of a gap.

Each pass of `TrimGap` takes a chain of trampolines off the front of the gap, or else padding off
the front, or else padding off the end, until nothing goes or nothing is left.  One invariant
carries containment and what has been removed (`TrimState.Trims`), the length of the gap goes down,
and the pass that leaves without having taken anything off finds a gap that has nothing to take off
(`trimGap_spec`).
-/
import PEReplay.Sweeper.Points
import PEReplay.Sweeper.Trampolines

namespace PEReplay

open Loop

/-! ## What is removed -/

/-- The first `n` bytes from `a` are groups of five bytes that begin with `E9`, each traced, and
single bytes of padding. -/
inductive Front (code : Code) (traced : U32 → Prop) (a : U32) : Nat → Prop where
  | nil : Front code traced a 0
  | group {n : Nat} : Front code traced a n → code.mem (a + BitVec.ofNat 32 n) = 0xE9 →
      traced (a + BitVec.ofNat 32 n) → Front code traced a (n + 5)
  | padding {n : Nat} : Front code traced a n → code.mem (a + BitVec.ofNat 32 n) = int3 →
      Front code traced a (n + 1)

section Front

variable {code : Code} {traced traced' : U32 → Prop} {a : U32} {n : Nat}

theorem Front.mono (h : Front code traced a n) (himp : ∀ b, traced b → traced' b) :
    Front code traced' a n := by
  induction h with
  | nil => exact .nil
  | group _ hopcode htraced ih => exact .group ih hopcode (himp _ htraced)
  | padding _ hbyte ih => exact .padding ih hbyte

theorem Front.groups (h : Front code traced a n) {k : Nat}
    (hall : ∀ i < k, code.mem (a + BitVec.ofNat 32 (n + 5 * i)) = 0xE9 ∧
      traced (a + BitVec.ofNat 32 (n + 5 * i))) : Front code traced a (n + 5 * k) := by
  induction k with
  | zero => exact h
  | succ k ih =>
      obtain ⟨hopcode, htraced⟩ := hall k (Nat.lt_succ_self k)
      exact .group (ih fun i hi => hall i (Nat.lt_succ_of_lt hi)) hopcode htraced

theorem Front.paddings (h : Front code traced a n) {k : Nat}
    (hall : ∀ i < k, code.mem (a + BitVec.ofNat 32 (n + i)) = int3) :
    Front code traced a (n + k) := by
  induction k with
  | zero => exact h
  | succ k ih =>
      exact .padding (ih fun i hi => hall i (Nat.lt_succ_of_lt hi)) (hall k (Nat.lt_succ_self k))

end Front

/-- A trampoline has been assembled at `a`. -/
def TrampolineAt (events : List SweepEvent) (a : U32) : Prop :=
  SweepEvent.assemble .trampoline a 5 ∈ events

/-- **The invariant of `TrimGap`** for the gap `[start, stop)`: what is left lies in it, and what is
in front of it and behind it has been taken off. -/
structure TrimState.Trims (code : Code) (start stop : U32) (st : TrimState) : Prop where
  lower : start.toNat ≤ st.start.toNat
  le : st.start.toNat ≤ st.stop.toNat
  upper : st.stop.toNat ≤ stop.toNat
  front : Front code (TrampolineAt st.events) start (st.start.toNat - start.toNat)
  back : ∀ a : U32, st.stop.toNat ≤ a.toNat → a.toNat < stop.toNat → code.mem a = int3

/-- Nothing can be taken off. -/
def TrimState.Tight (code : Code) (st : TrimState) : Prop :=
  st.start ≠ st.stop → code.mem st.start ≠ int3 ∧
    (st.start.toNat + 5 ≤ st.stop.toNat → code.mem st.start ≠ 0xE9) ∧
    code.mem (st.stop - 1) ≠ int3

/-- Nothing is taken off: no trampoline, and no padding. -/
structure TrimState.Settled (code : Code) (sec : CodeSection) (st : TrimState) : Prop where
  noTrampoline : ¬ NextTrampoline code sec st.start st.stop 0
  noPadding : trimPadding code sec st = (false, st)

/-- The length of what is left. -/
def TrimState.length (st : TrimState) : Nat := st.stop.toNat - st.start.toNat

section Trims

variable {code : Code} {start stop : U32} {st : TrimState}

/-- An offset from what is left, as one from the gap. -/
theorem TrimState.Trims.offset (h : st.Trims code start stop) (i : Nat) :
    start + BitVec.ofNat 32 (st.start.toNat - start.toNat + i) = st.start + BitVec.ofNat 32 i := by
  have hlower := h.lower
  bv_omega

/-- A trampoline of the chain is among what the chain adds. -/
theorem trampolineAt_trampolineEvents {a : U32} {k i : Nat} (hi : i < k) :
    TrampolineAt (trampolineEvents code a k) (a + BitVec.ofNat 32 (5 * i)) := by
  apply List.mem_flatMap.mpr
  exact ⟨i, List.mem_range.mpr hi, List.mem_cons_of_mem _ List.mem_cons_self⟩

/-- Taking off a chain of trampolines. -/
theorem TrimState.Trims.takeOff {sec : CodeSection} (h : st.Trims code start stop) {k : Nat}
    (hk : st.start.toNat + 5 * k ≤ st.stop.toNat)
    (hall : ∀ i < k, NextTrampoline code sec st.start st.stop i) :
    TrimState.Trims code start stop
      { st with
        start := st.start + BitVec.ofNat 32 (5 * k)
        events := st.events ++ trampolineEvents code st.start k } := by
  have hat := toNat_add_five_mul hk
  have hlower := h.lower
  refine ⟨?_, hat.trans_le hk, h.upper, ?_, h.back⟩
  · show start.toNat ≤ (st.start + BitVec.ofNat 32 (5 * k)).toNat
    omega
  · show Front code _ start ((st.start + BitVec.ofNat 32 (5 * k)).toNat - start.toNat)
    have hfront : Front code (TrampolineAt (st.events ++ trampolineEvents code st.start k)) start
        (st.start.toNat - start.toNat) := h.front.mono fun b hb => List.mem_append_left _ hb
    rw [hat, Nat.sub_add_comm hlower]
    apply hfront.groups
    intro i hi
    rw [h.offset]
    exact ⟨(hall i hi).2.2, List.mem_append_right _ (trampolineAt_trampolineEvents hi)⟩

/-- Taking padding off the front. -/
theorem TrimState.Trims.padFront {sec : CodeSection} (h : st.Trims code start stop) {j : Nat}
    (hj : st.start.toNat + j ≤ st.stop.toNat)
    (hall : ∀ i < j, IsPad code sec (st.start + BitVec.ofNat 32 i)) :
    TrimState.Trims code start stop { st with start := st.start + BitVec.ofNat 32 j } := by
  have hstop := st.stop.isLt
  have hlower := h.lower
  have hat : (st.start + BitVec.ofNat 32 j).toNat = st.start.toNat + j := by bv_omega
  refine ⟨?_, hat.trans_le hj, h.upper, ?_, h.back⟩
  · show start.toNat ≤ (st.start + BitVec.ofNat 32 j).toNat
    omega
  · show Front code _ start ((st.start + BitVec.ofNat 32 j).toNat - start.toNat)
    rw [hat, Nat.sub_add_comm hlower]
    apply h.front.paddings
    intro i hi
    rw [h.offset]
    exact (hall i hi).2

/-- Taking padding off the end. -/
theorem TrimState.Trims.padBack {sec : CodeSection} (h : st.Trims code start stop) {j : Nat}
    (hj : st.start.toNat + j ≤ st.stop.toNat)
    (hall : ∀ i < j, IsPad code sec (st.stop - 1 - BitVec.ofNat 32 i)) :
    TrimState.Trims code start stop { st with stop := st.stop - BitVec.ofNat 32 j } := by
  have hstop := st.stop.isLt
  have hat : (st.stop - BitVec.ofNat 32 j).toNat = st.stop.toNat - j := by bv_omega
  refine ⟨h.lower, ?_, ?_, h.front, fun a hlo hhi => ?_⟩
  · show st.start.toNat ≤ (st.stop - BitVec.ofNat 32 j).toNat
    omega
  · show (st.stop - BitVec.ofNat 32 j).toNat ≤ stop.toNat
    exact le_trans (hat.trans_le (Nat.sub_le _ _)) h.upper
  · by_cases hold : st.stop.toNat ≤ a.toNat
    · exact h.back a hold hhi
    · -- one of the bytes taken off now
      have hlo' : st.stop.toNat - j ≤ a.toNat := hat ▸ hlo
      have heq : a = st.stop - 1 - BitVec.ofNat 32 (st.stop.toNat - 1 - a.toNat) := by bv_omega
      rw [heq]
      exact (hall _ (by omega)).2

end Trims

/-! ## One pass -/

/-- The gap lies in a section that lies below `0x80000000`. -/
structure LowGap (sec : CodeSection) (start stop : U32) : Prop where
  start : sec.start.toNat ≤ start.toNat
  stop : stop.toNat ≤ sec.top
  low : sec.top < 2 ^ 31

section Pass

variable {code : Code} {sec : CodeSection} {start stop : U32} {st : TrimState}

/-- What is left of such a gap is code. -/
theorem TrimState.Trims.isAddrCode (h : st.Trims code start stop) (hgap : LowGap sec start stop)
    {a : U32} (hlo : st.start.toNat ≤ a.toNat) (hhi : a.toNat < st.stop.toNat) :
    sec.isAddrCode a = true := by
  rw [CodeSection.isAddrCode_iff]
  exact ⟨le_trans hgap.start (le_trans h.lower hlo),
    lt_of_lt_of_le hhi (le_trans h.upper hgap.stop)⟩

/-- Its signed bounds are its bounds. -/
theorem TrimState.Trims.not_badRange (h : st.Trims code start stop)
    (hgap : LowGap sec start stop) (hlt : st.start.toNat < st.stop.toNat) :
    ¬ badRange st.start st.stop := by
  have hstop : st.stop.toNat < 2 ^ 31 :=
    lt_of_le_of_lt (le_trans h.upper hgap.stop) hgap.low
  unfold badRange
  rw [BitVec.toInt_eq_toNat_cond, BitVec.toInt_eq_toNat_cond, if_pos (by omega), if_pos (by omega)]
  omega

/-- **The padding of a pass**: some is taken off, or nothing happens. -/
theorem trimPadding_spec (sec : CodeSection) (h : st.Trims code start stop) :
    ((trimPadding code sec st).1 = true ∧ (trimPadding code sec st).2.Trims code start stop ∧
      (trimPadding code sec st).2.length < st.length) ∨ trimPadding code sec st = (false, st) := by
  obtain ⟨i, hi, hfront, hpads, -⟩ := paddingStart_spec code sec h.le
  obtain ⟨j, hj, hback, hpads', -⟩ := paddingEnd_spec code sec h.le
  have hstop := st.stop.isLt
  unfold trimPadding TrimState.length
  rw [hfront, hback]
  dsimp only
  by_cases hi0 : 0 < i
  · rw [decide_eq_true hi0, if_pos rfl]
    refine Or.inl ⟨rfl, h.padFront hi hpads, ?_⟩
    show st.stop.toNat - (st.start + BitVec.ofNat 32 i).toNat < _
    bv_omega
  · obtain rfl : i = 0 := by omega
    rw [if_neg (by simp)]
    by_cases hj0 : 0 < j
    · rw [decide_eq_true hj0]
      refine Or.inl ⟨rfl, h.padBack hj hpads', ?_⟩
      show (st.stop - BitVec.ofNat 32 j).toNat - st.start.toNat < _
      bv_omega
    · obtain rfl : j = 0 := by omega
      right
      simp

/-- Where no padding goes, the bytes at both ends are no padding: both ends are code. -/
theorem ends_of_trimPadding (h : st.Trims code start stop) (hgap : LowGap sec start stop)
    (hnone : trimPadding code sec st = (false, st)) (hne : st.start ≠ st.stop) :
    code.mem st.start ≠ int3 ∧ code.mem (st.stop - 1) ≠ int3 := by
  obtain ⟨i, -, hfront, -, hmax, -⟩ := paddingStart_spec code sec h.le
  obtain ⟨j, -, hback, -, hmax'⟩ := paddingEnd_spec code sec h.le
  have hlt : st.start.toNat < st.stop.toNat :=
    lt_of_le_of_ne h.le fun heq => hne (BitVec.eq_of_toNat_eq heq)
  have hbad := h.not_badRange hgap hlt
  have hlast : (st.stop - 1).toNat = st.stop.toNat - 1 := by bv_omega
  have hflag : (trimPadding code sec st).1 = false := by rw [hnone]
  unfold trimPadding at hflag
  rw [hfront, hback] at hflag
  dsimp only at hflag
  obtain rfl : i = 0 := by
    by_contra hi
    rw [if_pos (decide_eq_true (Nat.pos_of_ne_zero hi))] at hflag
    exact absurd hflag (by simp)
  rw [if_neg (by simp)] at hflag
  obtain rfl : j = 0 := Nat.eq_zero_of_not_pos (of_decide_eq_false hflag)
  constructor
  · intro hbyte
    apply hmax hbad hlt
    rw [BitVec.add_zero]
    exact ⟨h.isAddrCode hgap le_rfl hlt, hbyte⟩
  · intro hbyte
    apply hmax' hbad hlt
    rw [BitVec.sub_zero]
    exact ⟨h.isAddrCode hgap (by omega) (by omega), hbyte⟩

/-- Where nothing is taken off such a gap, nothing can be. -/
theorem TrimState.Settled.tight (hset : st.Settled code sec) (h : st.Trims code start stop)
    (hgap : LowGap sec start stop) : st.Tight code := by
  intro hne
  obtain ⟨hfirst, hlast⟩ := ends_of_trimPadding h hgap hset.noPadding hne
  refine ⟨hfirst, fun hroom hopcode => hset.noTrampoline ?_, hlast⟩
  unfold NextTrampoline IsTrampoline
  rw [Nat.mul_zero, Nat.add_zero, BitVec.add_zero]
  exact ⟨hroom, h.isAddrCode hgap le_rfl (by omega), hopcode⟩

/-- What a pass has made of the gap when it decides whether to go round again, `k` trampolines
having been taken off. -/
def takenByPass (code : Code) (sec : CodeSection) (st : TrimState) (k : Nat) : Bool × TrimState :=
  let st' := { st with
    start := st.start + BitVec.ofNat 32 (5 * k)
    events := st.events ++ trampolineEvents code st.start k }
  if decide (0 < k) then (true, st') else trimPadding code sec st'

/-- It has taken something off, or nothing is taken off. -/
theorem takenByPass_spec (h : st.Trims code start stop) {k : Nat}
    (hk : st.start.toNat + 5 * k ≤ st.stop.toNat)
    (hall : ∀ i < k, NextTrampoline code sec st.start st.stop i)
    (hmax : ¬ NextTrampoline code sec st.start st.stop k) :
    ((takenByPass code sec st k).1 = true ∧ (takenByPass code sec st k).2.Trims code start stop ∧
      (takenByPass code sec st k).2.length < st.length) ∨
    (takenByPass code sec st k = (false, st) ∧ st.Settled code sec) := by
  have hat := toNat_add_five_mul hk
  unfold takenByPass
  dsimp only
  by_cases hk0 : 0 < k
  · rw [if_pos (decide_eq_true hk0)]
    refine Or.inl ⟨rfl, h.takeOff hk hall, ?_⟩
    show st.stop.toNat - (st.start + BitVec.ofNat 32 (5 * k)).toNat < _
    unfold TrimState.length
    omega
  · obtain rfl : k = 0 := by omega
    have hsame : ({ st with
        start := st.start + BitVec.ofNat 32 (5 * 0)
        events := st.events ++ trampolineEvents code st.start 0 } : TrimState) = st := by
      simp [trampolineEvents]
    rw [if_neg (by simp), hsame]
    rcases trimPadding_spec sec h with htaken | hnone
    · exact Or.inl htaken
    · exact Or.inr ⟨hnone, hmax, hnone⟩

/-- **A pass of `TrimGap`** takes something off what is left, or leaves: then nothing is left, or
nothing is taken off. -/
theorem trimBody_spec (sec : CodeSection) (h : st.Trims code start stop) :
    (∃ st', Computes (fun n => trimBody n code sec st) (.exit st') ∧
      st'.Trims code start stop ∧ (st'.start ≠ st'.stop → st'.Settled code sec)) ∨
    ∃ st', Computes (fun n => trimBody n code sec st) (.next st') ∧ st'.length < st.length ∧
      st'.Trims code start stop := by
  obtain ⟨k, hk, hcombo, hall, hmax⟩ := comboTrampoline_spec code sec h.le
  have hbody : Computes (fun n => trimBody n code sec st)
      (if (takenByPass code sec st k).1 = true ∧
        (takenByPass code sec st k).2.start < (takenByPass code sec st k).2.stop then
        .next (takenByPass code sec st k).2 else .exit (takenByPass code sec st k).2) := by
    have hmap := hcombo.map (CodeSectionSweeper.afterTrampolines code sec st)
    simp only [← CodeSectionSweeper.trimBody_eq] at hmap
    exact hmap
  rcases takenByPass_spec h hk hall hmax with ⟨hsome, htrims, hless⟩ | ⟨hnone, hset⟩
  · split_ifs at hbody with hagain
    · exact Or.inr ⟨_, hbody, hless, htrims⟩
    · -- nothing is left
      have hempty : (takenByPass code sec st k).2.start = (takenByPass code sec st k).2.stop := by
        have hle := htrims.le
        have hnot : ¬ (takenByPass code sec st k).2.start < (takenByPass code sec st k).2.stop :=
          fun hlt => hagain ⟨hsome, hlt⟩
        bv_omega
      exact Or.inl ⟨_, hbody, htrims, fun hne => absurd hempty hne⟩
  · rw [hnone, if_neg (by simp)] at hbody
    exact Or.inl ⟨st, hbody, h, fun _ => hset⟩

/-- **`TrimGap` terminates** on every gap, with a gap inside it off which nothing is taken. -/
theorem exists_trimGap (code : Code) (sec : CodeSection) {start stop : U32}
    (hle : start.toNat ≤ stop.toNat) :
    ∃ st, Computes (fun n => trimGap n code sec start stop) (st.start == st.stop, st) ∧
      st.Trims code start stop ∧ (st.start ≠ st.stop → st.Settled code sec) := by
  have htotal : ∃ st : TrimState,
      Computes (fun n => whileLoop (trimBody n code sec) n ⟨start, stop, []⟩) st ∧
        st.Trims code start stop ∧ (st.start ≠ st.stop → st.Settled code sec) := by
    apply total_rule TrimState.length (TrimState.Trims code start stop)
      (fun st : TrimState => st.Trims code start stop ∧
        (st.start ≠ st.stop → st.Settled code sec))
    · intro st hst
      exact trimBody_spec sec hst
    · refine ⟨le_rfl, hle, le_rfl, ?_, fun a hlo hhi => absurd hhi (not_lt_of_ge hlo)⟩
      show Front code _ start (start.toNat - start.toNat)
      rw [Nat.sub_self]
      exact .nil
  obtain ⟨st, hst, hspec⟩ := htotal
  exact ⟨st, hst.map fun st => (st.start == st.stop, st), hspec⟩

end Pass

namespace CodeSectionSweeper

/-- An assembled trace stays, or the one that was there before it. -/
theorem exists_start_applyEvents {events : List SweepEvent} {s : CodeSectionSweeper} {a : U32}
    (h : (∃ t ∈ s.traces, t.start = a) ∨
      ∃ cause size, SweepEvent.assemble cause a size ∈ events) :
    ∃ t ∈ (events.foldl applyEvent s).traces, t.start = a := by
  induction events generalizing s with
  | nil =>
      rcases h with h | ⟨_, _, h⟩
      · exact h
      · exact absurd h List.not_mem_nil
  | cons ev events ih =>
      rw [List.foldl_cons]
      apply ih
      rcases h with ⟨t, ht, hstart⟩ | ⟨cause, size, h⟩
      · refine Or.inl ⟨t, ?_, hstart⟩
        cases ev with
        | pend _ => exact ht
        | assemble _ _ _ => exact KeyedSet.mem_insert.mpr (Or.inl ht)
      · rcases List.mem_cons.mp h with rfl | h
        · -- the set takes the new trace, or has one with this start
          left
          by_cases hkey : s.traces.HasKey a.toNat
          · obtain ⟨t, ht, heq⟩ := hkey
            exact ⟨t, KeyedSet.mem_insert.mpr (Or.inl ht), BitVec.eq_of_toNat_eq heq⟩
          · exact ⟨_, (KeyedSet.mem_insert_of_not_hasKey hkey).mpr (Or.inl rfl), rfl⟩
        · exact Or.inr ⟨cause, size, h⟩

/-- **`TrimGap` trims exactly.**  On a gap inside a section below `0x80000000` it terminates with a
gap inside the one it was given; in front of that there are trampolines, each with a trace, and
padding, behind it there is padding, and nothing of the kind is left.  It returns true when nothing
is left at all. -/
theorem trimGap_spec (code : Code) (s : CodeSectionSweeper) (start stop : U32)
    (hgap : LowGap s.codeSection start stop) (hle : start.toNat ≤ stop.toNat) :
    ∃ trimmed st, Computes (fun n => trimGap n code s.codeSection start stop) (trimmed, st) ∧
      start.toNat ≤ st.start.toNat ∧ st.start.toNat ≤ st.stop.toNat ∧ st.stop.toNat ≤ stop.toNat ∧
      Front code (fun a => ∃ t ∈ (st.events.foldl applyEvent s).traces, t.start = a) start
        (st.start.toNat - start.toNat) ∧
      (∀ a : U32, st.stop.toNat ≤ a.toNat → a.toNat < stop.toNat → code.mem a = int3) ∧
      st.Tight code ∧ (trimmed = true ↔ st.start = st.stop) := by
  obtain ⟨st, hst, htrims, hset⟩ := exists_trimGap code s.codeSection hle
  have htight : st.Tight code := fun hne => (hset hne).tight htrims hgap hne
  refine ⟨st.start == st.stop, st, hst, htrims.lower, htrims.le, htrims.upper, ?_, htrims.back,
    htight, beq_iff_eq⟩
  exact htrims.front.mono fun a ha => exists_start_applyEvents (Or.inr ⟨_, _, ha⟩)

section Samples

/-- `CC E9 05 00 00 00 C3 CC CC`, with padding at both ends. -/
def trimCode : Code where
  mem := fun a =>
    if a = 0x1001 then 0xE9 else if a = 0x1002 then 0x05 else if a = 0x1006 then 0xC3
    else if a = 0x1003 ∨ a = 0x1004 ∨ a = 0x1005 then 0 else int3
  getInstruction := fun _ => none

/-- The `ret` is left of the nine bytes, with a trace at the trampoline in front of it. -/
theorem trimGap_spec_sample : ∃ st, Computes
    (fun n => trimGap n trimCode trampolineSection 0x1000 0x1009) (false, st) ∧
      st.start = 0x1006 ∧ st.stop = 0x1007 ∧ st.Tight trimCode ∧
      Front trimCode (fun a => ∃ t ∈ (st.events.foldl applyEvent (init trampolineSection)).traces,
        t.start = a) 0x1000 6 := by
  obtain ⟨trimmed, st, hst, -, -, -, hfront, -, htight, -⟩ := trimGap_spec trimCode
    (init trampolineSection) 0x1000 0x1009 ⟨by decide, by decide, by decide⟩ (by decide)
  have hrun : Computes (fun n => trimGap n trimCode trampolineSection 0x1000 0x1009)
      (false, ⟨0x1006, 0x1007, [.pend 5, .assemble .trampoline 0x1001 5]⟩) :=
    (fuelMono_trimGap 0x1000 0x1009).computes
      (show trimGap 9 trimCode trampolineSection 0x1000 0x1009 = _ from rfl)
  obtain ⟨rfl, rfl⟩ := Prod.mk.inj (hst.unique hrun)
  exact ⟨_, hrun, rfl, rfl, htight, hfront⟩

end Samples

end CodeSectionSweeper

end PEReplay
