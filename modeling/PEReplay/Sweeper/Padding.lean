/-
# PEReplay.Sweeper.Padding — what the two padding helpers do to a gap.

`IsRangeAlignPaddingStart` moves the start of a range over a maximal block of padding, and
`IsRangeAlignPaddingEnd` its end, over signed copies of the bounds.  Where the signed bounds are
ordered as the unsigned ones are, the block stays in the range (`paddingStart_spec`,
`paddingEnd_spec`); where they are not, nothing moves.
-/
import PEReplay.Sweeper.Gaps

namespace PEReplay

/-- A byte of padding in the section. -/
def IsPad (code : Code) (sec : CodeSection) (a : U32) : Prop :=
  sec.isAddrCode a = true ∧ code.mem a = int3

section Padding

variable {code : Code} {sec : CodeSection}

/-- As long as a predicate holds, and no longer. -/
theorem exists_leading (p : Nat → Prop) (k : Nat) :
    ∃ j ≤ k, (∀ i < j, p i) ∧ (j < k → ¬ p j) := by
  induction k with
  | zero =>
      refine ⟨0, le_rfl, fun i hi => absurd hi (Nat.not_lt_zero i), ?_⟩
      exact fun h => absurd h (lt_irrefl 0)
  | succ k ih =>
      obtain ⟨j, hj, hall, hmax⟩ := ih
      by_cases hlt : j < k
      · exact ⟨j, by omega, hall, fun _ => hmax hlt⟩
      · obtain rfl : j = k := by omega
        by_cases hp : p j
        · refine ⟨j + 1, le_rfl, fun i hi => ?_, fun h => absurd h (lt_irrefl _)⟩
          rcases Nat.lt_succ_iff_lt_or_eq.mp hi with hi | rfl
          · exact hall i hi
          · exact hp
        · exact ⟨j, Nat.le_succ j, hall, fun _ => hp⟩

theorem add_one_ofNat (a : U32) (i : Nat) :
    a + 1 + BitVec.ofNat 32 i = a + BitVec.ofNat 32 (i + 1) := by
  rw [BitVec.add_assoc, BitVec.add_comm 1, BitVec.ofNat_add]
  rfl

theorem sub_one_ofNat (a : U32) (i : Nat) :
    a - 1 - BitVec.ofNat 32 i = a - BitVec.ofNat 32 (i + 1) := by
  rw [BitVec.ofNat_add]
  bv_omega

/-- The loop goes over a block of padding to its end. -/
theorem paddingStartLoop_eq {j k : Nat} {start : U32} (b : Bool) (hj : j ≤ k)
    (hall : ∀ i < j, IsPad code sec (start + BitVec.ofNat 32 i))
    (hmax : j < k → ¬ IsPad code sec (start + BitVec.ofNat 32 j)) :
    paddingStartLoop code sec k start start b =
      (b || decide (0 < j), start + BitVec.ofNat 32 j) := by
  induction j generalizing k start b with
  | zero =>
      rw [BitVec.add_zero] at hmax ⊢
      rw [decide_eq_false (lt_irrefl 0), Bool.or_false]
      cases k with
      | zero => rfl
      | succ k =>
          unfold paddingStartLoop
          split_ifs with hcode hbyte
          · exact absurd ⟨hcode, hbyte⟩ (hmax (Nat.succ_pos k))
          · rfl
          · rfl
  | succ j ih =>
      obtain ⟨k, rfl⟩ : ∃ m, k = m + 1 := ⟨k - 1, by omega⟩
      have hfirst : IsPad code sec start := by
        simpa using hall 0 (Nat.succ_pos j)
      unfold paddingStartLoop
      rw [if_pos hfirst.1, if_pos hfirst.2, ih true (Nat.le_of_succ_le_succ hj), add_one_ofNat]
      · simp
      · intro i hi
        rw [add_one_ofNat]
        exact hall (i + 1) (Nat.succ_lt_succ hi)
      · intro hlt
        rw [add_one_ofNat]
        exact hmax (Nat.succ_lt_succ hlt)

/-- So does the loop downwards. -/
theorem paddingEndLoop_eq {j k : Nat} {stop : U32} (b : Bool) (hj : j ≤ k)
    (hall : ∀ i < j, IsPad code sec (stop - 1 - BitVec.ofNat 32 i))
    (hmax : j < k → ¬ IsPad code sec (stop - 1 - BitVec.ofNat 32 j)) :
    paddingEndLoop code sec k (stop - 1) stop b =
      (b || decide (0 < j), stop - BitVec.ofNat 32 j) := by
  induction j generalizing k stop b with
  | zero =>
      rw [BitVec.sub_zero] at hmax ⊢
      rw [decide_eq_false (lt_irrefl 0), Bool.or_false]
      cases k with
      | zero => rfl
      | succ k =>
          unfold paddingEndLoop
          split_ifs with hcode hbyte
          · exact absurd ⟨hcode, hbyte⟩ (hmax (Nat.succ_pos k))
          · rfl
          · rfl
  | succ j ih =>
      obtain ⟨k, rfl⟩ : ∃ m, k = m + 1 := ⟨k - 1, by omega⟩
      have hfirst : IsPad code sec (stop - 1) := by
        simpa using hall 0 (Nat.succ_pos j)
      unfold paddingEndLoop
      rw [if_pos hfirst.1, if_pos hfirst.2, ih true (Nat.le_of_succ_le_succ hj), sub_one_ofNat]
      · simp
      · intro i hi
        rw [sub_one_ofNat (stop - 1)]
        exact hall (i + 1) (Nat.succ_lt_succ hi)
      · intro hlt
        rw [sub_one_ofNat (stop - 1)]
        exact hmax (Nat.succ_lt_succ hlt)

/-- Padding begins in the section, with an `int3`. -/
theorem padding_begins {start stop : U32}
    (h : (isRangeAlignPaddingStart code sec start stop).1 = true) : IsPad code sec start := by
  unfold isRangeAlignPaddingStart at h
  split_ifs at h
  obtain ⟨j, hj, hall, hmax⟩ := exists_leading
    (fun i => IsPad code sec (start + BitVec.ofNat 32 i)) (stop.toInt - start.toInt).toNat
  rw [paddingStartLoop_eq false hj hall hmax, Bool.false_or, decide_eq_true_eq] at h
  simpa using hall 0 h

/-- Where the range is not bad its signed length is its length. -/
theorem toNat_signedLength {start stop : U32} (h : ¬ badRange start stop)
    (hle : start.toNat ≤ stop.toNat) :
    (stop.toInt - start.toInt).toNat = stop.toNat - start.toNat := by
  unfold badRange at h
  rw [not_or, not_or] at h
  have hlt := h.2.2
  have h1 := start.isLt
  have h2 := stop.isLt
  rw [BitVec.toInt_eq_toNat_cond, BitVec.toInt_eq_toNat_cond] at hlt ⊢
  split_ifs at hlt ⊢ <;> omega

/-- **`IsRangeAlignPaddingStart`** skips a block of padding inside the range; what follows it in
the range is no padding. -/
theorem paddingStart_spec (code : Code) (sec : CodeSection) {start stop : U32}
    (hle : start.toNat ≤ stop.toNat) :
    ∃ j, start.toNat + j ≤ stop.toNat ∧
      isRangeAlignPaddingStart code sec start stop =
        (decide (0 < j), start + BitVec.ofNat 32 j) ∧
      (∀ i < j, IsPad code sec (start + BitVec.ofNat 32 i)) ∧
      (¬ badRange start stop → start.toNat + j < stop.toNat →
        ¬ IsPad code sec (start + BitVec.ofNat 32 j)) ∧
      (badRange start stop → j = 0) := by
  unfold isRangeAlignPaddingStart
  split_ifs with hbad
  · refine ⟨0, hle, ?_, fun i hi => absurd hi (Nat.not_lt_zero i), fun h => absurd hbad h,
      fun _ => rfl⟩
    simp
  · rw [toNat_signedLength hbad hle]
    obtain ⟨j, hj, hall, hmax⟩ := exists_leading
      (fun i => IsPad code sec (start + BitVec.ofNat 32 i)) (stop.toNat - start.toNat)
    refine ⟨j, by omega, ?_, hall, fun _ hlt => hmax (by omega), fun h => absurd h hbad⟩
    rw [paddingStartLoop_eq false hj hall hmax, Bool.false_or]

/-- **`IsRangeAlignPaddingEnd`** takes off a block of padding at the end of the range; what precedes
it in the range is no padding. -/
theorem paddingEnd_spec (code : Code) (sec : CodeSection) {start stop : U32}
    (hle : start.toNat ≤ stop.toNat) :
    ∃ j, start.toNat + j ≤ stop.toNat ∧
      isRangeAlignPaddingEnd code sec start stop =
        (decide (0 < j), stop - BitVec.ofNat 32 j) ∧
      (∀ i < j, IsPad code sec (stop - 1 - BitVec.ofNat 32 i)) ∧
      (¬ badRange start stop → start.toNat + j < stop.toNat →
        ¬ IsPad code sec (stop - 1 - BitVec.ofNat 32 j)) := by
  unfold isRangeAlignPaddingEnd
  split_ifs with hbad
  · refine ⟨0, hle, ?_, fun i hi => absurd hi (Nat.not_lt_zero i), fun h => absurd hbad h⟩
    simp
  · rw [toNat_signedLength hbad hle]
    obtain ⟨j, hj, hall, hmax⟩ := exists_leading
      (fun i => IsPad code sec (stop - 1 - BitVec.ofNat 32 i)) (stop.toNat - start.toNat)
    refine ⟨j, by omega, ?_, hall, fun _ hlt => hmax (by omega)⟩
    rw [paddingEndLoop_eq false hj hall hmax, Bool.false_or]

end Padding

end PEReplay
