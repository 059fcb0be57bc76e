/-
# PEReplay.Sweeper.PaddingScan — where the padding behind a `lea` target ends.

The scan steps to the next byte before it looks at it, counts the `int 3` bytes in a row, and leaves
at the first other byte that is a multiple of 16 and has more than four of them in front.  `ScanAt`
is what it knows on the way: how long the row is, and that the padding has not ended yet.  So it
leaves at the first end (`paddingScan_exit`), or one byte behind the range it searches.
-/
import PEReplay.Sweeper.Gaps
import PEReplay.Sweeper.Explore

namespace PEReplay

open Loop

/-- The padding behind `a` ends at `a + d`: a multiple of 16, behind five bytes of padding. -/
def EndsPadding (code : Code) (a : U32) (d : Nat) : Prop :=
  5 < d ∧ (a + BitVec.ofNat 32 d) &&& 0xF = 0 ∧ code.mem (a + BitVec.ofNat 32 d) ≠ int3 ∧
    ∀ i, 1 ≤ i → i ≤ 5 → code.mem (a + BitVec.ofNat 32 (d - i)) = int3

/-- The padding behind `a` ends at `a + d` for the first time, within the search range. -/
structure PaddedUpTo (code : Code) (a : U32) (d : Nat) : Prop where
  room : a.toNat + 4096 < 2 ^ 32
  near : d < 4096
  ends : EndsPadding code a d
  first : ∀ d' < d, ¬ EndsPadding code a d'

theorem PaddedUpTo.unique {code : Code} {a : U32} {d d' : Nat} (h : PaddedUpTo code a d)
    (h' : PaddedUpTo code a d') : d = d' := by
  rcases lt_trichotomy d d' with hlt | heq | hlt
  · exact absurd h.ends (h'.first d hlt)
  · exact heq
  · exact absurd h'.ends (h.first d' hlt)

namespace CodeSectionSweeper

section Scan

variable {code : Code} {a : U32}

/-- The scan has come to `a + m`: the last `j` bytes were padding and no more, and the padding has
not ended yet. -/
structure ScanAt (code : Code) (a : U32) (m j : Nat) : Prop where
  le : j ≤ m
  near : m ≤ 4096
  pads : ∀ i < j, code.mem (a + BitVec.ofNat 32 (m - i)) = int3
  more : j < m → code.mem (a + BitVec.ofNat 32 (m - j)) ≠ int3
  unended : ∀ d ≤ m, ¬ EndsPadding code a d

theorem scanAt_zero (code : Code) (a : U32) : ScanAt code a 0 0 where
  le := le_rfl
  near := Nat.zero_le _
  pads := fun i hi => absurd hi (Nat.not_lt_zero i)
  more := fun h => absurd h (lt_irrefl 0)
  unended := fun d hd hends => absurd hends.1 (by omega)

/-- One more byte of padding. -/
theorem ScanAt.pad {m j : Nat} (h : ScanAt code a m j) (hm : m < 4096)
    (hbyte : code.mem (a + BitVec.ofNat 32 (m + 1)) = int3) : ScanAt code a (m + 1) (j + 1) where
  le := Nat.succ_le_succ h.le
  near := hm
  pads := by
    intro i hi
    cases i with
    | zero => exact hbyte
    | succ i =>
        rw [Nat.add_sub_add_right]
        exact h.pads i (Nat.lt_of_succ_lt_succ hi)
  more := by
    intro hlt
    rw [Nat.add_sub_add_right]
    exact h.more (Nat.lt_of_succ_lt_succ hlt)
  unended := by
    intro d hd hends
    rcases Nat.le_succ_iff.mp hd with hd | rfl
    · exact h.unended d hd hends
    · exact hends.2.2.1 hbyte

/-- A byte that is no padding, and does not end the padding: the count begins anew. -/
theorem ScanAt.other {m j : Nat} (h : ScanAt code a m j) (hm : m < 4096)
    (hbyte : code.mem (a + BitVec.ofNat 32 (m + 1)) ≠ int3)
    (hends : ¬ EndsPadding code a (m + 1)) : ScanAt code a (m + 1) 0 where
  le := Nat.zero_le _
  near := hm
  pads := fun i hi => absurd hi (Nat.not_lt_zero i)
  more := fun _ => hbyte
  unended := by
    intro d hd
    rcases Nat.le_succ_iff.mp hd with hd | rfl
    · exact h.unended d hd
    · exact hends

/-- The count tells whether the padding ends here. -/
theorem ScanAt.endsPadding_iff {m j : Nat} (h : ScanAt code a m j)
    (hbyte : code.mem (a + BitVec.ofNat 32 (m + 1)) ≠ int3) :
    EndsPadding code a (m + 1) ↔ (a + BitVec.ofNat 32 (m + 1)) &&& 0xF = 0 ∧ 4 < j := by
  constructor
  · rintro ⟨hlen, halign, -, hpads⟩
    refine ⟨halign, ?_⟩
    by_contra hfew
    -- the byte in front of the counted ones would be padding too
    have hle := h.le
    apply h.more (by omega)
    have hpad := hpads (j + 1) (by omega) (by omega)
    rwa [Nat.add_sub_add_right] at hpad
  · rintro ⟨halign, hmany⟩
    have hle := h.le
    refine ⟨by omega, halign, hbyte, fun i hlo hhi => ?_⟩
    obtain ⟨i, rfl⟩ : ∃ k, i = k + 1 := ⟨i - 1, by omega⟩
    rw [Nat.add_sub_add_right]
    exact h.pads i (by omega)

/-- Where the scan leaves: at the first end of the padding, or one byte behind the range. -/
def ScanExit (code : Code) (a stop : U32) : Prop :=
  (∃ d ≤ 4096, EndsPadding code a d ∧ (∀ d' < d, ¬ EndsPadding code a d') ∧
    stop = a + BitVec.ofNat 32 d) ∨
  ((∀ d ≤ 4096, ¬ EndsPadding code a d) ∧ stop = a + BitVec.ofNat 32 4097)

/-- **Step.** A pass of the scan below the top of the address space. -/
theorem paddingScanBody_spec (hroom : a.toNat + 4096 < 2 ^ 32) {m j : Nat} (h : ScanAt code a m j) :
    (∃ stop, paddingScanBody code a (a + BitVec.ofNat 32 m, BitVec.ofNat 32 j) = .exit stop ∧
      ScanExit code a stop) ∨
    ∃ j', paddingScanBody code a (a + BitVec.ofNat 32 m, BitVec.ofNat 32 j) =
      .next (a + BitVec.ofNat 32 (m + 1), BitVec.ofNat 32 j') ∧ m < 4096 ∧
        ScanAt code a (m + 1) j' := by
  have hmax : a + maxLeaPaddingSearchRange = a + BitVec.ofNat 32 4096 := rfl
  have hnext : a + BitVec.ofNat 32 m + 1 = a + BitVec.ofNat 32 (m + 1) := by
    rw [BitVec.add_assoc, BitVec.ofNat_add]
    rfl
  have hle := h.le
  have hnear := h.near
  have hlt : a + BitVec.ofNat 32 m < a + maxLeaPaddingSearchRange ↔ m < 4096 := by
    rw [hmax]
    bv_omega
  have hcount : BitVec.ofNat 32 j > 4 ↔ 4 < j := by bv_omega
  unfold paddingScanBody
  dsimp only
  rw [hnext]
  by_cases hm : m < 4096
  · rw [if_pos (hlt.mpr hm)]
    by_cases hbyte : code.mem (a + BitVec.ofNat 32 (m + 1)) = int3
    · rw [if_pos hbyte]
      refine Or.inr ⟨j + 1, ?_, hm, h.pad hm hbyte⟩
      rw [BitVec.ofNat_add j 1]
      rfl
    · have hiff := h.endsPadding_iff hbyte
      rw [← hcount] at hiff
      rw [if_neg hbyte]
      split_ifs with hcond
      · exact Or.inl ⟨_, rfl, Or.inl ⟨m + 1, hm, hiff.mpr hcond,
          fun d' hd' => h.unended d' (Nat.le_of_lt_succ hd'), rfl⟩⟩
      · exact Or.inr ⟨0, rfl, hm, h.other hm hbyte (mt hiff.mp hcond)⟩
  · obtain rfl : m = 4096 := by omega
    rw [if_neg (mt hlt.mp hm)]
    exact Or.inl ⟨_, rfl, Or.inr ⟨h.unended, rfl⟩⟩

/-- **Run.** Below the top of the address space the scan terminates, where it should. -/
theorem paddingScan_exit (code : Code) (hroom : a.toNat + 4096 < 2 ^ 32) :
    ∃ stop, Computes (fun n => paddingScan n code a) stop ∧ ScanExit code a stop := by
  apply total_rule (fun st : U32 × U32 => a.toNat + 4096 - st.1.toNat)
    (fun st => ∃ m j, st = (a + BitVec.ofNat 32 m, BitVec.ofNat 32 j) ∧ ScanAt code a m j)
  · rintro _ ⟨m, j, rfl, hst⟩
    rcases paddingScanBody_spec hroom hst with ⟨stop, hbody, hends⟩ | ⟨j', hbody, hm, hst'⟩
    · rw [hbody]
      exact Or.inl ⟨stop, computes_some _, hends⟩
    · rw [hbody]
      refine Or.inr ⟨_, computes_some _, ?_, m + 1, j', rfl, hst'⟩
      dsimp only
      bv_omega
  · exact ⟨0, 0, by simp, scanAt_zero code a⟩

/-! ## The least end -/

/-- The padding behind `a` ends at `e`, within the range that is searched. -/
structure IsPaddingEnd (code : Code) (a e : U32) : Prop where
  behind : a.toNat < e.toNat
  near : e.toNat ≤ a.toNat + 4096
  aligned : e.toNat % 16 = 0
  other : code.mem e ≠ int3
  above : ∀ i, 1 ≤ i → i ≤ 5 → a.toNat < e.toNat - i
  padding : ∀ i, 1 ≤ i → i ≤ 5 → code.mem (e - BitVec.ofNat 32 i) = int3

theorem and_fifteen_eq_zero_iff (e : U32) : e &&& 0xF = 0 ↔ e.toNat % 16 = 0 := by
  rw [← toNat_and_fifteen, ← BitVec.toNat_inj]
  exact Iff.rfl

/-- The ends as distances. -/
theorem isPaddingEnd_iff (hroom : a.toNat + 4096 < 2 ^ 32) {d : Nat} (hd : d ≤ 4096) :
    IsPaddingEnd code a (a + BitVec.ofNat 32 d) ↔ EndsPadding code a d := by
  have he : (a + BitVec.ofNat 32 d).toNat = a.toNat + d := by bv_omega
  have hback : ∀ i ≤ d,
      a + BitVec.ofNat 32 d - BitVec.ofNat 32 i = a + BitVec.ofNat 32 (d - i) := by
    intro i hi
    bv_omega
  constructor
  · rintro ⟨-, -, haligned, hother, habove, hpadding⟩
    have hfive := habove 5 (by omega) le_rfl
    rw [he] at hfive
    refine ⟨by omega, (and_fifteen_eq_zero_iff _).mpr haligned, hother, fun i hlo hhi => ?_⟩
    rw [← hback i (by omega)]
    exact hpadding i hlo hhi
  · rintro ⟨hlen, haligned, hother, hpadding⟩
    refine ⟨by omega, by omega, (and_fifteen_eq_zero_iff _).mp haligned, hother, ?_, ?_⟩
    · intro i hlo hhi
      omega
    · intro i hlo hhi
      rw [hback i (by omega)]
      exact hpadding i hlo hhi

/-- Every end is at some distance. -/
theorem IsPaddingEnd.exists_distance {e : U32} (h : IsPaddingEnd code a e) :
    ∃ d ≤ 4096, e = a + BitVec.ofNat 32 d := by
  have hbehind := h.behind
  have hnear := h.near
  exact ⟨e.toNat - a.toNat, by omega, by bv_omega⟩

/-- **The padding scan finds the least end.**  It terminates with the least end of the padding, or
one byte behind the range when there is none; the test behind it accepts the ends that are not the
last address of the range. -/
theorem paddingScan_least (code : Code) (a : U32) (hroom : a.toNat + 4097 < 2 ^ 32) :
    ∃ stop, Computes (fun n => paddingScan n code a) stop ∧
      ((IsPaddingEnd code a stop ∧ ∀ e, IsPaddingEnd code a e → stop.toNat ≤ e.toNat) ∨
        ((∀ e, ¬ IsPaddingEnd code a e) ∧ stop.toNat = a.toNat + 4097)) ∧
      (stop < a + maxLeaPaddingSearchRange ↔
        IsPaddingEnd code a stop ∧ stop.toNat < a.toNat + 4096) := by
  have hmax : (a + maxLeaPaddingSearchRange).toNat = a.toNat + 4096 := by
    unfold maxLeaPaddingSearchRange
    bv_omega
  have hroom' : a.toNat + 4096 < 2 ^ 32 := by omega
  obtain ⟨stop, hstop, hexit⟩ := paddingScan_exit code hroom'
  refine ⟨stop, hstop, ?_⟩
  rw [BitVec.lt_def, hmax]
  rcases hexit with ⟨d, hd, hends, hfirst, rfl⟩ | ⟨hnone, rfl⟩
  · have hend := (isPaddingEnd_iff hroom' hd).mpr hends
    refine ⟨Or.inl ⟨hend, fun e he => ?_⟩, (and_iff_right hend).symm⟩
    obtain ⟨d', hd', rfl⟩ := he.exists_distance
    have hle : d ≤ d' := not_lt.mp fun hlt => hfirst d' hlt ((isPaddingEnd_iff hroom' hd').mp he)
    bv_omega
  · have hbehind : (a + BitVec.ofNat 32 4097).toNat = a.toNat + 4097 := by bv_omega
    have hnoend : ∀ e, ¬ IsPaddingEnd code a e := by
      intro e he
      obtain ⟨d, hd, rfl⟩ := he.exists_distance
      exact hnone d hd ((isPaddingEnd_iff hroom' hd).mp he)
    refine ⟨Or.inr ⟨hnoend, hbehind⟩, ?_⟩
    rw [hbehind]
    constructor
    · intro hlt
      omega
    · rintro ⟨hend, -⟩
      exact absurd hend (hnoend _)

/-- `lea eax, [0x1010]` -/
def leaInstruction : Instruction where
  length := 6
  type := .lea
  op1 := ⟨.register, libdasmRegisterNop, libdasmRegisterNop, 0, 0, 0, 0⟩
  op2 := ⟨.memory, libdasmRegisterNop, libdasmRegisterNop, 4, 0, 0x1010, 0⟩

/-- `8D 05 10 10 00 00 C3` at `0x1000`, and at `0x1010` a `ret` with padding up to `0x1020`. -/
def leaCode : Code where
  mem := fun a =>
    if 0x1011 ≤ a ∧ a < 0x1020 then int3
    else if a = 0x1000 then 0x8D
    else if a = 0x1001 then 0x05
    else if a = 0x1002 ∨ a = 0x1003 then 0x10
    else if a = 0x1004 ∨ a = 0x1005 then 0x00
    else 0xC3
  getInstruction := fun a => some (if a = 0x1000 then leaInstruction else retInstruction)

/-- There the padding behind `0x1010` ends at `0x1020`. -/
theorem paddingScan_least_sample :
    Computes (fun n => paddingScan n leaCode 0x1010) 0x1020 ∧ IsPaddingEnd leaCode 0x1010 0x1020 ∧
      ∀ e, IsPaddingEnd leaCode 0x1010 e → (0x1020 : U32).toNat ≤ e.toNat := by
  have hscan : Computes (fun n => paddingScan n leaCode 0x1010) 0x1020 :=
    (fuelMono_paddingScan 0x1010).computes
      (show paddingScan 17 leaCode 0x1010 = some 0x1020 from rfl)
  obtain ⟨stop, hstop, hleast, haccepts⟩ := paddingScan_least leaCode 0x1010 (by decide)
  obtain rfl := hstop.unique hscan
  obtain ⟨hend, -⟩ := haccepts.mp (by decide)
  rcases hleast with ⟨-, hmin⟩ | ⟨hnone, -⟩
  · exact ⟨hscan, hend, hmin⟩
  · exact absurd hend (hnone _)

/-! ## What the invalidation sees -/

/-- What the scan ends with: the first end of the padding, or an address that does not count. -/
def ScanEnds (code : Code) (a stop : U32) : Prop :=
  (∃ d, PaddedUpTo code a d ∧ stop = a + BitVec.ofNat 32 d) ∨
    ((stop = 0 ∨ ¬ stop < a + maxLeaPaddingSearchRange) ∧ ∀ d, ¬ PaddedUpTo code a d)

theorem ScanExit.scanEnds (hroom : a.toNat + 4096 < 2 ^ 32) {stop : U32}
    (h : ScanExit code a stop) : ScanEnds code a stop := by
  have hmax : a + maxLeaPaddingSearchRange = a + BitVec.ofNat 32 4096 := rfl
  rcases h with ⟨d, hd, hends, hfirst, rfl⟩ | ⟨hnone, rfl⟩
  · by_cases hin : d < 4096
    · exact Or.inl ⟨d, ⟨hroom, hin, hends, hfirst⟩, rfl⟩
    · -- the end of the range itself does not count
      refine Or.inr ⟨Or.inr ?_, fun d' hd' => ?_⟩
      · rw [hmax]
        bv_omega
      · have hfar := hd'.near
        exact hfirst d' (by omega) hd'.ends
  · refine Or.inr ⟨?_, fun d hd => hnone d hd.near.le hd.ends⟩
    -- one byte behind the range, which may be address zero
    rw [hmax]
    bv_omega

/-- **The padding scan** terminates; it finds the first end of the padding, if there is one. -/
theorem paddingScan_spec (code : Code) (a : U32) :
    ∃ stop, Computes (fun n => paddingScan n code a) stop ∧ ScanEnds code a stop := by
  by_cases hroom : a.toNat + 4096 < 2 ^ 32
  · obtain ⟨stop, hstop, hexit⟩ := paddingScan_exit code hroom
    exact ⟨stop, hstop, hexit.scanEnds hroom⟩
  · -- the range wraps, and the scan leaves at once
    refine ⟨a + 1, ⟨1, fun n hn => ?_⟩, Or.inr ⟨?_, fun d hd => hroom hd.room⟩⟩
    · obtain ⟨n, rfl⟩ : ∃ k, n = k + 1 := ⟨n - 1, by omega⟩
      apply whileLoop_exit
      unfold paddingScanBody maxLeaPaddingSearchRange
      dsimp only
      rw [if_neg (by bv_omega)]
    · unfold maxLeaPaddingSearchRange
      bv_omega

end Scan

end CodeSectionSweeper

end PEReplay
