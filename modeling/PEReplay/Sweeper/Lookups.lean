/-
# PEReplay.Sweeper.Lookups — the two searches of the trace set.

`HasTraceAt` goes through the traces backwards and gives up at one that starts below the target;
`GetTraceAt` goes forwards and gives up at one that starts above.  The set is ordered by start, so
neither gives up too early, whatever the sizes of the traces are and however they overlap: a trace
that contains an address does not start above it.
-/
import PEReplay.Sweeper.Explore
import PEReplay.Sweeper.Split

namespace PEReplay

namespace StaticTrace

theorem contains_iff {t : StaticTrace} (h : t.NoWrap) {addr : U32} (ha : addr.toNat < 2 ^ 32 - 1) :
    t.contains addr 1 = true ↔ addr.toNat ∈ t.bytes := by
  have hend := toNat_getEnd h
  have hnext : (addr + 1).toNat = addr.toNat + 1 := by bv_omega
  unfold getEnd at hend
  unfold contains
  rw [Bool.and_eq_true, decide_eq_true_eq, decide_eq_true_eq, BitVec.le_def, ge_iff_le,
    BitVec.le_def, hend, hnext, mem_bytes]
  exact Iff.rfl

end StaticTrace

namespace CodeSectionSweeper

/-- `CodeSectionSweeper::GetTraceAt`, `none` for `NULL` -/
def getTraceAt (s : CodeSectionSweeper) (addr : U32) : Option StaticTrace :=
  KeyedSet.findUntil (fun t => t.contains addr 1) (fun t => t.biggerThan addr) s.traces.elems

/-- A trace that starts above the address stands before none that contains it. -/
theorem getTraceAt_eq (s : CodeSectionSweeper) (addr : U32) :
    s.getTraceAt addr = s.traces.elems.find? fun t => t.contains addr 1 := by
  apply KeyedSet.findUntil_eq_find?
  apply s.traces.sorted_elems.imp
  intro t u hlt hbig
  have hbig : t.start > addr := of_decide_eq_true hbig
  have hnot : ¬ u.start ≤ addr := by bv_omega
  simp only [StaticTrace.contains, hnot, decide_false, Bool.false_and]

/-- **Both searches are exhaustive.**  `HasTraceAt` finds a start wherever it is, and `GetTraceAt`
the first of the traces that contain the address. -/
theorem searches_exhaustive (s : CodeSectionSweeper) (hwrap : ∀ t ∈ s.traces, t.NoWrap) (addr : U32)
    (ha : addr.toNat < 2 ^ 32 - 1) :
    (s.hasTraceAt addr = true ↔ ∃ t ∈ s.traces, t.start = addr) ∧
    (∀ t, s.getTraceAt addr = some t ↔ t ∈ s.traces ∧ addr.toNat ∈ t.bytes ∧
      ∀ u ∈ s.traces, addr.toNat ∈ u.bytes → t.start.toNat ≤ u.start.toNat) ∧
    (s.getTraceAt addr = none ↔ ∀ t ∈ s.traces, addr.toNat ∉ t.bytes) := by
  refine ⟨s.hasTraceAt_iff addr, ?_, ?_⟩
  · intro t
    rw [getTraceAt_eq, KeyedSet.find?_eq_some_iff_least]
    apply and_congr_right
    intro ht
    rw [StaticTrace.contains_iff (hwrap t ht) ha]
    apply and_congr_right
    intro _
    refine forall₂_congr fun u hu => ?_
    rw [StaticTrace.contains_iff (hwrap u hu) ha]
  · rw [getTraceAt_eq, List.find?_eq_none]
    refine forall₂_congr fun t ht => ?_
    rw [StaticTrace.contains_iff (hwrap t ht) ha]

/-- Two of the three traces of the chain contain `0x1002`; the lower one is found. -/
theorem searches_exhaustive_sample :
    (chainSweeper.hasTraceAt 0x1002 = true ↔ ∃ t ∈ chainSweeper.traces, t.start = 0x1002) ∧
    (∀ t, chainSweeper.getTraceAt 0x1002 = some t ↔ t ∈ chainSweeper.traces ∧
      (0x1002 : U32).toNat ∈ t.bytes ∧ ∀ u ∈ chainSweeper.traces, (0x1002 : U32).toNat ∈ u.bytes →
        t.start.toNat ≤ u.start.toNat) ∧
    (chainSweeper.getTraceAt 0x1002 = none ↔
      ∀ t ∈ chainSweeper.traces, (0x1002 : U32).toNat ∉ t.bytes) := by
  have hwrap : ∀ t ∈ chainTraces, t.start.toNat + t.size.toNat < 2 ^ 32 := by decide
  exact searches_exhaustive chainSweeper hwrap 0x1002 (by decide)

end CodeSectionSweeper

end PEReplay
