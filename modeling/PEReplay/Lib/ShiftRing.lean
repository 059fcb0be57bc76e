/-
# Rings that are shifted in place.

The C idiom `for (i = 0; i < n; i++) ring[i] = ring[(i + 1) % n]; ring[n - 1] = x;` drops the oldest
entry of an array and appends `x`.  The loop overwrites the array it reads, and its last pass copies
an entry that was overwritten before; `push_toList` says that the net effect is the queue operation
all the same.  `scan` is the variant that compares every entry with a value on the way: it sees the
entries as they were before the loop.

`Holds ring z xs` relates a ring to the sequence of everything ever pushed: it holds the last `n`
of them, behind the initial filler `z` as long as there were fewer.
-/
import Mathlib.Data.List.DropRight
import Mathlib.Data.Vector.Basic

namespace ShiftRing

variable {α : Type*} {n : Nat}

/-- A `for (i = 0; i < n; i++)` loop keeps an invariant indexed by the passes made. -/
theorem forLoop_rule {σ : Type*} (P : Nat → σ → Prop) (pass : σ → Fin n → σ) {s : σ}
    (hstart : P 0 s) (hpass : ∀ (i : Fin n) s, P i s → P (i + 1) (pass s i)) :
    P n (Fin.foldl n pass s) := by
  induction n with
  | zero => simpa using hstart
  | succ n ih =>
      have hfront := ih (fun s i => pass s i.castSucc) fun i s h => hpass i.castSucc s h
      rw [Fin.foldl_succ_last]
      exact hpass (Fin.last n) _ hfront

/-- The index `(i + 1) % n`. -/
def nextIdx (i : Fin n) : Fin n := ⟨(i + 1) % n, Nat.mod_lt _ (Nat.zero_lt_of_lt i.isLt)⟩

/-- `ring[i] = ring[(i + 1) % n]` -/
def shiftStep (ring : Vector α n) (i : Fin n) : Vector α n := ring.set i ring[nextIdx i]

/-- The whole shifting loop. -/
def shift (ring : Vector α n) : Vector α n := Fin.foldl n shiftStep ring

/-- One pass that compares before it overwrites. -/
def scanStep [DecidableEq α] (x : α) (s : Vector α n × Bool) (i : Fin n) : Vector α n × Bool :=
  (shiftStep s.1 i, if s.1[i] = x then true else s.2)

/-- The comparing and shifting loop. -/
def scan [DecidableEq α] (x : α) (ring : Vector α n) : Vector α n × Bool :=
  Fin.foldl n (scanStep x) (ring, false)

/-- Shift, then write the newest entry into the last slot. -/
def push (ring : Vector α (n + 1)) (x : α) : Vector α (n + 1) := (shift ring).set n x

/-- After `k` passes the first `k` entries have moved up and the others are untouched. -/
def Shifted (ring : Vector α n) (k : Nat) (ring' : Vector α n) : Prop :=
  (∀ (j : Nat) (hj : j + 1 < n), j < k → ring'[j] = ring[j + 1]) ∧
  ∀ (j : Nat) (hj : j < n), k ≤ j → ring'[j] = ring[j]

theorem Shifted.step {ring ring' : Vector α n} {i : Fin n} (h : Shifted ring i ring') :
    Shifted ring (i + 1) (shiftStep ring' i) := by
  obtain ⟨hmoved, hrest⟩ := h
  refine ⟨fun j hj hlt => ?_, fun j hj hle => ?_⟩
  · simp only [shiftStep, Vector.getElem_set]
    split_ifs with hij
    · -- the entry written by this pass: its source is not overwritten yet
      subst hij
      have hidx : (nextIdx i : Nat) = i + 1 := Nat.mod_eq_of_lt hj
      simp only [Fin.getElem_fin, hidx]
      exact hrest _ hj (Nat.le_succ _)
    · exact hmoved j hj (by omega)
  · simp only [shiftStep, Vector.getElem_set]
    rw [if_neg (by omega)]
    exact hrest j hj (by omega)

theorem shifted_zero (ring : Vector α n) : Shifted ring 0 ring :=
  ⟨fun _ _ h => absurd h (Nat.not_lt_zero _), fun _ _ _ => rfl⟩

theorem shift_shifted (ring : Vector α n) : Shifted ring n (shift ring) :=
  forLoop_rule (fun k r => Shifted ring k r) shiftStep (shifted_zero ring)
    fun _ _ h => h.step

/-- **Pushing is the queue operation** on the entries in order. -/
theorem push_toList (ring : Vector α (n + 1)) (x : α) :
    (push ring x).toList = ring.toList.tail ++ [x] := by
  have hlen : ring.toList.tail.length = n := by simp
  apply List.ext_getElem
  · simp [hlen]
  · intro j h₁ h₂
    simp only [Vector.length_toList] at h₁
    simp only [push, Vector.getElem_toList, Vector.getElem_set]
    by_cases hj : n = j
    · subst hj
      simp
    · have hlt : j < n := by omega
      rw [if_neg hj, (shift_shifted ring).1 j (by omega) (by omega),
        List.getElem_append_left (by omega)]
      simp

section Scan

variable [DecidableEq α]

theorem scan_fst (x : α) (ring : Vector α n) : (scan x ring).1 = shift ring := by
  have hproj : ∀ (m : Nat) (f : Fin m → Fin n) (s : Vector α n × Bool),
      (Fin.foldl m (fun s i => scanStep x s (f i)) s).1 =
        Fin.foldl m (fun r i => shiftStep r (f i)) s.1 := by
    intro m
    induction m with
    | zero => intro f s; simp
    | succ m ih =>
        intro f s
        rw [Fin.foldl_succ_last, Fin.foldl_succ_last, ← ih (fun i => f i.castSucc) s]
        rfl
  exact hproj n id (ring, false)

/-- The flag of the scan: some entry of the ring, as it was before the loop, equals the value. -/
theorem scan_snd (x : α) (ring : Vector α n) : (scan x ring).2 = decide (x ∈ ring.toList) := by
  -- after `k` passes the flag speaks about the first `k` entries
  have hk := forLoop_rule
    (fun k (s : Vector α n × Bool) =>
      Shifted ring k s.1 ∧ (s.2 = true ↔ ∃ j, ∃ _ : j < n, j < k ∧ ring[j] = x))
    (scanStep x) (s := (ring, false)) ⟨shifted_zero ring, by simp⟩ (by
      rintro i ⟨r, b⟩ ⟨hs, hb⟩
      refine ⟨hs.step, ?_⟩
      have hsame : r[(i : Nat)] = ring[(i : Nat)] := hs.2 i i.isLt le_rfl
      simp only [scanStep, Fin.getElem_fin, hsame]
      simp only at hb
      split_ifs with hx
      · simp only [true_iff]
        exact ⟨i, i.isLt, Nat.lt_succ_self _, hx⟩
      · rw [hb]
        constructor
        · rintro ⟨j, hj, hlt, e⟩
          exact ⟨j, hj, by omega, e⟩
        · rintro ⟨j, hj, hlt, e⟩
          refine ⟨j, hj, lt_of_le_of_ne (by omega) ?_, e⟩
          rintro rfl
          exact hx e)
  rw [scan, Bool.eq_iff_iff, hk.2, decide_eq_true_iff, List.mem_iff_getElem]
  constructor
  · rintro ⟨j, hj, _, e⟩
    exact ⟨j, by simpa using hj, by simpa using e⟩
  · rintro ⟨j, hj, e⟩
    have hj' : j < n := by simpa using hj
    exact ⟨j, hj', hj', by simpa using e⟩

/-- The scan shifts the ring and reports whether the value was in it before the shift. -/
theorem scan_eq (x : α) (ring : Vector α n) :
    scan x ring = (shift ring, decide (x ∈ ring.toList)) :=
  Prod.ext (scan_fst x ring) (scan_snd x ring)

end Scan

/-! ## The ring as a window on everything pushed -/

/-- The ring holds the last `n` of the pushed values, behind the filler it started with. -/
def Holds (ring : Vector α n) (z : α) (xs : List α) : Prop :=
  ring.toList = (List.replicate n z ++ xs).rtake n

theorem holds_replicate (z : α) : Holds (Vector.replicate n z) z [] := by
  simp [Holds, List.rtake, Vector.toList_replicate]

theorem rtake_append_singleton {xs : List α} (h : n + 1 ≤ xs.length) (x : α) :
    (xs ++ [x]).rtake (n + 1) = (xs.rtake (n + 1)).tail ++ [x] := by
  simp only [List.rtake, List.length_append, List.length_singleton, List.tail_drop]
  rw [List.drop_append_of_le_length (by omega)]
  congr 2
  omega

theorem Holds.push {ring : Vector α (n + 1)} {z : α} {xs : List α} (h : Holds ring z xs) (x : α) :
    Holds (push ring x) z (xs ++ [x]) := by
  unfold Holds at h ⊢
  rw [push_toList, h, ← List.append_assoc, rtake_append_singleton (by simp)]

/-- A value other than the filler is in the ring exactly when it was pushed recently. -/
theorem Holds.mem_iff {ring : Vector α n} {z : α} {xs : List α} (h : Holds ring z xs) {x : α}
    (hx : x ≠ z) : x ∈ ring.toList ↔ x ∈ xs.rtake n := by
  have hsplit : (List.replicate n z ++ xs).rtake n
      = (List.replicate n z).drop xs.length ++ xs.rtake n := by
    simp only [List.rtake, List.length_append, List.length_replicate, Nat.add_sub_cancel_left]
    rw [List.drop_append, List.length_replicate]
  rw [h, hsplit, List.mem_append]
  refine or_iff_right fun hmem => hx ?_
  exact List.eq_of_mem_replicate (List.mem_of_mem_drop hmem)

end ShiftRing
