/-
# PEReplay.Shadow.Callback — the return after an `NtCallbackReturn`.

The kernel leaves a callback without the returns of its calls, so the tool is told of it and takes
three frames off at the next return.  `Peek` is where they go, and it reads the top of what is left.
That there is a top `filterReturn` has asked before, of the stack with the three frames still on it:
a callback that was entered at the bottom of a thread's stack leaves an empty vector to read.
-/
import PEReplay.Shadow.Unwind

namespace PEReplay

namespace ThreadStack

/-- `ThreadStack::NotifyNtCallbackReturn` -/
def notifyNtCallbackReturn (s : ThreadStack) : ThreadStack := { s with ntCallbackReturn := true }

variable {frames : List StackFrame} {r : ReturnEvent}

/-! ## One stack -/

/-- `Peek` with a notification pending, on a stack that has the three frames. -/
theorem peek_pending (h : 3 ≤ frames.length) :
    peek ⟨frames, true⟩ = peek ⟨frames.drop 3, false⟩ := by
  have hshort : ¬ frames.length < 3 := not_lt.mpr h
  simp [peek, hshort, bind, Except.bind]

/-- **A frame is left**: the return meets the stack without the three frames. -/
theorem filterReturn_pending (h : 3 < frames.length) :
    filterReturn ⟨frames, true⟩ r = filterReturn ⟨frames.drop 3, false⟩ r := by
  have hne : frames ≠ [] := List.ne_nil_of_length_pos (by omega)
  have hdrop : frames.drop 3 ≠ [] := by
    intro hnil
    have hle := List.drop_eq_nil_iff.mp hnil
    omega
  simp only [filterReturn, isEmpty, List.isEmpty_eq_false_iff.mpr hne,
    List.isEmpty_eq_false_iff.mpr hdrop, peek_pending (le_of_lt h), Bool.false_eq_true, if_false]

/-- **No frame is left**: the top of an empty vector is read. -/
theorem filterReturn_pending_three (h : frames.length = 3) :
    filterReturn ⟨frames, true⟩ r = .error .emptyVector := by
  have hne : frames ≠ [] := List.ne_nil_of_length_pos (by omega)
  have hdrop : frames.drop 3 = [] := List.drop_eq_nil_iff.mpr (le_of_eq h)
  simp only [filterReturn, isEmpty, List.isEmpty_eq_false_iff.mpr hne, peek_pending (ge_of_eq h),
    hdrop]
  rfl

/-- Where the three frames are not there, the source throws. -/
theorem filterReturn_pending_short (hne : frames ≠ []) (h : frames.length < 3) :
    filterReturn ⟨frames, true⟩ r = .error .ntCallbackReturn := by
  simp [filterReturn, isEmpty, hne, peek, h, bind, Except.bind]

/-- Without a notification a return never fails. -/
theorem filterReturn_ok (frames : List StackFrame) (r : ReturnEvent) :
    ∃ s o, filterReturn ⟨frames, false⟩ r = .ok (s, o) := by
  rw [filterReturn_eq]
  cases frames with
  | nil => exact ⟨_, _, rfl⟩
  | cons item rest =>
      dsimp only
      split
      · exact ⟨_, _, rfl⟩
      · split
        · exact ⟨_, _, rfl⟩
        · exact ⟨_, _, rfl⟩

/-- **When a return fails**: with a notification pending, on one, two or three frames. -/
theorem filterReturn_error_iff {s : ThreadStack} : (∃ e, s.filterReturn r = .error e) ↔
    s.ntCallbackReturn = true ∧ s.frames ≠ [] ∧ s.frames.length ≤ 3 := by
  obtain ⟨frames, pending⟩ := s
  cases pending with
  | false =>
      obtain ⟨s', o, hok⟩ := filterReturn_ok frames r
      simp [hok]
  | true =>
      by_cases hne : frames = []
      · subst hne
        simp [filterReturn, isEmpty, pure, Except.pure]
      · rcases lt_trichotomy frames.length 3 with hlt | heq | hgt
        · simp [filterReturn_pending_short hne hlt, hne, le_of_lt hlt]
        · simp [filterReturn_pending_three heq, hne, le_of_eq heq]
        · obtain ⟨s', o, hok⟩ := filterReturn_ok (frames.drop 3) r
          simp [filterReturn_pending hgt, hok, hgt]

end ThreadStack

/-! ## All threads -/

namespace ShadowStacks

/-- `ShadowStack::notifyNtCallbackReturn` -/
def notifyNtCallbackReturn (m : ShadowStacks) (tid : U32) : ShadowStacks :=
  match m tid with
  | none => m
  | some stack => Function.update m tid (some stack.notifyNtCallbackReturn)

/-- The stacks with these frames left on the one of `tid`, and no notification pending. -/
def withFrames (m : ShadowStacks) (tid : U32) (frames : List StackFrame) : ShadowStacks :=
  Function.update m tid (some ⟨frames, false⟩)

/-- The return on `tid` goes as it would on `frames` without a notification, and does not fail. -/
def ReturnsAsOn (m : ShadowStacks) (r : ReturnEvent) (tid : U32) (frames : List StackFrame) :
    Prop :=
  m.filterReturn r tid = (m.withFrames tid frames).filterReturn r tid ∧
    ∃ m' o, m.filterReturn r tid = .ok (m', o)

variable {m : ShadowStacks} {tid : U32} {frames : List StackFrame} {r : ReturnEvent}

/-- After a notification it is pending on a thread's stack, whatever was before. -/
theorem notifyNtCallbackReturn_pending {pending : Bool} (h : m tid = some ⟨frames, pending⟩) :
    m.notifyNtCallbackReturn tid tid = some ⟨frames, true⟩ := by
  simp only [notifyNtCallbackReturn, h, Function.update_self]
  rfl

theorem filterReturn_withFrames {s : ThreadStack} {o : Outcome}
    (h : ThreadStack.filterReturn ⟨frames, false⟩ r = .ok (s, o)) :
    (m.withFrames tid frames).filterReturn r tid = .ok (Function.update m tid (some s), o) := by
  have hself : m.withFrames tid frames tid = some ⟨frames, false⟩ := Function.update_self ..
  rw [filterReturn_of_thread hself h, withFrames, Function.update_idem]

/-- **When the callback is discarded as it should.**  With a notification pending on three frames or
more, the next return goes as on the frames below the three topmost exactly when there is one. -/
theorem filterReturn_discards_iff (m : ShadowStacks) (tid : U32) (frames : List StackFrame)
    (r : ReturnEvent) (hm : m tid = some ⟨frames, true⟩) (h : 3 ≤ frames.length) :
    m.ReturnsAsOn r tid (frames.drop 3) ↔ 3 < frames.length := by
  constructor
  · rintro ⟨-, m', o, hok⟩
    by_contra hle
    have hne : frames ≠ [] := List.ne_nil_of_length_pos (by omega)
    obtain ⟨e, hfail⟩ := ThreadStack.filterReturn_error_iff (r := r).mpr
      ⟨show ThreadStack.ntCallbackReturn ⟨frames, true⟩ = true from rfl, hne, not_lt.mp hle⟩
    rw [filterReturn, hm] at hok
    simp [hfail] at hok
  · intro hlt
    obtain ⟨s, o, hok⟩ := ThreadStack.filterReturn_ok (frames.drop 3) r
    have hpending : m.filterReturn r tid = .ok (Function.update m tid (some s), o) := by
      apply filterReturn_of_thread hm
      rw [ThreadStack.filterReturn_pending hlt]
      exact hok
    refine ⟨?_, _, _, hpending⟩
    rw [hpending, filterReturn_withFrames hok]

section Samples

/-- The stacks after three calls on thread 0, and the end of the callback they were made in. -/
def callbackStacks : ShadowStacks :=
  (recursiveStacks.filterCall (recursiveCall 0x19FD00) 0).notifyNtCallbackReturn 0

/-- One call more, before the callback. -/
def deeperStacks : ShadowStacks :=
  notifyNtCallbackReturn (fun _ => some ⟨List.replicate 4 (recursiveCall 0x19FF00).frame, false⟩) 0

theorem filterReturn_discards_iff_sample :
    deeperStacks.ReturnsAsOn outerReturn 0 [(recursiveCall 0x19FF00).frame] ↔
      3 < (List.replicate 4 (recursiveCall 0x19FF00).frame).length :=
  filterReturn_discards_iff deeperStacks 0 (List.replicate 4 (recursiveCall 0x19FF00).frame)
    outerReturn (notifyNtCallbackReturn_pending rfl) (Nat.le_succ 3)

/-- The callback was all there was on the thread. -/
theorem callback_at_bottom :
    callbackStacks 0 = some ⟨(recursiveCall 0x19FD00).frame :: recursiveFrames, true⟩ ∧
    callbackStacks.filterReturn outerReturn 0 = .error .emptyVector ∧
    ¬ callbackStacks.ReturnsAsOn outerReturn 0 [] := by
  refine ⟨notifyNtCallbackReturn_pending rfl, rfl, ?_⟩
  rintro ⟨-, m', o, hok⟩
  have hfail : callbackStacks.filterReturn outerReturn 0 = .error .emptyVector := rfl
  rw [hfail] at hok
  exact absurd hok (by simp)

end Samples

end ShadowStacks

end PEReplay
