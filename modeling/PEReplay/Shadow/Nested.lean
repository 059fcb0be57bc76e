/-
# PEReplay.Shadow.Nested — well nested threads leave the shadow stacks as they were.

Where every return of a thread goes back to the instruction behind its call, the frame that the
return is compared with is the one its call has pushed, so it is popped, and nothing below it is
looked at.  By the stack rule for nested words that holds at any depth, and as the threads do not
share stacks, in any interleaving.
-/
import PEReplay.Shadow.Stack
import PEReplay.Lib.NestedWord

namespace PEReplay

open Interleave

/-- The return goes to the instruction behind the call. -/
def ReturnsTo (c : CallEvent) (r : ReturnEvent) : Prop := r.target = c.insAddr + c.size

/-- No `NtCallbackReturn` notification is pending. -/
def NoCallbackReturn (m : ShadowStacks) : Prop :=
  ∀ tid stack, m tid = some stack → stack.ntCallbackReturn = false

/-- The stack of a thread after the push of a call. -/
def pushCall (c : CallEvent) : Option ThreadStack → Option ThreadStack
  | none => some ⟨[c.frame], false⟩
  | some stack => some { stack with frames := c.frame :: stack.frames }

theorem threadStep_call (s : Option ThreadStack) (c : CallEvent) :
    threadStep s (.inl c) = .ok (pushCall c s, .called) := by
  cases s with
  | none => rfl
  | some stack => rfl

/-- The matching return finds the frame of its call on top. -/
theorem threadStep_return (frames : List StackFrame) {c : CallEvent} {r : ReturnEvent}
    (h : ReturnsTo c r) :
    threadStep (some ⟨c.frame :: frames, false⟩) (.inr r) =
      .ok (some ⟨frames, false⟩, .matched) := by
  have htop : c.frame.returnAddr = r.target := h.symm
  simp only [threadStep, filterReturn_eq, if_pos htop]

/-- Nothing but calls and matched returns is reported. -/
def Outcome.Orderly (o : Outcome) : Prop := o = .called ∨ o = .matched

/-- **One thread with a stack**: its nested word leaves the stack as it was. -/
theorem run_nested {w : List (CallEvent ⊕ ReturnEvent)} (hw : NestedWord ReturnsTo w)
    (frames : List StackFrame) :
    ∃ out, run threadStep (some ⟨frames, false⟩) w = .ok (some ⟨frames, false⟩, out) ∧
      ∀ o ∈ out, o.Orderly := by
  refine hw.run_ok (fun s => ∃ frames, s = some ⟨frames, false⟩) Outcome.Orderly pushCall
    ?_ ?_ ⟨frames, rfl⟩
  · rintro _ c ⟨frames, rfl⟩
    exact ⟨⟨c.frame :: frames, rfl⟩, .called, threadStep_call _ c, Or.inl rfl⟩
  · rintro _ c r ⟨frames, rfl⟩ hmatches
    exact ⟨.matched, threadStep_return frames hmatches, Or.inr rfl⟩

/-- **One thread**, whether it has a stack yet or not: its frames are what they were. -/
theorem run_nested_thread {w : List (CallEvent ⊕ ReturnEvent)} (hw : NestedWord ReturnsTo w)
    {s : Option ThreadStack} (hs : ∀ stack, s = some stack → stack.ntCallbackReturn = false) :
    ∃ s' out, run threadStep s w = .ok (s', out) ∧
      (s'.map ThreadStack.frames).getD [] = (s.map ThreadStack.frames).getD [] ∧
      ∀ o ∈ out, o.Orderly := by
  cases s with
  | some stack =>
      obtain ⟨frames, flag⟩ := stack
      obtain rfl : flag = false := hs _ rfl
      obtain ⟨out, hrun, hall⟩ := run_nested hw frames
      exact ⟨_, out, hrun, rfl, hall⟩
  | none =>
      cases hw with
      | nil => exact ⟨none, [], rfl, rfl, fun o ho => absurd ho List.not_mem_nil⟩
      | @nest c r inner rest hmatches hinner hrest =>
          -- the first call makes the stack that the thread did not have
          have hnew : run threadStep none (.inl c :: (inner ++ .inr r :: rest)) =
              run threadStep (some ⟨[], false⟩) (.inl c :: (inner ++ .inr r :: rest)) := rfl
          obtain ⟨out, hrun, hall⟩ := run_nested (.nest hmatches hinner hrest) []
          rw [hnew]
          exact ⟨_, out, hrun, rfl, hall⟩

/-- **Nested threads leave no trace.** Whatever the stacks are at the start, with no
`NtCallbackReturn` pending, and however the events of the threads are interleaved: if the events of
every thread form a nested word, nothing fails, every return is matched by its call and no violation
is reported, and at the end every thread has the frames it had at the start. -/
theorem nested_threads_keep_frames (m : ShadowStacks) (hm : NoCallbackReturn m)
    (evs : List (U32 × (CallEvent ⊕ ReturnEvent)))
    (hnested : ∀ tid, NestedWord ReturnsTo (own tid evs)) :
    ∃ m' out, run ShadowStacks.process m evs = .ok (m', out) ∧
      (∀ o ∈ out, o.2 = .called ∨ o.2 = .matched) ∧
      ∀ tid, m'.frames tid = m.frames tid := by
  have hthread := fun tid => run_nested_thread (hnested tid) (hm tid)
  choose s' out hrun hframes hall using hthread
  obtain ⟨rs, hrs, hown⟩ := run_stepAt hrun
  rw [process_eq_stepAt]
  refine ⟨s', rs, hrs, ?_, hframes⟩
  rintro ⟨tid, o⟩ ho
  have hmem := mem_of_mem_own ho
  rw [hown] at hmem
  exact hall tid o hmem

section Samples

/-- Two threads, one with a call inside a call, the other with a single call in between. -/
def nestedEvents : List (U32 × (CallEvent ⊕ ReturnEvent)) :=
  [(0, .inl ⟨0x401000, 0x402000, 5, 0x19FF00⟩), (1, .inl ⟨0x403000, 0x404000, 2, 0x29FF00⟩),
   (0, .inl ⟨0x402010, 0x405000, 5, 0x19FE00⟩), (0, .inr ⟨0x405020, 0x402015, 0, 0x19FDFC⟩),
   (1, .inr ⟨0x404010, 0x403002, 0, 0x29FEFC⟩), (0, .inr ⟨0x402020, 0x401005, 0, 0x19FEFC⟩)]

theorem nested_nestedEvents (tid : U32) : NestedWord ReturnsTo (own tid nestedEvents) := by
  by_cases h₀ : tid = 0
  · subst h₀
    have hinner : ReturnsTo ⟨0x402010, 0x405000, 5, 0x19FE00⟩ ⟨0x405020, 0x402015, 0, 0x19FDFC⟩ :=
      rfl
    have houter : ReturnsTo ⟨0x401000, 0x402000, 5, 0x19FF00⟩ ⟨0x402020, 0x401005, 0, 0x19FEFC⟩ :=
      rfl
    exact NestedWord.wrap houter (NestedWord.wrap hinner .nil)
  · by_cases h₁ : tid = 1
    · subst h₁
      have hcall : ReturnsTo ⟨0x403000, 0x404000, 2, 0x29FF00⟩
          ⟨0x404010, 0x403002, 0, 0x29FEFC⟩ := rfl
      exact NestedWord.wrap hcall .nil
    · have hnil : own tid nestedEvents = [] := by
        simp only [nestedEvents, own_cons_of_ne (Ne.symm h₀), own_cons_of_ne (Ne.symm h₁), own_nil]
      rw [hnil]
      exact .nil

/-- A stack of thread 0 that already holds a frame with the return address of the outer call. -/
def sampleStacks (tid : U32) : Option ThreadStack :=
  if tid = 0 then some ⟨[⟨1, 0x401005, 2, 3⟩], false⟩ else none

theorem noCallbackReturn_sampleStacks : NoCallbackReturn sampleStacks := by
  intro tid stack hstack
  unfold sampleStacks at hstack
  split at hstack
  · rw [← Option.some.inj hstack]
  · exact absurd hstack (by simp)

theorem nested_threads_keep_frames_sample :
    ∃ m' out, run ShadowStacks.process sampleStacks nestedEvents = .ok (m', out) ∧
      (∀ o ∈ out, o.2 = .called ∨ o.2 = .matched) ∧
      ∀ tid, m'.frames tid = ShadowStacks.frames sampleStacks tid :=
  nested_threads_keep_frames sampleStacks noCallbackReturn_sampleStacks nestedEvents
    nested_nestedEvents

end Samples

end PEReplay
