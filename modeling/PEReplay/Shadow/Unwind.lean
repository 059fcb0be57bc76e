/-
# PEReplay.Shadow.Unwind — the comparison with the top frame, and the search below it.

`ReturnToUpperFrame` looks for a frame with the return's address and its stack address, and cuts the
stack there.  `filterReturn` comes to it only when the top frame has another return address: the
comparison with the top frame leaves the stack address out.  So a return that the top frame shares
its address with, but that belongs to a call further down, takes the top frame away and leaves the
rest, where the search would have cut it.
-/
import PEReplay.Shadow.Stack

namespace PEReplay

open Interleave

/-- What `ReturnToUpperFrame` compares. -/
def ReturnEvent.Fits (r : ReturnEvent) (it : StackFrame) : Prop :=
  it.returnAddr = r.target ∧ it.stackAddr = r.esp + 4

/-- `below` are the frames below the topmost one that fits. -/
def BelowTopmost (r : ReturnEvent) (frames below : List StackFrame) : Prop :=
  ∃ above it, frames = above ++ it :: below ∧ r.Fits it ∧ ∀ a ∈ above, ¬ r.Fits a

section Unwind

variable {r : ReturnEvent} {frames below : List StackFrame}

/-- A top frame that fits is the topmost one, -/
theorem belowTopmost_of_fits {top : StackFrame} (h : r.Fits top) :
    BelowTopmost r (top :: frames) below ↔ below = frames := by
  constructor
  · rintro ⟨above, it, hframes, -, habove⟩
    cases above with
    | nil => exact (List.cons.inj hframes).2.symm
    | cons a above =>
        obtain ⟨rfl, -⟩ := List.cons.inj hframes
        exact absurd h (habove _ List.mem_cons_self)
  · rintro rfl
    exact ⟨[], top, rfl, h, fun a ha => absurd ha List.not_mem_nil⟩

/-- and one that does not is passed over. -/
theorem belowTopmost_of_not_fits {top : StackFrame} (h : ¬ r.Fits top) :
    BelowTopmost r (top :: frames) below ↔ BelowTopmost r frames below := by
  constructor
  · rintro ⟨above, it, hframes, hit, habove⟩
    cases above with
    | nil =>
        obtain ⟨rfl, -⟩ := List.cons.inj hframes
        exact absurd hit h
    | cons a above =>
        obtain ⟨-, rfl⟩ := List.cons.inj hframes
        exact ⟨above, it, rfl, hit, fun b hb => habove b (List.mem_cons_of_mem a hb)⟩
  · rintro ⟨above, it, rfl, hit, habove⟩
    refine ⟨top :: above, it, rfl, hit, ?_⟩
    intro a ha
    rcases List.mem_cons.mp ha with rfl | ha
    · exact h
    · exact habove a ha

/-- **The search** finds the topmost frame that fits. -/
theorem framesBelow_eq_some_iff :
    ThreadStack.framesBelow r.target r.esp frames = some below ↔ BelowTopmost r frames below := by
  induction frames with
  | nil =>
      constructor
      · intro h
        exact absurd h (by simp [ThreadStack.framesBelow])
      · rintro ⟨above, it, hframes, -⟩
        exact absurd hframes (by simp)
  | cons top frames ih =>
      by_cases hfits : r.Fits top
      · have hsearch : ThreadStack.framesBelow r.target r.esp (top :: frames) = some frames :=
          if_pos hfits
        rw [hsearch, belowTopmost_of_fits hfits, Option.some_inj, eq_comm]
      · have hsearch : ThreadStack.framesBelow r.target r.esp (top :: frames) =
            ThreadStack.framesBelow r.target r.esp frames := if_neg hfits
        rw [hsearch, belowTopmost_of_not_fits hfits, ih]

/-- There is such a frame as soon as one fits. -/
theorem exists_belowTopmost (h : ∃ it ∈ frames, r.Fits it) :
    ∃ below, BelowTopmost r frames below := by
  induction frames with
  | nil =>
      obtain ⟨it, hit, -⟩ := h
      exact absurd hit List.not_mem_nil
  | cons top frames ih =>
      by_cases hfits : r.Fits top
      · exact ⟨frames, (belowTopmost_of_fits hfits).mpr rfl⟩
      · obtain ⟨it, hit, hitfits⟩ := h
        rcases List.mem_cons.mp hit with rfl | hit
        · exact absurd hitfits hfits
        · obtain ⟨below, hbelow⟩ := ih ⟨it, hit, hitfits⟩
          exact ⟨below, (belowTopmost_of_not_fits hfits).mpr hbelow⟩

/-- Where the top frame does not fit, more than it goes. -/
theorem BelowTopmost.ne_tail {top : StackFrame} (h : BelowTopmost r (top :: frames) below)
    (htop : ¬ r.Fits top) : below ≠ frames := by
  obtain ⟨above, it, hframes, -⟩ := (belowTopmost_of_not_fits htop).mp h
  intro heq
  have hlen := congrArg List.length hframes
  rw [heq, List.length_append, List.length_cons] at hlen
  omega

/-- **The top frame shares the address**: it alone is taken away, whatever its stack address. -/
theorem filterReturn_of_returnAddr {top : StackFrame} (htop : top.returnAddr = r.target) :
    ThreadStack.filterReturn ⟨top :: frames, false⟩ r = .ok (⟨frames, false⟩, .matched) := by
  rw [filterReturn_eq]
  exact if_pos htop

/-- **It does not**: the search decides. -/
theorem filterReturn_of_belowTopmost {top : StackFrame} (htop : top.returnAddr ≠ r.target)
    (hbelow : BelowTopmost r (top :: frames) below) :
    ThreadStack.filterReturn ⟨top :: frames, false⟩ r = .ok (⟨below, false⟩, .unwound) := by
  rw [filterReturn_eq]
  simp only [if_neg htop, framesBelow_eq_some_iff.mpr hbelow]

end Unwind

namespace ShadowStacks

/-- The return leaves exactly the frames below the topmost one that fits, on its own thread. -/
def UnwindsTo (m : ShadowStacks) (r : ReturnEvent) (tid : U32) : Prop :=
  ∃ below o, BelowTopmost r (m.frames tid) below ∧
    m.filterReturn r tid = .ok (Function.update m tid (some ⟨below, false⟩), o)

variable {m : ShadowStacks} {tid : U32} {stack : ThreadStack} {r : ReturnEvent}

theorem frames_eq (h : m tid = some stack) : m.frames tid = stack.frames := by
  rw [frames, h]
  rfl

/-- A return is a return on the stack of its thread. -/
theorem filterReturn_of_thread {stack' : ThreadStack} {o : Outcome} (h : m tid = some stack)
    (hreturn : stack.filterReturn r = .ok (stack', o)) :
    m.filterReturn r tid = .ok (Function.update m tid (some stack'), o) := by
  simp only [filterReturn, h, hreturn]

/-- **When a return cuts the stack where it belongs.**  On a stack with no `NtCallbackReturn`
pending and a frame that fits, exactly the frames below the topmost such frame are left when the
top frame, should it have the return's address, has its stack address too. -/
theorem filterReturn_unwinds_iff (m : ShadowStacks) (tid : U32) (frames : List StackFrame)
    (r : ReturnEvent) (hm : m tid = some ⟨frames, false⟩) (hfit : ∃ it ∈ frames, r.Fits it) :
    m.UnwindsTo r tid ↔
      ∀ top, frames.head? = some top → top.returnAddr = r.target → top.stackAddr = r.esp + 4 := by
  unfold UnwindsTo
  rw [frames_eq hm]
  obtain ⟨below, hbelow⟩ := exists_belowTopmost hfit
  cases frames with
  | nil =>
      obtain ⟨it, hit, -⟩ := hfit
      exact absurd hit List.not_mem_nil
  | cons top frames =>
      constructor
      · rintro ⟨below', o, hbelow', hok⟩ top' htop' haddr
        obtain rfl := Option.some.inj htop'
        rw [filterReturn_of_thread hm (filterReturn_of_returnAddr haddr)] at hok
        have hstack := congrFun (Prod.mk.inj (Except.ok.inj hok)).1 tid
        rw [Function.update_self, Function.update_self] at hstack
        by_contra hesp
        apply hbelow'.ne_tail fun h => hesp h.2
        exact (ThreadStack.mk.inj (Option.some.inj hstack)).1.symm
      · intro h
        by_cases haddr : top.returnAddr = r.target
        · have hfits : r.Fits top := ⟨haddr, h top rfl haddr⟩
          exact ⟨frames, .matched, (belowTopmost_of_fits hfits).mpr rfl,
            filterReturn_of_thread hm (filterReturn_of_returnAddr haddr)⟩
        · exact ⟨below, .unwound, hbelow,
            filterReturn_of_thread hm (filterReturn_of_belowTopmost haddr hbelow)⟩

section Samples

/-- A call instruction that is reached twice, the second time deeper on the stack. -/
def recursiveCall (esp : U32) : CallEvent := ⟨0x401000, 0x402000, 5, esp⟩

/-- The return of the first of the two calls, after a jump out of the second. -/
def outerReturn : ReturnEvent := ⟨0x402010, 0x401005, 0, 0x19FEFC⟩

/-- The stack of the two calls. -/
def recursiveFrames : List StackFrame :=
  [(recursiveCall 0x19FE00).frame, (recursiveCall 0x19FF00).frame]

theorem fits_recursiveFrames : ∃ it ∈ recursiveFrames, outerReturn.Fits it :=
  ⟨(recursiveCall 0x19FF00).frame, List.mem_cons_of_mem _ List.mem_cons_self, rfl, rfl⟩

/-- The stacks after the two calls. -/
def recursiveStacks : ShadowStacks :=
  (filterCall (fun _ => none) (recursiveCall 0x19FF00) 0).filterCall (recursiveCall 0x19FE00) 0

theorem filterReturn_unwinds_iff_sample : recursiveStacks.UnwindsTo outerReturn 0 ↔
    ∀ top, recursiveFrames.head? = some top → top.returnAddr = outerReturn.target →
      top.stackAddr = outerReturn.esp + 4 :=
  filterReturn_unwinds_iff recursiveStacks 0 recursiveFrames outerReturn rfl fits_recursiveFrames

/-- The frame that the return belongs to is the lower one, and stays. -/
theorem frame_stays_after_jump :
    (∃ out, run process (fun _ => none) [(0, .inl (recursiveCall 0x19FF00)),
      (0, .inl (recursiveCall 0x19FE00))] = .ok (recursiveStacks, out)) ∧
    recursiveStacks 0 = some ⟨recursiveFrames, false⟩ ∧
    (∃ it ∈ recursiveFrames, outerReturn.Fits it) ∧ ¬ recursiveStacks.UnwindsTo outerReturn 0 ∧
    ∃ m', recursiveStacks.filterReturn outerReturn 0 = .ok (m', .matched) ∧
      m'.frames 0 = [(recursiveCall 0x19FF00).frame] := by
  have hreturn : recursiveStacks.filterReturn outerReturn 0 =
      .ok (Function.update recursiveStacks 0
        (some ⟨[(recursiveCall 0x19FF00).frame], false⟩), .matched) :=
    filterReturn_of_thread rfl (filterReturn_of_returnAddr rfl)
  refine ⟨⟨_, rfl⟩, rfl, fits_recursiveFrames, ?_, _, hreturn, rfl⟩
  rintro ⟨below, o, hbelow, hok⟩
  rw [hreturn] at hok
  have hstack := congrFun (Prod.mk.inj (Except.ok.inj hok)).1 0
  rw [Function.update_self, Function.update_self] at hstack
  obtain ⟨rfl, -⟩ := ThreadStack.mk.inj (Option.some.inj hstack)
  have htop : ¬ outerReturn.Fits (recursiveCall 0x19FE00).frame := fun h => absurd h.2 (by decide)
  exact hbelow.ne_tail htop rfl

end Samples

end ShadowStacks

end PEReplay
