/-
# PEReplay.Shadow.Stack — the shadow stacks of the threads.

Every call pushes a frame on the stack of its thread, and every return is compared with it: with the
top frame first, then, for a return out of several calls at once, with the frames below it, where
the stack address has to fit as well.  A return that fits nowhere is reported, and takes the top
frame away all the same.

Frames are listed from the back of the vector, the top of the stack, downwards.  What a C++ vector
leaves undefined, `rbegin` and `pop_back` of an empty one, is an error here.
-/
import PEReplay.Machine
import PEReplay.Lib.Interleave

namespace PEReplay

open Interleave

/-- `StackFrame`, without the hint that is only printed. -/
structure StackFrame where
  routineAddr : U32
  returnAddr : U32
  callAddr : U32
  stackAddr : U32
  deriving Repr, DecidableEq

/-- How an operation on a stack can fail. -/
inductive StackError where
  /-- `std::exception("NtCallbackReturn invoked with empty stack!")` -/
  | ntCallbackReturn
  /-- the last element of an empty vector is read or removed -/
  | emptyVector
  deriving Repr, DecidableEq

/-- `ThreadStack` -/
structure ThreadStack where
  frames : List StackFrame
  ntCallbackReturn : Bool
  deriving Repr, DecidableEq

/-- The arguments of `ShadowStack::filterCall`, the thread aside. -/
structure CallEvent where
  insAddr : U32
  target : U32
  size : U32
  esp : U32
  deriving Repr, DecidableEq

/-- The arguments of `ShadowStack::filterReturn`, the thread aside. -/
structure ReturnEvent where
  insAddr : U32
  target : U32
  retDisp : U32
  esp : U32
  deriving Repr, DecidableEq

/-- What comes of an event; a violation is reported with the frame it was compared with. -/
inductive Outcome where
  | called
  | noStack
  | emptyStack
  | matched
  | unwound
  | violation (item : StackFrame)
  deriving Repr, DecidableEq

namespace ThreadStack

/-- `ThreadStack::ThreadStack` -/
def new : ThreadStack := ⟨[], false⟩

/-- `ThreadStack::Push` -/
def push (s : ThreadStack) (rtnAddr retAddr callAddr esp : U32) : ThreadStack :=
  { s with frames := ⟨rtnAddr, retAddr, callAddr, esp⟩ :: s.frames }

/-- `ThreadStack::Peek` -/
def peek (s : ThreadStack) : Except StackError (StackFrame × ThreadStack) := do
  let s ←
    if s.ntCallbackReturn then
      if s.frames.length < 3 then .error .ntCallbackReturn
      else .ok { frames := s.frames.drop 3, ntCallbackReturn := false }
    else .ok s
  match s.frames with
  | [] => .error .emptyVector
  | item :: _ => .ok (item, s)

/-- The loop of `ThreadStack::ReturnToUpperFrame`: the frames below the first one that fits. -/
def framesBelow (returnAddr stackAddr : U32) : List StackFrame → Option (List StackFrame)
  | [] => none
  | it :: frames =>
      if it.returnAddr = returnAddr ∧ it.stackAddr = stackAddr + 4 then some frames
      else framesBelow returnAddr stackAddr frames

/-- `ThreadStack::ReturnToUpperFrame`, `none` for `false`. -/
def returnToUpperFrame (s : ThreadStack) (returnAddr stackAddr : U32) : Option ThreadStack :=
  (framesBelow returnAddr stackAddr s.frames).map fun frames => { s with frames := frames }

/-- `ThreadStack::Pop` -/
def pop (s : ThreadStack) : Except StackError ThreadStack :=
  match s.frames with
  | [] => .error .emptyVector
  | _ :: frames => .ok { s with frames := frames }

/-- `ThreadStack::Empty` -/
def isEmpty (s : ThreadStack) : Bool := s.frames.isEmpty

/-- What `ShadowStack::filterReturn` does with the stack of the thread. -/
def filterReturn (s : ThreadStack) (r : ReturnEvent) :
    Except StackError (ThreadStack × Outcome) := do
  if s.isEmpty then return (s, .emptyStack)
  else
    let (item, s) ← s.peek
    if item.returnAddr = r.target then return (← s.pop, .matched)
    else
      match s.returnToUpperFrame r.target r.esp with
      | some s => return (s, .unwound)
      | none => return (← s.pop, .violation item)

end ThreadStack

/-! ## All threads -/

/-- `s_mapThreadStack` -/
abbrev ShadowStacks := U32 → Option ThreadStack

namespace ShadowStacks

/-- `ShadowStack::filterCall` -/
def filterCall (m : ShadowStacks) (c : CallEvent) (tid : U32) : ShadowStacks :=
  let stack := (m tid).getD .new
  Function.update m tid (some (stack.push c.target (c.insAddr + c.size) c.insAddr c.esp))

/-- `ShadowStack::filterReturn` -/
def filterReturn (m : ShadowStacks) (r : ReturnEvent) (tid : U32) :
    Except StackError (ShadowStacks × Outcome) :=
  match m tid with
  | none => .ok (m, .noStack)
  | some stack =>
      match stack.filterReturn r with
      | .error e => .error e
      | .ok (stack, outcome) => .ok (Function.update m tid (some stack), outcome)

/-- One event on the thread it is tagged with. -/
def process (m : ShadowStacks) : U32 × (CallEvent ⊕ ReturnEvent) →
    Except StackError (ShadowStacks × (U32 × Outcome))
  | (tid, .inl c) => .ok (m.filterCall c tid, (tid, .called))
  | (tid, .inr r) =>
      match m.filterReturn r tid with
      | .error e => .error e
      | .ok (m, outcome) => .ok (m, (tid, outcome))

/-- The frame vector of a thread; empty while it has none. -/
def frames (m : ShadowStacks) (tid : U32) : List StackFrame :=
  ((m tid).map ThreadStack.frames).getD []

end ShadowStacks

/-! ## One thread -/

/-- The frame a call pushes. -/
def CallEvent.frame (c : CallEvent) : StackFrame := ⟨c.target, c.insAddr + c.size, c.insAddr, c.esp⟩

/-- An event on the stack of its own thread. -/
def threadStep (s : Option ThreadStack) : CallEvent ⊕ ReturnEvent →
    Except StackError (Option ThreadStack × Outcome)
  | .inl c =>
      .ok (some ((s.getD .new).push c.target (c.insAddr + c.size) c.insAddr c.esp), .called)
  | .inr r =>
      match s with
      | none => .ok (none, .noStack)
      | some stack =>
          match stack.filterReturn r with
          | .error e => .error e
          | .ok (stack, outcome) => .ok (some stack, outcome)

/-- **Threads do not share stacks**: an event is a step of its own thread's stack. -/
theorem process_eq_stepAt : ShadowStacks.process = stepAt threadStep := by
  funext m e
  obtain ⟨tid, c | r⟩ := e
  · rfl
  · simp only [ShadowStacks.process, ShadowStacks.filterReturn, stepAt, threadStep]
    cases hm : m tid with
    | none =>
        have hself : Function.update m tid none = m := by rw [← hm, Function.update_eq_self]
        simp only [hself]
    | some stack =>
        cases hreturn : stack.filterReturn r with
        | error e => simp only [hreturn]
        | ok x => simp only [hreturn]

/-- **What a return can do** to a stack on which no `NtCallbackReturn` is pending: the empty stack
stays, a return to the top frame's address pops it, another return unwinds to the first frame that
fits, and one that fits nowhere pops the top frame as well. -/
theorem filterReturn_eq {frames : List StackFrame} (r : ReturnEvent) :
    ThreadStack.filterReturn ⟨frames, false⟩ r =
      match frames with
      | [] => .ok (⟨[], false⟩, .emptyStack)
      | item :: rest =>
          if item.returnAddr = r.target then .ok (⟨rest, false⟩, .matched)
          else
            match ThreadStack.framesBelow r.target r.esp (item :: rest) with
            | some below => .ok (⟨below, false⟩, .unwound)
            | none => .ok (⟨rest, false⟩, .violation item) := by
  cases frames with
  | nil => rfl
  | cons item rest =>
      by_cases htop : item.returnAddr = r.target
      · simp only [if_pos htop]
        simp [ThreadStack.filterReturn, ThreadStack.isEmpty, ThreadStack.peek, ThreadStack.pop,
          htop, bind, Except.bind, pure, Except.pure]
      · simp only [if_neg htop]
        cases hbelow : ThreadStack.framesBelow r.target r.esp (item :: rest) with
        | none =>
            simp [ThreadStack.filterReturn, ThreadStack.isEmpty, ThreadStack.peek, ThreadStack.pop,
              ThreadStack.returnToUpperFrame, htop, hbelow, bind, Except.bind, pure, Except.pure]
        | some below =>
            simp [ThreadStack.filterReturn, ThreadStack.isEmpty, ThreadStack.peek,
              ThreadStack.returnToUpperFrame, htop, hbelow, bind, Except.bind, pure, Except.pure]

end PEReplay
