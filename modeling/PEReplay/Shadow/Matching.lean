/-
# PEReplay.Shadow.Matching — every accepted return uses up a call of its own.

The frames on a stack are calls that are still waiting.  `alive` lists, for every thread and every
point of a run, the positions of these calls, and `matchedCall` reads off which of them a return
goes back to: the top one, or one it unwinds to.  `frames_alive` ties the lists to the vectors, so
they are not a second story but the run itself, told in positions.

A position leaves its list when its frame is popped or cut, whether the return that did it was
accepted or reported, and never comes back: one call never justifies two returns.
-/
import PEReplay.Shadow.Stack

namespace PEReplay

open Interleave

/-! ## Waiting calls -/

/-- The events of a run, each on its thread. -/
abbrev StackEvents := List (U32 × (CallEvent ⊕ ReturnEvent))

/-- The frame that event number `i` pushes, for a call. -/
def frameAt (evs : StackEvents) (i : Nat) : StackFrame :=
  match evs[i]? with
  | some (_, .inl c) => c.frame
  | _ => ⟨0, 0, 0, 0⟩

/-- The first of the waiting calls that a return can unwind to, and those below it. -/
def upperCall (frame : Nat → StackFrame) (r : ReturnEvent) : List Nat → Option (Nat × List Nat)
  | [] => none
  | i :: below =>
      if (frame i).returnAddr = r.target ∧ (frame i).stackAddr = r.esp + 4 then some (i, below)
      else upperCall frame r below

/-- What a return does to the waiting calls of its thread, and the call it goes back to. -/
def returnFrom (frame : Nat → StackFrame) (r : ReturnEvent) : List Nat → List Nat × Option Nat
  | [] => ([], none)
  | i :: below =>
      if (frame i).returnAddr = r.target then (below, some i)
      else
        match upperCall frame r (i :: below) with
        | some (k, below) => (below, some k)
        | none => (below, none)

/-- The positions of the calls that wait on each stack after the first `n` events, top first. -/
def alive (evs : StackEvents) : Nat → U32 → List Nat
  | 0 => fun _ => []
  | n + 1 =>
      match evs[n]? with
      | none => alive evs n
      | some (tid, .inl _) => Function.update (alive evs n) tid (n :: alive evs n tid)
      | some (tid, .inr r) =>
          Function.update (alive evs n) tid (returnFrom (frameAt evs) r (alive evs n tid)).1

/-- The position of the call that event number `j` goes back to, for an accepted return. -/
def matchedCall (evs : StackEvents) (j : Nat) : Option Nat :=
  match evs[j]? with
  | some (tid, .inr r) => (returnFrom (frameAt evs) r (alive evs j tid)).2
  | _ => none

/-! ## What a return does to the waiting calls -/

theorem upperCall_cases {frame : Nat → StackFrame} {r : ReturnEvent} {is below : List Nat} {k : Nat}
    (h : upperCall frame r is = some (k, below)) :
    k :: below <:+ is ∧ (frame k).returnAddr = r.target := by
  induction is with
  | nil => exact absurd h (by simp [upperCall])
  | cons i is ih =>
      rw [upperCall] at h
      split at h
      · rename_i hfits
        obtain ⟨rfl, rfl⟩ := Prod.mk.inj (Option.some.inj h)
        exact ⟨List.suffix_rfl, hfits.1⟩
      · obtain ⟨hsuffix, htarget⟩ := ih h
        exact ⟨hsuffix.trans (List.suffix_cons i is), htarget⟩

/-- **A return cuts the list at the call it goes back to**, and at the top one otherwise. -/
theorem returnFrom_suffix (frame : Nat → StackFrame) (r : ReturnEvent) (is : List Nat) :
    (returnFrom frame r is).1 <:+ is := by
  cases is with
  | nil => exact List.suffix_rfl
  | cons i below =>
      rw [returnFrom]
      split
      · exact List.suffix_cons i below
      · split
        · rename_i k rest hupper
          exact (List.suffix_cons k rest).trans (upperCall_cases hupper).1
        · exact List.suffix_cons i below

theorem returnFrom_match {frame : Nat → StackFrame} {r : ReturnEvent} {is : List Nat} {k : Nat}
    (h : (returnFrom frame r is).2 = some k) :
    k :: (returnFrom frame r is).1 <:+ is ∧ (frame k).returnAddr = r.target := by
  cases is with
  | nil => exact absurd h (by simp [returnFrom])
  | cons i below =>
      rw [returnFrom] at h ⊢
      split at h
      · rename_i htop
        obtain rfl := Option.some.inj h
        rw [if_pos htop]
        exact ⟨List.suffix_rfl, htop⟩
      · rename_i htop
        rw [if_neg htop]
        cases hupper : upperCall frame r (i :: below) with
        | none =>
            rw [hupper] at h
            exact absurd h (by simp)
        | some x =>
            obtain ⟨j, rest⟩ := x
            rw [hupper] at h
            obtain rfl := Option.some.inj h
            exact upperCall_cases hupper

theorem framesBelow_map (frame : Nat → StackFrame) (r : ReturnEvent) (is : List Nat) :
    ThreadStack.framesBelow r.target r.esp (is.map frame) =
      (upperCall frame r is).map fun x => x.2.map frame := by
  induction is with
  | nil => rfl
  | cons i is ih =>
      rw [List.map_cons, ThreadStack.framesBelow, upperCall]
      split
      · rfl
      · exact ih

/-- The return is accepted: it was compared with frames, and one of them fits. -/
def Outcome.Accepted (o : Outcome) : Prop := o = .matched ∨ o = .unwound

/-- **One return**, on the stack and on the list of waiting calls. -/
theorem filterReturn_map (frame : Nat → StackFrame) (r : ReturnEvent) (is : List Nat) :
    ∃ o, ThreadStack.filterReturn ⟨is.map frame, false⟩ r =
        .ok (⟨(returnFrom frame r is).1.map frame, false⟩, o) ∧
      (o.Accepted ↔ (returnFrom frame r is).2.isSome = true) := by
  rw [filterReturn_eq]
  cases is with
  | nil => exact ⟨.emptyStack, rfl, by simp [Outcome.Accepted, returnFrom]⟩
  | cons i below =>
      rw [List.map_cons]
      simp only [← List.map_cons, framesBelow_map]
      rw [returnFrom]
      by_cases htop : (frame i).returnAddr = r.target
      · simp only [if_pos htop]
        exact ⟨.matched, rfl, by simp [Outcome.Accepted]⟩
      · simp only [if_neg htop]
        cases upperCall frame r (i :: below) with
        | none => exact ⟨.violation (frame i), rfl, by simp [Outcome.Accepted]⟩
        | some x =>
            obtain ⟨k, rest⟩ := x
            exact ⟨.unwound, rfl, by simp [Outcome.Accepted]⟩

/-! ## The lists along a run -/

theorem alive_succ_call {evs : StackEvents} {n : Nat} {tid : U32} {c : CallEvent}
    (h : evs[n]? = some (tid, .inl c)) :
    alive evs (n + 1) = Function.update (alive evs n) tid (n :: alive evs n tid) := by
  simp only [alive, h]

theorem alive_succ_return {evs : StackEvents} {n : Nat} {tid : U32} {r : ReturnEvent}
    (h : evs[n]? = some (tid, .inr r)) :
    alive evs (n + 1) =
      Function.update (alive evs n) tid (returnFrom (frameAt evs) r (alive evs n tid)).1 := by
  simp only [alive, h]

theorem alive_succ_none {evs : StackEvents} {n : Nat} (h : evs[n]? = none) :
    alive evs (n + 1) = alive evs n := by
  simp only [alive, h]

/-- What waits after one more event waited before, or is that event, a call. -/
theorem mem_alive_succ {evs : StackEvents} {n i : Nat} {tid : U32}
    (h : i ∈ alive evs (n + 1) tid) :
    i ∈ alive evs n tid ∨ (i = n ∧ ∃ c, evs[n]? = some (tid, .inl c)) := by
  cases hev : evs[n]? with
  | none =>
      rw [alive_succ_none hev] at h
      exact Or.inl h
  | some e =>
      obtain ⟨u, c | r⟩ := e
      · rw [alive_succ_call hev] at h
        by_cases htid : tid = u
        · subst htid
          rw [Function.update_self] at h
          rcases List.mem_cons.mp h with rfl | h
          · exact Or.inr ⟨rfl, c, rfl⟩
          · exact Or.inl h
        · rw [Function.update_of_ne htid] at h
          exact Or.inl h
      · rw [alive_succ_return hev] at h
        by_cases htid : tid = u
        · subst htid
          rw [Function.update_self] at h
          exact Or.inl ((returnFrom_suffix _ _ _).subset h)
        · rw [Function.update_of_ne htid] at h
          exact Or.inl h

/-- A waiting position is an earlier call of its thread. -/
theorem call_of_mem_alive {evs : StackEvents} {n i : Nat} {tid : U32} (h : i ∈ alive evs n tid) :
    i < n ∧ ∃ c, evs[i]? = some (tid, .inl c) := by
  induction n with
  | zero => exact absurd h List.not_mem_nil
  | succ n ih =>
      rcases mem_alive_succ h with h | ⟨rfl, hcall⟩
      · obtain ⟨hlt, hcall⟩ := ih h
        exact ⟨by omega, hcall⟩
      · exact ⟨by omega, hcall⟩

/-- **A call that no longer waits never waits again.** -/
theorem mem_alive_of_le {evs : StackEvents} {n n' i : Nat} {tid : U32} (hi : i < n) (hn : n ≤ n')
    (h : i ∈ alive evs n' tid) : i ∈ alive evs n tid := by
  induction n', hn using Nat.le_induction with
  | base => exact h
  | succ n' hle ih =>
      rcases mem_alive_succ h with h | ⟨rfl, -⟩
      · exact ih h
      · omega

theorem alive_nodup (evs : StackEvents) (n : Nat) (tid : U32) : (alive evs n tid).Nodup := by
  induction n generalizing tid with
  | zero => exact List.nodup_nil
  | succ n ih =>
      cases hev : evs[n]? with
      | none =>
          rw [alive_succ_none hev]
          exact ih tid
      | some e =>
          obtain ⟨u, c | r⟩ := e
          · rw [alive_succ_call hev]
            by_cases htid : tid = u
            · subst htid
              rw [Function.update_self]
              refine List.nodup_cons.mpr ⟨fun hmem => ?_, ih tid⟩
              exact absurd (call_of_mem_alive hmem).1 (lt_irrefl n)
            · rw [Function.update_of_ne htid]
              exact ih tid
          · rw [alive_succ_return hev]
            by_cases htid : tid = u
            · subst htid
              rw [Function.update_self]
              exact (ih tid).sublist (returnFrom_suffix _ _ _).sublist
            · rw [Function.update_of_ne htid]
              exact ih tid

/-- **What a match says**: a return goes back to an earlier call of its thread that was waiting, to
the instruction behind it, and the call waits no longer. -/
theorem matchedCall_cases {evs : StackEvents} {i j : Nat} (h : matchedCall evs j = some i) :
    ∃ tid r c, evs[j]? = some (tid, .inr r) ∧ evs[i]? = some (tid, .inl c) ∧ i < j ∧
      r.target = c.insAddr + c.size ∧ i ∈ alive evs j tid ∧ i ∉ alive evs (j + 1) tid := by
  unfold matchedCall at h
  split at h
  · rename_i tid r hev
    obtain ⟨hsuffix, htarget⟩ := returnFrom_match h
    have hmem : i ∈ alive evs j tid := hsuffix.subset List.mem_cons_self
    obtain ⟨hlt, c, hcall⟩ := call_of_mem_alive hmem
    refine ⟨tid, r, c, hev, hcall, hlt, ?_, hmem, ?_⟩
    · rw [← htarget, frameAt, hcall]
      rfl
    · rw [alive_succ_return hev, Function.update_self]
      exact (List.nodup_cons.mp ((alive_nodup evs j tid).sublist hsuffix.sublist)).1
  · exact absurd h (by simp)

/-- **No call is matched twice.** -/
theorem matchedCall_injective {evs : StackEvents} {i j j' : Nat} (h : matchedCall evs j = some i)
    (h' : matchedCall evs j' = some i) : j = j' := by
  have hle : ∀ {j j'}, matchedCall evs j = some i → matchedCall evs j' = some i → ¬ j < j' := by
    intro j j' h h' hlt
    obtain ⟨tid, r, c, -, hcall, hbefore, -, -, hgone⟩ := matchedCall_cases h
    obtain ⟨tid', r', c', -, hcall', -, -, hwaits, -⟩ := matchedCall_cases h'
    have htid : tid' = tid := by
      rw [hcall] at hcall'
      exact ((Prod.mk.inj (Option.some.inj hcall')).1).symm
    subst htid
    exact hgone (mem_alive_of_le (by omega) hlt hwaits)
  exact le_antisymm (not_lt.mp (hle h' h)) (not_lt.mp (hle h h'))

/-! ## The run and its lists -/

/-- A thread's stack consists of the frames of its waiting calls, and no `NtCallbackReturn` is
pending. -/
def StackOf (evs : StackEvents) (s : Option ThreadStack) (is : List Nat) : Prop :=
  (s = none ∧ is = []) ∨ s = some ⟨is.map (frameAt evs), false⟩

/-- The first `n` events run without a failure, leave the stacks as the lists say, and report every
return as accepted exactly when it has a match. -/
structure Follows (evs : StackEvents) (n : Nat) (m : ShadowStacks) (out : List (U32 × Outcome)) :
    Prop where
  run : Interleave.run ShadowStacks.process (fun _ => none) (evs.take n) = .ok (m, out)
  perThread : ∀ tid, StackOf evs (m tid) (alive evs n tid)
  accepted : ∀ j < n, ∀ tid r, evs[j]? = some (tid, .inr r) →
    ∃ o, out[j]? = some (tid, o) ∧ (o.Accepted ↔ (matchedCall evs j).isSome = true)

/-- **Step**, on the stack of the event's own thread. -/
theorem StackOf.step {evs : StackEvents} {n : Nat} {tid : U32} {e : CallEvent ⊕ ReturnEvent}
    {s : Option ThreadStack} (hev : evs[n]? = some (tid, e))
    (hs : StackOf evs s (alive evs n tid)) :
    ∃ s' o, threadStep s e = .ok (s', o) ∧ StackOf evs s' (alive evs (n + 1) tid) ∧
      ∀ r, e = .inr r → (o.Accepted ↔ (matchedCall evs n).isSome = true) := by
  cases e with
  | inl c =>
      have hframe : frameAt evs n = c.frame := by rw [frameAt, hev]
      have hnext : (alive evs (n + 1) tid).map (frameAt evs) =
          c.frame :: (alive evs n tid).map (frameAt evs) := by
        rw [alive_succ_call hev, Function.update_self, List.map_cons, hframe]
      refine ⟨_, .called, rfl, Or.inr ?_, fun r hr => absurd hr (by simp)⟩
      rw [hnext]
      rcases hs with ⟨rfl, hnil⟩ | rfl
      · rw [hnil]
        rfl
      · rfl
  | inr r =>
      have hnext : alive evs (n + 1) tid =
          (returnFrom (frameAt evs) r (alive evs n tid)).1 := by
        rw [alive_succ_return hev, Function.update_self]
      have hmatch : matchedCall evs n = (returnFrom (frameAt evs) r (alive evs n tid)).2 := by
        simp only [matchedCall, hev]
      rcases hs with ⟨rfl, hnil⟩ | rfl
      · refine ⟨none, .noStack, rfl, Or.inl ⟨rfl, ?_⟩, fun _ _ => ?_⟩
        · rw [hnext, hnil]
          rfl
        · rw [hmatch, hnil]
          simp [Outcome.Accepted, returnFrom]
      · obtain ⟨o, hreturn, haccepted⟩ := filterReturn_map (frameAt evs) r (alive evs n tid)
        refine ⟨some ⟨(alive evs (n + 1) tid).map (frameAt evs), false⟩, o, ?_, Or.inr rfl,
          fun _ _ => ?_⟩
        · simp only [threadStep, hreturn, hnext]
        · rw [hmatch]
          exact haccepted

/-- **Run.** Every run follows its lists. -/
theorem exists_follows (evs : StackEvents) (n : Nat) (hn : n ≤ evs.length) :
    ∃ m out, Follows evs n m out := by
  induction n with
  | zero =>
      refine ⟨fun _ => none, [], rfl, fun tid => Or.inl ⟨rfl, rfl⟩, fun j hj => ?_⟩
      exact absurd hj (Nat.not_lt_zero j)
  | succ n ih =>
      obtain ⟨m, out, hrun, hthreads, haccepted⟩ := ih (by omega)
      obtain ⟨⟨tid, e⟩, hev⟩ : ∃ x, evs[n]? = some x :=
        ⟨_, List.getElem?_eq_getElem (by omega)⟩
      obtain ⟨s', o, hstep, hs', hmatch⟩ := StackOf.step hev (hthreads tid)
      have hlen : out.length = n := by
        rw [length_run hrun, List.length_take_of_le (by omega)]
      have htake : evs.take (n + 1) = evs.take n ++ [(tid, e)] := by
        rw [List.take_add_one, hev]
        rfl
      have hprocess : ShadowStacks.process m (tid, e) =
          .ok (Function.update m tid s', (tid, o)) := by
        rw [process_eq_stepAt]
        exact stepAt_ok hstep
      refine ⟨Function.update m tid s', out ++ [(tid, o)], ?_, fun u => ?_, fun j hj u r hj' => ?_⟩
      · rw [htake]
        exact run_append hrun (run_cons hprocess rfl)
      · by_cases hu : u = tid
        · subst hu
          rw [Function.update_self]
          exact hs'
        · have hsame : alive evs (n + 1) u = alive evs n u := by
            cases e with
            | inl c => rw [alive_succ_call hev, Function.update_of_ne hu]
            | inr r => rw [alive_succ_return hev, Function.update_of_ne hu]
          rw [Function.update_of_ne hu, hsame]
          exact hthreads u
      · rcases Nat.lt_succ_iff_lt_or_eq.mp hj with hlt | rfl
        · obtain ⟨o', ho', hiff⟩ := haccepted j hlt u r hj'
          refine ⟨o', ?_, hiff⟩
          rw [List.getElem?_append_left (by omega)]
          exact ho'
        · rw [hev] at hj'
          obtain ⟨rfl, rfl⟩ := Prod.mk.inj (Option.some.inj hj')
          refine ⟨o, ?_, hmatch r rfl⟩
          rw [List.getElem?_append_right (by omega), hlen, Nat.sub_self]
          rfl

/-- **The vectors are the waiting calls**, at every point of a run. -/
theorem frames_alive {evs : StackEvents} {n : Nat} {m : ShadowStacks} {out : List (U32 × Outcome)}
    (hn : n ≤ evs.length)
    (h : run ShadowStacks.process (fun _ => none) (evs.take n) = .ok (m, out)) (tid : U32) :
    m.frames tid = (alive evs n tid).map (frameAt evs) := by
  obtain ⟨m', out', hfollows⟩ := exists_follows evs n hn
  obtain ⟨rfl, rfl⟩ := Prod.mk.inj (Except.ok.inj (hfollows.run.symm.trans h))
  unfold ShadowStacks.frames
  rcases hfollows.perThread tid with ⟨hnone, hnil⟩ | hsome
  · rw [hnone, hnil]
    rfl
  · rw [hsome]
    rfl

/-- What a matching of accepted returns with calls has to be: `matching j` is the call that return
`j` goes back to, and `waiting n tid` are the calls whose frames the vector of `tid` holds after `n`
events, from the back. -/
structure Justifies (evs : StackEvents) (out : List (U32 × Outcome)) (matching : Nat → Option Nat)
    (waiting : Nat → U32 → List Nat) : Prop where
  /-- the accepted returns are those with a match -/
  accepted : ∀ j tid r, evs[j]? = some (tid, .inr r) →
    ∃ o, out[j]? = some (tid, o) ∧ (o.Accepted ↔ (matching j).isSome = true)
  /-- the match is an earlier call of the same thread, behind which the return goes -/
  target : ∀ j i, matching j = some i → ∃ tid r c, evs[j]? = some (tid, .inr r) ∧
    evs[i]? = some (tid, .inl c) ∧ i < j ∧ r.target = c.insAddr + c.size ∧
    i ∈ waiting j tid ∧ i ∉ waiting (j + 1) tid
  /-- no call is matched twice -/
  injective : ∀ j j' i, matching j = some i → matching j' = some i → j = j'
  /-- the vectors hold the frames of the waiting calls -/
  frames : ∀ n ≤ evs.length, ∀ m out',
    run ShadowStacks.process (fun _ => none) (evs.take n) = .ok (m, out') →
    ∀ tid, m.frames tid = (waiting n tid).map (frameAt evs)
  /-- a frame once popped or cut never comes back -/
  gone : ∀ n n' i tid, i < n → n ≤ n' → i ∉ waiting n tid → i ∉ waiting n' tid

/-- **One call, one return.** Every run of calls and returns on any threads, nested or not, goes
through without a pop or a peek at an empty vector, and its accepted returns are matched with calls
of their own. -/
theorem accepted_returns_justified (evs : StackEvents) :
    ∃ m out, run ShadowStacks.process (fun _ => none) evs = .ok (m, out) ∧
      ∃ matching waiting, Justifies evs out matching waiting := by
  obtain ⟨m, out, hfollows⟩ := exists_follows evs evs.length le_rfl
  have hrun := hfollows.run
  rw [List.take_length] at hrun
  refine ⟨m, out, hrun, matchedCall evs, alive evs, ?_, ?_, ?_, ?_, ?_⟩
  · intro j tid r hj
    have hlt : j < evs.length := by
      by_contra hge
      rw [List.getElem?_eq_none (by omega)] at hj
      exact absurd hj (by simp)
    exact hfollows.accepted j hlt tid r hj
  · intro j i hmatch
    exact matchedCall_cases hmatch
  · intro j j' i hmatch hmatch'
    exact matchedCall_injective hmatch hmatch'
  · intro n hn m' out' hprefix tid
    exact frames_alive hn hprefix tid
  · intro n n' i tid hi hn hgone hmem
    exact hgone (mem_alive_of_le hi hn hmem)

end PEReplay
