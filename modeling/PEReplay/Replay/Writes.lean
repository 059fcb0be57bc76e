/-
# PEReplay.Replay.Writes — the callbacks around a memory write.

Pin calls the tool before and after an instruction that writes memory.  The callback before it
stores the instruction, the target and the size in three members of the one `REProgramInfo` object;
the callback after it has no arguments and works on these members, to log what was written.  The
members are not kept per thread, so what it works on is the last write announced by any thread:
`reportsOwn_iff` says when that is its own.

`IsAddrCode` and the memory at the time of a callback are part of its event.
-/
import PEReplay.Machine
import Mathlib.Logic.Function.Basic

namespace PEReplay

/-! ## The callbacks -/

/-- `m_write_inst_addr`, `m_write_target` and `m_write_size`. -/
structure PendingWrite where
  instAddr : U32
  target : U32
  size : U32
  deriving Repr, DecidableEq

/-- What a callback finds: the answers of `ImageInfo::IsAddrCode`, and the memory. -/
structure WriteEnv where
  isAddrCode : U32 → Bool
  mem : Memory

/-- The line `"[0x%08x]: %16s [0x%08x] %d bytes [0x%08x]\n"`; without a value the bytes are dumped
instead. -/
structure WriteLine where
  instAddr : U32
  tag : List Char
  target : U32
  size : U32
  value : Option U32
  deriving Repr, DecidableEq

/-- `memcpy(&value, target, size)` into a zero `value`, for a size up to four. -/
def Memory.readBytes (mem : Memory) (addr : U32) : Nat → U32
  | 0 => 0
  | n + 1 => mem.readBytes addr n |||
      (mem (addr + BitVec.ofNat 32 n)).setWidth 32 <<< (8 * n)

/-- What either callback logs for a write: nothing unless its target is code. -/
def writeLine (tag : List Char) (env : WriteEnv) (w : PendingWrite) : Option WriteLine :=
  if env.isAddrCode w.target then
    some {
      instAddr := w.instAddr
      tag := tag
      target := w.target
      size := w.size
      value :=
        if w.size ≤ 4 then some (env.mem.readBytes w.target w.size.toNat) else none }
  else none

/-- `"Before Write to"` -/
def beforeTag : List Char :=
  ['B', 'e', 'f', 'o', 'r', 'e', ' ', 'W', 'r', 'i', 't', 'e', ' ', 't', 'o']

/-- `"After Write to"` -/
def afterTag : List Char :=
  ['A', 'f', 't', 'e', 'r', ' ', 'W', 'r', 'i', 't', 'e', ' ', 't', 'o']

/-- What a callback reports: the write it works on, and the line it logs for it. -/
structure WriteReport where
  write : PendingWrite
  line : Option WriteLine
  deriving Repr, DecidableEq

/-- `REProgramInfo::Process_Instrument_Write_Before`: the members and the report. -/
def processInstrumentWriteBefore (env : WriteEnv) (w : PendingWrite) (_ : PendingWrite) :
    PendingWrite × WriteReport :=
  (w, ⟨w, writeLine beforeTag env w⟩)

/-- `REProgramInfo::Process_Instrument_Write_After` -/
def processInstrumentWriteAfter (env : WriteEnv) (m : PendingWrite) : PendingWrite × WriteReport :=
  (m, ⟨m, writeLine afterTag env m⟩)

/-! ## Runs of several threads -/

/-- A callback on thread `tid`. -/
inductive WriteEvent where
  | before (tid : Nat) (w : PendingWrite) (env : WriteEnv)
  | after (tid : Nat) (env : WriteEnv)

/-- What one callback does to the members, and what it reports. -/
def WriteEvent.process : WriteEvent → PendingWrite → PendingWrite × WriteReport
  | .before _ w env, m => processInstrumentWriteBefore env w m
  | .after _ env, m => processInstrumentWriteAfter env m

/-- The members after a sequence of callbacks. -/
def runWrites (m : PendingWrite) (events : List WriteEvent) : PendingWrite :=
  events.foldl (fun m e => (e.process m).1) m

/-- What a callback does to the write each thread has announced and not yet made. -/
def announce (own : Nat → Option PendingWrite) : WriteEvent → Nat → Option PendingWrite
  | .before tid w _ => Function.update own tid (some w)
  | .after tid _ => Function.update own tid none

/-- The write each thread has announced and not yet made. -/
def announced (events : List WriteEvent) : Nat → Option PendingWrite :=
  events.foldl announce fun _ => none

/-- The write that was announced last, by any thread. -/
def lastAnnounced (events : List WriteEvent) : Option PendingWrite :=
  events.foldl (fun last e =>
    match e with
    | .before _ w _ => some w
    | .after _ _ => last) none

/-- From here on the callbacks alternate on every thread, those in `own` being between theirs. -/
def AlternatesFrom (own : Nat → Option PendingWrite) : List WriteEvent → Prop
  | [] => True
  | e :: events =>
      (match e with
      | .before tid _ _ => own tid = none
      | .after tid _ => own tid ≠ none) ∧ AlternatesFrom (announce own e) events

/-- On each thread the callbacks alternate, `Write_Before` first. -/
def Alternates (events : List WriteEvent) : Prop := AlternatesFrom (fun _ => none) events

/-- Every `Write_After` of the run works on the write that the last `Write_Before` of its own thread
recorded. -/
def ReportsOwn (m : PendingWrite) (events : List WriteEvent) : Prop :=
  ∀ pre tid env post, events = pre ++ .after tid env :: post →
    announced pre tid = some (processInstrumentWriteAfter env (runWrites m pre)).2.write

/-- Whenever a thread comes to its `Write_After`, the last `Write_Before` of any thread announced
the same write as its own. -/
def Undisturbed (events : List WriteEvent) : Prop :=
  ∀ pre tid env post, events = pre ++ .after tid env :: post →
    announced pre tid = lastAnnounced pre

theorem AlternatesFrom.suffix {own : Nat → Option PendingWrite} {pre post : List WriteEvent}
    (h : AlternatesFrom own (pre ++ post)) : AlternatesFrom (pre.foldl announce own) post := by
  induction pre generalizing own with
  | nil => exact h
  | cons e pre ih => exact ih h.2

/-- A thread comes to its `Write_After` with a write announced. -/
theorem Alternates.announced_ne_none {pre post : List WriteEvent} {tid : Nat} {env : WriteEnv}
    (h : Alternates (pre ++ .after tid env :: post)) : announced pre tid ≠ none :=
  (AlternatesFrom.suffix h).1

theorem runWrites_append_singleton (m : PendingWrite) (events : List WriteEvent) (e : WriteEvent) :
    runWrites m (events ++ [e]) = (e.process (runWrites m events)).1 := by
  rw [runWrites, List.foldl_append]
  rfl

/-- **Run.** The members hold the write that was announced last. -/
theorem runWrites_eq (m : PendingWrite) (events : List WriteEvent) :
    runWrites m events = (lastAnnounced events).getD m := by
  induction events using List.reverseRecOn with
  | nil => rfl
  | append_singleton events e ih =>
      rw [runWrites_append_singleton, lastAnnounced, List.foldl_append]
      cases e with
      | before tid w env => rfl
      | after tid env => exact ih

/-- A thread between its callbacks has announced something. -/
theorem lastAnnounced_isSome {events : List WriteEvent} {tid : Nat}
    (h : announced events tid ≠ none) : ∃ w, lastAnnounced events = some w := by
  induction events using List.reverseRecOn with
  | nil => exact absurd rfl h
  | append_singleton events e ih =>
      rw [announced, List.foldl_append] at h
      rw [lastAnnounced, List.foldl_append]
      cases e with
      | before u w env => exact ⟨w, rfl⟩
      | after u env =>
          refine ih fun hnone => h ?_
          show Function.update (announced events) u none tid = none
          by_cases heq : tid = u
          · rw [heq, Function.update_self]
          · rw [Function.update_of_ne heq]
            exact hnone

/-- **When a report is about its own write.** In a run in which the callbacks alternate on every
thread, every `Write_After` reports what the last `Write_Before` of its thread recorded exactly when
no other thread ever comes in between with a different write, last. -/
theorem reportsOwn_iff (m : PendingWrite) (events : List WriteEvent) (h : Alternates events) :
    ReportsOwn m events ↔ Undisturbed events := by
  have hlast : ∀ pre tid env post, events = pre ++ .after tid env :: post →
      lastAnnounced pre = some (processInstrumentWriteAfter env (runWrites m pre)).2.write := by
    intro pre tid env post heq
    subst heq
    obtain ⟨w, hw⟩ := lastAnnounced_isSome h.announced_ne_none
    show _ = some (runWrites m pre)
    rw [runWrites_eq, hw]
    rfl
  constructor
  · intro hown pre tid env post heq
    rw [hown pre tid env post heq, hlast pre tid env post heq]
  · intro hundisturbed pre tid env post heq
    rw [hundisturbed pre tid env post heq, hlast pre tid env post heq]

/-- A report about the own write logs the line that belongs to it. -/
theorem ReportsOwn.line {m : PendingWrite} {events : List WriteEvent} (h : ReportsOwn m events)
    {pre post : List WriteEvent} {tid : Nat} {env : WriteEnv} {w : PendingWrite}
    (heq : events = pre ++ .after tid env :: post) (hw : announced pre tid = some w) :
    (processInstrumentWriteAfter env (runWrites m pre)).2.line = writeLine afterTag env w := by
  have hown := h pre tid env post heq
  rw [hw] at hown
  rw [Option.some.inj hown]
  rfl

section Samples

def sampleWrite (n : U32) : PendingWrite := ⟨0x401000 + n, 0x402000 + n, 4⟩

/-- Two threads, each between its callbacks when the other announces its write. -/
def crossedWrites (env : WriteEnv) : List WriteEvent :=
  [.before 0 (sampleWrite 0) env, .before 1 (sampleWrite 8) env, .after 0 env, .after 1 env]

theorem alternates_crossedWrites (env : WriteEnv) : Alternates (crossedWrites env) := by
  refine ⟨rfl, rfl, ?_, ?_, trivial⟩
  · exact Option.some_ne_none (sampleWrite 0)
  · exact Option.some_ne_none (sampleWrite 8)

/-- Thread 0 reports the write of thread 1. -/
theorem crossed_report : ∃ env, Alternates (crossedWrites env) ∧
    ¬ ReportsOwn ⟨0, 0, 0⟩ (crossedWrites env) := by
  refine ⟨⟨fun _ => true, fun _ => 0⟩, alternates_crossedWrites _, fun h => ?_⟩
  have hown := h [_, _] 0 _ [_] rfl
  exact absurd hown (by decide)

theorem reportsOwn_iff_sample :
    let env : WriteEnv := ⟨fun _ => true, fun _ => 0⟩
    ReportsOwn ⟨0, 0, 0⟩ (crossedWrites env) ↔ Undisturbed (crossedWrites env) :=
  reportsOwn_iff ⟨0, 0, 0⟩ _ (alternates_crossedWrites _)

end Samples

end PEReplay
