/-
# PEReplay.Libdasm.Code — libdasm as the disassembler of the sweeper.

The sweeper takes what `get_instruction` makes of each address as it comes.  Here it is libdasm that
decodes the bytes of memory, and what is known of libdasm becomes known of the traces: an
instruction is no longer than what may be read, it depends on its own bytes, and a straight-line run
is the linear sweep of the bytes that it covers.
-/
import PEReplay.Sweeper.Explore
import PEReplay.Libdasm.Layout

namespace PEReplay
namespace Libdasm

open Decoder Loop

/-! ## Bytes of memory -/

/-- `n` bytes from an address. -/
def readable (mem : Memory) (addr : U32) (n : Nat) : List U8 :=
  (List.range n).map fun i => mem (addr + BitVec.ofNat 32 i)

@[simp]
theorem length_readable (mem : Memory) (addr : U32) (n : Nat) :
    (readable mem addr n).length = n := by
  simp [readable]

theorem readable_add (mem : Memory) (addr : U32) (m n : Nat) :
    readable mem addr (m + n) =
      readable mem addr m ++ readable mem (addr + BitVec.ofNat 32 m) n := by
  unfold readable
  rw [List.range_add, List.map_append, List.map_map]
  congr 1
  refine List.map_congr_left fun i _ => ?_
  rw [Function.comp_apply, BitVec.ofNat_add, BitVec.add_assoc]

theorem take_readable (mem : Memory) (addr : U32) {m n : Nat} (h : m ≤ n) :
    (readable mem addr n).take m = readable mem addr m := by
  obtain ⟨k, rfl⟩ := Nat.exists_eq_add_of_le h
  rw [readable_add, List.take_left' (length_readable mem addr m)]

/-- Two memories hold the same bytes there. -/
def SameBytes (mem mem' : Memory) (addr : U32) (n : Nat) : Prop :=
  ∀ i < n, mem' (addr + BitVec.ofNat 32 i) = mem (addr + BitVec.ofNat 32 i)

theorem SameBytes.readable_eq {mem mem' : Memory} {addr : U32} {n : Nat}
    (h : SameBytes mem mem' addr n) : readable mem' addr n = readable mem addr n :=
  List.map_congr_left fun i hi => h i (List.mem_range.mp hi)

theorem SameBytes.split {mem mem' : Memory} {addr : U32} {m n : Nat}
    (h : SameBytes mem mem' addr (m + n)) :
    SameBytes mem mem' addr m ∧ SameBytes mem mem' (addr + BitVec.ofNat 32 m) n := by
  constructor
  · intro i hi
    exact h i (by omega)
  · intro i hi
    have hbyte := h (m + i) (by omega)
    rwa [BitVec.ofNat_add, ← BitVec.add_assoc] at hbyte

/-! ## Instructions -/

/-- The fields of an `OPERAND` that the tool reads. -/
def Operand.view (op : Operand) : PEReplay.Operand where
  type := op.type
  basereg := op.basereg
  indexreg := op.indexreg
  dispbytes := op.dispbytes
  immbytes := op.immbytes
  displacement := op.displacement
  immediate := op.immediate

/-- The fields of an `INSTRUCTION` that the tool reads. -/
def Instruction.view (ins : Instruction) : Option PEReplay.Instruction :=
  if h : 0 < (BitVec.ofNat 32 ins.length).toNat then
    some {
      length := BitVec.ofNat 32 ins.length
      type := ins.type
      op1 := ins.op1.view
      op2 := ins.op2.view
      length_pos := h }
  else none

/-- `get_instruction` on memory of which `window` bytes from an address may be read. -/
def codeOf (T : OpcodeTables) (mem : Memory) (window : Nat) : Code where
  mem := mem
  getInstruction addr :=
    match (getInstruction T .mode32).run (readable mem addr window) with
    | some (some ins, _) => ins.view
    | _ => none

theorem length_of_view {ins : Instruction} {v : PEReplay.Instruction} (h : ins.view = some v)
    (hlt : ins.length < 2 ^ 32) : v.length.toNat = ins.length := by
  unfold Instruction.view at h
  split at h
  · cases h
    rw [BitVec.toNat_ofNat, Nat.mod_eq_of_lt hlt]
  · cases h

variable {T : OpcodeTables} {mem mem' : Memory} {window : Nat}

/-- What the sweeper gets is what the bytes encode. -/
theorem getInstruction_codeOf {addr : U32} {v : PEReplay.Instruction} :
    (codeOf T mem window).getInstruction addr = some v ↔
      ∃ ins : Instruction, ins.length ≤ window ∧
        (libdasm T .mode32).Encodes ins (readable mem addr ins.length) ∧ ins.view = some v := by
  constructor
  · intro h
    unfold codeOf at h
    dsimp only at h
    split at h
    · rename_i ins n hrun
      have hlen : n = ins.length := (libdasm T .mode32).reach hrun
      have hle := (libdasm T .mode32).within hrun
      rw [length_readable] at hle
      have henc : (libdasm T .mode32).Encodes ins ((readable mem addr window).take ins.length) :=
        (libdasm T .mode32).encodes_take hrun
      rw [take_readable mem addr (hlen ▸ hle)] at henc
      exact ⟨ins, hlen ▸ hle, henc, h⟩
    · cases h
  · rintro ⟨ins, hle, henc, hview⟩
    obtain ⟨k, rfl⟩ := Nat.exists_eq_add_of_le hle
    have hrun := henc.run_append (readable mem (addr + BitVec.ofNat 32 ins.length) k)
    rw [← readable_add] at hrun
    have hrun : (getInstruction T .mode32).run (readable mem addr (ins.length + k)) =
      some (some ins, ins.length) := hrun
    unfold codeOf
    simp only [hrun, hview]

/-- The instruction the sweeper gets is as long as its encoding. -/
theorem length_codeOf (hwindow : window < 2 ^ 32) {addr : U32} {v : PEReplay.Instruction}
    (h : (codeOf T mem window).getInstruction addr = some v) : v.length.toNat ≤ window := by
  obtain ⟨ins, hle, -, hview⟩ := getInstruction_codeOf.mp h
  rw [length_of_view hview (by omega)]
  exact hle

/-- No instruction is longer than what may be read. -/
theorem below_codeOf {sec : CodeSection}
    (hroom : sec.start.toNat + sec.size.toNat + window < 2 ^ 32) :
    sec.Below (codeOf T mem window) window where
  length_le := fun _ _ h => length_codeOf (by omega) h
  room := hroom

/-- An instruction depends on its own bytes. -/
theorem getInstruction_same (hwindow : window < 2 ^ 32) {addr : U32} {v : PEReplay.Instruction}
    (h : (codeOf T mem window).getInstruction addr = some v)
    (hsame : SameBytes mem mem' addr v.length.toNat) :
    (codeOf T mem' window).getInstruction addr = some v := by
  obtain ⟨ins, hle, henc, hview⟩ := getInstruction_codeOf.mp h
  rw [length_of_view hview (by omega)] at hsame
  rw [← hsame.readable_eq] at henc
  exact getInstruction_codeOf.mpr ⟨ins, hle, henc, hview⟩

/-! ## Runs -/

variable {sec : CodeSection}

theorem addr_eq (a x : U32) : a + x = a + BitVec.ofNat 32 x.toNat := by
  rw [BitVec.ofNat_toNat, BitVec.setWidth_eq]

/-- A run depends on the bytes that it covers, and on its end when nothing decodes there. -/
theorem straightLine_same (hwindow : window < 2 ^ 32) {a : U32}
    {run : List (U32 × PEReplay.Instruction)}
    (h : StraightLine (codeOf T mem window) sec a run) (hsame : SameBytes mem mem' a (runSize run))
    (hstop : instructionAt (codeOf T mem window) sec (a + BitVec.ofNat 32 (runSize run)) = none →
      instructionAt (codeOf T mem' window) sec (a + BitVec.ofNat 32 (runSize run)) = none) :
    StraightLine (codeOf T mem' window) sec a run := by
  have hone {a : U32} {v : PEReplay.Instruction}
      (hins : instructionAt (codeOf T mem window) sec a = some v)
      (hsame : SameBytes mem mem' a v.length.toNat) :
      instructionAt (codeOf T mem' window) sec a = some v := by
    obtain ⟨hcode, hins⟩ := isAddrCode_of_instructionAt hins
    rw [instructionAt, if_pos hcode]
    exact getInstruction_same hwindow hins hsame
  induction h with
  | @stop a hnone =>
    have hend : a + BitVec.ofNat 32 (runSize []) = a := by
      rw [show runSize [] = 0 from rfl, show (BitVec.ofNat 32 0 : U32) = 0 from rfl, add_zero]
    rw [hend] at hstop
    exact .stop (hstop hnone)
  | last hins hends =>
    rw [runSize_cons] at hsame
    exact .last (hone hins hsame.split.1) hends
  | @cons a v run hins hgoes _ ih =>
    rw [runSize_cons] at hsame hstop
    obtain ⟨hfirst, hrest⟩ := hsame.split
    rw [← addr_eq] at hrest
    refine .cons (hone hins hfirst) hgoes (ih hrest ?_)
    rwa [BitVec.ofNat_add, ← BitVec.add_assoc, ← addr_eq] at hstop

/-- The linear sweep of the bytes that a run covers finds the instructions of the run. -/
theorem straightLine_sweep (hwindow : window < 2 ^ 32) {a : U32}
    {run : List (U32 × PEReplay.Instruction)}
    (h : StraightLine (codeOf T mem window) sec a run) :
    ∃ is es, (libdasm T .mode32).Cut is es ∧ es.flatten = readable mem a (runSize run) ∧
      is.map Instruction.view = run.map fun p => some p.2 := by
  have hone {a : U32} {v : PEReplay.Instruction}
      (hins : instructionAt (codeOf T mem window) sec a = some v) :
      ∃ ins : Instruction, (libdasm T .mode32).Encodes ins (readable mem a v.length.toNat) ∧
        ins.view = some v := by
    obtain ⟨ins, hle, henc, hview⟩ :=
      getInstruction_codeOf.mp (isAddrCode_of_instructionAt hins).2
    rw [← length_of_view hview (by omega)] at henc
    exact ⟨ins, henc, hview⟩
  induction h with
  | stop _ => exact ⟨[], [], .nil, rfl, rfl⟩
  | @last a v hins _ =>
    obtain ⟨ins, henc, hview⟩ := hone hins
    refine ⟨[ins], [readable mem a v.length.toNat], .cons henc .nil, ?_, by simp [hview]⟩
    rw [runSize_cons]
    simp [runSize]
  | @cons a v run hins _ _ ih =>
    obtain ⟨ins, henc, hview⟩ := hone hins
    obtain ⟨is, es, hcut, hflat, hviews⟩ := ih
    refine ⟨ins :: is, readable mem a v.length.toNat :: es, .cons henc hcut, ?_,
      by simp [hview, hviews]⟩
    rw [List.flatten_cons, hflat, runSize_cons, readable_add, ← addr_eq]

/-! ## Assembled code -/

/-- Instructions with their addresses, one behind the other. -/
def addressed : U32 → List PEReplay.Instruction → List (U32 × PEReplay.Instruction)
  | _, [] => []
  | a, v :: vs => (a, v) :: addressed (a + v.length) vs

/-- The last instruction ends a trace and no other does. -/
def EndsAtLast : List PEReplay.Instruction → Prop
  | [] => False
  | [v] => v.endsTrace = true
  | v :: w :: vs => v.endsTrace = false ∧ EndsAtLast (w :: vs)

instance : (vs : List PEReplay.Instruction) → Decidable (EndsAtLast vs)
  | [] => .isFalse id
  | [v] => inferInstanceAs (Decidable (v.endsTrace = true))
  | v :: w :: vs =>
    haveI := instDecidableEndsAtLast (w :: vs)
    inferInstanceAs (Decidable (v.endsTrace = false ∧ EndsAtLast (w :: vs)))

theorem runSize_addressed {is : List Instruction} {es : List (List U8)}
    {vs : List PEReplay.Instruction} (hwindow : window < 2 ^ 32)
    (hcut : (libdasm T .mode32).Cut is es) (hviews : is.map Instruction.view = vs.map some)
    (hle : ∀ ins ∈ is, ins.length ≤ window) (a : U32) :
    runSize (addressed a vs) = es.flatten.length := by
  induction hcut generalizing a vs with
  | nil =>
    obtain rfl : vs = [] := by simpa using hviews.symm
    rfl
  | @cons ins e is es henc _ ih =>
    obtain ⟨v, vs, rfl⟩ : ∃ v vs', vs = v :: vs' := by
      cases vs with
      | nil => cases hviews
      | cons v vs => exact ⟨v, vs, rfl⟩
    obtain ⟨hview, hviews⟩ := List.cons.inj hviews
    have hins := hle ins (by simp)
    have hlen : e.length = ins.length := henc.length_eq
    rw [addressed, runSize_cons, ih hviews (fun i hi => hle i (by simp [hi])), List.flatten_cons,
      List.length_append, hlen, length_of_view hview (by omega)]

/-- Memory that holds encodings has the run of their instructions. -/
theorem straightLine_of_cut {is : List Instruction} {es : List (List U8)}
    {vs : List PEReplay.Instruction} (hwindow : window < 2 ^ 32)
    (hcut : (libdasm T .mode32).Cut is es) (hviews : is.map Instruction.view = vs.map some)
    (hle : ∀ ins ∈ is, ins.length ≤ window) (hends : EndsAtLast vs) {a : U32}
    (hbytes : readable mem a es.flatten.length = es.flatten)
    (hlow : sec.start.toNat ≤ a.toNat)
    (hhigh : a.toNat + es.flatten.length ≤ sec.start.toNat + sec.size.toNat) :
    StraightLine (codeOf T mem window) sec a (addressed a vs) := by
  have hfits := sec.fits
  induction hcut generalizing a vs with
  | nil =>
    obtain rfl : vs = [] := by simpa using hviews.symm
    exact hends.elim
  | @cons ins e is es henc hcut ih =>
    obtain ⟨v, vs, rfl⟩ : ∃ v vs', vs = v :: vs' := by
      cases vs with
      | nil => cases hviews
      | cons v vs => exact ⟨v, vs, rfl⟩
    obtain ⟨hview, hviews⟩ := List.cons.inj hviews
    have hins := hle ins (by simp)
    have hlen : e.length = ins.length := henc.length_eq
    have hpos : 0 < e.length := List.length_pos_iff.mpr henc.ne_nil
    have hv : v.length.toNat = e.length := by rw [length_of_view hview (by omega), hlen]
    rw [List.flatten_cons, List.length_append] at hhigh
    rw [List.flatten_cons, List.length_append, readable_add] at hbytes
    obtain ⟨hfirst, hrest⟩ := List.append_inj hbytes (length_readable mem a e.length)
    have hhere : instructionAt (codeOf T mem window) sec a = some v := by
      rw [instructionAt, if_pos ((sec.isAddrCode_iff a).mpr ⟨hlow, by omega⟩)]
      refine getInstruction_codeOf.mpr ⟨ins, hins, ?_, hview⟩
      rw [← hlen, hfirst]
      exact henc
    cases vs with
    | nil => exact .last hhere hends
    | cons w vs =>
      have hnext : (a + v.length).toNat = a.toNat + e.length := by
        rw [BitVec.toNat_add, hv, Nat.mod_eq_of_lt (by omega)]
      rw [← hv, ← addr_eq] at hrest
      exact .cons hhere hends.1 (ih hviews (fun i hi => hle i (by simp [hi])) hends.2
        (hrest) (by omega) (by omega))

/-- **The tracer reads assembled code back.**  Where memory holds the encodings of instructions of
which only the last ends a trace, `StaticTrace::process` finds these instructions: the size is that
of the encodings, and the targets are those of the instructions at their addresses, whatever else
memory holds. -/
theorem process_assembled (T : OpcodeTables) (mem : Memory) (sec : CodeSection) {window : Nat}
    (hwindow : window < 2 ^ 32) {is : List Instruction} {es : List (List U8)}
    {vs : List PEReplay.Instruction} (hcut : (libdasm T .mode32).Cut is es)
    (hviews : is.map Instruction.view = vs.map some) (hle : ∀ ins ∈ is, ins.length ≤ window)
    (hends : EndsAtLast vs) {a : U32} (hbytes : readable mem a es.flatten.length = es.flatten)
    (hlow : sec.start.toNat ≤ a.toNat)
    (hhigh : a.toNat + es.flatten.length ≤ sec.start.toNat + sec.size.toNat)
    (id : Nat) (lea : TargetSet) :
    Computes (fun n => (StaticTrace.new id a sec).process n (codeOf T mem window) [] lea)
      (⟨id, a, BitVec.ofNat 32 es.flatten.length, sec⟩, runTargets (addressed a vs),
        runLea (addressed a vs) lea) := by
  have hrun := straightLine_of_cut hwindow hcut hviews hle hends hbytes hlow hhigh
  refine ⟨(addressed a vs).length + 1, fun n hn => ?_⟩
  show (StaticTrace.new id a sec).process n (codeOf T mem window) [] lea = _
  rw [StaticTrace.process_of_straightLine hrun (by omega) id lea, StaticTrace.ofRun,
    runSize_addressed hwindow hcut hviews hle]

/-- What libdasm makes of the bytes, with the few rows. -/
def decoded (e : List U8) : Instruction :=
  (((getInstruction fewTables .mode32).run e).bind (·.1)).getD { ptr := illegal }

/-- `nop`, `jz` four bytes on, and `ret`. -/
def listing : List (List U8) := [[0x90], [0x74, 0x04], [0xc3]]

/-- What the sweeper sees of it. -/
def listingViews : List PEReplay.Instruction := (listing.map decoded).filterMap Instruction.view

/-- Memory with the listing at `0x1000`. -/
def listingMemory : Memory := fun a => listing.flatten.getD (a - 0x1000).toNat 0xcc

theorem listing_fits : (0x1000 : U32).toNat + (4 : U32).toNat < 2 ^ 32 := by decide

def listingSection : CodeSection := ⟨0x1000, 4, listing_fits⟩

theorem cut_listing : (libdasm fewTables .mode32).Cut (listing.map decoded) listing := by
  refine .cons ?_ (.cons ?_ (.cons ?_ .nil)) <;> decide

theorem views_listing : (listing.map decoded).map Instruction.view = listingViews.map some := by
  decide

theorem process_assembled_listing : Computes
    (fun n => (StaticTrace.new 0 0x1000 listingSection).process n
      (codeOf fewTables listingMemory 15) [] ∅)
    (⟨0, 0x1000, 4, listingSection⟩, [0x1007], ∅) :=
  process_assembled fewTables listingMemory listingSection (by decide) cut_listing views_listing
    (by decide) (by decide) (by decide) (by decide) (by decide) 0 ∅

/-! ## The worklist -/

open CodeSectionSweeper

/-- What has been explored with one disassembler has been explored with another that follows the
same runs from the traces found. -/
theorem explored_of_runs {code code' : Code} {targets : TargetSet} {s : CodeSectionSweeper}
    (h : Explored code targets s)
    (hruns : ∀ t ∈ s.traces, ∀ run, StraightLine code s.codeSection t.start run →
      t.size.toNat = runSize run → StraightLine code' s.codeSection t.start run) :
    Explored code' targets s := by
  have hgen (a : U32) (ha : TraceStart code s.codeSection targets a) :
      genSet code' s.codeSection a = genSet code s.codeSection a := by
    obtain ⟨t, ht, rfl⟩ := (h.starts a).mpr ha
    obtain ⟨run, hrun, hsize⟩ := h.sizes t ht
    rw [genSet_eq hrun, genSet_eq (hruns t ht run hrun hsize)]
  have hsame (a : U32) :
      TraceStart code s.codeSection targets a ↔ TraceStart code' s.codeSection targets a := by
    have hroot (a : U32) (ha : a ∈ targets) (hcode : s.codeSection.isAddrCode a = true) :
        TraceStart code s.codeSection targets a ∧ TraceStart code' s.codeSection targets a :=
      ⟨.root (List.mem_toFinset.mpr ha) hcode, .root (List.mem_toFinset.mpr ha) hcode⟩
    constructor
    · intro ha
      refine (TraceStart.least hroot (fun a b hab hb hcode => ?_) ha).2
      exact ⟨hab.1.succ hb hcode, hab.2.succ (hgen a hab.1 ▸ hb) hcode⟩
    · intro ha
      refine (TraceStart.least hroot (fun a b hab hb hcode => ?_) ha).1
      exact ⟨hab.1.succ (hgen a hab.1 ▸ hb) hcode, hab.2.succ hb hcode⟩
  constructor
  · intro a
    rw [← hsame a]
    exact h.starts a
  · intro t ht
    obtain ⟨run, hrun, hsize⟩ := h.sizes t ht
    exact ⟨run, hruns t ht run hrun hsize, hsize⟩

/-- What the memories have to agree on for the traces of `s`: the bytes of each trace, and that
nothing decodes behind a trace that stopped for that. -/
structure SameTraces (T : OpcodeTables) (mem mem' : Memory) (window : Nat)
    (s : CodeSectionSweeper) : Prop where
  bytes : ∀ t ∈ s.traces, SameBytes mem mem' t.start t.size.toNat
  stops : ∀ t ∈ s.traces, instructionAt (codeOf T mem window) s.codeSection t.getEnd = none →
    instructionAt (codeOf T mem' window) s.codeSection t.getEnd = none

/-- **The exploration depends on the bytes of its traces.**  The worklist, run over libdasm from a
sweeper without traces, finds the same traces in every memory that holds the same bytes in the
traces found, and each of these traces is a list of encodings that the linear sweep reads back. -/
theorem worklist_same_traces (T : OpcodeTables) (mem mem' : Memory) (window : Nat)
    (s₀ s : CodeSectionSweeper) (hempty : s₀.traces = ∅)
    (hroom : s₀.codeSection.start.toNat + s₀.codeSection.size.toNat + window < 2 ^ 32)
    (hs : Computes (fun n => s₀.worklist n (codeOf T mem window)) s)
    (hsame : SameTraces T mem mem' window s) :
    (∃ s', Computes (fun n => s₀.worklist n (codeOf T mem' window)) s' ∧
      s'.outline = s.outline) ∧
    ∀ t ∈ s.traces, ∃ is, (libdasm T .mode32).sweep (readable mem t.start t.size.toNat) = some is ∧
      ∃ run, StraightLine (codeOf T mem window) s.codeSection t.start run ∧
        is.map Instruction.view = run.map fun p => some p.2 := by
  obtain ⟨-, -, hexplored, -, s₁, hs₁, hsteps, hdone⟩ :=
    worklist_explores (codeOf T mem window) window s₀ (below_codeOf hroom) hempty
  obtain rfl := hs₁.unique hs
  have hex := hexplored s₁ hsteps hdone
  have hsec : s₁.codeSection = s₀.codeSection := (popSteps_spec hsteps).1.codeSection
  constructor
  · obtain ⟨-, -, hexplored', -, s', hs', hsteps', hdone'⟩ :=
      worklist_explores (codeOf T mem' window) window s₀ (below_codeOf hroom) hempty
    have hsec' : s'.codeSection = s₀.codeSection := (popSteps_spec hsteps').1.codeSection
    have hex' : Explored (codeOf T mem' window) s₀.pendingTargets s₁ := by
      refine explored_of_runs hex fun t ht run hrun hsize => ?_
      refine straightLine_same (by omega) hrun (hsize ▸ hsame.bytes t ht) ?_
      rw [← hsize, ← addr_eq]
      exact hsame.stops t ht
    exact ⟨s', hs', (hexplored' s' hsteps' hdone').outline_eq hex' (hsec.trans hsec'.symm)⟩
  · intro t ht
    obtain ⟨run, hrun, hsize⟩ := hex.sizes t ht
    obtain ⟨is, es, hcut, hflat, hviews⟩ := straightLine_sweep (by omega) hrun
    rw [← hsize] at hflat
    exact ⟨is, Sized.sweep_eq_some.mpr ⟨es, hcut, hflat⟩, run, hrun, hviews⟩

/-- `jmp` over one byte to a `ret` at `0x1003`, with `filler` in every other place. -/
def jmpMemory (filler : U8) : Memory := fun a =>
  ([0xeb, 0x01, filler, 0xc3] : List U8).getD (a - 0x1000).toNat filler

/-- The section has the `jmp` as its only target. -/
def jmpSweeper : CodeSectionSweeper := (init listingSection).appendTarget 0x1000

def jmpView : PEReplay.Instruction := (decoded [0xeb, 0x01]).view.get (by decide)

def retView : PEReplay.Instruction := (decoded [0xc3]).view.get (by decide)

theorem straightLine_jmp : StraightLine (codeOf fewTables (jmpMemory 0x90) 15) listingSection 0x1000
    [(0x1000, jmpView)] := .last (by decide) (by decide)

theorem straightLine_ret : StraightLine (codeOf fewTables (jmpMemory 0x90) 15) listingSection 0x1003
    [(0x1003, retView)] := .last (by decide) (by decide)

theorem traceStart_jmp (a : U32) : TraceStart (codeOf fewTables (jmpMemory 0x90) 15) listingSection
    jmpSweeper.pendingTargets a ↔ a = 0x1000 ∨ a = 0x1003 := by
  have hjmp : genSet (codeOf fewTables (jmpMemory 0x90) 15) listingSection 0x1000 = {0x1003} := by
    rw [genSet_eq straightLine_jmp]
    decide
  have hret : genSet (codeOf fewTables (jmpMemory 0x90) 15) listingSection 0x1003 = ∅ := by
    rw [genSet_eq straightLine_ret]
    decide
  have hfirst : TraceStart (codeOf fewTables (jmpMemory 0x90) 15) listingSection
      jmpSweeper.pendingTargets 0x1000 := .root (by decide) (by decide)
  constructor
  · refine TraceStart.least (S := fun a => a = 0x1000 ∨ a = 0x1003) ?_ ?_
    · exact fun a ha _ => .inl (List.mem_singleton.mp ha)
    · rintro a b (rfl | rfl) hb _
      · exact .inr (Finset.mem_singleton.mp (hjmp ▸ hb))
      · rw [hret] at hb
        exact absurd hb (Finset.notMem_empty b)
  · rintro (rfl | rfl)
    · exact hfirst
    · exact hfirst.succ (hjmp ▸ Finset.mem_singleton_self _) (by decide)

/-- Both traces of the jump. -/
theorem trace_jmp_cases {s : CodeSectionSweeper} (hsec : s.codeSection = listingSection)
    (hex : Explored (codeOf fewTables (jmpMemory 0x90) 15) jmpSweeper.pendingTargets s)
    {t : StaticTrace} (ht : t ∈ s.traces) :
    t.start = 0x1000 ∧ t.size = 2 ∨ t.start = 0x1003 ∧ t.size = 1 := by
  have hstart := (hex.starts t.start).mp ⟨t, ht, rfl⟩
  rw [hsec, traceStart_jmp] at hstart
  obtain ⟨run, hrun, hsize⟩ := hex.sizes t ht
  rw [hsec] at hrun
  rcases hstart with h | h
  · rw [h] at hrun
    rw [hrun.unique straightLine_jmp] at hsize
    exact Or.inl ⟨h, BitVec.eq_of_toNat_eq hsize⟩
  · rw [h] at hrun
    rw [hrun.unique straightLine_ret] at hsize
    exact Or.inr ⟨h, BitVec.eq_of_toNat_eq hsize⟩

/-- The trace behind the jump is found, and the two memories differ in all that is not a trace. -/
theorem worklist_same_traces_sample :
    ∃ s, Computes (fun n => jmpSweeper.worklist n (codeOf fewTables (jmpMemory 0x90) 15)) s ∧
      (∃ t ∈ s.traces, t.start = 0x1003) ∧
      ∃ s', Computes (fun n => jmpSweeper.worklist n (codeOf fewTables (jmpMemory 0xcc) 15)) s' ∧
        s'.outline = s.outline := by
  obtain ⟨-, -, hexplored, -, s, hs, hsteps, hdone⟩ := worklist_explores
    (codeOf fewTables (jmpMemory 0x90) 15) 15 jmpSweeper (below_codeOf (by decide)) rfl
  have hex := hexplored s hsteps hdone
  have hsec : s.codeSection = listingSection := (popSteps_spec hsteps).1.codeSection
  have hlast : ∃ t ∈ s.traces, t.start = 0x1003 := by
    rw [hex.starts, hsec, traceStart_jmp]
    exact Or.inr rfl
  refine ⟨s, hs, hlast, (worklist_same_traces fewTables (jmpMemory 0x90) _ 15 jmpSweeper s rfl
    (by decide) hs ⟨?_, ?_⟩).1⟩
  · intro t ht i hi
    rcases trace_jmp_cases hsec hex ht with ⟨hstart, hsize⟩ | ⟨hstart, hsize⟩
    · have hbytes : ∀ i < 2, jmpMemory 0xcc (0x1000 + BitVec.ofNat 32 i) =
          jmpMemory 0x90 (0x1000 + BitVec.ofNat 32 i) := by decide
      rw [hstart]
      rw [hsize] at hi
      exact hbytes i hi
    · rw [hsize] at hi
      obtain rfl : i = 0 := Nat.lt_one_iff.mp hi
      rw [hstart]
      rfl
  · intro t ht hstop
    rcases trace_jmp_cases hsec hex ht with ⟨hstart, hsize⟩ | ⟨hstart, hsize⟩
    · rw [StaticTrace.getEnd, hstart, hsize, hsec] at hstop
      exact absurd hstop (by decide)
    · rw [StaticTrace.getEnd, hstart, hsize, hsec]
      decide

end Libdasm
end PEReplay
