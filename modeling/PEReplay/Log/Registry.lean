/-
# PEReplay.Log.Registry — the map of loggers, and which files each of them opens.

`LogTo` and `LogToF` keep one `Logger` for each file name in `s_loggers`.  The name is the key, but
the files are named by what is left of it without its last four characters.  All that a logger opens
or writes is a part under that stem (`Owns`), and a part belongs to one stem
(`partialFileName_inj`), so two loggers keep out of each other's files exactly when their stems
differ (`opened_disjoint_iff`).
-/
import PEReplay.Log.Calls
import PEReplay.Log.Format

namespace PEReplay

open Printf

/-- What the constructor leaves of the name: all but its last four characters. -/
def CString.stem (filename : CString) : List Char :=
  filename.chars.take (filename.chars.length - 4)

/-- Parts of logs with different stems never share a name. -/
theorem partialFileName_inj {stem stem' : List Char} {m n : U32}
    (h : partialFileName stem m = partialFileName stem' n) : stem = stem' := by
  have hnot : ∀ k : U32, '_' ∉ signedPad 3 k.toInt ++ ['.', 'c', 'l', 'g'] := by
    intro k hmem
    rcases List.mem_append.mp hmem with hpad | hext
    · rcases isDigit_or_minus_of_mem_signedPad hpad with hd | hd
      · exact absurd hd (by decide)
      · exact absurd hd (by decide)
    · exact absurd hext (by decide)
  exact (append_cons_inj (hnot m) (hnot n) h).1

/-! ## What a call does to the files -/

namespace LogObject

/-- The object after `Logline`; a call that waits for the mutex leaves it as it is. -/
def afterLogline (line : CString) (o : LogObject) : LogObject :=
  match o.logline line with
  | none => o
  | some r => after r

/-- The object after `LoglineF`; where no text comes out of the loop `Logline` is not called. -/
def afterLoglineF (n : Nat) (vsnprintf : Vsnprintf) (o : LogObject) : LogObject :=
  match formatLine n vsnprintf with
  | some (.ok line) => o.afterLogline line
  | _ => o

/-- From `o` on, only parts under its stem are opened, and only open files change. -/
structure Grows (o o' : LogObject) : Prop where
  stem : o'.logger.originalFilename = o.logger.originalFilename
  opened : o.opened ⊆ o'.opened
  part : ∀ x ∈ o'.opened, x ∈ o.opened ∨ ∃ k, x = partialFileName o.logger.originalFilename k
  out : o.logger.out ∈ o.opened → o'.logger.out ∈ o'.opened
  disk : o.logger.out ∈ o.opened → ∀ x, x ∉ o'.opened → o'.disk x = o.disk x

theorem Grows.trans {o o₁ o₂ : LogObject} (h : Grows o o₁) (h' : Grows o₁ o₂) : Grows o o₂ where
  stem := h'.stem.trans h.stem
  opened := List.Subset.trans h.opened h'.opened
  part := by
    intro x hx
    rcases h'.part x hx with hx | ⟨k, rfl⟩
    · exact h.part x hx
    · exact Or.inr ⟨k, by rw [h.stem]⟩
  out := fun hout => h'.out (h.out hout)
  disk := by
    intro hout x hx
    rw [h'.disk (h.out hout) x hx]
    exact h.disk hout x fun hmem => hx (h'.opened hmem)

theorem grows_stored (line : CString) (o : LogObject) : Grows o (o.stored line) where
  stem := rfl
  opened := List.Subset.refl _
  part := fun _ hx => Or.inl hx
  out := id
  disk := fun _ _ _ => rfl

theorem grows_lock (o : LogObject) : Grows o { o with locked := true } where
  stem := rfl
  opened := List.Subset.refl _
  part := fun _ hx => Or.inl hx
  out := id
  disk := fun _ _ _ => rfl

/-- Flushing writes the open part, -/
theorem grows_written (o : LogObject) : Grows o o.written where
  stem := rfl
  opened := List.Subset.refl _
  part := fun _ hx => Or.inl hx
  out := id
  disk := by
    intro hout x hx
    have hne : x ≠ o.logger.out := by
      rintro rfl
      exact hx hout
    exact Function.update_of_ne hne _ _

/-- and splitting opens the next. -/
theorem grows_rotated (o : LogObject) : Grows o o.rotated where
  stem := rfl
  opened := List.subset_append_left _ _
  part := by
    intro x hx
    rcases List.mem_append.mp hx with hx | hx
    · exact Or.inl hx
    · exact Or.inr ⟨_, List.mem_singleton.mp hx⟩
  out := fun _ => List.mem_append_right _ (List.mem_singleton_self _)
  disk := by
    intro _ x hx
    have hne : x ≠ o.nextName := by
      rintro rfl
      exact hx (List.mem_append_right _ (List.mem_singleton_self _))
    exact Function.update_of_ne hne _ _

theorem grows_next (line : CString) (o : LogObject) : Grows o (o.next line) := by
  unfold next
  split_ifs
  · exact ((grows_written o).trans (grows_rotated _)).trans (grows_stored line _)
  · exact (grows_written o).trans (grows_stored line _)
  · exact grows_stored line o

/-! ## What a logger owns -/

/-- A logger with this stem has opened parts under it, the first among them; as long as its mutex
can be had it writes one of them. -/
structure Owns (stem : List Char) (o : LogObject) : Prop where
  part : ∀ x ∈ o.opened, ∃ k, x = partialFileName stem k
  first : partialFileName stem 1 ∈ o.opened
  live : o.locked = true ∨
    o.Sound ∧ o.logger.originalFilename = stem ∧ o.logger.out ∈ o.opened

variable {stem : List Char} {o : LogObject}

/-- The invariant along `Grows`. -/
theorem Owns.grows {o' : LogObject} (h : o.Owns stem) (hstem : o.logger.originalFilename = stem)
    (hout : o.logger.out ∈ o.opened) (hgrows : Grows o o')
    (hlive : o'.locked = true ∨ o'.Sound) : o'.Owns stem where
  part := by
    intro x hx
    rcases hgrows.part x hx with hx | ⟨k, rfl⟩
    · exact h.part x hx
    · exact ⟨k, by rw [hstem]⟩
  first := hgrows.opened h.first
  live := hlive.imp id fun hs => ⟨hs, hgrows.stem.trans hstem, hgrows.out hout⟩

/-- What holds of a call on an object: it keeps what is owned, and changes nothing else. -/
structure Keeps (call : LogObject → LogObject) : Prop where
  owns : ∀ {stem o}, Owns stem o → (call o).Owns stem
  opened : ∀ {stem o}, Owns stem o → o.opened ⊆ (call o).opened
  disk : ∀ {stem o}, Owns stem o → ∀ x, x ∉ (call o).opened → (call o).disk x = o.disk x

theorem keeps_id : Keeps fun o => o where
  owns := id
  opened := fun _ => List.Subset.refl _
  disk := fun _ _ _ => rfl

/-- **Step.** What `Logline` leaves: the object itself, when the mutex is held, or one that it grows
to. -/
theorem afterLogline_cases (h : o.Owns stem) (line : CString) :
    o.afterLogline line = o ∨
    o.logger.originalFilename = stem ∧ o.logger.out ∈ o.opened ∧ Grows o (o.afterLogline line) ∧
      ((o.afterLogline line).locked = true ∨ (o.afterLogline line).Sound) := by
  unfold afterLogline
  rcases h.live with hlocked | ⟨hs, hstem, hout⟩
  · rw [logline_of_locked hlocked]
    exact Or.inl rfl
  · refine Or.inr ⟨hstem, hout, ?_⟩
    obtain ⟨-, hcall, hnext⟩ | ⟨hsplits, -⟩ := call_cases hs line
    · rw [hcall]
      exact ⟨grows_next line o, Or.inr hnext⟩
    · rw [logline_of_splitsAt hs hsplits]
      exact ⟨(grows_lock o).trans (grows_written _), Or.inl rfl⟩

theorem keeps_afterLogline (line : CString) : Keeps (afterLogline line) where
  owns := by
    intro stem o h
    rcases afterLogline_cases h line with heq | ⟨hstem, hout, hgrows, hlive⟩
    · rwa [heq]
    · exact h.grows hstem hout hgrows hlive
  opened := by
    intro stem o h
    rcases afterLogline_cases h line with heq | ⟨-, -, hgrows, -⟩
    · rw [heq]
      exact List.Subset.refl _
    · exact hgrows.opened
  disk := by
    intro stem o h x hx
    rcases afterLogline_cases h line with heq | ⟨-, hout, hgrows, -⟩
    · rw [heq]
    · exact hgrows.disk hout x hx

theorem keeps_afterLoglineF (n : Nat) (vsnprintf : Vsnprintf) :
    Keeps (afterLoglineF n vsnprintf) := by
  unfold afterLoglineF
  split
  · exact keeps_afterLogline _
  · exact keeps_id

/-- A new logger owns its first part, and has emptied nothing else. -/
theorem owns_construct {filename : CString} {disk : Disk} (h : construct filename disk = .ok o) :
    o.Owns filename.stem ∧ ∀ x, x ∉ o.opened → o.disk x = disk x := by
  obtain ⟨hs, -⟩ := sound_construct h
  obtain ⟨⟨l, disk₀⟩, hnew, h⟩ := exceptBind_ok h
  obtain rfl := Except.ok.inj h
  unfold Logger.construct at hnew
  split at hnew
  · exact absurd hnew (by simp)
  · obtain ⟨name, hname, hnew⟩ := exceptBind_ok hnew
    obtain ⟨rfl, rfl⟩ := Prod.mk.inj (Except.ok.inj hnew)
    obtain rfl := sprintfPartialFileName_ok hname
    refine ⟨⟨?_, List.mem_singleton_self _, Or.inr ⟨hs, rfl, List.mem_singleton_self _⟩⟩, ?_⟩
    · intro x hx
      exact ⟨1, List.mem_singleton.mp hx⟩
    · intro x hx
      exact Function.update_of_ne (fun heq => hx (List.mem_singleton.mpr heq)) _ _

end LogObject

/-! ## The map -/

/-- `Logger::s_loggers`, and the disk that all loggers write; what an object says about the disk is
renewed at each call. -/
structure Registry where
  loggers : CString → Option LogObject
  disk : Disk

/-- A call of `LogTo`, or of `LogToF` with a format and its arguments. -/
inductive LogCall where
  | logTo (filename logLine : CString)
  | logToF (filename : CString) (vsnprintf : Vsnprintf)

/-- The name that the call is about. -/
def LogCall.filename : LogCall → CString
  | .logTo filename _ => filename
  | .logToF filename _ => filename

namespace Registry

open LogObject

/-- Before the first call. -/
def start (disk : Disk) : Registry := ⟨fun _ => none, disk⟩

/-- `s_loggers[filename]`, with a new `Logger` where there is none. -/
def logger (reg : Registry) (filename : CString) : Except LogError LogObject :=
  match reg.loggers filename with
  | some o => .ok { o with disk := reg.disk }
  | none => construct filename reg.disk

/-- The lookup and a call on the logger that it finds; a constructor that throws leaves no entry. -/
def call (filename : CString) (f : LogObject → LogObject) (reg : Registry) : Registry :=
  match reg.logger filename with
  | .error _ => reg
  | .ok o =>
      { loggers := Function.update reg.loggers filename (some (f o))
        disk := (f o).disk }

/-- `Logger::LogTo` -/
def logTo (filename logLine : CString) : Registry → Registry := call filename (afterLogline logLine)

/-- `Logger::LogToF` -/
def logToF (n : Nat) (filename : CString) (vsnprintf : Vsnprintf) : Registry → Registry :=
  call filename (afterLoglineF n vsnprintf)

def step (n : Nat) (reg : Registry) : LogCall → Registry
  | .logTo filename logLine => reg.logTo filename logLine
  | .logToF filename vsnprintf => reg.logToF n filename vsnprintf

/-- Calls one after the other. -/
def run (n : Nat) (calls : List LogCall) (reg : Registry) : Registry := calls.foldl (step n) reg

/-- Every logger owns parts under its own stem. -/
def Named (reg : Registry) : Prop := ∀ f o, reg.loggers f = some o → o.Owns f.stem

variable {reg : Registry} {f g : CString} {o : LogObject}

/-- A step is a call that keeps what is owned. -/
theorem step_eq_call (n : Nat) (c : LogCall) :
    ∃ k, Keeps k ∧ ∀ reg : Registry, reg.step n c = reg.call c.filename k := by
  cases c with
  | logTo filename logLine => exact ⟨_, keeps_afterLogline logLine, fun _ => rfl⟩
  | logToF filename vsnprintf => exact ⟨_, keeps_afterLoglineF n vsnprintf, fun _ => rfl⟩

/-- What the lookup finds or makes. -/
theorem Named.logger (h : reg.Named) (hlog : reg.logger g = .ok o) :
    o.Owns g.stem ∧ ∀ x, x ∉ o.opened → o.disk x = reg.disk x := by
  unfold Registry.logger at hlog
  split at hlog
  · rename_i p hp
    obtain rfl := Except.ok.inj hlog
    obtain ⟨hpart, hfirst, hlive⟩ := h g p hp
    refine ⟨⟨hpart, hfirst, hlive.imp id ?_⟩, fun _ _ => rfl⟩
    rintro ⟨hs, hstem, hout⟩
    exact ⟨⟨hs.free, hs.size_le, hs.opened, hs.fileNums_pos, hs.fileNums_le, hs.name_lt⟩, hstem,
      hout⟩
  · exact owns_construct hlog

/-- **Step.** A call keeps the loggers named, -/
theorem Named.call {k : LogObject → LogObject} (h : reg.Named) (hk : Keeps k) (g : CString) :
    (reg.call g k).Named := by
  unfold Registry.call
  split
  · exact h
  · rename_i p hp
    obtain ⟨howns, -⟩ := h.logger hp
    intro f o hf
    have hf' : Function.update reg.loggers g (some (k p)) f = some o := hf
    by_cases hfg : f = g
    · subst hfg
      rw [Function.update_self] at hf'
      obtain rfl := Option.some.inj hf'
      exact hk.owns howns
    · rw [Function.update_of_ne hfg] at hf'
      exact h f o hf'

/-- and one under another stem leaves a logger and all its files alone. -/
theorem Named.call_frame {k : LogObject → LogObject} (h : reg.Named) (hk : Keeps k)
    (hne : f.stem ≠ g.stem) (hf : reg.loggers f = some o) :
    (reg.call g k).loggers f = some o ∧ ∀ x ∈ o.opened, (reg.call g k).disk x = reg.disk x := by
  unfold Registry.call
  split
  · exact ⟨hf, fun _ _ => rfl⟩
  · rename_i p hp
    obtain ⟨howns, hdisk⟩ := h.logger hp
    have hfg : f ≠ g := fun heq => hne (congrArg _ heq)
    refine ⟨(Function.update_of_ne hfg _ _).trans hf, ?_⟩
    intro x hx
    have hoff : x ∉ (k p).opened := by
      intro hmem
      obtain ⟨i, rfl⟩ := (h f o hf).part x hx
      obtain ⟨j, heq⟩ := (hk.owns howns).part _ hmem
      exact hne (partialFileName_inj heq)
    calc (k p).disk x = p.disk x := hk.disk howns x hoff
      _ = reg.disk x := hdisk x fun hmem => hoff (hk.opened howns hmem)

/-- **Run.** The loggers of a run are named. -/
theorem Named.run (n : Nat) (h : reg.Named) (calls : List LogCall) : (reg.run n calls).Named := by
  induction calls generalizing reg with
  | nil => exact h
  | cons c calls ih =>
      obtain ⟨k, hk, hstep⟩ := step_eq_call n c
      apply ih
      rw [hstep]
      exact h.call hk c.filename

theorem named_start (disk : Disk) : (start disk).Named := by
  intro f o hf
  exact absurd hf (by simp [start])

/-- No calls under `g` alone, however many, change a file that the logger of `f` has opened. -/
def Spares (n : Nat) (reg : Registry) (g f : CString) : Prop :=
  ∀ o, reg.loggers f = some o → ∀ calls, (∀ c ∈ calls, LogCall.filename c = g) →
    ∀ x ∈ o.opened, (reg.run n calls).disk x = reg.disk x

theorem Named.spares (n : Nat) (h : reg.Named) (hne : f.stem ≠ g.stem) : reg.Spares n g f := by
  intro o hf calls hcalls x hx
  induction calls generalizing reg with
  | nil => rfl
  | cons c calls ih =>
      obtain ⟨k, hk, hstep⟩ := step_eq_call n c
      obtain rfl := hcalls c List.mem_cons_self
      obtain ⟨hloggers, hdisk⟩ := h.call_frame hk hne hf
      have hrest := ih (h.call hk c.filename) hloggers fun d hd =>
        hcalls d (List.mem_cons_of_mem c hd)
      calc (reg.run n (c :: calls)).disk x
          = ((reg.call c.filename k).run n calls).disk x := by rw [← hstep]; rfl
        _ = (reg.call c.filename k).disk x := hrest
        _ = reg.disk x := hdisk x hx

/-- **Stems that agree** make both loggers open the same first part. -/
theorem Named.not_disjoint {p : LogObject} (h : reg.Named) (heq : f.stem = g.stem)
    (hf : reg.loggers f = some o) (hg : reg.loggers g = some p) :
    ¬ o.opened.Disjoint p.opened := by
  intro hdisj
  have hfirst := (h g p hg).first
  rw [← heq] at hfirst
  exact hdisj (h f o hf).first hfirst

/-- **Stems that differ** keep the opened files apart. -/
theorem Named.disjoint {p : LogObject} (h : reg.Named) (hne : f.stem ≠ g.stem)
    (hf : reg.loggers f = some o) (hg : reg.loggers g = some p) :
    o.opened.Disjoint p.opened := by
  intro x hx hx'
  obtain ⟨i, rfl⟩ := (h f o hf).part x hx
  obtain ⟨j, heq⟩ := (h g p hg).part _ hx'
  exact hne (partialFileName_inj heq)

/-- **When two loggers keep out of each other's files.**  After any calls, the files that the
loggers of two names have opened are disjoint, with no call under one name changing a file of the
other from then on, exactly when the names differ before their last four characters. -/
theorem opened_disjoint_iff (n : Nat) (calls : List LogCall) (disk : Disk) (f g : CString)
    (o p : LogObject) (hf : ((start disk).run n calls).loggers f = some o)
    (hg : ((start disk).run n calls).loggers g = some p) :
    (o.opened.Disjoint p.opened ∧ ((start disk).run n calls).Spares n g f ∧
      ((start disk).run n calls).Spares n f g) ↔ f.stem ≠ g.stem := by
  have hnamed := (named_start disk).run n calls
  constructor
  · rintro ⟨hdisj, -⟩ heq
    exact hnamed.not_disjoint heq hf hg hdisj
  · intro hne
    exact ⟨hnamed.disjoint hne hf hg, hnamed.spares n hne, hnamed.spares n hne.symm⟩

section Samples

/-- `b.clg` -/
def bClg : CString := ⟨['b', '.', 'c', 'l', 'g'], by decide⟩

/-- `a.csv` -/
def aCsv : CString := ⟨['a', '.', 'c', 's', 'v'], by decide⟩

/-- A line to `a.clg`, and one to another file. -/
def afterBoth (g : CString) : Registry :=
  (start fun _ => []).run 0 [.logTo sampleFilename okText, .logTo g okText]

theorem opened_disjoint_iff_sample : ∃ o p,
    (afterBoth bClg).loggers sampleFilename = some o ∧ (afterBoth bClg).loggers bClg = some p ∧
    ((o.opened.Disjoint p.opened ∧ (afterBoth bClg).Spares 0 bClg sampleFilename ∧
      (afterBoth bClg).Spares 0 sampleFilename bClg) ↔ sampleFilename.stem ≠ bClg.stem) := by
  have hf : ((afterBoth bClg).loggers sampleFilename).isSome = true := by decide
  have hg : ((afterBoth bClg).loggers bClg).isSome = true := by decide
  obtain ⟨o, ho⟩ := Option.isSome_iff_exists.mp hf
  obtain ⟨p, hp⟩ := Option.isSome_iff_exists.mp hg
  refine ⟨o, p, ho, hp, ?_⟩
  exact opened_disjoint_iff 0 _ (fun _ => []) sampleFilename bClg o p ho hp

/-- `a_001.clg` -/
def firstPart : List Char := ['a', '_', '0', '0', '1', '.', 'c', 'l', 'g']

/-- Two names of one stem: both loggers open the same file, each emptying it. -/
theorem one_file_for_two_names : sampleFilename ≠ aCsv ∧ ∃ o p,
    (afterBoth aCsv).loggers sampleFilename = some o ∧ (afterBoth aCsv).loggers aCsv = some p ∧
      firstPart ∈ o.opened ∧ firstPart ∈ p.opened ∧ ¬ o.opened.Disjoint p.opened := by
  have hnamed : (afterBoth aCsv).Named := (named_start _).run 0 _
  have hf : ((afterBoth aCsv).loggers sampleFilename).isSome = true := by decide
  have hg : ((afterBoth aCsv).loggers aCsv).isSome = true := by decide
  obtain ⟨o, ho⟩ := Option.isSome_iff_exists.mp hf
  obtain ⟨p, hp⟩ := Option.isSome_iff_exists.mp hg
  have hclg : partialFileName sampleFilename.stem 1 = firstPart := by decide
  have hcsv : partialFileName aCsv.stem 1 = firstPart := by decide
  exact ⟨by decide, o, p, ho, hp, hclg ▸ (hnamed _ o ho).first, hcsv ▸ (hnamed _ p hp).first,
    hnamed.not_disjoint (by decide) ho hp⟩

end Samples

end Registry

end PEReplay
