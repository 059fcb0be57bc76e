/-
# PEReplay.Log.Finalize — what the log files are once all loggers are deleted.

`Logger::Finalize` deletes the loggers one by one, in the order of the map, and clears the map.  A
destructor flushes, so it can wait for ever or throw, and the loop ends there.  `finalize` models
all three ends.

Where the names of the logs differ before their last four characters and no log is filled beyond its
capacity, none of that happens: `finalize_files` says that after any calls each log's parts are
the lines logged under its name, whatever the order of the deletions, and that nothing else on the
disk has changed.
-/
import PEReplay.Log.Capacity
import PEReplay.Log.Registry

namespace PEReplay

open Loop

/-- The line that a call hands to `Logline`. -/
def LogCall.Logs : LogCall → CString → Prop
  | .logTo _ logLine, line => logLine = line
  | .logToF _ vsnprintf, line =>
      Formats vsnprintf line ∧ line.chars ≠ [] ∧ line.chars.length < 2 ^ 30

/-- The lines logged under a name. -/
def linesOf (calls : List (LogCall × CString)) (f : CString) : List CString :=
  (calls.filter fun c => c.1.filename = f).map Prod.snd

/-- A name that the constructor takes. -/
def CString.NameFits (f : CString) : Prop :=
  4 ≤ f.chars.length ∧ f.chars.length + 4 < partialFileNameSize

/-- The first parts of a log are its lines, one part for each full 100 MB and one more at most; what
there was of later parts before is still there. -/
def WrittenOut (disk disk' : Disk) (f : CString) (lines : List CString) : Prop :=
  ∃ n, 0 < n ∧ n ≤ (logText lines).length / biggestFileSize.toNat + 1 ∧
    partTexts f.stem disk' n = logText lines ∧
    ∀ k : U32, n < k.toNat → disk' (partialFileName f.stem k) = disk (partialFileName f.stem k)

theorem WrittenOut.congr {disk disk₁ disk₂ : Disk} {f : CString} {lines : List CString}
    (h : WrittenOut disk disk₁ f lines)
    (hsame : ∀ k, disk₂ (partialFileName f.stem k) = disk₁ (partialFileName f.stem k)) :
    WrittenOut disk disk₂ f lines := by
  obtain ⟨n, hpos, hle, hparts, hlater⟩ := h
  refine ⟨n, hpos, hle, ?_, fun k hk => (hsame k).trans (hlater k hk)⟩
  rw [← hparts]
  exact List.flatMap_congr fun k _ => hsame _

namespace LogObject

/-! ## One logger among others -/

theorem exists_construct {f : CString} (h : f.NameFits) (disk : Disk) :
    ∃ o, construct f disk = .ok o := by
  have hlen : (partialFileName (f.chars.take (f.chars.length - 4)) 1).length <
      partialFileNameSize := by
    rw [length_partialFileName (by decide), List.length_take]
    obtain ⟨hlow, hhigh⟩ := h
    omega
  simp only [construct, Logger.construct, if_neg (not_lt.mpr h.1), sprintfPartialFileName,
    if_pos hlen]
  exact ⟨_, rfl⟩

section Frame

variable {o : LogObject} {lines : List CString}

/-- A logger's claim on the disk is about its own parts. -/
theorem Holds.with_disk {disk : Disk} (h : o.Holds lines)
    (hdisk : ∀ k, disk (partialFileName o.logger.originalFilename k) =
      o.disk (partialFileName o.logger.originalFilename k)) :
    ({ o with disk := disk } : LogObject).Holds lines := by
  obtain ⟨hs, hstores, hfull⟩ := h
  refine ⟨⟨hs.free, hs.size_le, hs.opened, hs.fileNums_pos, hs.fileNums_le, hs.name_lt⟩,
    ⟨hstores.out, hstores.fileNums_pos, hstores.size_le, ?_⟩, hfull⟩
  have hparts : o.logger.parts disk = o.logger.parts o.disk :=
    List.flatMap_congr fun k _ => hdisk _
  rw [← hstores.text, ← hparts]

/-- A flush leaves everything but the logger's own parts alone. -/
theorem Holds.disk_flushed (h : o.Holds lines) {x : List Char}
    (hx : ∀ k, x ≠ partialFileName o.logger.originalFilename k) : o.flushed.disk x = o.disk x := by
  have hout : x ≠ o.logger.out := fun heq => hx _ (heq.trans h.stores.out)
  have hwritten : o.written.disk x = o.disk x := Function.update_of_ne hout _ _
  unfold flushed
  split_ifs
  · exact (Function.update_of_ne (hx _) _ _).trans hwritten
  · exact hwritten

/-- A flush leaves the parts behind the open one alone, -/
theorem Holds.later_flushed (h : o.Holds lines) {k : U32}
    (hk : o.flushed.logger.fileNums.toNat < k.toNat) :
    o.logger.fileNums.toNat < k.toNat ∧
      o.flushed.disk (partialFileName o.logger.originalFilename k) =
        o.disk (partialFileName o.logger.originalFilename k) := by
  have hlt : o.logger.fileNums.toNat < k.toNat := by
    refine lt_of_le_of_lt ?_ hk
    unfold flushed
    split_ifs
    · exact (Nat.le_succ _).trans (toNat_fileNums_succ h.sound).ge
    · exact le_rfl
  have hout : partialFileName o.logger.originalFilename k ≠ o.logger.out := fun heq =>
    hlt.ne' (congrArg BitVec.toNat (partialFileName_injective _ (heq.trans h.stores.out)))
  have hwritten : o.written.disk (partialFileName o.logger.originalFilename k) =
      o.disk (partialFileName o.logger.originalFilename k) := Function.update_of_ne hout _ _
  refine ⟨hlt, ?_⟩
  unfold flushed at hk ⊢
  split_ifs at hk ⊢
  · have hnext : partialFileName o.logger.originalFilename k ≠ o.nextName := fun heq =>
      hk.ne' (congrArg BitVec.toNat (partialFileName_injective _ heq))
    exact (Function.update_of_ne hnext _ _).trans hwritten
  · exact hwritten

/-- and so does a line. -/
theorem Holds.later_next (h : o.Holds lines) {line : CString} {k : U32}
    (hk : (o.next line).logger.fileNums.toNat < k.toNat) :
    o.logger.fileNums.toNat < k.toNat ∧
      (o.next line).disk (partialFileName o.logger.originalFilename k) =
        o.disk (partialFileName o.logger.originalFilename k) := by
  rw [next_eq] at hk ⊢
  split_ifs at hk ⊢
  · exact h.later_flushed hk
  · exact ⟨hk, rfl⟩

theorem originalFilename_flushed (o : LogObject) :
    o.flushed.logger.originalFilename = o.logger.originalFilename := by
  unfold flushed
  split_ifs <;> rfl

end Frame

end LogObject

namespace Registry

open LogObject

/-! ## `Logger::Finalize` -/

/-- The loop over the entries of the map; `none` when a destructor waits for ever. -/
def deleteEach : List CString → Registry → Option (EStateM.Result LogError Registry Unit)
  | [], reg => some (.ok () reg)
  | f :: names, reg =>
      match reg.loggers f with
      | none => deleteEach names reg
      | some o =>
          match ({ o with disk := reg.disk } : LogObject).destroy with
          | none => none
          | some (.error e o') => some (.error e { reg with disk := o'.disk })
          | some (.ok _ o') => deleteEach names { reg with disk := o'.disk }

/-- `Logger::Finalize`, given the keys of the map in their order. -/
def finalize (names : List CString) (reg : Registry) :
    Option (EStateM.Result LogError Registry Unit) :=
  match deleteEach names reg with
  | some (.ok _ reg) => some (.ok () (start reg.disk))
  | r => r

/-! ## The invariant over all loggers -/

variable {reg : Registry} {lines : CString → List CString} {f g : CString}

/-- Every logger holds the lines of its name, and a name without a logger has none. -/
structure HoldsAll (reg : Registry) (lines : CString → List CString) : Prop where
  named : reg.Named
  entry : ∀ f o, reg.loggers f = some o →
    ({ o with disk := reg.disk } : LogObject).Holds (lines f)
  fresh : ∀ f, reg.loggers f = none → lines f = []

theorem HoldsAll.stem (h : reg.HoldsAll lines) {o : LogObject} (hf : reg.loggers f = some o) :
    o.logger.originalFilename = f.stem := by
  have hfree : o.locked = false := (h.entry f o hf).sound.free
  rcases (h.named f o hf).live with hlocked | ⟨-, hstem, -⟩
  · exact absurd (hfree.symm.trans hlocked) (by decide)
  · exact hstem

/-- What the lookup finds or makes, before its line. -/
structure Found (reg : Registry) (f : CString) (lines : List CString) (o : LogObject) : Prop where
  holds : o.Holds lines
  stem : o.logger.originalFilename = f.stem
  fileNums : ∀ p, reg.loggers f = some p → p.logger.fileNums = o.logger.fileNums
  later : ∀ k : U32, o.logger.fileNums.toNat < k.toNat →
    o.disk (partialFileName f.stem k) = reg.disk (partialFileName f.stem k)

theorem HoldsAll.logger (h : reg.HoldsAll lines) (hfits : f.NameFits) :
    ∃ o, reg.logger f = .ok o ∧ reg.Found f (lines f) o := by
  unfold Registry.logger
  cases hf : reg.loggers f with
  | some o =>
      have hstem : o.logger.originalFilename = f.stem := h.stem hf
      refine ⟨_, rfl, h.entry f o hf, hstem, fun p hp => ?_, fun _ _ => rfl⟩
      rw [Option.some.inj (hf.symm.trans hp)]
  | none =>
      obtain ⟨o, ho⟩ := exists_construct hfits reg.disk
      rw [h.fresh f hf]
      have hholds := holds_construct ho
      rcases (owns_construct ho).1.live with hlocked | ⟨-, hstem, -⟩
      · exact absurd (hholds.sound.free.symm.trans hlocked) (by decide)
      · refine ⟨o, ho, hholds, hstem, fun p hp => absurd (hf.symm.trans hp) (by simp), ?_⟩
        -- the one part that is emptied is the first
        obtain ⟨howns, hdisk⟩ := owns_construct ho
        obtain ⟨hs, hone⟩ := sound_construct ho
        have hlength : o.opened.length = 1 := by rw [hs.opened, hone]; rfl
        obtain ⟨x, hx⟩ := List.length_eq_one_iff.mp hlength
        have hfirst := howns.first
        rw [hx, List.mem_singleton] at hfirst
        intro k hk
        refine hdisk _ fun hmem => ?_
        rw [hx, List.mem_singleton, ← hfirst] at hmem
        rw [hone, partialFileName_injective _ hmem] at hk
        exact absurd hk (lt_irrefl _)

/-- A call changes parts under its own stem only. -/
theorem Named.call_disk {k : LogObject → LogObject} (h : reg.Named) (hk : Keeps k)
    {x : List Char} (hx : ∀ i, x ≠ partialFileName g.stem i) :
    (reg.call g k).disk x = reg.disk x := by
  unfold Registry.call
  split
  · rfl
  · rename_i p hp
    obtain ⟨howns, hdisk⟩ := h.logger hp
    have hoff : x ∉ (k p).opened := by
      intro hmem
      obtain ⟨j, heq⟩ := (hk.owns howns).part _ hmem
      exact hx j heq
    calc (k p).disk x = p.disk x := hk.disk howns x hoff
      _ = reg.disk x := hdisk x fun hmem => hoff (hk.opened howns hmem)

/-- A line below the capacity reaches the logger of its name. -/
theorem HoldsAll.logTo_eq (h : reg.HoldsAll lines) (hfits : g.NameFits)
    (hlt : (logText (lines g)).length < logCapacity) (line : CString) :
    ∃ o, reg.Found g (lines g) o ∧ reg.logTo g line =
      ⟨Function.update reg.loggers g (some (o.next line)), (o.next line).disk⟩ := by
  obtain ⟨o, ho, hfound⟩ := h.logger hfits
  have hcall : o.afterLogline line = o.next line := by
    rw [afterLogline, (hfound.holds.logline_ok hlt line).1]
    rfl
  exact ⟨o, hfound, by simp only [Registry.logTo, Registry.call, ho, hcall]⟩

section Step

variable (h : reg.HoldsAll lines) (hfits : g.NameFits) {line : CString}
  (hlt : (logText (lines g ++ [line])).length < logCapacity)

include hlt in
theorem length_lt_of_append : (logText (lines g)).length < logCapacity := by
  rw [logText_append_singleton, List.length_append] at hlt
  exact lt_of_le_of_lt (Nat.le_add_right _ _) hlt

include h hfits hlt

/-- **Step.** A line below the capacity goes to its own log, and to no other. -/
theorem HoldsAll.logTo (hstem : ∀ f, reg.loggers f ≠ none → f ≠ g → f.stem ≠ g.stem) :
    (reg.logTo g line).HoldsAll (Function.update lines g (lines g ++ [line])) := by
  obtain ⟨o, hfound, heq⟩ := h.logTo_eq hfits (length_lt_of_append hlt) line
  have hframe : ∀ x, (∀ i, x ≠ partialFileName g.stem i) →
      (o.next line).disk x = reg.disk x := by
    intro x hx
    have hdisk := h.named.call_disk (keeps_afterLogline line) hx
    rwa [← Registry.logTo, heq] at hdisk
  rw [heq]
  refine ⟨heq ▸ h.named.call (keeps_afterLogline line) g, ?_, ?_⟩
  · intro f p hf
    dsimp only at hf ⊢
    by_cases hfg : f = g
    · subst hfg
      rw [Function.update_self] at hf ⊢
      obtain rfl := Option.some.inj hf
      exact hfound.holds.next hlt
    · rw [Function.update_of_ne hfg] at hf ⊢
      refine (h.entry f p hf).with_disk fun k => hframe _ fun i heq => ?_
      refine hstem f (by simp [hf]) hfg ?_
      rw [← h.stem hf]
      exact partialFileName_inj heq
  · intro f hf
    dsimp only at hf
    by_cases hfg : f = g
    · subst hfg
      exact absurd hf (by simp)
    · rw [Function.update_of_ne hfg] at hf ⊢
      exact h.fresh f hf

/-- The name then has a logger, -/
theorem HoldsAll.logTo_ne_none (f : CString) :
    (reg.logTo g line).loggers f ≠ none ↔ reg.loggers f ≠ none ∨ f = g := by
  obtain ⟨o, -, heq⟩ := h.logTo_eq hfits (length_lt_of_append hlt) line
  rw [heq]
  dsimp only
  by_cases hfg : f = g
  · subst hfg
    simp
  · rw [Function.update_of_ne hfg]
    simp [hfg]

/-- and parts behind its open one are as they were. -/
theorem HoldsAll.logTo_later {p : LogObject} (hp : (reg.logTo g line).loggers g = some p)
    {k : U32} (hk : p.logger.fileNums.toNat < k.toNat) :
    (∀ q, reg.loggers g = some q → q.logger.fileNums.toNat < k.toNat) ∧
      (reg.logTo g line).disk (partialFileName g.stem k) =
        reg.disk (partialFileName g.stem k) := by
  obtain ⟨o, hfound, heq⟩ := h.logTo_eq hfits (length_lt_of_append hlt) line
  rw [heq] at hp ⊢
  dsimp only at hp ⊢
  rw [Function.update_self] at hp
  obtain rfl := Option.some.inj hp
  obtain ⟨hlater, hdisk⟩ := hfound.holds.later_next hk
  rw [hfound.stem] at hdisk
  refine ⟨fun q hq => ?_, hdisk.trans (hfound.later k hlater)⟩
  rw [hfound.fileNums q hq]
  exact hlater

end Step

/-! ## Runs -/

theorem linesOf_append (calls : List (LogCall × CString)) (c : LogCall × CString) :
    linesOf (calls ++ [c]) = Function.update (linesOf calls) c.1.filename
      (linesOf calls c.1.filename ++ [c.2]) := by
  funext f
  by_cases hf : f = c.1.filename
  · subst hf
    rw [Function.update_self]
    simp [linesOf]
  · rw [Function.update_of_ne hf]
    simp [linesOf, Ne.symm hf]

theorem length_linesOf_le (calls : List (LogCall × CString)) (c : LogCall × CString)
    (f : CString) :
    (logText (linesOf calls f)).length ≤ (logText (linesOf (calls ++ [c]) f)).length := by
  simp only [linesOf, List.filter_append, List.map_append, logText, List.flatMap_append,
    List.length_append]
  exact Nat.le_add_right _ _

/-- With enough fuel for its format, a call is `logTo` of its line. -/
theorem step_eq_logTo {c : LogCall × CString} (h : c.1.Logs c.2) :
    ∃ n, ∀ m, n ≤ m → ∀ reg : Registry, reg.step m c.1 = reg.logTo c.1.filename c.2 := by
  obtain ⟨c, line⟩ := c
  cases c with
  | logTo filename logLine =>
      obtain rfl : logLine = line := h
      exact ⟨0, fun _ _ _ => rfl⟩
  | logToF filename vsnprintf =>
      obtain ⟨hformats, hne, hlen⟩ := h
      obtain ⟨n, hn⟩ := formatLine_of_ne_nil hformats hlen hne
      refine ⟨n, fun m hle reg => ?_⟩
      have hline : formatLine m vsnprintf = some (.ok line) := hn m hle
      have hcall : afterLoglineF m vsnprintf = afterLogline line := by
        funext o
        simp only [afterLoglineF, hline]
      rw [Registry.step, Registry.logToF, hcall]
      rfl

theorem run_append (n : Nat) (reg : Registry) (calls : List LogCall) (c : LogCall) :
    reg.run n (calls ++ [c]) = (reg.run n calls).step n c := by
  simp only [Registry.run, List.foldl_append, List.foldl_cons, List.foldl_nil]

/-- What the calls of a run log, their names and their texts are as the loggers can take them. -/
structure Loggable (calls : List (LogCall × CString)) : Prop where
  logs : ∀ c ∈ calls, c.1.Logs c.2
  fits : ∀ c ∈ calls, c.1.filename.NameFits
  stems : ∀ c ∈ calls, ∀ d ∈ calls, c.1.filename ≠ d.1.filename →
    c.1.filename.stem ≠ d.1.filename.stem
  capacity : ∀ f, (logText (linesOf calls f)).length < logCapacity

theorem Loggable.of_append {calls : List (LogCall × CString)} {c : LogCall × CString}
    (h : Loggable (calls ++ [c])) : Loggable calls where
  logs := fun d hd => h.logs d (List.mem_append_left _ hd)
  fits := fun d hd => h.fits d (List.mem_append_left _ hd)
  stems := fun d hd e he => h.stems d (List.mem_append_left _ hd) e (List.mem_append_left _ he)
  capacity := fun f => lt_of_le_of_lt (length_linesOf_le calls c f) (h.capacity f)

/-- The loggers after a run: each holds its lines, there is one for each name, parts behind the open
ones have not changed, and no other file has. -/
structure Logged (calls : List (LogCall × CString)) (disk : Disk) (reg : Registry) : Prop where
  holds : reg.HoldsAll (linesOf calls)
  names : ∀ f, reg.loggers f ≠ none ↔ ∃ c ∈ calls, c.1.filename = f
  later : ∀ f o, reg.loggers f = some o → ∀ k : U32, o.logger.fileNums.toNat < k.toNat →
    reg.disk (partialFileName f.stem k) = disk (partialFileName f.stem k)
  frame : ∀ x, (∀ c ∈ calls, ∀ k, x ≠ partialFileName c.1.filename.stem k) → reg.disk x = disk x

theorem logged_start (disk : Disk) : Logged [] disk (start disk) where
  holds :=
    { named := named_start disk
      entry := fun f o hf => absurd hf (by simp [start])
      fresh := fun _ _ => rfl }
  names := by simp [start]
  later := fun f o hf => absurd hf (by simp [start])
  frame := fun _ _ => rfl

/-- One more call. -/
theorem Logged.logTo {calls : List (LogCall × CString)} {c : LogCall × CString} {disk : Disk}
    (h : Loggable (calls ++ [c])) (hlogged : Logged calls disk reg) :
    Logged (calls ++ [c]) disk (reg.logTo c.1.filename c.2) := by
  have hmem : c ∈ calls ++ [c] := List.mem_append_right _ (List.mem_singleton_self c)
  have hstems : ∀ f, reg.loggers f ≠ none → f ≠ c.1.filename →
      f.stem ≠ c.1.filename.stem := by
    intro f hf hne
    obtain ⟨d, hd, rfl⟩ := (hlogged.names f).mp hf
    exact h.stems d (List.mem_append_left _ hd) c hmem hne
  have hlt : (logText (linesOf calls c.1.filename ++ [c.2])).length < logCapacity := by
    have hlt := h.capacity c.1.filename
    rwa [linesOf_append, Function.update_self] at hlt
  have hframe : ∀ x, (∀ k, x ≠ partialFileName c.1.filename.stem k) →
      (reg.logTo c.1.filename c.2).disk x = reg.disk x :=
    fun x hx => hlogged.holds.named.call_disk (keeps_afterLogline c.2) hx
  have hnames := hlogged.holds.logTo_ne_none (h.fits c hmem) hlt
  refine ⟨?_, fun f => ?_, fun f o hf k hk => ?_, fun x hx => ?_⟩
  · rw [linesOf_append]
    exact hlogged.holds.logTo (h.fits c hmem) hlt hstems
  · rw [hnames, hlogged.names]
    simp only [List.mem_append, List.mem_singleton, or_and_right, exists_or, exists_eq_left]
    exact or_congr_right eq_comm
  · by_cases hfc : f = c.1.filename
    · subst hfc
      obtain ⟨hbehind, hdisk⟩ := hlogged.holds.logTo_later (h.fits c hmem) hlt hf hk
      rw [hdisk]
      cases hold : reg.loggers c.1.filename with
      | some q => exact hlogged.later _ q hold k (hbehind q hold)
      | none =>
          refine hlogged.frame _ fun d hd i heq => ?_
          have hne : d.1.filename ≠ c.1.filename := by
            rintro heq
            exact (hlogged.names c.1.filename).mpr ⟨d, hd, heq⟩ hold
          exact h.stems d (List.mem_append_left _ hd) c hmem hne (partialFileName_inj heq).symm
    · have hold : reg.loggers f = some o := by
        obtain ⟨p, -, heq⟩ := hlogged.holds.logTo_eq (h.fits c hmem)
          (length_lt_of_append hlt) c.2
        rw [heq] at hf
        exact (Function.update_of_ne hfc _ _).symm.trans hf
      rw [hframe _ fun i heq => hstems f (by simp [hold]) hfc (partialFileName_inj heq)]
      exact hlogged.later f o hold k hk
  · rw [hframe x (hx c hmem)]
    exact hlogged.frame x fun d hd => hx d (List.mem_append_left _ hd)

/-- **Run.** -/
theorem logged_run {calls : List (LogCall × CString)} (h : Loggable calls) (disk : Disk) :
    ∃ reg, Logged calls disk reg ∧
      Computes (fun n => some ((start disk).run n (calls.map Prod.fst))) reg := by
  induction calls using List.reverseRecOn with
  | nil => exact ⟨start disk, logged_start disk, computes_some _⟩
  | append_singleton calls c ih =>
      obtain ⟨reg, hlogged, n, hn⟩ := ih h.of_append
      have hmem : c ∈ calls ++ [c] := List.mem_append_right _ (List.mem_singleton_self c)
      obtain ⟨m, hm⟩ := step_eq_logTo (h.logs c hmem)
      refine ⟨reg.logTo c.1.filename c.2, hlogged.logTo h, max n m, fun k hle => ?_⟩
      have hprev := Option.some.inj (hn k (le_trans (Nat.le_max_left n m) hle))
      dsimp only
      rw [List.map_append, List.map_singleton, run_append, hprev,
        hm k (le_trans (Nat.le_max_right n m) hle)]

/-! ## The deletions -/

/-- The logger of `f` holds `ls`, and the parts behind its open one are those of `disk`. -/
structure Ready (disk : Disk) (reg : Registry) (f : CString) (ls : List CString) (o : LogObject) :
    Prop where
  logger : reg.loggers f = some o
  stem : o.logger.originalFilename = f.stem
  holds : ({ o with disk := reg.disk } : LogObject).Holds ls
  later : ∀ k : U32, o.logger.fileNums.toNat < k.toNat →
    reg.disk (partialFileName f.stem k) = disk (partialFileName f.stem k)

section Delete

variable {disk disk₁ : Disk} {f : CString} {ls : List CString} {o : LogObject}

/-- Only the files with its own stem matter to a logger. -/
theorem Ready.with_disk (h : Ready disk reg f ls o)
    (hsame : ∀ k, disk₁ (partialFileName f.stem k) = reg.disk (partialFileName f.stem k)) :
    Ready disk { reg with disk := disk₁ } f ls o where
  logger := h.logger
  stem := h.stem
  holds := h.holds.with_disk fun k => by
    rw [h.stem]
    exact hsame k
  later := fun k hk => (hsame k).trans (h.later k hk)

/-- **One deletion.** -/
theorem Ready.delete (h : Ready disk reg f ls o) (hlt : (logText ls).length < logCapacity)
    (names : List CString) : ∃ disk₁,
      deleteEach (f :: names) reg = deleteEach names { reg with disk := disk₁ } ∧
      WrittenOut disk disk₁ f ls ∧
      ∀ x, (∀ k, x ≠ partialFileName f.stem k) → disk₁ x = reg.disk x := by
  have hholds := h.holds
  refine ⟨_, ?_, ?_, fun x hx => hholds.disk_flushed fun k => ?_⟩
  · simp only [deleteEach, h.logger, hholds.destroy_ok hlt]
  · refine ⟨_, (hholds.stores_flushed hlt).1.fileNums_pos, hholds.fileNums_flushed hlt, ?_,
      fun k hk => ?_⟩
    · rw [← hholds.parts_flushed hlt, Logger.parts_eq, originalFilename_flushed]
      dsimp only
      rw [h.stem]
    · obtain ⟨hbehind, hdisk⟩ := hholds.later_flushed hk
      dsimp only at hbehind hdisk
      rw [h.stem] at hdisk
      exact hdisk.trans (h.later k hbehind)
  · dsimp only
    rw [h.stem]
    exact hx k

end Delete

/-- **Loop.** Deleting loggers with different stems, in any order, writes out each of them. -/
theorem deleteEach_ok {disk : Disk} {names : List CString} (hnodup : names.Nodup)
    (hready : ∀ f ∈ names, ∃ o, Ready disk reg f (lines f) o)
    (hstems : ∀ f ∈ names, ∀ g ∈ names, f ≠ g → f.stem ≠ g.stem)
    (hlt : ∀ f ∈ names, (logText (lines f)).length < logCapacity) :
    ∃ disk', deleteEach names reg = some (.ok () { reg with disk := disk' }) ∧
      (∀ f ∈ names, WrittenOut disk disk' f (lines f)) ∧
      ∀ x, (∀ f ∈ names, ∀ k, x ≠ partialFileName f.stem k) → disk' x = reg.disk x := by
  induction names generalizing reg with
  | nil => exact ⟨reg.disk, rfl, fun f hf => absurd hf List.not_mem_nil, fun _ _ => rfl⟩
  | cons f names ih =>
      obtain ⟨hnot, hnodup⟩ := List.nodup_cons.mp hnodup
      obtain ⟨o, ho⟩ := hready f List.mem_cons_self
      obtain ⟨disk₁, hdelete, hwritten, hframe⟩ := ho.delete (hlt f List.mem_cons_self) names
      have hne : ∀ g ∈ names, f.stem ≠ g.stem := fun g hg =>
        hstems f List.mem_cons_self g (List.mem_cons_of_mem f hg) fun heq => hnot (heq ▸ hg)
      -- the rest of the loop finds its loggers as they were
      have hrest : ∀ g ∈ names, ∃ o, Ready disk { reg with disk := disk₁ } g (lines g) o := by
        intro g hg
        obtain ⟨q, hq⟩ := hready g (List.mem_cons_of_mem f hg)
        exact ⟨q, hq.with_disk fun k =>
          hframe _ fun i heq => hne g hg (partialFileName_inj heq).symm⟩
      obtain ⟨disk', hdeleteRest, hwrittenRest, hframeRest⟩ := ih hnodup hrest
        (fun g hg h hh => hstems g (List.mem_cons_of_mem f hg) h (List.mem_cons_of_mem f hh))
        fun g hg => hlt g (List.mem_cons_of_mem f hg)
      refine ⟨disk', hdelete.trans hdeleteRest, ?_, fun x hx => ?_⟩
      · refine List.forall_mem_cons.mpr ⟨hwritten.congr fun k => ?_, hwrittenRest⟩
        exact hframeRest _ fun g hg i heq => hne g hg (partialFileName_inj heq)
      · exact (hframeRest x fun g hg => hx g (List.mem_cons_of_mem f hg)).trans
          (hframe x (hx f List.mem_cons_self))

/-- **The end of a run.** -/
theorem Logged.finalize {calls : List (LogCall × CString)} {disk : Disk} (h : Loggable calls)
    (hlogged : Logged calls disk reg) {names : List CString} (hnodup : names.Nodup)
    (hnames : ∀ f, f ∈ names ↔ ∃ c ∈ calls, c.1.filename = f) :
    ∃ disk', reg.finalize names = some (.ok () (start disk')) ∧
      (∀ f ∈ names, WrittenOut disk disk' f (linesOf calls f)) ∧
      ∀ x, (∀ f ∈ names, ∀ k, x ≠ partialFileName f.stem k) → disk' x = disk x := by
  have hready : ∀ f ∈ names, ∃ o, Ready disk reg f (linesOf calls f) o := by
    intro f hf
    obtain ⟨o, ho⟩ := Option.ne_none_iff_exists'.mp ((hlogged.names f).mpr ((hnames f).mp hf))
    exact ⟨o, ho, hlogged.holds.stem ho, hlogged.holds.entry f o ho, hlogged.later f o ho⟩
  have hstems : ∀ f ∈ names, ∀ g ∈ names, f ≠ g → f.stem ≠ g.stem := by
    intro f hf g hg
    obtain ⟨c, hc, rfl⟩ := (hnames f).mp hf
    obtain ⟨d, hd, rfl⟩ := (hnames g).mp hg
    exact h.stems c hc d hd
  obtain ⟨disk', hdelete, hwritten, hframe⟩ :=
    deleteEach_ok hnodup hready hstems fun f _ => h.capacity f
  refine ⟨disk', by rw [Registry.finalize, hdelete], hwritten, fun x hx => ?_⟩
  rw [hframe x hx]
  exact hlogged.frame x fun c hc => hx c.1.filename ((hnames _).mpr ⟨c, hc, rfl⟩)

/-- **After `Finalize` the files are the logs.**  After any calls, the loggers are deleted, in
whatever order the map has them, with no destructor throwing or waiting: the parts of each log are
the lines logged under its name, and every other file is as it was. -/
theorem finalize_files (calls : List (LogCall × CString)) (h : Loggable calls) (disk : Disk)
    (names : List CString) (hnodup : names.Nodup)
    (hnames : ∀ f, f ∈ names ↔ ∃ c ∈ calls, c.1.filename = f) :
    ∃ disk', Computes (fun n => ((start disk).run n (calls.map Prod.fst)).finalize names)
        (.ok () (start disk')) ∧
      (∀ f ∈ names, WrittenOut disk disk' f (linesOf calls f)) ∧
      ∀ x, (∀ f ∈ names, ∀ k, x ≠ partialFileName f.stem k) → disk' x = disk x := by
  obtain ⟨reg, hlogged, n, hn⟩ := logged_run h disk
  obtain ⟨disk', hfinalize, hfiles⟩ := hlogged.finalize h hnodup hnames
  refine ⟨disk', ⟨n, fun m hle => ?_⟩, hfiles⟩
  dsimp only
  rw [Option.some.inj (hn m hle), hfinalize]

section Samples

/-- A line to `a.clg`, and a formatted one to `b.clg`. -/
def sampleCalls : List (LogCall × CString) :=
  [(.logTo sampleFilename okText, okText), (.logToF bClg (vsnprintfOf okText.chars), okText)]

theorem loggable_sampleCalls : Loggable sampleCalls where
  logs := by
    simp only [sampleCalls, List.forall_mem_cons, LogCall.Logs, true_and]
    exact ⟨⟨formats_vsnprintfOf okText, by decide, by decide⟩, by simp⟩
  fits := by
    simp only [sampleCalls, List.forall_mem_cons]
    exact ⟨⟨by decide, by decide⟩, ⟨by decide, by decide⟩, by simp⟩
  stems := by
    have hne : sampleFilename.stem ≠ bClg.stem := by decide
    simp [sampleCalls, LogCall.filename, hne, hne.symm]
  capacity := by
    intro f
    simp only [linesOf, sampleCalls, LogCall.filename, List.filter_cons, List.filter_nil]
    split_ifs <;> decide

theorem finalize_files_sample :
    ∃ disk', Computes (fun n => ((start fun _ => []).run n (sampleCalls.map Prod.fst)).finalize
        [bClg, sampleFilename]) (.ok () (start disk')) ∧
      (∀ f ∈ [bClg, sampleFilename],
        WrittenOut (fun _ => []) disk' f (linesOf sampleCalls f)) ∧
      ∀ x, (∀ f ∈ [bClg, sampleFilename], ∀ k, x ≠ partialFileName f.stem k) → disk' x = [] :=
  finalize_files sampleCalls loggable_sampleCalls (fun _ => []) [bClg, sampleFilename] (by decide)
    (by simp [sampleCalls, LogCall.filename, eq_comm, or_comm])

end Samples

end Registry

end PEReplay
