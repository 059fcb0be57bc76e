/-
# PEReplay.Image.RelocTargets — what `AnalyzeRelocationEntry` collects.

The inner loop runs to `block_len`, which counts the header, while it reads from behind the header:
it interprets the block's own entries and the four words behind the block.  `computes_relocItems`
says so for every well-formed section; from it follows exactly when the collected set is the right
one (`collectsTargets_iff`): those four words must be readable, and where they look like an entry of
type 3 they must not add a target.
-/
import PEReplay.Image.Relocation

namespace PEReplay

namespace ImageInfo

open Loop

/-! ## One entry -/

/-- Reading the word at `addr` as an entry does not throw. -/
def Readable (im : ImageInfo) (pageRva addr : U32) : Prop :=
  im.isAddrMappedImp addr = true ∧
    (im.IsHighLowAt addr → im.isAddrMappedImp (im.entryTargetAddress pageRva addr) = true)

instance (im : ImageInfo) (pageRva addr : U32) : Decidable (im.Readable pageRva addr) :=
  inferInstanceAs (Decidable (_ ∧ _))

/-- **What one entry does**: it throws, or adds what the word stands for. -/
theorem relocItem_eq_ok (im : ImageInfo) (pageRva addr : U32) (s s' : RelocState) :
    im.relocItem pageRva addr s = .ok s' ↔ im.Readable pageRva addr ∧
      s' = ⟨s.targets ∪ (im.entryTargets pageRva addr).toFinset, s.items ++ [addr]⟩ := by
  unfold relocItem secureDereference Readable entryTargets IsHighLowAt entryTargetAddress
  by_cases hmapped : im.isAddrMappedImp addr = true
  · by_cases hhigh : isHighLow (im.mem.read16 addr) = true
    · by_cases htarget :
          im.isAddrMappedImp (im.itemAddress pageRva (im.mem.read16 addr)) = true
      · by_cases hin : im.isAddrWithinModule
            (im.mem.read32 (im.itemAddress pageRva (im.mem.read16 addr))) = true
        · simp only [hmapped, hhigh, htarget, hin, bind, Except.bind, pure, Except.pure, if_true,
            List.toFinset_cons, List.toFinset_nil, insert_empty_eq, Finset.union_singleton,
            implies_true, and_self, true_and, Except.ok.injEq]
          exact eq_comm
        · simp only [hmapped, hhigh, htarget, hin, bind, Except.bind, pure, Except.pure, if_true,
            List.toFinset_nil, Finset.union_empty, implies_true, and_self, true_and,
            Except.ok.injEq, Bool.false_eq_true, if_false]
          exact eq_comm
      · simp [hmapped, hhigh, htarget, bind, Except.bind]
    · simp only [hmapped, hhigh, bind, Except.bind, pure, Except.pure, if_true, Bool.false_eq_true,
        if_false, List.toFinset_nil, Finset.union_empty, false_implies, and_self, true_and,
        Except.ok.injEq]
      exact eq_comm
  · simp [hmapped, bind, Except.bind]

/-- The entries interpreted, each with the page address of the block it is read for. -/
abbrev Item := U32 × U32

/-- Interpret a list of entries, up to the first that throws. -/
def relocItems (im : ImageInfo) (items : List Item) (s : RelocState) :
    Except InsecureDereference RelocState :=
  items.foldlM (fun s item => im.relocItem item.1 item.2 s) s

theorem relocItems_append (im : ImageInfo) (items items' : List Item) (s : RelocState) :
    im.relocItems (items ++ items') s = im.relocItems items s >>= im.relocItems items' :=
  List.foldlM_append

/-- **A list of entries** goes through exactly when each is readable. -/
theorem relocItems_eq_ok (im : ImageInfo) (items : List Item) (s s' : RelocState) :
    im.relocItems items s = .ok s' ↔ (∀ item ∈ items, im.Readable item.1 item.2) ∧
      s' = ⟨s.targets ∪ (items.flatMap fun item => im.entryTargets item.1 item.2).toFinset,
        s.items ++ items.map Prod.snd⟩ := by
  induction items generalizing s with
  | nil => simp [relocItems, pure, Except.pure, eq_comm]
  | cons item items ih =>
      have hcons : im.relocItems (item :: items) s =
          im.relocItem item.1 item.2 s >>= im.relocItems items := List.foldlM_cons
      rw [hcons]
      constructor
      · intro h
        cases hitem : im.relocItem item.1 item.2 s with
        | error e =>
            rw [hitem] at h
            exact absurd h (by simp [bind, Except.bind])
        | ok s₁ =>
            rw [hitem] at h
            obtain ⟨hread, rfl⟩ := (relocItem_eq_ok im _ _ _ _).mp hitem
            obtain ⟨hrest, rfl⟩ := (ih _).mp h
            refine ⟨fun it hit => ?_, ?_⟩
            · rcases List.mem_cons.mp hit with rfl | hit
              · exact hread
              · exact hrest it hit
            · simp [Finset.union_assoc, List.toFinset_append]
      · rintro ⟨hread, rfl⟩
        have hitem := (relocItem_eq_ok im item.1 item.2 s _).mpr
          ⟨hread item List.mem_cons_self, rfl⟩
        rw [hitem]
        refine (ih _).mpr ⟨fun it hit => hread it (List.mem_cons_of_mem _ hit), ?_⟩
        simp [Finset.union_assoc, List.toFinset_append]

/-! ## The loop over one block -/

/-- The addresses the inner loop reads from index `i` on, `k` of them. -/
def loopAddrs (addr i : U32) : Nat → List U32
  | 0 => []
  | k + 1 => (addr + i + 8) :: loopAddrs addr (i + 2) k

theorem loopAddrs_eq_map (addr i : U32) (k : Nat) :
    loopAddrs addr i k = (List.range k).map fun j => addr + i + 8 + BitVec.ofNat 32 (2 * j) := by
  induction k generalizing i with
  | zero => rfl
  | succ k ih =>
      rw [loopAddrs, ih, List.range_succ_eq_map, List.map_cons, List.map_map]
      apply congrArg₂ List.cons
      · simp
      · refine List.map_congr_left fun j _ => ?_
        show addr + (i + 2) + 8 + BitVec.ofNat 32 (2 * j) =
          addr + i + 8 + BitVec.ofNat 32 (2 * (j + 1))
        bv_omega

/-- **`k` passes of the inner loop** interpret the `k` words from index `i` on. -/
theorem forLoop_items (im : ImageInfo) (addr base len : U32) (k n : Nat) (i : U32)
    (s : RelocState) (hi : i.toNat + 2 * k ≤ len.toNat + 1) :
    whileLoop (im.forBody addr base len) (n + k) (i, s) =
      match im.relocItems ((loopAddrs addr i k).map fun a => (base, a)) s with
      | .error e => some (.error e)
      | .ok s' => whileLoop (im.forBody addr base len) n (i + BitVec.ofNat 32 (2 * k), s') := by
  induction k generalizing i s with
  | zero =>
      have hindex : i + BitVec.ofNat 32 (2 * 0) = i := by simp
      rw [hindex]
      rfl
  | succ k ih =>
      have hlt : i < len := by bv_omega
      have hnext : (i + 2).toNat + 2 * k ≤ len.toNat + 1 := by
        have := len.isLt
        bv_omega
      have hindex : i + 2 + BitVec.ofNat 32 (2 * k) = i + BitVec.ofNat 32 (2 * (k + 1)) := by
        bv_omega
      have hcons : im.relocItems ((loopAddrs addr i (k + 1)).map fun a => (base, a)) s =
          im.relocItem base (addr + i + 8) s >>=
            im.relocItems ((loopAddrs addr (i + 2) k).map fun a => (base, a)) :=
        List.foldlM_cons
      rw [hcons]
      cases hitem : im.relocItem base (addr + i + 8) s with
      | error e =>
          refine whileLoop_exit (n := n + k) ?_
          simp only [forBody, if_pos hlt, hitem]
      | ok s₁ =>
          have hbody : im.forBody addr base len (i, s) = some (.next (i + 2, s₁)) := by
            simp only [forBody, if_pos hlt, hitem]
          rw [show n + (k + 1) = n + k + 1 from rfl, whileLoop_next hbody, ih (i + 2) s₁ hnext,
            hindex]
          rfl

/-- **The inner loop** interprets the words from `i` up to `block_len`, the last of them also when
`block_len` is odd. -/
theorem forLoop_eq_ceil (im : ImageInfo) (addr base len : U32) (k n : Nat) (i : U32)
    (s : RelocState) (hle : len.toNat ≤ i.toNat + 2 * k) (hi : i.toNat + 2 * k ≤ len.toNat + 1)
    (hwrap : i.toNat + 2 * k < 2 ^ 32) (hn : k < n) :
    whileLoop (im.forBody addr base len) n (i, s) =
      some (im.relocItems ((loopAddrs addr i k).map fun a => (base, a)) s) := by
  obtain ⟨m, rfl⟩ : ∃ m, n = m + 1 + k := ⟨n - 1 - k, by omega⟩
  rw [forLoop_items im addr base len k (m + 1) i s hi]
  cases im.relocItems ((loopAddrs addr i k).map fun a => (base, a)) s with
  | error e => rfl
  | ok s' =>
      have hdone : ¬ i + BitVec.ofNat 32 (2 * k) < len := by bv_omega
      refine whileLoop_exit ?_
      simp only [forBody, if_neg hdone]

theorem forLoop_eq (im : ImageInfo) (addr base len : U32) (k n : Nat) (i : U32) (s : RelocState)
    (hi : i.toNat + 2 * k = len.toNat) (hn : k < n) :
    whileLoop (im.forBody addr base len) n (i, s) =
      some (im.relocItems ((loopAddrs addr i k).map fun a => (base, a)) s) :=
  forLoop_eq_ceil im addr base len k n i s (by omega) (by omega) (by have := len.isLt; omega) hn

/-- The entries interpreted for one block: its own and the four words behind it. -/
def blockItems (b : RelocBlock) : List Item :=
  (b.entryAddrs ++ b.trailingAddrs).map fun a => (b.pageRva, a)

theorem loopAddrs_block {b : RelocBlock} (h : 8 ≤ b.blockSize.toNat)
    (haligned : b.blockSize.toNat % 4 = 0) :
    loopAddrs b.addr 0 (b.blockSize.toNat / 2) = b.entryAddrs ++ b.trailingAddrs := by
  have hsplit : b.blockSize.toNat / 2 = (b.blockSize.toNat - 8) / 2 + 4 := by omega
  rw [loopAddrs_eq_map, hsplit, List.range_add, List.map_append, List.map_map]
  apply congrArg₂ List.append
  · refine List.map_congr_left fun j _ => ?_
    bv_omega
  · refine List.map_congr_left fun j hj => ?_
    have hj' : j < 4 := List.mem_range.mp hj
    have := b.blockSize.isLt
    show b.addr + 0 + 8 + BitVec.ofNat 32 (2 * ((b.blockSize.toNat - 8) / 2 + j)) =
      b.addr + b.blockSize + BitVec.ofNat 32 (2 * j)
    have hnat : 2 * ((b.blockSize.toNat - 8) / 2 + j) = b.blockSize.toNat - 8 + 2 * j := by omega
    rw [hnat]
    bv_omega

/-! ## The loop over the section -/

theorem isAddrMappedImp_of_lt {im : ImageInfo} {addr : U32}
    (hmapped : im.address.toNat + im.size.toNat < 2 ^ 32) (hge : im.address.toNat ≤ addr.toNat)
    (hlt : addr.toNat < im.address.toNat + im.size.toNat) : im.isAddrMappedImp addr = true := by
  simp only [isAddrMappedImp, Bool.and_eq_true, decide_eq_true_eq]
  bv_omega

/-- **One pass** of the outer loop at a header that is there and is not the last. -/
theorem whileBody_eq {im : ImageInfo} {sectionEnd addr : U32} (hbelow : addr < sectionEnd)
    (hpage : im.isAddrMappedImp addr = true) (hsize : im.isAddrMappedImp (addr + 4) = true)
    (hheader : ¬ (im.mem.read32 addr = 0 ∧ im.mem.read32 (addr + 4) = 0)) (n : Nat)
    (s : RelocState) :
    im.whileBody n sectionEnd (addr, s) =
      match whileLoop (im.forBody addr (im.mem.read32 addr) (im.mem.read32 (addr + 4))) n
          (0, s) with
      | none => none
      | some (.error e) => some (.exit (.error e))
      | some (.ok s') => some (.next (addr + im.mem.read32 (addr + 4), s')) := by
  cases hloop : whileLoop (im.forBody addr (im.mem.read32 addr) (im.mem.read32 (addr + 4))) n
    (0, s) with
  | none =>
      simp only [whileBody, secureDereference, hbelow, hpage, hsize, if_true, if_neg hheader, hloop]
  | some r =>
      cases r with
      | error e =>
          simp only [whileBody, secureDereference, hbelow, hpage, hsize, if_true, if_neg hheader,
            hloop]
      | ok s' =>
          simp only [whileBody, secureDereference, hbelow, hpage, hsize, if_true, if_neg hheader,
            hloop]

/-- A pass behind the last block. -/
theorem whileBody_last {im : ImageInfo} {sectionEnd addr : U32}
    (hmapped : im.address.toNat + im.size.toNat < 2 ^ 32)
    (hend : sectionEnd.toNat ≤ im.address.toNat + im.size.toNat)
    (haddr : im.address.toNat ≤ addr.toNat) (hblocks : im.Consecutive sectionEnd addr []) (n : Nat)
    (s : RelocState) : im.whileBody n sectionEnd (addr, s) = some (.exit (.ok s)) := by
  rcases hblocks with rfl | ⟨hfits, hrva, hlen⟩
  · simp only [whileBody, BitVec.lt_irrefl, if_false]
  · have hlt : addr < sectionEnd := by bv_omega
    have hread : im.isAddrMappedImp addr = true :=
      isAddrMappedImp_of_lt hmapped haddr (by omega)
    have hread' : im.isAddrMappedImp (addr + 4) = true :=
      isAddrMappedImp_of_lt hmapped (by bv_omega) (by bv_omega)
    simp only [whileBody, secureDereference, hlt, hread, hread', hrva, hlen, if_true, and_self]

/-- A pass at a block. -/
theorem whileBody_block {im : ImageInfo} {sectionEnd : U32} {b : RelocBlock}
    (hmapped : im.address.toNat + im.size.toNat < 2 ^ 32)
    (hend : sectionEnd.toNat ≤ im.address.toNat + im.size.toNat)
    (haddr : im.address.toNat ≤ b.addr.toNat) (hb : im.WellFormedBlock sectionEnd b) {n : Nat}
    (hn : b.blockSize.toNat / 2 < n) (s : RelocState) :
    im.whileBody n sectionEnd (b.addr, s) =
      match im.relocItems (blockItems b) s with
      | .error e => some (.exit (.error e))
      | .ok s' => some (.next (b.addr + b.blockSize, s')) := by
  have hfits := hb.fits
  have hheader := hb.header
  have hlt : b.addr < sectionEnd := by bv_omega
  have hread : im.isAddrMappedImp b.addr = true := isAddrMappedImp_of_lt hmapped haddr (by omega)
  have hread' : im.isAddrMappedImp (b.addr + 4) = true :=
    isAddrMappedImp_of_lt hmapped (by bv_omega) (by bv_omega)
  have hsize : b.blockSize ≠ 0 := by bv_omega
  have hinner : whileLoop (im.forBody b.addr b.pageRva b.blockSize) n (0, s) =
      some (im.relocItems (blockItems b) s) := by
    have hk : (0 : U32).toNat + 2 * (b.blockSize.toNat / 2) = b.blockSize.toNat := by
      have := hb.aligned
      simp
      omega
    rw [forLoop_eq im b.addr b.pageRva b.blockSize _ n 0 s hk hn,
      loopAddrs_block hheader hb.aligned]
    rfl
  have hnot : ¬ (im.mem.read32 b.addr = 0 ∧ im.mem.read32 (b.addr + 4) = 0) := fun hzero =>
    hsize (hb.blockSize.trans hzero.2)
  have hpass := whileBody_eq hlt hread hread' hnot n s
  rw [← hb.pageRva, ← hb.blockSize, hinner] at hpass
  rw [hpass]
  cases im.relocItems (blockItems b) s with
  | error e => rfl
  | ok s' => rfl

/-- **The outer loop** interprets, block by block, the block's entries and the four words behind
it. -/
theorem whileLoop_eq (im : ImageInfo) {sectionEnd : U32}
    (hmapped : im.address.toNat + im.size.toNat < 2 ^ 32)
    (hend : sectionEnd.toNat ≤ im.address.toNat + im.size.toNat) (blocks : List RelocBlock)
    (addr : U32) (s : RelocState) (haddr : im.address.toNat ≤ addr.toNat)
    (hblocks : im.Consecutive sectionEnd addr blocks) (n m : Nat)
    (hn : ∀ b ∈ blocks, b.blockSize.toNat / 2 < n) (hm : blocks.length < m) :
    whileLoop (im.whileBody n sectionEnd) m (addr, s) =
      some (im.relocItems (blocks.flatMap blockItems) s) := by
  induction blocks generalizing addr s m with
  | nil =>
      obtain ⟨m, rfl⟩ : ∃ k, m = k + 1 := ⟨m - 1, by simp at hm; omega⟩
      exact whileLoop_exit (whileBody_last hmapped hend haddr hblocks n s)
  | cons b blocks ih =>
      obtain ⟨m, rfl⟩ : ∃ k, m = k + 1 := ⟨m - 1, by simp at hm; omega⟩
      obtain ⟨rfl, hb, hrest⟩ := hblocks
      have hfits := hb.fits
      have hpass := whileBody_block hmapped hend haddr hb (hn b List.mem_cons_self) s
      rw [List.flatMap_cons, relocItems_append]
      cases hitems : im.relocItems (blockItems b) s with
      | error e =>
          rw [hitems] at hpass
          exact whileLoop_exit hpass
      | ok s₁ =>
          rw [hitems] at hpass
          rw [whileLoop_next hpass]
          exact ih (b.addr + b.blockSize) s₁ (by bv_omega) hrest m
            (fun b' hb' => hn b' (List.mem_cons_of_mem _ hb')) (by simp at hm; omega)

/-- More fuel does not change what a pass of the outer loop does. -/
theorem whileBody_mono (im : ImageInfo) {n m : Nat} (hle : n ≤ m) {sectionEnd : U32}
    {st : U32 × RelocState}
    {x : LoopStep (U32 × RelocState) (Except InsecureDereference RelocState)}
    (h : im.whileBody n sectionEnd st = some x) : im.whileBody m sectionEnd st = some x := by
  obtain ⟨addr, s⟩ := st
  simp only [whileBody] at h ⊢
  by_cases hlt : addr < sectionEnd
  · simp only [if_pos hlt] at h ⊢
    cases hbase : im.secureDereference Memory.read32 addr with
    | error e =>
        rw [hbase] at h
        exact h
    | ok base =>
        cases hlen : im.secureDereference Memory.read32 (addr + 4) with
        | error e =>
            rw [hbase, hlen] at h
            exact h
        | ok len =>
            simp only [hbase, hlen] at h ⊢
            by_cases hzero : base = 0 ∧ len = 0
            · simpa only [if_pos hzero] using h
            · simp only [if_neg hzero] at h ⊢
              cases hloop : whileLoop (im.forBody addr base len) n (0, s) with
              | none =>
                  rw [hloop] at h
                  exact absurd h (by simp)
              | some r =>
                  rw [whileLoop_mono (fun _ _ hb => hb) hle hloop]
                  rw [hloop] at h
                  exact h
  · simpa only [if_neg hlt] using h

/-- More fuel does not change what the analysis answers. -/
theorem analyzeRelocationEntry_fuelMono (im : ImageInfo) : FuelMono im.analyzeRelocationEntry := by
  intro n m r hle h
  unfold analyzeRelocationEntry at h ⊢
  by_cases hsection : im.relocSection.1 ≠ 0 ∧ im.relocSection.2 ≠ 0
  · simp only [if_pos hsection] at h ⊢
    exact whileLoop_mono (fun _ _ hb => im.whileBody_mono hle hb) hle h
  · simpa only [if_neg hsection] using h

theorem Consecutive.mem {im : ImageInfo} {sectionEnd addr : U32} {blocks : List RelocBlock}
    (h : im.Consecutive sectionEnd addr blocks) :
    ∀ b ∈ blocks, addr.toNat ≤ b.addr.toNat ∧ im.WellFormedBlock sectionEnd b := by
  induction blocks generalizing addr with
  | nil => exact fun b hb => absurd hb List.not_mem_nil
  | cons b blocks ih =>
      obtain ⟨rfl, hb, hrest⟩ := h
      intro b' hb'
      rcases List.mem_cons.mp hb' with rfl | hb'
      · exact ⟨le_rfl, hb⟩
      · obtain ⟨hle, hwf⟩ := ih hrest b' hb'
        have := hb.fits
        have := hb.header
        exact ⟨by bv_omega, hwf⟩

/-- **The analysis is the sequence of items**: with enough fuel it interprets, block by block, the
block's own entries and the four words behind it, and stops at the first that throws. -/
theorem computes_relocItems {im : ImageInfo} {blocks : List RelocBlock}
    (h : im.WellFormed blocks) :
    Computes im.analyzeRelocationEntry (im.relocItems (blocks.flatMap blockItems) ⟨∅, []⟩) := by
  obtain ⟨hmapped, hstart, hge, hend, hblocks⟩ := h
  have hnowrap : (im.relocSection.1 + im.relocSection.2).toNat =
      im.relocSection.1.toNat + im.relocSection.2.toNat := by bv_omega
  refine ⟨2 ^ 32 + blocks.length, fun n hn => ?_⟩
  unfold analyzeRelocationEntry
  by_cases hsize : im.relocSection.2 = 0
  · have hnil : blocks = [] := by
      cases blocks with
      | nil => rfl
      | cons b blocks =>
          obtain ⟨haddr, hb, -⟩ := hblocks
          have hfits := hb.fits
          have hheader := hb.header
          have hzero : im.relocSection.2.toNat = 0 := by rw [hsize]; rfl
          rw [hnowrap, haddr] at hfits
          omega
    simp only [hsize, ne_eq, not_true_eq_false, and_false, if_false, hnil]
    rfl
  · simp only [ne_eq, hstart, hsize, not_false_eq_true, and_self, if_true]
    refine whileLoop_eq im hmapped (by omega) blocks _ _ hge hblocks n n (fun b _ => ?_) (by omega)
    have := b.blockSize.isLt
    omega

/-! ## When the collected set is right -/

/-- The analysis finishes without throwing and collects exactly the section's targets. -/
def CollectsTargets (im : ImageInfo) (blocks : List RelocBlock) : Prop :=
  ∃ s : RelocState, Computes im.analyzeRelocationEntry (.ok s) ∧
    s.targets = im.sectionTargets blocks

/-- It moreover interprets nothing but the blocks' own entries. -/
def ReadsOwnEntries (im : ImageInfo) (blocks : List RelocBlock) : Prop :=
  ∃ s : RelocState, Computes im.analyzeRelocationEntry (.ok s) ∧
    s.targets = im.sectionTargets blocks ∧ ∀ a ∈ s.items, ∃ b ∈ blocks, a ∈ b.entryAddrs

/-- The word at `a` behind a block can be read as an entry of it, and adds no target. -/
def Harmless (im : ImageInfo) (blocks : List RelocBlock) (b : RelocBlock) (a : U32) : Prop :=
  im.Readable b.pageRva a ∧ ∀ w ∈ im.entryTargets b.pageRva a, w ∈ im.sectionTargets blocks

instance (im : ImageInfo) (blocks : List RelocBlock) (b : RelocBlock) (a : U32) :
    Decidable (im.Harmless blocks b a) :=
  inferInstanceAs (Decidable (_ ∧ _))

theorem WellFormed.mem {im : ImageInfo} {blocks : List RelocBlock} (h : im.WellFormed blocks)
    {b : RelocBlock} (hb : b ∈ blocks) : im.address.toNat ≤ b.addr.toNat ∧
      b.addr.toNat + b.blockSize.toNat ≤ im.address.toNat + im.size.toNat ∧
      im.WellFormedBlock (im.relocSection.1 + im.relocSection.2) b := by
  obtain ⟨hmapped, -, hge, hend, hblocks⟩ := h
  obtain ⟨hle, hwf⟩ := hblocks.mem b hb
  have := hwf.fits
  exact ⟨by omega, by bv_omega, hwf⟩

theorem toNat_of_mem_entryAddrs {b : RelocBlock} {a : U32}
    (hlt : b.addr.toNat + b.blockSize.toNat < 2 ^ 32) (ha : a ∈ b.entryAddrs) :
    b.addr.toNat ≤ a.toNat ∧ a.toNat < b.addr.toNat + b.blockSize.toNat := by
  obtain ⟨j, hj, rfl⟩ := List.mem_map.mp ha
  have hj' : j < (b.blockSize.toNat - 8) / 2 := List.mem_range.mp hj
  bv_omega

/-- A block's own entries can be read. -/
theorem WellFormed.readable {im : ImageInfo} {blocks : List RelocBlock} (h : im.WellFormed blocks)
    {b : RelocBlock} (hb : b ∈ blocks) {a : U32} (ha : a ∈ b.entryAddrs) :
    im.Readable b.pageRva a := by
  obtain ⟨hge, hle, hwf⟩ := h.mem hb
  have hmapped := h.mapped
  obtain ⟨hlo, hhi⟩ := toNat_of_mem_entryAddrs (by omega) ha
  refine ⟨isAddrMappedImp_of_lt hmapped (by omega) (by omega), fun hhigh => ?_⟩
  obtain ⟨htlo, hthi⟩ := hwf.entries a ha hhigh
  exact isAddrMappedImp_of_lt hmapped htlo (by omega)

theorem mem_blockItems {b : RelocBlock} {item : Item} : item ∈ blockItems b ↔
    item.1 = b.pageRva ∧ (item.2 ∈ b.entryAddrs ∨ item.2 ∈ b.trailingAddrs) := by
  obtain ⟨p, a⟩ := item
  simp only [blockItems, List.mem_map, List.mem_append, Prod.mk.injEq]
  constructor
  · rintro ⟨a', ha, rfl, rfl⟩
    exact ⟨rfl, ha⟩
  · rintro ⟨rfl, ha⟩
    exact ⟨a, ha, rfl, rfl⟩

/-- What is collected: the section's targets and whatever the words behind the blocks add. -/
theorem mem_targets_iff {im : ImageInfo} {blocks : List RelocBlock} {w : U32} :
    w ∈ ((blocks.flatMap blockItems).flatMap
        fun item => im.entryTargets item.1 item.2).toFinset ↔
      w ∈ im.sectionTargets blocks ∨
        ∃ b ∈ blocks, ∃ a ∈ b.trailingAddrs, w ∈ im.entryTargets b.pageRva a := by
  simp only [sectionTargets, List.mem_toFinset, List.mem_flatMap, mem_blockItems]
  constructor
  · rintro ⟨⟨p, a⟩, ⟨b, hb, rfl, ha | ha⟩, hw⟩
    · exact Or.inl ⟨b, hb, a, ha, hw⟩
    · exact Or.inr ⟨b, hb, a, ha, hw⟩
  · rintro (⟨b, hb, a, ha, hw⟩ | ⟨b, hb, a, ha, hw⟩)
    · exact ⟨(b.pageRva, a), ⟨b, hb, rfl, Or.inl ha⟩, hw⟩
    · exact ⟨(b.pageRva, a), ⟨b, hb, rfl, Or.inr ha⟩, hw⟩

/-- The state the analysis finishes in, if it does. -/
theorem computes_ok_iff {im : ImageInfo} {blocks : List RelocBlock} (h : im.WellFormed blocks)
    (s : RelocState) :
    Computes im.analyzeRelocationEntry (.ok s) ↔
      (∀ b ∈ blocks, ∀ a ∈ b.trailingAddrs, im.Readable b.pageRva a) ∧
        s = ⟨((blocks.flatMap blockItems).flatMap
          fun item => im.entryTargets item.1 item.2).toFinset,
          (blocks.flatMap blockItems).map Prod.snd⟩ := by
  have hitems := computes_relocItems h
  have hok : Computes im.analyzeRelocationEntry (.ok s) ↔
      im.relocItems (blocks.flatMap blockItems) ⟨∅, []⟩ = .ok s :=
    ⟨fun hs => hitems.unique hs, fun hs => hs ▸ hitems⟩
  rw [hok, relocItems_eq_ok, Finset.empty_union, List.nil_append]
  refine and_congr_left fun _ => ?_
  simp only [List.mem_flatMap]
  constructor
  · intro hread b hb a ha
    exact hread (b.pageRva, a) ⟨b, hb, mem_blockItems.mpr ⟨rfl, Or.inr ha⟩⟩
  · rintro hread ⟨p, a⟩ ⟨b, hb, hitem⟩
    obtain ⟨rfl, ha | ha⟩ := mem_blockItems.mp hitem
    · exact h.readable hb ha
    · exact hread b hb a ha

/-- The targets come out right exactly when the four words behind every block are harmless. -/
theorem collectsTargets_iff {im : ImageInfo} {blocks : List RelocBlock}
    (h : im.WellFormed blocks) :
    im.CollectsTargets blocks ↔ ∀ b ∈ blocks, ∀ a ∈ b.trailingAddrs, im.Harmless blocks b a := by
  constructor
  · rintro ⟨s, hs, htargets⟩ b hb a ha
    obtain ⟨hread, rfl⟩ := (computes_ok_iff h s).mp hs
    refine ⟨hread b hb a ha, fun w hw => ?_⟩
    rw [← htargets]
    exact mem_targets_iff.mpr (Or.inr ⟨b, hb, a, ha, hw⟩)
  · intro hharmless
    refine ⟨_, (computes_ok_iff h _).mpr ⟨fun b hb a ha => (hharmless b hb a ha).1, rfl⟩, ?_⟩
    ext w
    rw [mem_targets_iff]
    refine ⟨?_, Or.inl⟩
    rintro (hw | ⟨b, hb, a, ha, hw⟩)
    · exact hw
    · exact (hharmless b hb a ha).2 w hw

/-- Behind the last block stands no block's entry. -/
theorem Consecutive.exists_last {im : ImageInfo} {sectionEnd addr : U32}
    {blocks : List RelocBlock} (h : im.Consecutive sectionEnd addr blocks) (hne : blocks ≠ []) :
    ∃ b ∈ blocks, ∀ b' ∈ blocks,
      b'.addr.toNat + b'.blockSize.toNat ≤ (b.addr + b.blockSize).toNat := by
  induction blocks generalizing addr with
  | nil => exact absurd rfl hne
  | cons b blocks ih =>
      obtain ⟨rfl, hb, hrest⟩ := h
      have hfits := hb.fits
      have hend := sectionEnd.isLt
      cases hcase : blocks with
      | nil =>
          refine ⟨b, List.mem_cons_self, fun b' hb' => ?_⟩
          rw [List.mem_singleton.mp hb']
          bv_omega
      | cons b₁ blocks₁ =>
          obtain ⟨last, hlast, hall⟩ := ih hrest (by rw [hcase]; exact List.cons_ne_nil _ _)
          rw [← hcase]
          refine ⟨last, List.mem_cons_of_mem _ hlast, fun b' hb' => ?_⟩
          rcases List.mem_cons.mp hb' with rfl | hb'
          · have hle := (hrest.mem last hlast).1
            have hself := hall last hlast
            bv_omega
          · exact hall b' hb'

/-- Every block makes the tool interpret words that are no entries. -/
theorem readsOwnEntries_iff {im : ImageInfo} {blocks : List RelocBlock}
    (h : im.WellFormed blocks) : im.ReadsOwnEntries blocks ↔ blocks = [] := by
  constructor
  · rintro ⟨s, hs, -, hown⟩
    by_contra hne
    obtain ⟨last, hlast, hall⟩ := h.blocks.exists_last hne
    obtain ⟨-, rfl⟩ := (computes_ok_iff h s).mp hs
    have htrailing : last.addr + last.blockSize ∈ last.trailingAddrs :=
      List.mem_map.mpr ⟨0, by decide, by simp⟩
    obtain ⟨b, hb, ha⟩ := hown (last.addr + last.blockSize)
      (List.mem_map.mpr ⟨(last.pageRva, last.addr + last.blockSize),
        List.mem_flatMap.mpr ⟨last, hlast, mem_blockItems.mpr ⟨rfl, Or.inr htrailing⟩⟩, rfl⟩)
    obtain ⟨-, hle, -⟩ := h.mem hb
    have hmapped := h.mapped
    have := (toNat_of_mem_entryAddrs (by omega) ha).2
    have := hall b hb
    omega
  · rintro rfl
    refine ⟨⟨∅, []⟩, (computes_ok_iff h _).mpr ⟨fun b hb => absurd hb List.not_mem_nil, rfl⟩, rfl,
      fun a ha => absurd ha List.not_mem_nil⟩

/-- **When the analysis is right.** On a well-formed section it finishes with exactly the section's
targets if and only if the four words behind every block are harmless, and it never keeps to the
blocks' own entries unless there is no block. -/
theorem analyzeRelocationEntry_iff (im : ImageInfo) (blocks : List RelocBlock)
    (h : im.WellFormed blocks) :
    (im.CollectsTargets blocks ↔
      ∀ b ∈ blocks, ∀ a ∈ b.trailingAddrs, im.Harmless blocks b a) ∧
    (im.ReadsOwnEntries blocks ↔ blocks = []) :=
  ⟨collectsTargets_iff h, readsOwnEntries_iff h⟩

section Samples

/-- The nonzero bytes of a small image at `0x10000`: three words that hold addresses, and a section
of two blocks at `0x13800`. -/
def sampleBytes : List (U32 × U8) :=
  [(0x11000, 0x34), (0x11001, 0x12), (0x11002, 0x01),
   (0x11011, 0x20), (0x11012, 0x01),
   (0x13000, 0x04), (0x13001, 0x20), (0x13002, 0x01),
   (0x13801, 0x10), (0x13804, 0x0C), (0x13808, 0x10), (0x13809, 0x30),
   (0x1380D, 0x30), (0x13810, 0x0C), (0x13815, 0x30)]

def sampleImage : ImageInfo where
  address := 0x10000
  size := 0x4000
  sections := [⟨['.', 't', 'e', 'x', 't'], 0x11000, 0x1000⟩,
    ⟨['.', 'r', 'e', 'l', 'o', 'c'], 0x13800, 24⟩]
  mem := fun a => (sampleBytes.lookup a).getD 0

/-- Page `0x1000` with the entries `0x3010` and `0`, page `0x3000` with `0x3000` and `0`. -/
def sampleBlocks : List RelocBlock := [⟨0x13800, 0x1000, 12⟩, ⟨0x1380C, 0x3000, 12⟩]

/-- A block of the sample image whose second entry is no relocation. -/
theorem wellFormedBlock_sample {b : RelocBlock} {a c : U32} (haddrs : b.entryAddrs = [a, c])
    (hpage : b.pageRva = sampleImage.mem.read32 b.addr)
    (hsize : b.blockSize = sampleImage.mem.read32 (b.addr + 4)) (hlen : b.blockSize = 12)
    (hfits : b.addr.toNat + 12 ≤ (0x13818 : U32).toNat)
    (htarget : sampleImage.address.toNat ≤ (sampleImage.entryTargetAddress b.pageRva a).toNat ∧
      (sampleImage.entryTargetAddress b.pageRva a).toNat + 4 ≤
        sampleImage.address.toNat + sampleImage.size.toNat)
    (hnone : ¬ sampleImage.IsHighLowAt c) :
    sampleImage.WellFormedBlock 0x13818 b where
  pageRva := hpage
  blockSize := hsize
  header := by rw [hlen]; decide
  aligned := by rw [hlen]; decide
  fits := by rw [hlen]; exact hfits
  entries := by
    rw [haddrs]
    intro x hx hhigh
    rcases List.mem_cons.mp hx with rfl | hx
    · exact htarget
    · rw [List.mem_singleton.mp hx] at hhigh
      exact absurd hhigh hnone

theorem wellFormed_sample : sampleImage.WellFormed sampleBlocks where
  mapped := by decide
  start_ne_zero := by decide
  start_ge := by decide
  end_le := by decide
  blocks := by
    have hend : sampleImage.relocSection.1 + sampleImage.relocSection.2 = 0x13818 := by decide
    rw [hend]
    exact ⟨rfl,
      wellFormedBlock_sample (a := 0x13808) (c := 0x1380A) rfl (by decide) (by decide) rfl
        (by decide) ⟨by decide, by decide⟩ (by decide), rfl,
      wellFormedBlock_sample (a := 0x13814) (c := 0x13816) rfl (by decide) (by decide) rfl
        (by decide) ⟨by decide, by decide⟩ (by decide), Or.inl (by decide)⟩

/-- The low half of the second block's page address, `0x3000`, is taken for an entry of the first
block, and the word at its page becomes a target. -/
theorem trailing_word_collected : sampleImage.WellFormed sampleBlocks ∧
    ¬ sampleImage.CollectsTargets sampleBlocks ∧ ¬ sampleImage.ReadsOwnEntries sampleBlocks := by
  refine ⟨wellFormed_sample, fun hcollects => ?_, fun hreads => ?_⟩
  · have hharmless := (collectsTargets_iff wellFormed_sample).mp hcollects _
      List.mem_cons_self (0x1380C : U32) (by decide)
    have hw := hharmless.2 (0x11234 : U32) (by decide)
    exact absurd hw (by decide)
  · exact absurd ((readsOwnEntries_iff wellFormed_sample).mp hreads) (by simp [sampleBlocks])

theorem analyzeRelocationEntry_iff_sample :
    sampleImage.WellFormed sampleBlocks ∧
    (sampleImage.CollectsTargets sampleBlocks ↔ ∀ b ∈ sampleBlocks, ∀ a ∈ b.trailingAddrs,
      sampleImage.Harmless sampleBlocks b a) :=
  ⟨wellFormed_sample, (analyzeRelocationEntry_iff sampleImage sampleBlocks wellFormed_sample).1⟩

end Samples

end ImageInfo

end PEReplay
