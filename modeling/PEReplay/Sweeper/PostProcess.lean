/-
# PEReplay.Sweeper.PostProcess — what `postProcess` invalidates, and how its traversal goes on.

Behind every `lea` target the padding is searched; the first place where it ends closes the area of
the target (`leaArea_of_padded`).  The traces that meet an area are erased and the
others stay (`exists_postProcess`), but the loop then increments the iterator of the element it has
erased.  So the traversal is sound exactly when nothing is erased at all (`postProcess_sound_iff`).
-/
import PEReplay.Sweeper.Indexes
import PEReplay.Sweeper.PaddingScan

namespace PEReplay

open Loop

namespace CodeSectionSweeper

/-! ## The areas -/

section Areas

variable {code : Code}

theorem range_sub (a : U32) (d : Nat) : a + BitVec.ofNat 32 d - a = BitVec.ofNat 32 d := by
  rw [BitVec.add_comm, BitVec.add_sub_cancel]

/-- Where padding ends, an area does. -/
theorem leaArea_of_padded {a : U32} {d : Nat} (h : PaddedUpTo code a d) :
    LeaArea code a (a + BitVec.ofNat 32 d) := by
  obtain ⟨stop, hscan, ⟨d', hd', rfl⟩ | ⟨-, hnone⟩⟩ := paddingScan_spec code a
  · obtain rfl := h.unique hd'
    refine ⟨hscan, ?_⟩
    have hroom := h.room
    have hnear := h.near
    unfold maxLeaPaddingSearchRange
    bv_omega
  · exact absurd h (hnone d)

/-- An area ends where the padding does, or at address zero. -/
theorem LeaArea.padded {a stop : U32} (h : LeaArea code a stop) :
    stop = 0 ∨ ∃ d, PaddedUpTo code a d ∧ stop = a + BitVec.ofNat 32 d := by
  obtain ⟨stop', hscan, hends⟩ := paddingScan_spec code a
  obtain rfl := h.1.unique hscan
  rcases hends with hpadded | ⟨hzero | hfar, -⟩
  · exact Or.inr hpadded
  · exact Or.inl hzero
  · exact absurd h.2 hfar

/-- **No trace meets the padded area behind a `lea` target.** -/
def NoTraceAtLea (code : Code) (s : CodeSectionSweeper) : Prop :=
  ∀ leaTarget ∈ s.leaTargets, ∀ d, PaddedUpTo code leaTarget d →
    ∀ t ∈ s.traces, t.intersect leaTarget (BitVec.ofNat 32 d) = false

/-- Then none meets the area of a `lea` target: nothing meets an area that ends at zero. -/
theorem sparesTraces_iff (s : CodeSectionSweeper) : s.SparesTraces code ↔ s.NoTraceAtLea code := by
  constructor
  · intro h leaTarget hlea d hd t ht
    have hspared := h leaTarget hlea _ (leaArea_of_padded hd) t ht
    rwa [range_sub] at hspared
  · intro h leaTarget hlea stop harea t ht
    rcases harea.padded with rfl | ⟨d, hd, rfl⟩
    · exact intersect_eq_false_of_le (Nat.zero_le _)
    · rw [range_sub]
      exact h leaTarget hlea d hd t ht

end Areas

/-! ## The traversal -/

section Traversal

variable {code : Code}

/-- The traversal steps over an erased element when a trace meets the area. -/
theorem advanced_invalidateLoop {leaTarget stop : U32} {l : List StaticTrace} (hasc : Ascending l) :
    (invalidateLoop leaTarget stop l).2 = true ↔
      ∃ t ∈ l, t.intersect leaTarget (stop - leaTarget) = true := by
  induction l with
  | nil => simp [invalidateLoop]
  | cons u l ih =>
      unfold invalidateLoop
      split_ifs with hmeets hbigger
      · exact iff_of_true rfl ⟨u, List.mem_cons_self, hmeets⟩
      · -- it stops early, as nothing behind meets the area
        refine iff_of_false (by simp) ?_
        rintro ⟨t, ht, hmeet⟩
        have hu : stop.toNat < u.start.toNat := of_decide_eq_true hbigger
        have hle : stop.toNat ≤ t.start.toNat := by
          rcases List.mem_cons.mp ht with rfl | ht
          · exact hu.le
          · exact (hu.trans (List.rel_of_pairwise_cons hasc ht)).le
        rw [intersect_eq_false_of_le hle] at hmeet
        exact absurd hmeet (by simp)
      · refine (ih hasc.of_cons).trans ⟨fun ⟨t, ht, hmeet⟩ => ?_, ?_⟩
        · exact ⟨t, List.mem_cons_of_mem _ ht, hmeet⟩
        · rintro ⟨t, ht, hmeet⟩
          rcases List.mem_cons.mp ht with rfl | ht
          · exact absurd hmeet hmeets
          · exact ⟨t, ht, hmeet⟩

/-- Over all `lea` targets: a trace met by a later area may be gone, but then it was an earlier area
that met it. -/
theorem advanced_postProcessLoop {n : Nat} {leaTargets : List U32} {st st' : TraceSet × Bool}
    (h : postProcessLoop n code leaTargets st = some st') :
    st'.2 = true ↔ st.2 = true ∨ ∃ leaTarget ∈ leaTargets, ∃ stop, LeaArea code leaTarget stop ∧
      ∃ t ∈ st.1, t.intersect leaTarget (stop - leaTarget) = true := by
  induction leaTargets generalizing st with
  | nil =>
      rw [Option.some.inj h]
      simp
  | cons leaTarget rest ih =>
      rw [postProcessLoop] at h
      split at h
      · exact absurd h (by simp)
      · rename_i stop hscan
        have hcomputes : Computes (fun n => paddingScan n code leaTarget) stop :=
          (fuelMono_paddingScan leaTarget).computes hscan
        rw [List.exists_mem_cons_iff]
        split_ifs at h with hnear
        · have hadvanced : (invalidate st.1 leaTarget stop).2 = true ↔
              ∃ t ∈ st.1, t.intersect leaTarget (stop - leaTarget) = true :=
            advanced_invalidateLoop st.1.sorted_elems
          have hrest : postProcessLoop n code rest ((invalidate st.1 leaTarget stop).1,
              st.2 || (invalidate st.1 leaTarget stop).2) = some st' := h
          rw [ih hrest, Bool.or_eq_true, hadvanced, or_assoc]
          refine or_congr_right ⟨?_, ?_⟩
          · rintro (hmeets | ⟨leaTarget', hlea, stop', harea, t, ht, hmeet⟩)
            · exact Or.inl ⟨stop, ⟨hcomputes, hnear⟩, hmeets⟩
            · exact Or.inr ⟨leaTarget', hlea, stop', harea, t, (mem_invalidate.mp ht).1, hmeet⟩
          · rintro (⟨stop', harea, hmeets⟩ | ⟨leaTarget', hlea, stop', harea, t, ht, hmeet⟩)
            · rw [harea.1.unique hcomputes] at hmeets
              exact Or.inl hmeets
            · cases hfirst : t.intersect leaTarget (stop - leaTarget) with
              | true => exact Or.inl ⟨t, ht, hfirst⟩
              | false =>
                  exact Or.inr ⟨leaTarget', hlea, stop', harea, t,
                    mem_invalidate.mpr ⟨ht, hfirst⟩, hmeet⟩
        · rw [ih h]
          refine or_congr_right ⟨Or.inr, ?_⟩
          rintro (⟨stop', harea, -⟩ | hrest)
          · rw [harea.1.unique hcomputes] at harea
            exact absurd harea.2 hnear
          · exact hrest

/-- The loop over the `lea` targets terminates. -/
theorem exists_postProcessLoop (code : Code) (leaTargets : List U32) (st : TraceSet × Bool) :
    ∃ st', Computes (fun n => postProcessLoop n code leaTargets st) st' := by
  induction leaTargets generalizing st with
  | nil => exact ⟨st, computes_some st⟩
  | cons leaTarget rest ih =>
      obtain ⟨stop, ⟨n, hscan⟩, -⟩ := paddingScan_spec code leaTarget
      obtain ⟨st', m, hrest⟩ := ih (if stop < leaTarget + maxLeaPaddingSearchRange then
        ((invalidate st.1 leaTarget stop).1, st.2 || (invalidate st.1 leaTarget stop).2) else st)
      refine ⟨st', max n m, fun k hk => ?_⟩
      have hscan' : paddingScan k code leaTarget = some stop :=
        hscan k (le_trans (Nat.le_max_left n m) hk)
      have hrest' := hrest k (le_trans (Nat.le_max_right n m) hk)
      show postProcessLoop k code (leaTarget :: rest) st = some st'
      rw [postProcessLoop, hscan']
      dsimp only at hrest' ⊢
      split_ifs with hnear
      · rw [if_pos hnear] at hrest'
        exact hrest'
      · rw [if_neg hnear] at hrest'
        exact hrest'

/-- **What `postProcess` does**: the traces that meet no area stay, and the traversal steps over an
erased element when some trace meets one. -/
theorem exists_postProcess (code : Code) (s : CodeSectionSweeper) :
    ∃ r, Computes (fun n => s.postProcess n code) r ∧
      (∀ t, t ∈ r.1.traces ↔ t ∈ s.traces ∧ ∀ leaTarget ∈ s.leaTargets, ∀ stop,
        LeaArea code leaTarget stop → t.intersect leaTarget (stop - leaTarget) = false) ∧
      (r.2 = false ↔ s.SparesTraces code) := by
  obtain ⟨st, hst⟩ := exists_postProcessLoop code s.leaTargets.elems (s.traces, false)
  refine ⟨({ s with traces := st.1 }, st.2),
    hst.map fun r => (({ s with traces := r.1 } : CodeSectionSweeper), r.2), ?_, ?_⟩
  · obtain ⟨n, hn⟩ := hst
    intro t
    exact mem_postProcessLoop (hn n le_rfl)
  · obtain ⟨n, hn⟩ := hst
    rw [← Bool.not_eq_true, advanced_postProcessLoop (hn n le_rfl)]
    constructor
    · intro hnone leaTarget hlea stop harea t ht
      rw [← Bool.not_eq_true]
      intro hmeet
      exact hnone (Or.inr ⟨leaTarget, hlea, stop, harea, t, ht, hmeet⟩)
    · rintro hspares (hfalse | ⟨leaTarget, hlea, stop, harea, t, ht, hmeet⟩)
      · exact absurd hfalse (by simp)
      · rw [hspares leaTarget hlea stop harea t ht] at hmeet
        exact absurd hmeet (by simp)

/-- **A sound invalidation**: exactly the traces that meet an area are gone, the traversal was never
advanced through an erased element, and where it stopped early no trace was left that meets the
area. -/
structure InvalidatesExactly (code : Code) (s : CodeSectionSweeper)
    (r : CodeSectionSweeper × Bool) : Prop where
  stays : ∀ t, t ∈ r.1.traces ↔ t ∈ s.traces ∧ ∀ leaTarget ∈ s.leaTargets, ∀ stop,
    LeaArea code leaTarget stop → t.intersect leaTarget (stop - leaTarget) = false
  cursor : r.2 = false
  early : ∀ leaTarget stop, ∀ u ∈ s.traces, u.biggerThan stop = true → ∀ t ∈ s.traces,
    u.start.toNat ≤ t.start.toNat → t.intersect leaTarget (stop - leaTarget) = false

/-- **When `postProcess` is sound**: when there is nothing to invalidate.  It always terminates,
with the right traces erased, and never stops too early; but it goes on from an element it has
erased. -/
theorem postProcess_sound_iff (code : Code) (s : CodeSectionSweeper) :
    (∃ r, Computes (fun n => s.postProcess n code) r ∧ InvalidatesExactly code s r) ↔
      s.NoTraceAtLea code := by
  obtain ⟨r, hr, hstays, hcursor⟩ := exists_postProcess code s
  rw [← sparesTraces_iff, ← hcursor]
  constructor
  · rintro ⟨r', hr', hexact⟩
    rw [hr.unique hr']
    exact hexact.cursor
  · intro hnever
    refine ⟨r, hr, hstays, hnever, fun leaTarget stop u _ hbigger t _ hle => ?_⟩
    have hu : stop.toNat < u.start.toNat := of_decide_eq_true hbigger
    exact intersect_eq_false_of_le (hu.le.trans hle)

end Traversal

section Samples

/-- The section of `leaCode` with a trace at the `ret` that the `lea` takes the address of. -/
def leaState : CodeSectionSweeper :=
  { (init leaSweeper.codeSection).addTrace
      (StaticTrace.assembleTrace 0 0x1010 1 leaSweeper.codeSection) with
    leaTargets := (∅ : TargetSet).insert 0x1010 }

/-- The area `[0x1010, 0x1020)` meets the trace, and the traversal goes on from it. -/
theorem traversal_continues_from_erased :
    ¬ ∃ r, Computes (fun n => leaState.postProcess n leaCode) r ∧
      InvalidatesExactly leaCode leaState r := by
  rintro ⟨r, hr, hexact⟩
  obtain ⟨r', hr', -, hcursor⟩ := exists_postProcess leaCode leaState
  rw [hr'.unique hr] at hcursor
  have hspares := hcursor.mp hexact.cursor
  have harea : LeaArea leaCode 0x1010 0x1020 := by
    refine ⟨(fuelMono_paddingScan 0x1010).computes (n := 17) ?_, by decide⟩
    show paddingScan 17 leaCode 0x1010 = some 0x1020
    decide
  have hspared := hspares 0x1010 List.mem_cons_self 0x1020 harea _ List.mem_cons_self
  exact absurd hspared (by decide)

end Samples

end CodeSectionSweeper

end PEReplay
