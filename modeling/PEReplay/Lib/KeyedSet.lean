/-
# Sets ordered by a key: `std::set` with a comparator.

A `KeyedSet key` is a strictly key-ascending list, so two elements with one key cannot both be in
it and iterating over it is going through the list.  `insert` follows the C++ container: an element
whose key is already present is *refused* and the container stays as it is.  With `key` the identity
this is a set of numbers; with `key` a field it is a set of objects compared by that field only.

The strictness is a field of the structure, so the lemmas about the order (`sorted_elems`,
`eq_of_key_eq`, `ext`) hold of any set without a side condition.
-/
import Mathlib.Order.Defs.LinearOrder
import Mathlib.Order.Basic
import Mathlib.Data.List.Basic
import Mathlib.Data.Finset.Dedup

universe u v

/-- A `std::set` of `α` compared by `key`. -/
structure KeyedSet {α : Type u} {κ : Type v} [LinearOrder κ] (key : α → κ) where
  elems : List α
  sorted : (elems.map key).Pairwise (· < ·)

namespace KeyedSet

variable {α : Type u} {κ : Type v} [LinearOrder κ] {key : α → κ}

instance : Membership α (KeyedSet key) := ⟨fun s a => a ∈ s.elems⟩

theorem mem_def {s : KeyedSet key} {a : α} : a ∈ s ↔ a ∈ s.elems := Iff.rfl

instance [DecidableEq α] (a : α) (s : KeyedSet key) : Decidable (a ∈ s) :=
  inferInstanceAs (Decidable (a ∈ s.elems))

instance [DecidableEq α] : DecidableEq (KeyedSet key) := fun s t =>
  decidable_of_iff (s.elems = t.elems) (by cases s; cases t; simp)

/-- The set without elements. -/
def empty : KeyedSet key := ⟨[], List.Pairwise.nil⟩

instance : EmptyCollection (KeyedSet key) := ⟨empty⟩
instance : Inhabited (KeyedSet key) := ⟨∅⟩

@[simp] theorem not_mem_empty (a : α) : a ∉ (∅ : KeyedSet key) := List.not_mem_nil

/-- Some element of the set has key `k`. -/
def HasKey (s : KeyedSet key) (k : κ) : Prop := ∃ a ∈ s, key a = k

theorem hasKey_iff {s : KeyedSet key} {k : κ} : s.HasKey k ↔ k ∈ s.elems.map key := by
  simp only [HasKey, mem_def, List.mem_map]

instance (s : KeyedSet key) (k : κ) : Decidable (s.HasKey k) :=
  decidable_of_iff _ hasKey_iff.symm

theorem sorted_elems (s : KeyedSet key) : s.elems.Pairwise (fun a b => key a < key b) :=
  List.pairwise_map.mp s.sorted

/-- One key, one element. -/
theorem eq_of_key_eq (s : KeyedSet key) {a b : α} (ha : a ∈ s) (hb : b ∈ s)
    (h : key a = key b) : a = b := by
  have hp := s.sorted_elems
  rw [mem_def] at ha hb
  generalize s.elems = l at hp ha hb
  induction hp with
  | nil => exact absurd ha List.not_mem_nil
  | @cons c l hc _ ih =>
      rcases List.mem_cons.mp ha with ha' | ha' <;> rcases List.mem_cons.mp hb with hb' | hb'
      · exact ha'.trans hb'.symm
      · exact absurd h (ha' ▸ hc b hb').ne
      · exact absurd h (hb' ▸ hc a ha').ne'
      · exact ih ha' hb'

/-! ## Insertion -/

/-- Ordered insertion that refuses an element whose key is there already. -/
def insertList (key : α → κ) (a : α) : List α → List α
  | [] => [a]
  | b :: l =>
      if key a < key b then a :: b :: l
      else if key a = key b then b :: l
      else b :: insertList key a l

theorem mem_insertList_of_mem {a b : α} {l : List α} (h : b ∈ l) : b ∈ insertList key a l := by
  induction l with
  | nil => exact absurd h List.not_mem_nil
  | cons c l ih =>
      simp only [insertList]
      split_ifs
      · exact List.mem_cons_of_mem a h
      · exact h
      · rcases List.mem_cons.mp h with rfl | h
        · exact List.mem_cons_self
        · exact List.mem_cons_of_mem c (ih h)

theorem eq_or_mem_of_mem_insertList {a b : α} {l : List α} (h : b ∈ insertList key a l) :
    b = a ∨ b ∈ l := by
  induction l with
  | nil => exact Or.inl (List.mem_singleton.mp h)
  | cons c l ih =>
      simp only [insertList] at h
      split_ifs at h
      · exact List.mem_cons.mp h
      · exact Or.inr h
      · rcases List.mem_cons.mp h with rfl | h
        · exact Or.inr List.mem_cons_self
        · exact (ih h).imp id (List.mem_cons_of_mem c)

theorem insertList_sorted (a : α) {l : List α} (h : l.Pairwise (fun a b => key a < key b)) :
    (insertList key a l).Pairwise (fun a b => key a < key b) := by
  induction h with
  | nil => exact List.pairwise_singleton _ a
  | @cons c l hc hl ih =>
      simp only [insertList]
      split_ifs with hlt heq
      · refine List.Pairwise.cons (fun b hb => ?_) (List.Pairwise.cons hc hl)
        rcases List.mem_cons.mp hb with rfl | hb
        · exact hlt
        · exact hlt.trans (hc b hb)
      · exact List.Pairwise.cons hc hl
      · refine List.Pairwise.cons (fun b hb => ?_) ih
        rcases eq_or_mem_of_mem_insertList hb with rfl | hb
        · exact lt_of_le_of_ne (not_lt.mp hlt) (Ne.symm heq)
        · exact hc b hb

/-- `std::set::insert`. -/
def insert (a : α) (s : KeyedSet key) : KeyedSet key :=
  ⟨insertList key a s.elems, List.pairwise_map.mpr (insertList_sorted a s.sorted_elems)⟩

theorem insertList_of_hasKey {a : α} {l : List α} (hl : l.Pairwise (fun a b => key a < key b))
    (h : key a ∈ l.map key) : insertList key a l = l := by
  induction hl with
  | nil => exact absurd h List.not_mem_nil
  | @cons c l hc hl ih =>
      simp only [insertList]
      split_ifs with hlt heq
      · rw [List.map_cons, List.mem_cons] at h
        rcases h with h | h
        · exact absurd h hlt.ne
        · obtain ⟨b, hb, hkb⟩ := List.mem_map.mp h
          exact absurd (hlt.trans (hc b hb)) (by rw [hkb]; exact lt_irrefl _)
      · rfl
      · rw [List.map_cons, List.mem_cons] at h
        rw [ih (h.resolve_left heq)]

theorem mem_insertList_self {a : α} {l : List α} (h : key a ∉ l.map key) :
    a ∈ insertList key a l := by
  induction l with
  | nil => exact List.mem_singleton_self a
  | cons c l ih =>
      rw [List.map_cons, List.mem_cons, not_or] at h
      simp only [insertList, h.1, if_false]
      split_ifs
      · exact List.mem_cons_self
      · exact List.mem_cons_of_mem c (ih h.2)

/-- A key already present: the container is unchanged. -/
theorem insert_of_hasKey {s : KeyedSet key} {a : α} (h : s.HasKey (key a)) : s.insert a = s := by
  have e := insertList_of_hasKey s.sorted_elems (hasKey_iff.mp h)
  cases s
  simpa only [insert, mk.injEq] using e

/-- A fresh key: exactly `a` is added. -/
theorem mem_insert_of_not_hasKey {s : KeyedSet key} {a b : α} (h : ¬ s.HasKey (key a)) :
    b ∈ s.insert a ↔ b = a ∨ b ∈ s := by
  constructor
  · exact eq_or_mem_of_mem_insertList
  · rintro (rfl | hb)
    · exact mem_insertList_self (mt hasKey_iff.mpr h)
    · exact mem_insertList_of_mem hb

theorem mem_insert {s : KeyedSet key} {a b : α} :
    b ∈ s.insert a ↔ b ∈ s ∨ (b = a ∧ ¬ s.HasKey (key a)) := by
  by_cases h : s.HasKey (key a)
  · simp [insert_of_hasKey h, h]
  · rw [mem_insert_of_not_hasKey h, or_comm]
    simp [h]

/-- With an injective key nothing is refused that is not there already. -/
theorem mem_insert_of_injective (hkey : Function.Injective key) {s : KeyedSet key} {a b : α} :
    b ∈ s.insert a ↔ b = a ∨ b ∈ s := by
  rw [mem_insert]
  constructor
  · rintro (hb | ⟨rfl, -⟩)
    · exact Or.inr hb
    · exact Or.inl rfl
  · rintro (rfl | hb)
    · by_cases h : s.HasKey (key b)
      · obtain ⟨c, hc, hcb⟩ := h
        rw [← hkey hcb]
        exact Or.inl hc
      · exact Or.inr ⟨rfl, h⟩
    · exact Or.inl hb

theorem mem_foldl_insert (hkey : Function.Injective key) {l : List α} {s : KeyedSet key} {b : α} :
    b ∈ l.foldl (fun s a => s.insert a) s ↔ b ∈ l ∨ b ∈ s := by
  induction l generalizing s with
  | nil => simp
  | cons a l ih =>
      rw [List.foldl_cons, ih, mem_insert_of_injective hkey, List.mem_cons]
      tauto

/-! ## Erasure, filtering and updates that keep the keys -/

/-- Keep the elements that satisfy `p`. -/
def filter (p : α → Bool) (s : KeyedSet key) : KeyedSet key :=
  ⟨s.elems.filter p, List.pairwise_map.mpr (s.sorted_elems.filter p)⟩

@[simp] theorem mem_filter {s : KeyedSet key} {p : α → Bool} {a : α} :
    a ∈ s.filter p ↔ a ∈ s ∧ p a = true := by
  simp only [mem_def, filter, List.mem_filter]

/-- `std::set::erase` by value. -/
def erase (a : α) (s : KeyedSet key) : KeyedSet key :=
  s.filter fun b => decide (key b ≠ key a)

@[simp] theorem mem_erase {s : KeyedSet key} {a b : α} :
    b ∈ s.erase a ↔ b ∈ s ∧ key b ≠ key a := by
  simp [erase]

/-- Replace the elements by others with the same keys in the same order. -/
def withElems (s : KeyedSet key) (l : List α) (h : l.map key = s.elems.map key) : KeyedSet key :=
  ⟨l, h ▸ s.sorted⟩

/-! ## Searches that leave early -/

/-- Iterate until an element is `found`, or one is `past` the place where it could be. -/
def findUntil (found past : α → Bool) : List α → Option α
  | [] => none
  | a :: l => if found a then some a else if past a then none else findUntil found past l

/-- **The early exit is sound** when nothing behind an element that is past is found: the search is
the exhaustive one. -/
theorem findUntil_eq_find? {found past : α → Bool} {l : List α}
    (h : l.Pairwise fun a b => past a = true → found b = false) :
    findUntil found past l = l.find? found := by
  induction h with
  | nil => rfl
  | @cons a l hpast _ ih =>
      rw [findUntil]
      by_cases hfound : found a = true
      · rw [if_pos hfound, List.find?_cons_of_pos hfound]
      · rw [if_neg hfound, List.find?_cons_of_neg hfound]
        by_cases hp : past a = true
        · rw [if_pos hp, eq_comm, List.find?_eq_none]
          intro b hb
          rw [hpast b hb hp]
          exact Bool.false_ne_true
        · rw [if_neg hp, ih]

/-- What the exhaustive search of a set finds is the element with the least key. -/
theorem find?_eq_some_iff_least {s : KeyedSet key} {p : α → Bool} {a : α} :
    s.elems.find? p = some a ↔ a ∈ s ∧ p a = true ∧ ∀ b ∈ s, p b = true → key a ≤ key b := by
  have hleast : ∀ {a}, s.elems.find? p = some a →
      a ∈ s ∧ p a = true ∧ ∀ b ∈ s, p b = true → key a ≤ key b := by
    intro a hfind
    obtain ⟨hp, front, back, helems, hfront⟩ := List.find?_eq_some_iff_append.mp hfind
    have hsorted := s.sorted_elems
    simp only [mem_def, helems] at hsorted ⊢
    refine ⟨List.mem_append_right _ List.mem_cons_self, hp, ?_⟩
    intro b hb hpb
    rcases List.mem_append.mp hb with hb | hb
    · exact absurd hpb (by simpa using hfront b hb)
    · rcases List.mem_cons.mp hb with rfl | hb
      · exact le_rfl
      · exact (List.rel_of_pairwise_cons (List.pairwise_append.mp hsorted).2.1 hb).le
  refine ⟨hleast, ?_⟩
  rintro ⟨ha, hpa, hmin⟩
  cases hfind : s.elems.find? p with
  | none => exact absurd hpa (List.find?_eq_none.mp hfind a ha)
  | some b =>
      obtain ⟨hb, hpb, hminb⟩ := hleast hfind
      rw [s.eq_of_key_eq ha hb (le_antisymm (hmin b hb hpb) (hminb a ha hpa))]

/-! ## Extensionality -/

/-- Two sets with the same elements are the same container. -/
theorem ext {s t : KeyedSet key} (h : ∀ a, a ∈ s ↔ a ∈ t) : s = t := by
  have hperm : s.elems.Perm t.elems := by
    refine (List.perm_ext_iff_of_nodup ?_ ?_).mpr h
    · exact s.sorted_elems.imp fun hlt e => absurd (e ▸ hlt) (lt_irrefl _)
    · exact t.sorted_elems.imp fun hlt e => absurd (e ▸ hlt) (lt_irrefl _)
  have e := hperm.eq_of_pairwise (fun a b _ _ hab hba => absurd hab (not_lt.mpr hba.le))
    s.sorted_elems t.sorted_elems
  cases s
  cases t
  simpa using e

end KeyedSet
