import RaftLsmt.Lib.StepMachine
import Mathlib.Data.List.Sort
import Mathlib.Tactic

/-!
# Merging lists sorted by a key

Lists over an arbitrary type with a key in a linear order. `SortedBy` allows equal neighbouring
keys, `StrictBy` does not. `insertNew` adds an entry under a new key. `shadowMerge` merges two such
lists; where both carry a key it keeps the left entry and drops one right entry. The key set of the
merge is the union (`mem_keys_shadowMerge`), and the merge is strict exactly when the right list is
(`strictBy_shadowMerge`, `StrictBy.of_shadowMerge`). `mergeStep` is the same merge one entry at a
time.

`SelectsLeast` is the rule for a source that always hands out a least remaining entry: draining it
lists the remaining entries in order (`SelectsLeast.drain_sorted_perm`), and enough fuel always
finishes (`SelectsLeast.drain_eq_some`).
-/

set_option autoImplicit false

namespace RaftLsmt.Lib.SortedMerge

open RaftLsmt.Lib.StepMachine

universe u v w

variable {α : Type u} {κ : Type v} [LinearOrder κ] (f : α → κ)

/-- Keys never decrease along the list. -/
def SortedBy (l : List α) : Prop := l.Pairwise fun a b => f a ≤ f b

/-- Keys strictly increase along the list. -/
def StrictBy (l : List α) : Prop := l.Pairwise fun a b => f a < f b

/-- Entries whose key lies in `[lo, hi]`. -/
def InRange (lo hi : κ) (a : α) : Prop := lo ≤ f a ∧ f a ≤ hi

instance (lo hi : κ) (a : α) : Decidable (InRange f lo hi a) :=
  inferInstanceAs (Decidable (_ ∧ _))

/-- The sublist with keys in `[lo, hi]`. -/
def rangeFilter (lo hi : κ) (l : List α) : List α := l.filter fun a => InRange f lo hi a

variable {f}

@[simp]
theorem sortedBy_nil : SortedBy f [] := List.Pairwise.nil

@[simp]
theorem strictBy_nil : StrictBy f [] := List.Pairwise.nil

theorem sortedBy_cons {a : α} {l : List α} :
    SortedBy f (a :: l) ↔ (∀ b ∈ l, f a ≤ f b) ∧ SortedBy f l := List.pairwise_cons

theorem strictBy_cons {a : α} {l : List α} :
    StrictBy f (a :: l) ↔ (∀ b ∈ l, f a < f b) ∧ StrictBy f l := List.pairwise_cons

theorem StrictBy.sortedBy {l : List α} (h : StrictBy f l) : SortedBy f l :=
  List.Pairwise.imp (fun hab => le_of_lt hab) h

theorem SortedBy.sublist {l m : List α} (h : SortedBy f m) (hl : l.Sublist m) : SortedBy f l :=
  List.Pairwise.sublist hl h

theorem StrictBy.sublist {l m : List α} (h : StrictBy f m) (hl : l.Sublist m) : StrictBy f l :=
  List.Pairwise.sublist hl h

/-- A sorted list is strict exactly when no key repeats. -/
theorem SortedBy.strictBy_iff_nodup {l : List α} (h : SortedBy f l) :
    StrictBy f l ↔ (l.map f).Nodup := by
  induction l with
  | nil => simp
  | cons a l ih =>
    obtain ⟨ha, hl⟩ := sortedBy_cons.mp h
    rw [strictBy_cons, List.map_cons, List.nodup_cons, ih hl]
    refine and_congr_left fun _ => ?_
    constructor
    · intro hlt hmem
      obtain ⟨b, hb, hba⟩ := List.mem_map.mp hmem
      exact absurd hba (ne_of_gt (hlt b hb))
    · intro hne b hb
      refine lt_of_le_of_ne (ha b hb) fun hab => hne ?_
      rw [hab]
      exact List.mem_map_of_mem hb

theorem StrictBy.nodup_keys {l : List α} (h : StrictBy f l) : (l.map f).Nodup :=
  h.sortedBy.strictBy_iff_nodup.mp h

/-- Two strict lists with the same entries are equal. -/
theorem StrictBy.eq_of_perm {l m : List α} (hl : StrictBy f l) (hm : StrictBy f m)
    (h : l.Perm m) : l = m :=
  List.Perm.eq_of_pairwise (fun _ _ _ _ hab hba => absurd hab (lt_asymm hba)) hl hm h

@[simp]
theorem mem_rangeFilter {lo hi : κ} {l : List α} {a : α} :
    a ∈ rangeFilter f lo hi l ↔ a ∈ l ∧ InRange f lo hi a := by
  simp [rangeFilter]

theorem rangeFilter_sublist (lo hi : κ) (l : List α) : (rangeFilter f lo hi l).Sublist l :=
  List.filter_sublist

@[simp]
theorem rangeFilter_append (lo hi : κ) (l m : List α) :
    rangeFilter f lo hi (l ++ m) = rangeFilter f lo hi l ++ rangeFilter f lo hi m := by
  simp [rangeFilter]

theorem rangeFilter_eq_nil {lo hi : κ} {l : List α} (h : ∀ a ∈ l, ¬ InRange f lo hi a) :
    rangeFilter f lo hi l = [] := by
  simp only [rangeFilter, List.filter_eq_nil_iff, decide_eq_true_eq]
  exact h

theorem rangeFilter_eq_self {lo hi : κ} {l : List α} (h : ∀ a ∈ l, InRange f lo hi a) :
    rangeFilter f lo hi l = l := by
  simp only [rangeFilter, List.filter_eq_self, decide_eq_true_eq]
  exact h

theorem rangeFilter_perm {lo hi : κ} {l m : List α} (h : l.Perm m) :
    (rangeFilter f lo hi l).Perm (rangeFilter f lo hi m) := h.filter _

/-- Past the first entry above `hi` a sorted list has nothing in range. -/
theorem SortedBy.rangeFilter_of_gt {lo hi : κ} {a : α} {l : List α}
    (h : SortedBy f (a :: l)) (ha : hi < f a) : rangeFilter f lo hi (a :: l) = [] := by
  obtain ⟨hal, -⟩ := sortedBy_cons.mp h
  apply rangeFilter_eq_nil
  intro b hb hin
  rcases List.mem_cons.mp hb with rfl | hb
  · exact absurd hin.2 (not_le_of_gt ha)
  · exact absurd (le_trans (hal b hb) hin.2) (not_le_of_gt ha)

theorem rangeFilter_cons_of_mem {lo hi : κ} {a : α} {l : List α} (ha : InRange f lo hi a) :
    rangeFilter f lo hi (a :: l) = a :: rangeFilter f lo hi l := by
  simp [rangeFilter, ha]

theorem rangeFilter_cons_of_not_mem {lo hi : κ} {a : α} {l : List α}
    (ha : ¬ InRange f lo hi a) :
    rangeFilter f lo hi (a :: l) = rangeFilter f lo hi l := by
  simp [rangeFilter, ha]

/-- Cutting a sorted list that starts at `lo` behind `hi` gives its range. -/
theorem SortedBy.takeWhile_eq_rangeFilter {hi : κ} {l : List α} (h : SortedBy f l) (lo : κ)
    (hlo : ∀ a ∈ l, lo ≤ f a) :
    (l.takeWhile fun a => f a ≤ hi) = rangeFilter f lo hi l := by
  induction l with
  | nil => rfl
  | cons a l ih =>
    obtain ⟨-, hl⟩ := sortedBy_cons.mp h
    by_cases ha : f a ≤ hi
    · have hin : InRange f lo hi a := ⟨hlo a List.mem_cons_self, ha⟩
      rw [List.takeWhile_cons_of_pos (by simpa using ha), rangeFilter_cons_of_mem hin,
        ih hl fun b hb => hlo b (List.mem_cons_of_mem a hb)]
    · rw [List.takeWhile_cons_of_neg (by simpa using ha),
        h.rangeFilter_of_gt (not_le.mp ha)]

/-- Skipping what is below `lo` and stopping behind `hi` gives the range of a sorted list. -/
theorem SortedBy.dropWhile_takeWhile_eq_rangeFilter {lo hi : κ} {l : List α}
    (h : SortedBy f l) :
    ((l.dropWhile fun a => f a < lo).takeWhile fun a => f a ≤ hi) =
      rangeFilter f lo hi l := by
  induction l with
  | nil => rfl
  | cons a l ih =>
    obtain ⟨hal, hl⟩ := sortedBy_cons.mp h
    by_cases ha : f a < lo
    · rw [List.dropWhile_cons_of_pos (by simpa using ha), ih hl,
        rangeFilter_cons_of_not_mem fun hin => absurd hin.1 (not_le_of_gt ha)]
    · rw [List.dropWhile_cons_of_neg (by simpa using ha), h.takeWhile_eq_rangeFilter lo]
      intro b hb
      rcases List.mem_cons.mp hb with rfl | hb
      · exact not_lt.mp ha
      · exact le_trans (not_lt.mp ha) (hal b hb)

/-- In a strict list, dropping up to a key leaves the entry with that key and what follows it. -/
theorem StrictBy.dropWhile_ne {pre next : List α} {a : α} (h : StrictBy f (pre ++ a :: next)) :
    ((pre ++ a :: next).dropWhile fun b => f b ≠ f a) = a :: next := by
  induction pre with
  | nil => exact List.dropWhile_cons_of_neg (by simp)
  | cons b pre ih =>
    obtain ⟨hb, h'⟩ := strictBy_cons.mp h
    have hne : f b ≠ f a := ne_of_lt (hb a (by simp))
    rw [List.cons_append, List.dropWhile_cons_of_pos (by simpa using hne)]
    exact ih h'

/-! ## Inserting a new key -/

variable (f)

/-- Insert in front of the first larger key; `none` when the key is there already. -/
def insertNew (a : α) : List α → Option (List α)
  | [] => some [a]
  | b :: l =>
    if f b < f a then (insertNew a l).map (b :: ·)
    else if f a < f b then some (a :: b :: l)
    else none

variable {f}

theorem insertNew_perm {a : α} {l m : List α} (h : insertNew f a l = some m) :
    m.Perm (a :: l) := by
  induction l generalizing m with
  | nil =>
    cases h
    exact List.Perm.refl _
  | cons b l ih =>
    rw [insertNew] at h
    split at h
    · obtain ⟨m', hm', rfl⟩ := Option.map_eq_some_iff.mp h
      exact ((ih hm').cons b).trans (List.Perm.swap a b l)
    · split at h
      · cases h
        exact List.Perm.refl _
      · cases h

theorem strictBy_insertNew {a : α} {l m : List α} (hl : StrictBy f l)
    (h : insertNew f a l = some m) : StrictBy f m := by
  induction l generalizing m with
  | nil =>
    cases h
    exact strictBy_cons.mpr ⟨by simp, strictBy_nil⟩
  | cons b l ih =>
    obtain ⟨hb, hl'⟩ := strictBy_cons.mp hl
    rw [insertNew] at h
    split at h
    · rename_i hba
      obtain ⟨m', hm', rfl⟩ := Option.map_eq_some_iff.mp h
      refine strictBy_cons.mpr ⟨fun x hx => ?_, ih hl' hm'⟩
      rcases List.mem_cons.mp ((insertNew_perm hm').subset hx) with rfl | hx
      · exact hba
      · exact hb x hx
    · split at h
      · rename_i hab
        cases h
        refine strictBy_cons.mpr ⟨fun x hx => ?_, hl⟩
        rcases List.mem_cons.mp hx with rfl | hx
        · exact hab
        · exact lt_trans hab (hb x hx)
      · cases h

/-- The place of a new entry. -/
theorem insertNew_append {a : α} {l m : List α} (hl : ∀ b ∈ l, f b < f a) (hm : ∀ b ∈ m, f a < f b) :
    insertNew f a (l ++ m) = some (l ++ a :: m) := by
  induction l with
  | nil =>
    cases m with
    | nil => rfl
    | cons b m =>
      have hlt := hm b List.mem_cons_self
      rw [List.nil_append, insertNew, if_neg (lt_asymm hlt), if_pos hlt]
      rfl
  | cons b l ih =>
    rw [List.cons_append, insertNew, if_pos (hl b List.mem_cons_self),
      ih fun c hc => hl c (List.mem_cons_of_mem _ hc)]
    rfl

/-- The insertion is refused exactly when the key is present. -/
theorem insertNew_eq_none_iff {a : α} {l : List α} (hl : StrictBy f l) :
    insertNew f a l = none ↔ ∃ b ∈ l, f b = f a := by
  induction l with
  | nil => simp [insertNew]
  | cons b l ih =>
    obtain ⟨hb, hl'⟩ := strictBy_cons.mp hl
    rw [insertNew]
    split
    · rename_i hba
      rw [Option.map_eq_none_iff, ih hl', List.exists_mem_cons_iff]
      simp [ne_of_lt hba]
    · split
      · rename_i hab
        refine iff_of_false (by simp) ?_
        rintro ⟨x, hx, hxa⟩
        rcases List.mem_cons.mp hx with rfl | hx
        · exact absurd hxa (ne_of_gt hab)
        · exact absurd hxa (ne_of_gt (lt_trans hab (hb x hx)))
      · rename_i hba hab
        exact iff_of_true rfl ⟨b, List.mem_cons_self, le_antisymm (not_lt.mp hab) (not_lt.mp hba)⟩

/-! ## The shadowing merge -/

variable (f)

/-- Merge by key; on equal heads the left entry is kept and one right entry is dropped. -/
def shadowMerge : List α → List α → List α
  | [], r => r
  | a :: l, [] => a :: l
  | a :: l, b :: r =>
    if f a < f b then a :: shadowMerge l (b :: r)
    else if f b < f a then b :: shadowMerge (a :: l) r
    else a :: shadowMerge l r
termination_by l r => l.length + r.length

variable {f}

@[simp]
theorem shadowMerge_nil_left (r : List α) : shadowMerge f [] r = r := by
  rw [shadowMerge]

@[simp]
theorem shadowMerge_nil_right (l : List α) : shadowMerge f l [] = l := by
  cases l <;> rw [shadowMerge]

theorem shadowMerge_cons_of_lt {a b : α} (h : f a < f b) (l r : List α) :
    shadowMerge f (a :: l) (b :: r) = a :: shadowMerge f l (b :: r) := by
  rw [shadowMerge, if_pos h]

theorem shadowMerge_cons_of_gt {a b : α} (h : f b < f a) (l r : List α) :
    shadowMerge f (a :: l) (b :: r) = b :: shadowMerge f (a :: l) r := by
  rw [shadowMerge, if_neg (lt_asymm h), if_pos h]

theorem shadowMerge_cons_of_eq {a b : α} (h : f a = f b) (l r : List α) :
    shadowMerge f (a :: l) (b :: r) = a :: shadowMerge f l r := by
  rw [shadowMerge, if_neg (by rw [h]; exact lt_irrefl _), if_neg (by rw [h]; exact lt_irrefl _)]

/-- Case analysis on a merge: one list is empty, or the heads compare in one of three ways. -/
theorem shadowMerge_induction {P : List α → List α → Prop}
    (nilLeft : ∀ r, P [] r) (nilRight : ∀ l, P l [])
    (lt : ∀ a l b r, f a < f b → P l (b :: r) → P (a :: l) (b :: r))
    (gt : ∀ a l b r, f b < f a → P (a :: l) r → P (a :: l) (b :: r))
    (eq : ∀ a l b r, f a = f b → P l r → P (a :: l) (b :: r)) :
    ∀ l r, P l r
  | [], r => nilLeft r
  | a :: l, [] => nilRight (a :: l)
  | a :: l, b :: r =>
    if hlt : f a < f b then
      lt a l b r hlt (shadowMerge_induction nilLeft nilRight lt gt eq l (b :: r))
    else if hgt : f b < f a then
      gt a l b r hgt (shadowMerge_induction nilLeft nilRight lt gt eq (a :: l) r)
    else
      eq a l b r (le_antisymm (not_lt.mp hgt) (not_lt.mp hlt))
        (shadowMerge_induction nilLeft nilRight lt gt eq l r)
termination_by l r => l.length + r.length

theorem mem_of_mem_shadowMerge {x : α} (l r : List α) (h : x ∈ shadowMerge f l r) :
    x ∈ l ∨ x ∈ r := by
  induction l, r using shadowMerge_induction (f := f) with
  | nilLeft r => exact Or.inr (by simpa using h)
  | nilRight l => exact Or.inl (by simpa using h)
  | lt a l b r hab ih =>
    rw [shadowMerge_cons_of_lt hab] at h
    rcases List.mem_cons.mp h with rfl | h
    · exact Or.inl List.mem_cons_self
    · exact (ih h).imp (List.mem_cons_of_mem _) id
  | gt a l b r hba ih =>
    rw [shadowMerge_cons_of_gt hba] at h
    rcases List.mem_cons.mp h with rfl | h
    · exact Or.inr List.mem_cons_self
    · exact (ih h).imp id (List.mem_cons_of_mem _)
  | eq a l b r hab ih =>
    rw [shadowMerge_cons_of_eq hab] at h
    rcases List.mem_cons.mp h with rfl | h
    · exact Or.inl List.mem_cons_self
    · exact (ih h).imp (List.mem_cons_of_mem _) (List.mem_cons_of_mem _)

/-- The merge carries exactly the keys of the two lists. -/
theorem mem_keys_shadowMerge {k : κ} (l r : List α) :
    k ∈ (shadowMerge f l r).map f ↔ k ∈ l.map f ∨ k ∈ r.map f := by
  induction l, r using shadowMerge_induction (f := f) with
  | nilLeft r => simp
  | nilRight l => simp
  | lt a l b r hab ih =>
    rw [shadowMerge_cons_of_lt hab, List.map_cons, List.mem_cons, ih, List.map_cons (l := l),
      List.mem_cons, or_assoc]
  | gt a l b r hba ih =>
    rw [shadowMerge_cons_of_gt hba, List.map_cons, List.mem_cons, ih, List.map_cons (l := r),
      List.mem_cons, or_left_comm]
  | eq a l b r hab ih =>
    rw [shadowMerge_cons_of_eq hab, List.map_cons, List.mem_cons, ih, List.map_cons, List.mem_cons,
      List.map_cons, List.mem_cons, ← hab]
    tauto

theorem lt_of_mem_shadowMerge {k : κ} {l r : List α} (hl : ∀ a ∈ l, k < f a)
    (hr : ∀ b ∈ r, k < f b) : ∀ x ∈ shadowMerge f l r, k < f x := by
  intro x hx
  rcases mem_of_mem_shadowMerge l r hx with h | h
  · exact hl x h
  · exact hr x h

/-- Merging a strict list into a strict list gives a strict list. -/
theorem strictBy_shadowMerge {l r : List α} (hl : StrictBy f l) (hr : StrictBy f r) :
    StrictBy f (shadowMerge f l r) := by
  induction l, r using shadowMerge_induction (f := f) with
  | nilLeft r => simpa using hr
  | nilRight l => simpa using hl
  | lt a l b r hab ih =>
    obtain ⟨hal, hl'⟩ := strictBy_cons.mp hl
    obtain ⟨hbr, -⟩ := strictBy_cons.mp hr
    rw [shadowMerge_cons_of_lt hab, strictBy_cons]
    refine ⟨lt_of_mem_shadowMerge hal fun x hx => ?_, ih hl' hr⟩
    rcases List.mem_cons.mp hx with rfl | hx
    · exact hab
    · exact lt_trans hab (hbr x hx)
  | gt a l b r hba ih =>
    obtain ⟨hal, -⟩ := strictBy_cons.mp hl
    obtain ⟨hbr, hr'⟩ := strictBy_cons.mp hr
    rw [shadowMerge_cons_of_gt hba, strictBy_cons]
    refine ⟨lt_of_mem_shadowMerge (fun x hx => ?_) hbr, ih hl hr'⟩
    rcases List.mem_cons.mp hx with rfl | hx
    · exact hba
    · exact lt_trans hba (hal x hx)
  | eq a l b r hab ih =>
    obtain ⟨hal, hl'⟩ := strictBy_cons.mp hl
    obtain ⟨hbr, hr'⟩ := strictBy_cons.mp hr
    rw [shadowMerge_cons_of_eq hab, strictBy_cons]
    exact ⟨lt_of_mem_shadowMerge hal fun x hx => hab ▸ hbr x hx, ih hl' hr'⟩

/-- A strict merge leaves no repeated key in the right list: each equal pair drops one right entry
only, so a second copy of a key would show up next to the first. -/
theorem StrictBy.of_shadowMerge (l r : List α) (h : StrictBy f (shadowMerge f l r)) :
    StrictBy f r := by
  have below : ∀ {k : κ} {l r : List α}, (∀ x ∈ shadowMerge f l r, k < f x) →
      ∀ b ∈ r, k < f b := by
    intro k l r hall b hb
    have hmem : f b ∈ (shadowMerge f l r).map f :=
      (mem_keys_shadowMerge l r).mpr (Or.inr (List.mem_map_of_mem hb))
    obtain ⟨x, hx, hxb⟩ := List.mem_map.mp hmem
    exact hxb ▸ hall x hx
  induction l, r using shadowMerge_induction (f := f) with
  | nilLeft r => simpa using h
  | nilRight l => simp
  | lt a l b r hab ih =>
    rw [shadowMerge_cons_of_lt hab, strictBy_cons] at h
    exact ih h.2
  | gt a l b r hba ih =>
    rw [shadowMerge_cons_of_gt hba, strictBy_cons] at h
    exact strictBy_cons.mpr ⟨below h.1, ih h.2⟩
  | eq a l b r hab ih =>
    rw [shadowMerge_cons_of_eq hab, strictBy_cons] at h
    refine strictBy_cons.mpr ⟨fun x hx => ?_, ih h.2⟩
    exact hab ▸ below h.1 x hx

/-- The merge of strict lists has the left entries, and the right ones under other keys. -/
theorem mem_shadowMerge_iff {x : α} {l r : List α} (hl : StrictBy f l) (hr : StrictBy f r) :
    x ∈ shadowMerge f l r ↔ x ∈ l ∨ x ∈ r ∧ ∀ a ∈ l, f a ≠ f x := by
  induction l, r using shadowMerge_induction (f := f) with
  | nilLeft r => simp
  | nilRight l => simp
  -- the right entries are all above `a`
  | lt a l b r hab ih =>
    obtain ⟨-, hl'⟩ := strictBy_cons.mp hl
    have hne : ∀ y ∈ b :: r, f a ≠ f y := by
      intro y hy
      rcases List.mem_cons.mp hy with rfl | hy
      · exact ne_of_lt hab
      · exact ne_of_lt (lt_trans hab ((strictBy_cons.mp hr).1 y hy))
    rw [shadowMerge_cons_of_lt hab, List.mem_cons, ih hl' hr, @List.mem_cons _ a l x, or_assoc]
    refine or_congr_right (or_congr_right (and_congr_right fun hx => ?_))
    rw [List.forall_mem_cons]
    exact (and_iff_right (hne x hx)).symm
  -- the left entries are all above `b`
  | gt a l b r hba ih =>
    obtain ⟨-, hr'⟩ := strictBy_cons.mp hr
    have hne : ∀ y ∈ a :: l, f y ≠ f b := by
      intro y hy
      rcases List.mem_cons.mp hy with rfl | hy
      · exact ne_of_gt hba
      · exact ne_of_gt (lt_trans hba ((strictBy_cons.mp hl).1 y hy))
    rw [shadowMerge_cons_of_gt hba, List.mem_cons, ih hl hr', @List.mem_cons _ b r x]
    constructor
    · rintro (rfl | hx | ⟨hx, hkeys⟩)
      · exact Or.inr ⟨Or.inl rfl, hne⟩
      · exact Or.inl hx
      · exact Or.inr ⟨Or.inr hx, hkeys⟩
    · rintro (hx | ⟨rfl | hx, hkeys⟩)
      · exact Or.inr (Or.inl hx)
      · exact Or.inl rfl
      · exact Or.inr (Or.inr ⟨hx, hkeys⟩)
  -- `b` is the entry that is shadowed
  | eq a l b r hab ih =>
    obtain ⟨-, hl'⟩ := strictBy_cons.mp hl
    obtain ⟨hbr, hr'⟩ := strictBy_cons.mp hr
    rw [shadowMerge_cons_of_eq hab, List.mem_cons, ih hl' hr', @List.mem_cons _ a l x, or_assoc]
    refine or_congr_right (or_congr_right ?_)
    rw [List.mem_cons, List.forall_mem_cons]
    constructor
    · rintro ⟨hx, hkeys⟩
      exact ⟨Or.inr hx, hab ▸ ne_of_lt (hbr x hx), hkeys⟩
    · rintro ⟨rfl | hx, hne, hkeys⟩
      · exact absurd hab hne
      · exact ⟨hx, hkeys⟩

/-- With no key in common nothing is dropped. -/
theorem shadowMerge_perm_append (l r : List α) (hdisj : ∀ a ∈ l, ∀ b ∈ r, f a ≠ f b) :
    (shadowMerge f l r).Perm (l ++ r) := by
  induction l, r using shadowMerge_induction (f := f) with
  | nilLeft r => simp
  | nilRight l => simp
  | lt a l b r hab ih =>
    rw [shadowMerge_cons_of_lt hab]
    exact (ih fun x hx y hy => hdisj x (List.mem_cons_of_mem _ hx) y hy).cons a
  | gt a l b r hba ih =>
    rw [shadowMerge_cons_of_gt hba]
    have hperm := ih fun x hx y hy => hdisj x hx y (List.mem_cons_of_mem _ hy)
    exact (hperm.cons b).trans List.perm_middle.symm
  | eq a l b r hab ih =>
    exact absurd hab (hdisj a List.mem_cons_self b List.mem_cons_self)

theorem length_shadowMerge_le (ms rs : List α) :
    (shadowMerge f ms rs).length ≤ ms.length + rs.length := by
  induction ms, rs using shadowMerge_induction (f := f) with
  | nilLeft r => simp
  | nilRight l => simp
  | lt a l b r h ih =>
    rw [shadowMerge_cons_of_lt h]
    simp only [List.length_cons] at ih ⊢
    omega
  | gt a l b r h ih =>
    rw [shadowMerge_cons_of_gt h]
    simp only [List.length_cons] at ih ⊢
    omega
  | eq a l b r h ih =>
    rw [shadowMerge_cons_of_eq h]
    simp only [List.length_cons] at ih ⊢
    omega

/-- How often a key occurs. -/
def keyCount (f : α → κ) (k : κ) (l : List α) : Nat := l.countP fun a => f a = k

@[simp]
theorem keyCount_nil (k : κ) : keyCount f k [] = 0 := rfl

theorem keyCount_cons_of_eq {k : κ} {a : α} (h : f a = k) (l : List α) :
    keyCount f k (a :: l) = keyCount f k l + 1 :=
  List.countP_cons_of_pos (by simpa using h)

theorem keyCount_cons_of_ne {k : κ} {a : α} (h : f a ≠ k) (l : List α) :
    keyCount f k (a :: l) = keyCount f k l :=
  List.countP_cons_of_neg (by simpa using h)

theorem keyCount_eq_zero {k : κ} {l : List α} (h : ∀ a ∈ l, f a ≠ k) : keyCount f k l = 0 := by
  rw [keyCount, List.countP_eq_zero]
  simpa using h

theorem keyCount_pos {k : κ} {a : α} {l : List α} (ha : a ∈ l) (hk : f a = k) :
    0 < keyCount f k l := by
  rw [keyCount, List.countP_pos_iff]
  exact ⟨a, ha, by simpa using hk⟩

/-- A key of the merge occurs as often as in that list in which it occurs more often. -/
theorem keyCount_shadowMerge (k : κ) {l r : List α} (hl : StrictBy f l) (hr : SortedBy f r) :
    keyCount f k (shadowMerge f l r) = max (keyCount f k l) (keyCount f k r) := by
  induction l, r using shadowMerge_induction (f := f) with
  | nilLeft r => simp
  | nilRight l => simp
  | lt a l b r hab ih =>
    obtain ⟨-, hl'⟩ := strictBy_cons.mp hl
    rw [shadowMerge_cons_of_lt hab]
    by_cases hk : f a = k
    · -- every entry of the right list is above `k`
      have hzero : keyCount f k (b :: r) = 0 := by
        apply keyCount_eq_zero
        intro x hx
        rcases List.mem_cons.mp hx with rfl | hx
        · exact hk ▸ ne_of_gt hab
        · exact hk ▸ ne_of_gt (lt_of_lt_of_le hab ((sortedBy_cons.mp hr).1 x hx))
      rw [keyCount_cons_of_eq hk, keyCount_cons_of_eq hk, ih hl' hr, hzero]
      simp
    · rw [keyCount_cons_of_ne hk, keyCount_cons_of_ne hk, ih hl' hr]
  | gt a l b r hba ih =>
    obtain ⟨-, hr'⟩ := sortedBy_cons.mp hr
    rw [shadowMerge_cons_of_gt hba]
    by_cases hk : f b = k
    · -- every entry of the left list is above `k`
      have hzero : keyCount f k (a :: l) = 0 := by
        apply keyCount_eq_zero
        intro x hx
        rcases List.mem_cons.mp hx with rfl | hx
        · exact hk ▸ ne_of_gt hba
        · exact hk ▸ ne_of_gt (lt_trans hba ((strictBy_cons.mp hl).1 x hx))
      rw [keyCount_cons_of_eq hk, keyCount_cons_of_eq hk, ih hl hr', hzero]
      simp
    · rw [keyCount_cons_of_ne hk, keyCount_cons_of_ne hk, ih hl hr']
  -- one entry of the merge stands for one of each list
  | eq a l b r hab ih =>
    obtain ⟨-, hl'⟩ := strictBy_cons.mp hl
    obtain ⟨-, hr'⟩ := sortedBy_cons.mp hr
    rw [shadowMerge_cons_of_eq hab]
    by_cases hk : f a = k
    · rw [keyCount_cons_of_eq hk, keyCount_cons_of_eq hk, keyCount_cons_of_eq (hab ▸ hk),
        ih hl' hr']
      omega
    · rw [keyCount_cons_of_ne hk, keyCount_cons_of_ne hk, keyCount_cons_of_ne (hab ▸ hk),
        ih hl' hr']

/-- An entry put in front of the right list, in order or not, is one more of its key. -/
theorem keyCount_shadowMerge_cons {l r : List α} (b : α) (hl : StrictBy f l)
    (hr : SortedBy f r) :
    keyCount f (f b) (shadowMerge f l (b :: r)) = keyCount f (f b) r + 1 := by
  induction l with
  | nil => rw [shadowMerge_nil_left, keyCount_cons_of_eq rfl]
  | cons a l ih =>
    obtain ⟨hal, hl'⟩ := strictBy_cons.mp hl
    rcases lt_trichotomy (f a) (f b) with hlt | heq | hgt
    · rw [shadowMerge_cons_of_lt hlt, keyCount_cons_of_ne (ne_of_lt hlt), ih hl']
    · have hzero : keyCount f (f b) l = 0 :=
        keyCount_eq_zero fun x hx => heq ▸ ne_of_gt (hal x hx)
      rw [shadowMerge_cons_of_eq heq, keyCount_cons_of_eq heq, keyCount_shadowMerge _ hl' hr,
        hzero, Nat.zero_max]
    · have hzero : keyCount f (f b) (a :: l) = 0 := by
        apply keyCount_eq_zero
        intro x hx
        rcases List.mem_cons.mp hx with rfl | hx
        · exact ne_of_gt hgt
        · exact ne_of_gt (lt_trans hgt (hal x hx))
      rw [shadowMerge_cons_of_gt hgt, keyCount_cons_of_eq rfl, keyCount_shadowMerge _ hl hr,
        hzero, Nat.zero_max]

/-- So it shows, unless the left list alone has its key. -/
theorem shadowMerge_cons_ne {l r : List α} {b : α} (hl : StrictBy f l) (hr : SortedBy f r)
    (hkey : ∀ a ∈ l, f a = f b → ∃ x ∈ r, f x = f b) :
    shadowMerge f l (b :: r) ≠ shadowMerge f l r := by
  intro heq
  have hcount := keyCount_shadowMerge_cons b hl hr
  rw [heq, keyCount_shadowMerge _ hl hr] at hcount
  by_cases hin : ∃ a ∈ l, f a = f b
  · obtain ⟨a, ha, hab⟩ := hin
    obtain ⟨x, hx, hxb⟩ := hkey a ha hab
    have hpos : 0 < keyCount f (f b) r := keyCount_pos hx hxb
    have hone : keyCount f (f b) l ≤ 1 := by
      have hnodup := List.nodup_iff_count_le_one.mp hl.nodup_keys (f b)
      rw [List.count, List.countP_map] at hnodup
      refine le_trans (le_of_eq ?_) hnodup
      exact List.countP_congr (by simp)
    omega
  · have hzero : keyCount f (f b) l = 0 :=
      keyCount_eq_zero fun a ha hab => hin ⟨a, ha, hab⟩
    omega

/-! ## The merge as a machine -/

variable (f)

/-- One step of the shadowing merge: the entry handed out and what is left of the two lists. -/
def mergeStep : List α → List α → Option (α × List α × List α)
  | [], [] => none
  | a :: l, [] => some (a, l, [])
  | [], b :: r => some (b, [], r)
  | a :: l, b :: r =>
    if f a < f b then some (a, l, b :: r)
    else if f b < f a then some (b, a :: l, r)
    else some (a, l, r)

variable {f}

theorem mergeStep_none {l r : List α} (h : mergeStep f l r = none) : l = [] ∧ r = [] := by
  cases l with
  | nil =>
    cases r with
    | nil => exact ⟨rfl, rfl⟩
    | cons b r => cases h
  | cons a l =>
    cases r with
    | nil => cases h
    | cons b r =>
      rw [mergeStep] at h
      split_ifs at h

theorem mergeStep_some {l r l' r' : List α} {a : α} (h : mergeStep f l r = some (a, l', r')) :
    shadowMerge f l r = a :: shadowMerge f l' r' := by
  cases l with
  | nil =>
    cases r with
    | nil => cases h
    | cons b r =>
      cases h
      simp
  | cons x l =>
    cases r with
    | nil =>
      cases h
      simp
    | cons b r =>
      rw [mergeStep] at h
      rw [shadowMerge]
      split_ifs at h ⊢ <;> cases h <;> rfl

/-- A step takes entries off the two lists only. -/
theorem mergeStep_subset {l r l' r' : List α} {a : α}
    (h : mergeStep f l r = some (a, l', r')) : (a ∈ l ∨ a ∈ r) ∧ l' ⊆ l ∧ r' ⊆ r := by
  cases l with
  | nil =>
    cases r with
    | nil => cases h
    | cons b r =>
      cases h
      exact ⟨Or.inr List.mem_cons_self, List.Subset.refl _, List.subset_cons_self _ _⟩
  | cons x l =>
    cases r with
    | nil =>
      cases h
      exact ⟨Or.inl List.mem_cons_self, List.subset_cons_self _ _, List.Subset.refl _⟩
    | cons b r =>
      rw [mergeStep] at h
      split_ifs at h <;> cases h
      · exact ⟨Or.inl List.mem_cons_self, List.subset_cons_self _ _, List.Subset.refl _⟩
      · exact ⟨Or.inr List.mem_cons_self, List.Subset.refl _, List.subset_cons_self _ _⟩
      · exact ⟨Or.inl List.mem_cons_self, List.subset_cons_self _ _, List.subset_cons_self _ _⟩

/-- A source over two lists that hands out what `mergeStep` does is drained to their merge. -/
theorem drain_eq_shadowMerge {S : Type w} {next : S → Option (Option α × S)}
    {R : S → List α → List α → Prop}
    (hnone : ∀ s l r, R s l r → mergeStep f l r = none → ∃ t, next s = some (none, t))
    (hsome : ∀ s l r a l' r', R s l r → mergeStep f l r = some (a, l', r') →
      ∃ t, next s = some (some a, t) ∧ R t l' r') :
    ∀ (fuel : Nat) (s : S) (l r : List α), R s l r → (shadowMerge f l r).length < fuel →
      drain next fuel s = some (shadowMerge f l r) := by
  intro fuel
  induction fuel with
  | zero =>
    intro s l r _ hlen
    omega
  | succ fuel ih =>
    intro s l r hrep hlen
    rw [drain]
    cases hstep : mergeStep f l r with
    | none =>
      obtain ⟨t, ht⟩ := hnone s l r hrep hstep
      obtain ⟨rfl, rfl⟩ := mergeStep_none hstep
      simp [ht]
    | some p =>
      obtain ⟨a, l', r'⟩ := p
      obtain ⟨t, ht, hrep'⟩ := hsome s l r a l' r' hrep hstep
      rw [mergeStep_some hstep, List.length_cons] at hlen
      simp [ht, mergeStep_some hstep, ih t l' r' hrep' (by omega)]

/-! ## Sources that hand out a least entry -/

section Source

variable {S : Type w} (next : S → Option (Option α × S)) (remaining : S → List α) (Inv : S → Prop)

/-- `next` hands out an entry with a least key among the remaining ones, and answers `none` only
when nothing remains. -/
structure SelectsLeast (f : α → κ) : Prop where
  done : ∀ s t, Inv s → next s = some (none, t) → remaining s = []
  more : ∀ s a t, Inv s → next s = some (some a, t) →
    Inv t ∧ (remaining s).Perm (a :: remaining t) ∧ ∀ b ∈ remaining t, f a ≤ f b

variable {next remaining Inv}

/-- Draining such a source lists its remaining entries in key order. -/
theorem SelectsLeast.drain_sorted_perm (h : SelectsLeast next remaining Inv f) :
    ∀ (fuel : Nat) (s : S) (out : List α), Inv s → drain next fuel s = some out →
      SortedBy f out ∧ out.Perm (remaining s) := by
  intro fuel
  induction fuel with
  | zero =>
    intro s out _ hout
    simp [drain] at hout
  | succ fuel ih =>
    intro s out hs hout
    rw [drain] at hout
    cases hn : next s with
    | none => simp [hn] at hout
    | some answer =>
      obtain ⟨a, t⟩ := answer
      cases a with
      | none =>
        simp only [hn, Option.some.injEq] at hout
        subst hout
        rw [h.done s t hs hn]
        exact ⟨sortedBy_nil, List.Perm.nil⟩
      | some a =>
        simp only [hn, Option.map_eq_some_iff] at hout
        obtain ⟨tail, htail, rfl⟩ := hout
        obtain ⟨ht, hperm, hleast⟩ := h.more s a t hs hn
        obtain ⟨hsorted, htperm⟩ := ih t tail ht htail
        refine ⟨sortedBy_cons.mpr ⟨fun b hb => hleast b (htperm.subset hb), hsorted⟩, ?_⟩
        exact (htperm.cons a).trans hperm.symm

/-- A second invariant may be carried along. -/
theorem SelectsLeast.and {Inv₂ : S → Prop} (h : SelectsLeast next remaining Inv f)
    (hstep : ∀ s a t, Inv₂ s → next s = some (some a, t) → Inv₂ t) :
    SelectsLeast next remaining (fun s => Inv s ∧ Inv₂ s) f where
  done s t hs hn := h.done s t hs.1 hn
  more s a t hs hn := by
    obtain ⟨ht, hperm, hleast⟩ := h.more s a t hs.1 hn
    exact ⟨⟨ht, hstep s a t hs.2 hn⟩, hperm, hleast⟩

/-- When the program never stops, fuel above the number of remaining entries suffices. -/
theorem SelectsLeast.drain_eq_some (h : SelectsLeast next remaining Inv f)
    (hlive : ∀ s, Inv s → next s ≠ none) :
    ∀ (fuel : Nat) (s : S), Inv s → (remaining s).length < fuel →
      ∃ out, drain next fuel s = some out := by
  intro fuel
  induction fuel with
  | zero =>
    intro s _ hlen
    omega
  | succ fuel ih =>
    intro s hs hlen
    cases hn : next s with
    | none => exact absurd hn (hlive s hs)
    | some answer =>
      obtain ⟨a, t⟩ := answer
      cases a with
      | none => exact ⟨[], by simp [drain, hn]⟩
      | some a =>
        obtain ⟨ht, hperm, -⟩ := h.more s a t hs hn
        have hlt : (remaining t).length < fuel := by
          have := hperm.length_eq
          simp only [List.length_cons] at this
          omega
        obtain ⟨out, hout⟩ := ih t ht hlt
        exact ⟨a :: out, by simp [drain, hn, hout]⟩

end Source

end RaftLsmt.Lib.SortedMerge
