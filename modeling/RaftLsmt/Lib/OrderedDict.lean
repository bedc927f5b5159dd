import Mathlib.Data.List.Nodup

/-!
# Dictionaries in insertion order

A dictionary that lists its entries in the order in which their keys were first set. Setting a key
that is there replaces its value in place. The keys are distinct by construction, so an entry is the
answer for its key (`mem_entries_iff`) and `get_set` says what a `set` changes.
-/

set_option autoImplicit false

namespace RaftLsmt.Lib.OrderedDict

universe u v

/-- Entries with distinct keys. -/
structure Dict (κ : Type u) (β : Type v) where
  entries : List (κ × β)
  nodup : (entries.map Prod.fst).Nodup

namespace Dict

variable {κ : Type u} {β : Type v} [DecidableEq κ]

/-- The dictionary without entries. -/
def empty : Dict κ β := ⟨[], List.nodup_nil⟩

/-- The value of a key. -/
def get (d : Dict κ β) (k : κ) : Option β :=
  (d.entries.find? fun p => p.1 = k).map Prod.snd

/-- The entries behind `d[k] = v`. -/
def setEntries (entries : List (κ × β)) (k : κ) (v : β) : List (κ × β) :=
  if k ∈ entries.map Prod.fst then entries.map fun p => if p.1 = k then (k, v) else p
  else entries ++ [(k, v)]

theorem nodup_setEntries {entries : List (κ × β)} (h : (entries.map Prod.fst).Nodup) (k : κ)
    (v : β) : ((setEntries entries k v).map Prod.fst).Nodup := by
  unfold setEntries
  split
  · have hkeys : (entries.map fun p => if p.1 = k then (k, v) else p).map Prod.fst =
        entries.map Prod.fst := by
      rw [List.map_map]
      apply List.map_congr_left
      intro p _
      by_cases hp : p.1 = k
      · rw [Function.comp_apply, if_pos hp, hp]
      · rw [Function.comp_apply, if_neg hp]
    rw [hkeys]
    exact h
  · rename_i hnew
    rw [List.map_append, List.map_singleton, List.nodup_append]
    refine ⟨h, List.nodup_singleton k, ?_⟩
    intro a ha b hb hab
    rw [List.mem_singleton] at hb
    rw [hab, hb] at ha
    exact hnew ha

/-- `d[k] = v`. -/
def set (d : Dict κ β) (k : κ) (v : β) : Dict κ β where
  entries := setEntries d.entries k v
  nodup := nodup_setEntries d.nodup k v

variable {d : Dict κ β} {k k' : κ} {v v' : β}

@[simp]
theorem get_empty (k : κ) : (empty : Dict κ β).get k = none := rfl

/-- An entry is the answer for its key. -/
theorem mem_entries_iff : (k, v) ∈ d.entries ↔ d.get k = some v := by
  obtain ⟨entries, hnodup⟩ := d
  unfold get
  simp only
  induction entries with
  | nil => simp
  | cons p entries ih =>
    rw [List.map_cons, List.nodup_cons] at hnodup
    rw [List.mem_cons, List.find?_cons]
    by_cases hp : p.1 = k
    · simp only [hp, decide_true, Option.map_some, Option.some.injEq]
      constructor
      · rintro (heq | hmem)
        · rw [← heq]
        · refine absurd ?_ hnodup.1
          rw [hp]
          exact List.mem_map_of_mem hmem
      · intro hv
        exact Or.inl (by rw [← hv, ← hp])
    · simp only [hp, decide_false]
      rw [← ih hnodup.2]
      constructor
      · rintro (heq | hmem)
        · exact absurd (by rw [← heq]) hp
        · exact hmem
      · exact Or.inr

/-- A key has one value. -/
theorem eq_of_mem_entries (h : (k, v) ∈ d.entries) (h' : (k, v') ∈ d.entries) : v = v' :=
  Option.some.inj ((mem_entries_iff.mp h).symm.trans (mem_entries_iff.mp h'))

theorem mem_setEntries {entries : List (κ × β)} :
    (k', v') ∈ setEntries entries k v ↔ k' = k ∧ v' = v ∨ k' ≠ k ∧ (k', v') ∈ entries := by
  unfold setEntries
  split
  · rename_i hold
    rw [List.mem_map]
    constructor
    · rintro ⟨p, hp, heq⟩
      by_cases hkey : p.1 = k
      · rw [if_pos hkey] at heq
        cases heq
        exact Or.inl ⟨rfl, rfl⟩
      · rw [if_neg hkey] at heq
        subst heq
        exact Or.inr ⟨hkey, hp⟩
    · rintro (⟨rfl, rfl⟩ | ⟨hne, hmem⟩)
      · obtain ⟨p, hp, hkey⟩ := List.mem_map.mp hold
        exact ⟨p, hp, if_pos hkey⟩
      · exact ⟨_, hmem, if_neg hne⟩
  · rename_i hnew
    rw [List.mem_append, List.mem_singleton, Prod.mk.injEq]
    constructor
    · rintro (hmem | heq)
      · refine Or.inr ⟨?_, hmem⟩
        rintro rfl
        exact hnew (List.mem_map_of_mem hmem)
      · exact Or.inl heq
    · rintro (heq | ⟨-, hmem⟩)
      · exact Or.inr heq
      · exact Or.inl hmem

/-- What a `set` changes. -/
theorem get_set : (d.set k v).get k' = if k' = k then some v else d.get k' := by
  apply Option.ext
  intro w
  rw [← mem_entries_iff]
  refine mem_setEntries.trans ?_
  by_cases hk : k' = k
  · simp [hk, eq_comm]
  · simp [hk, mem_entries_iff]

@[simp]
theorem get_set_self : (d.set k v).get k = some v := by
  rw [get_set, if_pos rfl]

theorem get_set_of_ne (h : k' ≠ k) : (d.set k v).get k' = d.get k' := by
  rw [get_set, if_neg h]

/-- `for i, k in enumerate(keys, n): d[k] = i`. -/
def enumerate : List κ → Nat → Dict κ Nat → Dict κ Nat
  | [], _, d => d
  | k :: keys, n, d => enumerate keys (n + 1) (d.set k n)

/-- Each key of the list has its position. -/
theorem get_enumerate {keys : List κ} (hnodup : keys.Nodup) (n : Nat) (d : Dict κ Nat) (k : κ) :
    (enumerate keys n d).get k = if k ∈ keys then some (n + keys.idxOf k) else d.get k := by
  induction keys generalizing n d with
  | nil => rfl
  | cons k' keys ih =>
    rw [List.nodup_cons] at hnodup
    rw [enumerate, ih hnodup.2]
    by_cases hk : k ∈ keys
    · have hne : k ≠ k' := by
        rintro rfl
        exact hnodup.1 hk
      rw [if_pos hk, if_pos (List.mem_cons_of_mem k' hk), List.idxOf_cons_ne keys hne.symm]
      congr 1
      omega
    · rw [if_neg hk, get_set]
      by_cases heq : k = k'
      · subst heq
        rw [if_pos rfl, if_pos List.mem_cons_self, List.idxOf_cons_self]
        rfl
      · rw [if_neg heq, if_neg (fun h => (List.mem_cons.mp h).elim heq hk)]

/-- A list that meets the condition at one place only. -/
theorem filter_eq_singleton {γ : Type v} {l : List γ} {p : γ → Bool} {i : Nat} {x : γ}
    (hx : l[i]? = some x) (hp : p x = true)
    (honly : ∀ j y, l[j]? = some y → p y = true → j = i) : l.filter p = [x] := by
  induction l generalizing i with
  | nil => cases hx
  | cons y l ih =>
    cases i with
    | zero =>
      cases hx
      rw [List.filter_cons_of_pos hp, List.cons.injEq]
      refine ⟨rfl, ?_⟩
      rw [List.filter_eq_nil_iff]
      intro z hz hpz
      obtain ⟨j, hj⟩ := List.mem_iff_getElem?.mp hz
      cases honly (j + 1) z hj hpz
    | succ i =>
      have hy : ¬ p y = true := by
        intro hpy
        cases honly 0 y rfl hpy
      rw [List.filter_cons_of_neg hy]
      apply ih hx
      intro j z hz hpz
      exact Nat.succ.inj (honly (j + 1) z hz hpz)

/-- Of the entries, those under one key. -/
theorem filter_entries_eq (d : Dict κ β) (k : κ) :
    (d.entries.filter fun p => p.1 = k) = ((d.get k).map fun v => (k, v)).toList := by
  cases hget : d.get k with
  | none =>
    rw [Option.map_none, Option.toList_none, List.filter_eq_nil_iff]
    rintro ⟨k', v⟩ hmem hkey
    obtain rfl : k' = k := of_decide_eq_true hkey
    rw [mem_entries_iff, hget] at hmem
    cases hmem
  | some v =>
    obtain ⟨i, hi⟩ := List.mem_iff_getElem?.mp (mem_entries_iff.mpr hget)
    refine filter_eq_singleton hi (decide_eq_true rfl) ?_
    rintro j ⟨k', v'⟩ hj hkey
    have hsame : k' = k := of_decide_eq_true hkey
    rw [hsame] at hj
    have hkeys : ∀ {n : Nat} {w : β}, d.entries[n]? = some (k, w) →
        (d.entries.map Prod.fst)[n]? = some k := by
      intro n w hn
      rw [List.getElem?_map, hn]
      rfl
    have hlt : j < (d.entries.map Prod.fst).length := (List.getElem?_eq_some_iff.mp (hkeys hj)).1
    exact (List.getElem?_inj hlt d.nodup).mp ((hkeys hj).trans (hkeys hi).symm)

/-- The lists filed under one key. -/
theorem flatMap_filter_entries {γ : Type v} (d : Dict κ (List γ)) (k : κ) :
    (d.entries.filter fun p => p.1 = k).flatMap Prod.snd = (d.get k).getD [] := by
  rw [filter_entries_eq]
  cases d.get k with
  | none => rfl
  | some v => exact List.append_nil v

/-- Of lists filed under keys, one place under one key meets the condition. -/
theorem filter_flatMap_eq_singleton {γ : Type v} {d : Dict κ (List γ)} (keep : κ → Bool)
    {p : γ → Bool} {l : List γ} {i : Nat} {x : γ} (hget : d.get k = some l) (hkeep : keep k = true)
    (hx : l[i]? = some x) (hp : p x = true)
    (honly : ∀ k' l' j y, d.get k' = some l' → keep k' = true → l'[j]? = some y → p y = true →
      k' = k ∧ j = i) :
    ((d.entries.filter fun e => keep e.1).flatMap Prod.snd).filter p = [x] := by
  have hown : l.filter p = [x] :=
    filter_eq_singleton hx hp fun j y hj hy => (honly k l j y hget hkeep hj hy).2
  -- the lists of the other keys give nothing
  have hother : ∀ entries : List (κ × List γ), (∀ e ∈ entries, e ∈ d.entries ∧ e.1 ≠ k) →
      ((entries.filter fun e => keep e.1).flatMap Prod.snd).filter p = [] := by
    intro entries hentries
    rw [List.filter_eq_nil_iff]
    intro y hy hpy
    obtain ⟨e, he, hye⟩ := List.mem_flatMap.mp hy
    obtain ⟨hmem, hkey⟩ := List.mem_filter.mp he
    obtain ⟨j, hj⟩ := List.mem_iff_getElem?.mp hye
    obtain ⟨hin, hne⟩ := hentries e hmem
    exact hne (honly e.1 e.2 j y (mem_entries_iff.mp hin) hkey hj hpy).1
  obtain ⟨before, behind, hentries⟩ := List.append_of_mem (mem_entries_iff.mpr hget)
  have hnodup := d.nodup
  rw [hentries, List.map_append, List.map_cons, List.nodup_middle, List.nodup_cons,
    ← List.map_append] at hnodup
  have hne : ∀ e ∈ before ++ behind, e ∈ d.entries ∧ e.1 ≠ k := by
    intro e he
    refine ⟨?_, ?_⟩
    · rw [hentries]
      rcases List.mem_append.mp he with he | he
      · exact List.mem_append_left _ he
      · exact List.mem_append_right _ (List.mem_cons_of_mem _ he)
    · intro hkey
      apply hnodup.1
      show k ∈ (before ++ behind).map Prod.fst
      rw [← hkey]
      exact List.mem_map_of_mem he
  have hcons : ((k, l) :: behind).filter (fun e => keep e.1) =
      (k, l) :: behind.filter fun e => keep e.1 := List.filter_cons_of_pos hkeep
  rw [hentries, List.filter_append, hcons, List.flatMap_append,
    List.flatMap_cons, List.filter_append, List.filter_append, hown,
    hother before fun e he => hne e (List.mem_append_left _ he),
    hother behind fun e he => hne e (List.mem_append_right _ he)]
  rfl

end Dict

end RaftLsmt.Lib.OrderedDict
