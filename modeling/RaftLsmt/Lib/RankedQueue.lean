import Mathlib

/-!
# Queues with ranks

Entries leave the queue in the order of their ranks, and those of one rank in the order in which they
came: each entry carries the value of a counter. `get_spec` says what `get` takes and what it leaves.
-/

set_option autoImplicit false

namespace RaftLsmt.Lib.RankedQueue

universe u v

/-- An item, its rank and the number of those put in before. -/
structure Ranked (ρ : Type u) (α : Type v) where
  rank : ρ
  count : Nat
  item : α

variable {ρ : Type u} {α : Type v}

section Order

variable [LinearOrder ρ]

/-- The order of two entries. -/
def Ranked.Before (e e' : Ranked ρ α) : Prop :=
  if e.rank = e'.rank then e.count < e'.count else e.rank < e'.rank

instance (e e' : Ranked ρ α) : Decidable (e.Before e') :=
  inferInstanceAs (Decidable (if e.rank = e'.rank then e.count < e'.count else e.rank < e'.rank))

theorem Ranked.before_iff {e e' : Ranked ρ α} :
    e.Before e' ↔ e.rank < e'.rank ∨ e.rank = e'.rank ∧ e.count < e'.count := by
  unfold Before
  split
  · rename_i heq
    exact ⟨fun h => Or.inr ⟨heq, h⟩, fun h => h.elim (fun hlt => absurd heq (ne_of_lt hlt)) And.right⟩
  · rename_i hne
    exact ⟨Or.inl, fun h => h.elim id fun heq => absurd heq.1 hne⟩

theorem Ranked.Before.trans {e e' e'' : Ranked ρ α} (h : e.Before e') (h' : e'.Before e'') :
    e.Before e'' := by
  rw [before_iff] at *
  rcases h with hlt | ⟨heq, hcount⟩
  · rcases h' with hlt' | ⟨heq', -⟩
    · exact Or.inl (lt_trans hlt hlt')
    · exact Or.inl (heq' ▸ hlt)
  · rcases h' with hlt' | ⟨heq', hcount'⟩
    · exact Or.inl (heq ▸ hlt')
    · exact Or.inr ⟨heq.trans heq', Nat.lt_trans hcount hcount'⟩

/-- Of two entries with different counts one comes first. -/
theorem Ranked.before_of_not {e e' : Ranked ρ α} (hne : e.count ≠ e'.count) (h : ¬ e.Before e') :
    e'.Before e := by
  rw [before_iff] at *
  rcases lt_trichotomy e.rank e'.rank with hlt | heq | hgt
  · exact absurd (Or.inl hlt) h
  · have hcount : ¬ e.count < e'.count := fun hlt => h (Or.inr ⟨heq, hlt⟩)
    exact Or.inr ⟨heq.symm, Nat.lt_of_le_of_ne (Nat.not_lt.mp hcount) hne.symm⟩
  · exact Or.inl hgt

end Order

/-- The queue; `counter` is the count of the next entry. -/
structure Queue (ρ : Type u) (α : Type v) where
  entries : List (Ranked ρ α)
  counter : Nat

/-- The entry that comes first. -/
def least [LinearOrder ρ] : List (Ranked ρ α) → Option (Ranked ρ α)
  | [] => none
  | e :: es =>
    match least es with
    | none => some e
    | some m => some (if m.Before e then m else e)

namespace Queue

def empty : Queue ρ α := ⟨[], 0⟩

def put (q : Queue ρ α) (rank : ρ) (item : α) : Queue ρ α :=
  ⟨q.entries ++ [⟨rank, q.counter, item⟩], q.counter + 1⟩

/-- Take the entry that comes first. -/
def get [LinearOrder ρ] (q : Queue ρ α) : Option (Ranked ρ α × Queue ρ α) :=
  (least q.entries).map fun e =>
    (e, { q with entries := q.entries.eraseP fun e' => e'.count = e.count })

/-- The counts are different, and below the counter. -/
structure Ok (q : Queue ρ α) : Prop where
  count_lt : ∀ e ∈ q.entries, e.count < q.counter
  nodup : (q.entries.map Ranked.count).Nodup

end Queue

theorem least_spec [LinearOrder ρ] : ∀ {es : List (Ranked ρ α)} {e : Ranked ρ α}, (es.map Ranked.count).Nodup →
    least es = some e → e ∈ es ∧ ∀ e' ∈ es, e'.count ≠ e.count → e.Before e' := by
  intro es
  induction es with
  | nil =>
    intro e _ h
    cases h
  | cons first es ih =>
    intro e hnodup h
    obtain ⟨hnot, hrest⟩ := List.nodup_cons.mp hnodup
    rw [least] at h
    split at h
    · rename_i hnone
      cases h
      refine ⟨List.mem_cons_self, fun e' he' hne => ?_⟩
      rcases List.mem_cons.mp he' with rfl | he'
      · exact absurd rfl hne
      · cases es with
        | nil => cases he'
        | cons second es =>
          rw [least] at hnone
          split at hnone <;> cases hnone
    · rename_i m hm
      obtain ⟨hmem, hleast⟩ := ih hrest hm
      have hne : m.count ≠ first.count :=
        fun heq => hnot (heq ▸ List.mem_map_of_mem hmem)
      split at h
      · rename_i hbefore
        cases h
        refine ⟨List.mem_cons_of_mem _ hmem, fun e' he' hne' => ?_⟩
        rcases List.mem_cons.mp he' with rfl | he'
        · exact hbefore
        · exact hleast e' he' hne'
      · rename_i hnotBefore
        cases h
        have hfirst : Ranked.Before _ m := Ranked.before_of_not hne hnotBefore
        refine ⟨List.mem_cons_self, fun e' he' hne' => ?_⟩
        rcases List.mem_cons.mp he' with rfl | he'
        · exact absurd rfl hne'
        · by_cases heq : e'.count = m.count
          · have hsame : e' = m := List.inj_on_of_nodup_map hrest he' hmem heq
            rw [hsame]
            exact hfirst
          · exact hfirst.trans (hleast e' he' heq)

theorem least_isSome [LinearOrder ρ] {es : List (Ranked ρ α)} (h : es ≠ []) : ∃ e, least es = some e := by
  cases es with
  | nil => exact absurd rfl h
  | cons e es =>
    rw [least]
    split
    · exact ⟨_, rfl⟩
    · exact ⟨_, rfl⟩

namespace Queue

variable {q q' : Queue ρ α} {e : Ranked ρ α}

theorem ok_empty : (empty : Queue ρ α).Ok :=
  ⟨fun _ h => absurd h List.not_mem_nil, List.nodup_nil⟩

theorem Ok.put (h : q.Ok) (rank : ρ) (item : α) : (q.put rank item).Ok := by
  constructor
  · intro e he
    rcases List.mem_append.mp he with he | he
    · exact Nat.lt_succ_of_lt (h.count_lt e he)
    · rw [List.mem_singleton.mp he]
      exact Nat.lt_succ_self _
  · show ((q.entries ++ [_]).map Ranked.count).Nodup
    rw [List.map_append]
    refine List.nodup_append.mpr ⟨h.nodup, List.nodup_singleton _, fun count hcount count' hlast => ?_⟩
    obtain ⟨e, he, rfl⟩ := List.mem_map.mp hcount
    rw [List.map_singleton, List.mem_singleton] at hlast
    exact hlast ▸ Nat.ne_of_lt (h.count_lt e he)

theorem get_eq_none [LinearOrder ρ] : q.get = none ↔ q.entries = [] := by
  constructor
  · intro h
    by_contra hne
    obtain ⟨e, he⟩ := least_isSome hne
    rw [get, he] at h
    cases h
  · intro h
    rw [get, h]
    rfl

/-- What `get` takes comes before all that it leaves. -/
theorem get_spec [LinearOrder ρ] (h : q.Ok) (hget : q.get = some (e, q')) :
    q.entries.Perm (e :: q'.entries) ∧ q'.Ok ∧ ∀ e' ∈ q'.entries, e.Before e' := by
  obtain ⟨e₁, hleast, heq⟩ := Option.map_eq_some_iff.mp hget
  cases heq
  obtain ⟨hmem, hbefore⟩ := least_spec h.nodup hleast
  have hsplit : ∀ x ∈ q.entries, x.count = e.count → x = e :=
    fun x hx hcount => List.inj_on_of_nodup_map h.nodup hx hmem hcount
  obtain ⟨x, front, back, -, hx, hentries, herase⟩ :=
    List.exists_of_eraseP (p := fun e' => decide (e'.count = e.count)) hmem (decide_eq_true rfl)
  have hxe : x = e := by
    refine hsplit x ?_ (of_decide_eq_true hx)
    rw [hentries]
    exact List.mem_append_right _ List.mem_cons_self
  subst hxe
  have hperm : q.entries.Perm (x :: q.entries.eraseP fun e' => e'.count = x.count) := by
    rw [herase]
    conv_lhs => rw [hentries]
    exact List.perm_middle
  have hnodup : ((x :: q.entries.eraseP fun e' => e'.count = x.count).map Ranked.count).Nodup :=
    (hperm.map Ranked.count).nodup_iff.mp h.nodup
  obtain ⟨hnot, hrest⟩ := List.nodup_cons.mp hnodup
  refine ⟨hperm, ⟨fun e' he' => h.count_lt e' (List.mem_of_mem_eraseP he'), hrest⟩, ?_⟩
  exact fun e' he' => hbefore e' (List.mem_of_mem_eraseP he') fun hcount =>
    hnot (List.mem_map.mpr ⟨e', he', hcount⟩)

end Queue

end RaftLsmt.Lib.RankedQueue
