import Mathlib
import RaftLsmt.Lib.StepMachine

/-!
# Runs that come to an end

A machine stops when each of its steps uses something up. Two counters are kept apart: `work`, which
nothing restores, and `turns`, which a step that works may fill up again to `cap`. Threads that wake
each other up to look at a condition take turns. A run is then no longer than `work * (cap + 1)` and
the turns that were left at its start (`length_le_of_spends`).

The last section is about the sum of weights over the threads of a pool of which one moves on.
-/

set_option autoImplicit false

namespace RaftLsmt.Lib.RunBound

open RaftLsmt.Lib.StepMachine

universe u v

section Spends

variable {S : Type u} {A : Type v} {work turns cap : S → Nat}

/-- A step works, or it takes a turn and leaves the work as it is. The cap does not grow. -/
structure Spends (work turns cap : S → Nat) (s t : S) : Prop where
  cap_le : cap t ≤ cap s
  turns_le : turns t ≤ cap t
  spends : work t < work s ∨ work t = work s ∧ turns t < turns s

/-- The length of what is left of a run. -/
def bound (work turns : S → Nat) (cap : Nat) (s : S) : Nat := work s * (cap + 1) + turns s

theorem Spends.bound_lt {s t : S} (h : Spends work turns cap s t) {k : Nat} (hk : cap s ≤ k) :
    bound work turns k t < bound work turns k s := by
  have hturns : turns t ≤ k := Nat.le_trans h.turns_le (Nat.le_trans h.cap_le hk)
  unfold bound
  rcases h.spends with hwork | ⟨hwork, hless⟩
  · -- one unit of work is worth all the turns there can be
    have hle : (work t + 1) * (k + 1) ≤ work s * (k + 1) := Nat.mul_le_mul_right _ hwork
    rw [Nat.succ_mul] at hle
    omega
  · rw [hwork]
    omega

/-- A run whose steps spend is bounded by what there is to spend at its start. -/
theorem length_le_of_eachStep {step : S → A → Option S} {P : S → Prop} {Q : S → A → Prop}
    (hstep : ∀ s a t, Q s a → P s → step s a = some t → P t ∧ Spends work turns cap s t)
    {s t : S} {as : List A} (hQ : EachStep step Q s as) (hs : P s) (h : run step s as = some t) :
    as.length ≤ bound work turns (cap s) s := by
  suffices hk : ∀ k, cap s ≤ k → as.length ≤ bound work turns k s from hk (cap s) (Nat.le_refl _)
  intro k
  induction as generalizing s with
  | nil => exact fun _ => Nat.zero_le _
  | cons a as ih =>
    intro hcap
    obtain ⟨m, hm, ht⟩ := run_cons_eq_some.mp h
    obtain ⟨ha, has⟩ := eachStep_cons.mp hQ
    obtain ⟨hPm, hspends⟩ := hstep s a m ha hs hm
    have hrest : as.length ≤ bound work turns k m :=
      ih (has m hm) hPm ht (Nat.le_trans hspends.cap_le hcap)
    exact Nat.succ_le_of_lt (Nat.lt_of_le_of_lt hrest (hspends.bound_lt hcap))

/-- The same for steps with actions that are allowed in every state. -/
theorem length_le_of_spends {step : S → A → Option S} {P : S → Prop} {allowed : A → Prop}
    (hstep : ∀ s a t, allowed a → P s → step s a = some t → P t ∧ Spends work turns cap s t)
    {s t : S} {as : List A} (hall : ∀ a ∈ as, allowed a) (hs : P s) (h : run step s as = some t) :
    as.length ≤ bound work turns (cap s) s := by
  refine length_le_of_eachStep (Q := fun _ a => allowed a) hstep ?_ hs h
  rintro pre a post - rfl -
  exact hall a (List.mem_append_right pre List.mem_cons_self)

end Spends

/-! ## Pools of threads -/

section Weights

variable {α : Type u} (weight : α → Nat) {l : List α} {i : Nat} {a : α}

/-- The weight of a pool of threads. -/
def totalWeight (l : List α) : Nat := (l.map weight).sum

@[simp]
theorem totalWeight_nil : totalWeight weight [] = 0 := rfl

theorem totalWeight_append (l l' : List α) :
    totalWeight weight (l ++ l') = totalWeight weight l + totalWeight weight l' := by
  unfold totalWeight
  rw [List.map_append, List.sum_append]

theorem totalWeight_singleton (a : α) : totalWeight weight [a] = weight a := by
  unfold totalWeight
  rw [List.map_singleton, List.sum_singleton]

theorem totalWeight_eraseIdx (h : l[i]? = some a) :
    totalWeight weight (l.eraseIdx i) + weight a = totalWeight weight l := by
  obtain ⟨hi, rfl⟩ := List.getElem?_eq_some_iff.mp h
  have hsum := ((List.getElem_cons_eraseIdx_perm hi).map weight).sum_eq
  rw [List.map_cons, List.sum_cons] at hsum
  unfold totalWeight
  omega

theorem totalWeight_set (h : l[i]? = some a) (b : α) :
    totalWeight weight (l.set i b) + weight a = totalWeight weight l + weight b := by
  obtain ⟨hi, -⟩ := List.getElem?_eq_some_iff.mp h
  have hold := totalWeight_eraseIdx weight h
  have hsum := ((List.set_perm_cons_eraseIdx hi b).map weight).sum_eq
  rw [List.map_cons, List.sum_cons] at hsum
  unfold totalWeight at hold ⊢
  omega

theorem totalWeight_cons (a : α) (l : List α) :
    totalWeight weight (a :: l) = weight a + totalWeight weight l := by
  unfold totalWeight
  rw [List.map_cons, List.sum_cons]

theorem totalWeight_le {most : Nat} (h : ∀ a ∈ l, weight a ≤ most) :
    totalWeight weight l ≤ most * l.length := by
  induction l with
  | nil => exact Nat.zero_le _
  | cons a l ih =>
    have ha : weight a ≤ most := h a List.mem_cons_self
    have hl := ih fun b hb => h b (List.mem_cons_of_mem a hb)
    rw [totalWeight_cons, List.length_cons, Nat.mul_succ]
    omega

end Weights

end RaftLsmt.Lib.RunBound
