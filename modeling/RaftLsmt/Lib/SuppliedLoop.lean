import Mathlib.Order.Nat
import Mathlib.Tactic.Push

/-!
# Loops driven by an endless supply

A loop that takes one item of an endless supply in each turn. `after` is its state when it has taken
`n` items, and once it is done it stays as it is. `exists_done_iff` is the rule for termination: when
a measure falls in each good turn, the loop comes to its end exactly when all but finitely many of
its turns are good.
-/

set_option autoImplicit false

namespace RaftLsmt.Lib.SuppliedLoop

universe u v

variable {S : Type u} {A : Type v}

/-- The state of the loop when it has taken `n` items. -/
def after (turn : S → A → S) (s : S) (supply : Nat → A) : Nat → S
  | 0 => s
  | n + 1 => turn (after turn s supply n) (supply n)

section After

variable {turn : S → A → S} {s : S} {supply : Nat → A} {Done : S → Prop}

/-- What each turn preserves holds after any number of turns. -/
theorem after_invariant {I : S → Prop} (hturn : ∀ t n, I t → I (turn t (supply n))) (hs : I s)
    (n : Nat) : I (after turn s supply n) := by
  induction n with
  | zero => exact hs
  | succ n ih => exact hturn _ n ih

/-- What no turn lowers never falls. -/
theorem after_mono {f : S → Nat} (hturn : ∀ t a, f t ≤ f (turn t a)) {n m : Nat} (hle : n ≤ m) :
    f (after turn s supply n) ≤ f (after turn s supply m) := by
  induction m, hle using Nat.le_induction with
  | base => exact le_refl _
  | succ m _ ih => exact le_trans ih (hturn _ _)

/-- A loop that is done stays as it is. -/
theorem after_eq_of_done (hdone : ∀ t a, Done t → turn t a = t) {n m : Nat} (hle : n ≤ m)
    (h : Done (after turn s supply n)) : after turn s supply m = after turn s supply n := by
  induction m, hle using Nat.le_induction with
  | base => rfl
  | succ m _ ih =>
    rw [after, ih]
    exact hdone _ _ h

/-- A measure that falls in each turn from `n` on bounds the number of turns that are left. -/
theorem exists_done_of_lt (μ : S → Nat) {n : Nat}
    (hfalls : ∀ m, n ≤ m → ¬ Done (after turn s supply m) →
      μ (after turn s supply (m + 1)) < μ (after turn s supply m)) :
    ∃ m, n ≤ m ∧ m ≤ n + μ (after turn s supply n) ∧ Done (after turn s supply m) := by
  by_contra hnever
  push Not at hnever
  have hbound : ∀ k, k ≤ μ (after turn s supply n) →
      μ (after turn s supply (n + k)) + k ≤ μ (after turn s supply n) := by
    intro k
    induction k with
    | zero => exact fun _ => le_refl _
    | succ k ih =>
      intro hk
      have hlast := ih (by omega)
      have hlt := hfalls (n + k) (by omega) (hnever (n + k) (by omega) (by omega))
      show μ (after turn s supply (n + k + 1)) + (k + 1) ≤ _
      omega
  have hlast := hbound _ (le_refl _)
  have hlt := hfalls (n + μ (after turn s supply n)) (by omega)
    (hnever _ (by omega) (le_refl _))
  omega

/-- The loop comes to its end exactly when all but finitely many of its turns are good. -/
theorem exists_done_iff (μ : S → Nat) {Good : S → A → Prop}
    (hdone : ∀ t a, Done t → turn t a = t) (hgood : ∀ t a, Done t → Good t a)
    (hfalls : ∀ t a, ¬ Done t → Good t a → μ (turn t a) < μ t) :
    (∃ n, Done (after turn s supply n)) ↔
      ∃ n, ∀ m, n ≤ m → Good (after turn s supply m) (supply m) := by
  constructor
  · rintro ⟨n, hn⟩
    refine ⟨n, fun m hm => ?_⟩
    rw [after_eq_of_done hdone hm hn]
    exact hgood _ _ hn
  · rintro ⟨n, hn⟩
    obtain ⟨m, -, -, hm⟩ : ∃ m, n ≤ m ∧ m ≤ n + μ (after turn s supply n) ∧
        Done (after turn s supply m) :=
      exists_done_of_lt μ fun m hm hnot => hfalls _ _ hnot (hn m hm)
    exact ⟨m, hm⟩

end After

end RaftLsmt.Lib.SuppliedLoop
