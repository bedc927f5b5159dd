import RaftLsmt.Lib.StepMachine
import Mathlib.Tactic

/-!
# Plain k-way merge

A merge over a list of lists takes, in each step, the head of the first list whose head has a least
key. `firstLeast` finds that list with a running winner, as a loop over the heads does, and
`kMergeNext` is the step. A source that answers as `kMergeNext` does on an abstraction of its state
drains to the same list (`MergesAs.drain_eq`), so two such sources over the same lists agree.

A list whose head is above the winner does not change it (`firstLeast_of_above`): an implementation
need not look at lists that are known to start above.
-/

set_option autoImplicit false

namespace RaftLsmt.Lib.KWayMerge

open RaftLsmt.Lib.StepMachine

universe u v w

variable {α : Type u} {κ : Type v} [LinearOrder κ] (f : α → κ)

/-- A head replaces the running winner only when its key is smaller. -/
def better (winner : Option (Nat × α)) (idx : Nat) (head : Option α) : Option (Nat × α) :=
  match head, winner with
  | none, _ => winner
  | some a, none => some (idx, a)
  | some a, some (i, best) => if f a < f best then some (idx, a) else some (i, best)

/-- The winner after looking at the lists `ls`, the first of which has position `idx`. -/
def firstLeast (idx : Nat) (winner : Option (Nat × α)) : List (List α) → Option (Nat × α)
  | [] => winner
  | l :: ls => firstLeast (idx + 1) (better f winner idx l.head?) ls

/-- One step of the merge: what it hands out and the lists behind it. -/
def kMergeNext (ls : List (List α)) : Option α × List (List α) :=
  match firstLeast f 0 none ls with
  | none => (none, ls)
  | some (i, a) => (some a, ls.modify i List.tail)

variable {f}

@[simp]
theorem firstLeast_nil (idx : Nat) (winner : Option (Nat × α)) :
    firstLeast f idx winner [] = winner := rfl

theorem firstLeast_append (idx : Nat) (winner : Option (Nat × α)) (ls ms : List (List α)) :
    firstLeast f idx winner (ls ++ ms) =
      firstLeast f (idx + ls.length) (firstLeast f idx winner ls) ms := by
  induction ls generalizing idx winner with
  | nil => rfl
  | cons l ls ih =>
    rw [List.cons_append, firstLeast, ih, firstLeast, List.length_cons]
    congr 1
    omega

/-- One more list at the end. -/
theorem firstLeast_snoc (ls : List (List α)) (l : List α) :
    firstLeast f 0 none (ls ++ [l]) =
      better f (firstLeast f 0 none ls) ls.length l.head? := by
  rw [firstLeast_append, Nat.zero_add]
  rfl

/-- Lists that start above the winner do not change it. -/
theorem firstLeast_of_above {idx i : Nat} {best : α} {ls : List (List α)}
    (h : ∀ l ∈ ls, ∀ a ∈ l.head?, f best < f a) :
    firstLeast f idx (some (i, best)) ls = some (i, best) := by
  induction ls generalizing idx with
  | nil => rfl
  | cons l ls ih =>
    have hkeep : better f (some (i, best)) idx l.head? = some (i, best) := by
      cases hl : l.head? with
      | none => rfl
      | some a => exact if_neg (not_lt.mpr (le_of_lt (h l List.mem_cons_self a hl)))
    rw [firstLeast, hkeep]
    exact ih fun m hm => h m (List.mem_cons_of_mem l hm)

section Drain

variable {S : Type w} {next : S → Option (Option α × S)} {lists : S → List (List α)}
  {Inv : S → Prop}

/-- Under `Inv` a step of the source is a step of the merge of `lists`. -/
def MergesAs (f : α → κ) (next : S → Option (Option α × S)) (lists : S → List (List α))
    (Inv : S → Prop) : Prop :=
  ∀ s, Inv s → ∃ answer t, next s = some (answer, t) ∧ answer = (kMergeNext f (lists s)).1 ∧
    (answer ≠ none → Inv t ∧ lists t = (kMergeNext f (lists s)).2)

/-- Draining such a source is draining the merge. -/
theorem MergesAs.drain_eq (h : MergesAs f next lists Inv) (n : Nat) {s : S} (hs : Inv s) :
    drain next n s = drain (fun ls => some (kMergeNext f ls)) n (lists s) := by
  induction n generalizing s with
  | zero => rfl
  | succ n ih =>
    obtain ⟨answer, t, hnext, hanswer, hlists⟩ := h s hs
    rw [drain, drain, hnext, ← Prod.eta (kMergeNext f (lists s)), ← hanswer]
    cases answer with
    | none => rfl
    | some a =>
      obtain ⟨ht, htail⟩ := hlists (by simp)
      rw [← htail]
      simp only [ih ht]

end Drain

end RaftLsmt.Lib.KWayMerge
