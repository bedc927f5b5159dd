import Mathlib.Data.List.Induction
import Mathlib.Data.Option.Basic

/-!
# Runs of a partial step function

A machine is a partial step function `step : S → A → Option S`; an action that is not enabled in
a state gives `none`. `run` executes a list of actions. `run_invariant` is the induction that
every invariant proof uses: what each enabled step preserves holds after each run. `Always` and
`EachStep` speak of all states and all steps of one run; `always_iff_eachStep` is the rule for a
property that is lost with the first bad step.
`drain` collects what a source hands out until it is empty; the source may also stop the program.
-/

set_option autoImplicit false

namespace RaftLsmt.Lib.StepMachine

universe u v

variable {S : Type u} {A : Type v}

/-- Execute a list of actions; `none` when one of them is not enabled. -/
def run (step : S → A → Option S) : S → List A → Option S
  | s, [] => some s
  | s, a :: as => (step s a).bind fun t => run step t as

section Run

variable {step : S → A → Option S}

@[simp]
theorem run_nil (s : S) : run step s [] = some s := rfl

theorem run_cons_eq_some {s t : S} {a : A} {as : List A} :
    run step s (a :: as) = some t ↔ ∃ m, step s a = some m ∧ run step m as = some t :=
  Option.bind_eq_some_iff

theorem run_append_eq_some {s t : S} {as bs : List A} :
    run step s (as ++ bs) = some t ↔ ∃ m, run step s as = some m ∧ run step m bs = some t := by
  induction as generalizing s with
  | nil => simp
  | cons a as ih =>
    simp only [List.cons_append, run_cons_eq_some, ih]
    constructor
    · rintro ⟨m, hm, k, hk, ht⟩
      exact ⟨k, ⟨m, hm, hk⟩, ht⟩
    · rintro ⟨k, ⟨m, hm, hk⟩, ht⟩
      exact ⟨m, hm, k, hk, ht⟩

/-- What each allowed step preserves holds after a run of allowed steps. -/
theorem run_invariant {P : S → Prop} {allowed : A → Prop}
    (hstep : ∀ s a t, allowed a → P s → step s a = some t → P t)
    {s t : S} {as : List A} (hall : ∀ a ∈ as, allowed a) (hs : P s) (h : run step s as = some t) :
    P t := by
  induction as generalizing s with
  | nil =>
    cases h
    exact hs
  | cons a as ih =>
    obtain ⟨m, hm, ht⟩ := run_cons_eq_some.mp h
    have hPm : P m := hstep s a m (hall a List.mem_cons_self) hs hm
    exact ih (fun b hb => hall b (List.mem_cons_of_mem a hb)) hPm ht

/-- Every state the run passes through satisfies `P`. -/
def Always (step : S → A → Option S) (P : S → Prop) (s : S) (as : List A) : Prop :=
  ∀ pre post t, as = pre ++ post → run step s pre = some t → P t

/-- Every step of the run starts in a state and with an action that satisfy `Q`. -/
def EachStep (step : S → A → Option S) (Q : S → A → Prop) (s : S) (as : List A) : Prop :=
  ∀ pre a post t, as = pre ++ a :: post → run step s pre = some t → Q t a

theorem always_nil {P : S → Prop} {s : S} (hs : P s) : Always step P s [] := by
  intro pre post t has ht
  obtain ⟨rfl, -⟩ := List.append_eq_nil_iff.mp has.symm
  cases ht
  exact hs

/-- The states of a run and the one behind one more step. -/
theorem always_concat {P : S → Prop} {s : S} {as : List A} {a : A} (h : Always step P s as)
    (hlast : ∀ t, run step s (as ++ [a]) = some t → P t) : Always step P s (as ++ [a]) := by
  intro pre post t has ht
  rcases List.eq_nil_or_concat post with rfl | ⟨post, b, rfl⟩
  · rw [List.append_nil] at has
    rw [← has] at ht
    exact hlast t ht
  · rw [List.concat_eq_append, ← List.append_assoc] at has
    obtain ⟨has, -⟩ := List.append_inj' has rfl
    exact h pre post t has ht

theorem eachStep_nil (step : S → A → Option S) (Q : S → A → Prop) (s : S) :
    EachStep step Q s [] := by
  intro pre a post t has
  cases pre <;> cases has

/-- The first step and those behind it. -/
theorem eachStep_cons {Q : S → A → Prop} {s : S} {a : A} {as : List A} :
    EachStep step Q s (a :: as) ↔ Q s a ∧ ∀ t, step s a = some t → EachStep step Q t as := by
  constructor
  · intro h
    refine ⟨h [] a as s rfl rfl, ?_⟩
    intro t ht pre b post u has hu
    exact h (a :: pre) b post u (congrArg (a :: ·) has) (run_cons_eq_some.mpr ⟨t, ht, hu⟩)
  · rintro ⟨ha, has⟩ pre b post t hsplit ht
    cases pre with
    | nil =>
      cases hsplit
      cases ht
      exact ha
    | cons c pre =>
      cases hsplit
      obtain ⟨m, hm, hrest⟩ := run_cons_eq_some.mp ht
      exact has m hm pre b post t rfl hrest

theorem eachStep_cons_of_step {Q : S → A → Prop} {s t : S} {a : A} {as : List A}
    (h : step s a = some t) :
    EachStep step Q s (a :: as) ↔ Q s a ∧ EachStep step Q t as := by
  rw [eachStep_cons, and_congr_right_iff]
  intro _
  constructor
  · intro has
    exact has t h
  · intro has t' ht'
    rw [h] at ht'
    cases ht'
    exact has

/-- A test of each step. -/
def allSteps (step : S → A → Option S) (q : S → A → Bool) : S → List A → Bool
  | _, [] => true
  | s, a :: as =>
    q s a &&
      match step s a with
      | none => true
      | some t => allSteps step q t as

theorem eachStep_of_allSteps {Q : S → A → Prop} {q : S → A → Bool}
    (hq : ∀ s a, q s a = true → Q s a) {s : S} {as : List A} (h : allSteps step q s as = true) :
    EachStep step Q s as := by
  induction as generalizing s with
  | nil => exact eachStep_nil step Q s
  | cons a as ih =>
    obtain ⟨ha, has⟩ := Bool.and_eq_true_iff.mp h
    refine eachStep_cons.mpr ⟨hq s a ha, fun t ht => ?_⟩
    simp only [ht] at has
    exact ih has

/-- The steps of a run and those behind it. -/
theorem eachStep_append {Q : S → A → Prop} {s : S} {as bs : List A} :
    EachStep step Q s (as ++ bs) ↔
      EachStep step Q s as ∧ ∀ t, run step s as = some t → EachStep step Q t bs := by
  induction as generalizing s with
  | nil =>
    simp only [List.nil_append, run_nil, Option.some.injEq, forall_eq']
    exact ⟨fun h => ⟨eachStep_nil step Q s, h⟩, And.right⟩
  | cons a as ih =>
    rw [List.cons_append, eachStep_cons, eachStep_cons, and_assoc, and_congr_right_iff]
    intro _
    constructor
    · intro h
      refine ⟨fun t ht => (ih.mp (h t ht)).1, fun u hu => ?_⟩
      obtain ⟨t, ht, hrest⟩ := run_cons_eq_some.mp hu
      exact (ih.mp (h t ht)).2 u hrest
    · rintro ⟨has, hbs⟩ t ht
      exact ih.mpr ⟨has t ht, fun u hu => hbs u (run_cons_eq_some.mpr ⟨t, ht, hu⟩)⟩

/-- When each step that satisfies `R` keeps `I`, and keeps `P` exactly when it satisfies `Q`, the end
of a run satisfies `P` exactly when its start and all its steps are good. -/
theorem run_iff_eachStep {I P : S → Prop} {R Q : S → A → Prop}
    (hstep : ∀ s a t, I s → R s a → step s a = some t → I t ∧ (P t ↔ P s ∧ Q s a))
    {s t : S} {as : List A} (hs : I s) (hR : EachStep step R s as) (h : run step s as = some t) :
    I t ∧ (P t ↔ P s ∧ EachStep step Q s as) := by
  induction as generalizing s with
  | nil =>
    cases h
    exact ⟨hs, fun hP => ⟨hP, eachStep_nil step Q _⟩, And.left⟩
  | cons a as ih =>
    obtain ⟨m, hm, hrest⟩ := run_cons_eq_some.mp h
    obtain ⟨ha, has⟩ := eachStep_cons.mp hR
    obtain ⟨hIm, hPm⟩ := hstep s a m hs ha hm
    obtain ⟨hIt, hPt⟩ := ih hIm (has m hm) hrest
    refine ⟨hIt, ?_⟩
    rw [hPt, hPm, eachStep_cons, and_assoc, and_congr_right_iff, and_congr_right_iff]
    intro _ _
    constructor
    · intro heach m' hm'
      rw [hm] at hm'
      cases hm'
      exact heach
    · exact fun heach => heach m hm

/-- When each step that satisfies `R` keeps `I`, is a step of a second machine between the images of
its states, and is good exactly when this one is, the steps of a run are good exactly when those of
its image are. -/
theorem eachStep_map {T : Type*} {step' : T → A → Option T} (f : S → T) {I : S → Prop}
    {R Q : S → A → Prop} {G : T → A → Prop}
    (hstep : ∀ s a t, I s → R s a → step s a = some t →
      I t ∧ step' (f s) a = some (f t) ∧ (Q s a ↔ G (f s) a))
    {s t : S} {as : List A} (hs : I s) (hR : EachStep step R s as) (h : run step s as = some t) :
    I t ∧ (EachStep step Q s as ↔ EachStep step' G (f s) as) := by
  induction as generalizing s with
  | nil =>
    cases h
    exact ⟨hs, fun _ => eachStep_nil _ _ _, fun _ => eachStep_nil _ _ _⟩
  | cons a as ih =>
    obtain ⟨m, hm, hrest⟩ := run_cons_eq_some.mp h
    obtain ⟨ha, has⟩ := eachStep_cons.mp hR
    obtain ⟨hIm, himage, hgood⟩ := hstep s a m hs ha hm
    obtain ⟨hIt, hrest⟩ := ih hIm (has m hm) hrest
    refine ⟨hIt, ?_⟩
    rw [eachStep_cons_of_step hm, eachStep_cons_of_step himage, hgood, hrest]

/-- A step that is enabled as long as something is left is taken until nothing is. -/
theorem exists_drained (a : A) (left : S → Nat) {P : S → Prop}
    (hstep : ∀ s, P s → left s ≠ 0 → ∃ t, step s a = some t ∧ P t ∧ left t + 1 = left s) {s : S}
    (hs : P s) :
    ∃ t, run step s (List.replicate (left s) a) = some t ∧ P t ∧ left t = 0 := by
  generalize hn : left s = n
  induction n generalizing s with
  | zero => exact ⟨s, rfl, hs, hn⟩
  | succ n ih =>
    obtain ⟨m, hm, hPm, hleft⟩ := hstep s hs (by omega)
    obtain ⟨t, hrun, hPt, hzero⟩ := ih hPm (by omega)
    exact ⟨t, run_cons_eq_some.mpr ⟨m, hm, hrun⟩, hPt, hzero⟩

/-- When every step of a second machine is what some steps show of the first one, so is every run. -/
theorem exists_run_covering {T B : Type*} {step' : T → B → Option T} (f : S → T) (g : A → Option B)
    {P : S → Prop}
    (hcover : ∀ s b t', P s → step' (f s) b = some t' →
      ∃ as t, run step s as = some t ∧ P t ∧ f t = t' ∧ as.filterMap g = [b])
    {s : S} (hs : P s) {bs : List B} {t' : T} (hrun : run step' (f s) bs = some t') :
    ∃ as t, run step s as = some t ∧ P t ∧ f t = t' ∧ as.filterMap g = bs := by
  induction bs generalizing s with
  | nil =>
    cases hrun
    exact ⟨[], s, rfl, hs, rfl, rfl⟩
  | cons b bs ih =>
    obtain ⟨m', hm', hrest⟩ := run_cons_eq_some.mp hrun
    obtain ⟨as, m, hfirst, hm, rfl, hshown⟩ := hcover s b m' hs hm'
    obtain ⟨as', t, hnext, ht, himage, hshown'⟩ := ih hm hrest
    refine ⟨as ++ as', t, run_append_eq_some.mpr ⟨m, hfirst, hnext⟩, ht, himage, ?_⟩
    rw [List.filterMap_append, hshown, hshown', List.singleton_append]

/-- What each step of the run preserves holds in all its states. -/
theorem always_of_eachStep {P : S → Prop} {s : S} {as : List A} (hs : P s)
    (h : EachStep step (fun t a => ∀ t', P t → step t a = some t' → P t') s as) :
    Always step P s as := by
  intro pre
  induction pre using List.reverseRecOn with
  | nil =>
    rintro post t - ht
    cases ht
    exact hs
  | append_singleton pre a ih =>
    intro post t has ht
    obtain ⟨m, hm, hstep⟩ := run_append_eq_some.mp ht
    obtain ⟨t', ht', hnil⟩ := run_cons_eq_some.mp hstep
    cases hnil
    have hsplit : as = pre ++ a :: post := by simpa using has
    exact h pre a post m hsplit hm t (ih (a :: post) m hsplit hm) ht'

/-- A run goes on behind each of its prefixes. -/
theorem step_of_run {s t u : S} {as pre post : List A} {a : A} (hrun : run step s as = some u)
    (has : as = pre ++ a :: post) (ht : run step s pre = some t) :
    ∃ t', step t a = some t' := by
  rw [has, run_append_eq_some] at hrun
  obtain ⟨m, hm, hrest⟩ := hrun
  rw [ht] at hm
  cases hm
  obtain ⟨t', hstep, -⟩ := run_cons_eq_some.mp hrest
  exact ⟨t', hstep⟩

/-- The rest of a run behind one of its steps. -/
theorem run_after {s t t' u : S} {as pre post : List A} {a : A} (hrun : run step s as = some u)
    (has : as = pre ++ a :: post) (ht : run step s pre = some t) (ht' : step t a = some t') :
    run step t' post = some u := by
  rw [has, run_append_eq_some] at hrun
  obtain ⟨m, hm, hrest⟩ := hrun
  rw [ht] at hm
  cases hm
  obtain ⟨k, hk, hend⟩ := run_cons_eq_some.mp hrest
  rw [ht'] at hk
  cases hk
  exact hend

/-- When nothing is enabled outside of `P`, no step of a run that ends in `P` leaves it. -/
theorem eachStep_of_final {P : S → Prop} (hfinal : ∀ s a t, step s a = some t → P s) {s t : S}
    {as : List A} (hrun : run step s as = some t) (ht : P t) :
    EachStep step (fun s a => ∀ s', step s a = some s' → P s') s as := by
  intro pre a post m hsplit hpre m' hstep
  have hrest := run_after hrun hsplit hpre hstep
  cases post with
  | nil =>
    cases hrest
    exact ht
  | cons b post =>
    -- the next step is enabled
    obtain ⟨k, hk, -⟩ := run_cons_eq_some.mp hrest
    exact hfinal m' b k hk

/-- When a good step keeps an invariant that implies `P`, and a bad one ends outside of `P`, the run
is in `P` throughout exactly when all its steps are good. -/
theorem always_iff_eachStep {I P : S → Prop} {Q : S → A → Prop} {s u : S} {as : List A}
    (hrun : run step s as = some u) (hs : I s) (hP : ∀ t, I t → P t)
    (hstep : ∀ t a t', a ∈ as → I t → step t a = some t' → Q t a ∧ I t' ∨ ¬ Q t a ∧ ¬ P t') :
    Always step P s as ↔ EachStep step Q s as := by
  constructor
  · intro halways
    have hgood : ∀ pre a post t, as = pre ++ a :: post → run step s pre = some t → I t →
        ∀ t', step t a = some t' → Q t a ∧ I t' := by
      intro pre a post t has ht hI t' ht'
      rcases hstep t a t' (by simp [has]) hI ht' with hok | ⟨-, hbad⟩
      · exact hok
      · refine absurd (halways (pre ++ [a]) post t' (by simp [has]) ?_) hbad
        exact run_append_eq_some.mpr ⟨t, ht, run_cons_eq_some.mpr ⟨t', ht', rfl⟩⟩
    have hinv : Always step I s as := always_of_eachStep hs fun pre a post t has ht t' hI ht' =>
      (hgood pre a post t has ht hI t' ht').2
    intro pre a post t has ht
    obtain ⟨t', ht'⟩ := step_of_run hrun has ht
    exact (hgood pre a post t has ht (hinv pre (a :: post) t has ht) t' ht').1
  · intro heach pre post t has ht
    have hinv : Always step I s as := by
      refine always_of_eachStep hs fun pre a post t has ht t' hI ht' => ?_
      rcases hstep t a t' (by simp [has]) hI ht' with hok | hbad
      · exact hok.2
      · exact absurd (heach pre a post t has ht) hbad.1
    exact hP t (hinv pre post t has ht)

end Run

/-- Take from a source until it is empty. The source answers `none` when the program stops,
`some (none, _)` when it is empty and `some (some a, s)` when it hands out `a`. Running out of
fuel is `none` as well; `drain_eq_some` gives the fuel that suffices. -/
def drain (next : S → Option (Option A × S)) : Nat → S → Option (List A)
  | 0, _ => none
  | fuel + 1, s =>
    match next s with
    | none => none
    | some (none, _) => some []
    | some (some a, t) => (drain next fuel t).map (a :: ·)

/-- More fuel does not change what a source is drained to. -/
theorem drain_unique {next : S → Option (Option A × S)} {m n : Nat} {s : S} {as bs : List A}
    (has : drain next m s = some as) (hbs : drain next n s = some bs) : as = bs := by
  induction m generalizing n s as bs with
  | zero => cases has
  | succ m ih =>
    cases n with
    | zero => cases hbs
    | succ n =>
      rw [drain] at has hbs
      split at has
      · cases has
      · rename_i h
        simp only [h] at hbs
        exact Option.some.inj (has.symm.trans hbs)
      · rename_i a t h
        simp only [h] at hbs
        obtain ⟨as', has', rfl⟩ := Option.map_eq_some_iff.mp has
        obtain ⟨bs', hbs', rfl⟩ := Option.map_eq_some_iff.mp hbs
        rw [ih has' hbs']

/-- Related sources, one of which answers whatever the other one does, are drained to related
lists. -/
theorem drain_rel {T : Type*} {B : Type*} {next : S → Option (Option A × S)}
    {next' : T → Option (Option B × T)} {R : S → T → Prop} {Q : A → B → Prop}
    (hnext : ∀ s t b t', R s t → next' t = some (b, t') →
      ∃ a s', next s = some (a, s') ∧ Option.Rel Q a b ∧ (b ≠ none → R s' t'))
    (fuel : Nat) {s : S} {t : T} (hst : R s t) {bs : List B}
    (hbs : drain next' fuel t = some bs) :
    ∃ as, drain next fuel s = some as ∧ List.Forall₂ Q as bs := by
  induction fuel generalizing s t bs with
  | zero => cases hbs
  | succ fuel ih =>
    rw [drain] at hbs
    cases ht : next' t with
    | none =>
      rw [ht] at hbs
      cases hbs
    | some answer =>
      obtain ⟨b, t'⟩ := answer
      obtain ⟨a, s', hs, hab, hst'⟩ := hnext s t b t' hst ht
      rw [ht] at hbs
      rw [drain, hs]
      cases hab with
      | none =>
        cases hbs
        exact ⟨[], rfl, List.Forall₂.nil⟩
      | some hab =>
        obtain ⟨bs', hbs', rfl⟩ := Option.map_eq_some_iff.mp hbs
        obtain ⟨as, has, hall⟩ := ih (hst' (by simp)) hbs'
        exact ⟨_, by simp only [has, Option.map_some], List.Forall₂.cons hab hall⟩

/-- A source whose every answer is an element and keeps `P` is never drained. -/
theorem drain_eq_none {next : S → Option (Option A × S)} {P : S → Prop}
    (hnext : ∀ s answer t, P s → next s = some (answer, t) → answer ≠ none ∧ P t)
    (fuel : Nat) {s : S} (hs : P s) : drain next fuel s = none := by
  induction fuel generalizing s with
  | zero => rfl
  | succ fuel ih =>
    rw [drain]
    split
    · rfl
    · rename_i t h
      exact absurd rfl (hnext s none t hs h).1
    · rename_i a t h
      rw [ih (hnext s (some a) t hs h).2]
      rfl

end RaftLsmt.Lib.StepMachine
