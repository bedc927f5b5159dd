import RaftLsmt.Lib.StepMachine
import Mathlib.Logic.Function.Basic
import Mathlib.Data.List.Infix

/-!
# Replacing a file as a whole

A file is replaced by writing the new content to a temporary file, syncing that and renaming it over
the old one. `Disk` has a directory and the files it leads to. What is written to a file may get lost
until the file is synced. The operations on the directory reach the disk in their order, so a power
failure (`Disk.PowerFailure`) takes the directory back to that of an earlier moment; it keeps the
files that are synced and leaves anything of the others.

`Replacing.Inv` is what every step of such a writer keeps when the two paths differ. It follows that
whoever reads the target, at any moment or behind a power failure, finds a content that was to be
written, as a whole (`Replacing.Inv.read_eq`, `read_of_powerFailure`).
-/

set_option autoImplicit false

namespace RaftLsmt.Lib.FileReplace

open RaftLsmt.Lib.StepMachine

universe u v

variable {P : Type u} {β : Type v}

/-! ## The disk -/

/-- A directory, and the content of the files. `synced` says of a file that its content is permanent;
`next` is the number of the next new file. -/
structure Disk (P : Type u) (β : Type v) where
  dir : P → Option Nat
  data : Nat → List β
  synced : Nat → Bool
  next : Nat

namespace Disk

/-- Open a file for writing: it is created, or its content is dropped. -/
def openWrite [DecidableEq P] (d : Disk P β) (p : P) : Nat × Disk P β :=
  match d.dir p with
  | some i => (i, { d with
      data := Function.update d.data i []
      synced := Function.update d.synced i false })
  | none => (d.next, {
      dir := Function.update d.dir p (some d.next)
      data := Function.update d.data d.next []
      synced := Function.update d.synced d.next false
      next := d.next + 1 })

/-- Write behind the content of an open file. -/
def append (d : Disk P β) (i : Nat) (content : List β) : Disk P β :=
  { d with
    data := Function.update d.data i (d.data i ++ content)
    synced := Function.update d.synced i false }

/-- Make the content of a file permanent. -/
def sync (d : Disk P β) (i : Nat) : Disk P β :=
  { d with synced := Function.update d.synced i true }

/-- Put the file of one path in the place of another. -/
def rename [DecidableEq P] (d : Disk P β) (source target : P) : Disk P β :=
  if source = target then d
  else { d with dir := Function.update (Function.update d.dir target (d.dir source)) source none }

/-- The content found under a path. -/
def read (d : Disk P β) (p : P) : Option (List β) := (d.dir p).map d.data

/-- What a power failure leaves: the directory of an earlier moment, and the files that are synced
now. -/
structure PowerFailure (now earlier after : Disk P β) : Prop where
  dir : after.dir = earlier.dir
  data : ∀ i, now.synced i = true → after.data i = now.data i

end Disk

/-! ## The writer -/

/-- What the writer is doing: nothing; writing a content, so much of which has left its buffer; or
about to rename the file, which is synced. -/
inductive Phase (β : Type v) where
  | idle
  | writing (file : Nat) (content : List β) (written : Nat)
  | synced (file : Nat) (content : List β)

/-- The content that is being written. -/
def Phase.content : Phase β → Option (List β)
  | .idle => none
  | .writing _ content _ => some content
  | .synced _ content => some content

/-- A disk and the writer. `committed` is history: the files that have been put in the place of the
target, with what they were to hold. -/
structure Replacing (P : Type u) (β : Type v) where
  disk : Disk P β
  phase : Phase β
  committed : List (Nat × List β)

/-- The next step of the writer: open the temporary file; pass on some of what is in the buffer; sync
the file when all of it has been passed on; rename it. A step that fails ends the run. -/
inductive WriteAction (β : Type v) where
  | start (content : List β)
  | push (count : Nat)
  | sync
  | commit

namespace Replacing

/-- A writer that has not begun. -/
def init (target : P) (disk : Disk P β) : Replacing P β where
  disk := disk
  phase := .idle
  committed := ((disk.dir target).map fun i => (i, disk.data i)).toList

def step [DecidableEq P] (temp target : P) (s : Replacing P β) : WriteAction β → Option (Replacing P β)
  | .start content =>
    match s.phase with
    | .idle =>
      let (file, disk) := s.disk.openWrite temp
      some { s with disk := disk, phase := .writing file content 0 }
    | _ => none
  | .push count =>
    match s.phase with
    | .writing file content written =>
      some { s with
        disk := s.disk.append file ((content.drop written).take count)
        phase := .writing file content (written + count) }
    | _ => none
  | .sync =>
    match s.phase with
    | .writing file content written =>
      if written < content.length then none
      else some { s with disk := s.disk.sync file, phase := .synced file content }
    | _ => none
  | .commit =>
    match s.phase with
    | .synced file content =>
      some { s with
        disk := s.disk.rename temp target
        phase := .idle
        committed := s.committed ++ [(file, content)] }
    | _ => none

/-- The content that was put in place last. -/
def current (s : Replacing P β) : Option (List β) := s.committed.getLast?.map Prod.snd

/-- The temporary file and what it holds so far. -/
def PhaseOk (temp : P) (disk : Disk P β) : Phase β → Prop
  | .idle => True
  | .writing file content written =>
    disk.dir temp = some file ∧ disk.data file = content.take written
  | .synced file content =>
    disk.dir temp = some file ∧ disk.data file = content ∧ disk.synced file = true

/-- The target is the file put in place last, all files that ever were in its place are synced and
hold what they were to hold, and the temporary file is none of them. -/
structure Inv (temp target : P) (s : Replacing P β) : Prop where
  bounded : ∀ p i, s.disk.dir p = some i → i < s.disk.next
  target_eq : s.disk.dir target = s.committed.getLast?.map Prod.fst
  kept : ∀ e ∈ s.committed,
    e.1 < s.disk.next ∧ s.disk.synced e.1 = true ∧ s.disk.data e.1 = e.2
  temp_ne : ∀ i, s.disk.dir temp = some i → ∀ e ∈ s.committed, e.1 ≠ i
  phase : PhaseOk temp s.disk s.phase

/-- A disk on which nothing is unwritten and the two paths lead to different files. -/
structure Settled (temp target : P) (disk : Disk P β) : Prop where
  bounded : ∀ p i, disk.dir p = some i → i < disk.next
  synced : ∀ i, disk.dir target = some i → disk.synced i = true
  apart : ∀ i, disk.dir temp = some i → disk.dir target ≠ some i

theorem inv_init {temp target : P} {disk : Disk P β} (h : Settled temp target disk) :
    Inv temp target (init target disk) where
  bounded := h.bounded
  target_eq := by
    show disk.dir target = _
    unfold init
    cases disk.dir target <;> rfl
  kept e he := by
    obtain ⟨i, hi, rfl⟩ := Option.map_eq_some_iff.mp (Option.mem_toList.mp he)
    exact ⟨h.bounded target i hi, h.synced i hi, rfl⟩
  temp_ne i hi e he := by
    obtain ⟨j, hj, rfl⟩ := Option.map_eq_some_iff.mp (Option.mem_toList.mp he)
    rintro rfl
    exact h.apart j hi hj
  phase := trivial

namespace Inv

variable {temp target : P} {s s' : Replacing P β}

/-- The temporary file is opened: created, or what it held is dropped. -/
theorem start [DecidableEq P] (h : s.Inv temp target) (hne : temp ≠ target) (content : List β) :
    Inv temp target { s with
      disk := (s.disk.openWrite temp).2
      phase := .writing (s.disk.openWrite temp).1 content 0 } := by
  unfold Disk.openWrite
  cases hdir : s.disk.dir temp with
  | some i =>
    -- a file left behind by a process that has died
    have hother : ∀ e ∈ s.committed, e.1 ≠ i := h.temp_ne i hdir
    refine ⟨h.bounded, h.target_eq, fun e he => ?_, h.temp_ne, hdir, ?_⟩
    · obtain ⟨hlt, hsynced, hdata⟩ := h.kept e he
      refine ⟨hlt, ?_, ?_⟩
      · show Function.update s.disk.synced i false e.1 = true
        rw [Function.update_of_ne (hother e he)]
        exact hsynced
      · show Function.update s.disk.data i [] e.1 = e.2
        rw [Function.update_of_ne (hother e he)]
        exact hdata
    · show Function.update s.disk.data i [] i = content.take 0
      rw [Function.update_self, List.take_zero]
  | none =>
    have hother : ∀ e ∈ s.committed, e.1 ≠ s.disk.next := fun e he =>
      Nat.ne_of_lt (h.kept e he).1
    refine ⟨fun p i hi => ?_, ?_, fun e he => ?_, fun i hi e he => ?_, ?_, ?_⟩
    · have hi : Function.update s.disk.dir temp (some s.disk.next) p = some i := hi
      show i < s.disk.next + 1
      by_cases hp : p = temp
      · rw [hp, Function.update_self] at hi
        cases hi
        exact Nat.lt_succ_self _
      · rw [Function.update_of_ne hp] at hi
        exact Nat.lt_succ_of_lt (h.bounded p i hi)
    · show Function.update s.disk.dir temp (some s.disk.next) target = _
      rw [Function.update_of_ne (Ne.symm hne)]
      exact h.target_eq
    · obtain ⟨hlt, hsynced, hdata⟩ := h.kept e he
      refine ⟨Nat.lt_succ_of_lt hlt, ?_, ?_⟩
      · show Function.update s.disk.synced s.disk.next false e.1 = true
        rw [Function.update_of_ne (hother e he)]
        exact hsynced
      · show Function.update s.disk.data s.disk.next [] e.1 = e.2
        rw [Function.update_of_ne (hother e he)]
        exact hdata
    · have hi : Function.update s.disk.dir temp (some s.disk.next) temp = some i := hi
      rw [Function.update_self] at hi
      cases hi
      exact hother e he
    · exact Function.update_self _ _ _
    · show Function.update s.disk.data s.disk.next [] s.disk.next = content.take 0
      rw [Function.update_self, List.take_zero]

/-- A write to the temporary file. -/
theorem push (h : s.Inv temp target) {file : Nat} {content : List β} {written : Nat}
    (hphase : s.phase = .writing file content written) (count : Nat) :
    Inv temp target { s with
      disk := s.disk.append file ((content.drop written).take count)
      phase := .writing file content (written + count) } := by
  have hok := h.phase
  rw [hphase] at hok
  have hother := h.temp_ne file hok.1
  refine ⟨h.bounded, h.target_eq, fun e he => ?_, h.temp_ne, hok.1, ?_⟩
  · obtain ⟨hlt, hsynced, hdata⟩ := h.kept e he
    refine ⟨hlt, ?_, ?_⟩
    · show Function.update s.disk.synced file false e.1 = true
      rw [Function.update_of_ne (hother e he)]
      exact hsynced
    · show Function.update s.disk.data file _ e.1 = e.2
      rw [Function.update_of_ne (hother e he)]
      exact hdata
  · show Function.update s.disk.data file _ file = content.take (written + count)
    rw [Function.update_self, hok.2, List.take_add]

/-- The whole content becomes permanent. -/
theorem sync (h : s.Inv temp target) {file : Nat} {content : List β} {written : Nat}
    (hphase : s.phase = .writing file content written) (hall : ¬ written < content.length) :
    Inv temp target { s with disk := s.disk.sync file, phase := .synced file content } := by
  have hok := h.phase
  rw [hphase] at hok
  refine ⟨h.bounded, h.target_eq, fun e he => ?_, h.temp_ne, hok.1, ?_, Function.update_self _ _ _⟩
  · obtain ⟨hlt, hsynced, hdata⟩ := h.kept e he
    refine ⟨hlt, ?_, hdata⟩
    show Function.update s.disk.synced file true e.1 = true
    rw [Function.update_of_ne (h.temp_ne file hok.1 e he)]
    exact hsynced
  · show s.disk.data file = content
    rw [hok.2, List.take_of_length_le (Nat.not_lt.mp hall)]

/-- The temporary file takes the place of the target. -/
theorem commit [DecidableEq P] (h : s.Inv temp target) (hne : temp ≠ target) {file : Nat} {content : List β}
    (hphase : s.phase = .synced file content) :
    Inv temp target { s with
      disk := s.disk.rename temp target
      phase := .idle
      committed := s.committed ++ [(file, content)] } := by
  have hok := h.phase
  rw [hphase] at hok
  obtain ⟨hdir, hdata, hsynced⟩ := hok
  have hdisk : s.disk.rename temp target = { s.disk with
      dir := Function.update (Function.update s.disk.dir target (some file)) temp none } := by
    rw [Disk.rename, if_neg hne, hdir]
  rw [hdisk]
  refine ⟨fun p i hi => ?_, ?_, fun e he => ?_, fun i hi => ?_, trivial⟩
  · have hi : Function.update (Function.update s.disk.dir target (some file)) temp none p =
        some i := hi
    by_cases hp : p = temp
    · rw [hp, Function.update_self] at hi
      cases hi
    · rw [Function.update_of_ne hp] at hi
      by_cases hpt : p = target
      · rw [hpt, Function.update_self] at hi
        cases hi
        exact h.bounded temp file hdir
      · rw [Function.update_of_ne hpt] at hi
        exact h.bounded p i hi
  · show Function.update (Function.update s.disk.dir target (some file)) temp none target = _
    rw [Function.update_of_ne (Ne.symm hne), Function.update_self, List.getLast?_concat]
    rfl
  · rcases List.mem_append.mp he with he | he
    · exact h.kept e he
    · rw [List.mem_singleton.mp he]
      exact ⟨h.bounded temp file hdir, hsynced, hdata⟩
  · have hi : Function.update (Function.update s.disk.dir target (some file)) temp none temp =
        some i := hi
    rw [Function.update_self] at hi
    cases hi

theorem step [DecidableEq P] (h : s.Inv temp target) (hne : temp ≠ target) {a : WriteAction β}
    (hstep : Replacing.step temp target s a = some s') : s'.Inv temp target := by
  cases a with
  | start content =>
    simp only [Replacing.step] at hstep
    split at hstep
    · cases hstep
      exact h.start hne content
    · cases hstep
  | push count =>
    simp only [Replacing.step] at hstep
    split at hstep
    · rename_i hphase
      cases hstep
      exact h.push hphase count
    · cases hstep
  | sync =>
    simp only [Replacing.step] at hstep
    split at hstep
    · rename_i hphase
      split at hstep
      · cases hstep
      · rename_i hall
        cases hstep
        exact h.sync hphase hall
    · cases hstep
  | commit =>
    simp only [Replacing.step] at hstep
    split at hstep
    · rename_i hphase
      cases hstep
      exact h.commit hne hphase
    · cases hstep

/-- The target holds the content put in place last. -/
theorem read_eq (h : s.Inv temp target) : s.disk.read target = s.current := by
  unfold Disk.read current
  rw [h.target_eq, Option.map_map]
  cases hlast : s.committed.getLast? with
  | none => rfl
  | some e => exact congrArg some (h.kept e (List.mem_of_getLast? hlast)).2.2

end Inv

/-! ### What a step does to the content -/

/-- The beginning of a write. -/
theorem step_start [DecidableEq P] {temp target : P} {s s' : Replacing P β} {content : List β}
    (hstep : step temp target s (.start content) = some s') :
    s.phase.content = none ∧ s'.phase.content = some content ∧ s'.committed = s.committed := by
  simp only [step] at hstep
  split at hstep
  · rename_i hphase
    cases hstep
    exact ⟨by rw [hphase]; rfl, rfl, rfl⟩
  · cases hstep

/-- A step in the middle of a write. -/
theorem step_between [DecidableEq P] {temp target : P} {s s' : Replacing P β} {a : WriteAction β}
    (hstart : ∀ content, a ≠ .start content) (hcommit : a ≠ .commit)
    (hstep : step temp target s a = some s') :
    s'.phase.content = s.phase.content ∧ s'.committed = s.committed := by
  cases a with
  | start content => exact absurd rfl (hstart content)
  | push count =>
    simp only [step] at hstep
    split at hstep
    · rename_i hphase
      cases hstep
      exact ⟨by rw [hphase]; rfl, rfl⟩
    · cases hstep
  | sync =>
    simp only [step] at hstep
    split at hstep
    · rename_i hphase
      split at hstep <;> cases hstep
      exact ⟨by rw [hphase]; rfl, rfl⟩
    · cases hstep
  | commit => exact absurd rfl hcommit

/-- The end of a write. -/
theorem step_commit [DecidableEq P] {temp target : P} {s s' : Replacing P β}
    (hstep : step temp target s .commit = some s') :
    ∃ file content, s.phase.content = some content ∧ s'.phase.content = none ∧
      s'.committed = s.committed ++ [(file, content)] := by
  simp only [step] at hstep
  split at hstep
  · rename_i file content hphase
    cases hstep
    exact ⟨file, content, by rw [hphase]; rfl, rfl, rfl⟩
  · cases hstep

/-- What has been put in place stays on record. -/
theorem step_committed [DecidableEq P] {temp target : P} {s s' : Replacing P β} {a : WriteAction β}
    (hstep : step temp target s a = some s') : s.committed <+: s'.committed := by
  cases a with
  | start content =>
    rw [(step_start hstep).2.2]
  | commit =>
    obtain ⟨file, content, -, -, hcommitted⟩ := step_commit hstep
    rw [hcommitted]
    exact List.prefix_append _ _
  | push count =>
    rw [(step_between (a := .push count) nofun nofun hstep).2]
  | sync =>
    rw [(step_between (a := .sync) nofun nofun hstep).2]

/-- What every run of the writer keeps. -/
theorem Inv.run [DecidableEq P] {temp target : P} {s s' : Replacing P β} {as : List (WriteAction β)}
    (hs : s.Inv temp target) (hne : temp ≠ target)
    (hrun : StepMachine.run (Replacing.step temp target) s as = some s') : s'.Inv temp target :=
  run_invariant (fun _ _ _ (_ : True) hr hstep => hr.step hne hstep) (fun _ _ => trivial) hs hrun

theorem run_committed [DecidableEq P] {temp target : P} {s s' : Replacing P β}
    {as : List (WriteAction β)}
    (hrun : StepMachine.run (step temp target) s as = some s') : s.committed <+: s'.committed := by
  have hkept := run_invariant (P := fun r : Replacing P β => s.committed <+: r.committed)
    (fun r a r' (_ : True) (hr : s.committed <+: r.committed) hstep =>
      hr.trans (step_committed (show step temp target r a = some r' from hstep)))
    (fun _ _ => trivial) List.prefix_rfl hrun
  exact hkept

/-- Behind a power failure that takes the directory back to an earlier moment, the target holds what
it held then. -/
theorem read_of_powerFailure {temp target : P} {s t : Replacing P β} {after : Disk P β}
    (hs : s.Inv temp target) (ht : t.Inv temp target) (hfront : t.committed <+: s.committed)
    (hfail : Disk.PowerFailure s.disk t.disk after) : after.read target = t.current := by
  unfold Disk.read current
  rw [hfail.dir, ht.target_eq, Option.map_map]
  cases hlast : t.committed.getLast? with
  | none => rfl
  | some e =>
    obtain ⟨-, hsynced, hdata⟩ := hs.kept e (hfront.subset (List.mem_of_getLast? hlast))
    exact congrArg some ((hfail.data e.1 hsynced).trans hdata)

end Replacing

end RaftLsmt.Lib.FileReplace
