import RaftLsmt.Lib.RankedQueue
import RaftLsmt.Lib.RunBound

/-!
# Two pools of workers

Tasks run to their end; one that nobody waits for may begin again and again before that. Jobs wait for
tasks: a job begins with tasks of its own, and each time one of them is done it takes a turn, which may
submit further ones, until there is none left or a turn fails; then the tasks that have not begun are
cancelled. Tasks and jobs have workers of their own, the tasks wait in a queue with ranks.

A pool in which jobs wait for tasks that wait for a worker behind these jobs may come to a halt. Two
pools do not: `Inv.atRest` says what holds where nobody can go on, and `countP_le_work` that there is an
end to going on, but for the tasks that begin again, when each turn uses something up.
-/

set_option autoImplicit false

namespace RaftLsmt.Lib.TwoPools

open RaftLsmt.Lib.RankedQueue
open RaftLsmt.Lib.RunBound
open RaftLsmt.Lib.StepMachine

universe u

/-- What a job does: where it starts from, the number of tasks it waits for, and its turn when one of
them is done, with the number of tasks the turn submits. -/
structure Machine (C J R : Type) where
  start : C → J
  waits : J → Nat
  failed : J → Bool
  turn : J → Nat → R → J × Nat

/-- A turn takes one task off and adds those it submits. -/
structure Machine.Lawful {C J R : Type} (m : Machine C J R) : Prop where
  start_ok : ∀ c, m.failed (m.start c) = false
  waits_turn : ∀ j k r, m.failed j = false → k < m.waits j → m.failed (m.turn j k r).1 = false →
    m.waits (m.turn j k r).1 + 1 = m.waits j + (m.turn j k r).2

/-- What a job may have come to by its turns. -/
inductive Machine.Reached {C J R : Type} (m : Machine C J R) : J → Prop where
  | start (c : C) : Reached m (m.start c)
  | turn {j : J} {k : Nat} (r : R) (h : Reached m j) (hok : m.failed j = false)
      (hk : k < m.waits j) : Reached m (m.turn j k r).1

/-- The sizes of the pools, and the ranks of the tasks a job begins with, of those it submits in its
turns and of those of nobody. -/
structure Config (ρ : Type) where
  taskWorkers : Nat
  jobWorkers : Nat
  firstRank : ρ
  nextRank : ρ
  postRank : ρ

inductive TaskState (R : Type) where
  | waiting
  | cancelled
  | running
  | done (result : R)

/-- A task and the job that waits for it. -/
structure Task (R : Type) where
  owner : Option Nat
  state : TaskState R

namespace Task

variable {R : Type}

/-- A worker has taken the task from the queue. -/
def begin (t : Task R) : Task R :=
  match t.state with
  | .waiting => { t with state := .running }
  | _ => t

def cancel (t : Task R) : Task R :=
  match t.state with
  | .waiting => { t with state := .cancelled }
  | _ => t

def isRunning (t : Task R) : Bool :=
  match t.state with
  | .running => true
  | _ => false

@[simp]
theorem owner_begin (t : Task R) : t.begin.owner = t.owner := by
  unfold begin
  split <;> rfl

@[simp]
theorem owner_cancel (t : Task R) : t.cancel.owner = t.owner := by
  unfold cancel
  split <;> rfl

end Task

inductive JobPc where
  | submitting (left : Nat)
  | queued
  | running
  | ended

structure Job (J : Type) where
  pc : JobPc
  state : J
  tasks : List Nat

def Job.isRunning {J : Type} (j : Job J) : Bool :=
  match j.pc with
  | .running => true
  | _ => false

/-- The tasks and the jobs there have been, the queue of the tasks and the one of the jobs. -/
structure World (ρ J R : Type) where
  tasks : List (Task R)
  queue : Queue ρ Nat
  jobs : List (Job J)
  jobQueue : List Nat

inductive Action (C R : Type) where
  | call (c : C)
  | post
  | submit (i : Nat)
  | takeTask
  | again (t : Nat)
  | finish (t : Nat) (result : R)
  | takeJob
  | turn (i k : Nat)
  | complete (i : Nat)

/-- Nobody comes from outside. -/
def Action.Internal {C R : Type} : Action C R → Prop
  | .call _ => False
  | .post => False
  | _ => True

/-- A task of nobody begins again. -/
def Action.isAgain {C R : Type} : Action C R → Bool
  | .again _ => true
  | _ => false

namespace World

variable {ρ C J R : Type}

def init : World ρ J R := ⟨[], .empty, [], []⟩

def setJob (w : World ρ J R) (i : Nat) (j : Job J) : World ρ J R :=
  { w with jobs := w.jobs.set i j }

def submitTask (w : World ρ J R) (owner : Option Nat) (rank : ρ) : World ρ J R :=
  { w with
    tasks := w.tasks ++ [⟨owner, .waiting⟩]
    queue := w.queue.put rank w.tasks.length }

def submitTasks (owner : Option Nat) (rank : ρ) : Nat → World ρ J R → World ρ J R
  | 0, w => w
  | n + 1, w => submitTasks owner rank n (w.submitTask owner rank)

/-- Cancel the tasks that have not begun. -/
def cancelTasks (w : World ρ J R) (ts : List Nat) : World ρ J R :=
  { w with tasks := w.tasks.mapIdx fun t task => if t ∈ ts then task.cancel else task }

def tasksRunning (w : World ρ J R) : Nat := w.tasks.countP Task.isRunning

def jobsRunning (w : World ρ J R) : Nat := w.jobs.countP Job.isRunning

/-- A turn of the job `i`, whose task at `k` is done. -/
def turnStep (m : Machine C J R) (c : Config ρ) (w : World ρ J R) (i k : Nat) (j : Job J) (r : R) :
    World ρ J R :=
  let next := m.turn j.state k r
  let tasks := j.tasks.eraseIdx k ++ List.range' w.tasks.length next.2
  let w := submitTasks (some i) c.nextRank next.2 w
  if m.failed next.1 then (w.cancelTasks tasks).setJob i ⟨.ended, next.1, tasks⟩
  else w.setJob i ⟨.running, next.1, tasks⟩

/-- The next of the tasks the job begins with, and behind them the job itself. -/
def submitStep (c : Config ρ) (w : World ρ J R) (i : Nat) (j : Job J) : Option (World ρ J R) :=
  match j.pc with
  | .submitting (left + 1) =>
    some ((w.submitTask (some i) c.firstRank).setJob i
      ⟨.submitting left, j.state, j.tasks ++ [w.tasks.length]⟩)
  | .submitting 0 => some { w.setJob i { j with pc := .queued } with jobQueue := w.jobQueue ++ [i] }
  | _ => none

variable [LinearOrder ρ]

/-- One step. -/
def step (m : Machine C J R) (c : Config ρ) (w : World ρ J R) : Action C R → Option (World ρ J R)
  | .call call =>
    some { w with jobs := w.jobs ++ [⟨.submitting (m.waits (m.start call)), m.start call, []⟩] }
  | .post => some (w.submitTask none c.postRank)
  | .submit i => (w.jobs[i]?).bind (w.submitStep c i)
  | .takeTask =>
    if w.tasksRunning < c.taskWorkers then
      w.queue.get.bind fun taken => (w.tasks[taken.1.item]?).map fun task =>
        { w with queue := taken.2, tasks := w.tasks.set taken.1.item task.begin }
    else none
  | .again t =>
    match w.tasks[t]? with
    | some ⟨none, .running⟩ => some w
    | _ => none
  | .finish t result =>
    match w.tasks[t]? with
    | some ⟨owner, .running⟩ => some { w with tasks := w.tasks.set t ⟨owner, .done result⟩ }
    | _ => none
  | .takeJob =>
    match w.jobQueue with
    | [] => none
    | i :: rest =>
      if w.jobsRunning < c.jobWorkers then
        (w.jobs[i]?).map fun j => { w.setJob i { j with pc := .running } with jobQueue := rest }
      else none
  | .turn i k =>
    (w.jobs[i]?).bind fun j => (j.tasks[k]?).bind fun t =>
      match j.pc, w.tasks[t]? with
      | .running, some ⟨_, .done result⟩ => some (w.turnStep m c i k j result)
      | _, _ => none
  | .complete i =>
    match w.jobs[i]? with
    | some ⟨.running, state, []⟩ => some (w.setJob i ⟨.ended, state, []⟩)
    | _ => none

theorem step_again {m : Machine C J R} {c : Config ρ} {w w' : World ρ J R} {t : Nat}
    (hstep : w.step m c (.again t) = some w') : w' = w := by
  rw [step] at hstep
  split at hstep
  · exact (Option.some.inj hstep).symm
  · cases hstep

/-- Nobody can go on. -/
def Stuck (m : Machine C J R) (c : Config ρ) (w : World ρ J R) : Prop :=
  ∀ a : Action C R, a.Internal → w.step m c a = none

omit [LinearOrder ρ]

/-- Every job has ended, with all its tasks taken or by a turn that failed, and no task is left. -/
structure AtRest (m : Machine C J R) (w : World ρ J R) : Prop where
  jobs : ∀ j ∈ w.jobs, j.pc = .ended ∧ (m.failed j.state = true ∨ m.waits j.state = 0)
  tasks : ∀ t ∈ w.tasks, t.state = .cancelled ∨ ∃ r, t.state = .done r
  queue : w.queue.entries = []
  jobQueue : w.jobQueue = []

end World

/-! ## What holds in every run -/

section Invariant

variable {ρ C J R : Type}

/-- The queue holds the tasks that wait, each once, and of the others only cancelled ones. -/
structure QueueOk (tasks : List (Task R)) (queue : Queue ρ Nat) : Prop where
  ok : queue.Ok
  nodup : (queue.entries.map Ranked.item).Nodup
  entries : ∀ e ∈ queue.entries, ∃ task, tasks[e.item]? = some task ∧
    (task.state = .waiting ∨ task.state = .cancelled)
  waiting : ∀ t task, tasks[t]? = some task → task.state = .waiting →
    ∃ e ∈ queue.entries, e.item = t

/-- The task is one of the job `i` that has not been cancelled. -/
def Owns (tasks : List (Task R)) (i t : Nat) : Prop :=
  ∃ task, tasks[t]? = some task ∧ task.owner = some i ∧ task.state ≠ .cancelled

/-- A job waits for the tasks it has submitted and not taken. -/
def JobOk (m : Machine C J R) (tasks : List (Task R)) (jobQueue : List Nat) (i : Nat) (j : Job J) :
    Prop :=
  match j.pc with
  | .submitting left =>
    m.failed j.state = false ∧ j.tasks.length + left = m.waits j.state ∧ ∀ t ∈ j.tasks, Owns tasks i t
  | .queued =>
    m.failed j.state = false ∧ j.tasks.length = m.waits j.state ∧ (∀ t ∈ j.tasks, Owns tasks i t) ∧
      i ∈ jobQueue
  | .running =>
    m.failed j.state = false ∧ j.tasks.length = m.waits j.state ∧ ∀ t ∈ j.tasks, Owns tasks i t
  | .ended => m.failed j.state = true ∨ m.waits j.state = 0

/-- The invariant of a run. -/
structure Inv (m : Machine C J R) (w : World ρ J R) : Prop where
  tasks : QueueOk w.tasks w.queue
  jobs : ∀ i j, w.jobs[i]? = some j → JobOk m w.tasks w.jobQueue i j
  jobQueue : ∀ i ∈ w.jobQueue, ∃ j, w.jobs[i]? = some j ∧ j.pc = .queued
  nodup : w.jobQueue.Nodup

section Tasks

variable {tasks : List (Task R)} {queue : Queue ρ Nat} {i t : Nat}

theorem Owns.append (h : Owns tasks i t) (more : List (Task R)) : Owns (tasks ++ more) i t := by
  obtain ⟨task, ht, howner, hstate⟩ := h
  have hlt : t < tasks.length := (List.getElem?_eq_some_iff.mp ht).1
  exact ⟨task, (List.getElem?_append_left hlt).trans ht, howner, hstate⟩

/-- A task that changes and is not cancelled. -/
theorem Owns.set (h : Owns tasks i t) {t' : Nat} {task new : Task R} (ht' : tasks[t']? = some task)
    (howner : new.owner = task.owner) (hstate : task.state ≠ .cancelled → new.state ≠ .cancelled) :
    Owns (tasks.set t' new) i t := by
  obtain ⟨old, ht, hold, hnot⟩ := h
  by_cases heq : t' = t
  · subst heq
    rw [ht'] at ht
    cases ht
    have hlt : t' < tasks.length := (List.getElem?_eq_some_iff.mp ht').1
    exact ⟨new, List.getElem?_set_self hlt, howner.trans hold, hstate hnot⟩
  · exact ⟨old, (List.getElem?_set_ne heq).trans ht, hold, hnot⟩

/-- The tasks of other jobs are not cancelled. -/
theorem Owns.cancel (h : Owns tasks i t) {ts : List Nat} (hnot : t ∉ ts) :
    Owns (tasks.mapIdx fun t task => if t ∈ ts then task.cancel else task) i t := by
  obtain ⟨task, ht, howner, hstate⟩ := h
  refine ⟨task, ?_, howner, hstate⟩
  rw [List.getElem?_mapIdx, ht, Option.map_some, if_neg hnot]

theorem Owns.unique {i' : Nat} (h : Owns tasks i t) (h' : Owns tasks i' t) : i = i' := by
  obtain ⟨task, ht, howner, -⟩ := h
  obtain ⟨task', ht', howner', -⟩ := h'
  rw [ht] at ht'
  cases ht'
  exact Option.some.inj (howner.symm.trans howner')

theorem Task.begin_of_waiting {task : Task R} (h : task.state = .waiting) :
    task.begin.state = .running := by
  unfold Task.begin
  rw [h]

theorem Task.begin_of_cancelled {task : Task R} (h : task.state = .cancelled) :
    task.begin.state = .cancelled := by
  unfold Task.begin
  rw [h]
  exact h

theorem Task.cancel_waiting {task : Task R} (h : task.state = .waiting) :
    task.cancel.state = .cancelled := by
  unfold Task.cancel
  rw [h]

theorem Task.cancel_of_ne {task : Task R} (h : task.state ≠ .waiting) : task.cancel = task := by
  unfold Task.cancel
  split
  · rename_i heq
    exact absurd heq h
  · rfl

/-- A new task. -/
theorem QueueOk.put (h : QueueOk tasks queue) (owner : Option Nat) (rank : ρ) :
    QueueOk (tasks ++ [⟨owner, .waiting⟩]) (queue.put rank tasks.length) := by
  have hlt : ∀ e ∈ queue.entries, e.item < tasks.length := by
    intro e he
    obtain ⟨task, htask, -⟩ := h.entries e he
    exact (List.getElem?_eq_some_iff.mp htask).1
  have hlast : (tasks ++ [⟨owner, .waiting⟩])[tasks.length]? = some ⟨owner, .waiting⟩ :=
    List.getElem?_concat_length
  refine ⟨h.ok.put rank tasks.length, ?_, ?_, ?_⟩
  · show ((queue.entries ++ [_]).map Ranked.item).Nodup
    rw [List.map_append]
    refine List.nodup_append.mpr ⟨h.nodup, List.nodup_singleton _, fun item hitem item' hlast' => ?_⟩
    obtain ⟨e, he, rfl⟩ := List.mem_map.mp hitem
    rw [List.map_singleton, List.mem_singleton] at hlast'
    exact hlast' ▸ Nat.ne_of_lt (hlt e he)
  · intro e he
    rcases List.mem_append.mp he with he | he
    · obtain ⟨task, htask, hstate⟩ := h.entries e he
      exact ⟨task, (List.getElem?_append_left (hlt e he)).trans htask, hstate⟩
    · rw [List.mem_singleton.mp he]
      exact ⟨_, hlast, Or.inl rfl⟩
  · intro t task htask hstate
    by_cases heq : t = tasks.length
    · exact ⟨_, List.mem_append_right _ (List.mem_singleton_self _), heq.symm⟩
    · have hless : t < tasks.length := by
        have hle := (List.getElem?_eq_some_iff.mp htask).1
        rw [List.length_append, List.length_singleton] at hle
        omega
      rw [List.getElem?_append_left hless] at htask
      obtain ⟨e, he, hitem⟩ := h.waiting t task htask hstate
      exact ⟨e, List.mem_append_left _ he, hitem⟩

/-- A worker takes the task that comes first. -/
theorem QueueOk.take [LinearOrder ρ] (h : QueueOk tasks queue) {e : Ranked ρ Nat}
    {queue' : Queue ρ Nat} (hget : queue.get = some (e, queue')) {task : Task R}
    (htask : tasks[e.item]? = some task) : QueueOk (tasks.set e.item task.begin) queue' := by
  obtain ⟨hperm, hok, -⟩ := Queue.get_spec h.ok hget
  have hnodup : ((e :: queue'.entries).map Ranked.item).Nodup :=
    (hperm.map Ranked.item).nodup_iff.mp h.nodup
  obtain ⟨hnot, hrest⟩ := List.nodup_cons.mp hnodup
  have hne : ∀ e' ∈ queue'.entries, e.item ≠ e'.item :=
    fun e' he' heq => hnot (List.mem_map.mpr ⟨e', he', heq.symm⟩)
  have hlt : e.item < tasks.length := (List.getElem?_eq_some_iff.mp htask).1
  refine ⟨hok, hrest, ?_, ?_⟩
  · intro e' he'
    rw [List.getElem?_set_ne (hne e' he')]
    exact h.entries e' (hperm.mem_iff.mpr (List.mem_cons_of_mem e he'))
  · intro t task' htask' hwaiting
    by_cases heq : e.item = t
    · -- the task that was taken does not wait any more
      rw [← heq, List.getElem?_set_self hlt] at htask'
      cases htask'
      obtain ⟨task', htask', hstate⟩ :=
        h.entries e (hperm.mem_iff.mpr List.mem_cons_self)
      rw [htask] at htask'
      cases htask'
      rcases hstate with hstate | hstate
      · rw [Task.begin_of_waiting hstate] at hwaiting
        cases hwaiting
      · rw [Task.begin_of_cancelled hstate] at hwaiting
        cases hwaiting
    · rw [List.getElem?_set_ne heq] at htask'
      obtain ⟨e', he', hitem⟩ := h.waiting t task' htask' hwaiting
      rcases List.mem_cons.mp (hperm.mem_iff.mp he') with rfl | he'
      · exact absurd hitem heq
      · exact ⟨e', he', hitem⟩

/-- A task is done. -/
theorem QueueOk.finish (h : QueueOk tasks queue) {owner : Option Nat}
    (ht : tasks[t]? = some ⟨owner, .running⟩) (result : R) :
    QueueOk (tasks.set t ⟨owner, .done result⟩) queue := by
  have hlt : t < tasks.length := (List.getElem?_eq_some_iff.mp ht).1
  refine ⟨h.ok, h.nodup, ?_, ?_⟩
  · intro e he
    obtain ⟨task, htask, hstate⟩ := h.entries e he
    have hne : t ≠ e.item := by
      intro heq
      rw [← heq, ht] at htask
      cases htask
      rcases hstate with hstate | hstate <;> cases hstate
    exact ⟨task, (List.getElem?_set_ne hne).trans htask, hstate⟩
  · intro t' task' htask' hwaiting
    by_cases heq : t = t'
    · rw [← heq, List.getElem?_set_self hlt] at htask'
      cases htask'
      cases hwaiting
    · rw [List.getElem?_set_ne heq] at htask'
      exact h.waiting t' task' htask' hwaiting

theorem QueueOk.cancel (h : QueueOk tasks queue) (ts : List Nat) :
    QueueOk (tasks.mapIdx fun t task => if t ∈ ts then task.cancel else task) queue := by
  refine ⟨h.ok, h.nodup, ?_, ?_⟩
  · intro e he
    obtain ⟨task, htask, hstate⟩ := h.entries e he
    refine ⟨_, by rw [List.getElem?_mapIdx, htask, Option.map_some], ?_⟩
    split
    · rcases hstate with hstate | hstate
      · exact Or.inr (Task.cancel_waiting hstate)
      · have hne : task.state ≠ .waiting := by
          rw [hstate]
          intro heq
          cases heq
        rw [Task.cancel_of_ne hne]
        exact Or.inr hstate
    · exact hstate
  · intro t task' htask' hwaiting
    rw [List.getElem?_mapIdx] at htask'
    obtain ⟨task, htask, heq⟩ := Option.map_eq_some_iff.mp htask'
    by_cases hstate : task.state = .waiting
    · exact h.waiting t task htask hstate
    · have hsame : task' = task := by
        rw [← heq]
        split
        · exact Task.cancel_of_ne hstate
        · rfl
      exact absurd (hsame ▸ hwaiting) hstate

end Tasks

/-- The job is as before when its tasks and its place in the queue are. -/
theorem JobOk.mono {m : Machine C J R} {tasks tasks' : List (Task R)} {jobQueue jobQueue' : List Nat}
    {i : Nat} {j : Job J} (h : JobOk m tasks jobQueue i j)
    (howns : ∀ t, Owns tasks i t → Owns tasks' i t) (hqueue : i ∈ jobQueue → i ∈ jobQueue') :
    JobOk m tasks' jobQueue' i j := by
  unfold JobOk at *
  split at h
  · exact ⟨h.1, h.2.1, fun t ht => howns t (h.2.2 t ht)⟩
  · exact ⟨h.1, h.2.1, fun t ht => howns t (h.2.2.1 t ht), hqueue h.2.2.2⟩
  · exact ⟨h.1, h.2.1, fun t ht => howns t (h.2.2 t ht)⟩
  · exact h

namespace World

/-- What the tasks a job submits change: they wait behind the others. -/
structure Submitted (owner : Option Nat) (n : Nat) (w w' : World ρ J R) : Prop where
  tasks : w'.tasks = w.tasks ++ List.replicate n ⟨owner, .waiting⟩
  entries : w'.queue.entries.length = w.queue.entries.length + n
  jobs : w'.jobs = w.jobs

theorem submitted (owner : Option Nat) (rank : ρ) (n : Nat) (w : World ρ J R) :
    Submitted owner n w (submitTasks owner rank n w) := by
  induction n generalizing w with
  | zero => exact ⟨(List.append_nil _).symm, rfl, rfl⟩
  | succ n ih =>
    have h := ih (w.submitTask owner rank)
    refine ⟨?_, ?_, h.jobs⟩
    · refine h.tasks.trans ?_
      show (w.tasks ++ [_]) ++ _ = _
      rw [List.append_assoc, List.replicate_succ, List.singleton_append]
    · refine h.entries.trans ?_
      show (w.queue.entries ++ [_]).length + n = _
      rw [List.length_append, List.length_singleton]
      omega

end World

/-- The new tasks of a job are its own. -/
theorem owns_new {tasks : List (Task R)} {i n t : Nat} (ht : t ∈ List.range' tasks.length n) :
    Owns (tasks ++ List.replicate n ⟨some i, .waiting⟩) i t := by
  obtain ⟨hle, hlt⟩ := List.mem_range'_1.mp ht
  refine ⟨⟨some i, .waiting⟩, ?_, rfl, fun heq => by cases heq⟩
  rw [List.getElem?_append_right hle, List.getElem?_replicate, if_pos (by omega)]

namespace Inv

variable {m : Machine C J R} {c : Config ρ} {w w' : World ρ J R} {i : Nat} {j : Job J}

theorem init (m : Machine C J R) : Inv m (World.init : World ρ J R) := by
  refine ⟨⟨Queue.ok_empty, List.nodup_nil, ?_, ?_⟩, ?_, ?_, List.nodup_nil⟩
  · exact fun e he => absurd he List.not_mem_nil
  · intro t task ht
    rw [World.init, List.getElem?_nil] at ht
    cases ht
  · intro i j hj
    rw [World.init, List.getElem?_nil] at hj
    cases hj
  · exact fun i hi => absurd hi List.not_mem_nil

/-- The jobs that are queued are those whose place is in the queue. -/
theorem jobQueue_set (h : Inv m w) (hnot : i ∉ w.jobQueue) (new : Job J) :
    ∀ i' ∈ w.jobQueue, ∃ j, (w.jobs.set i new)[i']? = some j ∧ j.pc = .queued := by
  intro i' hi'
  have hne : i ≠ i' := fun heq => hnot (heq ▸ hi')
  rw [List.getElem?_set_ne hne]
  exact h.jobQueue i' hi'

theorem not_mem_jobQueue (h : Inv m w) (hj : w.jobs[i]? = some j) (hpc : j.pc ≠ .queued) :
    i ∉ w.jobQueue := by
  intro hi
  obtain ⟨j', hj', hqueued⟩ := h.jobQueue i hi
  rw [hj] at hj'
  cases hj'
  exact hpc hqueued

/-- One job changes and the others keep their tasks. -/
theorem jobs_set {tasks' : List (Task R)} {jobQueue' : List Nat} (h : Inv m w) {new : Job J}
    (hj : w.jobs[i]? = some j) (hnew : JobOk m tasks' jobQueue' i new)
    (howns : ∀ i' t, i' ≠ i → Owns w.tasks i' t → Owns tasks' i' t)
    (hqueue : ∀ i', i' ≠ i → i' ∈ w.jobQueue → i' ∈ jobQueue') :
    ∀ i' j', (w.jobs.set i new)[i']? = some j' → JobOk m tasks' jobQueue' i' j' := by
  intro i' j' hj'
  by_cases heq : i = i'
  · subst heq
    have hlt : i < w.jobs.length := (List.getElem?_eq_some_iff.mp hj).1
    rw [List.getElem?_set_self hlt] at hj'
    cases hj'
    exact hnew
  · rw [List.getElem?_set_ne heq] at hj'
    have hne : i' ≠ i := fun hi => heq hi.symm
    exact (h.jobs i' j' hj').mono (fun t => howns i' t hne) (hqueue i' hne)

theorem call (h : Inv m w) (hm : m.Lawful) (call : C) :
    Inv m { w with jobs := w.jobs ++ [⟨.submitting (m.waits (m.start call)), m.start call, []⟩] } := by
  refine ⟨h.tasks, ?_, ?_, h.nodup⟩
  · intro i j hj
    by_cases heq : i = w.jobs.length
    · subst heq
      rw [List.getElem?_concat_length] at hj
      cases hj
      exact ⟨hm.start_ok call, Nat.zero_add _, fun t ht => absurd ht List.not_mem_nil⟩
    · have hlt : i < w.jobs.length := by
        have hle := (List.getElem?_eq_some_iff.mp hj).1
        rw [List.length_append, List.length_singleton] at hle
        omega
      rw [List.getElem?_append_left hlt] at hj
      exact h.jobs i j hj
  · intro i hi
    obtain ⟨j, hj, hpc⟩ := h.jobQueue i hi
    have hlt : i < w.jobs.length := (List.getElem?_eq_some_iff.mp hj).1
    exact ⟨j, (List.getElem?_append_left hlt).trans hj, hpc⟩

theorem submitTask (h : Inv m w) (owner : Option Nat) (rank : ρ) : Inv m (w.submitTask owner rank) :=
  ⟨h.tasks.put owner rank, fun i j hj => (h.jobs i j hj).mono (fun _ ht => ht.append _) id,
    h.jobQueue, h.nodup⟩

theorem submit (h : Inv m w) (hj : w.jobs[i]? = some j) (hstep : w.submitStep c i j = some w') :
    Inv m w' := by
  have hjob := h.jobs i j hj
  unfold World.submitStep at hstep
  split at hstep
  · rename_i left hpc
    cases hstep
    unfold JobOk at hjob
    simp only [hpc] at hjob
    obtain ⟨hfailed, hlength, howns⟩ := hjob
    have hnot : i ∉ w.jobQueue := h.not_mem_jobQueue hj (by rw [hpc]; intro heq; cases heq)
    refine ⟨h.tasks.put (some i) c.firstRank, ?_, h.jobQueue_set hnot _, h.nodup⟩
    refine h.jobs_set hj ?_ (fun _ _ _ ht => ht.append _) fun _ _ hi => hi
    refine ⟨hfailed, ?_, fun t ht => ?_⟩
    · show (j.tasks ++ [w.tasks.length]).length + left = m.waits j.state
      rw [List.length_append, List.length_singleton]
      omega
    · rcases List.mem_append.mp ht with ht | ht
      · exact (howns t ht).append _
      · rw [List.mem_singleton.mp ht]
        exact ⟨_, List.getElem?_concat_length, rfl, fun heq => by cases heq⟩
  · rename_i hpc
    cases hstep
    unfold JobOk at hjob
    simp only [hpc] at hjob
    obtain ⟨hfailed, hlength, howns⟩ := hjob
    have hnot : i ∉ w.jobQueue := h.not_mem_jobQueue hj (by rw [hpc]; intro heq; cases heq)
    refine ⟨h.tasks, ?_, ?_, ?_⟩
    · refine h.jobs_set hj ?_ (fun _ _ _ ht => ht) fun _ _ hi => List.mem_append_left _ hi
      exact ⟨hfailed, hlength, howns, List.mem_append_right _ (List.mem_singleton_self i)⟩
    · intro i' hi'
      rcases List.mem_append.mp hi' with hi' | hi'
      · exact h.jobQueue_set hnot _ i' hi'
      · rw [List.mem_singleton.mp hi']
        have hlt : i < w.jobs.length := (List.getElem?_eq_some_iff.mp hj).1
        exact ⟨_, List.getElem?_set_self hlt, rfl⟩
    · refine List.nodup_append.mpr ⟨h.nodup, List.nodup_singleton i, fun i' hi' i'' hlast => ?_⟩
      rw [List.mem_singleton.mp hlast]
      exact fun heq => hnot (heq ▸ hi')
  · cases hstep

theorem takeTask [LinearOrder ρ] (h : Inv m w) {e : Ranked ρ Nat} {queue : Queue ρ Nat}
    (hget : w.queue.get = some (e, queue)) {task : Task R} (htask : w.tasks[e.item]? = some task) :
    Inv m { w with queue := queue, tasks := w.tasks.set e.item task.begin } := by
  have hstate : task.state ≠ .cancelled → task.begin.state ≠ .cancelled := by
    intro hne heq
    unfold Task.begin at heq
    split at heq
    · cases heq
    · exact hne heq
  refine ⟨h.tasks.take hget htask, fun i j hj => ?_, h.jobQueue, h.nodup⟩
  exact (h.jobs i j hj).mono (fun t ht => ht.set htask task.owner_begin hstate) id

theorem finish (h : Inv m w) {t : Nat} {owner : Option Nat}
    (ht : w.tasks[t]? = some ⟨owner, .running⟩) (result : R) :
    Inv m { w with tasks := w.tasks.set t ⟨owner, .done result⟩ } := by
  refine ⟨h.tasks.finish ht result, fun i j hj => ?_, h.jobQueue, h.nodup⟩
  exact (h.jobs i j hj).mono (fun t' ht' => ht'.set ht rfl fun _ heq => by cases heq) id

theorem takeJob (h : Inv m w) {rest : List Nat} (hqueue : w.jobQueue = i :: rest)
    (hj : w.jobs[i]? = some j) :
    Inv m { w.setJob i { j with pc := .running } with jobQueue := rest } := by
  have hnodup := h.nodup
  rw [hqueue] at hnodup
  obtain ⟨hnot, hrest⟩ := List.nodup_cons.mp hnodup
  obtain ⟨j', hj', hpc⟩ := h.jobQueue i (hqueue ▸ List.mem_cons_self)
  rw [hj] at hj'
  cases hj'
  have hjob := h.jobs i j hj
  unfold JobOk at hjob
  simp only [hpc] at hjob
  obtain ⟨hfailed, hlength, howns, -⟩ := hjob
  refine ⟨h.tasks, ?_, ?_, hrest⟩
  · refine h.jobs_set hj ⟨hfailed, hlength, howns⟩ (fun _ _ _ ht => ht) fun i' hne hi' => ?_
    rw [hqueue] at hi'
    exact (List.mem_cons.mp hi').resolve_left hne
  · intro i' hi'
    have hne : i ≠ i' := fun heq => hnot (heq ▸ hi')
    obtain ⟨j', hj', hqueued⟩ := h.jobQueue i' (hqueue ▸ List.mem_cons_of_mem i hi')
    exact ⟨j', (List.getElem?_set_ne hne).trans hj', hqueued⟩

theorem submitTasks (h : Inv m w) (owner : Option Nat) (rank : ρ) (n : Nat) :
    Inv m (World.submitTasks owner rank n w) := by
  induction n generalizing w with
  | zero => exact h
  | succ n ih => exact ih (h.submitTask owner rank)

/-- A job that runs goes on with tasks of its own. -/
theorem goOn (h : Inv m w) (hj : w.jobs[i]? = some j) (hpc : j.pc = .running) {state : J}
    {ts : List Nat} (hmine : ∀ t ∈ ts, Owns w.tasks i t) (hok : m.failed state = false)
    (hlength : ts.length = m.waits state) : Inv m (w.setJob i ⟨.running, state, ts⟩) := by
  have hnot : i ∉ w.jobQueue := h.not_mem_jobQueue hj (by rw [hpc]; intro heq; cases heq)
  refine ⟨h.tasks, ?_, h.jobQueue_set hnot _, h.nodup⟩
  exact h.jobs_set hj ⟨hok, hlength, hmine⟩ (fun _ _ _ ht => ht) fun _ _ hi => hi

/-- A job that fails cancels its own tasks and nobody else's. -/
theorem fail (h : Inv m w) (hj : w.jobs[i]? = some j) (hpc : j.pc = .running) {state : J}
    {ts : List Nat} (hmine : ∀ t ∈ ts, Owns w.tasks i t) (hfailed : m.failed state = true) :
    Inv m ((w.cancelTasks ts).setJob i ⟨.ended, state, ts⟩) := by
  have hnot : i ∉ w.jobQueue := h.not_mem_jobQueue hj (by rw [hpc]; intro heq; cases heq)
  refine ⟨h.tasks.cancel ts, ?_, h.jobQueue_set hnot _, h.nodup⟩
  refine h.jobs_set hj (Or.inl hfailed) (fun i' t hne ht => ?_) fun _ _ hi => hi
  exact ht.cancel fun hmem => hne (ht.unique (hmine t hmem))

theorem turn (h : Inv m w) (hm : m.Lawful) (hj : w.jobs[i]? = some j) (hpc : j.pc = .running)
    {k : Nat} (hk : k < j.tasks.length) (r : R) : Inv m (w.turnStep m c i k j r) := by
  have hjob := h.jobs i j hj
  unfold JobOk at hjob
  simp only [hpc] at hjob
  obtain ⟨hfailed, hlength, howns⟩ := hjob
  have hsubmitted := World.submitted (some i) c.nextRank (m.turn j.state k r).2 w
  have hinv : Inv m (World.submitTasks (some i) c.nextRank (m.turn j.state k r).2 w) :=
    h.submitTasks (some i) c.nextRank _
  have hj' : (World.submitTasks (some i) c.nextRank (m.turn j.state k r).2 w).jobs[i]? = some j := by
    rw [hsubmitted.jobs]
    exact hj
  have hmine : ∀ t ∈ j.tasks.eraseIdx k ++ List.range' w.tasks.length (m.turn j.state k r).2,
      Owns (World.submitTasks (some i) c.nextRank (m.turn j.state k r).2 w).tasks i t := by
    intro t ht
    rw [hsubmitted.tasks]
    rcases List.mem_append.mp ht with ht | ht
    · exact (howns t (List.mem_of_mem_eraseIdx ht)).append _
    · exact owns_new ht
  unfold World.turnStep
  by_cases hfails : m.failed (m.turn j.state k r).1 = true
  · rw [if_pos hfails]
    exact hinv.fail hj' hpc hmine hfails
  · rw [if_neg hfails]
    have hok := Bool.eq_false_iff.mpr hfails
    have hwaits := hm.waits_turn j.state k r hfailed (hlength ▸ hk) hok
    refine hinv.goOn hj' hpc hmine hok ?_
    rw [List.length_append, List.length_eraseIdx_of_lt hk, List.length_range']
    omega

theorem complete (h : Inv m w) {state : J} (hj : w.jobs[i]? = some ⟨.running, state, []⟩) :
    Inv m (w.setJob i ⟨.ended, state, []⟩) := by
  obtain ⟨-, hlength, -⟩ : JobOk m w.tasks w.jobQueue i ⟨.running, state, []⟩ := h.jobs i _ hj
  have hnot : i ∉ w.jobQueue := h.not_mem_jobQueue hj fun heq => by cases heq
  refine ⟨h.tasks, ?_, h.jobQueue_set hnot _, h.nodup⟩
  exact h.jobs_set hj (Or.inr hlength.symm) (fun _ _ _ ht => ht) fun _ _ hi => hi

variable [LinearOrder ρ]

theorem step (h : Inv m w) (hm : m.Lawful) {a : Action C R} (hstep : w.step m c a = some w') :
    Inv m w' := by
  cases a with
  | call call =>
    cases hstep
    exact h.call hm call
  | post =>
    cases hstep
    exact h.submitTask none c.postRank
  | submit i =>
    obtain ⟨j, hj, hsubmit⟩ := Option.bind_eq_some_iff.mp hstep
    exact h.submit hj hsubmit
  | takeTask =>
    rw [World.step] at hstep
    split at hstep
    · obtain ⟨⟨e, queue⟩, hget, hmap⟩ := Option.bind_eq_some_iff.mp hstep
      obtain ⟨task, htask, rfl⟩ := Option.map_eq_some_iff.mp hmap
      exact h.takeTask hget htask
    · cases hstep
  | again t =>
    rw [World.step_again hstep]
    exact h
  | finish t result =>
    rw [World.step] at hstep
    split at hstep
    · rename_i owner ht
      cases hstep
      exact h.finish ht result
    · cases hstep
  | takeJob =>
    rw [World.step] at hstep
    split at hstep
    · cases hstep
    · rename_i i rest hqueue
      split at hstep
      · obtain ⟨j, hj, rfl⟩ := Option.map_eq_some_iff.mp hstep
        exact h.takeJob hqueue hj
      · cases hstep
  | turn i k =>
    obtain ⟨j, hj, hbind⟩ := Option.bind_eq_some_iff.mp hstep
    obtain ⟨t, ht, hturn⟩ := Option.bind_eq_some_iff.mp hbind
    split at hturn
    · rename_i result hpc hdone
      cases hturn
      exact h.turn hm hj hpc (List.getElem?_eq_some_iff.mp ht).1 result
    · cases hturn
  | complete i =>
    rw [World.step] at hstep
    split at hstep
    · rename_i state hj
      cases hstep
      exact h.complete hj
    · cases hstep

/-- A job comes by its turns to where it is. -/
theorem reached (h : Inv m w) (hreached : ∀ j ∈ w.jobs, m.Reached j.state) {a : Action C R}
    (hstep : w.step m c a = some w') : ∀ j ∈ w'.jobs, m.Reached j.state := by
  have hset : ∀ {i : Nat} {new : Job J}, m.Reached new.state →
      ∀ j ∈ w.jobs.set i new, m.Reached j.state := by
    intro i new hnew j hj
    rcases List.mem_or_eq_of_mem_set hj with hj | rfl
    · exact hreached j hj
    · exact hnew
  cases a with
  | call call =>
    cases hstep
    intro j hj
    rcases List.mem_append.mp hj with hj | hj
    · exact hreached j hj
    · rw [List.mem_singleton.mp hj]
      exact .start call
  | post =>
    cases hstep
    exact hreached
  | submit i =>
    obtain ⟨j, hj, hsubmit⟩ := Option.bind_eq_some_iff.mp hstep
    have hold : m.Reached j.state := hreached j (List.mem_of_getElem? hj)
    unfold World.submitStep at hsubmit
    split at hsubmit
    · cases hsubmit
      exact hset hold
    · cases hsubmit
      exact hset hold
    · cases hsubmit
  | takeTask =>
    rw [World.step] at hstep
    split at hstep
    · obtain ⟨taken, -, hmap⟩ := Option.bind_eq_some_iff.mp hstep
      obtain ⟨task, -, rfl⟩ := Option.map_eq_some_iff.mp hmap
      exact hreached
    · cases hstep
  | again t =>
    rw [World.step_again hstep]
    exact hreached
  | finish t result =>
    rw [World.step] at hstep
    split at hstep
    · cases hstep
      exact hreached
    · cases hstep
  | takeJob =>
    rw [World.step] at hstep
    split at hstep
    · cases hstep
    · split at hstep
      · obtain ⟨j, hj, rfl⟩ := Option.map_eq_some_iff.mp hstep
        exact hset (hreached j (List.mem_of_getElem? hj))
      · cases hstep
  | turn i k =>
    obtain ⟨j, hj, hbind⟩ := Option.bind_eq_some_iff.mp hstep
    obtain ⟨t, ht, hturn⟩ := Option.bind_eq_some_iff.mp hbind
    split at hturn
    · rename_i result hpc hdone
      cases hturn
      have hjob := h.jobs i j hj
      unfold JobOk at hjob
      simp only [hpc] at hjob
      have hk : k < m.waits j.state := hjob.2.1 ▸ (List.getElem?_eq_some_iff.mp ht).1
      have hnew : m.Reached (m.turn j.state k result).1 :=
        .turn result (hreached j (List.mem_of_getElem? hj)) hjob.1 hk
      have hjobs := (World.submitted (some i) c.nextRank (m.turn j.state k result).2 w).jobs
      unfold World.turnStep
      by_cases hfails : m.failed (m.turn j.state k result).1 = true
      · rw [if_pos hfails]
        show ∀ j' ∈ (World.submitTasks (some i) c.nextRank _ w).jobs.set i _, m.Reached j'.state
        rw [hjobs]
        exact hset hnew
      · rw [if_neg hfails]
        show ∀ j' ∈ (World.submitTasks (some i) c.nextRank _ w).jobs.set i _, m.Reached j'.state
        rw [hjobs]
        exact hset hnew
    · cases hturn
  | complete i =>
    rw [World.step] at hstep
    split at hstep
    · rename_i state hj
      cases hstep
      exact hset (hreached ⟨.running, state, []⟩ (List.mem_of_getElem? hj))
    · cases hstep

end Inv

end Invariant

/-! ## Nobody waits for ever -/

section Progress

variable {ρ C J R : Type} {m : Machine C J R} {c : Config ρ} {w : World ρ J R}

theorem tasksRunning_eq_zero (h : ∀ t ∈ w.tasks, t.state ≠ .running) : w.tasksRunning = 0 := by
  refine List.countP_eq_zero.mpr fun t ht hrunning => ?_
  unfold Task.isRunning at hrunning
  split at hrunning
  · rename_i heq
    exact h t ht heq
  · cases hrunning

theorem jobsRunning_eq_zero (h : ∀ j ∈ w.jobs, j.pc ≠ .running) : w.jobsRunning = 0 := by
  refine List.countP_eq_zero.mpr fun j hj hrunning => ?_
  unfold Job.isRunning at hrunning
  split at hrunning
  · rename_i heq
    exact h j hj heq
  · cases hrunning

theorem task_of_stuck (h : Inv m w) (hentries : w.queue.entries = [])
    (hrunning : ∀ t ∈ w.tasks, t.state ≠ .running) :
    ∀ t ∈ w.tasks, t.state = .cancelled ∨ ∃ r, t.state = .done r := by
  intro task hmem
  obtain ⟨t, ht⟩ := List.mem_iff_getElem?.mp hmem
  cases hstate : task.state with
  | waiting =>
    obtain ⟨e, he, -⟩ := h.tasks.waiting t task ht hstate
    rw [hentries] at he
    cases he
  | cancelled => exact Or.inl rfl
  | running => exact absurd hstate (hrunning task hmem)
  | done r => exact Or.inr ⟨r, rfl⟩

variable [LinearOrder ρ]

/-- A task that runs comes to its end. -/
theorem not_running_of_stuck [Nonempty R] (hstuck : w.Stuck m c) :
    ∀ t ∈ w.tasks, t.state ≠ .running := by
  rintro ⟨owner, state⟩ hmem rfl
  obtain ⟨t, ht⟩ := List.mem_iff_getElem?.mp hmem
  obtain ⟨result⟩ := ‹Nonempty R›
  have hnone := hstuck (.finish t result) trivial
  rw [World.step, ht] at hnone
  cases hnone

theorem entries_of_stuck (h : Inv m w) (hworkers : 0 < c.taskWorkers) (hstuck : w.Stuck m c)
    (hrunning : ∀ t ∈ w.tasks, t.state ≠ .running) : w.queue.entries = [] := by
  by_contra hne
  cases hget : w.queue.get with
  | none => exact hne (Queue.get_eq_none.mp hget)
  | some taken =>
    obtain ⟨e, queue⟩ := taken
    obtain ⟨hperm, -⟩ := Queue.get_spec h.tasks.ok hget
    obtain ⟨task, htask, -⟩ := h.tasks.entries e (hperm.mem_iff.mpr List.mem_cons_self)
    have hnone := hstuck .takeTask trivial
    rw [World.step, tasksRunning_eq_zero hrunning, if_pos hworkers, hget, Option.bind_some] at hnone
    change (w.tasks[e.item]?).map _ = none at hnone
    rw [htask] at hnone
    cases hnone

/-- A job that runs takes a turn, or has nothing left to wait for. -/
theorem job_not_running_of_stuck (h : Inv m w) (hstuck : w.Stuck m c)
    (htasks : ∀ t ∈ w.tasks, t.state = .cancelled ∨ ∃ r, t.state = .done r) :
    ∀ j ∈ w.jobs, j.pc ≠ .running := by
  rintro ⟨pc, state, ts⟩ hmem rfl
  obtain ⟨i, hi⟩ := List.mem_iff_getElem?.mp hmem
  obtain ⟨-, -, howns⟩ : JobOk m w.tasks w.jobQueue i ⟨.running, state, ts⟩ := h.jobs i _ hi
  cases ts with
  | nil =>
    have hnone := hstuck (.complete i) trivial
    rw [World.step, hi] at hnone
    cases hnone
  | cons t ts =>
    obtain ⟨⟨owner, taskState⟩, ht, -, hnot⟩ := howns t List.mem_cons_self
    obtain ⟨r, rfl⟩ : ∃ r, taskState = .done r :=
      (htasks _ (List.mem_of_getElem? ht)).resolve_left hnot
    have hnone := hstuck (.turn i 0) trivial
    simp only [World.step, hi, Option.bind_some, List.getElem?_cons_zero, ht] at hnone
    cases hnone

theorem jobQueue_of_stuck (h : Inv m w) (hworkers : 0 < c.jobWorkers) (hstuck : w.Stuck m c)
    (hrunning : ∀ j ∈ w.jobs, j.pc ≠ .running) : w.jobQueue = [] := by
  cases hqueue : w.jobQueue with
  | nil => rfl
  | cons i rest =>
    obtain ⟨j, hj, -⟩ := h.jobQueue i (hqueue ▸ List.mem_cons_self)
    have hnone := hstuck .takeJob trivial
    simp only [World.step, hqueue, jobsRunning_eq_zero hrunning, if_pos hworkers, hj,
      Option.map_some] at hnone
    cases hnone

/-- Where nobody can go on, all is done. -/
theorem Inv.atRest [Nonempty R] (h : Inv m w) (htaskWorkers : 0 < c.taskWorkers)
    (hjobWorkers : 0 < c.jobWorkers) (hstuck : w.Stuck m c) : w.AtRest m := by
  have hrunning := not_running_of_stuck hstuck
  have hentries := entries_of_stuck h htaskWorkers hstuck hrunning
  have htasks := task_of_stuck h hentries hrunning
  have hjobs := job_not_running_of_stuck h hstuck htasks
  have hqueue := jobQueue_of_stuck h hjobWorkers hstuck hjobs
  refine ⟨fun j hmem => ?_, htasks, hentries, hqueue⟩
  obtain ⟨i, hi⟩ := List.mem_iff_getElem?.mp hmem
  have hjob := h.jobs i j hi
  unfold JobOk at hjob
  split at hjob
  · rename_i left hpc
    have hnone := hstuck (.submit i) trivial
    rw [World.step, hi, Option.bind_some, World.submitStep] at hnone
    cases left with
    | zero => simp only [hpc] at hnone; cases hnone
    | succ left => simp only [hpc] at hnone; cases hnone
  · have hmem' := hjob.2.2.2
    rw [hqueue] at hmem'
    cases hmem'
  · rename_i hpc
    exact absurd hpc (hjobs j hmem)
  · rename_i hpc
    exact ⟨hpc, hjob⟩

end Progress

/-! ## There is an end -/

section Bound

variable {ρ C J R : Type} {m : Machine C J R} {c : Config ρ} {w w' : World ρ J R}

/-- A turn uses up more than it submits. -/
def Machine.Spends (m : Machine C J R) (left : J → Nat) (advances : J → Nat → R → Prop) : Prop :=
  ∀ j k r, m.failed j = false → k < m.waits j → advances j k r →
    (m.turn j k r).2 + left (m.turn j k r).1 < left j

/-- The steps a job still brings about. -/
def jobWork (left : J → Nat) (j : Job J) : Nat :=
  match j.pc with
  | .submitting n => 3 * n + 5 + 2 * left j.state
  | .queued => 4 + 2 * left j.state
  | .running => 2 + 2 * left j.state
  | .ended => 0

def taskWork (t : Task R) : Nat :=
  match t.state with
  | .running => 1
  | _ => 0

/-- The steps that are still to come when nobody comes from outside. -/
def World.work (left : J → Nat) (w : World ρ J R) : Nat :=
  totalWeight (jobWork left) w.jobs + 2 * w.queue.entries.length + totalWeight taskWork w.tasks

/-- The turns of the jobs use something up. -/
def World.Advances (advances : J → Nat → R → Prop) (w : World ρ J R) : Action C R → Prop
  | .turn i k => ∀ j t owner r, w.jobs[i]? = some j → j.tasks[k]? = some t →
      w.tasks[t]? = some ⟨owner, .done r⟩ → advances j.state k r
  | _ => True

theorem totalWeight_cancel (tasks : List (Task R)) (ts : List Nat) :
    totalWeight taskWork (tasks.mapIdx fun t task => if t ∈ ts then task.cancel else task) =
      totalWeight taskWork tasks := by
  have hcancel : ∀ task : Task R, taskWork task.cancel = taskWork task := by
    intro task
    unfold Task.cancel
    split
    · rename_i heq
      unfold taskWork
      rw [heq]
    · rfl
  unfold totalWeight
  congr 1
  refine List.ext_getElem? fun t => ?_
  rw [List.getElem?_map, List.getElem?_map, List.getElem?_mapIdx, Option.map_map]
  congr 1
  funext task
  show taskWork (if t ∈ ts then task.cancel else task) = taskWork task
  split
  · exact hcancel task
  · rfl

theorem World.work_submitTasks (left : J → Nat) (owner : Option Nat) (rank : ρ) (n : Nat)
    (w : World ρ J R) : (submitTasks owner rank n w).work left = w.work left + 2 * n := by
  obtain ⟨htasks, hentries, hjobs⟩ := submitted owner rank n w
  have hnew : totalWeight taskWork (List.replicate n (⟨owner, .waiting⟩ : Task R)) = 0 := by
    unfold totalWeight
    rw [List.map_replicate]
    exact (List.sum_replicate n _).trans (Nat.mul_zero n)
  unfold work
  rw [hjobs, htasks, hentries, totalWeight_append, hnew]
  omega

section Steps

variable {left : J → Nat} {i : Nat} {j : Job J}

theorem World.work_setJob (left : J → Nat) (hj : w.jobs[i]? = some j) (new : Job J) :
    (w.setJob i new).work left + jobWork left j = w.work left + jobWork left new := by
  have hset := totalWeight_set (jobWork left) hj new
  unfold work setJob
  dsimp only
  omega

theorem World.work_turnStep {advances : J → Nat → R → Prop} (hm : m.Spends left advances)
    (hj : w.jobs[i]? = some j) (hpc : j.pc = .running) (hok : m.failed j.state = false) {k : Nat}
    (hk : k < m.waits j.state) {r : R} (hadvances : advances j.state k r) :
    (w.turnStep m c i k j r).work left < w.work left := by
  have hspends := hm j.state k r hok hk hadvances
  have hsubmitted := World.submitted (some i) c.nextRank (m.turn j.state k r).2 w
  have hwork := w.work_submitTasks left (some i) c.nextRank (m.turn j.state k r).2
  have hj' : (submitTasks (some i) c.nextRank (m.turn j.state k r).2 w).jobs[i]? = some j := by
    rw [hsubmitted.jobs]
    exact hj
  have hold : jobWork left j = 2 + 2 * left j.state := by
    unfold jobWork
    rw [hpc]
  unfold turnStep
  by_cases hfails : m.failed (m.turn j.state k r).1 = true
  · rw [if_pos hfails]
    generalize hts : j.tasks.eraseIdx k ++ List.range' w.tasks.length (m.turn j.state k r).2 = ts
    have hcancel : ((submitTasks (some i) c.nextRank (m.turn j.state k r).2 w).cancelTasks ts).work
        left = (submitTasks (some i) c.nextRank (m.turn j.state k r).2 w).work left :=
      congrArg (_ + ·) (totalWeight_cancel _ ts)
    have hset := work_setJob left
      (w := (submitTasks (some i) c.nextRank (m.turn j.state k r).2 w).cancelTasks ts) hj'
      ⟨.ended, (m.turn j.state k r).1, ts⟩
    have hnew : jobWork left (⟨.ended, (m.turn j.state k r).1, ts⟩ : Job J) = 0 := rfl
    omega
  · rw [if_neg hfails]
    generalize hts : j.tasks.eraseIdx k ++ List.range' w.tasks.length (m.turn j.state k r).2 = ts
    have hset := work_setJob left hj' ⟨.running, (m.turn j.state k r).1, ts⟩
    have hnew : jobWork left (⟨.running, (m.turn j.state k r).1, ts⟩ : Job J) =
        2 + 2 * left (m.turn j.state k r).1 := rfl
    omega

/-- Every step of the pools uses something up, but for a task that begins again. -/
theorem work_lt [LinearOrder ρ] {advances : J → Nat → R → Prop} (hm : m.Spends left advances)
    (h : Inv m w) {a : Action C R} (ha : a.Internal) (hagain : a.isAgain = false)
    (hadvances : w.Advances advances a) (hstep : w.step m c a = some w') :
    w'.work left < w.work left := by
  cases a with
  | call call => exact ha.elim
  | post => exact ha.elim
  | again t => cases hagain
  | submit i =>
    obtain ⟨j, hj, hsubmit⟩ := Option.bind_eq_some_iff.mp hstep
    unfold World.submitStep at hsubmit
    split at hsubmit
    · rename_i n hpc
      cases hsubmit
      have hwork := w.work_submitTasks left (some i) c.firstRank 1
      have hset := World.work_setJob left (w := w.submitTask (some i) c.firstRank) hj
        ⟨.submitting n, j.state, j.tasks ++ [w.tasks.length]⟩
      have hold : jobWork left j = 3 * (n + 1) + 5 + 2 * left j.state := by
        unfold jobWork
        rw [hpc]
      have hnew : jobWork left (⟨.submitting n, j.state, j.tasks ++ [w.tasks.length]⟩ : Job J) =
          3 * n + 5 + 2 * left j.state := rfl
      have hone : (World.submitTasks (some i) c.firstRank 1 w).work left =
          (w.submitTask (some i) c.firstRank).work left := rfl
      omega
    · rename_i hpc
      cases hsubmit
      have hset := World.work_setJob left hj { j with pc := .queued }
      have hold : jobWork left j = 5 + 2 * left j.state := by
        unfold jobWork
        rw [hpc]
      have hnew : jobWork left { j with pc := .queued } = 4 + 2 * left j.state := rfl
      show (w.setJob i { j with pc := .queued }).work left < w.work left
      omega
    · cases hsubmit
  | takeTask =>
    rw [World.step] at hstep
    split at hstep
    · obtain ⟨⟨e, queue⟩, hget, hmap⟩ := Option.bind_eq_some_iff.mp hstep
      obtain ⟨task, htask, rfl⟩ := Option.map_eq_some_iff.mp hmap
      have hlength := (Queue.get_spec h.tasks.ok hget).1.length_eq
      have hset := totalWeight_set taskWork (i := e.item) htask task.begin
      have hone : taskWork task.begin ≤ 1 := by
        unfold taskWork
        split
        · exact Nat.le_refl 1
        · exact Nat.zero_le 1
      rw [List.length_cons] at hlength
      show totalWeight (jobWork left) w.jobs + 2 * queue.entries.length +
        totalWeight taskWork (w.tasks.set e.item task.begin) < w.work left
      unfold World.work
      omega
    · cases hstep
  | finish t result =>
    rw [World.step] at hstep
    split at hstep
    · rename_i owner ht
      cases hstep
      have hset := totalWeight_set taskWork ht ⟨owner, .done result⟩
      have hold : taskWork (⟨owner, .running⟩ : Task R) = 1 := rfl
      have hnew : taskWork (⟨owner, .done result⟩ : Task R) = 0 := rfl
      unfold World.work
      dsimp only
      omega
    · cases hstep
  | takeJob =>
    rw [World.step] at hstep
    split at hstep
    · cases hstep
    · rename_i i rest hqueue
      split at hstep
      · obtain ⟨j, hj, rfl⟩ := Option.map_eq_some_iff.mp hstep
        obtain ⟨j', hj', hpc⟩ := h.jobQueue i (hqueue ▸ List.mem_cons_self)
        rw [hj] at hj'
        cases hj'
        have hset := World.work_setJob left hj { j with pc := .running }
        have hold : jobWork left j = 4 + 2 * left j.state := by
          unfold jobWork
          rw [hpc]
        have hnew : jobWork left { j with pc := .running } = 2 + 2 * left j.state := rfl
        show (w.setJob i { j with pc := .running }).work left < w.work left
        omega
      · cases hstep
  | turn i k =>
    obtain ⟨j, hj, hbind⟩ := Option.bind_eq_some_iff.mp hstep
    obtain ⟨t, ht, hturn⟩ := Option.bind_eq_some_iff.mp hbind
    split at hturn
    · rename_i owner result hpc hdone
      cases hturn
      have hjob := h.jobs i j hj
      unfold JobOk at hjob
      simp only [hpc] at hjob
      obtain ⟨hok, hlength, -⟩ := hjob
      have hk : k < m.waits j.state := hlength ▸ (List.getElem?_eq_some_iff.mp ht).1
      exact World.work_turnStep hm hj hpc hok hk (hadvances j t owner result hj ht hdone)
    · cases hturn
  | complete i =>
    rw [World.step] at hstep
    split at hstep
    · rename_i state hj
      cases hstep
      have hset := World.work_setJob left hj ⟨.ended, state, []⟩
      have hold : jobWork left (⟨.running, state, []⟩ : Job J) = 2 + 2 * left state := rfl
      have hnew : jobWork left (⟨.ended, state, []⟩ : Job J) = 0 := rfl
      omega
    · cases hstep

/-- In a run in which nobody comes from outside there are no more steps than work is left, but for the
tasks that begin again. -/
theorem countP_le_work [LinearOrder ρ] {advances : J → Nat → R → Prop} (hlawful : m.Lawful)
    (hm : m.Spends left advances) (h : Inv m w) {as : List (Action C R)}
    (has : EachStep (World.step m c) (fun w a => a.Internal ∧ w.Advances advances a) w as)
    (hrun : run (World.step m c) w as = some w') :
    as.countP (fun a => !a.isAgain) ≤ w.work left := by
  induction as generalizing w with
  | nil => exact Nat.zero_le _
  | cons a as ih =>
    obtain ⟨mid, hstep, hrest⟩ := run_cons_eq_some.mp hrun
    obtain ⟨⟨hinternal, hadvances⟩, hnext⟩ := eachStep_cons.mp has
    have hcount := ih (h.step hlawful hstep) (hnext mid hstep) hrest
    cases hagain : a.isAgain with
    | true =>
      cases a with
      | again t =>
        rw [World.step_again hstep] at hcount
        rwa [List.countP_cons_of_neg (by simp [hagain])]
      | _ => cases hagain
    | false =>
      have hless := work_lt hm h hinternal hagain hadvances hstep
      rw [List.countP_cons_of_pos (by simp [hagain])]
      omega

end Steps

end Bound

end RaftLsmt.Lib.TwoPools
