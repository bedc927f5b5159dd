import Mathlib.Data.List.Nodup
import Mathlib.Logic.Function.Basic

/-!
# Files and their owners

A directory is a partial function from paths to contents. An `Owner` has some paths for itself and
knows what it has put there. `Owned dir owners` says that the directory consists of the files of the
owners, no two of which share a path: `Owned.reserve` is a new owner with new paths, `Owned.write` is
an owner that writes one of its files, and `Owned.remove` an owner that takes its files away.
-/

set_option autoImplicit false

namespace RaftLsmt.Lib.FileOwners

universe u v

variable {Path : Type u} {Content : Type v}

/-- Paths, and the files that have been written under them. -/
structure Owner (Path : Type u) (Content : Type v) where
  paths : List Path
  file : Path → Option Content

/-- All paths that have an owner. -/
def pathsOf (owners : List (Owner Path Content)) : List Path := owners.flatMap Owner.paths

/-- The directory is made of the files of the owners. -/
structure Owned (dir : Path → Option Content) (owners : List (Owner Path Content)) : Prop where
  nodup : (pathsOf owners).Nodup
  file_eq : ∀ owner ∈ owners, ∀ p ∈ owner.paths, dir p = owner.file p
  none_of_not_mem : ∀ p, p ∉ pathsOf owners → dir p = none

theorem mem_pathsOf {owners : List (Owner Path Content)} {p : Path} :
    p ∈ pathsOf owners ↔ ∃ owner ∈ owners, p ∈ owner.paths :=
  List.mem_flatMap

@[simp]
theorem pathsOf_cons (owner : Owner Path Content) (owners : List (Owner Path Content)) :
    pathsOf (owner :: owners) = owner.paths ++ pathsOf owners :=
  List.flatMap_cons

theorem perm_pathsOf {owners owners' : List (Owner Path Content)} (h : owners.Perm owners') :
    (pathsOf owners).Perm (pathsOf owners') :=
  h.flatMap_right _

namespace Owned

variable {dir : Path → Option Content} {owner : Owner Path Content}
  {owners owners' : List (Owner Path Content)}

theorem nil : Owned (fun _ => none) ([] : List (Owner Path Content)) where
  nodup := List.nodup_nil
  file_eq _ howner := absurd howner List.not_mem_nil
  none_of_not_mem _ _ := rfl

theorem perm (h : Owned dir owners) (hperm : owners.Perm owners') : Owned dir owners' where
  nodup := (perm_pathsOf hperm).nodup_iff.mp h.nodup
  file_eq owner howner := h.file_eq owner (hperm.mem_iff.mpr howner)
  none_of_not_mem p hp := h.none_of_not_mem p fun hmem => hp ((perm_pathsOf hperm).subset hmem)

/-- What is found has an owner. -/
theorem mem_of_eq_some (h : Owned dir owners) {p : Path} {content : Content}
    (hp : dir p = some content) : p ∈ pathsOf owners := by
  by_contra hnot
  rw [h.none_of_not_mem p hnot] at hp
  cases hp

/-- No path of one owner is one of the others. -/
theorem not_mem_of_mem (h : Owned dir (owner :: owners)) {p : Path} (hp : p ∈ owner.paths) :
    p ∉ pathsOf owners := by
  have hnodup := h.nodup
  rw [pathsOf_cons, List.nodup_append] at hnodup
  exact fun hmem => hnodup.2.2 p hp p hmem rfl

/-- An owner that has written nothing yet joins with new paths. -/
theorem reserve (h : Owned dir owners) {paths : List Path} (hnodup : paths.Nodup)
    (hnew : ∀ p ∈ paths, p ∉ pathsOf owners) : Owned dir (⟨paths, fun _ => none⟩ :: owners) where
  nodup := by
    rw [pathsOf_cons, List.nodup_append]
    refine ⟨hnodup, h.nodup, ?_⟩
    rintro p hp q hq rfl
    exact hnew p hp hq
  file_eq owner howner p hp := by
    rcases List.mem_cons.mp howner with rfl | howner
    · exact h.none_of_not_mem p (hnew p hp)
    · exact h.file_eq owner howner p hp
  none_of_not_mem p hp := by
    rw [pathsOf_cons, List.mem_append, not_or] at hp
    exact h.none_of_not_mem p hp.2

/-- The first owner changes what is under its own paths, and nothing else. -/
theorem update (h : Owned dir (owner :: owners)) {dir' : Path → Option Content}
    {file' : Path → Option Content} (howner : ∀ p ∈ owner.paths, dir' p = file' p)
    (hother : ∀ p, p ∉ owner.paths → dir' p = dir p) :
    Owned dir' (⟨owner.paths, file'⟩ :: owners) where
  nodup := h.nodup
  file_eq o ho p hp := by
    rcases List.mem_cons.mp ho with rfl | ho
    · exact howner p hp
    · have hnot : p ∉ owner.paths := by
        intro hmem
        exact h.not_mem_of_mem hmem (mem_pathsOf.mpr ⟨o, ho, hp⟩)
      rw [hother p hnot]
      exact h.file_eq o (List.mem_cons_of_mem _ ho) p hp
  none_of_not_mem p hp := by
    have hnot : p ∉ owner.paths := by
      intro hmem
      exact hp (List.mem_append_left _ hmem)
    rw [hother p hnot]
    exact h.none_of_not_mem p hp

/-- The first owner leaves, and its files with it. -/
theorem remove (h : Owned dir (owner :: owners)) {dir' : Path → Option Content}
    (howner : ∀ p ∈ owner.paths, dir' p = none) (hother : ∀ p, p ∉ owner.paths → dir' p = dir p) :
    Owned dir' owners where
  nodup := by
    have hnodup := h.nodup
    rw [pathsOf_cons] at hnodup
    exact (List.nodup_append.mp hnodup).2.1
  file_eq o ho p hp := by
    have hnot : p ∉ owner.paths := by
      intro hmem
      exact h.not_mem_of_mem hmem (mem_pathsOf.mpr ⟨o, ho, hp⟩)
    rw [hother p hnot]
    exact h.file_eq o (List.mem_cons_of_mem _ ho) p hp
  none_of_not_mem p hp := by
    by_cases hmem : p ∈ owner.paths
    · exact howner p hmem
    · rw [hother p hmem]
      apply h.none_of_not_mem
      rw [pathsOf_cons, List.mem_append, not_or]
      exact ⟨hmem, hp⟩

end Owned

end RaftLsmt.Lib.FileOwners
