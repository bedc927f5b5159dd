import RaftLsmt.Lsmt.SstIterator

/-!
# The k-way merge over SST iterators

`sst_k_iterators_t` holds one iterator for each SST, sorted by `min_key`. The first
`next_lazy_idx` of them, `opened`, have been positioned on the range; the others, `pending`, are
opened only when their `min_key` does not exceed the key of the current winner. One call of
`sst_k_iterators_next` peeks all opened iterators, opens what it must, and hands out the record of
the first iterator with a least key.

The invariant `SstKIterators.Inv` records, for each pending iterator, the list a seek would leave it
with. Under it `sst_k_iterators_next` is a source that always hands out a least remaining record
(`sstKIteratorsNext_selectsLeast`): the merge is sorted and is the union of all inputs.
-/

set_option autoImplicit false

namespace RaftLsmt.Lsmt

open RaftLsmt.Lib.StepMachine
open RaftLsmt.Lib.SortedMerge

/-- `sst_k_iterators_t`; `next_lazy_idx` is the number of opened iterators. -/
structure SstKIterators where
  opened : List SstIterator
  pending : List SstIterator
  active : Bool
  seekStart : SlUint128
  seekEnd : SlUint128

/-- `sst_k_iterators_create`: one iterator for each record, sorted by `min_key`. -/
def sstKIteratorsCreate (inputs : List (SstMetadataRecord × IoFaults)) : SstKIterators where
  opened := []
  pending := (inputs.map fun i => sstIteratorCreate i.1 i.2).mergeSort fun a b =>
    keyCompare a.sst.minKey b.sst.minKey ≤ 0
  active := false
  seekStart := SlUint128.zero
  seekEnd := SlUint128.zero

/-- `sst_k_iterators_seek`. -/
def sstKIteratorsSeek (k : SstKIterators) (start endKey : SlUint128) : SstKIterators where
  opened := []
  pending := (k.opened ++ k.pending).map fun it =>
    { it with active := false, bufferedRecord := none }
  active := true
  seekStart := start
  seekEnd := endKey

/-- The running winner of a merge step: its position among the opened iterators and its record. -/
abbrev Winner := Option (Nat × KvRawRecord)

/-- The comparison made for each peeked record: a record replaces the winner only when its key is
strictly smaller. -/
def betterWinner (winner : Winner) (idx : Nat) (peeked : Option KvRawRecord) : Winner :=
  match peeked, winner with
  | none, _ => winner
  | some rec, none => some (idx, rec)
  | some rec, some (i, best) =>
    if keyCompare rec.key best.key < 0 then some (idx, rec) else some (i, best)

/-- The first loop of `sst_k_iterators_next`: peek every opened iterator from position `idx` on. -/
def peekOpened (idx : Nat) (winner : Winner) : List SstIterator → Winner × List SstIterator
  | [] => (winner, [])
  | it :: its =>
    let (peeked, it) := sstIteratorPeek it
    let (winner, its) := peekOpened (idx + 1) (betterWinner winner idx peeked) its
    (winner, it :: its)

/-- The break test of the second loop: the pending file starts after the current winner. -/
def startsAfter (winner : Winner) (it : SstIterator) : Bool :=
  match winner with
  | none => false
  | some (_, best) => keyCompare it.sst.minKey best.key > 0

/-- The second loop of `sst_k_iterators_next`: open pending iterators while they may hold a record
at or below the winner. `none` when a seek stops the process. -/
def openPending (start endKey : SlUint128) (opened : List SstIterator) (winner : Winner) :
    List SstIterator → Option (Winner × List SstIterator × List SstIterator)
  | [] => some (winner, opened, [])
  | it :: its =>
    if startsAfter winner it then
      some (winner, opened, it :: its)
    else
      match sstIteratorSeek it start endKey with
      | none => none
      | some (_, it) =>
        let (peeked, it) := sstIteratorPeek it
        openPending start endKey (opened ++ [it]) (betterWinner winner opened.length peeked) its

/-- `sst_k_iterators_next`: the winner's record, or `NULL` when every iterator is exhausted. -/
def sstKIteratorsNext (k : SstKIterators) : Option (Option KvRawRecord × SstKIterators) :=
  if k.active = false then some (none, k)
  else
    let (winner, opened) := peekOpened 0 none k.opened
    match openPending k.seekStart k.seekEnd opened winner k.pending with
    | none => none
    | some (none, opened, pending) =>
      some (none, { k with opened := opened, pending := pending, active := false })
    | some (some (i, rec), opened, pending) =>
      some (some rec, { k with opened := opened.modify i sstIteratorAdvance, pending := pending })

theorem sstKIteratorsNext_none_inactive {k t : SstKIterators}
    (h : sstKIteratorsNext k = some (none, t)) : t.active = false := by
  rw [sstKIteratorsNext] at h
  split at h
  · rename_i hact
    cases h
    exact hact
  · simp only at h
    split at h <;> cases h
    rfl

/-! ## The remaining records -/

section Merge

variable (yield : SstIterator → List KvRawRecord)

namespace SstKIterators

/-- The records the merge still hands out, when a seek of the pending iterator `it` leaves it with
`yield it`. -/
def remaining (k : SstKIterators) : List KvRawRecord :=
  if k.active then k.opened.flatMap SstIterator.remaining ++ k.pending.flatMap yield else []

/-- A seek of the pending iterator, when it returns, leaves it with `yield it`; these records are in
order and none is below `min_key`. -/
structure PendingOk (start endKey : SlUint128) (it : SstIterator) : Prop where
  yields : SeekYields it start endKey (yield it)
  sorted : SortedBy KvRawRecord.key (yield it)
  minKey_le : ∀ r ∈ yield it, it.sst.minKey ≤ r.key

/-- The invariant of the merge. -/
structure Inv (k : SstKIterators) : Prop where
  opened : ∀ it ∈ k.opened, SortedBy KvRawRecord.key it.remaining
  pending : ∀ it ∈ k.pending, PendingOk yield k.seekStart k.seekEnd it
  byMinKey : SortedBy (fun it : SstIterator => it.sst.minKey) k.pending

end SstKIterators

/-- What the running winner knows about the iterators looked at so far: without a winner all are
exhausted; a winner is buffered at its position and its key is at most the head of each. -/
def WinnerOk (its : List SstIterator) : Winner → Prop
  | none => ∀ it ∈ its, it.remaining = []
  | some (i, rec) =>
    (∃ it, its[i]? = some it ∧ it.active = true ∧ it.bufferedRecord = some rec) ∧
      ∀ it ∈ its, ∀ r ∈ it.remaining.head?, rec.key ≤ r.key

/-- Looking at one more iterator keeps the winner right. -/
theorem WinnerOk.snoc {its : List SstIterator} {winner : Winner} (h : WinnerOk its winner)
    {it : SstIterator} {answer : Option KvRawRecord × SstIterator} (hpeek : PeekSpec it answer) :
    WinnerOk (its ++ [answer.2]) (betterWinner winner its.length answer.1) := by
  have hhead : answer.2.remaining.head? = answer.1 := by rw [hpeek.same, hpeek.shown]
  cases hans : answer.1 with
  -- the new iterator is at its end: the winner stays
  | none =>
    rw [hans] at hhead
    have hnil : answer.2.remaining = [] := List.head?_eq_none_iff.mp hhead
    cases winner with
    | none =>
      intro x hx
      rcases List.mem_append.mp hx with hx | hx
      · exact h x hx
      · rw [List.mem_singleton.mp hx, hnil]
    | some w =>
      obtain ⟨⟨x, hx, hact, hbuf⟩, hle⟩ := h
      refine ⟨⟨x, ?_, hact, hbuf⟩, fun y hy r hr => ?_⟩
      · rw [List.getElem?_append_left (List.getElem?_eq_some_iff.mp hx).1, hx]
      · rcases List.mem_append.mp hy with hy | hy
        · exact hle y hy r hr
        · rw [List.mem_singleton.mp hy, hhead] at hr
          cases hr
  -- it shows a record, which wins when its key is smaller
  | some rec =>
    rw [hans] at hhead
    obtain ⟨hact, hbuf⟩ := hpeek.buffered rec hans
    have hlast : (its ++ [answer.2])[its.length]? = some answer.2 := by simp
    cases winner with
    | none =>
      refine ⟨⟨answer.2, hlast, hact, hbuf⟩, fun y hy r hr => ?_⟩
      rcases List.mem_append.mp hy with hy | hy
      · rw [h y hy] at hr
        cases hr
      · rw [List.mem_singleton.mp hy, hhead] at hr
        cases hr
        exact le_refl _
    | some w =>
      obtain ⟨i, best⟩ := w
      obtain ⟨⟨x, hx, hxact, hxbuf⟩, hle⟩ := h
      by_cases hlt : rec.key < best.key
      · have hbetter : betterWinner (some (i, best)) its.length (some rec) =
            some (its.length, rec) := if_pos (keyCompare_neg_iff.mpr hlt)
        rw [hbetter]
        refine ⟨⟨answer.2, hlast, hact, hbuf⟩, fun y hy r hr => ?_⟩
        rcases List.mem_append.mp hy with hy | hy
        · exact le_trans (le_of_lt hlt) (hle y hy r hr)
        · rw [List.mem_singleton.mp hy, hhead] at hr
          cases hr
          exact le_refl _
      · -- of equal keys the earlier file's wins
        have hbetter : betterWinner (some (i, best)) its.length (some rec) = some (i, best) :=
          if_neg (fun hneg => hlt (keyCompare_neg_iff.mp hneg))
        rw [hbetter]
        refine ⟨⟨x, ?_, hxact, hxbuf⟩, fun y hy r hr => ?_⟩
        · rw [List.getElem?_append_left (List.getElem?_eq_some_iff.mp hx).1, hx]
        · rcases List.mem_append.mp hy with hy | hy
          · exact hle y hy r hr
          · rw [List.mem_singleton.mp hy, hhead] at hr
            cases hr
            exact not_lt.mp hlt

/-- The first loop: all opened iterators are peeked, and their lists stay as they are. -/
theorem peekOpened_spec (seen : List SstIterator) (winner : Winner) (its : List SstIterator)
    (h : WinnerOk seen winner) :
    WinnerOk (seen ++ (peekOpened seen.length winner its).2)
        (peekOpened seen.length winner its).1 ∧
      (peekOpened seen.length winner its).2.map SstIterator.remaining =
        its.map SstIterator.remaining := by
  induction its generalizing seen winner with
  | nil => simpa [peekOpened] using h
  | cons it its ih =>
    have hpeek := sstIteratorPeek_spec it
    have hih := ih (seen ++ [(sstIteratorPeek it).2]) _ (h.snoc hpeek)
    simp only [List.length_append, List.length_singleton, List.append_assoc,
      List.singleton_append] at hih
    simp only [peekOpened, List.map_cons]
    exact ⟨hih.1, by rw [hih.2, hpeek.same]⟩

/-- What the second loop returns: a right winner, the same remaining records, and only files that
start after the winner left unopened. -/
structure OpenPendingSpec (opened its : List SstIterator) (winner' : Winner)
    (opened' pending' : List SstIterator) : Prop where
  winner : WinnerOk opened' winner'
  same : opened'.flatMap SstIterator.remaining ++ pending'.flatMap yield =
    opened.flatMap SstIterator.remaining ++ its.flatMap yield
  sorted : ∀ it ∈ opened', SortedBy KvRawRecord.key it.remaining
  sublist : pending'.Sublist its
  exhausted : winner' = none → pending' = []
  above : ∀ i rec, winner' = some (i, rec) → ∀ it ∈ pending', rec.key < it.sst.minKey

variable {yield}

theorem openPending_spec {start endKey : SlUint128} (its : List SstIterator) :
    ∀ {opened : List SstIterator} {winner winner' : Winner} {opened' pending' : List SstIterator},
      WinnerOk opened winner → (∀ it ∈ opened, SortedBy KvRawRecord.key it.remaining) →
      (∀ it ∈ its, SstKIterators.PendingOk yield start endKey it) →
      SortedBy (fun it : SstIterator => it.sst.minKey) its →
      openPending start endKey opened winner its = some (winner', opened', pending') →
      OpenPendingSpec yield opened its winner' opened' pending' := by
  induction its with
  -- all files are open
  | nil =>
    intro opened winner winner' opened' pending' hwin hsorted _ _ h
    cases h
    exact ⟨hwin, rfl, hsorted, List.Sublist.refl _, fun _ => rfl, by simp⟩
  | cons it its ih =>
    intro opened winner winner' opened' pending' hwin hsorted hpend hmin h
    obtain ⟨hminle, hmin'⟩ := sortedBy_cons.mp hmin
    rw [openPending] at h
    -- the files are in the order of their least keys, so the loop may stop at the first that starts
    -- above the winner
    by_cases hstop : startsAfter winner it = true
    · rw [if_pos hstop] at h
      cases h
      cases winner with
      | none => cases hstop
      | some w =>
        have hgt : w.2.key < it.sst.minKey := by simpa [startsAfter] using hstop
        refine ⟨hwin, rfl, hsorted, List.Sublist.refl _, by simp, fun i rec hw x hx => ?_⟩
        cases hw
        rcases List.mem_cons.mp hx with rfl | hx
        · exact hgt
        · exact lt_of_lt_of_le hgt (hminle x hx)
    · rw [if_neg hstop] at h
      cases hseek : sstIteratorSeek it start endKey with
      | none =>
        rw [hseek] at h
        cases h
      | some answer =>
        obtain ⟨ok, sought⟩ := answer
        rw [hseek] at h
        have hpeek := sstIteratorPeek_spec sought
        have hrem : sought.remaining = yield it :=
          ((hpend it List.mem_cons_self).yields ok sought hseek).remaining
        have hitsorted : SortedBy KvRawRecord.key sought.remaining :=
          hrem.symm ▸ (hpend it List.mem_cons_self).sorted
        have hspec := ih (hwin.snoc hpeek)
          (by
            intro x hx
            rcases List.mem_append.mp hx with hx | hx
            · exact hsorted x hx
            · rw [List.mem_singleton.mp hx, hpeek.same]
              exact hitsorted)
          (fun x hx => hpend x (List.mem_cons_of_mem it hx)) hmin' h
        refine ⟨hspec.winner, ?_, hspec.sorted, hspec.sublist.cons it, hspec.exhausted,
          hspec.above⟩
        rw [hspec.same, List.flatMap_append, List.flatMap_singleton, List.flatMap_cons, hpeek.same,
          hrem, List.append_assoc]

/-- Advancing the winner takes its record off the remaining ones. -/
theorem flatMap_modify_advance {its : List SstIterator} {i : Nat} {it : SstIterator}
    {rec : KvRawRecord} (hi : its[i]? = some it) (hact : it.active = true)
    (hbuf : it.bufferedRecord = some rec) :
    (its.flatMap SstIterator.remaining).Perm
      (rec :: (its.modify i sstIteratorAdvance).flatMap SstIterator.remaining) := by
  induction its generalizing i with
  | nil => simp at hi
  | cons x its ih =>
    cases i with
    | zero =>
      simp only [List.getElem?_cons_zero, Option.some.injEq] at hi
      subst hi
      rw [List.modify_zero_cons, List.flatMap_cons, List.flatMap_cons,
        remaining_sstIteratorAdvance hact hbuf, List.cons_append]
    | succ i =>
      rw [List.getElem?_cons_succ] at hi
      rw [List.modify_succ_cons, List.flatMap_cons, List.flatMap_cons]
      exact ((ih hi).append_left _).trans List.perm_middle

theorem mem_modify {α : Type} {g : α → α} {l : List α} {i : Nat} {a : α} (h : a ∈ l.modify i g) :
    a ∈ l ∨ ∃ x, l[i]? = some x ∧ a = g x := by
  obtain ⟨j, hj⟩ := List.mem_iff_getElem?.mp h
  rw [List.getElem?_modify] at hj
  by_cases hij : i = j
  · subst hij
    cases hx : l[i]? with
    | none => simp [hx] at hj
    | some x =>
      simp only [hx, if_true, Option.map_eq_map, Option.map_some, Option.some.injEq] at hj
      exact Or.inr ⟨x, rfl, hj.symm⟩
  · simp only [if_neg hij, id_map'] at hj
    exact Or.inl (List.mem_of_getElem? (by simpa using hj))

/-- The two loops of one call, under the invariant. -/
theorem SstKIterators.Inv.loops_spec {k : SstKIterators} (hk : k.Inv yield) {winner' : Winner}
    {opened' pending' : List SstIterator}
    (hopen : openPending k.seekStart k.seekEnd (peekOpened 0 none k.opened).2
      (peekOpened 0 none k.opened).1 k.pending = some (winner', opened', pending')) :
    OpenPendingSpec yield k.opened k.pending winner' opened' pending' := by
  obtain ⟨hwin, hsame⟩ := peekOpened_spec [] none k.opened (by simp [WinnerOk])
  simp only [List.nil_append, List.length_nil] at hwin hsame
  have hflat : (peekOpened 0 none k.opened).2.flatMap SstIterator.remaining =
      k.opened.flatMap SstIterator.remaining := by
    rw [List.flatMap_def, List.flatMap_def]
    exact congrArg List.flatten hsame
  have hsorted : ∀ it ∈ (peekOpened 0 none k.opened).2,
      SortedBy KvRawRecord.key it.remaining := by
    intro it hit
    have hmem : it.remaining ∈ k.opened.map SstIterator.remaining :=
      hsame ▸ List.mem_map_of_mem hit
    obtain ⟨x, hx, hxr⟩ := List.mem_map.mp hmem
    exact hxr ▸ hk.opened x hx
  have hspec := openPending_spec k.pending hwin hsorted hk.pending hk.byMinKey hopen
  exact { hspec with same := by rw [hspec.same, hflat] }

/-- Nothing remaining in the opened files is below the winner. -/
theorem OpenPendingSpec.winner_le {opened its opened' pending' : List SstIterator} {i : Nat}
    {rec : KvRawRecord} (h : OpenPendingSpec yield opened its (some (i, rec)) opened' pending') :
    ∀ r ∈ opened'.flatMap SstIterator.remaining, rec.key ≤ r.key := by
  intro r hr
  obtain ⟨it, hit, hrit⟩ := List.mem_flatMap.mp hr
  have hs := h.sorted it hit
  cases hrem : it.remaining with
  | nil =>
    rw [hrem] at hrit
    cases hrit
  | cons y ys =>
    have hy : rec.key ≤ y.key := h.winner.2 it hit y (by rw [hrem]; rfl)
    rw [hrem] at hs hrit
    rcases List.mem_cons.mp hrit with rfl | hrit
    · exact hy
    · exact le_trans hy ((sortedBy_cons.mp hs).1 r hrit)

/-- Each call hands out a least remaining record and keeps the invariant. -/
theorem sstKIteratorsNext_selectsLeast :
    SelectsLeast sstKIteratorsNext (SstKIterators.remaining yield) (SstKIterators.Inv yield)
      KvRawRecord.key := by
  -- first the end of the merge, then a record that it hands out
  refine ⟨fun k t hk hnext => ?_, fun k rec t hk hnext => ?_⟩
  · rw [sstKIteratorsNext] at hnext
    by_cases hact : k.active = false
    · simp [SstKIterators.remaining, hact]
    · rw [if_neg hact] at hnext
      simp only at hnext
      split at hnext
      · cases hnext
      · -- no file is left that shows a record
        rename_i opened' pending' hopen
        have hspec := hk.loops_spec hopen
        rw [SstKIterators.remaining, if_pos (by simpa using hact), ← hspec.same,
          hspec.exhausted rfl, List.flatMap_nil, List.append_nil, List.flatMap_eq_nil_iff]
        exact hspec.winner
      · cases hnext
  · rw [sstKIteratorsNext] at hnext
    by_cases hact : k.active = false
    · rw [if_pos hact] at hnext
      cases hnext
    · have hact' : k.active = true := by simpa using hact
      rw [if_neg hact] at hnext
      simp only at hnext
      split at hnext
      · cases hnext
      · cases hnext
      · rename_i i best opened' pending' hopen
        cases hnext
        have hspec := hk.loops_spec hopen
        obtain ⟨⟨x, hx, hxact, hxbuf⟩, -⟩ := hspec.winner
        have hperm := flatMap_modify_advance hx hxact hxbuf
        -- only the winner moves on
        have hsorted : ∀ it ∈ opened'.modify i sstIteratorAdvance,
            SortedBy KvRawRecord.key it.remaining := by
          intro it hit
          rcases mem_modify hit with hit | ⟨y, hy, rfl⟩
          · exact hspec.sorted it hit
          · rw [hx] at hy
            cases hy
            have hxs := hspec.sorted x (List.mem_of_getElem? hx)
            rw [remaining_sstIteratorAdvance hxact hxbuf] at hxs
            exact (sortedBy_cons.mp hxs).2
        refine ⟨⟨hsorted, fun it hit => hk.pending it (hspec.sublist.subset hit),
          hk.byMinKey.sublist hspec.sublist⟩, ?_, ?_⟩
        · -- what remains loses the record handed out
          rw [SstKIterators.remaining, SstKIterators.remaining, hact', if_pos rfl, ← hspec.same]
          exact hperm.append_right _
        · intro r hr
          rw [SstKIterators.remaining, hact', if_pos rfl] at hr
          -- an opened file has shown its record, a closed one starts above the winner
          rcases List.mem_append.mp hr with hr | hr
          · exact hspec.winner_le r (hperm.symm.subset (List.mem_cons_of_mem _ hr))
          · obtain ⟨it, hit, hrit⟩ := List.mem_flatMap.mp hr
            exact le_trans (le_of_lt (hspec.above i rec rfl it hit))
              ((hk.pending it (hspec.sublist.subset hit)).minKey_le r hrit)

end Merge

/-! ## Draining the merge -/

/-- More calls than the files have bytes. -/
def SstKIterators.fuel (k : SstKIterators) : Nat :=
  ((k.opened ++ k.pending).map fun it => it.sst.sstFile.length).sum + 1

/-- `sst_k_iterators_create`, `sst_k_iterators_seek` and `sst_k_iterators_next` until `NULL`. -/
def sstKIteratorsScan (inputs : List (SstMetadataRecord × IoFaults)) (start endKey : SlUint128) :
    Option (List KvRawRecord) :=
  let k := sstKIteratorsSeek (sstKIteratorsCreate inputs) start endKey
  drain sstKIteratorsNext k.fuel k

/-- What scanning one input gives: its seek leaves `ls`, in order, within the file's bounds. -/
structure ScansTo (start endKey : SlUint128) (input : SstMetadataRecord × IoFaults)
    (ls : List KvRawRecord) : Prop where
  yields : SeekYields (sstIteratorCreate input.1 input.2) start endKey ls
  sorted : SortedBy KvRawRecord.key ls
  minKey_le : ∀ r ∈ ls, input.1.minKey ≤ r.key
  length_le : ls.length ≤ input.1.sstFile.length

theorem sstKIteratorsSeek_create (inputs : List (SstMetadataRecord × IoFaults))
    (start endKey : SlUint128) :
    sstKIteratorsSeek (sstKIteratorsCreate inputs) start endKey =
      ⟨[], (sstKIteratorsCreate inputs).pending, true, start, endKey⟩ := by
  have hfresh : ∀ it ∈ (sstKIteratorsCreate inputs).pending,
      ({ it with active := false, bufferedRecord := none } : SstIterator) = it := by
    intro it hit
    obtain ⟨i, -, rfl⟩ := List.mem_map.mp (List.mem_mergeSort.mp hit)
    rfl
  have hmap := List.map_congr_left hfresh
  rw [List.map_id'] at hmap
  simp only [sstKIteratorsSeek]
  rw [show (sstKIteratorsCreate inputs).opened = [] from rfl, List.nil_append, hmap]

theorem sortedBy_pending_create (inputs : List (SstMetadataRecord × IoFaults)) :
    SortedBy (fun it : SstIterator => it.sst.minKey) (sstKIteratorsCreate inputs).pending := by
  have h := @List.pairwise_mergeSort _
    (fun a b : SstIterator => decide (keyCompare a.sst.minKey b.sst.minKey ≤ 0))
    (by simpa using fun a b c hab hbc => le_trans hab hbc)
    (by simpa using fun a b => le_total _ _)
    (inputs.map fun i => sstIteratorCreate i.1 i.2)
  exact h.imp fun hab => by simpa using hab

section Scan

variable {ls : SstMetadataRecord × IoFaults → List KvRawRecord}
  {inputs : List (SstMetadataRecord × IoFaults)} {start endKey : SlUint128}

theorem inv_sstKIteratorsSeek (h : ∀ i ∈ inputs, ScansTo start endKey i (ls i)) :
    (sstKIteratorsSeek (sstKIteratorsCreate inputs) start endKey).Inv
      (fun it => ls (it.sst, it.faults)) := by
  rw [sstKIteratorsSeek_create]
  refine ⟨by simp, fun it hit => ?_, sortedBy_pending_create inputs⟩
  obtain ⟨i, hi, rfl⟩ := List.mem_map.mp (List.mem_mergeSort.mp hit)
  exact ⟨(h i hi).yields, (h i hi).sorted, (h i hi).minKey_le⟩

theorem remaining_sstKIteratorsSeek (inputs : List (SstMetadataRecord × IoFaults)) :
    ((sstKIteratorsSeek (sstKIteratorsCreate inputs) start endKey).remaining
      (fun it => ls (it.sst, it.faults))).Perm (inputs.flatMap ls) := by
  rw [sstKIteratorsSeek_create]
  simp only [SstKIterators.remaining, if_true, List.flatMap_nil, List.nil_append]
  have hperm := (List.mergeSort_perm (inputs.map fun i => sstIteratorCreate i.1 i.2)
    fun a b => keyCompare a.sst.minKey b.sst.minKey ≤ 0).flatMap_right
    (fun it => ls (it.sst, it.faults))
  rw [List.flatMap_map] at hperm
  exact hperm

/-- A scan that returns lists the records of all inputs in key order. -/
theorem sstKIteratorsScan_sorted_perm (h : ∀ i ∈ inputs, ScansTo start endKey i (ls i))
    {out : List KvRawRecord} (hout : sstKIteratorsScan inputs start endKey = some out) :
    SortedBy KvRawRecord.key out ∧ out.Perm (inputs.flatMap ls) := by
  obtain ⟨hsorted, hperm⟩ := sstKIteratorsNext_selectsLeast.drain_sorted_perm _ _ _
    (inv_sstKIteratorsSeek h) hout
  exact ⟨hsorted, hperm.trans (remaining_sstKIteratorsSeek inputs)⟩

/-! A scan always returns when no seek of a pending file stops the process. -/

/-- No seek of a pending file stops the process. -/
def SstKIterators.Live (k : SstKIterators) : Prop :=
  ∀ it ∈ k.pending, sstIteratorSeek it k.seekStart k.seekEnd ≠ none

theorem openPending_eq_some (its : List SstIterator) :
    ∀ (opened : List SstIterator) (winner : Winner),
      (∀ it ∈ its, sstIteratorSeek it start endKey ≠ none) →
      ∃ winner' opened' pending',
        openPending start endKey opened winner its = some (winner', opened', pending') ∧
          pending' ⊆ its := by
  induction its with
  | nil =>
    intro opened winner _
    exact ⟨winner, opened, [], rfl, List.Subset.refl _⟩
  | cons it its ih =>
    intro opened winner hlive
    rw [openPending]
    by_cases hstop : startsAfter winner it = true
    · rw [if_pos hstop]
      exact ⟨winner, opened, it :: its, rfl, List.Subset.refl _⟩
    · rw [if_neg hstop]
      cases hseek : sstIteratorSeek it start endKey with
      | none => exact absurd hseek (hlive it List.mem_cons_self)
      | some answer =>
        obtain ⟨winner', opened', pending', hopen, hsub⟩ :=
          ih (opened ++ [(sstIteratorPeek answer.2).2])
            (betterWinner winner opened.length (sstIteratorPeek answer.2).1)
            fun x hx => hlive x (List.mem_cons_of_mem it hx)
        exact ⟨winner', opened', pending', hopen, fun x hx => List.mem_cons_of_mem it (hsub hx)⟩

theorem SstKIterators.Live.next {k : SstKIterators} (h : k.Live) :
    ∃ answer t, sstKIteratorsNext k = some (answer, t) ∧ t.Live := by
  rw [sstKIteratorsNext]
  by_cases hact : k.active = false
  · rw [if_pos hact]
    exact ⟨none, k, rfl, h⟩
  · rw [if_neg hact]
    obtain ⟨winner', opened', pending', hopen, hsub⟩ :=
      openPending_eq_some k.pending (peekOpened 0 none k.opened).2
        (peekOpened 0 none k.opened).1 h
    simp only [hopen]
    cases winner' with
    | none => exact ⟨none, _, rfl, fun it hit => h it (hsub hit)⟩
    | some w => exact ⟨some w.2, _, rfl, fun it hit => h it (hsub hit)⟩

theorem sstKIteratorsScan_eq_some (h : ∀ i ∈ inputs, ScansTo start endKey i (ls i))
    (hlive : ∀ i ∈ inputs, sstIteratorSeek (sstIteratorCreate i.1 i.2) start endKey ≠ none) :
    ∃ out, sstKIteratorsScan inputs start endKey = some out := by
  have hmore : ∀ (k : SstKIterators) (rec : KvRawRecord) (t : SstKIterators), k.Live →
      sstKIteratorsNext k = some (some rec, t) → t.Live := by
    intro k rec t hk hn
    obtain ⟨answer, t', hnext, ht'⟩ := hk.next
    rw [hn] at hnext
    cases hnext
    exact ht'
  have hnext : ∀ k : SstKIterators,
      k.Inv (fun it => ls (it.sst, it.faults)) ∧ k.Live → sstKIteratorsNext k ≠ none := by
    intro k hk
    obtain ⟨answer, t, hn, -⟩ := hk.2.next
    simp [hn]
  refine (sstKIteratorsNext_selectsLeast.and hmore).drain_eq_some hnext _ _
    ⟨inv_sstKIteratorsSeek h, ?_⟩ ?_
  · rw [sstKIteratorsSeek_create]
    intro it hit
    obtain ⟨i, hi, rfl⟩ := List.mem_map.mp (List.mem_mergeSort.mp hit)
    exact hlive i hi
  · rw [sstKIteratorsSeek_create]
    simp only [SstKIterators.remaining, SstKIterators.fuel, if_true, List.flatMap_nil,
      List.nil_append, List.length_flatMap]
    refine Nat.lt_succ_of_le (List.sum_le_sum fun it hit => ?_)
    obtain ⟨i, hi, rfl⟩ := List.mem_map.mp (List.mem_mergeSort.mp hit)
    exact (h i hi).length_le

end Scan

/-! ## Scans of well-formed files -/

/-- A range scan of one file without failures: it delivers records of the range, each key of the range
among them, and all of them when the index lookup is safe. -/
theorem exists_scansTo_keys {sst : SstMetadataRecord} {rs : List KvRawRecord} (h : SstHolds sst rs)
    (start endKey : SlUint128) :
    ∃ ls, ScansTo start endKey (sst, IoFaults.none) ls ∧
      ls.Sublist (rangeFilter KvRawRecord.key start endKey rs) ∧
      (LookupSafe rs start → ls = rangeFilter KvRawRecord.key start endKey rs) ∧
      ∀ r ∈ rangeFilter KvRawRecord.key start endKey rs, ∃ x ∈ ls, x.key = r.key := by
  obtain ⟨pre, post, hrs, hskip, hyields⟩ :=
    (sstIteratorCreate_fresh h _).seekYields_skipsTo rfl start endKey
  have hpost : post.Sublist rs := hrs ▸ List.sublist_append_right pre post
  have hsub := (rangeFilter_sublist (f := KvRawRecord.key) start endKey post).trans hpost
  refine ⟨rangeFilter KvRawRecord.key start endKey post, ⟨hyields, h.sorted.sublist hsub,
    fun r hr => h.minKey_le r (hsub.subset hr), ?_⟩, hpost.filter _, fun hsafe => ?_, ?_⟩
  · have hle := length_le_length_fileBytes h.wf
    rw [← h.file_eq] at hle
    exact le_trans hsub.length_le hle
  · rw [hrs, rangeFilter_append, @rangeFilter_eq_nil _ _ _ KvRawRecord.key start endKey pre,
      List.nil_append]
    exact fun r hr hin => absurd hin.1 (not_le_of_gt (hskip.lt hrs hsafe r hr))
  · intro r hr
    obtain ⟨hr, hin⟩ := mem_rangeFilter.mp hr
    obtain ⟨x, hx, hkey⟩ := hskip.exists_key (hrs ▸ h.sorted) (hrs ▸ hr) hin.1
    exact ⟨x, mem_rangeFilter.mpr ⟨hx, by rw [InRange, hkey]; exact hin⟩, hkey⟩

theorem exists_scansTo_none {sst : SstMetadataRecord} {rs : List KvRawRecord} (h : SstHolds sst rs)
    (start endKey : SlUint128) :
    ∃ ls, ScansTo start endKey (sst, IoFaults.none) ls ∧
      ls.Sublist (rangeFilter KvRawRecord.key start endKey rs) ∧
      (LookupSafe rs start → ls = rangeFilter KvRawRecord.key start endKey rs) := by
  obtain ⟨ls, hls, hsub, hall, -⟩ := exists_scansTo_keys h start endKey
  exact ⟨ls, hls, hsub, hall⟩

/-- The full scan of one file in a merge, under any failures. -/
theorem scansTo_all {sst : SstMetadataRecord} {rs : List KvRawRecord} (h : SstHolds sst rs)
    (faults : IoFaults) :
    ScansTo SlUint128.zero SlUint128.max (sst, faults) (readableRecords faults rs) where
  yields := (sstIteratorCreate_fresh h faults).seekYields_all rfl
  sorted := h.sorted.sublist (readableRecords_sublist _ _)
  minKey_le r hr := h.minKey_le r ((readableRecords_sublist _ _).subset hr)
  length_le := by
    have hle := length_le_length_fileBytes h.wf
    rw [← h.file_eq] at hle
    exact le_trans (readableRecords_sublist _ _).length_le hle

end RaftLsmt.Lsmt
