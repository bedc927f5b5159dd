import RaftLsmt.Lsmt.StoreInvariant

/-!
# What a store at rest holds

A store is at rest when it has no immutable memtable and its compaction is idle. Then every accepted
record is in the memtable or in a registered SST. When no key is inserted twice this determines both
the answers of `lsmt_insert` (`CodesOk`) and what a scan returns (`Quiescent.scan_eq_recordsOf`), so
that neither depends on when the store flushes and compacts (`flush_transparent`).

Repeated keys break this: the duplicate check looks at the active memtable only. `strict_scans_iff`
says what is left of it: the scans of a store at rest have strictly increasing keys exactly when no key
has been flushed twice.
-/

set_option autoImplicit false

namespace RaftLsmt.Lsmt

open RaftLsmt.Lib.StepMachine
open RaftLsmt.Lib.SortedMerge

/-- No immutable memtable, no compaction in progress. -/
structure World.Quiescent (w : World) : Prop where
  running : w.status = .running
  immutables : w.lsmt.immutables = []
  compactPc : w.compactPc = .waiting

/-- The records `lsmt_insert` does not refuse for their reserved key. -/
def unreserved (nodes : List (SlUint128 × Bytes)) : List (SlUint128 × Bytes) :=
  nodes.filter fun node => node.1.id ≠ 0

/-- No key that is not reserved is inserted twice. -/
def FreshKeys (nodes : List (SlUint128 × Bytes)) : Prop :=
  ((unreserved nodes).map Prod.fst).Nodup

/-- What `lsmt_insert` returns for a key that is not in the store. -/
def codeOf (key : SlUint128) : Int := if key.id = 0 then -1 else 0

/-- The records of a range among these insertions, in key order. -/
def recordsOf (nodes : List (SlUint128 × Bytes)) (startKey endKey : SlUint128) :
    List KvRawRecord :=
  (rangeFilter KvRawRecord.key startKey endKey ((unreserved nodes).map rawOf)).mergeSort
    fun a b => a.key ≤ b.key

/-! ## The answers of `lsmt_insert` -/

theorem slInsert_code {sl : Sl} (h : sl.Wf) {key : SlUint128} (content : Bytes)
    (hfresh : ∀ n ∈ sl.bottomLevel, n.1 ≠ key) : (slInsert sl key content).2 = codeOf key := by
  rcases slInsert_cases h key content with
    ⟨hins, hid | ⟨n, hn, hkey⟩⟩ | ⟨sl', hins, haccepts, -⟩
  · rw [hins, codeOf, if_pos hid]
  · exact absurd hkey (hfresh n hn)
  · rw [hins, codeOf, if_neg fun hid => haccepts (Or.inl hid)]

namespace World

/-- Every call has had the answer for a key that is not in the store. -/
def CodesOk (w : World) : Prop := ∀ call ∈ w.inserted, call.rv = codeOf call.key

/-- The keys of the memtable have been inserted. -/
theorem Inv.memtable_inserted {base : List KvRawRecord} {w : World} (h : w.Inv base) :
    ∀ n ∈ w.lsmt.memtable.bottomLevel,
      n.1 ∈ (unreserved (w.inserted.map InsertCall.node)).map Prod.fst := by
  intro n hn
  have hrec : rawOf n ∈ w.accepted.map rawOf :=
    h.inserted.symm.subset (List.mem_append_left _ (List.mem_map_of_mem hn))
  obtain ⟨m, hm, heq⟩ := List.mem_map.mp hrec
  have hkey : m.1 = n.1 := congrArg KvRawRecord.key heq
  obtain ⟨call, hcall, rfl⟩ := List.mem_map.mp hm
  have hid := h.memtable.wf.id_ne_zero n hn
  refine List.mem_map.mpr ⟨call.node, List.mem_filter.mpr ⟨?_, ?_⟩, hkey⟩
  · exact List.mem_map_of_mem (List.mem_filter.mp hcall).1
  · simpa [hkey] using hid

/-- A fresh key is not in the memtable, so its insertion has the answer of an absent key. -/
theorem CodesOk.step {base : List KvRawRecord} {w w' : World} {a : Action} (hinv : w.Inv base)
    (h : w.CodesOk) (hstep : w.step a = some w')
    (hfresh : FreshKeys (w'.inserted.map InsertCall.node)) : w'.CodesOk := by
  by_cases ha : ∀ key content, a ≠ .insert key content
  · rw [CodesOk, step_inserted_eq ha hstep]
    exact h
  · simp only [not_forall, not_not] at ha
    obtain ⟨key, content, rfl⟩ := ha
    obtain ⟨needSpawn, -, hins⟩ := World.step_insert_spec hstep
    rw [hins] at hfresh
    intro call hcall
    rw [hins] at hcall
    rcases List.mem_append.mp hcall with hcall | hcall
    · exact h call hcall
    · rw [List.mem_singleton.mp hcall]
      rcases lsmtRotate_memtable w.lsmt with hsl | ⟨addr, hsl⟩ <;> simp only [hsl]
      · refine slInsert_code hinv.memtable.wf content fun n hn hkey => ?_
        have hold := hinv.memtable_inserted n hn
        have hid := hinv.memtable.wf.id_ne_zero n hn
        rw [FreshKeys, List.map_append, unreserved, List.filter_append, List.map_append,
          List.nodup_append] at hfresh
        refine hfresh.2.2 n.1 hold key ?_ hkey
        simp [InsertCall.node, hkey ▸ hid]
      · exact slInsert_code (Sl.wf_slInit addr) content (by simp [slInit])

end World

theorem FreshKeys.of_append {nodes nodes' : List (SlUint128 × Bytes)}
    (h : FreshKeys (nodes ++ nodes')) : FreshKeys nodes := by
  rw [FreshKeys, unreserved, List.filter_append, List.map_append] at h
  exact h.of_append_left

namespace World

/-- In a run of insertions with fresh keys every answer is that of an absent key. -/
theorem CodesOk.run {base : List KvRawRecord} {w w' : World} {as : List Action}
    (hinv : w.Inv base) (h : w.CodesOk) (has : ∀ a ∈ as, a.Sound)
    (hrun : run World.step w as = some w')
    (hfresh : FreshKeys (w'.inserted.map InsertCall.node)) : w'.CodesOk := by
  induction as generalizing w with
  | nil =>
    cases hrun
    exact h
  | cons a as ih =>
    obtain ⟨t, hstep, hrest⟩ := run_cons_eq_some.mp hrun
    have htfresh : FreshKeys (t.inserted.map InsertCall.node) := by
      refine @FreshKeys.of_append _ (insertedNodes as) ?_
      rw [← World.run_inserted hrest]
      exact hfresh
    have ht : t.Inv base := World.Inv.step w a t ((has a List.mem_cons_self).soundIn _) hinv hstep
    exact ih ht (h.step hinv hstep htfresh) (fun b hb => has b (List.mem_cons_of_mem a hb)) hrest

/-- The answers are determined by the keys. -/
theorem CodesOk.codes_eq {w : World} (h : w.CodesOk) :
    (w.inserted.map fun call => (call.node, call.rv)) =
      (w.inserted.map InsertCall.node).map fun node => (node, codeOf node.1) := by
  rw [List.map_map]
  exact List.map_congr_left fun call hcall => Prod.ext rfl (h call hcall)

/-- What is accepted is what does not have a reserved key. -/
theorem CodesOk.accepted_eq {w : World} (h : w.CodesOk) :
    w.accepted = unreserved (w.inserted.map InsertCall.node) := by
  rw [accepted, unreserved, List.filter_map]
  congr 1
  refine List.filter_congr fun call hcall => ?_
  rw [h call hcall, codeOf]
  simp only [Function.comp_apply, InsertCall.node]
  split <;> rename_i hid <;> simp [hid]

end World

/-! ## Scans of a store at rest -/

section Rest

variable {w : World} (h : w.Inv []) (hq : w.Quiescent)
include h hq

theorem World.Quiescent.registered_perm :
    (sstRecords w.lsmt.metadata.records).Perm (sstRecords w.flushed) := by
  have hreg := h.registered
  rw [hq.compactPc] at hreg
  simpa [CompactPc.held] using hreg

/-- Every accepted record is in the memtable or has been flushed. -/
theorem World.Quiescent.flushed_perm : (w.accepted.map rawOf).Perm
    (w.lsmt.memtable.records ++ sstRecords w.flushed) := by
  have hunfl : w.unflushed = [] := by simp [World.unflushed, hq.immutables]
  have hins := h.inserted
  rwa [hunfl, List.flatMap_nil, List.nil_append] at hins

/-- Every accepted record is in the memtable or in an SST. -/
theorem World.Quiescent.accepted_perm : (w.accepted.map rawOf).Perm
    (w.lsmt.memtable.records ++ sstRecords w.lsmt.metadata.records) :=
  (hq.flushed_perm h).trans ((hq.registered_perm h).symm.append_left _)

omit hq in
/-- With no key twice in the SSTs a scan is strictly increasing. -/
theorem World.Inv.scan_strict
    (hnodup : ((sstRecords w.lsmt.metadata.records).map KvRawRecord.key).Nodup)
    (startKey endKey : SlUint128) :
    ∃ rs, lsmtScan w.lsmt startKey endKey = some (shadowMerge KvRawRecord.key
        (rangeFilter KvRawRecord.key startKey endKey w.lsmt.memtable.records) rs) ∧
      StrictBy KvRawRecord.key (shadowMerge KvRawRecord.key
        (rangeFilter KvRawRecord.key startKey endKey w.lsmt.memtable.records) rs) ∧
      rs.Perm (rangeFilter KvRawRecord.key startKey endKey
        (sstRecords w.lsmt.metadata.records)) := by
  obtain ⟨rs, hrs, hsst⟩ := lsmtScan_eq h.memtable h.ssts startKey endKey
  refine ⟨rs, hrs, strictBy_shadowMerge ?_ (hsst.strict hnodup),
    hsst.perm (scannable_of_nodup h.ssts hnodup startKey)⟩
  exact h.memtable.wf.strict_records.sublist (rangeFilter_sublist _ _ _)

/-- With no key twice among the accepted records a scan lists their range. -/
theorem World.Quiescent.scan_of_nodup (hnodup : ((w.accepted.map rawOf).map KvRawRecord.key).Nodup)
    (startKey endKey : SlUint128) :
    ∃ out, lsmtScan w.lsmt startKey endKey = some out ∧ StrictBy KvRawRecord.key out ∧
      out.Perm (rangeFilter KvRawRecord.key startKey endKey (w.accepted.map rawOf)) := by
  have hperm := hq.accepted_perm h
  rw [(hperm.map KvRawRecord.key).nodup_iff, List.map_append, List.nodup_append] at hnodup
  obtain ⟨-, hsst, hdisj⟩ := hnodup
  obtain ⟨rs, hrs, hstrict, hrange⟩ := h.scan_strict hsst startKey endKey
  have happend := shadowMerge_perm_append (f := KvRawRecord.key)
    (rangeFilter KvRawRecord.key startKey endKey w.lsmt.memtable.records) rs (by
      intro a ha b hb
      exact hdisj _ (List.mem_map_of_mem ((rangeFilter_sublist _ _ _).subset ha)) _
        (List.mem_map_of_mem ((rangeFilter_sublist _ _ _).subset (hrange.subset hb))))
  refine ⟨_, hrs, hstrict, happend.trans ((hrange.append_left _).trans ?_)⟩
  rw [← rangeFilter_append]
  exact rangeFilter_perm hperm.symm

/-- A scan of a store at rest, when no key was inserted twice, is a function of the insertions. -/
theorem World.Quiescent.scan_eq_recordsOf (hcodes : w.CodesOk)
    (hfresh : FreshKeys (w.inserted.map InsertCall.node)) (startKey endKey : SlUint128) :
    lsmtScan w.lsmt startKey endKey =
      some (recordsOf (w.inserted.map InsertCall.node) startKey endKey) := by
  have hnodup : ((w.accepted.map rawOf).map KvRawRecord.key).Nodup := by
    rw [hcodes.accepted_eq, List.map_map]
    exact hfresh
  obtain ⟨out, hout, hstrict, hperm⟩ := hq.scan_of_nodup h hnodup startKey endKey
  rw [hcodes.accepted_eq] at hperm hnodup
  have hsort := List.mergeSort_perm (rangeFilter KvRawRecord.key startKey endKey
    ((unreserved (w.inserted.map InsertCall.node)).map rawOf)) fun a b => a.key ≤ b.key
  have hsorted : SortedBy KvRawRecord.key
      (recordsOf (w.inserted.map InsertCall.node) startKey endKey) := by
    have hpair := @List.pairwise_mergeSort _
      (fun a b : KvRawRecord => decide (a.key ≤ b.key))
      (by simpa using fun a b c hab hbc => le_trans hab hbc)
      (by simpa using fun a b => le_total _ _)
      (rangeFilter KvRawRecord.key startKey endKey
        ((unreserved (w.inserted.map InsertCall.node)).map rawOf))
    exact hpair.imp fun hab => by simpa using hab
  have hstrict' : StrictBy KvRawRecord.key
      (recordsOf (w.inserted.map InsertCall.node) startKey endKey) := by
    refine hsorted.strictBy_iff_nodup.mpr ?_
    rw [recordsOf, (hsort.map KvRawRecord.key).nodup_iff]
    exact hnodup.sublist ((rangeFilter_sublist _ _ _).map _)
  rw [hout, hstrict.eq_of_perm hstrict' (hperm.trans hsort.symm)]

end Rest

/-- What does not depend on the flushes and compactions of two runs: the answers of `lsmt_insert`,
and every scan once both stores are at rest. -/
structure World.Alike (v w : World) : Prop where
  codes : (v.inserted.map fun call => (call.node, call.rv)) =
    (w.inserted.map fun call => (call.node, call.rv))
  scans : v.Quiescent → w.Quiescent → ∀ startKey endKey, ∃ rs,
    lsmtScan v.lsmt startKey endKey = some rs ∧ lsmtScan w.lsmt startKey endKey = some rs

/-- Two runs of the same insertions, no key of which is inserted twice, that flush and compact
differently: every insertion has the same answer in both, and at rest both stores scan alike. -/
theorem flush_transparent {as bs : List Action} (has : ∀ a ∈ as, a.Sound)
    (hbs : ∀ b ∈ bs, b.Sound) {v w : World}
    (hv : run World.step (World.init lsmtInit) as = some v)
    (hw : run World.step (World.init lsmtInit) bs = some w)
    (hsame : insertedNodes as = insertedNodes bs) (hfresh : FreshKeys (insertedNodes as)) :
    v.Alike w := by
  have hnodes : ∀ (cs : List Action) (u : World), (∀ c ∈ cs, c.Sound) →
      run World.step (World.init lsmtInit) cs = some u → insertedNodes as = insertedNodes cs →
      u.inserted.map InsertCall.node = insertedNodes as ∧ u.CodesOk := by
    intro cs u hcs hu heq
    have hins : u.inserted.map InsertCall.node = insertedNodes as := by
      rw [World.run_inserted hu, heq]
      rfl
    have hinit : (World.init lsmtInit).Inv [] := @World.inv_of_run [] (by simp) _ rfl
    exact ⟨hins, World.CodesOk.run hinit (by simp [World.CodesOk, World.init]) hcs hu
      (hins ▸ hfresh)⟩
  obtain ⟨hvn, hvcodes⟩ := hnodes as v has hv rfl
  obtain ⟨hwn, hwcodes⟩ := hnodes bs w hbs hw hsame
  refine ⟨by rw [hvcodes.codes_eq, hwcodes.codes_eq, hvn, hwn], fun hvq hwq startKey endKey => ?_⟩
  refine ⟨recordsOf (insertedNodes as) startKey endKey, ?_, ?_⟩
  · rw [← hvn]
    exact hvq.scan_eq_recordsOf (World.inv_of_run has hv) hvcodes (hvn ▸ hfresh) startKey endKey
  · rw [← hwn]
    exact hwq.scan_eq_recordsOf (World.inv_of_run hbs hw) hwcodes (hwn ▸ hfresh) startKey endKey

/-- A call of `lsmt_flush` with all steps of the flush daemon until it returns. -/
def flushSteps : List Action :=
  [.flush, .flushCall 0, .flushCall 0] ++ List.replicate 8 .flushDaemon ++ [.flushCall 0]

theorem sound_flushSteps : ∀ a ∈ flushSteps, a.Sound := by
  simp [flushSteps, Action.Sound]

/-- One insertion, with and without a flush behind it. -/
theorem flush_transparent_one_insert : ∃ v w : World,
    run World.step (World.init lsmtInit) [.insert ⟨1, 0⟩ (encodeData 1 [7])] = some v ∧
    run World.step (World.init lsmtInit) (.insert ⟨1, 0⟩ (encodeData 1 [7]) :: flushSteps) =
      some w ∧
    ∀ startKey endKey, ∃ rs, lsmtScan v.lsmt startKey endKey = some rs ∧
      lsmtScan w.lsmt startKey endKey = some rs := by
  have hcontent : SelfConsistent (encodeData 1 [7]) := by decide
  refine ⟨_, _, rfl, rfl, ?_⟩
  refine (@flush_transparent [.insert ⟨1, 0⟩ (encodeData 1 [7])]
    (.insert ⟨1, 0⟩ (encodeData 1 [7]) :: flushSteps) ?_ ?_ _ _ rfl rfl rfl ?_).scans ?_ ?_
  · simpa [Action.Sound] using hcontent
  · simpa [Action.Sound] using ⟨hcontent, sound_flushSteps⟩
  · show ([⟨1, 0⟩] : List SlUint128).Nodup
    simp
  · exact ⟨rfl, rfl, rfl⟩
  · exact ⟨rfl, rfl, rfl⟩

/-- A key inserted twice: the second insertion is refused unless a flush comes between the two. -/
theorem flush_transparent_fails : ¬ ∀ (as bs : List Action) (v w : World),
    (∀ a ∈ as, a.Sound) → (∀ b ∈ bs, b.Sound) →
      run World.step (World.init lsmtInit) as = some v →
      run World.step (World.init lsmtInit) bs = some w → insertedNodes as = insertedNodes bs →
        v.Alike w := by
  intro hall
  have hcontent : SelfConsistent (encodeData 1 [7]) ∧ SelfConsistent (encodeData 1 [8]) := by
    decide
  have halike := hall [.insert ⟨1, 0⟩ (encodeData 1 [7]), .insert ⟨1, 0⟩ (encodeData 1 [8])]
    [.insert ⟨1, 0⟩ (encodeData 1 [7]), .flush, .insert ⟨1, 0⟩ (encodeData 1 [8])] _ _
    (by simpa [Action.Sound] using hcontent) (by simpa [Action.Sound] using hcontent) rfl rfl rfl
  have hcodes := congrArg (List.map Prod.snd) halike.codes
  exact absurd hcodes (by decide)

/-! ## Unique keys -/

/-- Strictly increasing full scans leave no key twice in the SSTs. -/
theorem World.Inv.nodup_of_scan {w : World} (h : w.Inv []) {out : List KvRawRecord}
    (hout : lsmtScan w.lsmt SlUint128.zero SlUint128.max = some out)
    (hstrict : StrictBy KvRawRecord.key out) :
    ((sstRecords w.lsmt.metadata.records).map KvRawRecord.key).Nodup := by
  have hscan : Scannable w.lsmt.metadata.records SlUint128.zero :=
    fun sst hsst => Or.inr (h.ssts sst hsst).holds.pos
  obtain ⟨rs, hrs, hsst⟩ := lsmtScan_eq h.memtable h.ssts SlUint128.zero SlUint128.max
  have hperm := hsst.perm hscan
  rw [hout] at hrs
  cases hrs
  have hall : rangeFilter KvRawRecord.key SlUint128.zero SlUint128.max
      (sstRecords w.lsmt.metadata.records) = sstRecords w.lsmt.metadata.records :=
    rangeFilter_eq_self fun r _ => ⟨SlUint128.zero_le _, SlUint128.le_max _⟩
  rw [hall] at hperm
  rw [← (hperm.map KvRawRecord.key).nodup_iff]
  exact (StrictBy.of_shadowMerge _ _ hstrict).nodup_keys

/-- At rest, every scan is strictly increasing exactly when no key has been flushed twice. -/
theorem strict_scans_iff {as : List Action} (has : ∀ a ∈ as, a.Sound) {w : World}
    (hrun : run World.step (World.init lsmtInit) as = some w) (hq : w.Quiescent) :
    (∀ startKey endKey, ∃ out, lsmtScan w.lsmt startKey endKey = some out ∧
        StrictBy KvRawRecord.key out) ↔
      ((sstRecords w.flushed).map KvRawRecord.key).Nodup := by
  have h := World.inv_of_run has hrun
  rw [← ((hq.registered_perm h).map KvRawRecord.key).nodup_iff]
  constructor
  · intro hall
    obtain ⟨out, hout, hstrict⟩ := hall SlUint128.zero SlUint128.max
    exact h.nodup_of_scan hout hstrict
  · intro hnodup startKey endKey
    obtain ⟨rs, hrs, hstrict, -⟩ := h.scan_strict hnodup startKey endKey
    exact ⟨_, hrs, hstrict⟩

/-- Insert a record, flush it, and insert another one under the same key. -/
def reinsertion : List Action :=
  .insert ⟨1, 0⟩ (encodeData 1 [7]) :: (flushSteps ++ [.insert ⟨1, 0⟩ (encodeData 1 [8])])

theorem sound_reinsertion : ∀ a ∈ reinsertion, a.Sound := by
  have hcontent : SelfConsistent (encodeData 1 [7]) ∧ SelfConsistent (encodeData 1 [8]) := by
    decide
  simpa [reinsertion, Action.Sound, or_imp, forall_and] using
    ⟨hcontent.1, sound_flushSteps, hcontent.2⟩

theorem run_reinsertion : ∃ w, run World.step (World.init lsmtInit) reinsertion = some w ∧
    w.Quiescent ∧ w.accepted = [(⟨1, 0⟩, encodeData 1 [7]), (⟨1, 0⟩, encodeData 1 [8])] ∧
    w.lsmt.memtable.bottomLevel = [(⟨1, 0⟩, encodeData 1 [8])] :=
  ⟨_, rfl, ⟨rfl, rfl, rfl⟩, rfl, rfl⟩

theorem run_reinsertion_flush : ∃ w,
    run World.step (World.init lsmtInit) (reinsertion ++ flushSteps) = some w ∧
    w.Quiescent ∧ w.accepted = [(⟨1, 0⟩, encodeData 1 [7]), (⟨1, 0⟩, encodeData 1 [8])] ∧
    w.lsmt.memtable.bottomLevel = [] :=
  ⟨_, rfl, ⟨rfl, rfl, rfl⟩, rfl, rfl⟩

/-- A key flushed once and inserted again is read once, from the memtable. -/
theorem strict_scans_after_reinsertion : ∃ w : World,
    run World.step (World.init lsmtInit) reinsertion = some w ∧
    ∀ startKey endKey, ∃ out, lsmtScan w.lsmt startKey endKey = some out ∧
      StrictBy KvRawRecord.key out := by
  obtain ⟨w, hrun, hq, hacc, hmem⟩ := run_reinsertion
  refine ⟨w, hrun, (strict_scans_iff sound_reinsertion hrun hq).mpr ?_⟩
  -- one of the two accepted records is in the memtable, so one has been flushed
  have hlen := (hq.flushed_perm (World.inv_of_run sound_reinsertion hrun)).length_eq
  simp only [hacc, Sl.records, hmem, List.map_cons, List.map_nil, List.length_append,
    List.length_cons, List.length_nil] at hlen
  obtain ⟨r, hr⟩ := List.length_eq_one_iff.mp (Nat.add_left_cancel hlen.symm)
  rw [hr]
  exact List.nodup_singleton r.key

/-- A key inserted and flushed twice: a scan returns it twice. -/
theorem strict_scans_fail : ¬ ∀ (as : List Action) (w : World), (∀ a ∈ as, a.Sound) →
    run World.step (World.init lsmtInit) as = some w → w.Quiescent →
      ∀ startKey endKey, ∃ out, lsmtScan w.lsmt startKey endKey = some out ∧
        StrictBy KvRawRecord.key out := by
  intro hall
  obtain ⟨w, hrun, hq, hacc, hmem⟩ := run_reinsertion_flush
  have hsound : ∀ a ∈ reinsertion ++ flushSteps, a.Sound := by
    simpa [or_imp, forall_and] using ⟨sound_reinsertion, sound_flushSteps⟩
  have hinv := World.inv_of_run hsound hrun
  obtain ⟨out, hout, hstrict⟩ := hall _ w hsound hrun hq SlUint128.zero SlUint128.max
  have hnodup := hinv.nodup_of_scan hout hstrict
  have hperm := hq.accepted_perm hinv
  rw [hacc, Sl.records, hmem, List.map_nil, List.nil_append] at hperm
  rw [← (hperm.map KvRawRecord.key).nodup_iff] at hnodup
  simp at hnodup

end RaftLsmt.Lsmt
