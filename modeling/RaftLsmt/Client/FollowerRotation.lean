import RaftLsmt.Client.RoutingStrategies
import RaftLsmt.Lib.Rotation
import RaftLsmt.Lib.StepMachine
import Mathlib.Logic.Function.Basic

/-!
# The rotation of the followers

Threads route queries with one strategy object and share its indices. A call takes its clusters one
behind the other, and only the choice of a follower is made under the lock, so the choices of several
calls mix in any order. `step` lets one thread start a call or make its next choice.

`follower_rotation` is about a cluster that has followers: they take turns, whatever the other clusters
are asked in between. An undisturbed call is `getNodeQuery` (`run_call_alone`).
-/

set_option autoImplicit false

namespace RaftLsmt.Client

open RaftLsmt.Lib.OrderedDict
open RaftLsmt.Lib.Rotation
open RaftLsmt.Lib.StepMachine

/-- The followers of `_select_follower_round_robin`. -/
def followers (nodes : List Node) (leader : Option Node) : List Node :=
  nodes.filter fun n => some n ≠ leader

/-- The stored index of a cluster. -/
def queryIndex (queryIndices : Dict String Nat) (clusterName : String) : Nat :=
  (queryIndices.get clusterName).getD 0

/-- With followers the one at the index is chosen, and the index moves on. -/
theorem selectFollowerRoundRobin_of_followers {clusterName : String} {nodes : List Node}
    {leader : Option Node} {queryIndices : Dict String Nat} (h : followers nodes leader ≠ []) :
    selectFollowerRoundRobin clusterName nodes leader queryIndices =
      ((followers nodes leader)[queryIndex queryIndices clusterName % (followers nodes leader).length]?,
        queryIndices.set clusterName
          ((queryIndex queryIndices clusterName + 1) % (followers nodes leader).length)) :=
  if_neg h

/-- The indices of the other clusters stay. -/
theorem queryIndex_selectFollowerRoundRobin_of_ne {clusterName other : String} {nodes : List Node}
    {leader : Option Node} {queryIndices : Dict String Nat} (h : other ≠ clusterName) :
    queryIndex (selectFollowerRoundRobin clusterName nodes leader queryIndices).2 other =
      queryIndex queryIndices other := by
  unfold selectFollowerRoundRobin queryIndex
  simp only
  split
  · rfl
  · rw [Dict.get_set_of_ne h]

/-- The clusters that a call selects a node of, one behind the other. -/
def RoutingStrategy.asked (topology : Topology) (minId maxId : Int) :
    RoutingStrategy → Except RoutingError (List (String × List Node))
  | .range maxKeyspace =>
    let numClusters := topology.clusterNames.length
    if numClusters = 0 then .ok []
    else
      match RangeRoutingStrategy.chunkSize maxKeyspace numClusters with
      | .error e => .error e
      | .ok chunkSize => .ok (RangeRoutingStrategy.asked topology chunkSize minId maxId)
  | _ => .ok topology.clusters.entries

/-- A call selects a node of each cluster that it asks. -/
theorem RoutingStrategy.getNodeQuery_eq (strategy : RoutingStrategy) (topology : Topology)
    (registry : LeaderRegistry) (queryIndices : Dict String Nat) (minId maxId : Int) :
    strategy.getNodeQuery topology registry queryIndices minId maxId =
      (strategy.asked topology minId maxId).map fun clusters =>
        Client.getNodeQuery registry.getLeader clusters queryIndices := by
  cases strategy with
  | range maxKeyspace =>
    simp only [getNodeQuery, asked, RangeRoutingStrategy.getNodeQuery]
    split
    · rfl
    · cases RangeRoutingStrategy.chunkSize maxKeyspace topology.clusterNames.length with
      | error e => rfl
      | ok chunkSize => rfl
  | hash => rfl
  | roundRobin counter => rfl
  | leader => rfl

theorem RoutingStrategy.mem_entries_of_asked {strategy : RoutingStrategy} {topology : Topology}
    {minId maxId : Int} {clusters : List (String × List Node)}
    (h : strategy.asked topology minId maxId = .ok clusters) :
    ∀ p ∈ clusters, p ∈ topology.clusters.entries := by
  intro p hp
  cases strategy with
  | range maxKeyspace =>
    simp only [asked] at h
    split at h
    · cases h
      cases hp
    · split at h
      · cases h
      · cases h
        exact RangeRoutingStrategy.mem_entries_of_mem_asked hp
  | hash | roundRobin counter | leader =>
    cases h
    exact hp

/-! ## Calls of several threads -/

/-- A strategy object with the calls under way: the clusters that the loop of each thread still asks,
the nodes it has collected, and all choices made so far in their order. -/
structure RoutingState where
  queryIndices : Dict String Nat
  remaining : Nat → List (String × List Node)
  nodesToQuery : Nat → List Node
  selections : List (String × Option Node)

/-- What a thread does. -/
inductive RoutingAction where
  | call (thread : Nat) (minId maxId : Int)
  | select (thread : Nat)

namespace RoutingState

/-- No call is under way. -/
def init (queryIndices : Dict String Nat) : RoutingState where
  queryIndices := queryIndices
  remaining _ := []
  nodesToQuery _ := []
  selections := []

/-- The choices made for a cluster. -/
def selectionsOf (s : RoutingState) (clusterName : String) : List (Option Node) :=
  (s.selections.filter fun p => p.1 = clusterName).map Prod.snd

/-- A call that is refused raises before the first choice. -/
def step (strategy : RoutingStrategy) (topology : Topology) (registry : LeaderRegistry)
    (s : RoutingState) : RoutingAction → Option RoutingState
  | .call thread minId maxId =>
    if s.remaining thread = [] then
      match strategy.asked topology minId maxId with
      | .error _ => some s
      | .ok clusters =>
        some { s with
          remaining := Function.update s.remaining thread clusters
          nodesToQuery := Function.update s.nodesToQuery thread [] }
    else none
  | .select thread =>
    match s.remaining thread with
    | [] => none
    | (clusterName, nodes) :: clusters =>
      let (selected, queryIndices) :=
        selectFollowerRoundRobin clusterName nodes (registry.getLeader clusterName) s.queryIndices
      some
        { queryIndices := queryIndices
          remaining := Function.update s.remaining thread clusters
          nodesToQuery :=
            Function.update s.nodesToQuery thread (s.nodesToQuery thread ++ selected.toList)
          selections := s.selections ++ [(clusterName, selected)] }

section

variable {strategy : RoutingStrategy} {topology : Topology} {registry : LeaderRegistry}

/-- A thread that runs alone collects the nodes of `getNodeQuery`. -/
theorem run_select_alone (strategy : RoutingStrategy) (topology : Topology)
    (registry : LeaderRegistry) (thread : Nat) {s : RoutingState}
    {clusters : List (String × List Node)} (h : s.remaining thread = clusters) :
    ∃ t, run (step strategy topology registry) s
        (List.replicate clusters.length (.select thread)) = some t ∧
      t.remaining thread = [] ∧
      t.nodesToQuery thread =
        s.nodesToQuery thread ++ (getNodeQuery registry.getLeader clusters s.queryIndices).1 ∧
      t.queryIndices = (getNodeQuery registry.getLeader clusters s.queryIndices).2 := by
  induction clusters generalizing s with
  | nil => exact ⟨s, rfl, h, (List.append_nil _).symm, rfl⟩
  | cons p clusters ih =>
    obtain ⟨clusterName, nodes⟩ := p
    have hstep : ∃ m, step strategy topology registry s (.select thread) = some m ∧
        m.remaining thread = clusters ∧
        m.nodesToQuery thread = s.nodesToQuery thread ++
          (selectFollowerRoundRobin clusterName nodes (registry.getLeader clusterName)
            s.queryIndices).1.toList ∧
        m.queryIndices = (selectFollowerRoundRobin clusterName nodes
          (registry.getLeader clusterName) s.queryIndices).2 := by
      simp only [step, h]
      exact ⟨_, rfl, Function.update_self _ _ _, Function.update_self _ _ _, rfl⟩
    obtain ⟨m, hm, hremaining, hnodes, hindices⟩ := hstep
    obtain ⟨t, ht, hdone, hcollected, hend⟩ := ih hremaining
    refine ⟨t, run_cons_eq_some.mpr ⟨m, hm, ht⟩, hdone, ?_, ?_⟩
    · rw [hcollected, hnodes, hindices, List.append_assoc]
      rfl
    · rw [hend, hindices]
      rfl

/-- An undisturbed call collects what `get_node_query` returns and leaves its indices behind. -/
theorem run_call_alone {s : RoutingState} {thread : Nat} (hidle : s.remaining thread = [])
    {minId maxId : Int} {nodes : List Node} {queryIndices : Dict String Nat}
    (h : strategy.getNodeQuery topology registry s.queryIndices minId maxId =
      .ok (nodes, queryIndices)) :
    ∃ n t, run (step strategy topology registry) s
        (.call thread minId maxId :: List.replicate n (.select thread)) = some t ∧
      t.remaining thread = [] ∧ t.nodesToQuery thread = nodes ∧ t.queryIndices = queryIndices := by
  rw [RoutingStrategy.getNodeQuery_eq] at h
  cases hasked : strategy.asked topology minId maxId with
  | error e =>
    rw [hasked] at h
    cases h
  | ok clusters =>
    rw [hasked] at h
    have hresult := Except.ok.inj h
    let m : RoutingState := { s with
      remaining := Function.update s.remaining thread clusters
      nodesToQuery := Function.update s.nodesToQuery thread [] }
    have hstep : step strategy topology registry s (.call thread minId maxId) = some m := by
      simp only [step, if_pos hidle, hasked]
      rfl
    have hremaining : m.remaining thread = clusters := Function.update_self _ _ _
    have hnodes : m.nodesToQuery thread = [] := Function.update_self _ _ _
    obtain ⟨t, ht, hdone, hcollected, hindices⟩ :=
      run_select_alone strategy topology registry thread hremaining
    refine ⟨clusters.length, t, run_cons_eq_some.mpr ⟨m, hstep, ht⟩, hdone, ?_, ?_⟩
    · rw [hcollected, hnodes, List.nil_append]
      exact congrArg Prod.fst hresult
    · rw [hindices]
      exact congrArg Prod.snd hresult

/-! ## The turns of a cluster -/

/-- The loops ask clusters of the topology, and each cluster with followers has gone through as many
turns as there were choices for it. -/
structure Rotates (topology : Topology) (registry : LeaderRegistry) (start : Dict String Nat)
    (s : RoutingState) : Prop where
  remaining : ∀ thread, ∀ p ∈ s.remaining thread, p ∈ topology.clusters.entries
  index : ∀ clusterName nodes, (clusterName, nodes) ∈ topology.clusters.entries →
    followers nodes (registry.getLeader clusterName) ≠ [] →
      queryIndex s.queryIndices clusterName %
          (followers nodes (registry.getLeader clusterName)).length =
        (queryIndex start clusterName + (s.selectionsOf clusterName).length) %
          (followers nodes (registry.getLeader clusterName)).length
  selections : ∀ clusterName nodes, (clusterName, nodes) ∈ topology.clusters.entries →
    followers nodes (registry.getLeader clusterName) ≠ [] →
      s.selectionsOf clusterName =
        turns (followers nodes (registry.getLeader clusterName)) (queryIndex start clusterName)
          (s.selectionsOf clusterName).length

theorem rotates_init (topology : Topology) (registry : LeaderRegistry) (start : Dict String Nat) :
    Rotates topology registry start (init start) where
  remaining := by
    intro thread p hp
    cases hp
  index := by
    intro clusterName nodes _ _
    rfl
  selections := by
    intro clusterName nodes _ _
    rfl

theorem mem_update {remaining : Nat → List (String × List Node)}
    {entries clusters : List (String × List Node)}
    (hall : ∀ thread, ∀ p ∈ remaining thread, p ∈ entries) (thread : Nat)
    (hnew : ∀ p ∈ clusters, p ∈ entries) :
    ∀ other, ∀ p ∈ Function.update remaining thread clusters other, p ∈ entries := by
  intro other p hp
  by_cases hother : other = thread
  · subst hother
    rw [Function.update_self] at hp
    exact hnew p hp
  · rw [Function.update_of_ne hother] at hp
    exact hall other p hp

theorem Rotates.call {start : Dict String Nat} {s t : RoutingState} {thread : Nat}
    {minId maxId : Int} (hs : Rotates topology registry start s)
    (h : step strategy topology registry s (.call thread minId maxId) = some t) :
    Rotates topology registry start t := by
  simp only [step] at h
  split at h
  · split at h
    · cases h
      exact hs
    · rename_i clusters hasked
      cases h
      exact ⟨mem_update hs.remaining thread (RoutingStrategy.mem_entries_of_asked hasked), hs.index,
        hs.selections⟩
  · cases h

theorem Rotates.select {start : Dict String Nat} {s t : RoutingState} {thread : Nat}
    (hs : Rotates topology registry start s)
    (h : step strategy topology registry s (.select thread) = some t) :
    Rotates topology registry start t := by
  simp only [step] at h
  split at h
  · cases h
  · rename_i clusterName nodes clusters hthread
    have hentry : (clusterName, nodes) ∈ topology.clusters.entries :=
      hs.remaining thread _ (hthread ▸ List.mem_cons_self)
    -- the other clusters keep their index and their choices
    have hother : ∀ other, other ≠ clusterName →
        queryIndex t.queryIndices other = queryIndex s.queryIndices other ∧
          t.selectionsOf other = s.selectionsOf other := by
      intro other hne
      cases h
      refine ⟨queryIndex_selectFollowerRoundRobin_of_ne hne, ?_⟩
      simp [selectionsOf, hne.symm]
    -- the cluster itself takes its next turn
    have hself : followers nodes (registry.getLeader clusterName) ≠ [] →
        queryIndex t.queryIndices clusterName =
          (queryIndex s.queryIndices clusterName + 1) %
            (followers nodes (registry.getLeader clusterName)).length ∧
        t.selectionsOf clusterName = s.selectionsOf clusterName ++
          [(followers nodes (registry.getLeader clusterName))[queryIndex s.queryIndices clusterName %
            (followers nodes (registry.getLeader clusterName)).length]?] := by
      intro hfollowers
      rw [selectFollowerRoundRobin_of_followers hfollowers] at h
      cases h
      constructor
      · simp [queryIndex]
      · simp [selectionsOf]
    have hturn : ∀ name nodes', (name, nodes') ∈ topology.clusters.entries →
        followers nodes' (registry.getLeader name) ≠ [] →
        queryIndex t.queryIndices name % (followers nodes' (registry.getLeader name)).length =
            (queryIndex start name + (t.selectionsOf name).length) %
              (followers nodes' (registry.getLeader name)).length ∧
          t.selectionsOf name = turns (followers nodes' (registry.getLeader name))
            (queryIndex start name) (t.selectionsOf name).length := by
      intro name nodes' hmem hfollowers
      by_cases heq : name = clusterName
      · subst heq
        obtain rfl : nodes' = nodes := Dict.eq_of_mem_entries hmem hentry
        obtain ⟨hindex, hchosen⟩ := hself hfollowers
        rw [hindex, hchosen, List.length_append, List.length_singleton]
        constructor
        · rw [Nat.mod_mod, ← Nat.add_assoc, Nat.add_mod, hs.index name nodes' hmem hfollowers,
            ← Nat.add_mod]
        · rw [turns_succ, ← hs.selections name nodes' hmem hfollowers,
            hs.index name nodes' hmem hfollowers]
      · obtain ⟨hindex, hchosen⟩ := hother name heq
        rw [hindex, hchosen]
        exact ⟨hs.index name nodes' hmem hfollowers, hs.selections name nodes' hmem hfollowers⟩
    refine ⟨?_, fun name nodes' hmem hfollowers => (hturn name nodes' hmem hfollowers).1,
      fun name nodes' hmem hfollowers => (hturn name nodes' hmem hfollowers).2⟩
    cases h
    apply mem_update hs.remaining thread
    intro p hp
    apply hs.remaining thread
    rw [hthread]
    exact List.mem_cons_of_mem _ hp

theorem rotates_of_run {start : Dict String Nat} {s : RoutingState} {actions : List RoutingAction}
    (h : run (step strategy topology registry) (init start) actions = some s) :
    Rotates topology registry start s := by
  have hstep : ∀ (s : RoutingState) (action : RoutingAction) (t : RoutingState), True →
      Rotates topology registry start s → step strategy topology registry s action = some t →
      Rotates topology registry start t := by
    intro s action t _ hs hstep
    cases action with
    | call thread minId maxId => exact hs.call hstep
    | select thread => exact hs.select hstep
  exact run_invariant hstep (fun _ _ => trivial) (rotates_init topology registry start) h

/-- A cluster with followers, and any run of calls with the topology and the leaders fixed: the choices
for the cluster are its followers in turn from the stored index on, so as many consecutive ones as there
are followers are each follower once; the leader is not among them; and another run, whatever it asks of
the other clusters, makes the same choices for the cluster as far as both go. -/
theorem follower_rotation (strategy : RoutingStrategy) (topology : Topology)
    (registry : LeaderRegistry) (start : Dict String Nat) {clusterName : String} {nodes : List Node}
    (hcluster : (clusterName, nodes) ∈ topology.clusters.entries)
    (hfollowers : followers nodes (registry.getLeader clusterName) ≠ [])
    {actions : List RoutingAction} {s : RoutingState}
    (h : run (step strategy topology registry) (init start) actions = some s) :
    s.selectionsOf clusterName =
        turns (followers nodes (registry.getLeader clusterName)) (queryIndex start clusterName)
          (s.selectionsOf clusterName).length ∧
      (∀ k, k + (followers nodes (registry.getLeader clusterName)).length ≤
          (s.selectionsOf clusterName).length →
        (((s.selectionsOf clusterName).drop k).take
            (followers nodes (registry.getLeader clusterName)).length).Perm
          ((followers nodes (registry.getLeader clusterName)).map some)) ∧
      (∀ selected ∈ s.selectionsOf clusterName,
        ∃ n ∈ nodes, selected = some n ∧ registry.getLeader clusterName ≠ some n) ∧
      ∀ (start' : Dict String Nat) (actions' : List RoutingAction) (s' : RoutingState),
        start'.get clusterName = start.get clusterName →
        run (step strategy topology registry) (init start') actions' = some s' →
        (s.selectionsOf clusterName).length ≤ (s'.selectionsOf clusterName).length →
        s.selectionsOf clusterName <+: s'.selectionsOf clusterName := by
  have hturns := (rotates_of_run h).selections clusterName nodes hcluster hfollowers
  refine ⟨hturns, ?_, ?_, ?_⟩
  · intro k hk
    rw [hturns]
    exact turns_window _ _ hk
  · intro selected hselected
    rw [hturns] at hselected
    obtain ⟨n, hn, rfl⟩ := mem_turns hfollowers hselected
    obtain ⟨hmem, hne⟩ := List.mem_filter.mp hn
    exact ⟨n, hmem, rfl, fun hleader => of_decide_eq_true hne hleader.symm⟩
  · intro start' actions' s' hstart h' hle
    have hturns' := (rotates_of_run h').selections clusterName nodes hcluster hfollowers
    have hindex : queryIndex start' clusterName = queryIndex start clusterName :=
      congrArg (fun i => i.getD 0) hstart
    rw [hturns, hturns', hindex]
    exact turns_prefix _ _ hle

/-- A cluster of three nodes and one of two. -/
def twoClusters : Topology where
  clusters :=
    ⟨[("A", [⟨"A", 1, "a", 18091⟩, ⟨"A", 2, "a", 18092⟩, ⟨"A", 3, "a", 18093⟩]),
      ("B", [⟨"B", 1, "b", 18091⟩, ⟨"B", 2, "b", 18092⟩])], by decide⟩
  nodes_ne_nil := by decide
  clusterName_eq := by decide
  length_lt := by decide

/-- Two threads whose choices mix; the first node leads the first cluster. -/
theorem follower_rotation_twoThreads :
    ∃ s, run (step .hash twoClusters (LeaderRegistry.init.setLeader ⟨"A", 1, "a", 18091⟩))
        (init Dict.empty)
        [.call 0 1 10, .call 1 1 10, .select 0, .select 1, .select 1, .call 1 1 10, .select 1,
          .select 0] = some s ∧
      s.selectionsOf "A" =
        [some ⟨"A", 2, "a", 18092⟩, some ⟨"A", 3, "a", 18093⟩, some ⟨"A", 2, "a", 18092⟩] := by
  obtain ⟨s, hs, hlength⟩ : ∃ s, run
      (step .hash twoClusters (LeaderRegistry.init.setLeader ⟨"A", 1, "a", 18091⟩))
        (init Dict.empty)
        [.call 0 1 10, .call 1 1 10, .select 0, .select 1, .select 1, .call 1 1 10, .select 1,
          .select 0] = some s ∧ (s.selectionsOf "A").length = 3 :=
    ⟨_, rfl, by decide⟩
  have hcluster : ("A", [⟨"A", 1, "a", 18091⟩, ⟨"A", 2, "a", 18092⟩, ⟨"A", 3, "a", 18093⟩]) ∈
      twoClusters.clusters.entries := by decide
  refine ⟨s, hs, ?_⟩
  have hturns := (follower_rotation .hash twoClusters
    (LeaderRegistry.init.setLeader ⟨"A", 1, "a", 18091⟩) Dict.empty hcluster (by decide) hs).1
  rw [hlength] at hturns
  exact hturns

end

end RoutingState

end RaftLsmt.Client
