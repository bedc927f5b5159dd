import RaftLsmt.Lib.OrderedDict

/-!
# Routing of queries

The nodes of the clusters, and how the strategies choose the node of each cluster that gets a query:
the followers take turns. `getNodeQuery` chooses at most one node of every cluster.
-/

set_option autoImplicit false

namespace RaftLsmt.Client

open RaftLsmt.Lib.OrderedDict

/-- `Node`. -/
structure Node where
  clusterName : String
  id : Nat
  host : String
  port : Nat
  deriving DecidableEq

/-- `QueryRequest`. -/
structure QueryRequest where
  minId : Nat
  minTs : Nat
  maxId : Nat
  maxTs : Nat
  queryId : Nat
  deriving DecidableEq

/-- `_select_follower_round_robin`, with the next index of each cluster. -/
def selectFollowerRoundRobin (clusterName : String) (nodes : List Node) (leader : Option Node)
    (indices : Dict String Nat) : Option Node × Dict String Nat :=
  let followers := nodes.filter fun n => some n ≠ leader
  if followers = [] then (leader.or nodes.head?, indices)
  else
    let idx := (indices.get clusterName).getD 0
    (followers[idx % followers.length]?, indices.set clusterName ((idx + 1) % followers.length))

/-- `get_node_query`: the loop over the clusters that are asked. -/
def getNodeQuery (leaderOf : String → Option Node) :
    List (String × List Node) → Dict String Nat → List Node × Dict String Nat
  | [], indices => ([], indices)
  | (clusterName, nodes) :: clusters, indices =>
    let (selected, indices) :=
      selectFollowerRoundRobin clusterName nodes (leaderOf clusterName) indices
    let (nodesToQuery, indices) := getNodeQuery leaderOf clusters indices
    (selected.toList ++ nodesToQuery, indices)

/-- A follower is chosen from the nodes of the cluster; without followers it is the leader. -/
theorem selectFollowerRoundRobin_mem {clusterName : String} {nodes : List Node}
    {leader : Option Node} {indices : Dict String Nat} {n : Node}
    (h : (selectFollowerRoundRobin clusterName nodes leader indices).1 = some n) :
    n ∈ nodes ∨ leader = some n := by
  unfold selectFollowerRoundRobin at h
  simp only at h
  split at h
  · rcases Option.or_eq_some_iff.mp h with hleader | ⟨-, hhead⟩
    · exact Or.inr hleader
    · exact Or.inl (List.mem_of_mem_head? hhead)
  · exact Or.inl (List.mem_filter.mp (List.mem_of_getElem? h)).1

/-- A query goes to at most one node of each cluster. -/
theorem getNodeQuery_clusterNames (leaderOf : String → Option Node)
    (hleader : ∀ clusterName n, leaderOf clusterName = some n → n.clusterName = clusterName)
    {clusters : List (String × List Node)}
    (hclusters : ∀ p ∈ clusters, ∀ n ∈ p.2, n.clusterName = p.1) (indices : Dict String Nat) :
    ((getNodeQuery leaderOf clusters indices).1.map Node.clusterName).Sublist
      (clusters.map Prod.fst) := by
  induction clusters generalizing indices with
  | nil => exact List.Sublist.refl _
  | cons p clusters ih =>
    obtain ⟨clusterName, nodes⟩ := p
    have hrest := ih (fun p hp => hclusters p (List.mem_cons_of_mem _ hp))
    unfold getNodeQuery
    simp only
    cases hselected :
        (selectFollowerRoundRobin clusterName nodes (leaderOf clusterName) indices).1 with
    | none => exact (hrest _).cons clusterName
    | some n =>
      have hname : n.clusterName = clusterName := by
        rcases selectFollowerRoundRobin_mem hselected with hmem | hlead
        · exact hclusters (clusterName, nodes) List.mem_cons_self n hmem
        · exact hleader clusterName n hlead
      simp only [Option.toList_some, List.singleton_append, List.map_cons, hname]
      exact (hrest _).cons_cons clusterName

theorem nodup_getNodeQuery (leaderOf : String → Option Node)
    (hleader : ∀ clusterName n, leaderOf clusterName = some n → n.clusterName = clusterName)
    {clusters : Dict String (List Node)}
    (hclusters : ∀ p ∈ clusters.entries, ∀ n ∈ p.2, n.clusterName = p.1)
    (indices : Dict String Nat) :
    ((getNodeQuery leaderOf clusters.entries indices).1.map Node.clusterName).Nodup :=
  clusters.nodup.sublist (getNodeQuery_clusterNames leaderOf hleader hclusters indices)

/-- `get_nodes_for_read` on each query of a batch, one behind the other; `asked` are the clusters the
strategy asks. -/
def routeQueries (leaderOf : String → Option Node) (asked : QueryRequest → Dict String (List Node)) :
    List QueryRequest → Dict String Nat → List (List Node)
  | [], _ => []
  | query :: queries, indices =>
    let (nodes, indices) := getNodeQuery leaderOf (asked query).entries indices
    nodes :: routeQueries leaderOf asked queries indices

/-- Each query of a batch goes to at most one node of each cluster. -/
theorem nodup_routeQueries (leaderOf : String → Option Node)
    (hleader : ∀ clusterName n, leaderOf clusterName = some n → n.clusterName = clusterName)
    {asked : QueryRequest → Dict String (List Node)}
    (hasked : ∀ query, ∀ p ∈ (asked query).entries, ∀ n ∈ p.2, n.clusterName = p.1)
    (queries : List QueryRequest) (indices : Dict String Nat) :
    ∀ nodes ∈ routeQueries leaderOf asked queries indices, (nodes.map Node.clusterName).Nodup := by
  induction queries generalizing indices with
  | nil =>
    intro nodes hnodes
    cases hnodes
  | cons query queries ih =>
    intro nodes hnodes
    rcases List.mem_cons.mp hnodes with rfl | hnodes
    · exact nodup_getNodeQuery leaderOf hleader (hasked query) indices
    · exact ih _ nodes hnodes

theorem length_routeQueries (leaderOf : String → Option Node)
    (asked : QueryRequest → Dict String (List Node)) (queries : List QueryRequest)
    (indices : Dict String Nat) :
    (routeQueries leaderOf asked queries indices).length = queries.length := by
  induction queries generalizing indices with
  | nil => rfl
  | cons query queries ih => exact congrArg Nat.succ (ih _)

end RaftLsmt.Client
