import RaftLsmt.Client.Routing
import RaftLsmt.Lib.Binary64
import RaftLsmt.Lib.ByteCodec
import RaftLsmt.Lsmt.Key
import Mathlib.Data.List.Sort

/-!
# The routing strategies

A strategy chooses the cluster that a record is written to and the clusters that a query is sent to.
The hash, round robin and leader strategies send a query to every cluster. The range strategy cuts the
keys into chunks, one for each cluster in the order of their names: the insertion divides by the chunk
size and clamps, the query compares with the ends of the chunks.

`routing_covers` says that the cluster of a record is among those asked by every query whose keys
include the record's key, and that the range strategy asks no cluster in vain.
-/

set_option autoImplicit false

namespace RaftLsmt.Client

open RaftLsmt.Lib.Binary64
open RaftLsmt.Lib.ByteCodec
open RaftLsmt.Lib.OrderedDict
open RaftLsmt.Lsmt (Bytes)

/-- The exceptions of the strategies. -/
inductive RoutingError where
  | zeroDivision
  | overflow
  | index
  | struct
  deriving DecidableEq

/-- `LeaderRegistry`. -/
structure LeaderRegistry where
  leaders : Dict String (Option Node)
  clusterName_eq : ∀ p ∈ leaders.entries, ∀ n, p.2 = some n → n.clusterName = p.1

namespace LeaderRegistry

/-- `get_leader`. -/
def getLeader (registry : LeaderRegistry) (clusterName : String) : Option Node :=
  (registry.leaders.get clusterName).join

theorem clusterName_set {leaders : Dict String (Option Node)}
    (h : ∀ p ∈ leaders.entries, ∀ n, p.2 = some n → n.clusterName = p.1) {clusterName : String}
    {leader : Option Node} (hleader : ∀ n, leader = some n → n.clusterName = clusterName) :
    ∀ p ∈ (leaders.set clusterName leader).entries, ∀ n, p.2 = some n → n.clusterName = p.1 := by
  rintro ⟨name, value⟩ hp n hn
  rcases Dict.mem_setEntries.mp hp with ⟨rfl, rfl⟩ | ⟨-, hold⟩
  · exact hleader n hn
  · exact h _ hold n hn

/-- A registry that knows no leader. -/
def init : LeaderRegistry where
  leaders := Dict.empty
  clusterName_eq := by simp [Dict.empty]

/-- `set_leader`. -/
def setLeader (registry : LeaderRegistry) (node : Node) : LeaderRegistry where
  leaders := registry.leaders.set node.clusterName (some node)
  clusterName_eq := by
    apply clusterName_set registry.clusterName_eq
    intro n hn
    rw [Option.some.inj hn]

/-- `clear_cluster_leader`, and `clear_leader` with the cluster of its node. -/
def clearClusterLeader (registry : LeaderRegistry) (clusterName : String) : LeaderRegistry where
  leaders := registry.leaders.set clusterName none
  clusterName_eq := by
    apply clusterName_set registry.clusterName_eq
    intro n hn
    cases hn

theorem clusterName_of_getLeader {registry : LeaderRegistry} {clusterName : String} {n : Node}
    (h : registry.getLeader clusterName = some n) : n.clusterName = clusterName := by
  have hget : registry.leaders.get clusterName = some (some n) := Option.join_eq_some_iff.mp h
  exact registry.clusterName_eq _ (Dict.mem_entries_iff.mpr hget) n rfl

end LeaderRegistry

/-- The clusters of a `Router`: each has a node and its nodes carry its name. -/
structure Topology where
  clusters : Dict String (List Node)
  nodes_ne_nil : ∀ p ∈ clusters.entries, p.2 ≠ []
  clusterName_eq : ∀ p ∈ clusters.entries, ∀ n ∈ p.2, n.clusterName = p.1
  length_lt : clusters.entries.length < 2 ^ 63

namespace Topology

/-- `sorted(list(clusters.keys()))`. -/
def clusterNames (topology : Topology) : List String :=
  (topology.clusters.entries.map Prod.fst).insertionSort (· ≤ ·)

/-- The leader of the cluster, or its first node. -/
def targetNode (topology : Topology) (registry : LeaderRegistry) (clusterName : String) :
    Option Node :=
  (registry.getLeader clusterName).or ((topology.clusters.get clusterName).bind List.head?)

end Topology

/-- `cluster_names[i]`; a negative index counts from the end. -/
def pyIndex (clusterNames : List String) (i : Int) : Except RoutingError String :=
  let position := if 0 ≤ i then i else clusterNames.length + i
  if 0 ≤ position then
    match clusterNames[position.toNat]? with
    | some clusterName => .ok clusterName
    | none => .error .index
  else .error .index

/-! ## `RangeRoutingStrategy` -/

namespace RangeRoutingStrategy

/-- `math.ceil(self.max_keyspace / num_clusters)`. -/
def chunkSize (maxKeyspace : Int) (numClusters : Nat) : Except RoutingError Int :=
  if numClusters = 0 then .error .zeroDivision
  else if Overflows maxKeyspace.natAbs numClusters then .error .overflow
  else .ok (ceilDiv maxKeyspace numClusters)

/-- `target_idx`; keys above `max_keyspace` go to the last cluster. -/
def targetIdx (numClusters : Nat) (chunkSize keyId : Int) : Int :=
  min ((max 0 (keyId - 1)).fdiv chunkSize) (numClusters - 1)

/-- `get_node_insert`. -/
def getNodeInsert (maxKeyspace : Int) (topology : Topology) (registry : LeaderRegistry)
    (keyId : Int) : Except RoutingError (Option Node) :=
  let clusterNames := topology.clusterNames
  let numClusters := clusterNames.length
  match chunkSize maxKeyspace numClusters with
  | .error e => .error e
  | .ok chunkSize =>
    if chunkSize = 0 then .error .zeroDivision
    else
      match pyIndex clusterNames (targetIdx numClusters chunkSize keyId) with
      | .error e => .error e
      | .ok targetCluster => .ok (topology.targetNode registry targetCluster)

/-- The test of the loop of `get_node_query`; the first chunk is open below and the last one above. -/
def Overlaps (numClusters : Nat) (chunkSize minId maxId : Int) (idx : Nat) : Prop :=
  (idx + 1 = numClusters ∨ minId ≤ (idx + 1) * chunkSize) ∧ (idx = 0 ∨ idx * chunkSize + 1 ≤ maxId)

instance (numClusters : Nat) (chunkSize minId maxId : Int) (idx : Nat) :
    Decidable (Overlaps numClusters chunkSize minId maxId idx) :=
  inferInstanceAs (Decidable (_ ∧ _))

/-- The clusters that `get_node_query` selects a node of. -/
def asked (topology : Topology) (chunkSize minId maxId : Int) : List (String × List Node) :=
  let clusterNames := topology.clusterNames
  let overlapping := clusterNames.zipIdx.filter fun p =>
    Overlaps clusterNames.length chunkSize minId maxId p.2
  overlapping.map fun p => (p.1, (topology.clusters.get p.1).getD [])

/-- `get_node_query`. -/
def getNodeQuery (maxKeyspace : Int) (topology : Topology) (registry : LeaderRegistry)
    (queryIndices : Dict String Nat) (minId maxId : Int) :
    Except RoutingError (List Node × Dict String Nat) :=
  let numClusters := topology.clusterNames.length
  if numClusters = 0 then .ok ([], queryIndices)
  else
    match chunkSize maxKeyspace numClusters with
    | .error e => .error e
    | .ok chunkSize =>
      .ok (Client.getNodeQuery registry.getLeader (asked topology chunkSize minId maxId)
        queryIndices)

end RangeRoutingStrategy

/-! ## The strategies that ask every cluster -/

/-- `get_node_query` of the other strategies. -/
def getNodeQueryAll (topology : Topology) (registry : LeaderRegistry)
    (queryIndices : Dict String Nat) : Except RoutingError (List Node × Dict String Nat) :=
  .ok (getNodeQuery registry.getLeader topology.clusters.entries queryIndices)

/-- `cluster_names[n % len(cluster_names)]`. -/
def clusterModulo (clusterNames : List String) (n : Int) : Except RoutingError String :=
  if clusterNames.length = 0 then .error .zeroDivision
  else pyIndex clusterNames (n.fmod clusterNames.length)

namespace HashRoutingStrategy

/-- `struct.pack("<QQ", key_id, timestamp)`. -/
def pack (keyId timestamp : Int) : Except RoutingError Bytes :=
  if 0 ≤ keyId ∧ keyId < 2 ^ 64 ∧ 0 ≤ timestamp ∧ timestamp < 2 ^ 64 then
    .ok (leBytes 8 keyId.toNat ++ leBytes 8 timestamp.toNat)
  else .error .struct

/-- `int.from_bytes(digest, byteorder='big')`. -/
def fromBytesBig (digest : Bytes) : Nat := digest.foldl (fun h b => 256 * h + b.toNat) 0

/-- `get_node_insert`. -/
def getNodeInsert (md5 : Bytes → Bytes) (topology : Topology) (registry : LeaderRegistry)
    (keyId timestamp : Int) : Except RoutingError (Option Node) :=
  match pack keyId timestamp with
  | .error e => .error e
  | .ok val =>
    match clusterModulo topology.clusterNames (fromBytesBig (md5 val)) with
    | .error e => .error e
    | .ok targetCluster => .ok (topology.targetNode registry targetCluster)

end HashRoutingStrategy

namespace RoundRobinRoutingStrategy

/-- `get_node_insert`, with the next value of the counter. -/
def getNodeInsert (counter : Nat) (topology : Topology) (registry : LeaderRegistry) :
    Except RoutingError (Option Node × Nat) :=
  if topology.clusterNames = [] then .ok (none, counter)
  else
    match clusterModulo topology.clusterNames counter with
    | .error e => .error e
    | .ok targetCluster => .ok (topology.targetNode registry targetCluster, counter + 1)

end RoundRobinRoutingStrategy

namespace LeaderRoutingStrategy

/-- `get_node_insert`. -/
def getNodeInsert (topology : Topology) (registry : LeaderRegistry) (keyId : Int) :
    Except RoutingError (Option Node) :=
  match clusterModulo topology.clusterNames keyId with
  | .error e => .error e
  | .ok targetCluster => .ok (topology.targetNode registry targetCluster)

end LeaderRoutingStrategy

/-- A strategy in some state. -/
inductive RoutingStrategy where
  | range (maxKeyspace : Int)
  | hash
  | roundRobin (counter : Nat)
  | leader

namespace RoutingStrategy

/-- `get_node_insert`. -/
def getNodeInsert (md5 : Bytes → Bytes) (topology : Topology) (registry : LeaderRegistry)
    (keyId timestamp : Int) : RoutingStrategy → Except RoutingError (Option Node)
  | .range maxKeyspace => RangeRoutingStrategy.getNodeInsert maxKeyspace topology registry keyId
  | .hash => HashRoutingStrategy.getNodeInsert md5 topology registry keyId timestamp
  | .roundRobin counter =>
    (RoundRobinRoutingStrategy.getNodeInsert counter topology registry).map Prod.fst
  | .leader => LeaderRoutingStrategy.getNodeInsert topology registry keyId

/-- `get_node_query`. -/
def getNodeQuery (topology : Topology) (registry : LeaderRegistry)
    (queryIndices : Dict String Nat) (minId maxId : Int) :
    RoutingStrategy → Except RoutingError (List Node × Dict String Nat)
  | .range maxKeyspace =>
    RangeRoutingStrategy.getNodeQuery maxKeyspace topology registry queryIndices minId maxId
  | _ => getNodeQueryAll topology registry queryIndices

end RoutingStrategy

/-! ## The cluster of a record is asked -/

section

variable {topology : Topology} {registry : LeaderRegistry}

theorem mem_clusterNames {clusterName : String} :
    clusterName ∈ topology.clusterNames ↔ ∃ nodes, (clusterName, nodes) ∈ topology.clusters.entries := by
  unfold Topology.clusterNames
  rw [List.mem_insertionSort, List.mem_map]
  constructor
  · rintro ⟨⟨_, nodes⟩, hp, rfl⟩
    exact ⟨nodes, hp⟩
  · rintro ⟨nodes, hp⟩
    exact ⟨_, hp, rfl⟩

theorem length_clusterNames (topology : Topology) :
    topology.clusterNames.length = topology.clusters.entries.length := by
  unfold Topology.clusterNames
  rw [List.length_insertionSort, List.length_map]

/-- The chosen node of a cluster carries the name of the cluster. -/
theorem clusterName_of_targetNode {clusterName : String} {n : Node}
    (h : topology.targetNode registry clusterName = some n) : n.clusterName = clusterName := by
  rcases Option.or_eq_some_iff.mp h with hleader | ⟨-, hhead⟩
  · exact LeaderRegistry.clusterName_of_getLeader hleader
  · obtain ⟨nodes, hget, hmem⟩ := Option.bind_eq_some_iff.mp hhead
    exact topology.clusterName_eq _ (Dict.mem_entries_iff.mpr hget) n (List.mem_of_mem_head? hmem)

theorem exists_targetNode (registry : LeaderRegistry) {clusterName : String}
    (h : clusterName ∈ topology.clusterNames) :
    ∃ n, topology.targetNode registry clusterName = some n := by
  obtain ⟨nodes, hp⟩ := mem_clusterNames.mp h
  obtain ⟨n, hn⟩ := List.exists_mem_of_ne_nil nodes (topology.nodes_ne_nil _ hp)
  unfold Topology.targetNode
  rw [Dict.mem_entries_iff.mp hp, Option.bind_some]
  cases registry.getLeader clusterName with
  | some leader => exact ⟨leader, rfl⟩
  | none =>
    cases nodes with
    | nil => cases hn
    | cons n nodes => exact ⟨n, rfl⟩

theorem pyIndex_eq_ok {clusterNames : List String} {i : Int} {clusterName : String}
    (h : pyIndex clusterNames i = .ok clusterName) : clusterName ∈ clusterNames := by
  unfold pyIndex at h
  simp only at h
  generalize (if 0 ≤ i then i else ↑clusterNames.length + i) = position at h
  split at h
  · cases hget : clusterNames[position.toNat]? with
    | none =>
      rw [hget] at h
      cases h
    | some name =>
      rw [hget] at h
      cases h
      exact List.mem_of_getElem? hget
  · cases h

theorem pyIndex_natCast (clusterNames : List String) {i : Nat} (h : i < clusterNames.length) :
    pyIndex clusterNames i = .ok clusterNames[i] := by
  unfold pyIndex
  simp [h]

/-- A cluster with nodes always gives one of them. -/
theorem exists_selectFollowerRoundRobin (clusterName : String) {nodes : List Node}
    (leader : Option Node) (indices : Dict String Nat) (hnodes : nodes ≠ []) :
    ∃ n, (selectFollowerRoundRobin clusterName nodes leader indices).1 = some n := by
  unfold selectFollowerRoundRobin
  simp only
  split
  · cases leader with
    | some leader => exact ⟨leader, rfl⟩
    | none => exact ⟨nodes.head hnodes, List.head?_eq_some_head hnodes⟩
  · rename_i hfollowers
    have hpos := List.length_pos_iff.mpr hfollowers
    exact ⟨_, List.getElem?_eq_getElem (Nat.mod_lt _ hpos)⟩

/-- Each cluster that is asked, and no other, gets the query. -/
theorem clusterNames_getNodeQuery (leaderOf : String → Option Node)
    (hleader : ∀ clusterName n, leaderOf clusterName = some n → n.clusterName = clusterName)
    {clusters : List (String × List Node)} (hne : ∀ p ∈ clusters, p.2 ≠ [])
    (hclusters : ∀ p ∈ clusters, ∀ n ∈ p.2, n.clusterName = p.1) (indices : Dict String Nat) :
    (getNodeQuery leaderOf clusters indices).1.map Node.clusterName = clusters.map Prod.fst := by
  induction clusters generalizing indices with
  | nil => rfl
  | cons p clusters ih =>
    obtain ⟨clusterName, nodes⟩ := p
    have hrest := ih (fun p hp => hne p (List.mem_cons_of_mem _ hp))
      (fun p hp => hclusters p (List.mem_cons_of_mem _ hp))
    obtain ⟨n, hselected⟩ := exists_selectFollowerRoundRobin clusterName (leaderOf clusterName)
      indices (hne _ List.mem_cons_self)
    have hname : n.clusterName = clusterName := by
      rcases selectFollowerRoundRobin_mem hselected with hmem | hlead
      · exact hclusters (clusterName, nodes) List.mem_cons_self n hmem
      · exact hleader clusterName n hlead
    simp only [getNodeQuery, hselected, Option.toList_some, List.singleton_append, List.map_cons,
      hname, hrest]

/-- `get_node_query` has sent the query to some node of the cluster. -/
def Asks (answer : Except RoutingError (List Node × Dict String Nat)) (clusterName : String) : Prop :=
  ∃ nodes indices, answer = .ok (nodes, indices) ∧ clusterName ∈ nodes.map Node.clusterName

theorem asks_getNodeQueryAll (registry : LeaderRegistry) (queryIndices : Dict String Nat)
    {clusterName : String} (h : clusterName ∈ topology.clusterNames) :
    Asks (getNodeQueryAll topology registry queryIndices) clusterName := by
  refine ⟨_, _, rfl, ?_⟩
  rw [clusterNames_getNodeQuery _ (fun _ _ => LeaderRegistry.clusterName_of_getLeader)
    topology.nodes_ne_nil topology.clusterName_eq]
  obtain ⟨nodes, hp⟩ := mem_clusterNames.mp h
  exact List.mem_map_of_mem hp

/-- Taking a name modulo the number of names stays within the names. -/
theorem clusterModulo_eq_ok {clusterNames : List String} {n : Int} {clusterName : String}
    (h : clusterModulo clusterNames n = .ok clusterName) : clusterName ∈ clusterNames := by
  unfold clusterModulo at h
  split at h
  · cases h
  · exact pyIndex_eq_ok h

namespace RangeRoutingStrategy

/-- The cluster of a key is the one whose chunk holds the key. -/
theorem targetIdx_eq_iff {numClusters idx : Nat} {chunkSize keyId : Int} (hchunk : 0 < chunkSize)
    (hidx : idx < numClusters) :
    targetIdx numClusters chunkSize keyId = idx ↔
      Overlaps numClusters chunkSize keyId keyId idx := by
  unfold targetIdx Overlaps
  rw [Int.fdiv_eq_ediv_of_nonneg _ (Int.le_of_lt hchunk)]
  have hlow : (idx : Int) ≤ max 0 (keyId - 1) / chunkSize ↔
      (idx : Int) * chunkSize ≤ max 0 (keyId - 1) := Int.le_ediv_iff_mul_le hchunk
  have hhigh : max 0 (keyId - 1) / chunkSize < (idx : Int) + 1 ↔
      max 0 (keyId - 1) < ((idx : Int) + 1) * chunkSize := Int.ediv_lt_iff_lt_mul hchunk
  have hnonneg : 0 ≤ (idx : Int) * chunkSize :=
    Int.mul_nonneg (Int.natCast_nonneg idx) (Int.le_of_lt hchunk)
  have hnext : ((idx : Int) + 1) * chunkSize = (idx : Int) * chunkSize + chunkSize := by
    rw [Int.add_mul, Int.one_mul]
  have hzero : idx ≠ 0 → 0 < (idx : Int) * chunkSize := by
    intro hne
    exact Int.mul_pos (by omega) hchunk
  have hzero' : idx = 0 → (idx : Int) * chunkSize = 0 := by
    rintro rfl
    exact Int.zero_mul chunkSize
  rw [hnext] at hhigh ⊢
  generalize max 0 (keyId - 1) / chunkSize = quotient at hlow hhigh ⊢
  generalize (idx : Int) * chunkSize = start at hlow hhigh hnonneg hzero hzero' ⊢
  omega

/-- The query meets a chunk if and only if one of its keys lies in it. -/
theorem overlaps_iff {numClusters idx : Nat} {chunkSize minId maxId : Int}
    (hchunk : 0 < chunkSize) (hle : minId ≤ maxId) :
    Overlaps numClusters chunkSize minId maxId idx ↔
      ∃ keyId, minId ≤ keyId ∧ keyId ≤ maxId ∧
        Overlaps numClusters chunkSize keyId keyId idx := by
  have hnext : ((idx : Int) + 1) * chunkSize = (idx : Int) * chunkSize + chunkSize := by
    rw [Int.add_mul, Int.one_mul]
  unfold Overlaps
  rw [hnext]
  constructor
  · rintro ⟨hhigh, hlow⟩
    -- the least key of both
    by_cases hidx : idx = 0
    · exact ⟨minId, Int.le_refl _, hle, hhigh, Or.inl hidx⟩
    · have hstart := hlow.resolve_left hidx
      refine ⟨max minId ((idx : Int) * chunkSize + 1), by omega, by omega, ?_, Or.inr (by omega)⟩
      rcases hhigh with hlast | hhigh
      · exact Or.inl hlast
      · exact Or.inr (by omega)
  · rintro ⟨keyId, hmin, hmax, hhigh, hlow⟩
    refine ⟨?_, ?_⟩
    · exact hhigh.imp_right fun h => Int.le_trans hmin h
    · exact hlow.imp_right fun h => Int.le_trans h hmax

theorem chunkSize_nonneg {maxKeyspace chunk : Int} {numClusters : Nat} (hmax : 0 ≤ maxKeyspace)
    (h : chunkSize maxKeyspace numClusters = .ok chunk) : 0 ≤ chunk := by
  unfold chunkSize at h
  split at h
  · cases h
  · split at h
    · cases h
    · cases h
      exact ceilDiv_nonneg hmax numClusters

/-- A chunk has a key: the quotient of a positive number by a number of clusters is not rounded down
to zero. -/
theorem chunkSize_pos {maxKeyspace chunk : Int} {numClusters : Nat} (hmax : 1 ≤ maxKeyspace)
    (hnum : numClusters < 2 ^ 63) (h : chunkSize maxKeyspace numClusters = .ok chunk) :
    0 < chunk := by
  unfold chunkSize at h
  split at h
  · cases h
  · rename_i hzero
    split at h
    · cases h
    · cases h
      exact ceilDiv_pos hmax (Nat.pos_of_ne_zero hzero) (Nat.le_of_lt hnum) (by decide)

/-- The insertion chooses the cluster at `target_idx`. -/
theorem getNodeInsert_eq_ok_iff {maxKeyspace chunk keyId : Int} {clusterName : String}
    (hchunk : chunkSize maxKeyspace topology.clusterNames.length = .ok chunk) (hpos : 0 < chunk) :
    (∃ n, getNodeInsert maxKeyspace topology registry keyId = .ok (some n) ∧
        n.clusterName = clusterName) ↔
      ∃ idx, topology.clusterNames[idx]? = some clusterName ∧
        Overlaps topology.clusterNames.length chunk keyId keyId idx := by
  unfold getNodeInsert
  simp only [hchunk, if_neg (Int.ne_of_gt hpos)]
  constructor
  · rintro ⟨n, hn, hname⟩
    cases htarget : pyIndex topology.clusterNames
        (targetIdx topology.clusterNames.length chunk keyId) with
    | error e =>
      rw [htarget] at hn
      cases hn
    | ok targetCluster =>
      rw [htarget] at hn
      have hnode := Except.ok.inj hn
      rw [← hname, clusterName_of_targetNode hnode]
      -- the index is not negative, so it is the place of the cluster
      have hmem := pyIndex_eq_ok htarget
      have hlen : 0 < topology.clusterNames.length := List.length_pos_of_mem hmem
      have hindex : 0 ≤ targetIdx topology.clusterNames.length chunk keyId := by
        unfold targetIdx
        rw [Int.fdiv_eq_ediv_of_nonneg _ (Int.le_of_lt hpos)]
        have := Int.ediv_nonneg (Int.le_max_left 0 (keyId - 1)) (Int.le_of_lt hpos)
        omega
      obtain ⟨idx, hidx⟩ := Int.eq_ofNat_of_zero_le hindex
      have hbound : idx < topology.clusterNames.length := by
        have : targetIdx topology.clusterNames.length chunk keyId ≤
            topology.clusterNames.length - 1 := Int.min_le_right _ _
        omega
      rw [hidx, pyIndex_natCast _ hbound] at htarget
      refine ⟨idx, ?_, (targetIdx_eq_iff hpos hbound).mp hidx⟩
      rw [List.getElem?_eq_getElem hbound, Except.ok.inj htarget]
  · rintro ⟨idx, hget, hoverlaps⟩
    obtain ⟨hbound, hname⟩ := List.getElem?_eq_some_iff.mp hget
    obtain ⟨n, hn⟩ := exists_targetNode registry (List.mem_of_getElem? hget)
    rw [(targetIdx_eq_iff hpos hbound).mpr hoverlaps, pyIndex_natCast _ hbound, hname]
    exact ⟨n, congrArg Except.ok hn, clusterName_of_targetNode hn⟩

/-- The clusters that are asked are clusters of the topology. -/
theorem mem_entries_of_mem_asked {chunk minId maxId : Int} {p : String × List Node}
    (hp : p ∈ asked topology chunk minId maxId) : p ∈ topology.clusters.entries := by
  obtain ⟨⟨name, idx⟩, hmem, rfl⟩ := List.mem_map.mp hp
  have hname := List.mem_of_getElem? (List.mk_mem_zipIdx_iff_getElem?.mp (List.mem_filter.mp hmem).1)
  obtain ⟨nodes, hentry⟩ := mem_clusterNames.mp hname
  rw [Dict.mem_entries_iff.mp hentry]
  exact hentry

/-- The query goes to the clusters whose chunk it meets. -/
theorem asks_getNodeQuery_iff {maxKeyspace chunk minId maxId : Int}
    {queryIndices : Dict String Nat} {clusterName : String}
    (hchunk : chunkSize maxKeyspace topology.clusterNames.length = .ok chunk) :
    Asks (getNodeQuery maxKeyspace topology registry queryIndices minId maxId) clusterName ↔
      ∃ idx, topology.clusterNames[idx]? = some clusterName ∧
        Overlaps topology.clusterNames.length chunk minId maxId idx := by
  have hzero : topology.clusterNames.length ≠ 0 := by
    intro hzero
    rw [hzero] at hchunk
    cases hchunk
  have hentry : ∀ p ∈ asked topology chunk minId maxId, p ∈ topology.clusters.entries :=
    fun _ => mem_entries_of_mem_asked
  have hnames := clusterNames_getNodeQuery registry.getLeader
    (fun _ _ => LeaderRegistry.clusterName_of_getLeader)
    (fun p hp => topology.nodes_ne_nil p (hentry p hp))
    (fun p hp => topology.clusterName_eq p (hentry p hp)) queryIndices
  unfold getNodeQuery
  simp only [if_neg hzero, hchunk]
  constructor
  · rintro ⟨nodes, indices, heq, hmem⟩
    have hnodes := congrArg Prod.fst (Except.ok.inj heq)
    simp only at hnodes
    rw [← hnodes, hnames] at hmem
    obtain ⟨p, hp, rfl⟩ := List.mem_map.mp hmem
    obtain ⟨⟨name, idx⟩, hfilter, rfl⟩ := List.mem_map.mp hp
    obtain ⟨hplace, hoverlaps⟩ := List.mem_filter.mp hfilter
    exact ⟨idx, List.mk_mem_zipIdx_iff_getElem?.mp hplace, of_decide_eq_true hoverlaps⟩
  · rintro ⟨idx, hget, hoverlaps⟩
    refine ⟨_, _, rfl, ?_⟩
    rw [hnames]
    apply List.mem_map.mpr
    refine ⟨(clusterName, (topology.clusters.get clusterName).getD []), ?_, rfl⟩
    apply List.mem_map.mpr
    refine ⟨(clusterName, idx), ?_, rfl⟩
    apply List.mem_filter.mpr
    exact ⟨List.mk_mem_zipIdx_iff_getElem?.mpr hget, decide_eq_true hoverlaps⟩

end RangeRoutingStrategy

namespace RoutingStrategy

/-- The range strategy asks the cluster of every key of the query. -/
theorem asks_of_getNodeInsert_range {maxKeyspace : Int} {registry' : LeaderRegistry} {n : Node}
    {keyId minId maxId : Int} {queryIndices : Dict String Nat} (hmax : 0 ≤ maxKeyspace)
    (hmin : minId ≤ keyId) (hle : keyId ≤ maxId)
    (h : RangeRoutingStrategy.getNodeInsert maxKeyspace topology registry keyId = .ok (some n)) :
    Asks (RangeRoutingStrategy.getNodeQuery maxKeyspace topology registry' queryIndices minId maxId)
      n.clusterName := by
  cases hchunk : RangeRoutingStrategy.chunkSize maxKeyspace topology.clusterNames.length with
  | error e =>
    unfold RangeRoutingStrategy.getNodeInsert at h
    simp only [hchunk] at h
    cases h
  | ok chunk =>
    have hne : chunk ≠ 0 := by
      rintro rfl
      unfold RangeRoutingStrategy.getNodeInsert at h
      simp only [hchunk, if_pos] at h
      cases h
    have hnonneg := RangeRoutingStrategy.chunkSize_nonneg hmax hchunk
    have hpos : 0 < chunk := by omega
    obtain ⟨idx, hget, hoverlaps⟩ :=
      (RangeRoutingStrategy.getNodeInsert_eq_ok_iff hchunk hpos).mp ⟨n, h, rfl⟩
    apply (RangeRoutingStrategy.asks_getNodeQuery_iff hchunk).mpr
    refine ⟨idx, hget, ?_⟩
    exact (RangeRoutingStrategy.overlaps_iff hpos (Int.le_trans hmin hle)).mpr
      ⟨keyId, hmin, hle, hoverlaps⟩

theorem mem_clusterNames_of_targetNode {registry : LeaderRegistry} {clusterName : String} {n : Node}
    (hmem : clusterName ∈ topology.clusterNames)
    (h : topology.targetNode registry clusterName = some n) :
    n.clusterName ∈ topology.clusterNames := by
  rw [clusterName_of_targetNode h]
  exact hmem

/-- Every strategy writes to a cluster of the topology. -/
theorem mem_clusterNames_of_getNodeInsert {md5 : Bytes → Bytes} {strategy : RoutingStrategy}
    {keyId timestamp : Int} {n : Node}
    (h : strategy.getNodeInsert md5 topology registry keyId timestamp = .ok (some n)) :
    n.clusterName ∈ topology.clusterNames := by
  cases strategy with
  | range maxKeyspace =>
    simp only [getNodeInsert, RangeRoutingStrategy.getNodeInsert] at h
    split at h
    · cases h
    · split at h
      · cases h
      · split at h
        · cases h
        · rename_i hindex
          exact mem_clusterNames_of_targetNode (pyIndex_eq_ok hindex) (Except.ok.inj h)
  | hash =>
    simp only [getNodeInsert, HashRoutingStrategy.getNodeInsert] at h
    split at h
    · cases h
    · split at h
      · cases h
      · rename_i hmodulo
        exact mem_clusterNames_of_targetNode (clusterModulo_eq_ok hmodulo) (Except.ok.inj h)
  | roundRobin counter =>
    simp only [getNodeInsert, RoundRobinRoutingStrategy.getNodeInsert] at h
    split at h
    · cases h
    · split at h
      · cases h
      · rename_i hmodulo
        exact mem_clusterNames_of_targetNode (clusterModulo_eq_ok hmodulo) (Except.ok.inj h)
  | leader =>
    simp only [getNodeInsert, LeaderRoutingStrategy.getNodeInsert] at h
    split at h
    · cases h
    · rename_i hmodulo
      exact mem_clusterNames_of_targetNode (clusterModulo_eq_ok hmodulo) (Except.ok.inj h)

/-- The cluster of a record is among those asked by every query that includes its key, whatever the
registry has learned in between; the range strategy asks those clusters only that some key of the
query is written to. -/
theorem routing_covers (md5 : Bytes → Bytes) (topology : Topology)
    (registry registry' : LeaderRegistry) (queryIndices : Dict String Nat) (minId maxId : Int) :
    (∀ strategy : RoutingStrategy, (∀ maxKeyspace, strategy = .range maxKeyspace → 0 ≤ maxKeyspace) →
      ∀ keyId timestamp n, minId ≤ keyId → keyId ≤ maxId →
        strategy.getNodeInsert md5 topology registry keyId timestamp = .ok (some n) →
        Asks (strategy.getNodeQuery topology registry' queryIndices minId maxId) n.clusterName) ∧
    (∀ maxKeyspace clusterName, 1 ≤ maxKeyspace → minId ≤ maxId →
      (Asks (RangeRoutingStrategy.getNodeQuery maxKeyspace topology registry' queryIndices minId
          maxId) clusterName ↔
        ∃ keyId n, minId ≤ keyId ∧ keyId ≤ maxId ∧
          RangeRoutingStrategy.getNodeInsert maxKeyspace topology registry keyId = .ok (some n) ∧
          n.clusterName = clusterName)) := by
  refine ⟨?_, ?_⟩
  · intro strategy hrange keyId timestamp n hmin hle h
    have hname := mem_clusterNames_of_getNodeInsert h
    -- all strategies but the range one ask every cluster
    cases strategy with
    | range maxKeyspace => exact asks_of_getNodeInsert_range (hrange maxKeyspace rfl) hmin hle h
    | hash => exact asks_getNodeQueryAll registry' queryIndices hname
    | roundRobin counter => exact asks_getNodeQueryAll registry' queryIndices hname
    | leader => exact asks_getNodeQueryAll registry' queryIndices hname
  · intro maxKeyspace clusterName hmax hle
    constructor
    · intro hasks
      cases hchunk : RangeRoutingStrategy.chunkSize maxKeyspace topology.clusterNames.length with
      | error e =>
        -- without a chunk size the query asks nobody
        obtain ⟨nodes, indices, heq, hmem⟩ := hasks
        unfold RangeRoutingStrategy.getNodeQuery at heq
        simp only [hchunk] at heq
        split at heq
        · cases heq
          cases hmem
        · cases heq
      | ok chunk =>
        have hlen : topology.clusterNames.length < 2 ^ 63 := by
          rw [length_clusterNames]
          exact topology.length_lt
        have hpos := RangeRoutingStrategy.chunkSize_pos hmax hlen hchunk
        -- a range that the query overlaps has a key of the query
        obtain ⟨idx, hget, hoverlaps⟩ :=
          (RangeRoutingStrategy.asks_getNodeQuery_iff hchunk).mp hasks
        obtain ⟨keyId, hmin, hmax, hoverlaps⟩ :=
          (RangeRoutingStrategy.overlaps_iff hpos hle).mp hoverlaps
        obtain ⟨n, hn, hname⟩ := (RangeRoutingStrategy.getNodeInsert_eq_ok_iff hchunk hpos).mpr
          ⟨idx, hget, hoverlaps⟩
        exact ⟨keyId, n, hmin, hmax, hn, hname⟩
    · rintro ⟨keyId, n, hmin, hle, h, rfl⟩
      exact asks_of_getNodeInsert_range (Int.le_trans Int.one_nonneg hmax) hmin hle h

/-- Three clusters of one node. -/
def threeClusters : Topology where
  clusters :=
    ⟨[("A", [⟨"A", 1, "a", 9001⟩]), ("B", [⟨"B", 1, "b", 9001⟩]), ("C", [⟨"C", 1, "c", 9001⟩])],
      by decide⟩
  nodes_ne_nil := by decide
  clusterName_eq := by decide
  length_lt := by decide

/-- The record with key 150 of 300 is in the second cluster of three. -/
theorem routing_covers_three :
    Asks (RangeRoutingStrategy.getNodeQuery 300 threeClusters .init Dict.empty 120 180) "B" ∧
      ∃ keyId n, 120 ≤ keyId ∧ keyId ≤ 180 ∧
        RangeRoutingStrategy.getNodeInsert 300 threeClusters .init keyId = .ok (some n) ∧
        n.clusterName = "B" := by
  have hcovers := routing_covers id threeClusters .init .init Dict.empty 120 180
  have hasks := hcovers.1 (.range 300) (by rintro _ ⟨⟩; decide) 150 0 ⟨"B", 1, "b", 9001⟩
    (by decide) (by decide) (by decide +kernel)
  exact ⟨hasks, (hcovers.2 300 "B" (by decide) (by decide)).mp hasks⟩

/-- With a negative `max_keyspace` the chunks run backwards: the insertion indexes the names from the
end, and the record with key 150 is written to the second cluster while the query for its key asks the
third one only. -/
theorem not_routing_covers :
    ¬ ∀ (md5 : Bytes → Bytes) (topology : Topology) (registry : LeaderRegistry)
      (queryIndices : Dict String Nat) (strategy : RoutingStrategy)
      (keyId timestamp minId maxId : Int) (n : Node), minId ≤ keyId → keyId ≤ maxId →
        strategy.getNodeInsert md5 topology registry keyId timestamp = .ok (some n) →
        Asks (strategy.getNodeQuery topology registry queryIndices minId maxId) n.clusterName := by
  intro hall
  have hasks := hall id threeClusters .init Dict.empty (.range (-300)) 150 0 150 150
    ⟨"B", 1, "b", 9001⟩ (by decide) (by decide) (by decide +kernel)
  have hquery : (getNodeQuery threeClusters .init Dict.empty 150 150 (.range (-300))).map
      Prod.fst = .ok [⟨"C", 1, "c", 9001⟩] := by
    decide +kernel
  obtain ⟨nodes, indices, heq, hmem⟩ := hasks
  rw [heq] at hquery
  cases hquery
  exact absurd hmem (by decide)

end RoutingStrategy

end

end RaftLsmt.Client
