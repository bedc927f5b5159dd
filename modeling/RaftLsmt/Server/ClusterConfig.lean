import RaftLsmt.Lib.TextInput
import Mathlib.Logic.Function.Basic

/-!
# Loading the cluster configuration

`load_cluster_config` counts the newline characters of the file, allocates one entry more, and then
parses what `fgets` reads into a buffer of 256 characters, one piece after the other. A piece with all
three fields moves on to the next entry. A line that is longer than the buffer comes in several
pieces, and each of them may be an entry.

`loadClusterConfig_inBounds_iff` says for which files no write is behind the entries.
-/

set_option autoImplicit false

namespace RaftLsmt.Server.Config

open RaftLsmt.Lib.TextInput

/-- `node_config_t`. -/
structure NodeConfig where
  id : Nat
  raftAddress : List UInt8
  clientPort : Int
  deriving DecidableEq

/-- An entry as `calloc` leaves it. -/
def NodeConfig.zero : NodeConfig := ⟨0, [], 0⟩

/-- What `sscanf` converts. -/
structure Scanned where
  id : Option Nat
  raftAddress : Option (List UInt8)
  clientPort : Option Int
  deriving DecidableEq

/-- `sscanf(line, "%u %63s %d", ...)`. -/
def scanNode (line : List UInt8) : Scanned :=
  match scanUnsigned line with
  | none => ⟨none, none, none⟩
  | some (id, rest) =>
    match scanWord 63 rest with
    | none => ⟨some id, none, none⟩
    | some (raftAddress, rest) => ⟨some id, some raftAddress, (scanInt rest).map Prod.fst⟩

/-- The fields that are not converted stay. -/
def Scanned.store (scanned : Scanned) (node : NodeConfig) : NodeConfig where
  id := scanned.id.getD node.id
  raftAddress := scanned.raftAddress.getD node.raftAddress
  clientPort := scanned.clientPort.getD node.clientPort

/-- Empty lines and comments are skipped. -/
def skipped (line : List UInt8) : Bool := line.length < 5 ∨ line.head? = some 35

/-- What the loop has done: the entries, `i`, and as history the entries it has written to. -/
structure LoadState where
  nodes : Nat → NodeConfig
  i : Nat
  writes : List Nat

/-- One turn of the loop, on what `fgets` has put into `line`. -/
def parseLine (s : LoadState) (piece : List UInt8) : LoadState :=
  let line := cString piece
  if skipped line then s
  else
    let scanned := scanNode line
    { nodes :=
        if scanned.id.isSome then Function.update s.nodes s.i (scanned.store (s.nodes s.i)) else s.nodes
      i := if scanned.clientPort.isSome then s.i + 1 else s.i
      writes := if scanned.id.isSome then s.writes ++ [s.i] else s.writes }

/-- `lines`, an `int`. -/
def countLines (content : List UInt8) : Int :=
  ((content.count newline + 1 : Nat) : Int).bmod (2 ^ 32)

/-- `cluster_config_t` with the size of its array. -/
structure ClusterConfig where
  allocated : Nat
  nodes : Nat → NodeConfig
  count : Nat
  writes : List Nat

/-- The parsing loop. -/
def parseLines (content : List UInt8) : LoadState :=
  (pieces 256 content).foldl parseLine ⟨fun _ => .zero, 0, []⟩

/-- What is loaded from a file. A negative `lines` is a size that `calloc` refuses. -/
def clusterConfig (content : List UInt8) : ClusterConfig where
  allocated := (countLines content).toNat
  nodes := (parseLines content).nodes
  count := (parseLines content).i
  writes := (parseLines content).writes

/-- `load_cluster_config`; without a file it returns -1. -/
def loadClusterConfig (file : Option (List UInt8)) : Option ClusterConfig := file.map clusterConfig

/-! ## The entries that are written -/

/-- A field of the piece is stored. -/
def stores (piece : List UInt8) : Bool :=
  ¬ skipped (cString piece) ∧ (scanNode (cString piece)).id.isSome

/-- All three fields of the piece are stored. -/
def complete (piece : List UInt8) : Bool :=
  ¬ skipped (cString piece) ∧ (scanNode (cString piece)).clientPort.isSome

theorem scanNode_id_of_clientPort {line : List UInt8} (h : (scanNode line).clientPort.isSome) :
    (scanNode line).id.isSome := by
  unfold scanNode at h ⊢
  split
  · rename_i hid
    rw [hid] at h
    cases h
  · split
    · rfl
    · rfl

theorem stores_of_complete {piece : List UInt8} (h : complete piece) : stores piece := by
  unfold complete stores at *
  rw [decide_eq_true_eq] at h ⊢
  exact ⟨h.1, scanNode_id_of_clientPort h.2⟩

/-- A turn of the loop: a piece that stores writes to the next entry, a complete one moves on. -/
theorem parseLine_spec (s : LoadState) (piece : List UInt8) :
    (parseLine s piece).i = s.i + (if complete piece then 1 else 0) ∧
      (parseLine s piece).writes = s.writes ++ if stores piece then [s.i] else [] := by
  unfold parseLine complete stores
  dsimp only
  by_cases hskip : skipped (cString piece) = true
  · simp [hskip]
  · by_cases hid : (scanNode (cString piece)).id.isSome = true
    · by_cases hport : (scanNode (cString piece)).clientPort.isSome = true
      · simp [hskip, hid, hport]
      · simp [hskip, hid, hport]
    · by_cases hport : (scanNode (cString piece)).clientPort.isSome = true
      · exact absurd (scanNode_id_of_clientPort hport) hid
      · simp [hskip, hid, hport]

/-- The loop: `i` counts the complete pieces, and each piece that stores writes to the entry behind
those of the complete ones in front of it. -/
theorem foldl_parseLine_spec (ps : List (List UInt8)) (s : LoadState) :
    (ps.foldl parseLine s).i = s.i + ps.countP complete ∧
      ∀ i, i ∈ (ps.foldl parseLine s).writes ↔ i ∈ s.writes ∨
        ∃ before piece behind, ps = before ++ piece :: behind ∧ stores piece ∧
          i = s.i + before.countP complete := by
  induction ps generalizing s with
  | nil => simp
  | cons p ps ih =>
    obtain ⟨hi, hwrites⟩ := parseLine_spec s p
    obtain ⟨hcount, hmem⟩ := ih (parseLine s p)
    rw [List.foldl_cons]
    constructor
    · rw [hcount, hi, List.countP_cons]
      omega
    · intro i
      rw [hmem, hwrites, hi, List.mem_append, or_assoc]
      apply or_congr_right
      constructor
      · rintro (hself | ⟨before, piece, behind, rfl, hstores, rfl⟩)
        · by_cases hp : stores p = true
          · rw [if_pos hp, List.mem_singleton] at hself
            exact ⟨[], p, ps, rfl, hp, hself⟩
          · rw [if_neg hp] at hself
            cases hself
        · refine ⟨p :: before, piece, behind, rfl, hstores, ?_⟩
          rw [List.countP_cons]
          omega
      · rintro ⟨before, piece, behind, heq, hstores, rfl⟩
        cases before with
        | nil =>
          cases heq
          rw [if_pos hstores]
          exact Or.inl (List.mem_singleton_self _)
        | cons q before =>
          cases heq
          refine Or.inr ⟨before, piece, behind, rfl, hstores, ?_⟩
          rw [List.countP_cons]
          omega

/-- Each entry that is counted has been written. -/
theorem mem_writes_of_lt (ps : List (List UInt8)) (s : LoadState) {i : Nat} (hle : s.i ≤ i)
    (hlt : i < (ps.foldl parseLine s).i) : i ∈ (ps.foldl parseLine s).writes := by
  obtain ⟨hcount, hmem⟩ := foldl_parseLine_spec ps s
  rw [hcount] at hlt
  refine (hmem i).mpr (Or.inr ?_)
  clear hcount hmem
  induction ps using List.reverseRecOn with
  | nil => exact absurd hlt (Nat.not_lt.mpr hle)
  | append_singleton ps p ih =>
    by_cases hearlier : i < s.i + ps.countP complete
    · obtain ⟨before, piece, behind, rfl, hstores, hi⟩ := ih hearlier
      refine ⟨before, piece, behind ++ [p], ?_, hstores, hi⟩
      rw [List.append_assoc]
      rfl
    · -- the last piece is complete, so it wrote to the last entry
      rw [List.countP_append, List.countP_singleton] at hlt
      have hp : complete p = true := by
        by_contra hnot
        rw [if_neg hnot] at hlt
        omega
      rw [if_pos hp] at hlt
      exact ⟨ps, p, [], rfl, stores_of_complete hp, by omega⟩

/-- All writes are to entries that were allocated, and the count is not above their number. -/
def InBounds (config : ClusterConfig) : Prop :=
  (∀ i ∈ config.writes, i < config.allocated) ∧ config.count ≤ config.allocated

/-- The writes are in bounds when in front of each piece that stores a field there are fewer complete
pieces than `lines`, and only then. -/
theorem loadClusterConfig_inBounds_iff (content : List UInt8) :
    (∀ config, loadClusterConfig (some content) = some config → InBounds config) ↔
      ∀ before piece behind, pieces 256 content = before ++ piece :: behind → stores piece →
        (before.countP complete : Int) < countLines content := by
  obtain ⟨-, hmem⟩ := foldl_parseLine_spec (pieces 256 content) ⟨fun _ => .zero, 0, []⟩
  have hallocated : (clusterConfig content).allocated = (countLines content).toNat := by
    simp only [clusterConfig]
  constructor
  · intro h before piece behind heq hstores
    obtain ⟨hwrites, -⟩ := h (clusterConfig content) rfl
    have hwritten : before.countP complete ∈ (clusterConfig content).writes :=
      (hmem _).mpr (Or.inr ⟨before, piece, behind, heq, hstores, (Nat.zero_add _).symm⟩)
    have hlt := hwrites _ hwritten
    rw [hallocated, Int.lt_toNat] at hlt
    exact hlt
  · intro h config hconfig
    obtain rfl : clusterConfig content = config := Option.some.inj hconfig
    have hwrites : ∀ i ∈ (clusterConfig content).writes, i < (clusterConfig content).allocated := by
      intro i hi
      rcases (hmem i).mp hi with hi | ⟨before, piece, behind, heq, hstores, rfl⟩
      · cases hi
      · rw [hallocated, Int.lt_toNat, Nat.zero_add]
        exact h before piece behind heq hstores
    refine ⟨hwrites, ?_⟩
    by_contra hnot
    -- the last entry that is counted has been written
    exact Nat.lt_irrefl _ (hwrites _ (mem_writes_of_lt (pieces 256 content) ⟨fun _ => .zero, 0, []⟩
      (Nat.zero_le _) (Nat.lt_of_not_le hnot)))

/-- When each line fits the buffer, the writes are in bounds. -/
theorem inBounds_of_lines {content : List UInt8}
    (hlines : ∀ line, line <:+: content → newline ∉ line → line.length < 255)
    (hint : content.count newline < 2 ^ 31 - 1) {config : ClusterConfig}
    (h : loadClusterConfig (some content) = some config) : InBounds config := by
  have hlength := @length_pieces_le 256 content hlines
  have hlinesEq : countLines content = (content.count newline + 1 : Nat) := by
    unfold countLines
    rw [Int.bmod_eq_of_le]
    · omega
    · omega
  refine (loadClusterConfig_inBounds_iff content).mpr ?_ config h
  intro before piece behind heq _
  have hcount : before.countP complete ≤ before.length := List.countP_le_length
  rw [heq, List.length_append, List.length_cons] at hlength
  rw [hlinesEq, Int.ofNat_lt]
  omega

/-- One line of two entries; the first one is padded with blanks to the length of the buffer. -/
def longLine : List UInt8 :=
  [49, 32, 97, 32, 50] ++ List.replicate 250 32 ++ [51, 32, 98, 32, 52]

/-- The second entry of the line is written behind the array. -/
theorem not_loadClusterConfig_inBounds :
    ¬ ∀ (content : List UInt8) (config : ClusterConfig),
      loadClusterConfig (some content) = some config → InBounds config := by
  intro hall
  obtain ⟨hwrites, -⟩ := hall longLine (clusterConfig longLine) rfl
  have hwritten : 1 ∈ (clusterConfig longLine).writes := by decide +kernel
  have hallocated : (clusterConfig longLine).allocated = 1 := by decide +kernel
  have hlt := hwrites 1 hwritten
  rw [hallocated] at hlt
  exact Nat.lt_irrefl 1 hlt

end RaftLsmt.Server.Config
