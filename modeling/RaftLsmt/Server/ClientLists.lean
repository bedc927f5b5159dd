import RaftLsmt.Lib.DoublyLinked
import RaftLsmt.Lib.StepMachine
import RaftLsmt.Server.EventLoop

/-!
# The pointers of the client lists

The two lists of clients as they lie in memory: each client has a previous and a next pointer, and the
server has the two heads. `close_and_free_client` returns early for a client that is closing, so the
loops of `ServerClose` end only if no such client is in a list.

`Represents` says that the pointers lead through the lists of a `ListView`, whose members are the open
clients that were added. Each call keeps it (`Represents.calloc`, `Represents.add`,
`Represents.close`), and from it the loops end (`Represents.exists_serverClose`).
-/

set_option autoImplicit false

namespace RaftLsmt.Server

open RaftLsmt.Lib.DoublyLinked
open RaftLsmt.Lib.StepMachine

/-- What the functions of the lists read of a `client_t` besides the pointers. -/
structure ListedClient where
  type : ClientType
  closing : Bool
  deriving DecidableEq

/-- The clients in memory and the two heads. `added` is history: the clients that `add_client` was
called for. -/
structure ClientLinks where
  nodes : Heap ListedClient
  heads : ClientType → Option Nat
  allocated : Nat
  added : List Nat

namespace ClientLinks

/-- A server without clients. -/
def init : ClientLinks where
  nodes _ := none
  heads _ := none
  allocated := 0
  added := []

/-- `calloc` of a connection callback, with the type that is set behind it. -/
def calloc (s : ClientLinks) (type : ClientType) : ClientLinks :=
  { s with
    nodes := Function.update s.nodes s.allocated (some ⟨⟨type, false⟩, none, none⟩)
    allocated := s.allocated + 1 }

/-- Write to a client; `none` when there is none at the address. -/
def setContent (nodes : Heap ListedClient) (c : Nat) (f : ListedClient → ListedClient) :
    Option (Heap ListedClient) :=
  (nodes c).map fun node => Function.update nodes c (some { node with content := f node.content })

/-- `add_client`. -/
def addClient (s : ClientLinks) (c : Nat) (type : ClientType) : Option ClientLinks := do
  let nodes ← setContent s.nodes c fun x => { x with type := type }
  let nodes ← setNext nodes c (s.heads type)
  let nodes ← setPrev nodes c none
  let nodes ← setPrevOf nodes (s.heads type) (some c)
  some { s with
    nodes := nodes
    heads := Function.update s.heads type (some c)
    added := c :: s.added }

/-- `remove_client`. -/
def removeClient (s : ClientLinks) (c : Nat) : Option ClientLinks := do
  let node ← s.nodes c
  let type := node.content.type
  let head :=
    if node.prev = none ∧ s.heads type = some c then node.next else s.heads type
  let nodes ← setNextOf s.nodes node.prev node.next
  let node ← nodes c
  let nodes ← setPrevOf nodes node.next node.prev
  let nodes ← setNext nodes c none
  let nodes ← setPrev nodes c none
  some { s with nodes := nodes, heads := Function.update s.heads type head }

/-- `close_and_free_client`. -/
def closeAndFreeClient (s : ClientLinks) (c : Nat) : Option ClientLinks := do
  let node ← s.nodes c
  if node.content.closing then some s
  else
    let nodes ← setContent s.nodes c fun x => { x with closing := true }
    removeClient { s with nodes := nodes } c

/-- A loop of `ServerClose`; `none` when the list is not empty behind so many turns. -/
def closeClients (s : ClientLinks) (type : ClientType) (turns : Nat) : Option ClientLinks :=
  match s.heads type, turns with
  | none, _ => some s
  | some _, 0 => none
  | some c, turns + 1 => (s.closeAndFreeClient c).bind fun s => s.closeClients type turns

/-- The loops of `ServerClose`. -/
def serverClose (inserts queries : Nat) (s : ClientLinks) : Option ClientLinks :=
  (s.closeClients .insert inserts).bind fun s => s.closeClients .query queries

/-- The calls that the callbacks make. -/
inductive ListCall where
  | calloc (type : ClientType)
  | addClient (c : Nat) (type : ClientType)
  | closeAndFreeClient (c : Nat)

/-- A connection callback adds its new client at most once, and only an open one. -/
def step (s : ClientLinks) : ListCall → Option ClientLinks
  | .calloc type => some (s.calloc type)
  | .addClient c type =>
    if c ∉ s.added ∧ (contentAt s.nodes c).map ListedClient.closing = some false then
      s.addClient c type
    else none
  | .closeAndFreeClient c => s.closeAndFreeClient c

/-! ## The lists that the pointers lead through -/

end ClientLinks

/-- The clients and their lists. -/
structure ListView where
  allocated : Nat
  client : Nat → ListedClient
  heads : ClientType → List Nat

namespace ListView

def calloc (v : ListView) (type : ClientType) : ListView :=
  { v with
    allocated := v.allocated + 1
    client := Function.update v.client v.allocated ⟨type, false⟩ }

def add (v : ListView) (c : Nat) (type : ClientType) : ListView :=
  { v with
    client := Function.update v.client c { v.client c with type := type }
    heads := Function.update v.heads type (c :: v.heads type) }

def close (v : ListView) (c : Nat) : ListView :=
  if (v.client c).closing then v
  else
    { v with
      client := Function.update v.client c { v.client c with closing := true }
      heads := Function.update v.heads (v.client c).type ((v.heads (v.client c).type).erase c) }

/-- Closing adds nobody to a list. -/
theorem mem_of_mem_close {v : ListView} {c b : Nat} {type : ClientType}
    (hb : b ∈ (v.close c).heads type) : b ∈ v.heads type := by
  unfold close at hb
  split at hb
  · exact hb
  · dsimp only at hb
    by_cases htype : type = (v.client c).type
    · rw [htype, Function.update_self] at hb
      rw [htype]
      exact List.mem_of_mem_erase hb
    · rw [Function.update_of_ne htype] at hb
      exact hb

theorem mem_of_mem_closes {v : ListView} {cs : List Nat} {b : Nat} {type : ClientType}
    (hb : b ∈ (cs.foldl close v).heads type) : b ∈ v.heads type := by
  induction cs generalizing v with
  | nil => exact hb
  | cons c cs ih => exact mem_of_mem_close (ih hb)

end ListView

namespace ClientLinks

/-- The pointers lead through the lists, whose members are the open clients that were added; a client in
no list has no pointers. -/
structure Represents (s : ClientLinks) (v : ListView) : Prop where
  allocated_eq : v.allocated = s.allocated
  content : ∀ c, contentAt s.nodes c = if c < s.allocated then some (v.client c) else none
  linked : ∀ type, Linked s.nodes (s.heads type) (v.heads type)
  nodup : ∀ type, (v.heads type).Nodup
  mem_iff : ∀ type c, c ∈ v.heads type ↔ c ∈ s.added ∧ v.client c = ⟨type, false⟩
  added_lt : ∀ c ∈ s.added, c < s.allocated
  loose : ∀ c node, s.nodes c = some node → (∀ type, c ∉ v.heads type) →
    node.prev = none ∧ node.next = none

variable {s : ClientLinks} {v : ListView} {c : Nat} {type : ClientType}

theorem represents_init (client : Nat → ListedClient) : init.Represents ⟨0, client, fun _ => []⟩ where
  allocated_eq := rfl
  content c := (if_neg (Nat.not_lt_zero c)).symm
  linked _ := ⟨none, rfl, rfl⟩
  nodup _ := List.nodup_nil
  mem_iff := by
    intro type c
    constructor
    · intro h
      cases h
    · rintro ⟨h, -⟩
      cases h
  added_lt := by
    intro c h
    cases h
  loose := by
    intro c node h
    cases h

/-- A write to a client leaves the pointers. -/
theorem setContent_spec {nodes : Heap ListedClient} {node : Lib.DoublyLinked.Node ListedClient}
    (hnode : nodes c = some node) (f : ListedClient → ListedClient) :
    ∃ nodes', setContent nodes c f = some nodes' ∧
      nodes' c = some { node with content := f node.content } ∧ (∀ b, b ≠ c → nodes' b = nodes b) ∧
      ∀ first as, Linked nodes first as → Linked nodes' first as := by
  refine ⟨_, Option.map_eq_some_iff.mpr ⟨node, hnode, rfl⟩, Function.update_self _ _ _,
    fun b hb => Function.update_of_ne hb _ _, ?_⟩
  rintro first as ⟨last, hseg⟩
  exact ⟨last, hseg.setContent hnode _⟩

namespace Represents

/-- A client that is allocated has a node. -/
theorem node_of_lt (h : s.Represents v) (hc : c < s.allocated) :
    ∃ node, s.nodes c = some node ∧ node.content = v.client c := by
  have hcontent := h.content c
  rw [if_pos hc] at hcontent
  exact Option.map_eq_some_iff.mp hcontent

theorem lt_of_mem (h : s.Represents v) (hc : c ∈ v.heads type) : c < s.allocated :=
  h.added_lt c ((h.mem_iff type c).mp hc).1

/-- A client is in the list of its type only. -/
theorem type_eq (h : s.Represents v) (hc : c ∈ v.heads type) : (v.client c).type = type := by
  rw [((h.mem_iff type c).mp hc).2]

/-- A new client has no pointers and is in no list. -/
theorem calloc (h : s.Represents v) (type : ClientType) :
    (s.calloc type).Represents (v.calloc type) := by
  have hne : ∀ c, c < s.allocated → c ≠ s.allocated := fun c hc => Nat.ne_of_lt hc
  refine ⟨congrArg (· + 1) h.allocated_eq, ?_, ?_, h.nodup, ?_, ?_, ?_⟩
  · intro c
    show contentAt (Function.update s.nodes s.allocated _) c =
      if c < s.allocated + 1 then some (Function.update v.client v.allocated _ c) else none
    unfold contentAt
    rw [h.allocated_eq]
    by_cases hc : c = s.allocated
    · rw [hc, Function.update_self, Function.update_self, if_pos (Nat.lt_succ_self _)]
      rfl
    · rw [Function.update_of_ne hc, Function.update_of_ne hc]
      have hold := h.content c
      unfold contentAt at hold
      rw [hold]
      exact if_congr (by omega) rfl rfl
  · intro type'
    apply (h.linked type').of_eq
    intro c hc
    exact Function.update_of_ne (hne c (h.lt_of_mem hc)) _ _
  · intro type' c
    show c ∈ v.heads type' ↔ c ∈ s.added ∧ Function.update v.client v.allocated _ c = _
    by_cases hc : c < s.allocated
    · rw [h.allocated_eq, Function.update_of_ne (hne c hc)]
      exact h.mem_iff type' c
    · exact ⟨fun hmem => absurd (h.lt_of_mem hmem) hc, fun hmem => absurd (h.added_lt c hmem.1) hc⟩
  · intro c hc
    exact Nat.lt_succ_of_lt (h.added_lt c hc)
  · intro c node hnode hnot
    have hnode : Function.update s.nodes s.allocated _ c = some node := hnode
    by_cases hc : c = s.allocated
    · rw [hc, Function.update_self] at hnode
      cases hnode
      exact ⟨rfl, rfl⟩
    · rw [Function.update_of_ne hc] at hnode
      exact h.loose c node hnode hnot

/-- `add_client` for an open client that was not added before. -/
theorem add (h : s.Represents v) (hnew : c ∉ s.added) (hc : c < s.allocated)
    (hopen : (v.client c).closing = false) (type : ClientType) :
    ∃ t, s.addClient c type = some t ∧ t.Represents (v.add c type) := by
  have hnot : ∀ type', c ∉ v.heads type' := fun type' hmem => hnew ((h.mem_iff type' c).mp hmem).1
  obtain ⟨node, hnode, hcontent⟩ := h.node_of_lt hc
  -- the type is written, then the client is pushed in front of its list
  obtain ⟨nodes₀, hset, hnode₀, hframe₀, hlinked₀⟩ :=
    setContent_spec hnode fun x => { x with type := type }
  obtain ⟨nodes₁, nodes₂, nodes₃, hnext, hprev, hback, hlinked₃, hframe₃, hcontent₃⟩ :=
    Linked.push (hlinked₀ _ _ (h.linked type)) (h.nodup type) (hnot type) hnode₀
  -- the pointer writes leave the contents alone
  have hcontent' : ∀ b, contentAt nodes₃ b =
      if b < s.allocated then some ((v.add c type).client b) else none := by
    intro b
    rw [hcontent₃]
    show _ = if b < s.allocated then some (Function.update v.client c _ b) else none
    by_cases hb : b = c
    · rw [hb, Function.update_self, if_pos hc, ← hcontent]
      unfold contentAt
      rw [hnode₀]
      rfl
    · rw [Function.update_of_ne hb, ← h.content b]
      unfold contentAt
      rw [hframe₀ b hb]
  refine ⟨{ s with nodes := nodes₃, heads := Function.update s.heads type (some c), added := c :: s.added },
    ?_, h.allocated_eq, hcontent', ?_, ?_, ?_, ?_, ?_⟩
  · unfold addClient
    simp only [hset, hnext, hprev, hback, Option.bind_eq_bind, Option.bind_some]
  · -- the list of the type begins with the client; the others share no node with it
    intro type'
    show Linked nodes₃ (Function.update s.heads type _ type') (Function.update v.heads type _ type')
    by_cases htype : type' = type
    · rw [htype, Function.update_self, Function.update_self]
      exact hlinked₃
    · rw [Function.update_of_ne htype, Function.update_of_ne htype]
      refine Linked.of_eq (hlinked₀ _ _ (h.linked type')) ?_
      intro b hb
      apply hframe₃ b
      · rintro rfl
        exact hnot type' hb
      · intro hb'
        exact htype ((h.type_eq hb).symm.trans (h.type_eq hb'))
  · intro type'
    show (Function.update v.heads type _ type').Nodup
    by_cases htype : type' = type
    · rw [htype, Function.update_self]
      exact List.nodup_cons.mpr ⟨hnot type, h.nodup type⟩
    · rw [Function.update_of_ne htype]
      exact h.nodup type'
  · -- the new client is open and of this type
    intro type' b
    show b ∈ Function.update v.heads type _ type' ↔
      b ∈ c :: s.added ∧ Function.update v.client c _ b = _
    by_cases hb : b = c
    · rw [hb, Function.update_self]
      dsimp only
      rw [hopen]
      by_cases htype : type' = type
      · rw [htype, Function.update_self]
        simp
      · rw [Function.update_of_ne htype]
        simp [hnot type', Ne.symm htype]
    · rw [Function.update_of_ne hb, List.mem_cons, or_iff_right hb, ← h.mem_iff type' b]
      by_cases htype : type' = type
      · rw [htype, Function.update_self, List.mem_cons, or_iff_right hb]
      · rw [Function.update_of_ne htype]
  · intro b hb
    rcases List.mem_cons.mp hb with rfl | hb
    · exact hc
    · exact h.added_lt b hb
  · -- a client on no list was on none before, and it is not the new one
    intro b node' hnode' hnotin
    have hself : b ≠ c ∧ ∀ type', b ∉ v.heads type' := by
      refine ⟨?_, ?_⟩
      · rintro rfl
        apply hnotin type
        show b ∈ Function.update v.heads type _ type
        rw [Function.update_self]
        exact List.mem_cons_self
      · intro type' hmem
        apply hnotin type'
        show b ∈ Function.update v.heads type _ type'
        by_cases htype : type' = type
        · rw [htype, Function.update_self]
          exact List.mem_cons_of_mem c (htype ▸ hmem)
        · rw [Function.update_of_ne htype]
          exact hmem
    have hnode' : nodes₃ b = some node' := hnode'
    rw [hframe₃ b hself.1 (hself.2 type), hframe₀ b hself.1] at hnode'
    exact h.loose b node' hnode' hself.2

end Represents

/-- The client is taken out from between its neighbours; in no list it has none. -/
theorem exists_unlinked {nodes : Heap ListedClient} {first : Option Nat} {as : List Nat}
    {node : Lib.DoublyLinked.Node ListedClient} (hlinked : Linked nodes first as) (hnodup : as.Nodup)
    (hnode : nodes c = some node) (hloose : c ∉ as → node.prev = none ∧ node.next = none) :
    ∃ nodes₁ nodes₂, setNextOf nodes node.prev node.next = some nodes₁ ∧ nodes₁ c = some node ∧
      setPrevOf nodes₁ node.next node.prev = some nodes₂ ∧ nodes₂ c = some node ∧
      Linked nodes₂ (if node.prev = none ∧ first = some c then node.next else first) (as.erase c) ∧
      (∀ b, b ∉ as → nodes₂ b = nodes b) ∧ ∀ b, contentAt nodes₂ b = contentAt nodes b := by
  by_cases hc : c ∈ as
  · obtain ⟨before, behind, rfl⟩ := List.append_of_mem hc
    have hnot := (List.nodup_cons.mp (List.nodup_middle.mp hnodup)).1
    have hnotBefore : c ∉ before := fun hmem => hnot (List.mem_append_left _ hmem)
    have hfirst := hlinked.first_eq_iff hnotBefore
    obtain ⟨node', nodes₁, nodes₂, hnode', hnext, hnode₁, hback, hnode₂, hprev, hlinked₂, hframe,
      hcontent⟩ :=
      hlinked.unlink hnodup
    cases hnode.symm.trans hnode'
    refine ⟨nodes₁, nodes₂, hnext, hnode₁, hback, hnode₂, ?_, ?_, hcontent⟩
    · have hhead : (node.prev = none ∧ first = some c) ↔ first = some c := by
        rw [hprev, ← hfirst]
        exact and_self_iff
      rw [List.erase_append_right _ hnotBefore, List.erase_cons_head]
      simp only [hhead]
      exact hlinked₂
    · intro b hb
      apply hframe
      intro hmem
      apply hb
      rcases List.mem_append.mp hmem with hmem | hmem
      · exact List.mem_append_left _ hmem
      · exact List.mem_append_right _ (List.mem_cons_of_mem c hmem)
  · obtain ⟨hprev, hnext⟩ := hloose hc
    have hhead : ¬ (node.prev = none ∧ first = some c) := by
      rintro ⟨-, hfirst⟩
      rw [hlinked.head_eq] at hfirst
      exact hc (List.mem_of_mem_head? hfirst)
    rw [hprev, hnext] at *
    rw [if_neg hhead, List.erase_of_not_mem hc]
    exact ⟨nodes, nodes, rfl, hnode, rfl, hnode, hlinked, fun _ _ => rfl, fun _ => rfl⟩

namespace Represents

theorem not_mem_of_type_ne (h : s.Represents v) (htype : type ≠ (v.client c).type) :
    c ∉ v.heads type := fun hmem => htype (h.type_eq hmem).symm

/-- The pointers behind the closing of an open client: it is gone from its list and has none. -/
theorem exists_closed (h : s.Represents v) (hc : c < s.allocated)
    (hopen : (v.client c).closing = false) (htype : (v.client c).type = type) :
    ∃ nodes head, s.closeAndFreeClient c =
        some { s with nodes := nodes, heads := Function.update s.heads type head } ∧
      Linked nodes head ((v.heads type).erase c) ∧
      nodes c = some ⟨{ v.client c with closing := true }, none, none⟩ ∧
      (∀ b, b ∉ v.heads type → b ≠ c → nodes b = s.nodes b) ∧
      ∀ b, b ≠ c → contentAt nodes b = contentAt s.nodes b := by
  obtain ⟨node, hnode, hcontent⟩ := h.node_of_lt hc
  obtain ⟨nodes₀, hset, hnode₀, hframe₀, hlinked₀⟩ :=
    setContent_spec hnode fun x => { x with closing := true }
  -- a client that was never added has no pointers
  have hloose : c ∉ v.heads type → node.prev = none ∧ node.next = none := by
    intro hnot
    apply h.loose c node hnode
    intro type'
    by_cases heq : type' = type
    · rw [heq]
      exact hnot
    · rw [← htype] at heq
      exact h.not_mem_of_type_ne heq
  -- the client is taken out of its list, then its pointers are cleared
  obtain ⟨nodes₁, nodes₂, hnext, hnode₁, hback, hnode₂, hlinked₂, hframe₂, hcontent₂⟩ :=
    exists_unlinked (hlinked₀ _ _ (h.linked type)) (h.nodup type) hnode₀ hloose
  obtain ⟨nodes₃, nodes₄, hclearNext, hclearPrev, hnode₄, hframe₄, hcontent₄⟩ :=
    setNext_setPrev hnode₂ none none
  refine ⟨nodes₄, if node.prev = none ∧ s.heads type = some c then node.next else s.heads type,
    ?_, ?_, ?_, ?_, ?_⟩
  · have hnot : ¬ (v.client c).closing = true := by
      rw [hopen]
      exact Bool.false_ne_true
    unfold closeAndFreeClient removeClient
    simp only [hnode, hcontent, hnot, Option.bind_eq_bind, Option.bind_some, hset, hnode₀, htype, hnext,
      hnode₁, hback, hclearNext, hclearPrev]
    rfl
  · refine Linked.of_eq hlinked₂ ?_
    intro b hb
    exact hframe₄ b ((h.nodup type).mem_erase_iff.mp hb).1
  · rw [hnode₄, hcontent]
  · intro b hb hbc
    rw [hframe₄ b hbc, hframe₂ b hb, hframe₀ b hbc]
  · intro b hbc
    rw [hcontent₄, hcontent₂]
    unfold contentAt
    rw [hframe₀ b hbc]

/-- `close_and_free_client`: nothing changes for a client that is closing. -/
theorem close (h : s.Represents v) (hc : c < s.allocated) :
    ∃ t, s.closeAndFreeClient c = some t ∧ t.Represents (v.close c) := by
  cases hclosing : (v.client c).closing with
  | true =>
    obtain ⟨node, hnode, hcontent⟩ := h.node_of_lt hc
    refine ⟨s, ?_, ?_⟩
    · unfold closeAndFreeClient
      simp only [hnode, hcontent, hclosing, Option.bind_eq_bind, Option.bind_some, if_true]
    · unfold ListView.close
      rw [if_pos hclosing]
      exact h
  -- an open client leaves the list of its type
  | false =>
    obtain ⟨type, htype⟩ : ∃ type, (v.client c).type = type := ⟨_, rfl⟩
    obtain ⟨nodes, head, heq, hlinked, hself, hframe, hcontent⟩ := h.exists_closed hc hclosing htype
    -- no other list holds it
    have hother : ∀ type', type' ≠ type → c ∉ v.heads type' := by
      intro type' hne
      rw [← htype] at hne
      exact h.not_mem_of_type_ne hne
    -- behind the removal the lists hold what they held but for this client
    have hmem : ∀ type' b, b ∈ Function.update v.heads type ((v.heads type).erase c) type' ↔
        b ≠ c ∧ b ∈ v.heads type' := by
      intro type' b
      by_cases htt : type' = type
      · rw [htt, Function.update_self]
        exact (h.nodup type).mem_erase_iff
      · rw [Function.update_of_ne htt]
        refine ⟨fun hb => ⟨?_, hb⟩, fun hb => hb.2⟩
        rintro rfl
        exact hother type' htt hb
    have hclose : v.close c =
        { v with
          client := Function.update v.client c { v.client c with closing := true }
          heads := Function.update v.heads type ((v.heads type).erase c) } := by
      unfold ListView.close
      rw [hclosing, htype]
      rfl
    rw [hclose]
    refine ⟨_, heq, h.allocated_eq, ?_, ?_, ?_, ?_, h.added_lt, ?_⟩
    · intro b
      show contentAt nodes b = if b < s.allocated then some (Function.update v.client c _ b) else none
      by_cases hb : b = c
      · rw [hb, Function.update_self, if_pos hc]
        unfold contentAt
        rw [hself]
        rfl
      · rw [Function.update_of_ne hb, ← h.content b]
        exact hcontent b hb
    · -- the list of the type is linked around the client; the others share no node with it
      intro type'
      show Linked nodes (Function.update s.heads type _ type') (Function.update v.heads type _ type')
      by_cases htt : type' = type
      · rw [htt, Function.update_self, Function.update_self]
        exact hlinked
      · rw [Function.update_of_ne htt, Function.update_of_ne htt]
        refine Linked.of_eq (h.linked type') ?_
        intro b hb
        apply hframe b
        · intro hb'
          exact htt ((h.type_eq hb).symm.trans (h.type_eq hb'))
        · rintro rfl
          exact hother type' htt hb
    · intro type'
      show (Function.update v.heads type _ type').Nodup
      by_cases htt : type' = type
      · rw [htt, Function.update_self]
        exact (h.nodup type).erase c
      · rw [Function.update_of_ne htt]
        exact h.nodup type'
    · intro type' b
      refine (hmem type' b).trans ?_
      show _ ↔ b ∈ s.added ∧ Function.update v.client c _ b = _
      by_cases hb : b = c
      · rw [hb, Function.update_self]
        simp
      · rw [Function.update_of_ne hb, h.mem_iff type' b]
        exact and_iff_right hb
    · -- the closed client has no pointers, and those on no list are not written to
      intro b node' hnode' hnotin
      have hnode' : nodes b = some node' := hnode'
      by_cases hb : b = c
      · rw [hb, hself] at hnode'
        cases hnode'
        exact ⟨rfl, rfl⟩
      · have hnot : ∀ type', b ∉ v.heads type' := fun type' hin =>
          hnotin type' ((hmem type' b).mpr ⟨hb, hin⟩)
        rw [hframe b (hnot type) hb] at hnode'
        exact h.loose b node' hnode' hnot

end Represents

/-! ## The loops of `ServerClose` -/

/-- Closing the head until there is none closes each client of the list and ends. -/
theorem Represents.exists_closeClients (h : s.Represents v) (type : ClientType) :
    ∃ t, s.closeClients type (v.heads type).length = some t ∧
      t.Represents ((v.heads type).foldl ListView.close v) ∧
      ((v.heads type).foldl ListView.close v).heads type = [] := by
  obtain ⟨cs, hcs⟩ : ∃ cs, v.heads type = cs := ⟨_, rfl⟩
  rw [hcs]
  induction cs generalizing s v with
  | nil =>
    have hhead : s.heads type = none := by
      rw [(h.linked type).head_eq, hcs]
      rfl
    refine ⟨s, ?_, h, hcs⟩
    unfold closeClients
    rw [hhead]
  | cons c cs ih =>
    have hc : c ∈ v.heads type := hcs ▸ List.mem_cons_self
    have hhead : s.heads type = some c := by
      rw [(h.linked type).head_eq, hcs]
      rfl
    obtain ⟨m, hm, hrepresents⟩ := h.close (h.lt_of_mem hc)
    -- the closed client was open, so it has left the list
    have hrest : (v.close c).heads type = cs := by
      have hclient := ((h.mem_iff type c).mp hc).2
      unfold ListView.close
      rw [hclient, if_neg Bool.false_ne_true]
      dsimp only
      rw [Function.update_self, hcs, List.erase_cons_head]
    obtain ⟨t, ht, hend⟩ := ih hrepresents hrest
    refine ⟨t, ?_, hend⟩
    unfold closeClients
    simp only [hhead, List.length_cons, hm, Option.bind_some]
    exact ht

/-- The loops of `ServerClose` end, with both lists empty. -/
theorem Represents.exists_serverClose (h : s.Represents v) :
    ∃ inserts queries t, s.serverClose inserts queries = some t ∧ ∀ type, t.heads type = none := by
  obtain ⟨m, hm, hrepresents, hinsert⟩ := h.exists_closeClients .insert
  obtain ⟨t, ht, hend, hquery⟩ := hrepresents.exists_closeClients .query
  refine ⟨_, _, t, Option.bind_eq_some_iff.mpr ⟨m, hm, ht⟩, ?_⟩
  intro type
  rw [(hend.linked type).head_eq]
  cases type with
  | insert =>
    rw [List.head?_eq_none_iff, List.eq_nil_iff_forall_not_mem]
    intro b hb
    have hold := ListView.mem_of_mem_closes hb
    rw [hinsert] at hold
    cases hold
  | query =>
    rw [hquery]
    rfl

/-! ## Runs of calls -/

theorem Represents.step {t : ClientLinks} {call : ListCall} (h : s.Represents v)
    (hstep : s.step call = some t) : ∃ w, t.Represents w := by
  cases call with
  | calloc type =>
    cases hstep
    exact ⟨_, h.calloc type⟩
  | addClient c type =>
    unfold ClientLinks.step at hstep
    dsimp only at hstep
    split at hstep
    · rename_i hguard
      obtain ⟨hnew, hopen⟩ := hguard
      rw [h.content c] at hopen
      split at hopen
      · rename_i hc
        obtain ⟨u, hu, hadd⟩ := h.add hnew hc (Option.some.inj hopen) type
        cases hu.symm.trans hstep
        exact ⟨_, hadd⟩
      · cases hopen
    · cases hstep
  | closeAndFreeClient c =>
    have hstep : s.closeAndFreeClient c = some t := hstep
    by_cases hc : c < s.allocated
    · obtain ⟨u, hu, hclose⟩ := h.close hc
      cases hu.symm.trans hstep
      exact ⟨_, hclose⟩
    · -- there is no client at the address
      have hnone := h.content c
      rw [if_neg hc] at hnone
      have hnode : s.nodes c = none := Option.map_eq_none_iff.mp hnone
      unfold closeAndFreeClient at hstep
      rw [hnode] at hstep
      cases hstep

theorem exists_represents {calls : List ListCall} (h : run step init calls = some s) :
    ∃ v, s.Represents v := by
  have hstep : ∀ (s : ClientLinks) (call : ListCall) (t : ClientLinks), True →
      (∃ v, s.Represents v) → s.step call = some t → ∃ v, t.Represents v := by
    rintro s call t - ⟨v, hs⟩ hcall
    exact hs.step hcall
  exact run_invariant hstep (fun _ _ => trivial) ⟨_, represents_init fun _ => ⟨.insert, false⟩⟩ h

end ClientLinks

end RaftLsmt.Server
