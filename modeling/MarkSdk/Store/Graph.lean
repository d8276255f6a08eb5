import MarkSdk.Store.Fragments
import MarkSdk.Store.Lifecycle

/-!
Blocks, nodes and edges, and the store that holds them next to the fragments.

A fragment belongs to at most one block, by its `block_id`; a node may belong
to many (`block_nodes`); an edge may be scoped to one. `LocalStore` is the
database of the other modules and these tables. Its errors are those of the
store and those of the memory facade above it.
-/

namespace MarkSdk

open Lib

inductive BlockStatus : Type
  | opened | sealed | quarantined
  deriving DecidableEq, Repr

/-- A row of `blocks`. `memberHashes` is the entry `mark_member_hashes` of its
metadata. -/
structure Block where
  id : String
  name : String
  agentId : String
  status : BlockStatus
  contentHash : Option String
  prevBlockId : Option String
  prevBlockHash : Option String
  sealedAt : Option Int
  createdAt : Int
  memberHashes : List (String × String)
  deriving DecidableEq, Repr

inductive NodeType : Type
  | concept | entity | fact | event | document | fragment | topic | agent | character | object
  | location | scene
  deriving DecidableEq, Repr

/-- A row of `nodes`. -/
structure Node where
  id : String
  nodeType : NodeType
  label : String
  agentId : Option String
  fragmentId : Option String
  weight : ℚ
  createdAt : Int
  deriving DecidableEq, Repr

/-- A row of `edges`. The vocabulary of relations is open. -/
structure Edge where
  id : String
  sourceId : String
  targetId : String
  relation : String
  weight : ℚ
  agentId : String
  createdAt : Int
  blockId : Option String
  deriving DecidableEq, Repr

/-- A row of `block_nodes`. -/
structure BlockNode where
  blockId : String
  nodeId : String
  addedAt : Int
  deriving DecidableEq, Repr

def BlockNode.key (m : BlockNode) : String × String := (m.blockId, m.nodeId)

structure Graph where
  blocks : Table Block.id
  nodes : Table Node.id
  edges : Table Edge.id
  blockNodes : Table BlockNode.key

structure LocalStore where
  db : Db
  graph : Graph

def Graph.empty : Graph := ⟨.empty, .empty, .empty, .empty⟩

def LocalStore.empty : LocalStore := ⟨.empty, .empty⟩

/-- What a call of the store or of the memory facade raises. -/
inductive MemoryError : Type
  | store (e : StoreError)
  | keyError (key : String)
  | notFound (memoryId : String)
  | invalidInput (message : String)
  | valueError (message : String)
  /-- a loop has not ended within its fuel; the code would still be in it -/
  | outOfFuel
  deriving DecidableEq, Repr

/-- A write transaction of the store. -/
abbrev StoreTxn (α : Type) := Txn LocalStore MemoryError α

/-- A transaction on the tables of `Db`. -/
def onDb {α : Type} : Writing α → StoreTxn α
  | .commit a => .commit a
  | .raise e => .raise (.store e)
  | .select k => .select fun s => onDb (k s.db)
  | .dml f k =>
      .dml
        (fun s =>
          match f s.db with
          | .ok (db, n) => .ok ({ s with db := db }, n)
          | .error e => .error (.store e))
        fun n => onDb (k n)

theorem exec_onDb {α : Type} (t : Writing α) (s : LocalStore) :
    (onDb t).exec s =
      match t.exec s.db with
      | .ok (a, db) => .ok (a, { s with db := db })
      | .error e => .error (.store e) := by
  induction t generalizing s with
  | commit a => rfl
  | raise e => rfl
  | select k ih => exact ih s.db s
  | dml f k ih =>
      simp only [onDb, Txn.exec]
      cases f s.db with
      | error e => rfl
      | ok r => exact ih r.2 { s with db := r.1 }

/-- The statements of such a transaction leave the graph alone. -/
theorem each_onDb {α : Type} {R : Db → Db → Prop} {t : Writing α} (h : t.Each R) :
    (onDb t).Each fun s s' => R s.db s'.db ∧ s'.graph = s.graph := by
  induction t with
  | commit a => trivial
  | raise e => trivial
  | select k ih => exact fun s => ih s.db (h s.db)
  | dml f k ih =>
      refine ⟨fun s s' n hstep => ?_, fun n => ih n (h.2 n)⟩
      cases hf : f s.db with
      | error e => simp [hf] at hstep
      | ok r =>
          simp only [hf, Except.ok.injEq, Prod.mk.injEq] at hstep
          obtain ⟨rfl, -⟩ := hstep
          exact ⟨h.1 s.db r.1 r.2 hf, rfl⟩

/-! ### Reads -/

def LocalStore.get (s : LocalStore) (id : String) : Option Fragment := s.db.fragments.find? id

/-- The fragment is not in a quarantined block. -/
def LocalStore.visible (s : LocalStore) (f : Fragment) : Bool :=
  f.blockId.all fun id => !s.graph.blocks.rows.any fun b => b.id = id && b.status = .quarantined

/-- `ORDER BY importance DESC, created_at DESC` -/
def Fragment.listedBefore (f g : Fragment) : Prop :=
  g.importance < f.importance ∨ (f.importance = g.importance ∧ g.createdAt ≤ f.createdAt)

instance : DecidableRel Fragment.listedBefore := fun f g => by
  unfold Fragment.listedBefore
  infer_instance

/-- `list_by_agent(agent_id, session_id=..., limit=None)` -/
def LocalStore.listByAgent (s : LocalStore) (agentId : String) (sessionId : Option String) :
    List Fragment :=
  (s.db.fragments.rows.filter fun f =>
      f.agentId = agentId && s.visible f && sessionId.all fun id => f.sessionId = some id).insertionSort
    Fragment.listedBefore

def LocalStore.getBlock (s : LocalStore) (id : String) : Option Block := s.graph.blocks.find? id

/-- `ORDER BY created_at DESC` -/
def LocalStore.listBlocks (s : LocalStore) (agentId : String) : List Block :=
  (s.graph.blocks.rows.filter fun b => b.agentId = agentId).insertionSort
    fun a b => b.createdAt ≤ a.createdAt

def LocalStore.fragmentsForBlock (s : LocalStore) (blockId : String) : List Fragment :=
  (s.db.fragments.rows.filter fun f => f.blockId = some blockId).insertionSort
    fun f g => g.importance ≤ f.importance

/-- `ORDER BY bn.added_at` -/
def LocalStore.nodesInBlock (s : LocalStore) (blockId : String) : List Node :=
  ((s.graph.blockNodes.rows.filter fun m => m.blockId = blockId).insertionSort
    fun m m' => m.addedAt ≤ m'.addedAt).filterMap fun m => s.graph.nodes.find? m.nodeId

def LocalStore.edgesInBlock (s : LocalStore) (blockId : String) : List Edge :=
  (s.graph.edges.rows.filter fun e => e.blockId = some blockId).insertionSort
    fun e e' => e.createdAt ≤ e'.createdAt

section Members

variable {s : LocalStore}

theorem mem_fragmentsForBlock {f : Fragment} {id : String} :
    f ∈ s.fragmentsForBlock id ↔ f ∈ s.db.fragments.rows ∧ f.blockId = some id := by
  unfold LocalStore.fragmentsForBlock
  rw [(List.perm_insertionSort _ _).mem_iff, List.mem_filter, decide_eq_true_eq]

theorem mem_edgesInBlock {e : Edge} {id : String} :
    e ∈ s.edgesInBlock id ↔ e ∈ s.graph.edges.rows ∧ e.blockId = some id := by
  unfold LocalStore.edgesInBlock
  rw [(List.perm_insertionSort _ _).mem_iff, List.mem_filter, decide_eq_true_eq]

theorem mem_nodesInBlock {n : Node} {id : String} :
    n ∈ s.nodesInBlock id ↔
      ∃ m ∈ s.graph.blockNodes.rows, m.blockId = id ∧ s.graph.nodes.find? m.nodeId = some n := by
  unfold LocalStore.nodesInBlock
  simp only [List.mem_filterMap, (List.perm_insertionSort _ _).mem_iff, List.mem_filter,
    decide_eq_true_eq, and_assoc]

end Members

def LocalStore.nodesForFragment (s : LocalStore) (fragmentId : String) : List Node :=
  s.graph.nodes.rows.filter fun n => n.fragmentId = some fragmentId

/-- `ORDER BY weight DESC` -/
def LocalStore.listEdges (s : LocalStore) (agentId : String) : List Edge :=
  (s.graph.edges.rows.filter fun e => e.agentId = agentId).insertionSort
    fun e e' => e'.weight ≤ e.weight

/-! ### Writes -/

def LocalStore.onGraph (f : Graph → Graph) (s : LocalStore) : LocalStore :=
  { s with graph := f s.graph }

@[simp] theorem LocalStore.onGraph_db (f : Graph → Graph) (s : LocalStore) :
    (s.onGraph f).db = s.db := rfl

@[simp] theorem LocalStore.onGraph_graph (f : Graph → Graph) (s : LocalStore) :
    (s.onGraph f).graph = f s.graph := rfl

/-- `INSERT OR REPLACE INTO blocks` -/
def storeBlock (block : Block) : StoreTxn String := do
  Txn.update (LocalStore.onGraph fun g => { g with blocks := g.blocks.insertOrReplace block })
  return block.id

/-- `INSERT OR REPLACE INTO nodes` -/
def storeNode (node : Node) : StoreTxn String := do
  Txn.update (LocalStore.onGraph fun g => { g with nodes := g.nodes.insertOrReplace node })
  return node.id

/-- `INSERT OR REPLACE INTO edges` -/
def storeEdge (edge : Edge) : StoreTxn String := do
  Txn.update (LocalStore.onGraph fun g => { g with edges := g.edges.insertOrReplace edge })
  return edge.id

/-- `delete_edge`: whether a row was removed. -/
def deleteEdge (edgeId : String) : StoreTxn Bool := do
  let rowcount ← Txn.updateCount fun s : LocalStore =>
    (s.onGraph fun g => { g with edges := g.edges.delete fun e => e.id = edgeId },
      (s.graph.edges.rows.filter fun e => e.id = edgeId).length)
  return 0 < rowcount

end MarkSdk
