import MarkSdk.Blocks.Linear

/-!
Filling blocks: the writes of `BlockGraph`.

Only open blocks accept writes, and a fragment cannot leave a block that is
not open. Nothing is asked about the agents: a block may get memories and
nodes of any agent, and an edge belongs to the agent that adds it.
-/

namespace MarkSdk

open Lib

section Calls

variable (py : Python)

def requireOpen (blockId : String) (s : LocalStore) : Except MemoryError Unit :=
  match s.getBlock blockId with
  | none => .error (blockNotFound py blockId)
  | some block =>
      if block.status ≠ .opened then
        .error (.valueError ("Block " ++ py.repr block.name ++ " is " ++ block.status.value ++
          "; only OPEN blocks accept writes"))
      else .ok ()

def assignFragmentBlock (fragmentId : String) (blockId : Option String) (now : Int)
    (s : LocalStore) : Except MemoryError LocalStore :=
  let current := (s.get fragmentId).bind Fragment.blockId
  let leavesSealed := current.isSome && current ≠ blockId &&
    (current.bind s.getBlock).any fun b => b.status = .sealed
  if leavesSealed then
    .error (.valueError ("Fragment " ++ py.repr fragmentId ++ " belongs to sealed block " ++
      py.repr (current.getD "") ++ "; sealed blocks are immutable."))
  else
    .ok { s with db := { s.db with
      fragments := s.db.fragments.update (fun f => f.id = fragmentId)
        (fun f => { f with blockId := blockId, updatedAt := now }) fun _ => rfl } }

def BlockGraph.addFragment (blockId fragmentId : String) (now : Int) (s : LocalStore) :
    Except MemoryError LocalStore := do
  requireOpen py blockId s
  let other := ((s.get fragmentId).bind Fragment.blockId).filter fun id => id ≠ "" && id ≠ blockId
  match (other.bind s.getBlock).filter fun b => b.status ≠ .opened with
  | some current =>
      throw (.valueError ("Fragment " ++ py.repr fragmentId ++ " belongs to " ++
        current.status.value ++ " block " ++ py.repr current.name ++ " and cannot be moved"))
  | none => assignFragmentBlock py fragmentId (some blockId) now s

/-- `INSERT OR IGNORE INTO block_nodes` -/
def BlockGraph.addNode (blockId nodeId : String) (now : Int) (s : LocalStore) :
    Except MemoryError LocalStore := do
  requireOpen py blockId s
  return s.onGraph fun g => { g with blockNodes := g.blockNodes.insertOrIgnore ⟨blockId, nodeId, now⟩ }

def BlockGraph.removeNode (blockId nodeId : String) (s : LocalStore) :
    Except MemoryError LocalStore := do
  requireOpen py blockId s
  return s.onGraph fun g => { g with
    blockNodes := g.blockNodes.delete fun m => m.blockId = blockId && m.nodeId = nodeId }

/-- `add_edge`: `id` is the fresh uuid. -/
def BlockGraph.addEdge (agentId blockId id sourceId targetId relation : String) (weight : ℚ)
    (now : Int) (s : LocalStore) : Except MemoryError LocalStore := do
  requireOpen py blockId s
  let members := (s.nodesInBlock blockId).map Node.id
  let missing := sortedIds (([sourceId, targetId].eraseDups).filter fun id => !members.contains id)
  if !missing.isEmpty then
    throw (.valueError ("Nodes must be members of block " ++ py.repr blockId ++
      " before linking: [" ++ commaJoin (missing.map py.repr) ++ "]"))
  return s.onGraph fun g => { g with
    edges := g.edges.insertOrReplace ⟨id, sourceId, targetId, relation, weight, agentId, now,
      some blockId⟩ }

end Calls

/-- What an agent does with blocks, and the memories and nodes that it
stores. -/
inductive BlockCall : Type
  | chain (call : ChainCall)
  | addFragment (blockId fragmentId : String) (now : Int)
  | addNode (blockId nodeId : String) (now : Int)
  | removeNode (blockId nodeId : String)
  | addEdge (blockId id sourceId targetId relation : String) (weight : ℚ) (now : Int)
  | storeFragment (fragment : Fragment)
  | storeNode (node : Node)

/-- The call of an agent; one that raises changes nothing. -/
def BlockCall.step (py : Python) (h : Hashing) : String × BlockCall → LocalStore → LocalStore
  | (agentId, .chain call), s => call.step py h agentId s
  | (_, .addFragment blockId fragmentId now), s =>
      (BlockGraph.addFragment py blockId fragmentId now s).toOption.getD s
  | (_, .addNode blockId nodeId now), s => (BlockGraph.addNode py blockId nodeId now s).toOption.getD s
  | (_, .removeNode blockId nodeId), s => (BlockGraph.removeNode py blockId nodeId s).toOption.getD s
  | (agentId, .addEdge blockId id sourceId targetId relation weight now), s =>
      (BlockGraph.addEdge py agentId blockId id sourceId targetId relation weight now s).toOption.getD s
  | (agentId, .storeFragment fragment), s =>
      (onDb (store py { fragment with agentId := agentId })).apply s
  | (agentId, .storeNode node), s => (MarkSdk.storeNode { node with agentId := some agentId }).apply s

end MarkSdk
