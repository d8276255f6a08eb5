import MarkSdk.Memory.StoreCalls

/-!
Which ids are protected by sealed blocks.

Maintenance asks for the membership once, before it touches anything. Only
the blocks of the maintained agent are looked at.
-/

namespace MarkSdk

open Lib

structure SealedMembership where
  blockIds : List String
  fragmentIds : List String
  nodeIds : List String
  edgeIds : List String

def SealedMembership.empty : SealedMembership := ⟨[], [], [], []⟩

namespace SealedMembership

/-- `bool(membership)` -/
def truthy (m : SealedMembership) : Bool := !m.blockIds.isEmpty

def protectsFragment (m : SealedMembership) (fragment : Fragment) : Bool :=
  m.fragmentIds.contains fragment.id || fragment.blockId.any fun id => m.blockIds.contains id

def protectsNode (m : SealedMembership) (node : Node) : Bool := m.nodeIds.contains node.id

def protectsEdge (m : SealedMembership) (edge : Edge) : Bool :=
  m.edgeIds.contains edge.id || edge.blockId.any fun id => m.blockIds.contains id

end SealedMembership

/-- A block that was sealed, in quarantine or not. -/
def Block.everSealed (block : Block) : Bool := block.contentHash.isSome || block.status = .sealed

/-- The loop of `sealed_membership` over the blocks of the agent. -/
def collectMembers (m : SealedMembership) : List Block → MemoryClient SealedMembership
  | [] => pure m
  | block :: blocks => do
      if block.everSealed then
        let fragments ← Client.read fun s => s.fragmentsForBlock block.id
        let nodes ← Client.read fun s => s.nodesInBlock block.id
        let edges ← Client.read fun s => s.edgesInBlock block.id
        let nodeIds := m.nodeIds ++ nodes.map Node.id
        let edgeIds := m.edgeIds ++ edges.map Edge.id
        -- sealed members that have since moved or been removed stay protected
        let gone := (block.memberHashes.map Prod.fst).filter fun id =>
          !nodeIds.contains id && !edgeIds.contains id
        collectMembers
          { blockIds := m.blockIds ++ [block.id]
            fragmentIds := m.fragmentIds ++ fragments.map Fragment.id ++ gone
            nodeIds := nodeIds
            edgeIds := edgeIds } blocks
      else collectMembers m blocks

def sealedMembership (agentId : String) : MemoryClient SealedMembership := do
  let blocks ← Client.read fun s => s.listBlocks agentId
  collectMembers .empty blocks

end MarkSdk
