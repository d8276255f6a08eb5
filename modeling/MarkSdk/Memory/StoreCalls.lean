import MarkSdk.Lib.Clients
import MarkSdk.Store.Graph

/-!
Calls that the code above the store makes.

Promotion, revisions and maintenance read rows with one call and write whole
rows back with a later one; other threads and processes run in between. A
write is labelled with the row it is about, so that a run can be judged by
its writes.
-/

namespace MarkSdk

open Lib

/-- What a write of the store is about. -/
inductive StoreWrite : Type
  /-- a fragment that was read before is stored again -/
  | rewrite (fragmentId : String)
  /-- a caller stores a fragment of its own -/
  | insert (fragmentId : String)
  | delete (fragmentId : String)
  /-- `forget_fragment`, with the agent of the row that it found -/
  | forget (fragmentId agentId : String)
  /-- a fact with this source is recorded -/
  | fact (sourceFragmentId : Option String)
  | other
  deriving DecidableEq, Repr

/-- A thread that calls the store. -/
abbrev MemoryClient (α : Type) := Client StoreWrite LocalStore MemoryError α

/-- A call that writes to the tables of `Db`. -/
def callStore {α : Type} (label : StoreWrite) (t : Writing α) : MemoryClient α :=
  Client.txn label (onDb t)

/-- `store.store(fragment)` of a row read before. -/
def rewriteFragment (py : Python) (fragment : Fragment) : MemoryClient Unit := do
  let _ ← callStore (.rewrite fragment.id) (store py fragment)

/-- `store.store(fragment)` of a new fragment. -/
def insertFragment (py : Python) (fragment : Fragment) : MemoryClient String :=
  callStore (.insert fragment.id) (store py fragment)

/-- `store.delete(fragment_id)` -/
def removeFragment (fragmentId : String) : MemoryClient Unit := do
  let _ ← callStore (.delete fragmentId) (deleteById fragmentId)

/-- `store.store_node(node)` -/
def callStoreNode (node : Node) : MemoryClient Unit := do
  let _ ← Client.txn .other (storeNode node)

/-- `store.delete_edge(edge_id)` -/
def callDeleteEdge (edgeId : String) : MemoryClient Unit := do
  let _ ← Client.txn .other (deleteEdge edgeId)

/-! ### What the calls do to the fragments -/

/-- A fragment that is stored replaces the row of its id. -/
theorem store_upserts (py : Python) (fragment : Fragment) :
    (store py fragment).Each fun db db' =>
      db' = { db with fragments := db.fragments.upsert fragment } := by
  unfold store storeRow
  refine Txn.each_bind (Txn.each_query _) fun row => ?_
  split
  · trivial
  · exact Txn.each_bind (Txn.each_update fun _ => rfl) fun _ => trivial

theorem deleteById_deletes (fragmentId : String) :
    (deleteById fragmentId).Each fun db db' =>
      db' = { db with fragments := db.fragments.delete fun r => r.id = fragmentId } := by
  unfold deleteById deleteFragment
  refine Txn.each_bind (Txn.each_query _) fun row => ?_
  cases row with
  | none => trivial
  | some row => exact Txn.each_bind (Txn.each_update fun _ => rfl) fun _ => trivial

end MarkSdk
