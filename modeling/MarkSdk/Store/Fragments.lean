import MarkSdk.Store.Rows

/-!
Fragment writes: the upsert of a whole row, and the updates of single columns.

A stored fragment is a whole row: whatever the row held before is replaced.
`update_state`, `touch_many` and the others name the columns they change, and
change nothing when the row is gone.
-/

namespace MarkSdk

open Lib

/-- `UPDATE fragments SET ... WHERE id = ?` -/
def updateFragment (f : Fragment → Fragment) (hf : ∀ r, (f r).id = r.id) (id : String) :
    Writing Unit :=
  Txn.update fun db => { db with fragments := db.fragments.update (fun r => r.id = id) f hf }

/-- `DELETE FROM fragments WHERE id = ?` -/
def deleteFragment (id : String) : Writing Unit :=
  Txn.update fun db => { db with fragments := db.fragments.delete fun r => r.id = id }

/-- `_store_row`: insert the fragment, or replace the row of its id. -/
def storeRow (py : Python) (fragment : Fragment) : Writing String := do
  let existing ← Txn.query fun db => db.fragments.find? fragment.id
  if existing.any fun row => row.agentId ≠ fragment.agentId then
    Txn.raise (.valueError ("Fragment id " ++ py.repr fragment.id ++
      " already belongs to another agent; refusing to overwrite it."))
  else
    Txn.update fun db => { db with fragments := db.fragments.upsert fragment }
    return fragment.id

/-- `store_many`: all of the fragments or none. -/
def storeMany (py : Python) (fragments : List Fragment) : Writing (List String) := do
  Txn.forEach (fun fragment => do let _ ← storeRow py fragment) fragments
  return fragments.map Fragment.id

def store (py : Python) (fragment : Fragment) : Writing String := storeRow py fragment

def Fragment.withState (newState : MemoryState) (now : Int) (r : Fragment) : Fragment :=
  { r with state := newState, updatedAt := now }

def updateState (now : Int) (fragmentId : String) (newState : MemoryState) : Writing Unit :=
  updateFragment (Fragment.withState newState now) (fun _ => rfl) fragmentId

/-- `delete`: whether a row was removed. -/
def deleteById (fragmentId : String) : Writing Bool := do
  match ← Txn.query fun db => db.fragments.find? fragmentId with
  | none => return false
  | some _ =>
      deleteFragment fragmentId
      return true

/-! ### Access counts -/

def accessCount : String := "access_count"

/-- `int(meta.get("access_count", 0))` -/
def readCount (py : Python) (metadata : Metadata) : Except StoreError Int :=
  pyInt py ((metadata.lookup accessCount).getD (.int 0))

/-- `meta["access_count"] = n` -/
def writeCount (metadata : Metadata) (n : Int) : Metadata := metadata.assign accessCount (.int n)

def Fragment.touched (now : Int) (metadata : Metadata) (r : Fragment) : Fragment :=
  { r with lastAccessedAt := some now, metadata := metadata, updatedAt := now }

/-- The new metadata of the rows read, with the ids counted as often as they
occur in `ids`. -/
def touchUpdates (py : Python) (ids : List String) :
    List Fragment → Except StoreError (List (String × Metadata))
  | [] => .ok []
  | row :: rows => do
      let n ← readCount py row.metadata
      let rest ← touchUpdates py ids rows
      return (row.id, writeCount row.metadata (n + ids.count row.id)) :: rest

def sqlChunk : Nat := 900

/-- The reads of `touch_many`, one `SELECT` for each chunk of ids. -/
def touchReads : List (List String) → Writing (List Fragment)
  | [] => pure []
  | chunk :: chunks => do
      let rows ← Txn.query fun db => db.fragments.rows.filter fun r => r.id ∈ chunk
      let rest ← touchReads chunks
      return rows ++ rest

/-- `touch_many`: all reads come first, and then all writes. -/
def touchMany (py : Python) (now : Int) (ids : List String) : Writing Unit := do
  let rows ← touchReads (ids.eraseDups.toChunks sqlChunk)
  let updates ← Txn.lift (touchUpdates py ids rows)
  Txn.forEach (fun u => updateFragment (Fragment.touched now u.2) (fun _ => rfl) u.1) updates

end MarkSdk
