import MarkSdk.Store.Facts
import MarkSdk.Store.Fragments

/-!
Cascading forget and the hard delete of facts.

`forget_fragment` deletes the fragment row, its job and ledger rows, and
retracts every fact of the same agent that was derived from it; `secure`
deletes those facts instead. Every timeline that lost a row is chained again.
-/

namespace MarkSdk

open Lib

/-- The facts of an agent that were derived from a fragment. -/
def FactRow.sourcedFrom (agentId fragmentId : String) (r : FactRow) : Bool :=
  r.agentId = agentId && r.sourceFragmentId = some fragmentId

/-- `DELETE` of the queue and ledger rows of a fragment. -/
def deleteJobs (fragmentId : String) : Writing Unit := do
  Txn.update fun db => { db with factJobs := db.factJobs.delete fun j => j.fragmentId = fragmentId }
  Txn.update fun db =>
    { db with factExtractions := db.factExtractions.delete fun e => e.fragmentId = some fragmentId }

/-- `_cascade_facts` for one fragment id, which is how its caller uses it. -/
def cascadeFacts (agentId fragmentId : String) (secure : Bool) (now : Int) : Writing Unit := do
  let rows ← Txn.query fun db => db.facts.rows.filter (FactRow.sourcedFrom agentId fragmentId)
  if secure then
    Txn.update fun db =>
      db.updateFacts (FactRow.sourcedFrom agentId fragmentId) FactRow.zeroValue
        FactRow.zeroValue_id
    Txn.update fun db => db.deleteFacts (FactRow.sourcedFrom agentId fragmentId)
  else
    Txn.update fun db =>
      db.updateFacts (fun r => r.sourcedFrom agentId fragmentId && r.live) (FactRow.retract now)
        (FactRow.retract_id now)
  Txn.forEach (fun key => rechainFacts ⟨agentId, key.1, key.2⟩)
    (rows.map fun r => (r.subjectKey, r.attributeKey)).dedup
  -- forgetting and remembering again must extract again
  deleteJobs fragmentId

/-- What `secure` leaves of a row just before it is deleted. -/
def Fragment.erased (r : Fragment) : Fragment :=
  { r with
    content := String.ofList (List.replicate r.content.length (Char.ofNat 0))
    metadata := []
    tags := []
    embedding := none }

def forgetFragment (now : Int) (fragmentId : String) (secure : Bool) : Writing Bool := do
  match ← Txn.query fun db => db.fragments.find? fragmentId with
  | none => return false
  | some row =>
      if secure then updateFragment Fragment.erased (fun _ => rfl) fragmentId else pure ()
      deleteFragment fragmentId
      cascadeFacts row.agentId fragmentId secure now
      return true

/-- `value is None or decrypted == str(value)` -/
def deleteMatches (py : Python) (value : PyValue) (r : FactRow) : Bool :=
  match value with
  | .none => true
  | _ => r.value = pyStr py value

def factDelete (py : Python) (agentId subject : String) (attributeName : Option String)
    (value : PyValue) : Writing Nat := do
  let rows ← Txn.query fun db =>
    db.facts.rows.filter fun r => r.about py agentId subject attributeName && deleteMatches py value r
  Txn.forEach
    (fun r => do
      Txn.update fun db =>
        db.updateFacts (fun s => s.id = r.id) FactRow.zeroValue FactRow.zeroValue_id
      Txn.update fun db => db.deleteFacts fun s => s.id = r.id)
    rows
  Txn.forEach (fun a => rechainFacts ⟨agentId, factKey py subject, a⟩)
    (rows.map FactRow.attributeKey).dedup
  return rows.length

end MarkSdk
