import MarkSdk.Store.Facts

/-!
Multi-valued and scheduled facts: `fact_add`, `fact_remove` and
`fact_scheduled`.

An added row carries the metadata flag and keeps its own interval: the chain
of the set rows never touches it, `fact_remove` ends it at a given time, and
`fact_set` ends the added rows that began by the time it sets.
-/

namespace MarkSdk

open Lib

/-- `_open_rows`: the live rows still open at `stamp`, or starting later. -/
def openRows (db : Db) (k : TimelineKey) (stamp : Int) : List FactRow :=
  (liveRows db k).filter fun r => r.validTo.all fun stop => stamp < stop

/-- The row that `fact_add` finds its value in. -/
def alreadyAdded (encoded : String) (opened : List FactRow) : Option FactRow :=
  opened.find? fun r => r.value = encoded

def factAdd (py : Python) (now : Int) (uuid : String) (req : FactRequest) : Writing Fact := do
  let encoded ← Txn.lift (req.check py)
  let opened ← Txn.query fun db => openRows db (req.key py) req.start
  match alreadyAdded encoded opened with
  | some row => factById py row.id
  | none =>
      Txn.lift (checkMetadata py (addMetadata req.metadata))
      insertRow (req.row py now uuid encoded (addMetadata req.metadata))
      factById py uuid

/-- The rows that `fact_remove` ends. -/
def removedRows (db : Db) (k : TimelineKey) (stamp : Int) (encoded : String) : List FactRow :=
  (openRows db k stamp).filter fun r => r.isMulti && r.value = encoded

def factRemove (py : Python) (agentId subject attributeName : String) (value : PyValue)
    (validTo : Datetime) : Writing Nat := do
  let k : TimelineKey := ⟨agentId, factKey py subject, factKey py attributeName⟩
  let stamp := utcText validTo
  let encoded ← Txn.lift (encodeValue py value)
  let rows ← Txn.query fun db => removedRows db k stamp encoded
  Txn.forEach (fun r => endRow (some stamp) r.id) rows
  return rows.length

/-- The rows of `fact_scheduled`, soonest first. -/
def scheduledRows (py : Python) (now : Int) (db : Db) (agentId : String)
    (subject attributeName : Option String) : List FactRow :=
  (db.facts.rows.filter fun r =>
      r.agentId = agentId && r.live && now < r.validFrom &&
        (subject.all fun s => r.subjectKey = factKey py s) &&
        attributeName.all fun a => r.attributeKey = factKey py a).insertionSort
    FactRow.before

def factScheduled (py : Python) (now : Int) (db : Db) (agentId : String)
    (subject attributeName : Option String) : List Fact :=
  (scheduledRows py now db agentId subject attributeName).map (rowToFact py)

end MarkSdk
