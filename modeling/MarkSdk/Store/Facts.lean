import MarkSdk.Lib.Timeline
import MarkSdk.Store.Rows

/-!
Bi-temporal facts: `fact_set`, `fact_retract` and the readers.

A timeline is the live rows of one agent, subject key and attribute key in
the order (valid_from, recorded_at, rowid). Every write computes the ends of
its rows again from that order (`rechainFacts`); added, multi-valued rows
keep their own intervals. The writes are programs of SQL statements, with the
clock and the fresh id of a call as arguments; the readers are functions of
the database.
-/

namespace MarkSdk

open Lib

/-- What tells one timeline from another. -/
structure TimelineKey where
  agentId : String
  subjectKey : String
  attributeKey : String
  deriving DecidableEq, Repr

def FactRow.timelineKey (r : FactRow) : TimelineKey := ⟨r.agentId, r.subjectKey, r.attributeKey⟩

/-- `ORDER BY valid_from, recorded_at`; rows that tie stay in rowid order. -/
def FactRow.before (r s : FactRow) : Prop :=
  r.validFrom < s.validFrom ∨ (r.validFrom = s.validFrom ∧ r.recordedAt ≤ s.recordedAt)

instance : DecidableRel FactRow.before := fun r s => by
  unfold FactRow.before
  infer_instance

instance : Std.Total FactRow.before := ⟨fun r s => by
  unfold FactRow.before
  omega⟩

instance : IsTrans FactRow FactRow.before := ⟨fun r s t => by
  unfold FactRow.before
  omega⟩

def liveRows (db : Db) (k : TimelineKey) : List FactRow :=
  db.facts.rows.filter fun r => r.live && r.timelineKey = k

def timeline (db : Db) (k : TimelineKey) : List FactRow :=
  (liveRows db k).insertionSort FactRow.before

/-- `valid_from <= t AND (valid_to IS NULL OR valid_to > t)` -/
def FactRow.covers (t : Int) : FactRow → Bool := Lib.covers FactRow.validFrom FactRow.validTo t

/-! ### The rows that statements touch -/

def FactRow.retract (now : Int) (r : FactRow) : FactRow := { r with retractedAt := some now }

def FactRow.endAt (stop : Option Int) (r : FactRow) : FactRow := { r with validTo := stop }

/-- `zeroblob(length(value))` -/
def FactRow.zeroValue (r : FactRow) : FactRow :=
  { r with value := String.ofList (List.replicate r.value.length (Char.ofNat 0)) }

@[simp] theorem FactRow.retract_id (now : Int) (r : FactRow) : (r.retract now).id = r.id := rfl

@[simp] theorem FactRow.retract_live (now : Int) (r : FactRow) :
    (r.retract now).live = false := rfl

@[simp] theorem FactRow.retract_timelineKey (now : Int) (r : FactRow) :
    (r.retract now).timelineKey = r.timelineKey := rfl

@[simp] theorem FactRow.retract_isMulti (now : Int) (r : FactRow) :
    (r.retract now).isMulti = r.isMulti := rfl

@[simp] theorem FactRow.endAt_id (stop : Option Int) (r : FactRow) :
    (r.endAt stop).id = r.id := rfl

@[simp] theorem FactRow.endAt_live (stop : Option Int) (r : FactRow) :
    (r.endAt stop).live = r.live := rfl

@[simp] theorem FactRow.endAt_timelineKey (stop : Option Int) (r : FactRow) :
    (r.endAt stop).timelineKey = r.timelineKey := rfl

@[simp] theorem FactRow.endAt_isMulti (stop : Option Int) (r : FactRow) :
    (r.endAt stop).isMulti = r.isMulti := rfl

@[simp] theorem FactRow.endAt_value (stop : Option Int) (r : FactRow) :
    (r.endAt stop).value = r.value := rfl

@[simp] theorem FactRow.endAt_validFrom (stop : Option Int) (r : FactRow) :
    (r.endAt stop).validFrom = r.validFrom := rfl

@[simp] theorem FactRow.endAt_validTo (stop : Option Int) (r : FactRow) :
    (r.endAt stop).validTo = stop := rfl

@[simp] theorem FactRow.endAt_recordedAt (stop : Option Int) (r : FactRow) :
    (r.endAt stop).recordedAt = r.recordedAt := rfl

@[simp] theorem FactRow.endAt_self (r : FactRow) : r.endAt r.validTo = r := rfl

@[simp] theorem FactRow.endAt_endAt (stop stop' : Option Int) (r : FactRow) :
    (r.endAt stop).endAt stop' = r.endAt stop' := rfl

@[simp] theorem FactRow.zeroValue_id (r : FactRow) : r.zeroValue.id = r.id := rfl

def Db.updateFacts (db : Db) (p : FactRow → Bool) (f : FactRow → FactRow)
    (hf : ∀ r, (f r).id = r.id) : Db :=
  { db with facts := db.facts.update p f hf }

def Db.deleteFacts (db : Db) (p : FactRow → Bool) : Db := { db with facts := db.facts.delete p }

/-- `UPDATE facts SET retracted_at = ? WHERE id = ?` -/
def retractRow (now : Int) (id : String) : Writing Unit :=
  Txn.update fun db => db.updateFacts (fun r => r.id = id) (FactRow.retract now)
    (FactRow.retract_id now)

/-- `UPDATE facts SET valid_to = ? WHERE id = ?` -/
def endRow (stop : Option Int) (id : String) : Writing Unit :=
  Txn.update fun db => db.updateFacts (fun r => r.id = id) (FactRow.endAt stop)
    (FactRow.endAt_id stop)

/-- `INSERT INTO facts`; the id is the primary key. -/
def Db.insertFact (row : FactRow) (db : Db) : Except StoreError Db :=
  match db.facts.insert? row with
  | some facts => .ok { db with facts := facts }
  | none => .error (.integrityError "UNIQUE constraint failed: facts.id")

def insertRow (row : FactRow) : Writing Unit := Txn.insert (Db.insertFact row)

/-- `json.dumps(metadata)`: the row keeps the object that was dumped. -/
def checkMetadata (py : Python) (metadata : Metadata) : Except StoreError Unit :=
  if (py.dumps (.dict metadata)).isSome then .ok ()
  else .error (.typeError "Object is not JSON serializable")

/-- The metadata of a set row, which is never flagged. -/
def setMetadata (metadata : Metadata) : Metadata :=
  metadata.filter fun entry => entry.1 ≠ multiKey

/-- The metadata of an added row: `{**metadata, MULTI_KEY: True}`. -/
def addMetadata (metadata : Metadata) : Metadata := (multiKey, .bool true) :: setMetadata metadata

/-- What the readers return for a row (`_row_to_fact`). -/
structure Fact where
  id : String
  subject : String
  attributeName : String
  value : PyValue
  validFrom : Int
  validTo : Option Int
  recordedAt : Int
  sourceFragmentId : Option String
  metadata : Metadata

def rowToFact (py : Python) (r : FactRow) : Fact where
  id := r.id
  subject := r.subject
  attributeName := r.attributeName
  value := decodeValue py r.value
  validFrom := r.validFrom
  validTo := r.validTo
  recordedAt := r.recordedAt
  sourceFragmentId := r.sourceFragmentId
  metadata := r.metadata

def factById (py : Python) (id : String) : Writing Fact := do
  match ← Txn.query fun db => db.facts.find? id with
  | some row => return rowToFact py row
  | none => Txn.raise (.typeError "'NoneType' object is not subscriptable")

/-! ### Writes -/

/-- `_rechain_facts`: each row of the chain ends where the next one begins. -/
def rechainFacts (k : TimelineKey) : Writing Unit := do
  let rows ← Txn.query fun db => (timeline db k).filter fun r => !r.isMulti
  Txn.forEach (fun u => endRow u.2 u.1.id) (nextStarts FactRow.validFrom rows)

/-- The live single-valued rows that start at a time, as `fact_set` reads
them: `ORDER BY recorded_at, rowid`. -/
def rowsAt (db : Db) (k : TimelineKey) (validText : Int) : List FactRow :=
  ((liveRows db k).filter fun r => r.validFrom = validText).insertionSort
      (fun r s => r.recordedAt ≤ s.recordedAt)
    |>.filter fun r => !r.isMulti

/-- The live rows that began by a time and are still open then. -/
def rowsOpenAt (db : Db) (k : TimelineKey) (validText : Int) : List FactRow :=
  (liveRows db k).filter (FactRow.covers validText)

/-- The arguments of `fact_set` and `fact_add`. -/
structure FactRequest where
  agentId : String
  subject : String
  attributeName : String
  value : PyValue
  validFrom : Datetime
  sourceFragmentId : Option String
  metadata : Metadata

def FactRequest.key (py : Python) (req : FactRequest) : TimelineKey :=
  ⟨req.agentId, factKey py req.subject, factKey py req.attributeName⟩

/-- `valid_text` -/
def FactRequest.start (req : FactRequest) : Int := utcText req.validFrom

def FactRequest.row (py : Python) (now : Int) (uuid encoded : String) (req : FactRequest)
    (metadata : Metadata) : FactRow where
  id := uuid
  agentId := req.agentId
  subject := strip req.subject
  subjectKey := factKey py req.subject
  attributeName := strip req.attributeName
  attributeKey := factKey py req.attributeName
  value := encoded
  validFrom := req.start
  validTo := none
  recordedAt := now
  retractedAt := none
  sourceFragmentId := req.sourceFragmentId
  metadata := metadata

/-- The checks made before the transaction: the encoded value. -/
def FactRequest.check (py : Python) (req : FactRequest) : Except StoreError String :=
  if (req.key py).subjectKey = "" ∨ (req.key py).attributeKey = "" then
    .error (.valueError "fact subject and attribute must contain letters or digits")
  else encodeValue py req.value

/-- The row that a plain `fact_set` asserts again: the latest one at its time,
when it has the same value. -/
def reasserted (encoded : String) (sameTime : List FactRow) : Option FactRow :=
  sameTime.getLast?.filter fun r => r.value = encoded

/-- `fact_set` once its row is to be inserted. -/
def insertSet (py : Python) (now : Int) (uuid encoded : String) (req : FactRequest) :
    Writing Fact := do
  Txn.lift (checkMetadata py (setMetadata req.metadata))
  insertRow (req.row py now uuid encoded (setMetadata req.metadata))
  -- a set value replaces: the added values that began by then end here
  let ended ← Txn.query fun db =>
    (rowsOpenAt db (req.key py) req.start).filter FactRow.isMulti
  Txn.forEach (fun r => endRow (some req.start) r.id) ended
  rechainFacts (req.key py)
  factById py uuid

def factSet (py : Python) (now : Int) (uuid : String) (req : FactRequest) (correction : Bool) :
    Writing Fact := do
  let encoded ← Txn.lift (req.check py)
  let sameTime ← Txn.query fun db => rowsAt db (req.key py) req.start
  if correction then
    -- what was recorded for this time was wrong
    Txn.forEach (fun r => retractRow now r.id) sameTime
    insertSet py now uuid encoded req
  else
    match reasserted encoded sameTime with
    | some last => factById py last.id
    | none => insertSet py now uuid encoded req

/-- `value is None or _same_value(...)` -/
def retractMatches (py : Python) (value : PyValue) (r : FactRow) : Except StoreError Bool :=
  match value with
  | .none => .ok true
  | _ => sameValue py (decodeValue py r.value) value

/-- The rows that `fact_retract` and `fact_delete` look at: one subject of an
agent, or one attribute of it. -/
def FactRow.about (py : Python) (agentId subject : String) (attributeName : Option String)
    (r : FactRow) : Bool :=
  r.agentId = agentId && r.subjectKey = factKey py subject &&
    attributeName.all fun a => r.attributeKey = factKey py a

def factRetract (py : Python) (now : Int) (agentId subject : String)
    (attributeName : Option String) (value : PyValue) : Writing Nat := do
  let selected ← Txn.query fun db =>
    db.facts.rows.filter fun r => r.about py agentId subject attributeName && r.live
  let rows ← Txn.lift (Txn.filterE (retractMatches py value) selected)
  Txn.forEach (fun r => retractRow now r.id) rows
  -- neighbouring values take over the retracted intervals
  Txn.forEach (fun a => rechainFacts ⟨agentId, factKey py subject, a⟩)
    (rows.map FactRow.attributeKey).dedup
  return rows.length

/-! ### Readers -/

/-- `fact_history` appends a fact, or extends the last entry when it repeats
its value. -/
def pushHistory (history : List Fact) (fact : Fact) : List Fact :=
  match history.getLast? with
  | some last =>
      if last.value.eq fact.value then history.dropLast ++ [{ last with validTo := fact.validTo }]
      else history ++ [fact]
  | none => [fact]

def factHistory (py : Python) (db : Db) (agentId subject attributeName : String) : List Fact :=
  ((timeline db ⟨agentId, factKey py subject, factKey py attributeName⟩).map
    (rowToFact py)).foldl pushHistory []

/-- `ORDER BY subject_key, attribute_key, valid_from, recorded_at` -/
def FactRow.beforeByKey (r s : FactRow) : Prop :=
  r.subjectKey < s.subjectKey ∨ (r.subjectKey = s.subjectKey ∧
    (r.attributeKey < s.attributeKey ∨ (r.attributeKey = s.attributeKey ∧ r.before s)))

instance : DecidableRel FactRow.beforeByKey := fun r s => by
  unfold FactRow.beforeByKey
  infer_instance

instance : Std.Total FactRow.beforeByKey := ⟨fun r s => by
  unfold FactRow.beforeByKey
  have hbefore : r.before s ∨ s.before r := Std.Total.total r s
  rcases lt_trichotomy r.subjectKey s.subjectKey with h | h | h
  · exact .inl (.inl h)
  · rcases lt_trichotomy r.attributeKey s.attributeKey with h' | h' | h'
    · exact .inl (.inr ⟨h, .inl h'⟩)
    · rcases hbefore with hb | hb
      · exact .inl (.inr ⟨h, .inr ⟨h', hb⟩⟩)
      · exact .inr (.inr ⟨h.symm, .inr ⟨h'.symm, hb⟩⟩)
    · exact .inr (.inr ⟨h.symm, .inl h'⟩)
  · exact .inr (.inl h)⟩

instance : IsTrans FactRow FactRow.beforeByKey := ⟨fun r s t hrs hst => by
  unfold FactRow.beforeByKey at *
  have hbefore : r.before s → s.before t → r.before t := IsTrans.trans r s t
  rcases hrs with hrs | ⟨hrs, hrs' | ⟨hrs', hb⟩⟩ <;>
    rcases hst with hst | ⟨hst, hst' | ⟨hst', hb'⟩⟩
  · exact .inl (hrs.trans hst)
  · exact .inl (hst ▸ hrs)
  · exact .inl (hst ▸ hrs)
  · exact .inl (hrs ▸ hst)
  · exact .inr ⟨hrs.trans hst, .inl (hrs'.trans hst')⟩
  · exact .inr ⟨hrs.trans hst, .inl (hst' ▸ hrs')⟩
  · exact .inl (hrs ▸ hst)
  · exact .inr ⟨hrs.trans hst, .inl (hrs' ▸ hst')⟩
  · exact .inr ⟨hrs.trans hst, .inr ⟨hrs'.trans hst', hbefore hb hb'⟩⟩⟩

def factCurrent (py : Python) (now : Int) (db : Db) (agentId : String)
    (subject attributeName : Option String) : List Fact :=
  ((db.facts.rows.filter fun r =>
      r.agentId = agentId && r.live && r.covers now &&
        (subject.all fun s => r.subjectKey = factKey py s) &&
        attributeName.all fun a => r.attributeKey = factKey py a).insertionSort
    FactRow.beforeByKey).map (rowToFact py)

/-- `ORDER BY valid_from DESC LIMIT 1`: rows that tie come by descending rowid,
as the index on valid_from is walked backwards. -/
def asOfRow (db : Db) (k : TimelineKey) (stamp : Int) : Option FactRow :=
  ((rowsOpenAt db k stamp).insertionSort fun r s => r.validFrom ≤ s.validFrom).getLast?

def factAsOf (py : Python) (db : Db) (agentId subject attributeName : String)
    (when_ : Datetime) : Option Fact :=
  (asOfRow db ⟨agentId, factKey py subject, factKey py attributeName⟩ (utcText when_)).map
    (rowToFact py)

end MarkSdk
