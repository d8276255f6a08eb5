import MarkSdk.Facts.Effect
import MarkSdk.Store.Documents

/-!
Backup and restore: `export_jsonl` and `import_jsonl`.

A backup is a file of JSON lines: a header, and then the memories, the live
facts and the documents of each agent. An import reads the lines in their
order. Memories are collected and stored in batches, which `Flush` stands for;
facts and documents go to their tables one by one.
-/

namespace MarkSdk

open Lib

/-- What a store holds, as far as a backup covers it. -/
structure Contents where
  db : Db
  documents : Documents

def Contents.empty : Contents := ⟨.empty, .empty⟩

/-- The functions of Python's library and of pydantic that write and read the
lines. `json.loads` is `Python.loads`. -/
structure LineFormat where
  /-- `json.dumps(record, ensure_ascii=False)` -/
  dumps : Metadata → String
  /-- `datetime.isoformat` of a time in UTC -/
  isoformat : Int → String
  /-- `datetime.fromisoformat`; nothing for a `ValueError` -/
  fromisoformat : String → Option Datetime
  /-- `fragment.model_dump(mode="json", exclude={"embedding"})` -/
  modelDump : Fragment → Metadata

/-! ### Export -/

/-- A fact as `export_jsonl` writes it, without its id and its end. -/
def Fact.line (format : LineFormat) (agentId : String) (f : Fact) : Metadata :=
  [("type", .str "fact"), ("agent_id", .str agentId), ("subject", .str f.subject),
    ("attribute", .str f.attributeName), ("value", f.value),
    ("valid_from", .str (format.isoformat f.validFrom)),
    ("recorded_at", .str (format.isoformat f.recordedAt)),
    ("source_fragment_id",
      match f.sourceFragmentId with
      | none => .none
      | some fragmentId => .str fragmentId),
    ("metadata", .dict (PyValue.jsonEntries f.metadata))]

/-- `fact_rows`: the live rows of an agent, `ORDER BY valid_from, recorded_at,
rowid`. -/
def factRows (db : Db) (agentId : String) : List FactRow :=
  (db.facts.rows.filter fun r => r.agentId = agentId && r.live).insertionSort FactRow.before

/-- The lines for an agent. `page_fragments` gives its memories. -/
def agentLines (py : Python) (format : LineFormat) (pageFragments : Db → String → List Fragment)
    (contents : Contents) (agentId : String) : List Metadata :=
  (pageFragments contents.db agentId).map
      (fun fragment => ("type", .str "memory") :: format.modelDump fragment) ++
    (factRows contents.db agentId).map (fun r => (rowToFact py r).line format agentId) ++
    documentLines agentId contents.documents

def headerLine (agents : List String) (version exportedAt : String) : Metadata :=
  [("type", .str "header"), ("format", .str "mark-jsonl"), ("version", .int 1),
    ("mark_version", .str version), ("agents", .list (agents.map .str)),
    ("exported_at", .str exportedAt)]

/-- The records of a backup, the header first. -/
def exportRecords (py : Python) (format : LineFormat)
    (pageFragments : Db → String → List Fragment) (version exportedAt : String)
    (agents : List String) (contents : Contents) : List Metadata :=
  headerLine agents version exportedAt ::
    agents.flatMap (agentLines py format pageFragments contents)

inductive PortabilityError : Type
  | storeEncryption
  | invalidInput
  deriving DecidableEq, Repr

/-- `export_jsonl`: the lines of the file. -/
def exportJsonl (py : Python) (format : LineFormat) (pageFragments : Db → String → List Fragment)
    (version exportedAt : String) (agents : List String) (encrypted decrypt : Bool)
    (contents : Contents) : Except PortabilityError (List String) :=
  if encrypted && !decrypt then .error .storeEncryption
  else
    .ok ((exportRecords py format pageFragments version exportedAt agents contents).map
      format.dumps)

/-! ### Import of a fact -/

/-- What of a line is not usable: a field is missing, or of no use. -/
inductive LineError : Type
  | missing (field : String)
  | invalid
  deriving DecidableEq, Repr

/-- A fact line as `import_fact_row` has read it. -/
structure ImportedFact where
  subject : String
  attributeName : String
  key : TimelineKey
  encoded : String
  validFrom : Int
  recordedAt : Option Int
  sourceFragmentId : Option String
  metadata : Metadata

/-- `record[field]` -/
def Metadata.get (record : Metadata) (field : String) : Except LineError PyValue :=
  match record.lookup field with
  | some value => .ok value
  | none => .error (.missing field)

/-- `_utc_text` of a field of a line. -/
def LineFormat.readTime (format : LineFormat) (py : Python) (value : PyValue) :
    Except LineError Int :=
  match format.fromisoformat (pyStr py value) with
  | some moment => .ok (utcText moment)
  | none => .error .invalid

/-- What `import_fact_row` reads from a line before it writes. -/
def readFact (py : Python) (format : LineFormat) (agentId : String) (record : Metadata) :
    Except LineError ImportedFact := do
  let subject := pyStr py (← record.get "subject")
  let attributeName := pyStr py (← record.get "attribute")
  let key : TimelineKey := ⟨agentId, factKey py subject, factKey py attributeName⟩
  if key.subjectKey = "" ∨ key.attributeKey = "" then throw .invalid
  let validFrom ← format.readTime py (← record.get "valid_from")
  let recorded := (record.lookup "recorded_at").getD .none
  let recordedAt ← if recorded.truthy then (format.readTime py recorded).map some else .ok none
  let encoded ←
    match encodeValue py (← record.get "value") with
    | .ok encoded => .ok encoded
    | .error _ => .error .invalid
  -- `dict` would also take a list of pairs, which no export writes
  let metadata ←
    match record.lookup "metadata" with
    | some (.dict metadata) => .ok metadata
    | some value => if value.truthy then .error .invalid else .ok []
    | none => .ok []
  let sourceFragmentId :=
    match record.lookup "source_fragment_id" with
    | none => none
    | some .none => none
    | some value => some (pyStr py value)
  return ⟨subject, attributeName, key, encoded, validFrom, recordedAt, sourceFragmentId, metadata⟩

def ImportedFact.row (fact : ImportedFact) (now : Int) (uuid : String) : FactRow where
  id := uuid
  agentId := fact.key.agentId
  subject := strip fact.subject
  subjectKey := fact.key.subjectKey
  attributeName := strip fact.attributeName
  attributeKey := fact.key.attributeKey
  value := fact.encoded
  validFrom := fact.validFrom
  validTo := none
  recordedAt := fact.recordedAt.getD now
  retractedAt := none
  sourceFragmentId := fact.sourceFragmentId
  metadata := fact.metadata

/-- The row is the one that the line was written from. -/
def ImportedFact.same (fact : ImportedFact) (r : FactRow) : Bool :=
  r.validFrom = fact.validFrom && fact.recordedAt.all (fun t => r.recordedAt = t) &&
    r.value = fact.encoded

/-- `import_fact_row` from its transaction on: whether a row was added. -/
def importFactRow (now : Int) (uuid : String) (fact : ImportedFact) : Writing Bool := do
  let rows ← Txn.query fun db => liveRows db fact.key
  if rows.any fact.same then return false
  else
    insertRow (fact.row now uuid)
    if (fact.row now uuid).isMulti then return true
    else
      rechainFacts fact.key
      return true

/-! ### Import -/

/-- The counts that `import_jsonl` returns. -/
structure ImportCounts where
  memories : Nat
  facts : Nat
  documents : Nat
  skipped : Nat
  invalid : Nat

/-- An import on its way: what is stored, the memories that wait for their
batch, by agent, and the counts. -/
structure Importing where
  contents : Contents
  pending : List (String × List (Nat × Metadata))
  counts : ImportCounts

/-- `_flush`: a batch of memories of an agent is stored. -/
abbrev Flush := String → List (Nat × Metadata) → Contents × ImportCounts → Contents × ImportCounts

/-- `_BATCH` -/
def importBatch : Nat := 256

section Import

variable (py : Python) (format : LineFormat) (flush : Flush) (now : Int) (uuid : Nat → String)
  (override : Option String)

def Importing.flushed (s : Importing) (agentId : String) : Importing :=
  let batch := (s.pending.lookup agentId).getD []
  let (contents, counts) := flush agentId batch (s.contents, s.counts)
  ⟨contents, s.pending.filter fun entry => entry.1 ≠ agentId, counts⟩

/-- `pending.setdefault(agent, []).append(...)` -/
def Importing.collect (s : Importing) (agentId : String) (number : Nat) (record : Metadata) :
    Importing :=
  { s with
    pending :=
      if s.pending.any fun entry => entry.1 = agentId then
        s.pending.map fun entry =>
          if entry.1 = agentId then (entry.1, entry.2 ++ [(number, record)]) else entry
      else s.pending ++ [(agentId, [(number, record)])] }

/-- `agent_id or str(record.get("agent_id") or "__mark__")` -/
def lineAgent (record : Metadata) : String :=
  let own := (record.lookup "agent_id").getD .none
  let named := if own.truthy then pyStr py own else "__mark__"
  match override with
  | some agentId => if agentId = "" then named else agentId
  | none => named

def Importing.importFact (s : Importing) (agentId : String) (number : Nat) (record : Metadata) :
    Importing :=
  match readFact py format agentId record with
  | .error _ => { s with counts := { s.counts with invalid := s.counts.invalid + 1 } }
  | .ok fact =>
      match (importFactRow now (uuid number) fact).exec s.contents.db with
      | .ok (true, db) =>
          { s with
            contents := { s.contents with db := db }
            counts := { s.counts with facts := s.counts.facts + 1 } }
      | .ok (false, db) =>
          { s with
            contents := { s.contents with db := db }
            counts := { s.counts with skipped := s.counts.skipped + 1 } }
      | .error _ => { s with counts := { s.counts with invalid := s.counts.invalid + 1 } }

def Importing.importDocument (s : Importing) (record : Metadata) : Importing :=
  let (added, documents) := importDocumentRow py record s.contents.documents
  { s with
    contents := { s.contents with documents := documents }
    counts :=
      if added then { s.counts with documents := s.counts.documents + 1 }
      else { s.counts with skipped := s.counts.skipped + 1 } }

/-- One record of the file. -/
def Importing.record (s : Importing) (number : Nat) (record : Metadata) : Importing :=
  let agentId := lineAgent py override record
  let kind := record.lookup "type"
  let record : Metadata := record.filter fun entry => entry.1 ≠ "type"
  match kind with
  | some (.str "memory") =>
      let s := s.collect agentId number (record.assign "agent_id" (.str agentId))
      if importBatch ≤ ((s.pending.lookup agentId).getD []).length then s.flushed flush agentId
      else s
  | some (.str "fact") =>
      (s.flushed flush agentId).importFact py format now uuid agentId number record
  | some (.str "document") => s.importDocument py (record.assign "agent_id" (.str agentId))
  | _ => { s with counts := { s.counts with skipped := s.counts.skipped + 1 } }

/-- One line of the file. -/
def Importing.line (s : Importing) (number : Nat) (line : String) : Importing :=
  if strip line = "" then s
  else
    match py.loads line with
    | some (.dict record) => s.record py format flush now uuid override number record
    | _ => { s with counts := { s.counts with invalid := s.counts.invalid + 1 } }

/-- The lines behind the header, from line 2 on. -/
def importLines (lines : List String) (s : Importing) : Importing :=
  (lines.zipIdx 2).foldl (fun s line => s.line py format flush now uuid override line.2 line.1) s

/-- The header names the format, in a version that is known. -/
def checkHeader (line : String) : Bool :=
  match py.loads line with
  | some (.dict header) =>
      (match header.lookup "format" with
        | some value => value.eq (.str "mark-jsonl")
        | none => false) &&
      match pyInt py ((header.lookup "version").getD (.int 0)) with
      | .ok version => version ≤ 1
      | .error _ => false
  | _ => false

def importJsonl (file : List String) (contents : Contents) :
    Except PortabilityError (Contents × ImportCounts) :=
  match file with
  | [] => .error .invalidInput
  | header :: lines =>
      if checkHeader py header then
        let s := importLines py format flush now uuid override lines
          ⟨contents, [], ⟨0, 0, 0, 0, 0⟩⟩
        let s := (s.pending.map Prod.fst).foldl (fun s agentId => s.flushed flush agentId) s
        .ok (s.contents, s.counts)
      else .error .invalidInput

end Import

/-- Storing memories leaves the facts and the documents alone. -/
structure Flush.Frame (flush : Flush) : Prop where
  facts : ∀ agentId batch s, (flush agentId batch s).1.db.facts = s.1.db.facts
  documents : ∀ agentId batch s, (flush agentId batch s).1.documents = s.1.documents

end MarkSdk
