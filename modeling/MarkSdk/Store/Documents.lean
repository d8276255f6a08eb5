import MarkSdk.Store.Encryption
import MarkSdk.Store.Rows

/-!
Stored documents, and their rows in a backup.

`document_put` encrypts the title, the text and the source into blobs.
`document_rows` hands the columns out as they are, `import_document_row` puts
what it is given into the columns, and `document_fetch` decrypts them. JSON
columns hold the parsed object; times are ISO texts.
-/

namespace MarkSdk

open Lib

/-! ### JSON values -/

/-- The bits of `float("nan")`. -/
def nanBits : BitVec 64 := 0x7ff8000000000000#64

mutual

/-- `json.loads(json.dumps(value))`: tuples come back as lists. -/
def PyValue.jsonOf : PyValue → PyValue
  | .float bits => .float (if floatNumber bits = .nan then nanBits else bits)
  | .list xs => .list (PyValue.jsonItems xs)
  | .tuple xs => .list (PyValue.jsonItems xs)
  | .dict xs => .dict (PyValue.jsonEntries xs)
  | .other text => .str text
  | value => value

def PyValue.jsonItems : List PyValue → List PyValue
  | [] => []
  | x :: xs => x.jsonOf :: PyValue.jsonItems xs

def PyValue.jsonEntries : List (String × PyValue) → List (String × PyValue)
  | [] => []
  | (key, x) :: xs => (key, x.jsonOf) :: PyValue.jsonEntries xs

end

theorem lookup_jsonEntries (metadata : Metadata) (key : String) :
    (PyValue.jsonEntries metadata).lookup key = (metadata.lookup key).map PyValue.jsonOf := by
  induction metadata with
  | nil => rfl
  | cons entry metadata ih =>
      obtain ⟨k, value⟩ := entry
      rw [PyValue.jsonEntries, List.lookup_cons, List.lookup_cons]
      split
      · rfl
      · exact ih

mutual

/-- What was read from JSON is written and read back as it is. -/
theorem jsonOf_jsonOf : ∀ value : PyValue, value.jsonOf.jsonOf = value.jsonOf
  | .none => rfl
  | .bool _ => rfl
  | .int _ => rfl
  | .float bits => by
      have hquiet : floatNumber nanBits = .nan := by decide
      by_cases hnan : floatNumber bits = .nan
      · simp [PyValue.jsonOf, hnan, hquiet]
      · simp [PyValue.jsonOf, hnan]
  | .str _ => rfl
  | .list xs => by rw [PyValue.jsonOf, PyValue.jsonOf, jsonItems_jsonItems xs]
  | .tuple xs => by rw [PyValue.jsonOf, PyValue.jsonOf, jsonItems_jsonItems xs]
  | .dict xs => by rw [PyValue.jsonOf, PyValue.jsonOf, jsonEntries_jsonEntries xs]
  | .other _ => rfl

theorem jsonItems_jsonItems : ∀ xs : List PyValue,
    PyValue.jsonItems (PyValue.jsonItems xs) = PyValue.jsonItems xs
  | [] => rfl
  | x :: xs => by
      rw [PyValue.jsonItems, PyValue.jsonItems, jsonOf_jsonOf x, jsonItems_jsonItems xs]

theorem jsonEntries_jsonEntries : ∀ xs : List (String × PyValue),
    PyValue.jsonEntries (PyValue.jsonEntries xs) = PyValue.jsonEntries xs
  | [] => rfl
  | (key, x) :: xs => by
      rw [PyValue.jsonEntries, PyValue.jsonEntries, jsonOf_jsonOf x, jsonEntries_jsonEntries xs]

end

def hexDigit (n : Nat) : Char := if n < 10 then Char.ofNat (48 + n) else Char.ofNat (87 + n)

/-- A byte in the `repr` of a `bytes`. -/
def byteRepr (quote : Char) (b : UInt8) : List Char :=
  let c := Char.ofNat b.toNat
  if c = quote ∨ c = '\\' then ['\\', c]
  else if c = '\t' then ['\\', 't']
  else if c = '\n' then ['\\', 'n']
  else if c = '\r' then ['\\', 'r']
  else if b.toNat < 32 ∨ 127 ≤ b.toNat then
    ['\\', 'x', hexDigit (b.toNat / 16), hexDigit (b.toNat % 16)]
  else [c]

/-- `str(data)` of a `bytes`. -/
def bytesRepr (data : ByteArray) : String :=
  let quote := if 39 ∈ data.data.toList ∧ 34 ∉ data.data.toList then '\x22' else '\x27'
  String.ofList (['b', quote] ++ data.data.toList.flatMap (byteRepr quote) ++ [quote])

/-- What a column becomes under `json.dumps(..., default=str)`. -/
def Column.json : Column → PyValue
  | .null => .none
  | .text s => .str s
  | .blob data => .str (bytesRepr data)

/-- What `sqlite3` stores for a JSON value in a `TEXT` column; lists and
objects are dumped before. -/
def Column.ofJson (py : Python) : PyValue → Column
  | .none => .null
  | .str s => .text s
  | .list xs => .text ((py.dumps (.list xs)).getD "")
  | .dict xs => .text ((py.dumps (.dict xs)).getD "")
  | value => .text (pyStr py value)

/-! ### The table -/

/-- A row of `documents`. -/
structure DocumentRow where
  id : String
  title : Column
  content : Column
  source : Column
  agentId : String
  scope : String
  fragmentIds : PyValue
  tags : PyValue
  metadata : Metadata
  createdAt : String

/-- The record that `document_put` takes. -/
structure DocumentRecord where
  id : String
  agentId : String
  title : String
  content : String
  source : Option String
  scope : String
  fragmentIds : List String
  tags : List String
  metadata : Metadata
  createdAt : String

/-- What `document_fetch` returns. -/
structure FetchedDocument where
  id : String
  agentId : String
  title : String
  content : Option String
  source : Option String
  fragmentIds : PyValue
  tags : PyValue
  metadata : Metadata
  createdAt : String

/-- `_MARKER` -/
def documentMarker : String := "mark_document"

/-- `json_extract(metadata, '$.mark_document') = 1`, for which `true` is 1. -/
def DocumentRow.ours (r : DocumentRow) : Bool :=
  match r.metadata.lookup documentMarker with
  | some value => value.eq (.int 1)
  | none => false

abbrev Documents := Table DocumentRow.id

section Access

variable (fernet : Fernet) (provider : EncryptionProvider)

/-- The row that `document_put` writes. -/
def DocumentRecord.row (moment : ByteArray) (record : DocumentRecord) : DocumentRow where
  id := record.id
  title := provider.encryptStr fernet moment record.title
  content := provider.encryptStr fernet moment record.content
  source :=
    match record.source with
    | none => .null
    | some source => provider.encryptStr fernet moment source
  agentId := record.agentId
  scope := record.scope
  fragmentIds := .list (record.fragmentIds.map .str)
  tags := .list (record.tags.map .str)
  metadata := PyValue.jsonEntries (record.metadata.assign documentMarker (.int 1))
  createdAt := record.createdAt

/-- `INSERT OR REPLACE` -/
def documentPut (moment : ByteArray) (record : DocumentRecord) (documents : Documents) :
    Documents :=
  documents.insertOrReplace (record.row fernet provider moment)

def documentRow (withContent : Bool) (r : DocumentRow) : Except DecryptError FetchedDocument := do
  let title ← provider.decryptStr fernet r.title
  let content ← if withContent then (provider.decryptStr fernet r.content).map some else .ok none
  let source ←
    match r.source with
    | .null => .ok none
    | source => (provider.decryptStr fernet source).map some
  return {
    id := r.id
    agentId := r.agentId
    title := title
    content := content
    source := source
    fragmentIds := r.fragmentIds
    tags := r.tags
    metadata := r.metadata.filter fun entry => entry.1 ≠ documentMarker
    createdAt := r.createdAt }

def documentFetch (agentId documentId : String) (withContent : Bool) (documents : Documents) :
    Except DecryptError (Option FetchedDocument) :=
  match documents.rows.find? fun r => r.id = documentId && r.agentId = agentId && r.ours with
  | none => .ok none
  | some r => (documentRow fernet provider withContent r).map some

end Access

/-! ### Rows in a backup -/

/-- A row as `export_jsonl` writes it: `{"type": "document", **document}`. -/
def DocumentRow.line (r : DocumentRow) : Metadata :=
  [("type", .str "document"), ("id", .str r.id), ("title", r.title.json),
    ("content", r.content.json), ("source", r.source.json), ("agent_id", .str r.agentId),
    ("scope", .str r.scope), ("fragment_ids", r.fragmentIds), ("tags", r.tags),
    ("metadata", .dict r.metadata), ("created_at", .str r.createdAt)]

/-- `document_rows` of an agent, as they are written. -/
def documentLines (agentId : String) (documents : Documents) : List Metadata :=
  (documents.rows.filter fun r => r.agentId = agentId).map DocumentRow.line

/-- A column that is not `NULL`. -/
def requiredText (py : Python) (record : Metadata) (name : String) : Option String :=
  match (record.lookup name).map (Column.ofJson py) with
  | some (.text s) => some s
  | _ => none

/-- The row for an exported one, unless a `NOT NULL` column is missing, which
`OR IGNORE` passes over. -/
def importedDocument (py : Python) (record : Metadata) : Option DocumentRow := do
  let id ← requiredText py record "id"
  let title ← requiredText py record "title"
  let content ← requiredText py record "content"
  let agentId ← requiredText py record "agent_id"
  let scope ← requiredText py record "scope"
  let createdAt ← requiredText py record "created_at"
  return {
    id := id
    title := .text title
    content := .text content
    source := ((record.lookup "source").map (Column.ofJson py)).getD .null
    agentId := agentId
    scope := scope
    fragmentIds := (record.lookup "fragment_ids").getD (.list [])
    tags := (record.lookup "tags").getD (.list [])
    metadata :=
      match record.lookup "metadata" with
      | some (.dict metadata) => metadata
      | _ => []
    createdAt := createdAt }

/-- `import_document_row`: whether a row was added. -/
def importDocumentRow (py : Python) (record : Metadata) (documents : Documents) :
    Bool × Documents :=
  match importedDocument py record with
  | none => (false, documents)
  | some row =>
      match documents.insert? row with
      | none => (false, documents)
      | some documents => (true, documents)

end MarkSdk
