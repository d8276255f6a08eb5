import Mathlib.Data.List.Induction
import MarkSdk.Portability.Lines

/-!
What becomes of the documents in a backup.

The columns that `document_put` encrypts are blobs, also when the store is not
encrypted. `export_jsonl` writes them as the `str` of the bytes, and the import
stores that text, which no provider decrypts. So every document comes back
unreadable.
-/

namespace MarkSdk

open Lib

/-! ### Texts of bytes -/

theorem toList_bytesRepr (data : ByteArray) :
    ∃ rest, (bytesRepr data).toList = 'b' :: rest := by
  unfold bytesRepr
  simp only [String.toList_ofList, List.cons_append]
  exact ⟨_, rfl⟩

/-- No provider gives a text for the `str` of bytes. -/
theorem decryptStr_bytesRepr {fernet : Fernet} (hfernet : fernet.Lawful)
    (provider : EncryptionProvider) (data : ByteArray) :
    ∃ e, provider.decryptStr fernet (.text (bytesRepr data)) = .error e := by
  cases provider with
  | noOp => exact ⟨.attributeError, rfl⟩
  | stretched passphrase salt => exact ⟨.typeError, rfl⟩
  | keyed key =>
      unfold EncryptionProvider.decryptStr EncryptionProvider.decrypt
      simp only
      cases hdecrypt : fernet.decrypt key (.text (bytesRepr data)) with
      | none => exact ⟨.invalidToken, rfl⟩
      | some plain =>
          have hversion := hfernet.version key _ plain hdecrypt
          obtain ⟨rest, hrest⟩ := toList_bytesRepr data
          rw [hrest, List.find?_cons_of_pos (by decide)] at hversion
          cases hversion

/-! ### Documents in a store -/

/-- One call of `document_put`, with the time and the randomness that the
encryption gets. -/
structure DocumentCall where
  moment : ByteArray
  record : DocumentRecord

/-- The documents after a number of calls. -/
def putAll (fernet : Fernet) (provider : EncryptionProvider) (calls : List DocumentCall) :
    Documents :=
  calls.foldl (fun documents call => documentPut fernet provider call.moment call.record documents)
    .empty

/-- The document was stored, and its id not stored again. -/
def Stored (calls : List DocumentCall) (d : DocumentRecord) : Prop :=
  ∃ earlier call later, calls = earlier ++ call :: later ∧ call.record = d ∧
    ∀ c ∈ later, c.record.id ≠ d.id

/-- The document is fetched as it was put. -/
def ReadsBack (fernet : Fernet) (provider : EncryptionProvider) (agentId : String)
    (d : DocumentRecord) (documents : Documents) : Prop :=
  ∃ fetched, documentFetch fernet provider agentId d.id true documents = .ok (some fetched) ∧
    fetched.id = d.id ∧ fetched.title = d.title ∧ fetched.content = some d.content ∧
      fetched.source = d.source

theorem find?_eq_some_of_unique {α : Type} {p : α → Bool} {l : List α} {a : α} (ha : a ∈ l)
    (hpa : p a = true) (hone : ∀ b ∈ l, p b = true → b = a) : l.find? p = some a := by
  cases hfind : l.find? p with
  | none => exact absurd hpa (List.find?_eq_none.mp hfind a ha)
  | some b => rw [hone b (List.mem_of_find?_eq_some hfind) (List.find?_some hfind)]

section Put

variable {fernet : Fernet} {provider : EncryptionProvider} {calls : List DocumentCall}
  {d : DocumentRecord}

theorem ours_row (fernet : Fernet) (provider : EncryptionProvider) (moment : ByteArray)
    (d : DocumentRecord) : (d.row fernet provider moment).ours = true := by
  unfold DocumentRow.ours DocumentRecord.row
  simp only [lookup_jsonEntries, lookup_assign_self, Option.map_some]
  rfl

/-- Every row was written by one of the calls. -/
theorem mem_putAll {r : DocumentRow} (h : r ∈ (putAll fernet provider calls).rows) :
    ∃ call ∈ calls, r = call.record.row fernet provider call.moment := by
  unfold putAll at h
  induction calls using List.reverseRecOn with
  | nil => cases h
  | append_singleton calls call ih =>
      rw [List.foldl_append, List.foldl_cons, List.foldl_nil, documentPut,
        Table.rows_insertOrReplace] at h
      rcases List.mem_append.mp h with hold | hnew
      · obtain ⟨c, hc, rfl⟩ := ih (List.mem_filter.mp hold).1
        exact ⟨c, List.mem_append_left _ hc, rfl⟩
      · exact ⟨call, by simp, List.mem_singleton.mp hnew⟩

variable (fernet provider) in
/-- The row of a stored document is there. -/
theorem Stored.mem_putAll (h : Stored calls d) :
    ∃ moment, d.row fernet provider moment ∈ (putAll fernet provider calls).rows := by
  obtain ⟨earlier, call, later, rfl, rfl, hlater⟩ := h
  refine ⟨call.moment, ?_⟩
  unfold putAll
  induction later using List.reverseRecOn with
  | nil =>
      rw [List.foldl_append, List.foldl_cons, List.foldl_nil, documentPut,
        Table.rows_insertOrReplace]
      simp
  | append_singleton later c ih =>
      rw [← List.cons_append, ← List.append_assoc, List.foldl_append, List.foldl_cons,
        List.foldl_nil, documentPut, Table.rows_insertOrReplace]
      refine List.mem_append_left _ (List.mem_filter.mpr ⟨ih fun c' hc' => ?_, ?_⟩)
      · exact hlater c' (List.mem_append_left _ hc')
      · exact decide_eq_true (hlater c (by simp)).symm

/-- In the store itself a stored document reads back. -/
theorem Stored.readsBack (hfernet : fernet.Lawful) (hprovider : provider.WellFormed)
    (h : Stored calls d) :
    ReadsBack fernet provider d.agentId d (putAll fernet provider calls) := by
  obtain ⟨moment, hrow⟩ := h.mem_putAll fernet provider
  have hfind : (putAll fernet provider calls).rows.find?
      (fun r => r.id = d.id && r.agentId = d.agentId && r.ours) =
        some (d.row fernet provider moment) := by
    refine find?_eq_some_of_unique hrow ?_ fun r hr hr' => ?_
    · rw [ours_row]
      simp [DocumentRecord.row]
    · simp only [Bool.and_eq_true, decide_eq_true_eq] at hr'
      exact (putAll fernet provider calls).eq_of_key hr hrow hr'.1.1
  have hdecrypt := fun text => decryptStr_encryptStr hfernet hprovider moment text
  refine ⟨{
    id := d.id
    agentId := d.agentId
    title := d.title
    content := some d.content
    source := d.source
    fragmentIds := .list (d.fragmentIds.map .str)
    tags := .list (d.tags.map .str)
    metadata := (d.row fernet provider moment).metadata.filter
      fun entry => entry.1 ≠ documentMarker
    createdAt := d.createdAt }, ?_, rfl, rfl, rfl, rfl⟩
  unfold documentFetch
  rw [hfind]
  simp only [documentRow, DocumentRecord.row, hdecrypt]
  cases hsource : d.source with
  | none => rfl
  | some source =>
      have := hdecrypt source
      unfold EncryptionProvider.encryptStr at this ⊢
      simp only [this]
      rfl

end Put

/-! ### Documents in an import -/

/-- All titles are texts of bytes. -/
structure Garbled (documents : Documents) : Prop where
  title : ∀ r ∈ documents.rows, ∃ data, r.title = .text (bytesRepr data)

theorem garbled_empty : Garbled .empty := ⟨fun r hr => by cases hr⟩

/-- A garbled document is never fetched. -/
theorem Garbled.not_readsBack {fernet : Fernet} (hfernet : fernet.Lawful) {documents : Documents}
    (h : Garbled documents) (provider : EncryptionProvider) (agentId : String)
    (d : DocumentRecord) : ¬ ReadsBack fernet provider agentId d documents := by
  rintro ⟨fetched, hfetch, -⟩
  unfold documentFetch at hfetch
  split at hfetch
  · cases hfetch
  · rename_i r hfind
    obtain ⟨data, htitle⟩ := h.title r (List.mem_of_find?_eq_some hfind)
    obtain ⟨e, he⟩ := decryptStr_bytesRepr hfernet provider data
    rw [documentRow, htitle, he] at hfetch
    cases hfetch

theorem Garbled.importDocumentRow {py : Python} {record : Metadata} {documents : Documents}
    (h : Garbled documents) {data : ByteArray}
    (htitle : record.lookup "title" = some (.str (bytesRepr data))) :
    Garbled (importDocumentRow py record documents).2 := by
  unfold MarkSdk.importDocumentRow
  split
  · exact h
  · rename_i row hrow
    split
    · exact h
    · rename_i documents' hinsert
      refine ⟨fun r hr => ?_⟩
      rw [(Table.insert?_eq_some_iff.mp hinsert).2] at hr
      rcases List.mem_append.mp hr with hr | hr
      · exact h.title r hr
      · rw [List.mem_singleton.mp hr]
        refine ⟨data, ?_⟩
        have hrequired : requiredText py record "title" = some (bytesRepr data) := by
          rw [requiredText, htitle]
          rfl
        simp only [importedDocument, hrequired, Option.bind_eq_bind, Option.bind_some,
          Option.bind_eq_some_iff] at hrow
        obtain ⟨id, -, content, -, agentId, -, scope, -, createdAt, -, hrow⟩ := hrow
        cases hrow
        rfl

section Import

variable {py : Python} {format : LineFormat} {flush : Flush} {now : Int} {uuid : Nat → String}
  {override : Option String} {s : Importing}

theorem documents_flushed (hflush : flush.Frame) (s : Importing) (agentId : String) :
    (s.flushed flush agentId).contents.documents = s.contents.documents :=
  hflush.documents agentId _ (s.contents, s.counts)

theorem documents_importFact (s : Importing) (agentId : String) (number : Nat)
    (record : Metadata) :
    (s.importFact py format now uuid agentId number record).contents.documents =
      s.contents.documents := by
  unfold Importing.importFact
  split
  · rfl
  · split <;> rfl

/-- Only a document line reaches the documents. -/
theorem documents_record (hflush : flush.Frame) (number : Nat) {record : Metadata}
    (hkind : record.lookup "type" ≠ some (.str "document")) :
    (s.record py format flush now uuid override number record).contents.documents =
      s.contents.documents := by
  unfold Importing.record
  simp only
  split
  · split
    · exact documents_flushed hflush _ _
    · rfl
  · rw [documents_importFact, documents_flushed hflush]
  · rename_i hdocument
    exact absurd hdocument hkind
  · rfl

/-- The line of a row with a blob for its title. -/
theorem Garbled.record (h : Garbled s.contents.documents) (number : Nat) {r : DocumentRow}
    {data : ByteArray} (htitle : r.title = .blob data) :
    Garbled (s.record py format flush now uuid override number r.line).contents.documents := by
  have hkind : r.line.lookup "type" = some (.str "document") := rfl
  unfold Importing.record
  rw [hkind]
  have hline : (Metadata.assign (r.line.filter fun entry => entry.1 ≠ "type") "agent_id"
      (.str (lineAgent py override r.line))).lookup "title" = some (.str (bytesRepr data)) := by
    rw [lookup_assign_ne _ (by decide)]
    simp [DocumentRow.line, List.filter, List.lookup_cons, htitle, Column.json]
  exact h.importDocumentRow hline

/-- A record that is no document, or a document whose title is a blob. -/
def BlobTitled (record : Metadata) : Prop :=
  record.lookup "type" ≠ some (.str "document") ∨
    ∃ r data, record = DocumentRow.line r ∧ r.title = .blob data

theorem Garbled.line (hflush : flush.Frame) (h : Garbled s.contents.documents) (number : Nat)
    {record : Metadata} (hread : py.loads (format.dumps record) = some (.dict record))
    (hrecord : BlobTitled record) :
    Garbled (s.line py format flush now uuid override number
      (format.dumps record)).contents.documents := by
  unfold Importing.line
  split
  · exact h
  · rw [hread]
    rcases hrecord with hkind | ⟨r, data, rfl, htitle⟩
    · rw [documents_record hflush number hkind]
      exact h
    · exact h.record number htitle

theorem Garbled.importLines (hflush : flush.Frame) {records : List Metadata}
    (hread : ∀ record ∈ records, py.loads (format.dumps record) = some (.dict record))
    (hrecords : ∀ record ∈ records, BlobTitled record) (h : Garbled s.contents.documents) :
    Garbled (importLines py format flush now uuid override (records.map format.dumps)
      s).contents.documents := by
  unfold MarkSdk.importLines
  generalize 2 = number
  induction records generalizing s number with
  | nil => exact h
  | cons record records ih =>
      rw [List.map_cons, List.zipIdx_cons, List.foldl_cons]
      refine ih (fun x hx => hread x (List.mem_cons_of_mem record hx))
        (fun x hx => hrecords x (List.mem_cons_of_mem record hx)) ?_ (number + 1)
      exact h.line hflush number (hread record List.mem_cons_self)
        (hrecords record List.mem_cons_self)

theorem Garbled.importJsonl (hflush : flush.Frame) {header : Metadata} {records : List Metadata}
    (hread : ∀ record ∈ records, py.loads (format.dumps record) = some (.dict record))
    (hrecords : ∀ record ∈ records, BlobTitled record) {contents : Contents}
    (h : Garbled contents.documents) {result : Contents × ImportCounts}
    (himport : importJsonl py format flush now uuid override
      ((header :: records).map format.dumps) contents = .ok result) :
    Garbled result.1.documents := by
  unfold MarkSdk.importJsonl at himport
  simp only [List.map_cons] at himport
  split at himport
  · cases himport
    have hlines : Garbled (MarkSdk.importLines py format flush now uuid override
        (records.map format.dumps) ⟨contents, [], ⟨0, 0, 0, 0, 0⟩⟩).contents.documents :=
      Garbled.importLines hflush hread hrecords h
    generalize MarkSdk.importLines py format flush now uuid override (records.map format.dumps)
      ⟨contents, [], ⟨0, 0, 0, 0, 0⟩⟩ = s at hlines
    simp only
    generalize s.pending.map Prod.fst = agents
    induction agents generalizing s with
    | nil => exact hlines
    | cons agentId agents ih =>
        refine ih (s.flushed flush agentId) ?_
        rw [documents_flushed hflush]
        exact hlines
  · cases himport

end Import

/-! ### The backup -/

def EncryptionProvider.encrypted : EncryptionProvider → Bool
  | .noOp => false
  | _ => true

/-- What a store with these documents exports: no document but with a blob for
its title. -/
theorem blobTitled_of_mem {py : Python} {format : LineFormat}
    {pageFragments : Db → String → List Fragment} {fernet : Fernet}
    {provider : EncryptionProvider} {calls : List DocumentCall} {db : Db} {agentId : String}
    {record : Metadata}
    (h : record ∈ agentLines py format pageFragments ⟨db, putAll fernet provider calls⟩ agentId) :
    BlobTitled record := by
  rcases List.mem_append.mp h with h | hdocument
  · rcases List.mem_append.mp h with hmemory | hfact
    · obtain ⟨fragment, -, rfl⟩ := List.mem_map.mp hmemory
      exact .inl (by rw [List.lookup_cons_self]; simp)
    · obtain ⟨r, -, rfl⟩ := List.mem_map.mp hfact
      exact .inl (by rw [Fact.line, List.lookup_cons_self]; simp)
  · obtain ⟨r, hr, rfl⟩ := List.mem_map.mp hdocument
    obtain ⟨call, -, rfl⟩ := mem_putAll (List.mem_filter.mp hr).1
    exact .inr ⟨_, _, rfl, rfl⟩

section Backup

variable {fernet : Fernet} {py : Python} {format : LineFormat}
  {pageFragments : Db → String → List Fragment} {flush : Flush} {source : EncryptionProvider}
  {db : Db} {calls : List DocumentCall} {version exportedAt : String} {agents : List String}
  {decrypt : Bool} {file : List String} {now : Int} {uuid : Nat → String} {override : Option String}
  {restored : Contents × ImportCounts}

/-- Every document that comes back is garbled. -/
theorem garbled_restored (hflush : flush.Frame)
    (hexport : exportJsonl py format pageFragments version exportedAt agents source.encrypted
      decrypt ⟨db, putAll fernet source calls⟩ = .ok file)
    (hread : ∀ record ∈ exportRecords py format pageFragments version exportedAt agents
      ⟨db, putAll fernet source calls⟩, py.loads (format.dumps record) = some (.dict record))
    (himport : importJsonl py format flush now uuid override file .empty = .ok restored) :
    Garbled restored.1.documents := by
  unfold exportJsonl at hexport
  split at hexport
  · cases hexport
  · obtain rfl := Except.ok.inj hexport
    refine garbled_empty.importJsonl hflush
      (fun record hrecord => hread record (List.mem_cons_of_mem _ hrecord)) ?_ himport
    intro record hrecord
    obtain ⟨agentId, -, hline⟩ := List.mem_flatMap.mp hrecord
    exact blobTitled_of_mem hline

/-- No document survives a backup: what is exported from a store with some
documents and imported into an empty one reads back as it was exactly when no
document of the exported agents was stored. -/
theorem documents_survive_iff (hfernet : fernet.Lawful) (hflush : flush.Frame)
    (target : EncryptionProvider)
    (hexport : exportJsonl py format pageFragments version exportedAt agents source.encrypted
      decrypt ⟨db, putAll fernet source calls⟩ = .ok file)
    (hread : ∀ record ∈ exportRecords py format pageFragments version exportedAt agents
      ⟨db, putAll fernet source calls⟩, py.loads (format.dumps record) = some (.dict record))
    (himport : importJsonl py format flush now uuid override file .empty = .ok restored) :
    (∀ d, Stored calls d → d.agentId ∈ agents →
        ReadsBack fernet target (lineAgent py override [("agent_id", .str d.agentId)]) d
          restored.1.documents) ↔
      ∀ d, Stored calls d → d.agentId ∉ agents := by
  have hgarbled := garbled_restored hflush hexport hread himport
  constructor
  · intro h d hstored hagent
    exact hgarbled.not_readsBack hfernet target _ d (h d hstored hagent)
  · intro h d hstored hagent
    exact absurd hagent (h d hstored)

end Backup

/-! ### One document in a plain store -/

/-- A JSON object on one line, in the order of its entries. -/
def jsonLine (record : Metadata) : String :=
  "\x7b" ++ commaJoin (record.map fun entry =>
    jsonString entry.1 ++ ": " ++ (jsonText entry.2).getD "") ++ "\x7d"

def runbook : DocumentRecord where
  id := "d1"
  agentId := "coder"
  title := "Runbook"
  content := "Restart with care."
  source := none
  scope := "agent"
  fragmentIds := []
  tags := []
  metadata := []
  createdAt := "2026-01-01T00:00:00+00:00"

def runbookCalls : List DocumentCall := [⟨.empty, runbook⟩]

/-- The file of a store that holds this document alone. -/
def runbookRecords : List Metadata :=
  headerLine ["coder"] "1" "2026-01-02T00:00:00+00:00" ::
    documentLines "coder" (putAll .open_ .noOp runbookCalls)

/-- Python, as far as it reads these lines. -/
def Python.runbook : Python :=
  { Python.basic with
    loads := fun text => (runbookRecords.find? fun record => jsonLine record = text).map .dict }

def runbookFormat : LineFormat where
  dumps := jsonLine
  isoformat _ := ""
  fromisoformat _ := none
  modelDump _ := []

theorem loads_runbook {record : Metadata} (h : record ∈ runbookRecords) :
    Python.runbook.loads (jsonLine record) = some (.dict record) := by
  have hlines : (runbookRecords.map jsonLine).Nodup := by decide +kernel
  have hfind : runbookRecords.find? (fun other => jsonLine other = jsonLine record) =
      some record := by
    refine find?_eq_some_of_unique h (by simp) fun other hother heq => ?_
    exact List.inj_on_of_nodup_map hlines hother h (by simpa using heq)
  show (runbookRecords.find? fun other => jsonLine other = jsonLine record).map PyValue.dict = _
  rw [hfind, Option.map_some]

def noMemories : Flush := fun _ _ s => s

theorem frame_noMemories : noMemories.Frame := ⟨fun _ _ _ => rfl, fun _ _ _ => rfl⟩

def runbookSource : Contents := ⟨.empty, putAll .open_ .noOp runbookCalls⟩

theorem exportRecords_runbook :
    exportRecords .runbook runbookFormat (fun _ _ => []) "1" "2026-01-02T00:00:00+00:00" ["coder"]
      runbookSource = runbookRecords := by
  unfold exportRecords runbookRecords
  rw [List.flatMap_cons, List.flatMap_nil, List.append_nil]
  rfl

theorem export_runbook :
    exportJsonl .runbook runbookFormat (fun _ _ => []) "1" "2026-01-02T00:00:00+00:00" ["coder"]
      EncryptionProvider.noOp.encrypted false runbookSource =
        .ok (runbookRecords.map jsonLine) := by
  show Except.ok ((exportRecords .runbook runbookFormat (fun _ _ => []) "1"
    "2026-01-02T00:00:00+00:00" ["coder"] runbookSource).map jsonLine) = _
  rw [exportRecords_runbook]

theorem import_runbook : ∃ restored, importJsonl .runbook runbookFormat noMemories 0 (fun _ => "")
    none (runbookRecords.map jsonLine) .empty = .ok restored := by
  have hheader : checkHeader .runbook
      (jsonLine (headerLine ["coder"] "1" "2026-01-02T00:00:00+00:00")) = true := by
    unfold checkHeader
    rw [loads_runbook List.mem_cons_self]
    decide +kernel
  unfold importJsonl
  rw [runbookRecords, List.map_cons]
  simp only [hheader, if_true]
  exact ⟨_, rfl⟩

theorem documents_survive_iff_runbook : ∃ restored,
    importJsonl .runbook runbookFormat noMemories 0 (fun _ => "") none
        (runbookRecords.map jsonLine) .empty = .ok restored ∧
      ((∀ d, Stored runbookCalls d → d.agentId ∈ ["coder"] →
          ReadsBack .open_ .noOp (lineAgent .runbook none [("agent_id", .str d.agentId)]) d
            restored.1.documents) ↔
        ∀ d, Stored runbookCalls d → d.agentId ∉ ["coder"]) := by
  obtain ⟨restored, himport⟩ := import_runbook
  exact ⟨restored, himport, documents_survive_iff lawful_open frame_noMemories .noOp export_runbook
    (fun _ hrecord => loads_runbook (exportRecords_runbook ▸ hrecord)) himport⟩

/-- The document is read back from the store it was put in, and not from the
store it was restored to. -/
theorem runbook_lost : ∃ restored,
    importJsonl .runbook runbookFormat noMemories 0 (fun _ => "") none
        (runbookRecords.map jsonLine) .empty = .ok restored ∧
      ReadsBack .open_ .noOp "coder" runbook (putAll .open_ .noOp runbookCalls) ∧
      ¬ ReadsBack .open_ .noOp "coder" runbook restored.1.documents := by
  obtain ⟨restored, himport⟩ := import_runbook
  have hstored : Stored runbookCalls runbook := ⟨[], _, [], rfl, rfl, by simp⟩
  have hgarbled : Garbled restored.1.documents :=
    garbled_restored frame_noMemories export_runbook
      (fun _ hrecord => loads_runbook (exportRecords_runbook ▸ hrecord)) himport
  have hprovider : EncryptionProvider.noOp.WellFormed := trivial
  exact ⟨restored, himport, hstored.readsBack lawful_open hprovider,
    hgarbled.not_readsBack lawful_open .noOp "coder" runbook⟩

end MarkSdk
