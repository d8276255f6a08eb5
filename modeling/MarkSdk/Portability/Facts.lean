import MarkSdk.Portability.FactLines

/-!
What becomes of the facts in a backup.

An import puts the live rows of a timeline back in the order of the timeline
(`restored_lines`), and chains the set rows. The end of an added row is not in
its line, and nothing computes it again: a timeline comes back as it was
exactly when no added value had ended (`facts_survive_iff`). Importing the
file again finds every row.
-/

namespace MarkSdk

open Lib

/-! ### What a line keeps of a row -/

/-- A row without its ids, its end and its withdrawal. -/
structure FactContent where
  subject : String
  attributeName : String
  value : String
  validFrom : Int
  recordedAt : Int
  sourceFragmentId : Option String
  metadata : Metadata
  isMulti : Bool

def FactRow.content (r : FactRow) : FactContent where
  subject := r.subject
  attributeName := r.attributeName
  value := r.value
  validFrom := r.validFrom
  recordedAt := r.recordedAt
  sourceFragmentId := r.sourceFragmentId
  metadata := PyValue.jsonEntries r.metadata
  isMulti := r.isMulti

/-- What `import_fact_row` tells rows of a timeline apart by. -/
def FactContent.same (c d : FactContent) : Bool :=
  c.validFrom = d.validFrom && c.recordedAt = d.recordedAt && c.value = d.value

/-- The rows that are there after one more line. -/
def collect (done : List FactContent) (c : FactContent) : List FactContent :=
  if done.any fun d => d.same c then done else done ++ [c]

/-- Being added survives the JSON of the metadata. -/
theorem isMulti_jsonEntries {py : Python} {r s : FactRow} (h : r.WellMade py)
    (hs : s.metadata = PyValue.jsonEntries r.metadata) : s.isMulti = r.isMulti := by
  unfold FactRow.isMulti
  rw [hs, lookup_jsonEntries]
  rcases h.flag with hflag | hflag
  · rw [hflag]
    rfl
  · rw [hflag]
    rfl

/-- The row that is imported for a row has its content. -/
theorem content_imported {py : Python} {r : FactRow} (h : r.WellMade py) (agentId : String)
    (now : Int) (uuid : String) :
    ((r.imported agentId).row now uuid).content = r.content := by
  have hmulti : ((r.imported agentId).row now uuid).isMulti = r.isMulti :=
    isMulti_jsonEntries h rfl
  unfold FactRow.content
  rw [hmulti]
  simp only [ImportedFact.row, FactRow.imported, h.stripped.1, h.stripped.2, Option.getD_some,
    jsonEntries_jsonEntries]

/-! ### Rows that are there -/

/-- The rows after all lines of a list. -/
def collectAll (done contents : List FactContent) : List FactContent := contents.foldl collect done

theorem FactContent.same_iff {c d : FactContent} :
    c.same d = true ↔
      c.validFrom = d.validFrom ∧ c.recordedAt = d.recordedAt ∧ c.value = d.value := by
  simp [FactContent.same, and_assoc]

theorem mem_collect {done : List FactContent} {c d : FactContent} (h : d ∈ done) :
    d ∈ collect done c := by
  unfold collect
  split
  · exact h
  · exact List.mem_append_left _ h

theorem mem_collectAll {done contents : List FactContent} {d : FactContent} (h : d ∈ done) :
    d ∈ collectAll done contents := by
  induction contents generalizing done with
  | nil => exact h
  | cons c contents ih => exact ih (mem_collect h)

/-- Every line finds its row afterwards. -/
theorem exists_same_collectAll {done contents : List FactContent} {c : FactContent}
    (hc : c ∈ contents) : ∃ d ∈ collectAll done contents, d.same c = true := by
  induction contents generalizing done with
  | nil => cases hc
  | cons c' contents ih =>
      rcases List.mem_cons.mp hc with rfl | hc
      · have hhere : ∃ d ∈ collect done c, d.same c = true := by
          unfold collect
          split
          · rename_i hany
            exact List.any_eq_true.mp hany
          · exact ⟨c, by simp, FactContent.same_iff.mpr ⟨rfl, rfl, rfl⟩⟩
        obtain ⟨d, hd, hsame⟩ := hhere
        show ∃ d ∈ collectAll (collect done c) contents, d.same c = true
        exact ⟨d, mem_collectAll hd, hsame⟩
      · exact ih hc

/-- Lines that find their rows add nothing. -/
theorem collectAll_of_same {done contents : List FactContent}
    (h : ∀ c ∈ contents, ∃ d ∈ done, d.same c = true) : collectAll done contents = done := by
  induction contents with
  | nil => rfl
  | cons c contents ih =>
      have hfound : collect done c = done := if_pos (List.any_eq_true.mpr (h c List.mem_cons_self))
      unfold collectAll at ih ⊢
      rw [List.foldl_cons, hfound]
      exact ih fun c' hc' => h c' (List.mem_cons_of_mem c hc')

/-- Lines that no two rows share add all their rows. -/
theorem collectAll_of_pairwise {done contents : List FactContent}
    (h : (done ++ contents).Pairwise fun c d => c.same d = false) :
    collectAll done contents = done ++ contents := by
  induction contents generalizing done with
  | nil => exact (List.append_nil done).symm
  | cons c contents ih =>
      have hnew : collect done c = done ++ [c] := by
        refine if_neg fun hany => ?_
        obtain ⟨d, hd, hsame⟩ := List.any_eq_true.mp hany
        have := (List.pairwise_append.mp h).2.2 d hd c List.mem_cons_self
        rw [hsame] at this
        cases this
      unfold collectAll at ih ⊢
      rw [List.foldl_cons, hnew, ih (by simpa using h), List.append_assoc, List.singleton_append]

/-! ### One line -/

/-- The facts after `import_fact_row`. -/
def Db.importRow (db : Db) (now : Int) (uuid : String) (fact : ImportedFact) : Db :=
  if (liveRows db fact.key).any fact.same then db
  else if (fact.row now uuid).isMulti then db.addRow (fact.row now uuid)
  else (db.addRow (fact.row now uuid)).rechain fact.key

theorem exec_importFactRow {db : Db} {now : Int} {uuid : String} (huuid : uuid ∉ db.factIds)
    (fact : ImportedFact) :
    (importFactRow now uuid fact).exec db =
      .ok (!(liveRows db fact.key).any fact.same, db.importRow now uuid fact) := by
  have hrow : Db.insertFact (fact.row now uuid) db = .ok (db.addRow (fact.row now uuid)) :=
    insertFact_addRow huuid
  unfold importFactRow Db.importRow
  simp only [Txn.exec_bind, Txn.exec_query]
  cases (liveRows db fact.key).any fact.same with
  | true => rfl
  | false =>
      simp only [Bool.false_eq_true, if_false, Txn.exec_bind, exec_insertRow, hrow]
      cases (fact.row now uuid).isMulti with
      | true => rfl
      | false =>
          simp only [Bool.false_eq_true, if_false, Txn.exec_bind, exec_rechainFacts]
          rfl

theorem factIds_importRow {db : Db} {now : Int} {uuid : String} (huuid : uuid ∉ db.factIds)
    (fact : ImportedFact) {id : String} (hid : id ∈ (db.importRow now uuid fact).factIds) :
    id ∈ db.factIds ∨ id = uuid := by
  have hadd : (db.addRow (fact.row now uuid)).factIds = db.factIds ++ [uuid] :=
    factIds_addRow huuid
  unfold Db.importRow at hid
  split at hid
  · exact .inl hid
  · split at hid
    · rw [hadd] at hid
      simpa using hid
    · rw [factIds_rechain, hadd] at hid
      simpa using hid

/-- The line of a row is the line of a stored one if they agree in what
`import_fact_row` compares. -/
theorem same_imported (agentId : String) (r s : FactRow) :
    (r.imported agentId).same s = s.content.same r.content := by
  rw [Bool.eq_iff_iff, FactContent.same_iff]
  simp only [ImportedFact.same, Bool.and_eq_true, decide_eq_true_eq, and_assoc]
  show _ ∧ decide (s.recordedAt = r.recordedAt) = true ∧ _ ↔ _
  rw [decide_eq_true_eq]
  rfl

/-- The live rows of a timeline have these contents, the set rows are chained,
and no added row has an end. -/
structure Restored (k : TimelineKey) (contents : List FactContent) (db : Db) : Prop where
  contents : (liveRows db k).map FactRow.content = contents
  chained : ChainedAt db k
  unended : ∀ r ∈ liveRows db k, r.isMulti = true → r.validTo = none

theorem restored_empty (k : TimelineKey) : Restored k [] .empty where
  contents := rfl
  chained := chained_empty.chainedAt k
  unended r hr := by cases (mem_liveRows.mp hr).1

theorem Restored.congr {k : TimelineKey} {contents : List FactContent} {db db' : Db}
    (h : Restored k contents db) (hlive : liveRows db' k = liveRows db k) :
    Restored k contents db' where
  contents := hlive ▸ h.contents
  chained := (chainedAt_congr hlive).mpr h.chained
  unended := hlive ▸ h.unended

section Step

variable {py : Python} {db : Db} {k : TimelineKey} {contents : List FactContent} {now : Int}
  {uuid agentId : String} {r : FactRow}

/-- Lines of another timeline leave the live rows alone. -/
theorem liveRows_importRow_ne {fact : ImportedFact} (huuid : uuid ∉ db.factIds)
    (hk : fact.key ≠ k) : liveRows (db.importRow now uuid fact) k = liveRows db k := by
  have hadd : liveRows (db.addRow (fact.row now uuid)) k = liveRows db k :=
    liveRows_insertFact (insertFact_addRow huuid) hk
  unfold Db.importRow
  split
  · rfl
  · split
    · exact hadd
    · rw [liveRows_rechain_ne hk.symm, hadd]

/-- The line of a row adds the row to its timeline, unless it is there. -/
theorem Restored.importRow (h : Restored k contents db) (hr : r.WellMade py)
    (huuid : uuid ∉ db.factIds) (hk : (r.imported agentId).key = k) :
    Restored k (collect contents r.content) (db.importRow now uuid (r.imported agentId)) := by
  have hcontent := content_imported hr agentId now uuid
  generalize hrow : (r.imported agentId).row now uuid = row at hcontent
  have hid : row.id ∉ db.factIds := by rwa [← hrow]
  have hlive : row.live = true := by rw [← hrow]; rfl
  have hopen : row.validTo = none := by rw [← hrow]; rfl
  have hkey : row.timelineKey = k := by rw [← hrow, ← hk]; rfl
  have hadd : liveRows (db.addRow row) k = liveRows db k ++ [row] :=
    liveRows_addRow hid hlive hkey
  have hany : (liveRows db k).any (r.imported agentId).same =
      contents.any fun d => d.same r.content := by
    rw [← h.contents, List.any_map]
    exact congrArg _ (funext fun s => same_imported agentId r s)
  unfold Db.importRow collect
  rw [hk, hany, hrow]
  split
  · exact h
  · split
    · rename_i hmulti
      refine ⟨?_, ?_, fun s hs hsmulti => ?_⟩
      · rw [hadd, List.map_append, h.contents, List.map_singleton, hcontent]
      · refine (chainedAt_of_setRows ?_).mpr h.chained
        unfold setRows
        rw [hadd, List.filter_append]
        simp [hmulti]
      · rw [hadd] at hs
        rcases List.mem_append.mp hs with hs | hs
        · exact h.unended s hs hsmulti
        · rw [List.mem_singleton.mp hs]
          exact hopen
    · rename_i hset
      refine ⟨?_, chainedAt_rechain _ k, fun s hs hsmulti => ?_⟩
      · rw [liveRows_rechain, List.map_map]
        have hchain : FactRow.content ∘ chainRow (db.addRow row) k = FactRow.content := rfl
        rw [hchain, hadd, List.map_append, h.contents, List.map_singleton, hcontent]
      · rw [liveRows_rechain] at hs
        obtain ⟨s', hs', rfl⟩ := List.mem_map.mp hs
        have hadded : s'.isMulti = true := hsmulti
        have hout : s' ∉ chain (db.addRow row) k := by
          intro hmem
          have := (mem_chain.mp hmem).2
          simp [hadded] at this
        rw [chainRow, FactRow.endAt_validTo, chainStop_of_not_mem (mem_liveRows.mp hs').1 hout]
        rw [hadd] at hs'
        rcases List.mem_append.mp hs' with hs' | hs'
        · exact h.unended s' hs' hadded
        · rw [List.mem_singleton.mp hs']
          exact hopen

end Step

/-! ### The lines of a file -/

/-- The agent that `lineAgent` finds in the lines of an agent. -/
def targetAgent (override : Option String) (own : String) : String :=
  let named := if own = "" then "__mark__" else own
  match override with
  | some agentId => if agentId = "" then named else agentId
  | none => named

/-- A line is read back as the record it was written from. -/
def LineFormat.Reads (py : Python) (format : LineFormat) (record : Metadata) : Prop :=
  strip (format.dumps record) ≠ "" ∧ py.loads (format.dumps record) = some (.dict record)

section Lines

variable {py : Python} {format : LineFormat} {flush : Flush} {now : Int} {uuid : Nat → String}
  {override : Option String} {s : Importing}

theorem lineAgent_line (py : Python) (format : LineFormat) (override : Option String) (own : String)
    (f : Fact) : lineAgent py override (f.line format own) = targetAgent override own := by
  have hown : (f.line format own).lookup "agent_id" = some (.str own) := rfl
  unfold lineAgent targetAgent
  rw [hown]
  cases override <;> by_cases hempty : own = "" <;> simp [PyValue.truthy, hempty, pyStr]

variable (py format flush now uuid override) in
/-- The lines of records, from a line number on. -/
def importFrom (number : Nat) (records : List Metadata) (s : Importing) : Importing :=
  ((records.map format.dumps).zipIdx number).foldl
    (fun s line => s.line py format flush now uuid override line.2 line.1) s

theorem importFrom_cons (number : Nat) (record : Metadata) (records : List Metadata)
    (s : Importing) :
    importFrom py format flush now uuid override number (record :: records) s =
      importFrom py format flush now uuid override (number + 1) records
        (s.line py format flush now uuid override number (format.dumps record)) := rfl

theorem importFrom_append (number : Nat) (records records' : List Metadata) (s : Importing) :
    importFrom py format flush now uuid override number (records ++ records') s =
      importFrom py format flush now uuid override (number + records.length) records'
        (importFrom py format flush now uuid override number records s) := by
  unfold importFrom
  rw [List.map_append, List.zipIdx_append, List.foldl_append, List.length_map]

theorem facts_flushed (hflush : flush.Frame) (s : Importing) (agentId : String) :
    (s.flushed flush agentId).contents.db.facts = s.contents.db.facts :=
  hflush.facts agentId _ (s.contents, s.counts)

theorem line_eq_record (number : Nat) {record : Metadata} (hread : format.Reads py record) :
    s.line py format flush now uuid override number (format.dumps record) =
      s.record py format flush now uuid override number record := by
  unfold Importing.line
  rw [if_neg hread.1, hread.2]

/-- Only a fact line reaches the facts. -/
theorem facts_record (hflush : flush.Frame) (number : Nat) {record : Metadata}
    (hkind : record.lookup "type" ≠ some (.str "fact")) :
    (s.record py format flush now uuid override number record).contents.db.facts =
      s.contents.db.facts := by
  unfold Importing.record
  simp only
  split
  · split
    · exact facts_flushed hflush _ _
    · rfl
  · rename_i hfact
    exact absurd hfact hkind
  · rfl
  · rfl

/-- The line of a row brings the row. -/
theorem facts_record_line (hflush : flush.Frame) (number : Nat) {r : FactRow}
    (hr : r.WellMade py) (hvalid : format.ReadsTime r.validFrom)
    (hrecorded : format.ReadsTime r.recordedAt) (own : String)
    (huuid : uuid number ∉ s.contents.db.factIds) :
    ∃ db : Db, db.facts = s.contents.db.facts ∧
      (s.record py format flush now uuid override number
        ((rowToFact py r).line format own)).contents.db =
      db.importRow now (uuid number) (r.imported (targetAgent override own)) := by
  have hkind : ((rowToFact py r).line format own).lookup "type" = some (.str "fact") := rfl
  have hfacts := facts_flushed hflush s (targetAgent override own)
  unfold Importing.record
  rw [hkind, lineAgent_line]
  simp only
  generalize s.flushed flush (targetAgent override own) = s' at hfacts
  refine ⟨s'.contents.db, hfacts, ?_⟩
  have huuid' : uuid number ∉ s'.contents.db.factIds := by
    rwa [Db.factIds, hfacts]
  rw [Importing.importFact, readFact_line hr hvalid hrecorded]
  simp only [exec_importFactRow huuid']
  cases (liveRows s'.contents.db (r.imported (targetAgent override own)).key).any
    (r.imported (targetAgent override own)).same <;> rfl

/-- An import on its way: what is restored of a timeline. Ids come from the
numbers of the lines before. -/
structure Restoring (uuid : Nat → String) (k : TimelineKey) (number : Nat)
    (contents : List FactContent) (s : Importing) : Prop where
  restored : Restored k contents s.contents.db
  ids : ∀ id ∈ s.contents.db.factIds, ∃ m, m < number ∧ id = uuid m

variable (py format flush now uuid override) in
/-- The lines of the records bring these rows to a timeline. -/
def Restores (k : TimelineKey) (records : List Metadata) (contents : List FactContent) : Prop :=
  ∀ s number done, Restoring uuid k number done s →
    Restoring uuid k (number + records.length) (collectAll done contents)
      (importFrom py format flush now uuid override number records s)

theorem Restores.nil (k : TimelineKey) : Restores py format flush now uuid override k [] [] :=
  fun _ _ _ h => h

theorem Restores.append {k : TimelineKey} {records records' : List Metadata}
    {contents contents' : List FactContent}
    (h : Restores py format flush now uuid override k records contents)
    (h' : Restores py format flush now uuid override k records' contents') :
    Restores py format flush now uuid override k (records ++ records') (contents ++ contents') := by
  intro s number done hs
  have hboth := h' _ _ _ (h s number done hs)
  rw [importFrom_append, List.length_append, ← Nat.add_assoc]
  unfold collectAll at hboth ⊢
  rw [List.foldl_append]
  exact hboth

/-- A list of single lines. -/
theorem Restores.map {β : Type} {k : TimelineKey} {line : β → Metadata}
    {contents : β → List FactContent} {xs : List β}
    (h : ∀ x ∈ xs, Restores py format flush now uuid override k [line x] (contents x)) :
    Restores py format flush now uuid override k (xs.map line) (xs.flatMap contents) := by
  induction xs with
  | nil => exact Restores.nil k
  | cons x xs ih =>
      rw [List.map_cons, List.flatMap_cons, ← List.singleton_append]
      exact (h x List.mem_cons_self).append (ih fun y hy => h y (List.mem_cons_of_mem x hy))

theorem Restores.flatMap {β : Type} {k : TimelineKey} {lines : β → List Metadata}
    {contents : β → List FactContent} {xs : List β}
    (h : ∀ x ∈ xs, Restores py format flush now uuid override k (lines x) (contents x)) :
    Restores py format flush now uuid override k (xs.flatMap lines) (xs.flatMap contents) := by
  induction xs with
  | nil => exact Restores.nil k
  | cons x xs ih =>
      rw [List.flatMap_cons, List.flatMap_cons]
      exact (h x List.mem_cons_self).append (ih fun y hy => h y (List.mem_cons_of_mem x hy))

/-- Lines that bring nothing. -/
theorem Restores.nothing {k : TimelineKey} {records : List Metadata}
    (h : ∀ record ∈ records, Restores py format flush now uuid override k [record] []) :
    Restores py format flush now uuid override k records [] := by
  induction records with
  | nil => exact Restores.nil k
  | cons record records ih =>
      rw [← List.singleton_append]
      exact (h record List.mem_cons_self).append
        (ih fun x hx => h x (List.mem_cons_of_mem record hx))

theorem Restoring.of_facts {k : TimelineKey} {number number' : Nat} {contents : List FactContent}
    {s' : Importing} (h : Restoring uuid k number contents s)
    (hfacts : s'.contents.db.facts = s.contents.db.facts) (hnumber : number ≤ number') :
    Restoring uuid k number' contents s' where
  restored := h.restored.congr (by rw [liveRows, liveRows, hfacts])
  ids id hid := by
    rw [Db.factIds, hfacts] at hid
    obtain ⟨m, hm, rfl⟩ := h.ids id hid
    exact ⟨m, by omega, rfl⟩

/-- Lines of memories and documents bring nothing. -/
theorem restores_other (hflush : flush.Frame) (k : TimelineKey) {record : Metadata}
    (hread : format.Reads py record) (hkind : record.lookup "type" ≠ some (.str "fact")) :
    Restores py format flush now uuid override k [record] [] := by
  intro s number done hs
  refine hs.of_facts ?_ (Nat.le_add_right _ _)
  show (s.line py format flush now uuid override number
    (format.dumps record)).contents.db.facts = _
  rw [line_eq_record number hread, facts_record hflush number hkind]

/-- The line of a row brings its content to the timeline it belongs to. -/
theorem restores_line (hflush : flush.Frame) (huuid : Function.Injective uuid) (k : TimelineKey)
    {r : FactRow} (hr : r.WellMade py) (hvalid : format.ReadsTime r.validFrom)
    (hrecorded : format.ReadsTime r.recordedAt) (own : String)
    (hread : format.Reads py ((rowToFact py r).line format own)) :
    Restores py format flush now uuid override k [(rowToFact py r).line format own]
      (if (r.imported (targetAgent override own)).key = k then [r.content] else []) := by
  intro s number done hs
  have hfresh : ∀ db : Db, db.facts = s.contents.db.facts → uuid number ∉ db.factIds := by
    intro db hdb hid
    rw [Db.factIds, hdb] at hid
    obtain ⟨m, hm, hnumber⟩ := hs.ids _ hid
    exact absurd (huuid hnumber) (by omega)
  obtain ⟨db, hdb, hnext⟩ : ∃ db : Db, db.facts = s.contents.db.facts ∧
      (s.record py format flush now uuid override number
        ((rowToFact py r).line format own)).contents.db =
      db.importRow now (uuid number) (r.imported (targetAgent override own)) :=
    facts_record_line hflush number hr hvalid hrecorded own (hfresh _ rfl)
  have hline : importFrom py format flush now uuid override number
      [(rowToFact py r).line format own] s =
        s.record py format flush now uuid override number ((rowToFact py r).line format own) :=
    line_eq_record number hread
  rw [hline]
  have hdone : Restored k done db := hs.restored.congr (by rw [liveRows, liveRows, hdb])
  constructor
  · rw [hnext]
    split
    · rename_i hk
      exact hdone.importRow hr (hfresh db hdb) hk
    · rename_i hk
      exact hdone.congr (liveRows_importRow_ne (hfresh db hdb) hk)
  · intro id hid
    rw [hnext] at hid
    rcases factIds_importRow (hfresh db hdb) _ hid with hid | rfl
    · rw [Db.factIds, hdb] at hid
      obtain ⟨m, hm, rfl⟩ := hs.ids id hid
      exact ⟨m, by simpa using Nat.lt_succ_of_lt hm, rfl⟩
    · exact ⟨number, by simp, rfl⟩

/-! ### The file -/

variable {pageFragments : Db → String → List Fragment} {contents : Contents}

/-- The rows of a database that the fact calls leave, with times that are read
back from their texts. -/
structure Readable (py : Python) (format : LineFormat) (db : Db) : Prop where
  wellMade : ∀ r ∈ db.facts.rows, r.WellMade py
  validFrom : ∀ r ∈ db.facts.rows, format.ReadsTime r.validFrom
  recordedAt : ∀ r ∈ db.facts.rows, format.ReadsTime r.recordedAt

def broughtBy (override : Option String) (db : Db) (k : TimelineKey) (agentId : String) :
    List FactContent :=
  if targetAgent override agentId = k.agentId then
    (timeline db ⟨agentId, k.subjectKey, k.attributeKey⟩).map FactRow.content
  else []

theorem mem_factRows {db : Db} {agentId : String} {r : FactRow} :
    r ∈ factRows db agentId ↔ r ∈ db.facts.rows ∧ r.agentId = agentId ∧ r.live = true := by
  simp [factRows]

theorem key_imported {r : FactRow} {agentId own : String} {k : TimelineKey}
    (hown : r.agentId = own) :
    (r.imported agentId).key = k ↔
      agentId = k.agentId ∧ r.timelineKey = ⟨own, k.subjectKey, k.attributeKey⟩ := by
  obtain ⟨kagent, ksubject, kattribute⟩ := k
  simp [FactRow.imported, FactRow.timelineKey, hown]

theorem flatMap_factRows (override : Option String) (db : Db) (k : TimelineKey)
    (agentId : String) :
    (factRows db agentId).flatMap (fun r =>
        if (r.imported (targetAgent override agentId)).key = k then [r.content] else []) =
      broughtBy override db k agentId := by
  have hflat : ∀ rows : List FactRow, (∀ r ∈ rows, r.agentId = agentId) →
      rows.flatMap (fun r =>
        if (r.imported (targetAgent override agentId)).key = k then [r.content] else []) =
      (rows.filter fun r => targetAgent override agentId = k.agentId &&
        r.timelineKey = ⟨agentId, k.subjectKey, k.attributeKey⟩).map FactRow.content := by
    intro rows hrows
    induction rows with
    | nil => rfl
    | cons r rows ih =>
        have hkey : (r.imported (targetAgent override agentId)).key = k ↔ _ :=
          key_imported (hrows r List.mem_cons_self)
        rw [List.flatMap_cons, ih fun s hs => hrows s (List.mem_cons_of_mem r hs),
          List.filter_cons]
        by_cases hk : (r.imported (targetAgent override agentId)).key = k
        · have hboth := hkey.mp hk
          rw [if_pos hk, if_pos (by simp [hboth.1, hboth.2])]
          rfl
        · have hnot := mt hkey.mpr hk
          rw [if_neg hk, if_neg (by simpa using hnot)]
          rfl
  rw [hflat _ fun r hr => (mem_factRows.mp hr).2.1]
  unfold broughtBy
  by_cases htarget : targetAgent override agentId = k.agentId
  · rw [if_pos htarget]
    simp only [htarget, decide_true, Bool.true_and]
    unfold factRows timeline liveRows
    rw [filter_insertionSort, List.filter_filter]
    congr 2
    refine List.filter_congr fun r _ => ?_
    rw [Bool.eq_iff_iff]
    simp only [FactRow.timelineKey, Bool.and_eq_true, decide_eq_true_eq, TimelineKey.mk.injEq]
    tauto
  · rw [if_neg htarget]
    simp [htarget]

theorem mem_exportRecords {version exportedAt : String} {agents : List String}
    {agentId : String} (hagent : agentId ∈ agents) {record : Metadata}
    (h : record ∈ agentLines py format pageFragments contents agentId) :
    record ∈ exportRecords py format pageFragments version exportedAt agents contents :=
  List.mem_cons_of_mem _ (List.mem_flatMap.mpr ⟨agentId, hagent, h⟩)

theorem restores_agent (hflush : flush.Frame) (huuid : Function.Injective uuid)
    (hdb : Readable py format contents.db) (k : TimelineKey) (agentId : String)
    (hread : ∀ record ∈ agentLines py format pageFragments contents agentId,
      format.Reads py record) :
    Restores py format flush now uuid override k
      (agentLines py format pageFragments contents agentId)
      (broughtBy override contents.db k agentId) := by
  have hmemories : Restores py format flush now uuid override k
      ((pageFragments contents.db agentId).map
        fun fragment => ("type", .str "memory") :: format.modelDump fragment) [] := by
    refine Restores.nothing fun record hrecord => restores_other hflush k (hread record ?_) ?_
    · exact List.mem_append_left _ (List.mem_append_left _ hrecord)
    · obtain ⟨fragment, -, rfl⟩ := List.mem_map.mp hrecord
      rw [List.lookup_cons_self]
      simp
  have hfacts : Restores py format flush now uuid override k
      ((factRows contents.db agentId).map fun r => (rowToFact py r).line format agentId)
      ((factRows contents.db agentId).flatMap fun r =>
        if (r.imported (targetAgent override agentId)).key = k then [r.content] else []) := by
    refine Restores.map fun r hr => ?_
    have hrow := (mem_factRows.mp hr).1
    exact restores_line hflush huuid k (hdb.wellMade r hrow) (hdb.validFrom r hrow)
      (hdb.recordedAt r hrow) agentId
      (hread _ (List.mem_append_left _ (List.mem_append_right _ (List.mem_map_of_mem hr))))
  have hdocuments : Restores py format flush now uuid override k
      (documentLines agentId contents.documents) [] := by
    refine Restores.nothing fun record hrecord => restores_other hflush k (hread record ?_) ?_
    · exact List.mem_append_right _ hrecord
    · obtain ⟨r, -, rfl⟩ := List.mem_map.mp hrecord
      rw [DocumentRow.line, List.lookup_cons_self]
      simp
  rw [flatMap_factRows] at hfacts
  have hall := (hmemories.append hfacts).append hdocuments
  rwa [List.nil_append, List.append_nil] at hall

theorem facts_allFlushed (hflush : flush.Frame) (agents : List String) (s : Importing) :
    (agents.foldl (fun s agentId => s.flushed flush agentId) s).contents.db.facts =
      s.contents.db.facts := by
  induction agents generalizing s with
  | nil => rfl
  | cons agentId agents ih => rw [List.foldl_cons, ih, facts_flushed hflush]

/-- An import is the import of its lines, as far as the facts go. -/
theorem facts_importJsonl (hflush : flush.Frame) {header : Metadata} {records : List Metadata}
    {contents : Contents} {result : Contents × ImportCounts}
    (himport : importJsonl py format flush now uuid override
      ((header :: records).map format.dumps) contents = .ok result) :
    result.1.db.facts =
      (importFrom py format flush now uuid override 2 records
        ⟨contents, [], ⟨0, 0, 0, 0, 0⟩⟩).contents.db.facts := by
  unfold importJsonl at himport
  simp only [List.map_cons] at himport
  split at himport
  · cases himport
    exact facts_allFlushed hflush _ _
  · cases himport

section Restore

variable {version exportedAt : String} {agents : List String} {restored : Contents × ImportCounts}

/-- Every timeline of the restored store holds what the lines of the agents
bring to it. -/
theorem restored_importJsonl (hflush : flush.Frame) (huuid : Function.Injective uuid)
    (hdb : Readable py format contents.db)
    (hread : ∀ record ∈ exportRecords py format pageFragments version exportedAt agents contents,
      format.Reads py record)
    (himport : importJsonl py format flush now uuid override
      ((exportRecords py format pageFragments version exportedAt agents contents).map format.dumps)
      .empty = .ok restored) (k : TimelineKey) :
    Restored k (collectAll [] (agents.flatMap (broughtBy override contents.db k)))
      restored.1.db := by
  have hrecords : Restores py format flush now uuid override k
      (agents.flatMap (agentLines py format pageFragments contents))
      (agents.flatMap (broughtBy override contents.db k)) :=
    Restores.flatMap fun agentId hagent => restores_agent hflush huuid hdb k agentId
      fun record hrecord => hread record (mem_exportRecords hagent hrecord)
  have hempty : Restoring uuid k 2 [] ⟨.empty, [], ⟨0, 0, 0, 0, 0⟩⟩ :=
    ⟨restored_empty k, fun id hid => by cases hid⟩
  have hlines := (hrecords _ 2 [] hempty).restored
  refine hlines.congr ?_
  rw [liveRows, liveRows, facts_importJsonl hflush himport]

/-- A fact line whose row is there changes no fact. -/
theorem facts_line_known (hflush : flush.Frame) (number : Nat) {r : FactRow} (hr : r.WellMade py)
    (hvalid : format.ReadsTime r.validFrom) (hrecorded : format.ReadsTime r.recordedAt)
    (own : String)
    (hknown : (liveRows s.contents.db (r.imported (targetAgent override own)).key).any
      (r.imported (targetAgent override own)).same = true) :
    (s.record py format flush now uuid override number
        ((rowToFact py r).line format own)).contents.db.facts = s.contents.db.facts := by
  have hkind : ((rowToFact py r).line format own).lookup "type" = some (.str "fact") := rfl
  have hfacts := facts_flushed hflush s (targetAgent override own)
  unfold Importing.record
  rw [hkind, lineAgent_line]
  simp only
  generalize s.flushed flush (targetAgent override own) = s' at hfacts
  have hrows : liveRows s'.contents.db (r.imported (targetAgent override own)).key =
      liveRows s.contents.db (r.imported (targetAgent override own)).key := by
    rw [liveRows, liveRows, hfacts]
  rw [Importing.importFact, readFact_line hr hvalid hrecorded]
  have hfound : (importFactRow now (uuid number) (r.imported (targetAgent override own))).exec
      s'.contents.db = .ok (false, s'.contents.db) := by
    unfold importFactRow
    simp only [Txn.exec_bind, Txn.exec_query]
    rw [hrows, if_pos hknown]
    rfl
  simp only [hfound]
  exact hfacts

/-- Importing the file again adds no fact, with any ids and at any time. -/
theorem facts_imported_again (hflush : flush.Frame) (hdb : Readable py format contents.db)
    (hread : ∀ record ∈ exportRecords py format pageFragments version exportedAt agents contents,
      format.Reads py record) {target : Contents}
    (hthere : ∀ agentId ∈ agents, ∀ r ∈ factRows contents.db agentId,
      (liveRows target.db (r.imported (targetAgent override agentId)).key).any
        (r.imported (targetAgent override agentId)).same = true)
    (himport : importJsonl py format flush now uuid override
      ((exportRecords py format pageFragments version exportedAt agents contents).map format.dumps)
      target = .ok restored) :
    restored.1.db.facts = target.db.facts := by
  have hline : ∀ record ∈ agents.flatMap (agentLines py format pageFragments contents),
      ∀ (s : Importing) number, s.contents.db.facts = target.db.facts →
        (s.line py format flush now uuid override number
          (format.dumps record)).contents.db.facts = target.db.facts := by
    intro record hrecord s number hs
    obtain ⟨agentId, hagent, hrecord⟩ := List.mem_flatMap.mp hrecord
    rw [line_eq_record number (hread record (mem_exportRecords hagent hrecord)), ← hs]
    rcases List.mem_append.mp hrecord with h | hdocument
    · rcases List.mem_append.mp h with hmemory | hfact
      · obtain ⟨fragment, -, rfl⟩ := List.mem_map.mp hmemory
        refine facts_record hflush number ?_
        rw [List.lookup_cons_self]
        simp
      · obtain ⟨r, hr, rfl⟩ := List.mem_map.mp hfact
        have hrow := (mem_factRows.mp hr).1
        refine facts_line_known hflush number (hdb.wellMade r hrow) (hdb.validFrom r hrow)
          (hdb.recordedAt r hrow) agentId ?_
        rw [liveRows, hs]
        exact hthere agentId hagent r hr
    · obtain ⟨r, -, rfl⟩ := List.mem_map.mp hdocument
      refine facts_record hflush number ?_
      rw [DocumentRow.line, List.lookup_cons_self]
      simp
  rw [facts_importJsonl hflush himport]
  have hrun : ∀ (records : List Metadata) (s : Importing) number,
      (∀ record ∈ records, record ∈ agents.flatMap (agentLines py format pageFragments contents)) →
        s.contents.db.facts = target.db.facts →
          (importFrom py format flush now uuid override number records s).contents.db.facts =
            target.db.facts := by
    intro records
    induction records with
    | nil => exact fun s number _ hs => hs
    | cons record records ih =>
        intro s number hrecords hs
        rw [importFrom_cons]
        exact ih _ _ (fun x hx => hrecords x (List.mem_cons_of_mem record hx))
          (hline record (hrecords record List.mem_cons_self) s number hs)
  exact hrun _ _ 2 (fun _ h => h) rfl

/-- After the import every line finds its row. -/
theorem Restored.finds {target : Db} {k : TimelineKey}
    (h : Restored k (collectAll [] (agents.flatMap (broughtBy override contents.db k))) target)
    {agentId : String} (hagent : agentId ∈ agents) {r : FactRow}
    (hr : r ∈ factRows contents.db agentId)
    (hk : k = (r.imported (targetAgent override agentId)).key) :
    (liveRows target k).any (r.imported (targetAgent override agentId)).same = true := by
  obtain ⟨hrow, hown, hlive⟩ := mem_factRows.mp hr
  have hkey := (key_imported hown).mp hk.symm
  have hbrought : r.content ∈ agents.flatMap (broughtBy override contents.db k) := by
    refine List.mem_flatMap.mpr ⟨agentId, hagent, ?_⟩
    rw [broughtBy, if_pos hkey.1]
    exact List.mem_map_of_mem (mem_timeline.mpr ⟨hrow, hlive, hkey.2⟩)
  obtain ⟨d, hd, hsame⟩ := exists_same_collectAll hbrought
  rw [← h.contents] at hd
  obtain ⟨s, hs, rfl⟩ := List.mem_map.mp hd
  exact List.any_eq_true.mpr ⟨s, hs, by rwa [same_imported]⟩

/-- What one agent brings comes back as it is, if no two of its rows are the same. -/
theorem collectAll_flatMap {brings : String → List FactContent} {rows : List FactContent}
    (hrows : rows.Pairwise fun c d => c.same d = false)
    (hbrings : ∀ agentId ∈ agents, brings agentId = rows ∨ brings agentId = [])
    (hsome : ∃ agentId ∈ agents, brings agentId = rows) :
    collectAll [] (agents.flatMap brings) = rows := by
  have hself : collectAll [] rows = rows := collectAll_of_pairwise (by simpa using hrows)
  induction agents with
  | nil =>
      obtain ⟨agentId, hagent, -⟩ := hsome
      cases hagent
  | cons agentId agents ih =>
      have hrest : ∀ a ∈ agents, brings a = rows ∨ brings a = [] :=
        fun a ha => hbrings a (List.mem_cons_of_mem agentId ha)
      rw [List.flatMap_cons]
      rcases hbrings agentId List.mem_cons_self with h | h
      · rw [h]
        have hsplit : collectAll [] (rows ++ agents.flatMap brings) =
            collectAll (collectAll [] rows) (agents.flatMap brings) := List.foldl_append
        rw [hsplit, hself]
        refine collectAll_of_same fun c hc => ⟨c, ?_, FactContent.same_iff.mpr ⟨rfl, rfl, rfl⟩⟩
        obtain ⟨a, ha, hc⟩ := List.mem_flatMap.mp hc
        rcases hrest a ha with h' | h'
        · exact h' ▸ hc
        · rw [h'] at hc
          cases hc
      · rw [h, List.nil_append]
        obtain ⟨a, ha, hrows'⟩ := hsome
        rcases List.mem_cons.mp ha with rfl | ha
        · -- nothing was to be brought
          have hnil : rows = [] := hrows'.symm.trans h
          have hall : agents.flatMap brings = [] := by
            refine List.flatMap_eq_nil_iff.mpr fun a ha => ?_
            rcases hrest a ha with h' | h'
            · exact h'.trans hnil
            · exact h'
          rw [hall, hnil]
          rfl
        · exact ih hrest ⟨a, ha, hrows'⟩

end Restore

end Lines

end MarkSdk
