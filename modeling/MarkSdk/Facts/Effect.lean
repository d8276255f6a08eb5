import MarkSdk.Store.FactsMulti
import MarkSdk.Store.Lifecycle

/-!
What the fact writes do to the database.

Every write of the fact store is a few updates of the `facts` table followed
by a chaining of the timelines it touched. Here each program is brought to
that form: a statement that names rows by the ids it has read is the update
of the rows that were selected (`updateFacts_ids`), `_rechain_facts` is a
function of the database (`Db.rechain`), and each write has one lemma that
says what it leaves when it commits.
-/

namespace MarkSdk

open Lib

/-! ### Updates of the facts table -/

@[simp] theorem rows_updateFacts (db : Db) (p : FactRow → Bool) (f : FactRow → FactRow) (hf) :
    (db.updateFacts p f hf).facts.rows = db.facts.rows.map fun r => if p r then f r else r := rfl

@[simp] theorem rows_deleteFacts (db : Db) (p : FactRow → Bool) :
    (db.deleteFacts p).facts.rows = db.facts.rows.filter fun r => !p r := rfl

theorem insertFact_eq_ok_iff {db db' : Db} {row : FactRow} :
    Db.insertFact row db = .ok db' ↔
      row.id ∉ db.facts.rows.map FactRow.id ∧
        db'.facts.rows = db.facts.rows ++ [row] ∧ db' = { db with facts := db'.facts } := by
  unfold Db.insertFact
  cases h : db.facts.insert? row with
  | none =>
      have hmem := Table.insert?_eq_none_iff.mp h
      simp only [reduceCtorEq, false_iff]
      exact fun hrow => hrow.1 hmem
  | some facts =>
      obtain ⟨hnew, hrows⟩ := Table.insert?_eq_some_iff.mp h
      simp only [Except.ok.injEq]
      constructor
      · rintro rfl
        exact ⟨hnew, hrows, rfl⟩
      · rintro ⟨-, hrows', hdb⟩
        rw [hdb]
        congr 1
        exact Table.ext (hrows.trans hrows'.symm)

theorem Db.fact_eq_of_id (db : Db) {r s : FactRow} (hr : r ∈ db.facts.rows)
    (hs : s ∈ db.facts.rows) (h : r.id = s.id) : r = s :=
  db.facts.eq_of_key hr hs h

theorem updateFacts_congr (db : Db) {p q : FactRow → Bool} {f : FactRow → FactRow} {hf}
    (h : ∀ r ∈ db.facts.rows, p r = q r) : db.updateFacts p f hf = db.updateFacts q f hf := by
  unfold Db.updateFacts
  congr 1
  apply Table.ext
  simp only [Table.rows_update]
  refine List.map_congr_left fun r hr => ?_
  rw [h r hr]

theorem deleteFacts_congr (db : Db) {p q : FactRow → Bool}
    (h : ∀ r ∈ db.facts.rows, p r = q r) : db.deleteFacts p = db.deleteFacts q := by
  unfold Db.deleteFacts
  congr 1
  apply Table.ext
  simp only [Table.rows_delete]
  refine List.filter_congr fun r hr => ?_
  rw [h r hr]

/-- The ids of selected rows select those rows. -/
theorem mem_ids_iff (db : Db) {sel : List FactRow} (hsel : ∀ r ∈ sel, r ∈ db.facts.rows)
    {r : FactRow} (hr : r ∈ db.facts.rows) : r.id ∈ sel.map FactRow.id ↔ r ∈ sel := by
  constructor
  · intro h
    obtain ⟨s, hs, hid⟩ := List.mem_map.mp h
    rwa [← db.fact_eq_of_id (hsel s hs) hr hid]
  · exact fun h => List.mem_map_of_mem h

/-- Updating by the ids of selected rows is updating the selected rows. -/
theorem updateFacts_ids (db : Db) {sel : List FactRow} {q : FactRow → Bool}
    (hsel : ∀ r, r ∈ sel ↔ r ∈ db.facts.rows ∧ q r) {f : FactRow → FactRow} {hf} :
    db.updateFacts (fun r => r.id ∈ sel.map FactRow.id) f hf = db.updateFacts q f hf := by
  refine updateFacts_congr db fun r hr => ?_
  have := mem_ids_iff db (fun s hs => ((hsel s).mp hs).1) hr
  simp only [this, hsel r, hr, true_and, Bool.decide_eq_true]

theorem deleteFacts_ids (db : Db) {sel : List FactRow} {q : FactRow → Bool}
    (hsel : ∀ r, r ∈ sel ↔ r ∈ db.facts.rows ∧ q r) :
    db.deleteFacts (fun r => r.id ∈ sel.map FactRow.id) = db.deleteFacts q := by
  refine deleteFacts_congr db fun r hr => ?_
  have := mem_ids_iff db (fun s hs => ((hsel s).mp hs).1) hr
  simp only [this, hsel r, hr, true_and, Bool.decide_eq_true]

/-- Statements on the facts table alone leave the other tables. -/
theorem foldl_facts {β : Type} (g : Table FactRow.id → β → Table FactRow.id) (us : List β)
    (db : Db) :
    us.foldl (fun db u => { db with facts := g db.facts u }) db =
      { db with facts := us.foldl g db.facts } := by
  induction us generalizing db with
  | nil => rfl
  | cons u us ih => exact ih { db with facts := g db.facts u }

/-- One row after another, by id, is all of them at once. -/
theorem foldl_updateFacts (f : FactRow → FactRow) (hf : ∀ r, (f r).id = r.id)
    (hidem : ∀ r, f (f r) = f r) (rows : List FactRow) (db : Db) :
    rows.foldl (fun db r => db.updateFacts (fun s => s.id = r.id) f hf) db =
      db.updateFacts (fun s => s.id ∈ rows.map FactRow.id) f hf := by
  have hfold := foldl_facts
    (fun facts (r : FactRow) => facts.update (fun s => s.id = r.id) f hf) rows db
  rw [Db.updateFacts, ← Table.foldl_update f hf hidem (rows.map FactRow.id) db.facts,
    List.foldl_map]
  exact hfold

theorem exec_forEach_retractRow (now : Int) (rows : List FactRow) (db : Db) :
    (Txn.forEach (fun r => retractRow now r.id) rows).exec db =
      .ok ((), db.updateFacts (fun r => r.id ∈ rows.map FactRow.id) (FactRow.retract now)
        (FactRow.retract_id now)) := by
  unfold retractRow
  rw [Txn.exec_forEach_update,
    foldl_updateFacts (FactRow.retract now) (FactRow.retract_id now) fun _ => rfl]

theorem exec_forEach_endRow (stop : Option Int) (rows : List FactRow) (db : Db) :
    (Txn.forEach (fun r => endRow stop r.id) rows).exec db =
      .ok ((), db.updateFacts (fun r => r.id ∈ rows.map FactRow.id) (FactRow.endAt stop)
        (FactRow.endAt_id stop)) := by
  unfold endRow
  rw [Txn.exec_forEach_update,
    foldl_updateFacts (FactRow.endAt stop) (FactRow.endAt_id stop) fun _ => rfl]

@[simp] theorem exec_insertRow (row : FactRow) (db : Db) :
    (insertRow row).exec db = (Db.insertFact row db).map fun db' => ((), db') :=
  Txn.exec_insert _ _

theorem exec_factById (py : Python) (id : String) (db : Db) :
    (factById py id).exec db =
      match db.facts.find? id with
      | some row => .ok (rowToFact py row, db)
      | none => .error (.typeError "'NoneType' object is not subscriptable") := by
  unfold factById
  simp only [Txn.exec_bind, Txn.exec_query]
  cases db.facts.find? id <;> rfl

def Db.factIds (db : Db) : List String := db.facts.rows.map FactRow.id

@[simp] theorem factIds_updateFacts (db : Db) (p : FactRow → Bool) (f : FactRow → FactRow) (hf) :
    (db.updateFacts p f hf).factIds = db.factIds :=
  db.facts.map_key_update p f hf

theorem factById_isOk (py : Python) {id : String} {db : Db} (h : id ∈ db.factIds) :
    ∃ fact, (factById py id).exec db = .ok (fact, db) := by
  obtain ⟨r, hr, rfl⟩ := List.mem_map.mp h
  have hfind : db.facts.find? r.id = some r := Table.find?_eq_some_iff.mpr ⟨hr, rfl⟩
  exact ⟨rowToFact py r, by rw [exec_factById, hfind]⟩

/-- The insert of a row with a fresh id. -/
def Db.addRow (db : Db) (row : FactRow) : Db := { db with facts := db.facts.insertOrIgnore row }

theorem rows_addRow {db : Db} {row : FactRow} (h : row.id ∉ db.factIds) :
    (db.addRow row).facts.rows = db.facts.rows ++ [row] := by
  unfold Db.addRow Db.factIds at *
  rw [Table.rows_insertOrIgnore, if_neg h]

theorem insertFact_addRow {db : Db} {row : FactRow} (h : row.id ∉ db.factIds) :
    Db.insertFact row db = .ok (db.addRow row) :=
  insertFact_eq_ok_iff.mpr ⟨h, rows_addRow h, rfl⟩

theorem factIds_addRow {db : Db} {row : FactRow} (h : row.id ∉ db.factIds) :
    (db.addRow row).factIds = db.factIds ++ [row.id] := by
  unfold Db.factIds
  rw [rows_addRow h]
  simp

/-- Reading a row back changes nothing. -/
theorem factById_ok {py : Python} {id : String} {db db' : Db} {fact : Fact}
    (h : (factById py id).exec db = .ok (fact, db')) : db' = db := by
  rw [exec_factById] at h
  cases hfind : db.facts.find? id with
  | none => simp [hfind] at h
  | some row =>
      simp only [hfind, Except.ok.injEq, Prod.mk.injEq] at h
      exact h.2.symm

/-! ### Chaining a timeline -/

/-- The live single-valued rows of a timeline in its order. -/
def chain (db : Db) (k : TimelineKey) : List FactRow := (timeline db k).filter fun r => !r.isMulti

/-- The end that chaining gives to a row: the start of the next row of the
chain for a row of the chain, and the end it has for any other. -/
def chainStop (db : Db) (k : TimelineKey) (r : FactRow) : Option Int :=
  (((nextStarts FactRow.validFrom (chain db k)).map fun u => (u.1.id, u.2)).lookup r.id).getD
    r.validTo

/-- A row with the end that chaining gives it. -/
def chainRow (db : Db) (k : TimelineKey) (r : FactRow) : FactRow := r.endAt (chainStop db k r)

theorem chainRow_id (db : Db) (k : TimelineKey) (r : FactRow) : (chainRow db k r).id = r.id := rfl

/-- `_rechain_facts` -/
def Db.rechain (db : Db) (k : TimelineKey) : Db :=
  { db with facts := db.facts.mapRows (chainRow db k) (chainRow_id db k) }

@[simp] theorem rows_rechain (db : Db) (k : TimelineKey) :
    (db.rechain k).facts.rows = db.facts.rows.map (chainRow db k) := rfl

@[simp] theorem factIds_rechain (db : Db) (k : TimelineKey) :
    (db.rechain k).factIds = db.factIds := by
  unfold Db.factIds
  rw [rows_rechain, List.map_map]
  rfl

theorem mem_liveRows {db : Db} {k : TimelineKey} {r : FactRow} :
    r ∈ liveRows db k ↔ r ∈ db.facts.rows ∧ r.live = true ∧ r.timelineKey = k := by
  simp [liveRows]

theorem timeline_perm (db : Db) (k : TimelineKey) : (timeline db k).Perm (liveRows db k) :=
  List.perm_insertionSort _ _

theorem mem_timeline {db : Db} {k : TimelineKey} {r : FactRow} :
    r ∈ timeline db k ↔ r ∈ db.facts.rows ∧ r.live = true ∧ r.timelineKey = k := by
  rw [(timeline_perm db k).mem_iff, mem_liveRows]

theorem mem_chain {db : Db} {k : TimelineKey} {r : FactRow} :
    r ∈ chain db k ↔
      (r ∈ db.facts.rows ∧ r.live = true ∧ r.timelineKey = k) ∧ r.isMulti = false := by
  simp [chain, mem_timeline]

theorem nodup_chain_ids (db : Db) (k : TimelineKey) : ((chain db k).map FactRow.id).Nodup := by
  have hlive : ((liveRows db k).map FactRow.id).Nodup :=
    db.facts.nodup.sublist (List.filter_sublist.map _)
  have htimeline : ((timeline db k).map FactRow.id).Nodup :=
    ((timeline_perm db k).map FactRow.id).nodup_iff.mpr hlive
  exact htimeline.sublist (List.filter_sublist.map _)

theorem chainEnds_keys (db : Db) (k : TimelineKey) :
    ((nextStarts FactRow.validFrom (chain db k)).map fun u => (u.1.id, u.2)).map Prod.fst =
      (chain db k).map FactRow.id := by
  have := congrArg (List.map FactRow.id) (map_fst_nextStarts FactRow.validFrom (chain db k))
  rw [← this, List.map_map, List.map_map]
  rfl

/-- Chaining leaves the rows outside the chain. -/
theorem chainStop_of_not_mem {db : Db} {k : TimelineKey} {r : FactRow}
    (hr : r ∈ db.facts.rows) (h : r ∉ chain db k) : chainStop db k r = r.validTo := by
  have hid : r.id ∉ (chain db k).map FactRow.id := by
    rwa [mem_ids_iff db (fun s hs => (mem_chain.mp hs).1.1) hr]
  unfold chainStop
  rw [List.lookup_eq_none_iff.mpr]
  · rfl
  · intro p hp
    rw [← chainEnds_keys] at hid
    have hne : r.id ≠ p.1 := fun e => hid (e ▸ List.mem_map_of_mem hp)
    simpa using hne

/-- Chaining ends a row of the chain where its successor begins. -/
theorem chainStop_of_mem {db : Db} {k : TimelineKey} {u : FactRow × Option Int}
    (hu : u ∈ nextStarts FactRow.validFrom (chain db k)) : chainStop db k u.1 = u.2 := by
  unfold chainStop
  have hnodup : (((nextStarts FactRow.validFrom (chain db k)).map fun u => (u.1.id, u.2)).map
      Prod.fst).Nodup := by
    rw [chainEnds_keys]
    exact nodup_chain_ids db k
  have hmem : (u.1.id, u.2) ∈
      (nextStarts FactRow.validFrom (chain db k)).map fun u => (u.1.id, u.2) :=
    List.mem_map.mpr ⟨u, hu, rfl⟩
  rw [Table.lookup_eq_some_of_nodup hnodup hmem]
  rfl

theorem exec_rechainFacts (k : TimelineKey) (db : Db) :
    (rechainFacts k).exec db = .ok ((), db.rechain k) := by
  unfold rechainFacts endRow
  simp only [Txn.exec_bind, Txn.exec_query, Txn.exec_forEach_update]
  congr 2
  have hfold := foldl_facts
    (fun facts (u : FactRow × Option Int) =>
      facts.update (fun r => r.id = u.1.id) (FactRow.endAt u.2) (FactRow.endAt_id u.2))
    (nextStarts FactRow.validFrom (chain db k)) db
  have hnodup : (((nextStarts FactRow.validFrom (chain db k)).map fun u => (u.1.id, u.2)).map
      Prod.fst).Nodup := by
    rw [chainEnds_keys]
    exact nodup_chain_ids db k
  have hassign := Table.foldl_assign FactRow.endAt FactRow.endAt_id _ hnodup db.facts
  rw [List.foldl_map] at hassign
  refine hfold.trans ?_
  unfold Db.rechain
  congr 1
  rw [hassign]
  apply Table.ext
  simp only [Table.rows_mapRows]
  refine List.map_congr_left fun r _ => ?_
  unfold chainRow chainStop
  cases List.lookup r.id _ <;> rfl

theorem exec_forEach_rechainFacts {β : Type} (key : β → TimelineKey) (xs : List β) (db : Db) :
    (Txn.forEach (fun x => rechainFacts (key x)) xs).exec db =
      .ok ((), (xs.map key).foldl Db.rechain db) := by
  rw [Txn.exec_forEach _ (fun x db => db.rechain (key x)) fun x db => exec_rechainFacts (key x) db,
    List.foldl_map]

/-! ### The writes -/

section Writes

variable (py : Python) (now : Int) (uuid encoded : String) (req : FactRequest)

/-- A set row is single-valued, whatever metadata comes with it. -/
@[simp] theorem isMulti_row_set (metadata : Metadata) :
    (req.row py now uuid encoded (setMetadata metadata)).isMulti = false := by
  have hnone : (setMetadata metadata).lookup multiKey = none := by
    rw [List.lookup_eq_none_iff]
    intro p hp
    have hne : p.1 ≠ multiKey := by simpa using (List.mem_filter.mp hp).2
    simpa using hne.symm
  simp [FactRow.isMulti, FactRequest.row, hnone]

@[simp] theorem isMulti_row_add (metadata : Metadata) :
    (req.row py now uuid encoded (addMetadata metadata)).isMulti = true := by
  simp [FactRow.isMulti, FactRequest.row, addMetadata, PyValue.truthy]

@[simp] theorem row_timelineKey (metadata : Metadata) :
    (req.row py now uuid encoded metadata).timelineKey = req.key py := rfl

@[simp] theorem row_live (metadata : Metadata) :
    (req.row py now uuid encoded metadata).live = true := rfl

/-- The rows that a correction withdraws. -/
def recordedAtTime (k : TimelineKey) (t : Int) (r : FactRow) : Bool :=
  r.live && r.timelineKey = k && r.validFrom = t && !r.isMulti

/-- The added rows that a set value ends. -/
def addedBy (k : TimelineKey) (t : Int) (r : FactRow) : Bool :=
  r.live && r.timelineKey = k && r.covers t && r.isMulti

def Db.withdrawAt (db : Db) (now : Int) (k : TimelineKey) (t : Int) : Db :=
  db.updateFacts (recordedAtTime k t) (FactRow.retract now) (FactRow.retract_id now)

def Db.endAdded (db : Db) (k : TimelineKey) (t : Int) : Db :=
  db.updateFacts (addedBy k t) (FactRow.endAt (some t)) (FactRow.endAt_id (some t))

theorem mem_rowsAt {db : Db} {k : TimelineKey} {t : Int} {r : FactRow} :
    r ∈ rowsAt db k t ↔ r ∈ db.facts.rows ∧ recordedAtTime k t r := by
  unfold rowsAt recordedAtTime
  rw [List.mem_filter, (List.perm_insertionSort _ _).mem_iff, List.mem_filter, mem_liveRows]
  simp only [decide_eq_true_eq, Bool.not_eq_true', Bool.and_eq_true]
  tauto

theorem mem_rowsOpenAt_added {db : Db} {k : TimelineKey} {t : Int} {r : FactRow} :
    r ∈ (rowsOpenAt db k t).filter FactRow.isMulti ↔ r ∈ db.facts.rows ∧ addedBy k t r := by
  unfold rowsOpenAt addedBy
  rw [List.mem_filter, List.mem_filter, mem_liveRows]
  simp only [decide_eq_true_eq, Bool.and_eq_true]
  tauto

theorem exec_insertSet (db : Db) :
    (insertSet py now uuid encoded req).exec db =
      match checkMetadata py (setMetadata req.metadata) with
      | .error e => .error e
      | .ok () =>
          match Db.insertFact (req.row py now uuid encoded (setMetadata req.metadata)) db with
          | .ok db' =>
              (factById py uuid).exec ((db'.endAdded (req.key py) req.start).rechain (req.key py))
          | .error e => .error e := by
  unfold insertSet
  simp only [Txn.exec_bind, Txn.exec_lift, exec_insertRow]
  cases checkMetadata py (setMetadata req.metadata) with
  | error e => rfl
  | ok u =>
      simp only [Except.map]
      cases Db.insertFact (req.row py now uuid encoded (setMetadata req.metadata)) db with
      | error e => rfl
      | ok db' =>
          simp only [Txn.exec_query, exec_forEach_endRow, exec_rechainFacts,
            updateFacts_ids db' fun r => mem_rowsOpenAt_added]
          rfl

/-- What `fact_set` leaves when it inserts its row. -/
def Db.recordSet (db : Db) (k : TimelineKey) (row : FactRow) : Db :=
  ((db.addRow row).endAdded k row.validFrom).rechain k

theorem factIds_recordSet {db : Db} {k : TimelineKey} {row : FactRow} (h : row.id ∉ db.factIds) :
    (db.recordSet k row).factIds = db.factIds ++ [row.id] := by
  unfold Db.recordSet Db.endAdded
  rw [factIds_rechain, factIds_updateFacts, factIds_addRow h]

theorem exec_insertSet_ok {db : Db} (hmeta : checkMetadata py (setMetadata req.metadata) = .ok ())
    (hid : uuid ∉ db.factIds) :
    ∃ fact, (insertSet py now uuid encoded req).exec db =
      .ok (fact,
        db.recordSet (req.key py) (req.row py now uuid encoded (setMetadata req.metadata))) := by
  have hrow := insertFact_addRow
    (show (req.row py now uuid encoded (setMetadata req.metadata)).id ∉ db.factIds from hid)
  rw [exec_insertSet, hmeta]
  simp only [hrow]
  refine factById_isOk py ?_
  rw [factIds_rechain, Db.endAdded, factIds_updateFacts, factIds_addRow hid]
  simp [FactRequest.row]

/-- What `fact_set` does, as its arguments and the rows at its time decide. -/
theorem exec_factSet (correction : Bool) (db : Db) :
    (factSet py now uuid req correction).exec db =
      match req.check py with
      | .error e => .error e
      | .ok encoded =>
          if correction then
            (insertSet py now uuid encoded req).exec (db.withdrawAt now (req.key py) req.start)
          else
            match reasserted encoded (rowsAt db (req.key py) req.start) with
            | some last => (factById py last.id).exec db
            | none => (insertSet py now uuid encoded req).exec db := by
  unfold factSet
  simp only [Txn.exec_bind, Txn.exec_lift]
  cases req.check py with
  | error e => rfl
  | ok encoded =>
      simp only [Except.map, Txn.exec_query]
      cases correction with
      | true =>
          simp only [if_true, Txn.exec_bind, exec_forEach_retractRow,
            updateFacts_ids db fun r => mem_rowsAt]
          rfl
      | false =>
          simp only [Bool.false_eq_true, if_false]
          cases reasserted encoded (rowsAt db (req.key py) req.start) <;> rfl

/-- A refused `fact_set` changes nothing. -/
theorem apply_factSet_refused {correction : Bool} {db : Db} {e : StoreError}
    (h : req.check py = .error e) : (factSet py now uuid req correction).apply db = db :=
  Txn.apply_of_error (by rw [exec_factSet, h])

theorem apply_factSet_metadata {db : Db} {e : StoreError}
    (h : checkMetadata py (setMetadata req.metadata) = .error e) :
    (factSet py now uuid req false).apply db = db := by
  refine Txn.apply_induction (P := fun s => s = db) rfl fun fact db' hexec => ?_
  rw [exec_factSet] at hexec
  split at hexec
  · simp at hexec
  · simp only [Bool.false_eq_true, if_false] at hexec
    split at hexec
    · exact factById_ok hexec
    · simp [exec_insertSet, h] at hexec

/-- A plain `fact_set` of a new value. -/
theorem apply_factSet {db : Db} (hcheck : req.check py = .ok encoded)
    (hmeta : checkMetadata py (setMetadata req.metadata) = .ok ())
    (hnew : reasserted encoded (rowsAt db (req.key py) req.start) = none)
    (hid : uuid ∉ db.factIds) :
    (factSet py now uuid req false).apply db =
      db.recordSet (req.key py) (req.row py now uuid encoded (setMetadata req.metadata)) := by
  obtain ⟨fact, hexec⟩ := exec_insertSet_ok py now uuid encoded req hmeta hid
  refine Txn.apply_of_ok (a := fact) ?_
  simp only [exec_factSet, hcheck, Bool.false_eq_true, if_false, hnew, hexec]

theorem exec_factAdd (db : Db) :
    (factAdd py now uuid req).exec db =
      match req.check py with
      | .error e => .error e
      | .ok encoded =>
          match alreadyAdded encoded (openRows db (req.key py) req.start) with
          | some row => (factById py row.id).exec db
          | none =>
              match checkMetadata py (addMetadata req.metadata) with
              | .error e => .error e
              | .ok () =>
                  match Db.insertFact (req.row py now uuid encoded (addMetadata req.metadata)) db with
                  | .ok db' => (factById py uuid).exec db'
                  | .error e => .error e := by
  unfold factAdd
  simp only [Txn.exec_bind, Txn.exec_lift]
  cases req.check py with
  | error e => rfl
  | ok encoded =>
      simp only [Except.map, Txn.exec_query]
      cases alreadyAdded encoded (openRows db (req.key py) req.start) with
      | some row => rfl
      | none =>
          simp only [Txn.exec_bind, Txn.exec_lift, exec_insertRow]
          cases checkMetadata py (addMetadata req.metadata) with
          | error e => rfl
          | ok u =>
              simp only [Except.map]
              cases Db.insertFact (req.row py now uuid encoded (addMetadata req.metadata)) db <;> rfl

theorem apply_factAdd_refused {db : Db} {e : StoreError} (h : req.check py = .error e) :
    (factAdd py now uuid req).apply db = db :=
  Txn.apply_of_error (by rw [exec_factAdd, h])

theorem apply_factAdd_metadata {db : Db} {e : StoreError}
    (h : checkMetadata py (addMetadata req.metadata) = .error e) :
    (factAdd py now uuid req).apply db = db := by
  refine Txn.apply_induction (P := fun s => s = db) rfl fun fact db' hexec => ?_
  rw [exec_factAdd] at hexec
  split at hexec
  · simp at hexec
  · split at hexec
    · exact factById_ok hexec
    · simp [h] at hexec

/-- A `fact_add` of a value that is not there yet. -/
theorem apply_factAdd {db : Db} (hcheck : req.check py = .ok encoded)
    (hmeta : checkMetadata py (addMetadata req.metadata) = .ok ())
    (hnew : alreadyAdded encoded (openRows db (req.key py) req.start) = none)
    (hid : uuid ∉ db.factIds) :
    (factAdd py now uuid req).apply db =
      db.addRow (req.row py now uuid encoded (addMetadata req.metadata)) := by
  have hrow := insertFact_addRow
    (show (req.row py now uuid encoded (addMetadata req.metadata)).id ∉ db.factIds from hid)
  have hmem : uuid ∈ (db.addRow (req.row py now uuid encoded (addMetadata req.metadata))).factIds := by
    rw [factIds_addRow hid]
    simp [FactRequest.row]
  obtain ⟨fact, hexec⟩ := factById_isOk py hmem
  refine Txn.apply_of_ok (a := fact) ?_
  simp only [exec_factAdd, hcheck, hnew, hmeta, hrow, hexec]

/-- The rows that `fact_remove` ends. -/
def removedBy (k : TimelineKey) (stamp : Int) (encoded : String) (r : FactRow) : Bool :=
  r.live && r.timelineKey = k && (r.validTo.all fun stop => stamp < stop) && r.isMulti &&
    r.value = encoded

def Db.removeAdded (db : Db) (k : TimelineKey) (stamp : Int) (encoded : String) : Db :=
  db.updateFacts (removedBy k stamp encoded) (FactRow.endAt (some stamp))
    (FactRow.endAt_id (some stamp))

theorem mem_removedRows {db : Db} {k : TimelineKey} {stamp : Int} {encoded : String}
    {r : FactRow} :
    r ∈ removedRows db k stamp encoded ↔
      r ∈ db.facts.rows ∧ removedBy k stamp encoded r := by
  unfold removedRows openRows removedBy
  rw [List.mem_filter, List.mem_filter, mem_liveRows]
  simp only [decide_eq_true_eq, Bool.and_eq_true]
  tauto

theorem exec_factRemove (agentId subject attributeName : String) (value : PyValue)
    (validTo : Datetime) (db : Db) :
    (factRemove py agentId subject attributeName value validTo).exec db =
      let k : TimelineKey := ⟨agentId, factKey py subject, factKey py attributeName⟩
      match encodeValue py value with
      | .error e => .error e
      | .ok encoded =>
          .ok ((removedRows db k (utcText validTo) encoded).length,
            db.removeAdded k (utcText validTo) encoded) := by
  unfold factRemove
  simp only [Txn.exec_bind, Txn.exec_lift]
  cases encodeValue py value with
  | error e => rfl
  | ok encoded =>
      simp only [Except.map, Txn.exec_query, exec_forEach_endRow,
        updateFacts_ids db fun r => mem_removedRows]
      rfl

/-- Several timelines chained one after another. -/
def Db.rechainAll (db : Db) (ks : List TimelineKey) : Db := ks.foldl Db.rechain db

theorem fragments_rechainAll (ks : List TimelineKey) (db : Db) :
    (db.rechainAll ks).fragments = db.fragments := by
  induction ks generalizing db with
  | nil => rfl
  | cons k ks ih => exact ih (db.rechain k)

/-- What `fact_retract` leaves: the matching rows withdrawn, and every
attribute that lost one chained again. -/
theorem factRetract_ok {agentId subject : String}
    {attributeName : Option String} {value : PyValue} {db db' : Db} {n : Nat}
    (h : (factRetract py now agentId subject attributeName value).exec db = .ok (n, db')) :
    ∃ rows,
      Txn.filterE (retractMatches py value)
        (db.facts.rows.filter fun r => r.about py agentId subject attributeName && r.live) =
          .ok rows ∧
      db' = (db.updateFacts (fun r => r.id ∈ rows.map FactRow.id) (FactRow.retract now)
        (FactRow.retract_id now)).rechainAll
          ((rows.map FactRow.attributeKey).dedup.map fun a => ⟨agentId, factKey py subject, a⟩) ∧
      n = rows.length := by
  unfold factRetract at h
  simp only [Txn.exec_bind, Txn.exec_query, Txn.exec_lift] at h
  cases hrows : Txn.filterE (retractMatches py value)
      (db.facts.rows.filter fun r => r.about py agentId subject attributeName && r.live) with
  | error e => simp [hrows, Except.map] at h
  | ok rows =>
      simp only [hrows, Except.map, exec_forEach_retractRow, exec_forEach_rechainFacts,
        Txn.exec_pure, Except.ok.injEq, Prod.mk.injEq] at h
      exact ⟨rows, rfl, h.2.symm, h.1.symm⟩

/-- The rows that `fact_delete` removes. -/
def deletedBy (py : Python) (agentId subject : String) (attributeName : Option String)
    (value : PyValue) (r : FactRow) : Bool :=
  r.about py agentId subject attributeName && deleteMatches py value r

theorem exec_factDelete (agentId subject : String) (attributeName : Option String)
    (value : PyValue) (db : Db) :
    let rows := db.facts.rows.filter (deletedBy py agentId subject attributeName value)
    (factDelete py agentId subject attributeName value).exec db =
      .ok (rows.length,
        (db.deleteFacts (deletedBy py agentId subject attributeName value)).rechainAll
          ((rows.map FactRow.attributeKey).dedup.map fun a => ⟨agentId, factKey py subject, a⟩)) := by
  intro rows
  have hbody : ∀ (r : FactRow) (db : Db),
      (do
        Txn.update fun db : Db =>
          db.updateFacts (fun s => s.id = r.id) FactRow.zeroValue FactRow.zeroValue_id
        Txn.update fun db => db.deleteFacts fun s => s.id = r.id : Writing Unit).exec db =
        .ok ((), db.deleteFacts fun s => s.id = r.id) := by
    intro r db
    have herase := db.facts.delete_update (fun s => s.id = r.id) FactRow.zeroValue
      FactRow.zeroValue_id fun _ => rfl
    simp only [Txn.exec_bind, Txn.exec_update, Db.updateFacts, Db.deleteFacts, herase]
  have hfold : ∀ (sel : List FactRow) (db : Db),
      sel.foldl (fun db r => db.deleteFacts fun s => s.id = r.id) db =
        db.deleteFacts fun s => s.id ∈ sel.map FactRow.id := by
    intro sel
    induction sel with
    | nil =>
        intro db
        simp [Db.deleteFacts, Table.delete]
    | cons r sel ih =>
        intro db
        rw [List.foldl_cons, ih, Db.deleteFacts, Db.deleteFacts, Table.delete_delete]
        simp [Db.deleteFacts]
  have hrows : ∀ r, r ∈ rows ↔
      r ∈ db.facts.rows ∧ deletedBy py agentId subject attributeName value r := by
    intro r
    simp [rows]
  unfold factDelete
  simp only [Txn.exec_bind, Txn.exec_query, Txn.exec_forEach _ _ hbody, hfold,
    exec_forEach_rechainFacts]
  rw [← deleteFacts_ids db hrows]
  rfl

end Writes

/-! ### Forgetting -/

theorem exec_deleteJobs (fragmentId : String) (db : Db) :
    (deleteJobs fragmentId).exec db =
      .ok ((), { db with
        factJobs := db.factJobs.delete fun j => j.fragmentId = fragmentId
        factExtractions := db.factExtractions.delete fun e => e.fragmentId = some fragmentId }) :=
  rfl

/-- The facts table after a cascade, before it is chained again. -/
def Db.cutFacts (db : Db) (agentId fragmentId : String) (secure : Bool) (now : Int) : Db :=
  if secure then db.deleteFacts (FactRow.sourcedFrom agentId fragmentId)
  else db.updateFacts (fun r => r.sourcedFrom agentId fragmentId && r.live) (FactRow.retract now)
    (FactRow.retract_id now)

/-- The timelines that a cascade chains again. -/
def cascadeKeys (db : Db) (agentId fragmentId : String) : List TimelineKey :=
  ((db.facts.rows.filter (FactRow.sourcedFrom agentId fragmentId)).map fun r =>
    (r.subjectKey, r.attributeKey)).dedup.map fun key => ⟨agentId, key.1, key.2⟩

def Db.dropJobs (db : Db) (fragmentId : String) : Db :=
  { db with
    factJobs := db.factJobs.delete fun j => j.fragmentId = fragmentId
    factExtractions := db.factExtractions.delete fun e => e.fragmentId = some fragmentId }

theorem exec_cascadeFacts (agentId fragmentId : String) (secure : Bool) (now : Int) (db : Db) :
    (cascadeFacts agentId fragmentId secure now).exec db =
      .ok ((), ((db.cutFacts agentId fragmentId secure now).rechainAll
        (cascadeKeys db agentId fragmentId)).dropJobs fragmentId) := by
  unfold cascadeFacts
  simp only [Txn.exec_bind, Txn.exec_query]
  cases secure with
  | true =>
      have herase : (db.updateFacts (FactRow.sourcedFrom agentId fragmentId) FactRow.zeroValue
            FactRow.zeroValue_id).deleteFacts (FactRow.sourcedFrom agentId fragmentId) =
          db.cutFacts agentId fragmentId true now := by
        have htable := db.facts.delete_update (FactRow.sourcedFrom agentId fragmentId)
          FactRow.zeroValue FactRow.zeroValue_id fun _ => rfl
        simp only [Db.updateFacts, Db.deleteFacts, Db.cutFacts, if_true, htable]
      simp only [if_true, Txn.exec_bind, Txn.exec_update, herase, exec_forEach_rechainFacts,
        exec_deleteJobs]
      rfl
  | false =>
      simp only [Bool.false_eq_true, if_false, Txn.exec_bind, Txn.exec_update,
        exec_forEach_rechainFacts, exec_deleteJobs]
      rfl

/-- The fragments table without a fragment. -/
def Db.dropFragment (db : Db) (fragmentId : String) : Db :=
  { db with fragments := db.fragments.delete fun r => r.id = fragmentId }

theorem exec_forgetFragment (now : Int) (fragmentId : String) (secure : Bool) (db : Db) :
    (forgetFragment now fragmentId secure).exec db =
      match db.fragments.find? fragmentId with
      | none => .ok (false, db)
      | some row =>
          .ok (true, (((db.dropFragment fragmentId).cutFacts row.agentId fragmentId secure
            now).rechainAll (cascadeKeys db row.agentId fragmentId)).dropJobs fragmentId) := by
  unfold forgetFragment
  simp only [Txn.exec_bind, Txn.exec_query]
  cases db.fragments.find? fragmentId with
  | none => rfl
  | some row =>
      cases secure with
      | true =>
          have hdrop : (db.fragments.update (fun r => r.id = fragmentId) Fragment.erased
                fun _ => rfl).delete (fun r => r.id = fragmentId) =
              db.fragments.delete fun r => r.id = fragmentId :=
            Table.delete_update db.fragments _ _ _ fun _ => rfl
          simp only [if_true, Txn.exec_bind, updateFragment, deleteFragment, Txn.exec_update,
            exec_cascadeFacts, Txn.exec_pure, hdrop]
          rfl
      | false =>
          simp only [Bool.false_eq_true, if_false, Txn.exec_bind, Txn.exec_pure, deleteFragment,
            Txn.exec_update, exec_cascadeFacts]
          rfl

end MarkSdk
