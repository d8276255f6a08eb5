import MarkSdk.Facts.Intervals
import MarkSdk.Facts.Tiling

/-!
Values arriving on one timeline.

A call of `fact_set` or `fact_add` on one subject and attribute is executed
at some moment, which gives it a clock reading and a fresh id. After any
sequence of such calls the live rows of the timeline carry the intervals
that the abstract state of `MarkSdk.Facts.Intervals` assigns to the calls
that were accepted (`arrived_run`).
-/

namespace MarkSdk

open Lib

/-- A call of `fact_set` or `fact_add`, without its subject and attribute. -/
structure FactCall where
  added : Bool
  value : PyValue
  validFrom : Datetime
  sourceFragmentId : Option String
  metadata : Metadata

def FactCall.start (c : FactCall) : Int := utcText c.validFrom

/-- A call with the clock reading and the id it gets when it is executed. -/
structure Arrival where
  now : Int
  uuid : String
  call : FactCall

def FactRow.interval (r : FactRow) : Interval := ⟨r.value, r.validFrom, r.validTo⟩

def FactRow.entry (r : FactRow) : Entry := ⟨r.isMulti, r.value, r.validFrom⟩

def addedRows (db : Db) (k : TimelineKey) : List FactRow := (liveRows db k).filter FactRow.isMulti

/-- The live rows of a timeline carry the intervals of the values that
arrived. -/
structure Arrived (db : Db) (k : TimelineKey) (es : List Entry) : Prop where
  chained : ChainedAt db k
  sets : (setRows db k).map FactRow.entry = es.filter fun e => !e.added
  added : (addedRows db k).map FactRow.interval = addedIntervals es

/-! ### Rows of one timeline -/

theorem liveRows_addRow {db : Db} {k : TimelineKey} {row : FactRow} (hid : row.id ∉ db.factIds)
    (hlive : row.live = true) (hk : row.timelineKey = k) :
    liveRows (db.addRow row) k = liveRows db k ++ [row] := by
  unfold liveRows
  rw [rows_addRow hid, List.filter_append]
  simp [hlive, hk]

theorem liveRows_endAdded (db : Db) (k : TimelineKey) (t : Int) :
    liveRows (db.endAdded k t) k =
      (liveRows db k).map fun r => if addedBy k t r then r.endAt (some t) else r := by
  unfold liveRows Db.endAdded
  rw [rows_updateFacts, List.filter_map]
  congr 1
  refine List.filter_congr fun r _ => ?_
  simp only [Function.comp_apply]
  split <;> rfl

theorem setRows_endAdded (db : Db) (k : TimelineKey) (t : Int) :
    setRows (db.endAdded k t) k = setRows db k := by
  unfold setRows
  rw [liveRows_endAdded]
  refine filter_map_eq_filter fun r _ => ?_
  split
  · rename_i h
    have hmulti : r.isMulti = true := by simp_all [addedBy]
    exact .inr (by simp [hmulti])
  · exact .inl rfl

theorem addedRows_endAdded (db : Db) (k : TimelineKey) (t : Int) :
    (addedRows (db.endAdded k t) k).map FactRow.interval =
      ((addedRows db k).map FactRow.interval).map (Interval.endBy t) := by
  have hmulti : (FactRow.isMulti ∘ fun r => if addedBy k t r then r.endAt (some t) else r) =
      FactRow.isMulti := by
    funext r
    simp only [Function.comp_apply]
    split <;> rfl
  unfold addedRows
  rw [liveRows_endAdded, List.filter_map, hmulti, List.map_map, List.map_map]
  refine List.map_congr_left fun r hr => ?_
  obtain ⟨hr, hadded⟩ := List.mem_filter.mp hr
  obtain ⟨-, hlive, hk⟩ := mem_liveRows.mp hr
  have hcovers : addedBy k t r =
      Lib.covers Interval.start Interval.stop t r.interval := by
    simp only [addedBy, hlive, hk, hadded]
    simp only [decide_true, Bool.true_and, Bool.and_true]
    rfl
  simp only [Function.comp_apply, Interval.endBy, hcovers]
  split <;> rfl

theorem setRows_rechain (db : Db) (k : TimelineKey) :
    (setRows (db.rechain k) k).map FactRow.entry = (setRows db k).map FactRow.entry := by
  unfold setRows
  rw [liveRows_rechain, List.filter_map, List.map_map]
  rfl

theorem addedRows_rechain (db : Db) (k : TimelineKey) :
    addedRows (db.rechain k) k = addedRows db k := by
  unfold addedRows
  rw [liveRows_rechain, List.filter_map]
  have hmulti : FactRow.isMulti ∘ chainRow db k = FactRow.isMulti := rfl
  rw [hmulti]
  have hsame : ∀ r ∈ (liveRows db k).filter FactRow.isMulti, chainRow db k r = r := by
    intro r hr
    obtain ⟨hr, hadded⟩ := List.mem_filter.mp hr
    have hmem : r ∉ chain db k := fun h => by simp [(mem_chain.mp h).2] at hadded
    rw [chainRow, chainStop_of_not_mem (mem_liveRows.mp hr).1 hmem, FactRow.endAt_self]
  rw [List.map_congr_left hsame, List.map_id']

/-! ### One arrival -/

theorem arrived_empty {db : Db} {k : TimelineKey} (h : liveRows db k = []) : Arrived db k [] where
  chained := by
    unfold ChainedAt
    rw [chain_eq_sort, setRows, h]
    trivial
  sets := by simp [setRows, h]
  added := by simp [addedRows, h, addedIntervals]

theorem Arrived.set {db : Db} {k : TimelineKey} {es : List Entry} (h : Arrived db k es)
    {row : FactRow} (hid : row.id ∉ db.factIds) (hlive : row.live = true)
    (hk : row.timelineKey = k) (hset : row.isMulti = false) :
    Arrived (db.recordSet k row) k (es ++ [row.entry]) where
  chained := chainedAt_rechain _ k
  sets := by
    have hrows : setRows (db.addRow row) k = setRows db k ++ [row] := by
      unfold setRows
      rw [liveRows_addRow hid hlive hk, List.filter_append]
      simp [hset]
    unfold Db.recordSet
    rw [setRows_rechain, setRows_endAdded, hrows, List.map_append, h.sets, List.filter_append]
    simp [FactRow.entry, hset]
  added := by
    have hrows : addedRows (db.addRow row) k = addedRows db k := by
      unfold addedRows
      rw [liveRows_addRow hid hlive hk, List.filter_append]
      simp [hset]
    unfold Db.recordSet
    rw [addedRows_rechain, addedRows_endAdded, hrows, h.added, addedIntervals_append_singleton,
      arrive, if_neg (by simp [FactRow.entry, hset])]
    rfl

theorem Arrived.add {db : Db} {k : TimelineKey} {es : List Entry} (h : Arrived db k es)
    {row : FactRow} (hid : row.id ∉ db.factIds) (hlive : row.live = true)
    (hk : row.timelineKey = k) (hadded : row.isMulti = true) (hopen : row.validTo = none) :
    Arrived (db.addRow row) k (es ++ [row.entry]) where
  chained := by
    refine (chainedAt_of_setRows ?_).mpr h.chained
    unfold setRows
    rw [liveRows_addRow hid hlive hk, List.filter_append]
    simp [hadded]
  sets := by
    unfold setRows
    rw [liveRows_addRow hid hlive hk, List.filter_append, List.map_append, List.filter_append]
    have := h.sets
    unfold setRows at this
    simp [this, FactRow.entry, hadded]
  added := by
    unfold addedRows
    rw [liveRows_addRow hid hlive hk, List.filter_append, List.map_append]
    have := h.added
    unfold addedRows at this
    rw [this, addedIntervals_append_singleton, arrive, if_pos (by simp [FactRow.entry, hadded])]
    simp [hadded, FactRow.interval, FactRow.entry, Entry.opened, hopen]

section Calls

variable (py : Python) (agentId subject attributeName : String)

def FactCall.req (c : FactCall) : FactRequest where
  agentId := agentId
  subject := subject
  attributeName := attributeName
  value := c.value
  validFrom := c.validFrom
  sourceFragmentId := c.sourceFragmentId
  metadata := c.metadata

def Arrival.op (x : Arrival) : FactOp :=
  let req := x.call.req agentId subject attributeName
  if x.call.added then .add x.now x.uuid req else .set x.now x.uuid req false

/-- The calls one after the other. -/
def runArrivals (xs : List Arrival) (db : Db) : Db :=
  runOps py (xs.map (Arrival.op agentId subject attributeName)) db

/-- The metadata that a call writes. -/
def FactCall.written (c : FactCall) : Metadata :=
  if c.added then addMetadata c.metadata else setMetadata c.metadata

/-- What a call records; nothing when the store refuses it. -/
def FactCall.entry? (c : FactCall) : Option Entry :=
  match (c.req agentId subject attributeName).check py, checkMetadata py c.written with
  | .ok encoded, .ok () => some ⟨c.added, encoded, c.start⟩
  | _, _ => none

def callKey : TimelineKey := ⟨agentId, factKey py subject, factKey py attributeName⟩

def entries (cs : List FactCall) : List Entry :=
  cs.filterMap (FactCall.entry? py agentId subject attributeName)

end Calls

section Run

variable {py : Python} {agentId subject attributeName : String} {db : Db} {es : List Entry}

/-- The value of every live row is the value of an entry. -/
theorem Arrived.exists_entry {k : TimelineKey} (h : Arrived db k es) {r : FactRow}
    (hr : r ∈ liveRows db k) :
    ∃ e ∈ es, e.value = r.value ∧ e.start = r.validFrom ∧ e.added = r.isMulti := by
  cases hmulti : r.isMulti with
  | false =>
      have hmem : r.entry ∈ (setRows db k).map FactRow.entry :=
        List.mem_map_of_mem (List.mem_filter.mpr ⟨hr, by simp [hmulti]⟩)
      rw [h.sets] at hmem
      exact ⟨r.entry, (List.mem_filter.mp hmem).1, rfl, rfl, hmulti⟩
  | true =>
      have hmem : r.interval ∈ (addedRows db k).map FactRow.interval :=
        List.mem_map_of_mem (List.mem_filter.mpr ⟨hr, hmulti⟩)
      rw [h.added] at hmem
      obtain ⟨e, he, hadded, hvalue, hstart⟩ := mem_addedIntervals hmem
      exact ⟨e, he, hvalue, hstart, hadded⟩

theorem Arrival.apply_add {x : Arrival} (h : x.call.added = true) :
    (x.op agentId subject attributeName).apply py db =
      (factAdd py x.now x.uuid (x.call.req agentId subject attributeName)).apply db := by
  simp only [Arrival.op, h, if_true, FactOp.apply]

theorem Arrival.apply_set {x : Arrival} (h : x.call.added = false) :
    (x.op agentId subject attributeName).apply py db =
      (factSet py x.now x.uuid (x.call.req agentId subject attributeName) false).apply db := by
  simp only [Arrival.op, h, Bool.false_eq_true, if_false, FactOp.apply]

/-- A call that the store refuses changes nothing. -/
theorem Arrival.apply_refused {x : Arrival}
    (h : x.call.entry? py agentId subject attributeName = none) :
    (x.op agentId subject attributeName).apply py db = db := by
  unfold FactCall.entry? at h
  cases hadded : x.call.added with
  | true =>
      rw [Arrival.apply_add hadded]
      split at h
      · cases h
      · rename_i hrefused
        cases hcheck : (x.call.req agentId subject attributeName).check py with
        | error e => exact apply_factAdd_refused py x.now x.uuid _ hcheck
        | ok encoded =>
            cases hmeta : checkMetadata py x.call.written with
            | ok u => exact (hrefused encoded hcheck hmeta).elim
            | error e =>
                simp only [FactCall.written, hadded, if_true] at hmeta
                exact apply_factAdd_metadata py x.now x.uuid _ hmeta
  | false =>
      rw [Arrival.apply_set hadded]
      split at h
      · cases h
      · rename_i hrefused
        cases hcheck : (x.call.req agentId subject attributeName).check py with
        | error e => exact apply_factSet_refused py x.now x.uuid _ hcheck
        | ok encoded =>
            cases hmeta : checkMetadata py x.call.written with
            | ok u => exact (hrefused encoded hcheck hmeta).elim
            | error e =>
                simp only [FactCall.written, hadded, Bool.false_eq_true, if_false] at hmeta
                exact apply_factSet_metadata py x.now x.uuid _ hmeta

/-- A call that the store accepts: its checks pass, and its entry says so. -/
theorem FactCall.entry?_eq_some {c : FactCall} {e : Entry}
    (h : c.entry? py agentId subject attributeName = some e) :
    (c.req agentId subject attributeName).check py = .ok e.value ∧
      checkMetadata py c.written = .ok () ∧ e.start = c.start ∧ e.added = c.added := by
  unfold FactCall.entry? at h
  split at h
  · rename_i encoded hcheck hmeta
    simp only [Option.some.injEq] at h
    subst h
    exact ⟨hcheck, hmeta, rfl, rfl⟩
  · cases h

/-- A new added value arrives. -/
theorem Arrived.apply_add {x : Arrival} {e : Entry}
    (h : Arrived db (callKey py agentId subject attributeName) es)
    (he : x.call.entry? py agentId subject attributeName = some e) (hadded : x.call.added = true)
    (hid : x.uuid ∉ db.factIds) (hvalue : ∀ f ∈ es, f.value ≠ e.value) :
    let db' := (x.op agentId subject attributeName).apply py db
    Arrived db' (callKey py agentId subject attributeName) (es ++ [e]) ∧
      db'.factIds = db.factIds ++ [x.uuid] := by
  intro db'
  obtain ⟨hcheck, hmeta, hstart, hkind⟩ := FactCall.entry?_eq_some he
  simp only [FactCall.written, hadded, if_true] at hmeta
  let req := x.call.req agentId subject attributeName
  let row := req.row py x.now x.uuid e.value (addMetadata req.metadata)
  have hnew : alreadyAdded e.value (openRows db (req.key py) req.start) = none := by
    unfold alreadyAdded
    rw [List.find?_eq_none]
    intro r hr
    obtain ⟨f, hf, hval, -, -⟩ := h.exists_entry (List.mem_filter.mp hr).1
    have := hvalue f hf
    simpa [← hval] using this
  have hdb : db' = db.addRow row := by
    simp only [db', Arrival.apply_add hadded]
    exact apply_factAdd py x.now x.uuid e.value req hcheck hmeta hnew hid
  have hentry : row.entry = e := by
    have hmulti : row.isMulti = true := isMulti_row_add py x.now x.uuid e.value req req.metadata
    have hfrom : row.validFrom = e.start := hstart.symm
    cases e
    simp_all [FactRow.entry, row, FactRequest.row]
  rw [hdb, ← hentry]
  exact ⟨h.add hid rfl rfl (isMulti_row_add py x.now x.uuid e.value req req.metadata) rfl,
    factIds_addRow hid⟩

/-- A new set value arrives. -/
theorem Arrived.apply_set {x : Arrival} {e : Entry}
    (h : Arrived db (callKey py agentId subject attributeName) es)
    (he : x.call.entry? py agentId subject attributeName = some e) (hset : x.call.added = false)
    (hid : x.uuid ∉ db.factIds) (hfresh : ∀ f ∈ es, f.start ≠ e.start) :
    let db' := (x.op agentId subject attributeName).apply py db
    Arrived db' (callKey py agentId subject attributeName) (es ++ [e]) ∧
      db'.factIds = db.factIds ++ [x.uuid] := by
  intro db'
  obtain ⟨hcheck, hmeta, hstart, hkind⟩ := FactCall.entry?_eq_some he
  simp only [FactCall.written, hset, Bool.false_eq_true, if_false] at hmeta
  let req := x.call.req agentId subject attributeName
  let row := req.row py x.now x.uuid e.value (setMetadata req.metadata)
  have hnone : rowsAt db (req.key py) req.start = [] := by
    rw [List.eq_nil_iff_forall_not_mem]
    intro r hr
    obtain ⟨hr, hat⟩ := mem_rowsAt.mp hr
    simp only [recordedAtTime, Bool.and_eq_true, decide_eq_true_eq, Bool.not_eq_true'] at hat
    obtain ⟨f, hf, -, hfstart, -⟩ := h.exists_entry (mem_liveRows.mpr ⟨hr, hat.1.1.1, hat.1.1.2⟩)
    refine hfresh f hf ?_
    rw [hfstart, hat.1.2, hstart]
    rfl
  have hnew : reasserted e.value (rowsAt db (req.key py) req.start) = none := by
    rw [hnone]
    rfl
  have hdb : db' = db.recordSet (req.key py) row := by
    simp only [db', Arrival.apply_set hset]
    exact apply_factSet py x.now x.uuid e.value req hcheck hmeta hnew hid
  have hentry : row.entry = e := by
    have hmulti : row.isMulti = false := isMulti_row_set py x.now x.uuid e.value req req.metadata
    have hfrom : row.validFrom = e.start := hstart.symm
    cases e
    simp_all [FactRow.entry, row, FactRequest.row]
  rw [hdb, ← hentry]
  exact ⟨h.set hid rfl rfl (isMulti_row_set py x.now x.uuid e.value req req.metadata),
    factIds_recordSet hid⟩

/-! ### Every run -/

/-- No two accepted calls begin at one time, and an added value is no other
call's value. -/
structure Distinct (es : List Entry) : Prop where
  starts : (es.map Entry.start).Nodup
  values : es.Pairwise fun e f => e.added = true ∨ f.added = true → e.value ≠ f.value

theorem Distinct.perm {es fs : List Entry} (h : Distinct es) (hperm : es.Perm fs) :
    Distinct fs where
  starts := (hperm.map Entry.start).nodup_iff.mp h.starts
  values := hperm.pairwise h.values fun hef hor => (hef hor.symm).symm

/-- The last of distinct entries differs from those before it. -/
theorem Distinct.last {es fs : List Entry} {e : Entry} (h : Distinct (es ++ e :: fs)) :
    ∀ f ∈ es, f.start ≠ e.start ∧ (e.added = true → f.value ≠ e.value) := by
  intro f hf
  constructor
  · have hnodup := h.starts
    rw [List.map_append, List.map_cons] at hnodup
    exact fun heq => (List.nodup_append.mp hnodup).2.2 f.start (List.mem_map_of_mem hf) e.start
      List.mem_cons_self heq
  · intro hadded
    exact (List.pairwise_append.mp h.values).2.2 f hf e List.mem_cons_self (.inr hadded)

/-- After any sequence of distinct calls, the entries of those that were
accepted have arrived, in their order. -/
theorem arrived_run {xs : List Arrival}
    (h : Arrived db (callKey py agentId subject attributeName) es)
    (hids : (xs.map Arrival.uuid).Nodup) (hfresh : ∀ x ∈ xs, x.uuid ∉ db.factIds)
    (hdistinct : Distinct (es ++ entries py agentId subject attributeName (xs.map Arrival.call))) :
    Arrived (runArrivals py agentId subject attributeName xs db)
      (callKey py agentId subject attributeName)
      (es ++ entries py agentId subject attributeName (xs.map Arrival.call)) := by
  induction xs generalizing db es with
  | nil => simpa [runArrivals, runOps, entries] using h
  | cons x xs ih =>
      obtain ⟨hx, hids'⟩ := List.nodup_cons.mp hids
      have hrun : runArrivals py agentId subject attributeName (x :: xs) db =
          runArrivals py agentId subject attributeName xs
            ((x.op agentId subject attributeName).apply py db) := rfl
      rw [hrun]
      cases he : x.call.entry? py agentId subject attributeName with
      | none =>
          have hentries : entries py agentId subject attributeName ((x :: xs).map Arrival.call) =
              entries py agentId subject attributeName (xs.map Arrival.call) := by
            simp [entries, he]
          rw [Arrival.apply_refused he, hentries]
          rw [hentries] at hdistinct
          exact ih h hids' (fun y hy => hfresh y (List.mem_cons_of_mem x hy)) hdistinct
      | some e =>
          have hentries : entries py agentId subject attributeName ((x :: xs).map Arrival.call) =
              e :: entries py agentId subject attributeName (xs.map Arrival.call) := by
            simp [entries, he]
          rw [hentries] at hdistinct ⊢
          have hlast := hdistinct.last
          have hid := hfresh x List.mem_cons_self
          have hstep : Arrived ((x.op agentId subject attributeName).apply py db)
                (callKey py agentId subject attributeName) (es ++ [e]) ∧
              ((x.op agentId subject attributeName).apply py db).factIds =
                db.factIds ++ [x.uuid] := by
            have hkind := (FactCall.entry?_eq_some he).2.2.2
            cases hadded : x.call.added with
            | true =>
                exact h.apply_add he hadded hid fun f hf =>
                  (hlast f hf).2 (hkind.trans hadded)
            | false => exact h.apply_set he hadded hid fun f hf => (hlast f hf).1
          have hfresh' : ∀ y ∈ xs,
              y.uuid ∉ ((x.op agentId subject attributeName).apply py db).factIds := by
            intro y hy
            rw [hstep.2, List.mem_append, List.mem_singleton]
            rintro (hmem | heq)
            · exact hfresh y (List.mem_cons_of_mem x hy) hmem
            · exact hx (heq ▸ List.mem_map_of_mem hy)
          have happend : es ++ e :: entries py agentId subject attributeName (xs.map Arrival.call) =
              (es ++ [e]) ++ entries py agentId subject attributeName (xs.map Arrival.call) := by
            simp
          rw [happend] at hdistinct ⊢
          exact ih hstep.1 hids' hfresh' hdistinct

end Run

end MarkSdk
