import MarkSdk.Extraction.Withdrawal
import MarkSdk.Facts.Tiling
import MarkSdk.Lib.Runs

/-!
Applying a list of candidates again.

The ledger skips what was recorded the first time (`settled_pass`), so a
replay does no more than withdraw. It leaves the live rows alone exactly when
none of its corrections and retractions finds something to withdraw
(`replay_harmless`): a correction also withdraws the value that a later
candidate of the same list recorded for the same time, and the ledger then
keeps that value from coming back (`replay_loses_value`).
-/

namespace MarkSdk

open Lib

variable {py : Python} {db db' : Db}

/-- The same values with the same intervals in every timeline. -/
structure SameLiveRows (db db' : Db) : Prop where
  intervals : ∀ k, ((liveRows db k).map FactRow.interval).Perm
    ((liveRows db' k).map FactRow.interval)

theorem SameLiveRows.sameCounts (h : SameLiveRows db' db) : SameCounts db db' where
  live k := by simpa using (h.intervals k).length_eq
  opened k t := by
    have hcount : ∀ d, (openRows d k t).length =
        (((liveRows d k).map FactRow.interval).filter fun i =>
          i.stop.all fun stop => t < stop).length := by
      intro d
      rw [List.filter_map, List.length_map]
      rfl
    rw [hcount, hcount]
    exact ((h.intervals k).filter _).length_eq

/-! ### The ledger -/

/-- The ledger has the key of the call. -/
def Db.recorded (db : Db) (call : RecordCall) : Prop :=
  (call.agentId, call.key) ∈ db.factExtractions.rows.map Extraction.ledgerKey

/-- The store refuses the candidate: it has no usable subject, attribute or
value. -/
def RecordCall.refused (py : Python) (call : RecordCall) (m : Moment) (db : Db) : Prop :=
  ∃ e, (call.request (splitCandidate py m call.agentId call.candidate db)).check py = .error e

/-- Whether the store refuses the candidate does not depend on the subjects it
knows. -/
def RecordCall.steady (py : Python) (call : RecordCall) : Prop :=
  ∀ m m' db db', call.refused py m db → call.refused py m' db'

theorem exec_factSetExtracted (createdAt now : Int) (uuid key : String) (req : FactRequest)
    (db : Db) :
    (factSetExtracted py createdAt now uuid key req).exec db =
      match db.factExtractions.insert? ⟨req.agentId, key, req.sourceFragmentId, none, createdAt⟩ with
      | none => .ok (none, db)
      | some ledger =>
          match (factSet py now uuid req false).exec { db with factExtractions := ledger } with
          | .error e => .error e
          | .ok (fact, db') =>
              .ok (some fact, { db' with
                factExtractions := db'.factExtractions.update
                  (fun e => e.ledgerKey = (req.agentId, key)) (Extraction.recordFact fact.id)
                  (Extraction.recordFact_ledgerKey fact.id) }) := by
  unfold factSetExtracted insertExtraction
  simp only [Txn.exec_bind, Txn.exec_updateCount]
  cases db.factExtractions.insert? ⟨req.agentId, key, req.sourceFragmentId, none, createdAt⟩ with
  | none => rfl
  | some ledger =>
      simp only [one_ne_zero, if_false, Txn.exec_bind]
      cases (factSet py now uuid req false).exec { db with factExtractions := ledger } with
      | error e => rfl
      | ok r => rfl

theorem insertSet_frame {now : Int} {uuid encoded : String} {req : FactRequest} {fact : Fact}
    (h : (insertSet py now uuid encoded req).exec db = .ok (fact, db')) :
    db'.factExtractions = db.factExtractions ∧ db'.factIds = db.factIds ++ [uuid] := by
  rw [exec_insertSet] at h
  split at h
  · simp at h
  · split at h
    · rename_i inserted hrow
      obtain ⟨-, hrows, hdb⟩ := insertFact_eq_ok_iff.mp hrow
      rw [factById_ok h]
      have hledger : inserted.factExtractions = db.factExtractions := by rw [hdb]
      constructor
      · exact hledger
      · rw [factIds_rechain, Db.endAdded, factIds_updateFacts, Db.factIds, hrows, List.map_append]
        rfl
    · simp at h

/-- A plain `fact_set` touches the facts only, and adds at most its own id. -/
theorem factSet_frame {now : Int} {uuid : String} {req : FactRequest} {fact : Fact}
    (h : (factSet py now uuid req false).exec db = .ok (fact, db')) :
    db'.factExtractions = db.factExtractions ∧
      ∀ id ∈ db'.factIds, id ∈ db.factIds ∨ id = uuid := by
  rw [exec_factSet] at h
  split at h
  · simp at h
  · simp only [Bool.false_eq_true, if_false] at h
    split at h
    · rw [factById_ok h]
      exact ⟨rfl, fun id hid => .inl hid⟩
    · obtain ⟨hledger, hids⟩ := insertSet_frame h
      refine ⟨hledger, fun id hid => ?_⟩
      rw [hids, List.mem_append, List.mem_singleton] at hid
      exact hid

section Extracted

variable {createdAt now : Int} {uuid : String} {call : RecordCall} {c : FactCandidate}

theorem extracted_of_recorded (h : db.recorded call) :
    (factSetExtracted py createdAt now uuid call.key (call.request c)).apply db = db := by
  have hnone := Table.insert?_eq_none_iff (t := db.factExtractions)
    (r := ⟨call.agentId, call.key, call.sourceFragmentId, none, createdAt⟩) |>.mpr h
  refine Txn.apply_of_ok (a := none) ?_
  rw [exec_factSetExtracted]
  have hreq : (⟨(call.request c).agentId, call.key, (call.request c).sourceFragmentId, none,
      createdAt⟩ : Extraction) = ⟨call.agentId, call.key, call.sourceFragmentId, none,
        createdAt⟩ := rfl
  rw [hreq, hnone]

theorem extracted_of_refused {e : StoreError} (h : (call.request c).check py = .error e) :
    (factSetExtracted py createdAt now uuid call.key (call.request c)).apply db = db := by
  refine Txn.apply_induction (P := fun d : Db => d = db) rfl fun fact db' hexec => ?_
  rw [exec_factSetExtracted] at hexec
  split at hexec
  · simp only [Except.ok.injEq, Prod.mk.injEq] at hexec
    exact hexec.2.symm
  · simp [exec_factSet, h] at hexec

/-- What the ledger has it keeps, and the only new id is the one of the call. -/
theorem extracted_frame (py : Python) (createdAt now : Int) (uuid : String) (call : RecordCall)
    (c : FactCandidate) (db : Db) (other : RecordCall) :
    let after := (factSetExtracted py createdAt now uuid call.key (call.request c)).apply db
    (db.recorded other → after.recorded other) ∧
      ∀ id ∈ after.factIds, id ∈ db.factIds ∨ id = uuid := by
  intro after
  refine Txn.apply_induction
    (P := fun d : Db => (db.recorded other → d.recorded other) ∧
      ∀ id ∈ d.factIds, id ∈ db.factIds ∨ id = uuid)
    ⟨id, fun _ hid => .inl hid⟩ fun fact db' hexec => ?_
  rw [exec_factSetExtracted] at hexec
  split at hexec
  · simp only [Except.ok.injEq, Prod.mk.injEq] at hexec
    exact hexec.2 ▸ ⟨id, fun _ hid => .inl hid⟩
  · rename_i ledger hledger
    split at hexec
    · simp at hexec
    · rename_i set db'' hset
      simp only [Except.ok.injEq, Prod.mk.injEq] at hexec
      obtain ⟨-, rfl⟩ := hexec
      obtain ⟨hext, hids⟩ := factSet_frame hset
      refine ⟨fun hother => ?_, hids⟩
      unfold Db.recorded at hother ⊢
      rw [Table.map_key_update, hext]
      simp only
      rw [(Table.insert?_eq_some_iff.mp hledger).2, List.map_append]
      exact List.mem_append_left _ hother

/-- An accepted candidate with a fresh id is in the ledger afterwards. -/
theorem recorded_of_accepted {encoded : String} (hcheck : (call.request c).check py = .ok encoded)
    (hmeta : checkMetadata py (setMetadata call.rowMetadata) = .ok ())
    (hfresh : uuid ∉ db.factIds) :
    ((factSetExtracted py createdAt now uuid call.key (call.request c)).apply db).recorded call := by
  by_cases hrecorded : db.recorded call
  · rw [extracted_of_recorded hrecorded]
    exact hrecorded
  · have hsome : ∃ ledger, db.factExtractions.insert?
        ⟨call.agentId, call.key, call.sourceFragmentId, none, createdAt⟩ = some ledger := by
      cases hinsert : db.factExtractions.insert?
          ⟨call.agentId, call.key, call.sourceFragmentId, none, createdAt⟩ with
      | none => exact absurd (Table.insert?_eq_none_iff.mp hinsert) hrecorded
      | some ledger => exact ⟨ledger, rfl⟩
    obtain ⟨ledger, hledger⟩ := hsome
    have hset : ∃ fact db', (factSet py now uuid (call.request c) false).exec
        { db with factExtractions := ledger } = .ok (fact, db') := by
      rw [exec_factSet, hcheck]
      simp only [Bool.false_eq_true, if_false]
      cases hagain : reasserted encoded (rowsAt { db with factExtractions := ledger }
          ((call.request c).key py) (call.request c).start) with
      | some last =>
          have hlast : last ∈ rowsAt { db with factExtractions := ledger }
              ((call.request c).key py) (call.request c).start := by
            unfold reasserted at hagain
            exact List.mem_of_getLast? (Option.eq_some_of_filter_eq_some hagain)
          have hid : last.id ∈ ({ db with factExtractions := ledger } : Db).factIds :=
            List.mem_map_of_mem (mem_rowsAt.mp hlast).1
          obtain ⟨fact, hfact⟩ := factById_isOk py hid
          exact ⟨fact, _, hfact⟩
      | none =>
          have hfresh' : uuid ∉ ({ db with factExtractions := ledger } : Db).factIds := hfresh
          obtain ⟨fact, hfact⟩ := exec_insertSet_ok py now uuid encoded (call.request c) hmeta hfresh'
          exact ⟨fact, _, hfact⟩
    obtain ⟨fact, db', hset⟩ := hset
    have hexec : (factSetExtracted py createdAt now uuid call.key (call.request c)).exec db =
        .ok (some fact, { db' with
          factExtractions := db'.factExtractions.update
            (fun e => e.ledgerKey = (call.agentId, call.key)) (Extraction.recordFact fact.id)
            (Extraction.recordFact_ledgerKey fact.id) }) := by
      rw [exec_factSetExtracted]
      have hreq : (⟨(call.request c).agentId, call.key, (call.request c).sourceFragmentId, none,
          createdAt⟩ : Extraction) = ⟨call.agentId, call.key, call.sourceFragmentId, none,
            createdAt⟩ := rfl
      rw [hreq, hledger]
      simp only [hset]
      rfl
    rw [Txn.apply_of_ok hexec]
    unfold Db.recorded
    rw [Table.map_key_update, (factSet_frame hset).1]
    simp only
    rw [(Table.insert?_eq_some_iff.mp hledger).2, List.map_append]
    exact List.mem_append_right _ (List.mem_singleton.mpr rfl)

end Extracted

/-! ### One call -/

namespace RecordStep

variable {step : RecordStep}

theorem apply_retract (h : step.call.candidate.retract = true) :
    step.apply py db = step.withdraw py db := by
  unfold apply withdraw recordCandidate
  rw [Calls.after_bind_of_ok (run_split py _ _ _ db), splitCandidate_retract, h]
  rfl

theorem apply_record (hpy : py.ReadsBack) (h : step.call.candidate.retract = false) :
    step.apply py db =
      (factSetExtracted py step.moment.ledger step.moment.set step.moment.uuid step.call.key
        (step.call.request (step.split py db))).apply (step.withdraw py db) := by
  unfold apply withdraw recordCandidate
  rw [Calls.after_bind_of_ok (run_split py _ _ _ db), splitCandidate_retract,
    splitCandidate_correction, h]
  cases hcorrection : step.call.candidate.correction with
  | false => exact Calls.after_txn _ _
  | true =>
      have hok : ((withdrawReplaced py step.moment step.call.agentId (step.split py db)
          step.call.validFrom).run db).1 = .ok () := by
        rw [run_withdrawReplaced]
        refine withdrawEach_isOk hpy _ _ _ (fun p hp => ?_) db
        have hmem := (List.mem_filter.mp (List.fst_mem_of_mem_zipIdx hp)).1
        obtain ⟨r, -, -, -, hr⟩ := mem_factCurrent hmem
        exact ⟨r.value, by rw [hr]; rfl⟩
      have hrun : (withdrawReplaced py step.moment step.call.agentId (step.split py db)
          step.call.validFrom).run db = (.ok (), (withdrawReplaced py step.moment
            step.call.agentId (step.split py db) step.call.validFrom).after db) := by
        rw [Calls.after, ← hok]
      exact (Calls.after_bind_of_ok hrun).trans (Calls.after_txn _ _)

/-- The calls whose candidate is done with: a replay records nothing. -/
def settled (py : Python) (call : RecordCall) (db : Db) : Prop :=
  call.candidate.retract = true ∨ db.recorded call ∨ ∀ m db', call.refused py m db'

theorem settled_of_ledger {call : RecordCall} (h : settled py call db)
    (hledger : db'.factExtractions = db.factExtractions) : settled py call db' := by
  unfold settled Db.recorded at h ⊢
  rwa [hledger]

/-- A call that is done with does no more than withdraw. -/
theorem apply_of_settled (hpy : py.ReadsBack) (h : settled py step.call db) :
    step.apply py db = step.withdraw py db := by
  cases hretract : step.call.candidate.retract with
  | true => exact apply_retract hretract
  | false =>
      rw [apply_record hpy hretract]
      rcases h with h | h | h
      · rw [hretract] at h
        cases h
      · refine extracted_of_recorded ?_
        unfold Db.recorded at h ⊢
        rwa [(fades_withdraw step db).ledger]
      · obtain ⟨e, he⟩ := h step.moment db
        exact extracted_of_refused he

/-- What a call adds to the ledger and to the ids. -/
theorem apply_frame (hpy : py.ReadsBack) (step : RecordStep) (db : Db) (other : RecordCall) :
    (db.recorded other → (step.apply py db).recorded other) ∧
      ∀ id ∈ (step.apply py db).factIds, id ∈ db.factIds ∨ id = step.moment.uuid := by
  have hfades : Fades db (step.withdraw py db) := fades_withdraw step db
  have hrecorded : db.recorded other → (step.withdraw py db).recorded other := by
    unfold Db.recorded
    rw [hfades.ledger]
    exact id
  cases hretract : step.call.candidate.retract with
  | true =>
      rw [apply_retract hretract]
      exact ⟨hrecorded, fun id hid => .inl (hfades.ids ▸ hid)⟩
  | false =>
      rw [apply_record hpy hretract]
      obtain ⟨hkeep, hids⟩ := extracted_frame py step.moment.ledger step.moment.set
        step.moment.uuid step.call (step.split py db) (step.withdraw py db) other
      rw [hfades.ids] at hids
      exact ⟨fun h => hkeep (hrecorded h), hids⟩

/-- After a call with a fresh id its candidate is done with. -/
theorem settled_apply (hpy : py.ReadsBack) (hsteady : step.call.steady py)
    (hmeta : checkMetadata py (setMetadata step.call.rowMetadata) = .ok ())
    (hfresh : step.moment.uuid ∉ db.factIds) : settled py step.call (step.apply py db) := by
  cases hretract : step.call.candidate.retract with
  | true => exact .inl hretract
  | false =>
      cases hcheck : (step.call.request (step.split py db)).check py with
      | error e => exact .inr (.inr fun m db' => hsteady step.moment m db db' ⟨e, hcheck⟩)
      | ok encoded =>
          rw [apply_record hpy hretract]
          refine .inr (.inl (recorded_of_accepted hcheck hmeta ?_))
          rwa [(fades_withdraw step db).ids]

end RecordStep

/-! ### Passes over a list -/

/-- The database after the calls, in order. -/
def applyAll (py : Python) (steps : List RecordStep) (db : Db) : Db :=
  run (RecordStep.apply py) steps db

/-- The ids that the calls get are new. -/
structure FreshIds (steps : List RecordStep) (db : Db) : Prop where
  nodup : (steps.map fun step => step.moment.uuid).Nodup
  fresh : ∀ step ∈ steps, step.moment.uuid ∉ db.factIds

/-- After a pass every candidate is done with. -/
theorem settled_pass (hpy : py.ReadsBack) (steps : List RecordStep)
    (hfresh : FreshIds steps db) (hsteady : ∀ step ∈ steps, step.call.steady py)
    (hmeta : ∀ step ∈ steps,
      checkMetadata py (setMetadata step.call.rowMetadata) = .ok ()) :
    ∀ step ∈ steps, RecordStep.settled py step.call (applyAll py steps db) := by
  have hkeep : ∀ (steps : List RecordStep) (db : Db) (call : RecordCall),
      RecordStep.settled py call db → RecordStep.settled py call (applyAll py steps db) := by
    intro steps
    induction steps with
    | nil => exact fun _ _ h => h
    | cons s steps ih =>
        intro db call h
        refine ih (s.apply py db) call ?_
        rcases h with h | h | h
        · exact .inl h
        · exact .inr (.inl ((s.apply_frame hpy db call).1 h))
        · exact .inr (.inr h)
  induction steps generalizing db with
  | nil => simp
  | cons s steps ih =>
      obtain ⟨hs, hnodup⟩ := List.nodup_cons.mp hfresh.nodup
      have hfresh' : FreshIds steps (s.apply py db) := by
        refine ⟨hnodup, fun t ht hid => ?_⟩
        rcases (s.apply_frame hpy db s.call).2 _ hid with hold | hsame
        · exact hfresh.fresh t (List.mem_cons_of_mem s ht) hold
        · exact hs (List.mem_map.mpr ⟨t, ht, hsame⟩)
      intro step hstep
      rcases List.mem_cons.mp hstep with rfl | hstep
      · refine hkeep steps _ _ ?_
        exact RecordStep.settled_apply hpy (hsteady step List.mem_cons_self)
          (hmeta step List.mem_cons_self) (hfresh.fresh step List.mem_cons_self)
      · exact ih hfresh' (fun t ht => hsteady t (List.mem_cons_of_mem s ht))
          (fun t ht => hmeta t (List.mem_cons_of_mem s ht)) step hstep

/-- A pass over candidates that are done with only withdraws, and it keeps
the counts only if it finds nothing to withdraw. -/
theorem replay_pass (hpy : py.ReadsBack) (again : List RecordStep)
    (hsettled : ∀ step ∈ again, RecordStep.settled py step.call db) :
    Fades db (applyAll py again db) ∧
      (SameCounts db (applyAll py again db) →
        Along (RecordStep.apply py) (RecordStep.Idle py) again db) := by
  induction again generalizing db with
  | nil => exact ⟨Fades.refl db, fun _ => trivial⟩
  | cons s again ih =>
      have happly := RecordStep.apply_of_settled hpy (hsettled s List.mem_cons_self)
      have hfades : Fades db (s.apply py db) := happly ▸ RecordStep.fades_withdraw s db
      have hlater : ∀ t ∈ again, RecordStep.settled py t.call (s.apply py db) := fun t ht =>
        RecordStep.settled_of_ledger (hsettled t (List.mem_cons_of_mem s ht)) hfades.ledger
      obtain ⟨hrest, hidle⟩ := ih hlater
      refine ⟨hfades.trans hrest, fun hsame => ?_⟩
      obtain ⟨hfirst, hlast⟩ := hsame.of_trans hfades hrest
      rw [happly] at hfirst
      exact ⟨RecordStep.idle_of_sameCounts hpy hfirst, hidle hlast⟩

/-- A pass that finds nothing to withdraw changes nothing. -/
theorem replay_idle (hpy : py.ReadsBack) (again : List RecordStep)
    (hsettled : ∀ step ∈ again, RecordStep.settled py step.call db)
    (hidle : Along (RecordStep.apply py) (RecordStep.Idle py) again db) :
    applyAll py again db = db := by
  induction again with
  | nil => rfl
  | cons s again ih =>
      have happly : s.apply py db = db := by
        rw [RecordStep.apply_of_settled hpy (hsettled s List.mem_cons_self),
          RecordStep.withdraw_of_idle hidle.1]
      have hrest := hidle.2
      rw [happly] at hrest
      have hrun : applyAll py (s :: again) db = applyAll py again (s.apply py db) := rfl
      rw [hrun, happly]
      exact ih (fun t ht => hsettled t (List.mem_cons_of_mem s ht)) hrest

/-- The calls of `first` are made, then all of them again, and then the rest of
the list. Whatever the rest is, this leaves the live rows of one pass exactly
when no replayed correction or retraction finds something to withdraw. -/
theorem replay_harmless (py : Python) (hpy : py.ReadsBack) (db : Db)
    (first again : List RecordStep)
    (hcalls : again.map RecordStep.call = first.map RecordStep.call)
    (hfresh : FreshIds first db) (hsteady : ∀ step ∈ first, step.call.steady py)
    (hmeta : ∀ step ∈ first,
      checkMetadata py (setMetadata step.call.rowMetadata) = .ok ()) :
    (∀ rest, SameLiveRows (applyAll py (first ++ again ++ rest) db)
        (applyAll py (first ++ rest) db)) ↔
      Along (RecordStep.apply py) (RecordStep.Idle py) again (applyAll py first db) := by
  have hsettled : ∀ step ∈ again, RecordStep.settled py step.call (applyAll py first db) := by
    intro step hstep
    have hmem : step.call ∈ first.map RecordStep.call :=
      hcalls ▸ List.mem_map_of_mem hstep
    obtain ⟨done, hdone, hcall⟩ := List.mem_map.mp hmem
    rw [← hcall]
    exact settled_pass hpy first hfresh hsteady hmeta done hdone
  have happend : ∀ xs ys : List RecordStep,
      applyAll py (xs ++ ys) db = applyAll py ys (applyAll py xs db) := fun xs ys =>
    run_append (RecordStep.apply py) xs ys db
  constructor
  · intro hsame
    have hnil := hsame []
    rw [List.append_nil, List.append_nil, happend] at hnil
    exact (replay_pass hpy again hsettled).2 hnil.sameCounts
  · intro hidle rest
    rw [happend, happend, happend, replay_idle hpy again hsettled hidle]
    exact ⟨fun k => List.Perm.refl _⟩

/-- A subject of one word is never split. -/
theorem split_word {m : Moment} {agentId : String} {c : FactCandidate}
    (h : (pySplit c.subject).length < 2) : splitCandidate py m agentId c db = c := by
  unfold splitCandidate splitOnStoreSubjects
  rw [if_pos (.inl h)]
  rfl

theorem steady_of_word {call : RecordCall} (h : (pySplit call.candidate.subject).length < 2) :
    call.steady py := by
  intro m m' db db' hrefused
  unfold RecordCall.refused at hrefused ⊢
  rw [split_word h] at hrefused ⊢
  exact hrefused

theorem readsBack_basic : Python.basic.ReadsBack where
  dumps_str s := rfl
  dumps_loads text value h := by cases h

/-- The port of the service `api`, as a text from time 5 states it. -/
def portCall (key value : String) (correction : Bool) : RecordCall where
  agentId := "agent"
  candidate := ⟨"api", "port", value, false, correction, []⟩
  key := key
  validFrom := .ofInstant 5
  sourceFragmentId := some "m1"
  metadata := []

/-- Every reading of the clock is `now`. -/
def momentAt (now : Int) (uuid : String) : Moment := ⟨fun _ => now, now, fun _ => now, now, now, uuid⟩

/-- A correction, and a change on the same day. -/
def correctedThenChanged (now : Int) (ids : String × String) : List RecordStep :=
  [⟨portCall "k1" "8080" true, momentAt now ids.1⟩,
    ⟨portCall "k2" "9090" false, momentAt (now + 1) ids.2⟩]

/-- The replayed correction withdraws the later value, and the ledger keeps it
from coming back. -/
theorem replay_loses_value :
    let once := applyAll .basic (correctedThenChanged 10 ("a", "b")) .empty
    let twice := applyAll .basic
      (correctedThenChanged 10 ("a", "b") ++ correctedThenChanged 20 ("c", "d")) .empty
    ((liveRows once portKey).map fun r => (r.value, r.validFrom, r.validTo)) =
        [("8080", 5, some 5), ("9090", 5, none)] ∧
      ((liveRows twice portKey).map fun r => (r.value, r.validFrom, r.validTo)) =
        [("8080", 5, none)] ∧
      ¬ SameLiveRows twice once := by
  refine ⟨by decide, by decide, fun h => ?_⟩
  have hlength := (h.intervals portKey).length_eq
  revert hlength
  decide

def corrected (now : Int) (id : String) : List RecordStep :=
  [⟨portCall "k1" "8080" true, momentAt now id⟩]

/-- A correction may be replayed before the change on the same day follows. -/
theorem replay_correction :
    SameLiveRows
      (applyAll .basic (corrected 10 "a" ++ corrected 20 "b" ++
        [⟨portCall "k2" "9090" false, momentAt 30 "c"⟩]) .empty)
      (applyAll .basic (corrected 10 "a" ++ [⟨portCall "k2" "9090" false, momentAt 30 "c"⟩])
        .empty) := by
  have hsteady : ∀ step ∈ corrected 10 "a", step.call.steady .basic := by
    intro step hstep
    rw [List.mem_singleton.mp hstep]
    exact steady_of_word (by decide)
  have hmeta : ∀ step ∈ corrected 10 "a",
      checkMetadata .basic (setMetadata step.call.rowMetadata) = .ok () := by
    intro step hstep
    rw [List.mem_singleton.mp hstep]
    rfl
  refine (replay_harmless .basic readsBack_basic .empty (corrected 10 "a") (corrected 20 "b") rfl
    ⟨by decide, by decide⟩ hsteady hmeta).mpr ⟨⟨fun hretract => ?_, fun _ _ => ?_⟩, trivial⟩ _
  · cases hretract
  · rw [List.eq_nil_iff_length_eq_zero]
    decide

end MarkSdk
