import MarkSdk.Facts.Rechain

/-!
Runs of fact writes.

`FactOp` is one call on the fact store, with the clock and the fresh id the
call happens to get; a call that raises changes nothing. In every run the
single-valued rows of every timeline tile (`chained_run`). A property of the
rows that the statements preserve one by one is preserved by the calls
(`RowInvariant.apply`).
-/

namespace MarkSdk

open Lib

inductive FactOp : Type
  | store (fragment : Fragment)
  | set (now : Int) (uuid : String) (req : FactRequest) (correction : Bool)
  | add (now : Int) (uuid : String) (req : FactRequest)
  | remove (agentId subject attributeName : String) (value : PyValue) (validTo : Datetime)
  | retract (now : Int) (agentId subject : String) (attributeName : Option String)
      (value : PyValue)
  | delete (agentId subject : String) (attributeName : Option String) (value : PyValue)
  | forget (now : Int) (fragmentId : String) (secure : Bool)

/-- The database after a call. -/
def FactOp.apply (py : Python) : FactOp → Db → Db
  | .store fragment, db => (MarkSdk.store py fragment).apply db
  | .set now uuid req correction, db => (factSet py now uuid req correction).apply db
  | .add now uuid req, db => (factAdd py now uuid req).apply db
  | .remove agentId subject attributeName value validTo, db =>
      (factRemove py agentId subject attributeName value validTo).apply db
  | .retract now agentId subject attributeName value, db =>
      (factRetract py now agentId subject attributeName value).apply db
  | .delete agentId subject attributeName value, db =>
      (factDelete py agentId subject attributeName value).apply db
  | .forget now fragmentId secure, db => (forgetFragment now fragmentId secure).apply db

def runOps (py : Python) (ops : List FactOp) (db : Db) : Db :=
  ops.foldl (fun db op => op.apply py db) db

variable {py : Python} {db db' : Db}

/-- Storing a fragment leaves the facts alone. -/
theorem storeRow_facts {fragment : Fragment} {id : String}
    (h : (storeRow py fragment).exec db = .ok (id, db')) : db'.facts = db.facts := by
  unfold storeRow at h
  simp only [Txn.exec_bind, Txn.exec_query] at h
  split at h
  · simp at h
  · simp only [Txn.exec_bind, Txn.exec_update, Txn.exec_pure, Except.ok.injEq,
      Prod.mk.injEq] at h
    rw [← h.2]

/-! ### Every run -/

theorem chained_apply (op : FactOp) (h : Chained db) : Chained (op.apply py db) := by
  cases op with
  | store fragment =>
      refine Txn.apply_induction h fun _ db' hexec => ⟨fun k => ?_⟩
      have hrows : liveRows db' k = liveRows db k := by
        unfold liveRows
        rw [storeRow_facts hexec]
      exact (chainedAt_congr hrows).mpr (h.chainedAt k)
  | set now uuid req correction =>
      rw [FactOp.apply]
      exact Txn.apply_induction h fun _ _ hexec => factSet_chained h hexec
  | add now uuid req =>
      rw [FactOp.apply]
      exact Txn.apply_induction h fun _ _ hexec => factAdd_chained h hexec
  | remove agentId subject attributeName value validTo =>
      rw [FactOp.apply]
      exact Txn.apply_induction h fun _ _ hexec => factRemove_chained h hexec
  | retract now agentId subject attributeName value =>
      rw [FactOp.apply]
      exact Txn.apply_induction h fun _ _ hexec => factRetract_chained h hexec
  | delete agentId subject attributeName value =>
      rw [FactOp.apply]
      exact Txn.apply_induction h fun _ _ hexec => factDelete_chained h hexec
  | forget now fragmentId secure =>
      rw [FactOp.apply]
      exact Txn.apply_induction h fun _ _ hexec => forgetFragment_chained h hexec

theorem chained_run (ops : List FactOp) (h : Chained db) : Chained (runOps py ops db) := by
  induction ops generalizing db with
  | nil => exact h
  | cons op ops ih => exact ih (chained_apply op h)

/-! ### Properties that the statements preserve -/

/-- A property of the facts table that every statement preserves, but for the
insert of an added row and the update of `fact_remove`. -/
structure RowInvariant (P : Db → Prop) : Prop where
  tables : ∀ {db db' : Db}, db'.facts = db.facts → P db → P db'
  insertSet : ∀ {db db' : Db} {row : FactRow}, Db.insertFact row db = .ok db' →
    row.validTo = none → row.isMulti = false → P db → P db'
  endAdded : ∀ {db : Db} (k : TimelineKey) (t : Int), P db → P (db.endAdded k t)
  rechain : ∀ {db : Db} (k : TimelineKey), P db → P (db.rechain k)
  retract : ∀ {db : Db} (p : FactRow → Bool) (now : Int), P db →
    P (db.updateFacts p (FactRow.retract now) (FactRow.retract_id now))
  delete : ∀ {db : Db} (p : FactRow → Bool), P db → P (db.deleteFacts p)

/-- Not a `fact_add` and not a `fact_remove`. -/
def FactOp.setSide : FactOp → Bool
  | .add .. => false
  | .remove .. => false
  | _ => true

namespace RowInvariant

variable {P : Db → Prop}

theorem rechainAll (hP : RowInvariant P) (ks : List TimelineKey) (h : P db) :
    P (db.rechainAll ks) := by
  induction ks generalizing db with
  | nil => exact h
  | cons k ks ih => exact ih (hP.rechain k h)

theorem dropJobs (hP : RowInvariant P) {fragmentId : String} (h : P db) :
    P (db.dropJobs fragmentId) := by
  have hfacts : (db.dropJobs fragmentId).facts = db.facts := rfl
  exact hP.tables hfacts h

theorem insertSet_exec (hP : RowInvariant P) {now : Int} {uuid encoded : String}
    {req : FactRequest} {fact : Fact} (h : P db)
    (hexec : (MarkSdk.insertSet py now uuid encoded req).exec db = .ok (fact, db')) : P db' := by
  rw [exec_insertSet] at hexec
  split at hexec
  · simp at hexec
  · split at hexec
    · rename_i inserted hrow
      rw [factById_ok hexec]
      have hinserted : P inserted :=
        hP.insertSet hrow rfl (isMulti_row_set py now uuid encoded req req.metadata) h
      exact hP.rechain _ (hP.endAdded _ _ hinserted)
    · simp at hexec

theorem factSet (hP : RowInvariant P) {now : Int} {uuid : String} {req : FactRequest}
    {correction : Bool} {fact : Fact} (h : P db)
    (hexec : (MarkSdk.factSet py now uuid req correction).exec db = .ok (fact, db')) : P db' := by
  rw [exec_factSet] at hexec
  split at hexec
  · simp at hexec
  · split at hexec
    · exact hP.insertSet_exec (hP.retract _ now h) hexec
    · split at hexec
      · rw [factById_ok hexec]
        exact h
      · exact hP.insertSet_exec h hexec

theorem factRetract (hP : RowInvariant P) {now : Int} {agentId subject : String}
    {attributeName : Option String} {value : PyValue} {n : Nat} (h : P db)
    (hexec : (MarkSdk.factRetract py now agentId subject attributeName value).exec db =
      .ok (n, db')) : P db' := by
  obtain ⟨rows, -, rfl, -⟩ := factRetract_ok py now hexec
  exact hP.rechainAll _ (hP.retract _ now h)

theorem factDelete (hP : RowInvariant P) {agentId subject : String}
    {attributeName : Option String} {value : PyValue} {n : Nat} (h : P db)
    (hexec : (MarkSdk.factDelete py agentId subject attributeName value).exec db =
      .ok (n, db')) : P db' := by
  rw [exec_factDelete] at hexec
  simp only [Except.ok.injEq, Prod.mk.injEq] at hexec
  exact hexec.2 ▸ hP.rechainAll _ (hP.delete _ h)

theorem forgetFragment (hP : RowInvariant P) {now : Int} {fragmentId : String}
    {secure found : Bool} (h : P db)
    (hexec : (MarkSdk.forgetFragment now fragmentId secure).exec db = .ok (found, db')) : P db' := by
  rw [exec_forgetFragment] at hexec
  split at hexec
  · simp only [Except.ok.injEq, Prod.mk.injEq] at hexec
    exact hexec.2 ▸ h
  · rename_i row _
    simp only [Except.ok.injEq, Prod.mk.injEq] at hexec
    obtain ⟨-, rfl⟩ := hexec
    have hfacts : (db.dropFragment fragmentId).facts = db.facts := rfl
    have hdrop : P (db.dropFragment fragmentId) := hP.tables hfacts h
    have hcut : P ((db.dropFragment fragmentId).cutFacts row.agentId fragmentId secure now) := by
      cases secure with
      | true => exact hP.delete _ hdrop
      | false => exact hP.retract _ now hdrop
    exact hP.dropJobs (hP.rechainAll _ hcut)

/-- The rule: what the statements preserve, the calls preserve. -/
theorem apply (hP : RowInvariant P) (op : FactOp) (hop : op.setSide) (h : P db) :
    P (op.apply py db) := by
  cases op with
  | store fragment =>
      exact Txn.apply_induction (P := P) h fun _ _ hexec => hP.tables (storeRow_facts hexec) h
  | set now uuid req correction =>
      rw [FactOp.apply]
      exact Txn.apply_induction (P := P) h fun _ _ hexec => hP.factSet h hexec
  | add now uuid req => cases hop
  | remove agentId subject attributeName value validTo => cases hop
  | retract now agentId subject attributeName value =>
      rw [FactOp.apply]
      exact Txn.apply_induction (P := P) h fun _ _ hexec => hP.factRetract h hexec
  | delete agentId subject attributeName value =>
      rw [FactOp.apply]
      exact Txn.apply_induction (P := P) h fun _ _ hexec => hP.factDelete h hexec
  | forget now fragmentId secure =>
      rw [FactOp.apply]
      exact Txn.apply_induction (P := P) h fun _ _ hexec => hP.forgetFragment h hexec

end RowInvariant

end MarkSdk
