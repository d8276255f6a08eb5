import MarkSdk.Facts.Runs

/-!
Properties of single fact rows that every call keeps.

A call of the fact store inserts the row of its request, ends and withdraws
rows, and deletes some. What new rows have and what ending and withdrawing
keep, every row of every run has (`RowRule.run`).
-/

namespace MarkSdk

open Lib

/-- What the call asks to record meets the condition. -/
def FactOp.Asks (ok : FactRequest → Prop) : FactOp → Prop
  | .set _ _ req _ => ok req
  | .add _ _ req => ok req
  | _ => True

/-- A property of single rows that new rows have, and that ending and
withdrawing a row keep. -/
structure RowRule (py : Python) (ok : FactRequest → Prop) (P : FactRow → Prop) : Prop where
  endAt : ∀ r stop, P r → P (r.endAt stop)
  retract : ∀ r now, P r → P (r.retract now)
  row : ∀ (req : FactRequest) now uuid encoded metadata, ok req → req.check py = .ok encoded →
    metadata = setMetadata req.metadata ∨ metadata = addMetadata req.metadata →
      P (req.row py now uuid encoded metadata)

def EveryRow (P : FactRow → Prop) (db : Db) : Prop := ∀ r ∈ db.facts.rows, P r

namespace RowRule

variable {py : Python} {ok : FactRequest → Prop} {P : FactRow → Prop} {db db' : Db}

theorem rechainAll (hP : RowRule py ok P) (ks : List TimelineKey) (h : EveryRow P db) :
    EveryRow P (db.rechainAll ks) := by
  induction ks generalizing db with
  | nil => exact h
  | cons k ks ih =>
      have hchained : EveryRow P (db.rechain k) := by
        intro r hr
        obtain ⟨s, hs, rfl⟩ := List.mem_map.mp hr
        exact hP.endAt s _ (h s hs)
      exact ih hchained

theorem updateFacts {p : FactRow → Bool} {f : FactRow → FactRow} {hf} (h : EveryRow P db)
    (hkeep : ∀ r, P r → P (f r)) : EveryRow P (db.updateFacts p f hf) := by
  intro r hr
  obtain ⟨s, hs, rfl⟩ := List.mem_map.mp hr
  split
  · exact hkeep s (h s hs)
  · exact h s hs

theorem deleteFacts (p : FactRow → Bool) (h : EveryRow P db) : EveryRow P (db.deleteFacts p) :=
  fun r hr => h r (List.mem_filter.mp hr).1

theorem insertFact {row : FactRow} (h : EveryRow P db) (hrow : P row)
    (hinsert : Db.insertFact row db = .ok db') : EveryRow P db' := by
  intro r hr
  rw [(insertFact_eq_ok_iff.mp hinsert).2.1, List.mem_append, List.mem_singleton] at hr
  rcases hr with hr | rfl
  · exact h r hr
  · exact hrow

theorem insertSet (hP : RowRule py ok P) {now : Int} {uuid encoded : String} {req : FactRequest}
    {fact : Fact} (h : EveryRow P db) (hok : ok req) (hcheck : req.check py = .ok encoded)
    (hexec : (MarkSdk.insertSet py now uuid encoded req).exec db = .ok (fact, db')) :
    EveryRow P db' := by
  rw [exec_insertSet] at hexec
  split at hexec
  · simp at hexec
  · split at hexec
    · rename_i inserted hrow
      rw [factById_ok hexec]
      have hinserted := insertFact h
        (hP.row req now uuid encoded _ hok hcheck (.inl rfl)) hrow
      exact hP.rechainAll [_] (updateFacts hinserted fun r => hP.endAt r _)
    · simp at hexec

theorem apply (hP : RowRule py ok P) (op : FactOp) (hop : op.Asks ok) (h : EveryRow P db) :
    EveryRow P (op.apply py db) := by
  cases op with
  | store fragment =>
      refine Txn.apply_induction (P := EveryRow P) h fun _ db' hexec => ?_
      unfold EveryRow
      rw [storeRow_facts hexec]
      exact h
  | set now uuid req correction =>
      rw [FactOp.apply]
      refine Txn.apply_induction (P := EveryRow P) h fun _ db' hexec => ?_
      rw [exec_factSet] at hexec
      split at hexec
      · simp at hexec
      · rename_i encoded hcheck
        split at hexec
        · exact hP.insertSet (updateFacts h fun r => hP.retract r now) hop hcheck hexec
        · split at hexec
          · rw [factById_ok hexec]
            exact h
          · exact hP.insertSet h hop hcheck hexec
  | add now uuid req =>
      rw [FactOp.apply]
      refine Txn.apply_induction (P := EveryRow P) h fun _ db' hexec => ?_
      rw [exec_factAdd] at hexec
      split at hexec
      · simp at hexec
      · rename_i encoded hcheck
        split at hexec
        · rw [factById_ok hexec]
          exact h
        · split at hexec
          · simp at hexec
          · split at hexec
            · rename_i hinsert
              rw [factById_ok hexec]
              exact insertFact h (hP.row req now uuid encoded _ hop hcheck (.inr rfl)) hinsert
            · simp at hexec
  | remove agentId subject attributeName value validTo =>
      rw [FactOp.apply]
      refine Txn.apply_induction (P := EveryRow P) h fun _ db' hexec => ?_
      rw [exec_factRemove] at hexec
      simp only at hexec
      split at hexec
      · simp at hexec
      · simp only [Except.ok.injEq, Prod.mk.injEq] at hexec
        exact hexec.2 ▸ updateFacts h fun r => hP.endAt r _
  | retract now agentId subject attributeName value =>
      rw [FactOp.apply]
      refine Txn.apply_induction (P := EveryRow P) h fun _ db' hexec => ?_
      obtain ⟨rows, -, rfl, -⟩ := factRetract_ok py now hexec
      exact hP.rechainAll _ (updateFacts h fun r => hP.retract r now)
  | delete agentId subject attributeName value =>
      rw [FactOp.apply]
      refine Txn.apply_induction (P := EveryRow P) h fun _ db' hexec => ?_
      rw [exec_factDelete] at hexec
      simp only [Except.ok.injEq, Prod.mk.injEq] at hexec
      exact hexec.2 ▸ hP.rechainAll _ (deleteFacts _ h)
  | forget now fragmentId secure =>
      rw [FactOp.apply]
      refine Txn.apply_induction (P := EveryRow P) h fun _ db' hexec => ?_
      rw [exec_forgetFragment] at hexec
      split at hexec
      · simp only [Except.ok.injEq, Prod.mk.injEq] at hexec
        exact hexec.2 ▸ h
      · rename_i row _
        simp only [Except.ok.injEq, Prod.mk.injEq] at hexec
        obtain ⟨-, rfl⟩ := hexec
        have hdrop : EveryRow P (db.dropFragment fragmentId) := h
        have hcut : EveryRow P
            ((db.dropFragment fragmentId).cutFacts row.agentId fragmentId secure now) := by
          cases secure with
          | true => exact deleteFacts _ hdrop
          | false => exact updateFacts hdrop fun r => hP.retract r now
        exact hP.rechainAll _ hcut

theorem run (hP : RowRule py ok P) (ops : List FactOp) (hops : ∀ op ∈ ops, op.Asks ok)
    (h : EveryRow P db) : EveryRow P (runOps py ops db) := by
  induction ops generalizing db with
  | nil => exact h
  | cons op ops ih =>
      exact ih (fun o ho => hops o (List.mem_cons_of_mem op ho))
        (hP.apply op (hops op List.mem_cons_self) h)

end RowRule

end MarkSdk
