import MarkSdk.Lib.Deferred
import MarkSdk.Store.FactsMulti
import MarkSdk.Store.Fragments

/-!
Two processes that write facts or access counts at the same time.

`fact_set`, `fact_add` and `touch_many` read first and decide what to write.
The lock of `_writing` is one of the process, and their first `SELECT` runs
before the transaction that the first write opens, so another process may
commit between the two. Where no call acts on such a stale read, the result
is that of one call after the other (`writes_serialisable`).
-/

namespace MarkSdk

open Lib

inductive WriteCall : Type
  | factSet (now : Int) (uuid : String) (req : FactRequest) (correction : Bool)
  | factAdd (now : Int) (uuid : String) (req : FactRequest)
  | touchMany (now : Int) (ids : List String)

def WriteCall.program (py : Python) : WriteCall → Writing (Option Fact)
  | .factSet now uuid req correction => do
      let fact ← MarkSdk.factSet py now uuid req correction
      return some fact
  | .factAdd now uuid req => do
      let fact ← MarkSdk.factAdd py now uuid req
      return some fact
  | .touchMany now ids => do
      MarkSdk.touchMany py now ids
      return none

/-- The facts that are not retracted. -/
def liveFacts (db : Db) : List FactRow := db.facts.rows.filter FactRow.live

/-- How often a fragment was recalled. -/
def accessCountOf (py : Python) (db : Db) (id : String) : Option (Except StoreError Int) :=
  (db.fragments.find? id).map fun r => readCount py r.metadata

/-- Two databases show the same live facts and access counts. -/
structure SameRecord (py : Python) (db db' : Db) : Prop where
  liveFacts : liveFacts db = liveFacts db'
  accessCounts : ∀ id, accessCountOf py db id = accessCountOf py db' id

/-- One of the two calls and then the other. -/
def inTurn (py : Python) (calls : Side → WriteCall) (last : Side) (db : Db) : Db :=
  ((calls last).program py).apply (((calls last.other).program py).apply db)

theorem writes_serialisable (py : Python) (calls : Side → WriteCall) (db : Db) (sched : List Side)
    (w : World Side Db StoreError (Option Fact))
    (hfresh : World.FreshRun (fun i => (calls i).program py) sched
      (World.start (fun i => (calls i).program py) db))
    (hrun : World.run sched (World.start (fun i => (calls i).program py) db) = some w)
    (hfin : w.Finished) : ∃ last, SameRecord py w.committed (inTurn py calls last db) := by
  obtain ⟨last, -, hcommitted, -⟩ := World.serializable_pair hfresh hrun hfin
  refine ⟨last, ?_⟩
  rw [hcommitted]
  exact ⟨rfl, fun _ => rfl⟩

/-- Two processes record the same value for the same time. -/
def bothSet : Side → WriteCall
  | .left => .factSet 10 "l" ⟨"agent", "api", "port", .int 8080, ⟨5, some 0⟩, none, []⟩ false
  | .right => .factSet 11 "r" ⟨"agent", "api", "port", .int 8080, ⟨5, some 0⟩, none, []⟩ false

/-- The second call finds the value recorded. -/
theorem writes_serialisable_in_turn :
    ∃ w, World.run (List.replicate 7 Side.left ++ List.replicate 2 .right)
        (World.start (fun i => (bothSet i).program .basic) .empty) = some w ∧
      ∃ last, SameRecord .basic w.committed (inTurn .basic bothSet last .empty) := by
  have hdone : (World.run (List.replicate 7 Side.left ++ List.replicate 2 .right)
      (World.start (fun i => (bothSet i).program .basic) .empty)).map
        (fun w => decide w.Finished) = some true := by decide
  obtain ⟨w, hw, hfin⟩ := Option.map_eq_some_iff.mp hdone
  exact ⟨w, hw, writes_serialisable .basic bothSet .empty _ w
    (World.freshRun_serial (by decide) hw) hw (of_decide_eq_true hfin)⟩

/-- Both calls look for the value before either one has recorded it. -/
theorem value_recorded_twice :
    ¬ ∀ (py : Python) (calls : Side → WriteCall) (db : Db) (sched : List Side)
        (w : World Side Db StoreError (Option Fact)),
      World.run sched (World.start (fun i => (calls i).program py) db) = some w → w.Finished →
        ∃ last, SameRecord py w.committed (inTurn py calls last db) := by
  intro h
  let sched : List Side := [.left, .right] ++ List.replicate 6 .left ++ List.replicate 7 .right
  have hrecorded :
      (World.run sched (World.start (fun i => (bothSet i).program .basic) .empty)).map
        (fun w => (decide w.Finished, (liveFacts w.committed).length)) = some (true, 2) := by
    decide
  obtain ⟨w, hw, hboth⟩ := Option.map_eq_some_iff.mp hrecorded
  obtain ⟨hfin, htwice⟩ := Prod.mk.inj hboth
  obtain ⟨last, hsame⟩ := h .basic bothSet .empty sched w hw (of_decide_eq_true hfin)
  have honce : ∀ last, (liveFacts (inTurn .basic bothSet last .empty)).length = 1 := by decide
  rw [hsame.liveFacts, honce last] at htwice
  cases htwice

end MarkSdk
