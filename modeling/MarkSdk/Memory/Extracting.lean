import MarkSdk.Memory.Growth

/-!
A fact-extraction job that a worker runs.

The worker marks the job started, reads the memory, hands it to the
extractor, and settles the job. What an extractor makes of a text, and which
timeline rules its candidates fall under, decides which calls of the fact
store follow: here that is any program of such calls, each of which may depend
on everything read and returned before it.
-/

namespace MarkSdk

open Lib

/-- A call of the fact store that changes it. -/
inductive ExtractorCall : Type
  | set (now : Int) (uuid : String) (req : FactRequest) (correction : Bool)
  | add (now : Int) (uuid : String) (req : FactRequest)
  | setExtracted (createdAt now : Int) (uuid key : String) (req : FactRequest)
  | remove (agentId subject attributeName : String) (value : PyValue) (validTo : Datetime)
  | retract (now : Int) (agentId subject : String) (attributeName : Option String) (value : PyValue)

/-- What such a call returns: a fact, if there is one, or a count. -/
inductive ExtractorReply : Type
  | fact (fact : Option Fact)
  | count (n : Nat)

def ExtractorCall.client (py : Python) : ExtractorCall → MemoryClient ExtractorReply
  | .set now uuid req correction => do
      let fact ← callStore (.fact req.sourceFragmentId) (factSet py now uuid req correction)
      return .fact (some fact)
  | .add now uuid req => do
      let fact ← callStore (.fact req.sourceFragmentId) (factAdd py now uuid req)
      return .fact (some fact)
  | .setExtracted createdAt now uuid key req => do
      let fact ← callStore (.fact req.sourceFragmentId)
        (factSetExtracted py createdAt now uuid key req)
      return .fact fact
  | .remove agentId subject attributeName value validTo => do
      let n ← callStore .other (factRemove py agentId subject attributeName value validTo)
      return .count n
  | .retract now agentId subject attributeName value => do
      let n ← callStore .other (factRetract py now agentId subject attributeName value)
      return .count n

/-- What an extractor does with one memory. It may catch what a call
raises. -/
inductive ExtractorProgram : Type
  | done
  | raise (e : MemoryError)
  | read (k : LocalStore → ExtractorProgram)
  | call (c : ExtractorCall) (k : Except MemoryError ExtractorReply → ExtractorProgram)

def ExtractorProgram.client (py : Python) : ExtractorProgram → MemoryClient Unit
  | .done => Client.done ()
  | .raise e => Client.raise e
  | .read k => Client.select fun s => (k s).client py
  | .call c k => (c.client py).attempt.bind fun reply => (k reply).client py

structure Extractor where
  name : String
  maxAttempts : Nat
  extract : String → Fragment → Nat → ExtractorProgram
  /-- `f"{type(exc).__name__}: {exc}"` -/
  errorText : MemoryError → String

def Fragment.eligible (f : Fragment) : Bool :=
  f.state.retrievable && !f.tags.contains "mark:quarantined"

def extractFragment (py : Python) (x : Extractor) (agentId : String) (fragment : Fragment)
    (occurrence : Nat) : MemoryClient Unit :=
  if fragment.eligible then (x.extract agentId fragment occurrence).client py else pure ()

/-- `store.fact_job_fail` -/
def callJobFail (now : Int) (fragmentId extractor error : String) (maxAttempts : Nat) :
    MemoryClient JobStatus := do
  let row ← Client.read fun s : LocalStore => s.db.factJobs.find? ⟨fragmentId, extractor⟩
  let status := failStatus maxAttempts row
  callStore .other (settleJob now ⟨fragmentId, extractor⟩ status (some (errorText error)))
  return status

/-- What the worker does with a job before anything is caught. -/
def workJob (py : Python) (x : Extractor) (startedAt completedAt : Int) (job : ClaimedJob) :
    MemoryClient Unit := do
  callStore .other (factJobStart startedAt job.fragmentId x.name)
  let fragment ← Client.read fun s => s.get job.fragmentId
  -- a memory that is gone has nothing to extract
  match fragment with
  | some f => extractFragment py x job.agentId f job.occurrence
  | none => pure ()
  callStore .other (factJobComplete completedAt job.fragmentId x.name)

def runJob (py : Python) (x : Extractor) (startedAt completedAt failedAt : Int) (job : ClaimedJob) :
    MemoryClient Unit := do
  match ← (workJob py x startedAt completedAt job).attempt with
  | .ok _ => return ()
  | .error e => do
      let _ ← callJobFail failedAt job.fragmentId x.name (x.errorText e) x.maxAttempts

/-! ### Honesty -/

/-- One write of the store, by its label. -/
def StoreGrowsBy (l : StoreWrite) (s s' : LocalStore) : Prop := GrowsBy l s.db s'.db

theorem StoreGrowsBy.refl (l : StoreWrite) (s : LocalStore) : StoreGrowsBy l s s :=
  GrowsBy.refl l s.db

theorem StoreGrowsBy.trans {l : StoreWrite} {s t u : LocalStore} (h : StoreGrowsBy l s t)
    (h' : StoreGrowsBy l t u) : StoreGrowsBy l s u :=
  GrowsBy.trans h h'

section Honesty

attribute [local irreducible] FactRequest.check

theorem honest_callStore {α : Type} {l : StoreWrite} {t : Writing α} (ht : t.Each (GrowsBy l)) :
    (callStore l t).Honest StoreGrowsBy :=
  Client.honest_txn (StoreGrowsBy.refl l) StoreGrowsBy.trans ((each_onDb ht).mono fun _ _ h => h.1)

theorem honest_rewriteFragment (py : Python) (f : Fragment) :
    (rewriteFragment py f).Honest StoreGrowsBy :=
  Client.honest_bind (honest_callStore (each_store py f (.inl rfl))) fun _ => trivial

theorem honest_insertFragment (py : Python) (f : Fragment) :
    (insertFragment py f).Honest StoreGrowsBy :=
  honest_callStore (each_store py f (.inr rfl))

theorem honest_removeFragment (id : String) : (removeFragment id).Honest StoreGrowsBy :=
  Client.honest_bind (honest_callStore (each_deleteById id)) fun _ => trivial

theorem honest_callStoreNode (node : Node) : (callStoreNode node).Honest StoreGrowsBy := by
  refine Client.honest_bind (Client.honest_txn (StoreGrowsBy.refl .other) StoreGrowsBy.trans ?_)
    fun _ => trivial
  exact Txn.each_bind (Txn.each_update fun s => GrowsBy.refl .other s.db) fun _ => trivial

theorem honest_callDeleteEdge (edgeId : String) : (callDeleteEdge edgeId).Honest StoreGrowsBy := by
  refine Client.honest_bind (Client.honest_txn (StoreGrowsBy.refl .other) StoreGrowsBy.trans ?_)
    fun _ => trivial
  exact Txn.each_bind (Txn.each_updateCount fun s => GrowsBy.refl .other s.db) fun _ => trivial

theorem honest_extractorCall (py : Python) (c : ExtractorCall) : (c.client py).Honest StoreGrowsBy := by
  cases c with
  | set now uuid req correction =>
      exact Client.honest_bind (honest_callStore (each_factSet py now uuid req correction))
        fun _ => trivial
  | add now uuid req =>
      exact Client.honest_bind (honest_callStore (each_factAdd py now uuid req)) fun _ => trivial
  | setExtracted createdAt now uuid key req =>
      exact Client.honest_bind (honest_callStore (each_factSetExtracted py createdAt now uuid key req))
        fun _ => trivial
  | remove agentId subject attributeName value validTo =>
      exact Client.honest_bind
        (honest_callStore (each_factRemove py agentId subject attributeName value validTo))
        fun _ => trivial
  | retract now agentId subject attributeName value =>
      exact Client.honest_bind
        (honest_callStore (each_factRetract py now agentId subject attributeName value))
        fun _ => trivial

theorem honest_program (py : Python) (p : ExtractorProgram) :
    (p.client py).Honest StoreGrowsBy := by
  induction p with
  | done => trivial
  | raise e => trivial
  | read k ih => exact fun s => ih s
  | call c k ih => exact Client.honest_bind (Client.honest_attempt (honest_extractorCall py c)) ih

theorem honest_runJob (py : Python) (x : Extractor) (startedAt completedAt failedAt : Int)
    (job : ClaimedJob) : (runJob py x startedAt completedAt failedAt job).Honest StoreGrowsBy := by
  have hcomplete : (callStore .other (factJobComplete completedAt job.fragmentId x.name)).Honest
      StoreGrowsBy := honest_callStore (each_settleJob completedAt _ .done none)
  have hwork : (workJob py x startedAt completedAt job).Honest StoreGrowsBy := by
    refine Client.honest_bind (honest_callStore (each_updateJob _ _ _)) fun _ => ?_
    refine Client.honest_bind (Client.honest_read _) fun fragment => ?_
    cases fragment with
    | none => exact hcomplete
    | some f =>
        refine Client.honest_bind ?_ fun _ => hcomplete
        unfold extractFragment
        split
        · exact honest_program py _
        · trivial
  refine Client.honest_bind (Client.honest_attempt hwork) fun result => ?_
  cases result with
  | ok _ => trivial
  | error e =>
      refine Client.honest_bind ?_ fun _ => trivial
      exact Client.honest_bind (Client.honest_read _) fun row =>
        Client.honest_bind (honest_callStore (each_settleJob failedAt _ _ _)) fun _ => trivial

end Honesty

end MarkSdk
