import Mathlib.Algebra.Ring.Nat
import MarkSdk.Lib.Calls
import MarkSdk.Store.Facts

/-!
The extraction queue and the ledger of extracted assertions.

A job is one fragment for one extractor. It goes from `pending` to `running`
when a worker claims it, and from there to `done`, back to `pending`, or to
`failed`. The owner table says which process holds a running job; whether an
owner process is dead is for the operating system to say, so every call that
asks takes the verdicts as an argument.
-/

namespace MarkSdk

open Lib

def Db.updateJob (db : Db) (key : JobKey) (f : FactJob → FactJob) (hf : ∀ j, (f j).key = j.key) :
    Db :=
  { db with factJobs := db.factJobs.update (fun j => j.key = key) f hf }

def Db.deleteOwner (db : Db) (key : JobKey) : Db :=
  { db with factJobOwners := db.factJobOwners.delete fun o => o.key = key }

/-- `INSERT OR REPLACE INTO fact_job_owners` -/
def Db.setOwner (db : Db) (key : JobKey) (owner : String) : Db :=
  { db with
    factJobOwners := db.factJobOwners.insertOrReplace ⟨key.fragmentId, key.extractor, owner⟩ }

def Db.ownerOf (db : Db) (key : JobKey) : Option String :=
  (db.factJobOwners.find? key).map JobOwner.owner

def updateJob (key : JobKey) (f : FactJob → FactJob) (hf : ∀ j, (f j).key = j.key) :
    Writing Unit :=
  Txn.update fun db => db.updateJob key f hf

def deleteOwner (key : JobKey) : Writing Unit := Txn.update fun db => db.deleteOwner key

def setOwner (key : JobKey) (owner : String) : Writing Unit :=
  Txn.update fun db => db.setOwner key owner

/-! ### Enqueue -/

/-- `INSERT OR IGNORE INTO fact_jobs`, with the number of rows inserted. -/
def insertJob (job : FactJob) : Writing Nat :=
  Txn.updateCount fun db =>
    match db.factJobs.insert? job with
    | some factJobs => ({ db with factJobs := factJobs }, 1)
    | none => (db, 0)

def newJob (now : Int) (agentId extractor : String) (item : String × Nat) : FactJob where
  fragmentId := item.1
  extractor := extractor
  agentId := agentId
  occurrence := item.2
  status := .pending
  attempts := 0
  error := none
  createdAt := now
  updatedAt := now

def factJobEnqueue (now : Int) (agentId : String) (items : List (String × Nat))
    (extractor : String) : Writing Nat := do
  let added ← Txn.forMap (fun item => insertJob (newJob now agentId extractor item)) items
  return added.sum

/-! ### Claim and reclaim -/

def FactJob.abandoned (now : Int) (reason : String) (j : FactJob) : FactJob :=
  { j with status := .failed, error := some (j.error.getD reason), updatedAt := now }

@[simp] theorem FactJob.abandoned_key (now : Int) (reason : String) (j : FactJob) :
    (j.abandoned now reason).key = j.key := rfl

def abandon (now : Int) (key : JobKey) (reason : String) : Writing Unit := do
  updateJob key (FactJob.abandoned now reason) (FactJob.abandoned_key now reason)
  deleteOwner key

/-- The update keeps `updated_at`, so that a pass that started before the
crash can still pick the job up. -/
def FactJob.requeued (j : FactJob) : FactJob := { j with status := .pending }

@[simp] theorem FactJob.requeued_key (j : FactJob) : j.requeued.key = j.key := rfl

/-- The running jobs that have an owner, of one extractor or of all. -/
def ownedRunning (extractor : Option String) (db : Db) : List (FactJob × String) :=
  (db.factJobs.rows.filter fun j =>
      j.status = .running && extractor.all fun e => e = "" || j.extractor = e).filterMap fun j =>
    (db.ownerOf j.key).map fun owner => (j, owner)

def reclaimRow (dead : String → Bool) (now : Int) (maxAttempts : Nat) (row : FactJob × String) :
    Writing Nat :=
  if dead row.2 then
    if maxAttempts ≤ row.1.attempts then do
      abandon now row.1.key "abandoned: worker process died mid-job"
      return 0
    else do
      updateJob row.1.key FactJob.requeued FactJob.requeued_key
      deleteOwner row.1.key
      return 1
  else return 0

/-- `_reclaim_dead`: how many jobs of dead owners went back to the queue. -/
def reclaimDead (dead : String → Bool) (now : Int) (extractor : Option String)
    (maxAttempts : Nat) : Writing Nat := do
  let rows ← Txn.query (ownedRunning extractor)
  let reclaimed ← Txn.forMap (reclaimRow dead now maxAttempts) rows
  return reclaimed.sum

/-- The `WHERE` of `fact_job_claim`. -/
def FactJob.runnable (extractor : String) (agentId : Option String) (notAfter : Option Int)
    (stale : Int) (j : FactJob) : Bool :=
  j.extractor = extractor &&
    ((j.status = .pending && notAfter.all fun t => j.updatedAt ≤ t) ||
      (j.status = .running && j.updatedAt < stale)) &&
    agentId.all fun a => j.agentId = a

/-- `LIMIT ?`: a negative limit is none. -/
def sqlLimit {α : Type} (limit : Int) (rows : List α) : List α :=
  if limit < 0 then rows else rows.take limit.toNat

/-- The arguments of one `fact_job_claim`. -/
structure ClaimRequest where
  extractor : String
  agentId : Option String
  limit : Int
  lease : Int
  maxAttempts : Nat
  notAfter : Option Int
  owner : String

/-- The rows that a claim reads, oldest first. -/
def runnableJobs (req : ClaimRequest) (now : Int) (db : Db) : List FactJob :=
  sqlLimit req.limit <|
    (db.factJobs.rows.filter
      (FactJob.runnable req.extractor req.agentId req.notAfter (now - req.lease))).insertionSort
      fun i j => i.createdAt ≤ j.createdAt

structure ClaimedJob where
  fragmentId : String
  agentId : String
  occurrence : Nat
  attempts : Nat
  deriving DecidableEq, Repr

def FactJob.claimedAt (now : Int) (j : FactJob) : FactJob :=
  { j with status := .running, attempts := j.attempts + 1, updatedAt := now }

@[simp] theorem FactJob.claimedAt_key (now : Int) (j : FactJob) :
    (j.claimedAt now).key = j.key := rfl

def claimRow (req : ClaimRequest) (now abandonedAt : Int) (row : FactJob) :
    Writing (Option ClaimedJob) :=
  let key : JobKey := ⟨row.fragmentId, req.extractor⟩
  if row.status = .running ∧ req.maxAttempts ≤ row.attempts then do
    abandon abandonedAt key "abandoned: worker stopped mid-job"
    return none
  else do
    updateJob key (FactJob.claimedAt now) (FactJob.claimedAt_key now)
    setOwner key req.owner
    return some
      { fragmentId := row.fragmentId
        agentId := row.agentId
        occurrence := row.occurrence
        attempts := row.attempts + 1 }

/-- `now` is read before the transaction, `abandonedAt` inside it. -/
def factJobClaim (dead : String → Bool) (now abandonedAt : Int) (req : ClaimRequest) :
    Writing (List ClaimedJob) := do
  let _ ← reclaimDead dead abandonedAt (some req.extractor) req.maxAttempts
  let rows ← Txn.query (runnableJobs req now)
  let claimed ← Txn.forMap (claimRow req now abandonedAt) rows
  return claimed.reduceOption

def factJobReclaim (dead : String → Bool) (now : Int) (extractor : Option String)
    (maxAttempts : Nat) : Writing Nat :=
  reclaimDead dead now extractor maxAttempts

/-! ### Start, release and settle -/

def FactJob.startedAt (now : Int) (j : FactJob) : FactJob :=
  if j.status = .running then { j with updatedAt := now } else j

@[simp] theorem FactJob.startedAt_key (now : Int) (j : FactJob) :
    (j.startedAt now).key = j.key := by
  unfold FactJob.startedAt
  split <;> rfl

def factJobStart (now : Int) (fragmentId extractor : String) : Writing Unit :=
  updateJob ⟨fragmentId, extractor⟩ (FactJob.startedAt now) (FactJob.startedAt_key now)

def FactJob.released (refund : Nat) (j : FactJob) : FactJob :=
  { j with status := .pending, attempts := j.attempts - refund }

@[simp] theorem FactJob.released_key (refund : Nat) (j : FactJob) :
    (j.released refund).key = j.key := rfl

/-- `status = 'running'` and held by `owner`. -/
def Db.heldBy (db : Db) (owner : String) (key : JobKey) (j : FactJob) : Bool :=
  j.key = key && j.status = .running && db.ownerOf key = some owner

def Db.releaseJobs (db : Db) (owner : String) (refund : Nat) (key : JobKey) : Db :=
  { db with
    factJobs := db.factJobs.update (db.heldBy owner key) (FactJob.released refund)
      (FactJob.released_key refund) }

/-- The guarded `UPDATE` of `fact_job_release`, with the number of rows changed. -/
def releaseJob (owner : String) (refund : Nat) (key : JobKey) : Writing Nat :=
  Txn.updateCount fun db =>
    (db.releaseJobs owner refund key, (db.factJobs.rows.filter (db.heldBy owner key)).length)

def releaseRow (owner extractor : String) (refund : Nat) (fragmentId : String) : Writing Nat := do
  let changed ← releaseJob owner refund ⟨fragmentId, extractor⟩
  if changed = 0 then return 0
  else
    deleteOwner ⟨fragmentId, extractor⟩
    return 1

def factJobRelease (fragmentIds : List String) (extractor : String) (started : Bool)
    (owner : String) : Writing Nat := do
  let released ← Txn.forMap (releaseRow owner extractor (if started then 0 else 1)) fragmentIds
  return released.sum

def FactJob.settledAt (now : Int) (status : JobStatus) (error : Option String) (j : FactJob) :
    FactJob :=
  { j with status := status, error := error, updatedAt := now }

@[simp] theorem FactJob.settledAt_key (now : Int) (status : JobStatus) (error : Option String)
    (j : FactJob) : (j.settledAt now status error).key = j.key := rfl

def settleJob (now : Int) (key : JobKey) (status : JobStatus) (error : Option String) :
    Writing Unit := do
  updateJob key (FactJob.settledAt now status error) (FactJob.settledAt_key now status error)
  deleteOwner key

def factJobComplete (now : Int) (fragmentId extractor : String) : Writing Unit :=
  settleJob now ⟨fragmentId, extractor⟩ .done none

/-- The status that `fact_job_fail` decides on from the row it reads. -/
def failStatus (maxAttempts : Nat) (row : Option FactJob) : JobStatus :=
  match row with
  | none => .failed
  | some j => if maxAttempts ≤ j.attempts then .failed else .pending

/-- `error[:2000]` -/
def errorText (error : String) : String := String.ofList (error.toList.take 2000)

/-- The attempts are read before the transaction that settles the job. -/
def factJobFail (now : Int) (fragmentId extractor error : String) (maxAttempts : Nat) :
    Calls Db StoreError JobStatus := do
  let row ← Calls.read fun db => db.factJobs.find? ⟨fragmentId, extractor⟩
  let status := failStatus maxAttempts row
  Calls.txn (settleJob now ⟨fragmentId, extractor⟩ status (some (errorText error)))
  return status

/-! ### The ledger -/

/-- `INSERT OR IGNORE INTO fact_extractions`, with the number of rows inserted. -/
def insertExtraction (row : Extraction) : Writing Nat :=
  Txn.updateCount fun db =>
    match db.factExtractions.insert? row with
    | some factExtractions => ({ db with factExtractions := factExtractions }, 1)
    | none => (db, 0)

def Extraction.recordFact (factId : String) (e : Extraction) : Extraction :=
  { e with factId := some factId }

theorem Extraction.recordFact_ledgerKey (factId : String) (e : Extraction) :
    (e.recordFact factId).ledgerKey = e.ledgerKey := rfl

/-- `fact_set_extracted`: nothing when the ledger already has the key. The
ledger row has its own reading of the clock. -/
def factSetExtracted (py : Python) (createdAt now : Int) (uuid key : String) (req : FactRequest) :
    Writing (Option Fact) := do
  let inserted ← insertExtraction ⟨req.agentId, key, req.sourceFragmentId, none, createdAt⟩
  if inserted = 0 then return none
  else
    let fact ← factSet py now uuid req false
    Txn.update fun db =>
      { db with
        factExtractions := db.factExtractions.update (fun e => e.ledgerKey = (req.agentId, key))
          (Extraction.recordFact fact.id) (Extraction.recordFact_ledgerKey fact.id) }
    return some fact

end MarkSdk
