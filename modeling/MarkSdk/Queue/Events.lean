import MarkSdk.Lib.Runs
import MarkSdk.Queue.Effect

/-!
The job queue as a state machine.

Any number of workers call the queue in any order. A worker is a name; the
process it runs in is the owner that its claims record. `fact_job_fail` is
two events, because it reads the attempts of the job before the transaction
that settles it. That a worker hangs or dies is no event: it makes no further
call, and a later call may hold its process for dead, or find its lease
expired. Next to the database the state keeps who was handed each job, and
what the failing workers have read.
-/

namespace MarkSdk

open Lib

structure Queue where
  db : Db
  /-- The workers that a job was handed to, the last one first. -/
  claims : JobKey → List String
  /-- How often a job was given back with its attempt. -/
  refunds : JobKey → Nat
  /-- The status that a worker has decided on for a job it failed. -/
  decided : String → JobKey → Option JobStatus

def Queue.empty : Queue := ⟨.empty, fun _ => [], fun _ => 0, fun _ _ => none⟩

inductive JobEvent : Type
  | enqueue (now : Int) (agentId : String) (items : List (String × Nat)) (extractor : String)
  | claim (worker : String) (dead : String → Bool) (now abandonedAt : Int) (req : ClaimRequest)
  | reclaim (dead : String → Bool) (now : Int) (extractor : Option String) (maxAttempts : Nat)
  | start (now : Int) (key : JobKey)
  | complete (worker : String) (now : Int) (key : JobKey)
  | failRead (worker : String) (key : JobKey) (maxAttempts : Nat)
  | failSettle (worker : String) (now : Int) (key : JobKey) (error : String)
  | release (fragmentIds : List String) (extractor : String) (started : Bool) (owner : String)

def claimedJobs (dead : String → Bool) (now abandonedAt : Int) (req : ClaimRequest) (db : Db) :
    List ClaimedJob :=
  match (factJobClaim dead now abandonedAt req).outcome db with
  | .ok jobs => jobs
  | .error _ => []

def handsOut (dead : String → Bool) (now abandonedAt : Int) (req : ClaimRequest) (db : Db)
    (key : JobKey) : Bool :=
  (claimedJobs dead now abandonedAt req db).any fun job =>
    (⟨job.fragmentId, req.extractor⟩ : JobKey) = key

def Queue.step : JobEvent → Queue → Queue
  | .enqueue now agentId items extractor, q =>
      { q with db := (factJobEnqueue now agentId items extractor).apply q.db }
  | .claim worker dead now abandonedAt req, q =>
      { q with
        db := (factJobClaim dead now abandonedAt req).apply q.db
        claims := fun key =>
          if handsOut dead now abandonedAt req q.db key then worker :: q.claims key
          else q.claims key }
  | .reclaim dead now extractor maxAttempts, q =>
      { q with db := (factJobReclaim dead now extractor maxAttempts).apply q.db }
  | .start now key, q =>
      { q with db := (factJobStart now key.fragmentId key.extractor).apply q.db }
  | .complete _ now key, q =>
      { q with db := (factJobComplete now key.fragmentId key.extractor).apply q.db }
  | .failRead worker key maxAttempts, q =>
      { q with
        decided := fun w k =>
          if w = worker ∧ k = key then some (failStatus maxAttempts (q.db.factJobs.find? key))
          else q.decided w k }
  | .failSettle worker now key error, q =>
      match q.decided worker key with
      | none => q
      | some status =>
          { q with db := (settleJob now key status (some (errorText error))).apply q.db }
  | .release fragmentIds extractor started owner, q =>
      { q with
        db := (factJobRelease fragmentIds extractor started owner).apply q.db
        refunds := fun key =>
          if started = false ∧ key.extractor = extractor ∧ key.fragmentId ∈ fragmentIds ∧
              (q.db.slot key).heldBy owner = true then q.refunds key + 1
          else q.refunds key }

/-! ### What a claim hands out -/

section Claim

variable {dead : String → Bool} {now abandonedAt : Int} {req : ClaimRequest} {db : Db}

theorem apply_factJobClaim (dead : String → Bool) (now abandonedAt : Int) (req : ClaimRequest)
    (db : Db) : (factJobClaim dead now abandonedAt req).apply db = db.claim dead now abandonedAt req :=
  Txn.apply_of_ok (exec_factJobClaim dead now abandonedAt req db)

theorem handsOut_iff {key : JobKey} :
    handsOut dead now abandonedAt req db key = true ↔
      ∃ row ∈ claimReads dead now abandonedAt req db,
        row.exhausted req.maxAttempts = false ∧ row.key = key := by
  have hjobs : claimedJobs dead now abandonedAt req db =
      (claimReads dead now abandonedAt req db).filterMap (claimResult req) := by
    unfold claimedJobs Txn.outcome
    rw [exec_factJobClaim]
  unfold handsOut
  rw [hjobs, List.any_eq_true]
  simp only [List.mem_filterMap, decide_eq_true_eq]
  constructor
  · rintro ⟨job, ⟨row, hrow, hresult⟩, rfl⟩
    unfold claimResult at hresult
    split at hresult
    · cases hresult
    · rename_i hexhausted
      cases hresult
      exact ⟨row, hrow, by simpa using hexhausted, (key_of_mem_runnableJobs hrow).symm⟩
  · rintro ⟨row, hrow, hexhausted, rfl⟩
    have hresult : claimResult req row =
        some ⟨row.fragmentId, row.agentId, row.occurrence, row.attempts + 1⟩ := by
      rw [claimResult, hexhausted]
      rfl
    exact ⟨_, ⟨row, hrow, hresult⟩, key_of_mem_runnableJobs hrow⟩

/-- What a claim does at a key: it may reclaim the job, and then hand it out
or give it up. -/
theorem slot_claim_cases (dead : String → Bool) (now abandonedAt : Int) (req : ClaimRequest)
    (db : Db) (k : JobKey) :
    let s := (db.slot k).reclaim dead abandonedAt (some req.extractor) req.maxAttempts
    (db.claim dead now abandonedAt req).slot k = s ∧
        handsOut dead now abandonedAt req db k = false ∨
      ∃ row, s.job = some row ∧ row.key = k ∧
        row.runnable req.extractor req.agentId req.notAfter (now - req.lease) = true ∧
        (db.claim dead now abandonedAt req).slot k = s.claim req now abandonedAt row ∧
        handsOut dead now abandonedAt req db k = !row.exhausted req.maxAttempts := by
  intro s
  by_cases hmem : k ∈ (claimReads dead now abandonedAt req db).map FactJob.key
  · obtain ⟨row, hrow, rfl⟩ := List.mem_map.mp hmem
    obtain ⟨hmem', hrunnable⟩ := mem_runnableJobs hrow
    refine .inr ⟨row, ?_, rfl, hrunnable, slot_claim_of_mem hrow, ?_⟩
    · have hslot := slot_reclaim db dead abandonedAt (some req.extractor) req.maxAttempts row.key
      have hjob := congrArg JobSlot.job hslot
      exact hjob.symm.trans (job_of_mem hmem')
    · rw [Bool.eq_iff_iff, handsOut_iff]
      constructor
      · rintro ⟨other, hother, hexhausted, hkey⟩
        have heq : other = row :=
          List.inj_on_of_nodup_map (nodup_runnableJobs req now _) hother hrow hkey
        simp [← heq, hexhausted]
      · intro hexhausted
        exact ⟨row, hrow, by simpa using hexhausted, rfl⟩
  · refine .inl ⟨slot_claim_of_not_mem hmem, ?_⟩
    rw [Bool.eq_false_iff]
    intro hhands
    obtain ⟨row, hrow, -, hkey⟩ := handsOut_iff.mp hhands
    exact hmem (List.mem_map.mpr ⟨row, hrow, hkey⟩)

end Claim

/-! ### What reclaiming and claiming can do to one job -/

/-- The job before and after, and whether it was handed out: an abandoned job
goes back to the queue or is given up, and a job is handed out when it is
pending, or running with attempts left. -/
inductive JobSlot.Taken (maxAttempts : Nat) : JobSlot → JobSlot → Bool → Prop
  | kept (s) : Taken maxAttempts s s false
  | requeued (j owner) (running : j.status = .running) (left : j.attempts < maxAttempts) :
      Taken maxAttempts ⟨some j, owner⟩ ⟨some j.requeued, none⟩ false
  | givenUp (j owner now reason) (running : j.status = .running) (used : maxAttempts ≤ j.attempts) :
      Taken maxAttempts ⟨some j, owner⟩ ⟨some (j.abandoned now reason), none⟩ false
  | handedOut (j owner now newOwner)
      (runnable : j.status = .pending ∨ j.status = .running ∧ j.attempts < maxAttempts) :
      Taken maxAttempts ⟨some j, owner⟩ ⟨some (j.claimedAt now), some newOwner⟩ true

theorem JobSlot.orphaned_running {s : JobSlot} {dead : String → Bool} {extractor : Option String}
    (h : s.orphaned dead extractor = true) : ∃ j, s.job = some j ∧ j.status = .running := by
  simp only [JobSlot.orphaned, Bool.and_eq_true, Option.any_eq_true, decide_eq_true_eq] at h
  obtain ⟨⟨j, hj, hrunning, -⟩, -⟩ := h
  exact ⟨j, hj, hrunning⟩

theorem JobSlot.taken_reclaim (s : JobSlot) (dead : String → Bool) (now : Int)
    (extractor : Option String) (maxAttempts : Nat) :
    s.Taken maxAttempts (s.reclaim dead now extractor maxAttempts) false := by
  unfold JobSlot.reclaim
  split
  · rename_i horphaned
    obtain ⟨j, hj, hrunning⟩ := JobSlot.orphaned_running horphaned
    obtain ⟨job, owner⟩ := s
    obtain rfl : job = some j := hj
    simp only [JobSlot.assign, Option.map_some, FactJob.reclaim]
    split
    · rename_i hused
      exact .givenUp j owner now _ hrunning hused
    · rename_i hused
      exact .requeued j owner hrunning (Nat.lt_of_not_le hused)
  · exact .kept s

theorem FactJob.runnable_status {j : FactJob} {extractor : String} {agentId : Option String}
    {notAfter : Option Int} {stale : Int}
    (h : j.runnable extractor agentId notAfter stale = true) :
    j.status = .pending ∨ j.status = .running := by
  simp only [FactJob.runnable, Bool.and_eq_true, Bool.or_eq_true, decide_eq_true_eq] at h
  rcases h.1.2 with hpending | hrunning
  · exact .inl hpending.1
  · exact .inr hrunning.1

theorem taken_claim (dead : String → Bool) (now abandonedAt : Int) (req : ClaimRequest) (db : Db)
    (k : JobKey) :
    (db.slot k).Taken req.maxAttempts ((db.claim dead now abandonedAt req).slot k)
      (handsOut dead now abandonedAt req db k) := by
  have htaken := (db.slot k).taken_reclaim dead abandonedAt (some req.extractor) req.maxAttempts
  rcases slot_claim_cases dead now abandonedAt req db k with ⟨hslot, hhands⟩ | hread
  · rw [hslot, hhands]
    exact htaken
  · obtain ⟨row, hrow, -, hrunnable, hslot, hhands⟩ := hread
    rw [hslot, hhands]
    generalize (db.slot k).reclaim dead abandonedAt (some req.extractor) req.maxAttempts = s
      at htaken hrow
    generalize db.slot k = before at htaken
    obtain ⟨job, owner⟩ := s
    obtain rfl : job = some row := hrow
    unfold JobSlot.claim JobSlot.assign
    cases hexhausted : row.exhausted req.maxAttempts with
    | true =>
        obtain ⟨hrunning, hused⟩ : row.status = .running ∧ req.maxAttempts ≤ row.attempts := by
          simpa [FactJob.exhausted] using hexhausted
        -- a row that was just reclaimed does not run, so this one was not
        cases htaken with
        | kept => exact .givenUp row owner abandonedAt _ hrunning hused
        | requeued j => cases hrunning
        | givenUp j => cases hrunning
    | false =>
        have hleft : row.status = .running → row.attempts < req.maxAttempts := by
          intro hrunning
          simpa [FactJob.exhausted, hrunning] using hexhausted
        cases htaken with
        | kept =>
            refine .handedOut row owner now req.owner ?_
            exact (FactJob.runnable_status hrunnable).imp_right fun h => ⟨h, hleft h⟩
        | requeued j oldOwner hrunning hj =>
            exact .handedOut j oldOwner now req.owner (.inr ⟨hrunning, hj⟩)
        | givenUp j =>
            rcases FactJob.runnable_status hrunnable with h | h <;> cases h

end MarkSdk
