import MarkSdk.Queue.Events

/-!
Settling a job that was taken over.

`fact_job_release` looks whether the job still runs under its caller;
`fact_job_complete` and `fact_job_fail` settle by key alone. So a worker
whose lease expired settles the claim of the worker that took the job over,
and a late failure puts a finished job back. `claims_hold_iff` says along
which runs a finished job stays finished and a late settlement changes
nothing: those in which every such settlement finds its own status recorded
already, with no owner left.
-/

namespace MarkSdk

open Lib

def JobSlot.status (s : JobSlot) : Option JobStatus := s.job.map FactJob.status

/-- The worker was handed the job, and another worker after it. -/
def Queue.TakenFrom (q : Queue) (worker : String) (key : JobKey) : Prop :=
  worker ∈ q.claims key ∧ (q.claims key).head? ≠ some worker

/-- The status that an event settles the job with for a worker. -/
def JobEvent.settles (e : JobEvent) (q : Queue) (worker : String) (key : JobKey) :
    Option JobStatus :=
  match e with
  | .complete w _ k => if w = worker ∧ k = key then some .done else none
  | .failSettle w _ k _ => if w = worker ∧ k = key then q.decided worker key else none
  | _ => none

/-- The status is recorded already, and no owner is. -/
def JobSlot.Settled (status : JobStatus) (s : JobSlot) : Prop :=
  (∀ j, s.job = some j → j.status = status) ∧ s.owner = none

/-- The workers settle the claims they hold: what settles a finished job
finishes it, and a worker whose job was taken over finds it settled its way. -/
def JobEvent.SettlesOwn (e : JobEvent) (q : Queue) : Prop :=
  ∀ worker key status, e.settles q worker key = some status →
    ((q.db.slot key).status = some .done → status = .done) ∧
    (q.TakenFrom worker key → (q.db.slot key).Settled status)

/-- What holds along a run when claims are respected. -/
structure ClaimsHold (events : List JobEvent) : Prop where
  /-- A job that is done stays done. -/
  done : ∀ past later rest, events = past ++ later ++ rest → ∀ key,
    ((run Queue.step past .empty).db.slot key).status = some .done →
      ((run Queue.step (past ++ later) .empty).db.slot key).status = some .done
  /-- A worker whose job was taken over changes neither its status nor its owner. -/
  takenOver : ∀ past e rest, events = past ++ e :: rest → ∀ worker key,
    e.settles (run Queue.step past .empty) worker key ≠ none →
      (run Queue.step past .empty).TakenFrom worker key →
        ((run Queue.step (past ++ [e]) .empty).db.slot key).status =
            ((run Queue.step past .empty).db.slot key).status ∧
          ((run Queue.step (past ++ [e]) .empty).db.slot key).owner =
            ((run Queue.step past .empty).db.slot key).owner

/-! ### One event at one key -/

/-- The job that an event settles, and the status it leaves. -/
theorem slot_settles {e : JobEvent} {q : Queue} {worker : String} {key : JobKey}
    {status : JobStatus} (h : e.settles q worker key = some status) :
    ∃ now error, (Queue.step e q).db.slot key =
      (q.db.slot key).assign (FactJob.settledAt now status error) none := by
  cases e with
  | complete w now k =>
      simp only [JobEvent.settles] at h
      split at h
      · rename_i heq
        obtain ⟨rfl, rfl⟩ := heq
        cases h
        refine ⟨now, none, ?_⟩
        show ((settleJob now k .done none).apply q.db).slot k = _
        rw [slot_settle, if_pos rfl]
      · cases h
  | failSettle w now k error =>
      simp only [JobEvent.settles] at h
      split at h
      · rename_i heq
        obtain ⟨rfl, rfl⟩ := heq
        refine ⟨now, some (errorText error), ?_⟩
        simp only [Queue.step, h]
        rw [slot_settle, if_pos rfl]
      · cases h
  | enqueue | claim | reclaim | start | failRead | release => cases h

theorem JobSlot.status_settled (s : JobSlot) (now : Int) (status : JobStatus)
    (error : Option String) :
    (s.assign (FactJob.settledAt now status error) none).status = s.job.map fun _ => status := by
  show ((s.job.map _).map _) = _
  rw [Option.map_map]
  rfl

/-- Taking a job back or handing it out leaves a finished job alone. -/
theorem JobSlot.Taken.done {maxAttempts : Nat} {s s' : JobSlot} {handedOut : Bool}
    (h : s.Taken maxAttempts s' handedOut) (hdone : s.status = some .done) :
    s'.status = some .done := by
  cases h with
  | kept => exact hdone
  | requeued j owner running =>
      have hstatus : j.status = .done := Option.some.inj hdone
      rw [running] at hstatus
      cases hstatus
  | givenUp j owner now reason running =>
      have hstatus : j.status = .done := Option.some.inj hdone
      rw [running] at hstatus
      cases hstatus
  | handedOut j owner now newOwner runnable =>
      have hstatus : j.status = .done := Option.some.inj hdone
      rcases runnable with hpending | ⟨hrunning, -⟩
      · rw [hpending] at hstatus
        cases hstatus
      · rw [hrunning] at hstatus
        cases hstatus

theorem JobSlot.status_release {s : JobSlot} {owner : String} {refund : Nat}
    (hdone : s.status = some .done) : (s.release owner refund).status = some .done := by
  unfold JobSlot.release
  split
  · rename_i hheld
    obtain ⟨⟨j, hj, hrunning⟩, -⟩ := JobSlot.heldBy_iff.mp hheld
    rw [JobSlot.status, hj, Option.map_some, hrunning] at hdone
    cases hdone
  · exact hdone

/-- Only a settlement moves a finished job. -/
theorem done_step (e : JobEvent) (q : Queue) (key : JobKey)
    (hdone : (q.db.slot key).status = some .done)
    (hsettles : ∀ worker status, e.settles q worker key = some status → status = .done) :
    ((Queue.step e q).db.slot key).status = some .done := by
  cases e with
  | enqueue now agentId items extractor =>
      rcases slot_enqueue now agentId items extractor q.db key with hsame | ⟨hnone, -⟩
      · show ((factJobEnqueue now agentId items extractor).apply q.db |>.slot key).status = _
        rw [hsame, hdone]
      · rw [JobSlot.status, Db.slot, hnone] at hdone
        cases hdone
  | claim worker dead now abandonedAt req =>
      show ((factJobClaim dead now abandonedAt req).apply q.db |>.slot key).status = _
      rw [apply_factJobClaim]
      exact (taken_claim dead now abandonedAt req q.db key).done hdone
  | reclaim dead now extractor n =>
      show ((factJobReclaim dead now extractor n).apply q.db |>.slot key).status = _
      rw [apply_factJobReclaim, slot_reclaim]
      exact (JobSlot.taken_reclaim _ dead now extractor n).done hdone
  | start now k =>
      simp only [Queue.step, slot_start]
      split
      · have hstarted : FactJob.status ∘ FactJob.startedAt now = FactJob.status := by
          ext j
          unfold FactJob.startedAt
          rw [Function.comp_apply]
          split <;> rfl
        show ((q.db.slot key).job.map _).map _ = _
        rw [Option.map_map, hstarted]
        exact hdone
      · exact hdone
  | complete worker now k =>
      simp only [Queue.step, factJobComplete, slot_settle]
      split
      · rw [JobSlot.status_settled]
        obtain ⟨j, hj, -⟩ := Option.map_eq_some_iff.mp hdone
        rw [hj]
        rfl
      · exact hdone
  | failRead worker k n => exact hdone
  | failSettle worker now k error =>
      cases hdecided : q.decided worker k with
      | none => simpa only [Queue.step, hdecided] using hdone
      | some status =>
          simp only [Queue.step, hdecided, slot_settle]
          split
          · rename_i hk
            subst hk
            have hstatus := hsettles worker status (by simp [JobEvent.settles, hdecided])
            rw [JobSlot.status_settled, hstatus]
            obtain ⟨j, hj, -⟩ := Option.map_eq_some_iff.mp hdone
            rw [hj]
            rfl
          · exact hdone
  | release fragmentIds extractor started owner =>
      simp only [Queue.step, apply_factJobRelease, slot_release]
      split
      · exact JobSlot.status_release hdone
      · exact hdone

/-! ### Runs -/

theorem ClaimsHold.of_settlesOwn {events : List JobEvent}
    (h : Along Queue.step JobEvent.SettlesOwn events .empty) : ClaimsHold events := by
  constructor
  · rintro past later rest rfl key hdone
    have hlater : Along Queue.step JobEvent.SettlesOwn later (run Queue.step past .empty) :=
      (along_append.mp (along_append.mp h).1).2
    rw [run_append]
    refine hlater.invariant (I := fun q => (q.db.slot key).status = some .done) ?_ hdone
    intro e q hq he
    exact done_step e q key hq fun worker status hsettles => (he worker key status hsettles).1 hq
  · rintro past e rest rfl worker key hsettles htaken
    obtain ⟨status, hstatus⟩ := Option.ne_none_iff_exists'.mp hsettles
    have he := (along_append.mp h).2.1 worker key status hstatus
    obtain ⟨hsame, howner⟩ := he.2 htaken
    obtain ⟨now, error, hslot⟩ := slot_settles hstatus
    rw [run_append, run_cons, run_nil, hslot, JobSlot.status_settled]
    refine ⟨?_, howner.symm⟩
    exact Option.map_congr fun j hj => (hsame j hj).symm

theorem ClaimsHold.settlesOwn {events : List JobEvent} (h : ClaimsHold events) :
    Along Queue.step JobEvent.SettlesOwn events .empty := by
  rw [along_iff_forall]
  rintro past e rest rfl worker key status hstatus
  obtain ⟨now, error, hslot⟩ := slot_settles hstatus
  have hafter : ((run Queue.step (past ++ [e]) .empty).db.slot key).status =
      ((run Queue.step past .empty).db.slot key).job.map fun _ => status := by
    rw [run_append, run_cons, run_nil, hslot, JobSlot.status_settled]
  constructor
  · intro hdone
    have hstays := h.done past [e] rest (by rw [List.append_assoc]; rfl) key hdone
    rw [hafter] at hstays
    obtain ⟨j, -, hj⟩ := Option.map_eq_some_iff.mp hstays
    exact hj
  · intro htaken
    obtain ⟨hsame, howner⟩ := h.takenOver past e rest rfl worker key (by simp [hstatus]) htaken
    constructor
    · intro j hj
      rw [hafter, JobSlot.status, hj] at hsame
      exact (Option.some.inj hsame).symm
    · rw [← howner, run_append, run_cons, run_nil, hslot]
      rfl

theorem claims_hold_iff (events : List JobEvent) :
    ClaimsHold events ↔ Along Queue.step JobEvent.SettlesOwn events .empty :=
  ⟨ClaimsHold.settlesOwn, ClaimsHold.of_settlesOwn⟩

/-- Two workers of two processes, with a lease of ten and the default cap. -/
def leaseOfTen (owner : String) : ClaimRequest := ⟨"llm", none, 4, 10, 3, none, owner⟩

/-- The first worker is slow, its lease expires, the second one takes the job
over and finishes it, and then the first one fails. -/
def lateFailure : List JobEvent :=
  [.enqueue 0 "agent" [("memory", 0)] "llm",
   .claim "first" (fun _ => false) 1 1 (leaseOfTen "host:1"),
   .claim "second" (fun _ => false) 20 20 (leaseOfTen "host:2"),
   .complete "second" 21 ⟨"memory", "llm"⟩,
   .failRead "first" ⟨"memory", "llm"⟩ 3,
   .failSettle "first" 22 ⟨"memory", "llm"⟩ "timed out"]

theorem late_failure_reopens : ¬ ∀ events, ClaimsHold events := by
  intro h
  have hstays := (h lateFailure).done (lateFailure.take 4) (lateFailure.drop 4) [] rfl
    ⟨"memory", "llm"⟩ (by decide)
  exact absurd hstays (by decide)

end MarkSdk
