import MarkSdk.Queue.Events

/-!
The cap on the attempts of a job.

The cap is looked at when a claim meets an expired lease, when a dead worker
is found and when a failure is recorded. A pending job is handed out without
a look at it, so what carries the cap is that every pending job has an
attempt left (`Queue.Counted`). Two calls can break that: a release of
started jobs puts a job back whatever its count, and a failure decides on
`pending` before it settles. While neither does (`ReturnsWithAttempts`), no
job has more than `max_attempts` attempts, the attempts given back aside it
is handed out no more often than that, and a job that has used them up and
lost its worker is failed by the next call that meets it (`attempts_capped`).
-/

namespace MarkSdk

open Lib

/-- The calls that ask for the cap all ask for this one. -/
def JobEvent.Allows (maxAttempts : Nat) : JobEvent → Prop
  | .claim _ _ _ _ req => req.maxAttempts = maxAttempts
  | .reclaim _ _ _ n => n = maxAttempts
  | .failRead _ _ n => n = maxAttempts
  | _ => True

/-- Every attempt of the job is used. -/
def Db.UsedUp (db : Db) (maxAttempts : Nat) (key : JobKey) : Prop :=
  ∃ j, db.job key = some j ∧ maxAttempts ≤ j.attempts

/-- A job that is put back into the queue has an attempt left: a release of
started jobs finds none that is used up, nor does a failure that is settled
as `pending`. -/
def JobEvent.ReturnsWithAttempts (maxAttempts : Nat) : JobEvent → Queue → Prop
  | .release fragmentIds extractor true owner, q =>
      ∀ id ∈ fragmentIds, (q.db.slot ⟨id, extractor⟩).heldBy owner = true →
        ¬ q.db.UsedUp maxAttempts ⟨id, extractor⟩
  | .failSettle worker _ key _, q =>
      q.decided worker key = some .pending → ¬ q.db.UsedUp maxAttempts key
  | _, _ => True

/-- The count of a job is within the cap, a pending job has an attempt left,
and every hand-out is counted or given back. -/
structure FactJob.Counted (maxAttempts handouts refunds : Nat) (j : FactJob) : Prop where
  attempts : j.attempts ≤ maxAttempts
  pending : j.status = .pending → j.attempts < maxAttempts
  handouts : handouts ≤ j.attempts + refunds

def JobSlot.Counted (maxAttempts handouts refunds : Nat) (s : JobSlot) : Prop :=
  match s.job with
  | some j => j.Counted maxAttempts handouts refunds
  | none => handouts = 0

def Queue.Counted (maxAttempts : Nat) (q : Queue) : Prop :=
  ∀ key, (q.db.slot key).Counted maxAttempts (q.claims key).length (q.refunds key)

/-! ### Every event keeps the counts -/

section Step

variable {maxAttempts handouts refunds : Nat}

theorem JobSlot.Counted.taken {s s' : JobSlot} {handedOut : Bool}
    (h : s.Counted maxAttempts handouts refunds) (htaken : s.Taken maxAttempts s' handedOut) :
    s'.Counted maxAttempts (if handedOut then handouts + 1 else handouts) refunds := by
  cases htaken with
  | kept => exact h
  | requeued j owner running left =>
      exact ⟨h.attempts, fun _ => left, h.handouts⟩
  | givenUp j owner now reason running used =>
      exact ⟨h.attempts, nofun, h.handouts⟩
  | handedOut j owner now newOwner runnable =>
      have hleft : j.attempts < maxAttempts := by
        rcases runnable with hpending | ⟨-, hleft⟩
        · exact h.pending hpending
        · exact hleft
      have hhandouts : handouts ≤ j.attempts + refunds := h.handouts
      refine ⟨hleft, nofun, ?_⟩
      show handouts + 1 ≤ j.attempts + 1 + refunds
      omega

theorem JobSlot.Counted.settle {s : JobSlot} {status : JobStatus} {now : Int}
    {error : Option String} (h : s.Counted maxAttempts handouts refunds)
    (hstatus : status = .pending → ∀ j, s.job = some j → j.attempts < maxAttempts) :
    (s.assign (FactJob.settledAt now status error) none).Counted maxAttempts handouts refunds := by
  obtain ⟨job, owner⟩ := s
  cases job with
  | none => exact h
  | some j => exact ⟨h.attempts, fun hpending => hstatus hpending j rfl, h.handouts⟩

theorem JobSlot.Counted.start {s : JobSlot} {now : Int} (h : s.Counted maxAttempts handouts refunds) :
    (⟨s.job.map (FactJob.startedAt now), s.owner⟩ : JobSlot).Counted maxAttempts handouts refunds := by
  obtain ⟨job, owner⟩ := s
  cases job with
  | none => exact h
  | some j =>
      show (j.startedAt now).Counted maxAttempts handouts refunds
      unfold FactJob.startedAt
      split
      · exact ⟨h.attempts, h.pending, h.handouts⟩
      · exact h

/-- A job that gives its attempt back has it again. -/
theorem JobSlot.Counted.release_unstarted {s : JobSlot} (owner : String) (hmax : 1 ≤ maxAttempts)
    (h : s.Counted maxAttempts handouts refunds) :
    (s.release owner 1).Counted maxAttempts handouts
      (if s.heldBy owner = true then refunds + 1 else refunds) := by
  unfold JobSlot.release
  split
  · rename_i hheld
    obtain ⟨⟨j, hj, -⟩, -⟩ := JobSlot.heldBy_iff.mp hheld
    obtain ⟨job, owner'⟩ := s
    obtain rfl : job = some j := hj
    have hattempts := h.attempts
    have hhandouts := h.handouts
    refine ⟨?_, fun _ => ?_, ?_⟩
    · show j.attempts - 1 ≤ maxAttempts
      omega
    · show j.attempts - 1 < maxAttempts
      omega
    · show handouts ≤ j.attempts - 1 + (refunds + 1)
      omega
  · exact h

/-- A started job that is put back keeps its count. -/
theorem JobSlot.Counted.release_started {s : JobSlot} {owner : String}
    (h : s.Counted maxAttempts handouts refunds)
    (hleft : s.heldBy owner = true → ∀ j, s.job = some j → j.attempts < maxAttempts) :
    (s.release owner 0).Counted maxAttempts handouts refunds := by
  unfold JobSlot.release
  split
  · rename_i hheld
    obtain ⟨⟨j, hj, -⟩, -⟩ := JobSlot.heldBy_iff.mp hheld
    obtain ⟨job, owner'⟩ := s
    obtain rfl : job = some j := hj
    exact ⟨h.attempts, fun _ => hleft hheld j rfl, h.handouts⟩
  · exact h

end Step

theorem not_usedUp {db : Db} {maxAttempts : Nat} {key : JobKey} (h : ¬ db.UsedUp maxAttempts key) :
    ∀ j, (db.slot key).job = some j → j.attempts < maxAttempts := by
  intro j hj
  by_contra hle
  exact h ⟨j, hj, Nat.le_of_not_lt hle⟩

theorem counted_step {maxAttempts : Nat} (hmax : 1 ≤ maxAttempts) (e : JobEvent) (q : Queue)
    (hq : q.Counted maxAttempts) (hallow : e.Allows maxAttempts)
    (hreturn : e.ReturnsWithAttempts maxAttempts q) : (Queue.step e q).Counted maxAttempts := by
  intro key
  have hkey := hq key
  cases e with
  | enqueue now agentId items extractor =>
      rcases slot_enqueue now agentId items extractor q.db key with hsame | ⟨hnone, item, hnew⟩
      · show ((factJobEnqueue now agentId items extractor).apply q.db |>.slot key).Counted _ _ _
        rw [hsame]
        exact hkey
      · show ((factJobEnqueue now agentId items extractor).apply q.db |>.slot key).Counted _ _ _
        have hzero : (q.claims key).length = 0 := by
          unfold JobSlot.Counted at hkey
          have hjob : (q.db.slot key).job = none := hnone
          rwa [hjob] at hkey
        rw [hnew]
        refine ⟨Nat.zero_le _, fun _ => hmax, ?_⟩
        show (q.claims key).length ≤ _
        omega
  | claim worker dead now abandonedAt req =>
      obtain rfl : req.maxAttempts = maxAttempts := hallow
      have htaken := hkey.taken (taken_claim dead now abandonedAt req q.db key)
      simp only [Queue.step, apply_factJobClaim]
      split
      · rename_i hhands
        rwa [hhands] at htaken
      · rename_i hhands
        rw [Bool.not_eq_true] at hhands
        rwa [hhands] at htaken
  | reclaim dead now extractor n =>
      obtain rfl : n = maxAttempts := hallow
      simp only [Queue.step, apply_factJobReclaim, slot_reclaim]
      exact hkey.taken (JobSlot.taken_reclaim _ dead now extractor n)
  | start now k =>
      simp only [Queue.step, slot_start]
      split
      · exact hkey.start
      · exact hkey
  | complete worker now k =>
      simp only [Queue.step, factJobComplete, slot_settle]
      split
      · exact hkey.settle fun hdone => absurd hdone (by decide)
      · exact hkey
  | failRead worker k n => exact hkey
  | failSettle worker now k error =>
      simp only [Queue.step]
      split
      · exact hkey
      · rename_i status hdecided
        simp only [slot_settle]
        split
        · rename_i hk
          subst hk
          refine hkey.settle fun hpending => ?_
          exact not_usedUp (hreturn (hdecided.trans (congrArg some hpending)))
        · exact hkey
  | release fragmentIds extractor started owner =>
      simp only [Queue.step, apply_factJobRelease, slot_release]
      by_cases hmem : key.extractor = extractor ∧ key.fragmentId ∈ fragmentIds
      · rw [if_pos hmem]
        cases started with
        | true =>
            have hk : (⟨key.fragmentId, extractor⟩ : JobKey) = key := by rw [← hmem.1]
            have hleft := hreturn key.fragmentId hmem.2
            rw [hk] at hleft
            simpa using hkey.release_started fun hheld => not_usedUp (hleft hheld)
        | false => simpa [hmem] using hkey.release_unstarted owner hmax
      · rw [if_neg hmem]
        have hnot : ¬ (started = false ∧ key.extractor = extractor ∧ key.fragmentId ∈ fragmentIds ∧
            (q.db.slot key).heldBy owner = true) := fun h => hmem ⟨h.2.1, h.2.2.1⟩
        rw [if_neg hnot]
        exact hkey

theorem counted_empty (maxAttempts : Nat) : Queue.empty.Counted maxAttempts := fun _ => rfl

/-! ### A job that has used its attempts -/

section UsedUp

variable {dead : String → Bool} {now abandonedAt : Int} {req : ClaimRequest} {db : Db} {k : JobKey}
  {handouts refunds : Nat}

theorem usedUp_not_handedOut (h : (db.slot k).Counted req.maxAttempts handouts refunds)
    (hused : db.UsedUp req.maxAttempts k) : handsOut dead now abandonedAt req db k = false := by
  obtain ⟨j, hj, hattempts⟩ := hused
  have hslot : db.slot k = ⟨some j, db.ownerOf k⟩ := by rw [Db.slot, hj]
  have htaken := taken_claim dead now abandonedAt req db k
  rw [hslot] at h htaken
  generalize handsOut dead now abandonedAt req db k = handedOut at htaken ⊢
  generalize (db.claim dead now abandonedAt req).slot k = after at htaken
  cases htaken with
  | kept | requeued | givenUp => rfl
  | handedOut j owner now newOwner runnable =>
      rcases runnable with hpending | ⟨-, hleft⟩
      · have := h.pending hpending
        omega
      · omega

/-- A claim gives the job up when it finds its worker dead, or meets its row
with the lease expired. -/
theorem usedUp_failed (h : (db.slot k).Counted req.maxAttempts handouts refunds)
    (hused : db.UsedUp req.maxAttempts k)
    (hmet : (db.slot k).orphaned dead (some req.extractor) = true ∨
      k ∈ (claimReads dead now abandonedAt req db).map FactJob.key) :
    ∃ j, (db.claim dead now abandonedAt req).job k = some j ∧ j.status = .failed := by
  obtain ⟨j, hj, hattempts⟩ := hused
  have hslot : db.slot k = ⟨some j, db.ownerOf k⟩ := by rw [Db.slot, hj]
  by_cases horphaned : (db.slot k).orphaned dead (some req.extractor) = true
  · have hreclaim : (db.slot k).reclaim dead abandonedAt (some req.extractor) req.maxAttempts =
        ⟨some (j.abandoned abandonedAt "abandoned: worker process died mid-job"), none⟩ := by
      rw [JobSlot.reclaim, if_pos horphaned, hslot]
      simp [JobSlot.assign, FactJob.reclaim, hattempts]
    rcases slot_claim_cases dead now abandonedAt req db k with
      ⟨hclaim, -⟩ | ⟨row, hrow, -, hrunnable, -⟩
    · rw [hreclaim] at hclaim
      exact ⟨_, congrArg JobSlot.job hclaim, rfl⟩
    · -- a job that was given up is not runnable
      rw [hreclaim] at hrow
      cases hrow
      rcases FactJob.runnable_status hrunnable with hstatus | hstatus <;> cases hstatus
  · obtain ⟨row, hrow, rfl⟩ := List.mem_map.mp (hmet.resolve_left horphaned)
    have hkept : (db.slot row.key).reclaim dead abandonedAt (some req.extractor) req.maxAttempts =
        db.slot row.key := if_neg horphaned
    have hclaim := slot_claim_of_mem hrow
    obtain ⟨hmem, hrunnable⟩ := mem_runnableJobs hrow
    have hjob : row = j := by
      have hreclaimed := slot_reclaim db dead abandonedAt (some req.extractor) req.maxAttempts row.key
      rw [hkept, hslot] at hreclaimed
      exact Option.some.inj ((job_of_mem hmem).symm.trans (congrArg JobSlot.job hreclaimed))
    subst hjob
    have hrunning : row.status = .running := by
      refine (FactJob.runnable_status hrunnable).resolve_left fun hpending => ?_
      rw [hslot] at h
      have := h.pending hpending
      omega
    have hexhausted : row.exhausted req.maxAttempts = true := by
      simp [FactJob.exhausted, hrunning, hattempts]
    rw [hkept, hslot, JobSlot.claim, if_pos hexhausted] at hclaim
    exact ⟨_, congrArg JobSlot.job hclaim, rfl⟩

end UsedUp

/-- Along every run whose calls share one cap, and in which no job that is used
up is put back, no job has more attempts than the cap, none is handed out more
often than that and the attempts it was given back, and one that is used up
is never handed out again, but failed by the claim that meets it. -/
theorem attempts_capped (maxAttempts : Nat) (hmax : 1 ≤ maxAttempts) (events : List JobEvent)
    (hallow : ∀ e ∈ events, e.Allows maxAttempts)
    (hreturn : Along Queue.step (JobEvent.ReturnsWithAttempts maxAttempts) events .empty)
    (past : List JobEvent) (hpast : past <+: events) (key : JobKey) :
    let q := run Queue.step past .empty
    (∀ j, q.db.job key = some j → j.attempts ≤ maxAttempts) ∧
    (q.claims key).length ≤ maxAttempts + q.refunds key ∧
    ∀ (dead : String → Bool) (now abandonedAt : Int) (req : ClaimRequest),
      req.maxAttempts = maxAttempts → q.db.UsedUp maxAttempts key →
        handsOut dead now abandonedAt req q.db key = false ∧
        ((q.db.slot key).orphaned dead (some req.extractor) = true ∨
            key ∈ (claimReads dead now abandonedAt req q.db).map FactJob.key →
          ∃ j, (q.db.claim dead now abandonedAt req).job key = some j ∧ j.status = .failed) := by
  intro q
  have hcounted : q.Counted maxAttempts := by
    have hall : Along Queue.step (fun e _ => e.Allows maxAttempts) events .empty :=
      along_of_forall (fun e he _ => hallow e he) Queue.empty
    exact (hall.and hreturn).invariant_within (fun e q hq h => counted_step hmax e q hq h.1 h.2)
      (counted_empty maxAttempts) hpast
  have hkey := hcounted key
  refine ⟨?_, ?_, ?_⟩
  · intro j hj
    rw [Db.slot, hj] at hkey
    exact hkey.attempts
  · unfold JobSlot.Counted at hkey
    split at hkey
    · have := hkey.attempts
      have := hkey.handouts
      omega
    · omega
  · rintro dead now abandonedAt req rfl hused
    exact ⟨usedUp_not_handedOut hkey hused, usedUp_failed hkey hused⟩

/-- The requests of one process with a cap of one attempt. -/
def oneAttempt (owner : String) : ClaimRequest := ⟨"llm", none, 4, 300, 1, none, owner⟩

/-- A worker is handed the job and hangs, it gives the started job back, and
the next claim hands it out a second time. -/
def hangingJob : List JobEvent :=
  [.enqueue 0 "agent" [("memory", 0)] "llm",
   .claim "first" (fun _ => false) 1 1 (oneAttempt "host:1"),
   .start 2 ⟨"memory", "llm"⟩,
   .release ["memory"] "llm" true "host:1",
   .claim "second" (fun _ => false) 3 3 (oneAttempt "host:2")]

theorem attempts_exceed_cap :
    ¬ ∀ (maxAttempts : Nat) (events : List JobEvent), 1 ≤ maxAttempts →
      (∀ e ∈ events, e.Allows maxAttempts) → ∀ key j,
        (run Queue.step events .empty).db.job key = some j → j.attempts ≤ maxAttempts := by
  intro h
  have hallow : ∀ e ∈ hangingJob, e.Allows 1 := by
    simp [hangingJob, JobEvent.Allows, oneAttempt]
  have hjob : (run Queue.step hangingJob .empty).db.job ⟨"memory", "llm"⟩ =
      some ⟨"memory", "llm", "agent", 0, .running, 2, none, 0, 3⟩ := by decide
  exact absurd (h 1 hangingJob le_rfl hallow _ _ hjob) (by decide)

/-- The job is given back before it starts, handed out again, and its worker
dies. -/
def crashingJob : List JobEvent :=
  [.enqueue 0 "agent" [("memory", 0)] "llm",
   .claim "first" (fun _ => false) 1 1 (oneAttempt "host:1"),
   .release ["memory"] "llm" false "host:1",
   .claim "second" (fun _ => false) 2 2 (oneAttempt "host:2")]

theorem attempts_capped_crash :
    ((run Queue.step crashingJob .empty).claims ⟨"memory", "llm"⟩).length ≤
        1 + (run Queue.step crashingJob .empty).refunds ⟨"memory", "llm"⟩ ∧
      ∃ j, ((run Queue.step crashingJob .empty).db.claim (fun _ => true) 3 3
        (oneAttempt "host:3")).job ⟨"memory", "llm"⟩ = some j ∧ j.status = .failed := by
  have hcapped := attempts_capped 1 le_rfl crashingJob
    (by simp [crashingJob, JobEvent.Allows, oneAttempt])
    (by simp [crashingJob, Along, JobEvent.ReturnsWithAttempts])
    crashingJob (List.prefix_refl _) ⟨"memory", "llm"⟩
  have hused : (run Queue.step crashingJob .empty).db.UsedUp 1 ⟨"memory", "llm"⟩ :=
    ⟨⟨"memory", "llm", "agent", 0, .running, 1, none, 0, 2⟩, by decide, by decide⟩
  exact ⟨hcapped.2.1, (hcapped.2.2 (fun _ => true) 3 3 (oneAttempt "host:3") rfl hused).2
    (.inl (by decide))⟩

end MarkSdk
