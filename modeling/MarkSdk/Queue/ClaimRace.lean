import MarkSdk.Lib.Deferred
import MarkSdk.Queue.Events

/-!
Two processes that claim at the same time.

A claim reads the running jobs that have an owner, and then the runnable
jobs, before it changes anything, unless it finds a job to take back. Both
reads then run outside the transaction, which the first `UPDATE` opens. When
no such read is stale by then, the claims are serial, and the later one hands
a job of the earlier one out again only when its own `lease_seconds` have
passed since or the other process is dead. If it finds neither while the
earlier claim's lease is live, the claims are exclusive (`claims_exclusive`).
-/

namespace MarkSdk

open Lib

/-- One call of `fact_job_claim`: what it is asked, and what its process sees
of the clock and of other processes. -/
structure ClaimCall where
  dead : String → Bool
  now : Int
  abandonedAt : Int
  req : ClaimRequest

def ClaimCall.program (c : ClaimCall) : Writing (List ClaimedJob) :=
  factJobClaim c.dead c.now c.abandonedAt c.req

/-- The lease of a claim is live at `now`. -/
def ClaimCall.LiveAt (c : ClaimCall) (now : Int) : Prop := now ≤ c.now + c.req.lease

/-- To the second claim the first one is over: the second one's `lease_seconds`
have passed since, or it takes the first one's process for dead. -/
def ClaimCall.OverFor (first second : ClaimCall) : Prop :=
  first.now < second.now - second.req.lease ∨ second.dead first.req.owner = true

/-- The second claim does not take the first one for over while its lease is
live. -/
def ClaimCall.Honours (second first : ClaimCall) : Prop :=
  first.LiveAt second.now → ¬ first.OverFor second

/-- A claim whose `lease_seconds` are not the shorter ones honours every one
whose process is not dead to it. -/
theorem ClaimCall.honours_of_lease_le {first second : ClaimCall}
    (hlease : first.req.lease ≤ second.req.lease)
    (halive : second.dead first.req.owner = false) : second.Honours first := by
  intro hlive hover
  rcases hover with hexpired | hdead
  · unfold ClaimCall.LiveAt at hlive
    omega
  · rw [halive] at hdead
    cases hdead

def ClaimCall.Returns (c : ClaimCall) (jobs : Option (List ClaimedJob)) (key : JobKey) : Prop :=
  ∃ job ∈ jobs.getD [], (⟨job.fragmentId, c.req.extractor⟩ : JobKey) = key

theorem ClaimCall.returns_iff (c : ClaimCall) (db : Db) (key : JobKey) :
    c.Returns (c.program.outcome db).toOption key ↔
      handsOut c.dead c.now c.abandonedAt c.req db key = true := by
  have hjobs : ((c.program.outcome db).toOption).getD [] =
      claimedJobs c.dead c.now c.abandonedAt c.req db := by
    unfold claimedJobs ClaimCall.program
    cases (factJobClaim c.dead c.now c.abandonedAt c.req).outcome db <;> rfl
  unfold ClaimCall.Returns handsOut
  rw [hjobs, List.any_eq_true]
  simp only [decide_eq_true_eq]

/-- A job that was handed out runs under the claim. -/
theorem slot_of_handsOut {dead : String → Bool} {now abandonedAt : Int} {req : ClaimRequest}
    {db : Db} {k : JobKey} (h : handsOut dead now abandonedAt req db k = true) :
    ∃ j : FactJob,
      (db.claim dead now abandonedAt req).slot k = ⟨some (j.claimedAt now), some req.owner⟩ := by
  rcases slot_claim_cases dead now abandonedAt req db k with ⟨-, hhands⟩ | hread
  · rw [hhands] at h
    cases h
  · obtain ⟨row, hrow, -, -, hslot, hhands⟩ := hread
    rw [hhands, Bool.not_eq_true'] at h
    refine ⟨row, ?_⟩
    rw [hslot, JobSlot.claim, if_neg (Bool.eq_false_iff.mp h), JobSlot.assign, hrow]
    rfl

/-- A claim hands a running job out only when its owner is dead or its lease
has expired. -/
theorem over_of_handsOut {dead : String → Bool} {now abandonedAt : Int} {req : ClaimRequest}
    {db : Db} {k : JobKey} {j : FactJob} {owner : String}
    (hslot : db.slot k = ⟨some j, some owner⟩) (hrunning : j.status = .running)
    (h : handsOut dead now abandonedAt req db k = true) :
    j.updatedAt < now - req.lease ∨ dead owner = true := by
  rcases slot_claim_cases dead now abandonedAt req db k with ⟨-, hhands⟩ | hread
  · rw [hhands] at h
    cases h
  · obtain ⟨row, hrow, -, hrunnable, -, -⟩ := hread
    by_cases horphaned : (db.slot k).orphaned dead (some req.extractor) = true
    · refine .inr ?_
      rw [hslot] at horphaned
      simp only [JobSlot.orphaned, Bool.and_eq_true, Option.any_some] at horphaned
      exact horphaned.2
    · refine .inl ?_
      rw [JobSlot.reclaim, if_neg horphaned, hslot] at hrow
      cases hrow
      simp only [FactJob.runnable, hrunning, Bool.and_eq_true, Bool.or_eq_true,
        decide_eq_true_eq] at hrunnable
      rcases hrunnable.1.2 with ⟨hpending, -⟩ | ⟨-, hexpired⟩
      · cases hpending
      · exact hexpired

/-- Two claims one after the other. -/
theorem over_of_handsOut_again (first second : ClaimCall) (db : Db) (key : JobKey)
    (hfirst : handsOut first.dead first.now first.abandonedAt first.req db key = true)
    (hsecond : handsOut second.dead second.now second.abandonedAt second.req
      (first.program.apply db) key = true) : first.OverFor second := by
  have hprogram : first.program.apply db =
      db.claim first.dead first.now first.abandonedAt first.req := apply_factJobClaim _ _ _ _ _
  obtain ⟨j, hslot⟩ := slot_of_handsOut hfirst
  rw [hprogram] at hsecond
  exact over_of_handsOut hslot rfl hsecond

/-- Two processes that share one queue, with a lease of ten; the second call
comes after `now`. -/
def twoClaims (now : Int) : Side → ClaimCall
  | .left => ⟨fun _ => false, 1, 1, ⟨"llm", none, 4, 10, 3, none, "host:1"⟩⟩
  | .right => ⟨fun _ => false, now, now, ⟨"llm", none, 4, 10, 3, none, "host:2"⟩⟩

/-- The queue with one pending job. -/
def oneJob : Db := (factJobEnqueue 0 "agent" [("memory", 0)] "llm").apply .empty

/-- A job is returned by both calls only when, for the call that ran the last
statement, the lease of the other one has expired. -/
def ClaimsExclusive (calls : Side → ClaimCall) (sched : List Side)
    (w : World Side Db StoreError (List ClaimedJob)) : Prop :=
  ∀ last, sched.getLast? = some last → ∀ key,
    (calls last.other).Returns (w.returned last.other) key →
      (calls last).Returns (w.returned last) key →
        ¬ (calls last.other).LiveAt (calls last).now

theorem claims_exclusive (calls : Side → ClaimCall) (db : Db) (sched : List Side)
    (w : World Side Db StoreError (List ClaimedJob))
    (hfresh : World.FreshRun (fun i => (calls i).program) sched
      (World.start (fun i => (calls i).program) db))
    (hhonours : ∀ last, sched.getLast? = some last → (calls last).Honours (calls last.other))
    (hrun : World.run sched (World.start (fun i => (calls i).program) db) = some w)
    (hfin : w.Finished) : ClaimsExclusive calls sched w := by
  obtain ⟨last, hlast, -, hfirst, hsecond⟩ := World.serializable_pair hfresh hrun hfin
  intro i hi key hreturns hagain
  obtain rfl := hlast i hi
  rw [hfirst, ClaimCall.returns_iff] at hreturns
  rw [hsecond, ClaimCall.returns_iff] at hagain
  have hover : (calls i.other).OverFor (calls i) :=
    over_of_handsOut_again (calls i.other) (calls i) db key hreturns hagain
  exact fun hlive => hhonours i hi hlive hover

/-- The second call comes after the lease of the first one. -/
theorem claims_exclusive_expired :
    ∃ w, World.run (List.replicate 5 Side.left ++ List.replicate 5 .right)
        (World.start (fun i => (twoClaims 20 i).program) oneJob) = some w ∧
      ClaimsExclusive (twoClaims 20) (List.replicate 5 Side.left ++ List.replicate 5 .right) w := by
  have hdone : (World.run (List.replicate 5 Side.left ++ List.replicate 5 .right)
      (World.start (fun i => (twoClaims 20 i).program) oneJob)).map (fun w => decide w.Finished) = some true := by
    decide
  obtain ⟨w, hw, hfin⟩ := Option.map_eq_some_iff.mp hdone
  refine ⟨w, hw, claims_exclusive (twoClaims 20) oneJob _ w
    (World.freshRun_serial (by decide) hw) ?_ hw (of_decide_eq_true hfin)⟩
  intro last hlast
  cases hlast
  exact ClaimCall.honours_of_lease_le (Int.le_refl _) rfl

/-- Both calls read the pending job before either one takes the write lock. -/
theorem double_claim :
    ¬ ∀ (calls : Side → ClaimCall) (db : Db) (sched : List Side)
        (w : World Side Db StoreError (List ClaimedJob)),
      World.run sched (World.start (fun i => (calls i).program) db) = some w → w.Finished →
        ClaimsExclusive calls sched w := by
  intro h
  let sched : List Side :=
    [.left, .left, .right, .right, .left, .left, .left, .right, .right, .right]
  let final := World.run sched (World.start (fun i => (twoClaims 2 i).program) oneJob)
  have hreturned :
      final.map (fun w => (decide w.Finished, w.returned .left, w.returned .right)) =
        some (true, some [⟨"memory", "agent", 0, 1⟩], some [⟨"memory", "agent", 0, 1⟩]) := by
    decide
  obtain ⟨w, hw, hboth⟩ := Option.map_eq_some_iff.mp hreturned
  obtain ⟨hfin, hresults⟩ := Prod.mk.inj hboth
  obtain ⟨hleft, hright⟩ := Prod.mk.inj hresults
  have hexpired := h (twoClaims 2) oneJob sched w hw (of_decide_eq_true hfin) .right rfl
    ⟨"memory", "llm"⟩
    ⟨_, by rw [show Side.other .right = .left from rfl, hleft]; exact List.mem_cons_self, rfl⟩
    ⟨_, by rw [hright]; exact List.mem_cons_self, rfl⟩
  revert hexpired
  unfold ClaimCall.LiveAt
  decide

end MarkSdk
