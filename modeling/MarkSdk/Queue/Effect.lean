import MarkSdk.Store.FactJobs

/-!
What the queue calls do to the jobs.

A job and its recorded owner are looked up by key (`Db.job`, `Db.ownerOf`).
Each statement of the queue touches one key, so the loops of a call touch
each of their keys once, and a call is described by what it does at every
key: `job_reclaim` and `ownerOf_reclaim`, `exec_factJobClaim`,
`exec_factJobRelease`, `job_settle` and `ownerOf_settle`.
-/

namespace MarkSdk

open Lib

/-- The row of a job. -/
def Db.job (db : Db) (key : JobKey) : Option FactJob := db.factJobs.find? key

variable {db db' : Db}

theorem job_eq_some_iff {key : JobKey} {j : FactJob} :
    db.job key = some j ↔ j ∈ db.factJobs.rows ∧ j.key = key :=
  Table.find?_eq_some_iff

theorem job_of_mem {j : FactJob} (h : j ∈ db.factJobs.rows) : db.job j.key = some j :=
  job_eq_some_iff.mpr ⟨h, rfl⟩

/-! ### Statements -/

theorem job_updateJob (db : Db) (key k : JobKey) (f : FactJob → FactJob) (hf) :
    (db.updateJob key f hf).job k = if k = key then (db.job k).map f else db.job k := by
  have hupdate : (db.updateJob key f hf).job k =
      (db.job k).map fun j => if j.key = key then f j else j := by
    unfold Db.job Db.updateJob
    rw [Table.find?_update]
    simp
  rw [hupdate]
  cases hj : db.job k with
  | none => simp
  | some j =>
      rw [Option.map_some, (job_eq_some_iff.mp hj).2]
      split <;> rfl

@[simp] theorem ownerOf_updateJob (db : Db) (key k : JobKey) (f : FactJob → FactJob) (hf) :
    (db.updateJob key f hf).ownerOf k = db.ownerOf k := rfl

@[simp] theorem job_deleteOwner (db : Db) (key k : JobKey) :
    (db.deleteOwner key).job k = db.job k := rfl

theorem ownerOf_deleteOwner (db : Db) (key k : JobKey) :
    (db.deleteOwner key).ownerOf k = if k = key then none else db.ownerOf k := by
  unfold Db.ownerOf Db.deleteOwner
  rw [Table.find?_delete_key]
  split <;> rfl

@[simp] theorem job_setOwner (db : Db) (key k : JobKey) (owner : String) :
    (db.setOwner key owner).job k = db.job k := rfl

theorem ownerOf_setOwner (db : Db) (key k : JobKey) (owner : String) :
    (db.setOwner key owner).ownerOf k = if k = key then some owner else db.ownerOf k := by
  unfold Db.ownerOf Db.setOwner
  rw [Table.find?_insertOrReplace]
  have hkey : JobOwner.key ⟨key.fragmentId, key.extractor, owner⟩ = key := rfl
  rw [hkey]
  split <;> rfl

/-- What the queue knows at a key: the job and its owner. -/
structure JobSlot where
  job : Option FactJob
  owner : Option String
  deriving DecidableEq

def Db.slot (db : Db) (key : JobKey) : JobSlot := ⟨db.job key, db.ownerOf key⟩

/-- A job changed, and its owner with it. -/
def JobSlot.assign (f : FactJob → FactJob) (owner : Option String) (s : JobSlot) : JobSlot :=
  ⟨s.job.map f, owner⟩

def Db.assignJob (db : Db) (key : JobKey) (f : FactJob → FactJob) (hf : ∀ j, (f j).key = j.key)
    (owner : Option String) : Db :=
  match owner with
  | some o => (db.updateJob key f hf).setOwner key o
  | none => (db.updateJob key f hf).deleteOwner key

theorem slot_assignJob (db : Db) (key k : JobKey) (f : FactJob → FactJob) (hf)
    (owner : Option String) :
    (db.assignJob key f hf owner).slot k =
      if k = key then (db.slot k).assign f owner else db.slot k := by
  unfold Db.slot Db.assignJob JobSlot.assign
  cases owner with
  | none =>
      simp only [job_deleteOwner, job_updateJob, ownerOf_deleteOwner, ownerOf_updateJob]
      split <;> rfl
  | some o =>
      simp only [job_setOwner, job_updateJob, ownerOf_setOwner, ownerOf_updateJob]
      split <;> rfl

/-! ### Reclaim -/

/-- What becomes of a running job that has lost its worker. -/
def FactJob.reclaim (now : Int) (maxAttempts : Nat) (j : FactJob) : FactJob :=
  if maxAttempts ≤ j.attempts then j.abandoned now "abandoned: worker process died mid-job"
  else j.requeued

/-- The job is running and its owner process is dead. -/
def JobSlot.orphaned (dead : String → Bool) (extractor : Option String) (s : JobSlot) : Bool :=
  (s.job.any fun j =>
      j.status = .running && extractor.all fun e => e = "" || j.extractor = e) &&
    s.owner.any dead

/-- `_reclaim_dead` at one key. -/
def JobSlot.reclaim (dead : String → Bool) (now : Int) (extractor : Option String)
    (maxAttempts : Nat) (s : JobSlot) : JobSlot :=
  if s.orphaned dead extractor then s.assign (FactJob.reclaim now maxAttempts) none else s

theorem mem_ownedRunning {extractor : Option String} {p : FactJob × String} :
    p ∈ ownedRunning extractor db ↔
      p.1 ∈ db.factJobs.rows ∧ p.1.status = .running ∧
        (extractor.all fun e => e = "" || p.1.extractor = e) = true ∧
          db.ownerOf p.1.key = some p.2 := by
  unfold ownedRunning
  simp only [List.mem_filterMap, List.mem_filter, Bool.and_eq_true, decide_eq_true_eq]
  constructor
  · rintro ⟨j, ⟨hj, hrunning, hextractor⟩, howner⟩
    obtain ⟨o, ho, rfl⟩ := Option.map_eq_some_iff.mp howner
    exact ⟨hj, hrunning, hextractor, ho⟩
  · rintro ⟨hj, hrunning, hextractor, howner⟩
    exact ⟨p.1, ⟨hj, hrunning, hextractor⟩, by rw [howner]; rfl⟩

theorem nodup_ownedRunning (extractor : Option String) (db : Db) :
    ((ownedRunning extractor db).map fun p => p.1.key).Nodup := by
  have hfst : ((ownedRunning extractor db).map fun p => p.1.key).Sublist
      (db.factJobs.rows.map FactJob.key) := by
    unfold ownedRunning
    induction db.factJobs.rows with
    | nil => exact List.Sublist.refl _
    | cons j rows ih =>
        rw [List.filter_cons]
        split
        · cases howner : db.ownerOf j.key with
          | none =>
              rw [List.filterMap_cons_none (by rw [howner]; rfl)]
              exact ih.cons _
          | some o =>
              rw [List.filterMap_cons_some (by rw [howner]; rfl)]
              exact ih.cons_cons _
        · exact ih.cons _
  exact db.factJobs.nodup.sublist hfst

/-- The statements for one row of `_reclaim_dead`. -/
def reclaimStep (dead : String → Bool) (now : Int) (maxAttempts : Nat) (p : FactJob × String)
    (db : Db) : Db :=
  if dead p.2 then
    if maxAttempts ≤ p.1.attempts then
      db.assignJob p.1.key (FactJob.abandoned now "abandoned: worker process died mid-job")
        (FactJob.abandoned_key now _) none
    else db.assignJob p.1.key FactJob.requeued FactJob.requeued_key none
  else db

/-- The same at the key of the row. -/
def JobSlot.reclaimRow (dead : String → Bool) (now : Int) (maxAttempts : Nat)
    (p : FactJob × String) (s : JobSlot) : JobSlot :=
  if dead p.2 then
    if maxAttempts ≤ p.1.attempts then
      s.assign (FactJob.abandoned now "abandoned: worker process died mid-job") none
    else s.assign FactJob.requeued none
  else s

theorem exec_reclaimRow (dead : String → Bool) (now : Int) (maxAttempts : Nat)
    (p : FactJob × String) (db : Db) :
    (reclaimRow dead now maxAttempts p).exec db =
      .ok (if dead p.2 then if maxAttempts ≤ p.1.attempts then 0 else 1 else 0,
        reclaimStep dead now maxAttempts p db) := by
  unfold reclaimRow reclaimStep
  split
  · split <;> rfl
  · rfl

/-- The database after `_reclaim_dead`. -/
def Db.reclaim (db : Db) (dead : String → Bool) (now : Int) (extractor : Option String)
    (maxAttempts : Nat) : Db :=
  (ownedRunning extractor db).foldl (fun db p => reclaimStep dead now maxAttempts p db) db

theorem exec_reclaimDead (dead : String → Bool) (now : Int) (extractor : Option String)
    (maxAttempts : Nat) (db : Db) :
    ∃ n, (reclaimDead dead now extractor maxAttempts).exec db =
      .ok (n, db.reclaim dead now extractor maxAttempts) := by
  unfold reclaimDead
  simp only [Txn.exec_bind, Txn.exec_query,
    Txn.exec_forMap_map _ _ _ (exec_reclaimRow dead now maxAttempts)]
  exact ⟨_, rfl⟩

theorem apply_factJobReclaim (dead : String → Bool) (now : Int) (extractor : Option String)
    (maxAttempts : Nat) (db : Db) :
    (factJobReclaim dead now extractor maxAttempts).apply db =
      db.reclaim dead now extractor maxAttempts := by
  obtain ⟨n, hexec⟩ := exec_reclaimDead dead now extractor maxAttempts db
  exact Txn.apply_of_ok hexec

theorem slot_reclaimStep (dead : String → Bool) (now : Int) (maxAttempts : Nat)
    (p : FactJob × String) (db : Db) (k : JobKey) :
    (reclaimStep dead now maxAttempts p db).slot k =
      if k = p.1.key then (db.slot k).reclaimRow dead now maxAttempts p else db.slot k := by
  unfold reclaimStep JobSlot.reclaimRow
  split
  · split <;> exact slot_assignJob db p.1.key k _ _ none
  · rw [ite_self]

/-- What `_reclaim_dead` does at a key. -/
theorem slot_reclaim (db : Db) (dead : String → Bool) (now : Int) (extractor : Option String)
    (maxAttempts : Nat) (k : JobKey) :
    (db.reclaim dead now extractor maxAttempts).slot k =
      (db.slot k).reclaim dead now extractor maxAttempts := by
  have hnodup := nodup_ownedRunning extractor db
  by_cases hmem : k ∈ (ownedRunning extractor db).map fun p => p.1.key
  · obtain ⟨p, hp, rfl⟩ := List.mem_map.mp hmem
    obtain ⟨hrow, hrunning, hextractor, howner⟩ := mem_ownedRunning.mp hp
    have hfold := Table.foldl_override_mem (slot_reclaimStep dead now maxAttempts) hnodup hp db
    refine hfold.trans ?_
    have horphaned : (db.slot p.1.key).orphaned dead extractor = dead p.2 := by
      simp [JobSlot.orphaned, Db.slot, job_of_mem hrow, howner, hrunning, hextractor]
    unfold JobSlot.reclaim JobSlot.reclaimRow
    rw [horphaned]
    split
    · simp only [JobSlot.assign, Db.slot, job_of_mem hrow, Option.map_some, FactJob.reclaim]
      split <;> rfl
    · rfl
  · refine (Table.foldl_override_not_mem (slot_reclaimStep dead now maxAttempts) hmem db).trans ?_
    -- a job outside the list is not running, or has no owner
    have horphaned : (db.slot k).orphaned dead extractor = false := by
      rw [Bool.eq_false_iff]
      intro h
      simp only [JobSlot.orphaned, Db.slot, Bool.and_eq_true, Option.any_eq_true] at h
      obtain ⟨⟨j, hj, hstatus⟩, o, ho, -⟩ := h
      obtain ⟨hrow, rfl⟩ := job_eq_some_iff.mp hj
      refine hmem (List.mem_map.mpr ⟨(j, o), mem_ownedRunning.mpr ⟨hrow, ?_, ?_, ho⟩, rfl⟩)
      · simpa using hstatus.1
      · exact hstatus.2
    unfold JobSlot.reclaim
    rw [horphaned]
    rfl

/-! ### Claim -/

theorem runnableJobs_sublist (req : ClaimRequest) (now : Int) (db : Db) :
    ∃ rows, rows.Perm (db.factJobs.rows.filter
        (FactJob.runnable req.extractor req.agentId req.notAfter (now - req.lease))) ∧
      (runnableJobs req now db).Sublist rows := by
  refine ⟨_, List.perm_insertionSort (fun i j : FactJob => i.createdAt ≤ j.createdAt) _, ?_⟩
  unfold runnableJobs sqlLimit
  split
  · exact List.Sublist.refl _
  · exact List.take_sublist _ _

/-- The rows a claim reads are runnable jobs. -/
theorem mem_runnableJobs {req : ClaimRequest} {now : Int} {j : FactJob}
    (h : j ∈ runnableJobs req now db) :
    j ∈ db.factJobs.rows ∧
      j.runnable req.extractor req.agentId req.notAfter (now - req.lease) = true := by
  obtain ⟨rows, hperm, hsub⟩ := runnableJobs_sublist req now db
  exact List.mem_filter.mp (hperm.subset (hsub.subset h))

theorem nodup_runnableJobs (req : ClaimRequest) (now : Int) (db : Db) :
    ((runnableJobs req now db).map FactJob.key).Nodup := by
  obtain ⟨rows, hperm, hsub⟩ := runnableJobs_sublist req now db
  have hrows : (rows.map FactJob.key).Nodup :=
    (hperm.map FactJob.key).nodup_iff.mpr
      (db.factJobs.nodup.sublist (List.filter_sublist.map FactJob.key))
  exact hrows.sublist (hsub.map FactJob.key)

/-- The job has had all its attempts, and its worker stopped. -/
def FactJob.exhausted (maxAttempts : Nat) (j : FactJob) : Bool :=
  j.status = .running && maxAttempts ≤ j.attempts

/-- `fact_job_claim` at the key of a row that it reads. -/
def JobSlot.claim (req : ClaimRequest) (now abandonedAt : Int) (row : FactJob) (s : JobSlot) :
    JobSlot :=
  if row.exhausted req.maxAttempts then
    s.assign (FactJob.abandoned abandonedAt "abandoned: worker stopped mid-job") none
  else s.assign (FactJob.claimedAt now) (some req.owner)

/-- The statements of a claim for one row. -/
def claimStep (req : ClaimRequest) (now abandonedAt : Int) (row : FactJob) (db : Db) : Db :=
  if row.exhausted req.maxAttempts then
    db.assignJob ⟨row.fragmentId, req.extractor⟩
      (FactJob.abandoned abandonedAt "abandoned: worker stopped mid-job")
      (FactJob.abandoned_key abandonedAt _) none
  else
    db.assignJob ⟨row.fragmentId, req.extractor⟩ (FactJob.claimedAt now)
      (FactJob.claimedAt_key now) (some req.owner)

def claimResult (req : ClaimRequest) (row : FactJob) : Option ClaimedJob :=
  if row.exhausted req.maxAttempts then none
  else some ⟨row.fragmentId, row.agentId, row.occurrence, row.attempts + 1⟩

theorem exec_claimRow (req : ClaimRequest) (now abandonedAt : Int) (row : FactJob) (db : Db) :
    (claimRow req now abandonedAt row).exec db =
      .ok (claimResult req row, claimStep req now abandonedAt row db) := by
  have hexhausted : row.exhausted req.maxAttempts =
      decide (row.status = .running ∧ req.maxAttempts ≤ row.attempts) := by
    unfold FactJob.exhausted
    rw [Bool.decide_and]
  unfold claimRow claimResult claimStep
  simp only [hexhausted, decide_eq_true_eq]
  split <;> rfl

/-- The jobs that a claim reads: those runnable once the dead are reclaimed. -/
def claimReads (dead : String → Bool) (now abandonedAt : Int) (req : ClaimRequest) (db : Db) :
    List FactJob :=
  runnableJobs req now (db.reclaim dead abandonedAt (some req.extractor) req.maxAttempts)

/-- The database after a claim. -/
def Db.claim (db : Db) (dead : String → Bool) (now abandonedAt : Int) (req : ClaimRequest) : Db :=
  (claimReads dead now abandonedAt req db).foldl
    (fun db row => claimStep req now abandonedAt row db)
    (db.reclaim dead abandonedAt (some req.extractor) req.maxAttempts)

theorem exec_factJobClaim (dead : String → Bool) (now abandonedAt : Int) (req : ClaimRequest)
    (db : Db) :
    (factJobClaim dead now abandonedAt req).exec db =
      .ok ((claimReads dead now abandonedAt req db).filterMap (claimResult req),
        db.claim dead now abandonedAt req) := by
  obtain ⟨n, hreclaim⟩ :=
    exec_reclaimDead dead abandonedAt (some req.extractor) req.maxAttempts db
  unfold factJobClaim
  simp only [Txn.exec_bind, hreclaim, Txn.exec_query,
    Txn.exec_forMap_map _ _ _ (exec_claimRow req now abandonedAt), Txn.exec_pure]
  congr 2
  show ((claimReads dead now abandonedAt req db).map (claimResult req)).filterMap id = _
  rw [List.filterMap_map]
  rfl

theorem key_of_mem_runnableJobs {req : ClaimRequest} {now : Int} {j : FactJob}
    (h : j ∈ runnableJobs req now db) : (⟨j.fragmentId, req.extractor⟩ : JobKey) = j.key := by
  have hrunnable := (mem_runnableJobs h).2
  simp only [FactJob.runnable, Bool.and_eq_true, decide_eq_true_eq] at hrunnable
  rw [FactJob.key, hrunnable.1.1]

theorem slot_claimStep (req : ClaimRequest) (now abandonedAt : Int) (row : FactJob) (db : Db)
    (k : JobKey) :
    (claimStep req now abandonedAt row db).slot k =
      if k = ⟨row.fragmentId, req.extractor⟩ then (db.slot k).claim req now abandonedAt row
      else db.slot k := by
  unfold claimStep JobSlot.claim
  split <;> exact slot_assignJob _ _ _ _ _ _

section Claim

variable {dead : String → Bool} {now abandonedAt : Int} {req : ClaimRequest}

theorem map_key_claimReads (dead : String → Bool) (now abandonedAt : Int) (req : ClaimRequest)
    (db : Db) :
    ((claimReads dead now abandonedAt req db).map fun row =>
      (⟨row.fragmentId, req.extractor⟩ : JobKey)) =
        (claimReads dead now abandonedAt req db).map FactJob.key :=
  List.map_congr_left fun _ hrow => key_of_mem_runnableJobs hrow

theorem slot_claim_of_mem {row : FactJob} (h : row ∈ claimReads dead now abandonedAt req db) :
    (db.claim dead now abandonedAt req).slot row.key =
      ((db.slot row.key).reclaim dead abandonedAt (some req.extractor) req.maxAttempts).claim
        req now abandonedAt row := by
  have hnodup : ((claimReads dead now abandonedAt req db).map fun row =>
      (⟨row.fragmentId, req.extractor⟩ : JobKey)).Nodup := by
    rw [map_key_claimReads]
    exact nodup_runnableJobs req now _
  have hfold := Table.foldl_override_mem (slot_claimStep req now abandonedAt) hnodup h
    (db.reclaim dead abandonedAt (some req.extractor) req.maxAttempts)
  rw [key_of_mem_runnableJobs h, slot_reclaim] at hfold
  exact hfold

/-- A claim at any other key does no more than reclaim. -/
theorem slot_claim_of_not_mem {k : JobKey}
    (h : k ∉ (claimReads dead now abandonedAt req db).map FactJob.key) :
    (db.claim dead now abandonedAt req).slot k =
      (db.slot k).reclaim dead abandonedAt (some req.extractor) req.maxAttempts := by
  rw [← map_key_claimReads] at h
  rw [← slot_reclaim]
  exact Table.foldl_override_not_mem (slot_claimStep req now abandonedAt) h _

end Claim

/-! ### Enqueue, start, release and settle -/

theorem exec_factJobEnqueue (now : Int) (agentId : String) (items : List (String × Nat))
    (extractor : String) (db : Db) :
    ∃ n, (factJobEnqueue now agentId items extractor).exec db =
      .ok (n, { db with
        factJobs := items.foldl (fun jobs item =>
          jobs.insertOrIgnore (newJob now agentId extractor item)) db.factJobs }) := by
  have hbody : ∀ (item : String × Nat) (db : Db),
      (insertJob (newJob now agentId extractor item)).exec db =
        .ok (if (db.factJobs.insert? (newJob now agentId extractor item)).isSome then 1 else 0,
          { db with
            factJobs := db.factJobs.insertOrIgnore (newJob now agentId extractor item) }) := by
    intro item db
    unfold insertJob Table.insertOrIgnore
    rw [Txn.exec_updateCount]
    cases db.factJobs.insert? (newJob now agentId extractor item) <;> rfl
  obtain ⟨ns, hns⟩ := Txn.exec_forMap _ _ _ hbody items db
  have hfold : ∀ (items : List (String × Nat)) (db : Db),
      items.foldl (fun (db : Db) item => { db with
        factJobs := db.factJobs.insertOrIgnore (newJob now agentId extractor item) }) db =
      { db with
        factJobs := items.foldl (fun jobs item =>
          jobs.insertOrIgnore (newJob now agentId extractor item)) db.factJobs } := by
    intro items
    induction items with
    | nil => exact fun _ => rfl
    | cons item items ih => exact fun db => ih _
  unfold factJobEnqueue
  simp only [Txn.exec_bind, hns, hfold]
  exact ⟨_, rfl⟩

/-- A job that is queued already stays as it is; a new one is pending. -/
theorem slot_enqueue (now : Int) (agentId : String) (items : List (String × Nat))
    (extractor : String) (db : Db) (k : JobKey) :
    let after := (factJobEnqueue now agentId items extractor).apply db
    after.slot k = db.slot k ∨
      db.job k = none ∧ ∃ item,
        after.slot k = ⟨some (newJob now agentId extractor item), db.ownerOf k⟩ := by
  intro after
  obtain ⟨n, hexec⟩ := exec_factJobEnqueue now agentId items extractor db
  have hafter : after = _ := Txn.apply_of_ok hexec
  have hfold : ∀ (items : List (String × Nat)) (jobs : Table FactJob.key),
      (items.foldl (fun jobs item =>
        jobs.insertOrIgnore (newJob now agentId extractor item)) jobs).find? k = jobs.find? k ∨
      jobs.find? k = none ∧ ∃ item, (items.foldl (fun jobs item =>
        jobs.insertOrIgnore (newJob now agentId extractor item)) jobs).find? k =
          some (newJob now agentId extractor item) := by
    intro items
    induction items with
    | nil => exact fun jobs => .inl rfl
    | cons item items ih =>
        intro jobs
        have hinsert := jobs.find?_insertOrIgnore (newJob now agentId extractor item) k
        rcases ih (jobs.insertOrIgnore (newJob now agentId extractor item)) with
          hsame | ⟨hnone, other, hother⟩
        · rw [List.foldl_cons, hsame, hinsert]
          cases hjob : jobs.find? k with
          | some j => exact .inl rfl
          | none =>
              rw [Option.none_or]
              split
              · exact .inr ⟨rfl, item, rfl⟩
              · exact .inl rfl
        · rw [hinsert, Option.or_eq_none_iff] at hnone
          exact .inr ⟨hnone.1, other, hother⟩
  rw [hafter]
  unfold Db.slot Db.job
  rcases hfold items db.factJobs with hsame | ⟨hnone, item, hitem⟩
  · refine .inl ?_
    simp only [hsame]
    rfl
  · refine .inr ⟨hnone, item, ?_⟩
    simp only [hitem]
    rfl

theorem slot_start (now : Int) (fragmentId extractor : String) (db : Db) (k : JobKey) :
    ((factJobStart now fragmentId extractor).apply db).slot k =
      if k = ⟨fragmentId, extractor⟩ then
        ⟨(db.slot k).job.map (FactJob.startedAt now), (db.slot k).owner⟩
      else db.slot k := by
  unfold factJobStart updateJob
  rw [Txn.apply_of_ok (Txn.exec_update _ _)]
  simp only [Db.slot, job_updateJob, ownerOf_updateJob]
  split <;> rfl

theorem slot_settle (now : Int) (key : JobKey) (status : JobStatus) (error : Option String)
    (db : Db) (k : JobKey) :
    ((settleJob now key status error).apply db).slot k =
      if k = key then (db.slot k).assign (FactJob.settledAt now status error) none
      else db.slot k := by
  have hexec : (settleJob now key status error).exec db =
      .ok ((), db.assignJob key (FactJob.settledAt now status error)
        (FactJob.settledAt_key now status error) none) := rfl
  rw [Txn.apply_of_ok hexec, slot_assignJob]

/-- The job is running under an owner. -/
def JobSlot.heldBy (owner : String) (s : JobSlot) : Bool :=
  (s.job.any fun j => j.status = .running) && s.owner = some owner

theorem JobSlot.heldBy_iff {owner : String} {s : JobSlot} :
    s.heldBy owner = true ↔ (∃ j, s.job = some j ∧ j.status = .running) ∧ s.owner = some owner := by
  simp only [JobSlot.heldBy, Bool.and_eq_true, Option.any_eq_true, decide_eq_true_eq]

/-- `fact_job_release` at one of its keys. -/
def JobSlot.release (owner : String) (refund : Nat) (s : JobSlot) : JobSlot :=
  if s.heldBy owner then s.assign (FactJob.released refund) none else s

/-- A job that was given back is not held any more. -/
theorem JobSlot.release_release (owner : String) (refund : Nat) (s : JobSlot) :
    (s.release owner refund).release owner refund = s.release owner refund := by
  unfold JobSlot.release
  cases hheld : s.heldBy owner with
  | true => simp [JobSlot.heldBy, JobSlot.assign]
  | false => simp [hheld]

/-- The statements for one id of `fact_job_release`. -/
def releaseStep (owner extractor : String) (refund : Nat) (fragmentId : String) (db : Db) : Db :=
  if (db.slot ⟨fragmentId, extractor⟩).heldBy owner then
    (db.releaseJobs owner refund ⟨fragmentId, extractor⟩).deleteOwner ⟨fragmentId, extractor⟩
  else db

/-- `EXISTS (SELECT 1 FROM fact_job_owners ...)` for the running row. -/
theorem heldBy_iff (db : Db) (owner : String) (key : JobKey) :
    (db.slot key).heldBy owner = true ↔ ∃ j ∈ db.factJobs.rows, db.heldBy owner key j = true := by
  rw [JobSlot.heldBy_iff]
  simp only [Db.slot, Db.heldBy, Bool.and_eq_true, decide_eq_true_eq]
  constructor
  · rintro ⟨⟨j, hj, hrunning⟩, howner⟩
    obtain ⟨hrow, hkey⟩ := job_eq_some_iff.mp hj
    exact ⟨j, hrow, ⟨hkey, hrunning⟩, howner⟩
  · rintro ⟨j, hrow, ⟨hkey, hrunning⟩, howner⟩
    exact ⟨⟨j, job_eq_some_iff.mpr ⟨hrow, hkey⟩, hrunning⟩, howner⟩

theorem exec_releaseRow (owner extractor : String) (refund : Nat) (fragmentId : String) (db : Db) :
    (releaseRow owner extractor refund fragmentId).exec db =
      .ok (if (db.slot ⟨fragmentId, extractor⟩).heldBy owner then 1 else 0,
        releaseStep owner extractor refund fragmentId db) := by
  unfold releaseRow releaseJob releaseStep
  simp only [Txn.exec_bind, Txn.exec_updateCount]
  by_cases hheld : (db.slot ⟨fragmentId, extractor⟩).heldBy owner = true
  · obtain ⟨j, hj, hheldBy⟩ := (heldBy_iff db owner _).mp hheld
    have hpos : (db.factJobs.rows.filter (db.heldBy owner ⟨fragmentId, extractor⟩)).length ≠ 0 :=
      fun h => List.ne_nil_of_mem (List.mem_filter.mpr ⟨hj, hheldBy⟩) (List.length_eq_zero_iff.mp h)
    rw [if_neg hpos, if_pos hheld, if_pos hheld]
    rfl
  · have hnone : ∀ j ∈ db.factJobs.rows, db.heldBy owner ⟨fragmentId, extractor⟩ j = false := by
      intro j hj
      rw [Bool.eq_false_iff]
      exact fun h => hheld ((heldBy_iff db owner _).mpr ⟨j, hj, h⟩)
    have hzero : (db.factJobs.rows.filter (db.heldBy owner ⟨fragmentId, extractor⟩)).length = 0 := by
      rw [List.length_eq_zero_iff, List.filter_eq_nil_iff]
      exact fun j hj => by simp [hnone j hj]
    have hsame : db.releaseJobs owner refund ⟨fragmentId, extractor⟩ = db := by
      unfold Db.releaseJobs
      congr 1
      apply Table.ext
      rw [Table.rows_update]
      refine (List.map_congr_left fun j hj => ?_).trans (List.map_id _)
      simp [hnone j hj]
    rw [if_pos hzero, if_neg hheld, if_neg hheld, hsame]
    rfl

theorem slot_releaseStep (owner extractor : String) (refund : Nat) (fragmentId : String) (db : Db)
    (k : JobKey) :
    (releaseStep owner extractor refund fragmentId db).slot k =
      if k = ⟨fragmentId, extractor⟩ then (db.slot k).release owner refund else db.slot k := by
  unfold releaseStep
  by_cases hheld : (db.slot ⟨fragmentId, extractor⟩).heldBy owner = true
  · obtain ⟨⟨running, hjobAt, hrunning⟩, howner⟩ := JobSlot.heldBy_iff.mp hheld
    have howner' : db.ownerOf ⟨fragmentId, extractor⟩ = some owner := howner
    have hjob : (db.releaseJobs owner refund ⟨fragmentId, extractor⟩).job k =
        (db.job k).map fun j =>
          if db.heldBy owner ⟨fragmentId, extractor⟩ j then j.released refund else j := by
      unfold Db.job Db.releaseJobs
      rw [Table.find?_update]
    rw [if_pos hheld]
    unfold Db.slot
    rw [job_deleteOwner, ownerOf_deleteOwner, hjob]
    split
    · rename_i hk
      subst hk
      have hslot : (⟨db.job ⟨fragmentId, extractor⟩, db.ownerOf ⟨fragmentId, extractor⟩⟩ : JobSlot) =
          db.slot ⟨fragmentId, extractor⟩ := rfl
      rw [hslot, JobSlot.release, if_pos hheld, JobSlot.assign, JobSlot.mk.injEq]
      refine ⟨Option.map_congr fun j hj => ?_, rfl⟩
      obtain ⟨-, hkey⟩ := job_eq_some_iff.mp hj
      obtain rfl : running = j := Option.some.inj (hjobAt.symm.trans hj)
      simp [Db.heldBy, hkey, hrunning, howner']
    · rename_i hk
      rw [JobSlot.mk.injEq]
      refine ⟨?_, rfl⟩
      cases hj : db.job k with
      | none => rfl
      | some j =>
          have hne : db.heldBy owner ⟨fragmentId, extractor⟩ j = false := by
            rw [← (job_eq_some_iff.mp hj).2] at hk
            simp [Db.heldBy, hk]
          rw [Option.map_some, hne]
          rfl
  · rw [if_neg hheld]
    split
    · rename_i hk
      subst hk
      rw [JobSlot.release, if_neg hheld]
    · rfl

/-- The database after `fact_job_release`. -/
def Db.release (db : Db) (owner extractor : String) (refund : Nat) (fragmentIds : List String) :
    Db :=
  fragmentIds.foldl (fun db id => releaseStep owner extractor refund id db) db

theorem exec_factJobRelease (fragmentIds : List String) (extractor : String) (started : Bool)
    (owner : String) (db : Db) :
    ∃ n, (factJobRelease fragmentIds extractor started owner).exec db =
      .ok (n, db.release owner extractor (if started then 0 else 1) fragmentIds) := by
  obtain ⟨ns, hns⟩ := Txn.exec_forMap _ _ _
    (exec_releaseRow owner extractor (if started then 0 else 1)) fragmentIds db
  unfold factJobRelease
  simp only [Txn.exec_bind, hns]
  exact ⟨_, rfl⟩

theorem apply_factJobRelease (fragmentIds : List String) (extractor : String) (started : Bool)
    (owner : String) (db : Db) :
    (factJobRelease fragmentIds extractor started owner).apply db =
      db.release owner extractor (if started then 0 else 1) fragmentIds := by
  obtain ⟨n, hexec⟩ := exec_factJobRelease fragmentIds extractor started owner db
  exact Txn.apply_of_ok hexec

theorem slot_release (db : Db) (owner extractor : String) (refund : Nat)
    (fragmentIds : List String) (k : JobKey) :
    (db.release owner extractor refund fragmentIds).slot k =
      if k.extractor = extractor ∧ k.fragmentId ∈ fragmentIds then (db.slot k).release owner refund
      else db.slot k := by
  induction fragmentIds generalizing db with
  | nil => simp [Db.release]
  | cons id ids ih =>
      have hfold : db.release owner extractor refund (id :: ids) =
          (releaseStep owner extractor refund id db).release owner extractor refund ids := rfl
      have hkey : k = ⟨id, extractor⟩ ↔ k.fragmentId = id ∧ k.extractor = extractor := by
        cases k
        simp
      rw [hfold, ih, slot_releaseStep]
      by_cases hextractor : k.extractor = extractor
      · by_cases hid : k.fragmentId = id
        · rw [if_pos (hkey.mpr ⟨hid, hextractor⟩), JobSlot.release_release, ite_self,
            if_pos ⟨hextractor, hid ▸ List.mem_cons_self⟩]
        · have hne : k ≠ ⟨id, extractor⟩ := fun h => hid (hkey.mp h).1
          rw [if_neg hne]
          simp [hextractor, hid]
      · have hne : k ≠ ⟨id, extractor⟩ := fun h => hextractor (hkey.mp h).2
        rw [if_neg hne]
        simp [hextractor]

end MarkSdk
