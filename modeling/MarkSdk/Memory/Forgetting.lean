import MarkSdk.Blocks.Maintained
import MarkSdk.Memory.Extracting

/-!
Forgetting among other threads.

Promotion, revisions and maintenance write back whole rows that they have read
before, and an extraction job records facts for a memory that it has read
before. As long as each such write still finds the row, what has been
forgotten stays forgotten (`forgotten_stays`).
-/

namespace MarkSdk

open Lib

/-- What one thread or process does. The steps along the links of `_newest`
are limited by `fuel`. -/
inductive Task : Type
  | forgetFragment (now : Int) (fragmentId : String) (secure : Bool)
  | forget (agentId : String) (now : Int) (memoryId : String) (secure : Bool)
  | remember (agentId newId : String) (now : Int) (text : String) (o : RememberOptions)
  | supersede (agentId newId : String) (now : Int) (fuel : Nat) (memoryId text : String)
      (o : ReviseOptions)
  | resolve (agentId : String) (now : Int) (fuel : Nat) (memoryId : String) (note : Option String)
  | promote (now : Int) (fragmentId : String)
  | prune (d : Decay) (edgeFloor : ℚ) (agentId : String) (now : Int)
  | consolidate (gate : String → ℚ → GateResult) (agentId : String) (threshold : ℚ) (now : Int)
  | deduplicate (cosine : List ℚ → List ℚ → ℚ) (threshold : ℚ) (agentId : String)
      (sessionId : Option String)
  | extract (x : Extractor) (startedAt completedAt failedAt : Int) (job : ClaimedJob)

/-- The client of a task; that of `forget_fragment` returns its answer. -/
def Task.client (py : Python) (w : WritePath) : Task → MemoryClient (Option Bool)
  | .forgetFragment now fragmentId secure => do
      let forgotten ← callForget now fragmentId secure
      return some forgotten
  | .forget agentId now memoryId secure => do
      let _ ← MarkSdk.forget agentId now memoryId secure
      return none
  | .remember agentId newId now text o => do
      let _ ← MarkSdk.remember py w agentId newId now text o
      return none
  | .supersede agentId newId now fuel memoryId text o => do
      let _ ← MarkSdk.supersede py w agentId newId now fuel memoryId text o
      return none
  | .resolve agentId now fuel memoryId note => do
      let _ ← MarkSdk.resolve py w agentId now fuel memoryId note
      return none
  | .promote now fragmentId => do
      MarkSdk.promote py now fragmentId
      return none
  | .prune d edgeFloor agentId now => do
      let _ ← MarkSdk.prune py d edgeFloor agentId now
      return none
  | .consolidate gate agentId threshold now => do
      let _ ← MarkSdk.consolidate py gate agentId threshold now
      return none
  | .deduplicate cosine threshold agentId sessionId => do
      let _ ← MarkSdk.deduplicate py cosine threshold agentId sessionId
      return none
  | .extract x startedAt completedAt failedAt job => do
      runJob py x startedAt completedAt failedAt job
      return none

/-! ### Every task is honest -/

section Honesty

theorem honest_facadeGet (agentId memoryId : String) :
    (facadeGet agentId memoryId).Honest StoreGrowsBy := by
  refine Client.honest_bind (Client.honest_read _) fun found => ?_
  split
  · refine Client.honest_bind (Client.honest_read _) fun ids => ?_
    split
    · exact Client.honest_bind (Client.honest_read _) fun _ => trivial
    · trivial
  · trivial

theorem honest_requireMemory (agentId memoryId : String) :
    (requireMemory agentId memoryId).Honest StoreGrowsBy := by
  refine Client.honest_bind (honest_facadeGet agentId memoryId) fun found => ?_
  cases found with
  | none => trivial
  | some fragment => trivial

theorem honest_newestFrom (py : Python) (agentId : String) (fuel : Nat) (seen : List String)
    (fragment : Fragment) : (newestFrom py agentId fuel seen fragment).Honest StoreGrowsBy := by
  induction fuel generalizing seen fragment with
  | zero => trivial
  | succ fuel ih =>
      unfold newestFrom
      split
      · trivial
      · split
        · trivial
        · refine Client.honest_bind (honest_facadeGet agentId _) fun newer => ?_
          cases newer with
          | none => trivial
          | some newer => exact ih _ newer

theorem honest_remember (py : Python) (w : WritePath) (agentId newId : String) (now : Int)
    (text : String) (o : RememberOptions) :
    (remember py w agentId newId now text o).Honest StoreGrowsBy :=
  Client.honest_bind (Client.honest_ofExcept _) fun f => honest_insertFragment py f

theorem honest_supersede (py : Python) (w : WritePath) (agentId newId : String) (now : Int)
    (fuel : Nat) (memoryId text : String) (o : ReviseOptions) :
    (supersede py w agentId newId now fuel memoryId text o).Honest StoreGrowsBy :=
  Client.honest_bind (honest_requireMemory agentId memoryId) fun required =>
    Client.honest_bind (honest_newestFrom py agentId fuel [required.id] required) fun _ =>
      Client.honest_bind (honest_remember py w agentId newId now text _) fun _ =>
        Client.honest_bind (honest_rewriteFragment py _) fun _ => trivial

theorem honest_resolve (py : Python) (w : WritePath) (agentId : String) (now : Int) (fuel : Nat)
    (memoryId : String) (note : Option String) :
    (resolve py w agentId now fuel memoryId note).Honest StoreGrowsBy := by
  refine Client.honest_bind (honest_requireMemory agentId memoryId) fun required => ?_
  split
  · trivial
  · refine Client.honest_bind (honest_newestFrom py agentId fuel [required.id] required)
      fun fragment => ?_
    split
    · trivial
    · split
      · exact Client.honest_bind (honest_rewriteFragment py _) fun _ => trivial
      · trivial

theorem honest_callForget (now : Int) (fragmentId : String) (secure : Bool) :
    (callForget now fragmentId secure).Honest StoreGrowsBy := by
  refine Client.honest_bind (Client.honest_read _) fun row => ?_
  cases row with
  | none => trivial
  | some row => exact honest_callStore (each_forgetRow now row secure)

theorem honest_forget (agentId : String) (now : Int) (memoryId : String) (secure : Bool) :
    (forget agentId now memoryId secure).Honest StoreGrowsBy := by
  refine Client.honest_bind (honest_facadeGet agentId memoryId) fun found => ?_
  cases found with
  | none => trivial
  | some one => exact Client.honest_bind (honest_callForget now one.id secure) fun _ => trivial

theorem honest_promote (py : Python) (now : Int) (fragmentId : String) :
    (promote py now fragmentId).Honest StoreGrowsBy := by
  refine Client.honest_bind (Client.honest_read _) fun row => ?_
  cases row with
  | none => trivial
  | some row => exact honest_rewriteFragment py _

theorem honest_collectMembers (m : SealedMembership) (blocks : List Block) :
    (collectMembers m blocks).Honest StoreGrowsBy := by
  induction blocks generalizing m with
  | nil => trivial
  | cons block blocks ih =>
      unfold collectMembers
      split
      · exact Client.honest_bind (Client.honest_read _) fun _ =>
          Client.honest_bind (Client.honest_read _) fun _ =>
            Client.honest_bind (Client.honest_read _) fun _ => ih _
      · exact ih m

theorem honest_sealedMembership (agentId : String) :
    (sealedMembership agentId).Honest StoreGrowsBy :=
  Client.honest_bind (Client.honest_read _) fun blocks => honest_collectMembers .empty blocks

theorem honest_prune (py : Python) (d : Decay) (edgeFloor : ℚ) (agentId : String) (now : Int) :
    (prune py d edgeFloor agentId now).Honest StoreGrowsBy := by
  refine Client.honest_bind (honest_sealedMembership agentId) fun m => ?_
  refine Client.honest_bind (Client.honest_read _) fun fragments => ?_
  refine Client.honest_bind (Client.honest_forMap (fun f => ?_) _) fun _ => ?_
  · unfold pruneFragment
    split
    · trivial
    · exact Client.honest_bind (Client.honest_when (honest_rewriteFragment py _)) fun _ =>
        Client.honest_bind (Client.honest_when (honest_removeFragment f.id)) fun _ => trivial
  · refine Client.honest_bind (Client.honest_read _) fun edges => ?_
    refine Client.honest_bind (Client.honest_forMap (fun e => ?_) _) fun _ => trivial
    unfold dissolveEdge
    split
    · trivial
    · exact Client.honest_bind (honest_callDeleteEdge e.id) fun _ => trivial

theorem honest_consolidate (py : Python) (gate : String → ℚ → GateResult) (agentId : String)
    (threshold : ℚ) (now : Int) :
    (consolidate py gate agentId threshold now).Honest StoreGrowsBy := by
  refine Client.honest_bind (honest_sealedMembership agentId) fun m => ?_
  refine Client.honest_bind (Client.honest_read _) fun fragments => ?_
  refine Client.honest_bind (Client.honest_forMap (fun f => ?_) _) fun _ => trivial
  unfold consolidateFragment
  split
  · trivial
  · split
    · trivial
    · split
      · exact Client.honest_bind (honest_removeFragment f.id) fun _ => trivial
      · split
        · dsimp only
          split
          · trivial
          · exact Client.honest_bind (honest_rewriteFragment py _) fun _ => trivial
        · trivial

theorem honest_dedupPlan (cosine : List ℚ → List ℚ → ℚ) (threshold : ℚ) (agentId : String)
    (sessionId : Option String) :
    (dedupPlan cosine threshold agentId sessionId).Honest StoreGrowsBy := by
  refine Client.honest_bind (Client.honest_read _) fun all => ?_
  refine Client.honest_bind (honest_sealedMembership agentId) fun m => ?_
  refine Client.honest_bind (Client.honest_forMap (fun f => ?_) _) fun _ => trivial
  refine Client.honest_bind ?_ fun _ => trivial
  unfold referredBySealed
  split
  · exact Client.honest_bind (Client.honest_read _) fun _ => trivial
  · trivial

theorem honest_deduplicate (py : Python) (cosine : List ℚ → List ℚ → ℚ) (threshold : ℚ)
    (agentId : String) (sessionId : Option String) :
    (deduplicate py cosine threshold agentId sessionId).Honest StoreGrowsBy := by
  refine Client.honest_bind (honest_dedupPlan cosine threshold agentId sessionId) fun plan => ?_
  refine Client.honest_bind (Client.honest_forMap (fun c => ?_) _) fun _ => trivial
  unfold mergeCluster
  split
  · trivial
  · refine Client.honest_bind (Client.honest_ofExcept _) fun previous => ?_
    refine Client.honest_bind (Client.honest_ofExcept _) fun mean => ?_
    refine Client.honest_bind (honest_rewriteFragment py _) fun _ => ?_
    refine Client.honest_bind (Client.honest_forEach (fun dup => ?_) _) fun _ => trivial
    exact Client.honest_bind (Client.honest_read _) fun nodes =>
      Client.honest_bind (Client.honest_forEach (fun node => honest_callStoreNode _) _) fun _ =>
        honest_removeFragment dup.id

theorem honest_task (py : Python) (w : WritePath) (t : Task) :
    (t.client py w).Honest StoreGrowsBy := by
  cases t with
  | forgetFragment now fragmentId secure =>
      exact Client.honest_bind (honest_callForget now fragmentId secure) fun _ => trivial
  | forget agentId now memoryId secure =>
      exact Client.honest_bind (honest_forget agentId now memoryId secure) fun _ => trivial
  | remember agentId newId now text o =>
      exact Client.honest_bind (honest_remember py w agentId newId now text o) fun _ => trivial
  | supersede agentId newId now fuel memoryId text o =>
      exact Client.honest_bind (honest_supersede py w agentId newId now fuel memoryId text o)
        fun _ => trivial
  | resolve agentId now fuel memoryId note =>
      exact Client.honest_bind (honest_resolve py w agentId now fuel memoryId note) fun _ => trivial
  | promote now fragmentId =>
      exact Client.honest_bind (honest_promote py now fragmentId) fun _ => trivial
  | prune d edgeFloor agentId now =>
      exact Client.honest_bind (honest_prune py d edgeFloor agentId now) fun _ => trivial
  | consolidate gate agentId threshold now =>
      exact Client.honest_bind (honest_consolidate py gate agentId threshold now) fun _ => trivial
  | deduplicate cosine threshold agentId sessionId =>
      exact Client.honest_bind (honest_deduplicate py cosine threshold agentId sessionId)
        fun _ => trivial
  | extract x startedAt completedAt failedAt job =>
      exact Client.honest_bind (honest_runJob py x startedAt completedAt failedAt job)
        fun _ => trivial

end Honesty

/-! ### What is forgotten -/

/-- There is no row of the id and no live fact from it. -/
structure Forgotten (fragmentId : String) (db : Db) : Prop where
  row : ∀ f ∈ db.fragments.rows, f.id ≠ fragmentId
  facts : ∀ r ∈ db.facts.rows, r.live = true → r.sourceFragmentId ≠ some fragmentId

/-- Once `forget_fragment` has returned `True`, a write does not go back behind
the deletion of the fragment: a row that is written back is still there, a fact
that is recorded has its source, and nobody stores a new fragment under the id.
A forgotten fragment has no facts of another agent. -/
def Respects (fragmentId : String) (returned : Option (Option Bool)) (l : StoreWrite)
    (s : LocalStore) : Prop :=
  match l with
  | .rewrite id => returned = some (some true) → id = fragmentId → (s.get fragmentId).isSome = true
  | .insert id => returned = some (some true) → id ≠ fragmentId
  | .fact source => returned = some (some true) → source = some fragmentId →
      (s.get fragmentId).isSome = true
  | .forget id agentId => id = fragmentId →
      ∀ r ∈ s.db.facts.rows, r.live = true → r.sourceFragmentId = some fragmentId →
        r.agentId = agentId
  | .delete _ => True
  | .other => True

instance (fragmentId : String) (returned : Option (Option Bool)) (l : StoreWrite)
    (s : LocalStore) : Decidable (Respects fragmentId returned l s) := by
  unfold Respects
  cases l <;> infer_instance

section Forgotten

variable {fragmentId : String}

/-- Writes that respect the deletion bring nothing back. -/
theorem Forgotten.keeps {l : StoreWrite} {s s' : LocalStore} (h : Forgotten fragmentId s.db)
    (hrespects : Respects fragmentId (some (some true)) l s) (hgrows : StoreGrowsBy l s s') :
    Forgotten fragmentId s'.db := by
  have hgone : s.get fragmentId = none := Table.find?_eq_none_iff.mpr h.row
  constructor
  · intro f hf hid
    rcases hgrows.fragments f hf with ⟨g, hg, hsame⟩ | rfl | rfl
    · exact h.row g hg (hsame.trans hid)
    · have hthere := hrespects rfl hid
      rw [hgone] at hthere
      cases hthere
    · exact hrespects rfl hid
  · intro r hr hlive hsource
    rcases hgrows.facts r hr hlive with ⟨q, hq, hqlive, -, hqsource⟩ | rfl
    · exact h.facts q hq hqlive (hqsource.trans hsource)
    · have hthere := hrespects rfl hsource
      rw [hgone] at hthere
      cases hthere

theorem Forgotten.of_grows {db db' : Db} (h : Forgotten fragmentId db)
    (hgrows : GrowsBy .other db db') : Forgotten fragmentId db' := by
  constructor
  · intro f hf hid
    rcases hgrows.fragments f hf with ⟨g, hg, hsame⟩ | hl | hl
    · exact h.row g hg (hsame.trans hid)
    · cases hl
    · cases hl
  · intro r hr hlive hsource
    rcases hgrows.facts r hr hlive with ⟨q, hq, hqlive, -, hqsource⟩ | hl
    · exact h.facts q hq hqlive (hqsource.trans hsource)
    · cases hl

/-- The rest of the cascade, once the facts of the fragment are withdrawn. -/
theorem Forgotten.rechained {db db' : Db} (h : Forgotten fragmentId db)
    {keys : List TimelineKey}
    (hexec : (Txn.forEach rechainFacts keys >>= fun _ => deleteJobs fragmentId).exec db =
      .ok ((), db')) : Forgotten fragmentId db' := by
  have heach : (Txn.forEach rechainFacts keys >>= fun _ => deleteJobs fragmentId).Each
      (GrowsBy .other) :=
    Txn.each_bind (Txn.each_forEach fun k _ => each_rechainFacts k) fun _ =>
      each_deleteJobs fragmentId
  exact h.of_grows (heach.exec (GrowsBy.refl .other) GrowsBy.trans hexec)

theorem forEach_map {β γ : Type} (body : γ → Writing Unit) (g : β → γ) (xs : List β) :
    Txn.forEach body (xs.map g) = Txn.forEach (fun x => body (g x)) xs := by
  induction xs with
  | nil => rfl
  | cons x xs ih =>
      show (body (g x)).bind _ = (body (g x)).bind _
      rw [ih]

theorem forgotten_of_cascade {db db' : Db} {agentId : String} {secure : Bool} {now : Int}
    (hrow : ∀ f ∈ db.fragments.rows, f.id ≠ fragmentId)
    (hown : ∀ r ∈ db.facts.rows, r.live = true → r.sourceFragmentId = some fragmentId →
      r.agentId = agentId)
    (hexec : (cascadeFacts agentId fragmentId secure now).exec db = .ok ((), db')) :
    Forgotten fragmentId db' := by
  unfold cascadeFacts at hexec
  rw [Txn.exec_query_bind] at hexec
  cases secure with
  | true =>
      rw [if_pos rfl, Txn.exec_bind, Txn.exec_update] at hexec
      dsimp only at hexec
      rw [Txn.exec_bind, Txn.exec_update] at hexec
      dsimp only at hexec
      refine Forgotten.rechained ?_ (by rw [forEach_map]; exact hexec)
      refine ⟨hrow, fun r hr hlive hsource => ?_⟩
      obtain ⟨hr, hkept⟩ := List.mem_filter.mp hr
      obtain ⟨q, hq, rfl⟩ := List.mem_map.mp hr
      by_cases hfrom : q.sourcedFrom agentId fragmentId = true
      · rw [if_pos hfrom] at hkept
        have hzero : q.zeroValue.sourcedFrom agentId fragmentId = true := hfrom
        simp [hzero] at hkept
      · rw [if_neg hfrom] at hlive hsource
        refine hfrom ?_
        simp [FactRow.sourcedFrom, hown q hq hlive hsource, hsource]
  | false =>
      rw [if_neg Bool.false_ne_true, Txn.exec_bind, Txn.exec_update] at hexec
      dsimp only at hexec
      refine Forgotten.rechained ?_ (by rw [forEach_map]; exact hexec)
      refine ⟨hrow, fun r hr hlive hsource => ?_⟩
      obtain ⟨q, hq, rfl⟩ := List.mem_map.mp hr
      by_cases hfrom : (q.sourcedFrom agentId fragmentId && q.live) = true
      · rw [if_pos hfrom] at hlive
        simp [FactRow.live, FactRow.retract] at hlive
      · rw [if_neg hfrom] at hlive hsource
        refine hfrom ?_
        simp [FactRow.sourcedFrom, hown q hq hlive hsource, hsource, hlive]

/-- `forget_fragment` leaves nothing of the fragment, if its facts are those
of its agent. -/
theorem forgotten_of_forgetRow {db db' : Db} {now : Int} {row : Fragment} {secure b : Bool}
    (hown : ∀ r ∈ db.facts.rows, r.live = true → r.sourceFragmentId = some row.id →
      r.agentId = row.agentId)
    (hexec : (forgetRow now row secure).exec db = .ok (b, db')) : Forgotten row.id db' := by
  have hrest : ∀ db₁ : Db, db₁.facts = db.facts →
      (deleteFragment row.id >>= fun _ => cascadeFacts row.agentId row.id secure now >>=
        fun _ => pure true).exec db₁ = .ok (b, db') → Forgotten row.id db' := by
    intro db₁ hfacts hexec
    unfold deleteFragment at hexec
    rw [Txn.exec_bind, Txn.exec_update] at hexec
    dsimp only at hexec
    rw [Txn.exec_bind] at hexec
    cases hcascade : (cascadeFacts row.agentId row.id secure now).exec
        { db₁ with fragments := db₁.fragments.delete fun r => r.id = row.id } with
    | error e => simp [hcascade] at hexec
    | ok result =>
        obtain ⟨⟨⟩, db₂⟩ := result
        simp only [hcascade, Txn.exec_pure, Except.ok.injEq, Prod.mk.injEq] at hexec
        obtain ⟨-, rfl⟩ := hexec
        refine forgotten_of_cascade (fun f hf hid => ?_) ?_ hcascade
        · simpa [hid] using (List.mem_filter.mp hf).2
        · rw [hfacts]
          exact hown
  cases secure with
  | true =>
      unfold forgetRow updateFragment at hexec
      rw [if_pos rfl, Txn.exec_bind, Txn.exec_update] at hexec
      refine hrest _ ?_ hexec
      rfl
  | false => exact hrest db rfl hexec

theorem onDb_forgetRow_dml (now : Int) (row : Fragment) (secure : Bool) :
    ∃ f k, onDb (forgetRow now row secure) = .dml f k := by
  cases secure with
  | true => exact ⟨_, _, rfl⟩
  | false => exact ⟨_, _, rfl⟩

theorem callForget_eq (now : Int) (fragmentId : String) (secure : Bool) :
    callForget now fragmentId secure = .select fun s => (s.get fragmentId).elim (.done false)
      fun row => callStore (.forget fragmentId row.agentId) (forgetRow now row secure) := by
  unfold callForget
  show Client.select _ = Client.select _
  congr 1
  funext s
  cases hget : s.get fragmentId with
  | none => simp only [hget, Client.bind]; rfl
  | some row => simp only [hget, Client.bind]; rfl

/-- `forget_fragment` does not return `True` before it has forgotten. -/
theorem leads_forgetFragment (py : Python) (w : WritePath) (now : Int) (secure : Bool) :
    ((Task.forgetFragment now fragmentId secure).client py w).Leads (fun a => a = some true)
      (Respects fragmentId none) fun s => Forgotten fragmentId s.db := by
  show ((callForget now fragmentId secure).bind
    fun forgotten => Client.done (some forgotten)).Leads _ _ _
  rw [callForget_eq]
  intro s
  simp only
  cases hget : s.get fragmentId with
  | none => simp [Client.bind, Client.Leads]
  | some row =>
      obtain ⟨-, rfl⟩ := Table.find?_eq_some_iff.mp hget
      obtain ⟨f, k, hdml⟩ := onDb_forgetRow_dml now row secure
      show ((callStore (.forget row.id row.agentId) (forgetRow now row secure)).bind
        fun forgotten => Client.done (some forgotten)).Leads _ _ _
      unfold callStore
      rw [hdml]
      refine Client.leads_txn some fun t a t' hrespects hexec => ?_
      rw [← hdml, exec_onDb] at hexec
      cases hrow : (forgetRow now row secure).exec t.db with
      | error e => simp [hrow] at hexec
      | ok result =>
          obtain ⟨b, db'⟩ := result
          simp only [hrow, Except.ok.injEq, Prod.mk.injEq] at hexec
          obtain ⟨-, rfl⟩ := hexec
          exact forgotten_of_forgetRow (hrespects rfl) hrow

end Forgotten

/-! ### Interleavings -/

/-- The tasks before their first step. -/
def startTasks {ι : Type} (py : Python) (w : WritePath) (tasks : ι → Task) (s : LocalStore) :
    Pool ι StoreWrite LocalStore MemoryError (Option Bool) :=
  ⟨s, fun i => (tasks i).client py w⟩

/-- The state after the tasks have made their reads and writes in turn. -/
def runTasks {ι : Type} [DecidableEq ι] (py : Python) (w : WritePath) (tasks : ι → Task)
    (s : LocalStore) (turns : List ι) : Pool ι StoreWrite LocalStore MemoryError (Option Bool) :=
  run (fun i p => p.step i) turns (startTasks py w tasks s)

/-- Once `forget_fragment` has returned `True`, the fragment stays forgotten
as long as the writes respect its deletion. -/
theorem forgotten_stays {ι : Type} [DecidableEq ι] (py : Python) (w : WritePath) (tasks : ι → Task)
    (s : LocalStore) (turns : List ι) (i : ι) (now : Int) (fragmentId : String) (secure : Bool)
    (hforget : tasks i = .forgetFragment now fragmentId secure)
    (hrespects : Along (fun j p => p.step j)
      (fun j p => p.Meets (Respects fragmentId (p.client i).returned) j) turns
      (startTasks py w tasks s))
    (hreturned : ((runTasks py w tasks s turns).client i).returned = some (some true)) :
    Forgotten fragmentId (runTasks py w tasks s turns).state.db := by
  have hleads : ((startTasks py w tasks s).client i).Leads (fun a => a = some true)
      (Respects fragmentId none) fun s => Forgotten fragmentId s.db := by
    show ((tasks i).client py w).Leads _ _ _
    rw [hforget]
    exact leads_forgetFragment py w now secure
  exact Pool.holds_of_returned (I := fun s => Forgotten fragmentId s.db)
    (P := fun a => a = some true) (C := Respects fragmentId)
    (by rintro a l s s' rfl h hrespects hgrows; exact h.keeps hrespects hgrows)
    (fun i => honest_task py w (tasks i)) hleads hrespects rfl hreturned

def oneMemory : LocalStore :=
  run (MemoryCall.step .basic .plain) [("a", 1, .remember "m" "the port is 8080" {})] .empty

/-- A promotion (`true`) and a deletion of the same memory (`false`). -/
def promotedAndForgotten : Bool → Task
  | true => .promote 2 "m"
  | false => .forgetFragment 3 "m" false

theorem forgotten_stays_promoted :
    Forgotten "m" (runTasks .basic .plain promotedAndForgotten oneMemory
      [true, true, true, false, false]).state.db :=
  forgotten_stays .basic .plain promotedAndForgotten oneMemory [true, true, true, false, false] false 3
    "m" false rfl (by decide +kernel) (by decide +kernel)

/-- A promotion that read the memory before stores it again. -/
theorem promoted_back :
    ¬ ∀ (py : Python) (w : WritePath) (calls : List (String × Int × MemoryCall))
        (tasks : Bool → Task) (turns : List Bool) (i : Bool) (now : Int) (fragmentId : String)
        (secure : Bool),
      tasks i = .forgetFragment now fragmentId secure →
      (∀ j, ∀ agentId newId now text o, tasks j ≠ .remember agentId newId now text o) →
      ((runTasks py w tasks (run (MemoryCall.step py w) calls .empty) turns).client i).returned =
        some (some true) →
      Forgotten fragmentId
        (runTasks py w tasks (run (MemoryCall.step py w) calls .empty) turns).state.db := by
  intro hforgotten
  have hrow := (hforgotten .basic .plain [("a", 1, .remember "m" "the port is 8080" {})]
    promotedAndForgotten [true, false, false, true, true] false 3 "m" false rfl
    (by intro j; cases j <;> (intros; intro h; cases h)) (by decide +kernel)).row
  have hback : (runTasks .basic .plain promotedAndForgotten oneMemory
      [true, false, false, true, true]).state.db.fragments.rows.any (fun f => f.id = "m") = true := by
    decide +kernel
  obtain ⟨f, hf, hid⟩ := List.any_eq_true.mp hback
  exact hrow f hf (of_decide_eq_true hid)

end MarkSdk
