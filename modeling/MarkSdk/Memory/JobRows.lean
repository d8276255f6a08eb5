import MarkSdk.Blocks.Maintained
import MarkSdk.Memory.Merging
import MarkSdk.Memory.Revisions

/-!
What promotion and maintenance make of the rows.

A condition on rows survives a job if the rows that it stores meet it. Each
job reads the rows first, so that what it stores can be told from the rows
there were: another importance and other notes after pruning, other notes
after a merge, and after a consolidation what the gate has left of the text in
the episodic tier.
-/

namespace MarkSdk

open Lib

/-- Every row meets the condition. -/
def LocalStore.Rows (P : Fragment → Prop) (s : LocalStore) : Prop :=
  ∀ f ∈ s.db.fragments.rows, P f

instance decidableRows (P : Fragment → Prop) [DecidablePred P] (s : LocalStore) :
    Decidable (s.Rows P) :=
  inferInstanceAs (Decidable (∀ f ∈ s.db.fragments.rows, P f))

/-! ### The writes -/

section Writes

variable {P : Fragment → Prop}

theorem keepsRows_rewrite (py : Python) {f : Fragment} (hf : P f) :
    (rewriteFragment py f).Keeps (LocalStore.Rows P) fun _ => True := by
  refine Client.keeps_bind (Client.keeps_txn ?_) fun _ _ => trivial
  refine (each_onDb (store_upserts py f)).mono fun s s' hstep hs g hg => ?_
  rw [hstep.1] at hg
  rcases Table.mem_upsert hg with hold | rfl
  · exact hs g hold
  · exact hf

theorem keepsRows_insert (py : Python) {f : Fragment} (hf : P f) :
    (insertFragment py f).Keeps (LocalStore.Rows P) fun _ => True := by
  refine Client.keeps_txn ((each_onDb (store_upserts py f)).mono fun s s' hstep hs g hg => ?_)
  rw [hstep.1] at hg
  rcases Table.mem_upsert hg with hold | rfl
  · exact hs g hold
  · exact hf

theorem keepsRows_storeMany (py : Python) (l : StoreWrite) {fs : List Fragment}
    (hfs : ∀ f ∈ fs, P f) :
    (callStore l (storeMany py fs)).Keeps (LocalStore.Rows P) fun _ => True := by
  have heach : (storeMany py fs).Each fun db db' =>
      (∀ f ∈ db.fragments.rows, P f) → ∀ f ∈ db'.fragments.rows, P f := by
    refine Txn.each_bind (Txn.each_forEach fun f hf => ?_) fun _ => trivial
    refine Txn.each_bind ((store_upserts py f).mono fun db db' hstep hdb g hg => ?_) fun _ => trivial
    rw [hstep] at hg
    rcases Table.mem_upsert hg with hold | rfl
    · exact hdb g hold
    · exact hfs g hf
  exact Client.keeps_txn ((each_onDb heach).mono fun s s' hstep => hstep.1)

theorem keepsRows_remove (id : String) :
    (removeFragment id).Keeps (LocalStore.Rows P) fun _ => True := by
  refine Client.keeps_bind (Client.keeps_txn ?_) fun _ _ => trivial
  refine (each_onDb (deleteById_deletes id)).mono fun s s' hstep hs g hg => ?_
  rw [hstep.1] at hg
  exact hs g (List.mem_filter.mp hg).1

theorem keepsRows_storeNode (node : Node) :
    (callStoreNode node).Keeps (LocalStore.Rows P) fun _ => True := by
  refine Client.keeps_bind (Client.keeps_txn ?_) fun _ _ => trivial
  exact Txn.each_bind (Txn.each_update fun _ hs => hs) fun _ => trivial

theorem keepsRows_deleteEdge (edgeId : String) :
    (callDeleteEdge edgeId).Keeps (LocalStore.Rows P) fun _ => True := by
  refine Client.keeps_bind (Client.keeps_txn ?_) fun _ _ => trivial
  exact Txn.each_bind (Txn.each_updateCount fun _ hs => hs) fun _ => trivial

end Writes

/-! ### The jobs -/

/-- A consolidation takes the memory over into the episodic tier. -/
structure TakenOver (gate : String → ℚ → GateResult) (threshold : ℚ) (now : Int)
    (m : SealedMembership) (f : Fragment) : Prop where
  working : f.tier = .working ∨ f.ttlSeconds.isSome = true
  loose : m.protectsFragment f = false
  quarantined : f.state ≠ .quarantined
  contradicted : f.state ≠ .contradicted
  unexpired : f.isExpired now = false
  important : threshold ≤ f.importance
  passed : (gate f.content f.confidence).passed = true

/-- What a consolidation stores of a memory that it takes over. -/
def Fragment.consolidated (gate : String → ℚ → GateResult) (now : Int) (f : Fragment) : Fragment :=
  { f with
    content := (gate f.content f.confidence).content
    tier := .episodic
    state := .verified
    ttlSeconds := none
    updatedAt := now }

section Jobs

variable (py : Python) {P : Fragment → Prop} {s : LocalStore} {agentId : String}

theorem rows_prune (hs : s.Rows P) {d : Decay} {now : Int}
    (hdecayed : ∀ f ∈ s.db.fragments.rows, f.agentId = agentId →
      P { f with
        importance := d.apply py f now
        metadata := d.decayMetadata f now }) (edgeFloor : ℚ) :
    ((prune py d edgeFloor agentId now).after s).Rows P := by
  unfold prune
  rw [Client.after_bind (run_sealedMembership agentId s), Client.after_bind (Client.run_read _ s)]
  refine Client.Keeps.after (Q := fun _ => True) ?_ hs
  refine Client.keeps_bind (Q := fun _ => True) ?_ fun pruned _ => ?_
  · refine (Client.keeps_forMap (Q := fun _ => True) fun f hf => ?_).mono fun _ _ => trivial
    obtain ⟨hrow, hagent⟩ := mem_listByAgent hf
    unfold pruneFragment
    split
    · trivial
    · refine Client.keeps_bind (Client.keeps_when ?_) fun _ _ => ?_
      · exact keepsRows_rewrite py (hdecayed f hrow hagent)
      · exact Client.keeps_bind (Client.keeps_when (keepsRows_remove f.id)) fun _ _ =>
          Client.keeps_pure trivial
  · refine Client.keeps_bind (Q := fun _ => True) (Client.keeps_read fun _ _ => trivial)
      fun edges _ => Client.keeps_bind (Q := fun _ => True) ?_ fun _ _ => trivial
    refine (Client.keeps_forMap (Q := fun _ => True) fun e _ => ?_).mono fun _ _ => trivial
    unfold dissolveEdge
    split
    · trivial
    · exact Client.keeps_bind (keepsRows_deleteEdge e.id) fun _ _ => trivial

theorem rows_consolidate (hs : s.Rows P) {gate : String → ℚ → GateResult} {threshold : ℚ}
    {now : Int}
    (htaken : ∀ f ∈ s.db.fragments.rows, f.agentId = agentId →
      TakenOver gate threshold now (s.membership agentId) f → P (f.consolidated gate now)) :
    ((consolidate py gate agentId threshold now).after s).Rows P := by
  unfold consolidate
  rw [Client.after_bind (run_sealedMembership agentId s), Client.after_bind (Client.run_read _ s),
    Client.after_bind_pure]
  refine (Client.keeps_forMap (Q := fun _ => True) fun f hf => ?_).after hs
  obtain ⟨hrow, hagent⟩ := mem_listByAgent hf
  unfold consolidateFragment
  split
  · trivial
  · rename_i hworking
    split
    · trivial
    · rename_i hskipped
      split
      · exact Client.keeps_bind (keepsRows_remove f.id) fun _ _ => trivial
      · rename_i hexpired
        split
        · rename_i himportant
          dsimp only
          split
          · trivial
          · rename_i hpassed
            refine Client.keeps_bind (keepsRows_rewrite py (htaken f hrow hagent ?_)) fun _ _ =>
              Client.keeps_pure trivial
            simp only [Bool.or_eq_true, decide_eq_true_eq, not_or, Bool.not_eq_true] at hskipped
            refine ⟨?_, hskipped.1.1, hskipped.1.2, hskipped.2, Bool.eq_false_iff.mpr hexpired,
              himportant, by simpa using hpassed⟩
            by_cases htier : f.tier = .working
            · exact .inl htier
            · refine .inr ?_
              cases httl : f.ttlSeconds with
              | none => exact absurd ⟨htier, by rw [httl]; rfl⟩ hworking
              | some ttl => rfl
        · trivial

theorem rows_deduplicate (hs : s.Rows P)
    (hmerged : ∀ f ∈ s.db.fragments.rows, ∀ metadata, P { f with metadata := metadata })
    (cosine : List ℚ → List ℚ → ℚ) (threshold : ℚ) (sessionId : Option String) :
    ((deduplicate py cosine threshold agentId sessionId).after s).Rows P := by
  obtain ⟨skipped, hplan⟩ := run_dedupPlan cosine threshold agentId sessionId s
  have hrows := (clustersOf_dedupClusters cosine threshold agentId sessionId s).rows
  unfold deduplicate
  rw [Client.after_bind hplan, Client.after_bind_pure]
  refine (Client.keeps_forMap (Q := fun _ => True) fun c hc => ?_).after hs
  unfold mergeCluster
  split
  · trivial
  · refine Client.keeps_bind (Q := fun _ => True) (Client.keeps_ofExcept fun _ _ => trivial)
      fun previous _ => ?_
    refine Client.keeps_bind (Q := fun _ => True) (Client.keeps_ofExcept fun _ _ => trivial)
      fun mean _ => ?_
    have hseed := hmerged c.seed (hrows c hc c.seed List.mem_cons_self)
    refine Client.keeps_bind (keepsRows_rewrite py (hseed _)) fun _ _ => ?_
    refine Client.keeps_bind (Client.keeps_forEach fun dup _ => ?_) fun _ _ =>
      Client.keeps_pure trivial
    refine Client.keeps_bind (Q := fun _ => True) (Client.keeps_read fun _ _ => trivial)
      fun nodes _ => ?_
    exact Client.keeps_bind (Client.keeps_forEach fun n _ => keepsRows_storeNode _) fun _ _ =>
      keepsRows_remove dup.id

theorem rows_promote (hs : s.Rows P) {now : Int} {memoryId : String}
    (hpromoted : ∀ f ∈ s.db.fragments.rows, f.id = memoryId → P (f.promotedOnce now)) :
    ((promote py now memoryId).after s).Rows P := by
  unfold promote
  rw [Client.after_bind (Client.run_read _ s)]
  cases hget : s.get memoryId with
  | none => exact hs
  | some f =>
      obtain ⟨hf, hid⟩ := Table.find?_eq_some_iff.mp hget
      exact (keepsRows_rewrite py (hpromoted f hf hid)).after hs

end Jobs

end MarkSdk
