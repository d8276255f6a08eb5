import MarkSdk.Memory.KeptTruth

/-!
Provenance of merged memories.

The seed of a cluster gets the ids of the others into its `merged_from_ids`,
and not what these had absorbed before. An id is lost when every memory that
lists it is merged away; in runs in which this does not happen every id that a
deduplication deleted is listed by a memory (`provenance_kept_iff`). What is
deleted is near a memory that stays, in every run.
-/

namespace MarkSdk

open Lib

/-! ### Lists of merged memories -/

def PyValue.isText (text : String) : PyValue → Bool
  | .str s => s = text
  | _ => false

/-- The id is in `merged_from_ids` as the next merge reads it. -/
def Fragment.absorbed (f : Fragment) (id : String) : Bool :=
  match previouslyMerged f.metadata with
  | .ok items => items.any (PyValue.isText id)
  | .error _ => false

/-- Some memory lists the id. -/
def LocalStore.lists (s : LocalStore) (id : String) : Prop :=
  ∃ f ∈ s.db.fragments.rows, f.absorbed id = true

theorem any_isText_map (ids : List String) (id : String) :
    (ids.map PyValue.str).any (PyValue.isText id) = true ↔ id ∈ ids := by
  simp [PyValue.isText]

theorem previouslyMerged_mergedMetadata (metadata : Metadata) (previous : List PyValue)
    (mergedIds : List String) (clusterSize : Nat) :
    previouslyMerged (mergedMetadata metadata previous mergedIds clusterSize) =
      .ok (previous ++ mergedIds.map .str) := by
  unfold previouslyMerged mergedMetadata
  rw [lookup_assign_ne _ (by decide), lookup_assign_self]
  rfl

/-- A seed lists what it listed, and the others of its cluster. -/
theorem absorbed_mergedSeed {c : Cluster} {previous : List PyValue}
    (h : previouslyMerged c.seed.metadata = .ok previous) (id : String) :
    (c.mergedSeed previous).absorbed id = true ↔
      c.seed.absorbed id = true ∨ id ∈ c.rest.map Fragment.id := by
  have hseed : c.seed.absorbed id = previous.any (PyValue.isText id) := by
    rw [Fragment.absorbed, h]
  have hmerged : (c.mergedSeed previous).absorbed id =
      (previous ++ (c.rest.map Fragment.id).map PyValue.str).any (PyValue.isText id) := by
    unfold Fragment.absorbed
    rw [show (c.mergedSeed previous).metadata = mergedMetadata c.seed.metadata previous
      (c.rest.map Fragment.id) (c.rest.length + 1) from rfl, previouslyMerged_mergedMetadata]
  rw [hseed, hmerged, List.any_append, Bool.or_eq_true, any_isText_map]

/-! ### One cluster -/

/-- The rows after the cluster has been merged: the others are gone, and the
row of the seed lists them. -/
structure ClusterMerged (c : Cluster) (s t : LocalStore) : Prop where
  rows : ∀ g, g.id ≠ c.seed.id → (g ∈ t.db.fragments.rows ↔
    g ∈ s.db.fragments.rows ∧ g.id ∉ c.rest.map Fragment.id)
  seed : ∃ g ∈ t.db.fragments.rows, g.id = c.seed.id ∧ ∀ id, g.absorbed id = true ↔
    c.seed.absorbed id = true ∨ id ∈ c.rest.map Fragment.id

theorem rows_mergeDuplicates (seedId : String) (rest : List Fragment) (s : LocalStore) :
    ∃ t, (Client.forEach (mergeDuplicate seedId) rest).run s = (.ok (), t) ∧
      ∀ g, g ∈ t.db.fragments.rows ↔
        g ∈ s.db.fragments.rows ∧ g.id ∉ rest.map Fragment.id := by
  induction rest generalizing s with
  | nil => exact ⟨s, rfl, fun g => by simp⟩
  | cons dup rest ih =>
    obtain ⟨u, hnodes, hdb⟩ := run_storeNodes (fun node => { node with fragmentId := some seedId })
      (s.nodesForFragment dup.id) s
    obtain ⟨t, hrest, hrows⟩ :=
      ih (u.withFragments (u.db.fragments.delete fun r => r.id = dup.id))
    refine ⟨t, ?_, fun g => ?_⟩
    · show ((mergeDuplicate seedId dup) >>= fun _ =>
        Client.forEach (mergeDuplicate seedId) rest).run s = _
      have hdup : (mergeDuplicate seedId dup).run s =
          (.ok (), u.withFragments (u.db.fragments.delete fun r => r.id = dup.id)) := by
        unfold mergeDuplicate
        rw [Client.run_bind, Client.run_read]
        dsimp only
        rw [Client.run_bind, hnodes]
        exact run_removeFragment u dup.id
      rw [Client.run_bind, hdup]
      exact hrest
    · rw [hrows, LocalStore.withFragments_fragments, Table.rows_delete, List.mem_filter, hdb,
        List.map_cons, List.mem_cons, not_or]
      simp only [Bool.not_eq_true', decide_eq_false_iff_not, and_assoc]

theorem mem_upsert_iff_of_ne {t : Table Fragment.id} {f g : Fragment} (hne : g.id ≠ f.id) :
    g ∈ (t.upsert f).rows ↔ g ∈ t.rows := by
  constructor
  · intro hg
    rcases Table.mem_upsert hg with hold | rfl
    · exact hold
    · exact absurd rfl hne
  · exact fun hg => Table.mem_upsert_of_ne hg hne

theorem run_mergeCluster_merged (py : Python) {s : LocalStore} {c : Cluster}
    (hseed : c.seed ∈ s.db.fragments.rows) (hrest : c.seed.id ∉ c.rest.map Fragment.id)
    (hc : c.mergeable = true) :
    ∃ result t, (mergeCluster py c).run s = (.ok result, t) ∧ ClusterMerged c s t := by
  unfold mergeCluster
  split
  · rename_i hempty
    rw [List.isEmpty_iff] at hempty
    refine ⟨_, s, rfl, fun g _ => by simp [hempty], c.seed, hseed, rfl, fun id => by simp [hempty]⟩
  · rename_i hmany
    obtain ⟨previous, mean, hprevious, hmean⟩ := exists_of_mergeable hc hmany
    have hrewrite := run_rewriteFragment py (g := c.mergedSeed previous) hseed rfl rfl
    obtain ⟨t, hrun, hrows⟩ := rows_mergeDuplicates c.seed.id c.rest
      (s.withFragments (s.db.fragments.upsert (c.mergedSeed previous)))
    refine ⟨⟨c.seed.id, c.rest.map Fragment.id, c.rest.length + 1, some mean⟩, t, ?_,
      fun g hg => ?_, ?_⟩
    · rw [hprevious, hmean, Client.run_bind, Client.run_ofExcept]
      dsimp only [Except.mapError]
      rw [Client.run_bind, Client.run_ofExcept]
      dsimp only
      rw [Client.run_bind, hrewrite]
      dsimp only
      rw [Client.run_bind, hrun]
      rfl
    · rw [hrows, LocalStore.withFragments_fragments,
        mem_upsert_iff_of_ne (f := c.mergedSeed previous) hg]
    · exact ⟨c.mergedSeed previous, (hrows _).mpr ⟨Table.mem_upsert_self _ _, hrest⟩, rfl,
        absorbed_mergedSeed hprevious⟩

/-! ### A deduplication -/

/-- An id is listed afterwards when a memory that stays lists it, or when it is
merged away itself. -/
theorem lists_mergeClusters (py : Python) {cs : List Cluster} {s : LocalStore}
    (hrows : ∀ c ∈ cs, ∀ f ∈ c.members, f ∈ s.db.fragments.rows)
    (hnodup : ((cs.flatMap Cluster.members).map Fragment.id).Nodup) (id : String) :
    ((Client.forMap (mergeCluster py) cs).run s).2.lists id ↔
      id ∈ mergedAway cs ∨
        ∃ f ∈ s.db.fragments.rows, f.id ∉ mergedAway cs ∧ f.absorbed id = true := by
  induction cs generalizing s with
  | nil => simp [Client.forMap, Client.run, mergedAway, LocalStore.lists]
  | cons c cs ih =>
    show LocalStore.lists (((mergeCluster py c) >>= fun y =>
      (Client.forMap (mergeCluster py) cs) >>= fun ys => pure (y :: ys)).run s).2 id ↔ _
    rw [Client.run_bind]
    cases hc : c.mergeable with
    | false =>
      obtain ⟨e, hrun⟩ := run_mergeCluster_error py hc s
      rw [hrun, mergedAway, List.takeWhile_cons_of_neg (by simp [hc])]
      simp [LocalStore.lists]
    | true =>
      rw [List.flatMap_cons, List.map_append, List.nodup_append] at hnodup
      obtain ⟨hmembers, hothers, hapart⟩ := hnodup
      have hrest : c.seed.id ∉ c.rest.map Fragment.id := (List.nodup_cons.mp hmembers).1
      obtain ⟨result, t, hrun, hmerged⟩ := run_mergeCluster_merged py
        (hrows c List.mem_cons_self c.seed List.mem_cons_self) hrest hc
      -- the members of the other clusters are still there
      have hfar : ∀ d ∈ cs, ∀ f ∈ d.members, f.id ≠ c.seed.id ∧ f.id ∉ c.rest.map Fragment.id := by
        intro d hd f hf
        have hmem : f.id ∈ (cs.flatMap Cluster.members).map Fragment.id :=
          List.mem_map_of_mem (List.mem_flatMap.mpr ⟨d, hd, hf⟩)
        exact ⟨fun he => hapart _ List.mem_cons_self _ hmem he.symm,
          fun hin => hapart _ (List.mem_cons_of_mem _ hin) _ hmem rfl⟩
      have hstay : ∀ d ∈ cs, ∀ f ∈ d.members, f ∈ t.db.fragments.rows := fun d hd f hf =>
        (hmerged.rows f (hfar d hd f hf).1).mpr
          ⟨hrows d (List.mem_cons_of_mem c hd) f hf, (hfar d hd f hf).2⟩
      have hseedaway : c.seed.id ∉ mergedAway cs := by
        intro hin
        obtain ⟨d, hd, f, hf, hid⟩ := mem_mergedAway.mp hin
        exact (hfar d (List.takeWhile_subset _ hd) f (List.mem_cons_of_mem _ hf)).1 hid
      have hstate : ((Client.forMap (mergeCluster py) cs >>= fun ys =>
          pure (result :: ys) : MemoryClient (List ClusterResult)).run t).2
            = ((Client.forMap (mergeCluster py) cs).run t).2 := by
        rw [Client.run_bind]
        cases (Client.forMap (mergeCluster py) cs).run t with
        | mk r u => cases r <;> rfl
      have haway : mergedAway (c :: cs) = c.rest.map Fragment.id ++ mergedAway cs := by
        rw [mergedAway, List.takeWhile_cons_of_pos hc, List.flatMap_cons]
        rfl
      rw [hrun]
      dsimp only
      rw [hstate, ih hstay hothers, haway]
      simp only [List.mem_append, not_or]
      obtain ⟨g, hg, hgid, hlists⟩ := hmerged.seed
      constructor
      · rintro (hin | ⟨f, hf, hfaway, habsorbed⟩)
        · exact .inl (.inr hin)
        · by_cases hfseed : f.id = c.seed.id
          · obtain rfl := t.db.fragments.eq_of_key hf hg (hfseed.trans hgid.symm)
            rcases (hlists id).mp habsorbed with hold | hnew
            · exact .inr ⟨c.seed, hrows c List.mem_cons_self c.seed List.mem_cons_self,
                ⟨hrest, hseedaway⟩, hold⟩
            · exact .inl (.inl hnew)
          · obtain ⟨hold, hfrest⟩ := (hmerged.rows f hfseed).mp hf
            exact .inr ⟨f, hold, ⟨hfrest, hfaway⟩, habsorbed⟩
      · rintro ((hin | hin) | ⟨f, hf, ⟨hfrest, hfaway⟩, habsorbed⟩)
        · exact .inr ⟨g, hg, hgid ▸ hseedaway, (hlists id).mpr (.inr hin)⟩
        · exact .inl hin
        · by_cases hfseed : f.id = c.seed.id
          · obtain rfl := s.db.fragments.eq_of_key hf
              (hrows c List.mem_cons_self c.seed List.mem_cons_self) hfseed
            exact .inr ⟨g, hg, hgid ▸ hseedaway, (hlists id).mpr (.inl habsorbed)⟩
          · exact .inr ⟨f, (hmerged.rows f hfseed).mpr ⟨hf, hfrest⟩, hfaway, habsorbed⟩

section Deduplicate

variable (py : Python) (cosine : List ℚ → List ℚ → ℚ) (threshold : ℚ) (agentId : String)
  (sessionId : Option String)

theorem lists_deduplicate (s : LocalStore) (id : String) :
    ((deduplicate py cosine threshold agentId sessionId).after s).lists id ↔
      ∃ f ∈ s.db.fragments.rows,
        f.id = id ∧ s.MergesAway cosine threshold agentId sessionId f ∨
        f.absorbed id = true ∧ ¬ s.MergesAway cosine threshold agentId sessionId f := by
  have hcs := clustersOf_dedupClusters cosine threshold agentId sessionId s
  obtain ⟨skipped, hplan⟩ := run_dedupPlan cosine threshold agentId sessionId s
  have hmerged := lists_mergeClusters py hcs.rows hcs.nodup id
  have hafter : (deduplicate py cosine threshold agentId sessionId).after s =
      ((Client.forMap (mergeCluster py)
        (s.dedupClusters cosine threshold agentId sessionId)).run s).2 := by
    unfold Client.after deduplicate
    rw [Client.run_bind, hplan]
    dsimp only
    rw [Client.run_bind]
    cases (Client.forMap (mergeCluster py)
        (s.dedupClusters cosine threshold agentId sessionId)).run s with
    | mk r t => cases r <;> rfl
  rw [hafter, hmerged, mem_mergedAway_dedupClusters]
  constructor
  · rintro (⟨f, hf, hid, haway⟩ | ⟨f, hf, haway, habsorbed⟩)
    · exact ⟨f, hf, .inl ⟨hid, haway⟩⟩
    · exact ⟨f, hf, .inr ⟨habsorbed, fun h => haway ((mergesAway_iff hf).mp h)⟩⟩
  · rintro ⟨f, hf, ⟨hid, haway⟩ | ⟨habsorbed, haway⟩⟩
    · exact .inl ⟨f, hf, hid, haway⟩
    · exact .inr ⟨f, hf, fun h => haway ((mergesAway_iff hf).mpr h), habsorbed⟩

/-- What a deduplication deletes is what it merges away. -/
theorem deleted_deduplicate_iff {s : LocalStore} {f : Fragment} (hf : f ∈ s.db.fragments.rows) :
    ((deduplicate py cosine threshold agentId sessionId).after s).get f.id = none ↔
      s.MergesAway cosine threshold agentId sessionId f :=
  (reduced_deduplicate py cosine threshold agentId sessionId s).get_eq_none_iff hf

/-- Each memory that is deleted is near one that stays. -/
theorem near_kept {s : LocalStore} {f : Fragment} (hf : f ∈ s.db.fragments.rows)
    (hdeleted : ((deduplicate py cosine threshold agentId sessionId).after s).get f.id = none) :
    ∃ g ∈ s.db.fragments.rows,
      (((deduplicate py cosine threshold agentId sessionId).after s).get g.id).isSome = true ∧
        f.near cosine threshold g = true := by
  rw [deleted_deduplicate_iff py cosine threshold agentId sessionId hf] at hdeleted
  obtain ⟨g, hmerges⟩ := hdeleted
  obtain ⟨hg, hnear, hstays⟩ := leader_stays hmerges
  refine ⟨g, hg, ?_, hnear⟩
  rw [Option.isSome_iff_ne_none, Ne,
    deleted_deduplicate_iff py cosine threshold agentId sessionId hg]
  exact hstays

end Deduplicate

/-! ### Runs -/

/-- A caller stores a memory, or deduplicates. -/
inductive DedupStep : Type
  | storeMemory (f : Fragment)
  | deduplicate (cosine : List ℚ → List ℚ → ℚ) (threshold : ℚ) (agentId : String)
      (sessionId : Option String)

/-- The store, and the ids that deduplications have deleted. -/
structure Deduplicated where
  store : LocalStore
  deleted : List String

/-- One call, with nothing in between; one that raises leaves what it has
written. -/
def DedupStep.step (py : Python) : DedupStep → Deduplicated → Deduplicated
  | .storeMemory f, r => { r with store := (insertFragment py f).after r.store }
  | .deduplicate cosine threshold agentId sessionId, r =>
      let store := (MarkSdk.deduplicate py cosine threshold agentId sessionId).after r.store
      { store := store
        deleted := r.deleted ++ (r.store.db.fragments.rows.map Fragment.id).filter fun id =>
          (store.get id).isNone }

/-- A memory that is stored has an id of its own. -/
def DedupStep.Fresh : DedupStep → Deduplicated → Prop
  | .storeMemory f, r => r.store.get f.id = none
  | .deduplicate .., _ => True

/-- Every id that a deduplication deleted is listed by a memory. -/
def Deduplicated.Provenance (r : Deduplicated) : Prop := ∀ id ∈ r.deleted, r.store.lists id

/-- When a memory is merged away that lists an id deleted before, another one
that is not lists it too, or the memory that has the id again is merged away
itself. -/
def DedupStep.KeepsLists : DedupStep → Deduplicated → Prop
  | .storeMemory _, _ => True
  | .deduplicate cosine threshold agentId sessionId, r =>
      ∀ f, r.store.MergesAway cosine threshold agentId sessionId f →
        ∀ id ∈ r.deleted, f.absorbed id = true →
          ∃ g ∈ r.store.db.fragments.rows,
            g.id = id ∧ r.store.MergesAway cosine threshold agentId sessionId g ∨
            g.absorbed id = true ∧ ¬ r.store.MergesAway cosine threshold agentId sessionId g

section Steps

variable {py : Python} {r : Deduplicated}

/-- A memory with a new id takes no list away. -/
theorem lists_insert {f : Fragment} (hnew : r.store.get f.id = none) {id : String}
    (h : r.store.lists id) : ((insertFragment py f).after r.store).lists id := by
  obtain ⟨g, hg, habsorbed⟩ := h
  have hexec : (store py f).exec r.store.db =
      .ok (f.id, { r.store.db with fragments := r.store.db.fragments.upsert f }) := by
    have hfind : r.store.db.fragments.find? f.id = none := hnew
    unfold store storeRow
    rw [Txn.exec_query_bind, hfind]
    rfl
  have hafter : (insertFragment py f).after r.store =
      r.store.withFragments (r.store.db.fragments.upsert f) := by
    have honDb := exec_onDb (store py f) r.store
    rw [hexec] at honDb
    unfold insertFragment callStore Client.after
    rw [Client.run_txn, Txn.apply, honDb]
    rfl
  rw [hafter]
  refine ⟨g, Table.mem_upsert_of_ne hg fun he => ?_, habsorbed⟩
  exact Table.find?_eq_none_iff.mp hnew g hg he

/-- A step loses no list exactly when it meets the condition. -/
theorem provenance_step {op : DedupStep} (hp : r.Provenance) (hfresh : op.Fresh r) :
    (op.step py r).Provenance ↔ op.KeepsLists r := by
  cases op with
  | storeMemory f => exact ⟨fun _ => trivial, fun _ id hid => lists_insert hfresh (hp id hid)⟩
  | deduplicate cosine threshold agentId sessionId =>
    constructor
    · intro hafter f _ id hid _
      exact (lists_deduplicate py cosine threshold agentId sessionId r.store id).mp
        (hafter id (List.mem_append_left _ hid))
    · intro hkeeps id hid
      refine (lists_deduplicate py cosine threshold agentId sessionId r.store id).mpr ?_
      rcases List.mem_append.mp hid with hold | hnew
      · obtain ⟨f, hf, habsorbed⟩ := hp id hold
        by_cases haway : r.store.MergesAway cosine threshold agentId sessionId f
        · exact hkeeps f haway id hold habsorbed
        · exact ⟨f, hf, .inr ⟨habsorbed, haway⟩⟩
      · obtain ⟨hrow, hnone⟩ := List.mem_filter.mp hnew
        obtain ⟨f, hf, rfl⟩ := List.mem_map.mp hrow
        exact ⟨f, hf, .inl ⟨rfl, (deleted_deduplicate_iff py cosine threshold agentId sessionId
          hf).mp (Option.isNone_iff_eq_none.mp hnone)⟩⟩

end Steps

/-- In a run of deduplications with new memories in between, every id that was
deleted is listed by a memory in every state, exactly when no deduplication
merges a memory away whose list no other one has. Every memory that a deduplication
of the run deletes is near one that it keeps. -/
theorem provenance_kept_iff (py : Python) (steps : List DedupStep) (s : LocalStore)
    (hfresh : Along (DedupStep.step py) DedupStep.Fresh steps ⟨s, []⟩) :
    (Along (DedupStep.step py) DedupStep.KeepsLists steps ⟨s, []⟩ ↔
      ∀ js, js <+: steps → (run (DedupStep.step py) js ⟨s, []⟩).Provenance) ∧
    ∀ js cosine threshold agentId sessionId ks,
      steps = js ++ .deduplicate cosine threshold agentId sessionId :: ks →
      ∀ f ∈ (run (DedupStep.step py) js ⟨s, []⟩).store.db.fragments.rows,
        ((deduplicate py cosine threshold agentId sessionId).after
            (run (DedupStep.step py) js ⟨s, []⟩).store).get f.id = none →
          ∃ g ∈ (run (DedupStep.step py) js ⟨s, []⟩).store.db.fragments.rows,
            (((deduplicate py cosine threshold agentId sessionId).after
              (run (DedupStep.step py) js ⟨s, []⟩).store).get g.id).isSome = true ∧
              f.near cosine threshold g = true := by
  constructor
  · exact along_iff_invariant_within (fun _ _ hp hf => provenance_step hp hf)
      (fun id hid => absurd hid List.not_mem_nil) hfresh
  · intro js cosine threshold agentId sessionId ks _ f hf hdeleted
    exact near_kept py cosine threshold agentId sessionId hf hdeleted

/-! ### A memory that absorbed another is absorbed -/

def dedupMemory (id : String) (importance : ℚ) : Fragment :=
  { plainMemory id "agent" "the port is 8080" 1 with
    importance := importance
    embedding := some [1] }

/-- The similarity of embeddings of length one. -/
def sameDirection (a b : List ℚ) : ℚ := if a = b then 1 else 0

/-- Two memories, which are merged. -/
def mergedOnce : List DedupStep :=
  [.storeMemory (dedupMemory "a" (1 / 4)), .storeMemory (dedupMemory "b" (1 / 2)),
    .deduplicate sameDirection (19 / 20) "agent" none]

/-- A third one of more importance, and they are merged again. -/
def mergedTwice : List DedupStep :=
  mergedOnce ++ [.storeMemory (dedupMemory "c" 1),
    .deduplicate sameDirection (19 / 20) "agent" none]

instance (s : LocalStore) (id : String) : Decidable (s.lists id) :=
  inferInstanceAs (Decidable (∃ f ∈ s.db.fragments.rows, f.absorbed id = true))

instance (r : Deduplicated) : Decidable r.Provenance :=
  inferInstanceAs (Decidable (∀ id ∈ r.deleted, r.store.lists id))

instance : (op : DedupStep) → (r : Deduplicated) → Decidable (op.Fresh r)
  | .storeMemory f, r => decidable_of_iff ((r.store.get f.id).isNone = true)
      Option.isNone_iff_eq_none
  | .deduplicate .., _ => isTrue trivial

theorem provenance_kept_once :
    (Along (DedupStep.step .basic) DedupStep.KeepsLists mergedOnce ⟨.empty, []⟩ ↔
      ∀ js, js <+: mergedOnce →
        (run (DedupStep.step .basic) js ⟨.empty, []⟩).Provenance) :=
  (provenance_kept_iff .basic mergedOnce .empty (by decide +kernel)).1

/-- The id of the first memory is lost with the second. -/
theorem provenance_lost :
    ¬ ∀ (py : Python) (steps : List DedupStep) (s : LocalStore),
      Along (DedupStep.step py) DedupStep.Fresh steps ⟨s, []⟩ →
        (run (DedupStep.step py) steps ⟨s, []⟩).Provenance := by
  intro hclaim
  exact absurd (hclaim .basic mergedTwice .empty (by decide +kernel)) (by decide +kernel)

end MarkSdk
