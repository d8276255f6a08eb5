import MarkSdk.Memory.Clusters

/-!
What a deduplication does to the fragments.

The plan only reads: it puts the fragments that may be merged into clusters,
each of them into one. Then, cluster by cluster, the seed is stored with the
ids of the others in its metadata, and the others are deleted. A cluster that
cannot be merged raises, and the clusters after it are left as they are.
-/

namespace MarkSdk

open Lib

/-! ### The plan -/

section Plan

variable {cosine : List ℚ → List ℚ → ℚ} {threshold : ℚ} {agentId : String}
  {sessionId : Option String}

theorem reads_collectMembers (m : SealedMembership) (blocks : List Block) :
    (collectMembers m blocks).Reads := by
  induction blocks generalizing m with
  | nil => trivial
  | cons block blocks ih =>
      unfold collectMembers
      split
      · exact Client.reads_bind (Client.reads_read _) fun _ =>
          Client.reads_bind (Client.reads_read _) fun _ =>
            Client.reads_bind (Client.reads_read _) fun _ => ih _
      · exact ih m

theorem reads_sealedMembership (agentId : String) : (sealedMembership agentId).Reads :=
  Client.reads_bind (Client.reads_read _) fun blocks => reads_collectMembers .empty blocks

/-- What the sealed blocks of the agent protect. -/
def LocalStore.membership (s : LocalStore) (agentId : String) : SealedMembership :=
  match (sealedMembership agentId).run s with
  | (.ok m, _) => m
  | (.error _, _) => .empty

theorem run_sealedMembership (agentId : String) (s : LocalStore) :
    (sealedMembership agentId).run s = (.ok (s.membership agentId), s) := by
  obtain ⟨m, hm⟩ := (reads_sealedMembership agentId).run s
  unfold LocalStore.membership
  rw [hm]

/-- Something is sealed, and a sealed node refers to the fragment. -/
def LocalStore.referred (s : LocalStore) (m : SealedMembership) (f : Fragment) : Bool :=
  m.truthy && (s.nodesForFragment f.id).any m.protectsNode

theorem run_referredBySealed (m : SealedMembership) (f : Fragment) (s : LocalStore) :
    (referredBySealed m f).run s = (.ok (s.referred m f), s) := by
  unfold referredBySealed LocalStore.referred
  split
  · rename_i hsealed
    rw [hsealed]
    rfl
  · rename_i hnone
    rw [Bool.eq_false_iff.mpr hnone]
    rfl

theorem run_referredBySealed_all (m : SealedMembership) (fs : List Fragment) (s : LocalStore) :
    (Client.forMap (fun f => do return (f, ← referredBySealed m f)) fs :
      MemoryClient (List (Fragment × Bool))).run s =
        (.ok (fs.map fun f => (f, s.referred m f)), s) := by
  induction fs with
  | nil => rfl
  | cons f fs ih =>
      show (((referredBySealed m f) >>= fun r => pure (f, r)) >>= fun y =>
        (Client.forMap (fun f => do return (f, ← referredBySealed m f)) fs) >>= fun ys =>
          (pure (y :: ys) : MemoryClient (List (Fragment × Bool)))).run s = _
      rw [Client.run_bind, Client.run_bind, run_referredBySealed]
      dsimp only [Client.run_pure]
      rw [Client.run_bind, ih]
      rfl

/-- The memories that a deduplication compares, the most important first. -/
def LocalStore.dedupCandidates (s : LocalStore) (agentId : String) (sessionId : Option String) :
    List Fragment :=
  byImportance ((s.listByAgent agentId sessionId).filter fun f =>
    dedupEligible (s.membership agentId) f && !s.referred (s.membership agentId) f && f.embedded)

/-- The clusters that a deduplication works through. -/
def LocalStore.dedupClusters (s : LocalStore) (cosine : List ℚ → List ℚ → ℚ) (threshold : ℚ)
    (agentId : String) (sessionId : Option String) : List Cluster :=
  buildClusters (Fragment.near cosine threshold) (s.dedupCandidates agentId sessionId)

theorem run_dedupPlan (cosine : List ℚ → List ℚ → ℚ) (threshold : ℚ) (agentId : String)
    (sessionId : Option String) (s : LocalStore) :
    ∃ skipped, (dedupPlan cosine threshold agentId sessionId).run s =
      (.ok (skipped, s.dedupClusters cosine threshold agentId sessionId), s) := by
  have hcandidates : byImportance (((((s.listByAgent agentId sessionId).filter
      (dedupEligible (s.membership agentId))).map fun f =>
        (f, s.referred (s.membership agentId) f)).filter fun p => !p.2).map
          Prod.fst |>.filter Fragment.embedded) = s.dedupCandidates agentId sessionId := by
    unfold LocalStore.dedupCandidates
    simp only [List.filter_map, List.map_map, List.filter_filter]
    rw [show (Prod.fst ∘ fun f => (f, s.referred (s.membership agentId) f)) = id from rfl,
      List.map_id]
    congr 2
    funext f
    show (f.embedded && (!s.referred (s.membership agentId) f &&
      dedupEligible (s.membership agentId) f)) = _
    rw [Bool.and_comm, Bool.and_comm (!_)]
  unfold dedupPlan
  rw [Client.run_bind, Client.run_read]
  dsimp only
  rw [Client.run_bind, run_sealedMembership]
  dsimp only
  rw [Client.run_bind, run_referredBySealed_all]
  dsimp only
  rw [hcandidates]
  exact ⟨_, rfl⟩

/-- Clusters of rows of the store, no row in two of them. -/
structure ClustersOf (cosine : List ℚ → List ℚ → ℚ) (threshold : ℚ) (s : LocalStore)
    (cs : List Cluster) : Prop where
  rows : ∀ c ∈ cs, ∀ f ∈ c.members, f ∈ s.db.fragments.rows
  nodup : ((cs.flatMap Cluster.members).map Fragment.id).Nodup
  near : ∀ c ∈ cs, ∀ f ∈ c.rest, Fragment.near cosine threshold f c.seed = true

/-- What is put into clusters is a part of what was listed. -/
theorem clustersOf_buildClusters {s : LocalStore} {embedded : List Fragment}
    (h : embedded.Sublist (s.listByAgent agentId sessionId)) :
    ClustersOf cosine threshold s
      (buildClusters (Fragment.near cosine threshold) (byImportance embedded)) := by
  have hmembers : ((buildClusters (Fragment.near cosine threshold)
      (byImportance embedded)).flatMap Cluster.members).Perm embedded :=
    (flatMap_members_buildClusters (byImportance embedded)).trans (List.perm_insertionSort _ embedded)
  have hlisted : (s.listByAgent agentId sessionId).Perm _ := List.perm_insertionSort _ _
  constructor
  · intro c hc f hf
    have hmem : f ∈ embedded := hmembers.mem_iff.mp (List.mem_flatMap.mpr ⟨c, hc, hf⟩)
    exact (List.mem_filter.mp (hlisted.mem_iff.mp (h.subset hmem))).1
  · rw [(hmembers.map Fragment.id).nodup_iff]
    refine List.Nodup.sublist (h.map Fragment.id) ?_
    rw [(hlisted.map Fragment.id).nodup_iff]
    exact s.db.fragments.nodup.sublist (List.filter_sublist.map Fragment.id)
  · exact near_buildClusters (byImportance embedded)

theorem clustersOf_dedupClusters (cosine : List ℚ → List ℚ → ℚ) (threshold : ℚ) (agentId : String)
    (sessionId : Option String) (s : LocalStore) :
    ClustersOf cosine threshold s (s.dedupClusters cosine threshold agentId sessionId) :=
  clustersOf_buildClusters List.filter_sublist

/-- The memory is merged into another one: it is near it, and near no leader
before it, and no leader up to it refuses. -/
def LocalStore.Merges (s : LocalStore) (cosine : List ℚ → List ℚ → ℚ) (threshold : ℚ)
    (agentId : String) (sessionId : Option String) (f g : Fragment) : Prop :=
  ∃ lead, Leading (Fragment.near cosine threshold) (s.dedupCandidates agentId sessionId) lead ∧
    MergedInto (Fragment.near cosine threshold) (s.dedupCandidates agentId sessionId) lead f g

/-- The memory is merged into some other one. -/
def LocalStore.MergesAway (s : LocalStore) (cosine : List ℚ → List ℚ → ℚ) (threshold : ℚ)
    (agentId : String) (sessionId : Option String) (f : Fragment) : Prop :=
  ∃ g, s.Merges cosine threshold agentId sessionId f g

theorem dedupCandidates_perm (s : LocalStore) (agentId : String) (sessionId : Option String) :
    (s.dedupCandidates agentId sessionId).Perm ((s.listByAgent agentId sessionId).filter fun f =>
      dedupEligible (s.membership agentId) f && !s.referred (s.membership agentId) f &&
        f.embedded) :=
  List.perm_insertionSort _ _

theorem dedupCandidates_rows {s : LocalStore} {f : Fragment}
    (hf : f ∈ s.dedupCandidates agentId sessionId) : f ∈ s.db.fragments.rows := by
  have hlisted := (List.mem_filter.mp ((dedupCandidates_perm s agentId sessionId).mem_iff.mp hf)).1
  unfold LocalStore.listByAgent at hlisted
  rw [List.mem_insertionSort] at hlisted
  exact (List.mem_filter.mp hlisted).1

theorem dedupCandidates_nodup (s : LocalStore) (agentId : String) (sessionId : Option String) :
    (s.dedupCandidates agentId sessionId).Nodup := by
  have hrows : s.db.fragments.rows.Nodup := s.db.fragments.nodup.of_map _
  rw [(dedupCandidates_perm s agentId sessionId).nodup_iff]
  refine List.Nodup.filter _ ?_
  unfold LocalStore.listByAgent
  rw [(List.perm_insertionSort _ _).nodup_iff]
  exact hrows.filter _

/-- What is merged away is told from the memories. -/
theorem mem_mergedAway_dedupClusters {s : LocalStore} {id : String} :
    id ∈ mergedAway (s.dedupClusters cosine threshold agentId sessionId) ↔
      ∃ f ∈ s.db.fragments.rows, f.id = id ∧
        s.MergesAway cosine threshold agentId sessionId f := by
  have hnodup := dedupCandidates_nodup s agentId sessionId
  constructor
  · intro hmem
    obtain ⟨lead, hlead⟩ : ∃ lead, Leading (Fragment.near cosine threshold)
        (s.dedupCandidates agentId sessionId) lead := exists_leading hnodup
    obtain ⟨f, g, hid, hmerged⟩ := (mem_mergedAway_iff hnodup hlead).mp hmem
    exact ⟨f, dedupCandidates_rows hmerged.member, hid, g, lead, hlead, hmerged⟩
  · rintro ⟨f, -, hid, g, lead, hlead, hmerged⟩
    exact (mem_mergedAway_iff hnodup hlead).mpr ⟨f, g, hid, hmerged⟩

end Plan

/-! ### The writes -/

def LocalStore.withFragments (s : LocalStore) (fragments : Table Fragment.id) : LocalStore :=
  { s with db := { s.db with fragments := fragments } }

@[simp] theorem LocalStore.withFragments_fragments (s : LocalStore) (fragments : Table Fragment.id) :
    (s.withFragments fragments).db.fragments = fragments := rfl

/-- A row is replaced by one of the same agent. -/
theorem run_rewriteFragment (py : Python) {s : LocalStore} {f g : Fragment}
    (hf : f ∈ s.db.fragments.rows) (hid : f.id = g.id) (hagent : f.agentId = g.agentId) :
    (rewriteFragment py g).run s = (.ok (), s.withFragments (s.db.fragments.upsert g)) := by
  have hexec : (store py g).exec s.db =
      .ok (g.id, { s.db with fragments := s.db.fragments.upsert g }) := by
    have hfind : s.db.fragments.find? g.id = some f := Table.find?_eq_some_iff.mpr ⟨hf, hid⟩
    unfold store storeRow
    rw [Txn.exec_query_bind, hfind]
    simp [hagent]
  have honDb := exec_onDb (store py g) s
  rw [hexec] at honDb
  unfold rewriteFragment callStore
  rw [Client.run_bind, Client.run_txn, Txn.outcome, Txn.apply, honDb]
  rfl

theorem run_removeFragment (s : LocalStore) (id : String) :
    (removeFragment id).run s =
      (.ok (), s.withFragments (s.db.fragments.delete fun r => r.id = id)) := by
  have hexec : ∃ removed, (deleteById id).exec s.db =
      .ok (removed, { s.db with fragments := s.db.fragments.delete fun r => r.id = id }) := by
    unfold deleteById
    rw [Txn.exec_query_bind]
    cases h : s.db.fragments.find? id with
    | some row => exact ⟨true, rfl⟩
    | none =>
        refine ⟨false, ?_⟩
        have hsame : s.db.fragments.delete (fun r => r.id = id) = s.db.fragments := by
          apply Table.ext
          rw [Table.rows_delete, List.filter_eq_self]
          intro r hr
          simpa using Table.find?_eq_none_iff.mp h r hr
        rw [hsame]
        rfl
  obtain ⟨removed, hexec⟩ := hexec
  have honDb := exec_onDb (deleteById id) s
  rw [hexec] at honDb
  unfold removeFragment callStore
  rw [Client.run_bind, Client.run_txn, Txn.outcome, Txn.apply, honDb]
  rfl

/-- Nodes are stored next to the fragments. -/
theorem run_storeNodes (change : Node → Node) (nodes : List Node) (s : LocalStore) :
    ∃ s', (Client.forEach (fun node => callStoreNode (change node)) nodes).run s = (.ok (), s') ∧
      s'.db = s.db := by
  induction nodes generalizing s with
  | nil => exact ⟨s, rfl, rfl⟩
  | cons node nodes ih =>
      obtain ⟨s', hrun, hdb⟩ := ih (s.onGraph fun g =>
        { g with nodes := g.nodes.insertOrReplace (change node) })
      exact ⟨s', hrun, hdb⟩

/-! ### The same memories -/

/-- The same memory, with other notes in its metadata. -/
structure SameMemory (f g : Fragment) : Prop where
  metadata : g = { f with metadata := g.metadata }
  link : g.metadata.lookup "superseded_by" = f.metadata.lookup "superseded_by"

theorem SameMemory.refl (f : Fragment) : SameMemory f f := ⟨rfl, rfl⟩

theorem SameMemory.trans {f g h : Fragment} (hfg : SameMemory f g) (hgh : SameMemory g h) :
    SameMemory f h where
  metadata := by
    rw [hgh.metadata, hfg.metadata]
  link := hgh.link.trans hfg.link

theorem SameMemory.id_eq {f g : Fragment} (h : SameMemory f g) : g.id = f.id := by
  rw [h.metadata]

theorem SameMemory.agentId_eq {f g : Fragment} (h : SameMemory f g) : g.agentId = f.agentId := by
  rw [h.metadata]

/-- Some memories have gone, and the others are the same. -/
structure Reduced (gone : List String) (s s' : LocalStore) : Prop where
  stays : ∀ f ∈ s.db.fragments.rows, f.id ∉ gone → ∃ g ∈ s'.db.fragments.rows, SameMemory f g
  left : ∀ g ∈ s'.db.fragments.rows, g.id ∉ gone ∧ ∃ f ∈ s.db.fragments.rows, SameMemory f g

section Reduced

variable {s s' : LocalStore} {gone : List String}

theorem Reduced.refl (s : LocalStore) : Reduced [] s s :=
  ⟨fun f hf _ => ⟨f, hf, .refl f⟩, fun g hg => ⟨List.not_mem_nil, g, hg, .refl g⟩⟩

theorem Reduced.of_db {s'' : LocalStore} (h : Reduced gone s s') (hdb : s''.db = s'.db) :
    Reduced gone s s'' := by
  refine ⟨fun f hf hgone => ?_, fun g hg => ?_⟩
  · rw [hdb]
    exact h.stays f hf hgone
  · rw [hdb] at hg
    exact h.left g hg

/-- A memory that is still there is stored with other notes. -/
theorem Reduced.upsert (h : Reduced gone s s') {f g : Fragment} (hf : f ∈ s.db.fragments.rows)
    (hgone : f.id ∉ gone) (hsame : SameMemory f g) :
    Reduced gone s (s'.withFragments (s'.db.fragments.upsert g)) := by
  constructor
  · intro f' hf' hgone'
    obtain ⟨g', hg', hsame'⟩ := h.stays f' hf' hgone'
    rw [LocalStore.withFragments_fragments, Table.rows_upsert]
    by_cases hid : f'.id = f.id
    · obtain rfl := s.db.fragments.eq_of_key hf' hf hid
      have hkey : g.id ∈ s'.db.fragments.rows.map Fragment.id :=
        List.mem_map.mpr ⟨g', hg', hsame'.id_eq.trans hsame.id_eq.symm⟩
      rw [if_pos hkey]
      refine ⟨g, List.mem_map.mpr ⟨g', hg', if_pos ?_⟩, hsame⟩
      exact hsame'.id_eq.trans hsame.id_eq.symm
    · have hne : g'.id ≠ g.id := by
        rw [hsame'.id_eq, hsame.id_eq]
        exact hid
      split
      · exact ⟨g', List.mem_map.mpr ⟨g', hg', if_neg hne⟩, hsame'⟩
      · exact ⟨g', List.mem_append_left _ hg', hsame'⟩
  · intro g' hg'
    rcases Table.mem_upsert hg' with hold | rfl
    · exact h.left g' hold
    · refine ⟨?_, f, hf, hsame⟩
      rw [hsame.id_eq]
      exact hgone

theorem Reduced.delete (h : Reduced gone s s') (id : String) :
    Reduced (gone ++ [id]) s
      (s'.withFragments (s'.db.fragments.delete fun r => r.id = id)) := by
  constructor
  · intro f hf hgone
    rw [List.mem_append, not_or, List.mem_singleton] at hgone
    obtain ⟨g, hg, hsame⟩ := h.stays f hf hgone.1
    refine ⟨g, List.mem_filter.mpr ⟨hg, ?_⟩, hsame⟩
    have hne : g.id ≠ id := by
      rw [hsame.id_eq]
      exact hgone.2
    simpa using hne
  · intro g hg
    obtain ⟨hold, hne⟩ := List.mem_filter.mp hg
    obtain ⟨hgone, hsame⟩ := h.left g hold
    refine ⟨?_, hsame⟩
    rw [List.mem_append, not_or, List.mem_singleton]
    exact ⟨hgone, by simpa using hne⟩

end Reduced

end MarkSdk
