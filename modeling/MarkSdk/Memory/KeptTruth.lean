import MarkSdk.Blocks.Maintained
import MarkSdk.Memory.Merging
import MarkSdk.Memory.Revisions

/-!
Deduplication and the truth of memories.

The memory of a cluster that stays is the most important one, whatever its
state, its tags and its expiry. Exactly when no true memory is merged into one
that is not, and no link leads to a memory that is merged away, does a
deduplication keep the truth (`deduplicate_keeps_truth`).
-/

namespace MarkSdk

open Lib

def isOpen (tags : List String) : Bool :=
  !tags.contains tagResolved && !tags.contains tagSuperseded

/-- Retrievable, unexpired and current. -/
def Fragment.truthful (now : Int) (f : Fragment) : Bool :=
  f.state.retrievable && !f.isExpired now && isOpen f.tags

/-- Each true memory that is deleted leaves a true one near it, and the links
of the memories that are left still lead to a memory. -/
structure KeepsTruth (py : Python) (cosine : List ℚ → List ℚ → ℚ) (threshold : ℚ) (now : Int)
    (s s' : LocalStore) : Prop where
  current : ∀ f ∈ s.db.fragments.rows, s'.get f.id = none → f.truthful now = true →
    ∃ g ∈ s'.db.fragments.rows, g.truthful now = true ∧ f.near cosine threshold g = true
  links : ∀ g ∈ s'.db.fragments.rows, ∀ next, g.supersededBy py = some next →
    (s.get next).isSome = true → (s'.get next).isSome = true

/-! ### What a merge leaves alone -/

section Same

variable {f g : Fragment} {cosine : List ℚ → List ℚ → ℚ} {threshold : ℚ}

theorem SameMemory.truthful_eq (h : SameMemory f g) (now : Int) :
    g.truthful now = f.truthful now := by
  rw [h.metadata]
  rfl

theorem SameMemory.near_eq (h : SameMemory f g) (e : Fragment) :
    e.near cosine threshold g = e.near cosine threshold f := by
  rw [h.metadata]
  rfl

theorem SameMemory.supersededBy_eq (h : SameMemory f g) (py : Python) :
    g.supersededBy py = f.supersededBy py := by
  unfold Fragment.supersededBy
  rw [h.link]

end Same

theorem sameMemory_mergedSeed (c : Cluster) (previous : List PyValue) :
    SameMemory c.seed (c.mergedSeed previous) where
  metadata := rfl
  link := by
    show (mergedMetadata _ _ _ _).lookup "superseded_by" = _
    unfold mergedMetadata
    rw [lookup_assign_ne _ (by decide), lookup_assign_ne _ (by decide)]

/-! ### The run -/

section Run

variable {s s' : LocalStore} {gone : List String}

theorem run_mergeDuplicate (h : Reduced gone s s') (seedId : String) (dup : Fragment) :
    ∃ s'', (mergeDuplicate seedId dup).run s' = (.ok (), s'') ∧
      Reduced (gone ++ [dup.id]) s s'' := by
  obtain ⟨t, hrun, hdb⟩ := run_storeNodes (fun node => { node with fragmentId := some seedId })
    (s'.nodesForFragment dup.id) s'
  refine ⟨_, ?_, (h.of_db hdb).delete dup.id⟩
  unfold mergeDuplicate
  rw [Client.run_bind, Client.run_read]
  dsimp only
  rw [Client.run_bind, hrun]
  exact run_removeFragment t dup.id

theorem run_mergeDuplicates (h : Reduced gone s s') (seedId : String) (rest : List Fragment) :
    ∃ s'', (Client.forEach (mergeDuplicate seedId) rest).run s' = (.ok (), s'') ∧
      Reduced (gone ++ rest.map Fragment.id) s s'' := by
  induction rest generalizing gone s' with
  | nil => exact ⟨s', rfl, by simpa using h⟩
  | cons dup rest ih =>
      obtain ⟨t, hrun, hreduced⟩ := run_mergeDuplicate h seedId dup
      obtain ⟨u, hrest, hdone⟩ := ih hreduced
      refine ⟨u, ?_, ?_⟩
      · show ((mergeDuplicate seedId dup) >>= fun _ =>
          Client.forEach (mergeDuplicate seedId) rest).run s' = _
        rw [Client.run_bind, hrun]
        exact hrest
      · rw [List.append_assoc] at hdone
        exact hdone

/-- The list of earlier merges and the mean of a cluster that can be merged. -/
theorem exists_of_mergeable {c : Cluster} (hc : c.mergeable = true)
    (hmany : ¬ c.rest.isEmpty = true) :
    ∃ previous mean, previouslyMerged c.seed.metadata = .ok previous ∧
      centroid (c.members.map Fragment.vector) = .ok mean := by
  rw [Cluster.mergeable, Bool.or_eq_true, Bool.and_eq_true] at hc
  obtain ⟨hlist, hmean⟩ := hc.resolve_left hmany
  cases hp : previouslyMerged c.seed.metadata with
  | error e => rw [hp] at hlist; cases hlist
  | ok previous =>
      cases hm : centroid (c.members.map Fragment.vector) with
      | error e => rw [hm] at hmean; cases hmean
      | ok mean => exact ⟨previous, mean, rfl, rfl⟩

/-- A cluster that can be merged is reduced to its seed. -/
theorem run_mergeCluster (py : Python) (h : Reduced gone s s') {c : Cluster}
    (hseed : c.seed ∈ s.db.fragments.rows) (hgone : c.seed.id ∉ gone) (hc : c.mergeable = true) :
    ∃ result s'', (mergeCluster py c).run s' = (.ok result, s'') ∧
      Reduced (gone ++ c.rest.map Fragment.id) s s'' := by
  unfold mergeCluster
  split
  · rename_i hempty
    rw [List.isEmpty_iff] at hempty
    exact ⟨_, s', rfl, by simpa [hempty] using h⟩
  · rename_i hmany
    obtain ⟨previous, mean, hprevious, hmean⟩ := exists_of_mergeable hc hmany
    have hsame := sameMemory_mergedSeed c previous
    obtain ⟨g, hg, hgsame⟩ := h.stays c.seed hseed hgone
    have hrewrite := run_rewriteFragment py hg (hgsame.id_eq.trans hsame.id_eq.symm)
      (hgsame.agentId_eq.trans hsame.agentId_eq.symm)
    obtain ⟨t, hrun, hreduced⟩ := run_mergeDuplicates (h.upsert hseed hgone hsame) c.seed.id c.rest
    refine ⟨⟨c.seed.id, c.rest.map Fragment.id, c.rest.length + 1, some mean⟩, t, ?_, hreduced⟩
    rw [hprevious, hmean, Client.run_bind, Client.run_ofExcept]
    dsimp only [Except.mapError]
    rw [Client.run_bind, Client.run_ofExcept]
    dsimp only
    rw [Client.run_bind, hrewrite]
    dsimp only
    rw [Client.run_bind, hrun]
    rfl

/-- A cluster that cannot be merged raises before anything is written. -/
theorem run_mergeCluster_error (py : Python) {c : Cluster} (hc : c.mergeable = false)
    (s' : LocalStore) : ∃ e, (mergeCluster py c).run s' = (.error e, s') := by
  rw [Cluster.mergeable, Bool.or_eq_false_iff] at hc
  unfold mergeCluster
  rw [if_neg (by rw [hc.1]; exact Bool.false_ne_true)]
  cases hp : previouslyMerged c.seed.metadata with
  | error e => exact ⟨.store e, by rw [Client.run_bind]; rfl⟩
  | ok previous =>
      cases hm : centroid (c.members.map Fragment.vector) with
      | error e =>
          refine ⟨.store e, ?_⟩
          rw [Client.run_bind, Client.run_ofExcept]
          dsimp only [Except.mapError]
          rw [Client.run_bind]
          rfl
      | ok mean => simp [hp, hm, Except.toBool] at hc

/-- The clusters are merged one after another, up to the first that cannot
be. -/
theorem run_mergeClusters (py : Python) {cs : List Cluster} (h : Reduced gone s s')
    (hrows : ∀ c ∈ cs, ∀ f ∈ c.members, f ∈ s.db.fragments.rows)
    (hnodup : ((cs.flatMap Cluster.members).map Fragment.id).Nodup)
    (hgone : ∀ c ∈ cs, ∀ f ∈ c.members, f.id ∉ gone) :
    Reduced (gone ++ mergedAway cs) s ((Client.forMap (mergeCluster py) cs).run s').2 := by
  induction cs generalizing gone s' with
  | nil =>
      show Reduced (gone ++ []) s s'
      rw [List.append_nil]
      exact h
  | cons c cs ih =>
      show Reduced _ s (((mergeCluster py c) >>= fun y =>
        (Client.forMap (mergeCluster py) cs) >>= fun ys => pure (y :: ys)).run s').2
      rw [Client.run_bind]
      cases hc : c.mergeable with
      | false =>
          obtain ⟨e, hrun⟩ := run_mergeCluster_error py hc s'
          rw [hrun, mergedAway, List.takeWhile_cons_of_neg (by simp [hc])]
          simpa using h
      | true =>
          obtain ⟨result, t, hrun, hreduced⟩ := run_mergeCluster py h
            (hrows c List.mem_cons_self c.seed List.mem_cons_self)
            (hgone c List.mem_cons_self c.seed List.mem_cons_self) hc
          rw [hrun, mergedAway, List.takeWhile_cons_of_pos hc, List.flatMap_cons,
            ← List.append_assoc]
          dsimp only
          rw [List.flatMap_cons, List.map_append, List.nodup_append] at hnodup
          have hrest := ih hreduced (fun d hd => hrows d (List.mem_cons_of_mem c hd)) hnodup.2.1
            fun d hd f hf hmem => by
              rcases List.mem_append.mp hmem with hold | hnew
              · exact hgone d (List.mem_cons_of_mem c hd) f hf hold
              · refine hnodup.2.2 f.id ?_ f.id ?_ rfl
                · exact List.mem_cons_of_mem _ hnew
                · exact List.mem_map_of_mem (List.mem_flatMap.mpr ⟨d, hd, hf⟩)
          rw [Client.run_bind]
          cases hcs : (Client.forMap (mergeCluster py) cs).run t with
          | mk r u =>
              rw [hcs] at hrest
              cases r with
              | ok results => exact hrest
              | error e => exact hrest

end Run

/-! ### When the truth is kept -/

/-- No true memory is merged into one that is not, unless another true one
near it is not merged away, and no memory that is not merged away has a link
to one that is. -/
structure SafeToMerge (py : Python) (cosine : List ℚ → List ℚ → ℚ) (threshold : ℚ)
    (agentId : String) (sessionId : Option String) (now : Int) (s : LocalStore) : Prop where
  leaders : ∀ f g, s.Merges cosine threshold agentId sessionId f g → f.truthful now = true →
    g.truthful now = true ∨
      ∃ h ∈ s.db.fragments.rows, ¬ s.MergesAway cosine threshold agentId sessionId h ∧
        h.truthful now = true ∧ f.near cosine threshold h = true
  links : ∀ g ∈ s.db.fragments.rows, ¬ s.MergesAway cosine threshold agentId sessionId g →
    ∀ f, s.MergesAway cosine threshold agentId sessionId f → g.supersededBy py ≠ some f.id

section Truth

variable {py : Python} {cosine : List ℚ → List ℚ → ℚ} {threshold : ℚ} {agentId : String}
  {sessionId : Option String} {s s' : LocalStore}

theorem get_isSome_iff {id : String} :
    (s.get id).isSome = true ↔ ∃ f ∈ s.db.fragments.rows, f.id = id := by
  unfold LocalStore.get
  rw [Option.isSome_iff_exists]
  simp only [Table.find?_eq_some_iff]

theorem mergesAway_rows {f : Fragment} (h : s.MergesAway cosine threshold agentId sessionId f) :
    f ∈ s.db.fragments.rows := by
  obtain ⟨g, lead, -, hmerged⟩ := h
  exact dedupCandidates_rows hmerged.member

/-- A row is merged away exactly when its id is. -/
theorem mergesAway_iff {f : Fragment} (hf : f ∈ s.db.fragments.rows) :
    s.MergesAway cosine threshold agentId sessionId f ↔
      f.id ∈ mergedAway (s.dedupClusters cosine threshold agentId sessionId) := by
  rw [mem_mergedAway_dedupClusters]
  constructor
  · exact fun h => ⟨f, hf, rfl, h⟩
  · rintro ⟨f', hf', hid, h⟩
    rwa [s.db.fragments.eq_of_key hf' hf hid] at h

/-- A memory that others are merged into is a row near them, and is not merged
away. -/
theorem leader_stays {f g : Fragment} (h : s.Merges cosine threshold agentId sessionId f g) :
    g ∈ s.db.fragments.rows ∧ f.near cosine threshold g = true ∧
      ¬ s.MergesAway cosine threshold agentId sessionId g := by
  obtain ⟨lead, hlead, hmerged⟩ := h
  obtain ⟨earlier, later, hsplit, -⟩ := hmerged.first
  have hg : g ∈ s.db.fragments.rows :=
    dedupCandidates_rows (hsplit ▸ List.mem_append_right _ List.mem_cons_self)
  refine ⟨hg, hmerged.alike, fun haway => ?_⟩
  rw [mergesAway_iff hg, LocalStore.dedupClusters,
    mem_mergedAway_iff (dedupCandidates_nodup s agentId sessionId) hlead] at haway
  obtain ⟨g', e, hid, hmerged'⟩ := haway
  obtain rfl := s.db.fragments.eq_of_key (dedupCandidates_rows hmerged'.member) hg hid
  exact hmerged'.follows hmerged.leader

/-- What is deleted is what is merged away. -/
theorem Reduced.get_eq_none_iff
    (h : Reduced (mergedAway (s.dedupClusters cosine threshold agentId sessionId)) s s')
    {f : Fragment} (hf : f ∈ s.db.fragments.rows) :
    s'.get f.id = none ↔ s.MergesAway cosine threshold agentId sessionId f := by
  rw [mergesAway_iff hf]
  unfold LocalStore.get
  rw [Table.find?_eq_none_iff]
  constructor
  · intro hnone
    by_contra hstays
    obtain ⟨g, hg, hsame⟩ := h.stays f hf hstays
    exact hnone g hg hsame.id_eq
  · intro hmem g hg hid
    exact (h.left g hg).1 (hid ▸ hmem)

/-- What is true of the reduced store is true of the memories before. -/
theorem keepsTruth_iff
    (h : Reduced (mergedAway (s.dedupClusters cosine threshold agentId sessionId)) s s')
    (now : Int) :
    KeepsTruth py cosine threshold now s s' ↔
      SafeToMerge py cosine threshold agentId sessionId now s := by
  -- a row that is not merged away is there afterwards, with other notes
  have hstays : ∀ g ∈ s.db.fragments.rows, ¬ s.MergesAway cosine threshold agentId sessionId g →
      ∃ g' ∈ s'.db.fragments.rows, SameMemory g g' := fun g hg haway =>
    h.stays g hg fun hmem => haway ((mergesAway_iff hg).mpr hmem)
  have hleft : ∀ g' ∈ s'.db.fragments.rows, ∃ g ∈ s.db.fragments.rows,
      ¬ s.MergesAway cosine threshold agentId sessionId g ∧ SameMemory g g' := by
    intro g' hg'
    obtain ⟨hgone, g, hg, hsame⟩ := h.left g' hg'
    refine ⟨g, hg, fun haway => hgone ?_, hsame⟩
    rw [hsame.id_eq]
    exact (mergesAway_iff hg).mp haway
  constructor
  · intro hkeeps
    constructor
    · intro f g hmerges htrue
      have haway : s.MergesAway cosine threshold agentId sessionId f := ⟨g, hmerges⟩
      have hf := mergesAway_rows haway
      obtain ⟨h', hh', hhtrue, hnear⟩ :=
        hkeeps.current f hf ((h.get_eq_none_iff hf).mpr haway) htrue
      obtain ⟨h₀, hh₀, hhstays, hsame⟩ := hleft h' hh'
      rw [hsame.truthful_eq] at hhtrue
      rw [hsame.near_eq] at hnear
      exact .inr ⟨h₀, hh₀, hhstays, hhtrue, hnear⟩
    · intro g hg hgstays f haway hlink
      have hf := mergesAway_rows haway
      obtain ⟨g', hg', hsame⟩ := hstays g hg hgstays
      have hleads := hkeeps.links g' hg' f.id (by rw [hsame.supersededBy_eq, hlink])
        (get_isSome_iff.mpr ⟨f, hf, rfl⟩)
      rw [(h.get_eq_none_iff hf).mpr haway] at hleads
      cases hleads
  · intro hsafe
    constructor
    · intro f hf hnone htrue
      obtain ⟨g, hmerges⟩ := (h.get_eq_none_iff hf).mp hnone
      -- the memory that it is merged into, or the one that the condition names
      have hother : ∃ e ∈ s.db.fragments.rows,
          ¬ s.MergesAway cosine threshold agentId sessionId e ∧
            e.truthful now = true ∧ f.near cosine threshold e = true := by
        obtain ⟨hg, hnear, hgstays⟩ := leader_stays hmerges
        rcases hsafe.leaders f g hmerges htrue with hleader | hother
        · exact ⟨g, hg, hgstays, hleader, hnear⟩
        · exact hother
      obtain ⟨e, he, hestays, hetrue, hnear⟩ := hother
      obtain ⟨e', he', hsame⟩ := hstays e he hestays
      refine ⟨e', he', ?_, ?_⟩
      · rw [hsame.truthful_eq, hetrue]
      · rw [hsame.near_eq, hnear]
    · intro g' hg' next hnext hthere
      obtain ⟨g, hg, hgstays, hsame⟩ := hleft g' hg'
      rw [hsame.supersededBy_eq] at hnext
      obtain ⟨f, hf, rfl⟩ := get_isSome_iff.mp hthere
      obtain ⟨f', hf', hsame'⟩ := hstays f hf fun haway => hsafe.links g hg hgstays f haway hnext
      exact get_isSome_iff.mpr ⟨f', hf', hsame'.id_eq⟩

end Truth

theorem reduced_deduplicate (py : Python) (cosine : List ℚ → List ℚ → ℚ) (threshold : ℚ)
    (agentId : String) (sessionId : Option String) (s : LocalStore) :
    Reduced (mergedAway (s.dedupClusters cosine threshold agentId sessionId)) s
      ((deduplicate py cosine threshold agentId sessionId).after s) := by
  have hcs := clustersOf_dedupClusters cosine threshold agentId sessionId s
  obtain ⟨skipped, hplan⟩ := run_dedupPlan cosine threshold agentId sessionId s
  have hmerged := run_mergeClusters py (Reduced.refl s) hcs.rows hcs.nodup
    fun _ _ _ _ => List.not_mem_nil
  rw [List.nil_append] at hmerged
  unfold Client.after deduplicate
  rw [Client.run_bind, hplan]
  dsimp only
  rw [Client.run_bind]
  cases hrun : (Client.forMap (mergeCluster py)
      (s.dedupClusters cosine threshold agentId sessionId)).run s with
  | mk r s' =>
      rw [hrun] at hmerged
      cases r with
      | ok results => exact hmerged
      | error e => exact hmerged

/-- A write path whose embedder gives every text the same vector. -/
def WritePath.alike : WritePath := { WritePath.plain with embed := fun _ => some [1] }

/-- Facade calls and maintenance jobs. -/
def storeStep (py : Python) (w : WritePath) :
    (String × Int × MemoryCall) ⊕ (String × MaintenanceJob) → LocalStore → LocalStore
  | .inl call => MemoryCall.step py w call
  | .inr job => MaintenanceJob.step py job

/-- Two memories of different importance. -/
def rememberedTwice : List ((String × Int × MemoryCall) ⊕ (String × MaintenanceJob)) :=
  [.inl ("a", 1, .remember "first" "the port is 8080" { importance := 9 / 10 }),
    .inl ("a", 2, .remember "second" "the port of the api is 8080" { importance := 1 / 2 })]

/-- An important memory, and its less important new version. -/
def revisedOnce : List ((String × Int × MemoryCall) ⊕ (String × MaintenanceJob)) :=
  [.inl ("a", 1, .remember "old" "the port is 8080" { importance := 9 / 10 }),
    .inl ("a", 2, .supersede "new" "old" "the port is 8081" { importance := some (1 / 2) })]

end MarkSdk
