import Mathlib.Algebra.Order.Group.Unbundled.Abs
import Mathlib.Algebra.Order.Ring.Rat
import Mathlib.Algebra.Ring.Nat
import MarkSdk.Blocks.Membership

/-!
The maintenance jobs: pruning, consolidation and deduplication.

Each of them lists the fragments of one agent, skips what is protected, and
then stores or deletes the others one by one. The decay of importances, the
consolidation gate and the similarity of embeddings compute with floats and
texts; they come in as parameters.
-/

namespace MarkSdk

open Lib

/-! ### Decay -/

/-- `ExponentialDecay`, with times in microseconds. -/
structure Decay where
  /-- `_floor` -/
  floor : ℚ
  /-- `decay_factor` of an age that is not negative -/
  factor : Int → ℚ
  /-- `datetime.fromisoformat`, read as UTC when naive; nothing for a
  `ValueError` -/
  fromisoformat : String → Option Int
  /-- `datetime.isoformat` -/
  isoformat : Int → String
  /-- A float as metadata holds it. -/
  float : ℚ → PyValue

def decayMetadataKey : String := "mark_decay"

/-- The entry of the last decay, if it is a dictionary. -/
def decayRecord (metadata : Metadata) : Option (List (String × PyValue)) :=
  match metadata.lookup decayMetadataKey with
  | some (.dict record) => some record
  | _ => none

def Decay.referenceTime (py : Python) (d : Decay) (f : Fragment) : Int :=
  match (decayRecord f.metadata).bind fun record => record.lookup "last_decay_at" with
  | some value =>
      if value.truthy then (d.fromisoformat (pyStr py value)).getD f.createdAt else f.createdAt
  | none => f.createdAt

/-- The importance of a fragment decayed to `now`. -/
def Decay.apply (py : Python) (d : Decay) (f : Fragment) (now : Int) : ℚ :=
  if f.state = .promoted then f.importance
  else max d.floor (min 1 (f.importance * d.factor (max 0 (now - d.referenceTime py f))))

def Decay.decayMetadata (d : Decay) (f : Fragment) (now : Int) : Metadata :=
  let base :=
    match (decayRecord f.metadata).bind fun record => record.lookup "base_importance" with
    | some value => value
    | none => d.float f.importance
  f.metadata.assign decayMetadataKey
    (.dict [("base_importance", base), ("last_decay_at", .str (d.isoformat now))])

/-! ### Pruning -/

structure PrunerStats where
  fragmentsPruned : Nat
  edgesDissolved : Nat
  importanceUpdated : Nat
  protected_ : Nat
  deriving DecidableEq, Repr

/-- The states that pruning never touches. -/
def prunerProtects (state : MemoryState) : Bool :=
  state = .promoted || state = .quarantined || state = .contradicted

def persistDecay (py : Python) (d : Decay) (now : Int) (f : Fragment) (newImportance : ℚ) :
    MemoryClient Unit :=
  rewriteFragment py { f with
    importance := newImportance
    metadata := d.decayMetadata f now }

/-- One turn of the first loop: the fragment is decayed, and deleted at the
floor. -/
def pruneFragment (py : Python) (d : Decay) (now : Int) (m : SealedMembership) (f : Fragment) :
    MemoryClient PrunerStats :=
  if prunerProtects f.state || m.protectsFragment f then pure ⟨0, 0, 0, 1⟩
  else do
    let newImportance := d.apply py f now
    let updated := decide (1 / 1000000 < |newImportance - f.importance|)
    Client.when updated (persistDecay py d now f newImportance)
    let pruned := decide (newImportance ≤ d.floor)
    Client.when pruned (removeFragment f.id)
    return ⟨pruned.toNat, 0, updated.toNat, 0⟩

def shouldDissolve (edgeFloor weight : ℚ) : Bool := weight < edgeFloor

/-- One turn of the second loop. -/
def dissolveEdge (edgeFloor : ℚ) (m : SealedMembership) (e : Edge) : MemoryClient PrunerStats :=
  if m.protectsEdge e || !shouldDissolve edgeFloor e.weight then pure ⟨0, 0, 0, 0⟩
  else do
    callDeleteEdge e.id
    return ⟨0, 1, 0, 0⟩

def PrunerStats.add (a b : PrunerStats) : PrunerStats :=
  ⟨a.fragmentsPruned + b.fragmentsPruned, a.edgesDissolved + b.edgesDissolved,
    a.importanceUpdated + b.importanceUpdated, a.protected_ + b.protected_⟩

/-- `MemoryPruner.run` -/
def prune (py : Python) (d : Decay) (edgeFloor : ℚ) (agentId : String) (now : Int) :
    MemoryClient PrunerStats := do
  let m ← sealedMembership agentId
  let fragments ← Client.read fun s => s.listByAgent agentId none
  let pruned ← Client.forMap (pruneFragment py d now m) fragments
  let edges ← Client.read fun s => s.listEdges agentId
  let dissolved ← Client.forMap (dissolveEdge edgeFloor m) edges
  return (pruned ++ dissolved).foldl PrunerStats.add ⟨0, 0, 0, 0⟩

/-! ### Consolidation -/

/-- What the gate says about a text: whether it may pass, and the text
cleaned. -/
structure GateResult where
  passed : Bool
  content : String

structure ConsolidationResult where
  promoted : Nat
  expired : Nat
  skipped : Nat
  blocked : Nat
  sanitized : Nat
  deriving DecidableEq, Repr

def ConsolidationResult.add (a b : ConsolidationResult) : ConsolidationResult :=
  ⟨a.promoted + b.promoted, a.expired + b.expired, a.skipped + b.skipped, a.blocked + b.blocked,
    a.sanitized + b.sanitized⟩

def Fragment.isExpired (f : Fragment) (now : Int) : Bool :=
  f.ttlSeconds.any fun ttl => ttl * 1000000 < now - f.createdAt

/-- One turn of the loop of `ConsolidationManager.run`. -/
def consolidateFragment (py : Python) (gate : String → ℚ → GateResult) (threshold : ℚ) (now : Int)
    (m : SealedMembership) (f : Fragment) : MemoryClient ConsolidationResult :=
  if f.tier ≠ .working ∧ f.ttlSeconds.isNone then pure ⟨0, 0, 1, 0, 0⟩
  else if m.protectsFragment f || f.state = .quarantined || f.state = .contradicted then
    pure ⟨0, 0, 1, 0, 0⟩
  else if f.isExpired now then do
    removeFragment f.id
    return ⟨0, 1, 0, 0, 0⟩
  else if threshold ≤ f.importance then
    let result := gate f.content f.confidence
    if !result.passed then pure ⟨0, 0, 0, 1, 0⟩
    else do
      rewriteFragment py { f with
        content := result.content
        tier := .episodic
        state := .verified
        ttlSeconds := none
        updatedAt := now }
      return ⟨1, 0, 0, 0, if result.content ≠ f.content then 1 else 0⟩
  else pure ⟨0, 0, 1, 0, 0⟩

/-- `ConsolidationManager.run` -/
def consolidate (py : Python) (gate : String → ℚ → GateResult) (agentId : String) (threshold : ℚ)
    (now : Int) : MemoryClient ConsolidationResult := do
  let m ← sealedMembership agentId
  let fragments ← Client.read fun s => s.listByAgent agentId none
  let results ← Client.forMap (consolidateFragment py gate threshold now m) fragments
  return results.foldl ConsolidationResult.add ⟨0, 0, 0, 0, 0⟩

/-! ### Deduplication -/

/-- A cluster: its first member and the others. -/
structure Cluster where
  seed : Fragment
  rest : List Fragment

structure ClusterResult where
  keptId : String
  mergedFromIds : List String
  clusterSize : Nat
  centroid : Option (List ℚ)
  deriving DecidableEq, Repr

structure DeduplicationResult where
  merged : Nat
  kept : Nat
  skipped : Nat
  clusters : List ClusterResult
  deriving DecidableEq, Repr

/-- `for k in range(dim): result[k] += emb[k]` -/
def addEmbedding (dim : Nat) (result emb : List ℚ) : Except StoreError (List ℚ) :=
  if emb.length < dim then .error (.indexError "list index out of range")
  else .ok (List.zipWith (· + ·) result emb)

def centroid (embeddings : List (List ℚ)) : Except StoreError (List ℚ) :=
  match embeddings with
  | [] => .ok []
  | first :: _ => do
      let result ← embeddings.foldlM (addEmbedding first.length) (List.replicate first.length 0)
      return result.map fun v => v / embeddings.length

/-- `f.embedding`, of a fragment that has one. -/
def Fragment.vector (f : Fragment) : List ℚ := f.embedding.getD []

/-- The similarity of two embeddings reaches the threshold. -/
def Fragment.near (cosine : List ℚ → List ℚ → ℚ) (threshold : ℚ) (f g : Fragment) : Bool :=
  threshold ≤ cosine f.vector g.vector

/-- Put a fragment into the first cluster whose seed is near. -/
def placeFragment (near : Fragment → Fragment → Bool) (f : Fragment) : List Cluster → List Cluster
  | [] => [⟨f, []⟩]
  | c :: cs =>
      if near f c.seed then ⟨c.seed, c.rest ++ [f]⟩ :: cs else c :: placeFragment near f cs

def buildClusters (near : Fragment → Fragment → Bool) (fragments : List Fragment) : List Cluster :=
  fragments.foldl (fun clusters f => placeFragment near f clusters) []

/-- The members of a cluster, its seed first. -/
def Cluster.members (c : Cluster) : List Fragment := c.seed :: c.rest

theorem mem_placeFragment {near : Fragment → Fragment → Bool} {f : Fragment} {cs : List Cluster}
    {c : Cluster} (hc : c ∈ placeFragment near f cs) {g : Fragment} (hg : g ∈ c.members) :
    g = f ∨ ∃ c' ∈ cs, g ∈ c'.members := by
  induction cs with
  | nil =>
      rw [placeFragment, List.mem_singleton] at hc
      rw [hc, Cluster.members, List.mem_singleton] at hg
      exact .inl hg
  | cons d ds ih =>
      unfold placeFragment at hc
      split at hc
      · rcases List.mem_cons.mp hc with rfl | hc
        · rcases List.mem_append.mp (show g ∈ d.members ++ [f] from hg) with hg | hg
          · exact .inr ⟨d, List.mem_cons_self, hg⟩
          · exact .inl (List.mem_singleton.mp hg)
        · exact .inr ⟨c, List.mem_cons_of_mem d hc, hg⟩
      · rcases List.mem_cons.mp hc with rfl | hc
        · exact .inr ⟨c, List.mem_cons_self, hg⟩
        · rcases ih hc with hf | ⟨c', hc', hg'⟩
          · exact .inl hf
          · exact .inr ⟨c', List.mem_cons_of_mem d hc', hg'⟩

/-- The clusters hold nothing but the fragments. -/
theorem mem_buildClusters {near : Fragment → Fragment → Bool} {fs : List Fragment} {c : Cluster}
    (hc : c ∈ buildClusters near fs) {g : Fragment} (hg : g ∈ c.members) : g ∈ fs := by
  have hfold : ∀ (fs : List Fragment) (cs : List Cluster),
      c ∈ fs.foldl (fun cs f => placeFragment near f cs) cs →
        g ∈ fs ∨ ∃ c' ∈ cs, g ∈ c'.members := by
    intro fs
    induction fs with
    | nil => exact fun cs hc => .inr ⟨c, hc, hg⟩
    | cons f fs ih =>
        intro cs hc
        rcases ih _ hc with hmem | ⟨c', hc', hg'⟩
        · exact .inl (List.mem_cons_of_mem f hmem)
        · rcases mem_placeFragment hc' hg' with rfl | hold
          · exact .inl List.mem_cons_self
          · exact .inr hold
  rcases hfold fs [] hc with hmem | ⟨c', hc', -⟩
  · exact hmem
  · cases hc'

/-- `list(value)` -/
def pyList (value : PyValue) : Except StoreError (List PyValue) :=
  match value with
  | .list items => .ok items
  | .tuple items => .ok items
  | .str text => .ok (text.toList.map fun c => .str (String.singleton c))
  | .dict items => .ok (items.map fun entry => .str entry.1)
  | _ => .error (.typeError "object is not iterable")

/-- The metadata of a seed that other fragments are merged into. -/
def mergedMetadata (metadata : Metadata) (previous : List PyValue) (mergedIds : List String)
    (clusterSize : Nat) : Metadata :=
  (metadata.assign "merged_from_ids" (.list (previous ++ mergedIds.map .str))).assign
    "cluster_size" (.int clusterSize)

/-- The nodes of a duplicate are repointed, and it is deleted. -/
def mergeDuplicate (seedId : String) (dup : Fragment) : MemoryClient Unit := do
  let nodes ← Client.read fun s => s.nodesForFragment dup.id
  Client.forEach (fun node => callStoreNode { node with fragmentId := some seedId }) nodes
  removeFragment dup.id

/-- `list(seed.metadata.get("merged_from_ids", []))` -/
def previouslyMerged (metadata : Metadata) : Except StoreError (List PyValue) :=
  match metadata.lookup "merged_from_ids" with
  | some value => pyList value
  | none => .ok []

/-- The seed of a cluster after the others have been merged into it. -/
def Cluster.mergedSeed (c : Cluster) (previous : List PyValue) : Fragment :=
  { c.seed with
    metadata := mergedMetadata c.seed.metadata previous (c.rest.map Fragment.id)
      (c.rest.length + 1) }

/-- One turn of the last loop of `DeduplicationConsolidator.run`. -/
def mergeCluster (py : Python) (c : Cluster) : MemoryClient ClusterResult :=
  if c.rest.isEmpty then pure ⟨c.seed.id, [], 1, none⟩
  else do
    let previous ← Client.ofExcept ((previouslyMerged c.seed.metadata).mapError MemoryError.store)
    let mean ← Client.ofExcept
      ((centroid (c.members.map Fragment.vector)).mapError MemoryError.store)
    rewriteFragment py (c.mergedSeed previous)
    Client.forEach (mergeDuplicate c.seed.id) c.rest
    return ⟨c.seed.id, c.rest.map Fragment.id, c.rest.length + 1, some mean⟩

/-- Whether a sealed node refers to the fragment, asked only when something is
sealed. -/
def referredBySealed (m : SealedMembership) (f : Fragment) : MemoryClient Bool :=
  if m.truthy then do
    let nodes ← Client.read fun s => s.nodesForFragment f.id
    return nodes.any m.protectsNode
  else pure false

/-- `f.embedding` is not empty. -/
def Fragment.embedded (f : Fragment) : Bool := f.embedding.any fun v => !v.isEmpty

/-- `embedded.sort(key=lambda f: f.importance, reverse=True)` -/
def byImportance (fragments : List Fragment) : List Fragment :=
  fragments.insertionSort fun f g => g.importance ≤ f.importance

/-- The fragments that may be merged. -/
def dedupEligible (m : SealedMembership) (f : Fragment) : Bool :=
  !m.protectsFragment f && f.state ≠ .quarantined && f.state ≠ .contradicted

/-- The reads of `DeduplicationConsolidator.run`: how many fragments are
skipped, and the clusters of the others. -/
def dedupPlan (cosine : List ℚ → List ℚ → ℚ) (threshold : ℚ) (agentId : String)
    (sessionId : Option String) : MemoryClient (Nat × List Cluster) := do
  let allFragments ← Client.read fun s => s.listByAgent agentId sessionId
  let m ← sealedMembership agentId
  let referred ← Client.forMap
    (fun f => do return (f, ← referredBySealed m f)) (allFragments.filter (dedupEligible m))
  let eligible := (referred.filter fun p => !p.2).map Prod.fst
  let embedded := eligible.filter Fragment.embedded
  return (allFragments.length - embedded.length,
    buildClusters (Fragment.near cosine threshold) (byImportance embedded))

/-- `DeduplicationConsolidator.run` -/
def deduplicate (py : Python) (cosine : List ℚ → List ℚ → ℚ) (threshold : ℚ) (agentId : String)
    (sessionId : Option String) : MemoryClient DeduplicationResult := do
  let plan ← dedupPlan cosine threshold agentId sessionId
  let results ← Client.forMap (mergeCluster py) plan.2
  return {
    merged := (results.map fun r => r.mergedFromIds.length).sum
    kept := plan.2.length
    skipped := plan.1
    clusters := results }

end MarkSdk
