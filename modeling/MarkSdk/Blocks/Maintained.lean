import MarkSdk.Blocks.BlockGraph
import MarkSdk.Memory.Maintenance

/-!
Maintenance and sealed blocks.

A job skips the members of the sealed blocks of the agent that it maintains.
Blocks may also hold memories, nodes and edges of other agents, and those it
does not see. As long as everything a sealed block holds belongs to the agent
of the block, every sealed block that verified still verifies
(`seals_survive`).
-/

namespace MarkSdk

open Lib

/-! ### Members -/

def LocalStore.sealedBlock (s : LocalStore) (b : Block) : Prop :=
  b ∈ s.graph.blocks.rows ∧ b.contentHash.isSome = true

structure SameMembers (blockId : String) (s s' : LocalStore) : Prop where
  fragments : (s'.db.fragments.rows.filter fun f => f.blockId = some blockId) =
    s.db.fragments.rows.filter fun f => f.blockId = some blockId
  edges : (s'.graph.edges.rows.filter fun e => e.blockId = some blockId) =
    s.graph.edges.rows.filter fun e => e.blockId = some blockId
  nodes : ∀ m ∈ s.graph.blockNodes.rows, m.blockId = blockId →
    s'.graph.nodes.find? m.nodeId = s.graph.nodes.find? m.nodeId

/-- The sealed blocks have the members they had, and no fragment has come in
or changed its agent. -/
structure SealsKept (s s' : LocalStore) : Prop where
  blocks : s'.graph.blocks = s.graph.blocks
  memberships : s'.graph.blockNodes = s.graph.blockNodes
  members : ∀ b, s.sealedBlock b → SameMembers b.id s s'
  known : ∀ f ∈ s'.db.fragments.rows, ∃ f₀ ∈ s.db.fragments.rows,
    f₀.id = f.id ∧ f₀.agentId = f.agentId

/-- What a sealed block of another agent holds is not the agent's own. -/
structure ForeignSeals (agentId : String) (s : LocalStore) : Prop where
  fragments : ∀ b, s.sealedBlock b → b.agentId ≠ agentId →
    ∀ f ∈ s.fragmentsForBlock b.id, f.agentId ≠ agentId
  edges : ∀ b, s.sealedBlock b → b.agentId ≠ agentId →
    ∀ e ∈ s.edgesInBlock b.id, e.agentId ≠ agentId
  nodes : ∀ b, s.sealedBlock b → b.agentId ≠ agentId →
    ∀ n ∈ s.nodesInBlock b.id, ∀ f ∈ s.db.fragments.rows, f.agentId = agentId →
      n.fragmentId ≠ some f.id

section Members

variable {s s' : LocalStore} {b : Block}

theorem SealsKept.refl (s : LocalStore) : SealsKept s s :=
  ⟨rfl, rfl, fun _ _ => ⟨rfl, rfl, fun _ _ _ => rfl⟩, fun f hf => ⟨f, hf, rfl, rfl⟩⟩

theorem SealsKept.fragmentsForBlock (hk : SealsKept s s') (hb : s.sealedBlock b) :
    s'.fragmentsForBlock b.id = s.fragmentsForBlock b.id := by
  unfold LocalStore.fragmentsForBlock
  rw [(hk.members b hb).fragments]

theorem SealsKept.edgesInBlock (hk : SealsKept s s') (hb : s.sealedBlock b) :
    s'.edgesInBlock b.id = s.edgesInBlock b.id := by
  unfold LocalStore.edgesInBlock
  rw [(hk.members b hb).edges]

theorem SealsKept.nodesInBlock (hk : SealsKept s s') (hb : s.sealedBlock b) :
    s'.nodesInBlock b.id = s.nodesInBlock b.id := by
  unfold LocalStore.nodesInBlock
  rw [hk.memberships]
  refine List.filterMap_congr fun m hm => ?_
  rw [(List.perm_insertionSort _ _).mem_iff, List.mem_filter, decide_eq_true_eq] at hm
  exact (hk.members b hb).nodes m hm.1 hm.2

theorem SealsKept.memberHashes (hk : SealsKept s s') (h : Hashing) (hb : s.sealedBlock b) :
    s'.memberHashes h b.id = s.memberHashes h b.id := by
  unfold LocalStore.memberHashes
  rw [hk.fragmentsForBlock hb, hk.nodesInBlock hb, hk.edgesInBlock hb]

/-- Blocks that verified verify. -/
theorem SealsKept.verifies {py : Python} {h : Hashing} (hk : SealsKept s s') {blockId : String}
    (hv : Verifies py h s blockId) : Verifies py h s' blockId := by
  obtain ⟨block, hget, hintact⟩ := verifies_iff.mp hv
  obtain ⟨hrow, rfl⟩ := Table.find?_eq_some_iff.mp hget
  have hsealed : s.sealedBlock block := ⟨hrow, by simp [hintact.contentHash]⟩
  refine verifies_iff.mpr ⟨block, ?_, ?_⟩
  · unfold LocalStore.getBlock
    rw [hk.blocks]
    exact hget
  · rw [hk.memberHashes h hsealed]
    exact hintact

end Members

/-! ### Writes that keep the seals -/

section Writes

variable {s₀ : LocalStore}

/-- No sealed block holds a fragment of this id. -/
def FreeFragment (s : LocalStore) (fragmentId : String) : Prop :=
  ∀ b, s.sealedBlock b → ∀ f ∈ s.fragmentsForBlock b.id, f.id ≠ fragmentId

/-- No sealed block holds an edge of this id. -/
def FreeEdge (s : LocalStore) (edgeId : String) : Prop :=
  ∀ b, s.sealedBlock b → ∀ e ∈ s.edgesInBlock b.id, e.id ≠ edgeId

/-- No sealed block has a member of this id among its nodes. -/
def FreeNode (s : LocalStore) (nodeId : String) : Prop :=
  ∀ b, s.sealedBlock b → ∀ m ∈ s.graph.blockNodes.rows, m.blockId = b.id → m.nodeId ≠ nodeId

/-- A fragment of the agent that is in no sealed block. -/
structure Loose (s : LocalStore) (agentId : String) (f : Fragment) : Prop where
  agent : f.agentId = agentId
  known : ∃ f₀ ∈ s.db.fragments.rows, f₀.id = f.id ∧ f₀.agentId = agentId
  free : FreeFragment s f.id
  block : ∀ b, s.sealedBlock b → f.blockId ≠ some b.id

/-- A change of the tables of `Db` that only touches the fragments. -/
theorem sealsKept_onFragments {s s' : LocalStore} (hk : SealsKept s₀ s) (hgraph : s'.graph = s.graph)
    (hmembers : ∀ b, s₀.sealedBlock b →
      (s'.db.fragments.rows.filter fun f => f.blockId = some b.id) =
        s.db.fragments.rows.filter fun f => f.blockId = some b.id)
    (hknown : ∀ f ∈ s'.db.fragments.rows, ∃ f₀ ∈ s₀.db.fragments.rows,
      f₀.id = f.id ∧ f₀.agentId = f.agentId) : SealsKept s₀ s' where
  blocks := by rw [hgraph, hk.blocks]
  memberships := by rw [hgraph, hk.memberships]
  members b hb := {
    fragments := (hmembers b hb).trans (hk.members b hb).fragments
    edges := by rw [hgraph, (hk.members b hb).edges]
    nodes := fun m hm hid => by rw [hgraph, (hk.members b hb).nodes m hm hid] }
  known := hknown

/-- The row of a loose fragment is not selected with the members of a sealed
block. -/
theorem not_selected {s : LocalStore} (hk : SealsKept s₀ s) {id : String} (hfree : FreeFragment s₀ id)
    {b : Block} (hb : s₀.sealedBlock b) {f : Fragment} (hf : f ∈ s.db.fragments.rows)
    (hid : f.id = id) : decide (f.blockId = some b.id) = false := by
  rw [decide_eq_false_iff_not]
  intro hblock
  have hmem : f ∈ s.fragmentsForBlock b.id := mem_fragmentsForBlock.mpr ⟨hf, hblock⟩
  rw [hk.fragmentsForBlock hb] at hmem
  exact hfree b hb f hmem hid

theorem keeps_rewrite (py : Python) {agentId : String} {f g : Fragment} (hf : Loose s₀ agentId f)
    (hid : g.id = f.id) (hagent : g.agentId = f.agentId) (hblock : g.blockId = f.blockId) :
    (rewriteFragment py g).Keeps (SealsKept s₀) fun _ => True := by
  refine Client.keeps_bind (Client.keeps_txn ?_) fun _ _ => trivial
  have hupsert : ∀ s : LocalStore, SealsKept s₀ s →
      SealsKept s₀ { s with db := { s.db with fragments := s.db.fragments.upsert g } } := by
    intro s hk
    refine sealsKept_onFragments hk rfl (fun b hb => ?_) fun f' hf' => ?_
    · refine Table.filter_upsert ?_ fun f' hf' hsame => ?_
      · rw [hblock, decide_eq_false_iff_not]
        exact hf.block b hb
      · exact not_selected hk hf.free hb hf' (hsame.trans hid)
    · rcases Table.mem_upsert hf' with hold | rfl
      · exact hk.known f' hold
      · obtain ⟨f₀, hf₀, hsame, howner⟩ := hf.known
        exact ⟨f₀, hf₀, hsame.trans hid.symm, by rw [hagent, howner, hf.agent]⟩
  refine (each_onDb (store_upserts py g)).mono fun s s' hstep hk => ?_
  have heq : s' = { s with db := { s.db with fragments := s.db.fragments.upsert g } } := by
    cases s'
    simp only at hstep
    rw [hstep.1, hstep.2]
  rw [heq]
  exact hupsert s hk

theorem keeps_remove {id : String} (hfree : FreeFragment s₀ id) :
    (removeFragment id).Keeps (SealsKept s₀) fun _ => True := by
  refine Client.keeps_bind (Client.keeps_txn ?_) fun _ _ => trivial
  refine (each_onDb (deleteById_deletes id)).mono fun s s' hstep hk => ?_
  refine sealsKept_onFragments hk hstep.2 (fun b hb => ?_) fun f hf => ?_
  · rw [hstep.1]
    refine Table.filter_delete fun f hf hmember => ?_
    rw [decide_eq_false_iff_not]
    intro hid
    rw [not_selected hk hfree hb hf hid] at hmember
    cases hmember
  · rw [hstep.1] at hf
    exact hk.known f (List.mem_filter.mp hf).1

theorem keeps_storeNode {node : Node} (hfree : FreeNode s₀ node.id) :
    (callStoreNode node).Keeps (SealsKept s₀) fun _ => True := by
  refine Client.keeps_bind (Client.keeps_txn ?_) fun _ _ => trivial
  refine Txn.each_bind (Txn.each_update fun s hk => ?_) fun _ => trivial
  exact {
    blocks := hk.blocks
    memberships := hk.memberships
    members := fun b hb => {
      fragments := (hk.members b hb).fragments
      edges := (hk.members b hb).edges
      nodes := fun m hm hid => by
        rw [← (hk.members b hb).nodes m hm hid]
        exact (Table.find?_insertOrReplace _ _ _).trans (if_neg (hfree b hb m hm hid)) }
    known := hk.known }

theorem keeps_deleteEdge {edgeId : String} (hfree : FreeEdge s₀ edgeId) :
    (callDeleteEdge edgeId).Keeps (SealsKept s₀) fun _ => True := by
  refine Client.keeps_bind (Client.keeps_txn ?_) fun _ _ => trivial
  refine Txn.each_bind (Txn.each_updateCount fun s hk => ?_) fun _ => trivial
  exact {
    blocks := hk.blocks
    memberships := hk.memberships
    members := fun b hb => {
      fragments := (hk.members b hb).fragments
      edges := by
        rw [← (hk.members b hb).edges]
        refine Table.filter_delete fun e he hmember => ?_
        rw [decide_eq_false_iff_not]
        intro hid
        have hmem : e ∈ s.edgesInBlock b.id :=
          mem_edgesInBlock.mpr ⟨he, of_decide_eq_true hmember⟩
        rw [hk.edgesInBlock hb] at hmem
        exact hfree b hb e hmem hid
      nodes := (hk.members b hb).nodes }
    known := hk.known }

end Writes

/-! ### The membership -/

section Membership

variable {s₀ : LocalStore} {agentId : String} {m : SealedMembership}

/-- The blocks of the list that are sealed are in the membership, with their
nodes. -/
def Covers (s : LocalStore) (m : SealedMembership) (blocks : List Block) : Prop :=
  ∀ b ∈ blocks, s.sealedBlock b →
    b.id ∈ m.blockIds ∧ ∀ n ∈ s.nodesInBlock b.id, n.id ∈ m.nodeIds

/-- One membership is part of another. -/
structure Within (m m' : SealedMembership) : Prop where
  blocks : m.blockIds ⊆ m'.blockIds
  nodes : m.nodeIds ⊆ m'.nodeIds

theorem keeps_collectMembers (m : SealedMembership) (blocks : List Block) :
    (collectMembers m blocks).Keeps (SealsKept s₀) fun m' => Within m m' ∧ Covers s₀ m' blocks := by
  induction blocks generalizing m with
  | nil =>
      exact ⟨⟨List.Subset.refl _, List.Subset.refl _⟩, fun b hb => absurd hb List.not_mem_nil⟩
  | cons block blocks ih =>
      unfold collectMembers
      split
      · rename_i hever
        refine Client.keeps_bind (Q := fun _ => True) (Client.keeps_read fun _ _ => trivial)
          fun fragments _ => ?_
        refine Client.keeps_bind (Q := fun nodes => s₀.sealedBlock block →
          nodes = s₀.nodesInBlock block.id) (Client.keeps_read fun s hk hb => hk.nodesInBlock hb)
          fun nodes hnodes => ?_
        refine Client.keeps_bind (Q := fun _ => True) (Client.keeps_read fun _ _ => trivial)
          fun edges _ => ?_
        refine (ih _).mono fun m' hm' => ?_
        obtain ⟨hwithin, hcovers⟩ := hm'
        refine ⟨⟨fun id hid => hwithin.blocks (List.mem_append_left _ hid),
          fun id hid => hwithin.nodes (List.mem_append_left _ hid)⟩, ?_⟩
        refine List.forall_mem_cons.mpr ⟨fun hb => ⟨?_, fun n hn => ?_⟩, hcovers⟩
        · exact hwithin.blocks (List.mem_append_right _ List.mem_cons_self)
        · rw [← hnodes hb] at hn
          exact hwithin.nodes (List.mem_append_right _ (List.mem_map_of_mem hn))
      · rename_i hnever
        refine (ih m).mono fun m' hm' => ⟨hm'.1, ?_⟩
        refine List.forall_mem_cons.mpr ⟨fun hb => absurd ?_ hnever, hm'.2⟩
        simp [Block.everSealed, hb.2]

/-- The membership covers the sealed blocks of the agent. -/
theorem keeps_sealedMembership (agentId : String) :
    (sealedMembership agentId).Keeps (SealsKept s₀) fun m =>
      ∀ b, s₀.sealedBlock b → b.agentId = agentId →
        b.id ∈ m.blockIds ∧ ∀ n ∈ s₀.nodesInBlock b.id, n.id ∈ m.nodeIds := by
  refine Client.keeps_bind (Q := fun blocks => ∀ b, s₀.sealedBlock b → b.agentId = agentId →
    b ∈ blocks) (Client.keeps_read fun s hk b hb hagent => ?_) fun blocks hblocks => ?_
  · unfold LocalStore.listBlocks
    rw [(List.perm_insertionSort _ _).mem_iff, List.mem_filter, hk.blocks, hagent]
    exact ⟨hb.1, decide_eq_true rfl⟩
  · exact (keeps_collectMembers .empty blocks).mono fun m hm b hb hagent =>
      hm.2 b (hblocks b hb hagent) hb

/-- The membership covers the sealed blocks of the agent. -/
def Protects (s : LocalStore) (agentId : String) (m : SealedMembership) : Prop :=
  ∀ b, s.sealedBlock b → b.agentId = agentId →
    b.id ∈ m.blockIds ∧ ∀ n ∈ s.nodesInBlock b.id, n.id ∈ m.nodeIds

theorem protectsFragment_of_block {f : Fragment} {id : String} (hin : f.blockId = some id)
    (hid : id ∈ m.blockIds) : m.protectsFragment f = true := by
  simp [SealedMembership.protectsFragment, hin, hid]

theorem protectsEdge_of_block {e : Edge} {id : String} (hin : e.blockId = some id)
    (hid : id ∈ m.blockIds) : m.protectsEdge e = true := by
  simp [SealedMembership.protectsEdge, hin, hid]

/-- A listed fragment that is not protected is in no sealed block. -/
theorem loose_of_listed (hown : ForeignSeals agentId s₀) (hm : Protects s₀ agentId m)
    {s : LocalStore} (hk : SealsKept s₀ s) {f : Fragment} (hf : f ∈ s.db.fragments.rows)
    (hagent : f.agentId = agentId) (hprotects : m.protectsFragment f = false) :
    Loose s₀ agentId f := by
  have hblock : ∀ b, s₀.sealedBlock b → f.blockId ≠ some b.id := by
    intro b hb hin
    by_cases howner : b.agentId = agentId
    · rw [protectsFragment_of_block hin (hm b hb howner).1] at hprotects
      cases hprotects
    · have hmem : f ∈ s.fragmentsForBlock b.id := mem_fragmentsForBlock.mpr ⟨hf, hin⟩
      rw [hk.fragmentsForBlock hb] at hmem
      exact hown.fragments b hb howner f hmem hagent
  refine ⟨hagent, ?_, fun b hb g hg hid => ?_, hblock⟩
  · obtain ⟨f₀, hf₀, hid, howner⟩ := hk.known f hf
    exact ⟨f₀, hf₀, hid, howner.trans hagent⟩
  · rw [← hk.fragmentsForBlock hb] at hg
    obtain ⟨hgrow, hgblock⟩ := mem_fragmentsForBlock.mp hg
    have heq : g = f := s.db.fragments.eq_of_key hgrow hf hid
    exact hblock b hb (heq ▸ hgblock)

theorem mem_listByAgent {s : LocalStore} {sessionId : Option String} {f : Fragment}
    (h : f ∈ s.listByAgent agentId sessionId) : f ∈ s.db.fragments.rows ∧ f.agentId = agentId := by
  unfold LocalStore.listByAgent at h
  rw [(List.perm_insertionSort _ _).mem_iff, List.mem_filter] at h
  simp only [Bool.and_eq_true, decide_eq_true_eq] at h
  exact ⟨h.1, h.2.1.1⟩

/-- The fragments that a job lists. -/
theorem keeps_list (hown : ForeignSeals agentId s₀) (sessionId : Option String) :
    (Client.read fun s => s.listByAgent agentId sessionId : MemoryClient _).Keeps (SealsKept s₀)
      fun fs => ∀ f ∈ fs, ∀ m, Protects s₀ agentId m → m.protectsFragment f = false →
        Loose s₀ agentId f := by
  refine Client.keeps_read fun s hk f hf m hm hprotects => ?_
  obtain ⟨hrow, hagent⟩ := mem_listByAgent hf
  exact loose_of_listed hown hm hk hrow hagent hprotects

end Membership

/-! ### The jobs -/

section Jobs

variable {s₀ : LocalStore} {agentId : String} (hown : ForeignSeals agentId s₀) (py : Python)

include hown

theorem keeps_prune (d : Decay) (edgeFloor : ℚ) (now : Int) :
    (prune py d edgeFloor agentId now).Keeps (SealsKept s₀) fun _ => True := by
  refine Client.keeps_bind (keeps_sealedMembership agentId) fun m hm => ?_
  refine Client.keeps_bind (keeps_list hown none) fun fragments hloose => ?_
  refine Client.keeps_bind (Q := fun _ => True) ?_ fun pruned _ => ?_
  · refine (Client.keeps_forMap (Q := fun _ => True) fun f hf => ?_).mono fun _ _ => trivial
    unfold pruneFragment
    split
    · trivial
    · rename_i hnot
      have hprotects : m.protectsFragment f = false := by
        rw [Bool.or_eq_true, not_or] at hnot
        simpa using hnot.2
      have hf' := hloose f hf m hm hprotects
      refine Client.keeps_bind (Client.keeps_when (keeps_rewrite py hf' rfl rfl rfl)) fun _ _ => ?_
      exact Client.keeps_bind (Client.keeps_when (keeps_remove hf'.free)) fun _ _ =>
        Client.keeps_pure trivial
  · refine Client.keeps_bind (Q := fun edges => ∀ e ∈ edges, m.protectsEdge e = false →
      FreeEdge s₀ e.id) (Client.keeps_read fun s hk e he hprotects b hb e' he' hid => ?_)
      fun edges hedges => ?_
    · rw [← hk.edgesInBlock hb] at he'
      obtain ⟨hrow', hblock'⟩ := mem_edgesInBlock.mp he'
      unfold LocalStore.listEdges at he
      rw [(List.perm_insertionSort _ _).mem_iff, List.mem_filter, decide_eq_true_eq] at he
      have heq : e' = e := s.graph.edges.eq_of_key hrow' he.1 hid
      subst heq
      by_cases howner : b.agentId = agentId
      · rw [protectsEdge_of_block hblock' (hm b hb howner).1] at hprotects
        cases hprotects
      · refine hown.edges b hb howner e' ?_ he.2
        rw [← hk.edgesInBlock hb]
        exact mem_edgesInBlock.mpr ⟨hrow', hblock'⟩
    · refine Client.keeps_bind (Q := fun _ => True) ?_ fun _ _ => trivial
      refine (Client.keeps_forMap (Q := fun _ => True) fun e he => ?_).mono fun _ _ => trivial
      unfold dissolveEdge
      split
      · trivial
      · rename_i hnot
        have hprotects : m.protectsEdge e = false := by
          rw [Bool.or_eq_true, not_or] at hnot
          simpa using hnot.1
        exact Client.keeps_bind (keeps_deleteEdge (hedges e he hprotects)) fun _ _ => trivial

theorem keeps_consolidate (gate : String → ℚ → GateResult) (threshold : ℚ) (now : Int) :
    (consolidate py gate agentId threshold now).Keeps (SealsKept s₀) fun _ => True := by
  refine Client.keeps_bind (keeps_sealedMembership agentId) fun m hm => ?_
  refine Client.keeps_bind (keeps_list hown none) fun fragments hloose => ?_
  refine Client.keeps_bind (Q := fun _ => True) ?_ fun _ _ => trivial
  refine (Client.keeps_forMap (Q := fun _ => True) fun f hf => ?_).mono fun _ _ => trivial
  unfold consolidateFragment
  split
  · trivial
  · split
    · trivial
    · rename_i hnot
      have hprotects : m.protectsFragment f = false := by
        rw [Bool.or_eq_true, Bool.or_eq_true, not_or, not_or] at hnot
        simpa using hnot.1.1
      have hf' := hloose f hf m hm hprotects
      split
      · exact Client.keeps_bind (keeps_remove hf'.free) fun _ _ => trivial
      · split
        · dsimp only
          split
          · trivial
          · exact Client.keeps_bind (keeps_rewrite py hf' rfl rfl rfl) fun _ _ =>
              Client.keeps_pure trivial
        · trivial

omit hown in
/-- No node of a sealed block refers to the fragment. -/
def Unreferred (s : LocalStore) (fragmentId : String) : Prop :=
  ∀ b, s.sealedBlock b → ∀ n ∈ s.nodesInBlock b.id, n.fragmentId ≠ some fragmentId

theorem keeps_referredBySealed {m : SealedMembership} (hm : Protects s₀ agentId m) {f : Fragment}
    (hf : Loose s₀ agentId f) :
    (referredBySealed m f).Keeps (SealsKept s₀) fun referred =>
      referred = false → Unreferred s₀ f.id := by
  have hforeign : ∀ b, s₀.sealedBlock b → b.agentId ≠ agentId →
      ∀ n ∈ s₀.nodesInBlock b.id, n.fragmentId ≠ some f.id := by
    intro b hb howner n hn
    obtain ⟨f₀, hf₀, hid, hagent⟩ := hf.known
    rw [← hid]
    exact hown.nodes b hb howner n hn f₀ hf₀ hagent
  unfold referredBySealed
  split
  · refine Client.keeps_bind (Q := fun nodes : List Node => nodes.any m.protectsNode = false →
      Unreferred s₀ f.id) (Client.keeps_read fun s hk hnone b hb n hn hin => ?_)
      fun nodes hnodes => Client.keeps_pure hnodes
    by_cases howner : b.agentId = agentId
    · rw [List.any_eq_false] at hnone
      refine hnone n ?_ (by simpa [SealedMembership.protectsNode] using (hm b hb howner).2 n hn)
      rw [← hk.nodesInBlock hb] at hn
      obtain ⟨m', -, -, hfind⟩ := mem_nodesInBlock.mp hn
      exact List.mem_filter.mpr ⟨(Table.find?_eq_some_iff.mp hfind).1, decide_eq_true hin⟩
    · exact hforeign b hb howner n hn hin
  · rename_i hempty
    intro _ b hb n hn
    by_cases howner : b.agentId = agentId
    · have hid := (hm b hb howner).1
      rw [SealedMembership.truthy, Bool.not_eq_true', Bool.not_eq_false, List.isEmpty_iff] at hempty
      rw [hempty] at hid
      cases hid
    · exact hforeign b hb howner n hn

omit hown in
theorem keeps_mergeDuplicate (seedId : String) {dup : Fragment} (hdup : Loose s₀ agentId dup)
    (hunref : Unreferred s₀ dup.id) :
    (mergeDuplicate seedId dup).Keeps (SealsKept s₀) fun _ => True := by
  refine Client.keeps_bind (Q := fun nodes => ∀ n ∈ nodes, FreeNode s₀ n.id)
    (Client.keeps_read fun s hk n hn b hb m hm hblock hid => ?_) fun nodes hfree => ?_
  · obtain ⟨hrow, hin⟩ := List.mem_filter.mp hn
    have hfind : s.graph.nodes.find? m.nodeId = some n := Table.find?_eq_some_iff.mpr ⟨hrow, hid.symm⟩
    rw [(hk.members b hb).nodes m hm hblock] at hfind
    exact hunref b hb n (mem_nodesInBlock.mpr ⟨m, hm, hblock, hfind⟩) (of_decide_eq_true hin)
  · refine Client.keeps_bind (Client.keeps_forEach fun n hn => ?_) fun _ _ =>
      keeps_remove hdup.free
    exact keeps_storeNode (hfree n hn)

theorem keeps_dedupPlan (cosine : List ℚ → List ℚ → ℚ) (threshold : ℚ)
    (sessionId : Option String) :
    (dedupPlan cosine threshold agentId sessionId).Keeps (SealsKept s₀) fun plan =>
      ∀ c ∈ plan.2, ∀ f ∈ c.members, Loose s₀ agentId f ∧ Unreferred s₀ f.id := by
  refine Client.keeps_bind (keeps_list hown sessionId) fun all hloose => ?_
  refine Client.keeps_bind (keeps_sealedMembership agentId) fun m hm => ?_
  refine Client.keeps_bind (Q := fun referred : List (Fragment × Bool) => ∀ p ∈ referred,
    Loose s₀ agentId p.1 ∧ (p.2 = false → Unreferred s₀ p.1.id)) ?_ fun referred hreferred => ?_
  · refine Client.keeps_forMap fun f hf => ?_
    obtain ⟨hall, heligible⟩ := List.mem_filter.mp hf
    have hprotects : m.protectsFragment f = false := by
      simp only [dedupEligible, Bool.and_eq_true, Bool.not_eq_true'] at heligible
      exact heligible.1.1
    have hf' := hloose f hall m hm hprotects
    exact Client.keeps_bind (keeps_referredBySealed hown hm hf') fun _ h => ⟨hf', h⟩
  · refine Client.keeps_pure fun c hc f hf => ?_
    have hsorted := mem_buildClusters hc hf
    unfold byImportance at hsorted
    rw [(List.perm_insertionSort _ _).mem_iff, List.mem_filter, List.mem_map] at hsorted
    obtain ⟨⟨p, hp, rfl⟩, -⟩ := hsorted
    obtain ⟨hp, hnot⟩ := List.mem_filter.mp hp
    have hboth := hreferred p hp
    exact ⟨hboth.1, hboth.2 (by simpa using hnot)⟩

theorem keeps_deduplicate (cosine : List ℚ → List ℚ → ℚ) (threshold : ℚ)
    (sessionId : Option String) :
    (deduplicate py cosine threshold agentId sessionId).Keeps (SealsKept s₀) fun _ => True := by
  refine Client.keeps_bind (keeps_dedupPlan hown cosine threshold sessionId) fun plan hplan => ?_
  refine Client.keeps_bind (Q := fun _ => True) ?_ fun _ _ => Client.keeps_pure trivial
  refine (Client.keeps_forMap (Q := fun _ => True) fun c hc => ?_).mono fun _ _ => trivial
  have hmember := hplan c hc
  unfold mergeCluster
  split
  · trivial
  · refine Client.keeps_bind (Q := fun _ => True) (Client.keeps_ofExcept fun _ _ => trivial)
      fun previous _ => ?_
    refine Client.keeps_bind (Q := fun _ => True) (Client.keeps_ofExcept fun _ _ => trivial)
      fun mean _ => ?_
    have hseed := (hmember c.seed List.mem_cons_self).1
    refine Client.keeps_bind (keeps_rewrite py hseed rfl rfl rfl) fun _ _ => ?_
    refine Client.keeps_bind (Client.keeps_forEach fun dup hdup => ?_) fun _ _ =>
      Client.keeps_pure trivial
    have hdup' := hmember dup (List.mem_cons_of_mem _ hdup)
    exact keeps_mergeDuplicate c.seed.id hdup'.1 hdup'.2

end Jobs

/-! ### Runs of jobs -/

inductive MaintenanceJob : Type
  | prune (d : Decay) (edgeFloor : ℚ) (now : Int)
  | consolidate (gate : String → ℚ → GateResult) (threshold : ℚ) (now : Int)
  | deduplicate (cosine : List ℚ → List ℚ → ℚ) (threshold : ℚ) (sessionId : Option String)

/-- The job for an agent, with nothing in between. -/
def MaintenanceJob.step (py : Python) : String × MaintenanceJob → LocalStore → LocalStore
  | (agentId, .prune d edgeFloor now), s => (MarkSdk.prune py d edgeFloor agentId now).after s
  | (agentId, .consolidate gate threshold now), s =>
      (MarkSdk.consolidate py gate agentId threshold now).after s
  | (agentId, .deduplicate cosine threshold sessionId), s =>
      (MarkSdk.deduplicate py cosine threshold agentId sessionId).after s

theorem sealsKept_step (py : Python) {job : String × MaintenanceJob} {s : LocalStore}
    (hown : ForeignSeals job.1 s) : SealsKept s (MaintenanceJob.step py job s) := by
  obtain ⟨agentId, job⟩ := job
  cases job with
  | prune d edgeFloor now => exact (keeps_prune hown py d edgeFloor now).after (.refl s)
  | consolidate gate threshold now =>
      exact (keeps_consolidate hown py gate threshold now).after (.refl s)
  | deduplicate cosine threshold sessionId =>
      exact (keeps_deduplicate hown py cosine threshold sessionId).after (.refl s)

/-- Blocks that verified still verify after maintenance that finds nothing of
its agent in the sealed blocks of others. -/
theorem seals_survive (py : Python) (h : Hashing) (jobs : List (String × MaintenanceJob))
    (s : LocalStore)
    (hown : Along (MaintenanceJob.step py) (fun job s => ForeignSeals job.1 s) jobs s)
    (blockId : String) (hv : Verifies py h s blockId) :
    Verifies py h (run (MaintenanceJob.step py) jobs s) blockId :=
  hown.invariant (I := fun s => Verifies py h s blockId)
    (fun _ _ hv hown => (sealsKept_step py hown).verifies hv) hv

theorem foreignSeals_of_own {agentId : String} {s : LocalStore}
    (h : ∀ b ∈ s.graph.blocks.rows, b.agentId = agentId) : ForeignSeals agentId s where
  fragments b hb hne := absurd (h b hb.1) hne
  edges b hb hne := absurd (h b hb.1) hne
  nodes b hb hne := absurd (h b hb.1) hne

def plainMemory (id agentId content : String) (createdAt : Int) : Fragment where
  id := id
  content := content
  blockId := none
  scope := .agent
  tier := .episodic
  agentId := agentId
  sessionId := none
  importance := 1
  state := .unverified
  confidence := 1
  ttlSeconds := none
  createdAt := createdAt
  updatedAt := createdAt
  lastAccessedAt := none
  tags := []
  source := none
  metadata := []
  embedding := none
  contradictionIds := []

/-- Everything decays to the floor at once. -/
def Decay.total : Decay := ⟨0, fun _ => 0, fun _ => none, toString, fun _ => .int 0⟩

/-- The owner of a block seals it with a memory of `agentId` in it. -/
def sealedWith (agentId : String) : List (String × BlockCall) :=
  [("owner", .chain (.create "b" "block" 1 [])),
    (agentId, .storeFragment (plainMemory "m" agentId "the port is 8080" 1)),
    ("owner", .addFragment "b" "m" 2), ("owner", .chain (.sealBlock "b" 3))]

/-- The store after these calls. -/
def sealedStore (agentId : String) : LocalStore :=
  run (BlockCall.step .basic .plain) (sealedWith agentId) .empty

theorem verifies_sealedStore : Verifies .basic .plain (sealedStore "owner") "b" ∧
    Verifies .basic .plain (sealedStore "guest") "b" := by
  constructor
  · refine verifies_iff.mpr ⟨((sealedStore "owner").getBlock "b").get (by decide +kernel),
      (Option.some_get _).symm, ?_, ?_, ?_, rfl⟩
    all_goals decide +kernel
  · refine verifies_iff.mpr ⟨((sealedStore "guest").getBlock "b").get (by decide +kernel),
      (Option.some_get _).symm, ?_, ?_, ?_, rfl⟩
    all_goals decide +kernel

theorem owner_sealedStore :
    ∀ b ∈ (sealedStore "owner").graph.blocks.rows, b.agentId = "owner" := by
  have howners : (sealedStore "owner").graph.blocks.rows.map Block.agentId = ["owner"] := by
    decide +kernel
  intro b hb
  have hmem := List.mem_map_of_mem (f := Block.agentId) hb
  rw [howners] at hmem
  exact List.mem_singleton.mp hmem

theorem seals_survive_own :
    Verifies .basic .plain
      (run (MaintenanceJob.step .basic) [("owner", .prune .total 1 9)] (sealedStore "owner")) "b" :=
  seals_survive .basic .plain [("owner", .prune .total 1 9)] (sealedStore "owner")
    ⟨foreignSeals_of_own owner_sealedStore, trivial⟩ "b" verifies_sealedStore.1

/-- Pruning another agent deletes its memory from the sealed block. -/
theorem foreign_member_pruned :
    ¬ ∀ (py : Python) (h : Hashing) (calls : List (String × BlockCall))
        (jobs : List (String × MaintenanceJob)) (blockId : String),
      Verifies py h (run (BlockCall.step py h) calls .empty) blockId →
        Verifies py h (run (MaintenanceJob.step py) jobs (run (BlockCall.step py h) calls .empty))
          blockId := by
  intro hsurvive
  exact absurd
    (hsurvive .basic .plain (sealedWith "guest") [("guest", .prune .total 1 9)] "b"
      verifies_sealedStore.2)
    (by decide +kernel)

end MarkSdk
