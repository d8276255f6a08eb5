import Mathlib.Data.List.Forall2
import Mathlib.Tactic.Linarith
import MarkSdk.Blocks.Maintained
import MarkSdk.Memory.Merging

/-!
Pruning in one go and in two.

A run leaves each fragment of the agent as `pruned` says, and it leaves alone
what the next run asks about the sealed blocks. Decay is applied from the time
of the last decay that was stored, so where the decay factor is exact, a run
at `t₁` and one at `t₂` keep the memories that a run at `t₂` alone keeps
(`prune_twice`). A change of at most a millionth is not stored, and so an
importance may stay that much higher.
-/

namespace MarkSdk

open Lib

/-! ### One fragment -/

/-- What a run makes of a fragment that it lists. -/
def pruned (py : Python) (d : Decay) (now : Int) (m : SealedMembership) (f : Fragment) :
    Option Fragment :=
  if prunerProtects f.state || m.protectsFragment f then some f
  else if d.apply py f now ≤ d.floor then none
  else if 1 / 1000000 < |d.apply py f now - f.importance| then
    some { f with
      importance := d.apply py f now
      metadata := d.decayMetadata f now }
  else some f

section One

variable {py : Python} {d : Decay} {now : Int} {m : SealedMembership} {s : LocalStore}

/-- Only the importance and the metadata change. -/
theorem memory_of_pruned {f g : Fragment} (h : pruned py d now m f = some g) :
    g = { f with
      importance := g.importance
      metadata := g.metadata } := by
  unfold pruned at h
  split at h
  · rw [Option.some.inj h]
  · split at h
    · cases h
    · split at h
      · rw [← Option.some.inj h]
      · rw [Option.some.inj h]

def stored (py : Python) (d : Decay) (now : Int) (f : Fragment) : Fragment :=
  if 1 / 1000000 < |d.apply py f now - f.importance| then
    { f with
      importance := d.apply py f now
      metadata := d.decayMetadata f now }
  else f

theorem stored_id (f : Fragment) : (stored py d now f).id = f.id := by
  unfold stored
  split <;> rfl

theorem pruned_eq {f : Fragment} (h : (prunerProtects f.state || m.protectsFragment f) = false) :
    pruned py d now m f =
      if d.apply py f now ≤ d.floor then none else some (stored py d now f) := by
  unfold pruned stored
  rw [h, if_neg Bool.false_ne_true]
  split
  · rfl
  · split <;> rfl

variable (py d now) in
/-- The decay is stored in the row of the fragment. -/
theorem run_persistDecay {f : Fragment} (hf : f ∈ s.db.fragments.rows) :
    ∃ fragments, (Client.when (decide (1 / 1000000 < |d.apply py f now - f.importance|))
        (persistDecay py d now f (d.apply py f now))).run s = (.ok (), s.withFragments fragments) ∧
      fragments.rows = s.db.fragments.rows.map fun r =>
        if r.id = f.id then stored py d now f else r := by
  by_cases hupdated : 1 / 1000000 < |d.apply py f now - f.importance|
  · have hstored : stored py d now f = { f with
        importance := d.apply py f now
        metadata := d.decayMetadata f now } := if_pos hupdated
    rw [hstored]
    have hkey : f.id ∈ s.db.fragments.rows.map Fragment.id := List.mem_map_of_mem hf
    have hupsert := Table.rows_upsert s.db.fragments { f with
      importance := d.apply py f now
      metadata := d.decayMetadata f now }
    refine ⟨_, ?_, hupsert.trans (if_pos hkey)⟩
    rw [decide_eq_true hupdated]
    exact run_rewriteFragment py hf rfl rfl
  · have hstored : stored py d now f = f := if_neg hupdated
    rw [decide_eq_false hupdated, hstored]
    refine ⟨s.db.fragments, rfl, (List.map_id' _).symm.trans (List.map_congr_left fun r hr => ?_)⟩
    split
    · exact s.db.fragments.eq_of_key hr hf ‹_›
    · rfl

variable (py d now m) in
/-- One turn of the loop replaces the row of its fragment. -/
theorem run_pruneFragment {f : Fragment} (hf : f ∈ s.db.fragments.rows) :
    ∃ stats fragments, (pruneFragment py d now m f).run s = (.ok stats, s.withFragments fragments) ∧
      fragments.rows = s.db.fragments.rows.filterMap fun r =>
        if r.id = f.id then pruned py d now m r else some r := by
  have hself : ∀ r ∈ s.db.fragments.rows, r.id = f.id → r = f := fun r hr hid =>
    s.db.fragments.eq_of_key hr hf hid
  unfold pruneFragment
  cases hprotects : prunerProtects f.state || m.protectsFragment f with
  | true =>
      refine ⟨_, s.db.fragments, rfl, ?_⟩
      rw [List.filterMap_congr (g := some), List.filterMap_some]
      intro r hr
      split
      · rw [hself r hr ‹_›, pruned, if_pos hprotects]
      · rfl
  | false =>
      obtain ⟨fragments, hrun, hrows⟩ := run_persistDecay py d now hf
      have hpruned : ∀ r ∈ s.db.fragments.rows, r.id = f.id → pruned py d now m r =
          if d.apply py f now ≤ d.floor then none else some (stored py d now f) := by
        intro r hr hid
        rw [hself r hr hid, pruned_eq hprotects]
      rw [if_neg Bool.false_ne_true]
      dsimp only
      rw [Client.run_bind, hrun]
      dsimp only
      by_cases hfloor : d.apply py f now ≤ d.floor
      · have hremove : (Client.when true (removeFragment f.id)).run (s.withFragments fragments) =
            (.ok (), s.withFragments (fragments.delete fun r => r.id = f.id)) :=
          run_removeFragment (s.withFragments fragments) f.id
        rw [decide_eq_true hfloor, Client.run_bind, hremove]
        refine ⟨_, fragments.delete fun r => r.id = f.id, rfl, ?_⟩
        rw [Table.rows_delete, hrows, ← List.filterMap_eq_map, ← List.filterMap_eq_filter,
          List.filterMap_filterMap]
        refine List.filterMap_congr fun r hr => ?_
        by_cases hid : r.id = f.id
        · rw [if_pos hid, hpruned r hr hid, if_pos hfloor]
          simp [hid, stored_id]
        · simp [hid]
      · rw [decide_eq_false hfloor]
        refine ⟨_, fragments, rfl, ?_⟩
        rw [hrows, ← List.filterMap_eq_map]
        refine List.filterMap_congr fun r hr => ?_
        by_cases hid : r.id = f.id
        · rw [if_pos hid, hpruned r hr hid, if_neg hfloor]
          simp [hid]
        · simp [hid]

variable (py d now m) in
/-- The loop replaces the rows of its fragments. -/
theorem run_pruneFragments {fs : List Fragment} (hfs : fs ⊆ s.db.fragments.rows)
    (hnodup : (fs.map Fragment.id).Nodup) :
    ∃ stats fragments, (Client.forMap (pruneFragment py d now m) fs).run s =
        (.ok stats, s.withFragments fragments) ∧
      fragments.rows = s.db.fragments.rows.filterMap fun r =>
        if r.id ∈ fs.map Fragment.id then pruned py d now m r else some r := by
  induction fs generalizing s with
  | nil => exact ⟨[], s.db.fragments, rfl, by simp⟩
  | cons f fs ih =>
      obtain ⟨stats, fragments, hrun, hrows⟩ := run_pruneFragment py d now m (hfs List.mem_cons_self)
      rw [List.map_cons, List.nodup_cons] at hnodup
      have hrest : fs ⊆ (s.withFragments fragments).db.fragments.rows := by
        intro g hg
        rw [LocalStore.withFragments_fragments, hrows, List.mem_filterMap]
        refine ⟨g, hfs (List.mem_cons_of_mem f hg), if_neg fun hid => hnodup.1 ?_⟩
        exact hid ▸ List.mem_map_of_mem hg
      obtain ⟨stats', fragments', hrun', hrows'⟩ := ih hrest hnodup.2
      refine ⟨stats :: stats', fragments', ?_, ?_⟩
      · show ((pruneFragment py d now m f) >>= fun y =>
          (Client.forMap (pruneFragment py d now m) fs).bind fun ys => .done (y :: ys)).run s = _
        rw [Client.run_bind, hrun]
        dsimp only
        rw [Client.run_bind', hrun']
        rfl
      · rw [hrows', LocalStore.withFragments_fragments, hrows, List.filterMap_filterMap]
        refine List.filterMap_congr fun r _ => ?_
        simp only [List.map_cons, List.mem_cons]
        by_cases hid : r.id = f.id
        · rw [if_pos hid, if_pos (.inl hid)]
          cases hpruned : pruned py d now m r with
          | none => rfl
          | some g =>
              refine if_neg ?_
              rw [memory_of_pruned hpruned, hid]
              exact hnodup.1
        · rw [if_neg hid]
          simp [hid]

end One

/-! ### The sealed blocks -/

section Sealed

variable {s s' : LocalStore} {agentId : String}

/-- The blocks of the agent that were ever sealed hold the same. -/
structure SameSealed (agentId : String) (s s' : LocalStore) : Prop where
  blocks : s'.graph.blocks = s.graph.blocks
  fragments : ∀ b ∈ s.listBlocks agentId, b.everSealed = true →
    s'.fragmentsForBlock b.id = s.fragmentsForBlock b.id
  nodes : ∀ b ∈ s.listBlocks agentId, b.everSealed = true → s'.nodesInBlock b.id = s.nodesInBlock b.id
  edges : ∀ b ∈ s.listBlocks agentId, b.everSealed = true → s'.edgesInBlock b.id = s.edgesInBlock b.id

theorem SameSealed.collectMembers (h : SameSealed agentId s s') {blocks : List Block}
    (hblocks : blocks ⊆ s.listBlocks agentId) (m : SealedMembership) :
    ((MarkSdk.collectMembers m blocks).run s').1 = ((MarkSdk.collectMembers m blocks).run s).1 := by
  induction blocks generalizing m with
  | nil => rfl
  | cons b blocks ih =>
      have hb : b ∈ s.listBlocks agentId := hblocks List.mem_cons_self
      have hrest : blocks ⊆ s.listBlocks agentId := fun c hc => hblocks (List.mem_cons_of_mem b hc)
      unfold MarkSdk.collectMembers
      split
      · rename_i hever
        simp only [Client.run_bind, Client.run_read, h.fragments b hb hever, h.nodes b hb hever,
          h.edges b hb hever]
        exact ih hrest _
      · exact ih hrest m

/-- They protect the same. -/
theorem SameSealed.membership (h : SameSealed agentId s s') :
    s'.membership agentId = s.membership agentId := by
  have hlist : s'.listBlocks agentId = s.listBlocks agentId := by
    unfold LocalStore.listBlocks
    rw [h.blocks]
  have hrun : ((sealedMembership agentId).run s').1 = ((sealedMembership agentId).run s).1 := by
    unfold sealedMembership
    simp only [Client.run_bind, Client.run_read, hlist]
    exact h.collectMembers (List.Subset.refl _) .empty
  rw [run_sealedMembership, run_sealedMembership] at hrun
  exact Except.ok.inj hrun

theorem keeps_blockIds (J : LocalStore → Prop) (m : SealedMembership) (blocks : List Block) :
    (collectMembers m blocks).Keeps J fun m' => m.blockIds ⊆ m'.blockIds ∧
      ∀ b ∈ blocks, b.everSealed = true → b.id ∈ m'.blockIds := by
  induction blocks generalizing m with
  | nil => exact ⟨List.Subset.refl _, fun b hb => absurd hb List.not_mem_nil⟩
  | cons block blocks ih =>
      unfold collectMembers
      split
      · refine Client.keeps_bind (Q := fun _ => True) (Client.keeps_read fun _ _ => trivial)
          fun fragments _ => Client.keeps_bind (Q := fun _ => True)
            (Client.keeps_read fun _ _ => trivial) fun nodes _ => Client.keeps_bind
              (Q := fun _ => True) (Client.keeps_read fun _ _ => trivial) fun edges _ => ?_
        refine (ih _).mono fun m' hm' => ⟨fun id hid => hm'.1 (List.mem_append_left _ hid), ?_⟩
        exact List.forall_mem_cons.mpr
          ⟨fun _ => hm'.1 (List.mem_append_right _ List.mem_cons_self), hm'.2⟩
      · rename_i hnever
        refine (ih m).mono fun m' hm' => ⟨hm'.1, ?_⟩
        exact List.forall_mem_cons.mpr ⟨fun hever => absurd hever hnever, hm'.2⟩

theorem mem_blockIds {b : Block} (hb : b ∈ s.listBlocks agentId) (hever : b.everSealed = true) :
    b.id ∈ (s.membership agentId).blockIds := by
  have hkeeps : (sealedMembership agentId).Keeps (fun t => t = s) fun m =>
      ∀ b ∈ s.listBlocks agentId, b.everSealed = true → b.id ∈ m.blockIds := by
    refine Client.keeps_bind (Q := fun blocks => blocks = s.listBlocks agentId)
      (Client.keeps_read fun t ht => by rw [ht]) fun blocks hblocks => ?_
    subst hblocks
    exact (keeps_blockIds _ .empty _).mono fun m hm => hm.2
  exact hkeeps.result rfl (run_sealedMembership agentId s) b hb hever

/-- The memories in a sealed block of their agent are protected. -/
theorem protectsFragment_of_sealed {b : Block} (hb : b ∈ s.listBlocks agentId)
    (hever : b.everSealed = true) {f : Fragment} (hf : f.blockId = some b.id) :
    (s.membership agentId).protectsFragment f = true :=
  protectsFragment_of_block hf (mem_blockIds hb hever)

end Sealed

/-! ### A run -/

/-- The second loop has deleted edges that the membership does not protect. -/
structure EdgesGone (m : SealedMembership) (s s' : LocalStore) : Prop where
  db : s'.db = s.db
  blocks : s'.graph.blocks = s.graph.blocks
  nodes : s'.graph.nodes = s.graph.nodes
  memberships : s'.graph.blockNodes = s.graph.blockNodes
  part : s'.graph.edges.rows ⊆ s.graph.edges.rows
  sealed_ : ∀ id ∈ m.blockIds, (s'.graph.edges.rows.filter fun e => e.blockId = some id) =
    s.graph.edges.rows.filter fun e => e.blockId = some id

section Run

variable {py : Python} {d : Decay} {now : Int} {m : SealedMembership} {s s' : LocalStore}
  {agentId : String}

theorem EdgesGone.refl (m : SealedMembership) (s : LocalStore) : EdgesGone m s s :=
  ⟨rfl, rfl, rfl, rfl, List.Subset.refl _, fun _ _ => rfl⟩

theorem keeps_dissolveEdge (edgeFloor : ℚ) {e : Edge} (he : e ∈ s.graph.edges.rows) :
    (dissolveEdge edgeFloor m e).Keeps (EdgesGone m s) fun _ => True := by
  unfold dissolveEdge
  split
  · trivial
  · rename_i hnot
    refine Client.keeps_bind (Q := fun _ => True) ?_ fun _ _ => trivial
    refine Client.keeps_bind (Client.keeps_txn ?_) fun _ _ => trivial
    refine Txn.each_bind (Txn.each_updateCount fun t ht => ?_) fun _ => trivial
    refine ⟨ht.db, ht.blocks, ht.nodes, ht.memberships, ?_, fun id hid => ?_⟩
    · exact fun e' he' => ht.part (List.mem_filter.mp he').1
    · rw [← ht.sealed_ id hid]
      refine Table.filter_delete fun e' he' hin => ?_
      rw [decide_eq_false_iff_not]
      intro hsame
      obtain rfl := s.graph.edges.eq_of_key (ht.part he') he hsame
      rw [Bool.or_eq_true, not_or, protectsEdge_of_block (of_decide_eq_true hin) hid] at hnot
      exact hnot.1 rfl

/-- A selection of rows that stay as they are, and into which no other row
comes. -/
theorem filter_filterMap_of_fixed {change : Fragment → Option Fragment} {p : Fragment → Bool}
    {rows : List Fragment} (hin : ∀ r ∈ rows, p r = true → change r = some r)
    (hout : ∀ r ∈ rows, p r = false → ∀ g, change r = some g → p g = false) :
    (rows.filterMap change).filter p = rows.filter p := by
  induction rows with
  | nil => rfl
  | cons r rows ih =>
      have hrest := ih (fun r' hr' => hin r' (List.mem_cons_of_mem r hr'))
        fun r' hr' => hout r' (List.mem_cons_of_mem r hr')
      cases hp : p r with
      | true =>
          rw [List.filterMap_cons_some (hin r List.mem_cons_self hp), List.filter_cons_of_pos hp,
            List.filter_cons_of_pos hp, hrest]
      | false =>
          rw [List.filter_cons_of_neg (by simp [hp])]
          cases hchange : change r with
          | none => rw [List.filterMap_cons_none hchange, hrest]
          | some g =>
              have hg := hout r List.mem_cons_self hp g hchange
              rw [List.filterMap_cons_some hchange, List.filter_cons_of_neg (by simp [hg]), hrest]

theorem mem_listByAgent_iff {f : Fragment} :
    f ∈ s.listByAgent agentId none ↔
      f ∈ s.db.fragments.rows ∧ f.agentId = agentId ∧ s.visible f = true := by
  unfold LocalStore.listByAgent
  rw [(List.perm_insertionSort _ _).mem_iff, List.mem_filter]
  simp

/-- What a run makes of a row. -/
def prunedRow (py : Python) (d : Decay) (now : Int) (s : LocalStore) (agentId : String)
    (f : Fragment) : Option Fragment :=
  if f.agentId = agentId ∧ s.visible f = true then pruned py d now (s.membership agentId) f
  else some f

/-- A run prunes each row, and leaves what the next one asks about blocks. -/
structure PrunedStore (py : Python) (d : Decay) (now : Int) (agentId : String)
    (s s' : LocalStore) : Prop where
  rows : s'.db.fragments.rows = s.db.fragments.rows.filterMap (prunedRow py d now s agentId)
  blocks : s'.graph.blocks = s.graph.blocks
  membership : s'.membership agentId = s.membership agentId

theorem prunedStore_after (edgeFloor : ℚ) :
    PrunedStore py d now agentId s ((prune py d edgeFloor agentId now).after s) := by
  have hlisted : s.listByAgent agentId none ⊆ s.db.fragments.rows := fun f hf =>
    (mem_listByAgent_iff.mp hf).1
  have hnodup : ((s.listByAgent agentId none).map Fragment.id).Nodup := by
    unfold LocalStore.listByAgent
    rw [((List.perm_insertionSort _ _).map Fragment.id).nodup_iff]
    exact s.db.fragments.nodup.sublist (List.filter_sublist.map Fragment.id)
  obtain ⟨stats, fragments, hrun, hrows⟩ := run_pruneFragments py d now
    (s.membership agentId) hlisted hnodup
  have hlist : ∀ r ∈ s.db.fragments.rows,
      r.id ∈ (s.listByAgent agentId none).map Fragment.id ↔ r.agentId = agentId ∧ s.visible r = true := by
    intro r hr
    constructor
    · intro hid
      obtain ⟨f, hf, hsame⟩ := List.mem_map.mp hid
      obtain ⟨hrow, hboth⟩ := mem_listByAgent_iff.mp hf
      exact s.db.fragments.eq_of_key hrow hr hsame ▸ hboth
    · exact fun hboth => List.mem_map_of_mem (mem_listByAgent_iff.mpr ⟨hr, hboth⟩)
  have hrows' : fragments.rows = s.db.fragments.rows.filterMap (prunedRow py d now s agentId) := by
    rw [hrows]
    refine List.filterMap_congr fun r hr => ?_
    unfold prunedRow
    simp only [hlist r hr]
  -- the second loop
  have hafter : EdgesGone (s.membership agentId) (s.withFragments fragments)
      ((prune py d edgeFloor agentId now).after s) := by
    unfold prune
    rw [Client.after_bind (run_sealedMembership agentId s), Client.after_bind (Client.run_read _ s),
      Client.after_bind hrun, Client.after_bind (Client.run_read _ _), Client.after_bind_pure]
    refine (Client.keeps_forMap (Q := fun _ => True) fun e he => ?_).after (EdgesGone.refl _ _)
    unfold LocalStore.listEdges at he
    rw [(List.perm_insertionSort _ _).mem_iff, List.mem_filter] at he
    exact keeps_dissolveEdge edgeFloor he.1
  refine ⟨by rw [hafter.db]; exact hrows', hafter.blocks, SameSealed.membership ?_⟩
  refine ⟨hafter.blocks, fun b hb hever => ?_, fun b _ _ => ?_, fun b hb hever => ?_⟩
  · unfold LocalStore.fragmentsForBlock
    rw [hafter.db, LocalStore.withFragments_fragments, hrows']
    congr 1
    refine filter_filterMap_of_fixed (fun r _ hin => ?_) fun r _ hout g hg => ?_
    · unfold prunedRow pruned
      rw [protectsFragment_of_sealed hb hever (of_decide_eq_true hin), Bool.or_true, if_pos rfl, ite_self]
    · have hblock : g.blockId = r.blockId := by
        unfold prunedRow at hg
        split at hg
        · rw [memory_of_pruned hg]
        · rw [Option.some.inj hg]
      rw [hblock]
      exact hout
  · unfold LocalStore.nodesInBlock
    rw [hafter.memberships, hafter.nodes]
    rfl
  · unfold LocalStore.edgesInBlock
    rw [hafter.sealed_ b.id (mem_blockIds hb hever)]
    rfl

end Run

/-! ### Decay in two steps -/

/-- The decay factor in exact arithmetic. -/
structure Decay.Exact (d : Decay) : Prop where
  add : ∀ a b, 0 ≤ a → 0 ≤ b → d.factor (a + b) = d.factor a * d.factor b
  nonneg : ∀ a, 0 ≤ a → 0 ≤ d.factor a
  le_one : ∀ a, 0 ≤ a → d.factor a ≤ 1

/-- The time of a decay is read as it was written. -/
structure Decay.ReadsBack (d : Decay) (now : Int) : Prop where
  text : d.isoformat now ≠ ""
  read : d.fromisoformat (d.isoformat now) = some now

section Decay

variable {py : Python} {d : Decay} {t₁ t₂ : Int} {m : SealedMembership} {f : Fragment}

theorem Decay.Exact.antitone (hd : d.Exact) {a b : Int} (ha : 0 ≤ a) (hab : a ≤ b) :
    d.factor b ≤ d.factor a := by
  have hsum : d.factor b = d.factor a * d.factor (b - a) := by
    rw [← hd.add a (b - a) ha (by omega), add_sub_cancel]
  rw [hsum]
  exact mul_le_of_le_one_right (hd.nonneg a ha) (hd.le_one (b - a) (by omega))

/-- How long the decay goes back to. -/
def Decay.age (py : Python) (d : Decay) (f : Fragment) (now : Int) : Int :=
  max 0 (now - d.referenceTime py f)

variable (py d) in
theorem Decay.age_nonneg (f : Fragment) (now : Int) : 0 ≤ d.age py f now := le_max_left _ _

theorem Decay.apply_eq (h : f.state ≠ .promoted) (now : Int) :
    d.apply py f now = max d.floor (min 1 (f.importance * d.factor (d.age py f now))) :=
  if_neg h

theorem Decay.apply_antitone (hd : d.Exact) (h : t₁ ≤ t₂) (hpos : 0 ≤ f.importance)
    (hstate : f.state ≠ .promoted) : d.apply py f t₂ ≤ d.apply py f t₁ := by
  rw [apply_eq hstate, apply_eq hstate]
  have hage : d.age py f t₁ ≤ d.age py f t₂ := by
    unfold age
    omega
  have hfactor := hd.antitone (age_nonneg py d f t₁) hage
  exact max_le_max_left _ (min_le_min_left _ (mul_le_mul_of_nonneg_left hfactor hpos))

/-- Above the floor nothing is cut off. -/
theorem Decay.apply_of_floor_lt (hd : d.Exact) (hone : f.importance ≤ 1)
    (hstate : f.state ≠ .promoted) (hfloor : d.floor < d.apply py f t₁) :
    d.apply py f t₁ = f.importance * d.factor (d.age py f t₁) := by
  rw [apply_eq hstate] at hfloor ⊢
  have hle : f.importance * d.factor (d.age py f t₁) ≤ 1 :=
    mul_le_one₀ hone (hd.nonneg _ (age_nonneg py d f t₁)) (hd.le_one _ (age_nonneg py d f t₁))
  rw [min_eq_right hle] at hfloor ⊢
  exact max_eq_right ((lt_max_iff.mp hfloor).resolve_left (lt_irrefl _)).le

/-- The fragment with the decay at `t₁` in it. -/
theorem Decay.referenceTime_decayed (hread : d.ReadsBack t₁) (importance : ℚ) :
    d.referenceTime py { f with
      importance := importance
      metadata := d.decayMetadata f t₁ } = t₁ := by
  have hrecord : ((decayRecord (d.decayMetadata f t₁)).bind fun record =>
      record.lookup "last_decay_at") = some (.str (d.isoformat t₁)) := by
    unfold decayMetadata decayRecord
    rw [lookup_assign_self]
    rfl
  have htrue : (PyValue.str (d.isoformat t₁)).truthy = true := by
    simp [PyValue.truthy, hread.text]
  unfold referenceTime
  dsimp only
  rw [hrecord]
  dsimp only
  rw [if_pos htrue, pyStr, hread.read]
  rfl

/-- Decayed in two steps, or in one. -/
theorem Decay.apply_apply (hd : d.Exact) (h : t₁ ≤ t₂) (hread : d.ReadsBack t₁)
    (hone : f.importance ≤ 1) (hstate : f.state ≠ .promoted)
    (hfloor : d.floor < d.apply py f t₁) (hchanged : d.apply py f t₁ ≠ f.importance) :
    d.apply py { f with
      importance := d.apply py f t₁
      metadata := d.decayMetadata f t₁ } t₂ = d.apply py f t₂ := by
  have hfirst := apply_of_floor_lt hd hone hstate hfloor
  have hage : d.age py { f with
      importance := d.apply py f t₁
      metadata := d.decayMetadata f t₁ } t₂ = t₂ - t₁ := by
    unfold age
    rw [referenceTime_decayed hread]
    omega
  have hwhole : d.factor (d.age py f t₁) * d.factor (t₂ - t₁) = d.factor (d.age py f t₂) := by
    by_cases hpast : d.referenceTime py f ≤ t₁
    · rw [← hd.add _ _ (age_nonneg py d f t₁) (by omega)]
      congr 1
      unfold age
      omega
    · -- no time has passed at `t₁`, and a factor that changes something is zero
      have hzero : d.age py f t₁ = 0 := by
        unfold age
        omega
      have hidem := hd.add 0 0 (le_refl 0) (le_refl 0)
      rw [hzero] at hfirst ⊢
      rcases eq_or_ne (d.factor 0) 0 with hnone | hsome
      · have hage₂ := age_nonneg py d f t₂
        have hle := hd.antitone (le_refl 0) hage₂
        rw [hnone] at hle
        rw [hnone, zero_mul, le_antisymm hle (hd.nonneg _ hage₂)]
      · have hfull : d.factor 0 = 1 := by
          rw [Int.add_zero] at hidem
          exact (mul_right_cancel₀ hsome (by rw [one_mul]; exact hidem)).symm
        rw [hfull, mul_one] at hfirst
        exact absurd hfirst hchanged
  rw [apply_eq (f := { f with
    importance := d.apply py f t₁
    metadata := d.decayMetadata f t₁ }) hstate, hage, hfirst, mul_assoc, hwhole, apply_eq hstate]

theorem lookup_decayMetadata_ne (d : Decay) (f : Fragment) (now : Int) {key : String}
    (hne : key ≠ decayMetadataKey) :
    (d.decayMetadata f now).lookup key = f.metadata.lookup key :=
  lookup_assign_ne _ hne

/-- The same memory but for the notes of its decay, with an importance that is
the same or, where the second change was not stored, at most a millionth
higher. -/
structure DecayedAlike (kept : Fragment → Prop) (g h : Fragment) : Prop where
  memory : g = { h with
    importance := g.importance
    metadata := g.metadata }
  notes : ∀ key, key ≠ decayMetadataKey → g.metadata.lookup key = h.metadata.lookup key
  importance : g.importance = h.importance ∨
    kept g ∧ h.importance < g.importance ∧ g.importance ≤ h.importance + 1 / 1000000

theorem DecayedAlike.refl (kept : Fragment → Prop) (f : Fragment) : DecayedAlike kept f f :=
  ⟨rfl, fun _ _ => rfl, .inl rfl⟩

/-- Both are gone, or both are there and alike. -/
def GoneOrAlike (kept : Fragment → Prop) (twice once : Option Fragment) : Prop :=
  (twice = none ∧ once = none) ∨
    ∃ g h, twice = some g ∧ once = some h ∧ DecayedAlike kept g h

theorem GoneOrAlike.refl (kept : Fragment → Prop) (r : Option Fragment) : GoneOrAlike kept r r := by
  cases r with
  | none => exact .inl ⟨rfl, rfl⟩
  | some f => exact .inr ⟨f, f, rfl, rfl, .refl kept f⟩

/-- A decay that is stored at `t₁`, and then pruned at `t₂`. -/
theorem pruned_stored (hd : d.Exact) (h : t₁ ≤ t₂) (hread : d.ReadsBack t₁)
    (hpos : 0 ≤ f.importance) (hone : f.importance ≤ 1)
    (hprotects : (prunerProtects f.state || m.protectsFragment f) = false)
    (hstate : f.state ≠ .promoted) (hfloor : d.floor < d.apply py f t₁)
    (hupdated : 1 / 1000000 < |d.apply py f t₁ - f.importance|) :
    GoneOrAlike (fun g => g = stored py d t₁ f) (pruned py d t₂ m (stored py d t₁ f))
      (pruned py d t₂ m f) := by
  have hfirst := Decay.apply_of_floor_lt hd hone hstate hfloor
  have hless : d.apply py f t₂ ≤ d.apply py f t₁ := Decay.apply_antitone hd h hpos hstate
  have hlower : d.apply py f t₁ ≤ f.importance := by
    rw [hfirst]
    exact mul_le_of_le_one_right hpos (hd.le_one _ (Decay.age_nonneg py d f t₁))
  have hgap : d.apply py f t₁ < f.importance - 1 / 1000000 := by
    rw [abs_sub_comm, abs_of_nonneg (sub_nonneg.mpr hlower)] at hupdated
    linarith
  have hf₁ : stored py d t₁ f = { f with
      importance := d.apply py f t₁
      metadata := d.decayMetadata f t₁ } := if_pos hupdated
  have hf₂ : stored py d t₂ f = { f with
      importance := d.apply py f t₂
      metadata := d.decayMetadata f t₂ } := by
    refine if_pos ?_
    rw [abs_sub_comm, abs_of_nonneg (by linarith)]
    linarith
  generalize stored py d t₁ f = f₁ at hf₁ ⊢
  have happly : d.apply py f₁ t₂ = d.apply py f t₂ := by
    rw [hf₁]
    exact Decay.apply_apply hd h hread hone hstate hfloor (by linarith)
  have hprotects₁ : (prunerProtects f₁.state || m.protectsFragment f₁) = false := by
    rw [hf₁]
    exact hprotects
  rw [pruned_eq hprotects₁, pruned_eq hprotects, happly, hf₂]
  by_cases hgone : d.apply py f t₂ ≤ d.floor
  · rw [if_pos hgone, if_pos hgone]
    exact .inl ⟨rfl, rfl⟩
  · rw [if_neg hgone, if_neg hgone]
    refine .inr ⟨_, _, rfl, rfl, ?_⟩
    by_cases hsecond : 1 / 1000000 < |d.apply py f₁ t₂ - f₁.importance|
    · rw [stored, if_pos hsecond, happly, hf₁]
      refine ⟨rfl, fun key hne => ?_, .inl rfl⟩
      rw [lookup_decayMetadata_ne d _ t₂ hne, lookup_decayMetadata_ne d f t₁ hne,
        lookup_decayMetadata_ne d f t₂ hne]
    · -- the second change is not stored
      rw [stored, if_neg hsecond]
      rw [happly, hf₁, abs_sub_comm, abs_of_nonneg (sub_nonneg.mpr hless)] at hsecond
      refine ⟨by rw [hf₁], fun key hne => ?_, ?_⟩
      · rw [hf₁, lookup_decayMetadata_ne d f t₁ hne, lookup_decayMetadata_ne d f t₂ hne]
      rcases hless.lt_or_eq with hlt | heq
      · refine .inr ⟨rfl, ?_, ?_⟩
        · rw [hf₁]
          exact hlt
        · rw [hf₁]
          show d.apply py f t₁ ≤ d.apply py f t₂ + 1 / 1000000
          linarith
      · left
        rw [hf₁, heq]

/-- A fragment that is pruned at `t₁` and at `t₂`. -/
theorem pruned_pruned (hd : d.Exact) (h : t₁ ≤ t₂) (hread : d.ReadsBack t₁)
    (hpos : 0 ≤ f.importance) (hone : f.importance ≤ 1) :
    GoneOrAlike (fun g => pruned py d t₁ m f = some g)
      ((pruned py d t₁ m f).bind (pruned py d t₂ m)) (pruned py d t₂ m f) := by
  cases hprotects : prunerProtects f.state || m.protectsFragment f with
  | true =>
      have hstays (now : Int) : pruned py d now m f = some f := by
        rw [pruned, if_pos hprotects]
      rw [hstays t₁, hstays t₂]
      exact .inr ⟨f, f, hstays t₂, rfl, .refl _ f⟩
  | false =>
      have hstate : f.state ≠ .promoted := by
        intro hpromoted
        rw [hpromoted] at hprotects
        cases hprotects
      have hthen : pruned py d t₁ m f =
          if d.apply py f t₁ ≤ d.floor then none else some (stored py d t₁ f) := pruned_eq hprotects
      rw [hthen]
      by_cases hfloor : d.apply py f t₁ ≤ d.floor
      · have hless : d.apply py f t₂ ≤ d.apply py f t₁ := Decay.apply_antitone hd h hpos hstate
        rw [if_pos hfloor, pruned_eq hprotects, if_pos (hless.trans hfloor)]
        exact .inl ⟨rfl, rfl⟩
      · rw [if_neg hfloor, Option.bind_some]
        by_cases hupdated : 1 / 1000000 < |d.apply py f t₁ - f.importance|
        · have hstored := pruned_stored (m := m) hd h hread hpos hone hprotects hstate
            (not_le.mp hfloor) hupdated
          simpa only [Option.some.injEq, eq_comm] using hstored
        · have hsame : stored py d t₁ f = f := if_neg hupdated
          rw [hsame]
          exact .refl _ _

end Decay

/-! ### Two runs -/

section Runs

variable {py : Python} {d : Decay} {t₁ t₂ now : Int} {agentId : String} {s s' : LocalStore}

theorem PrunedStore.prunedRow_eq (h : PrunedStore py d t₁ agentId s s') (f : Fragment) :
    prunedRow py d now s' agentId f = prunedRow py d now s agentId f := by
  have hvisible : s'.visible f = s.visible f := by
    unfold LocalStore.visible
    rw [h.blocks]
  unfold prunedRow
  rw [hvisible, h.membership]

/-- A row that is pruned at `t₁` and at `t₂`. -/
theorem prunedRow_prunedRow (hd : d.Exact) (h : t₁ ≤ t₂) (hread : d.ReadsBack t₁) {f : Fragment}
    (hpos : 0 ≤ f.importance) (hone : f.importance ≤ 1) :
    GoneOrAlike (fun g => prunedRow py d t₁ s agentId f = some g)
      ((prunedRow py d t₁ s agentId f).bind (prunedRow py d t₂ s agentId))
      (prunedRow py d t₂ s agentId f) := by
  by_cases hlisted : f.agentId = agentId ∧ s.visible f = true
  · have hrow (now : Int) : prunedRow py d now s agentId f =
        pruned py d now (s.membership agentId) f := if_pos hlisted
    have hbind : (prunedRow py d t₁ s agentId f).bind (prunedRow py d t₂ s agentId) =
        (pruned py d t₁ (s.membership agentId) f).bind (pruned py d t₂ (s.membership agentId)) := by
      rw [hrow]
      cases hg : pruned py d t₁ (s.membership agentId) f with
      | none => rfl
      | some g =>
          refine if_pos ?_
          unfold LocalStore.visible
          rw [memory_of_pruned hg]
          exact hlisted
    rw [hbind, hrow t₂]
    simp only [hrow t₁]
    exact pruned_pruned hd h hread hpos hone
  · have hrow (now : Int) : prunedRow py d now s agentId f = some f := if_neg hlisted
    rw [hrow t₂, hrow t₁, Option.bind_some, hrow t₂]
    exact .refl _ _

/-- Rows that are gone or alike, one by one. -/
theorem forall₂_filterMap {change change' : Fragment → Option Fragment}
    {kept : Fragment → Prop} {rows : List Fragment}
    (h : ∀ r ∈ rows, GoneOrAlike kept (change r) (change' r)) :
    List.Forall₂ (DecayedAlike kept) (rows.filterMap change) (rows.filterMap change') := by
  induction rows with
  | nil => exact .nil
  | cons r rows ih =>
      have hrest := ih fun r' hr' => h r' (List.mem_cons_of_mem r hr')
      rcases h r List.mem_cons_self with ⟨hgone, hgone'⟩ | ⟨g, g', hg, hg', halike⟩
      · rw [List.filterMap_cons_none hgone, List.filterMap_cons_none hgone']
        exact hrest
      · rw [List.filterMap_cons_some hg, List.filterMap_cons_some hg']
        exact .cons halike hrest

/-- Two runs leave what the second one alone leaves, but for importances that
the run in between has left at most a millionth higher. -/
structure PathIndependent (agentId : String) (s between twice once : LocalStore) : Prop where
  survivors : List.Forall₂ (DecayedAlike fun g => g ∈ between.db.fragments.rows)
    twice.db.fragments.rows once.db.fragments.rows
  untouched : ∀ f ∈ s.db.fragments.rows,
    prunerProtects f.state = true ∨ (s.membership agentId).protectsFragment f = true →
      f ∈ twice.db.fragments.rows ∧ f ∈ once.db.fragments.rows

theorem prune_twice (py : Python) {d : Decay} (hd : d.Exact) (edgeFloor : ℚ) (agentId : String)
    {t₁ t₂ : Int} (h : t₁ ≤ t₂) (hread : d.ReadsBack t₁) (s : LocalStore)
    (himportance : ∀ f ∈ s.db.fragments.rows, 0 ≤ f.importance ∧ f.importance ≤ 1) :
    PathIndependent agentId s ((prune py d edgeFloor agentId t₁).after s)
      ((prune py d edgeFloor agentId t₂).after ((prune py d edgeFloor agentId t₁).after s))
      ((prune py d edgeFloor agentId t₂).after s) := by
  have hbetween : PrunedStore py d t₁ agentId s ((prune py d edgeFloor agentId t₁).after s) :=
    prunedStore_after edgeFloor
  generalize (prune py d edgeFloor agentId t₁).after s = between at hbetween ⊢
  have htwice : PrunedStore py d t₂ agentId between ((prune py d edgeFloor agentId t₂).after between) :=
    prunedStore_after edgeFloor
  have honce : PrunedStore py d t₂ agentId s ((prune py d edgeFloor agentId t₂).after s) :=
    prunedStore_after edgeFloor
  have hrows : ((prune py d edgeFloor agentId t₂).after between).db.fragments.rows =
      s.db.fragments.rows.filterMap fun f =>
        (prunedRow py d t₁ s agentId f).bind (prunedRow py d t₂ s agentId) := by
    rw [htwice.rows, hbetween.rows, List.filterMap_filterMap]
    simp only [hbetween.prunedRow_eq]
  constructor
  · rw [hrows, honce.rows]
    refine forall₂_filterMap fun f hf => ?_
    obtain ⟨hpos, hone⟩ := himportance f hf
    rcases @prunedRow_prunedRow py d t₁ t₂ agentId s hd h hread f hpos hone with
      hgone | ⟨g, g', hg, hg', halike⟩
    · exact .inl hgone
    · refine .inr ⟨g, g', hg, hg', halike.memory, halike.notes,
        halike.importance.imp_right fun hkept => ?_⟩
      refine ⟨?_, hkept.2⟩
      rw [hbetween.rows, List.mem_filterMap]
      exact ⟨f, hf, hkept.1⟩
  · intro f hf hprotected
    have hboth : (prunerProtects f.state || (s.membership agentId).protectsFragment f) = true :=
      (Bool.or_eq_true _ _).mpr hprotected
    have hstays (now : Int) : prunedRow py d now s agentId f = some f := by
      unfold prunedRow pruned
      rw [if_pos hboth, ite_self]
    rw [hrows, honce.rows, List.mem_filterMap, List.mem_filterMap]
    exact ⟨⟨f, hf, by rw [hstays, Option.bind_some, hstays]⟩, f, hf, hstays t₂⟩

end Runs

/-! ### A change that is not stored -/

/-- A millionth is lost at every step. -/
def shrink : Nat → ℚ
  | 0 => 1
  | n + 1 => shrink n * (999999 / 1000000)

theorem shrink_add (m n : Nat) : shrink (m + n) = shrink m * shrink n := by
  induction n with
  | zero => exact (mul_one _).symm
  | succ n ih => rw [Nat.add_succ, shrink, ih, shrink, mul_assoc]

theorem shrink_nonneg (n : Nat) : 0 ≤ shrink n := by
  induction n with
  | zero => exact zero_le_one
  | succ n ih => exact mul_nonneg ih (by norm_num)

theorem shrink_le_one (n : Nat) : shrink n ≤ 1 := by
  induction n with
  | zero => exact le_refl 1
  | succ n ih => exact mul_le_one₀ ih (by norm_num) (by norm_num)

/-- A millionth is lost in each microsecond. -/
def Decay.slow : Decay where
  floor := 1 / 20
  factor := fun age => shrink age.toNat
  fromisoformat := fun text =>
    if text = "1970-01-01T00:00:00.000002+00:00" then some 2 else none
  isoformat := fun time => if time = 2 then "1970-01-01T00:00:00.000002+00:00" else toString time
  float := fun value => .other (toString value)

theorem Decay.exact_slow : Decay.slow.Exact where
  add a b ha hb := by
    show shrink (a + b).toNat = shrink a.toNat * shrink b.toNat
    rw [Int.toNat_add ha hb, shrink_add]
  nonneg a _ := shrink_nonneg a.toNat
  le_one a _ := shrink_le_one a.toNat

/-- The memory of `agentId` made at the start of the epoch. -/
def plainStore (agentId : String) : LocalStore :=
  run (BlockCall.step .basic .plain)
    [(agentId, .storeFragment (plainMemory "m" agentId "the port is 8080" 0))] .empty

theorem prune_twice_slow : PathIndependent "guest" (plainStore "guest")
    ((prune .basic .slow 1 "guest" 2).after (plainStore "guest"))
    ((prune .basic .slow 1 "guest" 3).after
      ((prune .basic .slow 1 "guest" 2).after (plainStore "guest")))
    ((prune .basic .slow 1 "guest" 3).after (plainStore "guest")) :=
  prune_twice .basic Decay.exact_slow 1 "guest" (by decide) ⟨by decide, by decide⟩
    (plainStore "guest") (by decide +kernel)

/-- The second change, of a millionth, is not stored. -/
theorem prune_twice_differs :
    ¬ ∀ (py : Python) (d : Decay) (edgeFloor : ℚ) (agentId : String) (t₁ t₂ : Int) (s : LocalStore),
      d.Exact → t₁ ≤ t₂ → d.ReadsBack t₁ →
      (∀ f ∈ s.db.fragments.rows, 0 ≤ f.importance ∧ f.importance ≤ 1) →
        (((prune py d edgeFloor agentId t₂).after
          ((prune py d edgeFloor agentId t₁).after s)).db.fragments.rows.map fun f =>
            (f.id, f.importance)) =
        ((prune py d edgeFloor agentId t₂).after s).db.fragments.rows.map fun f =>
          (f.id, f.importance) := by
  intro hall
  exact absurd (hall .basic .slow 1 "guest" 2 3 (plainStore "guest") Decay.exact_slow (by decide)
    ⟨by decide, by decide⟩ (by decide +kernel)) (by decide +kernel)

end MarkSdk
