import Mathlib.Data.Prod.Lex
import Mathlib.Data.String.Basic
import MarkSdk.Blocks.Chain

/-!
What the verification of a block compares.

`verify` hashes the members again and compares the hashes with the record of
the seal, and the record with its content hash. A change of the members or of
one part of the record is reported; the parts of the record vouch for each
other only (`verify_spec`). Importance, state, access counts and weights are no
part of a hash.
-/

namespace MarkSdk

open Lib

/-! ### Members -/

/-- A member of a block. -/
inductive Member : Type
  | fragment (f : Fragment)
  | node (n : Node)
  | edge (e : Edge)

/-- The fields of a member that its hash covers. -/
inductive MemberFields : Type
  | fragment (id content agentId : String) (sessionId source : Option String) (createdAt : Int)
  | node (id : String) (nodeType : NodeType) (label : String) (fragmentId : Option String)
      (createdAt : Int)
  | edge (id sourceId targetId relation : String) (createdAt : Int)
  deriving DecidableEq

def MemberFields.id : MemberFields → String
  | fragment id _ _ _ _ _ => id
  | node id _ _ _ _ => id
  | edge id _ _ _ _ => id

namespace Member

def id : Member → String
  | fragment f => f.id
  | node n => n.id
  | edge e => e.id

def fields : Member → MemberFields
  | fragment f => .fragment f.id f.content f.agentId f.sessionId f.source f.createdAt
  | node n => .node n.id n.nodeType n.label n.fragmentId n.createdAt
  | edge e => .edge e.id e.sourceId e.targetId e.relation e.createdAt

def hash (h : Hashing) : Member → String
  | fragment f => hashFragment h f
  | node n => hashNode h n
  | edge e => hashEdge h e

def entry (h : Hashing) (m : Member) : String × String := (m.id, m.hash h)

@[simp] theorem id_fields (m : Member) : m.fields.id = m.id := by
  cases m <;> rfl

/-- Nothing else of a member is hashed. -/
theorem hash_eq_of_fields {m m' : Member} (h : Hashing) (hfields : m.fields = m'.fields) :
    m.hash h = m'.hash h := by
  cases m <;> cases m' <;>
    simp_all [fields, hash, hashFragment, hashNode, hashEdge]

end Member

/-- The members of a block, in the order in which they are hashed. -/
def LocalStore.members (s : LocalStore) (blockId : String) : List Member :=
  (s.fragmentsForBlock blockId).map .fragment ++ (s.nodesInBlock blockId).map .node ++
    (s.edgesInBlock blockId).map .edge

def LocalStore.member? (s : LocalStore) (blockId id : String) : Option Member :=
  (s.members blockId).find? fun m => m.id = id

/-- The ids of the fragments, the nodes and the edges of a block are distinct. -/
structure LocalStore.DistinctMembers (s : LocalStore) (blockId : String) : Prop where
  nodes : ∀ f ∈ s.fragmentsForBlock blockId, ∀ n ∈ s.nodesInBlock blockId, f.id ≠ n.id
  edges : ∀ f ∈ s.fragmentsForBlock blockId, ∀ e ∈ s.edgesInBlock blockId, f.id ≠ e.id
  nodesEdges : ∀ n ∈ s.nodesInBlock blockId, ∀ e ∈ s.edgesInBlock blockId, n.id ≠ e.id

theorem filterMap_sublist_of_le {α β : Type} {f g : α → Option β} {xs : List α}
    (h : ∀ x b, f x = some b → g x = some b) : (xs.filterMap f).Sublist (xs.filterMap g) := by
  induction xs with
  | nil => exact List.Sublist.refl _
  | cons x xs ih =>
    cases hf : f x with
    | none =>
      rw [List.filterMap_cons_none hf]
      exact ih.trans (List.Sublist.filterMap g (List.sublist_cons_self x xs))
    | some b =>
      rw [List.filterMap_cons_some hf, List.filterMap_cons_some (h x b hf)]
      exact ih.cons_cons b

theorem mem_of_lookup {hashes : MemberHashes} {id hash : String}
    (h : hashes.lookup id = some hash) : (id, hash) ∈ hashes := by
  obtain ⟨before, after, rfl, -⟩ := List.lookup_eq_some_iff.mp h
  simp

/-! Within a kind the keys of the tables keep the ids apart. -/

theorem nodup_fragmentIds (s : LocalStore) (blockId : String) :
    ((s.fragmentsForBlock blockId).map Fragment.id).Nodup := by
  unfold LocalStore.fragmentsForBlock
  refine ((List.perm_insertionSort _ _).map Fragment.id).nodup_iff.mpr ?_
  exact s.db.fragments.nodup.sublist (List.filter_sublist.map Fragment.id)

theorem nodup_edgeIds (s : LocalStore) (blockId : String) :
    ((s.edgesInBlock blockId).map Edge.id).Nodup := by
  unfold LocalStore.edgesInBlock
  refine ((List.perm_insertionSort _ _).map Edge.id).nodup_iff.mpr ?_
  exact s.graph.edges.nodup.sublist (List.filter_sublist.map Edge.id)

/-- A block lists a node once. -/
theorem nodup_nodeIds (s : LocalStore) (blockId : String) :
    ((s.nodesInBlock blockId).map Node.id).Nodup := by
  have hkeys : ((s.graph.blockNodes.rows.filter fun m => m.blockId = blockId).map
      BlockNode.nodeId).Nodup := by
    refine List.Nodup.of_map (fun nodeId => (blockId, nodeId)) ?_
    have hrows := s.graph.blockNodes.nodup.sublist
      ((List.filter_sublist (p := fun m : BlockNode => decide (m.blockId = blockId))).map
        BlockNode.key)
    rw [List.map_map]
    refine (List.map_congr_left fun m hm => ?_) ▸ hrows
    rw [List.mem_filter, decide_eq_true_eq] at hm
    rw [BlockNode.key, hm.2]
    rfl
  unfold LocalStore.nodesInBlock
  rw [List.map_filterMap]
  refine List.Nodup.sublist ?_
    (((List.perm_insertionSort (fun m m' : BlockNode => m.addedAt ≤ m'.addedAt) _).map
      BlockNode.nodeId).nodup_iff.mpr hkeys)
  -- a node that is found has the id it is looked up by
  rw [← List.filterMap_eq_map]
  refine filterMap_sublist_of_le fun m id hid => ?_
  obtain ⟨n, hn, rfl⟩ := Option.map_eq_some_iff.mp hid
  exact congrArg some (Table.find?_eq_some_iff.mp hn).2.symm

/-- The members have distinct ids. -/
theorem LocalStore.DistinctMembers.nodup {s : LocalStore} {blockId : String}
    (h : s.DistinctMembers blockId) : ((s.members blockId).map Member.id).Nodup := by
  have hids : (s.members blockId).map Member.id = (s.fragmentsForBlock blockId).map Fragment.id ++
      (s.nodesInBlock blockId).map Node.id ++ (s.edgesInBlock blockId).map Edge.id := by
    simp only [members, List.map_append, List.map_map]
    rfl
  rw [hids]
  refine ((nodup_fragmentIds s blockId).append (nodup_nodeIds s blockId) ?_).append
    (nodup_edgeIds s blockId) ?_
  · intro id hinf hinn
    obtain ⟨f, hf, hfid⟩ := List.mem_map.mp hinf
    obtain ⟨n, hn, hnid⟩ := List.mem_map.mp hinn
    exact h.nodes f hf n hn (hfid.trans hnid.symm)
  · intro id hmem hine
    obtain ⟨e, he, heid⟩ := List.mem_map.mp hine
    rcases List.mem_append.mp hmem with hinf | hinn
    · obtain ⟨f, hf, hfid⟩ := List.mem_map.mp hinf
      exact h.edges f hf e he (hfid.trans heid.symm)
    · obtain ⟨n, hn, hnid⟩ := List.mem_map.mp hinn
      exact h.nodesEdges n hn e he (hnid.trans heid.symm)

/-! ### The member hashes -/

/-- Ids that are not there yet are appended. -/
theorem foldl_set_fresh (h : Hashing) {hashes : MemberHashes} {ms : List Member}
    (hnodup : (hashes.map Prod.fst ++ ms.map Member.id).Nodup) :
    ms.foldl (fun hashes m => MemberHashes.set hashes m.id (m.hash h)) hashes
      = hashes ++ ms.map (Member.entry h) := by
  induction ms generalizing hashes with
  | nil => simp
  | cons m ms ih =>
    have hfresh : m.id ∉ hashes.map Prod.fst := fun hmem =>
      (List.nodup_append.mp hnodup).2.2 _ hmem _ List.mem_cons_self rfl
    have hset : MemberHashes.set hashes m.id (m.hash h) = hashes ++ [m.entry h] := by
      refine if_neg ?_
      rw [List.any_eq_true]
      rintro ⟨entry, hentry, hid⟩
      exact hfresh (List.mem_map.mpr ⟨entry, hentry, of_decide_eq_true hid⟩)
    rw [List.foldl_cons, hset, ih]
    · simp
    · rw [List.map_append, List.append_assoc]
      exact hnodup

theorem memberHashes_eq (h : Hashing) {s : LocalStore} {blockId : String}
    (hnodup : ((s.members blockId).map Member.id).Nodup) :
    s.memberHashes h blockId = (s.members blockId).map (Member.entry h) := by
  have hfold : s.memberHashes h blockId = (s.members blockId).foldl
      (fun hashes m => MemberHashes.set hashes m.id (m.hash h)) [] := by
    simp only [LocalStore.memberHashes, LocalStore.members, List.foldl_append, List.foldl_map]
    rfl
  rw [hfold, foldl_set_fresh h (by simpa using hnodup), List.nil_append]

theorem lookup_entries (h : Hashing) (ms : List Member) (id : String) :
    (ms.map (Member.entry h)).lookup id = (ms.find? fun m => m.id = id).map (Member.hash h) := by
  induction ms with
  | nil => rfl
  | cons m ms ih =>
    rw [List.map_cons, Member.entry, List.lookup_cons, List.find?_cons]
    by_cases hid : m.id = id
    · simp [hid]
    · have hne : (id == m.id) = false := by simpa using fun he => hid he.symm
      simp only [hne, decide_eq_false hid, ih]

theorem lookup_memberHashes (h : Hashing) {s : LocalStore} {blockId : String}
    (hnodup : ((s.members blockId).map Member.id).Nodup) (id : String) :
    (s.memberHashes h blockId).lookup id = (s.member? blockId id).map (Member.hash h) := by
  rw [memberHashes_eq h hnodup, lookup_entries]
  rfl

/-! ### What is reported -/

theorem mem_sortedIds {ids : List String} {id : String} : id ∈ sortedIds ids ↔ id ∈ ids :=
  (List.perm_insertionSort _ _).mem_iff

theorem mem_keys_iff {hashes : MemberHashes} {id : String} :
    id ∈ hashes.map Prod.fst ↔ (hashes.lookup id).isSome = true := by
  rw [List.lookup_isSome_iff, List.mem_map]
  exact exists_congr fun entry => and_congr_right fun _ => by rw [beq_iff_eq, eq_comm]

theorem mem_without {hashes others : MemberHashes} {id : String} :
    id ∈ hashes.without others ↔ (hashes.lookup id).isSome = true ∧ others.lookup id = none := by
  rw [MemberHashes.without, mem_sortedIds, List.mem_filter, mem_keys_iff, Option.isNone_iff_eq_none]

theorem mem_changed {recorded current : MemberHashes} (hdict : (recorded.map Prod.fst).Nodup)
    {id : String} :
    id ∈ recorded.changed current ↔
      ∃ hash hash', recorded.lookup id = some hash ∧ current.lookup id = some hash' ∧
        hash' ≠ hash := by
  simp only [MemberHashes.changed, mem_sortedIds, List.mem_map, List.mem_filter, Option.any_eq_true,
    decide_eq_true_eq]
  constructor
  · rintro ⟨⟨_, hash⟩, ⟨hmem, hash', hcurrent, hne⟩, rfl⟩
    exact ⟨hash, hash', Table.lookup_eq_some_of_nodup hdict hmem, hcurrent, hne⟩
  · rintro ⟨hash, hash', hrecorded, hcurrent, hne⟩
    exact ⟨(id, hash), ⟨mem_of_lookup hrecorded, hash', hcurrent, hne⟩, rfl⟩

/-- The record agrees with the members when nothing is reported. -/
theorem lookup_eq_iff {recorded current : MemberHashes} (hdict : (recorded.map Prod.fst).Nodup) :
    recorded.changed current = [] ∧ recorded.without current = [] ∧
        current.without recorded = [] ↔
      ∀ id, recorded.lookup id = current.lookup id := by
  simp only [List.eq_nil_iff_forall_not_mem, mem_changed hdict, mem_without]
  constructor
  · rintro ⟨hchanged, hmissing, hadded⟩ id
    have hc := hchanged id
    have hm := hmissing id
    have ha := hadded id
    cases hr : recorded.lookup id <;> cases hk : current.lookup id <;> simp_all
  · intro hsame
    refine ⟨?_, ?_, ?_⟩
    · rintro id ⟨hash, hash', hr, hk, hne⟩
      rw [hsame, hk] at hr
      exact hne (Option.some.inj hr)
    · rintro id ⟨hr, hk⟩
      rw [hsame, hk] at hr
      cases hr
    · rintro id ⟨hk, hr⟩
      rw [← hsame, hr] at hk
      cases hk

/-! ### The order of the content hash -/

theorem hashBefore_iff {p q : String × String} : hashBefore p q ↔ toLex p ≤ toLex q :=
  Prod.Lex.toLex_le_toLex.symm

instance : Std.Total hashBefore :=
  ⟨fun p q => (le_total (toLex p) (toLex q)).imp hashBefore_iff.mpr hashBefore_iff.mpr⟩

instance : IsTrans (String × String) hashBefore :=
  ⟨fun _ _ _ h h' => hashBefore_iff.mpr ((hashBefore_iff.mp h).trans (hashBefore_iff.mp h'))⟩

instance : Std.Antisymm hashBefore :=
  ⟨fun _ _ h h' => toLex.injective (le_antisymm (hashBefore_iff.mp h) (hashBefore_iff.mp h'))⟩

/-- The content hash does not depend on the order of the member hashes. -/
theorem blockContentHash_perm (h : Hashing) {hashes others : MemberHashes}
    (hperm : hashes.Perm others) : blockContentHash h hashes = blockContentHash h others := by
  have hsorted : hashes.insertionSort hashBefore = others.insertionSort hashBefore :=
    List.Perm.eq_of_pairwise' (List.pairwise_insertionSort _ _) (List.pairwise_insertionSort _ _)
      ((List.perm_insertionSort _ _).trans (hperm.trans (List.perm_insertionSort _ _).symm))
  rw [blockContentHash, blockContentHash, hsorted]

/-- The same dictionary. -/
def MemberHashes.SameAs (hashes others : MemberHashes) : Prop :=
  ∀ id, hashes.lookup id = others.lookup id

theorem MemberHashes.SameAs.perm {hashes others : MemberHashes} (h : hashes.SameAs others)
    (hdict : (hashes.map Prod.fst).Nodup) (hdict' : (others.map Prod.fst).Nodup) :
    hashes.Perm others := by
  refine (List.perm_ext_iff_of_nodup hdict.of_map hdict'.of_map).mpr fun ⟨id, hash⟩ => ?_
  constructor
  · intro hmem
    exact mem_of_lookup (h id ▸ Table.lookup_eq_some_of_nodup hdict hmem)
  · intro hmem
    exact mem_of_lookup ((h id).trans (Table.lookup_eq_some_of_nodup hdict' hmem))

theorem sameAs_of_perm {hashes others : MemberHashes} (hperm : hashes.Perm others)
    (hdict : (hashes.map Prod.fst).Nodup) : hashes.SameAs others := by
  have hdict' : (others.map Prod.fst).Nodup := (hperm.map Prod.fst).nodup_iff.mp hdict
  intro id
  ext hash
  constructor
  · exact fun hlookup =>
      Table.lookup_eq_some_of_nodup hdict' (hperm.mem_iff.mp (mem_of_lookup hlookup))
  · exact fun hlookup =>
      Table.lookup_eq_some_of_nodup hdict (hperm.mem_iff.mpr (mem_of_lookup hlookup))

/-! ### Fields that may change -/

/-- The fragment without importance, state and record of accesses. -/
def Fragment.fixed (f : Fragment) : Fragment :=
  { f with importance := 0, state := .raw, updatedAt := 0, lastAccessedAt := none, metadata := [] }

/-- The edge without its weight. -/
def Edge.fixed (e : Edge) : Edge := { e with weight := 0 }

/-- The stores differ in importance, state, access counts and weights only. -/
structure LocalStore.SameButPlasticity (s s' : LocalStore) : Prop where
  blocks : s'.graph.blocks = s.graph.blocks
  fragments : s'.db.fragments.rows.map Fragment.fixed = s.db.fragments.rows.map Fragment.fixed
  nodes : s'.graph.nodes = s.graph.nodes
  blockNodes : s'.graph.blockNodes = s.graph.blockNodes
  edges : s'.graph.edges.rows.map Edge.fixed = s.graph.edges.rows.map Edge.fixed

/-- The block has the same members with the same hashed fields. -/
def SameFields (s s' : LocalStore) (blockId : String) : Prop :=
  ∀ id, (s'.member? blockId id).map Member.fields = (s.member? blockId id).map Member.fields

theorem member?_eq_some_iff {s : LocalStore} {blockId : String}
    (hnodup : ((s.members blockId).map Member.id).Nodup) {id : String} {m : Member} :
    s.member? blockId id = some m ↔ m ∈ s.members blockId ∧ m.id = id := by
  constructor
  · intro h
    have hid := List.find?_some (p := fun m : Member => decide (m.id = id)) h
    exact ⟨List.mem_of_find?_eq_some h, of_decide_eq_true hid⟩
  · rintro ⟨hm, rfl⟩
    obtain ⟨m', hfind⟩ := Option.isSome_iff_exists.mp
      (List.find?_isSome (p := fun m' : Member => decide (m'.id = m.id)).mpr
        ⟨m, hm, decide_eq_true (rfl : m.id = m.id)⟩)
    have hid := List.find?_some (p := fun m' : Member => decide (m'.id = m.id)) hfind
    obtain rfl := List.inj_on_of_nodup_map hnodup (List.mem_of_find?_eq_some hfind) hm
      (of_decide_eq_true hid)
    exact hfind

/-- The fields of the fragments of a block are read off the rows without what
may change. -/
theorem perm_fragmentFields (s : LocalStore) (blockId : String) :
    ((s.fragmentsForBlock blockId).map fun f => (Member.fragment f).fields).Perm
      (((s.db.fragments.rows.map Fragment.fixed).filter fun f => f.blockId = some blockId).map
        fun f => (Member.fragment f).fields) := by
  rw [List.filter_map, List.map_map]
  exact (List.perm_insertionSort _ _).map _

theorem perm_edgeFields (s : LocalStore) (blockId : String) :
    ((s.edgesInBlock blockId).map fun e => (Member.edge e).fields).Perm
      (((s.graph.edges.rows.map Edge.fixed).filter fun e => e.blockId = some blockId).map
        fun e => (Member.edge e).fields) := by
  rw [List.filter_map, List.map_map]
  exact (List.perm_insertionSort _ _).map _

namespace LocalStore.SameButPlasticity

variable {s s' : LocalStore}

theorem perm_fields (h : s.SameButPlasticity s') (blockId : String) :
    ((s'.members blockId).map Member.fields).Perm ((s.members blockId).map Member.fields) := by
  have hnodes : s'.nodesInBlock blockId = s.nodesInBlock blockId := by
    simp only [nodesInBlock, h.nodes, h.blockNodes]
  have hfragments := perm_fragmentFields s' blockId
  have hedges := perm_edgeFields s' blockId
  rw [h.fragments] at hfragments
  rw [h.edges] at hedges
  simp only [members, List.map_append, List.map_map, hnodes]
  exact ((hfragments.trans (perm_fragmentFields s blockId).symm).append (List.Perm.refl _)).append
    (hedges.trans (perm_edgeFields s blockId).symm)

theorem nodup (h : s.SameButPlasticity s') {blockId : String}
    (hnodup : ((s.members blockId).map Member.id).Nodup) :
    ((s'.members blockId).map Member.id).Nodup := by
  have hids := (h.perm_fields blockId).map MemberFields.id
  simp only [List.map_map, Function.comp_def, Member.id_fields] at hids
  exact hids.nodup_iff.mpr hnodup

theorem sameFields (h : s.SameButPlasticity s') {blockId : String}
    (hnodup : ((s.members blockId).map Member.id).Nodup) : SameFields s s' blockId := by
  intro id
  ext fields
  simp only [Option.map_eq_some_iff, member?_eq_some_iff (h.nodup hnodup),
    member?_eq_some_iff hnodup]
  have hmem := (h.perm_fields blockId).mem_iff (a := fields)
  rw [List.mem_map, List.mem_map] at hmem
  constructor
  · rintro ⟨m', ⟨hm', rfl⟩, rfl⟩
    obtain ⟨m, hm, hfields⟩ := hmem.mp ⟨m', hm', rfl⟩
    exact ⟨m, ⟨hm, by rw [← m.id_fields, hfields, m'.id_fields]⟩, hfields⟩
  · rintro ⟨m, ⟨hm, rfl⟩, rfl⟩
    obtain ⟨m', hm', hfields⟩ := hmem.mpr ⟨m, hm, rfl⟩
    exact ⟨m', ⟨hm', by rw [← m'.id_fields, hfields, m.id_fields]⟩, hfields⟩

end LocalStore.SameButPlasticity

/-! ### The seal -/

/-- The hash tells the members and the records apart. -/
structure Hashing.CollisionFree (h : Hashing) (members : List Member)
    (records : List MemberHashes) : Prop where
  member : ∀ m ∈ members, ∀ m' ∈ members, m.hash h = m'.hash h → m.fields = m'.fields
  record : ∀ r ∈ records, ∀ r' ∈ records,
    blockContentHash h r = blockContentHash h r' → r.Perm r'

theorem seal_eq {py : Python} {h : Hashing} {agentId blockId : String} {now : Int}
    {s s₁ : LocalStore} {sealed : Block}
    (hseal : BlockChain.seal py h agentId blockId now s = .ok (sealed, s₁)) :
    sealed.memberHashes = s.memberHashes h blockId ∧
      sealed.contentHash = some (blockContentHash h sealed.memberHashes) := by
  unfold BlockChain.seal at hseal
  split at hseal
  · cases hseal
  · split at hseal
    · cases hseal
    · cases hseal
      exact ⟨rfl, rfl⟩

/-- A block verifies when its record agrees with its members and its content
hash with the record. -/
theorem verifies_iff_record (py : Python) (h : Hashing) {s : LocalStore} {blockId : String}
    {block : Block} (hblock : s.getBlock blockId = some block)
    (hdict : (block.memberHashes.map Prod.fst).Nodup) :
    Verifies py h s blockId ↔ MemberHashes.SameAs block.memberHashes (s.memberHashes h blockId) ∧
      block.contentHash = some (blockContentHash h block.memberHashes) := by
  rw [verifies_iff]
  constructor
  · rintro ⟨block', hblock', hintact⟩
    obtain rfl : block' = block := by simpa [hblock] using hblock'.symm
    exact ⟨(lookup_eq_iff hdict).mp ⟨hintact.changed, hintact.missing, hintact.added⟩,
      hintact.contentHash⟩
  · rintro ⟨hsame, hcontent⟩
    obtain ⟨hchanged, hmissing, hadded⟩ := (lookup_eq_iff hdict).mpr hsame
    exact ⟨block, hblock, hchanged, hmissing, hadded, hcontent⟩

/-- Members with the same hashes have the same fields. -/
theorem sameAs_memberHashes_iff {h : Hashing} {s s' : LocalStore} {blockId : String}
    (hnodup : ((s.members blockId).map Member.id).Nodup)
    (hnodup' : ((s'.members blockId).map Member.id).Nodup)
    (hfree : ∀ m ∈ s.members blockId ++ s'.members blockId,
      ∀ m' ∈ s.members blockId ++ s'.members blockId, m.hash h = m'.hash h → m.fields = m'.fields) :
    (s.memberHashes h blockId).SameAs (s'.memberHashes h blockId) ↔ SameFields s s' blockId := by
  refine forall_congr' fun id => ?_
  rw [lookup_memberHashes h hnodup, lookup_memberHashes h hnodup']
  cases hm : s.member? blockId id <;> cases hm' : s'.member? blockId id
  · simp
  · simp
  · simp
  · rename_i m m'
    simp only [Option.map_some, Option.some.injEq]
    constructor
    · intro hhash
      exact (hfree m (List.mem_append_left _ (List.mem_of_find?_eq_some hm)) m'
        (List.mem_append_right _ (List.mem_of_find?_eq_some hm')) hhash).symm
    · exact fun hfields => (Member.hash_eq_of_fields h hfields).symm

/-- What `verify` of a block says in a store `s'`, after it has been sealed as
`sealed` in the store `s`; `block` is the row of the block in `s'`. -/
structure VerifiesSeal (py : Python) (h : Hashing) (blockId : String) (s s' : LocalStore)
    (sealed block : Block) : Prop where
  /-- Valid is a record that agrees with the members and with its content hash. -/
  againstRecord : Verifies py h s' blockId ↔
    (∀ id, block.memberHashes.lookup id = (s'.member? blockId id).map (Member.hash h)) ∧
      block.contentHash = some (blockContentHash h block.memberHashes)
  /-- Unless both parts of the record were altered, valid is a block whose
  members and record are those of the seal. -/
  againstSeal : block.contentHash = sealed.contentHash ∨
      MemberHashes.SameAs block.memberHashes sealed.memberHashes →
    (Verifies py h s' blockId ↔ SameFields s s' blockId ∧
      MemberHashes.SameAs block.memberHashes sealed.memberHashes ∧
        block.contentHash = sealed.contentHash)
  /-- The ids that are reported, against the record. -/
  reports : ∀ v, BlockChain.verify py h blockId s' = .ok v → block.contentHash.isSome = true →
    ∀ id,
      (id ∈ v.corruptedMemberIds ↔ ∃ m hash, s'.member? blockId id = some m ∧
        block.memberHashes.lookup id = some hash ∧ m.hash h ≠ hash) ∧
      (id ∈ v.missingMemberIds ↔
        (block.memberHashes.lookup id).isSome = true ∧ s'.member? blockId id = none) ∧
      (id ∈ v.addedMemberIds ↔
        block.memberHashes.lookup id = none ∧ (s'.member? blockId id).isSome = true)
  /-- The ids that are reported, against the members at sealing. -/
  reportsAgainstSeal : MemberHashes.SameAs block.memberHashes sealed.memberHashes →
    ∀ v, BlockChain.verify py h blockId s' = .ok v → block.contentHash.isSome = true →
    ∀ id,
      (id ∈ v.corruptedMemberIds ↔ ∃ m m', s.member? blockId id = some m ∧
        s'.member? blockId id = some m' ∧ m'.fields ≠ m.fields) ∧
      (id ∈ v.missingMemberIds ↔
        (s.member? blockId id).isSome = true ∧ s'.member? blockId id = none) ∧
      (id ∈ v.addedMemberIds ↔
        s.member? blockId id = none ∧ (s'.member? blockId id).isSome = true)
  /-- Importance, state, access counts and weights make no difference. -/
  plasticity : ∀ s'', s'.SameButPlasticity s'' →
    (Verifies py h s'' blockId ↔ Verifies py h s' blockId)

/-- What the report of a block with a content hash consists of. -/
theorem verify_reports {py : Python} {h : Hashing} {s : LocalStore} {blockId : String}
    {block : Block} (hblock : s.getBlock blockId = some block)
    (hcontent : block.contentHash.isSome = true) {v : BlockVerification}
    (hv : BlockChain.verify py h blockId s = .ok v) :
    v.corruptedMemberIds = MemberHashes.changed block.memberHashes (s.memberHashes h blockId) ∧
      v.missingMemberIds = MemberHashes.without block.memberHashes (s.memberHashes h blockId) ∧
        v.addedMemberIds = MemberHashes.without (s.memberHashes h blockId) block.memberHashes := by
  obtain ⟨contentHash, hsome⟩ := Option.isSome_iff_exists.mp hcontent
  unfold BlockChain.verify at hv
  simp only [hblock, hsome, Except.ok.injEq] at hv
  subst hv
  exact ⟨rfl, rfl, rfl⟩

/-- The reports in terms of the members. -/
theorem mem_reports {h : Hashing} {s : LocalStore} {blockId : String} {recorded : MemberHashes}
    (hdict : (recorded.map Prod.fst).Nodup)
    (hnodup : ((s.members blockId).map Member.id).Nodup) (id : String) :
    (id ∈ recorded.changed (s.memberHashes h blockId) ↔ ∃ m hash,
        s.member? blockId id = some m ∧ recorded.lookup id = some hash ∧ m.hash h ≠ hash) ∧
      (id ∈ recorded.without (s.memberHashes h blockId) ↔
        (recorded.lookup id).isSome = true ∧ s.member? blockId id = none) ∧
      (id ∈ (s.memberHashes h blockId).without recorded ↔
        recorded.lookup id = none ∧ (s.member? blockId id).isSome = true) := by
  rw [mem_changed hdict, mem_without, mem_without, lookup_memberHashes h hnodup]
  refine ⟨?_, ?_, ?_⟩
  · constructor
    · rintro ⟨hash, hash', hrecorded, hcurrent, hne⟩
      obtain ⟨m, hm, rfl⟩ := Option.map_eq_some_iff.mp hcurrent
      exact ⟨m, hash, hm, hrecorded, hne⟩
    · rintro ⟨m, hash, hm, hrecorded, hne⟩
      exact ⟨hash, m.hash h, hrecorded, by rw [hm]; rfl, hne⟩
  · rw [Option.map_eq_none_iff]
  · rw [Option.isSome_map, and_comm]

/-- For every block that was sealed with members of distinct ids, and every
later change to the rows and to the record of the seal: `verify` compares the
members with the record and the record with its content hash. Altering the
members, the member hashes or the content hash alone is found; what changes
after sealing by design is not looked at; the ids that are reported are those
that differ from the record. -/
theorem verify_spec (py : Python) (h : Hashing) {agentId blockId : String} {now : Int}
    {s s₁ s' : LocalStore} {sealed block : Block}
    (hseal : BlockChain.seal py h agentId blockId now s = .ok (sealed, s₁))
    (hdistinct : s.DistinctMembers blockId) (hdistinct' : s'.DistinctMembers blockId)
    (hblock : s'.getBlock blockId = some block)
    (hdict : (block.memberHashes.map Prod.fst).Nodup)
    (hfree : h.CollisionFree (s.members blockId ++ s'.members blockId)
      [sealed.memberHashes, block.memberHashes]) :
    VerifiesSeal py h blockId s s' sealed block := by
  obtain ⟨hsealed, hsealedContent⟩ := seal_eq hseal
  have hnodup := hdistinct.nodup
  have hnodup' := hdistinct'.nodup
  have hsealedDict : (sealed.memberHashes.map Prod.fst).Nodup := by
    rw [hsealed, memberHashes_eq h hnodup, List.map_map]
    exact hnodup
  have hfields := sameAs_memberHashes_iff hnodup hnodup' hfree.member
  have hrecord := verifies_iff_record py h hblock hdict
  refine ⟨?_, ?_, ?_, ?_, ?_⟩
  · rw [hrecord]
    refine and_congr_left' (forall_congr' fun id => ?_)
    rw [lookup_memberHashes h hnodup']
  · intro hkept
    -- a content hash that is kept vouches for the member hashes, and they for it
    have hsame : block.contentHash = some (blockContentHash h block.memberHashes) →
        MemberHashes.SameAs block.memberHashes sealed.memberHashes ∧
          block.contentHash = sealed.contentHash := by
      intro hcontent
      rcases hkept with hkept | hkept
      · refine ⟨sameAs_of_perm (hfree.record _ (by simp) _ (by simp) ?_) hdict, hkept⟩
        rw [hcontent, hsealedContent] at hkept
        exact Option.some.inj hkept
      · refine ⟨hkept, ?_⟩
        rw [hcontent, hsealedContent, blockContentHash_perm h (hkept.perm hdict hsealedDict)]
    rw [hrecord, ← hfields, ← hsealed]
    constructor
    · rintro ⟨hcurrent, hcontent⟩
      obtain ⟨hhashes, hhash⟩ := hsame hcontent
      exact ⟨fun id => (hhashes id).symm.trans (hcurrent id), hhashes, hhash⟩
    · rintro ⟨hcurrent, hhashes, hhash⟩
      refine ⟨fun id => (hhashes id).trans (hcurrent id), ?_⟩
      rw [hhash, hsealedContent, blockContentHash_perm h (hhashes.perm hdict hsealedDict)]
  · intro v hv hcontent id
    obtain ⟨hcorrupted, hmissing, hadded⟩ := verify_reports hblock hcontent hv
    rw [hcorrupted, hmissing, hadded]
    exact mem_reports hdict hnodup' id
  · intro hkept v hv hcontent id
    obtain ⟨hcorrupted, hmissing, hadded⟩ := verify_reports hblock hcontent hv
    obtain ⟨hc, hm, ha⟩ := mem_reports (h := h) hdict hnodup' id
    have hlookup := hkept id
    rw [hsealed, lookup_memberHashes h hnodup] at hlookup
    rw [hcorrupted, hmissing, hadded, hc, hm, ha, hlookup]
    refine ⟨?_, by rw [Option.isSome_map], by rw [Option.map_eq_none_iff]⟩
    constructor
    · rintro ⟨m', hash, hm', hhash, hne⟩
      obtain ⟨m, hm, rfl⟩ := Option.map_eq_some_iff.mp hhash
      exact ⟨m, m', hm, hm', fun he => hne (Member.hash_eq_of_fields h he)⟩
    · rintro ⟨m, m', hm, hm', hne⟩
      refine ⟨m', m.hash h, hm', by rw [hm]; rfl, fun he => hne ?_⟩
      exact hfree.member m' (List.mem_append_right _ (List.mem_of_find?_eq_some hm')) m
        (List.mem_append_left _ (List.mem_of_find?_eq_some hm)) he
  · intro s'' hplastic
    have hblock'' : s''.getBlock blockId = some block := by
      rw [LocalStore.getBlock, hplastic.blocks]
      exact hblock
    have hcurrent : (s''.memberHashes h blockId).SameAs (s'.memberHashes h blockId) := by
      intro id
      rw [lookup_memberHashes h hnodup', lookup_memberHashes h (hplastic.nodup hnodup')]
      have hsame := hplastic.sameFields hnodup' id
      cases hm : s'.member? blockId id <;> cases hm'' : s''.member? blockId id
      · rfl
      · simp [hm, hm''] at hsame
      · simp [hm, hm''] at hsame
      · rw [hm, hm''] at hsame
        exact congrArg some (Member.hash_eq_of_fields h (Option.some.inj hsame))
    rw [hrecord, verifies_iff_record py h hblock'' hdict]
    exact and_congr_left' (forall_congr' fun id => by rw [hcurrent id])

/-! ### A block with a memory, a node and an edge -/

def noteMemory (content : String) : Fragment where
  id := "m"
  content := content
  blockId := some "b"
  scope := .agent
  tier := .episodic
  agentId := "a"
  sessionId := none
  importance := 1 / 2
  state := .verified
  confidence := 1
  ttlSeconds := none
  createdAt := 1
  updatedAt := 1
  lastAccessedAt := none
  tags := []
  source := none
  metadata := []
  embedding := none
  contradictionIds := []

def noteBlock : Block where
  id := "b"
  name := "notes"
  agentId := "a"
  status := .opened
  contentHash := none
  prevBlockId := none
  prevBlockHash := none
  sealedAt := none
  createdAt := 0
  memberHashes := []

/-- The open block with its members. -/
def openNotes (content : String) : LocalStore where
  db := { Db.empty with fragments := Table.empty.insertOrReplace (noteMemory content) }
  graph := {
    blocks := Table.empty.insertOrReplace noteBlock
    nodes := Table.empty.insertOrReplace ⟨"n", .topic, "ports", some "a", some "m", 1, 1⟩
    edges := Table.empty.insertOrReplace ⟨"e", "n", "n", "related_to", 1, "a", 1, some "b"⟩
    blockNodes := Table.empty.insertOrReplace ⟨"b", "n", 1⟩ }

def noteSeal (content : String) : Block :=
  let memberHashes := (openNotes content).memberHashes .plain "b"
  { noteBlock with
    status := .sealed
    contentHash := some (blockContentHash .plain memberHashes)
    sealedAt := some 2
    memberHashes := memberHashes }

/-- A content under the seal of another one, or of the same. -/
def sealedNotes (content sealedContent : String) : LocalStore :=
  (openNotes content).putBlock (noteSeal sealedContent)

/-- The members with either content. -/
def noteMembers : List Member :=
  [.fragment (noteMemory "8080"), .fragment (noteMemory "8081"),
    .node ⟨"n", .topic, "ports", some "a", some "m", 1, 1⟩,
    .edge ⟨"e", "n", "n", "related_to", 1, "a", 1, some "b"⟩]

theorem hash_noteMembers_nodup : (noteMembers.map (Member.hash .plain)).Nodup := by
  decide +kernel

theorem mem_noteMembers {sealedContent : String} {m : Member}
    (h : m ∈ (openNotes "8080").members "b" ++ (sealedNotes "8081" sealedContent).members "b") :
    m ∈ noteMembers := by
  rcases List.mem_append.mp h with hm | hm
  · exact (List.cons_subset_cons _ (List.subset_cons_self _ _)) hm
  · exact List.mem_cons_of_mem _ hm

theorem member_notes {sealedContent : String} :
    ∀ m ∈ (openNotes "8080").members "b" ++ (sealedNotes "8081" sealedContent).members "b",
      ∀ m' ∈ (openNotes "8080").members "b" ++ (sealedNotes "8081" sealedContent).members "b",
        m.hash .plain = m'.hash .plain → m.fields = m'.fields := by
  intro m hm m' hm' hhash
  rw [List.inj_on_of_nodup_map hash_noteMembers_nodup (mem_noteMembers hm) (mem_noteMembers hm')
    hhash]

theorem jsonChar_append_inj {c d : Char} {cs ds : List Char}
    (h : jsonChar c ++ cs = jsonChar d ++ ds) : c = d ∧ cs = ds := by
  unfold jsonChar at h
  split_ifs at h <;> simp_all
  -- only a backslash could be the start of both
  all_goals exact absurd h.1.symm ‹¬d = '\\'›

theorem jsonString_inj {s t : String} (h : jsonString s = jsonString t) : s = t := by
  have hchars : ∀ cs ds : List Char, cs.flatMap jsonChar = ds.flatMap jsonChar → cs = ds := by
    have hne : ∀ (c : Char) (cs : List Char), jsonChar c ++ cs ≠ [] := by
      intro c cs
      unfold jsonChar
      split_ifs <;> simp
    intro cs
    induction cs with
    | nil =>
        intro ds hds
        cases ds with
        | nil => rfl
        | cons d ds => exact absurd hds.symm (hne d _)
    | cons c cs ih =>
        intro ds hds
        cases ds with
        | nil => exact absurd hds (hne c _)
        | cons d ds =>
            rw [List.flatMap_cons, List.flatMap_cons] at hds
            obtain ⟨rfl, hrest⟩ := jsonChar_append_inj hds
            rw [ih ds hrest]
  unfold jsonString at h
  rw [String.append_left_inj, String.append_right_inj, String.ofList_inj] at h
  exact String.toList_inj.mp (hchars _ _ h)

/-- The content hash over a memory, a node and an edge. -/
theorem blockContentHash_notes (memory node edge : String) :
    blockContentHash .plain [("m", memory), ("n", node), ("e", edge)] =
      "[" ++ (("[" ++ (jsonString "e" ++ ", " ++ jsonString edge) ++ "]") ++ ", " ++
        (("[" ++ (jsonString "m" ++ ", " ++ jsonString memory) ++ "]") ++ ", " ++
          ("[" ++ (jsonString "n" ++ ", " ++ jsonString node) ++ "]"))) ++ "]" := by
  have hkeys : ¬ ("n" : String) < "e" ∧ ¬ ("m" : String) < "e" ∧ ("m" : String) < "n" := by
    decide +kernel
  have hnode : ¬ hashBefore ("n", node) ("e", edge) := by simp [hashBefore, hkeys.1]
  have hmemory : ¬ hashBefore ("m", memory) ("e", edge) := by simp [hashBefore, hkeys.2.1]
  have hbefore : hashBefore ("m", memory) ("n", node) := .inl hkeys.2.2
  have hsort : ([("m", memory), ("n", node), ("e", edge)] : MemberHashes).insertionSort hashBefore =
      [("e", edge), ("m", memory), ("n", node)] := by
    simp only [List.insertionSort_cons, List.insertionSort_nil, List.orderedInsert_nil,
      List.orderedInsert_cons, hnode, hmemory, hbefore, if_true, if_false]
  rw [blockContentHash, hsort]
  simp only [Hashing.plain, id, List.map_cons, List.map_nil, jsonText, jsonItems, commaJoin,
    Option.bind_eq_bind, Option.bind_some, Option.pure_def, Option.map_some, Option.getD_some]

theorem blockContentHash_notes_inj {memory memory' node edge : String}
    (h : blockContentHash .plain [("m", memory), ("n", node), ("e", edge)] =
      blockContentHash .plain [("m", memory'), ("n", node), ("e", edge)]) : memory = memory' := by
  simp only [blockContentHash_notes, String.append_left_inj, String.append_right_inj] at h
  exact jsonString_inj h

/-- The content is altered under the seal. -/
theorem verify_spec_altered :
    VerifiesSeal .basic .plain "b" (openNotes "8080") (sealedNotes "8081" "8080")
      (noteSeal "8080") (noteSeal "8080") :=
  verify_spec .basic .plain
    (rfl : BlockChain.seal .basic .plain "a" "b" 2 (openNotes "8080") =
      .ok (noteSeal "8080", sealedNotes "8080" "8080"))
    ⟨by decide +kernel, by decide +kernel, by decide +kernel⟩
    ⟨by decide +kernel, by decide +kernel, by decide +kernel⟩ rfl (by decide +kernel)
    ⟨member_notes, by simp⟩

/-- The content is altered and the record is made to fit. -/
theorem verify_altered_record :
    ¬ ∀ (py : Python) (h : Hashing) (agentId blockId : String) (now : Int)
      (s s₁ s' : LocalStore) (sealed block : Block),
      BlockChain.seal py h agentId blockId now s = .ok (sealed, s₁) →
      s.DistinctMembers blockId → s'.DistinctMembers blockId →
      s'.getBlock blockId = some block → (block.memberHashes.map Prod.fst).Nodup →
      h.CollisionFree (s.members blockId ++ s'.members blockId)
        [sealed.memberHashes, block.memberHashes] →
        (Verifies py h s' blockId ↔ SameFields s s' blockId ∧
          MemberHashes.SameAs block.memberHashes sealed.memberHashes ∧
            block.contentHash = sealed.contentHash) := by
  intro hclaim
  have hrecord : blockContentHash .plain (noteSeal "8080").memberHashes ≠
      blockContentHash .plain (noteSeal "8081").memberHashes := by
    have hhash : hashFragment .plain (noteMemory "8080") ≠
        hashFragment .plain (noteMemory "8081") := by decide +kernel
    exact fun heq => hhash (blockContentHash_notes_inj heq)
  have hblock : (sealedNotes "8081" "8081").getBlock "b" = some (noteSeal "8081") := rfl
  have hverifies : Verifies .basic .plain (sealedNotes "8081" "8081") "b" :=
    (verifies_iff_record .basic .plain hblock (by decide +kernel)).mpr ⟨fun _ => rfl, rfl⟩
  have hvalid := (hclaim .basic .plain "a" "b" 2 (openNotes "8080") (sealedNotes "8080" "8080")
    (sealedNotes "8081" "8081") (noteSeal "8080") (noteSeal "8081") rfl
    ⟨by decide +kernel, by decide +kernel, by decide +kernel⟩
    ⟨by decide +kernel, by decide +kernel, by decide +kernel⟩ rfl (by decide +kernel)
    ⟨member_notes, by simp [hrecord, hrecord.symm]⟩).mp hverifies
  exact absurd (hvalid.1 "m") (by decide +kernel)

end MarkSdk
