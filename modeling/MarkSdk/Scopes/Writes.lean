import MarkSdk.Blocks.BlockGraph
import MarkSdk.Memory.Embeddings
import MarkSdk.Memory.StoreCalls
import MarkSdk.Store.Filters
import MarkSdk.Store.Lifecycle

/-!
The writes of the store, and the ids that they note.

`_writing` logs a structural write with the ids that the writer noted, or as
unknown. A `LoggedWrite` carries the proof that it changes the answers to
filters for these ids only, so that a writer that notes too little cannot be
written down. A `PlainWrite` is not structural and changes no answer at all.
-/

namespace MarkSdk

open Lib

/-- A scan with the filter gives the id. -/
def LocalStore.Counts (s : LocalStore) (clauses : List Clause) (clock : Int) (id : String) : Prop :=
  ∃ f ∈ s.db.fragments.rows, f.id = id ∧
    f.meets (quarantinedIn s.graph.blocks) clauses = true ∧ f.ttlLive clock = true

/-- Scans differ in these ids at most. -/
def OnlyChanges (ids : List String) (s s' : LocalStore) : Prop :=
  ∀ id, id ∉ ids → ∀ clauses clock, s'.Counts clauses clock id ↔ s.Counts clauses clock id

section OnlyChanges

variable {ids : List String} {s s' : LocalStore}

theorem OnlyChanges.refl (ids : List String) (s : LocalStore) : OnlyChanges ids s s :=
  fun _ _ _ _ => Iff.rfl

theorem OnlyChanges.trans {s'' : LocalStore} (h : OnlyChanges ids s s')
    (h' : OnlyChanges ids s' s'') : OnlyChanges ids s s'' :=
  fun id hid clauses clock => (h' id hid clauses clock).trans (h id hid clauses clock)

/-- Only rows of these ids come, go or change. -/
theorem OnlyChanges.of_rows (hblocks : s'.graph.blocks = s.graph.blocks)
    (hrows : ∀ f : Fragment, f.id ∉ ids → (f ∈ s'.db.fragments.rows ↔ f ∈ s.db.fragments.rows)) :
    OnlyChanges ids s s' := by
  intro id hid clauses clock
  unfold LocalStore.Counts
  rw [hblocks]
  constructor
  · rintro ⟨f, hf, rfl, hcounts⟩
    exact ⟨f, (hrows f hid).mp hf, rfl, hcounts⟩
  · rintro ⟨f, hf, rfl, hcounts⟩
    exact ⟨f, (hrows f hid).mpr hf, rfl, hcounts⟩

/-- Writes to other tables. -/
theorem OnlyChanges.of_eq (hblocks : s'.graph.blocks = s.graph.blocks)
    (hrows : s'.db.fragments = s.db.fragments) : OnlyChanges ids s s' :=
  .of_rows hblocks fun f _ => by rw [hrows]

theorem OnlyChanges.upsert {f : Fragment} (hf : f.id ∈ ids) :
    OnlyChanges ids s { s with db := { s.db with fragments := s.db.fragments.upsert f } } := by
  refine .of_rows rfl fun g hg => ⟨fun hmem => ?_, fun hmem => ?_⟩
  · obtain hold | rfl := Table.mem_upsert hmem
    · exact hold
    · exact absurd hf hg
  · refine Table.mem_upsert_of_ne hmem fun heq => hg ?_
    rw [heq]
    exact hf

theorem OnlyChanges.delete {p : Fragment → Bool} (hp : ∀ f, p f = true → f.id ∈ ids) :
    OnlyChanges ids s { s with db := { s.db with fragments := s.db.fragments.delete p } } := by
  refine .of_rows rfl fun f hf => ?_
  have hkept : p f = false := Bool.eq_false_iff.mpr fun h => hf (hp f h)
  simp [hkept]

/-- An update of rows of these ids, or of columns that no filter looks at. -/
theorem OnlyChanges.update {p : Fragment → Bool} {change : Fragment → Fragment}
    (hid : ∀ f, (change f).id = f.id)
    (hp : ∀ f, p f = true → f.id ∈ ids ∨ (change f).SameScope f) :
    OnlyChanges ids s
      { s with db := { s.db with fragments := s.db.fragments.update p change hid } } := by
  have hrow : ∀ f : Fragment, f.id ∉ ids →
      (if p f then change f else f).id = f.id ∧ (if p f then change f else f).SameScope f := by
    intro f hf
    split
    · rename_i hpf
      exact ⟨hid f, (hp f hpf).resolve_left hf⟩
    · exact ⟨rfl, .refl f⟩
  have hids : ∀ f : Fragment, (if p f then change f else f).id = f.id := by
    intro f
    split
    · exact hid f
    · rfl
  intro id hnot clauses clock
  constructor
  · rintro ⟨g, hg, rfl, hmeets, hlive⟩
    obtain ⟨f, hf, rfl⟩ := List.mem_map.mp hg
    rw [hids] at hnot
    obtain ⟨-, hsame⟩ := hrow f hnot
    exact ⟨f, hf, (hids f).symm, by rwa [← hsame.meets], by rwa [← hsame.ttlLive]⟩
  · rintro ⟨f, hf, rfl, hmeets, hlive⟩
    obtain ⟨-, hsame⟩ := hrow f hnot
    exact ⟨_, List.mem_map.mpr ⟨f, hf, rfl⟩, hids f, by rwa [hsame.meets], by rwa [hsame.ttlLive]⟩

end OnlyChanges

/-- The same for a transaction on the tables of `Db`, whatever the blocks are. -/
def DbOnlyChanges (ids : List String) (db db' : Db) : Prop :=
  ∀ graph, OnlyChanges ids ⟨db, graph⟩ ⟨db', graph⟩

theorem each_onDb_onlyChanges {α : Type} {ids : List String} {t : Writing α}
    (ht : t.Each (DbOnlyChanges ids)) : (onDb t).Each (OnlyChanges ids) := by
  refine (each_onDb ht).mono fun s s' hstep => ?_
  obtain ⟨db, graph⟩ := s
  obtain ⟨db', graph'⟩ := s'
  obtain ⟨hdb, rfl⟩ := hstep
  exact hdb graph'

section Statements

variable {ids : List String}

theorem each_updateFragment_noted {change : Fragment → Fragment}
    (hid : ∀ f, (change f).id = f.id) {id : String}
    (h : id ∈ ids ∨ ∀ f, (change f).SameScope f) :
    (updateFragment change hid id).Each (DbOnlyChanges ids) := by
  refine Txn.each_update fun db graph => OnlyChanges.update hid fun f hf => ?_
  obtain rfl : f.id = id := of_decide_eq_true hf
  exact h.imp (fun h => h) fun h => h f

theorem each_deleteFragment_noted {id : String} (h : id ∈ ids) :
    (deleteFragment id).Each (DbOnlyChanges ids) := by
  refine Txn.each_update fun db graph => OnlyChanges.delete fun f hf => ?_
  obtain rfl : f.id = id := of_decide_eq_true hf
  exact h

theorem each_store_noted (py : Python) {fragment : Fragment} (h : fragment.id ∈ ids) :
    (storeRow py fragment).Each (DbOnlyChanges ids) :=
  (store_upserts py fragment).mono fun _ _ hdb _ => hdb ▸ OnlyChanges.upsert h

/-- Statements on the other tables. -/
theorem dbOnlyChanges_of_eq {db db' : Db} (h : db'.fragments = db.fragments) :
    DbOnlyChanges ids db db' := fun _ => .of_eq rfl h

theorem each_rechainFacts_noted (k : TimelineKey) : (rechainFacts k).Each (DbOnlyChanges ids) :=
  Txn.each_bind (Txn.each_query _) fun _ => Txn.each_forEach fun _ _ =>
    Txn.each_update fun _ => dbOnlyChanges_of_eq rfl

theorem each_cascadeFacts_noted (agentId fragmentId : String) (secure : Bool) (now : Int) :
    (cascadeFacts agentId fragmentId secure now).Each (DbOnlyChanges ids) := by
  have hjobs : (deleteJobs fragmentId).Each (DbOnlyChanges ids) :=
    Txn.each_bind (Txn.each_update fun _ => dbOnlyChanges_of_eq rfl) fun _ =>
      Txn.each_update fun _ => dbOnlyChanges_of_eq rfl
  refine Txn.each_bind (Txn.each_query _) fun rows => ?_
  have hrest : (Txn.forEach (fun key => rechainFacts ⟨agentId, key.1, key.2⟩)
      (rows.map fun r => (r.subjectKey, r.attributeKey)).dedup >>= fun _ =>
        deleteJobs fragmentId).Each (DbOnlyChanges ids) :=
    Txn.each_bind (Txn.each_forEach fun _ _ => each_rechainFacts_noted _) fun _ => hjobs
  split
  · exact Txn.each_bind (Txn.each_update fun _ => dbOnlyChanges_of_eq rfl) fun _ =>
      Txn.each_bind (Txn.each_update fun _ => dbOnlyChanges_of_eq rfl) fun _ => hrest
  · exact Txn.each_bind (Txn.each_update fun _ => dbOnlyChanges_of_eq rfl) fun _ => hrest

theorem each_forgetFragment_noted (now : Int) {fragmentId : String} (secure : Bool)
    (h : fragmentId ∈ ids) : (forgetFragment now fragmentId secure).Each (DbOnlyChanges ids) := by
  refine Txn.each_bind (Txn.each_query _) fun row => ?_
  cases row with
  | none => trivial
  | some row =>
      have hrest : (deleteFragment fragmentId >>= fun _ =>
          cascadeFacts row.agentId fragmentId secure now >>= fun _ => pure true).Each
            (DbOnlyChanges ids) :=
        Txn.each_bind (each_deleteFragment_noted h) fun _ =>
          Txn.each_bind (each_cascadeFacts_noted _ _ _ _) fun _ => trivial
      dsimp only
      split
      · exact Txn.each_bind (each_updateFragment_noted _ (.inl h)) fun _ => hrest
      · exact hrest

theorem each_touchMany_plain (py : Python) (now : Int) (touched : List String) :
    (touchMany py now touched).Each (DbOnlyChanges ids) := by
  have hreads : ∀ chunks, (touchReads chunks).Each (DbOnlyChanges ids) := by
    intro chunks
    induction chunks with
    | nil => trivial
    | cons chunk chunks ih =>
        exact Txn.each_bind (Txn.each_query _) fun _ => Txn.each_bind ih fun _ => trivial
  refine Txn.each_bind (hreads _) fun rows => Txn.each_bind (Txn.each_lift _) fun updates =>
    Txn.each_forEach fun u _ => each_updateFragment_noted _ (.inr fun f => ?_)
  exact ⟨rfl, rfl, rfl, rfl, rfl, rfl, rfl, rfl, rfl⟩

end Statements

/-! ### The calls -/

/-- A write that is not structural. -/
structure PlainWrite where
  program : StoreTxn Unit
  keeps : program.Each (OnlyChanges [])

/-- A structural write and what it notes; nothing when it notes nothing. -/
structure LoggedWrite where
  program : StoreTxn Unit
  notes : Option (List String)
  covers : ∀ ids ∈ notes, program.Each (OnlyChanges ids)

namespace PlainWrite

def touchMany (py : Python) (now : Int) (ids : List String) : PlainWrite where
  program := onDb (MarkSdk.touchMany py now ids)
  keeps := each_onDb_onlyChanges (each_touchMany_plain py now ids)

def updateImportanceMany (now : Int) (updates : List (String × ℚ)) : PlainWrite where
  program := onDb (Txn.forEach (fun u => updateFragment
    (fun f => { f with importance := max 0 (min 1 u.2), updatedAt := now }) (fun _ => rfl) u.1)
    updates)
  keeps := each_onDb_onlyChanges (Txn.each_forEach fun _ _ => each_updateFragment_noted _
    (.inr fun _ => ⟨rfl, rfl, rfl, rfl, rfl, rfl, rfl, rfl, rfl⟩))

def updateEmbedding (fragmentId : String) (embedding : List ℚ) : PlainWrite where
  program := onDb (MarkSdk.updateEmbedding fragmentId embedding)
  keeps := each_onDb_onlyChanges (each_updateFragment_noted _
    (.inr fun _ => ⟨rfl, rfl, rfl, rfl, rfl, rfl, rfl, rfl, rfl⟩))

end PlainWrite

namespace LoggedWrite

/-- `store_many`, which notes each row behind its upsert -/
def storeMany (py : Python) (fragments : List Fragment) : LoggedWrite where
  program := onDb (Txn.forEach (fun fragment => do let _ ← storeRow py fragment) fragments)
  notes := if fragments = [] then none else some (fragments.map Fragment.id)
  covers := by
    intro ids hids
    split at hids
    · cases hids
    · cases hids
      exact each_onDb_onlyChanges (Txn.each_forEach fun fragment hfragment =>
        Txn.each_bind (each_store_noted py (List.mem_map_of_mem hfragment)) fun _ => trivial)

def updateState (now : Int) (fragmentId : String) (newState : MemoryState) : LoggedWrite where
  program := onDb (MarkSdk.updateState now fragmentId newState)
  notes := some [fragmentId]
  covers := by
    rintro _ ⟨⟩
    exact each_onDb_onlyChanges (each_updateFragment_noted _ (.inl List.mem_cons_self))

def delete (fragmentId : String) : LoggedWrite where
  program := onDb (do let _ ← deleteById fragmentId)
  notes := some [fragmentId]
  covers := by
    rintro _ ⟨⟩
    refine each_onDb_onlyChanges (Txn.each_bind (Txn.each_bind (Txn.each_query _) fun row => ?_)
      fun _ => trivial)
    cases row with
    | none => trivial
    | some row =>
        exact Txn.each_bind (each_deleteFragment_noted List.mem_cons_self) fun _ => trivial

def forgetFragment (now : Int) (fragmentId : String) (secure : Bool) : LoggedWrite where
  program := onDb (do let _ ← MarkSdk.forgetFragment now fragmentId secure)
  notes := some [fragmentId]
  covers := by
    rintro _ ⟨⟩
    exact each_onDb_onlyChanges (Txn.each_bind
      (each_forgetFragment_noted now secure List.mem_cons_self) fun _ => trivial)

/-- `clear`, which notes nothing -/
def clear (agentId : Option String) : LoggedWrite where
  program := onDb (Txn.update fun db =>
    { db with fragments := db.fragments.delete fun f => agentId.all fun id => f.agentId = id })
  notes := none
  covers := fun _ h => by cases h

def persistTampered (now : Int) (fragmentIds : List String) : LoggedWrite where
  program := onDb (Txn.forEach (fun id => Txn.update fun db => { db with
    fragments := db.fragments.update (fun f => f.id = id && f.state ≠ .contradicted)
      (Fragment.withState .contradicted now) fun _ => rfl }) fragmentIds)
  notes := some fragmentIds
  covers := by
    rintro _ ⟨⟩
    refine each_onDb_onlyChanges (Txn.each_forEach fun id hid => Txn.each_update fun db graph =>
      OnlyChanges.update _ fun f hf => .inl ?_)
    rw [Bool.and_eq_true, decide_eq_true_eq] at hf
    rw [hf.1]
    exact hid

/-- The memories that opening an encrypted store cannot read, `_quarantine_unreadable` -/
def quarantineUnreadable (fragmentIds : List String) : LoggedWrite where
  program := onDb (Txn.forEach (fun id => updateFragment
    (fun f => { f with state := .quarantined, tags := f.tags ++ ["mark:unreadable"] })
    (fun _ => rfl) id) fragmentIds)
  notes := some fragmentIds
  covers := by
    rintro _ ⟨⟩
    exact each_onDb_onlyChanges (Txn.each_forEach fun id hid =>
      each_updateFragment_noted _ (.inl hid))

def assignFragmentBlock (py : Python) (fragmentId : String) (blockId : Option String)
    (now : Int) : LoggedWrite where
  program := Txn.insert (MarkSdk.assignFragmentBlock py fragmentId blockId now)
  notes := some [fragmentId]
  covers := by
    rintro _ ⟨⟩
    refine Txn.each_insert fun s s' h => ?_
    unfold MarkSdk.assignFragmentBlock at h
    dsimp only at h
    split at h
    · cases h
    · cases h
      refine OnlyChanges.update _ fun f hf => .inl ?_
      rw [of_decide_eq_true hf]
      exact List.mem_cons_self

/-- `store_block`, with which blocks are put in quarantine and released; it notes
nothing -/
def storeBlock (block : Block) : LoggedWrite where
  program := do let _ ← MarkSdk.storeBlock block
  notes := none
  covers := fun _ h => by cases h

/-- A write to nodes, edges or the members of blocks, which notes that no
fragment changes -/
def onGraph (change : Graph → Graph) (hblocks : ∀ g, (change g).blocks = g.blocks) :
    LoggedWrite where
  program := Txn.update (LocalStore.onGraph change)
  notes := some []
  covers := by
    rintro _ ⟨⟩
    exact Txn.each_update fun s => .of_eq (hblocks s.graph) rfl

def storeNode (node : Node) : LoggedWrite :=
  onGraph (fun g => { g with nodes := g.nodes.insertOrReplace node }) fun _ => rfl

def storeEdge (edge : Edge) : LoggedWrite :=
  onGraph (fun g => { g with edges := g.edges.insertOrReplace edge }) fun _ => rfl

def deleteEdge (edgeId : String) : LoggedWrite :=
  onGraph (fun g => { g with edges := g.edges.delete fun e => e.id = edgeId }) fun _ => rfl

def addNodeToBlock (blockId nodeId : String) (now : Int) : LoggedWrite :=
  onGraph (fun g => { g with blockNodes := g.blockNodes.insertOrIgnore ⟨blockId, nodeId, now⟩ })
    fun _ => rfl

/-- A write to documents or to links between blocks -/
def otherTables : LoggedWrite := onGraph (fun g => g) fun _ => rfl

end LoggedWrite

end MarkSdk
