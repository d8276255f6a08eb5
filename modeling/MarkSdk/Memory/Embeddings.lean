import MarkSdk.Memory.BatchWriting
import MarkSdk.Memory.JobRows
import MarkSdk.Memory.PruneTwice

/-!
Stored embeddings and the texts they belong to.

The write paths embed a text as they store it, or store it without an
embedding while the embedder is down, and a later catch-up embeds the text of
the row. The jobs write whole rows back. A consolidation writes the text that
the gate has cleaned next to the embedding of the old one, and an import takes
the embedding of a memory that is not indexed from its line. Along every run
without these two, every embedding is the one of its row's text
(`embeddings_belong`).
-/

namespace MarkSdk

open Lib

/-- The embedding, if there is one, is that of the content. -/
def Fragment.Faithful (E : String → List ℚ) (f : Fragment) : Prop :=
  f.embedding = none ∨ f.embedding = some (E f.content)

instance decidableFaithful (E : String → List ℚ) (f : Fragment) : Decidable (f.Faithful E) :=
  inferInstanceAs (Decidable (_ ∨ _))

/-! ### The embedder -/

/-- `_embed_batch_or_defer`: nothing for a batch for which the embedder is
down. -/
def embedBatchOrDefer (E : String → List ℚ) (up : List String → Bool) (texts : List String) :
    Option (List (List ℚ)) :=
  if up texts then some (texts.map E) else none

def WritePath.withEmbedder (E : String → List ℚ) (up : List String → Bool) (w : WritePath) :
    WritePath :=
  { w with embed := fun text => if up [text] then some (E text) else none }

def embedForWrite (E : String → List ℚ) (up : List String → Bool) (batch : List Fragment) :
    List Fragment :=
  match embedBatchOrDefer E up (batch.map Fragment.content) with
  | some vectors => List.zipWith (fun f v => { f with embedding := some v }) batch vectors
  | none => batch.map fun f => { f with embedding := none }

/-- `UPDATE fragments SET embedding_blob = ? WHERE id = ?` -/
def updateEmbedding (fragmentId : String) (embedding : List ℚ) : Writing Unit :=
  updateFragment (fun r => { r with embedding := some embedding }) (fun _ => rfl) fragmentId

/-! ### Catching up -/

/-- The rows of a chunk are embedded, unless the embedder is down. -/
def embedChunk (E : String → List ℚ) (up : List String → Bool) (chunk : List String) :
    MemoryClient Bool := do
  let ordered ← Client.read fun s => chunk.filterMap s.get
  if ordered = [] then return true
  else
    match embedBatchOrDefer E up (ordered.map Fragment.content) with
    | none => return false
    | some vectors => do
        Client.forEach (fun row => callStore .other (updateEmbedding row.1 row.2))
          ((ordered.map Fragment.id).zip vectors)
        return true

/-- `_embed_and_index` of the ids in the chunks that its clock makes of them;
it ends when the embedder is down. -/
def embedAndIndex (E : String → List ℚ) (up : List String → Bool) :
    List (List String) → MemoryClient Bool
  | [] => pure true
  | chunk :: chunks => do
      let done ← embedChunk E up chunk
      if done then embedAndIndex E up chunks else return false

/-! ### Import -/

/-- The metadata of a record without the digest, which may be keyed by the
store it came from. -/
def cleanRecord (record : Metadata) : Option Metadata :=
  let metadata := (record.lookup "metadata").getD .none
  if metadata.truthy then
    match metadata with
    | .dict entries =>
        some (record.assign "metadata" (.dict (entries.filter fun entry => entry.1 ≠ "content_hash")))
    | _ => none
  else some (record.assign "metadata" (.dict []))

/-- The loop of `_flush`: the memories that are new, unless an id cannot be
looked up. `validate` is `MemoryFragment.model_validate` with the digest
attached. -/
def readMemories (validate : Metadata → Option Fragment) (s : LocalStore) :
    List Metadata → Except MemoryError (List Fragment)
  | [] => .ok []
  | record :: records =>
      let valid : Option Fragment := (cleanRecord record).bind validate
      match record.lookup "id" with
      | some (.list _) | some (.dict _) => .error (.store (.typeError "unhashable type"))
      | some (.str id) =>
          if (s.get id).isSome then readMemories validate s records
          else do
            let others ← readMemories validate s records
            return valid.toList ++ others
      | _ => do
          let others ← readMemories validate s records
          return valid.toList ++ others

/-- `xs[start:start + 64]` for each `start` -/
def writeBatches (fs : List Fragment) : List (List Fragment) :=
  (List.range ((fs.length + 63) / 64)).map fun k => (fs.drop (64 * k)).take 64

/-- `_flush`: the memories that are not retrievable as they are, the others
with their embeddings. An import is a run of these, with facts and documents
in between. -/
def flushMemories (py : Python) (E : String → List ℚ) (up : List String → Bool)
    (validate : Metadata → Option Fragment) (records : List Metadata) : MemoryClient Unit := do
  let read ← Client.read fun s => readMemories validate s records
  let fragments ← Client.ofExcept read
  let plain := fragments.filter fun f => !f.state.retrievable
  Client.when (!plain.isEmpty) do
    let _ ← callStore .other (storeMany py plain)
  Client.forEach (fun batch => do
    let _ ← callStore .other (storeMany py (embedForWrite E up batch)))
    (writeBatches (fragments.filter fun f => f.state.retrievable))

/-! ### The write paths -/

section Writes

variable {E : String → List ℚ} {up : List String → Bool} {w : WritePath}

theorem faithful_embed (f : Fragment) :
    ({ f with embedding := (w.withEmbedder E up).embed f.content } : Fragment).Faithful E := by
  unfold Fragment.Faithful WritePath.withEmbedder
  dsimp only
  split
  · exact .inr rfl
  · exact .inl rfl

theorem embedding_of_newFragment {agentId id : String} {now : Int} {d : MemoryDraft} {f : Fragment}
    (h : newFragment agentId id now d = .ok f) : f.embedding = none := by
  unfold newFragment at h
  split at h
  · cases h
  · rw [← Except.ok.inj h]

theorem faithful_prepareMemory {py : Python} {agentId id text : String} {now : Int}
    {o : RememberOptions} {f : Fragment}
    (h : prepareMemory py (w.withEmbedder E up) agentId id now text o = .ok f) : f.Faithful E := by
  unfold prepareMemory at h
  split at h
  · cases h
  · obtain ⟨tags, -, h⟩ := Txn.exists_of_bind_eq_ok h
    obtain ⟨content, -, h⟩ := Txn.exists_of_bind_eq_ok h
    obtain ⟨metadata, -, h⟩ := Txn.exists_of_bind_eq_ok h
    obtain ⟨-, -, h⟩ := Txn.exists_of_bind_eq_ok h
    obtain ⟨-, -, h⟩ := Txn.exists_of_bind_eq_ok h
    obtain ⟨draft, -, h⟩ := Txn.exists_of_bind_eq_ok h
    obtain ⟨guarded, -, h⟩ := Txn.exists_of_bind_eq_ok h
    obtain ⟨fragment, hfragment, h⟩ := Txn.exists_of_bind_eq_ok h
    rw [← Except.ok.inj h]
    split
    · exact faithful_embed fragment
    · exact .inl (embedding_of_newFragment hfragment)

theorem keepsRows_remember (py : Python) (agentId id text : String) (now : Int)
    (o : RememberOptions) :
    (remember py (w.withEmbedder E up) agentId id now text o).Keeps
      (LocalStore.Rows (Fragment.Faithful E)) fun _ => True :=
  Client.keeps_bind (Client.keeps_ofExcept fun _ h => faithful_prepareMemory h) fun _ hf =>
    keepsRows_insert py hf

theorem embedding_of_guardedFragment {registered : Bool} {agentId id : String} {now : Int}
    {draft : MemoryDraft} {guarded : Fragment × Bool}
    (h : guardedFragment w registered agentId now id draft = .ok guarded) :
    guarded.1.embedding = none := by
  unfold guardedFragment at h
  obtain ⟨kept, -, h⟩ := Txn.exists_of_bind_eq_ok h
  obtain ⟨fragment, hfragment, h⟩ := Txn.exists_of_bind_eq_ok h
  rw [← Except.ok.inj h]
  unfold itemFragment at hfragment
  split at hfragment
  · exact embedding_of_newFragment hfragment
  · cases hnew : newFragment agentId id now kept.1 with
    | error e =>
        rw [hnew] at hfragment
        cases hfragment
    | ok f =>
        rw [hnew] at hfragment
        rw [← Except.ok.inj hfragment]
        exact embedding_of_newFragment hnew

theorem faithful_embedded {guarded : Fragment × Bool} (h : guarded.1.embedding = none) :
    (embedded (w.withEmbedder E up) guarded).Faithful E := by
  unfold embedded
  split
  · exact faithful_embed guarded.1
  · exact .inl h

theorem keepsRows_writeBatch (py : Python) (tools : IdTools) (agentId key : String)
    (options : BulkOptions) (now : Int) (todo : List BulkEntry) :
    (writeBatch py (w.withEmbedder E up) tools agentId key options now todo).Keeps
      (LocalStore.Rows (Fragment.Faithful E)) fun _ => True := by
  refine Client.keeps_bind (Q := fun fragments : List (Fragment × Bool) =>
    ∀ guarded ∈ fragments, guarded.1.embedding = none) (Client.keeps_ofExcept fun fragments h => ?_)
    fun fragments hnone => ?_
  · intro guarded hguarded
    obtain ⟨entry, -, hentry⟩ := (mem_of_mapM_eq_ok h).1 guarded hguarded
    exact embedding_of_guardedFragment hentry
  · dsimp only
    split
    · trivial
    · refine Client.keeps_bind (keepsRows_storeMany py .other fun f hf => ?_) fun _ _ =>
        Client.keeps_pure trivial
      obtain ⟨guarded, hguarded, rfl⟩ := List.mem_map.mp hf
      refine faithful_embedded (hnone guarded ?_)
      rcases List.mem_append.mp hguarded with hrejected | haccepted
      · exact (List.mem_filter.mp hrejected).1
      · exact (List.mem_filter.mp haccepted).1

theorem keepsRows_storeManySync (py : Python) (tools : IdTools) (registered : Bool)
    (agentId key : String) (options : BulkOptions) (strict : Bool) (now : Int)
    (items : List BulkItem) :
    (storeManySync py (w.withEmbedder E up) tools registered agentId key options strict now
      items).Keeps (LocalStore.Rows (Fragment.Faithful E)) fun _ => True := by
  refine Client.keeps_bind (Q := fun _ => True) (Client.keeps_ofExcept fun _ _ => trivial)
    fun metadata _ => Client.keeps_bind (Q := fun _ => True) (Client.keeps_ofExcept fun _ _ => trivial)
      fun _ _ => Client.keeps_bind (Q := fun _ => True) (Client.keeps_ofExcept fun _ _ => trivial)
        fun _ _ => Client.keeps_bind (Q := fun _ => True) (Client.keeps_ofExcept fun _ _ => trivial)
          fun _ _ => Client.keeps_bind (Q := fun _ => True) (Client.keeps_read fun _ _ => trivial)
            fun existing _ => ?_
  dsimp only
  split
  · refine Client.keeps_bind (Client.keeps_forEach fun entry _ => ?_) fun _ _ =>
      Client.keeps_pure trivial
    refine Client.keeps_bind (Q := fun _ => True) (Client.keeps_ofExcept fun _ _ => trivial)
      fun draft _ => ?_
    refine Client.keeps_bind (Client.keeps_ofExcept fun _ h => embedding_of_guardedFragment h)
      fun guarded hnone => ?_
    exact Client.keeps_bind (keepsRows_insert py (faithful_embedded hnone)) fun _ _ =>
      Client.keeps_pure trivial
  · refine Client.keeps_bind (keepsRows_writeBatch py tools agentId key options now _) fun _ _ =>
      Client.keeps_pure trivial

/-! ### Revisions -/

section Revisions

variable {P : Fragment → Prop}

theorem keepsRows_facadeGet (agentId memoryId : String) :
    (facadeGet agentId memoryId).Keeps (LocalStore.Rows P) fun found => ∀ f, found = some f → P f := by
  have hget : ∀ s : LocalStore, s.Rows P → ∀ id f, s.get id = some f → P f := fun s hs id f hf =>
    hs f (Table.find?_eq_some_iff.mp hf).1
  have hmine : ∀ found : Option Fragment, (∀ f, found = some f → P f) →
      ∀ f, (found.filter fun f => f.agentId = agentId) = some f → P f := fun found hfound f hf =>
    hfound f (Option.eq_some_of_filter_eq_some hf)
  refine Client.keeps_bind (Q := fun found => ∀ f, found = some f → P f)
    (Client.keeps_read fun s hs => hget s hs memoryId) fun found hfound => ?_
  split
  · refine Client.keeps_bind (Q := fun _ => True) (Client.keeps_read fun _ _ => trivial)
      fun ids _ => ?_
    split
    · refine Client.keeps_bind (Q := fun found => ∀ f, found = some f → P f)
        (Client.keeps_read fun s hs => hget s hs _) fun found hfound => ?_
      exact Client.keeps_pure (hmine found hfound)
    · exact Client.keeps_pure fun f hf => by cases hf
  · exact Client.keeps_pure (hmine found hfound)

theorem keepsRows_requireMemory (agentId memoryId : String) :
    (requireMemory agentId memoryId).Keeps (LocalStore.Rows P) P := by
  refine Client.keeps_bind (keepsRows_facadeGet agentId memoryId) fun found hfound => ?_
  cases found with
  | none => trivial
  | some f => exact hfound f rfl

theorem keepsRows_newestFrom (py : Python) (agentId : String) (fuel : Nat) (seen : List String)
    {f : Fragment} (hf : P f) :
    (newestFrom py agentId fuel seen f).Keeps (LocalStore.Rows P) P := by
  induction fuel generalizing seen f with
  | zero => trivial
  | succ fuel ih =>
      unfold newestFrom
      split
      · exact hf
      · split
        · exact hf
        · refine Client.keeps_bind (keepsRows_facadeGet agentId _) fun newer hnewer => ?_
          cases newer with
          | none => exact hf
          | some newer => exact ih _ (hnewer newer rfl)

end Revisions

theorem keepsRows_supersede (py : Python) (agentId newId memoryId text : String) (now : Int)
    (fuel : Nat) (o : ReviseOptions) :
    (supersede py (w.withEmbedder E up) agentId newId now fuel memoryId text o).Keeps
      (LocalStore.Rows (Fragment.Faithful E)) fun _ => True := by
  refine Client.keeps_bind (keepsRows_requireMemory agentId memoryId) fun required hrequired => ?_
  refine Client.keeps_bind (keepsRows_newestFrom py agentId fuel _ hrequired) fun old hold => ?_
  refine Client.keeps_bind (keepsRows_remember py agentId newId text now _) fun newId _ => ?_
  exact Client.keeps_bind (keepsRows_rewrite py hold) fun _ _ => Client.keeps_pure trivial

/-! ### Catching up and importing -/

theorem faithful_embedForWrite {batch : List Fragment} {f : Fragment}
    (hf : f ∈ embedForWrite E up batch) : f.Faithful E := by
  unfold embedForWrite embedBatchOrDefer at hf
  split at hf
  · rename_i vectors hvectors
    split at hvectors
    · cases hvectors
      rw [List.map_map, List.zipWith_map_right, List.zipWith_self] at hf
      obtain ⟨g, -, rfl⟩ := List.mem_map.mp hf
      exact .inr rfl
    · cases hvectors
  · obtain ⟨g, -, rfl⟩ := List.mem_map.mp hf
    exact .inl rfl

theorem rows_embedChunk {s : LocalStore} (hs : s.Rows (Fragment.Faithful E)) (chunk : List String) :
    ((embedChunk E up chunk).after s).Rows (Fragment.Faithful E) := by
  unfold embedChunk
  rw [Client.after_bind (Client.run_read _ s)]
  have hordered : ∀ f ∈ chunk.filterMap s.get, f ∈ s.db.fragments.rows := by
    intro f hf
    obtain ⟨id, -, hid⟩ := List.mem_filterMap.mp hf
    exact (Table.find?_eq_some_iff.mp hid).1
  generalize chunk.filterMap s.get = ordered at hordered
  split
  · exact hs
  · unfold embedBatchOrDefer
    split
    · exact hs
    · rename_i vectors hvectors
      split at hvectors
      · cases hvectors
        -- the texts stay those that were read
        have hkeeps : (Client.forEach (fun row => callStore .other (updateEmbedding row.1 row.2))
            ((ordered.map Fragment.id).zip ((ordered.map Fragment.content).map E)) :
              MemoryClient Unit).Keeps
            (LocalStore.Rows fun g => g.Faithful E ∧
              ∃ f ∈ s.db.fragments.rows, f.id = g.id ∧ f.content = g.content) fun _ => True := by
          refine Client.keeps_forEach fun row hrow => Client.keeps_txn ?_
          rw [List.map_map, List.zip_map'] at hrow
          obtain ⟨f, hf, rfl⟩ := List.mem_map.mp hrow
          have heach : (updateEmbedding f.id (E f.content)).Each fun db db' =>
              db'.fragments = db.fragments.update (fun r => r.id = f.id)
                (fun r => { r with embedding := some (E f.content) }) fun _ => rfl :=
            Txn.each_update fun _ => rfl
          refine (each_onDb heach).mono fun t t' hstep ht g hg => ?_
          rw [hstep.1] at hg
          obtain ⟨r, hr, rfl⟩ := List.mem_map.mp hg
          obtain ⟨hfaithful, f', hf', hid, hcontent⟩ := ht r hr
          split
          · rename_i hsame
            have heq : f = f' := s.db.fragments.eq_of_key (hordered f hf) hf'
              ((of_decide_eq_true hsame).symm.trans hid.symm)
            subst heq
            exact ⟨.inr (congrArg (fun text => some (E text)) hcontent), f, hf', hid, hcontent⟩
          · exact ⟨hfaithful, f', hf', hid, hcontent⟩
        rw [Client.after_bind_pure]
        exact fun g hg => (hkeeps.after (fun g hg => ⟨hs g hg, g, hg, rfl, rfl⟩) g hg).1
      · cases hvectors

theorem rows_embedAndIndex {s : LocalStore} (hs : s.Rows (Fragment.Faithful E))
    (chunks : List (List String)) :
    ((embedAndIndex E up chunks).after s).Rows (Fragment.Faithful E) := by
  induction chunks generalizing s with
  | nil => exact hs
  | cons chunk chunks ih =>
      refine Client.after_bind_of (I := LocalStore.Rows (Fragment.Faithful E))
        (rows_embedChunk hs chunk) fun done t ht => ?_
      split
      · exact ih ht
      · exact ht

/-- What an import stores without the embedder belongs to its text. -/
def PlainFaithful (E : String → List ℚ) (validate : Metadata → Option Fragment)
    (records : List Metadata) (s : LocalStore) : Prop :=
  ∀ fs, readMemories validate s records = .ok fs →
    ∀ f ∈ fs, f.state.retrievable = false → f.Faithful E

theorem rows_flushMemories (py : Python) {validate : Metadata → Option Fragment}
    {records : List Metadata} {s : LocalStore} (hs : s.Rows (Fragment.Faithful E))
    (hplain : PlainFaithful E validate records s) :
    ((flushMemories py E up validate records).after s).Rows (Fragment.Faithful E) := by
  unfold flushMemories
  rw [Client.after_bind (Client.run_read _ s)]
  refine Client.Keeps.after (Q := fun _ => True) ?_ hs
  refine Client.keeps_bind (Client.keeps_ofExcept fun fs hfs => hplain fs hfs) fun fs hfs => ?_
  refine Client.keeps_bind (Client.keeps_when ?_) fun _ _ => Client.keeps_forEach fun batch _ => ?_
  · refine Client.keeps_bind (keepsRows_storeMany py .other fun f hf => ?_) fun _ _ =>
      Client.keeps_pure trivial
    obtain ⟨hmem, hstate⟩ := List.mem_filter.mp hf
    exact hfs f hmem (by simpa using hstate)
  · exact Client.keeps_bind (keepsRows_storeMany py .other fun f hf => faithful_embedForWrite hf)
      fun _ _ => Client.keeps_pure trivial

end Writes

/-! ### Runs -/

/-- A call that may write a text or an embedding; `up` says for which batches
the embedder answers. -/
inductive EmbeddingCall : Type
  | remember (up : List String → Bool) (agentId newId : String) (now : Int) (text : String)
      (o : RememberOptions)
  | storeMany (up : List String → Bool) (tools : IdTools) (registered : Bool) (agentId key : String)
      (options : BulkOptions) (strict : Bool) (now : Int) (items : List BulkItem)
  | supersede (up : List String → Bool) (agentId newId : String) (now : Int) (memoryId text : String)
      (o : ReviseOptions)
  | flush (up : List String → Bool) (records : List Metadata)
  | maintain (agentId : String) (job : MaintenanceJob)
  | catchUp (up : List String → Bool) (chunks : List (List String))

section Runs

variable (py : Python) (w : WritePath) (validate : Metadata → Option Fragment)
  (E : String → List ℚ)

/-- The call, with nothing in between. -/
def EmbeddingCall.step : EmbeddingCall → LocalStore → LocalStore
  | .remember up agentId newId now text o, s =>
      (MarkSdk.remember py (w.withEmbedder E up) agentId newId now text o).after s
  | .storeMany up tools registered agentId key options strict now items, s =>
      (storeManySync py (w.withEmbedder E up) tools registered agentId key options strict now
        items).after s
  | .supersede up agentId newId now memoryId text o, s =>
      (MarkSdk.supersede py (w.withEmbedder E up) agentId newId now
        (s.db.fragments.rows.length + 1) memoryId text o).after s
  | .flush up records, s => (flushMemories py E up validate records).after s
  | .maintain agentId job, s => MaintenanceJob.step py (agentId, job) s
  | .catchUp up chunks, s => (embedAndIndex E up chunks).after s

/-- A consolidation cleans no text that has an embedding, and an import brings
no embedding of another text. -/
def EmbeddingCall.KeepsTexts (call : EmbeddingCall) (s : LocalStore) : Prop :=
  match call with
  | .maintain agentId (.consolidate gate threshold now) =>
      ∀ f ∈ s.db.fragments.rows, f.agentId = agentId →
        TakenOver gate threshold now (s.membership agentId) f →
          f.embedding = none ∨ E (gate f.content f.confidence).content = E f.content
  | .flush _ records => PlainFaithful E validate records s
  | _ => True

theorem faithful_step {call : EmbeddingCall} {s : LocalStore} (hs : s.Rows (Fragment.Faithful E))
    (hcall : call.KeepsTexts validate E s) :
    (call.step py w validate E s).Rows (Fragment.Faithful E) := by
  cases call with
  | remember up agentId newId now text o =>
      exact (keepsRows_remember py agentId newId text now o).after hs
  | storeMany up tools registered agentId key options strict now items =>
      exact (keepsRows_storeManySync py tools registered agentId key options strict now items).after hs
  | supersede up agentId newId now memoryId text o =>
      exact (keepsRows_supersede py agentId newId memoryId text now _ o).after hs
  | flush up records => exact rows_flushMemories py hs hcall
  | maintain agentId job =>
      cases job with
      | prune d edgeFloor now => exact rows_prune py hs (fun f hf _ => hs f hf) edgeFloor
      | consolidate gate threshold now =>
          refine rows_consolidate py hs fun f hf hagent htaken => ?_
          rcases hcall f hf hagent htaken with hnone | hsame
          · exact .inl hnone
          · exact (hs f hf).imp_right fun hembedding => hembedding.trans (congrArg some hsame.symm)
      | deduplicate cosine threshold sessionId =>
          exact rows_deduplicate py hs (fun f hf _ => hs f hf) cosine threshold sessionId
  | catchUp up chunks => exact rows_embedAndIndex hs chunks

/-- In every state of a run in which every call keeps the texts. -/
theorem embeddings_belong (calls : List EmbeddingCall) (s : LocalStore)
    (hs : s.Rows (Fragment.Faithful E))
    (hcalls : Along (EmbeddingCall.step py w validate E) (EmbeddingCall.KeepsTexts validate E) calls s)
    (before : List EmbeddingCall) (hbefore : before <+: calls) :
    (run (EmbeddingCall.step py w validate E) before s).Rows (Fragment.Faithful E) :=
  hcalls.invariant_within (fun _ _ hs hcall => faithful_step py w validate E hs hcall) hs hbefore

end Runs

def lengthEmbedding (text : String) : List ℚ := [(text.length : ℚ)]

/-- A note that expires, of enough importance to be kept. -/
def rememberNote (up : List String → Bool) (newId text : String) : EmbeddingCall :=
  .remember up "guest" newId 0 text { importance := 9 / 10, ttlSeconds := some 3600 }

/-- A note written in an outage and embedded later, one that is taken over as
it is, and an import. -/
def plainCalls : List EmbeddingCall :=
  [rememberNote (fun _ => false) "m" "the port is 8080",
    .catchUp (fun _ => true) [["m"]],
    .maintain "guest" (.consolidate (fun content _ => ⟨true, content⟩) (7 / 10) 9),
    .supersede (fun _ => true) "guest" "n" 10 "m" "the port is 9090" {},
    .flush (fun _ => false) [[]],
    .maintain "guest" (.deduplicate (fun _ _ => 0) (1 / 2) none),
    .maintain "guest" (.prune .slow 1 11)]

theorem embeddings_belong_plain :
    (run (EmbeddingCall.step .basic .plain
        (fun _ => some { plainMemory "o" "guest" "the port is 7070" 1 with state := .contradicted })
        lengthEmbedding) plainCalls .empty).Rows (Fragment.Faithful lengthEmbedding) :=
  embeddings_belong .basic .plain _ lengthEmbedding plainCalls .empty
    (fun _ hf => absurd hf List.not_mem_nil)
    ⟨trivial, trivial, fun _ _ _ _ => .inr rfl, trivial,
      fun _ hfs f hf _ => by
        obtain rfl := Except.ok.inj hfs
        rw [List.mem_singleton.mp hf]
        exact .inl rfl,
      trivial, trivial, trivial⟩
    plainCalls (List.prefix_refl _)

/-- The address is taken out of the text, and the embedding stays. -/
theorem embedding_outlives_text :
    ¬ ∀ (py : Python) (w : WritePath) (validate : Metadata → Option Fragment)
      (E : String → List ℚ) (calls : List EmbeddingCall),
      (run (EmbeddingCall.step py w validate E) calls .empty).Rows (Fragment.Faithful E) := by
  intro hall
  exact absurd (hall .basic .plain (fun _ => none) lengthEmbedding
    [rememberNote (fun _ => true) "m" "write to ann@acme.io",
      .maintain "guest" (.consolidate (fun _ _ => ⟨true, "write to [EMAIL]"⟩) (7 / 10) 9)])
    (by decide +kernel)

end MarkSdk
