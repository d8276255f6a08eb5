import MarkSdk.Lib.Runs
import MarkSdk.Snapshots.Saving

/-!
The processes that share a database with vector snapshots.

A process has an index, the write version that it read before it filled the
index, and perhaps a load that it has begun. A load reads three times, and other
processes write in between. What the pipeline does with its index is any calls
of it: whether the vectors are those of the rows is not built in.
-/

namespace MarkSdk

open Lib

/-- Rows keep their agents and embeddings, or go. -/
def KeepsVectors (db db' : Db) : Prop :=
  ∀ f' ∈ db'.fragments.rows, ∃ f ∈ db.fragments.rows,
    f.id = f'.id ∧ f.agentId = f'.agentId ∧ f.embedding = f'.embedding

section KeepsVectors

variable {db db' : Db}

theorem KeepsVectors.refl (db : Db) : KeepsVectors db db := fun f hf => ⟨f, hf, rfl, rfl, rfl⟩

theorem KeepsVectors.trans {db'' : Db} (h : KeepsVectors db db') (h' : KeepsVectors db' db'') :
    KeepsVectors db db'' := by
  intro f'' hf''
  obtain ⟨f', hf', hid', hagent', hembedding'⟩ := h' f'' hf''
  obtain ⟨f, hf, hid, hagent, hembedding⟩ := h f' hf'
  exact ⟨f, hf, hid.trans hid', hagent.trans hagent', hembedding.trans hembedding'⟩

theorem keepsVectors_of_eq (h : db'.fragments = db.fragments) : KeepsVectors db db' := by
  intro f hf
  rw [h] at hf
  exact ⟨f, hf, rfl, rfl, rfl⟩

theorem keepsVectors_delete (db : Db) (p : Fragment → Bool) :
    KeepsVectors db { db with fragments := db.fragments.delete p } :=
  fun f hf => ⟨f, (List.mem_filter.mp hf).1, rfl, rfl, rfl⟩

/-- An update of other columns. -/
theorem keepsVectors_update (db : Db) (p : Fragment → Bool) {change : Fragment → Fragment}
    (hid : ∀ f, (change f).id = f.id)
    (hkept : ∀ f, (change f).agentId = f.agentId ∧ (change f).embedding = f.embedding) :
    KeepsVectors db { db with fragments := db.fragments.update p change hid } := by
  intro f' hf'
  obtain ⟨f, hf, rfl⟩ := List.mem_map.mp hf'
  refine ⟨f, hf, ?_⟩
  split
  · exact ⟨(hid f).symm, (hkept f).1.symm, (hkept f).2.symm⟩
  · exact ⟨rfl, rfl, rfl⟩

end KeepsVectors

/-- A write that gives no row another vector; it need not be structural. -/
structure QuietWrite where
  structural : Bool
  program : StoreTxn Unit
  keeps : program.Each fun s s' => KeepsVectors s.db s'.db

namespace QuietWrite

theorem each_onDb_vectors {t : Writing Unit} (h : t.Each KeepsVectors) :
    (onDb t).Each fun s s' => KeepsVectors s.db s'.db :=
  (each_onDb h).mono fun _ _ hstep => hstep.1

/-- `UPDATE` of other columns of a row -/
theorem each_updateFragment_vectors {change : Fragment → Fragment}
    (hid : ∀ f, (change f).id = f.id)
    (hkept : ∀ f, (change f).agentId = f.agentId ∧ (change f).embedding = f.embedding)
    (id : String) : (updateFragment change hid id).Each KeepsVectors :=
  Txn.each_update fun db => keepsVectors_update db _ hid hkept

def touchMany (py : Python) (now : Int) (ids : List String) : QuietWrite where
  structural := false
  program := (PlainWrite.touchMany py now ids).program
  keeps := by
    have hreads : ∀ chunks, (touchReads chunks).Each KeepsVectors := by
      intro chunks
      induction chunks with
      | nil => trivial
      | cons chunk chunks ih =>
          exact Txn.each_bind (Txn.each_query _) fun _ => Txn.each_bind ih fun _ => trivial
    exact each_onDb_vectors (Txn.each_bind (hreads _) fun rows =>
      Txn.each_bind (Txn.each_lift _) fun updates => Txn.each_forEach fun u _ =>
        each_updateFragment_vectors _ (by exact fun _ => ⟨rfl, rfl⟩) _)

def updateImportanceMany (now : Int) (updates : List (String × ℚ)) : QuietWrite where
  structural := false
  program := (PlainWrite.updateImportanceMany now updates).program
  keeps := each_onDb_vectors (Txn.each_forEach fun _ _ =>
    each_updateFragment_vectors _ (by exact fun _ => ⟨rfl, rfl⟩) _)

def updateState (now : Int) (fragmentId : String) (newState : MemoryState) : QuietWrite where
  structural := true
  program := (LoggedWrite.updateState now fragmentId newState).program
  keeps := each_onDb_vectors (each_updateFragment_vectors _ (by exact fun _ => ⟨rfl, rfl⟩) _)

def delete (fragmentId : String) : QuietWrite where
  structural := true
  program := (LoggedWrite.delete fragmentId).program
  keeps := by
    refine each_onDb_vectors (Txn.each_bind ((deleteById_deletes fragmentId).mono ?_)
      fun _ => trivial)
    rintro db _ rfl
    exact keepsVectors_delete db _

def clear (agentId : Option String) : QuietWrite where
  structural := true
  program := (LoggedWrite.clear agentId).program
  keeps := each_onDb_vectors (Txn.each_update fun db => keepsVectors_delete db _)

def persistTampered (now : Int) (fragmentIds : List String) : QuietWrite where
  structural := true
  program := (LoggedWrite.persistTampered now fragmentIds).program
  keeps := each_onDb_vectors (Txn.each_forEach fun _ _ => Txn.each_update fun db =>
    keepsVectors_update db _ _ (by exact fun _ => ⟨rfl, rfl⟩))

def assignFragmentBlock (py : Python) (fragmentId : String) (blockId : Option String)
    (now : Int) : QuietWrite where
  structural := true
  program := (LoggedWrite.assignFragmentBlock py fragmentId blockId now).program
  keeps := by
    refine Txn.each_insert fun s s' h => ?_
    unfold MarkSdk.assignFragmentBlock at h
    dsimp only at h
    split at h
    · cases h
    · cases h
      exact keepsVectors_update s.db _ _ fun _ => ⟨rfl, rfl⟩

/-- A write to blocks, nodes, edges, documents or links -/
def onGraph (change : Graph → Graph) : QuietWrite where
  structural := true
  program := Txn.update (LocalStore.onGraph change)
  keeps := Txn.each_update fun _ => keepsVectors_of_eq rfl

end QuietWrite

/-! ### The steps -/

/-- What the processes have in common, and which of them have the full-text hook. -/
structure SnapshotHost where
  py : Python
  env : IndexEnv ℚ
  /-- `PART_ROWS` -/
  partRows : Nat := 65536
  partRows_pos : 0 < partRows := by decide
  /-- `_fts_enabled` -/
  ftsEnabled : Nat → Bool

/-- A load that has begun; `dirty` once it is read. -/
structure SnapshotLoad where
  agentId : String
  fingerprint : String
  dim : Nat
  count : Nat
  dirty : Option (List String)

structure SnapshotProcess where
  index : VectorIndex ℚ
  version : Int
  load : Option SnapshotLoad

structure SnapshotState where
  file : VectorFile
  processes : Nat → SnapshotProcess

/-- A store without snapshots, and processes that have done nothing. -/
def SnapshotState.start (tables : LocalStore) (version : Int) : SnapshotState where
  file := ⟨tables, version, fun _ => none, []⟩
  processes := fun _ => ⟨VectorIndex.new.start false false, version, none⟩

/-- A step of any process. -/
inductive SnapshotStep : Type
  | store (p : Nat) (fragments : List Fragment)
  | updateEmbedding (fragmentId : String) (embedding : List ℚ)
  | markVectorsDirty (agentId : String) (fragmentIds : List String)
  | forget (now : Int) (fragmentId : String) (secure : Bool)
  | write (w : QuietWrite)
  | dropVectorSnapshot (agentId : String)
  | restart (p : Nat) (backend : IndexBackend)
  | index (p : Nat) (call : IndexCall ℚ)
  | readVersion (p : Nat)
  | saveSnapshot (p : Nat) (agentId fingerprint : String)
  | readMeta (p : Nat) (agentId fingerprint : String)
  | readDirty (p : Nat)
  | readParts (p : Nat)

/-- One process goes on. -/
def SnapshotState.onProcess (p : Nat) (change : SnapshotProcess → SnapshotProcess)
    (s : SnapshotState) : SnapshotState :=
  { s with processes := Function.update s.processes p (change (s.processes p)) }

/-- The file is written. -/
def SnapshotState.onFile (change : VectorFile → VectorFile) (s : SnapshotState) : SnapshotState :=
  { s with file := change s.file }

/-- The first read of a load. -/
def SnapshotHost.readMeta (host : SnapshotHost) (p : Nat) (agentId fingerprint : String)
    (file : VectorFile) : Option SnapshotLoad :=
  if ¬ host.ftsEnabled p then none
  else
    (file.snapshotMeta agentId fingerprint).map fun described =>
      ⟨agentId, fingerprint, described.1, described.2, none⟩

/-- The second read. -/
def SnapshotLoad.readDirty (file : VectorFile) (load : SnapshotLoad) : SnapshotLoad :=
  { load with dirty := some (file.dirtyIds load.agentId) }

/-- The third read: the pairs of all parts. -/
def SnapshotLoad.served (file : VectorFile) (load : SnapshotLoad) : List (String × List ℚ) :=
  match load.dirty with
  | none => []
  | some dirty =>
      ((file.snapshotParts load.agentId).map (VectorFile.snapshotRow dirty load.dim)).flatMap
        (vectorPairs load.dim)

def SnapshotStep.apply (host : SnapshotHost) (step : SnapshotStep) (s : SnapshotState) :
    SnapshotState :=
  match step with
  | .store p fragments => s.onFile (VectorFile.storeMany (host.ftsEnabled p) host.py fragments)
  | .updateEmbedding fragmentId embedding =>
      s.onFile (VectorFile.updateEmbedding fragmentId embedding)
  | .markVectorsDirty agentId fragmentIds =>
      s.onFile (VectorFile.markVectorsDirty agentId fragmentIds)
  | .forget now fragmentId secure => s.onFile (VectorFile.forgetFragment now fragmentId secure)
  | .write w => s.onFile (VectorFile.writing w.structural w.program fun _ file => file)
  | .dropVectorSnapshot agentId => s.onFile (VectorFile.dropVectorSnapshot agentId)
  | .restart p backend =>
      s.onProcess p fun process =>
        { process with
          index := (VectorIndex.new host.env backend).getD process.index
          load := none }
  | .index p call =>
      s.onProcess p fun process => { process with index := process.index.step host.env call }
  | .readVersion p => s.onProcess p fun process => { process with version := s.file.writeVersion }
  | .saveSnapshot p agentId fingerprint =>
      s.onFile fun file =>
        (file.saveSnapshot (host.ftsEnabled p) host.partRows agentId fingerprint
          (s.processes p).version (s.processes p).index).2
  | .readMeta p agentId fingerprint =>
      s.onProcess p fun process =>
        { process with load := host.readMeta p agentId fingerprint s.file }
  | .readDirty p =>
      s.onProcess p fun process =>
        { process with load := process.load.map (SnapshotLoad.readDirty s.file) }
  | .readParts p => s.onProcess p fun process => { process with load := none }

end MarkSdk
