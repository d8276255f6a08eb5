import Mathlib.Logic.Function.Basic
import MarkSdk.Index.Export
import MarkSdk.Lib.Lines
import MarkSdk.Lib.Slices
import MarkSdk.Scopes.Writes

/-!
Vector snapshots in the database file.

A snapshot of an agent has the vectors of its memories in a few large parts.
While an agent has one, every store and every new embedding of one of its
memories is noted in `vector_dirty`, and a load leaves the noted ids out. A
store notes them through the full-text hook, which a process without FTS5 does
not have. A save empties the notes, and it is refused only when a structural
write came in between.
-/

namespace MarkSdk

open Lib

/-- The rows of `vector_snapshot_meta` and `vector_snapshots` of an agent. A blob
is the list of its floats. -/
structure VectorSnapshot where
  fingerprint : String
  dim : Nat
  count : Nat
  parts : List (String × List ℚ)

/-- The database file. -/
structure VectorFile where
  tables : LocalStore
  writeVersion : Int
  snapshots : String → Option VectorSnapshot
  /-- `vector_dirty`: agents and ids -/
  dirty : List (String × String)

namespace VectorFile

/-! ### Writes -/

def markVectorDirty (agentId fragmentId : String) (file : VectorFile) : VectorFile :=
  if (file.snapshots agentId).isSome then
    { file with dirty := file.dirty.insert (agentId, fragmentId) }
  else file

def markVectorsDirty (agentId : String) (fragmentIds : List String) (file : VectorFile) :
    VectorFile :=
  fragmentIds.foldl (fun file fragmentId => file.markVectorDirty agentId fragmentId) file

/-- The three deletes of `drop_vector_snapshot`. -/
def dropVectorSnapshot (agentId : String) (file : VectorFile) : VectorFile :=
  { file with
    snapshots := Function.update file.snapshots agentId none
    dirty := file.dirty.filter fun note => note.1 ≠ agentId }

/-- A block of `_writing`, with what it writes to the tables of the snapshots;
nothing changes when it raises. -/
def writing {α : Type} (structural : Bool) (program : StoreTxn α)
    (after : α → VectorFile → VectorFile) (file : VectorFile) : VectorFile :=
  match program.exec file.tables with
  | .error _ => file
  | .ok (a, tables) =>
      after a
        { file with
          tables := tables
          writeVersion := if structural then file.writeVersion + 1 else file.writeVersion }

/-- `store_many`; `_fts_upsert` notes each row. -/
def storeMany (ftsEnabled : Bool) (py : Python) (fragments : List Fragment) (file : VectorFile) :
    VectorFile :=
  file.writing true (onDb (MarkSdk.storeMany py fragments)) fun _ file =>
    if ftsEnabled then
      fragments.foldl (fun file fragment => file.markVectorDirty fragment.agentId fragment.id) file
    else file

def updateEmbedding (fragmentId : String) (embedding : List ℚ) (file : VectorFile) : VectorFile :=
  file.writing false
    (onDb do
      let row ← Txn.query fun db => db.fragments.find? fragmentId
      MarkSdk.updateEmbedding fragmentId embedding
      return row)
    fun row file =>
      match row with
      | none => file
      | some row => file.markVectorDirty row.agentId fragmentId

def forgetFragment (now : Int) (fragmentId : String) (secure : Bool) (file : VectorFile) :
    VectorFile :=
  file.writing true
    (onDb do
      let row ← Txn.query fun db => db.fragments.find? fragmentId
      let _ ← MarkSdk.forgetFragment now fragmentId secure
      return row)
    fun row file =>
      match row with
      | none => file
      | some row => if secure then file.dropVectorSnapshot row.agentId else file

/-! ### Saving -/

/-- `save_vector_snapshot`, without the scope that it records. -/
def saveVectorSnapshot (ftsEnabled : Bool) (partRows : Nat) (agentId fingerprint : String)
    (ids : List String) (vectors : List (List ℚ)) (dim : Nat) (writeVersion : Int)
    (file : VectorFile) : Bool × VectorFile :=
  if ¬ ftsEnabled ∨ file.writeVersion ≠ writeVersion then (false, file)
  else
    let dropped := file.dropVectorSnapshot agentId
    let parts := vectors.zipIdx.map fun part => (joinLines (sliceAt partRows ids part.2), part.1)
    (true, { dropped with
      snapshots :=
        Function.update dropped.snapshots agentId (some ⟨fingerprint, dim, ids.length, parts⟩) })

/-- The blobs of `save_snapshot`: the rows of the matrix in parts. -/
def matrixParts (partRows : Nat) (matrix : List (List ℚ)) : List (List ℚ) :=
  (List.range ((matrix.length + partRows - 1) / partRows)).map fun part =>
    (sliceAt partRows matrix part).flatten

def saveSnapshot (ftsEnabled : Bool) (partRows : Nat) (agentId fingerprint : String)
    (writeVersion : Int) (index : VectorIndex ℚ) (file : VectorFile) : Bool × VectorFile :=
  match index.exportRows (some agentId) with
  | none => (false, file)
  | some (ids, matrix) =>
      if fingerprint = "" ∨ ":None".toList <:+ fingerprint.toList then (false, file)
      else
        file.saveVectorSnapshot ftsEnabled partRows agentId fingerprint ids
          (matrixParts partRows matrix) (VectorIndex.width matrix) writeVersion

/-! ### Loading -/

/-- The first read of a load: dimension and count of the agent's snapshot, if it
is one of the fingerprint. -/
def snapshotMeta (agentId fingerprint : String) (file : VectorFile) : Option (Nat × Nat) :=
  match file.snapshots agentId with
  | none => none
  | some snapshot =>
      if snapshot.fingerprint ≠ fingerprint then none else some (snapshot.dim, snapshot.count)

/-- The second read: the ids that are noted. -/
def dirtyIds (agentId : String) (file : VectorFile) : List String :=
  (file.dirty.filter fun note => note.1 = agentId).map Prod.snd

/-- The third read, part by part. -/
def snapshotParts (agentId : String) (file : VectorFile) : List (String × List ℚ) :=
  ((file.snapshots agentId).map VectorSnapshot.parts).getD []

/-- `_snapshot_rows` of one part -/
def snapshotRow (dirty : List String) (dim : Nat) (part : String × List ℚ) :
    List String × List ℚ :=
  let ids := splitLines part.1
  if ∀ id ∈ ids, id ∉ dirty then (ids, part.2)
  else
    let keep := ids.zipIdx.filter fun place => place.1 ∉ dirty
    (keep.map Prod.fst, keep.flatMap fun place => sliceAt dim part.2 place.2)

/-- `load_vector_snapshot`, when nothing is written between its reads. -/
def loadVectorSnapshot (ftsEnabled : Bool) (agentId fingerprint : String) (file : VectorFile) :
    Option (Nat × Nat × List (List String × List ℚ)) :=
  if ¬ ftsEnabled then none
  else
    (file.snapshotMeta agentId fingerprint).map fun described =>
      (described.1, described.2,
        (file.snapshotParts agentId).map (snapshotRow (file.dirtyIds agentId) described.1))

end VectorFile

/-- The pairs that a part is made of: the ids with the rows of
`frombuffer(data).reshape(len(ids), dim)`. -/
def vectorPairs (dim : Nat) (part : List String × List ℚ) : List (String × List ℚ) :=
  part.1.zip ((List.range part.1.length).map (sliceAt dim part.2))

/-! ### What a load gives back -/

section Parts

variable {dim : Nat}

/-- The blob has a row for each id. -/
def FitsRows (dim : Nat) (part : String × List ℚ) : Prop :=
  part.2.length = dim * (splitLines part.1).length

theorem vectorPairs_eq_zipIdx (dim : Nat) (ids : List String) (data : List ℚ) :
    vectorPairs dim (ids, data) =
      ids.zipIdx.map fun place => (place.1, sliceAt dim data place.2) := by
  unfold vectorPairs
  rw [List.zip_map_right, List.range_eq_range', List.zipIdx_eq_zip_range']
  rfl

/-- The notes take their own ids out, and no others. -/
theorem vectorPairs_snapshotRow {part : String × List ℚ} (h : FitsRows dim part)
    (dirty : List String) :
    vectorPairs dim (VectorFile.snapshotRow dirty dim part) =
      (vectorPairs dim (splitLines part.1, part.2)).filter fun r => r.1 ∉ dirty := by
  unfold VectorFile.snapshotRow
  dsimp only
  split
  · rename_i hclean
    rw [eq_comm, List.filter_eq_self]
    intro r hr
    exact decide_eq_true (hclean r.1 (List.of_mem_zip hr).1)
  · let keep := (splitLines part.1).zipIdx.filter fun place => place.1 ∉ dirty
    -- the rows that are kept have the full width, so that they are found again
    have hwidth : ∀ row ∈ keep.map (fun place => sliceAt dim part.2 place.2), row.length = dim := by
      intro row hrow
      obtain ⟨place, hplace, rfl⟩ := List.mem_map.mp hrow
      have hlt := List.snd_lt_of_mem_zipIdx (List.mem_filter.mp hplace).1
      exact length_sliceAt h (by rwa [Nat.add_zero] at hlt)
    have hrows := map_sliceAt_flatten hwidth
    rw [List.length_map] at hrows
    have hkept : vectorPairs dim
        (keep.map Prod.fst, keep.flatMap fun place => sliceAt dim part.2 place.2) =
          keep.map fun place => (place.1, sliceAt dim part.2 place.2) := by
      unfold vectorPairs
      rw [List.length_map, List.flatMap_def, hrows, List.zip_map']
    rw [hkept, vectorPairs_eq_zipIdx, List.filter_map]
    rfl

end Parts

end MarkSdk
