import Mathlib.Data.Finset.Dedup
import Mathlib.Data.Finset.SDiff
import MarkSdk.Index.Partitions

/-!
The vector index: partitions by agent, the owner of each id, the dimension.

An operation returns the index it leaves behind and whether it raised, since
a call that raises may have changed the index before. `add_many` has two
paths. With numpy and new ids the whole batch is appended as one block;
otherwise the items are added one by one.
-/

namespace MarkSdk

open Lib

variable {ρ : Type}

/-- Whether numpy can be imported, the promotion threshold, and `_normalize`,
whose square root is not modelled. -/
structure IndexEnv (ρ : Type) where
  numpyInstalled : Bool
  autoNumpyThreshold : Nat
  normalize : List ρ → List ρ
  length_normalize : ∀ v, (normalize v).length = v.length

/-- `VectorIndex`; `np` says that the numpy backend is active. -/
structure VectorIndex (ρ : Type) where
  auto : Bool
  np : Bool
  partitions : Dict (Option String) (Partition ρ)
  owner : Dict String (Option String)
  content : Dict String String
  dim : Option Nat
  revision : Nat

inductive IndexBackend where
  | auto
  | numpy
  | python

/-- The exceptions, with what their messages name. The last is numpy's own,
for a batch of vectors of different lengths. -/
inductive IndexError where
  | emptyEmbedding
  | dimensionMismatch (fragmentId : String) (found expected : Nat)
  | blockDimension (found expected : Nat)
  | lengthsDiffer
  | inhomogeneous
  | embedder (message : String)
  deriving DecidableEq

namespace VectorIndex

/-- `VectorIndex(backend=...)`; `none` is the ImportError without numpy. -/
def new (env : IndexEnv ρ) : IndexBackend → Option (VectorIndex ρ)
  | .numpy => if env.numpyInstalled then some (start false true) else none
  | .auto => some (start true false)
  | .python => some (start false false)
where
  start (auto np : Bool) : VectorIndex ρ := ⟨auto, np, .empty, .empty, .empty, none, 0⟩

def newPartition (index : VectorIndex ρ) : Partition ρ :=
  if index.np then .numpy (.empty (index.dim.getD 0)) else .python .empty

/-- `_partition_remove`: a partition that is left empty goes. -/
def partitionRemove (index : VectorIndex ρ) (owner : Option String) (fragmentId : String) :
    VectorIndex ρ :=
  match index.partitions.get? owner with
  | none => index
  | some partition =>
      let partition := partition.remove fragmentId
      { index with
        partitions :=
          if partition.size = 0 then index.partitions.pop owner
          else index.partitions.set owner partition }

def setContent (index : VectorIndex ρ) (fragmentId content : String) : VectorIndex ρ :=
  { index with
    content :=
      if content ≠ "" then index.content.set fragmentId content else index.content.pop fragmentId }

def promotePartition (dim : Nat) : Partition ρ → Partition ρ
  | .python vectors =>
      .numpy (if vectors.size = 0 then .empty dim
        else NumpyPartition.addMatrix (.empty dim) vectors.keys (vectors.rows.map Prod.snd) 0)
  | .numpy p => .numpy p

/-- `_promote`: decided once, whether or not numpy is there. -/
def promote (env : IndexEnv ρ) (index : VectorIndex ρ) : VectorIndex ρ :=
  let index := { index with auto := false }
  match index.dim with
  | none => index
  | some dim =>
      if env.numpyInstalled then
        { index with np := true, partitions := index.partitions.mapValues (promotePartition dim) }
      else index

/-- An id that another agent owns leaves that agent's partition. -/
def leaveOwner (index : VectorIndex ρ) (fragmentId : String) (agentId : Option String) :
    VectorIndex ρ :=
  let previousOwner := (index.owner.get? fragmentId).getD agentId
  if fragmentId ∈ index.owner.keys ∧ previousOwner ≠ agentId then
    index.partitionRemove previousOwner fragmentId
  else index

/-- The part of `add` that writes. -/
def write (index : VectorIndex ρ) (fragmentId : String) (vector : List ρ) (content : String)
    (agentId : Option String) : VectorIndex ρ :=
  let index := index.leaveOwner fragmentId agentId
  let partition := (index.partitions.get? agentId).getD index.newPartition
  let index :=
    { index with
      partitions := index.partitions.set agentId (partition.add fragmentId vector)
      owner := index.owner.set fragmentId agentId }
  { index.setContent fragmentId content with revision := index.revision + 1 }

/-- The write, then the promotion once the index holds enough vectors. -/
def put (env : IndexEnv ρ) (index : VectorIndex ρ) (fragmentId : String) (vector : List ρ)
    (content : String) (agentId : Option String) : VectorIndex ρ :=
  let index := index.write fragmentId vector content agentId
  if index.auto ∧ index.owner.size ≥ env.autoNumpyThreshold then index.promote env else index

def add (env : IndexEnv ρ) (index : VectorIndex ρ) (fragmentId : String) (embedding : List ρ)
    (content : String) (agentId : Option String) : VectorIndex ρ × Except IndexError Unit :=
  let vector := env.normalize embedding
  if vector = [] then (index, .error .emptyEmbedding)
  else
    match index.dim with
    | none =>
        (put env { index with dim := some vector.length } fragmentId vector content agentId, .ok ())
    | some dim =>
        if vector.length ≠ dim then
          (index, .error (.dimensionMismatch fragmentId vector.length dim))
        else (index.put env fragmentId vector content agentId, .ok ())

/-- The loop of the per-id path. -/
def addEach (env : IndexEnv ρ) (agentId : Option String) :
    List (String × List ρ) → VectorIndex ρ → VectorIndex ρ × Except IndexError Unit
  | [], index => (index, .ok ())
  | (fragmentId, vector) :: items, index =>
      match index.add env fragmentId vector "" agentId with
      | (index, .error e) => (index, .error e)
      | (index, .ok ()) => addEach env agentId items index

/-- The width of a batch is that of its first vector. -/
def width (embeddings : List (List ρ)) : Nat := (embeddings.headD []).length

/-- What the automatic backend does before a batch that reaches the threshold. -/
def promoteFor (env : IndexEnv ρ) (index : VectorIndex ρ) (ids : List String)
    (embeddings : List (List ρ)) : VectorIndex ρ :=
  if index.auto ∧ index.owner.size + ids.length ≥ env.autoNumpyThreshold then
    promote env
      { index with dim := some (index.dim.getD (width embeddings)) }
  else index

/-- The ids are new and distinct, and numpy is active. -/
def fresh (index : VectorIndex ρ) (ids : List String) : Bool :=
  index.np && decide (∀ fragmentId ∈ ids, fragmentId ∉ index.owner.keys) && decide ids.Nodup

/-- Whether numpy makes one array of the vectors. -/
def homogeneous (embeddings : List (List ρ)) : Bool :=
  embeddings.all fun v => v.length = width embeddings

/-- The write of the block path. -/
def putBlock (index : VectorIndex ρ) (ids : List String) (rows : List (List ρ))
    (agentId : Option String) (expected : Nat) : VectorIndex ρ :=
  let partition :=
    match (index.partitions.get? agentId).getD index.newPartition with
    | .numpy p => .numpy (p.addMatrix ids rows expected)
    | .python vectors => .python vectors
  { index with
    partitions := index.partitions.set agentId partition
    owner := index.owner.updateAll (ids.map fun fragmentId => (fragmentId, agentId))
    revision := index.revision + 1 }

/-- The block path; the matrix takes unit-length rows as they are. -/
def addBlock (env : IndexEnv ρ) (index : VectorIndex ρ) (ids : List String)
    (embeddings : List (List ρ)) (agentId : Option String) (expected : Nat) (normalised : Bool) :
    VectorIndex ρ × Except IndexError Unit :=
  if ¬ homogeneous embeddings then (index, .error .inhomogeneous)
  else
    let dim := index.dim.getD (width embeddings)
    let index := { index with dim := some dim }
    if width embeddings = 0 then (index, .error .emptyEmbedding)
    else if width embeddings ≠ dim then (index, .error (.blockDimension (width embeddings) dim))
    else
      (index.putBlock ids (if normalised then embeddings else embeddings.map env.normalize) agentId
        expected, .ok ())

def addMany (env : IndexEnv ρ) (index : VectorIndex ρ) (ids : List String)
    (embeddings : List (List ρ)) (agentId : Option String) (expected : Nat) (normalised : Bool) :
    VectorIndex ρ × Except IndexError Unit :=
  if ids = [] then (index, .ok ())
  else if embeddings.length ≠ ids.length then (index, .error .lengthsDiffer)
  else
    let index := index.promoteFor env ids embeddings
    if index.fresh ids then index.addBlock env ids embeddings agentId expected normalised
    else addEach env agentId (ids.zip embeddings) index

def remove (index : VectorIndex ρ) (fragmentId : String) : VectorIndex ρ :=
  match index.owner.get? fragmentId with
  | none => index
  | some owner =>
      let index :=
        { index with
          owner := index.owner.pop fragmentId
          content := index.content.pop fragmentId }
      let index := index.partitionRemove owner fragmentId
      { index with
        revision := index.revision + 1
        dim := if index.owner.size = 0 then none else index.dim }

/-- `clear()`. -/
def clearAll (index : VectorIndex ρ) : VectorIndex ρ :=
  { index with
    partitions := .empty
    owner := .empty
    content := .empty
    dim := none
    revision := index.revision + 1 }

def clear (index : VectorIndex ρ) (agentId : String) : VectorIndex ρ :=
  match index.partitions.get? (some agentId) with
  | none => { index with revision := index.revision + 1 }
  | some partition =>
      let owner := partition.ids.foldl Dict.pop index.owner
      { index with
        partitions := index.partitions.pop (some agentId)
        owner := owner
        content := partition.ids.foldl Dict.pop index.content
        dim := if owner.size = 0 then none else index.dim
        revision := index.revision + 1 }

def get (index : VectorIndex ρ) (fragmentId : String) : Option (List ρ) := do
  let owner ← index.owner.get? fragmentId
  let partition ← index.partitions.get? owner
  partition.get fragmentId

def ids (index : VectorIndex ρ) : Option String → List String
  | none => index.owner.keys
  | some agentId => ((index.partitions.get? (some agentId)).map Partition.ids).getD []

def count (index : VectorIndex ρ) : Option String → Nat
  | none => index.owner.size
  | some agentId => ((index.partitions.get? (some agentId)).map Partition.size).getD 0

/-- `missing`: the ids that the agent's partition does not hold. -/
def missing (index : VectorIndex ρ) (fragmentIds : Finset String) (agentId : Option String) :
    Finset String :=
  fragmentIds \ (((index.partitions.get? agentId).map Partition.ids).getD []).toFinset

/-- Every partition as a dictionary, whatever its backend. -/
def held (index : VectorIndex ρ) : Dict (Option String) (Dict String (List ρ)) :=
  index.partitions.mapValues Partition.toDict

/-! Promotion moves the vectors and changes none. -/

theorem toDict_promotePartition (dim : Nat) (q : Partition ρ) :
    (promotePartition dim q).toDict = q.toDict := by
  cases q with
  | numpy p => rfl
  | python vectors =>
      show Partition.toDict (.numpy (if vectors.size = 0 then .empty dim else _)) = vectors
      split
      · rename_i hsize
        exact Table.ext (List.eq_nil_of_length_eq_zero hsize).symm
      · have hlength : (vectors.rows.map Prod.snd).length = vectors.keys.length := by
          rw [Dict.keys, List.length_map, List.length_map]
        have hholds := NumpyPartition.holds_addMatrix (NumpyPartition.holds_empty dim) hlength
          (fun _ _ => List.not_mem_nil) vectors.nodup_keys 0
        rw [Dict.updateAll_zip_rows] at hholds
        exact Table.ext hholds.items

section

variable (env : IndexEnv ρ) (index : VectorIndex ρ)

@[simp] theorem held_promote : (index.promote env).held = index.held := by
  rw [promote]
  split
  · rfl
  · split
    · show (index.partitions.mapValues _).mapValues _ = _
      rw [Dict.mapValues_mapValues]
      simp only [toDict_promotePartition]
      rfl
    · rfl

@[simp] theorem owner_promote : (index.promote env).owner = index.owner := by
  rw [promote]
  split
  · rfl
  · split <;> rfl

@[simp] theorem content_promote : (index.promote env).content = index.content := by
  rw [promote]
  split
  · rfl
  · split <;> rfl

@[simp] theorem dim_promote : (index.promote env).dim = index.dim := by
  rw [promote]
  split
  · rfl
  · split <;> rfl

end

end VectorIndex

end MarkSdk
