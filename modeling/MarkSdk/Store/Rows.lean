import Mathlib.Data.Rat.Defs
import MarkSdk.Lib.Table
import MarkSdk.Lib.Transaction
import MarkSdk.Store.Values

/-!
The tables of the store.

A row holds what its columns decode to: values are the encoded text that
encryption gives back, JSON columns are the parsed object, and times are
instants, as microseconds since the epoch in UTC. The store writes every time
as a UTC ISO text and compares the texts; their order is the order of the
instants. The order of the rows in a table is the order of their rowids.
Floats are exact rationals.
-/

namespace MarkSdk

open Lib

/-- A Python `datetime`: its wall clock, and its UTC offset unless it is
naive. -/
structure Datetime where
  wall : Int
  offset : Option Int
  deriving DecidableEq, Repr

/-- `_utc_text`: a naive time is read as UTC. -/
def utcText (moment : Datetime) : Int := moment.wall - moment.offset.getD 0

/-- A time that is already in UTC. -/
def Datetime.ofInstant (t : Int) : Datetime := ⟨t, some 0⟩

@[simp] theorem utcText_ofInstant (t : Int) : utcText (.ofInstant t) = t := by
  simp [utcText, Datetime.ofInstant]

/-- A JSON object. -/
abbrev Metadata := List (String × PyValue)

/-- `metadata[key] = value`: an entry keeps its place. -/
def Metadata.assign (metadata : Metadata) (key : String) (value : PyValue) : Metadata :=
  if metadata.any fun entry => entry.1 = key then
    metadata.map fun entry => if entry.1 = key then (key, value) else entry
  else metadata ++ [(key, value)]

theorem lookup_assign_self (metadata : Metadata) (key : String) (value : PyValue) :
    (metadata.assign key value).lookup key = some value := by
  unfold Metadata.assign
  split
  · rename_i hin
    induction metadata with
    | nil => cases hin
    | cons entry metadata ih =>
        rw [List.map_cons]
        by_cases hk : entry.1 = key
        · rw [if_pos hk, List.lookup_cons_self]
        · have hbeq : (key == entry.1) = false := by simpa using Ne.symm hk
          rw [if_neg hk, List.lookup_cons, hbeq]
          exact ih (by simpa [hk] using hin)
  · rename_i hout
    have hnone : metadata.lookup key = none := by
      rw [List.lookup_eq_none_iff]
      intro entry hentry
      have hne : entry.1 ≠ key := fun hk => hout (List.any_eq_true.mpr ⟨entry, hentry, by simpa using hk⟩)
      simpa using hne.symm
    rw [List.lookup_append, hnone, Option.none_or, List.lookup_cons_self]

theorem lookup_assign_ne {metadata : Metadata} {key key' : String} (value : PyValue)
    (hne : key' ≠ key) : (metadata.assign key value).lookup key' = metadata.lookup key' := by
  have hbeq : (key' == key) = false := by simpa using hne
  unfold Metadata.assign
  split
  · clear * - hbeq
    induction metadata with
    | nil => rfl
    | cons entry metadata ih =>
        obtain ⟨k, v⟩ := entry
        rw [List.map_cons]
        by_cases hk : k = key
        · subst hk
          rw [if_pos rfl, List.lookup_cons, List.lookup_cons, hbeq]
          exact ih
        · rw [if_neg hk, List.lookup_cons, List.lookup_cons]
          cases key' == k with
          | true => rfl
          | false => exact ih
  · rw [List.lookup_append, List.lookup_cons, hbeq, List.lookup_nil, Option.or_none]

/-! ### Facts -/

/-- A row of `facts`. -/
structure FactRow where
  id : String
  agentId : String
  subject : String
  subjectKey : String
  attributeName : String
  attributeKey : String
  value : String
  validFrom : Int
  validTo : Option Int
  recordedAt : Int
  retractedAt : Option Int
  sourceFragmentId : Option String
  metadata : Metadata

/-- `MULTI_KEY`: the metadata flag of the rows written by `fact_add`. -/
def multiKey : String := "multi_valued"

def FactRow.isMulti (r : FactRow) : Bool :=
  match r.metadata.lookup multiKey with
  | some flag => flag.truthy
  | none => false

/-- `retracted_at IS NULL` -/
def FactRow.live (r : FactRow) : Bool := r.retractedAt.isNone

/-! ### Fragments -/

inductive MemoryState : Type
  | raw | unverified | verified | promoted | contradicted | quarantined
  deriving DecidableEq, Repr

/-- `_RETRIEVABLE_STATES` -/
def MemoryState.retrievable : MemoryState → Bool
  | .unverified | .verified | .promoted => true
  | .raw | .contradicted | .quarantined => false

inductive MemoryScope : Type
  | session | agent | user | global
  deriving DecidableEq, Repr

inductive MemoryTier : Type
  | working | episodic | semantic | procedural | global
  deriving DecidableEq, Repr

/-- A row of `fragments`, and the `MemoryFragment` it is written from. -/
structure Fragment where
  id : String
  content : String
  blockId : Option String
  scope : MemoryScope
  tier : MemoryTier
  agentId : String
  sessionId : Option String
  importance : ℚ
  state : MemoryState
  confidence : ℚ
  ttlSeconds : Option Int
  createdAt : Int
  updatedAt : Int
  lastAccessedAt : Option Int
  tags : List String
  source : Option String
  metadata : Metadata
  embedding : Option (List ℚ)
  contradictionIds : List String

/-! ### Extraction jobs and the ledger -/

inductive JobStatus : Type
  | pending | running | done | failed
  deriving DecidableEq, Repr

/-- The primary key of `fact_jobs` and `fact_job_owners`. -/
structure JobKey where
  fragmentId : String
  extractor : String
  deriving DecidableEq, Repr

/-- A row of `fact_jobs`. -/
structure FactJob where
  fragmentId : String
  extractor : String
  agentId : String
  occurrence : Nat
  status : JobStatus
  attempts : Nat
  error : Option String
  createdAt : Int
  updatedAt : Int
  deriving DecidableEq, Repr

def FactJob.key (j : FactJob) : JobKey := ⟨j.fragmentId, j.extractor⟩

/-- A row of `fact_job_owners`. -/
structure JobOwner where
  fragmentId : String
  extractor : String
  owner : String
  deriving DecidableEq, Repr

def JobOwner.key (o : JobOwner) : JobKey := ⟨o.fragmentId, o.extractor⟩

/-- A row of `fact_extractions`. -/
structure Extraction where
  agentId : String
  key : String
  fragmentId : Option String
  factId : Option String
  createdAt : Int
  deriving DecidableEq, Repr

/-- The primary key of `fact_extractions`. -/
def Extraction.ledgerKey (e : Extraction) : String × String := (e.agentId, e.key)

/-! ### The database -/

/-- The tables that the modelled writes and reads use. A store without the
side table `fact_job_owners` behaves as one in which it is empty. -/
structure Db where
  fragments : Table Fragment.id
  facts : Table FactRow.id
  factJobs : Table FactJob.key
  factJobOwners : Table JobOwner.key
  factExtractions : Table Extraction.ledgerKey

def Db.empty : Db := ⟨.empty, .empty, .empty, .empty, .empty⟩

/-- A `with self._writing()` block. -/
abbrev Writing (α : Type) := Txn Db StoreError α

end MarkSdk
