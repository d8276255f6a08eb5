import MarkSdk.Memory.Writing
import MarkSdk.Store.Lifecycle

/-!
Revising memories: supersede, resolve, forget and promote of the facade.

A revision stores a new memory and then retires the old one, each with a
write of its own. The old memory stays, with the tag `mark:superseded` and a
link to the new one; the new one lists every earlier id in its history. An id
that was already superseded is followed along the links to the newest
version.
-/

namespace MarkSdk

open Lib

/-! ### Looking up -/

def LocalStore.idsWithPrefix (s : LocalStore) (agentId start : String) (limit : Nat) :
    List String :=
  ((s.db.fragments.rows.filter fun f => f.agentId = agentId && startsWith f.id start).map
    Fragment.id).take limit

def isShortId (memoryId : String) : Bool :=
  4 ≤ (strip memoryId).length && (strip memoryId).length < 36

/-- `get` of the facade: by the id, or by an unambiguous start of it. -/
def facadeGet (agentId memoryId : String) : MemoryClient (Option Fragment) := do
  let found ← Client.read fun s => s.get memoryId
  if found.isNone && isShortId memoryId then
    let ids ← Client.read fun s => s.idsWithPrefix agentId (strip memoryId) 2
    match ids with
    | [id] => do
        let fragment ← Client.read fun s => s.get id
        return fragment.filter fun f => f.agentId = agentId
    | _ => return none
  else return found.filter fun f => f.agentId = agentId

/-- `_require` -/
def requireMemory (agentId memoryId : String) : MemoryClient Fragment := do
  match ← facadeGet agentId memoryId with
  | some fragment => return fragment
  | none => Client.raise (.notFound memoryId)

/-- `str(nxt)` of the link to the next version, if there is one. -/
def Fragment.supersededBy (py : Python) (f : Fragment) : Option String :=
  (f.metadata.lookup "superseded_by").bind fun value =>
    if value.truthy then some (pyStr py value) else none

/-- The loop of `_newest`, with the ids it has seen. -/
def newestFrom (py : Python) (agentId : String) : Nat → List String → Fragment → MemoryClient Fragment
  | 0, _, _ => Client.raise .outOfFuel
  | fuel + 1, seen, fragment =>
      match fragment.supersededBy py with
      | none => pure fragment
      | some next =>
          if seen.contains next then pure fragment
          else do
            match ← facadeGet agentId next with
            | none => return fragment
            | some newer => newestFrom py agentId fuel (newer.id :: seen) newer

/-- `_newest`, which `_current` only adds a warning to. -/
def newest (py : Python) (agentId : String) (fuel : Nat) (fragment : Fragment) :
    MemoryClient Fragment :=
  newestFrom py agentId fuel [fragment.id] fragment

/-! ### Retiring -/

def Metadata.update (metadata entries : Metadata) : Metadata :=
  entries.foldl (fun metadata entry => metadata.assign entry.1 entry.2) metadata

/-- `metadata.setdefault(key, value)` -/
def Metadata.setDefault (metadata : Metadata) (key : String) (value : PyValue) : Metadata :=
  if (metadata.lookup key).isSome then metadata else metadata.assign key value

/-- The fragment that `_retire` stores. -/
def Fragment.retired (w : WritePath) (now : Int) (lifecycle : String) (tags : List String)
    (entries : Metadata) (f : Fragment) : Fragment :=
  let metadata := Metadata.update (Metadata.assign f.metadata "lifecycle" (.str lifecycle)) entries
  { f with
    metadata :=
      if lifecycle = "superseded" then
        metadata.setDefault "superseded_at" (.str (w.isoformat now))
      else metadata
    tags := (f.tags ++ tags).eraseDups
    updatedAt := now }

/-- `_retire` with `superseded_by` -/
def Fragment.supersededWith (w : WritePath) (now : Int) (newId : String) (f : Fragment) : Fragment :=
  f.retired w now "superseded" [tagSuperseded] [("superseded_by", .str newId)]

/-- `_retire` of `resolve` -/
def Fragment.resolvedWith (w : WritePath) (now : Int) (note : Option String) (f : Fragment) :
    Fragment :=
  f.retired w now "resolved" [tagResolved, tagSuperseded]
    (("resolved_at", .str (w.isoformat now)) ::
      match note with
      | some text => if text = "" then [] else [("resolution", .str text)]
      | none => [])

/-! ### Supersede -/

def lifecycleKeys : List String :=
  ["lifecycle", "superseded_by", "superseded_at", "resolved_at", "resolution", "supersedes",
    "history", "content_hash"]

def asList (py : Python) : Option PyValue → List String
  | some (.list items) => items.map (pyStr py)
  | some (.tuple items) => items.map (pyStr py)
  | _ => []

def Fragment.history (py : Python) (f : Fragment) : List String :=
  asList py (f.metadata.lookup "history")

/-- The options of `supersede`: where one is not given, the new memory takes
that of the old one. -/
structure ReviseOptions where
  kind : Option (Option String) := none
  tags : List String := []
  importance : Option ℚ := none
  confidence : ℚ := 1
  sessionId : Option (Option String) := none
  occurredAt : Option String := none
  source : Option (Option String) := none
  metadata : Metadata := []
  scope : MemoryScope := .agent
  state : MemoryState := .unverified
  ttlSeconds : Option Int := none

/-- The metadata of the new version. -/
def revisedMetadata (py : Python) (old : Fragment) (given : Metadata) : Metadata :=
  Metadata.update
    (Metadata.update
      (old.metadata.filter fun entry =>
        !lifecycleKeys.contains entry.1 && entry.1 ≠ "occurred_at" && entry.1 ≠ accessCount)
      given)
    [("supersedes", .str old.id),
      ("history", .list ((old.history py ++ [old.id]).map PyValue.str))]

/-- What `supersede` passes to `remember`. -/
def revisedOptions (py : Python) (old : Fragment) (o : ReviseOptions) : RememberOptions where
  kind := o.kind.getD (kindOfTags old.tags)
  tags := ((old.tags.filter fun tag =>
    !startsWith tag kindTagPrefix && !startsWith tag "mark:") ++ o.tags).eraseDups
  importance := o.importance.getD old.importance
  confidence := o.confidence
  sessionId := o.sessionId.getD old.sessionId
  occurredAt := o.occurredAt
  source := o.source.getD old.source
  metadata := revisedMetadata py old o.metadata
  scope := o.scope
  state := o.state
  ttlSeconds := o.ttlSeconds

/-- `supersede`; `update` is the same. -/
def supersede (py : Python) (w : WritePath) (agentId newId : String) (now : Int) (fuel : Nat)
    (memoryId text : String) (o : ReviseOptions) : MemoryClient String := do
  let required ← requireMemory agentId memoryId
  let old ← newest py agentId fuel required
  let newId ← remember py w agentId newId now text (revisedOptions py old o)
  rewriteFragment py (old.supersededWith w now newId)
  return newId

/-! ### Resolve -/

def resolvableKinds : List String := ["todo", "bug"]

def Fragment.kindOf (w : WritePath) (f : Fragment) : Option String :=
  match kindOfTags f.tags with
  | some kind => some kind
  | none => w.kindFromText f.content

/-- What `resolve` says about a memory that it does not close. -/
def notResolvable (id : String) (kind : Option String) : String :=
  let what :=
    match kind with
    | some kind =>
        if kind = "" then "a note without a kind"
        else if kind.toList.head?.any fun c => ['a', 'e', 'i', 'o', 'u'].contains c then
          "an " ++ kind
        else "a " ++ kind
    | none => "a note without a kind"
  "memory " ++ String.ofList (id.toList.take 8) ++ " is " ++ what ++
    "; resolve() closes TODOs and bugs only. Use supersede() to replace it with the current text, " ++
    "or forget() to delete it"

def resolve (py : Python) (w : WritePath) (agentId : String) (now : Int) (fuel : Nat)
    (memoryId : String) (note : Option String) : MemoryClient String := do
  let required ← requireMemory agentId memoryId
  if required.tags.contains tagResolved then return required.id
  else
    let fragment ← newest py agentId fuel required
    if fragment.tags.contains tagResolved then return fragment.id
    else if (fragment.kindOf w).any fun kind => resolvableKinds.contains kind then
      rewriteFragment py (fragment.resolvedWith w now note)
      return fragment.id
    else Client.raise (.invalidInput (notResolvable fragment.id (fragment.kindOf w)))

/-! ### Forget -/

theorem Fragment.erased_id (r : Fragment) : r.erased.id = r.id := rfl

/-- `forget_fragment` once it has read the row. -/
def forgetRow (now : Int) (row : Fragment) (secure : Bool) : Writing Bool := do
  if secure then updateFragment Fragment.erased Fragment.erased_id row.id else pure ()
  deleteFragment row.id
  cascadeFacts row.agentId row.id secure now
  return true

theorem forgetFragment_eq (now : Int) (fragmentId : String) (secure : Bool) (db : Db) :
    (forgetFragment now fragmentId secure).exec db =
      match db.fragments.find? fragmentId with
      | none => .ok (false, db)
      | some row => (forgetRow now row secure).exec db := by
  rw [forgetFragment, Txn.exec_query_bind]
  cases h : db.fragments.find? fragmentId with
  | none => rfl
  | some row =>
      obtain ⟨-, rfl⟩ := Table.find?_eq_some_iff.mp h
      rfl

/-- `store.forget_fragment(fragment_id)`: the row is read first. -/
def callForget (now : Int) (fragmentId : String) (secure : Bool) : MemoryClient Bool := do
  match ← Client.read fun s => s.get fragmentId with
  | none => return false
  | some row => callStore (.forget fragmentId row.agentId) (forgetRow now row secure)

/-- `forget` of one memory: how many were forgotten. -/
def forget (agentId : String) (now : Int) (memoryId : String) (secure : Bool) : MemoryClient Nat := do
  match ← facadeGet agentId memoryId with
  | none => return 0
  | some one => do return (← callForget now one.id secure).toNat

/-! ### Promote -/

def MemoryState.transitions : MemoryState → List MemoryState
  | .raw => [.unverified, .contradicted]
  | .unverified => [.verified, .contradicted]
  | .verified => [.promoted, .contradicted, .quarantined]
  | .promoted => [.contradicted, .quarantined]
  | .contradicted => [.unverified]
  | .quarantined => [.unverified]

/-- `transition_to`, from a state that allows it. -/
def Fragment.transitionTo (now : Int) (f : Fragment) (newState : MemoryState) : Fragment :=
  if newState ∈ f.state.transitions then { f with state := newState, updatedAt := now } else f

/-- The fragment that `promote` stores. -/
def Fragment.promotedOnce (now : Int) (f : Fragment) : Fragment :=
  let verified := if f.state = .unverified then f.transitionTo now .verified else f
  if verified.state = .verified then verified.transitionTo now .promoted else verified

def promote (py : Python) (now : Int) (fragmentId : String) : MemoryClient Unit := do
  match ← Client.read fun s => s.get fragmentId with
  | none => Client.raise (.keyError fragmentId)
  | some fragment => rewriteFragment py (fragment.promotedOnce now)

/-! ### Calls -/

/-- A call of the facade, with the id drawn for a new memory. -/
inductive MemoryCall : Type
  | remember (newId text : String) (o : RememberOptions)
  /-- `supersede` or `update` -/
  | supersede (newId memoryId text : String) (o : ReviseOptions)
  | resolve (memoryId : String) (note : Option String)
  | forget (memoryId : String) (secure : Bool)
  | promote (memoryId : String)

/-- A call of an agent at an instant, with nothing in between. The links can
be followed for as long as there are rows. -/
def MemoryCall.step (py : Python) (w : WritePath) :
    String × Int × MemoryCall → LocalStore → LocalStore
  | (agentId, now, .remember newId text o), s =>
      (MarkSdk.remember py w agentId newId now text o).after s
  | (agentId, now, .supersede newId memoryId text o), s =>
      (MarkSdk.supersede py w agentId newId now (s.db.fragments.rows.length + 1) memoryId text
        o).after s
  | (agentId, now, .resolve memoryId note), s =>
      (MarkSdk.resolve py w agentId now (s.db.fragments.rows.length + 1) memoryId note).after s
  | (agentId, now, .forget memoryId secure), s =>
      (MarkSdk.forget agentId now memoryId secure).after s
  | (_, now, .promote memoryId), s => (MarkSdk.promote py now memoryId).after s

end MarkSdk
