import MarkSdk.Lib.Watermark
import MarkSdk.Memory.Writing
import MarkSdk.Store.Graph

/-!
The delta that is packed for the cloud.

`prepare_delta` goes over the listed fragments, passes over what the
high-water mark covers, and packs the others redacted. What governance has
rejected and what is in none of the selected blocks is skipped, but it moves
the mark all the same. The patterns of the redaction come in through
`Redaction`.
-/

namespace MarkSdk

open Lib

/-! ### Redaction -/

/-- The parts of the redaction that match patterns. -/
structure Redaction where
  /-- `redact_secrets` -/
  secrets : String → String
  /-- `is_sensitive_key` -/
  sensitiveKey : String → Bool

mutual

def redactWhole : PyValue → PyValue
  | .none => .none
  | .bool b => .bool b
  | .list items => .list (redactWholeItems items)
  | .tuple items => .list (redactWholeItems items)
  | .dict items => .dict (redactWholeEntries items)
  | _ => .str "[REDACTED]"

def redactWholeItems : List PyValue → List PyValue
  | [] => []
  | item :: items => redactWhole item :: redactWholeItems items

def redactWholeEntries : List (String × PyValue) → List (String × PyValue)
  | [] => []
  | (key, item) :: items => (key, redactWhole item) :: redactWholeEntries items

end

mutual

/-- `redact_sync_value` -/
def Redaction.syncValue (r : Redaction) : PyValue → PyValue
  | .str s => .str (r.secrets s)
  | .dict items => .dict (r.syncEntries items [])
  | .tuple items => .tuple (r.syncItems items)
  | .list items => .list (r.syncItems items)
  | value => value

def Redaction.syncItems (r : Redaction) : List PyValue → List PyValue
  | [] => []
  | item :: items => r.syncValue item :: r.syncItems items

/-- The entries of a dictionary, with those that are already redacted. -/
def Redaction.syncEntries (r : Redaction) :
    List (String × PyValue) → Metadata → List (String × PyValue)
  | [], out => out
  | (key, .none) :: items, out => r.syncEntries items (out.assign (r.secrets key) .none)
  | (key, .bool b) :: items, out => r.syncEntries items (out.assign (r.secrets key) (.bool b))
  | (key, item) :: items, out =>
      r.syncEntries items (out.assign (r.secrets key)
        (if r.sensitiveKey key then redactWhole item else r.syncValue item))

end

/-! ### The delta -/

structure SyncOptions where
  includeBlocks : Option (List String) := none
  redactSecrets : Bool := true

/-- A packed fragment. -/
structure SyncFragment where
  id : String
  agentId : String
  sessionId : Option String
  scope : MemoryScope
  tier : MemoryTier
  state : MemoryState
  importance : ℚ
  confidence : ℚ
  tags : List String
  source : Option String
  metadata : Metadata
  content : String
  createdAt : Int
  updatedAt : Int

/-- A delta, with `high_water_mark` of its statistics and `high_water_ids`. -/
structure SyncDelta where
  fragments : List SyncFragment
  synced : Nat
  skipped : Nat
  highWater : Watermark String

def governanceFailed (f : Fragment) : Bool :=
  f.state = .quarantined ||
    ["mark_governance", "mark_guard"].any fun key =>
      match f.metadata.lookup key with
      | some (.dict info) =>
          match info.lookup "passed" with
          | some (.bool passed) => !passed
          | _ => false
      | _ => false

/-- The selected blocks, if there are any, include one of the fragment's. -/
def SyncOptions.selects (o : SyncOptions) (f : Fragment) : Bool :=
  let selected := o.includeBlocks.getD []
  selected.isEmpty ||
    (f.tags.filter fun tag => startsWith tag "block:").any fun tag =>
      selected.contains (String.ofList (tag.toList.drop 6))

def localOnlyMetadataKeys : List String := ["content_hash"]

def SyncOptions.content (o : SyncOptions) (r : Redaction) (f : Fragment) : String :=
  if o.redactSecrets then r.secrets f.content else f.content

def SyncOptions.pack (o : SyncOptions) (r : Redaction) (f : Fragment) : SyncFragment :=
  let metadata := f.metadata.filter fun entry => !localOnlyMetadataKeys.contains entry.1
  { id := f.id
    agentId := f.agentId
    sessionId := f.sessionId
    scope := f.scope
    tier := f.tier
    state := f.state
    importance := f.importance
    confidence := f.confidence
    tags := if o.redactSecrets then f.tags.map r.secrets else f.tags
    source := if o.redactSecrets then f.source.map fun s => if s = "" then s else r.secrets s
      else f.source
    metadata := if o.redactSecrets then r.syncEntries metadata [] else metadata
    content := o.content r f
    createdAt := f.createdAt
    updatedAt := f.updatedAt }

/-- The ids that were listed so far, and the delta. -/
structure Packing where
  seen : List String
  delta : SyncDelta

def SyncDelta.skip (d : SyncDelta) : SyncDelta := { d with skipped := d.skipped + 1 }

/-- One turn of the loop. -/
def SyncOptions.packNext (o : SyncOptions) (r : Redaction) (since : Watermark String) (p : Packing)
    (f : Fragment) : Packing :=
  if p.seen.contains f.id then p
  else if since.covers f.updatedAt f.id then { p with seen := f.id :: p.seen }
  else
    let delta := { p.delta with highWater := p.delta.highWater.see f.updatedAt f.id }
    { seen := f.id :: p.seen
      delta :=
        if governanceFailed f then delta.skip
        else if !o.selects f then delta.skip
        else if strip (o.content r f) = "" then delta.skip
        else { delta with fragments := delta.fragments ++ [o.pack r f], synced := delta.synced + 1 } }

/-- `prepare_delta` of the fragments that were listed. -/
def SyncOptions.prepareDelta (o : SyncOptions) (r : Redaction) (since : Watermark String)
    (fragments : List Fragment) : SyncDelta :=
  (fragments.foldl (o.packNext r since) ⟨[], ⟨[], 0, 0, .none⟩⟩).delta

/-- The fragment is neither rejected by governance nor filtered out. -/
def SyncOptions.wants (o : SyncOptions) (f : Fragment) : Bool :=
  !governanceFailed f && o.selects f

section Packing

variable {o : SyncOptions} {r : Redaction} {since : Watermark String} {p : Packing}
  {f : Fragment} {e : SyncFragment}

theorem seen_packNext (f : Fragment) {id : String} (h : id ∈ (o.packNext r since p f).seen) :
    id = f.id ∨ id ∈ p.seen := by
  unfold SyncOptions.packNext at h
  split at h
  · exact .inr h
  · split at h <;> exact List.mem_cons.mp h

/-- What is packed stays in the delta. -/
theorem mem_packNext (f : Fragment) (h : e ∈ p.delta.fragments) :
    e ∈ (o.packNext r since p f).delta.fragments := by
  unfold SyncOptions.packNext SyncDelta.skip
  split
  · exact h
  · split
    · exact h
    · dsimp only
      split
      · exact h
      · split
        · exact h
        · split
          · exact h
          · exact List.mem_append_left _ h

theorem mem_foldl_packNext {fs : List Fragment} (h : e ∈ p.delta.fragments) :
    e ∈ (fs.foldl (o.packNext r since) p).delta.fragments := by
  induction fs generalizing p with
  | nil => exact h
  | cons f fs ih => exact ih (mem_packNext f h)

theorem pack_mem_packNext (hseen : f.id ∉ p.seen) (hsince : since.covers f.updatedAt f.id = false)
    (hwants : o.wants f = true) (hcontent : strip (o.content r f) ≠ "") :
    o.pack r f ∈ (o.packNext r since p f).delta.fragments := by
  rw [SyncOptions.wants, Bool.and_eq_true, Bool.not_eq_true'] at hwants
  unfold SyncOptions.packNext
  rw [if_neg (by simpa using hseen), if_neg (by simp [hsince])]
  dsimp only
  rw [if_neg (by simp [hwants.1]), if_neg (by simp [hwants.2]), if_neg hcontent]
  exact List.mem_append_right _ (List.mem_singleton_self _)

/-- A listed fragment is packed, unless the mark covers it. -/
theorem pack_mem_prepareDelta {fs : List Fragment} (hf : f ∈ fs)
    (hsame : ∀ g ∈ fs, g.id = f.id → g = f) (hsince : since.covers f.updatedAt f.id = false)
    (hwants : o.wants f = true) (hcontent : strip (o.content r f) ≠ "") :
    o.pack r f ∈ (o.prepareDelta r since fs).fragments := by
  have hfold : ∀ (fs : List Fragment) (p : Packing), f ∈ fs → (∀ g ∈ fs, g.id = f.id → g = f) →
      f.id ∉ p.seen → o.pack r f ∈ (fs.foldl (o.packNext r since) p).delta.fragments := by
    intro fs
    induction fs with
    | nil => exact fun _ hf => absurd hf List.not_mem_nil
    | cons g fs ih =>
        intro p hf hsame hseen
        by_cases hid : g.id = f.id
        · obtain rfl := hsame g List.mem_cons_self hid
          show _ ∈ (fs.foldl _ (o.packNext r since p g)).delta.fragments
          exact mem_foldl_packNext (pack_mem_packNext hseen hsince hwants hcontent)
        · have hmem : f ∈ fs := by
            rcases List.mem_cons.mp hf with rfl | hf
            · exact absurd rfl hid
            · exact hf
          refine ih _ hmem (fun g' hg' => hsame g' (List.mem_cons_of_mem g hg')) fun hin => ?_
          rcases seen_packNext g hin with heq | hin
          · exact hid heq.symm
          · exact hseen hin
  exact hfold fs _ hf hsame List.not_mem_nil

end Packing

end MarkSdk
