import MarkSdk.Memory.StoreCalls

/-!
Storing a new memory: `remember` and what lies below it.

The text, the tags and the numbers are checked, the middleware and the write
policy have their say, the gate decides whether the memory is indexed, and
then the fragment is stored under a new id. What computes with texts (labels,
redaction, screening, the gate, the embedder) comes in through `WritePath`.
Fact extraction comes after the write and changes no fragment; it is left
out.
-/

namespace MarkSdk

open Lib

/-! ### Kinds and tags -/

def kinds : List String := ["decision", "todo", "bug", "fix", "preference", "snippet", "api", "note"]

def kindTagPrefix : String := "kind:"

def tagSuperseded : String := "mark:superseded"

def tagResolved : String := "mark:resolved"

/-- `text.startswith(start)` -/
def startsWith (text start : String) : Bool := start.toList.isPrefixOf text.toList

def kindTag (kind : String) : String := kindTagPrefix ++ kind

/-- `normalize_kind` of a text -/
def normalizeKind (py : Python) (kind : String) : Except MemoryError String :=
  let text := py.lower (strip kind)
  if text ∈ kinds then .ok text
  else if text.toList.getLast? = some 's' ∧ String.ofList text.toList.dropLast ∈ kinds then
    .ok (String.ofList text.toList.dropLast)
  else
    .error (.invalidInput ("unknown memory kind " ++ py.repr kind ++ "; expected one of: " ++
      commaJoin kinds))

/-- `kind_of` a list of tags -/
def kindOfTags (tags : List String) : Option String :=
  (tags.find? fun tag => startsWith tag kindTagPrefix).map fun tag =>
    String.ofList (tag.toList.drop kindTagPrefix.length)

def MemoryState.value : MemoryState → String
  | .raw => "raw"
  | .unverified => "unverified"
  | .verified => "verified"
  | .promoted => "promoted"
  | .contradicted => "contradicted"
  | .quarantined => "quarantined"

/-! ### The write path -/

/-- What is asked to be stored: the payload that middleware sees. -/
structure MemoryDraft where
  content : String
  importance : ℚ
  scope : MemoryScope
  tags : List String
  source : Option String
  state : MemoryState
  confidence : ℚ
  sessionId : Option String
  ttlSeconds : Option Int
  metadata : Metadata

structure WriteDecision where
  content : String
  metadata : Metadata
  tags : List String
  quarantine : Bool
  reason : String

/-- What the consolidation gate says about a new memory. -/
structure GuardResult where
  passed : Bool
  content : String
  reason : String
  truncated : Bool
  originalLength : Int

/-- The parts of the write path that compute with texts. -/
structure WritePath where
  /-- `kind_from_text` -/
  kindFromText : String → Option String
  maxMemoryBytes : Option Nat
  /-- `store` middleware, which may change the payload or refuse it -/
  middleware : MemoryDraft → Except MemoryError MemoryDraft
  /-- `WritePolicy.apply` -/
  policy : String → Metadata → List String → Except MemoryError WriteDecision
  gate : Option (String → ℚ → GuardResult)
  /-- The embedding of a text, unless the embedder is down. -/
  embed : String → Option (List ℚ)
  /-- `datetime.isoformat` -/
  isoformat : Int → String
  /-- A float as metadata holds it. -/
  float : ℚ → PyValue

/-- A write path that leaves every memory as it is, and has no embedder. -/
def WritePath.plain : WritePath where
  kindFromText _ := none
  maxMemoryBytes := none
  middleware := .ok
  policy content metadata tags := .ok ⟨content, metadata, tags, false, ""⟩
  gate := none
  embed _ := none
  isoformat := toString
  float _ := .int 0

/-- `{n:,}` -/
def groupedDigits (n : Nat) : String :=
  String.ofList (([','] : List Char).intercalate
    (((toString n).toList.reverse.toChunks 3).reverse.map List.reverse))

/-- `check_content` of a text -/
def checkContent (maxBytes : Option Nat) (content : String) : Except MemoryError String :=
  if strip content = "" then
    .error (.store (.invalidMemory "memory content must not be empty or blank" "empty"))
  else
    match maxBytes with
    | none => .ok content
    | some most =>
        if content.utf8ByteSize ≤ most then .ok content
        else
          .error (.store (.invalidMemory
            ("memory is " ++ groupedDigits content.utf8ByteSize ++ " bytes, over the " ++
              groupedDigits most ++ "-byte limit for one memory; split it or use " ++
              "store_document(...) for long text (or raise max_memory_bytes if you really " ++
              "need one huge memory)")
            "too_large"))

/-- `check_metadata` of a memory; its message ends with that of the encoder. -/
def checkMemoryMetadata (py : Python) (metadata : Metadata) : Except MemoryError Metadata :=
  if (py.dumps (.dict metadata)).isSome then .ok metadata
  else
    .error (.store (.invalidMemory
      ("metadata must be JSON-serialisable (str, int, float, bool, None, list, dict): ")
      "metadata"))

def checkNumber (py : Python) (w : WritePath) (name : String) (value : ℚ) :
    Except MemoryError Unit :=
  if 0 ≤ value ∧ value ≤ 1 then .ok ()
  else
    .error (.store (.invalidMemory
      (name ++ " must be a number between 0 and 1, got " ++ pyStr py (w.float value)) name))

def withLabelKind (w : WritePath) (content : String) (tags : List String) : List String :=
  if tags.any fun tag => startsWith tag kindTagPrefix then tags
  else
    match w.kindFromText content with
    | some kind => tags ++ [kindTag kind]
    | none => tags

/-- `_fragment`: a new memory of the agent. -/
def newFragment (agentId id : String) (now : Int) (d : MemoryDraft) :
    Except MemoryError Fragment :=
  if strip d.content = "" then
    .error (.store (.invalidMemory "invalid memory: Value error, content must not be blank"
      "invalid_option"))
  else
    .ok {
      id := id
      content := strip d.content
      blockId := none
      scope := d.scope
      tier := .episodic
      agentId := agentId
      sessionId := d.sessionId
      importance := d.importance
      state := d.state
      confidence := d.confidence
      ttlSeconds := d.ttlSeconds
      createdAt := now
      updatedAt := now
      lastAccessedAt := none
      tags := d.tags
      source := d.source
      metadata := d.metadata
      embedding := none
      contradictionIds := [] }

/-- A draft that is only kept for audit. -/
def MemoryDraft.quarantined (d : MemoryDraft) (tags : List String) (metadata : Metadata) :
    MemoryDraft :=
  { d with
    importance := 0
    confidence := 0
    tags := d.tags ++ tags
    state := .quarantined
    metadata := metadata }

/-- `_guarded_fragment`: the draft to store, and whether it may be indexed. -/
def guardedDraft (w : WritePath) (d : MemoryDraft) : Except MemoryError (MemoryDraft × Bool) := do
  let decision ← w.policy d.content d.metadata d.tags
  let kept := { d with
    content := decision.content, metadata := decision.metadata, tags := decision.tags }
  if decision.quarantine && d.state ≠ .quarantined then
    return (kept.quarantined ["mark:quarantined"] (kept.metadata.assign "mark_guard"
      (.dict [("passed", .bool false), ("reason", .str decision.reason),
        ("original_importance", w.float d.importance),
        ("requested_state", .str d.state.value)])), false)
  else
    match w.gate with
    | none => return (kept, d.state ≠ .quarantined)
    | some check =>
        if d.state = .quarantined then
          return (kept.quarantined ["mark:quarantined"] kept.metadata, false)
        else
          let result := check kept.content d.confidence
          let passed := { kept with content := result.content }
          if result.passed then
            if result.truncated then
              let metadata := passed.metadata.assign "mark_guard"
                (.dict [("passed", .bool true), ("truncated", .bool true),
                  ("original_length", .int result.originalLength)])
              return ({ passed with metadata := metadata }, true)
            else return (passed, true)
          else
            return (passed.quarantined ["mark:quarantined", "mark:failure"]
              (passed.metadata.assign "mark_guard"
                (.dict [("passed", .bool false), ("reason", .str result.reason),
                  ("original_importance", w.float d.importance),
                  ("requested_state", .str d.state.value),
                  ("truncated", .bool result.truncated)])), false)

/-- The options of `remember`. -/
structure RememberOptions where
  kind : Option String := none
  tags : List String := []
  importance : ℚ := 1 / 2
  confidence : ℚ := 1
  sessionId : Option String := none
  /-- the time of the event, as `_with_occurred_at` writes it -/
  occurredAt : Option String := none
  source : Option String := none
  metadata : Metadata := []
  scope : MemoryScope := .agent
  state : MemoryState := .unverified
  ttlSeconds : Option Int := none

def rememberTags (py : Python) (w : WritePath) (text : String) (o : RememberOptions) :
    Except MemoryError (List String) := do
  let tags := o.tags.eraseDups
  let kind ←
    match o.kind with
    | some kind => (normalizeKind py kind).map some
    | none =>
        if tags.any fun tag => startsWith tag kindTagPrefix then .ok none
        else .ok (w.kindFromText text)
  match kind with
  | some kind => return if kindTag kind ∈ tags then tags else tags ++ [kindTag kind]
  | none => return tags

/-- Everything in `remember` up to the store: the fragment to be stored. -/
def prepareMemory (py : Python) (w : WritePath) (agentId id : String) (now : Int) (text : String)
    (o : RememberOptions) : Except MemoryError Fragment := do
  if strip text = "" then
    .error (.invalidInput "memory text must be a non-empty string")
  else
    let tags ← rememberTags py w text o
    let content ← checkContent w.maxMemoryBytes text
    let metadata ← checkMemoryMetadata py o.metadata
    checkNumber py w "importance" o.importance
    checkNumber py w "confidence" o.confidence
    let draft ← w.middleware {
      content := content
      importance := o.importance
      scope := o.scope
      tags := withLabelKind w content tags
      source := o.source
      state := o.state
      confidence := o.confidence
      sessionId := o.sessionId
      ttlSeconds := o.ttlSeconds
      metadata := o.occurredAt.elim metadata fun moment => metadata.assign "occurred_at" (.str moment) }
    let (guarded, accepted) ← guardedDraft w draft
    let fragment ← newFragment agentId id now guarded
    return if accepted then { fragment with embedding := w.embed fragment.content } else fragment

/-- `remember`, with the id that is drawn for the new memory. -/
def remember (py : Python) (w : WritePath) (agentId id : String) (now : Int) (text : String)
    (o : RememberOptions) : MemoryClient String := do
  let fragment ← Client.ofExcept (prepareMemory py w agentId id now text o)
  insertFragment py fragment

/-! ### What is handed on -/

/-- The keys that the write path itself assigns. -/
def notes : List String := ["occurred_at", "mark_guard"]

/-- Middleware and write policy hand on a property of the metadata, and the
notes of the write path do not matter for it. -/
structure Handed (w : WritePath) (P : Metadata → Prop) : Prop where
  middleware : ∀ d d', w.middleware d = .ok d' → P d.metadata → P d'.metadata
  policy : ∀ content metadata tags decision, w.policy content metadata tags = .ok decision →
    P metadata → P decision.metadata
  assign : ∀ metadata key value, key ∈ notes → P metadata → P (metadata.assign key value)

section Handed

variable {py : Python} {w : WritePath} {P : Metadata → Prop}

theorem Handed.guardedDraft (hw : Handed w P) {d d' : MemoryDraft} {accepted : Bool}
    (hd : P d.metadata) (h : guardedDraft w d = .ok (d', accepted)) : P d'.metadata := by
  unfold MarkSdk.guardedDraft at h
  obtain ⟨decision, hdecision, h⟩ := Txn.exists_of_bind_eq_ok h
  have hkept := hw.policy d.content d.metadata d.tags decision hdecision hd
  have hguard : ∀ value, P (decision.metadata.assign "mark_guard" value) :=
    fun value => hw.assign _ _ value (by simp [notes]) hkept
  dsimp only at h
  split at h
  · cases h
    exact hguard _
  · cases hgate : w.gate with
    | none =>
        rw [hgate] at h
        cases h
        exact hkept
    | some check =>
        rw [hgate] at h
        dsimp only at h
        split at h
        · cases h
          exact hkept
        · split at h
          · split at h
            · cases h
              exact hguard _
            · cases h
              exact hkept
          · cases h
            exact hguard _

/-- The fragment that `remember` stores. -/
theorem Handed.prepareMemory (hw : Handed w P) {agentId id : String} {now : Int} {text : String}
    {o : RememberOptions} (ho : P o.metadata) {f : Fragment}
    (h : prepareMemory py w agentId id now text o = .ok f) :
    f.id = id ∧ f.agentId = agentId ∧ P f.metadata := by
  unfold MarkSdk.prepareMemory at h
  split at h
  · cases h
  · obtain ⟨tags, -, h⟩ := Txn.exists_of_bind_eq_ok h
    obtain ⟨content, -, h⟩ := Txn.exists_of_bind_eq_ok h
    obtain ⟨metadata, hmetadata, h⟩ := Txn.exists_of_bind_eq_ok h
    obtain ⟨-, -, h⟩ := Txn.exists_of_bind_eq_ok h
    obtain ⟨-, -, h⟩ := Txn.exists_of_bind_eq_ok h
    obtain ⟨draft, hdraft, h⟩ := Txn.exists_of_bind_eq_ok h
    obtain ⟨⟨guarded, accepted⟩, hguarded, h⟩ := Txn.exists_of_bind_eq_ok h
    obtain ⟨fragment, hfragment, h⟩ := Txn.exists_of_bind_eq_ok h
    have hsame : metadata = o.metadata := by
      unfold checkMemoryMetadata at hmetadata
      split at hmetadata
      · cases hmetadata
        rfl
      · cases hmetadata
    have hasked : P (o.occurredAt.elim metadata fun moment =>
        metadata.assign "occurred_at" (.str moment)) := by
      rw [hsame]
      cases o.occurredAt with
      | none => exact ho
      | some moment => exact hw.assign _ _ _ (by simp [notes]) ho
    have hstored := hw.guardedDraft (hw.middleware _ draft hdraft hasked) hguarded
    have hnew : fragment.id = id ∧ fragment.agentId = agentId ∧
        fragment.metadata = guarded.metadata := by
      unfold newFragment at hfragment
      split at hfragment
      · cases hfragment
      · cases hfragment
        exact ⟨rfl, rfl, rfl⟩
    obtain ⟨hid, hagent, hmetadata⟩ := hnew
    split at h <;> cases h
    · exact ⟨hid, hagent, hmetadata ▸ hstored⟩
    · exact ⟨hid, hagent, hmetadata ▸ hstored⟩

/-- The id and the time only mark the fragment. -/
theorem prepareMemory_eq_map (py : Python) (w : WritePath) (agentId id : String) (now : Int)
    (text : String) (o : RememberOptions) :
    prepareMemory py w agentId id now text o =
      (prepareMemory py w agentId "" 0 text o).map fun f =>
        { f with id := id, createdAt := now, updatedAt := now } := by
  have hbind : ∀ {α β : Type} (x : Except MemoryError α) (g : α → Except MemoryError β)
      (g' : α → Except MemoryError Fragment) (f : β → Fragment),
      (∀ a, g' a = (g a).map f) → (x >>= g') = (x >>= g).map f := by
    intro α β x g g' f h
    cases x with
    | error e => rfl
    | ok a => exact h a
  unfold MarkSdk.prepareMemory
  split
  · rfl
  · refine hbind _ _ _ _ fun tags => hbind _ _ _ _ fun content => hbind _ _ _ _ fun metadata => ?_
    refine hbind _ _ _ _ fun _ => hbind _ _ _ _ fun _ => hbind _ _ _ _ fun draft => ?_
    refine hbind _ _ _ _ fun guarded => ?_
    dsimp only
    unfold newFragment
    split
    · rfl
    · show (Except.ok _ : Except MemoryError Fragment) = Except.ok _
      split <;> rfl

end Handed

end MarkSdk
