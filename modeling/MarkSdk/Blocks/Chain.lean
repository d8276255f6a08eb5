import MarkSdk.Store.Graph

/-!
Sealing and verifying blocks.

Sealing a block hashes the immutable fields of its members and links the
block to the agent's most recently sealed one. `verify` hashes the members
again; `verify_chain` verifies every sealed block and looks up every link.
The content hash of a block covers its member hashes and nothing else.
-/

namespace MarkSdk

open Lib

/-- What the hashes of a block are made with. -/
structure Hashing where
  /-- `hashlib.sha256(text.encode("utf-8")).hexdigest()` -/
  sha256 : String → String
  /-- `json.dumps(payload, sort_keys=True, separators=(",", ":"))` -/
  dumps : PyValue → String
  /-- `datetime.isoformat` -/
  isoformat : Int → String

/-- A collision-free hash: the text itself. -/
def Hashing.plain : Hashing := ⟨id, fun payload => (jsonText payload).getD "", toString⟩

def BlockStatus.value : BlockStatus → String
  | .opened => "open"
  | .sealed => "sealed"
  | .quarantined => "quarantined"

def NodeType.value : NodeType → String
  | .concept => "concept"
  | .entity => "entity"
  | .fact => "fact"
  | .event => "event"
  | .document => "document"
  | .fragment => "fragment"
  | .topic => "topic"
  | .agent => "agent"
  | .character => "character"
  | .object => "object"
  | .location => "location"
  | .scene => "scene"

/-- A text, or `None`. -/
def PyValue.optional : Option String → PyValue
  | some text => .str text
  | Option.none => .none

/-! ### Hashes -/

section Hashes

variable (h : Hashing)

def canonicalHash (payload : List (String × PyValue)) : String := h.sha256 (h.dumps (.dict payload))

def hashFragment (fragment : Fragment) : String :=
  canonicalHash h [
    ("kind", .str "fragment"),
    ("id", .str fragment.id),
    ("content", .str fragment.content),
    ("agent_id", .str fragment.agentId),
    ("session_id", .optional fragment.sessionId),
    ("source", .optional fragment.source),
    ("created_at", .str (h.isoformat fragment.createdAt))]

def hashNode (node : Node) : String :=
  canonicalHash h [
    ("kind", .str "node"),
    ("id", .str node.id),
    ("node_type", .str node.nodeType.value),
    ("label", .str node.label),
    ("fragment_id", .optional node.fragmentId),
    ("created_at", .str (h.isoformat node.createdAt))]

def hashEdge (edge : Edge) : String :=
  canonicalHash h [
    ("kind", .str "edge"),
    ("id", .str edge.id),
    ("source_id", .str edge.sourceId),
    ("target_id", .str edge.targetId),
    ("relation", .str edge.relation),
    ("created_at", .str (h.isoformat edge.createdAt))]

abbrev MemberHashes := List (String × String)

/-- `hashes[member_id] = hash` -/
def MemberHashes.set (hashes : MemberHashes) (memberId hash : String) : MemberHashes :=
  if hashes.any fun entry => entry.1 = memberId then
    hashes.map fun entry => if entry.1 = memberId then (memberId, hash) else entry
  else hashes ++ [(memberId, hash)]

def LocalStore.memberHashes (s : LocalStore) (blockId : String) : MemberHashes :=
  let hashes := (s.fragmentsForBlock blockId).foldl
    (fun hashes f => MemberHashes.set hashes f.id (hashFragment h f)) []
  let hashes := (s.nodesInBlock blockId).foldl
    (fun hashes n => MemberHashes.set hashes n.id (hashNode h n)) hashes
  (s.edgesInBlock blockId).foldl (fun hashes e => MemberHashes.set hashes e.id (hashEdge h e)) hashes

/-- The order of `sorted(member_hashes.items())`. -/
def hashBefore (p q : String × String) : Prop := p.1 < q.1 ∨ (p.1 = q.1 ∧ p.2 ≤ q.2)

instance : DecidableRel hashBefore := fun p q => by
  unfold hashBefore
  infer_instance

def blockContentHash (hashes : MemberHashes) : String :=
  h.sha256 (h.dumps (.list ((hashes.insertionSort hashBefore).map fun p =>
    .tuple [.str p.1, .str p.2])))

end Hashes

/-! ### The chain of an agent -/

/-- `sealed_at`, of a block that has one. -/
def Block.sealTime (b : Block) : Int := b.sealedAt.getD 0

/-- `ORDER BY sealed_at, created_at` -/
def Block.sealedBefore (a b : Block) : Prop :=
  a.sealTime < b.sealTime ∨ (a.sealTime = b.sealTime ∧ a.createdAt ≤ b.createdAt)

instance : DecidableRel Block.sealedBefore := fun a b => by
  unfold Block.sealedBefore
  infer_instance

def LocalStore.sealedChain (s : LocalStore) (agentId : String) : List Block :=
  (s.graph.blocks.rows.filter fun b =>
      b.agentId = agentId && b.sealedAt.isSome &&
        (b.status = .sealed || b.status = .quarantined)).insertionSort Block.sealedBefore

/-- `latest_sealed_block`: the first row of `ORDER BY sealed_at DESC,
created_at DESC`. -/
def LocalStore.latestSealedBlock (s : LocalStore) (agentId excludeId : String) : Option Block :=
  ((s.graph.blocks.rows.filter fun b =>
      b.agentId = agentId && b.status = .sealed && b.sealedAt.isSome &&
        b.id ≠ excludeId).insertionSort fun a b => b.sealedBefore a).head?

/-! ### Changing blocks -/

def LocalStore.putBlock (s : LocalStore) (block : Block) : LocalStore :=
  s.onGraph fun g => { g with blocks := g.blocks.insertOrReplace block }

/-- `create_block`: `id` is the fresh uuid. -/
def createBlock (agentId id name : String) (now : Int) (memberHashes : MemberHashes)
    (s : LocalStore) : Block × LocalStore :=
  let block : Block := {
    id := id
    name := name
    agentId := agentId
    status := .opened
    contentHash := none
    prevBlockId := none
    prevBlockHash := none
    sealedAt := none
    createdAt := now
    memberHashes := memberHashes }
  (block, s.putBlock block)

def blockNotFound (py : Python) (blockId : String) : MemoryError :=
  .keyError ("Block not found: " ++ py.repr blockId)

def BlockChain.seal (py : Python) (h : Hashing) (agentId blockId : String) (now : Int) (s : LocalStore) :
    Except MemoryError (Block × LocalStore) :=
  match s.getBlock blockId with
  | none => .error (blockNotFound py blockId)
  | some block =>
      if block.status ≠ .opened then
        .error (.valueError ("Only OPEN blocks can be sealed; " ++ py.repr block.name ++ " is " ++
          block.status.value))
      else
        let memberHashes := s.memberHashes h blockId
        let prev := s.latestSealedBlock agentId blockId
        let sealed : Block := { block with
          status := .sealed
          contentHash := some (blockContentHash h memberHashes)
          prevBlockId := prev.map Block.id
          prevBlockHash := prev.bind Block.contentHash
          sealedAt := some now
          memberHashes := memberHashes }
        .ok (sealed, s.putBlock sealed)

def BlockChain.quarantine (py : Python) (blockId : String) (s : LocalStore) :
    Except MemoryError (Block × LocalStore) :=
  match s.getBlock blockId with
  | none => .error (blockNotFound py blockId)
  | some block =>
      let updated : Block := { block with status := .quarantined }
      .ok (updated, s.putBlock updated)

def BlockChain.release (py : Python) (blockId : String) (s : LocalStore) :
    Except MemoryError (Block × LocalStore) :=
  match s.getBlock blockId with
  | none => .error (blockNotFound py blockId)
  | some block =>
      let restored := if block.contentHash.isSome then BlockStatus.sealed else .opened
      let updated : Block := { block with status := restored }
      .ok (updated, s.putBlock updated)

/-! ### Verifying -/

structure BlockVerification where
  valid : Bool
  blockId : String
  corruptedMemberIds : List String
  missingMemberIds : List String
  addedMemberIds : List String
  reason : String

structure ChainVerification where
  valid : Bool
  checked : Nat
  brokenBlockIds : List String
  brokenLinks : List (String × String)

section Verifying

variable (py : Python) (h : Hashing)

/-- `sorted(ids)` -/
def sortedIds (ids : List String) : List String := ids.insertionSort fun a b => a ≤ b

/-- `sorted(set(hashes) - set(others))` -/
def MemberHashes.without (hashes others : MemberHashes) : List String :=
  sortedIds ((hashes.map Prod.fst).filter fun id => (others.lookup id).isNone)

/-- The members of both whose hashes differ. -/
def MemberHashes.changed (sealedHashes current : MemberHashes) : List String :=
  sortedIds ((sealedHashes.filter fun entry =>
    (current.lookup entry.1).any fun hash => hash ≠ entry.2).map Prod.fst)

/-- The parts of the reason for a block whose members changed. -/
def verificationReason (corrupted missing added : List String) (contentOk : Bool) : String :=
  if corrupted.isEmpty && missing.isEmpty && added.isEmpty then
    if contentOk then "ok"
    else "sealed content_hash does not match sealed member hashes (seal record tampered)"
  else
    commaJoin
      ((if corrupted.isEmpty then [] else [py.str (.int corrupted.length) ++ " corrupted member(s)"]) ++
        (if missing.isEmpty then [] else [py.str (.int missing.length) ++ " missing member(s)"]) ++
        if added.isEmpty then []
        else [py.str (.int added.length) ++ " member(s) added after seal"])

def BlockChain.verify (blockId : String) (s : LocalStore) : Except MemoryError BlockVerification :=
  match s.getBlock blockId with
  | none => .error (blockNotFound py blockId)
  | some block =>
      match block.contentHash with
      | none =>
          .ok ⟨false, blockId, [], [], [], "block has never been sealed"⟩
      | some contentHash =>
          let current := s.memberHashes h blockId
          let corrupted := MemberHashes.changed block.memberHashes current
          let missing := MemberHashes.without block.memberHashes current
          let added := MemberHashes.without current block.memberHashes
          let contentOk := blockContentHash h block.memberHashes == contentHash
          let valid := corrupted.isEmpty && missing.isEmpty && added.isEmpty && contentOk
          .ok ⟨valid, blockId, corrupted, missing, added,
            verificationReason py corrupted missing added contentOk⟩

def brokenLink (prevHashById : List (String × Option String)) (block : Block) :
    Option (String × String) :=
  match block.prevBlockId with
  | none => none
  | some prevId =>
      match (prevHashById.lookup prevId).join with
      | none => some (block.id, "previous block " ++ py.repr prevId ++ " is gone")
      | some expected =>
          if some expected ≠ block.prevBlockHash then
            some (block.id, "prev_block_hash does not match previous block")
          else none

def brokenBlocks (s : LocalStore) : List Block → Except MemoryError (List String)
  | [] => .ok []
  | block :: blocks => do
      let verification ← BlockChain.verify py h block.id s
      let rest ← brokenBlocks s blocks
      return if verification.valid then rest else block.id :: rest

def BlockChain.verifyChain (agentId : String) (s : LocalStore) : Except MemoryError ChainVerification := do
  let chain := s.sealedChain agentId
  let broken ← brokenBlocks py h s chain
  let links := chain.filterMap (brokenLink py (chain.map fun b => (b.id, b.contentHash)))
  return ⟨broken.isEmpty && links.isEmpty, chain.length, broken, links⟩

def Verifies (s : LocalStore) (blockId : String) : Prop :=
  ∃ v, BlockChain.verify py h blockId s = .ok v ∧ v.valid = true

instance (s : LocalStore) (blockId : String) : Decidable (Verifies py h s blockId) :=
  decidable_of_iff (((BlockChain.verify py h blockId s).toOption.any fun v => v.valid) = true) <| by
    unfold Verifies
    cases BlockChain.verify py h blockId s with
    | error e => simp [Except.toOption]
    | ok v => simp [Except.toOption]

def ChainVerifies (agentId : String) (s : LocalStore) : Prop :=
  ∃ v, BlockChain.verifyChain py h agentId s = .ok v ∧ v.valid = true

/-- A seal that agrees with the members as they are now. -/
structure Block.Intact (block : Block) (current : MemberHashes) : Prop where
  changed : MemberHashes.changed block.memberHashes current = []
  missing : MemberHashes.without block.memberHashes current = []
  added : MemberHashes.without current block.memberHashes = []
  contentHash : block.contentHash = some (blockContentHash h block.memberHashes)

variable {py h}

theorem verifies_iff {s : LocalStore} {blockId : String} :
    Verifies py h s blockId ↔
      ∃ block, s.getBlock blockId = some block ∧ block.Intact h (s.memberHashes h blockId) := by
  unfold Verifies BlockChain.verify
  constructor
  · rintro ⟨v, hv, hvalid⟩
    cases hget : s.getBlock blockId with
    | none => simp [hget] at hv
    | some block =>
        rw [hget] at hv
        cases hhash : block.contentHash with
        | none =>
            simp only [hhash, Except.ok.injEq] at hv
            subst hv
            cases hvalid
        | some contentHash =>
            simp only [hhash, Except.ok.injEq] at hv
            subst hv
            simp only [Bool.and_eq_true, List.isEmpty_iff, beq_iff_eq] at hvalid
            obtain ⟨⟨⟨hchanged, hmissing⟩, hadded⟩, hcontent⟩ := hvalid
            exact ⟨block, rfl, hchanged, hmissing, hadded, by rw [hhash, hcontent]⟩
  · rintro ⟨block, hget, hintact⟩
    rw [hget]
    simp only [hintact.contentHash]
    refine ⟨_, rfl, ?_⟩
    simp [hintact.changed, hintact.missing, hintact.added]

theorem brokenBlocks_cons (s : LocalStore) (block : Block) (blocks : List Block) :
    brokenBlocks py h s (block :: blocks) =
      (BlockChain.verify py h block.id s).bind fun v =>
        (brokenBlocks py h s blocks).bind fun rest =>
          .ok (if v.valid then rest else block.id :: rest) := rfl

theorem brokenBlocks_eq_nil_iff {s : LocalStore} {blocks : List Block} :
    brokenBlocks py h s blocks = .ok [] ↔ ∀ b ∈ blocks, Verifies py h s b.id := by
  induction blocks with
  | nil => simp [brokenBlocks]
  | cons b bs ih =>
      rw [List.forall_mem_cons, ← ih, brokenBlocks_cons]
      unfold Verifies
      cases hv : BlockChain.verify py h b.id s with
      | error e => simp [Except.bind]
      | ok v =>
          cases hrest : brokenBlocks py h s bs with
          | error e => simp [Except.bind]
          | ok rest => cases hvalid : v.valid <;> simp [Except.bind, hvalid]

theorem chainVerifies_iff {s : LocalStore} {agentId : String} :
    ChainVerifies py h agentId s ↔
      (∀ b ∈ s.sealedChain agentId, Verifies py h s b.id) ∧
        ∀ b ∈ s.sealedChain agentId,
          brokenLink py ((s.sealedChain agentId).map fun b => (b.id, b.contentHash)) b = none := by
  have hdo : BlockChain.verifyChain py h agentId s =
      (brokenBlocks py h s (s.sealedChain agentId)).bind fun broken =>
        let links := (s.sealedChain agentId).filterMap
          (brokenLink py ((s.sealedChain agentId).map fun b => (b.id, b.contentHash)))
        .ok ⟨broken.isEmpty && links.isEmpty, (s.sealedChain agentId).length, broken, links⟩ := rfl
  rw [← brokenBlocks_eq_nil_iff, ChainVerifies, hdo]
  cases hbroken : brokenBlocks py h s (s.sealedChain agentId) with
  | error e => simp [Except.bind]
  | ok broken => simp [Except.bind, List.isEmpty_iff, List.filterMap_eq_nil_iff]

end Verifying

end MarkSdk
