import MarkSdk.Store.Graph

/-!
The WHERE clause that listings and id queries share.

The clause is a list of conditions with their parameters. Two calls that
build the same list send the same text with the same parameters to SQLite,
so the list is also the key of the caches.
-/

namespace MarkSdk

/-- One condition of `_fragment_filters`. -/
inductive Clause : Type
  | agentId (id : String)
  | notQuarantined
  | blockId (id : String)
  | blockIds (ids : List String)
  | scope (scope : MemoryScope)
  | tier (tier : MemoryTier)
  | sessionId (id : String)
  | sessionPrefix (pre : String)
  | tag (tag : String)
  | states (states : List MemoryState)
  deriving DecidableEq, Repr

/-- `LIKE 'pre%'` ignores the case of ASCII letters. -/
def likePrefix (pre s : String) : Bool :=
  (pre.toList.map Char.toLower).isPrefixOf (s.toList.map Char.toLower)

/-- The condition holds of a row, when these blocks are in quarantine. -/
def Clause.holds (quarantined : String → Bool) (f : Fragment) : Clause → Bool
  | .agentId id => f.agentId = id
  | .notQuarantined => f.blockId.all fun id => !quarantined id
  | .blockId id => f.blockId = some id
  | .blockIds ids => f.blockId.any fun id => ids.contains id
  | .scope wanted => f.scope = wanted
  | .tier wanted => f.tier = wanted
  | .sessionId id => f.sessionId = some id
  | .sessionPrefix pre => f.sessionId.any fun id => likePrefix pre id
  | .tag wanted => f.tags.contains wanted
  | .states wanted => wanted.contains f.state

/-- `WHERE` of the whole list. -/
def Fragment.meets (quarantined : String → Bool) (clauses : List Clause) (f : Fragment) : Bool :=
  clauses.all (Clause.holds quarantined f)

/-- `_TTL_LIVE_SQL` -/
def Fragment.ttlLive (now : Int) (f : Fragment) : Bool :=
  f.ttlSeconds.all fun ttl => now - f.createdAt ≤ ttl * 1000000

def retrievableStates : List MemoryState := [.unverified, .verified, .promoted]

/-- What a caller asks for, besides the agent. -/
structure ScopeFilter where
  sessionId : Option String := none
  sessionPrefix : Option String := none
  tags : List String := []
  tier : Option MemoryTier := none
  scope : Option MemoryScope := none
  blockId : Option String := none
  blockIds : List String := []

/-- The condition on the blocks that a caller names. -/
def blockClause (blockId : Option String) (blockIds : List String) : List Clause :=
  match blockId with
  | some id => [.blockId id]
  | none => if blockIds = [] then [] else [.blockIds blockIds]

def sessionClause (sessionId sessionPrefix : Option String) : List Clause :=
  match sessionId with
  | some id => [.sessionId id]
  | none => (sessionPrefix.map Clause.sessionPrefix).toList

def fragmentFilters (agentId : String) (states : List MemoryState) (filter : ScopeFilter) :
    List Clause :=
  [.agentId agentId, .notQuarantined] ++ blockClause filter.blockId filter.blockIds ++
    (filter.scope.map Clause.scope).toList ++ (filter.tier.map Clause.tier).toList ++
    sessionClause filter.sessionId filter.sessionPrefix ++ filter.tags.map Clause.tag ++
    if states = [] then [] else [.states states]

/-- `SELECT id FROM blocks WHERE status = 'quarantined'` -/
def quarantinedIn (blocks : Lib.Table Block.id) (id : String) : Bool :=
  blocks.rows.any fun b => b.id = id && b.status = .quarantined

/-! ### The columns that count -/

/-- The rows agree in every column that a filter or the TTL looks at. -/
structure Fragment.SameScope (f g : Fragment) : Prop where
  blockId : f.blockId = g.blockId
  scope : f.scope = g.scope
  tier : f.tier = g.tier
  agentId : f.agentId = g.agentId
  sessionId : f.sessionId = g.sessionId
  state : f.state = g.state
  ttlSeconds : f.ttlSeconds = g.ttlSeconds
  createdAt : f.createdAt = g.createdAt
  tags : f.tags = g.tags

section SameScope

variable {f g : Fragment}

theorem Fragment.SameScope.refl (f : Fragment) : f.SameScope f :=
  ⟨rfl, rfl, rfl, rfl, rfl, rfl, rfl, rfl, rfl⟩

theorem Fragment.SameScope.meets (h : f.SameScope g) (quarantined : String → Bool)
    (clauses : List Clause) : f.meets quarantined clauses = g.meets quarantined clauses := by
  have hsame : Clause.holds quarantined f = Clause.holds quarantined g := by
    ext clause
    cases clause <;> simp only [Clause.holds, h.blockId, h.scope, h.tier, h.agentId, h.sessionId,
      h.state, h.tags]
  show clauses.all _ = clauses.all _
  rw [hsame]

theorem Fragment.SameScope.ttlLive (h : f.SameScope g) (now : Int) :
    f.ttlLive now = g.ttlLive now := by
  simp only [Fragment.ttlLive, h.ttlSeconds, h.createdAt]

end SameScope

/-- What is live now was live before. -/
theorem ttlLive_earlier {now later : Int} (hle : now ≤ later) {f : Fragment}
    (h : f.ttlLive later = true) : f.ttlLive now = true := by
  unfold Fragment.ttlLive at h ⊢
  cases httl : f.ttlSeconds with
  | none => rfl
  | some ttl =>
      rw [httl] at h
      simp only [Option.all_some, decide_eq_true_eq] at h ⊢
      omega

end MarkSdk
