import Mathlib.Data.Rat.Defs
import Mathlib.Logic.Function.Basic
import MarkSdk.Lib.ChangeLog
import MarkSdk.Lib.Lines
import MarkSdk.Scopes.Writes

/-!
Retrievable-id scopes kept up to date incrementally.

A process caches the id set of a filter with the version at which it is exact.
A later read brings it up to date with the write log, and a first read starts
from the scope snapshot of the agent if there is one for the filter. Only when
the log does not know what has changed, or it is too much, the rows are scanned.
A `ScopeIds` is a plain set here, as it behaves like one
(`MarkSdk.Store.ScopeIds`).
-/

namespace MarkSdk

open Lib

/-- The constants of `scope_delta` and `scope_snapshot`. -/
structure ScopeLimits where
  /-- `MAX_DELTA_IDS` -/
  maxDeltaIds : Nat := 5000
  /-- `SNAPSHOT_MAX_DELTA_IDS` -/
  snapshotMaxDeltaIds : Nat := 50000
  /-- `MAX_LOGGED_IDS` -/
  maxLoggedIds : Nat := 512
  /-- `_LOG_KEEP` -/
  logKeep : Nat := 1024
  /-- `_PRUNE_EVERY` -/
  pruneEvery : Nat := 64
  /-- `_IDS_CACHE_SIZE` -/
  idsCacheSize : Nat := 64
  /-- `_IDS_CACHE_MAX_AGE`, in seconds -/
  idsCacheMaxAge : ℚ := 300
  /-- `MIN_ROWS` -/
  minRows : Nat := 50000
  /-- `PART_IDS` -/
  partIds : Nat := 65536

/-- The limits, the hashes, the order in which a set is iterated, and the time
of the database, which stands still. -/
structure ScopeHost where
  limits : ScopeLimits := {}
  /-- `_key_hash` -/
  keyHash : List Clause → String
  /-- `_ids_digest` -/
  idsDigest : List String → String
  order : Finset String → List String
  mem_order : ∀ ids id, id ∈ order ids ↔ id ∈ ids
  clock : Int

/-- The rows of `scope_snapshots` of an agent, and its entry in `schema_info`. -/
structure ScopeSnapshot where
  texts : List String
  version : Int
  key : String
  count : Nat
  digest : String

/-- The database file, with the write version and the write log. -/
structure ScopeFile where
  tables : LocalStore
  log : ChangeLog String
  snapshots : String → Option ScopeSnapshot

/-- An entry of `_ids_cache`; nothing as the expiry stands for `math.inf`. -/
structure ScopeEntry where
  ids : Finset String
  version : Int
  expiry : Option ℚ
  refresh : ℚ

/-- `_ids_cache`, the oldest key first. -/
abbrev ScopeCache := List (List Clause × ScopeEntry)

/-- The filter of `retrievable_id_set` -/
def scopeClauses (agentId : String) (filter : ScopeFilter) : List Clause :=
  fragmentFilters agentId retrievableStates filter

/-- `_default_scope_key` -/
def defaultScope (agentId : String) : List Clause := scopeClauses agentId {}

/-! ### The write side -/

namespace ScopeFile

variable (limits : ScopeLimits)

def logStructuralWrite (notes : Option (List String)) (file : ScopeFile) : ScopeFile :=
  let noted := notes.filter fun ids => ids.length ≤ limits.maxLoggedIds
  let log := file.log.log (noted.map List.eraseDups)
  { file with
    log := if log.version % limits.pruneEvery = 0 then log.prune (log.version - limits.logKeep)
      else log }

/-- A structural write; nothing changes when it raises. -/
def write (w : LoggedWrite) (file : ScopeFile) : ScopeFile :=
  match w.program.exec file.tables with
  | .error _ => file
  | .ok (_, tables) => { file with tables := tables }.logStructuralWrite limits w.notes

/-- A structural write of code that does not log. -/
def writeUnlogged (program : StoreTxn Unit) (file : ScopeFile) : ScopeFile :=
  match program.exec file.tables with
  | .error _ => file
  | .ok (_, tables) => { file with tables := tables, log := file.log.skip }

def writePlain (w : PlainWrite) (file : ScopeFile) : ScopeFile :=
  { file with tables := w.program.apply file.tables }

end ScopeFile

/-! ### The read side -/

/-- `_TTL_LEFT_SQL`, in seconds -/
def Fragment.ttlLeft (clock : Int) (f : Fragment) : Option ℚ :=
  f.ttlSeconds.map fun ttl => ((f.createdAt - clock : Int) : ℚ) / 1000000 + ttl

/-- The least of the numbers; nothing for none of them. -/
def soonest (times : List ℚ) : Option ℚ :=
  times.foldl (fun least t => some (least.elim t (min t))) none

/-- `min` of two times that may be `math.inf` -/
def earlier : Option ℚ → Option ℚ → Option ℚ
  | none, t => t
  | t, none => t
  | some s, some t => some (min s t)

/-- `expiry <= now` -/
def reached (expiry : Option ℚ) (now : ℚ) : Bool := expiry.any fun t => t ≤ now

namespace ScopeHost

variable (host : ScopeHost)

section Reads

variable (tables : LocalStore) (clauses : List Clause) (agentId : String)

/-- The rows of a filter with a condition more -/
def rowsWhere (p : Fragment → Bool) : List Fragment :=
  tables.db.fragments.rows.filter fun f =>
    p f && f.meets (quarantinedIn tables.graph.blocks) clauses && f.ttlLive host.clock

/-- `SELECT id FROM fragments WHERE ...` -/
def scan : Finset String :=
  ((host.rowsWhere tables clauses fun _ => true).map Fragment.id).toFinset

def nextExpiry : Option ℚ :=
  (soonest ((tables.db.fragments.rows.filter fun f =>
    f.agentId = agentId && f.ttlSeconds.isSome && f.ttlLive host.clock).filterMap
      (Fragment.ttlLeft host.clock))).map (max 0)

def fullScope (version : Int) (now : ℚ) : ScopeEntry :=
  ⟨host.scan tables clauses, version, (host.nextExpiry tables agentId).map (now + ·),
    now + host.limits.idsCacheMaxAge⟩

def expire (entry : ScopeEntry) (now : ℚ) : ScopeEntry :=
  let gone := ((tables.db.fragments.rows.filter fun f =>
    f.agentId = agentId && f.ttlSeconds.isSome && !f.ttlLive host.clock).map Fragment.id).toFinset
  { entry with
    ids := entry.ids \ gone
    expiry := (host.nextExpiry tables agentId).map (now + ·) }

/-- `_apply_log`; `version` is the one that was read first. -/
def applyLog (log : ChangeLog String) (entry : ScopeEntry) (version : Int) (now : ℚ)
    (maxIds : Nat) : Option ScopeEntry :=
  (log.changedSince host.limits.logKeep maxIds entry.version version).map fun touched =>
    let rows := host.rowsWhere tables clauses fun f => f.id ∈ touched
    let present := (rows.map Fragment.id).toFinset
    let left := (soonest (rows.filterMap (Fragment.ttlLeft host.clock))).map (max 0)
    let ids :=
      if ¬ present ⊆ entry.ids ∨ ¬ Disjoint entry.ids (touched \ present) then
        (entry.ids ∪ present) \ (touched \ present)
      else entry.ids
    ⟨ids, version, earlier entry.expiry (left.map (now + ·)), entry.refresh⟩

/-- The entry as of the version, unless it has it already. -/
def caughtUp (log : ChangeLog String) (entry : ScopeEntry) (version : Int) (now : ℚ)
    (maxIds : Nat) : Option ScopeEntry :=
  if entry.version ≠ version then host.applyLog tables clauses log entry version now maxIds
  else some entry

end Reads

/-! ### Scope snapshots -/

/-- `save_scope_snapshot` -/
def snapshotOf (clauses : List Clause) (ids : List String) (version : Int) : ScopeSnapshot :=
  let texts := partedLines host.limits.partIds ids
  ⟨texts, version, host.keyHash clauses, ids.length, host.idsDigest texts⟩

def saveScopeSnapshot (agentId : String) (clauses : List Clause) (ids : List String)
    (version : Int) (file : ScopeFile) : ScopeFile :=
  { file with
    snapshots :=
      Function.update file.snapshots agentId (some (host.snapshotOf clauses ids version)) }

def snapshotScopeIds (file : ScopeFile) (agentId : String) (clauses : List Clause) :
    Option (Int × List String) := do
  let info ← file.snapshots agentId
  if info.key ≠ host.keyHash clauses then none
  else if info.texts = [] ∨ host.idsDigest info.texts ≠ info.digest then none
  else
    let ids := info.texts.flatMap splitLines
    if ids.length = info.count then some (info.version, ids) else none

def snapshotScope (file : ScopeFile) (version : Int) (clauses : List Clause) (agentId : String)
    (now : ℚ) : Option ScopeEntry := do
  let (snapVersion, ids) ← host.snapshotScopeIds file agentId clauses
  if version < snapVersion then none
  else
    let entry : ScopeEntry :=
      ⟨ids.toFinset, snapVersion, none, now + host.limits.idsCacheMaxAge⟩
    (host.caughtUp file.tables clauses file.log entry version now
      host.limits.snapshotMaxDeltaIds).map fun entry => host.expire file.tables agentId entry now

/-- `_save_scanned_scope`; `saves` is whether the write goes through. -/
def saveScannedScope (agentId : String) (clauses : List Clause) (entry : ScopeEntry) (saves : Bool)
    (file : ScopeFile) : ScopeFile :=
  if host.limits.minRows ≤ entry.ids.card && clauses = defaultScope agentId && saves then
    host.saveScopeSnapshot agentId clauses (host.order entry.ids) entry.version file
  else file

/-- `_record_scope_if_exact`, when a vector snapshot is saved at this version -/
def recordScopeIfExact (agentId : String) (ids : List String) (version : Int) (cache : ScopeCache)
    (file : ScopeFile) : ScopeFile :=
  match cache.lookup (defaultScope agentId) with
  | none => file
  | some entry =>
      if entry.version ≠ version ∨ entry.ids.card ≠ ids.length then file
      else if ids.all fun id => id ∈ entry.ids then
        host.saveScopeSnapshot agentId (defaultScope agentId) ids version file
      else file

/-! ### `retrievable_id_set` -/

/-- `self._ids_cache[key] = entry`, with the eviction of the oldest key -/
def cacheEntry (clauses : List Clause) (entry : ScopeEntry) (cache : ScopeCache) : ScopeCache :=
  if (cache.lookup clauses).isSome then
    cache.map fun e => if e.1 = clauses then (clauses, entry) else e
  else
    (if host.limits.idsCacheSize ≤ cache.length then cache.tail else cache) ++ [(clauses, entry)]

/-- The cached entry brought up to date, unless it is too old or unknown. -/
def cachedScope (file : ScopeFile) (agentId : String) (clauses : List Clause) (version : Int)
    (now : ℚ) (cache : ScopeCache) : Option ScopeEntry := do
  let entry ← cache.lookup clauses
  if entry.refresh ≤ now then none
  else
    (host.caughtUp file.tables clauses file.log entry version now host.limits.maxDeltaIds).map
      fun entry =>
        if reached entry.expiry now then host.expire file.tables agentId entry now else entry

/-- What a read gives: the entry, and the file and the cache after it. `version`
is read before the rows are. -/
def readScope (agentId : String) (clauses : List Clause) (version : Int) (now : ℚ) (saves : Bool)
    (file : ScopeFile) (cache : ScopeCache) : ScopeEntry × ScopeFile × ScopeCache :=
  let cached := host.cachedScope file agentId clauses version now cache
  let firstUse := cached.isNone && (cache.lookup clauses).isNone
  let found := if firstUse then host.snapshotScope file version clauses agentId now else cached
  match found with
  | some entry => (entry, file, host.cacheEntry clauses entry cache)
  | none =>
      let entry := host.fullScope file.tables clauses agentId version now
      (entry, if firstUse then host.saveScannedScope agentId clauses entry saves file else file,
        host.cacheEntry clauses entry cache)

/-- `retrievable_id_set`, while nobody writes -/
def retrievableIdSet (agentId : String) (filter : ScopeFilter) (now : ℚ) (file : ScopeFile)
    (cache : ScopeCache) : Finset String :=
  (host.readScope agentId (scopeClauses agentId filter) file.log.version now true file cache).1.ids

end ScopeHost

/-! ### Runs -/

structure ScopeState where
  file : ScopeFile
  cache : Nat → ScopeCache

/-- A store without a log and without snapshots, and processes that just started. -/
def ScopeState.start (tables : LocalStore) (version : Int) : ScopeState :=
  ⟨⟨tables, .start version, fun _ => none⟩, fun _ => []⟩

/-- A step of any process. A read has read the version `behind` writes ago; rows
of the log may be dropped at any time. -/
inductive ScopeCacheStep : Type
  | write (w : LoggedWrite)
  | writeUnlogged (program : StoreTxn Unit)
  | writePlain (w : PlainWrite)
  | prune (upTo : Int)
  | read (p : Nat) (agentId : String) (filter : ScopeFilter) (behind : Nat) (now : ℚ) (saves : Bool)
  | recordScope (p : Nat) (agentId : String) (ids : List String) (nodup : ids.Nodup)
  | restart (p : Nat)

def ScopeCacheStep.apply (host : ScopeHost) (step : ScopeCacheStep) (s : ScopeState) : ScopeState :=
  match step with
  | .write w => { s with file := s.file.write host.limits w }
  | .writeUnlogged program => { s with file := s.file.writeUnlogged program }
  | .writePlain w => { s with file := s.file.writePlain w }
  | .prune upTo => { s with file := { s.file with log := s.file.log.prune upTo } }
  | .read p agentId filter behind now saves =>
      let found := host.readScope agentId (scopeClauses agentId filter)
        (s.file.log.version - behind) now saves s.file (s.cache p)
      ⟨found.2.1, Function.update s.cache p found.2.2⟩
  | .recordScope p agentId ids _ =>
      { s with
        file := host.recordScopeIfExact agentId ids s.file.log.version (s.cache p) s.file }
  | .restart p => { s with cache := Function.update s.cache p [] }

end MarkSdk
