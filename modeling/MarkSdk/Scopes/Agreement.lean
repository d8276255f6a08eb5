import Mathlib.Data.List.Sort
import Mathlib.Data.String.Basic
import MarkSdk.Lib.Runs
import MarkSdk.Scopes.Cache

/-!
The cached scopes agree with the scan.

What is cached, and what a snapshot holds, follows the write log: it is right
for every id that no write since its version can have changed. Reads and writes
keep that, and at the version of the file it is the scan
(`retrievableIdSet_eq_scan`).
-/

namespace MarkSdk

open Lib

namespace ScopeHost

variable (host : ScopeHost)

/-- The ids are right for the filter at the version. -/
def Right (tables : LocalStore) (log : ChangeLog String) (clauses : List Clause)
    (ids : Finset String) (version : Int) : Prop :=
  log.Follows (tables.Counts clauses host.clock) ids version

/-- No other filter has the hash of the default filter of the agent. -/
def KeysApart (agentId : String) (clauses : List Clause) : Prop :=
  host.keyHash clauses = host.keyHash (defaultScope agentId) → clauses = defaultScope agentId

variable {host} {tables : LocalStore} {log : ChangeLog String} {clauses : List Clause}
  {agentId : String} {version : Int}

/-! ### Scans -/

theorem mem_rowsWhere {p : Fragment → Bool} {id : String} :
    id ∈ ((host.rowsWhere tables clauses p).map Fragment.id).toFinset ↔
      ∃ f ∈ tables.db.fragments.rows, f.id = id ∧ p f = true ∧
        f.meets (quarantinedIn tables.graph.blocks) clauses = true ∧
          f.ttlLive host.clock = true := by
  simp only [rowsWhere, List.mem_toFinset, List.mem_map, List.mem_filter, Bool.and_eq_true]
  constructor
  · rintro ⟨f, ⟨hf, ⟨hp, hmeets⟩, hlive⟩, hid⟩
    exact ⟨f, hf, hid, hp, hmeets, hlive⟩
  · rintro ⟨f, hf, hid, hp, hmeets, hlive⟩
    exact ⟨f, ⟨hf, ⟨hp, hmeets⟩, hlive⟩, hid⟩

theorem mem_scan {id : String} :
    id ∈ host.scan tables clauses ↔ tables.Counts clauses host.clock id := by
  rw [scan, mem_rowsWhere]
  simp [LocalStore.Counts]

theorem right_scan (h : version ≤ log.version) :
    host.Right tables log clauses (host.scan tables clauses) version :=
  .of_exact h fun _ => mem_scan

/-! ### The three shortcuts -/

/-- What has expired is in no scan. -/
theorem right_expire {entry : ScopeEntry}
    (h : host.Right tables log clauses entry.ids entry.version) (agentId : String) (now : ℚ) :
    host.Right tables log clauses (host.expire tables agentId entry now).ids entry.version := by
  refine ⟨h.version_le, fun id huntouched => ?_⟩
  simp only [expire, Finset.mem_sdiff, List.mem_toFinset, List.mem_map, List.mem_filter,
    Bool.and_eq_true, Bool.not_eq_true']
  rw [h.mem_iff id huntouched]
  constructor
  · exact fun hid => hid.1
  · intro hcounts
    refine ⟨hcounts, ?_⟩
    rintro ⟨f, ⟨hf, -, hexpired⟩, hid⟩
    obtain ⟨g, hg, hgid, -, hlive⟩ := hcounts
    rw [tables.db.fragments.eq_of_key hf hg (hid.trans hgid.symm), hlive] at hexpired
    cases hexpired

/-- The delta of the log brings an entry to the version. -/
theorem right_applyLog {entry entry' : ScopeEntry} {now : ℚ} {maxIds : Nat}
    (h : host.Right tables log clauses entry.ids entry.version) (hversion : version ≤ log.version)
    (happly : host.applyLog tables clauses log entry version now maxIds = some entry') :
    host.Right tables log clauses entry'.ids version ∧ entry'.version = version := by
  obtain ⟨touched, hchanged, rfl⟩ := Option.map_eq_some_iff.mp happly
  refine ⟨?_, rfl⟩
  set present :=
    ((host.rowsWhere tables clauses fun f => decide (f.id ∈ touched)).map Fragment.id).toFinset
  have hpresent : ∀ id, id ∈ present ↔ id ∈ touched ∧ tables.Counts clauses host.clock id := by
    intro id
    rw [mem_rowsWhere]
    constructor
    · rintro ⟨f, hf, rfl, hin, hcounts⟩
      exact ⟨of_decide_eq_true hin, f, hf, rfl, hcounts⟩
    · rintro ⟨hin, f, hf, rfl, hcounts⟩
      exact ⟨f, hf, rfl, decide_eq_true hin, hcounts⟩
  have hmem : ∀ id, id ∈ (if ¬ present ⊆ entry.ids ∨ ¬ Disjoint entry.ids (touched \ present) then
      (entry.ids ∪ present) \ (touched \ present) else entry.ids) ↔
        id ∈ present ∨ id ∈ entry.ids ∧ id ∉ touched := by
    intro id
    have hsub := hpresent id
    split
    · simp only [Finset.mem_sdiff, Finset.mem_union]
      grind
    · rename_i hsame
      rw [not_or, not_not, not_not] at hsame
      have hin := @hsame.1 id
      have hout : id ∈ entry.ids → id ∉ touched \ present :=
        fun h => Finset.disjoint_left.mp hsame.2 h
      rw [Finset.mem_sdiff] at hout
      grind
  refine ChangeLog.Follows.replay h hchanged hversion (fun id hid => ?_) fun id hid => ?_
  · rw [hmem, hpresent]
    grind
  · rw [hmem, hpresent]
    grind

theorem right_caughtUp {entry entry' : ScopeEntry} {now : ℚ} {maxIds : Nat}
    (h : host.Right tables log clauses entry.ids entry.version) (hversion : version ≤ log.version)
    (hcaught : host.caughtUp tables clauses log entry version now maxIds = some entry') :
    host.Right tables log clauses entry'.ids version ∧ entry'.version = version := by
  unfold caughtUp at hcaught
  split at hcaught
  · exact right_applyLog h hversion hcaught
  · rename_i hsame
    cases hcaught
    rw [← not_not.mp hsame]
    exact ⟨h, rfl⟩

/-- And so for what has expired in it. -/
theorem right_caughtUp_expire {entry entry' : ScopeEntry} {now : ℚ} {maxIds : Nat}
    (h : host.Right tables log clauses entry.ids entry.version) (hversion : version ≤ log.version)
    (hcaught : host.caughtUp tables clauses log entry version now maxIds = some entry')
    (agentId : String) :
    host.Right tables log clauses (host.expire tables agentId entry' now).ids version ∧
      (host.expire tables agentId entry' now).version = version := by
  obtain ⟨hright, hsame⟩ := right_caughtUp h hversion hcaught
  rw [← hsame] at hright
  have hexpired := right_expire hright agentId now
  rw [hsame] at hexpired
  exact ⟨hexpired, hsame⟩

theorem right_cachedScope {file : ScopeFile} {cache : ScopeCache} {now : ℚ} {entry : ScopeEntry}
    (h : ∀ e ∈ cache, host.Right file.tables file.log e.1 e.2.ids e.2.version)
    (hversion : version ≤ file.log.version)
    (hentry : host.cachedScope file agentId clauses version now cache = some entry) :
    host.Right file.tables file.log clauses entry.ids version ∧ entry.version = version := by
  unfold cachedScope at hentry
  obtain ⟨cached, hlookup, hentry⟩ := Option.bind_eq_some_iff.mp hentry
  obtain ⟨before, rest, hsplit, -⟩ := List.lookup_eq_some_iff.mp hlookup
  have hcached := h (clauses, cached) (by rw [hsplit]; simp)
  split at hentry
  · cases hentry
  · obtain ⟨current, hcaught, rfl⟩ := Option.map_eq_some_iff.mp hentry
    split
    · exact right_caughtUp_expire hcached hversion hcaught agentId
    · exact right_caughtUp hcached hversion hcaught

/-- What was saved comes back, or nothing does. -/
theorem snapshotScopeIds_eq_some {file : ScopeFile} {snap : ScopeSnapshot} {ids found : List String}
    {saved : List Clause} (hsnap : file.snapshots agentId = some snap)
    (hsaved : snap = host.snapshotOf saved ids snap.version)
    (hfound : host.snapshotScopeIds file agentId clauses = some (version, found)) :
    host.keyHash clauses = host.keyHash saved ∧ version = snap.version ∧ found = ids := by
  unfold snapshotScopeIds at hfound
  rw [hsnap, Option.bind_eq_bind, Option.bind_some] at hfound
  have htexts : snap.texts = partedLines host.limits.partIds ids := by rw [hsaved]; rfl
  have hkey : snap.key = host.keyHash saved := by rw [hsaved]; rfl
  have hcount : snap.count = ids.length := by rw [hsaved]; rfl
  split at hfound
  · cases hfound
  · rename_i hsame
    split at hfound
    · cases hfound
    · dsimp only at hfound
      split at hfound
      · rename_i hlength
        cases hfound
        rw [htexts] at hlength ⊢
        refine ⟨?_, rfl, eq_of_length_split (hlength.trans hcount)⟩
        rw [← not_not.mp hsame, hkey]
      · cases hfound

end ScopeHost

/-! ### The invariant -/

section Invariant

variable (host : ScopeHost)

/-- The snapshot of an agent is that of its default filter. -/
def ScopeFile.Sound (file : ScopeFile) : Prop :=
  ∀ agentId, ∀ snap ∈ file.snapshots agentId, ∃ ids : List String,
    snap = host.snapshotOf (defaultScope agentId) ids snap.version ∧
      host.Right file.tables file.log (defaultScope agentId) ids.toFinset snap.version

/-- Every entry is right for its filter. -/
def ScopeFile.Serves (file : ScopeFile) (cache : ScopeCache) : Prop :=
  ∀ e ∈ cache, host.Right file.tables file.log e.1 e.2.ids e.2.version

structure ScopeState.Sound (s : ScopeState) : Prop where
  file : s.file.Sound host
  cache : ∀ p, s.file.Serves host (s.cache p)

variable {host}

theorem ScopeState.Sound.start (tables : LocalStore) (version : Int) :
    (ScopeState.start tables version).Sound host where
  file := fun _ _ h => by cases h
  cache := fun _ _ h => by cases h

/-- A change of the file that keeps the answers it has right. -/
theorem ScopeState.Sound.of_right {s : ScopeState} (h : s.Sound host) {file : ScopeFile}
    (hsnapshots : file.snapshots = s.file.snapshots)
    (hright : ∀ clauses ids version, host.Right s.file.tables s.file.log clauses ids version →
      host.Right file.tables file.log clauses ids version) :
    ScopeState.Sound host { s with file := file } := by
  refine ⟨fun agentId snap hsnap => ?_, fun p e he => hright _ _ _ (h.cache p e he)⟩
  obtain ⟨ids, hsaved, hids⟩ := h.file agentId snap (hsnapshots ▸ hsnap)
  exact ⟨ids, hsaved, hright _ _ _ hids⟩

/-! ### Writes -/

section Writes

variable {tables : LocalStore} {log : ChangeLog String} {clauses : List Clause}
  {ids : Finset String} {version : Int}

/-- The log knows each id whose answer a logged write changes. -/
theorem right_write (w : LoggedWrite) {file : ScopeFile}
    (h : host.Right file.tables file.log clauses ids version) :
    host.Right (file.write host.limits w).tables (file.write host.limits w).log clauses ids
      version := by
  unfold ScopeFile.write
  cases hexec : w.program.exec file.tables with
  | error e => exact h
  | ok result =>
      obtain ⟨_, after⟩ := result
      have hlogged : (file.log.log ((w.notes.filter fun ids =>
          ids.length ≤ host.limits.maxLoggedIds).map List.eraseDups)).Follows
            (after.Counts clauses host.clock) ids version := by
        refine h.log _ fun noted hnoted id hid => ?_
        obtain ⟨all, hall, rfl⟩ := Option.mem_map.mp hnoted
        have hcovers := w.covers all (Option.filter_eq_some_iff.mp hall).1
        exact hcovers.exec (OnlyChanges.refl all) OnlyChanges.trans hexec id
          (fun hmem => hid (List.mem_eraseDups.mpr hmem)) clauses host.clock
      show host.Right after (if _ then _ else _) clauses ids version
      split
      · exact hlogged.prune _
      · exact hlogged

theorem right_writeUnlogged (program : StoreTxn Unit) {file : ScopeFile}
    (h : host.Right file.tables file.log clauses ids version) :
    host.Right (file.writeUnlogged program).tables (file.writeUnlogged program).log clauses ids
      version := by
  unfold ScopeFile.writeUnlogged
  cases hexec : program.exec file.tables with
  | error e => exact h
  | ok result => exact h.skip

theorem right_writePlain (w : PlainWrite) {file : ScopeFile}
    (h : host.Right file.tables file.log clauses ids version) :
    host.Right (file.writePlain w).tables (file.writePlain w).log clauses ids version :=
  h.congr fun id => w.keeps.apply (OnlyChanges.refl []) OnlyChanges.trans file.tables id
    List.not_mem_nil clauses host.clock

end Writes

/-! ### Reads -/

section Reads

variable {file : ScopeFile} {cache : ScopeCache} {agentId : String} {clauses : List Clause}
  {version : Int}

theorem ScopeFile.Serves.cacheEntry (h : file.Serves host cache) {entry : ScopeEntry}
    (hentry : host.Right file.tables file.log clauses entry.ids entry.version) :
    file.Serves host (host.cacheEntry clauses entry cache) := by
  intro e he
  unfold ScopeHost.cacheEntry at he
  split at he
  · obtain ⟨old, hold, rfl⟩ := List.mem_map.mp he
    split
    · exact hentry
    · exact h old hold
  · obtain he | he := List.mem_append.mp he
    · split at he
      · exact h e (List.mem_of_mem_tail he)
      · exact h e he
    · rw [List.mem_singleton.mp he]
      exact hentry

theorem ScopeFile.Sound.saveScopeSnapshot (h : file.Sound host) {ids : List String}
    (hids : host.Right file.tables file.log (defaultScope agentId) ids.toFinset version) :
    (host.saveScopeSnapshot agentId (defaultScope agentId) ids version file).Sound host := by
  intro other snap hsnap
  change snap ∈ Function.update file.snapshots agentId _ other at hsnap
  by_cases hother : other = agentId
  · subst hother
    rw [Function.update_self] at hsnap
    cases hsnap
    exact ⟨ids, rfl, hids⟩
  · rw [Function.update_of_ne hother] at hsnap
    exact h other snap hsnap

theorem right_snapshotScope (h : file.Sound host) (hkey : host.KeysApart agentId clauses)
    (hversion : version ≤ file.log.version) {now : ℚ} {entry : ScopeEntry}
    (hentry : host.snapshotScope file version clauses agentId now = some entry) :
    host.Right file.tables file.log clauses entry.ids version ∧ entry.version = version := by
  unfold ScopeHost.snapshotScope at hentry
  obtain ⟨⟨snapVersion, found⟩, hfound, hentry⟩ := Option.bind_eq_some_iff.mp hentry
  dsimp only at hentry
  split at hentry
  · cases hentry
  · obtain ⟨current, hcaught, rfl⟩ := Option.map_eq_some_iff.mp hentry
    cases hsnap : file.snapshots agentId with
    | none => simp [ScopeHost.snapshotScopeIds, hsnap] at hfound
    | some snap =>
        obtain ⟨ids, hsaved, hids⟩ := h agentId snap hsnap
        obtain ⟨hhash, rfl, rfl⟩ := ScopeHost.snapshotScopeIds_eq_some hsnap hsaved hfound
        rw [← hkey hhash] at hids
        exact ScopeHost.right_caughtUp_expire hids hversion hcaught agentId

theorem saveScannedScope_sound (hfile : file.Sound host) (entry : ScopeEntry)
    (hentry : host.Right file.tables file.log clauses entry.ids entry.version) (saves : Bool) :
    let after := host.saveScannedScope agentId clauses entry saves file
    after.Sound host ∧ after.tables = file.tables ∧ after.log = file.log := by
  unfold ScopeHost.saveScannedScope
  split
  · rename_i hwanted
    simp only [Bool.and_eq_true, decide_eq_true_eq] at hwanted
    obtain ⟨⟨-, rfl⟩, -⟩ := hwanted
    refine ⟨hfile.saveScopeSnapshot ?_, rfl, rfl⟩
    have hids : (host.order entry.ids).toFinset = entry.ids := by
      ext id
      rw [List.mem_toFinset, host.mem_order]
    rw [hids]
    exact hentry
  · exact ⟨hfile, rfl, rfl⟩

/-- What a read gives is right at the version that it has read, and so is all
that it leaves behind. -/
theorem readScope_right (hfile : file.Sound host) (hcache : file.Serves host cache)
    (hkey : host.KeysApart agentId clauses) (hversion : version ≤ file.log.version) (now : ℚ)
    (saves : Bool) :
    let found := host.readScope agentId clauses version now saves file cache
    host.Right file.tables file.log clauses found.1.ids version ∧
      found.2.1.Sound host ∧ found.2.1.tables = file.tables ∧ found.2.1.log = file.log ∧
        file.Serves host found.2.2 := by
  have hfull : host.Right file.tables file.log clauses
      (host.fullScope file.tables clauses agentId version now).ids version :=
    ScopeHost.right_scan hversion
  unfold ScopeHost.readScope
  cases hcached : host.cachedScope file agentId clauses version now cache with
  | some entry =>
      obtain ⟨hright, hsame⟩ := ScopeHost.right_cachedScope hcache hversion hcached
      simp only [Option.isNone_some, Bool.false_and, Bool.false_eq_true, if_false]
      exact ⟨hright, hfile, trivial, trivial, hcache.cacheEntry (hsame ▸ hright)⟩
  | none =>
      cases hlookup : cache.lookup clauses with
      | some old =>
          -- the key is cached, but the entry is too old or the log does not know enough
          simp only [Option.isNone_none, Option.isNone_some, Bool.and_false, Bool.false_eq_true,
            if_false]
          exact ⟨hfull, hfile, trivial, trivial, hcache.cacheEntry hfull⟩
      | none =>
          simp only [Option.isNone_none, Bool.and_self, if_true]
          cases hsnapshot : host.snapshotScope file version clauses agentId now with
          | some entry =>
              obtain ⟨hright, hsame⟩ := right_snapshotScope hfile hkey hversion hsnapshot
              exact ⟨hright, hfile, rfl, rfl, hcache.cacheEntry (hsame ▸ hright)⟩
          | none =>
              obtain ⟨hsound, htables, hlog⟩ := saveScannedScope_sound hfile
                (host.fullScope file.tables clauses agentId version now) hfull saves
              exact ⟨hfull, hsound, htables, hlog, hcache.cacheEntry hfull⟩

/-- A scope is recorded for what the cache says of the current version. -/
theorem recordScopeIfExact_sound (hfile : file.Sound host) (hcache : file.Serves host cache)
    {ids : List String} (hnodup : ids.Nodup) :
    let after := host.recordScopeIfExact agentId ids file.log.version cache file
    after.Sound host ∧ after.tables = file.tables ∧ after.log = file.log := by
  unfold ScopeHost.recordScopeIfExact
  cases hlookup : cache.lookup (defaultScope agentId) with
  | none => exact ⟨hfile, rfl, rfl⟩
  | some entry =>
      dsimp only
      split
      · exact ⟨hfile, rfl, rfl⟩
      · rename_i hsame
        rw [not_or, not_not, not_not] at hsame
        obtain ⟨hversion, hcard⟩ := hsame
        split
        · rename_i hall
          obtain ⟨before, rest, hsplit, -⟩ := List.lookup_eq_some_iff.mp hlookup
          have hentry := hcache (defaultScope agentId, entry) (by rw [hsplit]; simp)
          -- as many ids, and all of them in the entry
          have heq : ids.toFinset = entry.ids := by
            refine Finset.eq_of_subset_of_card_le (fun id hid => ?_) ?_
            · exact of_decide_eq_true (List.all_eq_true.mp hall id (List.mem_toFinset.mp hid))
            · rw [List.toFinset_card_of_nodup hnodup, hcard]
          refine ⟨hfile.saveScopeSnapshot ?_, rfl, rfl⟩
          rw [heq, ← hversion]
          exact hentry
        · exact ⟨hfile, rfl, rfl⟩

end Reads

/-! ### Runs -/

/-- The filter of a read has a hash of its own. -/
def ScopeCacheStep.KeysApart (host : ScopeHost) : ScopeCacheStep → Prop
  | .read _ agentId filter _ _ _ => host.KeysApart agentId (scopeClauses agentId filter)
  | _ => True

theorem ScopeState.Sound.apply {s : ScopeState} (h : s.Sound host) {step : ScopeCacheStep}
    (hkey : step.KeysApart host) : (step.apply host s).Sound host := by
  cases step with
  | write w =>
      refine h.of_right ?_ fun clauses ids version => right_write w
      unfold ScopeFile.write
      split <;> rfl
  | writeUnlogged program =>
      refine h.of_right ?_ fun clauses ids version => right_writeUnlogged program
      unfold ScopeFile.writeUnlogged
      split <;> rfl
  | writePlain w => exact h.of_right rfl fun clauses ids version => right_writePlain w
  | prune upTo => exact h.of_right rfl fun clauses ids version hids => hids.prune upTo
  | read p agentId filter behind now saves =>
      have hversion : s.file.log.version - behind ≤ s.file.log.version := by omega
      obtain ⟨-, hfile, htables, hlog, hcache⟩ :=
        readScope_right h.file (h.cache p) hkey hversion now saves
      refine ⟨hfile, fun q => ?_⟩
      have hserves : ∀ cache : ScopeCache, s.file.Serves host cache →
          (ScopeCacheStep.apply host (.read p agentId filter behind now saves) s).file.Serves host
            cache := by
        intro cache hcache e he
        show host.Right (ScopeHost.readScope ..).2.1.tables (ScopeHost.readScope ..).2.1.log _ _ _
        rw [htables, hlog]
        exact hcache e he
      show ScopeFile.Serves host _ (Function.update s.cache p _ q)
      by_cases hq : q = p
      · subst hq
        rw [Function.update_self]
        exact hserves _ hcache
      · rw [Function.update_of_ne hq]
        exact hserves _ (h.cache q)
  | recordScope p agentId ids hnodup =>
      obtain ⟨hfile, htables, hlog⟩ := recordScopeIfExact_sound h.file (h.cache p) hnodup
      refine ⟨hfile, fun q e he => ?_⟩
      show host.Right (ScopeHost.recordScopeIfExact ..).tables
        (ScopeHost.recordScopeIfExact ..).log _ _ _
      rw [htables, hlog]
      exact h.cache q e he
  | restart p =>
      refine ⟨h.file, fun q => ?_⟩
      show ScopeFile.Serves host _ (Function.update s.cache p [] q)
      by_cases hq : q = p
      · subst hq
        rw [Function.update_self]
        exact fun e he => by cases he
      · rw [Function.update_of_ne hq]
        exact h.cache q

end Invariant

/-- After every run of writes and reads, a read of any filter in any process
gives what a scan of the rows gives. -/
theorem retrievableIdSet_eq_scan (host : ScopeHost) (tables : LocalStore) (version : Int)
    (steps : List ScopeCacheStep) (hsteps : ∀ step ∈ steps, step.KeysApart host) (p : Nat)
    (agentId : String) (filter : ScopeFilter)
    (hkey : host.KeysApart agentId (scopeClauses agentId filter)) (now : ℚ) :
    let s := run (ScopeCacheStep.apply host) steps (.start tables version)
    host.retrievableIdSet agentId filter now s.file (s.cache p) =
      host.scan s.file.tables (scopeClauses agentId filter) := by
  intro s
  have hsound : s.Sound host :=
    (along_of_forall (fun step hstep _ => hsteps step hstep) _).invariant
      (fun _ _ hs hstep => hs.apply hstep) (.start tables version)
  have hread := (readScope_right hsound.file (hsound.cache p) hkey le_rfl now true).1
  ext id
  rw [ScopeHost.mem_scan]
  exact hread.exact id

/-! ### A store with a snapshot -/

instance (host : ScopeHost) (agentId : String) (clauses : List Clause) :
    Decidable (host.KeysApart agentId clauses) :=
  inferInstanceAs (Decidable (_ → _))

instance (host : ScopeHost) (step : ScopeCacheStep) : Decidable (step.KeysApart host) :=
  match step with
  | .read _ agentId filter _ _ _ =>
      inferInstanceAs (Decidable (host.KeysApart agentId (scopeClauses agentId filter)))
  | .write _ | .writeUnlogged _ | .writePlain _ | .prune _ | .recordScope .. | .restart _ =>
      isTrue trivial

def inOrder (ids : Finset String) : List String :=
  Quot.liftOn ids.val (fun l => l.insertionSort (· ≤ ·)) fun l l' h =>
    (((List.perm_insertionSort _ l).trans h).trans
      (List.perm_insertionSort _ l').symm).eq_of_pairwise'
        (List.pairwise_insertionSort _ l) (List.pairwise_insertionSort _ l')

theorem mem_inOrder (ids : Finset String) (id : String) : id ∈ inOrder ids ↔ id ∈ ids := by
  obtain ⟨⟨l⟩, hnodup⟩ := ids
  exact (List.perm_insertionSort _ l).mem_iff

/-- A store that keeps snapshots of few ids, and hashes by the number of conditions. -/
def smallScopes : ScopeHost where
  limits := { minRows := 1 }
  keyHash clauses := toString clauses.length
  idsDigest := "|".intercalate
  order := inOrder
  mem_order := mem_inOrder
  clock := 0

def scopedMemory (id : String) : Fragment where
  id := id
  content := "The gateway is on port 8080"
  blockId := none
  scope := .agent
  tier := .episodic
  agentId := "coder"
  sessionId := none
  importance := 1 / 2
  state := .verified
  confidence := 1
  ttlSeconds := none
  createdAt := 0
  updatedAt := 0
  lastAccessedAt := none
  tags := []
  source := none
  metadata := []
  embedding := none
  contradictionIds := []

def heldBlock : Block where
  id := "b"
  name := "held"
  agentId := "coder"
  status := .quarantined
  contentHash := none
  prevBlockId := none
  prevBlockHash := none
  sealedAt := none
  createdAt := 0
  memberHashes := []

/-- A scan is saved; then a memory is stored, one goes into a quarantined block,
and one is contradicted. -/
def scopeSteps : List ScopeCacheStep :=
  [.write (.storeBlock heldBlock), .write (.storeMany .basic (["x", "y", "z"].map scopedMemory)),
    .read 0 "coder" {} 0 0 true, .write (.storeMany .basic [scopedMemory "w"]),
    .write (.assignFragmentBlock .basic "x" (some "b") 1),
    .read 0 "coder" { sessionId := some "s" } 1 1 true,
    .write (.updateState 1 "y" .contradicted)]

/-- A new process reads the snapshot and what the log says since. -/
theorem retrievableIdSet_eq_scan_snapshot :
    let s := run (ScopeCacheStep.apply smallScopes) scopeSteps (.start .empty 0)
    (smallScopes.snapshotScope s.file s.file.log.version (defaultScope "coder") "coder" 2).isSome =
        true ∧
      smallScopes.scan s.file.tables (defaultScope "coder") = {"w", "z"} ∧
      smallScopes.retrievableIdSet "coder" {} 2 s.file (s.cache 1) =
        smallScopes.scan s.file.tables (defaultScope "coder") := by
  refine ⟨by decide +kernel, by decide +kernel, ?_⟩
  exact retrievableIdSet_eq_scan smallScopes .empty 0 scopeSteps (by decide +kernel) 1 "coder" {}
    (by decide +kernel) 2

end MarkSdk
