import MarkSdk.Facts.Effect
import MarkSdk.Lib.Lineage
import MarkSdk.Memory.Merging
import MarkSdk.Memory.Revisions

/-!
Lineages of memories under the calls of the facade.

A memory and its revisions form one lineage of `Lib.Lineages`. Alone, each
call is one of the operations there: `remember` starts a lineage, `supersede`
revises the newest version, `forget` removes. What nothing checks is that the
version that `forget` removes is not one that another version links to; as
long as none is, the lineages stay sound (`lineages_stay_sound`).
-/

namespace MarkSdk

open Lib

/-! ### Forgetting by text -/

def unreadableTag : String := "mark:unreadable"

/-- `page_fragments(agent_id, limit=None)` -/
def LocalStore.pageFragments (s : LocalStore) (agentId : String) : List Fragment :=
  (s.db.fragments.rows.reverse.filter fun f =>
      f.agentId = agentId && s.visible f && !f.tags.contains unreadableTag).insertionSort
    Fragment.listedBefore

def forgetMatchCap : Nat := 50

/-- What `over_cap_error` says. -/
def overCapMessage (py : Python) (text : String) (count : Nat) : String :=
  "forget(match=" ++ py.repr (joinWords (pySplit text)) ++ ") matches " ++ toString count ++
    " memories, more than the safety cap of " ++ toString forgetMatchCap ++
    "; check them with dry_run=True (CLI: --dry-run), then pass all=True (CLI: --all) to forget " ++
    "them all"

/-- `forget(match=...)`, with the search of the pattern that `match_pattern`
compiles. -/
def forgetMatching (py : Python) (matchPattern : String → Except MemoryError (String → Bool))
    (agentId : String) (now : Int) (text : String) (secure all : Bool) : MemoryClient Nat := do
  let fragments ← Client.read fun s => s.pageFragments agentId
  let search ← Client.ofExcept (matchPattern text)
  let found := fragments.filter fun f => search f.content
  if forgetMatchCap < found.length && !all then
    Client.raise (.invalidInput (overCapMessage py text found.length))
  else do
    let forgotten ← Client.forMap (fun id => callForget now id secure) (found.map Fragment.id)
    return (forgotten.map Bool.toNat).sum

/-- A call that lineages depend on. -/
inductive RevisionCall : Type
  | call (c : MemoryCall)
  | forgetMatching (text : String) (secure all : Bool)

/-- A call of an agent at an instant, with nothing in between. -/
def RevisionCall.step (py : Python) (w : WritePath)
    (matchPattern : String → Except MemoryError (String → Bool)) :
    String × Int × RevisionCall → LocalStore → LocalStore
  | (agentId, now, .call c), s => MemoryCall.step py w (agentId, now, c) s
  | (agentId, now, .forgetMatching text secure all), s =>
      (MarkSdk.forgetMatching py matchPattern agentId now text secure all).after s

/-! ### Links in the metadata -/

/-- A memory as a version of its lineage. -/
def Fragment.version (py : Python) (f : Fragment) : Version String String :=
  ⟨f.id, f.agentId, f.history py, f.supersededBy py⟩

def LocalStore.versions (py : Python) (s : LocalStore) : List (Version String String) :=
  s.db.fragments.rows.map (Fragment.version py)

/-- The metadata of a memory that nothing has superseded yet. -/
structure Metadata.Follows (history : List String) (metadata : Metadata) : Prop where
  current : metadata.lookup "superseded_by" = none
  history : metadata.lookup "history" =
    if history = [] then none else some (.list (history.map PyValue.str))

/-- Middleware and write policy hand on what the metadata says about other
versions, which they know by ids that meet `isId`. -/
structure WritePath.KeepsLinks (w : WritePath) (isId : String → Prop) : Prop where
  middleware : ∀ d d', w.middleware d = .ok d' → ∀ history, (∀ id ∈ history, isId id) →
    Metadata.Follows history d.metadata → Metadata.Follows history d'.metadata
  policy : ∀ content metadata tags decision, w.policy content metadata tags = .ok decision →
    ∀ history, (∀ id ∈ history, isId id) →
      Metadata.Follows history metadata → Metadata.Follows history decision.metadata

section Metadata

theorem lookup_update_of_none {metadata entries : Metadata} {key : String}
    (h : entries.lookup key = none) :
    (metadata.update entries).lookup key = metadata.lookup key := by
  unfold Metadata.update
  induction entries generalizing metadata with
  | nil => rfl
  | cons entry entries ih =>
      rw [List.lookup_cons] at h
      cases hk : key == entry.1 with
      | true => simp [hk] at h
      | false =>
          rw [hk] at h
          rw [List.foldl_cons, ih h, lookup_assign_ne _ (by simpa using hk)]

theorem lookup_filter_of_false {metadata : Metadata} {p : String × PyValue → Bool} {key : String}
    (h : ∀ value, p (key, value) = false) : (metadata.filter p).lookup key = none := by
  rw [List.lookup_eq_none_iff]
  intro entry hentry
  obtain ⟨k, value⟩ := entry
  have hp := (List.mem_filter.mp hentry).2
  have hne : key ≠ k := by
    rintro rfl
    rw [h value] at hp
    cases hp
  simpa using hne

theorem lookup_setDefault_ne {metadata : Metadata} {key key' : String} (value : PyValue)
    (hne : key' ≠ key) : (metadata.setDefault key value).lookup key' = metadata.lookup key' := by
  unfold Metadata.setDefault
  split
  · rfl
  · exact lookup_assign_ne value hne

theorem Metadata.Follows.assign {history : List String} {metadata : Metadata}
    (h : Metadata.Follows history metadata) {key : String} (value : PyValue)
    (hlink : "superseded_by" ≠ key) (hhistory : "history" ≠ key) :
    Metadata.Follows history (metadata.assign key value) := by
  constructor
  · rw [lookup_assign_ne value hlink, h.current]
  · rw [lookup_assign_ne value hhistory, h.history]

theorem Metadata.Follows.version_eq {history : List String} {f : Fragment}
    (h : Metadata.Follows history f.metadata) (py : Python) :
    f.version py = ⟨f.id, f.agentId, history, none⟩ := by
  unfold Fragment.version Fragment.supersededBy Fragment.history
  rw [h.current, h.history]
  split
  · rename_i hempty
    rw [hempty]
    rfl
  · show (⟨f.id, f.agentId, (history.map PyValue.str).map (pyStr py), none⟩ : Version _ _) = _
    rw [List.map_map]
    congr
    exact List.map_id'' (fun id => rfl) history

end Metadata

/-! ### Rows that are stored again -/

section Retiring

variable (py : Python) (w : WritePath) (now : Int) (f : Fragment)

/-- Superseding links the old version to the new one. -/
theorem version_supersededWith {newId : String} (hnew : newId ≠ "") :
    (f.supersededWith w now newId).version py = revisedTo f.id newId (f.version py) := by
  have hlink : (f.supersededWith w now newId).metadata.lookup "superseded_by" =
      some (.str newId) := by
    show (Metadata.setDefault _ _ _).lookup "superseded_by" = _
    rw [lookup_setDefault_ne _ (by decide)]
    exact lookup_assign_self _ _ _
  have hhistory : (f.supersededWith w now newId).metadata.lookup "history" =
      f.metadata.lookup "history" := by
    show (Metadata.setDefault _ _ _).lookup "history" = _
    rw [lookup_setDefault_ne _ (by decide), lookup_update_of_none rfl, lookup_assign_ne _ (by decide)]
  have htruthy : (PyValue.str newId).truthy = true := by
    simpa [PyValue.truthy] using hnew
  unfold Fragment.version Fragment.supersededBy Fragment.history
  rw [hlink, hhistory, Option.bind_some, if_pos htruthy, revisedTo, if_pos rfl]
  rfl

/-- Resolving says nothing about versions. -/
theorem version_resolvedWith (note : Option String) :
    (f.resolvedWith w now note).version py = f.version py := by
  have hkeys : ∀ key, key ≠ "lifecycle" → key ≠ "resolved_at" → key ≠ "resolution" →
      (f.resolvedWith w now note).metadata.lookup key = f.metadata.lookup key := by
    intro key hlifecycle hresolvedAt hresolution
    show (Metadata.update (Metadata.assign f.metadata "lifecycle" (.str "resolved")) _).lookup key = _
    rw [lookup_update_of_none, lookup_assign_ne _ hlifecycle]
    have hat : (key == "resolved_at") = false := by simpa using hresolvedAt
    have hnote : (key == "resolution") = false := by simpa using hresolution
    rw [List.lookup_cons, hat]
    cases note with
    | none => rfl
    | some text =>
        dsimp only
        split
        · rfl
        · rw [List.lookup_cons, hnote]
          rfl
  unfold Fragment.version Fragment.supersededBy Fragment.history
  rw [hkeys _ (by decide) (by decide) (by decide), hkeys _ (by decide) (by decide) (by decide)]
  rfl

theorem version_transitionTo (newState : MemoryState) :
    (f.transitionTo now newState).version py = f.version py := by
  unfold Fragment.transitionTo
  split <;> rfl

theorem version_promotedOnce : (f.promotedOnce now).version py = f.version py := by
  unfold Fragment.promotedOnce
  dsimp only
  split <;> split
  · rw [version_transitionTo, version_transitionTo]
  · rw [version_transitionTo]
  · rw [version_transitionTo]
  · rfl

end Retiring

/-! ### A new row -/

/-- The fragment that `remember` stores. -/
theorem version_prepareMemory (py : Python) {w : WritePath} {isId : String → Prop}
    (hw : w.KeepsLinks isId) {history : List String} (hids : ∀ id ∈ history, isId id)
    {agentId id : String} {now : Int} {text : String} {o : RememberOptions}
    (ho : Metadata.Follows history o.metadata) {f : Fragment}
    (h : prepareMemory py w agentId id now text o = .ok f) :
    f.version py = ⟨id, agentId, history, none⟩ := by
  have hkept : Handed w (Metadata.Follows history) := {
    middleware := fun d d' hd => hw.middleware d d' hd history hids
    policy := fun content metadata tags decision hdecision =>
      hw.policy content metadata tags decision hdecision history hids
    assign := fun metadata key value hkey hfollows => by
      refine hfollows.assign value ?_ ?_ <;> rintro rfl <;> simp [notes] at hkey }
  obtain ⟨hid, hagent, hfollows⟩ := hkept.prepareMemory ho h
  rw [hfollows.version_eq py, hid, hagent]

/-! ### Looking up -/

/-- The memory that the agent finds by an id or by the start of one. -/
def LocalStore.found (s : LocalStore) (agentId memoryId : String) : Option Fragment :=
  if (s.get memoryId).isNone && isShortId memoryId then
    match s.idsWithPrefix agentId (strip memoryId) 2 with
    | [id] => (s.get id).filter fun f => f.agentId = agentId
    | _ => none
  else (s.get memoryId).filter fun f => f.agentId = agentId

section Finding

variable {py : Python} {s : LocalStore} {agentId : String} {f : Fragment}

theorem run_facadeGet (s : LocalStore) (agentId memoryId : String) :
    (facadeGet agentId memoryId).run s = (.ok (s.found agentId memoryId), s) := by
  unfold facadeGet LocalStore.found
  rw [Client.run_bind, Client.run_read]
  dsimp only
  split
  · rw [Client.run_bind, Client.run_read]
    cases s.idsWithPrefix agentId (strip memoryId) 2 with
    | nil => rfl
    | cons id ids =>
        cases ids with
        | nil => rfl
        | cons id' ids => rfl
  · rfl

theorem mem_of_found {memoryId : String} (h : s.found agentId memoryId = some f) :
    f ∈ s.db.fragments.rows ∧ f.agentId = agentId := by
  have hget : ∀ id, (s.get id).filter (fun f => f.agentId = agentId) = some f →
      f ∈ s.db.fragments.rows ∧ f.agentId = agentId := by
    intro id hid
    rw [Option.filter_eq_some_iff] at hid
    exact ⟨(Table.find?_eq_some_iff.mp hid.1).1, by simpa using hid.2⟩
  unfold LocalStore.found at h
  split at h
  · split at h
    · exact hget _ h
    · cases h
  · exact hget _ h

theorem found_of_mem (hf : f ∈ s.db.fragments.rows) (hagent : f.agentId = agentId) :
    s.found agentId f.id = some f := by
  have hget : s.get f.id = some f := Table.find?_eq_some_iff.mpr ⟨hf, rfl⟩
  unfold LocalStore.found
  rw [hget]
  simp [hagent]

/-- Along the links to the newest version, when there are enough steps for
all the rows that have not been seen. -/
theorem run_newestFrom (h : Lineages (s.versions py)) {fuel : Nat} {seen : List String}
    (hf : f ∈ s.db.fragments.rows) (hagent : f.agentId = agentId) (hnodup : seen.Nodup)
    (hseen : ∀ id ∈ seen, ∃ g ∈ s.db.fragments.rows, g.id = id ∧
      (g.history py).length ≤ (f.history py).length)
    (hfuel : s.db.fragments.rows.length < seen.length + fuel) :
    ∃ g ∈ s.db.fragments.rows, (newestFrom py agentId fuel seen f).run s = (.ok g, s) ∧
      g.agentId = agentId ∧ g.supersededBy py = none := by
  induction fuel generalizing seen f with
  | zero =>
      have hsub : seen ⊆ s.db.fragments.rows.map Fragment.id := by
        intro id hid
        obtain ⟨g, hg, rfl, -⟩ := hseen id hid
        exact List.mem_map_of_mem hg
      have hle := (List.subperm_of_subset hnodup hsub).length_le
      rw [List.length_map] at hle
      omega
  | succ fuel ih =>
      unfold newestFrom
      cases hnext : f.supersededBy py with
      | none => exact ⟨f, hf, rfl, hagent, hnext⟩
      | some next =>
          obtain ⟨v, hv, hid, howner, hhistory⟩ :=
            h.next (f.version py) (List.mem_map_of_mem hf) next hnext
          obtain ⟨g, hg, rfl⟩ := List.mem_map.mp hv
          have hlonger : (g.history py).length = (f.history py).length + 1 := by
            have hlength := congrArg List.length hhistory
            simpa [Version.line, Fragment.version] using hlength
          have hgid : g.id = next := hid
          have hgagent : g.agentId = agentId := howner.trans hagent
          have hnew : next ∉ seen := by
            intro hin
            obtain ⟨g', hg', hid', hle⟩ := hseen next hin
            rw [s.db.fragments.eq_of_key hg' hg (hid'.trans hgid.symm)] at hle
            omega
          have hfound : s.found agentId next = some g := hgid ▸ found_of_mem hg hgagent
          have hnodup' : (g.id :: seen).Nodup := List.nodup_cons.mpr ⟨hgid ▸ hnew, hnodup⟩
          have hseen' : ∀ id ∈ g.id :: seen, ∃ g' ∈ s.db.fragments.rows, g'.id = id ∧
              (g'.history py).length ≤ (g.history py).length := by
            intro id hid
            rcases List.mem_cons.mp hid with rfl | hid
            · exact ⟨g, hg, rfl, le_refl _⟩
            · obtain ⟨g', hg', hid', hle⟩ := hseen id hid
              exact ⟨g', hg', hid', by omega⟩
          have hfuel' : s.db.fragments.rows.length < (g.id :: seen).length + fuel := by
            rw [List.length_cons]
            omega
          obtain ⟨last, hlast, hrun, hrest⟩ := ih hg hgagent hnodup' hseen' hfuel'
          refine ⟨last, hlast, ?_, hrest⟩
          dsimp only
          rw [if_neg (by simpa using hnew), Client.run_bind, run_facadeGet, hfound]
          exact hrun

theorem run_newest (h : Lineages (s.versions py)) (hf : f ∈ s.db.fragments.rows)
    (hagent : f.agentId = agentId) :
    ∃ g ∈ s.db.fragments.rows,
      (newest py agentId (s.db.fragments.rows.length + 1) f).run s = (.ok g, s) ∧
        g.agentId = agentId ∧ g.supersededBy py = none := by
  refine run_newestFrom h hf hagent (List.nodup_singleton _) ?_ ?_
  · intro id hid
    exact ⟨f, hf, (List.mem_singleton.mp hid).symm, le_refl _⟩
  · rw [List.length_singleton]
    omega

end Finding

/-! ### Writing -/

theorem run_requireMemory (s : LocalStore) (agentId memoryId : String) :
    (requireMemory agentId memoryId).run s =
      match s.found agentId memoryId with
      | some fragment => (.ok fragment, s)
      | none => (.error (.notFound memoryId), s) := by
  unfold requireMemory
  rw [Client.run_bind, run_facadeGet]
  dsimp only
  cases s.found agentId memoryId <;> rfl

theorem run_callForget (now : Int) (id : String) (secure : Bool) (s : LocalStore) :
    ∃ forgotten s', (callForget now id secure).run s = (.ok forgotten, s') ∧
      s'.db.fragments = s.db.fragments.delete fun r => r.id = id := by
  unfold callForget
  rw [Client.run_bind, Client.run_read]
  dsimp only
  cases hget : s.get id with
  | none =>
      refine ⟨false, s, rfl, ?_⟩
      apply Table.ext
      rw [Table.rows_delete, eq_comm, List.filter_eq_self]
      intro r hr
      simpa using Table.find?_eq_none_iff.mp hget r hr
  | some row =>
      have hexec := exec_forgetFragment now id secure s.db
      rw [forgetFragment_eq] at hexec
      have hfind : s.db.fragments.find? id = some row := hget
      rw [hfind] at hexec
      dsimp only at hexec
      have honDb := exec_onDb (forgetRow now row secure) s
      rw [hexec] at honDb
      dsimp only at honDb
      refine ⟨true, (onDb (forgetRow now row secure)).apply s, ?_, ?_⟩
      · show (callStore (.forget id row.agentId) (forgetRow now row secure)).run s = _
        rw [callStore, Client.run_txn, Txn.outcome, honDb]
      · rw [Txn.apply_of_ok honDb]
        show (Db.rechainAll _ _).fragments = _
        rw [fragments_rechainAll]
        cases secure <;> rfl

/-- Several memories are forgotten one after another. -/
theorem run_forMap_callForget (now : Int) (ids : List String) (secure : Bool) (s : LocalStore) :
    ∃ forgotten s', (Client.forMap (fun id => callForget now id secure) ids).run s =
        (.ok forgotten, s') ∧
      s'.db.fragments.rows = s.db.fragments.rows.filter fun r => !ids.contains r.id := by
  induction ids generalizing s with
  | nil => exact ⟨[], s, rfl, by simp⟩
  | cons id ids ih =>
      obtain ⟨b, t, hrun, hdelete⟩ := run_callForget now id secure s
      obtain ⟨bs, u, hruns, hrows⟩ := ih t
      refine ⟨b :: bs, u, ?_, ?_⟩
      · show ((callForget now id secure) >>= fun b =>
          (Client.forMap (fun id => callForget now id secure) ids) >>= fun bs =>
            pure (b :: bs)).run s = _
        rw [Client.run_bind, hrun]
        dsimp only
        rw [Client.run_bind, hruns]
        rfl
      · rw [hrows, hdelete, Table.rows_delete, List.filter_filter]
        refine List.filter_congr fun r _ => ?_
        rw [List.contains_cons]
        cases hid : r.id == id <;> simp_all

/-- No memory has the id or had a predecessor with it. -/
def LocalStore.UnusedId (py : Python) (s : LocalStore) (id : String) : Prop :=
  ∀ f ∈ s.db.fragments.rows, f.id ≠ id ∧ id ∉ f.history py

instance decidableUnusedId (py : Python) (s : LocalStore) (id : String) :
    Decidable (s.UnusedId py id) := by
  unfold LocalStore.UnusedId
  infer_instance

section Writing

variable {py : Python} {s : LocalStore} {f : Fragment}

theorem LocalStore.UnusedId.fresh {id : String} (h : s.UnusedId py id) :
    FreshId (s.versions py) id := by
  intro v hv hin
  obtain ⟨f, hf, rfl⟩ := List.mem_map.mp hv
  obtain ⟨hid, hhistory⟩ := h f hf
  rcases List.mem_append.mp hin with hin | hin
  · exact hhistory hin
  · exact hid (List.mem_singleton.mp hin).symm

theorem rows_upsert_new (hnew : ∀ g ∈ s.db.fragments.rows, g.id ≠ f.id) :
    (s.db.fragments.upsert f).rows = s.db.fragments.rows ++ [f] := by
  rw [Table.rows_upsert, if_neg]
  intro hin
  obtain ⟨g, hg, hid⟩ := List.mem_map.mp hin
  exact hnew g hg hid

theorem run_insertFragment (py : Python) (hnew : ∀ g ∈ s.db.fragments.rows, g.id ≠ f.id) :
    (insertFragment py f).run s = (.ok f.id, s.withFragments (s.db.fragments.upsert f)) := by
  have hexec : (store py f).exec s.db =
      .ok (f.id, { s.db with fragments := s.db.fragments.upsert f }) := by
    have hfind : s.db.fragments.find? f.id = none :=
      Table.find?_eq_none_iff.mpr hnew
    unfold store storeRow
    rw [Txn.exec_query_bind, hfind]
    rfl
  have honDb := exec_onDb (store py f) s
  rw [hexec] at honDb
  unfold insertFragment callStore
  rw [Client.run_txn, Txn.outcome, Txn.apply, honDb]
  rfl

/-- `remember` changes nothing, or a new version begins. -/
theorem run_remember {w : WritePath} {isId : String → Prop} (hw : w.KeepsLinks isId)
    {history : List String} (hids : ∀ id ∈ history, isId id) {agentId newId : String}
    (hnew : s.UnusedId py newId) (now : Int) (text : String) {o : RememberOptions}
    (ho : Metadata.Follows history o.metadata) :
    (∃ e, (remember py w agentId newId now text o).run s = (.error e, s)) ∨
      ∃ f : Fragment, f.version py = ⟨newId, agentId, history, none⟩ ∧
        (s.db.fragments.upsert f).rows = s.db.fragments.rows ++ [f] ∧
        (remember py w agentId newId now text o).run s =
          (.ok newId, s.withFragments (s.db.fragments.upsert f)) := by
  unfold remember
  rw [Client.run_bind, Client.run_ofExcept]
  cases hprepare : prepareMemory py w agentId newId now text o with
  | error e => exact .inl ⟨e, rfl⟩
  | ok f =>
      right
      have hversion := version_prepareMemory py hw hids ho hprepare
      have hid : f.id = newId := congrArg Version.id hversion
      subst hid
      have hnew' : ∀ g ∈ s.db.fragments.rows, g.id ≠ f.id := fun g hg => (hnew g hg).1
      exact ⟨f, hversion, rows_upsert_new hnew', run_insertFragment py hnew'⟩

/-- A row is stored again as another version of the same memory. -/
theorem versions_upsert (hf : f ∈ s.db.fragments.rows) {g : Fragment} (hid : g.id = f.id)
    {c : Version String String → Version String String} (hchange : g.version py = c (f.version py))
    (hothers : ∀ r ∈ s.db.fragments.rows, r.id ≠ f.id → c (r.version py) = r.version py) :
    (s.withFragments (s.db.fragments.upsert g)).versions py = (s.versions py).map c := by
  have hin : g.id ∈ s.db.fragments.rows.map Fragment.id := hid ▸ List.mem_map_of_mem hf
  unfold LocalStore.versions
  rw [LocalStore.withFragments_fragments, Table.rows_upsert, if_pos hin, List.map_map, List.map_map]
  refine List.map_congr_left fun r hr => ?_
  show (if r.id = g.id then g else r).version py = c (r.version py)
  by_cases hrid : r.id = g.id
  · rw [if_pos hrid, hchange, s.db.fragments.eq_of_key hr hf (hrid.trans hid)]
  · rw [if_neg hrid, hothers r hr fun h => hrid (h.trans hid.symm)]

end Writing

/-! ### One call -/

/-- No lineage forks, and the ids are such as the write path hands on. -/
structure LinkedVersions (py : Python) (isId : String → Prop) (s : LocalStore) : Prop where
  lineages : Lineages (s.versions py)
  ids : ∀ v ∈ s.versions py, ∀ id ∈ v.line, isId id

/-- Each memory that stays, when those with the ids go, names none of them as
its next version. -/
def LocalStore.Unlinked (py : Python) (s : LocalStore) (ids : List String) : Prop :=
  ∀ f ∈ s.db.fragments.rows, f.id ∉ ids → ∀ next ∈ f.supersededBy py, next ∉ ids

instance decidableUnlinked (py : Python) (s : LocalStore) (ids : List String) :
    Decidable (s.Unlinked py ids) := by
  unfold LocalStore.Unlinked
  infer_instance

section OneCall

variable {py : Python} {isId : String → Prop} {s s' : LocalStore} {agentId newId : String}
  {now : Int}

theorem linkedVersions_empty : LinkedVersions py isId .empty :=
  ⟨Lineages.nil, nofun⟩

theorem LinkedVersions.of_versions (h : LinkedVersions py isId s)
    (hsame : s'.versions py = s.versions py) : LinkedVersions py isId s' := by
  refine ⟨?_, fun v hv => ?_⟩
  · rw [hsame]
    exact h.lineages
  · rw [hsame] at hv
    exact h.ids v hv

theorem linked_remember {w : WritePath} (hw : w.KeepsLinks isId) (h : LinkedVersions py isId s)
    (hnew : s.UnusedId py newId) (hid : isId newId) (text : String) {o : RememberOptions}
    (ho : Metadata.Follows [] o.metadata) :
    LinkedVersions py isId ((remember py w agentId newId now text o).after s) := by
  unfold Client.after
  rcases run_remember hw (fun _ hin => absurd hin List.not_mem_nil) hnew now text ho with
    ⟨e, hrun⟩ | ⟨f, hversion, hrows, hrun⟩
  · rw [hrun]
    exact h
  · rw [hrun]
    have hversions : (s.withFragments (s.db.fragments.upsert f)).versions py =
        s.versions py ++ [⟨newId, agentId, [], none⟩] := by
      unfold LocalStore.versions
      rw [LocalStore.withFragments_fragments, hrows, List.map_append, List.map_singleton, hversion]
    refine ⟨?_, fun v hv => ?_⟩
    · rw [hversions]
      exact h.lineages.start hnew.fresh
    · rw [hversions, List.mem_append, List.mem_singleton] at hv
      rcases hv with hv | rfl
      · exact h.ids v hv
      · intro id hin
        exact List.mem_singleton.mp hin ▸ hid

/-- What the new version of a memory says about other versions. -/
theorem follows_revisedMetadata (old : Fragment) {given : Metadata}
    (hgiven : given.lookup "superseded_by" = none) :
    Metadata.Follows (old.history py ++ [old.id]) (revisedMetadata py old given) := by
  constructor
  · unfold revisedMetadata
    rw [lookup_update_of_none rfl, lookup_update_of_none hgiven, lookup_filter_of_false]
    intro value
    rfl
  · rw [if_neg (by simp)]
    exact lookup_assign_self _ _ _

theorem linked_supersede {w : WritePath} (hw : w.KeepsLinks isId) (h : LinkedVersions py isId s)
    (hnew : s.UnusedId py newId) (hid : isId newId) (hnonempty : newId ≠ "")
    (memoryId text : String) {o : ReviseOptions} (ho : o.metadata.lookup "superseded_by" = none) :
    LinkedVersions py isId ((supersede py w agentId newId now (s.db.fragments.rows.length + 1)
      memoryId text o).after s) := by
  unfold Client.after supersede
  rw [Client.run_bind, run_requireMemory]
  cases hfound : s.found agentId memoryId with
  | none => exact h
  | some required =>
      obtain ⟨hrequired, hagent⟩ := mem_of_found hfound
      obtain ⟨old, hold, hnewest, holdAgent, hcurrent⟩ := run_newest h.lineages hrequired hagent
      have hmem : old.version py ∈ s.versions py := List.mem_map_of_mem hold
      dsimp only
      rw [Client.run_bind, hnewest]
      dsimp only
      rw [Client.run_bind]
      rcases run_remember hw (h.ids _ hmem) hnew now text
        (o := revisedOptions py old o) (follows_revisedMetadata old ho) with
        ⟨e, hrun⟩ | ⟨f, hversion, hrows, hrun⟩
      · rw [hrun]
        exact h
      · rw [hrun]
        dsimp only
        generalize ht : s.withFragments (s.db.fragments.upsert f) = t
        have htrows : t.db.fragments.rows = s.db.fragments.rows ++ [f] := by
          rw [← ht]
          exact hrows
        have holdt : old ∈ t.db.fragments.rows := by
          rw [htrows]
          exact List.mem_append_left _ hold
        have hne : newId ≠ old.id := fun heq => (hnew old hold).1 heq.symm
        have hversions : (t.withFragments (t.db.fragments.upsert
              (old.supersededWith w now newId))).versions py =
            (s.versions py).map (revisedTo old.id newId) ++
              [⟨newId, agentId, (old.version py).line, none⟩] := by
          rw [versions_upsert holdt (g := old.supersededWith w now newId) rfl
            (c := revisedTo old.id newId) (version_supersededWith py w now old hnonempty)
            fun r _ hr => if_neg hr]
          unfold LocalStore.versions
          rw [htrows, List.map_append, List.map_append, List.map_singleton, List.map_singleton,
            hversion, revisedTo, if_neg hne]
        rw [Client.run_bind,
          run_rewriteFragment py holdt (g := old.supersededWith w now newId) rfl rfl]
        show LinkedVersions py isId (t.withFragments _)
        refine ⟨?_, fun v hv => ?_⟩
        · rw [hversions, ← holdAgent]
          exact h.lineages.revise hmem hcurrent hnew.fresh
        · rw [hversions, List.mem_append, List.mem_singleton] at hv
          rcases hv with hv | rfl
          · obtain ⟨u, hu, rfl⟩ := List.mem_map.mp hv
            rw [revisedTo_line]
            exact h.ids u hu
          · intro id hin
            rcases List.mem_append.mp hin with hin | hin
            · exact h.ids _ hmem id hin
            · exact List.mem_singleton.mp hin ▸ hid

/-- A row that is stored again as the same version. -/
theorem LinkedVersions.rewrite (h : LinkedVersions py isId s) {f g : Fragment}
    (hf : f ∈ s.db.fragments.rows) (hsame : g.version py = f.version py) :
    LinkedVersions py isId (s.withFragments (s.db.fragments.upsert g)) := by
  refine h.of_versions ?_
  rw [versions_upsert hf (congrArg Version.id hsame) (c := id) hsame fun _ _ _ => rfl,
    List.map_id]

theorem linked_resolve (w : WritePath) (h : LinkedVersions py isId s) (memoryId : String)
    (note : Option String) :
    LinkedVersions py isId ((resolve py w agentId now (s.db.fragments.rows.length + 1) memoryId
      note).after s) := by
  unfold Client.after resolve
  rw [Client.run_bind, run_requireMemory]
  cases hfound : s.found agentId memoryId with
  | none => exact h
  | some required =>
      obtain ⟨hrequired, hagent⟩ := mem_of_found hfound
      obtain ⟨f, hf, hnewest, -⟩ := run_newest h.lineages hrequired hagent
      dsimp only
      split
      · exact h
      · rw [Client.run_bind, hnewest]
        dsimp only
        split
        · exact h
        · split
          · rw [Client.run_bind,
              run_rewriteFragment py hf (g := f.resolvedWith w now note) rfl rfl]
            exact h.rewrite hf (version_resolvedWith py w now f note)
          · exact h

theorem linked_promote (h : LinkedVersions py isId s) (memoryId : String) :
    LinkedVersions py isId ((promote py now memoryId).after s) := by
  unfold Client.after promote
  rw [Client.run_bind, Client.run_read]
  dsimp only
  cases hget : s.get memoryId with
  | none => exact h
  | some f =>
      obtain ⟨hf, -⟩ := Table.find?_eq_some_iff.mp hget
      have hsame := version_promotedOnce py now f
      have hid : f.id = (f.promotedOnce now).id := (congrArg Version.id hsame).symm
      have hagent : f.agentId = (f.promotedOnce now).agentId := (congrArg Version.owner hsame).symm
      show LinkedVersions py isId ((rewriteFragment py (f.promotedOnce now)).run s).2
      rw [run_rewriteFragment py hf hid hagent]
      exact h.rewrite hf hsame

/-- Memories that no other one links to are removed. -/
theorem LinkedVersions.remove (h : LinkedVersions py isId s) {ids : List String}
    (hunlinked : s.Unlinked py ids)
    (hrows : s'.db.fragments.rows = s.db.fragments.rows.filter fun r => !ids.contains r.id) :
    LinkedVersions py isId s' := by
  have hversions : s'.versions py = (s.versions py).filter fun v => !ids.contains v.id := by
    unfold LocalStore.versions
    rw [hrows, List.filter_map]
    rfl
  refine ⟨?_, fun v hv => ?_⟩
  · rw [hversions]
    refine h.lineages.remove fun v hv hstays u hu hnext => ?_
    obtain ⟨f, hf, rfl⟩ := List.mem_map.mp hv
    have hnot : f.id ∉ ids := by simpa [Fragment.version] using hstays
    simpa using hunlinked f hf hnot u.id hnext
  · rw [hversions] at hv
    exact h.ids v (List.mem_filter.mp hv).1

theorem linked_forget (h : LinkedVersions py isId s) (memoryId : String) (secure : Bool)
    (hunlinked : ∀ f ∈ s.found agentId memoryId, s.Unlinked py [f.id]) :
    LinkedVersions py isId ((forget agentId now memoryId secure).after s) := by
  unfold Client.after forget
  rw [Client.run_bind, run_facadeGet]
  cases hfound : s.found agentId memoryId with
  | none => exact h
  | some f =>
      obtain ⟨b, t, hrun, hdelete⟩ := run_callForget now f.id secure s
      dsimp only
      rw [Client.run_bind, hrun]
      refine h.remove (hunlinked f hfound) ?_
      show t.db.fragments.rows = _
      rw [hdelete, Table.rows_delete]
      refine List.filter_congr fun r _ => ?_
      simp

end OneCall

/-- What `forget(match=...)` forgets: nothing when there are too many. -/
def LocalStore.matched (s : LocalStore)
    (matchPattern : String → Except MemoryError (String → Bool)) (agentId text : String)
    (all : Bool) : List String :=
  match matchPattern text with
  | .error _ => []
  | .ok search =>
      let found := (s.pageFragments agentId).filter fun f => search f.content
      if forgetMatchCap < found.length && !all then [] else found.map Fragment.id

theorem linked_forgetMatching {py : Python} {isId : String → Prop} {s : LocalStore}
    (matchPattern : String → Except MemoryError (String → Bool)) {agentId : String} {now : Int}
    (h : LinkedVersions py isId s) (text : String) (secure all : Bool)
    (hunlinked : s.Unlinked py (s.matched matchPattern agentId text all)) :
    LinkedVersions py isId
      ((forgetMatching py matchPattern agentId now text secure all).after s) := by
  unfold LocalStore.matched at hunlinked
  unfold Client.after forgetMatching
  rw [Client.run_bind, Client.run_read]
  dsimp only
  rw [Client.run_bind, Client.run_ofExcept]
  cases hpattern : matchPattern text with
  | error e => exact h
  | ok search =>
      rw [hpattern] at hunlinked
      dsimp only at hunlinked ⊢
      split
      · exact h
      · rename_i hcap
        rw [if_neg hcap] at hunlinked
        obtain ⟨bs, t, hrun, hrows⟩ := run_forMap_callForget now
          (((s.pageFragments agentId).filter fun f => search f.content).map Fragment.id) secure s
        rw [Client.run_bind, hrun]
        exact h.remove hunlinked hrows

/-! ### Runs -/

/-- What every store with sound lineages looks like: each lineage has one
current version, links lead on inside the lineage and never back, and the
history of the current version lists the other versions that are left, the
oldest first. -/
structure SoundLineages (vs : List (Version String String)) : Prop where
  current : ∀ v ∈ vs, ∃! c, c ∈ vs ∧ c.root = v.root ∧ c.next = none
  links : ∀ v ∈ vs, ∀ next, v.next = some next → ∃ w ∈ vs, w.id = next ∧ w.root = v.root
  acyclic : ∀ v, ¬ Relation.TransGen (Version.Leads vs) v v
  distinct : ∀ c ∈ vs, c.next = none → c.history.Nodup
  predecessors : ∀ c ∈ vs, c.next = none → ∀ v ∈ vs,
    v.id ∈ c.history ↔ v.root = c.root ∧ v.id ≠ c.id
  oldestFirst : ∀ c ∈ vs, c.next = none → c.history.Pairwise fun id id' =>
    ∀ v ∈ vs, v.id = id → ∀ w ∈ vs, w.id = id' → Relation.TransGen (Version.Leads vs) v w

theorem soundLineages {vs : List (Version String String)} (h : Lineages vs) : SoundLineages vs where
  current := by
    intro v hv
    obtain ⟨c, hc, hroot, hlast⟩ := h.exists_last hv
    refine ⟨c, ⟨hc, hroot, hlast⟩, ?_⟩
    rintro d ⟨hd, hdroot, hdlast⟩
    exact h.last_unique hd hc (hdroot.trans hroot.symm) hdlast hlast
  links := fun v hv next hnext => h.next_root hv hnext
  acyclic := h.acyclic
  distinct := fun c hc _ => (h.nodup c hc).sublist c.history_prefix_line.sublist
  predecessors := fun c hc hlast v hv => h.mem_history_iff hv hc hlast
  oldestFirst := fun c hc _ => h.oldest_first hc

/-- New ids are unused, no caller writes the links itself, and what is
forgotten is not the next version of a memory that stays. -/
def RevisionCall.KeepsLineages (py : Python) (isId : String → Prop)
    (matchPattern : String → Except MemoryError (String → Bool)) :
    String × Int × RevisionCall → LocalStore → Prop
  | (_, _, .call (.remember newId _ o)), s =>
      s.UnusedId py newId ∧ isId newId ∧ o.metadata.lookup "superseded_by" = none ∧
        o.metadata.lookup "history" = none
  | (_, _, .call (.supersede newId _ _ o)), s =>
      s.UnusedId py newId ∧ isId newId ∧ newId ≠ "" ∧ o.metadata.lookup "superseded_by" = none
  | (agentId, _, .call (.forget memoryId _)), s =>
      ∀ f ∈ s.found agentId memoryId, s.Unlinked py [f.id]
  | (agentId, _, .forgetMatching text _ all), s =>
      s.Unlinked py (s.matched matchPattern agentId text all)
  | (_, _, .call (.resolve _ _)), _ => True
  | (_, _, .call (.promote _)), _ => True

instance decidableKeepsLineages (py : Python) (isId : String → Prop) [DecidablePred isId]
    (matchPattern : String → Except MemoryError (String → Bool)) :
    (call : String × Int × RevisionCall) → (s : LocalStore) →
      Decidable (RevisionCall.KeepsLineages py isId matchPattern call s)
  | (_, _, .call (.remember newId _ o)), s =>
      inferInstanceAs (Decidable (s.UnusedId py newId ∧ isId newId ∧
        o.metadata.lookup "superseded_by" = none ∧ o.metadata.lookup "history" = none))
  | (_, _, .call (.supersede newId _ _ o)), s =>
      inferInstanceAs (Decidable (s.UnusedId py newId ∧ isId newId ∧ newId ≠ "" ∧
        o.metadata.lookup "superseded_by" = none))
  | (agentId, _, .call (.forget memoryId _)), s =>
      inferInstanceAs (Decidable (∀ f ∈ s.found agentId memoryId, s.Unlinked py [f.id]))
  | (agentId, _, .forgetMatching text _ all), s =>
      inferInstanceAs (Decidable (s.Unlinked py (s.matched matchPattern agentId text all)))
  | (_, _, .call (.resolve _ _)), _ => isTrue trivial
  | (_, _, .call (.promote _)), _ => isTrue trivial

section Runs

variable {py : Python} {w : WritePath} {isId : String → Prop}
  {matchPattern : String → Except MemoryError (String → Bool)}

theorem linked_step (hw : w.KeepsLinks isId) (call : String × Int × RevisionCall)
    (s : LocalStore) (h : LinkedVersions py isId s)
    (hcall : RevisionCall.KeepsLineages py isId matchPattern call s) :
    LinkedVersions py isId (RevisionCall.step py w matchPattern call s) := by
  obtain ⟨agentId, now, c⟩ := call
  cases c with
  | forgetMatching text secure all => exact linked_forgetMatching matchPattern h text secure all hcall
  | call c =>
      cases c with
      | remember newId text o =>
          obtain ⟨hnew, hid, hlink, hhistory⟩ := hcall
          exact linked_remember hw h hnew hid text ⟨hlink, hhistory⟩
      | supersede newId memoryId text o =>
          obtain ⟨hnew, hid, hnonempty, hlink⟩ := hcall
          exact linked_supersede hw h hnew hid hnonempty memoryId text hlink
      | resolve memoryId note => exact linked_resolve w h memoryId note
      | forget memoryId secure => exact linked_forget h memoryId secure hcall
      | promote memoryId => exact linked_promote h memoryId

/-- As long as no call forgets the next version of a memory that stays, the
lineages are sound in every state. -/
theorem lineages_stay_sound (hw : w.KeepsLinks isId) {calls done : List (String × Int × RevisionCall)}
    (hcalls : Along (RevisionCall.step py w matchPattern)
      (RevisionCall.KeepsLineages py isId matchPattern) calls .empty)
    (hdone : done <+: calls) :
    SoundLineages ((run (RevisionCall.step py w matchPattern) done .empty).versions py) :=
  soundLineages (hcalls.invariant_within (linked_step hw) linkedVersions_empty hdone).lineages

end Runs

/-- A pattern of one plain word. -/
def wordPattern (text : String) : Except MemoryError (String → Bool) :=
  .ok fun content => (pySplit content).contains text

/-- The port changes twice; the second call names the first version. Then the
first two versions are forgotten, the older one first. -/
def forgottenInOrder : List (String × Int × RevisionCall) :=
  [("a", 1, .call (.remember "m0" "the port is 8080" {})),
    ("a", 2, .call (.supersede "m1" "m0" "the port is 8081" {})),
    ("a", 3, .call (.supersede "m2" "m0" "the port is 8082" {})),
    ("a", 4, .call (.forget "m0" false)),
    ("a", 5, .forgetMatching "8081" false false)]

theorem lineages_stay_sound_in_order :
    SoundLineages ((run (RevisionCall.step .basic .plain wordPattern) forgottenInOrder
      .empty).versions .basic) := by
  have hplain : WritePath.plain.KeepsLinks fun _ => True := by
    constructor
    · intro d d' h history _ hfollows
      cases h
      exact hfollows
    · intro content metadata tags decision h history _ hfollows
      cases h
      exact hfollows
  exact lineages_stay_sound hplain (by decide +kernel) (List.prefix_refl _)

/-- The second of three versions is forgotten, and the first one revised. -/
def forgottenBetween : List (String × Int × RevisionCall) :=
  [("a", 1, .call (.remember "m0" "the port is 8080" {})),
    ("a", 2, .call (.supersede "m1" "m0" "the port is 8081" {})),
    ("a", 3, .call (.supersede "m2" "m1" "the port is 8082" {})),
    ("a", 4, .call (.forget "m1" false)),
    ("a", 5, .call (.supersede "m3" "m0" "the port is 8083" {}))]

/-- Then the lineage has two current versions. -/
theorem lineage_forks :
    ¬ ∀ (py : Python) (w : WritePath)
        (matchPattern : String → Except MemoryError (String → Bool))
        (calls : List (String × Int × RevisionCall)),
      SoundLineages ((run (RevisionCall.step py w matchPattern) calls .empty).versions py) := by
  intro hsound
  have hcurrent := (hsound .basic .plain wordPattern forgottenBetween).current
  have hversions : (run (RevisionCall.step .basic .plain wordPattern) forgottenBetween
      .empty).versions .basic =
      [⟨"m0", "a", [], some "m3"⟩, ⟨"m2", "a", ["m0", "m1"], none⟩, ⟨"m3", "a", ["m0"], none⟩] := by
    decide +kernel
  rw [hversions] at hcurrent
  obtain ⟨c, -, hunique⟩ := hcurrent ⟨"m0", "a", [], some "m3"⟩ (by simp)
  have hsecond := hunique ⟨"m2", "a", ["m0", "m1"], none⟩ (by simp [Version.root])
  have hthird := hunique ⟨"m3", "a", ["m0"], none⟩ (by simp [Version.root])
  have hid := congrArg Version.id (hsecond.trans hthird.symm)
  simp at hid

end MarkSdk
