import MarkSdk.Memory.Lineages

/-!
The command `supersede` and its retries after the server has died.

The server stores the new memory and retires the old one, each with a write of
its own, and may die before, between and after them. The client then finishes
the command itself, unless it finds a memory with the text that was written
since it sent the request: that one it takes for the result. It is the right one
when the clock, the stored text and the other memories allow no mistake
(`finds_of_recognised`).
-/

namespace MarkSdk

open Lib

/-! ### The command -/

def fullId (py : Python) (agent memoryId : String) : MemoryClient String := do
  let found ← Client.read fun s : LocalStore =>
    if strip memoryId = "" then [] else s.idsWithPrefix agent (strip memoryId) 2
  match found with
  | [id] => return id
  | [] =>
      Client.raise (.valueError ("no memory with id " ++ py.repr (strip memoryId) ++ " in agent " ++
        py.repr agent))
  | _ =>
      Client.raise (.valueError ("id " ++ py.repr (strip memoryId) ++
        " is ambiguous; give more characters"))

def currentVersion (py : Python) (agent : String) (fuel : Nat) (memoryId : String) :
    MemoryClient String := do
  let required ← requireMemory agent memoryId
  let newest ← newest py agent fuel required
  return newest.id

/-- What the command `supersede` answers. -/
structure SupersedeReply where
  id : String
  superseded : String
  followedFrom : Option String
  deriving DecidableEq, Repr

def cmdSupersede (py : Python) (w : WritePath) (newId : String) (now : Int) (fuel : Nat)
    (agent id text : String) : MemoryClient SupersedeReply := do
  let asked ← fullId py agent id
  let old ← currentVersion py agent fuel asked
  let newId ← supersede py w agent newId now fuel old text {}
  return ⟨newId, old, if old = asked then none else some asked⟩

/-! ### The retry -/

/-- The length of a placeholder of the redaction at the start of the text. -/
def placeholderLength : List Char → Option Nat
  | '[' :: body =>
      let closed (word : List Char) (more : Char → Bool) (least : Nat) : Option Nat :=
        let rest := (body.drop word.length).takeWhile more
        if word.isPrefixOf body && least ≤ rest.length &&
            (body.drop (word.length + rest.length)).head? = some ']' then
          some (word.length + rest.length + 2)
        else none
      (closed "SECRET:".toList (fun c => c.isLower || c.isDigit || c = '_') 1).or
        ((closed "REDACTED".toList (fun c => c.isUpper || c = '_') 0).or
          (["EMAIL", "PHONE", "IBAN", "SSN", "CC"].findSome? fun word =>
            closed word.toList (fun _ => false) 0))
  | _ => none

/-- `PLACEHOLDER_RE.split`, with the characters of a placeholder that are left
to skip and the part that is being read. -/
def splitPlaceholders : Nat → List Char → List Char → List (List Char)
  | _, part, [] => [part.reverse]
  | skip + 1, part, _ :: text => splitPlaceholders skip part text
  | 0, part, c :: text =>
      match placeholderLength (c :: text) with
      | some length => part.reverse :: splitPlaceholders (length - 1) [] text
      | none => splitPlaceholders 0 (c :: part) text

/-- `re.fullmatch(".+?".join(parts), text)` -/
def matchesParts : List (List Char) → List Char → Bool
  | [], text => text.isEmpty
  | [part], text => part = text
  | part :: parts, text =>
      part.isPrefixOf text && (text.drop (part.length + 1)).tails.any (matchesParts parts) &&
        part.length < text.length

/-- The stored text is the wanted one, up to blanks and to what redaction has
taken out. -/
def duplicates (wanted stored : String) : Bool :=
  let stored := joinWords (pySplit stored)
  let parts := splitPlaceholders 0 [] stored.toList
  stored = wanted || (1 < parts.length && matchesParts parts wanted.toList)

/-- `recent_duplicate`: among the newest 64 rows. -/
def LocalStore.recentDuplicate (s : LocalStore) (agentId text : String) (since : Int) :
    Option String :=
  ((((s.db.fragments.rows.reverse.filter fun f => f.agentId = agentId && since ≤ f.updatedAt).take
    64).find? fun f => duplicates (joinWords (pySplit text)) f.content)).map Fragment.id

/-- A command `supersede`, sent at a time. -/
structure SupersedeCommand where
  agent : String
  id : String
  text : String
  since : Int

/-- One attempt at it, with the id and the time that a new memory gets. -/
structure Attempt where
  newId : String
  now : Int

/-- The server, and after it `_run_local` of the client with `_already_applied`. -/
def SupersedeCommand.attempt (py : Python) (w : WritePath) (c : SupersedeCommand) (retrying : Bool)
    (a : Attempt) (fuel : Nat) : MemoryClient SupersedeReply :=
  if retrying then do
    match ← Client.read fun s => s.recentDuplicate c.agent c.text c.since with
    | some found => return ⟨found, c.id, none⟩
    | none => cmdSupersede py w a.newId a.now fuel c.agent c.id c.text
  else cmdSupersede py w a.newId a.now fuel c.agent c.id c.text

/-- How far the attempts have got: whether one has died, how many writes they
have made, and the store. -/
structure AttemptsMade where
  retrying : Bool
  writes : Nat
  store : LocalStore

/-- The next attempt, from here. The links can be followed for as long as
there are rows. -/
def SupersedeCommand.next (py : Python) (w : WritePath) (c : SupersedeCommand) (a : Attempt)
    (m : AttemptsMade) : MemoryClient SupersedeReply :=
  c.attempt py w m.retrying a (m.store.db.fragments.rows.length + 1)

/-- An attempt dies after some reads and writes. -/
def SupersedeCommand.die (py : Python) (w : WritePath) (c : SupersedeCommand)
    (death : Attempt × Nat) (m : AttemptsMade) : AttemptsMade where
  retrying := true
  writes := m.writes + ((c.next py w death.1 m).killed death.2 m.store).1
  store := ((c.next py w death.1 m).killed death.2 m.store).2

/-! ### What is promised -/

/-- The memory that the command replaces: what is read before the first write. -/
def commandTarget (py : Python) (agent : String) (fuel : Nat) (id : String) :
    MemoryClient Fragment := do
  let asked ← fullId py agent id
  let old ← currentVersion py agent fuel asked
  let required ← requireMemory agent old
  newest py agent fuel required

def LocalStore.replacedBy (py : Python) (s : LocalStore) (c : SupersedeCommand) : Option Fragment :=
  match ((commandTarget py c.agent (s.db.fragments.rows.length + 1) c.id).run s).1 with
  | .ok old => some old
  | .error _ => none

def newContent (py : Python) (w : WritePath) (c : SupersedeCommand) (old : Fragment) :
    Option String :=
  match prepareMemory py w c.agent "" 0 c.text (revisedOptions py old {}) with
  | .ok f => some f.content
  | .error _ => none

/-- Of the agent's memories with the new content one is current, and the old
memory is superseded by it. -/
structure SupersededOnce (py : Python) (c : SupersedeCommand) (old : Fragment) (content : String)
    (new : Fragment) (s : LocalStore) : Prop where
  stored : new ∈ s.db.fragments.rows
  agent : new.agentId = c.agent
  content_eq : new.content = content
  current : new.supersededBy py = none
  only : ∀ f ∈ s.db.fragments.rows, f.agentId = c.agent → f.content = content →
    f.supersededBy py = none → f = new
  retired : ∃ f ∈ s.db.fragments.rows, f.id = old.id ∧ f.supersededBy py = some new.id ∧
    tagSuperseded ∈ f.tags

/-! ### What is read before the first write -/

section Reading

variable {py : Python} {s t : LocalStore} {agent : String} {f g : Fragment}

theorem quiet_facadeGet (agent memoryId : String) : (facadeGet agent memoryId).Quiet := by
  refine Client.quiet_bind (Client.quiet_read _) fun found => ?_
  split
  · refine Client.quiet_bind (Client.quiet_read _) fun ids => ?_
    split
    · exact Client.quiet_bind (Client.quiet_read _) fun _ => trivial
    · trivial
  · trivial

theorem quiet_requireMemory (agent memoryId : String) : (requireMemory agent memoryId).Quiet := by
  refine Client.quiet_bind (quiet_facadeGet agent memoryId) fun found => ?_
  cases found <;> trivial

theorem quiet_newestFrom (py : Python) (agent : String) (fuel : Nat) (seen : List String)
    (f : Fragment) : (newestFrom py agent fuel seen f).Quiet := by
  induction fuel generalizing seen f with
  | zero => trivial
  | succ fuel ih =>
      unfold newestFrom
      split
      · trivial
      · split
        · trivial
        · refine Client.quiet_bind (quiet_facadeGet agent _) fun newer => ?_
          cases newer with
          | none => trivial
          | some newer => exact ih _ newer

theorem quiet_fullId (py : Python) (agent memoryId : String) : (fullId py agent memoryId).Quiet := by
  refine Client.quiet_bind (Client.quiet_read _) fun found => ?_
  split <;> trivial

theorem quiet_currentVersion (py : Python) (agent : String) (fuel : Nat) (memoryId : String) :
    (currentVersion py agent fuel memoryId).Quiet :=
  Client.quiet_bind (quiet_requireMemory agent memoryId) fun required =>
    Client.quiet_bind (quiet_newestFrom py agent fuel [required.id] required) fun _ => trivial

theorem mem_of_newestFrom {fuel : Nat} {seen : List String} (hf : f ∈ s.db.fragments.rows)
    (hagent : f.agentId = agent) (h : (newestFrom py agent fuel seen f).run s = (.ok g, t)) :
    g ∈ s.db.fragments.rows ∧ g.agentId = agent := by
  induction fuel generalizing seen f with
  | zero => cases (Prod.mk.inj h).1
  | succ fuel ih =>
      unfold newestFrom at h
      split at h
      · obtain rfl := Except.ok.inj (Prod.mk.inj h).1
        exact ⟨hf, hagent⟩
      · split at h
        · obtain rfl := Except.ok.inj (Prod.mk.inj h).1
          exact ⟨hf, hagent⟩
        · rename_i next _ _
          rw [Client.run_bind, run_facadeGet] at h
          cases hfound : s.found agent next with
          | none =>
              rw [hfound] at h
              obtain rfl := Except.ok.inj (Prod.mk.inj h).1
              exact ⟨hf, hagent⟩
          | some newer =>
              rw [hfound] at h
              obtain ⟨hnewer, hnewerAgent⟩ := mem_of_found hfound
              exact ih hnewer hnewerAgent h

theorem mem_of_requireMemory {memoryId : String}
    (h : (requireMemory agent memoryId).run s = (.ok f, t)) :
    f ∈ s.db.fragments.rows ∧ f.agentId = agent := by
  rw [run_requireMemory] at h
  cases hfound : s.found agent memoryId with
  | none =>
      rw [hfound] at h
      cases (Prod.mk.inj h).1
  | some required =>
      rw [hfound] at h
      obtain rfl := Except.ok.inj (Prod.mk.inj h).1
      exact mem_of_found hfound

theorem replacedBy_eq {c : SupersedeCommand} {asked old : String} {required : Fragment}
    (hasked : (fullId py c.agent c.id).run s = (.ok asked, s))
    (hcurrent : (currentVersion py c.agent (s.db.fragments.rows.length + 1) asked).run s =
      (.ok old, s))
    (hrequired : (requireMemory c.agent old).run s = (.ok required, s))
    (hnewest : (newest py c.agent (s.db.fragments.rows.length + 1) required).run s = (.ok f, s)) :
    s.replacedBy py c = some f := by
  unfold LocalStore.replacedBy commandTarget
  rw [Client.run_bind, hasked]
  dsimp only
  rw [Client.run_bind, hcurrent]
  dsimp only
  rw [Client.run_bind, hrequired]
  dsimp only
  rw [hnewest]

end Reading

/-! ### The two writes -/

/-- The store with the new version and the retired old one. -/
def LocalStore.revisedWith (s : LocalStore) (new retired : Fragment) : LocalStore :=
  (s.withFragments (s.db.fragments.upsert new)).withFragments
    ((s.db.fragments.upsert new).upsert retired)

/-- `supersede` from the first write on. -/
def storeRevision (py : Python) (w : WritePath) (agent newId : String) (now : Int) (text : String)
    (old : Fragment) : MemoryClient String := do
  let newId ← remember py w agent newId now text (revisedOptions py old {})
  rewriteFragment py (old.supersededWith w now newId)
  return newId

section Writes

variable {py : Python} {w : WritePath} {s s' : LocalStore} {agent newId text : String} {now : Int}
  {old : Fragment}

theorem writes_insertFragment (py : Python) {f : Fragment}
    (hnew : ∀ g ∈ s.db.fragments.rows, g.id ≠ f.id) : (insertFragment py f).writes s = 1 := by
  have hfind : s.db.fragments.find? f.id = none := Table.find?_eq_none_iff.mpr hnew
  show (Client.txn _ (onDb (if (s.db.fragments.find? f.id).any _ = true then _ else _))).writes s = 1
  rw [hfind]
  rfl

theorem writes_rewriteFragment (py : Python) {f g : Fragment} (hf : f ∈ s.db.fragments.rows)
    (hid : f.id = g.id) (hagent : f.agentId = g.agentId) : (rewriteFragment py g).writes s = 1 := by
  have hfind : s.db.fragments.find? g.id = some f := Table.find?_eq_some_iff.mpr ⟨hf, hid⟩
  have hsame : ((some f).any fun row => row.agentId ≠ g.agentId) = false := by simp [hagent]
  show ((Client.txn _ (onDb (if (s.db.fragments.find? g.id).any _ = true then _ else _))) >>=
    fun _ => pure ()).writes s = 1
  rw [hfind, hsame]
  rfl

theorem dies_rewriteFragment {f g : Fragment} (hf : f ∈ s.db.fragments.rows) (hid : f.id = g.id)
    (hagent : f.agentId = g.agentId) {r : Nat × LocalStore} (h : (rewriteFragment py g).Dies s r) :
    r = (0, s) ∨ r = (1, s.withFragments (s.db.fragments.upsert g)) := by
  have hrun := run_rewriteFragment py hf hid hagent
  unfold rewriteFragment at h hrun
  obtain ⟨a, t, hfirst, hrest⟩ := Client.run_bind_eq_ok hrun
  obtain ⟨-, rfl⟩ := Prod.mk.inj hrest
  rcases Client.dies_bind h with hkilled | ⟨a', t', r', hrun', hafter, rfl⟩
  · rcases Client.dies_txn hkilled with rfl | rfl
    · exact .inl rfl
    · right
      show (1, ((callStore (.rewrite g.id) (store py g)).run s).2) = _
      rw [hfirst]
  · right
    have hwrites := writes_rewriteFragment py hf hid hagent
    unfold rewriteFragment at hwrites
    rw [Client.writes_bind hfirst] at hwrites
    rw [hfirst] at hrun'
    obtain ⟨-, rfl⟩ := Prod.mk.inj hrun'
    obtain rfl : r' = (0, _) := hafter
    exact congrArg (fun n => (n, _)) hwrites

theorem id_prepareMemory {o : RememberOptions} {f : Fragment}
    (h : prepareMemory py w agent newId now text o = .ok f) :
    f.id = newId ∧ f.agentId = agent := by
  have hany : Handed w fun _ => True :=
    ⟨fun _ _ _ _ => trivial, fun _ _ _ _ _ _ => trivial, fun _ _ _ _ _ => trivial⟩
  obtain ⟨hid, hagent, -⟩ := hany.prepareMemory trivial h
  exact ⟨hid, hagent⟩

/-- Killed before the new version is stored, between the two writes, or after
them. -/
theorem dies_storeRevision (hnew : ∀ g ∈ s.db.fragments.rows, g.id ≠ newId)
    (hold : old ∈ s.db.fragments.rows) {r : Nat × LocalStore}
    (h : (storeRevision py w agent newId now text old).Dies s r) :
    r = (0, s) ∨ r.1 = 1 ∨ ∃ f, prepareMemory py w agent newId now text (revisedOptions py old {}) =
      .ok f ∧ r = (2, s.revisedWith f (old.supersededWith w now f.id)) := by
  unfold storeRevision at h
  rcases Client.dies_bind h with hremember | ⟨id, t, r', hrun, hrest, rfl⟩
  · unfold remember at hremember
    rcases (Client.quiet_ofExcept _).dies_bind hremember with rfl | ⟨f, -, hinsert⟩
    · exact .inl rfl
    · rcases Client.dies_txn hinsert with rfl | rfl
      · exact .inl rfl
      · exact .inr (.inl rfl)
  · -- the new version is stored
    unfold remember at hrun
    obtain ⟨f, hchecked, hinsert⟩ := (Client.quiet_ofExcept _).run_bind_eq_ok hrun
    have hprepare := (Prod.mk.inj ((Client.run_ofExcept _ _).symm.trans hchecked)).1
    have hfnew : ∀ g ∈ s.db.fragments.rows, g.id ≠ f.id := by
      rw [(id_prepareMemory hprepare).1]
      exact hnew
    have hwrites : (remember py w agent newId now text (revisedOptions py old {})).writes s = 1 := by
      unfold remember
      rw [Client.writes_bind hchecked, (Client.quiet_ofExcept _).writes, writes_insertFragment py hfnew]
    rw [run_insertFragment py hfnew] at hinsert
    obtain ⟨hfid, rfl⟩ := Prod.mk.inj hinsert
    obtain rfl := Except.ok.inj hfid
    have holdt : old ∈ (s.withFragments (s.db.fragments.upsert f)).db.fragments.rows := by
      rw [LocalStore.withFragments_fragments, rows_upsert_new hfnew]
      exact List.mem_append_left _ hold
    rw [hwrites]
    rcases Client.dies_bind hrest with hkilled | ⟨a, t', r'', hrun', hafter, rfl⟩
    · rcases dies_rewriteFragment holdt (g := old.supersededWith w now f.id) rfl rfl hkilled with
        rfl | rfl
      · exact .inr (.inl rfl)
      · exact .inr (.inr ⟨f, hprepare, rfl⟩)
    · have hrewrite := run_rewriteFragment py holdt (g := old.supersededWith w now f.id) rfl rfl
      rw [hrewrite] at hrun'
      obtain ⟨-, rfl⟩ := Prod.mk.inj hrun'
      obtain rfl : r'' = (0, _) := hafter
      rw [writes_rewriteFragment py holdt (g := old.supersededWith w now f.id) rfl rfl]
      exact .inr (.inr ⟨f, hprepare, rfl⟩)

/-- Alone it makes both writes. -/
theorem run_storeRevision (hnew : ∀ g ∈ s.db.fragments.rows, g.id ≠ newId)
    (hold : old ∈ s.db.fragments.rows) {id : String}
    (h : (storeRevision py w agent newId now text old).run s = (.ok id, s')) :
    ∃ f, prepareMemory py w agent newId now text (revisedOptions py old {}) = .ok f ∧
      s' = s.revisedWith f (old.supersededWith w now f.id) := by
  unfold storeRevision at h
  obtain ⟨newId', t, hremember, hrest⟩ := Client.run_bind_eq_ok h
  unfold remember at hremember
  obtain ⟨f, hchecked, hinsert⟩ := (Client.quiet_ofExcept _).run_bind_eq_ok hremember
  have hprepare := (Prod.mk.inj ((Client.run_ofExcept _ _).symm.trans hchecked)).1
  have hfnew : ∀ g ∈ s.db.fragments.rows, g.id ≠ f.id := by
    rw [(id_prepareMemory hprepare).1]
    exact hnew
  rw [run_insertFragment py hfnew] at hinsert
  obtain ⟨hfid, rfl⟩ := Prod.mk.inj hinsert
  obtain rfl := Except.ok.inj hfid
  have holdt : old ∈ (s.withFragments (s.db.fragments.upsert f)).db.fragments.rows := by
    rw [LocalStore.withFragments_fragments, rows_upsert_new hfnew]
    exact List.mem_append_left _ hold
  obtain ⟨_, u, hrewrite, hend⟩ := Client.run_bind_eq_ok hrest
  rw [run_rewriteFragment py holdt (g := old.supersededWith w now f.id) rfl rfl] at hrewrite
  obtain ⟨-, rfl⟩ := Prod.mk.inj hrewrite
  obtain ⟨-, rfl⟩ := Prod.mk.inj hend
  exact ⟨f, hprepare, rfl⟩

end Writes

/-! ### One attempt -/

section OneAttempt

variable {py : Python} {w : WritePath} {c : SupersedeCommand} {a : Attempt} {s s' : LocalStore}

/-- The memory that the command replaces is one of the agent's. -/
theorem mem_of_replacedBy {old : Fragment} (h : s.replacedBy py c = some old) :
    old ∈ s.db.fragments.rows ∧ old.agentId = c.agent := by
  unfold LocalStore.replacedBy commandTarget at h
  split at h
  · rename_i old' hresult
    obtain rfl := Option.some.inj h
    generalize hrun : Client.run _ s = result at hresult
    obtain ⟨r, t⟩ := result
    obtain rfl : r = .ok old' := hresult
    obtain ⟨asked, -, hrun⟩ := (quiet_fullId _ _ _).run_bind_eq_ok hrun
    obtain ⟨current, -, hrun⟩ := (quiet_currentVersion _ _ _ _).run_bind_eq_ok hrun
    obtain ⟨required, hrequired, hrun⟩ := (quiet_requireMemory _ _).run_bind_eq_ok hrun
    obtain ⟨hmem, hagent⟩ := mem_of_requireMemory hrequired
    exact mem_of_newestFrom hmem hagent hrun
  · cases h

/-- What both writes of an attempt leave. -/
def Applied (py : Python) (w : WritePath) (c : SupersedeCommand) (a : Attempt)
    (s s' : LocalStore) : Prop :=
  ∃ old f, s.replacedBy py c = some old ∧
    prepareMemory py w c.agent a.newId a.now c.text (revisedOptions py old {}) = .ok f ∧
    s' = s.revisedWith f (old.supersededWith w a.now f.id)

theorem dies_cmdSupersede (hnew : ∀ g ∈ s.db.fragments.rows, g.id ≠ a.newId) {r : Nat × LocalStore}
    (h : (cmdSupersede py w a.newId a.now (s.db.fragments.rows.length + 1) c.agent c.id
      c.text).Dies s r) :
    r = (0, s) ∨ r.1 = 1 ∨ (r.1 = 2 ∧ Applied py w c a s r.2) := by
  unfold cmdSupersede at h
  rcases (quiet_fullId _ _ _).dies_bind h with rfl | ⟨asked, hasked, h⟩
  · exact .inl rfl
  rcases (quiet_currentVersion _ _ _ _).dies_bind h with rfl | ⟨current, hcurrent, h⟩
  · exact .inl rfl
  replace h := Client.dies_bind_pure h
  unfold supersede at h
  rcases (quiet_requireMemory _ _).dies_bind h with rfl | ⟨required, hrequired, h⟩
  · exact .inl rfl
  rcases (quiet_newestFrom _ _ _ _ _).dies_bind h with rfl | ⟨old, hnewest, h⟩
  · exact .inl rfl
  have hold := replacedBy_eq hasked hcurrent hrequired hnewest
  rcases dies_storeRevision hnew (mem_of_replacedBy hold).1 h with rfl | hone | ⟨f, hf, rfl⟩
  · exact .inl rfl
  · exact .inr (.inl hone)
  · exact .inr (.inr ⟨rfl, old, f, hold, hf, rfl⟩)

theorem run_cmdSupersede (hnew : ∀ g ∈ s.db.fragments.rows, g.id ≠ a.newId) {reply : SupersedeReply}
    (h : (cmdSupersede py w a.newId a.now (s.db.fragments.rows.length + 1) c.agent c.id
      c.text).run s = (.ok reply, s')) : Applied py w c a s s' := by
  unfold cmdSupersede at h
  obtain ⟨asked, hasked, h⟩ := (quiet_fullId _ _ _).run_bind_eq_ok h
  obtain ⟨current, hcurrent, h⟩ := (quiet_currentVersion _ _ _ _).run_bind_eq_ok h
  obtain ⟨id, t, hsupersede, hend⟩ := Client.run_bind_eq_ok h
  obtain ⟨-, rfl⟩ := Prod.mk.inj hend
  unfold supersede at hsupersede
  obtain ⟨required, hrequired, hsupersede⟩ := (quiet_requireMemory _ _).run_bind_eq_ok hsupersede
  obtain ⟨old, hnewest, hstore⟩ := (quiet_newestFrom _ _ _ _ _).run_bind_eq_ok hsupersede
  have hold := replacedBy_eq hasked hcurrent hrequired hnewest
  obtain ⟨f, hf, rfl⟩ := run_storeRevision hnew (mem_of_replacedBy hold).1 hstore
  exact ⟨old, f, hold, hf, rfl⟩

end OneAttempt

/-! ### Exactly once -/

/-- Middleware and write policy put no link to a next version into the
metadata. -/
structure WritePath.AddsNoLink (w : WritePath) : Prop where
  middleware : ∀ d d', w.middleware d = .ok d' → d.metadata.lookup "superseded_by" = none →
    d'.metadata.lookup "superseded_by" = none
  policy : ∀ content metadata tags decision, w.policy content metadata tags = .ok decision →
    metadata.lookup "superseded_by" = none → decision.metadata.lookup "superseded_by" = none

/-- The other memories of the agent with the new content are not current. -/
def LocalStore.OnlyNewContent (py : Python) (w : WritePath) (s : LocalStore)
    (c : SupersedeCommand) : Prop :=
  ∀ old content, s.replacedBy py c = some old → newContent py w c old = some content →
    ∀ f ∈ s.db.fragments.rows, f.id ≠ old.id → f.agentId = c.agent → f.content = content →
      f.supersededBy py ≠ none

section Once

variable {py : Python} {w : WritePath} {c : SupersedeCommand} {a : Attempt} {s s' : LocalStore}

theorem rows_revisedWith {new old retired : Fragment}
    (hnew : ∀ g ∈ s.db.fragments.rows, g.id ≠ new.id) (hold : old ∈ s.db.fragments.rows)
    (hid : retired.id = old.id) :
    (s.revisedWith new retired).db.fragments.rows =
      (s.db.fragments.rows ++ [new]).map fun r => if r.id = old.id then retired else r := by
  have hin : retired.id ∈ (s.db.fragments.upsert new).rows.map Fragment.id := by
    rw [rows_upsert_new hnew, hid]
    exact List.mem_map_of_mem (List.mem_append_left _ hold)
  show ((s.db.fragments.upsert new).upsert retired).rows = _
  rw [Table.rows_upsert, if_pos hin, rows_upsert_new hnew, hid]

theorem newContent_of_prepare {old f : Fragment} {newId : String} {now : Int}
    (h : prepareMemory py w c.agent newId now c.text (revisedOptions py old {}) = .ok f) :
    newContent py w c old = some f.content ∧ f.updatedAt = now := by
  rw [prepareMemory_eq_map] at h
  unfold newContent
  cases hbase : prepareMemory py w c.agent "" 0 c.text (revisedOptions py old {}) with
  | error e =>
      rw [hbase] at h
      cases h
  | ok base =>
      rw [hbase] at h
      obtain rfl := Except.ok.inj h
      exact ⟨rfl, rfl⟩

theorem supersededOnce_of_applied (hw : w.AddsNoLink)
    (hnew : ∀ g ∈ s.db.fragments.rows, g.id ≠ a.newId) (hnonempty : a.newId ≠ "")
    (honly : s.OnlyNewContent py w c) (h : Applied py w c a s s') :
    ∃ old content new, s.replacedBy py c = some old ∧ newContent py w c old = some content ∧
      SupersededOnce py c old content new s' := by
  obtain ⟨old, f, hold, hf, rfl⟩ := h
  obtain ⟨hmem, hagent⟩ := mem_of_replacedBy hold
  have hhanded : Handed w fun metadata => metadata.lookup "superseded_by" = none := {
    middleware := hw.middleware
    policy := hw.policy
    assign := fun metadata key value hkey hnone => by
      rw [lookup_assign_ne, hnone]
      rintro rfl
      simp [notes] at hkey }
  obtain ⟨hid, hfagent, hlink⟩ := hhanded.prepareMemory (follows_revisedMetadata old rfl).current hf
  have hcurrent : f.supersededBy py = none := by
    unfold Fragment.supersededBy
    rw [hlink]
    rfl
  have hcontent := (newContent_of_prepare hf).1
  have hfnew : ∀ g ∈ s.db.fragments.rows, g.id ≠ f.id := by
    rw [hid]
    exact hnew
  have hne : f.id ≠ old.id := fun heq => hfnew old hmem heq.symm
  generalize hretired : old.supersededWith w a.now f.id = retired
  have hretiredId : retired.id = old.id := by
    rw [← hretired]
    rfl
  have hrows := rows_revisedWith hfnew hmem hretiredId
  have hlinked : retired.supersededBy py = some f.id := by
    have hversion := version_supersededWith py w a.now old (hid ▸ hnonempty : f.id ≠ "")
    rw [hretired, revisedTo, if_pos (show (old.version py).id = old.id from rfl)] at hversion
    exact congrArg Version.next hversion
  have htagged : tagSuperseded ∈ retired.tags := by
    rw [← hretired]
    show tagSuperseded ∈ (old.tags ++ [tagSuperseded]).eraseDups
    simp
  refine ⟨old, f.content, f, hold, hcontent, ?_, hfagent, rfl, hcurrent, ?_, retired, ?_, hretiredId,
    hlinked, htagged⟩
  · rw [hrows, List.mem_map]
    exact ⟨f, List.mem_append_right _ (List.mem_singleton_self f), if_neg hne⟩
  · intro g hg hgagent hgcontent hgcurrent
    rw [hrows, List.mem_map] at hg
    obtain ⟨r, hr, rfl⟩ := hg
    split at hgcurrent
    · rw [hlinked] at hgcurrent
      cases hgcurrent
    · rename_i hother
      rw [if_neg hother] at hgagent hgcontent ⊢
      rcases List.mem_append.mp hr with hr | hr
      · exact absurd hgcurrent (honly old f.content hold hcontent r hr hother hgagent hgcontent)
      · exact List.mem_singleton.mp hr
  · rw [hrows, List.mem_map]
    exact ⟨old, List.mem_append_left _ hmem, if_pos rfl⟩

end Once

/-! ### Attempt after attempt -/

/-- A retry finds a recent memory with the text exactly if an earlier attempt
has made the writes. -/
def SupersedeCommand.Finds (c : SupersedeCommand) (m : AttemptsMade) : Prop :=
  m.retrying = true → ((m.store.recentDuplicate c.agent c.text c.since).isSome = true ↔ 0 < m.writes)

/-- The attempt does not die between its two writes. -/
def SupersedeCommand.DiesWhole (py : Python) (w : WritePath) (c : SupersedeCommand)
    (death : Attempt × Nat) (m : AttemptsMade) : Prop :=
  c.Finds m ∧ ((c.next py w death.1 m).killed death.2 m.store).1 ≠ 1

instance decidableFinds (c : SupersedeCommand) (m : AttemptsMade) : Decidable (c.Finds m) := by
  unfold SupersedeCommand.Finds
  infer_instance

instance decidableDiesWhole (py : Python) (w : WritePath) (c : SupersedeCommand)
    (death : Attempt × Nat) (m : AttemptsMade) : Decidable (c.DiesWhole py w death m) := by
  unfold SupersedeCommand.DiesWhole
  infer_instance

/-- Before the first attempt. -/
def AttemptsMade.none (s : LocalStore) : AttemptsMade := ⟨false, 0, s⟩

section Attempts

variable {py : Python} {w : WritePath} {c : SupersedeCommand} {a : Attempt} {s : LocalStore}
  {m : AttemptsMade}

/-- Nothing is written yet, or an attempt has made both writes. -/
def Converging (py : Python) (w : WritePath) (c : SupersedeCommand) (s : LocalStore)
    (m : AttemptsMade) : Prop :=
  (m.writes = 0 ∧ m.store = s) ∨
    (0 < m.writes ∧ m.retrying = true ∧ ∃ old content new, s.replacedBy py c = some old ∧
      newContent py w c old = some content ∧ SupersededOnce py c old content new m.store)

/-- A retry that finds the memory only reads. -/
theorem dies_next_found {found : String} (hretrying : m.retrying = true)
    (hfound : m.store.recentDuplicate c.agent c.text c.since = some found) {r : Nat × LocalStore}
    (h : (c.next py w a m).Dies m.store r) : r = (0, m.store) := by
  unfold SupersedeCommand.next SupersedeCommand.attempt at h
  rw [if_pos hretrying] at h
  rcases (Client.quiet_read _).dies_bind h with rfl | ⟨dup, hdup, h⟩
  · rfl
  · obtain rfl := Except.ok.inj (Prod.mk.inj hdup).1
    dsimp only at h
    rw [hfound] at h
    exact h

theorem run_next_found {found : String} (hretrying : m.retrying = true)
    (hfound : m.store.recentDuplicate c.agent c.text c.since = some found)
    {r : Except MemoryError SupersedeReply} {s' : LocalStore}
    (h : (c.next py w a m).run m.store = (r, s')) : s' = m.store := by
  unfold SupersedeCommand.next SupersedeCommand.attempt at h
  rw [if_pos hretrying, Client.run_bind, Client.run_read, hfound] at h
  exact (Prod.mk.inj h).2.symm

/-- Any other attempt runs the command. -/
theorem dies_next (hfinds : m.retrying = true →
      m.store.recentDuplicate c.agent c.text c.since = none) {r : Nat × LocalStore}
    (h : (c.next py w a m).Dies m.store r) :
    r = (0, m.store) ∨ (cmdSupersede py w a.newId a.now (m.store.db.fragments.rows.length + 1)
      c.agent c.id c.text).Dies m.store r := by
  unfold SupersedeCommand.next SupersedeCommand.attempt at h
  split at h
  · rename_i hretrying
    rcases (Client.quiet_read _).dies_bind h with rfl | ⟨dup, hdup, h⟩
    · exact .inl rfl
    · obtain rfl := Except.ok.inj (Prod.mk.inj hdup).1
      dsimp only at h
      rw [hfinds hretrying] at h
      exact .inr h
  · exact .inr h

theorem run_next (hfinds : m.retrying = true →
      m.store.recentDuplicate c.agent c.text c.since = none) :
    (c.next py w a m).run m.store = (cmdSupersede py w a.newId a.now
      (m.store.db.fragments.rows.length + 1) c.agent c.id c.text).run m.store := by
  unfold SupersedeCommand.next SupersedeCommand.attempt
  split
  · rename_i hretrying
    rw [Client.run_bind, Client.run_read, hfinds hretrying]
  · rfl

theorem converging_die (hw : w.AddsNoLink) (honly : s.OnlyNewContent py w c) {death : Attempt × Nat}
    (hnew : ∀ g ∈ s.db.fragments.rows, g.id ≠ death.1.newId) (hnonempty : death.1.newId ≠ "")
    (h : Converging py w c s m) (hwhole : c.DiesWhole py w death m) :
    Converging py w c s (c.die py w death m) := by
  obtain ⟨hfinds, hnotOne⟩ := hwhole
  have hdies := Client.dies_killed death.2 (c.next py w death.1 m) m.store
  unfold SupersedeCommand.die
  rcases h with ⟨hzero, rfl⟩ | ⟨hpos, hretrying, hdone⟩
  · have hnone : m.retrying = true → m.store.recentDuplicate c.agent c.text c.since = none := by
      intro hretrying
      cases hdup : m.store.recentDuplicate c.agent c.text c.since with
      | none => rfl
      | some found =>
          have := (hfinds hretrying).mp (by rw [hdup]; rfl)
          omega
    rcases dies_next hnone hdies with hkilled | hcommand
    · rw [hkilled]
      exact .inl ⟨hzero, rfl⟩
    · rcases dies_cmdSupersede hnew hcommand with hkilled | hone | ⟨htwo, happlied⟩
      · rw [hkilled]
        exact .inl ⟨hzero, rfl⟩
      · exact absurd hone hnotOne
      · refine .inr ⟨?_, rfl, supersededOnce_of_applied hw hnew hnonempty honly happlied⟩
        dsimp only at htwo ⊢
        omega
  · obtain ⟨found, hfound⟩ := Option.isSome_iff_exists.mp ((hfinds hretrying).mpr hpos)
    rw [dies_next_found hretrying hfound hdies]
    exact .inr ⟨hpos, rfl, hdone⟩

end Attempts

/-! ### What a retry finds -/

/-- What is stored is a duplicate of the text that was sent, and no other recent
memory of the agent is. -/
structure SupersedeCommand.Recognised (py : Python) (w : WritePath) (c : SupersedeCommand)
    (s : LocalStore) : Prop where
  stored : ∀ old content, s.replacedBy py c = some old → newContent py w c old = some content →
    duplicates (joinWords (pySplit c.text)) content = true
  others : ∀ f ∈ s.db.fragments.rows, f.agentId = c.agent → c.since ≤ f.updatedAt →
    duplicates (joinWords (pySplit c.text)) f.content = false

section Recognised

variable {py : Python} {w : WritePath} {c : SupersedeCommand} {a : Attempt} {s s' : LocalStore}
  {m : AttemptsMade}

theorem recentDuplicate_before (h : c.Recognised py w s) :
    s.recentDuplicate c.agent c.text c.since = none := by
  unfold LocalStore.recentDuplicate
  rw [Option.map_eq_none_iff, List.find?_eq_none]
  intro f hf
  obtain ⟨hrow, hrecent⟩ := List.mem_filter.mp (List.mem_of_mem_take hf)
  rw [Bool.and_eq_true, decide_eq_true_iff, decide_eq_true_iff] at hrecent
  rw [h.others f (List.mem_reverse.mp hrow) hrecent.1 hrecent.2]
  exact Bool.false_ne_true

/-- The new memory is the newest row. -/
theorem recentDuplicate_applied (h : c.Recognised py w s) (hclock : c.since ≤ a.now)
    (hnew : ∀ g ∈ s.db.fragments.rows, g.id ≠ a.newId) (happlied : Applied py w c a s s') :
    (s'.recentDuplicate c.agent c.text c.since).isSome = true := by
  obtain ⟨old, f, hold, hf, rfl⟩ := happlied
  obtain ⟨hmem, -⟩ := mem_of_replacedBy hold
  obtain ⟨hid, hagent⟩ := id_prepareMemory hf
  obtain ⟨hstored, hnow⟩ := newContent_of_prepare hf
  have hfnew : ∀ g ∈ s.db.fragments.rows, g.id ≠ f.id := by
    rw [hid]
    exact hnew
  have hretired : (old.supersededWith w a.now f.id).id = old.id := rfl
  have hlast : (s.revisedWith f (old.supersededWith w a.now f.id)).db.fragments.rows.reverse.head? =
      some f := by
    rw [rows_revisedWith hfnew hmem hretired, List.head?_reverse, List.map_append,
      List.map_singleton, List.getLast?_concat, if_neg fun heq => hfnew old hmem heq.symm]
  obtain ⟨rest, hrows⟩ := List.head?_eq_some_iff.mp hlast
  unfold LocalStore.recentDuplicate
  rw [hrows, List.filter_cons_of_pos (by simp [hagent, hnow, hclock]), List.take_succ_cons,
    List.find?_cons, h.stored old f.content hold hstored]
  rfl

/-- Nothing is written yet, or a retry finds the new memory. -/
def Findable (c : SupersedeCommand) (s : LocalStore) (m : AttemptsMade) : Prop :=
  (m.writes = 0 ∧ m.store = s) ∨
    (0 < m.writes ∧ m.retrying = true ∧
      (m.store.recentDuplicate c.agent c.text c.since).isSome = true)

theorem Findable.finds (h : c.Recognised py w s) (hm : Findable c s m) : c.Finds m := by
  intro _
  rcases hm with ⟨hzero, rfl⟩ | ⟨hpos, -, hfound⟩
  · rw [recentDuplicate_before h, hzero]
    simp
  · simp [hfound, hpos]

theorem findable_die (h : c.Recognised py w s) {death : Attempt × Nat}
    (hclock : c.since ≤ death.1.now) (hnew : ∀ g ∈ s.db.fragments.rows, g.id ≠ death.1.newId)
    (hwhole : ((c.next py w death.1 m).killed death.2 m.store).1 ≠ 1) (hm : Findable c s m) :
    Findable c s (c.die py w death m) := by
  have hdies := Client.dies_killed death.2 (c.next py w death.1 m) m.store
  unfold SupersedeCommand.die
  rcases hm with ⟨hzero, rfl⟩ | ⟨hpos, hretrying, hdone⟩
  · rcases dies_next (fun _ => recentDuplicate_before h) hdies with hkilled | hcommand
    · rw [hkilled]
      exact .inl ⟨hzero, rfl⟩
    · rcases dies_cmdSupersede hnew hcommand with hkilled | hone | ⟨htwo, happlied⟩
      · rw [hkilled]
        exact .inl ⟨hzero, rfl⟩
      · exact absurd hone hwhole
      · refine .inr ⟨?_, rfl, recentDuplicate_applied h hclock hnew happlied⟩
        dsimp only at htwo ⊢
        omega
  · obtain ⟨found, hfound⟩ := Option.isSome_iff_exists.mp hdone
    rw [dies_next_found hretrying hfound hdies]
    exact .inr ⟨hpos, rfl, hdone⟩

/-- When the clock is not behind the request, a retry finds what it has to. -/
theorem finds_of_recognised (h : c.Recognised py w s) {deaths : List (Attempt × Nat)}
    (hclock : ∀ death ∈ deaths, c.since ≤ death.1.now)
    (hnew : ∀ death ∈ deaths, ∀ g ∈ s.db.fragments.rows, g.id ≠ death.1.newId)
    (hwhole : Along (c.die py w)
      (fun death m => ((c.next py w death.1 m).killed death.2 m.store).1 ≠ 1) deaths (.none s)) :
    Along (c.die py w) (c.DiesWhole py w) deaths (.none s) ∧
      c.Finds (run (c.die py w) deaths (.none s)) := by
  have hgood : Along (c.die py w) (fun death _ => c.since ≤ death.1.now ∧
      ∀ g ∈ s.db.fragments.rows, g.id ≠ death.1.newId) deaths (.none s) :=
    along_of_forall (fun death hdeath _ => ⟨hclock death hdeath, hnew death hdeath⟩) _
  have hboth := hwhole.and hgood
  have hstart : Findable c s (.none s) := .inl ⟨rfl, rfl⟩
  have hstep : ∀ death m, Findable c s m →
      ((c.next py w death.1 m).killed death.2 m.store).1 ≠ 1 ∧ c.since ≤ death.1.now ∧
        (∀ g ∈ s.db.fragments.rows, g.id ≠ death.1.newId) → Findable c s (c.die py w death m) := by
    rintro death m hm ⟨hone, hdeath, hunused⟩
    exact findable_die h hdeath hunused hone hm
  refine ⟨?_, (hboth.invariant hstep hstart).finds h⟩
  have hall := (along_iff_of_invariant (Q := fun death m => c.DiesWhole py w death m ∧
    c.since ≤ death.1.now ∧ ∀ g ∈ s.db.fragments.rows, g.id ≠ death.1.newId)
    (fun death m hm => ?_) hstep hstart).mp hboth
  · exact hall.mono fun _ _ hdeath => hdeath.1
  · exact and_congr_left fun _ => ⟨fun hone => ⟨hm.finds h, hone⟩, fun hdies => hdies.2⟩

end Recognised

/-! ### A new port -/

def portStore : LocalStore :=
  run (MemoryCall.step .basic .plain) [("a", 1, .remember "m0" "the port is 8080" {})] .empty

def newPort : SupersedeCommand := ⟨"a", "m0", "the port is 8081", 8⟩

theorem plain_addsNoLink : WritePath.plain.AddsNoLink := by
  constructor
  · intro d d' h hnone
    cases h
    exact hnone
  · intro content metadata tags decision h hnone
    cases h
    exact hnone

theorem portStore_onlyNewContent : portStore.OnlyNewContent .basic .plain newPort := by
  intro old content hold _ f hf hne
  have hall : portStore.db.fragments.rows.all (fun f => f.id = "m0") = true := by decide +kernel
  rw [List.all_eq_true] at hall
  have hid : f.id = "m0" := by simpa using hall f hf
  have hoid : old.id = "m0" := by simpa using hall old (mem_of_replacedBy hold).1
  exact absurd (hid.trans hoid.symm) hne

/-- The server dies early, the first retry when it has done everything, and
the second one as soon as it has found the new memory. -/
def wholeDeaths : List (Attempt × Nat) := [(⟨"m1", 10⟩, 2), (⟨"m2", 11⟩, 100), (⟨"m3", 12⟩, 1)]

theorem newPort_recognised : newPort.Recognised .basic .plain portStore := by
  constructor
  · intro old content hold hcontent
    have hstored : (portStore.replacedBy .basic newPort).bind (newContent .basic .plain newPort) =
        some "the port is 8081" := by decide +kernel
    rw [hold, Option.bind_some, hcontent] at hstored
    rw [Option.some.inj hstored]
    decide +kernel
  · decide +kernel

end MarkSdk
