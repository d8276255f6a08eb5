import Mathlib.Data.List.Dedup
import MarkSdk.Lib.MapM
import MarkSdk.Memory.Writing

/-!
Bulk writes: `store_many_sync` with an idempotency key.

Every item is validated first, and the id of a valid one is derived from the
agent, the key, the position in the call and the text. Items whose id has a
row are not written again. Without middleware the rest is written in one
transaction, with middleware item by item. Extraction comes after the writes
and changes no fragment; it is left out.
-/

namespace MarkSdk

open Lib

/-! ### Items -/

/-- The content of an item, of any type. -/
inductive BulkContent : Type
  | text (s : String)
  | bytes
  | path (s : String)
  /-- A string with a lone surrogate, which is shown so, at that position. -/
  | surrogate (shown : String) (position : Nat)
  | other (kind : String)

/-- An item, with what `_with_occurred_at` makes of its time: the text that is
stored, or the message of a `ValueError`. -/
structure BulkItem where
  content : BulkContent
  occurredAt : Option (Except String String) := none

/-- The options that all items of a call share. -/
structure BulkOptions where
  importance : ℚ := 1 / 2
  scope : MemoryScope := .agent
  tags : List String := []
  source : Option String := none
  state : MemoryState := .unverified
  confidence : ℚ := 1
  sessionId : Option String := none
  ttlSeconds : Option Int := none
  metadata : Metadata := []

structure SkippedItem where
  index : Nat
  reason : String
  message : String

structure StoreReport where
  ids : List (Option String)
  skipped : List SkippedItem
  existing : Nat

/-- A valid item: its position in the call, its text and its metadata. -/
structure BulkEntry where
  index : Nat
  text : String
  metadata : Metadata

/-- `hashlib.sha256(...).hexdigest()` and `uuid.uuid5` in the namespace of bulk
writes. -/
structure IdTools where
  sha256 : String → String
  uuid5 : String → String

def idempotentId (tools : IdTools) (agentId key : String) (index : Nat) (content : String) :
    String :=
  tools.uuid5 ("\x1f".intercalate [agentId, key, toString index, tools.sha256 content])

/-- `check_content` -/
def checkBulkContent (w : WritePath) : BulkContent → Except MemoryError String
  | .bytes =>
      .error (.store (.invalidMemory ("memory content must be text (str), got bytes; " ++
        "decode it first, e.g. data.decode('utf-8')") "not_text"))
  | .path s =>
      .error (.store (.invalidMemory ("memory content must be text (str), got a path (" ++ s ++
        "); to remember a file use memory.remember_file(path) " ++
        "(text, Markdown, code, HTML, PDF, Office, images, audio)") "not_text"))
  | .other kind =>
      .error (.store (.invalidMemory ("memory content must be text (str), got " ++ kind) "not_text"))
  | .surrogate shown position =>
      .error (.store (.invalidMemory ("memory content is not valid Unicode text (lone surrogate " ++
        shown ++ " at position " ++ toString position ++ "); it usually comes from a broken " ++
        "decode — re-decode the source with errors='replace'") "invalid_unicode"))
  | .text s => checkContent w.maxMemoryBytes s

def SkippedItem.ofError (index : Nat) : MemoryError → SkippedItem
  | .store (.invalidMemory message reason) => ⟨index, reason, message⟩
  | _ => ⟨index, "", ""⟩

/-- One turn of `_validate_items`. -/
def validateItem (w : WritePath) (metadata : Metadata) (index : Nat) (item : BulkItem) :
    Except SkippedItem BulkEntry :=
  match checkBulkContent w item.content with
  | .error e => .error (.ofError index e)
  | .ok text =>
      match item.occurredAt with
      | none => .ok ⟨index, text, metadata⟩
      | some (.ok moment) => .ok ⟨index, text, metadata.assign "occurred_at" (.str moment)⟩
      | some (.error message) => .error ⟨index, "occurred_at", message⟩

/-- The valid items of a call, with their positions. -/
def validItems (w : WritePath) (metadata : Metadata) (items : List BulkItem) : List BulkEntry :=
  (items.mapIdx (validateItem w metadata)).filterMap Except.toOption

def skippedItems (w : WritePath) (metadata : Metadata) (items : List BulkItem) :
    List SkippedItem :=
  (items.mapIdx (validateItem w metadata)).filterMap fun
    | .error skipped => some skipped
    | .ok _ => none

/-! ### Writing -/

section Writing

variable (py : Python) (w : WritePath) (tools : IdTools) (registered : Bool) (agentId key : String)
  (options : BulkOptions)

def BulkEntry.draft (entry : BulkEntry) : MemoryDraft where
  content := entry.text
  importance := options.importance
  scope := options.scope
  tags := options.tags
  source := options.source
  state := options.state
  confidence := options.confidence
  sessionId := options.sessionId
  ttlSeconds := options.ttlSeconds
  metadata := entry.metadata

/-- The id of an item. -/
def BulkEntry.id (entry : BulkEntry) : String :=
  idempotentId tools agentId key entry.index entry.text

/-- What a blank text that the write policy leaves is refused with. -/
def blankInBatch : MemoryError :=
  .store (.invalidMemory "invalid memory options: Value error, content must not be blank"
    "invalid_option")

/-- `_fragment`, with the message that it is refused with on either path. -/
def itemFragment (id : String) (now : Int) (guarded : MemoryDraft) : Except MemoryError Fragment :=
  if registered then newFragment agentId id now guarded
  else (newFragment agentId id now guarded).mapError fun _ => blankInBatch

/-- `_guarded_fragment` under the id of the item, and whether it may be indexed. -/
def guardedFragment (now : Int) (id : String) (draft : MemoryDraft) :
    Except MemoryError (Fragment × Bool) := do
  let (guarded, accepted) ← guardedDraft w draft
  let fragment ← itemFragment registered agentId id now guarded
  return (fragment, accepted)

/-- A fragment with its embedding, when it may be indexed. -/
def embedded (guarded : Fragment × Bool) : Fragment :=
  if guarded.2 then { guarded.1 with embedding := w.embed guarded.1.content } else guarded.1

/-- `_store_sync_routed` of an item. -/
def storeRouted (now : Int) (entry : BulkEntry) : MemoryClient Unit := do
  let draft ← Client.ofExcept (w.middleware (entry.draft options))
  let guarded ← Client.ofExcept (guardedFragment w true agentId now (entry.id tools agentId key) draft)
  let _ ← insertFragment py (embedded w guarded)

def writeBatch (now : Int) (todo : List BulkEntry) : MemoryClient Unit := do
  let fragments ← Client.ofExcept (todo.mapM fun entry =>
    guardedFragment w false agentId now (entry.id tools agentId key) (entry.draft options))
  let rejected := fragments.filter fun guarded => !guarded.2
  let accepted := fragments.filter fun guarded => guarded.2
  let rows := (rejected ++ accepted).map (embedded w)
  if rows = [] then return ()
  else
    let _ ← callStore .other (storeMany py rows)

def LocalStore.existingIds (s : LocalStore) (ids : List String) : List String :=
  ids.filter fun id => s.db.fragments.rows.any fun row => row.id = id

/-- `strict=True` raises for the first item that is not valid. -/
def checkStrict (strict : Bool) (skipped : List SkippedItem) : Except MemoryError Unit :=
  match skipped with
  | item :: _ =>
      if strict then
        .error (.store (.invalidMemory (s!"item {item.index}: " ++ item.message) item.reason))
      else .ok ()
  | [] => .ok ()

/-- `store_many_sync` with an idempotency key; `registered` says that there is
middleware. -/
def storeManySync (strict : Bool) (now : Int) (items : List BulkItem) :
    MemoryClient StoreReport := do
  let metadata ← Client.ofExcept (checkMemoryMetadata py options.metadata)
  Client.ofExcept (checkNumber py w "importance" options.importance)
  Client.ofExcept (checkNumber py w "confidence" options.confidence)
  let valid := validItems w metadata items
  let skipped := skippedItems w metadata items
  Client.ofExcept (checkStrict strict skipped)
  let ids := valid.map fun entry => (entry.index, entry.id tools agentId key)
  let existing ← Client.read fun s => s.existingIds (ids.map Prod.snd)
  let todo := valid.filter fun entry => entry.id tools agentId key ∉ existing
  if registered then Client.forEach (storeRouted py w tools agentId key options now) todo
  else writeBatch py w tools agentId key options now todo
  return ⟨(List.range items.length).map fun index => ids.lookup index, skipped,
    valid.length - todo.length⟩

end Writing

/-! ### Ids -/

section Ids

variable {tools : IdTools} {agentId key : String}

theorem separator_not_mem_digits (n : Nat) : '\x1f' ∉ (toString n).toList := by
  intro h
  have hdigits : '\x1f' ∈ Nat.toDigits 10 n := by simpa using h
  have hdigit : ('\x1f' : Char).isDigit = true :=
    Nat.isDigit_of_mem_toDigits (by decide) (by decide) hdigits
  exact absurd hdigit (by decide)

/-- What stands before the first separator, and what stands after it. -/
theorem append_separator_inj {α : Type} {sep : α} {l l' m m' : List α} (hl : sep ∉ l)
    (hl' : sep ∉ l') (h : l ++ sep :: m = l' ++ sep :: m') : l = l' ∧ m = m' := by
  induction l generalizing l' with
  | nil =>
      cases l' with
      | nil => exact ⟨rfl, (List.cons.inj h).2⟩
      | cons a l' =>
          obtain ⟨rfl, -⟩ := List.cons.inj h
          exact absurd List.mem_cons_self hl'
  | cons a l ih =>
      cases l' with
      | nil =>
          obtain ⟨rfl, -⟩ := List.cons.inj h
          exact absurd List.mem_cons_self hl
      | cons b l' =>
          obtain ⟨rfl, htail⟩ := List.cons.inj h
          obtain ⟨rfl, rfl⟩ := ih (fun hin => hl (List.mem_cons_of_mem a hin))
            (fun hin => hl' (List.mem_cons_of_mem a hin)) htail
          exact ⟨rfl, rfl⟩

def idempotentName (tools : IdTools) (agentId key : String) (index : Nat) (content : String) :
    String :=
  "\x1f".intercalate [agentId, key, toString index, tools.sha256 content]

theorem toList_idempotentName (index : Nat) (content : String) :
    (idempotentName tools agentId key index content).toList =
      (agentId.toList ++ '\x1f' :: (key.toList ++ ['\x1f'])) ++
        ((toString index).toList ++ '\x1f' :: (tools.sha256 content).toList) := by
  simp [idempotentName]

/-- Under one key a name says the position in the call and the hash. -/
theorem idempotentName_inj {index index' : Nat} {content content' : String}
    (h : idempotentName tools agentId key index content =
      idempotentName tools agentId key index' content') :
    index = index' ∧ tools.sha256 content = tools.sha256 content' := by
  have hlists := congrArg String.toList h
  rw [toList_idempotentName, toList_idempotentName] at hlists
  obtain ⟨hdigits, hdigest⟩ := append_separator_inj (separator_not_mem_digits index)
    (separator_not_mem_digits index') (List.append_cancel_left hlists)
  refine ⟨?_, String.toList_injective hdigest⟩
  have hsame : Nat.toDigits 10 index = Nat.toDigits 10 index' := by simpa using hdigits
  rw [← Nat.ofDigitChars_ten_toDigits (n := index), hsame, Nat.ofDigitChars_ten_toDigits]

end Ids

/-! ### The items of a call -/

section Items

theorem toOption_eq_some_iff {ε α : Type} {r : Except ε α} {a : α} :
    r.toOption = some a ↔ r = .ok a := by
  cases r with
  | error e => simp [Except.toOption]
  | ok b => simp [Except.toOption]

variable {w : WritePath} {metadata : Metadata} {items : List BulkItem}

theorem index_validateItem {index : Nat} {item : BulkItem} {entry : BulkEntry}
    (h : validateItem w metadata index item = .ok entry) : entry.index = index := by
  unfold validateItem at h
  split at h
  · cases h
  · split at h <;> cases h <;> rfl

theorem mem_validItems {entry : BulkEntry} :
    entry ∈ validItems w metadata items ↔
      ∃ item, items[entry.index]? = some item ∧
        validateItem w metadata entry.index item = .ok entry := by
  unfold validItems
  rw [List.mem_filterMap]
  constructor
  · rintro ⟨result, hin, hvalid⟩
    obtain ⟨index, hindex, rfl⟩ := List.mem_mapIdx.mp hin
    have hok : validateItem w metadata index items[index] = .ok entry :=
      toOption_eq_some_iff.mp hvalid
    obtain rfl := index_validateItem hok
    exact ⟨items[entry.index], List.getElem?_eq_getElem hindex, hok⟩
  · rintro ⟨item, hitem, hok⟩
    obtain ⟨hindex, rfl⟩ := List.getElem?_eq_some_iff.mp hitem
    exact ⟨.ok entry, List.mem_mapIdx.mpr ⟨entry.index, hindex, hok⟩, rfl⟩

/-- The positions of the valid items do not repeat. -/
theorem nodup_index_validItems :
    ((validItems w metadata items).map BulkEntry.index).Nodup := by
  have hresults : (items.mapIdx (validateItem w metadata)).Pairwise fun result result' =>
      ∀ entry entry', result = .ok entry → result' = .ok entry' → entry.index ≠ entry'.index := by
    rw [List.pairwise_iff_getElem]
    intro i j hi hj hlt entry entry' hentry hentry'
    rw [List.getElem_mapIdx] at hentry hentry'
    rw [index_validateItem hentry, index_validateItem hentry']
    omega
  refine List.pairwise_map.mpr (List.pairwise_filterMap.mpr (hresults.imp ?_))
  exact fun h entry hentry entry' hentry' =>
    h entry entry' (toOption_eq_some_iff.mp hentry) (toOption_eq_some_iff.mp hentry')

/-- The id of the item at a position, when it is valid. -/
theorem lookup_validItems (idOf : BulkEntry → String) (index : Nat) :
    ((validItems w metadata items).map fun entry => (entry.index, idOf entry)).lookup index =
      items[index]?.bind fun item =>
        (validateItem w metadata index item).toOption.map idOf := by
  have hnodup : (((validItems w metadata items).map fun entry =>
      (entry.index, idOf entry)).map Prod.fst).Nodup := by
    rw [List.map_map]
    exact nodup_index_validItems
  cases hfound : items[index]?.bind fun item =>
      (validateItem w metadata index item).toOption.map idOf with
  | none =>
      rw [List.lookup_eq_none_iff]
      intro pair hpair
      obtain ⟨entry, hentry, rfl⟩ := List.mem_map.mp hpair
      obtain ⟨item, hitem, hok⟩ := mem_validItems.mp hentry
      have hne : index ≠ entry.index := by
        rintro rfl
        rw [hitem, Option.bind_some, hok] at hfound
        cases hfound
      simpa using hne
  | some id =>
      obtain ⟨item, hitem, hid⟩ := Option.bind_eq_some_iff.mp hfound
      obtain ⟨entry, hentry, rfl⟩ := Option.map_eq_some_iff.mp hid
      have hok : validateItem w metadata index item = .ok entry :=
        toOption_eq_some_iff.mp hentry
      obtain rfl := index_validateItem hok
      exact Table.lookup_eq_some_of_nodup hnodup
        (List.mem_map_of_mem (mem_validItems.mpr ⟨item, hitem, hok⟩))

/-- What is returned for the items of a call: an id for each valid one. -/
def alignedIds (w : WritePath) (metadata : Metadata) (idOf : BulkEntry → String)
    (items : List BulkItem) : List (Option String) :=
  items.mapIdx fun index item => (validateItem w metadata index item).toOption.map idOf

theorem map_lookup_validItems (idOf : BulkEntry → String) :
    ((List.range items.length).map fun index =>
      ((validItems w metadata items).map fun entry => (entry.index, idOf entry)).lookup index) =
        alignedIds w metadata idOf items := by
  refine List.ext_getElem (by simp [alignedIds]) fun index h h' => ?_
  have hindex : index < items.length := by simpa using h
  rw [List.getElem_map, List.getElem_range, lookup_validItems, List.getElem?_eq_getElem hindex]
  simp [alignedIds]

end Items

/-! ### What is written -/

section Written

variable {py : Python} {w : WritePath} {tools : IdTools} {registered : Bool} {agentId key : String}
  {options : BulkOptions} {now : Int}

/-- What the middleware makes of an item, if there is any. -/
def BulkEntry.routed (w : WritePath) (registered : Bool) (options : BulkOptions)
    (entry : BulkEntry) : Except MemoryError MemoryDraft :=
  if registered then w.middleware (entry.draft options) else .ok (entry.draft options)

/-- The row is what the write path makes of the item at some instant. -/
def BulkEntry.StoredAs (w : WritePath) (registered : Bool) (agentId : String)
    (options : BulkOptions) (entry : BulkEntry) (row : Fragment) : Prop :=
  ∃ now draft guarded, entry.routed w registered options = .ok draft ∧
    guardedFragment w registered agentId now row.id draft = .ok guarded ∧ row = embedded w guarded

theorem id_guardedFragment {id : String} {draft : MemoryDraft} {guarded : Fragment × Bool}
    (h : guardedFragment w registered agentId now id draft = .ok guarded) :
    (embedded w guarded).id = id := by
  unfold guardedFragment at h
  obtain ⟨⟨kept, accepted⟩, -, h⟩ := Txn.exists_of_bind_eq_ok h
  obtain ⟨fragment, hnew, h⟩ := Txn.exists_of_bind_eq_ok h
  cases h
  have hid : fragment.id = id := by
    unfold itemFragment newFragment at hnew
    split at hnew
    · split at hnew <;> cases hnew
      rfl
    · split at hnew <;> cases hnew
      rfl
  unfold embedded
  split <;> exact hid

/-- A row made under the id of an item. -/
theorem storedAs_embedded {entry : BulkEntry} {draft : MemoryDraft} {guarded : Fragment × Bool}
    (hdraft : entry.routed w registered options = .ok draft)
    (h : guardedFragment w registered agentId now (entry.id tools agentId key) draft = .ok guarded) :
    (embedded w guarded).id = entry.id tools agentId key ∧
      entry.StoredAs w registered agentId options (embedded w guarded) := by
  have hid := id_guardedFragment h
  exact ⟨hid, now, draft, guarded, hdraft, by rw [hid]; exact h, rfl⟩

/-! ### Invariants of a call -/

variable {J : Db → Prop}

theorem each_storeRow {row : Fragment}
    (h : ∀ db, J db → J { db with fragments := db.fragments.upsert row }) :
    (storeRow py row).Each fun db db' => J db → J db' := by
  refine Txn.each_bind (Txn.each_query _) fun found => ?_
  split
  · trivial
  · exact Txn.each_bind (Txn.each_update h) fun _ => trivial

theorem keeps_callStore {α : Type} {l : StoreWrite} {t : Writing α}
    (h : t.Each fun db db' => J db → J db') :
    (callStore l t).Keeps (fun s => J s.db) fun _ => True :=
  Client.keeps_txn ((each_onDb h).mono fun _ _ hdb => hdb.1)

/-- The item may be written under its id without breaking `J`. -/
def BulkEntry.Safe (w : WritePath) (tools : IdTools) (registered : Bool) (agentId key : String)
    (options : BulkOptions) (J : Db → Prop) (entry : BulkEntry) : Prop :=
  ∀ row, row.id = entry.id tools agentId key → entry.StoredAs w registered agentId options row →
    ∀ db, J db → J { db with fragments := db.fragments.upsert row }

theorem keeps_storeRouted (hregistered : registered = true) {entry : BulkEntry}
    (h : entry.Safe w tools registered agentId key options J) :
    (storeRouted py w tools agentId key options now entry).Keeps (fun s => J s.db)
      fun _ => True := by
  refine Client.keeps_bind (Client.keeps_ofExcept fun draft hdraft => hdraft) fun draft hdraft => ?_
  refine Client.keeps_bind (Client.keeps_ofExcept fun guarded h => h) fun guarded hguarded => ?_
  subst hregistered
  have hrouted : entry.routed w true options = .ok draft := hdraft
  obtain ⟨hid, hstored⟩ := storedAs_embedded hrouted hguarded
  exact Client.keeps_bind (keeps_callStore (each_storeRow (h _ hid hstored))) fun _ _ => trivial

theorem keeps_writeBatch (hregistered : registered = false) {todo : List BulkEntry}
    (h : ∀ entry ∈ todo, entry.Safe w tools registered agentId key options J) :
    (writeBatch py w tools agentId key options now todo).Keeps (fun s => J s.db)
      fun _ => True := by
  refine Client.keeps_bind (Client.keeps_ofExcept fun fragments h => (mem_of_mapM_eq_ok h).1) ?_
  intro fragments hfragments
  dsimp only
  split
  · trivial
  · refine Client.keeps_bind (keeps_callStore ?_) fun _ _ => trivial
    refine Txn.each_bind (Txn.each_forEach fun row hrow => ?_) fun _ => trivial
    obtain ⟨guarded, hin, rfl⟩ := List.mem_map.mp hrow
    have hmem : guarded ∈ fragments := by
      rcases List.mem_append.mp hin with hin | hin
      · exact (List.mem_filter.mp hin).1
      · exact (List.mem_filter.mp hin).1
    obtain ⟨entry, hentry, hguarded⟩ := hfragments guarded hmem
    subst hregistered
    have hrouted : entry.routed w false options = .ok (entry.draft options) := rfl
    obtain ⟨hid, hstored⟩ := storedAs_embedded hrouted hguarded
    exact Txn.each_bind (each_storeRow (h entry hentry _ hid hstored)) fun _ => trivial

theorem metadata_of_check {metadata metadata' : Metadata}
    (h : checkMemoryMetadata py metadata = .ok metadata') : metadata' = metadata := by
  unfold checkMemoryMetadata at h
  split at h <;> cases h
  rfl

/-- A call keeps what the rows of its valid items keep. -/
theorem keeps_storeManySync {strict : Bool} {items : List BulkItem}
    (h : ∀ entry ∈ validItems w options.metadata items,
      entry.Safe w tools registered agentId key options J) :
    (storeManySync py w tools registered agentId key options strict now items).Keeps
      (fun s => J s.db) fun _ => True := by
  refine Client.keeps_bind (Client.keeps_ofExcept fun metadata hmetadata =>
    metadata_of_check hmetadata) ?_
  rintro metadata rfl
  refine Client.keeps_bind (Client.keeps_ofExcept fun _ _ => trivial) fun _ _ => ?_
  refine Client.keeps_bind (Client.keeps_ofExcept fun _ _ => trivial) fun _ _ => ?_
  refine Client.keeps_bind (Client.keeps_ofExcept fun _ _ => trivial) fun _ _ => ?_
  refine Client.keeps_bind (Q := fun _ => True) (Client.keeps_read fun _ _ => trivial)
    fun existing _ => ?_
  dsimp only
  have htodo : ∀ entry ∈ (validItems w options.metadata items).filter fun entry =>
      entry.id tools agentId key ∉ existing, entry ∈ validItems w options.metadata items :=
    fun entry hentry => (List.mem_filter.mp hentry).1
  split
  · rename_i hregistered
    refine Client.keeps_bind (Client.keeps_forEach fun entry hentry => ?_) fun _ _ => trivial
    exact keeps_storeRouted hregistered (h entry (htodo entry hentry))
  · rename_i hregistered
    refine Client.keeps_bind (keeps_writeBatch (by simpa using hregistered) fun entry hentry => ?_) fun _ _ => trivial
    exact h entry (htodo entry hentry)

/-! ### What a call leaves -/

/-- A memory with the id is stored. -/
def Db.HasId (id : String) (db : Db) : Prop := id ∈ db.fragments.rows.map Fragment.id

theorem hasId_upsert {id : String} {row : Fragment} {db : Db} (h : db.HasId id) :
    Db.HasId id { db with fragments := db.fragments.upsert row } :=
  Table.key_mem_upsert row h

theorem hasId_upsert_self (row : Fragment) (db : Db) :
    Db.HasId row.id { db with fragments := db.fragments.upsert row } :=
  List.mem_map_of_mem (Table.mem_upsert_self row db.fragments)

/-- Whatever is written, no id gets lost. -/
theorem safe_hasId (id : String) (entry : BulkEntry) :
    entry.Safe w tools registered agentId key options (Db.HasId id) :=
  fun _ _ _ _ h => hasId_upsert h

theorem hasId_of_storeRow {row : Fragment} {db db' : Db} {id : String}
    (h : (storeRow py row).exec db = .ok (id, db')) : db'.HasId row.id := by
  unfold storeRow at h
  rw [Txn.exec_query_bind] at h
  split at h
  · cases h
  · cases h
    exact hasId_upsert_self row db

theorem hasId_of_storeRows {rows : List Fragment} {db db' : Db}
    (h : (Txn.forEach (fun row => do let _ ← storeRow py row) rows).exec db = .ok ((), db')) :
    ∀ row ∈ rows, db'.HasId row.id := by
  induction rows generalizing db with
  | nil => exact fun row hrow => absurd hrow List.not_mem_nil
  | cons row rows ih =>
      have hsplit : ((do let _ ← storeRow py row) >>= fun _ =>
          Txn.forEach (fun row => do let _ ← storeRow py row) rows).exec db = .ok ((), db') := h
      obtain ⟨⟨⟩, u, hfirst, hrest⟩ := Txn.exec_bind_eq_ok hsplit
      obtain ⟨id, u', hstore, hpure⟩ := Txn.exec_bind_eq_ok hfirst
      cases hpure
      have hrow := hasId_of_storeRow hstore
      have hkept : (Txn.forEach (fun row => do let _ ← storeRow py row) rows : Writing Unit).Each
          fun db db' => Db.HasId row.id db → Db.HasId row.id db' :=
        Txn.each_forEach fun row _ => Txn.each_bind (each_storeRow fun _ h => hasId_upsert h)
          fun _ => trivial
      intro found hfound
      rcases List.mem_cons.mp hfound with rfl | hfound
      · exact hkept.exec (R := fun db db' => Db.HasId found.id db → Db.HasId found.id db')
          (fun _ h => h) (fun hst htu h => htu (hst h)) hrest hrow
      · exact ih hrest found hfound

theorem exec_of_run_callStore {α : Type} {l : StoreWrite} {t : Writing α} {s s' : LocalStore}
    {a : α} (h : (callStore l t).run s = (.ok a, s')) : t.exec s.db = .ok (a, s'.db) := by
  unfold callStore at h
  rw [Client.run_txn, Txn.outcome, Txn.apply, exec_onDb] at h
  cases hexec : t.exec s.db with
  | error e =>
      rw [hexec] at h
      cases (Prod.mk.inj h).1
  | ok r =>
      rw [hexec] at h
      obtain ⟨hok, rfl⟩ := Prod.mk.inj h
      cases hok
      rfl

theorem hasId_of_storeRouted {entry : BulkEntry} {s s' : LocalStore}
    (h : (storeRouted py w tools agentId key options now entry).run s = (.ok (), s')) :
    s'.db.HasId (entry.id tools agentId key) := by
  obtain ⟨draft, -, h⟩ := (Client.quiet_ofExcept _).run_bind_eq_ok h
  obtain ⟨guarded, hguarded, h⟩ := (Client.quiet_ofExcept _).run_bind_eq_ok h
  obtain ⟨id, t, hinsert, hpure⟩ := Client.run_bind_eq_ok h
  cases hpure
  have hok : guardedFragment w true agentId now (entry.id tools agentId key) draft = .ok guarded := by
    rw [Client.run_ofExcept] at hguarded
    exact (Prod.mk.inj hguarded).1
  rw [← id_guardedFragment hok]
  exact hasId_of_storeRow (exec_of_run_callStore hinsert)

theorem hasId_of_forEach {todo : List BulkEntry} {s s' : LocalStore}
    (h : (Client.forEach (storeRouted py w tools agentId key options now) todo).run s =
      (.ok (), s')) : ∀ entry ∈ todo, s'.db.HasId (entry.id tools agentId key) := by
  induction todo generalizing s with
  | nil => exact fun entry hentry => absurd hentry List.not_mem_nil
  | cons entry todo ih =>
      have hsplit : ((storeRouted py w tools agentId key options now entry) >>= fun _ =>
          Client.forEach (storeRouted py w tools agentId key options now) todo).run s =
            (.ok (), s') := h
      obtain ⟨⟨⟩, t, hfirst, hrest⟩ := Client.run_bind_eq_ok hsplit
      have hentry := hasId_of_storeRouted hfirst
      have hkept : (Client.forEach (storeRouted py w tools agentId key options now) todo).Keeps
          (fun s => s.db.HasId (entry.id tools agentId key)) fun _ => True :=
        Client.keeps_forEach fun other _ => keeps_storeRouted rfl
          (safe_hasId (entry.id tools agentId key) other)
      have hend := hkept.after hentry
      rw [Client.after, hrest] at hend
      intro found hfound
      rcases List.mem_cons.mp hfound with rfl | hfound
      · exact hend
      · exact ih hrest found hfound

theorem hasId_of_writeBatch {todo : List BulkEntry} {s s' : LocalStore}
    (h : (writeBatch py w tools agentId key options now todo).run s = (.ok (), s')) :
    ∀ entry ∈ todo, s'.db.HasId (entry.id tools agentId key) := by
  obtain ⟨fragments, hfragments, h⟩ := (Client.quiet_ofExcept _).run_bind_eq_ok h
  rw [Client.run_ofExcept] at hfragments
  have hmade := (mem_of_mapM_eq_ok (Prod.mk.inj hfragments).1).2
  have hrows : ∀ entry ∈ todo, ∃ row ∈ ((fragments.filter fun guarded => !guarded.2) ++
      fragments.filter fun guarded => guarded.2).map (embedded w),
      row.id = entry.id tools agentId key := by
    intro entry hentry
    obtain ⟨guarded, hin, hguarded⟩ := hmade entry hentry
    refine ⟨embedded w guarded, List.mem_map_of_mem ?_, id_guardedFragment hguarded⟩
    rw [List.mem_append, List.mem_filter, List.mem_filter]
    cases guarded.2 with
    | false => exact .inl ⟨hin, rfl⟩
    | true => exact .inr ⟨hin, rfl⟩
  intro entry hentry
  obtain ⟨row, hrow, hid⟩ := hrows entry hentry
  dsimp only at h
  split at h
  · rename_i hempty
    rw [hempty] at hrow
    cases hrow
  · obtain ⟨ids, t, hcall, hpure⟩ := Client.run_bind_eq_ok h
    cases hpure
    obtain ⟨⟨⟩, u, hloop, hdone⟩ := Txn.exec_bind_eq_ok (exec_of_run_callStore hcall)
    cases hdone
    rw [← hid]
    exact hasId_of_storeRows hloop row hrow

/-- What a call returns, and what it leaves. -/
theorem run_storeManySync {strict : Bool} {items : List BulkItem} {s s' : LocalStore}
    {report : StoreReport}
    (h : (storeManySync py w tools registered agentId key options strict now items).run s =
      (.ok report, s')) :
    report.ids = alignedIds w options.metadata (BulkEntry.id tools agentId key) items ∧
      ∀ entry ∈ validItems w options.metadata items, s'.db.HasId (entry.id tools agentId key) := by
  have hkept : ∀ entry : BulkEntry, s.db.HasId (entry.id tools agentId key) →
      s'.db.HasId (entry.id tools agentId key) := by
    intro entry hentry
    have hkeeps : (storeManySync py w tools registered agentId key options strict now items).Keeps
        (fun s => s.db.HasId (entry.id tools agentId key)) fun _ => True :=
      keeps_storeManySync fun other _ => safe_hasId (entry.id tools agentId key) other
    have hend := hkeeps.after hentry
    rw [Client.after, h] at hend
    exact hend
  obtain ⟨metadata, hmetadata, h⟩ := (Client.quiet_ofExcept _).run_bind_eq_ok h
  rw [Client.run_ofExcept] at hmetadata
  obtain rfl := metadata_of_check (Prod.mk.inj hmetadata).1
  obtain ⟨⟨⟩, -, h⟩ := (Client.quiet_ofExcept _).run_bind_eq_ok h
  obtain ⟨⟨⟩, -, h⟩ := (Client.quiet_ofExcept _).run_bind_eq_ok h
  obtain ⟨⟨⟩, -, h⟩ := (Client.quiet_ofExcept _).run_bind_eq_ok h
  obtain ⟨existing, hexisting, h⟩ := (Client.quiet_read _).run_bind_eq_ok h
  rw [Client.run_read] at hexisting
  have hfound := Except.ok.inj (Prod.mk.inj hexisting).1
  have hold : ∀ id ∈ existing, s.db.HasId id := by
    intro id hid
    rw [← hfound] at hid
    obtain ⟨row, hrow, hrid⟩ := List.any_eq_true.mp (List.mem_filter.mp hid).2
    exact List.mem_map.mpr ⟨row, hrow, by simpa using hrid⟩
  have hall : (∀ entry ∈ (validItems w options.metadata items).filter fun entry =>
      entry.id tools agentId key ∉ existing, s'.db.HasId (entry.id tools agentId key)) →
      ∀ entry ∈ validItems w options.metadata items, s'.db.HasId (entry.id tools agentId key) := by
    intro hnew entry hentry
    by_cases hin : entry.id tools agentId key ∈ existing
    · exact hkept entry (hold _ hin)
    · exact hnew entry (List.mem_filter.mpr ⟨hentry, decide_eq_true hin⟩)
  dsimp only at h
  split at h
  · obtain ⟨⟨⟩, t, hrun, hpure⟩ := Client.run_bind_eq_ok h
    cases hpure
    exact ⟨map_lookup_validItems _, hall (hasId_of_forEach hrun)⟩
  · obtain ⟨⟨⟩, t, hrun, hpure⟩ := Client.run_bind_eq_ok h
    cases hpure
    exact ⟨map_lookup_validItems _, hall (hasId_of_writeBatch hrun)⟩

end Written

/-! ### Chunked calls -/

/-- A valid item of the whole input, and the call that it is in. -/
structure BulkPosition where
  call : Nat
  entry : BulkEntry

/-- The valid items of all calls. -/
def bulkPositions (w : WritePath) (metadata : Metadata) (calls : List (List BulkItem)) :
    List BulkPosition :=
  (calls.mapIdx fun call items => (validItems w metadata items).map (BulkPosition.mk call)).flatten

/-- One try of a call at an instant. The process may die after some reads and
writes of the store; a reply that gets lost is a death after the last of
them. -/
structure BulkAttempt where
  call : Nat
  now : Int
  death : Option Nat

/-- The store, and the replies that the caller has received. -/
structure BulkProgress where
  store : LocalStore
  replies : List (Nat × List (Option String))

section Chunks

variable (py : Python) (w : WritePath) (tools : IdTools) (registered : Bool) (agentId key : String)
  (options : BulkOptions) (strict : Bool) (calls : List (List BulkItem))

def BulkAttempt.step (attempt : BulkAttempt) (p : BulkProgress) : BulkProgress :=
  match calls[attempt.call]? with
  | none => p
  | some items =>
      let client := storeManySync py w tools registered agentId key options strict attempt.now items
      match attempt.death with
      | some n => { p with store := (client.killed n p.store).2 }
      | none =>
          match client.run p.store with
          | (.ok report, s) => ⟨s, p.replies ++ [(attempt.call, report.ids)]⟩
          | (.error _, s) => { p with store := s }

/-- The state after all attempts. -/
def bulkRun (attempts : List BulkAttempt) (start : LocalStore) : BulkProgress :=
  run (BulkAttempt.step py w tools registered agentId key options strict calls) attempts ⟨start, []⟩

/-- Each call has been answered. -/
def BulkProgress.Complete (p : BulkProgress) : Prop :=
  ∀ call < calls.length, ∃ ids, (call, ids) ∈ p.replies

/-- No memory has the id of an item yet. -/
def LocalStore.FreshFor (start : LocalStore) : Prop :=
  ∀ row ∈ start.db.fragments.rows, ∀ position ∈ bulkPositions w options.metadata calls,
    row.id ≠ position.entry.id tools agentId key

/-- The hashes of the texts and the ids of the names do not collide. -/
structure IdTools.Distinguishes : Prop where
  sha256 : ∀ p ∈ bulkPositions w options.metadata calls,
    ∀ q ∈ bulkPositions w options.metadata calls,
      tools.sha256 p.entry.text = tools.sha256 q.entry.text → p.entry.text = q.entry.text
  uuid5 : ∀ p ∈ bulkPositions w options.metadata calls,
    ∀ q ∈ bulkPositions w options.metadata calls,
      p.entry.id tools agentId key = q.entry.id tools agentId key →
        idempotentName tools agentId key p.entry.index p.entry.text =
          idempotentName tools agentId key q.entry.index q.entry.text

/-- Every valid item is stored once, each under an id of its own, all else is
as before, and the replies say the ids in the order of the items. -/
def BulkProgress.ExactlyOnce (start : LocalStore) (p : BulkProgress) : Prop :=
  ∃ idOf : BulkPosition → String,
    (p.store.db.fragments.rows.map Fragment.id).Perm
        (start.db.fragments.rows.map Fragment.id ++
          (bulkPositions w options.metadata calls).map idOf) ∧
      (∀ row ∈ start.db.fragments.rows, row ∈ p.store.db.fragments.rows) ∧
      (∀ position ∈ bulkPositions w options.metadata calls, ∃ row ∈ p.store.db.fragments.rows,
        row.id = idOf position ∧ position.entry.StoredAs w registered agentId options row) ∧
      ∀ reply ∈ p.replies, ∃ items, calls[reply.1]? = some items ∧
        reply.2 = alignedIds w options.metadata (fun entry => idOf ⟨reply.1, entry⟩) items

/-- Valid items at one position of different calls have different texts. -/
def DistinctTexts : Prop :=
  ∀ p ∈ bulkPositions w options.metadata calls, ∀ q ∈ bulkPositions w options.metadata calls,
    p.call ≠ q.call → p.entry.index = q.entry.index → p.entry.text ≠ q.entry.text

end Chunks

section Positions

variable {w : WritePath} {tools : IdTools} {agentId key : String} {options : BulkOptions}
  {calls : List (List BulkItem)}

theorem mem_bulkPositions {metadata : Metadata} {p : BulkPosition} :
    p ∈ bulkPositions w metadata calls ↔
      ∃ items, calls[p.call]? = some items ∧ p.entry ∈ validItems w metadata items := by
  unfold bulkPositions
  rw [List.mem_flatten]
  constructor
  · rintro ⟨part, hpart, hp⟩
    obtain ⟨call, hcall, rfl⟩ := List.mem_mapIdx.mp hpart
    obtain ⟨entry, hentry, rfl⟩ := List.mem_map.mp hp
    exact ⟨calls[call], List.getElem?_eq_getElem hcall, hentry⟩
  · rintro ⟨items, hcall, hentry⟩
    obtain ⟨hlt, rfl⟩ := List.getElem?_eq_some_iff.mp hcall
    exact ⟨_, List.mem_mapIdx.mpr ⟨p.call, hlt, rfl⟩, List.mem_map.mpr ⟨p.entry, hentry, rfl⟩⟩

/-- No two of the positions have the same call and the same place in it. -/
theorem pairwise_bulkPositions {metadata : Metadata} :
    (bulkPositions w metadata calls).Pairwise fun p q =>
      p.call ≠ q.call ∨ p.entry.index ≠ q.entry.index := by
  unfold bulkPositions
  rw [List.pairwise_flatten]
  constructor
  · intro part hpart
    obtain ⟨call, hcall, rfl⟩ := List.mem_mapIdx.mp hpart
    rw [List.pairwise_map]
    exact (List.pairwise_map.mp nodup_index_validItems).imp fun h => .inr h
  · rw [List.pairwise_iff_getElem]
    intro i j hi hj hlt p hp q hq
    rw [List.getElem_mapIdx] at hp hq
    obtain ⟨entry, -, rfl⟩ := List.mem_map.mp hp
    obtain ⟨entry', -, rfl⟩ := List.mem_map.mp hq
    left
    show i ≠ j
    omega

/-- Distinct texts at one position are what distinct ids need. -/
theorem nodup_ids_iff (hids : tools.Distinguishes w agentId key options calls) :
    ((bulkPositions w options.metadata calls).map fun p =>
      p.entry.id tools agentId key).Nodup ↔ DistinctTexts w options calls := by
  constructor
  · intro hnodup p hp q hq hcall hindex htext
    have hid : p.entry.id tools agentId key = q.entry.id tools agentId key := by
      rw [BulkEntry.id, BulkEntry.id, hindex, htext]
    exact hcall (congrArg BulkPosition.call (List.inj_on_of_nodup_map hnodup hp hq hid))
  · intro hdistinct
    refine List.pairwise_map.mpr (pairwise_bulkPositions.imp_of_mem fun {p q} hp hq hne hid => ?_)
    obtain ⟨hindex, hsha⟩ := idempotentName_inj (hids.uuid5 p hp q hq hid)
    have htext := hids.sha256 p hp q hq hsha
    rcases hne with hcall | hplace
    · exact hdistinct p hp q hq hcall hindex htext
    · exact hplace hindex

end Positions

/-! ### Runs of chunked calls -/

section Attempts

variable {py : Python} {w : WritePath} {tools : IdTools} {registered : Bool} {agentId key : String}
  {options : BulkOptions} {strict : Bool} {calls : List (List BulkItem)} {start : LocalStore}

/-- The memories are those from before, and rows of the input. -/
structure BulkSound (w : WritePath) (tools : IdTools) (registered : Bool) (agentId key : String)
    (options : BulkOptions) (calls : List (List BulkItem)) (start : LocalStore) (db : Db) :
    Prop where
  kept : ∀ row ∈ start.db.fragments.rows, row ∈ db.fragments.rows
  made : ∀ row ∈ db.fragments.rows, row ∈ start.db.fragments.rows ∨
    ∃ p ∈ bulkPositions w options.metadata calls, row.id = p.entry.id tools agentId key ∧
      p.entry.StoredAs w registered agentId options row

/-- An item is written without touching the memories from before. -/
theorem safe_bulkSound (hfresh : start.FreshFor w tools agentId key options calls) {call : Nat}
    {items : List BulkItem} (hcall : calls[call]? = some items) {entry : BulkEntry}
    (hentry : entry ∈ validItems w options.metadata items) :
    entry.Safe w tools registered agentId key options
      (BulkSound w tools registered agentId key options calls start) := by
  intro row hid hstored db h
  have hposition : (⟨call, entry⟩ : BulkPosition) ∈ bulkPositions w options.metadata calls :=
    mem_bulkPositions.mpr ⟨items, hcall, hentry⟩
  constructor
  · intro old hold
    refine Table.mem_upsert_of_ne (h.kept old hold) ?_
    rw [hid]
    exact hfresh old hold ⟨call, entry⟩ hposition
  · intro found hfound
    rcases Table.mem_upsert hfound with hold | rfl
    · exact h.made found hold
    · exact .inr ⟨⟨call, entry⟩, hposition, hid, hstored⟩

/-- What holds after any attempts. -/
structure BulkInvariant (w : WritePath) (tools : IdTools) (registered : Bool)
    (agentId key : String) (options : BulkOptions) (calls : List (List BulkItem))
    (start : LocalStore) (p : BulkProgress) : Prop where
  sound : BulkSound w tools registered agentId key options calls start p.store.db
  replied : ∀ reply ∈ p.replies, ∃ items, calls[reply.1]? = some items ∧
    reply.2 = alignedIds w options.metadata (BulkEntry.id tools agentId key) items ∧
      ∀ entry ∈ validItems w options.metadata items,
        p.store.db.HasId (entry.id tools agentId key)

theorem invariant_step (hfresh : start.FreshFor w tools agentId key options calls)
    (attempt : BulkAttempt) {p : BulkProgress}
    (h : BulkInvariant w tools registered agentId key options calls start p) :
    BulkInvariant w tools registered agentId key options calls start
      (attempt.step py w tools registered agentId key options strict calls p) := by
  unfold BulkAttempt.step
  cases hcall : calls[attempt.call]? with
  | none => exact h
  | some items =>
      have hsound : (storeManySync py w tools registered agentId key options strict attempt.now
          items).Keeps (fun s => BulkSound w tools registered agentId key options calls start s.db)
            fun _ => True :=
        keeps_storeManySync fun entry hentry => safe_bulkSound hfresh hcall hentry
      have hids : ∀ id, (storeManySync py w tools registered agentId key options strict attempt.now
          items).Keeps (fun s => s.db.HasId id) fun _ => True :=
        fun id => keeps_storeManySync fun entry _ => safe_hasId id entry
      dsimp only
      cases hdeath : attempt.death with
      | some n =>
          refine ⟨hsound.dies h.sound (Client.dies_killed n _ p.store), fun reply hreply => ?_⟩
          obtain ⟨items', hitems', hsame, hpresent⟩ := h.replied reply hreply
          exact ⟨items', hitems', hsame, fun entry hentry =>
            (hids _).dies (hpresent entry hentry) (Client.dies_killed n _ p.store)⟩
      | none =>
          have hend := hsound.after h.sound
          have hkept := fun id => (hids id).after (s := p.store)
          unfold Client.after at hend hkept
          dsimp only
          cases hrun : Client.run (storeManySync py w tools registered agentId key options strict
              attempt.now items) p.store with
          | mk result s =>
              rw [hrun] at hend hkept
              have hold : ∀ reply ∈ p.replies, ∃ items, calls[reply.1]? = some items ∧
                  reply.2 = alignedIds w options.metadata (BulkEntry.id tools agentId key) items ∧
                    ∀ entry ∈ validItems w options.metadata items,
                      s.db.HasId (entry.id tools agentId key) := by
                intro reply hreply
                obtain ⟨items', hitems', hsame, hpresent⟩ := h.replied reply hreply
                exact ⟨items', hitems', hsame, fun entry hentry => hkept _ (hpresent entry hentry)⟩
              cases result with
              | error e => exact ⟨hend, hold⟩
              | ok report =>
                  refine ⟨hend, fun reply hreply => ?_⟩
                  rcases List.mem_append.mp hreply with hreply | hreply
                  · exact hold reply hreply
                  · obtain rfl := List.mem_singleton.mp hreply
                    exact ⟨items, hcall, run_storeManySync hrun⟩

theorem invariant_bulkRun (hfresh : start.FreshFor w tools agentId key options calls)
    (attempts : List BulkAttempt) :
    BulkInvariant w tools registered agentId key options calls start
      (bulkRun py w tools registered agentId key options strict calls attempts start) := by
  have hstart : BulkInvariant w tools registered agentId key options calls start ⟨start, []⟩ :=
    ⟨⟨fun row hrow => hrow, fun row hrow => .inl hrow⟩,
      fun reply hreply => absurd hreply List.not_mem_nil⟩
  exact (along_of_forall (fun _ _ _ => trivial) _).invariant
    (P := fun _ _ => True) (fun attempt p h _ => invariant_step hfresh attempt h) hstart

/-- Once all calls are answered, the memories are those from before and one
for each id of the input. -/
theorem perm_ids_of_complete (hfresh : start.FreshFor w tools agentId key options calls)
    {p : BulkProgress}
    (h : BulkInvariant w tools registered agentId key options calls start p)
    (hcomplete : p.Complete calls) :
    (p.store.db.fragments.rows.map Fragment.id).Perm
      (start.db.fragments.rows.map Fragment.id ++
        ((bulkPositions w options.metadata calls).map fun position =>
          position.entry.id tools agentId key).dedup) := by
  have hnodup : (start.db.fragments.rows.map Fragment.id ++
      ((bulkPositions w options.metadata calls).map fun position =>
        position.entry.id tools agentId key).dedup).Nodup := by
    refine start.db.fragments.nodup.append (List.nodup_dedup _) fun id hold hnew => ?_
    obtain ⟨row, hrow, rfl⟩ := List.mem_map.mp hold
    obtain ⟨position, hposition, hid⟩ := List.mem_map.mp (List.mem_dedup.mp hnew)
    exact hfresh row hrow position hposition hid.symm
  refine (List.perm_ext_iff_of_nodup p.store.db.fragments.nodup hnodup).mpr fun id => ?_
  rw [List.mem_append, List.mem_dedup]
  constructor
  · intro hin
    obtain ⟨row, hrow, rfl⟩ := List.mem_map.mp hin
    rcases h.sound.made row hrow with hold | ⟨position, hposition, hid, -⟩
    · exact .inl (List.mem_map_of_mem hold)
    · exact .inr (List.mem_map.mpr ⟨position, hposition, hid.symm⟩)
  · rintro (hold | hnew)
    · obtain ⟨row, hrow, rfl⟩ := List.mem_map.mp hold
      exact List.mem_map_of_mem (h.sound.kept row hrow)
    · obtain ⟨position, hposition, rfl⟩ := List.mem_map.mp hnew
      obtain ⟨items, hcall, hentry⟩ := mem_bulkPositions.mp hposition
      obtain ⟨hlt, -⟩ := List.getElem?_eq_some_iff.mp hcall
      obtain ⟨ids, hreply⟩ := hcomplete position.call hlt
      obtain ⟨items', hcall', -, hpresent⟩ := h.replied _ hreply
      obtain rfl := Option.some.inj (hcall.symm.trans hcall')
      exact hpresent position.entry hentry

/-- The row of an item is one that was made of it, when ids are distinct. -/
theorem exists_row_of_nodup (hfresh : start.FreshFor w tools agentId key options calls)
    {p : BulkProgress}
    (h : BulkInvariant w tools registered agentId key options calls start p)
    (hcomplete : p.Complete calls)
    (hnodup : ((bulkPositions w options.metadata calls).map fun position =>
      position.entry.id tools agentId key).Nodup) {position : BulkPosition}
    (hposition : position ∈ bulkPositions w options.metadata calls) :
    ∃ row ∈ p.store.db.fragments.rows, row.id = position.entry.id tools agentId key ∧
      position.entry.StoredAs w registered agentId options row := by
  have hin : position.entry.id tools agentId key ∈ p.store.db.fragments.rows.map Fragment.id := by
    rw [(perm_ids_of_complete hfresh h hcomplete).mem_iff, List.mem_append, List.mem_dedup]
    exact .inr (List.mem_map_of_mem hposition)
  obtain ⟨row, hrow, hid⟩ := List.mem_map.mp hin
  rcases h.sound.made row hrow with hold | ⟨other, hother, hid', hstored⟩
  · exact absurd hid (hfresh row hold position hposition)
  · have hsame : other = position :=
      List.inj_on_of_nodup_map hnodup hother hposition (hid'.symm.trans hid)
    rw [hsame] at hstored
    exact ⟨row, hrow, hid, hstored⟩

/-- Whatever dies or is repeated, items are stored exactly once if and only if
valid items at one position of different calls differ. -/
theorem storeManySync_exactlyOnce_iff (hids : tools.Distinguishes w agentId key options calls)
    (hfresh : start.FreshFor w tools agentId key options calls) (attempts : List BulkAttempt)
    (hcomplete : (bulkRun py w tools registered agentId key options strict calls attempts
      start).Complete calls) :
    (bulkRun py w tools registered agentId key options strict calls attempts start).ExactlyOnce
        w registered agentId options calls start ↔
      DistinctTexts w options calls := by
  have h : BulkInvariant w tools registered agentId key options calls start
      (bulkRun py w tools registered agentId key options strict calls attempts start) :=
    invariant_bulkRun hfresh attempts
  have hperm := perm_ids_of_complete hfresh h hcomplete
  rw [← nodup_ids_iff hids]
  constructor
  · rintro ⟨idOf, hall, -⟩
    have hlength := (hall.symm.trans hperm).length_eq
    rw [List.length_append, List.length_append, List.length_map (f := idOf)] at hlength
    rw [← List.dedup_eq_self]
    refine (List.dedup_sublist _).eq_of_length ?_
    rw [List.length_map]
    omega
  · intro hnodup
    refine ⟨fun position => position.entry.id tools agentId key, ?_, h.sound.kept, ?_, ?_⟩
    · rw [← List.dedup_eq_self.mpr hnodup]
      exact hperm
    · exact fun position hposition => exists_row_of_nodup hfresh h hcomplete hnodup hposition
    · intro reply hreply
      obtain ⟨items, hcall, hids, -⟩ := h.replied reply hreply
      exact ⟨items, hcall, hids⟩

end Attempts

/-! ### Two chunks with one key -/

section Notes

/-- SHA-256 of `a` and of `b`, and the ids that come of them for the first
item of an import of `ada`. -/
def noteTools : IdTools where
  sha256 text :=
    if text = "a" then "ca978112ca1bbdcafac231b39a23dc4da786eff8147c4e72b9807785afee48bb"
    else if text = "b" then "3e23e8160039594a33894f6564e1b1348bbd7a0088d42c4acb73eeaed59c009d"
    else text
  uuid5 name :=
    if name = "ada\x1fimport\x1f0\x1fca978112ca1bbdcafac231b39a23dc4da786eff8147c4e72b9807785afee48bb"
    then "c2b9f934-b863-5189-8012-f10f87201092"
    else if
      name = "ada\x1fimport\x1f0\x1f3e23e8160039594a33894f6564e1b1348bbd7a0088d42c4acb73eeaed59c009d"
    then "dce85367-dcad-5ff8-a2a3-bd5cee93fc45"
    else name

def noteCalls (second : String) : List (List BulkItem) :=
  [[{ content := .text "a" }], [{ content := .text second }]]

/-- The first call is killed, is then answered without the reply getting
through, and is repeated. -/
def noteAttempts : List BulkAttempt := [⟨0, 1, some 1⟩, ⟨0, 2, some 9⟩, ⟨0, 3, none⟩, ⟨1, 4, none⟩]

def noteRun (second : String) : BulkProgress :=
  bulkRun .basic .plain noteTools false "ada" "import" {} false (noteCalls second) noteAttempts .empty

theorem noteRun_complete {second : String} (h : (noteRun second).replies.map Prod.fst = [0, 1]) :
    (noteRun second).Complete (noteCalls second) := by
  intro call hcall
  have hin : call ∈ (noteRun second).replies.map Prod.fst := by
    have hlt : call < 2 := hcall
    rw [h]
    simp
    omega
  obtain ⟨reply, hreply, rfl⟩ := List.mem_map.mp hin
  exact ⟨reply.2, hreply⟩

theorem noteCalls_fresh (second : String) :
    LocalStore.empty.FreshFor .plain noteTools "ada" "import" {} (noteCalls second) :=
  fun _ hrow => absurd hrow List.not_mem_nil

theorem storeManySync_exactlyOnce_two_chunks :
    (noteRun "b").ExactlyOnce .plain false "ada" {} (noteCalls "b") .empty := by
  refine (storeManySync_exactlyOnce_iff ⟨by decide +kernel, by decide +kernel⟩
    (noteCalls_fresh "b") noteAttempts (noteRun_complete (by decide +kernel))).mpr ?_
  unfold DistinctTexts
  decide +kernel

/-- The same text first in both chunks is stored once. -/
theorem storeManySync_not_exactlyOnce :
    ¬ ∀ (py : Python) (w : WritePath) (tools : IdTools) (registered : Bool) (agentId key : String)
      (options : BulkOptions) (strict : Bool) (calls : List (List BulkItem)) (start : LocalStore)
      (attempts : List BulkAttempt), tools.Distinguishes w agentId key options calls →
        start.FreshFor w tools agentId key options calls →
        (bulkRun py w tools registered agentId key options strict calls attempts start).Complete
          calls →
        (bulkRun py w tools registered agentId key options strict calls attempts start).ExactlyOnce
          w registered agentId options calls start := by
  intro h
  obtain ⟨idOf, hperm, -⟩ := h .basic .plain noteTools false "ada" "import" {} false
    (noteCalls "a") .empty noteAttempts ⟨by decide +kernel, by decide +kernel⟩
    (noteCalls_fresh "a") (noteRun_complete (by decide +kernel))
  have hlength := hperm.length_eq
  rw [List.length_append, List.length_map, List.length_map, List.length_map] at hlength
  have hone : (noteRun "a").store.db.fragments.rows.length = 1 := by decide +kernel
  have htwo : (bulkPositions .plain ({} : BulkOptions).metadata (noteCalls "a")).length = 2 := by
    decide +kernel
  have hnone : LocalStore.empty.db.fragments.rows.length = 0 := rfl
  unfold noteRun at hone
  omega

end Notes

end MarkSdk
