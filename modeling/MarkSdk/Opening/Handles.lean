import Mathlib.Logic.Function.Basic
import MarkSdk.Lib.Runs
import MarkSdk.Opening.TextIndex
import MarkSdk.Sketches.Candidates

/-!
The processes that have one database file open, and what they write.

A writing call reads the row of its id before its first write takes the lock of
the file, so another process may change the row in between. From then on the
call is one transaction. The calls of one process wait for each other. A file
may be opened with any provider at any time.
-/

namespace MarkSdk

open Lib

/-- `UPDATE fragments SET` of columns that no text index holds. -/
structure ColumnChange where
  which : Fragment → Bool
  change : Fragment → Fragment
  keeps : ∀ f, (change f).id = f.id ∧ (change f).agentId = f.agentId ∧ (change f).tags = f.tags

/-- A writing call of a store. `delete` is that of `forget_fragment` as well,
with `retractFacts` or, when it is secure, `deleteFacts`. -/
inductive StoreCall : Type
  | storeMany (ws : List SketchHost.SealedWrite)
  | delete (id : String)
  | clear (agentId : Option String)
  | update (u : ColumnChange)
  | insertFact (id : String) (moment : ByteArray) (value : String)
  | retractFacts (which : String → Bool)
  | deleteFacts (which : String → Bool)

namespace StoreCall

def updateState (now : Int) (fragmentId : String) (newState : MemoryState) : StoreCall :=
  .update ⟨fun f => f.id = fragmentId, Fragment.withState newState now, fun _ => ⟨rfl, rfl, rfl⟩⟩

def persistTampered (now : Int) (fragmentIds : List String) : StoreCall :=
  .update ⟨fun f => fragmentIds.contains f.id && f.state ≠ .contradicted,
    Fragment.withState .contradicted now, fun _ => ⟨rfl, rfl, rfl⟩⟩

def assignFragmentBlock (now : Int) (fragmentId : String) (blockId : Option String) : StoreCall :=
  .update ⟨fun f => f.id = fragmentId, fun f => { f with blockId := blockId, updatedAt := now },
    fun _ => ⟨rfl, rfl, rfl⟩⟩

def updateImportance (now : Int) (fragmentId : String) (importance : ℚ) : StoreCall :=
  .update ⟨fun f => f.id = fragmentId,
    fun f => { f with importance := max 0 (min 1 importance), updatedAt := now },
    fun _ => ⟨rfl, rfl, rfl⟩⟩

/-- `touch`, with the metadata that it read and counted up. -/
def touch (now : Int) (fragmentId : String) (metadata : Metadata) : StoreCall :=
  .update ⟨fun f => f.id = fragmentId, Fragment.touched now metadata, fun _ => ⟨rfl, rfl, rfl⟩⟩

def updateEmbedding (fragmentId : String) (embedding : List ℚ) : StoreCall :=
  .update ⟨fun f => f.id = fragmentId, fun f => { f with embedding := some embedding },
    fun _ => ⟨rfl, rfl, rfl⟩⟩

end StoreCall

/-- The row that a call has read: its rowid and its agent. -/
abbrev SeenRow := Option (Nat × String)

/-- `SELECT rowid, agent_id FROM fragments WHERE id = ?` -/
def StoreFile.seen (file : StoreFile) (id : String) : SeenRow :=
  (file.fragments.find? id).map fun e => (e.1, e.2.columns.agentId)

/-- The rowid that `_store_row` goes on with. `lastRowid` is what the cursor
says when nothing was inserted. -/
def StoreFile.writtenRowid (file : StoreFile) (seen : SeenRow) (lastRowid : Nat) (id : String) :
    Nat :=
  match seen with
  | some row => row.1
  | none => if (file.fragments.find? id).isNone then file.fragments.next else lastRowid

inductive WriteError : Type
  | store (e : StoreError)
  | operational (message : String)
  deriving DecidableEq, Repr

namespace OpenHost

variable (host : OpenHost) (store : OpenStore) (lastRowid : Nat)

def rowOf (w : SketchHost.SealedWrite) : StoredRow :=
  ⟨{ w.fragment with content := "" },
    store.provider.encryptStr host.fernet w.moment w.fragment.content⟩

/-- `_store_row`, which has read `seen`. -/
def storeRow (seen : SeenRow) (w : SketchHost.SealedWrite) (file : StoreFile) :
    Except WriteError StoreFile :=
  if seen.any fun row => row.2 ≠ w.fragment.agentId then
    .error (.store (.valueError ("Fragment id " ++ host.py.repr w.fragment.id ++
      " already belongs to another agent; refusing to overwrite it.")))
  else
    let row := host.rowOf store w
    let after := { file with fragments := file.fragments.upsert row }
    let rowid := file.writtenRowid seen lastRowid w.fragment.id
    if store.ftsEnabled then
      match host.ftsUpsert store.ftsMlEnabled rowid row.columns w.fragment.content after with
      | none => .error (.operational "no such table: fragments_fts")
      | some after => .ok after
    else .ok after

/-- The rest of the loop of `store_many`, inside the transaction. -/
def storeRows : List SketchHost.SealedWrite → StoreFile → Except WriteError StoreFile
  | [], file => .ok file
  | w :: ws, file =>
      match host.storeRow store lastRowid (file.seen w.fragment.id) w file with
      | .error e => .error e
      | .ok file => storeRows ws file

/-- `DELETE FROM fragments WHERE ...`, with the trigger of the multilingual
table. -/
def deleteRows (which : StoredRow → Bool) (file : StoreFile) : StoreFile :=
  { file with
    fragments := file.fragments.delete which
    ftsMl := file.ftsMl.map (RowidTable.deleteEntries file.fragments which) }

/-- `DELETE FROM fragments_fts ...` of a store that keeps the index. -/
def deleteFts (delete : Dict Nat FtsRow → Dict Nat FtsRow) (file : StoreFile) :
    Except WriteError StoreFile :=
  if store.ftsEnabled then
    match file.fts with
    | none => .error (.operational "no such table: fragments_fts")
    | some fts => .ok { file with fts := some (delete fts) }
  else .ok file

/-- The transaction of a call that has read `seen`. -/
def call (seen : SeenRow) (file : StoreFile) : StoreCall → Except WriteError StoreFile
  | .storeMany [] => .ok file
  | .storeMany (w :: ws) =>
      match host.storeRow store lastRowid seen w file with
      | .error e => .error e
      | .ok file => host.storeRows store lastRowid ws file
  | .delete id =>
      match seen with
      | none => .ok file
      | some row =>
          (deleteFts store (fun fts => fts.pop row.1) file).map
            (deleteRows fun r => r.columns.id = id)
  | .clear agentId =>
      let which := fun r : StoredRow => agentId.all fun agent => r.columns.agentId = agent
      let entries :=
        match agentId with
        | none => fun _ => .empty
        | some _ => RowidTable.deleteEntries file.fragments which
      (deleteFts store entries file).map (deleteRows which)
  | .update u =>
      .ok { file with
        fragments := file.fragments.update (fun r => u.which r.columns)
          (fun r => { r with columns := u.change r.columns }) fun r => (u.keeps r.columns).1 }
  | .insertFact id moment value =>
      if (file.facts.find? id).isSome then
        .error (.store (.integrityError "UNIQUE constraint failed: facts.id"))
      else
        .ok { file with
          facts := file.facts.upsert
            ⟨id, store.provider.encryptStr host.fernet moment value, false, false⟩ }
  | .retractFacts which =>
      .ok { file with
        facts := file.facts.update (fun r => which r.id) (fun r => { r with retracted := true })
          fun _ => rfl }
  | .deleteFacts which => .ok { file with facts := file.facts.delete fun r => which r.id }

end OpenHost

/-- The row that the first statement of a call reads. -/
def StoreCall.look (file : StoreFile) : StoreCall → SeenRow
  | .storeMany (w :: _) => file.seen w.fragment.id
  | .delete id => file.seen id
  | _ => none

/-! ### Runs -/

/-- A process with the store open, and its call that has read and not yet
written. -/
structure OpenProcess where
  store : OpenStore
  pending : Option (StoreCall × SeenRow)

structure OpenWorld where
  file : StoreFile
  processes : Nat → Option OpenProcess

def OpenWorld.start (file : StoreFile) : OpenWorld := ⟨file, fun _ => none⟩

/-- A step of a process. `finish` is the transaction of its call, which may
fail for other reasons and then rolls back. -/
inductive OpenStep : Type
  | opens (p : Nat) (provider : EncryptionProvider) (moment : ByteArray)
  | closes (p : Nat)
  | begins (p : Nat) (call : StoreCall)
  | finish (p : Nat) (fails : Bool) (lastRowid : Nat)

def OpenHost.commit (host : OpenHost) (store : OpenStore) (fails : Bool) (lastRowid : Nat)
    (call : StoreCall) (seen : SeenRow) (file : StoreFile) : StoreFile :=
  match host.call store lastRowid seen file call with
  | .error _ => file
  | .ok after => if fails then file else after

def OpenStep.apply (host : OpenHost) (step : OpenStep) (w : OpenWorld) : OpenWorld :=
  match step with
  | .opens p provider moment =>
      match w.processes p with
      | some _ => w
      | none =>
          let opened := host.initSchema provider moment w.file
          ⟨opened.1, Function.update w.processes p
            (opened.2.toOption.map fun store => ⟨store, none⟩)⟩
  | .closes p => { w with processes := Function.update w.processes p none }
  | .begins p call =>
      match w.processes p with
      | some ⟨store, none⟩ =>
          let pending := some (call, call.look w.file)
          { w with processes := Function.update w.processes p (some ⟨store, pending⟩) }
      | _ => w
  | .finish p fails lastRowid =>
      match w.processes p with
      | some ⟨store, some (call, seen)⟩ =>
          ⟨host.commit store fails lastRowid call seen w.file,
            Function.update w.processes p (some ⟨store, none⟩)⟩
      | _ => w

end MarkSdk
