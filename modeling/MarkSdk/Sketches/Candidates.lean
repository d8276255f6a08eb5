import Mathlib.Algebra.Order.Ring.Rat
import Mathlib.Logic.Function.Basic
import MarkSdk.Sketches.Tokens
import MarkSdk.Store.Encryption
import MarkSdk.Store.Filters
import MarkSdk.Store.Fragments

/-!
The encrypted store and the token sketches of its processes.

The file has the rows, with their ciphertext, and the write counter that every
structural write moves on. A process keeps the sketches that it has made, by
rowid and with a stamp of the ciphertext, and for each query the rows that it
scanned at a version of the counter. `_sketch_written` changes the sketches
while the transaction is open, and a rollback does not change them back.
-/

namespace MarkSdk

open Lib

/-- What a keyed sketch was made from, and its bits. -/
structure Sketch where
  stamp : List UInt8
  bits : Nat
  deriving DecidableEq

/-- `STAMP_SQL`: the last 16 bytes of the ciphertext. -/
def stampOf (content : ByteArray) : List UInt8 :=
  content.data.toList.drop (content.data.toList.length - 16)

/-- A row of `fragments` of an encrypted store. The text stands in `content`
only, as ciphertext. -/
structure SealedRow where
  rowid : Nat
  columns : Fragment
  content : ByteArray

/-- The database file. `sketches` is the table `fragment_sketches`, while
`persist_token_sketches` is on. -/
structure SketchFile where
  rows : List SealedRow
  blocks : Table Block.id
  writeVersion : Int
  sketches : Option (Nat → Option Sketch)

def SketchFile.empty : SketchFile := ⟨[], .empty, 0, none⟩

/-- What a process keeps: `_token_sketches` and `_sketch_scans`. -/
structure SketchMemory where
  known : Option (Nat → Option Sketch)
  scans : List (List Clause × (Int × List Nat))

def SketchMemory.empty : SketchMemory := ⟨none, []⟩

/-- `self.__dict__.setdefault("_token_sketches", {})` -/
def SketchMemory.sketches (memory : SketchMemory) : Nat → Option Sketch :=
  memory.known.getD fun _ => none

/-- What the processes of one store share: its encryption and the key of the
sketches. -/
structure SketchHost where
  py : Python
  fernet : Fernet
  provider : EncryptionProvider
  sketcher : TokenSketcher

namespace SketchHost

variable (host : SketchHost)

/-- `encrypt_str`, at a moment. -/
def sealed (moment : ByteArray) (text : String) : ByteArray :=
  host.provider.encrypt host.fernet moment text.toUTF8

/-- `decrypt_str` of the content; nothing when it raises. -/
def opened (content : ByteArray) : Option String :=
  (host.provider.decryptStr host.fernet (.blob content)).toOption

/-- The sketch of a row that was just written. -/
def sketchOf (content : ByteArray) (text : String) : Sketch :=
  ⟨stampOf content, host.sketcher.sketch host.py text⟩

/-! ### Storing -/

/-- A fragment to store, and the moment of its encryption. -/
structure SealedWrite where
  fragment : Fragment
  moment : ByteArray

/-- The ciphertext of the write. -/
def SealedWrite.content (w : SealedWrite) : ByteArray := host.sealed w.moment w.fragment.content

def sketchWritten (rowid : Nat) (w : SealedWrite) (memory : SketchMemory) : SketchMemory :=
  { memory with
    known := memory.known.map fun known =>
      Function.update known rowid (some (host.sketchOf (w.content host) w.fragment.content)) }

def nextRowid (rows : List SealedRow) : Nat := (rows.map SealedRow.rowid).foldl max 0 + 1

/-- `_store_row`: a row keeps its rowid when it is replaced. -/
def storeRow (w : SealedWrite) (file : SketchFile) : Except StoreError (SketchFile × Nat) :=
  let columns := { w.fragment with content := "" }
  match file.rows.find? fun r => r.columns.id = w.fragment.id with
  | some row =>
      if row.columns.agentId ≠ w.fragment.agentId then
        .error (.valueError ("Fragment id " ++ host.py.repr w.fragment.id ++
          " already belongs to another agent; refusing to overwrite it."))
      else
        .ok ({ file with
          rows := file.rows.map fun r =>
            if r.columns.id = w.fragment.id then ⟨r.rowid, columns, w.content host⟩ else r },
          row.rowid)
  | none =>
      let rowid := nextRowid file.rows
      .ok ({ file with rows := file.rows ++ [⟨rowid, columns, w.content host⟩] }, rowid)

/-- The rows that the loop of `store_many` has written, and the file as the
transaction sees it. -/
def storeRows : List SealedWrite → SketchFile →
    List (Nat × SealedWrite) × Except StoreError SketchFile
  | [], file => ([], .ok file)
  | w :: ws, file =>
      match host.storeRow w file with
      | .error e => ([], .error e)
      | .ok (file, rowid) =>
          let rest := storeRows ws file
          ((rowid, w) :: rest.1, rest.2)

/-- The commit of a structural write. -/
def bump (file : SketchFile) : SketchFile := { file with writeVersion := file.writeVersion + 1 }

/-- `store_many`; `fails` when something raises behind the last row. The
sketches stay as they are after a rollback. -/
def storeMany (ws : List SealedWrite) (fails : Bool) (file : SketchFile)
    (memory : SketchMemory) : SketchFile × SketchMemory :=
  let stored := host.storeRows ws file
  let memory := stored.1.foldl (fun memory e => host.sketchWritten e.1 e.2 memory) memory
  match stored.2 with
  | .error _ => (file, memory)
  | .ok after => (if fails then file else bump after, memory)

end SketchHost

/-! ### The other writes -/

/-- `UPDATE fragments SET` of columns other than the content. One that is not
structural leaves the columns alone that a filter looks at. -/
structure ColumnUpdate where
  which : Fragment → Bool
  change : Fragment → Fragment
  structural : Bool
  scope_eq : structural = false → ∀ f, (change f).SameScope f

/-- A write that encrypts nothing; `other` is a structural one to other tables. -/
inductive SealedChange : Type
  | update (u : ColumnUpdate)
  | delete (which : Fragment → Bool)
  | storeBlock (block : Block)
  | other

namespace SealedChange

def updateState (now : Int) (fragmentId : String) (newState : MemoryState) : SealedChange :=
  .update ⟨fun f => f.id = fragmentId, Fragment.withState newState now, true, fun h => by cases h⟩

def persistTampered (now : Int) (fragmentIds : List String) : SealedChange :=
  .update ⟨fun f => fragmentIds.contains f.id && f.state ≠ .contradicted,
    Fragment.withState .contradicted now, true, fun h => by cases h⟩

def assignFragmentBlock (now : Int) (fragmentId : String) (blockId : Option String) :
    SealedChange :=
  .update ⟨fun f => f.id = fragmentId, fun f => { f with blockId := blockId, updatedAt := now },
    true, fun h => by cases h⟩

def updateImportance (now : Int) (fragmentId : String) (importance : ℚ) : SealedChange :=
  .update ⟨fun f => f.id = fragmentId,
    fun f => { f with importance := max 0 (min 1 importance), updatedAt := now }, false,
    fun _ _ => ⟨rfl, rfl, rfl, rfl, rfl, rfl, rfl, rfl, rfl⟩⟩

/-- `touch`, with the metadata that it read and counted up. -/
def touch (now : Int) (fragmentId : String) (metadata : Metadata) : SealedChange :=
  .update ⟨fun f => f.id = fragmentId, Fragment.touched now metadata, false,
    fun _ _ => ⟨rfl, rfl, rfl, rfl, rfl, rfl, rfl, rfl, rfl⟩⟩

def updateEmbedding (fragmentId : String) (embedding : List ℚ) : SealedChange :=
  .update ⟨fun f => f.id = fragmentId, fun f => { f with embedding := some embedding }, false,
    fun _ _ => ⟨rfl, rfl, rfl, rfl, rfl, rfl, rfl, rfl, rfl⟩⟩

/-- `delete` and `forget_fragment` -/
def deleteById (fragmentId : String) : SealedChange := .delete fun f => f.id = fragmentId

def clear (agentId : Option String) : SealedChange :=
  .delete fun f => agentId.all fun id => f.agentId = id

/-- The file after the commit. A row that is deleted takes its sketch along. -/
def apply (file : SketchFile) : SealedChange → SketchFile
  | .update u =>
      let after := { file with
        rows := file.rows.map fun r =>
          if u.which r.columns then { r with columns := u.change r.columns } else r }
      if u.structural then SketchHost.bump after else after
  | .delete which =>
      SketchHost.bump { file with
        rows := file.rows.filter fun r => !which r.columns
        sketches := file.sketches.map fun sketches rowid =>
          if file.rows.any fun r => r.rowid = rowid && which r.columns then none
          else sketches rowid }
  | .storeBlock block => SketchHost.bump { file with blocks := file.blocks.upsert block }
  | .other => SketchHost.bump file

end SealedChange

/-- `persist_token_sketches` -/
def SketchFile.persist (enabled : Bool) (file : SketchFile) : SketchFile :=
  { file with sketches := if enabled then some (file.sketches.getD fun _ => none) else none }

/-! ### Searching -/

namespace SketchHost

variable (host : SketchHost) (file : SketchFile) (now : Int)

/-- The rows of a query, in the order of their rowids. -/
def matching (clauses : List Clause) : List SealedRow :=
  file.rows.filter fun r =>
    r.columns.meets (quarantinedIn file.blocks) clauses && r.columns.ttlLive now

/-- `_sketch_rows`: a row that cannot be decrypted has all bits. -/
def sketchRow (row : SealedRow) : Sketch :=
  match host.opened row.content with
  | some text => host.sketchOf row.content text
  | none => ⟨stampOf row.content, 2 ^ TokenSketcher.sketchBits - 1⟩

/-- The sketch of the row in memory or in the table, unless it is stale. -/
def upToDate (known stored : Nat → Option Sketch) (row : SealedRow) : Option Sketch :=
  ((known row.rowid).filter fun s => s.stamp = stampOf row.content) <|>
    (stored row.rowid).filter fun s => s.stamp = stampOf row.content

/-- The sketches in memory after `_sync_sketches`. -/
def syncKnown (rows : List SealedRow) (known stored : Nat → Option Sketch) (rowid : Nat) :
    Option Sketch :=
  match rows.find? fun r => r.rowid = rowid with
  | some row => some ((upToDate known stored row).getD (host.sketchRow row))
  | none => known rowid

/-- The table of sketches after `_sync_sketches`, which adds the new ones. -/
def syncStored (rows : List SealedRow) (known stored : Nat → Option Sketch) (rowid : Nat) :
    Option Sketch :=
  match rows.find? fun r => r.rowid = rowid with
  | some row =>
      if (upToDate known stored row).isNone then some (host.sketchRow row) else stored rowid
  | none => stored rowid

/-- The rows of the query as of the version, and what is kept of them. -/
def listed (clauses : List Clause) (memory : SketchMemory) :
    List Nat × SketchFile × SketchMemory :=
  let known := memory.sketches
  match (memory.scans.lookup clauses).filter fun hit => hit.1 = file.writeVersion with
  | some hit => (hit.2, file, { memory with known := some known })
  | none =>
      let rows := matching file now clauses
      let stored := file.sketches.getD fun _ => none
      let current := rows.map SealedRow.rowid
      let scans :=
        if memory.scans.length < 16 then memory.scans.filter fun e => e.1 ≠ clauses else []
      (current,
        { file with sketches := file.sketches.map fun stored => host.syncStored rows known stored },
        { known := some (host.syncKnown rows known stored)
          scans := (clauses, file.writeVersion, current) :: scans })

/-- `_sketch_candidates`; nothing when a sketch is missing, for a `KeyError`. -/
def sketchCandidates (clauses : List Clause) (tokens : List String) (memory : SketchMemory) :
    Option (List Nat) :=
  let found := host.listed file now clauses memory
  let wanted := host.sketcher.query tokens
  let hits := found.1.mapM fun rowid =>
    (found.2.2.sketches rowid).map fun sketch =>
      (rowid, decide (sketch.bits &&& wanted = wanted))
  hits.map fun hits => (hits.filter Prod.snd).map Prod.fst

end SketchHost

/-! ### Runs -/

/-- The file, the memory of each process and the clock. -/
structure SketchState where
  file : SketchFile
  memory : Nat → SketchMemory
  now : Int

def SketchState.start (now : Int) : SketchState := ⟨.empty, fun _ => .empty, now⟩

/-- A step of a process; a write that fails rolls back. -/
inductive SketchStep : Type
  | store (p : Nat) (ws : List SketchHost.SealedWrite) (fails : Bool)
  | change (c : SealedChange) (fails : Bool)
  | persist (enabled : Bool)
  | search (p : Nat) (clauses : List Clause)
  | tick (elapsed : Nat)
  | restart (p : Nat)

def SketchStep.apply (host : SketchHost) (s : SketchState) : SketchStep → SketchState
  | .store p ws fails =>
      let after := host.storeMany ws fails s.file (s.memory p)
      { s with file := after.1, memory := Function.update s.memory p after.2 }
  | .change c fails => if fails then s else { s with file := c.apply s.file }
  | .persist enabled => { s with file := s.file.persist enabled }
  | .search p clauses =>
      let found := host.listed s.file s.now clauses (s.memory p)
      { s with file := found.2.1, memory := Function.update s.memory p found.2.2 }
  | .tick elapsed => { s with now := s.now + elapsed }
  | .restart p => { s with memory := Function.update s.memory p .empty }

end MarkSdk
