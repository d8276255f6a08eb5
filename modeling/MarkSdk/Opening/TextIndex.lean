import MarkSdk.Opening.Guard
import MarkSdk.Opening.Words

/-!
Opening a store, and the text indexes that it sets up.

The text indexes hold plaintext under the rowids of the fragments, so they
exist for unencrypted stores only. Opening one makes the tables and fills them
when they are not marked as filled; opening an encrypted one drops them, after
it has put rows into quarantine that are no ciphertext.
-/

namespace MarkSdk

open Lib

/-- What all processes on a machine share: Python, `cryptography`, the Unicode
tables, and whether SQLite has FTS5. -/
structure OpenHost where
  py : Python
  fernet : Fernet
  symbol : Char → Bool
  fts5 : Bool

/-- What a process keeps of a store that it has opened. -/
structure OpenStore where
  provider : EncryptionProvider
  ftsEnabled : Bool
  ftsMlEnabled : Bool

/-! ### Entries -/

/-- The row of `fragments_fts` for a text. -/
def ftsRow (columns : Fragment) (text : String) : FtsRow :=
  ⟨text, joinWords columns.tags, columns.id, columns.agentId⟩

/-- `UNREADABLE_TAG` -/
def quarantineTag : String := "mark:unreadable"

/-- A row of an encrypted store that is no ciphertext. -/
def StoredRow.quarantined (r : StoredRow) : StoredRow :=
  { r with
    columns := { r.columns with state := .quarantined, tags := r.columns.tags ++ [quarantineTag] } }

def FactCell.withdrawn (r : FactCell) : FactCell := { r with retracted := true, unreadable := true }

namespace OpenHost

variable (host : OpenHost)

/-- The row of `fragments_fts_ml`, if the text has one. -/
def ftsMlRow (columns : Fragment) (text : String) : Option FtsMlRow :=
  (multilingualIndexText host.symbol text).map fun prepared =>
    ⟨prepared, columns.id, columns.agentId⟩

/-- `_fts_upsert`; nothing when a table is missing. -/
def ftsUpsert (mlEnabled : Bool) (rowid : Nat) (columns : Fragment) (text : String)
    (file : StoreFile) : Option StoreFile :=
  match file.fts with
  | none => none
  | some fts =>
      let after := { file with
        fts := some (RowidTable.replaceEntry rowid (some (ftsRow columns text)) fts) }
      if mlEnabled then
        match file.ftsMl with
        | none => none
        | some ml =>
            some { after with
              ftsMl := some (RowidTable.replaceEntry rowid (host.ftsMlRow columns text) ml) }
      else some after

/-! ### Opening -/

/-- The text of a row, as filling the index reads it. -/
def textOf (provider : EncryptionProvider) (r : StoredRow) : Option String :=
  (provider.decryptStr host.fernet (.blob r.content.asBytes)).toOption

/-- One row of the loop that fills the tables; a row that cannot be read is
left out. -/
def backfillRow (provider : EncryptionProvider) (porterDone : Bool)
    (tables : Dict Nat FtsRow × Dict Nat FtsMlRow) (e : Nat × StoredRow) :
    Dict Nat FtsRow × Dict Nat FtsMlRow :=
  match host.textOf provider e.2 with
  | none => tables
  | some text =>
      let ml := host.ftsMlRow e.2.columns text
      if porterDone then (tables.1, RowidTable.insertEntry e.1 ml tables.2)
      else
        (RowidTable.replaceEntry e.1 (some (ftsRow e.2.columns text)) tables.1,
          RowidTable.replaceEntry e.1 ml tables.2)

/-- `_init_fts`, with `_fts_enabled` and `_fts_ml_enabled`. -/
def initFts (provider : EncryptionProvider) (file : StoreFile) : StoreFile × Bool × Bool :=
  if !host.fts5 then (file, false, false)
  else if provider.encrypting then
    ({ file with
      fts := none
      ftsMl := none
      info := { file.info with ftsBackfilled := none, ftsMlBackfilled := none } }, false, false)
  else
    let fts := file.fts.getD .empty
    let ml := file.ftsMl.getD .empty
    let porterDone := file.info.ftsBackfilled == some "1"
    if porterDone && file.info.ftsMlBackfilled == some "1" then
      ({ file with fts := some fts, ftsMl := some ml }, true, true)
    else
      let tables := file.fragments.rows.rows.foldl (host.backfillRow provider porterDone)
        (if porterDone then fts else .empty, .empty)
      ({ file with
        fts := some tables.1
        ftsMl := some tables.2
        info := { file.info with ftsBackfilled := some "1", ftsMlBackfilled := some "1" } },
        true, true)

def tokenShaped (data : ByteArray) : Bool :=
  startsWithBytes tokenPrefix data || startsWithBytes tokenPrefix (data.extract 16 data.size)

/-- A column that `_scan` finds: behind the mark, and no ciphertext of the
provider. Blobs that look like a token are left to the reads. -/
def unreadable (provider : EncryptionProvider) (after rowid : Nat) (column : Column) : Bool :=
  decide (after < rowid) &&
    match column with
    | .blob data => !tokenShaped data
    | column => !tokenShaped column.asBytes || !decrypts host.fernet provider column.asBytes

def quarantineUnreadable (provider : EncryptionProvider) (file : StoreFile) : StoreFile :=
  let marks := file.info.unreadableScan.getD (0, 0)
  let badFragments := (file.fragments.rows.rows.filter fun e =>
    host.unreadable provider marks.1 e.1 e.2.content).map fun e => e.2.columns.id
  let badFacts := (file.facts.rows.rows.filter fun e =>
    !e.2.retracted && host.unreadable provider marks.2 e.1 e.2.value).map fun e => e.2.id
  { file with
    fragments := file.fragments.update (fun r => badFragments.contains r.columns.id)
      StoredRow.quarantined fun _ => rfl
    facts := file.facts.update (fun r => badFacts.contains r.id) FactCell.withdrawn fun _ => rfl
    info := { file.info with
      unreadableScan := some (file.fragments.next - 1, file.facts.next - 1) } }

/-- `_init_schema` of a file with the current schema: what is committed, and
the open store or the error. -/
def initSchema (provider : EncryptionProvider) (moment : ByteArray) (file : StoreFile) :
    StoreFile × Except StoreEncryptionError OpenStore :=
  let guard := initEncryption host.fernet provider moment file
  let file := { file with info := guard.1 }
  match guard.2 with
  | some e => (file, .error e)
  | none =>
      let file := if provider.encrypting then host.quarantineUnreadable provider file else file
      let indexed := host.initFts provider file
      (indexed.1, .ok ⟨provider, indexed.2.1, indexed.2.2⟩)

end OpenHost

end MarkSdk
