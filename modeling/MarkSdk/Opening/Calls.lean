import MarkSdk.Opening.Handles

/-!
What the calls of a store and its opening do to the text indexes.

A call of a plaintext store keeps both indexes right if it has read the rowid
that its row has now (`Indexed.call`). No call makes a table (`call_framed`).
Opening a plaintext store fills what is not marked as filled
(`indexed_initFts`); a key seals the file (`opened_initSchema`).
-/

namespace MarkSdk

open Lib

section Index

variable (host : OpenHost)

/-- What belongs to a row in `fragments_fts`. -/
def ftsEntry (r : StoredRow) : Option FtsRow := (host.textOf .noOp r).map (ftsRow r.columns)

/-- What belongs to a row in `fragments_fts_ml`. -/
def ftsMlEntry (r : StoredRow) : Option FtsMlRow :=
  (host.textOf .noOp r).bind (host.ftsMlRow r.columns)

/-- Both tables are there, with the index rows of the fragments and no others. -/
structure Indexed (file : StoreFile) : Prop where
  fts : ∃ fts, file.fts = some fts ∧ RowidTable.Mirrors (ftsEntry host) file.fragments fts
  ftsMl : ∃ ml, file.ftsMl = some ml ∧ RowidTable.Mirrors (ftsMlEntry host) file.fragments ml

/-- What the marks in `schema_info` say is filled, is. -/
structure FtsRight (file : StoreFile) : Prop where
  fts : file.info.ftsBackfilled = some "1" →
    ∃ fts, file.fts = some fts ∧ RowidTable.Mirrors (ftsEntry host) file.fragments fts
  ftsMl : file.info.ftsBackfilled = some "1" → file.info.ftsMlBackfilled = some "1" →
    ∃ ml, file.ftsMl = some ml ∧ RowidTable.Mirrors (ftsMlEntry host) file.fragments ml

end Index

/-- Both tables are marked as filled. -/
def StoreFile.Filled (file : StoreFile) : Prop :=
  file.info.ftsBackfilled = some "1" ∧ file.info.ftsMlBackfilled = some "1"

/-- An encrypted store that a key has opened: no plaintext stands in an index. -/
structure StoreFile.Sealed (file : StoreFile) : Prop where
  encrypted : file.info.encryptedAtRest = some "1"
  fts : file.fts = none
  ftsMl : file.ftsMl = none
  ftsBackfilled : file.info.ftsBackfilled = none

variable {host : OpenHost} {store : OpenStore} {lastRowid : Nat}

theorem FtsRight.indexed {file : StoreFile} (h : FtsRight host file) (hfilled : file.Filled) :
    Indexed host file := ⟨h.fts hfilled.1, h.ftsMl hfilled.1 hfilled.2⟩

theorem Indexed.ftsRight {file : StoreFile} (h : Indexed host file) : FtsRight host file :=
  ⟨fun _ => h.fts, fun _ _ => h.ftsMl⟩

theorem StoreFile.Sealed.ftsRight {file : StoreFile} (h : file.Sealed) : FtsRight host file := by
  have hnot : file.info.ftsBackfilled ≠ some "1" := by simp [h.ftsBackfilled]
  exact ⟨fun hfilled => absurd hfilled hnot, fun hfilled => absurd hfilled hnot⟩

/-! ### The calls of a store that keeps the indexes -/

/-- A store without encryption, with both indexes. -/
structure OpenStore.Plain (store : OpenStore) : Prop where
  provider : store.provider = .noOp
  fts : store.ftsEnabled = true
  ftsMl : store.ftsMlEnabled = true

/-- A call has read the rowid that its row has now. -/
def StoreCall.Current (file : StoreFile) (seen : SeenRow) : StoreCall → Prop
  | .storeMany (w :: _) => seen.map Prod.fst = (file.seen w.fragment.id).map Prod.fst
  | .delete id => seen.map Prod.fst = (file.seen id).map Prod.fst
  | _ => True

theorem textOf_noOp_blob (columns : Fragment) (text : String) :
    host.textOf .noOp ⟨columns, .blob text.toUTF8⟩ = some text := by
  have hread : EncryptionProvider.noOp.decryptStr host.fernet (.blob text.toUTF8) = .ok text := by
    unfold EncryptionProvider.decryptStr EncryptionProvider.decrypt
    simp only [Bind.bind, Except.bind, fromUTF8_toUTF8]
  rw [OpenHost.textOf, Column.asBytes, hread]
  rfl

theorem writtenRowid_eq_place {file : StoreFile} {seen : SeenRow} {id : String}
    (h : seen.map Prod.fst = (file.seen id).map Prod.fst) :
    file.writtenRowid seen lastRowid id = file.fragments.place id := by
  unfold StoreFile.seen at h
  unfold StoreFile.writtenRowid RowidTable.place
  cases seen with
  | none =>
      cases hfind : file.fragments.find? id with
      | none => simp
      | some e => simp [hfind] at h
  | some row =>
      cases hfind : file.fragments.find? id with
      | none => simp [hfind] at h
      | some e => simpa [hfind] using h

theorem exists_of_map_eq_ok {ε α β : Type} {x : Except ε α} {f : α → β} {b : β}
    (h : x.map f = .ok b) : ∃ a, x = .ok a ∧ f a = b := by
  cases x with
  | error e => cases h
  | ok a =>
      cases h
      exact ⟨a, rfl, rfl⟩

/-- What `_fts_upsert` of a store with both indexes does to the file. -/
theorem ftsUpsert_eq {file after : StoreFile} {rowid : Nat} {columns : Fragment} {text : String}
    (h : host.ftsUpsert true rowid columns text file = some after) :
    ∃ fts ml, file.fts = some fts ∧ file.ftsMl = some ml ∧
      after = { file with
        fts := some (RowidTable.replaceEntry rowid (some (ftsRow columns text)) fts)
        ftsMl := some (RowidTable.replaceEntry rowid (host.ftsMlRow columns text) ml) } := by
  unfold OpenHost.ftsUpsert at h
  split at h
  · cases h
  · rename_i fts hfts
    rw [if_pos rfl] at h
    split at h
    · cases h
    · rename_i ml hml
      cases h
      exact ⟨fts, ml, hfts, hml, rfl⟩

theorem Indexed.storeRow {file after : StoreFile} {seen : SeenRow} {w : SketchHost.SealedWrite}
    (hindexed : Indexed host file) (hplain : store.Plain)
    (hcurrent : seen.map Prod.fst = (file.seen w.fragment.id).map Prod.fst)
    (h : host.storeRow store lastRowid seen w file = .ok after) :
    Indexed host after ∧ after.info = file.info := by
  unfold OpenHost.storeRow at h
  simp only [writtenRowid_eq_place hcurrent] at h
  split at h
  · cases h
  · rw [if_pos hplain.fts] at h
    split at h
    · cases h
    · rename_i indexed hup
      cases h
      rw [hplain.ftsMl] at hup
      obtain ⟨fts, ml, hfts, hml, rfl⟩ := ftsUpsert_eq hup
      obtain ⟨fts', hfts', hmirror⟩ := hindexed.fts
      obtain ⟨ml', hml', hmirror'⟩ := hindexed.ftsMl
      have htext : host.textOf .noOp (host.rowOf store w) = some w.fragment.content := by
        rw [OpenHost.rowOf, hplain.provider]
        exact textOf_noOp_blob _ _
      obtain rfl : fts = fts' := Option.some.inj (hfts.symm.trans hfts')
      obtain rfl : ml = ml' := Option.some.inj (hml.symm.trans hml')
      have hentry := hmirror.upsert (host.rowOf store w)
      have hentry' := hmirror'.upsert (host.rowOf store w)
      simp only [ftsEntry, ftsMlEntry, htext, Option.map_some, Option.bind_some] at hentry hentry'
      exact ⟨⟨⟨_, rfl, hentry⟩, ⟨_, rfl, hentry'⟩⟩, rfl⟩

theorem Indexed.storeRows {ws : List SketchHost.SealedWrite} {file after : StoreFile}
    (hindexed : Indexed host file) (hplain : store.Plain)
    (h : host.storeRows store lastRowid ws file = .ok after) :
    Indexed host after ∧ after.info = file.info := by
  induction ws generalizing file with
  | nil =>
      cases h
      exact ⟨hindexed, rfl⟩
  | cons w ws ih =>
      unfold OpenHost.storeRows at h
      split at h
      · cases h
      · rename_i next hrow
        obtain ⟨hnext, hinfo⟩ := hindexed.storeRow hplain rfl hrow
        obtain ⟨hafter, hinfo'⟩ := ih hnext h
        exact ⟨hafter, hinfo'.trans hinfo⟩

/-- Deleting rows, when the rows of the index went with them. -/
theorem Indexed.deleteRows {file : StoreFile} (hindexed : Indexed host file)
    {which : StoredRow → Bool} {entries : Dict Nat FtsRow → Dict Nat FtsRow}
    (hentries : ∀ fts, RowidTable.Mirrors (ftsEntry host) file.fragments fts →
      ∀ n, (entries fts).get? n = if (file.fragments.at? n).any which then none else fts.get? n)
    {between : StoreFile} (hplain : store.Plain)
    (h : OpenHost.deleteFts store entries file = .ok between) :
    Indexed host (OpenHost.deleteRows which between) ∧
      (OpenHost.deleteRows which between).info = file.info := by
  obtain ⟨fts, hfts, hmirror⟩ := hindexed.fts
  obtain ⟨ml, hml, hmirror'⟩ := hindexed.ftsMl
  rw [OpenHost.deleteFts, if_pos hplain.fts, hfts] at h
  cases h
  have hkept := hmirror'.delete (p := which) fun n =>
    RowidTable.get?_deleteEntries file.fragments which ml n
  refine ⟨⟨⟨_, rfl, hmirror.delete (hentries fts hmirror)⟩, ⟨_, ?_, hkept⟩⟩, rfl⟩
  simp [OpenHost.deleteRows, hml]

theorem Indexed.call {file after : StoreFile} {seen : SeenRow} {call : StoreCall}
    (hindexed : Indexed host file) (hplain : store.Plain) (hcurrent : call.Current file seen)
    (h : host.call store lastRowid seen file call = .ok after) : Indexed host after := by
  obtain ⟨fts, hfts, hmirror⟩ := hindexed.fts
  obtain ⟨ml, hml, hmirror'⟩ := hindexed.ftsMl
  cases call with
  | storeMany ws =>
      cases ws with
      | nil =>
          cases h
          exact hindexed
      | cons w ws =>
          simp only [OpenHost.call] at h
          split at h
          · cases h
          · rename_i next hrow
            exact ((hindexed.storeRow hplain hcurrent hrow).1.storeRows hplain h).1
  | delete id =>
      simp only [OpenHost.call] at h
      split at h
      · cases h
        exact hindexed
      · rename_i row
        obtain ⟨between, hdelete, rfl⟩ := exists_of_map_eq_ok h
        refine (hindexed.deleteRows (fun fts _ n => ?_) hplain hdelete).1
        -- the rowid that was read is that of the row now
        obtain ⟨e, hfind, hrowid⟩ : ∃ e, file.fragments.find? id = some e ∧ e.1 = row.1 := by
          simpa [StoreCall.Current, StoreFile.seen, eq_comm] using hcurrent
        obtain ⟨hat, hkey⟩ := RowidTable.find?_eq_some_iff.mp
          (by rw [hfind] : file.fragments.find? id = some (e.1, e.2))
        rw [Dict.get?_pop, ← hrowid]
        by_cases hn : n = e.1
        · simp [hn, hat, show e.2.columns.id = id from hkey]
        · have hother : (file.fragments.at? n).any (fun r => r.columns.id = id) = false := by
            cases hat' : file.fragments.at? n with
            | none => rfl
            | some r =>
                have hne : r.columns.id ≠ id := fun hid =>
                  hn (RowidTable.eq_of_key hat' hat (hid.trans hkey.symm))
                simp [hne]
          simp [hn, hother]
  | clear agentId =>
      simp only [OpenHost.call] at h
      cases agentId with
      | none =>
          obtain ⟨between, hdelete, rfl⟩ := exists_of_map_eq_ok h
          refine (hindexed.deleteRows (fun fts hfts n => ?_) hplain hdelete).1
          rw [hfts n]
          cases file.fragments.at? n <;> simp [Dict.get?, Table.find?]
      | some agent =>
          obtain ⟨between, hdelete, rfl⟩ := exists_of_map_eq_ok h
          exact (hindexed.deleteRows
            (fun fts _ n => RowidTable.get?_deleteEntries _ _ _ n) hplain hdelete).1
  | update u =>
      cases h
      have hsame : ∀ r : StoredRow,
          host.textOf .noOp { r with columns := u.change r.columns } = host.textOf .noOp r :=
        fun _ => rfl
      have hid : ∀ r : StoredRow, (u.change r.columns).id = r.columns.id :=
        fun r => (u.keeps r.columns).1
      refine ⟨⟨fts, hfts, hmirror.update hid fun r => ?_⟩,
        ⟨ml, hml, hmirror'.update hid fun r => ?_⟩⟩
      · have hrow : ftsRow (u.change r.columns) = ftsRow r.columns := by
          funext text
          simp [ftsRow, u.keeps r.columns]
        rw [ftsEntry, hsame, hrow, ftsEntry]
      · have hrow : host.ftsMlRow (u.change r.columns) = host.ftsMlRow r.columns := by
          funext text
          simp [OpenHost.ftsMlRow, u.keeps r.columns]
        rw [ftsMlEntry, hsame, hrow, ftsMlEntry]
  | insertFact id moment value =>
      simp only [OpenHost.call] at h
      split at h
      · cases h
      · cases h
        exact ⟨⟨fts, hfts, hmirror⟩, ⟨ml, hml, hmirror'⟩⟩
  | retractFacts which =>
      cases h
      exact ⟨⟨fts, hfts, hmirror⟩, ⟨ml, hml, hmirror'⟩⟩
  | deleteFacts which =>
      cases h
      exact ⟨⟨fts, hfts, hmirror⟩, ⟨ml, hml, hmirror'⟩⟩

/-! ### What no call does -/

theorem ftsUpsert_frame {ml : Bool} {file after : StoreFile} {rowid : Nat} {columns : Fragment}
    {text : String} (h : host.ftsUpsert ml rowid columns text file = some after) :
    after.info = file.info ∧ after.fragments = file.fragments ∧ file.fts.isSome ∧
      (file.ftsMl = none → after.ftsMl = none) := by
  unfold OpenHost.ftsUpsert at h
  split at h
  · cases h
  · rename_i fts hfts
    split at h
    · split at h
      · cases h
      · rename_i entries hml
        cases h
        exact ⟨rfl, rfl, by simp [hfts], fun hnone => by simp [hml] at hnone⟩
    · cases h
      exact ⟨rfl, rfl, by simp [hfts], id⟩

/-- No call makes a table or an entry of `schema_info`. -/
structure StoreFile.Framed (file after : StoreFile) : Prop where
  info : after.info = file.info
  fts : file.fts = none → after.fts = none
  ftsMl : file.ftsMl = none → after.ftsMl = none

theorem StoreFile.Framed.trans {file between after : StoreFile} (h : file.Framed between)
    (h' : between.Framed after) : file.Framed after :=
  ⟨h'.info.trans h.info, fun hnone => h'.fts (h.fts hnone), fun hnone => h'.ftsMl (h.ftsMl hnone)⟩

theorem storeRow_framed {file after : StoreFile} {seen : SeenRow} {w : SketchHost.SealedWrite}
    (h : host.storeRow store lastRowid seen w file = .ok after) : file.Framed after := by
  unfold OpenHost.storeRow at h
  dsimp only at h
  split at h
  · cases h
  · split at h
    · split at h
      · cases h
      · rename_i indexed hup
        cases h
        obtain ⟨hinfo, -, hsome, hml⟩ := ftsUpsert_frame hup
        exact ⟨hinfo, fun hnone => by simp [hnone] at hsome, hml⟩
    · cases h
      exact ⟨rfl, id, id⟩

theorem storeRows_framed {ws : List SketchHost.SealedWrite} {file after : StoreFile}
    (h : host.storeRows store lastRowid ws file = .ok after) : file.Framed after := by
  induction ws generalizing file with
  | nil =>
      cases h
      exact ⟨rfl, id, id⟩
  | cons w ws ih =>
      unfold OpenHost.storeRows at h
      split at h
      · cases h
      · rename_i next hrow
        exact (storeRow_framed hrow).trans (ih h)

theorem deleteRows_framed {file between : StoreFile} {which : StoredRow → Bool}
    {entries : Dict Nat FtsRow → Dict Nat FtsRow}
    (h : OpenHost.deleteFts store entries file = .ok between) :
    file.Framed (OpenHost.deleteRows which between) := by
  unfold OpenHost.deleteFts at h
  split at h
  · split at h
    · cases h
    · rename_i fts hfts
      cases h
      exact ⟨rfl, fun hnone => by simp [hfts] at hnone, fun hnone => by
        simp [OpenHost.deleteRows, hnone]⟩
  · cases h
    exact ⟨rfl, id, fun hnone => by simp [OpenHost.deleteRows, hnone]⟩

theorem call_framed {file after : StoreFile} {seen : SeenRow} {call : StoreCall}
    (h : host.call store lastRowid seen file call = .ok after) : file.Framed after := by
  cases call with
  | storeMany ws =>
      cases ws with
      | nil =>
          cases h
          exact ⟨rfl, id, id⟩
      | cons w ws =>
          simp only [OpenHost.call] at h
          split at h
          · cases h
          · rename_i next hrow
            exact (storeRow_framed hrow).trans (storeRows_framed h)
  | delete id =>
      simp only [OpenHost.call] at h
      split at h
      · cases h
        exact ⟨rfl, fun hnone => hnone, fun hnone => hnone⟩
      · obtain ⟨between, hdelete, rfl⟩ := exists_of_map_eq_ok h
        exact deleteRows_framed hdelete
  | clear agentId =>
      obtain ⟨between, hdelete, rfl⟩ := exists_of_map_eq_ok h
      exact deleteRows_framed hdelete
  | update u =>
      cases h
      exact ⟨rfl, id, id⟩
  | insertFact id moment value =>
      simp only [OpenHost.call] at h
      split at h
      · cases h
      · cases h
        exact ⟨rfl, fun hnone => hnone, fun hnone => hnone⟩
  | retractFacts which =>
      cases h
      exact ⟨rfl, id, id⟩
  | deleteFacts which =>
      cases h
      exact ⟨rfl, id, id⟩

theorem commit_framed (fails : Bool) (call : StoreCall) (seen : SeenRow) (file : StoreFile) :
    file.Framed (host.commit store fails lastRowid call seen file) := by
  unfold OpenHost.commit
  split
  · exact ⟨rfl, id, id⟩
  · rename_i after hcall
    split
    · exact ⟨rfl, id, id⟩
    · exact call_framed hcall

theorem StoreFile.Framed.sealed {file after : StoreFile} (h : file.Framed after)
    (hsealed : file.Sealed) : after.Sealed :=
  ⟨h.info ▸ hsealed.encrypted, h.fts hsealed.fts, h.ftsMl hsealed.ftsMl,
    h.info ▸ hsealed.ftsBackfilled⟩

/-! ### Opening -/

theorem foldl_pair {α β γ : Type} (f : α → γ → α) (g : β → γ → β) (xs : List γ) (a : α) (b : β) :
    xs.foldl (fun s x => (f s.1 x, g s.2 x)) (a, b) = (xs.foldl f a, xs.foldl g b) := by
  induction xs generalizing a b with
  | nil => rfl
  | cons x xs ih => exact ih _ _

section Filling

variable (host)

/-- The part of the loop that fills `fragments_fts`. -/
def putFts (index : Dict Nat FtsRow) (e : Nat × StoredRow) : Dict Nat FtsRow :=
  match host.textOf .noOp e.2 with
  | none => index
  | some text => RowidTable.replaceEntry e.1 (some (ftsRow e.2.columns text)) index

/-- The part of the loop that fills `fragments_fts_ml`. -/
def putFtsMl (porterDone : Bool) (index : Dict Nat FtsMlRow) (e : Nat × StoredRow) :
    Dict Nat FtsMlRow :=
  match host.textOf .noOp e.2 with
  | none => index
  | some text =>
      let ml := host.ftsMlRow e.2.columns text
      if porterDone then RowidTable.insertEntry e.1 ml index
      else RowidTable.replaceEntry e.1 ml index

theorem get?_putFts (index : Dict Nat FtsRow) (n : Nat) (r : StoredRow)
    (hfree : index.get? n = none) (m : Nat) :
    (putFts host index (n, r)).get? m = if m = n then ftsEntry host r else index.get? m := by
  unfold putFts ftsEntry
  cases host.textOf .noOp r with
  | none =>
      by_cases hm : m = n
      · simp [hm, hfree]
      · simp [hm]
  | some text => simp

theorem get?_putFtsMl (porterDone : Bool) (index : Dict Nat FtsMlRow) (n : Nat) (r : StoredRow)
    (hfree : index.get? n = none) (m : Nat) :
    (putFtsMl host porterDone index (n, r)).get? m =
      if m = n then ftsMlEntry host r else index.get? m := by
  unfold putFtsMl ftsMlEntry
  cases host.textOf .noOp r with
  | none =>
      by_cases hm : m = n
      · simp [hm, hfree]
      · simp [hm]
  | some text =>
      cases porterDone with
      | false => simp
      | true => simp [RowidTable.get?_insertEntry _ hfree]

theorem backfillRow_done :
    host.backfillRow .noOp true = fun tables e => (tables.1, putFtsMl host true tables.2 e) := by
  funext tables e
  unfold OpenHost.backfillRow putFtsMl
  cases host.textOf .noOp e.2 <;> rfl

theorem backfillRow_new :
    host.backfillRow .noOp false =
      fun tables e => (putFts host tables.1 e, putFtsMl host false tables.2 e) := by
  funext tables e
  unfold OpenHost.backfillRow putFts putFtsMl
  cases host.textOf .noOp e.2 <;> rfl

end Filling

/-- A plaintext store that was opened has both indexes. -/
theorem indexed_initFts {file : StoreFile} (hfts5 : host.fts5 = true) (h : FtsRight host file) :
    Indexed host (host.initFts .noOp file).1 ∧ (host.initFts .noOp file).1.Filled := by
  have hmade := RowidTable.mirrors_foldl (get?_putFts host) file.fragments
  have hmade' := fun done => RowidTable.mirrors_foldl (get?_putFtsMl host done) file.fragments
  unfold OpenHost.initFts
  simp only [hfts5, Bool.not_true, Bool.false_eq_true, if_false, EncryptionProvider.encrypting]
  by_cases hporter : file.info.ftsBackfilled = some "1"
  · obtain ⟨fts, hfts, hmirror⟩ := h.fts hporter
    by_cases hml : file.info.ftsMlBackfilled = some "1"
    · obtain ⟨ml, hml', hmirror'⟩ := h.ftsMl hporter hml
      simp only [hporter, hml, hfts, hml', beq_self_eq_true, Bool.and_self, if_true,
        Option.getD_some]
      exact ⟨⟨⟨fts, rfl, hmirror⟩, ⟨ml, rfl, hmirror'⟩⟩, ⟨hporter, hml⟩⟩
    · have hsame : (file.fragments.rows.rows.foldl (fun fts _ => fts) fts) = fts := by
        generalize file.fragments.rows.rows = rows
        induction rows with
        | nil => rfl
        | cons _ _ ih => exact ih
      simp only [hporter, hml, hfts, beq_self_eq_true, Bool.true_and, beq_iff_eq,
        Option.getD_some, if_true, if_false, backfillRow_done,
        foldl_pair (fun fts _ => fts) (putFtsMl host true), hsame]
      exact ⟨⟨⟨fts, rfl, hmirror⟩, ⟨_, rfl, hmade' true⟩⟩, ⟨rfl, rfl⟩⟩
  · have hnot : (file.info.ftsBackfilled == some "1") = false := by simpa using hporter
    simp only [hnot, Bool.false_and, Bool.false_eq_true, if_false, backfillRow_new, foldl_pair]
    exact ⟨⟨⟨_, rfl, hmade⟩, ⟨_, rfl, hmade' false⟩⟩, ⟨rfl, rfl⟩⟩

section Opened

variable {provider : EncryptionProvider} {moment : ByteArray} {file : StoreFile}

/-- The file after the guard alone. -/
abbrev guarded (host : OpenHost) (provider : EncryptionProvider) (moment : ByteArray)
    (file : StoreFile) : StoreFile :=
  { file with info := (initEncryption host.fernet provider moment file).1 }

theorem FtsRight.guarded (h : FtsRight host file) :
    FtsRight host (guarded host provider moment file) := by
  obtain ⟨hfts, hml⟩ := @fts_initEncryption host.fernet provider moment file
  exact ⟨fun hdone => h.fts (hfts ▸ hdone),
    fun hdone hdone' => h.ftsMl (hfts ▸ hdone) (hml ▸ hdone')⟩

theorem StoreFile.Sealed.guarded (h : file.Sealed) :
    (guarded host provider moment file).Sealed :=
  ⟨encrypted_initEncryption h.encrypted, h.fts, h.ftsMl,
    fts_initEncryption.1.trans h.ftsBackfilled⟩

theorem StoreFile.Filled.guarded (h : file.Filled) :
    (guarded host provider moment file).Filled :=
  ⟨fts_initEncryption.1.trans h.1, fts_initEncryption.2.trans h.2⟩

/-- A key that was accepted has marked the file. -/
theorem encrypted_of_keyed (hkey : provider.encrypting = true)
    (h : (initEncryption host.fernet provider moment file).2 = none) :
    (initEncryption host.fernet provider moment file).1.encryptedAtRest = some "1" := by
  have hcase := @guarded_initEncryption host.fernet provider moment file
  generalize initEncryption host.fernet provider moment file = result at hcase h ⊢
  cases hcase with
  | plaintext => cases h
  | plain hplain => simp [hkey] at hplain
  | keyless => rfl
  | keyed => rw [verifyKey_info]

/-- An encrypted file is not opened without a key. -/
theorem refused_of_sealed (hkey : provider.encrypting = false)
    (hmark : file.info.encryptedAtRest = some "1") :
    (initEncryption host.fernet provider moment file).2 = some .encryptionRequired := by
  have hcase := @guarded_initEncryption host.fernet provider moment file
  generalize initEncryption host.fernet provider moment file = result at hcase ⊢
  cases hcase with
  | plaintext hkeyed => simp [hkey] at hkeyed
  | plain _ hplain => simp [judgedEncrypted_of_mark hmark] at hplain
  | keyless => rfl
  | keyed hkeyed => simp [hkey] at hkeyed

/-- What opening a file did: it was refused, it is open with both indexes, or
it is open under a key and has no index. -/
inductive Opened (host : OpenHost) (provider : EncryptionProvider) (moment : ByteArray)
    (file : StoreFile) : StoreFile × Except StoreEncryptionError OpenStore → Prop
  | refused (e : StoreEncryptionError)
      (herror : (initEncryption host.fernet provider moment file).2 = some e) :
      Opened host provider moment file (guarded host provider moment file, .error e)
  | plain (hprovider : provider = .noOp)
      (hmark : file.info.encryptedAtRest ≠ some "1")
      (hok : (initEncryption host.fernet .noOp moment file).2 = none) :
      Opened host provider moment file
        ((host.initFts .noOp (guarded host .noOp moment file)).1, .ok ⟨.noOp, true, true⟩)
  | keyed (hkey : provider.encrypting = true)
      (hok : (initEncryption host.fernet provider moment file).2 = none) {after : StoreFile}
      (hafter : after =
        { host.quarantineUnreadable provider (guarded host provider moment file) with
          fts := none
          ftsMl := none
          info := { (host.quarantineUnreadable provider
              (guarded host provider moment file)).info with
            ftsBackfilled := none, ftsMlBackfilled := none } }) (hsealed : after.Sealed) :
      Opened host provider moment file (after, .ok ⟨provider, false, false⟩)

/-- What filling the indexes leaves alone. -/
theorem initFts_noOp (hfts5 : host.fts5 = true) (file : StoreFile) :
    (host.initFts .noOp file).2 = (true, true) ∧
      (host.initFts .noOp file).1.fragments = file.fragments ∧
      (host.initFts .noOp file).1.facts = file.facts ∧
      (host.initFts .noOp file).1.info.encryptedAtRest = file.info.encryptedAtRest ∧
      (host.initFts .noOp file).1.info.encryptionCheck = file.info.encryptionCheck := by
  unfold OpenHost.initFts
  simp only [hfts5, Bool.not_true, Bool.false_eq_true, if_false, EncryptionProvider.encrypting]
  split <;> simp

theorem opened_initSchema (hfts5 : host.fts5 = true) :
    Opened host provider moment file (host.initSchema provider moment file) := by
  unfold OpenHost.initSchema
  dsimp only
  split
  · rename_i e herror
    exact .refused e herror
  · rename_i hok
    cases hkey : provider.encrypting with
    | false =>
        obtain rfl : provider = .noOp := by
          cases provider <;> simp_all [EncryptionProvider.encrypting]
        simp only [Bool.false_eq_true, if_false, (initFts_noOp hfts5 _).1]
        refine .plain rfl (fun hmark => ?_) hok
        simp [refused_of_sealed hkey hmark] at hok
    | true =>
        unfold OpenHost.initFts
        simp only [hfts5, hkey, Bool.not_true, Bool.false_eq_true, if_false, if_true]
        exact .keyed hkey hok rfl ⟨encrypted_of_keyed hkey hok, rfl, rfl, rfl⟩

end Opened

end MarkSdk
