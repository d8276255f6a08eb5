import MarkSdk.Opening.Calls

/-!
What a file of ciphertext is for: the texts of the memories.

The plain picture of a store is a map from ids to an agent and a text, and a
call changes this map without any key. A file represents the map under a secret
when each row is ciphertext of its text under that secret (`Represents`); every
call of a store that has the secret keeps this.
-/

namespace MarkSdk

open Lib

/-- Agent and text by id. -/
abbrev TextMap := String → Option (String × String)

/-- What a call does that goes through. -/
def StoreCall.texts (seen : SeenRow) (texts : TextMap) : StoreCall → TextMap
  | .storeMany ws =>
      ws.foldl (fun texts w =>
        Function.update texts w.fragment.id (some (w.fragment.agentId, w.fragment.content))) texts
  | .delete id => if seen.isSome then Function.update texts id none else texts
  | .clear agentId => fun id => (texts id).filter fun m => !agentId.all fun agent => m.1 = agent
  | .update _ | .insertFact .. | .retractFacts _ | .deleteFacts _ => texts

/-! ### Secrets -/

/-- Providers that decrypt alike; the salt is not a part of the secret. -/
def EncryptionProvider.SameSecret : EncryptionProvider → EncryptionProvider → Prop
  | .noOp, .noOp => True
  | .keyed key, .keyed key' => key = key'
  | .stretched passphrase _, .stretched passphrase' _ => passphrase = passphrase'
  | _, _ => False

namespace EncryptionProvider.SameSecret

variable {p q r : EncryptionProvider}

@[simp] theorem refl (p : EncryptionProvider) : p.SameSecret p := by
  cases p <;> simp [EncryptionProvider.SameSecret]

theorem symm (h : p.SameSecret q) : q.SameSecret p := by
  cases p <;> cases q <;> simp_all [EncryptionProvider.SameSecret]

theorem trans (h : p.SameSecret q) (h' : q.SameSecret r) : p.SameSecret r := by
  cases p <;> cases q <;> cases r <;> simp_all [EncryptionProvider.SameSecret]

theorem decryptStr_eq (h : p.SameSecret q) (fernet : Fernet) (column : Column) :
    p.decryptStr fernet column = q.decryptStr fernet column := by
  have hdecrypt : p.decrypt fernet column = q.decrypt fernet column := by
    cases p <;> cases q <;> simp_all [EncryptionProvider.SameSecret, EncryptionProvider.decrypt]
  simp only [EncryptionProvider.decryptStr, hdecrypt]

end EncryptionProvider.SameSecret

/-- A column was made from a text by a provider that has the secret. -/
def Column.MadeOf (fernet : Fernet) (secret : EncryptionProvider) (text : String) (c : Column) :
    Prop :=
  ∃ (q : EncryptionProvider) (moment : ByteArray),
    q.SameSecret secret ∧ q.WellFormed ∧ c = q.encryptStr fernet moment text

theorem Column.MadeOf.read {fernet : Fernet} (hfernet : fernet.Lawful)
    {secret : EncryptionProvider} {text : String} {c : Column} (h : c.MadeOf fernet secret text) :
    secret.decryptStr fernet (.blob c.asBytes) = .ok text := by
  obtain ⟨q, moment, hsame, hwf, rfl⟩ := h
  rw [← hsame.decryptStr_eq]
  exact decryptStr_encryptStr hfernet hwf moment text

/-! ### Files -/

/-- The rows of a file are ciphertext of the texts. -/
structure Represents (fernet : Fernet) (secret : EncryptionProvider)
    (rows : RowidTable StoredRow.key) (texts : TextMap) : Prop where
  row : ∀ n r, rows.at? n = some r → ∃ text,
    r.content.MadeOf fernet secret text ∧ texts r.columns.id = some (r.columns.agentId, text)
  present : ∀ id, (texts id).isSome → ∃ n r, rows.at? n = some r ∧ r.columns.id = id

/-- The values of the facts are ciphertext. -/
def FactsMade (fernet : Fernet) (secret : EncryptionProvider)
    (facts : RowidTable FactCell.id) : Prop :=
  ∀ n r, facts.at? n = some r → ∃ value, r.value.MadeOf fernet secret value

variable {host : OpenHost} {store : OpenStore} {lastRowid : Nat} {secret : EncryptionProvider}
  {rows : RowidTable StoredRow.key} {texts : TextMap}

namespace Represents

/-- Without rows there are no texts. -/
theorem empty_of_none {fernet : Fernet} (h : Represents fernet secret rows texts)
    (hnone : ∀ n, rows.at? n = none) (other : EncryptionProvider) :
    Represents fernet other rows texts := by
  refine ⟨fun n r hr => by simp [hnone] at hr, fun id hid => ?_⟩
  obtain ⟨n, r, hr, -⟩ := h.present id hid
  simp [hnone] at hr

theorem sameSecret {fernet : Fernet} (h : Represents fernet secret rows texts)
    {other : EncryptionProvider} (hsame : secret.SameSecret other) :
    Represents fernet other rows texts := by
  refine ⟨fun n r hr => ?_, h.present⟩
  obtain ⟨text, ⟨q, moment, hq, hwf, hcontent⟩, htext⟩ := h.row n r hr
  exact ⟨text, ⟨q, moment, hq.trans hsame, hwf, hcontent⟩, htext⟩

theorem upsert {fernet : Fernet} (h : Represents fernet secret rows texts) {r : StoredRow}
    {text : String} (hmade : r.content.MadeOf fernet secret text) :
    Represents fernet secret (rows.upsert r)
      (Function.update texts r.columns.id (some (r.columns.agentId, text))) := by
  refine ⟨fun n s hs => ?_, fun id hid => ?_⟩
  · rw [RowidTable.at?_upsert] at hs
    split at hs
    · cases hs
      exact ⟨text, hmade, Function.update_self ..⟩
    · rename_i hn
      have hid : s.columns.id ≠ r.columns.id := fun hid => hn (RowidTable.eq_place hs hid)
      rw [Function.update_of_ne hid]
      exact h.row n s hs
  · by_cases hr : id = r.columns.id
    · exact ⟨rows.place r.key, r, by rw [RowidTable.at?_upsert, if_pos rfl], hr.symm⟩
    · rw [Function.update_of_ne hr] at hid
      obtain ⟨n, s, hs, hsid⟩ := h.present id hid
      have hn : n ≠ rows.place r.key := by
        rintro rfl
        have hkey : s.key = r.key := RowidTable.key_at?_place hs
        exact hr (hsid.symm.trans hkey)
      exact ⟨n, s, by rw [RowidTable.at?_upsert, if_neg hn, hs], hsid⟩

/-- Deleting the rows of the ids that leave the map. -/
theorem delete {fernet : Fernet} (h : Represents fernet secret rows texts)
    {which : StoredRow → Bool} {after : TextMap}
    (hafter : ∀ n r, rows.at? n = some r →
      after r.columns.id = if which r then none else texts r.columns.id)
    (hsub : ∀ id, (after id).isSome → (texts id).isSome) :
    Represents fernet secret (rows.delete which) after := by
  refine ⟨fun n r hr => ?_, fun id hid => ?_⟩
  · rw [RowidTable.at?_delete, Option.filter_eq_some_iff] at hr
    obtain ⟨hr, hkept⟩ := hr
    obtain ⟨text, hmade, htext⟩ := h.row n r hr
    refine ⟨text, hmade, ?_⟩
    rw [hafter n r hr, if_neg (by simpa using hkept), htext]
  · obtain ⟨n, r, hr, rfl⟩ := h.present id (hsub id hid)
    rw [hafter n r hr] at hid
    have hkept : which r = false := by
      cases hw : which r with
      | false => rfl
      | true => simp [hw] at hid
    exact ⟨n, r, by simp [hr, Option.filter, hkept], rfl⟩

/-- An update of columns that leaves ids, agents and contents alone. -/
theorem update {fernet : Fernet} (h : Represents fernet secret rows texts)
    {which : StoredRow → Bool} {f : StoredRow → StoredRow} (hf : ∀ r, (f r).key = r.key)
    (hagent : ∀ r, (f r).columns.agentId = r.columns.agentId)
    (hcontent : ∀ r, (f r).content = r.content) :
    Represents fernet secret (rows.update which f hf) texts := by
  have hsame : ∀ r : StoredRow, (if which r then f r else r).columns.id = r.columns.id ∧
      (if which r then f r else r).columns.agentId = r.columns.agentId ∧
      (if which r then f r else r).content = r.content := by
    intro r
    split
    · exact ⟨hf r, hagent r, hcontent r⟩
    · exact ⟨rfl, rfl, rfl⟩
  refine ⟨fun n r hr => ?_, fun id hid => ?_⟩
  · rw [RowidTable.at?_update, Option.map_eq_some_iff] at hr
    obtain ⟨s, hs, rfl⟩ := hr
    obtain ⟨text, hmade, htext⟩ := h.row n s hs
    obtain ⟨hid, hag, hco⟩ := hsame s
    exact ⟨text, by rwa [hco], by rwa [hid, hag]⟩
  · obtain ⟨n, r, hr, rfl⟩ := h.present id hid
    exact ⟨n, _, by rw [RowidTable.at?_update, hr, Option.map_some], (hsame r).1⟩

end Represents

theorem FactsMade.update {fernet : Fernet} {facts : RowidTable FactCell.id}
    (h : FactsMade fernet secret facts) {which : FactCell → Bool} {f : FactCell → FactCell}
    (hf : ∀ r, (f r).id = r.id) (hvalue : ∀ r, (f r).value = r.value) :
    FactsMade fernet secret (facts.update which f hf) := by
  intro n r hr
  rw [RowidTable.at?_update, Option.map_eq_some_iff] at hr
  obtain ⟨s, hs, rfl⟩ := hr
  obtain ⟨value, hmade⟩ := h n s hs
  refine ⟨value, ?_⟩
  split
  · rwa [hvalue]
  · exact hmade

/-! ### Calls -/

/-- A store that writes with the secret. -/
structure OpenStore.Has (store : OpenStore) (secret : EncryptionProvider) : Prop where
  sameSecret : store.provider.SameSecret secret
  wellFormed : store.provider.WellFormed

/-- A store without a key on a file that a key has sealed meanwhile. -/
structure OpenStore.Stale (store : OpenStore) (file : StoreFile) : Prop where
  fts : store.ftsEnabled = true
  none : file.fts = none

theorem storeRow_fragments {file after : StoreFile} {seen : SeenRow} {w : SketchHost.SealedWrite}
    (h : host.storeRow store lastRowid seen w file = .ok after) :
    after.fragments = file.fragments.upsert (host.rowOf store w) ∧ after.facts = file.facts ∧
      ¬ store.Stale file := by
  unfold OpenHost.storeRow at h
  dsimp only at h
  split at h
  · cases h
  · split at h
    · split at h
      · cases h
      · rename_i indexed hup
        cases h
        obtain ⟨-, hfragments, hsome, -⟩ := ftsUpsert_frame hup
        refine ⟨hfragments, ?_, fun hstale => by simp [hstale.none] at hsome⟩
        unfold OpenHost.ftsUpsert at hup
        split at hup
        · cases hup
        · split at hup
          · split at hup <;> cases hup
            rfl
          · cases hup
            rfl
    · rename_i hfts
      cases h
      exact ⟨rfl, rfl, fun hstale => hfts hstale.fts⟩

theorem Represents.storeRow {file after : StoreFile} {seen : SeenRow}
    {w : SketchHost.SealedWrite} (hrep : Represents host.fernet secret file.fragments texts)
    (hstore : store.Has secret)
    (h : host.storeRow store lastRowid seen w file = .ok after) :
    Represents host.fernet secret after.fragments
      (Function.update texts w.fragment.id (some (w.fragment.agentId, w.fragment.content))) := by
  rw [(storeRow_fragments h).1]
  have hmade : (host.rowOf store w).content.MadeOf host.fernet secret w.fragment.content :=
    ⟨store.provider, w.moment, hstore.sameSecret, hstore.wellFormed, rfl⟩
  exact hrep.upsert hmade

theorem Represents.storeRows {ws : List SketchHost.SealedWrite} {file after : StoreFile}
    {seen : SeenRow} (hrep : Represents host.fernet secret file.fragments texts)
    (hstore : store.Has secret) (h : host.storeRows store lastRowid ws file = .ok after) :
    Represents host.fernet secret after.fragments
      ((StoreCall.storeMany ws).texts seen texts) := by
  induction ws generalizing file texts with
  | nil =>
      cases h
      exact hrep
  | cons w ws ih =>
      unfold OpenHost.storeRows at h
      split at h
      · cases h
      · rename_i next hrow
        exact ih (hrep.storeRow hstore hrow) h

theorem storeRows_facts {ws : List SketchHost.SealedWrite} {file after : StoreFile}
    (h : host.storeRows store lastRowid ws file = .ok after) : after.facts = file.facts := by
  induction ws generalizing file with
  | nil =>
      cases h
      rfl
  | cons w ws ih =>
      unfold OpenHost.storeRows at h
      split at h
      · cases h
      · rename_i next hrow
        exact (ih h).trans (storeRow_fragments hrow).2.1

theorem deleteRows_fragments {file between : StoreFile} {which : StoredRow → Bool}
    {entries : Dict Nat FtsRow → Dict Nat FtsRow}
    (h : OpenHost.deleteFts store entries file = .ok between) :
    (OpenHost.deleteRows which between).fragments = file.fragments.delete which ∧
      (OpenHost.deleteRows which between).facts = file.facts ∧ ¬ store.Stale file := by
  unfold OpenHost.deleteFts at h
  split at h
  · split at h
    · cases h
    · rename_i fts hfts
      cases h
      exact ⟨rfl, rfl, fun hstale => by simp [hstale.none] at hfts⟩
  · rename_i hfts
    cases h
    exact ⟨rfl, rfl, fun hstale => hfts hstale.fts⟩

/-- What a call does to the rows, if it deletes or changes columns only. -/
theorem Represents.call_of_quiet {file after : StoreFile} {seen : SeenRow} {call : StoreCall}
    (hrep : Represents host.fernet secret file.fragments texts)
    (hquiet : ∀ w ws, call ≠ .storeMany (w :: ws))
    (h : host.call store lastRowid seen file call = .ok after) :
    Represents host.fernet secret after.fragments (call.texts seen texts) := by
  cases call with
  | storeMany ws =>
      cases ws with
      | nil =>
          cases h
          exact hrep
      | cons w ws => exact absurd rfl (hquiet w ws)
  | delete id =>
      simp only [OpenHost.call] at h
      split at h
      · cases h
        exact hrep
      · obtain ⟨between, hdelete, rfl⟩ := exists_of_map_eq_ok h
        rw [(deleteRows_fragments hdelete).1]
        refine hrep.delete (fun n r _ => ?_) fun other hother => ?_
        · simp [StoreCall.texts, Function.update_apply]
        · by_cases hid : other = id
          · simp [StoreCall.texts, hid] at hother
          · simpa [StoreCall.texts, Function.update_of_ne hid] using hother
  | clear agentId =>
      obtain ⟨between, hdelete, rfl⟩ := exists_of_map_eq_ok h
      rw [(deleteRows_fragments hdelete).1]
      refine hrep.delete (fun n r hr => ?_) fun id hid => ?_
      · obtain ⟨text, -, htext⟩ := hrep.row n r hr
        cases agentId with
        | none => simp [StoreCall.texts, htext, Option.filter]
        | some agent =>
            by_cases hagent : r.columns.agentId = agent <;>
              simp [StoreCall.texts, htext, Option.filter, hagent]
      · cases htext : texts id with
        | none => simp [StoreCall.texts, htext] at hid
        | some m => rfl
  | update u =>
      cases h
      exact hrep.update (fun r => (u.keeps r.columns).1) (fun r => (u.keeps r.columns).2.1)
        fun _ => rfl
  | insertFact id moment value =>
      simp only [OpenHost.call] at h
      split at h
      · cases h
      · cases h
        exact hrep
  | retractFacts which =>
      cases h
      exact hrep
  | deleteFacts which =>
      cases h
      exact hrep

/-- A store with the secret changes the file as the call changes the map. -/
theorem Represents.call {file after : StoreFile} {seen : SeenRow} {call : StoreCall}
    (hrep : Represents host.fernet secret file.fragments texts) (hstore : store.Has secret)
    (h : host.call store lastRowid seen file call = .ok after) :
    Represents host.fernet secret after.fragments (call.texts seen texts) := by
  by_cases hquiet : ∀ w ws, call ≠ .storeMany (w :: ws)
  · exact hrep.call_of_quiet hquiet h
  · obtain ⟨w, ws, rfl⟩ : ∃ w ws, call = .storeMany (w :: ws) := by
      simpa only [not_forall, not_not] using hquiet
    simp only [OpenHost.call] at h
    split at h
    · cases h
    · rename_i next hrow
      have hnext := hrep.storeRow hstore hrow
      exact @Represents.storeRows host store lastRowid secret _ ws next after seen hnext hstore h

/-- So does a stale store, because its calls that would write a text fail. -/
theorem Represents.call_stale {file after : StoreFile} {seen : SeenRow} {call : StoreCall}
    (hrep : Represents host.fernet secret file.fragments texts) (hstale : store.Stale file)
    (h : host.call store lastRowid seen file call = .ok after) :
    Represents host.fernet secret after.fragments (call.texts seen texts) := by
  refine hrep.call_of_quiet (fun w ws hcall => ?_) h
  subst hcall
  simp only [OpenHost.call] at h
  split at h
  · cases h
  · rename_i next hrow
    exact (storeRow_fragments hrow).2.2 hstale

/-- The facts stay ciphertext under the secret that the store writes with. -/
theorem FactsMade.call {file after : StoreFile} {seen : SeenRow} {call : StoreCall}
    (hfacts : FactsMade host.fernet secret file.facts) (hstore : store.Has secret)
    (h : host.call store lastRowid seen file call = .ok after) :
    FactsMade host.fernet secret after.facts := by
  have hsame : after.facts = file.facts → FactsMade host.fernet secret after.facts :=
    fun heq => heq ▸ hfacts
  cases call with
  | storeMany ws =>
      cases ws with
      | nil =>
          cases h
          exact hfacts
      | cons w ws =>
          simp only [OpenHost.call] at h
          split at h
          · cases h
          · rename_i next hrow
            exact hsame ((storeRows_facts h).trans (storeRow_fragments hrow).2.1)
  | delete id =>
      simp only [OpenHost.call] at h
      split at h
      · cases h
        exact hfacts
      · obtain ⟨between, hdelete, rfl⟩ := exists_of_map_eq_ok h
        exact hsame (deleteRows_fragments hdelete).2.1
  | clear agentId =>
      obtain ⟨between, hdelete, rfl⟩ := exists_of_map_eq_ok h
      exact hsame (deleteRows_fragments hdelete).2.1
  | update u =>
      cases h
      exact hfacts
  | insertFact id moment value =>
      simp only [OpenHost.call] at h
      split at h
      · cases h
      · cases h
        intro n r hr
        rw [RowidTable.at?_upsert] at hr
        split at hr
        · cases hr
          exact ⟨value, store.provider, moment, hstore.sameSecret, hstore.wellFormed, rfl⟩
        · exact hfacts n r hr
  | retractFacts which =>
      cases h
      exact hfacts.update (f := fun r => { r with retracted := true }) (fun _ => rfl) fun _ => rfl
  | deleteFacts which =>
      cases h
      intro n r hr
      rw [RowidTable.at?_delete, Option.filter_eq_some_iff] at hr
      exact hfacts n r hr.1

end MarkSdk
