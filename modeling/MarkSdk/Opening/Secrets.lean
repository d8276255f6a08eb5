import MarkSdk.Opening.Texts

/-!
Which secret a file has.

A file of plaintext, one from before there were canaries, and one with the
canary of a secret are told apart; opening a file with any provider makes it
one of these again. A key that is not that of the canary is refused.
-/

namespace MarkSdk

open Lib

/-- Providers of which one reads what another has made only if they have one
secret. -/
structure KeysApart (fernet : Fernet) (used : EncryptionProvider → Prop) : Prop where
  wellFormed : ∀ p, used p → p.WellFormed
  sameSecret : ∀ p q text column read, used p → used q → p.encrypting = true →
    q.encrypting = true → Column.MadeOf fernet p text column →
    q.decrypt fernet (.blob column.asBytes) = .ok read → q.SameSecret p

/-- What a process reads as the text of a memory. -/
def OpenStore.read (host : OpenHost) (store : OpenStore) (file : StoreFile) (id : String) :
    Option (Except DecryptError String) :=
  (file.fragments.find? id).map fun e =>
    store.provider.decryptStr host.fernet (.blob e.2.content.asBytes)

/-- A store opened without a key. -/
def OpenStore.keyless : OpenStore := ⟨.noOp, true, true⟩

/-- The canary of a file was encrypted with the secret. -/
def StoreFile.Checked (fernet : Fernet) (secret : EncryptionProvider) (file : StoreFile) : Prop :=
  ∃ check token, file.info.encryptionCheck = some check ∧ base64Bytes check = some token ∧
    (Column.blob token).MadeOf fernet secret canary

section Kinds

variable (fernet : Fernet) (used : EncryptionProvider → Prop) (file : StoreFile) (texts : TextMap)

/-- A file of plaintext, which is taken for one. -/
structure StoreFile.Plain : Prop where
  represents : Represents fernet .noOp file.fragments texts
  facts : FactsMade fernet .noOp file.facts
  check : file.info.encryptionCheck = none
  judged : file.judgedEncrypted false = false

/-- A file from before there were canaries: some sampled row looks encrypted. -/
structure StoreFile.Legacy (secret : EncryptionProvider) : Prop where
  used : used secret
  encrypting : secret.encrypting = true
  represents : Represents fernet secret file.fragments texts
  facts : FactsMade fernet secret file.facts
  check : file.info.encryptionCheck = none
  mark : file.info.encryptedAtRest = none ∨ file.info.encryptedAtRest = some "1"
  looks : ∃ data looking, file.encryptedSamples = some (data :: looking)

/-- A file with the canary of a secret. -/
structure StoreFile.Owned (secret : EncryptionProvider) : Prop where
  used : used secret
  encrypting : secret.encrypting = true
  represents : Represents fernet secret file.fragments texts
  mark : file.info.encryptedAtRest = some "1"
  checked : file.Checked fernet secret

end Kinds

section Facts

variable {fernet : Fernet} {secret : EncryptionProvider} {file : StoreFile} {texts : TextMap}

/-- Sampled columns are rows of the file. -/
theorem mem_sampled {data : ByteArray} (h : data ∈ file.sampled) :
    (∃ n r, file.fragments.at? n = some r ∧ data = r.content.asBytes) ∨
      ∃ n r, file.facts.at? n = some r ∧ data = r.value.asBytes := by
  unfold StoreFile.sampled at h
  obtain ⟨column, hcolumn, rfl⟩ := List.mem_map.mp h
  rcases List.mem_append.mp hcolumn with hin | hin
  · obtain ⟨e, he, rfl⟩ := List.mem_map.mp (List.mem_of_mem_take hin)
    exact .inl ⟨e.1, e.2, RowidTable.at?_eq_some_iff.mpr he, rfl⟩
  · obtain ⟨e, he, rfl⟩ := List.mem_map.mp (List.mem_of_mem_take hin)
    exact .inr ⟨e.1, e.2, RowidTable.at?_eq_some_iff.mpr he, rfl⟩

/-- A file without a sample has no rows. -/
theorem none_of_samples (h : file.encryptedSamples = none) :
    (∀ n, file.fragments.at? n = none) ∧ ∀ n, file.facts.at? n = none := by
  have hempty : file.sampled = [] := by
    unfold StoreFile.encryptedSamples at h
    split at h
    · rename_i hnil
      simpa using hnil
    · cases h
  have hlist : ∀ {α : Type} {rows : List α}, rows.take sniffLimit = [] → rows = [] := by
    intro α rows hrows
    cases rows with
    | nil => rfl
    | cons r rows => simp [sniffLimit] at hrows
  have htables : file.fragments.rows.rows = [] ∧ file.facts.rows.rows = [] := by
    unfold StoreFile.sampled at hempty
    rw [List.map_eq_nil_iff, List.append_eq_nil_iff] at hempty
    exact ⟨List.map_eq_nil_iff.mp (hlist hempty.1), List.map_eq_nil_iff.mp (hlist hempty.2)⟩
  constructor
  · intro n
    cases hat : file.fragments.at? n with
    | none => rfl
    | some r =>
        have hmem := RowidTable.at?_eq_some_iff.mp hat
        rw [htables.1] at hmem
        cases hmem
  · intro n
    cases hat : file.facts.at? n with
    | none => rfl
    | some r =>
        have hmem := RowidTable.at?_eq_some_iff.mp hat
        rw [htables.2] at hmem
        cases hmem

/-- What is sampled of a file under a secret was made with it. -/
theorem made_of_mem_samples (hrep : Represents fernet secret file.fragments texts)
    (hfacts : FactsMade fernet secret file.facts) {looking : List ByteArray} {data : ByteArray}
    (h : file.encryptedSamples = some looking) (hdata : data ∈ looking) :
    ∃ text column, Column.MadeOf fernet secret text column ∧ data = column.asBytes := by
  have hsampled : data ∈ file.sampled := by
    unfold StoreFile.encryptedSamples at h
    split at h
    · cases h
    · cases h
      exact (List.mem_filter.mp hdata).1
  rcases mem_sampled hsampled with ⟨n, r, hr, rfl⟩ | ⟨n, r, hr, rfl⟩
  · obtain ⟨text, hmade, -⟩ := hrep.row n r hr
    exact ⟨text, _, hmade, rfl⟩
  · obtain ⟨value, hmade⟩ := hfacts n r hr
    exact ⟨value, _, hmade, rfl⟩

/-- With a sample the provider does not count. -/
theorem judgedEncrypted_eq (h : file.encryptedSamples ≠ none) (encrypting : Bool) :
    file.judgedEncrypted encrypting = file.judgedEncrypted false := by
  unfold StoreFile.judgedEncrypted
  cases file.info.encryptedAtRest with
  | some value => rfl
  | none =>
      cases hsamples : file.encryptedSamples with
      | none => exact absurd hsamples h
      | some looking => rfl

theorem FactsMade.empty_of_none (h : ∀ n, file.facts.at? n = none) :
    FactsMade fernet secret file.facts := fun n r hr => by simp [h] at hr

theorem FactsMade.sameSecret {other : EncryptionProvider}
    (h : FactsMade fernet secret file.facts) (hsame : secret.SameSecret other) :
    FactsMade fernet other file.facts := by
  intro n r hr
  obtain ⟨value, q, moment, hq, hwf, hvalue⟩ := h n r hr
  exact ⟨value, q, moment, hq.trans hsame, hwf, hvalue⟩

end Facts

/-! ### Opening -/

section Opening

variable {host : OpenHost} {used : EncryptionProvider → Prop} {file : StoreFile} {texts : TextMap}
  {secret provider : EncryptionProvider} {moment : ByteArray}

theorem Represents.quarantine (h : Represents host.fernet secret file.fragments texts) :
    Represents host.fernet secret (host.quarantineUnreadable provider file).fragments texts := by
  exact h.update (f := StoredRow.quarantined) (fun _ => rfl) (fun _ => rfl) fun _ => rfl

theorem FactsMade.quarantine (h : FactsMade host.fernet secret file.facts) :
    FactsMade host.fernet secret (host.quarantineUnreadable provider file).facts :=
  h.update (f := FactCell.withdrawn) (fun _ => rfl) fun _ => rfl

theorem Represents.quarantine_guarded
    (h : Represents host.fernet secret file.fragments texts) :
    Represents host.fernet secret
      (host.quarantineUnreadable provider (guarded host provider moment file)).fragments texts := by
  have hguarded : Represents host.fernet secret
      (guarded host provider moment file).fragments texts := h
  exact hguarded.quarantine

theorem FactsMade.quarantine_guarded (h : FactsMade host.fernet secret file.facts) :
    FactsMade host.fernet secret
      (host.quarantineUnreadable provider (guarded host provider moment file)).facts := by
  have hguarded : FactsMade host.fernet secret (guarded host provider moment file).facts := h
  exact hguarded.quarantine

/-- The canary that a provider has just written. -/
theorem checked_canary (hwf : provider.WellFormed) (hsame : provider.SameSecret secret)
    (h : file.info.encryptionCheck =
      some (base64Text (provider.encrypt host.fernet moment canary.toUTF8))) :
    file.Checked host.fernet secret :=
  ⟨_, _, h, base64Bytes_base64Text _, provider, moment, hsame, hwf, rfl⟩

/-- A provider that passes the check has the secret, and so is refused if not. -/
theorem passesCheck_of_checked (hkeys : KeysApart host.fernet used) (hsecret : used secret)
    (hencrypting : secret.encrypting = true) (hused : used provider)
    (hkey : provider.encrypting = true) {check : String}
    (hcheck : file.info.encryptionCheck = some check) (h : file.Checked host.fernet secret)
    (hpasses : passesCheck host.fernet provider check = true) : provider.SameSecret secret := by
  obtain ⟨check', token, hcheck', hbytes, hmade⟩ := h
  obtain rfl : check = check' := Option.some.inj (hcheck.symm.trans hcheck')
  unfold passesCheck EncryptionProvider.decryptStr at hpasses
  simp only [hbytes] at hpasses
  cases hread : provider.decrypt host.fernet (.blob token) with
  | error e => simp [hread, Bind.bind, Except.bind] at hpasses
  | ok column =>
      exact hkeys.sameSecret secret provider canary (.blob token) column hsecret hused hencrypting
        hkey hmade hread

/-- The guard's decision about a plaintext file. -/
theorem StoreFile.Plain.guarded (h : file.Plain host.fernet texts) :
    (initEncryption host.fernet provider moment file =
        ({ file.info with encryptedAtRest := some "0" }, some .plaintextStore)) ∨
      (provider = .noOp ∧ initEncryption host.fernet provider moment file =
        ({ file.info with encryptedAtRest := some "0" }, none)) ∨
      (provider.encrypting = true ∧ file.encryptedSamples = none ∧
        initEncryption host.fernet provider moment file =
          ({ file.info with
            encryptedAtRest := some "1"
            encryptionCheck :=
              some (base64Text (provider.encrypt host.fernet moment canary.toUTF8)) }, none)) := by
  have hcase := @guarded_initEncryption host.fernet provider moment file
  generalize initEncryption host.fernet provider moment file = result at hcase ⊢
  cases hcase with
  | plaintext => exact .inl rfl
  | plain hkey =>
      refine .inr (.inl ⟨?_, rfl⟩)
      cases provider <;> simp_all [EncryptionProvider.encrypting]
  | keyless hkey hsealed => simp [h.judged] at hsealed
  | keyed hkey hfits =>
      have hnone : file.encryptedSamples = none := by
        by_contra hsome
        rcases hfits with hjudged | hnone
        · rw [judgedEncrypted_eq hsome, h.judged] at hjudged
          cases hjudged
        · exact hsome hnone
      refine .inr (.inr ⟨hkey, hnone, ?_⟩)
      simp [verifyKey, h.check, hnone]

/-- A plaintext file that is opened: it stays one, or, without data, gets a key. -/
theorem StoreFile.Plain.opened (hfts5 : host.fts5 = true) (hkeys : KeysApart host.fernet used)
    (hused : used provider) (h : file.Plain host.fernet texts)
    {result : StoreFile × Except StoreEncryptionError OpenStore}
    (hresult : host.initSchema provider moment file = result) :
    (result.1.Plain host.fernet texts ∧ result.1.info.encryptedAtRest ≠ none ∧
        ∀ store, result.2 = .ok store → store = .keyless) ∨
      (result.1.Owned host.fernet used texts provider ∧ result.1.fts = none ∧
        FactsMade host.fernet provider result.1.facts ∧ provider.encrypting = true ∧
        ∀ store, result.2 = .ok store → store = ⟨provider, false, false⟩) := by
  have hopened := @opened_initSchema host provider moment file hfts5
  rw [hresult] at hopened
  have hmarked : ∀ info : SchemaInfo,
      info = { file.info with encryptedAtRest := some "0" } →
      ({ file with info := info } : StoreFile).Plain host.fernet texts ∧
        info.encryptedAtRest ≠ none := by
    rintro info rfl
    exact ⟨⟨h.represents, h.facts, h.check, by simp [StoreFile.judgedEncrypted]⟩, by simp⟩
  cases hopened with
  | refused e herror =>
      refine .inl ?_
      rcases @StoreFile.Plain.guarded host file texts provider moment h with
        hguard | ⟨-, hguard⟩ | ⟨-, -, hguard⟩
      · obtain ⟨hplain, hmark⟩ := hmarked _ (congrArg Prod.fst hguard)
        exact ⟨hplain, hmark, by simp⟩
      · simp [hguard] at herror
      · simp [hguard] at herror
  | plain hprovider hmark hok =>
      refine .inl ?_
      have hguard : (initEncryption host.fernet .noOp moment file).1 =
          { file.info with encryptedAtRest := some "0" } := by
        rcases @StoreFile.Plain.guarded host file texts .noOp moment h with
          hguard | ⟨-, hguard⟩ | ⟨hkey, -⟩
        · exact congrArg Prod.fst hguard
        · exact congrArg Prod.fst hguard
        · cases hkey
      obtain ⟨hplain, hmark⟩ := hmarked _ hguard
      obtain ⟨-, hfragments, hfacts, hat, hcheck⟩ :=
        initFts_noOp hfts5 (MarkSdk.guarded host .noOp moment file)
      refine ⟨⟨?_, ?_, ?_, ?_⟩, ?_, ?_⟩
      · rw [hfragments]
        exact hplain.represents
      · rw [hfacts]
        exact hplain.facts
      · rw [hcheck]
        exact hplain.check
      · simp [StoreFile.judgedEncrypted, hat, hguard]
      · rw [hat]
        exact hmark
      · rintro store hstore
        cases hstore
        rfl
  | keyed hkey hok hafter hsealed =>
      refine .inr ?_
      rcases @StoreFile.Plain.guarded host file texts provider moment h with
        hguard | ⟨rfl, -⟩ | ⟨-, hnone, hguard⟩
      · simp [hguard] at hok
      · cases hkey
      · obtain ⟨hrows, hfacts⟩ := none_of_samples hnone
        have hrep : Represents host.fernet provider
            (MarkSdk.guarded host provider moment file).fragments texts :=
          h.represents.empty_of_none hrows provider
        have hmade : FactsMade host.fernet provider
            (MarkSdk.guarded host provider moment file).facts := FactsMade.empty_of_none hfacts
        refine ⟨⟨hused, hkey, ?_, hsealed.encrypted, ?_⟩, hsealed.fts, ?_, hkey, ?_⟩
        · rw [hafter]
          exact hrep.quarantine
        · refine @checked_canary host _ provider provider moment
            (hkeys.wellFormed provider hused) (.refl provider) ?_
          rw [hafter]
          exact congrArg (fun r => r.1.encryptionCheck) hguard
        · rw [hafter]
          exact hmade.quarantine
        · rintro store hstore
          cases hstore
          rfl

/-- The guard's decision about a file that is taken for an encrypted one. -/
theorem guard_of_judged (h : ∀ encrypting, file.judgedEncrypted encrypting = true) :
    (provider.encrypting = false ∧ initEncryption host.fernet provider moment file =
        ({ file.info with encryptedAtRest := some "1" }, some .encryptionRequired)) ∨
      (provider.encrypting = true ∧ initEncryption host.fernet provider moment file =
        verifyKey host.fernet provider moment { file.info with encryptedAtRest := some "1" }
          (file.encryptedSamples.getD [])) := by
  have hcase := @guarded_initEncryption host.fernet provider moment file
  generalize initEncryption host.fernet provider moment file = result at hcase ⊢
  cases hcase with
  | plaintext _ hplain => simp [h] at hplain
  | plain _ hplain => simp [h] at hplain
  | keyless hkey => exact .inl ⟨hkey, rfl⟩
  | keyed hkey => exact .inr ⟨hkey, rfl⟩

/-- What opening does to a file that stays encrypted: nothing but marks when it
is refused, else the indexes go. -/
theorem opened_of_judged (hfts5 : host.fts5 = true)
    (h : ∀ encrypting, file.judgedEncrypted encrypting = true)
    {result : StoreFile × Except StoreEncryptionError OpenStore}
    (hresult : host.initSchema provider moment file = result) :
    (∃ e, (initEncryption host.fernet provider moment file).2 = some e ∧
        result = (guarded host provider moment file, .error e)) ∨
      (provider.encrypting = true ∧ (initEncryption host.fernet provider moment file).2 = none ∧
        result.1.fts = none ∧
        result.1.fragments =
          (host.quarantineUnreadable provider (guarded host provider moment file)).fragments ∧
        result.1.facts =
          (host.quarantineUnreadable provider (guarded host provider moment file)).facts ∧
        result.1.info.encryptedAtRest = some "1" ∧
        result.1.info.encryptionCheck =
          (initEncryption host.fernet provider moment file).1.encryptionCheck ∧
        result.2 = .ok ⟨provider, false, false⟩) := by
  have hopened := @opened_initSchema host provider moment file hfts5
  rw [hresult] at hopened
  cases hopened with
  | refused e herror => exact .inl ⟨e, herror, rfl⟩
  | plain hprovider hmark hok =>
      rcases @guard_of_judged host file .noOp moment h with ⟨-, hguard⟩ | ⟨hkey, -⟩
      · simp [hguard] at hok
      · cases hkey
  | keyed hkey hok hafter hsealed =>
      refine .inr ⟨hkey, hok, hsealed.fts, ?_, ?_, hsealed.encrypted, ?_, rfl⟩
      all_goals rw [hafter]
      rfl

/-- A file without a canary that is opened: it gets the canary of its secret, or
nobody opens it. -/
theorem StoreFile.Legacy.opened (hfts5 : host.fts5 = true) (hkeys : KeysApart host.fernet used)
    (hused : used provider) (h : file.Legacy host.fernet used texts secret)
    {result : StoreFile × Except StoreEncryptionError OpenStore}
    (hresult : host.initSchema provider moment file = result) :
    (result.1.Legacy host.fernet used texts secret ∧ ∃ e, result.2 = .error e) ∨
      (result.1.Owned host.fernet used texts secret ∧ result.1.fts = none ∧
        FactsMade host.fernet secret result.1.facts ∧ provider.SameSecret secret ∧
        ∀ store, result.2 = .ok store → store = ⟨provider, false, false⟩) := by
  obtain ⟨data, looking, hlooks⟩ := h.looks
  have hjudged : ∀ encrypting, file.judgedEncrypted encrypting = true := by
    intro encrypting
    rcases h.mark with hmark | hmark
    · simp [StoreFile.judgedEncrypted, hmark, hlooks]
    · exact judgedEncrypted_of_mark hmark encrypting
  have hguard := @guard_of_judged host file provider moment hjudged
  rw [hlooks, Option.getD_some] at hguard
  rcases opened_of_judged hfts5 hjudged hresult with
    ⟨e, herror, rfl⟩ | ⟨hkey, hok, hfts, hfragments, hfacts, hmark, hcheck, hstore⟩
  · refine .inl ⟨⟨h.used, h.encrypting, h.represents, h.facts, ?_, .inr ?_,
      ⟨data, looking, hlooks⟩⟩, e, rfl⟩
    · show (initEncryption host.fernet provider moment file).1.encryptionCheck = none
      rcases hguard with ⟨-, hguard⟩ | ⟨-, hguard⟩
      · rw [hguard]
        exact h.check
      · rw [hguard] at herror ⊢
        unfold verifyKey at herror ⊢
        simp only [h.check] at herror ⊢
        split at herror
        · cases herror
        · rename_i hnot
          rw [if_neg hnot]
    · show (initEncryption host.fernet provider moment file).1.encryptedAtRest = some "1"
      rcases hguard with ⟨-, hguard⟩ | ⟨-, hguard⟩
      · rw [hguard]
      · rw [hguard, verifyKey_info]
  · refine .inr ?_
    rcases hguard with ⟨hkeyless, -⟩ | ⟨-, hguard⟩
    · simp [hkeyless] at hkey
    · rw [hguard] at hok hcheck
      unfold verifyKey at hok hcheck
      simp only [h.check] at hok hcheck
      split at hok
      · rename_i hall
        rw [if_pos hall] at hcheck
        -- the first sampled row was made with the secret, and the provider read it
        obtain ⟨text, column, hmade, rfl⟩ :=
          made_of_mem_samples h.represents h.facts hlooks List.mem_cons_self
        have hread : decrypts host.fernet provider column.asBytes = true :=
          List.all_eq_true.mp hall _ List.mem_cons_self
        have hsame : provider.SameSecret secret := by
          unfold decrypts at hread
          split at hread
          · rename_i read hdecrypt
            exact hkeys.sameSecret secret provider text column read h.used hused h.encrypting hkey
              hmade hdecrypt
          · cases hread
        refine ⟨⟨h.used, h.encrypting, ?_, hmark, ?_⟩, hfts, ?_, hsame, ?_⟩
        · rw [hfragments]
          exact Represents.quarantine_guarded h.represents
        · exact @checked_canary host _ secret provider moment
            (hkeys.wellFormed provider hused) hsame hcheck
        · rw [hfacts]
          exact FactsMade.quarantine_guarded h.facts
        · rintro store hok'
          rw [hstore] at hok'
          cases hok'
          rfl
      · cases hok

/-- A file with a canary that is opened: only a provider with its secret gets in. -/
theorem StoreFile.Owned.opened (hfts5 : host.fts5 = true) (hkeys : KeysApart host.fernet used)
    (hused : used provider) (h : file.Owned host.fernet used texts secret)
    {result : StoreFile × Except StoreEncryptionError OpenStore}
    (hresult : host.initSchema provider moment file = result) :
    result.1.Owned host.fernet used texts secret ∧ (file.fts = none → result.1.fts = none) ∧
      (FactsMade host.fernet secret file.facts → FactsMade host.fernet secret result.1.facts) ∧
      ∀ store, result.2 = .ok store →
        store = ⟨provider, false, false⟩ ∧ provider.SameSecret secret ∧ result.1.fts = none := by
  have hjudged := judgedEncrypted_of_mark h.mark
  have hguard := @guard_of_judged host file provider moment hjudged
  obtain ⟨check, token, hcheck, hbytes, hmade⟩ := h.checked
  rcases opened_of_judged hfts5 hjudged hresult with
    ⟨e, herror, rfl⟩ | ⟨hkey, hok, hfts, hfragments, hfacts, hmark, hcheck', hstore⟩
  · refine ⟨⟨h.used, h.encrypting, h.represents, encrypted_initEncryption h.mark,
      check, token, ?_, hbytes, hmade⟩, id, id, by simp⟩
    show (initEncryption host.fernet provider moment file).1.encryptionCheck = some check
    rcases hguard with ⟨-, hguard⟩ | ⟨-, hguard⟩ <;> rw [hguard]
    · exact hcheck
    · simp [verifyKey, hcheck]
  · rcases hguard with ⟨hkeyless, -⟩ | ⟨-, hguard⟩
    · simp [hkeyless] at hkey
    · rw [hguard] at hok hcheck'
      unfold verifyKey at hok hcheck'
      simp only [hcheck] at hok hcheck'
      have hpasses : passesCheck host.fernet provider check = true := by
        by_contra hnot
        simp [hnot] at hok
      have hsame : provider.SameSecret secret :=
        passesCheck_of_checked hkeys h.used h.encrypting hused hkey hcheck h.checked hpasses
      refine ⟨⟨h.used, h.encrypting, ?_, hmark, check, token, hcheck', hbytes, hmade⟩,
        fun _ => hfts, fun hmade' => ?_, ?_⟩
      · rw [hfragments]
        exact Represents.quarantine_guarded h.represents
      · rw [hfacts]
        exact FactsMade.quarantine_guarded hmade'
      · rintro store hok'
        rw [hstore] at hok'
        cases hok'
        exact ⟨rfl, hsame, hfts⟩

end Opening

end MarkSdk
