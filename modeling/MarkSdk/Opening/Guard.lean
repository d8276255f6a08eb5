import MarkSdk.Lib.Base64
import MarkSdk.Lib.Rowids
import MarkSdk.Store.Encryption
import MarkSdk.Store.Rows

/-!
What a store checks of its encryption when it is opened.

The file says in `schema_info` whether it is encrypted, and keeps a ciphertext
of a known text, the canary. A file without the mark is judged by a sample of
its rows. The provider has to fit: a plaintext store that holds data takes no
key, an encrypted one takes only a key that decrypts the canary.
-/

namespace MarkSdk

open Lib

/-! ### The file -/

def Column.asBytes : Column → ByteArray
  | .null => "None".toUTF8
  | .text s => s.toUTF8
  | .blob data => data

/-- A row of `fragments`; the content stands apart, as it is in the file. -/
structure StoredRow where
  columns : Fragment
  content : Column

/-- A row of `facts`, as far as opening a store looks at it. -/
structure FactCell where
  id : String
  value : Column
  retracted : Bool
  unreadable : Bool

/-- The entries of `schema_info` that opening a store reads. -/
structure SchemaInfo where
  encryptedAtRest : Option String
  encryptionCheck : Option String
  /-- The last checked rowids of `fragments` and `facts` -/
  unreadableScan : Option (Nat × Nat)
  ftsBackfilled : Option String
  ftsMlBackfilled : Option String

/-- A row of `fragments_fts`. -/
structure FtsRow where
  content : String
  tags : String
  fragmentId : String
  agentId : String
  deriving DecidableEq

/-- A row of `fragments_fts_ml`. -/
structure FtsMlRow where
  content : String
  fragmentId : String
  agentId : String
  deriving DecidableEq

abbrev StoredRow.key (r : StoredRow) : String := r.columns.id

/-- A database file. The tables of the text indexes may be missing. -/
structure StoreFile where
  info : SchemaInfo
  fragments : RowidTable StoredRow.key
  facts : RowidTable FactCell.id
  fts : Option (Dict Nat FtsRow)
  ftsMl : Option (Dict Nat FtsMlRow)

/-- A new database. -/
def StoreFile.empty : StoreFile := ⟨⟨none, none, none, none, none⟩, .empty, .empty, none, none⟩

/-! ### Ciphertext by its looks -/

def sniffLimit : Nat := 50

def fernetMinLen : Nat := 1 + 8 + 16 + 16 + 32

def isFernetToken (data : ByteArray) : Bool :=
  startsWithBytes "gAAAAA".toUTF8 data &&
    match Base64.decodeUrlSafe data.data.toList with
    | none => false
    | some raw => decide (fernetMinLen ≤ raw.length) && raw.head? == some 0x80

def looksEncrypted (data : ByteArray) : Bool :=
  isFernetToken data || isFernetToken (data.extract 16 data.size) ||
    (String.fromUTF8? data).isNone

namespace StoreFile

/-- The columns that a store encrypts, as `_encrypted_samples` reads them. -/
def sampled (file : StoreFile) : List ByteArray :=
  ((file.fragments.rows.rows.map fun r => r.2.content).take sniffLimit ++
    (file.facts.rows.rows.map fun r => r.2.value).take sniffLimit).map Column.asBytes

/-- `_encrypted_samples`: nothing for a store without data. -/
def encryptedSamples (file : StoreFile) : Option (List ByteArray) :=
  if file.sampled.isEmpty then none else some (file.sampled.filter looksEncrypted)

/-- Whether the file is taken for an encrypted one: by its mark, by the sample,
or, without data, by the provider. -/
def judgedEncrypted (file : StoreFile) (encrypting : Bool) : Bool :=
  match file.info.encryptedAtRest with
  | some value => value == "1"
  | none =>
      match file.encryptedSamples with
      | none => encrypting
      | some looking => !looking.isEmpty

end StoreFile

/-! ### The guard -/

inductive StoreEncryptionError : Type
  | encryptionKey
  | encryptionRequired
  | plaintextStore
  deriving DecidableEq, Repr

def canary : String := "mark-encryption-check-v1"

/-- `base64.b64encode(data).decode("ascii")` -/
def base64Text (data : ByteArray) : String :=
  String.ofList ((Base64.encode data.data.toList).map fun b => Char.ofNat b.toNat)

/-- `base64.b64decode(text)`; nothing for a `ValueError` -/
def base64Bytes (text : String) : Option ByteArray :=
  if text.toList.all fun c => c.toNat < 128 then
    (Base64.decode (text.toList.map fun c => UInt8.ofNat c.toNat)).map fun bytes => ⟨⟨bytes⟩⟩
  else none

def EncryptionProvider.encrypting : EncryptionProvider → Bool
  | .noOp => false
  | _ => true

section Checking

variable (fernet : Fernet) (provider : EncryptionProvider) (moment : ByteArray)

/-- `self.encryption.decrypt_str(base64.b64decode(check)) == _CANARY` -/
def passesCheck (check : String) : Bool :=
  match base64Bytes check with
  | none => false
  | some token =>
      match provider.decryptStr fernet (.blob token) with
      | .ok text => text == canary
      | .error _ => false

/-- `self.encryption.decrypt(data)` does not raise. -/
def decrypts (data : ByteArray) : Bool :=
  match provider.decrypt fernet (.blob data) with
  | .ok _ => true
  | .error _ => false

def verifyKey (info : SchemaInfo) (samples : List ByteArray) :
    SchemaInfo × Option StoreEncryptionError :=
  match info.encryptionCheck with
  | some check =>
      (info, if passesCheck fernet provider check then none else some .encryptionKey)
  | none =>
      if samples.all (decrypts fernet provider) then
        ({ info with
          encryptionCheck := some (base64Text (provider.encrypt fernet moment canary.toUTF8)) },
          none)
      else (info, some .encryptionKey)

/-- `_init_encryption`: the entries that are committed, and the error to raise
after that. -/
def initEncryption (file : StoreFile) : SchemaInfo × Option StoreEncryptionError :=
  let samples := file.encryptedSamples
  let encrypted := file.judgedEncrypted provider.encrypting
  if !encrypted && provider.encrypting && samples.isSome then
    ({ file.info with encryptedAtRest := some "0" }, some .plaintextStore)
  else
    -- an empty plaintext store may become an encrypted one
    let encrypted := encrypted || provider.encrypting
    let info := { file.info with encryptedAtRest := some (if encrypted then "1" else "0") }
    if !encrypted then (info, none)
    else if !provider.encrypting then (info, some .encryptionRequired)
    else verifyKey fernet provider moment info (samples.getD [])

end Checking

section Outcomes

variable {fernet : Fernet} {provider : EncryptionProvider} {moment : ByteArray} {file : StoreFile}

inductive Guarded (fernet : Fernet) (provider : EncryptionProvider) (moment : ByteArray)
    (file : StoreFile) : SchemaInfo × Option StoreEncryptionError → Prop
  | plaintext (hkey : provider.encrypting = true)
      (hplain : file.judgedEncrypted true = false) (hdata : file.encryptedSamples ≠ none) :
      Guarded fernet provider moment file
        ({ file.info with encryptedAtRest := some "0" }, some .plaintextStore)
  | plain (hkey : provider.encrypting = false) (hplain : file.judgedEncrypted false = false) :
      Guarded fernet provider moment file ({ file.info with encryptedAtRest := some "0" }, none)
  | keyless (hkey : provider.encrypting = false) (hsealed : file.judgedEncrypted false = true) :
      Guarded fernet provider moment file
        ({ file.info with encryptedAtRest := some "1" }, some .encryptionRequired)
  | keyed (hkey : provider.encrypting = true)
      (hfits : file.judgedEncrypted true = true ∨ file.encryptedSamples = none) :
      Guarded fernet provider moment file
        (verifyKey fernet provider moment { file.info with encryptedAtRest := some "1" }
          (file.encryptedSamples.getD []))

theorem guarded_initEncryption :
    Guarded fernet provider moment file (initEncryption fernet provider moment file) := by
  unfold initEncryption
  cases hkey : provider.encrypting with
  | false =>
      cases hsealed : file.judgedEncrypted false with
      | false => simpa [hsealed] using Guarded.plain hkey hsealed
      | true => simpa [hsealed] using Guarded.keyless hkey hsealed
  | true =>
      cases hsealed : file.judgedEncrypted true with
      | true => simpa [hsealed] using Guarded.keyed hkey (.inl hsealed)
      | false =>
          cases hdata : file.encryptedSamples with
          | none => simpa [hsealed, hdata] using Guarded.keyed hkey (.inr hdata)
          | some looking =>
              simpa [hsealed, hdata] using Guarded.plaintext hkey hsealed (by simp [hdata])

/-- `_verify_key` touches the canary only. -/
theorem verifyKey_info (info : SchemaInfo) (samples : List ByteArray) :
    (verifyKey fernet provider moment info samples).1 = { info with
      encryptionCheck := (verifyKey fernet provider moment info samples).1.encryptionCheck } := by
  unfold verifyKey
  split
  · rfl
  · split <;> rfl

theorem judgedEncrypted_of_mark (h : file.info.encryptedAtRest = some "1") (encrypting : Bool) :
    file.judgedEncrypted encrypting = true := by
  simp [StoreFile.judgedEncrypted, h]

/-- A file that is marked as encrypted stays marked. -/
theorem encrypted_initEncryption (h : file.info.encryptedAtRest = some "1") :
    (initEncryption fernet provider moment file).1.encryptedAtRest = some "1" := by
  have hcase := @guarded_initEncryption fernet provider moment file
  generalize initEncryption fernet provider moment file = result at hcase ⊢
  cases hcase with
  | plaintext _ hplain _ => simp [judgedEncrypted_of_mark h] at hplain
  | plain _ hplain => simp [judgedEncrypted_of_mark h] at hplain
  | keyless => rfl
  | keyed => rw [verifyKey_info]

/-- The marks of the text indexes are not its business. -/
theorem fts_initEncryption :
    (initEncryption fernet provider moment file).1.ftsBackfilled = file.info.ftsBackfilled ∧
      (initEncryption fernet provider moment file).1.ftsMlBackfilled =
        file.info.ftsMlBackfilled := by
  have hcase := @guarded_initEncryption fernet provider moment file
  generalize initEncryption fernet provider moment file = result at hcase ⊢
  cases hcase with
  | plaintext => exact ⟨rfl, rfl⟩
  | plain => exact ⟨rfl, rfl⟩
  | keyless => exact ⟨rfl, rfl⟩
  | keyed =>
      rw [verifyKey_info]
      exact ⟨rfl, rfl⟩

end Outcomes

/-! ### Reading the canary back -/

theorem base64_lt (bytes : List UInt8) : ∀ b ∈ Base64.encode bytes, b.toNat < 128 := by
  have hdigit : ∀ n : Nat, (Base64.digit n).toNat < 128 := by
    intro n
    by_cases hn : n < 64
    · have hall : ∀ n : Fin 64, (Base64.digit n).toNat < 128 := by decide
      exact hall ⟨n, hn⟩
    · have hlarge : Base64.digit n = 47 := by
        rw [Base64.digit, if_neg (by omega), if_neg (by omega), if_neg (by omega),
          if_neg (by omega)]
      rw [hlarge]
      decide
  have hpad : Base64.pad.toNat < 128 := by decide
  induction bytes using Base64.encode.induct with
  | case1 => simp [Base64.encode]
  | case2 a => simp [Base64.encode, hdigit, hpad]
  | case3 a b => simp [Base64.encode, hdigit, hpad]
  | case4 a b c rest ih => simpa [Base64.encode, hdigit] using ih

theorem toNat_ofNat_of_lt {n : Nat} (h : n < 128) : (Char.ofNat n).toNat = n := by
  have hall : ∀ n : Fin 128, (Char.ofNat n).toNat = n := by decide
  exact hall ⟨n, h⟩

@[simp] theorem base64Bytes_base64Text (data : ByteArray) :
    base64Bytes (base64Text data) = some data := by
  have hlt := base64_lt data.data.toList
  have hall : ((Base64.encode data.data.toList).map fun b => Char.ofNat b.toNat).all
      (fun c => c.toNat < 128) = true := by
    rw [List.all_eq_true]
    intro c hc
    obtain ⟨b, hb, rfl⟩ := List.mem_map.mp hc
    simpa [toNat_ofNat_of_lt (hlt b hb)] using hlt b hb
  have hback : ((Base64.encode data.data.toList).map fun b => Char.ofNat b.toNat).map
      (fun c => UInt8.ofNat c.toNat) = Base64.encode data.data.toList := by
    rw [List.map_map]
    refine (List.map_congr_left fun b hb => ?_).trans (List.map_id _)
    simp [toNat_ofNat_of_lt (hlt b hb)]
  rw [base64Bytes, base64Text, String.toList_ofList, if_pos hall, hback, Base64.decode_encode]
  simp

end MarkSdk
