import MarkSdk.Store.Values

/-!
Encryption at rest: the providers and the columns they write.

A store encrypts texts into blobs and decrypts what it finds in a column. The
default provider does nothing; the other two use `Fernet` from `cryptography`,
with a key or with a passphrase that is stretched into one. `Fernet` comes in
as a parameter.
-/

namespace MarkSdk

/-- What a column of SQLite holds, and what Python gets for it: `None`, a `str`
or `bytes`. -/
inductive Column : Type
  | null
  | text (s : String)
  | blob (bytes : ByteArray)

inductive DecryptError : Type
  | attributeError
  | typeError
  | invalidToken
  | unicodeDecodeError
  deriving DecidableEq, Repr

/-- `cryptography`: `Fernet` under a key, with the time and the random bytes of
an encryption as an argument, and PBKDF2. -/
structure Fernet where
  encrypt : (key moment data : ByteArray) → ByteArray
  /-- `Fernet(key).decrypt(token)` for a `str` or `bytes`; nothing for
  `InvalidToken` -/
  decrypt : (key : ByteArray) → Column → Option ByteArray
  /-- `PBKDF2HMAC(salt=salt).derive(passphrase)` in URL-safe Base64 -/
  derive : (passphrase salt : ByteArray) → ByteArray

/-- A provider as a store holds it. A passphrase is used with one salt for all
that the provider encrypts. -/
inductive EncryptionProvider : Type
  | noOp
  | keyed (key : ByteArray)
  | stretched (passphrase salt : ByteArray)

/-- `b"gAAAA"` -/
def tokenPrefix : ByteArray := "gAAAA".toUTF8

/-- `data.startswith(prefix)` -/
def startsWithBytes (start data : ByteArray) : Bool :=
  start.data.toList.isPrefixOf data.data.toList

namespace EncryptionProvider

variable (fernet : Fernet)

def saltSize : Nat := 16

def encrypt (moment data : ByteArray) : EncryptionProvider → ByteArray
  | .noOp => data
  | .keyed key => fernet.encrypt key moment data
  | .stretched passphrase salt =>
      salt ++ fernet.encrypt (fernet.derive passphrase salt) moment data

/-- `decrypt`, which nothing keeps from being called on what is not `bytes`. -/
def decrypt (column : Column) : EncryptionProvider → Except DecryptError Column
  | .noOp => .ok column
  | .keyed key =>
      match column with
      | .null => .error .typeError
      | column =>
          match fernet.decrypt key column with
          | some data => .ok (.blob data)
          | none => .error .invalidToken
  | .stretched passphrase _ =>
      match column with
      | .blob data =>
          let token := data.extract saltSize data.size
          if startsWithBytes tokenPrefix token then
            match fernet.decrypt (fernet.derive passphrase (data.extract 0 saltSize))
                (.blob token) with
            | some data => .ok (.blob data)
            | none => .error .invalidToken
          else .error .invalidToken
      -- `token.startswith(b"gAAAA")` of a `str`, or a slice of `None`
      | _ => .error .typeError

def encryptStr (moment : ByteArray) (text : String) (provider : EncryptionProvider) : Column :=
  .blob (provider.encrypt fernet moment text.toUTF8)

/-- `self.decrypt(data).decode("utf-8")` -/
def decryptStr (column : Column) (provider : EncryptionProvider) : Except DecryptError String := do
  match ← provider.decrypt fernet column with
  | .blob data =>
      match String.fromUTF8? data with
      | some text => .ok text
      | none => .error .unicodeDecodeError
  | _ => .error .attributeError

end EncryptionProvider

/-! ### What is encrypted can be read -/

/-- The letters of URL-safe Base64. -/
def isBase64 (c : Char) : Bool := c.isAlphanum || c == '-' || c == '_' || c == '+' || c == '/'

/-- What `Fernet` promises. A token is Base64 whose first byte is the version
0x80, so that its first letter is a `g`; decoding skips all that is no letter. -/
structure Fernet.Lawful (fernet : Fernet) : Prop where
  decrypt_encrypt : ∀ key moment data,
    fernet.decrypt key (.blob (fernet.encrypt key moment data)) = some data
  token : ∀ key moment data, startsWithBytes tokenPrefix (fernet.encrypt key moment data) = true
  version : ∀ key text data, fernet.decrypt key (.text text) = some data →
    text.toList.find? isBase64 = some 'g'

/-- A provider whose salt is as long as the one it reads back. -/
def EncryptionProvider.WellFormed : EncryptionProvider → Prop
  | .noOp => True
  | .keyed _ => True
  | .stretched _ salt => salt.size = EncryptionProvider.saltSize

theorem fromUTF8_toUTF8 (text : String) : String.fromUTF8? text.toUTF8 = some text := by
  have hvalid : text.toUTF8.IsValidUTF8 := text.isValidUTF8
  unfold String.fromUTF8?
  rw [dif_pos hvalid]
  rfl

theorem decrypt_encrypt {fernet : Fernet} (hfernet : fernet.Lawful) {provider : EncryptionProvider}
    (hprovider : provider.WellFormed) (moment data : ByteArray) :
    provider.decrypt fernet (.blob (provider.encrypt fernet moment data)) = .ok (.blob data) := by
  cases provider with
  | noOp => rfl
  | keyed key =>
      unfold EncryptionProvider.decrypt EncryptionProvider.encrypt
      simp only [hfernet.decrypt_encrypt]
  | stretched passphrase salt =>
      have hsalt : salt.size = EncryptionProvider.saltSize := hprovider
      have hrest : ∀ token : ByteArray,
          (salt ++ token).extract EncryptionProvider.saltSize (salt ++ token).size = token :=
        fun token => ByteArray.extract_append_eq_right hsalt.symm ByteArray.size_append
      have hfront : ∀ token : ByteArray,
          (salt ++ token).extract 0 EncryptionProvider.saltSize = salt :=
        fun token => ByteArray.extract_append_eq_left hsalt.symm
      unfold EncryptionProvider.decrypt EncryptionProvider.encrypt
      simp only [hrest, hfront, hfernet.token, if_true, hfernet.decrypt_encrypt]

theorem decryptStr_encryptStr {fernet : Fernet} (hfernet : fernet.Lawful)
    {provider : EncryptionProvider} (hprovider : provider.WellFormed) (moment : ByteArray)
    (text : String) :
    provider.decryptStr fernet (provider.encryptStr fernet moment text) = .ok text := by
  unfold EncryptionProvider.decryptStr EncryptionProvider.encryptStr
  rw [decrypt_encrypt hfernet hprovider]
  simp only [Bind.bind, Except.bind, fromUTF8_toUTF8]

/-- `Fernet` without its secret: a token is the data behind its prefix. -/
def Fernet.open_ : Fernet where
  encrypt _ _ data := tokenPrefix ++ data
  decrypt _ column :=
    match column with
    | .blob token =>
        if startsWithBytes tokenPrefix token then some (token.extract tokenPrefix.size token.size)
        else none
    | _ => none
  derive passphrase _ := passphrase

theorem lawful_open : Fernet.open_.Lawful where
  decrypt_encrypt key moment data := by
    have hstart : startsWithBytes tokenPrefix (tokenPrefix ++ data) = true := by
      unfold startsWithBytes
      rw [List.isPrefixOf_iff_prefix, ByteArray.data_append, Array.toList_append]
      exact List.prefix_append _ _
    have hrest : (tokenPrefix ++ data).extract tokenPrefix.size (tokenPrefix ++ data).size = data :=
      ByteArray.extract_append_eq_right rfl ByteArray.size_append
    simp only [Fernet.open_, hstart, if_true, hrest]
  token key moment data := by
    unfold startsWithBytes
    rw [List.isPrefixOf_iff_prefix]
    show _ <+: (tokenPrefix ++ data).data.toList
    rw [ByteArray.data_append, Array.toList_append]
    exact List.prefix_append _ _
  version key text data h := by cases h

end MarkSdk
