import Mathlib.Algebra.Ring.Int.Defs
import Mathlib.Data.List.Sort
import Mathlib.Data.String.Basic

/-!
Fact values and keys: what the store writes for a Python value, and how the
subjects and attributes of facts are matched.

Python's own text functions that depend on the Unicode tables, and its JSON
codec, come in through `Python`. Everything the repository defines over them
(`encode_value`, `decode_value`, `value_text`, `_same_value`, `_fact_key`) is
translated. Lean strings hold no lone surrogates; the `UnicodeEncodeError`
branch of `encode_value`, which such a text reaches, is in
`MarkSdk.Store.TypedValues` (`encodeText`).
-/

namespace MarkSdk

/-- A value handed to the fact store. Floats are their IEEE 754 bits; `other`
is an object of any other class, known by its `str()`. -/
inductive PyValue : Type
  | none
  | bool (b : Bool)
  | int (n : Int)
  | float (bits : BitVec 64)
  | str (s : String)
  | list (items : List PyValue)
  | tuple (items : List PyValue)
  | dict (items : List (String × PyValue))
  | other (text : String)

/-- The functions of Python's standard library that the fact store calls. -/
structure Python where
  /-- `str.lower` -/
  lower : String → String
  /-- `str.islower` of one character -/
  isLower : Char → Bool
  /-- `\w` -/
  isWord : Char → Bool
  /-- `json.dumps(value, sort_keys=True, ensure_ascii=False)`; nothing for a
  `TypeError` or `ValueError` -/
  dumps : PyValue → Option String
  /-- `json.loads`; nothing for a `ValueError` -/
  loads : String → Option PyValue
  /-- `str` -/
  str : PyValue → String
  /-- `repr` of a text -/
  repr : String → String
  /-- `int(value)`; nothing for a `TypeError` or `ValueError` -/
  int : PyValue → Option Int

/-! ### Text -/

/-- `str.isspace` of one character, which is also what `\s` matches. -/
def isSpace (c : Char) : Bool :=
  (9 ≤ c.toNat && c.toNat ≤ 13) || (28 ≤ c.toNat && c.toNat ≤ 32) ||
    (8192 ≤ c.toNat && c.toNat ≤ 8202) ||
    [133, 160, 5760, 8232, 8233, 8239, 8287, 12288].contains c.toNat

/-- `str.rstrip(chars)` -/
def rstripChars (p : Char → Bool) (s : List Char) : List Char :=
  (s.reverse.dropWhile p).reverse

/-- `str.strip(chars)` -/
def stripChars (p : Char → Bool) (s : List Char) : List Char :=
  rstripChars p (s.dropWhile p)

def strip (s : String) : String := String.ofList (stripChars isSpace s.toList)

/-- The characters collected so far as a word, unless there are none. -/
def pushWord (word : List Char) (words : List (List Char)) : List (List Char) :=
  if word.isEmpty then words else word.reverse :: words

/-- `str.split()`, with the word being read on the side. -/
def splitWords : List Char → List Char → List (List Char)
  | [], word => pushWord word []
  | c :: s, word => if isSpace c then pushWord word (splitWords s []) else splitWords s (c :: word)

/-- `str.split()` -/
def pySplit (s : String) : List String := (splitWords s.toList []).map String.ofList

/-- `" ".join(words)` -/
def joinWords (words : List String) : String :=
  String.ofList (([' '] : List Char).intercalate (words.map String.toList))

/-- The characters that `_fact_key` folds into one blank. -/
def isKeySpace (c : Char) : Bool := isSpace c || c == '_' || c == '-'

/-- `re.sub(r"[\s_\-]+", " ", text)`: every run becomes one blank. -/
def foldBlanks : List Char → List Char
  | [] => []
  | [c] => if isKeySpace c then [' '] else [c]
  | c :: d :: s =>
      if isKeySpace c then
        if isKeySpace d then foldBlanks (d :: s) else ' ' :: foldBlanks (d :: s)
      else c :: foldBlanks (d :: s)

/-- The quotes and brackets stripped from both ends of a key. -/
def isKeyWrap (c : Char) : Bool :=
  [' ', '\x22', '\x27', '(', ')', '[', ']', '\x7b', '\x7d'].contains c

/-- The punctuation stripped from the end of a key. -/
def isKeyTail (c : Char) : Bool := [' ', '.', ',', ';', ':', '!', '?'].contains c

/-- `_fact_key`: the normalised form by which subjects and attributes match. -/
def factKey (py : Python) (text : String) : String :=
  let quoted := (py.lower text).toList.map fun c => if c.toNat = 0x2019 then '\x27' else c
  String.ofList (rstripChars isKeyTail (stripChars isKeyWrap (foldBlanks quoted)))

/-! ### Encoding -/

inductive StoreError : Type
  | valueError (message : String)
  | typeError (message : String)
  | indexError (message : String)
  | invalidMemory (message reason : String)
  | integrityError (message : String)
  deriving DecidableEq, Repr

/-- `_TYPED`, which starts with the control character 0x1f. -/
def typedMarker : String := "\x1fmark-json:"

/-- `text.startswith(_TYPED)` -/
def isTyped (text : String) : Bool := typedMarker.toList.isPrefixOf text.toList

/-- `str(value)` -/
def pyStr (py : Python) : PyValue → String
  | .str s => s
  | .other text => text
  | value => py.str value

def encodeValue (py : Python) (value : PyValue) : Except StoreError String :=
  let typed :=
    match py.dumps value with
    | some text => .ok (typedMarker ++ text)
    | none => .error (.invalidMemory "fact value must be JSON-serialisable" "fact_value")
  match value with
  | .str s => if isTyped s then typed else .ok s
  | .other _ => .ok (pyStr py value)
  | _ => typed

def decodeValue (py : Python) (text : String) : PyValue :=
  if isTyped text then
    match py.loads (String.ofList (text.toList.drop typedMarker.length)) with
    | some value => value
    | none => .str text
  else .str text

def valueText (py : Python) (value : PyValue) : String :=
  match value with
  | .str s => s
  | .int _ => pyStr py value
  | .float _ => pyStr py value
  | _ => (py.dumps value).getD (pyStr py value)

/-- `_same_value`: the same typed value, or the same rendering. A value that
cannot be encoded raises. -/
def sameValue (py : Python) (stored wanted : PyValue) : Except StoreError Bool := do
  let a ← encodeValue py stored
  let b ← encodeValue py wanted
  return a == b || valueText py stored == valueText py wanted

@[simp] theorem encodeValue_str (py : Python) {s : String} (h : isTyped s = false) :
    encodeValue py (.str s) = .ok s := by
  simp [encodeValue, h]

/-! ### Equality of Python values -/

/-- The number a Python number stands for: `mantissa * 2 ^ (exponent - 1075)`,
or one of the IEEE special values. -/
inductive PyNumber : Type
  | finite (mantissa : Int) (exponent : Nat)
  | infinite (negative : Bool)
  | nan
  deriving DecidableEq

/-- The value of an IEEE 754 double. -/
def floatNumber (bits : BitVec 64) : PyNumber :=
  let negative := bits.msb
  let exponent := (bits.toNat / 2 ^ 52) % 2 ^ 11
  let fraction := bits.toNat % 2 ^ 52
  if exponent = 2 ^ 11 - 1 then
    if fraction = 0 then .infinite negative else .nan
  else
    let mantissa : Nat := if exponent = 0 then fraction else fraction + 2 ^ 52
    .finite (if negative then -(mantissa : Int) else mantissa) (max exponent 1)

/-- `bool` is a subclass of `int`. -/
def PyValue.number? : PyValue → Option PyNumber
  | .bool b => some (.finite (if b then 1 else 0) 1075)
  | .int n => some (.finite n 1075)
  | .float bits => some (floatNumber bits)
  | _ => Option.none

/-- `==` on numbers: a NaN differs from everything. -/
def PyNumber.eq : PyNumber → PyNumber → Bool
  | .finite m e, .finite n f => m * 2 ^ (e - min e f) == n * 2 ^ (f - min e f)
  | .infinite a, .infinite b => a == b
  | _, _ => false

/-- `json.loads` returns one object for every `NaN`. -/
def PyValue.isNan : PyValue → Bool
  | .float bits => floatNumber bits = .nan
  | _ => false

mutual

/-- `==` on values read back from the store. -/
def PyValue.eq : PyValue → PyValue → Bool
  | .none, .none => true
  | .str s, .str t => s == t
  | .list xs, .list ys => PyValue.eqItems xs ys
  | .tuple xs, .tuple ys => PyValue.eqItems xs ys
  | .dict xs, .dict ys => xs.length == ys.length && PyValue.eqEntries xs ys
  | .other s, .other t => s == t
  | v, w =>
      match v.number?, w.number? with
      | some m, some n => m.eq n
      | _, _ => false

/-- Sequences are equal element by element, where an object is equal to
itself, a NaN too. -/
def PyValue.eqItems : List PyValue → List PyValue → Bool
  | [], [] => true
  | x :: xs, y :: ys =>
      (x.isNan && y.isNan || PyValue.eq x y) && PyValue.eqItems xs ys
  | _, _ => false

/-- Dictionaries are equal when every entry has an equal one, in the same
sense. -/
def PyValue.eqEntries : List (String × PyValue) → List (String × PyValue) → Bool
  | [], _ => true
  | (k, x) :: xs, ys =>
      (match ys.lookup k with
        | some y => x.isNan && y.isNan || PyValue.eq x y
        | Option.none => false) && PyValue.eqEntries xs ys

end

/-- `bool(value)` -/
def PyValue.truthy : PyValue → Bool
  | .none => false
  | .bool b => b
  | .int n => n != 0
  | .float bits => !(floatNumber bits).eq (.finite 0 1075)
  | .str s => s != ""
  | .list xs => !xs.isEmpty
  | .tuple xs => !xs.isEmpty
  | .dict xs => !xs.isEmpty
  | .other _ => true

/-- `int(value)` -/
def pyInt (py : Python) : PyValue → Except StoreError Int
  | .int n => .ok n
  | .bool b => .ok (if b then 1 else 0)
  | value =>
      match py.int value with
      | some n => .ok n
      | none => .error (.typeError "int() argument is not a number")

/-! ### Python on plain values

`Python.basic` follows the standard library on ASCII texts and on values
without floats, which is what the concrete runs of this development use. -/

/-- The JSON escape of a character. -/
def jsonChar (c : Char) : List Char :=
  if c = '\x22' then ['\\', '\x22']
  else if c = '\\' then ['\\', '\\']
  else if c = '\n' then ['\\', 'n']
  else if c = '\r' then ['\\', 'r']
  else if c = '\t' then ['\\', 't']
  else [c]

def jsonString (s : String) : String :=
  "\x22" ++ String.ofList (s.toList.flatMap jsonChar) ++ "\x22"

/-- `", ".join(texts)` -/
def commaJoin : List String → String
  | [] => ""
  | [text] => text
  | text :: texts => text ++ ", " ++ commaJoin texts

mutual

/-- JSON text with sorted keys. -/
def jsonText : PyValue → Option String
  | .none => some "null"
  | .bool b => some (if b then "true" else "false")
  | .int n => some (toString n)
  | .str s => some (jsonString s)
  | .list xs => (jsonItems xs).map fun texts => "[" ++ commaJoin texts ++ "]"
  | .tuple xs => (jsonItems xs).map fun texts => "[" ++ commaJoin texts ++ "]"
  | .dict xs =>
      (jsonEntries xs).map fun entries =>
        "\x7b" ++ commaJoin ((entries.insertionSort fun p q => p.1 ≤ q.1).map fun p =>
          jsonString p.1 ++ ": " ++ p.2) ++ "\x7d"
  | .float _ => Option.none
  | .other _ => Option.none

def jsonItems : List PyValue → Option (List String)
  | [] => some []
  | x :: xs => do
      let text ← jsonText x
      let texts ← jsonItems xs
      return text :: texts

def jsonEntries : List (String × PyValue) → Option (List (String × String))
  | [] => some []
  | (key, x) :: xs => do
      let text ← jsonText x
      let entries ← jsonEntries xs
      return (key, text) :: entries

end

def Python.basic : Python where
  lower s := String.ofList (s.toList.map Char.toLower)
  isLower := Char.isLower
  isWord c := c.isAlphanum || c == '_'
  dumps := jsonText
  loads _ := none
  str value :=
    match value with
    | .none => "None"
    | .bool b => if b then "True" else "False"
    | .int n => toString n
    | .str s => s
    | .other text => text
    | value => (jsonText value).getD ""
  repr s := "\x27" ++ s ++ "\x27"
  int _ := none

/-- Two texts are equal values exactly when they are the same text. -/
@[simp] theorem PyValue.eq_str (s t : String) : PyValue.eq (.str s) (.str t) = (s == t) := by
  rw [PyValue.eq]

end MarkSdk
