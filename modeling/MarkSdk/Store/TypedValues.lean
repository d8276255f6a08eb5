import MarkSdk.Store.Documents

/-!
Typed values: `encode_value` and `decode_value`.

A text is stored as it is, and everything else as a marker with the JSON text
behind it; a text that starts with the marker is stored like everything else.
What is read back is the value with lists for tuples and its dictionaries in
the order of their keys (`PyValue.readBack`), and two values are stored as one
text just when they are read back as one value. A value with a lone surrogate
in one of its texts has no UTF-8 encoding and is refused (`typed_round_trip`).
-/

namespace MarkSdk

theorem isTyped_append (text : String) : isTyped (typedMarker ++ text) = true := by
  rw [isTyped, List.isPrefixOf_iff_prefix, String.toList_append]
  exact List.prefix_append _ _

theorem drop_typedMarker (text : String) :
    String.ofList ((typedMarker ++ text).toList.drop typedMarker.length) = text := by
  rw [String.toList_append, ← String.length_toList, List.drop_left, String.ofList_toList]

/-! ### JSON values -/

mutual

/-- The values that JSON has, with lists or tuples for arrays. -/
def PyValue.IsJson : PyValue → Prop
  | .none | .bool _ | .int _ | .str _ => True
  | .float bits => ∃ mantissa exponent, floatNumber bits = .finite mantissa exponent
  | .list xs | .tuple xs => PyValue.AreJson xs
  | .dict xs => (xs.map Prod.fst).Nodup ∧ PyValue.HaveJson xs
  | .other _ => False

def PyValue.AreJson : List PyValue → Prop
  | [] => True
  | x :: xs => x.IsJson ∧ PyValue.AreJson xs

def PyValue.HaveJson : List (String × PyValue) → Prop
  | [] => True
  | (_, x) :: xs => x.IsJson ∧ PyValue.HaveJson xs

end

mutual

/-- What `json.loads` makes of a text written with `sort_keys=True`. -/
def PyValue.readBack : PyValue → PyValue
  | .list xs => .list (PyValue.readItems xs)
  | .tuple xs => .list (PyValue.readItems xs)
  | .dict xs => .dict ((PyValue.readEntries xs).insertionSort fun p q => p.1 ≤ q.1)
  | value => value

def PyValue.readItems : List PyValue → List PyValue
  | [] => []
  | x :: xs => x.readBack :: PyValue.readItems xs

def PyValue.readEntries : List (String × PyValue) → List (String × PyValue)
  | [] => []
  | (key, x) :: xs => (key, x.readBack) :: PyValue.readEntries xs

end

/-- `json.dumps` with sorted keys and `json.loads` are inverse at the value. -/
def Python.InverseAt (py : Python) (value : PyValue) : Prop :=
  ∃ text, py.dumps value = some text ∧ py.loads text = some value.readBack ∧
    py.dumps value.readBack = some text

section Equality

/-- A finite number is equal to itself. -/
theorem eq_number_self {v : PyValue} {mantissa : Int} {exponent : Nat}
    (h : v.number? = some (.finite mantissa exponent)) : PyValue.eq v v = true := by
  cases v with
  | bool b => cases b <;> rfl
  | int n => simp [PyValue.eq, PyValue.number?, PyNumber.eq]
  | float bits =>
      have hfinite : floatNumber bits = .finite mantissa exponent := Option.some.inj h
      simp [PyValue.eq, PyValue.number?, hfinite, PyNumber.eq]
  | _ => cases h

theorem eqEntries_iff (xs ys : List (String × PyValue)) :
    PyValue.eqEntries xs ys = true ↔
      ∀ entry ∈ xs, ∃ y, ys.lookup entry.1 = some y ∧
        (entry.2.isNan && y.isNan || PyValue.eq entry.2 y) = true := by
  induction xs with
  | nil => simp [PyValue.eqEntries]
  | cons entry xs ih =>
      obtain ⟨key, x⟩ := entry
      rw [PyValue.eqEntries, Bool.and_eq_true, ih, List.forall_mem_cons]
      cases ys.lookup key with
      | none => simp
      | some y => simp

theorem readEntries_eq (xs : List (String × PyValue)) :
    PyValue.readEntries xs = xs.map fun entry => (entry.1, entry.2.readBack) := by
  induction xs with
  | nil => rfl
  | cons entry xs ih => rw [PyValue.readEntries, ih, List.map_cons]

theorem jsonEntries_eq (xs : List (String × PyValue)) :
    PyValue.jsonEntries xs = xs.map fun entry => (entry.1, entry.2.jsonOf) := by
  induction xs with
  | nil => rfl
  | cons entry xs ih => rw [PyValue.jsonEntries, ih, List.map_cons]

mutual

/-- What is read back is equal to the value with lists for tuples. -/
theorem eq_readBack_jsonOf : ∀ v : PyValue, v.IsJson → PyValue.eq v.readBack v.jsonOf = true
  | .none, _ => by rw [PyValue.readBack, PyValue.jsonOf, PyValue.eq] <;> simp
  | .bool b, _ => eq_number_self rfl
  | .int n, _ => eq_number_self rfl
  | .float bits, ⟨mantissa, exponent, hfinite⟩ => by
      have hnan : floatNumber bits ≠ .nan := by
        rw [hfinite]
        exact PyNumber.noConfusion
      rw [PyValue.jsonOf, if_neg hnan]
      exact eq_number_self (congrArg some hfinite)
  | .str s, _ => by rw [PyValue.readBack, PyValue.jsonOf, PyValue.eq_str, beq_self_eq_true] <;> simp
  | .list xs, h => by
      rw [PyValue.readBack, PyValue.jsonOf, PyValue.eq]
      exact eq_readItems_jsonItems xs h
  | .tuple xs, h => by
      rw [PyValue.readBack, PyValue.jsonOf, PyValue.eq]
      exact eq_readItems_jsonItems xs h
  | .dict xs, ⟨hnodup, h⟩ => by
      rw [PyValue.readBack, PyValue.jsonOf, PyValue.eq, Bool.and_eq_true, beq_iff_eq,
        List.length_insertionSort, eqEntries_iff]
      constructor
      · rw [readEntries_eq, jsonEntries_eq, List.length_map, List.length_map]
      · intro entry hentry
        rw [List.mem_insertionSort, readEntries_eq] at hentry
        obtain ⟨⟨key, x⟩, hx, rfl⟩ := List.mem_map.mp hentry
        refine ⟨x.jsonOf, ?_, Bool.or_eq_true_iff.mpr (.inr (eq_entries_jsonOf xs h (key, x) hx))⟩
        rw [lookup_jsonEntries, Lib.Table.lookup_eq_some_of_nodup hnodup hx]
        rfl

theorem eq_readItems_jsonItems : ∀ xs : List PyValue, PyValue.AreJson xs →
    PyValue.eqItems (PyValue.readItems xs) (PyValue.jsonItems xs) = true
  | [], _ => rfl
  | x :: xs, ⟨hx, hxs⟩ => by
      rw [PyValue.readItems, PyValue.jsonItems, PyValue.eqItems, Bool.and_eq_true]
      exact ⟨Bool.or_eq_true_iff.mpr (.inr (eq_readBack_jsonOf x hx)),
        eq_readItems_jsonItems xs hxs⟩

theorem eq_entries_jsonOf : ∀ xs : List (String × PyValue), PyValue.HaveJson xs →
    ∀ entry ∈ xs, PyValue.eq entry.2.readBack entry.2.jsonOf = true
  | [], _ => fun entry hentry => absurd hentry List.not_mem_nil
  | (key, x) :: xs, ⟨hx, hxs⟩ => by
      intro entry hentry
      rcases List.mem_cons.mp hentry with rfl | hentry
      · exact eq_readBack_jsonOf x hx
      · exact eq_entries_jsonOf xs hxs entry hentry

end

end Equality

/-! ### Texts with lone surrogates -/

abbrev CodePoint := Fin 0x110000

/-- `c.encode("utf-8")` raises a `UnicodeEncodeError`. -/
def CodePoint.isSurrogate (c : CodePoint) : Bool := 0xD800 ≤ c.val && c.val ≤ 0xDFFF

/-- The character of a code point, and U+FFFD for a surrogate. -/
def CodePoint.char (c : CodePoint) : Char :=
  if c.isSurrogate then '\uFFFD' else Char.ofNat c.val

def CodePoint.ofChar (c : Char) : CodePoint := Fin.ofNat 0x110000 c.toNat

/-- A Python value as it comes in: its texts are any code points. -/
inductive TextValue : Type
  | none
  | bool (b : Bool)
  | int (n : Int)
  | float (bits : BitVec 64)
  | str (text : List CodePoint)
  | list (items : List TextValue)
  | tuple (items : List TextValue)
  | dict (items : List (List CodePoint × TextValue))
  | other (text : List CodePoint)

def textOf (codes : List CodePoint) : String := String.ofList (codes.map CodePoint.char)

def codesOf (text : String) : List CodePoint := text.toList.map CodePoint.ofChar

mutual

/-- The value with U+FFFD for every surrogate. -/
def TextValue.value : TextValue → PyValue
  | .none => .none
  | .bool b => .bool b
  | .int n => .int n
  | .float bits => .float bits
  | .str text => .str (textOf text)
  | .list xs => .list (TextValue.values xs)
  | .tuple xs => .tuple (TextValue.values xs)
  | .dict xs => .dict (TextValue.valueEntries xs)
  | .other text => .other (textOf text)

def TextValue.values : List TextValue → List PyValue
  | [] => []
  | x :: xs => x.value :: TextValue.values xs

def TextValue.valueEntries : List (List CodePoint × TextValue) → List (String × PyValue)
  | [] => []
  | (key, x) :: xs => (textOf key, x.value) :: TextValue.valueEntries xs

end

mutual

/-- No text of the value has a surrogate. -/
def TextValue.isUnicode : TextValue → Bool
  | .str text | .other text => text.all fun c => !c.isSurrogate
  | .list xs | .tuple xs => TextValue.areUnicode xs
  | .dict xs => TextValue.haveUnicode xs
  | _ => true

def TextValue.areUnicode : List TextValue → Bool
  | [] => true
  | x :: xs => x.isUnicode && TextValue.areUnicode xs

def TextValue.haveUnicode : List (List CodePoint × TextValue) → Bool
  | [] => true
  | (key, x) :: xs =>
      (key.all fun c => !c.isSurrogate) && x.isUnicode && TextValue.haveUnicode xs

end

mutual

/-- A value whose texts are valid Unicode. -/
def TextValue.of : PyValue → TextValue
  | .none => .none
  | .bool b => .bool b
  | .int n => .int n
  | .float bits => .float bits
  | .str text => .str (codesOf text)
  | .list xs => .list (TextValue.ofItems xs)
  | .tuple xs => .tuple (TextValue.ofItems xs)
  | .dict xs => .dict (TextValue.ofEntries xs)
  | .other text => .other (codesOf text)

def TextValue.ofItems : List PyValue → List TextValue
  | [] => []
  | x :: xs => .of x :: TextValue.ofItems xs

def TextValue.ofEntries : List (String × PyValue) → List (List CodePoint × TextValue)
  | [] => []
  | (key, x) :: xs => (codesOf key, .of x) :: TextValue.ofEntries xs

end

/-- `encode_value` of any value. The text is the one of the value without
surrogates, for with one it is not returned: `text.encode("utf-8")` raises. -/
def encodeText (py : Python) (v : TextValue) : Except StoreError String := do
  let text ← encodeValue py v.value
  if v.isUnicode then return text
  else .error (.invalidMemory "fact value is not valid Unicode text (lone surrogate)"
    "invalid_unicode")

section Texts

theorem CodePoint.val_ofChar (c : Char) : (CodePoint.ofChar c).val = c.toNat := by
  refine Nat.mod_eq_of_lt ?_
  rcases c.valid with hlow | ⟨-, hhigh⟩
  · exact Nat.lt_trans hlow (by decide)
  · exact hhigh

theorem CodePoint.isSurrogate_ofChar (c : Char) : (CodePoint.ofChar c).isSurrogate = false := by
  have hvalid : c.toNat < 0xD800 ∨ 0xDFFF < c.toNat := by
    rcases c.valid with hlow | ⟨hhigh, -⟩
    · exact .inl hlow
    · exact .inr hhigh
  simp only [CodePoint.isSurrogate, CodePoint.val_ofChar, Bool.and_eq_false_iff,
    decide_eq_false_iff_not]
  omega

theorem CodePoint.char_ofChar (c : Char) : (CodePoint.ofChar c).char = c := by
  rw [CodePoint.char, CodePoint.isSurrogate_ofChar, if_neg Bool.false_ne_true,
    CodePoint.val_ofChar, Char.ofNat_toNat]

theorem CodePoint.ofChar_char {c : CodePoint} (h : c.isSurrogate = false) :
    CodePoint.ofChar c.char = c := by
  have hvalid : c.val.isValidChar := by
    have hlt := c.isLt
    simp only [CodePoint.isSurrogate, Bool.and_eq_false_iff, decide_eq_false_iff_not] at h
    show c.val < 0xD800 ∨ 0xDFFF < c.val ∧ c.val < 0x110000
    omega
  apply Fin.ext
  rw [CodePoint.val_ofChar, CodePoint.char, if_neg (by simp [h]), Char.ofNat, dif_pos hvalid]
  rfl

theorem textOf_codesOf (text : String) : textOf (codesOf text) = text := by
  simp only [textOf, codesOf, List.map_map]
  rw [show CodePoint.char ∘ CodePoint.ofChar = id from funext CodePoint.char_ofChar, List.map_id,
    String.ofList_toList]

theorem isUnicode_codesOf (text : String) :
    ((codesOf text).all fun c => !c.isSurrogate) = true := by
  simp [codesOf, CodePoint.isSurrogate_ofChar]

theorem codesOf_textOf {codes : List CodePoint} (h : (codes.all fun c => !c.isSurrogate) = true) :
    codesOf (textOf codes) = codes := by
  rw [List.all_eq_true] at h
  rw [codesOf, textOf, String.toList_ofList, List.map_map]
  refine (List.map_congr_left fun c hc => ?_).trans (List.map_id codes)
  exact CodePoint.ofChar_char (by simpa using h c hc)

mutual

theorem value_of : ∀ v : PyValue, (TextValue.of v).value = v ∧ (TextValue.of v).isUnicode = true
  | .none | .bool _ | .int _ | .float _ => ⟨rfl, rfl⟩
  | .str text | .other text => by
      rw [TextValue.of, TextValue.value, TextValue.isUnicode, textOf_codesOf]
      exact ⟨rfl, isUnicode_codesOf text⟩
  | .list xs | .tuple xs => by
      rw [TextValue.of, TextValue.value, TextValue.isUnicode, (values_of xs).1]
      exact ⟨rfl, (values_of xs).2⟩
  | .dict xs => by
      rw [TextValue.of, TextValue.value, TextValue.isUnicode, (valueEntries_of xs).1]
      exact ⟨rfl, (valueEntries_of xs).2⟩

theorem values_of : ∀ xs : List PyValue,
    TextValue.values (TextValue.ofItems xs) = xs ∧
      TextValue.areUnicode (TextValue.ofItems xs) = true
  | [] => ⟨rfl, rfl⟩
  | x :: xs => by
      rw [TextValue.ofItems, TextValue.values, TextValue.areUnicode, (value_of x).1,
        (value_of x).2, (values_of xs).1, (values_of xs).2]
      exact ⟨rfl, rfl⟩

theorem valueEntries_of : ∀ xs : List (String × PyValue),
    TextValue.valueEntries (TextValue.ofEntries xs) = xs ∧
      TextValue.haveUnicode (TextValue.ofEntries xs) = true
  | [] => ⟨rfl, rfl⟩
  | (key, x) :: xs => by
      rw [TextValue.ofEntries, TextValue.valueEntries, TextValue.haveUnicode, (value_of x).1,
        (value_of x).2, (valueEntries_of xs).1, (valueEntries_of xs).2, textOf_codesOf,
        isUnicode_codesOf]
      exact ⟨rfl, rfl⟩

end

mutual

/-- A value without surrogates is one of valid texts. -/
theorem of_value : ∀ v : TextValue, v.isUnicode = true → TextValue.of v.value = v
  | .none, _ | .bool _, _ | .int _, _ | .float _, _ => rfl
  | .str text, h | .other text, h => by
      rw [TextValue.isUnicode] at h
      rw [TextValue.value, TextValue.of, codesOf_textOf h]
  | .list xs, h | .tuple xs, h => by
      rw [TextValue.isUnicode] at h
      rw [TextValue.value, TextValue.of, of_values xs h]
  | .dict xs, h => by
      rw [TextValue.isUnicode] at h
      rw [TextValue.value, TextValue.of, of_valueEntries xs h]

theorem of_values : ∀ xs : List TextValue, TextValue.areUnicode xs = true →
    TextValue.ofItems (TextValue.values xs) = xs
  | [], _ => rfl
  | x :: xs, h => by
      rw [TextValue.areUnicode, Bool.and_eq_true] at h
      rw [TextValue.values, TextValue.ofItems, of_value x h.1, of_values xs h.2]

theorem of_valueEntries : ∀ xs : List (List CodePoint × TextValue),
    TextValue.haveUnicode xs = true → TextValue.ofEntries (TextValue.valueEntries xs) = xs
  | [], _ => rfl
  | (key, x) :: xs, h => by
      rw [TextValue.haveUnicode, Bool.and_eq_true, Bool.and_eq_true] at h
      rw [TextValue.valueEntries, TextValue.ofEntries, codesOf_textOf h.1.1, of_value x h.1.2,
        of_valueEntries xs h.2]

end

end Texts

/-! ### Encoding -/

section Encoding

variable {py : Python} {v w : PyValue}

theorem decodeValue_typed {text : String} {value : PyValue} (h : py.loads text = some value) :
    decodeValue py (typedMarker ++ text) = value := by
  rw [decodeValue, if_pos (isTyped_append text), drop_typedMarker, h]

theorem decodeValue_plain {text : String} (h : isTyped text = false) :
    decodeValue py text = .str text := by
  rw [decodeValue, if_neg (by simp [h])]

/-- A text without the marker is stored as it is, everything else as its JSON
text behind the marker. -/
theorem encodeValue_cases (hv : v.IsJson) (hpy : py.InverseAt v) :
    (∃ s, v = .str s ∧ isTyped s = false ∧ encodeValue py v = .ok s) ∨
      ∃ text, py.dumps v = some text ∧ encodeValue py v = .ok (typedMarker ++ text) ∧
        ∀ s, v = .str s → isTyped s = true := by
  obtain ⟨text, hdumps, -, -⟩ := hpy
  cases v with
  | str s =>
      cases htyped : isTyped s with
      | false => exact .inl ⟨s, rfl, htyped, encodeValue_str py htyped⟩
      | true =>
          refine .inr ⟨text, hdumps, ?_, fun s' hs' => ?_⟩
          · simp [encodeValue, htyped, hdumps]
          · cases hs'
            exact htyped
  | other text => exact hv.elim
  | _ => exact .inr ⟨text, hdumps, by simp [encodeValue, hdumps], by simp⟩

theorem encodeText_of (py : Python) (v : PyValue) :
    encodeText py (.of v) = encodeValue py v := by
  unfold encodeText
  rw [(value_of v).1, (value_of v).2]
  cases encodeValue py v <;> rfl

/-- A surrogate is found when the text is there. -/
theorem encodeText_error {u : TextValue} (hunicode : u.isUnicode = false)
    (hdumps : (py.dumps u.value).isSome = true) :
    encodeText py u = .error (.invalidMemory
      "fact value is not valid Unicode text (lone surrogate)" "invalid_unicode") := by
  obtain ⟨text, htext⟩ : ∃ text, encodeValue py u.value = .ok text := by
    obtain ⟨json, hjson⟩ := Option.isSome_iff_exists.mp hdumps
    unfold encodeValue
    simp only [hjson]
    cases u.value with
    | str s => by_cases h : isTyped s = true <;> simp [h]
    | _ => exact ⟨_, rfl⟩
  unfold encodeText
  rw [htext, hunicode]
  rfl

/-- Values are read back as they were stored. -/
theorem decode_encodeValue (hv : v.IsJson) (hpy : py.InverseAt v) :
    ∃ text, encodeValue py v = .ok text ∧ decodeValue py text = v.readBack := by
  rcases encodeValue_cases hv hpy with ⟨s, rfl, hplain, hencode⟩ | ⟨text, hdumps, hencode, -⟩
  · exact ⟨s, hencode, decodeValue_plain hplain⟩
  · obtain ⟨text', hdumps', hloads, -⟩ := hpy
    obtain rfl := Option.some.inj (hdumps.symm.trans hdumps')
    exact ⟨typedMarker ++ text, hencode, decodeValue_typed hloads⟩

theorem readBack_eq_str {s : String} (h : v.readBack = .str s) : v = .str s := by
  cases v <;> simp_all [PyValue.readBack]

/-- Values that are read back alike are stored alike. -/
theorem encodeValue_congr (hv : v.IsJson) (hw : w.IsJson) (hpy : py.InverseAt v)
    (hpy' : py.InverseAt w) (h : v.readBack = w.readBack) : encodeValue py v = encodeValue py w := by
  rcases encodeValue_cases hv hpy with ⟨s, rfl, -, -⟩ | ⟨text, hdumps, hencode, htyped⟩
  · rw [readBack_eq_str h.symm]
  · rcases encodeValue_cases hw hpy' with ⟨s, rfl, -, -⟩ | ⟨text', hdumps', hencode', -⟩
    · rw [readBack_eq_str h]
    · obtain ⟨_, hv', -, hback⟩ := hpy
      obtain ⟨_, hw', -, hback'⟩ := hpy'
      obtain rfl := Option.some.inj (hdumps.symm.trans hv')
      obtain rfl := Option.some.inj (hdumps'.symm.trans hw')
      rw [h, hback'] at hback
      rw [hencode, hencode', Option.some.inj hback]

/-- A value comes back as itself, with lists for tuples and its keys in order,
and the stored texts are equal just when what comes back is. What is no such
value is refused for its lone surrogates. -/
theorem typed_round_trip (hv : v.IsJson) (hw : w.IsJson) (hpy : py.InverseAt v)
    (hpy' : py.InverseAt w) :
    ((∃ text, encodeText py (.of v) = .ok text ∧ decodeValue py text = v.readBack) ∧
      PyValue.eq v.readBack v.jsonOf = true ∧
      (encodeText py (.of v) = encodeText py (.of w) ↔ v.readBack = w.readBack)) ∧
    ∀ u : TextValue, (∀ value, u ≠ .of value) → (py.dumps u.value).isSome = true →
      encodeText py u = .error (.invalidMemory
        "fact value is not valid Unicode text (lone surrogate)" "invalid_unicode") := by
  rw [encodeText_of, encodeText_of]
  refine ⟨⟨decode_encodeValue hv hpy, eq_readBack_jsonOf v hv, fun h => ?_,
    encodeValue_congr hv hw hpy hpy'⟩, fun u hu hdumps => ?_⟩
  · obtain ⟨text, hencode, hdecode⟩ := decode_encodeValue hv hpy
    obtain ⟨text', hencode', hdecode'⟩ := decode_encodeValue hw hpy'
    rw [hencode, hencode', Except.ok.injEq] at h
    rw [← hdecode, h, hdecode']
  · have hunicode : u.isUnicode = false := by
      by_contra hall
      exact hu u.value (of_value u (by simpa using hall)).symm
    exact encodeText_error hunicode hdumps

end Encoding

/-- Python, with `json.loads` of three texts. -/
def Python.pairs : Python :=
  { Python.basic with
    loads := fun text =>
      if text = "[1, 2]" then some (.list [.int 1, .int 2])
      else if text = "\x7b\x22a\x22: null, \x22b\x22: 1\x7d" then
        some (.dict [("a", .none), ("b", .int 1)])
      else if text = "\x22\uFFFD\x22" then some (.str "\uFFFD")
      else none }

/-- A tuple comes back as a list. -/
theorem typed_round_trip_pair :
    (∃ text, encodeText .pairs (.of (.tuple [.int 1, .int 2])) = .ok text ∧
      decodeValue .pairs text = .list [.int 1, .int 2]) ∧
      PyValue.eq (.list [.int 1, .int 2]) (.list [.int 1, .int 2]) = true ∧
      (encodeText .pairs (.of (.tuple [.int 1, .int 2])) =
          encodeText .pairs (.of (.dict [("b", .int 1), ("a", .none)])) ↔
        PyValue.list [.int 1, .int 2] = .dict [("a", .none), ("b", .int 1)]) := by
  have hpair : PyValue.IsJson (.tuple [.int 1, .int 2]) := ⟨trivial, trivial, trivial⟩
  have hdict : PyValue.IsJson (.dict [("b", .int 1), ("a", .none)]) :=
    ⟨by decide, trivial, trivial, trivial⟩
  have hback : (PyValue.dict [("b", .int 1), ("a", .none)]).readBack =
      .dict [("a", .none), ("b", .int 1)] := by
    simp [PyValue.readBack, PyValue.readEntries]
  have hdumps : Python.pairs.dumps (.dict [("b", .int 1), ("a", .none)]) =
      some "\x7b\x22a\x22: null, \x22b\x22: 1\x7d" := by decide +kernel
  have hsorted : Python.pairs.dumps (.dict [("a", .none), ("b", .int 1)]) =
      some "\x7b\x22a\x22: null, \x22b\x22: 1\x7d" := by decide +kernel
  have hround := (typed_round_trip hpair hdict ⟨"[1, 2]", by decide +kernel, rfl,
    by decide +kernel⟩ ⟨_, hdumps, by rw [hback]; rfl, by rw [hback]; exact hsorted⟩).1
  rw [hback] at hround
  exact hround

/-- The text of the lone surrogate U+D800 is not stored. -/
theorem lone_surrogate_refused :
    ¬ ∀ (py : Python) (u : TextValue), u.value.IsJson → py.InverseAt u.value →
      ∃ text, encodeText py u = .ok text ∧ decodeValue py text = u.value.readBack := by
  intro h
  obtain ⟨text, hencode, -⟩ := h .pairs (.str [0xD800]) trivial
    ⟨"\x22\uFFFD\x22", by decide +kernel, rfl, by decide +kernel⟩
  have hrefused : encodeText .pairs (.str [0xD800]) = .error (.invalidMemory
      "fact value is not valid Unicode text (lone surrogate)" "invalid_unicode") := by
    decide +kernel
  rw [hrefused] at hencode
  cases hencode

end MarkSdk
