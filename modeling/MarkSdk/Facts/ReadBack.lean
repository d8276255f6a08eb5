import MarkSdk.Facts.Undo

/-!
A JSON codec that writes and reads the texts, and the objects of a table.

It round-trips when its objects are written as texts of the table
(`Canonical.roundTrips`). Theorems that ask for a codec are applied at it.
-/

namespace MarkSdk

open Lib

/-- `json.loads` returns dictionaries, lists, texts, numbers, booleans and
`None` only. -/
structure Python.LoadsJson (py : Python) : Prop where
  loads_json : ∀ text s, py.loads text ≠ some (.other s)

theorem decodeValue_ne_other {py : Python} (hjson : py.LoadsJson) (stored s : String) :
    decodeValue py stored ≠ .other s := by
  unfold decodeValue
  split
  · split
    · rename_i value hloads
      rintro rfl
      exact hjson.loads_json _ s hloads
    · simp
  · simp

/-- Python, as far as it writes and reads texts and the objects of a table. -/
def Python.reading (table : List (String × Metadata)) : Python :=
  { Python.basic with
    dumps := fun value =>
      match value with
      | .str s => some (jsonString s)
      | value => (jsonText value).filter fun text =>
          table.any fun e => e.1 = text && jsonText (.dict e.2) = some text
    loads := fun text =>
      match table.lookup text with
      | some record => some (.dict record)
      | none =>
          match text.toList with
          | '\x22' :: rest => some (.str (String.ofList (jsonUnescape rest)))
          | _ => none }

/-- The objects of a table are written as texts of the table. -/
structure Canonical (table : List (String × Metadata)) : Prop where
  nodup : (table.map Prod.fst).Nodup
  braces : ∀ e ∈ table, e.1.toList.head? = some '\x7b'
  written : ∀ e ∈ table, ∃ e' ∈ table,
    jsonText (.dict e.2) = some e'.1 ∧ jsonText (.dict e'.2) = some e'.1

section Reading

variable {table : List (String × Metadata)}

theorem Canonical.lookup (h : Canonical table) {e : String × Metadata} (he : e ∈ table) :
    table.lookup e.1 = some e.2 :=
  Table.lookup_eq_some_of_nodup h.nodup he

theorem Canonical.loads_jsonString (h : Canonical table) (s : String) :
    (Python.reading table).loads (jsonString s) = some (.str s) := by
  have hnone : table.lookup (jsonString s) = none := by
    rw [List.lookup_eq_none_iff]
    intro e he
    have hhead := h.braces e he
    have hne : jsonString s ≠ e.1 := by
      intro heq
      rw [← heq, toList_jsonString] at hhead
      cases hhead
    simpa using hne
  simp only [Python.reading, hnone, toList_jsonString, jsonUnescape_jsonChar, String.ofList_toList]

theorem Canonical.dumps_dict {e : String × Metadata} (he : e ∈ table)
    (hwritten : jsonText (.dict e.2) = some e.1) :
    (Python.reading table).dumps (.dict e.2) = some e.1 := by
  show (jsonText (.dict e.2)).filter _ = _
  rw [hwritten, Option.filter_some, if_pos]
  exact List.any_eq_true.mpr ⟨e, he, by simp [hwritten]⟩

theorem Canonical.roundTrips (h : Canonical table) : (Python.reading table).RoundTrips where
  dumps_str s := rfl
  dumps_loads text value hloads := by
    simp only [Python.reading] at hloads
    split at hloads
    · rename_i record hlookup
      obtain rfl := Option.some.inj hloads
      obtain ⟨before, after, rfl, -⟩ := List.lookup_eq_some_iff.mp hlookup
      obtain ⟨e', he', htext, hcanonical⟩ := h.written (text, record) (by simp)
      show ((jsonText (.dict record)).filter _).isSome = true
      rw [htext, Option.filter_some, if_pos]
      · rfl
      · exact List.any_eq_true.mpr ⟨e', he', by simp [hcanonical]⟩
    · split at hloads
      · cases hloads
        rfl
      · cases hloads
  loads_dumps value text hdumps := by
    by_cases hstr : ∃ s, value = .str s
    · obtain ⟨s, rfl⟩ := hstr
      obtain rfl : jsonString s = text := Option.some.inj hdumps
      exact ⟨.str s, h.loads_jsonString s, rfl, fun s' => Iff.rfl, by simp⟩
    · have hfilter : (jsonText value).filter (fun text =>
          table.any fun e => e.1 = text && jsonText (.dict e.2) = some text) = some text := by
        cases value with
        | str s => exact absurd ⟨s, rfl⟩ hstr
        | _ => exact hdumps
      obtain ⟨-, hany⟩ := Option.filter_eq_some_iff.mp hfilter
      obtain ⟨e, he, heq⟩ := List.any_eq_true.mp hany
      simp only [Bool.and_eq_true, decide_eq_true_eq] at heq
      obtain ⟨rfl, hcanonical⟩ := heq
      refine ⟨.dict e.2, ?_, Canonical.dumps_dict he hcanonical, ?_, by simp⟩
      · simp only [Python.reading, h.lookup he]
      · intro s
        constructor
        · intro hs
          cases hs
        · exact fun hs => absurd ⟨s, hs⟩ hstr

theorem loadsJson_reading : (Python.reading table).LoadsJson where
  loads_json text s h := by
    simp only [Python.reading] at h
    split at h
    · cases h
    · split at h <;> cases h

end Reading

end MarkSdk
