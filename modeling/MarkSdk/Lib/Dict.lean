import MarkSdk.Lib.Table

/-!
Dictionaries that remember the order of insertion.

A dictionary is a table of pairs whose key is the first component. Assigning
to a key that is there keeps its place, a new key goes to the end, `pop`
takes a key out.
-/

namespace MarkSdk.Lib

abbrev Dict (κ β : Type) := Table (Prod.fst : κ × β → κ)

namespace Dict

variable {κ β γ : Type} [DecidableEq κ]

def keys (d : Dict κ β) : List κ := d.rows.map Prod.fst

def size (d : Dict κ β) : Nat := d.rows.length

def get? (d : Dict κ β) (k : κ) : Option β := (d.find? k).map Prod.snd

/-- `d[k] = v`. -/
def set (d : Dict κ β) (k : κ) (v : β) : Dict κ β := d.upsert (k, v)

/-- `d.pop(k, None)`. -/
def pop (d : Dict κ β) (k : κ) : Dict κ β := d.delete fun r => r.1 = k

/-- `d.update(pairs)`. -/
def updateAll (d : Dict κ β) (pairs : List (κ × β)) : Dict κ β :=
  pairs.foldl (fun d p => d.set p.1 p.2) d

/-- The same keys in the same places with other values. -/
def mapValues (d : Dict κ β) (f : β → γ) : Dict κ γ where
  rows := d.rows.map fun r => (r.1, f r.2)
  nodup := by
    rw [List.map_map]
    exact d.nodup

variable {d : Dict κ β} {k : κ} {v : β}

omit [DecidableEq κ] in
theorem nodup_keys (d : Dict κ β) : d.keys.Nodup := d.nodup

theorem get?_eq_some_iff : d.get? k = some v ↔ (k, v) ∈ d.rows := by
  rw [get?, Option.map_eq_some_iff]
  constructor
  · rintro ⟨r, hr, rfl⟩
    obtain ⟨hmem, rfl⟩ := Table.find?_eq_some_iff.mp hr
    exact hmem
  · intro hmem
    exact ⟨(k, v), Table.find?_eq_some_iff.mpr ⟨hmem, rfl⟩, rfl⟩

theorem get?_eq_none_iff : d.get? k = none ↔ k ∉ d.keys := by
  rw [get?, Option.map_eq_none_iff, Table.find?_eq_none_iff, keys, List.mem_map]
  constructor
  · rintro h ⟨r, hr, hk⟩
    exact h r hr hk
  · exact fun h r hr hk => h ⟨r, hr, hk⟩

theorem mem_keys_iff : k ∈ d.keys ↔ ∃ v, d.get? k = some v := by
  rw [← not_iff_not, ← get?_eq_none_iff, Option.eq_none_iff_forall_ne_some, not_exists]

omit [DecidableEq κ] in
theorem mem_keys_of_mem (h : (k, v) ∈ d.rows) : k ∈ d.keys := List.mem_map_of_mem h

theorem rows_set_of_mem (h : k ∈ d.keys) (v : β) :
    (d.set k v).rows = d.rows.map fun r => if r.1 = k then (k, v) else r := by
  rw [set, Table.rows_upsert]
  exact if_pos h

theorem rows_set_of_not_mem (h : k ∉ d.keys) (v : β) : (d.set k v).rows = d.rows ++ [(k, v)] := by
  rw [set, Table.rows_upsert]
  exact if_neg h

theorem keys_set_of_mem (h : k ∈ d.keys) (v : β) : (d.set k v).keys = d.keys := by
  rw [keys, rows_set_of_mem h, List.map_map]
  refine List.map_congr_left fun r _ => ?_
  rw [Function.comp_apply]
  split
  · rename_i hk
    exact hk.symm
  · rfl

theorem keys_set_of_not_mem (h : k ∉ d.keys) (v : β) : (d.set k v).keys = d.keys ++ [k] := by
  rw [keys, rows_set_of_not_mem h, List.map_append]
  rfl

theorem mem_keys_set {k' : κ} : k' ∈ (d.set k v).keys ↔ k' ∈ d.keys ∨ k' = k := by
  by_cases h : k ∈ d.keys
  · rw [keys_set_of_mem h]
    exact ⟨.inl, fun hk => hk.elim id fun hk => hk ▸ h⟩
  · rw [keys_set_of_not_mem h, List.mem_append, List.mem_singleton]

theorem get?_set (k' : κ) : (d.set k v).get? k' = if k' = k then some v else d.get? k' := by
  split
  · rename_i hk
    rw [hk, get?_eq_some_iff]
    have hmem : (k, v) ∈ (d.upsert (k, v)).rows := Table.mem_upsert_self (k, v) d
    exact hmem
  · rename_i hk
    ext w
    rw [get?_eq_some_iff, get?_eq_some_iff]
    constructor
    · intro hmem
      rcases Table.mem_upsert hmem with hold | hnew
      · exact hold
      · exact absurd (congrArg Prod.fst hnew) hk
    · exact fun hmem => Table.mem_upsert_of_ne hmem hk

theorem rows_pop (d : Dict κ β) (k : κ) : (d.pop k).rows = d.rows.filter fun r => r.1 ≠ k := by
  rw [pop, Table.rows_delete]
  refine List.filter_congr fun r _ => ?_
  rw [decide_not]

theorem keys_pop (d : Dict κ β) (k : κ) : (d.pop k).keys = d.keys.filter fun k' => k' ≠ k := by
  rw [keys, rows_pop, keys, List.filter_map]
  rfl

theorem pop_of_not_mem (h : k ∉ d.keys) : d.pop k = d := by
  refine Table.ext ?_
  rw [rows_pop, List.filter_eq_self]
  rintro ⟨k', v'⟩ hr
  have hne : k' ≠ k := fun hk => h (hk ▸ mem_keys_of_mem hr)
  simpa using hne

theorem get?_pop (k' : κ) : (d.pop k).get? k' = if k' = k then none else d.get? k' := by
  rw [get?, pop, Table.find?_delete_key]
  split <;> rfl

/-- The last write of a key counts. -/
theorem set_set (d : Dict κ β) (k : κ) (v w : β) : (d.set k v).set k w = d.set k w := by
  have hk : k ∈ (d.set k v).keys := mem_keys_set.mpr (.inr rfl)
  refine Table.ext ?_
  rw [rows_set_of_mem hk]
  by_cases hold : k ∈ d.keys
  · rw [rows_set_of_mem hold, rows_set_of_mem hold, List.map_map]
    refine List.map_congr_left fun r _ => ?_
    simp only [Function.comp_apply]
    by_cases hr : r.1 = k <;> simp [hr]
  · rw [rows_set_of_not_mem hold, rows_set_of_not_mem hold, List.map_append, List.map_singleton,
      if_pos rfl]
    congr 1
    refine (List.map_congr_left fun r hr => ?_).trans (List.map_id d.rows)
    refine if_neg fun heq => hold ?_
    rw [← heq]
    exact List.mem_map_of_mem hr

theorem rows_updateAll {pairs : List (κ × β)} (hfresh : ∀ p ∈ pairs, p.1 ∉ d.keys)
    (hnodup : (pairs.map Prod.fst).Nodup) : (d.updateAll pairs).rows = d.rows ++ pairs := by
  induction pairs generalizing d with
  | nil => exact (List.append_nil _).symm
  | cons p pairs ih =>
      have hp := hfresh p List.mem_cons_self
      rw [List.map_cons, List.nodup_cons] at hnodup
      have hrest : ∀ q ∈ pairs, q.1 ∉ (d.set p.1 p.2).keys := by
        intro q hq
        rw [mem_keys_set, not_or]
        refine ⟨hfresh q (List.mem_cons_of_mem p hq), fun heq => hnodup.1 ?_⟩
        rw [← heq]
        exact List.mem_map_of_mem hq
      show ((d.set p.1 p.2).updateAll pairs).rows = d.rows ++ p :: pairs
      rw [ih hrest hnodup.2, rows_set_of_not_mem hp, List.append_assoc]
      rfl

theorem mem_keys_updateAll {pairs : List (κ × β)} {k : κ} :
    k ∈ (d.updateAll pairs).keys ↔ k ∈ d.keys ∨ k ∈ pairs.map Prod.fst := by
  induction pairs generalizing d with
  | nil => simp [updateAll]
  | cons p pairs ih =>
      show k ∈ ((d.set p.1 p.2).updateAll pairs).keys ↔ _
      rw [ih, mem_keys_set, List.map_cons, List.mem_cons, or_assoc]

theorem get?_foldl_pop (ks : List κ) (k : κ) :
    (ks.foldl pop d).get? k = if k ∈ ks then none else d.get? k := by
  induction ks generalizing d with
  | nil => simp
  | cons k' ks ih =>
      rw [List.foldl_cons, ih, get?_pop]
      by_cases hk : k = k' <;> simp [hk]

/-- New keys with one value, the others as they were. -/
theorem get?_updateAll_const (ks : List κ) (v : β) (k : κ) :
    (d.updateAll (ks.map fun k => (k, v))).get? k = if k ∈ ks then some v else d.get? k := by
  induction ks generalizing d with
  | nil => simp [updateAll]
  | cons k' ks ih =>
      show ((d.set k' v).updateAll (ks.map fun k => (k, v))).get? k = _
      rw [ih, get?_set]
      by_cases hk : k = k' <;> simp [hk]

omit [DecidableEq κ] in
@[simp] theorem rows_mapValues (f : β → γ) :
    (d.mapValues f).rows = d.rows.map fun r => (r.1, f r.2) := rfl

omit [DecidableEq κ] in
@[simp] theorem keys_mapValues (f : β → γ) : (d.mapValues f).keys = d.keys := by
  rw [keys, rows_mapValues, List.map_map]
  rfl

omit [DecidableEq κ] in
theorem mapValues_mapValues {δ : Type} (f : β → γ) (g : γ → δ) :
    (d.mapValues f).mapValues g = d.mapValues fun v => g (f v) := by
  refine Table.ext ?_
  rw [rows_mapValues, rows_mapValues, rows_mapValues, List.map_map]
  rfl

theorem mapValues_set (f : β → γ) (k : κ) (v : β) :
    (d.set k v).mapValues f = (d.mapValues f).set k (f v) := by
  refine Table.ext ?_
  by_cases hk : k ∈ d.keys
  · have hk' : k ∈ (d.mapValues f).keys := by rwa [keys_mapValues]
    rw [rows_mapValues, rows_set_of_mem hk, rows_set_of_mem hk', rows_mapValues, List.map_map,
      List.map_map]
    refine List.map_congr_left fun r _ => ?_
    simp only [Function.comp_apply]
    split <;> rfl
  · have hk' : k ∉ (d.mapValues f).keys := by rwa [keys_mapValues]
    rw [rows_mapValues, rows_set_of_not_mem hk, rows_set_of_not_mem hk', List.map_append]
    rfl

theorem mapValues_pop (f : β → γ) (k : κ) : (d.pop k).mapValues f = (d.mapValues f).pop k := by
  refine Table.ext ?_
  rw [rows_mapValues, rows_pop, rows_pop, rows_mapValues, List.filter_map]
  rfl

theorem mem_rows_set {r : κ × β} (h : r ∈ (d.set k v).rows) : r ∈ d.rows ∨ r = (k, v) :=
  Table.mem_upsert h

theorem mem_rows_updateAll {pairs : List (κ × β)} {r : κ × β} (h : r ∈ (d.updateAll pairs).rows) :
    r ∈ d.rows ∨ r ∈ pairs := by
  induction pairs generalizing d with
  | nil => exact .inl h
  | cons p pairs ih =>
      obtain hset | hpairs := @ih (d.set p.1 p.2) h
      · obtain hold | rfl := mem_rows_set hset
        · exact .inl hold
        · exact .inr List.mem_cons_self
      · exact .inr (List.mem_cons_of_mem p hpairs)

theorem mem_rows_pop {r : κ × β} (h : r ∈ (d.pop k).rows) : r ∈ d.rows := by
  rw [rows_pop] at h
  exact (List.mem_filter.mp h).1

theorem get?_mapValues (f : β → γ) (k : κ) : (d.mapValues f).get? k = (d.get? k).map f := by
  ext w
  rw [get?_eq_some_iff, mapValues, List.mem_map, Option.map_eq_some_iff]
  constructor
  · rintro ⟨⟨k', v⟩, hmem, heq⟩
    cases heq
    exact ⟨v, get?_eq_some_iff.mpr hmem, rfl⟩
  · rintro ⟨v, hv, rfl⟩
    exact ⟨(k, v), get?_eq_some_iff.mp hv, rfl⟩

theorem size_set_pos : 0 < (d.set k v).size := by
  have hmem : k ∈ (d.set k v).keys := mem_keys_set.mpr (.inr rfl)
  rw [keys] at hmem
  obtain ⟨r, hr, -⟩ := List.mem_map.mp hmem
  exact List.length_pos_of_mem hr

/-- What `zip` takes apart, `updateAll` puts together. -/
theorem updateAll_zip_rows (d : Dict κ β) :
    updateAll (Table.empty : Dict κ β) (d.keys.zip (d.rows.map Prod.snd)) = d := by
  have hzip : d.keys.zip (d.rows.map Prod.snd) = d.rows := by
    rw [keys, List.zip_map']
    exact List.map_id _
  have hrows : (updateAll (Table.empty : Dict κ β) d.rows).rows = [] ++ d.rows :=
    rows_updateAll (fun _ _ => List.not_mem_nil) d.nodup
  rw [hzip]
  exact Table.ext (hrows.trans (List.nil_append _))

end Dict

end MarkSdk.Lib
