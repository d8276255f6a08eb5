import MarkSdk.Lib.Dict

/-!
Tables with a rowid beside the primary key, and indexes that mirror them.

A row that is replaced keeps its rowid. A new row takes the number behind the
largest one in use, so the number of a deleted row may come back. An index
that has an entry for a row, or none, under the rowid of the row mirrors the
table (`Mirrors`); there is one rule for each statement that changes the table.
-/

namespace MarkSdk.Lib

/-- Rows by their rowids, at most one for each key. -/
structure RowidTable {ρ ι : Type} (key : ρ → ι) where
  rows : Dict Nat ρ
  nodup : (rows.rows.map fun r => key r.2).Nodup

namespace RowidTable

variable {ρ ι β : Type} {key : ρ → ι}

def empty : RowidTable key := ⟨Table.empty, List.nodup_nil⟩

instance : Inhabited (RowidTable key) := ⟨empty⟩

def at? (t : RowidTable key) (n : Nat) : Option ρ := t.rows.get? n

/-- The largest rowid in use and one. -/
def next (t : RowidTable key) : Nat := t.rows.keys.foldl max 0 + 1

/-- `UPDATE ... WHERE p` -/
def update (t : RowidTable key) (p : ρ → Bool) (f : ρ → ρ) (hf : ∀ r, key (f r) = key r) :
    RowidTable key where
  rows := t.rows.mapValues fun r => if p r then f r else r
  nodup := by
    have hkeys : ((t.rows.mapValues fun r => if p r then f r else r).rows.map fun r => key r.2) =
        t.rows.rows.map fun r => key r.2 := by
      rw [Dict.rows_mapValues, List.map_map]
      refine List.map_congr_left fun r _ => ?_
      simp only [Function.comp_apply]
      split <;> simp [hf]
    rw [hkeys]
    exact t.nodup

/-- `DELETE ... WHERE p` -/
def delete (t : RowidTable key) (p : ρ → Bool) : RowidTable key where
  rows := Table.delete t.rows fun r => p r.2
  nodup := t.nodup.sublist (List.filter_sublist.map _)

theorem at?_eq_some_iff {t : RowidTable key} {n : Nat} {r : ρ} :
    t.at? n = some r ↔ (n, r) ∈ t.rows.rows := Dict.get?_eq_some_iff

@[simp] theorem at?_empty (n : Nat) : (empty : RowidTable key).at? n = none := rfl

/-- Two rowids with one key are one rowid. -/
theorem eq_of_key {t : RowidTable key} {n m : Nat} {r s : ρ} (hr : t.at? n = some r)
    (hs : t.at? m = some s) (h : key r = key s) : n = m := by
  rw [at?_eq_some_iff] at hr hs
  have hsame : (n, r) = (m, s) := List.inj_on_of_nodup_map t.nodup hr hs h
  exact congrArg Prod.fst hsame

theorem at?_next (t : RowidTable key) : t.at? t.next = none := by
  rw [at?, Dict.get?_eq_none_iff]
  have hmax : ∀ (ns : List Nat) (m n : Nat), n ∈ ns → n ≤ ns.foldl max m := by
    intro ns
    have hstart : ∀ (ns : List Nat) (m : Nat), m ≤ ns.foldl max m := by
      intro ns
      induction ns with
      | nil => exact fun m => Nat.le_refl m
      | cons k ns ih => exact fun m => Nat.le_trans (Nat.le_max_left m k) (ih _)
    induction ns with
    | nil => simp
    | cons k ns ih =>
        intro m n hn
        rcases List.mem_cons.mp hn with rfl | hn
        · exact Nat.le_trans (Nat.le_max_right m n) (hstart ns _)
        · exact ih _ n hn
  intro hin
  have := hmax _ 0 _ hin
  rw [next] at this
  omega

@[simp] theorem at?_update (t : RowidTable key) (p : ρ → Bool) (f : ρ → ρ) (hf) (n : Nat) :
    (t.update p f hf).at? n = (t.at? n).map fun r => if p r then f r else r :=
  Dict.get?_mapValues _ n

@[simp] theorem at?_delete (t : RowidTable key) (p : ρ → Bool) (n : Nat) :
    (t.delete p).at? n = (t.at? n).filter fun r => !p r := by
  ext r
  rw [at?_eq_some_iff, Option.filter_eq_some_iff, at?_eq_some_iff]
  simp [delete]

section Keyed

variable [DecidableEq ι]

/-- The row with a key, and its rowid. -/
def find? (t : RowidTable key) (k : ι) : Option (Nat × ρ) :=
  t.rows.rows.find? fun r => key r.2 = k

theorem find?_eq_some_iff {t : RowidTable key} {k : ι} {n : Nat} {r : ρ} :
    t.find? k = some (n, r) ↔ t.at? n = some r ∧ key r = k := by
  rw [at?_eq_some_iff]
  constructor
  · intro h
    exact ⟨List.mem_of_find?_eq_some h, by simpa using List.find?_some h⟩
  · rintro ⟨hr, rfl⟩
    cases h : t.find? (key r) with
    | none => simpa using List.find?_eq_none.mp h (n, r) hr
    | some s =>
        have hs : s ∈ t.rows.rows := List.mem_of_find?_eq_some h
        have hkey : key s.2 = key r := by simpa using List.find?_some h
        rw [List.inj_on_of_nodup_map t.nodup hs hr hkey]

theorem find?_eq_none_iff {t : RowidTable key} {k : ι} :
    t.find? k = none ↔ ∀ n r, t.at? n = some r → key r ≠ k := by
  simp [find?, at?_eq_some_iff]

theorem find?_update (t : RowidTable key) (p : ρ → Bool) (f : ρ → ρ) (hf) (k : ι) :
    (t.update p f hf).find? k =
      (t.find? k).map fun e => (e.1, if p e.2 then f e.2 else e.2) := by
  have hkey : ∀ r, key (if p r then f r else r) = key r := by
    intro r
    split
    · exact hf r
    · rfl
  cases h : t.find? k with
  | none =>
      rw [find?_eq_none_iff] at h
      rw [Option.map_none, find?_eq_none_iff]
      intro n r hr
      rw [at?_update, Option.map_eq_some_iff] at hr
      obtain ⟨s, hs, rfl⟩ := hr
      rw [hkey]
      exact h n s hs
  | some e =>
      obtain ⟨hat, rfl⟩ := find?_eq_some_iff.mp (by rw [h] : t.find? k = some (e.1, e.2))
      rw [Option.map_some, find?_eq_some_iff, at?_update, hat]
      exact ⟨rfl, hkey e.2⟩

/-- Where an upsert of a row with the key puts it. -/
def place (t : RowidTable key) (k : ι) : Nat := ((t.find? k).map Prod.fst).getD t.next

theorem place_eq {t : RowidTable key} {n : Nat} {r : ρ} (h : t.at? n = some r) :
    t.place (key r) = n := by
  rw [place, find?_eq_some_iff.mpr ⟨h, rfl⟩]
  rfl

/-- A row with the key stands at the place of the key, if there is one. -/
theorem eq_place {t : RowidTable key} {k : ι} {n : Nat} {r : ρ} (h : t.at? n = some r)
    (hk : key r = k) : n = t.place k := by
  rw [← hk, place_eq h]

theorem key_at?_place {t : RowidTable key} {k : ι} {r : ρ} (h : t.at? (t.place k) = some r) :
    key r = k := by
  cases hfind : t.find? k with
  | none =>
      rw [place, hfind, Option.map_none, Option.getD_none, at?_next] at h
      cases h
  | some found =>
      have hfound : t.find? k = some (found.1, found.2) := by rw [hfind]
      obtain ⟨hat, hkey⟩ := find?_eq_some_iff.mp hfound
      rw [place, hfind, Option.map_some, Option.getD_some, hat] at h
      cases h
      exact hkey

/-- `INSERT ... ON CONFLICT DO UPDATE` -/
def upsert (t : RowidTable key) (r : ρ) : RowidTable key where
  rows := t.rows.set (t.place (key r)) r
  nodup := by
    have hinj : ∀ e ∈ (t.rows.set (t.place (key r)) r).rows,
        ∀ e' ∈ (t.rows.set (t.place (key r)) r).rows, key e.2 = key e'.2 → e = e' := by
      have hat : ∀ e ∈ (t.rows.set (t.place (key r)) r).rows,
          e = (t.place (key r), r) ∨ (e.1 ≠ t.place (key r) ∧ t.at? e.1 = some e.2) := by
        rintro ⟨n, s⟩ he
        rw [← Dict.get?_eq_some_iff, Dict.get?_set] at he
        split at he
        · rename_i hn
          cases he
          exact .inl (by rw [hn])
        · rename_i hn
          exact .inr ⟨hn, he⟩
      rintro e he e' he' hkey
      rcases hat e he with rfl | ⟨hne, hold⟩ <;> rcases hat e' he' with rfl | ⟨hne', hold'⟩
      · rfl
      · exact absurd (eq_place hold' hkey.symm) hne'
      · exact absurd (eq_place hold hkey) hne
      · have hsame := eq_of_key hold hold' hkey
        refine Prod.ext hsame (Option.some.inj ?_)
        rw [← hold, ← hold', hsame]
    refine (List.nodup_map_iff_inj_on ?_).mpr hinj
    exact List.Nodup.of_map _ (t.rows.set (t.place (key r)) r).nodup

theorem at?_upsert (t : RowidTable key) (r : ρ) (n : Nat) :
    (t.upsert r).at? n = if n = t.place (key r) then some r else t.at? n := Dict.get?_set n

end Keyed

/-! ### Mirrors -/

variable {f : ρ → Option β} {t : RowidTable key} {index : Dict Nat β}

/-- What stands under a rowid in the index is what belongs to the row there. -/
def Mirrors (f : ρ → Option β) (t : RowidTable key) (index : Dict Nat β) : Prop :=
  ∀ n, index.get? n = (t.at? n).bind f

def insertEntry (n : Nat) (entry : Option β) (index : Dict Nat β) : Dict Nat β :=
  match entry with
  | none => index
  | some b => index.set n b

/-- Deleting an entry, and inserting the new one. -/
def replaceEntry (n : Nat) (entry : Option β) (index : Dict Nat β) : Dict Nat β :=
  insertEntry n entry (index.pop n)

theorem get?_insertEntry {n : Nat} (entry : Option β) {index : Dict Nat β}
    (h : index.get? n = none) (m : Nat) :
    (insertEntry n entry index).get? m = if m = n then entry else index.get? m := by
  cases entry with
  | none =>
      rw [insertEntry]
      split
      · rename_i hm
        rw [hm, h]
      · rfl
  | some b => exact Dict.get?_set m

@[simp] theorem get?_replaceEntry (n m : Nat) (entry : Option β) (index : Dict Nat β) :
    (replaceEntry n entry index).get? m = if m = n then entry else index.get? m := by
  rw [replaceEntry, get?_insertEntry entry (by simp [Dict.get?_pop]), Dict.get?_pop]
  split <;> rfl

/-- An index that is made of one row after another, by entries where there are
none. -/
theorem mirrors_foldl {put : Dict Nat β → Nat × ρ → Dict Nat β}
    (hput : ∀ index n r, index.get? n = none →
      ∀ m, (put index (n, r)).get? m = if m = n then f r else index.get? m)
    (t : RowidTable key) : Mirrors f t (t.rows.rows.foldl put Table.empty) := by
  have hfold : ∀ (rows : List (Nat × ρ)) (index : Dict Nat β), (rows.map Prod.fst).Nodup →
      (∀ r ∈ rows, index.get? r.1 = none) → ∀ n,
      (rows.foldl put index).get? n = ((rows.lookup n).map f).getD (index.get? n) := by
    intro rows
    induction rows with
    | nil => exact fun _ _ _ _ => rfl
    | cons e rows ih =>
        obtain ⟨m, r⟩ := e
        intro index hnodup hfresh n
        obtain ⟨hm, hrest⟩ := List.nodup_cons.mp hnodup
        have hstep := hput index m r (hfresh (m, r) List.mem_cons_self)
        have hne : ∀ e ∈ rows, e.1 ≠ m := fun e he heq =>
          hm (List.mem_map.mpr ⟨e, he, heq⟩)
        have hlater : ∀ e ∈ rows, (put index (m, r)).get? e.1 = none := by
          intro e he
          rw [hstep, if_neg (hne e he)]
          exact hfresh e (List.mem_cons_of_mem (m, r) he)
        rw [List.foldl_cons, ih _ hrest hlater, List.lookup_cons]
        by_cases hn : n = m
        · subst hn
          have hnone : rows.lookup n = none := by
            rw [List.lookup_eq_none_iff]
            intro e he
            rw [bne_iff_ne]
            exact (hne e he).symm
          simp [hnone, hstep]
        · have hbeq : (n == m) = false := by simpa using hn
          rw [hbeq, hstep, if_neg hn]
  intro n
  rw [hfold t.rows.rows Table.empty t.rows.nodup fun _ _ => rfl]
  cases hat : t.at? n with
  | none =>
      have hnone : t.rows.rows.lookup n = none := by
        rw [List.lookup_eq_none_iff]
        intro e he
        rw [bne_iff_ne]
        rintro rfl
        rw [at?_eq_some_iff.mpr he] at hat
        cases hat
      rw [hnone]
      rfl
  | some r =>
      rw [Table.lookup_eq_some_of_nodup t.rows.nodup (at?_eq_some_iff.mp hat)]
      rfl

namespace Mirrors

theorem upsert [DecidableEq ι] (h : Mirrors f t index) (r : ρ) :
    Mirrors f (t.upsert r) (replaceEntry (t.place (key r)) (f r) index) := by
  intro n
  rw [get?_replaceEntry, at?_upsert]
  split
  · rfl
  · exact h n

/-- An update of columns that the index does not look at. -/
theorem update (h : Mirrors f t index) {p : ρ → Bool} {g : ρ → ρ} (hg) (hf : ∀ r, f (g r) = f r) :
    Mirrors f (t.update p g hg) index := by
  intro n
  rw [h n, at?_update]
  cases t.at? n with
  | none => rfl
  | some r =>
      simp only [Option.bind_some, Option.map_some]
      split <;> simp [hf]

/-- Deleting rows together with their entries. -/
theorem delete (h : Mirrors f t index) {p : ρ → Bool} {after : Dict Nat β}
    (hafter : ∀ n, after.get? n = if (t.at? n).any p then none else index.get? n) :
    Mirrors f (t.delete p) after := by
  intro n
  rw [hafter n, h n, at?_delete]
  cases t.at? n with
  | none => rfl
  | some r => cases hp : p r <;> simp [Option.filter, hp]

end Mirrors

/-- `DELETE FROM` the index, `WHERE rowid IN (SELECT rowid ... WHERE p)` -/
def deleteEntries (t : RowidTable key) (p : ρ → Bool) (index : Dict Nat β) : Dict Nat β :=
  Table.delete index fun e => (t.at? e.1).any p

@[simp] theorem get?_deleteEntries (t : RowidTable key) (p : ρ → Bool) (index : Dict Nat β)
    (n : Nat) : (deleteEntries t p index).get? n =
      if (t.at? n).any p then none else index.get? n := by
  ext b
  rw [deleteEntries, Dict.get?_eq_some_iff, Table.rows_delete, List.mem_filter,
    ← Dict.get?_eq_some_iff]
  cases (t.at? n).any p <;> simp

end RowidTable

end MarkSdk.Lib
