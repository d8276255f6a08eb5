import Mathlib.Data.List.Nodup
import Mathlib.Data.List.Basic

/-!
Tables with a primary key.

A table is the list of its rows in rowid order. Every `INSERT` takes the next
rowid, so a new row goes to the end; `UPDATE` keeps a row in its place and
`DELETE` takes it out. The primary key is a function of the row, and that no
two rows share it is a field of the table: a statement that would break it
cannot be written, it fails.
-/

namespace MarkSdk.Lib

/-- The rows of a table in rowid order, at most one for each key. -/
structure Table {ρ ι : Type} (key : ρ → ι) where
  rows : List ρ
  nodup : (rows.map key).Nodup

namespace Table

variable {ρ ι β : Type} {key : ρ → ι}

@[ext] theorem ext {t u : Table key} (h : t.rows = u.rows) : t = u := by
  cases t
  cases u
  cases h
  rfl

def empty : Table key := ⟨[], List.nodup_nil⟩

instance : Inhabited (Table key) := ⟨empty⟩

@[simp] theorem rows_empty : (empty : Table key).rows = [] := rfl

/-- Two rows with one key are one row. -/
theorem eq_of_key (t : Table key) {r s : ρ} (hr : r ∈ t.rows) (hs : s ∈ t.rows)
    (h : key r = key s) : r = s :=
  List.inj_on_of_nodup_map t.nodup hr hs h

/-- `UPDATE` of every row by a function that leaves the key alone. -/
def mapRows (t : Table key) (f : ρ → ρ) (hf : ∀ r, key (f r) = key r) : Table key where
  rows := t.rows.map f
  nodup := by
    have : (t.rows.map f).map key = t.rows.map key := by simp [hf]
    rw [this]
    exact t.nodup

/-- `UPDATE ... WHERE p`. -/
def update (t : Table key) (p : ρ → Bool) (f : ρ → ρ) (hf : ∀ r, key (f r) = key r) :
    Table key :=
  t.mapRows (fun r => if p r then f r else r) fun r => by
    split
    · exact hf r
    · rfl

/-- `DELETE ... WHERE p`. -/
def delete (t : Table key) (p : ρ → Bool) : Table key where
  rows := t.rows.filter fun r => !p r
  nodup := t.nodup.sublist (List.filter_sublist.map key)

section Keyed

variable [DecidableEq ι]

def find? (t : Table key) (k : ι) : Option ρ := t.rows.find? fun r => key r = k

/-- `INSERT`, refused when the key is taken. -/
def insert? (t : Table key) (r : ρ) : Option (Table key) :=
  if h : key r ∈ t.rows.map key then none
  else some
    { rows := t.rows ++ [r]
      nodup := by
        rw [List.map_append, List.map_singleton]
        exact t.nodup.append (List.nodup_singleton _) (by simpa using h) }

/-- `INSERT OR IGNORE`. -/
def insertOrIgnore (t : Table key) (r : ρ) : Table key := (t.insert? r).getD t

/-- `INSERT ... ON CONFLICT DO UPDATE`: the row keeps its place. -/
def upsert (t : Table key) (r : ρ) : Table key :=
  match t.insert? r with
  | some t' => t'
  | none =>
      { rows := t.rows.map fun s => if key s = key r then r else s
        nodup := by
          have : (t.rows.map fun s => if key s = key r then r else s).map key =
              t.rows.map key := by
            rw [List.map_map]
            refine List.map_congr_left fun s _ => ?_
            simp only [Function.comp_apply]
            split
            · rename_i h
              exact h.symm
            · rfl
          rw [this]
          exact t.nodup }

/-- `INSERT OR REPLACE`: the old row goes, the new one comes last. -/
def insertOrReplace (t : Table key) (r : ρ) : Table key where
  rows := (t.rows.filter fun s => key s ≠ key r) ++ [r]
  nodup := by
    rw [List.map_append, List.map_singleton]
    refine (t.nodup.sublist (List.filter_sublist.map key)).append (List.nodup_singleton _) ?_
    simp

end Keyed

@[simp] theorem rows_mapRows (t : Table key) (f : ρ → ρ) (hf) :
    (t.mapRows f hf).rows = t.rows.map f := rfl

@[simp] theorem rows_update (t : Table key) (p : ρ → Bool) (f : ρ → ρ) (hf) :
    (t.update p f hf).rows = t.rows.map fun r => if p r then f r else r := rfl

@[simp] theorem rows_delete (t : Table key) (p : ρ → Bool) :
    (t.delete p).rows = t.rows.filter fun r => !p r := rfl

@[simp] theorem rows_insertOrReplace [DecidableEq ι] (t : Table key) (r : ρ) :
    (t.insertOrReplace r).rows = (t.rows.filter fun s => key s ≠ key r) ++ [r] := rfl

theorem map_key_update (t : Table key) (p : ρ → Bool) (f : ρ → ρ) (hf) :
    (t.update p f hf).rows.map key = t.rows.map key := by
  rw [rows_update, List.map_map]
  refine List.map_congr_left fun r _ => ?_
  simp only [Function.comp_apply]
  split
  · exact hf r
  · rfl

/-- Overwriting rows just before they are deleted leaves nothing of them. -/
theorem delete_update (t : Table key) (p : ρ → Bool) (f : ρ → ρ) (hf) (h : ∀ r, p (f r) = p r) :
    (t.update p f hf).delete p = t.delete p := by
  apply ext
  simp only [rows_delete, rows_update, List.filter_map]
  have hkept : ∀ r ∈ t.rows.filter fun r => !p r, (if p r then f r else r) = r := by
    intro r hr
    have : p r = false := by simpa using (List.mem_filter.mp hr).2
    simp [this]
  have hsame : ((fun r => !p r) ∘ fun r => if p r then f r else r) = fun r => !p r := by
    funext r
    simp only [Function.comp_apply]
    cases hp : p r with
    | true => simp [h, hp]
    | false => simp [hp]
  rw [hsame, List.map_congr_left hkept, List.map_id']

theorem delete_delete (t : Table key) (p q : ρ → Bool) :
    (t.delete p).delete q = t.delete fun r => p r || q r := by
  apply ext
  simp only [rows_delete, List.filter_filter]
  refine List.filter_congr fun r _ => ?_
  cases p r <;> cases q r <;> rfl

section Keyed

variable [DecidableEq ι]

theorem insert?_eq_some_iff {t t' : Table key} {r : ρ} :
    t.insert? r = some t' ↔ key r ∉ t.rows.map key ∧ t'.rows = t.rows ++ [r] := by
  unfold insert?
  split
  · rename_i h
    simp only [reduceCtorEq, false_iff]
    exact fun hr => hr.1 h
  · rename_i h
    simp only [Option.some.injEq]
    constructor
    · rintro rfl
      exact ⟨h, rfl⟩
    · rintro ⟨-, hrows⟩
      exact Table.ext hrows.symm

theorem insert?_eq_none_iff {t : Table key} {r : ρ} :
    t.insert? r = none ↔ key r ∈ t.rows.map key := by
  unfold insert?
  split <;> simp_all

theorem rows_insertOrIgnore (t : Table key) (r : ρ) :
    (t.insertOrIgnore r).rows =
      if key r ∈ t.rows.map key then t.rows else t.rows ++ [r] := by
  unfold insertOrIgnore
  cases h : t.insert? r with
  | none =>
      rw [if_pos (insert?_eq_none_iff.mp h)]
      rfl
  | some t' =>
      obtain ⟨hnew, hrows⟩ := insert?_eq_some_iff.mp h
      rw [if_neg hnew, ← hrows]
      rfl

theorem rows_upsert (t : Table key) (r : ρ) :
    (t.upsert r).rows =
      if key r ∈ t.rows.map key then t.rows.map fun s => if key s = key r then r else s
      else t.rows ++ [r] := by
  unfold upsert
  split
  · rename_i t' h
    obtain ⟨hnew, hrows⟩ := insert?_eq_some_iff.mp h
    rw [if_neg hnew, hrows]
  · rename_i h
    rw [if_pos (insert?_eq_none_iff.mp h)]

theorem mem_upsert {t : Table key} {r s : ρ} (h : s ∈ (t.upsert r).rows) : s ∈ t.rows ∨ s = r := by
  rw [rows_upsert] at h
  split at h
  · obtain ⟨s', hs', rfl⟩ := List.mem_map.mp h
    by_cases hkey : key s' = key r
    · exact .inr (if_pos hkey)
    · rw [if_neg hkey]
      exact .inl hs'
  · simpa using h

theorem mem_upsert_self (r : ρ) (t : Table key) : r ∈ (t.upsert r).rows := by
  rw [rows_upsert]
  split
  · rename_i hin
    obtain ⟨s, hs, hkey⟩ := List.mem_map.mp hin
    exact List.mem_map.mpr ⟨s, hs, if_pos hkey⟩
  · exact List.mem_append_right t.rows (List.mem_singleton.mpr rfl)

theorem mem_upsert_of_ne {t : Table key} {r s : ρ} (hs : s ∈ t.rows) (hkey : key s ≠ key r) :
    s ∈ (t.upsert r).rows := by
  rw [rows_upsert]
  split
  · exact List.mem_map.mpr ⟨s, hs, if_neg hkey⟩
  · exact List.mem_append_left [r] hs

theorem key_mem_upsert {t : Table key} {k : ι} (r : ρ) (h : k ∈ t.rows.map key) :
    k ∈ (t.upsert r).rows.map key := by
  obtain ⟨s, hs, rfl⟩ := List.mem_map.mp h
  by_cases hkey : key s = key r
  · rw [hkey]
    exact List.mem_map_of_mem (mem_upsert_self r t)
  · exact List.mem_map_of_mem (mem_upsert_of_ne hs hkey)

/-- A selection that holds neither the old row nor the new one. -/
theorem filter_upsert {t : Table key} {r : ρ} {p : ρ → Bool} (hr : p r = false)
    (hold : ∀ s ∈ t.rows, key s = key r → p s = false) :
    (t.upsert r).rows.filter p = t.rows.filter p := by
  rw [rows_upsert]
  split
  · have hmap : ∀ rows : List ρ, (∀ s ∈ rows, key s = key r → p s = false) →
        (rows.map fun s => if key s = key r then r else s).filter p = rows.filter p := by
      intro rows
      induction rows with
      | nil => exact fun _ => rfl
      | cons s rows ih =>
          intro hrows
          have hrest := ih fun s' hs' => hrows s' (List.mem_cons_of_mem s hs')
          by_cases hkey : key s = key r
          · have hs := hrows s List.mem_cons_self hkey
            rw [List.map_cons, if_pos hkey, List.filter_cons_of_neg (by simp [hr]),
              List.filter_cons_of_neg (by simp [hs]), hrest]
          · rw [List.map_cons, if_neg hkey, List.filter_cons, List.filter_cons, hrest]
    exact hmap t.rows hold
  · simp [List.filter_append, hr]

omit [DecidableEq ι] in
/-- A selection that holds none of the deleted rows. -/
theorem filter_delete {t : Table key} {p q : ρ → Bool} (h : ∀ s ∈ t.rows, p s → q s = false) :
    (t.delete q).rows.filter p = t.rows.filter p := by
  rw [rows_delete, List.filter_filter]
  refine List.filter_congr fun s hs => ?_
  cases hp : p s with
  | false => simp
  | true => simp [h s hs hp]

theorem find?_eq_some_iff {t : Table key} {k : ι} {r : ρ} :
    t.find? k = some r ↔ r ∈ t.rows ∧ key r = k := by
  unfold find?
  constructor
  · intro h
    exact ⟨List.mem_of_find?_eq_some h, by simpa using List.find?_some h⟩
  · rintro ⟨hr, rfl⟩
    cases h : t.rows.find? fun s => key s = key r with
    | none => simpa using List.find?_eq_none.mp h r hr
    | some s =>
        have hs : s ∈ t.rows := List.mem_of_find?_eq_some h
        have hkey : key s = key r := by simpa using List.find?_some h
        rw [t.eq_of_key hs hr hkey]

theorem find?_eq_none_iff {t : Table key} {k : ι} :
    t.find? k = none ↔ ∀ r ∈ t.rows, key r ≠ k := by
  simp [find?]

theorem find?_update (t : Table key) (p : ρ → Bool) (f : ρ → ρ) (hf) (k : ι) :
    (t.update p f hf).find? k = (t.find? k).map fun r => if p r then f r else r := by
  have hkey : ∀ r, key (if p r then f r else r) = key r := by
    intro r
    split
    · exact hf r
    · rfl
  cases h : t.find? k with
  | none =>
      rw [find?_eq_none_iff] at h
      rw [Option.map_none, find?_eq_none_iff]
      intro r hr
      obtain ⟨s, hs, rfl⟩ := List.mem_map.mp hr
      rw [hkey]
      exact h s hs
  | some r =>
      obtain ⟨hr, rfl⟩ := find?_eq_some_iff.mp h
      rw [Option.map_some, find?_eq_some_iff]
      exact ⟨List.mem_map.mpr ⟨r, hr, rfl⟩, hkey r⟩

theorem find?_delete_key (t : Table key) (k k' : ι) :
    (t.delete fun r => key r = k).find? k' = if k' = k then none else t.find? k' := by
  unfold find?
  rw [rows_delete, List.find?_filter]
  split
  · rename_i h
    subst h
    rw [List.find?_eq_none]
    intro r _
    simp
  · rename_i h
    congr 1
    funext r
    rw [Bool.eq_iff_iff]
    simp only [Bool.not_eq_true', decide_eq_false_iff_not, decide_eq_true_eq]
    constructor
    · exact fun hr => hr.2
    · exact fun hr => ⟨fun hk => h (hr.symm.trans hk), hr⟩

theorem find?_insertOrReplace (t : Table key) (r : ρ) (k : ι) :
    (t.insertOrReplace r).find? k = if k = key r then some r else t.find? k := by
  have hdelete := find?_delete_key t (key r) k
  unfold find? at hdelete ⊢
  rw [rows_insertOrReplace, List.find?_append]
  have hrows : (t.rows.filter fun s => key s ≠ key r) = (t.delete fun s => key s = key r).rows := by
    rw [rows_delete]
    refine List.filter_congr fun s _ => ?_
    simp
  rw [hrows, hdelete]
  split
  · rename_i h
    simp [h]
  · rename_i h
    have hne : key r ≠ k := fun hk => h hk.symm
    simp [hne]

theorem find?_insert? {t t' : Table key} {r : ρ} (h : t.insert? r = some t') (k : ι) :
    t'.find? k = if k = key r then some r else t.find? k := by
  obtain ⟨hnew, hrows⟩ := insert?_eq_some_iff.mp h
  unfold find?
  rw [hrows, List.find?_append]
  split
  · rename_i hk
    have hnone : t.rows.find? (fun s => decide (key s = k)) = none := by
      rw [List.find?_eq_none]
      intro s hs hsk
      exact hnew (List.mem_map.mpr ⟨s, hs, (by simpa using hsk : key s = k).trans hk⟩)
    rw [hnone]
    simp [hk]
  · rename_i hk
    have hne : key r ≠ k := fun h => hk h.symm
    simp [hne]

/-- `INSERT OR IGNORE` keeps the rows that are there. -/
theorem find?_insertOrIgnore (t : Table key) (r : ρ) (k : ι) :
    (t.insertOrIgnore r).find? k = (t.find? k).or (if k = key r then some r else none) := by
  unfold insertOrIgnore
  cases h : t.insert? r with
  | none =>
      rw [Option.getD_none]
      split
      · rename_i hk
        obtain ⟨s, hs, hsk⟩ := List.mem_map.mp (insert?_eq_none_iff.mp h)
        have hfind : t.find? k = some s := find?_eq_some_iff.mpr ⟨hs, hsk.trans hk.symm⟩
        rw [hfind, Option.some_or]
      · rw [Option.or_none]
  | some t' =>
      rw [Option.getD_some, find?_insert? h]
      split
      · rename_i hk
        have hnone : t.find? k = none := by
          rw [find?_eq_none_iff]
          intro s hs hsk
          exact (insert?_eq_some_iff.mp h).1 (List.mem_map.mpr ⟨s, hs, hsk.trans hk⟩)
        rw [hnone, Option.none_or]
      · rw [Option.or_none]

/-- The same idempotent update of one row after another is one update of all
of them. -/
theorem foldl_update (f : ρ → ρ) (hf : ∀ r, key (f r) = key r) (hidem : ∀ r, f (f r) = f r)
    (ks : List ι) (t : Table key) :
    ks.foldl (fun t k => t.update (fun r => key r = k) f hf) t =
      t.update (fun r => key r ∈ ks) f hf := by
  induction ks generalizing t with
  | nil =>
      apply Table.ext
      simp
  | cons k ks ih =>
      rw [List.foldl_cons, ih]
      apply Table.ext
      simp only [rows_update, List.map_map]
      refine List.map_congr_left fun r _ => ?_
      by_cases hk : key r = k <;> by_cases hks : key r ∈ ks <;> simp_all

/-- With keys that do not repeat, every entry is found. -/
theorem lookup_eq_some_of_nodup {kvs : List (ι × β)} (hnodup : (kvs.map Prod.fst).Nodup)
    {k : ι} {b : β} (h : (k, b) ∈ kvs) : kvs.lookup k = some b := by
  induction kvs with
  | nil => simp at h
  | cons kv kvs ih =>
      obtain ⟨hkv, hnodup'⟩ := List.nodup_cons.mp hnodup
      rcases List.mem_cons.mp h with rfl | h
      · simp
      · have hne : k ≠ kv.1 := by
          rintro rfl
          exact hkv (List.mem_map.mpr ⟨_, h, rfl⟩)
        have hbeq : (k == kv.1) = false := by simpa using hne
        rw [List.lookup_cons, hbeq]
        exact ih hnodup' h

/-- Assigning one row after another, each row at most once, is assigning to
every row the value listed for its key. -/
theorem foldl_assign (g : β → ρ → ρ) (hg : ∀ b r, key (g b r) = key r)
    (kvs : List (ι × β)) (hnodup : (kvs.map Prod.fst).Nodup) (t : Table key) :
    kvs.foldl (fun t kv => t.update (fun r => key r = kv.1) (g kv.2) (hg kv.2)) t =
      t.mapRows
        (fun r => match kvs.lookup (key r) with
          | some b => g b r
          | none => r)
        (fun r => by split <;> simp [hg]) := by
  induction kvs generalizing t with
  | nil =>
      apply Table.ext
      simp
  | cons kv kvs ih =>
      obtain ⟨k, b⟩ := kv
      obtain ⟨hk, hnodup'⟩ := List.nodup_cons.mp hnodup
      rw [List.foldl_cons, ih hnodup']
      apply Table.ext
      simp only [rows_update, rows_mapRows, List.map_map]
      refine List.map_congr_left fun r _ => ?_
      simp only [Function.comp_apply, decide_eq_true_eq, List.lookup_cons]
      by_cases hr : key r = k
      · have hnone : kvs.lookup k = none := by
          rw [List.lookup_eq_none_iff]
          intro p hp
          have hne : p.1 ≠ k := by
            rintro rfl
            exact hk (List.mem_map.mpr ⟨p, hp, rfl⟩)
          simpa using hne.symm
        simp [hr, hg, hnone]
      · have hbeq : (key r == k) = false := by simpa using hr
        simp [hr, hbeq]

end Keyed

/-! ### Steps that each change one key -/

section Override

variable {σ κ γ : Type} [DecidableEq κ] {look : σ → κ → γ} {step : β → σ → σ} {at_ : β → κ}
  {v : β → γ → γ}

/-- A loop over distinct keys leaves the other keys alone. -/
theorem foldl_override_not_mem
    (h : ∀ x s k, look (step x s) k = if k = at_ x then v x (look s k) else look s k)
    {xs : List β} {k : κ} (hk : k ∉ xs.map at_) (s : σ) :
    look (xs.foldl (fun s x => step x s) s) k = look s k := by
  induction xs generalizing s with
  | nil => rfl
  | cons x xs ih =>
      obtain ⟨hx, hxs⟩ := not_or.mp (List.mem_cons.not.mp hk)
      rw [List.foldl_cons, ih hxs, h, if_neg hx]

/-- And it changes each of its keys once. -/
theorem foldl_override_mem
    (h : ∀ x s k, look (step x s) k = if k = at_ x then v x (look s k) else look s k)
    {xs : List β} (hnodup : (xs.map at_).Nodup) {x : β} (hx : x ∈ xs) (s : σ) :
    look (xs.foldl (fun s x => step x s) s) (at_ x) = v x (look s (at_ x)) := by
  induction xs generalizing s with
  | nil => cases hx
  | cons y xs ih =>
      obtain ⟨hy, hnodup'⟩ := List.nodup_cons.mp hnodup
      rw [List.foldl_cons]
      rcases List.mem_cons.mp hx with rfl | hx
      · rw [foldl_override_not_mem h hy, h, if_pos rfl]
      · have hne : at_ x ≠ at_ y := fun e => hy (e ▸ List.mem_map_of_mem hx)
        rw [ih hnodup' hx, h, if_neg hne]

end Override

end Table

end MarkSdk.Lib
