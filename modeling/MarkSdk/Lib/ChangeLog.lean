import Mathlib.Data.Finset.Card
import Mathlib.Data.Int.Interval
import MarkSdk.Lib.Table

/-!
A log of the keys that each write changed, with gaps.

Every write moves a version on. It may log the keys that it changed, log that
it does not know them, or log nothing; and old rows may be pruned. A set of the
keys that have a property `Follows` the log from a version when it is right for
every key that no later write can have changed. Such a set stays so through
writes (`Follows.log`, `Follows.skip`, `Follows.prune`), it can be brought to a
later version with what the log says (`Follows.replay`), and at the version of
the log it is exact (`Follows.exact`).
-/

namespace MarkSdk.Lib

structure ChangeLog (κ : Type) where
  version : Int
  /-- The rows by version, with the keys where they are known -/
  rows : Table (Prod.fst : Int × Option (List κ) → Int)
  bounded : ∀ row ∈ rows.rows, row.1 ≤ version

namespace ChangeLog

variable {κ : Type}

def start (version : Int) : ChangeLog κ := ⟨version, .empty, fun _ h => by cases h⟩

/-- A write with what it knows of its keys. -/
def log (keys : Option (List κ)) (l : ChangeLog κ) : ChangeLog κ where
  version := l.version + 1
  rows := l.rows.insertOrReplace (l.version + 1, keys)
  bounded := by
    intro row hrow
    rw [Table.rows_insertOrReplace] at hrow
    obtain hrow | hrow := List.mem_append.mp hrow
    · have := l.bounded row (List.mem_filter.mp hrow).1
      omega
    · rw [List.mem_singleton.mp hrow]

/-- A write that logs nothing. -/
def skip (l : ChangeLog κ) : ChangeLog κ where
  version := l.version + 1
  rows := l.rows
  bounded := fun row hrow => (l.bounded row hrow).trans (by omega)

/-- The rows up to a version are dropped. -/
def prune (upTo : Int) (l : ChangeLog κ) : ChangeLog κ where
  version := l.version
  rows := l.rows.delete fun row => row.1 ≤ upTo
  bounded := fun row hrow => l.bounded row (List.mem_filter.mp hrow).1

section Reading

variable [DecidableEq κ]

/-- The keys of the rows together; nothing when a row does not know them or
there are more than `limit`. -/
def gather (limit : Nat) : List (Option (List κ)) → Finset κ → Option (Finset κ)
  | [], touched => some touched
  | none :: _, _ => none
  | some keys :: rest, touched =>
      if limit < (touched ∪ keys.toFinset).card then none
      else gather limit rest (touched ∪ keys.toFinset)

/-- The keys changed after `old` and up to `new`, when the log knows them. -/
def changedSince (keep limit : Nat) (old new : Int) (l : ChangeLog κ) : Option (Finset κ) :=
  if new < old ∨ keep < new - old then none
  else
    let rows := l.rows.rows.filter fun row => old < row.1 && row.1 ≤ new
    if (rows.length : Int) ≠ new - old then none else gather limit (rows.map Prod.snd) ∅

theorem gather_eq_some {limit : Nat} {rows : List (Option (List κ))} {start touched : Finset κ}
    (h : gather limit rows start = some touched) :
    start ⊆ touched ∧ ∀ row ∈ rows, ∃ keys, row = some keys ∧ ∀ k ∈ keys, k ∈ touched := by
  induction rows generalizing start with
  | nil =>
      cases h
      exact ⟨subset_rfl, by simp⟩
  | cons row rows ih =>
      cases row with
      | none => cases h
      | some keys =>
          unfold gather at h
          split at h
          · cases h
          · obtain ⟨hsub, hrows⟩ := ih h
            refine ⟨Finset.subset_union_left.trans hsub, fun other hother => ?_⟩
            obtain rfl | hother := List.mem_cons.mp hother
            · exact ⟨keys, rfl, fun k hk =>
                hsub (Finset.mem_union_right _ (List.mem_toFinset.mpr hk))⟩
            · exact hrows other hother

end Reading

/-- As many rows as versions: there is one for each. -/
theorem exists_row {l : ChangeLog κ} {old new : Int} (hle : old ≤ new)
    (hlength : ((l.rows.rows.filter fun row => old < row.1 && row.1 ≤ new).length : Int) =
      new - old)
    {u : Int} (hold : old < u) (hnew : u ≤ new) :
    ∃ keys, (u, keys) ∈ l.rows.rows.filter fun row => old < row.1 && row.1 ≤ new := by
  set rows := l.rows.rows.filter fun row => old < row.1 && row.1 ≤ new
  have hnodup : (rows.map Prod.fst).Nodup := l.rows.nodup.sublist (List.filter_sublist.map _)
  have hsub : (rows.map Prod.fst).toFinset ⊆ Finset.Ioc old new := by
    intro v hv
    obtain ⟨row, hrow, rfl⟩ := List.mem_map.mp (List.mem_toFinset.mp hv)
    have hbounds := (List.mem_filter.mp hrow).2
    simpa [Finset.mem_Ioc] using hbounds
  have hcard : (Finset.Ioc old new).card ≤ (rows.map Prod.fst).toFinset.card := by
    rw [List.toFinset_card_of_nodup hnodup, List.length_map, Int.card_Ioc]
    omega
  have hall := Finset.eq_of_subset_of_card_le hsub hcard
  have hu : u ∈ (rows.map Prod.fst).toFinset := by
    rw [hall, Finset.mem_Ioc]
    exact ⟨hold, hnew⟩
  obtain ⟨row, hrow, rfl⟩ := List.mem_map.mp (List.mem_toFinset.mp hu)
  exact ⟨row.2, hrow⟩

/-- Every write after the version is logged, and none of them changed the key. -/
def Untouched (l : ChangeLog κ) (v : Int) (k : κ) : Prop :=
  ∀ u, v < u → u ≤ l.version → ∃ keys, (u, some keys) ∈ l.rows.rows ∧ k ∉ keys

/-- A key that is not among the keys changed since was untouched before. -/
theorem Untouched.earlier [DecidableEq κ] {l : ChangeLog κ} {keep limit : Nat} {old new : Int}
    {touched : Finset κ} (h : l.changedSince keep limit old new = some touched) {k : κ}
    (hk : k ∉ touched) (huntouched : l.Untouched new k) : l.Untouched old k := by
  unfold changedSince at h
  split at h
  · cases h
  · rename_i hrange
    dsimp only at h
    split at h
    · cases h
    · rename_i hlength
      intro u hold hversion
      by_cases hnew : u ≤ new
      · obtain ⟨keys, hrow⟩ := exists_row (by omega) (not_not.mp hlength) hold hnew
        obtain ⟨known, rfl, hknown⟩ := (gather_eq_some h).2 keys (List.mem_map_of_mem hrow)
        exact ⟨known, (List.mem_filter.mp hrow).1, fun hmem => hk (hknown k hmem)⟩
      · exact huntouched u (by omega) hversion

/-- The set is right for the keys that are untouched since the version. -/
structure Follows (l : ChangeLog κ) (holds : κ → Prop) (keys : Finset κ) (v : Int) : Prop where
  version_le : v ≤ l.version
  mem_iff : ∀ k, l.Untouched v k → (k ∈ keys ↔ holds k)

variable {l : ChangeLog κ} {holds after : κ → Prop} {keys : Finset κ} {v : Int}

theorem Follows.of_exact (hv : v ≤ l.version) (h : ∀ k, k ∈ keys ↔ holds k) :
    l.Follows holds keys v := ⟨hv, fun k _ => h k⟩

/-- Nothing has changed since the version of the log. -/
theorem Follows.exact (h : l.Follows holds keys l.version) (k : κ) : k ∈ keys ↔ holds k :=
  h.mem_iff k fun u hold hnew => absurd hnew (by omega)

theorem Follows.log (h : l.Follows holds keys v) (noted : Option (List κ))
    (hkeeps : ∀ ids ∈ noted, ∀ k, k ∉ ids → (after k ↔ holds k)) :
    (l.log noted).Follows after keys v := by
  refine ⟨h.version_le.trans (Int.le_of_lt (Int.lt_succ l.version)), fun k huntouched => ?_⟩
  have hrows : ∀ row, row ∈ (l.log noted).rows.rows ↔
      (row ∈ l.rows.rows ∧ row.1 ≠ l.version + 1) ∨ row = (l.version + 1, noted) := by
    intro row
    simp [ChangeLog.log]
  have hlast : after k ↔ holds k := by
    obtain ⟨ids, hrow, hk⟩ := huntouched (l.version + 1) (by have := h.version_le; omega) le_rfl
    obtain ⟨-, hne⟩ | heq := (hrows _).mp hrow
    · exact absurd rfl hne
    · cases heq
      exact hkeeps ids rfl k hk
  rw [hlast]
  refine h.mem_iff k fun u hold hnew => ?_
  obtain ⟨ids, hrow, hk⟩ := huntouched u hold (hnew.trans (Int.le_of_lt (Int.lt_succ l.version)))
  obtain ⟨hrow, -⟩ | heq := (hrows _).mp hrow
  · exact ⟨ids, hrow, hk⟩
  · cases heq
    omega

/-- After a write that logs nothing, no key counts as untouched. -/
theorem Follows.skip (h : l.Follows holds keys v) : l.skip.Follows after keys v := by
  refine ⟨h.version_le.trans (Int.le_of_lt (Int.lt_succ l.version)), fun k huntouched => ?_⟩
  obtain ⟨ids, hrow, -⟩ := huntouched (l.version + 1) (by have := h.version_le; omega) le_rfl
  have := l.bounded _ hrow
  omega

theorem Follows.prune (h : l.Follows holds keys v) (upTo : Int) :
    (l.prune upTo).Follows holds keys v := by
  refine ⟨h.version_le, fun k huntouched => h.mem_iff k fun u hold hnew => ?_⟩
  obtain ⟨ids, hrow, hk⟩ := huntouched u hold hnew
  exact ⟨ids, (List.mem_filter.mp hrow).1, hk⟩

theorem Follows.congr (h : l.Follows holds keys v) (hsame : ∀ k, after k ↔ holds k) :
    l.Follows after keys v :=
  ⟨h.version_le, fun k huntouched => (h.mem_iff k huntouched).trans (hsame k).symm⟩

/-- The keys changed since are looked at again, the others stay. -/
theorem Follows.replay [DecidableEq κ] (h : l.Follows holds keys v) {keep limit : Nat} {new : Int}
    {touched now : Finset κ} (hchanged : l.changedSince keep limit v new = some touched)
    (hnew : new ≤ l.version) (hin : ∀ k ∈ touched, (k ∈ now ↔ holds k))
    (hout : ∀ k, k ∉ touched → (k ∈ now ↔ k ∈ keys)) : l.Follows holds now new := by
  refine ⟨hnew, fun k huntouched => ?_⟩
  by_cases hk : k ∈ touched
  · exact hin k hk
  · rw [hout k hk]
    exact h.mem_iff k (huntouched.earlier hchanged hk)

end ChangeLog

end MarkSdk.Lib
