import Mathlib.Data.Finset.Card
import MarkSdk.Lib.Table

/-!
The full-text query of a small index.

A scoped query with few ids gives them to SQLite. A query with many ids reads
a prefix of the ranking, filters it by the ids and reads a longer prefix when
too few rows are left. Both give the first rows of the scope in the ranking
(`exact_scoped`).
-/

namespace MarkSdk

/-- `_INLINE_IDS`: a scope with more ids than this is filtered after the query. -/
def inlineIds : Nat := 2000

/-- A full-text index, by the rows that match an expression for an agent with
their scores, the best row first. -/
structure FullTextIndex (σ : Type) where
  ranking : String → String → List (String × σ)

namespace FullTextIndex

variable {σ : Type}

/-- The ranked `MATCH` with `LIMIT limit`. -/
def fetch (index : FullTextIndex σ) (expression agentId : String) (limit : Nat) :
    List (String × σ) :=
  (index.ranking expression agentId).take limit

/-- The same with `AND fragment_id IN (...)`. -/
def fetchIn (index : FullTextIndex σ) (expression agentId : String) (includeIds : Finset String)
    (limit : Nat) : List (String × σ) :=
  ((index.ranking expression agentId).filter (fun row => row.1 ∈ includeIds)).take limit

/-- The loop of `_exact` over growing batches; none where the turns run out. -/
def growing (index : FullTextIndex σ) (expression agentId : String) (limit : Nat)
    (includeIds : Finset String) : Nat → Nat → Option (List (String × σ))
  | 0, _ => none
  | turns + 1, batch =>
      let rows := index.fetch expression agentId batch
      let hits := rows.filter (fun row => row.1 ∈ includeIds)
      if limit ≤ hits.length ∨ rows.length < batch then some (hits.take limit)
      else index.growing expression agentId limit includeIds turns (batch * 4)

/-- `_exact`, with the turns its loop may take. -/
def exact (index : FullTextIndex σ) (expression agentId : String) (limit : Nat)
    (includeIds : Option (Finset String)) (turns : Nat) : Option (List (String × σ)) :=
  match includeIds with
  | none => some (index.fetch expression agentId limit)
  | some ids =>
      if ids.card ≤ inlineIds then some (index.fetchIn expression agentId ids limit)
      else index.growing expression agentId limit ids turns (max (limit * 4) 64)

/-! ### The growing batches -/

/-- A prefix that has enough rows of the scope has the first ones of the ranking. -/
theorem take_filter_take {α : Type} {p : α → Bool} {rows : List α} {batch limit : Nat}
    (h : limit ≤ ((rows.take batch).filter p).length) :
    ((rows.take batch).filter p).take limit = (rows.filter p).take limit := by
  conv => rhs; rw [← List.take_append_drop batch rows, List.filter_append]
  rw [List.take_append_of_le_length h]

/-- A fetch that is short of its limit has the whole ranking. -/
theorem fetch_of_short {index : FullTextIndex σ} {expression agentId : String} {batch : Nat}
    (h : (index.fetch expression agentId batch).length < batch) :
    index.fetch expression agentId batch = index.ranking expression agentId := by
  unfold fetch at h ⊢
  rw [List.length_take] at h
  exact List.take_of_length_le (by omega)

/-- What the loop returns are the first rows of the scope, whatever batch it starts with. -/
theorem growing_sound {index : FullTextIndex σ} {expression agentId : String} {limit : Nat}
    {ids : Finset String} {turns batch : Nat} {hits : List (String × σ)}
    (h : index.growing expression agentId limit ids turns batch = some hits) :
    hits = index.fetchIn expression agentId ids limit := by
  induction turns generalizing batch with
  | zero => cases h
  | succ turns ih =>
    simp only [growing] at h
    split at h
    · rename_i hstop
      cases h
      rcases hstop with henough | hshort
      · exact take_filter_take henough
      · rw [fetch_of_short hshort]
        rfl
    · exact ih h

/-- The loop ends: a batch that is longer than the ranking is the last one, and
every turn makes the batch longer. -/
theorem growing_ends (index : FullTextIndex σ) (expression agentId : String) (limit : Nat)
    (ids : Finset String) (turns : Nat) {batch : Nat} (hbatch : 0 < batch)
    (hturns : (index.ranking expression agentId).length < batch + turns) :
    ∃ hits, index.growing expression agentId limit ids (turns + 1) batch = some hits := by
  induction turns generalizing batch with
  | zero =>
    have hshort : (index.fetch expression agentId batch).length < batch := by
      simp only [fetch, List.length_take]
      omega
    exact ⟨_, if_pos (Or.inr hshort)⟩
  | succ turns ih =>
    rw [growing]
    split
    · exact ⟨_, rfl⟩
    · exact ih (by omega) (by omega)

/-- The growing batches give the first rows of the scope in the ranking. -/
theorem growing_eq (index : FullTextIndex σ) (expression agentId : String) (limit : Nat)
    (ids : Finset String) {turns batch : Nat} (hbatch : 0 < batch)
    (hturns : (index.ranking expression agentId).length < turns) :
    index.growing expression agentId limit ids turns batch
      = some (index.fetchIn expression agentId ids limit) := by
  obtain ⟨turns, rfl⟩ : ∃ n, turns = n + 1 := ⟨turns - 1, by omega⟩
  obtain ⟨hits, hhits⟩ :=
    growing_ends index expression agentId limit ids turns hbatch (by omega)
  rw [hhits, growing_sound hhits]

/-- However the rows of the scope are spread over the ranking, the growing
batches end with the first `limit` of them, and so does `_exact` whichever of its
two ways it takes. The number of turns that is enough is not a matter of the
limit or the scope. -/
theorem exact_scoped (index : FullTextIndex σ) (expression agentId : String) :
    ∃ enough, ∀ turns, enough ≤ turns → ∀ (limit : Nat) (ids : Finset String),
      index.growing expression agentId limit ids turns (max (limit * 4) 64)
          = some (index.fetchIn expression agentId ids limit) ∧
        index.exact expression agentId limit (some ids) turns
          = some (index.fetchIn expression agentId ids limit) := by
  refine ⟨(index.ranking expression agentId).length + 1, fun turns hturns limit ids => ?_⟩
  have hgrowing : index.growing expression agentId limit ids turns (max (limit * 4) 64)
      = some (index.fetchIn expression agentId ids limit) :=
    growing_eq index expression agentId limit ids (by omega) (by omega)
  refine ⟨hgrowing, ?_⟩
  by_cases hfew : ids.card ≤ inlineIds
  · exact if_pos hfew
  · rw [exact, if_neg hfew, hgrowing]

end FullTextIndex

end MarkSdk
