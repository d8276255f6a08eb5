import MarkSdk.Index.Agreement
import MarkSdk.Index.Search

/-!
The rows of a partition as one matrix.

Every vector that the index holds is as long as its dimension says, whatever
the calls have been (`Uniform.step`), so that `_export_rows` gives rows of one
width, each with its id (`exportRows_spec`).
-/

namespace MarkSdk

open Lib

variable {ρ : Type}

/-- The vectors have this dimension; without a dimension there are none. -/
def Wide (dim : Option Nat) (held : HeldVectors ρ) : Prop :=
  ∀ agentId d, held.get? agentId = some d → ∀ r ∈ d.rows, dim = some r.2.length

section Wide

variable {dim : Option Nat} {held : HeldVectors ρ}

theorem Wide.set (h : Wide dim held) (agentId : Option String) {d : Dict String (List ρ)}
    (hd : ∀ r ∈ d.rows, dim = some r.2.length) : Wide dim (held.set agentId d) := by
  intro a d' hget
  rw [Dict.get?_set] at hget
  split at hget
  · cases hget
    exact hd
  · exact h a d' hget

theorem Wide.pop (h : Wide dim held) (agentId : Option String) : Wide dim (held.pop agentId) := by
  intro a d hget
  rw [Dict.get?_pop] at hget
  split at hget
  · cases hget
  · exact h a d hget

theorem Wide.remove (h : Wide dim held) (agentId : Option String) (fragmentId : String) :
    Wide dim (heldRemove held agentId fragmentId) := by
  rw [heldRemove]
  cases hget : held.get? agentId with
  | none => exact h
  | some d =>
      dsimp only
      split
      · exact h.pop agentId
      · exact h.set agentId fun r hr => h agentId d hget r (Dict.mem_rows_pop hr)

theorem Wide.leave (h : Wide dim held) (owner : Dict String (Option String)) (fragmentId : String)
    (agentId : Option String) : Wide dim (heldLeave held owner fragmentId agentId) := by
  unfold heldLeave
  dsimp only
  split
  · exact h.remove _ _
  · exact h

/-- The agent's vectors, none if it has no dictionary. -/
theorem Wide.of_mem (h : Wide dim held) {agentId : Option String} {r : String × List ρ}
    (hr : r ∈ ((held.get? agentId).getD .empty).rows) : dim = some r.2.length := by
  cases hget : held.get? agentId with
  | none =>
      rw [hget] at hr
      cases hr
  | some d =>
      rw [hget] at hr
      exact h agentId d hget r hr

theorem Wide.put (h : Wide dim held) (owner : Dict String (Option String)) (fragmentId : String)
    {vector : List ρ} (hvector : dim = some vector.length) (agentId : Option String) :
    Wide dim (heldPut held owner fragmentId vector agentId) := by
  have hleft := h.leave owner fragmentId agentId
  refine hleft.set agentId fun r hr => ?_
  obtain hold | rfl := Dict.mem_rows_set hr
  · exact hleft.of_mem hold
  · exact hvector

/-- An index without a dimension may take any. -/
theorem Wide.withDim (h : Wide dim held) {n : Nat} (hdim : dim = none ∨ dim = some n) :
    Wide (some n) held := by
  intro agentId d hget r hr
  have hr := h agentId d hget r hr
  obtain hnone | hn := hdim
  · rw [hnone] at hr
    cases hr
  · rw [← hn, hr]

theorem wide_of_empty (hheld : held.rows = []) : Wide dim held := by
  intro agentId d hget
  rw [Dict.get?_eq_some_iff, hheld] at hget
  cases hget

end Wide

namespace VectorIndex

/-- All vectors of the index have its dimension. -/
def Uniform (index : VectorIndex ρ) : Prop := Wide index.dim index.held

variable {index : VectorIndex ρ}

theorem uniform_new {env : IndexEnv ρ} {backend : IndexBackend}
    (h : new env backend = some index) :
    index.Uniform := by
  have hstart (auto np : Bool) : (new.start auto np : VectorIndex ρ).Uniform := wide_of_empty rfl
  cases backend with
  | numpy =>
      rw [new] at h
      split at h
      · cases h
        exact hstart false true
      · cases h
  | auto =>
      cases h
      exact hstart true false
  | python =>
      cases h
      exact hstart false false

section

variable (env : IndexEnv ρ)

theorem Uniform.add (h : index.Uniform) (hsound : index.Sound) (fragmentId : String) (v : List ρ)
    (content : String) (agentId : Option String) :
    (index.add env fragmentId v content agentId).1.Uniform := by
  obtain ⟨e, he⟩ | ⟨-, hdim, hok⟩ := index.add_cases env fragmentId v content agentId
  · rw [he]
    exact h
  · have hwide : Wide (some v.length) index.held := Wide.withDim h hdim
    obtain ⟨hheld, -, -, hafter⟩ := put_spec env (hsound.withDim (some v.length)).partitions
      fragmentId (env.normalize v) content agentId
    rw [hok]
    unfold Uniform
    rw [hheld, hafter]
    exact hwide.put _ fragmentId (by rw [env.length_normalize]) agentId

theorem Uniform.addEach (h : index.Uniform) (hsound : index.Sound) (agentId : Option String)
    (items : List (String × List ρ)) : (VectorIndex.addEach env agentId items index).1.Uniform := by
  induction items generalizing index with
  | nil => exact h
  | cons item items ih =>
      have hadd := h.add env hsound item.1 item.2 "" agentId
      have hadded := hsound.add env item.1 item.2 "" agentId
      rw [VectorIndex.addEach]
      cases hresult : index.add env item.1 item.2 "" agentId with
      | mk after outcome =>
          rw [hresult] at hadd hadded
          cases outcome with
          | error e => exact hadd
          | ok => exact ih hadd hadded

theorem Uniform.promoteFor (h : index.Uniform) (ids : List String) (embeddings : List (List ρ)) :
    (index.promoteFor env ids embeddings).Uniform := by
  have hheld := (sameHeld_promoteFor env index ids embeddings).held
  unfold Uniform
  rw [hheld]
  obtain hsame | ⟨hnone, -, hset⟩ := dim_promoteFor_cases env index ids embeddings
  · rw [hsame]
    exact h
  · rw [hset]
    exact Wide.withDim h (.inl hnone)

theorem homogeneous_iff {embeddings : List (List ρ)} :
    homogeneous embeddings = true ↔ ∀ v ∈ embeddings, v.length = width embeddings := by
  simp [homogeneous]

theorem Uniform.addBlock (h : index.Uniform) (hsound : index.Sound) {ids : List String}
    {embeddings : List (List ρ)} (hfresh : index.fresh ids = true)
    (hlength : embeddings.length = ids.length) (agentId : Option String) (expected : Nat)
    (normalised : Bool) :
    (index.addBlock env ids embeddings agentId expected normalised).1.Uniform := by
  unfold VectorIndex.addBlock
  by_cases hhomogeneous : homogeneous embeddings = true
  · rw [if_neg (not_not_intro hhomogeneous)]
    -- the dimension is set before the checks
    have hdim : Wide (some (index.dim.getD (width embeddings))) index.held := by
      refine Wide.withDim h ?_
      cases index.dim with
      | none => exact .inl rfl
      | some dim => exact .inr rfl
    dsimp only
    split
    · exact hdim
    · split
      · exact hdim
      · rename_i hwidth
        have hrows : ∀ row ∈ (if normalised then embeddings else embeddings.map env.normalize),
            row.length = width embeddings := by
          intro row hrow
          split at hrow
          · exact homogeneous_iff.mp hhomogeneous row hrow
          · obtain ⟨v, hv, rfl⟩ := List.mem_map.mp hrow
            rw [env.length_normalize]
            exact homogeneous_iff.mp hhomogeneous v hv
        have hcount : (if normalised then embeddings else embeddings.map env.normalize).length =
            ids.length := by
          split
          · exact hlength
          · rw [List.length_map]
            exact hlength
        have hset := hsound.withDim (some (index.dim.getD (width embeddings)))
        obtain ⟨hheld, -⟩ :=
          putBlock_spec hset.partitions hset.owned hfresh hcount agentId expected
        unfold Uniform
        rw [hheld]
        refine hdim.set agentId fun r hr => ?_
        obtain hold | hnew := Dict.mem_rows_updateAll hr
        · exact hdim.of_mem hold
        · rw [hrows r.2 (List.of_mem_zip hnew).2]
          exact congrArg some (Decidable.not_not.mp hwidth).symm
  · rw [if_pos hhomogeneous]
    exact h

theorem Uniform.addMany (h : index.Uniform) (hsound : index.Sound) (ids : List String)
    (embeddings : List (List ρ)) (agentId : Option String) (expected : Nat) (normalised : Bool) :
    (index.addMany env ids embeddings agentId expected normalised).1.Uniform := by
  have hstarted := h.promoteFor env ids embeddings
  have hpromoted := hsound.promoteFor env ids embeddings
  rw [VectorIndex.addMany]
  split
  · exact h
  · split
    · exact h
    · rename_i hlength
      dsimp only
      split
      · rename_i hfresh
        exact hstarted.addBlock env hpromoted hfresh (Decidable.not_not.mp hlength) agentId expected
          normalised
      · exact hstarted.addEach env hpromoted agentId (ids.zip embeddings)

theorem Uniform.remove (h : index.Uniform) (hsound : index.Sound) (fragmentId : String) :
    (index.remove fragmentId).Uniform := by
  have hafter := hsound.remove fragmentId
  cases hown : index.owner.get? fragmentId with
  | none =>
      rw [VectorIndex.remove, hown]
      exact h
  | some agentId =>
      obtain ⟨hheld, -, -⟩ := held_remove hsound hown
      have hleft : Wide index.dim (index.remove fragmentId).held := by
        rw [hheld]
        exact Wide.remove h agentId fragmentId
      by_cases hempty : (index.remove fragmentId).owner.rows = []
      · exact wide_of_empty (hafter.owned.empty_iff.mp hempty)
      · have hdim : (index.remove fragmentId).dim = index.dim := by
          have hsize : (index.remove fragmentId).owner.size ≠ 0 := fun hzero =>
            hempty (List.eq_nil_of_length_eq_zero hzero)
          revert hsize
          rw [VectorIndex.remove, hown]
          intro hsize
          refine (if_neg hsize).trans ?_
          exact (fields_partitionRemove _ agentId fragmentId).2.2.1
        unfold Uniform
        rw [hdim]
        exact hleft

theorem Uniform.clear (h : index.Uniform) (hsound : index.Sound) (agentId : String) :
    (index.clear agentId).Uniform := by
  have hafter := hsound.clear agentId
  by_cases hempty : (index.clear agentId).owner.rows = []
  · exact wide_of_empty (hafter.owned.empty_iff.mp hempty)
  · have hsize : (index.clear agentId).owner.size ≠ 0 := fun hzero =>
      hempty (List.eq_nil_of_length_eq_zero hzero)
    revert hsize
    rw [VectorIndex.clear]
    cases hq : index.partitions.get? (some agentId) with
    | none => exact fun _ => h
    | some q =>
        intro hsize
        show Wide (if _ then none else index.dim) ((index.partitions.pop _).mapValues _)
        rw [if_neg hsize, Dict.mapValues_pop]
        exact Wide.pop h _

/-- Whatever the index is asked for, its vectors have its dimension. -/
theorem Uniform.step (h : index.Uniform) (hsound : index.Sound) (call : IndexCall ρ) :
    (index.step env call).Uniform := by
  cases call with
  | add fragmentId v content agentId => exact h.add env hsound fragmentId v content agentId
  | addMany ids embeddings agentId expected normalised =>
      exact h.addMany env hsound ids embeddings agentId expected normalised
  | remove fragmentId => exact h.remove hsound fragmentId
  | clearAll => exact wide_of_empty rfl
  | clear agentId => exact h.clear hsound agentId

end

end VectorIndex

/-! ### The rows of a partition -/

namespace NumpyPartition

variable (p : NumpyPartition ρ)

/-- The rows that are not dead. -/
def liveRows : List Nat :=
  let dead := if p.deadCount = 0 then none else p.dead
  (List.range p.ids.length).filter fun row => !(dead.getD []).getD row false

variable {p}

theorem Sound.liveRows_eq (h : p.Sound) :
    p.liveRows = (List.range p.ids.length).filter fun row => (p.ids.getD row none).isSome := by
  refine List.filter_congr fun row hrow => ?_
  rw [h.dead_iff (List.mem_range.mp hrow), Option.not_isNone]

end NumpyPartition

namespace VectorIndex

/-- `_export_rows`: the ids and the matrix of a numpy partition that is not empty. -/
def exportRows (index : VectorIndex ρ) (agentId : Option String) :
    Option (List String × List (List ρ)) :=
  match index.partitions.get? agentId with
  | some (.numpy p) =>
      if p.pos.size = 0 then none
      else some (p.liveRows.filterMap fun row => p.ids.getD row none,
        p.liveRows.map fun row => p.matrix.getD row [])
  | _ => none

theorem filterMap_of_filter {α β γ : Type} (l : List α) (f : α → Option β) (g : α → γ) :
    (l.filter fun a => (f a).isSome).filterMap f = l.filterMap f ∧
      (l.filter fun a => (f a).isSome).map g = l.filterMap fun a => (f a).map fun _ => g a := by
  induction l with
  | nil => exact ⟨rfl, rfl⟩
  | cons a l ih =>
      cases h : f a with
      | none => simp [h, ih.1, ih.2]
      | some b => simp [h, ih.1, ih.2]

/-- What is exported are the agent's vectors, in rows as long as the dimension. -/
theorem exportRows_spec {index : VectorIndex ρ} (hsound : index.Sound) (huniform : index.Uniform)
    {agentId : Option String} {ids : List String} {rows : List (List ρ)}
    (h : index.exportRows agentId = some (ids, rows)) :
    ∃ d, index.held.get? agentId = some d ∧ d.rows ≠ [] ∧ ids = d.rows.map Prod.fst ∧
      rows = d.rows.map Prod.snd ∧ ∀ row ∈ rows, row.length = width rows := by
  unfold exportRows at h
  split at h
  · rename_i p hp
    split at h
    · cases h
    · rename_i hsize
      have hget : index.held.get? agentId = some p.toDict := by
        rw [held_get?, hp]
        rfl
      have hpsound : p.Sound := (hsound.partitions.get hp).1
      have hitems : p.items = (List.range p.ids.length).filterMap fun row =>
          (p.ids.getD row none).map fun id => (id, p.matrix.getD row []) := by
        rw [NumpyPartition.items, hpsound.pos, NumpyPartition.occupiedRows_eq, List.map_filterMap]
        refine List.filterMap_congr fun row _ => ?_
        rw [Option.map_map, Nat.zero_add]
        rfl
      have hids : ids = p.items.map Prod.fst := by
        obtain ⟨hids, -⟩ := Prod.mk.inj (Option.some.inj h)
        rw [← hids, hpsound.liveRows_eq, (filterMap_of_filter _ _ id).1, hitems, List.map_filterMap]
        refine List.filterMap_congr fun row _ => ?_
        rw [Option.map_map]
        exact Option.map_id'.symm
      have hrows : rows = p.items.map Prod.snd := by
        obtain ⟨-, hrows⟩ := Prod.mk.inj (Option.some.inj h)
        rw [← hrows, hpsound.liveRows_eq, (filterMap_of_filter _ _ _).2, hitems, List.map_filterMap]
        refine List.filterMap_congr fun row _ => ?_
        rw [Option.map_map]
        rfl
      refine ⟨p.toDict, hget, ?_, hids, hrows, fun row hrow => ?_⟩
      · intro hnil
        refine hsize ?_
        rw [NumpyPartition.rows_toDict, NumpyPartition.items] at hnil
        rw [Dict.size, List.map_eq_nil_iff.mp hnil]
        rfl
      · have hdim : ∀ row ∈ rows, index.dim = some row.length := by
          intro row hrow
          rw [hrows] at hrow
          obtain ⟨r, hr, rfl⟩ := List.mem_map.mp hrow
          exact huniform agentId p.toDict hget r hr
        cases rows with
        | nil => cases hrow
        | cons first rows =>
            have hfirst := hdim first List.mem_cons_self
            rw [hdim row hrow] at hfirst
            exact Option.some.inj hfirst
  · cases h

end VectorIndex

end MarkSdk
