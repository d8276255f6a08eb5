import MarkSdk.Lib.Runs
import MarkSdk.Index.Vector

/-!
What the index holds, whatever the backend.

`HeldVectors` is a dictionary of vectors for each agent. The operations of the index
act on it through `heldPut` and `heldRemove`, and the owners of the ids say
in which agent's dictionary an id is (`Owned`): every call keeps that.
-/

namespace MarkSdk

open Lib

variable {ρ : Type}

abbrev HeldVectors (ρ : Type) := Dict (Option String) (Dict String (List ρ))

/-- `_partition_remove` on what is held. -/
def heldRemove (held : HeldVectors ρ) (owner : Option String) (fragmentId : String) :
    HeldVectors ρ :=
  match held.get? owner with
  | none => held
  | some d =>
      if (d.pop fragmentId).size = 0 then held.pop owner
      else held.set owner (d.pop fragmentId)

/-- The id leaves its previous owner first. -/
def heldLeave (held : HeldVectors ρ) (owner : Dict String (Option String)) (fragmentId : String)
    (agentId : Option String) : HeldVectors ρ :=
  let previousOwner := (owner.get? fragmentId).getD agentId
  if fragmentId ∈ owner.keys ∧ previousOwner ≠ agentId then
    heldRemove held previousOwner fragmentId
  else held

/-- The write of `add` on what is held. -/
def heldPut (held : HeldVectors ρ) (owner : Dict String (Option String)) (fragmentId : String)
    (vector : List ρ) (agentId : Option String) : HeldVectors ρ :=
  let held := heldLeave held owner fragmentId agentId
  held.set agentId (((held.get? agentId).getD .empty).set fragmentId vector)

/-- The agent's dictionary has the id. -/
def Has (held : HeldVectors ρ) (agentId : Option String) (fragmentId : String) : Prop :=
  ∃ d, held.get? agentId = some d ∧ fragmentId ∈ d.keys

/-- No agent has an empty dictionary. -/
def NoneEmpty (held : HeldVectors ρ) : Prop := ∀ agentId d, held.get? agentId = some d → d.size ≠ 0

/-- An id is in the dictionary of its owner, and no dictionary is empty. -/
structure Owned (held : HeldVectors ρ) (owner : Dict String (Option String)) : Prop where
  owner : ∀ fragmentId agentId, owner.get? fragmentId = some agentId ↔ Has held agentId fragmentId
  nonempty : NoneEmpty held

theorem owned_empty : Owned (Table.empty : HeldVectors ρ) .empty where
  owner := by
    intro fragmentId agentId
    constructor
    · rintro ⟨⟩
    · rintro ⟨d, ⟨⟩, -⟩
  nonempty := by
    rintro agentId d ⟨⟩

variable {held : HeldVectors ρ} {owner : Dict String (Option String)}

/-- Without vectors there are no owners. -/
theorem Owned.empty_iff (h : Owned held owner) : owner.rows = [] ↔ held.rows = [] := by
  constructor
  · intro howner
    rw [List.eq_nil_iff_forall_not_mem]
    rintro ⟨agentId, d⟩ hmem
    have hget := Dict.get?_eq_some_iff.mpr hmem
    obtain ⟨⟨fragmentId, v⟩, hr⟩ := List.exists_mem_of_length_pos
      (Nat.pos_of_ne_zero (h.nonempty agentId d hget))
    have hown := (h.owner fragmentId agentId).mpr ⟨d, hget, Dict.mem_keys_of_mem hr⟩
    rw [Dict.get?_eq_some_iff, howner] at hown
    cases hown
  · intro hheld
    rw [List.eq_nil_iff_forall_not_mem]
    rintro ⟨fragmentId, agentId⟩ hmem
    obtain ⟨d, hget, -⟩ := (h.owner fragmentId agentId).mp (Dict.get?_eq_some_iff.mpr hmem)
    rw [Dict.get?_eq_some_iff, hheld] at hget
    cases hget

/-! What each write does to the dictionaries. -/

/-- One agent gets another dictionary. -/
theorem has_set (agentId : Option String) (d : Dict String (List ρ)) (a : Option String)
    (x : String) :
    Has (held.set agentId d) a x ↔ if a = agentId then x ∈ d.keys else Has held a x := by
  rw [Has, Dict.get?_set]
  split
  · refine ⟨?_, fun hx => ⟨d, rfl, hx⟩⟩
    rintro ⟨d', hd, hx⟩
    exact Option.some.inj hd ▸ hx
  · rfl

theorem noneEmpty_set (h : NoneEmpty held) (agentId : Option String) {d : Dict String (List ρ)}
    (hd : d.size ≠ 0) : NoneEmpty (held.set agentId d) := by
  intro a d' hget
  rw [Dict.get?_set] at hget
  split at hget
  · cases hget
    exact hd
  · exact h a d' hget

theorem has_pop (agentId a : Option String) (x : String) :
    Has (held.pop agentId) a x ↔ a ≠ agentId ∧ Has held a x := by
  rw [Has, Dict.get?_pop]
  split
  · rename_i ha
    exact ⟨by rintro ⟨d, ⟨⟩, -⟩, fun h => absurd ha h.1⟩
  · rename_i ha
    exact ⟨fun h => ⟨ha, h⟩, fun h => h.2⟩

theorem noneEmpty_pop (h : NoneEmpty held) (agentId : Option String) :
    NoneEmpty (held.pop agentId) := by
  intro a d hget
  rw [Dict.get?_pop] at hget
  split at hget
  · cases hget
  · exact h a d hget

theorem has_heldRemove (agentId : Option String) (fragmentId : String) (a : Option String)
    (x : String) :
    Has (heldRemove held agentId fragmentId) a x ↔
      Has held a x ∧ ¬ (a = agentId ∧ x = fragmentId) := by
  rw [heldRemove]
  split
  · rename_i hnone
    refine ⟨fun h => ⟨h, ?_⟩, fun h => h.1⟩
    rintro ⟨rfl, -⟩
    obtain ⟨d, hd, -⟩ := h
    rw [hnone] at hd
    cases hd
  · rename_i d hd
    -- the ids that are left of the agent
    have hleft : x ∈ (d.pop fragmentId).keys ↔ x ∈ d.keys ∧ x ≠ fragmentId := by
      rw [Dict.keys_pop, List.mem_filter, decide_eq_true_iff]
    have hhas : Has held agentId x ↔ x ∈ d.keys := by
      rw [Has, hd]
      exact ⟨fun ⟨d', hd', hx⟩ => Option.some.inj hd' ▸ hx, fun hx => ⟨d, rfl, hx⟩⟩
    split
    · rename_i hsize
      have hnothing : x ∉ (d.pop fragmentId).keys := by
        rw [Dict.keys, List.eq_nil_of_length_eq_zero hsize]
        exact List.not_mem_nil
      rw [has_pop]
      by_cases ha : a = agentId
      · rw [ha, hhas]
        grind
      · simp [ha]
    · rw [has_set]
      split
      · rename_i ha
        rw [ha, hhas, hleft]
        simp
      · rename_i ha
        simp [ha]

theorem noneEmpty_heldRemove (h : NoneEmpty held) (agentId : Option String) (fragmentId : String) :
    NoneEmpty (heldRemove held agentId fragmentId) := by
  rw [heldRemove]
  split
  · exact h
  · split
    · exact noneEmpty_pop h agentId
    · rename_i hsize
      exact noneEmpty_set h agentId hsize

theorem Owned.remove (h : Owned held owner) {fragmentId : String} {agentId : Option String}
    (hown : owner.get? fragmentId = some agentId) :
    Owned (heldRemove held agentId fragmentId) (owner.pop fragmentId) where
  owner := by
    intro x a
    rw [Dict.get?_pop, has_heldRemove, ← h.owner]
    split
    · rename_i hx
      rw [hx, hown]
      refine ⟨by rintro ⟨⟩, ?_⟩
      rintro ⟨heq, hne⟩
      exact absurd ⟨(Option.some.inj heq).symm, rfl⟩ hne
    · rename_i hx
      exact ⟨fun hget => ⟨hget, fun heq => hx heq.2⟩, fun hget => hget.1⟩
  nonempty := noneEmpty_heldRemove h.nonempty agentId fragmentId

/-- An agent gets new ids, which no agent has. -/
theorem Owned.insert (h : Owned held owner) {agentId : Option String} {d : Dict String (List ρ)}
    {owner' : Dict String (Option String)} (ids : List String) (hsize : d.size ≠ 0)
    (hkeys : ∀ x, x ∈ d.keys ↔ Has held agentId x ∨ x ∈ ids)
    (howner : ∀ x, owner'.get? x = if x ∈ ids then some agentId else owner.get? x)
    (hfresh : ∀ x ∈ ids, ∀ a, Has held a x → a = agentId) :
    Owned (held.set agentId d) owner' where
  owner := by
    intro x a
    rw [howner, has_set, hkeys]
    split
    · rename_i hx
      constructor
      · intro heq
        rw [if_pos (Option.some.inj heq).symm]
        exact .inr hx
      · intro hhas
        split at hhas
        · rename_i ha
          rw [ha]
        · rw [hfresh x hx a hhas]
    · rename_i hx
      rw [h.owner]
      split
      · rename_i ha
        rw [ha]
        simp [hx]
      · rfl
  nonempty := noneEmpty_set h.nonempty agentId hsize

theorem Owned.leave (h : Owned held owner) (fragmentId : String) (agentId : Option String) :
    ∃ owner', Owned (heldLeave held owner fragmentId agentId) owner' ∧
      (∀ a, Has (heldLeave held owner fragmentId agentId) a fragmentId → a = agentId) ∧
      ∀ x, x ≠ fragmentId → owner'.get? x = owner.get? x := by
  simp only [heldLeave]
  cases hget : owner.get? fragmentId with
  | none =>
      have habsent : fragmentId ∉ owner.keys := Dict.get?_eq_none_iff.mp hget
      rw [if_neg (fun hin => habsent hin.1)]
      refine ⟨owner, h, fun a ha => ?_, fun x _ => rfl⟩
      rw [← h.owner, hget] at ha
      cases ha
  | some previousOwner =>
      have hin : fragmentId ∈ owner.keys := Dict.mem_keys_iff.mpr ⟨previousOwner, hget⟩
      rw [Option.getD_some]
      split
      · refine ⟨owner.pop fragmentId, h.remove hget, fun a ha => ?_, fun x hx => ?_⟩
        · rw [has_heldRemove, ← h.owner, hget] at ha
          exact absurd ⟨(Option.some.inj ha.1).symm, rfl⟩ ha.2
        · rw [Dict.get?_pop, if_neg hx]
      · rename_i hsame
        refine ⟨owner, h, fun a ha => ?_, fun x _ => rfl⟩
        rw [← h.owner, hget] at ha
        rw [← Option.some.inj ha]
        exact Decidable.not_not.mp fun hne => hsame ⟨hin, hne⟩

/-- The ids of the agent's dictionary, empty if there is none. -/
theorem mem_keys_getD {agentId : Option String} {x : String} :
    x ∈ ((held.get? agentId).getD .empty).keys ↔ Has held agentId x := by
  rw [Has]
  cases held.get? agentId with
  | none => simp [Dict.keys]
  | some d => simp

theorem Owned.put (h : Owned held owner) (fragmentId : String) (vector : List ρ)
    (agentId : Option String) :
    Owned (heldPut held owner fragmentId vector agentId) (owner.set fragmentId agentId) := by
  obtain ⟨owner', hleft, hfresh, hother⟩ := h.leave fragmentId agentId
  refine hleft.insert [fragmentId] (Nat.ne_of_gt Dict.size_set_pos) (fun x => ?_)
    (fun x => ?_) (fun x hx a ha => ?_)
  · rw [Dict.mem_keys_set, mem_keys_getD, List.mem_singleton]
  · rw [Dict.get?_set]
    by_cases hx : x = fragmentId
    · rw [if_pos hx, if_pos (List.mem_singleton.mpr hx)]
    · rw [if_neg hx, if_neg (fun hmem => hx (List.mem_singleton.mp hmem)), hother x hx]
  · rw [List.mem_singleton.mp hx] at ha
    exact hfresh a ha

/-- The block of new ids. -/
theorem Owned.putAll (h : Owned held owner) {ids : List String} {rows : List (List ρ)}
    (hids : ids ≠ []) (hlength : rows.length = ids.length)
    (hfresh : ∀ fragmentId ∈ ids, fragmentId ∉ owner.keys) (agentId : Option String) :
    Owned (held.set agentId (((held.get? agentId).getD .empty).updateAll (ids.zip rows)))
      (owner.updateAll (ids.map fun fragmentId => (fragmentId, agentId))) := by
  have hkeys (x : String) : x ∈ (((held.get? agentId).getD .empty).updateAll (ids.zip rows)).keys ↔
      Has held agentId x ∨ x ∈ ids := by
    rw [Dict.mem_keys_updateAll, mem_keys_getD, List.map_fst_zip (Nat.le_of_eq hlength.symm)]
  refine h.insert ids (fun hsize => ?_) hkeys (fun x => ?_) (fun x hx a ha => ?_)
  · obtain ⟨x, hx⟩ := List.exists_mem_of_ne_nil ids hids
    have hmem := (hkeys x).mpr (.inr hx)
    rw [Dict.keys, List.eq_nil_of_length_eq_zero hsize] at hmem
    cases hmem
  · rw [Dict.get?_updateAll_const]
  · have hget := (h.owner x a).mpr ha
    exact absurd (Dict.mem_keys_iff.mpr ⟨a, hget⟩) (hfresh x hx)

theorem Owned.clear (h : Owned held owner) {agentId : Option String} {d : Dict String (List ρ)}
    (hd : held.get? agentId = some d) :
    Owned (held.pop agentId) (d.keys.foldl Dict.pop owner) where
  owner := by
    intro x a
    have hhas : Has held agentId x ↔ x ∈ d.keys := by
      rw [Has, hd]
      refine ⟨?_, fun hx => ⟨d, rfl, hx⟩⟩
      rintro ⟨d', hd', hx⟩
      exact Option.some.inj hd' ▸ hx
    rw [Dict.get?_foldl_pop, has_pop]
    split
    · rename_i hx
      -- an id has one owner
      have hown := (h.owner x agentId).mpr (hhas.mpr hx)
      refine ⟨by rintro ⟨⟩, ?_⟩
      rintro ⟨hne, ha⟩
      rw [← h.owner, hown] at ha
      exact absurd (Option.some.inj ha).symm hne
    · rename_i hx
      rw [h.owner]
      refine ⟨fun ha => ⟨fun heq => hx ?_, ha⟩, fun ha => ha.2⟩
      rw [heq] at ha
      exact hhas.mp ha
  nonempty := noneEmpty_pop h.nonempty agentId

/-! ### The index -/

/-- Every partition is in order, and with numpy every one is a matrix. -/
structure PartitionsSound (np : Bool) (partitions : Dict (Option String) (Partition ρ)) : Prop where
  sound : ∀ r ∈ partitions.rows, r.2.Sound
  numpy : np = true → ∀ r ∈ partitions.rows, ∃ p, r.2 = .numpy p

namespace PartitionsSound

variable {np : Bool} {partitions : Dict (Option String) (Partition ρ)}

theorem set (h : PartitionsSound np partitions) (agentId : Option String) {q : Partition ρ}
    (hq : q.Sound) (hnumpy : np = true → ∃ p, q = .numpy p) :
    PartitionsSound np (partitions.set agentId q) where
  sound := by
    intro r hr
    rcases Dict.mem_rows_set hr with hold | rfl
    · exact h.sound r hold
    · exact hq
  numpy := by
    intro hnp r hr
    rcases Dict.mem_rows_set hr with hold | rfl
    · exact h.numpy hnp r hold
    · exact hnumpy hnp

theorem pop (h : PartitionsSound np partitions) (agentId : Option String) :
    PartitionsSound np (partitions.pop agentId) where
  sound := fun r hr => h.sound r (Dict.mem_rows_pop hr)
  numpy := fun hnp r hr => h.numpy hnp r (Dict.mem_rows_pop hr)

/-- A partition that is there. -/
theorem get (h : PartitionsSound np partitions) {agentId : Option String} {q : Partition ρ}
    (hq : partitions.get? agentId = some q) : q.Sound ∧ (np = true → ∃ p, q = .numpy p) :=
  have hmem := Dict.get?_eq_some_iff.mp hq
  ⟨h.sound _ hmem, fun hnp => h.numpy hnp _ hmem⟩

end PartitionsSound

namespace Partition

theorem isNumpy_add {q : Partition ρ} (h : ∃ p, q = .numpy p) (fragmentId : String)
    (vector : List ρ) : ∃ p, q.add fragmentId vector = .numpy p := by
  obtain ⟨p, rfl⟩ := h
  exact ⟨_, rfl⟩

theorem isNumpy_remove {q : Partition ρ} (h : ∃ p, q = .numpy p) (fragmentId : String) :
    ∃ p, q.remove fragmentId = .numpy p := by
  obtain ⟨p, rfl⟩ := h
  exact ⟨_, rfl⟩

end Partition

namespace VectorIndex

/-- The index is in order. -/
structure Sound (index : VectorIndex ρ) : Prop where
  partitions : PartitionsSound index.np index.partitions
  owned : Owned index.held index.owner

theorem sound_new {env : IndexEnv ρ} {backend : IndexBackend} {index : VectorIndex ρ}
    (h : new env backend = some index) : index.Sound := by
  have hstart (auto np : Bool) : (new.start auto np : VectorIndex ρ).Sound :=
    ⟨⟨by rintro r ⟨⟩, by rintro - r ⟨⟩⟩, owned_empty⟩
  cases backend with
  | numpy =>
      rw [new] at h
      split at h
      · cases h
        exact hstart false true
      · cases h
  | auto =>
      cases h
      exact hstart true false
  | python =>
      cases h
      exact hstart false false

theorem held_get? (index : VectorIndex ρ) (agentId : Option String) :
    index.held.get? agentId = (index.partitions.get? agentId).map Partition.toDict :=
  Dict.get?_mapValues _ agentId

/-! `_partition_remove`. -/

section

variable {index : VectorIndex ρ} (h : PartitionsSound index.np index.partitions)
  (agentId : Option String) (fragmentId : String)

include h

theorem held_partitionRemove :
    (index.partitionRemove agentId fragmentId).held =
      heldRemove index.held agentId fragmentId := by
  rw [partitionRemove, heldRemove, held_get?]
  cases hq : index.partitions.get? agentId with
  | none => rfl
  | some q =>
      obtain ⟨-, hdict⟩ := ((h.get hq).1).remove fragmentId
      simp only [Option.map_some, held, Partition.size_eq, hdict]
      split
      · exact Dict.mapValues_pop _ agentId
      · rw [Dict.mapValues_set, hdict]

theorem partitions_partitionRemove :
    PartitionsSound (index.partitionRemove agentId fragmentId).np
      (index.partitionRemove agentId fragmentId).partitions := by
  rw [partitionRemove]
  cases hq : index.partitions.get? agentId with
  | none => exact h
  | some q =>
      obtain ⟨hsound, hnumpy⟩ := h.get hq
      simp only
      split
      · exact h.pop agentId
      · exact h.set agentId (hsound.remove fragmentId).1
          fun hnp => Partition.isNumpy_remove (hnumpy hnp) fragmentId

end

/-- The other fields are as they were. -/
theorem fields_partitionRemove (index : VectorIndex ρ) (agentId : Option String)
    (fragmentId : String) :
    let after := index.partitionRemove agentId fragmentId
    after.owner = index.owner ∧ after.content = index.content ∧ after.dim = index.dim ∧
      after.np = index.np ∧ after.auto = index.auto ∧ after.revision = index.revision := by
  rw [partitionRemove]
  split <;> exact ⟨rfl, rfl, rfl, rfl, rfl, rfl⟩

theorem fields_remove {index : VectorIndex ρ} {fragmentId : String} {agentId : Option String}
    (hown : index.owner.get? fragmentId = some agentId) :
    (index.remove fragmentId).owner = index.owner.pop fragmentId ∧
      (index.remove fragmentId).content = index.content.pop fragmentId ∧
        (index.remove fragmentId).dim =
          if (index.owner.pop fragmentId).size = 0 then none else index.dim := by
  let popped : VectorIndex ρ :=
    { index with
      owner := index.owner.pop fragmentId
      content := index.content.pop fragmentId }
  obtain ⟨howner, hcontent, hdim, -⟩ := popped.fields_partitionRemove agentId fragmentId
  rw [VectorIndex.remove, hown]
  refine ⟨howner, hcontent, ?_⟩
  show (if (popped.partitionRemove agentId fragmentId).owner.size = 0 then none
    else (popped.partitionRemove agentId fragmentId).dim) = _
  rw [howner, hdim]

/-! Promotion. -/

theorem sound_promotePartition {q : Partition ρ} (h : q.Sound) (dim : Nat) :
    (promotePartition dim q).Sound ∧ ∃ p, promotePartition dim q = .numpy p := by
  cases q with
  | numpy p => exact ⟨h, p, rfl⟩
  | python vectors =>
      refine ⟨?_, _, rfl⟩
      show NumpyPartition.Sound (if vectors.size = 0 then .empty dim else _)
      split
      · exact (NumpyPartition.holds_empty dim).toSound
      · have hlength : (vectors.rows.map Prod.snd).length = vectors.keys.length := by
          rw [Dict.keys, List.length_map, List.length_map]
        exact (NumpyPartition.holds_addMatrix (NumpyPartition.holds_empty dim) hlength
          (fun _ _ => List.not_mem_nil) vectors.nodup_keys 0).toSound

theorem partitions_promote (env : IndexEnv ρ) {index : VectorIndex ρ}
    (h : PartitionsSound index.np index.partitions) :
    PartitionsSound (index.promote env).np (index.promote env).partitions := by
  rw [promote]
  split
  · exact h
  · rename_i dim hdim
    split
    · constructor
      · intro r hr
        obtain ⟨s, hs, rfl⟩ := List.mem_map.mp hr
        exact (sound_promotePartition (h.sound s hs) dim).1
      · intro hnp r hr
        obtain ⟨s, hs, rfl⟩ := List.mem_map.mp hr
        exact (sound_promotePartition (h.sound s hs) dim).2
    · exact h

/-! The write of `add`. -/

theorem toDict_newPartition (index : VectorIndex ρ) : index.newPartition.toDict = .empty := by
  rw [newPartition]
  split <;> rfl

theorem sound_newPartition (index : VectorIndex ρ) :
    index.newPartition.Sound ∧ (index.np = true → ∃ p, index.newPartition = .numpy p) := by
  rw [newPartition]
  split
  · exact ⟨(NumpyPartition.holds_empty _).toSound, fun _ => ⟨_, rfl⟩⟩
  · rename_i hnp
    exact ⟨trivial, fun h => absurd h hnp⟩

/-- The agent's partition, or a new one. -/
theorem partition_getD {index : VectorIndex ρ} (h : PartitionsSound index.np index.partitions)
    (agentId : Option String) :
    ((index.partitions.get? agentId).getD index.newPartition).Sound ∧
      (index.np = true →
        ∃ p, (index.partitions.get? agentId).getD index.newPartition = .numpy p) ∧
      ((index.partitions.get? agentId).getD index.newPartition).toDict =
        (index.held.get? agentId).getD .empty := by
  rw [held_get?]
  cases hq : index.partitions.get? agentId with
  | none => exact ⟨index.sound_newPartition.1, index.sound_newPartition.2, index.toDict_newPartition⟩
  | some r => exact ⟨(h.get hq).1, (h.get hq).2, rfl⟩

theorem leaveOwner_spec {index : VectorIndex ρ} (h : PartitionsSound index.np index.partitions)
    (fragmentId : String) (agentId : Option String) :
    let left := index.leaveOwner fragmentId agentId
    left.held = heldLeave index.held index.owner fragmentId agentId ∧
      PartitionsSound left.np left.partitions ∧ left.owner = index.owner ∧
      left.content = index.content ∧ left.dim = index.dim := by
  rw [leaveOwner, heldLeave]
  simp only
  split
  · obtain ⟨howner, hcontent, hdim, -⟩ := index.fields_partitionRemove
      ((index.owner.get? fragmentId).getD agentId) fragmentId
    exact ⟨held_partitionRemove h _ _, partitions_partitionRemove h _ _, howner, hcontent, hdim⟩
  · exact ⟨rfl, h, rfl, rfl, rfl⟩

theorem write_spec {index : VectorIndex ρ} (h : PartitionsSound index.np index.partitions)
    (fragmentId : String) (vector : List ρ) (content : String) (agentId : Option String) :
    let after := index.write fragmentId vector content agentId
    after.held = heldPut index.held index.owner fragmentId vector agentId ∧
      PartitionsSound after.np after.partitions ∧
      after.owner = index.owner.set fragmentId agentId ∧ after.dim = index.dim := by
  obtain ⟨hheld, hparts, howner, -, hdim⟩ := leaveOwner_spec h fragmentId agentId
  obtain ⟨hsound, hnumpy, hdict⟩ := partition_getD hparts agentId
  obtain ⟨hadd, hadded⟩ := hsound.add fragmentId vector
  refine ⟨?_, ?_, ?_, hdim⟩
  · show (Dict.set _ _ _).mapValues _ = _
    rw [Dict.mapValues_set, hadded, hdict, heldPut, ← hheld]
    rfl
  · exact hparts.set agentId hadd fun hnp => Partition.isNumpy_add (hnumpy hnp) fragmentId vector
  · show (index.leaveOwner fragmentId agentId).owner.set fragmentId agentId = _
    rw [howner]

theorem put_spec (env : IndexEnv ρ) {index : VectorIndex ρ}
    (h : PartitionsSound index.np index.partitions) (fragmentId : String) (vector : List ρ)
    (content : String) (agentId : Option String) :
    let after := index.put env fragmentId vector content agentId
    after.held = heldPut index.held index.owner fragmentId vector agentId ∧
      PartitionsSound after.np after.partitions ∧
      after.owner = index.owner.set fragmentId agentId ∧ after.dim = index.dim := by
  obtain ⟨hheld, hparts, howner, hdim⟩ := write_spec h fragmentId vector content agentId
  rw [put]
  simp only
  split
  · rw [held_promote, owner_promote, dim_promote]
    exact ⟨hheld, partitions_promote env hparts, howner, hdim⟩
  · exact ⟨hheld, hparts, howner, hdim⟩

theorem Sound.put (env : IndexEnv ρ) {index : VectorIndex ρ} (h : index.Sound)
    (fragmentId : String) (vector : List ρ) (content : String) (agentId : Option String) :
    (index.put env fragmentId vector content agentId).Sound := by
  obtain ⟨hheld, hparts, howner, -⟩ :=
    put_spec env h.partitions fragmentId vector content agentId
  refine ⟨hparts, ?_⟩
  rw [hheld, howner]
  exact h.owned.put fragmentId vector agentId

/-! What a call can do. -/

/-- `add` raises and changes nothing, or writes a vector of the index's dimension. -/
theorem add_cases (env : IndexEnv ρ) (index : VectorIndex ρ) (fragmentId : String) (v : List ρ)
    (content : String) (agentId : Option String) :
    (∃ e, index.add env fragmentId v content agentId = (index, .error e)) ∨
      v ≠ [] ∧ (index.dim = none ∨ index.dim = some v.length) ∧
        index.add env fragmentId v content agentId =
          (put env { index with dim := some v.length } fragmentId (env.normalize v) content agentId,
            .ok ()) := by
  have hlength := env.length_normalize v
  rw [add]
  split
  · exact .inl ⟨_, rfl⟩
  · rename_i hne
    have hv : v ≠ [] := by
      rintro rfl
      exact hne (List.eq_nil_of_length_eq_zero hlength)
    split
    · rename_i hdim
      exact .inr ⟨hv, .inl hdim, by rw [hlength]⟩
    · rename_i dim hdim
      split
      · exact .inl ⟨_, rfl⟩
      · rename_i hsame
        have hdim' : index.dim = some v.length := by
          rw [hdim, ← hlength, Decidable.not_not.mp hsame]
        refine .inr ⟨hv, .inr hdim', ?_⟩
        rw [← hdim']

/-- A vector that `add` takes. -/
theorem add_takes {env : IndexEnv ρ} {index : VectorIndex ρ} {fragmentId : String} {v : List ρ}
    {content : String} {agentId : Option String}
    (hv : v.length ≠ 0) (hdim : index.dim = none ∨ index.dim = some v.length) :
    index.add env fragmentId v content agentId =
      (put env { index with dim := some v.length } fragmentId (env.normalize v) content agentId,
        .ok ()) := by
  have hlength := env.length_normalize v
  have hne : env.normalize v ≠ [] := List.ne_nil_of_length_pos (by omega)
  rw [add, if_neg hne]
  obtain hdim | hdim := hdim
  · simp only [hdim, hlength]
  · simp only [hdim, hlength, ne_eq, not_true_eq_false, if_false]
    rw [← hdim]

theorem putBlock_spec {index : VectorIndex ρ} (h : PartitionsSound index.np index.partitions)
    (howned : Owned index.held index.owner) {ids : List String} {rows : List (List ρ)}
    (hfresh : index.fresh ids = true) (hlength : rows.length = ids.length)
    (agentId : Option String) (expected : Nat) :
    let after := index.putBlock ids rows agentId expected
    after.held = index.held.set agentId
        (((index.held.get? agentId).getD .empty).updateAll (ids.zip rows)) ∧
      PartitionsSound after.np after.partitions := by
  rw [fresh, Bool.and_eq_true, Bool.and_eq_true, decide_eq_true_iff, decide_eq_true_iff] at hfresh
  obtain ⟨⟨hnp, hnew⟩, hnodup⟩ := hfresh
  obtain ⟨hsound, hnumpy, hdict⟩ := partition_getD h agentId
  obtain ⟨p, hp⟩ := hnumpy hnp
  rw [hp] at hsound hdict
  have hkeys : ∀ fragmentId ∈ ids, fragmentId ∉ p.toDict.keys := by
    intro x hx hin
    rw [show p.toDict = _ from hdict, mem_keys_getD, ← howned.owner] at hin
    exact hnew x hx (Dict.mem_keys_iff.mpr ⟨agentId, hin⟩)
  have hadd := NumpyPartition.holds_addMatrix (NumpyPartition.Sound.holds hsound) hlength hkeys
    hnodup expected
  have hput : index.putBlock ids rows agentId expected =
      { index with
        partitions := index.partitions.set agentId (.numpy (p.addMatrix ids rows expected))
        owner := index.owner.updateAll (ids.map fun fragmentId => (fragmentId, agentId))
        revision := index.revision + 1 } := by
    rw [putBlock, hp]
  rw [hput]
  constructor
  · show (Dict.set _ _ _).mapValues _ = _
    rw [Dict.mapValues_set]
    show index.held.set agentId (p.addMatrix ids rows expected).toDict = _
    rw [NumpyPartition.toDict_of_holds hadd, show p.toDict = _ from hdict]
  · exact h.set agentId hadd.toSound fun _ => ⟨_, rfl⟩

theorem Sound.putBlock {index : VectorIndex ρ} (h : index.Sound) {ids : List String}
    {rows : List (List ρ)} (hids : ids ≠ []) (hfresh : index.fresh ids = true)
    (hlength : rows.length = ids.length) (agentId : Option String) (expected : Nat) :
    (index.putBlock ids rows agentId expected).Sound := by
  obtain ⟨hheld, hparts⟩ := putBlock_spec h.partitions h.owned hfresh hlength agentId expected
  refine ⟨hparts, ?_⟩
  rw [fresh, Bool.and_eq_true, Bool.and_eq_true, decide_eq_true_iff] at hfresh
  rw [hheld]
  exact h.owned.putAll hids hlength hfresh.1.2 agentId

/-- The block path raises before it looks at the dimension, or after it has
set it, or appends the block. -/
theorem addBlock_cases (env : IndexEnv ρ) (index : VectorIndex ρ) (ids : List String)
    (embeddings : List (List ρ)) (agentId : Option String) (expected : Nat) (normalised : Bool) :
    let outcome := index.addBlock env ids embeddings agentId expected normalised
    homogeneous embeddings = false ∧ outcome = (index, .error .inhomogeneous) ∨
    homogeneous embeddings = true ∧
      (width embeddings = 0 ∨ ∃ dim, index.dim = some dim ∧ width embeddings ≠ dim) ∧
      (∃ e, outcome = ({ index with dim := some (index.dim.getD (width embeddings)) }, .error e)) ∨
    homogeneous embeddings = true ∧ width embeddings ≠ 0 ∧
      (index.dim = none ∨ index.dim = some (width embeddings)) ∧
      ∃ rows, rows.length = embeddings.length ∧
        outcome = (putBlock { index with dim := some (width embeddings) } ids rows agentId expected,
          .ok ()) := by
  intro outcome
  by_cases hhomogeneous : homogeneous embeddings = true
  · have houtcome : outcome = _ := if_neg (not_not_intro hhomogeneous)
    by_cases hzero : width embeddings = 0
    · exact .inr (.inl ⟨hhomogeneous, .inl hzero, _, houtcome.trans (if_pos hzero)⟩)
    · have hnonzero := houtcome.trans (if_neg hzero)
      by_cases hdim : width embeddings = index.dim.getD (width embeddings)
      · refine .inr (.inr ⟨hhomogeneous, hzero, ?_,
          if normalised then embeddings else embeddings.map env.normalize, ?_, ?_⟩)
        · cases hd : index.dim with
          | none => exact .inl rfl
          | some dim =>
              rw [hd, Option.getD_some] at hdim
              exact .inr (congrArg some hdim.symm)
        · split
          · rfl
          · exact List.length_map _
        · rw [← hdim] at hnonzero
          exact hnonzero.trans (if_neg (not_not_intro rfl))
      · refine .inr (.inl ⟨hhomogeneous, .inr ?_, _, hnonzero.trans (if_pos hdim)⟩)
        cases hd : index.dim with
        | none =>
            rw [hd] at hdim
            exact absurd rfl hdim
        | some dim =>
            rw [hd] at hdim
            exact ⟨dim, rfl, hdim⟩
  · have hfalse : homogeneous embeddings = false := by simpa using hhomogeneous
    exact .inl ⟨hfalse, if_pos hhomogeneous⟩

/-! Every call keeps the index in order. -/

section

variable (env : IndexEnv ρ) {index : VectorIndex ρ}

theorem Sound.withDim (h : index.Sound) (dim : Option Nat) :
    ({ index with dim := dim } : VectorIndex ρ).Sound := ⟨h.partitions, h.owned⟩

theorem Sound.promoteFor (h : index.Sound) (ids : List String) (embeddings : List (List ρ)) :
    (index.promoteFor env ids embeddings).Sound := by
  rw [VectorIndex.promoteFor]
  split
  · refine ⟨partitions_promote env h.partitions, ?_⟩
    rw [held_promote, owner_promote]
    exact h.owned
  · exact h

theorem Sound.add (h : index.Sound) (fragmentId : String) (v : List ρ) (content : String)
    (agentId : Option String) : (index.add env fragmentId v content agentId).1.Sound := by
  obtain ⟨e, he⟩ | ⟨-, -, hok⟩ := index.add_cases env fragmentId v content agentId
  · rw [he]
    exact h
  · rw [hok]
    exact (h.withDim _).put env fragmentId (env.normalize v) content agentId

theorem Sound.addEach (h : index.Sound) (agentId : Option String)
    (items : List (String × List ρ)) : (VectorIndex.addEach env agentId items index).1.Sound := by
  induction items generalizing index with
  | nil => exact h
  | cons item items ih =>
      have hadd := h.add env item.1 item.2 "" agentId
      rw [VectorIndex.addEach]
      cases hresult : index.add env item.1 item.2 "" agentId with
      | mk after outcome =>
          rw [hresult] at hadd
          cases outcome with
          | error e => exact hadd
          | ok => exact ih hadd

theorem Sound.addBlock (h : index.Sound) {ids : List String} {embeddings : List (List ρ)}
    (hids : ids ≠ []) (hfresh : index.fresh ids = true) (hlength : embeddings.length = ids.length)
    (agentId : Option String) (expected : Nat) (normalised : Bool) :
    (index.addBlock env ids embeddings agentId expected normalised).1.Sound := by
  obtain ⟨-, ho⟩ | ⟨-, -, e, ho⟩ | ⟨-, -, -, rows, hrows, ho⟩ :=
    index.addBlock_cases env ids embeddings agentId expected normalised
  · rw [ho]
    exact h
  · rw [ho]
    exact h.withDim _
  · rw [ho]
    exact (h.withDim (some (width embeddings))).putBlock hids hfresh (hrows.trans hlength) agentId
      expected

theorem Sound.addMany (h : index.Sound) (ids : List String) (embeddings : List (List ρ))
    (agentId : Option String) (expected : Nat) (normalised : Bool) :
    (index.addMany env ids embeddings agentId expected normalised).1.Sound := by
  have hstarted := h.promoteFor env ids embeddings
  rw [VectorIndex.addMany]
  split
  · exact h
  · rename_i hids
    split
    · exact h
    · rename_i hlength
      simp only
      split
      · rename_i hfresh
        exact hstarted.addBlock env hids hfresh (Decidable.not_not.mp hlength) agentId expected
          normalised
      · exact hstarted.addEach env agentId (ids.zip embeddings)

theorem held_remove (h : index.Sound) {fragmentId : String} {agentId : Option String}
    (hown : index.owner.get? fragmentId = some agentId) :
    (index.remove fragmentId).held = heldRemove index.held agentId fragmentId ∧
      (index.remove fragmentId).owner = index.owner.pop fragmentId ∧
      PartitionsSound (index.remove fragmentId).np (index.remove fragmentId).partitions := by
  let popped : VectorIndex ρ :=
    { index with
      owner := index.owner.pop fragmentId
      content := index.content.pop fragmentId }
  have hparts : PartitionsSound popped.np popped.partitions := h.partitions
  rw [VectorIndex.remove, hown]
  exact ⟨held_partitionRemove hparts agentId fragmentId,
    (popped.fields_partitionRemove agentId fragmentId).1,
    partitions_partitionRemove hparts agentId fragmentId⟩

theorem Sound.remove (h : index.Sound) (fragmentId : String) : (index.remove fragmentId).Sound := by
  cases hown : index.owner.get? fragmentId with
  | none =>
      rw [VectorIndex.remove, hown]
      exact h
  | some agentId =>
      obtain ⟨hheld, howner, hparts⟩ := held_remove h hown
      refine ⟨hparts, ?_⟩
      rw [hheld, howner]
      exact h.owned.remove hown

theorem sound_clearAll (index : VectorIndex ρ) : index.clearAll.Sound :=
  ⟨⟨by rintro r ⟨⟩, by rintro - r ⟨⟩⟩, owned_empty⟩

theorem Sound.clear (h : index.Sound) (agentId : String) : (index.clear agentId).Sound := by
  rw [VectorIndex.clear]
  cases hq : index.partitions.get? (some agentId) with
  | none => exact ⟨h.partitions, h.owned⟩
  | some q =>
      refine ⟨h.partitions.pop (some agentId), ?_⟩
      have hget : index.held.get? (some agentId) = some q.toDict := by
        rw [held_get?, hq]
        rfl
      show Owned ((index.partitions.pop (some agentId)).mapValues _)
        (q.ids.foldl Dict.pop index.owner)
      rw [Dict.mapValues_pop, Partition.ids_eq]
      exact h.owned.clear hget

end

end VectorIndex

end MarkSdk
