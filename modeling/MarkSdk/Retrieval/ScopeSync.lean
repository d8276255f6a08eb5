import Mathlib.Data.Finset.Sort
import Mathlib.Data.String.Basic
import MarkSdk.Store.ScopeIds
import MarkSdk.Index.Failures

/-!
Bringing the index to a new scope by its delta.

`sync_delta` trusts that the agent's partition still equals the last scope:
it takes out the removed ids, loads the added ones and compares numbers. The
partition may have been changed behind its back, and what it lost and what it
got may balance (`Balanced`).
-/

namespace MarkSdk

open Lib

variable {ρ : Type}

/-- What the pipeline calls: the store's vectors and contents, the embedder
(`none` while it is down; another failure is raised) for each batch, and the
order in which a frozenset is iterated. -/
structure SyncHost (ρ : Type) where
  storedEmbeddings : String → Option (List ρ)
  contents : String → Option String
  embedderDim : Option Nat
  embedBatch : Nat → List String → Except String (Option (List (List ρ)))
  order : Finset String → List String
  mem_order : ∀ s x, x ∈ order s ↔ x ∈ s

/-- An entry of `_synced`; `inSync` says that the result was the scope itself. -/
structure Synced where
  scope : ScopeIds String
  revision : Nat
  inSync : Bool

namespace SyncHost

variable (env : IndexEnv ρ) (host : SyncHost ρ) (agentId : String)

/-- The stored vector, if it is one of the embedder's dimension. -/
def usable (fragmentId : String) : Option (List ρ) :=
  (host.storedEmbeddings fragmentId).filter fun vector =>
    !vector.isEmpty && host.embedderDim.all fun dim => vector.length = dim

/-- `index_each`: the ids that are left to embed. -/
def indexEach : List String → VectorIndex ρ → VectorIndex ρ × Except IndexError (List String)
  | [], index => (index, .ok [])
  | fragmentId :: missing, index =>
      match host.usable fragmentId with
      | some vector =>
          match index.add env fragmentId vector "" (some agentId) with
          | (index, .error e) => (index, .error e)
          | (index, .ok ()) => indexEach missing index
      | none =>
          match indexEach missing index with
          | (index, .error e) => (index, .error e)
          | (index, .ok toEmbed) => (index, .ok (fragmentId :: toEmbed))

def indexBatch : List ((String × String) × List ρ) → VectorIndex ρ →
    VectorIndex ρ × Except IndexError Unit
  | [], index => (index, .ok ())
  | ((fragmentId, content), vector) :: batch, index =>
      match index.add env fragmentId vector content (some agentId) with
      | (index, .error e) => (index, .error e)
      | (index, .ok ()) => indexBatch batch index

/-- `fragment_ids[start:start + 64]` for each `start`. -/
def batches (ids : List String) : List (List String) :=
  (List.range ((ids.length + 63) / 64)).map fun k => (ids.drop (64 * k)).take 64

def ordered (chunk : List String) : List (String × String) :=
  chunk.filterMap fun fragmentId =>
    (host.contents fragmentId).map fun content => (fragmentId, content)

/-- The loop of `_embed_and_index`, at batch `k`; it ends when the embedder is down. -/
def embedAndIndex : Nat → List (List String) → VectorIndex ρ →
    VectorIndex ρ × Except IndexError Unit
  | _, [], index => (index, .ok ())
  | k, chunk :: chunks, index =>
      if host.ordered chunk = [] then embedAndIndex (k + 1) chunks index
      else
        match host.embedBatch k ((host.ordered chunk).map Prod.snd) with
        | .error message => (index, .error (.embedder message))
        | .ok none => (index, .ok ())
        | .ok (some vectors) =>
            match indexBatch env agentId ((host.ordered chunk).zip vectors) index with
            | (index, .error e) => (index, .error e)
            | (index, .ok ()) => embedAndIndex (k + 1) chunks index

/-- The missing ids from their stored vectors, the others from the embedder. -/
def loadAdded (missing : Finset String) (index : VectorIndex ρ) :
    VectorIndex ρ × Except IndexError Unit :=
  if missing = ∅ then (index, .ok ())
  else
    match host.indexEach env agentId (host.order missing) index with
    | (index, .error e) => (index, .error e)
    | (index, .ok toEmbed) => host.embedAndIndex env agentId 0 (batches toEmbed) index

/-- The delta of the last scope applies to `allowed`. -/
def applies (last : Synced) (allowed : ScopeIds String) : Bool :=
  last.inSync && decide (allowed.parent = some last.scope.token)

/-- `sync_delta`; `none` falls back to the full comparison. -/
def syncDelta (index : VectorIndex ρ) (last : Option Synced) (allowed : ScopeIds String) :
    VectorIndex ρ × Except IndexError (Option Synced) :=
  match last with
  | none => (index, .ok none)
  | some last =>
      if ¬ applies last allowed then (index, .ok none)
      else
        let index := (host.order allowed.removed).foldl VectorIndex.remove index
        match host.loadAdded env agentId (index.missing allowed.added (some agentId)) index with
        | (index, .error e) => (index, .error e)
        | (index, .ok ()) =>
            if (index.count (some agentId) : Int) ≠ allowed.len ∨
                index.missing allowed.added (some agentId) ≠ ∅ then
              (index, .ok none)
            else (index, .ok (some ⟨allowed, index.revision, true⟩))

end SyncHost

/-! ### The ids of a partition -/

namespace VectorIndex

def partitionIds (index : VectorIndex ρ) (agentId : String) : Finset String :=
  (((index.partitions.get? (some agentId)).map Partition.ids).getD []).toFinset

variable {index : VectorIndex ρ} {agentId : String}

theorem mem_partitionIds {x : String} :
    x ∈ index.partitionIds agentId ↔ Has index.held (some agentId) x := by
  rw [partitionIds, Has, held_get?, List.mem_toFinset]
  cases index.partitions.get? (some agentId) with
  | none => simp
  | some q => simp [Partition.ids_eq]

theorem count_eq_card (index : VectorIndex ρ) (agentId : String) :
    index.count (some agentId) = (index.partitionIds agentId).card := by
  rw [count, partitionIds]
  cases index.partitions.get? (some agentId) with
  | none => rfl
  | some q =>
      have hnodup : q.ids.Nodup := by
        rw [Partition.ids_eq]
        exact q.toDict.nodup_keys
      show q.size = q.ids.toFinset.card
      rw [List.toFinset_card_of_nodup hnodup, Partition.size_eq, Partition.ids_eq, Dict.keys,
        List.length_map]
      rfl

theorem missing_eq (index : VectorIndex ρ) (ids : Finset String) (agentId : String) :
    index.missing ids (some agentId) = ids \ index.partitionIds agentId := rfl

theorem partitionIds_remove (h : index.Sound) (x : String) :
    (index.remove x).partitionIds agentId = (index.partitionIds agentId).erase x := by
  ext y
  rw [Finset.mem_erase, mem_partitionIds, mem_partitionIds]
  cases hown : index.owner.get? x with
  | none =>
      rw [remove, hown]
      refine ⟨fun hy => ⟨?_, hy⟩, fun hy => hy.2⟩
      rintro rfl
      rw [← h.owned.owner, hown] at hy
      cases hy
  | some owner =>
      rw [(held_remove h hown).1, has_heldRemove]
      constructor
      · rintro ⟨hy, hne⟩
        refine ⟨?_, hy⟩
        rintro rfl
        -- the id is its owner's alone
        rw [← h.owned.owner, hown] at hy
        exact hne ⟨(Option.some.inj hy).symm, rfl⟩
      · rintro ⟨hne, hy⟩
        exact ⟨hy, fun heq => hne heq.2⟩

theorem foldl_remove (h : index.Sound) (ids : List String) :
    (ids.foldl remove index).Sound ∧
      (ids.foldl remove index).partitionIds agentId =
        index.partitionIds agentId \ ids.toFinset := by
  induction ids generalizing index with
  | nil => exact ⟨h, by simp⟩
  | cons x ids ih =>
      obtain ⟨hsound, hids⟩ := ih (h.remove x)
      refine ⟨hsound, ?_⟩
      rw [List.foldl_cons, hids, partitionIds_remove h]
      ext y
      simp only [Finset.mem_sdiff, Finset.mem_erase, List.toFinset_cons, Finset.mem_insert]
      grind

/-- Adding under the agent takes nothing from the agent's partition. -/
theorem partitionIds_add (env : IndexEnv ρ) (h : index.Sound) {x : String} {v : List ρ}
    {content : String} (hok : (index.add env x v content (some agentId)).2 = .ok ()) :
    (index.add env x v content (some agentId)).1.partitionIds agentId =
      insert x (index.partitionIds agentId) := by
  obtain ⟨e, he⟩ | ⟨-, -, hadd⟩ := index.add_cases env x v content (some agentId)
  · rw [he] at hok
    cases hok
  · have hheld := (put_spec env (h.withDim (some v.length)).partitions x (env.normalize v) content
      (some agentId)).1
    ext y
    rw [hadd, mem_partitionIds, hheld, Finset.mem_insert, mem_partitionIds, heldPut, has_set,
      if_pos rfl, Dict.mem_keys_set, mem_keys_getD, or_comm]
    refine or_congr_right ?_
    show Has (heldLeave index.held index.owner x (some agentId)) (some agentId) y ↔ _
    rw [heldLeave]
    split
    · rename_i hleaves
      rw [has_heldRemove]
      exact ⟨fun hy => hy.1, fun hy => ⟨hy, fun heq => hleaves.2 heq.1.symm⟩⟩
    · rfl

end VectorIndex

/-! ### What an index takes -/

namespace VectorIndex

/-- An index of this dimension takes the vectors, one after the other. -/
def Fits (dim : Option Nat) (vectors : List (List ρ)) : Prop :=
  ∃ d, (dim = none ∨ dim = some d) ∧ ∀ v ∈ vectors, v.length ≠ 0 ∧ v.length = d

theorem fits_nil (dim : Option Nat) : Fits dim ([] : List (List ρ)) := by
  refine ⟨dim.getD 0, ?_, fun v hv => absurd hv List.not_mem_nil⟩
  cases dim with
  | none => exact .inl rfl
  | some d => exact .inr rfl

theorem fits_cons {dim : Option Nat} {v : List ρ} {vectors : List (List ρ)} :
    Fits dim (v :: vectors) ↔
      (v.length ≠ 0 ∧ (dim = none ∨ dim = some v.length)) ∧ Fits (some v.length) vectors := by
  constructor
  · rintro ⟨d, hdim, hall⟩
    obtain ⟨hne, rfl⟩ := hall v List.mem_cons_self
    exact ⟨⟨hne, hdim⟩, v.length, .inr rfl, fun w hw => hall w (List.mem_cons_of_mem v hw)⟩
  · rintro ⟨⟨hne, hdim⟩, d, hd, hall⟩
    obtain rfl : v.length = d := by simpa using hd
    exact ⟨v.length, hdim, List.forall_mem_cons.mpr ⟨⟨hne, rfl⟩, hall⟩⟩

theorem Fits.of_append {dim : Option Nat} {vectors more : List (List ρ)}
    (h : Fits dim (vectors ++ more)) : Fits dim vectors := by
  obtain ⟨d, hdim, hall⟩ := h
  exact ⟨d, hdim, fun v hv => hall v (List.mem_append_left more hv)⟩

/-- The dimension of the index without the ids: the last one takes it along. -/
def dimWithout (index : VectorIndex ρ) (ids : Finset String) : Option Nat :=
  if (∃ x ∈ ids, x ∈ index.owner.keys) ∧ ∀ x ∈ index.owner.keys, x ∈ ids then none else index.dim

theorem dimWithout_remove (index : VectorIndex ρ) (x : String) (ids : Finset String) :
    (index.remove x).dimWithout ids = index.dimWithout (insert x ids) := by
  cases hown : index.owner.get? x with
  | none =>
      have hx : x ∉ index.owner.keys := Dict.get?_eq_none_iff.mp hown
      rw [remove, hown, dimWithout, dimWithout]
      refine if_congr ?_ rfl rfl
      simp only [Finset.mem_insert]
      grind
  | some owner =>
      obtain ⟨howner, -, hdim⟩ := fields_remove hown
      have hkeys (y : String) : y ∈ (index.remove x).owner.keys ↔
          y ∈ index.owner.keys ∧ y ≠ x := by
        rw [howner, Dict.keys_pop, List.mem_filter, decide_eq_true_iff]
      have hx : x ∈ index.owner.keys := Dict.mem_keys_iff.mpr ⟨owner, hown⟩
      have hsize : (index.remove x).owner.size = 0 ↔ (index.remove x).owner.keys = [] := by
        rw [Dict.size, Dict.keys, List.map_eq_nil_iff, List.length_eq_zero_iff]
      simp only [← howner, hsize] at hdim
      by_cases hall : ∀ y ∈ index.owner.keys, y ∈ insert x ids
      · -- nothing is left
        have hnone : index.dimWithout (insert x ids) = none :=
          if_pos ⟨⟨x, Finset.mem_insert_self x ids, hx⟩, hall⟩
        rw [hnone, dimWithout, hdim]
        split
        · rfl
        · rename_i hsome
          have hrest : ∀ y ∈ (index.remove x).owner.keys, y ∈ ids := by
            intro y hy
            obtain ⟨hy, hne⟩ := (hkeys y).mp hy
            exact Finset.mem_of_mem_insert_of_ne (hall y hy) hne
          exact if_pos (List.eq_nil_iff_forall_not_mem.mpr fun y hy =>
            hsome ⟨⟨y, hrest y hy, hy⟩, hrest⟩)
      · have hsame : index.dimWithout (insert x ids) = index.dim := if_neg fun h => hall h.2
        push Not at hall
        obtain ⟨y, hy, hout⟩ := hall
        rw [Finset.mem_insert, not_or] at hout
        have hleft : y ∈ (index.remove x).owner.keys := (hkeys y).mpr ⟨hy, hout.1⟩
        rw [hsame, dimWithout, hdim, if_neg fun h => hout.2 (h.2 y hleft),
          if_neg (List.ne_nil_of_mem hleft)]

theorem dim_foldl_remove (index : VectorIndex ρ) (ids : List String) :
    (ids.foldl remove index).dim = index.dimWithout ids.toFinset := by
  induction ids generalizing index with
  | nil => simp [dimWithout]
  | cons x ids ih => rw [List.foldl_cons, ih, dimWithout_remove, List.toFinset_cons]

end VectorIndex

open VectorIndex (Fits)

/-! ### What the loading adds -/

/-- The vectors have arrived under the agent. -/
structure Taken (agentId : String) (index after : VectorIndex ρ)
    (arrived : List (String × List ρ)) : Prop where
  sound : after.Sound
  ids : after.partitionIds agentId =
    index.partitionIds agentId ∪ (arrived.map Prod.fst).toFinset
  fits : ∀ vectors, Fits after.dim vectors ↔ Fits index.dim (arrived.map Prod.snd ++ vectors)

/-- The vectors arrive if they fit, and otherwise it raises. -/
def Loading {α : Type} (agentId : String) (index : VectorIndex ρ)
    (result : VectorIndex ρ × Except IndexError α) (a : α) (arrived : List (String × List ρ)) :
    Prop :=
  Fits index.dim (arrived.map Prod.snd) ∧ result.2 = .ok a ∧
      Taken agentId index result.1 arrived ∨
    ¬ Fits index.dim (arrived.map Prod.snd) ∧ ∃ e, result.2 = .error e

section Loading

variable {agentId : String} {index middle after : VectorIndex ρ}
  {arrived more : List (String × List ρ)}

theorem Taken.refl (h : index.Sound) : Taken agentId index index [] where
  sound := h
  ids := by simp
  fits := fun _ => Iff.rfl

theorem Taken.trans (h : Taken agentId index middle arrived)
    (h' : Taken agentId middle after more) : Taken agentId index after (arrived ++ more) where
  sound := h'.sound
  ids := by rw [h'.ids, h.ids, List.map_append, List.toFinset_append, Finset.union_assoc]
  fits := fun vectors => by
    rw [h'.fits, h.fits, List.map_append, List.append_assoc]

theorem taken_add (env : IndexEnv ρ) (h : index.Sound) (x : String) {v : List ρ} (content : String)
    (hfits : v.length ≠ 0 ∧ (index.dim = none ∨ index.dim = some v.length)) :
    Taken agentId index (index.add env x v content (some agentId)).1 [(x, v)] where
  sound := h.add env x v content (some agentId)
  ids := by
    rw [VectorIndex.partitionIds_add env h (by rw [VectorIndex.add_takes hfits.1 hfits.2])]
    rw [Finset.insert_eq, Finset.union_comm]
    rfl
  fits := fun vectors => by
    have hput := VectorIndex.put_spec env (h.withDim (some v.length)).partitions x
      (env.normalize v) content (some agentId)
    rw [VectorIndex.add_takes hfits.1 hfits.2, hput.2.2.2]
    show Fits (some v.length) vectors ↔ Fits index.dim (v :: vectors)
    rw [VectorIndex.fits_cons]
    exact (and_iff_right hfits).symm

section

variable {α : Type} {result : VectorIndex ρ × Except IndexError α} {a : α}

theorem Loading.nothing (h : index.Sound) (a : α) :
    Loading agentId index (index, .ok a) a [] :=
  .inl ⟨VectorIndex.fits_nil index.dim, rfl, .refl h⟩

theorem Loading.behind (ht : Taken agentId index middle arrived)
    (h : Loading agentId middle result a more) :
    Loading agentId index result a (arrived ++ more) := by
  rcases h with ⟨hfits, hok, htaken⟩ | ⟨hfits, herror⟩
  · refine .inl ⟨?_, hok, ht.trans htaken⟩
    rw [List.map_append]
    exact (ht.fits _).mp hfits
  · refine .inr ⟨fun hall => hfits ((ht.fits _).mpr ?_), herror⟩
    rwa [List.map_append] at hall

theorem Loading.refused (h : ¬ Fits index.dim (arrived.map Prod.snd))
    (herror : ∃ e, result.2 = .error e) : Loading agentId index result a (arrived ++ more) := by
  refine .inr ⟨fun hall => h ?_, herror⟩
  rw [List.map_append] at hall
  exact hall.of_append

/-- One vector, and then the rest. -/
theorem loading_add {env : IndexEnv ρ}
    {next : VectorIndex ρ → VectorIndex ρ × Except IndexError α} (h : index.Sound) (x : String)
    (v : List ρ) (content : String)
    (hnext : ∀ middle : VectorIndex ρ, middle.Sound → Loading agentId middle (next middle) a more) :
    Loading agentId index
      (match index.add env x v content (some agentId) with
      | (index, .error e) => (index, .error e)
      | (index, .ok ()) => next index) a ([(x, v)] ++ more) := by
  by_cases hfits : v.length ≠ 0 ∧ (index.dim = none ∨ index.dim = some v.length)
  · have htaken := @taken_add ρ agentId index env h x v content hfits
    rw [VectorIndex.add_takes hfits.1 hfits.2] at htaken ⊢
    exact (hnext _ htaken.sound).behind htaken
  · obtain ⟨e, herror⟩ | ⟨hne, hdim, -⟩ := index.add_cases env x v content (some agentId)
    · rw [herror]
      exact .refused (fun hall => hfits (VectorIndex.fits_cons.mp hall).1) ⟨e, rfl⟩
    · exact absurd ⟨fun hzero => hne (List.eq_nil_of_length_eq_zero hzero), hdim⟩ hfits

end

end Loading

namespace SyncHost

section

variable (host : SyncHost ρ)

def stored (ids : List String) : List (String × List ρ) :=
  ids.filterMap fun x => (host.usable x).map fun vector => (x, vector)

def unstored (ids : List String) : List String := ids.filter fun x => (host.usable x).isNone

/-- What the embedder makes of the batches until it is down, `none` when it
raises. -/
def embedded : Nat → List (List String) → Option (List (String × List ρ))
  | _, [] => some []
  | k, chunk :: chunks =>
      if host.ordered chunk = [] then embedded (k + 1) chunks
      else
        match host.embedBatch k ((host.ordered chunk).map Prod.snd) with
        | .error _ => none
        | .ok none => some []
        | .ok (some vectors) =>
            (embedded (k + 1) chunks).map
              ((((host.ordered chunk).map Prod.fst).zip vectors) ++ ·)

end

variable {env : IndexEnv ρ} {host : SyncHost ρ} {agentId : String} {index : VectorIndex ρ}

theorem loading_indexEach (h : index.Sound) (ids : List String) :
    Loading agentId index (host.indexEach env agentId ids index) (host.unstored ids)
      (host.stored ids) := by
  induction ids generalizing index with
  | nil => exact Loading.nothing h _
  | cons x ids ih =>
      rw [indexEach]
      cases husable : host.usable x with
      | none =>
          have hrest := ih h
          have hstored : host.stored (x :: ids) = host.stored ids := by simp [stored, husable]
          have hunstored : host.unstored (x :: ids) = x :: host.unstored ids := by
            simp [unstored, husable]
          rw [hstored, hunstored]
          cases hload : host.indexEach env agentId ids index with
          | mk after outcome =>
              rw [hload] at hrest
              rcases hrest with ⟨hfits, rfl, htaken⟩ | ⟨hfits, e, rfl⟩
              · exact .inl ⟨hfits, rfl, htaken⟩
              · exact .inr ⟨hfits, e, rfl⟩
      | some v =>
          have hstored : host.stored (x :: ids) = [(x, v)] ++ host.stored ids := by
            simp [stored, husable]
          have hunstored : host.unstored (x :: ids) = host.unstored ids := by
            simp [unstored, husable]
          rw [hstored, hunstored]
          exact loading_add h x v "" fun _ hsound => ih hsound

theorem loading_indexBatch (h : index.Sound) (batch : List ((String × String) × List ρ)) :
    Loading agentId index (indexBatch env agentId batch index) ()
      (batch.map fun p => (p.1.1, p.2)) := by
  induction batch generalizing index with
  | nil => exact Loading.nothing h _
  | cons p batch ih =>
      obtain ⟨⟨x, content⟩, v⟩ := p
      rw [indexBatch]
      show Loading agentId index _ () ([(x, v)] ++ batch.map fun p => (p.1.1, p.2))
      exact loading_add h x v content fun _ hsound => ih hsound

/-- With what the embedder gives, if it does not raise. -/
def LoadingWith (agentId : String) (index : VectorIndex ρ)
    (result : VectorIndex ρ × Except IndexError Unit)
    (arrived : Option (List (String × List ρ))) : Prop :=
  match arrived with
  | some arrived => Loading agentId index result () arrived
  | none => ∃ e, result.2 = .error e

theorem loading_embedAndIndex (h : index.Sound) (k : Nat) (chunks : List (List String)) :
    LoadingWith agentId index (host.embedAndIndex env agentId k chunks index)
      (host.embedded k chunks) := by
  induction chunks generalizing index k with
  | nil => exact Loading.nothing h _
  | cons chunk chunks ih =>
      rw [embedAndIndex, embedded]
      split
      · exact ih h (k + 1)
      · rcases host.embedBatch k ((host.ordered chunk).map Prod.snd) with message | _ | vectors
        · exact ⟨_, rfl⟩
        · exact Loading.nothing h _
        · have hbatch := @loading_indexBatch _ env agentId index h ((host.ordered chunk).zip vectors)
          have hids : ((host.ordered chunk).zip vectors).map (fun p => (p.1.1, p.2)) =
              ((host.ordered chunk).map Prod.fst).zip vectors := by
            rw [List.zip_map_left]
            rfl
          rw [hids] at hbatch
          simp only
          cases hresult : indexBatch env agentId ((host.ordered chunk).zip vectors) index with
          | mk middle outcome =>
              rw [hresult] at hbatch
              rcases hbatch with ⟨-, rfl, htaken⟩ | ⟨hfits, e, rfl⟩
              · have hrest := ih htaken.sound (k + 1)
                cases hmore : host.embedded (k + 1) chunks with
                | none =>
                    rw [hmore] at hrest
                    exact hrest
                | some more =>
                    rw [hmore] at hrest
                    exact hrest.behind htaken
              · cases host.embedded (k + 1) chunks with
                | none => exact ⟨e, rfl⟩
                | some more => exact .refused hfits ⟨e, rfl⟩

theorem mem_batches {ids chunk : List String} (hchunk : chunk ∈ batches ids) {x : String}
    (hx : x ∈ chunk) : x ∈ ids := by
  obtain ⟨k, -, rfl⟩ := List.mem_map.mp hchunk
  exact List.mem_of_mem_drop (List.mem_of_mem_take hx)

theorem mem_of_embedded {k : Nat} {chunks : List (List String)} {arrived : List (String × List ρ)}
    (h : host.embedded k chunks = some arrived) {x : String} (hx : x ∈ arrived.map Prod.fst) :
    ∃ chunk ∈ chunks, x ∈ chunk := by
  induction chunks generalizing k arrived with
  | nil =>
      cases h
      cases hx
  | cons chunk chunks ih =>
      rw [embedded] at h
      split at h
      · obtain ⟨c, hc, hx⟩ := ih h hx
        exact ⟨c, List.mem_cons_of_mem chunk hc, hx⟩
      · split at h
        · cases h
        · cases h
          cases hx
        · obtain ⟨more, hmore, rfl⟩ := Option.map_eq_some_iff.mp h
          rw [List.map_append, List.mem_append] at hx
          rcases hx with hx | hx
          · obtain ⟨⟨y, v⟩, hp, rfl⟩ := List.mem_map.mp hx
            obtain ⟨q, hq, rfl⟩ := List.mem_map.mp (List.of_mem_zip hp).1
            obtain ⟨y, hy, hcontent⟩ := List.mem_filterMap.mp hq
            obtain ⟨content, -, rfl⟩ := Option.map_eq_some_iff.mp hcontent
            exact ⟨chunk, List.mem_cons_self, hy⟩
          · obtain ⟨c, hc, hx⟩ := ih hmore hx
            exact ⟨c, List.mem_cons_of_mem chunk hc, hx⟩

/-- What arrives for the ids: the stored vectors, and then the embedded ones. -/
def arriving (host : SyncHost ρ) (ids : List String) : Option (List (String × List ρ)) :=
  (host.embedded 0 (batches (host.unstored ids))).map (host.stored ids ++ ·)

theorem mem_of_arriving {ids : List String} {arrived : List (String × List ρ)}
    (h : host.arriving ids = some arrived) {x : String} (hx : x ∈ arrived.map Prod.fst) :
    x ∈ ids := by
  obtain ⟨more, hmore, rfl⟩ := Option.map_eq_some_iff.mp h
  rw [List.map_append, List.mem_append] at hx
  rcases hx with hx | hx
  · obtain ⟨⟨y, v⟩, hp, rfl⟩ := List.mem_map.mp hx
    obtain ⟨y, hy, hstored⟩ := List.mem_filterMap.mp hp
    obtain ⟨v, -, heq⟩ := Option.map_eq_some_iff.mp hstored
    cases heq
    exact hy
  · obtain ⟨chunk, hchunk, hx⟩ := mem_of_embedded hmore hx
    exact (List.mem_filter.mp (mem_batches hchunk hx)).1

theorem loading_loadAdded (h : index.Sound) (missing : Finset String) :
    LoadingWith agentId index (host.loadAdded env agentId missing index)
      (host.arriving (host.order missing)) := by
  rw [loadAdded, arriving]
  split
  · rename_i hempty
    have hnone : host.order missing = [] := by
      rw [List.eq_nil_iff_forall_not_mem]
      intro x hx
      rw [host.mem_order, hempty] at hx
      cases hx
    have hnothing : (host.embedded 0 (batches (host.unstored []))).map (host.stored [] ++ ·) =
        some [] := by
      simp [unstored, batches, embedded, stored]
    rw [hnone, hnothing]
    exact Loading.nothing h ()
  · have heach := @loading_indexEach _ env host agentId index h (host.order missing)
    cases hload : host.indexEach env agentId (host.order missing) index with
    | mk middle outcome =>
        rw [hload] at heach
        rcases heach with ⟨-, rfl, htaken⟩ | ⟨hfits, e, rfl⟩
        · have hrest := @loading_embedAndIndex _ env host agentId middle htaken.sound 0
            (batches (host.unstored (host.order missing)))
          cases hmore : host.embedded 0 (batches (host.unstored (host.order missing))) with
          | none =>
              rw [hmore] at hrest
              exact hrest
          | some more =>
              rw [hmore] at hrest
              exact hrest.behind htaken
        · cases host.embedded 0 (batches (host.unstored (host.order missing))) with
          | none => exact ⟨e, rfl⟩
          | some more => exact .refused hfits ⟨e, rfl⟩

end SyncHost

/-! ### When the numbers mislead -/

section

variable {scope allowed ids : Finset String}

/-- The ids of the last scope that are still allowed and no longer held. -/
def lostIds (scope allowed ids : Finset String) : Finset String := (scope ∩ allowed) \ ids

/-- The ids held that are in neither scope. -/
def strayIds (scope allowed ids : Finset String) : Finset String := ids \ (scope ∪ allowed)

/-- The partition after the delta. -/
def movedIds (scope allowed ids : Finset String) : Finset String :=
  (ids \ (scope \ allowed)) ∪ (allowed \ scope)

/-- What is lost and what is stray is the difference in size. -/
theorem card_movedIds (scope allowed ids : Finset String) :
    (movedIds scope allowed ids).card + (lostIds scope allowed ids).card =
      allowed.card + (strayIds scope allowed ids).card := by
  have hmoved : movedIds scope allowed ids =
      ((scope ∩ allowed ∩ ids) ∪ (allowed \ scope)) ∪ strayIds scope allowed ids := by
    ext x
    simp only [movedIds, strayIds, Finset.mem_union, Finset.mem_inter, Finset.mem_sdiff]
    grind
  have hallowed : allowed =
      ((scope ∩ allowed ∩ ids) ∪ (allowed \ scope)) ∪ lostIds scope allowed ids := by
    ext x
    simp only [lostIds, Finset.mem_union, Finset.mem_inter, Finset.mem_sdiff]
    grind
  have hstray : Disjoint ((scope ∩ allowed ∩ ids) ∪ (allowed \ scope))
      (strayIds scope allowed ids) := by
    rw [Finset.disjoint_left]
    intro x
    simp only [strayIds, Finset.mem_union, Finset.mem_inter, Finset.mem_sdiff]
    grind
  have hlost : Disjoint ((scope ∩ allowed ∩ ids) ∪ (allowed \ scope))
      (lostIds scope allowed ids) := by
    rw [Finset.disjoint_left]
    intro x
    simp only [lostIds, Finset.mem_union, Finset.mem_inter, Finset.mem_sdiff]
    grind
  have hcard := congrArg Finset.card hallowed
  rw [Finset.card_union_of_disjoint hlost] at hcard
  rw [hmoved, Finset.card_union_of_disjoint hstray]
  omega

theorem movedIds_eq_iff :
    movedIds scope allowed ids = allowed ↔
      lostIds scope allowed ids = ∅ ∧ strayIds scope allowed ids = ∅ := by
  rw [Finset.ext_iff, Finset.eq_empty_iff_forall_notMem, Finset.eq_empty_iff_forall_notMem,
    ← forall_and]
  refine forall_congr' fun x => ?_
  simp only [movedIds, lostIds, strayIds, Finset.mem_union, Finset.mem_inter, Finset.mem_sdiff]
  grind

end

namespace SyncHost

variable (env : IndexEnv ρ) (host : SyncHost ρ) (agentId : String)

/-- The index after the removed ids are gone and the missing ones loaded. -/
def loaded (index : VectorIndex ρ) (allowed : ScopeIds String) :
    VectorIndex ρ × Except IndexError Unit :=
  let index := (host.order allowed.removed).foldl VectorIndex.remove index
  host.loadAdded env agentId (index.missing allowed.added (some agentId)) index

/-- The ids that are to be loaded, in the order of the set. -/
def wanted (index : VectorIndex ρ) (allowed : ScopeIds String) : List String :=
  host.order (allowed.added \ (index.partitionIds agentId \ allowed.removed))

/-- The added ids that the partition lacks have a usable vector in the store or
get one from the embedder, which does not raise, and the vectors are of one
dimension, that of the index. -/
def Loads (index : VectorIndex ρ) (allowed : ScopeIds String) : Prop :=
  ∃ arrived ∈ host.arriving (host.wanted agentId index allowed),
    Fits (index.dimWithout allowed.removed) (arrived.map Prod.snd) ∧
      ∀ x ∈ host.wanted agentId index allowed, x ∈ arrived.map Prod.fst

/-- The delta applies and can be loaded, and as many ids of the last scope
were lost as ids that no scope has were put in. -/
def Balanced (index : VectorIndex ρ) (last : Option Synced) (allowed : ScopeIds String) : Prop :=
  ∃ entry ∈ last, applies entry allowed = true ∧ host.Loads agentId index allowed ∧
    (lostIds entry.scope.toFinset allowed.toFinset (index.partitionIds agentId)).card ≠ 0 ∧
    (lostIds entry.scope.toFinset allowed.toFinset (index.partitionIds agentId)).card =
      (strayIds entry.scope.toFinset allowed.toFinset (index.partitionIds agentId)).card

variable {env host agentId} {index : VectorIndex ρ}

/-- The one scope with the parent's token is the last one. -/
theorem delta_of_applies {w : Twin String} (hw : w.Refines) {last : Synced}
    {allowed : ScopeIds String} (hlast : last.scope ∈ w.process.scopes)
    (hallowed : allowed ∈ w.process.scopes) (happlies : applies last allowed = true) :
    allowed.added = allowed.toFinset \ last.scope.toFinset ∧
      allowed.removed = last.scope.toFinset \ allowed.toFinset := by
  rw [applies, Bool.and_eq_true, decide_eq_true_iff] at happlies
  have hlineage := hw.lineage allowed hallowed
  rw [ScopeIds.Lineage, happlies.2] at hlineage
  obtain ⟨q, hq, htoken, hadded, hremoved⟩ := hlineage
  rw [List.inj_on_of_nodup_map hw.token_nodup hq hlast htoken] at hadded hremoved
  exact ⟨hadded, hremoved⟩

/-- All that a report says. -/
theorem syncDelta_eq_some_iff {last : Synced} {allowed : ScopeIds String} {after : VectorIndex ρ}
    {entry : Synced} :
    host.syncDelta env agentId index (some last) allowed = (after, .ok (some entry)) ↔
      applies last allowed = true ∧ host.loaded env agentId index allowed = (after, .ok ()) ∧
        (after.count (some agentId) : Int) = allowed.len ∧
        after.missing allowed.added (some agentId) = ∅ ∧
        entry = ⟨allowed, after.revision, true⟩ := by
  rw [syncDelta, loaded]
  by_cases happlies : applies last allowed = true
  · rw [if_neg (not_not_intro happlies)]
    simp only
    split
    · rename_i reached e hload
      rw [hload]
      exact ⟨fun h => (by cases h), fun h => (by cases h.2.1)⟩
    · rename_i reached hload
      rw [hload]
      split
      · rename_i hbad
        refine ⟨fun h => (by cases h), fun h => ?_⟩
        obtain ⟨-, hsame, hcount, hmissing, -⟩ := h
        cases hsame
        exact absurd hbad (not_or.mpr ⟨not_not_intro hcount, not_not_intro hmissing⟩)
      · rename_i hgood
        rw [not_or, not_not, not_not] at hgood
        constructor
        · intro h
          cases h
          exact ⟨happlies, rfl, hgood.1, hgood.2, rfl⟩
        · rintro ⟨-, hsame, -, -, rfl⟩
          cases hsame
          rfl
  · rw [if_pos happlies]
    exact ⟨fun h => (by cases h), fun h => absurd h.1 happlies⟩

/-- The loading starts from the index without the removed ids. -/
theorem loaded_spec (h : index.Sound) (allowed : ScopeIds String) :
    ∃ base : VectorIndex ρ,
      base.partitionIds agentId = index.partitionIds agentId \ allowed.removed ∧
        base.dim = index.dimWithout allowed.removed ∧
          LoadingWith agentId base (host.loaded env agentId index allowed)
            (host.arriving (host.wanted agentId index allowed)) := by
  have horder : (host.order allowed.removed).toFinset = allowed.removed := by
    ext x
    rw [List.mem_toFinset, host.mem_order]
  obtain ⟨hsound, hids⟩ : (List.foldl VectorIndex.remove index _).Sound ∧
      (List.foldl VectorIndex.remove index _).partitionIds agentId = _ :=
    VectorIndex.foldl_remove h (host.order allowed.removed)
  have hdim := index.dim_foldl_remove (host.order allowed.removed)
  rw [horder] at hids hdim
  refine ⟨_, hids, hdim, ?_⟩
  rw [loaded, wanted, ← hids, ← VectorIndex.missing_eq]
  exact loading_loadAdded hsound _

/-- The loading succeeds and brings all the added ids exactly if the store and
the embedder have fitting vectors for them. -/
theorem loaded_iff (h : index.Sound) (allowed : ScopeIds String) :
    (host.loaded env agentId index allowed).2 = .ok () ∧
        allowed.added ⊆ (host.loaded env agentId index allowed).1.partitionIds agentId ↔
      host.Loads agentId index allowed := by
  obtain ⟨base, hids, hdim, hload⟩ := @loaded_spec _ env host agentId index h allowed
  rw [Loads, ← hdim]
  cases harrives : host.arriving (host.wanted agentId index allowed) with
  | none =>
      rw [harrives] at hload
      obtain ⟨e, herror⟩ := hload
      rw [herror]
      exact ⟨fun hok => (by cases hok.1), fun hloads => (by cases hloads.choose_spec.1)⟩
  | some arrived =>
      rw [harrives] at hload
      rcases hload with ⟨hfits, hok, htaken⟩ | ⟨hfits, e, herror⟩
      · rw [htaken.ids, hids]
        constructor
        · rintro ⟨-, hin⟩
          refine ⟨arrived, rfl, hfits, fun x hx => ?_⟩
          rw [wanted, host.mem_order, Finset.mem_sdiff] at hx
          rcases Finset.mem_union.mp (hin hx.1) with hheld | harrived
          · exact absurd hheld hx.2
          · exact List.mem_toFinset.mp harrived
        · rintro ⟨_, ⟨⟩, -, hall⟩
          refine ⟨hok, fun x hx => ?_⟩
          by_cases hheld : x ∈ index.partitionIds agentId \ allowed.removed
          · exact Finset.mem_union_left _ hheld
          · refine Finset.mem_union_right _ (List.mem_toFinset.mpr (hall x ?_))
            rw [wanted, host.mem_order, Finset.mem_sdiff]
            exact ⟨hx, hheld⟩
      · rw [herror]
        refine ⟨fun hok => (by cases hok.1), ?_⟩
        rintro ⟨_, ⟨⟩, hall, -⟩
        exact absurd hall hfits

/-- After such a load the partition is the old one moved by the delta. -/
theorem loaded_ids (h : index.Sound) {scope : Finset String} {allowed : ScopeIds String}
    (hadded : allowed.added = allowed.toFinset \ scope)
    (hremoved : allowed.removed = scope \ allowed.toFinset)
    (hloads : host.Loads agentId index allowed) :
    (host.loaded env agentId index allowed).1.partitionIds agentId =
      movedIds scope allowed.toFinset (index.partitionIds agentId) := by
  obtain ⟨base, hids, hdim, hload⟩ := @loaded_spec _ env host agentId index h allowed
  obtain ⟨arrived, harrives, hfits, hall⟩ := hloads
  rw [Option.mem_def] at harrives
  rw [harrives] at hload
  rcases hload with ⟨-, -, htaken⟩ | ⟨hrefused, -⟩
  · have harrived : (arrived.map Prod.fst).toFinset =
        allowed.added \ (index.partitionIds agentId \ allowed.removed) := by
      ext x
      rw [List.mem_toFinset, ← host.mem_order]
      exact ⟨mem_of_arriving harrives, hall x⟩
    rw [htaken.ids, hids, harrived, Finset.union_sdiff_self_eq_union, hremoved, hadded]
    rfl
  · rw [hdim] at hrefused
    exact absurd hfits hrefused

end SyncHost

/-- `sync_delta` is right about the partition unless what was lost and what is
stray balance. The index is any that calls have made, the scopes are any two
of the process. -/
theorem syncDelta_right_iff (env : IndexEnv ρ) (host : SyncHost ρ) (agentId : String)
    (backend : IndexBackend) (start : VectorIndex ρ)
    (hstart : VectorIndex.new env backend = some start) (calls : List (IndexCall ρ))
    (steps : List (ScopeStep String)) (hsteps : ∀ st ∈ steps, st.DisjointDelta)
    (last : Option Synced) (allowed : ScopeIds String)
    (hlast : ∀ entry ∈ last, entry.scope ∈ (run Twin.step steps Twin.empty).process.scopes)
    (hallowed : allowed ∈ (run Twin.step steps Twin.empty).process.scopes) :
    let index := run (VectorIndex.step env) calls start
    (∀ after entry, host.syncDelta env agentId index last allowed = (after, .ok (some entry)) →
        after.partitionIds agentId = allowed.toFinset) ↔
      ¬ host.Balanced agentId index last allowed := by
  intro index
  have hsound : index.Sound := (VectorIndex.sound_new hstart).run env calls
  have hw : (run Twin.step steps Twin.empty).Refines := Twin.refines_run hsteps
  cases last with
  | none =>
      refine ⟨fun _ => ?_, fun _ after entry h => ?_⟩
      · rintro ⟨entry, hentry, -⟩
        cases hentry
      · cases h
  | some last =>
      have hscope := hlast last rfl
      by_cases happlies : SyncHost.applies last allowed = true
      · obtain ⟨hadded, hremoved⟩ := SyncHost.delta_of_applies hw hscope hallowed happlies
        have hloaded := @SyncHost.loaded_iff _ env host agentId index hsound allowed
        have hmoved (hloads : host.Loads agentId index allowed) :=
          @SyncHost.loaded_ids _ env host agentId index hsound _ _ hadded hremoved hloads
        have hcard := card_movedIds last.scope.toFinset allowed.toFinset
          (index.partitionIds agentId)
        constructor
        · rintro hright ⟨entry, hentry, -, hloads, hlost, hbalance⟩
          cases hentry
          -- the numbers agree, so the scope is reported
          have hreport : host.syncDelta env agentId index (some last) allowed =
              ((host.loaded env agentId index allowed).1, .ok (some
                ⟨allowed, (host.loaded env agentId index allowed).1.revision, true⟩)) := by
            have hdone := hloaded.mpr hloads
            refine SyncHost.syncDelta_eq_some_iff.mpr ⟨happlies, Prod.ext rfl hdone.1, ?_, ?_, rfl⟩
            · rw [VectorIndex.count_eq_card, hmoved hloads, allowed.len_eq_card]
              exact congrArg Nat.cast (by omega)
            · rw [VectorIndex.missing_eq, Finset.sdiff_eq_empty_iff_subset]
              exact hdone.2
          have hequal := hright _ _ hreport
          rw [hmoved hloads, movedIds_eq_iff] at hequal
          exact hlost (Finset.card_eq_zero.mpr hequal.1)
        · intro hnot after entry h
          obtain ⟨-, hload, hcount, hmissing, -⟩ := SyncHost.syncDelta_eq_some_iff.mp h
          rw [VectorIndex.missing_eq, Finset.sdiff_eq_empty_iff_subset] at hmissing
          have hloads : host.Loads agentId index allowed := by
            rw [← hloaded, hload]
            exact ⟨rfl, hmissing⟩
          have hids := hmoved hloads
          rw [hload] at hids
          rw [VectorIndex.count_eq_card, hids, allowed.len_eq_card, Int.ofNat_inj] at hcount
          rw [hids, movedIds_eq_iff, ← Finset.card_eq_zero, ← Finset.card_eq_zero]
          by_contra hbad
          exact hnot ⟨last, rfl, happlies, hloads, by omega, by omega⟩
      · refine ⟨fun _ => ?_, fun _ after entry h => ?_⟩
        · rintro ⟨entry, hentry, happ, -⟩
          cases hentry
          exact happlies happ
        · rw [SyncHost.syncDelta, if_pos happlies] at h
          cases h

/-- Only `c` has a stored vector. -/
def oneVectorHost : SyncHost Nat where
  storedEmbeddings := fun fragmentId => if fragmentId = "c" then some [1] else none
  contents := fun _ => none
  embedderDim := some 1
  embedBatch := fun _ _ => .ok none
  order := fun s => s.sort (· ≤ ·)
  mem_order := fun _ _ => Finset.mem_sort (· ≤ ·)

/-- The scope with `a` and `b`, and the one derived from it by a write of `c`. -/
def writeSteps : List (ScopeStep String) := [.ofIterable ["a", "b"], .derive 4096 0 ["c"] []]

def scopeBefore : ScopeIds String := .ofFrozenset ⟨0, {"a", "b"}⟩ 1

def scopeAfter : ScopeIds String := scopeBefore.derive 4096 1 2 ["c"] []

theorem scopes_writeSteps :
    (run Twin.step writeSteps Twin.empty).process.scopes = [scopeBefore, scopeAfter] := by
  rfl

/-- `a` and `b` are held when the scope is synced. -/
def syncedCalls : List (IndexCall Nat) :=
  [.add "a" [1] "" (some "agent"), .add "b" [1] "" (some "agent")]

theorem syncDelta_right_write :
    let index := run (VectorIndex.step VectorIndex.plainEnv) syncedCalls VectorIndex.autoIndex
    (oneVectorHost.syncDelta VectorIndex.plainEnv "agent" index (some ⟨scopeBefore, 2, true⟩)
        scopeAfter).1.partitionIds "agent" = {"a", "b", "c"} ∧
      ∀ after entry, oneVectorHost.syncDelta VectorIndex.plainEnv "agent" index
          (some ⟨scopeBefore, 2, true⟩) scopeAfter = (after, .ok (some entry)) →
        after.partitionIds "agent" = scopeAfter.toFinset := by
  intro index
  have hlast : ∀ entry ∈ some (⟨scopeBefore, 2, true⟩ : Synced),
      entry.scope ∈ (run Twin.step writeSteps Twin.empty).process.scopes := by
    rintro entry ⟨⟩
    rw [scopes_writeSteps]
    exact List.mem_cons_self
  have hallowed : scopeAfter ∈ (run Twin.step writeSteps Twin.empty).process.scopes := by
    rw [scopes_writeSteps]
    exact List.mem_cons_of_mem _ List.mem_cons_self
  have hheld : (oneVectorHost.syncDelta VectorIndex.plainEnv "agent" index
      (some ⟨scopeBefore, 2, true⟩) scopeAfter).1.partitionIds "agent" = {"a", "b", "c"} := by
    decide +kernel
  refine ⟨hheld, (syncDelta_right_iff VectorIndex.plainEnv oneVectorHost "agent" .auto
    VectorIndex.autoIndex rfl syncedCalls writeSteps (by decide) _ scopeAfter hlast hallowed).mpr ?_⟩
  rintro ⟨entry, ⟨⟩, -, -, hlost, -⟩
  exact hlost (by decide +kernel)

/-- `a` is forgotten and `x`, which no scope has, is indexed. -/
theorem syncDelta_trusts_counts :
    ¬ ∀ (env : IndexEnv Nat) (host : SyncHost Nat) agentId backend start,
      VectorIndex.new env backend = some start → ∀ calls : List (IndexCall Nat),
        ∀ steps : List (ScopeStep String), (∀ st ∈ steps, st.DisjointDelta) →
          ∀ last : Synced, last.inSync = true →
            last.scope ∈ (run Twin.step steps Twin.empty).process.scopes →
            (run (VectorIndex.step env) calls start).partitionIds agentId = last.scope.toFinset →
            ∀ allowed ∈ (run Twin.step steps Twin.empty).process.scopes,
              ∀ changes : List (IndexCall Nat), ∀ after entry,
                host.syncDelta env agentId
                    (run (VectorIndex.step env) (calls ++ changes) start) (some last) allowed =
                  (after, .ok (some entry)) →
                after.partitionIds agentId = allowed.toFinset := by
  intro h
  let index := run (VectorIndex.step VectorIndex.plainEnv)
    (syncedCalls ++ [.remove "a", .add "x" [1] "" (some "agent")]) VectorIndex.autoIndex
  let outcome :=
    oneVectorHost.syncDelta VectorIndex.plainEnv "agent" index (some ⟨scopeBefore, 2, true⟩) scopeAfter
  have hreported : outcome.2.toOption.join.isSome = true := by decide +kernel
  obtain ⟨entry, hentry⟩ : ∃ entry, outcome.2 = .ok (some entry) := by
    cases hresult : outcome.2 with
    | error e =>
        rw [hresult] at hreported
        cases hreported
    | ok entry =>
        rw [hresult] at hreported
        obtain ⟨entry, rfl⟩ := Option.isSome_iff_exists.mp hreported
        exact ⟨entry, rfl⟩
  have hright := h VectorIndex.plainEnv oneVectorHost "agent" .auto VectorIndex.autoIndex rfl syncedCalls
    writeSteps (by decide) ⟨scopeBefore, 2, true⟩ rfl
    (by rw [scopes_writeSteps]; exact List.mem_cons_self) (by decide +kernel) scopeAfter
    (by rw [scopes_writeSteps]; exact List.mem_cons_of_mem _ List.mem_cons_self)
    [.remove "a", .add "x" [1] "" (some "agent")] outcome.1 entry (Prod.ext rfl hentry)
  have hids : outcome.1.partitionIds "agent" ≠ scopeAfter.toFinset := by decide +kernel
  exact hids hright

end MarkSdk
