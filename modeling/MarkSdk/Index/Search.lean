import Mathlib.Data.Finset.Option
import Mathlib.Data.Finset.Sort
import Mathlib.Data.Finset.Union
import Mathlib.Data.List.GetD
import Mathlib.Data.Prod.Lex
import Mathlib.Order.WithBot
import MarkSdk.Lib.TopK
import MarkSdk.Index.Held

/-!
Searching the vector index.

A Python partition sorts all its scores. A numpy partition scores every row,
the dead ones lowest, keeps the rows that reach the score of the `k`-th best and
sorts these. Both give the same hits in the same order (`top_eq`), so that a
search sees the dictionaries only and not the backend (`search_eq`). Scores are
exact, and both backends have the same similarity.
-/

namespace MarkSdk

open Lib

variable {ρ σ : Type} [LinearOrder σ]

/-- `(score, position, fragment id)` -/
structure ScoredHit (σ : Type) where
  score : σ
  position : Nat
  fragmentId : String
  deriving DecidableEq, Repr

/-- Best first, and of equal ones the earlier one. -/
def ScoredHit.key (h : ScoredHit σ) : Lex (σᵒᵈ × Nat) := toLex (OrderDual.toDual h.score, h.position)

/-- Every id is included, or the given ones. -/
def included (includeIds : Option (Finset String)) (fragmentId : String) : Bool :=
  match includeIds with
  | none => true
  | some ids => fragmentId ∈ ids

section Top

variable (dot : List ρ → List ρ → σ)

/-- `_PythonPartition.top` -/
def pythonTop (vectors : Dict String (List ρ)) (query : List ρ) (topK : Nat)
    (includeIds : Option (Finset String)) : List (ScoredHit σ) :=
  let scored := (vectors.rows.zipIdx.filter fun e => included includeIds e.1.1).map fun e =>
    ScoredHit.mk (dot query e.1.2) e.2 e.1.1
  (sortedByDesc (fun h => toLex (h.score, -(h.position : Int))) scored).take topK

namespace NumpyPartition

variable (p : NumpyPartition ρ)

/-- A row with a score, unless it is dead or its id is gone. -/
def hitAt (row : Nat) (score : WithBot σ) : Option (ScoredHit σ) :=
  WithBot.recBotCoe none (fun s => (p.ids.getD row none).map fun fragmentId => ⟨s, row, fragmentId⟩)
    score

/-- The rows that reach the score of the `k`-th best, sorted. -/
def best (topK : Nat) (rows : List Nat) (scores : List (WithBot σ)) : List (ScoredHit σ) :=
  let count := scores.length
  let candidates :=
    if topK < count then
      match (sortedBy id scores)[count - topK]? with
      | some kth => (List.range count).filter fun i => kth ≤ scores.getD i ⊥
      | none => []
    else List.range count
  let order := sortedBy (fun i => toLex (OrderDual.toDual (scores.getD i ⊥), rows.getD i 0))
    candidates
  (order.filterMap fun i => p.hitAt (rows.getD i 0) (scores.getD i ⊥)).take topK

/-- `_NumpyPartition.top` on its own snapshot -/
def top (query : List ρ) (topK : Nat) (includeIds : Option (Finset String)) :
    List (ScoredHit σ) :=
  let size := p.ids.length
  if size = 0 then []
  else
    match includeIds with
    | none =>
        let dead := if p.deadCount = 0 then none else p.dead
        p.best topK (List.range size) ((List.range size).map fun row =>
          if (dead.getD []).getD row false then ⊥ else (dot query (p.matrix.getD row []) : WithBot σ))
    | some ids =>
        let selected := (ids.biUnion fun fragmentId => (p.pos.get? fragmentId).toFinset).filter
          fun row => row < size
        if selected = ∅ then []
        else
          let rows := selected.sort
          p.best topK rows (rows.map fun row => (dot query (p.matrix.getD row []) : WithBot σ))

end NumpyPartition

def Partition.top (q : Partition ρ) (query : List ρ) (topK : Nat)
    (includeIds : Option (Finset String)) : List (ScoredHit σ) :=
  match q with
  | .python vectors => pythonTop dot vectors query topK includeIds
  | .numpy p => p.top dot query topK includeIds

structure VectorSearchResult (σ : Type) where
  fragmentId : String
  score : σ
  content : String
  deriving DecidableEq, Repr

structure QueryDimension where
  found : Nat
  expected : Nat
  deriving DecidableEq, Repr

/-- The hits of all partitions, best first; of equal ones those of the earlier
partition. -/
def mergeHits (topK : Nat) (minScore : σ) (content : Dict String String)
    (hits : List (List (ScoredHit σ))) : List (VectorSearchResult σ) :=
  let all := hits.zipIdx.flatMap fun part => part.1.map fun h => (h, part.2)
  let sorted := sortedBy
    (fun e => toLex (OrderDual.toDual e.1.score, toLex (e.2, e.1.position))) all
  ((sorted.take topK).filter fun e => minScore ≤ e.1.score).map fun e =>
    ⟨e.1.fragmentId, e.1.score, (content.get? e.1.fragmentId).getD ""⟩

namespace VectorIndex

def searched (index : VectorIndex ρ) : Option String → List (Partition ρ)
  | some agentId => (index.partitions.get? (some agentId)).toList
  | none => index.partitions.rows.map Prod.snd

def search (env : IndexEnv ρ) (index : VectorIndex ρ) (queryEmbedding : List ρ) (topK : Int)
    (minScore : σ) (includeIds : Option (Finset String)) (agentId : Option String) :
    Except QueryDimension (List (VectorSearchResult σ)) :=
  if topK ≤ 0 ∨ includeIds = some ∅ then .ok []
  else
    match index.dim with
    | none => .ok []
    | some dim =>
        if queryEmbedding.length ≠ dim then .error ⟨queryEmbedding.length, dim⟩
        else
          let query := env.normalize queryEmbedding
          .ok (mergeHits topK.toNat minScore index.content
            ((index.searched agentId).map fun q => q.top dot query topK.toNat includeIds))

end VectorIndex

end Top

/-! ### The order of hits -/

section Order

variable {h h' : ScoredHit σ} {k : Nat}

theorem ScoredHit.key_le_iff :
    h.key ≤ h'.key ↔ h'.score < h.score ∨ h.score = h'.score ∧ h.position ≤ h'.position := by
  rw [key, key, Prod.Lex.toLex_le_toLex]
  simp only [OrderDual.toDual_lt_toDual, OrderDual.toDual_inj]

/-- Hits at different places have different keys. -/
theorem ScoredHit.key_inj {hits : List (ScoredHit σ)}
    (hplace : ∀ h ∈ hits, ∀ h' ∈ hits, h.position = h'.position → h = h') :
    ∀ h ∈ hits, ∀ h' ∈ hits, h.key = h'.key → h = h' := by
  intro h hh h' hh' heq
  have hle := ScoredHit.key_le_iff.mp heq.le
  have hge := ScoredHit.key_le_iff.mp heq.ge
  rcases hle with hlt | ⟨hscore, hle⟩
  · rcases hge with hgt | ⟨hscore, -⟩
    · exact absurd hlt hgt.asymm
    · exact absurd hlt (hscore ▸ lt_irrefl _)
  · rcases hge with hgt | ⟨-, hge⟩
    · exact absurd hgt (hscore ▸ lt_irrefl _)
    · exact hplace h hh h' hh' (le_antisymm hle hge)

/-- `heapq.nlargest` with the position turned round is a sort by the key. -/
theorem sortedByDesc_eq_sortedBy_key {hits : List (ScoredHit σ)}
    (hplace : ∀ h ∈ hits, ∀ h' ∈ hits, h.position = h'.position → h = h') :
    sortedByDesc (fun h => toLex (h.score, -(h.position : Int))) hits =
      sortedBy ScoredHit.key hits := by
  refine eq_sortedBy sortedByDesc_perm ?_ (ScoredHit.key_inj hplace)
  refine sortedByDesc_pairwise.imp ?_
  intro h h' hle
  rw [Prod.Lex.toLex_le_toLex] at hle
  rw [ScoredHit.key_le_iff]
  rcases hle with hlt | ⟨hscore, hle⟩
  · exact .inl hlt
  · simp only at hle
    exact .inr ⟨hscore.symm, by omega⟩

end Order

/-! ### The numpy partition -/

namespace NumpyPartition

variable {dot : List ρ → List ρ → σ} {p : NumpyPartition ρ}

omit [LinearOrder σ] in
@[simp] theorem hitAt_bot (row : Nat) : p.hitAt row (⊥ : WithBot σ) = none := rfl

omit [LinearOrder σ] in
@[simp] theorem hitAt_coe (row : Nat) (s : σ) : p.hitAt row (s : WithBot σ) =
    (p.ids.getD row none).map fun fragmentId => ⟨s, row, fragmentId⟩ := rfl

omit [LinearOrder σ] in
theorem hitAt_eq_some {row : Nat} {score : WithBot σ} {h : ScoredHit σ}
    (hh : p.hitAt row score = some h) : score = h.score ∧ row = h.position := by
  induction score with
  | bot => cases hh
  | coe s =>
      rw [hitAt_coe] at hh
      obtain ⟨_, -, rfl⟩ := Option.map_eq_some_iff.mp hh
      exact ⟨rfl, rfl⟩

/-- The threshold keeps the best ones: `best` sorts all the hits. -/
theorem best_eq {topK : Nat} {rows : List Nat} {scores : List (WithBot σ)} (htop : 0 < topK)
    (hlength : scores.length = rows.length) (hrows : rows.Pairwise (· < ·))
    (hlive : ∀ i < rows.length, scores.getD i ⊥ ≠ ⊥ → (p.ids.getD (rows.getD i 0) none).isSome) :
    p.best topK rows scores = (sortedBy ScoredHit.key ((List.range rows.length).filterMap fun i =>
      p.hitAt (rows.getD i 0) (scores.getD i ⊥))).take topK := by
  have hmono : ∀ i < rows.length, ∀ j < rows.length, i < j → rows.getD i 0 < rows.getD j 0 := by
    intro i hi j hj hij
    rw [List.getD_eq_getElem _ _ hi, List.getD_eq_getElem _ _ hj]
    exact List.pairwise_iff_getElem.mp hrows i j hi hj hij
  generalize hkey : (fun i => toLex (OrderDual.toDual (scores.getD i ⊥), rows.getD i 0)) = key
  have hinj : ∀ i ∈ List.range rows.length, ∀ j ∈ List.range rows.length,
      key i = key j → i = j := by
    intro i hi j hj heq
    rw [← hkey] at heq
    have hrow : rows.getD i 0 = rows.getD j 0 := congrArg (fun x => (ofLex x).2) heq
    rcases Nat.lt_trichotomy i j with hlt | rfl | hgt
    · have := hmono i (List.mem_range.mp hi) j (List.mem_range.mp hj) hlt
      omega
    · rfl
    · have := hmono j (List.mem_range.mp hj) i (List.mem_range.mp hi) hgt
      omega
  -- sorting hits is sorting their places
  have hhits : sortedBy ScoredHit.key ((List.range rows.length).filterMap fun i =>
      p.hitAt (rows.getD i 0) (scores.getD i ⊥)) =
        (sortedBy key (List.range rows.length)).filterMap fun i =>
          p.hitAt (rows.getD i 0) (scores.getD i ⊥) := by
    refine sortedBy_filterMap hinj ?_
    intro i _ j _ h hh h' hh'
    obtain ⟨hscore, hrow⟩ := hitAt_eq_some hh
    obtain ⟨hscore', hrow'⟩ := hitAt_eq_some hh'
    rw [ScoredHit.key_le_iff, ← hkey, Prod.Lex.toLex_le_toLex, hscore, hscore', hrow, hrow']
    simp only [OrderDual.toDual_lt_toDual, OrderDual.toDual_inj, WithBot.coe_lt_coe,
      WithBot.coe_inj]
  rw [hhits, best]
  simp only [hkey, hlength]
  split
  case isFalse => rfl
  case isTrue hlt =>
    have hget : (sortedBy id scores)[rows.length - topK]? ≠ none := by
      rw [Ne, List.getElem?_eq_none_iff, (@sortedBy_perm _ _ _ id scores).length_eq]
      omega
    obtain ⟨kth, hkth⟩ := Option.ne_none_iff_exists'.mp hget
    simp only [hkth]
    rw [sortedBy_filter _ hinj]
    have hfalling : (sortedBy key (List.range rows.length)).Pairwise fun i j =>
        scores.getD j ⊥ ≤ scores.getD i ⊥ := by
      refine sortedBy_pairwise.imp ?_
      intro i j hij
      rw [← hkey, Prod.Lex.toLex_le_toLex] at hij
      rcases hij with hlt | ⟨heq, -⟩
      · exact (OrderDual.toDual_lt_toDual.mp hlt).le
      · exact (OrderDual.toDual_inj.mp heq).ge
    by_cases hbot : kth = ⊥
    · have hall : (fun i => decide (kth ≤ scores.getD i ⊥)) = fun _ => true := by
        funext i
        rw [hbot]
        exact decide_eq_true bot_le
      rw [hall, List.filter_true]
    · refine take_filterMap_threshold hfalling ?_ ?_
      · have hcount := @le_countP_of_sorted _ _ kth topK scores htop (by omega)
          (by rw [hlength]; exact hkth)
        rw [sortedBy_perm.countP_eq]
        refine hcount.trans (le_of_eq ?_)
        have hscores : scores = (List.range rows.length).map fun i => scores.getD i ⊥ := by
          refine List.ext_getElem (by rw [List.length_map, List.length_range, hlength]) ?_
          intro i hi hi'
          rw [List.getElem_map, List.getElem_range, List.getD_eq_getElem _ _ hi]
        conv_lhs => rw [hscores, List.countP_map]
        rfl
      · intro i hi hle
        have hi' := List.mem_range.mp (sortedBy_perm.mem_iff.mp hi)
        have hne : scores.getD i ⊥ ≠ ⊥ := fun heq => hbot (le_bot_iff.mp (heq ▸ hle))
        obtain ⟨s, hs⟩ := WithBot.ne_bot_iff_exists.mp hne
        rw [← hs, hitAt_coe, Option.isSome_map]
        exact hlive i hi' hne

/-! The rows that are searched. -/

omit [LinearOrder σ] in
/-- A list through its places. -/
theorem filterMap_range_getElem? {α : Type} (l : List α) :
    (List.range l.length).filterMap (fun i => l[i]?) = l := by
  induction l with
  | nil => rfl
  | cons a l ih =>
      rw [List.length_cons, List.range_succ_eq_map, List.filterMap_cons, List.getElem?_cons_zero,
        List.filterMap_map]
      exact congrArg (a :: ·) ih

omit [LinearOrder σ] in
theorem occupiedRows_eq (ids : List (Option String)) (k : Nat) :
    occupiedRows ids k =
      (List.range ids.length).filterMap fun i => (ids.getD i none).map (·, k + i) := by
  induction ids generalizing k with
  | nil => rfl
  | cons c ids ih =>
      have hshift : ((List.range ids.length).map Nat.succ).filterMap
          (fun i => ((c :: ids).getD i none).map (·, k + i)) = occupiedRows ids (k + 1) := by
        rw [ih, List.filterMap_map]
        refine List.filterMap_congr fun i _ => ?_
        show ((c :: ids).getD (i + 1) none).map (·, k + (i + 1)) = _
        rw [List.getD_cons_succ, Nat.add_right_comm, Nat.add_assoc]
      rw [List.length_cons, List.range_succ_eq_map, List.filterMap_cons, hshift]
      cases c <;> rfl

omit [LinearOrder σ] in
theorem Sound.mem_rows_iff (h : p.Sound) {r : String × Nat} :
    r ∈ p.pos.rows ↔ p.ids[r.2]? = some (some r.1) := by
  rw [h.pos, mem_occupiedRows, Nat.sub_zero]
  exact and_iff_right (Nat.zero_le _)

omit [LinearOrder σ] in
theorem Sound.rows_sorted (h : p.Sound) : (p.pos.rows.map Prod.snd).Pairwise (· < ·) := by
  rw [h.pos, occupiedRows_eq, List.map_filterMap]
  refine (List.pairwise_lt_range (n := p.ids.length)).filterMap _ ?_
  intro i j hij a ha b hb
  obtain ⟨_, hi, rfl⟩ := Option.map_eq_some_iff.mp ha
  obtain ⟨_, hj, rfl⟩ := Option.map_eq_some_iff.mp hb
  obtain ⟨_, -, rfl⟩ := Option.map_eq_some_iff.mp hi
  obtain ⟨_, -, rfl⟩ := Option.map_eq_some_iff.mp hj
  show 0 + i < 0 + j
  omega

omit [LinearOrder σ] in
/-- The mask of a snapshot marks the rows without an id. -/
theorem Sound.dead_iff (h : p.Sound) {row : Nat} (hrow : row < p.ids.length) :
    ((if p.deadCount = 0 then none else p.dead).getD []).getD row false =
      (p.ids.getD row none).isNone := by
  rw [List.getD_eq_getElem _ _ hrow]
  split
  case isTrue hzero =>
    have hcount := h.deadCount
    rw [hzero, eq_comm, List.count_eq_zero] at hcount
    cases hid : p.ids[row] with
    | none => exact absurd (hid ▸ List.getElem_mem hrow) hcount
    | some => rfl
  case isFalse hpos =>
    obtain ⟨mask, hmask⟩ := Option.ne_none_iff_exists'.mp (mt h.unmarked hpos)
    have hrows := congrArg (fun l => l.getD row false) (h.mask.symm.trans (deadMask_of_some hmask))
    rw [List.getD_append _ _ _ _ (by rwa [List.length_map]), List.getD_eq_getElem _ _
      (by rwa [List.length_map]), List.getElem_map] at hrows
    rw [hmask, Option.getD_some, hrows]
    rcases Nat.lt_or_ge row mask.length with hlt | hge
    · rw [List.getD_append _ _ _ _ hlt]
    · rw [List.getD_append_right _ _ _ _ hge, List.getD_eq_default _ _ hge]
      rcases Nat.lt_or_ge (row - mask.length) (p.capacity - mask.length) with hlt | hge'
      · rw [List.getD_eq_getElem _ _ (by rwa [List.length_replicate]), List.getElem_replicate]
      · rw [List.getD_eq_default _ _ (by rwa [List.length_replicate])]

variable (dot p) in
def liveHits (query : List ρ) (includeIds : Option (Finset String)) : List (ScoredHit σ) :=
  (p.pos.rows.filter fun r => included includeIds r.1).map fun r =>
    ⟨dot query (p.matrix.getD r.2 []), r.2, r.1⟩

theorem Sound.top_all (h : p.Sound) {query : List ρ} {topK : Nat} (htop : 0 < topK) :
    p.top dot query topK none =
      (sortedBy ScoredHit.key (p.liveHits dot query none)).take topK := by
  have hlive : p.liveHits dot query none = (List.range p.ids.length).filterMap fun i =>
      (p.ids.getD i none).map fun fragmentId =>
        ScoredHit.mk (dot query (p.matrix.getD i [])) i fragmentId := by
    have hall : ∀ rows : List (String × Nat),
        rows.filter (fun r => included none r.1) = rows :=
      fun rows => List.filter_eq_self.mpr fun _ _ => rfl
    rw [liveHits, hall, h.pos, occupiedRows_eq, List.map_filterMap]
    refine List.filterMap_congr fun i _ => ?_
    rw [Option.map_map, Nat.zero_add]
    rfl
  rw [top]
  simp only
  split
  case isTrue hzero =>
    rw [hlive, hzero]
    exact List.take_nil.symm
  case isFalse =>
    generalize hmask : ((if p.deadCount = 0 then none else p.dead).getD [] : List Bool) = mask
    have hdead : ∀ i < p.ids.length, mask.getD i false = (p.ids.getD i none).isNone :=
      fun i hi => hmask ▸ h.dead_iff hi
    have hscore : ∀ i < p.ids.length, ((List.range p.ids.length).map fun row =>
        if mask.getD row false then ⊥ else
          (dot query (p.matrix.getD row []) : WithBot σ)).getD i ⊥ =
            if mask.getD i false then ⊥ else (dot query (p.matrix.getD i []) : WithBot σ) := by
      intro i hi
      rw [List.getD_eq_getElem _ _ (by rwa [List.length_map, List.length_range]), List.getElem_map,
        List.getElem_range]
    have hrow : ∀ i < p.ids.length, (List.range p.ids.length).getD i 0 = i := by
      intro i hi
      rw [List.getD_eq_getElem _ _ (by rwa [List.length_range]), List.getElem_range]
    rw [best_eq htop (by rw [List.length_map]) List.pairwise_lt_range, List.length_range, hlive]
    · congr 2
      refine List.filterMap_congr fun i hi => ?_
      have hi := List.mem_range.mp hi
      rw [hscore i hi, hrow i hi, hdead i hi]
      cases hid : p.ids.getD i none with
      | none => rfl
      | some fragmentId =>
          rw [Option.isNone_some, if_neg (by simp), hitAt_coe, hid]
    · intro i hi hne
      rw [List.length_range] at hi
      rw [hscore i hi, hdead i hi] at hne
      rw [hrow i hi]
      cases hid : p.ids.getD i none with
      | none =>
          rw [hid] at hne
          exact absurd rfl hne
      | some fragmentId => rfl

/-- The rows of the included ids, in their order. -/
theorem Sound.selected_eq (h : p.Sound) (ids : Finset String) :
    ((ids.biUnion fun fragmentId => (p.pos.get? fragmentId).toFinset).filter
      fun row => row < p.ids.length).sort =
        (p.pos.rows.filter fun r => included (some ids) r.1).map Prod.snd := by
  have hsorted := (h.rows_sorted).sublist
    ((List.filter_sublist (p := fun r => included (some ids) r.1)).map Prod.snd)
  refine @List.Perm.eq_of_pairwise Nat (fun a b => a < b) _ _
    (fun a b _ _ hab hba => absurd hab hba.asymm) (Finset.sortedLT_sort _).pairwise hsorted ?_
  refine (List.perm_ext_iff_of_nodup (Finset.sort_nodup _ _) (hsorted.imp ne_of_lt)).mpr fun row => ?_
  rw [Finset.mem_sort, Finset.mem_filter, Finset.mem_biUnion]
  constructor
  · rintro ⟨⟨fragmentId, hin, hget⟩, -⟩
    have hmem := Dict.get?_eq_some_iff.mp (Option.mem_toFinset.mp hget)
    exact List.mem_map.mpr ⟨_, List.mem_filter.mpr ⟨hmem, decide_eq_true hin⟩, rfl⟩
  · intro hrow
    obtain ⟨r, hr, rfl⟩ := List.mem_map.mp hrow
    obtain ⟨hmem, hin⟩ := List.mem_filter.mp hr
    refine ⟨⟨r.1, of_decide_eq_true hin, Option.mem_toFinset.mpr (Dict.get?_eq_some_iff.mpr hmem)⟩, ?_⟩
    exact (List.getElem?_eq_some_iff.mp (h.mem_rows_iff.mp hmem)).1

theorem Sound.top_some (h : p.Sound) (ids : Finset String) {query : List ρ} {topK : Nat}
    (htop : 0 < topK) :
    p.top dot query topK (some ids) =
      (sortedBy ScoredHit.key (p.liveHits dot query (some ids))).take topK := by
  have hempty : p.pos.rows.filter (fun r => included (some ids) r.1) = [] →
      [] = (sortedBy ScoredHit.key (p.liveHits dot query (some ids))).take topK := by
    intro hnil
    rw [liveHits, hnil]
    exact List.take_nil.symm
  rw [top]
  simp only
  split
  case isTrue hzero =>
    refine hempty ?_
    rw [h.pos, List.length_eq_zero_iff.mp hzero]
    rfl
  case isFalse =>
    split
    case isTrue hnone =>
      refine hempty ?_
      have hselected := h.selected_eq ids
      rw [hnone, Finset.sort_empty] at hselected
      exact List.map_eq_nil_iff.mp hselected.symm
    case isFalse =>
      rw [h.selected_eq ids]
      generalize hrows : p.pos.rows.filter (fun r => included (some ids) r.1) = rows
      have hids : ∀ r ∈ rows, p.ids.getD r.2 none = some r.1 := by
        intro r hr
        rw [← hrows] at hr
        obtain ⟨hlt, hid⟩ := List.getElem?_eq_some_iff.mp
          (h.mem_rows_iff.mp (List.mem_of_mem_filter hr))
        rw [List.getD_eq_getElem _ _ hlt, hid]
      have hsorted : (rows.map Prod.snd).Pairwise (· < ·) := by
        rw [← hrows]
        exact h.rows_sorted.sublist (List.filter_sublist.map Prod.snd)
      have hget : ∀ i < rows.length, ∃ r ∈ rows, (rows.map Prod.snd).getD i 0 = r.2 ∧
          ((rows.map Prod.snd).map fun row =>
            (dot query (p.matrix.getD row []) : WithBot σ)).getD i ⊥ =
              dot query (p.matrix.getD r.2 []) ∧ rows[i]? = some r := by
        intro i hi
        refine ⟨rows[i], List.getElem_mem hi, ?_, ?_, List.getElem?_eq_getElem hi⟩
        · rw [List.getD_eq_getElem _ _ (by rwa [List.length_map]), List.getElem_map]
        · rw [List.getD_eq_getElem _ _ (by rwa [List.length_map, List.length_map]),
            List.getElem_map, List.getElem_map]
      rw [best_eq htop (List.length_map _) hsorted]
      · congr 2
        have hhits : p.liveHits dot query (some ids) = (List.range rows.length).filterMap fun i =>
            rows[i]?.map fun r => ScoredHit.mk (dot query (p.matrix.getD r.2 [])) r.2 r.1 := by
          rw [liveHits, hrows]
          conv_lhs => rw [← filterMap_range_getElem? rows, List.map_filterMap]
        rw [hhits, List.length_map]
        refine List.filterMap_congr fun i hi => ?_
        obtain ⟨r, hr, hrow, hscore, hat⟩ := hget i (List.mem_range.mp hi)
        rw [hrow, hscore, hat, hitAt_coe, hids r hr]
        rfl
      · intro i hi _
        rw [List.length_map] at hi
        obtain ⟨r, hr, hrow, -⟩ := hget i hi
        rw [hrow, hids r hr]
        rfl

theorem Sound.top_eq (h : p.Sound) (includeIds : Option (Finset String)) {query : List ρ}
    {topK : Nat} (htop : 0 < topK) :
    p.top dot query topK includeIds =
      (sortedBy ScoredHit.key (p.liveHits dot query includeIds)).take topK := by
  cases includeIds with
  | none => exact h.top_all htop
  | some ids => exact h.top_some ids htop

end NumpyPartition

/-! ### Both backends -/

section Backends

variable {dot : List ρ → List ρ → σ}

variable (dot) in
/-- What a Python partition sorts. -/
def pythonHits (vectors : Dict String (List ρ)) (query : List ρ)
    (includeIds : Option (Finset String)) : List (ScoredHit σ) :=
  (vectors.rows.zipIdx.filter fun e => included includeIds e.1.1).map fun e =>
    ⟨dot query e.1.2, e.2, e.1.1⟩

omit [LinearOrder σ] in
/-- A position tells the hit. -/
theorem pythonHits_place {vectors : Dict String (List ρ)} {query : List ρ}
    {includeIds : Option (Finset String)} :
    (∀ h ∈ pythonHits dot vectors query includeIds, h.position < vectors.size) ∧
      ∀ h ∈ pythonHits dot vectors query includeIds,
        ∀ h' ∈ pythonHits dot vectors query includeIds, h.position = h'.position → h = h' := by
  have hat : ∀ h ∈ pythonHits dot vectors query includeIds,
      ∃ r, vectors.rows[h.position]? = some r ∧ h = ⟨dot query r.2, h.position, r.1⟩ := by
    intro h hh
    obtain ⟨e, he, rfl⟩ := List.mem_map.mp hh
    exact ⟨e.1, List.mem_zipIdx_iff_getElem?.mp (List.mem_of_mem_filter he), rfl⟩
  constructor
  · intro h hh
    obtain ⟨r, hr, -⟩ := hat h hh
    exact (List.getElem?_eq_some_iff.mp hr).1
  · intro h hh h' hh' heq
    obtain ⟨r, hr, hmk⟩ := hat h hh
    obtain ⟨r', hr', hmk'⟩ := hat h' hh'
    rw [heq, hr'] at hr
    obtain rfl := Option.some.inj hr
    rw [hmk, hmk', heq]

theorem pythonTop_eq (vectors : Dict String (List ρ)) (query : List ρ) (topK : Nat)
    (includeIds : Option (Finset String)) :
    pythonTop dot vectors query topK includeIds =
      (sortedBy ScoredHit.key (pythonHits dot vectors query includeIds)).take topK := by
  rw [← sortedByDesc_eq_sortedBy_key pythonHits_place.2]
  rfl

/-- The row of a place in the order of insertion. -/
def Partition.rowOf : Partition ρ → Nat → Nat
  | .python _, place => place
  | .numpy p, place => (p.pos.rows.map Prod.snd).getD place 0

def ScoredHit.move (f : Nat → Nat) (h : ScoredHit σ) : ScoredHit σ :=
  { h with position := f h.position }

omit [LinearOrder σ] in
theorem Partition.rowOf_lt {q : Partition ρ} (h : q.Sound) {i j : Nat} (hij : i < j)
    (hj : j < q.toDict.size) : q.rowOf i < q.rowOf j := by
  cases q with
  | python vectors => exact hij
  | numpy p =>
      have hsorted := NumpyPartition.Sound.rows_sorted h
      have hlength : (p.pos.rows.map Prod.snd).length = p.toDict.size := by
        rw [List.length_map, Dict.size, NumpyPartition.rows_toDict, NumpyPartition.items,
          List.length_map]
      have hj : j < p.toDict.size := hj
      show (p.pos.rows.map Prod.snd).getD i 0 < (p.pos.rows.map Prod.snd).getD j 0
      rw [List.getD_eq_getElem _ _ (by omega), List.getD_eq_getElem _ _ (by omega)]
      exact List.pairwise_iff_getElem.mp hsorted i j _ _ hij

/-- Hits that keep their order can be moved before they are sorted. -/
theorem key_move_le_iff {f : Nat → Nat} {n : Nat} (hf : ∀ i j, i < j → j < n → f i < f j)
    {h h' : ScoredHit σ} (hh : h.position < n) (hh' : h'.position < n) :
    (h.move f).key ≤ (h'.move f).key ↔ h.key ≤ h'.key := by
  have hplace : f h.position ≤ f h'.position ↔ h.position ≤ h'.position := by
    constructor
    · intro hle
      by_contra hlt
      have := hf h'.position h.position (by omega) hh
      omega
    · intro hle
      rcases Nat.lt_or_eq_of_le hle with hlt | heq
      · exact (hf _ _ hlt hh').le
      · rw [heq]
  rw [ScoredHit.key_le_iff, ScoredHit.key_le_iff]
  exact or_congr_right (and_congr_right fun _ => hplace)

/-- Whatever the backend, the hits are those of the dictionary, at its rows. -/
theorem Partition.top_eq {q : Partition ρ} (h : q.Sound) (query : List ρ) {topK : Nat}
    (htop : 0 < topK) (includeIds : Option (Finset String)) :
    q.top dot query topK includeIds =
      (pythonTop dot q.toDict query topK includeIds).map (ScoredHit.move q.rowOf) := by
  cases q with
  | python vectors =>
      have hmove : ScoredHit.move (Partition.rowOf (.python vectors)) = (id : ScoredHit σ → _) := rfl
      rw [hmove, List.map_id]
      rfl
  | numpy p =>
      have hlive : p.liveHits dot query includeIds =
          (pythonHits dot p.toDict query includeIds).map
            (ScoredHit.move (Partition.rowOf (.numpy p))) := by
        have hrows : p.pos.rows = p.pos.rows.zipIdx.map Prod.fst := by
          rw [List.zipIdx_map_fst]
        rw [NumpyPartition.liveHits, pythonHits, NumpyPartition.rows_toDict, NumpyPartition.items,
          List.zipIdx_map, List.filter_map, List.map_map, List.map_map]
        conv_lhs => rw [hrows, List.filter_map, List.map_map]
        refine List.map_congr_left fun e he => ?_
        have hat := List.mem_zipIdx_iff_getElem?.mp (List.mem_of_mem_filter he)
        have hrow : Partition.rowOf (.numpy p) e.2 = e.1.2 := by
          show (p.pos.rows.map Prod.snd).getD e.2 0 = e.1.2
          rw [List.getD_eq_getElem?_getD, List.getElem?_map, hat]
          rfl
        show ScoredHit.mk _ e.1.2 _ = ScoredHit.mk _ (Partition.rowOf (.numpy p) e.2) _
        rw [hrow]
        rfl
      show p.top dot query topK includeIds = _
      rw [NumpyPartition.Sound.top_eq h includeIds htop, hlive, pythonTop_eq]
      have hplace := @pythonHits_place ρ σ dot p.toDict query includeIds
      rw [sortedBy_map (ScoredHit.key_inj hplace.2) fun i hi j hj =>
        key_move_le_iff (fun i j hij hj => Partition.rowOf_lt h hij hj) (hplace.1 i hi)
          (hplace.1 j hj), List.map_take]
      rfl

/-! The hits of several partitions. -/

/-- Best first, then by the partition, then by the position in it. -/
def mergeKey (e : ScoredHit σ × Nat) : Lex (σᵒᵈ × Lex (Nat × Nat)) :=
  toLex (OrderDual.toDual e.1.score, toLex (e.2, e.1.position))

/-- The hits of each partition, with its number. -/
def numbered (hits : List (List (ScoredHit σ))) : List (ScoredHit σ × Nat) :=
  hits.zipIdx.flatMap fun part => part.1.map fun h => (h, part.2)

theorem mergeKey_le_iff {e e' : ScoredHit σ × Nat} :
    mergeKey e ≤ mergeKey e' ↔ e'.1.score < e.1.score ∨ e.1.score = e'.1.score ∧
      (e.2 < e'.2 ∨ e.2 = e'.2 ∧ e.1.position ≤ e'.1.position) := by
  rw [mergeKey, mergeKey, Prod.Lex.toLex_le_toLex, Prod.Lex.toLex_le_toLex]
  simp only [OrderDual.toDual_lt_toDual, OrderDual.toDual_inj]

omit [LinearOrder σ] in
theorem mem_numbered {hits : List (List (ScoredHit σ))} {e : ScoredHit σ × Nat} :
    e ∈ numbered hits ↔ ∃ part, hits[e.2]? = some part ∧ e.1 ∈ part := by
  rw [numbered, List.mem_flatMap]
  constructor
  · rintro ⟨part, hpart, he⟩
    obtain ⟨h, hh, rfl⟩ := List.mem_map.mp he
    exact ⟨part.1, List.mem_zipIdx_iff_getElem?.mp hpart, hh⟩
  · rintro ⟨part, hpart, he⟩
    exact ⟨(part, e.2), List.mem_zipIdx_iff_getElem?.mpr hpart, List.mem_map.mpr ⟨e.1, he, rfl⟩⟩

/-- The rows at which a backend keeps its vectors do not show in the result. -/
theorem mergeHits_move {parts : List (Partition ρ)} {hits : Partition ρ → List (ScoredHit σ)}
    (hsound : ∀ q ∈ parts, q.Sound) {query : List ρ} {includeIds : Option (Finset String)}
    (hmem : ∀ q, ∀ h ∈ hits q, h ∈ pythonHits dot q.toDict query includeIds) (topK : Nat)
    (minScore : σ) (content : Dict String String) :
    mergeHits topK minScore content (parts.map fun q => (hits q).map (ScoredHit.move q.rowOf)) =
      mergeHits topK minScore content (parts.map hits) := by
  let move : ScoredHit σ × Nat → ScoredHit σ × Nat := fun e =>
    (e.1.move ((parts[e.2]?.map Partition.rowOf).getD id), e.2)
  have hall : numbered (parts.map fun q => (hits q).map (ScoredHit.move q.rowOf)) =
      (numbered (parts.map hits)).map move := by
    rw [numbered, numbered, List.zipIdx_map, List.zipIdx_map, List.flatMap_map, List.flatMap_map,
      List.map_flatMap]
    refine List.flatMap_congr fun part hpart => ?_
    have hat := List.mem_zipIdx_iff_getElem?.mp hpart
    simp only [Prod.map, List.map_map]
    refine List.map_congr_left fun h _ => ?_
    show _ = (h.move ((parts[part.2]?.map Partition.rowOf).getD id), part.2)
    rw [hat]
    rfl
  have hplace : ∀ e ∈ numbered (parts.map hits), ∃ q, parts[e.2]? = some q ∧ q ∈ parts ∧
      e.1 ∈ pythonHits dot q.toDict query includeIds := by
    intro e he
    obtain ⟨part, hpart, hin⟩ := mem_numbered.mp he
    rw [List.getElem?_map] at hpart
    obtain ⟨q, hq, rfl⟩ := Option.map_eq_some_iff.mp hpart
    exact ⟨q, hq, List.mem_of_getElem? hq, hmem q _ hin⟩
  have hinj : ∀ e ∈ numbered (parts.map hits), ∀ e' ∈ numbered (parts.map hits),
      mergeKey e = mergeKey e' → e = e' := by
    intro e he e' he' heq
    have horder : e.2 = e'.2 := congrArg (fun x => (ofLex (ofLex x).2).1) heq
    have hposition : e.1.position = e'.1.position := congrArg (fun x => (ofLex (ofLex x).2).2) heq
    obtain ⟨q, hq, -, hin⟩ := hplace e he
    obtain ⟨q', hq', -, hin'⟩ := hplace e' he'
    rw [← horder, hq] at hq'
    obtain rfl := Option.some.inj hq'
    exact Prod.ext (pythonHits_place.2 _ hin _ hin' hposition) horder
  have hle : ∀ e ∈ numbered (parts.map hits), ∀ e' ∈ numbered (parts.map hits),
      mergeKey (move e) ≤ mergeKey (move e') ↔ mergeKey e ≤ mergeKey e' := by
    intro e he e' he'
    rw [mergeKey_le_iff, mergeKey_le_iff]
    refine or_congr_right (and_congr_right fun hscore =>
      or_congr_right (and_congr_right fun horder => ?_))
    obtain ⟨q, hq, hparts, hin⟩ := hplace e he
    obtain ⟨q', hq', -, hin'⟩ := hplace e' he'
    have horder : e.2 = e'.2 := horder
    rw [← horder, hq] at hq'
    obtain rfl := Option.some.inj hq'
    have hkey := @key_move_le_iff σ _ q.rowOf q.toDict.size
      (fun i j hij hj => Partition.rowOf_lt (hsound q hparts) hij hj) e.1 e'.1
      (pythonHits_place.1 _ hin) (pythonHits_place.1 _ hin')
    have hscore : e.1.score = e'.1.score := hscore
    rw [ScoredHit.key_le_iff, ScoredHit.key_le_iff] at hkey
    have hmove : (move e).1 = e.1.move q.rowOf := by
      show e.1.move ((parts[e.2]?.map Partition.rowOf).getD id) = _
      rw [hq]
      rfl
    have hmove' : (move e').1 = e'.1.move q.rowOf := by
      show e'.1.move ((parts[e'.2]?.map Partition.rowOf).getD id) = _
      rw [← horder, hq]
      rfl
    rw [hmove, hmove']
    simpa [ScoredHit.move, hscore] using hkey
  show ((((sortedBy mergeKey (numbered _)).take topK).filter fun e => minScore ≤ e.1.score).map
      fun e => VectorSearchResult.mk e.1.fragmentId e.1.score
        ((content.get? e.1.fragmentId).getD "")) = _
  rw [hall, sortedBy_map hinj hle, ← List.map_take, List.filter_map, List.map_map]
  rfl

namespace VectorIndex

variable {index other : VectorIndex ρ}

omit [LinearOrder σ] in
theorem sound_searched (h : index.Sound) (agentId : Option String) :
    ∀ q ∈ index.searched agentId, q.Sound := by
  intro q hq
  cases agentId with
  | none =>
      obtain ⟨r, hr, rfl⟩ := List.mem_map.mp hq
      exact h.partitions.sound r hr
  | some agentId => exact (h.partitions.get (Option.mem_toList.mp hq)).1

/-- The dictionaries that a search looks at. -/
def heldSearched (held : HeldVectors ρ) : Option String → List (Dict String (List ρ))
  | some agentId => (held.get? (some agentId)).toList
  | none => held.rows.map Prod.snd

omit [LinearOrder σ] in
theorem searched_toDict (index : VectorIndex ρ) (agentId : Option String) :
    (index.searched agentId).map Partition.toDict = heldSearched index.held agentId := by
  cases agentId with
  | none =>
      show (index.partitions.rows.map Prod.snd).map Partition.toDict =
        ((index.partitions.mapValues Partition.toDict).rows).map Prod.snd
      rw [Dict.rows_mapValues, List.map_map, List.map_map]
      rfl
  | some agentId =>
      show ((index.partitions.get? (some agentId)).toList).map Partition.toDict =
        (index.held.get? (some agentId)).toList
      rw [held_get?]
      cases index.partitions.get? (some agentId) <;> rfl

/-- A search sees the dictionaries, the contents and the dimension only. -/
theorem search_eq (env : IndexEnv ρ) (h : index.Sound) (h' : other.Sound)
    (hheld : index.held = other.held) (hcontent : index.content = other.content)
    (hdim : index.dim = other.dim) (query : List ρ) (topK : Int) (minScore : σ)
    (includeIds : Option (Finset String)) (agentId : Option String) :
    index.search dot env query topK minScore includeIds agentId =
      other.search dot env query topK minScore includeIds agentId := by
  rw [search, search]
  split
  case isTrue => rfl
  case isFalse hasked =>
    have htop : 0 < topK.toNat := by omega
    have hhits : ∀ {index : VectorIndex ρ}, index.Sound →
        mergeHits topK.toNat minScore index.content ((index.searched agentId).map fun q =>
          q.top dot (env.normalize query) topK.toNat includeIds) =
        mergeHits topK.toNat minScore index.content
          (((index.searched agentId).map Partition.toDict).map fun d =>
            pythonTop dot d (env.normalize query) topK.toNat includeIds) := by
      intro index h
      have hsound := sound_searched h agentId
      have hmem : ∀ q : Partition ρ, ∀ h ∈ pythonTop dot q.toDict (env.normalize query) topK.toNat
          includeIds, h ∈ pythonHits dot q.toDict (env.normalize query) includeIds := by
        intro q h hh
        rw [pythonTop_eq] at hh
        exact sortedBy_perm.mem_iff.mp (List.mem_of_mem_take hh)
      have htops : (index.searched agentId).map (fun q =>
          q.top dot (env.normalize query) topK.toNat includeIds) =
            (index.searched agentId).map fun q =>
              (pythonTop dot q.toDict (env.normalize query) topK.toNat includeIds).map
                (ScoredHit.move q.rowOf) :=
        List.map_congr_left fun q hq => Partition.top_eq (hsound q hq) _ htop includeIds
      rw [htops, mergeHits_move hsound hmem, List.map_map]
      rfl
    have hsame : (index.searched agentId).map Partition.toDict =
        (other.searched agentId).map Partition.toDict := by
      rw [searched_toDict, searched_toDict, hheld]
    rw [hdim]
    cases other.dim with
    | none => rfl
    | some dim =>
        simp only
        split
        · rfl
        · rw [hhits h, hhits h', hsame, hcontent]

end VectorIndex

end Backends

end MarkSdk
