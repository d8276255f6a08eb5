import MarkSdk.Retrieval.Finish

/-!
Following the entities of the first results to further memories.

What a lookup finds is placed behind the memory that led to it
(`placeAfter`): a memory that is in the list already is moved up, a new one is
inserted. No document is counted there, so the list keeps to two chunks of a
document exactly where every new chunk still has room (`uncrowded_placeAfter_iff`).
-/

namespace MarkSdk

open Lib

/-- `_MAX_SOURCES`, and `_SUPERSEDER_SOURCES` -/
def maxSources : Nat := 3

def maxBridges : Nat := 3

def hopEvidence : ℚ := 7 / 10

def weakMatch : ℚ := 1 / 4

def minSourceRelevance : ℚ := 1 / 4

/-- The arguments of `_place_after`. -/
structure Placement where
  source : Fragment
  candidate : Fragment
  evidence : ℚ
  move : Bool
  shown : Option ℚ

/-- What the words of a query and the index tell. -/
structure Lookups where
  /-- `gap_anchors` finds some -/
  hasGapAnchors : Bool
  /-- `query_anchors` finds some -/
  hasAnchors : Bool
  /-- `_coverage(query_terms, content) >= 1.0` -/
  covers : Fragment → Bool
  /-- the memory contains an anchor of the query -/
  aboutAnchor : Fragment → Bool
  /-- `content_entities` -/
  contentEntities : Fragment → List String
  /-- `_contains_anchor(query_norm, entity)` -/
  inQuery : String → Bool
  /-- `_lookup` -/
  lookup : String → List Fragment
  /-- `_relevance(query_terms, content, 0.0)` -/
  relevance : Fragment → ℚ
  /-- `_near` the words of the query, in the memory -/
  near : Fragment → String → Bool
  /-- the candidate is worded as an update and supersedes the source -/
  updates : Fragment → Fragment → Bool
  /-- `update_lookups` -/
  updateLookups : Option (List String × (Fragment → Bool))
  /-- the candidate is worded as an update and happened after the source -/
  laterUpdate : Fragment → Fragment → Bool

def idsOf (out : List Ranked) : List String := out.map fun r => r.fragment.id

/-- The relevance of the result that a new one would push out of the top. -/
def tailRelevance (topK : Nat) (out : List Ranked) : ℚ :=
  if out.length < topK then 0
  else ((if topK = 0 then out.getLast? else out[topK - 1]?).map Ranked.relevance).getD 0

/-- A new candidate evicts no strong match that is stronger than its evidence. -/
def joins (topK : Nat) (out : List Ranked) (p : Placement) : Bool :=
  !(decide (weakMatch ≤ tailRelevance topK out) && decide (p.evidence < tailRelevance topK out))

/-- Behind the source at `i`; a hop also waits behind those of the same score
and direct matches that are strong enough. -/
def insertBehind (p : Placement) (out : List Ranked) (i : Nat) (fragment : Fragment)
    (relevance : ℚ) : List Ranked :=
  let score := (out[i]?.map Ranked.score).getD 0
  let waits : Ranked → Bool := fun r => decide (r.score = score) || decide (p.evidence ≤ r.relevance)
  let position := i + 1 +
    if p.shown.isNone then ((out.drop (i + 1)).takeWhile waits).length else 0
  out.take position ++
    ⟨fragment, (out[position - 1]?.map Ranked.score).getD 0, relevance⟩ :: out.drop position

namespace Lookups

variable (q : Lookups) (topK : Nat)

/-- `_place_after`, with whether the list changed; none where the source is
not in the list. -/
def placeAfter (out : List Ranked) (p : Placement) : Option (List Ranked × Bool) :=
  if p.source.id ∈ idsOf out then
    let i := (idsOf out).idxOf p.source.id
    if p.candidate.id ∈ idsOf out then
      let current := (idsOf out).idxOf p.candidate.id
      if current ≤ i ∨ p.move = false then some (out, false)
      else (out[current]?).map fun entry =>
        (insertBehind p (out.eraseIdx current) i entry.fragment entry.relevance, true)
    else if joins topK out p then
      some (insertBehind p out i p.candidate
        (max (p.shown.getD p.evidence) (q.relevance p.candidate)), true)
    else some (out, false)
  else none

/-- Placements in turn, and the candidates that changed the list. -/
def placeAll : List Placement → List Ranked → Option (List Ranked × List (Fragment × ℚ))
  | [], out => some (out, [])
  | p :: ps, out => do
      let (out, changed) ← q.placeAfter topK out p
      let (out, reached) ← placeAll ps out
      return (out, if changed then (p.candidate, p.evidence) :: reached else reached)

/-- The entities of a hop so far: those seen in any hop, the bridges of this
one and the placements they lead to. -/
structure HopScan where
  seen : List String
  bridges : Nat
  calls : List Placement

def scanEntity (source : Fragment × ℚ) (s : HopScan) (entity : String) : HopScan :=
  if maxBridges ≤ s.bridges then s
  else if entity ∈ s.seen ∨ q.inQuery entity = true then s
  else
    { seen := entity :: s.seen
      bridges := s.bridges + 1
      calls := s.calls ++ (q.lookup entity).map fun candidate =>
        ⟨source.1, candidate, source.2 * hopEvidence, true, none⟩ }

def scanHop (sources : List (Fragment × ℚ)) (seen : List String) : HopScan :=
  sources.foldl (fun s source => (q.contentEntities source.1).foldl (q.scanEntity source) s)
    ⟨seen, 0, []⟩

/-- The hops; each goes on from what the one before reached. -/
def hopsFrom : Nat → List (Fragment × ℚ) → List String → List Ranked → Option (List Ranked)
  | 0, _, _, out => some out
  | hops + 1, sources, seen, out => do
      let (out, reached) ← q.placeAll topK (q.scanHop sources seen).calls out
      if reached.isEmpty then return out
      else hopsFrom hops (reached.take maxSources) (q.scanHop sources seen).seen out

/-- The first results that are about an anchor of the query. -/
def hopSources (l : List Ranked) : List (Fragment × ℚ) :=
  ((l.take maxSources).filter fun r => q.aboutAnchor r.fragment).map fun r =>
    (r.fragment, r.relevance)

/-- Nothing to bridge, or nothing to go by. -/
def noHops (hops : Nat) (l : List Ranked) : Bool :=
  hops = 0 || !q.hasGapAnchors || l.head?.all fun r => q.covers r.fragment

def multiHop (hops : Nat) (l : List Ranked) : Option (List Ranked) :=
  if q.noHops hops l then some l
  else (q.hopsFrom topK hops (q.hopSources l) [] l).map fun out => out.take topK

/-- The updates of the first results that their entities lead to. -/
def updatePlacements (l : List Ranked) : List Placement :=
  (l.take maxSources).flatMap fun r =>
    if r.relevance < minSourceRelevance then []
    else
      let entities := (q.contentEntities r.fragment).filter fun e => !q.inQuery e
      let ordered := (entities.filter fun e => q.near r.fragment e) ++
        entities.filter fun e => !q.near r.fragment e
      (ordered.take 2).flatMap fun e =>
        ((q.lookup e).filter fun candidate => q.updates candidate r.fragment).map fun candidate =>
          ⟨r.fragment, candidate, 1, false, some r.relevance⟩

/-- `_pull_unnamed_updates`: those that the words of a change lead to. -/
def unnamedPlacements (out : List Ranked) : List Placement :=
  match q.updateLookups with
  | none => []
  | some (words, member) =>
      match out.find? fun r => member r.fragment with
      | none => []
      | some r =>
          if r.relevance < minSourceRelevance then []
          else words.flatMap fun w =>
            ((q.lookup w).filter fun candidate =>
              decide (candidate.id ≠ r.fragment.id) && member candidate &&
                q.laterUpdate candidate r.fragment).map fun candidate =>
              ⟨r.fragment, candidate, 1, false, some r.relevance⟩

def pullSuperseders (l : List Ranked) : Option (List Ranked) :=
  if q.hasAnchors then some l
  else do
    let (out, _) ← q.placeAll topK (q.updatePlacements l) l
    let (out, _) ← q.placeAll topK (q.unnamedPlacements out) out
    return out.take topK

end Lookups

/-! ### One placement -/

def fragmentsOf (out : List Ranked) : List Fragment := out.map Ranked.fragment

/-- At most two chunks of each document. -/
def Uncrowded (fragments : List Fragment) : Prop :=
  ∀ d, countKey Fragment.documentId (some d) fragments ≤ maxPerDocument

/-- A new memory that is placed has no document, or one with fewer than two
chunks in the list. -/
def HasRoom (topK : Nat) (out : List Ranked) (p : Placement) : Prop :=
  p.candidate.id ∉ idsOf out → joins topK out p = true → ∀ d, p.candidate.documentId = some d →
    countKey Fragment.documentId (some d) (fragmentsOf out) < maxPerDocument

variable {q : Lookups} {topK : Nat} {out out' : List Ranked} {p : Placement} {changed : Bool}

theorem Uncrowded.of_subperm {fs fs' : List Fragment} (h : Uncrowded fs') (hsub : fs.Subperm fs') :
    Uncrowded fs := by
  intro d
  obtain ⟨l, hperm, hsublist⟩ := hsub
  rw [← countKey_perm hperm]
  exact (countKey_le_of_sublist hsublist _).trans (h d)

theorem insertBehind_perm (p : Placement) (out : List Ranked) (i : Nat) (fragment : Fragment)
    (relevance : ℚ) :
    (fragmentsOf (insertBehind p out i fragment relevance)).Perm (fragment :: fragmentsOf out) := by
  rw [insertBehind, fragmentsOf, List.map_append, List.map_cons]
  refine List.perm_middle.trans (List.Perm.cons _ ?_)
  rw [← List.map_append, List.take_append_drop]
  exact List.Perm.refl _

/-- A placement leaves the memories as they are, or adds a new one. -/
theorem placeAfter_cases (h : q.placeAfter topK out p = some (out', changed)) :
    (fragmentsOf out').Perm (fragmentsOf out) ∧ p.candidate.id ∈ idsOf out ∨
      (out' = out ∧ changed = false ∧ joins topK out p = false) ∨
      (p.candidate.id ∉ idsOf out ∧ joins topK out p = true ∧
        (fragmentsOf out').Perm (p.candidate :: fragmentsOf out)) := by
  rw [Lookups.placeAfter] at h
  split at h
  · dsimp only at h
    split at h
    · rename_i hold
      split at h
      · cases h
        exact .inl ⟨List.Perm.refl _, hold⟩
      · obtain ⟨entry, hentry, heq⟩ := Option.map_eq_some_iff.mp h
        cases heq
        obtain ⟨hlt, hget⟩ := List.getElem?_eq_some_iff.mp hentry
        refine .inl ⟨(insertBehind_perm _ _ _ _ _).trans ?_, hold⟩
        have hperm := (List.getElem_cons_eraseIdx_perm hlt).map Ranked.fragment
        rw [hget] at hperm
        exact hperm
    · rename_i hnew
      split at h
      · rename_i hjoins
        cases h
        exact .inr (.inr ⟨hnew, hjoins, insertBehind_perm _ _ _ _ _⟩)
      · rename_i hjoins
        cases h
        exact .inr (.inl ⟨rfl, rfl, by simpa using hjoins⟩)
  · cases h

/-- The list keeps to its quota exactly where a new memory has room. -/
theorem uncrowded_placeAfter_iff (h : q.placeAfter topK out p = some (out', changed))
    (hout : Uncrowded (fragmentsOf out)) :
    Uncrowded (fragmentsOf out') ↔ HasRoom topK out p := by
  rcases placeAfter_cases h with ⟨hperm, hold⟩ | ⟨rfl, -, hweak⟩ | ⟨hnew, hjoins, hperm⟩
  · exact ⟨fun _ hnew => absurd hold hnew, fun _ => hout.of_subperm hperm.subperm⟩
  · refine ⟨fun _ _ hjoins => ?_, fun _ => hout⟩
    rw [hweak] at hjoins
    cases hjoins
  · constructor
    · intro hout' _ _ d hd
      have hcount := hout' d
      rw [countKey_perm hperm, countKey_cons_self hd] at hcount
      exact hcount
    · intro hroom d
      rw [countKey_perm hperm]
      by_cases hd : p.candidate.documentId = some d
      · rw [countKey_cons_self hd]
        exact hroom hnew hjoins d hd
      · rw [countKey_cons_ne hd]
        exact hout d

/-- No id leaves the list, and that of a candidate that changed it is there. -/
theorem placeAfter_ids (h : q.placeAfter topK out p = some (out', changed)) :
    idsOf out ⊆ idsOf out' ∧ (changed = true → p.candidate.id ∈ idsOf out') := by
  have hids : ∀ l : List Ranked, idsOf l = (fragmentsOf l).map Fragment.id := fun l => by
    rw [idsOf, fragmentsOf, List.map_map]
    rfl
  rcases placeAfter_cases h with ⟨hperm, hold⟩ | ⟨rfl, rfl, -⟩ | ⟨-, -, hperm⟩
  · have hsub : idsOf out ⊆ idsOf out' := by
      rw [hids, hids]
      exact (hperm.symm.map Fragment.id).subset
    exact ⟨hsub, fun _ => hsub hold⟩
  · exact ⟨List.Subset.refl _, fun hchanged => nomatch hchanged⟩
  · rw [hids, hids]
    have hsub := (hperm.symm.map Fragment.id).subset
    exact ⟨fun x hx => hsub (List.mem_cons_of_mem _ hx), fun _ => hsub List.mem_cons_self⟩

theorem placeAfter_some (q : Lookups) (topK : Nat) (h : p.source.id ∈ idsOf out) :
    ∃ r, q.placeAfter topK out p = some r := by
  rw [Lookups.placeAfter, if_pos h]
  dsimp only
  split
  · rename_i hold
    split
    · exact ⟨_, rfl⟩
    · have hlt : (idsOf out).idxOf p.candidate.id < out.length := by
        have hidx := List.idxOf_lt_length_of_mem hold
        rwa [idsOf, List.length_map] at hidx
      rw [List.getElem?_eq_getElem hlt]
      exact ⟨_, rfl⟩
  · split
    · exact ⟨_, rfl⟩
    · exact ⟨_, rfl⟩

/-! ### Placements in turn -/

namespace Lookups

/-- Each of the placements has room when its turn comes. -/
def Spaced (q : Lookups) (topK : Nat) : List Placement → List Ranked → Prop
  | [], _ => True
  | p :: ps, out => HasRoom topK out p ∧
      ∀ out' changed, q.placeAfter topK out p = some (out', changed) → Spaced q topK ps out'

/-- The same for the hops. -/
def HopsSpaced (q : Lookups) (topK : Nat) :
    Nat → List (Fragment × ℚ) → List String → List Ranked → Prop
  | 0, _, _, _ => True
  | hops + 1, sources, seen, out =>
      q.Spaced topK (q.scanHop sources seen).calls out ∧
        ∀ out' reached, q.placeAll topK (q.scanHop sources seen).calls out = some (out', reached) →
          reached ≠ [] →
            HopsSpaced q topK hops (reached.take maxSources) (q.scanHop sources seen).seen out'

def MultiHopSpaced (q : Lookups) (topK hops : Nat) (l : List Ranked) : Prop :=
  q.noHops hops l = false → q.HopsSpaced topK hops (q.hopSources l) [] l

def SupersedersSpaced (q : Lookups) (topK : Nat) (l : List Ranked) : Prop :=
  q.hasAnchors = false → q.Spaced topK (q.updatePlacements l) l ∧
    ∀ out reached, q.placeAll topK (q.updatePlacements l) l = some (out, reached) →
      q.Spaced topK (q.unnamedPlacements out) out

variable {ps : List Placement} {reached : List (Fragment × ℚ)}

theorem placeAll_cons (h : q.placeAll topK (p :: ps) out = some (out', reached)) :
    ∃ middle changed rest, q.placeAfter topK out p = some (middle, changed) ∧
      q.placeAll topK ps middle = some (out', rest) ∧
      reached = if changed then (p.candidate, p.evidence) :: rest else rest := by
  rw [placeAll] at h
  obtain ⟨⟨middle, changed⟩, hplace, h⟩ := Option.bind_eq_some_iff.mp h
  obtain ⟨⟨out'', rest⟩, hall, h⟩ := Option.bind_eq_some_iff.mp h
  cases h
  exact ⟨middle, changed, rest, hplace, hall, rfl⟩

theorem uncrowded_placeAll (h : q.placeAll topK ps out = some (out', reached))
    (hspaced : q.Spaced topK ps out) (hout : Uncrowded (fragmentsOf out)) :
    Uncrowded (fragmentsOf out') := by
  induction ps generalizing out out' reached with
  | nil =>
    cases h
    exact hout
  | cons p ps ih =>
    obtain ⟨middle, changed, rest, hplace, hall, -⟩ := placeAll_cons h
    obtain ⟨hroom, hnext⟩ := hspaced
    exact ih hall (hnext middle changed hplace) ((uncrowded_placeAfter_iff hplace hout).mpr hroom)

/-- Where the sources are in the list, they stay there, and what is reached is
there too. -/
theorem placeAll_some (q : Lookups) (topK : Nat) (h : ∀ p ∈ ps, p.source.id ∈ idsOf out) :
    ∃ out' reached, q.placeAll topK ps out = some (out', reached) ∧ idsOf out ⊆ idsOf out' ∧
      ∀ c ∈ reached, c.1.id ∈ idsOf out' := by
  induction ps generalizing out with
  | nil => exact ⟨out, [], rfl, List.Subset.refl _, fun c hc => absurd hc List.not_mem_nil⟩
  | cons p ps ih =>
    obtain ⟨hp, hps⟩ := List.forall_mem_cons.mp h
    obtain ⟨⟨middle, changed⟩, hplace⟩ := placeAfter_some q topK hp
    obtain ⟨hids, hcandidate⟩ := placeAfter_ids hplace
    obtain ⟨out', rest, hall, hids', hrest⟩ := ih fun p' hp' => hids (hps p' hp')
    refine ⟨out', if changed then (p.candidate, p.evidence) :: rest else rest, ?_,
      List.Subset.trans hids hids', ?_⟩
    · rw [placeAll, hplace]
      show ((q.placeAll topK ps middle).bind fun r => _) = _
      rw [hall]
      rfl
    · intro c hc
      split at hc
      · rename_i hchanged
        rcases List.mem_cons.mp hc with rfl | hc
        · exact hids' (hcandidate hchanged)
        · exact hrest c hc
      · exact hrest c hc

/-- A hop places what it finds for the entities of its sources. -/
def Bridged (q : Lookups) (sources : List (Fragment × ℚ)) (p : Placement) : Prop :=
  ∃ c ∈ sources, p.source = c.1 ∧
    ∃ e ∈ q.contentEntities c.1, q.inQuery e = false ∧ p.candidate ∈ q.lookup e

theorem bridged_scanHop (q : Lookups) (sources : List (Fragment × ℚ)) (seen : List String) :
    ∀ p ∈ (q.scanHop sources seen).calls, q.Bridged sources p := by
  have hentity : ∀ (source : Fragment × ℚ) (s : HopScan) (entity : String),
      source ∈ sources → entity ∈ q.contentEntities source.1 →
        (∀ p ∈ s.calls, q.Bridged sources p) →
          ∀ p ∈ (q.scanEntity source s entity).calls, q.Bridged sources p := by
    intro source s entity hsource hentity hs p hp
    rw [scanEntity] at hp
    split at hp
    · exact hs p hp
    · split at hp
      · exact hs p hp
      · rename_i hnew
        obtain ⟨-, hnamed⟩ := not_or.mp hnew
        rcases List.mem_append.mp hp with hp | hp
        · exact hs p hp
        · obtain ⟨candidate, hcandidate, rfl⟩ := List.mem_map.mp hp
          exact ⟨source, hsource, rfl, entity, hentity, by simpa using hnamed, hcandidate⟩
  rw [scanHop]
  refine List.foldlRecOn (motive := fun s : HopScan => ∀ p ∈ s.calls, q.Bridged sources p)
    sources _ (fun p hp => absurd hp List.not_mem_nil) fun s hs source hsource => ?_
  exact List.foldlRecOn (motive := fun s : HopScan => ∀ p ∈ s.calls, q.Bridged sources p)
    (q.contentEntities source.1) _ hs
    fun s hs entity hmem => hentity source s entity hsource hmem hs

/-- The placements of the updates lead from memories of the list. -/
theorem mem_updatePlacements {l : List Ranked} (h : p ∈ q.updatePlacements l) :
    p.source ∈ fragmentsOf l ∧
      ∃ e ∈ q.contentEntities p.source, q.inQuery e = false ∧ p.candidate ∈ q.lookup e := by
  obtain ⟨r, hr, hp⟩ := List.mem_flatMap.mp h
  have hmem : r.fragment ∈ fragmentsOf l := List.mem_map_of_mem (List.take_subset _ _ hr)
  split at hp
  · exact absurd hp List.not_mem_nil
  · obtain ⟨e, he, hp⟩ := List.mem_flatMap.mp hp
    obtain ⟨candidate, hcandidate, rfl⟩ := List.mem_map.mp hp
    have hentity : e ∈ (q.contentEntities r.fragment).filter fun e => !q.inQuery e := by
      rcases List.mem_append.mp (List.take_subset _ _ he) with he | he
      · exact (List.mem_filter.mp he).1
      · exact (List.mem_filter.mp he).1
    obtain ⟨hentity, hnamed⟩ := List.mem_filter.mp hentity
    exact ⟨hmem, e, hentity, by simpa using hnamed, (List.mem_filter.mp hcandidate).1⟩

theorem mem_unnamedPlacements (h : p ∈ q.unnamedPlacements out) :
    p.source ∈ fragmentsOf out ∧ ∃ words member, q.updateLookups = some (words, member) ∧
      ∃ w ∈ words, p.candidate ∈ q.lookup w := by
  rw [unnamedPlacements] at h
  split at h
  · exact absurd h List.not_mem_nil
  · rename_i words member hwords
    split at h
    · exact absurd h List.not_mem_nil
    · rename_i r hr
      split at h
      · exact absurd h List.not_mem_nil
      · obtain ⟨w, hw, hp⟩ := List.mem_flatMap.mp h
        obtain ⟨candidate, hcandidate, rfl⟩ := List.mem_map.mp hp
        exact ⟨List.mem_map_of_mem (List.mem_of_find?_eq_some hr), words, member, hwords, w, hw,
          (List.mem_filter.mp hcandidate).1⟩

/-- The hops return a list, which keeps to its quota if they are spaced. -/
theorem hopsFrom_spec (q : Lookups) (topK hops : Nat) {sources : List (Fragment × ℚ)}
    (seen : List String) (hsources : ∀ c ∈ sources, c.1.id ∈ idsOf out) :
    ∃ out', q.hopsFrom topK hops sources seen out = some out' ∧
      (q.HopsSpaced topK hops sources seen out → Uncrowded (fragmentsOf out) →
        Uncrowded (fragmentsOf out')) := by
  induction hops generalizing sources seen out with
  | zero => exact ⟨out, rfl, fun _ hout => hout⟩
  | succ hops ih =>
    have hcalls : ∀ p ∈ (q.scanHop sources seen).calls, p.source.id ∈ idsOf out := by
      intro p hp
      obtain ⟨c, hc, hsource, -⟩ := q.bridged_scanHop sources seen p hp
      rw [hsource]
      exact hsources c hc
    obtain ⟨middle, reached, hall, -, hreached⟩ := placeAll_some q topK hcalls
    rw [hopsFrom, hall]
    show ∃ out', (if reached.isEmpty then some middle else _) = some out' ∧ _
    cases reached with
    | nil => exact ⟨middle, rfl, fun hspaced hout => uncrowded_placeAll hall hspaced.1 hout⟩
    | cons c reached =>
      obtain ⟨out', hrest, hkeeps⟩ := ih (q.scanHop sources seen).seen
        fun c' hc' => hreached c' (List.take_subset _ _ hc')
      refine ⟨out', hrest, fun hspaced hout => hkeeps ?_ (uncrowded_placeAll hall hspaced.1 hout)⟩
      exact hspaced.2 middle (c :: reached) hall (List.cons_ne_nil _ _)

theorem uncrowded_take (h : Uncrowded (fragmentsOf out)) (n : Nat) :
    Uncrowded (fragmentsOf (out.take n)) :=
  h.of_subperm ((List.take_sublist n out).map Ranked.fragment).subperm

theorem multiHop_spec (q : Lookups) (topK hops : Nat) (l : List Ranked) :
    ∃ out, q.multiHop topK hops l = some out ∧
      (q.MultiHopSpaced topK hops l → Uncrowded (fragmentsOf l) → Uncrowded (fragmentsOf out)) := by
  rw [multiHop]
  split
  · exact ⟨l, rfl, fun _ hl => hl⟩
  · rename_i hhops
    have hsources : ∀ c ∈ q.hopSources l, c.1.id ∈ idsOf l := by
      intro c hc
      obtain ⟨r, hr, rfl⟩ := List.mem_map.mp hc
      exact List.mem_map_of_mem (List.take_subset _ _ (List.mem_filter.mp hr).1)
    obtain ⟨out, hout, hkeeps⟩ := q.hopsFrom_spec topK hops [] hsources
    rw [hout]
    refine ⟨out.take topK, rfl, fun hspaced hl => uncrowded_take (hkeeps ?_ hl) topK⟩
    exact hspaced (by simpa using hhops)

theorem pullSuperseders_spec (q : Lookups) (topK : Nat) (l : List Ranked) :
    ∃ out, q.pullSuperseders topK l = some out ∧
      (q.SupersedersSpaced topK l → Uncrowded (fragmentsOf l) → Uncrowded (fragmentsOf out)) := by
  rw [pullSuperseders]
  split
  · exact ⟨l, rfl, fun _ hl => hl⟩
  · rename_i hanchors
    have hids : ∀ (l : List Ranked) (f : Fragment), f ∈ fragmentsOf l → f.id ∈ idsOf l := by
      intro l f hf
      obtain ⟨r, hr, rfl⟩ := List.mem_map.mp hf
      exact List.mem_map_of_mem hr
    have hupdates : ∀ p ∈ q.updatePlacements l, p.source.id ∈ idsOf l :=
      fun p hp => hids l _ (mem_updatePlacements hp).1
    obtain ⟨middle, reached, hall, -, -⟩ := placeAll_some q topK hupdates
    have hunnamed : ∀ p ∈ q.unnamedPlacements middle, p.source.id ∈ idsOf middle :=
      fun p hp => hids middle _ (mem_unnamedPlacements hp).1
    obtain ⟨out, reached', hall', -, -⟩ := placeAll_some q topK hunnamed
    refine ⟨out.take topK, ?_, fun hspaced hl => uncrowded_take ?_ topK⟩
    · show ((q.placeAll topK (q.updatePlacements l) l).bind fun r => _) = _
      rw [hall]
      show ((q.placeAll topK (q.unnamedPlacements middle) middle).bind fun r => _) = _
      rw [hall']
      rfl
    · obtain ⟨hfirst, hsecond⟩ := hspaced (by simpa using hanchors)
      exact uncrowded_placeAll hall' (hsecond middle reached hall) (uncrowded_placeAll hall hfirst hl)

end Lookups

end MarkSdk
