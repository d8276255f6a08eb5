import MarkSdk.Retrieval.MultiHop
import MarkSdk.Retrieval.Ordering

/-!
Documents and the list that a recall returns.

Of the ranked memories at most two chunks of a document reach the list, and
the next best take the freed places. Both have a limit: only twice as many
candidates are ranked as the list may have, and what the lookups place in the
list is not counted. The list keeps to two chunks where no more are shown or
can be found, and a short list is complete exactly where the pool of candidates
is rich enough, or all others belong to documents that have their two
(`retrieveOne_uncrowded`).
-/

namespace MarkSdk

open Lib

/-- A query after its candidates have been scored. -/
structure Recall where
  candidates : Candidates
  lookups : Lookups
  asked : Asked
  floor : Floor
  /-- `min(spec.graph_depth, 2)` -/
  hops : Nat
  /-- the query names a date -/
  namesDate : Bool
  /-- `effective_top_k` -/
  topK : Nat
  /-- `_maybe_compress` -/
  compress : List Fragment → List Fragment

namespace Recall

variable (r : Recall)

/-- The list that is ranked and diversified. -/
def listed (scored : List RerankResult) : Except StoreError (List Ranked) :=
  r.candidates.finish scored r.topK

/-- Updates are looked up where no date is named. -/
def updated (hopped : List Ranked) : Option (List Ranked) :=
  if r.namesDate then some hopped else r.lookups.pullSuperseders r.topK hopped

/-- The end of `_retrieve_one`, from the scored candidates on; none where it
raises. -/
def retrieveOne (scored : List RerankResult) : Option (List Fragment) := do
  let listed ← (r.listed scored).toOption
  let hopped ← r.lookups.multiHop r.topK r.hops listed
  let pulled ← r.updated hopped
  return r.compress (fragmentsOf (r.asked.orderAndReport r.floor r.namesDate pulled))

/-- The retrievable memories of the candidates that are ranked. -/
def pool (scored : List RerankResult) : List Ranked :=
  (rerank scored (r.topK * 2)).filterMap r.candidates.rankedOf

/-- A short list has every retrievable candidate, but for chunks of documents
that have their two in it. -/
def Complete (scored : List RerankResult) (listed : List Ranked) : Prop :=
  listed.length < r.topK → ∀ result ∈ scored, ∀ f,
    r.candidates.fragmentOf result.fragmentId = some f → f.state.retrievable = true →
      f ∈ fragmentsOf listed ∨ ∃ d, f.documentId = some d ∧
        maxPerDocument ≤ countKey Fragment.documentId (some d) (fragmentsOf listed)

/-- The pool fills the list, counting two of each document, or whatever is
retrievable beyond it belongs to a document with two chunks in it. -/
def PoolSuffices (scored : List RerankResult) : Prop :=
  r.topK ≤ room Ranked.documentId maxPerDocument (r.pool scored) ∨
    ∀ result ∈ (sortedByDesc RerankResult.score scored).drop (r.topK * 2), ∀ f,
      r.candidates.fragmentOf result.fragmentId = some f → f.state.retrievable = true →
        ∃ d, f.documentId = some d ∧
          maxPerDocument ≤ countKey Fragment.documentId (some d) (fragmentsOf (r.pool scored))

/-- A memory of the pool that, in the order of display, is first or has fewer
than two chunks of its document and room for less than the list before it. -/
def Shown (scored : List RerankResult) (f : Fragment) : Prop :=
  ∃ before x after, r.candidates.sortByDisplay (r.pool scored) = before ++ x :: after ∧
    x.fragment = f ∧
    (∀ d, f.documentId = some d → countKey Ranked.documentId (some d) before < maxPerDocument) ∧
    (before = [] ∨ room Ranked.documentId maxPerDocument before < r.topK)

/-- A memory that lookups lead to: by the entities of what is shown or found, or
by the words of a change. -/
inductive Found (scored : List RerankResult) : Fragment → Prop
  | shown {f c : Fragment} {e : String} : r.Shown scored f → e ∈ r.lookups.contentEntities f →
      r.lookups.inQuery e = false → c ∈ r.lookups.lookup e → Found scored c
  | found {f c : Fragment} {e : String} : Found scored f → e ∈ r.lookups.contentEntities f →
      r.lookups.inQuery e = false → c ∈ r.lookups.lookup e → Found scored c
  | change {words : List String} {member : Fragment → Bool} {c : Fragment} {w : String} :
      r.lookups.updateLookups = some (words, member) → w ∈ words → c ∈ r.lookups.lookup w →
        Found scored c

/-- Of each document at most two chunks are shown or found. -/
def Spaced (scored : List RerankResult) : Prop :=
  ∀ d, ∃ ids : Finset String, ids.card ≤ maxPerDocument ∧
    ∀ c, r.Shown scored c ∨ r.Found scored c → c.documentId = some d → c.id ∈ ids

/-- Candidates and memories are told apart by their ids, and compression
leaves memories out or shortens them. -/
structure Proper (scored : List RerankResult) : Prop where
  nodup : (scored.map RerankResult.fragmentId).Nodup
  id : ∀ id f, r.candidates.fragmentOf id = some f → f.id = id
  compress : ∀ fs, ((r.compress fs).map Fragment.documentId).Subperm (fs.map Fragment.documentId)

variable {r} {scored : List RerankResult} {listed : List Ranked}

theorem countKey_map {α β δ : Type} [DecidableEq δ] (f : α → β) (key : β → Option δ)
    (o : Option δ) (xs : List α) :
    countKey key o (xs.map f) = countKey (fun x => key (f x)) o xs := by
  rw [countKey, List.filter_map, List.length_map]
  rfl

theorem countKey_fragmentsOf (o : Option DocumentKey) (l : List Ranked) :
    countKey Fragment.documentId o (fragmentsOf l) = countKey Ranked.documentId o l :=
  countKey_map _ _ _ _

theorem listed_eq (h : r.listed scored = .ok listed) :
    listed = quota Ranked.documentId maxPerDocument r.topK
      (r.candidates.sortByDisplay (r.pool scored)) :=
  diversifyFrom_eq h

/-- Where every id of the pool can be counted, there is a list. -/
theorem exists_listed (h : ∀ x ∈ r.pool scored, ∃ o, x.fragment.document = .ok o) :
    ∃ listed, r.listed scored = .ok listed :=
  diversifyFrom_ok fun x hx => h x (sortedBy_perm.mem_iff.mp hx)

theorem uncrowded_listed (h : r.listed scored = .ok listed) : Uncrowded (fragmentsOf listed) := by
  intro d
  rw [countKey_fragmentsOf, listed_eq h]
  exact countKey_quota_le d

theorem uncrowded_of_documents {fs fs' : List Fragment} (h : Uncrowded fs')
    (hsub : (fs.map Fragment.documentId).Subperm (fs'.map Fragment.documentId)) :
    Uncrowded fs := by
  intro d
  obtain ⟨l, hperm, hsublist⟩ := hsub
  have hid : ∀ xs : List Fragment, countKey Fragment.documentId (some d) xs =
      countKey (fun o => o) (some d) (xs.map Fragment.documentId) :=
    fun xs => (countKey_map Fragment.documentId (fun o => o) (some d) xs).symm
  have hle := h d
  rw [hid] at hle ⊢
  rw [← countKey_perm hperm]
  exact (countKey_le_of_sublist hsublist _).trans hle

theorem listed_perm (r : Recall) (scored : List RerankResult) :
    (r.candidates.sortByDisplay (r.pool scored)).Perm (r.pool scored) :=
  sortedBy_perm

theorem length_listed_lt_iff (h : r.listed scored = .ok listed) :
    listed.length < r.topK ↔
      room Ranked.documentId maxPerDocument (r.pool scored) < r.topK := by
  rw [← room_perm (r.listed_perm scored), listed_eq h]
  exact length_quota_lt_iff

theorem shown_of_listed (h : r.listed scored = .ok listed) {f : Fragment}
    (hf : f ∈ fragmentsOf listed) : r.Shown scored f := by
  obtain ⟨x, hx, rfl⟩ := List.mem_map.mp hf
  rw [listed_eq h] at hx
  obtain ⟨before, after, hsplit, hquota, hlimit⟩ := mem_quota_split (by decide) hx
  exact ⟨before, x, after, hsplit, rfl, hquota, hlimit.imp_right length_quota_lt_iff.mp⟩

theorem mem_pool {f : Fragment} (h : f ∈ fragmentsOf (r.pool scored)) :
    ∃ result ∈ rerank scored (r.topK * 2), r.candidates.fragmentOf result.fragmentId = some f := by
  obtain ⟨x, hx, rfl⟩ := List.mem_map.mp h
  obtain ⟨result, hresult, hranked⟩ := List.mem_filterMap.mp hx
  obtain ⟨f, hf, rfl⟩ := Option.map_eq_some_iff.mp hranked
  exact ⟨result, hresult, (Option.filter_eq_some_iff.mp hf).1⟩

theorem complete_iff (h : r.Proper scored) (hlisted : r.listed scored = .ok listed) :
    r.Complete scored listed ↔ r.PoolSuffices scored := by
  have hsplit : ∀ result, result ∈ scored ↔ result ∈ rerank scored (r.topK * 2) ∨
      result ∈ (sortedByDesc RerankResult.score scored).drop (r.topK * 2) := by
    intro result
    rw [rerank, ← List.mem_append, List.take_append_drop, sortedByDesc_perm.mem_iff]
  have hsub : (fragmentsOf listed).Subperm (fragmentsOf (r.pool scored)) := by
    rw [listed_eq hlisted]
    exact (quota_sublist.map Ranked.fragment).subperm.trans
      ((r.listed_perm scored).map Ranked.fragment).subperm
  constructor
  · intro hcomplete
    rw [PoolSuffices, or_iff_not_imp_left, not_le]
    intro hroom result hresult f hf hstate
    have hshort := (length_listed_lt_iff hlisted).mpr hroom
    rcases hcomplete hshort result ((hsplit result).mpr (.inr hresult)) f hf hstate with
      hmem | ⟨d, hd, hfull⟩
    · -- the candidate would stand twice in the ranking
      obtain ⟨result', hresult', hf'⟩ := mem_pool (hsub.subset hmem)
      have hids : result'.fragmentId = result.fragmentId := by
        rw [← h.id _ _ hf, ← h.id _ _ hf']
      have hnodup : ((sortedByDesc RerankResult.score scored).map RerankResult.fragmentId).Nodup :=
        (sortedByDesc_perm.map _).nodup_iff.mpr h.nodup
      rw [← List.take_append_drop (r.topK * 2) (sortedByDesc RerankResult.score scored),
        List.map_append, List.nodup_append] at hnodup
      exact absurd hids (hnodup.2.2 _ (List.mem_map_of_mem hresult') _ (List.mem_map_of_mem hresult))
    · refine ⟨d, hd, hfull.trans ?_⟩
      obtain ⟨l, hperm, hsublist⟩ := hsub
      rw [← countKey_perm hperm]
      exact countKey_le_of_sublist hsublist _
  · intro hpool hshort result hresult f hf hstate
    have hroom := (length_listed_lt_iff hlisted).mp hshort
    have heq := listed_eq hlisted
    subst heq
    rcases (hsplit result).mp hresult with hranked | hbeyond
    · have hmem : (⟨f, result.score, r.candidates.relevance result.fragmentId * result.demotion⟩ :
          Ranked) ∈ r.candidates.sortByDisplay (r.pool scored) := by
        refine (r.listed_perm scored).mem_iff.mpr (List.mem_filterMap.mpr ⟨result, hranked, ?_⟩)
        rw [Candidates.rankedOf, hf, Option.filter_some, if_pos hstate]
        rfl
      rcases mem_quota_or_full hshort hmem with hin | ⟨d, hd, hfull⟩
      · exact .inl (List.mem_map_of_mem hin)
      · refine .inr ⟨d, hd, ?_⟩
        rw [countKey_fragmentsOf]
        exact hfull.ge
    · rcases hpool with hrich | hrest
      · omega
      · obtain ⟨d, hd, hfull⟩ := hrest result hbeyond f hf hstate
        refine .inr ⟨d, hd, ?_⟩
        rw [countKey_fragmentsOf] at hfull ⊢
        rw [← countKey_perm (r.listed_perm scored)] at hfull
        have hcount := countKey_quota_eq hshort (some d)
        exact (le_min (le_refl _) hfull).trans hcount.ge

/-! ### What the lookups gather -/

/-- A list of different memories that are shown or found. -/
structure Gathered (r : Recall) (scored : List RerankResult) (out : List Ranked) : Prop where
  nodup : (idsOf out).Nodup
  known : ∀ f ∈ fragmentsOf out, r.Shown scored f ∨ r.Found scored f

section Gathering

variable {out out' : List Ranked} {p : Placement} {ps : List Placement} {changed : Bool}

theorem idsOf_eq (out : List Ranked) : idsOf out = (fragmentsOf out).map Fragment.id := by
  rw [idsOf, fragmentsOf, List.map_map]
  rfl

theorem Gathered.sublist (h : r.Gathered scored out) (hsub : out'.Sublist out) :
    r.Gathered scored out' :=
  ⟨h.nodup.sublist (hsub.map _), fun f hf => h.known f ((hsub.map _).subset hf)⟩

/-- A new chunk is not among those of its document that are there. -/
theorem Gathered.hasRoom (h : r.Gathered scored out) (hspaced : r.Spaced scored)
    (hp : r.Found scored p.candidate) : HasRoom r.topK out p := by
  intro hnew _ d hd
  obtain ⟨ids, hcard, hids⟩ := hspaced d
  have hnodup : (((fragmentsOf out).filter fun f => f.documentId = some d).map Fragment.id).Nodup := by
    have hall := h.nodup
    rw [idsOf_eq] at hall
    exact hall.sublist (List.filter_sublist.map _)
  have hsub : (((fragmentsOf out).filter fun f => f.documentId = some d).map
      Fragment.id).toFinset ⊆ ids.erase p.candidate.id := by
    intro id hid
    obtain ⟨f, hf, rfl⟩ := List.mem_map.mp (List.mem_toFinset.mp hid)
    obtain ⟨hout, hdocument⟩ := List.mem_filter.mp hf
    refine Finset.mem_erase.mpr ⟨?_, hids f (h.known f hout) (of_decide_eq_true hdocument)⟩
    intro hsame
    rw [← hsame, idsOf_eq] at hnew
    exact hnew (List.mem_map_of_mem hout)
  have hle := Finset.card_le_card hsub
  have hmem : p.candidate.id ∈ ids := hids p.candidate (.inr hp) hd
  rw [List.toFinset_card_of_nodup hnodup, List.length_map, Finset.card_erase_of_mem hmem] at hle
  have hpos : 0 < ids.card := Finset.card_pos.mpr ⟨_, hmem⟩
  rw [countKey]
  omega

theorem Gathered.placeAfter (h : r.Gathered scored out) (hp : r.Found scored p.candidate)
    (hplace : r.lookups.placeAfter r.topK out p = some (out', changed)) :
    r.Gathered scored out' := by
  rcases placeAfter_cases hplace with ⟨hperm, -⟩ | ⟨rfl, -, -⟩ | ⟨hnew, -, hperm⟩
  · refine ⟨?_, fun f hf => h.known f (hperm.subset hf)⟩
    rw [idsOf_eq, (hperm.map _).nodup_iff, ← idsOf_eq]
    exact h.nodup
  · exact h
  · refine ⟨?_, fun f hf => ?_⟩
    · rw [idsOf_eq, (hperm.map _).nodup_iff, List.map_cons, ← idsOf_eq, List.nodup_cons]
      exact ⟨hnew, h.nodup⟩
    · rcases List.mem_cons.mp (hperm.subset hf) with rfl | hf
      · exact .inr hp
      · exact h.known f hf

theorem Gathered.placeAll (hspaced : r.Spaced scored) (h : r.Gathered scored out)
    (hps : ∀ p ∈ ps, r.Found scored p.candidate) :
    r.lookups.Spaced r.topK ps out ∧
      ∀ out' reached, r.lookups.placeAll r.topK ps out = some (out', reached) →
        r.Gathered scored out' ∧ ∀ c ∈ reached, r.Found scored c.1 := by
  induction ps generalizing out with
  | nil =>
    refine ⟨trivial, fun out' reached hall => ?_⟩
    cases hall
    exact ⟨h, fun c hc => absurd hc List.not_mem_nil⟩
  | cons p ps ih =>
    obtain ⟨hp, hrest⟩ := List.forall_mem_cons.mp hps
    refine ⟨⟨h.hasRoom hspaced hp, fun out' changed hplace =>
      (ih (h.placeAfter hp hplace) hrest).1⟩, fun out' reached hall => ?_⟩
    obtain ⟨middle, changed, later, hplace, hlater, rfl⟩ := Lookups.placeAll_cons hall
    obtain ⟨hgathered, hreached⟩ := (ih (h.placeAfter hp hplace) hrest).2 out' later hlater
    refine ⟨hgathered, fun c hc => ?_⟩
    split at hc
    · rcases List.mem_cons.mp hc with rfl | hc
      · exact hp
      · exact hreached c hc
    · exact hreached c hc

/-- What follows an entity of something shown or found is found. -/
theorem Found.of_entity {f c : Fragment} {e : String}
    (h : r.Shown scored f ∨ r.Found scored f) (he : e ∈ r.lookups.contentEntities f)
    (hnamed : r.lookups.inQuery e = false) (hc : c ∈ r.lookups.lookup e) : r.Found scored c := by
  rcases h with h | h
  · exact .shown h he hnamed hc
  · exact .found h he hnamed hc

theorem Gathered.hops (hspaced : r.Spaced scored) (hops : Nat) {sources : List (Fragment × ℚ)}
    (seen : List String) (h : r.Gathered scored out)
    (hsources : ∀ c ∈ sources, r.Shown scored c.1 ∨ r.Found scored c.1) :
    r.lookups.HopsSpaced r.topK hops sources seen out ∧
      ∀ out', r.lookups.hopsFrom r.topK hops sources seen out = some out' →
        r.Gathered scored out' := by
  induction hops generalizing sources seen out with
  | zero =>
    refine ⟨trivial, fun out' hrun => ?_⟩
    cases hrun
    exact h
  | succ hops ih =>
    have hfound : ∀ p ∈ (r.lookups.scanHop sources seen).calls, r.Found scored p.candidate := by
      intro p hp
      obtain ⟨c, hc, -, e, he, hnamed, hcandidate⟩ :=
        r.lookups.bridged_scanHop sources seen p hp
      exact Found.of_entity (hsources c hc) he hnamed hcandidate
    obtain ⟨hroom, hall⟩ := h.placeAll hspaced hfound
    have hnext : ∀ middle reached, r.lookups.placeAll r.topK
        (r.lookups.scanHop sources seen).calls out = some (middle, reached) →
          r.Gathered scored middle ∧
            ∀ c ∈ reached.take maxSources, r.Shown scored c.1 ∨ r.Found scored c.1 := by
      intro middle reached hrun
      obtain ⟨hmiddle, hreached⟩ := hall middle reached hrun
      exact ⟨hmiddle, fun c hc => .inr (hreached c (List.take_subset _ _ hc))⟩
    refine ⟨⟨hroom, fun middle reached hrun _ => ?_⟩, fun out' hrun => ?_⟩
    · obtain ⟨hmiddle, hreached⟩ := hnext middle reached hrun
      exact (ih _ hmiddle hreached).1
    · rw [Lookups.hopsFrom] at hrun
      obtain ⟨⟨middle, reached⟩, hplaced, hrun⟩ := Option.bind_eq_some_iff.mp hrun
      obtain ⟨hmiddle, hreached⟩ := hnext middle reached hplaced
      simp only at hrun
      split at hrun
      · cases hrun
        exact hmiddle
      · exact (ih _ hmiddle hreached).2 out' hrun

theorem Gathered.multiHop (hspaced : r.Spaced scored) (h : r.Gathered scored listed) :
    r.lookups.MultiHopSpaced r.topK r.hops listed ∧
      ∀ hopped, r.lookups.multiHop r.topK r.hops listed = some hopped →
        r.Gathered scored hopped := by
  have hsources : ∀ c ∈ r.lookups.hopSources listed, r.Shown scored c.1 ∨ r.Found scored c.1 := by
    intro c hc
    obtain ⟨x, hx, rfl⟩ := List.mem_map.mp hc
    exact h.known _ (List.mem_map_of_mem (List.take_subset _ _ (List.mem_filter.mp hx).1))
  obtain ⟨hhops, hrun⟩ := h.hops hspaced r.hops [] hsources
  refine ⟨fun _ => hhops, fun hopped hopped' => ?_⟩
  rw [Lookups.multiHop] at hopped'
  split at hopped'
  · cases hopped'
    exact h
  · obtain ⟨out, hout, rfl⟩ := Option.map_eq_some_iff.mp hopped'
    exact (hrun out hout).sublist (List.take_sublist _ _)

theorem Gathered.superseders (hspaced : r.Spaced scored) (h : r.Gathered scored out) :
    r.lookups.SupersedersSpaced r.topK out := by
  have hupdates : ∀ p ∈ r.lookups.updatePlacements out, r.Found scored p.candidate := by
    intro p hp
    obtain ⟨hsource, e, he, hnamed, hcandidate⟩ := Lookups.mem_updatePlacements hp
    exact Found.of_entity (h.known _ hsource) he hnamed hcandidate
  obtain ⟨hroom, hall⟩ := h.placeAll hspaced hupdates
  refine fun _ => ⟨hroom, fun middle reached hrun => ?_⟩
  refine ((hall middle reached hrun).1.placeAll hspaced fun p hp => ?_).1
  obtain ⟨-, words, member, hwords, w, hw, hcandidate⟩ := Lookups.mem_unnamedPlacements hp
  exact .change hwords hw hcandidate

theorem gathered_listed (h : r.Proper scored) (hlisted : r.listed scored = .ok listed) :
    r.Gathered scored listed := by
  refine ⟨?_, fun f hf => .inl (shown_of_listed hlisted hf)⟩
  have hpool : (idsOf (r.pool scored)).Nodup := by
    have hids : ((rerank scored (r.topK * 2)).map RerankResult.fragmentId).Nodup :=
      ((sortedByDesc_perm.map _).nodup_iff.mpr h.nodup).sublist ((List.take_sublist _ _).map _)
    have hranked : ∀ result x, r.candidates.rankedOf result = some x →
        x.fragment.id = result.fragmentId := by
      intro result x hx
      obtain ⟨f, hf, rfl⟩ := Option.map_eq_some_iff.mp hx
      exact h.id _ f (Option.filter_eq_some_iff.mp hf).1
    rw [List.Nodup, List.pairwise_map] at hids
    rw [idsOf, List.Nodup, List.pairwise_map]
    refine hids.filterMap _ fun result result' hne x hx x' hx' => ?_
    rw [hranked _ _ hx, hranked _ _ hx']
    exact hne
  rw [listed_eq hlisted]
  have hsorted : (idsOf (r.candidates.sortByDisplay (r.pool scored))).Nodup :=
    ((r.listed_perm scored).map _).nodup_iff.mpr hpool
  exact hsorted.sublist (quota_sublist.map _)

end Gathering

end Recall

/-- A memory, of a document or not. -/
def shortMemory (id : String) (document : Option String) : Fragment :=
  ⟨id, id, none, .agent, .semantic, "guest", none, 1 / 2, .verified, 1, none, 0, 0, none, [], none,
    document.toList.map fun d => ("document_id", .str d), none, []⟩

/-- Six chunks of a guide, and a note. -/
def guideAndNote : List Fragment :=
  (["g1", "g2", "g3", "g4", "g5", "g6"].map fun id => shortMemory id (some "guide")) ++
    [shortMemory "note" none]

/-- The first chunk names the helm, which the third one is about. -/
def helmRecall : Recall where
  candidates :=
    { fragmentOf := fun id => guideAndNote.find? fun f => f.id = id
      relevance := fun _ => 1 / 2
      round := fun x _ => x
      when := fun _ => 0 }
  lookups :=
    { hasGapAnchors := true
      hasAnchors := true
      covers := fun _ => false
      aboutAnchor := fun _ => true
      contentEntities := fun f => if f.id = "g1" then ["helm"] else []
      inQuery := fun _ => false
      lookup := fun _ => [shortMemory "g3" (some "guide")]
      relevance := fun _ => 0
      near := fun _ _ => false
      updates := fun _ _ => false
      updateLookups := none
      laterUpdate := fun _ _ => false }
  asked :=
    { intent := .none
      inBand := fun _ _ => false
      declared := fun _ => none
      update := fun _ => false
      replaces := fun _ _ => false
      member := none
      changes := fun _ => false
      conflict := fun _ => false
      facts := fun _ => none }
  floor := ⟨false, false, fun _ => none⟩
  hops := 1
  namesDate := false
  topK := 3
  compress := fun fs => fs

/-- The note is ranked last. -/
def helmScores : List RerankResult :=
  [⟨"g1", 7, 1⟩, ⟨"g2", 6, 1⟩, ⟨"g3", 5, 1⟩, ⟨"g4", 4, 1⟩, ⟨"g5", 3, 1⟩, ⟨"g6", 2, 1⟩, ⟨"note", 1, 1⟩]

theorem proper_helm : helmRecall.Proper helmScores where
  nodup := by decide
  id id f h := by simpa using List.find?_some h
  compress fs := List.Subperm.refl _

/-- The same recall, where nothing names a further memory. -/
def calmRecall : Recall :=
  { helmRecall with lookups := { helmRecall.lookups with contentEntities := fun _ => [] } }

def calmScores : List RerankResult := [⟨"g1", 7, 1⟩, ⟨"g2", 6, 1⟩, ⟨"note", 1, 1⟩]

theorem proper_calm : calmRecall.Proper calmScores where
  nodup := by decide
  id id f h := by simpa using List.find?_some h
  compress fs := List.Subperm.refl _

/-- Two chunks of the guide are shown, and none is found. -/
theorem spaced_calm : calmRecall.Spaced calmScores := by
  have hnone : ∀ c, ¬ calmRecall.Found calmScores c := by
    intro c hc
    cases hc with
    | shown _ he => exact absurd he List.not_mem_nil
    | found _ he => exact absurd he List.not_mem_nil
    | change hwords => cases hwords
  have hpool : (calmRecall.pool calmScores).map Ranked.fragment =
      [shortMemory "g1" (some "guide"), shortMemory "g2" (some "guide"), shortMemory "note" none] :=
    rfl
  refine fun d => ⟨{"g1", "g2"}, by decide, fun c hc hd => ?_⟩
  obtain ⟨before, x, after, hsplit, rfl, -⟩ := hc.resolve_right (hnone c)
  have hx : x ∈ calmRecall.candidates.sortByDisplay (calmRecall.pool calmScores) := by
    rw [hsplit]
    simp
  have hmem : x.fragment ∈ (calmRecall.pool calmScores).map Ranked.fragment :=
    List.mem_map_of_mem ((calmRecall.listed_perm calmScores).mem_iff.mp hx)
  rw [hpool] at hmem
  simp only [List.mem_cons, List.not_mem_nil, or_false] at hmem
  rcases hmem with h | h | h
  · rw [h]
    decide
  · rw [h]
    decide
  · rw [h] at hd
    cases hd

end MarkSdk
