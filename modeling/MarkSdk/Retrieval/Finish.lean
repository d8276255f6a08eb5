import Mathlib.Data.Prod.Lex
import Mathlib.Data.Rat.Defs
import Mathlib.Algebra.Order.Ring.Rat
import MarkSdk.Lib.Quota
import MarkSdk.Lib.SortedBy
import MarkSdk.Store.Rows

/-!
Turning ranked candidates into the list that is shown.

The ranking is cut to a pool, and of the pool at most two chunks of a document
reach the list (`diversify`). After the list has been ordered, its displayed
scores are made non-increasing, outdated memories are lowered and the tail is
dropped.
-/

namespace MarkSdk

open Lib

def maxPerDocument : Nat := 2

def pinned : ℚ := 9 / 10

/-- A memory of the list, with its ranking score and the relevance it shows. -/
structure Ranked where
  fragment : Fragment
  score : ℚ
  relevance : ℚ

/-- A candidate that the reranker has scored. -/
structure RerankResult where
  fragmentId : String
  score : ℚ
  demotion : ℚ

/-- What a document is counted under; equal keys of a dictionary are one. -/
inductive DocumentKey : Type
  | text (s : String)
  | number (q : ℚ)
  | infinite (negative : Bool)
  | nan
  deriving DecidableEq

def PyNumber.documentKey : PyNumber → DocumentKey
  | .finite mantissa exponent => .number (mantissa * 2 ^ ((exponent : Int) - 1075))
  | .infinite negative => .infinite negative
  | .nan => .nan

/-- `metadata["document_id"]` as a key of `seen`, if it is truthy. Lists and
dictionaries are no keys; other values do not come out of a store. -/
def Fragment.document (f : Fragment) : Except StoreError (Option DocumentKey) :=
  match f.metadata.lookup "document_id" with
  | none => .ok none
  | some document =>
      if document.truthy then
        match document, document.number? with
        | .str s, _ => .ok (some (.text s))
        | _, some n => .ok (some n.documentKey)
        | .dict _, none => .error (.typeError "unhashable type: 'dict'")
        | _, none => .error (.typeError "unhashable type: 'list'")
      else .ok none

/-- The document of a chunk, if it can be counted. -/
def Fragment.documentId (f : Fragment) : Option DocumentKey := f.document.toOption.join

def Ranked.documentId (r : Ranked) : Option DocumentKey := r.fragment.documentId

/-- What the candidates are found and shown with. -/
structure Candidates where
  /-- `fragments_by_id.get(id) or fetch(id)` -/
  fragmentOf : String → Option Fragment
  /-- `relevance.get(id, 0.0)` -/
  relevance : String → ℚ
  /-- `round` -/
  round : ℚ → Nat → ℚ
  /-- `_when` -/
  when : Fragment → ℚ

/-- The last steps of `rerank`: the best scores, ties in the given order. -/
def rerank (results : List RerankResult) (topK : Nat) : List RerankResult :=
  (sortedByDesc RerankResult.score results).take topK

/-- The loop of `diversify`, which has seen so many chunks of each document and
kept so many memories. -/
def diversifyFrom (topK : Nat) (seen : Dict DocumentKey Nat) (kept : Nat) :
    List Ranked → Except StoreError (List Ranked)
  | [] => .ok []
  | r :: l =>
      match r.fragment.document with
      | .error e => .error e
      | .ok none =>
          if topK ≤ kept + 1 then .ok [r]
          else (diversifyFrom topK seen (kept + 1) l).map (r :: ·)
      | .ok (some d) =>
          if maxPerDocument ≤ (seen.get? d).getD 0 then diversifyFrom topK seen kept l
          else if topK ≤ kept + 1 then .ok [r]
          else
            (diversifyFrom topK (seen.set d ((seen.get? d).getD 0 + 1)) (kept + 1) l).map (r :: ·)

def diversify (topK : Nat) (l : List Ranked) : Except StoreError (List Ranked) :=
  diversifyFrom topK .empty 0 l

namespace Candidates

variable (c : Candidates)

/-- A candidate that is there and retrievable. -/
def rankedOf (r : RerankResult) : Option Ranked :=
  ((c.fragmentOf r.fragmentId).filter fun f => f.state.retrievable).map fun f =>
    ⟨f, r.score, c.relevance r.fragmentId * r.demotion⟩

def displayKey (r : Ranked) : ℚ ×ₗ ℚ ×ₗ ℚ ×ₗ String :=
  toLex (-c.round r.relevance 6, toLex (-c.round r.score 3, toLex (-c.when r.fragment, r.fragment.id)))

def sortByDisplay (l : List Ranked) : List Ranked := sortedBy c.displayKey l

def materialise (ranked : List RerankResult) (topK : Nat) : Except StoreError (List Ranked) :=
  diversify topK (c.sortByDisplay (ranked.filterMap c.rankedOf))

/-- The list before the lookups: a pool of twice its length is ranked. -/
def finish (scored : List RerankResult) (topK : Nat) : Except StoreError (List Ranked) :=
  c.materialise (rerank scored (topK * 2)) topK

end Candidates

/-! ### The ordered list -/

/-- Other scores for the same memories. -/
def deal (scores : List ℚ) (l : List Ranked) : List Ranked :=
  List.zipWith (fun r score => { r with score := score }) l scores

/-- Each shows the best relevance at or below its rank. -/
def displayScores : List Ranked → List Ranked
  | [] => []
  | r :: l =>
      match displayScores l with
      | [] => [r]
      | r' :: l' => { r with relevance := max r.relevance r'.relevance } :: r' :: l'

/-- Outdated memories show four fifths of their relevance, and move down as far
as that puts them. -/
def demoteOutdated (outdated : List String) (l : List Ranked) : List Ranked :=
  if l.any fun r => outdated.contains r.fragment.id then
    deal ((l.map Ranked.score).insertionSort (· ≥ ·))
      (sortedBy (fun r => -r.relevance) (l.map fun r =>
        if outdated.contains r.fragment.id then { r with relevance := r.relevance * (4 / 5) } else r))
  else l

/-- What `apply_floor` asks about the query and the texts. -/
structure Floor where
  /-- inside a time window, or with a date in the query -/
  timeScoped : Bool
  /-- `set(_content_terms(query)) <= _LISTING_TERMS` -/
  listing : Bool
  /-- `sequence_unit` -/
  sequenceUnit : String → Option String

/-- `ABSOLUTE_FLOOR` or `TIME_SCOPED_FLOOR` -/
def Floor.least (fl : Floor) : ℚ := if fl.timeScoped then 1 / 5 else 1 / 10

/-- The tail below the floor is dropped, but for pinned memories and the parts
of a sequence that is kept. -/
def Floor.apply (fl : Floor) (l : List Ranked) : List Ranked :=
  match l with
  | [] => []
  | top :: _ =>
      if fl.timeScoped && fl.listing then l
      else
        let floor := max fl.least (3 / 10 * top.relevance)
        let keeps : Ranked × Nat → Bool := fun p =>
          floor ≤ p.1.relevance || (p.2 = 0 && !fl.timeScoped) || pinned ≤ p.1.fragment.importance
        let units := (l.zipIdx.filter keeps).filterMap fun p => fl.sequenceUnit p.1.fragment.content
        (l.zipIdx.filter fun p => keeps p ||
          (fl.least ≤ p.1.relevance &&
            (fl.sequenceUnit p.1.fragment.content).any units.contains)).map Prod.fst

theorem diversifyFrom_eq {topK kept : Nat} {seen : Dict DocumentKey Nat} {l out : List Ranked}
    (h : diversifyFrom topK seen kept l = .ok out) :
    out = quotaFrom Ranked.documentId maxPerDocument topK seen kept l := by
  induction l generalizing seen kept out with
  | nil => exact (Except.ok.inj h).symm
  | cons r l ih =>
    have hdocument : ∀ o, r.fragment.document = .ok o → r.documentId = o := by
      intro o ho
      rw [Ranked.documentId, Fragment.documentId, ho]
      rfl
    have hrest : ∀ seen' kept', (diversifyFrom topK seen' kept' l).map (r :: ·) = .ok out →
        out = r :: quotaFrom Ranked.documentId maxPerDocument topK seen' kept' l := by
      intro seen' kept' hmap
      cases htail : diversifyFrom topK seen' kept' l with
      | error e =>
        rw [htail] at hmap
        cases hmap
      | ok tail =>
        rw [htail] at hmap
        rw [← ih htail]
        exact (Except.ok.inj hmap).symm
    rw [diversifyFrom] at h
    rw [quotaFrom]
    split at h
    · cases h
    · rename_i hnone
      rw [hdocument none hnone]
      simp only
      split at h
      · rename_i hlast
        rw [if_pos hlast]
        exact (Except.ok.inj h).symm
      · rename_i hmore
        rw [if_neg hmore]
        exact hrest _ _ h
    · rename_i d hd
      rw [hdocument (some d) hd]
      simp only
      split at h
      · rename_i hfull
        rw [if_pos hfull]
        exact ih h
      · rename_i hroom
        rw [if_neg hroom]
        split at h
        · rename_i hlast
          rw [if_pos hlast]
          exact (Except.ok.inj h).symm
        · rename_i hmore
          rw [if_neg hmore]
          exact hrest _ _ h

/-- Where all ids can be counted, nothing is raised. -/
theorem diversifyFrom_ok {topK kept : Nat} {seen : Dict DocumentKey Nat} {l : List Ranked}
    (h : ∀ r ∈ l, ∃ o, r.fragment.document = .ok o) :
    ∃ out, diversifyFrom topK seen kept l = .ok out := by
  induction l generalizing seen kept with
  | nil => exact ⟨[], rfl⟩
  | cons r l ih =>
    obtain ⟨⟨o, ho⟩, hl⟩ := List.forall_mem_cons.mp h
    have hrest : ∀ seen' kept', ∃ out, (diversifyFrom topK seen' kept' l).map (r :: ·) = .ok out := by
      intro seen' kept'
      obtain ⟨out, hout⟩ := @ih kept' seen' hl
      exact ⟨r :: out, by rw [hout]; rfl⟩
    rw [diversifyFrom, ho]
    cases o with
    | none =>
      simp only
      split
      · exact ⟨_, rfl⟩
      · exact hrest _ _
    | some d =>
      simp only
      split
      · exact ih hl
      · split
        · exact ⟨_, rfl⟩
        · exact hrest _ _

theorem fragments_deal (scores : List ℚ) (l : List Ranked) :
    ((deal scores l).map Ranked.fragment).Sublist (l.map Ranked.fragment) := by
  induction l generalizing scores with
  | nil => exact List.Sublist.refl _
  | cons r l ih =>
    cases scores with
    | nil => exact List.nil_sublist _
    | cons score scores => exact (ih scores).cons_cons _

theorem fragments_displayScores (l : List Ranked) :
    (displayScores l).map Ranked.fragment = l.map Ranked.fragment := by
  induction l with
  | nil => rfl
  | cons r l ih =>
    rw [displayScores, List.map_cons, ← ih]
    split
    · rename_i hnil
      rw [hnil]
      rfl
    · rename_i r' l' hcons
      rw [hcons]
      rfl

theorem fragments_demoteOutdated (outdated : List String) (l : List Ranked) :
    ((demoteOutdated outdated l).map Ranked.fragment).Subperm (l.map Ranked.fragment) := by
  rw [demoteOutdated]
  split
  · refine (fragments_deal _ _).subperm.trans ?_
    refine ((sortedBy_perm.map Ranked.fragment).trans ?_).subperm
    rw [List.map_map]
    refine List.Perm.of_eq (List.map_congr_left fun r _ => ?_)
    rw [Function.comp_apply]
    split <;> rfl
  · exact List.Subperm.refl _

theorem Floor.apply_sublist (fl : Floor) (l : List Ranked) : (fl.apply l).Sublist l := by
  rw [Floor.apply.eq_def]
  split
  · exact List.Sublist.refl _
  · rename_i top l
    split
    · exact List.Sublist.refl _
    · have hmap : ((top :: l).zipIdx.map Prod.fst).Sublist (top :: l) := by
        rw [List.zipIdx_map_fst]
      exact (List.filter_sublist.map Prod.fst).trans hmap

end MarkSdk
