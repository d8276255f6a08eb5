import MarkSdk.Retrieval.Finish
import MarkSdk.Retrieval.Supersession
import MarkSdk.Retrieval.TwoClocks

/-!
Ordering the list for the point in time that the query asks about.

The records about the asked subject are ordered by when they happened, newer
statements go ahead of those they supersede, and statements of a current fact
ahead of those of an earlier value. All of these move memories and add none,
and the floor takes some out (`orderAndReport_among`).
-/

namespace MarkSdk

open Lib

/-- The values of the facts that a query asks about. -/
structure FactValues where
  /-- the memory states a current value -/
  agrees : Fragment → Bool
  /-- it states an earlier value -/
  earlier : Fragment → Bool
  /-- it states an earlier value that the current ones do not contain -/
  replaced : Fragment → Bool

/-- What the words of a query, the facts and the texts of the memories tell. -/
structure Asked where
  /-- `detect_temporal_intent` -/
  intent : TemporalIntent
  /-- `_band` -/
  inBand : List Fragment → Fragment → Bool
  /-- `declared_event_time` -/
  declared : Fragment → Option Int
  /-- `_Profile.update` -/
  update : Fragment → Bool
  /-- the other tests of `_supersedes` -/
  replaces : Fragment → Fragment → Bool
  /-- `_subject_and_terms` with `_member` and the low-trust tags -/
  member : Option (Fragment → Bool)
  /-- worded as an update or a change -/
  changes : Fragment → Bool
  /-- `_conflicts` finds some -/
  conflict : List Fragment → Bool
  /-- `_matching_facts` with `_stale_fact_values`, if there are facts -/
  facts : List Fragment → Option FactValues

namespace Asked

variable (q : Asked)

/-- The list in the order of some of its positions. -/
def arrange (l : List Ranked) (order : List (Fin l.length)) : List Ranked := order.map l.get

/-- `_order_band` -/
def orderPositions (l : List Ranked) (band : List (Fin l.length)) (newestFirst : Bool) :
    List (Fin l.length) :=
  orderBand (fun i => q.declared (l.get i).fragment) (fun i => (l.get i).fragment.createdAt) band
    newestFirst

/-- No score is higher than one before it. -/
def lowered (floor : ℚ) : List ℚ → List ℚ
  | [] => []
  | score :: scores => min floor score :: lowered (min floor score) scores

def temporalOrder (l : List Ranked) : List Ranked :=
  let band := (List.finRange l.length).filter fun i =>
    q.inBand (l.map Ranked.fragment) (l.get i).fragment
  if q.intent = .none ∨ l.length < 2 ∨ band.length < 2 then l
  else
    let ordered := q.orderPositions l band (q.intent = .current)
    let rest := (List.finRange l.length).filter fun i => i ∉ ordered
    let bandScores := (band.map fun i => (l.get i).score).insertionSort (· ≥ ·)
    deal (bandScores ++ lowered (bandScores.getLast?.getD 0) (rest.map fun i => (l.get i).score))
      (arrange l (ordered ++ rest))

/-- `order_by_supersession`, with the ids of what is outdated. -/
def supersessionStep (l : List Ranked) : List Ranked × List String :=
  let r := orderBySupersession (fun r : Ranked => q.update r.fragment)
    (fun r r' => q.replaces r.fragment r'.fragment) q.intent l (l.map Ranked.score)
    (l.map Ranked.relevance)
  (deal r.scores r.fragments, r.outdated.map fun r => r.fragment.id)

/-- `state_band` and `apply_band`: the band moves to its best place. -/
def bandStep (l : List Ranked) : List Ranked × List String :=
  match q.member with
  | none => (l, [])
  | some member =>
      let band := (List.finRange l.length).filter fun i => member (l.get i).fragment
      if band.length < 2 then (l, [])
      else
        let newest := q.orderPositions l band true
        let changed := newest.head?.any fun i => q.changes (l.get i).fragment
        if changed = false ∧ q.conflict (newest.map fun i => (l.get i).fragment) = false then (l, [])
        else
          let ordered := if q.intent = .original then newest.reverse else newest
          let rest := (List.finRange l.length).filter fun i => i ∉ ordered
          let front := (rest.filter fun i => band.head?.any fun first => i < first).length
          (deal (l.map Ranked.score)
              (arrange l (rest.take front ++ ordered ++ rest.drop front)),
            if q.intent = .original ∨ changed = false then []
            else newest.tail.map fun i => (l.get i).fragment.id)

/-- `order_by_fact_agreement` -/
def agreementStep (l : List Ranked) : List Ranked × List String :=
  match q.facts (l.map Ranked.fragment) with
  | none => (l, [])
  | some values =>
      let stale : Fin l.length → Bool := fun i =>
        !values.agrees (l.get i).fragment && values.earlier (l.get i).fragment
      let outdated := ((List.finRange l.length).filter fun i =>
        stale i && values.replaced (l.get i).fragment).map fun i => (l.get i).fragment.id
      match (List.finRange l.length).find? stale with
      | none => (l, outdated)
      | some first =>
          let movers := (List.finRange l.length).filter fun i =>
            values.agrees (l.get i).fragment && decide (first < i)
          if movers = [] then (l, outdated)
          else
            let rest := (List.finRange l.length).filter fun i => i ∉ movers
            let front := rest.idxOf first
            (deal ((l.map Ranked.score).insertionSort (· ≥ ·))
              (arrange l (rest.take front ++ movers ++ rest.drop front)), outdated)

/-- `_order_and_report`, without the report. -/
def orderAndReport (fl : Floor) (namesDate : Bool) (l : List Ranked) : List Ranked :=
  let ordered := q.temporalOrder l
  let superseded := if namesDate then (ordered, []) else q.supersessionStep ordered
  let banded := if namesDate then (superseded.1, []) else q.bandStep superseded.1
  let agreed := if q.intent = .original then (banded.1, []) else q.agreementStep banded.1
  let outdated := superseded.2 ++ banded.2 ++ if namesDate then [] else agreed.2
  let shown := displayScores agreed.1
  fl.apply (if q.intent = .original then shown else demoteOutdated outdated shown)

end Asked

/-! ### Nothing is added -/

/-- The memories of one list are among those of the other, as often at most. -/
def Among (l l' : List Ranked) : Prop :=
  (l.map Ranked.fragment).Subperm (l'.map Ranked.fragment)

theorem Among.refl (l : List Ranked) : Among l l := List.Subperm.refl _

theorem Among.trans {l l' l'' : List Ranked} (h : Among l l') (h' : Among l' l'') : Among l l'' :=
  List.Subperm.trans h h'

theorem among_of_sublist {l l' : List Ranked} (h : l.Sublist l') : Among l l' :=
  (h.map Ranked.fragment).subperm

/-- Inserting a part somewhere into the rest. -/
theorem inserted_perm {ι : Type} (part rest : List ι) (n : Nat) :
    (rest.take n ++ part ++ rest.drop n).Perm (part ++ rest) := by
  refine (List.perm_append_comm.append_right _).trans ?_
  rw [List.append_assoc, List.take_append_drop]

/-- Some positions and the others are all of them. -/
theorem rest_perm {n : Nat} {part : List (Fin n)} {p : Fin n → Bool}
    (h : part.Perm ((List.finRange n).filter p)) :
    (part ++ (List.finRange n).filter fun i => i ∉ part).Perm (List.finRange n) := by
  have hrest : ((List.finRange n).filter fun i => i ∉ part) =
      (List.finRange n).filter fun i => !p i := by
    refine List.filter_congr fun i _ => ?_
    have hiff : i ∈ part ↔ p i = true := by
      rw [h.mem_iff, List.mem_filter]
      exact ⟨fun hi => hi.2, fun hi => ⟨List.mem_finRange i, hi⟩⟩
    cases hp : p i <;> simp [hiff, hp]
  rw [hrest]
  exact (h.append_right _).trans (List.filter_append_perm p _)

theorem among_arranged (scores : List ℚ) {l : List Ranked} {order : List (Fin l.length)}
    (h : order.Perm (List.finRange l.length)) : Among (deal scores (Asked.arrange l order)) l := by
  have harranged : (Asked.arrange l order).Perm l := by
    refine (h.map l.get).trans (List.Perm.of_eq ?_)
    exact List.map_get_finRange l
  exact (fragments_deal scores _).subperm.trans (harranged.map Ranked.fragment).subperm

namespace Asked

variable (q : Asked)

theorem temporalOrder_among (l : List Ranked) : Among (q.temporalOrder l) l := by
  rw [temporalOrder]
  dsimp only
  split
  · exact Among.refl l
  · exact among_arranged _ (rest_perm (orderBand_perm _ _ _ _))

theorem supersessionStep_among (l : List Ranked) : Among (q.supersessionStep l).1 l := by
  have hperm := supersessionOrder_perm (fun r : Ranked => q.update r.fragment)
    (fun r r' => q.replaces r.fragment r'.fragment) q.intent l
  rw [supersessionStep]
  dsimp only
  rw [orderBySupersession_fragments]
  exact among_arranged _ hperm

theorem bandStep_among (l : List Ranked) : Among (q.bandStep l).1 l := by
  rw [bandStep]
  split
  · exact Among.refl l
  · rename_i member _
    dsimp only
    split
    · exact Among.refl l
    · split
      · exact Among.refl l
      · refine among_arranged _ ((inserted_perm _ _ _).trans
          (rest_perm (p := fun i => member (l.get i).fragment) ?_))
        have hband := orderBand_perm (fun i => q.declared (l.get i).fragment)
          (fun i => (l.get i).fragment.createdAt)
          ((List.finRange l.length).filter fun i => member (l.get i).fragment) true
        split
        · exact (List.reverse_perm _).trans hband
        · exact hband

theorem agreementStep_among (l : List Ranked) : Among (q.agreementStep l).1 l := by
  rw [agreementStep]
  split
  · exact Among.refl l
  · dsimp only
    split
    · exact Among.refl l
    · split
      · exact Among.refl l
      · exact among_arranged _ ((inserted_perm _ _ _).trans (rest_perm (List.Perm.refl _)))

/-- Ordering moves memories and leaves some out. -/
theorem orderAndReport_among (fl : Floor) (namesDate : Bool) (l : List Ranked) :
    Among (q.orderAndReport fl namesDate l) l := by
  have hordered := q.temporalOrder_among l
  rw [orderAndReport]
  generalize hsuperseded : (if namesDate then (q.temporalOrder l, []) else
    q.supersessionStep (q.temporalOrder l)) = superseded
  have hstep : Among superseded.1 l := by
    subst hsuperseded
    split
    · exact hordered
    · exact (q.supersessionStep_among _).trans hordered
  generalize hbanded : (if namesDate then (superseded.1, []) else
    q.bandStep superseded.1) = banded
  have hband : Among banded.1 l := by
    subst hbanded
    split
    · exact hstep
    · exact (q.bandStep_among _).trans hstep
  generalize hagreed : (if q.intent = .original then (banded.1, []) else
    q.agreementStep banded.1) = agreed
  have hagree : Among agreed.1 l := by
    subst hagreed
    split
    · exact hband
    · exact (q.agreementStep_among _).trans hband
  have hshown : Among (displayScores agreed.1) l := by
    rw [Among, fragments_displayScores]
    exact hagree
  refine (among_of_sublist (fl.apply_sublist _)).trans ?_
  split
  · exact hshown
  · exact Among.trans (fragments_demoteOutdated _ _) hshown

end Asked

end MarkSdk
