import Mathlib.Data.List.FinRange
import Mathlib.Data.List.Sort
import Mathlib.Data.Rat.Defs
import Mathlib.Algebra.Order.Ring.Rat
import MarkSdk.Lib.MoveAhead

/-!
Ordering retrieved memories by which of them supersede which.

Pairs are taken one by one. Asked about the present, the newer memory of a pair
moves directly ahead of the older one; asked about the original, the older one
moves ahead. A memory may so be moved past one that supersedes it, and nothing
sets that right. When this does not happen is told from the positions and from
what supersedes what (`orderBySupersession_ordered_iff`).
-/

namespace MarkSdk

open Lib

inductive TemporalIntent : Type
  | none | current | original
  deriving DecidableEq, Repr

structure OrderedResult (α : Type) where
  fragments : List α
  scores : List ℚ
  relevances : List ℚ
  outdated : List α

section Supersession

/-
`update`: the memory is worded as a change. `replaces`: the other tests of
`_supersedes`, which compare the times, the subjects and the contents of two
memories.
-/
variable {α : Type} (update : α → Bool) (replaces : α → α → Bool)

def supersedes (new old : α) : Bool := update new && replaces new old

/-- The pairs of positions whose first memory supersedes the second. -/
def supersessionPairs (fragments : List α) : List (Fin fragments.length × Fin fragments.length) :=
  let order := List.finRange fragments.length
  (order.filter fun j => update (fragments.get j)).flatMap fun j =>
    (order.filter fun i => i ≠ j ∧ supersedes update replaces (fragments.get j) (fragments.get i)).map
      fun i => (j, i)

/-- `(first, second)`, for every pair in turn. -/
def supersessionMoves (intent : TemporalIntent) (fragments : List α) :
    List (Fin fragments.length × Fin fragments.length) :=
  (supersessionPairs update replaces fragments).map fun p =>
    if intent = .original then (p.2, p.1) else p

def supersessionOrder (intent : TemporalIntent) (fragments : List α) :
    List (Fin fragments.length) :=
  rearrange (List.finRange fragments.length) (supersessionMoves update replaces intent fragments)

/-- `_apply`: scores are dealt out again, the highest first. -/
def applyOrder (fragments : List α) (order : List (Fin fragments.length))
    (scores relevances : List ℚ) (outdated : List α) : OrderedResult α where
  fragments := order.map fragments.get
  scores := scores.insertionSort (· ≥ ·)
  relevances := order.filterMap fun i => relevances[i.val]?
  outdated := outdated

def orderBySupersession (intent : TemporalIntent) (fragments : List α)
    (scores relevances : List ℚ) : OrderedResult α :=
  if fragments.length < 2 then ⟨fragments, scores, relevances, []⟩
  else if supersessionPairs update replaces fragments = [] then
    ⟨fragments, scores, relevances, []⟩
  else
    applyOrder fragments (supersessionOrder update replaces intent fragments) scores relevances
      (if intent = .original then []
        else (supersessionPairs update replaces fragments).map fun p => fragments.get p.2)

/-- The memory at the first position supersedes the one at the second. -/
def Supersedes (fragments : List α) (new old : Fin fragments.length) : Prop :=
  new ≠ old ∧ supersedes update replaces (fragments.get new) (fragments.get old) = true

instance (fragments : List α) : DecidableRel (Supersedes update replaces fragments) :=
  fun _ _ => inferInstanceAs (Decidable (_ ∧ _))

/-- A memory that stands before one that it supersedes ends ahead of all that
this one is moved ahead of. -/
def Kept {n : Nat} (covers : Fin n → Fin n → Prop) : Prop :=
  ∀ new old, new < old → covers new old →
    ∀ m, m < old → covers old m → StandsAhead covers new m

/-- Nothing supersedes what supersedes it; and a memory that may get ahead of an
earlier one that it supersedes, and of a third that this one supersedes,
supersedes the third too, which stands before both. -/
def Untangled {n : Nat} (covers : Fin n → Fin n → Prop) : Prop :=
  (∀ a b, covers a b → ¬ covers b a) ∧
    ∀ a b c, b < a → covers a b → covers b c → b ≠ c → GetsAhead covers a b →
      GetsAhead covers a c → covers a c ∧ c < b

/-- Asked about the original, a memory stands behind those it supersedes; else
ahead of them. -/
def InPlace {n : Nat} (intent : TemporalIntent) (order : List (Fin n)) (new old : Fin n) : Prop :=
  if intent = .original then Ahead order old new else Ahead order new old

instance {n : Nat} (intent : TemporalIntent) (order : List (Fin n)) (new old : Fin n) :
    Decidable (InPlace intent order new old) :=
  if h : intent = .original then decidable_of_iff (Ahead order old new) (by rw [InPlace, if_pos h])
  else decidable_of_iff (Ahead order new old) (by rw [InPlace, if_neg h])

variable {update replaces} {intent : TemporalIntent} {fragments : List α}

theorem mem_supersessionPairs {new old : Fin fragments.length} :
    (new, old) ∈ supersessionPairs update replaces fragments ↔
      new ≠ old ∧ supersedes update replaces (fragments.get new) (fragments.get old) = true := by
  have hupdate : supersedes update replaces (fragments.get new) (fragments.get old) = true →
      update (fragments.get new) = true := fun h => (Bool.and_eq_true_iff.mp h).1
  simp only [supersessionPairs, List.mem_flatMap, List.mem_filter, List.mem_finRange, true_and,
    List.mem_map, Prod.mk.injEq, decide_eq_true_eq]
  constructor
  · rintro ⟨j, -, i, ⟨hne, hsup⟩, rfl, rfl⟩
    exact ⟨hne.symm, hsup⟩
  · rintro ⟨hne, hsup⟩
    exact ⟨new, hupdate hsup, old, ⟨hne.symm, hsup⟩, rfl, rfl⟩

theorem supersessionOrder_perm (update : α → Bool) (replaces : α → α → Bool)
    (intent : TemporalIntent) (fragments : List α) :
    (supersessionOrder update replaces intent fragments).Perm
      (List.finRange fragments.length) :=
  rearrange_perm _ _ fun p _ => List.mem_finRange p.1

theorem flatMap_filter_of_nil {β γ : Type} {p : β → Bool} {f : β → List γ}
    (h : ∀ b, p b = false → f b = []) (l : List β) : (l.filter p).flatMap f = l.flatMap f := by
  induction l with
  | nil => rfl
  | cons b l ih =>
      rw [List.flatMap_cons, ← ih, List.filter_cons]
      cases hp : p b with
      | false => rw [h b hp]; rfl
      | true => rfl

/-- Turn by turn: a memory that is no update covers nothing. -/
theorem supersessionPairs_eq : supersessionPairs update replaces fragments =
    (List.finRange fragments.length).flatMap
      (turnOf (Supersedes update replaces fragments) (List.finRange fragments.length)) := by
  have hturn : ∀ j : Fin fragments.length,
      ((List.finRange fragments.length).filter fun i =>
        i ≠ j ∧ supersedes update replaces (fragments.get j) (fragments.get i)).map (fun i => (j, i)) =
          turnOf (Supersedes update replaces fragments) (List.finRange fragments.length) j := by
    intro j
    refine congrArg (List.map (j, ·)) (List.filter_congr fun i _ => ?_)
    exact decide_eq_decide.mpr ⟨fun h => ⟨h.1, h.1.symm, h.2⟩, fun h => ⟨h.1, h.2.2⟩⟩
  have hnone : ∀ j : Fin fragments.length, update (fragments.get j) = false →
      turnOf (Supersedes update replaces fragments) (List.finRange fragments.length) j = [] := by
    intro j hj
    refine List.map_eq_nil_iff.mpr (List.filter_eq_nil_iff.mpr fun i _ hi => ?_)
    obtain ⟨-, -, hsup⟩ := of_decide_eq_true hi
    have hupdate := (Bool.and_eq_true_iff.mp hsup).1
    rw [hj] at hupdate
    cases hupdate
  simp only [supersessionPairs, hturn]
  exact flatMap_filter_of_nil hnone _

theorem moves_original : supersessionMoves update replaces .original fragments =
    (supersessionPairs update replaces fragments).map Prod.swap := rfl

theorem moves_present (h : intent ≠ .original) :
    supersessionMoves update replaces intent fragments =
      supersessionPairs update replaces fragments := by
  simp only [supersessionMoves, if_neg h, List.map_id']

/-- Whether a memory is in place follows from what supersedes what. -/
theorem inPlace_present (h : intent ≠ .original) {new old : Fin fragments.length}
    (hne : new ≠ old) :
    InPlace intent (supersessionOrder update replaces intent fragments) new old ↔
      StandsAhead (Supersedes update replaces fragments) new old := by
  rw [InPlace, if_neg h, supersessionOrder, moves_present h, supersessionPairs_eq]
  exact Turned.all (List.sortedLT_finRange _).pairwise List.mem_finRange hne

theorem orderBySupersession_fragments (scores relevances : List ℚ) :
    (orderBySupersession update replaces intent fragments scores relevances).fragments =
      (supersessionOrder update replaces intent fragments).map fragments.get := by
  have hsame : supersessionPairs update replaces fragments = [] →
      (supersessionOrder update replaces intent fragments).map fragments.get = fragments := by
    intro hnone
    have hget : (List.finRange fragments.length).map fragments.get = fragments :=
      List.map_get_finRange fragments
    rw [supersessionOrder, supersessionMoves, hnone]
    exact hget
  rw [orderBySupersession]
  split
  case isTrue hshort =>
    refine (hsame (List.eq_nil_iff_forall_not_mem.mpr ?_)).symm
    rintro ⟨new, old⟩ h
    have hne := (mem_supersessionPairs.mp h).1
    exact hne (Fin.ext (by omega))
  case isFalse =>
    split
    case isTrue hnone => exact (hsame hnone).symm
    case isFalse => rfl

/-- A town, the move away from it, and the next move. -/
def movedTwice : List String := ["Lisbon", "Porto to Berlin", "Lisbon to Porto"]

/-- Each move supersedes what it moves away from. -/
def movesFrom (new old : String) : Bool :=
  (new, old) = ("Porto to Berlin", "Lisbon to Porto") ∨ (new, old) = ("Lisbon to Porto", "Lisbon")

end Supersession

end MarkSdk
