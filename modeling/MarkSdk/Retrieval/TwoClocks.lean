import Mathlib.Data.Prod.Lex
import Mathlib.Order.Lattice.Nat
import MarkSdk.Lib.SortedBy

/-!
Ordering by two clocks. A record may declare when it happened, and it always
has the time it was stored; the two are never compared with each other. Times
are instants, so whatever their time zone they compare as numbers.

Timelines (`twoClockOrder`) and recall (`orderBand`) order records apart from
one another. Where the times tell the records apart, they follow one rule
(`orders_agree`).
-/

namespace MarkSdk

open Lib

/-- How an item's position was decided. -/
inductive Basis : Type
  | declared | storedAfterDated | unknown | stored
  deriving DecidableEq, Repr

section TwoClocks

variable {ι : Type} (declared : ι → Option Int) (stored : ι → Int)

/-- The key of a dated item: its declared time, then storage order. -/
def clockKey (i : ι) : Int ×ₗ Int :=
  toLex ((declared i).getD 0, stored i)

/-- The items, oldest first, each with how its position was decided. -/
def twoClockOrder (items : List ι) : List (ι × Basis) :=
  let dated := items.filter fun i => (declared i).isSome
  let undated := sortedBy stored (items.filter fun i => (declared i).isNone)
  match (dated.map stored).max? with
  | none => undated.map fun i => (i, .stored)
  | some lastDatedStore =>
    -- an item stored after every dated one is a live update that followed them
    let later := undated.filter fun i => lastDatedStore < stored i
    let unknown := undated.filter fun i => stored i ≤ lastDatedStore
    (sortedBy (clockKey declared stored) dated).map (fun i => (i, Basis.declared)) ++
      unknown.map (fun i => (i, Basis.unknown)) ++
      later.map fun i => (i, Basis.storedAfterDated)

/-- The newest event whose place in time is known. -/
def latest (events : List (ι × Basis)) : Option ι :=
  (events.reverse.find? fun e => e.2 ≠ .unknown).map Prod.fst

/-- When it happened: the declared time, else when it was stored. -/
def eventTime (i : ι) : Int :=
  (declared i).getD (stored i)

/-- The records about one subject, by when they happened. -/
def orderBand [DecidableEq ι] (band : List ι) (newestFirst : Bool) : List ι :=
  let dated := band.filter fun i => (declared i).isSome
  let undated := band.filter fun i => (declared i).isNone
  match (dated.map stored).max? with
  | none => (if newestFirst then sortedByDesc else sortedBy) (eventTime declared stored) band
  | some lastDatedStore =>
    let inTime := (if newestFirst then sortedByDesc else sortedBy) (clockKey declared stored) dated
    if newestFirst = false ∨ undated = [] then inTime ++ undated
    else
      let later := sortedByDesc stored (undated.filter fun i => lastDatedStore < stored i)
      let earlier := undated.filter fun i => i ∉ later
      later ++ inTime ++ earlier

/-- No two dated items share both times, and no two undated ones the time they
were stored. -/
def TimesApart (items : List ι) : Prop :=
  items.Pairwise fun i j => declared i = declared j → stored i ≠ stored j

instance (items : List ι) : Decidable (TimesApart declared stored items) :=
  inferInstanceAs (Decidable (List.Pairwise _ _))

variable {declared stored} {items : List ι} {lastDatedStore : Int}

theorem TimesApart.eq (h : TimesApart declared stored items) :
    ∀ i ∈ items, ∀ j ∈ items, declared i = declared j → stored i = stored j → i = j := by
  intro i hi j hj hd hs
  by_contra hne
  have hsymm : Std.Symm fun i j : ι => declared i = declared j → stored i ≠ stored j :=
    ⟨fun a b hab hd hs => hab hd.symm hs.symm⟩
  exact List.Pairwise.forall h hi hj hne hd hs

/-- Dated items with one key have both times in common. -/
theorem TimesApart.clockKey (h : TimesApart declared stored items) :
    ∀ i ∈ items.filter (fun i => (declared i).isSome),
      ∀ j ∈ items.filter (fun i => (declared i).isSome),
        clockKey declared stored i = clockKey declared stored j → i = j := by
  intro i hi j hj hkey
  obtain ⟨hi, hi'⟩ := List.mem_filter.mp hi
  obtain ⟨hj, hj'⟩ := List.mem_filter.mp hj
  obtain ⟨a, ha⟩ := Option.isSome_iff_exists.mp hi'
  obtain ⟨b, hb⟩ := Option.isSome_iff_exists.mp hj'
  have hpair : (a, stored i) = (b, stored j) := by
    simpa [MarkSdk.clockKey, ha, hb] using hkey
  obtain ⟨hab, hs⟩ := Prod.mk.inj hpair
  exact h.eq i hi j hj (by rw [ha, hb, hab]) hs

/-- Undated items are told apart by when they were stored. -/
theorem TimesApart.undated (h : TimesApart declared stored items) {kept : List ι}
    (hkept : ∀ i ∈ kept, i ∈ items ∧ declared i = none) :
    ∀ i ∈ kept, ∀ j ∈ kept, stored i = stored j → i = j := by
  intro i hi j hj hs
  obtain ⟨hi, hi'⟩ := hkept i hi
  obtain ⟨hj, hj'⟩ := hkept j hj
  exact h.eq i hi j hj (hi'.trans hj'.symm) hs

/-- No item is dated: both arrange the items by when they were stored. -/
theorem undated_of_none
    (h : ((items.filter fun i => (declared i).isSome).map stored).max? = none) :
    ∀ i ∈ items, declared i = none := by
  intro i hi
  rw [List.max?_eq_none_iff, List.map_eq_nil_iff, List.filter_eq_nil_iff] at h
  simpa using h i hi

theorem twoClockOrder_of_none
    (h : ((items.filter fun i => (declared i).isSome).map stored).max? = none) :
    twoClockOrder declared stored items =
      (sortedBy stored items).map fun i => (i, Basis.stored) := by
  have hall : (items.filter fun i => (declared i).isNone) = items :=
    List.filter_eq_self.mpr fun i hi => by rw [undated_of_none h i hi]; rfl
  simp only [twoClockOrder, h, hall]

theorem orderBand_of_none [DecidableEq ι]
    (h : ((items.filter fun i => (declared i).isSome).map stored).max? = none) :
    orderBand declared stored items true = sortedByDesc (eventTime declared stored) items := by
  simp only [orderBand, h, if_true]

/-- Some item is dated: the dated ones, and the undated ones on either side of
the last time that a dated one was stored. -/
theorem twoClockOrder_of_some
    (h : ((items.filter fun i => (declared i).isSome).map stored).max? = some lastDatedStore) :
    twoClockOrder declared stored items =
      (sortedBy (clockKey declared stored) (items.filter fun i => (declared i).isSome)).map
          (fun i => (i, Basis.declared)) ++
        ((sortedBy stored (items.filter fun i => (declared i).isNone)).filter
          fun i => stored i ≤ lastDatedStore).map (fun i => (i, Basis.unknown)) ++
        ((sortedBy stored (items.filter fun i => (declared i).isNone)).filter
          fun i => lastDatedStore < stored i).map fun i => (i, Basis.storedAfterDated) := by
  simp only [twoClockOrder, h]

theorem orderBand_of_some [DecidableEq ι]
    (h : ((items.filter fun i => (declared i).isSome).map stored).max? = some lastDatedStore) :
    orderBand declared stored items true =
      sortedByDesc stored ((items.filter fun i => (declared i).isNone).filter
          fun i => lastDatedStore < stored i) ++
        sortedByDesc (clockKey declared stored) (items.filter fun i => (declared i).isSome) ++
        (items.filter fun i => (declared i).isNone).filter fun i => stored i ≤ lastDatedStore := by
  have hearlier : ∀ undated : List ι,
      (undated.filter fun i =>
        i ∉ sortedByDesc stored (undated.filter fun i => lastDatedStore < stored i)) =
      undated.filter fun i => stored i ≤ lastDatedStore := by
    intro undated
    apply List.filter_congr
    intro i hi
    simp [sortedByDesc_perm.mem_iff, hi]
  simp only [orderBand, h, if_true, hearlier]
  by_cases hnil : (items.filter fun i => (declared i).isNone) = []
  · simp only [hnil, sortedByDesc]
    simp
  · simp [hnil]

theorem filter_isNone (items : List ι) :
    (items.filter fun i => !(declared i).isSome) = items.filter fun i => (declared i).isNone :=
  List.filter_congr fun i _ => by cases declared i <;> rfl

/-- No item is lost in the order, whatever the times. -/
theorem twoClockOrder_perm (declared : ι → Option Int) (stored : ι → Int) (items : List ι) :
    ((twoClockOrder declared stored items).map Prod.fst).Perm items := by
  cases hlast : ((items.filter fun i => (declared i).isSome).map stored).max? with
  | none =>
    rw [twoClockOrder_of_none hlast, List.map_map]
    simpa [Function.comp_def] using sortedBy_perm
  | some lastDatedStore =>
    have hsplit := List.filter_append_perm (fun i => decide (stored i ≤ lastDatedStore))
      (sortedBy stored (items.filter fun i => (declared i).isNone))
    simp only [← decide_not, not_le] at hsplit
    have hparts := List.filter_append_perm (fun i => (declared i).isSome) items
    rw [filter_isNone] at hparts
    rw [twoClockOrder_of_some hlast]
    simp only [List.map_append, List.map_map, Function.comp_def, List.map_id', List.append_assoc]
    exact (sortedBy_perm.append (hsplit.trans sortedBy_perm)).trans hparts

theorem orderBand_perm [DecidableEq ι] (declared : ι → Option Int) (stored : ι → Int)
    (band : List ι) (newestFirst : Bool) :
    (orderBand declared stored band newestFirst).Perm band := by
  have hparts := List.filter_append_perm (fun i => (declared i).isSome) band
  rw [filter_isNone] at hparts
  cases hlast : ((band.filter fun i => (declared i).isSome).map stored).max? with
  | none =>
    cases newestFirst with
    | false => simpa [orderBand, hlast] using sortedBy_perm
    | true =>
      rw [orderBand_of_none hlast]
      exact sortedByDesc_perm
  | some lastDatedStore =>
    cases newestFirst with
    | false =>
      have hdated : orderBand declared stored band false =
          sortedBy (clockKey declared stored) (band.filter fun i => (declared i).isSome) ++
            band.filter fun i => (declared i).isNone := by
        simp [orderBand, hlast]
      rw [hdated]
      exact (sortedBy_perm.append_right _).trans hparts
    | true =>
      have hsplit := List.filter_append_perm (fun i => decide (lastDatedStore < stored i))
        (band.filter fun i => (declared i).isNone)
      simp only [← decide_not, not_lt] at hsplit
      rw [orderBand_of_some hlast]
      -- the later undated ones stand before the dated ones, the others after them
      refine (((sortedByDesc_perm.append sortedByDesc_perm).append_right _).trans ?_).trans hparts
      refine (List.perm_append_comm.append_right _).trans ?_
      rw [List.append_assoc]
      exact hsplit.append_left _

/-- One arrangement read by both: the dated items `D`, the undated ones `L` that
are newer than all of them, and the others, as `U` in time and `E` in their
own order. -/
structure Arranged (declared : ι → Option Int) (items : List ι) (events : List (ι × Basis))
    (band D U L E : List ι) (basis : Basis) : Prop where
  events_eq : events = D.map (fun i => (i, Basis.declared)) ++
    U.map (fun i => (i, Basis.unknown)) ++ L.map fun i => (i, basis)
  band_eq : band = L.reverse ++ D.reverse ++ E
  placed : basis ≠ .unknown
  dated : D.Perm (items.filter fun i => (declared i).isSome)
  undated : (L ++ E).Perm (items.filter fun i => (declared i).isNone)
  unplaced : U.Perm E
  none_dated : D = [] → E = []

theorem exists_arranged [DecidableEq ι] (h : TimesApart declared stored items) :
    ∃ D U L E basis, Arranged declared items (twoClockOrder declared stored items)
      (orderBand declared stored items true) D U L E basis := by
  cases hlast : ((items.filter fun i => (declared i).isSome).map stored).max? with
  | none =>
    have hnone := undated_of_none hlast
    have htime : sortedByDesc (eventTime declared stored) items =
        (sortedBy stored items).reverse := by
      apply sortedByDesc_eq_reverse (eventTime declared stored) sortedBy_perm
      · apply sortedBy_pairwise.imp_of_mem
        intro i j hi hj hij
        rw [eventTime, eventTime, hnone i (sortedBy_perm.mem_iff.mp hi),
          hnone j (sortedBy_perm.mem_iff.mp hj)]
        exact hij
      · intro i hi j hj hij
        rw [eventTime, eventTime, hnone i hi, hnone j hj] at hij
        exact h.eq i hi j hj ((hnone i hi).trans (hnone j hj).symm) hij
    refine ⟨[], [], sortedBy stored items, [], .stored, ?_⟩
    exact {
      events_eq := by simpa using twoClockOrder_of_none hlast
      band_eq := by simpa using (orderBand_of_none hlast).trans htime
      placed := by decide
      dated := by
        rw [List.filter_eq_nil_iff.mpr fun i hi => by simp [hnone i hi]]
      undated := by
        rw [List.filter_eq_self.mpr fun i hi => by simp [hnone i hi], List.append_nil]
        exact sortedBy_perm
      unplaced := List.Perm.refl _
      none_dated := fun _ => rfl }
  | some lastDatedStore =>
    have hdated := sortedByDesc_eq_reverse (clockKey declared stored)
      sortedBy_perm sortedBy_pairwise h.clockKey
    have hlater : sortedByDesc stored ((items.filter fun i => (declared i).isNone).filter
          fun i => lastDatedStore < stored i) =
        ((sortedBy stored (items.filter fun i => (declared i).isNone)).filter
          fun i => lastDatedStore < stored i).reverse := by
      apply sortedByDesc_eq_reverse stored (sortedBy_perm.filter _) (sortedBy_pairwise.filter _)
      apply h.undated
      intro i hi
      simpa using (List.mem_filter.mp (List.mem_filter.mp hi).1)
    refine ⟨_, _, _,
      (items.filter fun i => (declared i).isNone).filter fun i => stored i ≤ lastDatedStore,
      .storedAfterDated, ⟨twoClockOrder_of_some hlast, ?_, ?_, ?_, ?_, ?_, ?_⟩⟩
    · rw [orderBand_of_some hlast, hdated, hlater]
    · decide
    · exact sortedBy_perm
    · have hsplit := List.filter_append_perm (fun i => decide (lastDatedStore < stored i))
        (items.filter fun i => (declared i).isNone)
      refine ((sortedBy_perm.filter _).append_right _).trans ?_
      simpa only [decide_not, ← not_lt] using hsplit
    · exact sortedBy_perm.filter _
    · intro hnil
      have hempty := (hnil ▸ sortedBy_perm : [].Perm _).symm.eq_nil
      rw [hempty] at hlast
      cases hlast

section Arranged

variable {events : List (ι × Basis)} {band D U L E : List ι} {basis : Basis}

theorem Arranged.items_perm (a : Arranged declared items events band D U L E basis) :
    (D ++ (L ++ E)).Perm items := by
  have hsplit := List.filter_append_perm (fun i => (declared i).isSome) items
  rw [filter_isNone] at hsplit
  exact (a.dated.append a.undated).trans hsplit

theorem Arranged.events_map (a : Arranged declared items events band D U L E basis) :
    events.map Prod.fst = D ++ U ++ L := by
  rw [a.events_eq]
  simp [Function.comp_def]

theorem Arranged.events_perm (a : Arranged declared items events band D U L E basis) :
    (events.map Prod.fst).Perm items := by
  rw [a.events_map, List.append_assoc]
  have hUL : (U ++ L).Perm (L ++ E) := (a.unplaced.append_right L).trans List.perm_append_comm
  exact (hUL.append_left D).trans a.items_perm

theorem Arranged.band_perm (a : Arranged declared items events band D U L E basis) :
    band.Perm items := by
  have hLD : (L.reverse ++ D.reverse).Perm (D ++ L) :=
    (L.reverse_perm.append D.reverse_perm).trans List.perm_append_comm
  rw [a.band_eq]
  refine (hLD.append_right E).trans ?_
  rw [List.append_assoc]
  exact a.items_perm

theorem Arranged.dated_of_mem (a : Arranged declared items events band D U L E basis) {i : ι}
    (hi : i ∈ D) : (declared i).isSome = true :=
  (List.mem_filter.mp (a.dated.mem_iff.mp hi)).2

theorem Arranged.undated_of_mem (a : Arranged declared items events band D U L E basis) {i : ι}
    (hi : i ∈ L ∨ i ∈ E) : declared i = none := by
  have hi' := (List.mem_filter.mp (a.undated.mem_iff.mp (List.mem_append.mpr hi))).2
  simpa using hi'

/-- The event taken as the latest heads the band. -/
theorem Arranged.latest_eq (a : Arranged declared items events band D U L E basis) :
    latest events = band.head? := by
  -- events that cannot be placed are passed over
  have hU : (U.reverse.map fun i => (i, Basis.unknown)).find? (fun e => e.2 ≠ .unknown) = none :=
    List.find?_eq_none.mpr fun e he => by
      obtain ⟨i, -, rfl⟩ := List.mem_map.mp he
      simp
  rw [latest, a.events_eq, a.band_eq]
  simp only [List.reverse_append, List.find?_append, ← List.map_reverse, hU]
  rcases hL : L.reverse with _ | ⟨i, L'⟩
  · rcases hD : D.reverse with _ | ⟨i, D'⟩
    · rw [a.none_dated (List.reverse_eq_nil_iff.mp hD)]
      simp
    · simp
  · simp [a.placed]

theorem Arranged.dated_reversed (a : Arranged declared items events band D U L E basis) :
    (events.map Prod.fst).filter (fun i => (declared i).isSome) =
      (band.filter fun i => (declared i).isSome).reverse := by
  have hD : D.filter (fun i => (declared i).isSome) = D :=
    List.filter_eq_self.mpr fun i => a.dated_of_mem
  have hL : L.filter (fun i => (declared i).isSome) = [] :=
    List.filter_eq_nil_iff.mpr fun i hi => by simp [a.undated_of_mem (.inl hi)]
  have hE : E.filter (fun i => (declared i).isSome) = [] :=
    List.filter_eq_nil_iff.mpr fun i hi => by simp [a.undated_of_mem (.inr hi)]
  have hU : U.filter (fun i => (declared i).isSome) = [] :=
    List.filter_eq_nil_iff.mpr fun i hi => by
      simp [a.undated_of_mem (.inr (a.unplaced.mem_iff.mp hi))]
  rw [a.events_map, a.band_eq]
  simp only [List.filter_append, List.filter_reverse, hD, hL, hE, hU]
  simp

/-- The undated items that lead the band are those whose place is known. -/
theorem Arranged.mem_leading (a : Arranged declared items events band D U L E basis) {i : ι}
    (hi : declared i = none) :
    i ∈ band.takeWhile (fun j => (declared j).isNone) ↔
      ∃ b, (i, b) ∈ events ∧ b ≠ Basis.unknown := by
  have hlead : band.takeWhile (fun j => (declared j).isNone) = L.reverse := by
    rw [a.band_eq, List.append_assoc, List.takeWhile_append_of_pos]
    · rcases hD : D.reverse with _ | ⟨d, D'⟩
      · rw [a.none_dated (List.reverse_eq_nil_iff.mp hD)]
        simp
      · have hd := a.dated_of_mem (List.mem_reverse.mp (hD ▸ List.mem_cons_self))
        simp [Option.isSome_iff_ne_none.mp hd]
    · intro j hj
      simp [a.undated_of_mem (.inl (List.mem_reverse.mp hj))]
  rw [hlead, List.mem_reverse, a.events_eq]
  constructor
  · intro hL
    exact ⟨basis, by simp [hL], a.placed⟩
  · rintro ⟨b, hb, hne⟩
    simp only [List.mem_append, List.mem_map, Prod.mk.injEq] at hb
    obtain (⟨j, hj, rfl, -⟩ | ⟨j, -, -, hu⟩) | ⟨j, hj, rfl, -⟩ := hb
    · exact absurd (a.dated_of_mem hj) (by simp [hi])
    · exact absurd hu.symm hne
    · exact hj

end Arranged

/-- Where the times tell the records apart, a timeline and recall order them by
one rule: none is lost, the latest event heads the band, the dated records
stand in opposite orders, and the same undated ones are newer than all dated. -/
theorem orders_agree [DecidableEq ι] (declared : ι → Option Int) (stored : ι → Int)
    (items : List ι) (h : TimesApart declared stored items) :
    ((twoClockOrder declared stored items).map Prod.fst).Perm items ∧
      (orderBand declared stored items true).Perm items ∧
      latest (twoClockOrder declared stored items) =
        (orderBand declared stored items true).head? ∧
      ((twoClockOrder declared stored items).map Prod.fst).filter
          (fun i => (declared i).isSome) =
        ((orderBand declared stored items true).filter fun i => (declared i).isSome).reverse ∧
      ∀ i, declared i = none →
        (i ∈ (orderBand declared stored items true).takeWhile (fun j => (declared j).isNone) ↔
          ∃ basis, (i, basis) ∈ twoClockOrder declared stored items ∧ basis ≠ .unknown) := by
  obtain ⟨D, U, L, E, basis, a⟩ := exists_arranged h
  exact ⟨a.events_perm, a.band_perm, a.latest_eq, a.dated_reversed, fun i => a.mem_leading⟩

/-- An imported log, a note that was stored amid it, and a live update. -/
def mixedRecords : List (Option Int × Int) :=
  [(some 5, 10), (none, 3), (some 2, 11), (none, 20)]

theorem orders_agree_mixed :
    latest (twoClockOrder Prod.fst Prod.snd mixedRecords) = some (none, 20) ∧
      (orderBand Prod.fst Prod.snd mixedRecords true).head? = some (none, 20) := by
  have hlatest : latest (twoClockOrder Prod.fst Prod.snd mixedRecords) = some (none, 20) := by
    decide +kernel
  have h := orders_agree Prod.fst Prod.snd mixedRecords (by decide)
  exact ⟨hlatest, h.2.2.1.symm.trans hlatest⟩

end TwoClocks

end MarkSdk
