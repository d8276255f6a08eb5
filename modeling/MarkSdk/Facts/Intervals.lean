import Mathlib.Data.List.Induction
import MarkSdk.Facts.Rechain

/-!
Timelines as intervals, and what the readers make of them.

The abstract state of one timeline under `fact_set` and `fact_add` is a list
of accepted calls in the order in which they arrived. The set values form a
chain by their starts alone (`setIntervals`); an added value keeps its
interval until a set value that lies in it arrives (`addedIntervals`). The
readers depend on the intervals of the live rows only, and not on their ids,
their stamps or their place in the table.
-/

namespace MarkSdk

open Lib

/-- A value with the time it began and the time it ended. -/
structure Interval where
  value : String
  start : Int
  stop : Option Int
  deriving DecidableEq, Repr

/-- What a set or added value brings with it. -/
structure Entry where
  added : Bool
  value : String
  start : Int
  deriving DecidableEq, Repr

def Entry.opened (e : Entry) : Interval := ⟨e.value, e.start, none⟩

/-- A set value at `t` ends the interval that holds then. -/
def Interval.endBy (t : Int) (i : Interval) : Interval :=
  if Lib.covers Interval.start Interval.stop t i then { i with stop := some t } else i

@[simp] theorem Interval.endBy_value (t : Int) (i : Interval) : (i.endBy t).value = i.value := by
  unfold Interval.endBy
  split <;> rfl

@[simp] theorem Interval.endBy_start (t : Int) (i : Interval) : (i.endBy t).start = i.start := by
  unfold Interval.endBy
  split <;> rfl

/-- One more value arrives. -/
def arrive (intervals : List Interval) (e : Entry) : List Interval :=
  if e.added then intervals ++ [e.opened] else intervals.map (Interval.endBy e.start)

/-- The intervals of the added values, in the order in which they arrived. -/
def addedIntervals (es : List Entry) : List Interval := es.foldl arrive []

/-- The intervals of the set values: each ends where the next one begins. -/
def setIntervals (es : List Entry) : List Interval :=
  (nextStarts Entry.start
    ((es.filter fun e => !e.added).insertionSort fun e f => e.start ≤ f.start)).map
    fun u => ⟨u.1.value, u.1.start, u.2⟩

@[simp] theorem addedIntervals_append_singleton (es : List Entry) (e : Entry) :
    addedIntervals (es ++ [e]) = arrive (addedIntervals es) e := by
  simp [addedIntervals]

/-- An interval of an added value comes from the entry of that value. -/
theorem mem_addedIntervals {es : List Entry} {i : Interval} (hi : i ∈ addedIntervals es) :
    ∃ e ∈ es, e.added = true ∧ e.value = i.value ∧ e.start = i.start := by
  induction es using List.reverseRecOn generalizing i with
  | nil => simp [addedIntervals] at hi
  | append_singleton es e ih =>
      rw [addedIntervals_append_singleton, arrive] at hi
      split at hi
      · rename_i hadded
        rcases List.mem_append.mp hi with hi | hi
        · obtain ⟨f, hf, hrest⟩ := ih hi
          exact ⟨f, List.mem_append_left _ hf, hrest⟩
        · obtain rfl : i = e.opened := by simpa using hi
          exact ⟨e, by simp, hadded, rfl, rfl⟩
      · obtain ⟨j, hj, rfl⟩ := List.mem_map.mp hi
        obtain ⟨f, hf, hadded, hvalue, hstart⟩ := ih hj
        exact ⟨f, List.mem_append_left _ hf, hadded, by simpa using hvalue, by simpa using hstart⟩

theorem map_start_addedIntervals (es : List Entry) :
    (addedIntervals es).map Interval.start = (es.filter fun e => e.added).map Entry.start := by
  induction es using List.reverseRecOn with
  | nil => rfl
  | append_singleton es e ih =>
      rw [addedIntervals_append_singleton, arrive, List.filter_append, List.map_append]
      cases hadded : e.added with
      | true => simp [ih, hadded, Entry.opened]
      | false =>
          have hstart : Interval.start ∘ Interval.endBy e.start = Interval.start := by
            funext i
            simp
          simp [hadded, hstart, ih]

/-- Added values that begin after every set value are never ended. -/
theorem addedIntervals_eq_opened {es : List Entry}
    (h : ∀ a ∈ es, ∀ s ∈ es, a.added = true → s.added = false → s.start < a.start) :
    addedIntervals es = (es.filter fun e => e.added).map Entry.opened := by
  induction es using List.reverseRecOn with
  | nil => rfl
  | append_singleton es e ih =>
      have ih' := ih fun a ha s hs =>
        h a (List.mem_append_left _ ha) s (List.mem_append_left _ hs)
      rw [addedIntervals_append_singleton, ih', arrive]
      cases hadded : e.added with
      | true => simp [List.filter_append, hadded]
      | false =>
          have hsame : ∀ i ∈ (es.filter fun e => e.added).map Entry.opened,
              i.endBy e.start = i := by
            intro i hi
            obtain ⟨a, ha, rfl⟩ := List.mem_map.mp hi
            obtain ⟨ha, haadded⟩ := List.mem_filter.mp ha
            have hlt := h a (List.mem_append_left _ ha) e (by simp) haadded hadded
            have hopen : ¬ a.opened.start ≤ e.start := by
              simp only [Entry.opened]
              omega
            simp [Interval.endBy, Lib.covers, hopen]
          rw [if_neg (by simp), List.map_congr_left hsame]
          simp [List.filter_append, hadded]

/-- Set values that arrive before every added value end none of them. -/
theorem addedIntervals_sets_first {sets added : List Entry} (hsets : ∀ s ∈ sets, s.added = false)
    (hadded : ∀ a ∈ added, a.added = true) :
    addedIntervals (sets ++ added) = added.map Entry.opened := by
  induction added using List.reverseRecOn with
  | nil =>
      have hnone : (addedIntervals sets).map Interval.start = [] := by
        rw [map_start_addedIntervals, List.filter_eq_nil_iff.mpr fun s hs => by simp [hsets s hs]]
        rfl
      simpa using hnone
  | append_singleton added a ih =>
      have ih' := ih fun b hb => hadded b (List.mem_append_left _ hb)
      rw [← List.append_assoc, addedIntervals_append_singleton, arrive,
        if_pos (hadded a (by simp)), ih']
      simp

/-- Every added value has its interval. -/
theorem exists_addedInterval {es : List Entry} {a : Entry} (ha : a ∈ es)
    (hadded : a.added = true) : ∃ i ∈ addedIntervals es, i.start = a.start := by
  induction es using List.reverseRecOn with
  | nil => simp at ha
  | append_singleton es e ih =>
      rw [addedIntervals_append_singleton, arrive]
      rcases List.mem_append.mp ha with ha | ha
      · obtain ⟨i, hi, hstart⟩ := ih ha
        split
        · exact ⟨i, List.mem_append_left _ hi, hstart⟩
        · exact ⟨i.endBy e.start, List.mem_map_of_mem hi, by simpa using hstart⟩
      · obtain rfl : a = e := by simpa using ha
        exact ⟨a.opened, by simp [hadded], rfl⟩

/-- Once ended, an added value stays ended; one that a set value finds open
is ended by it. -/
theorem exists_ended {es : List Entry} {a : Entry} (ha : a ∈ es) (hadded : a.added = true)
    {sets : List Entry} (hsets : ∀ s ∈ sets, s.added = false)
    (hlater : ∃ s ∈ sets, a.start ≤ s.start) :
    ∃ i ∈ addedIntervals (es ++ sets), i.start = a.start ∧ i.stop ≠ none := by
  induction sets using List.reverseRecOn with
  | nil => simp at hlater
  | append_singleton sets s ih =>
      have hs : s.added = false := hsets s (by simp)
      rw [← List.append_assoc, addedIntervals_append_singleton, arrive, if_neg (by simp [hs])]
      by_cases hbefore : ∃ s ∈ sets, a.start ≤ s.start
      · obtain ⟨i, hi, hstart, hstop⟩ :=
          ih (fun t ht => hsets t (List.mem_append_left _ ht)) hbefore
        refine ⟨i.endBy s.start, List.mem_map_of_mem hi, by simpa using hstart, ?_⟩
        unfold Interval.endBy
        split
        · simp
        · exact hstop
      · have hle : a.start ≤ s.start := by
          obtain ⟨t, ht, hle⟩ := hlater
          rcases List.mem_append.mp ht with ht | ht
          · exact absurd ⟨t, ht, hle⟩ hbefore
          · obtain rfl : t = s := by simpa using ht
            exact hle
        obtain ⟨i, hi, hstart⟩ :=
          exists_addedInterval (List.mem_append_left sets ha) hadded
        refine ⟨i.endBy s.start, List.mem_map_of_mem hi, by simpa using hstart, ?_⟩
        cases hstop : i.stop with
        | none =>
            have : i.start ≤ s.start := by omega
            simp [Interval.endBy, Lib.covers, hstop, this]
        | some e =>
            unfold Interval.endBy
            split
            · simp
            · simp [hstop]

/-- The starts of the set intervals are the starts of the set values. -/
theorem mem_setIntervals {es : List Entry} {i : Interval} (hi : i ∈ setIntervals es) :
    ∃ e ∈ es, e.added = false ∧ e.start = i.start := by
  obtain ⟨u, hu, rfl⟩ := List.mem_map.mp hi
  have hmem : u.1 ∈ (es.filter fun e => !e.added).insertionSort fun e f => e.start ≤ f.start := by
    have := List.mem_map_of_mem (f := Prod.fst) hu
    rwa [map_fst_nextStarts] at this
  rw [List.mem_insertionSort, List.mem_filter] at hmem
  exact ⟨u.1, hmem.1, by simpa using hmem.2, rfl⟩

/-- The set intervals do not depend on the order of arrival. -/
theorem setIntervals_perm {es fs : List Entry} (h : es.Perm fs)
    (hstarts : (es.map Entry.start).Nodup) : setIntervals es = setIntervals fs := by
  have hsort : (es.filter fun e => !e.added).insertionSort (fun e f => e.start ≤ f.start) =
      (fs.filter fun e => !e.added).insertionSort fun e f => e.start ≤ f.start := by
    refine List.Perm.eq_of_pairwise (fun e f he hf hef hfe => ?_)
      (List.pairwise_insertionSort _ _) (List.pairwise_insertionSort _ _) ?_
    · rw [List.mem_insertionSort] at he hf
      have he' := (List.mem_filter.mp he).1
      have hf' := h.mem_iff.mpr (List.mem_filter.mp hf).1
      exact List.inj_on_of_nodup_map hstarts he' hf' (le_antisymm hef hfe)
    · exact ((List.perm_insertionSort _ _).trans (h.filter _)).trans
        (List.perm_insertionSort _ _).symm
  unfold setIntervals
  rw [hsort]

end MarkSdk
