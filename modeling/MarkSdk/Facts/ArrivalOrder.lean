import Mathlib.Data.Set.Finite.Basic
import MarkSdk.Facts.Arrivals

/-!
Does the order matter in which values arrive?

`fact_history`, `fact_as_of` and `fact_current` depend on the intervals of
the live rows only (`sameReadings_of_perm`). The set values come out the
same in every order of arrival. An added value does not: a set value ends
the added values that began earlier only if they are already there when it
arrives. So the order does not matter exactly when no added value begins
before a set value (`arrival_order`).
-/

namespace MarkSdk

open Lib

/-- What a reader reports, as far as the value and the times go. -/
structure Reading where
  value : PyValue
  start : Int
  stop : Option Int

def Fact.reading (f : Fact) : Reading := ⟨f.value, f.validFrom, f.validTo⟩

def Interval.reading (py : Python) (i : Interval) : Reading :=
  ⟨decodeValue py i.value, i.start, i.stop⟩

@[simp] theorem rowToFact_reading (py : Python) (r : FactRow) :
    (rowToFact py r).reading = r.interval.reading py := rfl

/-- `pushHistory` on readings. -/
def pushReading (history : List Reading) (x : Reading) : List Reading :=
  match history.getLast? with
  | some last =>
      if last.value.eq x.value then history.dropLast ++ [{ last with stop := x.stop }]
      else history ++ [x]
  | none => [x]

/-- Two databases read the same on one subject and attribute. -/
structure SameReadings (py : Python) (agentId subject attributeName : String) (db db' : Db) :
    Prop where
  intervals : ∀ i,
    i ∈ (liveRows db (callKey py agentId subject attributeName)).map FactRow.interval ↔
      i ∈ (liveRows db' (callKey py agentId subject attributeName)).map FactRow.interval
  history : (factHistory py db agentId subject attributeName).map Fact.reading =
    (factHistory py db' agentId subject attributeName).map Fact.reading
  asOf : ∀ when_, (factAsOf py db agentId subject attributeName when_).map Fact.reading =
    (factAsOf py db' agentId subject attributeName when_).map Fact.reading
  current : ∀ now,
    (factCurrent py now db agentId (some subject) (some attributeName)).map Fact.reading =
      (factCurrent py now db' agentId (some subject) (some attributeName)).map Fact.reading

/-! ### The readers see intervals -/

theorem map_pushHistory (history : List Fact) (f : Fact) :
    (pushHistory history f).map Fact.reading =
      pushReading (history.map Fact.reading) f.reading := by
  unfold pushHistory pushReading
  rw [List.getLast?_map]
  cases history.getLast? with
  | none => rfl
  | some last =>
      simp only [Option.map_some]
      have hvalue : last.reading.value.eq f.reading.value = last.value.eq f.value := rfl
      rw [hvalue]
      split
      · rw [List.map_append, List.map_dropLast]
        rfl
      · rw [List.map_append]
        rfl

theorem factHistory_reading (py : Python) (db : Db) (agentId subject attributeName : String) :
    (factHistory py db agentId subject attributeName).map Fact.reading =
      (((timeline db (callKey py agentId subject attributeName)).map FactRow.interval).map
        (Interval.reading py)).foldl pushReading [] := by
  have hfold : ∀ (rows : List FactRow) (history : List Fact),
      ((rows.map (rowToFact py)).foldl pushHistory history).map Fact.reading =
        ((rows.map FactRow.interval).map (Interval.reading py)).foldl pushReading
          (history.map Fact.reading) := by
    intro rows
    induction rows with
    | nil => exact fun _ => rfl
    | cons r rows ih =>
        intro history
        simp only [List.map_cons, List.foldl_cons]
        rw [ih, map_pushHistory, rowToFact_reading]
  exact hfold _ []

/-- Rows in the order of distinct starts: their intervals stand in one order only. -/
theorem intervals_eq_of_perm {l l' : List FactRow}
    (hperm : (l.map FactRow.interval).Perm (l'.map FactRow.interval))
    (hstarts : (l.map FactRow.validFrom).Nodup)
    (hl : l.Pairwise fun r s => r.validFrom ≤ s.validFrom)
    (hl' : l'.Pairwise fun r s => r.validFrom ≤ s.validFrom) :
    l.map FactRow.interval = l'.map FactRow.interval := by
  have hnodup : ((l.map FactRow.interval).map Interval.start).Nodup := by
    rw [List.map_map]
    exact hstarts
  have hsorted : (l.map FactRow.interval).Pairwise fun i j => i.start ≤ j.start :=
    List.pairwise_map.mpr hl
  have hsorted' : (l'.map FactRow.interval).Pairwise fun i j => i.start ≤ j.start :=
    List.pairwise_map.mpr hl'
  refine List.Perm.eq_of_pairwise (fun i j hi hj hij hji => ?_) hsorted hsorted' hperm
  exact List.inj_on_of_nodup_map hnodup hi (hperm.mem_iff.mpr hj) (le_antisymm hij hji)

theorem timelineKey_of_mem {db : Db} {k : TimelineKey} {r : FactRow} (hr : r ∈ liveRows db k) :
    r.timelineKey = k :=
  (mem_liveRows.mp hr).2.2

/-- The rows of `fact_current` for one subject and attribute. -/
theorem factCurrent_eq (py : Python) (now : Int) (db : Db) (agentId subject attributeName : String) :
    factCurrent py now db agentId (some subject) (some attributeName) =
      ((rowsOpenAt db (callKey py agentId subject attributeName) now).insertionSort
        FactRow.beforeByKey).map (rowToFact py) := by
  unfold factCurrent rowsOpenAt liveRows
  rw [List.filter_filter]
  congr 2
  refine List.filter_congr fun r _ => ?_
  simp only [Option.all_some, callKey, FactRow.timelineKey, TimelineKey.mk.injEq]
  rw [Bool.eq_iff_iff]
  simp only [Bool.and_eq_true, decide_eq_true_eq]
  tauto

/-- On one timeline, the order of `fact_current` is the order of the starts. -/
theorem sorted_current (db : Db) (k : TimelineKey) (now : Int) :
    ((rowsOpenAt db k now).insertionSort FactRow.beforeByKey).Pairwise
      fun r s => r.validFrom ≤ s.validFrom := by
  have hkey : ∀ r ∈ (rowsOpenAt db k now).insertionSort FactRow.beforeByKey,
      r.subjectKey = k.subjectKey ∧ r.attributeKey = k.attributeKey := by
    intro r hr
    rw [List.mem_insertionSort] at hr
    have := timelineKey_of_mem (List.mem_filter.mp hr).1
    rw [← this]
    exact ⟨rfl, rfl⟩
  refine (List.pairwise_insertionSort FactRow.beforeByKey _).imp_of_mem fun {r s} hr hs h => ?_
  unfold FactRow.beforeByKey FactRow.before at h
  obtain ⟨hrs, hra⟩ := hkey r hr
  obtain ⟨hss, hsa⟩ := hkey s hs
  rw [hrs, hra, hss, hsa] at h
  simp only [lt_irrefl, true_and, false_or] at h
  omega

theorem sameReadings_of_perm {py : Python} {agentId subject attributeName : String} {db db' : Db}
    (hperm : ((liveRows db (callKey py agentId subject attributeName)).map FactRow.interval).Perm
      ((liveRows db' (callKey py agentId subject attributeName)).map FactRow.interval))
    (hstarts : ((liveRows db (callKey py agentId subject attributeName)).map
      FactRow.validFrom).Nodup) :
    SameReadings py agentId subject attributeName db db' := by
  let k := callKey py agentId subject attributeName
  have htimeline : (timeline db k).map FactRow.interval = (timeline db' k).map FactRow.interval := by
    refine intervals_eq_of_perm ?_ ?_ (timeline_pairwise db k) (timeline_pairwise db' k)
    · exact (((timeline_perm db k).map _).trans hperm).trans ((timeline_perm db' k).map _).symm
    · exact ((timeline_perm db k).map _).nodup_iff.mpr hstarts
  have hopen : ∀ t, ((rowsOpenAt db k t).map FactRow.interval).Perm
      ((rowsOpenAt db' k t).map FactRow.interval) := by
    intro t
    have hfilter : ∀ d, (rowsOpenAt d k t).map FactRow.interval =
        ((liveRows d k).map FactRow.interval).filter
          (Lib.covers Interval.start Interval.stop t) := by
      intro d
      rw [List.filter_map]
      rfl
    rw [hfilter, hfilter]
    exact hperm.filter _
  have hopenStarts : ∀ t, ((rowsOpenAt db k t).map FactRow.validFrom).Nodup := fun t =>
    hstarts.sublist (List.filter_sublist.map _)
  have hsort : ∀ t (r : FactRow → FactRow → Prop) [DecidableRel r],
      (∀ d, ((rowsOpenAt d k t).insertionSort r).Pairwise fun r s => r.validFrom ≤ s.validFrom) →
      ((rowsOpenAt db k t).insertionSort r).map FactRow.interval =
        ((rowsOpenAt db' k t).insertionSort r).map FactRow.interval := by
    intro t r _ hsorted
    refine intervals_eq_of_perm ?_ ?_ (hsorted db) (hsorted db')
    · exact (((List.perm_insertionSort _ _).map _).trans (hopen t)).trans
        ((List.perm_insertionSort _ _).map _).symm
    · exact ((List.perm_insertionSort _ _).map _).nodup_iff.mpr (hopenStarts t)
  exact
    { intervals := fun i => hperm.mem_iff
      history := by rw [factHistory_reading, factHistory_reading, htimeline]
      asOf := fun when_ => by
        have hlast : ∀ d, (factAsOf py d agentId subject attributeName when_).map Fact.reading =
            (((rowsOpenAt d k (utcText when_)).insertionSort
              fun r s => r.validFrom ≤ s.validFrom).map FactRow.interval).getLast?.map
                (Interval.reading py) := by
          intro d
          rw [List.getLast?_map, Option.map_map]
          unfold factAsOf asOfRow
          rw [Option.map_map]
          rfl
        rw [hlast, hlast, hsort (utcText when_) _ fun d => List.pairwise_insertionSort _ _]
      current := fun now => by
        have hmap : ∀ d, (factCurrent py now d agentId (some subject) (some attributeName)).map
            Fact.reading = (((rowsOpenAt d k now).insertionSort FactRow.beforeByKey).map
              FactRow.interval).map (Interval.reading py) := by
          intro d
          rw [factCurrent_eq, List.map_map, List.map_map]
          rfl
        rw [hmap, hmap, hsort now FactRow.beforeByKey fun d => sorted_current d k now] }

/-! ### The rows that have arrived -/

section

variable {py : Python} {agentId subject attributeName : String} {db : Db} {es : List Entry}
  {k : TimelineKey}

theorem Arrived.set_starts (h : Arrived db k es) :
    (setRows db k).map FactRow.validFrom = (es.filter fun e => !e.added).map Entry.start := by
  rw [← h.sets, List.map_map]
  rfl

theorem Arrived.added_starts (h : Arrived db k es) :
    (addedRows db k).map FactRow.validFrom = (es.filter fun e => e.added).map Entry.start := by
  rw [← map_start_addedIntervals, ← h.added, List.map_map]
  rfl

/-- Live rows are added or set. -/
theorem addedRows_append_setRows (db : Db) (k : TimelineKey) :
    (addedRows db k ++ setRows db k).Perm (liveRows db k) :=
  List.filter_append_perm FactRow.isMulti (liveRows db k)

theorem Arrived.nodup_starts (h : Arrived db k es) (hdistinct : Distinct es) :
    ((liveRows db k).map FactRow.validFrom).Nodup := by
  have hrows := (addedRows_append_setRows db k).map FactRow.validFrom
  rw [List.map_append, h.added_starts, h.set_starts, ← List.map_append] at hrows
  have hentries := (List.filter_append_perm (fun e : Entry => e.added) es).map Entry.start
  exact (hrows.symm.trans hentries).nodup_iff.mpr hdistinct.starts

/-- The chain carries the intervals of the set values. -/
theorem Arrived.chain_intervals (h : Arrived db k es) (hdistinct : Distinct es) :
    (chain db k).map FactRow.interval = setIntervals es := by
  have hperm : ((chain db k).map FactRow.entry).Perm (es.filter fun e => !e.added) := by
    rw [chain_eq_sort, ← h.sets]
    exact (List.perm_insertionSort _ _).map _
  have hsorted : ((chain db k).map FactRow.entry).Pairwise fun e f => e.start ≤ f.start :=
    List.pairwise_map.mpr ((timeline_pairwise db k).sublist List.filter_sublist)
  have hentries : (es.filter fun e => !e.added).insertionSort (fun e f => e.start ≤ f.start) =
      (chain db k).map FactRow.entry := by
    refine List.Perm.eq_of_pairwise (fun e f he hf hef hfe => ?_)
      (List.pairwise_insertionSort _ _) hsorted ((List.perm_insertionSort _ _).trans hperm.symm)
    have he' : e ∈ es := (List.mem_filter.mp ((List.mem_insertionSort _).mp he)).1
    have hf' : f ∈ es := (List.mem_filter.mp (hperm.mem_iff.mp hf)).1
    exact List.inj_on_of_nodup_map hdistinct.starts he' hf' (le_antisymm hef hfe)
  have htiles : nextStarts FactRow.validFrom (chain db k) =
      (chain db k).map fun r => (r, r.validTo) := nextStarts_eq_of_tiles h.chained
  have hstarts : nextStarts (fun r => (FactRow.entry r).start) (chain db k) =
      nextStarts FactRow.validFrom (chain db k) := rfl
  unfold setIntervals
  rw [hentries, nextStarts_map, hstarts, htiles, List.map_map, List.map_map]
  rfl

/-- The live rows carry the intervals of the set values and of the added ones. -/
theorem Arrived.intervals_perm (h : Arrived db k es) (hdistinct : Distinct es) :
    ((liveRows db k).map FactRow.interval).Perm (setIntervals es ++ addedIntervals es) := by
  have hset : ((setRows db k).map FactRow.interval).Perm (setIntervals es) := by
    rw [← h.chain_intervals hdistinct, chain_eq_sort]
    exact ((List.perm_insertionSort _ _).map _).symm
  have hrows := ((addedRows_append_setRows db k).map FactRow.interval).symm
  rw [List.map_append, h.added] at hrows
  exact (hrows.trans List.perm_append_comm).trans (hset.append_right _)

end

/-! ### Two orders -/

/-- An execution of some calls: in any order, at any time, with fresh ids. -/
structure Executes (calls : List FactCall) (db : Db) (xs : List Arrival) : Prop where
  perm : (xs.map Arrival.call).Perm calls
  nodup : (xs.map Arrival.uuid).Nodup
  fresh : ∀ x ∈ xs, x.uuid ∉ db.factIds

theorem entries_perm (py : Python) (agentId subject attributeName : String) {cs ds : List FactCall}
    (h : cs.Perm ds) : (entries py agentId subject attributeName cs).Perm
      (entries py agentId subject attributeName ds) :=
  h.filterMap _

/-- Selecting calls is selecting their entries. -/
theorem entries_filter (py : Python) (agentId subject attributeName : String)
    (p : Bool → Bool) (cs : List FactCall) :
    entries py agentId subject attributeName (cs.filter fun c => p c.added) =
      (entries py agentId subject attributeName cs).filter fun e => p e.added := by
  induction cs with
  | nil => rfl
  | cons c cs ih =>
      unfold entries at *
      cases he : c.entry? py agentId subject attributeName with
      | none =>
          rw [List.filterMap_cons_none he, ← ih, List.filter_cons]
          split
          · rw [List.filterMap_cons_none he]
          · rfl
      | some e =>
          have hadded : e.added = c.added := (FactCall.entry?_eq_some he).2.2.2
          rw [List.filterMap_cons_some he, List.filter_cons, List.filter_cons, hadded, ← ih]
          split
          · rw [List.filterMap_cons_some he]
          · rfl

/-- There are always ids that are not taken. -/
theorem exists_fresh (taken : List String) (n : Nat) :
    ∃ ids : List String, ids.length = n ∧ ids.Nodup ∧ ∀ id ∈ ids, id ∉ taken := by
  have hinj : Function.Injective fun m : Nat => String.ofList (List.replicate m 'x') := by
    intro a b hab
    have := congrArg (fun s => s.toList.length) hab
    simpa using this
  have : Infinite String := Infinite.of_injective _ hinj
  induction n with
  | zero => exact ⟨[], rfl, List.nodup_nil, by simp⟩
  | succ n ih =>
      obtain ⟨ids, hlength, hnodup, hfresh⟩ := ih
      obtain ⟨id, hid⟩ := Infinite.exists_notMem_finset (taken ++ ids).toFinset
      rw [List.mem_toFinset, List.mem_append, not_or] at hid
      refine ⟨id :: ids, by simp [hlength], List.nodup_cons.mpr ⟨hid.2, hnodup⟩, ?_⟩
      intro other hother
      rcases List.mem_cons.mp hother with rfl | hother
      · exact hid.1
      · exact hfresh other hother

/-- Any order of the calls can be executed. -/
theorem exists_executes {calls cs : List FactCall} (h : cs.Perm calls) (db : Db) :
    ∃ xs, Executes calls db xs ∧ xs.map Arrival.call = cs := by
  obtain ⟨ids, hlength, hnodup, hfresh⟩ := exists_fresh db.factIds cs.length
  let xs := (ids.zip cs).map fun p => Arrival.mk 0 p.1 p.2
  have hcalls : xs.map Arrival.call = cs := by
    rw [List.map_map]
    exact List.map_snd_zip hlength.ge
  have hids : xs.map Arrival.uuid = ids := by
    rw [List.map_map]
    exact List.map_fst_zip hlength.le
  refine ⟨xs, ⟨hcalls ▸ h, hids ▸ hnodup, fun x hx => ?_⟩, hcalls⟩
  exact hfresh x.uuid (hids ▸ List.mem_map_of_mem hx)

/-- The live rows after an execution, as intervals. -/
theorem Executes.intervals {py : Python} {agentId subject attributeName : String} {db : Db}
    {calls : List FactCall} {xs : List Arrival}
    (hempty : liveRows db (callKey py agentId subject attributeName) = [])
    (hdistinct : Distinct (entries py agentId subject attributeName calls))
    (h : Executes calls db xs) :
    let es := entries py agentId subject attributeName (xs.map Arrival.call)
    let db' := runArrivals py agentId subject attributeName xs db
    let k := callKey py agentId subject attributeName
    Distinct es ∧ ((liveRows db' k).map FactRow.validFrom).Nodup ∧
      ((liveRows db' k).map FactRow.interval).Perm (setIntervals es ++ addedIntervals es) := by
  intro es db' k
  have hes : Distinct es := hdistinct.perm (entries_perm py agentId subject attributeName h.perm).symm
  have harrived : Arrived db' k es := by
    have hrun := arrived_run (arrived_empty hempty) h.nodup h.fresh (by simpa using hes)
    simpa using hrun
  exact ⟨hes, harrived.nodup_starts hes, harrived.intervals_perm hes⟩

/-- Values that arrive on an empty timeline read the same in every order
exactly when no accepted `fact_add` begins before an accepted `fact_set`.
Otherwise the added value has an end if it arrives first, and none if it
arrives last. -/
theorem arrival_order (py : Python) (agentId subject attributeName : String) (db : Db)
    (hempty : liveRows db (callKey py agentId subject attributeName) = [])
    (calls : List FactCall)
    (hdistinct : Distinct (entries py agentId subject attributeName calls)) :
    (∀ xs ys, Executes calls db xs → Executes calls db ys →
        SameReadings py agentId subject attributeName
          (runArrivals py agentId subject attributeName xs db)
          (runArrivals py agentId subject attributeName ys db)) ↔
      ∀ a ∈ entries py agentId subject attributeName calls,
        ∀ s ∈ entries py agentId subject attributeName calls,
          a.added = true → s.added = false → s.start < a.start := by
  let es := entries py agentId subject attributeName calls
  constructor
  · intro hsame a ha s hs hadded hset
    by_contra hlt
    have hle : a.start ≤ s.start := by omega
    -- the added values first, and the set values first
    have hsplit : ∀ p : Bool → Bool,
        (calls.filter (fun c => p c.added) ++ calls.filter fun c => !p c.added).Perm calls :=
      fun p => List.filter_append_perm (fun c => p c.added) calls
    have hentries : ∀ p : Bool → Bool, entries py agentId subject attributeName
        (calls.filter (fun c => p c.added) ++ calls.filter fun c => !p c.added) =
          es.filter (fun e => p e.added) ++ es.filter fun e => !p e.added := by
      intro p
      have hneg := entries_filter py agentId subject attributeName (fun b => !p b) calls
      have hpos := entries_filter py agentId subject attributeName p calls
      rw [← hneg, ← hpos]
      exact List.filterMap_append
    obtain ⟨xs, hxs, hxcalls⟩ := exists_executes (hsplit id) db
    obtain ⟨ys, hys, hycalls⟩ := exists_executes (hsplit not) db
    obtain ⟨-, -, hxperm⟩ := hxs.intervals hempty hdistinct
    obtain ⟨hydistinct, -, hyperm⟩ := hys.intervals hempty hdistinct
    rw [hxcalls, hentries] at hxperm
    rw [hycalls, hentries] at hyperm hydistinct
    have hmem : a ∈ es.filter fun e => e.added := List.mem_filter.mpr ⟨ha, hadded⟩
    have hsets : ∀ f ∈ es.filter fun e => !e.added, f.added = false := fun f hf => by
      simpa using (List.mem_filter.mp hf).2
    have hadds : ∀ f ∈ es.filter fun e => !!e.added, f.added = true := fun f hf => by
      simpa using (List.mem_filter.mp hf).2
    have hlater : ∃ f ∈ es.filter fun e => !e.added, a.start ≤ f.start :=
      ⟨s, List.mem_filter.mpr ⟨hs, by simp [hset]⟩, hle⟩
    obtain ⟨i, hi, hstart, hstop⟩ := exists_ended hmem hadded hsets hlater
    have hi' := ((hsame xs ys hxs hys).intervals i).mp
      (hxperm.mem_iff.mpr (List.mem_append_right _ hi))
    rcases List.mem_append.mp (hyperm.mem_iff.mp hi') with hi' | hi'
    · -- the interval of a set value begins elsewhere
      obtain ⟨f, hf, hfset, hfstart⟩ := mem_setIntervals hi'
      have hmem' : a ∈ es.filter (fun e => !e.added) ++ es.filter fun e => !!e.added :=
        List.mem_append_right _ (List.mem_filter.mpr ⟨ha, by simp [hadded]⟩)
      have : f = a := List.inj_on_of_nodup_map hydistinct.starts hf hmem' (hfstart.trans hstart)
      rw [this, hadded] at hfset
      cases hfset
    · rw [addedIntervals_sets_first hsets hadds] at hi'
      obtain ⟨f, -, rfl⟩ := List.mem_map.mp hi'
      exact hstop rfl
  · intro hbefore xs ys hxs hys
    obtain ⟨hxdistinct, hxstarts, hxperm⟩ := hxs.intervals hempty hdistinct
    obtain ⟨hydistinct, -, hyperm⟩ := hys.intervals hempty hdistinct
    have hperm := entries_perm py agentId subject attributeName (hxs.perm.trans hys.perm.symm)
    have hadded : (addedIntervals (entries py agentId subject attributeName
          (xs.map Arrival.call))).Perm
        (addedIntervals (entries py agentId subject attributeName (ys.map Arrival.call))) := by
      have hopened : ∀ zs, Executes calls db zs →
          addedIntervals (entries py agentId subject attributeName (zs.map Arrival.call)) =
            ((entries py agentId subject attributeName (zs.map Arrival.call)).filter
              fun e => e.added).map Entry.opened := by
        intro zs hzs
        have hperm := entries_perm py agentId subject attributeName hzs.perm
        exact addedIntervals_eq_opened fun a ha s hs =>
          hbefore a (hperm.subset ha) s (hperm.subset hs)
      rw [hopened xs hxs, hopened ys hys]
      exact (hperm.filter _).map _
    refine sameReadings_of_perm (hxperm.trans (List.Perm.trans ?_ hyperm.symm)) hxstarts
    rw [setIntervals_perm hperm hxdistinct.starts]
    exact hadded.append_left _

/-- A number that is added for time 1, and the value that replaces every
number from time 2 on. -/
def addedEarlier : FactCall := ⟨true, .str "555", .ofInstant 1, none, []⟩

def setLater : FactCall := ⟨false, .str "none", .ofInstant 2, none, []⟩

/-- In order, the set value ends the added one; the other way round the added
value stays open. -/
theorem arrival_order_matters :
    let run := fun xs => runArrivals .basic "agent" "ana" "phone" xs .empty
    let before := run [⟨10, "a", addedEarlier⟩, ⟨11, "b", setLater⟩]
    let after := run [⟨10, "a", setLater⟩, ⟨11, "b", addedEarlier⟩]
    Distinct (entries .basic "agent" "ana" "phone" [addedEarlier, setLater]) ∧
      ¬ SameReadings .basic "agent" "ana" "phone" before after := by
  intro run before after
  refine ⟨⟨by decide, by decide⟩, fun h => ?_⟩
  have hmem : (⟨"555", 1, some 2⟩ : Interval) ∈
      (liveRows before (callKey .basic "agent" "ana" "phone")).map FactRow.interval := by decide
  have hnot : (⟨"555", 1, some 2⟩ : Interval) ∉
      (liveRows after (callKey .basic "agent" "ana" "phone")).map FactRow.interval := by decide
  exact hnot ((h.intervals _).mp hmem)

def setEarlier : FactCall := ⟨false, .str "none", .ofInstant 1, none, []⟩

def addedLater : FactCall := ⟨true, .str "555", .ofInstant 2, none, []⟩

/-- A value set for time 1 and a number added for time 2 may come in any
order. -/
theorem arrival_order_added_later :
    SameReadings .basic "agent" "ana" "phone"
      (runArrivals .basic "agent" "ana" "phone" [⟨10, "a", setEarlier⟩, ⟨11, "b", addedLater⟩] .empty)
      (runArrivals .basic "agent" "ana" "phone" [⟨10, "c", addedLater⟩, ⟨11, "d", setEarlier⟩]
        .empty) :=
  (arrival_order .basic "agent" "ana" "phone" .empty rfl [setEarlier, addedLater]
    ⟨by decide, by decide⟩).mpr (by decide) _ _
    ⟨List.Perm.refl _, by decide, by decide⟩ ⟨List.Perm.swap _ _ _, by decide, by decide⟩

end MarkSdk
