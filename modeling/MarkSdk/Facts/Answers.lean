import MarkSdk.Facts.Undo

/-!
How the answer of `fact_as_of` changes with the rows of a timeline.

The answer is the latest of the rows that hold (`asOfRow_eq`). An added row
takes the answer from every row that begins no later than it; ended added rows
leave it to what is there without them.
-/

namespace MarkSdk

open Lib

variable {db db' : Db} {k : TimelineKey} {gone : FactRow → Bool} {t : Int}

theorem asOfRow_eq (db : Db) (k : TimelineKey) (t : Int) :
    asOfRow db k t = latestBy FactRow.validFrom ((liveRows db k).filter (FactRow.covers t)) := rfl

/-! ### The timeline without some rows -/

/-- The timeline without the rows that `gone` selects, and what is left
chained again. -/
def Db.without (db : Db) (k : TimelineKey) (gone : FactRow → Bool) : Db :=
  (db.deleteFacts fun r => r.live && r.timelineKey = k && gone r).rechain k

theorem liveRows_delete_gone (db : Db) (k : TimelineKey) (gone : FactRow → Bool) :
    liveRows (db.deleteFacts fun r => r.live && r.timelineKey = k && gone r) k =
      (liveRows db k).filter fun r => !gone r := by
  unfold liveRows
  rw [rows_deleteFacts, List.filter_filter, List.filter_filter]
  refine List.filter_congr fun r _ => ?_
  cases r.live <;> by_cases hkey : r.timelineKey = k <;> simp [hkey]

theorem Withdrawn.liveRows_eq (h : Withdrawn gone k db db') :
    liveRows db' k = liveRows (db.without k gone) k := by
  obtain ⟨cut, hcut, hrows⟩ := h
  exact hrows.trans (liveRows_rechain_congr (hcut.trans (liveRows_delete_gone db k gone).symm))

/-- What is left are rows that stay, with new ends. -/
theorem mem_liveRows_without {r : FactRow} (h : r ∈ liveRows (db.without k gone) k) :
    ∃ s ∈ liveRows db k, gone s = false ∧ ∃ stop, r = s.endAt stop := by
  rw [Db.without, liveRows_rechain, liveRows_delete_gone] at h
  obtain ⟨s, hs, rfl⟩ := List.mem_map.mp h
  obtain ⟨hs, hstays⟩ := List.mem_filter.mp hs
  exact ⟨s, hs, by simpa using hstays, _, rfl⟩

/-- Without some added rows the others keep their ends. -/
theorem liveRows_without_added (h : ChainedAt db k)
    (hadded : ∀ r ∈ liveRows db k, gone r = true → r.isMulti = true) :
    liveRows (db.without k gone) k = (liveRows db k).filter fun r => !gone r := by
  have hset : setRows (db.deleteFacts fun r => r.live && r.timelineKey = k && gone r) k =
      setRows db k := by
    unfold setRows
    rw [liveRows_delete_gone, List.filter_filter]
    refine List.filter_congr fun r hr => ?_
    cases hgone : gone r with
    | false => simp
    | true => simp [hadded r hr hgone]
  exact (liveRows_rechain_of_chained ((chainedAt_of_setRows hset).mpr h)).trans
    (liveRows_delete_gone db k gone)

/-! ### What the rows that stay answer -/

/-- Of the set rows that stay, the last to begin by a time. -/
def lastSet (db : Db) (k : TimelineKey) (gone : FactRow → Bool) (t : Int) : Option FactRow :=
  ((timeline db k).filter fun r => !gone r && (!r.isMulti && decide (r.validFrom ≤ t))).getLast?

/-- A row that stays stands at a time: an added row while it holds, a set row
from its start until the next one of those that stay begins. -/
def FactRow.stands (db : Db) (k : TimelineKey) (gone : FactRow → Bool) (t : Int)
    (r : FactRow) : Bool :=
  !gone r && if r.isMulti then r.covers t else decide ((lastSet db k gone t).map FactRow.id = some r.id)

def restRow (db : Db) (k : TimelineKey) (gone : FactRow → Bool) (t : Int) : Option FactRow :=
  latestBy FactRow.validFrom ((liveRows db k).filter (FactRow.stands db k gone t))

theorem mem_of_restRow {r : FactRow} (h : restRow db k gone t = some r) : r ∈ liveRows db k :=
  (List.mem_filter.mp (mem_of_latestBy h)).1

theorem timeline_delete_gone (db : Db) (k : TimelineKey) (gone : FactRow → Bool) :
    timeline (db.deleteFacts fun r => r.live && r.timelineKey = k && gone r) k =
      (timeline db k).filter fun r => !gone r := by
  unfold timeline
  rw [liveRows_delete_gone]
  exact (filter_insertionSort FactRow.before _ _).symm

/-- Chained again, a set row holds at a time exactly when it is the last of
those that stay to begin. -/
theorem covers_chainRow {cut : Db} {r : FactRow} (hr : r ∈ chain cut k) :
    (chainRow cut k r).covers t = true ↔
      ((chain cut k).filter fun s => s.validFrom ≤ t).getLast?.map FactRow.id = some r.id := by
  have hsorted : (chain (cut.rechain k) k).Pairwise fun a b => a.validFrom ≤ b.validFrom :=
    (timeline_pairwise _ k).sublist List.filter_sublist
  have hone := tiles_filter_covers hsorted (chainedAt_rechain cut k) t
  rw [chain_rechain, List.filter_map, List.filter_map, List.getLast?_map] at hone
  have hmem : ∀ s ∈ chain cut k, s ∈ cut.facts.rows := fun s hs => (mem_chain.mp hs).1.1
  constructor
  · intro hcovers
    have hheld : chainRow cut k r ∈ ((chain cut k).filter
        (covers FactRow.validFrom FactRow.validTo t ∘ chainRow cut k)).map (chainRow cut k) :=
      List.mem_map_of_mem (List.mem_filter.mpr ⟨hr, hcovers⟩)
    rw [hone, Option.mem_toList] at hheld
    obtain ⟨s, hs, hsame⟩ := Option.map_eq_some_iff.mp hheld
    have hid : (chainRow cut k s).id = (chainRow cut k r).id := congrArg FactRow.id hsame
    exact Option.map_eq_some_iff.mpr ⟨s, hs, hid⟩
  · intro hlast
    obtain ⟨s, hs, hid⟩ := Option.map_eq_some_iff.mp hlast
    have hsmem : s ∈ chain cut k := (List.mem_filter.mp (List.mem_of_getLast? hs)).1
    obtain rfl := cut.fact_eq_of_id (hmem s hsmem) (hmem r hr) hid
    have hlast' : ((chain cut k).filter
        ((fun a => decide (a.validFrom ≤ t)) ∘ chainRow cut k)).getLast? = some s := hs
    rw [hlast'] at hone
    have hheld : chainRow cut k s ∈ ((chain cut k).filter
        (covers FactRow.validFrom FactRow.validTo t ∘ chainRow cut k)).map (chainRow cut k) := by
      rw [hone]
      exact List.mem_singleton_self _
    obtain ⟨s', hs', hsame⟩ := List.mem_map.mp hheld
    have hcovers := (List.mem_filter.mp hs').2
    rw [Function.comp_apply, hsame] at hcovers
    exact hcovers

/-- What is left when rows are taken out and the others are chained again
answers with what stood there before, but for its end. -/
theorem asOfRow_without (db : Db) (k : TimelineKey) (gone : FactRow → Bool) :
    ∃ f : FactRow → FactRow, (∀ r, ∃ stop, f r = r.endAt stop) ∧
      ∀ t, asOfRow (db.without k gone) k t = (restRow db k gone t).map f := by
  refine ⟨chainRow (db.deleteFacts fun r => r.live && r.timelineKey = k && gone r) k,
    fun r => ⟨_, rfl⟩, fun t => ?_⟩
  have hlast := timeline_delete_gone db k gone
  have hstart : ∀ (cut : Db) r, (chainRow cut k r).validFrom = r.validFrom := fun _ _ => rfl
  rw [asOfRow_eq, Db.without, liveRows_rechain, liveRows_delete_gone, List.filter_map,
    latestBy_map (hstart _), List.filter_filter, restRow]
  generalize hcut : db.deleteFacts (fun r => r.live && r.timelineKey = k && gone r) = cut at hlast ⊢
  congr 2
  refine List.filter_congr fun r hr => ?_
  rw [FactRow.stands]
  cases hgone : gone r with
  | true => simp
  | false =>
      have hstays : r ∈ timeline cut k := by
        rw [hlast, List.mem_filter]
        exact ⟨(timeline_perm db k).mem_iff.mpr hr, by simp [hgone]⟩
      cases hmulti : r.isMulti with
      | true =>
          have hout : r ∉ chain cut k := fun h => by
            rw [(mem_chain.mp h).2] at hmulti
            cases hmulti
          have hsame : chainRow cut k r = r := by
            rw [chainRow, chainStop_of_not_mem (mem_timeline.mp hstays).1 hout, FactRow.endAt_self]
          simp [hsame]
      | false =>
          have hchain : r ∈ chain cut k := List.mem_filter.mpr ⟨hstays, by simp [hmulti]⟩
          have hset : ((chain cut k).filter fun s => s.validFrom ≤ t).getLast? =
              lastSet db k gone t := by
            rw [chain, hlast, List.filter_filter, List.filter_filter, lastSet]
            congr 2
            funext s
            cases gone s <;> cases s.isMulti <;> simp
          have hiff := @covers_chainRow k t cut r hchain
          rw [hset] at hiff
          simp only [Function.comp_apply, Bool.not_false, Bool.true_and, Bool.and_true,
            Bool.false_eq_true, if_false]
          exact Bool.eq_iff_iff.mpr (hiff.trans decide_eq_true_iff.symm)

/-! ### A row at the end of the table -/

theorem asOfRow_addRow {row : FactRow} (h : liveRows db' k = liveRows db k ++ [row]) :
    asOfRow db' k t =
      if row.covers t then
        match asOfRow db k t with
        | none => some row
        | some r => if r.validFrom ≤ row.validFrom then some row else some r
      else asOfRow db k t := by
  rw [asOfRow_eq, h, List.filter_append, asOfRow_eq]
  cases hcovers : row.covers t with
  | true =>
      rw [List.filter_cons_of_pos hcovers, List.filter_nil, latestBy_concat, if_pos rfl]
      cases latestBy FactRow.validFrom ((liveRows db k).filter (FactRow.covers t)) with
      | none => rfl
      | some r => by_cases hle : r.validFrom ≤ row.validFrom <;> simp [hle]
  | false =>
      rw [List.filter_cons_of_neg (by simp [hcovers]), List.filter_nil, List.append_nil]
      rfl

/-- `fact_add` of a value that no row holds puts a row at the end. -/
theorem liveRows_factAdd {py : Python} {now : Int} {uuid encoded : String} {req : FactRequest}
    {fact : Fact} (hencode : encodeValue py req.value = .ok encoded)
    (hnew : ∀ r ∈ liveRows db (req.key py), r.value ≠ encoded)
    (h : (factAdd py now uuid req).exec db = .ok (fact, db')) :
    liveRows db' (req.key py) =
      liveRows db (req.key py) ++ [req.row py now uuid encoded (addMetadata req.metadata)] := by
  rw [exec_factAdd] at h
  split at h
  · cases h
  · rename_i encoded' hcheck
    obtain rfl : encoded' = encoded := by
      unfold FactRequest.check at hcheck
      split at hcheck
      · cases hcheck
      · exact Except.ok.inj (hcheck.symm.trans hencode)
    split at h
    · rename_i other hother
      have hmem := (List.mem_filter.mp (List.mem_of_find?_eq_some hother)).1
      exact absurd (by simpa using List.find?_some hother) (hnew other hmem)
    · split at h
      · cases h
      · split at h
        · rename_i inserted hinsert
          rw [factById_ok h, liveRows, (insertFact_eq_ok_iff.mp hinsert).2.1, List.filter_append,
            List.filter_cons_of_pos (by simp), List.filter_nil]
          rfl
        · cases h

/-- `fact_remove` of a value that only the last row holds ends that row. -/
theorem liveRows_remove_last {rows : List FactRow} {row : FactRow} {stamp : Int}
    {encoded : String} (h : liveRows db k = rows ++ [row])
    (hother : ∀ r ∈ rows, r.value ≠ encoded) (hvalue : row.value = encoded)
    (hmulti : row.isMulti = true) (hopen : row.validTo = none) :
    liveRows (db.removeAdded k stamp encoded) k = rows ++ [row.endAt (some stamp)] := by
  have hrow : row ∈ liveRows db k := by
    rw [h]
    exact List.mem_concat_self
  obtain ⟨-, hlive, hkey⟩ := mem_liveRows.mp hrow
  rw [liveRows_removeAdded, h, List.map_append, List.map_singleton]
  congr 1
  · refine (List.map_congr_left fun r hr => ?_).trans (List.map_id rows)
    rw [if_neg, id]
    intro hremoved
    simp only [removedBy, Bool.and_eq_true, decide_eq_true_eq] at hremoved
    exact hother r hr hremoved.2
  · rw [if_pos]
    simp [removedBy, hlive, hkey, hopen, hmulti, hvalue]

/-! ### Added rows that end -/

section Removed

variable {stamp : Int} {encoded : String}

/-- Before they end nothing changes but their ends. -/
theorem asOfRow_removeAdded_before (ht : t < stamp) :
    asOfRow (db.removeAdded k stamp encoded) k t =
      (asOfRow db k t).map fun r =>
        if removedBy k stamp encoded r then r.endAt (some stamp) else r := by
  have hcovers : (FactRow.covers t ∘ fun r =>
      if removedBy k stamp encoded r then r.endAt (some stamp) else r) = FactRow.covers t := by
    funext r
    rw [Function.comp_apply]
    split
    · rename_i hremoved
      -- the row is open at `stamp`, so it holds at `t` before and after
      have hopen : ∀ stop, r.validTo = some stop → stamp < stop := by
        intro stop hstop
        simp only [removedBy, Bool.and_eq_true, hstop, Option.all_some,
          decide_eq_true_eq] at hremoved
        exact hremoved.1.1.2
      refine Bool.eq_iff_iff.mpr (covers_iff.trans (Iff.trans ?_ covers_iff.symm))
      constructor
      · rintro ⟨hstart, -⟩
        exact ⟨hstart, fun stop hstop => ht.trans (hopen stop hstop)⟩
      · rintro ⟨hstart, -⟩
        exact ⟨hstart, fun stop hstop => Option.some.inj hstop ▸ ht⟩
    · rfl
  have hstart : ∀ r : FactRow,
      (if removedBy k stamp encoded r then r.endAt (some stamp) else r).validFrom =
        r.validFrom := by
    intro r
    split <;> rfl
  rw [asOfRow_eq, liveRows_removeAdded, List.filter_map, hcovers, latestBy_map hstart, asOfRow_eq]

/-- From then on the timeline is as if they were not there. -/
theorem asOfRow_removeAdded_after (h : ChainedAt db k) (ht : stamp ≤ t) :
    asOfRow (db.removeAdded k stamp encoded) k t =
      asOfRow (db.without k (removedBy k stamp encoded)) k t := by
  have hadded : ∀ r ∈ liveRows db k, removedBy k stamp encoded r = true → r.isMulti = true := by
    intro r _ hremoved
    simp only [removedBy, Bool.and_eq_true] at hremoved
    exact hremoved.1.2
  rw [asOfRow_eq, asOfRow_eq, liveRows_removeAdded, liveRows_without_added h hadded,
    List.filter_filter]
  congr 1
  induction liveRows db k with
  | nil => rfl
  | cons r rows ih =>
      rw [List.map_cons, List.filter_cons, List.filter_cons, ih]
      cases hremoved : removedBy k stamp encoded r with
      | true =>
          have hover : (r.endAt (some stamp)).covers t = false := by
            rw [Bool.eq_false_iff]
            intro hcovers
            have := (covers_iff.mp hcovers).2 stamp rfl
            omega
          simp [hover]
      | false => simp

end Removed

end MarkSdk
