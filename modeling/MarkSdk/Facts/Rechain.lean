import Mathlib.Data.List.Dedup
import MarkSdk.Facts.Effect

/-!
Chained timelines: the invariant that every fact write restores.

A timeline is chained when its single-valued rows tile: each ends where the
next begins. `ChainedAt` is a property of the live rows of one timeline, so
a write can break it only where it changes live rows, and every write chains
those timelines again. The lemmas on live rows say what each statement
leaves alone.
-/

namespace MarkSdk

open Lib

/-- The single-valued rows of a timeline tile. -/
def ChainedAt (db : Db) (k : TimelineKey) : Prop :=
  Tiles FactRow.validFrom FactRow.validTo (chain db k)

/-- Every timeline is chained. -/
structure Chained (db : Db) : Prop where
  chainedAt : ∀ k, ChainedAt db k

/-- The live single-valued rows of a timeline in rowid order. -/
def setRows (db : Db) (k : TimelineKey) : List FactRow :=
  (liveRows db k).filter fun r => !r.isMulti

/-- The chain is the single-valued rows, sorted. -/
theorem chain_eq_sort (db : Db) (k : TimelineKey) :
    chain db k = (setRows db k).insertionSort FactRow.before :=
  filter_insertionSort FactRow.before _ _

theorem chainedAt_of_setRows {db db' : Db} {k : TimelineKey} (h : setRows db' k = setRows db k) :
    ChainedAt db' k ↔ ChainedAt db k := by
  unfold ChainedAt
  rw [chain_eq_sort, chain_eq_sort, h]

theorem chainedAt_congr {db db' : Db} {k : TimelineKey} (h : liveRows db' k = liveRows db k) :
    ChainedAt db' k ↔ ChainedAt db k :=
  chainedAt_of_setRows (congrArg _ h)

theorem chained_empty : Chained .empty := ⟨fun _ => trivial⟩

/-! ### What leaves the live rows of a timeline alone -/

/-- A change of rows that a selection does not see. -/
theorem filter_map_eq_filter {α : Type} {q : α → Bool} {g : α → α} {l : List α}
    (h : ∀ a ∈ l, g a = a ∨ (q a = false ∧ q (g a) = false)) :
    (l.map g).filter q = l.filter q := by
  induction l with
  | nil => rfl
  | cons a l ih =>
      have ih' := ih fun b hb => h b (List.mem_cons_of_mem a hb)
      rw [List.map_cons]
      rcases h a List.mem_cons_self with heq | ⟨hq, hqg⟩
      · rw [heq, List.filter_cons, List.filter_cons, ih']
      · rw [List.filter_cons_of_neg (by simp [hqg]), List.filter_cons_of_neg (by simp [hq]), ih']

theorem liveRows_updateFacts {db : Db} {p : FactRow → Bool} {f : FactRow → FactRow} {hf}
    {k : TimelineKey} (hkey : ∀ r, (f r).timelineKey = r.timelineKey)
    (hp : ∀ r ∈ db.facts.rows, p r → r.live = true → r.timelineKey ≠ k)
    (hdead : ∀ r, r.live = false → (f r).live = false) :
    liveRows (db.updateFacts p f hf) k = liveRows db k := by
  unfold liveRows
  rw [rows_updateFacts]
  refine filter_map_eq_filter fun r hr => ?_
  by_cases hpr : p r
  · right
    rw [if_pos hpr]
    cases hlive : r.live with
    | false => simp [hdead r hlive]
    | true => simp [hkey, hp r hr hpr hlive]
  · exact .inl (if_neg hpr)

theorem liveRows_deleteFacts {db : Db} {p : FactRow → Bool} {k : TimelineKey}
    (hp : ∀ r ∈ db.facts.rows, p r → r.live = true → r.timelineKey ≠ k) :
    liveRows (db.deleteFacts p) k = liveRows db k := by
  unfold liveRows
  rw [rows_deleteFacts, List.filter_filter]
  refine List.filter_congr fun r hr => ?_
  cases hpr : p r with
  | false => simp
  | true =>
      cases hlive : r.live with
      | false => simp
      | true => simp [hp r hr hpr hlive]

theorem liveRows_insertFact {db db' : Db} {row : FactRow} {k : TimelineKey}
    (h : Db.insertFact row db = .ok db') (hk : row.timelineKey ≠ k) :
    liveRows db' k = liveRows db k := by
  unfold liveRows
  rw [(insertFact_eq_ok_iff.mp h).2.1, List.filter_append]
  simp [hk]

theorem chainRow_of_ne {db : Db} {k : TimelineKey} {r : FactRow} (hr : r ∈ db.facts.rows)
    (hk : r.timelineKey ≠ k) : chainRow db k r = r := by
  have hmem : r ∉ chain db k := fun h => hk (mem_chain.mp h).1.2.2
  rw [chainRow, chainStop_of_not_mem hr hmem, FactRow.endAt_self]

theorem liveRows_rechain_ne {db : Db} {k k' : TimelineKey} (hk : k' ≠ k) :
    liveRows (db.rechain k) k' = liveRows db k' := by
  unfold liveRows
  rw [rows_rechain]
  refine filter_map_eq_filter fun r hr => ?_
  by_cases hrk : r.timelineKey = k
  · right
    have hne : r.timelineKey ≠ k' := fun e => hk (e.symm.trans hrk)
    simp [chainRow, hne]
  · exact .inl (chainRow_of_ne hr hrk)

/-! ### Chaining -/

theorem liveRows_rechain (db : Db) (k k' : TimelineKey) :
    liveRows (db.rechain k) k' = (liveRows db k').map (chainRow db k) := by
  unfold liveRows
  rw [rows_rechain, List.filter_map]
  rfl

theorem timeline_rechain (db : Db) (k k' : TimelineKey) :
    timeline (db.rechain k) k' = (timeline db k').map (chainRow db k) := by
  unfold timeline
  rw [liveRows_rechain]
  have hbefore : ∀ r s, r.before s ↔ (chainRow db k r).before (chainRow db k s) :=
    fun _ _ => Iff.rfl
  exact (List.map_insertionSort _ _ (chainRow db k) _ fun r _ s _ => hbefore r s).symm

theorem chain_rechain (db : Db) (k k' : TimelineKey) :
    chain (db.rechain k) k' = (chain db k').map (chainRow db k) := by
  unfold chain
  rw [timeline_rechain, List.filter_map]
  rfl

/-- After chaining, the rows of the chain have the starts of their successors
as ends. -/
theorem chain_rechain_self (db : Db) (k : TimelineKey) :
    chain (db.rechain k) k =
      (nextStarts FactRow.validFrom (chain db k)).map fun u => u.1.endAt u.2 := by
  have hrows : chain db k = (nextStarts FactRow.validFrom (chain db k)).map Prod.fst :=
    (map_fst_nextStarts FactRow.validFrom (chain db k)).symm
  calc
    chain (db.rechain k) k = (chain db k).map (chainRow db k) := chain_rechain db k k
    _ = ((nextStarts FactRow.validFrom (chain db k)).map Prod.fst).map (chainRow db k) := by
      rw [← hrows]
    _ = (nextStarts FactRow.validFrom (chain db k)).map fun u => u.1.endAt u.2 := by
      rw [List.map_map]
      refine List.map_congr_left fun u hu => ?_
      simp only [Function.comp_apply, chainRow, chainStop_of_mem hu]

theorem chainedAt_rechain (db : Db) (k : TimelineKey) : ChainedAt (db.rechain k) k := by
  unfold ChainedAt
  rw [chain_rechain_self]
  exact tiles_nextStarts FactRow.endAt (fun _ _ => rfl) (fun _ _ => rfl) _

theorem liveRows_rechainAll {ks : List TimelineKey} {db : Db} {k : TimelineKey} (hk : k ∉ ks) :
    liveRows (db.rechainAll ks) k = liveRows db k := by
  induction ks generalizing db with
  | nil => rfl
  | cons k' ks ih =>
      simp only [List.mem_cons, not_or] at hk
      exact (ih hk.2).trans (liveRows_rechain_ne hk.1)

theorem chainedAt_rechainAll {ks : List TimelineKey} {db : Db} {k : TimelineKey} (hk : k ∈ ks) :
    ChainedAt (db.rechainAll ks) k := by
  induction ks generalizing db with
  | nil => simp at hk
  | cons k' ks ih =>
      by_cases hks : k ∈ ks
      · exact ih hks
      · obtain rfl : k = k' := by simpa [hks] using hk
        exact (chainedAt_congr (liveRows_rechainAll hks)).mpr (chainedAt_rechain db k)

/-- A write that chains every timeline it touched restores the invariant. -/
theorem chained_rechainAll {db db' : Db} (ks : List TimelineKey) (h : Chained db)
    (hsame : ∀ k ∉ ks, liveRows db' k = liveRows db k) : Chained (db'.rechainAll ks) := by
  refine ⟨fun k => ?_⟩
  by_cases hk : k ∈ ks
  · exact chainedAt_rechainAll hk
  · have hlive : liveRows (db'.rechainAll ks) k = liveRows db k :=
      (liveRows_rechainAll hk).trans (hsame k hk)
    exact (chainedAt_congr hlive).mpr (h.chainedAt k)

/-- The same for a write that touches one timeline. -/
theorem chained_rechain {db db' : Db} {k : TimelineKey} (h : Chained db)
    (hsame : ∀ k' ≠ k, liveRows db' k' = liveRows db k') : Chained (db'.rechain k) :=
  chained_rechainAll [k] h fun k' hk' => hsame k' (by simpa using hk')

/-! ### The writes keep timelines chained -/

variable {py : Python} {db db' : Db}

theorem factSet_chained {now : Int} {uuid : String} {req : FactRequest} {correction : Bool}
    {fact : Fact} (hdb : Chained db)
    (h : (factSet py now uuid req correction).exec db = .ok (fact, db')) : Chained db' := by
  have hinsert : ∀ {encoded : String} {start : Db},
      (∀ k ≠ req.key py, liveRows start k = liveRows db k) →
      (insertSet py now uuid encoded req).exec start = .ok (fact, db') → Chained db' := by
    intro encoded start hstart hexec
    rw [exec_insertSet] at hexec
    split at hexec
    · simp at hexec
    · split at hexec
      · rename_i inserted hrow
        rw [factById_ok hexec]
        refine chained_rechain hdb fun k hk => ?_
        have hended : liveRows (inserted.endAdded (req.key py) req.start) k =
            liveRows inserted k := by
          refine liveRows_updateFacts (fun _ => rfl) (fun r _ hp _ => ?_) fun _ h => h
          have hkey : r.timelineKey = req.key py := by simp_all [addedBy]
          rw [hkey]
          exact hk.symm
        rw [hended, liveRows_insertFact hrow hk.symm, hstart k hk]
      · simp at hexec
  rw [exec_factSet] at h
  split at h
  · simp at h
  · split at h
    · refine hinsert (fun k hk => ?_) h
      refine liveRows_updateFacts (fun _ => rfl) (fun r _ hp _ => ?_) fun _ _ => rfl
      have hkey : r.timelineKey = req.key py := by simp_all [recordedAtTime]
      rw [hkey]
      exact hk.symm
    · split at h
      · rw [factById_ok h]
        exact hdb
      · exact hinsert (fun _ _ => rfl) h

theorem factAdd_chained {now : Int} {uuid : String} {req : FactRequest} {fact : Fact}
    (hdb : Chained db) (h : (factAdd py now uuid req).exec db = .ok (fact, db')) :
    Chained db' := by
  rw [exec_factAdd] at h
  split at h
  · simp at h
  · split at h
    · rw [factById_ok h]
      exact hdb
    · split at h
      · simp at h
      · split at h
        · rename_i inserted hrow
          rw [factById_ok h]
          refine ⟨fun k => ?_⟩
          by_cases hk : (req.key py) = k
          · -- an added row stays outside the chain
            refine (chainedAt_of_setRows ?_).mpr (hdb.chainedAt k)
            unfold setRows liveRows
            rw [(insertFact_eq_ok_iff.mp hrow).2.1, List.filter_append, List.filter_append]
            simp [List.filter_cons]
          · exact (chainedAt_congr (liveRows_insertFact hrow hk)).mpr (hdb.chainedAt k)
        · simp at h

theorem factRemove_chained {agentId subject attributeName : String} {value : PyValue}
    {validTo : Datetime} {n : Nat} (hdb : Chained db)
    (h : (factRemove py agentId subject attributeName value validTo).exec db = .ok (n, db')) :
    Chained db' := by
  rw [exec_factRemove] at h
  simp only at h
  split at h
  · simp at h
  · simp only [Except.ok.injEq, Prod.mk.injEq] at h
    obtain ⟨-, rfl⟩ := h
    refine ⟨fun k => ?_⟩
    refine (chainedAt_of_setRows ?_).mpr (hdb.chainedAt k)
    unfold setRows liveRows Db.removeAdded
    rw [rows_updateFacts, List.filter_filter, List.filter_filter]
    refine filter_map_eq_filter fun r _ => ?_
    split
    · rename_i hp
      have hmulti : r.isMulti = true := by simp_all [removedBy]
      exact .inr (by simp [hmulti])
    · exact .inl rfl

theorem factRetract_chained {now : Int} {agentId subject : String}
    {attributeName : Option String} {value : PyValue} {n : Nat} (hdb : Chained db)
    (h : (factRetract py now agentId subject attributeName value).exec db = .ok (n, db')) :
    Chained db' := by
  obtain ⟨rows, hrows, rfl, -⟩ := factRetract_ok py now h
  refine chained_rechainAll _ hdb fun k hk => ?_
  have hsel := Txn.filterE_sublist hrows
  refine liveRows_updateFacts (fun _ => rfl) (fun r hr hp _ => ?_) fun _ _ => rfl
  have hsub : ∀ s ∈ rows, s ∈ db.facts.rows := fun s hs =>
    (List.mem_filter.mp (hsel.subset hs)).1
  have hmem : r ∈ rows := (mem_ids_iff db hsub hr).mp (by simpa using hp)
  have habout : r.about py agentId subject attributeName := by
    have := (List.mem_filter.mp (hsel.subset hmem)).2
    simp_all
  rintro rfl
  refine hk (List.mem_map.mpr ⟨r.attributeKey, ?_, ?_⟩)
  · exact List.mem_dedup.mpr (List.mem_map_of_mem hmem)
  · simp_all [FactRow.about, FactRow.timelineKey]

theorem factDelete_chained {agentId subject : String} {attributeName : Option String}
    {value : PyValue} {n : Nat} (hdb : Chained db)
    (h : (factDelete py agentId subject attributeName value).exec db = .ok (n, db')) :
    Chained db' := by
  rw [exec_factDelete] at h
  simp only [Except.ok.injEq, Prod.mk.injEq] at h
  obtain ⟨-, rfl⟩ := h
  refine chained_rechainAll _ hdb fun k hk => ?_
  refine liveRows_deleteFacts fun r hr hp _ => ?_
  rintro rfl
  refine hk (List.mem_map.mpr ⟨r.attributeKey, ?_, ?_⟩)
  · refine List.mem_dedup.mpr (List.mem_map_of_mem (List.mem_filter.mpr ⟨hr, hp⟩))
  · simp_all [deletedBy, FactRow.about, FactRow.timelineKey]

theorem forgetFragment_chained {now : Int} {fragmentId : String} {secure found : Bool}
    (hdb : Chained db)
    (h : (forgetFragment now fragmentId secure).exec db = .ok (found, db')) : Chained db' := by
  rw [exec_forgetFragment] at h
  split at h
  · simp only [Except.ok.injEq, Prod.mk.injEq] at h
    exact h.2 ▸ hdb
  · rename_i row hrow
    simp only [Except.ok.injEq, Prod.mk.injEq] at h
    obtain ⟨-, rfl⟩ := h
    -- the other tables do not matter for the timelines
    have hcut : Chained (((db.dropFragment fragmentId).cutFacts row.agentId fragmentId secure
        now).rechainAll (cascadeKeys db row.agentId fragmentId)) := by
      refine chained_rechainAll _ hdb fun k hk => ?_
      have hkeys : ∀ r ∈ db.facts.rows, r.sourcedFrom row.agentId fragmentId = true →
          r.timelineKey ≠ k := by
        rintro r hr hp rfl
        refine hk (List.mem_map.mpr ⟨(r.subjectKey, r.attributeKey), ?_, ?_⟩)
        · refine List.mem_dedup.mpr (List.mem_map_of_mem (List.mem_filter.mpr ⟨hr, hp⟩))
        · simp_all [FactRow.sourcedFrom, FactRow.timelineKey]
      cases secure with
      | true => exact liveRows_deleteFacts fun r hr hp _ => hkeys r hr hp
      | false =>
          refine liveRows_updateFacts (fun _ => rfl) (fun r hr hp _ => ?_) fun _ _ => rfl
          exact hkeys r hr (by simp_all)
    exact ⟨hcut.chainedAt⟩

end MarkSdk
