import MarkSdk.Facts.Runs

/-!
The timelines that runs of single-valued facts leave.

When nothing was added, the chained rows are all the live rows. They tile the
time axis: at every time from the first start on exactly one of them holds,
and `fact_as_of` returns it.
-/

namespace MarkSdk

open Lib

variable {py : Python} {db db' : Db}

/-- The calls that record no added value. -/
def FactOp.singleValued : FactOp → Bool
  | .add .. => false
  | _ => true

/-- No row is multi-valued. -/
structure AllSet (db : Db) : Prop where
  single : ∀ r ∈ db.facts.rows, r.isMulti = false

theorem AllSet.updateFacts (h : AllSet db) {p : FactRow → Bool} {f : FactRow → FactRow} {hf}
    (hmulti : ∀ r, (f r).isMulti = r.isMulti) : AllSet (db.updateFacts p f hf) := by
  refine ⟨fun r hr => ?_⟩
  obtain ⟨s, hs, rfl⟩ := List.mem_map.mp hr
  split
  · rw [hmulti, h.single s hs]
  · exact h.single s hs

theorem allSet_rowInvariant : RowInvariant AllSet where
  tables hfacts h := ⟨by
    rw [hfacts]
    exact h.single⟩
  insertSet hrow _ hset h := by
    refine ⟨fun r hr => ?_⟩
    rw [(insertFact_eq_ok_iff.mp hrow).2.1, List.mem_append, List.mem_singleton] at hr
    rcases hr with hr | rfl
    · exact h.single r hr
    · exact hset
  endAdded k t h := h.updateFacts (FactRow.endAt_isMulti (some t))
  rechain k h := by
    refine ⟨fun r hr => ?_⟩
    obtain ⟨s, hs, rfl⟩ := List.mem_map.mp hr
    exact h.single s hs
  retract p now h := h.updateFacts (FactRow.retract_isMulti now)
  delete p h := ⟨fun r hr => h.single r (List.mem_filter.mp hr).1⟩

theorem allSet_apply (op : FactOp) (hop : op.singleValued) (h : AllSet db) :
    AllSet (op.apply py db) := by
  cases op with
  | add now uuid req => cases hop
  | remove agentId subject attributeName value validTo =>
      rw [FactOp.apply]
      refine Txn.apply_induction h fun _ db' hexec => ?_
      rw [exec_factRemove] at hexec
      simp only at hexec
      split at hexec
      · simp at hexec
      · simp only [Except.ok.injEq, Prod.mk.injEq] at hexec
        exact hexec.2 ▸ h.updateFacts (FactRow.endAt_isMulti _)
  | _ => exact allSet_rowInvariant.apply _ rfl h

theorem allSet_run (ops : List FactOp) (hops : ∀ op ∈ ops, op.singleValued) (h : AllSet db) :
    AllSet (runOps py ops db) := by
  induction ops generalizing db with
  | nil => exact h
  | cons op ops ih =>
      have hop : op.singleValued := hops op List.mem_cons_self
      exact ih (fun o ho => hops o (List.mem_cons_of_mem op ho)) (allSet_apply op hop h)

/-! ### Reading a tiled timeline -/

theorem timeline_pairwise (db : Db) (k : TimelineKey) :
    (timeline db k).Pairwise fun r s => r.validFrom ≤ s.validFrom := by
  refine (List.pairwise_insertionSort FactRow.before (liveRows db k)).imp fun {r s} h => ?_
  unfold FactRow.before at h
  omega

theorem chain_eq_timeline (h : AllSet db) (k : TimelineKey) : chain db k = timeline db k := by
  unfold chain
  rw [List.filter_eq_self]
  intro r hr
  simp [h.single r (mem_timeline.mp hr).1]

/-- `fact_as_of` finds the row that holds, when one row holds. -/
theorem asOfRow_of_covers {k : TimelineKey} {t : Int} {r : FactRow}
    (h : (timeline db k).filter (FactRow.covers t) = [r]) : asOfRow db k t = some r := by
  have hperm : (rowsOpenAt db k t).Perm [r] := by
    rw [← h]
    exact ((timeline_perm db k).symm.filter _)
  unfold asOfRow
  rw [List.perm_singleton.mp hperm]
  rfl

/-- In every run of `fact_set`, `fact_retract`, `fact_delete` and cascading
forgets, from an empty store and in whatever order the times come, every
timeline tiles the time axis. From the first start on exactly one live row
holds at each time, the last one that has begun, and `fact_as_of` returns it. -/
theorem timelines_tile (py : Python) (ops : List FactOp) (hops : ∀ op ∈ ops, op.singleValued)
    (k : TimelineKey) :
    let db := runOps py ops .empty
    let rows := timeline db k
    (∀ i (h : i < rows.length), rows[i].validTo = rows[i + 1]?.map FactRow.validFrom) ∧
      ∀ first ∈ rows.head?, ∀ t, first.validFrom ≤ t →
        ∃ r, (rows.filter fun r => r.validFrom ≤ t).getLast? = some r ∧
          rows.filter (FactRow.covers t) = [r] ∧
          asOfRow db k t = some r ∧
          ∀ subject attributeName when_,
            k = ⟨k.agentId, factKey py subject, factKey py attributeName⟩ → utcText when_ = t →
              factAsOf py db k.agentId subject attributeName when_ = some (rowToFact py r) := by
  intro db rows
  have hset : AllSet db := allSet_run ops hops ⟨fun r hr => by simp [Db.empty] at hr⟩
  have htiles : Tiles FactRow.validFrom FactRow.validTo rows := by
    have hchain : Tiles FactRow.validFrom FactRow.validTo (chain db k) :=
      (chained_run ops chained_empty).chainedAt k
    rwa [chain_eq_timeline hset] at hchain
  refine ⟨tiles_iff_getElem.mp htiles, fun first hfirst t ht => ?_⟩
  have hcovers := tiles_filter_covers (timeline_pairwise db k) htiles t
  have hbegun : first ∈ rows.filter fun r => r.validFrom ≤ t :=
    List.mem_filter.mpr ⟨List.mem_of_mem_head? hfirst, by simpa using ht⟩
  obtain ⟨r, hr⟩ : ∃ r, (rows.filter fun r => r.validFrom ≤ t).getLast? = some r :=
    Option.isSome_iff_exists.mp (by
      rw [List.getLast?_isSome]
      exact List.ne_nil_of_mem hbegun)
  have hone : rows.filter (FactRow.covers t) = [r] := by
    refine hcovers.trans ?_
    rw [hr]
    rfl
  have hasOf := asOfRow_of_covers hone
  refine ⟨r, hr, hone, hasOf, ?_⟩
  rintro subject attributeName when_ hk rfl
  unfold factAsOf
  rw [← hk, hasOf]
  rfl

/-- A request for the port of the service `api`. -/
def portRequest (value : String) (validFrom : Int) : FactRequest where
  agentId := "agent"
  subject := "api"
  attributeName := "port"
  value := .str value
  validFrom := .ofInstant validFrom
  sourceFragmentId := none
  metadata := []

def portKey : TimelineKey := ⟨"agent", "api", "port"⟩

/-- A value for time 3 that arrives after the value for time 5. -/
def lateArrival : List FactOp :=
  [.set 10 "a" (portRequest "80" 5) false, .set 11 "b" (portRequest "8080" 3) false]

theorem timelines_tile_lateArrival :
    let db := runOps .basic lateArrival .empty
    let rows := timeline db portKey
    rows.map (fun r => (r.value, r.validFrom, r.validTo)) =
        [("8080", 3, some 5), ("80", 5, none)] ∧
      ∀ first ∈ rows.head?, ∀ t, first.validFrom ≤ t →
        ∃ r, rows.filter (FactRow.covers t) = [r] ∧ asOfRow db portKey t = some r := by
  refine ⟨by decide, fun first hfirst t ht => ?_⟩
  obtain ⟨r, -, hone, hasOf, -⟩ :=
    (timelines_tile .basic lateArrival (by decide) portKey).2 first hfirst t ht
  exact ⟨r, hone, hasOf⟩

end MarkSdk
