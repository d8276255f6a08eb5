import MarkSdk.Facts.Runs
import MarkSdk.Lib.Runs

/-!
What `fact_remove` leaves of the value it removes.

The call ends the rows that are open at its time, and also the ones that
begin later: those get an end before their start, and `fact_scheduled`, which
looks at the start only, still lists them. The intervals stay well formed and
the value stays removed exactly as long as no call meets such a row
(`removals_hold`).
-/

namespace MarkSdk

open Lib

variable {py : Python} {db db' : Db}

/-- No live row ends before it begins. -/
structure WellFormed (db : Db) : Prop where
  ordered : ∀ r ∈ db.facts.rows, r.live → ∀ stop, r.validTo = some stop → r.validFrom ≤ stop

def addedValues (db : Db) (k : TimelineKey) (encoded : String) : List FactRow :=
  (liveRows db k).filter fun r => r.isMulti && r.value = encoded

theorem mem_addedValues {k : TimelineKey} {encoded : String} {r : FactRow} :
    r ∈ addedValues db k encoded ↔
      r ∈ db.facts.rows ∧ r.live ∧ r.timelineKey = k ∧ r.isMulti ∧ r.value = encoded := by
  unfold addedValues
  rw [List.mem_filter, mem_liveRows]
  simp only [Bool.and_eq_true, decide_eq_true_eq]
  tauto

/-- The value holds at no time from the removal on, and what would begin after
it is not scheduled any more. -/
structure Removed (py : Python) (now : Int) (db : Db) (k : TimelineKey) (stamp : Int)
    (encoded : String) : Prop where
  ended : ∀ r ∈ addedValues db k encoded, ∀ t, stamp ≤ t → r.covers t = false
  unscheduled : ∀ r ∈ addedValues db k encoded, stamp ≤ r.validFrom →
    ∀ subject attributeName, r ∉ scheduledRows py now db k.agentId subject attributeName

/-- The timeline, the time and the encoded value of a `fact_remove`. -/
def FactOp.removes? (py : Python) : FactOp → Option (TimelineKey × Int × String)
  | .remove agentId subject attributeName value validTo =>
      match encodeValue py value with
      | .ok encoded =>
          some (⟨agentId, factKey py subject, factKey py attributeName⟩, utcText validTo, encoded)
      | .error _ => none
  | _ => none

/-- A call, and the clock when `fact_scheduled` is asked right after it. -/
structure FactStep where
  op : FactOp
  now : Int

def FactStep.apply (py : Python) (step : FactStep) (db : Db) : Db := step.op.apply py db

/-- After the call all intervals are well formed, and a value that it removes
is removed. -/
structure FactStep.Holds (py : Python) (step : FactStep) (db : Db) : Prop where
  wellFormed : WellFormed (step.apply py db)
  removed : ∀ k stamp encoded, step.op.removes? py = some (k, stamp, encoded) →
    Removed py step.now (step.apply py db) k stamp encoded

/-- Every row of the value that the call removes has begun before the time it
is removed at, or begins at that time and the clock is past it. -/
structure FactStep.Begun (py : Python) (step : FactStep) (db : Db) : Prop where
  begun : ∀ k stamp encoded, step.op.removes? py = some (k, stamp, encoded) →
    ∀ r ∈ addedValues db k encoded,
      r.validFrom < stamp ∨ (r.validFrom = stamp ∧ stamp ≤ step.now)

/-! ### The other statements keep intervals well formed -/

theorem wellFormed_empty : WellFormed .empty := ⟨fun r hr => by simp [Db.empty] at hr⟩

theorem WellFormed.rechain (h : WellFormed db) (k : TimelineKey) : WellFormed (db.rechain k) := by
  refine ⟨fun r hr hlive stop hstop => ?_⟩
  obtain ⟨s, hs, rfl⟩ := List.mem_map.mp hr
  by_cases hmem : s ∈ chain db k
  · -- the row ends where the next row of the chain begins
    have hu : ∃ u ∈ nextStarts FactRow.validFrom (chain db k), u.1 = s := by
      rw [← map_fst_nextStarts FactRow.validFrom (chain db k)] at hmem
      obtain ⟨u, hu, hus⟩ := List.mem_map.mp hmem
      exact ⟨u, hu, hus⟩
    obtain ⟨u, hu, rfl⟩ := hu
    have hend : u.2 = some stop := by
      rw [← chainStop_of_mem hu]
      exact hstop
    have hsorted : (chain db k).Pairwise fun r s => r.validFrom ≤ s.validFrom := by
      refine List.Pairwise.sublist List.filter_sublist ?_
      refine (List.pairwise_insertionSort FactRow.before (liveRows db k)).imp fun {r s} hrs => ?_
      unfold FactRow.before at hrs
      omega
    exact start_le_of_mem_nextStarts hsorted hu hend
  · have hkeep : chainRow db k s = s := by
      unfold chainRow
      rw [chainStop_of_not_mem hs hmem, FactRow.endAt_self]
    rw [hkeep] at hlive hstop ⊢
    exact h.ordered s hs hlive stop hstop

theorem wellFormed_rowInvariant : RowInvariant WellFormed where
  tables hfacts h := ⟨by
    rw [hfacts]
    exact h.ordered⟩
  insertSet hrow hopen _ h := by
    refine ⟨fun r hr hlive stop hstop => ?_⟩
    rw [(insertFact_eq_ok_iff.mp hrow).2.1, List.mem_append, List.mem_singleton] at hr
    rcases hr with hr | rfl
    · exact h.ordered r hr hlive stop hstop
    · rw [hopen] at hstop
      cases hstop
  endAdded k t h := by
    refine ⟨fun r hr hlive stop hstop => ?_⟩
    obtain ⟨s, hs, rfl⟩ := List.mem_map.mp hr
    split at hlive
    · rename_i hadded
      have hcovers : s.covers t := by
        simp only [addedBy, Bool.and_eq_true] at hadded
        exact hadded.1.2
      rw [if_pos hadded] at hstop ⊢
      cases hstop
      exact (covers_iff.mp hcovers).1
    · rename_i hadded
      rw [if_neg hadded] at hstop ⊢
      exact h.ordered s hs hlive stop hstop
  rechain k h := h.rechain k
  retract p now h := by
    refine ⟨fun r hr hlive stop hstop => ?_⟩
    obtain ⟨s, hs, rfl⟩ := List.mem_map.mp hr
    split at hlive
    · simp at hlive
    · rename_i hkept
      rw [if_neg hkept] at hstop ⊢
      exact h.ordered s hs hlive stop hstop
  delete p h := ⟨fun r hr => h.ordered r (List.mem_filter.mp hr).1⟩

theorem factAdd_wellFormed {now : Int} {uuid : String} {req : FactRequest} {fact : Fact}
    (h : WellFormed db) (hexec : (factAdd py now uuid req).exec db = .ok (fact, db')) :
    WellFormed db' := by
  rw [exec_factAdd] at hexec
  split at hexec
  · simp at hexec
  · split at hexec
    · rw [factById_ok hexec]
      exact h
    · split at hexec
      · simp at hexec
      · split at hexec
        · rename_i inserted hrow
          rw [factById_ok hexec]
          refine ⟨fun r hr hlive stop hstop => ?_⟩
          rw [(insertFact_eq_ok_iff.mp hrow).2.1, List.mem_append, List.mem_singleton] at hr
          rcases hr with hr | rfl
          · exact h.ordered r hr hlive stop hstop
          · cases hstop
        · simp at hexec

/-! ### One call -/

/-- A call that removes nothing keeps the intervals well formed. -/
theorem wellFormed_apply {op : FactOp} (hop : op.removes? py = none) (h : WellFormed db) :
    WellFormed (op.apply py db) := by
  cases op with
  | add now uuid req =>
      rw [FactOp.apply]
      exact Txn.apply_induction h fun _ _ hexec => factAdd_wellFormed h hexec
  | remove agentId subject attributeName value validTo =>
      rw [FactOp.apply]
      refine Txn.apply_induction h fun _ db' hexec => ?_
      rw [exec_factRemove] at hexec
      simp only [FactOp.removes?] at hop
      cases hencode : encodeValue py value with
      | error e => simp [hencode] at hexec
      | ok encoded => simp [hencode] at hop
  | _ => exact wellFormed_rowInvariant.apply _ rfl h

theorem apply_of_removes {op : FactOp} {k : TimelineKey} {stamp : Int} {encoded : String}
    (hop : op.removes? py = some (k, stamp, encoded)) :
    op.apply py db = db.removeAdded k stamp encoded := by
  cases op with
  | remove agentId subject attributeName value validTo =>
      simp only [FactOp.removes?] at hop
      cases hencode : encodeValue py value with
      | error e => simp [hencode] at hop
      | ok encoded' =>
          simp only [hencode, Option.some.injEq, Prod.mk.injEq] at hop
          obtain ⟨rfl, rfl, rfl⟩ := hop
          rw [FactOp.apply]
          exact Txn.apply_of_ok (by rw [exec_factRemove, hencode])
  | _ => simp [FactOp.removes?] at hop

/-- A row of the removed value, after the call. -/
def FactRow.removeAt (stamp : Int) (r : FactRow) : FactRow :=
  if r.validTo.all fun stop => stamp < stop then r.endAt (some stamp) else r

@[simp] theorem FactRow.removeAt_validFrom (stamp : Int) (r : FactRow) :
    (r.removeAt stamp).validFrom = r.validFrom := by
  unfold FactRow.removeAt
  split <;> rfl

/-- The row does not reach beyond the time of the removal. -/
theorem FactRow.removeAt_covers {stamp t : Int} (r : FactRow) (h : stamp ≤ t) :
    (r.removeAt stamp).covers t = false := by
  rw [Bool.eq_false_iff]
  intro hcovers
  obtain ⟨-, hstop⟩ := covers_iff.mp hcovers
  unfold FactRow.removeAt at hstop
  split at hstop
  · have := hstop stamp rfl
    omega
  · rename_i hclosed
    cases hend : r.validTo with
    | none => simp [hend] at hclosed
    | some stop =>
        have := hstop stop hend
        simp only [hend, Option.all_some, decide_eq_true_eq] at hclosed
        omega

/-- The live added rows of the value are the ones from before, and those that
were open have got their end. -/
theorem mem_addedValues_removeAdded {k : TimelineKey} {stamp : Int} {encoded : String}
    {r : FactRow} :
    r ∈ addedValues (db.removeAdded k stamp encoded) k encoded ↔
      ∃ s ∈ addedValues db k encoded, r = s.removeAt stamp := by
  have hsel : ∀ s ∈ addedValues db k encoded,
      removedBy k stamp encoded s = s.validTo.all fun stop => stamp < stop := by
    intro s hs
    obtain ⟨-, hlive, hkey, hmulti, hvalue⟩ := mem_addedValues.mp hs
    simp [removedBy, hlive, hkey, hmulti, hvalue]
  constructor
  · intro hr
    obtain ⟨hrow, hrest⟩ := mem_addedValues.mp hr
    obtain ⟨s, hs, rfl⟩ := List.mem_map.mp hrow
    have hadded : s ∈ addedValues db k encoded := by
      refine mem_addedValues.mpr ⟨hs, ?_⟩
      split at hrest <;> exact hrest
    exact ⟨s, hadded, by rw [hsel s hadded, FactRow.removeAt]⟩
  · rintro ⟨s, hs, rfl⟩
    have hmem := mem_addedValues.mp hs
    refine mem_addedValues.mpr
      ⟨List.mem_map.mpr ⟨s, hmem.1, by rw [hsel s hs, FactRow.removeAt]⟩, ?_⟩
    unfold FactRow.removeAt
    split <;> exact hmem.2

theorem wellFormed_removeAdded_iff (h : WellFormed db) {k : TimelineKey} {stamp : Int}
    {encoded : String} :
    WellFormed (db.removeAdded k stamp encoded) ↔
      ∀ r ∈ addedValues db k encoded, r.validFrom ≤ stamp := by
  constructor
  · intro h' r hr
    by_contra hlater
    have hmem := mem_addedValues.mp hr
    -- a row that begins later is still open, so the call ends it
    have hopen : (r.validTo.all fun stop => stamp < stop) = true := by
      cases hstop : r.validTo with
      | none => rfl
      | some stop =>
          have := h.ordered r hmem.1 hmem.2.1 stop hstop
          simp only [Option.all_some, decide_eq_true_eq]
          omega
    have hended : r.endAt (some stamp) ∈ addedValues (db.removeAdded k stamp encoded) k encoded :=
      mem_addedValues_removeAdded.mpr ⟨r, hr, by rw [FactRow.removeAt, if_pos hopen]⟩
    obtain ⟨hrow, hlive, -⟩ := mem_addedValues.mp hended
    exact hlater (h'.ordered _ hrow hlive stamp rfl)
  · intro hbegun
    refine ⟨fun r hr hlive stop hstop => ?_⟩
    obtain ⟨s, hs, rfl⟩ := List.mem_map.mp hr
    split at hlive
    · rename_i hremoved
      rw [if_pos hremoved] at hstop ⊢
      cases hstop
      have hadded : s ∈ addedValues db k encoded := by
        simp only [removedBy, Bool.and_eq_true, decide_eq_true_eq] at hremoved
        exact mem_addedValues.mpr
          ⟨hs, hremoved.1.1.1.1, hremoved.1.1.1.2, hremoved.1.2, hremoved.2⟩
      exact hbegun s hadded
    · rename_i hremoved
      rw [if_neg hremoved] at hstop ⊢
      exact h.ordered s hs hlive stop hstop

/-- `fact_scheduled` lists a live row exactly while its start is ahead. -/
theorem mem_scheduledRows (py : Python) {now : Int} {r : FactRow} {agentId : String} :
    (∃ subject attributeName, r ∈ scheduledRows py now db agentId subject attributeName) ↔
      r ∈ db.facts.rows ∧ r.agentId = agentId ∧ r.live ∧ now < r.validFrom := by
  simp only [scheduledRows, List.mem_insertionSort, List.mem_filter, Bool.and_eq_true,
    decide_eq_true_eq]
  constructor
  · rintro ⟨subject, attributeName, hr, ⟨⟨⟨hagent, hlive⟩, hnow⟩, -⟩, -⟩
    exact ⟨hr, hagent, hlive, hnow⟩
  · rintro ⟨hr, hagent, hlive, hnow⟩
    exact ⟨none, none, hr, ⟨⟨⟨hagent, hlive⟩, hnow⟩, rfl⟩, rfl⟩

/-- On well-formed intervals, a call does what it promises exactly when its
condition holds. -/
theorem holds_iff_begun (step : FactStep) (h : WellFormed db) :
    step.Holds py db ↔ step.Begun py db := by
  cases hop : step.op.removes? py with
  | none =>
      constructor
      · exact fun _ => ⟨fun k stamp encoded hsome => by rw [hop] at hsome; cases hsome⟩
      · refine fun _ => ⟨wellFormed_apply hop h, fun k stamp encoded hsome => ?_⟩
        rw [hop] at hsome
        cases hsome
  | some target =>
      obtain ⟨k, stamp, encoded⟩ := target
      have happly : step.apply py db = db.removeAdded k stamp encoded := apply_of_removes hop
      constructor
      · intro hholds
        refine ⟨fun k' stamp' encoded' hsome r hr => ?_⟩
        rw [hop] at hsome
        obtain ⟨rfl, rfl, rfl⟩ : k = k' ∧ stamp = stamp' ∧ encoded = encoded' := by
          simpa using hsome
        have hwf := hholds.wellFormed
        rw [happly, wellFormed_removeAdded_iff h] at hwf
        rcases lt_or_eq_of_le (hwf r hr) with hlt | heq
        · exact .inl hlt
        · -- the row begins where it ends, so only the clock keeps it off the list
          refine .inr ⟨heq, ?_⟩
          by_contra hnow
          have hafter : r.removeAt stamp ∈ addedValues (db.removeAdded k stamp encoded) k encoded :=
            mem_addedValues_removeAdded.mpr ⟨r, hr, rfl⟩
          have hstart : (r.removeAt stamp).validFrom = stamp := heq ▸ r.removeAt_validFrom stamp
          have hremoved := hholds.removed k stamp encoded hop
          rw [happly] at hremoved
          obtain ⟨hrow, hlive, hkey, -⟩ := mem_addedValues.mp hafter
          have hahead : step.now < (r.removeAt stamp).validFrom := by omega
          obtain ⟨subject, attributeName, hlisted⟩ := (mem_scheduledRows py).mpr
            ⟨hrow, congrArg TimelineKey.agentId hkey, hlive, hahead⟩
          exact hremoved.unscheduled _ hafter hstart.ge subject attributeName hlisted
      · intro hbegun
        have hstarts := hbegun.begun k stamp encoded hop
        have hle : ∀ r ∈ addedValues db k encoded, r.validFrom ≤ stamp := by
          intro r hr
          rcases hstarts r hr with hlt | ⟨heq, -⟩ <;> omega
        refine ⟨?_, fun k' stamp' encoded' hsome => ?_⟩
        · rw [happly, wellFormed_removeAdded_iff h]
          exact hle
        rw [hop] at hsome
        obtain ⟨rfl, rfl, rfl⟩ : k = k' ∧ stamp = stamp' ∧ encoded = encoded' := by
          simpa using hsome
        rw [happly]
        constructor
        · intro r hr t ht
          obtain ⟨s, -, rfl⟩ := mem_addedValues_removeAdded.mp hr
          exact s.removeAt_covers ht
        · intro r hr hlater subject attributeName hlisted
          obtain ⟨s, hs, rfl⟩ := mem_addedValues_removeAdded.mp hr
          have hahead := ((mem_scheduledRows py).mp ⟨subject, attributeName, hlisted⟩).2.2.2
          rw [FactRow.removeAt_validFrom] at hlater hahead
          rcases hstarts s hs with hlt | ⟨heq, hnow⟩ <;> omega

/-- In a run of calls from an empty store, every live row stays well formed and
every removed value removed, exactly when no `fact_remove` meets a row of its
value that begins after the given time, or at that time while it is still
ahead. -/
theorem removals_hold (py : Python) (steps : List FactStep) :
    Along (FactStep.apply py) (FactStep.Holds py) steps .empty ↔
      Along (FactStep.apply py) (FactStep.Begun py) steps .empty :=
  along_iff_of_invariant (I := WellFormed) (fun step _ h => holds_iff_begun step h)
    (fun _ _ _ hholds => hholds.wellFormed) wellFormed_empty

/-- A number that begins at time 5, and is removed as of time 3. -/
def removedAhead : List FactStep :=
  [⟨.add 1 "a" ⟨"agent", "ana", "phone", .str "555", .ofInstant 5, none, []⟩, 1⟩,
    ⟨.remove "agent" "ana" "phone" (.str "555") (.ofInstant 3), 2⟩]

/-- The interval ends before it begins, and the number is still scheduled. -/
theorem removed_ahead_still_scheduled :
    let db := run (FactStep.apply .basic) removedAhead .empty
    (db.facts.rows.map fun r => (r.validFrom, r.validTo)) = [(5, some 3)] ∧
      (scheduledRows .basic 2 db "agent" none none).length = 1 ∧
      ¬ Along (FactStep.apply .basic) (FactStep.Holds .basic) removedAhead .empty := by
  refine ⟨by decide, by decide, fun h => ?_⟩
  have hwf := h.2.1.wellFormed
  have hordered : ∀ r ∈ (run (FactStep.apply .basic) removedAhead .empty).facts.rows,
      r.validTo = some 3 → r.validFrom ≤ 3 := by
    intro r hr hstop
    refine hwf.ordered r hr ?_ 3 hstop
    have hall : (run (FactStep.apply .basic) removedAhead .empty).facts.rows.all
        FactRow.live = true := by decide
    exact List.all_eq_true.mp hall r hr
  revert hordered
  decide

end MarkSdk
