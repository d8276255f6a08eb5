import MarkSdk.Extraction.Withdrawal
import MarkSdk.Facts.Histories
import MarkSdk.Store.TypedValues

/-!
Taking back a `fact_set`.

A recorded value is withdrawn by `fact_retract` or by forgetting the fragment
it came from. What is left is chained again, so the set rows get back the ends
that they had (`liveRows_rechain_of_map`). The added rows that the value ended
when it was recorded, and the rows that a correction withdrew for it, stay as
they are.
-/

namespace MarkSdk

open Lib

variable {py : Python} {db db' : Db} {k : TimelineKey}

/-! ### Chaining looks at no end -/

/-- Changing the ends alone leaves the rows of the chain and their order. -/
theorem chain_of_map {f : FactRow → FactRow} (hf : ∀ r, f r = r.endAt (f r).validTo)
    (h : liveRows db' k = (liveRows db k).map f) : chain db' k = (chain db k).map f := by
  have hbefore : ∀ r s, r.before s ↔ (f r).before (f s) := by
    intro r s
    rw [hf r, hf s]
    rfl
  have hmulti : ((fun r : FactRow => !r.isMulti) ∘ f) = fun r => !r.isMulti := by
    funext r
    rw [Function.comp_apply, hf r, FactRow.endAt_isMulti]
  unfold chain timeline
  rw [h, ← List.map_insertionSort _ _ f _ fun r _ s _ => hbefore r s, List.filter_map, hmulti]

theorem chainRow_of_map {f : FactRow → FactRow} (hf : ∀ r, f r = r.endAt (f r).validTo)
    (h : liveRows db' k = (liveRows db k).map f) {r : FactRow} (hr : r ∈ liveRows db k) :
    chainRow db' k (f r) = if r.isMulti then f r else chainRow db k r := by
  have hfr : f r ∈ liveRows db' k := h ▸ List.mem_map_of_mem hr
  have hmulti : (f r).isMulti = r.isMulti := by rw [hf r, FactRow.endAt_isMulti]
  split
  · rename_i hadded
    have hout : f r ∉ chain db' k := by
      intro hmem
      have := (mem_chain.mp hmem).2
      simp [hmulti, hadded] at this
    rw [chainRow, chainStop_of_not_mem (mem_liveRows.mp hfr).1 hout, FactRow.endAt_self]
  · rename_i hset
    have hin : r ∈ chain db k := mem_chain.mpr ⟨mem_liveRows.mp hr, by simpa using hset⟩
    obtain ⟨u, hu, rfl⟩ : ∃ u ∈ nextStarts FactRow.validFrom (chain db k), u.1 = r := by
      rw [← map_fst_nextStarts FactRow.validFrom (chain db k)] at hin
      exact List.mem_map.mp hin
    have hstart : (fun r => (f r).validFrom) = FactRow.validFrom := by
      funext r
      rw [hf r, FactRow.endAt_validFrom]
    have hu' : (f u.1, u.2) ∈ nextStarts FactRow.validFrom (chain db' k) := by
      rw [chain_of_map hf h, nextStarts_map, hstart]
      exact List.mem_map_of_mem hu
    rw [chainRow, chainRow, chainStop_of_mem hu, chainStop_of_mem hu', hf u.1,
      FactRow.endAt_endAt]

/-- Chaining again keeps the ends of the added rows, and gives the set rows
the ends that chaining gave them before. -/
theorem liveRows_rechain_of_map {f : FactRow → FactRow} (hf : ∀ r, f r = r.endAt (f r).validTo)
    (h : liveRows db' k = (liveRows db k).map f) :
    liveRows (db'.rechain k) k =
      (liveRows db k).map fun r => if r.isMulti then f r else chainRow db k r := by
  rw [liveRows_rechain, h, List.map_map]
  exact List.map_congr_left fun r hr => chainRow_of_map hf h hr

theorem liveRows_rechain_self (db : Db) (k : TimelineKey) :
    liveRows (db.rechain k) k =
      (liveRows db k).map fun r => if r.isMulti then r else chainRow db k r :=
  liveRows_rechain_of_map (f := id) (fun _ => rfl) (List.map_id _).symm

theorem liveRows_rechain_congr (h : liveRows db' k = liveRows db k) :
    liveRows (db'.rechain k) k = liveRows (db.rechain k) k := by
  rw [liveRows_rechain_self db]
  exact liveRows_rechain_of_map (f := id) (fun _ => rfl) (h.trans (List.map_id _).symm)

/-- Chaining a chained timeline changes nothing. -/
theorem liveRows_rechain_of_chained (h : ChainedAt db k) :
    liveRows (db.rechain k) k = liveRows db k := by
  rw [liveRows_rechain_self]
  refine (List.map_congr_left fun r hr => ?_).trans (List.map_id _)
  split
  · rfl
  · rename_i hset
    have hin : r ∈ chain db k := mem_chain.mpr ⟨mem_liveRows.mp hr, by simpa using hset⟩
    have hu : (r, r.validTo) ∈ nextStarts FactRow.validFrom (chain db k) := by
      rw [nextStarts_eq_of_tiles h]
      exact List.mem_map_of_mem hin
    rw [chainRow, chainStop_of_mem hu, FactRow.endAt_self]
    rfl

/-- Chaining several timelines, or one several times, chains each once. -/
theorem liveRows_rechainAll_of_chained {ks : List TimelineKey} (h : k ∉ ks → ChainedAt db k) :
    liveRows (db.rechainAll ks) k = liveRows (db.rechain k) k := by
  induction ks generalizing db with
  | nil => exact (liveRows_rechain_of_chained (h (by simp))).symm
  | cons k' ks ih =>
      show liveRows ((db.rechain k').rechainAll ks) k = _
      by_cases hk : k = k'
      · subst hk
        rw [ih fun _ => chainedAt_rechain db k]
        exact liveRows_rechain_of_chained (chainedAt_rechain db k)
      · have hsame : liveRows (db.rechain k') k = liveRows db k := liveRows_rechain_ne hk
        rw [ih fun hks => (chainedAt_congr hsame).mpr (h (by simp [hk, hks]))]
        exact liveRows_rechain_congr hsame

/-! ### What the readers see -/

/-- The readers of one timeline return the same before and after. -/
structure SameReaders (py : Python) (db db' : Db) (agentId subject attributeName : String) :
    Prop where
  asOf : ∀ when_, factAsOf py db' agentId subject attributeName when_ =
    factAsOf py db agentId subject attributeName when_
  current : ∀ now, factCurrent py now db' agentId (some subject) (some attributeName) =
    factCurrent py now db agentId (some subject) (some attributeName)
  history : factHistory py db' agentId subject attributeName =
    factHistory py db agentId subject attributeName

section Readers

variable {agentId subject attributeName : String}

/-- The readers see the live rows and nothing else. -/
theorem SameReaders.of_liveRows
    (h : liveRows db' (callKey py agentId subject attributeName) =
      liveRows db (callKey py agentId subject attributeName)) :
    SameReaders py db db' agentId subject attributeName where
  asOf when_ := by
    unfold factAsOf asOfRow rowsOpenAt
    exact congrArg (fun rows => ((((rows.filter (FactRow.covers (utcText when_))).insertionSort
      fun r s => r.validFrom ≤ s.validFrom).getLast?).map (rowToFact py))) h
  current now := by
    rw [factCurrent_eq, factCurrent_eq, rowsOpenAt, rowsOpenAt, h]
  history := by
    unfold factHistory timeline
    exact congrArg (fun rows => ((rows.insertionSort FactRow.before).map
      (rowToFact py)).foldl pushHistory []) h

/-- A row that holds at a time is there, and holds, in both. -/
theorem SameReaders.exists_row (h : SameReaders py db db' agentId subject attributeName)
    {r : FactRow} (hr : r ∈ liveRows db (callKey py agentId subject attributeName)) {t : Int}
    (ht : r.covers t = true) :
    ∃ s ∈ liveRows db' (callKey py agentId subject attributeName),
      s.covers t = true ∧ s.id = r.id := by
  have hcurrent := h.current t
  rw [factCurrent_eq, factCurrent_eq] at hcurrent
  have hmem : rowToFact py r ∈ ((rowsOpenAt db (callKey py agentId subject attributeName)
      t).insertionSort FactRow.beforeByKey).map (rowToFact py) := by
    refine List.mem_map_of_mem ?_
    rw [List.mem_insertionSort]
    exact List.mem_filter.mpr ⟨hr, ht⟩
  rw [← hcurrent] at hmem
  obtain ⟨s, hs, heq⟩ := List.mem_map.mp hmem
  rw [List.mem_insertionSort] at hs
  obtain ⟨hs, hcovers⟩ := List.mem_filter.mp hs
  exact ⟨s, hs, hcovers, congrArg Fact.id heq⟩

end Readers

/-! ### Withdrawing -/

/-- The rows of the timeline that `gone` selects are out, and the others are
chained again. -/
def Withdrawn (gone : FactRow → Bool) (k : TimelineKey) (db db' : Db) : Prop :=
  ∃ cut : Db, liveRows cut k = (liveRows db k).filter (fun r => !gone r) ∧
    liveRows db' k = liveRows (cut.rechain k) k

/-- The rows that `fact_retract` finds a value in. -/
def FactRow.holdsValue (py : Python) (value : PyValue) (r : FactRow) : Bool :=
  match retractMatches py value r with
  | .ok found => found
  | .error _ => false

theorem withdrawn_factRetract {now : Int} {agentId subject : String}
    {attributeName : Option String} {value : PyValue} {n : Nat} (h : ChainedAt db k)
    (hexec : (factRetract py now agentId subject attributeName value).exec db = .ok (n, db'))
    (habout : ∀ r ∈ liveRows db k, r.about py agentId subject attributeName = true) :
    Withdrawn (FactRow.holdsValue py value) k db db' := by
  obtain ⟨rows, hrows, rfl, -⟩ := factRetract_ok py now hexec
  have hkept := Txn.filterE_eq_filter (q := FactRow.holdsValue py value)
    (fun r keep hr => by rw [FactRow.holdsValue, hr]) hrows
  have hselected : ∀ r ∈ liveRows db k, r.id ∈ rows.map FactRow.id ↔
      r.holdsValue py value = true := by
    intro r hr
    obtain ⟨hrow, hlive, -⟩ := mem_liveRows.mp hr
    rw [mem_ids_iff db (fun s hs => (List.mem_filter.mp
      ((Txn.filterE_sublist hrows).subset hs)).1) hrow, hkept, List.mem_filter, List.mem_filter]
    simp [hrow, hlive, habout r hr]
  have hcut : liveRows (db.updateFacts (fun r => r.id ∈ rows.map FactRow.id) (FactRow.retract now)
      (FactRow.retract_id now)) k =
        (liveRows db k).filter fun r => !r.holdsValue py value := by
    rw [liveRows_retract]
    refine List.filter_congr fun r hr => ?_
    congr 1
    rw [Bool.eq_iff_iff, decide_eq_true_eq]
    exact hselected r hr
  refine ⟨_, hcut, liveRows_rechainAll_of_chained fun hks => ?_⟩
  -- a timeline that lost no row is still chained
  refine (chainedAt_congr ?_).mpr h
  rw [hcut, List.filter_eq_self]
  intro r hr
  rw [Bool.not_eq_true', Bool.eq_false_iff]
  intro hholds
  refine hks (List.mem_map.mpr ⟨r.attributeKey, List.mem_dedup.mpr ?_, ?_⟩)
  · obtain ⟨s, hs, hid⟩ := List.mem_map.mp ((hselected r hr).mpr hholds)
    have hsr : s = r := db.fact_eq_of_id (List.mem_filter.mp
      ((Txn.filterE_sublist hrows).subset hs)).1 (mem_liveRows.mp hr).1 hid
    exact List.mem_map.mpr ⟨s, hs, by rw [hsr]⟩
  · have hkey := (mem_liveRows.mp hr).2.2
    have := habout r hr
    rw [← hkey]
    simp_all [FactRow.about, FactRow.timelineKey]

theorem withdrawn_forgetFragment {now : Int} {fragmentId : String} {secure : Bool}
    {fragment : Fragment} (h : ChainedAt db k)
    (hfragment : db.fragments.find? fragmentId = some fragment)
    (hagent : fragment.agentId = k.agentId) :
    Withdrawn (fun r => r.sourceFragmentId = some fragmentId) k db
      ((forgetFragment now fragmentId secure).apply db) := by
  have hexec := exec_forgetFragment now fragmentId secure db
  rw [hfragment] at hexec
  rw [Txn.apply_of_ok hexec]
  have hsourced : ∀ r ∈ liveRows db k, r.sourcedFrom fragment.agentId fragmentId =
      decide (r.sourceFragmentId = some fragmentId) := by
    intro r hr
    have hkey := (mem_liveRows.mp hr).2.2
    have : r.agentId = fragment.agentId := by rw [hagent, ← hkey]; rfl
    simp [FactRow.sourcedFrom, this]
  have hcut : liveRows ((db.dropFragment fragmentId).cutFacts fragment.agentId fragmentId secure
      now) k = (liveRows db k).filter fun r => !decide (r.sourceFragmentId = some fragmentId) := by
    cases secure with
    | true =>
        have hrows : liveRows ((db.dropFragment fragmentId).cutFacts fragment.agentId fragmentId
            true now) k = (liveRows db k).filter
              fun r => !r.sourcedFrom fragment.agentId fragmentId := by
          unfold liveRows Db.cutFacts
          rw [if_pos rfl, rows_deleteFacts, List.filter_comm]
          rfl
        rw [hrows]
        exact List.filter_congr fun r hr => by rw [hsourced r hr]
    | false =>
        have hrows : liveRows ((db.dropFragment fragmentId).cutFacts fragment.agentId fragmentId
            false now) k = (liveRows db k).filter
              fun r => !(r.sourcedFrom fragment.agentId fragmentId && r.live) :=
          liveRows_retract (db.dropFragment fragmentId) _ now k
        rw [hrows]
        refine List.filter_congr fun r hr => ?_
        rw [hsourced r hr, (mem_liveRows.mp hr).2.1, Bool.and_true]
  refine ⟨_, hcut, ?_⟩
  show liveRows (((db.dropFragment fragmentId).cutFacts fragment.agentId fragmentId secure
    now).rechainAll (cascadeKeys db fragment.agentId fragmentId)) k = _
  refine liveRows_rechainAll_of_chained fun hks => (chainedAt_congr ?_).mpr h
  rw [hcut, List.filter_eq_self]
  intro r hr
  rw [Bool.not_eq_true', Bool.eq_false_iff]
  intro hsource
  have hrow := mem_liveRows.mp hr
  refine hks (List.mem_map.mpr ⟨(r.subjectKey, r.attributeKey), List.mem_dedup.mpr ?_, ?_⟩)
  · refine List.mem_map_of_mem (List.mem_filter.mpr ⟨hrow.1, ?_⟩)
    rw [hsourced r hr]
    exact hsource
  · rw [hagent, ← hrow.2.2]
    rfl

/-! ### Recording -/

/-- An added row after a value is set at `t`. -/
def FactRow.endedBy (t : Int) (r : FactRow) : FactRow :=
  if r.isMulti && r.covers t then r.endAt (some t) else r

theorem endedBy_eq (t : Int) (r : FactRow) :
    r.endedBy t = r.endAt (r.endedBy t).validTo := by
  unfold FactRow.endedBy
  split <;> rfl

/-- What happens to the rows of the timeline when `row` is recorded. -/
theorem liveRows_recordSet {row : FactRow} (hid : row.id ∉ db.factIds) (hlive : row.live = true)
    (hkey : row.timelineKey = k) :
    liveRows (db.recordSet k row) k = (liveRows db k ++ [row]).map fun r =>
      if r.isMulti then r.endedBy row.validFrom else chainRow (db.addRow row) k r := by
  have hadd : liveRows (db.addRow row) k = liveRows db k ++ [row] := by
    unfold liveRows
    rw [rows_addRow hid, List.filter_append]
    simp [hlive, hkey]
  have hended : liveRows ((db.addRow row).endAdded k row.validFrom) k =
      (liveRows (db.addRow row) k).map (FactRow.endedBy row.validFrom) := by
    unfold liveRows Db.endAdded
    rw [rows_updateFacts, List.filter_map]
    have hsame : ((fun r : FactRow => r.live && decide (r.timelineKey = k)) ∘
        fun r => if addedBy k row.validFrom r then r.endAt (some row.validFrom) else r) =
          fun r => r.live && decide (r.timelineKey = k) := by
      funext r
      rw [Function.comp_apply]
      split <;> rfl
    rw [hsame]
    refine List.map_congr_left fun r hr => ?_
    obtain ⟨hrlive, hrkey⟩ := Bool.and_eq_true_iff.mp (List.mem_filter.mp hr).2
    unfold FactRow.endedBy addedBy
    rw [hrlive, hrkey, Bool.and_comm r.isMulti]
    simp
  rw [Db.recordSet, liveRows_rechain_of_map (endedBy_eq row.validFrom) hended, hadd]

/-- The rows that stay when a value is recorded at `t`: a correction withdraws
the set rows of that time. -/
def FactRow.stays (correction : Bool) (t : Int) (r : FactRow) : Bool :=
  !(correction && r.validFrom = t && !r.isMulti)

theorem liveRows_withdrawAt (db : Db) (now : Int) (k : TimelineKey) (t : Int) :
    liveRows (db.withdrawAt now k t) k = (liveRows db k).filter (FactRow.stays true t) := by
  rw [Db.withdrawAt, liveRows_retract]
  refine List.filter_congr fun r hr => ?_
  obtain ⟨-, hlive, hkey⟩ := mem_liveRows.mp hr
  simp [recordedAtTime, FactRow.stays, hlive, hkey]

/-- What `fact_set` recorded: the rows before it, without those that a
correction withdrew, and a new row. -/
structure Recorded (req : FactRequest) (correction : Bool) (k : TimelineKey) (encoded : String)
    (db before : Db) (row : FactRow) (db' : Db) : Prop where
  value : row.value = encoded
  source : row.sourceFragmentId = req.sourceFragmentId
  start : row.validFrom = req.start
  single : row.isMulti = false
  fresh : row.id ∉ db.factIds
  fragments : db'.fragments = db.fragments
  stayed : liveRows before k = (liveRows db k).filter (FactRow.stays correction req.start)
  recorded : liveRows db' k = (liveRows before k ++ [row]).map fun r =>
    if r.isMulti then r.endedBy req.start else chainRow (before.addRow row) k r

theorem insertSet_recorded {now : Int} {uuid encoded : String} {req : FactRequest}
    {correction : Bool} {fact : Fact} {before : Db} (hids : before.factIds = db.factIds)
    (hfragments : before.fragments = db.fragments)
    (hstayed : liveRows before (req.key py) =
      (liveRows db (req.key py)).filter (FactRow.stays correction req.start))
    (h : (insertSet py now uuid encoded req).exec before = .ok (fact, db')) :
    ∃ row, Recorded req correction (req.key py) encoded db before row db' := by
  rw [exec_insertSet] at h
  split at h
  · simp at h
  · split at h
    · rename_i inserted hrow
      have hid := (insertFact_eq_ok_iff.mp hrow).1
      rw [insertFact_addRow hid, Except.ok.injEq] at hrow
      subst hrow
      obtain rfl := factById_ok h
      refine ⟨req.row py now uuid encoded (setMetadata req.metadata), {
        value := rfl
        source := rfl
        start := rfl
        single := isMulti_row_set py now uuid encoded req req.metadata
        fresh := hids ▸ hid
        fragments := hfragments
        stayed := hstayed
        recorded := liveRows_recordSet hid rfl rfl }⟩
    · simp at h

/-- `fact_set` records a new row, unless the latest row of its time has the
value. -/
theorem factSet_recorded {now : Int} {uuid : String} {req : FactRequest} {correction : Bool}
    {fact : Fact} (h : (factSet py now uuid req correction).exec db = .ok (fact, db')) :
    ∃ encoded, encodeValue py req.value = .ok encoded ∧
      ((∃ r ∈ liveRows db (req.key py), r.value = encoded) ∨
        ∃ before row, Recorded req correction (req.key py) encoded db before row db') := by
  rw [exec_factSet] at h
  split at h
  · simp at h
  · rename_i encoded hcheck
    have hencode : encodeValue py req.value = .ok encoded := by
      unfold FactRequest.check at hcheck
      split at hcheck
      · simp at hcheck
      · exact hcheck
    refine ⟨encoded, hencode, ?_⟩
    cases correction with
    | true =>
        right
        have hids : (db.withdrawAt now (req.key py) req.start).factIds = db.factIds :=
          factIds_updateFacts db _ _ _
        have hstayed := liveRows_withdrawAt db now (req.key py) req.start
        exact ⟨_, insertSet_recorded hids rfl hstayed h⟩
    | false =>
        simp only [Bool.false_eq_true, if_false] at h
        split at h
        · rename_i last hlast
          obtain ⟨hmem, hvalue⟩ := Option.filter_eq_some_iff.mp hlast
          obtain ⟨hrow, hat⟩ := mem_rowsAt.mp (List.mem_of_getLast? hmem)
          refine .inl ⟨last, mem_liveRows.mpr ⟨hrow, ?_⟩, by simpa using hvalue⟩
          simp only [recordedAtTime, Bool.and_eq_true, decide_eq_true_eq] at hat
          exact hat.1.1
        · right
          refine ⟨db, insertSet_recorded rfl rfl ?_ h⟩
          exact (List.filter_eq_self.mpr fun r _ => rfl).symm

/-! ### Back to what was there -/

/-- Nothing of these rows is lost when a value is set at `t`: no added value is
open then, and a correction finds no set value of that time. -/
structure ReplacesNothing (rows : List FactRow) (correction : Bool) (t : Int) : Prop where
  added : ∀ r ∈ rows, r.isMulti = true → r.covers t = false
  corrected : correction = true → ∀ r ∈ rows, r.isMulti = false → r.validFrom ≠ t

theorem ReplacesNothing.filter_stays {rows : List FactRow} {correction : Bool} {t : Int}
    (h : ReplacesNothing rows correction t) :
    rows.filter (FactRow.stays correction t) = rows := by
  rw [List.filter_eq_self]
  intro r hr
  cases correction with
  | false => rfl
  | true =>
      cases hmulti : r.isMulti with
      | true => simp [FactRow.stays, hmulti]
      | false => simp [FactRow.stays, h.corrected rfl r hr hmulti]

section Undone

variable {req : FactRequest} {correction : Bool} {encoded : String} {before recorded ref undone : Db}
  {row : FactRow} {gone : FactRow → Bool}

/-- What the withdrawal of the new row leaves to chain: the rows that stayed,
with the ends that they got. -/
theorem Recorded.cut (h : Recorded req correction k encoded db before row recorded)
    (hends : ∀ r stop, gone (r.endAt stop) = gone r) (hrow : gone row = true) :
    ∃ f : FactRow → FactRow, (∀ r, f r = r.endAt (f r).validTo) ∧
      (∀ r, r.isMulti = true → f r = r.endedBy req.start) ∧
      (liveRows recorded k).filter (fun r => !gone r) =
        (((liveRows db k).filter fun r => !gone r).filter
          (FactRow.stays correction req.start)).map f := by
  have hf : ∀ r : FactRow, (if r.isMulti then r.endedBy req.start
      else chainRow (before.addRow row) k r) =
        r.endAt (if r.isMulti then r.endedBy req.start
          else chainRow (before.addRow row) k r).validTo := by
    intro r
    split
    · exact endedBy_eq req.start r
    · rfl
  refine ⟨_, hf, fun r hmulti => if_pos hmulti, ?_⟩
  have hgone : ((fun r => !gone r) ∘ fun r : FactRow => if r.isMulti then r.endedBy req.start
      else chainRow (before.addRow row) k r) = fun r => !gone r := by
    funext r
    rw [Function.comp_apply, hf r, hends]
  rw [h.recorded, List.filter_map, hgone, List.filter_append, h.stayed,
    List.filter_cons_of_neg (by simp [hrow]), List.filter_nil, List.append_nil,
    List.filter_comm]

/-- When nothing was replaced, the rows come back as they were. -/
theorem Recorded.undone_eq (h : Recorded req correction k encoded db before row recorded)
    (hends : ∀ r stop, gone (r.endAt stop) = gone r) (hrow : gone row = true)
    (href : Withdrawn gone k db ref) (hundone : Withdrawn gone k recorded undone)
    (hnothing : ReplacesNothing ((liveRows db k).filter fun r => !gone r) correction req.start) :
    liveRows undone k = liveRows ref k := by
  obtain ⟨f, hf, hmulti, hleft⟩ := h.cut hends hrow
  obtain ⟨cut, hcut, hrefRows⟩ := href
  obtain ⟨cut', hcut', hundoneRows⟩ := hundone
  rw [hleft, hnothing.filter_stays, ← hcut] at hcut'
  rw [hundoneRows, hrefRows, liveRows_rechain_of_map hf hcut', liveRows_rechain_self]
  refine List.map_congr_left fun r hr => ?_
  split
  · rename_i hadded
    have hopen := hnothing.added r (hcut ▸ hr) hadded
    rw [hmulti r hadded, FactRow.endedBy, hopen, Bool.and_false]
    rfl
  · rfl

/-- A row that holds when the value was set, and is still read in the end,
comes from a row that stayed. -/
theorem exists_stayed {f : FactRow → FactRow} (hf : ∀ r, f r = r.endAt (f r).validTo)
    {rows : List FactRow} {cut : Db} (hcut : liveRows cut k = rows.map f)
    (hundone : liveRows undone k = liveRows (cut.rechain k) k) {s : FactRow}
    (hs : s ∈ liveRows undone k) :
    ∃ r ∈ rows, r.id = s.id ∧ (r.isMulti = true → s = f r) := by
  rw [hundone, liveRows_rechain_self, hcut, List.map_map] at hs
  obtain ⟨r, hr, rfl⟩ := List.mem_map.mp hs
  have hid : (f r).id = r.id := by rw [hf r, FactRow.endAt_id]
  have hmulti : (f r).isMulti = r.isMulti := by rw [hf r, FactRow.endAt_isMulti]
  rw [Function.comp_apply, hmulti]
  refine ⟨r, hr, ?_, fun hadded => if_pos hadded⟩
  split
  · exact hid.symm
  · rw [chainRow_id, hid]

/-- The readers notice everything that was replaced. -/
theorem Recorded.replacesNothing {agentId subject attributeName : String}
    (h : Recorded req correction (callKey py agentId subject attributeName) encoded db before row
      recorded)
    (hends : ∀ r stop, gone (r.endAt stop) = gone r) (hrow : gone row = true)
    (href : Withdrawn gone (callKey py agentId subject attributeName) db ref)
    (hundone : Withdrawn gone (callKey py agentId subject attributeName) recorded undone)
    (hsame : SameReaders py ref undone agentId subject attributeName) :
    ReplacesNothing ((liveRows db (callKey py agentId subject attributeName)).filter
      fun r => !gone r) correction req.start := by
  generalize hk : callKey py agentId subject attributeName = k at *
  obtain ⟨f, hf, hmulti, hleft⟩ := h.cut hends hrow
  obtain ⟨cut, hcut, hrefRows⟩ := href
  obtain ⟨cut', hcut', hundoneRows⟩ := hundone
  rw [hleft] at hcut'
  have heq : ∀ r ∈ (liveRows db k).filter (fun r => !gone r), ∀ s ∈
      ((liveRows db k).filter fun r => !gone r).filter (FactRow.stays correction req.start),
      s.id = r.id → s = r := by
    intro r hr s hs hid
    have hrow := (mem_liveRows.mp (List.mem_filter.mp hr).1).1
    have hsrow := (mem_liveRows.mp (List.mem_filter.mp (List.mem_filter.mp hs).1).1).1
    exact db.fact_eq_of_id hsrow hrow hid
  constructor
  · intro r hr hadded
    rw [Bool.eq_false_iff]
    intro hcovers
    -- an added row is not chained, and holds in `ref` as it did
    have hin : r ∈ liveRows ref k := by
      rw [hrefRows, liveRows_rechain_self, hcut]
      exact List.mem_map.mpr ⟨r, hr, if_pos hadded⟩
    obtain ⟨s, hs, hholds, hid⟩ := hsame.exists_row (hk ▸ hin) hcovers
    obtain ⟨r', hr', hid', hended⟩ := exists_stayed hf hcut' hundoneRows (hk ▸ hs)
    obtain rfl := heq r hr r' hr' (hid'.trans hid)
    rw [hended hadded, hmulti r' hadded, FactRow.endedBy, hadded, hcovers] at hholds
    simp [FactRow.covers, covers] at hholds
  · rintro rfl r hr hset hstart
    have hin : chainRow cut k r ∈ chain (cut.rechain k) k := by
      rw [chain_rechain]
      refine List.mem_map_of_mem (mem_chain.mpr ⟨mem_liveRows.mp (hcut ▸ hr), hset⟩)
    -- the last set row of that time holds then
    have hsorted : (chain (cut.rechain k) k).Pairwise fun r s => r.validFrom ≤ s.validFrom :=
      (timeline_pairwise _ k).filter _
    obtain ⟨x, hx, hxstart, hxcovers⟩ :=
      exists_covers_start hsorted (chainedAt_rechain cut k) hin
    have hxlive : x ∈ liveRows ref k := by
      rw [hrefRows]
      exact mem_liveRows.mpr (mem_chain.mp hx).1
    obtain ⟨s, hs, -, hid⟩ := hsame.exists_row (hk ▸ hxlive) hxcovers
    obtain ⟨r', hr', hid', -⟩ := exists_stayed hf hcut' hundoneRows (hk ▸ hs)
    rw [chain_rechain] at hx
    obtain ⟨x₀, hx₀, rfl⟩ := List.mem_map.mp hx
    obtain ⟨hxrow, hxset⟩ := mem_chain.mp hx₀
    have hmem : x₀ ∈ (liveRows db k).filter fun r => !gone r := hcut ▸ mem_liveRows.mpr hxrow
    obtain rfl := heq x₀ hmem r' hr' (hid'.trans (hid.trans (chainRow_id cut k x₀)))
    have hstays := (List.mem_filter.mp hr').2
    have hsame' : r'.validFrom = req.start := hxstart.trans hstart
    simp [FactRow.stays, hsame', hxset] at hstays

end Undone

/-! ### The value that was recorded -/

/-- `json.loads` reads back what `json.dumps` wrote: a text as that text, and
anything else as a value that is written the same. -/
structure Python.RoundTrips (py : Python) : Prop extends py.ReadsBack where
  loads_dumps : ∀ value text, py.dumps value = some text →
    ∃ value', py.loads text = some value' ∧ py.dumps value' = some text ∧
      (∀ s, value' = .str s ↔ value = .str s) ∧ ∀ s, value' ≠ .other s

/-- A value is read back as itself, in the eyes of `_same_value`. -/
theorem encode_decode_encode (hpy : py.RoundTrips) {value : PyValue} {encoded : String}
    (hplain : ∀ text, value = .other text → isTyped text = false)
    (h : encodeValue py value = .ok encoded) :
    encodeValue py (decodeValue py encoded) = .ok encoded := by
  -- a text that is not typed is stored as it is
  have htext : ∀ text, isTyped text = false →
      encodeValue py (decodeValue py text) = .ok text := by
    intro text hplain
    rw [decodeValue, if_neg (by simp [hplain]), encodeValue_str py hplain]
  have htyped : ∀ text, py.dumps value = some text → (∀ s, value ≠ .other s) →
      (∀ s, value = .str s → isTyped s = true) →
        encodeValue py (decodeValue py (typedMarker ++ text)) = .ok (typedMarker ++ text) := by
    intro text hdumps hother hstr
    obtain ⟨value', hloads, hdumps', hstr', hother'⟩ := hpy.loads_dumps value text hdumps
    rw [decodeValue, if_pos (isTyped_append text), drop_typedMarker, hloads]
    cases value' with
    | str s =>
        have hs := hstr s ((hstr' s).mp rfl)
        simp [encodeValue, hs, hdumps']
    | other s => exact absurd rfl (hother' s)
    | _ => simp [encodeValue, hdumps']
  unfold encodeValue at h
  cases value with
  | str s =>
      simp only at h
      split at h
      · rename_i hs
        cases hdumps : py.dumps (.str s) with
        | none => simp [hdumps] at h
        | some text =>
            simp only [hdumps, Except.ok.injEq] at h
            subst h
            exact htyped text hdumps (by simp) fun s' heq => by
              cases heq
              exact hs
      · rename_i hs
        obtain rfl := Except.ok.inj h
        exact htext s (by simpa using hs)
  | other s =>
      obtain rfl := Except.ok.inj h
      exact htext s (hplain s rfl)
  | _ =>
      simp only at h
      split at h
      · rename_i text hdumps
        obtain rfl := Except.ok.inj h
        exact htyped text hdumps (by simp) (by simp)
      · cases h

theorem holdsValue_of_encode (hpy : py.RoundTrips) {value : PyValue} {encoded : String}
    (hplain : ∀ text, value = .other text → isTyped text = false)
    (h : encodeValue py value = .ok encoded) {r : FactRow} (hr : r.value = encoded) :
    sameValue py (decodeValue py r.value) value = .ok true ∧ r.holdsValue py value = true := by
  have hsame : sameValue py (decodeValue py r.value) value = .ok true := by
    rw [hr, sameValue, encode_decode_encode hpy hplain h, h]
    simp [Bind.bind, Except.bind, Pure.pure, Except.pure]
  refine ⟨hsame, ?_⟩
  unfold FactRow.holdsValue retractMatches
  split
  · rename_i found hfound
    split at hfound
    · exact (Except.ok.inj hfound).symm
    · exact (Except.ok.inj (hfound.symm.trans hsame))
  · rename_i e hfound
    split at hfound
    · cases hfound
    · rw [hsame] at hfound
      cases hfound

/-- The call records a value that no live row of its timeline holds. -/
structure NewValue (py : Python) (req : FactRequest) (db : Db) : Prop where
  new : ∀ r ∈ liveRows db (req.key py),
    sameValue py (decodeValue py r.value) req.value ≠ .ok true
  plain : ∀ text, req.value = .other text → isTyped text = false

section Undo

variable {now later : Int} {uuid : String} {req : FactRequest} {correction : Bool} {fact : Fact}
  {recorded : Db}

theorem NewValue.exists_recorded (hpy : py.RoundTrips) (hnew : NewValue py req db)
    (h : (factSet py now uuid req correction).exec db = .ok (fact, recorded)) :
    ∃ encoded before row, encodeValue py req.value = .ok encoded ∧
      row.holdsValue py req.value = true ∧
      Recorded req correction (req.key py) encoded db before row recorded := by
  obtain ⟨encoded, hencode, ⟨r, hr, hvalue⟩ | ⟨before, row, hrecorded⟩⟩ := factSet_recorded h
  · exact absurd (holdsValue_of_encode hpy hnew.plain hencode hvalue).1 (hnew.new r hr)
  · exact ⟨encoded, before, row, hencode,
      (holdsValue_of_encode hpy hnew.plain hencode hrecorded.value).2, hrecorded⟩

/-- No live row holds a new value, unless it is the `None` that every row
answers to. -/
theorem NewValue.holdsValue (hnew : NewValue py req db) (hsome : req.value ≠ .none) {r : FactRow}
    (hr : r ∈ liveRows db (req.key py)) : r.holdsValue py req.value = false := by
  unfold FactRow.holdsValue retractMatches
  split
  · rename_i found hfound
    split at hfound
    · rename_i hnone
      exact absurd hnone hsome
    · cases found with
      | false => rfl
      | true => exact absurd hfound (hnew.new r hr)
  · rfl

theorem Withdrawn.nothing {gone : FactRow → Bool} (h : ChainedAt db k)
    (hnone : ∀ r ∈ liveRows db k, gone r = false) : Withdrawn gone k db db := by
  refine ⟨db, ?_, (liveRows_rechain_of_chained h).symm⟩
  rw [List.filter_eq_self.mpr fun r hr => by rw [hnone r hr]; rfl]

theorem undo_retract_iff (hpy : py.RoundTrips) (hdb : Chained db) (hnew : NewValue py req db)
    (h : (factSet py now uuid req correction).exec db = .ok (fact, recorded))
    {narrowed : Option String} (hnarrowed : narrowed = none ∨ narrowed = some req.attributeName) :
    SameReaders py db
        ((factRetract py later req.agentId req.subject narrowed req.value).apply recorded)
        req.agentId req.subject req.attributeName ↔
      ReplacesNothing (liveRows db (req.key py)) correction req.start ∧
        (req.value = .none → liveRows db (req.key py) = []) := by
  obtain ⟨encoded, before, row, hencode, hrow, hrecorded⟩ := hnew.exists_recorded hpy h
  obtain ⟨n, undone, hexec⟩ :=
    factRetract_isOk hpy.toReadsBack later req.agentId req.subject narrowed hencode recorded
  rw [Txn.apply_of_ok hexec]
  have hwithdrawn : Withdrawn (FactRow.holdsValue py req.value) (req.key py) recorded undone := by
    refine withdrawn_factRetract ((factSet_chained hdb h).chainedAt _) hexec fun r hr => ?_
    have hkey := (mem_liveRows.mp hr).2.2
    simp only [FactRow.timelineKey, FactRequest.key, TimelineKey.mk.injEq] at hkey
    rcases hnarrowed with rfl | rfl <;> simp [FactRow.about, hkey]
  have hends : ∀ (r : FactRow) stop,
      (r.endAt stop).holdsValue py req.value = r.holdsValue py req.value := fun _ _ => rfl
  by_cases hkept : ∀ r ∈ liveRows db (req.key py), r.holdsValue py req.value = false
  · have href := Withdrawn.nothing (hdb.chainedAt (req.key py)) hkept
    have hall : (liveRows db (req.key py)).filter (fun r => !r.holdsValue py req.value) =
        liveRows db (req.key py) :=
      List.filter_eq_self.mpr fun r hr => by rw [hkept r hr]; rfl
    have hempty : req.value = .none → liveRows db (req.key py) = [] := by
      intro hnone
      rw [List.eq_nil_iff_forall_not_mem]
      intro r hr
      have := hkept r hr
      rw [hnone] at this
      cases this
    constructor
    · intro hsame
      exact ⟨hall ▸ hrecorded.replacesNothing hends hrow href hwithdrawn hsame, hempty⟩
    · rintro ⟨hnothing, -⟩
      exact SameReaders.of_liveRows
        (hrecorded.undone_eq hends hrow href hwithdrawn (hall.symm ▸ hnothing))
  · -- `None` withdraws what was there before as well
    have hnone : req.value = .none := by
      by_contra hsome
      exact hkept fun r hr => hnew.holdsValue hsome hr
    have hsome : liveRows db (req.key py) ≠ [] := by
      intro hempty
      exact hkept fun r hr => by simp [hempty] at hr
    refine iff_of_false (fun hsame => hsome ?_) fun hcond => hsome (hcond.2 hnone)
    have hgone : liveRows undone (req.key py) = [] := by
      obtain ⟨cut, hcut, hundone⟩ := hwithdrawn
      have hcutNil : liveRows cut (req.key py) = [] := by
        rw [hcut, List.filter_eq_nil_iff, hnone]
        exact fun r _ => by simp [FactRow.holdsValue, retractMatches]
      rw [hundone, liveRows_rechain, hcutNil, List.map_nil]
    have hhistory := hsame.history
    have hnothing : factHistory py undone req.agentId req.subject req.attributeName = [] := by
      show ((timeline undone (req.key py)).map (rowToFact py)).foldl pushHistory [] = []
      rw [timeline, hgone]
      rfl
    rw [hnothing, factHistory_eq] at hhistory
    have hruns : collapseRuns (FactRow.repeats py) (timeline db (req.key py)) = [] :=
      List.map_eq_nil_iff.mp hhistory.symm
    have htimeline := flatMap_collapseRuns (FactRow.repeats py) (timeline db (req.key py))
    rw [hruns, List.flatMap_nil] at htimeline
    exact (htimeline ▸ timeline_perm db (req.key py)).symm.eq_nil

/-- Recording a new value and forgetting the fragment it came from, next to a
database `ref` in which only the rows of that fragment are out. -/
theorem undo_forget_iff (hpy : py.RoundTrips) (hdb : Chained db) (hnew : NewValue py req db)
    (h : (factSet py now uuid req correction).exec db = .ok (fact, recorded))
    {fragmentId : String} {secure : Bool} {fragment : Fragment}
    (hsource : req.sourceFragmentId = some fragmentId)
    (hfragment : db.fragments.find? fragmentId = some fragment)
    (hagent : fragment.agentId = req.agentId) {ref : Db}
    (href : Withdrawn (fun r => r.sourceFragmentId = some fragmentId) (req.key py) db ref) :
    SameReaders py ref ((forgetFragment later fragmentId secure).apply recorded)
        req.agentId req.subject req.attributeName ↔
      ReplacesNothing ((liveRows db (req.key py)).filter
        fun r => !decide (r.sourceFragmentId = some fragmentId)) correction req.start := by
  obtain ⟨encoded, before, row, -, -, hrecorded⟩ := hnew.exists_recorded hpy h
  have hwithdrawn : Withdrawn (fun r => r.sourceFragmentId = some fragmentId) (req.key py) recorded
      ((forgetFragment later fragmentId secure).apply recorded) :=
    withdrawn_forgetFragment ((factSet_chained hdb h).chainedAt _)
      (hrecorded.fragments ▸ hfragment) hagent
  have hrow : decide (row.sourceFragmentId = some fragmentId) = true := by
    rw [hrecorded.source, hsource, decide_eq_true_eq]
  constructor
  · exact hrecorded.replacesNothing (fun _ _ => rfl) hrow href hwithdrawn
  · intro hnothing
    exact SameReaders.of_liveRows
      (hrecorded.undone_eq (fun _ _ => rfl) hrow href hwithdrawn hnothing)

end Undo

/-- When a mistake can be undone. After every run, a new value that is recorded
and retracted leaves the readers of its timeline as they were exactly when
recording it replaced nothing. The same holds when the fragment that it came
from is forgotten instead: the readers are then as if only the fragment had
been forgotten, and as they were if no other live value came from it. -/
theorem undo_restores_iff (hpy : py.RoundTrips) (ops : List FactOp) {now : Int} {uuid : String}
    {req : FactRequest} {correction : Bool} {fact : Fact} {recorded : Db}
    (hnew : NewValue py req (runOps py ops .empty))
    (h : (factSet py now uuid req correction).exec (runOps py ops .empty) = .ok (fact, recorded)) :
    let db := runOps py ops .empty
    let rows := liveRows db (req.key py)
    (∀ later narrowed, narrowed = none ∨ narrowed = some req.attributeName →
      (SameReaders py db
          ((factRetract py later req.agentId req.subject narrowed req.value).apply recorded)
          req.agentId req.subject req.attributeName ↔
        ReplacesNothing rows correction req.start ∧ (req.value = .none → rows = []))) ∧
    ∀ later fragmentId secure fragment, req.sourceFragmentId = some fragmentId →
      db.fragments.find? fragmentId = some fragment → fragment.agentId = req.agentId →
        (SameReaders py ((forgetFragment later fragmentId secure).apply db)
            ((forgetFragment later fragmentId secure).apply recorded)
            req.agentId req.subject req.attributeName ↔
          ReplacesNothing (rows.filter fun r => !decide (r.sourceFragmentId = some fragmentId))
            correction req.start) ∧
        ((∀ r ∈ rows, r.sourceFragmentId ≠ some fragmentId) →
          (SameReaders py db ((forgetFragment later fragmentId secure).apply recorded)
              req.agentId req.subject req.attributeName ↔
            ReplacesNothing rows correction req.start)) := by
  intro db rows
  have hdb : Chained db := chained_run ops chained_empty
  refine ⟨fun later narrowed hnarrowed => undo_retract_iff hpy hdb hnew h hnarrowed, ?_⟩
  intro later fragmentId secure fragment hsource hfragment hagent
  refine ⟨undo_forget_iff hpy hdb hnew h hsource hfragment hagent
    (withdrawn_forgetFragment (hdb.chainedAt _) hfragment hagent), fun hother => ?_⟩
  have hkept : ∀ r ∈ rows, decide (r.sourceFragmentId = some fragmentId) = false :=
    fun r hr => decide_eq_false (hother r hr)
  have hall : (rows.filter fun r => !decide (r.sourceFragmentId = some fragmentId)) = rows :=
    List.filter_eq_self.mpr fun r hr => by rw [hkept r hr]; rfl
  rw [undo_forget_iff hpy hdb hnew h hsource hfragment hagent
    (Withdrawn.nothing (hdb.chainedAt _) hkept), hall]

/-! ### Texts as values -/

/-- The text that a JSON string stands for, behind its opening quote. -/
def jsonUnescape : List Char → List Char
  | [] => []
  | '\x22' :: _ => []
  | '\\' :: c :: s =>
      (if c = 'n' then '\n' else if c = 'r' then '\r' else if c = 't' then '\t' else c) ::
        jsonUnescape s
  | c :: s => c :: jsonUnescape s

theorem jsonUnescape_jsonChar (s rest : List Char) :
    jsonUnescape (s.flatMap jsonChar ++ '\x22' :: rest) = s := by
  induction s with
  | nil => rfl
  | cons c s ih =>
      rw [List.flatMap_cons, List.append_assoc, jsonChar]
      split_ifs with hquote hslash hline hreturn htab
      · simp [jsonUnescape, ih, hquote]
      · simp [jsonUnescape, ih, hslash]
      · simp [jsonUnescape, ih, hline]
      · simp [jsonUnescape, ih, hreturn]
      · simp [jsonUnescape, ih, htab]
      · rw [List.singleton_append, jsonUnescape.eq_4 _ _ (by simpa using hquote) (by simp [hslash]),
          ih]

/-- `{"multi_valued": true}` -/
def multiText : String := "\x7b\x22multi_valued\x22: true\x7d"

/-- Python, as far as texts and the metadata of rows are written and read
back. -/
def Python.texts : Python :=
  { Python.basic with
    dumps := fun
      | .str s => some (jsonString s)
      | .dict [] => some "\x7b\x7d"
      | .dict [("multi_valued", .bool true)] => some multiText
      | _ => none
    loads := fun text =>
      if text = "\x7b\x7d" then some (.dict [])
      else if text = multiText then some (.dict [("multi_valued", .bool true)])
      else
        match text.toList with
        | '\x22' :: rest => some (.str (String.ofList (jsonUnescape rest)))
        | _ => none }

theorem toList_jsonString (s : String) :
    (jsonString s).toList = '\x22' :: (s.toList.flatMap jsonChar ++ ['\x22']) := by
  simp [jsonString]

theorem loads_jsonString (s : String) : Python.texts.loads (jsonString s) = some (.str s) := by
  have hother : ∀ c text, c ≠ '\x22' → jsonString s ≠ String.ofList (c :: text) := by
    intro c text hc heq
    have := congrArg String.toList heq
    rw [toList_jsonString, String.toList_ofList] at this
    exact hc (List.cons.inj this).1.symm
  have hdict : jsonString s ≠ "\x7b\x7d" := hother '\x7b' ['\x7d'] (by decide)
  have hmulti : jsonString s ≠ multiText := hother '\x7b' (multiText.toList.drop 1) (by decide)
  simp only [Python.texts, if_neg hdict, if_neg hmulti, toList_jsonString, jsonUnescape_jsonChar,
    String.ofList_toList]

theorem roundTrips_texts : Python.texts.RoundTrips where
  dumps_str s := rfl
  dumps_loads text value h := by
    simp only [Python.texts] at h
    split at h
    · cases h
      rfl
    · split at h
      · cases h
        rfl
      · split at h
        · cases h
          rfl
        · cases h
  loads_dumps value text h := by
    simp only [Python.texts] at h
    split at h
    · rename_i s
      obtain rfl := Option.some.inj h
      exact ⟨.str s, loads_jsonString s, rfl, fun s' => Iff.rfl, by simp⟩
    · obtain rfl := Option.some.inj h
      exact ⟨.dict [], rfl, rfl, by simp, by simp⟩
    · obtain rfl := Option.some.inj h
      exact ⟨.dict [("multi_valued", .bool true)], rfl, rfl, by simp, by simp⟩
    · cases h

/-- A port that is recorded where the only value is another one. -/
theorem newValue_port {db : Db}
    (h : (liveRows db ((portRequest "8080" 5).key .texts)).map FactRow.value = ["80"]) :
    NewValue .texts (portRequest "8080" 5) db where
  new := by
    intro r hr
    have hvalue := List.mem_map_of_mem (f := FactRow.value) hr
    rw [h, List.mem_singleton] at hvalue
    rw [hvalue]
    decide
  plain text h := by cases h

theorem exists_factSet {now : Int} {uuid : String} {req : FactRequest} {correction : Bool}
    (h : ((factSet py now uuid req correction).exec db).toOption.isSome = true) :
    ∃ fact recorded, (factSet py now uuid req correction).exec db = .ok (fact, recorded) := by
  cases hexec : (factSet py now uuid req correction).exec db with
  | error e => simp [hexec, Except.toOption] at h
  | ok result => exact ⟨result.1, result.2, rfl⟩

def portSet : List FactOp := [.set 10 "a" (portRequest "80" 0) false]

theorem undo_restores_iff_portSet : ∃ (fact : Fact) (recorded : Db),
    (factSet .texts 12 "b" (portRequest "8080" 5) false).exec (runOps .texts portSet .empty) =
        .ok (fact, recorded) ∧
      (SameReaders .texts (runOps .texts portSet .empty)
          ((factRetract .texts 13 "agent" "api" (some "port") (.str "8080")).apply recorded)
          "agent" "api" "port" ↔
        ReplacesNothing (liveRows (runOps .texts portSet .empty) portKey) false 5 ∧
          (PyValue.str "8080" = .none →
            liveRows (runOps .texts portSet .empty) portKey = [])) := by
  obtain ⟨fact, recorded, h⟩ := exists_factSet
    (show ((factSet .texts 12 "b" (portRequest "8080" 5) false).exec
      (runOps .texts portSet .empty)).toOption.isSome = true by decide)
  exact ⟨fact, recorded, h, (undo_restores_iff roundTrips_texts portSet (newValue_port (by decide))
    h).1 13 (some "port") (.inr rfl)⟩

def portAdded : List FactOp := [.add 10 "a" (portRequest "80" 0)]

/-- The added port ends where the mistake began, and stays so. -/
theorem undo_keeps_added_ended :
    ¬ ∀ (py : Python) (ops : List FactOp) (now later : Int) (uuid : String) (req : FactRequest)
      (fact : Fact) (recorded : Db), py.RoundTrips → NewValue py req (runOps py ops .empty) →
        (factSet py now uuid req false).exec (runOps py ops .empty) = .ok (fact, recorded) →
          SameReaders py (runOps py ops .empty)
            ((factRetract py later req.agentId req.subject (some req.attributeName)
              req.value).apply recorded) req.agentId req.subject req.attributeName := by
  intro h
  obtain ⟨fact, recorded, hset⟩ := exists_factSet
    (show ((factSet .texts 12 "b" (portRequest "8080" 5) false).exec
      (runOps .texts portAdded .empty)).toOption.isSome = true by decide)
  have hnew : NewValue .texts (portRequest "8080" 5) (runOps .texts portAdded .empty) :=
    newValue_port (by decide)
  have hsame := h .texts portAdded 12 13 "b" (portRequest "8080" 5) fact recorded roundTrips_texts
    hnew hset
  have hdb : Chained (runOps .texts portAdded .empty) := chained_run portAdded chained_empty
  obtain ⟨hnothing, -⟩ :=
    (undo_retract_iff roundTrips_texts hdb hnew hset (.inr rfl)).mp hsame
  have hopen : ((liveRows (runOps .texts portAdded .empty) portKey).map
      fun r => (r.isMulti, r.covers 5)) = [(true, true)] := by decide
  obtain ⟨r, hr, heq⟩ := List.mem_map.mp (hopen ▸ List.mem_singleton_self (true, true))
  obtain ⟨hmulti, hcovers⟩ := Prod.mk.inj heq
  have hended := hnothing.added r hr hmulti
  rw [show (portRequest "8080" 5).start = 5 from rfl, hcovers] at hended
  cases hended

end MarkSdk
