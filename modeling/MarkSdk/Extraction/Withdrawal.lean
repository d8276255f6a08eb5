import MarkSdk.Extraction.Apply
import MarkSdk.Facts.ArrivalOrder

/-!
What the withdrawals of a candidate do to the live rows.

A retraction or a correction never brings a row back: the live rows of every
timeline become fewer, and while they stay as many, no interval gets longer
(`Fades`). A withdrawal that meets something to withdraw changes one of these
counts for good (`idle_of_sameCounts`), and one that meets nothing changes
nothing (`withdraw_of_idle`).
-/

namespace MarkSdk

open Lib

variable {py : Python} {db db' db'' : Db}

/-! ### Splitting a subject reads only -/

theorem run_splitPrefixes (known : Nat → String → StoreCalls Bool)
    (hknown : ∀ n s db, ∃ b, (known n s).run db = (.ok b, db)) (c : FactCandidate)
    (words : List String) (size : Nat) (db : Db) :
    ∃ c', (splitPrefixes py known c words size).run db = (.ok c', db) ∧
      c'.retract = c.retract ∧ c'.correction = c.correction ∧ c'.value = c.value := by
  induction size with
  | zero => exact ⟨c, rfl, rfl, rfl, rfl⟩
  | succ size ih =>
      unfold splitPrefixes
      simp only
      split
      · exact ⟨c, rfl, rfl, rfl, rfl⟩
      · split
        · exact ⟨c, rfl, rfl, rfl, rfl⟩
        · obtain ⟨b, hb⟩ := hknown (size + 1) (joinWords (words.take (size + 1))) db
          rw [Calls.run_bind, hb]
          cases b with
          | true => exact ⟨_, rfl, rfl, rfl, rfl⟩
          | false => exact ih

theorem run_splitOnStoreSubjects (py : Python) (m : Moment) (agentId : String)
    (c : FactCandidate) (db : Db) :
    ∃ c', (splitOnStoreSubjects py m agentId c).run db = (.ok c', db) ∧
      c'.retract = c.retract ∧ c'.correction = c.correction ∧ c'.value = c.value := by
  unfold splitOnStoreSubjects
  simp only
  split
  · exact ⟨c, rfl, rfl, rfl, rfl⟩
  · simp only [Calls.run_bind, knownSubject, Calls.run_read]
    split
    · exact ⟨c, rfl, rfl, rfl, rfl⟩
    · unfold splitKnown
      simp only
      split
      · exact ⟨c, rfl, rfl, rfl, rfl⟩
      · exact run_splitPrefixes _ (fun n s db => ⟨_, rfl⟩) c _ _ db

/-- The candidate as `_split_on_store_subjects` returns it. -/
def splitCandidate (py : Python) (m : Moment) (agentId : String) (c : FactCandidate) (db : Db) :
    FactCandidate :=
  match ((splitOnStoreSubjects py m agentId c).run db).1 with
  | .ok c' => c'
  | .error _ => c

theorem run_split (py : Python) (m : Moment) (agentId : String) (c : FactCandidate) (db : Db) :
    (splitOnStoreSubjects py m agentId c).run db = (.ok (splitCandidate py m agentId c db), db) := by
  obtain ⟨c', hrun, -⟩ := run_splitOnStoreSubjects py m agentId c db
  rw [splitCandidate, hrun]

@[simp] theorem splitCandidate_retract (py : Python) (m : Moment) (agentId : String)
    (c : FactCandidate) (db : Db) : (splitCandidate py m agentId c db).retract = c.retract := by
  obtain ⟨c', hrun, hretract, -⟩ := run_splitOnStoreSubjects py m agentId c db
  rw [splitCandidate, hrun]
  exact hretract

@[simp] theorem splitCandidate_correction (py : Python) (m : Moment) (agentId : String)
    (c : FactCandidate) (db : Db) :
    (splitCandidate py m agentId c db).correction = c.correction := by
  obtain ⟨c', hrun, -, hcorrection, -⟩ := run_splitOnStoreSubjects py m agentId c db
  rw [splitCandidate, hrun]
  exact hcorrection

/-! ### Values that the store gives back -/

/-- The JSON codec writes every text, and everything that it reads. -/
structure Python.ReadsBack (py : Python) : Prop where
  dumps_str : ∀ s, (py.dumps (.str s)).isSome
  dumps_loads : ∀ text value, py.loads text = some value → (py.dumps value).isSome

theorem encodeValue_isOk {value : PyValue} (h : (py.dumps value).isSome) :
    ∃ text, encodeValue py value = .ok text := by
  obtain ⟨text, htext⟩ := Option.isSome_iff_exists.mp h
  unfold encodeValue
  simp only [htext]
  cases value with
  | str s =>
      simp only
      split <;> exact ⟨_, rfl⟩
  | _ => exact ⟨_, rfl⟩

theorem encode_decode_isOk (hpy : py.ReadsBack) (stored : String) :
    ∃ text, encodeValue py (decodeValue py stored) = .ok text := by
  unfold decodeValue
  split
  · split
    · rename_i value hloads
      exact encodeValue_isOk (hpy.dumps_loads _ value hloads)
    · exact encodeValue_isOk (hpy.dumps_str _)
  · exact encodeValue_isOk (hpy.dumps_str _)

/-- A value that can be stored can be asked for: `fact_retract` looks at every
row. -/
theorem retractMatches_isOk (hpy : py.ReadsBack) {value : PyValue} {text : String}
    (hvalue : encodeValue py value = .ok text) (r : FactRow) :
    ∃ b, retractMatches py value r = .ok b := by
  obtain ⟨a, ha⟩ := encode_decode_isOk hpy r.value
  unfold retractMatches
  split
  · exact ⟨true, rfl⟩
  · unfold sameValue
    rw [ha, hvalue]
    exact ⟨_, rfl⟩

theorem retractMatches_self (hpy : py.ReadsBack) (r : FactRow) :
    retractMatches py (decodeValue py r.value) r = .ok true := by
  obtain ⟨a, ha⟩ := encode_decode_isOk hpy r.value
  unfold retractMatches
  split
  · rfl
  · unfold sameValue
    rw [ha]
    simp [Bind.bind, Except.bind, Pure.pure, Except.pure]

/-! ### Counting live rows -/

/-- The live rows become fewer; while they stay as many, no interval gets
longer. The ledger and the ids stay. -/
structure Fades (db db' : Db) : Prop where
  live : ∀ k, (liveRows db' k).length ≤ (liveRows db k).length
  opened : (∀ k, (liveRows db' k).length = (liveRows db k).length) →
    ∀ k t, (openRows db' k t).length ≤ (openRows db k t).length
  ledger : db'.factExtractions = db.factExtractions
  ids : db'.factIds = db.factIds

/-- As many live rows in every timeline, and as many of them open at every
time. -/
structure SameCounts (db db' : Db) : Prop where
  live : ∀ k, (liveRows db' k).length = (liveRows db k).length
  opened : ∀ k t, (openRows db' k t).length = (openRows db k t).length

theorem Fades.refl (db : Db) : Fades db db :=
  ⟨fun _ => le_rfl, fun _ _ _ => le_rfl, rfl, rfl⟩

theorem Fades.trans (h : Fades db db') (h' : Fades db' db'') : Fades db db'' where
  live k := (h'.live k).trans (h.live k)
  opened heq k t := by
    have hmid : ∀ k, (liveRows db' k).length = (liveRows db k).length := fun k =>
      le_antisymm (h.live k) ((heq k).ge.trans (h'.live k))
    exact (h'.opened (fun k => (heq k).trans (hmid k).symm) k t).trans (h.opened hmid k t)
  ledger := h'.ledger.trans h.ledger
  ids := h'.ids.trans h.ids

/-- What is counted the same after two steps is counted the same after one. -/
theorem SameCounts.of_trans (hsame : SameCounts db db'') (h : Fades db db') (h' : Fades db' db'') :
    SameCounts db db' ∧ SameCounts db' db'' := by
  have hmid : ∀ k, (liveRows db' k).length = (liveRows db k).length := fun k =>
    le_antisymm (h.live k) ((hsame.live k).ge.trans (h'.live k))
  have hend : ∀ k, (liveRows db'' k).length = (liveRows db' k).length := fun k =>
    (hsame.live k).trans (hmid k).symm
  have hopen : ∀ k t, (openRows db' k t).length = (openRows db k t).length := fun k t =>
    le_antisymm (h.opened hmid k t) ((hsame.opened k t).ge.trans (h'.opened hend k t))
  exact ⟨⟨hmid, hopen⟩, ⟨hend, fun k t => (hsame.opened k t).trans (hopen k t).symm⟩⟩

/-! ### `fact_retract` -/

theorem liveRows_retract (db : Db) (p : FactRow → Bool) (now : Int) (k : TimelineKey) :
    liveRows (db.updateFacts p (FactRow.retract now) (FactRow.retract_id now)) k =
      (liveRows db k).filter fun r => !p r := by
  unfold liveRows
  rw [rows_updateFacts, List.filter_filter]
  induction db.facts.rows with
  | nil => rfl
  | cons r rows ih =>
      rw [List.map_cons, List.filter_cons, List.filter_cons, ih]
      cases hp : p r <;> simp

theorem length_liveRows_rechainAll (ks : List TimelineKey) (db : Db) (k : TimelineKey) :
    (liveRows (db.rechainAll ks) k).length = (liveRows db k).length := by
  induction ks generalizing db with
  | nil => rfl
  | cons k' ks ih =>
      have := ih (db.rechain k')
      rw [liveRows_rechain, List.length_map] at this
      exact this

theorem factIds_rechainAll (ks : List TimelineKey) (db : Db) :
    (db.rechainAll ks).factIds = db.factIds := by
  induction ks generalizing db with
  | nil => rfl
  | cons k ks ih => exact (ih (db.rechain k)).trans (factIds_rechain db k)

theorem factExtractions_rechainAll (ks : List TimelineKey) (db : Db) :
    (db.rechainAll ks).factExtractions = db.factExtractions := by
  induction ks generalizing db with
  | nil => rfl
  | cons k ks ih => exact ih (db.rechain k)

theorem updateFacts_none (db : Db) (p : FactRow → Bool) (f : FactRow → FactRow) (hf)
    (hp : ∀ r ∈ db.facts.rows, p r = false) : db.updateFacts p f hf = db := by
  have hfacts : db.facts.update p f hf = db.facts := by
    apply Table.ext
    rw [Table.rows_update]
    refine (List.map_congr_left fun r hr => ?_).trans (List.map_id _)
    simp [hp r hr]
  rw [Db.updateFacts, hfacts]

section Retract

variable {now : Int} {agentId subject : String} {attributeName : Option String} {value : PyValue}

/-- What `fact_retract` leaves of the live rows. -/
theorem factRetract_liveRows {n : Nat}
    (h : (factRetract py now agentId subject attributeName value).exec db = .ok (n, db')) :
    ∃ rows,
      Txn.filterE (retractMatches py value)
        (db.facts.rows.filter fun r => r.about py agentId subject attributeName && r.live) =
          .ok rows ∧
      (∀ k, (liveRows db' k).length =
        ((liveRows db k).filter fun r => !decide (r.id ∈ rows.map FactRow.id)).length) ∧
      (rows = [] → db' = db) := by
  obtain ⟨rows, hrows, rfl, -⟩ := factRetract_ok py now h
  refine ⟨rows, hrows, fun k => ?_, ?_⟩
  · rw [length_liveRows_rechainAll, liveRows_retract]
  · rintro rfl
    exact updateFacts_none db _ _ _ fun r _ => by simp

theorem fades_factRetract :
    Fades db ((factRetract py now agentId subject attributeName value).apply db) := by
  refine Txn.apply_induction (Fades.refl db) fun n db' hexec => ?_
  obtain ⟨rows, hrows, hlength, hnone⟩ := factRetract_liveRows hexec
  constructor
  · intro k
    rw [hlength k]
    exact List.length_filter_le _ _
  · intro hsame k t
    -- no live row was lost, so no row was selected
    have hempty : rows = [] := by
      rw [List.eq_nil_iff_forall_not_mem]
      intro r hr
      have hmem := List.mem_filter.mp ((Txn.filterE_sublist hrows).subset hr)
      have hlive : r.live = true := by
        have := hmem.2
        simp only [Bool.and_eq_true] at this
        exact this.2
      have hrow : r ∈ liveRows db r.timelineKey := mem_liveRows.mpr ⟨hmem.1, hlive, rfl⟩
      have hkept := List.length_filter_eq_length_iff.mp
        ((hlength r.timelineKey).symm.trans (hsame r.timelineKey)) r hrow
      have hid : r.id ∈ rows.map FactRow.id := List.mem_map_of_mem hr
      simp [hid] at hkept
    rw [hnone hempty]
  · obtain ⟨-, -, rfl, -⟩ := factRetract_ok py now hexec
    exact factExtractions_rechainAll _ _
  · obtain ⟨-, -, rfl, -⟩ := factRetract_ok py now hexec
    rw [factIds_rechainAll, factIds_updateFacts]

theorem filterE_isOk {p : FactRow → Except StoreError Bool} (hp : ∀ r, ∃ b, p r = .ok b)
    (rows : List FactRow) : ∃ kept, Txn.filterE p rows = .ok kept ∧
      ∀ r, r ∈ kept ↔ r ∈ rows ∧ p r = .ok true := by
  choose q hq using hp
  have hfun : p = fun r => (.ok (q r) : Except StoreError Bool) := funext hq
  refine ⟨rows.filter q, by rw [hfun, Txn.filterE_ok], fun r => ?_⟩
  rw [List.mem_filter, hq r]
  simp

/-- `fact_retract` of a value that can be stored does not raise. -/
theorem factRetract_isOk (hpy : py.ReadsBack) (now : Int) (agentId subject : String)
    (attributeName : Option String) {value : PyValue} {text : String}
    (hvalue : encodeValue py value = .ok text) (db : Db) :
    ∃ n db', (factRetract py now agentId subject attributeName value).exec db =
      .ok (n, db') := by
  unfold factRetract
  simp only [Txn.exec_bind, Txn.exec_query, Txn.exec_lift]
  obtain ⟨rows, hrows, -⟩ := filterE_isOk (retractMatches_isOk hpy hvalue)
    (db.facts.rows.filter fun r => r.about py agentId subject attributeName && r.live)
  rw [hrows]
  simp only [Except.map, exec_forEach_retractRow, exec_forEach_rechainFacts, Txn.exec_pure]
  exact ⟨_, _, rfl⟩

/-- `fact_retract` of the value of a live row loses that row. -/
theorem factRetract_loses (hpy : py.ReadsBack) {r : FactRow} (hr : r ∈ db.facts.rows)
    (hlive : r.live = true) (habout : r.about py agentId subject attributeName = true) :
    ¬ SameCounts db ((factRetract py now agentId subject attributeName
      (decodeValue py r.value)).apply db) := by
  obtain ⟨text, hvalue⟩ := encode_decode_isOk hpy r.value
  obtain ⟨n, db', hexec⟩ := factRetract_isOk hpy now agentId subject attributeName hvalue db
  rw [Txn.apply_of_ok hexec]
  intro hsame
  obtain ⟨rows, hrows, hlength, -⟩ := factRetract_liveRows hexec
  obtain ⟨kept, hkept, hmem⟩ := filterE_isOk (retractMatches_isOk hpy hvalue)
    (db.facts.rows.filter fun r => r.about py agentId subject attributeName && r.live)
  rw [hrows, Except.ok.injEq] at hkept
  subst hkept
  have hselected : r ∈ rows := by
    refine (hmem r).mpr ⟨List.mem_filter.mpr ⟨hr, ?_⟩, retractMatches_self hpy r⟩
    simp [hlive, habout]
  have hrow : r ∈ liveRows db r.timelineKey := mem_liveRows.mpr ⟨hr, hlive, rfl⟩
  have hstays := List.length_filter_eq_length_iff.mp
    ((hlength r.timelineKey).symm.trans (hsame.live r.timelineKey)) r hrow
  have hid : r.id ∈ rows.map FactRow.id := List.mem_map_of_mem hselected
  simp [hid] at hstays

end Retract

/-! ### `fact_remove` -/

section Remove

variable {k : TimelineKey} {stamp : Int} {encoded : String}

theorem liveRows_removeAdded (db : Db) (k k' : TimelineKey) (stamp : Int) (encoded : String) :
    liveRows (db.removeAdded k stamp encoded) k' =
      (liveRows db k').map fun r =>
        if removedBy k stamp encoded r then r.endAt (some stamp) else r := by
  unfold liveRows Db.removeAdded
  rw [rows_updateFacts, List.filter_map]
  congr 1
  refine List.filter_congr fun r _ => ?_
  simp only [Function.comp_apply]
  split <;> rfl

/-- The rows open at `t` after the call are among those before. -/
theorem openRows_removeAdded (db : Db) (k k' : TimelineKey) (stamp t : Int) (encoded : String) :
    (openRows (db.removeAdded k stamp encoded) k' t).length =
      ((openRows db k' t).filter fun r =>
        !(removedBy k stamp encoded r && decide (stamp ≤ t))).length := by
  unfold openRows
  rw [liveRows_removeAdded, List.filter_map, List.length_map, List.filter_filter]
  congr 1
  refine List.filter_congr fun r _ => ?_
  simp only [Function.comp_apply]
  cases hremoved : removedBy k stamp encoded r with
  | false => simp
  | true =>
      have hopen : (r.validTo.all fun stop => stamp < stop) = true := by
        simp only [removedBy, Bool.and_eq_true] at hremoved
        exact hremoved.1.1.2
      rw [if_pos rfl, Bool.eq_iff_iff]
      cases hstop : r.validTo with
      | none => simp
      | some stop =>
          simp only [hstop, Option.all_some, decide_eq_true_eq] at hopen
          simp only [FactRow.endAt_validTo, Option.all_some, decide_eq_true_eq, Bool.true_and,
            Bool.and_eq_true, Bool.not_eq_true', decide_eq_false_iff_not]
          omega

theorem fades_removeAdded : Fades db (db.removeAdded k stamp encoded) where
  live k' := by rw [liveRows_removeAdded, List.length_map]
  opened _ k' t := by
    rw [openRows_removeAdded]
    exact List.length_filter_le _ _
  ledger := rfl
  ids := factIds_updateFacts db _ _ _

theorem fades_factRemove {agentId subject attributeName : String} {value : PyValue}
    {validTo : Datetime} :
    Fades db ((factRemove py agentId subject attributeName value validTo).apply db) := by
  refine Txn.apply_induction (Fades.refl db) fun n db' hexec => ?_
  rw [exec_factRemove] at hexec
  simp only at hexec
  split at hexec
  · simp at hexec
  · simp only [Except.ok.injEq, Prod.mk.injEq] at hexec
    exact hexec.2 ▸ fades_removeAdded

/-- Ending a row makes one row fewer open at the end. -/
theorem removeAdded_ends (h : removedRows db k stamp encoded ≠ []) :
    ¬ SameCounts db (db.removeAdded k stamp encoded) := by
  intro hsame
  obtain ⟨r, hr⟩ := List.exists_mem_of_ne_nil _ h
  have hremoved := (mem_removedRows.mp hr).2
  have hopen : r ∈ openRows db k stamp := (List.mem_filter.mp hr).1
  have hlength := hsame.opened k stamp
  rw [openRows_removeAdded] at hlength
  have hstays := List.length_filter_eq_length_iff.mp hlength r hopen
  simp [hremoved] at hstays

theorem removeAdded_none (h : removedRows db k stamp encoded = []) :
    db.removeAdded k stamp encoded = db := by
  refine updateFacts_none db _ _ _ fun r hr => ?_
  rw [Bool.eq_false_iff]
  intro hremoved
  have hmem : r ∈ removedRows db k stamp encoded := mem_removedRows.mpr ⟨hr, hremoved⟩
  rw [h] at hmem
  cases hmem

end Remove

/-! ### The withdrawals of a candidate -/

/-- A current fact is a live row of its slot. -/
theorem mem_factCurrent {now : Int} {agentId subject attributeName : String} {f : Fact}
    (h : f ∈ factCurrent py now db agentId (some subject) (some attributeName)) :
    ∃ r ∈ db.facts.rows, r.live = true ∧ r.about py agentId subject (some attributeName) = true ∧
      f = rowToFact py r := by
  rw [factCurrent_eq] at h
  obtain ⟨r, hr, rfl⟩ := List.mem_map.mp h
  rw [List.mem_insertionSort] at hr
  obtain ⟨hrow, hlive, hkey⟩ := mem_liveRows.mp (List.mem_filter.mp hr).1
  refine ⟨r, hrow, hlive, ?_, rfl⟩
  simp only [FactRow.timelineKey, callKey, TimelineKey.mk.injEq] at hkey
  simp [FactRow.about, hkey]

theorem after_retractCurrent (m : Moment) (agentId : String) (c : FactCandidate)
    (when_ : Datetime) (db : Db) :
    (retractCurrent py m agentId c when_).after db =
      match deniedFact py c (utcText when_)
        (factCurrent py m.current db agentId (some c.subject) (some c.attributeName)) with
      | none => db
      | some fact =>
          if fact.isMulti then
            (factRemove py agentId c.subject c.attributeName fact.value when_).apply db
          else
            (factRetract py (m.retract 0) agentId c.subject (some c.attributeName)
              fact.value).apply db := by
  unfold retractCurrent Calls.after
  simp only [Calls.run_bind, Calls.run_read]
  cases deniedFact py c (utcText when_)
      (factCurrent py m.current db agentId (some c.subject) (some c.attributeName)) with
  | none => rfl
  | some fact =>
      simp only
      split
      · rw [Calls.run_bind, Calls.run_txn]
        cases (factRemove py agentId c.subject c.attributeName fact.value when_).outcome db <;> rfl
      · rw [Calls.run_bind, Calls.run_txn]
        cases (factRetract py (m.retract 0) agentId c.subject (some c.attributeName)
          fact.value).outcome db <;> rfl

/-- The loop of `_withdraw_replaced`. -/
def withdrawEach (py : Python) (m : Moment) (agentId : String) (c : FactCandidate)
    (facts : List (Fact × Nat)) : StoreCalls Unit :=
  Calls.forEach
    (fun p : Fact × Nat => do
      let _ ← Calls.txn
        (factRetract py (m.retract p.2) agentId c.subject (some c.attributeName) p.1.value))
    facts

theorem run_withdrawReplaced (m : Moment) (agentId : String) (c : FactCandidate)
    (when_ : Datetime) (db : Db) :
    (withdrawReplaced py m agentId c when_).run db =
      (withdrawEach py m agentId c (replacedFacts py c (utcText when_)
        (factCurrent py m.current db agentId (some c.subject) (some c.attributeName))).zipIdx).run
          db := by
  unfold withdrawReplaced
  rw [Calls.run_bind, Calls.run_read]
  rfl

theorem fades_withdrawEach (m : Moment) (agentId : String) (c : FactCandidate)
    (facts : List (Fact × Nat)) : Fades db ((withdrawEach py m agentId c facts).after db) := by
  refine Calls.forEach_rel Fades.refl Fades.trans (fun p _ db => ?_) db
  rw [Calls.after_txn_bind]
  exact fades_factRetract

/-- A value that the store gave back is withdrawn, and the loop goes on. -/
theorem run_withdrawEach_cons (hpy : py.ReadsBack) (m : Moment) (agentId : String)
    (c : FactCandidate) (p : Fact × Nat) (facts : List (Fact × Nat)) {text : String}
    (htext : p.1.value = decodeValue py text) (db : Db) :
    (withdrawEach py m agentId c (p :: facts)).run db =
      (withdrawEach py m agentId c facts).run
        ((factRetract py (m.retract p.2) agentId c.subject (some c.attributeName)
          p.1.value).apply db) := by
  obtain ⟨encoded, hvalue⟩ := encode_decode_isOk hpy text
  rw [← htext] at hvalue
  obtain ⟨n, db', hexec⟩ := factRetract_isOk hpy (m.retract p.2) agentId c.subject
    (some c.attributeName) hvalue db
  have hbody : (do let _ ← Calls.txn (factRetract py (m.retract p.2) agentId c.subject
      (some c.attributeName) p.1.value) : StoreCalls Unit).run db = (.ok (), db') := by
    rw [Calls.run_bind, Calls.run_txn, Txn.outcome, hexec, Txn.apply_of_ok hexec]
    rfl
  unfold withdrawEach
  rw [Calls.forEach, Calls.run_bind', hbody, Txn.apply_of_ok hexec]

theorem withdrawEach_isOk (hpy : py.ReadsBack) (m : Moment) (agentId : String) (c : FactCandidate)
    {facts : List (Fact × Nat)} (hfacts : ∀ p ∈ facts, ∃ text, p.1.value = decodeValue py text)
    (db : Db) : ((withdrawEach py m agentId c facts).run db).1 = .ok () := by
  induction facts generalizing db with
  | nil => rfl
  | cons p facts ih =>
      obtain ⟨text, htext⟩ := hfacts p List.mem_cons_self
      rw [run_withdrawEach_cons hpy m agentId c p facts htext]
      exact ih (fun q hq => hfacts q (List.mem_cons_of_mem p hq)) _

/-! ### One call -/

/-- A call with the readings it gets. -/
structure RecordStep where
  call : RecordCall
  moment : Moment

namespace RecordStep

/-- The database after the call. A call that raises leaves what it had
committed by then. -/
def apply (py : Python) (step : RecordStep) (db : Db) : Db :=
  (recordCandidate py step.moment step.call).after db

/-- The candidate with its subject split. -/
def split (py : Python) (step : RecordStep) (db : Db) : FactCandidate :=
  splitCandidate py step.moment step.call.agentId step.call.candidate db

/-- The current facts of the slot of the candidate. -/
def current (py : Python) (step : RecordStep) (db : Db) : List Fact :=
  factCurrent py step.moment.current db step.call.agentId (some (step.split py db).subject)
    (some (step.split py db).attributeName)

def when_ (step : RecordStep) : Int := utcText step.call.validFrom

/-- The candidate finds nothing to withdraw: a retraction no current fact that
it denies, or an added value that has already ended by then, and a correction
no current fact that it replaces. -/
structure Idle (py : Python) (step : RecordStep) (db : Db) : Prop where
  denied : step.call.candidate.retract = true →
    ∀ fact ∈ deniedFact py (step.split py db) step.when_ (step.current py db),
      fact.isMulti = true ∧ ∀ encoded, encodeValue py fact.value = .ok encoded →
        removedRows db (callKey py step.call.agentId (step.split py db).subject
          (step.split py db).attributeName) step.when_ encoded = []
  replaced : step.call.candidate.retract = false → step.call.candidate.correction = true →
    replacedFacts py (step.split py db) step.when_ (step.current py db) = []

/-- The database after what the call withdraws. -/
def withdraw (py : Python) (step : RecordStep) (db : Db) : Db :=
  let c := step.split py db
  if step.call.candidate.retract then
    (retractCurrent py step.moment step.call.agentId c step.call.validFrom).after db
  else if step.call.candidate.correction then
    (withdrawReplaced py step.moment step.call.agentId c step.call.validFrom).after db
  else db

variable {step : RecordStep}

theorem fades_withdraw (step : RecordStep) (db : Db) : Fades db (step.withdraw py db) := by
  unfold withdraw
  simp only
  split
  · rw [after_retractCurrent]
    split
    · exact Fades.refl db
    · split
      · exact fades_factRemove
      · exact fades_factRetract
  · split
    · rw [Calls.after, run_withdrawReplaced]
      exact fades_withdrawEach _ _ _ _
    · exact Fades.refl db

/-- A call that finds nothing to withdraw withdraws nothing. -/
theorem withdraw_of_idle (h : step.Idle py db) : step.withdraw py db = db := by
  unfold withdraw
  simp only
  split
  · rename_i hretract
    rw [after_retractCurrent]
    split
    · rfl
    · rename_i fact hdenied
      obtain ⟨hmulti, hended⟩ := h.denied hretract fact hdenied
      rw [if_pos hmulti]
      refine Txn.apply_induction (P := fun db' => db' = db) rfl fun n db' hexec => ?_
      rw [exec_factRemove] at hexec
      simp only at hexec
      split at hexec
      · simp at hexec
      · rename_i encoded hencode
        simp only [Except.ok.injEq, Prod.mk.injEq] at hexec
        exact hexec.2 ▸ removeAdded_none (hended encoded hencode)
  · rename_i hretract
    split
    · rename_i hcorrection
      have hnone := h.replaced (by simpa using hretract) hcorrection
      unfold current when_ at hnone
      rw [Calls.after, run_withdrawReplaced, hnone]
      rfl
    · rfl

/-- A call that finds something to withdraw leaves other counts. -/
theorem idle_of_sameCounts (hpy : py.ReadsBack) (h : SameCounts db (step.withdraw py db)) :
    step.Idle py db := by
  unfold withdraw at h
  simp only at h
  constructor
  · intro hretract fact hdenied
    rw [if_pos hretract, after_retractCurrent] at h
    have hdenied' : deniedFact py (step.split py db) (utcText step.call.validFrom)
        (factCurrent py step.moment.current db step.call.agentId (some (step.split py db).subject)
          (some (step.split py db).attributeName)) = some fact := hdenied
    rw [hdenied'] at h
    simp only at h
    obtain ⟨r, hr, hlive, habout, rfl⟩ := mem_factCurrent (List.mem_of_find?_eq_some hdenied')
    split at h
    · rename_i hmulti
      refine ⟨hmulti, fun encoded hencode => ?_⟩
      have happly : (factRemove py step.call.agentId (step.split py db).subject
          (step.split py db).attributeName (rowToFact py r).value step.call.validFrom).apply db =
            db.removeAdded (callKey py step.call.agentId (step.split py db).subject
              (step.split py db).attributeName) step.when_ encoded :=
        Txn.apply_of_ok (by rw [exec_factRemove, hencode]; rfl)
      rw [happly] at h
      by_contra hsome
      exact removeAdded_ends hsome h
    · exact absurd h (factRetract_loses hpy hr hlive habout)
  · intro hretract hcorrection
    rw [if_neg (by simp [hretract]), if_pos hcorrection, Calls.after, run_withdrawReplaced] at h
    have hcurrent : ∀ f ∈ replacedFacts py (step.split py db) step.when_ (step.current py db),
        f ∈ step.current py db := fun f hf => (List.mem_filter.mp hf).1
    unfold current when_ at hcurrent ⊢
    cases hfacts : replacedFacts py (step.split py db) (utcText step.call.validFrom)
        (factCurrent py step.moment.current db step.call.agentId (some (step.split py db).subject)
          (some (step.split py db).attributeName)) with
    | nil => rfl
    | cons f facts =>
        -- the first fact alone loses a row, and the rest brings none back
        rw [hfacts] at h hcurrent
        obtain ⟨r, hr, hlive, habout, rfl⟩ := mem_factCurrent (hcurrent f List.mem_cons_self)
        rw [List.zipIdx_cons, run_withdrawEach_cons hpy _ _ _ _ _ rfl] at h
        have hfirst := (h.of_trans fades_factRetract (fades_withdrawEach _ _ _ _)).1
        exact absurd hfirst (factRetract_loses hpy hr hlive habout)

end RecordStep

end MarkSdk
