import MarkSdk.Extraction.Apply
import MarkSdk.Facts.Answers
import MarkSdk.Facts.ReadBack

/-!
Ending a value: `end_value`.

An added value is ended where it is. A set value cannot end without a
successor, so it is withdrawn by value and added again as a closed row. The
withdrawal takes every row of the value, and what is left is chained again: a
value that had been replaced long ago comes back when only the withdrawn rows
followed it (`portGone_brings_back`). `end_value_clean_iff` says when the
call keeps history and revives nothing.
-/

namespace MarkSdk

open Lib

def PyValue.same (py : Python) (a b : PyValue) : Bool :=
  joinWords (pySplit (py.lower (pyStr py a))) == joinWords (pySplit (py.lower (pyStr py b)))

/-- What the calls of one `end_value` read off the clock, and the fresh id of
the row that is added again. -/
structure EndMoment where
  current : Int
  retract : Int
  add : Int
  uuid : String

/-- The arguments of `end_value`. -/
structure EndCall where
  agentId : String
  subject : String
  attributeName : String
  value : PyValue
  when_ : Datetime

namespace EndCall

variable (py : Python) (call : EndCall)

/-- `fact_current` of the subject and attribute. -/
def current (now : Int) (db : Db) : List Fact :=
  factCurrent py now db call.agentId (some call.subject) (some call.attributeName)

/-- The fact that the loop stops at. -/
def endedFact (current : List Fact) : Option Fact :=
  current.find? fun f => f.value.same py call.value && notNewer f (utcText call.when_)

/-- The request that adds a withdrawn value again, from its own start on. -/
def closedRequest (fact : Fact) : FactRequest where
  agentId := call.agentId
  subject := call.subject
  attributeName := call.attributeName
  value := fact.value
  validFrom := .ofInstant fact.validFrom
  sourceFragmentId := fact.sourceFragmentId
  metadata := fact.metadata.assign "ended_by" (.str "statement")

end EndCall

/-- A set value is withdrawn and added again. -/
def addAgain (py : Python) (m : EndMoment) (call : EndCall) (fact : Fact) : StoreCalls Unit := do
  let _ ← Calls.txn
    (factRetract py m.retract call.agentId call.subject (some call.attributeName) fact.value)
  let _ ← Calls.txn (factAdd py m.add m.uuid (call.closedRequest fact))
  pure ()

def endValue (py : Python) (m : EndMoment) (call : EndCall) : StoreCalls Bool := do
  let current ← Calls.read (call.current py m.current)
  match call.endedFact py current with
  | none => return false
  | some fact =>
      if fact.isMulti then pure () else addAgain py m call fact
      let _ ← Calls.txn
        (factRemove py call.agentId call.subject call.attributeName fact.value call.when_)
      return true

/-! ### What the call should do -/

/-- The value as it is stored: values of the same type and content are stored
alike. -/
def Fact.storedValue (py : Python) (fact : Fact) : Except StoreError String :=
  encodeValue py fact.value

namespace EndCall

variable (py : Python) (call : EndCall)

def key : TimelineKey := callKey py call.agentId call.subject call.attributeName

/-- `fact_as_of` of the subject and attribute. -/
def asOf (db : Db) (t : Datetime) : Option Fact :=
  factAsOf py db call.agentId call.subject call.attributeName t

/-- A later start of the value itself, no later than `t`. -/
def StartsAgain (db : Db) (t : Int) : Prop :=
  ∃ r ∈ liveRows db (call.key py), (decodeValue py r.value).same py call.value = true ∧
    utcText call.when_ < r.validFrom ∧ r.validFrom ≤ t

/-- The fact is of a row that had ended before the value was ended. -/
def Replaced (db : Db) (fact : Fact) : Prop :=
  ∃ r ∈ liveRows db (call.key py), r.id = fact.id ∧
    ∃ stop, r.validTo = some stop ∧ stop < utcText call.when_

/-- From the time of the call on, the answers of a reading are neither the
value itself, before a start of its own, nor values that had been replaced. -/
structure Over (db : Db) (reading : Datetime → Option Fact) : Prop where
  ended : ∀ t fact, utcText call.when_ ≤ utcText t → reading t = some fact →
    fact.value.same py call.value = true → call.StartsAgain py db (utcText t)
  revived : ∀ t fact, utcText call.when_ ≤ utcText t → reading t = some fact →
    ¬ call.Replaced py db fact

end EndCall

/-- The value is over, and nothing changed before. -/
structure EndsCleanly (py : Python) (call : EndCall) (db db' : Db) : Prop where
  past : ∀ t, utcText t < utcText call.when_ →
    (call.asOf py db' t).map (Fact.storedValue py) = (call.asOf py db t).map (Fact.storedValue py)
  ended : call.Over py db (call.asOf py db')

/-! ### When it does -/

/-- The rows that the call takes out of the timeline: the open added rows of an
added value, every row that `fact_retract` finds a set value in. -/
def EndCall.takesOut (py : Python) (call : EndCall) (fact : Fact) (r : FactRow) : Bool :=
  if fact.isMulti then
    match encodeValue py fact.value with
    | .ok encoded => removedBy (call.key py) (utcText call.when_) encoded r
    | .error _ => false
  else r.holdsValue py fact.value

/-- What the other rows answer, as they stand before the call: the latest of the
added rows that hold at the time and the last set row to begin by then. -/
def EndCall.restAsOf (py : Python) (call : EndCall) (fact : Fact) (db : Db) (t : Datetime) :
    Option Fact :=
  (restRow db (call.key py) (call.takesOut py fact) (utcText t)).map (rowToFact py)

/-- No answer before the start of a set value rests on a row that is taken
out. From its start on the timeline answers with that value, stored alike, or
with one that begins later and does not rest on such a row. From the end on, of
the other rows only one that has not ended before stands last, and one of the
value itself only once the value has begun again. -/
structure Undisturbed (py : Python) (call : EndCall) (fact : Fact) (db : Db) : Prop where
  earlier : fact.isMulti = false → ∀ t, utcText t < fact.validFrom →
    (call.restAsOf py fact db t).map (Fact.storedValue py) =
      (call.asOf py db t).map (Fact.storedValue py)
  during : fact.isMulti = false → ∀ t, fact.validFrom ≤ utcText t →
    utcText t < utcText call.when_ →
      (call.asOf py db t).map (Fact.storedValue py) =
        if (call.restAsOf py fact db t).any fun other => fact.validFrom < other.validFrom then
          (call.restAsOf py fact db t).map (Fact.storedValue py)
        else some (fact.storedValue py)
  again : ∀ t r, utcText call.when_ ≤ utcText t →
    restRow db (call.key py) (call.takesOut py fact) (utcText t) = some r →
      (decodeValue py r.value).same py call.value = true → call.StartsAgain py db (utcText t)
  lasting : ∀ t r, utcText call.when_ ≤ utcText t →
    restRow db (call.key py) (call.takesOut py fact) (utcText t) = some r →
      ∀ stop, r.validTo = some stop → utcText call.when_ ≤ stop

/-! ### What the call does -/

section Run

variable {py : Python} {m : EndMoment} {call : EndCall} {fact : Fact} {db db' : Db}

theorem endValue_ok (h : (endValue py m call).run db = (.ok true, db')) :
    ∃ fact, call.endedFact py (call.current py m.current db) = some fact ∧
      ∃ between, (if fact.isMulti then between = db
          else (addAgain py m call fact).run db = (.ok (), between)) ∧
        ∃ n, (factRemove py call.agentId call.subject call.attributeName fact.value
          call.when_).exec between = .ok (n, db') := by
  unfold endValue at h
  rw [Calls.run_bind, Calls.run_read] at h
  simp only at h
  cases hpicked : call.endedFact py (call.current py m.current db) with
  | none => simp [hpicked] at h
  | some fact =>
      simp only [hpicked] at h
      cases hmulti : fact.isMulti with
      | true =>
          rw [if_pos hmulti] at h
          obtain ⟨n, after, hremove, h⟩ := Calls.run_bind_eq_ok.mp h
          obtain ⟨-, rfl⟩ := Prod.mk.inj h
          exact ⟨fact, rfl, db, by simp [hmulti], n, Calls.run_txn_eq_ok.mp hremove⟩
      | false =>
          rw [if_neg (by simp [hmulti])] at h
          obtain ⟨u, between, hagain, h⟩ := Calls.run_bind_eq_ok.mp h
          obtain ⟨n, after, hremove, h⟩ := Calls.run_bind_eq_ok.mp h
          obtain ⟨-, rfl⟩ := Prod.mk.inj h
          exact ⟨fact, rfl, between, by simp [hmulti, hagain], n, Calls.run_txn_eq_ok.mp hremove⟩

/-- The ended fact is one of a live row, and it has begun by then. -/
theorem of_endedFact {now : Int}
    (h : call.endedFact py (call.current py now db) = some fact) :
    fact.validFrom ≤ utcText call.when_ ∧
      ∃ r ∈ liveRows db (call.key py), fact = rowToFact py r := by
  have hbegun := List.find?_some h
  obtain ⟨r, hrow, hlive, habout, hfact⟩ := mem_factCurrent (List.mem_of_find?_eq_some h)
  constructor
  · simp only [notNewer, Bool.and_eq_true, decide_eq_true_eq] at hbegun
    exact hbegun.2
  · refine ⟨r, mem_liveRows.mpr ⟨hrow, hlive, ?_⟩, hfact⟩
    simp only [FactRow.about, Option.all_some, Bool.and_eq_true, decide_eq_true_eq] at habout
    simp [FactRow.timelineKey, EndCall.key, callKey, habout]

theorem about_of_mem {r : FactRow} (h : r ∈ liveRows db (call.key py)) :
    r.about py call.agentId call.subject (some call.attributeName) = true := by
  have hkey := (mem_liveRows.mp h).2.2
  simp only [FactRow.timelineKey, EndCall.key, callKey, TimelineKey.mk.injEq] at hkey
  simp [FactRow.about, hkey]

/-- What is left when an added value is ended. -/
theorem removeAdded_of_exec {encoded : String} {n : Nat}
    (hencode : encodeValue py fact.value = .ok encoded)
    (h : (factRemove py call.agentId call.subject call.attributeName fact.value
      call.when_).exec db = .ok (n, db')) :
    db' = db.removeAdded (call.key py) (utcText call.when_) encoded := by
  rw [exec_factRemove, hencode] at h
  exact (Prod.mk.inj (Except.ok.inj h)).2.symm

end Run

section SetValue

variable {py : Python} {m : EndMoment} {call : EndCall} {fact : Fact} {db db' : Db}

/-- A set value that is ended leaves the rest of its timeline, and a closed row
of the value. -/
theorem liveRows_endSet (hpy : py.RoundTrips) (hjson : py.LoadsJson)
    (hdb : ChainedAt db (call.key py)) {r : FactRow} (hfact : fact = rowToFact py r)
    (hset : fact.isMulti = false) {between : Db} {n : Nat}
    (hagain : (addAgain py m call fact).run db = (.ok (), between))
    (hremove : (factRemove py call.agentId call.subject call.attributeName fact.value
      call.when_).exec between = .ok (n, db')) :
    ∃ closed : FactRow,
      liveRows db' (call.key py) =
          liveRows (db.without (call.key py) (call.takesOut py fact)) (call.key py) ++ [closed] ∧
        closed.validFrom = fact.validFrom ∧ closed.validTo = some (utcText call.when_) ∧
        encodeValue py (decodeValue py closed.value) = fact.storedValue py := by
  obtain ⟨k, withdrawn, hretract, hagain⟩ := Calls.run_bind_eq_ok.mp hagain
  obtain ⟨added, between', hadd, hagain⟩ := Calls.run_bind_eq_ok.mp hagain
  obtain ⟨-, rfl⟩ := Prod.mk.inj hagain
  have hgone : call.takesOut py fact = FactRow.holdsValue py fact.value := by
    funext s
    rw [EndCall.takesOut, if_neg (by simp [hset])]
  have hrest : liveRows withdrawn (call.key py) =
      liveRows (db.without (call.key py) (call.takesOut py fact)) (call.key py) := by
    rw [hgone]
    exact (withdrawn_factRetract hdb (Calls.run_txn_eq_ok.mp hretract)
      fun s hs => about_of_mem hs).liveRows_eq
  obtain ⟨encoded, hencode⟩ := encode_decode_isOk hpy.toReadsBack r.value
  have hvalue : encodeValue py fact.value = .ok encoded := hfact ▸ hencode
  have hplain : ∀ text, fact.value = .other text → isTyped text = false := by
    intro text hother
    rw [hfact] at hother
    exact absurd hother (decodeValue_ne_other hjson r.value text)
  -- no row of the rest is stored like the value
  have hnone : ∀ s ∈ liveRows withdrawn (call.key py), s.value ≠ encoded := by
    intro s hs hsame
    rw [hrest, hgone] at hs
    obtain ⟨s', -, hstays, stop, rfl⟩ := mem_liveRows_without hs
    have hholds := (holdsValue_of_encode hpy hplain hvalue (r := s') hsame).2
    rw [hstays] at hholds
    cases hholds
  have hbetween : liveRows between' (call.key py) = liveRows withdrawn (call.key py) ++ _ :=
    liveRows_factAdd hvalue hnone (Calls.run_txn_eq_ok.mp hadd)
  have hends : liveRows (between'.removeAdded (call.key py) (utcText call.when_) encoded)
      (call.key py) = _ :=
    liveRows_remove_last hbetween hnone rfl
      (isMulti_row_add py m.add m.uuid encoded (call.closedRequest fact) _) rfl
  rw [hrest] at hends
  refine ⟨((call.closedRequest fact).row py m.add m.uuid encoded
    (addMetadata (call.closedRequest fact).metadata)).endAt (some (utcText call.when_)), ?_,
    utcText_ofInstant _, rfl, ?_⟩
  · rw [removeAdded_of_exec hvalue hremove]
    exact hends
  · exact (encode_decode_encode hpy hplain hvalue).trans hvalue.symm

end SetValue

/-! ### Answers after the call -/

section Answers

variable {py : Python} {call : EndCall} {fact : Fact} {db db' : Db}

theorem asOf_eq (t : Datetime) :
    call.asOf py db t = (asOfRow db (call.key py) (utcText t)).map (rowToFact py) := rfl

/-- Answers that are the same but for their ends. -/
def SameAnswer (o o' : Option Fact) : Prop :=
  o.map (fun fact => { fact with validTo := none }) =
    o'.map fun fact => { fact with validTo := none }

theorem SameAnswer.map {β : Type} {o o' : Option Fact} (h : SameAnswer o o') {g : Fact → β}
    (hg : ∀ fact : Fact, g { fact with validTo := none } = g fact) : o.map g = o'.map g := by
  have hmap := congrArg (Option.map g) h
  simp only [Option.map_map, Function.comp_def, hg] at hmap
  exact hmap

theorem SameAnswer.any {o o' : Option Fact} (h : SameAnswer o o') {p : Fact → Bool}
    (hp : ∀ fact : Fact, p { fact with validTo := none } = p fact) : o.any p = o'.any p := by
  have hmap : o.map p = o'.map p := h.map hp
  cases o <;> cases o' <;> simp_all

/-- Readings that agree from the time of the call on are over alike. -/
theorem EndCall.Over.congr {reading reading' : Datetime → Option Fact}
    (h : call.Over py db reading)
    (hsame : ∀ t, utcText call.when_ ≤ utcText t → SameAnswer (reading' t) (reading t)) :
    call.Over py db reading' := by
  have hother : ∀ t fact, utcText call.when_ ≤ utcText t → reading' t = some fact →
      ∃ fact', reading t = some fact' ∧ fact'.value = fact.value ∧ fact'.id = fact.id := by
    intro t fact ht hfact
    have hvalues := (hsame t ht).map (g := fun fact => (fact.value, fact.id)) fun _ => rfl
    rw [hfact] at hvalues
    obtain ⟨fact', hfact', hpair⟩ := Option.map_eq_some_iff.mp hvalues.symm
    obtain ⟨hvalue, hid⟩ := Prod.mk.inj hpair
    exact ⟨fact', hfact', hvalue, hid⟩
  constructor
  · intro t fact ht hfact hself
    obtain ⟨fact', hfact', hvalue, -⟩ := hother t fact ht hfact
    exact h.ended t fact' ht hfact' (hvalue ▸ hself)
  · rintro t fact ht hfact ⟨r, hr, hid, hended⟩
    obtain ⟨fact', hfact', -, hid'⟩ := hother t fact ht hfact
    exact h.revived t fact' ht hfact' ⟨r, hr, hid.trans hid'.symm, hended⟩

/-- The other rows are over with the value. -/
theorem over_restAsOf_iff : call.Over py db (call.restAsOf py fact db) ↔
    (∀ t r, utcText call.when_ ≤ utcText t →
      restRow db (call.key py) (call.takesOut py fact) (utcText t) = some r →
        (decodeValue py r.value).same py call.value = true → call.StartsAgain py db (utcText t)) ∧
    ∀ t r, utcText call.when_ ≤ utcText t →
      restRow db (call.key py) (call.takesOut py fact) (utcText t) = some r →
        ∀ stop, r.validTo = some stop → utcText call.when_ ≤ stop := by
  constructor
  · intro hover
    refine ⟨fun t r ht hr hself => ?_, fun t r ht hr stop hstop => ?_⟩
    · exact hover.ended t (rowToFact py r) ht (congrArg (Option.map (rowToFact py)) hr) hself
    · by_contra hended
      exact hover.revived t (rowToFact py r) ht (congrArg (Option.map (rowToFact py)) hr)
        ⟨r, mem_of_restRow hr, rfl, stop, hstop, by omega⟩
  · rintro ⟨hagain, hlasting⟩
    constructor
    · intro t fact' ht hfact hself
      obtain ⟨r, hr, rfl⟩ := Option.map_eq_some_iff.mp hfact
      exact hagain t r ht hr hself
    · rintro t fact' ht hfact ⟨r', hr', hid, stop, hstop, hended⟩
      obtain ⟨r, hr, rfl⟩ := Option.map_eq_some_iff.mp hfact
      obtain rfl := db.fact_eq_of_id (mem_liveRows.mp hr').1
        (mem_liveRows.mp (mem_of_restRow hr)).1 hid
      have := hlasting t r' ht hr stop hstop
      omega

/-- `fact_as_of` when those rows are gone and the others are chained again. -/
def EndCall.leftAsOf (py : Python) (call : EndCall) (fact : Fact) (db : Db) (t : Datetime) :
    Option Fact :=
  call.asOf py (db.without (call.key py) (call.takesOut py fact)) t

theorem leftAsOf_same (t : Datetime) :
    SameAnswer (call.leftAsOf py fact db t) (call.restAsOf py fact db t) := by
  obtain ⟨f, hf, hleft⟩ := asOfRow_without db (call.key py) (call.takesOut py fact)
  rw [SameAnswer, EndCall.leftAsOf, EndCall.restAsOf, asOf_eq, hleft, Option.map_map,
    Option.map_map, Option.map_map]
  congr 1
  funext r
  obtain ⟨stop, hstop⟩ := hf r
  simp only [Function.comp_apply, hstop]
  rfl

/-- The end of an added value: the past keeps its values, and what follows is
the rest of the timeline. -/
theorem asOf_endAdded (hdb : ChainedAt db (call.key py)) {encoded : String}
    (hmulti : fact.isMulti = true) (hencode : encodeValue py fact.value = .ok encoded)
    (hdb' : db' = db.removeAdded (call.key py) (utcText call.when_) encoded) (t : Datetime) :
    (utcText t < utcText call.when_ → (call.asOf py db' t).map (Fact.storedValue py) =
      (call.asOf py db t).map (Fact.storedValue py)) ∧
    (utcText call.when_ ≤ utcText t → call.asOf py db' t = call.leftAsOf py fact db t) := by
  subst hdb'
  constructor
  · intro ht
    rw [asOf_eq, asOf_eq, asOfRow_removeAdded_before ht, Option.map_map, Option.map_map,
      Option.map_map]
    congr 1
    funext r
    simp only [Function.comp_apply]
    split <;> rfl
  · intro ht
    have hgone : call.takesOut py fact =
        removedBy (call.key py) (utcText call.when_) encoded := by
      funext r
      rw [EndCall.takesOut, if_pos hmulti, hencode]
    rw [EndCall.leftAsOf, hgone, asOf_eq, asOf_eq, asOfRow_removeAdded_after hdb ht]

/-- The end of a set value: the rest of the timeline, with the closed row in
its place. -/
theorem asOf_endSet {closed : FactRow}
    (hrows : liveRows db' (call.key py) =
      liveRows (db.without (call.key py) (call.takesOut py fact)) (call.key py) ++ [closed])
    (hstart : closed.validFrom = fact.validFrom)
    (hstop : closed.validTo = some (utcText call.when_)) (t : Datetime) :
    (fact.validFrom ≤ utcText t ∧ utcText t < utcText call.when_ →
      call.asOf py db' t =
        if (call.leftAsOf py fact db t).any fun other => fact.validFrom < other.validFrom then
          call.leftAsOf py fact db t
        else some (rowToFact py closed)) ∧
    (¬ (fact.validFrom ≤ utcText t ∧ utcText t < utcText call.when_) →
      call.asOf py db' t = call.leftAsOf py fact db t) := by
  have hcovers : closed.covers (utcText t) = true ↔
      fact.validFrom ≤ utcText t ∧ utcText t < utcText call.when_ := by
    refine covers_iff.trans ?_
    rw [hstart, hstop]
    simp
  rw [EndCall.leftAsOf, asOf_eq, asOf_eq, asOfRow_addRow hrows]
  constructor
  · intro hheld
    rw [if_pos (hcovers.mpr hheld)]
    cases asOfRow (db.without (call.key py) (call.takesOut py fact)) (call.key py) (utcText t) with
    | none => simp
    | some r =>
        by_cases hle : r.validFrom ≤ fact.validFrom
        · simp [hstart, hle, rowToFact]
        · simp [hstart, hle, rowToFact]
  · intro hout
    rw [if_neg (fun h => hout (hcovers.mp h))]

end Answers

/-- After every run, ending a value keeps the history and revives nothing
exactly when the rest of its timeline leaves it undisturbed. -/
theorem end_value_clean_iff {py : Python} (hpy : py.RoundTrips) (hjson : py.LoadsJson)
    (ops : List FactOp) {m : EndMoment} {call : EndCall} {db' : Db}
    (h : (endValue py m call).run (runOps py ops .empty) = (.ok true, db')) :
    ∃ fact, call.endedFact py (call.current py m.current (runOps py ops .empty)) = some fact ∧
      (EndsCleanly py call (runOps py ops .empty) db' ↔
        Undisturbed py call fact (runOps py ops .empty)) := by
  have hrun : Chained (runOps py ops .empty) := chained_run ops chained_empty
  have hdb := hrun.chainedAt (call.key py)
  obtain ⟨fact, hpicked, between, hbetween, n, hremove⟩ := endValue_ok h
  obtain ⟨hbegun, r, -, hfact⟩ := of_endedFact hpicked
  refine ⟨fact, hpicked, ?_⟩
  cases hmulti : fact.isMulti with
  | true =>
      rw [if_pos hmulti] at hbetween
      subst hbetween
      obtain ⟨encoded, hencode⟩ := encode_decode_isOk hpy.toReadsBack r.value
      have hvalue : encodeValue py fact.value = .ok encoded := hfact ▸ hencode
      have hafter := asOf_endAdded hdb hmulti hvalue (removeAdded_of_exec hvalue hremove)
      have hlater : ∀ t, utcText call.when_ ≤ utcText t →
          SameAnswer (call.asOf py db' t) (call.restAsOf py fact (runOps py ops .empty) t) := by
        intro t ht
        rw [(hafter t).2 ht]
        exact leftAsOf_same t
      constructor
      · intro hclean
        obtain ⟨hagain, hlasting⟩ := over_restAsOf_iff.mp
          (hclean.ended.congr fun t ht => Eq.symm (hlater t ht))
        exact ⟨fun hset => absurd (hmulti.symm.trans hset) (by decide),
          fun hset => absurd (hmulti.symm.trans hset) (by decide), hagain, hlasting⟩
      · intro hrest
        exact ⟨fun t ht => (hafter t).1 ht,
          (over_restAsOf_iff.mpr ⟨hrest.again, hrest.lasting⟩).congr hlater⟩
  | false =>
      rw [if_neg (by simp [hmulti])] at hbetween
      obtain ⟨closed, hrows, hstart, hstop, hclosed⟩ :=
        liveRows_endSet hpy hjson hdb hfact hmulti hbetween hremove
      have hafter := asOf_endSet hrows hstart hstop
      have hlater : ∀ t, utcText call.when_ ≤ utcText t →
          SameAnswer (call.asOf py db' t) (call.restAsOf py fact (runOps py ops .empty) t) := by
        intro t ht
        rw [(hafter t).2 fun hheld => absurd hheld.2 (by omega)]
        exact leftAsOf_same t
      have hstored : ∀ t, (call.leftAsOf py fact (runOps py ops .empty) t).map
          (Fact.storedValue py) =
            (call.restAsOf py fact (runOps py ops .empty) t).map (Fact.storedValue py) :=
        fun t => (leftAsOf_same t).map fun _ => rfl
      -- the values while the ended one held
      have hheld : ∀ t, fact.validFrom ≤ utcText t → utcText t < utcText call.when_ →
          (call.asOf py db' t).map (Fact.storedValue py) =
            if (call.restAsOf py fact (runOps py ops .empty) t).any
                fun other => fact.validFrom < other.validFrom then
              (call.restAsOf py fact (runOps py ops .empty) t).map (Fact.storedValue py)
            else some (fact.storedValue py) := by
        intro t hfrom hto
        have hlater : (call.leftAsOf py fact (runOps py ops .empty) t).any
            (fun other => fact.validFrom < other.validFrom) =
              (call.restAsOf py fact (runOps py ops .empty) t).any
                fun other => fact.validFrom < other.validFrom :=
          (leftAsOf_same t).any fun _ => rfl
        rw [(hafter t).1 ⟨hfrom, hto⟩, hlater]
        split
        · exact hstored t
        · exact congrArg some hclosed
      have hbefore : ∀ t, utcText t < fact.validFrom →
          (call.asOf py db' t).map (Fact.storedValue py) =
            (call.restAsOf py fact (runOps py ops .empty) t).map (Fact.storedValue py) := by
        intro t ht
        rw [(hafter t).2 fun hheld => absurd hheld.1 (by omega)]
        exact hstored t
      constructor
      · intro hclean
        obtain ⟨hagain, hlasting⟩ := over_restAsOf_iff.mp
          (hclean.ended.congr fun t ht => Eq.symm (hlater t ht))
        refine ⟨fun _ t ht => ?_, fun _ t hfrom hto => ?_, hagain, hlasting⟩
        · rw [← hbefore t ht]
          exact hclean.past t (by omega)
        · rw [← hheld t hfrom hto]
          exact (hclean.past t hto).symm
      · intro hrest
        refine ⟨fun t ht => ?_,
          (over_restAsOf_iff.mpr ⟨hrest.again, hrest.lasting⟩).congr hlater⟩
        by_cases hfrom : fact.validFrom ≤ utcText t
        · rw [hheld t hfrom ht]
          exact (hrest.during hmulti t hfrom ht).symm
        · rw [hbefore t (by omega)]
          exact hrest.earlier hmulti t (by omega)

/-! ### One port -/

/-- The port is 80 from 0 on and 8080 from 10 on. -/
def portMoved : List FactOp :=
  [.set 10 "a" (portRequest "80" 0) false, .set 11 "b" (portRequest "8080" 10) false]

/-- The service has no port any more from 20 on. -/
def portGone : EndCall := ⟨"agent", "api", "port", .str "8080", .ofInstant 20⟩

/-- The store after the call. -/
def afterPortGone (py : Python) (ops : List FactOp) : Db :=
  ((endValue py ⟨12, 20, 20, "c"⟩ portGone).run (runOps py ops .empty)).2

theorem ok_of_toOption {ε α : Type} {r : Except ε α} {a : α} (h : r.toOption = some a) :
    r = .ok a := by
  cases r with
  | error e => cases h
  | ok b => exact congrArg Except.ok (Option.some.inj h)

/-- The port from before comes back, ten seconds after it was replaced. -/
theorem portGone_brings_back :
    ((endValue .basic ⟨12, 20, 20, "c"⟩ portGone).run (runOps .basic portMoved .empty)).1 =
        .ok true ∧
      (asOfRow (runOps .basic portMoved .empty) portKey 30).map FactRow.value = some "8080" ∧
      (asOfRow (afterPortGone .basic portMoved) portKey 30).map FactRow.value = some "80" ∧
      ¬ ∀ (py : Python) (ops : List FactOp) (m : EndMoment) (call : EndCall) (db' : Db),
        (endValue py m call).run (runOps py ops .empty) = (.ok true, db') →
          EndsCleanly py call (runOps py ops .empty) db' := by
  have hrun : ((endValue .basic ⟨12, 20, 20, "c"⟩ portGone).run
      (runOps .basic portMoved .empty)).1 = .ok true := ok_of_toOption (by decide +kernel)
  refine ⟨hrun, by decide +kernel, by decide +kernel, fun h => ?_⟩
  have hclean := h .basic portMoved ⟨12, 20, 20, "c"⟩ portGone (afterPortGone .basic portMoved)
    (Prod.ext hrun rfl)
  -- the row of the first port answers again
  have hanswer : (asOfRow (afterPortGone .basic portMoved) portKey 30).map FactRow.id =
      some "a" := by decide +kernel
  obtain ⟨row, hrow, hid⟩ := Option.map_eq_some_iff.mp hanswer
  have hended : ((liveRows (runOps .basic portMoved .empty) portKey).map
      fun r => (r.id, r.validTo)) = [("a", some 10), ("b", none)] := by decide +kernel
  obtain ⟨former, hformer, heq⟩ := List.mem_map.mp
    (hended ▸ List.mem_cons_self : ("a", some (10 : Int)) ∈ _)
  obtain ⟨hformerId, hstop⟩ := Prod.mk.inj heq
  refine hclean.ended.revived (.ofInstant 30) (rowToFact .basic row) (by decide)
    (congrArg (Option.map (rowToFact .basic)) hrow) ⟨former, hformer, ?_, 10, hstop, by decide⟩
  exact hformerId.trans hid.symm

/-- The metadata of a set row, and of the closed row that takes its place. -/
def closedTable : List (String × Metadata) :=
  [("\x7b\x7d", []),
    ("\x7b\x22ended_by\x22: \x22statement\x22, \x22multi_valued\x22: true\x7d",
      [("ended_by", .str "statement"), ("multi_valued", .bool true)])]

theorem canonical_closedTable : Canonical closedTable where
  nodup := by decide
  braces := by decide
  written := by
    have hself : ∀ e ∈ closedTable, jsonText (.dict e.2) = some e.1 := by decide +kernel
    exact fun e he => ⟨e, he, hself e he, hself e he⟩

def portAlone : List FactOp := [.set 11 "b" (portRequest "8080" 10) false]

theorem end_value_clean_iff_portAlone :
    ∃ fact, portGone.endedFact (.reading closedTable) (portGone.current (.reading closedTable) 12
        (runOps (.reading closedTable) portAlone .empty)) = some fact ∧
      (EndsCleanly (.reading closedTable) portGone
          (runOps (.reading closedTable) portAlone .empty)
          (afterPortGone (.reading closedTable) portAlone) ↔
        Undisturbed (.reading closedTable) portGone fact
          (runOps (.reading closedTable) portAlone .empty)) := by
  have hrun : ((endValue (.reading closedTable) ⟨12, 20, 20, "c"⟩ portGone).run
      (runOps (.reading closedTable) portAlone .empty)).1 = .ok true :=
    ok_of_toOption (by decide +kernel)
  exact end_value_clean_iff canonical_closedTable.roundTrips loadsJson_reading portAlone
    (m := ⟨12, 20, 20, "c"⟩) (Prod.ext hrun rfl)

end MarkSdk
