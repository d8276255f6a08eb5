import MarkSdk.Facts.Undo

/-!
Which rows `fact_retract` withdraws and which `fact_delete` removes.

Both look for rows of one subject; chaining afterwards gives rows new ends
and changes nothing else in them. `fact_delete` finds a value by its stored
text, `fact_retract` by the value that the row is read back as, so
`facts.delete` misses rows that `facts.retract` withdraws
(`delete_covers_retract_iff`).
-/

namespace MarkSdk

open Lib

def Db.LiveFact (db : Db) (id : String) : Prop :=
  ∃ r ∈ db.facts.rows, r.id = id ∧ r.live = true

def Db.HasFact (db : Db) (id : String) : Prop := ∃ r ∈ db.facts.rows, r.id = id

section Liveness

variable {py : Python} {now : Int} {agentId subject : String} {attributeName : Option String}
  {value : PyValue} {db db' : Db}

/-- Chaining changes the ends alone. -/
theorem map_rows_rechainAll {β : Type} {g : FactRow → β} (hg : ∀ r stop, g (r.endAt stop) = g r)
    (ks : List TimelineKey) (db : Db) :
    (db.rechainAll ks).facts.rows.map g = db.facts.rows.map g := by
  induction ks generalizing db with
  | nil => rfl
  | cons k ks ih =>
      show ((db.rechain k).rechainAll ks).facts.rows.map g = _
      rw [ih, rows_rechain, List.map_map]
      exact List.map_congr_left fun r _ => hg r _

theorem liveFact_rechainAll (ks : List TimelineKey) (db : Db) (id : String) :
    (db.rechainAll ks).LiveFact id ↔ db.LiveFact id := by
  have hiff : ∀ db : Db, db.LiveFact id ↔ (id, true) ∈ db.facts.rows.map fun r => (r.id, r.live) := by
    intro db
    simp [Db.LiveFact]
  rw [hiff, hiff, map_rows_rechainAll (fun _ _ => rfl)]

theorem hasFact_rechainAll (ks : List TimelineKey) (db : Db) (id : String) :
    (db.rechainAll ks).HasFact id ↔ db.HasFact id := by
  have hiff : ∀ db : Db, db.HasFact id ↔ id ∈ db.facts.rows.map FactRow.id := by
    intro db
    simp [Db.HasFact]
  rw [hiff, hiff, map_rows_rechainAll (fun _ _ => rfl)]

theorem holdsValue_iff {r : FactRow} :
    r.holdsValue py value = true ↔ retractMatches py value r = .ok true := by
  unfold FactRow.holdsValue
  cases h : retractMatches py value r with
  | error e => simp
  | ok found => simp

/-- `fact_retract` withdraws the live rows of the subject that hold the value. -/
theorem liveFact_factRetract {n : Nat}
    (h : (factRetract py now agentId subject attributeName value).exec db = .ok (n, db'))
    {r : FactRow} (hr : r ∈ db.facts.rows) (hlive : r.live = true) :
    db'.LiveFact r.id ↔
      ¬ (r.about py agentId subject attributeName = true ∧ r.holdsValue py value = true) := by
  obtain ⟨rows, hrows, rfl, -⟩ := factRetract_ok py now h
  have hkept := Txn.filterE_eq_filter (q := FactRow.holdsValue py value)
    (fun r keep hr => by rw [FactRow.holdsValue, hr]) hrows
  have hselected : r.id ∈ rows.map FactRow.id ↔
      r.about py agentId subject attributeName = true ∧ r.holdsValue py value = true := by
    rw [mem_ids_iff db (fun s hs => (List.mem_filter.mp
      ((Txn.filterE_sublist hrows).subset hs)).1) hr, hkept, List.mem_filter, List.mem_filter]
    simp [hr, hlive]
  rw [liveFact_rechainAll, ← hselected]
  constructor
  · rintro ⟨s, hs, hid, hslive⟩ hin
    obtain ⟨s', hs', rfl⟩ := List.mem_map.mp hs
    by_cases hsel : s'.id ∈ rows.map FactRow.id
    · simp [hsel] at hslive
    · simp [hsel] at hid
      rw [hid] at hsel
      exact hsel hin
  · intro hout
    exact ⟨r, List.mem_map.mpr ⟨r, hr, by simp [hout]⟩, rfl, hlive⟩

/-- `fact_delete` removes the rows of the subject that match. -/
theorem hasFact_factDelete {r : FactRow} (hr : r ∈ db.facts.rows) :
    ((factDelete py agentId subject attributeName value).apply db).HasFact r.id ↔
      deletedBy py agentId subject attributeName value r = false := by
  rw [Txn.apply_of_ok (exec_factDelete py agentId subject attributeName value db),
    hasFact_rechainAll]
  constructor
  · rintro ⟨s, hs, hid⟩
    obtain ⟨hs, hkept⟩ := List.mem_filter.mp hs
    rw [← db.fact_eq_of_id hs hr hid]
    simpa using hkept
  · intro hkept
    exact ⟨r, List.mem_filter.mpr ⟨hr, by simp [hkept]⟩, rfl⟩

end Liveness

/-! ### Deleting by value -/

/-- `None if value is None else str(value)` -/
def printedValue (py : Python) : PyValue → PyValue
  | .none => .none
  | value => .str (pyStr py value)

/-- `FactsView.delete`: the value is rendered before the store sees it. -/
def viewDelete (py : Python) (agentId subject : String) (attributeName : Option String)
    (value : PyValue) : Writing Nat :=
  factDelete py agentId subject attributeName (printedValue py value)

/-- The row holds the value, and its stored text is not how the value prints:
it is a typed value, or the JSON text of the value. -/
def FactRow.Unprinted (py : Python) (value : PyValue) (r : FactRow) : Prop :=
  value ≠ .none ∧
    ((isTyped r.value = true ∧ r.holdsValue py value = true ∧ r.value ≠ pyStr py value) ∨
      (isTyped r.value = false ∧ r.value = valueText py value ∧
        valueText py value ≠ pyStr py value))

section Delete

variable {py : Python} {value : PyValue} {r : FactRow}

theorem holdsValue_of_some (hvalue : value ≠ .none) :
    r.holdsValue py value = true ↔ sameValue py (decodeValue py r.value) value = .ok true := by
  rw [holdsValue_iff]
  unfold retractMatches
  cases value with
  | none => exact absurd rfl hvalue
  | _ => exact Iff.rfl

/-- Only a value that can be stored is held by a row. -/
theorem encodeValue_of_holdsValue (hvalue : value ≠ .none) (h : r.holdsValue py value = true) :
    ∃ text text', encodeValue py (decodeValue py r.value) = .ok text' ∧
      encodeValue py value = .ok text ∧
        (text' = text ∨ valueText py (decodeValue py r.value) = valueText py value) := by
  have hsame := (holdsValue_of_some hvalue).mp h
  unfold sameValue at hsame
  obtain ⟨text', htext', hsame⟩ := Txn.exists_of_bind_eq_ok hsame
  obtain ⟨text, htext, hsame⟩ := Txn.exists_of_bind_eq_ok hsame
  refine ⟨text, text', htext', htext, ?_⟩
  have hor : (text' == text || valueText py (decodeValue py r.value) == valueText py value) = true :=
    Except.ok.inj hsame
  simpa using hor

/-- What is not stored as a typed value is stored as it prints. -/
theorem pyStr_of_encodeValue {text : String} (h : encodeValue py value = .ok text)
    (hplain : isTyped text = false) : text = pyStr py value := by
  have hmarked {json : String}
      (hmark : (.ok (typedMarker ++ json) : Except StoreError String) = .ok text) :
      text = pyStr py value := by
    rw [← Except.ok.inj hmark, isTyped_append] at hplain
    cases hplain
  unfold encodeValue at h
  cases value with
  | str s =>
      simp only at h
      split at h
      · split at h
        · exact hmarked h
        · cases h
      · exact (Except.ok.inj h).symm
  | other s => exact (Except.ok.inj h).symm
  | _ =>
      simp only at h
      split at h
      · exact hmarked h
      · cases h

/-- A value whose JSON text is not how it prints can be stored. -/
theorem encodeValue_of_valueText_ne (h : valueText py value ≠ pyStr py value) :
    ∃ text, encodeValue py value = .ok text := by
  cases hdumps : py.dumps value with
  | some text => exact encodeValue_isOk (by rw [hdumps]; rfl)
  | none =>
      refine absurd ?_ h
      unfold valueText
      cases value <;> simp [hdumps, pyStr]

/-- What `fact_retract` finds and `fact_delete` does not. -/
theorem unprinted_iff (hvalue : value ≠ .none) :
    (r.holdsValue py value = true ∧ r.value ≠ pyStr py value) ↔ r.Unprinted py value := by
  cases htyped : isTyped r.value with
  | true =>
      constructor
      · exact fun h => ⟨hvalue, .inl ⟨htyped, h⟩⟩
      · rintro ⟨-, ⟨-, h⟩ | ⟨hplain, -⟩⟩
        · exact h
        · rw [htyped] at hplain
          cases hplain
  | false =>
      have hdecode : decodeValue py r.value = .str r.value := by simp [decodeValue, htyped]
      constructor
      · rintro ⟨hholds, hne⟩
        refine ⟨hvalue, .inr ⟨htyped, ?_⟩⟩
        obtain ⟨text, text', htext', htext, hor⟩ := encodeValue_of_holdsValue hvalue hholds
        rw [hdecode, encodeValue_str py htyped] at htext'
        obtain rfl := Except.ok.inj htext'
        have hrendered : r.value = valueText py value := by
          rcases hor with rfl | hor
          · exact absurd (pyStr_of_encodeValue htext htyped) hne
          · rw [hdecode] at hor
            exact hor
        exact ⟨hrendered, fun h => hne (hrendered.trans h)⟩
      · rintro ⟨-, ⟨h, -⟩ | ⟨-, hrendered, hne⟩⟩
        · rw [htyped] at h
          cases h
        · obtain ⟨text, htext⟩ := encodeValue_of_valueText_ne hne
          refine ⟨(holdsValue_of_some hvalue).mpr ?_, fun h => hne (hrendered ▸ h)⟩
          unfold sameValue
          rw [hdecode, encodeValue_str py htyped, htext]
          show (Except.ok (r.value == text || valueText py (.str r.value) == valueText py value) :
            Except StoreError Bool) = .ok true
          have hsame : valueText py (.str r.value) = valueText py value := hrendered
          rw [hsame]
          simp

theorem deletedBy_viewDelete {agentId subject : String} {attributeName : Option String}
    {db : Db} (hr : r ∈ db.facts.rows) :
    ((viewDelete py agentId subject attributeName value).apply db).HasFact r.id ↔
      ¬ (r.about py agentId subject attributeName = true ∧
        (value = .none ∨ r.value = pyStr py value)) := by
  have hmatches : deleteMatches py (printedValue py value) r = true ↔
      value = .none ∨ r.value = pyStr py value := by
    have htext : ∀ text, deleteMatches py (.str text) r = true ↔ r.value = text :=
      fun text => decide_eq_true_iff
    cases value with
    | none => simp [printedValue, deleteMatches]
    | _ => simp only [printedValue, htext, reduceCtorEq, false_or]
  rw [viewDelete, hasFact_factDelete hr, deletedBy, ← Bool.not_eq_true, Bool.and_eq_true, hmatches]

/-- `facts.delete` of a value removes all that `facts.retract` of it withdraws
if and only if no live row of the subject holds it unprinted. -/
theorem delete_covers_retract_iff (hpy : py.ReadsBack) (db : Db) (agentId subject : String)
    (attributeName : Option String) (value : PyValue) :
    (∀ now n db', (factRetract py now agentId subject attributeName value).exec db = .ok (n, db') →
      ∀ r ∈ db.facts.rows, r.live = true → ¬ db'.LiveFact r.id →
        ¬ ((viewDelete py agentId subject attributeName value).apply db).HasFact r.id) ↔
      ∀ r ∈ db.facts.rows, r.live = true → r.about py agentId subject attributeName = true →
        ¬ r.Unprinted py value := by
  constructor
  · intro h r hr hlive habout hunprinted
    have hvalue := hunprinted.1
    obtain ⟨hholds, hne⟩ := (unprinted_iff hvalue).mpr hunprinted
    obtain ⟨text, -, -, htext, -⟩ := encodeValue_of_holdsValue hvalue hholds
    obtain ⟨n, db', hexec⟩ := factRetract_isOk hpy 0 agentId subject attributeName htext db
    have hgone : ¬ db'.LiveFact r.id := fun hlives =>
      (liveFact_factRetract hexec hr hlive).mp hlives ⟨habout, hholds⟩
    refine h 0 n db' hexec r hr hlive hgone ((deletedBy_viewDelete hr).mpr ?_)
    rintro ⟨-, hnone | hprinted⟩
    · exact hvalue hnone
    · exact hne hprinted
  · intro h now n db' hexec r hr hlive hgone hstays
    have hfound : r.about py agentId subject attributeName = true ∧ r.holdsValue py value = true :=
      not_not.mp fun hout => hgone ((liveFact_factRetract hexec hr hlive).mpr hout)
    have hkept := (deletedBy_viewDelete hr).mp hstays
    have hvalue : value ≠ .none := fun hnone => hkept ⟨hfound.1, .inl hnone⟩
    refine h r hr hlive hfound.1 ((unprinted_iff hvalue).mp ⟨hfound.2, fun hprinted => ?_⟩)
    exact hkept ⟨hfound.1, .inr hprinted⟩

end Delete

/-! ### A port as a number -/

/-- Python, with `json.loads` of one number. -/
def Python.port4444 : Python :=
  { Python.basic with loads := fun text => if text = "4444" then some (.int 4444) else none }

theorem readsBack_port4444 : Python.port4444.ReadsBack where
  dumps_str s := rfl
  dumps_loads text value h := by
    simp only [Python.port4444] at h
    split at h
    · cases h
      rfl
    · cases h

/-- The port of the service `api`. -/
def oneFactStore (value : PyValue) : Db :=
  runOps .port4444 [.set 1 "a" { portRequest "" 0 with value := value } false] .empty

/-- A text and a number that prints like it. -/
theorem delete_covers_retract_text :
    (∃ r ∈ (oneFactStore (.str "80")).facts.rows, r.live = true) ∧
      ∀ now n db', (factRetract .port4444 now "agent" "api" none (.int 80)).exec
          (oneFactStore (.str "80")) = .ok (n, db') →
        ∀ r ∈ (oneFactStore (.str "80")).facts.rows, r.live = true → ¬ db'.LiveFact r.id →
          ¬ ((viewDelete .port4444 "agent" "api" none (.int 80)).apply
            (oneFactStore (.str "80"))).HasFact r.id := by
  have hplain : ∀ r ∈ (oneFactStore (.str "80")).facts.rows, isTyped r.value = false := by
    decide +kernel
  refine ⟨by decide +kernel, (delete_covers_retract_iff readsBack_port4444
    (oneFactStore (.str "80")) "agent" "api" none (.int 80)).mpr ?_⟩
  rintro r hr - - ⟨-, ⟨htyped, -⟩ | ⟨-, -, hne⟩⟩
  · rw [hplain r hr] at htyped
    cases htyped
  · exact hne rfl

/-- A number is stored with a marker and prints without it. -/
theorem delete_misses_number :
    ¬ ∀ (py : Python) (db : Db) (agentId subject : String) (attributeName : Option String)
      (value : PyValue), py.ReadsBack →
        ∀ now n db', (factRetract py now agentId subject attributeName value).exec db = .ok (n, db') →
          ∀ r ∈ db.facts.rows, r.live = true → ¬ db'.LiveFact r.id →
            ¬ ((viewDelete py agentId subject attributeName value).apply db).HasFact r.id := by
  intro h
  have hrow : ∃ r ∈ (oneFactStore (.int 4444)).facts.rows, r.live = true ∧
      r.about .port4444 "agent" "api" none = true ∧
        r.holdsValue .port4444 (.int 4444) = true ∧ r.value ≠ "4444" := by decide +kernel
  obtain ⟨r, hr, hlive, habout, hholds, hne⟩ := hrow
  have hencode : encodeValue .port4444 (.int 4444) = .ok "\x1fmark-json:4444" := by decide +kernel
  obtain ⟨n, db', hexec⟩ := factRetract_isOk readsBack_port4444 2 "agent" "api" none hencode
    (oneFactStore (.int 4444))
  have hgone : ¬ db'.LiveFact r.id := fun hlives =>
    (liveFact_factRetract hexec hr hlive).mp hlives ⟨habout, hholds⟩
  refine h .port4444 (oneFactStore (.int 4444)) "agent" "api" none (.int 4444) readsBack_port4444 2 n
    db' hexec r hr hlive hgone ((deletedBy_viewDelete hr).mpr ?_)
  rintro ⟨-, hnone | hprinted⟩
  · cases hnone
  · exact hne hprinted

end MarkSdk
