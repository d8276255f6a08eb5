import MarkSdk.Extraction.Replay
import MarkSdk.Facts.Liveness

/-!
What a denial or a correction withdraws.

The fact that is denied, and the facts that are replaced, are chosen among
the current ones. Their withdrawal goes by value: `fact_retract` takes every
live row of the slot that holds the value, whenever it was valid. So the
frame holds just when no such row is out of date or too new
(`withdrawals_current_iff`).
-/

namespace MarkSdk

open Lib

/-- The row is stored and live, with whatever end. -/
def Db.StillLive (db : Db) (r : FactRow) : Prop :=
  r.live = true ∧ ∃ stop, r.endAt stop ∈ db.facts.rows

section StillLive

variable {py : Python} {now : Int} {agentId subject : String} {attributeName : Option String}
  {value : PyValue} {db db' : Db} {r : FactRow}

theorem stillLive_of_mem (hr : r ∈ db.facts.rows) (hlive : r.live = true) : db.StillLive r :=
  ⟨hlive, r.validTo, hr⟩

theorem stillLive_iff_map : db.StillLive r ↔
    r.live = true ∧ r.endAt none ∈ db.facts.rows.map (FactRow.endAt none) := by
  refine and_congr_right fun _ => ⟨?_, fun h => ?_⟩
  · rintro ⟨stop, hr⟩
    exact List.mem_map.mpr ⟨r.endAt stop, hr, FactRow.endAt_endAt stop none r⟩
  · obtain ⟨s, hs, hsame⟩ := List.mem_map.mp h
    refine ⟨s.validTo, ?_⟩
    have hback : r.endAt s.validTo = s := by
      calc r.endAt s.validTo = (r.endAt none).endAt s.validTo := rfl
        _ = (s.endAt none).endAt s.validTo := by rw [hsame]
        _ = s := rfl
    rw [hback]
    exact hs

theorem stillLive_rechainAll (ks : List TimelineKey) : (db.rechainAll ks).StillLive r ↔
    db.StillLive r := by
  rw [stillLive_iff_map, stillLive_iff_map, map_rows_rechainAll fun s stop => rfl]

/-- `fact_retract` withdraws the rows that hold the value, and no other. -/
theorem stillLive_factRetract {n : Nat}
    (h : (factRetract py now agentId subject attributeName value).exec db = .ok (n, db')) :
    db'.StillLive r ↔ db.StillLive r ∧
      ¬ (r.about py agentId subject attributeName = true ∧ r.holdsValue py value = true) := by
  obtain ⟨rows, hrows, rfl, -⟩ := factRetract_ok py now h
  have hkept := Txn.filterE_eq_filter (q := FactRow.holdsValue py value)
    (fun r keep hr => by rw [FactRow.holdsValue, hr]) hrows
  have hselected : ∀ s ∈ db.facts.rows, s.live = true → (s.id ∈ rows.map FactRow.id ↔
      s.about py agentId subject attributeName = true ∧ s.holdsValue py value = true) := by
    intro s hs hlive
    rw [mem_ids_iff db (fun s hs => (List.mem_filter.mp
      ((Txn.filterE_sublist hrows).subset hs)).1) hs, hkept, List.mem_filter, List.mem_filter]
    simp [hs, hlive]
  rw [stillLive_rechainAll]
  constructor
  · rintro ⟨hlive, stop, hr⟩
    obtain ⟨s, hs, hsame⟩ := List.mem_map.mp hr
    by_cases hsel : s.id ∈ rows.map FactRow.id
    · simp only [hsel, decide_true, if_true] at hsame
      have hgone := congrArg FactRow.live hsame
      simp [hlive] at hgone
    · simp only [hsel, decide_false, Bool.false_eq_true, if_false] at hsame
      subst hsame
      exact ⟨⟨hlive, stop, hs⟩, fun hfound => hsel ((hselected _ hs hlive).mpr hfound)⟩
  · rintro ⟨⟨hlive, stop, hr⟩, hout⟩
    refine ⟨hlive, stop, List.mem_map.mpr ⟨r.endAt stop, hr, ?_⟩⟩
    have hsel : (r.endAt stop).id ∉ rows.map FactRow.id :=
      fun hin => hout ((hselected _ hr hlive).mp hin)
    simp [show r.id ∉ rows.map FactRow.id from hsel]

/-- `fact_remove` withdraws nothing. -/
theorem stillLive_factRemove {name : String} {validTo : Datetime} (h : db.StillLive r) :
    ((factRemove py agentId subject name value validTo).apply db).StillLive r := by
  refine Txn.apply_induction (P := fun db : Db => db.StillLive r) h fun n db' hexec => ?_
  rw [exec_factRemove] at hexec
  simp only at hexec
  split at hexec
  · cases hexec
  · rename_i encoded hencode
    obtain ⟨-, rfl⟩ := Prod.mk.inj (Except.ok.inj hexec)
    obtain ⟨hlive, stop, hr⟩ := h
    refine ⟨hlive, ?_⟩
    by_cases hsel : removedBy ⟨agentId, factKey py subject, factKey py name⟩ (utcText validTo)
        encoded (r.endAt stop) = true
    · exact ⟨_, List.mem_map.mpr ⟨r.endAt stop, hr, if_pos hsel⟩⟩
    · exact ⟨stop, List.mem_map.mpr ⟨r.endAt stop, hr, if_neg hsel⟩⟩

end StillLive

/-! ### The two withdrawals -/

section Withdrawals

variable {py : Python} {db : Db} {r : FactRow}

/-- The current facts of the slot, as a statement finds them. -/
def slotFacts (py : Python) (m : Moment) (agentId : String) (c : FactCandidate) (db : Db) :
    List Fact :=
  factCurrent py m.current db agentId (some c.subject) (some c.attributeName)

/-- The fact that a denial withdraws. -/
def factsDenied (py : Python) (m : Moment) (agentId : String) (c : FactCandidate) (when_ : Int)
    (db : Db) : List Fact :=
  (deniedFact py c when_ (slotFacts py m agentId c db)).toList.filter fun f => !f.isMulti

/-- The facts that a correction withdraws. -/
def factsReplaced (py : Python) (m : Moment) (agentId : String) (c : FactCandidate) (when_ : Int)
    (db : Db) : List Fact :=
  replacedFacts py c when_ (slotFacts py m agentId c db)

/-- The row is in the slot and holds the value of one of the facts. -/
def FactRow.HoldsOneOf (py : Python) (agentId : String) (c : FactCandidate) (facts : List Fact)
    (r : FactRow) : Prop :=
  r.about py agentId c.subject (some c.attributeName) = true ∧
    ∃ f ∈ facts, r.holdsValue py f.value = true

theorem stillLive_withdrawEach (hpy : py.ReadsBack) (m : Moment) (agentId : String)
    (c : FactCandidate) {facts : List (Fact × Nat)}
    (hfacts : ∀ p ∈ facts, ∃ text, p.1.value = decodeValue py text) :
    ((withdrawEach py m agentId c facts).after db).StillLive r ↔
      db.StillLive r ∧ ¬ r.HoldsOneOf py agentId c (facts.map Prod.fst) := by
  induction facts generalizing db with
  | nil =>
      refine ⟨fun h => ⟨h, ?_⟩, fun h => h.1⟩
      rintro ⟨-, f, hf, -⟩
      cases hf
  | cons p facts ih =>
      obtain ⟨text, htext⟩ := hfacts p List.mem_cons_self
      obtain ⟨encoded, hvalue⟩ := encode_decode_isOk hpy text
      rw [← htext] at hvalue
      obtain ⟨n, db', hexec⟩ := factRetract_isOk hpy (m.retract p.2) agentId c.subject
        (some c.attributeName) hvalue db
      rw [Calls.after, run_withdrawEach_cons hpy m agentId c p facts htext,
        Txn.apply_of_ok hexec]
      have hrest : ((withdrawEach py m agentId c facts).after db').StillLive r ↔
          db'.StillLive r ∧ ¬ r.HoldsOneOf py agentId c (facts.map Prod.fst) :=
        ih fun q hq => hfacts q (List.mem_cons_of_mem p hq)
      rw [Calls.after] at hrest
      rw [hrest, stillLive_factRetract hexec, and_assoc]
      refine and_congr_right fun _ => ?_
      unfold FactRow.HoldsOneOf
      rw [List.map_cons]
      simp only [List.mem_cons, exists_eq_or_imp]
      rw [← not_or, ← and_or_left]

theorem stillLive_withdrawReplaced (hpy : py.ReadsBack) (m : Moment) (agentId : String)
    (c : FactCandidate) (when_ : Datetime) :
    ((withdrawReplaced py m agentId c when_).after db).StillLive r ↔
      db.StillLive r ∧
        ¬ r.HoldsOneOf py agentId c (factsReplaced py m agentId c (utcText when_) db) := by
  have hfacts : ∀ p ∈ (factsReplaced py m agentId c (utcText when_) db).zipIdx,
      ∃ text, p.1.value = decodeValue py text := by
    intro p hp
    have hin := (List.mem_filter.mp (List.fst_mem_of_mem_zipIdx hp)).1
    obtain ⟨s, -, -, -, hf⟩ := mem_factCurrent hin
    exact ⟨s.value, by rw [hf]; rfl⟩
  have heach : ((withdrawEach py m agentId c _).after db).StillLive r ↔
      db.StillLive r ∧ ¬ r.HoldsOneOf py agentId c _ :=
    stillLive_withdrawEach hpy m agentId c hfacts
  rw [List.zipIdx_map_fst] at heach
  rw [← heach, Calls.after, run_withdrawReplaced]
  rfl

theorem stillLive_retractCurrent (hpy : py.ReadsBack) (m : Moment) (agentId : String)
    (c : FactCandidate) (when_ : Datetime) (hr : db.StillLive r) :
    ((retractCurrent py m agentId c when_).after db).StillLive r ↔
        ¬ r.HoldsOneOf py agentId c (factsDenied py m agentId c (utcText when_) db) := by
  have hnone : ∀ facts : List Fact, facts = [] → ¬ r.HoldsOneOf py agentId c facts := by
    rintro facts rfl ⟨-, f, hf, -⟩
    cases hf
  rw [after_retractCurrent]
  cases hdenied : deniedFact py c (utcText when_)
      (factCurrent py m.current db agentId (some c.subject) (some c.attributeName)) with
  | none =>
      refine iff_of_true hr (hnone _ ?_)
      rw [factsDenied, slotFacts, hdenied]
      rfl
  | some fact =>
      have hlist : factsDenied py m agentId c (utcText when_) db =
          if fact.isMulti then [] else [fact] := by
        rw [factsDenied, slotFacts, hdenied, Option.toList_some, List.filter_singleton]
        cases fact.isMulti <;> rfl
      dsimp only
      cases hmulti : fact.isMulti with
      | true =>
          rw [if_pos rfl]
          exact iff_of_true (stillLive_factRemove hr) (hnone _ (by rw [hlist, hmulti]; rfl))
      | false =>
          -- the value was read from the store, so it can be asked for
          obtain ⟨s, -, -, -, hfact⟩ := mem_factCurrent (List.mem_of_find?_eq_some hdenied)
          obtain ⟨encoded, hvalue⟩ := encode_decode_isOk hpy s.value
          have hsame : decodeValue py s.value = fact.value := by rw [hfact]; rfl
          rw [hsame] at hvalue
          obtain ⟨n, db', hexec⟩ := factRetract_isOk hpy (m.retract 0) agentId c.subject
            (some c.attributeName) hvalue db
          rw [if_neg Bool.false_ne_true, Txn.apply_of_ok hexec, stillLive_factRetract hexec, hlist,
            hmulti, FactRow.HoldsOneOf]
          simp [hr]

/-- What the statement withdraws is current and not newer than the statement. -/
def WithdrawsCurrent (now when_ : Int) (db db' : Db) : Prop :=
  ∀ r ∈ db.facts.rows, r.live = true → ¬ db'.StillLive r →
    r.covers now = true ∧ r.validFrom ≤ when_

/-- Every live row of the slot that holds the value of one of the facts is
current and not newer than the statement. -/
def AllCurrent (py : Python) (agentId : String) (c : FactCandidate) (now when_ : Int)
    (facts : List Fact) (db : Db) : Prop :=
  ∀ r ∈ db.facts.rows, r.live = true → r.HoldsOneOf py agentId c facts →
    r.covers now = true ∧ r.validFrom ≤ when_

/-- A denial and a correction touch only current values just when the values
that they are about are held by current rows alone. -/
theorem withdrawals_current_iff (hpy : py.ReadsBack) (db : Db) (m : Moment) (agentId : String)
    (c : FactCandidate) (when_ : Datetime) :
    (WithdrawsCurrent m.current (utcText when_) db ((retractCurrent py m agentId c when_).after db) ↔
      AllCurrent py agentId c m.current (utcText when_)
        (factsDenied py m agentId c (utcText when_) db) db) ∧
    (WithdrawsCurrent m.current (utcText when_) db
        ((withdrawReplaced py m agentId c when_).after db) ↔
      AllCurrent py agentId c m.current (utcText when_)
        (factsReplaced py m agentId c (utcText when_) db) db) := by
  constructor
  · refine forall₂_congr fun r hr => forall_congr' fun hlive => ?_
    rw [stillLive_retractCurrent hpy m agentId c when_ (stillLive_of_mem hr hlive), not_not]
  · refine forall₂_congr fun r hr => forall_congr' fun hlive => ?_
    rw [stillLive_withdrawReplaced hpy m agentId c when_]
    simp [stillLive_of_mem hr hlive]

end Withdrawals

/-! ### A port that comes back -/

/-- The text says that the port is no longer 80. -/
def portDenied : FactCandidate := ⟨"api", "port", "80", true, false, []⟩

/-- The ports that a service has had, with the times they began. -/
def portsSince (ports : List (String × Int)) : Db :=
  runOps .basic (ports.zipIdx.map fun p =>
    .set (p.1.2 + 1) (toString p.2) (portRequest p.1.1 p.1.2) false) .empty

theorem withdrawals_current_port :
    WithdrawsCurrent 15 12 (portsSince [("80", 0)])
        ((retractCurrent .basic (momentAt 15 "") "agent" portDenied (.ofInstant 12)).after
          (portsSince [("80", 0)])) ∧
      WithdrawsCurrent 15 12 (portsSince [("80", 0)])
        ((withdrawReplaced .basic (momentAt 15 "") "agent" portDenied (.ofInstant 12)).after
          (portsSince [("80", 0)])) := by
  have hcurrent : ∀ r ∈ (portsSince [("80", 0)]).facts.rows,
      r.covers 15 = true ∧ r.validFrom ≤ 12 := by decide +kernel
  have hiff := withdrawals_current_iff readsBack_basic (portsSince [("80", 0)]) (momentAt 15 "")
    "agent" portDenied (.ofInstant 12)
  exact ⟨hiff.1.mpr fun r hr _ _ => hcurrent r hr, hiff.2.mpr fun r hr _ _ => hcurrent r hr⟩

/-- The port was 80 before, and that is withdrawn as well. -/
theorem denial_withdraws_past :
    ¬ ∀ (py : Python) (db : Db) (m : Moment) (agentId : String) (c : FactCandidate)
      (when_ : Datetime), py.ReadsBack →
        WithdrawsCurrent m.current (utcText when_) db
          ((retractCurrent py m agentId c when_).after db) := by
  intro h
  have hpast : ∃ r ∈ (portsSince [("80", 0), ("90", 5), ("80", 10)]).facts.rows,
      r.live = true ∧ r.about .basic "agent" "api" (some "port") = true ∧
        ((factsDenied .basic (momentAt 15 "") "agent" portDenied 12
          (portsSince [("80", 0), ("90", 5), ("80", 10)])).any
            fun f => r.holdsValue .basic f.value) = true ∧ r.covers 15 = false := by
    decide +kernel
  obtain ⟨r, hr, hlive, habout, hholds, hcovers⟩ := hpast
  obtain ⟨f, hf, hvalue⟩ := List.any_eq_true.mp hholds
  have hgone : ¬ ((retractCurrent .basic (momentAt 15 "") "agent" portDenied
      (.ofInstant 12)).after (portsSince [("80", 0), ("90", 5), ("80", 10)])).StillLive r := by
    rw [stillLive_retractCurrent readsBack_basic (momentAt 15 "") "agent" portDenied
      (.ofInstant 12) (stillLive_of_mem hr hlive), not_not]
    exact ⟨habout, f, hf, hvalue⟩
  have hcurrent := (h .basic _ (momentAt 15 "") "agent" portDenied (.ofInstant 12) readsBack_basic
    r hr hlive hgone).1
  rw [show (momentAt 15 "").current = 15 from rfl, hcovers] at hcurrent
  cases hcurrent

end MarkSdk
