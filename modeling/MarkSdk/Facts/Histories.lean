import MarkSdk.Lib.Collapse
import MarkSdk.Facts.Tiling

/-!
What `fact_history` says of a time, next to `fact_as_of`.

`fact_history` collapses neighbours with equal values into one entry, which
keeps the value of the first. Equal means `==`, for which `True`, `1` and
`1.0` are one value; what is stored for them differs.
-/

namespace MarkSdk

open Lib

/-! ### Values of one kind -/

inductive PyType : Type
  | noneType | bool | int | float | str | list | tuple | dict | other
  deriving DecidableEq, Repr

def PyValue.type : PyValue → PyType
  | .none => .noneType
  | .bool _ => .bool
  | .int _ => .int
  | .float _ => .float
  | .str _ => .str
  | .list _ => .list
  | .tuple _ => .tuple
  | .dict _ => .dict
  | .other _ => .other

/-- The same type and encoding. -/
def SameKind (py : Python) (v w : PyValue) : Prop :=
  v.type = w.type ∧ encodeValue py v = encodeValue py w

/-! ### The entries of a history -/

/-- `history[-1]["value"] == fact["value"]` -/
def FactRow.repeats (py : Python) (r s : FactRow) : Bool :=
  (decodeValue py r.value).eq (decodeValue py s.value)

/-- The entry for a run of rows: its first one, up to the end of its last. -/
def historyEntry (py : Python) (run : FactRow × List FactRow) : Fact :=
  { rowToFact py run.1 with validTo := (run.2.getLastD run.1).validTo }

theorem foldl_pushHistory (py : Python) (history : List Fact) (head : FactRow)
    (rest rows : List FactRow) :
    (rows.map (rowToFact py)).foldl pushHistory (history ++ [historyEntry py (head, rest)]) =
      history ++ (runsFrom (FactRow.repeats py) head rest rows).map (historyEntry py) := by
  induction rows generalizing history head rest with
  | nil => rfl
  | cons r rows ih =>
      rw [List.map_cons, List.foldl_cons, runsFrom, pushHistory, List.getLast?_concat]
      dsimp only
      by_cases hsame : head.repeats py r = true
      · have hvalue : (historyEntry py (head, rest)).value.eq (rowToFact py r).value = true := hsame
        rw [if_pos hvalue, if_pos hsame, List.dropLast_concat, ← ih]
        simp [historyEntry, rowToFact]
      · have hvalue : ¬ (historyEntry py (head, rest)).value.eq (rowToFact py r).value = true :=
          hsame
        have hnext := ih (history ++ [historyEntry py (head, rest)]) r []
        rw [if_neg hvalue, if_neg hsame, List.map_cons]
        exact hnext.trans (List.append_assoc ..)

/-- The history is the collapsed timeline. -/
theorem factHistory_eq (py : Python) (db : Db) (agentId subject attributeName : String) :
    factHistory py db agentId subject attributeName =
      (collapseRuns (FactRow.repeats py)
        (timeline db ⟨agentId, factKey py subject, factKey py attributeName⟩)).map
          (historyEntry py) := by
  unfold factHistory
  cases timeline db ⟨agentId, factKey py subject, factKey py attributeName⟩ with
  | nil => rfl
  | cons r rows => exact foldl_pushHistory py [] r [] rows

/-- `valid_from <= t < valid_to`, where no end is later than every time. -/
def Fact.holdsAt (t : Int) : Fact → Bool := covers Fact.validFrom Fact.validTo t

/-- At most one entry of the history holds at a time; it is there when
`fact_as_of` finds a value, and its value has the same type and encoding. -/
structure HistoryAgrees (py : Python) (db : Db) (agentId subject attributeName : String)
    (when_ : Datetime) : Prop where
  one : ((factHistory py db agentId subject attributeName).filter
    (Fact.holdsAt (utcText when_))).length ≤ 1
  isSome : (∃ entry ∈ factHistory py db agentId subject attributeName,
    entry.holdsAt (utcText when_) = true) ↔
      (factAsOf py db agentId subject attributeName when_).isSome = true
  value : ∀ entry ∈ factHistory py db agentId subject attributeName,
    entry.holdsAt (utcText when_) = true →
      ∀ fact, factAsOf py db agentId subject attributeName when_ = some fact →
        SameKind py entry.value fact.value

/-- The rows that repeat the first one of their run, and hold for some time,
have values of its kind. -/
def CollapsesAlike (py : Python) (rows : List FactRow) : Prop :=
  ∀ run ∈ collapseRuns (FactRow.repeats py) rows, ∀ r ∈ run.2,
    (∀ e, r.validTo = some e → r.validFrom < e) →
      SameKind py (decodeValue py run.1.value) (decodeValue py r.value)

section Reachable

variable {py : Python} {db : Db}

/-- The row that holds in a run is the row of `fact_as_of`. -/
theorem asOfRow_of_run {k : TimelineKey} {t : Int} {r : FactRow}
    (htiles : Tiles FactRow.validFrom FactRow.validTo (timeline db k)) (hr : r ∈ timeline db k)
    (hcovers : r.covers t = true) : asOfRow db k t = some r := by
  have hone := tiles_filter_covers (timeline_pairwise db k) htiles t
  have hmem : r ∈ (timeline db k).filter (FactRow.covers t) := List.mem_filter.mpr ⟨hr, hcovers⟩
  refine asOfRow_of_covers (hone.trans ?_)
  have hmem' := hone ▸ hmem
  cases hlast : ((timeline db k).filter fun r => r.validFrom ≤ t).getLast? with
  | none =>
      rw [hlast] at hmem'
      cases hmem'
  | some s =>
      rw [hlast] at hmem'
      rw [List.mem_singleton.mp hmem']
      rfl

theorem mem_timeline_of_asOfRow {k : TimelineKey} {t : Int} {r : FactRow}
    (h : asOfRow db k t = some r) : r ∈ timeline db k ∧ r.covers t = true := by
  have hmem := List.mem_of_getLast? h
  rw [List.mem_insertionSort] at hmem
  obtain ⟨hlive, hcovers⟩ := List.mem_filter.mp hmem
  exact ⟨(timeline_perm db k).mem_iff.mpr hlive, hcovers⟩

/-- On a tiled timeline the history and `fact_as_of` agree on when there is a
value. -/
theorem historyAgrees_iff_value {agentId subject attributeName : String} {when_ : Datetime}
    (htiles : Tiles FactRow.validFrom FactRow.validTo
      (timeline db ⟨agentId, factKey py subject, factKey py attributeName⟩)) :
    HistoryAgrees py db agentId subject attributeName when_ ↔
      ∀ run ∈ collapseRuns (FactRow.repeats py)
        (timeline db ⟨agentId, factKey py subject, factKey py attributeName⟩),
        ∀ r ∈ members run, r.covers (utcText when_) = true →
          SameKind py (decodeValue py run.1.value) (decodeValue py r.value) := by
  obtain ⟨hcovers, hone⟩ := collapse_covers (FactRow.repeats py)
    (timeline_pairwise db ⟨agentId, factKey py subject, factKey py attributeName⟩) htiles
    (utcText when_)
  have hasOf : ∀ run ∈ collapseRuns (FactRow.repeats py)
      (timeline db ⟨agentId, factKey py subject, factKey py attributeName⟩),
      ∀ r ∈ members run, r.covers (utcText when_) = true →
        factAsOf py db agentId subject attributeName when_ = some (rowToFact py r) := by
    intro run hrun r hr hcover
    rw [factAsOf, asOfRow_of_run htiles ((members_infix_of_mem hrun).subset hr) hcover,
      Option.map_some]
  constructor
  · intro h run hrun r hr hcover
    have hentry : historyEntry py run ∈ factHistory py db agentId subject attributeName := by
      rw [factHistory_eq]
      exact List.mem_map_of_mem hrun
    exact h.value _ hentry ((hcovers run hrun).mpr ⟨r, hr, hcover⟩) _ (hasOf run hrun r hr hcover)
  · intro h
    refine ⟨?_, ⟨?_, ?_⟩, ?_⟩
    · rw [factHistory_eq, List.filter_map, List.length_map]
      exact hone
    · rintro ⟨entry, hentry, hholds⟩
      rw [factHistory_eq] at hentry
      obtain ⟨run, hrun, rfl⟩ := List.mem_map.mp hentry
      obtain ⟨r, hr, hcover⟩ := (hcovers run hrun).mp hholds
      rw [hasOf run hrun r hr hcover]
      rfl
    · intro hsome
      obtain ⟨fact, hfact⟩ := Option.isSome_iff_exists.mp hsome
      obtain ⟨r, hrow, -⟩ := Option.map_eq_some_iff.mp hfact
      obtain ⟨hr, hcover⟩ := mem_timeline_of_asOfRow hrow
      obtain ⟨run, hrun, hmem⟩ := exists_run (FactRow.repeats py) hr
      refine ⟨historyEntry py run, ?_, (hcovers run hrun).mpr ⟨r, hmem, hcover⟩⟩
      rw [factHistory_eq]
      exact List.mem_map_of_mem hrun
    · intro entry hentry hholds fact hfact
      rw [factHistory_eq] at hentry
      obtain ⟨run, hrun, rfl⟩ := List.mem_map.mp hentry
      obtain ⟨r, hr, hcover⟩ := (hcovers run hrun).mp hholds
      obtain rfl := Option.some.inj ((hasOf run hrun r hr hcover).symm.trans hfact)
      exact h run hrun r hr hcover

/-- The history agrees with `fact_as_of` at every time exactly when it
collapses no values of different kinds. -/
theorem history_agrees_iff (py : Python) (ops : List FactOp) (hops : ∀ op ∈ ops, op.singleValued)
    (agentId subject attributeName : String) :
    (∀ when_, HistoryAgrees py (runOps py ops .empty) agentId subject attributeName when_) ↔
      CollapsesAlike py (timeline (runOps py ops .empty)
        ⟨agentId, factKey py subject, factKey py attributeName⟩) := by
  have hset : AllSet (runOps py ops .empty) :=
    allSet_run ops hops ⟨fun r hr => by simp [Db.empty] at hr⟩
  have htiles : Tiles FactRow.validFrom FactRow.validTo (timeline (runOps py ops .empty)
      ⟨agentId, factKey py subject, factKey py attributeName⟩) := by
    rw [← chain_eq_timeline hset]
    exact (chained_run ops chained_empty).chainedAt _
  constructor
  · intro h run hrun r hr hopen
    have hcover : r.covers (utcText (.ofInstant r.validFrom)) = true := by
      rw [utcText_ofInstant]
      exact covers_iff.mpr ⟨le_refl _, hopen⟩
    exact (historyAgrees_iff_value htiles).mp (h (.ofInstant r.validFrom)) run hrun r
      (List.mem_cons_of_mem _ hr) hcover
  · intro h when_
    refine (historyAgrees_iff_value htiles).mpr fun run hrun r hr hcover => ?_
    rcases List.mem_cons.mp hr with rfl | hr
    · exact ⟨rfl, rfl⟩
    · obtain ⟨hbegun, hends⟩ := covers_iff.mp hcover
      exact h run hrun r hr fun e he => lt_of_le_of_lt hbegun (hends e he)

end Reachable

/-! ### Equal values of different types -/

/-- A request for the flag of the service `api`. -/
def flagRequest (value : PyValue) (validFrom : Int) : FactRequest where
  agentId := "agent"
  subject := "api"
  attributeName := "flag"
  value := value
  validFrom := .ofInstant validFrom
  sourceFragmentId := none
  metadata := []

/-- Python, as far as `true` and `1` are read back. -/
def Python.flags : Python :=
  { Python.basic with
    loads := fun text =>
      if text = "true" then some (.bool true) else if text = "1" then some (.int 1) else none }

theorem history_agrees_iff_flags :
    (∀ when_, HistoryAgrees .flags (runOps .flags
      [.set 1 "a" (flagRequest (.bool true) 0) false, .set 2 "b" (flagRequest (.bool true) 10) false]
      .empty) "agent" "api" "flag" when_) ↔
      CollapsesAlike .flags (timeline (runOps .flags
        [.set 1 "a" (flagRequest (.bool true) 0) false,
          .set 2 "b" (flagRequest (.bool true) 10) false] .empty)
        ⟨"agent", factKey .flags "api", factKey .flags "flag"⟩) :=
  history_agrees_iff .flags _ (by decide) "agent" "api" "flag"

/-- `True` from time 0, and `1` from time 10 on. -/
def flagThenNumber : List FactOp :=
  [.set 1 "a" (flagRequest (.bool true) 0) false, .set 2 "b" (flagRequest (.int 1) 10) false]

/-- The history has `True` at time 20, and `fact_as_of` returns `1`. -/
theorem history_keeps_first_type :
    ¬ ∀ py ops, (∀ op ∈ ops, FactOp.singleValued op) → ∀ agentId subject attributeName when_,
      HistoryAgrees py (runOps py ops .empty) agentId subject attributeName when_ := by
  intro h
  have hagrees := h .flags flagThenNumber (by decide) "agent" "api" "flag" (.ofInstant 20)
  have hhistory : (factHistory .flags (runOps .flags flagThenNumber .empty) "agent" "api"
      "flag").map (fun f => (f.value.type, f.validFrom, f.validTo)) = [(.bool, 0, none)] := by
    decide
  have hasOf : (factAsOf .flags (runOps .flags flagThenNumber .empty) "agent" "api" "flag"
      (.ofInstant 20)).map (fun f => f.value.type) = some .int := by
    decide
  obtain ⟨entry, hentry, heq⟩ := List.mem_map.mp (hhistory ▸ List.mem_singleton_self _)
  obtain ⟨fact, hfact, htype⟩ := Option.map_eq_some_iff.mp hasOf
  obtain ⟨htypes, hfrom, hto⟩ : entry.value.type = .bool ∧ entry.validFrom = 0 ∧
      entry.validTo = none := by simpa using heq
  have hholds : entry.holdsAt (utcText (.ofInstant 20)) = true := by
    rw [utcText_ofInstant]
    exact covers_iff.mpr ⟨by rw [hfrom]; decide, by simp [hto]⟩
  have hkind := (hagrees.value entry hentry hholds fact hfact).1
  rw [htypes, htype] at hkind
  cases hkind

end MarkSdk
