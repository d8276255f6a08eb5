import MarkSdk.Facts.RowRules
import MarkSdk.Facts.Undo
import MarkSdk.Portability.Lines
import MarkSdk.Store.FactKeys

/-!
Fact lines: what `import_fact_row` reads from an exported row.

The rows that the fact calls leave are well made: their keys belong to their
subject and attribute, and their value is encoded again as it was. Such a row
is read back from its line with everything but its id and its end
(`readFact_line`).
-/

namespace MarkSdk

open Lib

/-! ### What holds of every row -/

/-- An object of another class whose text does not start like a typed value. -/
def FactRequest.Plain (req : FactRequest) : Prop :=
  ∀ text, req.value = .other text → isTyped text = false

def FactOp.Plain : FactOp → Prop
  | .set _ _ req _ => req.Plain
  | .add _ _ req => req.Plain
  | _ => True

/-- A property of single rows that new rows have, and that ending and
withdrawing a row keep. -/
structure RowProperty (py : Python) (P : FactRow → Prop) : Prop where
  endAt : ∀ r stop, P r → P (r.endAt stop)
  retract : ∀ r now, P r → P (r.retract now)
  row : ∀ (req : FactRequest) now uuid encoded metadata, req.Plain → req.check py = .ok encoded →
    metadata = setMetadata req.metadata ∨ metadata = addMetadata req.metadata →
      P (req.row py now uuid encoded metadata)

theorem RowProperty.rule {py : Python} {P : FactRow → Prop} (hP : RowProperty py P) :
    RowRule py FactRequest.Plain P :=
  ⟨hP.endAt, hP.retract, hP.row⟩

theorem RowProperty.run {py : Python} {P : FactRow → Prop} {db : Db} (hP : RowProperty py P)
    (ops : List FactOp) (hops : ∀ op ∈ ops, op.Plain) (h : EveryRow P db) :
    EveryRow P (runOps py ops db) := by
  refine hP.rule.run ops (fun op hop => ?_) h
  have hplain := hops op hop
  cases op <;> exact hplain

/-- The subject and the attribute of a row are stripped, its keys belong to
them, its value is encoded again as it was, and its flag is `true` if it is
there. -/
structure FactRow.WellMade (py : Python) (r : FactRow) : Prop where
  stripped : strip r.subject = r.subject ∧ strip r.attributeName = r.attributeName
  subject : factKey py r.subject = r.subjectKey
  attributeName : factKey py r.attributeName = r.attributeKey
  named : r.subjectKey ≠ "" ∧ r.attributeKey ≠ ""
  value : encodeValue py (decodeValue py r.value) = .ok r.value
  flag : r.metadata.lookup multiKey = none ∨ r.metadata.lookup multiKey = some (.bool true)

theorem wellMade_rowProperty {py : Python} (hpy : py.RoundTrips) (hlower : py.LowerStrips) :
    RowProperty py (FactRow.WellMade py) where
  endAt r stop h := ⟨h.stripped, h.subject, h.attributeName, h.named, h.value, h.flag⟩
  retract r now h := ⟨h.stripped, h.subject, h.attributeName, h.named, h.value, h.flag⟩
  row req now uuid encoded metadata hplain hcheck hmetadata := by
    unfold FactRequest.check at hcheck
    split at hcheck
    · simp at hcheck
    · rename_i hnamed
      refine ⟨⟨strip_strip _, strip_strip _⟩, factKey_strip hlower _, factKey_strip hlower _,
        ⟨fun h => hnamed (.inl h), fun h => hnamed (.inr h)⟩,
        encode_decode_encode hpy hplain hcheck, ?_⟩
      rcases hmetadata with rfl | rfl
      · left
        rw [List.lookup_eq_none_iff]
        intro entry hentry
        have hne : entry.1 ≠ multiKey := by simpa using (List.mem_filter.mp hentry).2
        simpa using hne.symm
      · exact .inr List.lookup_cons_self

/-! ### Reading a line -/

/-- A time is read back from its text. -/
structure LineFormat.ReadsTime (format : LineFormat) (t : Int) : Prop where
  reads : ∃ moment, format.fromisoformat (format.isoformat t) = some moment ∧ utcText moment = t
  text : format.isoformat t ≠ ""

theorem readTime_isoformat {format : LineFormat} {t : Int} (h : format.ReadsTime t)
    (py : Python) : format.readTime py (.str (format.isoformat t)) = .ok t := by
  obtain ⟨moment, hreads, rfl⟩ := h.reads
  rw [LineFormat.readTime, pyStr, hreads]

/-- What the line of a row says. -/
def FactRow.imported (agentId : String) (r : FactRow) : ImportedFact where
  subject := r.subject
  attributeName := r.attributeName
  key := ⟨agentId, r.subjectKey, r.attributeKey⟩
  encoded := r.value
  validFrom := r.validFrom
  recordedAt := some r.recordedAt
  sourceFragmentId := r.sourceFragmentId
  metadata := PyValue.jsonEntries r.metadata

theorem readFact_line {py : Python} {format : LineFormat} {r : FactRow} (h : r.WellMade py)
    (hvalid : format.ReadsTime r.validFrom) (hrecorded : format.ReadsTime r.recordedAt)
    (agentId own : String) :
    readFact py format agentId
        (((rowToFact py r).line format own).filter fun entry => entry.1 ≠ "type") =
      .ok (r.imported agentId) := by
  have hline : ((rowToFact py r).line format own).filter (fun entry => entry.1 ≠ "type") =
      ((rowToFact py r).line format own).drop 1 := by
    simp [Fact.line, List.filter]
  rw [hline]
  have hsubject : Metadata.get (((rowToFact py r).line format own).drop 1) "subject" =
      .ok (.str r.subject) := rfl
  have hattribute : Metadata.get (((rowToFact py r).line format own).drop 1) "attribute" =
      .ok (.str r.attributeName) := rfl
  have hfrom : Metadata.get (((rowToFact py r).line format own).drop 1) "valid_from" =
      .ok (.str (format.isoformat r.validFrom)) := rfl
  have hat : (((rowToFact py r).line format own).drop 1).lookup "recorded_at" =
      some (.str (format.isoformat r.recordedAt)) := rfl
  have hvalue : Metadata.get (((rowToFact py r).line format own).drop 1) "value" =
      .ok (decodeValue py r.value) := rfl
  have hmetadata : (((rowToFact py r).line format own).drop 1).lookup "metadata" =
      some (.dict (PyValue.jsonEntries r.metadata)) := rfl
  have htruthy : (PyValue.str (format.isoformat r.recordedAt)).truthy = true := by
    simp [PyValue.truthy, hrecorded.text]
  have hkeys : ¬ (r.subjectKey = "" ∨ r.attributeKey = "") :=
    fun hempty => hempty.elim h.named.1 h.named.2
  have hsource : (((rowToFact py r).line format own).drop 1).lookup "source_fragment_id" =
      some (r.sourceFragmentId.elim .none .str) := by
    cases hsource : r.sourceFragmentId <;>
      simp [Fact.line, rowToFact, hsource, List.lookup_cons]
  generalize ((rowToFact py r).line format own).drop 1 = record at *
  unfold readFact
  simp only [hsubject, hattribute, hfrom, hat, hvalue, hmetadata, hsource, pyStr,
    readTime_isoformat hvalid, readTime_isoformat hrecorded, Option.getD_some, htruthy, if_true,
    h.value, Bind.bind, Except.bind, Pure.pure, Except.pure, Except.map, h.subject,
    h.attributeName, if_neg hkeys]
  unfold FactRow.imported
  cases r.sourceFragmentId <;> rfl

end MarkSdk
