import MarkSdk.Facts.Liveness
import MarkSdk.Facts.RowRules
import MarkSdk.Store.FactKeys

/-!
Passing the keys of `fact_subjects` back to the store.

Every reader and `fact_retract` make a key of the subject they are given. A
key that is its own key addresses the rows that are stored under it, and any
other key does not.
-/

namespace MarkSdk

open Lib

def factSubjects (db : Db) (agentId : String) : List String :=
  ((db.facts.rows.filter fun r => r.agentId = agentId && r.live).map FactRow.subjectKey).dedup

/-- Given as the subject, the key means the rows that are stored under it. -/
structure Addresses (py : Python) (db : Db) (agentId key : String) : Prop where
  current : ∀ now attributeName, factCurrent py now db agentId (some key) attributeName =
    ((db.facts.rows.filter fun r =>
        r.agentId = agentId && r.live && r.covers now && r.subjectKey = key &&
          attributeName.all fun a => r.attributeKey = factKey py a).insertionSort
      FactRow.beforeByKey).map (rowToFact py)
  history : ∀ attributeName, factHistory py db agentId key attributeName =
    ((timeline db ⟨agentId, key, factKey py attributeName⟩).map (rowToFact py)).foldl pushHistory []
  retract : ∀ now attributeName value n db',
    (factRetract py now agentId key attributeName value).exec db = .ok (n, db') →
      ∀ r ∈ db.facts.rows, r.live = true →
        (db'.LiveFact r.id ↔ ¬ (r.agentId = agentId ∧ r.subjectKey = key ∧
          (∀ a ∈ attributeName, r.attributeKey = factKey py a) ∧ r.holdsValue py value = true))

section Keys

variable {py : Python} {db : Db} {agentId key : String}

theorem mem_factSubjects :
    key ∈ factSubjects db agentId ↔
      ∃ r ∈ db.facts.rows, r.agentId = agentId ∧ r.live = true ∧ r.subjectKey = key := by
  simp [factSubjects, and_assoc]

theorem about_iff {attributeName : Option String} {subject : String} {r : FactRow} :
    r.about py agentId subject attributeName = true ↔
      r.agentId = agentId ∧ r.subjectKey = factKey py subject ∧
        ∀ a ∈ attributeName, r.attributeKey = factKey py a := by
  cases attributeName <;> simp [FactRow.about, and_assoc]

theorem addresses_of_fixed (h : factKey py key = key) : Addresses py db agentId key where
  current now attributeName := by
    unfold factCurrent
    simp [h]
  history attributeName := by rw [factHistory, h]
  retract now attributeName value n db' hexec r hr hlive := by
    rw [liveFact_factRetract hexec hr hlive, about_iff, h]
    simp only [and_assoc]

/-- `fact_retract` of a whole subject does not raise. -/
theorem factRetract_none_isOk (now : Int) (subject : String) (attributeName : Option String) :
    ∃ n db', (factRetract py now agentId subject attributeName .none).exec db = .ok (n, db') := by
  unfold factRetract
  simp only [Txn.exec_bind, Txn.exec_query, Txn.exec_lift]
  obtain ⟨rows, hrows, -⟩ := filterE_isOk (p := retractMatches py .none) (fun r => ⟨true, rfl⟩)
    (db.facts.rows.filter fun r => r.about py agentId subject attributeName && r.live)
  rw [hrows]
  simp only [Except.map, exec_forEach_retractRow, exec_forEach_rechainFacts, Txn.exec_pure]
  exact ⟨_, _, rfl⟩

/-- A key with a live row addresses its rows just when it is its own key. -/
theorem addresses_iff (hkey : key ∈ factSubjects db agentId) :
    Addresses py db agentId key ↔ factKey py key = key := by
  refine ⟨fun h => ?_, addresses_of_fixed⟩
  obtain ⟨r, hr, hagent, hlive, hsubject⟩ := mem_factSubjects.mp hkey
  obtain ⟨n, db', hexec⟩ : ∃ n db', (factRetract py 0 agentId key none .none).exec db =
      .ok (n, db') := factRetract_none_isOk 0 key none
  have hgone : ¬ db'.LiveFact r.id := by
    rw [h.retract 0 none .none n db' hexec r hr hlive, not_not]
    exact ⟨hagent, hsubject, by simp, rfl⟩
  rw [liveFact_factRetract hexec hr hlive, not_not] at hgone
  rw [← (about_iff.mp hgone.1).2.1, hsubject]

/-- The key of every row is the key of its subject. -/
theorem subjectKey_rule (hstrips : py.LowerStrips) :
    RowRule py (fun _ => True) fun r => factKey py r.subject = r.subjectKey where
  endAt _ _ h := h
  retract _ _ h := h
  row req _ _ _ _ _ _ _ := factKey_strip hstrips req.subject

theorem subjectKey_run (hstrips : py.LowerStrips) (ops : List FactOp) :
    ∀ r ∈ (runOps py ops .empty).facts.rows, factKey py r.subject = r.subjectKey := by
  refine (subjectKey_rule hstrips).run ops (fun op _ => ?_) fun r hr => absurd hr List.not_mem_nil
  cases op <;> trivial

/-- Keys are fixed points, and address their rows, as long as no subject ends
in a quote or bracket with punctuation behind it. -/
theorem keys_fixed_iff (hlower : py.LowersOnce) (hstrips : py.LowerStrips) :
    (∀ text, factKey py (factKey py text) = factKey py text ↔
      ¬ EndsInQuote (keyChars py text)) ∧
    ∀ (ops : List FactOp) (agentId : String),
      (∀ key ∈ factSubjects (runOps py ops .empty) agentId,
        Addresses py (runOps py ops .empty) agentId key) ↔
      ∀ r ∈ (runOps py ops .empty).facts.rows, r.agentId = agentId → r.live = true →
        ¬ EndsInQuote (keyChars py r.subject) := by
  refine ⟨factKey_factKey_iff hlower, fun ops agentId => ?_⟩
  constructor
  · intro h r hr hagent hlive
    have hkey : r.subjectKey ∈ factSubjects (runOps py ops .empty) agentId :=
      mem_factSubjects.mpr ⟨r, hr, hagent, hlive, rfl⟩
    have hfixed := (addresses_iff hkey).mp (h _ hkey)
    rw [← subjectKey_run hstrips ops r hr] at hfixed
    exact (factKey_factKey_iff hlower _).mp hfixed
  · intro h key hkey
    obtain ⟨r, hr, hagent, hlive, rfl⟩ := mem_factSubjects.mp hkey
    refine (addresses_iff hkey).mpr ?_
    rw [← subjectKey_run hstrips ops r hr]
    exact (factKey_factKey_iff hlower _).mpr (h r hr hagent hlive)

end Keys

theorem keys_fixed_iff_basic :
    (∀ text, factKey .basic (factKey .basic text) = factKey .basic text ↔
      ¬ EndsInQuote (keyChars .basic text)) ∧
    ∀ (ops : List FactOp) (agentId : String),
      (∀ key ∈ factSubjects (runOps .basic ops .empty) agentId,
        Addresses .basic (runOps .basic ops .empty) agentId key) ↔
      ∀ r ∈ (runOps .basic ops .empty).facts.rows, r.agentId = agentId → r.live = true →
        ¬ EndsInQuote (keyChars .basic r.subject) :=
  keys_fixed_iff lowersOnce_basic lowerStrips_basic

/-- The dot goes first and uncovers the bracket. -/
theorem factKey_not_fixed :
    ¬ ∀ (py : Python) (text : String), py.LowersOnce → py.LowerStrips →
      factKey py (factKey py text) = factKey py text := by
  intro h
  have hkey := h .basic "api (v2)." lowersOnce_basic lowerStrips_basic
  revert hkey
  decide +kernel

end MarkSdk
