import MarkSdk.Blocks.BlockGraph
import MarkSdk.Memory.Maintenance
import MarkSdk.Memory.Revisions
import MarkSdk.Store.FactJobs
import MarkSdk.Store.FactsMulti

/-!
What the calls of the store can add.

A call adds no fragment but the one that it stores, and no live fact with a
source but the one it records. All else in it updates rows in place or takes
rows away. `GrowsBy` says so about one write, and every call is honest about
it.
-/

namespace MarkSdk

open Lib

/-- Nothing is there afterwards that was not there before, but for what the
label says. -/
structure GrowsBy (l : StoreWrite) (db db' : Db) : Prop where
  fragments : ∀ f ∈ db'.fragments.rows, (∃ g ∈ db.fragments.rows, g.id = f.id) ∨
    l = .rewrite f.id ∨ l = .insert f.id
  facts : ∀ r ∈ db'.facts.rows, r.live = true → (∃ q ∈ db.facts.rows, q.live = true ∧
    q.agentId = r.agentId ∧ q.sourceFragmentId = r.sourceFragmentId) ∨ l = .fact r.sourceFragmentId

section GrowsBy

-- the checks of a request compute with texts, and nothing here depends on them
attribute [local irreducible] FactRequest.check

variable {l : StoreWrite}

theorem GrowsBy.refl (l : StoreWrite) (db : Db) : GrowsBy l db db :=
  ⟨fun f hf => .inl ⟨f, hf, rfl⟩, fun r hr hlive => .inl ⟨r, hr, hlive, rfl, rfl⟩⟩

theorem GrowsBy.trans {db db' db'' : Db} (h : GrowsBy l db db') (h' : GrowsBy l db' db'') :
    GrowsBy l db db'' := by
  constructor
  · intro f hf
    rcases h'.fragments f hf with ⟨g, hg, hid⟩ | hl
    · rw [← hid]
      exact h.fragments g hg
    · exact .inr hl
  · intro r hr hlive
    rcases h'.facts r hr hlive with ⟨q, hq, hqlive, hagent, hsource⟩ | hl
    · rw [← hagent, ← hsource]
      exact h.facts q hq hqlive
    · exact .inr hl

/-- Other tables do not matter. -/
theorem GrowsBy.of_eq {db db' : Db} (hfragments : db'.fragments = db.fragments)
    (hfacts : db'.facts = db.facts) : GrowsBy l db db' := by
  constructor
  · rw [hfragments]
    exact (GrowsBy.refl l db).fragments
  · rw [hfacts]
    exact (GrowsBy.refl l db).facts

/-! ### Single statements -/

/-- Facts are updated in place, and none of them becomes live again. -/
theorem growsBy_updateFacts (db : Db) (p : FactRow → Bool) {f : FactRow → FactRow}
    (hf : ∀ r, (f r).id = r.id) (hagent : ∀ r, (f r).agentId = r.agentId)
    (hsource : ∀ r, (f r).sourceFragmentId = r.sourceFragmentId)
    (hlive : ∀ r, (f r).live = true → r.live = true) : GrowsBy l db (db.updateFacts p f hf) := by
  refine ⟨(GrowsBy.refl l db).fragments, fun r hr hr' => .inl ?_⟩
  obtain ⟨q, hq, rfl⟩ := List.mem_map.mp hr
  by_cases hp : p q = true
  · rw [if_pos hp] at hr' ⊢
    exact ⟨q, hq, hlive q hr', (hagent q).symm, (hsource q).symm⟩
  · rw [if_neg hp] at hr' ⊢
    exact ⟨q, hq, hr', rfl, rfl⟩

theorem each_retractRow (now : Int) (id : String) : (retractRow now id).Each (GrowsBy l) := by
  refine Txn.each_update fun db => growsBy_updateFacts db _ _ (fun _ => rfl) (fun _ => rfl) ?_
  intro r hr
  simp [FactRow.live, FactRow.retract] at hr

theorem each_endRow (stop : Option Int) (id : String) : (endRow stop id).Each (GrowsBy l) :=
  Txn.each_update fun db =>
    growsBy_updateFacts db _ _ (fun _ => rfl) (fun _ => rfl) fun _ hr => hr

theorem growsBy_deleteFacts (db : Db) (p : FactRow → Bool) : GrowsBy l db (db.deleteFacts p) :=
  ⟨(GrowsBy.refl l db).fragments, fun r hr hlive =>
    .inl ⟨r, (List.mem_filter.mp hr).1, hlive, rfl, rfl⟩⟩

theorem each_insertRow (row : FactRow) :
    (insertRow row).Each (GrowsBy (.fact row.sourceFragmentId)) := by
  refine Txn.each_insert fun db db' h => ?_
  unfold Db.insertFact at h
  cases hinsert : db.facts.insert? row with
  | none => simp [hinsert] at h
  | some facts =>
      simp only [hinsert, Except.ok.injEq] at h
      subst h
      refine ⟨(GrowsBy.refl _ db).fragments, fun r hr hlive => ?_⟩
      have hrows := (Table.insert?_eq_some_iff.mp hinsert).2
      have hmem : r ∈ db.facts.rows ++ [row] := hrows ▸ hr
      rcases List.mem_append.mp hmem with hold | hnew
      · exact .inl ⟨r, hold, hlive, rfl, rfl⟩
      · rw [List.mem_singleton.mp hnew]
        exact .inr rfl

/-! ### Fact calls -/

theorem each_rechainFacts (k : TimelineKey) : (rechainFacts k).Each (GrowsBy l) :=
  Txn.each_bind (Txn.each_query _) fun _ => Txn.each_forEach fun u _ => each_endRow u.2 u.1.id

theorem each_factById (py : Python) (id : String) : (factById py id).Each (GrowsBy l) := by
  refine Txn.each_bind (Txn.each_query _) fun row => ?_
  cases row with
  | none => trivial
  | some row => trivial

theorem each_insertSet (py : Python) (now : Int) (uuid encoded : String) (req : FactRequest) :
    (insertSet py now uuid encoded req).Each (GrowsBy (.fact req.sourceFragmentId)) :=
  Txn.each_bind (Txn.each_lift _) fun _ =>
    Txn.each_bind (each_insertRow (req.row py now uuid encoded (setMetadata req.metadata))) fun _ =>
      Txn.each_bind (Txn.each_query _) fun _ =>
        Txn.each_bind (Txn.each_forEach fun r _ => each_endRow _ r.id) fun _ =>
          Txn.each_bind (each_rechainFacts _) fun _ => each_factById py uuid

theorem each_factSet (py : Python) (now : Int) (uuid : String) (req : FactRequest)
    (correction : Bool) :
    (factSet py now uuid req correction).Each (GrowsBy (.fact req.sourceFragmentId)) := by
  refine Txn.each_bind (Txn.each_lift _) fun encoded => ?_
  refine Txn.each_bind (Txn.each_query _) fun sameTime => ?_
  split
  · exact Txn.each_bind (Txn.each_forEach fun r _ => each_retractRow now r.id) fun _ =>
      each_insertSet py now uuid encoded req
  · split
    · exact each_factById py _
    · exact each_insertSet py now uuid encoded req

theorem each_factAdd (py : Python) (now : Int) (uuid : String) (req : FactRequest) :
    (factAdd py now uuid req).Each (GrowsBy (.fact req.sourceFragmentId)) := by
  refine Txn.each_bind (Txn.each_lift _) fun encoded => ?_
  refine Txn.each_bind (Txn.each_query _) fun opened => ?_
  split
  · exact each_factById py _
  · exact Txn.each_bind (Txn.each_lift _) fun _ =>
      Txn.each_bind (each_insertRow (req.row py now uuid encoded (addMetadata req.metadata)))
        fun _ => each_factById py uuid

theorem each_factRemove (py : Python) (agentId subject attributeName : String) (value : PyValue)
    (validTo : Datetime) :
    (factRemove py agentId subject attributeName value validTo).Each (GrowsBy l) :=
  Txn.each_bind (Txn.each_lift _) fun _ => Txn.each_bind (Txn.each_query _) fun _ =>
    Txn.each_bind (Txn.each_forEach fun r _ => each_endRow _ r.id) fun _ => trivial

theorem each_factRetract (py : Python) (now : Int) (agentId subject : String)
    (attributeName : Option String) (value : PyValue) :
    (factRetract py now agentId subject attributeName value).Each (GrowsBy l) :=
  Txn.each_bind (Txn.each_query _) fun _ => Txn.each_bind (Txn.each_lift _) fun _ =>
    Txn.each_bind (Txn.each_forEach fun r _ => each_retractRow now r.id) fun _ =>
      Txn.each_bind (Txn.each_forEach fun _ _ => each_rechainFacts _) fun _ => trivial

theorem each_insertExtraction (row : Extraction) : (insertExtraction row).Each (GrowsBy l) := by
  refine Txn.each_updateCount fun db => ?_
  split
  · exact GrowsBy.of_eq rfl rfl
  · exact GrowsBy.refl l db

theorem each_factSetExtracted (py : Python) (createdAt now : Int) (uuid key : String)
    (req : FactRequest) :
    (factSetExtracted py createdAt now uuid key req).Each (GrowsBy (.fact req.sourceFragmentId)) := by
  refine Txn.each_bind (each_insertExtraction _) fun inserted => ?_
  split
  · trivial
  · exact Txn.each_bind (each_factSet py now uuid req false) fun fact =>
      Txn.each_bind (Txn.each_update fun db => GrowsBy.of_eq rfl rfl) fun _ => trivial

/-! ### Job calls -/

theorem each_updateJob (key : JobKey) (f : FactJob → FactJob) (hf : ∀ j, (f j).key = j.key) :
    (updateJob key f hf).Each (GrowsBy l) :=
  Txn.each_update fun _ => GrowsBy.of_eq rfl rfl

theorem each_settleJob (now : Int) (key : JobKey) (status : JobStatus) (error : Option String) :
    (settleJob now key status error).Each (GrowsBy l) :=
  Txn.each_bind (each_updateJob key _ _) fun _ => Txn.each_update fun _ => GrowsBy.of_eq rfl rfl

theorem each_deleteJobs (fragmentId : String) : (deleteJobs fragmentId).Each (GrowsBy l) :=
  Txn.each_bind (Txn.each_update fun _ => GrowsBy.of_eq rfl rfl) fun _ =>
    Txn.each_update fun _ => GrowsBy.of_eq rfl rfl

/-! ### Fragment calls -/

theorem growsBy_upsert (db : Db) (f : Fragment) (hl : l = .rewrite f.id ∨ l = .insert f.id) :
    GrowsBy l db { db with fragments := db.fragments.upsert f } := by
  refine ⟨fun g hg => ?_, (GrowsBy.refl l db).facts⟩
  rcases Table.mem_upsert hg with hold | rfl
  · exact .inl ⟨g, hold, rfl⟩
  · exact .inr hl

theorem each_store (py : Python) (f : Fragment) (hl : l = .rewrite f.id ∨ l = .insert f.id) :
    (store py f).Each (GrowsBy l) :=
  (store_upserts py f).mono fun db _ h => h ▸ growsBy_upsert db f hl

theorem each_updateFragment {f : Fragment → Fragment} (hf : ∀ r, (f r).id = r.id) (id : String) :
    (updateFragment f hf id).Each (GrowsBy l) := by
  refine Txn.each_update fun db => ⟨fun g hg => .inl ?_, (GrowsBy.refl l db).facts⟩
  obtain ⟨g', hg', rfl⟩ := List.mem_map.mp hg
  refine ⟨g', hg', ?_⟩
  split
  · exact (hf g').symm
  · rfl

theorem each_deleteFragment (id : String) : (deleteFragment id).Each (GrowsBy l) :=
  Txn.each_update fun db => ⟨fun g hg => .inl ⟨g, (List.mem_filter.mp hg).1, rfl⟩,
    (GrowsBy.refl l db).facts⟩

theorem each_deleteById (id : String) : (deleteById id).Each (GrowsBy l) := by
  refine Txn.each_bind (Txn.each_query _) fun row => ?_
  cases row with
  | none => trivial
  | some row => exact Txn.each_bind (each_deleteFragment id) fun _ => trivial

theorem each_cascadeFacts (agentId fragmentId : String) (secure : Bool) (now : Int) :
    (cascadeFacts agentId fragmentId secure now).Each (GrowsBy l) := by
  refine Txn.each_bind (Txn.each_query _) fun rows => ?_
  have hrest : (Txn.forEach (fun key => rechainFacts ⟨agentId, key.1, key.2⟩)
      (rows.map fun r => (r.subjectKey, r.attributeKey)).dedup >>= fun _ =>
        deleteJobs fragmentId).Each (GrowsBy l) :=
    Txn.each_bind (Txn.each_forEach fun _ _ => each_rechainFacts _) fun _ =>
      each_deleteJobs fragmentId
  split
  · refine Txn.each_bind (Txn.each_update fun db => ?_) fun _ =>
      Txn.each_bind (Txn.each_update fun db => growsBy_deleteFacts db _) fun _ => hrest
    exact growsBy_updateFacts db _ _ (fun _ => rfl) (fun _ => rfl) fun _ hr => hr
  · refine Txn.each_bind (Txn.each_update fun db => ?_) fun _ => hrest
    refine growsBy_updateFacts db _ _ (fun _ => rfl) (fun _ => rfl) fun r hr => ?_
    simp [FactRow.live, FactRow.retract] at hr

theorem each_forgetRow (now : Int) (row : Fragment) (secure : Bool) :
    (forgetRow now row secure).Each (GrowsBy l) := by
  have hrest : (deleteFragment row.id >>= fun _ => cascadeFacts row.agentId row.id secure now >>=
      fun _ => pure true).Each (GrowsBy l) :=
    Txn.each_bind (each_deleteFragment row.id) fun _ =>
      Txn.each_bind (each_cascadeFacts row.agentId row.id secure now) fun _ => trivial
  unfold forgetRow
  split
  · exact Txn.each_bind (each_updateFragment Fragment.erased_id row.id) fun _ => hrest
  · exact hrest

end GrowsBy

end MarkSdk
