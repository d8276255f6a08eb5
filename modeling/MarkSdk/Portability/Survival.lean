import Mathlib.Data.List.Pairwise
import MarkSdk.Facts.ReadBack
import MarkSdk.Portability.Documents
import MarkSdk.Portability.Facts

/-!
The facts of a restored store, as its readers see them.

The end of an added row is not in its line, and nothing computes it again. So
a timeline comes back as it was exactly when none of its added values has an
end (`facts_survive_iff`).
-/

namespace MarkSdk

open Lib

/-! ### What the readers show -/

/-- A fact without its id, and with its metadata as JSON gives it back. -/
def Fact.content (f : Fact) : Fact :=
  { f with id := "", metadata := PyValue.jsonEntries f.metadata }

/-- The readers show the same facts of a timeline here and there. -/
structure SameFacts (py : Python) (db db' : Db) (agentId agentId' subject attributeName : String) :
    Prop where
  history : (factHistory py db' agentId' subject attributeName).map Fact.content =
    (factHistory py db agentId subject attributeName).map Fact.content
  current : ∀ now,
    (factCurrent py now db' agentId' (some subject) (some attributeName)).map Fact.content =
      (factCurrent py now db agentId (some subject) (some attributeName)).map Fact.content
  asOf : ∀ when_, (factAsOf py db' agentId' subject attributeName when_).map Fact.content =
    (factAsOf py db agentId subject attributeName when_).map Fact.content

/-- What the readers show of a row, apart from its id. -/
def FactRow.view (r : FactRow) : FactContent × Option Int := (r.content, r.validTo)

def viewFact (py : Python) (v : FactContent × Option Int) : Fact where
  id := ""
  subject := v.1.subject
  attributeName := v.1.attributeName
  value := decodeValue py v.1.value
  validFrom := v.1.validFrom
  validTo := v.2
  recordedAt := v.1.recordedAt
  sourceFragmentId := v.1.sourceFragmentId
  metadata := v.1.metadata

theorem map_content_rowToFact (py : Python) (rows : List FactRow) :
    (rows.map (rowToFact py)).map Fact.content = (rows.map FactRow.view).map (viewFact py) := by
  rw [List.map_map, List.map_map]
  rfl

theorem map_content_pushHistory (history : List Fact) (f : Fact) :
    (pushHistory history f).map Fact.content =
      pushHistory (history.map Fact.content) f.content := by
  unfold pushHistory
  rw [List.getLast?_map]
  cases history.getLast? with
  | none => rfl
  | some last =>
      show _ = if last.value.eq f.value then _ else _
      simp only
      split
      · rw [List.map_append, List.map_dropLast]
        rfl
      · rw [List.map_append]
        rfl

theorem map_content_foldl_pushHistory (facts history : List Fact) :
    (facts.foldl pushHistory history).map Fact.content =
      (facts.map Fact.content).foldl pushHistory (history.map Fact.content) := by
  induction facts generalizing history with
  | nil => rfl
  | cons f facts ih => rw [List.foldl_cons, ih, map_content_pushHistory, List.map_cons,
      List.foldl_cons]

/-- A view covers a time as its row does. -/
def viewCovers (t : Int) : FactContent × Option Int → Bool :=
  Lib.covers (fun v => v.1.validFrom) Prod.snd t

theorem map_view_filter_covers (t : Int) (rows : List FactRow) :
    (rows.filter (FactRow.covers t)).map FactRow.view =
      (rows.map FactRow.view).filter (viewCovers t) := by
  rw [List.filter_map]
  rfl

/-- On one timeline, `fact_current` goes by the order of the timeline. -/
theorem current_eq_timeline (db : Db) (k : TimelineKey) (now : Int) :
    (rowsOpenAt db k now).insertionSort FactRow.beforeByKey =
      (timeline db k).filter (FactRow.covers now) := by
  have hsame : ∀ r ∈ rowsOpenAt db k now, ∀ s ∈ rowsOpenAt db k now,
      r.beforeByKey s ↔ r.before s := by
    intro r hr s hs
    have hrk : r.timelineKey = k := (mem_liveRows.mp (List.mem_filter.mp hr).1).2.2
    have hsk : s.timelineKey = k := (mem_liveRows.mp (List.mem_filter.mp hs).1).2.2
    have hsubject : r.subjectKey = s.subjectKey :=
      congrArg TimelineKey.subjectKey (hrk.trans hsk.symm)
    have hattribute : r.attributeKey = s.attributeKey :=
      congrArg TimelineKey.attributeKey (hrk.trans hsk.symm)
    unfold FactRow.beforeByKey
    simp [hsubject, hattribute]
  have hsort := List.map_insertionSort FactRow.beforeByKey FactRow.before id
    (rowsOpenAt db k now) hsame
  rw [List.map_id, List.map_id] at hsort
  rw [hsort]
  unfold rowsOpenAt timeline
  rw [filter_insertionSort]

/-- `fact_as_of` takes the one that was written last of the rows that begin
last. It is the last of them in the order of the timeline. -/
def LastRecorded (db : Db) (k : TimelineKey) : Prop :=
  ∀ t, asOfRow db k t = ((timeline db k).filter (FactRow.covers t)).getLast?

section Views

variable {py : Python} {db db' : Db} {agentId agentId' subject attributeName : String}

theorem history_of_views
    (h : (timeline db' (callKey py agentId' subject attributeName)).map FactRow.view =
      (timeline db (callKey py agentId subject attributeName)).map FactRow.view) :
    (factHistory py db' agentId' subject attributeName).map Fact.content =
      (factHistory py db agentId subject attributeName).map Fact.content := by
  unfold callKey at h
  unfold factHistory
  rw [map_content_foldl_pushHistory, map_content_foldl_pushHistory, map_content_rowToFact,
    map_content_rowToFact, h]

theorem current_view (now : Int) :
    (factCurrent py now db agentId (some subject) (some attributeName)).map Fact.content =
      (((timeline db (callKey py agentId subject attributeName)).map FactRow.view).filter
        (viewCovers now)).map (viewFact py) := by
  rw [factCurrent_eq, current_eq_timeline, map_content_rowToFact, map_view_filter_covers]

theorem asOf_view (when_ : Datetime) :
    (factAsOf py db agentId subject attributeName when_).map Fact.content =
      (asOfRow db (callKey py agentId subject attributeName) (utcText when_)).map
        fun r => viewFact py r.view := by
  unfold factAsOf callKey
  rw [Option.map_map]
  rfl

theorem LastRecorded.asOf_view
    (h : LastRecorded db (callKey py agentId subject attributeName)) (when_ : Datetime) :
    (factAsOf py db agentId subject attributeName when_).map Fact.content =
      ((((timeline db (callKey py agentId subject attributeName)).map FactRow.view).filter
        (viewCovers (utcText when_))).getLast?).map (viewFact py) := by
  rw [MarkSdk.asOf_view, h, ← map_view_filter_covers, List.getLast?_map, Option.map_map]
  rfl

/-- Equal views make equal readers. -/
theorem SameFacts.of_views
    (h : (timeline db' (callKey py agentId' subject attributeName)).map FactRow.view =
      (timeline db (callKey py agentId subject attributeName)).map FactRow.view)
    (hlast : LastRecorded db (callKey py agentId subject attributeName))
    (hlast' : LastRecorded db' (callKey py agentId' subject attributeName)) :
    SameFacts py db db' agentId agentId' subject attributeName where
  history := history_of_views h
  current now := by rw [current_view, current_view, h]
  asOf when_ := by rw [hlast.asOf_view, hlast'.asOf_view, h]

end Views

/-! ### A restored timeline -/

/-- `FactRow.before` on contents. -/
def FactContent.before (c d : FactContent) : Prop :=
  c.validFrom < d.validFrom ∨ (c.validFrom = d.validFrom ∧ c.recordedAt ≤ d.recordedAt)

section Restored

variable {db db' : Db} {k k' : TimelineKey}

/-- The rows of a restored timeline were written in its order. -/
theorem Restored.sorted (h : Restored k' ((timeline db k).map FactRow.content) db') :
    (liveRows db' k').Pairwise FactRow.before := by
  have hsorted : (timeline db k).Pairwise FactRow.before :=
    List.pairwise_insertionSort FactRow.before _
  have hcontents : ((timeline db k).map FactRow.content).Pairwise FactContent.before :=
    List.pairwise_map.mpr hsorted
  rw [← h.contents, List.pairwise_map] at hcontents
  exact hcontents

theorem Restored.timeline_eq (h : Restored k' ((timeline db k).map FactRow.content) db') :
    timeline db' k' = liveRows db' k' :=
  h.sorted.insertionSort_eq

theorem Restored.lastRecorded (h : Restored k' ((timeline db k).map FactRow.content) db') :
    LastRecorded db' k' := by
  intro t
  rw [h.timeline_eq]
  unfold asOfRow rowsOpenAt
  have hstarts : ((liveRows db' k').filter (FactRow.covers t)).Pairwise
      fun r s => r.validFrom ≤ s.validFrom := by
    refine (h.sorted.imp fun {r s} hrs => ?_).filter _
    unfold FactRow.before at hrs
    omega
  rw [hstarts.insertionSort_eq]

/-- The ends of a chained timeline follow from its contents, but for those of
the added rows. -/
theorem views_eq {rows rows' : List FactRow}
    (hcontents : rows'.map FactRow.content = rows.map FactRow.content)
    (htiles : Tiles FactRow.validFrom FactRow.validTo (rows.filter fun r => !r.isMulti))
    (htiles' : Tiles FactRow.validFrom FactRow.validTo (rows'.filter fun r => !r.isMulti))
    (hadded : ∀ r ∈ rows, r.isMulti = true → r.validTo = none)
    (hadded' : ∀ r ∈ rows', r.isMulti = true → r.validTo = none) :
    rows'.map FactRow.view = rows.map FactRow.view := by
  induction rows generalizing rows' with
  | nil =>
      rw [List.map_eq_nil_iff.mp hcontents]
  | cons r rows ih =>
      cases rows' with
      | nil => cases hcontents
      | cons r' rows' =>
          rw [List.map_cons, List.map_cons, List.cons.injEq] at hcontents
          obtain ⟨hr, hrows⟩ := hcontents
          have hmulti : r'.isMulti = r.isMulti := congrArg FactContent.isMulti hr
          have hrest := @ih rows' hrows
          have htail : ∀ s ∈ rows, s.isMulti = true → s.validTo = none :=
            fun s hs => hadded s (List.mem_cons_of_mem r hs)
          have htail' : ∀ s ∈ rows', s.isMulti = true → s.validTo = none :=
            fun s hs => hadded' s (List.mem_cons_of_mem r' hs)
          rw [List.map_cons, List.map_cons, List.cons.injEq]
          cases hset : r.isMulti with
          | true =>
              rw [List.filter_cons_of_neg (by simp [hset])] at htiles
              rw [List.filter_cons_of_neg (by simp [hmulti, hset])] at htiles'
              refine ⟨?_, hrest htiles htiles' htail htail'⟩
              rw [FactRow.view, FactRow.view, hr, hadded r List.mem_cons_self hset,
                hadded' r' List.mem_cons_self (hmulti.trans hset)]
          | false =>
              rw [List.filter_cons_of_pos (by simp [hset])] at htiles
              rw [List.filter_cons_of_pos (by simp [hmulti, hset])] at htiles'
              obtain ⟨hstop, htiles⟩ := tiles_cons_iff.mp htiles
              obtain ⟨hstop', htiles'⟩ := tiles_cons_iff.mp htiles'
              refine ⟨?_, hrest htiles htiles' htail htail'⟩
              -- the next set rows begin together
              have hnext : ∀ rows : List FactRow,
                  (rows.filter fun s => !s.isMulti).head?.map FactRow.validFrom =
                    ((rows.map FactRow.content).filter fun c => !c.isMulti).head?.map
                      FactContent.validFrom := by
                intro rows
                rw [List.filter_map, List.head?_map, Option.map_map]
                rfl
              rw [FactRow.view, FactRow.view, hr, hstop, hstop', hnext, hnext, hrows]

end Restored

/-! ### The backup -/

/-- No two live rows of a timeline agree in what `import_fact_row` compares. -/
def ToldApart (db : Db) (k : TimelineKey) : Prop :=
  ((timeline db k).map FactRow.content).Pairwise fun c d => c.same d = false

/-- No live added value of a timeline has an end. -/
def NothingEnded (db : Db) (k : TimelineKey) : Prop :=
  ∀ r ∈ liveRows db k, r.isMulti = true → r.validTo = none

section Survival

variable {py : Python} {db db' : Db} {agentId agentId' subject attributeName : String}

theorem ToldApart.eq {k : TimelineKey} (h : ToldApart db k) {r s : FactRow}
    (hr : r ∈ timeline db k) (hs : s ∈ timeline db k) (hsame : r.content.same s.content = true) :
    r = s := by
  have hsymm : Std.Symm fun a b : FactRow => a.content.same b.content = false := by
    refine ⟨fun a b hab => ?_⟩
    rw [← Bool.not_eq_true, FactContent.same_iff] at hab ⊢
    exact fun hba => hab ⟨hba.1.symm, hba.2.1.symm, hba.2.2.symm⟩
  by_contra hne
  have hdiffer := (List.pairwise_map.mp h).forall hr hs hne
  rw [hsame] at hdiffer
  cases hdiffer

/-- The value of a well made row is what its fact shows. -/
theorem value_eq_of_decode {r s : FactRow} (hr : r.WellMade py) (hs : s.WellMade py)
    (h : decodeValue py r.value = decodeValue py s.value) : r.value = s.value := by
  have hencoded := hr.value
  rw [h, hs.value] at hencoded
  exact (Except.ok.inj hencoded).symm

/-- Rows of one timeline whose facts show the same are one row. -/
theorem ToldApart.eq_of_content {k : TimelineKey} (h : ToldApart db k)
    (hmade : ∀ r ∈ db.facts.rows, r.WellMade py) {r s : FactRow} (hr : r ∈ timeline db k)
    (hs : s ∈ timeline db k) {stop stop' : Option Int}
    (hfact : viewFact py (r.content, stop) = viewFact py (s.content, stop')) : r = s := by
  refine h.eq hr hs (FactContent.same_iff.mpr ⟨congrArg Fact.validFrom hfact,
    congrArg Fact.recordedAt hfact, ?_⟩)
  exact value_eq_of_decode (hmade r (mem_timeline.mp hr).1) (hmade s (mem_timeline.mp hs).1)
    (congrArg Fact.value hfact)

section Converse

variable (hmade : ∀ r ∈ db.facts.rows, r.WellMade py)
  (hapart : ToldApart db (callKey py agentId subject attributeName))
  (hsame : SameFacts py db db' agentId agentId' subject attributeName)
include hmade hapart hsame

/-- A row that is restored without its end shows too late. -/
theorem nothingEnded_of_same
    (hcontents : (timeline db' (callKey py agentId' subject attributeName)).map FactRow.content =
      (timeline db (callKey py agentId subject attributeName)).map FactRow.content)
    (hopen : ∀ r ∈ timeline db' (callKey py agentId' subject attributeName),
      r.isMulti = true → r.validTo = none) :
    NothingEnded db (callKey py agentId subject attributeName) := by
  intro r hr hadded
  by_contra hended
  obtain ⟨stop, hstop⟩ := Option.ne_none_iff_exists'.mp hended
  have hr' : r ∈ timeline db (callKey py agentId subject attributeName) :=
    (timeline_perm _ _).mem_iff.mpr hr
  -- the row that was restored for `r` is still open when `r` has ended
  obtain ⟨s, hs, hcontent⟩ : ∃ s ∈ timeline db' (callKey py agentId' subject attributeName),
      s.content = r.content := by
    have hmem : r.content ∈
        (timeline db (callKey py agentId subject attributeName)).map FactRow.content :=
      List.mem_map_of_mem hr'
    rw [← hcontents] at hmem
    exact List.mem_map.mp hmem
  have hsopen : s.validTo = none :=
    hopen s hs ((congrArg FactContent.isMulti hcontent).trans hadded)
  have hstart : s.validFrom = r.validFrom := congrArg FactContent.validFrom hcontent
  have hcurrent := hsame.current (max stop r.validFrom)
  rw [current_view, current_view] at hcurrent
  have hshown : viewFact py s.view ∈
      (((timeline db (callKey py agentId subject attributeName)).map FactRow.view).filter
        (viewCovers (max stop r.validFrom))).map (viewFact py) := by
    rw [← hcurrent]
    refine List.mem_map_of_mem (List.mem_filter.mpr ⟨List.mem_map_of_mem hs, ?_⟩)
    simp [viewCovers, FactRow.view, hsopen, FactRow.content, hstart]
  obtain ⟨v, hv, hfact⟩ := List.mem_map.mp hshown
  obtain ⟨hv, hcovers⟩ := List.mem_filter.mp hv
  obtain ⟨u, hu, rfl⟩ := List.mem_map.mp hv
  have hur : u = r := by
    have hrestored : viewFact py u.view = viewFact py (r.content, s.validTo) := by
      rw [hfact, FactRow.view, hcontent]
    exact hapart.eq_of_content hmade hu hr' hrestored
  rw [hur] at hcovers
  have hbefore := (Lib.covers_iff.mp hcovers).2 stop hstop
  omega

/-- The row that `fact_as_of` finds is the last one of the timeline. -/
theorem lastRecorded_of_same
    (hviews : (timeline db' (callKey py agentId' subject attributeName)).map FactRow.view =
      (timeline db (callKey py agentId subject attributeName)).map FactRow.view)
    (hlast : LastRecorded db' (callKey py agentId' subject attributeName)) :
    LastRecorded db (callKey py agentId subject attributeName) := by
  intro t
  have hasOf := hsame.asOf (.ofInstant t)
  rw [hlast.asOf_view, asOf_view, hviews, ← map_view_filter_covers, List.getLast?_map,
    Option.map_map, utcText_ofInstant] at hasOf
  have hshown : ∀ r ∈ asOfRow db (callKey py agentId subject attributeName) t,
      ∀ s ∈ ((timeline db (callKey py agentId subject attributeName)).filter
        (FactRow.covers t)).getLast?, viewFact py r.view = viewFact py s.view → r = s := by
    intro r hr s hs hfact
    refine hapart.eq_of_content hmade (mem_timeline_of_asOfRow hr).1 ?_ hfact
    exact (List.mem_filter.mp (List.mem_of_getLast? hs)).1
  cases hrow : asOfRow db (callKey py agentId subject attributeName) t with
  | none =>
      rw [hrow, Option.map_none, Option.map_eq_none_iff] at hasOf
      exact hasOf.symm
  | some r =>
      rw [hrow, Option.map_some, Option.map_eq_some_iff] at hasOf
      obtain ⟨s, hs, hfact⟩ := hasOf
      rw [hs, hshown r hrow s hs hfact.symm]

end Converse

/-- The readers of a restored timeline show what they showed, exactly when no
added value had an end and the rowids go with the times of recording. -/
theorem Restored.sameFacts_iff (hmade : ∀ r ∈ db.facts.rows, r.WellMade py)
    (hchained : ChainedAt db (callKey py agentId subject attributeName))
    (hapart : ToldApart db (callKey py agentId subject attributeName))
    (h : Restored (callKey py agentId' subject attributeName)
      ((timeline db (callKey py agentId subject attributeName)).map FactRow.content) db') :
    SameFacts py db db' agentId agentId' subject attributeName ↔
      NothingEnded db (callKey py agentId subject attributeName) ∧
        LastRecorded db (callKey py agentId subject attributeName) := by
  have hcontents := h.contents
  rw [← h.timeline_eq] at hcontents
  have hopen : ∀ r ∈ timeline db' (callKey py agentId' subject attributeName),
      r.isMulti = true → r.validTo = none := by
    rw [h.timeline_eq]
    exact h.unended
  have hviews : NothingEnded db (callKey py agentId subject attributeName) →
      (timeline db' (callKey py agentId' subject attributeName)).map FactRow.view =
        (timeline db (callKey py agentId subject attributeName)).map FactRow.view := by
    intro hended
    refine views_eq hcontents hchained h.chained (fun r hr => hended r ?_) hopen
    exact (timeline_perm _ _).mem_iff.mp hr
  constructor
  · intro hsame
    have hended := nothingEnded_of_same hmade hapart hsame hcontents hopen
    exact ⟨hended, lastRecorded_of_same hmade hapart hsame (hviews hended) h.lastRecorded⟩
  · rintro ⟨hended, hlast⟩
    exact SameFacts.of_views (hviews hended) hlast h.lastRecorded

section Backup

variable {format : LineFormat} {pageFragments : Db → String → List Fragment}
  {flush flush' : Flush} {now now' : Int} {uuid uuid' : Nat → String} {override : Option String}
  {version exportedAt : String} {agents : List String} {encrypted decrypt : Bool}
  {documents : Documents} {file : List String} {restored again : Contents × ImportCounts}

theorem exportJsonl_eq_ok {contents : Contents}
    (h : exportJsonl py format pageFragments version exportedAt agents encrypted decrypt contents =
      .ok file) :
    file = (exportRecords py format pageFragments version exportedAt agents contents).map
      format.dumps := by
  unfold exportJsonl at h
  split at h
  · cases h
  · exact (Except.ok.inj h).symm

/-- One timeline in the store that a backup was restored to. -/
theorem sameFacts_restored_iff (hdb : Readable py format db) (hchained : Chained db)
    (hread : ∀ record ∈ exportRecords py format pageFragments version exportedAt agents
      ⟨db, documents⟩, format.Reads py record)
    (hagents : ∀ a ∈ agents, ∀ b ∈ agents, targetAgent override a = targetAgent override b → a = b)
    (hflush : flush.Frame) (huuid : Function.Injective uuid)
    (himport : importJsonl py format flush now uuid override
      ((exportRecords py format pageFragments version exportedAt agents ⟨db, documents⟩).map
        format.dumps) .empty = .ok restored)
    (hagent : agentId ∈ agents)
    (hapart : ToldApart db (callKey py agentId subject attributeName)) :
    SameFacts py db restored.1.db agentId (targetAgent override agentId) subject attributeName ↔
      NothingEnded db (callKey py agentId subject attributeName) ∧
        LastRecorded db (callKey py agentId subject attributeName) := by
  have hrows := restored_importJsonl hflush huuid hdb hread himport
    (callKey py (targetAgent override agentId) subject attributeName)
  have hown : broughtBy override db
      (callKey py (targetAgent override agentId) subject attributeName) agentId =
      (timeline db (callKey py agentId subject attributeName)).map FactRow.content := if_pos rfl
  have hbrings : ∀ a ∈ agents,
      broughtBy override db (callKey py (targetAgent override agentId) subject attributeName) a =
          (timeline db (callKey py agentId subject attributeName)).map FactRow.content ∨
        broughtBy override db (callKey py (targetAgent override agentId) subject attributeName) a =
          [] := by
    intro a ha
    by_cases htarget : targetAgent override a = targetAgent override agentId
    · rw [hagents a ha agentId hagent htarget]
      exact .inl hown
    · exact .inr (if_neg htarget)
  rw [collectAll_flatMap hapart hbrings ⟨agentId, hagent, hown⟩] at hrows
  exact hrows.sameFacts_iff hdb.wellMade (hchained.chainedAt _) hapart

theorem readable_runOps (hpy : py.RoundTrips) (hlower : py.LowerStrips) {ops : List FactOp}
    (hops : ∀ op ∈ ops, op.Plain)
    (htimes : ∀ r ∈ (runOps py ops .empty).facts.rows,
      format.ReadsTime r.validFrom ∧ format.ReadsTime r.recordedAt) :
    Readable py format (runOps py ops .empty) where
  wellMade := (wellMade_rowProperty hpy hlower).run ops hops fun r hr => by cases hr
  validFrom r hr := (htimes r hr).1
  recordedAt r hr := (htimes r hr).2

/-- The facts that any run of the fact calls leaves, exported and imported into
an empty store: a timeline in which no two live rows agree in `valid_from`,
`recorded_at` and value comes back as the readers showed it exactly when none
of its added values has an end and `fact_as_of` finds the row recorded last.
Importing the file again changes no fact. -/
theorem facts_survive_iff (hpy : py.RoundTrips) (hlower : py.LowerStrips)
    (ops : List FactOp) (hops : ∀ op ∈ ops, op.Plain)
    (htimes : ∀ r ∈ (runOps py ops .empty).facts.rows,
      format.ReadsTime r.validFrom ∧ format.ReadsTime r.recordedAt)
    (hread : ∀ record ∈ exportRecords py format pageFragments version exportedAt agents
      ⟨runOps py ops .empty, documents⟩, format.Reads py record)
    (hagents : ∀ a ∈ agents, ∀ b ∈ agents, targetAgent override a = targetAgent override b → a = b)
    (hflush : flush.Frame) (hflush' : flush'.Frame) (huuid : Function.Injective uuid)
    (hexport : exportJsonl py format pageFragments version exportedAt agents encrypted decrypt
      ⟨runOps py ops .empty, documents⟩ = .ok file)
    (himport : importJsonl py format flush now uuid override file .empty = .ok restored)
    (hagain : importJsonl py format flush' now' uuid' override file restored.1 = .ok again) :
    (∀ agentId ∈ agents, ∀ subject attributeName,
      ToldApart (runOps py ops .empty) (callKey py agentId subject attributeName) →
        (SameFacts py (runOps py ops .empty) restored.1.db agentId (targetAgent override agentId)
            subject attributeName ↔
          NothingEnded (runOps py ops .empty) (callKey py agentId subject attributeName) ∧
            LastRecorded (runOps py ops .empty) (callKey py agentId subject attributeName))) ∧
      again.1.db.facts = restored.1.db.facts := by
  have hdb := readable_runOps hpy hlower hops htimes
  rw [exportJsonl_eq_ok hexport] at himport hagain
  constructor
  · intro agentId hagent subject attributeName hapart
    exact sameFacts_restored_iff hdb (chained_run ops chained_empty) hread hagents hflush huuid
      himport hagent hapart
  · have hrestored := restored_importJsonl hflush huuid hdb hread himport
    exact facts_imported_again hflush' hdb hread
      (fun agentId hagent r hr => (hrestored _).finds hagent hr rfl) hagain

end Backup

end Survival

/-! ### The file of one port -/

theorem lowerStrips_reading {table : List (String × Metadata)} :
    (Python.reading table).LowerStrips := lowerStrips_basic

/-- The characters of a JSON line. -/
def jsonChars (record : Metadata) : List Char :=
  '\x7b' :: ([',', ' '].intercalate (record.map fun entry =>
    (jsonString entry.1).toList ++ ':' :: ' ' :: ((jsonText entry.2).getD "").toList) ++ ['\x7d'])

theorem toList_commaJoin (texts : List String) :
    (commaJoin texts).toList = [',', ' '].intercalate (texts.map String.toList) := by
  fun_induction commaJoin texts with
  | case1 => rfl
  | case2 text => simp
  | case3 text texts hne ih =>
      cases texts with
      | nil => exact absurd rfl hne
      | cons t ts =>
          rw [String.toList_append, String.toList_append, ih]
          simp [List.intercalate]

theorem toList_jsonLine (record : Metadata) : (jsonLine record).toList = jsonChars record := by
  unfold jsonLine jsonChars
  rw [String.toList_append, String.toList_append, toList_commaJoin, List.map_map]
  simp [Function.comp_def]

def portTimes : List (Int × String) :=
  [(0, "1970-01-01T00:00:00+00:00"), (10, "1970-01-01T00:00:10+00:00")]

def portFormat : LineFormat where
  dumps := jsonLine
  isoformat t := (portTimes.lookup t).getD ""
  fromisoformat text := (portTimes.find? fun e => e.2 = text).map fun e => .ofInstant e.1
  modelDump _ := []

/-- The file of a store whose only row is the port, added at 10 for the time
from 0 on, until any time. -/
def portRecords : List Metadata :=
  [headerLine ["agent"] "1" "",
    [("type", .str "fact"), ("agent_id", .str "agent"), ("subject", .str "api"),
      ("attribute", .str "port"), ("value", .str "80"),
      ("valid_from", .str "1970-01-01T00:00:00+00:00"),
      ("recorded_at", .str "1970-01-01T00:00:10+00:00"), ("source_fragment_id", .none),
      ("metadata", .dict [("multi_valued", .bool true)])]]

/-- The objects of the file, as its lines have them and with sorted keys. -/
def portObjects : List Metadata :=
  [] :: [("multi_valued", .bool true)] :: portRecords ++
    portRecords.map (List.insertionSort fun p q => p.1 ≤ q.1)

def portTable : List (String × Metadata) :=
  portObjects.map fun record => (jsonLine record, record)

theorem canonical_portTable : Canonical portTable where
  nodup := by
    have hchars : (portObjects.map jsonChars).Nodup := by decide +kernel
    have htexts : (portTable.map Prod.fst).map String.toList = portObjects.map jsonChars := by
      unfold portTable
      rw [List.map_map, List.map_map]
      exact List.map_congr_left fun record _ => toList_jsonLine record
    rw [← htexts] at hchars
    exact .of_map String.toList hchars
  braces e he := by
    obtain ⟨record, -, rfl⟩ := List.mem_map.mp he
    rw [toList_jsonLine]
    rfl
  written := by decide +kernel

def Python.port : Python := .reading portTable

def portRemoved : List FactOp :=
  portAdded ++ [.remove "agent" "api" "port" (.str "80") (.ofInstant 5)]

theorem exportRecords_portAdded :
    exportRecords .port portFormat (fun _ _ => []) "1" "" ["agent"]
      ⟨runOps .port portAdded .empty, .empty⟩ = portRecords := by
  unfold exportRecords portRecords
  rw [List.flatMap_cons, List.flatMap_nil, List.append_nil]
  rfl

theorem exportRecords_portRemoved :
    exportRecords .port portFormat (fun _ _ => []) "1" "" ["agent"]
      ⟨runOps .port portRemoved .empty, .empty⟩ = portRecords := by
  unfold exportRecords portRecords
  rw [List.flatMap_cons, List.flatMap_nil, List.append_nil]
  rfl

theorem strip_jsonLine (record : Metadata) : strip (jsonLine record) ≠ "" := by
  have hbrace : isSpace '\x7b' = false := by decide
  intro hempty
  have hchars := congrArg String.toList hempty
  rw [strip, String.toList_ofList, toList_jsonLine, jsonChars, stripChars,
    List.dropWhile_cons_of_neg (by simp [hbrace]), rstripChars_cons hbrace] at hchars
  cases hchars

theorem reads_portRecords {record : Metadata} (h : record ∈ portRecords) :
    portFormat.Reads .port record := by
  have hobject : record ∈ portObjects :=
    List.mem_append_left _ (List.mem_cons_of_mem _ (List.mem_cons_of_mem _ h))
  have hlookup : portTable.lookup (jsonLine record) = some record :=
    canonical_portTable.lookup (e := (jsonLine record, record)) (List.mem_map_of_mem hobject)
  refine ⟨strip_jsonLine record, ?_⟩
  simp only [Python.port, Python.reading, portFormat, hlookup]

theorem readsTime_port {t : Int} (h : t ∈ portTimes.map Prod.fst) : portFormat.ReadsTime t where
  reads := by
    revert t
    simp only [portTimes, portFormat]
    decide
  text := by
    revert t
    decide

theorem readsTime_rows {db : Db}
    (h : db.facts.rows.map (fun r => (r.validFrom, r.recordedAt)) = [(0, 10)]) :
    ∀ r ∈ db.facts.rows,
      portFormat.ReadsTime r.validFrom ∧ portFormat.ReadsTime r.recordedAt := by
  intro r hr
  have hmem := List.mem_map_of_mem (f := fun r => (r.validFrom, r.recordedAt)) hr
  rw [h, List.mem_singleton, Prod.mk.injEq] at hmem
  rw [hmem.1, hmem.2]
  exact ⟨readsTime_port (by decide), readsTime_port (by decide)⟩

def lineId (number : Nat) : String := String.ofList (List.replicate number 'u')

theorem lineId_injective : Function.Injective lineId := by
  intro m n h
  have hlength := congrArg (fun text => text.toList.length) h
  simpa [lineId] using hlength

theorem import_port (contents : Contents) : ∃ restored,
    importJsonl .port portFormat noMemories 20 lineId none (portRecords.map jsonLine) contents =
      .ok restored := by
  have hheader : checkHeader .port (jsonLine (headerLine ["agent"] "1" "")) = true := by
    have hread : Python.port.loads (jsonLine (headerLine ["agent"] "1" "")) =
        some (.dict (headerLine ["agent"] "1" "")) := (reads_portRecords List.mem_cons_self).2
    unfold checkHeader
    rw [hread]
    decide +kernel
  unfold importJsonl
  rw [portRecords, List.map_cons]
  simp only [hheader, if_true]
  exact ⟨_, rfl⟩

theorem facts_survive_iff_portAdded : ∃ restored again,
    importJsonl .port portFormat noMemories 20 lineId none (portRecords.map jsonLine) .empty =
        .ok restored ∧
      importJsonl .port portFormat noMemories 20 lineId none (portRecords.map jsonLine)
        restored.1 = .ok again ∧
      (∀ agentId ∈ ["agent"], ∀ subject attributeName,
        ToldApart (runOps .port portAdded .empty) (callKey .port agentId subject attributeName) →
          (SameFacts .port (runOps .port portAdded .empty) restored.1.db agentId
              (targetAgent none agentId) subject attributeName ↔
            NothingEnded (runOps .port portAdded .empty)
                (callKey .port agentId subject attributeName) ∧
              LastRecorded (runOps .port portAdded .empty)
                (callKey .port agentId subject attributeName))) ∧
      again.1.db.facts = restored.1.db.facts := by
  obtain ⟨restored, himport⟩ := import_port .empty
  obtain ⟨again, hagain⟩ := import_port restored.1
  have hrows : (runOps .port portAdded .empty).facts.rows.map
      (fun r => (r.validFrom, r.recordedAt)) = [(0, 10)] := by decide +kernel
  have hplain : ∀ op ∈ portAdded, op.Plain := by
    intro op hop
    rw [List.mem_singleton.mp hop]
    intro text h
    cases h
  have hfile : exportJsonl .port portFormat (fun _ _ => []) "1" "" ["agent"] false false
      ⟨runOps .port portAdded .empty, .empty⟩ = .ok (portRecords.map jsonLine) := by
    show Except.ok ((exportRecords .port portFormat (fun _ _ => []) "1" "" ["agent"]
      ⟨runOps .port portAdded .empty, .empty⟩).map jsonLine) = _
    rw [exportRecords_portAdded]
  exact ⟨restored, again, himport, hagain,
    facts_survive_iff canonical_portTable.roundTrips lowerStrips_reading portAdded hplain
      (readsTime_rows hrows)
      (fun _ h => reads_portRecords (exportRecords_portAdded ▸ h))
      (fun a ha b hb _ => (List.mem_singleton.mp ha).trans (List.mem_singleton.mp hb).symm)
      frame_noMemories frame_noMemories lineId_injective hfile himport hagain⟩

/-- The port that was removed comes back without its end. -/
theorem portRemoved_comes_back : ∃ restored,
    exportJsonl .port portFormat (fun _ _ => []) "1" "" ["agent"] false false
        ⟨runOps .port portRemoved .empty, .empty⟩ = .ok (portRecords.map jsonLine) ∧
      importJsonl .port portFormat noMemories 20 lineId none (portRecords.map jsonLine) .empty =
        .ok restored ∧
      ¬ SameFacts .port (runOps .port portRemoved .empty) restored.1.db "agent" "agent" "api"
        "port" := by
  obtain ⟨restored, himport⟩ := import_port .empty
  have hfile : exportJsonl .port portFormat (fun _ _ => []) "1" "" ["agent"] false false
      ⟨runOps .port portRemoved .empty, .empty⟩ = .ok (portRecords.map jsonLine) := by
    show Except.ok ((exportRecords .port portFormat (fun _ _ => []) "1" "" ["agent"]
      ⟨runOps .port portRemoved .empty, .empty⟩).map jsonLine) = _
    rw [exportRecords_portRemoved]
  refine ⟨restored, hfile, himport, fun hsame => ?_⟩
  have htimes : (runOps .port portRemoved .empty).facts.rows.map
      (fun r => (r.validFrom, r.recordedAt)) = [(0, 10)] := by decide +kernel
  have hplain : ∀ op ∈ portRemoved, op.Plain := by
    intro op hop
    rcases List.mem_cons.mp hop with rfl | hop
    · intro text h
      cases h
    · rw [List.mem_singleton.mp hop]
      trivial
  have hrows : (timeline (runOps .port portRemoved .empty)
      (callKey .port "agent" "api" "port")).map (fun r => (r.isMulti, r.validTo)) =
        [(true, some 5)] := by decide +kernel
  have hlength := congrArg List.length hrows
  rw [List.length_map] at hlength
  obtain ⟨r, hr⟩ := List.length_eq_one_iff.mp hlength
  have hapart : ToldApart (runOps .port portRemoved .empty)
      (callKey .port "agent" "api" "port") := by
    unfold ToldApart
    rw [hr]
    exact List.pairwise_singleton _ _
  rw [hr, List.map_singleton, List.cons.injEq, Prod.mk.injEq] at hrows
  have hread : ∀ record ∈ exportRecords .port portFormat (fun _ _ => []) "1" "" ["agent"]
      ⟨runOps .port portRemoved .empty, .empty⟩, portFormat.Reads .port record :=
    fun _ h => reads_portRecords (exportRecords_portRemoved ▸ h)
  have hiff := sameFacts_restored_iff
    (readable_runOps canonical_portTable.roundTrips lowerStrips_reading hplain
      (readsTime_rows htimes))
    (chained_run portRemoved chained_empty) hread
    (fun a ha b hb _ => (List.mem_singleton.mp ha).trans (List.mem_singleton.mp hb).symm)
    frame_noMemories lineId_injective (exportRecords_portRemoved ▸ himport)
    (List.mem_singleton_self "agent") hapart
  have hended := (hiff.mp hsame).1 r
    ((timeline_perm _ _).mem_iff.mp (hr ▸ List.mem_singleton_self r)) hrows.1.1
  rw [hrows.1.2] at hended
  cases hended

end MarkSdk
