import Mathlib.Data.List.Count
import MarkSdk.Facts.Histories
import MarkSdk.Facts.RowRules
import MarkSdk.Retrieval.TwoClocks
import MarkSdk.Store.FactKeys

/-!
The timeline of a subject: its facts and the memories that mention it.

The attributes of a subject are found through its current facts, and the
history of each is read for every current fact found. A fact that was
extracted from one of the memories is folded into that memory's event.
-/

namespace MarkSdk

open Lib

/-- A time with an offset: the instant, and its text and date by that offset. -/
structure EventTime where
  instant : Int
  isoformat : String
  date : String

/-- The tests that the text of memories is put to. -/
structure MentionRules where
  anchorNorm : String → String
  /-- Retrievable, not expired, and names the anchor and the attribute's terms. -/
  accepts : String → Option String → Fragment → Bool
  declaredEventTime : Fragment → Option EventTime
  /-- The date of an instant in UTC. -/
  utcDate : Int → String

inductive EventKind : Type
  | fact | memory
  deriving DecidableEq, Repr

structure TimelineEvent where
  when_ : Int
  /-- `when.date().isoformat()` -/
  date : String
  kind : EventKind
  text : String
  dated : Bool
  fragmentId : Option String
  factId : Option String
  storedAt : Int
  sameDay : Option (Nat × Nat)
  basis : Basis

structure SubjectTimeline where
  subject : String
  attributeName : Option String
  events : List TimelineEvent
  truncated : Nat

section Build

variable (py : Python) (rules : MentionRules)

/-- A re-ingested line is kept once, as it was first stored. -/
def keepFirst {κ : Type} [DecidableEq κ] (key : Fragment → κ) :
    List κ → List Fragment → List Fragment
  | _, [] => []
  | seen, f :: fragments =>
      if key f ∈ seen then keepFirst key seen fragments
      else f :: keepFirst key (key f :: seen) fragments

def mentions (db : Db) (agentId anchor : String) (attributeName : Option String) : List Fragment :=
  keepFirst (fun f => (rules.anchorNorm f.content,
      (rules.declaredEventTime f).elim "" EventTime.isoformat)) []
    (db.fragments.rows.filter fun f => f.agentId = agentId && rules.accepts anchor attributeName f)

/-- `_facts` -/
def timelineFacts (now : Int) (db : Db) (agentId subject : String)
    (attributeName : Option String) : List Fact :=
  match attributeName with
  | some a => factHistory py db agentId subject a
  | none =>
      -- taken to have just one current row for each attribute
      (factCurrent py now db agentId (some subject) none).flatMap fun current =>
        factHistory py db agentId subject current.attributeName

/-- The facts folded into memories, and those that are events of their own. -/
structure Folding where
  folded : List (String × String) := []
  own : List Fact := []

def foldFact (byFragment : List String) (st : Folding) (fact : Fact) : Folding :=
  match fact.sourceFragmentId with
  | some source =>
      if source ≠ "" ∧ source ∈ byFragment ∧ source ∉ st.folded.map Prod.fst then
        { st with folded := st.folded ++ [(source, fact.id)] }
      else { st with own := st.own ++ [fact] }
  | none => { st with own := st.own ++ [fact] }

/-- `folded.get(fragment_id)` -/
def Folding.factOf (st : Folding) (fragmentId : String) : Option String :=
  (st.folded.find? fun e => e.1 = fragmentId).map Prod.snd

def factEvent (fact : Fact) : TimelineEvent where
  when_ := fact.validFrom
  date := rules.utcDate fact.validFrom
  kind := .fact
  text := fact.subject ++ " " ++ fact.attributeName ++ " = " ++ pyStr py fact.value
  dated := true
  fragmentId := none
  factId := some fact.id
  storedAt := fact.recordedAt
  sameDay := none
  basis := .declared

def memoryEvent (st : Folding) (f : Fragment) : TimelineEvent where
  when_ := (rules.declaredEventTime f).elim f.createdAt EventTime.instant
  date := (rules.declaredEventTime f).elim (rules.utcDate f.createdAt) EventTime.date
  kind := .memory
  text := f.content
  dated := (rules.declaredEventTime f).isSome
  fragmentId := some f.id
  factId := st.factOf f.id
  storedAt := f.createdAt
  sameDay := none
  basis := .declared

/-- `_label_same_day`: of the events that are placed by a declared time, those
of one date are numbered, if there are several. -/
def labelSameDay (events : List TimelineEvent) : List TimelineEvent :=
  events.mapIdx fun i event =>
    let members := fun l : List TimelineEvent =>
      (l.filter fun e => e.basis = .declared ∧ e.date = event.date).length
    { event with
      sameDay :=
        if event.basis = .declared ∧ 1 < members events then
          some (members (events.take i) + 1, members events)
        else none }

def timelineEvents (facts : List Fact) (memories : List Fragment) : List TimelineEvent :=
  let st := facts.foldl (foldFact (memories.map Fragment.id)) {}
  let candidates := st.own.map (factEvent py rules) ++ memories.map (memoryEvent rules st)
  labelSameDay ((twoClockOrder (fun e => if e.dated then some e.when_ else none)
    TimelineEvent.storedAt candidates).map fun e => { e.1 with basis := e.2 })

def buildTimeline (now : Int) (db : Db) (agentId subject : String) (attributeName : Option String)
    (since till : Option Int) (limit : Option Nat) : Except StoreError SubjectTimeline :=
  if rules.anchorNorm subject = "" then
    .error (.valueError "timeline subject must contain letters or digits")
  else
    let stripped := (attributeName.map strip).filter (· ≠ "")
    let memories := mentions rules db agentId (rules.anchorNorm subject) stripped
    let events := timelineEvents py rules (timelineFacts py now db agentId subject stripped) memories
    let within := events.filter fun e =>
      (since.all fun low => low ≤ e.when_) && till.all fun high => e.when_ ≤ high
    let truncated := limit.elim 0 fun n => within.length - n
    .ok ⟨subject, stripped, within.drop truncated, truncated⟩

end Build

/-- The facts that a timeline reports, in events of their own or folded into the
events of memories. -/
def SubjectTimeline.factIds (t : SubjectTimeline) : List String :=
  t.events.filterMap TimelineEvent.factId

/-- Every entry of the history of every attribute is reported once. -/
def ReportsFacts (py : Python) (rules : MentionRules) (now : Int) (db : Db)
    (agentId subject : String) : Prop :=
  ∃ t, buildTimeline py rules now db agentId subject none none none none = .ok t ∧
    ∀ attributeName, ∀ entry ∈ factHistory py db agentId subject attributeName,
      t.factIds.count entry.id = 1

/-! ### Folding facts into memories -/

section Folding

variable {py : Python} {rules : MentionRules}

/-- The facts so far are folded or have their own events, and no memory has two. -/
structure Folding.Sound (byFragment : List String) (facts : List Fact) (st : Folding) : Prop where
  each : (st.own.map Fact.id ++ st.folded.map Prod.snd).Perm (facts.map Fact.id)
  one : (st.folded.map Prod.fst).Nodup
  known : ∀ source ∈ st.folded.map Prod.fst, source ∈ byFragment

theorem Folding.Sound.foldFact {byFragment : List String} {facts : List Fact} {st : Folding}
    (h : st.Sound byFragment facts) (fact : Fact) :
    (foldFact byFragment st fact).Sound byFragment (facts ++ [fact]) := by
  have hown : ({ st with own := st.own ++ [fact] } : Folding).Sound byFragment
      (facts ++ [fact]) := by
    refine ⟨?_, h.one, h.known⟩
    rw [List.map_append, List.map_append, List.append_assoc]
    refine (List.perm_append_comm.append_left _).trans ?_
    rw [← List.append_assoc]
    exact h.each.append_right _
  rw [MarkSdk.foldFact]
  cases fact.sourceFragmentId with
  | none => exact hown
  | some source =>
      dsimp only
      split
      case isTrue hfold =>
        obtain ⟨-, hknown, hnew⟩ := hfold
        refine ⟨?_, ?_, ?_⟩
        · rw [List.map_append, List.map_append, ← List.append_assoc]
          exact h.each.append_right _
        · rw [List.map_append, List.nodup_append]
          refine ⟨h.one, List.nodup_singleton _, ?_⟩
          intro a ha b hb
          rw [List.map_singleton, List.mem_singleton] at hb
          rintro rfl
          rw [hb] at ha
          exact hnew ha
        · intro a ha
          rw [List.map_append, List.mem_append, List.map_singleton, List.mem_singleton] at ha
          rcases ha with ha | rfl
          · exact h.known a ha
          · exact hknown
      case isFalse => exact hown

theorem sound_foldl (byFragment : List String) (facts : List Fact) :
    (facts.foldl (foldFact byFragment) {}).Sound byFragment facts := by
  induction facts using List.reverseRecOn with
  | nil => exact ⟨List.Perm.refl _, List.nodup_nil, by simp⟩
  | append_singleton facts fact ih =>
      rw [List.foldl_append]
      exact ih.foldFact fact

/-- Looked up memory by memory, the folded facts are found once each. -/
theorem filterMap_factOf {byFragment : List String} {facts : List Fact} {st : Folding}
    (h : st.Sound byFragment facts) (hnodup : byFragment.Nodup) :
    (byFragment.filterMap st.factOf).Perm (st.folded.map Prod.snd) := by
  have hfound : ∀ e ∈ st.folded, st.factOf e.1 = some e.2 := by
    intro e he
    have hfind : (st.folded.find? fun x => x.1 = e.1) = some e := by
      have hsome : (st.folded.find? fun x => x.1 = e.1).isSome = true :=
        List.find?_isSome.mpr ⟨e, he, by simp⟩
      obtain ⟨x, hx⟩ := Option.isSome_iff_exists.mp hsome
      have hkey := List.find?_some hx
      have hmem := List.mem_of_find?_eq_some hx
      rw [hx, List.inj_on_of_nodup_map h.one hmem he (of_decide_eq_true hkey)]
    rw [Folding.factOf, hfind]
    rfl
  have hmissing : ∀ source, source ∉ st.folded.map Prod.fst → st.factOf source = none := by
    intro source hsource
    rw [Folding.factOf, Option.map_eq_none_iff, List.find?_eq_none]
    intro e he heq
    exact hsource (List.mem_map.mpr ⟨e, he, of_decide_eq_true heq⟩)
  have hkeys : (byFragment.filter fun s => s ∈ st.folded.map Prod.fst).Perm
      (st.folded.map Prod.fst) := by
    refine (List.perm_ext_iff_of_nodup (hnodup.filter _) h.one).mpr fun source => ?_
    rw [List.mem_filter, decide_eq_true_eq]
    exact ⟨fun hs => hs.2, fun hs => ⟨h.known source hs, hs⟩⟩
  have hsplit : byFragment.filterMap st.factOf =
      (byFragment.filter fun s => s ∈ st.folded.map Prod.fst).filterMap st.factOf := by
    rw [List.filterMap_filter]
    refine List.filterMap_congr fun source _ => ?_
    by_cases hs : source ∈ st.folded.map Prod.fst
    · rw [if_pos (decide_eq_true hs)]
    · rw [if_neg (by simpa using hs), hmissing source hs]
  rw [hsplit]
  refine (hkeys.filterMap _).trans ?_
  rw [List.filterMap_map, List.filterMap_congr (g := fun e => some e.2) hfound,
    List.filterMap_eq_map']

theorem keepFirst_sublist {κ : Type} [DecidableEq κ] (key : Fragment → κ) (seen : List κ)
    (fragments : List Fragment) :
    (keepFirst key seen fragments).Sublist fragments := by
  induction fragments generalizing seen with
  | nil => exact List.Sublist.refl _
  | cons f fragments ih =>
      rw [keepFirst]
      split
      · exact (ih seen).cons f
      · exact (ih (key f :: seen)).cons_cons f

theorem mentions_nodup (db : Db) (agentId anchor : String) (attributeName : Option String) :
    ((mentions rules db agentId anchor attributeName).map Fragment.id).Nodup := by
  refine db.fragments.nodup.sublist (List.Sublist.map _ ?_)
  exact (keepFirst_sublist _ _ _).trans List.filter_sublist

theorem filterMap_factId_labelSameDay (events : List TimelineEvent) :
    (labelSameDay events).filterMap TimelineEvent.factId =
      events.filterMap TimelineEvent.factId := by
  have hmap : (labelSameDay events).map TimelineEvent.factId =
      events.map TimelineEvent.factId := by
    refine List.ext_getElem? fun i => ?_
    rw [labelSameDay, List.getElem?_map, List.getElem?_mapIdx, List.getElem?_map, Option.map_map]
    rfl
  have hids := congrArg (List.filterMap id) hmap
  rwa [List.filterMap_map, List.filterMap_map, Function.id_comp] at hids

variable (py rules) in
/-- Every fact given is reported, as often as it is given. -/
theorem timelineEvents_factIds (facts : List Fact) (memories : List Fragment)
    (hnodup : (memories.map Fragment.id).Nodup) :
    ((timelineEvents py rules facts memories).filterMap TimelineEvent.factId).Perm
      (facts.map Fact.id) := by
  have hsound := sound_foldl (memories.map Fragment.id) facts
  rw [timelineEvents]
  dsimp only
  generalize facts.foldl (foldFact (memories.map Fragment.id)) {} = st at hsound ⊢
  have horder := twoClockOrder_perm (fun e : TimelineEvent => if e.dated then some e.when_ else none)
    TimelineEvent.storedAt (st.own.map (factEvent py rules) ++ memories.map (memoryEvent rules st))
  rw [filterMap_factId_labelSameDay, List.filterMap_map]
  have hids : ∀ ordered : List (TimelineEvent × Basis),
      ordered.filterMap (TimelineEvent.factId ∘ fun e => { e.1 with basis := e.2 }) =
        (ordered.map Prod.fst).filterMap TimelineEvent.factId := by
    intro ordered
    rw [List.filterMap_map]
    rfl
  rw [hids]
  refine (horder.filterMap _).trans ?_
  rw [List.filterMap_append, List.filterMap_map, List.filterMap_map]
  have hown : st.own.filterMap (TimelineEvent.factId ∘ factEvent py rules) = st.own.map Fact.id := by
    rw [← List.filterMap_eq_map']
    rfl
  have hmemories : memories.filterMap (TimelineEvent.factId ∘ memoryEvent rules st) =
      (memories.map Fragment.id).filterMap st.factOf := by
    rw [List.filterMap_map]
    rfl
  rw [hown, hmemories]
  exact ((filterMap_factOf hsound hnodup).append_left _).trans hsound.each

end Folding

/-! ### Histories -/

section Histories

variable {py : Python} {rules : MentionRules} {now : Int} {db : Db} {agentId subject : String}

def historyIds (py : Python) (db : Db) (agentId subject attributeName : String) : List String :=
  (factHistory py db agentId subject attributeName).map Fact.id

theorem historyIds_eq (attributeName : String) :
    historyIds py db agentId subject attributeName =
      ((collapseRuns (FactRow.repeats py)
        (timeline db ⟨agentId, factKey py subject, factKey py attributeName⟩)).map Prod.fst).map
          FactRow.id := by
  rw [historyIds, factHistory_eq, List.map_map, List.map_map]
  rfl

/-- The first rows of runs are rows of the timeline, in its order. -/
theorem heads_sublist (same : FactRow → FactRow → Bool) (rows : List FactRow) :
    ((collapseRuns same rows).map Prod.fst).Sublist rows := by
  conv => rhs; rw [← flatMap_collapseRuns same rows]
  induction collapseRuns same rows with
  | nil => exact List.Sublist.refl _
  | cons run runs ih =>
      rw [List.map_cons, List.flatMap_cons, members, List.cons_append]
      exact (ih.trans (List.sublist_append_right _ _)).cons_cons run.1

theorem historyIds_nodup (attributeName : String) :
    (historyIds py db agentId subject attributeName).Nodup := by
  rw [historyIds_eq]
  have hrows : ((timeline db ⟨agentId, factKey py subject, factKey py attributeName⟩).map
      FactRow.id).Nodup := by
    refine (((List.perm_insertionSort _ _).map _).nodup_iff).mpr ?_
    exact db.facts.nodup.sublist (List.filter_sublist.map _)
  exact hrows.sublist ((heads_sublist _ _).map _)

/-- An entry belongs to one attribute. -/
theorem historyIds_disjoint {a b id : String} (ha : id ∈ historyIds py db agentId subject a)
    (hb : id ∈ historyIds py db agentId subject b) : factKey py a = factKey py b := by
  rw [historyIds_eq] at ha hb
  obtain ⟨r, hr, rfl⟩ := List.mem_map.mp ha
  obtain ⟨s, hs, hid⟩ := List.mem_map.mp hb
  obtain ⟨hrow, -, hkey⟩ := mem_timeline.mp ((heads_sublist _ _).subset hr)
  obtain ⟨hrow', -, hkey'⟩ := mem_timeline.mp ((heads_sublist _ _).subset hs)
  rw [db.facts.eq_of_key hrow' hrow hid] at hkey'
  exact (TimelineKey.mk.inj (hkey.symm.trans hkey')).2.2

/-- How often an entry is given is how often its attribute is current. -/
theorem count_timelineFacts {attributeName id : String} (currents : List Fact)
    (hid : id ∈ historyIds py db agentId subject attributeName) :
    ((currents.flatMap fun current =>
        factHistory py db agentId subject current.attributeName).map Fact.id).count id =
      currents.countP fun current => factKey py current.attributeName = factKey py attributeName := by
  induction currents with
  | nil => rfl
  | cons current currents ih =>
      rw [List.flatMap_cons, List.map_append, List.count_append, ih, List.countP_cons]
      by_cases hkey : factKey py current.attributeName = factKey py attributeName
      · have hsame : (factHistory py db agentId subject current.attributeName).map Fact.id =
            historyIds py db agentId subject attributeName := by
          rw [historyIds, factHistory, factHistory, hkey]
        rw [hsame, List.count_eq_one_of_mem (historyIds_nodup attributeName) hid,
          if_pos (decide_eq_true hkey), Nat.add_comm]
      · have hnone : ((factHistory py db agentId subject current.attributeName).map
            Fact.id).count id = 0 :=
          List.count_eq_zero.mpr fun hin => hkey (historyIds_disjoint hin hid)
        rw [hnone, if_neg (by simpa using hkey), Nat.zero_add, Nat.add_zero]

/-- The key of every row is the key of its attribute. -/
theorem attributeKey_rule (hstrips : py.LowerStrips) :
    RowRule py (fun _ => True) fun r => factKey py r.attributeName = r.attributeKey where
  endAt _ _ h := h
  retract _ _ h := h
  row req _ _ _ _ _ _ _ := factKey_strip hstrips req.attributeName

theorem attributeKey_run (hstrips : py.LowerStrips) (ops : List FactOp) :
    ∀ r ∈ (runOps py ops .empty).facts.rows, factKey py r.attributeName = r.attributeKey := by
  refine (attributeKey_rule hstrips).run ops (fun op _ => ?_) fun r hr => absurd hr List.not_mem_nil
  cases op <;> trivial

/-- The current facts of one attribute, among those of the subject. -/
theorem countP_factCurrent
    (hkeys : ∀ r ∈ db.facts.rows, factKey py r.attributeName = r.attributeKey)
    (attributeName : String) :
    ((factCurrent py now db agentId (some subject) none).countP
        fun current => factKey py current.attributeName = factKey py attributeName) =
      (factCurrent py now db agentId (some subject) (some attributeName)).length := by
  rw [factCurrent, factCurrent, List.countP_map, List.length_map, List.length_insertionSort,
    (List.perm_insertionSort _ _).countP_eq, List.countP_eq_length_filter, List.filter_filter]
  refine congrArg List.length (List.filter_congr fun r hr => ?_)
  have hkey : (rowToFact py r).attributeName = r.attributeName := rfl
  simp only [Function.comp_apply, hkey, hkeys r hr, Option.all_some, Option.all_none,
    Bool.and_true]
  exact Bool.and_comm _ _

end Histories

/-- A timeline with no attribute reports every entry once, exactly when its
subject has letters or digits and each attribute with a history has one current
fact. -/
theorem timeline_reports_iff {py : Python} (hstrips : py.LowerStrips) (rules : MentionRules)
    (ops : List FactOp) (now : Int) (agentId subject : String) :
    ReportsFacts py rules now (runOps py ops .empty) agentId subject ↔
      rules.anchorNorm subject ≠ "" ∧
        ∀ attributeName, factHistory py (runOps py ops .empty) agentId subject attributeName ≠ [] →
          (factCurrent py now (runOps py ops .empty) agentId (some subject)
            (some attributeName)).length = 1 := by
  have hkeys := attributeKey_run hstrips ops
  generalize runOps py ops .empty = db at hkeys ⊢
  by_cases hanchor : rules.anchorNorm subject = ""
  · refine iff_of_false ?_ fun h => h.1 hanchor
    rintro ⟨t, hbuild, -⟩
    rw [buildTimeline, if_pos hanchor] at hbuild
    cases hbuild
  · have hbuild : ∃ t, buildTimeline py rules now db agentId subject none none none none = .ok t ∧
        t.events = timelineEvents py rules (timelineFacts py now db agentId subject none)
          (mentions rules db agentId (rules.anchorNorm subject) none) := by
      refine ⟨_, if_neg hanchor, ?_⟩
      show (List.filter _ _).drop 0 = _
      rw [List.drop_zero]
      exact List.filter_eq_self.mpr fun _ _ => rfl
    obtain ⟨t, ht, hevents⟩ := hbuild
    -- an entry is reported once for each current fact of its attribute
    have hcount : ∀ attributeName, ∀ entry ∈ factHistory py db agentId subject attributeName,
        t.factIds.count entry.id = (factCurrent py now db agentId (some subject)
          (some attributeName)).length := by
      intro attributeName entry hentry
      have hreported := timelineEvents_factIds py rules
        (timelineFacts py now db agentId subject none)
        (mentions rules db agentId (rules.anchorNorm subject) none) (mentions_nodup ..)
      rw [← countP_factCurrent hkeys, SubjectTimeline.factIds, hevents, hreported.count_eq]
      exact count_timelineFacts _ (List.mem_map_of_mem hentry)
    constructor
    · rintro ⟨t', ht', hreports⟩
      obtain rfl : t = t' := Except.ok.inj (ht.symm.trans ht')
      refine ⟨hanchor, fun attributeName hne => ?_⟩
      obtain ⟨entry, hentry⟩ := List.exists_mem_of_ne_nil _ hne
      rw [← hcount attributeName entry hentry]
      exact hreports attributeName entry hentry
    · rintro ⟨-, hone⟩
      refine ⟨t, ht, fun attributeName entry hentry => ?_⟩
      rw [hcount attributeName entry hentry]
      exact hone attributeName (List.ne_nil_of_mem hentry)

/-- A store without memories: no text is tested but the subject. -/
def noMentions : MentionRules where
  anchorNorm text := text
  accepts _ _ _ := false
  declaredEventTime _ := none
  utcDate _ := ""

def phoneRequest (value : String) : FactRequest where
  agentId := "agent"
  subject := "ada"
  attributeName := "phone"
  value := .str value
  validFrom := .ofInstant 1
  sourceFragmentId := none
  metadata := []

/-- Two numbers are current, and each is reported twice. -/
theorem timeline_repeats_added :
    let db := runOps .basic [.add 1 "f1" (phoneRequest "555"), .add 2 "f2" (phoneRequest "777")]
      .empty
    (factHistory .basic db "agent" "ada" "phone").map Fact.id = ["f1", "f2"] ∧
      (buildTimeline .basic noMentions 5 db "agent" "ada" none none none none).toOption.map
        SubjectTimeline.factIds = some ["f1", "f1", "f2", "f2"] := by
  decide +kernel

/-- One number is current, and has been from the start. -/
theorem timeline_reports_set :
    ReportsFacts .basic noMentions 5
      (runOps .basic [.set 1 "f1" (phoneRequest "555") false] .empty) "agent" "ada" := by
  refine (timeline_reports_iff lowerStrips_basic noMentions _ 5 "agent" "ada").mpr
    ⟨by decide, fun attributeName hne => ?_⟩
  have hrows : timeline (runOps .basic [.set 1 "f1" (phoneRequest "555") false] .empty)
      ⟨"agent", factKey .basic "ada", factKey .basic attributeName⟩ ≠ [] := by
    intro hnil
    exact hne (by rw [factHistory, hnil]; rfl)
  obtain ⟨r, hr⟩ := List.exists_mem_of_ne_nil _ hrows
  obtain ⟨hmem, -, hkey⟩ := mem_timeline.mp hr
  have hphone : ∀ r ∈ (runOps .basic [.set 1 "f1" (phoneRequest "555") false] .empty).facts.rows,
      r.attributeKey = "phone" := by decide +kernel
  have hattribute : factKey .basic attributeName = factKey .basic "phone" := by
    have hparts := (TimelineKey.mk.inj hkey).2.2
    rw [← hparts, hphone r hmem]
    decide +kernel
  have hcurrent : factCurrent .basic 5 (runOps .basic [.set 1 "f1" (phoneRequest "555") false]
      .empty) "agent" (some "ada") (some attributeName) =
        factCurrent .basic 5 (runOps .basic [.set 1 "f1" (phoneRequest "555") false] .empty)
          "agent" (some "ada") (some "phone") := by
    simp only [factCurrent, Option.all_some, hattribute]
  rw [hcurrent]
  decide +kernel

end MarkSdk
