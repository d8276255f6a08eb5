import MarkSdk.Context.Budget
import MarkSdk.Retrieval.Passage
import MarkSdk.Memory.Writing
import MarkSdk.Store.Documents

/-!
Rendering a retrieval result for a prompt, in one of three formats.

With `max_tokens`, results are dropped from the end, then the last one is cut
shorter, then the facts go, until the rendering fits; what is left over then is
cut off. The first passage gets shorter whenever it is cut again, so the loop
ends.
-/

namespace MarkSdk

/-! ### Results -/

inductive GapSeverity : Type
  | none | low | medium | high | critical
  deriving DecidableEq, Repr

def GapSeverity.value : GapSeverity → String
  | .none => "none"
  | .low => "low"
  | .medium => "medium"
  | .high => "high"
  | .critical => "critical"

/-- A fact of a result: whether it is current, and `as_text()`. -/
structure ShownFact where
  isCurrent : Bool
  text : String

/-- What of a `RetrievalResult` is rendered. Scores are floats. -/
structure RetrievalResult where
  query : String
  fragments : List Fragment
  scores : List (BitVec 64)
  relevance : List (BitVec 64)
  outdated : List String
  conflicts : List (String × List String)
  wasCompressed : Bool
  facts : List ShownFact
  severity : GapSeverity
  reason : String

/-- What the renderings take from other modules and from Python's library. -/
structure RenderTools where
  /-- the centre of the best span of `_best_start` -/
  centre : String → String → Nat → Option Nat
  /-- `declared_event_time(fragment).date().isoformat()` -/
  eventDate : Fragment → Option String
  /-- `same_day_order` -/
  sameDayOrder : List Fragment → String → Option (Nat × Nat)
  /-- `kind_of` -/
  kindOf : Fragment → Option String
  /-- `defuse_boundaries` -/
  defuseBoundaries : String → String
  /-- `f"{score:.3f}"` -/
  fixed3 : BitVec 64 → String
  /-- `round(score, 4)` -/
  round4 : BitVec 64 → BitVec 64
  /-- `float.__repr__` -/
  floatRepr : BitVec 64 → String
  /-- `int(n * 0.75)`, where `n` fits a float -/
  threeQuarters : Nat → Nat

/-- A result with its passage, as `_items` prepares it. -/
structure RenderItem where
  rank : Nat
  fragment : Fragment
  text : String
  windowed : Bool
  score : BitVec 64
  untrusted : Bool
  date : Option String
  sameDay : Option (Nat × Nat)
  state : Option String
  conflicts : List Nat

def followingItemChars : Int := 400

def minItemWords : Int := 12

def charsPerWord : Int := 6

def minCutChars : Nat := 40

def queryEchoChars : Nat := 200

section Render

variable (tools : RenderTools) (result : RetrievalResult)

def rankOf (id : String) : Option Nat :=
  ((result.fragments.zipIdx.filter fun f => f.1.id = id).getLast?).map fun f => f.2 + 1

/-- `"resolved"` or `"superseded"`, as the tags have it. -/
def lifecycleOf (fragment : Fragment) : Option String :=
  if "mark:resolved" ∈ fragment.tags then some "resolved"
  else if "mark:superseded" ∈ fragment.tags then some "superseded"
  else none

/-- `_windowed` -/
def RenderItem.cut (item : RenderItem) (cap : Int) : RenderItem :=
  let (text, windowed) := window tools.centre item.fragment.content result.query cap
  { item with text := text, windowed := windowed }

/-- The item for a fragment, whose passage has `cap` characters. -/
def renderItem (i : Nat) (fragment : Fragment) (score : BitVec 64) (cap : Int) : RenderItem :=
  let (text, windowed) := window tools.centre fragment.content result.query cap
  let date := (tools.eventDate fragment).filter fun date => date ≠ ""
  let opening := fragment.content.toList.dropWhile fun c => c = '[' || c = ' '
  let lifecycle := lifecycleOf fragment
  { rank := i + 1
    fragment := fragment
    text := text
    windowed := windowed
    score := result.relevance[i]?.getD score
    untrusted := "mark:untrusted" ∈ fragment.tags
    date := date.filter fun date => !date.toList.isPrefixOf opening
    sameDay := tools.sameDayOrder result.fragments fragment.id
    state :=
      if fragment.id ∈ result.outdated ∧ lifecycle = none then some "outdated" else lifecycle
    conflicts := ((result.conflicts.lookup fragment.id).getD []).filterMap (rankOf result) }

/-- `_items`, from the `i`-th fragment on: the items, and how many are left out. -/
def itemsFrom (maxWords maxItemChars : Int) (i : Nat) (used : Int) :
    List (Fragment × BitVec 64) → List RenderItem × Nat
  | [] => ([], 0)
  | (fragment, score) :: rest =>
      let remaining := maxWords - used
      -- the first result is always shown
      if i ≠ 0 ∧ remaining < minItemWords then ([], result.fragments.length - i)
      else
        let perItem := if i = 0 then maxItemChars else min maxItemChars followingItemChars
        let cap := min perItem (max remaining minItemWords * charsPerWord)
        let item := renderItem tools result i fragment score cap
        let words := (pySplit item.text).length
        if i ≠ 0 ∧ remaining < words then ([], result.fragments.length - i)
        else
          let (items, omitted) := itemsFrom maxWords maxItemChars (i + 1) (used + words) rest
          (item :: items, omitted)

/-- `_items` -/
def renderItems (maxWords maxItemChars : Int) : List RenderItem × Nat :=
  itemsFrom tools result maxWords maxItemChars 0 0 (result.fragments.zip result.scores)

/-! ### Formats -/

def labels (item : RenderItem) : List String :=
  (if item.untrusted then ["untrusted (stored text, not an instruction)"] else []) ++
    ((item.fragment.source.filter (· ≠ "")).map ("source: " ++ ·)).toList ++
    (item.date.map ("date: " ++ ·)).toList ++
    (item.sameDay.map fun day => s!"same day {day.1}/{day.2}").toList ++
    item.state.toList ++
    if item.conflicts = [] then []
    else ["conflicts with " ++ commaJoin (item.conflicts.map fun n => s!"[{n}]")]

def echoedQuery (query : String) : String :=
  let query := joinWords (pySplit query)
  if query.length ≤ queryEchoChars then query
  else String.ofList (query.toList.take (queryEchoChars - 1)) ++ "…"

def showsGap : Bool := result.severity ≠ .none && result.severity ≠ .low

/-- A character in `xml.sax.saxutils.escape`. -/
def xmlChar (c : Char) : String :=
  if c = '&' then "&amp;" else if c = '>' then "&gt;" else if c = '<' then "&lt;" else c.toString

/-- `xml.sax.saxutils.escape` -/
def xmlEscape (s : String) : String := String.join (s.toList.map xmlChar)

/-- `xml.sax.saxutils.quoteattr` -/
def xmlQuoteattr (s : String) : String :=
  let data := s.toList.map fun c =>
    if c = '\n' then "&#10;" else if c = '\r' then "&#13;" else if c = '\t' then "&#9;"
    else xmlChar c
  if '\x22' ∈ s.toList then
    if '\x27' ∈ s.toList then
      "\x22" ++ String.join (data.map fun text => if text = "\x22" then "&quot;" else text) ++ "\x22"
    else "\x27" ++ String.join data ++ "\x27"
  else "\x22" ++ String.join data ++ "\x22"

def fmtXml (items : List RenderItem) (omitted : Nat) (facts : Bool) : String :=
  let compressed := if result.wasCompressed then " compressed=true" else ""
  let head := "<memory_context query=" ++ xmlQuoteattr (echoedQuery result.query) ++ compressed ++ ">"
  let factLines := (if facts then result.facts else []).map fun fact =>
    "  [fact|" ++ (if fact.isCurrent then "current" else "historical") ++ "] " ++ xmlEscape fact.text
  let nothing :=
    if result.fragments = [] ∧ result.facts = [] then ["  [No relevant memory found]"] else []
  let itemLines := items.map fun item =>
    "  [" ++ tools.fixed3 item.score ++
      String.join ((labels item).map fun label => " | " ++ xmlEscape label) ++ "] " ++
      xmlEscape item.text
  let left :=
    if omitted = 0 then []
    else [s!"  [... {omitted} more result(s) omitted for the token budget]"]
  let gap :=
    if showsGap result then
      ["  <memory_gap severity=" ++ result.severity.value ++ ">", "  " ++ xmlEscape result.reason,
        "  </memory_gap>"]
    else []
  "\n".intercalate
    ([head] ++ factLines ++ nothing ++ itemLines ++ left ++ gap ++ ["</memory_context>"])

def fmtNumbered (items : List RenderItem) (omitted : Nat) (facts : Bool) : String :=
  let factLines := (if facts then result.facts else []).map fun fact =>
    "F. " ++ tools.defuseBoundaries fact.text
  let itemLines := items.map fun item =>
    s!"[{item.rank}] (score=" ++ tools.fixed3 item.score ++
      String.join ((labels item).map fun label => ", " ++ tools.defuseBoundaries label) ++ ") " ++
      tools.defuseBoundaries item.text
  let left := if omitted = 0 then [] else [s!"[... {omitted} more omitted]"]
  let lines := factLines ++ itemLines ++ left
  let gap := if showsGap result then " | gap: " ++ result.severity.value else ""
  let compressed := if result.wasCompressed then " | compressed" else ""
  let footer := s!"--- {result.fragments.length} result(s)" ++ gap ++ compressed ++ " ---"
  "\n".intercalate lines ++ (if lines = [] then "" else "\n") ++ footer

/-- A character in a JSON text with `ensure_ascii=False`. -/
def dumpsChar (c : Char) : List Char :=
  if c.toNat = 8 then ['\\', 'b']
  else if c.toNat = 12 then ['\\', 'f']
  else if c.toNat < 32 ∧ jsonChar c = [c] then
    ['\\', 'u', '0', '0', hexDigit (c.toNat / 16), hexDigit (c.toNat % 16)]
  else jsonChar c

def dumpsString (s : String) : String :=
  "\x22" ++ String.ofList (s.toList.flatMap dumpsChar) ++ "\x22"

mutual

/-- `json.dumps(value, ensure_ascii=False)` -/
def dumpsValue : PyValue → String
  | .none => "null"
  | .bool b => if b then "true" else "false"
  | .int n => toString n
  | .float bits => tools.floatRepr bits
  | .str s => dumpsString s
  | .list xs => "[" ++ commaJoin (dumpsItems xs) ++ "]"
  | .tuple xs => "[" ++ commaJoin (dumpsItems xs) ++ "]"
  | .dict xs => "\x7b" ++ commaJoin (dumpsEntries xs) ++ "\x7d"
  | .other text => text

def dumpsItems : List PyValue → List String
  | [] => []
  | x :: xs => dumpsValue x :: dumpsItems xs

def dumpsEntries : List (String × PyValue) → List String
  | [] => []
  | (key, x) :: xs => (dumpsString key ++ ": " ++ dumpsValue x) :: dumpsEntries xs

end

/-- A text or `None`. -/
def pyText : Option String → PyValue
  | some s => .str s
  | none => .none

def jsonEntry (item : RenderItem) : PyValue :=
  .dict ([("rank", .int item.rank), ("score", .float (tools.round4 item.score)),
      ("content", .str item.text), ("source", pyText item.fragment.source),
      ("state", .str item.fragment.state.value), ("kind", pyText (tools.kindOf item.fragment))] ++
    (if item.windowed then [("excerpt_of_chars", .int item.fragment.content.length)] else []) ++
    (item.date.map fun date => ("date", .str date)).toList ++
    (if item.untrusted then [("untrusted", .bool true)] else []) ++
    (item.state.map fun state => ("lifecycle", .str state)).toList ++
    if item.conflicts = [] then []
    else [("conflicts_with", .list (item.conflicts.map fun n => .int n))])

def fmtJson (items : List RenderItem) (omitted : Nat) (facts : Bool) : String :=
  dumpsValue tools (.dict (
    [("query", .str (echoedQuery result.query)), ("compressed", .bool result.wasCompressed),
      ("results", .list (items.map (jsonEntry tools))),
      ("truncated", .bool (omitted ≠ 0 || items.any RenderItem.windowed)), ("omitted", .int omitted),
      ("gap", .dict [("severity", .str result.severity.value), ("reason", .str result.reason)])] ++
    if facts ∧ result.facts ≠ [] then
      [("facts", .list (result.facts.map fun fact => .str fact.text))]
    else []))

/-- The formatter of a format; any other name stands for `xml`. -/
def formatter (fmt : String) : List RenderItem → Nat → Bool → String :=
  if fmt = "numbered" then fmtNumbered tools result
  else if fmt = "json" then fmtJson tools result
  else fmtXml tools result

/-! ### The loop -/

/-- Cutting a passage of more than forty characters again makes it shorter. -/
theorem cut_shorter {tools : RenderTools} {result : RetrievalResult} {item : RenderItem}
    (h : minCutChars < item.text.length) {excess : Nat} (hexcess : 0 < excess) :
    (item.cut tools result (max minCutChars (item.text.length - excess) : Nat)).text.length <
      item.text.length := by
  have hcap : 3 ≤ ((max minCutChars (item.text.length - excess) : Nat) : Int) := by
    unfold minCutChars
    omega
  have hlength : (((item.cut tools result
      (max minCutChars (item.text.length - excess) : Nat)).text.length : Nat) : Int) ≤ _ :=
    window_length_le hcap
  unfold minCutChars at *
  omega

/-- The loop of `render`: results are left out until the text has at most `n` tokens. -/
def fit (fmt : String) (n : Nat) (items : List RenderItem) (omitted : Nat) (facts : Bool) :
    String :=
  let text := formatter tools result fmt items omitted facts
  if estimateTokens text ≤ n then text
  else
    match items with
    | item :: next :: rest => fit fmt n ((item :: next :: rest).dropLast) (omitted + 1) facts
    | [item] =>
        if minCutChars < item.text.length then
          let excess := (estimateTokens text - n) * 4 + 8
          let cap := max minCutChars (item.text.length - excess)
          fit fmt n [item.cut tools result cap] omitted facts
        else fit fmt n [] (omitted + 1) facts
    | [] =>
        if facts then fit fmt n [] omitted false
        else if fmt = "json" then "\x7b\x22results\x22:[]\x7d"
        else String.ofList (text.toList.take (n * 4))
termination_by (items.length, (items.map fun item => item.text.length).sum, if facts then 1 else 0)
decreasing_by
  · exact Prod.Lex.left _ _ (by simp)
  · refine Prod.Lex.right _ (Prod.Lex.left _ _ ?_)
    simp only [List.map_cons, List.map_nil, List.sum_cons, List.sum_nil, Nat.add_zero]
    exact cut_shorter ‹_› (by omega)
  · exact Prod.Lex.left _ _ (by simp)
  · exact Prod.Lex.right _ (Prod.Lex.right _ (by simp [*]))

inductive RenderError : Type
  | overflowError
  deriving DecidableEq, Repr

/-- An integer that no float holds: it rounds up to `2 ** 1024`. -/
def overflowsFloat (n : Nat) : Bool := 2 ^ 1024 - 2 ^ 970 ≤ n

def render (fmt : String) (maxWords : Int) (maxTokens : Option Nat) (maxItemChars : Int) :
    Except RenderError String :=
  match maxTokens with
  | none =>
      let (items, omitted) := renderItems tools result maxWords maxItemChars
      .ok (formatter tools result fmt items omitted true)
  | some n =>
      if overflowsFloat n then .error .overflowError
      else
        let (items, omitted) := renderItems tools result (tools.threeQuarters n) maxItemChars
        .ok (fit tools result fmt n items omitted true)

/-! ### What is shown -/

/-- The items are passages of the first fragments, in their order. -/
def FirstItems (items : List RenderItem) : Prop :=
  ∀ (j : Nat) item, items[j]? = some item →
    result.fragments[j]? = some item.fragment ∧ item.rank = j + 1 ∧
      Passage item.fragment.content item.text

/-- A text shows passages of the first fragments in their order and nothing
else of the fragments: the rendering of items, the beginning of a rendering
without any, or the empty JSON result. -/
def ShowsResult (fmt text : String) : Prop :=
  (∃ items omitted facts, FirstItems result items ∧
      text = formatter tools result fmt items omitted facts) ∨
    (∃ omitted, text.toList <+: (formatter tools result fmt [] omitted false).toList) ∨
      text = "\x7b\x22results\x22:[]\x7d"

variable {tools result}

theorem FirstItems.nil : FirstItems result [] := by
  intro j item h
  cases h

theorem FirstItems.dropLast {items : List RenderItem} (h : FirstItems result items) :
    FirstItems result items.dropLast := by
  intro j item hitem
  refine h j item ?_
  rw [List.getElem?_dropLast] at hitem
  split at hitem
  · exact hitem
  · cases hitem

theorem FirstItems.cut {item : RenderItem} (h : FirstItems result [item]) (cap : Int) :
    FirstItems result [item.cut tools result cap] := by
  intro j item' hitem
  cases j with
  | zero =>
      obtain rfl := Option.some.inj hitem
      obtain ⟨hfragment, hrank, -⟩ := h 0 item rfl
      exact ⟨hfragment, hrank, window_passage⟩
  | succ j => cases hitem

theorem getElem?_itemsFrom {maxWords maxItemChars : Int} {i : Nat} {used : Int}
    {pairs : List (Fragment × BitVec 64)} {j : Nat} {item : RenderItem}
    (h : (itemsFrom tools result maxWords maxItemChars i used pairs).1[j]? = some item) :
    (∃ score, pairs[j]? = some (item.fragment, score)) ∧ item.rank = i + j + 1 ∧
      Passage item.fragment.content item.text := by
  induction pairs generalizing i used j with
  | nil => cases h
  | cons pair rest ih =>
      obtain ⟨fragment, score⟩ := pair
      rw [itemsFrom] at h
      simp only at h
      split at h
      · cases h
      · generalize min (if i = 0 then maxItemChars else min maxItemChars followingItemChars)
          (max (maxWords - used) minItemWords * charsPerWord) = cap at h
        split at h
        · cases h
        · cases j with
          | zero =>
              obtain rfl := Option.some.inj h
              exact ⟨⟨score, rfl⟩, rfl, window_passage⟩
          | succ j =>
              obtain ⟨hfragment, hrank, hpassage⟩ := ih h
              exact ⟨hfragment, by omega, hpassage⟩

theorem firstItems_renderItems (maxWords maxItemChars : Int) :
    FirstItems result (renderItems tools result maxWords maxItemChars).1 := by
  intro j item h
  obtain ⟨⟨score, hpair⟩, hrank, hpassage⟩ := getElem?_itemsFrom h
  rw [List.getElem?_zip_eq_some] at hpair
  exact ⟨hpair.1, by omega, hpassage⟩

theorem estimateTokens_take (text : String) (n : Nat) :
    estimateTokens (String.ofList (text.toList.take (n * 4))) ≤ n := by
  unfold estimateTokens
  rw [String.length_ofList, List.length_take]
  omega

/-- The loop ends with a text of the result, which has at most `n` tokens or is
the empty JSON result. -/
theorem fit_shows (fmt : String) (n : Nat) (items : List RenderItem) (omitted : Nat)
    (facts : Bool) (h : FirstItems result items) :
    ShowsResult tools result fmt (fit tools result fmt n items omitted facts) ∧
      (estimateTokens (fit tools result fmt n items omitted facts) ≤ n ∨
        fmt = "json" ∧
          fit tools result fmt n items omitted facts = "\x7b\x22results\x22:[]\x7d") := by
  fun_induction fit tools result fmt n items omitted facts with
  | case1 items omitted facts text hfits =>
      exact ⟨.inl ⟨items, omitted, facts, h, rfl⟩, .inl hfits⟩
  | case2 omitted facts item next rest text hlong ih => exact ih h.dropLast
  | case3 omitted facts item text hlong hcut excess cap ih => exact ih (h.cut _)
  | case4 omitted facts item text hlong hcut ih => exact ih .nil
  | case5 omitted text hlong ih => exact ih .nil
  | case6 omitted facts hfacts hjson text hlong => exact ⟨.inr (.inr rfl), .inr ⟨hjson, rfl⟩⟩
  | case7 omitted facts hfacts hjson text hlong =>
      refine ⟨.inr (.inl ⟨omitted, ?_⟩), .inl (estimateTokens_take text n)⟩
      rw [String.toList_ofList]
      have hnone : facts = false := by simpa using hfacts
      subst hnone
      exact List.take_prefix _ _

/-- The loop never stops where every text is too long. -/
theorem fit_json_of_long (n : Nat) (items : List RenderItem) (omitted : Nat) (facts : Bool)
    (h : ∀ items omitted facts,
      n < estimateTokens (formatter tools result "json" items omitted facts)) :
    fit tools result "json" n items omitted facts = "\x7b\x22results\x22:[]\x7d" := by
  fun_induction fit tools result "json" n items omitted facts with
  | case1 items omitted facts text hfits => exact absurd hfits (Nat.not_le.mpr (h _ _ _))
  | case2 omitted facts item next rest text hlong ih => exact ih
  | case3 omitted facts item text hlong hcut excess cap ih => exact ih
  | case4 omitted facts item text hlong hcut ih => exact ih
  | case5 omitted text hlong ih => exact ih
  | case6 omitted facts hfacts hjson text hlong => rfl
  | case7 omitted facts hfacts hjson text hlong => exact absurd rfl hjson

theorem dumpsEntries_cons (key : String) (x : PyValue) (xs : List (String × PyValue)) :
    dumpsEntries tools ((key, x) :: xs) =
      (dumpsString key ++ ": " ++ dumpsValue tools x) :: dumpsEntries tools xs := by
  rw [dumpsEntries]

/-- The first two keys alone take more than three tokens. -/
theorem json_long (items : List RenderItem) (omitted : Nat) (facts : Bool) :
    3 < estimateTokens (formatter tools result "json" items omitted facts) := by
  have hquery : (dumpsString "query").length = 7 := by decide
  have hcompressed : (dumpsString "compressed").length = 12 := by decide
  have hcomma : ", ".length = 2 := by decide
  show 3 < estimateTokens (fmtJson tools result items omitted facts)
  unfold fmtJson
  rw [dumpsValue, List.cons_append, List.cons_append, dumpsEntries_cons, dumpsEntries_cons]
  generalize dumpsEntries tools _ = texts
  unfold estimateTokens
  have hjoin : ∀ first next : String, first.length + 2 + next.length ≤
      (commaJoin (first :: next :: texts)).length := by
    intro first next
    rw [commaJoin, String.length_append, String.length_append, hcomma]
    · cases texts with
      | nil => rw [commaJoin]
      | cons text texts =>
          rw [commaJoin, String.length_append, String.length_append]
          · omega
          · simp
    · simp
  have hlong := hjoin (dumpsString "query" ++ ": " ++
    dumpsValue tools (.str (echoedQuery result.query)))
    (dumpsString "compressed" ++ ": " ++ dumpsValue tools (.bool result.wasCompressed))
  simp only [String.length_append, hquery, hcompressed] at hlong ⊢
  omega

/-- `render(max_tokens=n)` returns a text of at most `n` tokens that shows
passages of the result in its order, exactly when a float holds `n` and the
format is not `json` or `n` is at least 4. -/
theorem render_fits_iff (tools : RenderTools) (result : RetrievalResult) (fmt : String)
    (maxWords maxItemChars : Int) (n : Nat) :
    (∃ text, render tools result fmt maxWords (some n) maxItemChars = .ok text ∧
        estimateTokens text ≤ n ∧ ShowsResult tools result fmt text) ↔
      overflowsFloat n = false ∧ (fmt = "json" → 4 ≤ n) := by
  have hempty : estimateTokens "\x7b\x22results\x22:[]\x7d" = 4 := by decide
  unfold render
  simp only
  cases hfloat : overflowsFloat n with
  | true => simp
  | false =>
      simp only [Bool.false_eq_true, if_false, Except.ok.injEq, exists_eq_left', true_and]
      obtain ⟨hshows, hfits⟩ := fit_shows fmt n _ (renderItems tools result
        (tools.threeQuarters n) maxItemChars).2 true
        (firstItems_renderItems (tools.threeQuarters n) maxItemChars)
      constructor
      · rintro ⟨hle, -⟩ rfl
        by_contra hsmall
        rw [fit_json_of_long n _ _ _ fun items omitted facts =>
          (json_long items omitted facts).trans_le' (by omega), hempty] at hle
        exact hsmall hle
      · intro hjson
        refine ⟨?_, hshows⟩
        rcases hfits with hfits | ⟨hfmt, htext⟩
        · exact hfits
        · rw [htext, hempty]
          exact hjson hfmt

/-- A result without anything. -/
def emptyResult : RetrievalResult where
  query := ""
  fragments := []
  scores := []
  relevance := []
  outdated := []
  conflicts := []
  wasCompressed := false
  facts := []
  severity := .none
  reason := ""

def RenderTools.plain : RenderTools where
  centre _ _ _ := none
  eventDate _ := none
  sameDayOrder _ _ := none
  kindOf _ := none
  defuseBoundaries := id
  fixed3 _ := "0.000"
  round4 := id
  floatRepr _ := "0.0"
  threeQuarters n := 3 * n / 4

/-- The empty JSON result has four tokens, also where three are allowed. -/
theorem render_json_exceeds : ∃ text,
    render .plain emptyResult "json" 1500 (some 3) 1500 = .ok text ∧
      ¬ estimateTokens text ≤ 3 := by
  have hfloat : overflowsFloat 3 = false := by decide +kernel
  refine ⟨"\x7b\x22results\x22:[]\x7d", ?_, by decide⟩
  unfold render
  simp only [hfloat, Bool.false_eq_true, if_false, Except.ok.injEq]
  exact fit_json_of_long 3 _ _ _ fun items omitted facts => json_long items omitted facts

end Render

end MarkSdk
