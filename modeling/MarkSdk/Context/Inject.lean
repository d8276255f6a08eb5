import MarkSdk.Lib.Marked
import MarkSdk.Store.FactKeys

/-!
Putting a briefing into the system message of a list of messages.

An earlier briefing is found again by its tags, and gives way to the new one.
Where the caller's own text closes the tags that it opens, and the body of the
earlier briefing does not close its own, nothing of an earlier briefing is left
(`inject_inject`).
-/

namespace MarkSdk

open Lib

/-- The content of a message: a text, or the texts of its parts. -/
inductive MessageContent : Type
  | text (content : String)
  | parts (texts : List String)
  deriving DecidableEq, Repr

/-- A dictionary, or an object with attributes. -/
structure ChatMessage where
  isDict : Bool := true
  role : Option String
  content : MessageContent
  fields : List (String × String) := []
  deriving DecidableEq, Repr

def briefingOpen : String := "<mark_briefing>"

def briefingClose : String := "</mark_briefing>"

def wrapBriefing (body : String) : String :=
  if body = "" then "" else briefingOpen ++ "\n" ++ body ++ "\n" ++ briefingClose

/-- `_BRIEFING_RE.sub("\n", content)` -/
def eraseBriefings (content : List Char) : List Char :=
  eraseBlocks briefingOpen.toList briefingClose.toList isSpace '\n' content

/-- The system text without briefings, stripped. -/
def baseText (content : String) : String :=
  String.ofList (stripChars isSpace (eraseBriefings content.toList))

/-- `"\n\n".join(part for part in (base, text) if part)` -/
def joinParts (base text : String) : String :=
  if base = "" then text
  else if text = "" then base
  else base ++ "\n\n" ++ text

def injectContent (content : MessageContent) (text : String) : MessageContent :=
  match content with
  | .text content => .text (joinParts (baseText content) text)
  | .parts texts =>
      .parts (texts.filter (fun part => ¬ briefingOpen.toList <:+: part.toList) ++
        if text = "" then [] else [text])

/-- `updated`: a dictionary keeps its other fields. -/
def ChatMessage.inject (m : ChatMessage) (text : String) : ChatMessage :=
  if m.isDict then { m with content := injectContent m.content text }
  else { role := some "system", content := injectContent m.content text }

def ChatMessage.isSystem (m : ChatMessage) : Bool := m.role = some "system"

/-- The first system message takes the briefing. -/
def injectFirst (text : String) : List ChatMessage → Option (List ChatMessage)
  | [] => none
  | m :: messages =>
      if m.isSystem then some (m.inject text :: messages)
      else (injectFirst text messages).map (m :: ·)

def inject (messages : List ChatMessage) (briefing : String) : List ChatMessage :=
  let text := strip briefing
  match injectFirst text messages with
  | some out => out
  | none =>
      if text = "" then messages
      else { role := some "system", content := .text text } :: messages

def systemMessage (messages : List ChatMessage) : Option ChatMessage :=
  messages.find? ChatMessage.isSystem

/-- The text of the system message; without one there is none. -/
def systemText (messages : List ChatMessage) : String :=
  match (systemMessage messages).map ChatMessage.content with
  | some (.text content) => content
  | _ => ""

/-- The system message is a text that closes the briefings it opens. -/
def OwnText (messages : List ChatMessage) : Prop :=
  ∀ m, systemMessage messages = some m → ∃ content, m.content = .text content ∧
    Closed briefingOpen.toList briefingClose.toList content.toList

/-! ### The tags -/

theorem briefingOpen_ne : briefingOpen.toList ≠ [] := by decide

theorem briefingClose_ne : briefingClose.toList ≠ [] := by decide

theorem newline_notMem_open : '\n' ∉ briefingOpen.toList := by decide

theorem newline_notMem_close : '\n' ∉ briefingClose.toList := by decide

/-! ### Texts -/

section Texts

variable {content body : String}

theorem baseText_of_no_tag (h : ¬ briefingOpen.toList <:+: content.toList) :
    baseText content = strip content := by
  rw [baseText, eraseBriefings, eraseBlocks, eraseFrom_of_not_infix briefingOpen_ne h, strip]

/-- A text that closes what it opens keeps no tag. -/
theorem not_infix_baseText
    (h : Closed briefingOpen.toList briefingClose.toList content.toList) :
    ¬ briefingOpen.toList <:+: (baseText content).toList := by
  rw [baseText, String.toList_ofList]
  intro hin
  refine not_infix_eraseBlocks isSpace briefingOpen_ne briefingClose_ne
    newline_notMem_open h (hin.trans ?_)
  exact stripChars_part isSpace _

theorem strip_baseText (content : String) : strip (baseText content) = baseText content := by
  rw [strip, baseText, String.toList_ofList, stripChars_stripChars]

theorem toList_wrapBriefing (hbody : body ≠ "") :
    (wrapBriefing body).toList =
      briefingOpen.toList ++ ('\n' :: body.toList ++ '\n' :: briefingClose.toList) := by
  rw [wrapBriefing, if_neg hbody]
  simp only [String.toList_append, List.append_assoc]
  rfl

theorem wrapBriefing_ne (hbody : body ≠ "") : wrapBriefing body ≠ "" := by
  intro hnil
  have hlist := congrArg String.toList hnil
  rw [toList_wrapBriefing hbody] at hlist
  exact briefingOpen_ne (List.append_eq_nil_iff.mp hlist).1

/-- The tags stand at both ends, so that there is nothing to strip. -/
theorem strip_wrapBriefing (body : String) : strip (wrapBriefing body) = wrapBriefing body := by
  by_cases hbody : body = ""
  · rw [wrapBriefing, if_pos hbody]
    rfl
  · rw [strip, toList_wrapBriefing hbody, stripChars]
    have hfront : (briefingOpen.toList ++
        ('\n' :: body.toList ++ '\n' :: briefingClose.toList)).dropWhile isSpace =
          briefingOpen.toList ++ ('\n' :: body.toList ++ '\n' :: briefingClose.toList) := rfl
    have hback : (briefingOpen.toList ++
        ('\n' :: body.toList ++ '\n' :: briefingClose.toList)).reverse.dropWhile isSpace =
          (briefingOpen.toList ++
            ('\n' :: body.toList ++ '\n' :: briefingClose.toList)).reverse := by
      rw [List.reverse_append, List.reverse_append, List.reverse_cons, List.append_assoc,
        List.append_assoc]
      rfl
    rw [hfront, rstripChars, hback, List.reverse_reverse, ← toList_wrapBriefing hbody,
      String.ofList_toList]

theorem rstripChars_of_stripped {p : Char → Bool} {s : List Char} (h : stripChars p s = s) :
    rstripChars p s = s := by
  have hagain : rstripChars p (rstripChars p (s.dropWhile p)) = rstripChars p (s.dropWhile p) := by
    rw [rstripChars, rstripChars, List.reverse_reverse, List.dropWhile_idempotent]
  rw [stripChars] at h
  rwa [h] at hagain

/-- A wrapped briefing is erased, whatever text without the tag stands before. -/
theorem strip_erase_block (front : List Char) (hbody : ¬ briefingClose.toList <:+: body.toList)
    (hopen : cutAt briefingOpen.toList (front ++ (briefingOpen.toList ++
        ('\n' :: body.toList ++ '\n' :: briefingClose.toList))) =
      some (front, '\n' :: body.toList ++ '\n' :: briefingClose.toList)) :
    stripChars isSpace (eraseBriefings (front ++ (briefingOpen.toList ++
        ('\n' :: body.toList ++ '\n' :: briefingClose.toList)))) =
      stripChars isSpace (rstripChars isSpace front) := by
  rw [eraseBriefings, eraseBlocks_append_block briefingOpen_ne briefingClose_ne
    newline_notMem_close hbody hopen]
  exact stripChars_append_singleton (by decide) _

theorem baseText_wrapBriefing (hbody : body ≠ "")
    (hclose : ¬ briefingClose.toList <:+: body.toList) : baseText (wrapBriefing body) = "" := by
  have hopen := cutAt_append_self briefingOpen_ne
    ('\n' :: body.toList ++ '\n' :: briefingClose.toList)
  have herase := strip_erase_block [] hclose hopen
  rw [List.nil_append] at herase
  rw [baseText, toList_wrapBriefing hbody, herase]
  rfl

/-- What was joined behind a stripped text without the tag is taken off again. -/
theorem baseText_joinParts {base : String} (hstrip : strip base = base)
    (htag : ¬ briefingOpen.toList <:+: base.toList) (hbody : body ≠ "")
    (hclose : ¬ briefingClose.toList <:+: body.toList) :
    baseText (joinParts base (wrapBriefing body)) = base := by
  rw [joinParts]
  split
  case isTrue hempty => rw [baseText_wrapBriefing hbody hclose, hempty]
  case isFalse =>
    rw [if_neg (wrapBriefing_ne hbody)]
    have hlist : (base ++ "\n\n" ++ wrapBriefing body).toList =
        (base.toList ++ ['\n', '\n']) ++ (briefingOpen.toList ++
          ('\n' :: body.toList ++ '\n' :: briefingClose.toList)) := by
      rw [String.toList_append, String.toList_append, toList_wrapBriefing hbody]
      rfl
    have hfront : ¬ briefingOpen.toList <:+: base.toList ++ ['\n'] := by
      rw [infix_append_cons_iff briefingOpen_ne newline_notMem_open, List.infix_nil, not_or]
      exact ⟨htag, briefingOpen_ne⟩
    have hopen : cutAt briefingOpen.toList ((base.toList ++ ['\n', '\n']) ++
        (briefingOpen.toList ++ ('\n' :: body.toList ++ '\n' :: briefingClose.toList))) =
          some (base.toList ++ ['\n', '\n'],
            '\n' :: body.toList ++ '\n' :: briefingClose.toList) := by
      have hsplit : base.toList ++ ['\n', '\n'] = (base.toList ++ ['\n']) ++ ['\n'] := by simp
      rw [hsplit, List.append_assoc, List.singleton_append,
        cutAt_append_cons briefingOpen_ne newline_notMem_open hfront,
        cutAt_append_self briefingOpen_ne]
      rfl
    have hstripped : stripChars isSpace base.toList = base.toList := by
      have h := congrArg String.toList hstrip
      rwa [strip, String.toList_ofList] at h
    have hblank : rstripChars isSpace (base.toList ++ ['\n', '\n']) = base.toList := by
      rw [rstripChars_append_of_all (List.all_eq_true.mp rfl), rstripChars_of_stripped hstripped]
    rw [baseText, hlist, strip_erase_block _ hclose hopen, hblank, hstripped]
    exact String.ofList_toList

end Texts

/-! ### Messages -/

section Messages

variable {m : ChatMessage} {messages out : List ChatMessage} {text text' : String}

theorem isSystem_inject (h : m.isSystem = true) : (m.inject text).isSystem = true := by
  rw [ChatMessage.inject]
  split
  · exact h
  · rfl

theorem injectFirst_eq_none : injectFirst text messages = none ↔ systemMessage messages = none := by
  induction messages with
  | nil => exact iff_of_true rfl rfl
  | cons m messages ih =>
      rw [injectFirst, systemMessage, List.find?_cons]
      cases hm : m.isSystem with
      | true => exact iff_of_false (by simp) (by simp)
      | false =>
          rw [if_neg (by simp), Option.map_eq_none_iff]
          exact ih

/-- The message that took the first text is the one that takes the second. -/
theorem injectFirst_injectFirst (hfirst : injectFirst text messages = some out)
    (hm : ∀ m, systemMessage messages = some m →
      (m.inject text).inject text' = m.inject text') :
    injectFirst text' out = injectFirst text' messages := by
  induction messages generalizing out with
  | nil => cases hfirst
  | cons m messages ih =>
      rw [injectFirst] at hfirst ⊢
      cases hsystem : m.isSystem with
      | true =>
          rw [hsystem, if_pos rfl] at hfirst
          obtain rfl := Option.some.inj hfirst
          have hsame := hm m (by rw [systemMessage, List.find?_cons, hsystem])
          rw [if_pos rfl, injectFirst, if_pos (isSystem_inject hsystem), hsame]
      | false =>
          rw [hsystem, if_neg (by simp)] at hfirst
          obtain ⟨out', hout', rfl⟩ := Option.map_eq_some_iff.mp hfirst
          have hlater := ih hout' fun m' hm' => hm m' (by
            rw [systemMessage, List.find?_cons, hsystem]
            exact hm')
          rw [if_neg (by simp), injectFirst, hsystem, if_neg (by simp), hlater]

/-- The system message afterwards is the one that took the text. -/
theorem systemMessage_injectFirst (h : injectFirst text messages = some out) :
    systemMessage out = (systemMessage messages).map (ChatMessage.inject · text) := by
  induction messages generalizing out with
  | nil => cases h
  | cons m messages ih =>
      rw [injectFirst] at h
      rw [systemMessage, systemMessage, List.find?_cons]
      cases hsystem : m.isSystem with
      | true =>
          rw [hsystem, if_pos rfl] at h
          obtain rfl := Option.some.inj h
          rw [List.find?_cons, isSystem_inject hsystem]
          rfl
      | false =>
          rw [hsystem, if_neg (by simp)] at h
          obtain ⟨out', hout', rfl⟩ := Option.map_eq_some_iff.mp h
          rw [List.find?_cons, hsystem]
          exact ih hout'

end Messages

/-! ### A briefing after a briefing -/

section Briefings

variable {m : ChatMessage} {messages out : List ChatMessage} {content text body body₁ body₂ : String}

theorem joinParts_nil (base : String) : joinParts base "" = base := by
  rw [joinParts]
  split
  case isTrue hbase => exact hbase.symm
  case isFalse => exact if_pos rfl

theorem content_inject (m : ChatMessage) (text : String) :
    (m.inject text).content = injectContent m.content text := by
  rw [ChatMessage.inject]
  split <;> rfl

theorem systemText_of_content (hm : systemMessage messages = some m)
    (hcontent : m.content = .text content) : systemText messages = content := by
  rw [systemText, hm, Option.map_some, hcontent]

/-- Only the text of the content decides what a second injection gives. -/
theorem inject_inject_message (text' : String)
    (h : injectContent (injectContent m.content text) text' = injectContent m.content text') :
    (m.inject text).inject text' = m.inject text' := by
  rcases m with ⟨isDict, role, content, fields⟩
  cases isDict with
  | true => simp only [ChatMessage.inject, if_pos, h]
  | false =>
      show ChatMessage.mk true _ _ _ = ChatMessage.mk true _ _ _
      exact congrArg (ChatMessage.mk true (some "system") · []) h

/-- What was injected, an empty text too, comes off again. -/
theorem baseText_injected (hclosed : Closed briefingOpen.toList briefingClose.toList content.toList)
    (hclose : ¬ briefingClose.toList <:+: body.toList) :
    baseText (joinParts (baseText content) (wrapBriefing body)) = baseText content := by
  by_cases hbody : body = ""
  · rw [hbody, wrapBriefing, if_pos rfl, joinParts_nil,
      baseText_of_no_tag (not_infix_baseText hclosed), strip_baseText]
  · exact baseText_joinParts (strip_baseText content) (not_infix_baseText hclosed) hbody hclose

theorem injectContent_injectContent (text' : String)
    (hclosed : Closed briefingOpen.toList briefingClose.toList content.toList)
    (hclose : ¬ briefingClose.toList <:+: body.toList) :
    injectContent (injectContent (.text content) (wrapBriefing body)) text' =
      injectContent (.text content) text' := by
  show MessageContent.text _ = MessageContent.text _
  rw [baseText_injected hclosed hclose]

theorem inject_nil (hnone : systemMessage messages = none) : inject messages "" = messages := by
  rw [inject]
  have hstrip : strip "" = "" := rfl
  simp only [hstrip, injectFirst_eq_none.mpr hnone, if_true]

/-- Nothing of an earlier briefing is left beside a new one. -/
theorem inject_wrapBriefing_inject (hown : OwnText messages)
    (hclose : ¬ briefingClose.toList <:+: body.toList) (text : String)
    (htext : systemMessage messages = none → strip text ≠ "") :
    inject (inject messages (wrapBriefing body)) text = inject messages text := by
  have hagain : ∀ m, systemMessage messages = some m →
      (m.inject (wrapBriefing body)).inject (strip text) = m.inject (strip text) := by
    intro m hm
    obtain ⟨content, hcontent, hclosed⟩ := hown m hm
    apply inject_inject_message
    rw [hcontent, injectContent_injectContent _ hclosed hclose]
  by_cases hbody : body = "" ∧ systemMessage messages = none
  · rw [hbody.1, wrapBriefing, if_pos rfl, inject_nil hbody.2]
  rw [inject, inject, inject, strip_wrapBriefing]
  cases hfirst : injectFirst (wrapBriefing body) messages with
  | some out =>
      have hsome : injectFirst (strip text) messages ≠ none := by
        rw [Ne, injectFirst_eq_none, ← @injectFirst_eq_none _ (wrapBriefing body), hfirst]
        simp
      obtain ⟨out', hout'⟩ := Option.ne_none_iff_exists'.mp hsome
      simp only [injectFirst_injectFirst hfirst hagain, hout']
  | none =>
      have hnone := injectFirst_eq_none.mp hfirst
      have hbody : body ≠ "" := fun h => hbody ⟨h, hnone⟩
      simp only [if_neg (wrapBriefing_ne hbody), injectFirst_eq_none.mpr hnone,
        if_neg (htext hnone)]
      show ChatMessage.mk true _ (.text (joinParts (baseText (wrapBriefing body)) _)) _ ::
        messages = _
      rw [baseText_wrapBriefing hbody hclose]
      rfl

/-- An empty briefing takes the earlier one off. -/
theorem systemText_inject_nil (hown : OwnText messages)
    (hclose : ¬ briefingClose.toList <:+: body.toList) :
    systemText (inject (inject messages (wrapBriefing body)) "") =
      baseText (systemText messages) := by
  cases hm : systemMessage messages with
  | none =>
      have htext : systemText messages = "" := by rw [systemText, hm]; rfl
      by_cases hbody : body = ""
      · rw [hbody, wrapBriefing, if_pos rfl, inject_nil hm, inject_nil hm, htext]
        rfl
      have hfirst := @injectFirst_eq_none messages (wrapBriefing body) |>.mpr hm
      have hwrap : inject messages (wrapBriefing body) =
          { role := some "system", content := .text (wrapBriefing body) } :: messages := by
        rw [inject, strip_wrapBriefing]
        simp only [hfirst, if_neg (wrapBriefing_ne hbody)]
      rw [hwrap, htext]
      show joinParts (baseText (wrapBriefing body)) "" = _
      rw [baseText_wrapBriefing hbody hclose]
      rfl
  | some m =>
      have hagain := inject_wrapBriefing_inject hown hclose "" (by simp [hm])
      obtain ⟨content, hcontent, -⟩ := hown m hm
      have hsome : injectFirst "" messages ≠ none := by
        rw [Ne, injectFirst_eq_none, hm]
        simp
      obtain ⟨out, hout⟩ := Option.ne_none_iff_exists'.mp hsome
      have hinject : inject messages "" = out := by
        rw [inject]
        have hstrip : strip "" = "" := rfl
        simp only [hstrip, hout]
      have hlater : systemMessage out = some (m.inject "") := by
        rw [systemMessage_injectFirst hout, hm, Option.map_some]
      have hbase : (m.inject "").content = .text (baseText content) := by
        rw [content_inject, hcontent, injectContent, joinParts_nil]
      rw [hagain, hinject, systemText_of_content hlater hbase, systemText_of_content hm hcontent]

/-- A later briefing replaces an earlier one, and an empty one takes it off. -/
theorem inject_inject (messages : List ChatMessage) (body₁ body₂ : String)
    (h₂ : body₂ ≠ "") (hclose : ¬ briefingClose.toList <:+: body₁.toList)
    (hown : OwnText messages) :
    inject (inject messages (wrapBriefing body₁)) (wrapBriefing body₂) =
        inject messages (wrapBriefing body₂) ∧
      systemText (inject (inject messages (wrapBriefing body₁)) "") =
        baseText (systemText messages) ∧
      (¬ briefingOpen.toList <:+: (systemText messages).toList →
        systemText (inject (inject messages (wrapBriefing body₁)) "") =
          strip (systemText messages)) := by
  have hnew : systemMessage messages = none → strip (wrapBriefing body₂) ≠ "" := by
    rw [strip_wrapBriefing]
    exact fun _ => wrapBriefing_ne h₂
  have hbase := systemText_inject_nil hown hclose
  refine ⟨inject_wrapBriefing_inject hown hclose _ hnew, hbase, fun htag => ?_⟩
  rw [hbase, baseText_of_no_tag htag]

/-- A system text with a block of its own in it. -/
def ownBlock : List ChatMessage :=
  [{ role := some "system",
     content := .text "Rules.\n<mark_briefing>kept?</mark_briefing>\nAnswer briefly." },
   { role := some "user", content := .text "Hello" }]

theorem closed_ownBlock : OwnText ownBlock := by
  intro m hm
  obtain rfl := Option.some.inj hm
  refine ⟨_, rfl, ?_⟩
  decide +kernel

/-- The block gives way, and the rest of the text comes back. -/
theorem inject_inject_ownBlock :
    inject (inject ownBlock (wrapBriefing "A")) (wrapBriefing "B") =
        inject ownBlock (wrapBriefing "B") ∧
      systemText (inject (inject ownBlock (wrapBriefing "A")) "") = "Rules.\nAnswer briefly." := by
  obtain ⟨hsame, hoff, -⟩ := inject_inject ownBlock "A" "B" (by decide) (by decide) closed_ownBlock
  refine ⟨hsame, hoff.trans ?_⟩
  decide +kernel

/-- A block in the caller's own text does not come back. -/
theorem inject_inject_ne :
    ¬ ∀ (messages : List ChatMessage) (body₁ body₂ : String), body₁ ≠ "" → body₂ ≠ "" →
      (∀ m, systemMessage messages = some m → ∃ content, m.content = .text content) →
        inject (inject messages (wrapBriefing body₁)) (wrapBriefing body₂) =
            inject messages (wrapBriefing body₂) ∧
          systemText (inject (inject messages (wrapBriefing body₁)) "") =
            strip (systemText messages) := by
  intro hall
  have hown : ∀ m, systemMessage ownBlock = some m → ∃ content, m.content = .text content := by
    intro m hm
    obtain rfl := Option.some.inj hm
    exact ⟨_, rfl⟩
  have hoff := (hall ownBlock "A" "B" (by decide) (by decide) hown).2
  revert hoff
  decide +kernel

end Briefings

end MarkSdk
