import MarkSdk.Lib.Regex
import MarkSdk.Store.Values

/-!
Defusing what could pass for a prompt boundary.

The brackets of every tag that the boundary pattern finds become lookalikes.
The matches are found once, from left to right, so that a tag around a tag can
be left: it is not one as long as the brackets of the other stand in it. Apart
from such nested tags nothing is left (`defuse_iff`).
-/

namespace MarkSdk

open Lib

/-! ### The pattern -/

/-- What a letter matches with `re.IGNORECASE`: it in either case, and the
letters of other alphabets that have it as their lower or upper case. -/
def alike (l c : Char) : Bool :=
  c.toLower == l.toLower ||
    (l.toLower == 'k' && c.toNat == 0x212A) || (l.toLower == 's' && c.toNat == 0x17F) ||
      (l.toLower == 'i' && (c.toNat == 0x130 || c.toNat == 0x131))

def letters (s : String) : Regex Char := s.toList.foldr (fun l r => .seq (.one (alike l)) r) .eps

def among (chars : List Char) (c : Char) : Bool := chars.contains c

def notAmong (chars : List Char) (c : Char) : Bool := !chars.contains c

section Pattern

variable (py : Python)

/-- `[\w-]*` -/
def nameChars : Regex Char := .star fun c => py.isWord c || c == '-'

/-- `[\w:-]*` -/
def prefixedChars : Regex Char := .star fun c => py.isWord c || c == ':' || c == '-'

/-- `_NAMES` -/
def boundaryNames : Regex Char :=
  .alts [
    .seq (letters "memory_") (nameChars py),
    .seq (letters "mark") (prefixedChars py),
    .seq (letters "system")
      (.opt (.alt (letters "_prompt") (.seq (.one (among ['-', '_'])) (letters "reminder")))),
    letters "assistant", letters "user", letters "human", letters "developer",
    .seq (letters "instruction") (.opt (letters "s")),
    letters "context",
    .seq (letters "document") (.opt (letters "s")),
    .seq (letters "tool") (nameChars py),
    .seq (letters "function") (nameChars py),
    letters "invoke",
    .seq (letters "antml") (prefixedChars py),
    .seq (letters "im_") (.alt (letters "start") (letters "end")),
    .seq (letters "untrusted") (nameChars py),
    .seq (letters "search_result") (.opt (letters "s")),
    letters "result"]

/-- `\s*/?\s*` -/
def slashed : Regex Char :=
  .seq (.star isSpace) (.seq (.opt (.one (· == '/'))) (.star isSpace))

/-- `\s*/?\s*(?:_NAMES)\b`, what follows the bracket of a tag -/
def tagName : Regex Char := .seq slashed (.seq (boundaryNames py) .edge)

/-- `<system>`, `</memory_context>`, `<mark_x a="b">` -/
def nameTag : Regex Char :=
  .seq (.seq (.one (· == '<')) (tagName py))
    (.seq (.rep 0 200 (notAmong ['<', '>', '\n'])) (.one (· == '>')))

/-- `<|im_start|>`, `<|eot_id|>` -/
def barTag : Regex Char :=
  .seq (.seq (.one (· == '<')) (.one (· == '|')))
    (.seq (.rep 1 40 (notAmong ['<', '>', '|', '\n'])) (.seq (.one (· == '|')) (.one (· == '>'))))

/-- `<</?SYS>>` -/
def sysTag : Regex Char :=
  .seq (.one (· == '<')) (.seq (.one (· == '<')) (.seq (.opt (.one (· == '/')))
    (.seq (letters "SYS") (.seq (.one (· == '>')) (.one (· == '>'))))))

/-- `\[/?INST\]` -/
def instTag : Regex Char :=
  .seq (.one (· == '[')) (.seq (.opt (.one (· == '/'))) (.seq (letters "INST") (.one (· == ']'))))

/-- `\[\s*/?\s*mark\b` -/
def markOpen : Regex Char :=
  .seq (.one (· == '[')) (.seq slashed (.seq (letters "mark") .edge))

/-- `[MARK project memory]`, `[/MARK ...]` -/
def markTag : Regex Char :=
  .seq markOpen
    (.seq (.rep 0 200 (notAmong [']', '\n'])) (.one (· == ']')))

/-- `_BOUNDARY` -/
def boundaryPattern : Regex Char :=
  .alts [nameTag py, barTag, sysTag, instTag, markTag]

/-- `_SWAP` -/
def swapBracket (c : Char) : Char :=
  if c = '<' then '‹' else if c = '>' then '›' else if c = '[' then '⟦' else if c = ']' then '⟧'
  else c

/-- `defuse_boundaries` -/
def defuse (text : String) : String :=
  if '<' ∉ text.toList ∧ '[' ∉ text.toList then text
  else String.ofList
    ((boundaryPattern py).sub py.isWord (List.map swapBracket) none 0 text.toList)

end Pattern

/-! ### Reading a text with its matches -/

/-- The brackets and their lookalikes. -/
def brackets : List Char := ['<', '>', '[', ']', '‹', '›', '⟦', '⟧']

/-- A class of characters without brackets. -/
def Plain (p : Char → Bool) : Prop := ∀ c ∈ brackets, p c = false

theorem plain_of_all {p : Char → Bool} (h : (brackets.all fun c => !p c) = true) : Plain p := by
  intro c hc
  have hnot := List.all_eq_true.mp h c hc
  rwa [Bool.not_eq_true'] at hnot

/-- What a character becomes that may belong to a match. -/
def swapMarked (x : Char × Bool) : Char := if x.2 then swapBracket x.1 else x.1

section Reading

variable {c : Char} {x : Char × Bool} {p : Char → Bool}

theorem swapBracket_cases (c : Char) :
    swapBracket c = c ∨ c ∈ brackets ∧ swapBracket c ∈ brackets := by
  rw [swapBracket]
  split
  case isTrue h => exact .inr ⟨by rw [h]; decide, by decide⟩
  case isFalse =>
    split
    case isTrue h => exact .inr ⟨by rw [h]; decide, by decide⟩
    case isFalse =>
      split
      case isTrue h => exact .inr ⟨by rw [h]; decide, by decide⟩
      case isFalse =>
        split
        case isTrue h => exact .inr ⟨by rw [h]; decide, by decide⟩
        case isFalse => exact .inl rfl

theorem swapBracket_notMem (c : Char) : swapBracket c ∉ ['<', '>', '[', ']'] := by
  grind [swapBracket]

/-- A class without brackets sees no difference. -/
theorem Plain.swapMarked (h : Plain p) (x : Char × Bool) : p (swapMarked x) = p x.1 := by
  rw [MarkSdk.swapMarked]
  split
  case isFalse => rfl
  case isTrue =>
    rcases swapBracket_cases x.1 with heq | ⟨hc, hswap⟩
    · rw [heq]
    · rw [h _ hc, h _ hswap]

/-- A bracket that is still there belonged to no match. -/
theorem eq_of_swapMarked (hc : c = '<' ∨ c = '>' ∨ c = '[' ∨ c = ']') :
    swapMarked x = c ↔ x = (c, false) := by
  obtain ⟨d, mark⟩ := x
  constructor
  · intro h
    cases mark with
    | false => exact Prod.ext h rfl
    | true =>
        have hswap : swapBracket d = c := h
        have hnot := swapBracket_notMem d
        rw [hswap] at hnot
        exact absurd (by simpa using hc) hnot
  · intro h
    rw [h]
    rfl

theorem swapMarked_of_notMem (h : x.1 ∉ brackets) : swapMarked x = x.1 := by
  rw [swapMarked]
  split
  · exact (swapBracket_cases x.1).resolve_right fun hin => h hin.1
  · rfl

end Reading

/-! ### Classes without brackets -/

section Classes

variable {py : Python}

theorem letters_plain {s : String}
    (h : (s.toList.all fun l => brackets.all fun c => !alike l c) = true) :
    (letters s).All Plain := by
  rw [letters]
  generalize s.toList = l at h
  induction l with
  | nil => trivial
  | cons c l ih =>
      rw [List.all_cons, Bool.and_eq_true] at h
      exact ⟨plain_of_all h.1, ih h.2⟩

theorem nameChars_plain (hword : Plain py.isWord) : (nameChars py).All Plain := by
  intro c hc
  have hdash : (c == '-') = false := @plain_of_all (· == '-') rfl c hc
  show (py.isWord c || c == '-') = false
  rw [hword c hc, hdash]
  rfl

theorem prefixedChars_plain (hword : Plain py.isWord) : (prefixedChars py).All Plain := by
  intro c hc
  have hdash : (c == '-') = false := @plain_of_all (· == '-') rfl c hc
  have hcolon : (c == ':') = false := @plain_of_all (· == ':') rfl c hc
  show (py.isWord c || c == ':' || c == '-') = false
  rw [hword c hc, hdash, hcolon]
  rfl

theorem slashed_plain : slashed.All Plain := by
  have hspace : Plain isSpace := plain_of_all rfl
  have hslash : Plain (· == '/') := plain_of_all rfl
  exact ⟨hspace, ⟨hslash, trivial⟩, hspace⟩

theorem boundaryNames_plain (hword : Plain py.isWord) : (boundaryNames py).All Plain := by
  have hname := nameChars_plain hword
  have hprefixed := prefixedChars_plain hword
  have hdash : Plain (among ['-', '_']) := plain_of_all rfl
  refine ⟨⟨?_, hname⟩, ⟨?_, hprefixed⟩, ⟨?_, ⟨?_, hdash, ?_⟩, trivial⟩, ?_, ?_, ?_, ?_,
    ⟨?_, ?_, trivial⟩, ?_, ⟨?_, ?_, trivial⟩, ⟨?_, hname⟩, ⟨?_, hname⟩, ?_, ⟨?_, hprefixed⟩,
    ⟨?_, ?_, ?_⟩, ⟨?_, hname⟩, ⟨?_, ?_, trivial⟩, ?_⟩
  all_goals
    apply letters_plain
    decide

theorem tagName_plain (hword : Plain py.isWord) : (tagName py).All Plain :=
  ⟨slashed_plain, boundaryNames_plain hword, trivial⟩

end Classes

/-! ### Tags around tags -/

/-- A tag in whose body there are brackets, each of which belongs to a match. -/
structure TagAround (word : Char → Bool) (name : Regex Char) (low high : Nat)
    (stops closing : List Char) (head body close : List (Char × Bool)) : Prop where
  named : name.Fits word (some '<') (head.map Prod.fst) ((body ++ close).map Prod.fst).head?
  few : low ≤ body.length ∧ body.length ≤ high
  line : ∀ x ∈ body, x.1 ∉ stops
  taken : ∀ x ∈ body, x.1 = '<' ∨ x.1 = '>' → x.2 = true
  holds : ∃ x ∈ body, x.1 = '<' ∨ x.1 = '>'
  closed : close.map Prod.fst = closing ∧ ∀ x ∈ close, x.1 = '>' → x.2 = false

/-- `nameTag` and `barTag` -/
def wideTag (name : Regex Char) (low high : Nat) (stops : List Char) (close : Regex Char) :
    Regex Char :=
  .seq (.seq (.one (· == '<')) name)
    (.seq (.rep low high (notAmong ('<' :: '>' :: stops))) close)

section Wide

variable {word : Char → Bool} {name close : Regex Char} {low high : Nat} {stops closing : List Char}
  {w : List (Char × Bool)} {b n : Option (Char × Bool)}

/-- A class that is seen afterwards was there before. -/
def SeenBefore (p : Char → Bool) : Prop := ∀ x, p (swapMarked x) = true → p (Prod.fst x) = true

theorem Plain.seenBefore {p : Char → Bool} (h : Plain p) : SeenBefore p := fun x hx => by
  rwa [h.swapMarked] at hx

theorem seenBefore_bracket {c : Char} (hc : c = '<' ∨ c = '>' ∨ c = '[' ∨ c = ']') :
    SeenBefore (· == c) := fun x hx => by
  rw [(eq_of_swapMarked hc).mp (beq_iff_eq.mp hx)]
  exact beq_self_eq_true c

theorem notAmong_iff {chars : List Char} {c : Char} : notAmong chars c = true ↔ c ∉ chars := by
  simp [notAmong]

/-- A stop that is no bracket is a stop before and after. -/
theorem swapMarked_mem_iff (hstops : Plain (among stops)) (x : Char × Bool) :
    swapMarked x ∈ stops ↔ x.1 ∈ stops := by
  have hsame := hstops.swapMarked x
  rw [among, among, List.contains_eq_mem, List.contains_eq_mem, decide_eq_decide] at hsame
  exact hsame

/-- A tag that is seen afterwards was one before, or has brackets of matches in it. -/
theorem fits_or_tagAround (hword : Plain word) (hname : name.All Plain)
    (hstops : Plain (among stops)) (hne : closing ≠ [])
    (hclose : ∀ b w n, close.Fits word b w n ↔ w = closing)
    (hclosing : ∀ z : List (Char × Bool), z.map swapMarked = closing →
      z.map Prod.fst = closing ∧ ∀ x ∈ z, x.1 = '>' → x.2 = false)
    (h : (wideTag name low high stops close).Fits word (b.map swapMarked) (w.map swapMarked)
      (n.map swapMarked)) :
    (wideTag name low high stops close).Fits word (b.map Prod.fst) (w.map Prod.fst)
        (n.map Prod.fst) ∨
      ∃ head body z, w = ('<', false) :: (head ++ (body ++ z)) ∧
        TagAround word name low high stops closing head body z := by
  have hedge : ∀ x, word (swapMarked x) = word (Prod.fst x) := hword.swapMarked
  have hnameRead : name.All SeenBefore := hname.mono fun _ => Plain.seenBefore
  obtain ⟨_, _, _, hw, hu, hv, hz⟩ := Regex.fits_seq_rep_seq.mp h
  obtain ⟨u, vz, rfl, rfl, hvz⟩ := List.map_eq_append_iff.mp hw
  obtain ⟨v, z, rfl, rfl, rfl⟩ := List.map_eq_append_iff.mp hvz
  rw [← List.map_append, List.head?_map, ← Option.map_or] at hu
  obtain ⟨hclosed, htaken⟩ := hclosing z ((hclose _ _ _).mp hz)
  by_cases hin : ∃ x ∈ v, x.1 = '<' ∨ x.1 = '>'
  · obtain ⟨_, _, hsplit, ⟨c, rfl, hc⟩, hnamed⟩ := hu
    obtain ⟨one, head, rfl, hone, rfl⟩ := List.map_eq_append_iff.mp hsplit
    obtain ⟨x, rfl, rfl⟩ := List.map_eq_singleton_iff.mp hone
    obtain rfl : x = ('<', false) := (eq_of_swapMarked (.inl rfl)).mp (beq_iff_eq.mp hc)
    have hnext : (v ++ z).head?.or n = (v ++ z).head? := by
      have hnonempty : v ++ z ≠ [] := by
        intro hnil
        rw [(List.append_eq_nil_iff.mp hnil).2] at hclosed
        exact hne hclosed.symm
      obtain ⟨y, rest, hrest⟩ := List.exists_cons_of_ne_nil hnonempty
      rw [hrest]
      rfl
    rw [hnext] at hnamed
    have hread := @Regex.Fits.of_map Char (Char × Bool) word name swapMarked Prod.fst hedge
      (some ('<', false)) (v ++ z).head? head hnameRead hnamed
    rw [← List.head?_map] at hread
    refine .inr ⟨head, v, z, rfl, hread, ?_, fun x hx => ?_, fun x hx hbracket => ?_, hin,
      hclosed, htaken⟩
    · rw [List.length_map] at hv
      exact ⟨hv.1, hv.2.1⟩
    · have hnot := notAmong_iff.mp (hv.2.2 _ (List.mem_map_of_mem hx))
      rw [← swapMarked_mem_iff hstops]
      exact fun hmem => hnot (List.mem_cons_of_mem _ (List.mem_cons_of_mem _ hmem))
    · have hnot := notAmong_iff.mp (hv.2.2 _ (List.mem_map_of_mem hx))
      by_contra hmark
      rw [swapMarked, if_neg hmark] at hnot
      rcases hbracket with hbracket | hbracket
      · exact hnot (by rw [hbracket]; exact List.mem_cons_self)
      · exact hnot (by rw [hbracket]; exact List.mem_cons_of_mem _ List.mem_cons_self)
  · refine .inl (Regex.fits_seq_rep_seq.mpr ⟨u.map Prod.fst, v.map Prod.fst, z.map Prod.fst,
      by rw [List.map_append, List.map_append], ?_, ?_, (hclose _ _ _).mpr hclosed⟩)
    · rw [← List.map_append, List.head?_map, ← Option.map_or]
      exact Regex.Fits.of_map swapMarked Prod.fst hedge
        ⟨seenBefore_bracket (.inl rfl), hnameRead⟩ hu
    · rw [List.length_map] at hv ⊢
      refine ⟨hv.1, hv.2.1, fun c hc => ?_⟩
      obtain ⟨x, hx, rfl⟩ := List.mem_map.mp hc
      have hnot := notAmong_iff.mp (hv.2.2 _ (List.mem_map_of_mem hx))
      rw [notAmong_iff]
      intro hmem
      rcases List.mem_cons.mp hmem with heq | hmem
      · exact hin ⟨x, hx, .inl heq⟩
      · rcases List.mem_cons.mp hmem with heq | hmem
        · exact hin ⟨x, hx, .inr heq⟩
        · rw [← swapMarked_mem_iff hstops] at hmem
          exact hnot (List.mem_cons_of_mem _ (List.mem_cons_of_mem _ hmem))

/-- A tag around others is a tag once their brackets are gone. -/
theorem TagAround.fits {head body z : List (Char × Bool)} (hword : Plain word)
    (hname : name.All Plain) (hstops : Plain (among stops)) (hne : closing ≠ [])
    (hclose : ∀ b w n, close.Fits word b w n ↔ w = closing)
    (hclosing : ∀ z : List (Char × Bool), z.map Prod.fst = closing →
      (∀ x ∈ z, x.1 = '>' → x.2 = false) → z.map swapMarked = closing)
    (h : TagAround word name low high stops closing head body z) (b n : Option Char) :
    (wideTag name low high stops close).Fits word b
      ((('<', false) :: (head ++ (body ++ z))).map swapMarked) n := by
  have hedge : ∀ x, word (Prod.fst x) = word (swapMarked x) := fun x => (hword.swapMarked x).symm
  have hnext : ((body ++ z).map swapMarked).head?.or n = ((body ++ z).map swapMarked).head? := by
    have hnonempty : body ++ z ≠ [] := by
      intro hnil
      have hclosed := h.closed.1
      rw [(List.append_eq_nil_iff.mp hnil).2] at hclosed
      exact hne hclosed.symm
    obtain ⟨y, rest, hrest⟩ := List.exists_cons_of_ne_nil hnonempty
    rw [hrest]
    rfl
  have hnamed := h.named
  rw [List.head?_map] at hnamed
  have hwritten := @Regex.Fits.of_map Char (Char × Bool) word name Prod.fst swapMarked hedge
    (some ('<', false)) (body ++ z).head? head
    (hname.mono fun p hp x hx => by rwa [hp.swapMarked]) hnamed
  refine Regex.fits_seq_rep_seq.mpr ⟨('<' :: head.map swapMarked), body.map swapMarked,
    z.map swapMarked, ?_, ?_, ?_, (hclose _ _ _).mpr (hclosing z h.closed.1 h.closed.2)⟩
  · rw [List.map_cons, List.map_append, List.map_append]
    rfl
  · rw [← List.map_append, hnext, List.head?_map]
    refine ⟨['<'], head.map swapMarked, rfl, ⟨'<', rfl, rfl⟩, hwritten⟩
  · rw [List.length_map]
    refine ⟨h.few.1, h.few.2, fun c hc => ?_⟩
    obtain ⟨x, hx, rfl⟩ := List.mem_map.mp hc
    rw [notAmong_iff]
    intro hmem
    have hopen : ∀ c, (c = '<' ∨ c = '>') → swapMarked x ≠ c := by
      intro c hc heq
      have hx' : x = (c, false) := (eq_of_swapMarked (by tauto)).mp heq
      have hmark := h.taken x hx (by rw [hx']; exact hc)
      rw [hx'] at hmark
      cases hmark
    rcases List.mem_cons.mp hmem with heq | hmem
    · exact hopen _ (.inl rfl) heq
    · rcases List.mem_cons.mp hmem with heq | hmem
      · exact hopen _ (.inr rfl) heq
      · exact h.line x hx ((swapMarked_mem_iff hstops x).mp hmem)

end Wide

/-! ### Both closings -/

section Closings

variable {word : Char → Bool} {b n : Option Char} {w : List Char} {z : List (Char × Bool)}

theorem fits_one_iff {c : Char} : (Regex.one (· == c)).Fits word b w n ↔ w = [c] := by
  constructor
  · rintro ⟨d, rfl, hd⟩
    rw [beq_iff_eq.mp hd]
  · rintro rfl
    exact ⟨c, rfl, beq_self_eq_true c⟩

theorem fits_bar_iff :
    (Regex.seq (.one (· == '|')) (.one (· == '>'))).Fits word b w n ↔ w = ['|', '>'] := by
  constructor
  · rintro ⟨u, v, rfl, hu, hv⟩
    rw [fits_one_iff.mp hu, fits_one_iff.mp hv]
    rfl
  · rintro rfl
    exact ⟨['|'], ['>'], rfl, fits_one_iff.mpr rfl, fits_one_iff.mpr rfl⟩

theorem map_swapMarked_close :
    z.map swapMarked = ['>'] ↔ z.map Prod.fst = ['>'] ∧ ∀ x ∈ z, x.1 = '>' → x.2 = false := by
  constructor
  · intro h
    obtain ⟨x, rfl, hx⟩ := List.map_eq_singleton_iff.mp h
    rw [eq_of_swapMarked (by simp)] at hx
    subst hx
    exact ⟨rfl, by simp⟩
  · rintro ⟨h, hmark⟩
    obtain ⟨⟨c, mark⟩, rfl, rfl⟩ := List.map_eq_singleton_iff.mp h
    obtain rfl : mark = false := hmark _ List.mem_cons_self rfl
    rfl

theorem map_swapMarked_bar :
    z.map swapMarked = ['|', '>'] ↔
      z.map Prod.fst = ['|', '>'] ∧ ∀ x ∈ z, x.1 = '>' → x.2 = false := by
  have hbar : Plain (· == '|') := plain_of_all rfl
  constructor
  · intro h
    obtain ⟨x, z, rfl, hx, hz⟩ := List.map_eq_cons_iff.mp h
    obtain ⟨hlast, hmark⟩ := map_swapMarked_close.mp hz
    have hfirst : x.1 = '|' := by
      rw [← beq_iff_eq, ← hbar.swapMarked, hx]
      rfl
    refine ⟨by rw [List.map_cons, hfirst, hlast], fun y hy hyc => ?_⟩
    rcases List.mem_cons.mp hy with rfl | hy
    · rw [hfirst] at hyc
      exact absurd hyc (by decide)
    · exact hmark y hy hyc
  · rintro ⟨h, hmark⟩
    obtain ⟨x, z, rfl, hx, hz⟩ := List.map_eq_cons_iff.mp h
    have hlast := map_swapMarked_close.mpr ⟨hz, fun y hy => hmark y (List.mem_cons_of_mem _ hy)⟩
    rw [List.map_cons, hlast, swapMarked_of_notMem (by rw [hx]; decide), hx]

end Closings

/-! ### The other tags -/

section Others

variable {word : Char → Bool} {w : List (Char × Bool)} {b n : Option (Char × Bool)}

theorem letters_seenBefore {s : String}
    (h : (s.toList.all fun l => brackets.all fun c => !alike l c) = true) :
    (letters s).All SeenBefore := (letters_plain h).mono fun _ => Plain.seenBefore

theorem sysTag_seenBefore : sysTag.All SeenBefore :=
  ⟨seenBefore_bracket (by simp), seenBefore_bracket (by simp),
    ⟨(plain_of_all rfl).seenBefore, trivial⟩, letters_seenBefore (by decide),
    seenBefore_bracket (by simp), seenBefore_bracket (by simp)⟩

theorem instTag_seenBefore : instTag.All SeenBefore :=
  ⟨seenBefore_bracket (by simp), ⟨(plain_of_all rfl).seenBefore, trivial⟩,
    letters_seenBefore (by decide), seenBefore_bracket (by simp)⟩

/-- A `[mark …]` that is seen afterwards was there before, at least up to the
first `]`. -/
theorem markTag_fits (hword : Plain word)
    (h : markTag.Fits word (b.map swapMarked) (w.map swapMarked) (n.map swapMarked)) :
    ∃ u rest, w = u ++ rest ∧
      markTag.Fits word (b.map Prod.fst) (u.map Prod.fst) ((rest.head?.or n).map Prod.fst) := by
  have hedge : ∀ x, word (swapMarked x) = word (Prod.fst x) := hword.swapMarked
  obtain ⟨_, _, _, hw, hu, hv, hz⟩ := Regex.fits_seq_rep_seq.mp h
  obtain ⟨u, vz, rfl, rfl, hvz⟩ := List.map_eq_append_iff.mp hw
  obtain ⟨v, z, rfl, rfl, rfl⟩ := List.map_eq_append_iff.mp hvz
  obtain ⟨x, rfl, hx⟩ := List.map_eq_singleton_iff.mp (fits_one_iff.mp hz)
  obtain rfl : x = (']', false) := (eq_of_swapMarked (by simp)).mp hx
  rw [List.length_map] at hv
  obtain ⟨cut, rest, hcut, hfirst⟩ :=
    List.eq_append_cons_of_mem (List.mem_map_of_mem (f := Prod.fst)
      (List.mem_append_right v (List.mem_singleton_self ((']', false) : Char × Bool))))
  obtain ⟨body, tail, hsplit, rfl, htail⟩ := List.map_eq_append_iff.mp hcut
  obtain ⟨y, back, rfl, hy, -⟩ := List.map_eq_cons_iff.mp htail
  have hread := @Regex.Fits.of_map Char (Char × Bool) word markOpen swapMarked Prod.fst hedge b
    ((v ++ [(']', false)]).head?.or n) u
    ⟨seenBefore_bracket (by simp), (slashed_plain.mono fun _ => Plain.seenBefore),
      letters_seenBefore (by decide), trivial⟩ (by
      rw [Option.map_or, ← List.head?_map, List.map_append]
      exact hu)
  refine ⟨u ++ (body ++ [y]), back, by rw [hsplit]; simp, Regex.fits_seq_rep_seq.mpr
    ⟨u.map Prod.fst, body.map Prod.fst, [']'], by simp [hy], ?_, ?_, fits_one_iff.mpr rfl⟩⟩
  · have hnext : (v ++ [(']', false)]).head?.or n = (body ++ [y]).head?.or (back.head?.or n) := by
      rw [hsplit]
      cases body <;> rfl
    rw [hnext, Option.map_or, ← List.head?_map, List.map_append, List.map_singleton, hy] at hread
    exact hread
  · have hlength := congrArg List.length hsplit
    simp only [List.length_append, List.length_cons, List.length_nil] at hlength
    rw [List.length_map]
    refine ⟨Nat.zero_le _, by omega, fun c hc => ?_⟩
    obtain ⟨x, hx, rfl⟩ := List.mem_map.mp hc
    have hne : x.1 ≠ ']' := fun heq => hfirst (List.mem_map.mpr ⟨x, hx, heq⟩)
    have hin : x ∈ v := by
      have hmem : x ∈ v ++ [(']', false)] := hsplit ▸ List.mem_append_left _ hx
      rcases List.mem_append.mp hmem with hmem | hmem
      · exact hmem
      · rw [List.mem_singleton.mp hmem] at hne
        exact absurd rfl hne
    have hnot := notAmong_iff.mp (hv.2.2 _ (List.mem_map_of_mem hin))
    rw [notAmong_iff]
    intro hmem
    rcases List.mem_cons.mp hmem with heq | hmem
    · exact hne heq
    · have hline : Plain (among ['\n']) := plain_of_all rfl
      exact hnot (List.mem_cons_of_mem _ ((swapMarked_mem_iff hline x).mpr hmem))

end Others

/-! ### What is left -/

/-- A tag that no match takes has brackets of matches in it, and no others. -/
def NestedTag (py : Python) (m : List (Char × Bool)) : Prop :=
  ∃ front head body close back, m = front ++ ('<', false) :: (head ++ (body ++ close)) ++ back ∧
    (TagAround py.isWord (tagName py) 0 200 ['\n'] ['>'] head body close ∨
      TagAround py.isWord (.one (· == '|')) 1 40 ['|', '\n'] ['|', '>'] head body close)

section Defuse

variable {py : Python} {w : List Char} {b n : Option Char}

/-- A match begins with a bracket. -/
theorem boundaryPattern_head (h : (boundaryPattern py).Fits py.isWord b w n) :
    ∃ c rest, w = c :: rest ∧ (c = '<' ∨ c = '[') := by
  rcases h with h | h | h | h | h
  · obtain ⟨_, _, rfl, ⟨_, _, rfl, ⟨c, rfl, hc⟩, -⟩, -⟩ := h
    exact ⟨c, _, rfl, .inl (beq_iff_eq.mp hc)⟩
  · obtain ⟨_, _, rfl, ⟨_, _, rfl, ⟨c, rfl, hc⟩, -⟩, -⟩ := h
    exact ⟨c, _, rfl, .inl (beq_iff_eq.mp hc)⟩
  · obtain ⟨_, _, rfl, ⟨c, rfl, hc⟩, -⟩ := h
    exact ⟨c, _, rfl, .inl (beq_iff_eq.mp hc)⟩
  · obtain ⟨_, _, rfl, ⟨c, rfl, hc⟩, -⟩ := h
    exact ⟨c, _, rfl, .inr (beq_iff_eq.mp hc)⟩
  · obtain ⟨_, _, rfl, ⟨_, _, rfl, ⟨c, rfl, hc⟩, -⟩, -⟩ := h
    exact ⟨c, _, rfl, .inr (beq_iff_eq.mp hc)⟩

theorem boundaryPattern_proper : (boundaryPattern py).Proper py.isWord := by
  intro b w n h
  obtain ⟨c, rest, rfl, -⟩ := boundaryPattern_head h
  exact List.cons_ne_nil _ _

theorem boundaryPattern_change (b : Option Char) (c : Char) (w : List Char) (n : Option Char)
    (h : (boundaryPattern py).Fits py.isWord b (c :: w) n) : swapBracket c ≠ c := by
  obtain ⟨d, rest, heq, hd⟩ := boundaryPattern_head h
  obtain ⟨rfl, -⟩ := List.cons.inj heq
  rcases hd with rfl | rfl <;> decide

/-- The text with its matches marked, as `defuse` finds them. -/
def marked (py : Python) (text : List Char) : List (Char × Bool) :=
  (boundaryPattern py).covered py.isWord none 0 text

theorem marked_swap (text : List Char) : (marked py text).map swapMarked =
    (boundaryPattern py).sub py.isWord (List.map swapBracket) none 0 text := by
  have h := @Regex.sub_map Char py.isWord (boundaryPattern py) none text 0 swapBracket
  rw [List.take_zero, List.map_nil, List.nil_append] at h
  exact h

theorem sub_boundary_eq_self_iff {s : List Char} :
    (boundaryPattern py).sub py.isWord (List.map swapBracket) none 0 s = s ↔
      ¬ (boundaryPattern py).Occurs py.isWord none s :=
  Regex.sub_eq_self_iff boundaryPattern_proper swapBracket boundaryPattern_change

/-- The test for a bracket saves work only. -/
theorem defuse_eq (text : String) :
    defuse py text = String.ofList ((marked py text.toList).map swapMarked) := by
  rw [marked_swap, defuse]
  split
  case isFalse => rfl
  case isTrue hnone =>
    have hno : ¬ (boundaryPattern py).Occurs py.isWord none text.toList := by
      rintro ⟨front, w, back, hs, -, hfits⟩
      obtain ⟨c, rest, rfl, hc⟩ := boundaryPattern_head hfits
      have hmem : c ∈ text.toList := by
        rw [hs]
        exact List.mem_append_left _ (List.mem_append_right _ List.mem_cons_self)
      rcases hc with rfl | rfl
      · exact hnone.1 hmem
      · exact hnone.2 hmem
    have hsame := sub_boundary_eq_self_iff.mpr hno
    rw [hsame, String.ofList_toList]

/-- Defusing changes a text exactly where there is a match. -/
theorem defuse_eq_self_iff (text : String) : defuse py text = text ↔
    ¬ (boundaryPattern py).Occurs py.isWord none text.toList := by
  rw [defuse_eq, marked_swap, ← sub_boundary_eq_self_iff]
  constructor
  · intro h
    have hlist := congrArg String.toList h
    rwa [String.toList_ofList] at hlist
  · intro h
    rw [h, String.ofList_toList]

variable {text : List Char}

/-- No match begins where none was taken. -/
theorem not_fits_of_marked {front w back : List (Char × Bool)} {c : Char}
    (hm : marked py text = front ++ ((c, false) :: w) ++ back) {u rest : List (Char × Bool)}
    (hw : (c, false) :: w = u ++ rest) :
    ¬ (boundaryPattern py).Fits py.isWord (front.getLast?.map Prod.fst) (u.map Prod.fst)
      ((rest.head?.or back.head?).map Prod.fst) := by
  rw [List.append_assoc, List.cons_append] at hm
  have hnot := @Regex.not_fits_of_uncovered Char py.isWord (boundaryPattern py) none text 0
    boundaryPattern_proper front (w ++ back) c hm (u.map Prod.fst) ((rest ++ back).map Prod.fst) (by
      rw [← List.map_append, ← List.append_assoc, ← hw]
      rfl)
  rwa [Option.or_none, List.getLast?_map, List.head?_map, List.head?_append] at hnot

/-- Seen through the matches, a tag is left exactly where there are nested ones. -/
theorem occurs_iff_nestedTag (hword : Plain py.isWord) :
    (boundaryPattern py).Occurs py.isWord none ((marked py text).map swapMarked) ↔
      NestedTag py (marked py text) := by
  have hname := tagName_plain hword
  have hbar : (Regex.one (· == '|')).All Plain := plain_of_all rfl
  have hline : Plain (among ['\n']) := plain_of_all rfl
  have hstops : Plain (among ['|', '\n']) := plain_of_all rfl
  constructor
  · rintro ⟨_, _, _, hsplit, -, hfits⟩
    obtain ⟨fw, back, hm, hfw, rfl⟩ := List.map_eq_append_iff.mp hsplit
    obtain ⟨front, w, rfl, rfl, rfl⟩ := List.map_eq_append_iff.mp hfw
    rw [Option.or_none, List.getLast?_map, List.head?_map] at hfits
    obtain ⟨c, rest, hhead, hc⟩ := boundaryPattern_head hfits
    obtain ⟨x, w, rfl, hx, -⟩ := List.map_eq_cons_iff.mp hhead
    obtain rfl : x = (c, false) := (eq_of_swapMarked (by tauto)).mp hx
    have hnot := @not_fits_of_marked py text front w back c hm
    have hnone := hnot (List.append_nil _).symm
    rw [List.head?_nil, Option.none_or] at hnone
    have hedge : ∀ x, py.isWord (swapMarked x) = py.isWord (Prod.fst x) := hword.swapMarked
    rcases hfits with h | h | h | h | h
    · rcases fits_or_tagAround hword hname hline (by simp) (fun _ _ _ => fits_one_iff)
        (fun _ => map_swapMarked_close.mp) h with hwas | ⟨head, body, z, hw, htag⟩
      · exact absurd (.inl hwas) hnone
      · exact ⟨front, head, body, z, back, hw ▸ hm, .inl htag⟩
    · rcases fits_or_tagAround hword hbar hstops (by simp) (fun _ _ _ => fits_bar_iff)
        (fun _ => map_swapMarked_bar.mp) h with hwas | ⟨head, body, z, hw, htag⟩
      · exact absurd (.inr (.inl hwas)) hnone
      · exact ⟨front, head, body, z, back, hw ▸ hm, .inr htag⟩
    · exact absurd (.inr (.inr (.inl (Regex.Fits.of_map swapMarked Prod.fst hedge
        sysTag_seenBefore h)))) hnone
    · exact absurd (.inr (.inr (.inr (.inl (Regex.Fits.of_map swapMarked Prod.fst hedge
        instTag_seenBefore h))))) hnone
    · obtain ⟨u, rest, hw, hwas⟩ := markTag_fits hword h
      exact absurd (.inr (.inr (.inr (.inr hwas)))) (hnot hw)
  · rintro ⟨front, head, body, z, back, hm, htag⟩
    refine ⟨front.map swapMarked, (('<', false) :: (head ++ (body ++ z))).map swapMarked,
      back.map swapMarked, by rw [hm, List.map_append, List.map_append], by simp, ?_⟩
    rcases htag with htag | htag
    · exact .inl (htag.fits hword hname hline (by simp) (fun _ _ _ => fits_one_iff)
        (fun _ h hmark => map_swapMarked_close.mpr ⟨h, hmark⟩) _ _)
    · exact .inr (.inl (htag.fits hword hbar hstops (by simp) (fun _ _ _ => fits_bar_iff)
        (fun _ h hmark => map_swapMarked_bar.mpr ⟨h, hmark⟩) _ _))

/-- Defusing leaves no tag, and changes nothing a second time, exactly where no
tag has tags in it. -/
theorem defuse_iff (py : Python) (hword : Plain py.isWord) (text : String) :
    (¬ (boundaryPattern py).Occurs py.isWord none (defuse py text).toList ∧
      defuse py (defuse py text) = defuse py text) ↔ ¬ NestedTag py (marked py text.toList) := by
  rw [defuse_eq_self_iff, and_self, defuse_eq, String.toList_ofList, occurs_iff_nestedTag hword]

end Defuse

theorem plain_isWord_basic : Plain Python.basic.isWord := plain_of_all (by decide)

/-- Tags that stand apart are all defused. -/
theorem defuse_apart :
    ¬ (boundaryPattern Python.basic).Occurs Python.basic.isWord none
        (defuse Python.basic "a > b [MARK x] </System y>").toList ∧
      defuse Python.basic (defuse Python.basic "a > b [MARK x] </System y>") =
        defuse Python.basic "a > b [MARK x] </System y>" := by
  refine (defuse_iff Python.basic plain_isWord_basic _).mpr ?_
  rintro ⟨front, head, body, close, back, hm, -⟩
  have hopen : ('<', false) ∈ marked Python.basic "a > b [MARK x] </System y>".toList := by
    rw [hm]
    exact List.mem_append_left _ (List.mem_append_right _ List.mem_cons_self)
  revert hopen
  decide +kernel

/-- A tag around a tag is left, and gone the second time. -/
theorem defuse_nested :
    ¬ (¬ (boundaryPattern Python.basic).Occurs Python.basic.isWord none
        (defuse Python.basic "<system <user> >").toList ∧
      defuse Python.basic (defuse Python.basic "<system <user> >") =
        defuse Python.basic "<system <user> >") := by
  rintro ⟨-, hsame⟩
  revert hsame
  decide +kernel

end MarkSdk
