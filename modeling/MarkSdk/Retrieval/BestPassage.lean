import Mathlib.Algebra.Order.Field.Rat
import Mathlib.Algebra.Order.Field.Basic
import MarkSdk.Retrieval.BestSpan

/-!
The passage around an occurrence.

An occurrence of a term begins in the window as the search places it. Its edges
then move inwards, which can leave every occurrence out: which ones stay is said
by the boundaries that the edges find (`window_showsBest_iff`).
-/

namespace MarkSdk

/-! ### The edges -/

/-- The first boundary near the front of a span. -/
def firstBoundary (content : List Char) (start : Nat) : Option (Nat × Nat) :=
  (boundaries content[start - 1]? 0 start
    (between content start (min content.length (start + snapChars)))).head?

/-- Where the last boundary of a part begins, which sees nothing before it. -/
def lastBoundary (content : List Char) (low stop : Nat) : Option Nat :=
  (boundaries none 0 0 (between content low stop)).getLast?.map fun m => low + m.1

/-- The front edge moves behind the first boundary that ends in the span. -/
def frontEdge (content : List Char) (start stop : Nat) : Nat :=
  if 0 < start then
    match firstBoundary content start with
    | some m => if m.2 < stop then m.2 else start
    | none => start
  else start

/-- An occurrence in a span, of which neither edge moves past it: the first
boundary at the front ends before it, and the last one at the back begins behind
it. -/
structure Spared (content : List Char) (start stop : Nat) (h : Hit) : Prop where
  inside : start ≤ h.start ∧ h.stop ≤ stop
  front : 0 < start → ∀ m, firstBoundary content start = some m → m.2 ≤ h.start ∨ stop ≤ m.2
  back : stop < content.length →
    ∀ place, lastBoundary content (max (frontEdge content start stop) (stop - snapChars)) stop =
      some place → h.stop ≤ place ∨ place ≤ frontEdge content start stop

section Edges

variable {content : List Char} {start stop : Nat} {h : Hit}

theorem snap_fst (content : List Char) (start stop : Nat) :
    (snap content start stop).1 = frontEdge content start stop := rfl

theorem frontEdge_le (hle : start ≤ stop) : frontEdge content start stop ≤ stop := by
  rw [frontEdge]
  split
  · split
    · split <;> omega
    · exact hle
  · exact hle

/-- The back edge moves to where the last boundary begins, unless this is the
front edge. -/
theorem snap_snd (hle : start ≤ stop) (hstop : stop ≤ content.length) :
    (snap content start stop).2 =
      if stop < content.length then
        match lastBoundary content (max (frontEdge content start stop) (stop - snapChars)) stop with
        | some place => if frontEdge content start stop < place then place else stop
        | none => stop
      else stop := by
  rw [snap]
  simp only
  generalize hfront : (if 0 < start then _ else start : Nat) = front
  have hedge : frontEdge content start stop = front := hfront
  rw [hedge]
  have hlow : max front (stop - snapChars) ≤ stop := by
    have := hedge ▸ @frontEdge_le content start stop hle
    omega
  have htail : ((content.drop (max front (stop - snapChars))).take
      (stop - max front (stop - snapChars))).length = stop - max front (stop - snapChars) :=
    length_between hstop
  split
  case isFalse => rfl
  case isTrue =>
    rw [lastBoundary, between, htail, Nat.sub_sub_self hlow]
    cases (boundaries none 0 0 _).getLast? with
    | none => rfl
    | some cut => rfl

/-- Which occurrences lie between the edges. -/
theorem snap_spared_iff (hle : start ≤ stop) (hstop : stop ≤ content.length) :
    (snap content start stop).1 ≤ h.start ∧ h.stop ≤ (snap content start stop).2 ↔
      Spared content start stop h := by
  obtain ⟨hfront, hback⟩ := snap_inwards content start stop
  rw [snap_fst] at hfront ⊢
  constructor
  · rintro ⟨hfrom, hto⟩
    refine ⟨⟨hfront.trans hfrom, hto.trans hback⟩, fun hpos m hm => ?_, fun hend place hplace => ?_⟩
    · rw [frontEdge, if_pos hpos, hm] at hfrom
      simp only at hfrom
      split at hfrom
      · exact .inl hfrom
      · exact .inr (by omega)
    · rw [snap_snd hle hstop, if_pos hend, hplace] at hto
      simp only at hto
      split at hto
      · exact .inl hto
      · exact .inr (by omega)
  · intro hspared
    obtain ⟨hfrom, hto⟩ := hspared.inside
    constructor
    · rw [frontEdge]
      split
      case isFalse => exact hfrom
      case isTrue hpos =>
        split
        case h_2 => exact hfrom
        case h_1 m hm =>
          have := hspared.front hpos m hm
          split <;> omega
    · rw [snap_snd hle hstop]
      split
      case isFalse => exact hto
      case isTrue hend =>
        split
        case h_2 => exact hto
        case h_1 place hplace =>
          have := hspared.back hend place hplace
          split <;> omega

end Edges

/-! ### The text -/

section Text

variable {p : Char → Bool} {s word : List Char}

theorem infix_dropWhile (hne : word ≠ []) (hword : ∀ c ∈ word, p c = false)
    (h : word <:+: s) : word <:+: s.dropWhile p := by
  induction s with
  | nil => exact absurd (List.infix_nil.mp h) hne
  | cons c s ih =>
      rw [List.dropWhile_cons]
      split
      case isFalse => exact h
      case isTrue hc =>
        rcases List.infix_cons_iff.mp h with hhere | hlater
        · obtain ⟨d, rest, rfl⟩ := List.exists_cons_of_ne_nil hne
          obtain rfl := (List.cons_prefix_cons.mp hhere).1
          rw [hword _ List.mem_cons_self] at hc
          cases hc
        · exact ih hlater

/-- Stripping leaves a word whole. -/
theorem infix_stripChars (hne : word ≠ []) (hword : ∀ c ∈ word, p c = false)
    (h : word <:+: s) : word <:+: stripChars p s := by
  have hfront := infix_dropWhile hne hword h
  rw [stripChars, rstripChars, ← List.reverse_infix, List.reverse_reverse]
  exact infix_dropWhile (by simpa using hne) (by simpa using hword) (List.reverse_infix.mpr hfront)

theorem between_infix_between {start stop low high : Nat} (hlow : low ≤ start)
    (hhigh : stop ≤ high) : between s start stop <:+: between s low high := by
  have hdrop : s.drop start = (s.drop low).drop (start - low) := by
    rw [List.drop_drop, Nat.add_sub_cancel' hlow]
  have hinside : between s start stop = between (between s low high) (start - low) (stop - low) := by
    rw [between, between, between, hdrop, List.drop_take, List.take_take]
    congr 1
    omega
  rw [hinside]
  exact between_infix _ _ _

end Text

def pieceEdges (centre : String → String → Nat → Option Nat) (content query : String)
    (maxChars : Int) : Nat × Nat :=
  if content.length ≤ maxChars then (0, content.length)
  else
    let body := (max 1 (maxChars - 2)).toNat
    let start := bestStart centre content query body
    snap content.toList start (min content.length (start + body))

/-- The window is a short passage of the memory, and shows an occurrence of a
term where there is one that is shorter than the window. -/
structure BestPassage {W : Type} [LinearOrder W] (r : TermReader) (w : Weights W) (content query : String)
    (maxChars : Int) : Prop where
  short : ((window (r.focusCentre w) content query maxChars).1.length : Int) ≤ maxChars
  passage : Passage content (window (r.focusCentre w) content query maxChars).1
  shows : (∃ h ∈ r.hits content query, ((h.stop - h.start : Nat) : Int) < maxChars - 2) →
    ∃ h ∈ r.hits content query,
      (pieceEdges (r.focusCentre w) content query maxChars).1 ≤ h.start ∧
        h.stop ≤ (pieceEdges (r.focusCentre w) content query maxChars).2 ∧
          between content.toList h.start h.stop <:+:
            (window (r.focusCentre w) content query maxChars).1.toList

section Window

variable {W : Type} [LinearOrder W] {content query : String} {maxChars : Int}

theorem bestStart_add_le {centre : String → String → Nat → Option Nat} {size : Nat}
    (h : size ≤ content.length) : bestStart centre content query size + size ≤ content.length := by
  rw [bestStart]
  split
  · omega
  · omega

/-- What lies between the edges is shown, but for blanks around it. -/
theorem shown_of_pieceEdges {h : Hit} (centre : String → String → Nat → Option Nat)
    (h3 : 3 ≤ maxChars) (hne : between content.toList h.start h.stop ≠ [])
    (hblank : ∀ c ∈ between content.toList h.start h.stop, isSpace c = false)
    (hlow : (pieceEdges centre content query maxChars).1 ≤ h.start)
    (hhigh : h.stop ≤ (pieceEdges centre content query maxChars).2) :
    between content.toList h.start h.stop <:+:
      (window centre content query maxChars).1.toList := by
  rw [pieceEdges] at hlow hhigh
  rw [window, if_neg (by omega)]
  split
  case isTrue => exact between_infix _ _ _
  case isFalse hlong =>
    rw [if_neg hlong] at hlow hhigh
    simp only at hlow hhigh ⊢
    rw [String.toList_ofList]
    refine (infix_stripChars hne hblank (between_infix_between hlow hhigh)).trans ?_
    exact ⟨_, _, rfl⟩

/-- When the window is what its module says it is. The search starts it at the one
place that the best span calls for, and an occurrence begins in it there. -/
theorem window_showsBest_iff (r : TermReader) (w : Weights W) (content query : String)
    (maxChars : Int) (h3 : 3 ≤ maxChars)
    (hblank : ∀ c, r.py.isWord c = true → isSpace c = false) :
    (BestPassage r w content query maxChars ↔
      ((∃ h ∈ r.hits content query, ((h.stop - h.start : Nat) : Int) < maxChars - 2) →
        content.length ≤ maxChars ∨
          ∃ start, r.StartsAt w content query (maxChars - 2).toNat start ∧
            ∃ h ∈ r.hits content query,
              Spared content.toList start (start + (maxChars - 2).toNat) h)) ∧
    (r.hits content query ≠ [] →
      (∀ start, r.StartsAt w content query (maxChars - 2).toNat start ↔
        start = bestStart (r.focusCentre w) content query (maxChars - 2).toNat) ∧
      ∃ h ∈ r.hits content query,
        bestStart (r.focusCentre w) content query (maxChars - 2).toNat ≤ h.start ∧
          h.start < bestStart (r.focusCentre w) content query (maxChars - 2).toNat +
            (maxChars - 2).toNat) := by
  have hsize : 0 < (maxChars - 2).toNat := by omega
  have hstart (hhits : r.hits content query ≠ []) (start : Nat) :
      r.StartsAt w content query (maxChars - 2).toNat start ↔
        start = bestStart (r.focusCentre w) content query (maxChars - 2).toNat := by
    have hbest := @startsAt_bestStart W _ r w content query _ hsize hhits
    constructor
    · exact fun h => h.unique hbest
    · rintro rfl
      exact hbest
  have hbody : (max 1 (maxChars - 2)).toNat = (maxChars - 2).toNat := by omega
  have hedges : ¬ (content.length : Int) ≤ maxChars → ∀ h : Hit,
      ((pieceEdges (r.focusCentre w) content query maxChars).1 ≤ h.start ∧
        h.stop ≤ (pieceEdges (r.focusCentre w) content query maxChars).2 ↔
      Spared content.toList (bestStart (r.focusCentre w) content query (maxChars - 2).toNat)
        (bestStart (r.focusCentre w) content query (maxChars - 2).toNat +
          (maxChars - 2).toNat) h) := by
    intro hlong h
    have hfit : bestStart (r.focusCentre w) content query (maxChars - 2).toNat +
        (maxChars - 2).toNat ≤ content.length := bestStart_add_le (by omega)
    rw [pieceEdges, if_neg hlong]
    simp only
    rw [hbody, Nat.min_eq_right hfit]
    exact snap_spared_iff (Nat.le_add_right _ _) hfit
  refine ⟨⟨?_, ?_⟩, fun hhits => ⟨hstart hhits, (startsAt_bestStart hsize hhits).hit hsize hhits⟩⟩
  · intro hbest hshort
    by_cases hlong : (content.length : Int) ≤ maxChars
    · exact .inl hlong
    · obtain ⟨h, hh, hlow, hhigh, -⟩ := hbest.shows hshort
      exact .inr ⟨_, startsAt_bestStart hsize (List.ne_nil_of_mem hh), h, hh,
        (hedges hlong h).mp ⟨hlow, hhigh⟩⟩
  · intro hcond
    refine ⟨window_length_le h3, window_passage, fun hshort => ?_⟩
    have hinside : ∃ h ∈ r.hits content query,
        (pieceEdges (r.focusCentre w) content query maxChars).1 ≤ h.start ∧
          h.stop ≤ (pieceEdges (r.focusCentre w) content query maxChars).2 := by
      by_cases hlong : (content.length : Int) ≤ maxChars
      · obtain ⟨h, hh, -⟩ := hshort
        refine ⟨h, hh, ?_⟩
        rw [pieceEdges, if_pos hlong]
        exact ⟨Nat.zero_le _, (hits_word hh).2.1⟩
      · obtain ⟨start, hstarts, h, hh, hspared⟩ := (hcond hshort).resolve_left hlong
        obtain rfl := (hstart (List.ne_nil_of_mem hh) start).mp hstarts
        exact ⟨h, hh, (hedges hlong h).mpr hspared⟩
    obtain ⟨h, hh, hlow, hhigh⟩ := hinside
    obtain ⟨hlt, hend, hword⟩ := hits_word hh
    have hne : between content.toList h.start h.stop ≠ [] := by
      have hlength := @length_between content.toList h.start h.stop hend
      intro hnil
      rw [hnil, List.length_nil] at hlength
      omega
    exact ⟨h, hh, hlow, hhigh, shown_of_pieceEdges _ h3 hne
      (fun c hc => hblank c (hword c hc)) hlow hhigh⟩

end Window

/-! ### Two windows -/

/-- A query of one term that is its own stem. -/
def TermReader.basic : TermReader where
  py := Python.basic
  stem term := term
  contentTerms query := [query]

def Weights.exact : Weights Rat where
  oneOver n := 1 / n
  zero := 0
  lowest := -1
  add x y := x + y
  sub x y := x - y
  half x := x / 2
  half_le n := half_le_self (one_div_nonneg.mpr n.cast_nonneg)

theorem isSpace_of_isWord_basic (c : Char) (h : TermReader.basic.py.isWord c = true) :
    isSpace c = false := by
  have hword : ((((decide (c.val ≥ 'A'.val ∧ c.val ≤ 'Z'.val)) || (c.val ≥ 'a'.val && c.val ≤ 'z'.val)) ||
      (c.val ≥ '0'.val && c.val ≤ '9'.val)) || c == '_') = true := h
  simp only [Bool.or_eq_true, Bool.and_eq_true, decide_eq_true_eq, beq_iff_eq, ge_iff_le,
    UInt32.le_iff_toNat_le] at hword
  have hnum : c.toNat = c.val.toNat := rfl
  have hrange : (48 ≤ c.toNat ∧ c.toNat ≤ 57) ∨ (65 ≤ c.toNat ∧ c.toNat ≤ 90) ∨
      c.toNat = 95 ∨ (97 ≤ c.toNat ∧ c.toNat ≤ 122) := by
    rcases hword with ((hupper | hlower) | hdigit) | rfl
    · exact .inr (.inl hupper)
    · exact .inr (.inr (.inr hlower))
    · exact .inl hdigit
    · exact .inr (.inr (.inl rfl))
  rw [isSpace]
  simp only [Bool.or_eq_false_iff, Bool.and_eq_false_iff, decide_eq_false_iff_not,
    List.contains_eq_mem, List.mem_cons, List.not_mem_nil, or_false, not_or]
  clear hword h
  omega

def zebraAwake : String := "Notes. the zebra sleeps. then nothing happened at all here"

def zebraHerd : String := "the whole herd of the zebra. then nothing happened at all here"

example : window (TermReader.basic.focusCentre Weights.exact) zebraAwake "zebra" 22 =
    ("…the zebra slee…", true) := by decide +kernel

theorem window_showsBest_awake :
    BestPassage TermReader.basic Weights.exact zebraAwake "zebra" 22 := by
  have hzebra : (⟨11, 16, "zebra"⟩ : Hit) ∈ TermReader.basic.hits zebraAwake "zebra" := by
    decide +kernel
  refine (window_showsBest_iff TermReader.basic Weights.exact zebraAwake "zebra" 22 (by decide)
    isSpace_of_isWord_basic).1.mpr fun _ => .inr ⟨_,
      startsAt_bestStart (by decide) (List.ne_nil_of_mem hzebra), _, hzebra, ?_, ?_, ?_⟩
  · decide +kernel
  · decide +kernel
  · decide +kernel

/-- The front edge moves behind the only occurrence. -/
theorem window_showsBest_herd :
    ¬ BestPassage TermReader.basic Weights.exact zebraHerd "zebra" 22 := by
  intro hbest
  have hshown := hbest.shows
  revert hshown
  decide +kernel

end MarkSdk
