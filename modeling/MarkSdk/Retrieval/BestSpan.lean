import Mathlib.Data.List.TakeWhile
import Mathlib.Order.Bounds.Basic
import MarkSdk.Retrieval.Passage

/-!
The place of the passage.

The window is centred on the terms of the query that are rarest in the memory.
Which span of hits that is, and where the window begins for it, is said here of
the hits alone (`FirstHighest`, `TermReader.StartsAt`), and is what the search
finds (`bestSpan_highest`, `startsAt_bestStart`). There is one such place, and an
occurrence begins in the window that starts there.
-/

namespace MarkSdk

/-- The functions that tell the terms of a text. -/
structure TermReader where
  py : Python
  /-- `_stem` -/
  stem : String → String
  /-- `_content_terms` -/
  contentTerms : String → List String

/-- The floating point numbers that weigh the terms; none of them is `nan`. -/
structure Weights (W : Type) [LinearOrder W] where
  /-- `1.0 / n` -/
  oneOver : Nat → W
  zero : W
  lowest : W
  add : W → W → W
  sub : W → W → W
  half : W → W
  half_le : ∀ n, half (oneOver n) ≤ oneOver n

/-- An occurrence of a term. -/
structure Hit where
  start : Nat
  stop : Nat
  stem : String
  deriving DecidableEq, Repr

/-- `_TOKEN_RE.finditer`: the runs of word characters; one may have begun. -/
def wordRuns (word : Char → Bool) (begun : Option Nat) (offset : Nat) :
    List Char → List (Nat × Nat)
  | [] => (begun.map (·, offset)).toList
  | c :: s =>
      if word c then wordRuns word (some (begun.getD offset)) (offset + 1) s
      else (begun.map (·, offset)).toList ++ wordRuns word none (offset + 1) s

/-- The characters from one place up to another. -/
def between (s : List Char) (start stop : Nat) : List Char := (s.drop start).take (stop - start)

namespace TermReader

variable (r : TermReader)

def hitAt (terms : List String) (content : String) (m : Nat × Nat) : Option Hit :=
  let stem := r.stem (r.py.lower (String.ofList (between content.toList m.1 m.2)))
  if stem ∈ terms then some ⟨m.1, m.2, stem⟩ else none

/-- The occurrences of the query's terms in a text. -/
def hits (content query : String) : List Hit :=
  (wordRuns r.py.isWord none 0 content.toList).filterMap (r.hitAt (r.contentTerms query) content)

end TermReader

/-! ### The best span -/

/-- The loop of `_best_start`: hits before `j` have been entered. -/
structure SpanScan (W : Type) where
  j : Nat
  inside : String → Nat
  score : W
  bestScore : W
  best : Nat × Nat

section Span

variable {W : Type} [LinearOrder W] (w : Weights W) (weight : String → W) (size : Nat)

def SpanScan.enter (s : SpanScan W) (h : Hit) : SpanScan W :=
  let n := s.inside h.stem + 1
  { s with
    j := s.j + 1
    inside := fun stem => if stem = h.stem then n else s.inside stem
    score := if n = 1 then w.add s.score (weight h.stem) else s.score }

def SpanScan.leave (s : SpanScan W) (h : Hit) : SpanScan W :=
  let n := s.inside h.stem - 1
  { s with
    inside := fun stem => if stem = h.stem then n else s.inside stem
    score := if n = 0 then w.sub s.score (weight h.stem) else s.score }

/-- A span with a higher score is the best one from here on. -/
def SpanScan.judge (s : SpanScan W) (i : Nat) : SpanScan W :=
  if s.bestScore < s.score then { s with bestScore := s.score, best := (i, s.j - 1) } else s

/-- The `while` loop enters the hits before the limit. -/
def enterBefore (limit : Nat) : List Hit → SpanScan W → SpanScan W × List Hit
  | [], s => (s, [])
  | h :: rest, s =>
      if h.start < limit then enterBefore limit rest (s.enter w weight h) else (s, h :: rest)

/-- The `for` loop over the hits from the `i`-th on. -/
def scanSpans (i : Nat) : List Hit → List Hit → SpanScan W → SpanScan W
  | [], _, s => s
  | h :: later, rest, s =>
      let entered := enterBefore w weight (h.start + size) rest s
      scanSpans (i + 1) later entered.2 ((entered.1.judge i).leave w weight h)

def bestSpan (hits : List Hit) : Nat × Nat :=
  (scanSpans w weight size 0 hits hits ⟨0, fun _ => 0, w.zero, w.lowest, (0, 0)⟩).best

/-- The hits from the first to the last of a span. -/
def spanOf (hits : List Hit) (best : Nat × Nat) : List Hit :=
  (hits.drop best.1).take (best.2 + 1 - best.1)

end Span

/-- A term weighs the less the more often it occurs. -/
def TermReader.rarity {W : Type} [LinearOrder W] (r : TermReader) (w : Weights W)
    (content query : String) (stem : String) : W :=
  w.oneOver ((r.hits content query).countP (·.stem = stem))

/-- The middle of the best span's rarest terms. -/
def TermReader.focusCentre {W : Type} [LinearOrder W] (r : TermReader) (w : Weights W)
    (content query : String) (size : Nat) : Option Nat :=
  let hits := r.hits content query
  let weight := r.rarity w content query
  match spanOf hits (bestSpan w weight size hits) with
  | [] => none
  | h :: span =>
      let top := (span.map fun h => weight h.stem).foldl max (weight h.stem)
      let focus := ((h :: span).filter fun h => w.half top ≤ weight h.stem).map Hit.start
      some ((focus.min?.getD 0 + focus.max?.getD 0) / 2)

/-! ### The runs of word characters -/

section WordRuns

variable {word : Char → Bool} {s done : List Char} {begun : Option Nat} {offset : Nat}
  {m : Nat × Nat}

theorem between_infix (s : List Char) (start stop : Nat) : between s start stop <:+: s :=
  (List.take_prefix _ _).isInfix.trans (List.drop_suffix _ _).isInfix

theorem length_between {start stop : Nat} (h : stop ≤ s.length) :
    (between s start stop).length = stop - start := by
  rw [between, List.length_take, List.length_drop]
  omega

theorem between_append {start : Nat} (h : start ≤ done.length) :
    between (done ++ s) start done.length = done.drop start := by
  have hlength : done.length - start = (done.drop start).length := by rw [List.length_drop]
  rw [between, List.drop_append_of_le_length h, hlength, List.take_left]

/-- A run that has begun holds word characters only, and at least one. -/
theorem begun_word (hbegun : ∀ a ∈ begun, a < done.length ∧ ∀ c ∈ done.drop a, word c = true)
    (hm : m ∈ (begun.map (·, done.length)).toList) :
    m.1 < m.2 ∧ m.2 ≤ (done ++ s).length ∧
      ∀ c ∈ between (done ++ s) m.1 m.2, word c = true := by
  obtain ⟨a, ha, rfl⟩ := Option.map_eq_some_iff.mp (Option.mem_toList.mp hm)
  obtain ⟨hlt, hword⟩ := hbegun a ha
  refine ⟨hlt, by simp, ?_⟩
  rwa [between_append hlt.le]

theorem wordRuns_word (hbegun : ∀ a ∈ begun, a < done.length ∧ ∀ c ∈ done.drop a, word c = true)
    (hm : m ∈ wordRuns word begun done.length s) :
    m.1 < m.2 ∧ m.2 ≤ (done ++ s).length ∧
      ∀ c ∈ between (done ++ s) m.1 m.2, word c = true := by
  induction s generalizing begun done with
  | nil => exact begun_word hbegun hm
  | cons c s ih =>
      have hsplit : done ++ c :: s = (done ++ [c]) ++ s := by simp
      have hlength : done.length + 1 = (done ++ [c]).length := by simp
      rw [wordRuns] at hm
      split at hm
      case isTrue hc =>
        have hlonger : ∀ a ∈ some (begun.getD done.length), a < (done ++ [c]).length ∧
            ∀ d ∈ (done ++ [c]).drop a, word d = true := by
          intro a ha
          obtain rfl := Option.some.inj ha
          cases begun with
          | none =>
              refine ⟨by simp, fun d hd => ?_⟩
              rw [Option.getD_none, List.drop_left] at hd
              rwa [List.mem_singleton.mp hd]
          | some a =>
              obtain ⟨hlt, hword⟩ := hbegun a rfl
              rw [Option.getD_some]
              refine ⟨by rw [← hlength]; omega, fun d hd => ?_⟩
              rw [List.drop_append_of_le_length hlt.le] at hd
              rcases List.mem_append.mp hd with hd | hd
              · exact hword d hd
              · rwa [List.mem_singleton.mp hd]
        rw [hlength] at hm
        rw [hsplit]
        exact ih hlonger hm
      case isFalse =>
        rcases List.mem_append.mp hm with hm | hm
        · exact begun_word hbegun hm
        · rw [hlength] at hm
          rw [hsplit]
          exact ih (by simp) hm

/-- The runs stand one behind the other. -/
theorem wordRuns_sorted (hbegun : ∀ a ∈ begun, a < offset) :
    (wordRuns word begun offset s).Pairwise (·.1 < ·.1) ∧
      ∀ m ∈ wordRuns word begun offset s, begun.getD offset ≤ m.1 := by
  induction s generalizing begun offset with
  | nil => cases begun <;> simp [wordRuns]
  | cons c s ih =>
      rw [wordRuns]
      split
      case isTrue =>
        have hlater := @ih (some (begun.getD offset)) (offset + 1) (by
          intro a ha
          obtain rfl := Option.some.inj ha
          cases begun with
          | none => simp
          | some a => exact Nat.lt_succ_of_lt (hbegun a rfl))
        exact ⟨hlater.1, hlater.2⟩
      case isFalse =>
        obtain ⟨hsorted, hfrom⟩ := @ih none (offset + 1) (by simp)
        cases begun with
        | none => exact ⟨hsorted, fun m hm => (Nat.le_succ _).trans (hfrom m hm)⟩
        | some a =>
            have ha := hbegun a rfl
            rw [Option.map_some, Option.toList_some, List.singleton_append, List.pairwise_cons]
            refine ⟨⟨fun m hm => ?_, hsorted⟩, fun m hm => ?_⟩
            · have := hfrom m hm
              rw [Option.getD_none] at this
              show a < m.1
              omega
            · rcases List.mem_cons.mp hm with rfl | hm
              · exact le_rfl
              · have := hfrom m hm
                rw [Option.getD_none] at this
                rw [Option.getD_some]
                omega

end WordRuns
/-! ### The spans and their scores -/

/-- The hits that begin within the size of the first one. -/
def closeHits (size : Nat) : List Hit → List Hit
  | [] => []
  | h :: later => (h :: later).takeWhile (·.start < h.start + size)

/-- The terms that come in, each by its first hit and none that is held. -/
def comingIn (held : List String) : List String → List String
  | [] => []
  | stem :: more => (if stem ∈ held then [] else [stem]) ++ comingIn (stem :: held) more

/-- The best of the scored spans: the first with the highest score, or another
span where no score is above the lowest. -/
def FirstHighest {W α : Type} [LinearOrder W] (lowest : W) (other : α) (spans : List (α × W))
    (span : α) : Prop :=
  (∃ before score after, spans = before ++ (span, score) :: after ∧ lowest < score ∧
    (∀ p ∈ before, p.2 < score) ∧ ∀ p ∈ after, p.2 ≤ score) ∨
  ((∀ p ∈ spans, p.2 ≤ lowest) ∧ span = other)

section Scores

variable {W : Type} [LinearOrder W]

theorem FirstHighest.unique {α : Type} {lowest : W} {other a b : α} {spans : List (α × W)}
    (ha : FirstHighest lowest other spans a) (hb : FirstHighest lowest other spans b) : a = b := by
  rcases ha with ⟨before, x, after, rfl, hlow, hbefore, hafter⟩ | ⟨hnone, rfl⟩
  · rcases hb with ⟨before', y, after', hsplit, hlow', hbefore', hafter'⟩ | ⟨hnone, rfl⟩
    · rcases List.append_eq_append_iff.mp hsplit with ⟨t, rfl, ht⟩ | ⟨t, rfl, ht⟩
      · cases t with
        | nil => exact (Prod.mk.inj (List.cons.inj ht).1).1
        | cons p t =>
            obtain ⟨rfl, rfl⟩ := List.cons.inj ht
            have hxy : x < y := hbefore' (a, x) (by simp)
            have hyx : y ≤ x := hafter (b, y) (by simp)
            exact absurd hxy (not_lt.mpr hyx)
      · cases t with
        | nil => exact (Prod.mk.inj (List.cons.inj ht).1).1.symm
        | cons p t =>
            obtain ⟨rfl, rfl⟩ := List.cons.inj ht
            have hyx : y < x := hbefore (b, y) (by simp)
            have hxy : x ≤ y := hafter' (a, x) (by simp)
            exact absurd hyx (not_lt.mpr hxy)
    · exact absurd hlow (not_lt.mpr (hnone (a, x) (by simp)))
  · rcases hb with ⟨before, x, after, rfl, hlow, -, -⟩ | ⟨-, rfl⟩
    · exact absurd hlow (not_lt.mpr (hnone (b, x) (by simp)))
    · rfl

/-- One more span in front, which is the best one so far if its score is higher. -/
theorem FirstHighest.cons {α : Type} {lowest score : W} {other first span : α}
    {spans : List (α × W)}
    (h : FirstHighest (if lowest < score then score else lowest)
      (if lowest < score then first else other) spans span) :
    FirstHighest lowest other ((first, score) :: spans) span := by
  by_cases hhigher : lowest < score
  · rw [if_pos hhigher, if_pos hhigher] at h
    rcases h with ⟨before, x, after, rfl, hx, hbefore, hafter⟩ | ⟨hnone, rfl⟩
    · refine .inl ⟨(first, score) :: before, x, after, rfl, hhigher.trans hx, ?_, hafter⟩
      intro p hp
      rcases List.mem_cons.mp hp with rfl | hp
      · exact hx
      · exact hbefore p hp
    · exact .inl ⟨[], score, spans, rfl, hhigher, by simp, hnone⟩
  · rw [if_neg hhigher, if_neg hhigher] at h
    have hfirst : score ≤ lowest := not_lt.mp hhigher
    rcases h with ⟨before, x, after, rfl, hx, hbefore, hafter⟩ | ⟨hnone, rfl⟩
    · refine .inl ⟨(first, score) :: before, x, after, rfl, hx, ?_, hafter⟩
      intro p hp
      rcases List.mem_cons.mp hp with rfl | hp
      · exact hfirst.trans_lt hx
      · exact hbefore p hp
    · refine .inr ⟨fun p hp => ?_, rfl⟩
      rcases List.mem_cons.mp hp with rfl | hp
      · exact hfirst
      · exact hnone p hp

variable (w : Weights W) (weight : String → W) (size : Nat)

def addTerms (score : W) (stems : List String) : W :=
  stems.foldl (fun sum stem => w.add sum (weight stem)) score

/-- The span of each hit with its score, where `held` hits of the first span have
been counted. A term is added when it comes in, and taken off when its last hit
leaves. -/
def scoredSpans (held : Nat) (score : W) : List Hit → List (List Hit × W)
  | [] => []
  | h :: later =>
      let span := closeHits size (h :: later)
      let stems := span.map Hit.stem
      let full := addTerms w weight score (comingIn (stems.take held) (stems.drop held))
      let left := if h.stem ∈ stems.tail then full else w.sub full (weight h.stem)
      (span, full) :: scoredSpans (span.length - 1) left later

end Scores

section Scan

variable {W : Type} [LinearOrder W] {w : Weights W} {weight : String → W} {size : Nat}

section Judge

variable (s : SpanScan W) (i : Nat)

theorem SpanScan.judge_j : (s.judge i).j = s.j := by
  rw [judge]
  split <;> rfl

theorem SpanScan.judge_inside : (s.judge i).inside = s.inside := by
  rw [judge]
  split <;> rfl

theorem SpanScan.judge_score : (s.judge i).score = s.score := by
  rw [judge]
  split <;> rfl

theorem SpanScan.judge_bestScore :
    (s.judge i).bestScore = if s.bestScore < s.score then s.score else s.bestScore := by
  rw [judge]
  split <;> rfl

theorem SpanScan.judge_best :
    (s.judge i).best = if s.bestScore < s.score then (i, s.j - 1) else s.best := by
  rw [judge]
  split <;> rfl

end Judge

/-- What is entered are the hits before the limit; each new term counts once. -/
theorem enterBefore_spec {limit : Nat} {terms : List String} {rest : List Hit} {s : SpanScan W}
    (hinside : ∀ stem, s.inside stem = terms.count stem) :
    let more := rest.takeWhile (·.start < limit)
    let entered := enterBefore w weight limit rest s
    entered.2 = rest.dropWhile (·.start < limit) ∧ entered.1.j = s.j + more.length ∧
      (∀ stem, entered.1.inside stem = (terms ++ more.map Hit.stem).count stem) ∧
      entered.1.score = addTerms w weight s.score (comingIn terms (more.map Hit.stem)) ∧
      entered.1.bestScore = s.bestScore ∧ entered.1.best = s.best := by
  simp only
  induction rest generalizing terms s with
  | nil => exact ⟨rfl, rfl, by simpa [enterBefore] using hinside, rfl, rfl, rfl⟩
  | cons h rest ih =>
      rw [enterBefore, List.takeWhile_cons, List.dropWhile_cons]
      by_cases hlt : h.start < limit
      · rw [if_pos hlt, if_pos (decide_eq_true hlt), if_pos (decide_eq_true hlt)]
        have hentered : ∀ stem, (s.enter w weight h).inside stem = (h.stem :: terms).count stem := by
          intro stem
          simp only [SpanScan.enter, List.count_cons, beq_iff_eq, hinside]
          by_cases hstem : stem = h.stem
          · rw [if_pos hstem, if_pos hstem.symm, hstem]
          · rw [if_neg hstem, if_neg (Ne.symm hstem), Nat.add_zero]
        obtain ⟨hleft, hj, hin, hscore, hbestScore, hbest⟩ := ih hentered
        refine ⟨hleft, ?_, fun stem => ?_, ?_, hbestScore, hbest⟩
        · rw [hj, List.length_cons]
          simp only [SpanScan.enter]
          omega
        · rw [hin, List.map_cons]
          simp only [List.count_append, List.count_cons]
          omega
        · have hnew : s.inside h.stem + 1 = 1 ↔ h.stem ∉ terms := by
            rw [hinside, Nat.add_eq_right, List.count_eq_zero]
          rw [hscore, List.map_cons, comingIn, addTerms, addTerms, List.foldl_append]
          simp only [SpanScan.enter]
          by_cases hheld : h.stem ∈ terms
          · rw [if_neg (mt hnew.mp (not_not.mpr hheld)), if_pos hheld, List.foldl_nil]
          · rw [if_pos (hnew.mpr hheld), if_neg hheld, List.foldl_cons, List.foldl_nil]
      · rw [if_neg hlt, if_neg (by simpa using hlt), if_neg (by simpa using hlt)]
        refine ⟨rfl, rfl, fun stem => ?_, rfl, rfl, rfl⟩
        rw [List.map_nil, List.append_nil, hinside]

theorem start_lt_of_mem_takeWhile {limit : Nat} {hits : List Hit} {x : Hit}
    (hx : x ∈ hits.takeWhile (·.start < limit)) : x.start < limit :=
  of_decide_eq_true (@List.mem_takeWhile_imp _ (fun x : Hit => x.start < limit) _ _ hx)

theorem closeHits_front (size : Nat) (h : Hit) (later : List Hit) :
    closeHits size (h :: later) <+: h :: later :=
  List.takeWhile_prefix _

theorem closeHits_eq_cons (hsize : 0 < size) (h : Hit) (later : List Hit) :
    closeHits size (h :: later) = h :: later.takeWhile (·.start < h.start + size) := by
  rw [closeHits, List.takeWhile_cons, if_pos (decide_eq_true (by omega))]

section Leave

variable {s : SpanScan W} {h : Hit} {l : List Hit}
  (hinside : ∀ stem, s.inside stem = ((h :: l).map Hit.stem).count stem)
include hinside

/-- The first hit is counted out. -/
theorem SpanScan.leave_inside (stem : String) :
    (s.leave w weight h).inside stem = (l.map Hit.stem).count stem := by
  simp only [SpanScan.leave, hinside, List.map_cons, List.count_cons, beq_iff_eq]
  by_cases hstem : stem = h.stem
  · rw [if_pos hstem, hstem]
    simp
  · rw [if_neg hstem, if_neg (Ne.symm hstem), Nat.add_zero]

/-- Its weight goes with the last hit of its term. -/
theorem SpanScan.leave_score : (s.leave w weight h).score =
    if h.stem ∈ l.map Hit.stem then s.score else w.sub s.score (weight h.stem) := by
  have hlast := @SpanScan.leave_inside W _ w weight s h l hinside h.stem
  simp only [SpanScan.leave, if_true] at hlast ⊢
  rw [hlast]
  by_cases hmem : h.stem ∈ l.map Hit.stem
  · rw [if_pos hmem, if_neg (mt List.count_eq_zero.mp (not_not.mpr hmem))]
  · rw [if_neg hmem, if_pos (List.count_eq_zero.mpr hmem)]

end Leave

/-- The loop finds the best span: it has counted the hits of `held`, from the
hit at its turn on. -/
theorem scanSpans_highest (hsize : 0 < size) {hits gone held rest : List Hit} {s : SpanScan W}
    (hhits : hits = gone ++ (held ++ rest)) (hsorted : (held ++ rest).Pairwise (·.start < ·.start))
    (hj : s.j = gone.length + held.length)
    (hinside : ∀ stem, s.inside stem = (held.map Hit.stem).count stem)
    (hheld : ∀ x ∈ held ++ rest, ∀ y ∈ held, y.start < x.start + size) :
    FirstHighest s.bestScore (spanOf hits s.best)
      (scoredSpans w weight size held.length s.score (held ++ rest))
      (spanOf hits (scanSpans w weight size gone.length (held ++ rest) rest s).best) := by
  generalize hlater : held ++ rest = later at *
  induction later generalizing gone held rest s with
  | nil => exact .inr ⟨by simp [scoredSpans], rfl⟩
  | cons h later ih =>
      obtain ⟨hleft, hj', hin, hscore, hbestScore, hbest⟩ :=
        @enterBefore_spec W _ w weight (h.start + size) _ rest s hinside
      have hspan : closeHits size (h :: later) =
          held ++ rest.takeWhile (·.start < h.start + size) := by
        rw [closeHits, ← hlater, List.takeWhile_append_of_pos]
        exact fun y hy => decide_eq_true (hheld h List.mem_cons_self y hy)
      have hcons := closeHits_eq_cons hsize h later
      have hafter : later = later.takeWhile (·.start < h.start + size) ++
          rest.dropWhile (·.start < h.start + size) := by
        have hwhole : h :: later = closeHits size (h :: later) ++
            rest.dropWhile (·.start < h.start + size) := by
          rw [hspan, List.append_assoc, List.takeWhile_append_dropWhile, hlater]
        rw [hcons, List.cons_append] at hwhole
        exact (List.cons.inj hwhole).2
      rw [scanSpans, scoredSpans]
      generalize enterBefore w weight (h.start + size) rest s = entered at *
      have hstems : (closeHits size (h :: later)).map Hit.stem =
          held.map Hit.stem ++ (rest.takeWhile (·.start < h.start + size)).map Hit.stem := by
        rw [hspan, List.map_append]
      have htake : ((closeHits size (h :: later)).map Hit.stem).take held.length =
          held.map Hit.stem := by
        rw [hstems, List.take_left' (by rw [List.length_map])]
      have hdrop : ((closeHits size (h :: later)).map Hit.stem).drop held.length =
          (rest.takeWhile (·.start < h.start + size)).map Hit.stem := by
        rw [hstems, List.drop_left' (by rw [List.length_map])]
      rw [htake, hdrop, ← hscore]
      -- the span of this hit, as the loop takes it out of the hits
      have hcount : entered.1.j = gone.length + (closeHits size (h :: later)).length := by
        rw [hj', hj, hspan, List.length_append]
        omega
      have htaken : spanOf hits (gone.length, entered.1.j - 1) = closeHits size (h :: later) := by
        have hpos : 0 < (closeHits size (h :: later)).length := by rw [hcons]; simp
        have hlength : entered.1.j - 1 + 1 - gone.length =
            (closeHits size (h :: later)).length := by omega
        rw [spanOf, hlength, hhits, List.drop_left]
        exact (List.prefix_iff_eq_take.mp (closeHits_front size h later)).symm
      have hbefore : ∀ stem, (entered.1.judge gone.length).inside stem = ((h :: later.takeWhile
          (·.start < h.start + size)).map Hit.stem).count stem := by
        intro stem
        rw [SpanScan.judge_inside, hin, ← hstems, hcons]
      have hwithout := @SpanScan.leave_inside W _ w weight _ h _ hbefore
      have hscoreLeft : ((entered.1.judge gone.length).leave w weight h).score =
          if h.stem ∈ ((closeHits size (h :: later)).map Hit.stem).tail then entered.1.score
          else w.sub entered.1.score (weight h.stem) := by
        rw [hcons, List.map_cons, List.tail_cons, SpanScan.leave_score hbefore,
          SpanScan.judge_score]
      have hbestLeft : ((entered.1.judge gone.length).leave w weight h).bestScore =
          if s.bestScore < entered.1.score then entered.1.score else s.bestScore := by
        show (entered.1.judge gone.length).bestScore = _
        rw [SpanScan.judge_bestScore, hbestScore]
      have hspanLeft : spanOf hits ((entered.1.judge gone.length).leave w weight h).best =
          if s.bestScore < entered.1.score then closeHits size (h :: later)
          else spanOf hits s.best := by
        show spanOf hits (entered.1.judge gone.length).best = _
        rw [SpanScan.judge_best, hbestScore, hbest]
        split
        · exact htaken
        · rfl
      have hlength : (closeHits size (h :: later)).length - 1 =
          (later.takeWhile (·.start < h.start + size)).length := by
        rw [hcons, List.length_cons, Nat.add_sub_cancel]
      have hturn : gone.length + 1 = (gone ++ [h]).length := by simp
      apply FirstHighest.cons
      rw [← hbestLeft, ← hspanLeft, ← hscoreLeft, hlength, hturn]
      have hrest : later.takeWhile (·.start < h.start + size) ++ entered.2 = later := by
        rw [hleft, ← hafter]
      have hsplit : hits = gone ++ [h] ++ later := by
        rw [hhits, List.append_assoc, List.singleton_append]
      refine ih ?_ hwithout hrest hsplit hsorted.tail ?_
      · show (entered.1.judge gone.length).j = _
        rw [SpanScan.judge_j, hcount, hcons, List.length_cons, List.length_append,
          List.length_singleton]
        omega
      · intro x hx y hy
        have hxfrom := (List.pairwise_cons.mp hsorted).1 x hx
        have hyto := start_lt_of_mem_takeWhile hy
        omega

theorem bestSpan_highest (hsize : 0 < size) {hits : List Hit}
    (hsorted : hits.Pairwise (·.start < ·.start)) :
    FirstHighest w.lowest (hits.take 1) (scoredSpans w weight size 0 w.zero hits)
      (spanOf hits (bestSpan w weight size hits)) :=
  @scanSpans_highest W _ w weight size hsize hits [] [] hits
    ⟨0, fun _ => 0, w.zero, w.lowest, (0, 0)⟩ rfl hsorted rfl (by simp) (by simp)

end Scan

/-! ### The middle of the span -/

/-- A span of hits that begin within a size. -/
def CloseSpan (size : Nat) (hits span : List Hit) : Prop :=
  span ≠ [] ∧ (∀ x ∈ span, x ∈ hits) ∧ ∀ x ∈ span, ∀ y ∈ span, y.start < x.start + size

theorem closeHits_close {size : Nat} (hsize : 0 < size) {h : Hit} {later : List Hit}
    (hsorted : (h :: later).Pairwise (·.start < ·.start)) :
    CloseSpan size (h :: later) (closeHits size (h :: later)) := by
  have hinside : ∀ x ∈ closeHits size (h :: later), x ∈ h :: later :=
    fun x hx => (closeHits_front size h later).subset hx
  refine ⟨?_, hinside, fun x hx y hy => ?_⟩
  · rw [closeHits_eq_cons hsize]
    exact List.cons_ne_nil _ _
  · have hto : y.start < h.start + size := start_lt_of_mem_takeWhile hy
    rcases List.mem_cons.mp (hinside x hx) with rfl | hx
    · exact hto
    · have := (List.pairwise_cons.mp hsorted).1 x hx
      omega

section Close

variable {W : Type} [LinearOrder W] {w : Weights W} {weight : String → W} {size : Nat}
  {hits span : List Hit}

theorem scoredSpans_close (hsize : 0 < size) (hsorted : hits.Pairwise (·.start < ·.start))
    {held : Nat} {score : W} {p : List Hit × W} (hp : p ∈ scoredSpans w weight size held score hits) :
    CloseSpan size hits p.1 := by
  induction hits generalizing held score with
  | nil => cases hp
  | cons h later ih =>
      rw [scoredSpans] at hp
      rcases List.mem_cons.mp hp with rfl | hp
      · exact closeHits_close hsize hsorted
      · obtain ⟨hne, hin, hclose⟩ := ih hsorted.tail hp
        exact ⟨hne, fun x hx => List.mem_cons_of_mem _ (hin x hx), hclose⟩

theorem FirstHighest.close (hsize : 0 < size) (hsorted : hits.Pairwise (·.start < ·.start))
    (hhits : hits ≠ [])
    (h : FirstHighest w.lowest (hits.take 1) (scoredSpans w weight size 0 w.zero hits) span) :
    CloseSpan size hits span := by
  rcases h with ⟨before, score, after, hsplit, -⟩ | ⟨-, rfl⟩
  · have hmem : (span, score) ∈ scoredSpans w weight size 0 w.zero hits := by
      rw [hsplit]
      simp
    exact scoredSpans_close hsize hsorted hmem
  · obtain ⟨h, later, rfl⟩ := List.exists_cons_of_ne_nil hhits
    refine ⟨by simp, fun x hx => List.mem_of_mem_take hx, fun x hx y hy => ?_⟩
    obtain rfl := List.mem_singleton.mp hx
    obtain rfl := List.mem_singleton.mp hy
    omega

end Close

/-- The places of a span's rarest terms: each weighs at least half of the
highest weight in the span. -/
def focusPlaces {W : Type} [LinearOrder W] (w : Weights W) (weight : String → W)
    (span : List Hit) : Set Nat :=
  {place | ∃ h ∈ span, h.start = place ∧
    ∃ top, IsGreatest {x | ∃ g ∈ span, weight g.stem = x} top ∧ w.half top ≤ weight h.stem}

namespace TermReader

variable {W : Type} [LinearOrder W] (r : TermReader) (w : Weights W) (content query : String)

/-- The rarest terms of the best span stand between two places. -/
structure Focus (size low high : Nat) (span : List Hit) : Prop where
  best : FirstHighest w.lowest ((r.hits content query).take 1)
    (scoredSpans w (r.rarity w content query) size 0 w.zero (r.hits content query)) span
  first : IsLeast (focusPlaces w (r.rarity w content query) span) low
  last : IsGreatest (focusPlaces w (r.rarity w content query) span) high

/-- The window of a size begins at a place: it is centred on the rarest terms of
the best span, as far as the ends of the memory let it. -/
def StartsAt (size start : Nat) : Prop :=
  ∃ low high span, r.Focus w content query size low high span ∧
    (start : Int) = max 0 (min (((low + high) / 2 : Nat) - size / 2 : Int) (content.length - size))

end TermReader

section Focus

variable {W : Type} [LinearOrder W] {r : TermReader} {w : Weights W} {content query : String}
  {size : Nat}

theorem start_of_hitAt {terms : List String} {m : Nat × Nat} {h : Hit}
    (hm : r.hitAt terms content m = some h) : h.start = m.1 ∧ h.stop = m.2 := by
  rw [TermReader.hitAt] at hm
  split at hm
  · obtain rfl := Option.some.inj hm
    exact ⟨rfl, rfl⟩
  · cases hm

theorem hits_sorted : (r.hits content query).Pairwise (·.start < ·.start) := by
  have hruns := (@wordRuns_sorted r.py.isWord content.toList none 0 (by simp)).1
  refine hruns.filterMap _ fun m m' hlt h hm h' hm' => ?_
  rw [(start_of_hitAt hm).1, (start_of_hitAt hm').1]
  exact hlt

/-- An occurrence is a part of the memory that holds word characters. -/
theorem hits_word {h : Hit} (hh : h ∈ r.hits content query) :
    h.start < h.stop ∧ h.stop ≤ content.length ∧
      ∀ c ∈ between content.toList h.start h.stop, r.py.isWord c = true := by
  obtain ⟨m, hm, hat⟩ := List.mem_filterMap.mp hh
  obtain ⟨hstart, hstop⟩ := start_of_hitAt hat
  rw [hstart, hstop]
  exact @wordRuns_word r.py.isWord content.toList [] none m (by simp) hm

theorem exists_top {weight : String → W} {h : Hit} {span : List Hit} :
    IsGreatest {x | ∃ g ∈ h :: span, weight g.stem = x}
      ((span.map fun g => weight g.stem).foldl max (weight h.stem)) := by
  have hmax : ((h :: span).map fun g => weight g.stem).max? =
      some ((span.map fun g => weight g.stem).foldl max (weight h.stem)) := by
    rw [List.map_cons, List.max?_cons']
  obtain ⟨hmem, hle⟩ := List.max?_eq_some_iff.mp hmax
  refine ⟨List.mem_map.mp hmem, ?_⟩
  rintro x ⟨g, hg, rfl⟩
  exact hle _ (List.mem_map_of_mem hg)

/-- The centre is the middle of the rarest terms of the best span. -/
theorem focusCentre_spec (hsize : 0 < size) (hhits : r.hits content query ≠ []) :
    ∃ low high span, r.Focus w content query size low high span ∧
      r.focusCentre w content query size = some ((low + high) / 2) := by
  have hbest := @bestSpan_highest W _ w (r.rarity w content query) size hsize _
    (@hits_sorted r content query)
  obtain ⟨hne, -⟩ := hbest.close hsize hits_sorted hhits
  rw [TermReader.focusCentre]
  simp only
  revert hbest hne
  generalize spanOf (r.hits content query)
    (bestSpan w (r.rarity w content query) size (r.hits content query)) = span
  intro hbest hne
  obtain ⟨first, others, rfl⟩ := List.exists_cons_of_ne_nil hne
  simp only
  have htop := @exists_top W _ (r.rarity w content query) first others
  generalize (others.map fun h => r.rarity w content query h.stem).foldl max
    (r.rarity w content query first.stem) = top at htop ⊢
  generalize hfocus : ((first :: others).filter fun h =>
    w.half top ≤ r.rarity w content query h.stem).map Hit.start = focus
  have hplaces : ∀ place, place ∈ focus ↔
      place ∈ focusPlaces w (r.rarity w content query) (first :: others) := by
    intro place
    rw [← hfocus]
    simp only [List.mem_map, List.mem_filter, decide_eq_true_eq, focusPlaces, Set.mem_ofPred_eq]
    constructor
    · rintro ⟨h, ⟨hh, hhalf⟩, rfl⟩
      exact ⟨h, hh, rfl, top, htop, hhalf⟩
    · rintro ⟨h, hh, rfl, top', htop', hhalf⟩
      obtain rfl := htop'.unique htop
      exact ⟨h, ⟨hh, hhalf⟩, rfl⟩
  -- the weight at the top is in focus
  have hsome : focus ≠ [] := by
    obtain ⟨g, hg, hgtop⟩ := htop.1
    have hhalf : w.half top ≤ r.rarity w content query g.stem := by
      rw [← hgtop]
      exact w.half_le _
    exact List.ne_nil_of_mem ((hplaces g.start).mpr ⟨g, hg, rfl, top, htop, hhalf⟩)
  obtain ⟨low, hlow⟩ := Option.ne_none_iff_exists'.mp (mt List.min?_eq_none_iff.mp hsome)
  obtain ⟨high, hhigh⟩ := Option.ne_none_iff_exists'.mp (mt List.max?_eq_none_iff.mp hsome)
  obtain ⟨hlowMem, hlowLe⟩ := List.min?_eq_some_iff.mp hlow
  obtain ⟨hhighMem, hhighLe⟩ := List.max?_eq_some_iff.mp hhigh
  refine ⟨low, high, first :: others, ⟨hbest, ?_, ?_⟩, ?_⟩
  · exact ⟨(hplaces low).mp hlowMem, fun place hplace => hlowLe place ((hplaces place).mpr hplace)⟩
  · exact ⟨(hplaces high).mp hhighMem,
      fun place hplace => hhighLe place ((hplaces place).mpr hplace)⟩
  · rw [hlow, hhigh]
    rfl

theorem startsAt_bestStart (hsize : 0 < size) (hhits : r.hits content query ≠ []) :
    r.StartsAt w content query size (bestStart (r.focusCentre w) content query size) := by
  obtain ⟨low, high, span, hfocus, hcentre⟩ :=
    @focusCentre_spec W _ r w content query size hsize hhits
  refine ⟨low, high, span, hfocus, ?_⟩
  rw [bestStart, hcentre]
  simp only
  omega

theorem TermReader.StartsAt.unique {start start' : Nat} (h : r.StartsAt w content query size start)
    (h' : r.StartsAt w content query size start') : start = start' := by
  obtain ⟨low, high, span, hfocus, hstart⟩ := h
  obtain ⟨low', high', span', hfocus', hstart'⟩ := h'
  obtain rfl := hfocus.best.unique hfocus'.best
  obtain rfl := hfocus.first.unique hfocus'.first
  obtain rfl := hfocus.last.unique hfocus'.last
  omega

/-- An occurrence begins in the window. -/
theorem TermReader.StartsAt.hit (hsize : 0 < size) (hhits : r.hits content query ≠ [])
    {start : Nat} (h : r.StartsAt w content query size start) :
    ∃ x ∈ r.hits content query, start ≤ x.start ∧ x.start < start + size := by
  obtain ⟨low, high, span, hfocus, hstart⟩ := h
  obtain ⟨-, hinside, hclose⟩ := hfocus.best.close hsize hits_sorted hhits
  obtain ⟨x, hx, rfl, -⟩ := hfocus.first.1
  obtain ⟨y, hy, rfl, -⟩ := hfocus.last.1
  have hle : x.start ≤ y.start := hfocus.last.2 hfocus.first.1
  have hnear := hclose x hx y hy
  obtain ⟨hlt, hend, -⟩ := hits_word (hinside x hx)
  refine ⟨x, hinside x hx, ?_⟩
  omega

end Focus

end MarkSdk
