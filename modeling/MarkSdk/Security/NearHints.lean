import Mathlib.Data.List.Infix
import Mathlib.Data.Prod.Lex
import Mathlib.Algebra.Ring.Nat
import Mathlib.Order.Lattice.Nat
import MarkSdk.Lib.SortedBy
import MarkSdk.Lib.Windows

/-!
Searching a long text only around its hints.

Where every match has a hint in it, is not longer than the radius, and is
decided by the text within the radius, the windows around the hints give the
matches of the whole text (`finditerNear_eq`).
-/

namespace MarkSdk

open Lib

/-- A compiled pattern: the end of its match at a place of a text, if there is
one. A text given up to some end is looked at no further. -/
structure Pattern where
  matchAt : List Char → Nat → Option Nat
  within : ∀ text place stop, matchAt text place = some stop → place ≤ stop ∧ stop ≤ text.length

/-- `pattern.finditer(text, start, stop)`. A match that is not empty is passed
over whole; the search then goes on where it ends. -/
def Pattern.finditer (pattern : Pattern) (text : List Char) (start stop : Nat) :
    List (Nat × Nat) :=
  scan (pattern.matchAt (text.take stop)) (stop + 1 - start) 0 start

/-- The places of `lowered` where `find` finds the hint, each one behind the last.
What is skipped belongs to the last one found. -/
def occurrences (hint : List Char) : Nat → Nat → List Char → List Nat
  | _, _, [] => []
  | skip + 1, place, _ :: rest => occurrences hint skip (place + 1) rest
  | 0, place, c :: rest =>
      if hint <+: c :: rest then place :: occurrences hint (hint.length - 1) (place + 1) rest
      else occurrences hint 0 (place + 1) rest

/-- The windows around the hints, before they are merged. -/
def hintSpans (lowered : List Char) (hints : List (List Char)) (radius : Nat) :
    List (Nat × Nat) :=
  hints.flatMap fun hint => (occurrences hint 0 0 lowered).map fun place =>
    (place - radius, min lowered.length (place + hint.length + radius))

def spans (lowered : List Char) (hints : List (List Char)) (radius : Nat) : List (Nat × Nat) :=
  mergeSpans (sortedBy toLex (hintSpans lowered hints radius))

/-- `sum(lowered.count(hint) for hint in hints)` -/
def hintCount (lowered : List Char) (hints : List (List Char)) : Nat :=
  (hints.map fun hint => (occurrences hint 0 0 lowered).length).sum

def finditerNear (pattern : Pattern) (text : List Char) (hints : List (List Char))
    (lowered : List Char) (radius : Nat) : List (Nat × Nat) :=
  if text.length ≤ 4 * radius ∨ lowered.length ≠ text.length ∨
      text.length ≤ hintCount lowered hints * radius then
    pattern.finditer text 0 text.length
  else (spans lowered hints radius).flatMap fun w => pattern.finditer text w.1 w.2

/-- The matches of a pattern in a text are near its hints. -/
structure MatchesNear (pattern : Pattern) (text : List Char) (hints : List (List Char))
    (lowered : List Char) (radius : Nat) : Prop where
  /-- Each match in the text, or in the text up to some end, has a hint in it. -/
  hinted : ∀ limit place stop, pattern.matchAt (text.take limit) place = some stop →
    ∃ hint ∈ hints, ∃ n, place ≤ n ∧ n + hint.length ≤ stop ∧ hint <+: lowered.drop n
  short : ∀ limit place stop, pattern.matchAt (text.take limit) place = some stop →
    stop ≤ place + radius
  /-- What is further away than the radius has no part in a match. -/
  near : ∀ t t' place, (∀ n, place ≤ n + radius → n ≤ place + radius → t[n]? = t'[n]?) →
    pattern.matchAt t place = pattern.matchAt t' place

/-! ### Occurrences -/

section Occurrences

variable {hint : List Char}

/-- Wherever the hint stands, one that was found begins there, or reaches there. -/
theorem exists_occurrence (hhint : hint ≠ []) (skip place : Nat) (rest : List Char) {n : Nat}
    (h : hint <+: rest.drop n) :
    n < skip ∨ ∃ found ∈ occurrences hint skip place rest,
      found ≤ place + n ∧ place + n < found + hint.length := by
  have hlength := List.length_pos_of_ne_nil hhint
  induction rest generalizing skip place n with
  | nil =>
      rw [List.drop_nil] at h
      exact absurd (List.prefix_nil.mp h) hhint
  | cons c rest ih =>
      cases skip with
      | succ skip =>
          rw [occurrences]
          cases n with
          | zero => exact .inl (by omega)
          | succ n =>
              rcases ih skip (place + 1) h with hskip | ⟨found, hfound, hlow, hhigh⟩
              · exact .inl (by omega)
              · exact .inr ⟨found, hfound, by omega, by omega⟩
      | zero =>
          rw [occurrences]
          refine .inr ?_
          cases n with
          | zero =>
              rw [List.drop_zero] at h
              rw [if_pos h]
              exact ⟨place, List.mem_cons_self, by omega, by omega⟩
          | succ n =>
              split
              · rcases ih (hint.length - 1) (place + 1) h with hskip | ⟨found, hfound, hlow, hhigh⟩
                · exact ⟨place, List.mem_cons_self, by omega, by omega⟩
                · exact ⟨found, List.mem_cons_of_mem _ hfound, by omega, by omega⟩
              · rcases ih 0 (place + 1) h with hskip | ⟨found, hfound, hlow, hhigh⟩
                · omega
                · exact ⟨found, hfound, by omega, by omega⟩

theorem occurrences_lt {skip place : Nat} {rest : List Char} :
    ∀ found ∈ occurrences hint skip place rest, found < place + rest.length := by
  induction rest generalizing skip place with
  | nil => exact fun found h => absurd h (by cases skip <;> simp [occurrences])
  | cons c rest ih =>
      intro found h
      rw [List.length_cons]
      cases skip with
      | succ skip =>
          rw [occurrences] at h
          have hlt := ih found h
          omega
      | zero =>
          rw [occurrences] at h
          split at h
          · rcases List.mem_cons.mp h with rfl | h
            · omega
            · have hlt := ih found h
              omega
          · have hlt := ih found h
            omega

end Occurrences

/-! ### The windows of a text -/

section Spans

variable {lowered : List Char} {hints : List (List Char)} {radius : Nat}

theorem spans_apart (lowered : List Char) (hints : List (List Char)) (radius : Nat) :
    Apart lowered.length 0 (spans lowered hints radius) := by
  refine mergeSpans_apart fun s hs => ?_
  obtain ⟨hint, -, hs⟩ := List.mem_flatMap.mp (sortedBy_perm.mem_iff.mp hs)
  obtain ⟨place, hplace, rfl⟩ := List.mem_map.mp hs
  have hlt := occurrences_lt place hplace
  dsimp only
  omega

variable (radius) in
/-- A hint lies in a window that reaches the radius behind it, or the end. -/
theorem exists_span (hhints : ∀ hint ∈ hints, hint ≠ []) {hint : List Char} (hhint : hint ∈ hints)
    {n : Nat} (h : hint <+: lowered.drop n) :
    ∃ w ∈ spans lowered hints radius, w.1 ≤ n - radius ∧
      (n + radius < w.2 ∨ lowered.length ≤ w.2) := by
  rcases exists_occurrence (hhints hint hhint) 0 0 lowered h with hskip | ⟨found, hfound, hle, hlt⟩
  · omega
  · have hspan : (found - radius, min lowered.length (found + hint.length + radius)) ∈
        hintSpans lowered hints radius :=
      List.mem_flatMap.mpr ⟨hint, hhint, List.mem_map.mpr ⟨found, hfound, rfl⟩⟩
    have hsorted : (sortedBy toLex (hintSpans lowered hints radius)).Pairwise
        fun s t => s.1 ≤ t.1 := by
      refine sortedBy_pairwise.imp fun {s t} hst => ?_
      rcases Prod.Lex.toLex_le_toLex.mp hst with hlt | ⟨heq, -⟩
      · exact le_of_lt hlt
      · exact le_of_eq heq
    obtain ⟨w, hw, hstart, hstop⟩ :=
      mergeSpans_covers hsorted _ (sortedBy_perm.mem_iff.mpr hspan)
    dsimp only at hstart hstop
    refine ⟨w, hw, by omega, ?_⟩
    rcases min_le_iff.mp hstop with hend | hreach
    · exact .inr hend
    · exact .inl (by omega)

end Spans

/-! ### The matches -/

section Matches

variable {pattern : Pattern} {text lowered : List Char} {hints : List (List Char)} {radius : Nat}

theorem getElem?_take_near {place limit n : Nat} (hlimit : place + radius < limit)
    (hn : n ≤ place + radius) : (text.take limit)[n]? = text[n]? := by
  rw [List.getElem?_take, if_pos (by omega)]

/-- Well before the limit, a place has the match that it has in the whole text. -/
theorem MatchesNear.matchAt_take (h : MatchesNear pattern text hints lowered radius)
    {place limit : Nat} (hlimit : place + radius < limit) :
    pattern.matchAt (text.take limit) place = pattern.matchAt text place :=
  h.near _ _ _ fun _ _ hn => getElem?_take_near hlimit hn

/-- A match lies in a window that reaches the radius behind its start, or the end. -/
theorem MatchesNear.exists_window (h : MatchesNear pattern text hints lowered radius)
    (hhints : ∀ hint ∈ hints, hint ≠ []) (hsize : lowered.length = text.length)
    {limit place stop : Nat} (hmatch : pattern.matchAt (text.take limit) place = some stop) :
    ∃ w ∈ spans lowered hints radius, w.1 ≤ place ∧ place < w.2 ∧ stop ≤ w.2 ∧
      (place + radius < w.2 ∨ text.length ≤ w.2) := by
  obtain ⟨hint, hhint, n, hlow, hhigh, hoccurs⟩ := h.hinted _ _ _ hmatch
  have hshort := h.short _ _ _ hmatch
  have hwithin := (pattern.within _ _ _ hmatch).2
  rw [List.length_take] at hwithin
  have hlength := List.length_pos_of_ne_nil (hhints hint hhint)
  obtain ⟨w, hw, hstart, hreach⟩ := exists_span radius hhints hhint hoccurs
  refine ⟨w, hw, by omega, by omega, by omega, by omega⟩

/-- In its window, a place has the match that it has in the whole text. -/
theorem MatchesNear.matchAt_window (h : MatchesNear pattern text hints lowered radius)
    (hhints : ∀ hint ∈ hints, hint ≠ []) (hsize : lowered.length = text.length)
    {w : Nat × Nat} (hw : w ∈ spans lowered hints radius) {place : Nat} (hlow : w.1 ≤ place)
    (hhigh : place ≤ w.2) :
    pattern.matchAt (text.take w.2) place = pattern.matchAt text place := by
  by_cases hfar : place + radius < w.2
  · exact h.matchAt_take hfar
  · by_cases hend : text.length ≤ w.2
    · rw [List.take_of_length_le hend]
    · -- too near the end of a window that does not reach the end of the text
      have hnone : ∀ limit, pattern.matchAt (text.take limit) place = none := by
        intro limit
        cases hmatch : pattern.matchAt (text.take limit) place with
        | none => rfl
        | some stop =>
            obtain ⟨v, hv, hvlow, hvhigh, -, hreach⟩ := h.exists_window hhints hsize hmatch
            have hsame := (spans_apart lowered hints radius).eq_of_mem hv hw
              ⟨hvlow, le_of_lt hvhigh⟩ ⟨hlow, hhigh⟩
            rw [hsame] at hreach
            omega
      have hwhole := hnone text.length
      rw [List.take_length] at hwhole
      rw [hnone, hwhole]

/-- The windows around the hints give the matches of the whole text, in order and
each once. -/
theorem finditerNear_eq (pattern : Pattern) (text lowered : List Char)
    (hints : List (List Char)) (radius : Nat) (hhints : ∀ hint ∈ hints, hint ≠ [])
    (h : MatchesNear pattern text hints lowered radius) :
    finditerNear pattern text hints lowered radius =
      pattern.finditer text 0 text.length := by
  rw [finditerNear]
  split
  case isTrue => rfl
  case isFalse hlong =>
    have hsize : lowered.length = text.length :=
      Decidable.by_contra fun hne => hlong (.inr (.inl hne))
    have hwindows : ((spans lowered hints radius).flatMap fun w => pattern.finditer text w.1 w.2) =
        (spans lowered hints radius).flatMap fun w =>
          scan (pattern.matchAt text) (w.2 + 1 - w.1) 0 w.1 := by
      refine List.flatMap_congr fun w hw => scan_congr fun place hlow hhigh => ?_
      exact h.matchAt_window hhints hsize hw hlow (by omega)
    rw [hwindows, flatMap_scan_windows (spans_apart lowered hints radius) (Nat.zero_le _),
      Pattern.finditer, List.take_length, hsize]
    intro place stop _ hmatch
    have hwhole : pattern.matchAt (text.take text.length) place = some stop := by
      rw [List.take_length]
      exact hmatch
    obtain ⟨w, hw, hlow, hhigh, hstop, -⟩ := h.exists_window hhints hsize hwhole
    exact ⟨w, hw, hlow, le_of_lt hhigh, hstop⟩

end Matches

/-! ### A literal word -/

def Pattern.literal (word : List Char) : Pattern where
  matchAt text place :=
    if word ≠ [] ∧ word <+: text.drop place then some (place + word.length) else none
  within text place stop h := by
    split at h
    case isTrue hword =>
      obtain rfl := Option.some.inj h
      have hpos := List.length_pos_of_ne_nil hword.1
      have hle := hword.2.length_le
      rw [List.length_drop] at hle
      omega
    case isFalse => cases h

theorem Pattern.literal_matchAt {word text : List Char} {place stop : Nat}
    (h : (Pattern.literal word).matchAt text place = some stop) :
    word ≠ [] ∧ word <+: text.drop place ∧ stop = place + word.length := by
  change (if word ≠ [] ∧ word <+: text.drop place then some (place + word.length) else none) =
    some stop at h
  split at h
  case isTrue hword => exact ⟨hword.1, hword.2, (Option.some.inj h).symm⟩
  case isFalse => cases h

/-- A word is its own hint. -/
theorem matchesNear_literal (word text : List Char) (radius : Nat)
    (hradius : word.length ≤ radius) :
    MatchesNear (.literal word) text [word] text radius where
  hinted limit place stop h := by
    obtain ⟨-, hword, rfl⟩ := Pattern.literal_matchAt h
    refine ⟨word, List.mem_singleton_self word, place, Nat.le_refl _, Nat.le_refl _, ?_⟩
    rw [List.drop_take] at hword
    exact hword.trans (List.take_prefix _ _)
  short limit place stop h := by
    obtain ⟨-, -, rfl⟩ := Pattern.literal_matchAt h
    omega
  near t t' place hsame := by
    have hprefix : word <+: t.drop place ↔ word <+: t'.drop place := by
      rw [List.prefix_iff_getElem?, List.prefix_iff_getElem?]
      refine forall₂_congr fun i hi => ?_
      rw [List.getElem?_drop, List.getElem?_drop, hsame _ (by omega) (by omega)]
    simp only [Pattern.literal, hprefix]

/-- A word that stands once in a long text. -/
theorem finditerNear_token :
    finditerNear (.literal "key=".toList) "no secret here; key=4711, and nothing else".toList
        ["key=".toList] "no secret here; key=4711, and nothing else".toList 4 =
      (Pattern.literal "key=".toList).finditer "no secret here; key=4711, and nothing else".toList 0
        42 :=
  finditerNear_eq (.literal "key=".toList) _ _ _ 4 (by decide)
    (matchesNear_literal "key=".toList _ 4 (by decide))

end MarkSdk
