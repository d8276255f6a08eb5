import Mathlib.Data.List.Infix
import MarkSdk.Store.Values

/-!
The passage of a memory that is shown.

A memory that is longer than its cap is cut to a window around the terms of
the query. The edges of the window move inwards to a sentence or line boundary
that is near. Whatever the terms are, the window is no longer than its cap and
shows a part of the memory (`window_length_le`, `window_passage`).
-/

namespace MarkSdk

/-! ### Boundaries -/

/-- A match of `(?<=[.!?;:])\s+|\n+` at the head of a text, by its length. -/
def boundaryAt (before : Option Char) (s : List Char) : Option Nat :=
  let spaces := (s.takeWhile isSpace).length
  let newlines := (s.takeWhile (· = '\n')).length
  if before.any ['.', '!', '?', ';', ':'].contains ∧ spaces ≠ 0 then some spaces
  else if newlines ≠ 0 then some newlines
  else none

/-- The matches in a text that stands at `offset`, as `finditer` finds them;
`skip` characters belong to the last match. -/
def boundaries (before : Option Char) (skip offset : Nat) : List Char → List (Nat × Nat)
  | [] => []
  | c :: s =>
      match skip with
      | skip + 1 => boundaries (some c) skip (offset + 1) s
      | 0 =>
          match boundaryAt before (c :: s) with
          | some n => (offset, offset + n) :: boundaries (some c) (n - 1) (offset + 1) s
          | none => boundaries (some c) 0 (offset + 1) s

theorem boundaryAt_bounds {before : Option Char} {s : List Char} {n : Nat}
    (h : boundaryAt before s = some n) : 0 < n ∧ n ≤ s.length := by
  have hspaces : (s.takeWhile isSpace).length ≤ s.length := (List.takeWhile_sublist _).length_le
  have hnewlines : (s.takeWhile (· = '\n')).length ≤ s.length :=
    (List.takeWhile_sublist _).length_le
  unfold boundaryAt at h
  simp only at h
  split at h
  · rename_i hmatch
    cases h
    exact ⟨Nat.pos_of_ne_zero hmatch.2, hspaces⟩
  · split at h
    · rename_i hmatch
      cases h
      exact ⟨Nat.pos_of_ne_zero hmatch, hnewlines⟩
    · cases h

/-- A match lies in the text. -/
theorem boundaries_bounds {before : Option Char} {skip offset : Nat} {s : List Char}
    {m : Nat × Nat} (h : m ∈ boundaries before skip offset s) :
    offset ≤ m.1 ∧ m.1 < m.2 ∧ m.2 ≤ offset + s.length := by
  induction s generalizing before skip offset with
  | nil => cases h
  | cons c s ih =>
      cases skip with
      | succ skip =>
          rw [boundaries] at h
          have := ih h
          rw [List.length_cons]
          omega
      | zero =>
          rw [boundaries] at h
          split at h
          · rename_i n hn
            have hbounds := boundaryAt_bounds hn
            rcases List.mem_cons.mp h with rfl | h
            · simp only
              omega
            · have := ih h
              rw [List.length_cons]
              omega
          · have := ih h
            rw [List.length_cons]
            omega

/-! ### The window -/

/-- `_SNAP` -/
def snapChars : Nat := 80

def snap (content : List Char) (start stop : Nat) : Nat × Nat :=
  let start :=
    if 0 < start then
      match (boundaries content[start - 1]? 0 start
          ((content.drop start).take (min content.length (start + snapChars) - start))).head? with
      | some boundary => if boundary.2 < stop then boundary.2 else start
      | none => start
    else start
  let stop :=
    if stop < content.length then
      let low := max start (stop - snapChars)
      let tail := (content.drop low).take (stop - low)
      match (boundaries none 0 0 tail).getLast? with
      | some cut =>
          let candidate := stop - tail.length + cut.1
          if start < candidate then candidate else stop
      | none => stop
    else stop
  (start, stop)

/-- `_best_start`. The centre of the span that covers the most informative
terms comes from the terms of the query; there is none without a hit. -/
def bestStart (centre : String → String → Nat → Option Nat) (content query : String)
    (size : Nat) : Nat :=
  match centre content query size with
  | none => 0
  | some centre => (max 0 (min ((centre : Int) - size / 2) (content.length - size))).toNat

def window (centre : String → String → Nat → Option Nat) (content query : String)
    (maxChars : Int) : String × Bool :=
  if maxChars ≤ 0 then ("", content ≠ "")
  else if content.length ≤ maxChars then (content, false)
  else
    let body := (max 1 (maxChars - 2)).toNat
    let start := bestStart centre content query body
    let (start, stop) := snap content.toList start (min content.length (start + body))
    let text := stripChars isSpace ((content.toList.drop start).take (stop - start))
    (String.ofList ((if 0 < start then ['…'] else []) ++ text ++
      if stop < content.length then ['…'] else []), true)

/-- The edges only move inwards. -/
theorem snap_inwards (content : List Char) (start stop : Nat) :
    start ≤ (snap content start stop).1 ∧ (snap content start stop).2 ≤ stop := by
  unfold snap
  simp only
  constructor
  · split
    · split
      · rename_i boundary hfirst
        have := boundaries_bounds (List.mem_of_head? hfirst)
        split <;> omega
      · exact le_rfl
    · exact le_rfl
  · generalize (if 0 < start then _ else start : Nat) = low
    split
    · split
      · rename_i cut hlast
        have hcut := boundaries_bounds (List.mem_of_getLast? hlast)
        have htail : ((content.drop (max low (stop - snapChars))).take
            (stop - max low (stop - snapChars))).length ≤ stop := by
          rw [List.length_take]
          omega
        have hcandidate : stop - ((content.drop (max low (stop - snapChars))).take
            (stop - max low (stop - snapChars))).length + cut.1 ≤ stop := by omega
        split
        · exact hcandidate
        · exact le_rfl
      · exact le_rfl
    · exact le_rfl

theorem stripChars_inside (p : Char → Bool) (s : List Char) : stripChars p s <:+: s := by
  have hfront : s.dropWhile p <:+ s := List.dropWhile_suffix p
  have hback : rstripChars p (s.dropWhile p) <+: s.dropWhile p := by
    unfold rstripChars
    rw [← List.reverse_suffix, List.reverse_reverse]
    exact List.dropWhile_suffix p
  exact hback.isInfix.trans hfront.isInfix

/-- A text shows a part of a memory, between marks where something is left out. -/
def Passage (content text : String) : Prop :=
  ∃ front shown back : List Char, text.toList = front ++ shown ++ back ∧
    shown <:+: content.toList ∧ (front = [] ∨ front = ['…']) ∧ (back = [] ∨ back = ['…'])

section Window

variable {centre : String → String → Nat → Option Nat} {content query : String} {maxChars : Int}

theorem window_passage : Passage content (window centre content query maxChars).1 := by
  unfold window
  split
  · exact ⟨[], [], [], rfl, List.nil_infix, .inl rfl, .inl rfl⟩
  · split
    · exact ⟨[], content.toList, [], by simp, List.infix_rfl, .inl rfl, .inl rfl⟩
    · simp only
      refine ⟨_, _, _, String.toList_ofList, ?_, ?_, ?_⟩
      · refine (stripChars_inside _ _).trans ?_
        exact (List.take_prefix _ _).isInfix.trans (List.drop_suffix _ _).isInfix
      · split
        · exact .inr rfl
        · exact .inl rfl
      · split
        · exact .inr rfl
        · exact .inl rfl

/-- The window is no longer than its cap, unless the cap has no room for the
two marks. -/
theorem window_length_le (h : 3 ≤ maxChars) :
    ((window centre content query maxChars).1.length : Int) ≤ maxChars := by
  unfold window
  rw [if_neg (by omega)]
  split
  · assumption
  · simp only
    have hbody : ((max 1 (maxChars - 2)).toNat : Int) = maxChars - 2 := by omega
    generalize (max 1 (maxChars - 2)).toNat = body at hbody
    generalize bestStart centre content query body = start
    obtain ⟨hstart, hstop⟩ :=
      snap_inwards content.toList start (min content.length (start + body))
    generalize snap content.toList start (min content.length (start + body)) = edges at hstart hstop
    have htext : (stripChars isSpace
        ((content.toList.drop edges.1).take (edges.2 - edges.1))).length ≤ edges.2 - edges.1 := by
      refine (stripChars_inside _ _).length_le.trans ?_
      rw [List.length_take]
      exact Nat.min_le_left _ _
    have hmark : ∀ p : Prop, ∀ [Decidable p], (if p then ['…'] else []).length ≤ 1 := by
      intro p _
      split <;> simp
    have hfront := hmark (0 < edges.1)
    have hback := hmark (edges.2 < content.length)
    rw [String.length_ofList, List.length_append, List.length_append]
    omega

end Window

end MarkSdk
