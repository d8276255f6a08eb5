import MarkSdk.Lib.Claims
import MarkSdk.Retrieval.DateReading

/-!
When `find_dates` returns.

The matches of all patterns are gone through in order, and each claims its place
when it names a date. One that cannot be read is met unless a date before it has
claimed a part of its place; then the error leaves `find_dates`
(`findDates_safe_iff`).
-/

namespace MarkSdk.DateParsing

open Lib

abbrev Candidate : Type := DateKind × Match Char

/-- The two matches share a place. -/
def Overlaps (a b : Candidate) : Prop := b.2.start < a.2.stop ∧ a.2.start < b.2.stop

instance : DecidableRel Overlaps := fun _ _ => inferInstanceAs (Decidable (_ ∧ _))

section Candidates

variable (py : Python) (nums : Numerals) (text : String) (ref : Date) (dayFirst : Bool)

/-- The matches of all patterns whose words stand in the text, in their order. -/
def candidatesOf (kind : DateKind) : List Candidate :=
  if kind.needs.all (present py nums text) then (matchesOf py nums text kind).map (kind, ·) else []

def candidates : List Candidate := DateKind.all.flatMap (candidatesOf py nums text)

def read (c : Candidate) : Except DateError (Option DateRange) :=
  resolve py nums c.2 ref dayFirst c.1

open Classical in
/-- Every match can be read that no date before it has claimed a part of. -/
def Readable : Prop :=
  AllLegible Overlaps (fun c => Names py nums ref dayFirst c.2 c.1)
    (fun c => Legible py nums ref c.2 c.1) (candidates py nums text)

end Candidates

/-- The spans do not overlap, stand in their order, do not end before they
begin, and show the text at their places. -/
structure Safe (text : List Char) (spans : List DateSpan) : Prop where
  disjoint : spans.Pairwise fun a b => a.pos.2 ≤ b.pos.1 ∨ b.pos.2 ≤ a.pos.1
  sorted : spans.Pairwise fun a b => toLex a.pos ≤ toLex b.pos
  ordered : ∀ span ∈ spans, span.start ≤ span.finish
  slice : ∀ span ∈ spans, span.pos.1 < span.pos.2 ∧ span.pos.2 ≤ text.length ∧
    span.text = (text.drop span.pos.1).take (span.pos.2 - span.pos.1)

/-! ### The loops as one run -/

section Run

variable {py : Python} {nums : Numerals} {text : String} {ref : Date} {dayFirst : Bool}
  {kind : DateKind} {m : Match Char} {held : List (Candidate × DateRange)} {c : Candidate}

def spanOf (h : Candidate × DateRange) : DateSpan :=
  ⟨h.2.1, h.2.2, h.1.2.text, (h.1.2.start, h.1.2.stop)⟩

def scanOf (held : List (Candidate × DateRange)) : DateScan :=
  ⟨held.map fun h => (h.1.2.start, h.1.2.stop), held.map spanOf⟩

theorem tryMatch_scanOf : tryMatch py nums ref dayFirst kind (scanOf held) m =
    (claim Overlaps (read py nums ref dayFirst) held (kind, m)).map scanOf := by
  by_cases hclash : ∃ h ∈ held, Overlaps h.1 (kind, m)
  · obtain ⟨h, hmem, hh⟩ := hclash
    rw [claim_of_clash ⟨h, hmem, hh⟩, tryMatch,
      if_pos ⟨_, List.mem_map_of_mem hmem, hh⟩]
    rfl
  · push Not at hclash
    rw [claim_of_free hclash, tryMatch, if_neg]
    · show (resolve py nums m ref dayFirst kind >>= _) = _
      rw [read]
      cases resolve py nums m ref dayFirst kind with
      | error e => rfl
      | ok o =>
          cases o with
          | none => rfl
          | some range =>
              simp only [scanOf, Except.map, List.map_append]
              rfl
    · rintro ⟨t, ht, hoverlap⟩
      obtain ⟨h, hmem, rfl⟩ := List.mem_map.mp ht
      exact hclash h hmem hoverlap

/-- Steps that agree up to a reading of the state make runs that do. -/
theorem foldlM_map {σ τ α β : Type} {f : σ → α → Except DateError σ} {f' : τ → β → Except DateError τ}
    {g : σ → τ} {k : β → List α} (h : ∀ s x, f' (g s) x = ((k x).foldlM f s).map g) (xs : List β)
    (s : σ) : xs.foldlM f' (g s) = ((xs.flatMap k).foldlM f s).map g := by
  induction xs generalizing s with
  | nil => rfl
  | cons x xs ih =>
      rw [List.foldlM_cons, List.flatMap_cons, List.foldlM_append, h]
      cases (k x).foldlM f s with
      | error e => rfl
      | ok s => exact ih s

theorem tryKind_scanOf : tryKind py nums text ref dayFirst (scanOf held) kind =
    ((candidatesOf py nums text kind).foldlM (claim Overlaps (read py nums ref dayFirst)) held).map
      scanOf := by
  rw [tryKind, candidatesOf]
  split
  · rw [foldlM_map (k := fun m => [(kind, m)]) (fun s m => ?_), ← List.map_eq_flatMap]
    rw [tryMatch_scanOf, List.foldlM_cons]
    cases claim Overlaps (read py nums ref dayFirst) s (kind, m) <;> rfl
  · rfl

/-- The loops over the patterns and their matches are one run over the matches. -/
theorem findDates_eq : findDates py nums text ref dayFirst =
    ((candidates py nums text).foldlM (claim Overlaps (read py nums ref dayFirst)) []).map
      fun held => sortedBy (fun span => toLex span.pos) (held.map spanOf) := by
  rw [findDates, show (⟨[], []⟩ : DateScan) = scanOf [] from rfl,
    foldlM_map (fun _ _ => tryKind_scanOf), candidates]
  cases (DateKind.all.flatMap (candidatesOf py nums text)).foldlM
    (claim Overlaps (read py nums ref dayFirst)) [] <;> rfl

theorem of_mem_candidates (hc : c ∈ candidates py nums text) :
    c.2 ∈ matchesOf py nums text c.1 := by
  obtain ⟨kind, -, hc⟩ := List.mem_flatMap.mp hc
  rw [candidatesOf] at hc
  split at hc
  · obtain ⟨m, hm, rfl⟩ := List.mem_map.mp hc
    exact hm
  · cases hc

theorem map_eq_ok {α β : Type} {x : Except DateError α} {f : α → β} {b : β} :
    x.map f = .ok b ↔ ∃ a, x = .ok a ∧ f a = b := by
  cases x with
  | error e => simp [Except.map]
  | ok a => simp [Except.map]

open Classical in
/-- The run comes to its end exactly when what it meets can be read. -/
theorem exists_findDates_iff : (∃ spans, findDates py nums text ref dayFirst = .ok spans) ↔
    Readable py nums text ref dayFirst := by
  rw [Readable, ← claimAll_ok_iff (fun c hc => legible_iff (of_mem_candidates hc))
    (fun c hc => names_iff (of_mem_candidates hc)), findDates_eq]
  constructor
  · rintro ⟨spans, h⟩
    obtain ⟨held, hheld, -⟩ := map_eq_ok.mp h
    exact ⟨held, hheld⟩
  · rintro ⟨held, hheld⟩
    exact ⟨_, congrArg (Except.map _) hheld⟩

/-- Whenever `find_dates` returns, its spans are as they should be. -/
theorem safe_of_findDates {spans : List DateSpan}
    (h : findDates py nums text ref dayFirst = .ok spans) : Safe text.toList spans := by
  rw [findDates_eq] at h
  obtain ⟨held, hrun, rfl⟩ := map_eq_ok.mp h
  obtain ⟨hmem, hapart⟩ := claimed_of_run hrun
  have hperm : (sortedBy (fun span : DateSpan => toLex span.pos) (held.map spanOf)).Perm
      (held.map spanOf) := sortedBy_perm
  have hof : ∀ span ∈ sortedBy (fun span : DateSpan => toLex span.pos) (held.map spanOf),
      ∃ h ∈ held, spanOf h = span :=
    fun span hspan => List.mem_map.mp (hperm.mem_iff.mp hspan)
  refine ⟨?_, sortedBy_pairwise, ?_, ?_⟩
  · refine (hperm.pairwise_iff fun hab => hab.symm).mpr (List.pairwise_map.mpr ?_)
    refine hapart.imp ?_
    intro h k hfree
    rw [Overlaps] at hfree
    simp only [spanOf]
    omega
  · intro span hspan
    obtain ⟨h, hheld, rfl⟩ := hof span hspan
    exact resolve_le (hmem h hheld).2
  · intro span hspan
    obtain ⟨h, hheld, rfl⟩ := hof span hspan
    exact (GroupPattern.of_mem_finditer List.drop_zero (of_mem_candidates (hmem h hheld).1)).1

theorem exists_queryDateRanges_iff : (∃ ranges, queryDateRanges py nums text ref = .ok ranges) ↔
    ∃ spans, findDates py nums text ref true = .ok spans := by
  rw [queryDateRanges, exists_bind_iff]
  exact exists_congr fun spans => and_iff_left ⟨_, rfl⟩

end Run

/-- `find_dates` returns spans that are as they should be exactly when every
match can be read that no date before it has claimed a part of, and with it
`query_date_ranges` does. -/
theorem findDates_safe_iff (py : Python) (nums : Numerals) (text : String) (ref : Date) :
    (∀ dayFirst, (∃ spans, findDates py nums text ref dayFirst = .ok spans ∧
        Safe text.toList spans) ↔ Readable py nums text ref dayFirst) ∧
      ((∃ ranges, queryDateRanges py nums text ref = .ok ranges) ↔
        Readable py nums text ref true) := by
  constructor
  · intro dayFirst
    rw [← exists_findDates_iff]
    exact exists_congr fun spans => and_iff_left_of_imp safe_of_findDates
  · rw [exists_queryDateRanges_iff, exists_findDates_iff]

/-! ### A query that fails -/

def asciiNumerals : Numerals where
  decimal c :=
    if h : 48 ≤ c.toNat ∧ c.toNat - 48 < 10 then some ⟨c.toNat - 48, h.2⟩ else none
  isDigit := Char.isDigit

/-- 3 May 2026 -/
def mayThird : Date := ⟨2026, 5, 3, by decide, by decide, by decide⟩

/-- The year is before the calendar, and nothing catches the error. -/
theorem fiveThousandYears_raises :
    (¬ ∃ spans, findDates .basic asciiNumerals "what happened 5000 years ago?" mayThird true =
        .ok spans ∧ Safe "what happened 5000 years ago?".toList spans) ∧
      ¬ ∃ ranges, queryDateRanges .basic asciiNumerals "what happened 5000 years ago?" mayThird =
        .ok ranges := by
  have herror : findDates .basic asciiNumerals "what happened 5000 years ago?" mayThird true =
      .error .valueError := by decide +kernel
  constructor
  · rintro ⟨spans, h, -⟩
    rw [herror] at h
    cases h
  · rw [exists_queryDateRanges_iff, herror]
    rintro ⟨spans, h⟩
    cases h

end MarkSdk.DateParsing
