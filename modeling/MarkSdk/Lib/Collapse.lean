import Mathlib.Data.List.Basic
import MarkSdk.Lib.Timeline

/-!
Timelines whose repeated elements are collapsed.

A run is an element with the later ones that repeat it. Collapsed to one
interval, from the start of its first element to the end of its last, a run
holds at exactly the times at which one of its elements does
(`runCovers_iff`). So the collapsed timeline holds when the timeline does, and
never twice (`collapse_covers`).
-/

namespace MarkSdk.Lib

variable {α τ : Type}

/-- The runs of a list, where `head` and `rest` are the one being read. -/
def runsFrom (same : α → α → Bool) (head : α) (rest : List α) : List α → List (α × List α)
  | [] => [(head, rest)]
  | a :: l =>
      if same head a then runsFrom same head (rest ++ [a]) l
      else (head, rest) :: runsFrom same a [] l

/-- The elements with the later ones that repeat them. -/
def collapseRuns (same : α → α → Bool) : List α → List (α × List α)
  | [] => []
  | a :: l => runsFrom same a [] l

def members (run : α × List α) : List α := run.1 :: run.2

theorem flatMap_runsFrom (same : α → α → Bool) (head : α) (rest l : List α) :
    (runsFrom same head rest l).flatMap members = head :: rest ++ l := by
  induction l generalizing head rest with
  | nil => simp [runsFrom, members]
  | cons a l ih =>
      rw [runsFrom]
      split
      · rw [ih]
        simp
      · rw [List.flatMap_cons, ih]
        simp [members]

theorem flatMap_collapseRuns (same : α → α → Bool) (l : List α) :
    (collapseRuns same l).flatMap members = l := by
  cases l with
  | nil => rfl
  | cons a l => exact flatMap_runsFrom same a [] l

theorem members_infix_of_mem {same : α → α → Bool} {l : List α} {run : α × List α}
    (h : run ∈ collapseRuns same l) : members run <:+: l := by
  conv => rhs; rw [← flatMap_collapseRuns same l]
  rw [List.flatMap_def]
  exact List.infix_of_mem_flatten (List.mem_map_of_mem h)

theorem exists_run (same : α → α → Bool) {l : List α} {a : α} (h : a ∈ l) :
    ∃ run ∈ collapseRuns same l, a ∈ members run := by
  rw [← flatMap_collapseRuns same l] at h
  exact List.mem_flatMap.mp h

/-! ### The interval of a run -/

variable {start : α → τ} {stop : α → Option τ}

/-- Each element ends where the next one begins. -/
def Abutting (start : α → τ) (stop : α → Option τ) : List α → Prop
  | [] => True
  | [_] => True
  | a :: b :: l => stop a = some (start b) ∧ Abutting start stop (b :: l)

theorem abutting_of_tiles_append {before l after : List α}
    (h : Tiles start stop (before ++ l ++ after)) : Abutting start stop l := by
  induction before with
  | cons a before ih => exact ih (tiles_cons_iff.mp h).2
  | nil =>
      induction l with
      | nil => trivial
      | cons a l ih =>
          obtain ⟨hstop, hl⟩ := tiles_cons_iff.mp h
          cases l with
          | nil => trivial
          | cons b l => exact ⟨hstop, ih hl⟩

theorem Tiles.abutting {l l' : List α} (htiles : Tiles start stop l) (h : l' <:+: l) :
    Abutting start stop l' := by
  obtain ⟨before, after, rfl⟩ := h
  exact abutting_of_tiles_append htiles

section Covers

variable [LinearOrder τ]

/-- In a sorted tiling no element ends before it begins. -/
theorem start_le_stop {l : List α} (hsorted : l.Pairwise fun a b => start a ≤ start b)
    (htiles : Tiles start stop l) : ∀ a ∈ l, ∀ e, stop a = some e → start a ≤ e := by
  induction l with
  | nil => exact fun a ha => absurd ha List.not_mem_nil
  | cons b l ih =>
      obtain ⟨hfirst, hrest⟩ := List.pairwise_cons.mp hsorted
      obtain ⟨hstop, hl⟩ := tiles_cons_iff.mp htiles
      intro a ha e he
      rcases List.mem_cons.mp ha with rfl | ha
      · cases l with
        | nil => rw [hstop] at he; cases he
        | cons c l =>
            rw [hstop] at he
            obtain rfl := Option.some.inj he
            exact hfirst c List.mem_cons_self
      · exact ih hrest hl a ha e he

/-- The run holds: its first element has begun, and its last has not ended. -/
def runCovers (start : α → τ) (stop : α → Option τ) (t : τ) (run : α × List α) : Bool :=
  covers (fun run : α × List α => start run.1) (fun run => stop (run.2.getLastD run.1)) t run

theorem runCovers_iff {head : α} {rest : List α} {t : τ}
    (hsorted : (head :: rest).Pairwise fun a b => start a ≤ start b)
    (habutting : Abutting start stop (head :: rest))
    (hstop : ∀ a ∈ head :: rest, ∀ e, stop a = some e → start a ≤ e) :
    runCovers start stop t (head, rest) = true ↔ ∃ a ∈ head :: rest, covers start stop t a := by
  induction rest generalizing head with
  | nil => simp [runCovers, covers_iff]
  | cons b rest ih =>
      obtain ⟨hfirst, hrest⟩ := List.pairwise_cons.mp hsorted
      obtain ⟨hnext, habutting⟩ := habutting
      have hrun : runCovers start stop t (head, b :: rest) = true ↔
          start head ≤ t ∧ ∀ e, stop (rest.getLastD b) = some e → t < e := by
        rw [runCovers, covers_iff, List.getLastD_cons]
      have hih := ih hrest habutting fun a ha => hstop a (List.mem_cons_of_mem head ha)
      rw [runCovers, covers_iff] at hih
      rw [hrun]
      constructor
      · rintro ⟨hbegun, hopen⟩
        by_cases hb : start b ≤ t
        · obtain ⟨a, ha, hcovers⟩ := hih.mp ⟨hb, hopen⟩
          exact ⟨a, List.mem_cons_of_mem head ha, hcovers⟩
        · refine ⟨head, List.mem_cons_self, covers_iff.mpr ⟨hbegun, fun e he => ?_⟩⟩
          obtain rfl := Option.some.inj (hnext.symm.trans he)
          exact lt_of_not_ge hb
      · rintro ⟨a, ha, hcovers⟩
        rcases List.mem_cons.mp ha with rfl | ha
        · -- the first element is over before the others
          obtain ⟨hbegun, hopen⟩ := covers_iff.mp hcovers
          have hbefore : t < start b := hopen _ hnext
          refine ⟨hbegun, fun e he => ?_⟩
          have hlast : rest.getLastD b ∈ b :: rest := List.getLastD_mem_cons ..
          have hafter : start b ≤ start (rest.getLastD b) := by
            rcases List.mem_cons.mp hlast with heq | hmem
            · rw [heq]
            · exact (List.pairwise_cons.mp hrest).1 _ hmem
          exact lt_of_lt_of_le hbefore
            (hafter.trans (hstop _ (List.mem_cons_of_mem _ hlast) e he))
        · obtain ⟨hbegun, hopen⟩ := hih.mpr ⟨a, ha, hcovers⟩
          exact ⟨(hfirst b List.mem_cons_self).trans hbegun, hopen⟩

/-- At most as many runs hold as elements do. -/
theorem length_filter_runs_le (p : α → Bool) (q : α × List α → Bool) (runs : List (α × List α))
    (h : ∀ run ∈ runs, q run = true → ∃ a ∈ members run, p a = true) :
    (runs.filter q).length ≤ ((runs.flatMap members).filter p).length := by
  induction runs with
  | nil => exact Nat.le_refl 0
  | cons run runs ih =>
      obtain ⟨hrun, hruns⟩ := List.forall_mem_cons.mp h
      have hle := ih hruns
      rw [List.flatMap_cons, List.filter_append, List.length_append]
      by_cases hq : q run = true
      · obtain ⟨a, ha, hp⟩ := hrun hq
        have hpos := List.length_pos_of_mem (List.mem_filter.mpr ⟨ha, hp⟩)
        rw [List.filter_cons_of_pos hq, List.length_cons]
        omega
      · rw [List.filter_cons_of_neg hq]
        omega

/-- A collapsed timeline holds when the timeline does, and never twice. -/
theorem collapse_covers (same : α → α → Bool) {l : List α}
    (hsorted : l.Pairwise fun a b => start a ≤ start b) (htiles : Tiles start stop l) (t : τ) :
    (∀ run ∈ collapseRuns same l, runCovers start stop t run = true ↔
        ∃ a ∈ members run, covers start stop t a) ∧
      ((collapseRuns same l).filter (runCovers start stop t)).length ≤ 1 := by
  have hruns : ∀ run ∈ collapseRuns same l, runCovers start stop t run = true ↔
      ∃ a ∈ members run, covers start stop t a := by
    intro run hrun
    have hwithin := members_infix_of_mem hrun
    exact runCovers_iff (hsorted.sublist hwithin.sublist) (htiles.abutting hwithin)
      fun a ha => start_le_stop hsorted htiles a (hwithin.subset ha)
  refine ⟨hruns, ?_⟩
  have hle := length_filter_runs_le (covers start stop t) (runCovers start stop t)
    (collapseRuns same l) fun run hrun hq => (hruns run hrun).mp hq
  rw [flatMap_collapseRuns, tiles_filter_covers hsorted htiles] at hle
  refine hle.trans ?_
  cases (l.filter fun a => start a ≤ t).getLast? <;> simp

end Covers

end MarkSdk.Lib
