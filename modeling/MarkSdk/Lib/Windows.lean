import Mathlib.Data.List.Basic
import Mathlib.Order.Basic
import Mathlib.Order.MinMax

/-!
Scanning a range of places, whole or window by window.

A scan takes the first match, goes on where it ends, and so on. Windows that
are apart from one another give the matches of the whole, if every match lies
in one of them (`flatMap_scan_windows`). Spans that overlap or touch are merged
into such windows.
-/

namespace MarkSdk.Lib

/-- The matches from a place on, in a number of places. What is skipped has been
taken by the match before. -/
def scan (matchAt : Nat → Option Nat) : Nat → Nat → Nat → List (Nat × Nat)
  | 0, _, _ => []
  | n + 1, skip + 1, place => scan matchAt n skip (place + 1)
  | n + 1, 0, place =>
      match matchAt place with
      | some stop => (place, stop) :: scan matchAt n (stop - (place + 1)) (place + 1)
      | none => scan matchAt n 0 (place + 1)

/-- `merged[-1]` is `current`; a span that begins after it starts a new window. -/
def mergeFrom (current : Nat × Nat) : List (Nat × Nat) → List (Nat × Nat)
  | [] => [current]
  | span :: spans =>
      if span.1 ≤ current.2 then mergeFrom (current.1, max current.2 span.2) spans
      else current :: mergeFrom span spans

def mergeSpans : List (Nat × Nat) → List (Nat × Nat)
  | [] => []
  | span :: spans => mergeFrom span spans

/-! ### Scans -/

section Scan

variable {m m' : Nat → Option Nat} {n k place skip : Nat}

theorem scan_none (h : ∀ p, place ≤ p → p < place + n → m p = none) :
    scan m n skip place = [] := by
  induction n generalizing skip place with
  | zero => rw [scan]
  | succ n ih =>
      have hrest : ∀ p, place + 1 ≤ p → p < place + 1 + n → m p = none :=
        fun p hlow hhigh => h p (by omega) (by omega)
      cases skip with
      | zero =>
          rw [scan, h place (Nat.le_refl _) (by omega)]
          exact ih hrest
      | succ skip =>
          rw [scan]
          exact ih hrest

theorem scan_congr (h : ∀ p, place ≤ p → p < place + n → m p = m' p) :
    scan m n skip place = scan m' n skip place := by
  induction n generalizing skip place with
  | zero => rw [scan, scan]
  | succ n ih =>
      have hrest : ∀ p, place + 1 ≤ p → p < place + 1 + n → m p = m' p :=
        fun p hlow hhigh => h p (by omega) (by omega)
      cases skip with
      | zero =>
          rw [scan, scan, h place (Nat.le_refl _) (by omega)]
          cases m' place with
          | none => exact ih hrest
          | some stop => exact congrArg _ (ih hrest)
      | succ skip =>
          rw [scan, scan]
          exact ih hrest

/-- A scan is cut in two where no match reaches over. -/
theorem scan_append (hskip : skip ≤ n)
    (h : ∀ p stop, place ≤ p → p < place + n → m p = some stop → stop ≤ place + n) :
    scan m (n + k) skip place = scan m n skip place ++ scan m k 0 (place + n) := by
  induction n generalizing skip place with
  | zero =>
      obtain rfl : skip = 0 := by omega
      rw [Nat.zero_add, scan, List.nil_append, Nat.add_zero]
  | succ n ih =>
      have hlength : n + 1 + k = (n + k) + 1 := by omega
      have hplace : place + (n + 1) = place + 1 + n := by omega
      have hrest : ∀ p stop, place + 1 ≤ p → p < place + 1 + n → m p = some stop →
          stop ≤ place + 1 + n := fun p stop hlow hhigh hm => by
        have hstop := h p stop (by omega) (by omega) hm
        omega
      rw [hlength, hplace]
      cases skip with
      | zero =>
          rw [scan, scan]
          cases hm : m place with
          | none => exact ih (by omega) hrest
          | some stop =>
              have hstop := h place stop (Nat.le_refl _) (by omega) hm
              rw [List.cons_append]
              exact congrArg _ (ih (by omega) hrest)
      | succ skip =>
          rw [scan, scan]
          exact ih (by omega) hrest

end Scan

/-! ### Windows -/

section Windows

variable {m : Nat → Option Nat}

/-- Windows that are apart, from a place on and up to a last one. -/
def Apart (size : Nat) : Nat → List (Nat × Nat) → Prop
  | _, [] => True
  | place, w :: windows => place ≤ w.1 ∧ w.1 ≤ w.2 ∧ w.2 ≤ size ∧ Apart size (w.2 + 1) windows

theorem Apart.mono {size place place' : Nat} {windows : List (Nat × Nat)} (hle : place ≤ place')
    (h : Apart size place' windows) : Apart size place windows := by
  cases windows with
  | nil => trivial
  | cons w windows =>
      obtain ⟨hstart, hrest⟩ := h
      exact ⟨by omega, hrest⟩

theorem Apart.start_le {size place : Nat} {windows : List (Nat × Nat)}
    (h : Apart size place windows) : ∀ w ∈ windows, place ≤ w.1 ∧ w.1 ≤ w.2 ∧ w.2 ≤ size := by
  induction windows generalizing place with
  | nil => exact fun w hw => absurd hw List.not_mem_nil
  | cons w windows ih =>
      obtain ⟨hstart, hle, hsize, hrest⟩ := h
      refine List.forall_mem_cons.mpr ⟨⟨hstart, hle, hsize⟩, fun w' hw' => ?_⟩
      obtain ⟨hstart', hle'⟩ := ih hrest w' hw'
      exact ⟨by omega, hle'⟩

/-- A place is in one window at most. -/
theorem Apart.eq_of_mem {size place p : Nat} {windows : List (Nat × Nat)}
    (h : Apart size place windows) {w w' : Nat × Nat} (hw : w ∈ windows) (hw' : w' ∈ windows)
    (hin : w.1 ≤ p ∧ p ≤ w.2) (hin' : w'.1 ≤ p ∧ p ≤ w'.2) : w = w' := by
  induction windows generalizing place with
  | nil => exact absurd hw List.not_mem_nil
  | cons v windows ih =>
      obtain ⟨-, -, -, hrest⟩ := h
      rcases List.mem_cons.mp hw with rfl | hlater
      · rcases List.mem_cons.mp hw' with rfl | hlater'
        · rfl
        · have hstart := (hrest.start_le w' hlater').1
          omega
      · rcases List.mem_cons.mp hw' with rfl | hlater'
        · have hstart := (hrest.start_le w hlater).1
          omega
        · exact ih hrest hlater hlater'

/-- Window by window, a scan finds what it finds in the whole: no match begins
outside of the windows, or reaches out of the one it begins in. -/
theorem flatMap_scan_windows {size place : Nat} {windows : List (Nat × Nat)}
    (h : Apart size place windows) (hplace : place ≤ size + 1)
    (hout : ∀ p stop, place ≤ p → m p = some stop →
      ∃ w ∈ windows, w.1 ≤ p ∧ p ≤ w.2 ∧ stop ≤ w.2) :
    (windows.flatMap fun w => scan m (w.2 + 1 - w.1) 0 w.1) =
      scan m (size + 1 - place) 0 place := by
  induction windows generalizing place with
  | nil =>
      symm
      refine scan_none fun p hlow _ => ?_
      cases hm : m p with
      | none => rfl
      | some stop =>
          obtain ⟨w, hw, -⟩ := hout p stop hlow hm
          exact absurd hw List.not_mem_nil
  | cons w windows ih =>
      obtain ⟨hstart, hle, hsize, hrest⟩ := h
      have hhere : ∀ p stop, place ≤ p → p ≤ w.2 → m p = some stop →
          w.1 ≤ p ∧ stop ≤ w.2 := by
        intro p stop hlow hhigh hm
        obtain ⟨w', hw', hin, hin', hstop⟩ := hout p stop hlow hm
        rcases List.mem_cons.mp hw' with rfl | hw'
        · exact ⟨hin, hstop⟩
        · have hlater := (hrest.start_le w' hw').1
          omega
      have hlater := ih hrest (by omega) fun p stop hlow hm => by
        obtain ⟨w', hw', hin, hin', hstop⟩ := hout p stop (by omega) hm
        rcases List.mem_cons.mp hw' with rfl | hw'
        · omega
        · exact ⟨w', hw', hin, hin', hstop⟩
      -- the places before the window, those in it, and the rest
      have hlength : size + 1 - place = (w.1 - place) + ((w.2 + 1 - w.1) + (size + 1 - (w.2 + 1))) := by
        omega
      have hbefore : place + (w.1 - place) = w.1 := by omega
      have hafter : w.1 + (w.2 + 1 - w.1) = w.2 + 1 := by omega
      have hnone : scan m (w.1 - place) 0 place = [] := by
        refine scan_none fun p hlow hhigh => ?_
        cases hm : m p with
        | none => rfl
        | some stop =>
            have hin := (hhere p stop hlow (by omega) hm).1
            omega
      rw [List.flatMap_cons, hlater, hlength, scan_append (Nat.zero_le _), hbefore, hnone,
        List.nil_append, scan_append (Nat.zero_le _), hafter]
      · intro p stop hlow hhigh hm
        have hstop := (hhere p stop (by omega) (by omega) hm).2
        omega
      · intro p stop hlow hhigh hm
        have hin := (hhere p stop hlow (by omega) hm).1
        omega

end Windows

/-! ### Merging -/

section Merge

variable {size : Nat} {current : Nat × Nat} {spans : List (Nat × Nat)}

theorem mergeFrom_apart (hcurrent : current.1 ≤ current.2 ∧ current.2 ≤ size)
    (hspans : ∀ s ∈ spans, s.1 ≤ s.2 ∧ s.2 ≤ size) :
    Apart size current.1 (mergeFrom current spans) := by
  induction spans generalizing current with
  | nil => exact ⟨Nat.le_refl _, hcurrent.1, hcurrent.2, trivial⟩
  | cons span spans ih =>
      obtain ⟨hspan, hrest⟩ := List.forall_mem_cons.mp hspans
      rw [mergeFrom]
      split
      case isTrue htouch =>
        have hgrown : current.1 ≤ max current.2 span.2 ∧ max current.2 span.2 ≤ size :=
          ⟨le_trans hcurrent.1 (le_max_left _ _), max_le hcurrent.2 hspan.2⟩
        exact @ih (current.1, max current.2 span.2) hgrown hrest
      case isFalse hapart =>
        exact ⟨Nat.le_refl _, hcurrent.1, hcurrent.2, (ih hspan hrest).mono (by omega)⟩

/-- Every span lies in a window, if the spans come by where they begin. -/
theorem mergeFrom_covers (hsorted : (current :: spans).Pairwise fun s t => s.1 ≤ t.1) :
    ∀ s ∈ current :: spans, ∃ w ∈ mergeFrom current spans, w.1 ≤ s.1 ∧ s.2 ≤ w.2 := by
  induction spans generalizing current with
  | nil =>
      intro s hs
      obtain rfl := List.mem_singleton.mp hs
      exact ⟨s, List.mem_cons_self, Nat.le_refl _, Nat.le_refl _⟩
  | cons span spans ih =>
      obtain ⟨hfirst, hrest⟩ := List.pairwise_cons.mp hsorted
      rw [mergeFrom]
      split
      case isTrue htouch =>
        have hgrown : ((current.1, max current.2 span.2) :: spans).Pairwise fun s t => s.1 ≤ t.1 :=
          List.pairwise_cons.mpr ⟨fun s hs => hfirst s (List.mem_cons_of_mem _ hs),
            (List.pairwise_cons.mp hrest).2⟩
        have hcovers := ih hgrown
        obtain ⟨w, hw, hstart, hstop⟩ := hcovers _ List.mem_cons_self
        have hspan := hfirst span List.mem_cons_self
        have hmax : current.2 ≤ w.2 ∧ span.2 ≤ w.2 := max_le_iff.mp hstop
        intro s hs
        rcases List.mem_cons.mp hs with rfl | hs
        · exact ⟨w, hw, hstart, hmax.1⟩
        · rcases List.mem_cons.mp hs with rfl | hs
          · exact ⟨w, hw, le_trans hstart hspan, hmax.2⟩
          · exact hcovers s (List.mem_cons_of_mem _ hs)
      case isFalse hapart =>
        intro s hs
        rcases List.mem_cons.mp hs with rfl | hs
        · exact ⟨s, List.mem_cons_self, Nat.le_refl _, Nat.le_refl _⟩
        · obtain ⟨w, hw, hin⟩ := ih hrest s hs
          exact ⟨w, List.mem_cons_of_mem _ hw, hin⟩

theorem mergeSpans_apart (hspans : ∀ s ∈ spans, s.1 ≤ s.2 ∧ s.2 ≤ size) :
    Apart size 0 (mergeSpans spans) := by
  cases spans with
  | nil => trivial
  | cons span spans =>
      obtain ⟨hspan, hrest⟩ := List.forall_mem_cons.mp hspans
      exact (mergeFrom_apart hspan hrest).mono (Nat.zero_le _)

theorem mergeSpans_covers (hsorted : spans.Pairwise fun s t => s.1 ≤ t.1) :
    ∀ s ∈ spans, ∃ w ∈ mergeSpans spans, w.1 ≤ s.1 ∧ s.2 ≤ w.2 := by
  cases spans with
  | nil => exact fun s hs => absurd hs List.not_mem_nil
  | cons span spans => exact mergeFrom_covers hsorted

end Merge

end MarkSdk.Lib
