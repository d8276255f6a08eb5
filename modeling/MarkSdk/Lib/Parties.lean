import MarkSdk.Lib.Runs

/-!
Invariants of a system in which several parties take turns.

Each party has an assertion of its own about the state (`Ok`), and a step has
one party that takes it. The rule asks for two things. The party that takes
a step finds its own assertion true afterwards, and what it has done to the
state is within what it guarantees (`Gives`). And the assertion of every other
party survives whatever is within that guarantee (`Stable`). Then all the
assertions hold after every run.
-/

namespace MarkSdk.Lib

variable {σ ι π : Type}

/-- An assertion for each party, beside an invariant of the whole state. -/
structure Assertions (σ π : Type) where
  inv : σ → Prop
  ok : π → σ → Prop

namespace Assertions

variable (A : Assertions σ π) (G : π → σ → σ → Prop) (step : ι → σ → σ) (actor : ι → π)

def All (s : σ) : Prop := A.inv s ∧ ∀ p, A.ok p s

/-- A step leaves the invariant and its own party's assertion true, and keeps the guarantee. -/
def Gives : Prop :=
  ∀ i s, A.All s →
    A.inv (step i s) ∧ A.ok (actor i) (step i s) ∧ G (actor i) s (step i s)

/-- What another party may do leaves an assertion true. -/
def Stable : Prop := ∀ p q s t, A.All s → q ≠ p → G p s t → A.ok q t

variable {A G step actor}

theorem All.keep (hgives : A.Gives G step actor) (hstable : A.Stable G) {s : σ} (h : A.All s)
    (i : ι) : A.All (step i s) := by
  obtain ⟨hinv, hok, hg⟩ := hgives i s h
  refine ⟨hinv, fun q => ?_⟩
  by_cases hq : q = actor i
  · rwa [hq]
  · exact hstable (actor i) q s _ h hq hg

theorem All.after (hgives : A.Gives G step actor) (hstable : A.Stable G) {s : σ} (h : A.All s)
    (is : List ι) : A.All (run step is s) := by
  induction is generalizing s with
  | nil => exact h
  | cons i is ih => exact ih (h.keep hgives hstable i)

/-- What every step keeps that starts where all the assertions hold, the run keeps. -/
theorem All.invariant (hgives : A.Gives G step actor) (hstable : A.Stable G) {I : σ → Prop}
    (hstep : ∀ i s, A.All s → I s → I (step i s)) {s : σ} (h : A.All s) (hs : I s)
    (is : List ι) : I (run step is s) := by
  induction is generalizing s with
  | nil => exact hs
  | cons i is ih => exact ih (h.keep hgives hstable i) (hstep i s h hs)

end Assertions

end MarkSdk.Lib
