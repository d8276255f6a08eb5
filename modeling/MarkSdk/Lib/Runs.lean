import Mathlib.Data.List.Infix

/-!
Runs of a system that takes one step for each input.

`run` is the state after a list of inputs. `Along` says that a condition on
an input and the state it meets holds at every step of a run. A condition
that makes every step keep an invariant makes every run keep it
(`Along.invariant`), and two conditions that agree on the states of an
invariant agree along runs (`along_iff_of_invariant`).
-/

namespace MarkSdk.Lib

variable {σ ι : Type} (step : ι → σ → σ)

/-- The state after the inputs, the first one first. -/
def run (is : List ι) (s : σ) : σ := is.foldl (fun s i => step i s) s

@[simp] theorem run_nil (s : σ) : run step [] s = s := rfl

@[simp] theorem run_cons (i : ι) (is : List ι) (s : σ) :
    run step (i :: is) s = run step is (step i s) := rfl

theorem run_append (is js : List ι) (s : σ) :
    run step (is ++ js) s = run step js (run step is s) :=
  List.foldl_append

/-- The condition holds at every step of the run. -/
def Along (P : ι → σ → Prop) : List ι → σ → Prop
  | [], _ => True
  | i :: is, s => P i s ∧ Along P is (step i s)

instance decidableAlong (P : ι → σ → Prop) [∀ i s, Decidable (P i s)] :
    (is : List ι) → (s : σ) → Decidable (Along step P is s)
  | [], _ => isTrue trivial
  | i :: is, s =>
      have := decidableAlong P is (step i s)
      inferInstanceAs (Decidable (P i s ∧ Along step P is (step i s)))

variable {step} {P Q : ι → σ → Prop} {I : σ → Prop}

theorem along_append {is js : List ι} {s : σ} :
    Along step P (is ++ js) s ↔ Along step P is s ∧ Along step P js (run step is s) := by
  induction is generalizing s with
  | nil => simp [Along]
  | cons i is ih => simp only [List.cons_append, Along, ih, run_cons, and_assoc]

/-- At every input of the run the condition holds of the state it meets. -/
theorem along_iff_forall {is : List ι} {s : σ} :
    Along step P is s ↔ ∀ js i ks, is = js ++ i :: ks → P i (run step js s) := by
  induction is generalizing s with
  | nil => simp [Along]
  | cons i is ih =>
      simp only [Along, ih]
      constructor
      · rintro ⟨hi, his⟩ js j ks hsplit
        cases js with
        | nil =>
            obtain ⟨rfl, -⟩ := List.cons.inj hsplit
            exact hi
        | cons k js =>
            obtain ⟨rfl, htail⟩ := List.cons.inj hsplit
            exact his js j ks htail
      · intro h
        refine ⟨h [] i is rfl, fun js j ks hsplit => ?_⟩
        exact h (i :: js) j ks (by rw [hsplit, List.cons_append])

theorem Along.mono (hPQ : ∀ i s, P i s → Q i s) {is : List ι} {s : σ}
    (h : Along step P is s) : Along step Q is s := by
  induction is generalizing s with
  | nil => trivial
  | cons i is ih => exact ⟨hPQ i s h.1, ih h.2⟩

theorem Along.and {is : List ι} {s : σ} (hP : Along step P is s) (hQ : Along step Q is s) :
    Along step (fun i s => P i s ∧ Q i s) is s := by
  induction is generalizing s with
  | nil => trivial
  | cons i is ih => exact ⟨⟨hP.1, hQ.1⟩, ih hP.2 hQ.2⟩

theorem along_of_forall {is : List ι} (h : ∀ i ∈ is, ∀ s, P i s) (s : σ) : Along step P is s := by
  induction is generalizing s with
  | nil => trivial
  | cons i is ih =>
      exact ⟨h i List.mem_cons_self s, ih (fun j hj => h j (List.mem_cons_of_mem i hj)) _⟩

/-- What every step keeps, the run keeps. -/
theorem Along.invariant (hstep : ∀ i s, I s → P i s → I (step i s)) {is : List ι} {s : σ}
    (hs : I s) (h : Along step P is s) : I (run step is s) := by
  induction is generalizing s with
  | nil => exact hs
  | cons i is ih => exact ih (hstep i s hs h.1) h.2

/-- The invariant holds in every state that the run passes. -/
theorem Along.invariant_within (hstep : ∀ i s, I s → P i s → I (step i s)) {is js : List ι}
    {s : σ} (hs : I s) (h : Along step P is s) (hjs : js <+: is) : I (run step js s) := by
  obtain ⟨ks, rfl⟩ := hjs
  exact (along_append.mp h).1.invariant hstep hs

/-- Where a condition on a step says exactly when the step keeps the
invariant, the runs along which it holds are those that keep it throughout. -/
theorem along_iff_invariant_within {F : ι → σ → Prop}
    (hstep : ∀ i s, I s → F i s → (I (step i s) ↔ P i s)) {is : List ι} {s : σ} (hs : I s)
    (hF : Along step F is s) : Along step P is s ↔ ∀ js, js <+: is → I (run step js s) := by
  constructor
  · intro hP js hjs
    exact (hF.and hP).invariant_within (fun i t ht h => (hstep i t ht h.1).mpr h.2) hs hjs
  · intro hI
    rw [along_iff_forall]
    rintro js i ks rfl
    have hbefore := hI js (List.prefix_append js (i :: ks))
    refine (hstep i _ hbefore (along_iff_forall.mp hF js i ks rfl)).mp ?_
    have hafter := hI (js ++ [i]) ⟨ks, by simp⟩
    rw [run_append] at hafter
    exact hafter

/-- Conditions that agree on the invariant, which the first one keeps, hold
along the same runs. -/
theorem along_iff_of_invariant (hPQ : ∀ i s, I s → (P i s ↔ Q i s))
    (hstep : ∀ i s, I s → P i s → I (step i s)) {is : List ι} {s : σ} (hs : I s) :
    Along step P is s ↔ Along step Q is s := by
  induction is generalizing s with
  | nil => exact Iff.rfl
  | cons i is ih =>
      constructor
      · rintro ⟨hi, his⟩
        exact ⟨(hPQ i s hs).mp hi, (ih (hstep i s hs hi)).mp his⟩
      · rintro ⟨hi, his⟩
        have hp := (hPQ i s hs).mpr hi
        exact ⟨hp, (ih (hstep i s hs hp)).mpr his⟩

end MarkSdk.Lib
