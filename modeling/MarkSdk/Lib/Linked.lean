import Mathlib.Data.List.Infix
import Mathlib.Data.List.Pairwise
import Mathlib.Data.List.Sort

/-!
Lists linked back to front.

Every element of a linked list points at the one before it: `inn x` is what
`x` says about its predecessor, `out x` is what it has to say, and `start` is
what the first element says. What the elements point at is therefore known
from the list (`Linked.map_inn`), and no two of them point at the same
(`Linked.nodup_inn`).
-/

namespace MarkSdk.Lib

variable {ρ κ : Type} (out inn : ρ → κ)

def Linked : κ → List ρ → Prop
  | _, [] => True
  | start, x :: xs => inn x = start ∧ Linked (out x) xs

instance decidableLinked [DecidableEq κ] :
    (start : κ) → (xs : List ρ) → Decidable (Linked out inn start xs)
  | _, [] => isTrue trivial
  | start, x :: xs =>
      have := decidableLinked (out x) xs
      inferInstanceAs (Decidable (inn x = start ∧ Linked out inn (out x) xs))

/-- What the next element of the list has to point at. -/
def linkEnd (start : κ) (xs : List ρ) : κ := (xs.getLast?.map out).getD start

variable {out inn}

@[simp] theorem linkEnd_nil (start : κ) : linkEnd out start [] = start := rfl

theorem linkEnd_cons (start : κ) (x : ρ) (xs : List ρ) :
    linkEnd out start (x :: xs) = linkEnd out (out x) xs := by
  cases xs with
  | nil => rfl
  | cons y ys =>
      have hsome : ∃ z, (y :: ys).getLast? = some z := ⟨_, List.getLast?_cons⟩
      obtain ⟨z, hz⟩ := hsome
      simp only [linkEnd, List.getLast?_cons_cons, hz, Option.map_some, Option.getD_some]

theorem linked_concat {start : κ} {xs : List ρ} {x : ρ} :
    Linked out inn start (xs ++ [x]) ↔
      Linked out inn start xs ∧ inn x = linkEnd out start xs := by
  induction xs generalizing start with
  | nil => simp [Linked]
  | cons y ys ih => simp only [List.cons_append, Linked, ih, linkEnd_cons, and_assoc]

/-- A change of the elements that keeps their links. -/
theorem linked_map {f : ρ → ρ} {start : κ} {xs : List ρ} (hout : ∀ x ∈ xs, out (f x) = out x)
    (hinn : ∀ x ∈ xs, inn (f x) = inn x) :
    Linked out inn start (xs.map f) ↔ Linked out inn start xs := by
  induction xs generalizing start with
  | nil => exact Iff.rfl
  | cons x xs ih =>
      have hrest : Linked out inn (out x) (xs.map f) ↔ Linked out inn (out x) xs :=
        ih (fun y hy => hout y (List.mem_cons_of_mem x hy))
          fun y hy => hinn y (List.mem_cons_of_mem x hy)
      simp only [List.map_cons, Linked, hout x List.mem_cons_self, hinn x List.mem_cons_self, hrest]

theorem Linked.map_inn {start : κ} {xs : List ρ} (h : Linked out inn start xs) :
    xs.map inn = (start :: xs.map out).dropLast := by
  induction xs generalizing start with
  | nil => rfl
  | cons x xs ih =>
      rw [List.map_cons, List.map_cons, List.dropLast_cons_cons, h.1, ih h.2]

/-- The same links, with less said about each element. -/
theorem Linked.comp {κ' : Type} (f : κ → κ') {start : κ} {xs : List ρ}
    (h : Linked out inn start xs) : Linked (f ∘ out) (f ∘ inn) (f start) xs := by
  induction xs generalizing start with
  | nil => trivial
  | cons x xs ih => exact ⟨congrArg f h.1, ih h.2⟩

/-- No two elements have the same predecessor. -/
theorem Linked.nodup_inn {start : κ} {xs : List ρ} (h : Linked out inn start xs)
    (hstart : start ∉ xs.map out) (hout : (xs.map out).Nodup) : (xs.map inn).Nodup := by
  rw [h.map_inn]
  exact (List.nodup_cons.mpr ⟨hstart, hout⟩).sublist (List.dropLast_sublist _)

/-! ### Sorting -/

/-- A list that is sorted strictly is what sorting makes of any list of the
same elements. -/
theorem insertionSort_eq {α : Type} {r : α → α → Prop} [DecidableRel r] [Std.Total r]
    [IsTrans α r] {xs ys : List α} (hys : ys.Pairwise fun a b => r a b ∧ ¬ r b a)
    (hxs : xs.Nodup) (hmem : ∀ a, a ∈ xs ↔ a ∈ ys) : xs.insertionSort r = ys := by
  have hnodup : ys.Nodup := hys.imp fun {a b} hab heq => by
    subst heq
    exact hab.2 hab.1
  have hperm : (xs.insertionSort r).Perm ys :=
    (List.perm_insertionSort r xs).trans ((List.perm_ext_iff_of_nodup hxs hnodup).mpr hmem)
  have : Std.Symm fun a b => ¬ (r a b ∧ r b a) := ⟨fun a b h hba => h hba.symm⟩
  have hpair : ys.Pairwise fun a b => ¬ (r a b ∧ r b a) := hys.imp fun hab hboth => hab.2 hboth.2
  refine hperm.eq_of_pairwise (fun a b ha hb hab hba => ?_) (List.pairwise_insertionSort r xs)
    (hys.imp fun hab => hab.1)
  by_contra hne
  exact hpair.forall (hperm.subset ha) hb hne ⟨hab, hba⟩

end MarkSdk.Lib
