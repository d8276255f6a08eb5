import Mathlib.Data.List.Forall2

/-!
`mapM` where each step may fail: the results match the elements, and there are
results exactly when no step fails.
-/

namespace MarkSdk.Lib

variable {ε α β : Type} {f : α → Except ε β}

theorem mapM_cons_ok {x : α} {xs : List α} {ys : List β} :
    (x :: xs).mapM f = .ok ys ↔ ∃ y zs, f x = .ok y ∧ xs.mapM f = .ok zs ∧ ys = y :: zs := by
  rw [List.mapM_cons]
  cases hx : f x with
  | error e => exact ⟨by rintro ⟨⟩, by rintro ⟨y, zs, ⟨⟩, -⟩⟩
  | ok y =>
      cases hxs : xs.mapM f with
      | error e => exact ⟨by rintro ⟨⟩, by rintro ⟨y, zs, -, ⟨⟩, -⟩⟩
      | ok zs =>
          constructor
          · rintro ⟨⟩
            exact ⟨y, zs, rfl, rfl, rfl⟩
          · rintro ⟨y', zs', ⟨⟩, ⟨⟩, rfl⟩
            rfl

theorem mapM_ok_iff {xs : List α} {ys : List β} :
    xs.mapM f = .ok ys ↔ List.Forall₂ (fun x y => f x = .ok y) xs ys := by
  induction xs generalizing ys with
  | nil =>
      rw [List.forall₂_nil_left_iff]
      exact ⟨fun h => by cases h; rfl, fun h => by rw [h]; rfl⟩
  | cons x xs ih => simp only [mapM_cons_ok, List.forall₂_cons_left_iff, ih]

theorem exists_mapM_ok_iff {xs : List α} :
    (∃ ys, xs.mapM f = .ok ys) ↔ ∀ x ∈ xs, ∃ y, f x = .ok y := by
  induction xs with
  | nil => exact ⟨fun _ => by simp, fun _ => ⟨[], rfl⟩⟩
  | cons x xs ih =>
      simp only [mapM_cons_ok, List.forall_mem_cons, ← ih]
      constructor
      · rintro ⟨ys, y, zs, hy, hzs, -⟩
        exact ⟨⟨y, hy⟩, zs, hzs⟩
      · rintro ⟨⟨y, hy⟩, zs, hzs⟩
        exact ⟨y :: zs, y, zs, hy, hzs, rfl⟩

/-- The results come from the elements, one by one. -/
theorem mem_of_mapM_eq_ok {xs : List α} {ys : List β} (h : xs.mapM f = .ok ys) :
    (∀ y ∈ ys, ∃ x ∈ xs, f x = .ok y) ∧ ∀ x ∈ xs, ∃ y ∈ ys, f x = .ok y := by
  have hall := mapM_ok_iff.mp h
  clear h
  induction hall with
  | nil => simp
  | cons hx _ ih =>
      constructor
      · intro z hz
        obtain rfl | hz := List.mem_cons.mp hz
        · exact ⟨_, List.mem_cons_self, hx⟩
        · obtain ⟨x', hx', hz⟩ := ih.1 z hz
          exact ⟨x', List.mem_cons_of_mem _ hx', hz⟩
      · intro x' hx'
        obtain rfl | hx' := List.mem_cons.mp hx'
        · exact ⟨_, List.mem_cons_self, hx⟩
        · obtain ⟨z, hz, hx'⟩ := ih.2 x' hx'
          exact ⟨z, List.mem_cons_of_mem _ hz, hx'⟩

theorem mapM_eq_some {f : α → Option β} {g : α → β} {xs : List α}
    (h : ∀ x ∈ xs, f x = some (g x)) : xs.mapM f = some (xs.map g) := by
  induction xs with
  | nil => rfl
  | cons x xs ih =>
      rw [List.mapM_cons, h x List.mem_cons_self, ih fun y hy => h y (List.mem_cons_of_mem x hy)]
      rfl

end MarkSdk.Lib
