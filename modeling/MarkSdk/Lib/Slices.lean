import Mathlib.Data.List.Basic

/-!
Lists cut into slices of one length.

Rows of one width that are written one behind the other are the slices of
what is written (`map_sliceAt_flatten`), so that any of them can be picked out
by its place. The slices of a list, one behind the other, are the list again
(`flatMap_sliceAt`).
-/

namespace MarkSdk.Lib

variable {α β : Type}

/-- `xs[size * i : size * (i + 1)]` -/
def sliceAt (size : Nat) (xs : List α) (i : Nat) : List α := (xs.drop (size * i)).take size

theorem sliceAt_zero (size : Nat) (xs : List α) : sliceAt size xs 0 = xs.take size := rfl

theorem sliceAt_succ (size : Nat) (xs : List α) (i : Nat) :
    sliceAt size xs (i + 1) = sliceAt size (xs.drop size) i := by
  unfold sliceAt
  rw [List.drop_drop, Nat.mul_succ, Nat.add_comm]

theorem length_sliceAt {size n i : Nat} {xs : List α} (h : xs.length = size * n) (hi : i < n) :
    (sliceAt size xs i).length = size := by
  have hroom : size * (i + 1) ≤ size * n := Nat.mul_le_mul_left size hi
  rw [Nat.mul_succ] at hroom
  unfold sliceAt
  rw [List.length_take, List.length_drop, h]
  omega

theorem mem_of_mem_sliceAt {size i : Nat} {xs : List α} {x : α} (h : x ∈ sliceAt size xs i) :
    x ∈ xs :=
  List.mem_of_mem_drop (List.mem_of_mem_take h)

/-- Two lists are cut alike. -/
theorem zip_sliceAt (size i : Nat) (xs : List α) (ys : List β) :
    (sliceAt size xs i).zip (sliceAt size ys i) = sliceAt size (xs.zip ys) i := by
  unfold sliceAt List.zip
  rw [List.drop_zipWith, List.take_zipWith]

/-- As many slices as cover the list. -/
theorem flatMap_sliceAt {size n : Nat} {xs : List α} (h : xs.length ≤ size * n) :
    (List.range n).flatMap (sliceAt size xs) = xs := by
  induction n generalizing xs with
  | zero =>
      have hnil : xs = [] := List.eq_nil_of_length_eq_zero (by omega)
      rw [hnil, List.range_zero, List.flatMap_nil]
  | succ n ih =>
      have hrest : (xs.drop size).length ≤ size * n := by
        rw [List.length_drop]
        rw [Nat.mul_succ] at h
        omega
      rw [List.range_succ_eq_map, List.flatMap_cons, List.flatMap_map, sliceAt_zero]
      simp only [sliceAt_succ]
      rw [ih hrest, List.take_append_drop]

/-- Rows of one width are the slices of what they are written to. -/
theorem map_sliceAt_flatten {width : Nat} {rows : List (List α)}
    (h : ∀ row ∈ rows, row.length = width) :
    (List.range rows.length).map (sliceAt width rows.flatten) = rows := by
  induction rows with
  | nil => rfl
  | cons row rows ih =>
      have hrow : row.length = width := h row List.mem_cons_self
      have hfirst : (row ++ rows.flatten).take width = row := by rw [← hrow, List.take_left]
      have hrest : (row ++ rows.flatten).drop width = rows.flatten := by
        rw [← hrow, List.drop_left]
      have hshift : sliceAt width (row ++ rows.flatten) ∘ Nat.succ =
          sliceAt width rows.flatten := by
        funext i
        show sliceAt width (row ++ rows.flatten) (i + 1) = _
        rw [sliceAt_succ, hrest]
      rw [List.length_cons, List.range_succ_eq_map, List.map_cons, List.map_map, List.flatten_cons,
        sliceAt_zero, hfirst, hshift, ih fun r hr => h r (List.mem_cons_of_mem row hr)]

theorem length_flatten_of_width {width : Nat} {rows : List (List α)}
    (h : ∀ row ∈ rows, row.length = width) : rows.flatten.length = width * rows.length := by
  induction rows with
  | nil => rfl
  | cons row rows ih =>
      rw [List.flatten_cons, List.length_append, List.length_cons, Nat.mul_succ,
        h row List.mem_cons_self, ih fun r hr => h r (List.mem_cons_of_mem row hr), Nat.add_comm]

end MarkSdk.Lib
