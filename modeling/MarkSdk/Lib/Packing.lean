import Mathlib.Data.List.Basic
import Mathlib.Data.List.Chain

/-!
Packing a list into groups, in order.

An item goes into the current group, unless the group is full for it: then
the group is closed, and the next one begins with what is carried over from
it. Without what is carried over the groups are the list again
(`exists_parts`), and a property that every way to extend a group keeps holds of
every group (`forall_packing`).
-/

namespace MarkSdk.Lib

variable {α : Type} (full : List α → α → Bool) (carry : List α → α → List α)

/-- The groups, from a group that is begun. -/
def packing : List α → List α → List (List α)
  | current, [] => if current.isEmpty then [] else [current]
  | current, x :: xs =>
      if !current.isEmpty && full current x then current :: packing (carry current x ++ [x]) xs
      else packing (current ++ [x]) xs

/-- Without anything carried over. -/
def filling : List α → List (List α) := packing full (fun _ _ => []) []

variable {full carry}

theorem packing_cons_of_full {current : List α} {x : α} (xs : List α) (hne : current ≠ [])
    (h : full current x = true) :
    packing full carry current (x :: xs) =
      current :: packing full carry (carry current x ++ [x]) xs := by
  rw [packing, if_pos]
  simp [hne, h]

theorem packing_cons_of_not_full {current : List α} {x : α} (xs : List α)
    (h : current = [] ∨ full current x = false) :
    packing full carry current (x :: xs) = packing full carry (current ++ [x]) xs := by
  rw [packing, if_neg]
  obtain rfl | h := h
  · simp
  · simp [h]

/-- Each group is what it carries over and at least one new item; the new items
are the list in order. -/
structure Parts (carry : List α → α → List α) (carried new : List α)
    (parts : List (List α × List α)) : Prop where
  new : (parts.map Prod.snd).flatten = new
  nonempty : ∀ p ∈ parts, p.2 ≠ []
  first : ∀ p ∈ parts.head?, p.1 = carried
  next : parts.IsChain fun p q => ∃ x, q.2.head? = some x ∧ q.1 = carry (p.1 ++ p.2) x

/-- From a group that carries something over and has new items already. -/
theorem exists_parts_from (carried : List α) {fresh : List α} (hfresh : fresh ≠ [])
    (xs : List α) :
    ∃ parts, packing full carry (carried ++ fresh) xs = parts.map (fun p => p.1 ++ p.2) ∧
      Parts carry carried (fresh ++ xs) parts ∧ ∀ p ∈ parts.head?, fresh <+: p.2 := by
  induction xs generalizing carried fresh with
  | nil =>
      refine ⟨[(carried, fresh)], ?_, ?_, ?_⟩
      · rw [packing, if_neg (by simp [hfresh])]
        rfl
      · exact ⟨by simp, by simpa using hfresh, by simp, List.isChain_singleton _⟩
      · simp
  | cons x xs ih =>
      have hne : carried ++ fresh ≠ [] := by simp [hfresh]
      by_cases hfull : full (carried ++ fresh) x = true
      · obtain ⟨parts, hparts, h, hbegin⟩ := ih (carry (carried ++ fresh) x) (List.cons_ne_nil x [])
        refine ⟨(carried, fresh) :: parts, ?_, ⟨?_, ?_, by simp, ?_⟩, by simp⟩
        · rw [packing_cons_of_full xs hne hfull, hparts]
          rfl
        · rw [List.map_cons, List.flatten_cons, h.new]
          rfl
        · rintro p (_ | ⟨_, hp⟩)
          · exact hfresh
          · exact h.nonempty p hp
        · rw [List.isChain_cons]
          refine ⟨fun q hq => ⟨x, ?_, h.first q hq⟩, h.next⟩
          obtain ⟨rest, hrest⟩ := hbegin q hq
          rw [← hrest]
          rfl
      · obtain ⟨parts, hparts, h, hbegin⟩ := @ih carried (fresh ++ [x]) (by simp)
        rw [List.append_assoc] at h
        refine ⟨parts, ?_, h, fun p hp => (List.prefix_append fresh [x]).trans (hbegin p hp)⟩
        rw [packing_cons_of_not_full xs (.inr (by simpa using hfull)), List.append_assoc, hparts]

/-- The groups of a list. -/
theorem exists_parts (xs : List α) :
    ∃ parts, packing full carry [] xs = parts.map (fun p => p.1 ++ p.2) ∧
      Parts carry [] xs parts := by
  cases xs with
  | nil => exact ⟨[], rfl, ⟨rfl, by simp, by simp, List.isChain_nil⟩⟩
  | cons x xs =>
      obtain ⟨parts, hparts, h, -⟩ :=
        @exists_parts_from α full carry [] [x] (List.cons_ne_nil x []) xs
      refine ⟨parts, ?_, h⟩
      rw [packing_cons_of_not_full xs (.inl rfl)]
      exact hparts

/-- What the first item, every further item and every new group keep. -/
theorem forall_packing {P : List α → Prop} (hone : ∀ x, P [x])
    (hmore : ∀ current x, current ≠ [] → full current x = false → P (current ++ [x]))
    (hnext : ∀ current x, full current x = true → P (carry current x ++ [x]))
    {current : List α} (hcurrent : current ≠ [] → P current) {xs : List α} :
    ∀ group ∈ packing full carry current xs, P group := by
  induction xs generalizing current with
  | nil =>
      intro group hgroup
      rw [packing] at hgroup
      split at hgroup
      · cases hgroup
      · rename_i hne
        rw [List.mem_singleton.mp hgroup]
        exact hcurrent (by simpa using hne)
  | cons x xs ih =>
      by_cases hne : current = []
      · subst hne
        rw [packing_cons_of_not_full xs (.inl rfl)]
        exact ih fun _ => hone x
      · by_cases hfull : full current x = true
        · rw [packing_cons_of_full xs hne hfull]
          rintro group (_ | ⟨_, hgroup⟩)
          · exact hcurrent hne
          · exact ih (fun _ => hnext current x hfull) group hgroup
        · have hfull : full current x = false := by simpa using hfull
          rw [packing_cons_of_not_full xs (.inr hfull)]
          exact ih fun _ => hmore current x hne hfull

theorem flatten_packing_nil (current xs : List α) :
    (packing full (fun _ _ => []) current xs).flatten = current ++ xs := by
  induction xs generalizing current with
  | nil =>
      rw [packing]
      split
      · rename_i hempty
        rw [List.isEmpty_iff.mp hempty]
        rfl
      · simp
  | cons x xs ih =>
      rw [packing]
      split
      · rw [List.flatten_cons, ih]
        rfl
      · rw [ih, List.append_assoc]
        rfl

@[simp] theorem flatten_filling (xs : List α) : (filling full xs).flatten = xs :=
  flatten_packing_nil [] xs

theorem filling_ne_nil {xs : List α} (h : xs ≠ []) : filling full xs ≠ [] := by
  intro hnil
  have hflat := @flatten_filling α full xs
  rw [hnil] at hflat
  exact h hflat.symm

end MarkSdk.Lib
