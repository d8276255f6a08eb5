import Mathlib.Algebra.BigOperators.Group.Finset.Piecewise
import Mathlib.Algebra.Order.BigOperators.Group.Finset
import MarkSdk.Lib.Dict

/-!
Taking items from a list, with a quota for each key and a limit on all.

Items without a key have no quota. No key gets more than its quota
(`countKey_quota_le`); where the limit is not reached, nothing is left out but
for its quota (`countKey_quota_eq`), and whether it is reached can be counted
beforehand (`length_quota_lt_iff`).
-/

namespace MarkSdk.Lib

variable {α δ : Type} [DecidableEq δ]

/-- The loop: how many of each key and how many at all have been kept. -/
def quotaFrom (key : α → Option δ) (per limit : Nat) (seen : Dict δ Nat) (kept : Nat) :
    List α → List α
  | [] => []
  | x :: xs =>
      match key x with
      | none => x :: if limit ≤ kept + 1 then [] else quotaFrom key per limit seen (kept + 1) xs
      | some d =>
          if per ≤ (seen.get? d).getD 0 then quotaFrom key per limit seen kept xs
          else x ::
            if limit ≤ kept + 1 then []
            else quotaFrom key per limit (seen.set d ((seen.get? d).getD 0 + 1)) (kept + 1) xs

def quota (key : α → Option δ) (per limit : Nat) (xs : List α) : List α :=
  quotaFrom key per limit .empty 0 xs

/-- How many items have a key. -/
def countKey (key : α → Option δ) (o : Option δ) (xs : List α) : Nat :=
  (xs.filter fun x => key x = o).length

/-- How many of `n` items with a key may be kept. -/
def allowed (per : Nat) : Option δ → Nat → Nat
  | none, n => n
  | some _, n => min per n

/-- How many items there are, counting no key beyond its quota. -/
def room (key : α → Option δ) (per : Nat) (xs : List α) : Nat :=
  ∑ o ∈ (xs.map key).toFinset, allowed per o (countKey key o xs)

variable {key : α → Option δ} {per limit : Nat} {seen : Dict δ Nat} {kept : Nat} {xs ys : List α}

theorem countKey_cons_self {o : Option δ} {x : α} (h : key x = o) (xs : List α) :
    countKey key o (x :: xs) = countKey key o xs + 1 := by
  rw [countKey, List.filter_cons_of_pos (by simpa using h)]
  rfl

theorem countKey_cons_ne {o : Option δ} {x : α} (h : key x ≠ o) (xs : List α) :
    countKey key o (x :: xs) = countKey key o xs := by
  rw [countKey, List.filter_cons_of_neg (by simpa using h)]
  rfl

theorem countKey_le_of_sublist (h : ys.Sublist xs) (o : Option δ) :
    countKey key o ys ≤ countKey key o xs :=
  (h.filter _).length_le

theorem countKey_perm (h : xs.Perm ys) (o : Option δ) : countKey key o xs = countKey key o ys :=
  (h.filter _).length_eq

theorem room_perm (h : xs.Perm ys) : room key per xs = room key per ys := by
  rw [room, room, List.toFinset_eq_of_perm _ _ (h.map key)]
  exact Finset.sum_congr rfl fun o _ => by rw [countKey_perm h]

/-! ### The loop -/

theorem quotaFrom_sublist : (quotaFrom key per limit seen kept xs).Sublist xs := by
  induction xs generalizing seen kept with
  | nil => exact List.Sublist.refl _
  | cons x xs ih =>
    rw [quotaFrom]
    split
    · split
      · exact List.singleton_sublist.mpr List.mem_cons_self
      · exact ih.cons_cons x
    · split
      · exact ih.cons x
      · split
        · exact List.singleton_sublist.mpr List.mem_cons_self
        · exact ih.cons_cons x

theorem countKey_quotaFrom_le (d : δ) :
    (seen.get? d).getD 0 + countKey key (some d) (quotaFrom key per limit seen kept xs) ≤
      max per ((seen.get? d).getD 0) := by
  induction xs generalizing seen kept with
  | nil => exact le_max_right _ _
  | cons x xs ih =>
    rw [quotaFrom]
    split
    · rename_i hkey
      have hne : key x ≠ some d := by simp [hkey]
      rw [countKey_cons_ne hne]
      split
      · exact le_max_right _ _
      · exact ih
    · rename_i d' hkey
      split
      · exact ih
      · rename_i hroom
        have hrest := @ih (seen.set d' ((seen.get? d').getD 0 + 1)) (kept + 1)
        rw [Dict.get?_set] at hrest
        by_cases hd : d = d'
        · subst hd
          rw [if_pos rfl, Option.getD_some] at hrest
          rw [countKey_cons_self hkey]
          split
          · rw [show countKey key (some d) ([] : List α) = 0 from rfl]
            omega
          · omega
        · have hne : key x ≠ some d := fun h => hd (Option.some.inj (h.symm.trans hkey))
          rw [if_neg hd] at hrest
          rw [countKey_cons_ne hne]
          split
          · exact le_max_right _ _
          · exact hrest

/-- Where the limit is not reached, every key gets what its quota leaves. -/
theorem countKey_quotaFrom_eq
    (h : kept + (quotaFrom key per limit seen kept xs).length < limit) :
    countKey key none (quotaFrom key per limit seen kept xs) = countKey key none xs ∧
      ∀ d, countKey key (some d) (quotaFrom key per limit seen kept xs) =
        min (per - (seen.get? d).getD 0) (countKey key (some d) xs) := by
  induction xs generalizing seen kept with
  | nil => exact ⟨rfl, fun d => (Nat.min_zero _).symm⟩
  | cons x xs ih =>
    rw [quotaFrom] at h ⊢
    split at h
    · rename_i hkey
      rw [List.length_cons] at h
      rw [if_neg (by omega)] at h ⊢
      obtain ⟨hnone, hsome⟩ := @ih seen (kept + 1) (by omega)
      refine ⟨?_, fun d => ?_⟩
      · rw [countKey_cons_self hkey, countKey_cons_self hkey, hnone]
      · have hne : key x ≠ some d := by simp [hkey]
        rw [countKey_cons_ne hne, countKey_cons_ne hne, hsome d]
    · rename_i d' hkey
      have hnokey : key x ≠ none := by simp [hkey]
      split at h
      · rename_i hfull
        rw [if_pos hfull, countKey_cons_ne hnokey]
        obtain ⟨hnone, hsome⟩ := ih h
        refine ⟨hnone, fun d => ?_⟩
        rw [hsome d]
        by_cases hd : d' = d
        · subst hd
          rw [countKey_cons_self hkey]
          omega
        · have hne : key x ≠ some d := fun h => hd (Option.some.inj (hkey.symm.trans h))
          rw [countKey_cons_ne hne]
      · rename_i hroom
        rw [List.length_cons] at h
        rw [if_neg hroom]
        rw [if_neg (by omega)] at h ⊢
        obtain ⟨hnone, hsome⟩ :=
          @ih (seen.set d' ((seen.get? d').getD 0 + 1)) (kept + 1) (by omega)
        refine ⟨?_, fun d => ?_⟩
        · rw [countKey_cons_ne hnokey, countKey_cons_ne hnokey, hnone]
        · have hrest := hsome d
          rw [Dict.get?_set] at hrest
          by_cases hd : d = d'
          · subst hd
            rw [if_pos rfl, Option.getD_some] at hrest
            rw [countKey_cons_self hkey, countKey_cons_self hkey, hrest]
            omega
          · have hne : key x ≠ some d := fun h => hd (Option.some.inj (h.symm.trans hkey))
            rw [if_neg hd] at hrest
            rw [countKey_cons_ne hne, countKey_cons_ne hne, hrest]

/-- What is kept stands behind fewer items of its key than its quota, and
behind what does not reach the limit. -/
theorem mem_quotaFrom_split {x : α} (hkept : kept < limit)
    (h : x ∈ quotaFrom key per limit seen kept xs) :
    ∃ before after, xs = before ++ x :: after ∧
      (∀ d, key x = some d → (seen.get? d).getD 0 + countKey key (some d) before < per) ∧
      kept + (quotaFrom key per limit seen kept before).length < limit := by
  induction xs generalizing seen kept with
  | nil => cases h
  | cons y xs ih =>
    rw [quotaFrom] at h
    split at h
    · rename_i hkey
      rcases List.mem_cons.mp h with rfl | h
      · refine ⟨[], xs, rfl, fun d hd => ?_, hkept⟩
        rw [hkey] at hd
        cases hd
      · split at h
        · cases h
        · rename_i hmore
          obtain ⟨before, after, rfl, hquota, hlimit⟩ := ih (by omega) h
          refine ⟨y :: before, after, rfl, fun d hd => ?_, ?_⟩
          · rw [countKey_cons_ne (by simp [hkey])]
            exact hquota d hd
          · rw [quotaFrom, hkey]
            simp only
            rw [if_neg hmore, List.length_cons]
            omega
    · rename_i d' hkey
      split at h
      · rename_i hfull
        obtain ⟨before, after, rfl, hquota, hlimit⟩ := ih hkept h
        refine ⟨y :: before, after, rfl, fun d hd => ?_, ?_⟩
        · have hless := hquota d hd
          have hne : d' ≠ d := by
            rintro rfl
            omega
          rw [countKey_cons_ne (by simpa [hkey] using hne)]
          exact hless
        · rw [quotaFrom, hkey]
          simp only
          rw [if_pos hfull]
          exact hlimit
      · rename_i hroom
        rcases List.mem_cons.mp h with rfl | h
        · refine ⟨[], xs, rfl, fun d hd => ?_, hkept⟩
          obtain rfl := Option.some.inj (hkey.symm.trans hd)
          exact not_le.mp hroom
        · split at h
          · cases h
          · rename_i hmore
            obtain ⟨before, after, rfl, hquota, hlimit⟩ := ih (by omega) h
            refine ⟨y :: before, after, rfl, fun d hd => ?_, ?_⟩
            · have hless := hquota d hd
              rw [Dict.get?_set] at hless
              by_cases hsame : d = d'
              · subst hsame
                rw [if_pos rfl, Option.getD_some] at hless
                rw [countKey_cons_self hkey]
                omega
              · rw [if_neg hsame] at hless
                rw [countKey_cons_ne (by simpa [hkey] using Ne.symm hsame)]
                exact hless
            · rw [quotaFrom, hkey]
              simp only
              rw [if_neg hroom, if_neg hmore, List.length_cons]
              omega

/-! ### The whole list -/

theorem quota_sublist : (quota key per limit xs).Sublist xs := quotaFrom_sublist

theorem countKey_quota_le (d : δ) : countKey key (some d) (quota key per limit xs) ≤ per := by
  have h := @countKey_quotaFrom_le α δ _ key per limit .empty 0 xs d
  have hempty : (Dict.get? (Table.empty : Dict δ Nat) d).getD 0 = 0 := rfl
  rw [hempty, Nat.zero_add, Nat.max_zero] at h
  exact h

theorem countKey_quota_eq (h : (quota key per limit xs).length < limit) (o : Option δ) :
    countKey key o (quota key per limit xs) = allowed per o (countKey key o xs) := by
  obtain ⟨hnone, hsome⟩ := @countKey_quotaFrom_eq α δ _ key per limit .empty 0 xs
    (by rwa [Nat.zero_add])
  cases o with
  | none => exact hnone
  | some d => exact hsome d

/-- What is left out has a key whose quota is used up. -/
theorem mem_quota_or_full (h : (quota key per limit xs).length < limit) {x : α} (hx : x ∈ xs) :
    x ∈ quota key per limit xs ∨
      ∃ d, key x = some d ∧ countKey key (some d) (quota key per limit xs) = per := by
  have hcount := countKey_quota_eq h (key x)
  -- where none of the key is left out, `x` is not
  have hall : countKey key (key x) (quota key per limit xs) = countKey key (key x) xs →
      x ∈ quota key per limit xs := by
    intro hsame
    have hsub : ((quota key per limit xs).filter fun y => key y = key x).Sublist
        (xs.filter fun y => key y = key x) := quota_sublist.filter _
    have heq := hsub.eq_of_length hsame
    have hmem : x ∈ xs.filter fun y => key y = key x := List.mem_filter.mpr ⟨hx, by simp⟩
    rw [← heq] at hmem
    exact (List.mem_filter.mp hmem).1
  cases hkey : key x with
  | none =>
    rw [hkey] at hcount hall
    exact .inl (hall hcount)
  | some d =>
    rw [hkey] at hcount hall
    by_cases hfew : countKey key (some d) xs ≤ per
    · exact .inl (hall (hcount.trans (Nat.min_eq_right hfew)))
    · exact .inr ⟨d, rfl, hcount.trans (Nat.min_eq_left (by omega))⟩

/-- What is kept is at the front, or stands behind fewer items of its key than
its quota and behind what leaves room. -/
theorem mem_quota_split {x : α} (hper : 0 < per) (h : x ∈ quota key per limit xs) :
    ∃ before after, xs = before ++ x :: after ∧
      (∀ d, key x = some d → countKey key (some d) before < per) ∧
      (before = [] ∨ (quota key per limit before).length < limit) := by
  by_cases hlimit : 0 < limit
  · obtain ⟨before, after, hsplit, hquota, hless⟩ := mem_quotaFrom_split hlimit h
    refine ⟨before, after, hsplit, fun d hd => ?_, .inr (by rwa [Nat.zero_add] at hless)⟩
    have hcount := hquota d hd
    have hempty : (Dict.get? (Table.empty : Dict δ Nat) d).getD 0 = 0 := rfl
    rwa [hempty, Nat.zero_add] at hcount
  · cases xs with
    | nil => cases h
    | cons y xs =>
      have hempty : ∀ d, (Dict.get? (Table.empty : Dict δ Nat) d).getD 0 = 0 := fun d => rfl
      have hfirst : x = y := by
        rw [quota, quotaFrom] at h
        have hstop : limit ≤ 0 + 1 := by omega
        split at h
        · rw [if_pos hstop] at h
          exact List.mem_singleton.mp h
        · rw [hempty, if_neg (by omega), if_pos hstop] at h
          exact List.mem_singleton.mp h
      subst hfirst
      exact ⟨[], xs, rfl, fun d _ => hper, .inl rfl⟩

theorem length_eq_sum {s : Finset (Option δ)} (h : ∀ y ∈ ys, key y ∈ s) :
    ys.length = ∑ o ∈ s, countKey key o ys := by
  induction ys with
  | nil => exact (Finset.sum_const_zero).symm
  | cons y ys ih =>
    obtain ⟨hy, hys⟩ := List.forall_mem_cons.mp h
    have hcons : ∀ o, countKey key o (y :: ys) = countKey key o ys + if key y = o then 1 else 0 := by
      intro o
      split
      · rename_i hkey
        exact countKey_cons_self hkey ys
      · rename_i hkey
        exact countKey_cons_ne hkey ys
    rw [List.length_cons, ih hys, Finset.sum_congr rfl fun o _ => hcons o, Finset.sum_add_distrib,
      Finset.sum_ite_eq, if_pos hy]

/-- The limit is not reached exactly when there is too little room. -/
theorem length_quota_lt_iff : (quota key per limit xs).length < limit ↔ room key per xs < limit := by
  have hkeys : ∀ y ∈ quota key per limit xs, key y ∈ (xs.map key).toFinset := by
    intro y hy
    exact List.mem_toFinset.mpr (List.mem_map_of_mem (quota_sublist.subset hy))
  have hlength := length_eq_sum hkeys
  constructor
  · intro h
    have hroom : room key per xs = (quota key per limit xs).length := by
      rw [hlength, room]
      exact Finset.sum_congr rfl fun o _ => (countKey_quota_eq h o).symm
    omega
  · intro h
    refine lt_of_le_of_lt ?_ h
    rw [hlength, room]
    refine Finset.sum_le_sum fun o _ => ?_
    have hle := @countKey_le_of_sublist α δ _ key xs _ (@quota_sublist α δ _ key per limit xs) o
    cases o with
    | none => exact hle
    | some d => exact le_min (countKey_quota_le d) hle

end MarkSdk.Lib
