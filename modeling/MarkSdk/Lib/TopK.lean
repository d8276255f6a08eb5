import MarkSdk.Lib.SortedBy

/-!
The best `k` of a list.

Sorting commutes with translations that keep the order (`sortedBy_filterMap`),
and a threshold that leaves `k` elements leaves the best `k`
(`take_filterMap_threshold`).
-/

namespace MarkSdk.Lib

variable {ι ι' κ κ' : Type} [LinearOrder κ] [LinearOrder κ'] {key : ι → κ} {key' : ι' → κ'}
  {items sorted : List ι}

/-- Where keys tell the items apart, there is one ascending arrangement. -/
theorem eq_sortedBy (hperm : sorted.Perm items)
    (hsorted : sorted.Pairwise fun i j => key i ≤ key j)
    (hkey : ∀ i ∈ items, ∀ j ∈ items, key i = key j → i = j) : sorted = sortedBy key items := by
  refine @List.Perm.eq_of_pairwise ι (fun i j => key i ≤ key j) _ _ ?_ ?_ ?_ ?_
  · intro i j hi hj hij hji
    exact hkey i (hperm.mem_iff.mp hi) j (sortedBy_perm.mem_iff.mp hj) (le_antisymm hij hji)
  · exact hsorted
  · exact sortedBy_pairwise
  · exact hperm.trans sortedBy_perm.symm

/-- What keeps the order may be done before the sort or after it. -/
theorem sortedBy_filterMap {f : ι → Option ι'}
    (hkey : ∀ i ∈ items, ∀ j ∈ items, key i = key j → i = j)
    (hle : ∀ i ∈ items, ∀ j ∈ items, ∀ a ∈ f i, ∀ b ∈ f j, key' a ≤ key' b ↔ key i ≤ key j) :
    sortedBy key' (items.filterMap f) = (sortedBy key items).filterMap f := by
  symm
  refine eq_sortedBy (sortedBy_perm.filterMap f) ?_ ?_
  · have hmem := @sortedBy_pairwise ι κ _ key items
    rw [List.pairwise_filterMap]
    refine hmem.imp_of_mem ?_
    intro i j hi hj hij a ha b hb
    exact (hle i (sortedBy_perm.mem_iff.mp hi) j (sortedBy_perm.mem_iff.mp hj) a ha b hb).mpr hij
  · intro a ha b hb heq
    obtain ⟨i, hi, hia⟩ := List.mem_filterMap.mp ha
    obtain ⟨j, hj, hjb⟩ := List.mem_filterMap.mp hb
    have hij := (hle i hi j hj a hia b hjb).mp heq.le
    have hji := (hle j hj i hi b hjb a hia).mp heq.ge
    obtain rfl := hkey i hi j hj (le_antisymm hij hji)
    exact Option.some.inj (hia.symm.trans hjb)

theorem sortedBy_map {f : ι → ι'} (hkey : ∀ i ∈ items, ∀ j ∈ items, key i = key j → i = j)
    (hle : ∀ i ∈ items, ∀ j ∈ items, key' (f i) ≤ key' (f j) ↔ key i ≤ key j) :
    sortedBy key' (items.map f) = (sortedBy key items).map f := by
  rw [← List.filterMap_eq_map]
  refine sortedBy_filterMap hkey ?_
  rintro i hi j hj a ⟨⟩ b ⟨⟩
  exact hle i hi j hj

theorem sortedBy_filter (p : ι → Bool) (hkey : ∀ i ∈ items, ∀ j ∈ items, key i = key j → i = j) :
    sortedBy key (items.filter p) = (sortedBy key items).filter p := by
  rw [← List.filterMap_eq_filter]
  refine sortedBy_filterMap hkey ?_
  intro i _ j _ a ha b hb
  rw [(Option.guard_eq_some_iff.mp ha).1, (Option.guard_eq_some_iff.mp hb).1]

/-! ### A threshold -/

section Threshold

variable {σ : Type} [LinearOrder σ] {score : ι → σ} {bound : σ} {k : Nat}

/-- The `k`-th largest of some scores: `k` of them reach it. -/
theorem le_countP_of_sorted {scores : List σ} (hk : 0 < k) (hlength : k ≤ scores.length)
    (hbound : (sortedBy id scores)[scores.length - k]? = some bound) :
    k ≤ scores.countP fun s => bound ≤ s := by
  have hperm := @sortedBy_perm σ σ _ id scores
  have hsorted := @sortedBy_pairwise σ σ _ id scores
  rw [← hperm.countP_eq, ← List.take_append_drop (scores.length - k) (sortedBy id scores),
    List.countP_append]
  have hall : ((sortedBy id scores).drop (scores.length - k)).countP (fun s => bound ≤ s) =
      ((sortedBy id scores).drop (scores.length - k)).length := by
    rw [List.countP_eq_length]
    intro s hs
    obtain ⟨i, hi⟩ := List.mem_iff_getElem?.mp hs
    rw [List.getElem?_drop] at hi
    rw [decide_eq_true_iff]
    cases i with
    | zero =>
        rw [Nat.add_zero, hbound] at hi
        exact (Option.some.inj hi).le
    | succ i =>
        obtain ⟨hlt, rfl⟩ := List.getElem?_eq_some_iff.mp hi
        obtain ⟨hlt', rfl⟩ := List.getElem?_eq_some_iff.mp hbound
        exact List.pairwise_iff_getElem.mp hsorted _ _ hlt' hlt (by omega)
  rw [hall, List.length_drop, hperm.length_eq]
  omega

variable (bound) in
/-- Of a list with falling scores, the ones that reach a bound come first. -/
theorem filter_append_of_falling (hfalling : items.Pairwise fun i j => score j ≤ score i) :
    items = (items.filter fun i => bound ≤ score i) ++ items.filter fun i => ¬ bound ≤ score i := by
  induction items with
  | nil => rfl
  | cons i items ih =>
      obtain ⟨hfirst, hrest⟩ := List.pairwise_cons.mp hfalling
      by_cases hi : bound ≤ score i
      · rw [List.filter_cons_of_pos (by simpa using hi), List.filter_cons_of_neg (by simpa using hi),
          List.cons_append, ← ih hrest]
      · have hnone : items.filter (fun j => bound ≤ score j) = [] := by
          rw [List.filter_eq_nil_iff]
          intro j hj hbound
          exact hi ((of_decide_eq_true hbound).trans (hfirst j hj))
        have hrestAll := ih hrest
        rw [hnone, List.nil_append] at hrestAll
        rw [List.filter_cons_of_neg (by simpa using hi), List.filter_cons_of_pos (by simpa using hi),
          hnone, List.nil_append, ← hrestAll]

/-- A bound that enough elements reach changes nothing in the best ones. -/
theorem take_filterMap_threshold {f : ι → Option ι'}
    (hfalling : items.Pairwise fun i j => score j ≤ score i)
    (hk : k ≤ items.countP fun i => bound ≤ score i)
    (hf : ∀ i ∈ items, bound ≤ score i → (f i).isSome) :
    ((items.filter fun i => bound ≤ score i).filterMap f).take k = (items.filterMap f).take k := by
  have hsplit := filter_append_of_falling bound hfalling
  have hlength : ((items.filter fun i => bound ≤ score i).filterMap f).length =
      (items.filter fun i => bound ≤ score i).length := by
    rw [List.length_filterMap_eq_countP, List.countP_eq_length]
    intro i hi
    obtain ⟨hmem, hbound⟩ := List.mem_filter.mp hi
    exact hf i hmem (of_decide_eq_true hbound)
  have hlong : k ≤ ((items.filter fun i => bound ≤ score i).filterMap f).length := by
    rw [hlength, ← List.countP_eq_length_filter]
    exact hk
  conv_rhs => rw [hsplit, List.filterMap_append, List.take_append_of_le_length hlong]

end Threshold

end MarkSdk.Lib
