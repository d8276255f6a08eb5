import Mathlib.Data.List.Sort

/-!
Stable sorting by a key, upwards and downwards.

Where the key tells the elements apart, the one order is the other reversed
(`sortedByDesc_eq_reverse`).
-/

namespace MarkSdk.Lib

variable {ι κ : Type} [LinearOrder κ]

/-- `sorted(items, key=key)`: items with one key keep their order. -/
def sortedBy (key : ι → κ) (items : List ι) : List ι :=
  items.insertionSort fun i j => key i ≤ key j

/-- `sorted(items, key=key, reverse=True)`, which keeps that order too. -/
def sortedByDesc (key : ι → κ) (items : List ι) : List ι :=
  items.insertionSort fun i j => key j ≤ key i

variable {key : ι → κ} {items : List ι}

theorem sortedBy_perm : (sortedBy key items).Perm items :=
  List.perm_insertionSort _ _

theorem sortedByDesc_perm : (sortedByDesc key items).Perm items :=
  List.perm_insertionSort _ _

theorem sortedBy_pairwise : (sortedBy key items).Pairwise fun i j => key i ≤ key j := by
  have total : Std.Total fun i j : ι => key i ≤ key j := ⟨fun i j => le_total (key i) (key j)⟩
  have trans : IsTrans ι fun i j => key i ≤ key j := ⟨fun _ _ _ => le_trans⟩
  exact List.pairwise_insertionSort _ _

theorem sortedByDesc_pairwise :
    (sortedByDesc key items).Pairwise fun i j => key j ≤ key i := by
  have total : Std.Total fun i j : ι => key j ≤ key i := ⟨fun i j => le_total (key j) (key i)⟩
  have trans : IsTrans ι fun i j => key j ≤ key i := ⟨fun _ _ _ h h' => le_trans h' h⟩
  exact List.pairwise_insertionSort _ _

variable (key) in
/-- Where keys tell the items apart, a descending sort is the reverse of any
ascending arrangement of the same items. -/
theorem sortedByDesc_eq_reverse {sorted : List ι} (hperm : sorted.Perm items)
    (hsorted : sorted.Pairwise fun i j => key i ≤ key j)
    (hkey : ∀ i ∈ items, ∀ j ∈ items, key i = key j → i = j) :
    sortedByDesc key items = sorted.reverse := by
  refine @List.Perm.eq_of_pairwise ι (fun i j => key j ≤ key i) _ _ ?_ ?_ ?_ ?_
  · intro i j hi hj hij hji
    have hi' : i ∈ items := sortedByDesc_perm.mem_iff.mp hi
    have hj' : j ∈ items := hperm.mem_iff.mp (List.mem_reverse.mp hj)
    exact hkey i hi' j hj' (le_antisymm hji hij)
  · exact sortedByDesc_pairwise
  · exact List.pairwise_reverse.mpr hsorted
  · exact sortedByDesc_perm.trans (hperm.symm.trans sorted.reverse_perm.symm)

end MarkSdk.Lib
