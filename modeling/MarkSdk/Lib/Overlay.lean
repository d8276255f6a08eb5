import Mathlib.Data.Finset.Card
import Mathlib.Data.Finset.SDiff

/-!
A finite set kept as a shared base with two small overlays.

`plus` holds the elements that were put on top of the base, `minus` the ones
taken out of it. The first never meets the base and the second lies inside
it, so the size is exact and, over one base, the overlays are determined by
the set (`toFinset_inj_of_base`). `shift` moves the set by an exact
difference and touches the overlays alone.
-/

namespace MarkSdk.Lib

structure Overlay (α : Type) [DecidableEq α] where
  base : Finset α
  plus : Finset α
  minus : Finset α
  plus_disjoint : Disjoint plus base
  minus_subset : minus ⊆ base

namespace Overlay

variable {α : Type} [DecidableEq α] (o p : Overlay α)

/-- A set with nothing on top of it. -/
def ofBase (base : Finset α) : Overlay α where
  base := base
  plus := ∅
  minus := ∅
  plus_disjoint := Finset.disjoint_empty_left _
  minus_subset := Finset.empty_subset _

/-- The set that the base and the overlays stand for. -/
def toFinset : Finset α := (o.base \ o.minus) ∪ o.plus

theorem mem_toFinset {x : α} : x ∈ o.toFinset ↔ x ∈ o.plus ∨ x ∈ o.base ∧ x ∉ o.minus := by
  rw [toFinset, Finset.mem_union, Finset.mem_sdiff, or_comm]

@[simp] theorem toFinset_ofBase (base : Finset α) : (ofBase base).toFinset = base := by
  rw [toFinset, ofBase, Finset.sdiff_empty, Finset.union_empty]

theorem not_mem_base_of_mem_plus {x : α} (hx : x ∈ o.plus) : x ∉ o.base :=
  Finset.disjoint_left.mp o.plus_disjoint hx

theorem sdiff_disjoint_plus : Disjoint (o.base \ o.minus) o.plus :=
  (o.plus_disjoint.mono_right Finset.sdiff_subset).symm

theorem card_toFinset : o.toFinset.card + o.minus.card = o.base.card + o.plus.card := by
  have hunion : o.toFinset.card = (o.base \ o.minus).card + o.plus.card :=
    Finset.card_union_of_disjoint o.sdiff_disjoint_plus
  have hbase : (o.base \ o.minus).card + o.minus.card = o.base.card :=
    Finset.card_sdiff_add_card_eq_card o.minus_subset
  omega

/-- Over one base the set determines the overlays. -/
theorem toFinset_inj_of_base {o p : Overlay α} (hbase : o.base = p.base) :
    o.toFinset = p.toFinset ↔ o.plus = p.plus ∧ o.minus = p.minus := by
  constructor
  · intro h
    have hmem (x : α) : (x ∈ o.plus ∨ x ∈ o.base ∧ x ∉ o.minus) ↔
        (x ∈ p.plus ∨ x ∈ o.base ∧ x ∉ p.minus) := by
      have hx := Finset.ext_iff.mp h x
      rwa [mem_toFinset, mem_toFinset, ← hbase] at hx
    constructor
    · -- outside the base an element is in the set only through `plus`
      ext x
      have ho := o.not_mem_base_of_mem_plus (x := x)
      have hp := p.not_mem_base_of_mem_plus (x := x)
      rw [← hbase] at hp
      have := hmem x
      grind
    · -- and inside it an element is missing only through `minus`
      ext x
      have ho := o.not_mem_base_of_mem_plus (x := x)
      have hp := p.not_mem_base_of_mem_plus (x := x)
      rw [← hbase] at hp
      have hmo := @o.minus_subset x
      have hmp := @p.minus_subset x
      rw [← hbase] at hmp
      have := hmem x
      grind
  · rintro ⟨hplus, hminus⟩
    rw [toFinset, toFinset, hbase, hplus, hminus]

/-- The elements added and removed go to the overlays: one that the base
holds only leaves or enters `minus`. -/
def shift (added removed : Finset α) : Overlay α where
  base := o.base
  plus := (o.plus \ removed) ∪ (added \ o.base)
  minus := (o.minus \ added) ∪ (removed ∩ o.base)
  plus_disjoint := by
    rw [Finset.disjoint_union_left]
    exact ⟨o.plus_disjoint.mono_left Finset.sdiff_subset, Finset.sdiff_disjoint⟩
  minus_subset :=
    Finset.union_subset (Finset.sdiff_subset.trans o.minus_subset) Finset.inter_subset_right

theorem toFinset_shift {added removed : Finset α} (hadded : Disjoint added o.toFinset)
    (hremoved : removed ⊆ o.toFinset) :
    (o.shift added removed).toFinset = (o.toFinset ∪ added) \ removed := by
  ext x
  have ha : x ∈ added → x ∉ o.toFinset := fun h => Finset.disjoint_left.mp hadded h
  have hr := @hremoved x
  have hplus := o.not_mem_base_of_mem_plus (x := x)
  rw [mem_toFinset] at ha hr
  simp only [mem_toFinset, shift, Finset.mem_union, Finset.mem_sdiff, Finset.mem_inter]
  grind

def fold : Overlay α := ofBase o.toFinset

@[simp] theorem toFinset_fold : o.fold.toFinset = o.toFinset := toFinset_ofBase _

end Overlay

end MarkSdk.Lib
